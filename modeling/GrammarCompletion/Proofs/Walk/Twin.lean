/-
# Walks that mirror each other

Where the plans of bodies mirror each other, whole walks do.  Their runs stay alike: they have used
the same fuel, they are inside the same rules at corresponding positions, they remember the same
results and have the same candidates (`Run.Mirrors`).

`Session.Twin` adds to the correspondence of positions what is needed to visit rules, and
`Twin.matchRule` is the induction on how deep rules lie inside each other.  That results are as
expected is a fact about one of the two walks alone (`Session.Predicts`), so it is taken from the
regime of that walk and not proved again for both.
-/
import GrammarCompletion.Completion
import GrammarCompletion.Proofs.Walk.Collecting
import GrammarCompletion.Proofs.Walk.Mirror
import GrammarCompletion.Proofs.Walk.Visiting

namespace GrammarCompletion

open Walk

/-! ## Runs that are alike -/

/-- The same rule at corresponding positions. -/
structure Spot.Mirrors (T : Nat → Nat → Prop) (a a' : Spot) : Prop where
  rule : a'.rule = a.rule
  start : T a.start a'.start

/-- Frames at corresponding spots with the same marks. -/
structure Frame.Mirrors (T : Nat → Nat → Prop) (f f' : Frame) : Prop where
  spot : f.spot.Mirrors T f'.spot
  recursed : f'.recursed = f.recursed
  tainted : f'.tainted = f.tainted

/-- Results that are remembered alike. -/
structure Memo.Mirrors (T : Nat → Nat → Prop) (e e' : Memo) : Prop where
  outcome : e.outcome.Mirrors T e'.outcome
  growing : e'.growing = e.growing

/-- Two runs that differ in positions and events only. -/
structure Run.Mirrors (T : Nat → Nat → Prop) (r r' : Run) : Prop where
  fuel : r'.fuel = r.fuel
  frames : List.Forall₂ (Frame.Mirrors T) r.frames r'.frames
  collecting : r'.collecting = r.collecting
  memo : ∀ a a' : Spot, a.Mirrors T a' → Option.Rel (Memo.Mirrors T) r.memo[a]? r'.memo[a']?
  candidates : r'.candidates = r.candidates

namespace Walk

variable {α β γ δ : Type}

/-- From runs that are related, two parts of walks end with the same error, or with results and runs
that are related again. -/
def Agree (R : Run → Run → Prop) (Q : α → β → Prop) (x : Walk α) (y : Walk β) : Prop :=
  ∀ r r', R r r' → match x r, y r' with
    | .ok a r₁, .ok b r₁' => Q a b ∧ R r₁ r₁'
    | .error e _, .error e' _ => e' = e
    | _, _ => False

namespace Agree

variable {R : Run → Run → Prop} {Q : α → β → Prop} {Q' : γ → δ → Prop} {x : Walk α} {y : Walk β}

lemma pure {a : α} {b : β} (h : Q a b) :
    Agree R Q (Pure.pure a : Walk α) (Pure.pure b : Walk β) :=
  fun _ _ hr => ⟨h, hr⟩

lemma throw {e : CompletionError} :
    Agree R Q (MonadExcept.throw e : Walk α) (MonadExcept.throw e : Walk β) :=
  fun _ _ _ => rfl

lemma modify {f g : Run → Run} (h : ∀ r r', R r r' → R (f r) (g r')) :
    Agree R (fun _ _ => True) (modify f : Walk Unit) (modify g : Walk Unit) :=
  fun r r' hr => ⟨trivial, h r r' hr⟩

/-- What is done may depend on the runs, if it agrees for all runs that are related. -/
lemma get {f : Run → Walk α} {g : Run → Walk β}
    (h : ∀ r r', R r r' → Agree R Q (f r) (g r')) : Agree R Q (get >>= f) (get >>= g) :=
  fun r r' hr => h r r' hr r r' hr

lemma bind {f : α → Walk γ} {g : β → Walk δ} (hx : Agree R Q x y)
    (hf : ∀ a b, Q a b → Agree R Q' (f a) (g b)) : Agree R Q' (x >>= f) (y >>= g) := by
  intro r r' hr
  have h := hx r r' hr
  simp only [Bind.bind, EStateM.bind]
  cases hxr : x r <;> cases hyr : y r' <;> rw [hxr, hyr] at h
  · exact hf _ _ h.1 _ _ h.2
  · exact h.elim
  · exact h.elim
  · exact h

lemma ite {c c' : Prop} [Decidable c] [Decidable c'] {x' : Walk α} {y' : Walk β} (hc : c ↔ c')
    (hx : c → Agree R Q x y) (hy : ¬ c → Agree R Q x' y') :
    Agree R Q (if c then x else x') (if c' then y else y') := by
  by_cases h : c
  · rw [if_pos h, if_pos (hc.1 h)]
    exact hx h
  · rw [if_neg h, if_neg fun h' => h (hc.2 h')]
    exact hy h

lemma ofExcept {e : Except Defect α} : Agree R (· = ·) (Walk.ofExcept e) (Walk.ofExcept e) := by
  cases e with
  | ok a => exact .pure rfl
  | error d => exact .throw

/-- Less may be asked of the results. -/
lemma map {Q' : α → β → Prop} (h : Agree R Q x y) (hQ : ∀ a b, Q a b → Q' a b) :
    Agree R Q' x y := by
  intro r r' hr
  have hagree := h r r' hr
  cases hxr : x r <;> cases hyr : y r' <;> rw [hxr, hyr] at hagree
  · exact ⟨hQ _ _ hagree.1, hagree.2⟩
  · exact hagree.elim
  · exact hagree.elim
  · exact hagree

/-- What one of the walks keeps stays true as well. -/
lemma keeping {K : Regime} {A : α → Prop} (h : Agree R Q x y) (hx : K.Keeps x fun a _ => A a) :
    Agree (fun r r' => K.inv r ∧ R r r') Q x y := by
  rintro r r' ⟨hinv, hr⟩
  have hagree := h r r' hr
  have hkeeps := hx r hinv
  cases hxr : x r <;> cases hyr : y r' <;> rw [hxr, hyr] at hagree <;> rw [hxr] at hkeeps
  · exact ⟨hagree.1, hkeeps.1, hagree.2⟩
  · exact hagree.elim
  · exact hagree.elim
  · exact hagree

/-- What one of the walks is known to result in is known of both. -/
lemma knowing {K : Regime} {A : α → Prop} (h : Agree R Q x y) (hR : ∀ r r', R r r' → K.inv r)
    (hx : K.Keeps x fun a _ => A a) : Agree R (fun a b => A a ∧ Q a b) x y := by
  intro r r' hr
  have hagree := h r r' hr
  have hkeeps := hx r (hR r r' hr)
  cases hxr : x r <;> cases hyr : y r' <;> rw [hxr, hyr] at hagree <;> rw [hxr] at hkeeps
  · exact ⟨⟨hkeeps.2.2, hagree.1⟩, hagree.2⟩
  · exact hagree.elim
  · exact hagree.elim
  · exact hagree

end Agree

/-- Runs are still related after both recorded an event or changed their candidates alike. -/
structure Unmoved (R : Run → Run → Prop) : Prop where
  events : ∀ {r r' l l'}, R r r' → R { r with events := l } { r' with events := l' }
  candidates : ∀ {r r'} {f : Candidates → Candidates}, R r r' →
    R { r with candidates := f r.candidates } { r' with candidates := f r'.candidates }

lemma Unmoved.emit {R : Run → Run → Prop} (h : Unmoved R) (e e' : Event) :
    Agree R (fun _ _ => True) (Walk.emit e) (Walk.emit e') :=
  .modify fun _ _ hr => h.events hr

lemma Unmoved.offer {R : Run → Run → Prop} (h : Unmoved R) (f : Candidates → Candidates) :
    Agree R (fun _ _ => True)
      (modify fun r => { r with candidates := f r.candidates } : Walk Unit)
      (modify fun r => { r with candidates := f r.candidates } : Walk Unit) :=
  .modify fun _ _ hr => h.candidates hr

end Walk

/-- Plans that mirror each other are carried out alike. -/
lemma Plan.Mirrors.agree {T : Nat → Nat → Prop} {Ask : Spot → Prop} {V : Spot → Outcome → Prop}
    {α β : Type} {Q : α → β → Prop} {R : Run → Run → Prop} (hR : Unmoved R)
    {matchRule matchRule' : RuleId → Nat → Walk Outcome} {collect collect' : RuleId → Walk Phase}
    (hvisit : ∀ a p', Ask a → T a.start p' → Agree R (fun o o' => V a o ∧ o.Mirrors T o')
      (matchRule a.rule a.start) (matchRule' a.rule p'))
    (hgather : ∀ rule, Agree R (· = ·) (collect rule) (collect' rule))
    {x : Plan α} {y : Plan β} (h : Plan.Mirrors T Ask V Q x y) :
    Agree R Q (x.run matchRule collect) (y.run matchRule' collect') := by
  induction h with
  | done hq => exact .pure hq
  | visit hp ha _ ih => exact (hvisit _ _ ha hp).bind fun o o' ho => ih o o' ho.1 ho.2
  | gather _ ih =>
    refine (hgather _).bind ?_
    rintro ph _ rfl
    exact ih ph
  | offer _ ih =>
    exact (hR.emit _ _).bind fun _ _ _ => (hR.offer fun c => c.offerToken _ _).bind fun _ _ _ => ih
  | note _ _ ih => exact (hR.emit _ _).bind fun _ _ _ => ih

/-! ## What one walk is known to do -/

/-- The results that can be used again are as `V` says. -/
def Walk.remembers (V : Spot → Outcome → Prop) : Regime where
  inv r := ∀ a e, r.memo[a]? = some e → V a e.outcome
  later _ _ := True
  fault _ _ := True
  refl _ := trivial
  trans _ _ := trivial

namespace Session

/-- The outcomes of rules, where they may be visited, are as `V` says. -/
structure Predicts (s : Session) (V : Spot → Outcome → Prop) (Call : Spot → Prop)
    (Todo : List (Node RuleId) → Nat → Prop) : Prop extends s.Guide V Todo Call where
  entry : ∀ {a list q}, Call a → s.reached a.start = false →
    s.model.body a.rule = .ok (.sequences list) → q ∈ list → Todo q.nodes a.start
  fail : ∀ {a}, Call a → s.reached a.start = false → V a ⟨false, a.start, .matching⟩
  collected : ∀ {a ph}, Call a → s.reached a.start = true → s.model.RuleLeaves [] a.rule ph →
    V a ⟨false, a.start, ph⟩
  matched : ∀ {a o}, Call a → s.reached a.start = false → s.BodyMatches V a o → V a o

variable {s : Session} {V : Spot → Outcome → Prop} {Call : Spot → Prop}
  {Todo : List (Node RuleId) → Nat → Prop}

/-- Collecting leaves the results alone. -/
lemma collecting_remembers :
    (remembers V).Collecting s (fun _ _ _ => True) fun _ _ _ => True where
  events _ _ _ hr := ⟨hr, trivial⟩
  fuel := ⟨fun _ _ hr => ⟨hr, trivial⟩, fun _ _ => trivial⟩
  stack _ _ hr := ⟨hr, trivial⟩
  offerNode _ _ _ _ _ := fun _ hr => ⟨hr, trivial⟩
  offerSet _ _ _ _ := fun _ hr => ⟨hr, trivial⟩
  offerRule _ _ := fun _ hr => ⟨hr, trivial⟩
  skip _ _ := trivial
  next _ _ _ := trivial
  call _ _ := trivial
  enter _ _ _ _ := trivial
  defect _ _ _ _ := trivial
  limit _ _ _ _ := trivial

/-- Bodies are matched where a guide says, within every regime that does not look at what is noted. -/
lemma Guide.matching {K : Regime} (h : s.Guide V Todo Call)
    (hevents : K.AllowsEvents fun e => e.isFraming = false) :
    K.Matching s (fun _ => V) Todo fun _ => True where
  events := hevents
  stable _ hv := hv
  skip := h.skip
  stay _ := h.stay
  next _ := h.next
  due _ _ _ _ := ⟨trivial, fun _ => trivial⟩

namespace Predicts

/-- Visits of rules have outcomes as predicted. -/
lemma remembering (h : s.Predicts V Call Todo) :
    ((remembers V).inside []).Remembering s (fun _ => Call) V where
  events _ _ _ hr := ⟨hr, trivial⟩
  fuel := collecting_remembers.fuel.inside []
  frames _ _ hr := ⟨hr, trivial⟩
  keep _ hr ho := ⟨⟨forall_memo_insert (fun b e _ hb => hr.1 b e hb) ho, hr.2⟩, trivial⟩
  forget _ _ hr := ⟨⟨forall_memo_erase fun b e _ hb => hr.1 b e hb, hr.2⟩, trivial⟩
  known _ hr hm := hr.1 _ _ hm
  fail := h.fail
  collect hc hq := (collecting_remembers.rule trivial).mono fun _ _ _ hph => h.collected hc hq hph
  limit _ _ _ := trivial
  body hc hq ih := by
    have hevents := (collecting_remembers (s := s) (V := V)).events.inside []
    refine ((h.matching hevents).body (fun n rest p id htodo hn => ih ⟨id, p⟩ (h.ask htodo hn))
      (fun nodes _ => collecting_remembers.collectNodes trivial)
      (fun list hb q hmem => h.entry hc hq hb hmem) fun _ _ _ _ => trivial).mono ?_
    exact fun o _ _ ho => h.matched hc hq ho

end Predicts

/-! ## Visiting rules in both walks -/

/-- Two sessions over one model that answer alike at corresponding positions. -/
structure Twin (s s' : Session) (T : Nat → Nat → Prop) (V : Spot → Outcome → Prop)
    (Call : Spot → Prop) (Todo : List (Node RuleId) → Nat → Prop) : Prop extends
    s.Mirror s' T Todo where
  model : s'.model = s.model
  size : ∀ {p p'}, T p p' → p ≤ s.stream.size ∧ p' ≤ s'.stream.size
  predicts : s.Predicts V Call Todo
  limits : s'.limits = s.limits
  set : ∀ {a p'}, Call a → s.reached a.start = false → T a.start p' → ∀ tokens,
    (s.matchTokenSet tokens a.start).Mirrors T (s'.matchTokenSet tokens p')

namespace Twin

variable {s' : Session} {T : Nat → Nat → Prop} {a a' b b' : Spot} {d : Nat}

lemma unmoved_mirrors : Unmoved (Run.Mirrors T) where
  events h := ⟨h.fuel, h.frames, h.collecting, h.memo, h.candidates⟩
  candidates h := ⟨h.fuel, h.frames, h.collecting, h.memo, by simp only [h.candidates]⟩

lemma burn (limit : Nat) :
    Agree (Run.Mirrors T) (fun _ _ => True) (Walk.burn limit) (Walk.burn limit) := by
  refine .get fun r r' hr => ?_
  simp only [hr.fuel]
  cases r.fuel with
  | zero => exact .throw
  | succ n =>
    exact .modify fun r r' hr => ⟨rfl, hr.frames, hr.collecting, hr.memo, hr.candidates⟩

/-- Collecting from parts of bodies matches nothing. -/
lemma collecting {α β : Type} {Q : α → β → Prop} {collect collect' : RuleId → Walk Phase}
    {x : Plan α} {y : Plan β} (h : Plan.Mirrors T (fun _ => False) V Q x y)
    (hgather : ∀ rule, Agree (Run.Mirrors T) (· = ·) (collect rule) (collect' rule)) :
    Agree (Run.Mirrors T) Q (x.run (fun _ p => pure ⟨false, p, .matching⟩) collect)
      (y.run (fun _ p => pure ⟨false, p, .matching⟩) collect') :=
  h.agree unmoved_mirrors (fun _ _ hfalse => hfalse.elim) hgather

/-- Collecting is the same in both walks. -/
lemma collectRule (h : s.Twin s' T V Call Todo) (d : Nat) (rule : RuleId) :
    Agree (Run.Mirrors T) (· = ·) (s.collectRule d rule) (s'.collectRule d rule) := by
  induction d using Nat.strong_induction_on generalizing rule with
  | _ d ih =>
    rw [Session.collectRule.eq_def, Session.collectRule.eq_def, h.model, h.limits]
    refine (burn _).bind fun _ _ _ => (unmoved_mirrors.emit _ _).bind fun _ _ _ => ?_
    refine .ite Iff.rfl (fun _ => ?_) fun _ => ?_
    · exact ((unmoved_mirrors.emit _ _).bind fun _ _ _ =>
        unmoved_mirrors.offer (·.offerRule rule)).bind fun _ _ _ => .pure rfl
    refine .get fun r r' hr => ?_
    rw [hr.collecting]
    refine .ite Iff.rfl (fun _ => .pure rfl) fun _ => Agree.ofExcept.bind ?_
    rintro body _ rfl
    cases body with
    | tokenSet tokens =>
      have hnone : ∀ _ : RuleId, Agree (Run.Mirrors T) (· = ·) (pure .matching : Walk Phase)
          (pure .matching) := fun _ => .pure rfl
      have hplan := collecting (V := V) (h.collectTokens tokens.toList) hnone
      rwa [← collectTokens_eq_run, ← collectTokens_eq_run] at hplan
    | sequences list =>
      cases d with
      | zero => exact .throw
      | succ d =>
        have hplan := collecting (V := V) (h.collectSequences list) (ih d (Nat.lt_succ_self d))
        rw [← collectSequences_eq_run, ← collectSequences_eq_run] at hplan
        refine Agree.bind (Q := fun _ _ => True) (.modify fun r r' hr => ?_) fun _ _ _ => ?_
        · exact ⟨hr.fuel, hr.frames, by rw [hr.collecting], hr.memo, hr.candidates⟩
        refine hplan.bind ?_
        rintro ph _ rfl
        refine Agree.bind (Q := fun _ _ => True) (.modify fun r r' hr => ?_) fun _ _ _ => .pure rfl
        exact ⟨hr.fuel, hr.frames, by rw [hr.collecting], hr.memo, hr.candidates⟩

/-! ## Marks and results -/

lemma spot_eq_iff (h : s.Twin s' T V Call Todo) (ha : a.Mirrors T a') (hb : b.Mirrors T b') :
    a = b ↔ a' = b' := by
  obtain ⟨r, p⟩ := a
  obtain ⟨r', p'⟩ := a'
  obtain ⟨q, k⟩ := b
  obtain ⟨q', k'⟩ := b'
  obtain ⟨rfl, hp⟩ := ha
  obtain ⟨rfl, hk⟩ := hb
  simp only [Spot.mk.injEq, h.eq_iff hp hk]

lemma mark_frames (h : s.Twin s' T V Call Todo) (ha : a.Mirrors T a') {l l' : List Frame}
    (hl : List.Forall₂ (Frame.Mirrors T) l l') :
    Option.Rel (List.Forall₂ (Frame.Mirrors T)) (Frame.mark a l) (Frame.mark a' l') := by
  induction hl with
  | nil => exact .none
  | @cons f f' rest rest' hf hrest ih =>
    simp only [Frame.mark, h.spot_eq_iff hf.spot ha]
    split
    · exact .some (.cons ⟨hf.spot, rfl, hf.tainted⟩ hrest)
    · generalize Frame.mark a rest = marked, Frame.mark a' rest' = marked' at ih ⊢
      cases ih with
      | none => exact .none
      | some hmarked => exact .some (.cons ⟨hf.spot, hf.recursed, rfl⟩ hmarked)

lemma mark (h : s.Twin s' T V Call Todo) (ha : a.Mirrors T a') {r r' : Run}
    (hr : r.Mirrors T r') : (r.mark a).Mirrors T (r'.mark a') := by
  refine ⟨hr.fuel, ?_, hr.collecting, hr.memo, hr.candidates⟩
  have hmark := h.mark_frames ha hr.frames
  simp only [Run.mark]
  generalize Frame.mark a r.frames = marked, Frame.mark a' r'.frames = marked' at hmark ⊢
  cases hmark with
  | none => exact hr.frames
  | some hframes => exact hframes

lemma insert (h : s.Twin s' T V Call Todo) (ha : a.Mirrors T a') {e e' : Memo}
    (he : e.Mirrors T e') {r r' : Run} (hr : r.Mirrors T r') :
    Run.Mirrors T { r with memo := r.memo.insert a e } { r' with memo := r'.memo.insert a' e' } := by
  refine ⟨hr.fuel, hr.frames, hr.collecting, fun b b' hb => ?_, hr.candidates⟩
  simp only [getElem?_memo_insert, ← h.spot_eq_iff ha hb]
  split
  · exact .some he
  · exact hr.memo b b' hb

lemma erase (h : s.Twin s' T V Call Todo) (ha : a.Mirrors T a') {r r' : Run}
    (hr : r.Mirrors T r') :
    Run.Mirrors T { r with memo := r.memo.erase a } { r' with memo := r'.memo.erase a' } := by
  refine ⟨hr.fuel, hr.frames, hr.collecting, fun b b' hb => ?_, hr.candidates⟩
  simp only [getElem?_memo_erase, ← h.spot_eq_iff ha hb]
  split
  · exact .none
  · exact hr.memo b b' hb

lemma head_any {l l' : List Frame} (hl : List.Forall₂ (Frame.Mirrors T) l l') :
    l'.head?.any Frame.recursed = l.head?.any Frame.recursed ∧
      l'.head?.any Frame.tainted = l.head?.any Frame.tainted := by
  cases hl with
  | nil => exact ⟨rfl, rfl⟩
  | cons hf _ => exact ⟨hf.recursed, hf.tainted⟩

lemma any_spot (h : s.Twin s' T V Call Todo) (ha : a.Mirrors T a') {l l' : List Frame}
    (hl : List.Forall₂ (Frame.Mirrors T) l l') :
    (l'.any fun f => f.spot = a') = l.any fun f => f.spot = a := by
  induction hl with
  | nil => rfl
  | cons hf _ ih => simp only [List.any_cons, ih, h.spot_eq_iff hf.spot ha]

lemma pop {r r' : Run} (hr : r.Mirrors T r') :
    Run.Mirrors T { r with frames := r.frames.tail } { r' with frames := r'.frames.tail } := by
  refine ⟨hr.fuel, ?_, hr.collecting, hr.memo, hr.candidates⟩
  obtain ⟨fuel, frames⟩ := r
  obtain ⟨fuel', frames'⟩ := r'
  cases hr.frames with
  | nil => exact .nil
  | cons _ hrest => exact hrest

lemma leave (h : s.Twin s' T V Call Todo) (ha : a.Mirrors T a') {o o' : Outcome}
    (ho : o.Mirrors T o') :
    Agree (Run.Mirrors T) (fun _ _ => True) (Session.leave a o) (Session.leave a' o') := by
  refine .modify fun r r' hr => ?_
  have hkept : Memo.Mirrors T ⟨o, false⟩ ⟨o', false⟩ := ⟨ho, rfl⟩
  rw [(head_any hr.frames).2]
  split
  · exact h.erase ha (pop hr)
  · exact h.insert ha hkept (pop hr)

/-! ## Rules -/

/-- Runs that mirror each other, outside of collecting and with results as predicted. -/
def Alike (T : Nat → Nat → Prop) (V : Spot → Outcome → Prop) (r r' : Run) : Prop :=
  ((remembers V).inside []).inv r ∧ r.Mirrors T r'

lemma unmoved_alike : Unmoved (Alike T V) where
  events h := ⟨h.1, unmoved_mirrors.events h.2⟩
  candidates h := ⟨h.1, unmoved_mirrors.candidates h.2⟩

/-- Two outcomes that mirror each other and are as predicted. -/
def Answers (T : Nat → Nat → Prop) (V : Spot → Outcome → Prop) (a : Spot) (o o' : Outcome) : Prop :=
  V a o ∧ o.Mirrors T o'

lemma collect (h : s.Twin s' T V Call Todo) (d : Nat) (rule : RuleId) :
    Agree (Alike T V) (· = ·) (s.collectRule d rule) (s'.collectRule d rule) := by
  have hkeeps : ((remembers V).inside []).Keeps (s.collectRule d rule) fun _ _ => True :=
    (collecting_remembers.rule trivial).mono fun _ _ _ _ => trivial
  exact (h.collectRule d rule).keeping hkeeps

lemma grow (h : s.Twin s' T V Call Todo) (ha : a.Mirrors T a') {body body' : Walk Outcome}
    (hbody : Agree (Alike T V) (Answers T V a) body body') {count count' : Nat}
    {best best' : Outcome} (hbest : Answers T V a best best')
    (hcount : s.stream.size + 1 ≤ best.stop + count)
    (hcount' : s'.stream.size + 1 ≤ best'.stop + count') :
    Agree (Alike T V) (Answers T V a) (Session.grow body a count best)
      (Session.grow body' a' count' best') := by
  -- the growth ends before its count does, because no result gets past the end of the input
  induction count generalizing count' best best' with
  | zero =>
    have hsize := (h.size hbest.2.stop).1
    omega
  | succ count ih =>
    have hsize := (h.size hbest.2.stop).2
    obtain ⟨count', rfl⟩ : ∃ m, count' = m + 1 :=
      Nat.exists_eq_succ_of_ne_zero fun hz => by omega
    rw [Session.grow, Session.grow]
    refine Agree.bind (Q := fun _ _ => True) (.modify fun r r' hr => ?_) fun _ _ _ => ?_
    · have hgrowing : Memo.Mirrors T ⟨best, true⟩ ⟨best', true⟩ := ⟨hbest.2, rfl⟩
      exact ⟨(h.predicts.remembering.keep true hr.1 hbest.1).1, h.insert ha hgrowing hr.2⟩
    refine hbody.bind fun o o' ho => ?_
    have husable : o'.isUsable = o.isUsable := by
      simp only [Outcome.isUsable, ho.2.matched, ho.2.phase]
    have hlt := h.lt_iff hbest.2.stop ho.2.stop
    refine .ite (by simp only [husable, hlt]) (fun hlonger => ?_) fun _ => .pure hbest
    simp only [Bool.and_eq_true, decide_eq_true_eq] at hlonger
    have hlonger' := hlt.1 hlonger.2
    exact ih ho (by omega) (by omega)

lemma matchGrown (h : s.Twin s' T V Call Todo) (ha : a.Mirrors T a')
    {matchRule matchRule' : RuleId → Nat → Walk Outcome} {collect collect' : RuleId → Walk Phase}
    (hbody : Agree (Alike T V) (Answers T V a) (s.matchBody matchRule collect a)
      (s'.matchBody matchRule' collect' a')) :
    Agree (Alike T V) (Answers T V a) (s.matchGrown matchRule collect a)
      (s'.matchGrown matchRule' collect' a') := by
  refine hbody.bind fun o o' ho => .get fun r r' hr => ?_
  rw [(head_any hr.2.frames).1]
  refine .ite Iff.rfl (fun _ => h.grow ha hbody ho ?_ ?_) fun _ => .pure ho
  · omega
  · omega

lemma matchInFrame (h : s.Twin s' T V Call Todo) (ha : a.Mirrors T a')
    {matchRule matchRule' : RuleId → Nat → Walk Outcome} {collect collect' : RuleId → Walk Phase}
    (hbody : Agree (Alike T V) (Answers T V a) (s.matchBody matchRule collect a)
      (s'.matchBody matchRule' collect' a')) :
    Agree (Alike T V) (Answers T V a) (s.matchInFrame matchRule collect a)
      (s'.matchInFrame matchRule' collect' a') := by
  have hframe : Frame.Mirrors T { spot := a } { spot := a' } := ⟨ha, rfl, rfl⟩
  rw [Session.matchInFrame_eq, Session.matchInFrame_eq]
  refine (unmoved_alike.emit _ _).bind fun _ _ _ => Agree.bind (Q := fun _ _ => True)
    (.modify fun r r' hr => ⟨hr.1, ?_⟩) fun _ _ _ => ?_
  · exact ⟨hr.2.fuel, .cons hframe hr.2.frames, hr.2.collecting, hr.2.memo, hr.2.candidates⟩
  refine (h.matchGrown ha hbody).bind fun o o' ho => ?_
  refine ((h.leave ha ho.2).keeping (h.predicts.remembering.leave ho.1)).bind fun _ _ _ => ?_
  exact (unmoved_alike.emit _ _).bind fun _ _ _ => .pure ho

/-- A body is matched alike, if the rules inside it are. -/
lemma matchBody (h : s.Twin s' T V Call Todo) (hc : Call a) (hq : s.reached a.start = false)
    (ha : a.Mirrors T a') (ih : ∀ b p', Call b → T b.start p' → Agree (Alike T V) (Answers T V b)
      (s.matchRule d b.rule b.start) (s'.matchRule d b.rule p')) :
    Agree (Alike T V) (Answers T V a) (s.matchBody (s.matchRule d) (s.collectRule d) a)
      (s'.matchBody (s'.matchRule d) (s'.collectRule d) a') := by
  have hremembering := h.predicts.remembering
  have hknown := hremembering.body hc hq fun b hb => hremembering.rule (d := d) hb
  refine Agree.knowing ?_ (fun _ _ hr => hr.1) hknown
  cases hb : s.model.body a.rule with
  | error e =>
    have hb' : s'.model.body a'.rule = .error e := by rw [ha.rule, h.model, hb]
    simp only [Session.matchBody, hb, hb']
    exact .throw
  | ok body =>
    have hb' : s'.model.body a'.rule = .ok body := by rw [ha.rule, h.model, hb]
    rw [matchBody_eq_run a hb, matchBody_eq_run a' hb']
    refine Plan.Mirrors.agree unmoved_alike ih (h.collect d) (h.toMirror.matchBody h.predicts.toGuide ?_
      ha.start (h.set hc hq ha.start))
    rintro list rfl q hmem
    exact h.predicts.entry hc hq hb hmem

/-- **A rule is matched alike in both walks.** -/
theorem matchRule (h : s.Twin s' T V Call Todo) (hc : Call a) {p' : Nat} (hp : T a.start p') :
    Agree (Alike T V) (Answers T V a) (s.matchRule d a.rule a.start)
      (s'.matchRule d a.rule p') := by
  -- the rules inside a frame are visited with less depth
  induction d using Nat.strong_induction_on generalizing a p' with
  | _ d ih =>
    have ha : a.Mirrors T ⟨a.rule, p'⟩ := ⟨rfl, hp⟩
    have hremembering := h.predicts.remembering
    refine Agree.knowing ?_ (fun _ _ hr => hr.1) (hremembering.rule hc)
    have hmark : Agree (Alike T V) (fun _ _ => True) (Session.markRecursion a)
        (Session.markRecursion ⟨a.rule, p'⟩) :=
      .modify fun r r' hr => ⟨(hremembering.frames r _ hr.1).1, h.mark ha hr.2⟩
    obtain ⟨rule, p⟩ := a
    rw [Session.matchRule.eq_def, Session.matchRule.eq_def, h.limits]
    refine ((burn _).keeping (Regime.Keeps.burn hremembering.fuel)).bind fun _ _ _ => ?_
    refine .ite (by rw [h.reached hp]) (fun _ => ?_) fun hq => .get fun r r' hr => ?_
    · refine (unmoved_alike.emit _ _).bind fun _ _ _ => ?_
      refine (h.collect d rule).bind ?_
      rintro ph _ rfl
      exact .pure ⟨rfl, hp, rfl⟩
    have hmemo := hr.2.memo _ _ ha
    generalize r.memo[(⟨rule, p⟩ : Spot)]? = e, r'.memo[(⟨rule, p'⟩ : Spot)]? = e' at hmemo ⊢
    cases hmemo with
    | some he =>
      refine (unmoved_alike.emit _ _).bind fun _ _ _ => ?_
      refine .ite (by rw [he.growing]) (fun _ => ?_) fun _ => .pure he.outcome
      exact hmark.bind fun _ _ _ => .pure he.outcome
    | none =>
      simp only [h.any_spot ha hr.2.frames]
      refine .ite Iff.rfl (fun _ => ?_) fun _ => ?_
      · refine (unmoved_alike.emit _ _).bind fun _ _ _ => hmark.bind fun _ _ _ => ?_
        exact .pure ⟨rfl, hp, rfl⟩
      cases d with
      | zero => exact .throw
      | succ d =>
        have hbody := h.matchBody hc (by simpa using hq) ha fun b p' hb hp' =>
          ih d (Nat.lt_succ_self d) hb hp'
        exact (h.matchInFrame ha hbody).map fun _ _ ho => ho.2

/-! ## Completions -/

lemma mirrors_start (h : s.Twin s' T V Call Todo) : Alike T V s.start s'.start := by
  refine ⟨⟨fun a e he => by simp [start] at he, rfl⟩, by rw [start, start, h.limits], .nil, rfl,
    fun a a' _ => ?_, rfl⟩
  simp only [start, Std.TreeMap.getElem?_emptyc]
  exact .none

/-- **Both sessions give the same answer**, up to what they say about positions: the same error, or
the same candidates and the same verdict on the text before the caret. -/
theorem complete (h : s.Twin s' T V Call Todo)
    (hcall : ∀ root, Call ⟨root, s.stream.skipHidden 0⟩)
    (hstart : T (s.stream.skipHidden 0) (s'.stream.skipHidden 0)) (name : String) :
    (s'.complete name).map (fun c => (c.candidates, c.fullyParsed)) =
      (s.complete name).map fun c => (c.candidates, c.fullyParsed) := by
  simp only [Session.complete, completeTraced, h.model]
  cases s.model.ruleId? name with
  | none => rfl
  | some root =>
    have hwalk := h.matchRule (d := s.limits.depth) (hcall root) hstart _ _ h.mirrors_start
    simp only [walk, h.limits, EStateM.run]
    cases hw : s.matchRule s.limits.depth root (s.stream.skipHidden 0) s.start <;>
      cases hw' : s'.matchRule s.limits.depth root (s'.stream.skipHidden 0) s'.start <;>
      simp only [hw, hw'] at hwalk ⊢
    · obtain ⟨⟨-, ho⟩, -, hr⟩ := hwalk
      simp only [completion, hr.candidates, h.model, ho.matched, h.reached ho.stop]
      cases Candidates.render _ s.model <;> rfl
    · rw [hwalk]

end Twin

end Session

end GrammarCompletion
