/-
# What a walk consumes

A walk reports the positions to which it gets in its events, so what it consumes can be told from
them: a token was consumed only if there is an event behind it.  Where no node for the end of the
input is optional, no event stands behind the stop (`Session.upTo_stop`).

Inside a body this is a property of plans (`Plan.UpTo`), given that the rules inside have sound
outcomes.  That they do is known from the regime of sound results, so the regime here only adds the
events to it (`Regime.both`).

Together with the order of the tokens this says which token the caret is writing, and that this token
is not consumed (`Session.caret_splits`).
-/
import GrammarCompletion.Proofs.Caret.Order
import GrammarCompletion.Proofs.Invariance.Caret

namespace GrammarCompletion

open Walk Regime

/-- An event reports no position behind `k`. -/
def Event.UpTo (k : Nat) : Event → Prop
  | .enter _ p => p ≤ k
  | .exit _ _ p _ => p ≤ k
  | .alternative _ _ p => p ≤ k
  | .memoHit _ p => p ≤ k
  | .leftRecursion _ p => p ≤ k
  | .caret p => p ≤ k
  | .collect _ => True
  | .offerToken _ _ => True
  | .offerRule _ => True

/-! ## Two regimes at once -/

namespace Walk.Regime

/-- The regime of the parts of a walk that stay within both of two regimes. -/
def both (K L : Regime) : Regime where
  inv r := K.inv r ∧ L.inv r
  later r r' := K.later r r' ∧ L.later r r'
  fault e r := K.fault e r ∧ L.fault e r
  refl r := ⟨K.refl r, L.refl r⟩
  trans h h' := ⟨K.trans h.1 h'.1, L.trans h.2 h'.2⟩

variable {K L : Regime} {α : Type} {x : Walk α} {A B : α → Run → Prop}

lemma Keeps.both (hx : K.Keeps x A) (hy : L.Keeps x B) :
    (K.both L).Keeps x fun a r => A a r ∧ B a r := by
  intro r hr
  have hx := hx r hr.1
  have hy := hy r hr.2
  cases hxr : x r <;> rw [hxr] at hx hy
  · exact ⟨⟨hx.1, hy.1⟩, ⟨hx.2.1, hy.2.1⟩, hx.2.2, hy.2.2⟩
  · exact ⟨hx, hy⟩

/-- What is known from one of the regimes may be used in both. -/
lemma Keeps.knowing (hx : (K.both L).Keeps x B) (hy : K.Keeps x A) :
    (K.both L).Keeps x fun a r => A a r ∧ B a r := by
  intro r hr
  have hx := hx r hr
  have hy := hy r hr.1
  cases hxr : x r <;> rw [hxr] at hx hy
  · exact ⟨hx.1, hx.2.1, hy.2.2, hx.2.2⟩
  · exact hx

end Walk.Regime

/-! ## Plans -/

/-- A plan visits rules up to the stop only, and notes no event behind it, as long as the visits have
sound outcomes. -/
inductive Plan.UpTo (s : Session) {α : Type} (A : α → Prop) : Plan α → Prop
  | done {a : α} (h : A a) : UpTo s A (.done a)
  | visit {rule : RuleId} {p : Nat} {next : Outcome → Plan α} (ha : s.UpToStop ⟨rule, p⟩)
      (h : ∀ o, s.Sound ⟨rule, p⟩ o → UpTo s A (next o)) : UpTo s A (.visit rule p next)
  | gather {rule : RuleId} {next : Phase → Plan α} (h : ∀ ph, UpTo s A (next ph)) :
      UpTo s A (.gather rule next)
  | offer {t : TokenId} {c : List TokenId} {next : Plan α} (h : UpTo s A next) :
      UpTo s A (.offer t c next)
  | note {e : Event} {next : Plan α} (he : e.UpTo s.stop) (h : UpTo s A next) :
      UpTo s A (.note e next)

namespace Plan.UpTo

variable {s : Session} {α β : Type} {A : α → Prop} {B : β → Prop} {x : Plan α}

lemma pure {a : α} (h : A a) : UpTo s A (Pure.pure a) := .done h

lemma bind {f : α → Plan β} (h : UpTo s A x) (hf : ∀ a, A a → UpTo s B (f a)) :
    UpTo s B (x >>= f) := by
  induction h with
  | done h => exact hf _ h
  | visit ha _ ih => exact .visit ha ih
  | gather _ ih => exact .gather ih
  | offer _ ih => exact .offer ih
  | note he _ ih => exact .note he ih

lemma ite {c : Prop} [Decidable c] {y : Plan α} (hx : c → UpTo s A x) (hy : ¬ c → UpTo s A y) :
    UpTo s A (if c then x else y) := by
  split
  · next hc => exact hx hc
  · next hc => exact hy hc

/-! ### Collecting -/

variable {n : Node RuleId} {rest nodes : List (Node RuleId)} {list : List (Sequence RuleId)}
  {p : Nat}

lemma offerUnlessIgnored (t : TokenId) (c : List TokenId) :
    UpTo s (fun _ => True) (Plan.offerUnlessIgnored s t c) :=
  .ite (fun _ => .offer (.done trivial)) fun _ => .done trivial

lemma collectNodes (nodes : List (Node RuleId)) :
    UpTo s (fun _ => True) (Plan.collectNodes s nodes) := by
  induction nodes with
  | nil => exact .pure trivial
  | cons n rest ih =>
    cases hsymbol : n.symbol with
    | token t =>
      simp only [Plan.collectNodes, hsymbol]
      have hnext : UpTo s (fun _ => True)
          (if n.isRequired = true then Pure.pure .matching else Plan.collectNodes s rest) :=
        .ite (fun _ => .pure trivial) fun _ => ih
      refine .ite (fun _ => .pure trivial) fun _ => ?_
      exact .ite (fun _ => (offerUnlessIgnored _ _).bind fun _ _ => hnext) fun _ => hnext
    | rule id =>
      simp only [Plan.collectNodes, hsymbol]
      exact .gather fun _ => .ite (fun _ => .pure trivial) fun _ => ih

lemma collectSequences (list : List (Sequence RuleId)) :
    UpTo s (fun _ => True) (Plan.collectSequences s list) := by
  induction list with
  | nil => exact .pure trivial
  | cons q rest ih =>
    exact (collectNodes q.nodes).bind fun _ _ => ih.bind fun _ _ => .pure trivial

lemma collectTokens (tokens : List TokenId) :
    UpTo s (fun _ => True) (Plan.collectTokens s tokens) := by
  induction tokens with
  | nil => exact .pure trivial
  | cons t rest ih => exact (offerUnlessIgnored t []).bind fun _ _ => ih

lemma collectBehind (n : Node RuleId) (rest : List (Node RuleId)) :
    UpTo s (fun _ => True) (Plan.collectBehind s n rest) :=
  .ite (fun _ => (collectNodes (n :: rest)).bind fun _ _ => collectNodes rest)
    fun _ => collectNodes rest

lemma collectAtCaret (n : Node RuleId) (rest : List (Node RuleId)) (hp : p ≤ s.stop) :
    UpTo s (fun _ => True) (Plan.collectAtCaret s n rest p) := by
  refine .note hp (.ite (fun _ => (collectNodes (n :: rest)).bind fun _ _ => ?_)
    fun _ => collectNodes rest)
  exact .ite (fun _ => collectNodes rest) fun _ => .pure trivial

/-! ### Matching -/

lemma matchNode (hr : s.Ready (n :: rest) p) :
    UpTo s (fun o => s.SoundNode n p o) (Plan.matchNode s n p) := by
  cases hsymbol : n.symbol with
  | token t =>
    simp only [Plan.matchNode, hsymbol]
    exact .pure (Session.soundNode_matchToken hr hsymbol)
  | rule id =>
    simp only [Plan.matchNode, hsymbol]
    refine .visit ⟨hr.visible, hr.le_stop⟩ fun o ho => .done ?_
    have hn : s.NodeMatches s.Sound n p o := by simpa only [Session.NodeMatches, hsymbol] using ho
    exact hn.sound hr

end Plan.UpTo

namespace Session

variable {s : Session} {n : Node RuleId} {p : Nat} {o : Outcome}

lemma SoundNode.le_stop (h : s.SoundNode n p o) : o.stop ≤ s.stop := by
  obtain ⟨_, -, hc⟩ := h.consumes
  exact hc.le_stop

/-- A continuation goes on where the rest may be matched, or it ends before the stop. -/
def GoesOn (s : Session) (rest : List (Node RuleId)) : Continuation → Prop
  | .finished o => o.stop ≤ s.stop
  | .next q => s.Ready rest q

end Session

namespace Plan.UpTo

variable {s : Session} {n : Node RuleId} {rest nodes : List (Node RuleId)}
  {list : List (Sequence RuleId)} {p : Nat}

lemma matchRepeats (count : Nat) (hr : s.Ready (n :: rest) p) :
    UpTo s (s.GoesOn rest) (Plan.matchRepeats s n rest count p) := by
  induction count generalizing p with
  | zero => exact .pure hr.skip
  | succ count ih =>
    refine .ite (fun _ => .pure hr.skip) fun _ => (matchNode hr).bind fun o hn => ?_
    obtain ⟨matched, q, phase⟩ := o
    refine .ite (fun _ => (collectBehind n rest).bind fun _ _ => .pure hn.le_stop) fun hph => ?_
    obtain rfl : phase = .matching := by cases phase <;> simp_all
    refine .ite (fun hf => ?_) fun hf => ?_
    · -- where the occurrence failed, it has not moved
      obtain rfl : matched = false := by simpa using hf
      obtain rfl := hn.stop_eq
      exact .pure hr.skip
    · obtain rfl : matched = true := by simpa using hf
      refine .ite (fun _ => (collectAtCaret n rest hn.le_stop).bind fun _ _ => .pure hn.le_stop)
        fun hc => ?_
      have hready := hn.ready hr (by simpa using hc)
      exact .ite (fun _ => .pure hr.skip) fun _ => ih hready.2

lemma matchNodes (hr : s.Ready nodes p) :
    UpTo s (fun o => o.stop ≤ s.stop) (Plan.matchNodes s nodes p) := by
  induction nodes generalizing p with
  | nil => exact .pure hr.le_stop
  | cons n rest ih =>
    refine (matchNode hr).bind fun o hn => ?_
    obtain ⟨matched, q, phase⟩ := o
    refine .ite (fun _ => (collectBehind n rest).bind fun _ _ => .pure hn.le_stop) fun hph => ?_
    obtain rfl : phase = .matching := by cases phase <;> simp_all
    refine .ite (fun hf => .ite (fun _ => .pure hn.le_stop) fun _ => ?_) fun hf => ?_
    · obtain rfl : matched = false := by simpa using hf
      obtain rfl := hn.stop_eq
      exact ih hr.skip
    · obtain rfl : matched = true := by simpa using hf
      refine .ite (fun _ => (collectAtCaret n rest hn.le_stop).bind fun _ _ => .pure hn.le_stop)
        fun hq => ?_
      have hready := hn.ready hr (by simp [hq])
      refine .ite (fun _ => (matchRepeats _ hready.2).bind ?_) fun _ => ih hready.1
      rintro (o | q') hk
      · exact .pure hk
      · exact ih hk

lemma matchSequences (hr : ∀ q ∈ list, s.Ready q.nodes p) (i : Nat) (t : Tally) :
    UpTo s (fun _ => True) (Plan.matchSequences s p i t list) := by
  induction list generalizing i t with
  | nil => exact .pure trivial
  | cons q rest ih =>
    obtain ⟨hq, hrest⟩ := List.forall_mem_cons.1 hr
    exact (matchNodes hq).bind fun o ho => .note ho (ih hrest (i + 1) (t.add o))

/-- **The plan of a body stays before the stop.** -/
theorem matchBody {a : Spot} (ha : s.Open a) {body : RuleBody RuleId}
    (hb : s.model.body a.rule = .ok body) :
    UpTo s (fun _ => True) (Plan.matchBody s a.start body) := by
  cases body with
  | tokenSet tokens => exact .pure trivial
  | sequences list =>
    exact (matchSequences (fun q hq => ha.ready hb hq) 0 {}).bind
      fun _ _ => .pure trivial

end Plan.UpTo

/-! ## Walks -/

namespace Session

/-- The regime of walks that report no position behind the stop. -/
def reportRegime (s : Session) : Regime where
  inv r := ∀ e ∈ r.events, e.UpTo s.stop
  later _ _ := True
  fault _ r := ∀ e ∈ r.events, e.UpTo s.stop
  refl _ := trivial
  trans _ _ := trivial

variable {s : Session} {a : Spot} {rule : RuleId} {α : Type}

lemma report_emit {e : Event} (he : e.UpTo s.stop) :
    s.reportRegime.Keeps (emit e) fun _ _ => True :=
  .modify fun _ hr => ⟨List.forall_mem_cons.2 ⟨he, hr⟩, trivial⟩

/-- Everything but the events is left out of account. -/
lemma report_modify {f : Run → Run} (h : ∀ r, (f r).events = r.events) :
    s.reportRegime.Keeps (modify f : Walk Unit) fun _ _ => True :=
  .modify fun r hr => ⟨fun e he => hr e (h r ▸ he), trivial⟩

lemma report_burn : s.reportRegime.Keeps (burn s.limits.fuel) fun _ _ => True :=
  .burn ⟨fun _ _ hr => ⟨hr, trivial⟩, fun _ hr => hr⟩

lemma report_throw {e : CompletionError} {A : α → Run → Prop} :
    s.reportRegime.Keeps (throw e : Walk α) A :=
  .throw fun _ hr => hr

/-- Plans that stay before the stop are carried out within a regime in which they may be. -/
lemma keeps_run {K : Regime} {matchRule : RuleId → Nat → Walk Outcome}
    {collect : RuleId → Walk Phase} {A : α → Prop} {x : Plan α} (h : x.UpTo s A)
    (hemit : ∀ e : Event, e.UpTo s.stop → K.Keeps (emit e) fun _ _ => True)
    (hoffer : ∀ t c, K.Keeps
      (modify fun r => { r with candidates := r.candidates.offerToken t c } : Walk Unit)
      fun _ _ => True)
    (hmatch : ∀ a, s.UpToStop a → K.Keeps (matchRule a.rule a.start) fun o _ => s.Sound a o)
    (hcollect : ∀ rule, K.Keeps (collect rule) fun _ _ => True) :
    K.Keeps (x.run matchRule collect) fun a _ => A a := by
  induction h with
  | done h => exact .pure fun _ _ => h
  | visit ha _ ih =>
    exact (hmatch _ ha).bind fun o => .intro (fun _ _ ho => ho) fun ho => (ih o ho).keepsFrom
  | gather _ ih => exact (hcollect _).bind fun ph => (ih ph).keepsFrom
  | @offer t c _ _ ih => exact (hemit (.offerToken t c) trivial).seq ((hoffer t c).seq ih)
  | note he _ ih => exact (hemit _ he).seq ih

/-- Where nothing is matched, nothing is consumed. -/
lemma sound_stay (ha : s.UpToStop a) : s.Sound a ⟨false, a.start, .matching⟩ :=
  ⟨⟨⟨ha.1, Nat.le_refl _, ha.2, nofun, nofun⟩, nofun, nofun⟩, fun _ => rfl, fun _ => rfl⟩

lemma report_run (collect : RuleId → Walk Phase) {A : α → Prop} {x : Plan α} (h : x.UpTo s A)
    (hcollect : ∀ rule, s.reportRegime.Keeps (collect rule) fun _ _ => True) :
    s.reportRegime.Keeps (x.run (fun _ p => pure ⟨false, p, .matching⟩) collect) fun a _ => A a :=
  keeps_run h (fun _ he => report_emit he) (fun _ _ => report_modify fun _ => rfl)
    (fun _ ha => .pure fun _ _ => sound_stay ha) hcollect

/-- Collecting reports no positions. -/
lemma report_collectRule (d : Nat) (rule : RuleId) :
    s.reportRegime.Keeps (s.collectRule d rule) fun _ _ => True := by
  induction d using Nat.strong_induction_on generalizing rule with
  | _ d ih =>
    rw [collectRule.eq_def]
    refine report_burn.seq ((report_emit (e := .collect rule) trivial).seq ?_)
    split
    · have hoffer : s.reportRegime.Keeps (offerRule rule) fun _ _ => True :=
        (report_emit (e := .offerRule rule) trivial).seq (report_modify fun _ => rfl)
      exact hoffer.seq (.pure fun _ _ => trivial)
    refine .get fun run _ => Keeps.keepsFrom ?_
    split
    · exact .pure fun _ _ => trivial
    cases hb : s.model.body rule with
    | error e => exact report_throw
    | ok body =>
      simp only [Walk.ofExcept, pure_bind]
      cases body with
      | tokenSet tokens =>
        have hrun := report_run (fun _ => pure .matching)
          (Plan.UpTo.collectTokens (s := s) tokens.toList) fun _ => .pure fun _ _ => trivial
        rwa [← collectTokens_eq_run] at hrun
      | sequences list =>
        cases d with
        | zero => exact report_throw
        | succ d =>
          have hrun := report_run _ (Plan.UpTo.collectSequences (s := s) list)
            (ih d (Nat.lt_succ_self d))
          rw [← collectSequences_eq_run] at hrun
          refine Keeps.seq (report_modify fun _ => rfl) ?_
          refine Keeps.bind hrun fun _ => Keeps.keepsFrom ?_
          exact Keeps.seq (report_modify fun _ => rfl) (.pure fun _ _ => trivial)

/-- The regime of walks with sound results that report no position behind the stop. -/
def stopRegime (s : Session) : Regime := ((remembers s.Sound).inside []).both s.reportRegime

lemma stop_collectRule (d : Nat) (rule : RuleId) :
    s.stopRegime.Keeps (s.collectRule d rule) fun _ _ => True :=
  ((collecting_remembers.rule (d := d) (r := rule) trivial).both (report_collectRule d rule)).mono
    fun _ _ _ _ => trivial

variable (heof : s.model.EofRequired)
include heof

lemma stop_emit {e : Event} (he : e.UpTo s.stop) :
    s.stopRegime.Keeps (emit e) fun _ _ => True :=
  ((Keeps.emit (predicts_sound heof).remembering.events trivial).both (report_emit he)).mono
    fun _ _ _ _ => trivial

lemma stop_frames {f : Run → List Frame} :
    s.stopRegime.Keeps (modify fun r => { r with frames := f r } : Walk Unit) fun _ _ => True := by
  have hframes : ((remembers s.Sound).inside []).Keeps
      (modify fun r => { r with frames := f r } : Walk Unit) fun _ _ => True :=
    .modify fun r hr => (predicts_sound heof).remembering.frames r _ hr
  exact (hframes.both (report_modify fun _ => rfl)).mono fun _ _ _ _ => trivial

lemma stop_matchBody (ha : s.Open a) {d : Nat} (ih : ∀ b, s.UpToStop b →
      s.stopRegime.Keeps (s.matchRule d b.rule b.start) fun o _ => s.Sound b o) :
    s.stopRegime.Keeps (s.matchBody (s.matchRule d) (s.collectRule d) a) fun o _ => s.Sound a o := by
  have hremembering := (predicts_sound heof).remembering
  have hcall : s.UpToStop a := ⟨ha.visible, ha.le_stop⟩
  have hsound := hremembering.body hcall ha.not_reached fun b hb => hremembering.rule (d := d) hb
  have hstop : s.stopRegime.Keeps (s.matchBody (s.matchRule d) (s.collectRule d) a)
      fun _ _ => True := by
    cases hb : s.model.body a.rule with
    | error e =>
      rw [Session.matchBody, hb]
      exact .throw fun r hr => ⟨trivial, hr.2⟩
    | ok body =>
      rw [matchBody_eq_run a hb]
      refine keeps_run (.matchBody ha hb) (fun _ he => stop_emit heof he) (fun t c => ?_) ih
        (stop_collectRule d)
      exact .modify fun r hr => ⟨hr, trivial, trivial⟩
  exact (hstop.knowing hsound).mono fun _ _ _ ho => ho.1

/-- **A visit of a rule reports no position behind the stop**, and its outcome is sound. -/
theorem stop_matchRule (d : Nat) (ha : s.UpToStop a) :
    s.stopRegime.Keeps (s.matchRule d a.rule a.start) fun o _ => s.Sound a o := by
  have hremembering := (predicts_sound heof).remembering
  -- that the outcome is sound is known, so only the events are looked at
  refine Keeps.mono (Keeps.knowing (B := fun _ _ => True) ?_ (hremembering.rule ha))
    fun _ _ _ ho => ho.1
  induction d using Nat.strong_induction_on generalizing a with
  | _ d ih =>
    have hmark : s.stopRegime.Keeps (markRecursion a) fun _ _ => True := stop_frames heof
    rw [matchRule.eq_def]
    refine Keeps.seq (((Keeps.burn hremembering.fuel).both report_burn).mono
      fun _ _ _ _ => trivial) ?_
    split
    · refine (stop_emit heof (e := .caret a.start) ha.2).seq ?_
      exact (stop_collectRule d a.rule).map fun _ _ _ _ => trivial
    next hq =>
    refine .get fun run hrun => Keeps.keepsFrom ?_
    split
    · refine (stop_emit heof (e := .memoHit a.rule a.start) ha.2).seq ?_
      split
      · exact hmark.seq (.pure fun _ _ => trivial)
      · exact .pure fun _ _ => trivial
    split
    · refine (stop_emit heof (e := .leftRecursion a.rule a.start) ha.2).seq ?_
      exact hmark.seq (.pure fun _ _ => trivial)
    cases d with
    | zero => exact .throw fun r hr => ⟨trivial, hr.2⟩
    | succ d =>
      have hopen : s.Open a := ⟨ha.1, ha.2, by simpa using hq⟩
      have hbody := stop_matchBody heof hopen (d := d) fun b hb =>
        (Keeps.knowing (ih d (Nat.lt_succ_self d) hb) (hremembering.rule hb)).mono
          fun _ _ _ ho => ho.1
      refine (Keeps.matchInFrame (stop_emit heof ha.2) (fun r hr => ?_) hbody
        (fun _ _ ho => hbody.grow (fun r o hr ho => ?_) ho) (fun o ho => ?_)
        fun o ho => stop_emit heof ho.le_stop).mono fun _ _ _ _ => trivial
      · exact ⟨⟨(hremembering.frames r _ hr.1).1, hr.2⟩, trivial, trivial⟩
      · exact ⟨⟨(hremembering.keep true hr.1 ho).1, hr.2⟩, trivial, trivial⟩
      · exact ((hremembering.leave ho).both (report_modify fun _ => rfl)).mono
          fun _ _ _ _ => trivial

/-- **No event of a walk stands behind the stop**, also if the walk ends with an error. -/
theorem upTo_stop (name : String) : ∀ e ∈ (s.completeTraced name).2, e.UpTo s.stop := by
  cases hroot : s.model.ruleId? name with
  | none => simp [completeTraced, hroot]
  | some root =>
    have hstart : s.UpToStop ⟨root, s.stream.skipHidden 0⟩ :=
      ⟨TokenStream.visible_skipHidden (Nat.zero_le _), TokenStream.skipHidden_zero_le_stop⟩
    have hkeeps := stop_matchRule heof s.limits.depth hstart
    have hinv : s.stopRegime.inv s.start :=
      ⟨⟨fun a k h => by simp [start] at h, rfl⟩, fun e h => by simp [start] at h⟩
    simp only [completeTraced, hroot]
    cases hw : s.walk root with
    | ok o r =>
      obtain ⟨⟨-, hevents⟩, -⟩ := hkeeps.ok hinv hw
      exact fun e he => hevents e (List.mem_reverse.1 he)
    | error e r =>
      obtain ⟨-, hevents⟩ := hkeeps.error hinv hw
      exact fun e he => hevents e (List.mem_reverse.1 he)

omit heof

/-! ## The split at the caret -/

/-- The caret splits the tokens of a session in one place. -/
structure Splits (s : Session) : Prop where
  /-- The place is the first visible position at which the caret is reached. -/
  least : IsLeast {p | s.stream.Visible p ∧ s.reached p = true} s.stop
  /-- Behind it, the caret is reached at every visible position. -/
  mono : ∀ p q, s.stream.Visible p → s.stream.Visible q → p ≤ q →
    s.reached p = true → s.reached q = true
  /-- The token at the caret is the one that stands there, if the caret is writing it. -/
  token : ∀ t, s.stream.tokenAt? s.caret = some t ↔ s.stream.Writes s.caret t
  /-- What is typed are the characters of that token in front of the caret. -/
  typed : ∀ text, s.stream.typedPart? s.caret = some text ↔ ∃ t, s.stream.Writes s.caret t ∧
    text.toList = t.text.toList.take (s.caret.column - t.start)
  /-- Neither this token nor a later one is consumed, if no node for the end of the input is
  optional. -/
  consumed : s.model.EofRequired → ∀ name, (∀ e ∈ (s.completeTraced name).2, e.UpTo s.stop) ∧
    ∀ c, s.complete name = .ok c → c.position ≤ s.stop

/-- **The caret splits an ordered stream in one place**, and the token at that place is the one that
is being written. -/
theorem caret_splits (h : s.stream.Ordered) : s.Splits where
  least := ⟨⟨TokenStream.visible_stop, TokenStream.reached_stop⟩,
    fun _ hp => TokenStream.stop_le hp.1 hp.2⟩
  mono _ _ hp hq hpq := TokenStream.reached_mono h hp hq hpq
  token _ := TokenStream.tokenAt?_eq_some_iff h
  typed _ := TokenStream.typedPart?_eq_some_iff h
  consumed heof name := by
    refine ⟨upTo_stop heof name, fun c hc => ?_⟩
    obtain ⟨root, o, r, -, hw, hanswer⟩ := complete_eq_ok hc
    obtain ⟨texts, -, rfl⟩ := completion_eq_ok_iff.1 hanswer
    exact (walk_sound heof hw).1.le_stop

/-- A sum at whose last number the caret is. -/
theorem caret_splits_sum :
    let s := onLine sums [⟨2⟩, ⟨1⟩, ⟨2⟩] ⟨1, 5⟩
    s.stream.Ordered ∧ s.stop = 2 ∧ s.stream.Writes s.caret (.ofText ⟨2⟩ "x" 1 4) ∧
      s.stream.tokenAt? s.caret = some (.ofText ⟨2⟩ "x" 1 4) ∧ s.Splits := by
  have hordered : (onLine sums [⟨2⟩, ⟨1⟩, ⟨2⟩] ⟨1, 5⟩).stream.Ordered := ⟨by decide, by decide⟩
  have hwrites : (onLine sums [⟨2⟩, ⟨1⟩, ⟨2⟩] ⟨1, 5⟩).stream.Writes ⟨1, 5⟩ (.ofText ⟨2⟩ "x" 1 4) :=
    ⟨by decide, by decide, by decide, by decide, by decide⟩
  have hsplits := caret_splits hordered
  exact ⟨hordered, by decide, hwrites, (hsplits.token _).2 hwrites, hsplits⟩

/-- A row of items and a final word, where an item may see the end of the input behind it. -/
def closedItems : Model where
  rules := .ofList [
    ("row", .sequences [⟨[.rule ⟨1⟩ .oneOrMore, .token ⟨2⟩ .one], none⟩]),
    ("item", .sequences [⟨[.token ⟨1⟩ .one, .token .eof .optional], none⟩])]
  tokenNames := .ofList [(⟨1⟩, "ITEM"), (⟨2⟩, "END")]

/-- If a node for the end of the input is optional, a walk may consume the token that is being
written. -/
theorem consumes_written :
    let s := onLine closedItems [⟨1⟩, ⟨1⟩, ⟨2⟩] ⟨1, 5⟩
    s.stream.Ordered ∧ s.stop = 2 ∧ s.stream.Writes s.caret (.ofText ⟨2⟩ "x" 1 4) ∧
      s.complete "row" = .ok ⟨["ITEM"], true, some "x", 3⟩ := by
  refine ⟨⟨by decide, by decide⟩, by decide, ⟨by decide, by decide, by decide, by decide,
    by decide⟩, ?_⟩
  cbv

end Session

end GrammarCompletion
