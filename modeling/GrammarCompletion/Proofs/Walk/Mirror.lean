/-
# Plans that mirror each other

Two walks may be at different positions and still do the same.  Given which positions correspond,
two plans *mirror* each other when they make the same requests at corresponding positions and go on
alike after corresponding answers (`Plan.Mirrors`).

`Session.Mirror` lists what has to be checked of two sessions so that the plans of bodies mirror each
other.  Where in a body input is read is said by `Session.Guide`, which speaks of one session only:
its `Todo` holds of the nodes that may have to be matched next at a position, given that the rules
inside have outcomes as `V` says.
-/
import GrammarCompletion.Proofs.Walk.Matches
import GrammarCompletion.Proofs.Walk.Plan
import GrammarCompletion.Proofs.Walk.Regime

namespace GrammarCompletion

/-- Whether an event is an offer. -/
def Event.isOffer : Event → Bool
  | offerToken _ _ => true
  | offerRule _ => true
  | _ => false

/-- Whether an event is about the progress in a body: an alternative was tried, or the caret is
reached. -/
def Event.isProgress : Event → Bool
  | alternative _ _ _ => true
  | caret _ => true
  | _ => false

lemma Event.isOffer_of_isProgress {e : Event} (h : e.isProgress = true) : e.isOffer = false := by
  cases e <;> first | rfl | cases h

lemma Event.isFraming_of_isProgress {e : Event} (h : e.isProgress = true) :
    e.isFraming = false := by
  cases e <;> first | rfl | cases h

/-- What has to follow a token depends on which tokens are never offered. -/
lemma Model.continuation_congr {m m' : Model} (h : ∀ t, m'.isIgnoredToken t = m.isIgnoredToken t)
    (n : Node RuleId) (rest : List (Node RuleId)) :
    m'.continuation n rest = m.continuation n rest := by
  have hmandatory : ∀ nodes, m'.mandatoryTokens nodes = m.mandatoryTokens nodes := by
    intro nodes
    induction nodes with
    | nil => rfl
    | cons k nodes ih => simp only [mandatoryTokens, h, ih]
  rw [continuation, continuation, hmandatory]

/-- Two outcomes that differ in the position only, where the positions correspond. -/
structure Outcome.Mirrors (T : Nat → Nat → Prop) (o o' : Outcome) : Prop where
  matched : o'.matched = o.matched
  stop : T o.stop o'.stop
  phase : o'.phase = o.phase

lemma Outcome.Mirrors.eq {o o' : Outcome} (h : o.Mirrors (· = ·) o') : o' = o := by
  obtain ⟨hmatched, hstop, hphase⟩ := h
  cases o
  cases o'
  simp_all

/-- Two plans that make the same requests at corresponding positions, rules being asked for only where
`Ask` says, and that end alike, given that outcomes are as `V` says.  What is noted is progress in a
body. -/
inductive Plan.Mirrors (T : Nat → Nat → Prop) (Ask : Spot → Prop) (V : Spot → Outcome → Prop)
    {α β : Type} (Q : α → β → Prop) : Plan α → Plan β → Prop
  | done {a : α} {b : β} (h : Q a b) : Mirrors T Ask V Q (.done a) (.done b)
  | visit {rule : RuleId} {p p' : Nat} {next : Outcome → Plan α} {next' : Outcome → Plan β}
      (hp : T p p') (ha : Ask ⟨rule, p⟩)
      (h : ∀ o o', V ⟨rule, p⟩ o → o.Mirrors T o' → Mirrors T Ask V Q (next o) (next' o')) :
      Mirrors T Ask V Q (.visit rule p next) (.visit rule p' next')
  | gather {rule : RuleId} {next : Phase → Plan α} {next' : Phase → Plan β}
      (h : ∀ ph, Mirrors T Ask V Q (next ph) (next' ph)) :
      Mirrors T Ask V Q (.gather rule next) (.gather rule next')
  | offer {t : TokenId} {c : List TokenId} {next : Plan α} {next' : Plan β}
      (h : Mirrors T Ask V Q next next') : Mirrors T Ask V Q (.offer t c next) (.offer t c next')
  | note {e e' : Event} {next : Plan α} {next' : Plan β} (he : e.isProgress = true)
      (h : Mirrors T Ask V Q next next') : Mirrors T Ask V Q (.note e next) (.note e' next')

namespace Plan.Mirrors

variable {T : Nat → Nat → Prop} {Ask : Spot → Prop} {V : Spot → Outcome → Prop}
  {α β γ δ : Type} {Q : α → β → Prop} {Q' : γ → δ → Prop} {x : Plan α} {y : Plan β}

lemma pure {a : α} {b : β} (h : Q a b) : Mirrors T Ask V Q (Pure.pure a) (Pure.pure b) := .done h

lemma bind {f : α → Plan γ} {g : β → Plan δ} (h : Mirrors T Ask V Q x y)
    (hf : ∀ a b, Q a b → Mirrors T Ask V Q' (f a) (g b)) :
    Mirrors T Ask V Q' (x >>= f) (y >>= g) := by
  induction h with
  | done h => exact hf _ _ h
  | visit hp ha _ ih => exact .visit hp ha ih
  | gather _ ih => exact .gather ih
  | offer _ ih => exact .offer ih
  | note he _ ih => exact .note he ih

/-- The same condition is decided on both sides. -/
lemma ite {c c' : Prop} [Decidable c] [Decidable c'] {x' : Plan α} {y' : Plan β} (hc : c ↔ c')
    (hx : c → Mirrors T Ask V Q x y) (hy : ¬ c → Mirrors T Ask V Q x' y') :
    Mirrors T Ask V Q (if c then x else x') (if c' then y else y') := by
  by_cases h : c
  · rw [if_pos h, if_pos (hc.1 h)]
    exact hx h
  · rw [if_neg h, if_neg fun h' => h (hc.2 h')]
    exact hy h

end Plan.Mirrors

namespace Session

/-- The same session over another model. -/
def withModel (s : Session) (m : Model) : Session := { s with model := m }

/-- Where in a body input is read, given the outcomes of the rules inside it. -/
structure Guide (s : Session) (V : Spot → Outcome → Prop) (Todo : List (Node RuleId) → Nat → Prop)
    (Ask : Spot → Prop) : Prop where
  ask : ∀ {n rest p id}, Todo (n :: rest) p → n.symbol = .rule id → Ask ⟨id, p⟩
  skip : ∀ {n rest p}, Todo (n :: rest) p → n.isRequired = false → Todo rest p
  le : ∀ {n rest p o}, Todo (n :: rest) p → s.NodeMatches V n p o → p ≤ o.stop
  stay : ∀ {n rest p q}, Todo (n :: rest) p → s.NodeMatches V n p ⟨false, q, .matching⟩ → q = p
  next : ∀ {n rest p q}, Todo (n :: rest) p → s.NodeMatches V n p ⟨true, q, .matching⟩ →
    (n.isTerminal && s.reached q) = false →
      Todo rest q ∧ (n.isMultiple = true → Todo (n :: rest) q)

/-- Two sessions that offer the same tokens and whose positions correspond as `T` says. -/
structure Mirror (s s' : Session) (T : Nat → Nat → Prop)
    (Todo : List (Node RuleId) → Nat → Prop) : Prop where
  ignores : ∀ t, s'.model.isIgnoredToken t = s.model.isIgnoredToken t
  lt_iff : ∀ {p p' q q'}, T p p' → T q q' → (p < q ↔ p' < q')
  reached : ∀ {p p'}, T p p' → s'.reached p' = s.reached p
  atEnd : ∀ {n rest p p'}, Todo (n :: rest) p → T p p' →
    s'.stream.atEnd p' = s.stream.atEnd p
  token : ∀ {n rest p p' id}, Todo (n :: rest) p → n.symbol = .token id → T p p' →
    (s.matchToken n.any id p).Mirrors T (s'.matchToken n.any id p')

namespace Mirror

variable {s s' : Session} {T : Nat → Nat → Prop} {Ask : Spot → Prop} {V : Spot → Outcome → Prop}
  {Todo : List (Node RuleId) → Nat → Prop} {n : Node RuleId} {rest nodes : List (Node RuleId)}
  {p p' q q' : Nat}

/-- Two continuations that differ in the position only. -/
def Continues (T : Nat → Nat → Prop) (Todo : List (Node RuleId) → Nat → Prop)
    (rest : List (Node RuleId)) : Continuation → Continuation → Prop
  | .finished o, .finished o' => o.Mirrors T o'
  | .next p, .next p' => T p p' ∧ Todo rest p
  | _, _ => False

/-- A session is mirrored by itself over another model in which the same tokens are offered. -/
lemma withModel {m' : Model} (h : ∀ t, m'.isIgnoredToken t = s.model.isIgnoredToken t) :
    s.Mirror (s.withModel m') (· = ·) Todo where
  ignores := h
  lt_iff hp hq := by rw [hp, hq]
  reached hp := by
    rw [hp]
    rfl
  atEnd _ hp := by
    rw [hp]
    rfl
  token _ _ hp := hp ▸ ⟨rfl, rfl, rfl⟩

/-- A session mirrors itself. -/
lemma refl (s : Session) : s.Mirror s (· = ·) Todo := withModel fun _ => rfl

lemma eq_iff (h : s.Mirror s' T Todo) (hp : T p p') (hq : T q q') : p = q ↔ p' = q' := by
  have h₁ := h.lt_iff hp hq
  have h₂ := h.lt_iff hq hp
  omega

/-! ## Collecting -/

lemma offerUnlessIgnored (h : s.Mirror s' T Todo) (t : TokenId) (c : List TokenId) :
    Plan.Mirrors T Ask V (fun _ _ => True) (Plan.offerUnlessIgnored s t c)
      (Plan.offerUnlessIgnored s' t c) := by
  simp only [Plan.offerUnlessIgnored, h.ignores]
  exact .ite Iff.rfl (fun _ => .offer (.done trivial)) fun _ => .done trivial

lemma collectNodes (h : s.Mirror s' T Todo) (nodes : List (Node RuleId)) :
    Plan.Mirrors T Ask V (· = ·) (Plan.collectNodes s nodes) (Plan.collectNodes s' nodes) := by
  induction nodes with
  | nil => exact .pure rfl
  | cons n rest ih =>
    cases hn : n.symbol with
    | token t =>
      simp only [Plan.collectNodes, hn, Model.continuation_congr h.ignores]
      refine .ite Iff.rfl (fun _ => .pure rfl) fun _ => ?_
      have hrest : Plan.Mirrors T Ask V (· = ·)
          (if n.isRequired = true then Pure.pure .matching else Plan.collectNodes s rest)
          (if n.isRequired = true then Pure.pure .matching else Plan.collectNodes s' rest) :=
        .ite Iff.rfl (fun _ => .pure rfl) fun _ => ih
      exact .ite Iff.rfl (fun _ => (h.offerUnlessIgnored _ _).bind fun _ _ _ => hrest)
        fun _ => hrest
    | rule id =>
      simp only [Plan.collectNodes, hn]
      exact .gather fun ph => .ite Iff.rfl (fun _ => .pure rfl) fun _ => ih

lemma collectSequences (h : s.Mirror s' T Todo) (list : List (Sequence RuleId)) :
    Plan.Mirrors T Ask V (· = ·) (Plan.collectSequences s list)
      (Plan.collectSequences s' list) := by
  induction list with
  | nil => exact .pure rfl
  | cons q rest ih =>
    refine (h.collectNodes q.nodes).bind ?_
    rintro ph _ rfl
    refine ih.bind ?_
    rintro others _ rfl
    exact .pure rfl

lemma collectTokens (h : s.Mirror s' T Todo) (list : List TokenId) :
    Plan.Mirrors T Ask V (· = ·) (Plan.collectTokens s list) (Plan.collectTokens s' list) := by
  induction list with
  | nil => exact .pure rfl
  | cons t rest ih => exact (h.offerUnlessIgnored t []).bind fun _ _ _ => ih

lemma collectBehind (h : s.Mirror s' T Todo) (n : Node RuleId) (rest : List (Node RuleId)) :
    Plan.Mirrors T Ask V (· = ·) (Plan.collectBehind s n rest) (Plan.collectBehind s' n rest) := by
  simp only [Plan.collectBehind]
  refine .ite Iff.rfl (fun _ => ?_) fun _ => h.collectNodes rest
  exact (h.collectNodes (n :: rest)).bind fun _ _ _ => h.collectNodes rest

lemma collectAtCaret (h : s.Mirror s' T Todo) (n : Node RuleId) (rest : List (Node RuleId)) :
    Plan.Mirrors T Ask V (· = ·) (Plan.collectAtCaret s n rest p)
      (Plan.collectAtCaret s' n rest p') := by
  refine .note rfl (.ite Iff.rfl (fun _ => ?_) fun _ => h.collectNodes rest)
  refine (h.collectNodes (n :: rest)).bind ?_
  rintro ph _ rfl
  exact .ite Iff.rfl (fun _ => h.collectNodes rest) fun _ => .pure rfl

/-! ## Matching -/

lemma matchNode (h : s.Mirror s' T Todo) (hg : s.Guide V Todo Ask) (htodo : Todo (n :: rest) p)
    (hp : T p p') :
    Plan.Mirrors T Ask V (fun o o' => s.NodeMatches V n p o ∧ o.Mirrors T o')
      (Plan.matchNode s n p) (Plan.matchNode s' n p') := by
  cases hn : n.symbol with
  | token t =>
    simp only [Plan.matchNode, hn, NodeMatches]
    exact .pure ⟨rfl, h.token htodo hn hp⟩
  | rule id =>
    simp only [Plan.matchNode, hn, NodeMatches]
    exact .visit hp (hg.ask htodo hn) fun o o' hv ho => .done ⟨hv, ho⟩

lemma matchRepeats_of_atEnd {count : Nat} (hp : s.stream.atEnd p = true) :
    Plan.matchRepeats s n rest count p = Pure.pure (.next p) := by
  cases count with
  | zero => rfl
  | succ count => rw [Plan.matchRepeats, if_pos hp]

lemma matchRepeats (h : s.Mirror s' T Todo) (hg : s.Guide V Todo Ask) (hm : n.isMultiple = true)
    {count count' : Nat} (hrest : Todo rest p) (htodo : Todo (n :: rest) p) (hp : T p p')
    (hc : s.stream.size ≤ p + count) (hc' : s'.stream.size ≤ p' + count') :
    Plan.Mirrors T Ask V (Continues T Todo rest) (Plan.matchRepeats s n rest count p)
      (Plan.matchRepeats s' n rest count' p') := by
  -- the counts differ, but both last to the end of the input
  induction count generalizing count' p p' with
  | zero =>
    have hend : s.stream.atEnd p = true := TokenStream.atEnd_iff.2 (by omega)
    rw [matchRepeats_of_atEnd hend, matchRepeats_of_atEnd ((h.atEnd htodo hp).trans hend)]
    exact .pure ⟨hp, hrest⟩
  | succ count ih =>
    cases hend : s.stream.atEnd p with
    | true =>
      rw [matchRepeats_of_atEnd hend, matchRepeats_of_atEnd ((h.atEnd htodo hp).trans hend)]
      exact .pure ⟨hp, hrest⟩
    | false =>
      have hend' : s'.stream.atEnd p' = false := (h.atEnd htodo hp).trans hend
      obtain ⟨count', rfl⟩ : ∃ m, count' = m + 1 :=
        Nat.exists_eq_succ_of_ne_zero fun hz => by simp [TokenStream.atEnd] at hend'; omega
      simp only [Plan.matchRepeats, hend, hend', Bool.false_eq_true, if_false]
      refine (h.matchNode hg htodo hp).bind ?_
      rintro ⟨_, q, _⟩ ⟨matched, q', phase⟩ ⟨ho, rfl, hq, rfl⟩
      have hreached := h.reached hq
      refine .ite Iff.rfl (fun _ => ?_) fun hph => ?_
      · refine (h.collectBehind n rest).bind ?_
        rintro ph _ rfl
        exact .pure ⟨rfl, hq, rfl⟩
      have hph : phase = .matching := by cases phase <;> simp_all
      subst hph
      refine .ite Iff.rfl (fun hf => ?_) fun hmatched => ?_
      · obtain rfl : matched = false := by simpa using hf
        obtain rfl := hg.stay htodo ho
        exact .pure ⟨hq, hrest⟩
      obtain rfl : matched = true := by simpa using hmatched
      refine .ite (by rw [hreached]) (fun _ => ?_) fun hcaret => ?_
      · refine (h.collectAtCaret n rest).bind ?_
        rintro ph _ rfl
        exact .pure ⟨rfl, hq, rfl⟩
      refine .ite (h.eq_iff hq hp) (fun _ => .pure ⟨hp, hrest⟩) fun hne => ?_
      -- every further occurrence is progress on both sides
      have hlt : p < q := Nat.lt_of_le_of_ne (hg.le htodo ho) (Ne.symm hne)
      have hlt' : p' < q' := (h.lt_iff hp hq).1 hlt
      obtain ⟨hnext, hagain⟩ := hg.next htodo ho (by simpa using hcaret)
      exact ih hnext (hagain hm) hq (show _ ≤ q + count by omega) (show _ ≤ q' + count' by omega)

lemma matchNodes (h : s.Mirror s' T Todo) (hg : s.Guide V Todo Ask) (htodo : Todo nodes p)
    (hp : T p p') :
    Plan.Mirrors T Ask V (Outcome.Mirrors T) (Plan.matchNodes s nodes p)
      (Plan.matchNodes s' nodes p') := by
  induction nodes generalizing p p' with
  | nil => exact .pure ⟨rfl, hp, rfl⟩
  | cons n rest ih =>
    refine (h.matchNode hg htodo hp).bind ?_
    rintro ⟨_, q, _⟩ ⟨matched, q', phase⟩ ⟨ho, rfl, hq, rfl⟩
    have hreached := h.reached hq
    refine .ite Iff.rfl (fun _ => ?_) fun hph => ?_
    · refine (h.collectBehind n rest).bind ?_
      rintro ph _ rfl
      exact .pure ⟨rfl, hq, rfl⟩
    have hph : phase = .matching := by cases phase <;> simp_all
    subst hph
    refine .ite Iff.rfl (fun hf => ?_) fun hmatched => ?_
    · obtain rfl : matched = false := by simpa using hf
      obtain rfl := hg.stay htodo ho
      refine .ite Iff.rfl (fun _ => .pure ⟨rfl, hq, rfl⟩) fun hr => ?_
      exact ih (hg.skip htodo (by simpa using hr)) hq
    obtain rfl : matched = true := by simpa using hmatched
    refine .ite (by rw [hreached]) (fun _ => ?_) fun hcaret => ?_
    · refine (h.collectAtCaret n rest).bind ?_
      rintro ph _ rfl
      exact .pure ⟨rfl, hq, rfl⟩
    obtain ⟨hnext, hagain⟩ := hg.next htodo ho (by simp [Bool.eq_false_iff.2 hcaret])
    refine .ite Iff.rfl (fun hm => ?_) fun _ => ih hnext hq
    refine (h.matchRepeats hg hm hnext (hagain hm) hq (Nat.sub_le_iff_le_add'.1 le_rfl)
      (Nat.sub_le_iff_le_add'.1 le_rfl)).bind ?_
    rintro (o | r) (o' | r') hk
    · exact .pure hk
    · exact hk.elim
    · exact hk.elim
    · exact ih hk.2 hk.1

/-- Two comparisons that differ in the position of the best outcome only. -/
structure TallyMirrors (T : Nat → Nat → Prop) (t t' : Tally) : Prop where
  matched : t'.matched = t.matched
  best : Option.Rel (fun b b' => T b.1 b'.1 ∧ b'.2 = b.2) t.best t'.best

lemma TallyMirrors.add (h : s.Mirror s' T Todo) {t t' : Tally} {o o' : Outcome}
    (ht : TallyMirrors T t t') (ho : o.Mirrors T o') : TallyMirrors T (t.add o) (t'.add o') := by
  obtain ⟨matched, best⟩ := t
  obtain ⟨_, best'⟩ := t'
  obtain ⟨rfl, hbest⟩ := ht
  have husable : o'.isUsable = o.isUsable := by simp [Outcome.isUsable, ho.matched, ho.phase]
  have hbetter : (best'.all fun b => b.1 < o'.stop) = best.all fun b => b.1 < o.stop := by
    cases hbest with
    | none => rfl
    | some hb => simp [h.lt_iff hb.1 ho.stop]
  refine ⟨by simp [Tally.add, ho.matched], ?_⟩
  simp only [Tally.add, husable, hbetter]
  split
  · exact .some ⟨ho.stop, ho.phase⟩
  · exact hbest

lemma TallyMirrors.outcome {t t' : Tally} (ht : TallyMirrors T t t') (hp : T p p') :
    (t.outcome p).Mirrors T (t'.outcome p') := by
  obtain ⟨matched, best⟩ := t
  obtain ⟨matched', best'⟩ := t'
  obtain ⟨hmatched, hbest⟩ := ht
  cases hbest with
  | none => exact ⟨hmatched, hp, rfl⟩
  | some hb => exact ⟨hmatched, hb.1, hb.2⟩

lemma matchSequences (h : s.Mirror s' T Todo) (hg : s.Guide V Todo Ask) {t t' : Tally} (i : Nat)
    {list : List (Sequence RuleId)} (htodo : ∀ q ∈ list, Todo q.nodes p) (hp : T p p')
    (ht : TallyMirrors T t t') :
    Plan.Mirrors T Ask V (TallyMirrors T) (Plan.matchSequences s p i t list)
      (Plan.matchSequences s' p' i t' list) := by
  induction list generalizing i t t' with
  | nil => exact .pure ht
  | cons q rest ih =>
    refine (h.matchNodes hg (htodo q List.mem_cons_self) hp).bind fun o o' ho => .note rfl ?_
    exact ih (i + 1) (fun r hr => htodo r (List.mem_cons_of_mem q hr)) (ht.add h ho)

/-- Two token sets are matched alike where the sessions see the same token. -/
lemma matchBody (h : s.Mirror s' T Todo) (hg : s.Guide V Todo Ask) {body : RuleBody RuleId}
    (htodo : ∀ list, body = .sequences list → ∀ q ∈ list, Todo q.nodes p) (hp : T p p')
    (hset : ∀ tokens, (s.matchTokenSet tokens p).Mirrors T (s'.matchTokenSet tokens p')) :
    Plan.Mirrors T Ask V (Outcome.Mirrors T) (Plan.matchBody s p body)
      (Plan.matchBody s' p' body) := by
  cases body with
  | tokenSet tokens => exact .pure (hset tokens)
  | sequences list =>
    refine (h.matchSequences hg 0 (htodo list rfl) hp ⟨rfl, .none⟩).bind fun t t' ht => ?_
    exact .pure (ht.outcome hp)

end Mirror

end Session

end GrammarCompletion
