/-
# What matching computes

The outcome of matching nodes, sequences and rule bodies as a relation, given a relation `V` that
says which outcomes the rules inside them have at which positions.  The relation has one constructor
for each way in which matching goes on or ends (`Session.Matches`, and `Session.Repeats` for the
repetition of a node), and it does not speak of runs: what matching does to a run is in
`Walk/Matching`, and what follows from an outcome is proved by induction on the relation.
-/
import GrammarCompletion.Proofs.Walk.Phase
import GrammarCompletion.Walk.Match

namespace GrammarCompletion

/-- The nodes that decide whether there is more to collect behind a node that matched up to the
caret: after an optional node that may be repeated, the repetition is collected from last. -/
def Node.behind (n : Node RuleId) (rest : List (Node RuleId)) : List (Node RuleId) :=
  if n.isMultiple && !n.isRequired then n :: rest else rest

/-- The position that a continuation has reached. -/
def Continuation.stop : Continuation → Nat
  | finished o => o.stop
  | next p => p

lemma Outcome.isUsable_iff {o : Outcome} :
    o.isUsable = true ↔ o.matched = true ∨ o.phase = .pending := by
  cases h : o.phase <;> simp [isUsable, h]

@[simp] lemma Outcome.isUsable_matched {p : Nat} {ph : Phase} :
    (⟨true, p, ph⟩ : Outcome).isUsable = true := rfl

@[simp] lemma Outcome.isUsable_failed {p : Nat} :
    (⟨false, p, .matching⟩ : Outcome).isUsable = false := rfl

@[simp] lemma Outcome.isUsable_pending {b : Bool} {p : Nat} :
    (⟨b, p, .pending⟩ : Outcome).isUsable = true := by
  simp [isUsable]

/-- A property of outcomes that does not depend on which sequence matched: it holds of a usable
outcome also if another one matched. -/
def Outcome.Robust (P : Outcome → Prop) : Prop :=
  ∀ o b, P o → o.isUsable = true → (o.matched = true → b = true) → P ⟨b, o.stop, o.phase⟩

/-- A property holds of the best outcome in a comparison. -/
def Tally.BestHas (P : Outcome → Prop) (t : Tally) : Prop :=
  match t.best with
  | some best => let o : Outcome := ⟨t.matched, best.1, best.2⟩
    o.isUsable = true ∧ P o
  | none => t.matched = false

lemma Tally.BestHas.add {P : Outcome → Prop} (hP : Outcome.Robust P) {t : Tally} {o : Outcome}
    (h : t.BestHas P) (ho : P o) : (t.add o).BestHas P := by
  unfold BestHas Tally.add
  by_cases hbetter : (o.isUsable && t.best.all fun b => b.1 < o.stop) = true
  · simp only [if_pos hbetter]
    rw [Bool.and_eq_true] at hbetter
    have hu : (⟨t.matched || o.matched, o.stop, o.phase⟩ : Outcome).isUsable = true := by
      have := Outcome.isUsable_iff.1 hbetter.1
      rw [Outcome.isUsable_iff, Bool.or_eq_true]
      tauto
    exact ⟨hu, hP o _ ho hbetter.1 fun h => by simp [h]⟩
  · simp only [if_neg hbetter]
    unfold BestHas at h
    cases hb : t.best with
    | none =>
      simp only [hb] at h hbetter ⊢
      have hu : o.isUsable = false := by simpa using hbetter
      have hm : o.matched = false := by simp_all [Outcome.isUsable]
      simp [h, hm]
    | some best =>
      simp only [hb] at h ⊢
      have hu : (⟨t.matched || o.matched, best.1, best.2⟩ : Outcome).isUsable = true := by
        have := Outcome.isUsable_iff.1 h.1
        rw [Outcome.isUsable_iff, Bool.or_eq_true]
        tauto
      exact ⟨hu, hP _ _ h.2 h.1 fun hm => by simp_all⟩

/-- The outcome of a rule is the best one, or a failure without any. -/
lemma Tally.BestHas.outcome {P : Outcome → Prop} {t : Tally} (h : t.BestHas P) (start : Nat) :
    (t.outcome start).isUsable = true ∧ P (t.outcome start) ∨
      t.outcome start = ⟨false, start, .matching⟩ := by
  unfold BestHas at h
  unfold Tally.outcome
  cases hb : t.best with
  | none =>
    simp only [hb] at h
    exact Or.inr (by rw [h])
  | some best =>
    simp only [hb] at h
    exact Or.inl h

namespace Session

variable (s : Session) (V : Spot → Outcome → Prop)

/-- An occurrence of a node at a position has an outcome. -/
def NodeMatches (n : Node RuleId) (p : Nat) (o : Outcome) : Prop :=
  match n.symbol with
  | .token id => o = s.matchToken n.any id p
  | .rule id => V ⟨id, p⟩ o

/-- Further occurrences of a node, at most `count` of them, lead to a continuation. -/
inductive Repeats (n : Node RuleId) (rest : List (Node RuleId)) : Nat → Nat → Continuation → Prop
  | spent {p : Nat} : Repeats n rest 0 p (.next p)
  | atEnd {count p : Nat} (hp : s.stream.atEnd p = true) : Repeats n rest (count + 1) p (.next p)
  | pending {count p q : Nat} {b : Bool} {ph : Phase} (hp : s.stream.atEnd p = false)
      (hn : s.NodeMatches V n p ⟨b, q, .pending⟩) (hl : s.model.NodesLeave [] rest ph) :
      Repeats n rest (count + 1) p (.finished ⟨skippable rest, q, ph⟩)
  | failed {count p q : Nat} (hp : s.stream.atEnd p = false)
      (hn : s.NodeMatches V n p ⟨false, q, .matching⟩) : Repeats n rest (count + 1) p (.next q)
  | atCaret {count p q : Nat} {ph : Phase} (hp : s.stream.atEnd p = false)
      (hn : s.NodeMatches V n p ⟨true, q, .matching⟩) (ht : n.isTerminal = true)
      (hq : s.reached q = true) (hl : s.model.NodesLeave [] (n.behind rest) ph) :
      Repeats n rest (count + 1) p (.finished ⟨skippable rest, q, ph⟩)
  | idle {count p : Nat} (hp : s.stream.atEnd p = false)
      (hn : s.NodeMatches V n p ⟨true, p, .matching⟩)
      (hc : (n.isTerminal && s.reached p) = false) : Repeats n rest (count + 1) p (.next p)
  | more {count p q : Nat} {k : Continuation} (hp : s.stream.atEnd p = false)
      (hn : s.NodeMatches V n p ⟨true, q, .matching⟩)
      (hc : (n.isTerminal && s.reached q) = false) (hpq : q ≠ p)
      (h : Repeats n rest count q k) : Repeats n rest (count + 1) p k

/-- Nodes in a row have an outcome at a position. -/
inductive Matches : List (Node RuleId) → Nat → Outcome → Prop
  | nil {p : Nat} : Matches [] p ⟨true, p, .matching⟩
  | pending {n : Node RuleId} {rest : List (Node RuleId)} {p q : Nat} {b : Bool} {ph : Phase}
      (hn : s.NodeMatches V n p ⟨b, q, .pending⟩) (hl : s.model.NodesLeave [] rest ph) :
      Matches (n :: rest) p ⟨b && skippable rest, q, ph⟩
  | failed {n : Node RuleId} {rest : List (Node RuleId)} {p q : Nat} (hr : n.isRequired = true)
      (hn : s.NodeMatches V n p ⟨false, q, .matching⟩) :
      Matches (n :: rest) p ⟨false, q, .matching⟩
  | skipped {n : Node RuleId} {rest : List (Node RuleId)} {p q : Nat} {o : Outcome}
      (hr : n.isRequired = false) (hn : s.NodeMatches V n p ⟨false, q, .matching⟩)
      (h : Matches rest q o) : Matches (n :: rest) p o
  | atCaret {n : Node RuleId} {rest : List (Node RuleId)} {p q : Nat} {ph : Phase}
      (hn : s.NodeMatches V n p ⟨true, q, .matching⟩) (hq : s.reached q = true)
      (hl : s.model.NodesLeave [] (n.behind rest) ph) :
      Matches (n :: rest) p ⟨skippable rest, q, ph⟩
  | once {n : Node RuleId} {rest : List (Node RuleId)} {p q : Nat} {o : Outcome}
      (hn : s.NodeMatches V n p ⟨true, q, .matching⟩) (hq : s.reached q = false)
      (hm : n.isMultiple = false) (h : Matches rest q o) : Matches (n :: rest) p o
  | finished {n : Node RuleId} {rest : List (Node RuleId)} {p q : Nat} {o : Outcome}
      (hn : s.NodeMatches V n p ⟨true, q, .matching⟩) (hq : s.reached q = false)
      (hm : n.isMultiple = true) (hk : s.Repeats V n rest (s.stream.size - q) q (.finished o)) :
      Matches (n :: rest) p o
  | repeated {n : Node RuleId} {rest : List (Node RuleId)} {p q q' : Nat} {o : Outcome}
      (hn : s.NodeMatches V n p ⟨true, q, .matching⟩) (hq : s.reached q = false)
      (hm : n.isMultiple = true) (hk : s.Repeats V n rest (s.stream.size - q) q (.next q'))
      (h : Matches rest q' o) : Matches (n :: rest) p o

/-- Trying sequences from a position leads from one comparison to another. -/
inductive Tallies (start : Nat) : Tally → List (Sequence RuleId) → Tally → Prop
  | nil {t : Tally} : Tallies start t [] t
  | cons {t t' : Tally} {q : Sequence RuleId} {rest : List (Sequence RuleId)} {o : Outcome}
      (hq : s.Matches V q.nodes start o) (h : Tallies start (t.add o) rest t') :
      Tallies start t (q :: rest) t'

/-- The body of a rule has an outcome at a spot. -/
inductive BodyMatches (a : Spot) : Outcome → Prop
  | tokenSet {tokens : OrderedSet TokenId} (hb : s.model.body a.rule = .ok (.tokenSet tokens)) :
      BodyMatches a (s.matchTokenSet tokens a.start)
  | sequences {list : List (Sequence RuleId)} {t : Tally}
      (hb : s.model.body a.rule = .ok (.sequences list)) (h : s.Tallies V a.start {} list t) :
      BodyMatches a (t.outcome a.start)

variable {s V} {V' : Spot → Outcome → Prop}

/-! ## More outcomes of the rules -/

lemma NodeMatches.mono (hV : ∀ a o, V a o → V' a o) {n : Node RuleId} {p : Nat} {o : Outcome}
    (h : s.NodeMatches V n p o) : s.NodeMatches V' n p o := by
  unfold NodeMatches at h ⊢
  split at h
  · exact h
  · exact hV _ _ h

lemma Repeats.mono (hV : ∀ a o, V a o → V' a o) {n : Node RuleId} {rest : List (Node RuleId)}
    {count p : Nat} {k : Continuation} (h : s.Repeats V n rest count p k) :
    s.Repeats V' n rest count p k := by
  induction h with
  | spent => exact .spent
  | atEnd hp => exact .atEnd hp
  | pending hp hn hl => exact .pending hp (hn.mono hV) hl
  | failed hp hn => exact .failed hp (hn.mono hV)
  | atCaret hp hn ht hq hl => exact .atCaret hp (hn.mono hV) ht hq hl
  | idle hp hn hc => exact .idle hp (hn.mono hV) hc
  | more hp hn hc hpq _ ih => exact .more hp (hn.mono hV) hc hpq ih

lemma Matches.mono (hV : ∀ a o, V a o → V' a o) {nodes : List (Node RuleId)} {p : Nat}
    {o : Outcome} (h : s.Matches V nodes p o) : s.Matches V' nodes p o := by
  induction h with
  | nil => exact .nil
  | pending hn hl => exact .pending (hn.mono hV) hl
  | failed hr hn => exact .failed hr (hn.mono hV)
  | skipped hr hn _ ih => exact .skipped hr (hn.mono hV) ih
  | atCaret hn hq hl => exact .atCaret (hn.mono hV) hq hl
  | once hn hq hm _ ih => exact .once (hn.mono hV) hq hm ih
  | finished hn hq hm hk => exact .finished (hn.mono hV) hq hm (hk.mono hV)
  | repeated hn hq hm hk _ ih => exact .repeated (hn.mono hV) hq hm (hk.mono hV) ih

lemma Tallies.mono (hV : ∀ a o, V a o → V' a o) {start : Nat} {t t' : Tally}
    {list : List (Sequence RuleId)} (h : s.Tallies V start t list t') :
    s.Tallies V' start t list t' := by
  induction h with
  | nil => exact .nil
  | cons hq _ ih => exact .cons (hq.mono hV) ih

lemma BodyMatches.mono (hV : ∀ a o, V a o → V' a o) {a : Spot} {o : Outcome}
    (h : s.BodyMatches V a o) : s.BodyMatches V' a o := by
  cases h with
  | tokenSet hb => exact .tokenSet hb
  | sequences hb h => exact .sequences hb (h.mono hV)

/-! ## Single steps -/

/-- A token is consumed or the node fails where it is. -/
lemma matchToken_eq (s : Session) (any : Bool) (id : TokenId) (p : Nat) :
    s.matchToken any id p = ⟨true, s.stream.advance p, .matching⟩ ∧
        (any = false → s.stream.kind p = id) ∨
      s.matchToken any id p = ⟨false, p, .matching⟩ := by
  cases any with
  | true => cases h : s.stream.atEnd p <;> simp [matchToken, h]
  | false => by_cases h : s.stream.kind p = id <;> simp [matchToken, h]

lemma stop_matchToken_le {any : Bool} {id : TokenId} {p : Nat} (hp : p ≤ s.stream.size) :
    (s.matchToken any id p).stop ≤ s.stream.size := by
  rcases s.matchToken_eq any id p with ⟨h, -⟩ | h
  · rw [h]
    exact TokenStream.advance_le_size hp
  · rw [h]
    exact hp

lemma stop_matchTokenSet_le {tokens : OrderedSet TokenId} {p : Nat} (hp : p ≤ s.stream.size) :
    (s.matchTokenSet tokens p).stop ≤ s.stream.size := by
  rw [matchTokenSet]
  split
  · exact TokenStream.advance_le_size hp
  · exact hp

/-- A property of all sequences is one of the rule, unless no sequence is usable. -/
lemma Tallies.best {P : Outcome → Prop} (hP : Outcome.Robust P) {start : Nat} {t' : Tally}
    {list : List (Sequence RuleId)} (h : s.Tallies V start {} list t')
    (hlist : ∀ q ∈ list, ∀ o, s.Matches V q.nodes start o → P o) :
    (t'.outcome start).isUsable = true ∧ P (t'.outcome start) ∨
      t'.outcome start = ⟨false, start, .matching⟩ := by
  -- the comparison starts without any outcome and only ever takes over usable ones
  have hempty : ({} : Tally).BestHas P := rfl
  generalize ({} : Tally) = t at h hempty
  have hbest : t'.BestHas P := by
    induction h with
    | nil => exact hempty
    | @cons _ _ q rest o hq _ ih =>
      have ho := hlist q List.mem_cons_self o hq
      exact ih (fun q' hq' => hlist q' (List.mem_cons_of_mem q hq')) (hempty.add hP ho)
  exact hbest.outcome start

/-! ## Where outcomes stop -/

section

variable {G : Nat → Prop} {n : Node RuleId} {rest nodes : List (Node RuleId)} {p : Nat} {o : Outcome}
  {a : Spot}

/-- An occurrence of a node stops at a position of a kind, if it starts there, an advance stays at
such positions and rules stop there. -/
lemma NodeMatches.stop (hG : ∀ p, G p → G (s.stream.advance p)) (hV : ∀ b o, V b o → G o.stop)
    (h : s.NodeMatches V n p o) (hp : G p) : G o.stop := by
  unfold NodeMatches at h
  split at h
  · next id _ =>
    subst h
    rcases s.matchToken_eq n.any id p with ⟨ho, -⟩ | ho <;> rw [ho]
    · exact hG p hp
    · exact hp
  · exact hV _ _ h

lemma Repeats.stop {count : Nat} {k : Continuation} (hG : ∀ p, G p → G (s.stream.advance p))
    (hV : ∀ b o, V b o → G o.stop) (h : s.Repeats V n rest count p k) (hp : G p) : G k.stop := by
  induction h with
  | spent => exact hp
  | atEnd => exact hp
  | pending _ hn _ => exact (hn.stop hG hV hp :)
  | failed _ hn => exact hn.stop hG hV hp
  | atCaret _ hn _ _ _ => exact (hn.stop hG hV hp :)
  | idle => exact hp
  | more _ hn _ _ _ ih => exact ih (hn.stop hG hV hp)

lemma Matches.stop (hG : ∀ p, G p → G (s.stream.advance p)) (hV : ∀ b o, V b o → G o.stop)
    (h : s.Matches V nodes p o) (hp : G p) : G o.stop := by
  induction h with
  | nil => exact hp
  | pending hn _ => exact (hn.stop hG hV hp :)
  | failed _ hn => exact hn.stop hG hV hp
  | skipped _ hn _ ih => exact ih (hn.stop hG hV hp)
  | atCaret hn _ _ => exact (hn.stop hG hV hp :)
  | once hn _ _ _ ih => exact ih (hn.stop hG hV hp)
  | finished hn _ _ hk => exact hk.stop hG hV (hn.stop hG hV hp)
  | repeated hn _ _ hk _ ih => exact ih (hk.stop hG hV (hn.stop hG hV hp))

/-- A body stops at a position of a kind, if the rules inside it do. -/
lemma BodyMatches.stop (hG : ∀ p, G p → G (s.stream.advance p)) (hV : ∀ b o, V b o → G o.stop)
    (h : s.BodyMatches V a o) (ha : G a.start) : G o.stop := by
  cases h with
  | tokenSet hb =>
    unfold matchTokenSet
    split
    · exact hG a.start ha
    · exact ha
  | sequences hb h =>
    have hrobust : Outcome.Robust fun o => G o.stop := fun _ _ ho _ _ => ho
    rcases h.best hrobust fun q _ o ho => ho.stop hG hV ha with ⟨-, ho⟩ | ho
    · exact ho
    · exact ho ▸ ha

end

end Session

end GrammarCompletion
