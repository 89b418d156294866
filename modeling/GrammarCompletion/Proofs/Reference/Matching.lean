/-
# Matching, read plainly

How a text is matched, by a recursion over the model that keeps nothing.  A rule tries its alternatives
and has the longest usable outcome (`Longest`).  An alternative goes from node to node
(`Session.ParsesNodes`): it leaves out what need not match, repeats a node until that fails or consumes
nothing, and where the caret is reached it turns to what may follow.

The nodes of an alternative are matched in two loops, one for the first occurrence of a node and one for
the further ones.  Both do what the plain reading says (`Session.parsesNodes_of_yields`), provided that
what is known of the rules inside is sound: who fails has not moved, and a rule that goes on matching has
not reached the caret.
-/
import GrammarCompletion.Proofs.Reference.Collecting

namespace GrammarCompletion

/-! ## The longest outcome -/

/-- An outcome is the first of the longest usable ones. -/
def FirstLongest (os : List Outcome) (b : Outcome) : Prop :=
  b.isUsable = true ∧ ∃ i : Nat, os[i]? = some b ∧ ∀ (j : Nat) (b' : Outcome), os[j]? = some b' →
    b'.isUsable = true → b'.stop ≤ b.stop ∧ (j < i → b'.stop < b.stop)

/-- The outcome of a rule at a position, given those of its alternatives: it matches if one of them
does, and it ends as the first of the longest usable ones does. -/
structure Longest (p : Nat) (os : List Outcome) (o : Outcome) : Prop where
  matched : o.matched = true ↔ ∃ b ∈ os, b.matched = true
  ends : (∃ b, FirstLongest os b ∧ o.stop = b.stop ∧ o.phase = b.phase) ∨
    (∀ b ∈ os, b.isUsable = false) ∧ o.stop = p ∧ o.phase = .matching

/-- What a comparison knows of the outcomes that were added to it. -/
structure Tallied (t : Tally) (os : List Outcome) : Prop where
  matched : t.matched = true ↔ ∃ b ∈ os, b.matched = true
  best : (∃ b, FirstLongest os b ∧ t.best = some (b.stop, b.phase)) ∨
    (∀ b ∈ os, b.isUsable = false) ∧ t.best = none

section

variable {os : List Outcome} {b b' o o' : Outcome} {p : Nat} {t : Tally}

/-- Of several longest outcomes, one comes first. -/
lemma FirstLongest.unique (h : FirstLongest os b) (h' : FirstLongest os b') : b = b' := by
  obtain ⟨hu, i, hi, hall⟩ := h
  obtain ⟨hu', j, hj, hall'⟩ := h'
  -- each is at least as long as the other, so neither comes before the other
  obtain ⟨hle, hlt⟩ := hall j b' hj hu'
  obtain ⟨hle', hlt'⟩ := hall' i b hi hu
  have hij : i = j := by
    by_contra hne
    rcases Nat.lt_or_gt_of_ne hne with hij | hji
    · exact absurd (hlt' hij) (Nat.not_lt.2 hle)
    · exact absurd (hlt hji) (Nat.not_lt.2 hle')
  subst hij
  exact Option.some.inj (hi.symm.trans hj)

lemma FirstLongest.not_all (h : FirstLongest os b) : ¬ ∀ b ∈ os, b.isUsable = false := by
  obtain ⟨hu, i, hi, -⟩ := h
  exact fun hall => absurd hu (ne_true_of_eq_false (hall b (List.mem_of_getElem? hi)))

/-- There is one longest outcome. -/
lemma Longest.unique (h : Longest p os o) (h' : Longest p os o') : o = o' := by
  have hmatched : o.matched = o'.matched := by
    rw [Bool.eq_iff_iff, h.matched, h'.matched]
  have hends : o.stop = o'.stop ∧ o.phase = o'.phase := by
    rcases h.ends with ⟨b, hb, hstop, hphase⟩ | ⟨hnone, hstop, hphase⟩
    · rcases h'.ends with ⟨b', hb', hstop', hphase'⟩ | ⟨hnone', -⟩
      · obtain rfl := hb.unique hb'
        exact ⟨hstop.trans hstop'.symm, hphase.trans hphase'.symm⟩
      · exact absurd hnone' hb.not_all
    · rcases h'.ends with ⟨b', hb', -⟩ | ⟨-, hstop', hphase'⟩
      · exact absurd hnone hb'.not_all
      · exact ⟨hstop.trans hstop'.symm, hphase.trans hphase'.symm⟩
  cases o
  cases o'
  simp_all

/-- If only one outcome is usable, it is the longest one. -/
lemma Longest.of_only (h : Longest p os o) (hb : b ∈ os) (hu : b.isUsable = true)
    (honly : ∀ b' ∈ os, b'.isUsable = true → b' = b) : o.stop = b.stop ∧ o.phase = b.phase := by
  rcases h.ends with ⟨b', ⟨hu', i, hi, -⟩, hstop, hphase⟩ | ⟨hnone, -⟩
  · obtain rfl := honly b' (List.mem_of_getElem? hi) hu'
    exact ⟨hstop, hphase⟩
  · exact absurd hu (ne_true_of_eq_false (hnone b hb))

/-- An outcome in a longer list is an old one, or the one that was added. -/
lemma getElem?_concat {j : Nat} (h : (os ++ [o])[j]? = some b) :
    os[j]? = some b ∧ j < os.length ∨ j = os.length ∧ b = o := by
  rcases Nat.lt_or_ge j os.length with hlt | hge
  · rw [List.getElem?_append_left hlt] at h
    exact Or.inl ⟨h, hlt⟩
  · rw [List.getElem?_append_right hge, List.getElem?_singleton] at h
    split at h
    · exact Or.inr ⟨by omega, (Option.some.inj h).symm⟩
    · cases h

/-- The first longest outcome stays it, if the one that is added is not longer. -/
lemma FirstLongest.concat (h : FirstLongest os b) (ho : o.isUsable = true → o.stop ≤ b.stop) :
    FirstLongest (os ++ [o]) b := by
  obtain ⟨hu, i, hi, hall⟩ := h
  have hlt : i < os.length := (List.getElem?_eq_some_iff.1 hi).1
  refine ⟨hu, i, by rw [List.getElem?_append_left hlt, hi], fun j b' hj hu' => ?_⟩
  rcases getElem?_concat hj with ⟨hj, -⟩ | ⟨rfl, rfl⟩
  · exact hall j b' hj hu'
  · exact ⟨ho hu', fun hji => absurd hji (Nat.not_lt.2 hlt.le)⟩

/-- An outcome that is longer than all usable ones before it is the first longest. -/
lemma firstLongest_concat (ho : o.isUsable = true)
    (hall : ∀ b ∈ os, b.isUsable = true → b.stop < o.stop) : FirstLongest (os ++ [o]) o := by
  refine ⟨ho, os.length, by simp, fun j b' hj hu' => ?_⟩
  rcases getElem?_concat hj with ⟨hj, -⟩ | ⟨rfl, rfl⟩
  · have hlt := hall b' (List.mem_of_getElem? hj) hu'
    exact ⟨hlt.le, fun _ => hlt⟩
  · exact ⟨Nat.le_refl _, fun hlt => absurd hlt (Nat.lt_irrefl _)⟩

lemma FirstLongest.le (h : FirstLongest os b) (hb : b' ∈ os) (hu : b'.isUsable = true) :
    b'.stop ≤ b.stop := by
  obtain ⟨-, i, -, hall⟩ := h
  obtain ⟨j, hj⟩ := List.mem_iff_getElem?.1 hb
  exact (hall j b' hj hu).1

lemma tallied_nil : Tallied {} [] := ⟨by simp, Or.inr ⟨by simp, rfl⟩⟩

/-- One more alternative is compared. -/
lemma Tallied.add (h : Tallied t os) (o : Outcome) : Tallied (t.add o) (os ++ [o]) := by
  have hmatched : (t.add o).matched = true ↔ ∃ b ∈ os ++ [o], b.matched = true := by
    simp [Tally.add, h.matched, or_and_right, exists_or]
  refine ⟨hmatched, ?_⟩
  cases ho : o.isUsable with
  | false =>
    rw [Tally.add_of_not_isUsable ho]
    rcases h.best with ⟨b, hb, hbest⟩ | ⟨hnone, hbest⟩
    · exact Or.inl ⟨b, hb.concat fun hu => absurd hu (ne_true_of_eq_false ho), hbest⟩
    · refine Or.inr ⟨fun b hb => ?_, hbest⟩
      rcases List.mem_append.1 hb with hb | hb
      · exact hnone b hb
      · exact List.mem_singleton.1 hb ▸ ho
  | true =>
    rcases h.best with ⟨b, hb, hbest⟩ | ⟨hnone, hbest⟩
    · rcases Nat.lt_or_ge b.stop o.stop with hlt | hge
      · have hlonger : ∀ b' ∈ os, b'.isUsable = true → b'.stop < o.stop :=
          fun b' hb' hu => Nat.lt_of_le_of_lt (hb.le hb' hu) hlt
        refine Or.inl ⟨o, firstLongest_concat ho hlonger, Tally.best_add_of_lt ho fun c hc => ?_⟩
        rw [hbest] at hc
        exact Option.some.inj hc ▸ hlt
      · exact Or.inl ⟨b, hb.concat fun _ => hge, Tally.best_add_of_le hbest hge⟩
    · have hlonger : ∀ b' ∈ os, b'.isUsable = true → b'.stop < o.stop :=
        fun b' hb' hu => absurd hu (ne_true_of_eq_false (hnone b' hb'))
      refine Or.inl ⟨o, firstLongest_concat ho hlonger, Tally.best_add_of_lt ho fun c hc => ?_⟩
      simp [hbest] at hc

/-- **The outcome of a comparison is the longest** of those that were compared. -/
theorem Tallied.longest (h : Tallied t os) : Longest p os (t.outcome p) := by
  rcases h.best with ⟨b, hb, hbest⟩ | ⟨hnone, hbest⟩
  · refine ⟨?_, Or.inl ⟨b, hb, by simp [Tally.outcome, hbest], by simp [Tally.outcome, hbest]⟩⟩
    simp only [Tally.outcome, hbest, h.matched]
  · refine ⟨?_, Or.inr ⟨hnone, by simp [Tally.outcome, hbest], by simp [Tally.outcome, hbest]⟩⟩
    simp only [Tally.outcome, hbest, h.matched]

end

namespace Session

variable (s : Session)

/-! ## Nodes and alternatives -/

/-- One occurrence of a node has an outcome and offers. -/
inductive ParsesNode (V : Visit) : Node RuleId → Nat → Outcome → Set Event → Prop
  | token {t : TokenId} {k : Cardinality} {any : Bool} {p : Nat} :
      ParsesNode V ⟨.token t, k, any⟩ p (s.matchToken any t p) ∅
  | rule {id : RuleId} {k : Cardinality} {any : Bool} {p : Nat} {o : Outcome} {L : Set Event}
      (hv : V ⟨id, p⟩ o L) : ParsesNode V ⟨.rule id, k, any⟩ p o L

/-- Matching is over with an outcome, as the caret is reached: inside what was matched, or behind it. -/
def AtCaret (o : Outcome) : Prop := o.phase = .pending ∨ o.matched = true ∧ s.reached o.stop = true

/-- Nodes in a row have an outcome and offers, at a position and given those of rules.  With `seen`, the
first node has occurred right before already, so that it may be left out. -/
inductive ParsesNodes (V : Visit) (C : Gather) :
    (seen : Bool) → List (Node RuleId) → Nat → Outcome → Set Event → Prop
  | nil {p : Nat} : ParsesNodes V C false [] p ⟨true, p, .matching⟩ ∅
  /-- Where the caret is reached, it is collected what may follow. -/
  | ends {seen : Bool} {n : Node RuleId} {rest : List (Node RuleId)} {p : Nat} {o : Outcome}
      {ph : Phase} {L L' : Set Event} (hn : s.ParsesNode V n p o L) (ho : s.AtCaret o)
      (h : s.ExpectsBehind C n rest ph L') :
      ParsesNodes V C seen (n :: rest) p ⟨(seen || o.matched) && skippable rest, o.stop, ph⟩ (L ∪ L')
  /-- A required node that does not match fails. -/
  | fails {n : Node RuleId} {rest : List (Node RuleId)} {p : Nat} {L : Set Event}
      (hn : s.ParsesNode V n p ⟨false, p, .matching⟩ L) (hr : n.isRequired = true) :
      ParsesNodes V C false (n :: rest) p ⟨false, p, .matching⟩ L
  /-- A node that is optional or has occurred before is left out where it does not match. -/
  | skips {seen : Bool} {n : Node RuleId} {rest : List (Node RuleId)} {p : Nat} {o : Outcome}
      {L L' : Set Event} (hn : s.ParsesNode V n p ⟨false, p, .matching⟩ L)
      (hr : seen = true ∨ n.isRequired = false) (h : ParsesNodes V C false rest p o L') :
      ParsesNodes V C seen (n :: rest) p o (L ∪ L')
  /-- Behind a node that is not repeated, or has consumed nothing, the next one follows. -/
  | passes {seen : Bool} {n : Node RuleId} {rest : List (Node RuleId)} {p q : Nat} {o : Outcome}
      {L L' : Set Event} (hn : s.ParsesNode V n p ⟨true, q, .matching⟩ L)
      (hq : s.reached q = false) (hm : n.isMultiple = false ∨ q = p)
      (h : ParsesNodes V C false rest q o L') : ParsesNodes V C seen (n :: rest) p o (L ∪ L')
  /-- A node that may be repeated is tried again. -/
  | repeats {seen : Bool} {n : Node RuleId} {rest : List (Node RuleId)} {p q : Nat} {o : Outcome}
      {L L' : Set Event} (hn : s.ParsesNode V n p ⟨true, q, .matching⟩ L)
      (hq : s.reached q = false) (hm : n.isMultiple = true) (hne : q ≠ p)
      (h : ParsesNodes V C true (n :: rest) q o L') : ParsesNodes V C seen (n :: rest) p o (L ∪ L')

/-- Alternatives have outcomes, in their order, and offers. -/
inductive ParsesAll (V : Visit) (C : Gather) :
    List (Sequence RuleId) → Nat → List Outcome → Set Event → Prop
  | nil {p : Nat} : ParsesAll V C [] p [] ∅
  | cons {k : Sequence RuleId} {list : List (Sequence RuleId)} {p : Nat} {o : Outcome}
      {os : List Outcome} {L L' : Set Event} (hk : s.ParsesNodes V C false k.nodes p o L)
      (h : ParsesAll V C list p os L') : ParsesAll V C (k :: list) p (o :: os) (L ∪ L')

variable {s} {V V' : Visit} {C C' : Gather} {n : Node RuleId} {nodes rest : List (Node RuleId)}
  {list : List (Sequence RuleId)} {seen : Bool} {p q count : Nat} {o o' : Outcome}
  {os os' : List Outcome} {ph : Phase} {L L' : Set Event}

/-! ## Other rules inside -/

section

variable (hmono : ∀ b o L, V b o L → V' b o L)

include hmono

lemma ParsesNode.mono (h : s.ParsesNode V n p o L) : s.ParsesNode V' n p o L := by
  cases h with
  | token => exact .token
  | rule hv => exact .rule (hmono _ _ _ hv)

lemma ParsesNodes.mono (h : s.ParsesNodes V C seen nodes p o L) :
    s.ParsesNodes V' C seen nodes p o L := by
  induction h with
  | nil => exact .nil
  | ends hn ho h => exact .ends (hn.mono hmono) ho h
  | fails hn hr => exact .fails (hn.mono hmono) hr
  | skips hn hr _ ih => exact .skips (hn.mono hmono) hr ih
  | passes hn hq hm _ ih => exact .passes (hn.mono hmono) hq hm ih
  | repeats hn hq hm hne _ ih => exact .repeats (hn.mono hmono) hq hm hne ih

lemma ParsesAll.mono (h : s.ParsesAll V C list p os L) : s.ParsesAll V' C list p os L := by
  induction h with
  | nil => exact .nil
  | cons hk _ ih => exact .cons (hk.mono hmono) ih

end

/-! ## There is one answer -/

lemma not_atCaret_failed : ¬ s.AtCaret ⟨false, p, .matching⟩ := by
  rintro (h | ⟨h, -⟩) <;> cases h

lemma not_atCaret_of_not_reached (hq : s.reached q = false) : ¬ s.AtCaret ⟨true, q, .matching⟩ := by
  rintro (h | ⟨-, h⟩)
  · cases h
  · exact absurd h (ne_true_of_eq_false hq)

section

variable (hV : ∀ b o L, V b o L → ∀ o' L', V' b o' L' → o = o' ∧ L = L')
  (hC : ∀ id ph L, C id ph L → ∀ ph' L', C' id ph' L' → ph = ph' ∧ L = L')

include hV in
lemma ParsesNode.unique (h : s.ParsesNode V n p o L) (h' : s.ParsesNode V' n p o' L') :
    o = o' ∧ L = L' := by
  cases h with
  | token =>
    cases h'
    exact ⟨rfl, rfl⟩
  | rule hv =>
    cases h' with
    | rule hv' => exact hV _ _ _ hv _ _ hv'

include hV hC

lemma ParsesNodes.unique (h : s.ParsesNodes V C seen nodes p o L)
    (h' : s.ParsesNodes V' C' seen nodes p o' L') : o = o' ∧ L = L' := by
  -- the occurrence of the first node is the same, and its outcome says how to go on
  induction h generalizing o' L' with
  | nil =>
    cases h'
    exact ⟨rfl, rfl⟩
  | ends hn ho h =>
    cases h' with
    | ends hn' _ h' =>
      obtain ⟨rfl, rfl⟩ := hn.unique hV hn'
      obtain ⟨rfl, rfl⟩ := h.unique hC h'
      exact ⟨rfl, rfl⟩
    | fails hn' =>
      obtain ⟨rfl, -⟩ := hn.unique hV hn'
      exact absurd ho not_atCaret_failed
    | skips hn' =>
      obtain ⟨rfl, -⟩ := hn.unique hV hn'
      exact absurd ho not_atCaret_failed
    | passes hn' hq =>
      obtain ⟨rfl, -⟩ := hn.unique hV hn'
      exact absurd ho (not_atCaret_of_not_reached hq)
    | repeats hn' hq =>
      obtain ⟨rfl, -⟩ := hn.unique hV hn'
      exact absurd ho (not_atCaret_of_not_reached hq)
  | fails hn hr =>
    cases h' with
    | ends hn' ho =>
      obtain ⟨rfl, -⟩ := hn.unique hV hn'
      exact absurd ho not_atCaret_failed
    | fails hn' =>
      obtain ⟨-, rfl⟩ := hn.unique hV hn'
      exact ⟨rfl, rfl⟩
    | skips _ hr' =>
      rcases hr' with hr' | hr'
      · cases hr'
      · exact absurd hr (ne_true_of_eq_false hr')
    | passes hn' => cases (hn.unique hV hn').1
    | repeats hn' => cases (hn.unique hV hn').1
  | skips hn hr _ ih =>
    cases h' with
    | ends hn' ho =>
      obtain ⟨rfl, -⟩ := hn.unique hV hn'
      exact absurd ho not_atCaret_failed
    | fails _ hr' =>
      rcases hr with hr | hr
      · cases hr
      · exact absurd hr' (ne_true_of_eq_false hr)
    | skips hn' _ h' =>
      obtain ⟨-, rfl⟩ := hn.unique hV hn'
      obtain ⟨rfl, rfl⟩ := ih h'
      exact ⟨rfl, rfl⟩
    | passes hn' => cases (hn.unique hV hn').1
    | repeats hn' => cases (hn.unique hV hn').1
  | passes hn hq hm _ ih =>
    cases h' with
    | ends hn' ho =>
      obtain ⟨rfl, -⟩ := hn.unique hV hn'
      exact absurd ho (not_atCaret_of_not_reached hq)
    | fails hn' => cases (hn.unique hV hn').1
    | skips hn' => cases (hn.unique hV hn').1
    | passes hn' _ _ h' =>
      obtain ⟨⟨⟩, rfl⟩ := hn.unique hV hn'
      obtain ⟨rfl, rfl⟩ := ih h'
      exact ⟨rfl, rfl⟩
    | repeats hn' _ hm' hne =>
      obtain ⟨⟨⟩, -⟩ := hn.unique hV hn'
      rcases hm with hm | rfl
      · exact absurd hm' (ne_true_of_eq_false hm)
      · exact absurd rfl hne
  | repeats hn hq hm hne _ ih =>
    cases h' with
    | ends hn' ho =>
      obtain ⟨rfl, -⟩ := hn.unique hV hn'
      exact absurd ho (not_atCaret_of_not_reached hq)
    | fails hn' => cases (hn.unique hV hn').1
    | skips hn' => cases (hn.unique hV hn').1
    | passes hn' _ hm' =>
      obtain ⟨⟨⟩, -⟩ := hn.unique hV hn'
      rcases hm' with hm' | rfl
      · exact absurd hm (ne_true_of_eq_false hm')
      · exact absurd rfl hne
    | repeats hn' _ _ _ h' =>
      obtain ⟨⟨⟩, rfl⟩ := hn.unique hV hn'
      obtain ⟨rfl, rfl⟩ := ih h'
      exact ⟨rfl, rfl⟩

lemma ParsesAll.unique (h : s.ParsesAll V C list p os L) (h' : s.ParsesAll V' C' list p os' L') :
    os = os' ∧ L = L' := by
  induction h generalizing os' L' with
  | nil =>
    cases h'
    exact ⟨rfl, rfl⟩
  | cons hk _ ih =>
    cases h' with
    | cons hk' h' =>
      obtain ⟨rfl, rfl⟩ := hk.unique hV hC hk'
      obtain ⟨rfl, rfl⟩ := ih h'
      exact ⟨rfl, rfl⟩

end

/-! ## Matching does what the plain reading says -/

lemma parsesNode_of_yields (h : (Plan.matchNode s n p).Yields V C o L) : s.ParsesNode V n p o L := by
  obtain ⟨symbol, k, any⟩ := n
  cases symbol with
  | token t =>
    obtain ⟨rfl, rfl⟩ := (Plan.yields_matchNode_token rfl).1 h
    exact .token
  | rule id => exact .rule ((Plan.yields_matchNode_rule rfl).1 h)

lemma ParsesNode.nodeMatches {W : Spot → Outcome → Prop} (hV : ∀ b o L, V b o L → W b o)
    (h : s.ParsesNode V n p o L) : s.NodeMatches W n p o := by
  cases h with
  | token => rfl
  | rule hv => exact hV _ _ _ hv

section

variable (hV : ∀ b o L, V b o L → s.Sound b o)

include hV

lemma ParsesNode.lawful (h : s.ParsesNode V n p o L) : s.LawfulNode n p o :=
  (h.nodeMatches fun b o L hv => (hV b o L hv).lawful).lawful

/-- The caret is tested behind terminals only, but a rule that goes on matching has not reached it. -/
lemma ParsesNode.not_reached (h : s.ParsesNode V n p ⟨true, q, .matching⟩ L)
    (hc : (n.isTerminal && s.reached q) = false) : s.reached q = false := by
  cases hn : n.symbol with
  | token t =>
    have ht : n.isTerminal = true := by simp [Node.isTerminal, Node.tokenId?, hn]
    rwa [ht, Bool.true_and] at hc
  | rule id =>
    have hs : s.NodeMatches s.Sound n p ⟨true, q, .matching⟩ := h.nodeMatches hV
    simp only [NodeMatches, hn] at hs
    exact hs.not_reached

end

/-- A node that may be repeated and has consumed nothing is tried a second time, which adds nothing. -/
lemma passes_of_idle (hone : ∀ b o L, V b o L → ∀ o' L', V b o' L' → o = o' ∧ L = L')
    (hn : s.ParsesNode V n p ⟨true, p, .matching⟩ L)
    (hp : s.reached p = false)
    (h : s.ParsesNodes V C true (n :: rest) p o L') :
    s.ParsesNodes V C false (n :: rest) p o (L ∪ L') := by
  cases h with
  | ends hn' ho =>
    obtain ⟨rfl, -⟩ := hn.unique hone hn'
    exact absurd ho (not_atCaret_of_not_reached hp)
  | skips hn' => cases (hn.unique hone hn').1
  | passes hn' _ _ h =>
    obtain ⟨⟨⟩, rfl⟩ := hn.unique hone hn'
    rw [← Set.union_assoc, Set.union_self]
    exact .passes hn hp (Or.inr rfl) h
  | repeats hn' _ _ hne =>
    obtain ⟨⟨⟩, -⟩ := hn.unique hone hn'
    exact absurd rfl hne

section

variable (hE : ∀ nodes ph L, (Plan.collectNodes s nodes).Yields V C ph L → s.ExpectsNodes C' nodes ph L)

include hE

lemma expectsBehind_of_collectBehind (h : (Plan.collectBehind s n rest).Yields V C ph L) :
    s.ExpectsBehind C' n rest ph L := by
  cases hm : n.isMultiple with
  | false =>
    rw [Plan.collectBehind_once hm] at h
    exact .once hm (hE _ _ _ h)
  | true =>
    rw [Plan.collectBehind_multiple hm] at h
    obtain ⟨k, L₁, L₂, hagain, hrest, rfl⟩ := Plan.yields_bind.1 h
    exact .again hm (hE _ _ _ hagain) (hE _ _ _ hrest)

/-- Collecting from a node that is not required goes on behind it. -/
lemma expectsBehind_of_optional (hm : n.isMultiple = true) (hr : n.isRequired = false)
    (heof : n.symbol = .token .eof → n.isRequired = true)
    (h : (Plan.collectNodes s (n :: rest)).Yields V C ph L) : s.ExpectsBehind C' n rest ph L := by
  obtain ⟨L₁, L₂, hrest, rfl⟩ :
      ∃ L₁ L₂, (Plan.collectNodes s rest).Yields V C ph L₂ ∧ L = L₁ ∪ L₂ := by
    cases hn : n.symbol with
    | token t =>
      have ht : t ≠ .eof := by
        rintro rfl
        exact absurd (heof hn) (ne_true_of_eq_false hr)
      obtain ⟨L', hgo, rfl⟩ := (Plan.yields_collectNodes_token hn ht).1 h
      rw [if_neg (ne_true_of_eq_false hr)] at hgo
      exact ⟨_, L', hgo, rfl⟩
    | rule id =>
      obtain ⟨k, L₁, L₂, -, hgo, rfl⟩ := (Plan.yields_collectNodes_rule hn).1 h
      rw [if_neg fun hstop => absurd hstop.1 (ne_true_of_eq_false hr)] at hgo
      exact ⟨L₁, L₂, hgo, rfl⟩
  -- what comes behind the node is among what it offers itself
  have hagain := ExpectsBehind.again hm (hE _ _ _ h) (hE _ _ _ hrest)
  rwa [Set.union_assoc, Set.union_self] at hagain

lemma expectsBehind_of_collectAtCaret (heof : n.symbol = .token .eof → n.isRequired = true)
    (h : (Plan.collectAtCaret s n rest p).Yields V C ph L) : s.ExpectsBehind C' n rest ph L := by
  cases hm : n.isMultiple with
  | false =>
    rw [Plan.yields_collectAtCaret_once hm] at h
    exact .once hm (hE _ _ _ h)
  | true =>
    cases hr : n.isRequired with
    | true =>
      rw [Plan.yields_collectAtCaret_required hm hr] at h
      obtain ⟨k, L₁, L₂, hagain, hrest, rfl⟩ := Plan.yields_bind.1 h
      exact .again hm (hE _ _ _ hagain) (hE _ _ _ hrest)
    | false =>
      rw [Plan.yields_collectAtCaret_optional hm hr] at h
      exact expectsBehind_of_optional hE hm hr heof h

variable (hV : ∀ b o L, V b o L → s.Sound b o)

include hV

/-- Further occurrences of a node, in front of the caret. -/
lemma parsesNodes_of_repeats (heof : n.symbol = .token .eof → n.isRequired = true)
    (hm : n.isMultiple = true) (hp : s.reached p = false) (hcount : s.stream.size ≤ p + count)
    (hrest : ∀ q o L, (Plan.matchNodes s rest q).Yields V C o L → s.ParsesNodes V C' false rest q o L)
    (h : (Plan.matchRepeats s n rest count p >>= Plan.resume s rest).Yields V C o L) :
    s.ParsesNodes V C' true (n :: rest) p o L := by
  induction count generalizing p L with
  | zero => exact absurd (TokenStream.lt_size_of_not_reached hp) (Nat.not_lt.2 hcount)
  | succ count ih =>
    have hend : s.stream.atEnd p = false := by
      by_contra hend
      exact absurd (TokenStream.reached_of_atEnd (by simpa using hend)) (ne_true_of_eq_false hp)
    obtain ⟨⟨matched, q, phase⟩, L₁, L₂, hnode, hgo, rfl⟩ := (Plan.yields_matchRepeats_succ hend).1 h
    have hn := parsesNode_of_yields hnode
    have hlawful := hn.lawful hV
    cases phase with
    | pending =>
      rw [Plan.repeatOn_pending, Plan.yields_finished] at hgo
      obtain ⟨ph, hbehind, rfl⟩ := hgo
      exact .ends hn (Or.inl rfl) (expectsBehind_of_collectBehind hE hbehind)
    | matching =>
      cases matched with
      | false =>
        obtain rfl := hlawful.stop_eq
        rw [Plan.repeatOn_failed] at hgo
        obtain ⟨k, L₃, L₄, hk, hresume, rfl⟩ := Plan.yields_bind.1 hgo
        obtain ⟨rfl, rfl⟩ := Plan.yields_pure.1 hk
        rw [Set.empty_union]
        exact .skips hn (Or.inl rfl) (hrest _ _ _ hresume)
      | true =>
        cases hc : n.isTerminal && s.reached q with
        | true =>
          obtain ⟨ht, hq⟩ := Bool.and_eq_true_iff.1 hc
          rw [Plan.repeatOn_atCaret ht hq, Plan.yields_finished] at hgo
          obtain ⟨ph, hcaret, rfl⟩ := hgo
          exact .ends hn (Or.inr ⟨rfl, hq⟩) (expectsBehind_of_collectAtCaret hE heof hcaret)
        | false =>
          have hq := hn.not_reached hV hc
          by_cases hqp : q = p
          · subst hqp
            rw [Plan.repeatOn_idle hc] at hgo
            obtain ⟨k, L₃, L₄, hk, hresume, rfl⟩ := Plan.yields_bind.1 hgo
            obtain ⟨rfl, rfl⟩ := Plan.yields_pure.1 hk
            rw [Set.empty_union]
            exact .passes hn hq (Or.inr rfl) (hrest _ _ _ hresume)
          · rw [Plan.repeatOn_more hc hqp] at hgo
            have hle : p ≤ q := hlawful.le
            exact .repeats hn hq hm hqp (ih hq (by omega) hgo)

variable (hone : ∀ b o L, V b o L → ∀ o' L', V b o' L' → o = o' ∧ L = L')

include hone

/-- **Matching nodes does what the plain reading says.** -/
theorem parsesNodes_of_yields (heof : ∀ n ∈ nodes, n.symbol = .token .eof → n.isRequired = true)
    (h : (Plan.matchNodes s nodes p).Yields V C o L) : s.ParsesNodes V C' false nodes p o L := by
  induction nodes generalizing p o L with
  | nil =>
    obtain ⟨rfl, rfl⟩ := Plan.yields_pure.1 h
    exact .nil
  | cons n rest ih =>
    have hrest : ∀ q o L, (Plan.matchNodes s rest q).Yields V C o L →
        s.ParsesNodes V C' false rest q o L :=
      fun q o L hy => ih (fun k hk => heof k (List.mem_cons_of_mem n hk)) hy
    have heofn := heof n List.mem_cons_self
    rw [Plan.matchNodes_cons] at h
    obtain ⟨⟨matched, q, phase⟩, L₁, L₂, hnode, hgo, rfl⟩ := Plan.yields_bind.1 h
    have hn := parsesNode_of_yields hnode
    have hlawful := hn.lawful hV
    cases phase with
    | pending =>
      rw [Plan.matchOn_pending, Plan.yields_bind_pure] at hgo
      obtain ⟨ph, hbehind, rfl⟩ := hgo
      exact .ends hn (Or.inl rfl) (expectsBehind_of_collectBehind hE hbehind)
    | matching =>
      cases matched with
      | false =>
        obtain rfl := hlawful.stop_eq
        cases hr : n.isRequired with
        | true =>
          rw [Plan.matchOn_failed hr] at hgo
          obtain ⟨rfl, rfl⟩ := Plan.yields_pure.1 hgo
          rw [Set.union_empty]
          exact .fails hn hr
        | false =>
          rw [Plan.matchOn_skipped hr] at hgo
          exact .skips hn (Or.inr hr) (hrest _ _ _ hgo)
      | true =>
        cases hq : s.reached q with
        | true =>
          rw [Plan.matchOn_atCaret hq, Plan.yields_bind_pure] at hgo
          obtain ⟨ph, hcaret, rfl⟩ := hgo
          exact .ends hn (Or.inr ⟨rfl, hq⟩) (expectsBehind_of_collectAtCaret hE heofn hcaret)
        | false =>
          cases hm : n.isMultiple with
          | false =>
            rw [Plan.matchOn_once hq hm] at hgo
            exact .passes hn hq (Or.inl hm) (hrest _ _ _ hgo)
          | true =>
            rw [Plan.matchOn_multiple hq hm] at hgo
            have hmore := parsesNodes_of_repeats hE hV heofn hm hq
              (Nat.sub_le_iff_le_add'.1 (Nat.le_refl _)) hrest hgo
            by_cases hqp : q = p
            · subst hqp
              exact passes_of_idle hone hn hq hmore
            · exact .repeats hn hq hm hqp hmore

/-- Alternatives are compared as the plain reading says. -/
lemma parsesAll_of_yields {i : Nat} {t t' : Tally} (ht : Tallied t os)
    (heof : ∀ k ∈ list, ∀ n ∈ k.nodes, n.symbol = .token .eof → n.isRequired = true)
    (h : (Plan.matchSequences s p i t list).Yields V C t' L) :
    ∃ os', s.ParsesAll V C' list p os' L ∧ Tallied t' (os ++ os') := by
  induction list generalizing i t os L with
  | nil =>
    obtain ⟨rfl, rfl⟩ := Plan.yields_matchSequences_nil.1 h
    exact ⟨[], .nil, by rwa [List.append_nil]⟩
  | cons k rest ih =>
    obtain ⟨o, L₁, L₂, hk, hrest, rfl⟩ := Plan.yields_matchSequences_cons.1 h
    obtain ⟨os', hall, ht'⟩ := ih (ht.add o) (fun q hq => heof q (List.mem_cons_of_mem k hq)) hrest
    refine ⟨o :: os', .cons ?_ hall, by simpa using ht'⟩
    exact parsesNodes_of_yields hE hV hone (heof k List.mem_cons_self) hk

end

end Session

end GrammarCompletion
