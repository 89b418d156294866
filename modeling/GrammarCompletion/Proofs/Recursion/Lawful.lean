/-
# Left recursion

A rule refers to another one *from the left* when the nodes before the reference derive the empty
string.  `Model.LeftReach` is the transitive closure.  A rule that reaches itself is
left-recursive, directly if it takes one step and no other rule, and `Model.DirectFrom` says that
no rule which can be reached at all is left-recursive through another one.

The walk sees left recursion as a rule that is entered again at its own position.  That this
implies a reference from the left takes a law of outcomes: whoever matched without moving, before
the caret, derives the empty string (`Session.Lawful`).
-/
import GrammarCompletion.Proofs.Visible
import GrammarCompletion.Proofs.Walk.Matches

namespace GrammarCompletion

namespace Model

variable (m : Model)

/-- A rule refers to a rule. -/
def Refers (r r' : RuleId) : Prop :=
  ∃ list, m.body r = .ok (.sequences list) ∧ ∃ q ∈ list, ∃ n ∈ q.nodes, n.symbol = .rule r'

/-- A rule refers to a rule behind nodes that derive the empty string. -/
def LeftRefers (r r' : RuleId) : Prop :=
  ∃ list, m.body r = .ok (.sequences list) ∧ ∃ q ∈ list, ∃ pre n post,
    q.nodes = pre ++ n :: post ∧ n.symbol = .rule r' ∧ m.DerivesNodes pre []

/-- A rule refers to a rule from the left, directly or through others. -/
def LeftReach : RuleId → RuleId → Prop := Relation.TransGen m.LeftRefers

/-- No rule to which the rule refers, directly or through others, and not the rule itself, is
left-recursive through another rule. -/
def DirectFrom (r : RuleId) : Prop :=
  ∀ x, Relation.ReflTransGen m.Refers r x → ∀ y, m.LeftReach x y → m.LeftReach y x → y = x

variable {m} {r r' : RuleId}

lemma DirectFrom.eq (h : m.DirectFrom r) (h₁ : m.LeftReach r r') (h₂ : m.LeftReach r' r) : r' = r :=
  h r .refl r' h₁ h₂

lemma DirectFrom.refers (h : m.DirectFrom r) (hr : m.Refers r r') : m.DirectFrom r' :=
  fun x hx => h x (.head hr hx)

lemma LeftRefers.refers (h : m.LeftRefers r r') : m.Refers r r' := by
  obtain ⟨list, hb, q, hq, pre, n, post, hnodes, hn, -⟩ := h
  exact ⟨list, hb, q, hq, n, by simp [hnodes], hn⟩

/-- A rule that refers to no other rule. -/
lemma DirectFrom.of_refers (h : ∀ r', m.Refers r r' → r' = r) : m.DirectFrom r := by
  have hreach : ∀ x, Relation.ReflTransGen m.Refers r x → x = r := by
    intro x hx
    induction hx with
    | refl => rfl
    | tail _ hrefers ih => exact h _ (ih ▸ hrefers)
  have hleft : ∀ y, m.LeftReach r y → y = r := by
    intro y hy
    induction hy with
    | single hrefers => exact h _ hrefers.refers
    | tail _ hrefers ih => exact h _ (ih ▸ hrefers.refers)
  intro x hx y hxy _
  obtain rfl := hreach x hx
  exact hleft y hxy

end Model

namespace Session

/-- What every outcome satisfies, where `N` says that the empty string is derived. -/
structure LawfulFor (s : Session) (N : Prop) (p : Nat) (o : Outcome) : Prop where
  le : p ≤ o.stop
  caret : o.phase = .pending → s.reached o.stop = true
  nullable : o.isUsable = true → s.reached p = false → o.stop = p → N

/-- What every outcome of a rule at a spot satisfies. -/
structure Lawful (s : Session) (a : Spot) (o : Outcome) : Prop extends
    s.LawfulFor (s.model.Nullable a.rule) a.start o where
  stay : o.isUsable = false → o.stop = a.start

/-- What every outcome of an occurrence of a node satisfies. -/
structure LawfulNode (s : Session) (n : Node RuleId) (p : Nat) (o : Outcome) : Prop extends
    s.LawfulFor (∃ a, n.IsOccurrence a ∧ s.model.Derives [a] []) p o where
  stay : o.isUsable = false → o.stop = p

variable {s : Session} {n : Node RuleId} {rest nodes : List (Node RuleId)} {p q : Nat}
  {o : Outcome} {a : Spot} {N N' : Prop}

/-! ## Nodes -/

lemma LawfulFor.mono (h : s.LawfulFor N p o) (hN : N → N') : s.LawfulFor N' p o :=
  ⟨h.le, h.caret, fun hu hp ho => hN (h.nullable hu hp ho)⟩

/-- Whoever ends where the caret is reached has moved, or started there. -/
lemma lawfulFor_of_reached (hle : p ≤ o.stop) (hq : s.reached o.stop = true) :
    s.LawfulFor N p o := by
  refine ⟨hle, fun _ => hq, fun _ hp ho => ?_⟩
  exact absurd (ho ▸ hq) (ne_true_of_eq_false hp)

lemma lawfulFor_failed (hle : p ≤ q) : s.LawfulFor N p ⟨false, q, .matching⟩ :=
  ⟨hle, nofun, nofun⟩

lemma NodeMatches.lawful (h : s.NodeMatches s.Lawful n p o) : s.LawfulNode n p o := by
  cases hn : n.symbol with
  | rule id =>
    rw [NodeMatches, hn] at h
    exact ⟨h.mono fun hd => ⟨_, Node.isOccurrence_rule hn, hd⟩, h.stay⟩
  | token id =>
    rw [NodeMatches, hn] at h
    subst h
    rcases s.matchToken_eq n.any id p with ⟨ho, -⟩ | ho <;> rw [ho]
    · refine ⟨⟨TokenStream.le_advance, nofun, fun _ hp hstop => ?_⟩, nofun⟩
      -- a token that is consumed is behind the position
      have hlt := TokenStream.lt_advance (TokenStream.lt_size_of_not_reached hp)
      exact absurd hstop (Nat.ne_of_gt hlt)
    · exact ⟨lawfulFor_failed (Nat.le_refl p), fun _ => rfl⟩

lemma LawfulNode.stop_eq (h : s.LawfulNode n p ⟨false, q, .matching⟩) : q = p :=
  h.stay Outcome.isUsable_failed

lemma Repeats.lawful {count : Nat} {k : Continuation}
    (h : s.Repeats s.Lawful n rest count p k) :
    match k with
    | .finished o => p ≤ o.stop ∧ s.reached o.stop = true
    | .next q => p ≤ q := by
  induction h with
  | spent => exact Nat.le_refl _
  | atEnd => exact Nat.le_refl _
  | pending _ hn _ => exact ⟨hn.lawful.le, hn.lawful.caret rfl⟩
  | failed _ hn => exact hn.lawful.le
  | atCaret _ hn _ hq _ => exact ⟨hn.lawful.le, hq⟩
  | idle => exact Nat.le_refl _
  | @more _ p q k _ hn _ _ _ ih =>
    have hpq : p ≤ q := hn.lawful.le
    cases k with
    | finished o => exact ⟨hpq.trans ih.1, ih.2⟩
    | next q' => exact hpq.trans ih

/-- An outcome that comes after a node, where the nodes before it moved or derive nothing. -/
lemma LawfulFor.after (h : s.LawfulFor N q o) (hpq : p ≤ q)
    (hN : s.reached p = false → q = p → N → N') : s.LawfulFor N' p o := by
  refine ⟨hpq.trans h.le, h.caret, fun hu hp ho => ?_⟩
  have hq : q = p := Nat.le_antisymm (ho ▸ h.le) hpq
  exact hN hp hq (h.nullable hu (hq ▸ hp) (ho.trans hq.symm))

lemma LawfulNode.derivesNodes (h : s.LawfulNode n p ⟨true, q, .matching⟩)
    (hp : s.reached p = false) (hq : q = p) (hrest : s.model.DerivesNodes rest []) :
    s.model.DerivesNodes (n :: rest) [] := by
  obtain ⟨a, ha, hd⟩ := h.nullable rfl hp hq
  exact .single (u := []) ha hd hrest

/-- Nodes that match without moving derive the empty string. -/
lemma Matches.lawful (h : s.Matches s.Lawful nodes p o) :
    s.LawfulFor (s.model.DerivesNodes nodes []) p o := by
  induction h with
  | nil => exact ⟨Nat.le_refl _, nofun, fun _ _ _ => .nil⟩
  | pending hn _ => exact lawfulFor_of_reached hn.lawful.le (hn.lawful.caret rfl)
  | failed _ hn => exact lawfulFor_failed hn.lawful.le
  | skipped hr hn _ ih =>
    -- a node that failed has not moved, and it may be left out
    obtain rfl := hn.lawful.stop_eq
    exact ih.mono fun hd => hd.skip hr
  | atCaret hn hq _ => exact lawfulFor_of_reached hn.lawful.le hq
  | once hn _ _ _ ih =>
    exact ih.after hn.lawful.le fun hp hq hd => hn.lawful.derivesNodes hp hq hd
  | finished hn _ _ hk =>
    obtain ⟨hle, hq⟩ := hk.lawful
    exact lawfulFor_of_reached (Nat.le_trans hn.lawful.le hle) hq
  | @repeated n rest p q q' o hn _ _ hk _ ih =>
    -- who has not moved in the end has not moved in between
    have hpq : p ≤ q := hn.lawful.le
    have hqq' : q ≤ q' := hk.lawful
    refine ih.after (hpq.trans hqq') fun hp hq hd => ?_
    exact hn.lawful.derivesNodes hp (Nat.le_antisymm (hq ▸ hqq') hpq) hd

/-! ## Rules -/

lemma lawful_failed : s.Lawful a ⟨false, a.start, .matching⟩ :=
  ⟨lawfulFor_failed (Nat.le_refl _), fun _ => rfl⟩

/-- **What is true of every outcome of a body**, given that it is of the rules inside it. -/
theorem BodyMatches.lawful (h : s.BodyMatches s.Lawful a o) : s.Lawful a o := by
  cases h with
  | @tokenSet tokens hb =>
    unfold matchTokenSet
    split
    · refine ⟨⟨TokenStream.le_advance, fun hph => ?_, fun _ ha hstop => ?_⟩, nofun⟩
      · by_contra hne
        simp [hne] at hph
      · have hlt := TokenStream.lt_advance (TokenStream.lt_size_of_not_reached ha)
        exact absurd hstop (Nat.ne_of_gt hlt)
    · exact lawful_failed
  | @sequences list t hb h =>
    have hlist : ∀ q ∈ list, ∀ o, s.Matches s.Lawful q.nodes a.start o →
        s.LawfulFor (s.model.Nullable a.rule) a.start o :=
      fun q hq o ho => ho.lawful.mono fun hd => hd.derives hb hq
    have hrobust : Outcome.Robust (s.LawfulFor (s.model.Nullable a.rule) a.start) :=
      fun _ _ ho hu _ => ⟨ho.le, ho.caret, fun _ => ho.nullable hu⟩
    rcases h.best hrobust hlist with ⟨hu, ht⟩ | ht
    · exact ⟨ht, fun hu' => absurd hu (ne_true_of_eq_false hu')⟩
    · exact ht ▸ lawful_failed

end Session

end GrammarCompletion
