/-
# Matching hands over to collecting

Where nodes in a row match up to the caret, two things are said of the nodes behind: whether one of
them is required, which decides whether the row has matched, and in which phase collecting from them
ends.  Both look at the same nodes, and they agree with one exception: a node for the end of the
input can be left out if it is optional, but collecting stops at it.

So if no such node can be left out at the end of a sequence (`Model.OpenTails`), every visit that
matches up to the caret ends pending, and no rule is visited where the caret is reached, but for the
root (`Session.hands_over`).  The repetition of a rule depends on this, since it tests for the caret
behind tokens only.  With an optional end of the input it goes on at the caret, and what may follow
is not collected (`Session.overlooks_caret`).
-/
import GrammarCompletion.Proofs.Calls.Restoring
import GrammarCompletion.Proofs.Caret.Consumption

namespace GrammarCompletion

/-- Behind each node after which nothing is required, collecting finds no node for the end of the
input. -/
def OpenBehind (nodes : List (Node RuleId)) : Prop :=
  ∀ n rest, n :: rest <:+ nodes → skippable rest = true →
    ∀ k ∈ n.behind rest, k.symbol ≠ .token .eof

/-- No node for the end of the input can be left out at the end of a sequence. -/
def Model.OpenTails (m : Model) : Prop :=
  ∀ q ∈ m.sequences, OpenBehind q.nodes

/-! ## What is behind a node -/

lemma phaseNodes_eq_pending_iff {w : RuleId → Phase} {nodes : List (Node RuleId)}
    (h : skippable nodes = true) :
    phaseNodes w nodes = .pending ↔ ∀ k ∈ nodes, k.symbol ≠ .token .eof := by
  induction nodes with
  | nil => simp [phaseNodes]
  | cons n rest ih =>
    simp only [skippable, List.all_cons, Bool.and_eq_true, Bool.not_eq_true'] at h
    rw [List.forall_mem_cons, ← ih h.2, phaseNodes]
    cases hn : n.symbol with
    | token t => by_cases ht : t = .eof <;> simp [ht, h.1]
    | rule id => simp [h.1]

/-- **Where nothing is required, collecting goes on to the end exactly if there is no node for the
end of the input.** -/
lemma Model.NodesLeave.eq_pending_iff {m : Model} {inside : List RuleId}
    {nodes : List (Node RuleId)} {ph : Phase} (hl : m.NodesLeave inside nodes ph)
    (h : skippable nodes = true) : ph = .pending ↔ ∀ k ∈ nodes, k.symbol ≠ .token .eof := by
  obtain ⟨depth, hd⟩ := hl.exists
  rw [← hd]
  exact phaseNodes_eq_pending_iff h

namespace Node

variable {n : Node RuleId} {rest : List (Node RuleId)}

lemma subset_behind : rest ⊆ n.behind rest := by
  unfold behind
  split
  · exact List.subset_cons_self n rest
  · exact List.Subset.refl rest

lemma behind_subset : n.behind rest ⊆ n :: rest := by
  unfold behind
  split
  · exact List.Subset.refl _
  · exact List.subset_cons_self n rest

/-- A node that is collected from again is not required. -/
lemma skippable_behind (h : skippable rest = true) : skippable (n.behind rest) = true := by
  unfold behind
  split
  · next hn => simpa [skippable, Bool.and_eq_true_iff.1 hn] using h
  · exact h

end Node

namespace OpenBehind

variable {n : Node RuleId} {rest : List (Node RuleId)}

lemma tail (h : OpenBehind (n :: rest)) : OpenBehind rest :=
  fun k more hsuffix => h k more (hsuffix.trans (List.suffix_cons n rest))

/-- Collecting behind a node goes on to the end, if nothing there is required. -/
lemma leaves_pending {m : Model} {inside : List RuleId} {nodes : List (Node RuleId)} {ph : Phase}
    (h : OpenBehind (n :: rest)) (hrest : skippable rest = true)
    (hnodes : nodes = rest ∨ nodes = n.behind rest) (hl : m.NodesLeave inside nodes ph) :
    ph = .pending := by
  have hnone := h n rest List.suffix_rfl hrest
  rcases hnodes with rfl | rfl
  · exact (hl.eq_pending_iff hrest).2 fun k hk => hnone k (Node.subset_behind hk)
  · exact (hl.eq_pending_iff (Node.skippable_behind hrest)).2 hnone

end OpenBehind

/-- It is enough that no node for the end of the input is optional. -/
lemma Model.EofRequired.openTails {m : Model} (h : m.EofRequired) : m.OpenTails := by
  intro q hq n rest hsuffix hrest k hk heof
  have hrequired : k.isRequired = true := h q hq k (hsuffix.mem (Node.behind_subset hk)) heof
  have hskip := List.all_eq_true.1 (Node.skippable_behind hrest) k hk
  simp [hrequired] at hskip

namespace Session

/-- A usable outcome that ends where the caret is reached has turned to collecting. -/
def HandsOver (s : Session) (o : Outcome) : Prop :=
  o.isUsable = true → s.reached o.stop = true → o.phase = .pending

/-- An outcome of a rule that is lawful and hands over at the caret. -/
structure Delivers (s : Session) (a : Spot) (o : Outcome) : Prop extends s.Lawful a o where
  handsOver : s.HandsOver o

/-- A rule is visited where the caret is not reached yet, or it is the root. -/
def BeforeCaret (s : Session) (name : String) (a : Spot) : Prop :=
  s.reached a.start = true → s.model.ruleId? name = some a.rule ∧ a.start = s.stream.skipHidden 0

/-- A repetition goes on before the caret, or its outcome hands over. -/
def Delivered (s : Session) : Continuation → Prop
  | .finished o => s.HandsOver o
  | .next p => s.reached p = false

variable {s : Session} {name : String} {n : Node RuleId} {rest nodes : List (Node RuleId)}
  {count d p q : Nat} {a : Spot} {o : Outcome} {k : Continuation} {b : Bool} {ph : Phase} {r : Run}

/-! ## Nodes -/

/-- A rule that matched without turning to collecting has not reached the caret. -/
lemma NodeMatches.not_reached (h : s.NodeMatches s.Delivers n p ⟨true, q, .matching⟩)
    (hc : (n.isTerminal && s.reached q) = false) : s.reached q = false := by
  cases hn : n.symbol with
  | token id => simpa [Node.isTerminal, Node.tokenId?, hn] using hc
  | rule id =>
    rw [NodeMatches, hn] at h
    by_contra hq
    exact absurd (h.handsOver rfl (by simpa using hq)) (by simp)

lemma NodeMatches.lawfulNode (h : s.NodeMatches s.Delivers n p o) : s.LawfulNode n p o :=
  (h.mono fun _ _ hd => hd.toLawful).lawful

lemma handsOver_failed : s.HandsOver ⟨false, q, .matching⟩ := nofun

/-- Who matched up to the caret hands over what is behind. -/
lemma handsOver_behind (h : OpenBehind (n :: rest)) (hnodes : nodes = rest ∨ nodes = n.behind rest)
    (hl : s.model.NodesLeave [] nodes ph) (hb : b = true → skippable rest = true) :
    s.HandsOver ⟨b, q, ph⟩ := by
  intro hu _
  rcases Outcome.isUsable_iff.1 hu with hmatched | hph
  · exact h.leaves_pending (hb hmatched) hnodes hl
  · exact hph

lemma Repeats.delivered (h : s.Repeats s.Delivers n rest count p k) (hopen : OpenBehind (n :: rest))
    (hp : s.reached p = false) : s.Delivered k := by
  induction h with
  | spent => exact hp
  | atEnd => exact hp
  | pending _ _ hl => exact handsOver_behind hopen (Or.inl rfl) hl id
  | failed _ hn =>
    -- an occurrence that failed has not moved
    exact hn.lawfulNode.stop_eq ▸ hp
  | atCaret _ _ _ _ hl => exact handsOver_behind hopen (Or.inr rfl) hl id
  | idle => exact hp
  | more _ hn hc _ _ ih => exact ih (hn.not_reached hc)

/-- **Nodes that match up to the caret hand over.** -/
lemma Matches.handsOver (h : s.Matches s.Delivers nodes p o) (hopen : OpenBehind nodes)
    (hp : s.reached p = false) : s.HandsOver o := by
  induction h with
  | nil => exact fun _ hq => absurd hq (ne_true_of_eq_false hp)
  | pending _ hl =>
    exact handsOver_behind hopen (Or.inl rfl) hl fun h => (Bool.and_eq_true_iff.1 h).2
  | failed => exact handsOver_failed
  | skipped _ hn _ ih => exact ih hopen.tail (hn.lawfulNode.stop_eq ▸ hp)
  | atCaret _ _ hl => exact handsOver_behind hopen (Or.inr rfl) hl id
  | once _ hq _ _ ih => exact ih hopen.tail hq
  | finished _ hq _ hk => exact hk.delivered hopen hq
  | repeated _ hq _ hk _ ih => exact ih hopen.tail (hk.delivered hopen hq)

/-! ## Rules -/

lemma delivers_failed : s.Delivers a ⟨false, a.start, .matching⟩ :=
  ⟨lawful_failed, handsOver_failed⟩

/-- The best of several outcomes hands over, if all do. -/
lemma BodyMatches.delivers (hm : s.model.OpenTails) (hq : s.reached a.start = false)
    (h : s.BodyMatches s.Delivers a o) : s.Delivers a o := by
  refine ⟨(h.mono fun _ _ hd => hd.toLawful).lawful, ?_⟩
  cases h with
  | tokenSet hb =>
    unfold matchTokenSet
    split
    · exact fun _ hstop => if_pos hstop
    · exact handsOver_failed
  | sequences hb h =>
    have hrobust : Outcome.Robust s.HandsOver := fun _ _ ho hu _ _ => ho hu
    have hlist := fun q hmem o (ho : s.Matches s.Delivers _ a.start o) =>
      ho.handsOver (hm q (Model.mem_sequences hb hmem)) hq
    rcases h.best hrobust hlist with ⟨-, ho⟩ | ho
    · exact ho
    · exact ho ▸ handsOver_failed

/-- A walk delivers wherever it starts, and visits rules before the caret only. -/
lemma predicts_delivers (hm : s.model.OpenTails) (name : String) :
    s.Predicts s.Delivers (s.BeforeCaret name) fun _ p => s.reached p = false where
  ask hp _ hq := absurd hq (ne_true_of_eq_false hp)
  skip hp _ := hp
  le _ hn := hn.lawfulNode.le
  stay _ hn := hn.lawfulNode.stop_eq
  next _ hn hc := ⟨hn.not_reached hc, fun _ => hn.not_reached hc⟩
  entry _ hq _ _ := hq
  fail _ _ := delivers_failed
  collected _ hq _ :=
    ⟨⟨lawfulFor_of_reached (Nat.le_refl _) hq, fun _ => rfl⟩,
      fun hu _ => (Outcome.isUsable_iff.1 hu).resolve_left Bool.false_ne_true⟩
  matched _ hq ho := ho.delivers hm hq

/-- **A visit that matches up to the caret hands over to collecting**, if no node for the end of the
input can be left out at the end of a sequence: it ends pending.  Hence no rule is visited where the
caret is reached already, unless it is the root and there is nothing before the caret. -/
theorem hands_over (hm : s.model.OpenTails) (hc : s.Calls name (.visit d a) r) :
    (∀ o r', s.matchRule d a.rule a.start r = .ok o r' → o.matched = true →
        s.reached o.stop = true → o.phase = .pending) ∧
      (s.reached a.start = true →
        s.model.ruleId? name = some a.rule ∧ a.start = s.stream.skipHidden 0) := by
  have hpredicts := predicts_delivers hm name
  obtain ⟨l, he, ha, hr⟩ := hc.inOrder hpredicts fun rule hroot _ => ⟨hroot, rfl⟩
  refine ⟨fun o r' hrun hmatched hq => ?_, ha⟩
  obtain ⟨⟨-, hdelivers⟩, -⟩ := hr.visit hpredicts he ha hrun
  exact hdelivers.handsOver (Outcome.isUsable_iff.2 (Or.inl hmatched)) hq

/-- The visit of a sum matches up to the caret, and hands over. -/
theorem hands_over_sum :
    let s := onLine sums [⟨2⟩, ⟨1⟩, ⟨2⟩]
    s.model.OpenTails ∧ s.Calls "sum" (.visit 1024 ⟨⟨0⟩, 0⟩) s.start ∧
      ∃ o r', s.matchRule 1024 ⟨0⟩ 0 s.start = .ok o r' ∧ o.matched = true ∧ o.stop = 3 ∧
        s.reached o.stop = true ∧ o.phase = .pending := by
  intro s
  have heof : sums.EofRequired := by decide
  have hroot : s.Calls "sum" (.visit 1024 ⟨⟨0⟩, 0⟩) s.start := .root (by decide)
  have ho : outcome? (s.matchRule 1024 ⟨0⟩ 0 s.start) = some ⟨true, 3, .pending⟩ := by cbv
  obtain ⟨r', hrun⟩ := exists_of_outcome? ho
  have hq : s.reached 3 = true := by decide
  obtain ⟨hpending, -⟩ := hands_over heof.openTails hroot
  exact ⟨heof.openTails, hroot, _, r', hrun, rfl, rfl, hq, hpending _ r' hrun rfl hq⟩

/-- If the end of the input may be left out behind an item, a visit of an item matches up to the
caret and does not hand over.  In a row of items the repetition then goes on at the caret, and
neither a further item nor the final word is offered. -/
theorem overlooks_caret :
    let s := onLine closedItems [⟨1⟩]
    closedItems.WellFormed ∧ s.Calls "item" (.visit 1024 ⟨⟨1⟩, 0⟩) s.start ∧
      (∃ o r', s.matchRule 1024 ⟨1⟩ 0 s.start = .ok o r' ∧ o.matched = true ∧
        s.reached o.stop = true ∧ o.phase = .matching) ∧
      (onLine closedItems [⟨1⟩, ⟨1⟩]).complete "row" = .ok ⟨[], false, none, 0⟩ := by
  intro s
  have ho : outcome? (s.matchRule 1024 ⟨1⟩ 0 s.start) = some ⟨true, 1, .matching⟩ := by cbv
  obtain ⟨r', hrun⟩ := exists_of_outcome? ho
  refine ⟨by decide, .root (by decide), ⟨_, r', hrun, rfl, by decide, rfl⟩, ?_⟩
  cbv

end Session

end GrammarCompletion
