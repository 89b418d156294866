/-
# The phase in which collecting ends

Which candidates a walk has seen so far plays no part in whether it has to go on collecting behind
the nodes that it collects from.  `phaseNodes` and `Model.phaseRule` compute that phase without a
run.  `Model.phaseRule` is cut off at a depth; the phase of a rule is the one that it has at every
depth from some point on (`Model.RuleLeaves`), so that two phases of one rule are equal.

A phase that is `pending` means that the empty string can be derived (`nullable_of_ruleLeaves`).
-/
import GrammarCompletion.Proofs.Derivation
import GrammarCompletion.Walk.Collect
import Mathlib.Order.Filter.AtTopBot.Basic

namespace GrammarCompletion

open Filter

/-- The phase after nodes in a row, given the phases after rules. -/
def phaseNodes (w : RuleId → Phase) : List (Node RuleId) → Phase
  | [] => .pending
  | n :: rest =>
    match n.symbol with
    | .token id => if id = .eof ∨ n.isRequired = true then .matching else phaseNodes w rest
    | .rule id => if n.isRequired = true ∧ w id = .matching then .matching else phaseNodes w rest

/-- The phase after sequences of which one is enough. -/
def phaseSequences (w : RuleId → Phase) : List (Sequence RuleId) → Phase
  | [] => .matching
  | q :: rest => (phaseNodes w q.nodes).or (phaseSequences w rest)

namespace Model

variable (m : Model)

/-- The phase after a rule, given the rules that are being collected from. -/
def phaseRule : (depth : Nat) → (inside : List RuleId) → RuleId → Phase
  | 0, _, _ => .matching
  | depth + 1, inside, r =>
    if m.isSpecial r = true ∨ m.isIgnored r = true ∨ r ∈ inside then .matching
    else
      match m.body r with
      | .ok (.sequences list) => phaseSequences (phaseRule depth (r :: inside)) list
      | _ => .matching

/-- Collecting from a rule ends in a phase. -/
def RuleLeaves (inside : List RuleId) (r : RuleId) (ph : Phase) : Prop :=
  ∀ᶠ depth in atTop, m.phaseRule depth inside r = ph

/-- Collecting from nodes in a row ends in a phase. -/
def NodesLeave (inside : List RuleId) (nodes : List (Node RuleId)) (ph : Phase) : Prop :=
  ∀ᶠ depth in atTop, phaseNodes (m.phaseRule depth inside) nodes = ph

variable {m} {inside : List RuleId} {n : Node RuleId} {rest nodes : List (Node RuleId)}
  {r id : RuleId} {ph q : Phase}

/-! ## The phase after nodes, from left to right -/

lemma nodesLeave_nil : m.NodesLeave inside [] .pending :=
  Eventually.of_forall fun _ => rfl

lemma nodesLeave_token_stop {t : TokenId} (hn : n.symbol = .token t)
    (h : t = .eof ∨ n.isRequired = true) : m.NodesLeave inside (n :: rest) .matching :=
  Eventually.of_forall fun _ => by simp only [phaseNodes, hn, if_pos h]

lemma nodesLeave_token_skip {t : TokenId} (hn : n.symbol = .token t)
    (h : ¬ (t = .eof ∨ n.isRequired = true)) (hr : m.NodesLeave inside rest ph) :
    m.NodesLeave inside (n :: rest) ph := by
  filter_upwards [hr] with depth hd
  simpa only [phaseNodes, hn, if_neg h] using hd

lemma nodesLeave_rule_stop (hn : n.symbol = .rule id) (h : n.isRequired = true)
    (hq : m.RuleLeaves inside id .matching) : m.NodesLeave inside (n :: rest) .matching := by
  filter_upwards [hq] with depth hd
  simp [phaseNodes, hn, h, hd]

lemma nodesLeave_rule_skip (hn : n.symbol = .rule id) (hq : m.RuleLeaves inside id q)
    (h : ¬ (n.isRequired = true ∧ q = .matching)) (hr : m.NodesLeave inside rest ph) :
    m.NodesLeave inside (n :: rest) ph := by
  filter_upwards [hq, hr] with depth hd hd'
  simpa only [phaseNodes, hn, hd, if_neg h] using hd'

lemma RuleLeaves.of_succ (h : ∀ᶠ depth in atTop, m.phaseRule (depth + 1) inside r = ph) :
    m.RuleLeaves inside r ph := by
  obtain ⟨d, hd⟩ := eventually_atTop.1 h
  refine eventually_atTop.2 ⟨d + 1, fun e he => ?_⟩
  obtain ⟨e, rfl⟩ := Nat.exists_eq_add_of_le' (Nat.le_of_add_left_le he)
  exact hd e (by omega)

/-- A rule that is offered, passed over or being collected from ends its way. -/
lemma ruleLeaves_closed (h : m.isSpecial r = true ∨ m.isIgnored r = true ∨ r ∈ inside) :
    m.RuleLeaves inside r .matching :=
  .of_succ <| Eventually.of_forall fun _ => by simp only [phaseRule, if_pos h]

lemma ruleLeaves_tokenSet {tokens : OrderedSet TokenId} (hb : m.body r = .ok (.tokenSet tokens)) :
    m.RuleLeaves inside r .matching :=
  .of_succ <| Eventually.of_forall fun _ => by simp [phaseRule, hb]

lemma ruleLeaves_sequences {list : List (Sequence RuleId)}
    (h : ¬ (m.isSpecial r = true ∨ m.isIgnored r = true ∨ r ∈ inside))
    (hb : m.body r = .ok (.sequences list))
    (hph : ∀ᶠ depth in atTop, phaseSequences (m.phaseRule depth (r :: inside)) list = ph) :
    m.RuleLeaves inside r ph := by
  refine .of_succ ?_
  filter_upwards [hph] with depth hd
  simpa only [phaseRule, if_neg h, hb] using hd

/-- Nodes have one phase. -/
lemma NodesLeave.unique (h : m.NodesLeave inside nodes ph) (h' : m.NodesLeave inside nodes q) :
    ph = q := by
  obtain ⟨depth, hd, hd'⟩ := (h.and h').exists
  exact hd.symm.trans hd'

/-- A phase that is pending at the end of nodes is pending at the end of the later ones. -/
lemma NodesLeave.tail (h : m.NodesLeave inside (n :: rest) .pending) :
    m.NodesLeave inside rest .pending := by
  filter_upwards [h] with depth hd
  rw [phaseNodes] at hd
  split at hd <;> split at hd <;> first | exact hd | simp at hd

/-- Where nothing is required, not even the end of the input, collecting goes on. -/
lemma phaseNodes_of_skippable {w : RuleId → Phase} (h : skippable nodes = true)
    (heof : ∀ n ∈ nodes, n.symbol = .token .eof → n.isRequired = true) :
    phaseNodes w nodes = .pending := by
  induction nodes with
  | nil => rfl
  | cons n rest ih =>
    simp only [skippable, List.all_cons, Bool.and_eq_true, Bool.not_eq_true'] at h
    have hrest := ih h.2 fun a ha => heof a (List.mem_cons_of_mem n ha)
    rw [phaseNodes]
    split
    · next t hn =>
      have ht : t ≠ .eof := by
        rintro rfl
        simp [heof n List.mem_cons_self hn] at h
      simp [ht, h.1, hrest]
    · simp [h.1, hrest]

lemma NodesLeave.eq_pending (hl : m.NodesLeave inside nodes ph) (h : skippable nodes = true)
    (heof : ∀ n ∈ nodes, n.symbol = .token .eof → n.isRequired = true) : ph = .pending :=
  hl.unique (Eventually.of_forall fun _ => phaseNodes_of_skippable h heof)

/-! ## A pending phase and the empty string -/

lemma derivesNodes_of_phaseNodes {w : RuleId → Phase} (hw : ∀ id, w id = .pending → m.Nullable id)
    (h : phaseNodes w nodes = .pending) : m.DerivesNodes nodes [] := by
  induction nodes with
  | nil => exact .nil
  | cons n rest ih =>
    rw [phaseNodes] at h
    split at h
    · next t hn =>
      split at h
      · simp at h
      · next hskip => exact .skip (by simpa using fun hr => hskip (Or.inr hr)) (ih h)
    · next id hn =>
      split at h
      · simp at h
      · next hskip =>
        cases hr : n.isRequired with
        | false => exact .skip hr (ih h)
        | true =>
          -- the node is required, so the way goes on only if its rule may be empty
          have hid : w id = .pending := by
            cases hw : w id with
            | matching => exact absurd ⟨hr, hw⟩ hskip
            | pending => rfl
          exact .single (u := []) (Node.isOccurrence_rule hn) (hw id hid) (ih h)

lemma exists_of_phaseSequences {w : RuleId → Phase} {list : List (Sequence RuleId)}
    (h : phaseSequences w list = .pending) : ∃ q ∈ list, phaseNodes w q.nodes = .pending := by
  induction list with
  | nil => simp [phaseSequences] at h
  | cons q rest ih =>
    rw [phaseSequences, Phase.or_eq_pending] at h
    rcases h with h | h
    · exact ⟨q, List.mem_cons_self, h⟩
    · obtain ⟨q', hq', h'⟩ := ih h
      exact ⟨q', List.mem_cons_of_mem q hq', h'⟩

lemma nullable_of_phaseRule {depth : Nat} (h : m.phaseRule depth inside r = .pending) :
    m.Nullable r := by
  -- a phase that was cut off is not pending, so the depth was enough
  induction depth generalizing inside r with
  | zero => simp [phaseRule] at h
  | succ depth ih =>
    rw [phaseRule] at h
    split at h
    · simp at h
    · split at h
      · next list hb =>
        obtain ⟨q, hq, hq'⟩ := exists_of_phaseSequences h
        exact (derivesNodes_of_phaseNodes (fun id hid => ih hid) hq').derives hb hq
      · simp at h

/-- Where collecting from a rule has to go on behind it, the rule derives the empty string. -/
lemma nullable_of_ruleLeaves (h : m.RuleLeaves inside r .pending) : m.Nullable r := by
  obtain ⟨depth, hd⟩ := h.exists
  exact nullable_of_phaseRule hd

/-- Where collecting from nodes has to go on behind them, they derive the empty string. -/
lemma derivesNodes_of_nodesLeave (h : m.NodesLeave inside nodes .pending) :
    m.DerivesNodes nodes [] := by
  obtain ⟨depth, hd⟩ := h.exists
  exact derivesNodes_of_phaseNodes (fun _ hid => nullable_of_phaseRule hid) hd

end Model

end GrammarCompletion
