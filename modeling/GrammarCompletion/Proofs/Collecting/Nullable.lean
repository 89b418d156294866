/-
# Collecting finds out what may be empty

While candidates are collected from a rule, the rule counts as one that is not empty, wherever it is
met again.  So the phase in which collecting ends says of a rule inside others too little at times:
what is empty by way of one of them is not found to be.

Of the outermost rule it says the truth (`Session.collect_pending_iff`).  The reason is a derivation of
the empty string that is as flat as possible (`Model.EmptyIn`).  A rule is not needed below itself in
it, and what is flatter than a rule does not need that rule either.  Hence a rule is found to be empty
inside others, if each of them is less flat, or out of its reach from the left
(`Model.ruleLeaves_of_emptyIn`).
-/
import GrammarCompletion.Proofs.Offers.Collecting
import GrammarCompletion.Proofs.Offers.Outcomes
import GrammarCompletion.Proofs.Predictive.Grammar

namespace GrammarCompletion

open Filter

variable {w : RuleId → Phase} {n : Node RuleId} {nodes rest pre : List (Node RuleId)}
  {list : List (Sequence RuleId)} {q : Sequence RuleId}

/-- A required node occurs in whatever the nodes stand for. -/
lemma Expands.exists_occurrence {x : Form} (h : Expands nodes x) (hn : n ∈ nodes)
    (hr : n.isRequired = true) : ∃ a ∈ x, n.IsOccurrence a := by
  induction h with
  | nil => exact absurd hn List.not_mem_nil
  | @cons k rest copies x hk hc _ ih =>
    rcases List.mem_cons.1 hn with rfl | hn
    · obtain ⟨a, copies, rfl⟩ := List.exists_cons_of_length_pos (hc.1 hr)
      exact ⟨a, by simp, hk a List.mem_cons_self⟩
    · obtain ⟨a, ha, hoccurs⟩ := ih hn
      exact ⟨a, List.mem_append_right _ ha, hoccurs⟩

/-- One sequence that lets collecting go on is enough. -/
lemma phaseSequences_eq_pending (hq : q ∈ list) (h : phaseNodes w q.nodes = .pending) :
    phaseSequences w list = .pending := by
  induction list with
  | nil => exact absurd hq List.not_mem_nil
  | cons k rest ih =>
    rw [phaseSequences, Phase.or_eq_pending]
    rcases List.mem_cons.1 hq with rfl | hq
    · exact Or.inl h
    · exact Or.inr (ih hq)

namespace Model

variable {m : Model} {inside : List RuleId} {r id : RuleId} {ph : Phase} {h h' : Nat}

/-- No rule is offered under its own name, and none is passed over. -/
structure Unmarked (m : Model) : Prop where
  special : ∀ r, m.isSpecial r = false
  ignored : ∀ r, m.isIgnored r = false

lemma Unmarked.of_empty (hs : m.specialRules = ∅) (hi : m.ignoredRules = ∅) : m.Unmarked where
  special r := by simp [isSpecial, hs, OrderedSet.not_mem_empty]
  ignored r := by simp [isIgnored, hi, OrderedSet.not_mem_empty]

/-! ## Flat derivations of the empty string -/

/-- A rule derives the empty string, by way of rules that lie at most `h` deep in each other. -/
def EmptyIn (m : Model) : (h : Nat) → RuleId → Prop
  | 0, _ => False
  | h + 1, r => ∃ list, m.body r = .ok (.sequences list) ∧ ∃ q ∈ list, ∀ n ∈ q.nodes,
      n.isRequired = true → ∃ id, n.symbol = .rule id ∧ m.EmptyIn h id

/-- Nodes derive the empty string if each of them may be left out or stands for an empty rule. -/
lemma derivesNodes_nil (hall : ∀ n ∈ nodes, n.isRequired = true →
    ∃ id, n.symbol = .rule id ∧ m.Nullable id) : m.DerivesNodes nodes [] := by
  induction nodes with
  | nil => exact .nil
  | cons n rest ih =>
    have hrest := ih fun k hk => hall k (List.mem_cons_of_mem n hk)
    cases hr : n.isRequired with
    | false => exact hrest.skip hr
    | true =>
      obtain ⟨id, hn, hid⟩ := hall n List.mem_cons_self hr
      exact .single (u := []) (Node.isOccurrence_rule hn) hid hrest

/-- Of nodes that derive the empty string, each one that is required stands for an empty rule. -/
lemma DerivesNodes.nullable (hd : m.DerivesNodes nodes []) (hn : n ∈ nodes)
    (hr : n.isRequired = true) : ∃ id, n.symbol = .rule id ∧ m.Nullable id := by
  induction nodes with
  | nil => exact absurd hn List.not_mem_nil
  | cons k rest ih =>
    obtain ⟨hk, hrest⟩ := hd.cons_nil_inv
    rcases List.mem_cons.1 hn with rfl | hn
    · rcases hk.single_nil_inv with hr' | hid
      · exact absurd hr (ne_true_of_eq_false hr')
      · exact hid
    · exact ih hrest hn

lemma EmptyIn.mono (he : m.EmptyIn h r) (hle : h ≤ h') : m.EmptyIn h' r := by
  induction h generalizing h' r with
  | zero => exact he.elim
  | succ h ih =>
    obtain ⟨h', rfl⟩ := Nat.exists_eq_add_of_le' (Nat.le_of_add_left_le hle)
    obtain ⟨list, hb, q, hq, hnodes⟩ := he
    refine ⟨list, hb, q, hq, fun n hn hr => ?_⟩
    obtain ⟨id, hs, hid⟩ := hnodes n hn hr
    exact ⟨id, hs, ih hid (Nat.le_of_succ_le_succ hle)⟩

lemma EmptyIn.nullable (he : m.EmptyIn h r) : m.Nullable r := by
  induction h generalizing r with
  | zero => exact he.elim
  | succ h ih =>
    obtain ⟨list, hb, q, hq, hnodes⟩ := he
    refine (derivesNodes_nil fun n hn hr => ?_).derives hb hq
    obtain ⟨id, hs, hid⟩ := hnodes n hn hr
    exact ⟨id, hs, ih hid⟩

/-- What is replaced by rules that derive the empty string derives it. -/
lemma Produces.emptyIn {x : Form} (hx : m.Produces r x)
    (hall : ∀ a ∈ x, ∃ id h, a = .rule id ∧ m.EmptyIn h id) : ∃ h, m.EmptyIn h r := by
  -- finitely many rules have a common depth
  have hbound : ∃ h, ∀ a ∈ x, ∃ id, a = .rule id ∧ m.EmptyIn h id := by
    clear hx
    induction x with
    | nil => exact ⟨0, by simp⟩
    | cons a x ih =>
      obtain ⟨h, hrest⟩ := ih fun b hb => hall b (List.mem_cons_of_mem a hb)
      obtain ⟨id, k, rfl, hid⟩ := hall a List.mem_cons_self
      refine ⟨max h k, fun b hb => ?_⟩
      rcases List.mem_cons.1 hb with rfl | hb
      · exact ⟨id, rfl, hid.mono (Nat.le_max_right h k)⟩
      · obtain ⟨id', rfl, hid'⟩ := hrest b hb
        exact ⟨id', rfl, hid'.mono (Nat.le_max_left h k)⟩
  obtain ⟨h, hbound⟩ := hbound
  rcases hx with ⟨tokens, -, t, -, rfl⟩ | ⟨list, hb, q, hq, hexpands⟩
  · obtain ⟨id, heq, -⟩ := hbound _ List.mem_cons_self
    cases heq
  · refine ⟨h + 1, list, hb, q, hq, fun n hn hr => ?_⟩
    obtain ⟨a, ha, hoccurs⟩ := hexpands.exists_occurrence hn hr
    obtain ⟨id, rfl, hid⟩ := hbound a ha
    refine ⟨id, ?_, hid⟩
    cases hs : n.symbol with
    | token t => simp [Node.IsOccurrence, hs] at hoccurs
    | rule id' =>
      simp only [Node.IsOccurrence, hs, Symbol.rule.injEq] at hoccurs
      rw [hoccurs]

lemma Derives.emptyIn {x : Form} (hd : m.Derives x []) :
    ∀ a ∈ x, ∃ id h, a = .rule id ∧ m.EmptyIn h id := by
  -- the derivation is read from its end
  induction hd using Relation.ReflTransGen.head_induction_on with
  | refl => exact fun a ha => absurd ha List.not_mem_nil
  | head hstep _ ih =>
    obtain ⟨pre, r, x, post, hx, rfl, rfl⟩ := hstep
    obtain ⟨h, hr⟩ := hx.emptyIn fun a ha => ih a (by simp [ha])
    intro a ha
    rcases List.mem_append.1 ha with ha | ha
    · exact ih a (by simp [ha])
    · rcases List.mem_cons.1 ha with rfl | ha
      · exact ⟨r, h, rfl, hr⟩
      · exact ih a (by simp [ha])

/-- **A rule that derives the empty string does so at some depth.** -/
theorem nullable_iff_emptyIn : m.Nullable r ↔ ∃ h, m.EmptyIn h r := by
  constructor
  · intro hr
    obtain ⟨id, h, heq, hid⟩ := Derives.emptyIn hr _ List.mem_cons_self
    obtain rfl := Symbol.rule.inj heq
    exact ⟨h, hid⟩
  · rintro ⟨h, hr⟩
    exact hr.nullable

/-! ## The phase of an empty rule -/

/-- A rule has one phase. -/
lemma RuleLeaves.unique {ph' : Phase} (hr : m.RuleLeaves inside r ph)
    (hr' : m.RuleLeaves inside r ph') : ph = ph' := by
  obtain ⟨depth, hd, hd'⟩ := (hr.and hr').exists
  exact hd.symm.trans hd'

/-- Collecting goes on behind a node that may be left out. -/
lemma nodesLeave_optional (hr : n.isRequired = false) (hn : n.symbol ≠ .token .eof)
    (hrest : m.NodesLeave inside rest ph) : m.NodesLeave inside (n :: rest) ph := by
  filter_upwards [hrest] with depth hd
  rw [phaseNodes]
  split
  · next t hs =>
    have ht : t ≠ .eof := fun ht => hn (ht ▸ hs)
    simpa [ht, hr] using hd
  · simpa [hr] using hd

/-- Collecting goes on behind nodes, if it does behind the rules that are required. -/
lemma nodesLeave_pending (heof : ∀ n ∈ nodes, n.symbol = .token .eof → n.isRequired = true)
    (hall : ∀ n ∈ nodes, n.isRequired = true →
      ∃ id, n.symbol = .rule id ∧ m.RuleLeaves inside id .pending) :
    m.NodesLeave inside nodes .pending := by
  induction nodes with
  | nil => exact nodesLeave_nil
  | cons n rest ih =>
    have hrest := ih (fun k hk => heof k (List.mem_cons_of_mem n hk)) fun k hk =>
      hall k (List.mem_cons_of_mem n hk)
    cases hr : n.isRequired with
    | false =>
      refine nodesLeave_optional hr (fun hn => ?_) hrest
      exact absurd (heof n List.mem_cons_self hn) (ne_true_of_eq_false hr)
    | true =>
      obtain ⟨id, hn, hid⟩ := hall n List.mem_cons_self hr
      exact nodesLeave_rule_skip hn hid (by simp) hrest

/-- In a sequence whose nodes derive the empty string, the rule refers to each rule from the left. -/
lemma leftRefers_of_derivesNodes (hb : m.body r = .ok (.sequences list)) (hq : q ∈ list)
    (hd : m.DerivesNodes q.nodes []) (hn : n ∈ q.nodes) (hs : n.symbol = .rule id) :
    m.LeftRefers r id := by
  obtain ⟨pre, post, hnodes⟩ := List.append_of_mem hn
  refine ⟨list, hb, q, hq, pre, n, post, hnodes, hs, derivesNodes_nil fun k hk hr => ?_⟩
  exact hd.nullable (hnodes ▸ List.mem_append_left _ hk) hr

/-- **A rule is found to be empty inside other rules**, if each of those is less flat or cannot be
reached from the left. -/
theorem ruleLeaves_of_emptyIn (hm : m.Unmarked) (heof : m.EofRequired) (hr : m.EmptyIn h r)
    (hinside : ∀ y ∈ inside, m.EmptyIn h y → ¬ Relation.ReflTransGen m.LeftRefers r y) :
    m.RuleLeaves inside r .pending := by
  induction h generalizing inside r with
  | zero => exact hr.elim
  | succ h ih =>
    by_cases hflat : m.EmptyIn h r
    · exact ih hflat fun y hy he => hinside y hy (he.mono (Nat.le_succ h))
    · -- the rule is as deep as said, so all rules in its derivation are flatter
      have hfresh : r ∉ inside := fun hmem => hinside r hmem hr .refl
      obtain ⟨list, hb, q, hq, hnodes⟩ := hr
      have hd : m.DerivesNodes q.nodes [] := derivesNodes_nil fun n hn hreq =>
        (hnodes n hn hreq).imp fun _ hid => ⟨hid.1, hid.2.nullable⟩
      have hpending : m.NodesLeave (r :: inside) q.nodes .pending := by
        refine nodesLeave_pending (heof q (mem_sequences hb hq)) fun n hn hreq => ?_
        obtain ⟨id, hs, hid⟩ := hnodes n hn hreq
        refine ⟨id, hs, ih hid fun y hy he hreach => ?_⟩
        rcases List.mem_cons.1 hy with rfl | hy
        · exact hflat he
        · exact hinside y hy (he.mono (Nat.le_succ h))
            (.head (leftRefers_of_derivesNodes hb hq hd hn hs) hreach)
      refine ruleLeaves_sequences ?_ hb ?_
      · simp [hm.special r, hm.ignored r, hfresh]
      · filter_upwards [hpending] with depth hdepth
        exact phaseSequences_eq_pending hq hdepth

/-- The phase of a rule inside rules that it does not reach from the left. -/
lemma ruleLeaves_pending_iff (hm : m.Unmarked) (heof : m.EofRequired)
    (hinside : ∀ y ∈ inside, ¬ Relation.ReflTransGen m.LeftRefers r y)
    (hr : m.RuleLeaves inside r ph) : ph = .pending ↔ m.Nullable r := by
  constructor
  · rintro rfl
    exact nullable_of_ruleLeaves hr
  · intro hnull
    obtain ⟨h, hh⟩ := nullable_iff_emptyIn.1 hnull
    exact hr.unique (ruleLeaves_of_emptyIn hm heof hh fun y hy _ => hinside y hy)

/-- The phase of nodes from which collecting starts. -/
lemma nodesLeave_pending_iff (hm : m.Unmarked) (heof : m.EofRequired)
    (hnodes : ∀ n ∈ nodes, n.symbol = .token .eof → n.isRequired = true)
    (hl : m.NodesLeave [] nodes ph) : ph = .pending ↔ m.DerivesNodes nodes [] := by
  constructor
  · rintro rfl
    exact derivesNodes_of_nodesLeave hl
  · intro hd
    refine hl.unique (nodesLeave_pending hnodes fun n hn hreq => ?_)
    obtain ⟨id, hs, hnull⟩ := hd.nullable hn hreq
    obtain ⟨h, hh⟩ := nullable_iff_emptyIn.1 hnull
    exact ⟨id, hs, ruleLeaves_of_emptyIn hm heof hh fun _ hy => absurd hy List.not_mem_nil⟩

end Model

namespace Session

variable {s : Session} {run run' : Run} {ph : Phase} {d : Nat} {rule : RuleId}

/-! ## Collecting in a run -/

/-- Collecting from nodes adds what they are said to offer. -/
lemma adds_collectNodes (s : Session) (d : Nat) (nodes : List (Node RuleId)) (inside : List RuleId) :
    (gatherRegime inside).Adds (s.collectNodes (s.collectRule d) nodes) fun _ ph L =>
      (Plan.collectNodes s nodes).Yields (fun _ _ _ => False) (s.Gathers inside) ph L := by
  have hmirror : s.Mirror s (· = ·) fun _ _ => True := .refl s
  rw [collectNodes_eq_run]
  exact adds_collecting allowsOffers_gatherRegime (fun id => s.adds_collectRule d id inside)
    (hmirror.collectNodes nodes)

/-- **Collecting ends pending where the empty string is derived**, and nowhere else: from a rule, and
from the nodes at the end of an alternative, when nothing is being collected from. -/
theorem collect_pending_iff (hm : s.model.Unmarked) (heof : s.model.EofRequired)
    (hrun : run.collecting = []) :
    (∀ d rule ph run', s.collectRule d rule run = .ok ph run' →
      (ph = .pending ↔ s.model.Nullable rule)) ∧
    ∀ d, ∀ q ∈ s.model.sequences, ∀ i ph run',
      s.collectNodes (s.collectRule d) (q.nodes.drop i) run = .ok ph run' →
        (ph = .pending ↔ s.model.DerivesNodes (q.nodes.drop i) []) := by
  constructor
  · intro d rule ph run' h
    obtain ⟨-, -, L, hg, -⟩ := s.adds_collectRule d rule [] run ph run' hrun h
    exact Model.ruleLeaves_pending_iff hm heof (List.forall_mem_nil _) hg.ruleLeaves
  · intro d q hq i ph run' h
    obtain ⟨-, -, L, hy, -⟩ := s.adds_collectNodes d (q.nodes.drop i) [] run ph run' hrun h
    have hleaves : s.model.NodesLeave [] (q.nodes.drop i) ph :=
      hy.nodesLeave fun _ _ _ hg => hg.ruleLeaves
    exact Model.nodesLeave_pending_iff hm heof
      (fun n hn => heof q hq n (List.mem_of_mem_drop hn)) hleaves

/-- The phase in which collecting ends, if it has a result. -/
def phase? : EStateM.Result CompletionError Run Phase → Option Phase
  | .ok ph _ => some ph
  | .error _ _ => none

lemma exists_of_phase? {x : EStateM.Result CompletionError Run Phase} (h : phase? x = some ph) :
    ∃ r, x = .ok ph r := by
  cases x with
  | ok ph' r => exact ⟨r, by rw [Option.some.inj h]⟩
  | error e r => simp [phase?] at h

/-- `x: y A | ; y: x` -/
def turns : Model where
  rules := .ofList [
    ("x", .sequences [⟨[.rule ⟨1⟩ .one, .token ⟨1⟩ .one], none⟩, ⟨[], none⟩]),
    ("y", .sequences [⟨[.rule ⟨0⟩ .one], none⟩])]
  tokenNames := .ofList [(⟨1⟩, "A")]

/-- Both rules are found to be empty, and each of them is, although `y` is not found to be empty inside
`x`. -/
theorem collect_pending_turns :
    let s := onLine turns []
    s.model.Unmarked ∧ s.model.EofRequired ∧ s.start.collecting = [] ∧
      phase? (s.collectRule 5 ⟨1⟩ { s.start with collecting := [⟨0⟩] }) = some .matching ∧
      (∃ run, s.collectRule 5 ⟨0⟩ s.start = .ok .pending run) ∧ s.model.Nullable ⟨0⟩ ∧
      (∃ run, s.collectRule 5 ⟨1⟩ s.start = .ok .pending run) ∧ s.model.Nullable ⟨1⟩ := by
  have hm : turns.Unmarked := .of_empty rfl rfl
  have heof : turns.EofRequired := by decide
  have hinner : phase? ((onLine turns []).collectRule 5 ⟨1⟩
      { (onLine turns []).start with collecting := [⟨0⟩] }) = some .matching := by cbv
  have hx : phase? ((onLine turns []).collectRule 5 ⟨0⟩ (onLine turns []).start) =
      some .pending := by cbv
  have hy : phase? ((onLine turns []).collectRule 5 ⟨1⟩ (onLine turns []).start) =
      some .pending := by cbv
  obtain ⟨run, hrun⟩ := exists_of_phase? hx
  obtain ⟨run', hrun'⟩ := exists_of_phase? hy
  obtain ⟨hrules, -⟩ := collect_pending_iff (s := onLine turns []) hm heof
    (rfl : (onLine turns []).start.collecting = [])
  exact ⟨hm, heof, rfl, hinner, ⟨run, hrun⟩, (hrules 5 ⟨0⟩ _ run hrun).1 rfl,
    ⟨run', hrun'⟩, (hrules 5 ⟨1⟩ _ run' hrun').1 rfl⟩

end Session

end GrammarCompletion
