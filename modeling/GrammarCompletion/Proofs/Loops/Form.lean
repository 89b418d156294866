/-
# The loop form of a left-recursive rule

A rule `a` whose alternatives are `a α` or `β` derives the same as `base step*`, where `base` stands
for the `β` and `step` for the `α`.  `Model.loopForm` replaces the body of a rule by this loop and
adds the two rules at the end of the model.

If no rule of a model is nullable, each sequence has a node that is required (`Model.Requires`).
This is still so in the loop form, if no `α` derives the empty string.  If moreover the rule is the
only one that is left-recursive, none is in the loop form (`Model.Loops.not_leftReach`).
-/
import GrammarCompletion.Proofs.Recursion.Lawful
import GrammarCompletion.Proofs.Soundness.Outcome

namespace GrammarCompletion

/-! ## Models without nullable rules -/

namespace Model

/-- Every sequence has a node that is required. -/
def Requires (m : Model) : Prop := ∀ q ∈ m.sequences, skippable q.nodes = false

variable {m : Model} {x y : Form} {nodes : List (Node RuleId)} {q : Sequence RuleId} {r : RuleId}

lemma exists_body_of_mem_sequences (h : q ∈ m.sequences) :
    ∃ r list, m.body r = .ok (.sequences list) ∧ q ∈ list := by
  obtain ⟨⟨name, body⟩, he, hq⟩ := List.mem_flatMap.1 h
  obtain ⟨i, hi⟩ := List.mem_iff_getElem?.1 he
  cases body with
  | tokenSet tokens => simp [RuleBody.sequenceList] at hq
  | sequences list => exact ⟨⟨i⟩, list, body_eq_ok_iff.2 ⟨name, hi⟩, hq⟩

lemma requires_of_not_nullable (h : ∀ r, ¬ m.Nullable r) : m.Requires := by
  intro q hq
  obtain ⟨r, list, hb, hmem⟩ := exists_body_of_mem_sequences hq
  by_contra hskip
  have hskip : skippable q.nodes = true := by simpa using hskip
  exact h r ((DerivesNodes.of_skippable hskip).derives hb hmem)

/-- Nodes that stand for the empty string can all be left out. -/
lemma skippable_of_expands_nil (h : Expands nodes []) : skippable nodes = true := by
  generalize hx : ([] : Form) = x at h
  induction h with
  | nil => rfl
  | @cons n rest copies x _ hc _ ih =>
    obtain ⟨hcopies, hrest⟩ := List.append_eq_nil_iff.1 hx.symm
    subst hcopies
    have hn : n.isRequired = false := by
      cases hr : n.isRequired with
      | false => rfl
      | true => exact absurd (hc.1 hr) (Nat.lt_irrefl 0)
    rw [skippable, List.all_cons, hn]
    exact ih hrest.symm

namespace Requires

lemma produces_ne_nil (h : m.Requires) (hp : m.Produces r x) : x ≠ [] := by
  rintro rfl
  rcases hp with ⟨-, -, t, -, ht⟩ | ⟨list, hb, q, hq, hx⟩
  · simp at ht
  · have hskip := skippable_of_expands_nil hx
    rw [h q (mem_sequences hb hq)] at hskip
    exact absurd hskip Bool.false_ne_true

/-- What is not empty derives no empty string. -/
lemma derives_ne_nil (h : m.Requires) (hd : m.Derives x y) (hx : x ≠ []) : y ≠ [] := by
  induction hd with
  | refl => exact hx
  | tail _ hstep _ =>
    obtain ⟨pre, r, z, post, hz, -, rfl⟩ := hstep
    intro hnil
    obtain ⟨hnil, -⟩ := List.append_eq_nil_iff.1 hnil
    exact h.produces_ne_nil hz (List.append_eq_nil_iff.1 hnil).2

lemma not_nullable (h : m.Requires) (r : RuleId) : ¬ m.Nullable r :=
  fun hr => h.derives_ne_nil hr (by simp) rfl

lemma derivesNodes_nil_iff (h : m.Requires) :
    m.DerivesNodes nodes [] ↔ skippable nodes = true := by
  constructor
  · rintro ⟨x, hx, hd⟩
    by_cases hnil : x = []
    · exact skippable_of_expands_nil (hnil ▸ hx)
    · exact absurd rfl (h.derives_ne_nil hd hnil)
  · exact .of_skippable

lemma flatTails (h : m.Requires) : m.FlatTails :=
  fun _ _ _ _ _ hd => h.derivesNodes_nil_iff.1 hd

end Requires

end Model

/-! ## The loop form -/

/-- What follows a required reference to a rule at the start of an alternative. -/
def Sequence.tailOf? (a : RuleId) (q : Sequence RuleId) : Option (Sequence RuleId) :=
  match q.nodes with
  | [] => none
  | n :: rest =>
    if n.symbol = .rule a ∧ n.cardinality = .one then some { q with nodes := rest } else none

/-- The alternatives that do not start with a required reference to a rule. -/
def headsOf (a : RuleId) (list : List (Sequence RuleId)) : List (Sequence RuleId) :=
  list.filter fun q => (q.tailOf? a).isNone

/-- What follows the required references to a rule at the start of alternatives. -/
def tailsOf (a : RuleId) (list : List (Sequence RuleId)) : List (Sequence RuleId) :=
  list.filterMap (·.tailOf? a)

/-- One occurrence of a rule and then any number of occurrences of another one. -/
def loopOf (base step : RuleId) : Sequence RuleId :=
  ⟨[.rule base .one, .rule step .zeroOrMore], none⟩

namespace Model

/-- The id of the first rule that the loop form adds. -/
def baseRule (m : Model) : RuleId := ⟨m.ruleCount⟩

/-- The id of the second rule that the loop form adds. -/
def stepRule (m : Model) : RuleId := ⟨m.ruleCount + 1⟩

/-- The model in which a rule is a loop over two new rules with the given names. -/
def loopForm (m : Model) (a : RuleId) (base step : String) : Model :=
  match m.rule a with
  | .ok (name, .sequences list) =>
    { m with
      rules := ((m.rules.insert name (.sequences [loopOf m.baseRule m.stepRule])).insert base
        (.sequences (headsOf a list))).insert step (.sequences (tailsOf a list)) }
  | _ => m

/-- A rule refers to a rule from the left, other than by the required reference to itself at the
start of an alternative of `a`. -/
def RefersBesides (m : Model) (a r r' : RuleId) : Prop :=
  ∃ list, m.body r = .ok (.sequences list) ∧ ∃ q ∈ list, (r = a → q.tailOf? a = none) ∧
    ∃ pre n post, q.nodes = pre ++ n :: post ∧ n.symbol = .rule r' ∧ m.DerivesNodes pre []

/-- What is asked of a model and of a rule with the given alternatives so that the loop form of the
rule can take its place: no rule is nullable, no end of the input is optional, there is no other left
recursion than that of the alternatives that start with the rule, what follows it there is not
empty, and the two new rules are new. -/
structure Loops (m : Model) (a : RuleId) (list : List (Sequence RuleId)) (base step : String) :
    Prop where
  wellFormed : m.WellFormed
  eofRequired : m.EofRequired
  not_nullable : ∀ r, ¬ m.Nullable r
  body : m.body a = .ok (.sequences list)
  tails : ∀ q ∈ tailsOf a list, ¬ m.DerivesNodes q.nodes []
  acyclic : ∀ r, ¬ Relation.TransGen (m.RefersBesides a) r r
  base_new : base ∉ m.rules
  step_new : step ∉ m.rules
  base_ne_step : base ≠ step
  base_plain : m.isSpecial m.baseRule = false ∧ m.isIgnored m.baseRule = false
  step_plain : m.isSpecial m.stepRule = false ∧ m.isIgnored m.stepRule = false

end Model

section

variable {a r : RuleId} {q k : Sequence RuleId} {list : List (Sequence RuleId)}

lemma tailOf?_eq_some (h : q.tailOf? a = some k) :
    ∃ n, q.nodes = n :: k.nodes ∧ n.symbol = .rule a ∧ n.cardinality = .one := by
  unfold Sequence.tailOf? at h
  split at h
  · simp at h
  · next n rest hnodes =>
    split at h
    · next hn =>
      obtain rfl := Option.some.inj h
      exact ⟨n, hnodes, hn⟩
    · simp at h

lemma mem_headsOf : q ∈ headsOf a list ↔ q ∈ list ∧ q.tailOf? a = none := by
  rw [headsOf, List.mem_filter, Option.isNone_iff_eq_none]

lemma mem_tailsOf : k ∈ tailsOf a list ↔ ∃ q ∈ list, q.tailOf? a = some k :=
  List.mem_filterMap

lemma headsOf_cons_none (h : q.tailOf? a = none) : headsOf a (q :: list) = q :: headsOf a list := by
  simp only [headsOf, List.filter_cons, h, Option.isNone_none, if_true]

lemma headsOf_cons_some (h : q.tailOf? a = some k) : headsOf a (q :: list) = headsOf a list := by
  simp only [headsOf, List.filter_cons, h, Option.isNone_some, Bool.false_eq_true, if_false]

lemma tailsOf_cons_none (h : q.tailOf? a = none) : tailsOf a (q :: list) = tailsOf a list :=
  List.filterMap_cons_none h

lemma tailsOf_cons_some (h : q.tailOf? a = some k) : tailsOf a (q :: list) = k :: tailsOf a list :=
  List.filterMap_cons_some h

end

namespace Model

variable {m : Model} {a r r' : RuleId} {list : List (Sequence RuleId)} {base step : String}

lemma loopForm_eq {name : String} (h : m.rule a = .ok (name, .sequences list)) :
    m.loopForm a base step = { m with
      rules := ((m.rules.insert name (.sequences [loopOf m.baseRule m.stepRule])).insert base
        (.sequences (headsOf a list))).insert step (.sequences (tailsOf a list)) } := by
  rw [loopForm, h]

/-- Only the rules of a model and of its loop form are different. -/
lemma loopForm_other : (m.loopForm a base step).specialRules = m.specialRules ∧
    (m.loopForm a base step).ignoredRules = m.ignoredRules ∧
    (m.loopForm a base step).ignoredTokens = m.ignoredTokens ∧
    (m.loopForm a base step).tokenNames = m.tokenNames := by
  unfold loopForm
  split
  · exact ⟨rfl, rfl, rfl, rfl⟩
  · exact ⟨rfl, rfl, rfl, rfl⟩

lemma isSpecial_loopForm : (m.loopForm a base step).isSpecial r = m.isSpecial r := by
  rw [isSpecial, isSpecial, loopForm_other.1]

lemma isIgnored_loopForm : (m.loopForm a base step).isIgnored r = m.isIgnored r := by
  rw [isIgnored, isIgnored, loopForm_other.2.1]

lemma isIgnoredToken_loopForm {t : TokenId} :
    (m.loopForm a base step).isIgnoredToken t = m.isIgnoredToken t := by
  rw [isIgnoredToken, isIgnoredToken, loopForm_other.2.2.1]

lemma tokenName_loopForm {t : TokenId} :
    (m.loopForm a base step).tokenName t = m.tokenName t := by
  rw [tokenName, tokenName, loopForm_other.2.2.2]

namespace Loops

lemma rule_eq (h : m.Loops a list base step) :
    ∃ name, m.rule a = .ok (name, .sequences list) ∧
      m.rules.entries[a.index]? = some (name, .sequences list) := by
  obtain ⟨name, hname⟩ := body_eq_ok_iff.1 h.body
  refine ⟨name, ?_, hname⟩
  simp only [rule, OrderedMap.entry?, hname]

/-- The rules of the loop form: the rule is replaced and two rules are added. -/
lemma entries (h : m.Loops a list base step) :
    ∃ name, m.rules.entries[a.index]? = some (name, .sequences list) ∧
      (m.loopForm a base step).rules.entries =
        m.rules.entries.set a.index (name, .sequences [loopOf m.baseRule m.stepRule]) ++
          [(base, .sequences (headsOf a list)), (step, .sequences (tailsOf a list))] := by
  obtain ⟨name, hrule, hname⟩ := h.rule_eq
  refine ⟨name, hname, ?_⟩
  have hkey : name ∈ m.rules := List.mem_map.2 ⟨_, List.mem_of_getElem? hname, rfl⟩
  have hbase : base ∉ m.rules.insert name (.sequences [loopOf m.baseRule m.stepRule]) := by
    rw [OrderedMap.mem_insert]
    rintro (rfl | hbase)
    · exact h.base_new hkey
    · exact h.base_new hbase
  have hstep : step ∉ (m.rules.insert name (.sequences [loopOf m.baseRule m.stepRule])).insert base
      (.sequences (headsOf a list)) := by
    rw [OrderedMap.mem_insert, OrderedMap.mem_insert]
    rintro (hstep | rfl | hstep)
    · exact h.base_ne_step hstep.symm
    · exact h.step_new hkey
    · exact h.step_new hstep
  rw [loopForm_eq hrule, OrderedMap.entries_insert_of_not_mem hstep,
    OrderedMap.entries_insert_of_not_mem hbase, OrderedMap.entries_insert_of_getElem? hname,
    List.append_assoc]
  rfl

lemma index_lt (h : m.Loops a list base step) : a.index < m.ruleCount := by
  obtain ⟨name, -, hname⟩ := h.rule_eq
  exact (List.getElem?_eq_some_iff.1 hname).1

lemma base_ne (h : m.Loops a list base step) : m.baseRule ≠ a := by
  rintro rfl
  exact Nat.lt_irrefl _ h.index_lt

lemma step_ne (h : m.Loops a list base step) : m.stepRule ≠ a := by
  rintro rfl
  exact absurd h.index_lt (Nat.not_lt.2 (Nat.le_succ _))

/-- The rules of the loop form by their entries. -/
lemma entry (h : m.Loops a list base step) (i : Nat) :
    ((m.loopForm a base step).rules.entries[i]?).map Prod.snd =
      if i = a.index then some (.sequences [loopOf m.baseRule m.stepRule])
      else if i = m.ruleCount then some (.sequences (headsOf a list))
      else if i = m.ruleCount + 1 then some (.sequences (tailsOf a list))
      else (m.rules.entries[i]?).map Prod.snd := by
  obtain ⟨name, hname, hentries⟩ := h.entries
  have hlt : a.index < m.rules.entries.length := h.index_lt
  have hlength : (m.rules.entries.set a.index
      (name, .sequences [loopOf m.baseRule m.stepRule])).length = m.ruleCount :=
    List.length_set
  rw [hentries]
  by_cases hia : i = a.index
  · subst hia
    rw [if_pos rfl, List.getElem?_append_left (hlength.symm ▸ h.index_lt),
      List.getElem?_set_self hlt]
    rfl
  rw [if_neg hia]
  by_cases hi : i < m.ruleCount
  · have hne : i ≠ m.ruleCount := Nat.ne_of_lt hi
    have hne' : i ≠ m.ruleCount + 1 := Nat.ne_of_lt (Nat.lt_succ_of_lt hi)
    rw [if_neg hne, if_neg hne', List.getElem?_append_left (hlength.symm ▸ hi),
      List.getElem?_set_ne fun he => hia he.symm]
  · have hnone : m.rules.entries[i]? = none := List.getElem?_eq_none (Nat.not_lt.1 hi)
    obtain ⟨j, rfl⟩ := Nat.exists_eq_add_of_le (Nat.not_lt.1 hi)
    rw [List.getElem?_append_right (hlength.le.trans (Nat.le_add_right _ j)), hlength, hnone,
      Nat.add_sub_cancel_left]
    match j with
    | 0 => simp
    | 1 => simp
    | j + 2 => simp

lemma body_eq_ok_iff_entry {m : Model} {body : RuleBody RuleId} :
    m.body r = .ok body ↔ (m.rules.entries[r.index]?).map Prod.snd = some body := by
  rw [body_eq_ok_iff, Option.map_eq_some_iff]
  constructor
  · rintro ⟨name, hname⟩
    exact ⟨_, hname, rfl⟩
  · rintro ⟨⟨name, body⟩, hname, rfl⟩
    exact ⟨name, hname⟩

/-- The body of the rule itself is the loop. -/
lemma body_self (h : m.Loops a list base step) :
    (m.loopForm a base step).body a = .ok (.sequences [loopOf m.baseRule m.stepRule]) := by
  rw [body_eq_ok_iff_entry, h.entry, if_pos rfl]

lemma body_base (h : m.Loops a list base step) :
    (m.loopForm a base step).body m.baseRule = .ok (.sequences (headsOf a list)) := by
  have hne : m.ruleCount ≠ a.index := Nat.ne_of_gt h.index_lt
  rw [body_eq_ok_iff_entry, h.entry, baseRule, if_neg hne, if_pos rfl]

lemma body_step (h : m.Loops a list base step) :
    (m.loopForm a base step).body m.stepRule = .ok (.sequences (tailsOf a list)) := by
  have hne : m.ruleCount + 1 ≠ a.index := Nat.ne_of_gt (Nat.lt_succ_of_lt h.index_lt)
  rw [body_eq_ok_iff_entry, h.entry, stepRule, if_neg hne, if_neg (Nat.succ_ne_self _),
    if_pos rfl]

/-- The bodies of the other rules of the model. -/
lemma body_other (h : m.Loops a list base step) {body : RuleBody RuleId} (hr : r ≠ a)
    (hb : m.body r = .ok body) : (m.loopForm a base step).body r = .ok body := by
  rw [body_eq_ok_iff_entry] at hb
  have hlt : r.index < m.rules.entries.length := by
    by_contra hge
    rw [List.getElem?_eq_none (Nat.not_lt.1 hge)] at hb
    simp at hb
  have hlt' : r.index < m.ruleCount := hlt
  have hne : r.index ≠ a.index := by
    intro he
    obtain ⟨i⟩ := r
    obtain ⟨j⟩ := a
    exact hr (congrArg RuleId.mk he)
  rw [body_eq_ok_iff_entry, h.entry, if_neg hne, if_neg (Nat.ne_of_lt hlt'),
    if_neg (Nat.ne_of_lt (Nat.lt_succ_of_lt hlt')), hb]

/-- There are no other bodies in the loop form. -/
lemma body_cases (h : m.Loops a list base step) {body : RuleBody RuleId}
    (hb : (m.loopForm a base step).body r = .ok body) :
    r = a ∧ body = .sequences [loopOf m.baseRule m.stepRule] ∨
      r = m.baseRule ∧ body = .sequences (headsOf a list) ∨
      r = m.stepRule ∧ body = .sequences (tailsOf a list) ∨
      r ≠ a ∧ r ≠ m.baseRule ∧ r ≠ m.stepRule ∧ m.body r = .ok body := by
  by_cases hra : r = a
  · subst hra
    exact Or.inl ⟨rfl, Except.ok.inj (hb.symm.trans h.body_self)⟩
  by_cases hrb : r = m.baseRule
  · subst hrb
    exact Or.inr (Or.inl ⟨rfl, Except.ok.inj (hb.symm.trans h.body_base)⟩)
  by_cases hrs : r = m.stepRule
  · subst hrs
    exact Or.inr (Or.inr (Or.inl ⟨rfl, Except.ok.inj (hb.symm.trans h.body_step)⟩))
  refine Or.inr (Or.inr (Or.inr ⟨hra, hrb, hrs, ?_⟩))
  have hindex : ∀ r' : RuleId, r ≠ r' → r.index ≠ r'.index := by
    intro r' hne he
    cases r
    cases r'
    exact hne (congrArg RuleId.mk he)
  have hbase : r.index ≠ m.ruleCount := hindex _ hrb
  have hstep : r.index ≠ m.ruleCount + 1 := hindex _ hrs
  rw [body_eq_ok_iff_entry, h.entry, if_neg (hindex a hra), if_neg hbase, if_neg hstep] at hb
  exact body_eq_ok_iff_entry.2 hb

/-- The two new rules have no bodies in the model itself. -/
lemma ne_of_body (_ : m.Loops a list base step) {body : RuleBody RuleId} (hb : m.body r = .ok body) :
    r ≠ m.baseRule ∧ r ≠ m.stepRule := by
  obtain ⟨name, hname⟩ := body_eq_ok_iff.1 hb
  have hlt : r.index < m.ruleCount := (List.getElem?_eq_some_iff.1 hname).1
  constructor
  · rintro rfl
    exact Nat.lt_irrefl _ hlt
  · rintro rfl
    exact absurd hlt (Nat.not_lt.2 (Nat.le_succ _))

/-! ## What the loop form requires -/

lemma mem_sequences_loopForm (h : m.Loops a list base step) {q : Sequence RuleId}
    (hq : q ∈ (m.loopForm a base step).sequences) :
    q ∈ m.sequences ∨ q = loopOf m.baseRule m.stepRule ∨ q ∈ tailsOf a list := by
  obtain ⟨r, list', hb, hmem⟩ := exists_body_of_mem_sequences hq
  rcases h.body_cases hb with ⟨-, hlist⟩ | ⟨-, hlist⟩ | ⟨-, hlist⟩ | ⟨-, -, -, hb'⟩
  · obtain rfl := RuleBody.sequences.inj hlist
    exact Or.inr (Or.inl (List.mem_singleton.1 hmem))
  · obtain rfl := RuleBody.sequences.inj hlist
    exact Or.inl (mem_sequences h.body (mem_headsOf.1 hmem).1)
  · obtain rfl := RuleBody.sequences.inj hlist
    exact Or.inr (Or.inr hmem)
  · exact Or.inl (mem_sequences hb' hmem)

lemma requires (h : m.Loops a list base step) : m.Requires :=
  requires_of_not_nullable h.not_nullable

lemma skippable_tail (h : m.Loops a list base step) {k : Sequence RuleId} (hk : k ∈ tailsOf a list) :
    skippable k.nodes = false := by
  by_contra hskip
  exact h.tails k hk (.of_skippable (by simpa using hskip))

lemma requires_loopForm (h : m.Loops a list base step) : (m.loopForm a base step).Requires := by
  intro q hq
  rcases h.mem_sequences_loopForm hq with hq | rfl | hq
  · exact h.requires q hq
  · rfl
  · exact h.skippable_tail hq

lemma eofRequired_loopForm (h : m.Loops a list base step) :
    (m.loopForm a base step).EofRequired := by
  intro q hq n hn heof
  rcases h.mem_sequences_loopForm hq with hq | rfl | hq
  · exact h.eofRequired q hq n hn heof
  · rcases List.mem_cons.1 hn with rfl | hn
    · cases heof
    · obtain rfl := List.mem_singleton.1 hn
      cases heof
  · obtain ⟨k, hk, htail⟩ := mem_tailsOf.1 hq
    obtain ⟨n₀, hnodes, -⟩ := tailOf?_eq_some htail
    exact h.eofRequired k (mem_sequences h.body hk) n (hnodes ▸ List.mem_cons_of_mem n₀ hn) heof

/-! ## Left recursion -/

lemma leftRefers_cases (h : m.Loops a list base step) (hr : m.LeftRefers r r') :
    r = a ∧ r' = a ∨ m.RefersBesides a r r' := by
  obtain ⟨list', hb, q, hq, pre, n, post, hnodes, hn, hpre⟩ := hr
  by_cases htail : r = a → q.tailOf? a = none
  · exact Or.inr ⟨list', hb, q, hq, htail, pre, n, post, hnodes, hn, hpre⟩
  · -- the reference is the one at the start, because nothing before it is required
    push Not at htail
    obtain ⟨rfl, hsome⟩ := htail
    obtain ⟨k, hk⟩ := Option.ne_none_iff_exists'.1 hsome
    obtain ⟨n₀, hnodes₀, hn₀, hone⟩ := tailOf?_eq_some hk
    rw [h.requires.derivesNodes_nil_iff] at hpre
    rw [hnodes] at hnodes₀
    cases pre with
    | nil =>
      obtain ⟨rfl, -⟩ := List.cons.inj hnodes₀
      exact Or.inl ⟨rfl, Symbol.rule.inj (hn.symm.trans hn₀)⟩
    | cons n' pre =>
      obtain ⟨rfl, -⟩ := List.cons.inj hnodes₀
      simp [skippable, Node.isRequired, hone, Cardinality.one] at hpre

lemma leftReach_cases (h : m.Loops a list base step) (hr : m.LeftReach r r') :
    r = a ∧ r' = a ∨ Relation.TransGen (m.RefersBesides a) r r' := by
  induction hr with
  | single hstep => exact (h.leftRefers_cases hstep).imp_right .single
  | tail _ hstep ih =>
    rcases ih with ⟨rfl, rfl⟩ | ih
    · exact (h.leftRefers_cases hstep).imp_right .single
    · rcases h.leftRefers_cases hstep with ⟨rfl, rfl⟩ | hstep
      · exact Or.inr ih
      · exact Or.inr (ih.tail hstep)

/-- In the model only the rule itself is left-recursive. -/
lemma directFrom (h : m.Loops a list base step) (root : RuleId) : m.DirectFrom root := by
  intro x _ y hxy hyx
  rcases h.leftReach_cases hxy with ⟨rfl, rfl⟩ | hxy
  · rfl
  · rcases h.leftReach_cases hyx with ⟨rfl, rfl⟩ | hyx
    · rfl
    · exact absurd (hxy.trans hyx) (h.acyclic x)

lemma refersBesides_ne (h : m.Loops a list base step) (hr : m.RefersBesides a r r') :
    r' ≠ m.baseRule ∧ r' ≠ m.stepRule := by
  obtain ⟨list', hb, q, hq, -, pre, n, post, hnodes, hn, -⟩ := hr
  have hlt := h.wellFormed q (mem_sequences hb hq) n (by simp [hnodes]) r' hn
  constructor
  · rintro rfl
    exact Nat.lt_irrefl _ hlt
  · rintro rfl
    exact absurd hlt (Nat.not_lt.2 (Nat.le_succ _))

/-- In the loop form the rule refers to its base, and the base to what the rule referred to. -/
lemma leftRefers_loopForm (h : m.Loops a list base step)
    (hr : (m.loopForm a base step).LeftRefers r r') :
    r = m.stepRule ∨ r = a ∧ r' = m.baseRule ∨ r = m.baseRule ∧ m.RefersBesides a a r' ∨
      r ≠ m.baseRule ∧ m.RefersBesides a r r' := by
  obtain ⟨list', hb, q, hq, pre, n, post, hnodes, hn, hpre⟩ := hr
  rw [h.requires_loopForm.derivesNodes_nil_iff] at hpre
  have hpre' : m.DerivesNodes pre [] := .of_skippable hpre
  rcases h.body_cases hb with ⟨rfl, hlist⟩ | ⟨rfl, hlist⟩ | ⟨rfl, -⟩ | ⟨hra, hrb, -, hb'⟩
  · obtain rfl := RuleBody.sequences.inj hlist
    obtain rfl := List.mem_singleton.1 hq
    refine Or.inr (Or.inl ⟨rfl, ?_⟩)
    cases pre with
    | nil =>
      obtain ⟨rfl, -⟩ := List.cons.inj hnodes
      exact (Symbol.rule.inj hn).symm
    | cons n' pre =>
      obtain ⟨rfl, -⟩ := List.cons.inj hnodes
      simp [skippable, Node.isRequired, Node.rule, Cardinality.one] at hpre
  · obtain rfl := RuleBody.sequences.inj hlist
    obtain ⟨hmem, htail⟩ := mem_headsOf.1 hq
    exact Or.inr (Or.inr (Or.inl
      ⟨rfl, list, h.body, q, hmem, fun _ => htail, pre, n, post, hnodes, hn, hpre'⟩))
  · exact Or.inl rfl
  · exact Or.inr (Or.inr (Or.inr
      ⟨hrb, list', hb', q, hq, fun he => absurd he hra, pre, n, post, hnodes, hn, hpre'⟩))

/-- Where the base is taken for the rule itself, the loop form reaches nothing new. -/
lemma leftReach_loopForm (h : m.Loops a list base step)
    (hr : (m.loopForm a base step).LeftReach r r') (hstep : r ≠ m.stepRule) :
    r' ≠ m.stepRule ∧ (r = a ∧ r' = m.baseRule ∨ Relation.TransGen (m.RefersBesides a)
      (if r = m.baseRule then a else r) (if r' = m.baseRule then a else r')) := by
  have hbase_ne : m.baseRule ≠ m.stepRule := fun he => by simp [baseRule, stepRule] at he
  have hone : ∀ {x y}, (m.loopForm a base step).LeftRefers x y → x ≠ m.stepRule →
      y ≠ m.stepRule ∧ (x = a ∧ y = m.baseRule ∨
        m.RefersBesides a (if x = m.baseRule then a else x) y ∧ y ≠ m.baseRule) := by
    intro x y hxy hx
    rcases h.leftRefers_loopForm hxy with rfl | ⟨rfl, rfl⟩ | ⟨rfl, hrefers⟩ | ⟨hne, hrefers⟩
    · exact absurd rfl hx
    · exact ⟨hbase_ne, Or.inl ⟨rfl, rfl⟩⟩
    · obtain ⟨hb, hs⟩ := h.refersBesides_ne hrefers
      exact ⟨hs, Or.inr ⟨by rwa [if_pos rfl], hb⟩⟩
    · obtain ⟨hb, hs⟩ := h.refersBesides_ne hrefers
      exact ⟨hs, Or.inr ⟨by rwa [if_neg hne], hb⟩⟩
  induction hr with
  | single hxy =>
    obtain ⟨hs, hcases⟩ := hone hxy hstep
    refine ⟨hs, hcases.imp_right fun ⟨hrefers, hb⟩ => .single ?_⟩
    rwa [if_neg hb]
  | @tail y z _ hyz ih =>
    obtain ⟨hys, hcases⟩ := ih
    obtain ⟨hs, hcases'⟩ := hone hyz hys
    refine ⟨hs, ?_⟩
    rcases hcases with ⟨rfl, rfl⟩ | hreach
    · rcases hcases' with ⟨hbase, -⟩ | ⟨hrefers, hb⟩
      · exact absurd hbase h.base_ne
      · rw [if_pos rfl] at hrefers
        rw [if_neg h.base_ne.symm, if_neg hb]
        exact Or.inr (.single hrefers)
    · rcases hcases' with ⟨rfl, rfl⟩ | ⟨hrefers, hb⟩
      · rw [if_neg h.base_ne.symm] at hreach
        rw [if_pos rfl]
        exact Or.inr hreach
      · rw [if_neg hb]
        exact Or.inr (hreach.tail hrefers)

/-- In the loop form no rule is left-recursive, but perhaps the step, which no rule reaches. -/
lemma directFrom_loopForm (h : m.Loops a list base step) (root : RuleId) :
    (m.loopForm a base step).DirectFrom root := by
  intro x _ y hxy hyx
  have hreach : ∀ z, (m.loopForm a base step).LeftReach z m.stepRule → z = m.stepRule := by
    intro z hz
    by_contra hne
    exact (h.leftReach_loopForm hz hne).1 rfl
  by_cases hx : x = m.stepRule
  · subst hx
    exact hreach y hyx
  · obtain ⟨hy, hcases⟩ := h.leftReach_loopForm hxy hx
    obtain ⟨-, hcases'⟩ := h.leftReach_loopForm hyx hy
    rcases hcases with ⟨rfl, rfl⟩ | hreach
    · rcases hcases' with ⟨hbase, -⟩ | hreach'
      · exact absurd hbase h.base_ne
      · rw [if_pos rfl, if_neg h.base_ne.symm] at hreach'
        exact absurd hreach' (h.acyclic x)
    · rcases hcases' with ⟨rfl, rfl⟩ | hreach'
      · rw [if_pos rfl, if_neg h.base_ne.symm] at hreach
        exact absurd hreach (h.acyclic y)
      · exact absurd (hreach.trans hreach') (h.acyclic _)

end Loops

end Model

end GrammarCompletion
