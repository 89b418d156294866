/-
# Derivations

A model is read as a grammar in the extended notation: a rule with a token set derives one token of
the set, a rule with sequences derives the nodes of one of them in order, each as often as its
cardinality allows, and a wildcard node stands for any single token.  `Model.Derives` is the usual
relation on strings of symbols, one rule being replaced at a time.  It is compatible with
concatenation, which is all that the analysis of a walk needs to know about it.
-/
import GrammarCompletion.Model.Basic
import Mathlib.Logic.Relation
import Mathlib.Tactic.Lemma

namespace GrammarCompletion

/-- A string of tokens and rules. -/
abbrev Form : Type := List (Symbol RuleId)

/-- The string that a list of tokens is. -/
def Form.ofTokens (l : List TokenId) : Form := l.map .token

@[simp] lemma Form.ofTokens_nil : ofTokens [] = [] := rfl

@[simp] lemma Form.ofTokens_cons (t : TokenId) (l : List TokenId) :
    ofTokens (t :: l) = .token t :: ofTokens l := rfl

@[simp] lemma Form.ofTokens_append (l₁ l₂ : List TokenId) :
    ofTokens (l₁ ++ l₂) = ofTokens l₁ ++ ofTokens l₂ := by
  simp [ofTokens]

/-- Whether a node with this cardinality may occur `k` times in a row. -/
def Cardinality.Allows (c : Cardinality) (k : Nat) : Prop :=
  (c.required = true → 0 < k) ∧ (c.multiple = false → k ≤ 1)

lemma Cardinality.allows_one (c : Cardinality) : c.Allows 1 :=
  ⟨fun _ => Nat.one_pos, fun _ => Nat.le_refl 1⟩

lemma Cardinality.Allows.succ {c : Cardinality} {k : Nat} (hm : c.multiple = true) :
    c.Allows (k + 1) :=
  ⟨fun _ => Nat.succ_pos k, fun h => absurd hm (ne_true_of_eq_false h)⟩

/-- The symbols that one occurrence of a node can be. -/
def Node.IsOccurrence (n : Node RuleId) (a : Symbol RuleId) : Prop :=
  match n.symbol with
  | .token id => ∃ t, a = .token t ∧ (n.any = false → t = id)
  | .rule id => a = .rule id

lemma Node.isOccurrence_token {n : Node RuleId} {id t : TokenId} (hn : n.symbol = .token id)
    (ht : n.any = false → t = id) : n.IsOccurrence (.token t) := by
  simp only [IsOccurrence, hn]
  exact ⟨t, rfl, ht⟩

lemma Node.isOccurrence_rule {n : Node RuleId} {id : RuleId} (hn : n.symbol = .rule id) :
    n.IsOccurrence (.rule id) := by
  simp [IsOccurrence, hn]

/-- The strings of symbols that nodes in a row stand for. -/
inductive Expands : List (Node RuleId) → Form → Prop
  /-- No nodes stand for the empty string. -/
  | nil : Expands [] []
  /-- The first node occurs as often as it may. -/
  | cons {n : Node RuleId} {rest : List (Node RuleId)} {copies x : Form}
      (hn : ∀ a ∈ copies, n.IsOccurrence a) (hc : n.cardinality.Allows copies.length)
      (hr : Expands rest x) : Expands (n :: rest) (copies ++ x)

namespace Expands

variable {n : Node RuleId} {rest : List (Node RuleId)} {a : Symbol RuleId} {x : Form}

/-- Every node may occur once. -/
lemma single (ha : n.IsOccurrence a) (hr : Expands rest x) : Expands (n :: rest) (a :: x) :=
  cons (x := x) (List.forall_mem_singleton.2 ha) (Cardinality.allows_one _) hr

/-- A node that is not required may be left out. -/
lemma skip (hn : n.isRequired = false) (hr : Expands rest x) : Expands (n :: rest) x :=
  cons (x := x) (List.forall_mem_nil _)
    ⟨fun h => absurd h (ne_true_of_eq_false hn), fun _ => Nat.zero_le 1⟩ hr

/-- A node that may be repeated may occur once more. -/
lemma again (hm : n.isMultiple = true) (ha : n.IsOccurrence a) (h : Expands (n :: rest) x) :
    Expands (n :: rest) (a :: x) := by
  cases h with
  | @cons _ _ copies y hn _ hr =>
    exact cons (x := y) (List.forall_mem_cons.2 ⟨ha, hn⟩) (Cardinality.Allows.succ hm) hr

lemma append {l₁ l₂ : List (Node RuleId)} {x y : Form} (h₁ : Expands l₁ x) (h₂ : Expands l₂ y) :
    Expands (l₁ ++ l₂) (x ++ y) := by
  induction h₁ with
  | nil => exact h₂
  | cons hn hc _ ih => simpa using .cons hn hc ih

end Expands

/-- Every list of nodes stands for something. -/
lemma exists_expands (nodes : List (Node RuleId)) : ∃ x, Expands nodes x := by
  induction nodes with
  | nil => exact ⟨[], .nil⟩
  | cons n rest ih =>
    obtain ⟨x, hx⟩ := ih
    cases hs : n.symbol with
    | token id => exact ⟨_, hx.single (Node.isOccurrence_token (t := id) hs fun _ => rfl)⟩
    | rule id => exact ⟨_, hx.single (Node.isOccurrence_rule hs)⟩

namespace Model

variable {m : Model}

/-- The sequences of all rules. -/
def sequences (m : Model) : List (Sequence RuleId) :=
  m.rules.entries.flatMap fun e => e.2.sequenceList

/-- No node refers to a rule that the model does not have. -/
def WellFormed (m : Model) : Prop :=
  ∀ q ∈ m.sequences, ∀ n ∈ q.nodes, ∀ id, n.symbol = .rule id → id.index < m.ruleCount

/-- A node for the end of the input is never optional. -/
def EofRequired (m : Model) : Prop :=
  ∀ q ∈ m.sequences, ∀ n ∈ q.nodes, n.symbol = .token .eof → n.isRequired = true

instance : Decidable m.WellFormed :=
  decidable_of_iff
    (∀ q ∈ m.sequences, ∀ n ∈ q.nodes,
      n.ruleRef?.all (fun id => id.index < m.ruleCount) = true) <| by
      refine forall₂_congr fun q _ => forall₂_congr fun n _ => ?_
      cases h : n.symbol <;> simp [Node.ruleRef?, h]

instance : Decidable m.EofRequired :=
  inferInstanceAs (Decidable (∀ q ∈ m.sequences, ∀ n ∈ q.nodes, n.symbol = .token .eof → _))

lemma body_eq_ok_iff {r : RuleId} {body : RuleBody RuleId} :
    m.body r = .ok body ↔ ∃ name, m.rules.entries[r.index]? = some (name, body) := by
  simp only [Model.body, rule, OrderedMap.entry?]
  cases h : m.rules.entries[r.index]? with
  | none => simp [Except.map]
  | some e =>
    simp only [Except.map, Except.ok.injEq, Option.some.injEq]
    exact ⟨fun he => ⟨e.1, he ▸ rfl⟩, fun ⟨_, he⟩ => he ▸ rfl⟩

lemma ruleName_eq_ok_iff {r : RuleId} {name : String} :
    m.ruleName r = .ok name ↔ m.rules.keys[r.index]? = some name := by
  simp only [ruleName, rule, OrderedMap.entry?, OrderedMap.keys, List.getElem?_map]
  cases m.rules.entries[r.index]? with
  | none => simp [Except.map]
  | some e => simp [Except.map]

lemma mem_sequences {r : RuleId} {list : List (Sequence RuleId)} {q : Sequence RuleId}
    (hb : m.body r = .ok (.sequences list)) (hq : q ∈ list) : q ∈ m.sequences := by
  obtain ⟨name, he⟩ := body_eq_ok_iff.1 hb
  exact List.mem_flatMap.2 ⟨_, List.mem_of_getElem? he, hq⟩

/-- The strings by which a rule may be replaced. -/
def Produces (m : Model) (r : RuleId) (x : Form) : Prop :=
  (∃ tokens : OrderedSet TokenId, m.body r = .ok (.tokenSet tokens) ∧
      ∃ t ∈ tokens, x = [.token t]) ∨
    ∃ list, m.body r = .ok (.sequences list) ∧ ∃ q ∈ list, Expands q.nodes x

lemma Produces.tokenSet {r : RuleId} {tokens : OrderedSet TokenId} {t : TokenId}
    (hb : m.body r = .ok (.tokenSet tokens)) (ht : t ∈ tokens) : m.Produces r [.token t] :=
  Or.inl ⟨tokens, hb, t, ht, rfl⟩

lemma Produces.sequence {r : RuleId} {list : List (Sequence RuleId)} {q : Sequence RuleId}
    {x : Form} (hb : m.body r = .ok (.sequences list)) (hq : q ∈ list) (hx : Expands q.nodes x) :
    m.Produces r x :=
  Or.inr ⟨list, hb, q, hq, hx⟩

/-- One rule of a string is replaced. -/
def Rewrites (m : Model) (u v : Form) : Prop :=
  ∃ pre r x post, m.Produces r x ∧ u = pre ++ .rule r :: post ∧ v = pre ++ x ++ post

/-- Any number of rules are replaced one after the other. -/
def Derives (m : Model) : Form → Form → Prop := Relation.ReflTransGen m.Rewrites

/-- Nodes in a row derive a list of tokens. -/
def DerivesNodes (m : Model) (nodes : List (Node RuleId)) (v : List TokenId) : Prop :=
  ∃ x, Expands nodes x ∧ m.Derives x (.ofTokens v)

/-- A rule derives the empty string. -/
def Nullable (m : Model) (r : RuleId) : Prop := m.Derives [.rule r] []

namespace Derives

variable {u v w x y : Form} {r : RuleId}

lemma refl (u : Form) : m.Derives u u := Relation.ReflTransGen.refl

lemma trans (h₁ : m.Derives u v) (h₂ : m.Derives v w) : m.Derives u w :=
  Relation.ReflTransGen.trans h₁ h₂

lemma of_produces (h : m.Produces r x) : m.Derives [.rule r] x :=
  Relation.ReflTransGen.single ⟨[], r, x, [], h, rfl, by simp⟩

lemma append_left (h : m.Derives u v) (pre : Form) : m.Derives (pre ++ u) (pre ++ v) := by
  -- each step takes place further to the right
  induction h with
  | refl => exact refl _
  | tail _ hstep ih =>
    obtain ⟨p, r, x, q, hx, rfl, rfl⟩ := hstep
    exact ih.tail ⟨pre ++ p, r, x, q, hx, by simp, by simp⟩

lemma append_right (h : m.Derives u v) (post : Form) : m.Derives (u ++ post) (v ++ post) := by
  induction h with
  | refl => exact refl _
  | tail _ hstep ih =>
    obtain ⟨p, r, x, q, hx, rfl, rfl⟩ := hstep
    exact ih.tail ⟨p, r, x, q ++ post, hx, by simp, by simp⟩

lemma append (h₁ : m.Derives u v) (h₂ : m.Derives x y) : m.Derives (u ++ x) (v ++ y) :=
  (h₁.append_right x).trans (h₂.append_left v)

/-- In the middle of a string. -/
lemma congr (h : m.Derives u v) (pre post : Form) :
    m.Derives (pre ++ u ++ post) (pre ++ v ++ post) :=
  (h.append_left pre).append_right post

/-- A token of a string is never replaced. -/
lemma mem_token (h : m.Derives u v) {t : TokenId} (ht : Symbol.token t ∈ u) :
    Symbol.token t ∈ v := by
  induction h with
  | refl => exact ht
  | tail _ hstep ih =>
    obtain ⟨p, r, x, q, -, rfl, rfl⟩ := hstep
    simp only [List.mem_append, List.mem_cons, reduceCtorEq, false_or] at ih ⊢
    exact ih.elim (fun h => Or.inl (Or.inl h)) Or.inr

end Derives

/-- Where rules may be replaced by more strings, more is derived. -/
lemma Derives.mono {m' : Model} {u v : Form} (hm : ∀ r x, m.Produces r x → m'.Produces r x)
    (h : m.Derives u v) : m'.Derives u v := by
  refine Relation.ReflTransGen.mono ?_ _ _ h
  rintro u v ⟨pre, r, x, post, hx, hu, hv⟩
  exact ⟨pre, r, x, post, hm r x hx, hu, hv⟩

namespace DerivesNodes

variable {n : Node RuleId} {rest : List (Node RuleId)} {u v : List TokenId}

lemma nil : m.DerivesNodes [] [] := ⟨[], .nil, .refl _⟩

lemma skip (hn : n.isRequired = false) (h : m.DerivesNodes rest v) :
    m.DerivesNodes (n :: rest) v := by
  obtain ⟨x, hx, hd⟩ := h
  exact ⟨x, hx.skip hn, hd⟩

lemma single {a : Symbol RuleId} (ha : n.IsOccurrence a) (hu : m.Derives [a] (.ofTokens u))
    (h : m.DerivesNodes rest v) : m.DerivesNodes (n :: rest) (u ++ v) := by
  obtain ⟨x, hx, hd⟩ := h
  refine ⟨a :: x, hx.single ha, ?_⟩
  rw [Form.ofTokens_append]
  exact hu.append hd

lemma again {a : Symbol RuleId} (hm : n.isMultiple = true) (ha : n.IsOccurrence a)
    (hu : m.Derives [a] (.ofTokens u)) (h : m.DerivesNodes (n :: rest) v) :
    m.DerivesNodes (n :: rest) (u ++ v) := by
  obtain ⟨x, hx, hd⟩ := h
  refine ⟨a :: x, hx.again hm ha, ?_⟩
  rw [Form.ofTokens_append]
  exact hu.append hd

lemma append {l₁ l₂ : List (Node RuleId)} (h₁ : m.DerivesNodes l₁ u) (h₂ : m.DerivesNodes l₂ v) :
    m.DerivesNodes (l₁ ++ l₂) (u ++ v) := by
  obtain ⟨x, hx, hu⟩ := h₁
  obtain ⟨y, hy, hv⟩ := h₂
  exact ⟨x ++ y, hx.append hy, by simpa using hu.append hv⟩

/-- Nodes none of which is required derive the empty string. -/
lemma of_skippable {nodes : List (Node RuleId)} (h : skippable nodes = true) :
    m.DerivesNodes nodes [] := by
  induction nodes with
  | nil => exact nil
  | cons n rest ih =>
    simp only [skippable, List.all_cons, Bool.and_eq_true, Bool.not_eq_true'] at h
    exact skip h.1 (ih h.2)

/-- A rule derives what the nodes of one of its sequences derive. -/
lemma derives {r : RuleId} {list : List (Sequence RuleId)} {q : Sequence RuleId}
    (h : m.DerivesNodes q.nodes v) (hb : m.body r = .ok (.sequences list)) (hq : q ∈ list) :
    m.Derives [.rule r] (.ofTokens v) := by
  obtain ⟨x, hx, hd⟩ := h
  exact (Derives.of_produces (.sequence hb hq hx)).trans hd

/-- A token that is required is derived. -/
lemma ne_nil {nodes : List (Node RuleId)} {t : TokenId} (h : m.DerivesNodes nodes v)
    (hn : n ∈ nodes) (ht : n.symbol = .token t) (hr : n.isRequired = true) : v ≠ [] := by
  rintro rfl
  obtain ⟨x, hx, hd⟩ := h
  -- tokens are never replaced, so it is enough that one occurs before anything is derived
  suffices ∃ u, Symbol.token u ∈ x by
    obtain ⟨u, hu⟩ := this
    simpa using hd.mem_token hu
  clear hd
  induction hx with
  | nil => simp at hn
  | @cons k rest copies x hk hc _ ih =>
    rcases List.mem_cons.1 hn with rfl | hn
    · obtain ⟨a, copies, rfl⟩ := List.exists_cons_of_length_pos (hc.1 hr)
      have ha := hk a List.mem_cons_self
      simp only [Node.IsOccurrence, ht] at ha
      obtain ⟨u, rfl, -⟩ := ha
      exact ⟨u, by simp⟩
    · obtain ⟨u, hu⟩ := ih hn
      exact ⟨u, List.mem_append_right _ hu⟩

end DerivesNodes

end Model

end GrammarCompletion
