/-
# Predictive grammars

A model is read as a grammar in which the next token says how to go on (`Model.LL1`): it says which
alternative of a rule is to be taken, and whether a node that may be left out or repeated occurs
again.  The conditions are those of the textbook.  `Model.First` is what nodes may start with, and
`Model.Follow` is what may come behind a rule in what a root derives.

A string that is derived from a concatenation is a concatenation of derived strings
(`Model.Derives.split`).  With this, derivations are taken apart from the left, as a walk does it.
-/
import GrammarCompletion.Proofs.Recursion.Lawful

namespace GrammarCompletion

/-- A node for a rule, or for one token that is neither the wildcard nor the end of the input. -/
def Node.Plain (n : Node RuleId) : Prop :=
  n.any = false ∧ ∀ t, n.symbol = .token t → t ≠ .eof ∧ t ≠ .wildcard

namespace Model

variable (m : Model)

/-! ## First and follow -/

/-- A token comes first in something that a string derives. -/
def Starts (x : Form) (t : TokenId) : Prop := ∃ b, m.Derives x (.token t :: b)

/-- A token comes first in something that nodes in a row derive. -/
def First (nodes : List (Node RuleId)) (t : TokenId) : Prop := ∃ x, Expands nodes x ∧ m.Starts x t

/-- A rule occurs in something that the root derives. -/
def Occurs (root r : RuleId) : Prop := ∃ pre post, m.Derives [.rule root] (pre ++ .rule r :: post)

/-- A token comes right behind a rule in something that the root derives. -/
def Follow (root r : RuleId) (t : TokenId) : Prop :=
  ∃ pre post, m.Derives [.rule root] (pre ++ .rule r :: .token t :: post)

/-- A token predicts nodes at the end of an alternative of a rule: it may come first in what they
derive, or they may be empty and it may follow the rule. -/
def Predict (root r : RuleId) (nodes : List (Node RuleId)) (t : TokenId) : Prop :=
  m.First nodes t ∨ m.DerivesNodes nodes [] ∧ m.Follow root r t

/-- The next token says how to go on, in every rule that occurs below a root. -/
structure LL1 (root : RuleId) : Prop where
  /-- No token predicts two alternatives of a rule. -/
  alternatives : ∀ {r list q q'}, m.Occurs root r → m.body r = .ok (.sequences list) → q ∈ list →
    q' ∈ list → q ≠ q' → ∀ t, m.Predict root r q.nodes t → ¬ m.Predict root r q'.nodes t
  /-- A node that may be left out or repeated is not empty, and no token that it may start with
  predicts what comes behind it. -/
  nodes : ∀ {r list q pre n rest}, m.Occurs root r → m.body r = .ok (.sequences list) → q ∈ list →
    q.nodes = pre ++ n :: rest → n.isRequired = false ∨ n.isMultiple = true →
      (∀ id, n.symbol = .rule id → ¬ m.Nullable id) ∧
        ∀ t, m.First [n] t → ¬ m.Predict root r rest t

/-- There are no special and no ignored rules, no ignored tokens apart from the wildcard, and neither
wildcard nodes nor terminals for the wildcard or the end of the input. -/
structure Plain : Prop where
  special : ∀ r, m.isSpecial r = false
  ignored : ∀ r, m.isIgnored r = false
  ignoredToken : ∀ t, m.isIgnoredToken t = true → t = .wildcard
  node : ∀ q ∈ m.sequences, ∀ n ∈ q.nodes, n.Plain
  tokenSet : ∀ r tokens, m.body r = .ok (.tokenSet tokens) → ∀ t ∈ tokens, t ≠ .eof ∧ t ≠ .wildcard

variable {m} {x y z : Form} {root r r' id : RuleId} {t u : TokenId} {v : List TokenId}
  {n : Node RuleId} {nodes rest pre : List (Node RuleId)} {q : Sequence RuleId}
  {list : List (Sequence RuleId)}

/-! ## Derivations from the left -/

/-- What a concatenation derives is a concatenation. -/
lemma Derives.split (h : m.Derives (x ++ y) z) :
    ∃ z₁ z₂, z = z₁ ++ z₂ ∧ m.Derives x z₁ ∧ m.Derives y z₂ := by
  induction h with
  | refl => exact ⟨x, y, rfl, .refl x, .refl y⟩
  | tail _ hstep ih =>
    obtain ⟨z₁, z₂, rfl, h₁, h₂⟩ := ih
    obtain ⟨pre, r, w, post, hw, hz, rfl⟩ := hstep
    -- the rule that is replaced is on the right or on the left
    rcases List.append_eq_append_iff.1 hz with ⟨c, rfl, rfl⟩ | ⟨c, rfl, hpost⟩
    · exact ⟨z₁, c ++ w ++ post, by simp only [List.append_assoc], h₁,
        h₂.tail ⟨c, r, w, post, hw, rfl, rfl⟩⟩
    · cases c with
      | nil =>
        refine ⟨pre, w ++ post, List.append_assoc pre w post, by simpa using h₁, h₂.tail ?_⟩
        exact ⟨[], r, w, post, hw, by simpa using hpost.symm, rfl⟩
      | cons a c =>
        rw [List.cons_append] at hpost
        obtain ⟨rfl, rfl⟩ := List.cons.inj hpost
        exact ⟨pre ++ w ++ c, z₂, by simp only [List.append_assoc],
          h₁.tail ⟨pre, r, w, c, hw, rfl, rfl⟩, h₂⟩

/-- There is nothing to replace in a list of tokens. -/
lemma Derives.ofTokens_inv (h : m.Derives (.ofTokens v) z) : z = .ofTokens v := by
  induction h with
  | refl => rfl
  | tail _ hstep ih =>
    obtain ⟨pre, r, w, post, -, hz, -⟩ := hstep
    have hmem : Symbol.rule r ∈ Form.ofTokens v := by
      rw [← ih, hz]
      simp
    simp [Form.ofTokens] at hmem

lemma Derives.nil_inv (h : m.Derives [] z) : z = [] :=
  Derives.ofTokens_inv (v := []) h

lemma Derives.token_inv (h : m.Derives [.token t] z) : z = [.token t] :=
  Derives.ofTokens_inv (v := [t]) h

/-- A rule derives itself, or what one of its strings derives. -/
lemma Derives.rule_inv (h : m.Derives [.rule r] z) :
    z = [.rule r] ∨ ∃ x, m.Produces r x ∧ m.Derives x z := by
  rcases Relation.ReflTransGen.cases_head h with rfl | ⟨x, hstep, hd⟩
  · exact Or.inl rfl
  · obtain ⟨pre, r', w, post, hw, hr, rfl⟩ := hstep
    cases pre with
    | nil =>
      obtain ⟨hrule, rfl⟩ := List.cons.inj hr
      obtain rfl := Symbol.rule.inj hrule
      rw [List.nil_append, List.append_nil] at hd
      exact Or.inr ⟨w, hw, hd⟩
    | cons a pre => simp at hr

lemma Starts.append (h : m.Starts x t) (y : Form) : m.Starts (x ++ y) t := by
  obtain ⟨b, hb⟩ := h
  exact ⟨b ++ y, hb.append_right y⟩

/-- What comes first in a concatenation comes first on the left, or on the right of what may be
empty. -/
lemma Starts.split (h : m.Starts (x ++ y) t) : m.Starts x t ∨ m.Derives x [] ∧ m.Starts y t := by
  obtain ⟨b, hb⟩ := h
  obtain ⟨z₁, z₂, hz, h₁, h₂⟩ := hb.split
  cases z₁ with
  | nil =>
    rw [List.nil_append] at hz
    exact Or.inr ⟨h₁, b, hz ▸ h₂⟩
  | cons a z₁ =>
    obtain ⟨rfl, rfl⟩ := List.cons.inj hz
    exact Or.inl ⟨z₁, h₁⟩

lemma not_starts_nil : ¬ m.Starts [] t := by
  rintro ⟨b, hb⟩
  simpa using hb.nil_inv

lemma Starts.token_inv (h : m.Starts [.token u] t) : t = u := by
  obtain ⟨b, hb⟩ := h
  simpa using congrArg List.head? hb.token_inv

/-- What a string may start with is what one of its symbols may start with. -/
lemma Starts.exists_mem (h : m.Starts x t) : ∃ a ∈ x, m.Starts [a] t := by
  induction x with
  | nil => exact absurd h not_starts_nil
  | cons a x ih =>
    rcases Starts.split (x := [a]) h with hs | ⟨-, hs⟩
    · exact ⟨a, List.mem_cons_self, hs⟩
    · obtain ⟨a', ha', hs'⟩ := ih hs
      exact ⟨a', List.mem_cons_of_mem a ha', hs'⟩

/-! ## Nodes and bodies -/

/-- What nodes may start with is what the first one may start with, or it comes behind a node that
may be empty. -/
lemma First.cons_inv (h : m.First (n :: rest) t) :
    m.First [n] t ∨ m.DerivesNodes [n] [] ∧ m.First rest t := by
  obtain ⟨x, hx, hs⟩ := h
  cases hx with
  | @cons _ _ copies x hn hc hr =>
    have hcopies : Expands [n] (copies ++ []) := .cons hn hc .nil
    rw [List.append_nil] at hcopies
    rcases hs.split with hs | ⟨hnil, hs⟩
    · exact Or.inl ⟨copies, hcopies, hs⟩
    · exact Or.inr ⟨⟨copies, hcopies, hnil⟩, x, hr, hs⟩

lemma DerivesNodes.cons_nil_inv (h : m.DerivesNodes (n :: rest) []) :
    m.DerivesNodes [n] [] ∧ m.DerivesNodes rest [] := by
  obtain ⟨x, hx, hd⟩ := h
  cases hx with
  | @cons _ _ copies x hn hc hr =>
    have hcopies : Expands [n] (copies ++ []) := .cons hn hc .nil
    rw [List.append_nil] at hcopies
    obtain ⟨z₁, z₂, hz, h₁, h₂⟩ := hd.split
    obtain ⟨rfl, rfl⟩ := List.append_eq_nil_iff.1 hz.symm
    exact ⟨⟨copies, hcopies, h₁⟩, x, hr, h₂⟩

/-- What a node may start with is what one of its occurrences may start with. -/
lemma First.occurrence (h : m.First [n] t) : ∃ a, n.IsOccurrence a ∧ m.Starts [a] t := by
  obtain ⟨x, hx, hs⟩ := h
  cases hx with
  | @cons _ _ copies x hn _ hr =>
    cases hr
    rw [List.append_nil] at hs
    obtain ⟨a, ha, hs⟩ := hs.exists_mem
    exact ⟨a, hn a ha, hs⟩

lemma First.append (h : m.First nodes t) (rest : List (Node RuleId)) :
    m.First (nodes ++ rest) t := by
  obtain ⟨x, hx, hs⟩ := h
  obtain ⟨w, hw⟩ := exists_expands rest
  exact ⟨x ++ w, hx.append hw, hs.append w⟩

lemma First.token_inv (h : m.First [n] t) (hp : n.Plain) (hn : n.symbol = .token u) : t = u := by
  obtain ⟨a, ha, hs⟩ := h.occurrence
  simp only [Node.IsOccurrence, hn] at ha
  obtain ⟨u', rfl, hu⟩ := ha
  obtain rfl := hu hp.1
  exact hs.token_inv

lemma First.rule_inv (h : m.First [n] t) (hn : n.symbol = .rule id) : m.Starts [.rule id] t := by
  obtain ⟨a, ha, hs⟩ := h.occurrence
  simp only [Node.IsOccurrence, hn] at ha
  exact ha ▸ hs

/-- A node that may be empty may be left out, or it is for a rule that may be empty. -/
lemma DerivesNodes.single_nil_inv (h : m.DerivesNodes [n] []) :
    n.isRequired = false ∨ ∃ id, n.symbol = .rule id ∧ m.Nullable id := by
  obtain ⟨x, hx, hd⟩ := h
  cases hx with
  | @cons _ _ copies x hn hc hr =>
    cases copies with
    | nil =>
      left
      by_contra hreq
      have hreq : n.cardinality.required = true := by simpa [Node.isRequired] using hreq
      exact absurd (hc.1 hreq) (Nat.lt_irrefl 0)
    | cons a copies =>
      obtain ⟨z₁, z₂, hz, h₁, -⟩ := Derives.split (x := [a]) hd
      obtain ⟨rfl, -⟩ := List.append_eq_nil_iff.1 hz.symm
      have ha := hn a List.mem_cons_self
      cases hs : n.symbol with
      | token u =>
        simp only [Node.IsOccurrence, hs] at ha
        obtain ⟨u', rfl, -⟩ := ha
        simpa using h₁.token_inv
      | rule id =>
        simp only [Node.IsOccurrence, hs] at ha
        subst ha
        exact Or.inr ⟨id, rfl, h₁⟩

lemma Produces.of_tokenSet {tokens : OrderedSet TokenId} (h : m.Produces r x)
    (hb : m.body r = .ok (.tokenSet tokens)) : ∃ t ∈ tokens, x = [.token t] := by
  rcases h with ⟨tokens', hb', ht⟩ | ⟨list, hb', -⟩
  · obtain rfl := RuleBody.tokenSet.inj (Except.ok.inj (hb'.symm.trans hb))
    exact ht
  · cases hb'.symm.trans hb

lemma Produces.of_sequences (h : m.Produces r x) (hb : m.body r = .ok (.sequences list)) :
    ∃ q ∈ list, Expands q.nodes x := by
  rcases h with ⟨tokens, hb', -⟩ | ⟨list', hb', hq⟩
  · cases hb'.symm.trans hb
  · obtain rfl := RuleBody.sequences.inj (Except.ok.inj (hb'.symm.trans hb))
    exact hq

/-- What comes first in what a rule derives comes first in one of its strings. -/
lemma Starts.produces (h : m.Starts [.rule r] t) : ∃ x, m.Produces r x ∧ m.Starts x t := by
  obtain ⟨b, hb⟩ := h
  rcases hb.rule_inv with hz | ⟨x, hx, hd⟩
  · simp at hz
  · exact ⟨x, hx, b, hd⟩

lemma Nullable.produces (h : m.Nullable r) : ∃ x, m.Produces r x ∧ m.Derives x [] := by
  rcases Derives.rule_inv h with hz | hx
  · simp at hz
  · exact hx

/-! ## Occurrences of rules -/

/-- A rule in a string that nodes stand for is that of one of the nodes. -/
lemma exists_node_of_expands (h : Expands nodes x) (hr : Symbol.rule r ∈ x) :
    ∃ n ∈ nodes, n.symbol = .rule r := by
  induction h with
  | nil => simp at hr
  | @cons n rest copies x hn _ _ ih =>
    rcases List.mem_append.1 hr with hr | hr
    · have ha := hn _ hr
      cases hs : n.symbol with
      | token t => simp [Node.IsOccurrence, hs] at ha
      | rule id =>
        simp only [Node.IsOccurrence, hs, Symbol.rule.injEq] at ha
        exact ⟨n, List.mem_cons_self, ha ▸ hs⟩
    · obtain ⟨k, hk, hs⟩ := ih hr
      exact ⟨k, List.mem_cons_of_mem n hk, hs⟩

/-- A rule that occurs in what another one is replaced by is referred to. -/
lemma Produces.refers (h : m.Produces r' x) (hr : Symbol.rule r ∈ x) : m.Refers r' r := by
  rcases h with ⟨tokens, -, t, -, rfl⟩ | ⟨list, hb, q, hq, hx⟩
  · simp at hr
  · exact ⟨list, hb, q, hq, exists_node_of_expands hx hr⟩

/-- A rule to which no rule refers does not come up in a derivation. -/
lemma Derives.mem_of_not_refers (h : m.Derives x z) (hr : ∀ r', ¬ m.Refers r' r)
    (hz : Symbol.rule r ∈ z) : Symbol.rule r ∈ x := by
  induction h with
  | refl => exact hz
  | tail _ hstep ih =>
    obtain ⟨pre, r', w, post, hw, rfl, rfl⟩ := hstep
    have hnew : Symbol.rule r ∉ w := fun hmem => hr r' (hw.refers hmem)
    refine ih ?_
    simp only [List.mem_append, List.mem_cons, hnew, or_false] at hz ⊢
    exact hz.imp_right Or.inr

/-- Nothing follows a root to which no rule refers. -/
lemma not_follow_root (hr : ∀ r', ¬ m.Refers r' root) : ¬ m.Follow root root t := by
  rintro ⟨pre, post, hd⟩
  rcases hd.rule_inv with hz | ⟨x, hx, hd⟩
  · have hlength := congrArg List.length hz
    simp only [List.length_append, List.length_cons, List.length_nil] at hlength
    omega
  · exact hr root (hx.refers (hd.mem_of_not_refers hr (by simp)))

lemma Occurs.refl (root : RuleId) : m.Occurs root root := ⟨[], [], .refl _⟩

/-- Nodes at the end of an alternative of a rule that occurs below a root. -/
def Ends (m : Model) (root r : RuleId) (nodes : List (Node RuleId)) : Prop :=
  m.Occurs root r ∧ ∃ list, m.body r = .ok (.sequences list) ∧ ∃ q ∈ list, nodes <:+ q.nodes

lemma Ends.tail (h : m.Ends root r (n :: rest)) : m.Ends root r rest := by
  obtain ⟨ho, list, hb, q, hq, hsuffix⟩ := h
  exact ⟨ho, list, hb, q, hq, (List.suffix_cons n rest).trans hsuffix⟩

lemma Ends.part (h : m.Ends root r nodes) : ∃ q ∈ m.sequences, nodes <:+ q.nodes := by
  obtain ⟨-, list, hb, q, hq, hsuffix⟩ := h
  exact ⟨q, mem_sequences hb hq, hsuffix⟩

/-- The root derives what the nodes stand for, between other strings. -/
lemma Ends.derives (h : m.Ends root r nodes) (hx : Expands nodes x) :
    ∃ pre post, m.Derives [.rule root] (pre ++ x ++ post) ∧
      ∀ t, m.Follow root r t → ∃ pre post, m.Derives [.rule root] (pre ++ x ++ .token t :: post) := by
  obtain ⟨⟨pre, post, hd⟩, list, hb, q, hq, front, hnodes⟩ := h
  obtain ⟨w, hw⟩ := exists_expands front
  have hr : m.Derives [.rule r] (w ++ x) :=
    .of_produces (.sequence hb hq (hnodes ▸ hw.append hx))
  refine ⟨pre ++ w, post, hd.trans ?_, ?_⟩
  · have := hr.congr pre post
    simpa only [List.append_assoc, List.singleton_append] using this
  · rintro t ⟨pre, post, hd⟩
    refine ⟨pre ++ w, post, hd.trans ?_⟩
    have := hr.congr pre (.token t :: post)
    simpa only [List.append_assoc, List.singleton_append, List.cons_append, List.nil_append] using this

/-- A token comes next, where a string is left of an alternative of a rule. -/
def Ahead (m : Model) (root r : RuleId) (x : Form) (t : TokenId) : Prop :=
  m.Starts x t ∨ m.Derives x [] ∧ m.Follow root r t

lemma Ahead.predict (h : m.Ahead root r x t) (hx : Expands nodes x) : m.Predict root r nodes t :=
  h.imp (fun hs => ⟨x, hx, hs⟩) fun he => ⟨⟨x, hx, he.1⟩, he.2⟩

lemma Ends.occurs (h : m.Ends root r (n :: rest)) (hn : n.symbol = .rule id) :
    m.Occurs root id := by
  obtain ⟨y, hy⟩ := exists_expands rest
  obtain ⟨pre, post, hd, -⟩ := h.derives (hy.single (Node.isOccurrence_rule hn))
  exact ⟨pre, y ++ post, by simpa using hd⟩

/-- What comes next behind an occurrence of a rule follows that rule. -/
lemma Ends.follow (h : m.Ends root r (n :: rest)) (hx : Expands (n :: rest) (.rule id :: y))
    (ht : m.Ahead root r y t) : m.Follow root id t := by
  obtain ⟨pre, post, hd, hfollow⟩ := h.derives hx
  rcases ht with ⟨b, hb⟩ | ⟨hnil, ht⟩
  · refine ⟨pre, b ++ post, hd.trans ?_⟩
    have := hb.congr (pre ++ [.rule id]) post
    simpa using this
  · obtain ⟨pre, post, hd⟩ := hfollow t ht
    refine ⟨pre, post, hd.trans ?_⟩
    have := hnil.congr (pre ++ [.rule id]) (.token t :: post)
    simpa using this

/-- A token that a node may start with says that the node occurs. -/
lemma LL1.not_first (h : m.LL1 root) (he : m.Ends root r (n :: rest))
    (hn : n.isRequired = false ∨ n.isMultiple = true) (ht : m.Predict root r rest t) :
    ¬ m.First [n] t := by
  obtain ⟨ho, list, hb, q, hq, front, hnodes⟩ := he
  exact fun hfirst => (h.nodes ho hb hq hnodes.symm hn).2 t hfirst ht

lemma LL1.not_nullable (h : m.LL1 root) (he : m.Ends root r (n :: rest))
    (hn : n.isRequired = false ∨ n.isMultiple = true) (hid : n.symbol = .rule id) :
    ¬ m.Nullable id := by
  obtain ⟨ho, list, hb, q, hq, front, hnodes⟩ := he
  exact (h.nodes ho hb hq hnodes.symm hn).1 id hid

/-- A token predicts one alternative of a rule at most. -/
lemma LL1.unique {q' : Sequence RuleId} (h : m.LL1 root) (ho : m.Occurs root r)
    (hb : m.body r = .ok (.sequences list)) (hq : q ∈ list) (hq' : q' ∈ list)
    (ht : m.Predict root r q.nodes t) (ht' : m.Predict root r q'.nodes t) : q = q' := by
  by_contra hne
  exact h.alternatives ho hb hq hq' hne t ht ht'

end Model

end GrammarCompletion
