/-
# Variants of a model

A model may be changed in the bodies of its rules only: the rules keep their names and their order,
and with them their ids, and the policy stays.  `Model.Resembles B` says so of two models of which
corresponding bodies are related by `B`; the tokens that are never offered may still be others.
They are the same in a `Model.Variant B`.
-/
import GrammarCompletion.Proofs.Derivation
import GrammarCompletion.Proofs.Results

namespace GrammarCompletion

namespace Model

/-- Two models that differ in the bodies of their rules, which are related by `B`, and in the tokens
that are never offered. -/
structure Resembles (B : RuleBody RuleId → RuleBody RuleId → Prop) (m m' : Model) : Prop where
  rules : List.Forall₂ (fun e e' => e'.1 = e.1 ∧ B e.2 e'.2) m.rules.entries m'.rules.entries
  special : m'.specialRules = m.specialRules
  ignored : m'.ignoredRules = m.ignoredRules
  names : m'.tokenNames = m.tokenNames

/-- Two models that differ in the bodies of their rules only, which are related by `B`. -/
structure Variant (B : RuleBody RuleId → RuleBody RuleId → Prop) (m m' : Model) : Prop extends
    m.Resembles B m' where
  tokens : m'.ignoredTokens = m.ignoredTokens

variable {B : RuleBody RuleId → RuleBody RuleId → Prop} {m m' : Model} {r : RuleId}

/-- The ids of rules are read off the list of the names. -/
lemma ruleId?_eq_of_keys (h : m'.rules.keys = m.rules.keys) (name : String) :
    m'.ruleId? name = m.ruleId? name := by
  rw [Model.ruleId?, Model.ruleId?, OrderedMap.indexOf?, OrderedMap.indexOf?, h]

/-- The names of rules are read off the same list. -/
lemma ruleName_eq_of_keys (h : m'.rules.keys = m.rules.keys) (r : RuleId) :
    m'.ruleName r = m.ruleName r := by
  have hname : ∀ m : Model, m.ruleName r =
      (m.rules.keys[r.index]?).elim (.error (.danglingRule r)) .ok := by
    intro m
    rw [ruleName, rule, OrderedMap.entry?, OrderedMap.keys, List.getElem?_map]
    cases m.rules.entries[r.index]? <;> rfl
  rw [hname, hname, h]

namespace Resembles

lemma refl (hB : ∀ b, B b b) (m : Model) : m.Resembles B m :=
  ⟨List.forall₂_same.2 fun e _ => ⟨rfl, hB e.2⟩, rfl, rfl, rfl⟩

lemma symm (h : m.Resembles B m') : m'.Resembles (fun b b' => B b' b) m := by
  refine ⟨?_, h.special.symm, h.ignored.symm, h.names.symm⟩
  exact h.rules.flip.imp fun _ _ he => ⟨he.1.symm, he.2⟩

/-- The rules keep their names. -/
lemma keys (h : m.Resembles B m') : m'.rules.keys = m.rules.keys :=
  (map_eq_of_forall₂ (h.rules.imp fun _ _ he => he.1.symm)).symm

/-- The rules keep their ids. -/
lemma ruleId? (h : m.Resembles B m') (name : String) : m'.ruleId? name = m.ruleId? name :=
  ruleId?_eq_of_keys h.keys name

/-- The entries at a place belong together. -/
lemma entry (h : m.Resembles B m') (i : Nat) :
    Option.Rel (fun e e' => e'.1 = e.1 ∧ B e.2 e'.2) m.rules.entries[i]? m'.rules.entries[i]? := by
  have hrules := h.rules
  generalize m.rules.entries = l, m'.rules.entries = l' at hrules
  induction hrules generalizing i with
  | nil => exact .none
  | cons he _ ih =>
    cases i with
    | zero => exact .some he
    | succ i => exact ih i

lemma ruleName (h : m.Resembles B m') (r : RuleId) : m'.ruleName r = m.ruleName r :=
  ruleName_eq_of_keys h.keys r

/-- A rule has a body in both models, or in none of them. -/
lemma body (h : m.Resembles B m') (r : RuleId) :
    (∃ b b', m.body r = .ok b ∧ m'.body r = .ok b' ∧ B b b') ∨
      ∃ d, m.body r = .error d ∧ m'.body r = .error d := by
  have he := h.entry r.index
  simp only [Model.body, rule, OrderedMap.entry?]
  generalize m.rules.entries[r.index]? = e, m'.rules.entries[r.index]? = e' at he ⊢
  cases he with
  | none => exact Or.inr ⟨_, rfl, rfl⟩
  | some he => exact Or.inl ⟨_, _, rfl, rfl, he.2⟩

lemma exists_body (h : m.Resembles B m') {b : RuleBody RuleId} (hb : m.body r = .ok b) :
    ∃ b', m'.body r = .ok b' ∧ B b b' := by
  rcases h.body r with ⟨b₁, b', h₁, hb', hrel⟩ | ⟨d, h₁, -⟩
  · obtain rfl := Except.ok.inj (hb.symm.trans h₁)
    exact ⟨b', hb', hrel⟩
  · cases hb.symm.trans h₁

lemma isSpecial (h : m.Resembles B m') (r : RuleId) : m'.isSpecial r = m.isSpecial r := by
  rw [Model.isSpecial, Model.isSpecial, h.special]

lemma isIgnored (h : m.Resembles B m') (r : RuleId) : m'.isIgnored r = m.isIgnored r := by
  rw [Model.isIgnored, Model.isIgnored, h.ignored]

lemma tokenName (h : m.Resembles B m') (t : TokenId) : m'.tokenName t = m.tokenName t := by
  rw [Model.tokenName, Model.tokenName, h.names]

end Resembles

lemma Variant.isIgnoredToken (h : m.Variant B m') (t : TokenId) :
    m'.isIgnoredToken t = m.isIgnoredToken t := by
  rw [Model.isIgnoredToken, Model.isIgnoredToken, h.tokens]

lemma Variant.symm (h : m.Variant B m') : m'.Variant (fun b b' => B b' b) m :=
  ⟨h.toResembles.symm, h.tokens.symm⟩

end Model

end GrammarCompletion
