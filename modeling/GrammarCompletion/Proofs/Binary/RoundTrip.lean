/-
# A model is read back from its bytes

Every part of a model is read from the bytes it was written as, whatever comes after them.  The only
condition is that its numbers fit: a rule id is written as a number of 32 bits, and the length of a
list or a text as one of 64 bits.  Lists of rules, members and names keep their order, since the
maps and sets of a model have no key or member twice.
-/
import GrammarCompletion.Model.Binary
import GrammarCompletion.Proofs.Binary.Reads

namespace GrammarCompletion

open Binary

/-! ## What can be written -/

/-- A rule id is a number of 32 bits. -/
def RuleId.Fits (id : RuleId) : Prop := id.index < RuleId.bound

/-- A node that can be written. -/
def Node.Fits (n : Node RuleId) : Prop := ∀ id ∈ n.ruleRef?, id.Fits

/-- A sequence that can be written. -/
structure Sequence.Fits (q : Sequence RuleId) : Prop where
  /-- The nodes can be written. -/
  nodes : FitsList Node.Fits q.nodes
  /-- The predicate can be written. -/
  predicate : ∀ s ∈ q.predicate, FitsText s

/-- A rule body that can be written. -/
def RuleBody.Fits : RuleBody RuleId → Prop
  | .tokenSet tokens => FitsList (fun _ => True) tokens.toList
  | .sequences list => FitsList Sequence.Fits list

/-- A model that can be written. -/
structure Model.Fits (m : Model) : Prop where
  /-- The names and the bodies of the rules can be written. -/
  rules : FitsList (fun e => FitsText e.1 ∧ e.2.Fits) m.rules.entries
  /-- The special rules can be written. -/
  specialRules : FitsList RuleId.Fits m.specialRules.toList
  /-- The ignored rules can be written. -/
  ignoredRules : FitsList RuleId.Fits m.ignoredRules.toList
  /-- The ignored tokens can be written. -/
  ignoredTokens : FitsList (fun _ => True) m.ignoredTokens.toList
  /-- The names of the tokens can be written. -/
  tokenNames : FitsList (fun e => FitsText e.2) m.tokenNames.entries

instance (id : RuleId) : Decidable id.Fits := inferInstanceAs (Decidable (_ < _))

instance (n : Node RuleId) : Decidable n.Fits :=
  inferInstanceAs (Decidable (∀ id ∈ n.ruleRef?, id.Fits))

instance (q : Sequence RuleId) : Decidable q.Fits :=
  decidable_of_iff (FitsList Node.Fits q.nodes ∧ ∀ s ∈ q.predicate, FitsText s)
    ⟨fun h => ⟨h.1, h.2⟩, fun h => ⟨h.nodes, h.predicate⟩⟩

instance : (body : RuleBody RuleId) → Decidable body.Fits
  | .tokenSet tokens => inferInstanceAs (Decidable (FitsList (fun _ => True) tokens.toList))
  | .sequences list => inferInstanceAs (Decidable (FitsList Sequence.Fits list))

instance (m : Model) : Decidable m.Fits :=
  decidable_of_iff (FitsList (fun e => FitsText e.1 ∧ e.2.Fits) m.rules.entries ∧
      FitsList RuleId.Fits m.specialRules.toList ∧ FitsList RuleId.Fits m.ignoredRules.toList ∧
      FitsList (fun _ => True) m.ignoredTokens.toList ∧
      FitsList (fun e : TokenId × String => FitsText e.2) m.tokenNames.entries)
    ⟨fun ⟨h₁, h₂, h₃, h₄, h₅⟩ => ⟨h₁, h₂, h₃, h₄, h₅⟩,
      fun h => ⟨h.rules, h.specialRules, h.ignoredRules, h.ignoredTokens, h.tokenNames⟩⟩

/-! ## Parts of models -/

lemma reads_tokenId (id : TokenId) : Reads TokenId.decode id.encode id :=
  (reads_signed id.value).map TokenId.mk

lemma reads_ruleId {id : RuleId} (h : id.Fits) : Reads RuleId.decode id.encode id :=
  (reads_nat32 h).map RuleId.mk

lemma reads_symbol {s : Symbol RuleId} (h : ∀ id, s = .rule id → id.Fits) :
    Reads Symbol.decode s.encode s := by
  cases s with
  | token id => exact (reads_nat32 (by decide)).bind ((reads_tokenId id).map Symbol.token)
  | rule id => exact (reads_nat32 (by decide)).bind ((reads_ruleId (h id rfl)).map Symbol.rule)

lemma reads_node {n : Node RuleId} (h : n.Fits) : Reads Node.decode n.encode n := by
  have hsymbol : ∀ id, n.symbol = .rule id → id.Fits :=
    fun id hid => h id (by simp [Node.ruleRef?, hid])
  rw [Node.encode, List.append_assoc, List.append_assoc]
  refine (reads_symbol hsymbol).bind ?_
  refine (reads_bool n.cardinality.multiple).bind ?_
  refine (reads_bool n.cardinality.required).bind ?_
  exact (reads_bool n.any).bind_pure rfl

lemma reads_sequence {q : Sequence RuleId} (h : q.Fits) : Reads Sequence.decode q.encode q := by
  refine (reads_list h.nodes fun _ => reads_node).bind ?_
  exact (reads_option fun s hs => reads_text (h.predicate s hs)).bind_pure rfl

open RuleBody in
/-- A token set keeps the order of its tokens. -/
lemma reads_body {body : RuleBody RuleId} (h : body.Fits) :
    Reads RuleBody.decode body.encode body := by
  cases body with
  | tokenSet tokens =>
    have hset : OrderedSet.ofList tokens.toList = tokens := OrderedSet.ofList_toList tokens
    refine (reads_nat32 (by decide)).bind ?_
    have hread := (reads_list h fun id _ => reads_tokenId id).map
      ((tokenSet : _ → RuleBody RuleId) ∘ OrderedSet.ofList)
    rwa [Function.comp_apply, hset] at hread
  | sequences list =>
    exact (reads_nat32 (by decide)).bind ((reads_list h fun _ => reads_sequence).map sequences)

namespace Model

variable {m m' : Model}

lemma reads_rule {e : String × RuleBody RuleId} (h : FitsText e.1 ∧ e.2.Fits) :
    Reads decodeRule (encodeRule e) e :=
  (reads_text h.1).bind ((reads_body h.2).bind_pure rfl)

lemma reads_tokenName {e : TokenId × String} (h : FitsText e.2) :
    Reads decodeTokenName (encodeTokenName e) e :=
  (reads_tokenId e.1).bind ((reads_text h).bind_pure rfl)

/-- A model is read from its bytes, and no byte after them is taken. -/
lemma reads_model (h : m.Fits) : Reads decoder m.encode m := by
  simp only [encode, List.append_assoc]
  refine (reads_list h.rules fun _ => reads_rule).bind ?_
  refine (reads_list h.specialRules fun _ => reads_ruleId).bind ?_
  refine (reads_list h.ignoredRules fun _ => reads_ruleId).bind ?_
  refine (reads_list h.ignoredTokens fun id _ => reads_tokenId id).bind ?_
  refine (reads_list h.tokenNames fun _ => reads_tokenName).bind_pure ?_
  simp

/-- **Nothing is lost in the binary form.**  A model is read back from its bytes, with the order of
its rules, token sets, policies and token names, whatever bytes come after them. -/
theorem decode_encode_append (h : m.Fits) (rest : Bytes) : decode (m.encode ++ rest) = .ok m := by
  rw [decode, reads_model h]
  rfl

/-- A model at the edges of what can be written. -/
def edges : Model where
  rules := .ofList [
    ("größe→", .sequences [
      ⟨[.rule ⟨RuleId.bound - 1⟩ .zeroOrMore, .token ⟨Int32.minValue⟩ .optional,
        .token ⟨Int32.maxValue⟩ .oneOrMore, .wildcard .one], some "𝄞 = 'x'"⟩,
      ⟨[], none⟩]),
    ("", .tokenSet (.ofList [⟨64⟩, ⟨-65⟩, .eof]))]
  specialRules := .ofList [⟨128⟩, ⟨127⟩]
  ignoredRules := .ofList [⟨2 ^ 28⟩, ⟨2 ^ 28 - 1⟩]
  ignoredTokens := .ofList [.wildcard, ⟨8192⟩]
  tokenNames := .ofList [(⟨-8193⟩, "\x7b\n"), (.eof, "")]

/-- The edges are read back from in front of two other bytes. -/
theorem decode_encode_edges :
    edges.Fits ∧ decode (edges.encode ++ [255, 0]) = .ok edges :=
  ⟨by decide, decode_encode_append (by decide) [255, 0]⟩

end Model

end GrammarCompletion
