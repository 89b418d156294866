/-
# Models as bytes

The binary form of a model is the sequence of its parts without any marks between them.  Numbers are
written in groups of seven bits (`Binary`), lists as their length and their items, texts as the
length and the bytes of their UTF-8 form, choices as the number of the alternative and its content.
Maps and sets are written as lists in their order.

Reading is the inverse of writing.  It accepts more than what is written: numbers in more groups
than needed, and lists in which keys or members are repeated, of which the later ones are taken as
insertions into what was read before.  It does not check that ids belong to the model.
-/
import GrammarCompletion.Binary
import GrammarCompletion.Model.Basic

namespace GrammarCompletion

open Binary

/-! ## Writing -/

/-- The bytes of a token id. -/
def TokenId.encode (id : TokenId) : Bytes := encodeSigned id.value

/-- The bytes of a rule id. -/
def RuleId.encode (id : RuleId) : Bytes := encodeNat id.index

/-- The bytes of a symbol. -/
def Symbol.encode : Symbol RuleId → Bytes
  | .token id => encodeNat 0 ++ id.encode
  | .rule id => encodeNat 1 ++ id.encode

/-- The bytes of a node. -/
def Node.encode (n : Node RuleId) : Bytes :=
  n.symbol.encode ++ encodeBool n.cardinality.multiple ++ encodeBool n.cardinality.required
    ++ encodeBool n.any

/-- The bytes of a sequence. -/
def Sequence.encode (s : Sequence RuleId) : Bytes :=
  encodeList Node.encode s.nodes ++ encodeOption encodeText s.predicate

/-- The bytes of a rule body. -/
def RuleBody.encode : RuleBody RuleId → Bytes
  | .tokenSet tokens => encodeNat 0 ++ encodeList TokenId.encode tokens.toList
  | .sequences list => encodeNat 1 ++ encodeList Sequence.encode list

namespace Model

/-- The bytes of a rule with its name. -/
def encodeRule (e : String × RuleBody RuleId) : Bytes :=
  encodeText e.1 ++ e.2.encode

/-- The bytes of a token with its name. -/
def encodeTokenName (e : TokenId × String) : Bytes :=
  e.1.encode ++ encodeText e.2

/-- The bytes of a model. -/
def encode (m : Model) : Bytes :=
  encodeList encodeRule m.rules.entries ++ encodeList RuleId.encode m.specialRules.toList
    ++ encodeList RuleId.encode m.ignoredRules.toList
    ++ encodeList TokenId.encode m.ignoredTokens.toList
    ++ encodeList encodeTokenName m.tokenNames.entries

end Model

/-! ## Reading -/

/-- Reads a token id. -/
def TokenId.decode : Decoder TokenId := TokenId.mk <$> decodeSigned

/-- Reads a rule id. -/
def RuleId.decode : Decoder RuleId := RuleId.mk <$> decodeNat32

/-- Reads a symbol. -/
def Symbol.decode : Decoder (Symbol RuleId) := do
  match ← decodeNat32 with
  | 0 => token <$> TokenId.decode
  | 1 => rule <$> RuleId.decode
  | _ => throw .unknownChoice

/-- Reads a node. -/
def Node.decode : Decoder (Node RuleId) := do
  let symbol ← Symbol.decode
  let multiple ← decodeBool
  let required ← decodeBool
  let any ← decodeBool
  return ⟨symbol, ⟨multiple, required⟩, any⟩

/-- Reads a sequence. -/
def Sequence.decode : Decoder (Sequence RuleId) := do
  let nodes ← decodeList Node.decode
  let predicate ← decodeOption decodeText
  return ⟨nodes, predicate⟩

/-- Reads a rule body. -/
def RuleBody.decode : Decoder (RuleBody RuleId) := do
  match ← decodeNat32 with
  | 0 => (tokenSet ∘ OrderedSet.ofList) <$> decodeList TokenId.decode
  | 1 => sequences <$> decodeList Sequence.decode
  | _ => throw .unknownChoice

namespace Model

/-- Reads a rule with its name. -/
def decodeRule : Decoder (String × RuleBody RuleId) := do
  let name ← decodeText
  let body ← RuleBody.decode
  return (name, body)

/-- Reads a token with its name. -/
def decodeTokenName : Decoder (TokenId × String) := do
  let id ← TokenId.decode
  let name ← decodeText
  return (id, name)

/-- Reads a model. -/
def decoder : Decoder Model := do
  let rules ← decodeList decodeRule
  let specialRules ← decodeList RuleId.decode
  let ignoredRules ← decodeList RuleId.decode
  let ignoredTokens ← decodeList TokenId.decode
  let tokenNames ← decodeList decodeTokenName
  return {
    rules := .ofList rules
    specialRules := .ofList specialRules
    ignoredRules := .ofList ignoredRules
    ignoredTokens := .ofList ignoredTokens
    tokenNames := .ofList tokenNames }

/-- The model at the front of a sequence of bytes; what follows it is not looked at. -/
def decode (bytes : Bytes) : Except DecodeError Model :=
  (decoder.run bytes).map Prod.fst

end Model

end GrammarCompletion
