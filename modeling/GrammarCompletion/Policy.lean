/-
# Completion policies

A policy names the rules and tokens of a grammar that a completion treats specially.  It is written
as a JSON object with three optional fields, or as an array of their values in the order of the
fields, of which trailing ones may be left out.
-/
import GrammarCompletion.Json.Reader

namespace GrammarCompletion

/-- The rules and tokens that a completion treats specially, by name. -/
structure Policy where
  /-- Rules that are offered under their own name instead of being entered. -/
  specialRules : List String := []
  /-- Rules that are never entered in search of candidates. -/
  ignoredRules : List String := []
  /-- Tokens that are never offered. -/
  ignoredTokens : List String := []
deriving DecidableEq

namespace Policy

instance : Inhabited Policy := ⟨{}⟩

/-- The policy with further special rules. -/
def addSpecialRules (p : Policy) (names : List String) : Policy :=
  { p with specialRules := p.specialRules ++ names }

/-- The policy with further ignored rules. -/
def addIgnoredRules (p : Policy) (names : List String) : Policy :=
  { p with ignoredRules := p.ignoredRules ++ names }

/-- The policy with further ignored tokens. -/
def addIgnoredTokens (p : Policy) (names : List String) : Policy :=
  { p with ignoredTokens := p.ignoredTokens ++ names }

/-- The lists of a policy, as far as they were given. -/
structure Parts where
  /-- The special rules. -/
  specialRules : Option (List String) := none
  /-- The ignored rules. -/
  ignoredRules : Option (List String) := none
  /-- The ignored tokens. -/
  ignoredTokens : Option (List String) := none

/-- Takes in one more member of an object.  Other names than those of the fields are refused. -/
def Parts.set (p : Parts) (name : String) (v : Json) : Except Json.Fault Parts :=
  if name = "special_rules" then do
    return { p with specialRules := ← Json.once v.asStrings p.specialRules }
  else if name = "ignored_rules" then do
    return { p with ignoredRules := ← Json.once v.asStrings p.ignoredRules }
  else if name = "ignored_tokens" then do
    return { p with ignoredTokens := ← Json.once v.asStrings p.ignoredTokens }
  else .error .mismatched

/-- The policy with the lists that were given; the others are empty. -/
def Parts.assemble (p : Parts) : Policy where
  specialRules := p.specialRules.getD []
  ignoredRules := p.ignoredRules.getD []
  ignoredTokens := p.ignoredTokens.getD []

/-- The policy that a JSON value describes.  An array may not go on after its third item: what
follows is not part of the value. -/
def ofJson : Json → Except Json.Fault Policy
  | .object members cut => do
    let parts ← members.foldlM (fun p m => p.set m.1 m.2) ({} : Parts)
    Json.demandNone cut
    return parts.assemble
  | .array items cut => do
    let lists ← (items.take 3).mapM Json.asStrings
    if 3 < items.length then throw .malformed
    Json.demandNone cut
    return Parts.assemble ⟨lists[0]?, lists[1]?, lists[2]?⟩
  | .broken f => .error f
  | _ => .error .mismatched

/-- Reads a policy from a JSON text. -/
def read (text : String) : Except Json.Fault Policy :=
  (Json.read (fun _ => true) text).decode ofJson

end Policy

end GrammarCompletion
