/-
# Tokens and repetition

What grammars and models have in common.  A lexer gives every kind of token a number, and two numbers
are set apart: `TokenId.eof` marks the end of the input, and `TokenId.wildcard`, which no lexer
produces, stands for "any token".  A `Cardinality` says how often an element may occur in a row.
-/
import GrammarCompletion.Text

namespace GrammarCompletion

/-! ## Token ids -/

/-- The kind of a token, as numbered by the lexer. -/
structure TokenId where
  /-- The number. -/
  value : Int32
deriving DecidableEq

namespace TokenId

/-- The end of the input. -/
def eof : TokenId := ⟨-1⟩

/-- The wildcard element of a grammar. -/
def wildcard : TokenId := ⟨-2⟩

instance : Inhabited TokenId := ⟨eof⟩

instance : ToString TokenId where
  toString t := toString t.value.toInt

/-- The id with a given number, if it fits into 32 bits. -/
def ofInt? (n : Int) : Option TokenId :=
  if Int32.minValue.toInt ≤ n ∧ n ≤ Int32.maxValue.toInt then some ⟨Int32.ofInt n⟩ else none

/-- Reads an id in decimal notation. -/
def read? (l : List Char) : Option TokenId :=
  (Text.readInt? l).bind ofInt?

theorem ofInt?_toInt (t : TokenId) : ofInt? t.value.toInt = some t := by
  have h₁ := t.value.minValue_le_toInt
  have h₂ := t.value.toInt_le
  simp only [ofInt?]
  rw [if_pos ⟨h₁, h₂⟩, Int32.ofInt_toInt]

/-- An id is the id of its own number only. -/
theorem ofInt?_eq_some_iff {n : Int} {t : TokenId} : ofInt? n = some t ↔ t.value.toInt = n := by
  refine ⟨fun h => ?_, fun h => h ▸ ofInt?_toInt t⟩
  rw [ofInt?] at h
  split at h
  · next hn =>
    obtain rfl := Option.some.inj h
    exact Int32.toInt_ofInt_of_le hn.1 (Int.lt_of_le_of_lt hn.2 (by decide))
  · simp at h

end TokenId

/-! ## Cardinalities -/

/-- How often an element may occur in a row. -/
structure Cardinality where
  /-- Whether it may occur more than once. -/
  multiple : Bool
  /-- Whether it has to occur at least once. -/
  required : Bool
deriving DecidableEq

namespace Cardinality

/-- Exactly once. -/
def one : Cardinality := ⟨false, true⟩

/-- At most once. -/
def optional : Cardinality := ⟨false, false⟩

/-- Any number of times. -/
def zeroOrMore : Cardinality := ⟨true, false⟩

/-- At least once. -/
def oneOrMore : Cardinality := ⟨true, true⟩

instance : Inhabited Cardinality := ⟨one⟩

/-- The operator that is written after an element. -/
def suffix : Cardinality → String
  | ⟨false, true⟩ => ""
  | ⟨false, false⟩ => "?"
  | ⟨true, false⟩ => "*"
  | ⟨true, true⟩ => "+"

/-- The cardinality that an operator denotes. -/
def ofSuffix? (s : String) : Option Cardinality :=
  [one, optional, zeroOrMore, oneOrMore].find? fun c => c.suffix = s

theorem ofSuffix?_suffix (c : Cardinality) : ofSuffix? c.suffix = some c := by
  obtain ⟨m, r⟩ := c
  cases m <;> cases r <;> decide

/-- An operator denotes the one cardinality that is written with it. -/
theorem ofSuffix?_eq_some_iff {s : String} {c : Cardinality} :
    ofSuffix? s = some c ↔ c.suffix = s := by
  refine ⟨fun h => ?_, fun h => h ▸ ofSuffix?_suffix c⟩
  simpa using List.find?_some h

end Cardinality

end GrammarCompletion
