/-
# Bytes

The building blocks of the binary form.  A natural number is written in groups of seven bits, the
lowest first; every byte but the last carries the mark `128`.  A signed number is written as the
natural number that counts the integers in the order `0, -1, 1, -2, …`.

A decoder takes a value off the front of a sequence of bytes, or says what is wrong with it.  The
first problem in the order of the bytes is the one that is reported.  A number of 32 bits has at most
five groups of seven bits and a length of 64 bits at most ten; the last group permitted may only hold
the bits that are left.  Fewer groups than permitted may be more than needed.
-/

namespace GrammarCompletion.Binary

/-! ## Writing -/

/-- A sequence of bytes. -/
abbrev Bytes := List UInt8

/-- Writes a number in at most `k + 1` groups of seven bits. -/
def encodeGroups : (k : Nat) → Nat → Bytes
  | 0, n => [UInt8.ofNat n]
  | k + 1, n =>
    if n < 128 then [UInt8.ofNat n] else UInt8.ofNat (n % 128 + 128) :: encodeGroups k (n / 128)

/-- The bytes of a natural number, in as few groups as possible. -/
def encodeNat (n : Nat) : Bytes := encodeGroups n n

/-- The place of an integer in the order `0, -1, 1, -2, …`. -/
def zigzag (i : Int) : Nat :=
  if 0 ≤ i then 2 * i.toNat else 2 * (-i).toNat - 1

/-- The bytes of a signed number. -/
def encodeSigned (i : Int32) : Bytes := encodeNat (zigzag i.toInt)

/-- The byte of a truth value. -/
def encodeBool (b : Bool) : Bytes := [if b then 1 else 0]

/-- The bytes of a text: the length of its UTF-8 form, and that form. -/
def encodeText (s : String) : Bytes :=
  encodeNat s.utf8ByteSize ++ s.toUTF8.data.toList

/-- The bytes of a value that may be absent. -/
def encodeOption {α : Type} (f : α → Bytes) : Option α → Bytes
  | none => [0]
  | some a => 1 :: f a

/-- The bytes of a list: its length, and its items. -/
def encodeList {α : Type} (f : α → Bytes) (l : List α) : Bytes :=
  encodeNat l.length ++ l.flatMap f

example : encodeNat 300 = [172, 2] := by decide

example : [0, -1, 1, -2].map zigzag = [0, 1, 2, 3] := by decide

/-! ## Reading -/

/-- Why a sequence of bytes is refused. -/
inductive DecodeError where
  /-- It ends too early. -/
  | endOfBuffer
  /-- A number has too many groups or too many bits. -/
  | endlessNumber
  /-- A truth value is neither zero nor one. -/
  | badBool
  /-- The mark of a value that may be absent is neither zero nor one. -/
  | badOption
  /-- A text is not in UTF-8. -/
  | badText
  /-- A choice has no alternative of that number. -/
  | unknownChoice
deriving DecidableEq

/-- What is reported for bytes that are refused. -/
def DecodeError.message : DecodeError → String
  | .endOfBuffer => "binary decode error: Hit the end of buffer, expected more data"
  | .endlessNumber =>
    "binary decode error: Found a varint that didn't terminate. " ++
      "Is the usize too big for this platform?"
  | .badBool => "binary decode error: Found a bool that wasn't 0 or 1"
  | .badOption => "binary decode error: Found an Option discriminant that wasn't 0 or 1"
  | .badText => "binary decode error: Tried to parse invalid utf-8"
  | .unknownChoice => "binary decode error: Serde Deserialization Error"

/-- Takes a value off the front of a sequence of bytes. -/
abbrev Decoder (α : Type) := StateT Bytes (Except DecodeError) α

/-- Takes one byte. -/
def takeByte : Decoder UInt8
  | [] => .error .endOfBuffer
  | b :: rest => .ok (b, rest)

/-- Takes a number of bytes. -/
def takeBytes (n : Nat) : Decoder Bytes
  | bytes => if bytes.length < n then .error .endOfBuffer else .ok (bytes.splitAt n)

/-- Reads a number of at most `k + 1` groups, the last of which is at most `top`. -/
def decodeGroups (top : Nat) : (k : Nat) → Decoder Nat
  | 0 => do
    let b ← takeByte
    if b.toNat ≤ top then return b.toNat else throw .endlessNumber
  | k + 1 => do
    let b ← takeByte
    if b.toNat < 128 then return b.toNat
    else do
      let high ← decodeGroups top k
      return b.toNat - 128 + 128 * high

/-- Reads a natural number of 32 bits. -/
def decodeNat32 : Decoder Nat := decodeGroups 15 4

/-- Reads a length, a natural number of 64 bits. -/
def decodeLength : Decoder Nat := decodeGroups 1 9

/-- The integer at a place in the order `0, -1, 1, -2, …`. -/
def unzigzag (n : Nat) : Int :=
  if n % 2 = 0 then (n / 2 : Nat) else -((n / 2 : Nat) : Int) - 1

/-- Reads a signed number of 32 bits. -/
def decodeSigned : Decoder Int32 := do
  return Int32.ofInt (unzigzag (← decodeNat32))

/-- Reads a truth value. -/
def decodeBool : Decoder Bool := do
  let b ← takeByte
  if b = 0 then return false
  else if b = 1 then return true
  else throw .badBool

/-- Reads a text. -/
def decodeText : Decoder String := do
  let bytes ← takeBytes (← decodeLength)
  match String.fromUTF8? ⟨bytes.toArray⟩ with
  | some s => return s
  | none => throw .badText

/-- Reads a value that may be absent. -/
def decodeOption {α : Type} (d : Decoder α) : Decoder (Option α) := do
  let b ← takeByte
  if b = 0 then return none
  else if b = 1 then some <$> d
  else throw .badOption

/-- Reads a number of values. -/
def decodeMany {α : Type} (d : Decoder α) : Nat → Decoder (List α)
  | 0 => return []
  | n + 1 => do
    let a ← d
    let rest ← decodeMany d n
    return a :: rest

/-- Reads a list: its length, and its items. -/
def decodeList {α : Type} (d : Decoder α) : Decoder (List α) := do
  decodeMany d (← decodeLength)

end GrammarCompletion.Binary
