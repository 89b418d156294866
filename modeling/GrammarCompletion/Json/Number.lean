/-
# JSON numbers

The notation of numbers: an optional minus sign, digits without a needless leading zero, an optional
fraction and an optional exponent.  The notation is read one character at a time, by
`Number.Scan.step?`, because only the character after a number shows that it is complete.

A double has a significand of 53 bits, and its magnitude is less than `2 ^ 1024`.  Only what happens
to large natural numbers matters here: which double is nearest to one (`Double.nearest`), and from
which magnitude on there is none (`Double.overflow`).

A number is kept to 64 bits: of its digits, the leading ones that fit are its significand.  Its
magnitude is computed in doubles, as the significand times a power of ten, and it is out of range if
that product is not finite (`Number.inRange`).  Naturals below `2 ^ 64` that are written without
fraction and exponent can serve as indices (`Number.natural?`).
-/

namespace GrammarCompletion.Double

/-- The number of bits of a significand. -/
def significandBits : Nat := 53

/-- The quotient of two numbers, rounded to the nearest number, and to the even one of two. -/
def roundDiv (n d : Nat) : Nat :=
  if 2 * (n % d) < d then n / d
  else if d < 2 * (n % d) then n / d + 1
  else n / d + n / d % 2

/-- The distance between neighbouring doubles around a natural number, where it exceeds one. -/
def spacing (n : Nat) : Nat := Nat.pow 2 (n.log2 + 1 - significandBits)

/-- The double that is nearest to a natural number, if the range of doubles is left aside. -/
def nearest (n : Nat) : Nat := roundDiv n (spacing n) * spacing n

/-- The least magnitude that is rounded up past the largest double. -/
def overflow : Nat := Nat.pow 2 1024 - Nat.pow 2 970

/-- Whether the product of two doubles is rounded to a double. -/
def isFiniteProduct (a b : Nat) : Bool := a * b < overflow

@[simp] theorem roundDiv_one (n : Nat) : roundDiv n 1 = n := by
  simp [roundDiv, Nat.mod_one]

/-- Natural numbers with at most 53 bits are doubles themselves. -/
theorem nearest_of_lt {n : Nat} (h : n < Nat.pow 2 53) : nearest n = n := by
  have hlog : n.log2 + 1 - significandBits = 0 := by
    rcases Nat.eq_zero_or_pos n with rfl | hn
    · decide
    · have := (Nat.log2_lt (Nat.pos_iff_ne_zero.1 hn)).2 h
      simp only [significandBits]
      omega
  simp [nearest, spacing, hlog]

example : nearest (2 ^ 53 + 1) = 2 ^ 53 ∧ nearest (2 ^ 53 + 3) = 2 ^ 53 + 4 := by decide

end GrammarCompletion.Double

namespace GrammarCompletion.Json

/-- A number as far as its notation is kept: `± significand * 10 ^ exponent`. -/
structure Number where
  /-- Whether there is a minus sign. -/
  negative : Bool
  /-- The leading digits that are kept, as one natural number. -/
  significand : Nat
  /-- The power of ten by which the significand is multiplied. -/
  exponent : Int
  /-- Whether there is neither a point nor an exponent. -/
  isPlain : Bool
deriving DecidableEq

namespace Number

/-- Significands are less than this. -/
def significandBound : Nat := Nat.pow 2 64

/-- The largest power of ten that is a double. -/
def maxExponent : Nat := 308

/-- The natural number below `2 ^ 64` that is written without sign, fraction and exponent. -/
def natural? (n : Number) : Option Nat :=
  if !n.negative && n.isPlain && n.exponent = 0 then some n.significand else none

/-- Whether the magnitude, computed in doubles, is finite. -/
def inRange (n : Number) : Bool :=
  n.significand = 0 || n.exponent ≤ 0 ||
    (n.exponent ≤ maxExponent &&
      Double.isFiniteProduct (Double.nearest n.significand)
        (Double.nearest (Nat.pow 10 n.exponent.toNat)))

/-- How far the notation of a number was read. -/
inductive Phase where
  /-- A minus sign was read, and a digit has to follow. -/
  | sign
  /-- A leading zero was read. -/
  | zero
  /-- Digits before the point were read. -/
  | whole
  /-- The point was read, and a digit has to follow. -/
  | point
  /-- Digits after the point were read. -/
  | fraction
  /-- The letter of the exponent was read, and a sign or a digit has to follow. -/
  | letter
  /-- The sign of the exponent was read, and a digit has to follow. -/
  | exponentSign
  /-- Digits of the exponent were read. -/
  | exponent
deriving DecidableEq

/-- Whether a number may end in a phase. -/
def Phase.isComplete : Phase → Bool
  | .zero | .whole | .fraction | .exponent => true
  | .sign | .point | .letter | .exponentSign => false

/-- A number that was read in part. -/
structure Scan where
  /-- How far it was read. -/
  phase : Phase
  /-- Whether there is a minus sign. -/
  negative : Bool
  /-- The leading digits that are kept. -/
  significand : Nat
  /-- The power of ten that belongs to the significand, apart from the written exponent. -/
  scale : Int
  /-- Whether digits are dropped, up to the point or up to the exponent. -/
  dropping : Bool
  /-- Whether the exponent has a minus sign. -/
  exponentNegative : Bool
  /-- The digits of the exponent. -/
  exponentDigits : Nat
deriving DecidableEq

namespace Scan

/-- The value of a decimal digit. -/
def digit? (c : Char) : Option Nat :=
  if c.isDigit then some (c.toNat - '0'.toNat) else none

/-- The scan before the first character. -/
def initial : Scan where
  phase := .sign
  negative := false
  significand := 0
  scale := 0
  dropping := false
  exponentNegative := false
  exponentDigits := 0

/-- Starts to read a number, if the character can be its first one. -/
def start? (c : Char) : Option Scan :=
  if c = '-' then some { initial with negative := true }
  else (digit? c).map fun d => { initial with phase := if d = 0 then .zero else .whole, significand := d }

/-- Whether another digit fits into the significand. -/
def hasRoom (n : Scan) (d : Nat) : Bool :=
  !n.dropping && 10 * n.significand + d < significandBound

/-- Reads a digit before the point; one that is dropped counts as a factor of ten. -/
def pushWhole (n : Scan) (d : Nat) : Scan :=
  if n.hasRoom d then { n with phase := .whole, significand := 10 * n.significand + d }
  else { n with phase := .whole, scale := n.scale + 1, dropping := true }

/-- Reads the point.  Behind it, digits are kept again as long as there is room. -/
def pushPoint (n : Scan) : Scan :=
  { n with phase := .point, dropping := false }

/-- Reads a digit after the point; one that is dropped does not count. -/
def pushFraction (n : Scan) (d : Nat) : Scan :=
  if n.hasRoom d then
    { n with phase := .fraction, significand := 10 * n.significand + d, scale := n.scale - 1 }
  else { n with phase := .fraction, dropping := true }

/-- Reads a digit of the exponent. -/
def pushExponent (n : Scan) (d : Nat) : Scan :=
  { n with phase := .exponent, exponentDigits := 10 * n.exponentDigits + d }

/-- Whether the character must not stand where it does: no digit follows a leading zero. -/
def forbids (n : Scan) (c : Char) : Bool :=
  n.phase = .zero && (digit? c).isSome

/-- Reads one more character, if it can continue the number. -/
def step? (n : Scan) (c : Char) : Option Scan :=
  match n.phase, digit? c with
  | .sign, some d => some { n with phase := if d = 0 then .zero else .whole, significand := d }
  | .whole, some d => some (n.pushWhole d)
  | .point, some d | .fraction, some d => some (n.pushFraction d)
  | .letter, some d | .exponentSign, some d | .exponent, some d => some (n.pushExponent d)
  | .zero, none | .whole, none =>
    if c = '.' then some n.pushPoint
    else if c = 'e' || c = 'E' then some { n with phase := .letter }
    else none
  | .fraction, none => if c = 'e' || c = 'E' then some { n with phase := .letter } else none
  | .letter, none =>
    if c = '+' || c = '-' then some { n with phase := .exponentSign, exponentNegative := c = '-' }
    else none
  | _, _ => none

/-- The number that was read, if it may end here. -/
def finish? (n : Scan) : Option Number :=
  if n.phase.isComplete then
    some
      { negative := n.negative
        significand := n.significand
        exponent :=
          n.scale + (if n.exponentNegative then -(n.exponentDigits : Int) else n.exponentDigits)
        isPlain := n.phase = .zero || n.phase = .whole }
  else none

end Scan

end Number

end GrammarCompletion.Json
