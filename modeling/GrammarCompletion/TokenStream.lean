/-
# Token streams

A token stream is a sequence of lexed tokens that is closed by one token for the end of the input.
Positions in it are numbers: the position of a token of the body is its index, and every later
position is the end of the input.  Tokens on a channel other than the default one are hidden from
the grammar and are stepped over.

A caret is the place in a text for which a completion is asked: between two characters, given by a
line that is counted from one and a column that is counted from zero.  Two questions relate a stream
to a caret: from which position on input must not be consumed (`TokenStream.reached`), and which
token the caret is writing (`TokenStream.tokenAt?`).
-/
import GrammarCompletion.Basic

namespace GrammarCompletion

/-! ## Carets -/

/-- A place between two characters of a text. -/
structure Caret where
  /-- The line, counted from one. -/
  line : Nat
  /-- The number of characters between the start of the line and the caret. -/
  column : Nat
deriving DecidableEq

namespace Caret

/-- The place in front of the first character. -/
def start : Caret := ⟨1, 0⟩

/-- The place on the other side of the character that follows the caret. -/
def step (caret : Caret) (c : Char) : Caret :=
  if c = '\n' then ⟨caret.line + 1, 0⟩ else ⟨caret.line, caret.column + 1⟩

/-- The place after the first `offset` characters of a text, or after its last one. -/
def ofOffset (text : String) (offset : Nat) : Caret :=
  (text.toList.take offset).foldl step start

end Caret

/-! ## Tokens -/

/-- A lexed token, which stands on one line. -/
structure Token where
  /-- The kind. -/
  kind : TokenId
  /-- The characters. -/
  text : String
  /-- The line, counted from one. -/
  line : Nat
  /-- The column of the first character, counted from zero. -/
  start : Nat
  /-- The column just past the last character. -/
  stop : Nat
  /-- The channel; the grammar sees the tokens on channel `0` only. -/
  channel : Nat
deriving DecidableEq

namespace Token

/-- The channel of the tokens that the grammar sees. -/
def defaultChannel : Nat := 0

/-- The token with the given text, on the default channel. -/
def ofText (kind : TokenId) (text : String) (line start : Nat) : Token where
  kind := kind
  text := text
  line := line
  start := start
  stop := start + text.length
  channel := defaultChannel

/-- The mark for the end of the input, which has no width. -/
def eof (line column : Nat) : Token :=
  ofText .eof "" line column

/-- Whether the grammar does not see the token. -/
def isHidden (t : Token) : Bool :=
  t.channel != defaultChannel

end Token

/-- A sequence of tokens that is closed by a mark for the end of the input. -/
structure TokenStream where
  /-- The tokens before the closing one. -/
  body : Array Token
  /-- The closing token. -/
  final : Token
  /-- The kinds that part other tokens without blanks, such as commas and brackets. -/
  isSeparator : TokenId → Bool

namespace TokenStream

/-- The mark that closes a list of tokens without one: it stands where the last token ends. -/
def closing (tokens : List Token) : Token :=
  match tokens.getLast? with
  | some last => .eof last.line last.stop
  | none => .eof 1 0

/-- The stream of a list of tokens, which gets a closing token unless its last token is one. -/
def ofTokens (tokens : List Token) (isSeparator : TokenId → Bool) : TokenStream :=
  match tokens.getLast? with
  | some last =>
    if last.kind = .eof then ⟨tokens.dropLast.toArray, last, isSeparator⟩
    else ⟨tokens.toArray, closing tokens, isSeparator⟩
  | none => ⟨#[], closing tokens, isSeparator⟩

variable (s : TokenStream)

/-- All tokens, with the closing one. -/
def toList : List Token := s.body.toList ++ [s.final]

/-- The number of tokens before the closing one, which is the position of the end of the input. -/
def size : Nat := s.body.size

/-- Whether a position is the end of the input. -/
def atEnd (p : Nat) : Bool := s.size ≤ p

/-- The token at a position; every position past the body is at the closing token. -/
def token (p : Nat) : Token := s.body.getD p s.final

/-- The kind of the token at a position. -/
def kind (p : Nat) : TokenId := (s.token p).kind

/-- The position itself if it lies in the stream, and the end of the input otherwise. -/
def clamp (p : Nat) : Nat := min p s.size

/-- Steps over hidden tokens, at most `n` of them. -/
def skipFrom : (n : Nat) → (p : Nat) → Nat
  | 0, p => p
  | n + 1, p => if (s.token p).isHidden then skipFrom n (p + 1) else p

/-- The first position from `p` on that is not hidden; the end of the input is never stepped over. -/
def skipHidden (p : Nat) : Nat := s.skipFrom (s.size - p) p

/-- The next position, hidden or not; the end of the input is the last one. -/
def next (p : Nat) : Nat := if s.atEnd p then p else p + 1

/-- The next position that is not hidden. -/
def advance (p : Nat) : Nat := if s.atEnd p then p else s.skipHidden (p + 1)

/-- Whether the caret stands at or before the end of the token at `p`, so that input must not be
consumed from there on.  On the line of the caret, a separator counts only if it ends strictly
after the caret; any other token also counts if it ends at the caret, because a character typed
there would belong to it. -/
def reached (caret : Caret) (p : Nat) : Bool :=
  s.atEnd p ||
    let t := s.token p
    if caret.line < t.line then true
    else if t.line < caret.line then false
    else if s.isSeparator t.kind then caret.column < t.stop
    else caret.column ≤ t.stop

/-- Whether the caret is inside a token or touches its end, and the token is one that typing
extends. -/
def isTouched (caret : Caret) (t : Token) : Bool :=
  !t.isHidden && !s.isSeparator t.kind && t.line == caret.line
    && decide (t.start < caret.column) && decide (caret.column ≤ t.stop)

/-- The token that the caret is writing. -/
def tokenAt? (caret : Caret) : Option Token :=
  s.body.find? (s.isTouched caret)

/-- The part of the token at the caret that is typed already. -/
def typedPart? (caret : Caret) : Option String :=
  (s.tokenAt? caret).map fun t => String.ofList (t.text.toList.take (caret.column - t.start))

/-! ## Positions -/

variable {s : TokenStream} {n p : Nat} {caret : Caret}

theorem atEnd_iff : s.atEnd p = true ↔ s.size ≤ p := by simp [atEnd]

theorem token_of_atEnd (h : s.atEnd p = true) : s.token p = s.final := by
  have h : s.body.size ≤ p := atEnd_iff.1 h
  simp [token, Array.getElem?_eq_none h]

/-- The end of the input is never consumed. -/
theorem reached_of_atEnd (h : s.atEnd p = true) : s.reached caret p = true := by
  simp [reached, h]

theorem le_skipFrom : p ≤ s.skipFrom n p := by
  induction n generalizing p with
  | zero => exact Nat.le_refl p
  | succ n ih =>
    simp only [skipFrom]
    split
    · exact Nat.le_of_succ_le ih
    · exact Nat.le_refl p

theorem skipFrom_le : s.skipFrom n p ≤ p + n := by
  induction n generalizing p with
  | zero => exact Nat.le_refl p
  | succ n ih =>
    simp only [skipFrom]
    split
    · have := @ih (p + 1)
      omega
    · omega

theorem isHidden_skipFrom (h : s.skipFrom n p < p + n) :
    (s.token (s.skipFrom n p)).isHidden = false := by
  induction n generalizing p with
  | zero => exact absurd h (Nat.lt_irrefl p)
  | succ n ih =>
    rw [skipFrom] at h ⊢
    split
    · next hp => exact ih (by simp only [hp, if_true] at h; omega)
    · next hp => simpa using hp

theorem le_skipHidden : p ≤ s.skipHidden p := le_skipFrom

theorem skipHidden_le_size (h : p ≤ s.size) : s.skipHidden p ≤ s.size := by
  have := s.skipFrom_le (n := s.size - p) (p := p)
  rw [skipHidden]
  omega

/-- Only the end of the input may be hidden where stepping over hidden tokens stops. -/
theorem isHidden_skipHidden (h : s.skipHidden p < s.size) :
    (s.token (s.skipHidden p)).isHidden = false := by
  have hp : p ≤ s.skipHidden p := le_skipHidden
  exact isHidden_skipFrom (by rw [skipHidden] at h hp; omega)

/-- Before the end of the input an advance is progress. -/
theorem lt_advance (h : p < s.size) : p < s.advance p := by
  have hp : s.atEnd p = false := by simpa [atEnd] using h
  simp only [advance, hp, Bool.false_eq_true, if_false]
  exact le_skipHidden

theorem advance_le_size (h : p ≤ s.size) : s.advance p ≤ s.size := by
  rw [advance]
  split
  · exact h
  · next hp => exact skipHidden_le_size (by simp [atEnd] at hp; omega)

end TokenStream

end GrammarCompletion
