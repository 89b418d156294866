/-
# Reading JSON texts

A JSON text is read by a machine that takes one character at a time.  Its state is what the text so
far demands next (`Mode`) together with the containers that are open (`Frame`, the innermost one
first).  `Reader.step` is one step; reading a text is the fold of `step` over its characters, so
reading a text and then another is reading the two in a row.

A text that breaks the grammar stops the machine for good, and a text that ends before its value is
complete is unfinished; what was read up to there is kept.  At most `depthLimit` containers may be
open at once.

Of an object that is the whole text, only the members with known names are read.  The others are
passed over: their values have to follow the grammar, but they may lie inside each other without
limit, a number may be of any size, and an escape may denote half a surrogate pair.

Within a string a backslash starts an escape: one letter that stands for a character, or `u` and four
hexadecimal digits for a code unit.  A character past the first 65536 is written as two code units,
a leading and a trailing surrogate.
-/
import GrammarCompletion.Json.Basic

namespace GrammarCompletion.Json

/-! ## Escapes -/

/-- How far an escape within a string was read. -/
inductive Escape where
  /-- There is no escape. -/
  | none
  /-- A backslash was read. -/
  | backslash
  /-- A numeric escape was read in part: the bytes of it that were read, the code unit they denote
  or `none` if they are not hexadecimal digits, and the leading surrogate before it. -/
  | hex (bytes : Nat) (unit : Option Nat) (lead : Option Nat)
  /-- A leading surrogate was read, and another numeric escape has to follow. -/
  | lead (unit : Nat)
  /-- A leading surrogate and a backslash were read. -/
  | leadBackslash (unit : Nat)
deriving DecidableEq

/-- The value of a hexadecimal digit. -/
def hexDigit? (c : Char) : Option Nat :=
  if '0' ≤ c && c ≤ '9' then some (c.toNat - '0'.toNat)
  else if 'a' ≤ c && c ≤ 'f' then some (c.toNat - 'a'.toNat + 10)
  else if 'A' ≤ c && c ≤ 'F' then some (c.toNat - 'A'.toNat + 10)
  else none

/-- The character that a one-letter escape denotes. -/
def shortEscape? (c : Char) : Option Char :=
  if c = '"' || c = '\\' || c = '/' then some c
  else if c = 'b' then some '\x08'
  else if c = 'f' then some '\x0c'
  else if c = 'n' then some '\n'
  else if c = 'r' then some '\r'
  else if c = 't' then some '\t'
  else none

/-- Whether a code unit is the first half of a surrogate pair. -/
def isLeadSurrogate (unit : Nat) : Bool :=
  0xd800 ≤ unit && unit < 0xdc00

/-- Whether a code unit is the second half of a surrogate pair. -/
def isTrailSurrogate (unit : Nat) : Bool :=
  0xdc00 ≤ unit && unit < 0xe000

/-- The character that a surrogate pair denotes. -/
def pairChar (lead trail : Nat) : Char :=
  Char.ofNat (0x10000 + (lead - 0xd800) * 0x400 + (trail - 0xdc00))

example : pairChar 0xd83d 0xde00 = '😀' := by decide

/-! ## Open containers -/

/-- A container that is open. -/
inductive Frame where
  /-- An array with the items read so far, the newest first. -/
  | array (items : List Json)
  /-- An object with the members read so far, the newest first. -/
  | object (members : List (String × Json))
  /-- An object of which the name of the next member was read already. -/
  | member (members : List (String × Json)) (name : String)
  /-- An object of which the next member is passed over. -/
  | passing (members : List (String × Json))
  /-- An array that is passed over. -/
  | passedArray
  /-- An object that is passed over. -/
  | passedObject
  /-- An object that is passed over, of which the name of the next member was read already. -/
  | passedMember

/-- Whether what comes next within the container is passed over. -/
def Frame.isPassed : Frame → Bool
  | .array _ | .object _ | .member _ _ => false
  | .passing _ | .passedArray | .passedObject | .passedMember => true

/-- The container when the text stops, given the value that it stops in. -/
def Frame.leave (f : Fault) (v : Json) : Frame → Json
  | .array items => .array (v :: items).reverse (some f)
  | .member members name => .object ((name, v) :: members).reverse (some f)
  | .object members | .passing members => .object members.reverse (some f)
  | .passedArray | .passedObject | .passedMember => v

namespace Frame

/-- Whether what comes next is passed over. -/
def areaPassed (stack : List Frame) : Bool :=
  stack.head?.any isPassed

/-- What was read of a text that stops in a value. -/
def leaveAll (f : Fault) (v : Json) (stack : List Frame) : Json :=
  stack.foldl (leave f) v

/-- What was read of a text that stops where a comma or the end of the innermost container is
due. -/
def leaveBehind (f : Fault) : List Frame → Json
  | .array items :: stack => leaveAll f (.array items.reverse (some f)) stack
  | stack => leaveAll f (.broken f) stack

end Frame

/-! ## The machine -/

/-- What the text so far demands next. -/
inductive Mode where
  /-- A value, or the end of the array if it may be closed here. -/
  | value (closable : Bool)
  /-- The name of a member, or the end of the object if it may be closed here. -/
  | member (closable : Bool)
  /-- The colon between the name and the value of a member. -/
  | colon
  /-- A comma, or the end of the innermost container. -/
  | separator
  /-- The rest of a string, of which the characters so far are given with the newest first. -/
  | string (chars : List Char) (escape : Escape)
  /-- The rest of a number, or what comes after it. -/
  | number (n : Number.Scan)
  /-- The given letters, which complete a literal. -/
  | word (rest : List Char) (v : Json)
  /-- Nothing but blanks. -/
  | done (v : Json)
  /-- Nothing, because the text broke the grammar. -/
  | stopped (v : Json)

/-- The state of reading a JSON text. -/
structure Reader where
  /-- The open containers, the innermost one first. -/
  stack : List Frame
  /-- What comes next. -/
  mode : Mode

/-- The largest number of containers that may be open at once. -/
def depthLimit : Nat := 127

/-- The characters that may stand between any two tokens. -/
def isSpace (c : Char) : Bool :=
  c = ' ' || c = '\n' || c = '\t' || c = '\r'

namespace Reader

/-- The text broke the grammar in a value or in the name of a member. -/
def fail (stack : List Frame) : Reader :=
  ⟨[], .stopped (Frame.leaveAll .malformed (.broken .malformed) stack)⟩

/-- The text broke the grammar where a comma or the end of the innermost container was due. -/
def failBehind (stack : List Frame) : Reader :=
  ⟨[], .stopped (Frame.leaveBehind .malformed stack)⟩

/-- Puts a complete value into the innermost container. -/
def deliver (v : Json) : List Frame → Reader
  | [] => ⟨[], .done v⟩
  | .array items :: stack => ⟨.array (v :: items) :: stack, .separator⟩
  | .member members name :: stack => ⟨.object ((name, v) :: members) :: stack, .separator⟩
  | .passing members :: stack => ⟨.object members :: stack, .separator⟩
  | .passedArray :: stack => ⟨.passedArray :: stack, .separator⟩
  | .passedMember :: stack => ⟨.passedObject :: stack, .separator⟩
  | stack => fail stack

/-- Opens an array. -/
def openArray (stack : List Frame) : Reader :=
  if Frame.areaPassed stack then ⟨.passedArray :: stack, .value true⟩
  else if stack.length < depthLimit then ⟨.array [] :: stack, .value true⟩
  else failBehind (.array [] :: stack)

/-- Opens an object. -/
def openObject (stack : List Frame) : Reader :=
  if Frame.areaPassed stack then ⟨.passedObject :: stack, .member true⟩
  else if stack.length < depthLimit then ⟨.object [] :: stack, .member true⟩
  else failBehind (.object [] :: stack)

/-- Closes the innermost container, which has to be an array. -/
def closeArray : List Frame → Reader
  | .array items :: stack => deliver (.array items.reverse none) stack
  | .passedArray :: stack => deliver .null stack
  | stack => failBehind stack

/-- Closes the innermost container, which has to be an object. -/
def closeObject : List Frame → Reader
  | .object members :: stack => deliver (.object members.reverse none) stack
  | .passedObject :: stack => deliver .null stack
  | stack => failBehind stack

/-- Reads a comma after a complete item or member. -/
def comma : List Frame → Reader
  | .array items :: stack => ⟨.array items :: stack, .value false⟩
  | .passedArray :: stack => ⟨.passedArray :: stack, .value false⟩
  | .object members :: stack => ⟨.object members :: stack, .member false⟩
  | .passedObject :: stack => ⟨.passedObject :: stack, .member false⟩
  | stack => failBehind stack

/-- Reads the first character of a value. -/
def startValue (stack : List Frame) (c : Char) : Reader :=
  if c = '"' then ⟨stack, .string [] .none⟩
  else if c = '[' then openArray stack
  else if c = '{' then openObject stack
  else if c = 't' then ⟨stack, .word "rue".toList (.bool true)⟩
  else if c = 'f' then ⟨stack, .word "alse".toList (.bool false)⟩
  else if c = 'n' then ⟨stack, .word "ull".toList .null⟩
  else
    match Number.Scan.start? c with
    | some n => ⟨stack, .number n⟩
    | none => fail stack

/-- Reads a character where a comma or the end of the innermost container is due. -/
def separate (stack : List Frame) (c : Char) : Reader :=
  if isSpace c then ⟨stack, .separator⟩
  else if c = ',' then comma stack
  else if c = ']' then closeArray stack
  else if c = '}' then closeObject stack
  else failBehind stack

/-- Takes in a code unit that was written as a numeric escape, given the leading surrogate before
it. -/
def acceptUnit (stack : List Frame) (chars : List Char) (unit : Nat) (lead : Option Nat) : Reader :=
  if Frame.areaPassed stack then ⟨stack, .string chars .none⟩
  else
    match lead with
    | none =>
      if isLeadSurrogate unit then ⟨stack, .string chars (.lead unit)⟩
      else if isTrailSurrogate unit then fail stack
      else ⟨stack, .string (Char.ofNat unit :: chars) .none⟩
    | some lead =>
      if isTrailSurrogate unit then ⟨stack, .string (pairChar lead unit :: chars) .none⟩
      else fail stack

/-- Reads a character of a numeric escape.  An escape is four bytes long; only after the fourth is
it checked, so that a text that ends before is unfinished whatever the bytes are. -/
def stepHex (stack : List Frame) (chars : List Char) (bytes : Nat) (unit : Option Nat)
    (lead : Option Nat) (c : Char) : Reader :=
  let bytes := bytes + c.utf8Size
  let unit := unit.bind fun u => (hexDigit? c).map fun d => 16 * u + d
  if bytes < 4 then ⟨stack, .string chars (.hex bytes unit lead)⟩
  else
    match unit with
    | some u => acceptUnit stack chars u lead
    | none => fail stack

/-- Completes a number. -/
def closeNumber (stack : List Frame) (n : Number.Scan) : Reader :=
  match n.finish? with
  | some n =>
    if n.inRange || Frame.areaPassed stack then deliver (.number n) stack else fail stack
  | none => fail stack

/-- Reads one character in a mode in which no token is under way. -/
def stepBetween (stack : List Frame) (mode : Mode) (c : Char) : Reader :=
  match mode with
  | .value closable =>
    if isSpace c then ⟨stack, .value closable⟩
    else if closable && c = ']' then closeArray stack
    else startValue stack c
  | .member closable =>
    if isSpace c then ⟨stack, .member closable⟩
    else if closable && c = '}' then closeObject stack
    else if c = '"' then ⟨stack, .string [] .none⟩
    else fail stack
  | .colon =>
    if isSpace c then ⟨stack, .colon⟩
    else if c = ':' then ⟨stack, .value false⟩
    else fail stack
  | .separator => separate stack c
  | .done v => if isSpace c then ⟨stack, .done v⟩ else ⟨stack, .stopped v⟩
  | mode => ⟨stack, mode⟩

section

variable (known : String → Bool)

/-- Completes a string, which is a member's name if the innermost container waits for one. -/
def closeString (s : String) : List Frame → Reader
  | [.object members] => ⟨[if known s then .member members s else .passing members], .colon⟩
  | .object members :: stack => ⟨.member members s :: stack, .colon⟩
  | .passedObject :: stack => ⟨.passedMember :: stack, .colon⟩
  | stack => deliver (.string s) stack

/-- Reads a character of a string. -/
def stepString (stack : List Frame) (chars : List Char) (c : Char) : Escape → Reader
  | .none =>
    if c = '"' then closeString known (String.ofList chars.reverse) stack
    else if c = '\\' then ⟨stack, .string chars .backslash⟩
    else if c < ' ' then fail stack
    else ⟨stack, .string (c :: chars) .none⟩
  | .backslash =>
    if c = 'u' then ⟨stack, .string chars (.hex 0 (some 0) none)⟩
    else
      match shortEscape? c with
      | some e => ⟨stack, .string (e :: chars) .none⟩
      | none => fail stack
  | .hex bytes unit lead => stepHex stack chars bytes unit lead c
  | .lead unit => if c = '\\' then ⟨stack, .string chars (.leadBackslash unit)⟩ else fail stack
  | .leadBackslash unit =>
    if c = 'u' then ⟨stack, .string chars (.hex 0 (some 0) (some unit))⟩ else fail stack

/-- Reads one character. -/
def step (r : Reader) (c : Char) : Reader :=
  match r.mode with
  | .string chars escape => stepString known r.stack chars c escape
  | .number n =>
    if n.forbids c then fail r.stack
    else
      match n.step? c with
      | some n => ⟨r.stack, .number n⟩
      | none =>
        let r := closeNumber r.stack n
        stepBetween r.stack r.mode c
  | .word (e :: rest) v =>
    if c = e then
      if rest.isEmpty then deliver v r.stack else ⟨r.stack, .word rest v⟩
    else fail r.stack
  | mode => stepBetween r.stack mode c

/-- Reads the characters of a text. -/
def run (r : Reader) (text : List Char) : Reader :=
  text.foldl (step known) r

end

/-- The state before the first character. -/
def initial : Reader := ⟨[], .value false⟩

/-- Ends a number together with the text.  Where values are passed over, a number that is not
complete breaks the grammar in any case. -/
def endNumber (r : Reader) : Reader :=
  match r.mode with
  | .number n =>
    if n.phase.isComplete || Frame.areaPassed r.stack then closeNumber r.stack n else r
  | _ => r

/-- What was read, once all of the text was. -/
def finish (r : Reader) : Document :=
  let r := r.endNumber
  match r.mode with
  | .done v => ⟨v, none⟩
  | .stopped v => ⟨v, some .malformed⟩
  | .separator => ⟨Frame.leaveBehind .unfinished r.stack, some .unfinished⟩
  | _ => ⟨Frame.leaveAll .unfinished (.broken .unfinished) r.stack, some .unfinished⟩

variable {known : String → Bool}

@[simp] theorem run_nil (r : Reader) : r.run known [] = r := rfl

@[simp] theorem run_cons (r : Reader) (c : Char) (text : List Char) :
    r.run known (c :: text) = (r.step known c).run known text := rfl

theorem run_append (r : Reader) (t₁ t₂ : List Char) :
    r.run known (t₁ ++ t₂) = (r.run known t₁).run known t₂ :=
  List.foldl_append

end Reader

/-- Reads a JSON text, of which the names are given that matter if it is an object. -/
def read (known : String → Bool) (text : String) : Document :=
  (Reader.initial.run known text.toList).finish

end GrammarCompletion.Json
