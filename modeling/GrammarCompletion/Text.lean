/-
# Texts

Four things that are done with texts.  A line is trimmed of the characters with the Unicode property
`White_Space`, of which there are twenty-five, all in the Basic Multilingual Plane.  An integer is
read in decimal notation: an optional sign and at least one ASCII digit, with nothing before, between
or after them; leading zeros are allowed, and zero may carry either sign.  A text is cut into lines
at its line feeds: a text without a line feed is one line, and every line feed starts another, so a
text that ends in a line feed has an empty last line.  And texts are sorted in the order of their code
points, without repetition; `mem_sorted` and `pairwise_sorted` fix the result, which has the same
texts, each before those behind it.
-/

namespace GrammarCompletion.Text

/-! ## Blank characters -/

/-- The code points with the property `White_Space`, as inclusive ranges in increasing order. -/
def blankRanges : List (Nat × Nat) :=
  [(0x9, 0xd), (0x20, 0x20), (0x85, 0x85), (0xa0, 0xa0), (0x1680, 0x1680), (0x2000, 0x200a),
    (0x2028, 0x2029), (0x202f, 0x202f), (0x205f, 0x205f), (0x3000, 0x3000)]

/-- A blank character is one with the property `White_Space`. -/
def isBlank (c : Char) : Bool :=
  blankRanges.any fun r => r.1 ≤ c.toNat && c.toNat ≤ r.2

/-- The text without its leading blanks. -/
def trimStart (l : List Char) : List Char :=
  l.dropWhile isBlank

/-- The text without its trailing blanks. -/
def trimEnd (l : List Char) : List Char :=
  (l.reverse.dropWhile isBlank).reverse

/-- The text without leading and trailing blanks. -/
def trim (l : List Char) : List Char :=
  trimStart (trimEnd l)

/-- The property has twenty-five characters. -/
example : (blankRanges.map fun r => r.2 + 1 - r.1).sum = 25 := by decide

@[simp] theorem trimStart_nil : trimStart [] = [] := rfl

@[simp] theorem trimEnd_nil : trimEnd [] = [] := rfl

/-- A trailing blank does not show after trimming. -/
theorem trimEnd_append_blank {l : List Char} {c : Char} (h : isBlank c = true) :
    trimEnd (l ++ [c]) = trimEnd l := by
  simp [trimEnd, h]

/-! ## Decimal integers -/

/-- The number that a string of ASCII digits denotes; there has to be at least one digit. -/
def readNat? (l : List Char) : Option Nat :=
  if l.isEmpty || !l.all Char.isDigit then none
  else some (l.foldl (fun n c => 10 * n + (c.toNat - '0'.toNat)) 0)

/-- The integer that an optional sign followed by ASCII digits denotes. -/
def readInt? : List Char → Option Int
  | '-' :: l => (readNat? l).map fun n => -(n : Int)
  | '+' :: l => (readNat? l).map fun n => (n : Int)
  | l => (readNat? l).map fun n => (n : Int)

example : readInt? "-012".toList = some (-12) := by decide

example : readInt? "+".toList = none := by decide

/-! ## Lines -/

/-- Puts a character in front of a text that is already cut into lines. -/
def consLine (c : Char) : List (List Char) → List (List Char)
  | [] => if c = '\n' then [[], []] else [[c]]
  | l :: ls => if c = '\n' then [] :: l :: ls else (c :: l) :: ls

/-- The lines of a text, without their line feeds. -/
def lines (text : List Char) : List (List Char) :=
  text.foldr consLine [[]]

example : lines "a\n\nb".toList = ["a".toList, [], "b".toList] := by decide

@[simp] theorem lines_nil : lines [] = [[]] := rfl

/-- Puts a text into its place in a sorted list, unless it is there. -/
def insertSorted (s : String) : List String → List String
  | [] => [s]
  | t :: rest =>
    if s < t then s :: t :: rest
    else if s = t then t :: rest
    else t :: insertSorted s rest

/-- The texts of a list in order, without repetition. -/
def sorted (l : List String) : List String :=
  l.foldr insertSorted []

example : sorted ["b", "ab", "b", "a"] = ["a", "ab", "b"] := by decide

@[simp] theorem mem_insertSorted {s a : String} {l : List String} :
    a ∈ insertSorted s l ↔ a = s ∨ a ∈ l := by
  induction l with
  | nil => simp [insertSorted]
  | cons t rest ih =>
    rw [insertSorted]
    split
    · simp
    · split
      · next h => simp [h]
      · simp only [List.mem_cons, ih]
        exact or_left_comm

theorem pairwise_insertSorted {s : String} {l : List String} (h : l.Pairwise (· < ·)) :
    (insertSorted s l).Pairwise (· < ·) := by
  induction l with
  | nil => simp [insertSorted]
  | cons t rest ih =>
    obtain ⟨ht, hrest⟩ := List.pairwise_cons.1 h
    rw [insertSorted]
    split
    · next hlt =>
      refine List.pairwise_cons.2 ⟨fun a ha => ?_, h⟩
      rcases List.mem_cons.1 ha with rfl | ha
      · exact hlt
      · exact String.lt_trans hlt (ht a ha)
    · next hge =>
      split
      · exact h
      · next hne =>
        refine List.pairwise_cons.2 ⟨fun a ha => ?_, ih hrest⟩
        rcases mem_insertSorted.1 ha with rfl | ha
        · exact String.not_le.1 fun hle => hne (String.le_antisymm hle (String.not_lt.1 hge))
        · exact ht a ha

/-- Sorting keeps the texts. -/
@[simp] theorem mem_sorted {a : String} {l : List String} : a ∈ sorted l ↔ a ∈ l := by
  induction l with
  | nil => simp [sorted]
  | cons s l ih =>
    simp only [sorted, List.foldr_cons, mem_insertSorted, List.mem_cons] at ih ⊢
    rw [ih]

/-- Every text is before the texts behind it, so that none occurs twice. -/
theorem pairwise_sorted {l : List String} : (sorted l).Pairwise (· < ·) := by
  induction l with
  | nil => exact List.Pairwise.nil
  | cons s l ih => exact pairwise_insertSorted ih

end GrammarCompletion.Text
