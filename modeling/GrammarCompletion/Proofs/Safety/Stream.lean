/-
# Cursors on streams

A cursor on a stream starts at its first token.  It is moved on, with or without stepping over
hidden tokens, or it is put to a position, past the end or not.  However it is moved, there is a
token where it stands (`TokenStream.CursorAt.token`).

A token is cut at a caret between two of its characters, however many bytes these have
(`TokenStream.cutAt_of_tokenAt?`).
-/
import GrammarCompletion.Proofs.Visible

namespace GrammarCompletion

namespace TokenStream

/-- The positions at which a cursor can stand. -/
inductive CursorAt (s : TokenStream) : Nat → Prop
  /-- A cursor starts in front of all tokens. -/
  | start : CursorAt s 0
  /-- It moves on to the next token. -/
  | next {p : Nat} (h : CursorAt s p) : CursorAt s (s.next p)
  /-- It moves on to the next token that is not hidden. -/
  | advance {p : Nat} (h : CursorAt s p) : CursorAt s (s.advance p)
  /-- It steps over hidden tokens. -/
  | skipHidden {p : Nat} (h : CursorAt s p) : CursorAt s (s.skipHidden p)
  /-- It is put to a position, or to the end of the input if that is too far. -/
  | seek (p : Nat) : CursorAt s (s.clamp p)

variable {s : TokenStream} {p : Nat}

/-- Every position of the stream has its token. -/
lemma getElem?_toList (h : p ≤ s.size) : s.toList[p]? = some (s.token p) := by
  rcases Nat.lt_or_eq_of_le h with hlt | rfl
  · have hlen : p < s.body.toList.length := by simpa [size] using hlt
    rw [toList, List.getElem?_append_left hlen, List.getElem?_eq_getElem hlen,
      token_eq_getElem hlen]
  · rw [token_of_atEnd (atEnd_iff.2 (Nat.le_refl _)), toList]
    simp [size]

lemma next_le_size (h : p ≤ s.size) : s.next p ≤ s.size := by
  rw [next]
  split
  · exact h
  · next hend =>
    rw [atEnd_iff] at hend
    omega

/-- A cursor can stand at the positions of the stream only. -/
theorem cursorAt_iff : s.CursorAt p ↔ p ≤ s.size := by
  constructor
  · intro h
    induction h with
    | start => exact Nat.zero_le _
    | next _ ih => exact next_le_size ih
    | advance _ ih => exact advance_le_size ih
    | skipHidden _ ih => exact skipHidden_le_size ih
    | seek p => exact Nat.min_le_right p s.size
  · intro h
    have hclamp : s.clamp p = p := Nat.min_eq_left h
    exact hclamp ▸ .seek p

/-- **There is a token where a cursor stands.** -/
theorem CursorAt.token (h : s.CursorAt p) : s.toList[p]? = some (s.token p) :=
  getElem?_toList (cursorAt_iff.1 h)

end TokenStream

/-- A text is cut off a token at a caret: behind the start of the token, and in front of one of its
characters or at its end. -/
structure Token.CutAt (t : Token) (caret : Caret) (typed : String) : Prop where
  /-- The caret is behind the start of the token. -/
  start_lt : t.start < caret.column
  /-- The bytes of the text are those of whole characters. -/
  boundary : typed.rawEndPos.IsValid t.text
  /-- The text is the front of the token. -/
  front : ∃ rest, t.text = typed ++ rest
  /-- It is as long as the caret is far, or as the token. -/
  length : typed.length = min (caret.column - t.start) t.text.length

/-- **The typed part is cut off the token at the caret.** -/
theorem TokenStream.cutAt_of_tokenAt? {s : TokenStream} {caret : Caret} {t : Token}
    (h : s.tokenAt? caret = some t) : ∃ typed, s.typedPart? caret = some typed ∧
      t.CutAt caret typed := by
  have htouched : s.isTouched caret t = true := Array.find?_some h
  simp only [isTouched, Bool.and_eq_true, decide_eq_true_eq] at htouched
  obtain ⟨⟨-, hstart⟩, -⟩ := htouched
  have hfront : t.text = String.ofList (t.text.toList.take (caret.column - t.start)) ++
      String.ofList (t.text.toList.drop (caret.column - t.start)) := by
    rw [← String.ofList_append, List.take_append_drop, String.ofList_toList]
  refine ⟨_, by rw [typedPart?, h, Option.map_some], hstart, ?_, ⟨_, hfront⟩, ?_⟩
  · exact String.Pos.Raw.isValid_iff_exists_append.2 ⟨_, _, hfront, rfl⟩
  · rw [String.length_ofList, List.length_take, String.length_toList]

end GrammarCompletion
