/-
# Carets and ordered streams

Two questions relate a stream to a caret, and they are answered in different ways.  Whether the caret
is reached is asked at one position (`TokenStream.reached`), and a separator counts as reached less
easily than a word.  The token that the caret is writing is searched for from the start
(`TokenStream.tokenAt?`).

If the visible tokens stand in order, both have the same border.  Behind a visible position at which
the caret is reached it is reached again (`TokenStream.reached_mono`), and the token that is being
written can only be the one at the stop (`TokenStream.tokenAt?_eq_some_iff`).
-/
import GrammarCompletion.Proofs.Visible

namespace GrammarCompletion

/-- A token ends before another one starts, on an earlier line or on the same one. -/
def Token.Before (t u : Token) : Prop :=
  t.line < u.line ∨ t.line = u.line ∧ t.stop ≤ u.start

instance (t u : Token) : Decidable (t.Before u) :=
  inferInstanceAs (Decidable (_ ∨ _))

lemma Token.Before.trans {t u v : Token} (h : t.Before u) (hu : u.start < u.stop)
    (h' : u.Before v) : t.Before v := by
  unfold Before at h h' ⊢
  omega

/-- Of tokens that have a width, each stands before all later ones if it stands before the next. -/
lemma Token.pairwise_before {l : List Token} (h : l.IsChain Token.Before)
    (hwide : ∀ t ∈ l, t.start < t.stop) : l.Pairwise Token.Before := by
  induction l with
  | nil => exact .nil
  | cons t l ih =>
    cases l with
    | nil => exact List.pairwise_singleton _ t
    | cons u l =>
      obtain ⟨htu, htail⟩ := List.isChain_cons_cons.1 h
      have hlater := ih htail fun v hv => hwide v (List.mem_cons_of_mem t hv)
      refine List.pairwise_cons.2 ⟨fun v hv => ?_, hlater⟩
      rcases List.mem_cons.1 hv with rfl | hv
      · exact htu
      · exact htu.trans (hwide u (by simp)) ((List.pairwise_cons.1 hlater).1 v hv)

namespace TokenStream

/-- The visible tokens in front of the closing one have a width, and each stands before the next. -/
structure Ordered (s : TokenStream) : Prop where
  /-- Every token has a width. -/
  wide : ∀ t ∈ s.body.toList.filter (!·.isHidden), t.start < t.stop
  /-- Every token stands before the next. -/
  chain : (s.body.toList.filter (!·.isHidden)).IsChain Token.Before

/-- The caret is writing a token: the token stands at the stop and is not the closing one, it is on
the line of the caret and starts before it, and typing extends it. -/
structure Writes (s : TokenStream) (caret : Caret) (t : Token) : Prop where
  lt_size : s.stop caret < s.size
  token_stop : s.token (s.stop caret) = t
  word : s.isSeparator t.kind = false
  line : t.line = caret.line
  start : t.start < caret.column

variable {s : TokenStream} {caret : Caret} {p q : Nat} {t : Token}

lemma token_mem_visible (hv : s.Visible p) (hp : p < s.size) :
    s.token p ∈ s.body.toList.filter (!·.isHidden) := by
  have hlen : p < s.body.toList.length := by simpa [size] using hp
  have hhidden := hv.2 hp
  rw [token_eq_getElem hlen] at hhidden ⊢
  exact List.mem_filter.2 ⟨List.getElem_mem hlen, by rw [hhidden]; rfl⟩

lemma Ordered.lt (h : s.Ordered) (hv : s.Visible p) (hp : p < s.size) :
    (s.token p).start < (s.token p).stop :=
  h.wide _ (token_mem_visible hv hp)

/-- Of two visible tokens, the first stands before the second. -/
lemma Ordered.before (h : s.Ordered) (hp : s.Visible p) (hq : s.Visible q) (hpq : p < q)
    (hlt : q < s.size) : (s.token p).Before (s.token q) := by
  have hpair := List.pairwise_filter.1 (Token.pairwise_before h.chain h.wide)
  have hlen : q < s.body.toList.length := by simpa [size] using hlt
  have hshown : ∀ {r}, s.Visible r → (hr : r < s.body.toList.length) →
      (!s.body.toList[r].isHidden) = true := fun hv hr => by
    have hhidden := hv.2 (by simpa [size] using hr)
    rw [token_eq_getElem hr] at hhidden
    rw [hhidden]
    rfl
  have hlen' : p < s.body.toList.length := Nat.lt_trans hpq hlen
  rw [token_eq_getElem hlen', token_eq_getElem hlen]
  exact List.pairwise_iff_getElem.1 hpair p q hlen' hlen hpq (hshown hp hlen') (hshown hq hlen)

/-- What it means that the caret is reached at a token. -/
lemma reached_iff (hp : p < s.size) : s.reached caret p = true ↔
    caret.line < (s.token p).line ∨ (s.token p).line = caret.line ∧
      if s.isSeparator (s.token p).kind then caret.column < (s.token p).stop
      else caret.column ≤ (s.token p).stop := by
  have hend : s.atEnd p = false := by simpa [atEnd] using hp
  simp only [reached, hend, Bool.false_or]
  split
  · next h => simp [h]
  · next h =>
    split
    · next h' => simp only [Bool.false_eq_true, false_iff]; omega
    · next h' =>
      have hline : (s.token p).line = caret.line := by omega
      simp only [hline, Nat.lt_irrefl, true_and, false_or]
      split <;> simp

/-- Where the caret is reached on its own line, it is not behind the token. -/
lemma column_le_of_reached (hp : p < s.size) (hr : s.reached caret p = true) :
    caret.line < (s.token p).line ∨
      (s.token p).line = caret.line ∧ caret.column ≤ (s.token p).stop := by
  refine ((reached_iff hp).1 hr).imp_right fun h => ⟨h.1, ?_⟩
  have hcolumn := h.2
  split at hcolumn
  · exact Nat.le_of_lt hcolumn
  · exact hcolumn

/-- Where a token ends behind the caret, the caret is reached, be it a separator or a word. -/
lemma reached_of_column_lt (hp : p < s.size) (h : caret.line < (s.token p).line ∨
    (s.token p).line = caret.line ∧ caret.column < (s.token p).stop) :
    s.reached caret p = true := by
  refine (reached_iff hp).2 (h.imp_right fun h => ⟨h.1, ?_⟩)
  split
  · exact h.2
  · exact Nat.le_of_lt h.2

/-- **Behind a visible position at which the caret is reached, it is reached again.** -/
theorem reached_mono (h : s.Ordered) (hp : s.Visible p) (hq : s.Visible q) (hpq : p ≤ q)
    (hr : s.reached caret p = true) : s.reached caret q = true := by
  rcases Nat.eq_or_lt_of_le hpq with rfl | hlt
  · exact hr
  by_cases hsize : q < s.size
  · -- on one line, the later token ends strictly after the earlier one
    have hbefore := h.before hp hq hlt hsize
    have hwide := h.lt hq hsize
    have hcolumn := column_le_of_reached (Nat.lt_trans hlt hsize) hr
    unfold Token.Before at hbefore
    exact reached_of_column_lt hsize (by omega)
  · exact reached_of_atEnd (atEnd_iff.2 (Nat.le_of_not_lt hsize))

/-! ## The token that is being written -/

/-- A visible token that the caret touches is one at which it is reached. -/
lemma reached_of_isTouched (hp : p < s.size) (h : s.isTouched caret (s.token p) = true) :
    s.Visible p ∧ s.reached caret p = true := by
  simp only [isTouched, Bool.and_eq_true, Bool.not_eq_true', beq_iff_eq, decide_eq_true_eq] at h
  obtain ⟨⟨⟨⟨hvisible, hword⟩, hline⟩, -⟩, hstop⟩ := h
  refine ⟨⟨Nat.le_of_lt hp, fun _ => hvisible⟩, ?_⟩
  rw [reached_iff hp, hword]
  exact Or.inr ⟨hline, hstop⟩

/-- The token at the stop is touched if it is being written. -/
lemma Writes.isTouched (h : s.Writes caret t) : s.isTouched caret t = true := by
  obtain ⟨hlt, rfl, hword, hline, hstart⟩ := h
  have hvisible := visible_stop.2 hlt
  have hreached := column_le_of_reached hlt reached_stop
  have hstop : caret.column ≤ (s.token (s.stop caret)).stop := by omega
  simp [TokenStream.isTouched, hvisible, hword, hline, hstart, hstop]

/-- In an ordered stream, a token that is touched is the one that is being written. -/
lemma Ordered.writes (h : s.Ordered) (hp : p < s.size)
    (ht : s.isTouched caret (s.token p) = true) : s.Writes caret (s.token p) := by
  obtain ⟨hv, hr⟩ := reached_of_isTouched hp ht
  have hle : s.stop caret ≤ p := stop_le hv hr
  simp only [isTouched, Bool.and_eq_true, Bool.not_eq_true', beq_iff_eq, decide_eq_true_eq] at ht
  obtain ⟨⟨⟨⟨-, hword⟩, hline⟩, hstart⟩, -⟩ := ht
  rcases Nat.eq_or_lt_of_le hle with heq | hlt
  · exact ⟨heq ▸ hp, by rw [heq], hword, hline, hstart⟩
  · -- the token at the stop would end after the caret, and the one that is touched starts before it
    exfalso
    have hbefore := h.before visible_stop hv hlt hp
    have hcolumn := column_le_of_reached (Nat.lt_trans hlt hp) reached_stop
    unfold Token.Before at hbefore
    omega

/-- **The search for the token at the caret ends at the stop.** -/
theorem tokenAt?_eq_some_iff (h : s.Ordered) : s.tokenAt? caret = some t ↔ s.Writes caret t := by
  have htoken : ∀ {p} (hp : p < s.body.size), s.token p = s.body[p] := fun hp => by
    simp [token, hp]
  rw [tokenAt?, Array.find?_eq_some_iff_getElem]
  constructor
  · rintro ⟨ht, p, hp, rfl, -⟩
    exact htoken hp ▸ h.writes hp (htoken hp ▸ ht)
  · intro hw
    have hlt : s.stop caret < s.body.size := hw.lt_size
    refine ⟨hw.isTouched, s.stop caret, hlt, ?_, fun q hq => ?_⟩
    · exact (htoken hlt).symm.trans hw.token_stop
    · -- an earlier token that is touched would be an earlier stop
      rw [Bool.not_eq_true', ← htoken (Nat.lt_trans hq hlt)]
      by_contra hne
      obtain ⟨hv, hr⟩ := reached_of_isTouched (Nat.lt_trans hq hlt) (by simpa using hne)
      exact absurd (stop_le hv hr) (Nat.not_le_of_lt hq)

/-- What is typed is the part of the token that stands before the caret. -/
lemma typedPart?_eq_some_iff (h : s.Ordered) {text : String} :
    s.typedPart? caret = some text ↔ ∃ t, s.Writes caret t ∧
      text.toList = t.text.toList.take (caret.column - t.start) := by
  rw [typedPart?, Option.map_eq_some_iff]
  refine exists_congr fun t => and_congr (tokenAt?_eq_some_iff h) ?_
  constructor
  · rintro rfl
    exact String.toList_ofList
  · intro htext
    rw [← htext, String.ofList_toList]

end TokenStream

end GrammarCompletion
