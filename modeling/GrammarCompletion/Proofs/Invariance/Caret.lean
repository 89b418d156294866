/-
# What stands behind the caret

A walk tests the caret at every position to which it moves, so it never reads a token at which the
caret is reached or a later one.  Stated for two walks: the stream may be cut off at the stop and
closed there by any token, and the answer stays the same (`complete_cut`).
-/
import GrammarCompletion.Proofs.Soundness.Completion
import GrammarCompletion.Proofs.Walk.Twin

namespace GrammarCompletion

namespace TokenStream

/-- The tokens before a position, closed by another token. -/
def cutAt (s : TokenStream) (k : Nat) (final : Token) : TokenStream :=
  { s with body := (s.body.toList.take k).toArray, final := final }

variable {s : TokenStream} {caret : Caret} {final : Token} {k p q : Nat}

lemma size_cutAt (hk : k ≤ s.size) : (s.cutAt k final).size = k := by
  have hk : k ≤ s.body.size := hk
  simp [cutAt, size, hk]

lemma token_cutAt (hk : k ≤ s.size) (hp : p < k) : (s.cutAt k final).token p = s.token p := by
  have hp' : p < s.body.size := Nat.lt_of_lt_of_le hp hk
  simp [cutAt, token, hp, hp']

/-- In front of the cut, the same positions are visible. -/
lemma visible_cutAt (hk : k ≤ s.size) (hvk : s.Visible k) (hp : p ≤ k) :
    (s.cutAt k final).Visible p ↔ s.Visible p := by
  rw [Visible, Visible, size_cutAt hk]
  rcases Nat.eq_or_lt_of_le hp with rfl | hlt
  · exact ⟨fun _ => hvk, fun _ => ⟨Nat.le_refl _, fun h => absurd h (Nat.lt_irrefl _)⟩⟩
  · rw [token_cutAt hk hlt]
    constructor
    · exact fun h => ⟨hp.trans hk, fun _ => h.2 hlt⟩
    · exact fun h => ⟨hp, fun _ => h.2 (Nat.lt_of_lt_of_le hlt hk)⟩

lemma atEnd_of_lt (hp : p < s.size) : s.atEnd p = false := by
  simpa [atEnd] using hp

lemma skipHidden_zero_le_of_visible (hq : s.Visible q) : s.skipHidden 0 ≤ q :=
  skipFrom_le_of_visible hq (Nat.zero_le q) (by omega)

lemma reached_cutAt (hk : k ≤ s.size) (hrk : s.reached caret k = true) (hp : p ≤ k) :
    (s.cutAt k final).reached caret p = s.reached caret p := by
  rcases Nat.eq_or_lt_of_le hp with rfl | hlt
  · rw [hrk]
    exact reached_of_atEnd (atEnd_iff.2 (by rw [size_cutAt hk]))
  · have hend : s.atEnd p = false := atEnd_of_lt (Nat.lt_of_lt_of_le hlt hk)
    have hend' : (s.cutAt k final).atEnd p = false := atEnd_of_lt (by rwa [size_cutAt hk])
    rw [reached, reached, hend, hend', token_cutAt hk hlt]
    rfl

/-- The next visible position is the next one that is visible, whatever stands behind. -/
lemma advance_cutAt (hk : k ≤ s.size) (hvk : s.Visible k) (hvp : s.Visible p) (hp : p < k) :
    (s.cutAt k final).advance p = s.advance p := by
  have hsize : (s.cutAt k final).size = k := size_cutAt hk
  have hle : s.advance p ≤ k := advance_le_of_visible hvk hp
  have hvp' : (s.cutAt k final).Visible p := (visible_cutAt hk hvk (Nat.le_of_lt hp)).2 hvp
  have hle' : (s.cutAt k final).advance p ≤ k := hvp'.advance.1.trans_eq hsize
  refine Nat.le_antisymm ?_ ?_
  · have hv : (s.cutAt k final).Visible (s.advance p) := (visible_cutAt hk hvk hle).2 hvp.advance
    exact advance_le_of_visible hv (lt_advance (Nat.lt_of_lt_of_le hp hk))
  · have hv := (visible_cutAt hk hvk hle').1 hvp'.advance
    exact advance_le_of_visible hv (lt_advance (by rwa [hsize]))

end TokenStream

namespace Session

/-- The session for the tokens before the stop, closed by another token. -/
def cut (s : Session) (final : Token) : Session :=
  { s with stream := s.stream.cutAt s.stop final }

variable {s : Session} {final : Token}

/-- The same visible position, at the latest the stop. -/
structure AtSame (s : Session) (p p' : Nat) : Prop where
  eq : p' = p
  visible : s.stream.Visible p
  le_stop : p ≤ s.stop

/-- Rules are visited at visible positions up to the stop. -/
def UpToStop (s : Session) (a : Spot) : Prop := s.stream.Visible a.start ∧ a.start ≤ s.stop

/-- A walk that starts up to the stop has sound outcomes there. -/
lemma predicts_sound (heof : s.model.EofRequired) : s.Predicts s.Sound s.UpToStop s.Ready where
  ask h _ := ⟨h.visible, h.le_stop⟩
  skip h _ := h.skip
  le h hn := (hn.sound h).consumes.choose_spec.2.le
  stay h hn := (hn.sound h).stop_eq
  next h hn hc := ⟨((hn.sound h).ready h hc).1, fun _ => ((hn.sound h).ready h hc).2⟩
  entry ha hq hb hmem := Open.ready ⟨ha.1, ha.2, hq⟩ hb hmem
  fail ha hq := Open.sound_failed ⟨ha.1, ha.2, hq⟩
  collected ha hq hph := sound_collected ha.1 ha.2 hq hph
  matched ha hq ho := ho.sound heof ⟨ha.1, ha.2, hq⟩

lemma stop_le_size : s.stop ≤ s.stream.size := TokenStream.visible_stop.1

lemma size_cut : (s.cut final).stream.size = s.stop := TokenStream.size_cutAt stop_le_size

lemma reached_cut {p : Nat} (hp : p ≤ s.stop) : (s.cut final).reached p = s.reached p :=
  TokenStream.reached_cutAt stop_le_size TokenStream.reached_stop hp

/-- Where the caret is not reached, both streams have the same token, and the same next one. -/
lemma same_token (final : Token) {p : Nat} (hv : s.stream.Visible p) (hle : p ≤ s.stop)
    (hq : s.reached p = false) :
    (s.cut final).stream.kind p = s.stream.kind p ∧
      (s.cut final).stream.advance p = s.stream.advance p ∧
      (s.cut final).stream.atEnd p = false ∧ s.stream.atEnd p = false := by
  have hlt : p < s.stop := TokenStream.lt_stop hq hle
  refine ⟨congrArg Token.kind (TokenStream.token_cutAt stop_le_size hlt),
    TokenStream.advance_cutAt stop_le_size TokenStream.visible_stop hv hlt,
    TokenStream.atEnd_of_lt (size_cut.symm ▸ hlt),
    TokenStream.atEnd_of_lt (Nat.lt_of_lt_of_le hlt stop_le_size)⟩

lemma atSame_advance (final : Token) {p : Nat} (hv : s.stream.Visible p) (hle : p ≤ s.stop)
    (hq : s.reached p = false) :
    s.AtSame (s.stream.advance p) ((s.cut final).stream.advance p) :=
  ⟨(same_token final hv hle hq).2.1, hv.advance, TokenStream.advance_le_stop hq hle⟩

/-- Cut off at the stop, a session goes on as before. -/
lemma twin_cut (heof : s.model.EofRequired) :
    s.Twin (s.cut final) s.AtSame s.Sound s.UpToStop s.Ready where
  ignores _ := rfl
  model := rfl
  lt_iff hp hq := by rw [hp.eq, hq.eq]
  size hp := ⟨hp.visible.1, by rw [hp.eq, size_cut]; exact hp.le_stop⟩
  reached hp := by rw [hp.eq, reached_cut hp.le_stop]
  atEnd h hp := by
    obtain ⟨-, -, hend', hend⟩ := same_token final h.visible h.le_stop h.not_reached
    rw [hp.eq, hend, hend']
  token {n rest p p' id} h _ hp := by
    obtain ⟨rfl, hv, hle⟩ := hp
    obtain ⟨hkind, -, hend', hend⟩ := same_token final hv hle h.not_reached
    rw [matchToken, matchToken, hkind, hend, hend']
    generalize (if n.any = true then !false else decide (s.stream.kind p' = id)) = consumed
    cases consumed with
    | true => exact ⟨rfl, atSame_advance final hv hle h.not_reached, rfl⟩
    | false => exact ⟨rfl, ⟨rfl, hv, hle⟩, rfl⟩
  predicts := predicts_sound heof
  limits := rfl
  set {a p'} ha hq hp tokens := by
    obtain ⟨rfl, hv, hle⟩ := hp
    obtain ⟨hkind, -, -, -⟩ := same_token final hv hle hq
    have hnext := atSame_advance final hv hle hq
    rw [matchTokenSet, matchTokenSet, hkind]
    by_cases hmem : s.stream.kind a.start ∈ tokens
    · rw [if_pos hmem, if_pos hmem]
      refine ⟨rfl, hnext, ?_⟩
      dsimp only
      rw [hnext.eq, reached_cut hnext.le_stop]
    · rw [if_neg hmem, if_neg hmem]
      exact ⟨rfl, ⟨rfl, hv, hle⟩, rfl⟩

lemma skipHidden_cut : (s.cut final).stream.skipHidden 0 = s.stream.skipHidden 0 := by
  have hle : s.stream.skipHidden 0 ≤ s.stop := TokenStream.skipHidden_zero_le_stop
  have hv := TokenStream.visible_skipHidden (s := s.stream) (Nat.zero_le _)
  have hv' := TokenStream.visible_skipHidden (s := (s.cut final).stream) (Nat.zero_le _)
  have hle' : (s.cut final).stream.skipHidden 0 ≤ s.stop := hv'.1.trans_eq size_cut
  -- each is the first position that is visible
  refine Nat.le_antisymm (TokenStream.skipHidden_zero_le_of_visible ?_)
    (TokenStream.skipHidden_zero_le_of_visible ?_)
  · exact (TokenStream.visible_cutAt stop_le_size TokenStream.visible_stop hle).2 hv
  · exact (TokenStream.visible_cutAt stop_le_size TokenStream.visible_stop hle').1 hv'

/-- **Nothing at or behind the caret influences the answer.** -/
theorem complete_cut (heof : s.model.EofRequired) (final : Token) (name : String) :
    ((s.cut final).complete name).map (fun c => (c.candidates, c.fullyParsed)) =
      (s.complete name).map fun c => (c.candidates, c.fullyParsed) := by
  have hvisible := TokenStream.visible_skipHidden (s := s.stream) (Nat.zero_le _)
  have hle : s.stream.skipHidden 0 ≤ s.stop := TokenStream.skipHidden_zero_le_stop
  exact (twin_cut heof).complete (fun _ => ⟨hvisible, hle⟩) ⟨skipHidden_cut, hvisible, hle⟩ name

/-- What follows a first summand does not matter, if the caret is at its end. -/
theorem complete_cut_sum :
    let s := onLine sums [⟨2⟩, ⟨1⟩, ⟨2⟩] ⟨1, 3⟩
    s.model.EofRequired ∧ s.stop = 1 ∧
      ((s.cut (.eof 1 1)).complete "sum").map (fun c => (c.candidates, c.fullyParsed)) =
        .ok (["PLUS NUM"], true) := by
  have heof : sums.EofRequired := by decide
  refine ⟨heof, by decide, (complete_cut heof (.eof 1 1) "sum").trans ?_⟩
  cbv

end Session

end GrammarCompletion
