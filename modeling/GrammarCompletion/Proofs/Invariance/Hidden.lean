/-
# Hidden tokens

The grammar does not see the tokens on other channels, so a stream without them gets the same
answer (`complete_visibleOnly`).  A visible position of one stream corresponds to the number of
visible tokens before it (`TokenStream.rank`), which is its position in the other.
-/
import GrammarCompletion.Proofs.Recursion.Lawful
import GrammarCompletion.Proofs.Soundness.Completion
import GrammarCompletion.Proofs.Walk.Twin

namespace GrammarCompletion

namespace TokenStream

variable (s : TokenStream)

/-- The stream without its hidden tokens; the closing token stays, hidden or not. -/
def visibleOnly : TokenStream :=
  { s with body := (s.body.toList.filter fun t => !t.isHidden).toArray }

/-- How many visible tokens there are before a position. -/
def rank (p : Nat) : Nat := (s.kinds 0 p).length

variable {s} {p q : Nat} {caret : Caret}

/-! ## Ranks -/

lemma rank_add (hpq : p ≤ q) : s.rank q = s.rank p + (s.kinds p q).length := by
  rw [rank, rank, ← List.length_append, kinds_append (Nat.zero_le p) hpq]

lemma rank_lt (hv : s.Visible p) (hpq : p < q) (hq : q ≤ s.size) : s.rank p < s.rank q := by
  have hp : p < s.size := Nat.lt_of_lt_of_le hpq hq
  have hone : s.kinds p (p + 1) = [s.kind p] := by
    rw [kinds_succ hp, hv.2 hp]
    rfl
  rw [rank_add (Nat.le_of_lt hpq), ← kinds_append (Nat.le_succ p) hpq, hone]
  simp

lemma lt_iff_rank_lt (hp : s.Visible p) (hq : s.Visible q) : p < q ↔ s.rank p < s.rank q := by
  constructor
  · exact fun h => rank_lt hp h hq.1
  · intro h
    by_contra hle
    rcases Nat.eq_or_lt_of_le (Nat.le_of_not_lt hle) with rfl | hlt
    · exact absurd h (Nat.lt_irrefl _)
    · exact absurd h (Nat.lt_asymm (rank_lt hq hlt hp.1))

lemma size_visibleOnly : s.visibleOnly.size = s.rank s.size := by
  have htake : s.body.toList.take s.size = s.body.toList := List.take_of_length_le (by simp [size])
  rw [rank, kinds, htake]
  simp [visibleOnly, size]

/-- The visible tokens from a position on come behind those before it. -/
lemma token_visibleOnly (hv : s.Visible p) : s.visibleOnly.token (s.rank p) = s.token p := by
  rcases Nat.eq_or_lt_of_le hv.1 with rfl | hp
  · rw [token_of_atEnd (atEnd_iff.2 (Nat.le_refl _)),
      token_of_atEnd (atEnd_iff.2 (Nat.le_of_eq size_visibleOnly))]
    rfl
  · have hlen : p < s.body.toList.length := by simpa [size] using hp
    have hsplit : s.body.toList.filter (fun t => !t.isHidden) =
        (s.body.toList.take p).filter (fun t => !t.isHidden) ++
          s.token p :: (s.body.toList.drop (p + 1)).filter fun t => !t.isHidden := by
      conv_lhs => rw [← List.take_append_drop p s.body.toList]
      rw [List.filter_append, List.drop_eq_getElem_cons hlen, ← token_eq_getElem hlen,
        List.filter_cons_of_pos (by simp [hv.2 hp])]
    have hrank : s.rank p = ((s.body.toList.take p).filter fun t => !t.isHidden).length := by
      simp [rank, kinds]
    simp [visibleOnly, token, hsplit, hrank]

lemma rank_le_size (hv : s.Visible p) : s.rank p ≤ s.visibleOnly.size := by
  rw [size_visibleOnly, rank_add hv.1]
  exact Nat.le_add_right _ _

lemma atEnd_visibleOnly (hv : s.Visible p) : s.visibleOnly.atEnd (s.rank p) = s.atEnd p := by
  have hsize : s.Visible s.size := ⟨Nat.le_refl _, fun h => absurd h (Nat.lt_irrefl _)⟩
  rw [Bool.eq_iff_iff, atEnd_iff, atEnd_iff, size_visibleOnly, ← Nat.not_lt, ← Nat.not_lt,
    lt_iff_rank_lt hv hsize]

/-- Nothing is hidden any more. -/
lemma visible_visibleOnly (hp : p ≤ s.visibleOnly.size) : s.visibleOnly.Visible p := by
  refine ⟨hp, fun hlt => ?_⟩
  have hmem : s.visibleOnly.token p ∈ s.visibleOnly.body.toList := by
    have hlen : p < s.visibleOnly.body.toList.length := by simpa [size] using hlt
    rw [token_eq_getElem hlen]
    exact List.getElem_mem hlen
  simpa using (List.mem_filter.1 (show _ ∈ List.filter _ _ from hmem)).2

lemma skipHidden_visibleOnly (hp : p ≤ s.visibleOnly.size) : s.visibleOnly.skipHidden p = p := by
  refine Nat.le_antisymm ?_ le_skipHidden
  exact skipFrom_le_of_visible (visible_visibleOnly hp) (Nat.le_refl p) (by omega)

lemma reached_visibleOnly (hv : s.Visible p) :
    s.visibleOnly.reached caret (s.rank p) = s.reached caret p := by
  rw [reached, reached, atEnd_visibleOnly hv, token_visibleOnly hv]
  rfl

lemma advance_visibleOnly (hv : s.Visible p) :
    s.visibleOnly.advance (s.rank p) = s.rank (s.advance p) := by
  rcases Nat.eq_or_lt_of_le hv.1 with rfl | hp
  · have hend : s.atEnd s.size = true := atEnd_iff.2 (Nat.le_refl _)
    rw [advance, advance, atEnd_visibleOnly hv, if_pos hend, if_pos hend]
  · have hnext : s.rank (s.advance p) = s.rank p + 1 := by
      rw [rank_add le_advance, kinds_advance hv hp]
      rfl
    have hend : s.visibleOnly.atEnd (s.rank p) = false := by
      rw [atEnd_visibleOnly hv]
      simpa [atEnd] using hp
    rw [advance, hend, if_neg Bool.false_ne_true, hnext,
      skipHidden_visibleOnly (hnext ▸ rank_le_size hv.advance)]

lemma rank_skipHidden_zero : s.rank (s.skipHidden 0) = s.visibleOnly.skipHidden 0 := by
  rw [skipHidden_visibleOnly (Nat.zero_le _), rank, kinds_skipHidden (Nat.zero_le _)]
  rfl

/-- A hidden token is never the one that the caret is writing. -/
lemma tokenAt?_visibleOnly : s.visibleOnly.tokenAt? caret = s.tokenAt? caret := by
  rw [tokenAt?, tokenAt?, ← Array.find?_toList, ← Array.find?_toList]
  simp only [visibleOnly, List.find?_filter]
  congr 1
  funext t
  rw [Bool.eq_iff_iff]
  cases h : t.isHidden <;> simp [isTouched, h]

lemma typedPart?_visibleOnly : s.visibleOnly.typedPart? caret = s.typedPart? caret := by
  rw [typedPart?, typedPart?, tokenAt?_visibleOnly]

end TokenStream

namespace Session

/-- The session without the hidden tokens. -/
def visibleOnly (s : Session) : Session := { s with stream := s.stream.visibleOnly }

variable {s : Session}

/-- A visible position and its rank. -/
structure AtRank (s : Session) (p p' : Nat) : Prop where
  visible : s.stream.Visible p
  eq : p' = s.stream.rank p

lemma atRank_advance {p : Nat} (hv : s.stream.Visible p) :
    s.AtRank (s.stream.advance p) (s.visibleOnly.stream.advance (s.stream.rank p)) :=
  ⟨hv.advance, TokenStream.advance_visibleOnly hv⟩

lemma kind_visibleOnly {p : Nat} (hv : s.stream.Visible p) :
    s.visibleOnly.stream.kind (s.stream.rank p) = s.stream.kind p :=
  congrArg Token.kind (TokenStream.token_visibleOnly hv)

/-- A walk has lawful outcomes wherever it starts. -/
lemma predicts_lawful : s.Predicts s.Lawful (fun _ => True) fun _ _ => True where
  ask _ _ := trivial
  skip _ _ := trivial
  le _ hn := hn.lawful.le
  stay _ hn := hn.lawful.stop_eq
  next _ _ _ := ⟨trivial, fun _ => trivial⟩
  entry _ _ _ _ := trivial
  fail _ _ := lawful_failed
  collected _ hq _ := ⟨lawfulFor_of_reached (Nat.le_refl _) hq, fun _ => rfl⟩
  matched _ _ ho := ho.lawful

/-- Without hidden tokens, a session goes on as before. -/
lemma twin_visibleOnly : s.Twin s.visibleOnly s.AtRank s.Lawful (fun _ => True) fun _ _ => True where
  ignores _ := rfl
  model := rfl
  lt_iff hp hq := by rw [hp.eq, hq.eq, TokenStream.lt_iff_rank_lt hp.visible hq.visible]
  size hp := ⟨hp.visible.1, hp.eq ▸ TokenStream.rank_le_size hp.visible⟩
  reached hp := hp.eq ▸ TokenStream.reached_visibleOnly hp.visible
  atEnd _ hp := hp.eq ▸ TokenStream.atEnd_visibleOnly hp.visible
  token {n rest p p' id} _ _ hp := by
    obtain ⟨hv, rfl⟩ := hp
    rw [matchToken, matchToken, kind_visibleOnly hv,
      show s.visibleOnly.stream.atEnd _ = _ from TokenStream.atEnd_visibleOnly hv]
    generalize (if n.any = true then !s.stream.atEnd p else decide (s.stream.kind p = id)) = consumed
    cases consumed with
    | true => exact ⟨rfl, atRank_advance hv, rfl⟩
    | false => exact ⟨rfl, ⟨hv, rfl⟩, rfl⟩
  predicts := predicts_lawful
  limits := rfl
  set {a p'} _ _ hp tokens := by
    obtain ⟨hv, rfl⟩ := hp
    have hnext := atRank_advance hv
    have hreached : s.visibleOnly.reached (s.visibleOnly.stream.advance (s.stream.rank a.start)) =
        s.reached (s.stream.advance a.start) :=
      hnext.eq ▸ TokenStream.reached_visibleOnly hnext.visible
    rw [matchTokenSet, matchTokenSet, kind_visibleOnly hv]
    by_cases hmem : s.stream.kind a.start ∈ tokens
    · rw [if_pos hmem, if_pos hmem]
      refine ⟨rfl, hnext, ?_⟩
      simp only [hreached]
    · rw [if_neg hmem, if_neg hmem]
      exact ⟨rfl, ⟨hv, rfl⟩, rfl⟩

lemma typedPart_of_complete {name : String} {c : Completion} (h : s.complete name = .ok c) :
    c.typedPart = s.stream.typedPart? s.caret := by
  obtain ⟨root, o, r, -, -, hc⟩ := complete_eq_ok h
  obtain ⟨texts, -, rfl⟩ := completion_eq_ok_iff.1 hc
  rfl

/-- **Hidden tokens are invisible**: without them the answer is the same. -/
theorem complete_visibleOnly (s : Session) (name : String) :
    (s.visibleOnly.complete name).map (fun c => (c.candidates, c.fullyParsed, c.typedPart)) =
      (s.complete name).map fun c => (c.candidates, c.fullyParsed, c.typedPart) := by
  have hstart : s.AtRank (s.stream.skipHidden 0) (s.visibleOnly.stream.skipHidden 0) :=
    ⟨TokenStream.visible_skipHidden (Nat.zero_le _), TokenStream.rank_skipHidden_zero.symm⟩
  have hsame := twin_visibleOnly.complete (fun _ => trivial) hstart name
  have htyped : s.visibleOnly.stream.typedPart? s.visibleOnly.caret = s.stream.typedPart? s.caret :=
    TokenStream.typedPart?_visibleOnly
  cases hc : s.complete name <;> cases hc' : s.visibleOnly.complete name <;>
    simp only [hc, hc', Except.map, Except.ok.injEq, Except.error.injEq, reduceCtorEq,
      Prod.mk.injEq] at hsame ⊢
  · exact hsame
  · rw [typedPart_of_complete hc, typedPart_of_complete hc', htyped]
    exact ⟨hsame.1, hsame.2, rfl⟩

end Session

end GrammarCompletion
