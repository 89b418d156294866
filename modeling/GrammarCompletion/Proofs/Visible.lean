/-
# Visible positions

The grammar sees a stream as the list of its visible tokens.  `TokenStream.kinds` is that list for a
part of the stream, and `TokenStream.stop` is the position at which input must not be consumed any
more: the first visible position, or the end, at which the caret is reached.

Whoever starts at a visible position, tests the caret at every position and moves by
`TokenStream.advance` never gets past the stop (`advance_le_stop`) and ends exactly there when the
caret is reached (`eq_stop`).
-/
import GrammarCompletion.Walk.Basic
import Mathlib.Tactic.Common

namespace GrammarCompletion

namespace TokenStream

variable (s : TokenStream)

/-- A position at which the grammar sees something: a token that is not hidden, or the end. -/
def Visible (p : Nat) : Prop :=
  p ≤ s.size ∧ (p < s.size → (s.token p).isHidden = false)

/-- The kinds of the visible tokens from position `p` up to position `q`. -/
def kinds (p q : Nat) : List TokenId :=
  (((s.body.toList.take q).drop p).filter fun t => !t.isHidden).map Token.kind

/-- The first of `n` positions from `p` on that is visible and at which the caret is reached, or the
position behind them. -/
def stopFrom (caret : Caret) : (n : Nat) → (p : Nat) → Nat
  | 0, p => p
  | n + 1, p =>
    if (s.atEnd p || !(s.token p).isHidden) && s.reached caret p then p
    else stopFrom caret n (p + 1)

/-- The first position that holds a visible token or is the end, and at which the caret is
reached. -/
def stop (caret : Caret) : Nat := s.stopFrom caret s.size 0

variable {s : TokenStream} {n p q r : Nat} {caret : Caret}

/-! ## The kinds of a part of the stream -/

@[simp] lemma kinds_self : s.kinds p p = [] := by
  simp [kinds]

lemma kinds_append (hpq : p ≤ q) (hqr : q ≤ r) : s.kinds p q ++ s.kinds q r = s.kinds p r := by
  have hsplit : (s.body.toList.take r).drop p
      = (s.body.toList.take q).drop p ++ (s.body.toList.take r).drop q := by
    have hq : s.body.toList.take q = (s.body.toList.take r).take q := by
      rw [List.take_take, Nat.min_eq_left hqr]
    rw [hq]
    by_cases hlen : q ≤ (s.body.toList.take r).length
    · conv_lhs => rw [← List.take_append_drop q (s.body.toList.take r)]
      rw [List.drop_append_of_le_length]
      rw [List.length_take, Nat.min_eq_left hlen]
      exact hpq
    · have hlen : (s.body.toList.take r).length ≤ q := by omega
      rw [List.take_of_length_le hlen, List.drop_eq_nil_of_le hlen, List.append_nil]
  simp [kinds, hsplit]

lemma token_eq_getElem (h : p < s.body.toList.length) : s.token p = s.body.toList[p] := by
  have h' : p < s.body.size := by simpa using h
  simp [token, h']

lemma kinds_succ (h : p < s.size) :
    s.kinds p (p + 1) = if (s.token p).isHidden then [] else [s.kind p] := by
  have hlen : p < s.body.toList.length := by simpa [size] using h
  have hone : (s.body.toList.take (p + 1)).drop p = [s.token p] := by
    rw [token_eq_getElem hlen, List.drop_take, Nat.add_sub_cancel_left,
      List.drop_eq_getElem_cons hlen]
    simp
  rw [kinds, hone, kind]
  cases h : (s.token p).isHidden <;> simp [h]

/-- Only hidden tokens are stepped over. -/
lemma kinds_skipFrom (h : p + n ≤ s.size) : s.kinds p (s.skipFrom n p) = [] := by
  induction n generalizing p with
  | zero => simp [skipFrom]
  | succ n ih =>
    rw [skipFrom]
    split
    · next hp =>
      rw [← kinds_append (Nat.le_succ p) le_skipFrom, kinds_succ (by omega), if_pos hp,
        ih (by omega), List.append_nil]
    · simp

lemma kinds_skipHidden (h : p ≤ s.size) : s.kinds p (s.skipHidden p) = [] :=
  kinds_skipFrom (by omega)

/-- An advance consumes exactly one token that the grammar sees. -/
lemma kinds_advance (hv : s.Visible p) (h : p < s.size) : s.kinds p (s.advance p) = [s.kind p] := by
  have hp : s.atEnd p = false := by simpa [atEnd] using h
  simp only [advance, hp, Bool.false_eq_true, if_false]
  rw [← kinds_append (Nat.le_succ p) le_skipHidden, kinds_skipHidden h, kinds_succ h, hv.2 h]
  simp

/-! ## Visible positions -/

lemma visible_skipHidden (h : p ≤ s.size) : s.Visible (s.skipHidden p) :=
  ⟨skipHidden_le_size h, isHidden_skipHidden⟩

lemma Visible.advance (hv : s.Visible p) : s.Visible (s.advance p) := by
  rw [TokenStream.advance]
  split
  · exact hv
  · next hp => exact visible_skipHidden (by simp [atEnd] at hp; omega)

lemma le_advance : p ≤ s.advance p := by
  rw [advance]
  split
  · exact Nat.le_refl p
  · exact Nat.le_of_succ_le le_skipHidden

/-- Hidden tokens are stepped over no further than to the next visible position. -/
lemma skipFrom_le_of_visible (hq : s.Visible q) (hpq : p ≤ q) (h : p + n ≤ s.size) :
    s.skipFrom n p ≤ q := by
  induction n generalizing p with
  | zero => exact hpq
  | succ n ih =>
    rw [skipFrom]
    split
    · next hp =>
      rcases Nat.eq_or_lt_of_le hpq with rfl | hlt
      · exact absurd (hq.2 (by omega)) (by simp [hp])
      · exact ih hlt (by omega)
    · exact hpq

/-- There is no visible position between one and the next. -/
lemma advance_le_of_visible (hq : s.Visible q) (hpq : p < q) : s.advance p ≤ q := by
  have hsize := hq.1
  have hp : s.atEnd p = false := by simp [atEnd]; omega
  simp only [advance, hp, Bool.false_eq_true, if_false, skipHidden]
  exact skipFrom_le_of_visible hq hpq (by omega)

/-! ## The stop -/

lemma stopFrom_spec (h : p + n = s.size) :
    s.Visible (s.stopFrom caret n p) ∧ s.reached caret (s.stopFrom caret n p) = true ∧
      ∀ q, p ≤ q → s.Visible q → s.reached caret q = true → s.stopFrom caret n p ≤ q := by
  -- the search ends at the end of the input at the latest, where the caret is always reached
  induction n generalizing p with
  | zero =>
    have hp : s.atEnd p = true := by simp [atEnd]; omega
    exact ⟨⟨by simp [stopFrom]; omega, fun h => by simp [stopFrom] at h; omega⟩,
      reached_of_atEnd hp, fun q hq _ _ => hq⟩
  | succ n ih =>
    obtain ⟨hv, hr, hmin⟩ := ih (p := p + 1) (by omega)
    rw [stopFrom]
    split
    · next hp =>
      simp only [Bool.and_eq_true, Bool.or_eq_true, Bool.not_eq_true'] at hp
      refine ⟨⟨by omega, fun hlt => ?_⟩, hp.2, fun q hq _ _ => hq⟩
      rcases hp.1 with hend | hvis
      · simp [atEnd] at hend
        omega
      · exact hvis
    · next hp =>
      refine ⟨hv, hr, fun q hpq hq hrq => ?_⟩
      rcases Nat.eq_or_lt_of_le hpq with rfl | hlt
      · refine absurd ?_ hp
        simp [hrq, hq.2 (by omega)]
      · exact hmin q hlt hq hrq

lemma visible_stop : s.Visible (s.stop caret) := (stopFrom_spec (Nat.zero_add _)).1

lemma reached_stop : s.reached caret (s.stop caret) = true :=
  (stopFrom_spec (Nat.zero_add _)).2.1

lemma stop_le (hv : s.Visible p) (hr : s.reached caret p = true) : s.stop caret ≤ p :=
  (stopFrom_spec (Nat.zero_add _)).2.2 p (Nat.zero_le p) hv hr

/-- At the latest at the stop, the caret is reached only there. -/
lemma eq_stop (hv : s.Visible p) (hr : s.reached caret p = true) (hle : p ≤ s.stop caret) :
    p = s.stop caret :=
  Nat.le_antisymm hle (stop_le hv hr)

lemma lt_stop (hr : s.reached caret p = false) (hle : p ≤ s.stop caret) : p < s.stop caret := by
  refine Nat.lt_of_le_of_ne hle fun h => ?_
  exact absurd (h ▸ reached_stop) (ne_true_of_eq_false hr)

/-- Where the caret is not reached, an advance does not get past the stop. -/
lemma advance_le_stop (hr : s.reached caret p = false) (hle : p ≤ s.stop caret) :
    s.advance p ≤ s.stop caret :=
  advance_le_of_visible visible_stop (lt_stop hr hle)

lemma skipHidden_zero_le_stop : s.skipHidden 0 ≤ s.stop caret :=
  skipFrom_le_of_visible visible_stop (Nat.zero_le _) (by omega)

/-- Where the caret is not reached, there is a token. -/
lemma lt_size_of_not_reached (hr : s.reached caret p = false) : p < s.size := by
  by_contra h
  have hend : s.atEnd p = true := by simp [atEnd]; omega
  exact absurd (reached_of_atEnd hend) (ne_true_of_eq_false hr)

end TokenStream

/-- The position at which a walk turns from matching to collecting. -/
def Session.stop (s : Session) : Nat := s.stream.stop s.caret

end GrammarCompletion
