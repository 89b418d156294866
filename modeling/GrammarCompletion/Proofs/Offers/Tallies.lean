/-
# Comparisons of alternatives

A rule that tries its alternatives keeps the one that got furthest, and of several the first.  What
becomes of the best alternative when one more is added is said by `Tally.best_add`.  Two comparisons
of which one is of alternatives that all got further can be put together (`Tally.beyond`), and it
makes no difference in which order their alternatives were tried.
-/
import GrammarCompletion.Walk.Match
import Mathlib.Data.Nat.Basic
import Mathlib.Order.Basic
import Mathlib.Tactic.Push

namespace GrammarCompletion

namespace Tally

/-- The comparison of alternatives that got further than those of another comparison. -/
def beyond (further t : Tally) : Tally :=
  ⟨t.matched || further.matched, further.best.or t.best⟩

/-- No alternative that counts got past a position. -/
def Below (t : Tally) (q : Nat) : Prop := ∀ b, t.best = some b → b.1 ≤ q

/-- Every alternative that counts got past a position. -/
def Above (t : Tally) (q : Nat) : Prop := ∀ b, t.best = some b → q < b.1

variable {t u : Tally} {o : Outcome} {q : Nat}

lemma eq_of (hm : t.matched = u.matched) (hb : t.best = u.best) : t = u := by
  cases t
  cases u
  simp_all

lemma add_of_not_isUsable (ho : o.isUsable = false) : t.add o = t := by
  have hmatched : o.matched = false := by
    simp only [Outcome.isUsable, Bool.or_eq_false_iff] at ho
    exact ho.1
  simp [add, ho, hmatched]

lemma best_add_of_lt (ho : o.isUsable = true) (h : ∀ b, t.best = some b → b.1 < o.stop) :
    (t.add o).best = some (o.stop, o.phase) := by
  have hall : (t.best.all fun b => b.1 < o.stop) = true := by
    rw [Option.all_eq_true]
    exact fun b hb => decide_eq_true (h b hb)
  rw [add]
  exact if_pos (Bool.and_eq_true_iff.2 ⟨ho, hall⟩)

lemma best_add_of_le {b : Nat × Phase} (hb : t.best = some b) (h : o.stop ≤ b.1) :
    (t.add o).best = some b := by
  simp [add, hb, Nat.not_lt.2 h]

/-- An alternative that is as good as one before it changes nothing. -/
lemma add_add_self : (t.add o).add o = t.add o := by
  have hmatched : ((t.add o).add o).matched = (t.add o).matched := by
    simp only [add, Bool.or_assoc, Bool.or_self]
  have hbest : ((t.add o).add o).best = (t.add o).best := by
    cases ho : o.isUsable with
    | false => rw [add_of_not_isUsable ho, add_of_not_isUsable ho]
    | true =>
      by_cases h : ∀ b, t.best = some b → b.1 < o.stop
      · rw [best_add_of_le (best_add_of_lt ho h) (Nat.le_refl _), best_add_of_lt ho h]
      · push Not at h
        obtain ⟨b, hb, hle⟩ := h
        rw [best_add_of_le (best_add_of_le hb hle) hle, best_add_of_le hb hle]
  exact eq_of hmatched hbest

/-- Two alternatives may be added in either order, if they go on alike where they get equally far. -/
lemma add_right_comm {o' : Outcome} (h : o.isUsable = true → o'.isUsable = true →
    o.stop = o'.stop → o.phase = o'.phase) : (t.add o).add o' = (t.add o').add o := by
  have hmatched : ((t.add o).add o').matched = ((t.add o').add o).matched :=
    Bool.or_right_comm t.matched o.matched o'.matched
  cases ho : o.isUsable with
  | false => rw [add_of_not_isUsable ho, add_of_not_isUsable ho]
  | true =>
    cases ho' : o'.isUsable with
    | false => rw [add_of_not_isUsable ho', add_of_not_isUsable ho']
    | true =>
      -- the best of both does not depend on which of them comes first
      have hbest : ((t.add o).add o').best = ((t.add o').add o).best := by
        simp only [add, ho, ho', Bool.true_and]
        cases t.best with
        | none => grind
        | some b => grind
      exact eq_of hmatched hbest

/-- An alternative that is added takes the place of the best one or does not get further. -/
lemma best_add (ho : o.isUsable = true) :
    (t.add o).best = some (o.stop, o.phase) ∧ (∀ b, t.best = some b → b.1 < o.stop) ∨
      ∃ b, t.best = some b ∧ o.stop ≤ b.1 ∧ (t.add o).best = some b := by
  by_cases h : ∀ b, t.best = some b → b.1 < o.stop
  · exact Or.inl ⟨best_add_of_lt ho h, h⟩
  · push Not at h
    obtain ⟨b, hb, hle⟩ := h
    exact Or.inr ⟨b, hb, hle, best_add_of_le hb hle⟩

lemma Below.of_add (h : (t.add o).Below q) : t.Below q ∧ (o.isUsable = true → o.stop ≤ q) := by
  cases ho : o.isUsable with
  | false =>
    rw [add_of_not_isUsable ho] at h
    exact ⟨h, fun hu => absurd hu Bool.false_ne_true⟩
  | true =>
    rcases best_add (t := t) ho with ⟨hbest, hlt⟩ | ⟨b, hb, hle, hbest⟩
    · have hstop := h _ hbest
      exact ⟨fun b hb => (hlt b hb).le.trans hstop, fun _ => hstop⟩
    · exact ⟨fun b' hb' => h b' (hbest.trans (hb.symm.trans hb')), fun _ => hle.trans (h b hbest)⟩

lemma Below.outcome_stop (h : t.Below q) {p : Nat} (hp : p ≤ q) : (t.outcome p).stop ≤ q := by
  cases hb : t.best with
  | none =>
    simp only [Tally.outcome, hb]
    exact hp
  | some b =>
    simp only [Tally.outcome, hb]
    exact h b hb

lemma below_outcome {p : Nat} : t.Below (t.outcome p).stop := by
  intro b hb
  simp only [Tally.outcome, hb]
  exact Nat.le_refl _

/-- The comparison of one alternative. -/
lemma outcome_single {p : Nat} (h : o.isUsable = false → o.stop = p) :
    (({} : Tally).add o).outcome p = o := by
  cases hu : o.isUsable with
  | false =>
    obtain ⟨matched, stop, phase⟩ := o
    obtain rfl : stop = p := h hu
    simp only [Outcome.isUsable, Bool.or_eq_false_iff, decide_eq_false_iff_not, not_not] at hu
    obtain ⟨rfl, rfl⟩ := hu
    rfl
  | true =>
    simp [Tally.outcome, add, hu]

lemma above_empty : ({} : Tally).Above q := by
  intro b hb
  simp at hb

lemma Above.add (h : t.Above q) (ho : o.isUsable = true → q < o.stop) : (t.add o).Above q := by
  cases hu : o.isUsable with
  | false =>
    rw [add_of_not_isUsable hu]
    exact h
  | true =>
    rcases best_add (t := t) hu with ⟨hbest, -⟩ | ⟨b, hb, -, hbest⟩
    · intro b hb
      obtain rfl := Option.some.inj (hbest.symm.trans hb)
      exact ho hu
    · intro b' hb'
      obtain rfl := Option.some.inj (hbest.symm.trans hb')
      exact h b hb

/-- An alternative that counts got at least to a position. -/
def Reaches (t : Tally) (q : Nat) : Prop := ∃ b, t.best = some b ∧ q ≤ b.1

lemma reaches_add (ho : o.isUsable = true) : (t.add o).Reaches o.stop := by
  rcases best_add (t := t) ho with ⟨hbest, -⟩ | ⟨b, -, hle, hbest⟩
  · exact ⟨_, hbest, Nat.le_refl _⟩
  · exact ⟨b, hbest, hle⟩

lemma Reaches.add (h : t.Reaches q) : (t.add o).Reaches q := by
  cases ho : o.isUsable with
  | false =>
    rw [add_of_not_isUsable ho]
    exact h
  | true =>
    obtain ⟨b, hb, hle⟩ := h
    rcases best_add (t := t) ho with ⟨hbest, hlt⟩ | ⟨b', hb', -, hbest⟩
    · exact ⟨_, hbest, hle.trans (hlt b hb).le⟩
    · obtain rfl := Option.some.inj (hb.symm.trans hb')
      exact ⟨b, hbest, hle⟩

/-- The best alternative is the one that was added, or it was the best one before. -/
lemma best_add_cases {b : Nat × Phase} (h : (t.add o).best = some b) :
    t.best = some b ∨ o.isUsable = true ∧ b = (o.stop, o.phase) := by
  cases ho : o.isUsable with
  | false =>
    rw [add_of_not_isUsable ho] at h
    exact Or.inl h
  | true =>
    rcases best_add (t := t) ho with ⟨hbest, -⟩ | ⟨b', hb', -, hbest⟩
    · exact Or.inr ⟨rfl, Option.some.inj (h.symm.trans hbest)⟩
    · exact Or.inl (hb'.trans (hbest.symm.trans h))

/-- An alternative that did not get past the position is one of the others. -/
lemma beyond_add_right (hu : u.Above q) (ho : o.isUsable = true → o.stop ≤ q) :
    (u.beyond t).add o = u.beyond (t.add o) := by
  cases hus : o.isUsable with
  | false => rw [add_of_not_isUsable hus, add_of_not_isUsable hus]
  | true =>
    have hmatched : ((u.beyond t).add o).matched = (u.beyond (t.add o)).matched := by
      simp only [add, beyond]
      exact Bool.or_right_comm _ _ _
    have hbest : ((u.beyond t).add o).best = (u.beyond (t.add o)).best := by
      cases hb : u.best with
      | none => simp only [add, beyond, hb, Option.none_or]
      | some b =>
        have hle : o.stop ≤ b.1 := (ho hus).trans (hu b hb).le
        have hboth : (u.beyond t).best = some b := by rw [beyond, hb, Option.some_or]
        rw [best_add_of_le hboth hle, beyond, hb, Option.some_or]
    exact eq_of hmatched hbest

/-- An alternative that got past the position is one of those that got further. -/
lemma beyond_add_left (ht : t.Below q) (ho : o.isUsable = true → q < o.stop) :
    (u.beyond t).add o = (u.add o).beyond t := by
  cases hus : o.isUsable with
  | false => rw [add_of_not_isUsable hus, add_of_not_isUsable hus]
  | true =>
    have hmatched : ((u.beyond t).add o).matched = ((u.add o).beyond t).matched := by
      simp only [add, beyond]
      exact Bool.or_assoc _ _ _
    have hbest : ((u.beyond t).add o).best = ((u.add o).beyond t).best := by
      cases hb : u.best with
      | none =>
        have hlt : ∀ b, (u.beyond t).best = some b → b.1 < o.stop := by
          intro b hb'
          rw [beyond, hb, Option.none_or] at hb'
          exact (ht b hb').trans_lt (ho hus)
        have hnone : ∀ b, u.best = some b → b.1 < o.stop := fun b hb' => by simp [hb] at hb'
        rw [best_add_of_lt hus hlt, beyond, best_add_of_lt hus hnone, Option.some_or]
      | some b =>
        simp only [add, beyond, hb, Option.some_or, hus, Bool.true_and, Option.all_some]
        split <;> rfl
    exact eq_of hmatched hbest

end Tally

end GrammarCompletion
