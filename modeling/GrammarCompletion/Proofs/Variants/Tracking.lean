/-
# Walks that track each other

Of two parts of walks that start from related runs, one *tracks* the other if it ends with the same
error, or with the same result in a run that is related again, unless it ends with an error that is
excused (`Walk.Tracks`).  The rules below say so of parts that are put together in the same way.

What one walk does in a single step may take the other one several.  If these record nothing but
events, then they are as good as none (`Walk.Silent`).
-/
import GrammarCompletion.Walk.Match
import Mathlib.Tactic.Common

namespace GrammarCompletion

namespace Walk

variable {α β : Type}

/-- From runs that are related, the second part ends with an error that is excused, or like the
first one: with the same error, or with the same result and runs that are related again. -/
def Tracks (E : CompletionError → Prop) (R : Run → Run → Prop) (x y : Walk α) : Prop :=
  ∀ r r', R r r' → match x r, y r' with
    | .ok a r₁, .ok b r₁' => b = a ∧ R r₁ r₁'
    | .ok _ _, .error e' _ => E e'
    | .error e _, .error e' _ => e' = e ∨ E e'
    | .error _ _, .ok _ _ => False

/-- A part of a walk has a certain result and records nothing but events. -/
def Silent (x : Walk α) (a : α) : Prop := ∀ r, ∃ l, x r = .ok a { r with events := l }

namespace Silent

lemma pure (a : α) : Silent (Pure.pure a) a := fun r => ⟨r.events, rfl⟩

lemma emit (e : Event) : Silent (emit e) () := fun r => ⟨e :: r.events, rfl⟩

lemma bind {x : Walk α} {f : α → Walk β} {a : α} {b : β} (hx : Silent x a) (hf : Silent (f a) b) :
    Silent (x >>= f) b := by
  intro r
  obtain ⟨l, hl⟩ := hx r
  obtain ⟨l', hl'⟩ := hf { r with events := l }
  exact ⟨l', by simp only [Bind.bind, EStateM.bind, hl, hl']⟩

end Silent

namespace Tracks

variable {E : CompletionError → Prop} {R : Run → Run → Prop} {x y : Walk α}

lemma pure (a : α) : Tracks E R (Pure.pure a) (Pure.pure a) := fun _ _ hr => ⟨rfl, hr⟩

lemma throw (e : CompletionError) :
    Tracks E R (MonadExcept.throw e : Walk α) (MonadExcept.throw e : Walk α) :=
  fun _ _ _ => Or.inl rfl

/-- Whatever one walk does, the other one may end with an error that is excused. -/
lemma excused {e : CompletionError} (he : E e) : Tracks E R x (MonadExcept.throw e) := by
  intro r r' _
  cases x r with
  | ok a r₁ => exact he
  | error e' r₁ => exact Or.inr he

lemma modify {f g : Run → Run} (h : ∀ r r', R r r' → R (f r) (g r')) :
    Tracks E R (modify f : Walk Unit) (modify g : Walk Unit) :=
  fun r r' hr => ⟨rfl, h r r' hr⟩

/-- What is done may depend on the runs. -/
lemma get {f g : Run → Walk α} (h : ∀ r r', R r r' → Tracks E R (f r) (g r')) :
    Tracks E R (get >>= f) (get >>= g) :=
  fun r r' hr => h r r' hr r r' hr

lemma bind {f g : α → Walk β} (hx : Tracks E R x y) (hf : ∀ a, Tracks E R (f a) (g a)) :
    Tracks E R (x >>= f) (y >>= g) := by
  intro r r' hr
  have h := hx r r' hr
  simp only [Bind.bind, EStateM.bind]
  cases hxr : x r with
  | ok a r₁ =>
    cases hyr : y r' with
    | ok b r₁' =>
      rw [hxr, hyr] at h
      obtain ⟨rfl, hr₁⟩ := h
      exact hf b r₁ r₁' hr₁
    | error e' r₁' =>
      rw [hxr, hyr] at h
      -- the first walk may still end with an error of its own
      dsimp only
      cases f a r₁ with
      | ok b r₂ => exact h
      | error e r₂ => exact Or.inr h
  | error e r₁ =>
    cases hyr : y r' with
    | ok b r₁' => rw [hxr, hyr] at h; exact h.elim
    | error e' r₁' => rw [hxr, hyr] at h; exact h

lemma ite {c : Prop} [Decidable c] {x' y' : Walk α} (hx : c → Tracks E R x y)
    (hy : ¬ c → Tracks E R x' y') : Tracks E R (if c then x else x') (if c then y else y') := by
  by_cases h : c
  · rw [if_pos h, if_pos h]
    exact hx h
  · rw [if_neg h, if_neg h]
    exact hy h

/-- Events on one side only. -/
lemma of_silent {a : α} (hR : ∀ {r r'} l, R r r' → R r { r' with events := l }) (hy : Silent y a) :
    Tracks E R (Pure.pure a) y := by
  intro r r' hr
  obtain ⟨l, hl⟩ := hy r'
  rw [hl]
  exact ⟨rfl, hR l hr⟩

/-- The result of a part that does not go wrong on the first side. -/
lemma ok {r r' r₁ : Run} {a : α} (h : Tracks E R x y) (hr : R r r') (hx : x r = .ok a r₁) :
    (∃ r₁', y r' = .ok a r₁' ∧ R r₁ r₁') ∨ ∃ e r₁', y r' = .error e r₁' ∧ E e := by
  have h := h r r' hr
  cases hy : y r' with
  | ok b r₁' =>
    rw [hx, hy] at h
    obtain ⟨rfl, hr₁⟩ := h
    exact Or.inl ⟨r₁', rfl, hr₁⟩
  | error e r₁' =>
    rw [hx, hy] at h
    exact Or.inr ⟨e, r₁', rfl, h⟩

lemma error {r r' r₁ : Run} {e : CompletionError} (h : Tracks E R x y) (hr : R r r')
    (hx : x r = .error e r₁) : ∃ e' r₁', y r' = .error e' r₁' ∧ (e' = e ∨ E e') := by
  have h := h r r' hr
  cases hy : y r' with
  | ok b r₁' => rw [hx, hy] at h; exact h.elim
  | error e' r₁' =>
    rw [hx, hy] at h
    exact ⟨e', r₁', rfl, h⟩

end Tracks

end Walk

end GrammarCompletion
