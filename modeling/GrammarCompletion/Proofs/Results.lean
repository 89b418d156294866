/-
# Results without errors

What is known of the parts of a computation in `Except` that ended without an error: of two steps,
and of the elements of a list that was mapped.
-/
import Mathlib.Data.List.Forall2
import Mathlib.Tactic.Lemma

namespace GrammarCompletion

/-- Each element on one side is related to one on the other. -/
lemma exists_of_forall₂ {α β : Type} {R : α → β → Prop} {l : List α} {l' : List β}
    (h : List.Forall₂ R l l') :
    (∀ a ∈ l, ∃ b ∈ l', R a b) ∧ ∀ b ∈ l', ∃ a ∈ l, R a b := by
  induction h with
  | nil => simp
  | @cons a b l l' hab _ ih =>
    refine ⟨fun x hx => ?_, fun y hy => ?_⟩
    · rcases List.mem_cons.1 hx with rfl | hx
      · exact ⟨b, List.mem_cons_self, hab⟩
      · obtain ⟨y, hy, hxy⟩ := ih.1 x hx
        exact ⟨y, List.mem_cons_of_mem b hy, hxy⟩
    · rcases List.mem_cons.1 hy with rfl | hy
      · exact ⟨a, List.mem_cons_self, hab⟩
      · obtain ⟨x, hx, hxy⟩ := ih.2 y hy
        exact ⟨x, List.mem_cons_of_mem a hx, hxy⟩

/-- Lists whose elements have the same images are mapped to the same list. -/
lemma map_eq_of_forall₂ {α β γ : Type} {f : α → γ} {g : β → γ} {l : List α} {l' : List β}
    (h : List.Forall₂ (fun a b => f a = g b) l l') : l.map f = l'.map g := by
  induction h with
  | nil => rfl
  | cons hab _ ih => rw [List.map_cons, List.map_cons, hab, ih]

namespace Except

variable {ε α β : Type} {f : α → Except ε β} {l : List α} {l' : List β}

lemma bind_eq_ok {x : Except ε α} {b : β} : x >>= f = .ok b ↔ ∃ a, x = .ok a ∧ f a = .ok b := by
  cases x <;> simp [bind, Except.bind]

/-- A last step that cannot fail does not matter. -/
lemma exists_bind_pure_iff {x : Except ε α} {g : α → β} :
    (∃ b, (x >>= fun a => Pure.pure (g a)) = .ok b) ↔ ∃ a, x = .ok a := by
  cases x <;> simp [bind, Except.bind, Pure.pure, Except.pure]

/-- Two steps, of which the second one may fail, whatever the first one has led to. -/
lemma exists_bind_iff {x : Except ε α} {q : Prop} (h : ∀ a, (∃ b, f a = .ok b) ↔ q) :
    (∃ b, x >>= f = .ok b) ↔ (∃ a, x = .ok a) ∧ q := by
  cases x with
  | error e => simp [bind, Except.bind]
  | ok a => simpa [bind, Except.bind] using h a

/-- An error that no step yields is not yielded. -/
lemma bind_ne_error {x : Except ε α} {e : ε} (hx : x ≠ .error e) (hf : ∀ a, f a ≠ .error e) :
    x >>= f ≠ .error e := by
  cases x with
  | error e' => exact fun h => hx (congrArg Except.error (Except.error.inj h))
  | ok a => exact hf a

/-- An error that comes from no element does not come from the list. -/
lemma mapM_ne_error {e : ε} (h : ∀ a ∈ l, f a ≠ .error e) : l.mapM f ≠ .error e := by
  induction l with
  | nil => simp [Pure.pure, Except.pure]
  | cons a l ih =>
    rw [List.mapM_cons]
    refine bind_ne_error (h a List.mem_cons_self) fun b => ?_
    exact bind_ne_error (ih fun a' ha' => h a' (List.mem_cons_of_mem a ha')) fun bs => by
      simp [Pure.pure, Except.pure]

/-- A list is mapped element by element. -/
lemma forall₂_of_mapM (h : l.mapM f = .ok l') : List.Forall₂ (fun a b => f a = .ok b) l l' := by
  induction l generalizing l' with
  | nil =>
    obtain rfl : [] = l' := by simpa [pure, Except.pure] using h
    exact .nil
  | cons a l ih =>
    rw [List.mapM_cons] at h
    obtain ⟨b, hb, h⟩ := bind_eq_ok.1 h
    obtain ⟨bs, hbs, h⟩ := bind_eq_ok.1 h
    obtain rfl : b :: bs = l' := by simpa [pure, Except.pure] using h
    exact .cons hb (ih hbs)

lemma exists_mem_of_mapM (h : l.mapM f = .ok l') {a : α} (ha : a ∈ l) : ∃ b ∈ l', f a = .ok b :=
  (exists_of_forall₂ (forall₂_of_mapM h)).1 a ha

lemma exists_of_mem_mapM (h : l.mapM f = .ok l') {b : β} (hb : b ∈ l') : ∃ a ∈ l, f a = .ok b :=
  (exists_of_forall₂ (forall₂_of_mapM h)).2 b hb

/-- A list is mapped if all its elements are. -/
lemma exists_mapM_iff : (∃ l', l.mapM f = .ok l') ↔ ∀ a ∈ l, ∃ b, f a = .ok b := by
  constructor
  · rintro ⟨l', h⟩ a ha
    obtain ⟨b, -, hb⟩ := exists_mem_of_mapM h ha
    exact ⟨b, hb⟩
  · intro h
    induction l with
    | nil => exact ⟨[], rfl⟩
    | cons a l ih =>
      obtain ⟨b, hb⟩ := h a List.mem_cons_self
      obtain ⟨l', hl'⟩ := ih fun a' ha' => h a' (List.mem_cons_of_mem a ha')
      refine ⟨b :: l', ?_⟩
      rw [List.mapM_cons, hb, hl']
      rfl

end Except

end GrammarCompletion
