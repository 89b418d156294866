/-
# The history of a vocabulary

A vocabulary comes from registering names one after the other, and the first one is that of the end
of the input.  `Vocabulary.Registers` relates a vocabulary to the list of all its registrations, its
history.  Everything that can be looked up can be told from the history alone.  The id of a name is
the one of its last registration (`LastIn`), the name that is shown for an id is the first of those
with the least rank (`BestIn`), and the names stand in the order of their first registration.

The three laws are proved by induction on the last registration.
-/
import GrammarCompletion.Vocabulary.Listing
import Mathlib.Data.List.Induction
import Mathlib.Tactic.Common

namespace GrammarCompletion.Vocabulary

/-- A vocabulary with its history: it is the initial one, the one that a listing describes, or one in
which a further name was registered. -/
inductive Registers : Vocabulary → List (String × TokenId) → Prop
  | initial : Registers .initial [("EOF", .eof)]
  | read {text : String} {v : Vocabulary} {l : List (String × TokenId)} (h : read text = .ok v)
      (hl : readLines 1 (Text.lines text.toList) = .ok l) : Registers v (("EOF", .eof) :: l)
  | insert {v : Vocabulary} {l : List (String × TokenId)} (h : Registers v l) (name : String)
      (id : TokenId) : Registers (v.insert name id) (l ++ [(name, id)])

/-- The last registration of a name is for an id. -/
def LastIn (l : List (String × TokenId)) (name : String) (id : TokenId) : Prop :=
  ∃ l₁ l₂, l = l₁ ++ (name, id) :: l₂ ∧ ∀ e ∈ l₂, e.1 ≠ name

/-- Among the names that were registered for an id, this one is the first of those with the least
rank. -/
def BestIn (l : List (String × TokenId)) (id : TokenId) (name : String) : Prop :=
  ∃ l₁ l₂, l = l₁ ++ (name, id) :: l₂ ∧ (∀ e ∈ l₁, e.2 = id → rank name < rank e.1) ∧
    ∀ e ∈ l₂, e.2 = id → rank name ≤ rank e.1

variable {v : Vocabulary} {l : List (String × TokenId)} {name other : String} {id i : TokenId}

/-- An entry of a list with one more at its end is that one, or it stands before it. -/
lemma exists_split_concat {α : Type} {l : List α} {x y : α} {P : List α → List α → Prop} :
    (∃ l₁ l₂, l ++ [x] = l₁ ++ y :: l₂ ∧ P l₁ l₂) ↔
      x = y ∧ P l [] ∨ ∃ l₁ l₂, l = l₁ ++ y :: l₂ ∧ P l₁ (l₂ ++ [x]) := by
  constructor
  · rintro ⟨l₁, l₂, h, hP⟩
    rcases List.eq_nil_or_concat l₂ with rfl | ⟨l₂, z, rfl⟩
    · obtain ⟨rfl, hx⟩ := List.append_inj' h rfl
      exact Or.inl ⟨List.singleton_inj.1 hx, hP⟩
    · rw [List.concat_eq_append, ← List.cons_append, ← List.append_assoc] at h
      obtain ⟨rfl, hx⟩ := List.append_inj' h rfl
      obtain rfl := List.singleton_inj.1 hx
      exact Or.inr ⟨l₁, l₂, rfl, by rwa [List.concat_eq_append] at hP⟩
  · rintro (⟨rfl, hP⟩ | ⟨l₁, l₂, rfl, hP⟩)
    · exact ⟨l, [], rfl, hP⟩
    · exact ⟨l₁, l₂ ++ [x], by simp, hP⟩

/-! ## One more registration -/

lemma insertAll_concat : v.insertAll (l ++ [(name, id)]) = (v.insertAll l).insert name id := by
  simp [insertAll]

lemma lastIn_concat : LastIn (l ++ [(other, i)]) name id ↔
    if name = other then id = i else LastIn l name id := by
  rw [LastIn, exists_split_concat]
  split
  · next h =>
    subst h
    constructor
    · rintro (⟨h, -⟩ | ⟨_, _, -, h⟩)
      · exact (Prod.mk.inj h).2.symm
      · exact absurd rfl (h (name, i) (by simp))
    · rintro rfl
      exact Or.inl ⟨rfl, by simp⟩
  · next h =>
    have hne : (other, i) ≠ (name, id) := fun he => h (Prod.mk.inj he).1.symm
    have hother : other ≠ name := fun he => h he.symm
    simp [LastIn, hne, hother, or_imp, forall_and]

/-- A further name for the id is the best one if its rank is less than that of all others. -/
lemma bestIn_concat_self : BestIn (l ++ [(other, id)]) id name ↔
    name = other ∧ (∀ e ∈ l, e.2 = id → rank other < rank e.1) ∨
      BestIn l id name ∧ rank name ≤ rank other := by
  rw [BestIn, exists_split_concat]
  refine or_congr ?_ ?_
  · simp only [Prod.mk.injEq, and_true, List.not_mem_nil, false_imp_iff, implies_true]
    constructor
    · rintro ⟨rfl, h⟩
      exact ⟨rfl, h⟩
    · rintro ⟨rfl, h⟩
      exact ⟨rfl, h⟩
  · constructor
    · rintro ⟨l₁, l₂, rfl, h₁, h₂⟩
      refine ⟨⟨l₁, l₂, rfl, h₁, fun e he => h₂ e (List.mem_append_left _ he)⟩, ?_⟩
      exact h₂ (other, id) (by simp) rfl
    · rintro ⟨⟨l₁, l₂, rfl, h₁, h₂⟩, hle⟩
      refine ⟨l₁, l₂, rfl, h₁, fun e he hid => ?_⟩
      rcases List.mem_append.1 he with he | he
      · exact h₂ e he hid
      · obtain rfl := List.mem_singleton.1 he
        exact hle

/-- A name for another id does not matter. -/
lemma bestIn_concat_of_ne (h : i ≠ id) : BestIn (l ++ [(other, i)]) id name ↔ BestIn l id name := by
  have hne : (other, i) ≠ (name, id) := fun he => h (Prod.mk.inj he).2
  rw [BestIn, exists_split_concat]
  simp [BestIn, hne, h, or_imp, forall_and]

/-- A rank is less than all of those that were registered if it is less than that of the best. -/
lemma BestIn.rank_lt_iff (h : BestIn l id name) {n : Nat} :
    (∀ e ∈ l, e.2 = id → n < rank e.1) ↔ n < rank name := by
  obtain ⟨l₁, l₂, rfl, h₁, h₂⟩ := h
  refine ⟨fun hall => hall (name, id) (by simp) rfl, fun hlt e he hid => ?_⟩
  rw [List.mem_append, List.mem_cons] at he
  rcases he with he | rfl | he
  · exact Nat.lt_trans hlt (h₁ e he hid)
  · exact hlt
  · exact Nat.lt_of_lt_of_le hlt (h₂ e he hid)

lemma displayName?_insert : (v.insert name i).displayName? id =
    if id = i then
      match v.displayName? i with
      | some current => some (if rank name < rank current then name else current)
      | none => some name
    else v.displayName? id := by
  simp only [displayName?, insert, offerDisplayName]
  cases hi : v.displayNames.get? i with
  | none => exact OrderedMap.get?_insert
  | some current =>
    dsimp only
    split
    · exact OrderedMap.get?_insert
    · split
      · next h => rw [h, hi]
      · rfl

lemma get?_eq_some_iff_of_history :
    (insertAll ⟨∅, ∅⟩ l).get? name = some id ↔ LastIn l name id := by
  induction l using List.reverseRecOn with
  | nil => simp [insertAll, get?, LastIn]
  | append_singleton l e ih =>
    obtain ⟨other, i⟩ := e
    rw [insertAll_concat, lastIn_concat, ← ih, get?_insert]
    split
    · rw [Option.some.injEq, eq_comm]
    · rfl

/-- An id without a shown name was never registered. -/
lemma not_mem_of_displayName?_eq_none (h : (insertAll ⟨∅, ∅⟩ l).displayName? id = none) :
    ∀ e ∈ l, e.2 ≠ id := by
  induction l using List.reverseRecOn with
  | nil => exact fun e he => absurd he List.not_mem_nil
  | append_singleton l e ih =>
    obtain ⟨other, i⟩ := e
    rw [insertAll_concat, displayName?_insert] at h
    split at h
    · split at h <;> cases h
    · next hne =>
      intro e he
      rcases List.mem_append.1 he with he | he
      · exact ih h e he
      · obtain rfl := List.mem_singleton.1 he
        exact fun hi => hne hi.symm

lemma displayName?_eq_some_iff_of_history :
    (insertAll ⟨∅, ∅⟩ l).displayName? id = some name ↔ BestIn l id name := by
  induction l using List.reverseRecOn generalizing name with
  | nil => simp [insertAll, displayName?, BestIn]
  | append_singleton l e ih =>
    obtain ⟨other, i⟩ := e
    rw [insertAll_concat, displayName?_insert]
    split
    · next hi =>
      subst hi
      rw [bestIn_concat_self]
      cases hd : (insertAll ⟨∅, ∅⟩ l).displayName? id with
      | none =>
        -- the first name for the id
        have hnew : ∀ e ∈ l, e.2 = id → rank other < rank e.1 := fun e he hid =>
          absurd hid (not_mem_of_displayName?_eq_none hd e he)
        have hnone : ¬ BestIn l id name := by simp [← ih, hd]
        simp only [Option.some.injEq, hnone, false_and, or_false, and_iff_left hnew]
        exact eq_comm
      | some current =>
        have hbest : ∀ n, BestIn l id n ↔ n = current := fun n => by
          rw [← ih, hd, Option.some.injEq, eq_comm]
        -- the name shown before has the least rank so far
        simp only [((hbest current).2 rfl).rank_lt_iff, hbest, Option.some.injEq]
        split
        · next h =>
          constructor
          · rintro rfl
            exact Or.inl ⟨rfl, h⟩
          · rintro (⟨rfl, -⟩ | ⟨rfl, hle⟩)
            · rfl
            · omega
        · next h =>
          constructor
          · rintro rfl
            exact Or.inr ⟨rfl, Nat.le_of_not_lt h⟩
          · rintro (⟨-, hlt⟩ | ⟨rfl, -⟩)
            · exact absurd hlt h
            · rfl
    · next hi => rw [bestIn_concat_of_ne fun h => hi h.symm, ih]

namespace Registers

/-- Registering further names makes the history longer. -/
lemma append (h : Registers v l) (l' : List (String × TokenId)) :
    Registers (v.insertAll l') (l ++ l') := by
  induction l' generalizing v l with
  | nil => rwa [List.append_nil]
  | cons e l' ih =>
    rw [← List.singleton_append, ← List.append_assoc]
    exact ih (h.insert e.1 e.2)

/-- A vocabulary is the result of its history. -/
lemma eq_insertAll (h : Registers v l) : v = insertAll ⟨∅, ∅⟩ l := by
  induction h with
  | initial => rfl
  | read h hl =>
    rw [Vocabulary.read, hl] at h
    obtain rfl := Except.ok.inj h
    rfl
  | insert _ name id ih => rw [ih, insertAll_concat]

/-- The id of a name is the one of its last registration. -/
lemma get?_eq_some_iff (h : Registers v l) : v.get? name = some id ↔ LastIn l name id :=
  h.eq_insertAll ▸ get?_eq_some_iff_of_history

/-- The first name of the least rank is shown. -/
lemma displayName?_eq_some_iff (h : Registers v l) :
    v.displayName? id = some name ↔ BestIn l id name :=
  h.eq_insertAll ▸ displayName?_eq_some_iff_of_history

/-- Every id that was registered has a shown name. -/
lemma exists_displayName? (h : Registers v l) (hmem : (name, id) ∈ l) :
    ∃ n, v.displayName? id = some n := by
  cases hd : v.displayName? id with
  | some n => exact ⟨n, rfl⟩
  | none =>
    rw [h.eq_insertAll] at hd
    exact absurd rfl (not_mem_of_displayName?_eq_none hd _ hmem)

end Registers

end GrammarCompletion.Vocabulary
