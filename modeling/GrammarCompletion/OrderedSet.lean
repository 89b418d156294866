/-
# Sets that keep the order of insertion

`OrderedSet α` is a finite set whose members stand in the order in which they were first inserted.
Inserting a member again changes nothing.
-/

namespace GrammarCompletion

/-- A finite set whose members stand in the order in which they were first inserted. -/
structure OrderedSet (α : Type) where
  /-- The members, the oldest first. -/
  toList : List α
  /-- No member stands twice. -/
  nodup : toList.Nodup
deriving DecidableEq

namespace OrderedSet

variable {α : Type}

/-- The set without members. -/
def empty : OrderedSet α := ⟨[], List.nodup_nil⟩

instance : EmptyCollection (OrderedSet α) := ⟨empty⟩

instance : Inhabited (OrderedSet α) := ⟨empty⟩

instance : Membership α (OrderedSet α) where
  mem s a := a ∈ s.toList

/-- The set with one member. -/
def singleton (a : α) : OrderedSet α := ⟨[a], by simp⟩

/-- Whether there are no members. -/
def isEmpty (s : OrderedSet α) : Bool := s.toList.isEmpty

variable [DecidableEq α]

instance (a : α) (s : OrderedSet α) : Decidable (a ∈ s) :=
  inferInstanceAs (Decidable (a ∈ s.toList))

/-- Adds a member at the end unless it is present. -/
def insert (s : OrderedSet α) (a : α) : OrderedSet α :=
  if h : a ∈ s.toList then s
  else ⟨s.toList ++ [a], List.nodup_append.2
    ⟨s.nodup, by simp, fun x hx y hy hxy => h (by rw [List.mem_singleton] at hy; exact hy ▸ hxy ▸ hx)⟩⟩

/-- Inserts the members of a list one after the other. -/
def insertAll (s : OrderedSet α) (l : List α) : OrderedSet α :=
  l.foldl insert s

/-- The set of the members of a list, each at the place of its first occurrence. -/
def ofList (l : List α) : OrderedSet α := insertAll ∅ l

variable {s : OrderedSet α} {a b : α}

omit [DecidableEq α] in
/-- A set is determined by the order of its members. -/
theorem ext {s t : OrderedSet α} (h : s.toList = t.toList) : s = t := by
  cases s
  cases t
  simpa using h

omit [DecidableEq α] in
theorem mem_iff : a ∈ s ↔ a ∈ s.toList := Iff.rfl

omit [DecidableEq α] in
@[simp] theorem not_mem_empty : a ∉ (∅ : OrderedSet α) := by
  simp [mem_iff, EmptyCollection.emptyCollection, empty]

omit [DecidableEq α] in
@[simp] theorem mem_singleton : a ∈ singleton b ↔ a = b := by
  simp [mem_iff, singleton]

/-- Insertion adds a new member at the end and leaves the set alone otherwise. -/
theorem toList_insert : (s.insert a).toList = if a ∈ s then s.toList else s.toList ++ [a] := by
  by_cases h : a ∈ s.toList
  · simp [insert, mem_iff, h]
  · simp [insert, mem_iff, h]

@[simp] theorem mem_insert : b ∈ s.insert a ↔ b = a ∨ b ∈ s := by
  rw [mem_iff, toList_insert]
  split
  · next h => exact ⟨Or.inr, fun hb => hb.elim (fun e => e ▸ h) id⟩
  · simp [mem_iff, or_comm]

@[simp] theorem mem_insertAll {l : List α} : b ∈ s.insertAll l ↔ b ∈ s ∨ b ∈ l := by
  induction l generalizing s with
  | nil => simp [insertAll]
  | cons a l ih =>
    rw [insertAll, List.foldl_cons, ← insertAll, ih, mem_insert, List.mem_cons]
    constructor
    · rintro ((h | h) | h)
      · exact Or.inr (Or.inl h)
      · exact Or.inl h
      · exact Or.inr (Or.inr h)
    · rintro (h | h | h)
      · exact Or.inl (Or.inr h)
      · exact Or.inl (Or.inl h)
      · exact Or.inr h

@[simp] theorem mem_ofList {l : List α} : b ∈ ofList l ↔ b ∈ l := by
  simp [ofList]

@[simp] theorem insertAll_nil : s.insertAll [] = s := rfl

@[simp] theorem insertAll_cons (a : α) (l : List α) :
    s.insertAll (a :: l) = (s.insert a).insertAll l := rfl

theorem insertAll_append (l₁ l₂ : List α) :
    s.insertAll (l₁ ++ l₂) = (s.insertAll l₁).insertAll l₂ := by
  simp [insertAll]

/-- Members that are present already change nothing. -/
theorem insertAll_of_subset {l : List α} (h : ∀ a ∈ l, a ∈ s) : s.insertAll l = s := by
  induction l with
  | nil => rfl
  | cons a l ih =>
    have ha : s.insert a = s := ext (by rw [toList_insert, if_pos (h a List.mem_cons_self)])
    rw [insertAll_cons, ha, ih fun b hb => h b (List.mem_cons_of_mem a hb)]

/-- Members that are all new come last, in their order. -/
theorem toList_insertAll_of_not_mem {l : List α} (hl : l.Nodup) (h : ∀ a ∈ l, a ∉ s) :
    (s.insertAll l).toList = s.toList ++ l := by
  induction l generalizing s with
  | nil => simp
  | cons a l ih =>
    rw [List.nodup_cons] at hl
    rw [insertAll_cons, ih hl.2, toList_insert, if_neg (h a List.mem_cons_self)]
    · simp
    · intro b hb hmem
      rcases mem_insert.1 hmem with rfl | hs
      · exact hl.1 hb
      · exact h b (List.mem_cons_of_mem a hb) hs

/-- A set is the set of its members. -/
@[simp] theorem ofList_toList (s : OrderedSet α) : ofList s.toList = s :=
  ext (toList_insertAll_of_not_mem s.nodup fun _ _ => not_mem_empty)

end OrderedSet

end GrammarCompletion
