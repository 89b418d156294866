/-
# Maps that keep the order of insertion

`OrderedMap κ ν` is a finite map whose entries stand in the order in which their keys were first
inserted.  Inserting a key again keeps its place and replaces its value.  The place of a key is
part of what a client sees: `indexOf?` turns a key into its place and `entry?` turns a place into
an entry.

The view of a map is its list of entries.  `keys_insert` and `get?_insert` say what insertion does
to the two sides of it.
-/

namespace GrammarCompletion

/-- A finite map whose entries stand in the order in which their keys were first inserted. -/
structure OrderedMap (κ ν : Type) where
  /-- The entries, the oldest key first. -/
  entries : List (κ × ν)
  /-- No key has two entries. -/
  nodup_keys : (entries.map Prod.fst).Nodup
deriving DecidableEq

namespace OrderedMap

variable {κ ν : Type}

/-- The map without entries. -/
def empty : OrderedMap κ ν := ⟨[], List.nodup_nil⟩

instance : EmptyCollection (OrderedMap κ ν) := ⟨empty⟩

instance : Inhabited (OrderedMap κ ν) := ⟨empty⟩

/-- The keys in the order of first insertion. -/
def keys (m : OrderedMap κ ν) : List κ := m.entries.map Prod.fst

/-- The values in the order of their keys. -/
def values (m : OrderedMap κ ν) : List ν := m.entries.map Prod.snd

/-- The number of entries. -/
def size (m : OrderedMap κ ν) : Nat := m.entries.length

/-- Whether there are no entries. -/
def isEmpty (m : OrderedMap κ ν) : Bool := m.entries.isEmpty

/-- The entry at a place. -/
def entry? (m : OrderedMap κ ν) (i : Nat) : Option (κ × ν) := m.entries[i]?

instance : Membership κ (OrderedMap κ ν) where
  mem m k := k ∈ m.keys

variable [DecidableEq κ]

/-- The value of a key. -/
def get? (m : OrderedMap κ ν) (k : κ) : Option ν := m.entries.lookup k

/-- The place of a key. -/
def indexOf? (m : OrderedMap κ ν) (k : κ) : Option Nat := m.keys.idxOf? k

instance (k : κ) (m : OrderedMap κ ν) : Decidable (k ∈ m) :=
  inferInstanceAs (Decidable (k ∈ m.keys))

/-- Replaces the value of `k` where `k` stands, or appends an entry for it. -/
def insertEntry (k : κ) (v : ν) : List (κ × ν) → List (κ × ν)
  | [] => [(k, v)]
  | e :: l => if e.1 = k then (k, v) :: l else e :: insertEntry k v l

theorem keys_insertEntry (k : κ) (v : ν) (l : List (κ × ν)) :
    (insertEntry k v l).map Prod.fst =
      if k ∈ l.map Prod.fst then l.map Prod.fst else l.map Prod.fst ++ [k] := by
  induction l with
  | nil => simp [insertEntry]
  | cons e l ih =>
    by_cases h : e.1 = k
    · simp [insertEntry, h]
    · have h' : ¬ k = e.1 := fun he => h he.symm
      simp only [insertEntry, h, if_false, List.map_cons, ih, List.mem_cons, h', false_or]
      split <;> simp

theorem nodup_keys_insertEntry (k : κ) (v : ν) {l : List (κ × ν)}
    (h : (l.map Prod.fst).Nodup) : ((insertEntry k v l).map Prod.fst).Nodup := by
  rw [keys_insertEntry]
  split
  · exact h
  · next hk =>
    refine List.nodup_append.2 ⟨h, by simp, fun a ha b hb hab => hk ?_⟩
    rw [List.mem_singleton] at hb
    exact hb ▸ hab ▸ ha

theorem lookup_insertEntry (k j : κ) (v : ν) (l : List (κ × ν)) :
    (insertEntry k v l).lookup j = if j = k then some v else l.lookup j := by
  induction l with
  | nil =>
    by_cases h : j = k
    · simp [insertEntry, h]
    · have h' : (j == k) = false := by simpa using h
      simp [insertEntry, List.lookup_cons, h, h']
  | cons e l ih =>
    obtain ⟨a, b⟩ := e
    by_cases ha : a = k
    · subst ha
      by_cases h : j = a
      · simp [insertEntry, h]
      · have h' : (j == a) = false := by simpa using h
        simp [insertEntry, List.lookup_cons, h, h']
    · by_cases h : j = a
      · subst h
        simp [insertEntry, ha]
      · have h' : (j == a) = false := by simpa using h
        simp [insertEntry, ha, List.lookup_cons, h', ih]

/-- Sets the value of `k`: a key that is present keeps its place, a new one comes last. -/
def insert (m : OrderedMap κ ν) (k : κ) (v : ν) : OrderedMap κ ν :=
  ⟨insertEntry k v m.entries, nodup_keys_insertEntry k v m.nodup_keys⟩

/-- Inserts entries one after the other. -/
def insertAll (m : OrderedMap κ ν) (l : List (κ × ν)) : OrderedMap κ ν :=
  l.foldl (fun m e => m.insert e.1 e.2) m

/-- The map that results from inserting the entries of a list in turn. -/
def ofList (l : List (κ × ν)) : OrderedMap κ ν := insertAll ∅ l

variable {m : OrderedMap κ ν} {k j : κ} {v : ν}

omit [DecidableEq κ] in
/-- A map is determined by the order of its entries. -/
theorem ext {m m' : OrderedMap κ ν} (h : m.entries = m'.entries) : m = m' := by
  cases m
  cases m'
  simpa using h

omit [DecidableEq κ] in
theorem mem_iff : k ∈ m ↔ k ∈ m.keys := Iff.rfl

omit [DecidableEq κ] in
@[simp] theorem keys_empty : (∅ : OrderedMap κ ν).keys = [] := rfl

@[simp] theorem get?_empty : (∅ : OrderedMap κ ν).get? k = none := rfl

/-- Insertion adds a new key at the end and leaves the keys alone otherwise. -/
theorem keys_insert : (m.insert k v).keys = if k ∈ m then m.keys else m.keys ++ [k] :=
  keys_insertEntry k v m.entries

/-- After an insertion the key has the new value, and every other key the value it had. -/
theorem get?_insert : (m.insert k v).get? j = if j = k then some v else m.get? j :=
  lookup_insertEntry k j v m.entries

@[simp] theorem get?_insert_self : (m.insert k v).get? k = some v := by
  simp [get?_insert]

theorem get?_insert_of_ne (h : j ≠ k) : (m.insert k v).get? j = m.get? j := by
  simp [get?_insert, h]

theorem mem_insert : j ∈ m.insert k v ↔ j = k ∨ j ∈ m := by
  rw [mem_iff, keys_insert]
  split
  · next h => exact ⟨Or.inr, fun hj => hj.elim (fun e => e ▸ h) id⟩
  · simp [mem_iff, or_comm]

/-- A new key comes last. -/
theorem entries_insert_of_not_mem (h : k ∉ m) : (m.insert k v).entries = m.entries ++ [(k, v)] := by
  have hl : ∀ l : List (κ × ν), k ∉ l.map Prod.fst → insertEntry k v l = l ++ [(k, v)] := by
    intro l
    induction l with
    | nil => intro _; rfl
    | cons e l ih =>
      intro hk
      rw [List.map_cons, List.mem_cons, not_or] at hk
      rw [insertEntry, if_neg (fun he => hk.1 he.symm), ih hk.2, List.cons_append]
  exact hl m.entries h

/-- A key that is present keeps its place. -/
theorem entries_insert_of_getElem? {i : Nat} {w : ν} (h : m.entries[i]? = some (k, w)) :
    (m.insert k v).entries = m.entries.set i (k, v) := by
  have hl : ∀ (l : List (κ × ν)) (i : Nat), (l.map Prod.fst).Nodup → l[i]? = some (k, w) →
      insertEntry k v l = l.set i (k, v) := by
    intro l
    induction l with
    | nil => intro i _ hi; simp at hi
    | cons e l ih =>
      intro i hnodup hi
      rw [List.map_cons, List.nodup_cons] at hnodup
      cases i with
      | zero =>
        obtain rfl : e = (k, w) := by simpa using hi
        rw [insertEntry, if_pos rfl, List.set_cons_zero]
      | succ i =>
        rw [List.getElem?_cons_succ] at hi
        have hne : e.1 ≠ k := by
          intro he
          exact hnodup.1 (he ▸ List.mem_map.2 ⟨_, List.mem_of_getElem? hi, rfl⟩)
        rw [insertEntry, if_neg hne, ih i hnodup.2 hi, List.set_cons_succ]
  exact hl m.entries i m.nodup_keys h

/-- The value of a key stands in an entry. -/
theorem mem_entries_of_get? (h : m.get? k = some v) : (k, v) ∈ m.entries := by
  have hl : ∀ l : List (κ × ν), l.lookup k = some v → (k, v) ∈ l := by
    intro l
    induction l with
    | nil => simp
    | cons e l ih =>
      obtain ⟨a, b⟩ := e
      rw [List.lookup_cons]
      split
      · next he =>
        intro hb
        rw [beq_iff_eq.1 he, Option.some.inj hb]
        exact List.mem_cons_self
      · exact fun hk => List.mem_cons_of_mem _ (ih hk)
  exact hl m.entries h

/-- A key that has a value is in the map. -/
theorem mem_of_get? (h : m.get? k = some v) : k ∈ m :=
  List.mem_map.2 ⟨(k, v), mem_entries_of_get? h, rfl⟩

/-- The value of a key is the one in its entry. -/
theorem get?_of_mem_entries (h : (k, v) ∈ m.entries) : m.get? k = some v := by
  have hl : ∀ l : List (κ × ν), (l.map Prod.fst).Nodup → (k, v) ∈ l → l.lookup k = some v := by
    intro l
    induction l with
    | nil => simp
    | cons e l ih =>
      intro hnodup hmem
      rw [List.map_cons, List.nodup_cons] at hnodup
      rw [List.lookup_cons]
      rcases List.mem_cons.1 hmem with rfl | hmem
      · simp
      · have hne : (k == e.1) = false := by
          rw [beq_eq_false_iff_ne]
          exact fun he => hnodup.1 (List.mem_map.2 ⟨_, hmem, he⟩)
        rw [hne]
        exact ih hnodup.2 hmem
  exact hl m.entries m.nodup_keys h

/-- The keys are those that have a value. -/
theorem exists_get?_iff : (∃ v, m.get? k = some v) ↔ k ∈ m := by
  refine ⟨fun ⟨v, h⟩ => mem_of_get? h, fun h => ?_⟩
  obtain ⟨⟨_, v⟩, he, rfl⟩ := List.mem_map.1 h
  exact ⟨v, get?_of_mem_entries he⟩

@[simp] theorem insertAll_nil : m.insertAll [] = m := rfl

@[simp] theorem insertAll_cons (e : κ × ν) (l : List (κ × ν)) :
    m.insertAll (e :: l) = (m.insert e.1 e.2).insertAll l := rfl

theorem mem_insertAll {l : List (κ × ν)} : j ∈ m.insertAll l ↔ j ∈ m ∨ j ∈ l.map Prod.fst := by
  induction l generalizing m with
  | nil => simp
  | cons e l ih => rw [insertAll_cons, ih, mem_insert, List.map_cons, List.mem_cons, or_assoc,
      or_left_comm]

theorem mem_ofList {l : List (κ × ν)} : j ∈ ofList l ↔ j ∈ l.map Prod.fst :=
  mem_insertAll.trans (or_iff_right List.not_mem_nil)

/-- Every entry was there before, or is one of those inserted. -/
theorem mem_entries_insertAll {l : List (κ × ν)} {e : κ × ν} (h : e ∈ (m.insertAll l).entries) :
    e ∈ m.entries ∨ e ∈ l := by
  have hinsert : ∀ k v l, e ∈ insertEntry k v l → e = (k, v) ∨ e ∈ l := by
    intro k v l
    induction l with
    | nil => simp [insertEntry]
    | cons d l ih =>
      rw [insertEntry]
      split
      · exact fun he => (List.mem_cons.1 he).imp_right (List.mem_cons_of_mem d)
      · intro he
        rcases List.mem_cons.1 he with rfl | he
        · exact Or.inr List.mem_cons_self
        · exact (ih he).imp_right (List.mem_cons_of_mem d)
  induction l generalizing m with
  | nil => exact Or.inl h
  | cons d l ih =>
    rcases ih h with he | he
    · rcases hinsert d.1 d.2 m.entries he with rfl | he
      · exact Or.inr List.mem_cons_self
      · exact Or.inl he
    · exact Or.inr (List.mem_cons_of_mem d he)

theorem mem_of_mem_entries_ofList {l : List (κ × ν)} {e : κ × ν} (h : e ∈ (ofList l).entries) :
    e ∈ l :=
  (mem_entries_insertAll h).resolve_left List.not_mem_nil

/-- A list in which no key stands twice is the list of the entries. -/
theorem entries_ofList {l : List (κ × ν)} (h : (l.map Prod.fst).Nodup) : (ofList l).entries = l := by
  have hall : ∀ m : OrderedMap κ ν, (∀ e ∈ l, e.1 ∉ m) →
      (m.insertAll l).entries = m.entries ++ l := by
    induction l with
    | nil => simp
    | cons e l ih =>
      intro m hm
      rw [List.map_cons, List.nodup_cons] at h
      rw [insertAll_cons, ih h.2, entries_insert_of_not_mem (hm e List.mem_cons_self)]
      · simp
      · intro d hd hmem
        rcases mem_insert.1 hmem with hde | hdm
        · exact h.1 (List.mem_map.2 ⟨d, hd, hde⟩)
        · exact hm d (List.mem_cons_of_mem e hd) hdm
  exact hall ∅ fun _ _ => List.not_mem_nil

/-- A map is the map of its entries. -/
@[simp] theorem ofList_entries (m : OrderedMap κ ν) : ofList m.entries = m :=
  ext (entries_ofList m.nodup_keys)

theorem insertAll_append (l₁ l₂ : List (κ × ν)) :
    m.insertAll (l₁ ++ l₂) = (m.insertAll l₁).insertAll l₂ := by
  simp [insertAll]

end OrderedMap

end GrammarCompletion
