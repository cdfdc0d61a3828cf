/-!
Tables without repetitions, whose entries are numbered in the order in which they came. Main
statements: an entry and its number determine each other (`get?_eq_some_iff`), and inserting never
renumbers (`get?_insert_of_get?`).
-/

namespace TypeGraph

/-- A list of distinct entries, oldest first. The number of an entry is its place. -/
structure Table (α : Type) where
  entries : List α
  nodup : entries.Nodup

namespace Table

variable {α : Type}

instance : Membership α (Table α) where
  mem table a := a ∈ table.entries

theorem mem_def {table : Table α} {a : α} : a ∈ table ↔ a ∈ table.entries := Iff.rfl

/-- The table without entries. -/
def empty : Table α := ⟨[], List.nodup_nil⟩

/-- The table with the one entry `a`. -/
def singleton (a : α) : Table α := ⟨[a], by simp⟩

def size (table : Table α) : Nat := table.entries.length

/-- The entry with number `i`. -/
def get? (table : Table α) (i : Nat) : Option α := table.entries[i]?

variable [DecidableEq α]

instance (a : α) (table : Table α) : Decidable (a ∈ table) :=
  inferInstanceAs (Decidable (a ∈ table.entries))

/-- The number of `a`, which is the next free one if `a` is no entry yet. -/
def indexOf (table : Table α) (a : α) : Nat := table.entries.idxOf a

/-- Enters `a` at the end unless it is there already. -/
def insert (table : Table α) (a : α) : Table α :=
  if h : a ∈ table.entries then table
  else ⟨table.entries ++ [a], by
    refine List.nodup_append.mpr ⟨table.nodup, by simp, fun b hb c hc => ?_⟩
    rintro rfl
    exact h (List.mem_singleton.mp hc ▸ hb)⟩

theorem entries_insert (table : Table α) (a : α) :
    (table.insert a).entries =
      if a ∈ table.entries then table.entries else table.entries ++ [a] := by
  unfold insert
  split <;> rfl

theorem insert_of_mem {table : Table α} {a : α} (h : a ∈ table) : table.insert a = table :=
  dif_pos h

@[simp] theorem mem_insert {table : Table α} {a b : α} :
    b ∈ table.insert a ↔ b ∈ table ∨ b = a := by
  rw [mem_def, mem_def, entries_insert]
  split
  · next h => exact ⟨Or.inl, fun h' => h'.elim id fun hb => hb ▸ h⟩
  · simp

/-- An entry and its number determine each other. -/
theorem get?_eq_some_iff {table : Table α} {i : Nat} {a : α} :
    table.get? i = some a ↔ a ∈ table ∧ table.indexOf a = i := by
  constructor
  · intro h
    obtain ⟨hi, rfl⟩ := List.getElem?_eq_some_iff.mp h
    exact ⟨List.getElem_mem hi, table.nodup.idxOf_getElem i hi⟩
  · rintro ⟨ha, rfl⟩
    have hlt := List.idxOf_lt_length_of_mem ha
    exact List.getElem?_eq_some_iff.mpr ⟨hlt, List.getElem_idxOf hlt⟩

theorem get?_indexOf {table : Table α} {a : α} (h : a ∈ table) :
    table.get? (table.indexOf a) = some a :=
  get?_eq_some_iff.mpr ⟨h, rfl⟩

theorem mem_of_get? {table : Table α} {i : Nat} {a : α} (h : table.get? i = some a) :
    a ∈ table :=
  (get?_eq_some_iff.mp h).1

theorem indexOf_of_get? {table : Table α} {i : Nat} {a : α} (h : table.get? i = some a) :
    table.indexOf a = i :=
  (get?_eq_some_iff.mp h).2

omit [DecidableEq α] in
theorem lt_size_of_get? {table : Table α} {i : Nat} {a : α} (h : table.get? i = some a) :
    i < table.size :=
  (List.getElem?_eq_some_iff.mp h).1

/-- Inserting leaves every number in use as it is. -/
theorem get?_insert_of_get? {table : Table α} {i : Nat} {b : α} (a : α)
    (h : table.get? i = some b) : (table.insert a).get? i = some b := by
  have hi := lt_size_of_get? h
  unfold get? at h ⊢
  rw [entries_insert]
  split
  · exact h
  · rw [List.getElem?_append_left hi, h]

/-- The number of `a` is known before it is inserted. -/
theorem get?_insert_indexOf (table : Table α) (a : α) :
    (table.insert a).get? (table.indexOf a) = some a := by
  by_cases h : a ∈ table
  · rw [insert_of_mem h, get?_indexOf h]
  · have hidx : table.indexOf a = table.entries.length := List.idxOf_eq_length h
    rw [get?, entries_insert, if_neg (show a ∉ table.entries from h), hidx]
    simp

@[simp] theorem indexOf_insert (table : Table α) (a : α) :
    (table.insert a).indexOf a = table.indexOf a :=
  indexOf_of_get? (get?_insert_indexOf table a)

end Table

end TypeGraph
