import Mathlib.Data.List.Nodup
import TypeGraph.Table

/-!
Registries: the entries in a row, and beside them a map that finds the number of each. Main
statement: looking an entry up in the map first, and appending it only where it is not found, is
entering it into a table (`Registry.enter_eq`).
-/

namespace TypeGraph

namespace Table

variable {α : Type} [DecidableEq α] {table : Table α} {a : α}

theorem indexOf_of_notMem (h : a ∉ table) : table.indexOf a = table.size := List.idxOf_eq_length h

theorem entries_insert_of_notMem (h : a ∉ table) :
    (table.insert a).entries = table.entries ++ [a] := by
  rw [entries_insert, if_neg (show a ∉ table.entries from h)]

theorem size_insert_of_notMem (h : a ∉ table) : (table.insert a).size = table.size + 1 := by
  rw [size, entries_insert_of_notMem h, List.length_append]
  rfl

end Table

/-- Numbered entries. The map and the row say the same. -/
structure Registry (α : Type) [DecidableEq α] [Hashable α] where
  entries : Array α
  numbers : Std.HashMap α Nat
  numbered : ∀ (a : α) (place : Nat), numbers[a]? = some place ↔ entries[place]? = some a

namespace Registry

variable {α : Type} [DecidableEq α] [Hashable α]

/-- The registry without entries. -/
def empty : Registry α := ⟨#[], ∅, by simp⟩

/-- Appends an entry that the map does not know. -/
def push (registry : Registry α) (a : α) (fresh : registry.numbers[a]? = none) : Registry α where
  entries := registry.entries.push a
  numbers := registry.numbers.insert a registry.entries.size
  numbered b place := by
    have hfresh : ∀ place : Nat, registry.entries[place]? ≠ some a := by
      intro place h
      rw [(registry.numbered a place).mpr h] at fresh
      cases fresh
    rw [Std.HashMap.getElem?_insert, Array.getElem?_push]
    by_cases hb : a = b <;> by_cases hp : place = registry.entries.size
    · simp [hb, hp]
    · subst hb
      simp [hp, hfresh, Ne.symm hp]
    · subst hp
      simp [hb, registry.numbered]
    · simp [hb, hp, registry.numbered]

/-- The number of an entry, which is appended if the map does not know it. -/
def enter (registry : Registry α) (a : α) : Nat × Registry α :=
  match fresh : registry.numbers[a]? with
  | some place => (place, registry)
  | none => (registry.entries.size, registry.push a fresh)

/-- The entries in a row, none of which stands there twice. -/
def table (registry : Registry α) : Table α where
  entries := registry.entries.toList
  nodup := by
    rw [List.nodup_iff_getElem?_ne_getElem?]
    intro i j hij hj heq
    have hget : registry.entries[j]? = some registry.entries[j] := by simp_all
    have hi := (registry.numbered _ _).mpr (show registry.entries[i]? = _ from by
      simpa [hget] using heq)
    rw [(registry.numbered _ _).mpr hget] at hi
    exact absurd (Option.some.inj hi) (Nat.ne_of_gt hij)

@[simp] theorem get?_table (registry : Registry α) (place : Nat) :
    registry.table.get? place = registry.entries[place]? := by
  simp [table, Table.get?]

@[simp] theorem size_table (registry : Registry α) :
    registry.table.size = registry.entries.size := by
  simp [table, Table.size]

theorem not_mem_table {registry : Registry α} {a : α} (fresh : registry.numbers[a]? = none) :
    a ∉ registry.table := by
  intro hm
  obtain ⟨place, hp⟩ := List.getElem?_of_mem hm
  have hfound := (registry.numbered a place).mpr (by simpa [table] using hp)
  rw [fresh] at hfound
  cases hfound

theorem table_push (registry : Registry α) (a : α) (fresh : registry.numbers[a]? = none) :
    (registry.push a fresh).table = registry.table.insert a := by
  rw [Table.insert, dif_neg (show a ∉ registry.table.entries from not_mem_table fresh)]
  simp [push, table]

/-- The map finds an entry where the row has it, and what it does not find is appended. -/
theorem enter_eq (registry : Registry α) (a : α) :
    (registry.enter a).1 = registry.table.indexOf a ∧
      (registry.enter a).2.table = registry.table.insert a := by
  unfold enter
  split
  next place found =>
    have hget : registry.table.get? place = some a := by
      rw [get?_table]
      exact (registry.numbered a place).mp found
    exact ⟨(Table.indexOf_of_get? hget).symm, (Table.insert_of_mem (Table.mem_of_get? hget)).symm⟩
  next fresh =>
    refine ⟨?_, registry.table_push a fresh⟩
    rw [Table.indexOf_of_notMem (not_mem_table fresh), size_table]

end Registry

end TypeGraph
