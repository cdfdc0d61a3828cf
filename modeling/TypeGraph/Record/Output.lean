import TypeGraph.Archive.Item

/-!
Writing items. What is written before a failure counts as written; nothing is written after it.
Main statement: putting outputs one after another is associative (`Output.append_assoc`).
-/

namespace TypeGraph

/-- Items written, and what stopped the writing, if anything did. -/
structure Output where
  items : List Item
  stop : Option Failure
deriving DecidableEq, Repr

namespace Output

/-- Nothing. -/
def empty : Output := ⟨[], none⟩

/-- One item. -/
def item (item : Item) : Output := ⟨[item], none⟩

/-- A failure before any item. -/
def fail (failure : Failure) : Output := ⟨[], some failure⟩

/-- One output after another. The second is not reached if the first was stopped. -/
def append (a b : Output) : Output :=
  match a.stop with
  | some _ => a
  | none => ⟨a.items ++ b.items, b.stop⟩

instance : Append Output := ⟨append⟩

/-- All outputs in turn. -/
def concat : List Output → Output
  | [] => empty
  | first :: rest => first ++ concat rest

theorem append_def (a b : Output) :
    a ++ b = match a.stop with
      | some _ => a
      | none => ⟨a.items ++ b.items, b.stop⟩ := rfl

@[simp] theorem empty_append (a : Output) : empty ++ a = a := rfl

@[simp] theorem append_empty (a : Output) : a ++ empty = a := by
  rcases a with ⟨items, _ | failure⟩ <;> simp [append_def, empty]

theorem append_assoc (a b c : Output) : a ++ b ++ c = a ++ (b ++ c) := by
  rcases a with ⟨items, _ | failure⟩ <;> rcases b with ⟨items', _ | failure'⟩ <;>
    simp [append_def]

/-! ### Single items -/

def tag (text : String) : Output := item (.tag text)

def bool (value : Bool) : Output := item (.bool value)

def count (value : Count) : Output := item (.unsigned value)

/-- The number of elements of a list. -/
def length {α : Type} (list : List α) : Output := count (UInt64.ofNat list.length)

def word (value : UInt32) : Output := count value.toUInt64

def signed (value : Int128) : Output := item (.signed value)

def str (text : String) : Output := item (.str text)

/-- A path, or why its texts are not known. -/
def key (path : Except Failure (List String)) : Output :=
  match path with
  | .ok segments => item (.key segments)
  | .error failure => fail failure

/-- A text, or why it is not known. -/
def text (text : Except Failure String) : Output :=
  match text with
  | .ok text => str text
  | .error failure => fail failure

end Output

end TypeGraph
