import TypeGraph.Proofs.Prolonging
import TypeGraph.Record.Save

/-!
Reading back what was written, one piece after another. Main statement: if two readers take two
outputs back, one reader after the other takes one output after the other (`Load.Reads.bind`).
-/

namespace TypeGraph

variable {α β : Type}

/-! ### Outputs that were not stopped -/

namespace Output

@[simp] theorem stop_append {a b : Output} :
    (a ++ b).stop = none ↔ a.stop = none ∧ b.stop = none := by
  rcases a with ⟨items, _ | failure⟩ <;> simp [append_def]

theorem items_append {a b : Output} (h : a.stop = none) : (a ++ b).items = a.items ++ b.items := by
  rcases a with ⟨items, _ | failure⟩
  · rfl
  · cases h

@[simp] theorem stop_empty : empty.stop = none := rfl

@[simp] theorem stop_item (i : Item) : (item i).stop = none := rfl

@[simp] theorem stop_tag (text : String) : (tag text).stop = none := rfl

@[simp] theorem stop_bool (value : Bool) : (bool value).stop = none := rfl

@[simp] theorem stop_count (value : Count) : (count value).stop = none := rfl

@[simp] theorem stop_length (list : List α) : (length list).stop = none := rfl

@[simp] theorem stop_word (value : UInt32) : (word value).stop = none := rfl

@[simp] theorem stop_signed (value : Int128) : (signed value).stop = none := rfl

@[simp] theorem stop_str (text : String) : (str text).stop = none := rfl

@[simp] theorem stop_fail (failure : Failure) : (fail failure).stop ≠ none := by
  simp [fail]

@[simp] theorem stop_key {name : PathName} :
    (key name).stop = none ↔ ∃ texts, name = .ok texts := by
  cases name <;> simp [key, fail, item]

@[simp] theorem stop_text {name : Except Failure String} :
    (text name).stop = none ↔ ∃ written, name = .ok written := by
  cases name <;> simp [text, str, fail, item]

theorem length_items_append {a b : Output} (h : a.stop = none) :
    (a ++ b).items.length = a.items.length + b.items.length := by
  rw [items_append h, List.length_append]

/-- An output stands inside another one: if all of that was written, so was all of this. -/
def Within (a b : Output) : Prop :=
  b.stop = none → a.stop = none ∧ a.items.length ≤ b.items.length

theorem Within.refl (a : Output) : a.Within a := fun h => ⟨h, Nat.le_refl _⟩

theorem Within.left {a b : Output} (h : a.Within b) (c : Output) : a.Within (b ++ c) := by
  intro hs
  obtain ⟨hb, _⟩ := stop_append.mp hs
  rw [length_items_append hb]
  exact ⟨(h hb).1, Nat.le_trans (h hb).2 (Nat.le_add_right _ _)⟩

theorem Within.right {a c : Output} (h : a.Within c) (b : Output) : a.Within (b ++ c) := by
  intro hs
  obtain ⟨hb, hc⟩ := stop_append.mp hs
  rw [length_items_append hb]
  exact ⟨(h hc).1, Nat.le_trans (h hc).2 (Nat.le_add_left _ _)⟩

end Output

namespace Load

variable {m : Load α} {f : α → Load β} {old mid new : Store} {a : α} {b : β} {front back : Output}

/-- From the store `old`, a reader takes back what was written, gives `a` and leaves the store
`new`, whatever items come after. -/
def Reads (m : Load α) (written : Output) (old : Store) (a : α) (new : Store) : Prop :=
  ∀ items, m ⟨old, written.items ++ items⟩ = .ok a ⟨new, items⟩

namespace Reads

theorem pure (a : α) (store : Store) : Reads (pure a) .empty store a store := fun _ => rfl

theorem bind (hm : Reads m front old a mid) (h : front.stop = none)
    (hf : Reads (f a) back mid b new) : Reads (m >>= f) (front ++ back) old b new := by
  intro items
  rw [Output.items_append h, List.append_assoc, run_bind_of_ok (hm (back.items ++ items))]
  exact hf items

/-- The last step may take nothing. -/
theorem last (hm : Reads m front old a mid) (hf : Reads (f a) .empty mid b new) :
    Reads (m >>= f) front old b new := by
  intro items
  rw [run_bind_of_ok (hm items)]
  exact hf items

/-- The first step may take nothing. -/
theorem first (hm : Reads m .empty old a mid) (hf : Reads (f a) back mid b new) :
    Reads (m >>= f) back old b new := by
  intro items
  have h : m ⟨old, back.items ++ items⟩ = .ok a ⟨mid, back.items ++ items⟩ := hm _
  rw [run_bind_of_ok h]
  exact hf items

theorem build {request : Build α} (h : request old = .ok a new) :
    Reads (build request) .empty old a new := by
  intro items
  simp only [Load.build, h]
  rfl

theorem query {question : Store → Except Failure α} (h : question old = .ok a) :
    Reads (Load.build (Build.query question)) .empty old a old := by
  refine build ?_
  unfold Build.query
  rw [run_bind_of_ok (run_get old), h]
  rfl

/-! ### Single items -/

theorem item {reader : ItemReader α} {i : Item}
    (h : ∀ items, reader (i :: items) = .ok a items) (store : Store) :
    Reads (read reader) (.item i) store a store := by
  intro items
  unfold Load.read
  rw [show (Output.item i).items ++ items = i :: items from rfl, h]

theorem tag (text : String) (store : Store) :
    Reads (read .tag) (.tag text) store text store := item (fun _ => rfl) store

theorem exactTag (text : String) (store : Store) :
    Reads (read (.exactTag text)) (.tag text) store () store := by
  refine item (fun items => ?_) store
  unfold ItemReader.exactTag
  rw [run_bind_of_ok (show ItemReader.tag (.tag text :: items) = .ok text items from rfl)]
  simp

theorem bool (value : Bool) (store : Store) :
    Reads (read .bool) (.bool value) store value store := item (fun _ => rfl) store

theorem count (value : Count) (store : Store) :
    Reads (read .count) (.count value) store value store := item (fun _ => rfl) store

/-- A number of 32 bits is written with 64 bits and fits into 32 again. -/
theorem word (value : UInt32) (store : Store) :
    Reads (read .word) (.word value) store value store := by
  refine item (fun items => ?_) store
  unfold ItemReader.word
  rw [run_bind_of_ok (show ItemReader.count (.unsigned value.toUInt64 :: items) =
    .ok value.toUInt64 items from rfl)]
  have hlt : value.toUInt64.toNat < UInt32.size := value.toNat_lt
  rw [if_pos hlt]
  simp

theorem signed (value : Int128) (store : Store) :
    Reads (read .signed) (.signed value) store value store := item (fun _ => rfl) store

theorem str (text : String) (store : Store) :
    Reads (read .str) (.str text) store text store := item (fun _ => rfl) store

theorem tagged [Tagged α] (a : α) (store : Store) :
    Reads (read .tagged) (.str (Tagged.tag a)) store a store := by
  refine item (fun items => ?_) store
  unfold ItemReader.tagged
  rw [run_bind_of_ok (show ItemReader.str (.str (Tagged.tag a) :: items) =
    .ok (Tagged.tag a) items from rfl)]
  simp

theorem key (texts : List String) (store : Store) :
    Reads (read .key) (.key (.ok texts)) store texts store := item (fun _ => rfl) store

end Reads

/-! ### Deeper readers -/

/-- What a reader gives, another one that goes on alike gives too. -/
theorem Anticipates.run_eq_ok {m m' : Load α} (h : Anticipates m m') {last : Loading}
    {items : List Item} (hrun : m ⟨old, items⟩ = .ok a last) : m' ⟨old, items⟩ = .ok a last := by
  rcases h old items [] with ⟨expected, next, hout⟩ | heq
  · rw [hrun] at hout
    cases hout
  · rwa [List.append_nil, hrun, followedBy, List.append_nil] at heq

/-- A record that is no longer than a depth is read with that depth. -/
theorem Reads.type {written : Output} {depth : Nat} {type : TypeId}
    (h : Reads (typeUpTo depth) written old type new) (hd : depth ≤ written.items.length) :
    Reads Load.type written old type new := by
  intro items
  have hdepth : depth ≤ (written.items ++ items).length := by
    rw [List.length_append]
    omega
  exact (anticipates_typeUpTo hdepth).run_eq_ok (h items)

end Load

end TypeGraph
