/-!
Finite kinds of things whose members are written as short tags. Main statements: the tag of a
member reads back as that member (`ofTag?_tag`), and nothing else reads as it.
-/

namespace TypeGraph

/-- A finite type that lists its members in order and gives each a tag of its own. -/
class Tagged (α : Type) where
  /-- Every member, in order. -/
  all : List α
  /-- The text that stands for a member. -/
  tag : α → String
  mem_all : ∀ a, a ∈ all
  nodup_tags : (all.map tag).Nodup

namespace Tagged

variable {α : Type} [Tagged α]

/-- The member that `text` is the tag of. -/
def ofTag? (text : String) : Option α :=
  (all (α := α)).find? (fun a => tag a == text)

private theorem eq_of_tag_eq {a b : α} (h : tag a = tag b) :
    ∀ {members : List α}, (members.map tag).Nodup → a ∈ members → b ∈ members → a = b
  | c :: rest, hn, ha, hb => by
      simp only [List.map_cons, List.nodup_cons, List.mem_map, not_exists, not_and] at hn
      rcases List.mem_cons.mp ha with rfl | ha' <;> rcases List.mem_cons.mp hb with rfl | hb'
      · rfl
      · exact absurd h.symm (hn.1 b hb')
      · exact absurd h (hn.1 a ha')
      · exact eq_of_tag_eq h hn.2 ha' hb'

theorem tag_injective {a b : α} (h : tag a = tag b) : a = b :=
  eq_of_tag_eq h nodup_tags (mem_all a) (mem_all b)

theorem tag_of_ofTag? {text : String} {a : α} (h : ofTag? text = some a) : tag a = text := by
  simpa using List.find?_some h

@[simp] theorem ofTag?_tag (a : α) : ofTag? (tag a) = some a := by
  cases h : ofTag? (α := α) (tag a) with
  | none =>
      have := List.find?_eq_none.mp h a (mem_all a)
      simp at this
  | some b => rw [tag_injective (tag_of_ofTag? h)]

/-- A text reads as a member exactly when it is that member's tag. -/
theorem ofTag?_eq_some_iff {text : String} {a : α} : ofTag? text = some a ↔ tag a = text :=
  ⟨tag_of_ofTag?, fun h => h ▸ ofTag?_tag a⟩

end Tagged

end TypeGraph
