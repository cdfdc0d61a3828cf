import Mathlib.Data.List.Induction
import TypeGraph.Proofs.Outcome

/-!
Tables and names that only grow. Main statements: a path of texts is entered so that it reads back
(`Names.path_spec`), and entering the texts of a path that is there adds nothing
(`Names.path_of_strings`).
-/

namespace TypeGraph

/-! ### Growing tables -/

namespace Table

variable {α : Type}

/-- Entries are only added, at the end. -/
def Extends (old new : Table α) : Prop := old.entries <+: new.entries

theorem Extends.refl (table : Table α) : table.Extends table := List.prefix_refl _

theorem Extends.trans {a b c : Table α} (hab : a.Extends b) (hbc : b.Extends c) : a.Extends c :=
  List.IsPrefix.trans hab hbc

theorem Extends.get? {old new : Table α} (h : old.Extends new) {i : Nat} {a : α}
    (ha : old.get? i = some a) : new.get? i = some a := by
  obtain ⟨rest, hrest⟩ := h
  have hi : i < old.entries.length := lt_size_of_get? ha
  unfold Table.get? at ha ⊢
  rw [← hrest, List.getElem?_append_left hi, ha]

theorem Extends.mem {old new : Table α} (h : old.Extends new) {a : α} (ha : a ∈ old) : a ∈ new :=
  List.IsPrefix.subset h ha

theorem Extends.size_le {old new : Table α} (h : old.Extends new) : old.size ≤ new.size :=
  List.IsPrefix.length_le h

variable [DecidableEq α]

theorem extends_insert (table : Table α) (a : α) : table.Extends (table.insert a) := by
  unfold Extends
  rw [entries_insert]
  split
  · exact List.prefix_refl _
  · exact List.prefix_append _ _

theorem Extends.indexOf {old new : Table α} (h : old.Extends new) {a : α} (ha : a ∈ old) :
    new.indexOf a = old.indexOf a :=
  indexOf_of_get? (h.get? (get?_indexOf ha))

/-- An entry has one number. -/
theorem get?_inj {table : Table α} {i j : Nat} {a : α} (hi : table.get? i = some a)
    (hj : table.get? j = some a) : i = j :=
  (indexOf_of_get? hi).symm.trans (indexOf_of_get? hj)

/-- What is entered already is not entered again. -/
theorem insert_of_get? {table : Table α} {i : Nat} {a : α} (h : table.get? i = some a) :
    table.insert a = table :=
  insert_of_mem (mem_of_get? h)

omit [DecidableEq α] in
theorem exists_get?_of_mem {table : Table α} {a : α} (h : a ∈ table) : ∃ i, table.get? i = some a :=
  List.getElem?_of_mem h

/-- An entry of a grown table is an old one, or the one that was entered at the end. -/
theorem get?_insert_cases {table : Table α} {i : Nat} {a b : α}
    (h : (table.insert a).get? i = some b) : table.get? i = some b ∨ b = a ∧ table.size ≤ i := by
  by_cases hlt : i < table.size
  · left
    have hold : table.get? i = some table.entries[i] := List.getElem?_eq_getElem hlt
    rw [hold, ← get?_insert_of_get? a hold, h]
  · right
    refine ⟨?_, Nat.le_of_not_lt hlt⟩
    rcases mem_insert.mp (mem_of_get? h) with hb | hb
    · obtain ⟨j, hj⟩ := exists_get?_of_mem hb
      obtain rfl := get?_inj h (get?_insert_of_get? a hj)
      exact absurd (lt_size_of_get? hj) hlt
    · exact hb

end Table

/-! ### Growing names -/

namespace Names

/-- Texts and paths are only added. -/
structure Extends (old new : Names) : Prop where
  texts : old.texts.Extends new.texts
  paths : old.paths.Extends new.paths

theorem Extends.refl (names : Names) : names.Extends names :=
  ⟨Table.Extends.refl _, Table.Extends.refl _⟩

theorem Extends.trans {a b c : Names} (hab : a.Extends b) (hbc : b.Extends c) : a.Extends c :=
  ⟨hab.texts.trans hbc.texts, hab.paths.trans hbc.paths⟩

/-- Every path stands after the path above it. -/
structure Closed (names : Names) : Prop where
  root : [] ∈ names.paths
  above : ∀ segments keyword, segments ++ [keyword] ∈ names.paths → segments ∈ names.paths

theorem closed_empty : empty.Closed := by
  refine ⟨by decide, ?_⟩
  intro segments keyword h
  simp [empty, Table.singleton, Table.mem_def] at h

theorem Closed.above_append {names : Names} (h : names.Closed) {segments : List Keyword} :
    ∀ {rest : List Keyword}, segments ++ rest ∈ names.paths → segments ∈ names.paths := by
  intro rest
  induction rest using List.reverseRecOn with
  | nil => simp
  | append_singleton rest keyword ih =>
      intro hmem
      rw [← List.append_assoc] at hmem
      exact ih (h.above _ _ hmem)

theorem text_eq_ok {names : Names} {keyword : Keyword} {text : String} :
    names.text keyword = .ok text ↔ names.texts.get? keyword.index = some text :=
  orFail_eq_ok

theorem segments_eq_ok {names : Names} {path : PathId} {segments : List Keyword} :
    names.segments path = .ok segments ↔ names.paths.get? path.index = some segments :=
  orFail_eq_ok

theorem strings_eq_ok {names : Names} {path : PathId} {texts : List String} :
    names.strings path = .ok texts ↔
      ∃ segments, names.paths.get? path.index = some segments ∧
        segments.mapM names.text = .ok texts := by
  unfold strings
  rw [bind_eq_ok]
  simp only [segments_eq_ok]

theorem Extends.text {old new : Names} (h : old.Extends new) {keyword : Keyword} {text : String}
    (ht : old.text keyword = .ok text) : new.text keyword = .ok text :=
  text_eq_ok.mpr (h.texts.get? (text_eq_ok.mp ht))

theorem Extends.mapM_text {old new : Names} (h : old.Extends new) {segments : List Keyword}
    {texts : List String} (ht : segments.mapM old.text = .ok texts) :
    segments.mapM new.text = .ok texts :=
  mapM_eq_ok.mpr ((mapM_eq_ok.mp ht).imp fun _ _ => h.text)

theorem Extends.strings {old new : Names} (h : old.Extends new) {path : PathId}
    {texts : List String} (ht : old.strings path = .ok texts) : new.strings path = .ok texts := by
  obtain ⟨segments, hs, hm⟩ := strings_eq_ok.mp ht
  exact strings_eq_ok.mpr ⟨segments, h.paths.get? hs, h.mapM_text hm⟩

/-- A text has one keyword. -/
theorem keyword_eq_of_text_eq {names : Names} {a b : Keyword} {text : String}
    (ha : names.text a = .ok text) (hb : names.text b = .ok text) : a = b := by
  have h := Table.get?_inj (text_eq_ok.mp ha) (text_eq_ok.mp hb)
  cases a
  cases b
  simpa using h

theorem mapM_text_inj {names : Names} {a b : List Keyword} {texts : List String}
    (ha : a.mapM names.text = .ok texts) (hb : b.mapM names.text = .ok texts) : a = b := by
  rw [mapM_eq_ok] at ha hb
  induction ha generalizing b with
  | nil =>
      cases hb
      rfl
  | cons h _ ih =>
      cases hb with
      | cons h' hb => rw [keyword_eq_of_text_eq h h', ih hb]

/-- A list of texts has one path. -/
theorem path_eq_of_strings_eq {names : Names} {a b : PathId} {texts : List String}
    (ha : names.strings a = .ok texts) (hb : names.strings b = .ok texts) : a = b := by
  obtain ⟨s, hs, hm⟩ := strings_eq_ok.mp ha
  obtain ⟨t, ht, hm'⟩ := strings_eq_ok.mp hb
  obtain rfl := mapM_text_inj hm hm'
  have h := Table.get?_inj hs ht
  cases a
  cases b
  simpa using h

/-! ### Entering names -/

theorem extends_intern (names : Names) (text : String) :
    names.Extends (names.intern text).2 :=
  ⟨Table.extends_insert _ _, Table.Extends.refl _⟩

theorem text_intern (names : Names) (text : String) :
    (names.intern text).2.text (names.intern text).1 = .ok text :=
  orFail_eq_ok.mpr (names.text?_intern text)

theorem extends_enter (names : Names) (segments : List Keyword) :
    names.Extends (names.enter segments).2 :=
  ⟨Table.Extends.refl _, Table.extends_insert _ _⟩

theorem Closed.intern {names : Names} (h : names.Closed) (text : String) :
    (names.intern text).2.Closed :=
  ⟨h.root, h.above⟩

/-- A path is entered after the path above it. -/
theorem Closed.enter {names : Names} (h : names.Closed) {above : List Keyword}
    (ha : above ∈ names.paths) (keyword : Keyword) :
    (names.enter (above ++ [keyword])).2.Closed := by
  refine ⟨Table.mem_insert.mpr (Or.inl h.root), ?_⟩
  intro segments last hmem
  refine Table.mem_insert.mpr (Or.inl ?_)
  rcases Table.mem_insert.mp hmem with hm | hm
  · exact h.above _ _ hm
  · rwa [(List.append_inj' hm rfl).1]

theorem intern_of_text {names : Names} {keyword : Keyword} {text : String}
    (h : names.text keyword = .ok text) : names.intern text = (keyword, names) := by
  have hget := text_eq_ok.mp h
  simp only [intern, Table.indexOf_of_get? hget, Table.insert_of_get? hget]

theorem enter_of_segments {names : Names} {path : PathId} {segments : List Keyword}
    (h : names.paths.get? path.index = some segments) : names.enter segments = (path, names) := by
  simp only [enter, Table.indexOf_of_get? h, Table.insert_of_get? h]

theorem enter_of_mem {names : Names} {segments : List Keyword} (h : segments ∈ names.paths) :
    (names.enter segments).2 = names := by
  simp only [enter, Table.insert_of_mem h]

theorem extends_pathBelow (texts : List String) :
    ∀ (names : Names) (above : List Keyword), names.Extends (names.pathBelow above texts).2 := by
  induction texts with
  | nil => exact fun names above => extends_enter names above
  | cons text texts ih =>
      intro names above
      rw [pathBelow]
      exact ((names.extends_intern text).trans (extends_enter _ _)).trans (ih _ _)

/-- Entering texts below a path that is there: every path still stands after the one above it, and
the new path reads back as the texts of the old one and the given ones. -/
theorem pathBelow_spec (texts : List String) :
    ∀ {names : Names} {above : List Keyword} {front : List String}, names.Closed →
      above ∈ names.paths → above.mapM names.text = .ok front →
      (names.pathBelow above texts).2.Closed ∧
        (names.pathBelow above texts).2.strings (names.pathBelow above texts).1 =
          .ok (front ++ texts) := by
  induction texts with
  | nil =>
      intro names above front hc ha hm
      rw [pathBelow, List.append_nil]
      refine ⟨?_, strings_eq_ok.mpr ⟨above, names.segments?_enter above, hm⟩⟩
      rwa [enter_of_mem ha]
  | cons text texts ih =>
      intro names above front hc ha hm
      rw [pathBelow]
      let known := (names.intern text).2
      let keyword := (names.intern text).1
      let next := (known.enter (above ++ [keyword])).2
      have hknown : names.Extends known := names.extends_intern text
      have hnext : known.Extends next := known.extends_enter _
      have hclosed : next.Closed := (hc.intern text).enter (hknown.paths.mem ha) keyword
      have hbelow : above ++ [keyword] ∈ next.paths := Table.mem_insert.mpr (Or.inr rfl)
      have htexts : (above ++ [keyword]).mapM next.text = .ok (front ++ [text]) := by
        rw [List.mapM_append, bind_eq_ok]
        refine ⟨front, (hknown.trans hnext).mapM_text hm, ?_⟩
        have hk : next.text keyword = .ok text := hnext.text (names.text_intern text)
        simp [List.mapM_cons, hk, bind, Except.bind, pure, Except.pure]
      obtain ⟨hc', hs⟩ := ih hclosed hbelow htexts
      refine ⟨hc', ?_⟩
      rw [hs, List.append_assoc]
      rfl

/-- Entering the texts of a path that is there adds nothing and gives that path. -/
theorem pathBelow_of_segments {names : Names} (hc : names.Closed) {path : PathId} :
    ∀ {texts : List String} {above rest : List Keyword},
      names.paths.get? path.index = some (above ++ rest) → rest.mapM names.text = .ok texts →
      names.pathBelow above texts = (path, names) := by
  intro texts
  induction texts with
  | nil =>
      intro above rest hp hm
      have hrest : rest = [] := by simpa using mapM_eq_ok.mp hm
      rw [hrest, List.append_nil] at hp
      exact enter_of_segments hp
  | cons text texts ih =>
      intro above rest hp hm
      cases mapM_eq_ok.mp hm with
      | @cons keyword _ rest _ hk hr =>
          have hp' : names.paths.get? path.index = some (above ++ [keyword] ++ rest) := by
            rw [hp, List.append_assoc]
            rfl
          have hbelow : above ++ [keyword] ∈ names.paths :=
            hc.above_append (Table.mem_of_get? hp')
          rw [pathBelow]
          simp only [intern_of_text hk, enter_of_mem hbelow]
          exact ih hp' (mapM_eq_ok.mpr hr)

theorem extends_path (names : Names) (texts : List String) :
    names.Extends (names.path texts).2 :=
  extends_pathBelow texts names []

/-- A list of texts is entered so that it reads back. -/
theorem path_spec {names : Names} (hc : names.Closed) (texts : List String) :
    (names.path texts).2.Closed ∧
      (names.path texts).2.strings (names.path texts).1 = .ok texts :=
  pathBelow_spec texts hc hc.root rfl

/-- The texts of a path that is there are not entered again. -/
theorem path_of_strings {names : Names} (hc : names.Closed) {path : PathId} {texts : List String}
    (h : names.strings path = .ok texts) : names.path texts = (path, names) := by
  obtain ⟨segments, hs, hm⟩ := strings_eq_ok.mp h
  exact pathBelow_of_segments hc hs hm

end Names

end TypeGraph
