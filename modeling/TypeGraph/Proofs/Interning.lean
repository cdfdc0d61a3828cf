import TypeGraph.Arena.Interner
import TypeGraph.Proofs.Paths

/-!
Names as they are stored, and as lists. Main statements: what is entered into an interner is what
is entered into the tables of names (`Interner.Represents.run_intern`,
`Interner.Represents.run_path`), and what is collected along the links on the way up to the root is
what these tables have (`Interner.Represents.segments_eq`, `Interner.Represents.climbs_iff`).
-/

namespace TypeGraph

namespace Interner

/-- What a link says about the path that has it: that it is the root, or one segment longer than
another path. -/
def Links (names : Names) (path : PathId) : Link → Prop
  | none => names.paths.get? path.index = some []
  | some (parent, keyword) => ∃ above, names.paths.get? parent.index = some above ∧
      names.paths.get? path.index = some (above ++ [keyword])

/-- Following the stored links from a path up to the root, their keywords are collected. -/
inductive Climbs (interner : Interner) : PathId → List Keyword → Prop where
  | root {path : PathId} (link : interner.link path = .ok none) : Climbs interner path []
  | up {path above : PathId} {segments : List Keyword} {keyword : Keyword}
      (link : interner.link path = .ok (some (above, keyword)))
      (climbs : Climbs interner above segments) : Climbs interner path (segments ++ [keyword])

section Links

variable {interner : Interner} {path above : PathId} {keyword : Keyword}

theorem parent_eq_ok_none : interner.parent path = .ok none ↔ interner.link path = .ok none := by
  unfold parent
  cases interner.link path with
  | error failure => exact iff_of_false (fun h => nomatch h) (fun h => nomatch h)
  | ok link => simp [pure, Except.pure, bind, Except.bind]

theorem link_eq_ok_some : interner.link path = .ok (some (above, keyword)) ↔
    interner.parent path = .ok (some above) ∧ interner.last path = .ok (some keyword) := by
  unfold parent last
  cases interner.link path with
  | error failure => exact iff_of_false (fun h => nomatch h) (fun h => nomatch h.1)
  | ok link => cases link <;> simp [pure, Except.pure, bind, Except.bind, Prod.ext_iff]

end Links

/-- An interner has the texts and paths of `names` under the same numbers. -/
structure Represents (interner : Interner) (names : Names) : Prop where
  texts : interner.texts.table = names.texts
  size : interner.links.size = names.paths.size
  root : interner.links[0]? = some none
  linked : ∀ (path : PathId) (link : Link), interner.links[path.index]? = some link →
    Links names path link
  numbered : ∀ (link : PathId × Keyword) (path : PathId),
    interner.paths[link]? = some path ↔ interner.links[path.index]? = some (some link)

theorem represents_empty : empty.Represents Names.empty where
  texts := rfl
  size := rfl
  root := rfl
  linked path link h := by
    obtain ⟨hlt, h⟩ := Array.getElem?_eq_some_iff.mp h
    obtain ⟨rfl⟩ : path = ⟨0⟩ := by
      cases path
      simpa [empty] using hlt
    cases h
    rfl
  numbered link path := by
    have hlink : empty.links[path.index]? ≠ some (some link) := by
      intro h
      obtain ⟨hlt, h⟩ := Array.getElem?_eq_some_iff.mp h
      simp [empty] at h
    simpa [empty] using hlink

namespace Represents

variable {interner : Interner} {names : Names} {parent path : PathId} {keyword : Keyword}
  {above segments : List Keyword}

/-! ### What is stored -/

theorem get?_root (h : interner.Represents names) : names.paths.get? PathId.root.index = some [] :=
  h.linked PathId.root none h.root

theorem lt_size (h : interner.Represents names)
    (hs : names.paths.get? path.index = some segments) : path.index < interner.links.size := by
  rw [h.size]
  exact Table.lt_size_of_get? hs

/-- A path that is not the root is linked to the one that it extends. -/
theorem exists_parent (h : interner.Represents names)
    (hp : names.paths.get? path.index = some (above ++ [keyword])) :
    ∃ parent, names.paths.get? parent.index = some above ∧
      interner.links[path.index]? = some (some (parent, keyword)) := by
  obtain ⟨link, hlink⟩ : ∃ link, interner.links[path.index]? = some link :=
    ⟨_, Array.getElem?_eq_getElem (h.lt_size hp)⟩
  have hlinks := h.linked path link hlink
  cases link with
  | none =>
      have hnil := Option.some.inj (hp.symm.trans hlinks)
      simp at hnil
  | some link =>
      obtain ⟨parent, last⟩ := link
      obtain ⟨front, hfront, hpath⟩ := hlinks
      obtain ⟨rfl, hlast⟩ := List.append_inj' (Option.some.inj (hp.symm.trans hpath)) rfl
      obtain rfl : keyword = last := by simpa using hlast
      exact ⟨parent, hfront, hlink⟩

theorem link_below (h : interner.Represents names)
    (hp : names.paths.get? path.index = some (above ++ [keyword]))
    (ha : names.paths.get? parent.index = some above) :
    interner.links[path.index]? = some (some (parent, keyword)) := by
  obtain ⟨⟨other⟩, hother, hlink⟩ := h.exists_parent hp
  obtain rfl : other = parent.index := Table.get?_inj hother ha
  exact hlink

theorem link_unknown (h : interner.Represents names) (hp : names.segments? path = none) :
    interner.links[path.index]? = none := by
  rw [Array.getElem?_eq_none_iff, h.size]
  exact List.getElem?_eq_none_iff.mp hp

theorem link_root (h : interner.Represents names)
    (hp : names.paths.get? path.index = some []) : interner.links[path.index]? = some none := by
  rw [Table.get?_inj hp h.get?_root]
  exact h.root

/-! ### Entering names -/

/-- A text is found where the table has it, or appended, whichever way it is handed over. -/
theorem run_intern (h : interner.Represents names) (text : String) :
    ∃ next, Naming.intern text interner = .ok (names.intern text).1 next ∧
      Naming.internOwned text interner = .ok (names.intern text).1 next ∧
      next.Represents (names.intern text).2 := by
  obtain ⟨hplace, htable⟩ := interner.texts.enter_eq text
  have hrun : Naming.enterText text interner = .ok (names.intern text).1
      { interner with texts := (interner.texts.enter text).2 } := by
    rw [Names.intern, ← h.texts, ← hplace]
    rfl
  exact ⟨_, hrun, hrun, { h with texts := by rw [htable, h.texts]; rfl }⟩

/-- Appending a link is entering the path that it says. -/
theorem push (h : interner.Represents names)
    (ha : names.paths.get? parent.index = some above) (hnew : above ++ [keyword] ∉ names.paths)
    (known : parent.index < interner.links.size) :
    (interner.push parent keyword known).Represents (names.enter (above ++ [keyword])).2 := by
  have hend : names.paths.indexOf (above ++ [keyword]) = interner.links.size := by
    rw [h.size]
    exact Table.indexOf_of_notMem hnew
  have hself : (names.paths.insert (above ++ [keyword])).get? interner.links.size =
      some (above ++ [keyword]) := hend ▸ Table.get?_insert_indexOf _ _
  have hfresh (path : PathId) : interner.links[path.index]? ≠ some (some (parent, keyword)) := by
    intro hlink
    obtain ⟨front, hfront, hpath⟩ := h.linked path _ hlink
    obtain rfl := Option.some.inj (ha.symm.trans hfront)
    exact hnew (Table.mem_of_get? hpath)
  refine ⟨h.texts, ?_, ?_, ?_, ?_⟩
  · rw [Names.enter, Table.size_insert_of_notMem hnew, ← h.size]
    exact Array.size_push _
  · have hzero : 0 ≠ interner.links.size := Nat.ne_of_lt (Nat.zero_lt_of_lt known)
    rw [Interner.push, Array.getElem?_push, if_neg hzero, h.root]
  · intro path link hlink
    rw [Interner.push, Array.getElem?_push] at hlink
    split at hlink
    next hplace =>
        cases hlink
        exact ⟨above, Table.get?_insert_of_get? _ ha, hplace ▸ hself⟩
    next =>
        have hold := h.linked path link hlink
        cases link with
        | none => exact Table.get?_insert_of_get? _ hold
        | some link =>
            obtain ⟨front, hfront, hpath⟩ := hold
            exact ⟨front, Table.get?_insert_of_get? _ hfront, Table.get?_insert_of_get? _ hpath⟩
  · intro link path
    rw [Interner.push, Std.HashMap.getElem?_insert, Array.getElem?_push]
    by_cases hl : (parent, keyword) = link <;> by_cases hp : path.index = interner.links.size
    · cases path
      simp_all
    · subst hl
      have hpath : (⟨interner.links.size⟩ : PathId) ≠ path := fun heq => hp (heq ▸ rfl)
      simp [hp, hfresh, hpath]
    · simp [hl, hp, h.numbered]
    · simp [hl, hp, h.numbered]

/-- A path is found by its link, or appended as the newest. -/
theorem run_extend (h : interner.Represents names)
    (ha : names.paths.get? parent.index = some above) (keyword : Keyword) :
    ∃ next, Naming.extend parent keyword interner =
        .ok (names.enter (above ++ [keyword])).1 next ∧
      next.Represents (names.enter (above ++ [keyword])).2 := by
  have hknown := h.lt_size ha
  unfold Naming.extend
  rw [dif_pos hknown]
  cases hfind : interner.paths[(parent, keyword)]? with
  | some path =>
      obtain ⟨front, hfront, hpath⟩ := h.linked path _ ((h.numbered _ path).mp hfind)
      obtain rfl := Option.some.inj (ha.symm.trans hfront)
      rw [Names.enter_of_segments hpath]
      exact ⟨interner, rfl, h⟩
  | none =>
      have hnew : above ++ [keyword] ∉ names.paths := by
        intro hm
        obtain ⟨place, hp⟩ := Table.exists_get?_of_mem hm
        have hlink := (h.numbered (parent, keyword) ⟨place⟩).mpr (h.link_below hp ha)
        rw [hfind] at hlink
        cases hlink
      refine ⟨_, ?_, h.push ha hnew hknown⟩
      rw [Names.enter, h.size, Table.indexOf_of_notMem hnew]

/-- A path that no table has is refused, and nothing is entered. -/
theorem run_extend_unknown (h : interner.Represents names) {failure : Failure}
    (hf : names.segments parent = .error failure) (keyword : Keyword) :
    Naming.extend parent keyword interner = .error failure interner := by
  obtain ⟨hnone, rfl⟩ := orFail_eq_error.mp hf
  have hlarge := Array.getElem?_eq_none_iff.mp (h.link_unknown hnone)
  unfold Naming.extend
  rw [dif_neg (Nat.not_lt.mpr hlarge)]

/-- Texts that are entered below a path one by one give the path of the tables. -/
theorem run_foldlM_child (h : interner.Represents names)
    (ha : names.paths.get? parent.index = some above) (texts : List String) :
    ∃ next, texts.foldlM Naming.child parent interner =
        .ok (names.pathBelow above texts).1 next ∧
      next.Represents (names.pathBelow above texts).2 := by
  induction texts generalizing interner names parent above with
  | nil =>
      rw [Names.pathBelow, Names.enter_of_segments ha]
      exact ⟨interner, rfl, h⟩
  | cons text texts ih =>
      obtain ⟨named, hintern, _, hnamed⟩ := h.run_intern text
      obtain ⟨next, hextend, hnext⟩ := hnamed.run_extend ha (names.intern text).1
      obtain ⟨last, hrest, hlast⟩ := ih hnext (Names.segments?_enter _ _)
      have hchild := (run_bind_of_ok hintern).trans hextend
      refine ⟨last, ?_, hlast⟩
      rw [List.foldlM_cons]
      exact (run_bind_of_ok hchild).trans hrest

theorem run_path (h : interner.Represents names) (texts : List String) :
    ∃ next, Naming.path texts interner = .ok (names.path texts).1 next ∧
      next.Represents (names.path texts).2 :=
  h.run_foldlM_child h.get?_root texts

/-! ### Reading names -/

theorem text_eq (h : interner.Represents names) (keyword : Keyword) :
    interner.text keyword = names.text keyword := by
  rw [text, Names.text, Names.text?, ← h.texts, Registry.get?_table]

theorem lookup?_eq (h : interner.Represents names) (text : String) :
    interner.lookup? text = names.lookup? text := by
  unfold lookup? Names.lookup?
  rw [← h.texts]
  split
  next hm =>
    have hfound := (interner.texts.numbered text _).mpr (by
      rw [← Registry.get?_table]
      exact Table.get?_indexOf hm)
    rw [hfound]
    rfl
  next hm =>
    rw [Option.map_eq_none_iff, Option.eq_none_iff_forall_ne_some]
    intro place hfound
    have hget := (interner.texts.numbered text place).mp hfound
    rw [← Registry.get?_table] at hget
    exact hm (Table.mem_of_get? hget)

/-- Going up from a path, its segments are collected from the last to the first. -/
theorem climb_eq (h : interner.Represents names)
    (hp : names.paths.get? path.index = some segments) (collected : List Keyword) :
    interner.climb path collected = .ok (collected ++ segments.reverse) := by
  induction segments using List.reverseRecOn generalizing path collected with
  | nil =>
      rw [climb_root (h.link_root hp), List.reverse_nil, List.append_nil]
  | append_singleton front keyword ih =>
      obtain ⟨parent, hparent, hlink⟩ := h.exists_parent hp
      rw [climb_below hlink, ih hparent, List.reverse_concat, List.append_assoc]
      rfl

/-- The segments that are collected are those that the tables have. -/
theorem segments_eq (h : interner.Represents names) (path : PathId) :
    interner.segments path = names.segments path := by
  cases hs : names.segments path with
  | ok segments =>
      refine bind_eq_ok.mpr ⟨_, h.climb_eq (Names.segments_eq_ok.mp hs) [], ?_⟩
      rw [List.nil_append, List.reverse_reverse]
      rfl
  | error failure =>
      obtain ⟨hnone, rfl⟩ := orFail_eq_error.mp hs
      exact bind_of_error (climb_unknown (h.link_unknown hnone) []) _

theorem strings_eq (h : interner.Represents names) (path : PathId) :
    interner.strings path = names.strings path := by
  rw [strings, Names.strings, h.segments_eq, funext h.text_eq]

theorem closed (h : interner.Represents names) : names.Closed where
  root := Table.mem_of_get? h.get?_root
  above segments keyword hm := by
    obtain ⟨place, hp⟩ := Table.exists_get?_of_mem hm
    have hp : names.paths.get? (PathId.mk place).index = some (segments ++ [keyword]) := hp
    obtain ⟨parent, hparent, _⟩ := h.exists_parent hp
    exact Table.mem_of_get? hparent

theorem link_eq_error (h : interner.Represents names) {failure : Failure}
    (hs : names.segments path = .error failure) : interner.link path = .error failure := by
  obtain ⟨hnone, rfl⟩ := orFail_eq_error.mp hs
  exact orFail_eq_error.mpr ⟨h.link_unknown hnone, rfl⟩

/-- A link leads to the path without its last segment, and has that segment. -/
theorem parent_eq (h : interner.Represents names) (path : PathId) :
    interner.parent path = names.parent path ∧ interner.last path = names.last path := by
  cases hs : names.segments path with
  | error failure =>
      have hlink := h.link_eq_error hs
      constructor
      · rw [parent, Names.parent, hlink, hs]
        rfl
      · rw [last, Names.last, hlink, hs]
        rfl
  | ok segments =>
      have hp := Names.segments_eq_ok.mp hs
      rcases List.eq_nil_or_concat' segments with rfl | ⟨front, keyword, rfl⟩
      · have hlink : interner.link path = .ok none := orFail_eq_ok.mpr (h.link_root hp)
        constructor
        · rw [parent, hlink, Names.parent_of_root hp]
          rfl
        · rw [last, Names.last, hlink, hs]
          rfl
      · obtain ⟨parent, hparent, hbelow⟩ := h.exists_parent hp
        have hlink : interner.link path = .ok (some (parent, keyword)) := orFail_eq_ok.mpr hbelow
        constructor
        · rw [Interner.parent, hlink, Names.parent_below hp, Table.indexOf_of_get? hparent]
          rfl
        · rw [last, hlink, Names.last_below hp]
          rfl

/-- The way up along the links is the way up in the tables. -/
theorem climbs_iff (h : interner.Represents names) :
    interner.Climbs path segments ↔ names.Climbs path segments := by
  constructor
  · intro hclimbs
    induction hclimbs with
    | @root path link =>
        refine .root ?_
        rw [← (h.parent_eq path).1, Interner.parent, link]
        rfl
    | @up path above segments keyword link _ ih =>
        refine .up ?_ ?_ ih
        · rw [← (h.parent_eq path).1, Interner.parent, link]
          rfl
        · rw [← (h.parent_eq path).2, Interner.last, link]
          rfl
  · intro hclimbs
    induction hclimbs with
    | @root path parent =>
        rw [← (h.parent_eq path).1] at parent
        exact .root (parent_eq_ok_none.mp parent)
    | @up path above segments keyword parent last _ ih =>
        rw [← (h.parent_eq path).1] at parent
        rw [← (h.parent_eq path).2] at last
        exact .up (link_eq_ok_some.mpr ⟨parent, last⟩) ih

/-- The segments of a path are the keywords along its links. -/
theorem segments_eq_ok_iff_climbs (h : interner.Represents names) :
    interner.segments path = .ok segments ↔ interner.Climbs path segments := by
  rw [h.segments_eq, h.climbs_iff, h.closed.climbs_iff]

end Represents

end Interner

end TypeGraph
