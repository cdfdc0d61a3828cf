import TypeGraph.Proofs.Asking
import TypeGraph.Proofs.Entering
import TypeGraph.Proofs.Records

/-!
Paths and their texts. Main statement: as long as a store is only handed keywords of its own,
whatever else is requested of it, its paths and the lists of their texts determine each other; the
texts are collected on the way up to the root, which ends, and a path that is written out is read
into any other store as the path of the same texts (`Store.SpelledReachable.paths_by_texts`).
-/

namespace TypeGraph

variable {α β : Type}

/-- What a step keeps for each element of a list, the whole keeps. -/
theorem Keeps.mapM {ε σ : Type} {R : σ → σ → Prop} [Std.Refl R] [Trans R R R]
    {f : α → EStateM ε σ β} (h : ∀ a, Keeps R (f a)) (as : List α) : Keeps R (as.mapM f) := by
  induction as with
  | nil => exact .pure []
  | cons a as ih =>
      rw [List.mapM_cons]
      exact (h a).bind fun _ => ih.bind fun _ => .pure _

namespace Names

/-! ### Entering names one by one -/

/-- One text was entered, or a path below one that is there, whose last segment has a text. -/
inductive Learns (names : Names) : Names → Prop where
  | text (text : String) : Learns names (names.intern text).2
  | path {above : List Keyword} {keyword : Keyword} {text : String} (mem : above ∈ names.paths)
      (spelled : names.text keyword = .ok text) : Learns names (names.enter (above ++ [keyword])).2

variable {names old new : Names}

theorem Learns.extends_ (h : old.Learns new) : old.Extends new := by
  cases h with
  | text text => exact extends_intern old text
  | path mem spelled => exact extends_enter old _

theorem Learns.closed (h : old.Learns new) (hc : old.Closed) : new.Closed := by
  cases h with
  | text text => exact hc.intern text
  | @path above keyword text mem spelled => exact hc.enter mem keyword

theorem closed_of_learned (h : Relation.ReflTransGen Learns old new) (hc : old.Closed) :
    new.Closed := by
  induction h with
  | refl => exact hc
  | tail _ hlearns ih => exact hlearns.closed ih

/-- Texts are entered below a path one by one, each followed by the path that it leads to. -/
theorem learns_pathBelow (texts : List String) {above : List Keyword} (ha : above ∈ names.paths) :
    Relation.ReflTransGen Learns names (names.pathBelow above texts).2 := by
  induction texts generalizing names above with
  | nil => rw [pathBelow, enter_of_mem ha]
  | cons text texts ih =>
      rw [pathBelow]
      have hbelow : above ++ [(names.intern text).1] ∈
          ((names.intern text).2.enter (above ++ [(names.intern text).1])).2.paths :=
        Table.mem_insert.mpr (Or.inr rfl)
      exact .head (.text text) (.head (.path ha (names.text_intern text)) (ih hbelow))

/-! ### Paths that are spelled out -/

/-- All segments of paths have texts, and every path stands after the one above it. -/
structure Spelled (names : Names) : Prop where
  texts : ∀ segments ∈ names.paths, ∀ keyword ∈ segments, ∃ text, names.text keyword = .ok text
  older : ∀ place segments keyword, names.paths.get? place = some (segments ++ [keyword]) →
    ∃ first < place, names.paths.get? first = some segments

theorem spelled_empty : empty.Spelled := by
  have hroot : ∀ segments ∈ empty.paths, segments = [] := fun _ hm => List.mem_singleton.mp hm
  constructor
  · intro segments hm keyword hk
    rw [hroot segments hm] at hk
    exact absurd hk List.not_mem_nil
  · intro place segments keyword hp
    exact absurd (hroot _ (Table.mem_of_get? hp)) (by simp)

/-- One more name leaves the paths spelled out. -/
theorem Learns.spelled (h : old.Learns new) (hs : old.Spelled) : new.Spelled := by
  have hext := h.extends_
  have hold : ∀ segments ∈ old.paths, ∀ keyword ∈ segments, ∃ text, new.text keyword = .ok text :=
    fun segments hm keyword hk => (hs.texts segments hm keyword hk).imp fun _ => hext.text
  cases h with
  | text text => exact ⟨hold, hs.older⟩
  | @path above last text mem spelled =>
      constructor
      · intro segments hm keyword hk
        rcases Table.mem_insert.mp hm with hm | rfl
        · exact hold segments hm keyword hk
        · rcases List.mem_append.mp hk with hk | hk
          · exact hold above mem keyword hk
          · rw [List.mem_singleton.mp hk]
            exact ⟨text, hext.text spelled⟩
      · intro place segments keyword hp
        rcases Table.get?_insert_cases hp with hp | ⟨hsame, hplace⟩
        · obtain ⟨first, hlt, hfirst⟩ := hs.older place segments keyword hp
          exact ⟨first, hlt, Table.get?_insert_of_get? _ hfirst⟩
        · -- The new path stands at the end, after all that were there.
          obtain ⟨rfl, _⟩ := List.append_inj' hsame rfl
          obtain ⟨first, hfirst⟩ := Table.exists_get?_of_mem mem
          exact ⟨first, Nat.lt_of_lt_of_le (Table.lt_size_of_get? hfirst) hplace,
            Table.get?_insert_of_get? _ hfirst⟩

theorem spelled_of_learned (h : Relation.ReflTransGen Learns old new) (hs : old.Spelled) :
    new.Spelled := by
  induction h with
  | refl => exact hs
  | tail _ hlearns ih => exact hlearns.spelled ih

/-! ### The way up to the root -/

variable {path above : PathId} {segments : List Keyword} {keyword : Keyword}

theorem parent_of_root (h : names.paths.get? path.index = some []) :
    names.parent path = .ok none :=
  bind_eq_ok.mpr ⟨[], segments_eq_ok.mpr h, rfl⟩

theorem parent_below (h : names.paths.get? path.index = some (segments ++ [keyword])) :
    names.parent path = .ok (some ⟨names.paths.indexOf segments⟩) := by
  refine bind_eq_ok.mpr ⟨_, segments_eq_ok.mpr h, ?_⟩
  rw [if_neg (by simp), List.dropLast_concat]
  rfl

theorem last_below (h : names.paths.get? path.index = some (segments ++ [keyword])) :
    names.last path = .ok (some keyword) := by
  refine bind_eq_ok.mpr ⟨_, segments_eq_ok.mpr h, ?_⟩
  rw [List.getLast?_concat]
  rfl

/-- A path extends none, and is the root, or it is one segment longer than the one it extends. -/
theorem parent_cases {found : Option PathId} (h : names.parent path = .ok found) :
    (found = none ∧ names.paths.get? path.index = some []) ∨
      ∃ segments keyword, names.paths.get? path.index = some (segments ++ [keyword]) ∧
        found = some ⟨names.paths.indexOf segments⟩ := by
  obtain ⟨segments, hs, _⟩ := bind_eq_ok.mp h
  rw [segments_eq_ok] at hs
  rcases List.eq_nil_or_concat' segments with rfl | ⟨front, keyword, rfl⟩
  · exact Or.inl ⟨Except.ok.inj (h.symm.trans (parent_of_root hs)), hs⟩
  · exact Or.inr ⟨front, keyword, hs, Except.ok.inj (h.symm.trans (parent_below hs))⟩

/-- A path has a larger number than the one that it extends. -/
theorem Spelled.parent_lt (hs : names.Spelled) (h : names.parent path = .ok (some above)) :
    above.index < path.index := by
  rcases parent_cases h with ⟨hnone, _⟩ | ⟨segments, keyword, hp, hsome⟩
  · cases hnone
  · obtain ⟨first, hlt, hfirst⟩ := hs.older _ _ _ hp
    obtain rfl := Option.some.inj hsome
    rwa [Table.indexOf_of_get? hfirst]

/-- Going up from a path to the root, its last segment and those of all paths on the way are
collected. -/
inductive Climbs (names : Names) : PathId → List Keyword → Prop where
  | root {path : PathId} (parent : names.parent path = .ok none) : Climbs names path []
  | up {path above : PathId} {segments : List Keyword} {keyword : Keyword}
      (parent : names.parent path = .ok (some above)) (last : names.last path = .ok (some keyword))
      (climbs : Climbs names above segments) : Climbs names path (segments ++ [keyword])

/-- The segments of a path are those that are collected on the way up. -/
theorem Closed.climbs_iff (hc : names.Closed) :
    names.Climbs path segments ↔ names.segments path = .ok segments := by
  constructor
  · intro h
    induction h with
    | root hparent =>
        rcases parent_cases hparent with ⟨_, hroot⟩ | ⟨_, _, _, hsome⟩
        · exact segments_eq_ok.mpr hroot
        · cases hsome
    | @up path above segments keyword hparent hlast _ ih =>
        rcases parent_cases hparent with ⟨hnone, _⟩ | ⟨front, last, hp, hsome⟩
        · cases hnone
        · obtain rfl := Option.some.inj hsome
          cases hlast.symm.trans (last_below hp)
          have hfront : front ∈ names.paths := hc.above _ _ (Table.mem_of_get? hp)
          rw [segments_eq_ok, Table.get?_indexOf hfront] at ih
          cases ih
          exact segments_eq_ok.mpr hp
  · rw [segments_eq_ok]
    intro h
    induction segments using List.reverseRecOn generalizing path with
    | nil => exact .root (parent_of_root h)
    | append_singleton segments keyword ih =>
        have hmem : segments ∈ names.paths := hc.above _ _ (Table.mem_of_get? h)
        exact .up (parent_below h) (last_below h) (ih (Table.get?_indexOf hmem))

theorem Spelled.exists_strings (hs : names.Spelled) (h : names.segments path = .ok segments) :
    ∃ texts, names.strings path = .ok texts := by
  obtain ⟨texts, ht⟩ := forall₂_exists (hs.texts segments (Table.mem_of_get? (segments_eq_ok.mp h)))
  exact ⟨texts, bind_eq_ok.mpr ⟨segments, h, mapM_eq_ok.mpr ht⟩⟩

end Names

namespace Build

variable {store : Store} {parent : PathId} {above : List Keyword}

/-! ### Extending paths -/

theorem run_extend (h : store.names.paths.get? parent.index = some above) (keyword : Keyword) :
    extend parent keyword store = .ok (store.names.enter (above ++ [keyword])).1
      { store with names := (store.names.enter (above ++ [keyword])).2 } := by
  rw [extend, run_query_bind, Names.segments_eq_ok.mpr h]
  rfl

/-- Extending an unknown path leaves the store as it is. -/
theorem after_extend (parent : PathId) (keyword : Keyword) (store : Store) :
    after (extend parent keyword) store = store ∨
      ∃ above, store.names.paths.get? parent.index = some above ∧
        after (extend parent keyword) store =
          { store with names := (store.names.enter (above ++ [keyword])).2 } := by
  cases hp : store.names.segments parent with
  | error failure =>
      left
      rw [after, extend, run_query_bind, hp]
      rfl
  | ok above =>
      have habove := Names.segments_eq_ok.mp hp
      exact Or.inr ⟨above, habove, after_of_ok (run_extend habove keyword)⟩

/-- A text is entered, and then the path that it leads to. -/
theorem run_child (h : store.names.paths.get? parent.index = some above) (text : String) :
    let named := (store.names.intern text).2.enter (above ++ [(store.names.intern text).1])
    child parent text store = .ok named.1 { store with names := named.2 } := by
  let known : Store := { store with names := (store.names.intern text).2 }
  exact run_extend (show known.names.paths.get? parent.index = some above from h) _

/-- Entering texts below a path is extending that path by one text after the other. -/
theorem foldlM_child (texts : List String)
    (h : store.names.paths.get? parent.index = some above) :
    texts.foldlM child parent store = .ok (store.names.pathBelow above texts).1
      { store with names := (store.names.pathBelow above texts).2 } := by
  induction texts generalizing store parent above with
  | nil =>
      rw [Names.pathBelow, Names.enter_of_segments h]
      rfl
  | cons text texts ih =>
      let known := (store.names.intern text).2
      let below := above ++ [(store.names.intern text).1]
      let next : Store := { store with names := (known.enter below).2 }
      have hbelow : next.names.paths.get? (known.enter below).1.index = some below :=
        known.segments?_enter below
      rw [List.foldlM_cons, run_bind_of_ok (run_child h text)]
      exact ih hbelow

/-- A path of texts from the root is the root extended by one text after the other. -/
theorem path_eq_foldlM {root : PathId} (h : store.names.paths.get? root.index = some [])
    (texts : List String) : path texts store = texts.foldlM child root store :=
  (foldlM_child texts h).symm

/-- The texts of a path may be entered in two parts. -/
theorem path_append (hc : store.names.Closed) (front back : List String) :
    path (front ++ back) store = (path front >>= fun path => back.foldlM child path) store := by
  obtain ⟨place, hplace⟩ := Table.exists_get?_of_mem hc.root
  let root : PathId := ⟨place⟩
  have hroot : store.names.paths.get? root.index = some [] := hplace
  rw [path_eq_foldlM hroot, List.foldlM_append, run_bind, run_bind, path_eq_foldlM hroot]

end Build

/-! ### Requests that hand over keywords of the store -/

/-- A keyword that is handed over with a request is one of the store. -/
def Request.Spellable (store : Store) : Request → Prop
  | .extend _ keyword => ∃ text, store.names.text keyword = .ok text
  | _ => True

namespace Store

variable {store old new : Store}

/-- Names were entered one after another, whatever else was done. -/
def Learns (old new : Store) : Prop :=
  old.names.Closed → Relation.ReflTransGen Names.Learns old.names new.names

theorem learns_of_names_eq (h : new.names = old.names) : old.Learns new := by
  intro _
  rw [h]

instance : Std.Refl Learns := ⟨fun _ _ => .refl⟩

instance : Trans Learns Learns Learns where
  trans hab hbc := fun hc => (hab hc).trans (hbc (Names.closed_of_learned (hab hc) hc))

theorem keptByReading_learns : KeptByReading Learns where
  text _ text := fun _ => .single (.text text)
  path _ texts := fun hc => Names.learns_pathBelow texts hc.root
  paramSets _ _ := learns_of_names_eq rfl
  plain _ _ := learns_of_names_eq rfl
  variant _ _ _ _ _ := learns_of_names_eq rfl
  settled _ _ := learns_of_names_eq rfl

end Store

namespace Build

open Store

theorem learns_intern (text : String) : Keeps Learns (intern text) :=
  fun store => keptByReading_learns.text store text

/-- A path is entered below one that is there, if its last segment has a text. -/
theorem learns_extend {store : Store} (parent : PathId) {keyword : Keyword} {text : String}
    (ht : store.names.text keyword = .ok text) :
    store.Learns (after (extend parent keyword) store) := by
  rcases after_extend parent keyword store with h | ⟨above, habove, h⟩
  · rw [h]
    exact Std.Refl.refl store
  · rw [h]
    exact fun _ => .single (.path (Table.mem_of_get? habove) ht)

theorem learns_child (parent : PathId) (text : String) : Keeps Learns (child parent text) := by
  intro store
  exact Trans.trans (learns_intern text store)
    (learns_extend parent (store.names.text_intern text))

theorem learns_define (type : TypeId) (definition : Definition) :
    Keeps Learns (define type definition) := fun _ => learns_of_names_eq rfl

theorem learns_nameMember (member : Member String) : Keeps Learns (nameMember member) :=
  (learns_intern member.name).bind fun _ => .pure _

theorem learns_nameValue (entry : String × Int128) : Keeps Learns (nameValue entry) :=
  (learns_intern entry.1).bind fun _ => .pure _

theorem learns_completeClass (draft : ClassDraft) : Keeps Learns (completeClass draft) := by
  refine Keeps.bind (fun store => Std.Refl.refl store) fun store => ?_
  split
  · exact .throw _
  · refine (keeps_query _).bind fun layout => (Keeps.mapM learns_nameMember _).bind fun data =>
      (Keeps.mapM learns_nameMember _).bind fun functions => (keeps_query _).bind fun shape => ?_
    cases shape with
    | classType name isStruct => exact (learns_define _ _).bind fun _ => .pure _
    | _ => exact .throw _

theorem learns_completeEnum (draft : EnumDraft) (base : TypeId) :
    Keeps Learns (completeEnum draft base) := by
  refine Keeps.bind (fun store => Std.Refl.refl store) fun store => ?_
  split
  · exact .throw _
  · refine (keeps_query _).bind fun kind => ?_
    split
    · exact .throw _
    · refine (Keeps.mapM learns_nameValue _).bind fun values => (keeps_query _).bind fun shape => ?_
      cases shape with
      | enumType name => exact (learns_define _ _).bind fun _ => .pure _
      | _ => exact .throw _

end Build

namespace Store

variable {store old new : Store}

/-- Whatever is requested, names are entered one after another. -/
theorem learns_effect {request : Request} (hs : request.Spellable store) :
    store.Learns (request.effect store) := by
  have h := keptByReading_learns
  cases request with
  | intern text => exact h.text store text
  | extend parent keyword =>
      obtain ⟨text, ht⟩ := hs
      exact Build.learns_extend parent ht
  | child parent text => exact Build.learns_child parent text store
  | path texts => exact h.path store texts
  | retarget target => exact learns_of_names_eq rfl
  | params types variadic => exact h.params types variadic store
  | enter asked => exact h.request asked store
  | qualify type qual => exact h.qualify type qual store
  | addQual type qual => exact h.addQual type qual store
  | isComplete type => exact Build.keeps_isComplete h.settle type store
  | completeClass draft => exact Build.learns_completeClass draft store
  | completeEnum draft base => exact Build.learns_completeEnum draft base store
  | loadKeyword items => exact (Load.composes_along h.asks).keyword ⟨store, items⟩
  | loadPath items => exact (Load.composes_along h.asks).path ⟨store, items⟩
  | loadType items => exact Load.along_type h.asks ⟨store, items⟩
  | loadTables items => exact Load.along_tables h.asks ⟨store, items⟩
  | completeAll bodies =>
      exact Build.keeps_bodies Build.learns_completeClass Build.learns_completeEnum bodies store

/-- One request was made, which handed over no keyword but one of the store. -/
def SpelledStep (old new : Store) : Prop :=
  ∃ request : Request, request.Countable ∧ request.Spellable old ∧ request.effect old = new

/-- A store that such requests led to from a new one. -/
def SpelledReachable (store : Store) : Prop :=
  ∃ target, Relation.ReflTransGen SpelledStep (Store.new target) store

theorem spelledReachable_new (target : Target) : (Store.new target).SpelledReachable :=
  ⟨target, .refl⟩

theorem SpelledReachable.effect (h : store.SpelledReachable) {request : Request}
    (hr : request.Countable) (hs : request.Spellable store) :
    (request.effect store).SpelledReachable := by
  obtain ⟨target, hruns⟩ := h
  exact ⟨target, hruns.tail ⟨request, hr, hs, rfl⟩⟩

theorem SpelledReachable.reachable (h : store.SpelledReachable) : store.Reachable := by
  obtain ⟨target, hruns⟩ := h
  refine ⟨target, Relation.ReflTransGen.mono ?_ _ _ hruns⟩
  rintro old new ⟨request, hr, _, he⟩
  exact ⟨request, hr, he⟩

/-- All of these requests together enter names one after another. -/
theorem learns_of_spelledSteps (h : Relation.ReflTransGen SpelledStep old new) :
    old.Learns new := by
  induction h with
  | refl => exact Std.Refl.refl old
  | tail _ hstep ih =>
      obtain ⟨request, _, hs, rfl⟩ := hstep
      exact Trans.trans ih (learns_effect hs)

theorem SpelledReachable.spelled (h : store.SpelledReachable) : store.names.Spelled := by
  obtain ⟨target, hruns⟩ := h
  exact Names.spelled_of_learned (learns_of_spelledSteps hruns Names.closed_empty)
    Names.spelled_empty

/-! ### Paths and texts -/

/-- Paths stand for the lists of their texts. -/
structure PathsByTexts (store : Store) : Prop where
  /-- Going up from a path ends. -/
  ends : WellFounded fun above path => store.names.parent path = .ok (some above)
  /-- The segments of a path are those collected on the way up. -/
  climbs : ∀ path segments,
    store.names.Climbs path segments ↔ store.names.segments path = .ok segments
  /-- Every path is spelled out. -/
  spelled : ∀ path, store.Knows path → ∃ texts, store.names.strings path = .ok texts
  eq_iff : ∀ a b, store.Knows a → store.Knows b →
    (a = b ↔ store.names.strings a = store.names.strings b)
  /-- Every list of texts has a path. -/
  entered : ∀ texts, ∃ path new, Build.path texts store = .ok path new ∧
    new.names.strings path = .ok texts
  /-- The texts of a path lead to it, and nothing is added. -/
  again : ∀ path texts, store.names.strings path = .ok texts →
    Build.path texts store = .ok path store
  /-- A list of texts may be entered in two parts, the second text by text. -/
  append : ∀ front back, Build.path (front ++ back) store =
    (Build.path front >>= fun path => back.foldlM Build.child path) store
  older : ∀ path above, store.names.parent path = .ok (some above) → above.index < path.index
  /-- A path that is written out is read into any other store as the path of its texts. -/
  carried : ∀ path texts, store.names.strings path = .ok texts →
    Output.key (store.names.strings path) = .item (.key texts) ∧
    ∀ other : Store, other.Reachable → ∃ found new,
      Load.Reads Load.path (.item (.key texts)) other found new ∧
      new.names.strings found = .ok texts

/-- In a store that was handed no foreign keyword, paths stand for the lists of their texts. -/
theorem SpelledReachable.paths_by_texts (h : store.SpelledReachable) : store.PathsByTexts := by
  have hs := h.spelled
  have hc := h.reachable.wellFormed.names
  constructor
  case ends => exact Subrelation.wf (fun hparent => hs.parent_lt hparent) (measure PathId.index).wf
  case climbs => exact fun path segments => hc.climbs_iff
  case spelled =>
    rintro path ⟨segments, hp⟩
    exact hs.exists_strings hp
  case eq_iff =>
    rintro a b ⟨segments, ha⟩ _
    obtain ⟨texts, hta⟩ := hs.exists_strings ha
    refine ⟨fun heq => heq ▸ rfl, fun heq => ?_⟩
    exact Names.path_eq_of_strings_eq hta (heq.symm.trans hta)
  case entered => exact fun texts => ⟨_, _, rfl, (Names.path_spec hc texts).2⟩
  case again =>
    intro path texts ht
    change EStateM.Result.ok (store.names.path texts).1
      { store with names := (store.names.path texts).2 } = _
    rw [Names.path_of_strings hc ht]
  case append => exact Build.path_append hc
  case older => exact fun path above => hs.parent_lt
  case carried =>
    intro path texts ht
    refine ⟨by rw [ht]; rfl, fun other hother => ?_⟩
    obtain ⟨found, new, hreads, _, hname, _⟩ := Load.restores_path texts other hother.wellFormed
    exact ⟨found, new, hreads, hname⟩

/-- A path with an empty segment, extended by a keyword that it starts with. -/
theorem SpelledReachable.paths_by_texts_repeated :
    let store := (Request.extend ⟨2⟩ ⟨0⟩).effect ((Request.path ["a", ""]).effect (.new .wide))
    store.SpelledReachable ∧ store.PathsByTexts ∧
      store.names.strings ⟨3⟩ = .ok ["a", "", "a"] ∧
      store.names.parent ⟨3⟩ = .ok (some ⟨2⟩) := by
  intro store
  have hpath : ((Request.path ["a", ""]).effect (.new .wide)).SpelledReachable :=
    (spelledReachable_new .wide).effect trivial trivial
  have hstore : store.SpelledReachable := hpath.effect trivial ⟨"a", by decide +kernel⟩
  exact ⟨hstore, hstore.paths_by_texts, by decide +kernel, by decide +kernel⟩

end Store

end TypeGraph
