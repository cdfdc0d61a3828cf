import TypeGraph.Proofs.Asking
import TypeGraph.Proofs.Printing

/-!
What was built never changes. Main statement: whatever is requested of a store, in any order and
with or without success, its types, names, parameter lists and bodies are afterwards what they were,
types are written as they were, and what had an alignment or a size has the same one for as long as
it is laid out for the same machine (`Store.Reachable.permanent`).
-/

namespace TypeGraph

namespace Store

variable {store old new : Store} {type : TypeId}

/-! ### Stores whose paths are known -/

/-- A store that knows the paths in its types, and the texts of all its paths. -/
structure Interned (store : Store) : Prop where
  labelled : store.Labelled
  texts : ∀ path segments, store.names.segments path = .ok segments →
    ∀ keyword ∈ segments, ∃ text, store.names.text keyword = .ok text

theorem Interned.known (h : store.Interned) {path : PathId} (hk : store.Knows path) :
    PathName.Known (store.pathName path) := by
  obtain ⟨segments, hs⟩ := hk
  obtain ⟨texts, ht⟩ := forall₂_exists (h.texts path segments hs)
  exact ⟨texts, bind_eq_ok.mpr ⟨segments, hs, mapM_eq_ok.mpr ht⟩⟩

theorem Interned.named (h : store.Interned) (hw : store.WellFormed) (tree : Tree) :
    ∀ {type : TypeId}, store.tree type = .ok tree → tree.Named := by
  refine hw.all_of_tree (fun type tree ht => ?_) tree
  obtain ⟨node, hn, hname, hspace⟩ := hw.names_of_tree ht
  have hlabels := h.labelled type node hn
  constructor
  · intro name hm
    obtain ⟨path, hpath, rfl⟩ := hname name hm
    exact h.known (hlabels.shape path hpath)
  · intro name hm
    obtain ⟨path, hpath, rfl⟩ := hspace name hm
    exact h.known (hlabels.space path hpath)

/-- A store is interned if its types, its paths and its texts fit together. -/
theorem interned_of_tables
    (hnodes : ∀ node ∈ store.nodes.entries, ∀ name ∈ node.shape.name?.toList ++
      node.qual.space.name.toList, name.index < store.names.paths.size)
    (hpaths : ∀ segments ∈ store.names.paths.entries, ∀ keyword ∈ segments,
      keyword.index < store.names.texts.size) : store.Interned := by
  have hknows : ∀ {name : PathId}, name.index < store.names.paths.size → store.Knows name :=
    fun h => ⟨_, Names.segments_eq_ok.mpr (List.getElem?_eq_getElem h)⟩
  refine ⟨fun type node hn => ⟨fun name hname => ?_, fun name hname => ?_⟩, ?_⟩
  · exact hknows (hnodes node (Table.mem_of_get? hn) name (by simp [hname]))
  · exact hknows (hnodes node (Table.mem_of_get? hn) name (by simp [hname]))
  · intro path segments hs keyword hm
    have hk := hpaths segments (Table.mem_of_get? (Names.segments_eq_ok.mp hs)) keyword hm
    exact ⟨_, Names.text_eq_ok.mpr (List.getElem?_eq_getElem hk)⟩

/-! ### What stays as it is -/

/-- What `old` tells of its names, types, parameter lists and bodies `new` tells as well. Texts of
types are the same unless a path in them could not be written, and then if the paths are known. -/
structure Unchanged (old new : Store) : Prop where
  text : ∀ keyword text, old.names.text keyword = .ok text → new.names.text keyword = .ok text
  segments : ∀ path segments, old.names.segments path = .ok segments →
    new.names.segments path = .ok segments
  strings : ∀ path texts, old.names.strings path = .ok texts → new.names.strings path = .ok texts
  shape : ∀ type shape, old.shape type = .ok shape → new.shape type = .ok shape
  qual : ∀ type qual, old.qual type = .ok qual → new.qual type = .ok qual
  unqualified : ∀ type plain, old.unqualified type = .ok plain → new.unqualified type = .ok plain
  paramSet : ∀ set params, old.paramSet set = .ok params → new.paramSet set = .ok params
  classBody : ∀ type body, old.classBody type = .ok body → new.classBody type = .ok body
  enumBody : ∀ type body, old.enumBody type = .ok body → new.enumBody type = .ok body
  definitions : ∀ type definition, old.definition? type = some definition →
    new.definition? type = some definition
  display : ∀ type, Faultless (old.display type) → new.display type = old.display type
  signature : ∀ type, Faultless (old.signature type) → new.signature type = old.signature type
  written : old.Interned → ∀ type, old.Holds type →
    new.display type = old.display type ∧ new.signature type = old.signature type

/-- What has an alignment or a size in `old` has the same one in `new`. -/
structure SameLayout (old new : Store) : Prop where
  align : ∀ type align, old.align type = .ok align → new.align type = .ok align
  size : ∀ type size, old.size type = .ok size → new.size type = .ok size
  deferredSize : ∀ type size, old.deferredSize type = .ok size → new.deferredSize type = .ok size

theorem Extends.unchanged (h : old.Extends new) (hw : old.WellFormed) (hw' : new.WellFormed) :
    old.Unchanged new where
  text _ _ := h.names.text
  segments _ _ hs := Names.segments_eq_ok.mpr (h.names.paths.get? (Names.segments_eq_ok.mp hs))
  strings _ _ := h.names.strings
  shape type shape hs := by
    obtain ⟨node, hn, hs⟩ := shape_eq_ok.mp hs
    exact shape_eq_ok.mpr ⟨node, h.node? hn, hs⟩
  qual type qual hq := by
    obtain ⟨node, hn, hq⟩ := qual_eq_ok.mp hq
    exact qual_eq_ok.mpr ⟨node, h.node? hn, hq⟩
  unqualified _ _ := h.unqualified hw
  paramSet _ _ := h.paramSet
  classBody type body hb := by
    obtain ⟨owner, ho, hd⟩ := classBody_eq_ok.mp hb
    exact classBody_eq_ok.mpr ⟨owner, h.classOwner hw ho, h.definition? hd⟩
  enumBody type body hb := by
    obtain ⟨owner, ho, hd⟩ := enumBody_eq_ok.mp hb
    exact enumBody_eq_ok.mpr ⟨owner, h.enumOwner hw ho, h.definition? hd⟩
  definitions _ _ := h.definition?
  display := h.lasts_display hw hw'
  signature := h.lasts_signature hw hw'
  written hi type ht := by
    obtain ⟨tree, htree⟩ := hw.exists_tree ht
    have hlater := h.tree hw hw' (hi.named hw tree htree) htree
    rw [Store.display, Store.display, Store.signature, Store.signature, htree, hlater]
    exact ⟨rfl, rfl⟩

theorem Extends.sameLayout (h : old.Extends new) (hw : old.WellFormed) (hw' : new.WellFormed)
    (ht : new.target = old.target) : old.SameLayout new where
  align _ _ := (h.mirrors hw ht).align hw hw' rfl
  size _ _ := (h.mirrors hw ht).size hw hw' rfl
  deferredSize _ _ := (h.mirrors hw ht).deferredSize hw hw' rfl

/-! ### The machine -/

/-- Types are laid out for the same machine. -/
def SameTarget (old new : Store) : Prop := new.target = old.target

instance : Std.Refl SameTarget := ⟨fun _ => rfl⟩

instance : Trans SameTarget SameTarget SameTarget where
  trans hab hbc := hbc.trans hab

end Store

namespace Build

open Store

theorem sameTarget_completeBody (body : OpenBody) : Keeps SameTarget (completeBody body) :=
  keeps_completing (fun _ _ => rfl) (fun _ _ _ _ => rfl) body

end Build

/-- A request to lay types out for another machine. -/
def Request.isRetarget : Request → Bool
  | .retarget _ => true
  | _ => false

/-- No other request is for another machine. -/
theorem Request.sameTarget_effect {request : Request} (hr : request.Countable)
    (h : request.isRetarget = false) {store : Store} (hw : store.WellFormed) :
    store.SameTarget (request.effect store) := by
  cases request with
  | retarget target => cases h
  | completeClass draft => exact Build.sameTarget_completeBody (.ofClass draft) store
  | completeEnum draft base => exact Build.sameTarget_completeBody (.ofEnum draft base) store
  | completeAll bodies =>
      exact Build.keeps_each (fun body _ => Build.sameTarget_completeBody body) store
  | _ => exact (safe_effect hr trivial store hw).target

namespace Store

variable {store old new : Store}

theorem WellFormed.sameTarget_afterAll (hw : store.WellFormed) {requests : List Request}
    (hr : ∀ request ∈ requests, request.Countable)
    (h : ∀ request ∈ requests, request.isRetarget = false) :
    store.SameTarget (store.afterAll requests) := by
  induction requests generalizing store with
  | nil => exact Std.Refl.refl store
  | cons request requests ih =>
      have hcount := hr request List.mem_cons_self
      have hfirst := request.sameTarget_effect hcount (h request List.mem_cons_self) hw
      have hrest := ih (request.onward_effect hcount store hw).2
        (fun other hm => hr other (List.mem_cons_of_mem request hm))
        fun other hm => h other (List.mem_cons_of_mem request hm)
      exact Trans.trans hfirst hrest

/-- Nothing that is built ever changes, whatever requests are made and whether they succeed or
fail. Alignments and sizes that are known stay the same until another machine is asked for. -/
theorem Reachable.permanent (h : old.Reachable) {requests : List Request}
    (hr : ∀ request ∈ requests, request.Countable) :
    old.Unchanged (old.afterAll requests) ∧
      ((∀ request ∈ requests, request.isRetarget = false) →
        old.SameLayout (old.afterAll requests)) := by
  have hw := h.wellFormed
  obtain ⟨hext, hw'⟩ := (old.runs_afterAll hr).onward hw
  exact ⟨hext.unchanged hw hw',
    fun htarget => hext.sameLayout hw hw' (hw.sameTarget_afterAll hr htarget)⟩

/-- A struct that was completed, after it is completed again in vain, pointed to, and laid out for
another machine. -/
theorem Reachable.permanent_struct :
    let foo : TypeId := ⟨Builtin.all.length⟩
    let built : List Request :=
      [.path ["foo"], .enter (.classType ⟨1⟩ true), .completeClass (.new foo)]
    let later : List Request := [.completeClass (.new foo), .enter (.pointer foo), .intern "bar"]
    let old : Store := (Store.new .wide).afterAll built
    old.Reachable ∧ old.SameLayout (old.afterAll later) ∧
      (old.afterAll later).size foo = .ok 4 ∧
      old.Unchanged (old.afterAll (later ++ [.retarget .narrow])) ∧
      (old.afterAll (later ++ [.retarget .narrow])).display foo = .ok "struct ::foo" := by
  intro foo built later old
  have hbuilt : ∀ request ∈ built, request.Countable := by
    simp [built, Request.Countable, TypeRequest.Countable]
  have hlater : ∀ request ∈ later, request.Countable := by
    simp [later, Request.Countable, TypeRequest.Countable]
  have hmore : ∀ request ∈ later ++ [.retarget .narrow], request.Countable := by
    simp [later, Request.Countable, TypeRequest.Countable]
  have h : old.Reachable := (reachable_new .wide).afterAll hbuilt
  have hlayout := (h.permanent hlater).2 (by simp [later, Request.isRetarget])
  have hsame := (h.permanent hmore).1
  have hdisplay : old.display foo = .ok "struct ::foo" := by decide +kernel
  refine ⟨h, hlayout, hlayout.size foo 4 (by decide +kernel), hsame, ?_⟩
  rw [hsame.display foo (.of_ok hdisplay), hdisplay]

end Store

end TypeGraph
