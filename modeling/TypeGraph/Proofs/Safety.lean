import TypeGraph.Proofs.Depth
import TypeGraph.Proofs.Refusals

/-!
Reading items that may be anything. Main statement: whatever the items are, reading a type or tables
comes to an end, takes an item and no more than there are, gives what the store holds or fails
without a fault, and leaves a store that is as sound as it was and goes on to hold all that it held.
So does completing what was read, later on (`Store.Reachable.load_safe`).
-/

namespace TypeGraph

variable {α : Type}

/-! ### Stores that came to no harm -/

namespace Store

variable {store old new : Store}

/-- The ids in a shape are ids of the store. -/
structure Backs (store : Store) (shape : Shape TypeId ParamSetId PathId) : Prop where
  base : ∀ part, shape.base? = some part → store.Holds part
  owner : ∀ part, shape.owner? = some part → store.Holds part
  params : ∀ set, shape.params? = some set →
    ∃ params, store.paramSet set = .ok params ∧ ∀ part ∈ params.types, store.Holds part

theorem WellFormed.backs (hw : store.WellFormed) {type : TypeId} {node : Node}
    (hn : store.node? type = some node) : store.Backs node.shape where
  base part hp := node?_of_lt ((hw.fits hn).base part hp)
  owner part hp := node?_of_lt ((hw.fits hn).owner part hp).1
  params set hs := by
    obtain ⟨params, hp, hlt, _⟩ := (hw.fits hn).params set hs
    exact ⟨params, hp, fun part hm => node?_of_lt (hlt part hm)⟩

/-- Equal types and equal parameter lists have one id each, every id in a type or parameter list is
an id of the store, and what `old` gave out is still the same. -/
structure Intact (old new : Store) : Prop where
  type_unique : ∀ a b node, new.node? a = some node → new.node? b = some node → a = b
  set_unique : ∀ a b params, new.paramSet a = .ok params → new.paramSet b = .ok params → a = b
  backs : ∀ type node, new.node? type = some node → new.Backs node.shape
  lists : ∀ set params, new.paramSet set = .ok params → ∀ part ∈ params.types, new.Holds part
  labelled : old.Labelled → new.Labelled
  node : ∀ type node, old.node? type = some node → new.node? type = some node
  unqualified : ∀ type plain, old.unqualified type = .ok plain → new.unqualified type = .ok plain
  paramSet : ∀ set params, old.paramSet set = .ok params → new.paramSet set = .ok params
  text : ∀ keyword text, old.names.text keyword = .ok text → new.names.text keyword = .ok text
  segments : ∀ path segments, old.names.segments path = .ok segments →
    new.names.segments path = .ok segments
  definition : ∀ type definition, old.definition? type = some definition →
    new.definition? type = some definition
  variants : ∀ type types, old.variants type = .ok types →
    ∃ more, new.variants type = .ok (types ++ more)

theorem Extends.unqualified (h : old.Extends new) (hw : old.WellFormed) {type plain : TypeId}
    (hp : old.unqualified type = .ok plain) : new.unqualified type = .ok plain := by
  obtain ⟨node, hn, rfl⟩ := unqualified_eq_ok.mp hp
  exact unqualified_eq_ok.mpr ⟨node, h.node? hn, h.idOf (hw.plain type node hn)⟩

/-- Types are added after those that were there. -/
theorem Extends.types (h : old.Extends new) : old.types <+: new.types := by
  obtain ⟨extra, hextra⟩ := Nat.exists_eq_add_of_le h.nodes.size_le
  refine List.IsPrefix.map TypeId.mk ?_
  rw [hextra, List.range_add]
  exact List.prefix_append _ _

/-- Whether a type is of the shape and has qualifiers. -/
def qualifies (store : Store) (shape : Shape TypeId ParamSetId PathId) (other : TypeId) : Bool :=
  match store.node? other with
  | some node => node.shape == shape && !node.qual.isNone
  | none => false

theorem variants_eq_ok {type : TypeId} {types : List TypeId} :
    store.variants type = .ok types ↔ ∃ node, store.node? type = some node ∧
      store.idOf (.plain node.shape) :: store.types.filter (store.qualifies node.shape) =
        types := by
  unfold Store.variants
  rw [bind_eq_ok]
  simp only [shape_eq_ok, pure_eq_ok]
  constructor
  · rintro ⟨_, ⟨node, hn, rfl⟩, hv⟩
    exact ⟨node, hn, hv⟩
  · rintro ⟨node, hn, hv⟩
    exact ⟨_, ⟨node, hn, rfl⟩, hv⟩

/-- Variants of a type are added after those that were there. -/
theorem Extends.variants (h : old.Extends new) (hw : old.WellFormed) {type : TypeId}
    {types : List TypeId} (hv : old.variants type = .ok types) :
    ∃ more, new.variants type = .ok (types ++ more) := by
  obtain ⟨node, hn, rfl⟩ := variants_eq_ok.mp hv
  obtain ⟨added, hadded⟩ := h.types
  refine ⟨added.filter (new.qualifies node.shape), variants_eq_ok.mpr ⟨node, h.node? hn, ?_⟩⟩
  have hold : old.types.filter (new.qualifies node.shape) =
      old.types.filter (old.qualifies node.shape) := by
    refine List.filter_congr fun other hm => ?_
    obtain ⟨i, hi, rfl⟩ := List.mem_map.mp hm
    have hthere : ∃ other, old.node? ⟨i⟩ = some other := node?_of_lt (List.mem_range.mp hi)
    obtain ⟨other, ho⟩ := hthere
    rw [qualifies, qualifies, ho, h.node? ho]
  rw [h.idOf (hw.plain type node hn), ← hadded, List.filter_append, hold, List.cons_append]

theorem Extends.intact (h : old.Extends new) (hw : old.WellFormed) (hw' : new.WellFormed)
    (hl : old.StaysLabelled new) : old.Intact new where
  type_unique _ _ _ := type_eq_of_node_eq
  set_unique _ _ _ := set_eq_of_params_eq
  backs _ _ := hw'.backs
  lists set params hs part hm := node?_of_lt ((hw'.sets set params hs).lt_size part hm)
  labelled := hl
  node _ _ := h.node?
  unqualified _ _ := h.unqualified hw
  paramSet _ _ := h.paramSet
  text _ _ := h.names.text
  segments _ _ hs := Names.segments_eq_ok.mpr (h.names.paths.get? (Names.segments_eq_ok.mp hs))
  definition _ _ := h.definition?
  variants _ _ := h.variants hw

end Store

/-! ### Readers of any items -/

namespace Load

variable {m : Load α} {P : Store → α → Prop} {store : Store} {items : List Item}

/-- A run of a reader that gives something of which `P` holds or fails without a fault, takes an
item if there is one and no more than there are, completes nothing and leaves the store intact. -/
structure SafeRun (m : Load α) (P : Store → α → Prop) (store : Store) (items : List Item) :
    Prop where
  gives : ∀ a next, m ⟨store, items⟩ = .ok a next → P next.store a
  faultless : Faultless (outcome m ⟨store, items⟩)
  suffix : (after m ⟨store, items⟩).items <:+ items
  shorter : items ≠ [] → (after m ⟨store, items⟩).items.length < items.length
  intact : store.Intact (after m ⟨store, items⟩).store
  definitions : (after m ⟨store, items⟩).store.definitions = store.definitions

theorem Gives.safeRun (hg : Gives m P) (hm : Moves m) (hw : store.WellFormed) (items : List Item) :
    m.SafeRun P store items := by
  obtain ⟨hgrows, hl, hs, hf, hp⟩ := hg ⟨store, items⟩ hw
  exact ⟨hp, hf, hs, hm.shorter ⟨store, items⟩ hw,
    hgrows.extends_.intact hw hgrows.wellFormed hl, hgrows.definitions⟩

end Load

namespace Build

/-- Bodies that were read into a store may be completed after any further requests. -/
theorem safe_completeAll {store mid later : Store} (hr : store.Reachable)
    {items rest : List Item} {bodies : List OpenBody}
    (hl : Load.tables ⟨store, items⟩ = .ok bodies ⟨mid, rest⟩) (hruns : mid.Runs later) :
    Faultless (outcome (completeAll bodies) later) ∧
      later.Intact (after (completeAll bodies) later) := by
  have hread := Load.gives_tables ⟨store, items⟩ hr.wellFormed
  have hmid : mid = (Request.loadTables items).effect store := by
    rw [Request.effect, after_of_ok hl]
  have hreach : mid.Reachable := hmid ▸ hr.effect trivial
  obtain ⟨hext, _⟩ := hruns.onward hreach.wellFormed
  have hsound : later.Sound := (hreach.runs hruns).sound
  obtain ⟨hext', hsound'⟩ := lasting_completeAll bodies later hsound
  -- What held of the bodies when they were read goes on to hold in the later store.
  refine ⟨faultless_completeAll hsound (fun body hm => ?_) fun body hm => ?_, ?_⟩
  · exact (hread.gives bodies _ hl body hm).1.mono hext hreach.wellFormed
  · exact (hread.gives bodies _ hl body hm).2.mono hext
  · exact hext'.intact hsound.wellFormed hsound'.wellFormed (labelled_completeAll bodies later)

end Build

namespace Store

variable {store : Store}

/-- Whatever the items are, reading them into a store is safe, at this point and at any later one of
the reading, and so is completing what was read after any further requests. -/
theorem Reachable.load_safe (hr : store.Reachable) (items : List Item) :
    (∀ mid rest, store.Grows mid → Load.Halts ⟨mid, rest⟩) ∧
      Load.type.SafeRun Holds store items ∧
      Load.tables.SafeRun (fun new bodies => ∀ body ∈ bodies, body.OpenIn new ∧ body.HeldBy new)
        store items ∧
      ∀ bodies mid rest later, Load.tables ⟨store, items⟩ = .ok bodies ⟨mid, rest⟩ →
        mid.Runs later → Faultless (outcome (Build.completeAll bodies) later) ∧
          later.Intact (after (Build.completeAll bodies) later) := by
  refine ⟨?_, ?_, ?_, ?_⟩
  · exact fun mid rest hgrows => Load.halts hgrows.wellFormed
  · exact Load.gives_type.safeRun Load.moves_type hr.wellFormed items
  · exact Load.gives_tables.safeRun Load.moves_tables hr.wellFormed items
  · exact fun bodies mid rest later hload hruns => Build.safe_completeAll hr hload hruns

/-- The body of a struct is read, completed, and then asked to be completed once more. -/
theorem Reachable.load_safe_twice :
    ∃ (items : List Item) (bodies : List OpenBody) (mid : Store) (rest : List Item),
      (Store.new .wide).Reachable ∧
      Load.tables ⟨Store.new .wide, items⟩ = .ok bodies ⟨mid, rest⟩ ∧ bodies ≠ [] ∧
      (Store.new .wide).Intact mid ∧ mid.Labelled ∧
      Load.type.SafeRun Holds (Store.new .wide) items ∧
      Faultless (outcome (Build.completeAll bodies)
        ((Request.completeAll bodies).effect mid)) := by
  let plain : List Item := [.str "gen", .bool false, .bool false, .bool false, .bool false]
  let struct : List Item := .tag "struct" :: .key ["s"] :: plain
  let items : List Item := .tag "decls" :: .unsigned 0 :: .tag "bodies" :: .unsigned 1 ::
    .tag "class_body" :: struct ++ [.unsigned 0, .unsigned 0, .unsigned 0]
  let bodies : List OpenBody := [.ofClass (ClassDraft.new ⟨Builtin.all.length⟩)]
  have hbodies : outcome Load.tables ⟨Store.new .wide, items⟩ = .ok bodies := by decide +kernel
  obtain ⟨⟨mid, rest⟩, hload⟩ :
      ∃ next, Load.tables ⟨Store.new .wide, items⟩ = .ok bodies next :=
    ⟨_, outcome_eq_ok.mp hbodies⟩
  have hr := reachable_new .wide
  obtain ⟨_, htype, htables, hfinish⟩ := Reachable.load_safe hr items
  have hintact : (Store.new .wide).Intact mid := by
    have h := htables.intact
    rwa [after_of_ok hload] at h
  have hcountable : (Request.completeAll bodies).Countable := trivial
  have hruns : mid.Runs ((Request.completeAll bodies).effect mid) :=
    .single (step_effect hcountable mid)
  exact ⟨items, bodies, mid, rest, hr, hload, by decide, hintact,
    hintact.labelled (labelled_new .wide), htype, (hfinish bodies mid rest _ hload hruns).1⟩

end Store

end TypeGraph
