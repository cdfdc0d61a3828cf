import TypeGraph.Proofs.Wanted
import TypeGraph.Tree.Basic

/-!
Types written out in full. Main statements: a tree whose names are known is the tree of one type
(`Store.type_eq_of_tree_eq`), and later stores write that type out in the same way
(`Store.Grows.tree`).
-/

namespace TypeGraph

variable {τ ν : Type}

/-! ### Trees part by part -/

/-- What holds of the shape and qualifiers of a type and of every type inside it. -/
inductive Tree.All (P : TreeShape → Qual PathName → Prop) : Tree → Prop where
  | mk {shape qual} (own : P shape qual) (parts : ∀ part ∈ TreeShape.parts shape, All P part) :
      All P ⟨shape, qual⟩

theorem Tree.All.imp {P Q : TreeShape → Qual PathName → Prop} (h : ∀ shape qual, P shape qual →
    Q shape qual) {tree : Tree} (ht : tree.All P) : tree.All Q := by
  induction ht with
  | mk own _ ih => exact .mk (h _ _ own) ih

/-- The texts of a name are known. -/
def PathName.Known (name : PathName) : Prop := ∃ texts, name = .ok texts

/-- The names in a shape and its qualifiers are known. -/
structure TreeShape.Named (shape : TreeShape) (qual : Qual PathName) : Prop where
  name : ∀ name, shape.name? = some name → PathName.Known name
  space : ∀ name, qual.space.name = some name → PathName.Known name

/-- A tree all of whose names are known. -/
def Tree.Named : Tree → Prop := Tree.All TreeShape.Named

/-- Leaving the qualifiers of a type out leaves no name unknown. -/
theorem Tree.Named.plain {shape : TreeShape} {qual : Qual PathName} (h : Tree.Named ⟨shape, qual⟩) :
    Tree.Named ⟨shape, Qual.none⟩ := by
  cases h with
  | mk own parts => exact .mk ⟨own.name, by simp [Qual.none, Space.generic]⟩ parts

/-- Related shapes are related by their parts. -/
theorem TreeShape.rel_parts {R : τ → Tree → Prop} {N : ν → PathName → Prop}
    {a : Shape τ (Params τ) ν} {b : TreeShape} (h : Shape.Rel R (Params.Rel R) N a b) :
    Shape.Rel (fun x y => y ∈ parts b ∧ R x y) (Params.Rel fun x y => y ∈ parts b ∧ R x y)
      (fun x y => b.name? = some y ∧ N x y) a b := by
  have hlist : ∀ {params params'}, Params.Rel R params params' →
      (∀ y ∈ params'.types, y ∈ parts b) →
      Params.Rel (fun x y => y ∈ parts b ∧ R x y) params params' := by
    intro params params' hp hm
    exact ⟨(forall₂_mem_right hp.types).imp fun x y hxy => ⟨hm y hxy.1, hxy.2⟩, hp.variadic⟩
  cases h with
  | builtin type => exact .builtin type
  | array extent hb => exact .array extent ⟨by simp [parts], hb⟩
  | bitfield bits offset hb => exact .bitfield bits offset ⟨by simp [parts], hb⟩
  | pointer hb => exact .pointer ⟨by simp [parts], hb⟩
  | leftRef hb => exact .leftRef ⟨by simp [parts], hb⟩
  | rightRef hb => exact .rightRef ⟨by simp [parts], hb⟩
  | function conv hr hp =>
      exact .function conv ⟨by simp [parts], hr⟩ (hlist hp (by simp +contextual [parts]))
  | memberFunction conv ho hr hp =>
      exact .memberFunction conv ⟨by simp [parts], ho⟩ ⟨by simp [parts], hr⟩
        (hlist hp (by simp +contextual [parts]))
  | memberPointer ho hb => exact .memberPointer ⟨by simp [parts], ho⟩ ⟨by simp [parts], hb⟩
  | tuple hp => exact .tuple (hlist hp (by simp [parts]))
  | classType isStruct hn => exact .classType isStruct ⟨rfl, hn⟩
  | enumType hn => exact .enumType ⟨rfl, hn⟩

/-- Every part is related to something. -/
theorem TreeShape.exists_of_rel {R : τ → Tree → Prop} {N : ν → PathName → Prop}
    {a : Shape τ (Params τ) ν} {b : TreeShape} (h : Shape.Rel R (Params.Rel R) N a b) :
    ∀ part ∈ parts b, ∃ x, R x part := by
  have hlist : ∀ {params : Params τ} {params' : Params Tree}, Params.Rel R params params' →
      ∀ y ∈ params'.types, ∃ x, R x y := by
    intro params params' hp y hy
    obtain ⟨x, _, hx⟩ := forall₂_exists_right hp.types.flip hy
    exact ⟨x, hx⟩
  cases h with
  | builtin type => simp [parts]
  | array extent hb | bitfield bits offset hb | pointer hb | leftRef hb | rightRef hb =>
      simpa [parts] using ⟨_, hb⟩
  | function conv hr hp => simpa [parts] using ⟨⟨_, hr⟩, hlist hp⟩
  | memberFunction conv ho hr hp => simpa [parts] using ⟨⟨_, ho⟩, ⟨_, hr⟩, hlist hp⟩
  | memberPointer ho hb => simpa [parts] using ⟨⟨_, ho⟩, _, hb⟩
  | tuple hp => simpa [parts] using hlist hp
  | classType isStruct hn => simp [parts]
  | enumType hn => simp [parts]

/-- What the shape and qualifiers of a stored type keep to: a space is named exactly if it is
declarable, the class of a member is a class without qualifiers, and the components of a tuple are a
closed list. -/
structure TreeShape.Regular (shape : TreeShape) (qual : Qual PathName) : Prop where
  space : qual.space.WellNamed
  owner : ∀ owner, shape.owner? = some owner →
    ∃ name isStruct, owner = ⟨.classType name isStruct, Qual.none⟩
  params : ∀ params, shape.params? = some params →
    params.types.length < UInt64.size ∧ (shape.parts? = some params → params.variadic = false)

def Tree.Regular : Tree → Prop := Tree.All TreeShape.Regular

namespace Store

variable {store old new : Store}

/-! ### A type with its parts by number -/

/-- The qualifiers of a type, and its shape with the parameter list spelled out. -/
def Spells (store : Store) (type : TypeId) (wanted : WantedShape) (qual : Qual PathId) : Prop :=
  ∃ shape, store.node? type = some ⟨shape, qual⟩ ∧ store.spelling shape = .ok wanted

theorem Extends.spells (h : old.Extends new) {type : TypeId} {wanted : WantedShape}
    {qual : Qual PathId} (hs : old.Spells type wanted qual) : new.Spells type wanted qual := by
  obtain ⟨shape, hn, hs⟩ := hs
  exact ⟨shape, h.node? hn, h.spelling hs⟩

/-- A type is known by its spelling. -/
theorem type_eq_of_spells {a b : TypeId} {wanted : WantedShape} {qual : Qual PathId}
    (ha : store.Spells a wanted qual) (hb : store.Spells b wanted qual) : a = b := by
  obtain ⟨shape, hn, hs⟩ := ha
  obtain ⟨shape', hn', hs'⟩ := hb
  obtain rfl := shape_eq_of_spelling_eq hs hs'
  exact type_eq_of_node_eq hn hn'

/-- A shape seen from one of its types: the parts are known to be older. -/
def Sees (type : TypeId) : WantedShape → View type → Prop :=
  Shape.Rel (fun part below => below.type = part) (Params.Rel fun part below => below.type = part)
    (· = ·)

theorem part_eq_ok {type part : TypeId} {below : Below type} :
    type.part part = .ok below ↔ below.type = part := by
  unfold TypeId.part
  split
  next h =>
      constructor
      · intro hok
        cases hok
        rfl
      · rintro rfl
        rfl
  next h =>
      constructor
      · intro hok
        cases hok
      · rintro rfl
        exact absurd below.older h

theorem view_eq_ok {type : TypeId} {view : View type} :
    store.view type = .ok view ↔
      ∃ wanted qual, store.Spells type wanted qual ∧ Sees type wanted view := by
  have hrel : ∀ shape : Shape TypeId ParamSetId PathId,
      shape.mapM type.part (fun set => do (← store.paramSet set).mapM type.part) id = .ok view ↔
        ∃ wanted, store.spelling shape = .ok wanted ∧ Sees type wanted view := by
    intro shape
    simp only [spelling_eq_ok, Sees, ← Shape.Rel.comp, Shape.mapM_eq_ok, bind_eq_ok,
      Params.mapM_eq_ok, part_eq_ok, id]
    unfold Relation.Comp
    simp only [exists_eq_left']
  unfold Store.view
  simp only [bind_eq_ok, shape_eq_ok, hrel]
  constructor
  · rintro ⟨_, ⟨⟨shape, qual⟩, hn, rfl⟩, wanted, hs, hv⟩
    exact ⟨wanted, qual, ⟨shape, hn, hs⟩, hv⟩
  · rintro ⟨wanted, qual, ⟨shape, hn, hs⟩, hv⟩
    exact ⟨shape, ⟨_, hn, rfl⟩, wanted, hs, hv⟩

/-- In a well-formed store, every type can be seen with its parts. -/
theorem WellFormed.view (hw : store.WellFormed) {type : TypeId} {node : Node}
    (hn : store.node? type = some node) : ∃ view, store.view type = .ok view := by
  have hf := hw.shapes type node hn
  have hpart : ∀ {part : TypeId}, part.index < type.index →
      ∃ below, type.part part = .ok below := fun h => ⟨⟨_, h⟩, part_eq_ok.mpr rfl⟩
  obtain ⟨view, hv⟩ := Shape.Rel.exists (a := node.shape) (R := fun x y => type.part x = .ok y)
    (P := fun x y => (do (← store.paramSet x).mapM type.part) = .ok y) (N := fun x y => id x = y)
    (fun part hb => hpart (hf.base part hb)) (fun part ho => hpart (hf.owner part ho).1)
    (fun set hp => by
      obtain ⟨params, hs, hlt, _⟩ := hf.params set hp
      obtain ⟨belows, hbs⟩ := forall₂_exists fun part hm => hpart (hlt part hm)
      refine ⟨⟨belows, params.variadic⟩, ?_⟩
      simp only [hs, Params.mapM_eq_ok, bind_eq_ok]
      exact ⟨params, rfl, hbs, rfl⟩)
    (fun name _ => ⟨name, rfl⟩)
  refine ⟨view, ?_⟩
  unfold Store.view
  rw [shape_eq_ok.mpr ⟨node, hn, rfl⟩]
  exact Shape.mapM_eq_ok.mpr hv

theorem WellFormed.spells (hw : store.WellFormed) {type : TypeId} {node : Node}
    (hn : store.node? type = some node) : ∃ wanted, store.Spells type wanted node.qual := by
  obtain ⟨view, hv⟩ := hw.view hn
  obtain ⟨wanted, qual, ⟨shape, hn', hs⟩, _⟩ := view_eq_ok.mp hv
  rw [hn] at hn'
  cases hn'
  exact ⟨wanted, shape, hn, hs⟩

/-! ### Trees of the store -/

/-- A shape of the store written out in full. -/
def Unfolds (store : Store) : WantedShape → TreeShape → Prop :=
  Shape.Rel (fun part tree => store.tree part = .ok tree)
    (Params.Rel fun part tree => store.tree part = .ok tree)
    (fun path name => store.pathName path = name)

/-- The tree of a type has the trees of its parts. -/
theorem WellFormed.tree_eq_ok (hw : store.WellFormed) {type : TypeId} {tree : Tree} :
    store.tree type = .ok tree ↔ ∃ wanted qual, store.Spells type wanted qual ∧
      store.Unfolds wanted tree.shape ∧ qual.map store.pathName = tree.qual := by
  have hmap : ∀ {view : View type} {shape : TreeShape} {wanted : WantedShape},
      Sees type wanted view →
      (view.mapM (fun part => store.tree part.type)
        (fun params => params.mapM fun part => store.tree part.type) store.pathName = .ok shape ↔
          store.Unfolds wanted shape) := by
    intro view shape wanted hv
    simp only [Shape.mapM_eq_ok, Params.mapM_eq_ok]
    constructor
    · intro h
      refine (Shape.Rel.comp.mpr ⟨view, hv, h⟩).imp ?_ ?_ ?_
      · rintro _ tree ⟨below, rfl, h⟩
        exact h
      · rintro params trees h
        refine (Params.Rel.comp.mpr h).imp ?_
        rintro _ tree ⟨below, rfl, h⟩
        exact h
      · rintro _ name ⟨path, rfl, h⟩
        exact h
    · intro h
      refine (Shape.Rel.comp.mpr ⟨wanted, hv.flip, h⟩).imp ?_ ?_ ?_
      · rintro below tree ⟨_, rfl, h⟩
        exact h
      · rintro belows trees ⟨params, hb, h⟩
        refine (Params.Rel.comp.mpr ⟨params, hb.flip, h⟩).imp ?_
        rintro below tree ⟨_, rfl, h⟩
        exact h
      · rintro path name ⟨_, rfl, h⟩
        exact h
  rw [Store.tree]
  simp only [bind_eq_ok, qual_eq_ok, pure_eq_ok]
  constructor
  · rintro ⟨_, ⟨node, hn, rfl⟩, view, hv, shape, h, rfl⟩
    obtain ⟨wanted, qual, ⟨own, hn', hspell⟩, hsee⟩ := view_eq_ok.mp hv
    rw [hn] at hn'
    cases hn'
    exact ⟨wanted, qual, ⟨own, hn, hspell⟩, (hmap hsee).mp h, rfl⟩
  · rintro ⟨wanted, qual, hs, hu, hq⟩
    obtain ⟨own, hn, hspell⟩ := hs
    obtain ⟨view, hv⟩ := hw.view hn
    obtain ⟨wanted', qual', ⟨own', hn', hspell'⟩, hsee⟩ := view_eq_ok.mp hv
    rw [hn] at hn'
    cases hn'
    rw [hspell] at hspell'
    cases hspell'
    refine ⟨qual, ⟨_, hn, rfl⟩, view, hv, tree.shape, (hmap hsee).mpr hu, ?_⟩
    rw [hq]
    cases tree
    rfl

/-- A path is known by its texts. -/
theorem path_eq_of_pathName_eq {a b : PathId} {name : PathName} (ha : store.pathName a = name)
    (hb : store.pathName b = name) (hk : PathName.Known name) : a = b := by
  obtain ⟨texts, rfl⟩ := hk
  exact Names.path_eq_of_strings_eq ha hb

theorem Unfolds.unique {a b : WantedShape} {shape : TreeShape} (ha : store.Unfolds a shape)
    (hb : store.Unfolds b shape)
    (hparts : ∀ part ∈ TreeShape.parts shape, ∀ x y, store.tree x = .ok part →
      store.tree y = .ok part → x = y)
    (hname : ∀ name, shape.name? = some name → PathName.Known name) : a = b := by
  refine Shape.Rel.unique ?_ ?_ ?_ (TreeShape.rel_parts ha) hb
  · rintro x y tree ⟨hm, hx⟩ hy
    exact hparts tree hm x y hx hy
  · intro params params' trees h h'
    refine Params.Rel.unique ?_ h h'
    rintro x y tree ⟨hm, hx⟩ hy
    exact hparts tree hm x y hx hy
  · rintro x y name ⟨hn, hx⟩ hy
    exact path_eq_of_pathName_eq hx hy (hname name hn)

theorem Unfolds.imp {wanted : WantedShape} {shape : TreeShape} (h : old.Unfolds wanted shape)
    (hparts : ∀ part ∈ TreeShape.parts shape, ∀ x, old.tree x = .ok part → new.tree x = .ok part)
    (hname : ∀ name, shape.name? = some name → ∀ path, old.pathName path = name →
      new.pathName path = name) : new.Unfolds wanted shape := by
  refine (TreeShape.rel_parts h).imp ?_ ?_ ?_
  · rintro x tree ⟨hm, hx⟩
    exact hparts tree hm x hx
  · intro params trees hp
    refine hp.imp ?_
    rintro x tree ⟨hm, hx⟩
    exact hparts tree hm x hx
  · rintro path name ⟨hn, hx⟩
    exact hname name hn path hx

/-- Qualifiers are known by their texts. -/
theorem qual_eq_of_map_eq {a b : Qual PathId} {qual : Qual PathName}
    (ha : a.map store.pathName = qual) (hb : b.map store.pathName = qual)
    (hname : ∀ name, qual.space.name = some name → PathName.Known name) : a = b := by
  subst ha
  obtain ⟨⟨storage, name⟩, isAtomic, isConst, isRestrict, isVolatile⟩ := a
  obtain ⟨⟨storage', name'⟩, isAtomic', isConst', isRestrict', isVolatile'⟩ := b
  simp only [Qual.map, Space.map, Qual.mk.injEq, Space.mk.injEq] at hb hname ⊢
  obtain ⟨⟨rfl, hn⟩, rfl, rfl, rfl, rfl⟩ := hb
  refine ⟨⟨rfl, ?_⟩, rfl, rfl, rfl, rfl⟩
  cases name with
  | none => cases name' <;> simp_all
  | some path =>
      cases name' with
      | none => simp at hn
      | some path' =>
          have hpath : store.pathName path' = store.pathName path := by simpa using hn
          rw [path_eq_of_pathName_eq rfl hpath (hname _ rfl)]

/-- A tree whose names are known is the tree of one type. -/
theorem WellFormed.type_eq_of_tree_eq (hw : store.WellFormed) {tree : Tree} (hn : tree.Named) :
    ∀ {a b : TypeId}, store.tree a = .ok tree → store.tree b = .ok tree → a = b := by
  induction hn with
  | @mk shape qual own _ ih =>
      intro a b ha hb
      obtain ⟨wanted, q, hs, hu, hq⟩ := hw.tree_eq_ok.mp ha
      obtain ⟨wanted', q', hs', hu', hq'⟩ := hw.tree_eq_ok.mp hb
      obtain rfl := hu.unique hu' (fun part hm x y hx hy => ih part hm hx hy) own.name
      obtain rfl := qual_eq_of_map_eq hq hq' own.space
      exact type_eq_of_spells hs hs'

theorem Extends.pathName (h : old.Extends new) {path : PathId} {name : PathName}
    (hk : PathName.Known name) (hp : old.pathName path = name) : new.pathName path = name := by
  obtain ⟨texts, rfl⟩ := hk
  exact h.names.strings hp

theorem Extends.map_pathName (h : old.Extends new) {qual : Qual PathId} {written : Qual PathName}
    (hk : ∀ name, written.space.name = some name → PathName.Known name)
    (hq : qual.map old.pathName = written) : qual.map new.pathName = written := by
  subst hq
  obtain ⟨⟨storage, _ | path⟩, isAtomic, isConst, isRestrict, isVolatile⟩ := qual
  · rfl
  · have hp := h.pathName (hk _ rfl) rfl
    simp only [Qual.map, Space.map, Option.map_some, hp]

/-- A later store writes a type out in the same way, its names being known. -/
theorem Extends.tree (h : old.Extends new) (hw : old.WellFormed) (hw' : new.WellFormed)
    {tree : Tree} (hn : tree.Named) :
    ∀ {type : TypeId}, old.tree type = .ok tree → new.tree type = .ok tree := by
  induction hn with
  | @mk shape qual own _ ih =>
      intro type ht
      obtain ⟨wanted, q, hs, hu, hq⟩ := hw.tree_eq_ok.mp ht
      refine hw'.tree_eq_ok.mpr ⟨wanted, q, h.spells hs, ?_, h.map_pathName own.space hq⟩
      exact hu.imp (fun part hm x hx => ih part hm hx)
        fun name hname path hp => h.pathName (own.name name hname) hp

theorem Grows.tree (h : old.Grows new) (hw : old.WellFormed) {tree : Tree} (hn : tree.Named)
    {type : TypeId} (ht : old.tree type = .ok tree) : new.tree type = .ok tree :=
  h.extends_.tree hw h.wellFormed hn ht

theorem Grows.unfolds (h : old.Grows new) (hw : old.WellFormed) {wanted : WantedShape}
    {shape : TreeShape} (hu : old.Unfolds wanted shape)
    (hparts : ∀ part ∈ TreeShape.parts shape, part.Named)
    (hname : ∀ name, shape.name? = some name → PathName.Known name) : new.Unfolds wanted shape :=
  hu.imp (fun part hm _ hx => h.tree hw (hparts part hm) hx)
    fun name hn _ hp => h.extends_.pathName (hname name hn) hp

theorem WellFormed.node_of_tree (hw : store.WellFormed) {type : TypeId} {tree : Tree}
    (h : store.tree type = .ok tree) : ∃ node, store.node type = .ok node := by
  obtain ⟨wanted, qual, ⟨shape, hn, _⟩, _⟩ := hw.tree_eq_ok.mp h
  exact ⟨_, node_eq_ok.mpr hn⟩

theorem WellFormed.base_of_tree (hw : store.WellFormed) {type : TypeId} {tree base : Tree}
    (h : store.tree type = .ok tree) (hb : tree.shape.base? = some base) :
    ∃ part, store.tree part = .ok base := by
  obtain ⟨_, _, _, hu, _⟩ := hw.tree_eq_ok.mp h
  obtain ⟨part, _, hp⟩ := hu.flip.base? hb
  exact ⟨part, hp⟩

theorem WellFormed.owner_of_tree (hw : store.WellFormed) {type : TypeId} {tree owner : Tree}
    (h : store.tree type = .ok tree) (ho : tree.shape.owner? = some owner) :
    ∃ part, store.tree part = .ok owner := by
  obtain ⟨_, _, _, hu, _⟩ := hw.tree_eq_ok.mp h
  obtain ⟨part, _, hp⟩ := hu.flip.owner? ho
  exact ⟨part, hp⟩

theorem WellFormed.params_of_tree (hw : store.WellFormed) {type : TypeId} {tree : Tree}
    {trees : Params Tree} (h : store.tree type = .ok tree)
    (hp : tree.shape.params? = some trees) :
    ∃ set params, store.paramSet set = .ok params ∧
      Params.Rel (fun part tree => store.tree part = .ok tree) params trees := by
  obtain ⟨_, _, ⟨_, _, hs⟩, hu, _⟩ := hw.tree_eq_ok.mp h
  obtain ⟨params, hparams, htrees, _⟩ := hu.flip.params? hp
  obtain ⟨set, _, hset, _⟩ := (spelling_eq_ok.mp hs).flip.params? hparams
  exact ⟨set, params, hset, htrees⟩

theorem WellFormed.name_of_tree (hw : store.WellFormed) {type : TypeId} {tree : Tree}
    {name : PathName} (h : store.tree type = .ok tree) (hn : tree.shape.name? = some name) :
    ∃ path, store.pathName path = name := by
  obtain ⟨_, _, _, hu, _⟩ := hw.tree_eq_ok.mp h
  obtain ⟨path, _, hp⟩ := hu.flip.name? hn
  exact ⟨path, hp⟩

/-! ### Regular types -/

/-- Every address space in the store is named exactly if it is declarable. -/
def WellNamed (store : Store) : Prop :=
  ∀ type node, store.node? type = some node → node.qual.space.WellNamed

instance {ν : Type} (space : Space ν) : Decidable space.WellNamed :=
  inferInstanceAs (Decidable (space.name.isSome = space.storage.isDeclarable))

theorem wellNamed_of_nodes (h : ∀ node ∈ store.nodes.entries, node.qual.space.WellNamed) :
    store.WellNamed :=
  fun _ _ hn => h _ (Table.mem_of_get? hn)

theorem wellNamed_map {qual : Qual PathId} (h : qual.space.WellNamed) :
    (qual.map store.pathName).space.WellNamed := by
  obtain ⟨⟨storage, _ | path⟩, isAtomic, isConst, isRestrict, isVolatile⟩ := qual <;> exact h

/-- The tree of a class without qualifiers. -/
theorem WellFormed.tree_class (hw : store.WellFormed) {type : TypeId} {name : PathId}
    {isStruct : Bool} (hn : store.node? type = some (.plain (.classType name isStruct))) :
    store.tree type = .ok ⟨.classType (store.pathName name) isStruct, Qual.none⟩ :=
  hw.tree_eq_ok.mpr ⟨.classType name isStruct, .none,
    ⟨_, hn, spelling_eq_ok.mpr (.classType isStruct rfl)⟩, .classType isStruct rfl, rfl⟩

/-- The unqualified variant of a type is written like it, but without qualifiers. -/
theorem WellFormed.tree_idOf (hw : store.WellFormed) {type : TypeId} {tree : Tree}
    (ht : store.tree type = .ok tree) {node : Node} (hn : store.node? type = some node) :
    store.tree (store.idOf (.plain node.shape)) = .ok ⟨tree.shape, Qual.none⟩ := by
  obtain ⟨wanted, qual, ⟨shape, hn', hs⟩, hu, _⟩ := hw.tree_eq_ok.mp ht
  rw [hn] at hn'
  cases hn'
  exact hw.tree_eq_ok.mpr ⟨wanted, Qual.none, ⟨shape, node?_idOf (hw.plain type _ hn), hs⟩, hu, rfl⟩

/-- The class that a type belongs to as a member is written out without qualifiers. -/
theorem WellFormed.tree_owner (hw : store.WellFormed) {type : TypeId} {tree owner : Tree}
    (ht : store.tree type = .ok tree) (ho : tree.shape.owner? = some owner) :
    ∃ name isStruct, owner = ⟨.classType name isStruct, Qual.none⟩ := by
  obtain ⟨wanted, qual, ⟨shape, hn, hspell⟩, hu, _⟩ := hw.tree_eq_ok.mp ht
  obtain ⟨part, hpart, htree⟩ := hu.flip.owner? ho
  obtain ⟨own, hown, rfl⟩ := (spelling_eq_ok.mp hspell).flip.owner? hpart
  obtain ⟨_, name, isStruct, hclass⟩ := (hw.shapes type _ hn).owner own hown
  rw [hw.tree_class hclass] at htree
  cases htree
  exact ⟨_, _, rfl⟩

/-- What holds of the shape and qualifiers of every type holds of those inside it. -/
theorem WellFormed.all_of_tree (hw : store.WellFormed) {P : TreeShape → Qual PathName → Prop}
    (h : ∀ type tree, store.tree type = .ok tree → P tree.shape tree.qual) (tree : Tree) :
    ∀ {type : TypeId}, store.tree type = .ok tree → tree.All P := by
  induction tree using Tree.induct with
  | h tree ih =>
      intro type ht
      obtain ⟨_, _, _, hu, _⟩ := hw.tree_eq_ok.mp ht
      have hown := h type tree ht
      obtain ⟨shape, qual⟩ := tree
      refine .mk hown fun part hm => ?_
      obtain ⟨x, hx⟩ := TreeShape.exists_of_rel hu part hm
      exact ih part hm hx

/-- The names in a type are those of paths of the store. -/
theorem WellFormed.names_of_tree (hw : store.WellFormed) {type : TypeId} {tree : Tree}
    (ht : store.tree type = .ok tree) :
    ∃ node, store.node? type = some node ∧
      (∀ name, tree.shape.name? = some name →
        ∃ path, node.shape.name? = some path ∧ store.pathName path = name) ∧
      ∀ name, tree.qual.space.name = some name →
        ∃ path, node.qual.space.name = some path ∧ store.pathName path = name := by
  obtain ⟨wanted, own, ⟨shape, hn, hspell⟩, hu, hq⟩ := hw.tree_eq_ok.mp ht
  refine ⟨_, hn, fun name hname => ?_, fun name hname => ?_⟩
  · obtain ⟨path, hpath, hp⟩ := hu.flip.name? hname
    obtain ⟨_, hshape, rfl⟩ := (spelling_eq_ok.mp hspell).flip.name? hpath
    exact ⟨_, hshape, hp⟩
  · rw [← hq] at hname
    exact Option.map_eq_some_iff.mp hname

/-- The types of a well-formed store are regular. -/
theorem WellFormed.regular (hw : store.WellFormed) (hs : store.WellNamed) (tree : Tree) :
    ∀ {type : TypeId}, store.tree type = .ok tree → tree.Regular := by
  refine hw.all_of_tree (fun type tree ht => ?_) tree
  obtain ⟨wanted, qual, ⟨shape, hn, hspell⟩, hu, hq⟩ := hw.tree_eq_ok.mp ht
  refine ⟨?_, fun owner ho => hw.tree_owner ht ho, fun trees hp => ?_⟩
  · rw [← hq]
    exact wellNamed_map (hs type _ hn)
  · obtain ⟨params, hparams, htrees, hparts⟩ := hu.flip.params? hp
    obtain ⟨set, hset, hset', hparts'⟩ := (spelling_eq_ok.mp hspell).flip.params? hparams
    obtain ⟨params', hlist, _, hclosed⟩ := (hw.shapes type _ hn).params set hset
    rw [hset'] at hlist
    cases hlist
    have hlength := htrees.types.length_eq
    have hlt := (hw.sets set params hset').length_lt
    refine ⟨hlength ▸ hlt, fun h => ?_⟩
    rw [← htrees.variadic]
    exact hclosed (hparts' (hparts h))

end Store

end TypeGraph
