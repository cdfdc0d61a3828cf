import TypeGraph.Proofs.Records

/-!
Types as they are read: the classes that have members lose their qualifiers. Main statements: what
could be written can be written as it is read (`Tree.stop_record_normal`), and where no class that
has members is qualified the record is the same (`Tree.PlainOwners.record_normal`).
-/

namespace TypeGraph

variable {α β : Type}

/-! ### Members of unqualified classes -/

namespace Tree

/-- The same type without its qualifiers. -/
def plain (tree : Tree) : Tree := ⟨tree.shape, Qual.none⟩

mutual

/-- The type as it is read: classes of members lose their qualifiers, at any depth. -/
def normal : Tree → Tree
  | ⟨shape, qual⟩ => ⟨normalShape shape, qual⟩
termination_by structural tree => tree

/-- The shape as it is read. -/
def normalShape : TreeShape → TreeShape
  | .builtin type => .builtin type
  | .array base extent => .array (normal base) extent
  | .bitfield base bits offset => .bitfield (normal base) bits offset
  | .pointer base => .pointer (normal base)
  | .leftRef base => .leftRef (normal base)
  | .rightRef base => .rightRef (normal base)
  | .function ret ⟨types, variadic⟩ conv => .function (normal ret) ⟨normalAll types, variadic⟩ conv
  | .memberFunction owner ret ⟨types, variadic⟩ conv =>
      .memberFunction (normal owner).plain (normal ret) ⟨normalAll types, variadic⟩ conv
  | .memberPointer owner base => .memberPointer (normal owner).plain (normal base)
  | .tuple ⟨types, variadic⟩ => .tuple ⟨normalAll types, variadic⟩
  | .classType name isStruct => .classType name isStruct
  | .enumType name => .enumType name
termination_by structural shape => shape

/-- All types of a list as they are read. -/
def normalAll : List Tree → List Tree
  | [] => []
  | tree :: rest => normal tree :: normalAll rest
termination_by structural list => list

end

theorem normalAll_eq (trees : List Tree) : normalAll trees = trees.map normal := by
  induction trees with
  | nil => rfl
  | cons tree trees ih => rw [normalAll, ih, List.map_cons]

/-- A parameter list as it is read. -/
def normalParams (params : Params Tree) : Params Tree :=
  ⟨params.types.map normal, params.variadic⟩

theorem normal_eq (tree : Tree) : tree.normal = ⟨normalShape tree.shape, tree.qual⟩ := by
  cases tree
  rfl

theorem normalShape_function (ret : Tree) (params : Params Tree) (conv : Convention) :
    normalShape (.function ret params conv) = .function ret.normal (normalParams params) conv := by
  rw [normalParams, ← normalAll_eq]
  rfl

theorem normalShape_memberFunction (owner ret : Tree) (params : Params Tree) (conv : Convention) :
    normalShape (.memberFunction owner ret params conv) =
      .memberFunction owner.normal.plain ret.normal (normalParams params) conv := by
  rw [normalParams, ← normalAll_eq]
  rfl

theorem normalShape_tuple (params : Params Tree) :
    normalShape (.tuple params) = .tuple (normalParams params) := by
  rw [normalParams, ← normalAll_eq]
  rfl

theorem named_plain {tree : Tree} (h : tree.Named) : tree.plain.Named := by
  cases tree
  exact Named.plain h

/-- The record of a type without its qualifiers ends with the generic space and four flags. -/
theorem record_plain (tree : Tree) : tree.plain.record =
    .tag (head tree.shape) ++ recordFields tree.shape ++
      ⟨[.str "gen", .bool false, .bool false, .bool false, .bool false], none⟩ :=
  record_eq tree.plain

theorem head_normalShape (shape : TreeShape) : head (normalShape shape) = head shape := by
  cases shape <;> rfl

theorem recordAll_congr {trees trees' : List Tree}
    (h : List.Forall₂ (fun a b => record a = record b) trees trees') :
    recordAll trees = recordAll trees' := by
  induction h with
  | nil => rfl
  | cons hab _ ih => rw [recordAll, hab, ih, recordAll]

/-- No class that has members is written with qualifiers, at any depth. -/
def PlainOwners : Tree → Prop :=
  All fun shape _ => ∀ owner, shape.owner? = some owner → owner.qual.record = Qual.none.record

/-- Where there is nothing to drop, a type is written as it was read. -/
theorem PlainOwners.record_normal {tree : Tree} (h : tree.PlainOwners) :
    tree.normal.record = tree.record := by
  induction h with
  | @mk shape qual own _ ih =>
      have hlist : ∀ params : Params Tree,
          (∀ tree ∈ params.types, tree.normal.record = tree.record) →
          recordParams (normalParams params) = recordParams params := by
        intro params hp
        have hall : recordAll (params.types.map normal) = recordAll params.types :=
          recordAll_congr (List.forall₂_map_left_iff.mpr (List.forall₂_same.mpr hp))
        simp only [recordParams, normalParams, hall, Output.length, List.length_map]
      have howner : ∀ owner : Tree, owner.normal.record = owner.record →
          owner.qual.record = Qual.none.record → owner.normal.plain.record = owner.record := by
        intro owner hn hq
        rw [← hn, record_eq owner.normal, record_eq owner.normal.plain, normal_eq owner]
        exact congrArg _ hq.symm
      have hfields : recordFields (normalShape shape) = recordFields shape := by
        cases shape with
        | builtin type | classType name isStruct | enumType name => rfl
        | array base extent | bitfield base bits offset | pointer base | leftRef base
        | rightRef base =>
            simp only [normalShape, recordFields, ih base (by simp [TreeShape.parts])]
        | function ret params conv =>
            simp only [normalShape_function, recordFields, ih ret (by simp [TreeShape.parts]),
              hlist params fun tree hm => ih tree (by simp [TreeShape.parts, hm])]
        | memberFunction owner ret params conv =>
            simp only [normalShape_memberFunction, recordFields,
              ih ret (by simp [TreeShape.parts]),
              howner owner (ih owner (by simp [TreeShape.parts])) (own owner rfl),
              hlist params fun tree hm => ih tree (by simp [TreeShape.parts, hm])]
        | memberPointer owner base =>
            simp only [normalShape, recordFields, ih base (by simp [TreeShape.parts]),
              howner owner (ih owner (by simp [TreeShape.parts])) (own owner rfl)]
        | tuple params =>
            simp only [normalShape_tuple, recordFields,
              hlist params fun tree hm => ih tree (by simp [TreeShape.parts, hm])]
      rw [record_eq, record_eq, normal_eq]
      change .tag (head (normalShape shape)) ++ recordFields (normalShape shape) ++ _ = _
      rw [head_normalShape, hfields]
      rfl

/-- A type that could be written can be written as it is read. -/
theorem stop_record_normal (tree : Tree) :
    tree.record.stop = none → tree.normal.record.stop = none := by
  induction tree using Tree.induct with
  | h tree ih =>
      obtain ⟨shape, qual⟩ := tree
      intro h
      have hpart : ∀ part ∈ TreeShape.parts shape, part.normal.record.stop = none :=
        fun part hm => ih part hm (record_part h hm).1
      have hlist : ∀ params : Params Tree, (∀ part ∈ params.types, part ∈ TreeShape.parts shape) →
          (recordParams (normalParams params)).stop = none := by
        intro params hm
        refine stop_recordParams fun _ hn => ?_
        obtain ⟨part, hp, rfl⟩ := List.mem_map.mp hn
        exact hpart part (hm part hp)
      have howner : ∀ owner ∈ TreeShape.parts shape, owner.normal.plain.record.stop = none := by
        intro owner hm
        have hs := hpart owner hm
        rw [record_eq] at hs
        rw [record_plain]
        exact Output.stop_append.mpr ⟨(Output.stop_append.mp hs).1, rfl⟩
      rw [record_eq] at h
      obtain ⟨⟨_, hf⟩, hq⟩ := by simpa only [Output.stop_append] using h
      rw [record_eq, normal_eq]
      refine Output.stop_append.mpr ⟨Output.stop_append.mpr ⟨rfl, ?_⟩, hq⟩
      change (recordFields (normalShape shape)).stop = none
      cases shape with
      | builtin type | classType name isStruct | enumType name => exact hf
      | array base extent =>
          exact Output.stop_append.mpr ⟨(Output.stop_append.mp hf).1,
            hpart base (by simp [TreeShape.parts])⟩
      | bitfield base bits offset | pointer base | leftRef base | rightRef base =>
          simp [normalShape, recordFields, hpart base (by simp [TreeShape.parts])]
      | function ret params conv =>
          simp [normalShape_function, recordFields, hpart ret (by simp [TreeShape.parts]),
            hlist params (by simp +contextual [TreeShape.parts])]
      | memberFunction owner ret params conv =>
          simp [normalShape_memberFunction, recordFields, hpart ret (by simp [TreeShape.parts]),
            howner owner (by simp [TreeShape.parts]),
            hlist params (by simp +contextual [TreeShape.parts])]
      | memberPointer owner base =>
          simp [normalShape, recordFields, hpart base (by simp [TreeShape.parts]),
            howner owner (by simp [TreeShape.parts])]
      | tuple params =>
          simp [normalShape_tuple, recordFields,
            hlist params (by simp +contextual [TreeShape.parts])]

end Tree

/-- The class that has a member is the unqualified variant of the class that was given. -/
theorem Store.WellFormed.tree_classOwner {store : Store} (hw : store.WellFormed)
    {type owner : TypeId} {tree : Tree} (ht : store.tree type = .ok tree)
    (ho : store.classOwner type = .ok owner) : store.tree owner = .ok tree.plain := by
  obtain ⟨node, hn, _, rfl⟩ := Store.classOwner_eq_ok.mp ho
  exact hw.tree_idOf ht hn

end TypeGraph
