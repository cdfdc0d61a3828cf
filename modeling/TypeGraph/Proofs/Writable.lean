import TypeGraph.Proofs.Signatures

/-!
What can be written out. Main statements: the signature and the record of a type are refused for
nothing but the names and spaces in it (`Signature.failsBy_ofTree`, `Tree.stopsBy_record`), if the
names are known for placeholder spaces only, and a type that has either of them has no such space in
it (`Tree.free_of_signature`, `Tree.free_of_record`).
-/

namespace TypeGraph

variable {α β ε : Type}

/-! ### Answers and their failures -/

/-- A question is answered if its first part is and its second one always is. -/
theorem exists_bind {x : Except ε α} {f : α → Except ε β} (hx : ∃ a, x = .ok a)
    (hf : ∀ a, ∃ b, f a = .ok b) : ∃ b, x >>= f = .ok b := by
  obtain ⟨a, rfl⟩ := hx
  exact hf a

theorem exists_pure (a : α) : ∃ b, (pure a : Except ε α) = .ok b := ⟨a, rfl⟩

/-- A question is answered, or fails for a reason of this kind. -/
def FailsBy (P : Failure → Prop) (answer : Except Failure α) : Prop :=
  ∀ failure, answer = .error failure → P failure

namespace FailsBy

variable {P Q : Failure → Prop} {answer : Except Failure α}

theorem of_ok (h : ∃ a, answer = .ok a) : FailsBy P answer := by
  obtain ⟨a, rfl⟩ := h
  intro failure hfail
  cases hfail

theorem exists_ok (h : FailsBy P answer) (hP : ∀ failure, ¬P failure) : ∃ a, answer = .ok a := by
  cases answer with
  | ok a => exact ⟨a, rfl⟩
  | error failure => exact absurd (h failure rfl) (hP failure)

theorem pure (a : α) : FailsBy P (pure a) := of_ok (exists_pure a)

theorem bind {f : α → Except Failure β} (h : FailsBy P answer) (hf : ∀ a, FailsBy P (f a)) :
    FailsBy P (answer >>= f) := by
  intro failure hfail
  rcases bind_eq_error.mp hfail with ha | ⟨a, _, hb⟩
  · exact h failure ha
  · exact hf a failure hb

theorem map {f : α → β} (h : FailsBy P answer) : FailsBy P (answer.map f) := by
  intro failure hfail
  cases answer with
  | ok a => cases hfail
  | error own =>
      cases hfail
      exact h _ rfl

theorem mono (h : FailsBy P answer) (hPQ : ∀ failure, P failure → Q failure) : FailsBy Q answer :=
  fun failure hfail => hPQ failure (h failure hfail)

end FailsBy

namespace Output

variable {P Q : Failure → Prop} {a b : Output}

/-- Something is written in full, or stopped for a reason of this kind. -/
def StopsBy (P : Failure → Prop) (output : Output) : Prop :=
  ∀ failure, output.stop = some failure → P failure

theorem StopsBy.of_none (h : a.stop = none) : StopsBy P a := by
  intro failure hstop
  cases h.symm.trans hstop

theorem StopsBy.none (h : a.StopsBy P) (hP : ∀ failure, ¬P failure) : a.stop = none :=
  Option.eq_none_iff_forall_ne_some.mpr fun failure hstop => hP failure (h failure hstop)

theorem StopsBy.append (ha : StopsBy P a) (hb : StopsBy P b) : StopsBy P (a ++ b) := by
  intro failure hstop
  rcases a with ⟨items, _ | first⟩
  · exact hb failure hstop
  · exact ha failure hstop

theorem stopsBy_key {name : PathName} (h : FailsBy P name) : (key name).StopsBy P := by
  cases name with
  | ok texts => exact .of_none rfl
  | error own =>
      rintro failure ⟨⟩
      exact h own rfl

theorem StopsBy.mono (h : StopsBy P a) (hPQ : ∀ failure, P failure → Q failure) : StopsBy Q a :=
  fun failure hstop => hPQ failure (h failure hstop)

end Output

/-! ### Placeholder spaces in a type -/

/-- A refusal to write out this space. -/
def Space.Refuses (space : Space PathName) (failure : Failure) : Prop :=
  space.storage.isPlaceholder = true ∧ failure = .type (.internalSpace space.storage)

namespace Tree

variable {tree part inner : Tree} {failure : Failure}

/-- A type is built from another one, at any depth, or is that type. -/
def Contains : Tree → Tree → Prop := Relation.ReflTransGen fun tree part => part ∈ tree.parts

/-- A refusal to write out the space of some type in this one. -/
def Refuses (tree : Tree) (failure : Failure) : Prop :=
  ∃ inner, tree.Contains inner ∧ inner.qual.space.Refuses failure

/-- No type in this one is in a placeholder space. -/
def Free (tree : Tree) : Prop :=
  ∀ inner, tree.Contains inner → inner.qual.space.storage.isPlaceholder = false

theorem Refuses.self {shape : TreeShape} {qual : Qual PathName} (h : qual.space.Refuses failure) :
    Refuses ⟨shape, qual⟩ failure :=
  ⟨⟨shape, qual⟩, .refl, h⟩

theorem Refuses.of_part (hm : part ∈ tree.parts) (h : part.Refuses failure) :
    tree.Refuses failure := by
  obtain ⟨inner, hinner, hspace⟩ := h
  exact ⟨inner, .head hm hinner, hspace⟩

theorem Free.not_refuses (h : tree.Free) (failure : Failure) : ¬tree.Refuses failure := by
  rintro ⟨inner, hinner, hplace, _⟩
  exact Bool.false_ne_true ((h inner hinner).symm.trans hplace)

end Tree

/-! ### The names and spaces in a type -/

namespace TreeShape

variable {P Q : Failure → Prop} {shape : TreeShape} {qual : Qual PathName}

/-- The names in a shape and its qualifiers are known, or fail for a reason of this kind. -/
structure NamedBy (P : Failure → Prop) (shape : TreeShape) (qual : Qual PathName) : Prop where
  name : ∀ name, shape.name? = some name → FailsBy P name
  space : ∀ name, qual.space.name = some name → FailsBy P name

/-- A refusal to write out the space is of this kind as well. -/
structure WrittenBy (P : Failure → Prop) (shape : TreeShape) (qual : Qual PathName) : Prop
    extends NamedBy P shape qual where
  refuses : ∀ failure, qual.space.Refuses failure → P failure

theorem Named.namedBy (h : shape.Named qual) (P : Failure → Prop) : shape.NamedBy P qual where
  name name hn := .of_ok (h.name name hn)
  space name hn := .of_ok (h.space name hn)

theorem WrittenBy.mono (h : shape.WrittenBy P qual) (hPQ : ∀ failure, P failure → Q failure) :
    shape.WrittenBy Q qual where
  name name hn := (h.name name hn).mono hPQ
  space name hn := (h.space name hn).mono hPQ
  refuses failure hr := hPQ failure (h.refuses failure hr)

end TreeShape

namespace Tree

variable {P : Failure → Prop} {tree : Tree}

theorem All.failsBy_name (h : tree.All (TreeShape.NamedBy P)) :
    ∀ name, tree.shape.name? = some name → FailsBy P name := by
  cases h with
  | mk own _ => exact own.name

theorem All.namedBy (h : tree.All (TreeShape.WrittenBy P)) : tree.All (TreeShape.NamedBy P) :=
  h.imp fun _ _ hw => hw.toNamedBy

/-- A type whose names are known is refused for the spaces in it only. -/
theorem Named.writtenBy (h : tree.Named) : tree.All (TreeShape.WrittenBy tree.Refuses) := by
  induction h with
  | mk own _ ih =>
      refine .mk ⟨own.namedBy _, fun _ => .self⟩ fun part hm => ?_
      exact (ih part hm).imp fun _ _ hw => hw.mono fun _ => .of_part hm

end Tree

/-! ### Signatures -/

namespace Signature

variable {P : Failure → Prop}

theorem failsBy_space {address : Space PathName}
    (h : ∀ name, address.name = some name → FailsBy P name)
    (hr : ∀ failure, address.Refuses failure → P failure) : FailsBy P (space address) := by
  unfold space
  cases hp : address.storage.isPlaceholder with
  | true =>
      intro failure hfail
      cases hfail
      exact hr _ ⟨hp, rfl⟩
  | false =>
      cases address.isGeneric with
      | true => exact .pure _
      | false =>
          cases hn : address.name with
          | none => exact .pure _
          | some path => exact ((h path hn).map).bind fun _ => .pure _

theorem failsBy_ownerName {owner : Tree}
    (h : ∀ name, owner.shape.name? = some name → FailsBy P name) : FailsBy P (ownerName owner) := by
  unfold ownerName
  cases hn : owner.shape.name? with
  | none => exact .pure _
  | some path => exact (h path hn).map

theorem failsBy_ofTrees {trees : List Tree} (h : ∀ tree ∈ trees, FailsBy P (ofTree tree)) :
    FailsBy P (ofTrees trees) := by
  induction trees with
  | nil => exact .pure []
  | cons tree trees ih =>
      refine (h tree List.mem_cons_self).bind fun _ => ?_
      exact (ih fun other hm => h other (List.mem_cons_of_mem _ hm)).bind fun _ => .pure _

/-- A shape is refused for what one of its names or parts is refused for. -/
theorem failsBy_ofShape {shape : TreeShape}
    (hname : ∀ name, shape.name? = some name → FailsBy P name)
    (hparts : ∀ part ∈ TreeShape.parts shape,
      part.All (TreeShape.NamedBy P) ∧ FailsBy P (ofTree part)) :
    FailsBy P (ofShape shape) := by
  have hall (trees : List Tree) (h : trees ⊆ TreeShape.parts shape) : FailsBy P (ofTrees trees) :=
    failsBy_ofTrees fun tree hm => (hparts tree (h hm)).2
  have howner (owner : Tree) (hm : owner ∈ TreeShape.parts shape) : FailsBy P (ownerName owner) :=
    failsBy_ownerName (hparts owner hm).1.failsBy_name
  cases shape with
  | builtin type => exact .pure _
  | array base extent | bitfield base bits offset | pointer base | leftRef base | rightRef base =>
      exact (hparts base (by simp [TreeShape.parts])).2.bind fun _ => .pure _
  | function ret list conv =>
      refine (hall list.types (by simp [TreeShape.parts])).bind fun _ => ?_
      exact (hparts ret (by simp [TreeShape.parts])).2.bind fun _ => .pure _
  | memberFunction owner ret list conv =>
      refine (howner owner (by simp [TreeShape.parts])).bind fun _ => ?_
      refine (hall list.types (by simp [TreeShape.parts])).bind fun _ => ?_
      exact (hparts ret (by simp [TreeShape.parts])).2.bind fun _ => .pure _
  | memberPointer owner base =>
      refine (howner owner (by simp [TreeShape.parts])).bind fun _ => ?_
      exact (hparts base (by simp [TreeShape.parts])).2.bind fun _ => .pure _
  | tuple list => exact (hall list.types (by simp [TreeShape.parts])).bind fun _ => .pure _
  | classType path isStruct | enumType path =>
      exact (hname path rfl).map.bind fun _ => .pure _

/-- The signature of a type is refused for nothing but its names and spaces. -/
theorem failsBy_ofTree {tree : Tree} (h : tree.All (TreeShape.WrittenBy P)) :
    FailsBy P (ofTree tree) := by
  induction h with
  | mk own hparts ih =>
      have hspace := failsBy_space own.space own.refuses
      have hpart : ∀ part ∈ TreeShape.parts _,
          part.All (TreeShape.NamedBy P) ∧ FailsBy P (ofTree part) :=
        fun part hm => ⟨(hparts part hm).namedBy, ih part hm⟩
      exact (failsBy_ofShape own.name hpart).bind fun _ =>
        (hspace.bind fun _ => .pure _).bind fun _ => .pure _

theorem exists_of_ofTrees {trees : List Tree} {texts : List String}
    (h : ofTrees trees = .ok texts) : ∀ tree ∈ trees, ∃ text, ofTree tree = .ok text := by
  induction trees generalizing texts with
  | nil => simp
  | cons tree trees ih =>
      obtain ⟨text, ht, h⟩ := bind_eq_ok.mp h
      obtain ⟨rest, hr, _⟩ := bind_eq_ok.mp h
      exact List.forall_mem_cons.mpr ⟨⟨text, ht⟩, ih hr⟩

/-- A class without qualifiers has a signature if its path is known. -/
theorem exists_of_ownerName {owner : Tree}
    (hplain : ∃ name isStruct, owner = ⟨.classType name isStruct, Qual.none⟩) {text : String}
    (h : ownerName owner = .ok text) : ∃ text, ofTree owner = .ok text := by
  obtain ⟨path, isStruct, rfl⟩ := hplain
  have hname : ∃ text, name path = .ok text := ⟨text, h⟩
  exact exists_bind (exists_bind hname fun _ => exists_pure _) fun _ => exists_pure _

/-- What is part of a type with a signature has one as well. Of a class that has a member, only the
path is written, but such a class has no qualifiers. -/
theorem exists_part {tree : Tree} (howner : ∀ owner, tree.shape.owner? = some owner →
    ∃ name isStruct, owner = ⟨.classType name isStruct, Qual.none⟩)
    (h : ∃ text, ofTree tree = .ok text) {part : Tree} (hm : part ∈ tree.parts) :
    ∃ text, ofTree part = .ok text := by
  obtain ⟨shape, qual⟩ := tree
  obtain ⟨_, h⟩ := h
  obtain ⟨front, h, _⟩ := bind_eq_ok.mp h
  change part ∈ TreeShape.parts shape at hm
  cases shape with
  | builtin type | classType path isStruct | enumType path => simp [TreeShape.parts] at hm
  | array base extent | bitfield base bits offset | pointer base | leftRef base | rightRef base =>
      obtain rfl : part = base := by simpa [TreeShape.parts] using hm
      obtain ⟨text, hb, _⟩ := bind_eq_ok.mp h
      exact ⟨text, hb⟩
  | function ret list conv =>
      obtain ⟨texts, hl, h⟩ := bind_eq_ok.mp h
      obtain ⟨text, hr, _⟩ := bind_eq_ok.mp h
      rcases (by simpa [TreeShape.parts] using hm : part = ret ∨ part ∈ list.types) with rfl | hm
      · exact ⟨text, hr⟩
      · exact exists_of_ofTrees hl part hm
  | memberFunction owner ret list conv =>
      obtain ⟨path, hp, h⟩ := bind_eq_ok.mp h
      obtain ⟨texts, hl, h⟩ := bind_eq_ok.mp h
      obtain ⟨text, hr, _⟩ := bind_eq_ok.mp h
      rcases (by simpa [TreeShape.parts] using hm :
        part = owner ∨ part = ret ∨ part ∈ list.types) with rfl | rfl | hm
      · exact exists_of_ownerName (howner part rfl) hp
      · exact ⟨text, hr⟩
      · exact exists_of_ofTrees hl part hm
  | memberPointer owner base =>
      obtain ⟨path, hp, h⟩ := bind_eq_ok.mp h
      obtain ⟨text, hb, _⟩ := bind_eq_ok.mp h
      rcases (by simpa [TreeShape.parts] using hm : part = owner ∨ part = base) with rfl | rfl
      · exact exists_of_ownerName (howner part rfl) hp
      · exact ⟨text, hb⟩
  | tuple list =>
      obtain ⟨texts, hl, _⟩ := bind_eq_ok.mp h
      exact exists_of_ofTrees hl part (by simpa [TreeShape.parts] using hm)

theorem storage_of_qual {own : Qual PathName} {text : String} (h : qual own = .ok text) :
    own.space.storage.isPlaceholder = false := by
  obtain ⟨written, hspace, _⟩ := bind_eq_ok.mp h
  cases hp : own.space.storage.isPlaceholder with
  | false => rfl
  | true =>
      simp only [space, hp, if_true] at hspace
      cases hspace

end Signature

/-! ### Records -/

theorem Space.stopsBy_record {P : Failure → Prop} {space : Space PathName}
    (h : ∀ name, space.name = some name → FailsBy P name)
    (hr : ∀ failure, space.Refuses failure → P failure) : space.record.StopsBy P := by
  unfold Space.record
  cases hp : space.storage.isPlaceholder with
  | true =>
      rintro failure ⟨⟩
      exact hr _ ⟨hp, rfl⟩
  | false =>
      cases space.storage.isDeclarable with
      | true =>
          refine .append (.of_none rfl) (Output.stopsBy_key ?_)
          cases hn : space.name with
          | none => exact .pure _
          | some name => exact h name hn
      | false => exact .of_none rfl

namespace Tree

variable {P : Failure → Prop} {tree : Tree}

theorem stopsBy_recordAll {trees : List Tree} (h : ∀ tree ∈ trees, tree.record.StopsBy P) :
    (recordAll trees).StopsBy P := by
  induction trees with
  | nil => exact .of_none rfl
  | cons tree trees ih =>
      exact (h tree List.mem_cons_self).append
        (ih fun other hm => h other (List.mem_cons_of_mem _ hm))

/-- The fields of a record are stopped for what a name or the record of a part is stopped for. -/
theorem stopsBy_recordFields {shape : TreeShape}
    (hname : ∀ name, shape.name? = some name → FailsBy P name)
    (hparts : ∀ part ∈ TreeShape.parts shape, part.record.StopsBy P) :
    (recordFields shape).StopsBy P := by
  have hlist (params : Params Tree) (h : params.types ⊆ TreeShape.parts shape) :
      (recordParams params).StopsBy P :=
    .append (.of_none rfl) (stopsBy_recordAll fun tree hm => hparts tree (h hm))
  cases shape with
  | builtin type => exact .of_none rfl
  | array base extent =>
      exact .append (.of_none (by cases extent <;> rfl)) (hparts base (by simp [TreeShape.parts]))
  | bitfield base bits offset =>
      refine .append (.of_none rfl) (.append (.of_none rfl) ?_)
      exact hparts base (by simp [TreeShape.parts])
  | pointer base | leftRef base | rightRef base => exact hparts base (by simp [TreeShape.parts])
  | function ret params conv =>
      refine .append (hparts ret (by simp [TreeShape.parts])) ?_
      exact .append (hlist params (by simp [TreeShape.parts])) (.of_none rfl)
  | memberFunction owner ret params conv =>
      refine .append (hparts owner (by simp [TreeShape.parts])) ?_
      refine .append (hparts ret (by simp [TreeShape.parts])) ?_
      exact .append (hlist params (by simp [TreeShape.parts])) (.of_none rfl)
  | memberPointer owner base =>
      exact .append (hparts owner (by simp [TreeShape.parts]))
        (hparts base (by simp [TreeShape.parts]))
  | tuple params => exact hlist params (by simp [TreeShape.parts])
  | classType name isStruct | enumType name => exact Output.stopsBy_key (hname name rfl)

/-- The record of a type is stopped by nothing but its names and spaces. -/
theorem stopsBy_record (h : tree.All (TreeShape.WrittenBy P)) : tree.record.StopsBy P := by
  induction h with
  | mk own _ ih =>
      have hspace := Space.stopsBy_record own.space own.refuses
      have hflag (flag : Bool) : (Output.bool flag).StopsBy P := .of_none rfl
      rw [record_eq]
      refine .append (.append (.of_none rfl) (stopsBy_recordFields own.name ih)) ?_
      exact (((hspace.append (hflag _)).append (hflag _)).append (hflag _)).append (hflag _)

/-! ### Types that can be written out -/

/-- The signature of a type is refused for nothing but a placeholder space in it. -/
theorem Named.failsBy_ofTree (h : tree.Named) : FailsBy tree.Refuses (Signature.ofTree tree) :=
  Signature.failsBy_ofTree h.writtenBy

/-- The record of a type is stopped by nothing but a placeholder space in it. -/
theorem Named.stopsBy_record (h : tree.Named) : tree.record.StopsBy tree.Refuses :=
  Tree.stopsBy_record h.writtenBy

/-- A type that has a record has no placeholder space in it: all of its parts have records. -/
theorem free_of_record (h : tree.record.stop = none) : tree.Free := by
  intro inner hinner
  have hs : inner.record.stop = none := by
    induction hinner with
    | refl => exact h
    | tail _ hm ih => exact (record_part ih hm).1
  rw [record_eq] at hs
  exact (Output.stop_space (Output.stop_qual (Output.stop_append.mp hs).2)).1

/-- A type that has a signature has no placeholder space in it, if members in it belong to classes
without qualifiers: all of its parts have signatures. -/
theorem free_of_signature (howner : ∀ inner, tree.Contains inner → ∀ owner,
    inner.shape.owner? = some owner →
      ∃ name isStruct, owner = ⟨.classType name isStruct, Qual.none⟩)
    (h : ∃ text, Signature.ofTree tree = .ok text) : tree.Free := by
  intro inner hinner
  have hs : ∃ text, Signature.ofTree inner = .ok text := by
    induction hinner with
    | refl => exact h
    | tail hchain hm ih => exact Signature.exists_part (howner _ hchain) ih hm
  obtain ⟨shape, qual⟩ := inner
  obtain ⟨_, hs⟩ := hs
  obtain ⟨_, _, hs⟩ := bind_eq_ok.mp hs
  obtain ⟨_, hq, _⟩ := bind_eq_ok.mp hs
  exact Signature.storage_of_qual hq

end Tree

/-- A type whose names are known has a signature if it has a record: both refuse the same spaces. -/
theorem Signature.ofTree_ok {tree : Tree} (h : tree.Named) (hs : tree.record.stop = none) :
    ∃ text, ofTree tree = .ok text :=
  h.failsBy_ofTree.exists_ok (Tree.free_of_record hs).not_refuses

end TypeGraph
