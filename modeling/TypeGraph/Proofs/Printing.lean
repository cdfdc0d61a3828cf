import TypeGraph.Proofs.Settling
import TypeGraph.Tree.Display
import TypeGraph.Tree.Signature

/-!
What is printed for a type later on. Main statement: a type is written for people, and for the
linker, in every later store as it is now, or refused as it is now, unless it cannot be written now
for want of the text of a path (`Store.Extends.lasts_display`, `Store.Extends.lasts_signature`).
-/

namespace TypeGraph

variable {α β : Type}

/-! ### Answers that last -/

/-- An answer or a refusal `x` is the later one `y` as well; a fault need not be. -/
def Lasts (x y : Except Failure α) : Prop := Faultless x → y = x

namespace Lasts

variable {x y : Except Failure α}

theorem refl (x : Except Failure α) : Lasts x x := fun _ => rfl

theorem bind {f g : α → Except Failure β} (h : Lasts x y) (hf : ∀ a, Lasts (f a) (g a)) :
    Lasts (x >>= f) (y >>= g) := by
  intro hfaultless
  cases x with
  | ok a =>
      rw [h (.pure a)]
      exact hf a hfaultless
  | error failure =>
      rw [h (Faultless.stop hfaultless)]
      rfl

theorem map (f : α → β) (h : Lasts x y) : Lasts (x.map f) (y.map f) := by
  intro hfaultless
  cases x with
  | ok a => rw [h (.pure a)]
  | error failure => rw [h (Faultless.stop hfaultless)]

theorem mapM {f g : α → Except Failure β} (as : List α) (h : ∀ a ∈ as, Lasts (f a) (g a)) :
    Lasts (as.mapM f) (as.mapM g) := by
  induction as with
  | nil => exact refl _
  | cons a as ih =>
      rw [List.mapM_cons, List.mapM_cons]
      exact (h a List.mem_cons_self).bind fun _ =>
        (ih fun other hm => h other (List.mem_cons_of_mem a hm)).bind fun _ => refl _

/-- What was looked up in vain was a fault. -/
theorem orFail {fault : Fault} {value value' : Option α}
    (h : ∀ a, value = some a → value' = some a) :
    Lasts (orFail (.fault fault) value) (orFail (.fault fault) value') := by
  intro hfaultless
  cases value with
  | some a => rw [h a rfl]
  | none => exact absurd rfl (hfaultless fault)

end Lasts

/-! ### Trees that are written alike -/

/-- Whatever is printed of the type `a` without a fault is printed of `b`. -/
structure Tree.Prints (a b : Tree) : Prop where
  display : Lasts a.display b.display
  signature : Lasts (Signature.ofTree a) (Signature.ofTree b)
  scope : Lasts a.displayScope b.displayScope
  owner : Lasts (Signature.ownerName a) (Signature.ownerName b)

/-- Shapes of one form whose parts and names are printed alike. -/
abbrev TreeShape.Prints : TreeShape → TreeShape → Prop :=
  Shape.Rel Tree.Prints (Params.Rel Tree.Prints) Lasts

namespace Tree

theorem lasts_displayAll {as bs : List Tree} (h : List.Forall₂ Tree.Prints as bs) :
    Lasts (displayAll as) (displayAll bs) := by
  induction h with
  | nil => exact .refl _
  | cons hab _ ih => exact hab.display.bind fun _ => ih.bind fun _ => .refl _

theorem lasts_displayShape {a b : TreeShape} (h : TreeShape.Prints a b) :
    Lasts (displayShape a) (displayShape b) := by
  cases h with
  | builtin type => exact .refl _
  | array extent hb => exact hb.display.bind fun _ => .refl _
  | bitfield bits offset hb => exact hb.display.bind fun _ => .refl _
  | pointer hb | leftRef hb | rightRef hb => exact hb.display.bind fun _ => .refl _
  | function conv hr hp =>
      obtain ⟨types, types', variadic, rfl, rfl, ht⟩ := hp.split
      exact hr.display.bind fun _ => (lasts_displayAll ht).bind fun _ => .refl _
  | memberFunction conv ho hr hp =>
      obtain ⟨types, types', variadic, rfl, rfl, ht⟩ := hp.split
      exact hr.display.bind fun _ => ho.scope.bind fun _ => (lasts_displayAll ht).bind fun _ =>
        .refl _
  | memberPointer ho hb => exact hb.display.bind fun _ => ho.scope.bind fun _ => .refl _
  | tuple hp =>
      obtain ⟨types, types', variadic, rfl, rfl, ht⟩ := hp.split
      exact (lasts_displayAll ht).bind fun _ => .refl _
  | classType isStruct hn => exact (hn.map writePath).bind fun _ => .refl _
  | enumType hn => exact (hn.map writePath).bind fun _ => .refl _

end Tree

namespace Signature

theorem lasts_ofTrees {as bs : List Tree} (h : List.Forall₂ Tree.Prints as bs) :
    Lasts (ofTrees as) (ofTrees bs) := by
  induction h with
  | nil => exact .refl _
  | cons hab _ ih => exact hab.signature.bind fun _ => ih.bind fun _ => .refl _

theorem lasts_ofShape {a b : TreeShape} (h : TreeShape.Prints a b) :
    Lasts (ofShape a) (ofShape b) := by
  cases h with
  | builtin type => exact .refl _
  | array extent hb => exact hb.signature.bind fun _ => .refl _
  | bitfield bits offset hb => exact hb.signature.bind fun _ => .refl _
  | pointer hb | leftRef hb | rightRef hb => exact hb.signature.bind fun _ => .refl _
  | function conv hr hp =>
      obtain ⟨types, types', variadic, rfl, rfl, ht⟩ := hp.split
      exact (lasts_ofTrees ht).bind fun _ => hr.signature.bind fun _ => .refl _
  | memberFunction conv ho hr hp =>
      obtain ⟨types, types', variadic, rfl, rfl, ht⟩ := hp.split
      exact ho.owner.bind fun _ => (lasts_ofTrees ht).bind fun _ => hr.signature.bind fun _ =>
        .refl _
  | memberPointer ho hb => exact ho.owner.bind fun _ => hb.signature.bind fun _ => .refl _
  | tuple hp =>
      obtain ⟨types, types', variadic, rfl, rfl, ht⟩ := hp.split
      exact (lasts_ofTrees ht).bind fun _ => .refl _
  | classType isStruct hn => exact (hn.map segments).bind fun _ => .refl _
  | enumType hn => exact (hn.map segments).bind fun _ => .refl _

end Signature

section Qualifiers

variable {f g : PathId → PathName}

theorem Qual.lasts_display (h : ∀ path, Lasts (f path) (g path)) (qual : Qual PathId) :
    Lasts (qual.map f).display (qual.map g).display := by
  obtain ⟨⟨storage, name⟩, isAtomic, isConst, isRestrict, isVolatile⟩ := qual
  refine Lasts.bind ?_ fun _ => .refl _
  unfold Space.display Qual.map Space.map Space.isGeneric
  cases storage == .gen with
  | true => exact .refl _
  | false =>
      cases name with
      | none => exact .refl _
      | some path => exact (h path).bind fun _ => .refl _

theorem Signature.lasts_qual (h : ∀ path, Lasts (f path) (g path)) (own : Qual PathId) :
    Lasts (Signature.qual (own.map f)) (Signature.qual (own.map g)) := by
  obtain ⟨⟨storage, name⟩, isAtomic, isConst, isRestrict, isVolatile⟩ := own
  refine Lasts.bind ?_ fun _ => .refl _
  unfold Signature.space Qual.map Space.map Space.isGeneric
  cases storage.isPlaceholder with
  | true => exact .refl _
  | false =>
      cases storage == .gen with
      | true => exact .refl _
      | false =>
          cases name with
          | none => exact .refl _
          | some path => exact ((h path).map Signature.segments).bind fun _ => .refl _

/-- Types of shapes that are printed alike are printed alike if their qualifiers are. -/
theorem TreeShape.Prints.tree (h : ∀ path, Lasts (f path) (g path)) {a b : TreeShape}
    (hs : TreeShape.Prints a b) (own : Qual PathId) :
    Tree.Prints ⟨a, own.map f⟩ ⟨b, own.map g⟩ where
  display := (Tree.lasts_displayShape hs).bind fun _ => (own.lasts_display h).bind fun _ => .refl _
  signature := (Signature.lasts_ofShape hs).bind fun _ =>
    (Signature.lasts_qual h own).bind fun _ => .refl _
  scope := by
    cases hs with
    | classType isStruct hn => exact (hn.map writePath).bind fun _ => .refl _
    | enumType hn => exact (hn.map writePath).bind fun _ => .refl _
    | _ => exact .refl _
  owner := by
    cases hs with
    | classType isStruct hn => exact hn.map Signature.segments
    | enumType hn => exact hn.map Signature.segments
    | _ => exact .refl _

end Qualifiers

/-! ### Types of later stores -/

namespace Store

variable {store old new : Store}

/-- Every type of a well-formed store can be written out in full. -/
theorem WellFormed.exists_tree (hw : store.WellFormed) {type : TypeId} (h : store.Holds type) :
    ∃ tree, store.tree type = .ok tree := by
  induction hi : type.index using Nat.strongRecOn generalizing type with
  | _ i ih =>
      subst hi
      have hpart (part : Below type) : ∃ tree, store.tree part.type = .ok tree :=
        ih part.type.index part.older (h.below part) rfl
      obtain ⟨node, hn⟩ := h
      obtain ⟨seen, hv⟩ := hw.view hn
      obtain ⟨shape, hs⟩ := Shape.Rel.exists (a := seen)
        (R := fun part tree => store.tree part.type = .ok tree)
        (P := fun params trees => params.mapM (fun part => store.tree part.type) = .ok trees)
        (N := fun path name => store.pathName path = name)
        (fun part _ => hpart part) (fun part _ => hpart part)
        (fun params _ => by
          obtain ⟨trees, ht⟩ := forall₂_exists fun part (_ : part ∈ params.types) => hpart part
          exact ⟨⟨trees, params.variadic⟩, Params.mapM_eq_ok.mpr ⟨ht, rfl⟩⟩)
        (fun path _ => ⟨_, rfl⟩)
      rw [Store.tree]
      exact ⟨_, bind_eq_ok.mpr ⟨node.qual, qual_eq_ok.mpr ⟨node, hn, rfl⟩,
        bind_eq_ok.mpr ⟨seen, hv, bind_eq_ok.mpr ⟨shape, Shape.mapM_eq_ok.mpr hs, rfl⟩⟩⟩⟩

/-- The texts of a path that are known are known for good. -/
theorem Extends.lasts_pathName (h : old.Extends new) (path : PathId) :
    Lasts (old.pathName path) (new.pathName path) :=
  Lasts.bind (.orFail fun _ => h.names.paths.get?) fun segments =>
    .mapM segments fun _ _ => .orFail fun _ => h.names.texts.get?

theorem Extends.prints (h : old.Extends new) (hw : old.WellFormed) (hw' : new.WellFormed)
    (a : Tree) : ∀ {type : TypeId} {b : Tree}, old.tree type = .ok a → new.tree type = .ok b →
      a.Prints b := by
  induction a using Tree.induct with
  | h a ih =>
      intro type b ha hb
      obtain ⟨wanted, own, hs, hu, hq⟩ := hw.tree_eq_ok.mp ha
      obtain ⟨wanted', own', hs', hu', hq'⟩ := hw'.tree_eq_ok.mp hb
      obtain ⟨rfl, rfl⟩ := spells_unique (h.spells hs) hs'
      obtain ⟨shape, qual⟩ := a
      obtain ⟨shape', qual'⟩ := b
      subst hq hq'
      refine TreeShape.Prints.tree h.lasts_pathName ?_ own
      -- Both shapes unfold the same one, so that their parts are the same types in both stores.
      refine (Shape.Rel.comp.mpr ⟨wanted, (TreeShape.rel_parts hu).flip, hu'⟩).imp ?_ ?_ ?_
      · rintro x y ⟨part, ⟨hm, hx⟩, hy⟩
        exact ih x hm hx hy
      · rintro xs ys ⟨params, hxs, hys⟩
        refine (Params.Rel.comp.mpr ⟨params, hxs.flip, hys⟩).imp ?_
        rintro x y ⟨part, ⟨hm, hx⟩, hy⟩
        exact ih x hm hx hy
      · rintro x y ⟨path, ⟨_, rfl⟩, rfl⟩
        exact h.lasts_pathName path

/-- What is printed of types without a fault is printed for good. -/
theorem Extends.lasts_tree (h : old.Extends new) (hw : old.WellFormed) (hw' : new.WellFormed)
    {f : Tree → Except Failure α} (hf : ∀ a b : Tree, a.Prints b → Lasts (f a) (f b))
    (type : TypeId) : Lasts (old.tree type >>= f) (new.tree type >>= f) := by
  cases hn : old.node? type with
  | some node =>
      have hold : old.Holds type := ⟨node, hn⟩
      obtain ⟨a, ha⟩ := hw.exists_tree hold
      obtain ⟨b, hb⟩ := hw'.exists_tree (hold.mono h)
      rw [ha, hb]
      exact hf a b (h.prints hw hw' a ha hb)
  | none =>
      -- A type that the store does not hold is a fault.
      intro hfaultless
      refine absurd ?_ (hfaultless (.unknownType type))
      rw [Store.tree, Store.qual, Store.node, hn]
      rfl

theorem Extends.lasts_display (h : old.Extends new) (hw : old.WellFormed) (hw' : new.WellFormed)
    (type : TypeId) : Lasts (old.display type) (new.display type) :=
  h.lasts_tree hw hw' (fun _ _ hp => hp.display) type

theorem Extends.lasts_signature (h : old.Extends new) (hw : old.WellFormed) (hw' : new.WellFormed)
    (type : TypeId) : Lasts (old.signature type) (new.signature type) :=
  h.lasts_tree hw hw' (fun _ _ hp => hp.signature) type

end Store

end TypeGraph
