import TypeGraph.Proofs.Writable
import TypeGraph.Tree.Display

/-!
Records carried from one store to another. Main statement: a record written in one store is read in
any other as a type that has the same record, the same signature and the same text for people
(`Store.Reachable.load_elsewhere`). All of these depend on the type written out in full, and on
nothing else that the store holds; and a type that has a record has the other two.
-/

namespace TypeGraph

/-! ### Types that have a text for people -/

variable {P : Failure → Prop}

theorem Space.failsBy_display {space : Space PathName}
    (h : ∀ name, space.name = some name → FailsBy P name) : FailsBy P space.display := by
  unfold Space.display
  cases space.isGeneric with
  | true => exact .pure _
  | false =>
      cases hn : space.name with
      | none => exact .pure _
      | some name => exact (h name hn).bind fun texts => by cases texts <;> exact .pure _

namespace Tree

theorem failsBy_displayScope {owner : Tree}
    (h : ∀ name, owner.shape.name? = some name → FailsBy P name) :
    FailsBy P (displayScope owner) := by
  unfold displayScope
  cases hn : owner.shape.name? with
  | none => exact .pure _
  | some name => exact (h name hn).map.bind fun _ => .pure _

theorem failsBy_displayAll {trees : List Tree} (h : ∀ tree ∈ trees, FailsBy P (display tree)) :
    FailsBy P (displayAll trees) := by
  induction trees with
  | nil => exact .pure []
  | cons tree trees ih =>
      refine (h tree List.mem_cons_self).bind fun _ => ?_
      exact (ih fun other hm => h other (List.mem_cons_of_mem _ hm)).bind fun _ => .pure _

theorem failsBy_displayShape {shape : TreeShape}
    (hname : ∀ name, shape.name? = some name → FailsBy P name)
    (hparts : ∀ part ∈ TreeShape.parts shape,
      part.All (TreeShape.NamedBy P) ∧ FailsBy P (display part)) :
    FailsBy P (displayShape shape) := by
  have hall (trees : List Tree) (h : trees ⊆ TreeShape.parts shape) :
      FailsBy P (displayAll trees) :=
    failsBy_displayAll fun tree hm => (hparts tree (h hm)).2
  have hscope (owner : Tree) (hm : owner ∈ TreeShape.parts shape) :
      FailsBy P (displayScope owner) := failsBy_displayScope (hparts owner hm).1.failsBy_name
  cases shape with
  | builtin type => exact .pure _
  | array base extent | bitfield base bits offset | pointer base | leftRef base | rightRef base =>
      exact (hparts base (by simp [TreeShape.parts])).2.bind fun _ => .pure _
  | function ret list conv =>
      refine (hparts ret (by simp [TreeShape.parts])).2.bind fun _ => ?_
      exact (hall list.types (by simp [TreeShape.parts])).bind fun _ => .pure _
  | memberFunction owner ret list conv =>
      refine (hparts ret (by simp [TreeShape.parts])).2.bind fun _ => ?_
      refine (hscope owner (by simp [TreeShape.parts])).bind fun _ => ?_
      exact (hall list.types (by simp [TreeShape.parts])).bind fun _ => .pure _
  | memberPointer owner base =>
      refine (hparts base (by simp [TreeShape.parts])).2.bind fun _ => ?_
      exact (hscope owner (by simp [TreeShape.parts])).bind fun _ => .pure _
  | tuple list => exact (hall list.types (by simp [TreeShape.parts])).bind fun _ => .pure _
  | classType name isStruct | enumType name => exact (hname name rfl).map.bind fun _ => .pure _

/-- The text of a type for people is refused for nothing but a name in it. -/
theorem failsBy_display {tree : Tree} (h : tree.All (TreeShape.NamedBy P)) :
    FailsBy P tree.display := by
  induction h with
  | mk own hparts ih =>
      have hshape := failsBy_displayShape own.name fun part hm => ⟨hparts part hm, ih part hm⟩
      exact hshape.bind fun _ =>
        ((Space.failsBy_display own.space).bind fun _ => .pure _).bind fun _ => .pure _

/-- A type whose names are known has a text for people. -/
theorem Named.display {tree : Tree} (h : tree.Named) : ∃ text, tree.display = .ok text :=
  (failsBy_display (h.imp fun _ _ own => own.namedBy fun _ => False)).exists_ok fun _ => id

end Tree

/-! ### From one store to another -/

namespace Store

variable {src dst : Store}

/-- The record of a type of one store, read into another one, is a type with the same record there,
whatever that store held. Exactly the record is taken. The signature of the type and its text for
people are those that it has in the first store. -/
theorem Reachable.load_elsewhere (hr : src.Reachable) (hr' : dst.Reachable) (hs : src.WellNamed)
    {type : TypeId} {written : List Item} (hsave : src.save type = ⟨written, none⟩) :
    ∃ (type' : TypeId) (new : Store) (signature text : String),
      (∀ rest, Load.type ⟨dst, written ++ rest⟩ = .ok type' ⟨new, rest⟩) ∧ dst.Grows new ∧
      new.save type' = ⟨written, none⟩ ∧
      src.signature type = .ok signature ∧ new.signature type' = .ok signature ∧
      src.display type = .ok text ∧ new.display type' = .ok text := by
  obtain ⟨tree, htree, hrecord⟩ := save_eq_ok.mp hsave
  have hcan := hr.canRestore hs htree (by rw [hrecord])
  obtain ⟨type', new, h⟩ := hcan.restores dst hr'.wellFormed
  obtain ⟨signature, hsignature⟩ := Signature.ofTree_ok hcan.named hcan.written
  obtain ⟨text, htext⟩ := hcan.named.display
  refine ⟨type', new, signature, text, fun rest => ?_, h.grows, ?_, ?_, ?_, ?_, ?_⟩
  · have hreads := h.reads rest
    rwa [hrecord] at hreads
  · exact save_eq_ok.mpr ⟨tree, h.unfolds, hrecord⟩
  · rw [Store.signature, htree]
    exact hsignature
  · rw [Store.signature, h.unfolds]
    exact hsignature
  · rw [Store.display, htree]
    exact htext
  · rw [Store.display, h.unfolds]
    exact htext

/-- The struct `f` read into a store that met the struct `g` first, which has its number there. -/
theorem Reachable.load_elsewhere_struct :
    let struct : Request := .enter (.classType ⟨1⟩ true)
    let src := struct.effect ((Request.path ["f"]).effect (Store.new .wide))
    let dst := struct.effect ((Request.path ["g"]).effect (Store.new .wide))
    let type : TypeId := ⟨Builtin.all.length⟩
    let type' : TypeId := ⟨Builtin.all.length + 1⟩
    let written : List Item := [.tag "struct", .key ["f"], .str "gen", .bool false, .bool false,
      .bool false, .bool false]
    src.Reachable ∧ dst.Reachable ∧ src.WellNamed ∧ src.save type = ⟨written, none⟩ ∧
      dst.signature type = .ok "S\x7b::g\x7d" ∧ ∃ new : Store,
      (∀ rest, Load.type ⟨dst, written ++ rest⟩ = .ok type' ⟨new, rest⟩) ∧ dst.Grows new ∧
      new.save type' = ⟨written, none⟩ ∧
      src.signature type = .ok "S\x7b::f\x7d" ∧ new.signature type' = .ok "S\x7b::f\x7d" ∧
      src.display type = .ok "struct ::f" ∧ new.display type' = .ok "struct ::f" := by
  intro struct src dst type type' written
  have hr : src.Reachable :=
    ⟨.wide, .tail (.single ⟨.path ["f"], trivial, rfl⟩) ⟨struct, trivial, rfl⟩⟩
  have hr' : dst.Reachable :=
    ⟨.wide, .tail (.single ⟨.path ["g"], trivial, rfl⟩) ⟨struct, trivial, rfl⟩⟩
  have hs : src.WellNamed := wellNamed_of_nodes (by decide +kernel)
  have hsave : src.save type = ⟨written, none⟩ := by decide +kernel
  have hgiven : outcome Load.type ⟨dst, written⟩ = .ok type' := by decide +kernel
  have hsignature : src.signature type = .ok "S\x7b::f\x7d" := by decide +kernel
  have htext : src.display type = .ok "struct ::f" := by decide +kernel
  obtain ⟨found, new, signature, text, hload, hgrows, hsaved, hsrc, hnew, hshown, hnew'⟩ :=
    Reachable.load_elsewhere hr hr' hs hsave
  have hwhole := hload []
  rw [List.append_nil] at hwhole
  rw [outcome, hwhole] at hgiven
  obtain rfl := Except.ok.inj hgiven
  obtain rfl := Except.ok.inj (hsignature.symm.trans hsrc)
  obtain rfl := Except.ok.inj (htext.symm.trans hshown)
  exact ⟨hr, hr', hs, hsave, by decide +kernel, new, hload, hgrows, hsaved, hsrc, hnew, hshown,
    hnew'⟩

end Store

end TypeGraph
