import TypeGraph.Proofs.Runs

/-!
Equal numbers for equal types. Main statement: over a whole run, two requests give the same type
exactly if they ask for the same shape, and two qualified variants are the same exactly if the
unqualified types and the qualifiers are (`Store.Runs.canonical`).
-/

namespace TypeGraph

/-- A request that gave a type: the type has the shape that was asked for and no qualifiers. -/
def TypeRequest.Gives (request : TypeRequest) (old new : Store) (type : TypeId) : Prop :=
  ∃ wanted shape, request.wanted old = .ok wanted ∧ new.node? type = some (.plain shape) ∧
    new.spelling shape = .ok wanted

namespace Store

variable {store old old' new new' : Store}

theorem Extends.gives (h : old'.Extends new) {request : TypeRequest} {type : TypeId}
    (hg : request.Gives old old' type) : request.Gives old new type := by
  obtain ⟨wanted, shape, hw, hn, hs⟩ := hg
  exact ⟨wanted, shape, hw, h.node? hn, h.spelling hs⟩

/-- In one store, two requests gave the same type exactly if they ask for the same shape. -/
theorem eq_iff_of_gives {a b : TypeRequest} {type type' : TypeId}
    (ha : a.Gives old store type) (hb : b.Gives old' store type') :
    type = type' ↔ a.wanted old = b.wanted old' := by
  obtain ⟨wanted, shape, hw, hn, hs⟩ := ha
  obtain ⟨wanted', shape', hw', hn', hs'⟩ := hb
  rw [hw, hw']
  constructor
  · rintro rfl
    obtain rfl : shape = shape' := by
      rw [hn] at hn'
      cases hn'
      rfl
    rw [← hs, ← hs']
  · intro h
    cases h
    obtain rfl := shape_eq_of_spelling_eq hs hs'
    exact type_eq_of_node_eq hn hn'

theorem WellFormed.unqualified (hw : store.WellFormed) {type : TypeId} {node : Node}
    (hn : store.node? type = some node) :
    ∃ plain, store.unqualified type = .ok plain ∧ store.node? plain = some (.plain node.shape) :=
  ⟨_, unqualified_eq_ok.mpr ⟨node, hn, rfl⟩, node?_idOf (hw.plain type node hn)⟩

theorem eq_iff_of_run {a b : TypeRequest} (ha : a.Countable) (hb : b.Countable) {type type' : TypeId}
    (hr : old.Reachable) (hrun : a.run old = .ok type old') (hruns : old'.Runs new)
    (hrun' : b.run new = .ok type' new') :
    a.Gives old old' type ∧ b.Gives new new' type' ∧
      (type = type' ↔ a.wanted old = b.wanted new) := by
  obtain ⟨hg, hgives⟩ := TypeRequest.run_spec ha hr.wellFormed hrun
  obtain ⟨hext, hw⟩ := hruns.onward hg.wellFormed
  obtain ⟨hg', hgives'⟩ := TypeRequest.run_spec hb hw hrun'
  exact ⟨hgives, hgives', eq_iff_of_gives ((hext.trans hg'.extends_).gives hgives) hgives'⟩

theorem eq_iff_of_qualify {a b type type' : TypeId} {qual qual' : Qual PathId}
    (hr : old.Reachable) (hrun : Build.qualify a qual old = .ok type old') (hruns : old'.Runs new)
    (hrun' : Build.qualify b qual' new = .ok type' new') :
    type = type' ↔ old.unqualified a = new.unqualified b ∧ qual = qual' := by
  have hsafe := (Build.keeps_qualify a qual).of_ok hrun hr.wellFormed
  obtain ⟨hext, hw⟩ := hruns.onward hsafe.wellFormed
  have hlast := (Build.keeps_qualify b qual').of_ok hrun' hw
  obtain ⟨node, hn, rfl, rfl⟩ := Build.run_qualify_eq_ok.mp hrun
  obtain ⟨node', hn', rfl, rfl⟩ := Build.run_qualify_eq_ok.mp hrun'
  obtain ⟨plain, hplain, hpn⟩ := hr.wellFormed.unqualified hn
  obtain ⟨plain', hplain', hpn'⟩ := hw.unqualified hn'
  have htype := (hext.trans hlast.extends_).node? (old.node?_withNode ⟨node.shape, qual⟩)
  have htype' := new.node?_withNode ⟨node'.shape, qual'⟩
  have hpn := (hsafe.extends_.trans hext).node? hpn
  rw [hplain, hplain']
  constructor
  · intro h
    rw [h, htype'] at htype
    obtain ⟨hshape, hqual⟩ : node'.shape = node.shape ∧ qual' = qual := by simpa using htype
    rw [hshape] at hpn'
    exact ⟨congrArg _ (type_eq_of_node_eq hpn hpn'), hqual.symm⟩
  · rintro ⟨h, rfl⟩
    cases h
    rw [hpn] at hpn'
    have hshape : node.shape = node'.shape := by simpa [Node.plain] using hpn'
    refine type_eq_of_node_eq htype ?_
    rw [hshape]
    exact htype'

/-- Identity is canonical over a whole run, whatever requests succeed or fail on the way. -/
theorem Runs.canonical (target : Target) :
    (∀ store, Runs (.new target) store →
      (∀ a b node, store.node? a = some node → store.node? b = some node → a = b) ∧
      (∀ a b params, store.paramSet a = .ok params → store.paramSet b = .ok params → a = b)) ∧
    (∀ old old' new new' (a b : TypeRequest) (type type' : TypeId), Runs (.new target) old →
      a.Countable → a.run old = .ok type old' → Runs old' new → b.Countable →
      b.run new = .ok type' new' →
      a.Gives old old' type ∧ b.Gives new new' type' ∧
        (type = type' ↔ a.wanted old = b.wanted new)) ∧
    (∀ old old' new new' (a b type type' : TypeId) (qual qual' : Qual PathId),
      Runs (.new target) old → Build.qualify a qual old = .ok type old' → Runs old' new →
      Build.qualify b qual' new = .ok type' new' →
      (type = type' ↔ old.unqualified a = new.unqualified b ∧ qual = qual')) := by
  refine ⟨?_, ?_, ?_⟩
  · intro store _
    exact ⟨fun _ _ _ => type_eq_of_node_eq, fun _ _ _ => set_eq_of_params_eq⟩
  · intro old old' new new' a b type type' hold ha hrun hruns hb hrun'
    exact eq_iff_of_run ha hb ⟨target, hold⟩ hrun hruns hrun'
  · intro old old' new new' a b type type' qual qual' hold hrun hruns hrun'
    exact eq_iff_of_qualify ⟨target, hold⟩ hrun hruns hrun'

/-- A class with and without qualifiers owns the same pointer to a member. -/
theorem Runs.canonical_memberPointer :
    ∃ (old new : Store) (plain const void type type' : TypeId), Runs (.new .wide) old ∧
      (∀ other, old.node? other = some (.plain (.classType .root true)) ↔ other = plain) ∧
      (∀ set, old.paramSet set = .ok .empty ↔ set = .empty) ∧
      Build.qualify plain .const old = .ok const old ∧ const ≠ plain ∧
      (TypeRequest.memberPointer plain void).run old = .ok type new ∧
      (TypeRequest.memberPointer const void).run new = .ok type' new ∧ type = type' ∧
      old.unqualified plain = old.unqualified const := by
  let first := (Store.new .wide).withNode (.plain (.classType .root true))
  let old := first.withNode ⟨.classType .root true, .const⟩
  let plain : TypeId := ⟨Builtin.all.length⟩
  let const : TypeId := ⟨Builtin.all.length + 1⟩
  let pointer : TypeId := ⟨Builtin.all.length + 2⟩
  let void : TypeId := .builtin .void
  let new := old.withNode (.plain (.memberPointer plain void))
  have hold : Runs (.new .wide) old :=
    .tail (.single ⟨.enter (.classType .root true), trivial, rfl⟩)
      ⟨.qualify plain .const, trivial, rfl⟩
  have hplain : old.node? plain = some (.plain (.classType .root true)) := by decide +kernel
  have hconst : old.node? const = some ⟨.classType .root true, .const⟩ := by decide +kernel
  have hpointer : new.node? pointer = some (.plain (.memberPointer plain void)) := by
    decide +kernel
  have hqual : Build.qualify plain .const old = .ok const old :=
    Build.run_qualify_of_node? hplain hconst
  have hqual' : Build.qualify const .const old = .ok const old :=
    Build.run_qualify_of_node? hconst hconst
  have hwant : (TypeRequest.memberPointer plain void).wanted old =
      .ok (.memberPointer plain void) := by decide +kernel
  have hwant' : (TypeRequest.memberPointer const void).wanted new =
      .ok (.memberPointer plain void) := by decide +kernel
  have hrun : (TypeRequest.memberPointer plain void).run old = .ok pointer new := by
    rw [TypeRequest.run_eq, hwant]
    rfl
  have hrun' : (TypeRequest.memberPointer const void).run new = .ok pointer new := by
    rw [TypeRequest.run_eq, hwant']
    exact Build.run_spelled_of_node? hpointer rfl
  obtain ⟨hone, htype, hvariant⟩ := Runs.canonical .wide
  have hfirst : ∀ other, old.node? other = some (.plain (.classType .root true)) ↔ other = plain :=
    fun other => ⟨fun h => (hone old hold).1 other plain _ h hplain, fun h => h ▸ hplain⟩
  have hempty : ∀ set, old.paramSet set = .ok .empty ↔ set = .empty :=
    fun set => ⟨fun h => (hone old hold).2 set .empty _ h rfl, fun h => h ▸ rfl⟩
  have heq : pointer = pointer :=
    (htype old new new new (.memberPointer plain void) (.memberPointer const void) _ _ hold trivial
      hrun .refl trivial hrun').2.2.mpr (hwant.trans hwant'.symm)
  have hsame := (hvariant old old old old plain const const const _ _ hold hqual .refl hqual').mp rfl
  exact ⟨old, new, plain, const, void, pointer, pointer, hold, hfirst, hempty, hqual,
    by decide, hrun, hrun', heq, hsame.1⟩

end Store

end TypeGraph
