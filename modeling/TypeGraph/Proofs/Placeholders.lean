import TypeGraph.Proofs.Descent
import TypeGraph.Proofs.Permanence
import TypeGraph.Proofs.Porting

/-!
Types that nothing in a placeholder space is part of. Main statements: such a type stays one
(`Store.FreeOfPlaceholders.mono`), and if the paths in the store are known, these are the types that
have a signature and the types that have a record (`Store.Reachable.written_iff_free`).
-/

namespace TypeGraph

theorem TreeShape.mem_parts {shape : TreeShape} {part : Tree} :
    part ∈ parts shape ↔ shape.base? = some part ∨ shape.owner? = some part ∨
      ∃ params, shape.params? = some params ∧ part ∈ params.types := by
  have hsymm : ∀ {x : Tree}, part = x ↔ x = part := eq_comm
  cases shape <;>
    simp [parts, Shape.base?, Shape.owner?, Shape.params?, hsymm, or_left_comm, or_comm]

namespace Store

variable {store old new : Store} {type part : TypeId}

/-! ### The types in a type -/

theorem Mentions.of_extends (hext : old.Extends new) (hw : old.WellFormed)
    (h : new.Mentions type part) (hh : old.Holds type) : old.Mentions type part := by
  cases h with
  | base hn hb => exact .base (hh.node?_of_extends hext hn) hb
  | owner hn ho => exact .owner (hh.node?_of_extends hext hn) ho
  | listed hn hs hp' hm =>
      have hold := hh.node?_of_extends hext hn
      obtain ⟨params, hp, _⟩ := (hw.fits hold).params _ hs
      cases (hext.paramSet hp).symm.trans hp'
      exact .listed hold hs hp hm

theorem WellFormed.exists_mentions (hw : store.WellFormed) {tree subtree : Tree}
    (ht : store.tree type = .ok tree) (hm : subtree ∈ tree.parts) :
    ∃ part, store.Mentions type part ∧ store.tree part = .ok subtree := by
  obtain ⟨wanted, own, ⟨shape, hn, hspell⟩, hu, _⟩ := hw.tree_eq_ok.mp ht
  have hrel := spelling_eq_ok.mp hspell
  rcases TreeShape.mem_parts.mp hm with hb | ho | ⟨trees, hp, hmem⟩
  · obtain ⟨part, hwanted, htree⟩ := hu.flip.base? hb
    obtain ⟨_, hbase, rfl⟩ := hrel.flip.base? hwanted
    exact ⟨_, .base hn hbase, htree⟩
  · obtain ⟨part, hwanted, htree⟩ := hu.flip.owner? ho
    obtain ⟨_, howner, rfl⟩ := hrel.flip.owner? hwanted
    exact ⟨_, .owner hn howner, htree⟩
  · obtain ⟨params, hwanted, htrees, _⟩ := hu.flip.params? hp
    obtain ⟨set, hset, hparams, _⟩ := hrel.flip.params? hwanted
    obtain ⟨part, hpart, htree⟩ := forall₂_exists_right htrees.types.flip hmem
    exact ⟨part, .listed hn hset hparams hpart, htree⟩

theorem WellFormed.mem_parts_of_mentions (hw : store.WellFormed) {tree : Tree}
    (ht : store.tree type = .ok tree) (hm : store.Mentions type part) :
    ∃ subtree ∈ tree.parts, store.tree part = .ok subtree := by
  obtain ⟨wanted, own, ⟨shape, hn, hspell⟩, hu, _⟩ := hw.tree_eq_ok.mp ht
  have hrel := spelling_eq_ok.mp hspell
  cases hm with
  | base hn' hb =>
      cases hn.symm.trans hn'
      obtain ⟨_, hwanted, rfl⟩ := hrel.base? hb
      obtain ⟨subtree, hsub, htree⟩ := hu.base? hwanted
      exact ⟨subtree, TreeShape.mem_parts.mpr (.inl hsub), htree⟩
  | owner hn' ho =>
      cases hn.symm.trans hn'
      obtain ⟨_, hwanted, rfl⟩ := hrel.owner? ho
      obtain ⟨subtree, hsub, htree⟩ := hu.owner? hwanted
      exact ⟨subtree, TreeShape.mem_parts.mpr (.inr (.inl hsub)), htree⟩
  | listed hn' hs hp hmem =>
      cases hn.symm.trans hn'
      obtain ⟨_, hwanted, hparams, _⟩ := hrel.params? hs
      cases hp.symm.trans hparams
      obtain ⟨trees, hlist, htrees, _⟩ := hu.params? hwanted
      obtain ⟨subtree, hsub, htree⟩ := forall₂_exists_right htrees.types hmem
      exact ⟨subtree, TreeShape.mem_parts.mpr (.inr (.inr ⟨trees, hlist, hsub⟩)), htree⟩

theorem WellFormed.exists_chain (hw : store.WellFormed) {tree inner : Tree}
    (ht : store.tree type = .ok tree) (hc : tree.Contains inner) :
    ∃ part, Relation.ReflTransGen store.Mentions type part ∧ store.tree part = .ok inner := by
  induction hc with
  | refl => exact ⟨type, .refl, ht⟩
  | tail _ hm ih =>
      obtain ⟨part, hchain, hpart⟩ := ih
      obtain ⟨next, hmentions, hnext⟩ := hw.exists_mentions hpart hm
      exact ⟨next, .tail hchain hmentions, hnext⟩

theorem WellFormed.contains_of_chain (hw : store.WellFormed) {tree : Tree}
    (ht : store.tree type = .ok tree) (hc : Relation.ReflTransGen store.Mentions type part) :
    ∃ inner, tree.Contains inner ∧ store.tree part = .ok inner := by
  induction hc with
  | refl => exact ⟨tree, .refl, ht⟩
  | tail _ hm ih =>
      obtain ⟨inner, hcontains, hinner⟩ := ih
      obtain ⟨next, hmem, hnext⟩ := hw.mem_parts_of_mentions hinner hm
      exact ⟨next, .tail hcontains hmem, hnext⟩

theorem WellFormed.storage_of_tree (hw : store.WellFormed) {tree : Tree}
    (ht : store.tree type = .ok tree) :
    ∃ node, store.node? type = some node ∧
      tree.qual.space.storage = node.qual.space.storage := by
  obtain ⟨_, own, ⟨_, hn, _⟩, _, hq⟩ := hw.tree_eq_ok.mp ht
  exact ⟨_, hn, by rw [← hq]; rfl⟩

/-! ### Placeholders -/

/-- Neither the type nor any type that it leads to by its shape is in a placeholder space. -/
def FreeOfPlaceholders (store : Store) (type : TypeId) : Prop :=
  ∀ part node, Relation.ReflTransGen store.Mentions type part → store.node? part = some node →
    node.qual.space.storage.isPlaceholder = false

namespace FreeOfPlaceholders

theorem plain {shape : Shape TypeId ParamSetId PathId} (hn : store.node? type = some (.plain shape))
    (hparts : ∀ part, store.Mentions type part → store.FreeOfPlaceholders part) :
    store.FreeOfPlaceholders type := by
  intro inner node hinner hnode
  rcases hinner.cases_head with rfl | ⟨part, hm, hinner⟩
  · cases hn.symm.trans hnode
    rfl
  · exact hparts part hm inner node hinner hnode

theorem leaf {shape : Shape TypeId ParamSetId PathId} (hn : store.node? type = some (.plain shape))
    (hb : shape.base? = none) (ho : shape.owner? = none) (hp : shape.params? = none) :
    store.FreeOfPlaceholders type := by
  refine .plain hn fun part hm => ?_
  cases hm with
  | base hn' h | owner hn' h | listed hn' h =>
      cases hn.symm.trans hn'
      simp [Node.plain, hb, ho, hp] at h

/-- A type stays free of placeholders, as it is never made of anything else. -/
theorem mono (hext : old.Extends new) (hw : old.WellFormed) (h : old.FreeOfPlaceholders type)
    (hh : old.Holds type) : new.FreeOfPlaceholders type := by
  intro part node hinner hnode
  -- Types of the old store name only types of that store, so the whole chain was there.
  have hold : Relation.ReflTransGen old.Mentions type part ∧ old.Holds part := by
    clear hnode
    induction hinner with
    | refl => exact ⟨.refl, hh⟩
    | tail _ hm ih =>
        have hm := hm.of_extends hext hw ih.2
        exact ⟨.tail ih.1 hm, hw.holds_of_mentions ih.2 hm⟩
  exact h part node hold.1 (hold.2.node?_of_extends hext hnode)

end FreeOfPlaceholders

/-- A type is free of placeholders exactly if no placeholder is in it as it is written out. -/
theorem WellFormed.free_iff (hw : store.WellFormed) {tree : Tree}
    (ht : store.tree type = .ok tree) : store.FreeOfPlaceholders type ↔ tree.Free := by
  constructor
  · intro hfree inner hc
    obtain ⟨part, hchain, hpart⟩ := hw.exists_chain ht hc
    obtain ⟨node, hn, hstorage⟩ := hw.storage_of_tree hpart
    exact hstorage ▸ hfree part node hchain hn
  · intro hfree part node hchain hn
    obtain ⟨inner, hc, hinner⟩ := hw.contains_of_chain ht hchain
    obtain ⟨node', hn', hstorage⟩ := hw.storage_of_tree hinner
    cases hn.symm.trans hn'
    exact hstorage ▸ hfree inner hc

theorem Interned.exists_signature (hi : store.Interned) (hw : store.WellFormed)
    (h : store.Holds type) (hfree : store.FreeOfPlaceholders type) :
    ∃ text, store.signature type = .ok text := by
  obtain ⟨tree, ht⟩ := hw.exists_tree h
  have hanswer := (hi.named hw tree ht).failsBy_ofTree
  obtain ⟨text, hs⟩ := hanswer.exists_ok ((hw.free_iff ht).mp hfree).not_refuses
  exact ⟨text, bind_eq_ok.mpr ⟨tree, ht, hs⟩⟩

/-! ### What is refused -/

/-- A refusal to write out a placeholder space that a type is in which this one leads to. -/
def Refuses (store : Store) (type : TypeId) (failure : Failure) : Prop :=
  ∃ part node, Relation.ReflTransGen store.Mentions type part ∧ store.node? part = some node ∧
    node.qual.space.storage.isPlaceholder = true ∧
    failure = .type (.internalSpace node.qual.space.storage)

theorem WellFormed.refuses_of_tree (hw : store.WellFormed) {tree : Tree}
    (ht : store.tree type = .ok tree) {failure : Failure} (h : tree.Refuses failure) :
    store.Refuses type failure := by
  obtain ⟨inner, hc, hplace, rfl⟩ := h
  obtain ⟨part, hchain, hpart⟩ := hw.exists_chain ht hc
  obtain ⟨node, hn, hstorage⟩ := hw.storage_of_tree hpart
  exact ⟨part, node, hchain, hn, hstorage ▸ hplace, by rw [hstorage]⟩

/-- Signatures and records are refused for the same types: those that lead to a type in a
placeholder space. Each refusal is for such a space. -/
theorem Reachable.written_iff_free (hr : store.Reachable) (hi : store.Interned)
    (h : store.Holds type) :
    ((∃ text, store.signature type = .ok text) ↔ store.FreeOfPlaceholders type) ∧
      ((store.save type).stop = none ↔ store.FreeOfPlaceholders type) ∧
      (∀ failure, store.signature type = .error failure → store.Refuses type failure) ∧
      ∀ failure, (store.save type).stop = some failure → store.Refuses type failure := by
  have hw := hr.wellFormed
  obtain ⟨tree, ht⟩ := hw.exists_tree h
  have hnamed := hi.named hw tree ht
  have hsignature : store.signature type = Signature.ofTree tree := by
    rw [Store.signature, ht]
    rfl
  have hsave : store.save type = tree.record := by rw [Store.save, ht]
  have howner : ∀ inner, tree.Contains inner → ∀ owner, inner.shape.owner? = some owner →
      ∃ name isStruct, owner = ⟨.classType name isStruct, Qual.none⟩ := by
    intro inner hc owner ho
    obtain ⟨part, _, hpart⟩ := hw.exists_chain ht hc
    exact hw.tree_owner hpart ho
  rw [hsignature, hsave, hw.free_iff ht]
  refine ⟨⟨Tree.free_of_signature howner, ?_⟩, ⟨Tree.free_of_record, ?_⟩, ?_, ?_⟩
  · exact fun hfree => hnamed.failsBy_ofTree.exists_ok hfree.not_refuses
  · exact fun hfree => hnamed.stopsBy_record.none hfree.not_refuses
  · exact fun failure hfail => hw.refuses_of_tree ht (hnamed.failsBy_ofTree failure hfail)
  · exact fun failure hstop => hw.refuses_of_tree ht (hnamed.stopsBy_record failure hstop)

/-- A pointer to a function with a parameter in the space of automatic variables, and a pointer to
an integer. -/
theorem Reachable.written_iff_free_parameter :
    let int : TypeId := .builtin (.int ⟨.int, true⟩)
    let auto : TypeId := ⟨Builtin.all.length⟩
    let callback : TypeId := ⟨Builtin.all.length + 2⟩
    let pointer : TypeId := ⟨Builtin.all.length + 3⟩
    let automatic : Qual PathId := ⟨.ofStorage .aut, false, false, false, false⟩
    let store := (Store.new .wide).afterAll
      [.qualify int automatic, .params [int, auto] false,
        .enter (.function int ⟨1⟩ .langC), .enter (.pointer ⟨Builtin.all.length + 1⟩),
        .enter (.pointer int)]
    store.Reachable ∧ store.Interned ∧ store.Holds callback ∧ store.Holds pointer ∧
      store.signature callback = .error (.type (.internalSpace .aut)) ∧
      ¬store.FreeOfPlaceholders callback ∧ (store.save callback).stop ≠ none ∧
      store.Refuses callback (.type (.internalSpace .aut)) ∧
      store.signature pointer = .ok "P(B<int>)" ∧ store.FreeOfPlaceholders pointer ∧
      (store.save pointer).stop = none := by
  intro int auto callback pointer automatic store
  have hr : store.Reachable := (reachable_new .wide).afterAll (by
    simp [Request.Countable, TypeRequest.Countable, UInt64.size])
  have hi : store.Interned := interned_of_tables (by decide +kernel) (by decide +kernel)
  have hcallback : store.Holds callback := node?_of_lt (by decide +kernel)
  have hpointer : store.Holds pointer := node?_of_lt (by decide +kernel)
  have hfail : store.signature callback = .error (.type (.internalSpace .aut)) := by
    decide +kernel
  have hok : store.signature pointer = .ok "P(B<int>)" := by decide +kernel
  obtain ⟨hsigned, hsaved, hrefuses, _⟩ := hr.written_iff_free hi hcallback
  obtain ⟨hsigned', hsaved', _⟩ := hr.written_iff_free hi hpointer
  have hfree : ¬store.FreeOfPlaceholders callback := by
    intro h
    obtain ⟨text, hs⟩ := hsigned.mpr h
    cases hfail.symm.trans hs
  have hfree' := hsigned'.mp ⟨_, hok⟩
  exact ⟨hr, hi, hcallback, hpointer, hfail, hfree, fun h => hfree (hsaved.mp h),
    hrefuses _ hfail, hok, hfree', hsaved'.mpr hfree'⟩

end Store

end TypeGraph
