import Mathlib.Data.List.Nodup
import TypeGraph.Proofs.Sizing

/-!
Drafts of a store. Main statements: the drafts that a store opens are drafts of its classes and
enums (`Store.WellFormed.openIn_openClass`, `Store.WellFormed.openIn_openEnum`), and go on to be
(`OpenBody.OpenIn.mono`).
-/

namespace TypeGraph

/-! ### Drafts stay open -/

theorem ClassDraft.OpenIn.mono {old new : Store} (h : old.Extends new) (hw : old.WellFormed)
    {draft : ClassDraft} (ho : draft.OpenIn old) : draft.OpenIn new :=
  ⟨h.classOwner hw ho.owner, ho.bases, ho.data, ho.functions⟩

theorem EnumDraft.OpenIn.mono {old new : Store} (h : old.Extends new) (hw : old.WellFormed)
    {draft : EnumDraft} (ho : draft.OpenIn old) : draft.OpenIn new :=
  ⟨h.enumOwner hw ho.owner, ho.nodup, ho.values⟩

theorem OpenBody.OpenIn.mono {old new : Store} (h : old.Extends new) (hw : old.WellFormed)
    {body : OpenBody} (ho : body.OpenIn old) : body.OpenIn new := by
  cases body with
  | ofClass draft => exact ClassDraft.OpenIn.mono h hw ho
  | ofEnum draft base => exact EnumDraft.OpenIn.mono h hw ho

/-! ### Drafts that were opened -/

namespace Store

variable {store : Store}

/-- A draft that a store opens is the empty one of a class without a body. -/
theorem openClass_eq_ok {type : TypeId} {draft : ClassDraft} :
    store.openClass type = .ok draft ↔ ∃ owner, store.classOwner type = .ok owner ∧
      store.classBody? owner = none ∧ draft = .new owner := by
  unfold openClass
  rw [bind_eq_ok]
  refine exists_congr fun owner => and_congr_right fun _ => ?_
  cases store.classBody? owner with
  | none =>
      constructor
      · intro h
        cases h
        exact ⟨rfl, rfl⟩
      · rintro ⟨_, rfl⟩
        rfl
  | some body =>
      constructor
      · intro h
        cases h
      · rintro ⟨⟨⟩, _⟩

theorem openEnum_eq_ok {type : TypeId} {draft : EnumDraft} :
    store.openEnum type = .ok draft ↔ ∃ owner, store.enumOwner type = .ok owner ∧
      store.enumBody? owner = none ∧ draft = .new owner := by
  unfold openEnum
  rw [bind_eq_ok]
  refine exists_congr fun owner => and_congr_right fun _ => ?_
  cases store.enumBody? owner with
  | none =>
      constructor
      · intro h
        cases h
        exact ⟨rfl, rfl⟩
      · rintro ⟨_, rfl⟩
        rfl
  | some body =>
      constructor
      · intro h
        cases h
      · rintro ⟨⟨⟩, _⟩

theorem WellFormed.openIn_openClass (hw : store.WellFormed) {type : TypeId} {draft : ClassDraft}
    (h : store.openClass type = .ok draft) : draft.OpenIn store := by
  obtain ⟨owner, ho, _, rfl⟩ := openClass_eq_ok.mp h
  obtain ⟨name, isStruct, hn⟩ := hw.classOwner ho
  have hempty : 0 < UInt64.size := by decide
  exact ⟨classOwner_of_node? hn, hempty, hempty, hempty⟩

theorem WellFormed.openIn_openEnum (hw : store.WellFormed) {type : TypeId} {draft : EnumDraft}
    (h : store.openEnum type = .ok draft) : draft.OpenIn store := by
  obtain ⟨owner, ho, _, rfl⟩ := openEnum_eq_ok.mp h
  obtain ⟨name, hn⟩ := hw.enumOwner ho
  exact ⟨enumOwner_of_node? hn, .nil, show 0 < UInt64.size by decide⟩

end Store

/-- An enumerator is added to a draft of a store only under a name that is new. -/
theorem EnumDraft.OpenIn.add {store : Store} {draft draft' : EnumDraft} {name : String}
    {value : Int128} (ho : draft.OpenIn store) (h : draft.add name value = .ok draft')
    (hl : draft'.values.length < UInt64.size) : draft'.OpenIn store := by
  obtain ⟨hnew, rfl⟩ := EnumDraft.add_eq_ok_iff.mp h
  refine ⟨ho.owner, ?_, hl⟩
  rw [List.map_append]
  rw [List.map_singleton, ← List.concat_eq_append]
  exact List.Nodup.concat (lookup_eq_none.mp hnew) ho.nodup

namespace Load

/-- Tables that are read to the end, and a completion that fails, as their answers say. -/
theorem exists_of_outcome {store : Store} {items : List Item} {bodies : List OpenBody}
    {failure : Failure} (hload : outcome tables ⟨store, items⟩ = .ok bodies)
    (hrest : (after tables ⟨store, items⟩).items = [])
    (hrun : outcome (Build.completeAll bodies) (after tables ⟨store, items⟩).store =
      .error failure) :
    ∃ mid left, tables ⟨store, items⟩ = .ok bodies ⟨mid, []⟩ ∧
      Build.completeAll bodies mid = .error failure left := by
  refine ⟨_, _, ?_, outcome_eq_error.mp hrun⟩
  rw [← hrest]
  exact outcome_eq_ok.mp hload

end Load

end TypeGraph
