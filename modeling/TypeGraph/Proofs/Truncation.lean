import TypeGraph.Proofs.Dependency
import TypeGraph.Proofs.Reopening

/-!
Records that were cut off. Main statement: of a record or of tables that were written, no part from
the front is read, and what is missing is all that is wrong with it (`Store.WellNamed.runs_out`).
-/

namespace TypeGraph

namespace Store

open Load

variable {src start : Store}

theorem Fitting.opens (hw : src.WellFormed) {entry : TypeId × Definition}
    (hf : src.Fitting entry) (hempty : start.definitions = []) :
    src.Opens start (fun _ _ _ => True) entry := by
  intro new y hg ha
  have hnone (owner : TypeId) : new.definition? owner = none := by
    rw [definition?, hg.definitions, hempty]
    rfl
  cases hf with
  | ofClass node =>
      obtain ⟨node', hn', hkind, _⟩ := ha.shape hw hg.wellFormed node
      have hclass : node'.shape.kind.isClass = true := by
        rw [hkind]
        cases ‹Bool› <;> rfl
      exact ⟨_, trivial, openClass_eq_ok.mpr
        ⟨_, classOwner_eq_ok.mpr ⟨node', hn', hclass, rfl⟩, by simp [classBody?, hnone], rfl⟩⟩
  | ofEnum node =>
      obtain ⟨node', hn', hkind, _⟩ := ha.shape hw hg.wellFormed node
      exact ⟨_, trivial, openEnum_eq_ok.mpr
        ⟨_, enumOwner_eq_ok.mpr ⟨node', hn', hkind, rfl⟩, by simp [enumBody?, hnone], rfl⟩⟩

theorem Reachable.length_definitions_le (h : src.Reachable) :
    src.definitions.length ≤ src.nodes.size :=
  length_le_of_nodup h.ordered.nodup fun entry hm => (h.fitting entry hm).holds

theorem Reachable.exists_load_type {dst : Store} (hr : src.Reachable) (hs : src.WellNamed)
    (hdst : dst.Reachable) {type : TypeId} {written : List Item}
    (hsave : src.save type = ⟨written, none⟩) :
    ∃ type' new, Load.type ⟨dst, written⟩ = .ok type' ⟨new, []⟩ := by
  obtain ⟨type', new, hreads, _⟩ :=
    takes_type hr hs type (by rw [hsave]) dst hdst.wellFormed.grows
  refine ⟨type', new, ?_⟩
  simpa only [hsave, List.append_nil] using hreads []

theorem Built.exists_load_tables (hb : src.Built) (hs : src.WellNamed)
    (hcount : src.nodes.size < UInt32.size) (target : Target) {written : List Item}
    (hsave : src.saveTables = ⟨written, none⟩) :
    ∃ bodies new, Load.tables ⟨Store.new target, written⟩ = .ok bodies ⟨new, []⟩ := by
  have hr := hb.reachable
  have hany : src.Relates fun _ _ _ => True := ⟨fun _ => trivial, fun _ _ _ => trivial⟩
  have hopens (entry : TypeId × Definition) (hm : entry ∈ src.definitions) :
      src.Opens (Store.new target) (fun _ _ _ => True) entry :=
    (hr.fitting entry hm).opens hr.wellFormed rfl
  obtain ⟨bodies, new, hreads, _⟩ := takes_tables hr hs hany hcount hr.length_definitions_le
    hb.drafted hopens (by rw [hsave]) _ (wellFormed_new target).grows
  refine ⟨bodies, new, ?_⟩
  simpa only [hsave, List.append_nil] using hreads []

/-- No record and no tables are read if something at their end is missing: reading runs out of
items, wherever they were cut off. -/
theorem WellNamed.runs_out (hs : src.WellNamed) :
    (src.Reachable → ∀ type written, src.save type = ⟨written, none⟩ → ∀ dst : Store,
      dst.Reachable → ∀ front, front <+: written → front ≠ written →
        RunsOut (Load.type ⟨dst, front⟩)) ∧
    (src.Built → src.nodes.size < UInt32.size → ∀ written, src.saveTables = ⟨written, none⟩ →
      ∀ target front, front <+: written → front ≠ written →
        RunsOut (Load.tables ⟨Store.new target, front⟩)) := by
  constructor
  · intro hr type written hsave dst hdst front hfront hne
    obtain ⟨type', new, hall⟩ := hr.exists_load_type hs hdst hsave
    exact anticipates_type.runsOut hall hfront hne
  · intro hb hcount written hsave target front hfront hne
    obtain ⟨bodies, new, hall⟩ := hb.exists_load_tables hs hcount target hsave
    exact anticipates_tables.runsOut hall hfront hne

theorem Built.afterAll (h : src.Built) {requests : List Request}
    (hr : ∀ request ∈ requests, request.Countable ∧ request.Filled) :
    (src.afterAll requests).Built := by
  induction requests generalizing src with
  | nil => exact h
  | cons request requests ih =>
      obtain ⟨hcount, hfilled⟩ := hr request List.mem_cons_self
      exact ih (h.effect hcount hfilled) fun other hm => hr other (List.mem_cons_of_mem request hm)

/-- An enum is completed under a qualifier. Its tables lack the value in the end, and its record the
last qualifier, which is read where a struct has its number. -/
theorem WellNamed.runs_out_enum :
    let type : TypeId := ⟨Builtin.all.length + 1⟩
    let draft : EnumDraft := (EnumDraft.new type).writeAll [.flavor .scoped, .value "a" .zero]
    let src : Store := (Store.new .wide).afterAll [.path ["e"], .enter (.enumType ⟨1⟩),
      .qualify ⟨Builtin.all.length⟩ Qual.const, .completeEnum draft (.builtin (.bool .hard))]
    let dst : Store := (Store.new .narrow).afterAll [.path ["f"], .enter (.classType ⟨1⟩ true)]
    ∃ record tables, src.WellNamed ∧ src.Built ∧ src.nodes.size < UInt32.size ∧
      dst.Reachable ∧ src.save type = ⟨record, none⟩ ∧ src.saveTables = ⟨tables, none⟩ ∧
      RunsOut (Load.type ⟨dst, record.dropLast⟩) ∧
      RunsOut (Load.tables ⟨Store.new .narrow, tables.dropLast⟩) := by
  intro type draft src dst
  have hs : src.WellNamed := wellNamed_of_nodes (by decide +kernel)
  have hfilled : draft.Filled := EnumDraft.filled_writeAll type (by decide)
  have hb : src.Built := (built_new .wide).afterAll (by
    simp [Request.Countable, TypeRequest.Countable, Request.Filled, hfilled])
  have hcount : src.nodes.size < UInt32.size := by decide +kernel
  have hdst : dst.Reachable := (reachable_new .narrow).afterAll (by
    simp [Request.Countable, TypeRequest.Countable])
  have hstop : (src.save type).stop = none ∧ src.saveTables.stop = none := by decide +kernel
  have hne : (src.save type).items ≠ [] ∧ src.saveTables.items ≠ [] := by decide +kernel
  have hrecord : src.save type = ⟨(src.save type).items, none⟩ := by rw [← hstop.1]
  have htables : src.saveTables = ⟨src.saveTables.items, none⟩ := by rw [← hstop.2]
  have hcut {items : List Item} (h : items ≠ []) : items.dropLast ≠ items := by
    intro heq
    have hlength := congrArg List.length heq
    rw [List.length_dropLast] at hlength
    have hpos := List.length_pos_iff.mpr h
    omega
  obtain ⟨htype, hall⟩ := hs.runs_out
  exact ⟨_, _, hs, hb, hcount, hdst, hrecord, htables,
    htype hb.reachable type _ hrecord dst hdst _ (List.dropLast_prefix _) (hcut hne.1),
    hall hb hcount _ htables .narrow _ (List.dropLast_prefix _) (hcut hne.2)⟩

end Store

end TypeGraph
