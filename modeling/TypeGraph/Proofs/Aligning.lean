import TypeGraph.Proofs.Enclosing

/-!
Sizes are whole multiples of alignments. Main statement: in a store that has been for one machine
only, an alignment divides the word of the machine and the size that it belongs to, so that all
elements of an array are aligned if the first one is (`Store.ReachableOn.size_multiple`).
-/

namespace TypeGraph

/-! ### Builtin types -/

theorem Builtin.dvd_of_align? {builtin : Builtin} {target : Target} {align : Count}
    (ha : builtin.align? target = some align) :
    align.toNat ∣ target.wordBytes.toNat ∧
      ∀ size, builtin.size? target = some size → align.toNat ∣ size.toNat := by
  -- `Option.all` tries the entries of the table only, where `∀` would try every count.
  have hall : ∀ target ∈ [Target.narrow, .wide], ∀ builtin ∈ all,
      (builtin.align? target).all fun align =>
        align.toNat ∣ target.wordBytes.toNat ∧
          (builtin.size? target).all fun size => align.toNat ∣ size.toNat := by
    decide +kernel
  have h := hall target (by cases target <;> decide) builtin (mem_all builtin)
  simpa only [ha, Option.all_some, decide_eq_true_eq, Option.all_eq_true] using h

theorem scalarAlign_pointer {store : Store} {type : TypeId} {size : Count}
    (h : store.pointerSize type = .ok size) :
    store.target.scalarAlign size = store.target.wordBytes := by
  obtain ⟨qual, _, h⟩ := bind_eq_ok.mp h
  cases h
  split <;> cases store.target <;> decide

namespace Store

variable {store old new : Store} {machine : Target} {type : TypeId}

/-! ### Finished classes take whole words -/

/-- A store lays types out for a machine, its finished classes take whole words of it, and their
alignments divide a word. -/
structure InWords (machine : Target) (store : Store) : Prop where
  target : store.target = machine
  aligned : ∀ type body, (type, .ofClass body) ∈ store.definitions →
    body.align.toNat ∣ machine.wordBytes.toNat
  sized : ∀ type body, (type, .ofClass body) ∈ store.definitions →
    machine.wordBytes.toNat ∣ body.size.toNat

theorem InWords.align_dvd (h : store.InWords machine) {align : Count}
    (ha : store.align type = .ok align) : align.toNat ∣ machine.wordBytes.toNat := by
  induction hi : type.index using Nat.strongRecOn generalizing type align with
  | _ i ih =>
      subst hi
      have hpart {part : Below type} {align : Count} (ha : store.align part.type = .ok align) :
          align.toNat ∣ machine.wordBytes.toNat := ih part.type.index part.older ha rfl
      have ht := h.target
      rw [Store.align] at ha
      obtain ⟨seen, hv, ha⟩ := bind_eq_ok.mp ha
      cases seen with
      | builtin builtin => exact ht ▸ (Builtin.dvd_of_align? (orFail_eq_ok.mp ha)).1
      | array base extent =>
          cases he : extent.isComplete with
          | true =>
              simp only [he, if_true] at ha
              exact hpart ha
          | false => simp [he] at ha
      | bitfield base bits offset => exact hpart ha
      | pointer base | leftRef base | rightRef base =>
          obtain ⟨size, hs, ha⟩ := bind_eq_ok.mp ha
          rw [scalarAlign_pointer hs] at ha
          cases ha
          rw [ht]
      | memberPointer owner base =>
          cases ha
          rw [ht]
          cases machine <;> decide
      | function ret params conv | memberFunction owner ret params conv => cases ha
      | tuple parts =>
          have hstep (most : Count) (part : Below type) (next : Count)
              (h : (do return max most (← (store.align part.type).mapError (·.blame type))) =
                Except.ok next) :
              ∃ align, store.align part.type = .ok align ∧ next = max most align := by
            obtain ⟨align, ha, h⟩ := bind_eq_ok.mp h
            cases h
            exact ⟨align, mapError_eq_ok.mp ha, rfl⟩
          rcases attained_of_foldlM hstep ha with rfl | ⟨part, _, ha⟩
          · exact one_dvd _
          · exact hpart ha
      | classType name isStruct =>
          obtain ⟨body, hb, ha⟩ := bind_eq_ok.mp ha
          cases ha
          obtain ⟨owner, _, hd⟩ := classBody_eq_ok.mp hb
          exact h.aligned owner body (mem_of_definition? hd)
      | enumType name =>
          obtain ⟨builtin, _, ha⟩ := bind_eq_ok.mp ha
          exact ht ▸ (Builtin.dvd_of_align? (orFail_eq_ok.mp ha)).1

/-! ### Stores that have been for one machine only -/

/-- A store that requests led to from a new one, while all types were laid out for one machine. -/
def ReachableOn (machine : Target) (store : Store) : Prop :=
  Relation.ReflTransGen (fun old new => old.Step new ∧ new.target = machine) (Store.new machine)
    store

theorem ReachableOn.reachable (h : store.ReachableOn machine) : store.Reachable :=
  ⟨machine, Relation.ReflTransGen.mono (fun _ _ hstep => hstep.1) _ _ h⟩

theorem ReachableOn.afterAll (h : store.ReachableOn machine) {requests : List Request}
    (hr : ∀ request ∈ requests, request.Countable)
    (ht : ∀ front ∈ requests.inits, (store.afterAll front).target = machine) :
    (store.afterAll requests).ReachableOn machine := by
  induction requests generalizing store with
  | nil => exact h
  | cons request requests ih =>
      rw [List.forall_mem_cons] at hr
      have hstep : (request.effect store).ReachableOn machine :=
        h.tail ⟨step_effect hr.1 store, ht [request] (by simp)⟩
      exact ih hstep hr.2 fun front hm => ht (request :: front) (by simpa using hm)

/-- A class that is completed takes whole words, for its parts are aligned within a word. -/
theorem inWords_completeBody (body : OpenBody) :
    Keeps (StaysSo (InWords machine)) (Build.completeBody body) := by
  intro store
  have hcompletion := Build.completion_completeBody body store
  rw [after]
  generalize Build.completeBody body store = result at hcompletion
  cases hcompletion with
  | refused failure => exact Std.Refl.refl store
  | stray fault foreign hext hc =>
      exact fun hw hi => ⟨(onward_withNames hext hc hw).2, hi.target, hi.aligned, hi.sized⟩
  | @fixed names definition accepts hext hc =>
      intro hw hi
      have hnew {type : TypeId} {found : ClassBody}
          (hm : (type, .ofClass found) ∈ store.definitions ++ [(body.type, definition)]) :
          (type, .ofClass found) ∈ store.definitions ∨
            found.align.toNat ∣ machine.wordBytes.toNat ∧
              machine.wordBytes.toNat ∣ found.size.toNat := by
        refine (List.mem_append.mp hm).imp_right fun hm => ?_
        cases List.mem_singleton.mp hm
        cases accepts with
        | ofClass _ _ _ _ hlayout =>
            obtain ⟨hleast, _, halign⟩ := isLeast_of_classLayout hlayout
            refine ⟨?_, hi.target ▸ hleast.1.words⟩
            rcases halign.1 with hone | ⟨part, _, ha⟩
            · exact hone ▸ one_dvd _
            · exact hi.align_dvd ha
      refine ⟨(onward_defining hext hc body.type definition hw).2, hi.target, ?_, ?_⟩
      · exact fun type found hm => (hnew hm).elim (hi.aligned type found) And.left
      · exact fun type found hm => (hnew hm).elim (hi.sized type found) And.right

theorem Step.inWords (hstep : old.Step new) (ht : new.target = machine) :
    StaysSo (InWords machine) old new := by
  obtain ⟨request, hr, rfl⟩ := hstep
  have honward := request.onward_effect hr old
  cases request with
  | completeClass draft => exact inWords_completeBody (.ofClass draft) old
  | completeEnum draft base => exact inWords_completeBody (.ofEnum draft base) old
  | completeAll bodies =>
      exact Build.keeps_each (fun body _ => inWords_completeBody body) old
  | retarget target => exact fun hw hi => ⟨(honward hw).2, ht, hi.aligned, hi.sized⟩
  | _ =>
      intro hw hi
      have hd := (Request.safe_effect hr trivial old hw).definitions
      refine ⟨(honward hw).2, ht, fun type body hm => ?_, fun type body hm => ?_⟩
      · exact hi.aligned type body (hd ▸ hm)
      · exact hi.sized type body (hd ▸ hm)

theorem ReachableOn.inWords (h : store.ReachableOn machine) : store.InWords machine := by
  have hstays : StaysSo (InWords machine) (Store.new machine) store := by
    induction h with
    | refl => exact Std.Refl.refl _
    | tail _ hstep ih => exact Trans.trans ih (hstep.1.inWords hstep.2)
  exact (hstays (wellFormed_new machine) ⟨rfl, nofun, nofun⟩).2

/-! ### Sizes are multiples of alignments -/

/-- No bit-field in a value of the type lies in units of no size. -/
def SizedUnits (store : Store) (type : TypeId) : Prop :=
  ∀ field base bits offset own, Relation.ReflTransGen store.Embeds type field →
    store.node? field = some ⟨.bitfield base bits offset, own⟩ → store.size base ≠ .ok 0

theorem dvd_pointerBytes (target : Target) (storage : Storage) :
    target.wordBytes.toNat ∣ pointerBytes target storage :=
  Nat.dvd_mul_left _ _

theorem InWords.dvd_of_measures (h : store.InWords machine) (hw : store.WellFormed)
    (hi : store.IntegralEnums) {align : Count} {size : Nat} (ha : store.align type = .ok align)
    (hs : store.Measures type size)
    (hunits : ∀ field base bits offset own, Relation.ReflTransGen store.Embeds type field →
      store.node? field = some ⟨.bitfield base bits offset, own⟩ → ¬ store.Measures base 0) :
    align.toNat ∣ size := by
  induction hindex : type.index using Nat.strongRecOn generalizing type align size with
  | _ i ih =>
      subst hindex
      have hpart {part : TypeId} {size : Nat} (he : store.Embeds type part)
          (ha : store.align part = .ok align) (hs : store.Measures part size) :
          align.toNat ∣ size :=
        ih part.index (hw.lt_of_mentions he.mentions) ha hs
          (fun field base bits offset own hreach =>
            hunits field base bits offset own (.head he hreach)) rfl
      have hword := h.align_dvd ha
      have ht := h.target
      cases hs with
      | builtin hn table =>
          rw [Store.align, view_builtin hw hn, ok_bind] at ha
          exact (Builtin.dvd_of_align? (orFail_eq_ok.mp ha)).2 _ table
      | array hn inside =>
          obtain ⟨below, rfl, hv⟩ := view_array hw hn
          rw [Store.align, hv, ok_bind] at ha
          exact Nat.dvd_mul_left_of_dvd (hpart (.element hn) ha inside) _
      | bitfield hn inside =>
          obtain ⟨below, rfl, hv⟩ := view_bitfield hw hn
          rw [Store.align, hv, ok_bind] at ha
          rw [fieldBytes]
          split
          · next hzero => exact absurd (hzero ▸ inside) (hunits _ _ _ _ _ .refl hn)
          · exact (hpart (.unit hn) ha inside).trans (dvd_roundUp _ _)
      | pointer _ _ | leftRef _ _ | rightRef _ _ =>
          exact hword.trans (ht ▸ dvd_pointerBytes _ _)
      | memberPointer _ => exact ht ▸ hword
      | tuple _ _ _ => exact hword.trans (ht ▸ dvd_roundUp _ _)
      | classType _ hb =>
          obtain ⟨owner, _, hd⟩ := classBody_eq_ok.mp hb
          exact hword.trans (h.sized owner _ (mem_of_definition? hd))
      | enumType hn hb stored =>
          obtain ⟨builtin, own, hbase, _⟩ := hi.base hb
          rw [(hi.as_base hw hb).2.1, Store.align, view_builtin hw hbase, ok_bind] at ha
          cases stored with
          | builtin hn' table =>
              cases hbase.symm.trans hn'
              exact (Builtin.dvd_of_align? (orFail_eq_ok.mp ha)).2 _ table
          | _ hn' => cases hbase.symm.trans hn'

theorem SizedUnits.not_measures (h : store.SizedUnits type) (hw : store.WellFormed)
    (hi : store.IntegralEnums) {size : Count} (hs : store.size type = .ok size)
    {field base : TypeId} {bits offset : UInt32} {own : Qual PathId}
    (hreach : Relation.ReflTransGen store.Embeds type field)
    (hn : store.node? field = some ⟨.bitfield base bits offset, own⟩) :
    ¬ store.Measures base 0 := by
  intro hempty
  obtain ⟨unit, hunit⟩ := sized_of_embeds hw (hreach.tail (.unit hn)) hs
  have hzero := (measures_of_size hw hunit).unique hw hi hempty
  rw [← UInt64.toNat_zero, UInt64.toNat_inj] at hzero
  exact h field base bits offset own hreach hn (hzero ▸ hunit)

/-- While types are laid out for one machine only, an alignment is positive and divides both the
word of the machine and the size, unless bits lie in units of no size; so all elements of an array
are aligned if the first one is. -/
theorem ReachableOn.size_multiple (h : store.ReachableOn machine) (hunits : store.SizedUnits type)
    {align size : Count} (ha : store.align type = .ok align) (hs : store.size type = .ok size) :
    1 ≤ align.toNat ∧ align.toNat ∣ machine.wordBytes.toNat ∧ align.toNat ∣ size.toNat ∧
      ∀ start index : Nat, align.toNat ∣ start → align.toNat ∣ start + index * size.toNat := by
  have hw := h.reachable.wellFormed
  have hi := h.reachable.integralEnums
  have hword := h.inWords.align_dvd ha
  have hsize := h.inWords.dvd_of_measures hw hi ha (measures_of_size hw hs)
    fun _ _ _ _ _ hreach hn => hunits.not_measures hw hi hs hreach hn
  refine ⟨Nat.pos_of_dvd_of_pos hword machine.wordBytes_pos, hword, hsize, ?_⟩
  exact fun start index hstart => Nat.dvd_add hstart (Nat.dvd_mul_left_of_dvd hsize index)

/-- Three structs in a row, each an integer and a boolean after it, which take eight bytes and not
the five that they need. -/
theorem ReachableOn.size_multiple_row :
    let struct : TypeId := ⟨Builtin.all.length⟩
    let row : TypeId := ⟨Builtin.all.length + 1⟩
    let draft := ((ClassDraft.new struct).addData
      ⟨"number", .builtin (.int ⟨.int, true⟩), 0, .isPublic, false⟩).addData
        ⟨"flag", .builtin (.bool .hard), 4, .isPublic, false⟩
    let store := (Store.new .wide).afterAll [.path ["s"], .enter (.classType ⟨1⟩ true),
      .completeClass draft, .enter (.array struct (.fixed 3))]
    store.ReachableOn .wide ∧ store.SizedUnits row ∧ store.align row = .ok 4 ∧
      store.size row = .ok 24 ∧ store.size struct = .ok 8 ∧
      ∀ start index : Nat, 4 ∣ start → 4 ∣ start + index * 24 := by
  intro struct row draft store
  have hr : store.ReachableOn .wide := ReachableOn.afterAll .refl
    (by simp [Request.Countable, TypeRequest.Countable]) (by decide +kernel)
  have hstruct : store.node? struct = some (.plain (.classType ⟨1⟩ true)) := by decide +kernel
  have hrow : store.node? row = some (.plain (.array struct (.fixed 3))) := by decide +kernel
  have hunits : store.SizedUnits row := by
    intro field base bits offset own hreach hn
    rcases hreach.cases_head with rfl | ⟨part, he, hreach⟩
    · cases hrow.symm.trans hn
    · obtain rfl : struct = part := by
        cases he with
        | element hn' => cases hrow.symm.trans hn'; rfl
        | unit hn' | component hn' => cases hrow.symm.trans hn'
      rcases hreach.cases_head with rfl | ⟨part, he, _⟩
      · cases hstruct.symm.trans hn
      · cases he with
        | element hn' | unit hn' | component hn' => cases hstruct.symm.trans hn'
  have ha : store.align row = .ok 4 := by decide +kernel
  have hs : store.size row = .ok 24 := by decide +kernel
  exact ⟨hr, hunits, ha, hs, by decide +kernel, (hr.size_multiple hunits ha hs).2.2.2⟩

end Store

end TypeGraph
