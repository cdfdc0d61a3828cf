import Mathlib.Order.Lattice.Nat
import TypeGraph.Proofs.Exactness

/-!
What the size and alignment of a finished class are. Main statement: the size is the least whole
number of words that holds every base and data member, it is refused exactly where that number needs
more than 64 bits, and it is what is answered for the class from then on
(`Store.Reachable.class_encloses`).
-/

namespace TypeGraph

theorem Count.exists_ofNat? {n : Nat} (h : n < UInt64.size) : ∃ count, ofNat? n = some count :=
  ⟨_, if_pos h⟩

theorem Count.max_eq_or (a b : Count) : max a b = a ∨ max a b = b := by
  rw [← UInt64.toNat_inj, ← UInt64.toNat_inj, UInt64.toNat_max]
  exact max_choice _ _

/-- The types that an object of the drafted class holds values of: its bases and data members. -/
def ClassDraft.values (draft : ClassDraft) : List TypeId :=
  draft.bases.map BaseClass.type ++ draft.data.map Member.type

namespace Store

variable {store new : Store} {draft : ClassDraft} {type : TypeId}

/-- An object of so many bytes is a positive number of words and holds the bases and data members
of the class. -/
structure Encloses (store : Store) (draft : ClassDraft) (bytes : Nat) : Prop where
  words : store.target.wordBytes.toNat ∣ bytes
  positive : 1 ≤ bytes
  bases : ∀ base ∈ draft.bases, ∃ size, store.size base.type = .ok size ∧ size.toNat ≤ bytes
  data : ∀ member ∈ draft.data, ∃ size, store.size member.type = .ok size ∧
    member.offset.toNat + size.toNat ≤ bytes

/-- The alignments that an object of the class has to have: one byte, and those of its bases and
data members. -/
def alignments (store : Store) (draft : ClassDraft) : Set Count :=
  {align | align = 1 ∨ ∃ part ∈ draft.values, store.align part = .ok align}

/-! ### The greatest of several counts -/

section Greatest

variable {α σ : Type} {f : σ → α → Except Failure σ} {value : α → Except Failure Count}
  {get : σ → Count} {as : List α} {start stop : σ}

theorem toNat_le_of_foldlM (hstep : ∀ state a next, f state a = .ok next →
      ∃ count, value a = .ok count ∧ get next = max (get state) count)
    (h : as.foldlM f start = .ok stop) (bound : Nat) :
    (get stop).toNat ≤ bound ↔ (get start).toNat ≤ bound ∧
      ∀ a ∈ as, ∃ count, value a = .ok count ∧ count.toNat ≤ bound := by
  induction as generalizing start with
  | nil =>
      cases h
      simp
  | cons a as ih =>
      rw [List.foldlM_cons] at h
      obtain ⟨next, ha, h⟩ := bind_eq_ok.mp h
      obtain ⟨count, hvalue, hnext⟩ := hstep _ _ _ ha
      rw [ih h, hnext, UInt64.toNat_max, List.forall_mem_cons, hvalue, max_le_iff, and_assoc]
      simp

theorem attained_of_foldlM (hstep : ∀ state a next, f state a = .ok next →
      ∃ count, value a = .ok count ∧ get next = max (get state) count)
    (h : as.foldlM f start = .ok stop) :
    get stop = get start ∨ ∃ a ∈ as, value a = .ok (get stop) := by
  induction as generalizing start with
  | nil =>
      cases h
      exact Or.inl rfl
  | cons a as ih =>
      rw [List.foldlM_cons] at h
      obtain ⟨next, ha, h⟩ := bind_eq_ok.mp h
      obtain ⟨count, hvalue, hnext⟩ := hstep _ _ _ ha
      rcases ih h with heq | ⟨other, hm, ho⟩
      · rcases Count.max_eq_or (get start) count with hmax | hmax
        · exact Or.inl (by rw [heq, hnext, hmax])
        · exact Or.inr ⟨a, List.mem_cons_self, by rw [heq, hnext, hmax, hvalue]⟩
      · exact Or.inr ⟨other, List.mem_cons_of_mem a hm, ho⟩

end Greatest

/-! ### Laying a class out -/

theorem reachBase_eq_ok {reach reach' : Reach} {base : BaseClass} :
    store.reachBase reach base = .ok reach' ↔ (∃ owner, store.classOwner base.type = .ok owner) ∧
      ∃ size align, store.size base.type = .ok size ∧ store.align base.type = .ok align ∧
        reach' = ⟨max reach.bytes size, max reach.align align⟩ := by
  simp only [reachBase, bind_eq_ok, pure_eq_ok]
  constructor
  · rintro ⟨owner, ho, size, hs, align, ha, rfl⟩
    exact ⟨⟨owner, ho⟩, size, align, hs, ha, rfl⟩
  · rintro ⟨⟨owner, ho⟩, size, align, hs, ha, rfl⟩
    exact ⟨owner, ho, size, hs, align, ha, rfl⟩

theorem reachBase_bytes (reach : Reach) (base : BaseClass) (reach' : Reach)
    (h : store.reachBase reach base = .ok reach') :
    ∃ size, store.size base.type = .ok size ∧ reach'.bytes = max reach.bytes size := by
  obtain ⟨_, size, align, hs, _, rfl⟩ := reachBase_eq_ok.mp h
  exact ⟨size, hs, rfl⟩

theorem reachBase_align (reach : Reach) (base : BaseClass) (reach' : Reach)
    (h : store.reachBase reach base = .ok reach') :
    ∃ align, store.align base.type = .ok align ∧ reach'.align = max reach.align align := by
  obtain ⟨_, size, align, _, ha, rfl⟩ := reachBase_eq_ok.mp h
  exact ⟨align, ha, rfl⟩

def memberStop (store : Store) (type : TypeId) (member : Member String) : Except Failure Count := do
  orFail (.type (.sizeOverflow type)) (Count.add? member.offset (← store.size member.type))

theorem memberStop_eq_ok {member : Member String} {stop : Count} :
    store.memberStop type member = .ok stop ↔ ∃ size, store.size member.type = .ok size ∧
      stop.toNat = member.offset.toNat + size.toNat := by
  simp only [memberStop, bind_eq_ok, orFail_eq_ok, Count.add?, Count.ofNat?_eq_some_iff]

theorem reachMember_eq_ok {reach reach' : Reach} {member : Member String} :
    store.reachMember type reach member = .ok reach' ↔
      ∃ stop align, store.memberStop type member = .ok stop ∧
        store.align member.type = .ok align ∧
        reach' = ⟨max reach.bytes stop, max reach.align align⟩ := by
  simp only [reachMember, memberStop, bind_eq_ok, pure_eq_ok]
  constructor
  · rintro ⟨size, hs, stop, hstop, align, ha, rfl⟩
    exact ⟨stop, align, ⟨size, hs, hstop⟩, ha, rfl⟩
  · rintro ⟨stop, align, ⟨size, hs, hstop⟩, ha, rfl⟩
    exact ⟨size, hs, stop, hstop, align, ha, rfl⟩

theorem reachMember_bytes (type : TypeId) (reach : Reach) (member : Member String) (reach' : Reach)
    (h : store.reachMember type reach member = .ok reach') :
    ∃ stop, store.memberStop type member = .ok stop ∧ reach'.bytes = max reach.bytes stop := by
  obtain ⟨stop, align, hs, _, rfl⟩ := reachMember_eq_ok.mp h
  exact ⟨stop, hs, rfl⟩

theorem reachMember_align (type : TypeId) (reach : Reach) (member : Member String) (reach' : Reach)
    (h : store.reachMember type reach member = .ok reach') :
    ∃ align, store.align member.type = .ok align ∧ reach'.align = max reach.align align := by
  obtain ⟨stop, align, _, ha, rfl⟩ := reachMember_eq_ok.mp h
  exact ⟨align, ha, rfl⟩

theorem bytes_le_of_classReach {reach : Reach} (h : store.classReach draft = .ok reach)
    (bound : Nat) : reach.bytes.toNat ≤ bound ↔
      (∀ base ∈ draft.bases, ∃ size, store.size base.type = .ok size ∧ size.toNat ≤ bound) ∧
      ∀ member ∈ draft.data, ∃ size, store.size member.type = .ok size ∧
        member.offset.toNat + size.toNat ≤ bound := by
  obtain ⟨start, hbases, hdata⟩ := bind_eq_ok.mp h
  -- A member that is come past ends somewhere, so its end is where its offset and size put it.
  have hstops : ∀ member ∈ draft.data, ∃ stop, store.memberStop draft.type member = .ok stop := by
    refine forall_of_foldlM_eq_ok (fun reach member _ reach' hstep => ?_) hdata
    obtain ⟨stop, hstop, _⟩ := reachMember_bytes _ _ _ _ hstep
    exact ⟨stop, hstop⟩
  have hends : (∀ member ∈ draft.data, ∃ stop, store.memberStop draft.type member = .ok stop ∧
      stop.toNat ≤ bound) ↔ ∀ member ∈ draft.data, ∃ size, store.size member.type = .ok size ∧
        member.offset.toNat + size.toNat ≤ bound := by
    refine forall₂_congr fun member hm => ?_
    obtain ⟨stop, hstop⟩ := hstops member hm
    obtain ⟨size, hs, heq⟩ := memberStop_eq_ok.mp hstop
    simp [hstop, hs, heq]
  rw [toNat_le_of_foldlM (reachMember_bytes draft.type) hdata,
    toNat_le_of_foldlM reachBase_bytes hbases, hends]
  simp

theorem isGreatest_of_classReach {reach : Reach} (h : store.classReach draft = .ok reach) :
    (∀ part ∈ draft.values, ∃ align, store.align part = .ok align) ∧
      IsGreatest (store.alignments draft) reach.align := by
  obtain ⟨start, hbases, hdata⟩ := bind_eq_ok.mp h
  obtain ⟨hstart, hmembers⟩ :=
    (toNat_le_of_foldlM (reachMember_align draft.type) hdata _).mp (Nat.le_refl _)
  obtain ⟨hone, hparts⟩ := (toNat_le_of_foldlM reachBase_align hbases _).mp hstart
  have hbound : ∀ part ∈ draft.values, ∃ align, store.align part = .ok align ∧
      align ≤ reach.align := by
    intro part hm
    rcases List.mem_append.mp hm with hm | hm
    · obtain ⟨base, hbase, rfl⟩ := List.mem_map.mp hm
      exact hparts base hbase
    · obtain ⟨member, hmember, rfl⟩ := List.mem_map.mp hm
      exact hmembers member hmember
  refine ⟨fun part hm => (hbound part hm).imp fun _ => And.left, ?_, ?_⟩
  · rcases attained_of_foldlM (reachMember_align draft.type) hdata with heq | ⟨member, hm, ha⟩
    · rcases attained_of_foldlM reachBase_align hbases with heq' | ⟨base, hm, ha⟩
      · exact Or.inl (heq.trans heq')
      · exact Or.inr ⟨base.type, List.mem_append_left _ (List.mem_map_of_mem hm), heq ▸ ha⟩
    · exact Or.inr ⟨member.type, List.mem_append_right _ (List.mem_map_of_mem hm), ha⟩
  · rintro align (rfl | ⟨part, hm, ha⟩)
    · exact hone
    · obtain ⟨own, hown, hle⟩ := hbound part hm
      cases ha.symm.trans hown
      exact hle

/-- So many bytes are enough exactly if they are a whole number of words and the class, with one
byte at least, does not reach over them. -/
theorem encloses_iff {reach : Reach} (h : store.classReach draft = .ok reach) {bytes : Nat} :
    store.Encloses draft bytes ↔ store.target.wordBytes.toNat ∣ bytes ∧
      roundUp (max reach.bytes 1).toNat store.target.wordBytes.toNat ≤ bytes := by
  have hbytes := bytes_le_of_classReach h bytes
  constructor
  · rintro ⟨hwords, hone, hbases, hdata⟩
    refine ⟨hwords, (roundUp_le_iff store.target.wordBytes_pos hwords).mpr ?_⟩
    rw [UInt64.toNat_max]
    exact max_le (hbytes.mpr ⟨hbases, hdata⟩) hone
  · rintro ⟨hwords, hle⟩
    rw [roundUp_le_iff store.target.wordBytes_pos hwords, UInt64.toNat_max, max_le_iff] at hle
    obtain ⟨hbases, hdata⟩ := hbytes.mp hle.1
    exact ⟨hwords, hle.2, hbases, hdata⟩

/-- A class that is laid out is as small and as aligned as can be. -/
theorem isLeast_of_classLayout {size align : Count}
    (h : store.classLayout draft = .ok (size, align)) :
    IsLeast {bytes | store.Encloses draft bytes} size.toNat ∧
      (∀ part ∈ draft.values, ∃ align, store.align part = .ok align) ∧
      IsGreatest (store.alignments draft) align := by
  obtain ⟨reach, hreach, h⟩ := bind_eq_ok.mp h
  obtain ⟨rounded, hround, h⟩ := bind_eq_ok.mp h
  cases h
  have hsize := Count.ofNat?_eq_some_iff.mp (orFail_eq_ok.mp hround)
  refine ⟨⟨?_, fun bytes hb => ?_⟩, isGreatest_of_classReach hreach⟩
  · rw [hsize]
    exact (encloses_iff hreach).mpr ⟨dvd_roundUp _ _, Nat.le_refl _⟩
  · rw [hsize]
    exact ((encloses_iff hreach).mp hb).2

/-! ### Refusing to lay a class out -/

/-- The bases of a class are classes, and these and the data members have sizes. -/
structure SizedParts (store : Store) (draft : ClassDraft) : Prop where
  classes : ∀ base ∈ draft.bases, ∃ owner, store.classOwner base.type = .ok owner
  sized : ∀ part ∈ draft.values, ∃ size, store.size part = .ok size

namespace SizedParts

variable (h : store.SizedParts draft)
include h

theorem base {base : BaseClass} (hm : base ∈ draft.bases) :
    ∃ size, store.size base.type = .ok size :=
  h.sized _ (List.mem_append_left _ (List.mem_map_of_mem hm))

theorem member {member : Member String} (hm : member ∈ draft.data) :
    ∃ size, store.size member.type = .ok size :=
  h.sized _ (List.mem_append_right _ (List.mem_map_of_mem hm))

theorem exists_isLeast : ∃ bytes, IsLeast {bytes | store.Encloses draft bytes} bytes := by
  have hword := store.target.wordBytes_pos
  have henough : store.Encloses draft (store.target.wordBytes.toNat * (2 * UInt64.size)) := by
    have hbound : 2 * UInt64.size ≤ store.target.wordBytes.toNat * (2 * UInt64.size) :=
      Nat.le_mul_of_pos_left _ hword
    refine ⟨Nat.dvd_mul_right _ _, ?_, fun base hm => ?_, fun member hm => ?_⟩
    · exact Nat.le_trans (by decide) hbound
    · obtain ⟨size, hs⟩ := h.base hm
      have := size.toNat_lt_size
      exact ⟨size, hs, by omega⟩
    · obtain ⟨size, hs⟩ := h.member hm
      have := size.toNat_lt_size
      have := member.offset.toNat_lt_size
      exact ⟨size, hs, by omega⟩
  exact ⟨_, Nat.sInf_mem ⟨_, henough⟩, fun bytes hb => Nat.sInf_le hb⟩

variable (hs : store.StoresEnums)
include hs

theorem aligned {part : TypeId} (hm : part ∈ draft.values) :
    ∃ align, store.align part = .ok align := by
  obtain ⟨size, hsize⟩ := h.sized part hm
  exact hs.aligned_iff.mpr (complete_of_size hsize)

theorem exists_reachBase (reach : Reach) {base : BaseClass} (hm : base ∈ draft.bases) :
    ∃ reach', store.reachBase reach base = .ok reach' := by
  obtain ⟨size, hsize⟩ := h.base hm
  obtain ⟨align, ha⟩ := h.aligned hs (List.mem_append_left _ (List.mem_map_of_mem hm))
  exact ⟨_, reachBase_eq_ok.mpr ⟨h.classes base hm, size, align, hsize, ha, rfl⟩⟩

theorem exists_reachMember (reach : Reach) {member : Member String} (hm : member ∈ draft.data)
    {stop : Count} (hstop : store.memberStop draft.type member = .ok stop) :
    ∃ reach', store.reachMember draft.type reach member = .ok reach' := by
  obtain ⟨align, ha⟩ := h.aligned hs (List.mem_append_right _ (List.mem_map_of_mem hm))
  exact ⟨_, reachMember_eq_ok.mpr ⟨stop, align, hstop, ha, rfl⟩⟩

/-- A class for which some bytes are enough that 64 bits can count is laid out. -/
theorem exists_classLayout {bytes : Nat} (henough : store.Encloses draft bytes)
    (hlt : bytes < UInt64.size) : ∃ layout, store.classLayout draft = .ok layout := by
  obtain ⟨start, hbases⟩ :=
    exists_foldlM_eq_ok (fun reach base hm => h.exists_reachBase hs reach hm) ⟨0, 1⟩
  obtain ⟨reach, hdata⟩ : ∃ reach, draft.data.foldlM (store.reachMember draft.type) start =
      .ok reach := by
    refine exists_foldlM_eq_ok (fun reach member hm => ?_) start
    obtain ⟨size, hsize, hle⟩ := henough.data member hm
    obtain ⟨stop, hstop⟩ := Count.exists_ofNat? (Nat.lt_of_le_of_lt hle hlt)
    exact h.exists_reachMember hs reach hm
      (memberStop_eq_ok.mpr ⟨size, hsize, Count.ofNat?_eq_some_iff.mp hstop⟩)
  have hreach : store.classReach draft = .ok reach := bind_eq_ok.mpr ⟨start, hbases, hdata⟩
  have hround := ((encloses_iff hreach).mp henough).2
  obtain ⟨size, hsize⟩ := Count.exists_ofNat? (Nat.lt_of_le_of_lt hround hlt)
  exact ⟨(size, reach.align), bind_eq_ok.mpr ⟨reach, hreach, bind_eq_ok.mpr
    ⟨size, orFail_eq_ok.mpr hsize, rfl⟩⟩⟩

theorem classLayout_cases : (∃ layout, store.classLayout draft = .ok layout) ∨
    store.classLayout draft = .error (.type (.sizeOverflow draft.type)) := by
  cases hlayout : store.classLayout draft with
  | ok layout => exact Or.inl ⟨layout, rfl⟩
  | error failure =>
      refine Or.inr ?_
      rcases bind_eq_error.mp hlayout with hreach | ⟨reach, _, hround⟩
      · rcases bind_eq_error.mp hreach with hbases | ⟨start, _, hdata⟩
        · obtain ⟨reach, base, hm, hstep⟩ := exists_of_foldlM_eq_error hbases
          obtain ⟨reach', hok⟩ := h.exists_reachBase hs reach hm
          cases hok.symm.trans hstep
        · obtain ⟨reach, member, hm, hstep⟩ := exists_of_foldlM_eq_error hdata
          obtain ⟨size, hsize⟩ := h.member hm
          cases hstop : store.memberStop draft.type member with
          | ok stop =>
              obtain ⟨reach', hok⟩ := h.exists_reachMember hs reach hm hstop
              cases hok.symm.trans hstep
          | error refusal =>
              rw [memberStop, hsize, ok_bind] at hstop
              rw [reachMember, hsize, ok_bind, hstop] at hstep
              cases hstep
              rw [(orFail_eq_error.mp hstop).2]
      · rcases bind_eq_error.mp hround with hround | ⟨_, _, ⟨⟩⟩
        rw [(orFail_eq_error.mp hround).2]

end SizedParts

/-! ### Completing a class -/

theorem outcome_completeClass {failure : Failure} (hopen : store.classBody? draft.type = none)
    (h : store.classLayout draft = .error failure) :
    outcome (Build.completeClass draft) store = .error failure := by
  obtain ⟨names, data, functions, _, _, _, _, hrun⟩ := Build.run_completeClass draft store
  rw [outcome, hrun, hopen, h]
  rfl

theorem outcome_completeClass_ne {layout : Count × Count}
    (hopen : store.classBody? draft.type = none) (h : store.classLayout draft = .ok layout)
    (part : TypeId) :
    outcome (Build.completeClass draft) store ≠ .error (.type (.sizeOverflow part)) := by
  obtain ⟨names, data, functions, _, _, _, _, hrun⟩ := Build.run_completeClass draft store
  rw [outcome, hrun, hopen, h]
  cases hshape : store.shape draft.type with
  | ok shape => cases shape <;> simp [Build.answered]
  | error failure =>
      rcases bind_eq_error.mp hshape with hnode | ⟨_, _, ⟨⟩⟩
      rw [← (orFail_eq_error.mp hnode).2]
      simp [Build.answered]

theorem layout_of_classBody? (hw : store.WellFormed) {owner : TypeId} {name : PathId}
    {isStruct : Bool} {own : Qual PathId}
    (hn : store.node? owner = some ⟨.classType name isStruct, own⟩) {body : ClassBody}
    (hb : store.classBody? owner = some body) (hv : store.unqualified type = .ok owner) :
    store.size type = .ok body.size ∧ store.align type = .ok body.align := by
  obtain ⟨⟨shape, own'⟩, hvariant, hid⟩ := unqualified_eq_ok.mp hv
  have hplain := node?_idOf (hw.plain type _ hvariant)
  rw [hid] at hplain
  cases hn.symm.trans hplain
  have howner : store.classOwner type = .ok owner :=
    classOwner_eq_ok.mpr ⟨_, hvariant, by cases isStruct <;> rfl, hid⟩
  have hbody : store.classBody type = .ok body :=
    classBody_eq_ok.mpr ⟨owner, howner, classBody?_eq_some.mp hb⟩
  rw [Store.size, Store.align, view_class hw hvariant, ok_bind, ok_bind]
  simp only [hbody]
  exact ⟨rfl, rfl⟩

/-- The size of a finished class is the least whole number of words that holds its bases and data
members, and its alignment is the greatest of theirs. Whatever is asked later, its variants have
that size and alignment, and so has the class itself if the draft is one of this store. A class with
sized parts is refused for its magnitude exactly where that number needs more than 64 bits. -/
theorem Reachable.class_encloses (h : store.Reachable) (draft : ClassDraft) :
    (∀ type new, Build.completeClass draft store = .ok type new → type = draft.type ∧
      ∃ body, new.classBody? type = some body ∧
        IsLeast {bytes | store.Encloses draft bytes} body.size.toNat ∧
        (∀ part ∈ draft.values, ∃ align, store.align part = .ok align) ∧
        IsGreatest (store.alignments draft) body.align ∧
        ∀ later, new.Runs later →
          (∀ variant, later.unqualified variant = .ok type →
            later.size variant = .ok body.size ∧ later.align variant = .ok body.align) ∧
          (store.HasOpened (.ofClass draft) → later.unqualified type = .ok type)) ∧
    (store.classBody? draft.type = none → store.SizedParts draft →
      ∃ bytes, IsLeast {bytes | store.Encloses draft bytes} bytes ∧
        (outcome (Build.completeClass draft) store = .error (.type (.sizeOverflow draft.type)) ↔
          UInt64.size ≤ bytes)) := by
  have hw := h.wellFormed
  constructor
  · intro type new hrun
    have hcompletion := Build.completion_completeClass draft store
    rw [hrun] at hcompletion
    cases hcompletion with
    | @fixed names definition accepts hext hc =>
        have hd : (store.defining names draft.type definition).definition? draft.type =
            some definition := definition?_defining (accepts.definition? h.fitting)
        obtain ⟨hnew, hw'⟩ := onward_defining hext hc draft.type definition hw
        cases accepts with
        | @ofClass _ body name isStruct own hn _ _ _ hlayout =>
            obtain ⟨hleast, halign⟩ := isLeast_of_classLayout hlayout
            refine ⟨rfl, body, classBody?_eq_some.mpr hd, hleast, halign.1, halign.2, ?_⟩
            intro later hruns
            obtain ⟨hlater, hw''⟩ := hruns.onward hw'
            constructor
            · intro variant hv
              exact layout_of_classBody? hw'' (hlater.node? (hnew.node? hn))
                (hlater.classBody? (classBody?_eq_some.mpr hd)) hv
            · intro hopened
              have ho := (hnew.trans hlater).classOwner hw hopened.ownerFor
              obtain ⟨node, hself, _, hid⟩ := classOwner_eq_ok.mp ho
              exact unqualified_eq_ok.mpr ⟨node, hself, hid⟩
  · intro hopen hparts
    obtain ⟨bytes, hleast⟩ := hparts.exists_isLeast
    refine ⟨bytes, hleast, fun hfails => ?_, fun hle => ?_⟩
    · by_contra hlt
      obtain ⟨layout, hlayout⟩ :=
        hparts.exists_classLayout h.storesEnums hleast.1 (Nat.not_le.mp hlt)
      exact outcome_completeClass_ne hopen hlayout _ hfails
    · rcases hparts.classLayout_cases h.storesEnums with ⟨⟨size, align⟩, hlayout⟩ | hlayout
      · have heq := hleast.unique (isLeast_of_classLayout hlayout).1
        exact absurd size.toNat_lt_size (Nat.not_lt.mpr (heq ▸ hle))
      · exact outcome_completeClass hopen hlayout

/-- A struct over another one, with an integer after five bytes, takes nine bytes and thus three
words; it still does when types are laid out for another machine. A boolean in the last byte but
one leaves no room for a whole number of words. -/
theorem Reachable.class_encloses_struct :
    let inner : TypeId := ⟨Builtin.all.length⟩
    let outer : TypeId := ⟨Builtin.all.length + 1⟩
    let far : TypeId := ⟨Builtin.all.length + 2⟩
    let store := (Store.new .wide).afterAll [.path ["f"], .path ["g"], .path ["h"],
      .enter (.classType ⟨1⟩ true), .enter (.classType ⟨2⟩ true), .enter (.classType ⟨3⟩ true),
      .completeClass (.new inner)]
    let draft := ((ClassDraft.new outer).addBase ⟨inner, .isPublic, false⟩).addData
      ⟨"last", .builtin (.int ⟨.int, true⟩), 5, .isPublic, false⟩
    let farDraft := (ClassDraft.new far).addData
      ⟨"last", .builtin (.bool .hard), 0xfffffffffffffffe, .isPublic, false⟩
    let new := after (Build.completeClass draft) store
    store.Reachable ∧ Build.completeClass draft store = .ok outer new ∧
      IsLeast {bytes | store.Encloses draft bytes} 12 ∧
      (new.withTarget .narrow).size outer = .ok 12 ∧ (new.withTarget .narrow).align outer = .ok 4 ∧
      ∃ bytes, IsLeast {bytes | store.Encloses farDraft bytes} bytes ∧ UInt64.size ≤ bytes := by
  intro inner outer far store draft farDraft new
  have hr : store.Reachable := (reachable_new .wide).afterAll (by
    simp [Request.Countable, TypeRequest.Countable])
  have hopened : store.HasOpened (.ofClass draft) :=
    .opened hr (show store.openFor (.ofClass draft) outer = .ok outer by decide +kernel) .refl
  have hrun : Build.completeClass draft store = .ok outer new :=
    outcome_eq_ok.mp (by decide +kernel)
  obtain ⟨_, body, hb, hleast, _, _, hlater⟩ := (hr.class_encloses draft).1 outer new hrun
  have hbody : new.classBody? outer = some
      ⟨[⟨inner, .isPublic, false⟩], [⟨⟨3⟩, .builtin (.int ⟨.int, true⟩), 5, .isPublic, false⟩], [],
        12, 4⟩ := by
    decide +kernel
  cases hbody.symm.trans hb
  obtain ⟨hvariants, hself⟩ := hlater (new.withTarget .narrow)
    (.single (step_effect (show (Request.retarget .narrow).Countable from trivial) new))
  obtain ⟨hsize, halign⟩ := hvariants outer (hself hopened)
  have hparts : store.SizedParts farDraft := by
    have hsize : store.size (.builtin (.bool .hard)) = .ok 1 := by decide +kernel
    exact ⟨fun _ hm => absurd hm List.not_mem_nil,
      fun part hm => ⟨1, List.mem_singleton.mp hm ▸ hsize⟩⟩
  obtain ⟨bytes, hfar, hiff⟩ := (hr.class_encloses farDraft).2 (by decide +kernel) hparts
  exact ⟨hr, hrun, hleast, hsize, halign, bytes, hfar, hiff.mp (by decide +kernel)⟩

/-- A draft carries the bare number of its class. Where that was opened in another store, it may be
the number of a variant here: completing it succeeds and fixes a size, and neither the variant nor
the class has that size or any other. -/
theorem exists_unsized_completed :
    let class_ : TypeId := ⟨Builtin.all.length⟩
    let variant : TypeId := ⟨Builtin.all.length + 1⟩
    let other := (Store.new .wide).afterAll [.path ["foo"], .path ["bar"],
      .enter (.classType ⟨1⟩ true), .enter (.classType ⟨2⟩ true)]
    let store := (Store.new .wide).afterAll
      [.path ["foo"], .enter (.classType ⟨1⟩ true), .qualify class_ Qual.const]
    let draft := ClassDraft.new variant
    let new := after (Build.completeClass draft) store
    other.Reachable ∧ other.openClass variant = .ok draft ∧ store.Reachable ∧
      store.unqualified variant = .ok class_ ∧ Build.completeClass draft store = .ok variant new ∧
      new.classBody? variant = some ⟨[], [], [], 4, 1⟩ ∧
      (∀ type ∈ [class_, variant], new.size type = .error (.type (.incomplete type)) ∧
        new.align type = .error (.type (.incomplete type))) ∧
      ¬ ∀ body, new.classBody? variant = some body → new.size variant = .ok body.size := by
  intro class_ variant other store draft new
  have hother : other.Reachable := (reachable_new .wide).afterAll (by
    simp [Request.Countable, TypeRequest.Countable])
  have hr : store.Reachable := (reachable_new .wide).afterAll (by
    simp [Request.Countable, TypeRequest.Countable])
  have hb : new.classBody? variant = some ⟨[], [], [], 4, 1⟩ := by decide +kernel
  have hunsized : ∀ type ∈ [class_, variant], new.size type = .error (.type (.incomplete type)) ∧
      new.align type = .error (.type (.incomplete type)) := by
    decide +kernel
  refine ⟨hother, by decide +kernel, hr, by decide +kernel, outcome_eq_ok.mp (by decide +kernel),
    hb, hunsized, fun hall => ?_⟩
  cases (hunsized variant (by simp)).1.symm.trans (hall _ hb)

end Store

end TypeGraph
