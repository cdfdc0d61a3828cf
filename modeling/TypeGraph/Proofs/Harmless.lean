import TypeGraph.Proofs.Labels
import TypeGraph.Proofs.Opening
import TypeGraph.Proofs.Prolonging

/-!
Readers of items that may be anything. Main statements: whatever the items are, reading a type or
tables adds to the store only, takes items off the front only, fails without a fault if it fails,
and else gives types that the store holds and bodies that are open in it (`Load.gives_type`,
`Load.gives_tables`).
-/

namespace TypeGraph

variable {α β : Type}

open ItemReader

/-! ### Readers that do no harm -/

namespace Load

/-- A run of a reader that adds to the store only, takes items off the front only, fails without a
fault if it fails, and else gives something of which `P` holds in the store by then. -/
structure Harmless (m : Load α) (P : Store → α → Prop) (loading : Loading) : Prop where
  grows : loading.store.Grows (after m loading).store
  labelled : loading.store.StaysLabelled (after m loading).store
  suffix : (after m loading).items <:+ loading.items
  faultless : Faultless (outcome m loading)
  gives : ∀ a next, m loading = .ok a next → P next.store a

/-- Every run of a reader on a well-formed store does no harm. -/
def Gives (m : Load α) (P : Store → α → Prop) : Prop :=
  ∀ loading, loading.store.WellFormed → m.Harmless P loading

variable {m : Load α} {f : α → Load β} {P : Store → α → Prop} {Q : Store → β → Prop}
  {loading : Loading}

theorem Harmless.of_ok {a : α} {next : Loading} (hrun : m loading = .ok a next)
    (hg : loading.store.Grows next.store) (hl : loading.store.StaysLabelled next.store)
    (hs : next.items <:+ loading.items) (hp : P next.store a) : m.Harmless P loading where
  grows := by simpa only [after, hrun] using hg
  labelled := by simpa only [after, hrun] using hl
  suffix := by simpa only [after, hrun] using hs
  faultless := by simpa only [outcome, hrun] using .pure a
  gives b last h := by
    rw [hrun] at h
    cases h
    exact hp

theorem Harmless.of_error {failure : Failure} {next : Loading}
    (hrun : m loading = .error failure next) (hg : loading.store.Grows next.store)
    (hl : loading.store.StaysLabelled next.store) (hs : next.items <:+ loading.items)
    (hf : Faultless (.error failure : Except Failure α)) : m.Harmless P loading where
  grows := by simpa only [after, hrun] using hg
  labelled := by simpa only [after, hrun] using hl
  suffix := by simpa only [after, hrun] using hs
  faultless := by simpa only [outcome, hrun] using hf
  gives b last h := by
    rw [hrun] at h
    cases h

theorem Harmless.bind (hm : m.Harmless P loading)
    (hf : ∀ a next, loading.store.Grows next.store → P next.store a → (f a).Harmless Q next) :
    Harmless (m >>= f) Q loading := by
  obtain ⟨hg, hl, hs, hfault, hp⟩ := hm
  simp only [after, outcome] at hg hl hs hfault
  cases hrun : m loading with
  | error failure next =>
      simp only [hrun] at hg hl hs hfault
      exact .of_error (by rw [run_bind, hrun]) hg hl hs hfault.stop
  | ok a next =>
      -- The rest runs from where the first part stopped, on a store that is still well-formed.
      simp only [hrun] at hg hl hs
      obtain ⟨hg', hl', hs', hfault', hp'⟩ := hf a next hg (hp a next hrun)
      have hbind : (m >>= f) loading = f a next := run_bind_of_ok hrun
      simp only [after, outcome, ← hbind] at hg' hl' hs' hfault' hp'
      exact ⟨hg.trans hg', hl' ∘ hl, hs'.trans hs, hfault', hp'⟩

theorem Harmless.pure (hw : loading.store.WellFormed) {a : α} (h : P loading.store a) :
    Harmless (pure a) P loading :=
  .of_ok rfl hw.grows id (List.suffix_refl _) h

theorem Harmless.throw (hw : loading.store.WellFormed) {failure : Failure}
    (h : Faultless (.error failure : Except Failure α)) :
    Harmless (throw failure : Load α) P loading :=
  .of_error rfl hw.grows id (List.suffix_refl _) h

/-- A reader of one item leaves the items after it, whether it succeeds or fails. -/
theorem run_read {reader : ItemReader α} (h : reader.TakesOne) (loading : Loading) :
    (∃ a, read reader loading = .ok a { loading with items := loading.items.tail }) ∨
      ∃ error, read reader loading =
        .error (.archive error) { loading with items := loading.items.tail } := by
  obtain ⟨store, items⟩ := loading
  cases items with
  | nil =>
      obtain ⟨expected, hnil⟩ := h.nil
      exact Or.inr ⟨.unexpectedEnd expected, by simp only [read, hnil, List.tail_nil]⟩
  | cons item rest =>
      rcases h.cons item with ⟨a, ha⟩ | ⟨error, herror⟩
      · exact Or.inl ⟨a, by simp only [read, ha, List.tail_cons]⟩
      · exact Or.inr ⟨error, by simp only [read, herror, List.tail_cons]⟩

theorem gives_read {reader : ItemReader α} (h : reader.TakesOne) :
    Gives (read reader) fun _ _ => True := by
  intro loading hw
  rcases run_read h loading with ⟨a, hrun⟩ | ⟨error, hrun⟩
  · exact .of_ok hrun hw.grows id (List.tail_suffix _) trivial
  · exact .of_error hrun hw.grows id (List.tail_suffix _) (.archive error)

theorem gives_tag : Gives (read .tag) fun _ _ => True := gives_read takesOne_tag

theorem gives_bool : Gives (read .bool) fun _ _ => True := gives_read takesOne_bool

theorem gives_count : Gives (read .count) fun _ _ => True := gives_read takesOne_count

theorem gives_word : Gives (read .word) fun _ _ => True := gives_read takesOne_word

theorem gives_signed : Gives (read .signed) fun _ _ => True := gives_read takesOne_signed

theorem gives_str : Gives (read .str) fun _ _ => True := gives_read takesOne_str

theorem gives_key : Gives (read .key) fun _ _ => True := gives_read takesOne_key

theorem gives_tagged [Tagged α] : Gives (read (.tagged : ItemReader α)) fun _ _ => True :=
  gives_read takesOne_tagged

theorem gives_exactTag (expected : String) :
    Gives (read (.exactTag expected)) fun _ _ => True := gives_read (takesOne_exactTag expected)

theorem Harmless.build {request : Build α} (hw : loading.store.WellFormed)
    (hk : Keeps Store.Safe request)
    (hl : loading.store.StaysLabelled (after request loading.store))
    (hf : Faultless (outcome request loading.store))
    (hp : ∀ a new, request loading.store = .ok a new → P new a) :
    Harmless (build request) P loading := by
  have hg := hk loading.store hw
  simp only [after, outcome] at hg hl hf
  cases hr : request loading.store with
  | ok a new =>
      simp only [hr] at hg hl
      have hrun : Load.build request loading = .ok a { loading with store := new } := by
        simp only [Load.build, hr]
      exact .of_ok hrun hg hl (List.suffix_refl _) (hp a new hr)
  | error failure new =>
      simp only [hr] at hg hl hf
      have hrun : Load.build request loading = .error failure { loading with store := new } := by
        simp only [Load.build, hr]
      exact .of_error hrun hg hl (List.suffix_refl _) hf

/-- The store is asked, and left as it is. -/
theorem Harmless.query {question : Store → Except Failure α} (hw : loading.store.WellFormed)
    (h : Faultless (question loading.store)) :
    Harmless (Load.build (Build.query question)) (fun store a => question store = .ok a)
      loading := by
  refine .build hw (Build.keeps_query question) ?_ ?_ fun a new hrun => ?_
  · rw [after, Build.run_query]
    cases question loading.store <;> exact id
  · rw [outcome, Build.run_query]
    cases hq : question loading.store with
    | ok a => exact .pure a
    | error failure =>
        rw [hq] at h
        exact h
  · obtain ⟨hanswer, rfl⟩ := Build.run_query_eq_ok.mp hrun
    exact hanswer

/-! ### Names and qualifiers -/

theorem gives_keyword : Gives keyword fun _ _ => True := by
  intro loading hw
  refine (gives_str loading hw).bind fun text next hg _ => ?_
  have hext := next.store.names.extends_intern text
  exact .build hg.wellFormed (Build.keeps_intern text) (fun hl => hl.mono rfl hext) (.pure _)
    fun _ _ _ => trivial

/-- A path that is read is one of the store by then. -/
theorem gives_path : Gives path Store.Knows := by
  intro loading hw
  refine (gives_key loading hw).bind fun texts next hg _ => ?_
  have hw' := hg.wellFormed
  have hext := next.store.names.extends_path texts
  refine .build hw' (Build.keeps_path texts) (fun hl => hl.mono rfl hext) (.pure _) ?_
  rintro _ _ ⟨⟩
  obtain ⟨segments, hs, _⟩ := Names.strings_eq_ok.mp (Names.path_spec hw'.names texts).2
  exact ⟨segments, Names.segments_eq_ok.mpr hs⟩

theorem gives_space :
    Gives space fun store space => ∀ name, space.name = some name → store.Knows name := by
  intro loading hw
  refine (gives_tagged loading hw).bind fun storage next hg _ => ?_
  cases storage.isPlaceholder with
  | true => exact .throw hg.wellFormed (.refused _)
  | false =>
      cases hd : storage.isDeclarable with
      | true =>
          refine (gives_path next hg.wellFormed).bind fun name last hg' hname =>
            .pure hg'.wellFormed fun other ho => ?_
          have hdeclared : some name = some other := by simpa [Space.declared, hd] using ho
          cases hdeclared
          exact hname
      | false =>
          refine .pure hg.wellFormed fun name hn => ?_
          simp [Space.ofStorage, Space.declared, hd] at hn

theorem gives_qual :
    Gives qual fun store qual => ∀ name, qual.space.name = some name → store.Knows name :=
  fun loading hw =>
    (gives_space loading hw).bind fun _ a ha hspace =>
      (gives_bool a ha.wellFormed).bind fun _ b hb _ =>
        (gives_bool b hb.wellFormed).bind fun _ c hc _ =>
          (gives_bool c hc.wellFormed).bind fun _ d hd _ =>
            (gives_bool d hd.wellFormed).bind fun _ _ he _ => .pure he.wellFormed fun name hn =>
              (hspace name hn).mono (((hb.trans hc).trans hd).trans he).extends_.names

/-! ### Types -/

/-- What holds of every element that is read, and goes on to hold, holds of all of them. -/
theorem gives_times {element : Load α} (h : Gives element P)
    (hmono : ∀ old new a, old.WellFormed → old.Extends new → P old a → P new a) (n : Nat) :
    Gives (times element n) fun store as => as.length = n ∧ ∀ a ∈ as, P store a := by
  induction n with
  | zero => exact fun loading hw => .pure hw ⟨rfl, by simp⟩
  | succ n ih =>
      intro loading hw
      refine (h loading hw).bind fun a mid hg ha => ?_
      refine (ih mid hg.wellFormed).bind fun as last hg' has => .pure hg'.wellFormed ?_
      refine ⟨by rw [List.length_cons, has.1], fun b hb => ?_⟩
      rcases List.mem_cons.mp hb with rfl | hb
      · exact hmono _ _ _ hg.wellFormed hg'.extends_ ha
      · exact has.2 b hb

theorem holds_mono (old new : Store) (type : TypeId) (_ : old.WellFormed) (hext : old.Extends new)
    (h : old.Holds type) : new.Holds type := h.mono hext

section Nested

variable {type : Load TypeId}

theorem gives_params (h : Gives type Store.Holds) :
    Gives (params type) fun store set => ∃ params, store.paramSet set = .ok params := by
  intro loading hw
  refine (gives_count loading hw).bind fun length a ha _ => ?_
  refine (gives_bool a ha.wellFormed).bind fun variadic b hb _ => ?_
  refine (gives_times h holds_mono length.toNat b hb.wellFormed).bind fun types c hc htypes => ?_
  have hlength : types.length < UInt64.size := htypes.1 ▸ length.toNat_lt
  obtain ⟨nodes, hnodes⟩ := forall₂_exists fun part hm => (htypes.2 part hm)
  have hrun : Build.params types variadic c.store =
      .ok ⟨c.store.paramSets.indexOf ⟨types, variadic⟩⟩ (c.store.withParams ⟨types, variadic⟩) := by
    rw [Build.params, Build.run_checkAll_bind,
      mapM_eq_ok.mpr (hnodes.imp fun _ _ hn => Store.node_eq_ok.mpr hn)]
    rfl
  refine .build hc.wellFormed (Build.keeps_params hlength variadic) ?_ ?_ fun set new hnew => ?_
  · rw [after, hrun]
    exact fun hl => hl.mono rfl (.refl _)
  · rw [outcome, hrun]
    exact .pure _
  · rw [hrun] at hnew
    cases hnew
    exact ⟨_, Store.paramSet_withParams _ _⟩

/-- A request over what the store holds gives a type that it holds. -/
theorem Harmless.request (request : TypeRequest) (hw : loading.store.WellFormed)
    (hr : request.Countable) (h : request.Given loading.store) :
    Harmless (Load.build request.run) Store.Holds loading := by
  refine .build hw (TypeRequest.keeps_run hr) (TypeRequest.labelled_run h)
    (TypeRequest.faultless_run hr hw h) ?_
  intro type new hrun
  obtain ⟨_, _, shape, _, hn, _⟩ := TypeRequest.run_spec hr hw hrun
  exact ⟨_, hn⟩

/-- A type built on the one that is read next. -/
theorem gives_derived (h : Gives type Store.Holds) (request : TypeId → TypeRequest)
    (hr : ∀ base, (request base).Countable)
    (hgiven : ∀ store base, Store.Holds store base → (request base).Given store) :
    Gives (do Load.build (request (← type)).run) Store.Holds := fun loading hw =>
  (h loading hw).bind fun base next hg hbase =>
    .request (request base) hg.wellFormed (hr base) (hgiven next.store base hbase)

/-- A class or enum of the path that is read next. -/
theorem gives_named (request : PathId → TypeRequest) (hr : ∀ name, (request name).Countable)
    (hgiven : ∀ store name, Store.Knows store name → (request name).Given store) :
    Gives (do Load.build (request (← path)).run) Store.Holds := fun loading hw =>
  (gives_path loading hw).bind fun name next hg hname =>
    .request (request name) hg.wellFormed (hr name) (hgiven next.store name hname)

theorem gives_fields (h : Gives type Store.Holds) (tag : ShapeTag) :
    Gives (fields type tag) Store.Holds := by
  have hbase := gives_derived h
  intro loading hw
  cases tag with
  | array =>
      refine (gives_count loading hw).bind fun count a ha _ => ?_
      exact hbase (.array · (.fixed count)) (fun _ => trivial) (fun _ _ => id) a ha.wellFormed
  | arrayIncomplete =>
      exact hbase (.array · .incomplete) (fun _ => trivial) (fun _ _ => id) loading hw
  | arrayVariable =>
      refine (gives_word loading hw).bind fun expr a ha _ => ?_
      exact hbase (.array · (.variable ⟨expr⟩)) (fun _ => trivial) (fun _ _ => id) a ha.wellFormed
  | arrayUnspecified =>
      exact hbase (.array · .unspecified) (fun _ => trivial) (fun _ _ => id) loading hw
  | bitfield =>
      refine (gives_word loading hw).bind fun bits a ha _ => ?_
      refine (gives_word a ha.wellFormed).bind fun offset b hb _ => ?_
      exact hbase (.bitfield · bits offset) (fun _ => trivial) (fun _ _ => id) b hb.wellFormed
  | pointer => exact hbase .pointer (fun _ => trivial) (fun _ _ => id) loading hw
  | leftRef => exact hbase .leftRef (fun _ => trivial) (fun _ _ => id) loading hw
  | rightRef => exact hbase .rightRef (fun _ => trivial) (fun _ _ => id) loading hw
  | function =>
      refine (h loading hw).bind fun ret a ha hret => ?_
      refine (gives_params h a ha.wellFormed).bind fun set b hb hset => ?_
      refine (gives_tagged b hb.wellFormed).bind fun conv c hc _ => ?_
      obtain ⟨params, hset⟩ := hset
      exact .request (.function ret set conv) hc.wellFormed trivial
        ⟨hret.mono (hb.trans hc).extends_, params, hc.extends_.paramSet hset⟩
  | memberFunction =>
      refine (h loading hw).bind fun owner a ha howner => ?_
      refine (h a ha.wellFormed).bind fun ret b hb hret => ?_
      refine (gives_params h b hb.wellFormed).bind fun set c hc hset => ?_
      refine (gives_tagged c hc.wellFormed).bind fun conv d hd _ => ?_
      obtain ⟨params, hset⟩ := hset
      exact .request (.memberFunction owner ret set conv) hd.wellFormed trivial
        ⟨howner.mono ((hb.trans hc).trans hd).extends_, hret.mono (hc.trans hd).extends_, params,
          hd.extends_.paramSet hset⟩
  | memberPointer =>
      refine (h loading hw).bind fun owner a ha howner => ?_
      refine (h a ha.wellFormed).bind fun base b hb hbase => ?_
      exact .request (.memberPointer owner base) hb.wellFormed trivial
        ⟨howner.mono hb.extends_, hbase⟩
  | tuple =>
      refine (gives_params h loading hw).bind fun set a ha hset => ?_
      exact .request (.tupleOf set) ha.wellFormed trivial hset
  | struct => exact gives_named (.classType · true) (fun _ => trivial) (fun _ _ => id) loading hw
  | union => exact gives_named (.classType · false) (fun _ => trivial) (fun _ _ => id) loading hw
  | enum => exact gives_named .enumType (fun _ => trivial) (fun _ _ => id) loading hw

theorem gives_unqualified (h : Gives type Store.Holds) (tag : String) :
    Gives (unqualified type tag) Store.Holds := by
  intro loading hw
  unfold unqualified
  split
  · exact gives_fields h _ loading hw
  · split
    · exact .pure hw ⟨_, hw.node?_builtin _⟩
    · exact .throw hw (.archive _)

/-- What follows the tag of a record: the fields and the qualifiers. -/
theorem gives_afterTag (h : Gives type Store.Holds) (tag : String) :
    Gives (do
      let plain ← unqualified type tag
      Load.build (Build.qualify plain (← qual))) Store.Holds := by
  intro loading hw
  refine (gives_unqualified h tag loading hw).bind fun plain a ha hplain => ?_
  refine (gives_qual a ha.wellFormed).bind fun own b hb hown => ?_
  obtain ⟨node, hn⟩ := hplain.mono hb.extends_
  have hrun : Build.qualify plain own b.store =
      .ok (b.store.idOf ⟨node.shape, own⟩) (b.store.withNode ⟨node.shape, own⟩) :=
    Build.run_qualify_eq_ok.mpr ⟨node, hn, rfl, rfl⟩
  refine .build hb.wellFormed (Build.keeps_qualify plain own) ?_ ?_ fun type new hnew => ?_
  · rw [after, hrun]
    exact fun hl => hl.withNode ⟨(hl plain node hn).shape, hown⟩
  · rw [outcome, hrun]
    exact .pure _
  · rw [hrun] at hnew
    cases hnew
    exact ⟨_, Store.node?_withNode _ _⟩

theorem gives_record (h : Gives type Store.Holds) : Gives (record type) Store.Holds :=
  fun loading hw => (gives_tag loading hw).bind fun tag next hg _ =>
    gives_afterTag h tag next hg.wellFormed

end Nested

theorem gives_typeUpTo (depth : Nat) : Gives (typeUpTo depth) Store.Holds := by
  induction depth with
  | zero => exact fun loading hw => .throw hw (.archive _)
  | succ depth ih => exact gives_record ih

/-- A record is read as a type of the store, or it is refused. -/
theorem gives_type : Gives type Store.Holds :=
  fun loading hw => by
    obtain ⟨hg, hl, hs, hf, hp⟩ := gives_typeUpTo loading.items.length loading hw
    exact ⟨hg, hl, hs, hf, hp⟩

/-! ### Tables -/

/-- A list is no longer than its count says. -/
theorem gives_list {element : Load α} (h : Gives element P)
    (hmono : ∀ old new a, old.WellFormed → old.Extends new → P old a → P new a) :
    Gives (list element) fun store as => as.length < UInt64.size ∧ ∀ a ∈ as, P store a := by
  intro loading hw
  refine (gives_count loading hw).bind fun count a ha _ => ?_
  obtain ⟨hg, hl, hs, hf, hp⟩ := gives_times h hmono count.toNat a ha.wellFormed
  refine ⟨hg, hl, hs, hf, fun as next hrun => ?_⟩
  obtain ⟨hlength, has⟩ := hp as next hrun
  exact ⟨hlength ▸ count.toNat_lt, has⟩

theorem gives_baseClass : Gives baseClass fun store base => store.Holds base.type := by
  intro loading hw
  refine (gives_type loading hw).bind fun type a ha htype => ?_
  refine (gives_tagged a ha.wellFormed).bind fun access b hb _ => ?_
  refine (gives_bool b hb.wellFormed).bind fun isVirtual c hc _ => ?_
  exact .pure hc.wellFormed (htype.mono (hb.trans hc).extends_)

/-- What follows the name of a member. -/
theorem gives_afterName (name : String) :
    Gives (do
      let type ← type
      let offset ← read .count
      let access ← read .tagged
      return (⟨name, type, offset, access, ← read .bool⟩ : Member String))
      fun store member => store.Holds member.type := by
  intro loading hw
  refine (gives_type loading hw).bind fun type a ha htype => ?_
  refine (gives_count a ha.wellFormed).bind fun offset b hb _ => ?_
  refine (gives_tagged b hb.wellFormed).bind fun access c hc _ => ?_
  refine (gives_bool c hc.wellFormed).bind fun flag d hd _ => ?_
  exact .pure hd.wellFormed (htype.mono ((hb.trans hc).trans hd).extends_)

theorem gives_member : Gives member fun store member => store.Holds member.type :=
  fun loading hw => (gives_str loading hw).bind fun name next hg _ =>
    gives_afterName name next hg.wellFormed

theorem gives_classDraft :
    Gives classDraft fun store draft => draft.OpenIn store ∧ draft.HeldBy store := by
  have hbases := gives_list gives_baseClass fun _ _ _ _ hext h => h.mono hext
  have hmembers := gives_list gives_member fun _ _ _ _ hext h => h.mono hext
  intro loading hw
  refine (gives_type loading hw).bind fun type a ha htype => ?_
  refine Harmless.bind (.query ha.wellFormed htype.openClass) fun draft b hb hopen => ?_
  have ho := hb.wellFormed.openIn_openClass hopen
  refine (hbases b hb.wellFormed).bind fun bases c hc hheld => ?_
  refine (hmembers c hc.wellFormed).bind fun data d hd hdata => ?_
  refine (hmembers d hd.wellFormed).bind fun functions e he hfunctions => ?_
  have ho' := ho.mono ((hc.trans hd).trans he).extends_ hb.wellFormed
  refine .pure he.wellFormed ⟨⟨ho'.owner, hheld.1, hdata.1, hfunctions.1⟩, ?_, ?_, hfunctions.2⟩
  · exact fun base hm => (hheld.2 base hm).mono (hd.trans he).extends_
  · exact fun member hm => (hdata.2 member hm).mono he.extends_

/-- Enumerators are added one at a time, under names that differ. -/
theorem harmless_enumerators {n : Nat} {draft : EnumDraft} {loading : Loading}
    (hw : loading.store.WellFormed) (ho : draft.OpenIn loading.store)
    (hl : draft.values.length + n < UInt64.size) :
    Harmless (enumerators draft n) (fun store draft => draft.OpenIn store) loading := by
  induction n generalizing draft loading with
  | zero => exact .pure hw ho
  | succ n ih =>
      refine (gives_str loading hw).bind fun name a ha _ => ?_
      refine (gives_signed a ha.wellFormed).bind fun value b hb _ => ?_
      cases hadd : draft.add name value with
      | error error => exact .throw hb.wellFormed (.refused error)
      | ok next =>
          have hnext : next.values.length = draft.values.length + 1 := by
            obtain ⟨_, rfl⟩ := EnumDraft.add_eq_ok_iff.mp hadd
            exact List.length_append
          have ho' := ho.mono (ha.trans hb).extends_ hw
          exact ih hb.wellFormed (ho'.add hadd (by omega)) (by omega)

theorem gives_enumDraft :
    Gives enumDraft fun store draft => draft.1.OpenIn store ∧ store.Holds draft.2 := by
  intro loading hw
  refine (gives_type loading hw).bind fun type a ha htype => ?_
  refine Harmless.bind (.query ha.wellFormed htype.openEnum) fun draft b hb hopen => ?_
  have ho := hb.wellFormed.openIn_openEnum hopen
  refine (gives_tagged b hb.wellFormed).bind fun flavor c hc _ => ?_
  refine (gives_type c hc.wellFormed).bind fun base d hd hbase => ?_
  refine (gives_count d hd.wellFormed).bind fun count e he _ => ?_
  obtain ⟨owner, _, _, rfl⟩ := Store.openEnum_eq_ok.mp hopen
  have ho' := ho.mono ((hc.trans hd).trans he).extends_ hb.wellFormed
  have hflavored : EnumDraft.OpenIn ⟨owner, flavor, []⟩ e.store :=
    ⟨ho'.owner, ho'.nodup, ho'.values⟩
  refine (harmless_enumerators he.wellFormed hflavored
    (lt_of_eq_of_lt (Nat.zero_add _) count.toNat_lt)).bind fun full f hf hfull => ?_
  exact .pure hf.wellFormed ⟨hfull, hbase.mono (he.trans hf).extends_⟩

/-- What follows the tag of a body. -/
theorem gives_afterBodyTag (tag : String) :
    Gives (do
      if tag = "class_body" then return OpenBody.ofClass (← classDraft)
      else if tag = "enum_body" then
        let (draft, base) ← enumDraft
        return .ofEnum draft base
      else throw (.archive (.unknownTag tag)))
      fun store body => body.OpenIn store ∧ body.HeldBy store := by
  intro loading hw
  split
  · exact (gives_classDraft loading hw).bind fun draft a ha hdraft => .pure ha.wellFormed hdraft
  · split
    · exact (gives_enumDraft loading hw).bind fun draft a ha hdraft => .pure ha.wellFormed hdraft
    · exact .throw hw (.archive _)

theorem gives_openBody :
    Gives openBody fun store body => body.OpenIn store ∧ body.HeldBy store :=
  fun loading hw => (gives_tag loading hw).bind fun tag next hg _ =>
    gives_afterBodyTag tag next hg.wellFormed

/-- What follows the first tag of tables: the declarations and the bodies. -/
theorem gives_afterDecls :
    Gives (do
      let _ ← list type
      read (.exactTag "bodies")
      list openBody)
      fun store bodies => ∀ body ∈ bodies, body.OpenIn store ∧ body.HeldBy store := by
  intro loading hw
  refine (gives_list gives_type holds_mono loading hw).bind fun _ a ha _ => ?_
  refine (gives_exactTag "bodies" a ha.wellFormed).bind fun _ b hb _ => ?_
  have hbodies := gives_list gives_openBody fun _ _ _ hold hext h =>
    ⟨h.1.mono hext hold, h.2.mono hext⟩
  obtain ⟨hg, hl, hs, hf, hp⟩ := hbodies b hb.wellFormed
  exact ⟨hg, hl, hs, hf, fun bodies next hrun => (hp bodies next hrun).2⟩

/-- Tables are read as bodies that are open in the store and over types of it, or are refused. -/
theorem gives_tables :
    Gives tables fun store bodies => ∀ body ∈ bodies, body.OpenIn store ∧ body.HeldBy store :=
  fun loading hw => (gives_exactTag "decls" loading hw).bind fun _ next hg _ =>
    gives_afterDecls next hg.wellFormed

end Load

end TypeGraph
