import TypeGraph.Proofs.Normalizing
import TypeGraph.Proofs.Porting

/-!
What readers accept. Main statement: if a type is read from items that may be anything, the items
taken are the record of a type written out in full, and the type that is given is written like that
one, but for the qualifiers of the classes of members, which are dropped
(`Store.Reachable.save_loaded`).
-/

namespace TypeGraph

variable {α β : Type}

/-! ### Single items -/

/-- A reader that gives something takes one item, by which it is known. -/
theorem ItemReader.take_eq_ok {expected : String} {read : Item → Option α} {items rest : List Item}
    {a : α} (h : ItemReader.take expected read items = .ok a rest) :
    ∃ item, items = item :: rest ∧ read item = some a := by
  obtain ⟨_, _, ⟨⟩, h⟩ := run_bind_eq_ok.mp h
  cases items with
  | nil => cases h
  | cons item items =>
      obtain ⟨_, _, ⟨⟩, h⟩ := run_bind_eq_ok.mp h
      cases hread : read item with
      | none =>
          simp only [hread] at h
          cases h
      | some b =>
          simp only [hread] at h
          cases h
          exact ⟨item, rfl, hread⟩

namespace Load

variable {old mid new : Loading} {front back : Output} {type : TypeId}

/-- What was written is taken off the items, and the store only grows. -/
structure Took (old : Loading) (written : Output) (new : Loading) : Prop where
  grows : old.store.Grows new.store
  stop : written.stop = none
  items : old.items = written.items ++ new.items

theorem Took.refl (hw : old.store.WellFormed) : Took old .empty old := ⟨hw.grows, rfl, rfl⟩

theorem Took.trans (hf : Took old front mid) (hb : Took mid back new) :
    Took old (front ++ back) new where
  grows := hf.grows.trans hb.grows
  stop := Output.stop_append.mpr ⟨hf.stop, hb.stop⟩
  items := by rw [Output.items_append hf.stop, List.append_assoc, ← hb.items, hf.items]

theorem Took.wellFormed (h : Took old front new) : new.store.WellFormed := h.grows.wellFormed

/-- The last step may take nothing. -/
theorem Took.last (hf : Took old front mid) (hb : Took mid .empty new) : Took old front new := by
  simpa only [Output.append_empty] using hf.trans hb

/-- A reader of one item takes the item that is written for what it gives. -/
theorem took_item {reader : ItemReader α} {a : α} {item : Item} (hw : old.store.WellFormed)
    (hr : ∀ items rest, reader items = .ok a rest → items = item :: rest)
    (h : read reader old = .ok a new) : Took old (.item item) new := by
  unfold read at h
  cases hrun : reader old.items with
  | error error rest =>
      rw [hrun] at h
      cases h
  | ok b rest =>
      rw [hrun] at h
      cases h
      exact ⟨hw.grows, rfl, hr _ _ hrun⟩

/-- An item is taken that is read as what is given, and no other item is. -/
theorem took_take {expected : String} {find : Item → Option α} {a : α} {item : Item}
    (hw : old.store.WellFormed) (hfind : ∀ other, find other = some a → other = item)
    (h : read (.take expected find) old = .ok a new) : Took old (.item item) new := by
  refine took_item hw (fun items rest hrun => ?_) h
  obtain ⟨other, rfl, hother⟩ := ItemReader.take_eq_ok hrun
  rw [hfind other hother]

theorem took_tag {text : String} (hw : old.store.WellFormed) (h : read .tag old = .ok text new) :
    Took old (.tag text) new := by
  refine took_take hw (fun item hitem => ?_) h
  cases item <;> cases hitem
  rfl

theorem took_bool {value : Bool} (hw : old.store.WellFormed) (h : read .bool old = .ok value new) :
    Took old (.bool value) new := by
  refine took_take hw (fun item hitem => ?_) h
  cases item <;> cases hitem
  rfl

theorem took_count {value : Count} (hw : old.store.WellFormed)
    (h : read .count old = .ok value new) : Took old (.count value) new := by
  refine took_take hw (fun item hitem => ?_) h
  cases item <;> cases hitem
  rfl

theorem took_key {texts : List String} (hw : old.store.WellFormed)
    (h : read .key old = .ok texts new) : Took old (.key (.ok texts)) new := by
  refine took_take hw (fun item hitem => ?_) h
  cases item <;> cases hitem
  rfl

/-- A number that fits in 32 bits is the only one that is cut to what it is cut to. -/
theorem took_word {value : UInt32} (hw : old.store.WellFormed)
    (h : read .word old = .ok value new) : Took old (.word value) new := by
  refine took_item hw (fun items rest hrun => ?_) h
  obtain ⟨wide, _, hcount, hcut⟩ := run_bind_eq_ok.mp hrun
  obtain ⟨item, rfl, hitem⟩ := ItemReader.take_eq_ok hcount
  cases item <;> cases hitem
  split at hcut
  next hlt =>
      cases hcut
      have hwide : wide.toUInt32.toUInt64 = wide := by
        apply UInt64.toNat_inj.mp
        simpa using hlt
      rw [hwide]
  next => cases hcut

theorem took_tagged [Tagged α] {a : α} (hw : old.store.WellFormed)
    (h : read .tagged old = .ok a new) : Took old (.str (Tagged.tag a)) new := by
  refine took_item hw (fun items rest hrun => ?_) h
  obtain ⟨text, _, hstr, hmember⟩ := run_bind_eq_ok.mp hrun
  obtain ⟨item, rfl, hitem⟩ := ItemReader.take_eq_ok hstr
  cases item <;> cases hitem
  cases htag : Tagged.ofTag? (α := α) text with
  | none =>
      rw [htag] at hmember
      cases hmember
  | some b =>
      rw [htag] at hmember
      cases hmember
      rw [Tagged.tag_of_ofTag? htag]

/-! ### Names and qualifiers -/

/-- What a request does to the store takes no items. -/
theorem took_build {request : Build α} {a : α} (hw : old.store.WellFormed)
    (hk : Keeps Store.Safe request) (h : build request old = .ok a new) :
    Took old .empty new ∧ request old.store = .ok a new.store := by
  unfold build at h
  cases hrun : request old.store with
  | error failure store =>
      rw [hrun] at h
      cases h
  | ok b store =>
      rw [hrun] at h
      cases h
      exact ⟨⟨hk.of_ok hrun hw, rfl, rfl⟩, rfl⟩

/-- A path is read from its texts. -/
theorem took_path {name : PathId} (hw : old.store.WellFormed) (h : path old = .ok name new) :
    ∃ texts, Took old (.key (.ok texts)) new ∧ new.store.pathName name = .ok texts := by
  obtain ⟨texts, mid, hkey, hrun⟩ := run_bind_eq_ok.mp h
  have hkey := took_key hw hkey
  obtain ⟨hbuild, hrun⟩ := took_build hkey.wellFormed (Build.keeps_path texts) hrun
  obtain ⟨_, _, hrun', _, hname, _⟩ := hkey.wellFormed.run_path texts
  rw [hrun] at hrun'
  cases hrun'
  exact ⟨texts, hkey.last hbuild, hname⟩

theorem took_space {own : Space PathId} (hw : old.store.WellFormed)
    (h : space old = .ok own new) :
    ∃ written : Space PathName, Took old written.record new ∧
      (∀ name, written.name = some name → PathName.Known name) ∧
      own.map new.store.pathName = written := by
  obtain ⟨storage, mid, hstorage, h⟩ := run_bind_eq_ok.mp h
  have hstorage := took_tagged hw hstorage
  cases hp : storage.isPlaceholder with
  | true =>
      simp only [hp, if_true] at h
      cases h
  | false =>
      simp only [hp, Bool.false_eq_true, if_false] at h
      cases hd : storage.isDeclarable with
      | true =>
          simp only [hd, if_true] at h
          obtain ⟨name, last, hname, h⟩ := run_bind_eq_ok.mp h
          cases h
          obtain ⟨texts, hpath, htexts⟩ := took_path hstorage.wellFormed hname
          have hrecord : Space.record ⟨storage, some (.ok texts)⟩ =
              .str storage.tag ++ .key (.ok texts) := by
            simp only [Space.record, hp, hd, Bool.false_eq_true, if_false, if_true,
              Option.getD_some]
          refine ⟨⟨storage, some (.ok texts)⟩, hrecord ▸ hstorage.trans hpath, ?_, ?_⟩
          · rintro _ ⟨⟩
            exact ⟨texts, rfl⟩
          · simp only [Space.map, Space.declared, hd, if_true, Option.map_some, htexts]
      | false =>
          simp only [hd, Bool.false_eq_true, if_false] at h
          cases h
          have hrecord : Space.record ⟨storage, none⟩ = .str storage.tag := by
            simp only [Space.record, hp, hd, Bool.false_eq_true, if_false]
          refine ⟨⟨storage, none⟩, hrecord ▸ hstorage, by simp, ?_⟩
          simp [Space.map, Space.ofStorage, Space.declared, hd]

theorem took_qual {own : Qual PathId} (hw : old.store.WellFormed) (h : qual old = .ok own new) :
    ∃ written : Qual PathName, Took old written.record new ∧
      (∀ name, written.space.name = some name → PathName.Known name) ∧
      own.map new.store.pathName = written := by
  obtain ⟨space, a, hspace, h⟩ := run_bind_eq_ok.mp h
  obtain ⟨isAtomic, b, hatomic, h⟩ := run_bind_eq_ok.mp h
  obtain ⟨isConst, c, hconst, h⟩ := run_bind_eq_ok.mp h
  obtain ⟨isRestrict, d, hrestrict, h⟩ := run_bind_eq_ok.mp h
  obtain ⟨isVolatile, e, hvolatile, h⟩ := run_bind_eq_ok.mp h
  cases h
  obtain ⟨written, hspace, hknown, hwrites⟩ := took_space hw hspace
  have hatomic := took_bool hspace.wellFormed hatomic
  have hconst := took_bool hatomic.wellFormed hconst
  have hrestrict := took_bool hconst.wellFormed hrestrict
  have hvolatile := took_bool hrestrict.wellFormed hvolatile
  have hflags := ((hatomic.trans hconst).trans hrestrict).trans hvolatile
  refine ⟨⟨written, isAtomic, isConst, isRestrict, isVolatile⟩,
    (((hspace.trans hatomic).trans hconst).trans hrestrict).trans hvolatile, hknown, ?_⟩
  refine hflags.grows.extends_.map_pathName hknown ?_
  simp only [Qual.map, hwrites]

/-! ### Types -/

/-- A type was read: the items taken are the record of `read`, and the type is that one as it is
read. -/
structure Gave (old : Loading) (type : TypeId) (new : Loading) (read : Tree) : Prop where
  took : Took old read.record new
  unfolds : new.store.tree type = .ok read.normal
  named : read.normal.Named

/-- A reader takes nothing but records, and gives their types as they are read. -/
def Normalizes (m : Load TypeId) : Prop :=
  ∀ old new type, old.store.WellFormed → m old = .ok type new → ∃ read, Gave old type new read

/-- A type is still written in the same way when more was read. -/
theorem Gave.mono {read : Tree} (h : Gave old type mid read) (ht : Took mid back new) :
    new.store.tree type = .ok read.normal :=
  ht.grows.tree h.took.wellFormed h.named h.unfolds

variable {m : Load TypeId}

theorem Normalizes.times (hm : Normalizes m) {n : Nat} {types : List TypeId} :
    ∀ {old new : Loading}, old.store.WellFormed → times m n old = .ok types new →
      ∃ reads : List Tree, reads.length = n ∧ Took old (Tree.recordAll reads) new ∧
        List.Forall₂ (fun type read => new.store.tree type = .ok (Tree.normal read)) types reads ∧
        ∀ read ∈ reads, read.normal.Named := by
  induction n generalizing types with
  | zero =>
      intro old new hw h
      cases h
      exact ⟨[], rfl, .refl hw, .nil, by simp⟩
  | succ n ih =>
      intro old new hw h
      obtain ⟨type, mid, hfirst, h⟩ := run_bind_eq_ok.mp h
      obtain ⟨rest, last, hrest, h⟩ := run_bind_eq_ok.mp h
      cases h
      obtain ⟨read, hread⟩ := hm _ _ _ hw hfirst
      obtain ⟨reads, hlength, htook, htrees, hnamed⟩ := ih hread.took.wellFormed hrest
      refine ⟨read :: reads, by rw [List.length_cons, hlength], hread.took.trans htook,
        .cons (hread.mono htook) htrees, ?_⟩
      exact List.forall_mem_cons.mpr ⟨hread.named, hnamed⟩

/-- A parameter list was read: the items taken are those of `reads`, and the list has these types as
they are read. -/
structure GaveParams (old : Loading) (set : ParamSetId) (new : Loading) (list : ParamSet)
    (reads : Params Tree) : Prop where
  took : Took old (Tree.recordParams reads) new
  lists : new.store.paramSet set = .ok list
  unfolds : Params.Rel (fun type tree => new.store.tree type = .ok tree) list
    (Tree.normalParams reads)
  named : ∀ tree ∈ (Tree.normalParams reads).types, tree.Named

/-- A parameter list is still the same when more was read. -/
theorem GaveParams.mono {set : ParamSetId} {list : ParamSet} {reads : Params Tree}
    (h : GaveParams old set mid list reads) (ht : Took mid back new) :
    new.store.paramSet set = .ok list ∧
      Params.Rel (fun type tree => new.store.tree type = .ok tree) list (Tree.normalParams reads) := by
  refine ⟨ht.grows.extends_.paramSet h.lists, ?_, h.unfolds.variadic⟩
  refine (forall₂_mem_right h.unfolds.types).imp fun part tree hp => ?_
  exact ht.grows.tree h.took.wellFormed (h.named tree hp.1) hp.2

theorem Normalizes.params (hm : Normalizes m) {set : ParamSetId} (hw : old.store.WellFormed)
    (h : params m old = .ok set new) : ∃ list reads, GaveParams old set new list reads := by
  obtain ⟨length, a, hlength, h⟩ := run_bind_eq_ok.mp h
  obtain ⟨variadic, b, hvariadic, h⟩ := run_bind_eq_ok.mp h
  obtain ⟨types, c, htypes, h⟩ := run_bind_eq_ok.mp h
  have hlength := took_count hw hlength
  have hvariadic := took_bool hlength.wellFormed hvariadic
  obtain ⟨reads, hcount, htypes, htrees, hnamed⟩ := hm.times hvariadic.wellFormed htypes
  have hshort : types.length < UInt64.size := by
    rw [htrees.length_eq, hcount]
    exact length.toNat_lt
  obtain ⟨hbuild, hrun⟩ := took_build htypes.wellFormed (Build.keeps_params hshort variadic) h
  have hnamed' : ∀ tree ∈ reads.map Tree.normal, tree.Named := by simpa using hnamed
  have hlist : Params.Rel (fun type tree => c.store.tree type = .ok tree) ⟨types, variadic⟩
      (Tree.normalParams ⟨reads, variadic⟩) := ⟨List.forall₂_map_right_iff.mpr htrees, rfl⟩
  obtain ⟨_, _, hrun', _, hset, hrel, _⟩ := htypes.wellFormed.run_params hshort hlist hnamed'
  rw [hrun] at hrun'
  cases hrun'
  refine ⟨_, ⟨reads, variadic⟩, ?_, hset, hrel, hnamed'⟩
  have hwritten : Output.length reads = .count length := by
    rw [Output.length, hcount, UInt64.ofNat_toNat]
  rw [Tree.recordParams, hwritten]
  exact ((hlength.trans hvariadic).trans htypes).last hbuild

/-- The fields of a shape were read: what was taken are those of `shape`, and the type is of that
shape as it is read. -/
structure GaveShape (old : Loading) (type : TypeId) (new : Loading) (shape : TreeShape) : Prop where
  took : Took old (Tree.recordFields shape) new
  unfolds : new.store.tree type = .ok ⟨Tree.normalShape shape, Qual.none⟩
  named : Tree.Named ⟨Tree.normalShape shape, Qual.none⟩

/-- Once the parts are read, the request for the shape comes last. -/
theorem gaveShape_of_request {shape : TreeShape} (request : TypeRequest) (hr : request.Countable)
    (htook : Took old (Tree.recordFields shape) mid)
    (hwant : ∀ wanted, request.wanted mid.store = .ok wanted →
      mid.store.Unfolds wanted (Tree.normalShape shape))
    (hparts : ∀ part ∈ TreeShape.parts (Tree.normalShape shape), part.Named)
    (hname : ∀ name, (Tree.normalShape shape).name? = some name → PathName.Known name)
    (h : build request.run mid = .ok type new) : GaveShape old type new shape := by
  have hw := htook.wellFormed
  obtain ⟨hbuild, hrun⟩ := took_build hw (TypeRequest.keeps_run hr) h
  obtain ⟨_, wanted, _, hwanted, _⟩ := TypeRequest.run_spec hr hw hrun
  obtain ⟨_, _, hrun', _, htree, _⟩ := hw.run_request hr hwanted (hwant wanted hwanted) hparts hname
  rw [hrun] at hrun'
  cases hrun'
  exact ⟨htook.last hbuild, htree, .mk ⟨hname, by simp [Qual.none, Space.generic]⟩ hparts⟩

/-- A shape built on one other type, whose record comes last. -/
theorem Normalizes.derived (hm : Normalizes m) (shape : Tree → TreeShape)
    (request : TypeId → TypeRequest) (wanted : TypeId → WantedShape)
    (hr : ∀ type, (request type).Countable) (hfront : Took old front mid)
    (hfields : ∀ base, Tree.recordFields (shape base) = front ++ base.record)
    (hparts : ∀ base, TreeShape.parts (Tree.normalShape (shape base)) = [base.normal])
    (hname : ∀ base, (Tree.normalShape (shape base)).name? = none)
    (hwant : ∀ store type, (request type).wanted store = (do
      let _ ← store.node type
      return wanted type))
    (hu : ∀ store type base, Store.tree store type = .ok (Tree.normal base) →
      store.Unfolds (wanted type) (Tree.normalShape (shape base)))
    (h : (do build (request (← m)).run) mid = .ok type new) :
    ∃ base, GaveShape old type new (shape base) := by
  obtain ⟨part, last, hbase, h⟩ := run_bind_eq_ok.mp h
  obtain ⟨base, hbase⟩ := hm _ _ _ hfront.wellFormed hbase
  have htook : Took old (Tree.recordFields (shape base)) last := by
    rw [hfields]
    exact hfront.trans hbase.took
  refine ⟨base, gaveShape_of_request (request part) (hr part) htook ?_ ?_ (by simp [hname]) h⟩
  · intro asked hasked
    rw [hwant, bind_eq_ok] at hasked
    obtain ⟨_, _, ⟨⟩⟩ := hasked
    exact hu _ _ _ hbase.unfolds
  · rw [hparts]
    simpa using hbase.named

theorem Normalizes.array (hm : Normalizes m) (extent : Extent)
    (hfront : Took old extent.recordCount mid)
    (h : (do build (Build.array (← m) extent)) mid = .ok type new) :
    ∃ base, GaveShape old type new (.array base extent) :=
  hm.derived (.array · extent) (.array · extent) (.array · extent) (fun _ => trivial) hfront
    (fun _ => rfl) (fun _ => rfl) (fun _ => rfl) (fun _ _ => rfl)
    (fun _ _ _ hbase => .array extent hbase) h

theorem Normalizes.function (hm : Normalizes m) (hw : old.store.WellFormed)
    (h : fields m .function old = .ok type new) :
    ∃ ret params conv, GaveShape old type new (.function ret params conv) := by
  obtain ⟨part, a, hret, h⟩ := run_bind_eq_ok.mp h
  obtain ⟨set, b, hparams, h⟩ := run_bind_eq_ok.mp h
  obtain ⟨conv, c, hconv, h⟩ := run_bind_eq_ok.mp h
  obtain ⟨ret, hret⟩ := hm _ _ _ hw hret
  obtain ⟨list, reads, hparams⟩ := hm.params hret.took.wellFormed hparams
  have hconv := took_tagged hparams.took.wellFormed hconv
  have hlater := hparams.took.trans hconv
  obtain ⟨hset, hlist⟩ := hparams.mono hconv
  refine ⟨ret, reads, conv, gaveShape_of_request (.function part set conv) trivial
    (hret.took.trans hlater) ?_ ?_ ?_ h⟩
  · intro wanted hwanted
    simp only [TypeRequest.wanted, bind_eq_ok, pure_eq_ok, hset] at hwanted
    obtain ⟨_, _, _, ⟨⟩, rfl⟩ := hwanted
    rw [Tree.normalShape_function]
    exact .function conv (hret.mono hlater) hlist
  · rw [Tree.normalShape_function]
    exact List.forall_mem_cons.mpr ⟨hret.named, hparams.named⟩
  · simp [Tree.normalShape_function, Shape.name?]

theorem Normalizes.memberFunction (hm : Normalizes m) (hw : old.store.WellFormed)
    (h : fields m .memberFunction old = .ok type new) :
    ∃ owner ret params conv, GaveShape old type new (.memberFunction owner ret params conv) := by
  obtain ⟨class_, a, howner, h⟩ := run_bind_eq_ok.mp h
  obtain ⟨part, b, hret, h⟩ := run_bind_eq_ok.mp h
  obtain ⟨set, c, hparams, h⟩ := run_bind_eq_ok.mp h
  obtain ⟨conv, d, hconv, h⟩ := run_bind_eq_ok.mp h
  obtain ⟨owner, howner⟩ := hm _ _ _ hw howner
  obtain ⟨ret, hret⟩ := hm _ _ _ howner.took.wellFormed hret
  obtain ⟨list, reads, hparams⟩ := hm.params hret.took.wellFormed hparams
  have hconv := took_tagged hparams.took.wellFormed hconv
  have hlater := hparams.took.trans hconv
  obtain ⟨hset, hlist⟩ := hparams.mono hconv
  refine ⟨owner, ret, reads, conv, gaveShape_of_request (.memberFunction class_ part set conv)
    trivial (howner.took.trans (hret.took.trans hlater)) ?_ ?_ ?_ h⟩
  · intro wanted hwanted
    simp only [TypeRequest.wanted, bind_eq_ok, pure_eq_ok, hset] at hwanted
    obtain ⟨_, hplain, _, _, _, ⟨⟩, rfl⟩ := hwanted
    rw [Tree.normalShape_memberFunction]
    have hclass := howner.mono (hret.took.trans hlater)
    exact .memberFunction conv (hlater.wellFormed.tree_classOwner hclass hplain)
      (hret.mono hlater) hlist
  · rw [Tree.normalShape_memberFunction]
    exact List.forall_mem_cons.mpr ⟨Tree.named_plain howner.named,
      List.forall_mem_cons.mpr ⟨hret.named, hparams.named⟩⟩
  · simp [Tree.normalShape_memberFunction, Shape.name?]

theorem Normalizes.memberPointer (hm : Normalizes m) (hw : old.store.WellFormed)
    (h : fields m .memberPointer old = .ok type new) :
    ∃ owner base, GaveShape old type new (.memberPointer owner base) := by
  obtain ⟨class_, a, howner, h⟩ := run_bind_eq_ok.mp h
  obtain ⟨part, b, hbase, h⟩ := run_bind_eq_ok.mp h
  obtain ⟨owner, howner⟩ := hm _ _ _ hw howner
  obtain ⟨base, hbase⟩ := hm _ _ _ howner.took.wellFormed hbase
  refine ⟨owner, base, gaveShape_of_request (.memberPointer class_ part) trivial
    (howner.took.trans hbase.took) ?_ ?_ (by simp [Tree.normalShape, Shape.name?]) h⟩
  · intro wanted hwanted
    simp only [TypeRequest.wanted, bind_eq_ok, pure_eq_ok] at hwanted
    obtain ⟨_, hplain, _, _, rfl⟩ := hwanted
    have hclass := howner.mono hbase.took
    exact .memberPointer (hbase.took.wellFormed.tree_classOwner hclass hplain) hbase.unfolds
  · exact List.forall_mem_cons.mpr ⟨Tree.named_plain howner.named,
      List.forall_mem_cons.mpr ⟨hbase.named, by simp⟩⟩

theorem Normalizes.tuple (hm : Normalizes m) (hw : old.store.WellFormed)
    (h : fields m .tuple old = .ok type new) :
    ∃ params, GaveShape old type new (.tuple params) := by
  obtain ⟨set, a, hparams, h⟩ := run_bind_eq_ok.mp h
  obtain ⟨list, reads, hparams⟩ := hm.params hw hparams
  refine ⟨reads, gaveShape_of_request (.tupleOf set) trivial hparams.took ?_ ?_ ?_ h⟩
  · intro wanted hwanted
    simp only [TypeRequest.wanted, bind_eq_ok, hparams.lists] at hwanted
    obtain ⟨_, ⟨⟩, hwanted⟩ := hwanted
    -- A list with more parameters to come is no tuple.
    split at hwanted
    · cases hwanted
    · cases hwanted
      rw [Tree.normalShape_tuple]
      exact .tuple hparams.unfolds
  · rw [Tree.normalShape_tuple]
    exact hparams.named
  · simp [Tree.normalShape_tuple, Shape.name?]

theorem gave_classType {isStruct : Bool} (hw : old.store.WellFormed)
    (h : (do build (Build.classType (← path) isStruct)) old = .ok type new) :
    ∃ name, GaveShape old type new (.classType name isStruct) := by
  obtain ⟨name, mid, hname, h⟩ := run_bind_eq_ok.mp h
  obtain ⟨texts, htook, htexts⟩ := took_path hw hname
  refine ⟨.ok texts, gaveShape_of_request (.classType name isStruct) trivial htook ?_
    (by simp [Tree.normalShape, TreeShape.parts]) ?_ h⟩
  · rintro wanted ⟨⟩
    exact .classType isStruct htexts
  · rintro _ ⟨⟩
    exact ⟨texts, rfl⟩

theorem gave_enumType (hw : old.store.WellFormed)
    (h : (do build (Build.enumType (← path))) old = .ok type new) :
    ∃ name, GaveShape old type new (.enumType name) := by
  obtain ⟨name, mid, hname, h⟩ := run_bind_eq_ok.mp h
  obtain ⟨texts, htook, htexts⟩ := took_path hw hname
  refine ⟨.ok texts, gaveShape_of_request (.enumType name) trivial htook ?_
    (by simp [Tree.normalShape, TreeShape.parts]) ?_ h⟩
  · rintro wanted ⟨⟩
    exact .enumType htexts
  · rintro _ ⟨⟩
    exact ⟨texts, rfl⟩

/-- Whatever the tag is, what follows it are the fields of a shape with that tag. -/
theorem Normalizes.fields (hm : Normalizes m) (tag : ShapeTag) (hw : old.store.WellFormed)
    (h : fields m tag old = .ok type new) :
    ∃ shape, Tree.head shape = tag.tag ∧ GaveShape old type new shape := by
  cases tag with
  | array =>
      obtain ⟨count, mid, hcount, h⟩ := run_bind_eq_ok.mp h
      obtain ⟨base, hg⟩ := hm.array (.fixed count) (took_count hw hcount) h
      exact ⟨_, rfl, hg⟩
  | arrayIncomplete =>
      obtain ⟨base, hg⟩ := hm.array .incomplete (.refl hw) h
      exact ⟨_, rfl, hg⟩
  | arrayVariable =>
      obtain ⟨expr, mid, hexpr, h⟩ := run_bind_eq_ok.mp h
      obtain ⟨base, hg⟩ := hm.array (.variable ⟨expr⟩) (took_word hw hexpr) h
      exact ⟨_, rfl, hg⟩
  | arrayUnspecified =>
      obtain ⟨base, hg⟩ := hm.array .unspecified (.refl hw) h
      exact ⟨_, rfl, hg⟩
  | bitfield =>
      obtain ⟨bits, a, hbits, h⟩ := run_bind_eq_ok.mp h
      obtain ⟨offset, b, hoffset, h⟩ := run_bind_eq_ok.mp h
      have hbits := took_word hw hbits
      have hoffset := took_word hbits.wellFormed hoffset
      obtain ⟨base, hg⟩ := hm.derived (.bitfield · bits offset) (.bitfield · bits offset)
        (.bitfield · bits offset) (fun _ => trivial) (hbits.trans hoffset)
        (fun _ => (Output.append_assoc _ _ _).symm) (fun _ => rfl) (fun _ => rfl) (fun _ _ => rfl)
        (fun _ _ _ hbase => .bitfield bits offset hbase) h
      exact ⟨_, rfl, hg⟩
  | pointer =>
      obtain ⟨base, hg⟩ := hm.derived .pointer .pointer .pointer (fun _ => trivial) (.refl hw)
        (fun _ => rfl) (fun _ => rfl) (fun _ => rfl) (fun _ _ => rfl)
        (fun _ _ _ hbase => .pointer hbase) h
      exact ⟨_, rfl, hg⟩
  | leftRef =>
      obtain ⟨base, hg⟩ := hm.derived .leftRef .leftRef .leftRef (fun _ => trivial) (.refl hw)
        (fun _ => rfl) (fun _ => rfl) (fun _ => rfl) (fun _ _ => rfl)
        (fun _ _ _ hbase => .leftRef hbase) h
      exact ⟨_, rfl, hg⟩
  | rightRef =>
      obtain ⟨base, hg⟩ := hm.derived .rightRef .rightRef .rightRef (fun _ => trivial) (.refl hw)
        (fun _ => rfl) (fun _ => rfl) (fun _ => rfl) (fun _ _ => rfl)
        (fun _ _ _ hbase => .rightRef hbase) h
      exact ⟨_, rfl, hg⟩
  | function =>
      obtain ⟨ret, params, conv, hg⟩ := hm.function hw h
      exact ⟨_, rfl, hg⟩
  | memberFunction =>
      obtain ⟨owner, ret, params, conv, hg⟩ := hm.memberFunction hw h
      exact ⟨_, rfl, hg⟩
  | memberPointer =>
      obtain ⟨owner, base, hg⟩ := hm.memberPointer hw h
      exact ⟨_, rfl, hg⟩
  | tuple =>
      obtain ⟨params, hg⟩ := hm.tuple hw h
      exact ⟨_, rfl, hg⟩
  | struct | union =>
      obtain ⟨name, hg⟩ := gave_classType hw h
      exact ⟨_, rfl, hg⟩
  | enum =>
      obtain ⟨name, hg⟩ := gave_enumType hw h
      exact ⟨_, rfl, hg⟩

theorem Normalizes.unqualified (hm : Normalizes m) {tag : String} (hw : old.store.WellFormed)
    (h : unqualified m tag old = .ok type new) :
    ∃ shape, Tree.head shape = tag ∧ GaveShape old type new shape := by
  cases hshape : Tagged.ofTag? (α := ShapeTag) tag with
  | some tag' =>
      simp only [Load.unqualified, hshape] at h
      obtain ⟨shape, hhead, hg⟩ := hm.fields tag' hw h
      exact ⟨shape, hhead.trans (Tagged.tag_of_ofTag? hshape), hg⟩
  | none =>
      cases hbuiltin : Tagged.ofTag? (α := Builtin) tag with
      | some builtin =>
          simp only [Load.unqualified, hshape, hbuiltin] at h
          cases h
          refine ⟨.builtin builtin, Tagged.tag_of_ofTag? hbuiltin, .refl hw, ?_, ?_⟩
          · exact hw.tree_eq_ok.mpr ⟨.builtin builtin, .none, ⟨_, hw.node?_builtin builtin,
              Store.spelling_eq_ok.mpr (.builtin builtin)⟩, .builtin builtin, rfl⟩
          · exact .mk ⟨by simp [Tree.normalShape, Shape.name?], by simp [Qual.none, Space.generic]⟩
              (by simp [Tree.normalShape, TreeShape.parts])
      | none =>
          simp only [Load.unqualified, hshape, hbuiltin] at h
          cases h

/-- If the records inside it are read as they should be, so is the record itself. -/
theorem Normalizes.record (hm : Normalizes m) : Normalizes (record m) := by
  intro old new type hw h
  obtain ⟨tag, a, htag, h⟩ := run_bind_eq_ok.mp h
  obtain ⟨plain, b, hplain, h⟩ := run_bind_eq_ok.mp h
  obtain ⟨own, c, hqual, hlast⟩ := run_bind_eq_ok.mp h
  have htag := took_tag hw htag
  obtain ⟨shape, rfl, hshape⟩ := hm.unqualified htag.wellFormed hplain
  have hw' := hshape.took.wellFormed
  obtain ⟨written, hqual, hknown, hwrites⟩ := took_qual hw' hqual
  obtain ⟨hbuild, hrun⟩ := took_build hqual.wellFormed (Build.keeps_qualify plain own) hlast
  have hnamed : Tree.Named ⟨Tree.normalShape shape, written⟩ := by
    cases hshape.named with
    | mk own parts => exact .mk ⟨own.name, hknown⟩ parts
  have hunfolds := hqual.grows.tree hw' hshape.named hshape.unfolds
  obtain ⟨_, _, hrun', _, htree, _⟩ := hqual.wellFormed.run_qualify hunfolds hnamed hwrites
  rw [hrun] at hrun'
  cases hrun'
  refine ⟨⟨shape, written⟩, ?_, htree, hnamed⟩
  rw [Tree.record_eq]
  exact ((htag.trans hshape.took).trans hqual).last hbuild

theorem normalizes_typeUpTo (depth : Nat) : Normalizes (typeUpTo depth) := by
  induction depth with
  | zero =>
      intro old new type _ h
      cases h
  | succ depth ih => exact ih.record

theorem normalizes_type : Normalizes Load.type := fun old new type hw h =>
  normalizes_typeUpTo old.items.length old new type hw h

end Load

namespace Store

variable {store new : Store}

/-- If a type is read from items that may be anything, the items taken are the record of a type
written out in full. The type that is given has a signature and is written as that one, but the
classes that have members are written without qualifiers. So it is written as it was read if those
had none. -/
theorem Reachable.save_loaded (hr : store.Reachable) {items rest : List Item} {type : TypeId}
    (h : Load.type ⟨store, items⟩ = .ok type ⟨new, rest⟩) :
    ∃ (read : Tree) (taken written : List Item) (signature : String), items = taken ++ rest ∧
      read.record = ⟨taken, none⟩ ∧ read.normal.record = ⟨written, none⟩ ∧
      new.save type = ⟨written, none⟩ ∧ new.signature type = .ok signature ∧
      (read.PlainOwners → written = taken) := by
  obtain ⟨read, htook, htree, hnamed⟩ := Load.normalizes_type _ _ _ hr.wellFormed h
  have hstop := Tree.stop_record_normal read htook.stop
  obtain ⟨signature, hsignature⟩ := Signature.ofTree_ok hnamed hstop
  refine ⟨read, read.record.items, read.normal.record.items, signature, htook.items, ?_, ?_, ?_, ?_,
    fun hp => by rw [hp.record_normal]⟩
  · rw [← htook.stop]
  · rw [← hstop]
  · rw [save_eq_ok]
    exact ⟨_, htree, by rw [← hstop]⟩
  · rw [Store.signature, htree]
    exact hsignature

/-- A pointer to a member of a constant struct is read as one to a member of the struct. -/
theorem Reachable.save_loaded_memberPointer :
    ∃ (store new : Store) (items rest : List Item) (type : TypeId), store.Reachable ∧ rest ≠ [] ∧
      Load.type ⟨store, items⟩ = .ok type ⟨new, rest⟩ ∧
      ∃ (read : Tree) (taken written : List Item) (signature : String), items = taken ++ rest ∧
        read.record = ⟨taken, none⟩ ∧ read.normal.record = ⟨written, none⟩ ∧
        new.save type = ⟨written, none⟩ ∧ new.signature type = .ok signature ∧ written ≠ taken := by
  let quals (isConst : Bool) : List Item :=
    [.str "gen", .bool false, .bool isConst, .bool false, .bool false]
  let member (isConst : Bool) : List Item := [.tag "member_pointer", .tag "struct", .key ["c"]] ++
    quals isConst ++ [.tag "void"] ++ quals false ++ quals false
  let start : Loading := ⟨Store.new .wide, member true ++ [.tag "more"]⟩
  let type : TypeId := ⟨Builtin.all.length + 2⟩
  obtain ⟨new, hload, hwritten⟩ : ∃ new, Load.type start = .ok type ⟨new, [.tag "more"]⟩ ∧
      new.save type = ⟨member false, none⟩ := by
    have hload : Load.type start = .ok type (after Load.type start) :=
      outcome_eq_ok.mp (by decide +kernel)
    have hrest : (after Load.type start).items = [.tag "more"] := by decide +kernel
    refine ⟨(after Load.type start).store, ?_, by decide +kernel⟩
    rw [hload, ← hrest]
  have hr : (Store.new .wide).Reachable := reachable_new .wide
  obtain ⟨read, taken, written, signature, hitems, hread, hnormal, hsave, hsignature, _⟩ :=
    Reachable.save_loaded hr hload
  refine ⟨Store.new .wide, new, start.items, _, type, hr, by simp, hload, read, taken, written,
    signature, hitems, hread, hnormal, hsave, hsignature, ?_⟩
  obtain rfl : member true = taken := List.append_cancel_right hitems
  obtain rfl : written = member false := by simpa [hsave] using hwritten
  decide +kernel

end Store

end TypeGraph
