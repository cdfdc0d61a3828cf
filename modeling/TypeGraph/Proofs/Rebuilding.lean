import Mathlib
import TypeGraph.Proofs.Reopening

/-!
Bodies completed again. Main statement: the tables of a store are read and completed in any store
that lays out for the same machine and where none of their classes and enums is complete, and each
body comes back with the same members and the same size (`Store.ReachableFor.rebuild`).
-/

namespace TypeGraph

/-! ### Lists of entries -/

section Lists

theorem forall₂_concat_left {α β : Type} {R : α → β → Prop} {as : List α} {a : α} :
    ∀ {bs : List β}, List.Forall₂ R (as ++ [a]) bs →
      ∃ front b, bs = front ++ [b] ∧ List.Forall₂ R as front ∧ R a b := by
  induction as with
  | nil =>
      rintro bs (_ | ⟨hab, _ | _⟩)
      exact ⟨[], _, rfl, .nil, hab⟩
  | cons first as ih =>
      rintro bs (_ | ⟨hfirst, hrest⟩)
      obtain ⟨front, b, rfl, hfront, hab⟩ := ih hrest
      exact ⟨_ :: front, b, rfl, .cons hfirst hfront, hab⟩

variable {κ ν : Type} {R : κ → κ → Prop} {S : ν → ν → Prop}

theorem lookup_of_forall₂ [BEq κ] [LawfulBEq κ] (hleft : ∀ a a' b, R a b → R a' b → a = a')
    (hright : ∀ a b b', R a b → R a b' → b = b') {as bs : List (κ × ν)}
    (h : List.Forall₂ (fun a b => R a.1 b.1 ∧ S a.2 b.2) as bs) {key key' : κ} (hk : R key key')
    {value : ν} (hv : as.lookup key = some value) :
    ∃ value', bs.lookup key' = some value' ∧ S value value' := by
  induction h with
  | nil => cases hv
  | @cons a b as bs hab _ ih =>
      obtain ⟨k, v⟩ := a
      obtain ⟨k', v'⟩ := b
      rw [List.lookup_cons] at hv
      by_cases hkey : key = k
      · subst hkey
        obtain rfl := hright _ _ _ hk hab.1
        obtain rfl : v = value := by simpa using hv
        exact ⟨v', by simp, hab.2⟩
      · have hkey' : key' ≠ k' := by
          rintro rfl
          exact hkey (hleft _ _ _ hk hab.1)
        rw [beq_false_of_ne hkey] at hv
        obtain ⟨value', hl, hs⟩ := ih hv
        refine ⟨value', ?_, hs⟩
        rwa [List.lookup_cons, beq_false_of_ne hkey']

theorem not_mem_of_forall₂ (hleft : ∀ a a' b, R a b → R a' b → a = a') {as bs : List (κ × ν)}
    (h : List.Forall₂ (fun a b => R a.1 b.1 ∧ S a.2 b.2) as bs) {key key' : κ} (hk : R key key')
    (hn : key ∉ as.map Prod.fst) : key' ∉ bs.map Prod.fst := by
  intro hm
  obtain ⟨b, hb, rfl⟩ := List.mem_map.mp hm
  obtain ⟨a, ha, hab, _⟩ := forall₂_exists_right h.flip hb
  exact hn (List.mem_map.mpr ⟨a, ha, hleft _ _ _ hab hk⟩)

end Lists

/-! ### The same body in two stores -/

/-- The same body, with related names and of related types. A class has the same size. -/
inductive Definition.Rel (N : Keyword → Keyword → Prop) (R : TypeId → TypeId → Prop) :
    Definition → Definition → Prop where
  | ofClass {a b : ClassBody} (bases : List.Forall₂ (BaseClass.Rel R) a.bases b.bases)
      (data : List.Forall₂ (Member.Rel N R) a.data b.data)
      (functions : List.Forall₂ (Member.Rel N R) a.functions b.functions)
      (size : b.size = a.size) (align : b.align = a.align) : Rel N R (.ofClass a) (.ofClass b)
  | ofEnum {a b : EnumBody} (flavor : b.flavor = a.flavor) (base : R a.base b.base)
      (values : List.Forall₂ (fun x y => N x.1 y.1 ∧ y.2 = x.2) a.values b.values) :
      Rel N R (.ofEnum a) (.ofEnum b)

theorem Member.Rel.mono {α β : Type} {N M : α → β → Prop} {R S : TypeId → TypeId → Prop}
    (hn : ∀ x y, N x y → M x y) (h : ∀ x y, R x y → S x y) {a : Member α} {b : Member β}
    (hr : Member.Rel N R a b) : Member.Rel M S a b :=
  { hr with name := hn _ _ hr.name, type := h _ _ hr.type }

theorem Definition.Rel.imp {N M : Keyword → Keyword → Prop} {R S : TypeId → TypeId → Prop}
    (hn : ∀ x y, N x y → M x y) (h : ∀ x y, R x y → S x y) {a b : Definition}
    (hr : Definition.Rel N R a b) : Definition.Rel M S a b := by
  cases hr with
  | ofClass bases data functions size align =>
      exact .ofClass (bases.imp fun _ _ => .imp h) (data.imp fun _ _ => .mono hn h)
        (functions.imp fun _ _ => .mono hn h) size align
  | ofEnum flavor base values =>
      exact .ofEnum flavor (h _ _ base) (values.imp fun _ _ hxy => ⟨hn _ _ hxy.1, hxy.2⟩)

namespace Store

variable {src old new now : Store}

/-- Keywords of two stores for the same text. -/
def SameText (src store : Store) (a b : Keyword) : Prop :=
  ∃ text, src.Says a text ∧ store.Says b text

/-- A finished class or enum of `src` and one of `store` that have the same record and body. -/
def SameEntry (src store : Store) (a b : TypeId × Definition) : Prop :=
  src.Alike store a.1 b.1 ∧ Definition.Rel (src.SameText store) (src.Alike store) a.2 b.2

theorem SameText.mono (h : old.Extends new) {a b : Keyword} (ht : src.SameText old a b) :
    src.SameText new a b := by
  obtain ⟨text, ha, hb⟩ := ht
  exact ⟨text, ha, h.names.text hb⟩

theorem SameEntry.mono (h : old.Extends new) (hw : old.WellFormed) (hw' : new.WellFormed)
    {a b : TypeId × Definition} (hs : src.SameEntry old a b) : src.SameEntry new a b :=
  ⟨hs.1.mono h hw hw', hs.2.imp (fun _ _ => .mono h) fun _ _ ha => ha.mono h hw hw'⟩

/-! ### Sizes while bodies come back -/

/-- Types that are alike are variants of classes or enums that are alike. -/
theorem Alike.unqualified {x y : TypeId} (h : src.Alike now x y) (hw : src.WellFormed)
    (hw' : now.WellFormed) {node node' : Node} (hn : src.node? x = some node)
    (hn' : now.node? y = some node') :
    src.Alike now (src.idOf (.plain node.shape)) (now.idOf (.plain node'.shape)) := by
  obtain ⟨⟨shape, qual⟩, hx, hy, hnamed, hstop⟩ := h
  refine ⟨⟨shape, Qual.none⟩, hw.tree_idOf hx hn, hw'.tree_idOf hy hn', hnamed.plain, ?_⟩
  rw [Tree.record_eq] at hstop ⊢
  exact Output.stop_append.mpr ⟨(Output.stop_append.mp hstop).1, rfl⟩

section Mirror

variable {machine : Target} {before added earlier : List (TypeId × Definition)}

theorem definition?_of_sameEntry (hw : src.WellFormed) (hw' : now.WellFormed)
    (hd : now.definitions = earlier ++ added) (hs : List.Forall₂ (src.SameEntry now) before added)
    {x y : TypeId} (ha : src.Alike now x y) (hnew : y ∉ earlier.map Prod.fst)
    {definition : Definition} (hx : before.lookup x = some definition) :
    ∃ definition', now.definition? y = some definition' ∧
      Definition.Rel (src.SameText now) (src.Alike now) definition definition' := by
  obtain ⟨definition', hl, hrel⟩ := lookup_of_forall₂ (fun _ _ _ h h' => h.left_unique hw h')
    (fun _ _ _ h h' => h.right_unique hw' h') hs ha hx
  refine ⟨definition', ?_, hrel⟩
  rw [definition?, hd, List.lookup_append, lookup_eq_none.mpr hnew, hl]
  rfl

/-- A store in which the first bodies of `src` came back lays out what `src` could lay out when it
had only those. -/
theorem mirrors_alike (hw : src.WellFormed) (hw' : now.WellFormed) (ht : now.target = machine)
    (hd : now.definitions = earlier ++ added) (hs : List.Forall₂ (src.SameEntry now) before added)
    (hnew : ∀ x ∈ before.map Prod.fst, ∀ y, src.Alike now x y → y ∉ earlier.map Prod.fst) :
    Mirrors (src.Alike now) (src.asOf machine before) now := by
  have hfound : ∀ {x y definition}, src.Alike now x y → before.lookup x = some definition →
      ∃ definition', now.definition? y = some definition' ∧
        Definition.Rel (src.SameText now) (src.Alike now) definition definition' := by
    intro x y definition ha hx
    have hmem : x ∈ before.map Prod.fst :=
      List.mem_map.mpr ⟨_, mem_of_lookup hx, rfl⟩
    exact definition?_of_sameEntry hw hw' hd hs ha (hnew x hmem y ha) hx
  refine ⟨ht, ?_, ?_, ?_⟩
  · intro x y ha wanted own hspell
    obtain ⟨wanted', own', hspell', hrel, hq⟩ := ha.parts hw hw' hspell
    refine ⟨wanted', own', hspell', hrel, ?_⟩
    simpa [Qual.map, Space.map] using congrArg (fun qual => qual.space.storage) hq
  · intro x y ha body hb
    obtain ⟨owner, ho, hbody⟩ := classBody_eq_ok.mp hb
    obtain ⟨node, hn, hk, rfl⟩ := classOwner_eq_ok.mp ho
    obtain ⟨node', hn', hkind, _⟩ := ha.shape hw hw' hn
    have howner := ha.unqualified hw hw' hn hn'
    obtain ⟨definition', hd', hrel⟩ := hfound howner hbody
    cases hrel with
    | @ofClass _ body' bases data functions size align =>
        have ho' : now.classOwner y = .ok (now.idOf (.plain node'.shape)) :=
          classOwner_eq_ok.mpr ⟨node', hn', hkind ▸ hk, rfl⟩
        exact ⟨body', classBody_eq_ok.mpr ⟨_, ho', hd'⟩, size, align⟩
  · intro x y ha builtin he
    obtain ⟨body, hb, hbase⟩ := enumStorage_eq_ok.mp he
    obtain ⟨owner, ho, hbody⟩ := enumBody_eq_ok.mp hb
    obtain ⟨node, hn, hk, rfl⟩ := enumOwner_eq_ok.mp ho
    obtain ⟨node', hn', hkind, _⟩ := ha.shape hw hw' hn
    have howner := ha.unqualified hw hw' hn hn'
    obtain ⟨definition', hd', hrel⟩ := hfound howner hbody
    cases hrel with
    | @ofEnum _ body' flavor base values =>
        have ho' : now.enumOwner y = .ok (now.idOf (.plain node'.shape)) :=
          enumOwner_eq_ok.mpr ⟨node', hn', hkind.trans hk, rfl⟩
        obtain ⟨stored, hstored, hbuiltin⟩ := builtinOf?_eq_ok.mp hbase
        obtain ⟨stored', hstored', _, hsame, _⟩ := base.shape hw hw' hstored
        exact enumStorage_eq_ok.mpr ⟨body', enumBody_eq_ok.mpr ⟨_, ho', hd'⟩,
          builtinOf?_eq_ok.mpr ⟨stored', hstored', hsame.trans hbuiltin⟩⟩

/-! ### One body -/

theorem rel_of_named {R S : TypeId → TypeId → Prop} (h : ∀ x y, R x y → S x y)
    {members : List (Member Keyword)} {texts : List (Member String)}
    {named : List (Member Keyword)} (hr : List.Forall₂ (Member.Rel src.Says R) members texts)
    (hn : List.Forall₂ (Named now.names) texts named) :
    List.Forall₂ (Member.Rel (src.SameText now) S) members named := by
  refine (forall₂_comp.mpr ⟨texts, hr, hn⟩).imp ?_
  rintro member entered ⟨text, hrel, hname, heq⟩
  rw [heq]
  exact ⟨⟨text.name, hrel.name, hname⟩, h _ _ hrel.type, hrel.offset, hrel.access, hrel.flag⟩

/-- A body that `src` could fix when it had the ones before it is fixed from its draft, once those
came back. -/
theorem run_completeBody (hw : src.WellFormed) (hw' : now.WellFormed)
    (hm : Mirrors (src.Alike now) (src.asOf machine before) now) {entry : TypeId × Definition}
    (hf : (src.asOf machine before).Fixes entry) {body : OpenBody}
    (hr : OpenBody.Rel src (src.Alike now) entry body)
    (hopen : ∀ y, src.Alike now entry.1 y → now.definition? y = none) :
    ∃ type definition new, Build.completeBody body now = .ok type new ∧ now.Extends new ∧
      new.WellFormed ∧ new.target = now.target ∧
      new.definitions = now.definitions ++ [(type, definition)] ∧
      src.SameEntry new entry (type, definition) := by
  cases hr with
  | @ofClass _ body draft' owner bases data functions =>
      cases hf with
      | @ofClass draft _ opened completes layout =>
          obtain ⟨names, data', functions', hext, hc, hd, hfs, hrun⟩ :=
            Build.run_completeClass draft' now
          have hclass : now.classBody? draft'.type = none := by
            simp [classBody?, hopen _ owner]
          have hlayout : now.classLayout draft' = .ok (body.size, body.align) := by
            refine hm.classLayout (hw.asOf machine before) hw' ?_ ?_ layout
            · rw [← completes.bases]
              exact bases.imp fun _ _ h => h.type
            · refine (forall₂_comp.mpr ⟨_, completes.data, data⟩).imp ?_
              rintro member text ⟨named, ⟨_, heq⟩, hrel⟩
              rw [heq] at hrel
              exact ⟨hrel.type, hrel.offset.symm⟩
          obtain ⟨name, isStruct, hn⟩ := owner.isClass hw hw' opened.owner
          rw [hclass, hlayout, shape_eq_ok.mpr ⟨_, hn, rfl⟩] at hrun
          have hlater := extends_defining hext draft'.type
            (.ofClass ⟨draft'.bases, data', functions', body.size, body.align⟩)
          have hwl := hw'.defining hext (hc hw'.names) draft'.type
            (.ofClass ⟨draft'.bases, data', functions', body.size, body.align⟩)
          have hmono (x y) (h : src.Alike now x y) := h.mono hlater hw' hwl
          exact ⟨_, _, _, hrun, hlater, hwl, rfl, rfl, hmono _ _ owner,
            .ofClass (bases.imp fun _ _ => .imp hmono) (rel_of_named hmono data hd)
              (rel_of_named hmono functions hfs) rfl rfl⟩
  | @ofEnum _ body draft' stored owner flavor base values =>
      cases hf with
      | @ofEnum draft under _ kind opened completes hk integer =>
          obtain ⟨names, values', hext, hc, hv, hrun⟩ := Build.run_completeEnum draft' stored now
          have henum : now.enumBody? draft'.type = none := by
            simp [enumBody?, hopen _ owner]
          have hkind : now.kind stored = .ok kind := by
            obtain ⟨node, hn, hkind⟩ := kind_eq_ok.mp hk
            rw [← completes.base] at hn
            obtain ⟨node', hn', hsame, _⟩ := base.shape hw hw' hn
            exact kind_eq_ok.mpr ⟨node', hn', hsame.trans hkind⟩
          obtain ⟨name, hn⟩ := owner.isEnum hw hw' opened.owner
          rw [henum, hkind, shape_eq_ok.mpr ⟨_, hn, rfl⟩] at hrun
          simp only [Build.answered, Option.isSome_none, integer, Bool.false_eq_true, if_false]
            at hrun
          have hlater := extends_defining hext draft'.type
            (.ofEnum ⟨draft'.flavor, values', stored⟩)
          have hwl := hw'.defining hext (hc hw'.names) draft'.type
            (.ofEnum ⟨draft'.flavor, values', stored⟩)
          have hmono (x y) (h : src.Alike now x y) := h.mono hlater hw' hwl
          refine ⟨_, _, _, hrun, hlater, hwl, rfl, rfl, hmono _ _ owner,
            .ofEnum flavor (hmono _ _ base) ?_⟩
          refine (forall₂_comp.mpr ⟨draft'.values, values, hv⟩).imp ?_
          rintro value entered ⟨text, ⟨htext, heq⟩, hname, heq'⟩
          exact ⟨⟨text.1, htext, hname⟩, heq'.trans heq⟩

end Mirror

/-! ### All bodies -/

theorem not_mem_of_alike {done : List (TypeId × Definition)} {mid : Store} (hmid : mid.WellFormed)
    (hnow : now.WellFormed) (hext : mid.Extends now)
    (hclear : ∀ entry ∈ done, ∀ y, src.Alike mid entry.1 y → mid.definition? y = none)
    {bodies : List OpenBody} (hb : List.Forall₂ (OpenBody.Rel src (src.Alike mid)) done bodies)
    {entry : TypeId × Definition} (he : entry ∈ done) {y : TypeId} (ha : src.Alike now entry.1 y) :
    y ∉ mid.definitions.map Prod.fst := by
  obtain ⟨_, _, hrel⟩ := forall₂_exists_right hb he
  obtain ⟨y', ha'⟩ := hrel.exists_owner
  obtain rfl := ha.right_unique hnow (ha'.mono hext hmid hnow)
  exact definition?_eq_none.mp (hclear entry he y ha')

/-- Bodies that were fixed one after the other come back one after the other. -/
theorem run_completeAll {machine : Target} {done : List (TypeId × Definition)} {mid : Store}
    (hw : src.WellFormed) (hmid : mid.WellFormed) (hm : mid.target = machine)
    (ht : src.Traced machine done)
    (hclear : ∀ entry ∈ done, ∀ y, src.Alike mid entry.1 y → mid.definition? y = none) :
    ∀ {bodies : List OpenBody}, List.Forall₂ (OpenBody.Rel src (src.Alike mid)) done bodies →
      ∃ now added, Build.completeAll bodies mid = .ok () now ∧ mid.Extends now ∧ now.WellFormed ∧
        now.target = mid.target ∧ now.definitions = mid.definitions ++ added ∧
        List.Forall₂ (src.SameEntry now) done added := by
  induction ht with
  | nil =>
      rintro bodies (_ | _)
      exact ⟨mid, [], rfl, .refl mid, hmid, rfl, (List.append_nil _).symm, .nil⟩
  | @snoc before entry earlier fresh fixes ih =>
      intro bodies hb
      obtain ⟨front, last, rfl, hfront, hlast⟩ := forall₂_concat_left hb
      obtain ⟨now, added, hrun, hext, hnow, htarget, hd, hs⟩ :=
        ih (fun other h => hclear other (List.mem_append_left _ h)) hfront
      have hold : ∀ {other}, other ∈ before ++ [entry] → ∀ {y}, src.Alike now other.1 y →
          y ∉ mid.definitions.map Prod.fst :=
        fun ho _ => not_mem_of_alike hmid hnow hext hclear hb ho
      have hmirrors : Mirrors (src.Alike now) (src.asOf machine before) now := by
        refine mirrors_alike hw hnow (htarget.trans hm) hd hs fun x hx y ha => ?_
        obtain ⟨other, ho, rfl⟩ := List.mem_map.mp hx
        exact hold (List.mem_append_left _ ho) ha
      have hopen : ∀ y, src.Alike now entry.1 y → now.definition? y = none := by
        intro y ha
        have hmid' := hold (List.mem_append_right _ List.mem_cons_self) ha
        have hadded : y ∉ added.map Prod.fst :=
          not_mem_of_forall₂ (fun _ _ _ h h' => h.left_unique hw h') hs ha fresh
        rw [definition?_eq_none, hd, List.map_append, List.mem_append]
        exact fun h => h.elim hmid' hadded
      have hrel : OpenBody.Rel src (src.Alike now) entry last :=
        hlast.imp fun _ _ h => h.mono hext hmid hnow
      obtain ⟨type, definition, new, hrun', hext', hnew, htarget', hd', hentry⟩ :=
        run_completeBody hw hnow hmirrors fixes hrel hopen
      refine ⟨new, added ++ [(type, definition)], ?_, hext.trans hext', hnew,
        htarget'.trans htarget, ?_, ?_⟩
      · exact Build.run_completeAll_concat hrun' hrun
      · rw [hd', hd, List.append_assoc]
      · refine List.rel_append (hs.imp fun _ _ h => h.mono hext' hnow hnew) (.cons hentry .nil)

/-! ### Tables into another store -/

/-- A type without qualifiers is the class or enum of a kind and a path. -/
def Called (store : Store) (type : TypeId) (kind : Kind) (texts : List String) : Prop :=
  ∃ shape path, store.node? type = some (.plain shape) ∧ shape.kind = kind ∧
    shape.name? = some path ∧ store.pathName path = .ok texts

/-- The path that a class or enum goes by has texts that are all known. -/
def GoesByPath (store : Store) (type : TypeId) : Prop :=
  ∃ node path texts, store.node? type = some node ∧ node.shape.name? = some path ∧
    store.pathName path = .ok texts

/-- Types of two stores that are written as the same record. -/
def SameRecord (src store : Store) (x y : TypeId) : Prop :=
  ∃ items, src.save x = ⟨items, none⟩ ∧ store.save y = ⟨items, none⟩

theorem Extends.called (h : old.Extends new) {type : TypeId} {kind : Kind} {texts : List String}
    (hc : old.Called type kind texts) : new.Called type kind texts := by
  obtain ⟨shape, path, hn, hk, hp, hname⟩ := hc
  exact ⟨shape, path, h.node? hn, hk, hp, h.names.strings hname⟩

theorem WellFormed.called_iff (hw : src.WellFormed) {type : TypeId} {tree : Tree}
    (ht : src.tree type = .ok tree) {shape : Shape TypeId ParamSetId PathId}
    (hn : src.node? type = some (.plain shape)) {kind : Kind} {texts : List String} :
    src.Called type kind texts ↔ tree.shape.kind = kind ∧ tree.shape.name? = some (.ok texts) := by
  obtain ⟨wanted, qual, ⟨own, hn', hs⟩, hu, _⟩ := hw.tree_eq_ok.mp ht
  rw [hn] at hn'
  cases hn'
  have hrel := spelling_eq_ok.mp hs
  have hkind : shape.kind = tree.shape.kind := hrel.kind_eq.trans hu.kind_eq
  constructor
  · rintro ⟨other, path, hn', rfl, hp, hname⟩
    rw [hn] at hn'
    cases hn'
    obtain ⟨_, hp', rfl⟩ := hrel.name? hp
    obtain ⟨_, hp'', rfl⟩ := hu.name? hp'
    exact ⟨hkind.symm, hp''.trans (congrArg some hname)⟩
  · rintro ⟨rfl, hname⟩
    obtain ⟨path, hp, htexts⟩ := hu.flip.name? hname
    obtain ⟨path', hp', rfl⟩ := hrel.flip.name? hp
    exact ⟨_, path', hn, hkind, hp', htexts⟩

theorem Alike.called_iff {x y : TypeId} (h : src.Alike now x y) (hw : src.WellFormed)
    (hw' : now.WellFormed) {shape : Shape TypeId ParamSetId PathId}
    (hn : src.node? x = some (.plain shape)) {kind : Kind} {texts : List String} :
    src.Called x kind texts ↔ now.Called y kind texts := by
  obtain ⟨shape', hn', _⟩ := h.plain hw hw' hn
  obtain ⟨tree, hx, hy, _, _⟩ := h
  rw [hw.called_iff hx hn, hw'.called_iff hy hn']

theorem Alike.exists_called {x y : TypeId} (h : src.Alike now x y) (hw : src.WellFormed)
    {shape : Shape TypeId ParamSetId PathId} (hn : src.node? x = some (.plain shape))
    (hname : ∃ name, shape.name? = some name) : ∃ kind texts, src.Called x kind texts := by
  obtain ⟨tree, hx, hy, hnamed, _⟩ := h
  obtain ⟨wanted, qual, ⟨shape', hn', hs⟩, hu, _⟩ := hw.tree_eq_ok.mp hx
  obtain ⟨path, hp⟩ := hname
  rw [hn] at hn'
  cases hn'
  obtain ⟨_, hp', _⟩ := (spelling_eq_ok.mp hs).name? hp
  obtain ⟨name, hp'', _⟩ := hu.name? hp'
  cases hnamed with
  | mk own _ =>
      obtain ⟨texts, rfl⟩ := own.name name hp''
      exact ⟨_, texts, (hw.called_iff hx hn).mpr ⟨rfl, hp''⟩⟩

/-- Where no class or enum that is called like a type is complete, nothing like the type ever is, if
the complete ones go by paths that are known. -/
theorem clear_of_called (hw : src.WellFormed) {dst : Store} {type : TypeId}
    {shape : Shape TypeId ParamSetId PathId} (hn : src.node? type = some (.plain shape))
    (hknown : ∀ entry ∈ dst.definitions, dst.GoesByPath entry.1)
    (hopen : ∀ type' kind texts, src.Called type kind texts → dst.Called type' kind texts →
      dst.definition? type' = none) : src.Clear dst type := by
  intro new y hg ha
  rw [Option.eq_none_iff_forall_ne_some]
  intro definition hd
  obtain ⟨shape', hn', _⟩ := ha.plain hw hg.wellFormed hn
  obtain ⟨node, path, texts, hy, hp, hname⟩ := hknown _ (mem_of_definition? hd)
  obtain rfl : node = .plain shape' := Option.some.inj ((hg.extends_.node? hy).symm.trans hn')
  have hcalled : dst.Called y shape'.kind texts := ⟨shape', path, hy, rfl, hp, hname⟩
  have hnone := hopen y _ texts ((ha.called_iff hw hg.wellFormed hn).mpr
    (hg.extends_.called hcalled)) hcalled
  rw [hd] at hnone
  cases hnone

/-- The tables of a store are read and completed in any other one where none of its finished classes
and enums is complete. Exactly the tables are taken, and each body comes back with the same members
in the same order and, for a class, with the same size and alignment. -/
theorem ReachableFor.rebuild {dst : Store} {machine : Target} (hr : src.ReachableFor machine)
    (hcount : src.nodes.size < UInt32.size) (hs : src.WellNamed) (hdst : dst.Reachable)
    (hm : dst.target = machine)
    (hknown : ∀ entry ∈ dst.definitions, dst.GoesByPath entry.1)
    (hopen : ∀ entry ∈ src.definitions, ∀ type kind texts, src.Called entry.1 kind texts →
      dst.Called type kind texts → dst.definition? type = none)
    {items : List Item} (hsave : src.saveTables = ⟨items, none⟩) :
    ∃ bodies mid new, (∀ rest, Load.tables ⟨dst, items ++ rest⟩ = .ok bodies ⟨mid, rest⟩) ∧
      Build.completeAll bodies mid = .ok () new ∧ dst.Extends new ∧
      ∀ type definition, src.definition? type = some definition →
        ∃ type' definition', new.definition? type' = some definition' ∧
          (∃ kind texts, src.Called type kind texts ∧ new.Called type' kind texts) ∧
          src.SameRecord new type type' ∧
          Definition.Rel (src.SameText new) (src.SameRecord new) definition definition' := by
  have hw := hr.reachable.wellFormed
  have hclear : ∀ entry ∈ src.definitions, src.Clear dst entry.1 := by
    intro entry he
    obtain ⟨shape, hn, _⟩ := hr.traced.owner hw he
    exact clear_of_called hw hn hknown (hopen entry he)
  obtain ⟨bodies, mid, hreads, hg, hb⟩ := Load.takes_traced hr.reachable hs hr.traced hcount hclear
    (by rw [hsave]) dst hdst.wellFormed.grows
  have hclear' : ∀ entry ∈ src.definitions, ∀ y, src.Alike mid entry.1 y →
      mid.definition? y = none := by
    intro entry he y ha
    rw [definition?, hg.definitions]
    exact hclear entry he mid y hg ha
  obtain ⟨new, added, hrun, hext, hnew, _, hd, hentries⟩ :=
    run_completeAll hw hg.wellFormed (hg.target.trans hm) hr.traced hclear' hb
  refine ⟨bodies, mid, new, ?_, hrun, hg.extends_.trans hext, ?_⟩
  · rw [hsave] at hreads
    exact hreads
  · intro type definition hdef
    have hmem := mem_of_definition? hdef
    obtain ⟨⟨type', _⟩, _, halike, _⟩ := forall₂_exists_right hentries hmem
    obtain ⟨definition', hdef', hrel⟩ := definition?_of_sameEntry hw hnew hd hentries halike
      (not_mem_of_alike hg.wellFormed hnew hext hclear' hb hmem halike) hdef
    refine ⟨type', definition', hdef', ?_, halike.save, hrel.imp (fun _ _ => id) fun _ _ h => h.save⟩
    obtain ⟨shape, hn, hshape⟩ := hr.traced.owner hw hmem
    have hname : ∃ name, shape.name? = some name := by
      cases definition with
      | ofClass body =>
          obtain ⟨name, isStruct, rfl⟩ := hshape
          exact ⟨name, rfl⟩
      | ofEnum body =>
          obtain ⟨name, rfl⟩ := hshape
          exact ⟨name, rfl⟩
    obtain ⟨kind, texts, hcalled⟩ := halike.exists_called hw hn hname
    exact ⟨kind, texts, hcalled, (halike.called_iff hw hnew hn).mp hcalled⟩

/-- A struct that points to itself comes back in a store that has a finished union. -/
theorem ReachableFor.rebuild_list :
    ∃ (src dst : Store) (items : List Item) (list : TypeId), src.ReachableFor .wide ∧
      src.nodes.size < UInt32.size ∧ src.WellNamed ∧ dst.Reachable ∧ dst.target = .wide ∧
      dst.definitions ≠ [] ∧ (∀ entry ∈ dst.definitions, dst.GoesByPath entry.1) ∧
      (∀ entry ∈ src.definitions, ∀ type kind texts, src.Called entry.1 kind texts →
        dst.Called type kind texts → dst.definition? type = none) ∧
      src.saveTables = ⟨items, none⟩ ∧ ∃ bodies mid new definition type' definition',
        (∀ rest, Load.tables ⟨dst, items ++ rest⟩ = .ok bodies ⟨mid, rest⟩) ∧
        Build.completeAll bodies mid = .ok () new ∧ src.definition? list = some definition ∧
        new.definition? type' = some definition' ∧ src.SameRecord new list type' ∧
        Definition.Rel (src.SameText new) (src.SameRecord new) definition definition' := by
  let list : TypeId := ⟨Builtin.all.length⟩
  let next : Member String := ⟨"next", ⟨Builtin.all.length + 1⟩, 0, .isPublic, false⟩
  let named := (Request.path ["list"]).effect (Store.new .wide)
  let declared := (Request.enter (.classType ⟨1⟩ true)).effect named
  let pointed := (Request.enter (.pointer list)).effect declared
  let src := (Request.completeClass ⟨list, [], [next], []⟩).effect pointed
  let other := (Request.path ["other"]).effect (Store.new .wide)
  let open_ := (Request.enter (.classType ⟨1⟩ false)).effect other
  let dst := (Request.completeClass (.new list)).effect open_
  have hopened : ClassDraft.OpenIn ⟨list, [], [next], []⟩ pointed :=
    ⟨classOwner_of_node? (show pointed.node? list = some (.plain (.classType ⟨1⟩ true)) by
      decide +kernel), by decide, by decide, by decide⟩
  have hnamed : named.ReachableFor .wide := (reachableFor_new _ _).effect trivial trivial rfl
  have hdeclared : declared.ReachableFor .wide := hnamed.effect trivial trivial rfl
  have hpointed : pointed.ReachableFor .wide := hdeclared.effect trivial trivial rfl
  have hr : src.ReachableFor .wide := hpointed.effect trivial hopened rfl
  have hother : other.Reachable := (reachable_new .wide).effect trivial
  have hopen_ : open_.Reachable := hother.effect trivial
  have hdst : dst.Reachable := hopen_.effect trivial
  have hnodes : src.nodes.entries = pointed.nodes.entries := by
    unfold src pointed declared named list next
    cbv
  have hdefinitions : src.definitions =
      [(list, .ofClass ⟨[], [⟨⟨1⟩, ⟨Builtin.all.length + 1⟩, 0, .isPublic, false⟩], [], 4, 4⟩)] := by
    unfold src pointed declared named list next
    cbv
  have hsaved : src.saveTables.stop = none := by
    unfold src pointed declared named list next
    cbv
  have hs : src.WellNamed := wellNamed_of_nodes (by
    rw [hnodes]
    decide +kernel)
  have hcount : src.nodes.size < UInt32.size := by
    rw [Table.size, hnodes]
    decide +kernel
  have htarget : dst.target = .wide := by decide +kernel
  have hknown : ∀ entry ∈ dst.definitions, dst.GoesByPath entry.1 := by
    have hd : dst.definitions = [(list, .ofClass ⟨[], [], [], 4, 1⟩)] := by decide +kernel
    rw [hd]
    rintro entry (_ | ⟨_, ⟨⟩⟩)
    have hname : dst.pathName ⟨1⟩ = .ok ["other"] := by
      unfold dst open_ other list
      cbv
    exact ⟨.plain (.classType ⟨1⟩ false), ⟨1⟩, ["other"], by decide +kernel, rfl, hname⟩
  have hopen : ∀ entry ∈ src.definitions, ∀ type kind texts, src.Called entry.1 kind texts →
      dst.Called type kind texts → dst.definition? type = none := by
    have hlist : src.node? list = some (.plain (.classType ⟨1⟩ true)) := by
      rw [node?, Table.get?, hnodes]
      decide +kernel
    rw [hdefinitions]
    rintro entry (_ | ⟨_, ⟨⟩⟩) type kind texts ⟨shape, path, hn, rfl, _⟩ ⟨shape', _, hn', hk, hp, _⟩
    rw [hlist] at hn
    cases hn
    have hall : ∀ node ∈ dst.nodes.entries, node.shape.kind ≠ .struct := by decide +kernel
    exact absurd hk (hall _ (Table.mem_of_get? hn'))
  have hsave : src.saveTables = ⟨src.saveTables.items, none⟩ := by rw [← hsaved]
  obtain ⟨bodies, mid, new, hload, hrun, _, hall⟩ :=
    hr.rebuild hcount hs hdst htarget hknown hopen hsave
  have hdef : src.definition? list = some (.ofClass
      ⟨[], [⟨⟨1⟩, ⟨Builtin.all.length + 1⟩, 0, .isPublic, false⟩], [], 4, 4⟩) := by
    rw [definition?, hdefinitions]
    decide +kernel
  obtain ⟨type', definition', hd', _, hrecord, hrel⟩ := hall _ _ hdef
  exact ⟨src, dst, _, list, hr, hcount, hs, hdst, htarget, by decide +kernel, hknown, hopen, hsave,
    bodies, mid, new, _, type', definition', hload, hrun, hdef, hd', hrecord, hrel⟩

/-- A store with less than 2³² types whose spaces are named as they should be, whose texts are all
known, and whose classes have function members of its own types. -/
structure Portable (src : Store) : Prop where
  few : src.nodes.size < UInt32.size
  spaces : src.WellNamed
  texts : ∀ segments ∈ src.names.paths.entries, ∀ keyword ∈ segments,
    (src.names.text? keyword).isSome
  functions : ∀ type body, (type, .ofClass body) ∈ src.definitions →
    ∀ member ∈ body.functions, (src.node? member.type).isSome

/-- A struct is taken for a finished one that went by a number when there was no text for it. -/
theorem exists_taken_by_number :
    ∃ (src dst : Store) (items : List Item) (left : Loading), src.ReachableFor .wide ∧
      src.Portable ∧ dst.Reachable ∧ dst.target = .wide ∧
      (∀ entry ∈ src.definitions, ∀ type kind texts, src.Called entry.1 kind texts →
        dst.Called type kind texts → dst.definition? type = none) ∧
      src.saveTables = ⟨items, none⟩ ∧
      Load.tables ⟨dst, items⟩ = .error (.type (.alreadyComplete ⟨Builtin.all.length⟩)) left := by
  let named := (Request.path ["foo"]).effect (Store.new .wide)
  let declared := (Request.enter (.classType ⟨1⟩ true)).effect named
  let other := (Request.path ["bar"]).effect declared
  let both := (Request.enter (.classType ⟨2⟩ true)).effect other
  let src := (Request.completeClass (.new ⟨Builtin.all.length + 1⟩)).effect both
  let unknown := (Request.extend ⟨0⟩ ⟨1⟩).effect (Store.new .wide)
  let open_ := (Request.enter (.classType ⟨1⟩ true)).effect unknown
  let dst := (Request.completeClass (.new ⟨Builtin.all.length⟩)).effect open_
  have hnamed : named.ReachableFor .wide := (reachableFor_new _ _).effect trivial trivial rfl
  have hdeclared : declared.ReachableFor .wide := hnamed.effect trivial trivial rfl
  have hother : other.ReachableFor .wide := hdeclared.effect trivial trivial rfl
  have hboth : both.ReachableFor .wide := hother.effect trivial trivial rfl
  have hopened : (ClassDraft.new ⟨Builtin.all.length + 1⟩).OpenIn both :=
    ⟨classOwner_of_node? (show both.node? ⟨Builtin.all.length + 1⟩ =
      some (.plain (.classType ⟨2⟩ true)) by decide +kernel), by decide, by decide, by decide⟩
  have hr : src.ReachableFor .wide := hboth.effect trivial hopened rfl
  have hunknown : unknown.Reachable := (reachable_new .wide).effect trivial
  have hopen_ : open_.Reachable := hunknown.effect trivial
  have hdst : dst.Reachable := hopen_.effect trivial
  have hdefinitions : src.definitions =
      [(⟨Builtin.all.length + 1⟩, .ofClass ⟨[], [], [], 4, 1⟩)] := by decide +kernel
  have hsaved : src.saveTables.stop = none := by decide +kernel
  have hload : outcome Load.tables ⟨dst, src.saveTables.items⟩ =
      .error (.type (.alreadyComplete ⟨Builtin.all.length⟩)) := by decide +kernel
  have hopen : ∀ type kind texts, ¬dst.Called type kind texts := by
    have hpath : dst.pathName ⟨1⟩ = .error (.fault (.unknownKeyword ⟨1⟩)) := by decide +kernel
    have hall : ∀ node ∈ dst.nodes.entries, node.shape.name? = none ∨
        node.shape.name? = some ⟨1⟩ := by decide +kernel
    rintro type kind texts ⟨shape, path, hn, _, hp, hname⟩
    rcases hall _ (Table.mem_of_get? hn) with h | h
    · cases hp.symm.trans h
    · cases hp.symm.trans h
      cases hpath.symm.trans hname
  refine ⟨src, dst, src.saveTables.items, _, hr,
    ⟨by decide +kernel, wellNamed_of_nodes (by decide +kernel), by decide +kernel, ?_⟩, hdst,
    by decide +kernel, fun _ _ type kind texts _ h => absurd h (hopen type kind texts),
    by rw [← hsaved], outcome_eq_error.mp hload⟩
  rw [hdefinitions]
  rintro type body (_ | ⟨_, ⟨⟩⟩) member ⟨⟩

/-- A draft of another store may complete a qualified variant beside the struct itself. The two
bodies are then of one struct when they are read. -/
theorem exists_completed_twice :
    ∃ (src : Store) (items : List Item) (bodies : List OpenBody) (mid left : Store),
      Relation.ReflTransGen (fun old new => old.Step new ∧ old.target = .wide) (Store.new .wide) src ∧
      src.Portable ∧ src.saveTables = ⟨items, none⟩ ∧
      Load.tables ⟨Store.new .wide, items⟩ = .ok bodies ⟨mid, []⟩ ∧
      Build.completeAll bodies mid =
        .error (.type (.alreadyComplete ⟨Builtin.all.length⟩)) left := by
  let named := (Request.path ["foo"]).effect (Store.new .wide)
  let declared := (Request.enter (.classType ⟨1⟩ true)).effect named
  let qualified := (Request.qualify ⟨Builtin.all.length⟩ { Qual.none with isConst := true }).effect
    declared
  let first := (Request.completeClass (.new ⟨Builtin.all.length + 1⟩)).effect qualified
  let src := (Request.completeClass (.new ⟨Builtin.all.length⟩)).effect first
  have hruns : Relation.ReflTransGen (fun old new => old.Step new ∧ old.target = .wide)
      (Store.new .wide) src := by
    have hnamed : (Store.new .wide).Step named := step_effect (by trivial) _
    have hdeclared : named.Step declared := step_effect (by trivial) _
    have hqualified : declared.Step qualified := step_effect (by trivial) _
    have hfirst : qualified.Step first := step_effect (by trivial) _
    have hlast : first.Step src := step_effect (by trivial) _
    exact .tail (.tail (.tail (.tail (.single ⟨hnamed, rfl⟩) ⟨hdeclared, rfl⟩)
      ⟨hqualified, rfl⟩) ⟨hfirst, rfl⟩) ⟨hlast, by decide +kernel⟩
  have hdefinitions : src.definitions = [(⟨Builtin.all.length + 1⟩, .ofClass ⟨[], [], [], 4, 1⟩),
      (⟨Builtin.all.length⟩, .ofClass ⟨[], [], [], 4, 1⟩)] := by decide +kernel
  have hsaved : src.saveTables.stop = none := by decide +kernel
  let draft : OpenBody := .ofClass (.new ⟨Builtin.all.length⟩)
  have hload : outcome Load.tables ⟨Store.new .wide, src.saveTables.items⟩ =
      .ok [draft, draft] := by decide +kernel
  have hrest : (after Load.tables ⟨Store.new .wide, src.saveTables.items⟩).items = [] := by
    decide +kernel
  have hrun : outcome (Build.completeAll [draft, draft])
      (after Load.tables ⟨Store.new .wide, src.saveTables.items⟩).store =
        .error (.type (.alreadyComplete ⟨Builtin.all.length⟩)) := by decide +kernel
  obtain ⟨mid, left, htables, hfails⟩ := Load.exists_of_outcome hload hrest hrun
  refine ⟨src, src.saveTables.items, _, mid, left, hruns,
    ⟨by decide +kernel, wellNamed_of_nodes (by decide +kernel), by decide +kernel, ?_⟩,
    by rw [← hsaved], htables, hfails⟩
  rw [hdefinitions]
  rintro type body (_ | ⟨_, _ | ⟨_, ⟨⟩⟩⟩) member ⟨⟩

/-- Bodies need not come back where finished classes go by numbers without texts, or where drafts
were not opened in the store that they completed. -/
theorem exists_not_rebuild :
    (∃ (src dst : Store) (items : List Item) (left : Loading), src.ReachableFor .wide ∧
      src.Portable ∧ dst.Reachable ∧ dst.target = .wide ∧
      (∀ entry ∈ src.definitions, ∀ type kind texts, src.Called entry.1 kind texts →
        dst.Called type kind texts → dst.definition? type = none) ∧
      src.saveTables = ⟨items, none⟩ ∧
      Load.tables ⟨dst, items⟩ = .error (.type (.alreadyComplete ⟨Builtin.all.length⟩)) left) ∧
    ∃ (src : Store) (items : List Item) (bodies : List OpenBody) (mid left : Store),
      Relation.ReflTransGen (fun old new => old.Step new ∧ old.target = .wide) (Store.new .wide) src ∧
      src.Portable ∧ src.saveTables = ⟨items, none⟩ ∧
      Load.tables ⟨Store.new .wide, items⟩ = .ok bodies ⟨mid, []⟩ ∧
      Build.completeAll bodies mid =
        .error (.type (.alreadyComplete ⟨Builtin.all.length⟩)) left :=
  ⟨exists_taken_by_number, exists_completed_twice⟩

end Store

end TypeGraph
