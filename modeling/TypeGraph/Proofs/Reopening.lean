import TypeGraph.Proofs.Drafting
import TypeGraph.Proofs.Records

/-!
Bodies opened again from their tables. Main statement: into any store where the classes and enums of
the tables are open, the tables are read as one draft for each body, with the same members in the
same order (`Load.takes_tables`, and `Load.takes_traced` for traced stores).
-/

namespace TypeGraph

variable {α β : Type}

/-! ### The same type in two stores -/

namespace Store

variable {src old new : Store} {x y : TypeId}

/-- A type of `src` and one of `store` are written out in the same way, with nothing unknown. -/
def Alike (src store : Store) (x y : TypeId) : Prop :=
  ∃ tree, src.tree x = .ok tree ∧ store.tree y = .ok tree ∧ tree.Named ∧ tree.record.stop = none

theorem Alike.mono (h : old.Extends new) (hw : old.WellFormed) (hw' : new.WellFormed)
    (ha : src.Alike old x y) : src.Alike new x y := by
  obtain ⟨tree, hx, hy, hnamed, hstop⟩ := ha
  exact ⟨tree, hx, h.tree hw hw' hnamed hy, hnamed, hstop⟩

/-- Types that are alike have the same record. -/
theorem Alike.save (h : src.Alike new x y) :
    ∃ items, src.save x = ⟨items, none⟩ ∧ new.save y = ⟨items, none⟩ := by
  obtain ⟨tree, hx, hy, _, hstop⟩ := h
  have hrecord : tree.record = ⟨tree.record.items, none⟩ := by rw [← hstop]
  exact ⟨_, save_eq_ok.mpr ⟨tree, hx, hrecord⟩, save_eq_ok.mpr ⟨tree, hy, hrecord⟩⟩

/-- No two types of a store are like one of another store. -/
theorem Alike.right_unique (hw : new.WellFormed) {y' : TypeId} (h : src.Alike new x y)
    (h' : src.Alike new x y') : y = y' := by
  obtain ⟨tree, hx, hy, hnamed, _⟩ := h
  obtain ⟨tree', hx', hy', _, _⟩ := h'
  rw [hx] at hx'
  cases hx'
  exact hw.type_eq_of_tree_eq hnamed hy hy'

theorem Alike.left_unique (hw : src.WellFormed) {x' : TypeId} (h : src.Alike new x y)
    (h' : src.Alike new x' y) : x = x' := by
  obtain ⟨tree, hx, hy, hnamed, _⟩ := h
  obtain ⟨tree', hx', hy', _, _⟩ := h'
  rw [hy] at hy'
  cases hy'
  exact hw.type_eq_of_tree_eq hnamed hx hx'

/-- Types that are alike have parts that are alike, and qualifiers that are written alike. -/
theorem Alike.parts (h : src.Alike new x y) (hw : src.WellFormed) (hw' : new.WellFormed)
    {wanted : WantedShape} {own : Qual PathId} (hs : src.Spells x wanted own) :
    ∃ wanted' own', new.Spells y wanted' own' ∧
      Shape.Rel (src.Alike new) (Params.Rel (src.Alike new)) (fun _ _ => True) wanted wanted' ∧
      own'.map new.pathName = own.map src.pathName := by
  obtain ⟨⟨shape, qual⟩, hx, hy, hnamed, hstop⟩ := h
  obtain ⟨_, _, hs', hu, hq⟩ := hw.tree_eq_ok.mp hx
  obtain ⟨rfl, rfl⟩ := spells_unique hs hs'
  obtain ⟨wanted', own', hs'', hu', hq'⟩ := hw'.tree_eq_ok.mp hy
  refine ⟨wanted', own', hs'', ?_, hq'.trans hq.symm⟩
  cases hnamed with
  | mk hname hparts =>
      have halike : ∀ {x' y' part}, part ∈ TreeShape.parts shape ∧ src.tree x' = .ok part →
          new.tree y' = .ok part → src.Alike new x' y' := fun {_ _ part} hx' hy' =>
        ⟨part, hx'.2, hy', hparts part hx'.1, (Tree.record_part hstop hx'.1).1⟩
      refine (Shape.Rel.comp.mpr ⟨shape, TreeShape.rel_parts hu, hu'.flip⟩).imp ?_ ?_
        (fun _ _ _ => trivial)
      · rintro x' y' ⟨part, hx', hy'⟩
        exact halike hx' hy'
      · rintro params params' ⟨trees, hp, hp'⟩
        refine (Params.Rel.comp.mpr ⟨trees, hp, hp'.flip⟩).imp ?_
        rintro x' y' ⟨part, hx', hy'⟩
        exact halike hx' hy'

/-- Shapes of types that are alike have one form. -/
theorem Alike.shape (h : src.Alike new x y) (hw : src.WellFormed) (hw' : new.WellFormed)
    {node : Node} (hn : src.node? x = some node) :
    ∃ node', new.node? y = some node' ∧ node'.shape.kind = node.shape.kind ∧
      node'.shape.builtin? = node.shape.builtin? ∧
      (node.qual = Qual.none → node'.qual = Qual.none) := by
  obtain ⟨wanted, shape, hshape, hs⟩ := hw.spells hn
  obtain ⟨wanted', own', ⟨shape', hn', hs'⟩, hrel, hq⟩ := h.parts hw hw' ⟨shape, hshape, hs⟩
  rw [hn] at hshape
  have hnode : node.shape = shape := congrArg Node.shape (Option.some.inj hshape)
  refine ⟨_, hn', ?_, ?_, fun hnone => ?_⟩
  · rw [hnode, (spelling_eq_ok.mp hs').kind_eq, ← hrel.kind_eq, ← (spelling_eq_ok.mp hs).kind_eq]
  · rw [hnode, (spelling_eq_ok.mp hs').builtin?_eq, ← hrel.builtin?_eq,
      ← (spelling_eq_ok.mp hs).builtin?_eq]
  · have hmap : own'.map new.pathName = Qual.none := by
      rw [hq, hnone]
      rfl
    exact qual_eq_of_map_eq hmap rfl (by simp [Qual.none, Space.generic])

/-- What is like a type without qualifiers is one. -/
theorem Alike.plain (h : src.Alike new x y) (hw : src.WellFormed) (hw' : new.WellFormed)
    {shape : Shape TypeId ParamSetId PathId} (hn : src.node? x = some (.plain shape)) :
    ∃ shape', new.node? y = some (.plain shape') ∧ shape'.kind = shape.kind := by
  obtain ⟨⟨shape', own'⟩, hn', hk, _, hq⟩ := h.shape hw hw' hn
  obtain rfl := hq rfl
  exact ⟨shape', hn', hk⟩

theorem Alike.isClass (h : src.Alike new x y) (hw : src.WellFormed) (hw' : new.WellFormed)
    (ho : src.classOwner x = .ok x) :
    ∃ name isStruct, new.node? y = some (.plain (.classType name isStruct)) := by
  obtain ⟨name, isStruct, hn⟩ := hw.classOwner ho
  obtain ⟨shape, hn', hk⟩ := h.plain hw hw' hn
  have hkind : shape.kind.isClass = true := by cases isStruct <;> rw [hk] <;> rfl
  obtain ⟨name', isStruct', rfl⟩ := shape_of_isClass hkind
  exact ⟨name', isStruct', hn'⟩

theorem Alike.isEnum (h : src.Alike new x y) (hw : src.WellFormed) (hw' : new.WellFormed)
    (ho : src.enumOwner x = .ok x) : ∃ name, new.node? y = some (.plain (.enumType name)) := by
  obtain ⟨name, hn⟩ := hw.enumOwner ho
  obtain ⟨shape, hn', hk⟩ := h.plain hw hw' hn
  obtain ⟨name', rfl⟩ := shape_of_kind_enum hk
  exact ⟨name', hn'⟩

/-- A type that can be written has a record that can be read back. -/
theorem Reachable.canRestore_of_save (hr : src.Reachable) (hs : src.WellNamed)
    (h : (src.save x).stop = none) :
    ∃ tree, src.tree x = .ok tree ∧ src.save x = tree.record ∧ Load.CanRestore Load.type tree := by
  unfold Store.save at h ⊢
  cases ht : src.tree x with
  | error failure =>
      rw [ht] at h
      exact absurd h (Output.stop_fail failure)
  | ok tree =>
      rw [ht] at h
      exact ⟨tree, rfl, rfl, hr.canRestore hs ht h⟩

end Store

/-! ### Members one by one -/

/-- The same base class, of related types. -/
structure BaseClass.Rel (R : TypeId → TypeId → Prop) (a b : BaseClass) : Prop where
  type : R a.type b.type
  access : b.access = a.access
  isVirtual : b.isVirtual = a.isVirtual

/-- The same member, with related names and of related types. -/
structure Member.Rel (N : α → β → Prop) (R : TypeId → TypeId → Prop) (a : Member α)
    (b : Member β) : Prop where
  name : N a.name b.name
  type : R a.type b.type
  offset : b.offset = a.offset
  access : b.access = a.access
  flag : b.flag = a.flag

theorem BaseClass.Rel.imp {R S : TypeId → TypeId → Prop} (h : ∀ x y, R x y → S x y)
    {a b : BaseClass} (hr : BaseClass.Rel R a b) : BaseClass.Rel S a b :=
  { hr with type := h _ _ hr.type }

theorem Member.Rel.imp {N : α → β → Prop} {R S : TypeId → TypeId → Prop}
    (h : ∀ x y, R x y → S x y) {a : Member α} {b : Member β} (hr : Member.Rel N R a b) :
    Member.Rel N S a b :=
  { hr with type := h _ _ hr.type }

/-- A keyword of a store and its text. -/
def Store.Says (store : Store) (keyword : Keyword) (text : String) : Prop :=
  store.names.text keyword = .ok text

/-- A draft for a body of `src`: of a related type, with the same members in the same order. -/
inductive OpenBody.Rel (src : Store) (R : TypeId → TypeId → Prop) :
    TypeId × Definition → OpenBody → Prop where
  | ofClass {type : TypeId} {body : ClassBody} {draft : ClassDraft} (owner : R type draft.type)
      (bases : List.Forall₂ (BaseClass.Rel R) body.bases draft.bases)
      (data : List.Forall₂ (Member.Rel src.Says R) body.data draft.data)
      (functions : List.Forall₂ (Member.Rel src.Says R) body.functions draft.functions) :
      Rel src R (type, .ofClass body) (.ofClass draft)
  | ofEnum {type : TypeId} {body : EnumBody} {draft : EnumDraft} {stored : TypeId}
      (owner : R type draft.type) (flavor : draft.flavor = body.flavor) (base : R body.base stored)
      (values : List.Forall₂ (fun a b => src.Says a.1 b.1 ∧ b.2 = a.2) body.values draft.values) :
      Rel src R (type, .ofEnum body) (.ofEnum draft stored)

theorem OpenBody.Rel.imp {src : Store} {R S : TypeId → TypeId → Prop} (h : ∀ x y, R x y → S x y)
    {entry : TypeId × Definition} {body : OpenBody} (hr : OpenBody.Rel src R entry body) :
    OpenBody.Rel src S entry body := by
  cases hr with
  | ofClass owner bases data functions =>
      exact .ofClass (h _ _ owner) (bases.imp fun _ _ => .imp h) (data.imp fun _ _ => .imp h)
        (functions.imp fun _ _ => .imp h)
  | ofEnum owner flavor base values => exact .ofEnum (h _ _ owner) flavor (h _ _ base) values

theorem OpenBody.Rel.exists_owner {src : Store} {R : TypeId → TypeId → Prop}
    {entry : TypeId × Definition} {body : OpenBody} (h : OpenBody.Rel src R entry body) :
    ∃ y, R entry.1 y := by
  cases h with
  | ofClass owner => exact ⟨_, owner⟩
  | ofEnum owner => exact ⟨_, owner⟩

/-- Nothing that may come to be like the type has a body in `start`. -/
def Store.Clear (src start : Store) (type : TypeId) : Prop :=
  ∀ new y, start.Grows new → src.Alike new type y → start.definition? y = none

/-- Whatever comes to be like the class or enum of a body can be opened, `R` holding of that one and
the one that is opened. -/
def Store.Opens (src start : Store) (R : Store → TypeId → TypeId → Prop)
    (entry : TypeId × Definition) : Prop :=
  ∀ new y, start.Grows new → src.Alike new entry.1 y → ∃ owner, R new entry.1 owner ∧
    match entry.2 with
    | .ofClass _ => new.openClass y = .ok (.new owner)
    | .ofEnum _ => new.openEnum y = .ok (.new owner)

/-- A relation of types of `src` to those of other stores that holds of types that are alike and
goes on to hold when a store grows. -/
structure Store.Relates (src : Store) (R : Store → TypeId → TypeId → Prop) : Prop where
  alike : ∀ {new : Store} {x y : TypeId}, src.Alike new x y → R new x y
  mono : ∀ {old new : Store} {x y : TypeId}, old.WellFormed → old.Grows new → R old x y → R new x y

namespace Store

variable {src start : Store}

theorem relates_alike : src.Relates src.Alike where
  alike := id
  mono hw hg h := h.mono hg.extends_ hw hg.wellFormed

/-- Where nothing like it has a body, the class or enum that is opened is the one that is alike. -/
theorem Fixes.opens (hw : src.WellFormed) {machine : Target} {before : List (TypeId × Definition)}
    {entry : TypeId × Definition} (hf : (src.asOf machine before).Fixes entry)
    (hclear : src.Clear start entry.1) : src.Opens start src.Alike entry := by
  intro new y hg ha
  have hnone : new.definition? y = none := by
    rw [definition?, hg.definitions]
    exact hclear new y hg ha
  refine ⟨y, ha, ?_⟩
  cases hf with
  | ofClass opened =>
      obtain ⟨name, isStruct, hn⟩ := ha.isClass hw hg.wellFormed opened.owner
      exact openClass_eq_ok.mpr ⟨y, classOwner_of_node? hn, by simp [classBody?, hnone], rfl⟩
  | ofEnum opened =>
      obtain ⟨name, hn⟩ := ha.isEnum hw hg.wellFormed opened.owner
      exact openEnum_eq_ok.mpr ⟨y, enumOwner_of_node? hn, by simp [enumBody?, hnone], rfl⟩

end Store

namespace Load

open Store

variable {start old new : Store}

/-! ### Readers that may start later -/

/-- If all of it was written, a reader takes it back into any store that `start` grew into, and `P`
holds of the store that it leaves and of what it gives. -/
def Takes (start : Store) (m : Load α) (written : Output) (P : Store → α → Prop) : Prop :=
  written.stop = none → ∀ old, start.Grows old →
    ∃ a new, Reads m written old a new ∧ old.Grows new ∧ P new a

theorem takes_times {element : Load β} {write : α → Output} {P : Store → α → β → Prop}
    (hp : ∀ old new, old.WellFormed → old.Grows new → ∀ a b, P old a b → P new a b) {as : List α}
    (h : ∀ a ∈ as, Takes start element (write a) fun new => P new a) :
    Takes start (times element as.length) (.concat (as.map write)) fun new bs =>
      List.Forall₂ (P new) as bs := by
  induction as with
  | nil => exact fun _ old hg => ⟨[], old, .pure [] old, hg.wellFormed.grows, .nil⟩
  | cons a as ih =>
      intro hs old hg
      obtain ⟨hfirst, hrest⟩ := Output.stop_append.mp hs
      obtain ⟨b, mid, hb, hg₁, hab⟩ := h a List.mem_cons_self hfirst old hg
      obtain ⟨bs, new, hbs, hg₂, habs⟩ :=
        ih (fun a hm => h a (List.mem_cons_of_mem _ hm)) hrest mid (hg.trans hg₁)
      refine ⟨b :: bs, new, ?_, hg₁.trans hg₂, .cons (hp mid new hg₁.wellFormed hg₂ a b hab) habs⟩
      exact hb.bind hfirst (hbs.last (.pure _ new))

theorem takes_list {element : Load β} {write : α → Output} {P : Store → α → β → Prop}
    (hp : ∀ old new, old.WellFormed → old.Grows new → ∀ a b, P old a b → P new a b) {as : List α}
    (hl : as.length < UInt64.size)
    (h : ∀ a ∈ as, Takes start element (write a) fun new => P new a) :
    Takes start (list element) (.length as ++ .concat (as.map write)) fun new bs =>
      List.Forall₂ (P new) as bs := by
  intro hs old hg
  obtain ⟨bs, new, hbs, hg', habs⟩ := takes_times hp h (Output.stop_append.mp hs).2 old hg
  refine ⟨bs, new, ?_, hg', habs⟩
  have hcount : (UInt64.ofNat as.length).toNat = as.length := UInt64.toNat_ofNat_of_lt' hl
  refine (Reads.count _ old).bind rfl ?_
  rwa [hcount]

/-! ### Members -/

section Members

variable {src : Store} (hr : src.Reachable) (hs : src.WellNamed)
include hr hs

theorem takes_type (x : TypeId) : Takes start type (src.save x) fun new => src.Alike new x := by
  intro hstop old hg
  obtain ⟨tree, hx, hrecord, hc⟩ := hr.canRestore_of_save hs hstop
  obtain ⟨y, new, h⟩ := hc.restores old hg.wellFormed
  exact ⟨y, new, hrecord ▸ h.reads, h.grows, tree, hx, h.unfolds, hc.named, hc.written⟩

theorem takes_baseClass (base : BaseClass) :
    Takes start baseClass (src.saveBase base) fun new => BaseClass.Rel (src.Alike new) base := by
  intro hstop old hg
  obtain ⟨⟨htype, _⟩, _⟩ := by simpa only [saveBase, Output.stop_append] using hstop
  obtain ⟨type, new, hreads, hg', ha⟩ := takes_type hr hs base.type htype old hg
  refine ⟨⟨type, base.access, base.isVirtual⟩, new, ?_, hg', ha, rfl, rfl⟩
  rw [saveBase, Output.append_assoc]
  exact hreads.bind htype ((Reads.tagged base.access new).bind rfl
    ((Reads.bool base.isVirtual new).last (.pure _ new)))

theorem takes_member (member : Member Keyword) :
    Takes start Load.member (src.saveMember member) fun new =>
      Member.Rel src.Says (src.Alike new) member := by
  intro hstop old hg
  obtain ⟨⟨⟨⟨hname, htype⟩, _⟩, _⟩, _⟩ := by
    simpa only [saveMember, Output.stop_append] using hstop
  obtain ⟨name, hname⟩ := Output.stop_text.mp hname
  obtain ⟨type, new, hreads, hg', ha⟩ := takes_type hr hs member.type htype old hg
  refine ⟨⟨name, type, member.offset, member.access, member.flag⟩, new, ?_, hg', hname, ha, rfl,
    rfl, rfl⟩
  rw [saveMember, hname]
  simp only [Output.append_assoc]
  exact (Reads.str name old).bind rfl (hreads.bind htype ((Reads.count member.offset new).bind rfl
    ((Reads.tagged member.access new).bind rfl
      ((Reads.bool member.flag new).last (.pure _ new)))))

theorem takes_bases {bases : List BaseClass} (hl : bases.length < UInt64.size) :
    Takes start (list baseClass) (.length bases ++ .concat (bases.map src.saveBase)) fun new =>
      List.Forall₂ (BaseClass.Rel (src.Alike new)) bases :=
  takes_list (fun _ _ hw hg _ _ => .imp fun _ _ h => h.mono hg.extends_ hw hg.wellFormed) hl
    fun base _ => takes_baseClass hr hs base

theorem takes_members {members : List (Member Keyword)} (hl : members.length < UInt64.size) :
    Takes start (list Load.member) (.length members ++ .concat (members.map src.saveMember))
      fun new => List.Forall₂ (Member.Rel src.Says (src.Alike new)) members :=
  takes_list (fun _ _ hw hg _ _ => .imp fun _ _ h => h.mono hg.extends_ hw hg.wellFormed) hl
    fun member _ => takes_member hr hs member

end Members

/-- Enumerators whose names are new are added one by one. -/
theorem reads_enumerators {src : Store} {entries : List (String × Int128)}
    {values : List (Keyword × Int128)}
    (hv : List.Forall₂ (NamedValue src.names) entries values) (store : Store) :
    ∀ draft : EnumDraft, ((draft.values ++ entries).map Prod.fst).Nodup →
      Reads (enumerators draft values.length) (.concat (values.map src.saveValue)) store
        { draft with values := draft.values ++ entries } store := by
  induction hv with
  | nil =>
      intro draft _
      rw [List.append_nil]
      exact .pure draft store
  | @cons entry value entries values hfirst _ ih =>
      intro draft hn
      obtain ⟨name, _⟩ := entry
      obtain ⟨keyword, number⟩ := value
      obtain ⟨hname, hnumber⟩ := hfirst
      dsimp only at hname hnumber
      subst hnumber
      have hnew : draft.value? name = none := by
        rw [EnumDraft.value?, lookup_eq_none]
        intro hm
        rw [List.map_append] at hn
        exact (List.nodup_append.mp hn).2.2 name hm name List.mem_cons_self rfl
      have hadd : draft.add name number =
          .ok { draft with values := draft.values ++ [(name, number)] } :=
        EnumDraft.add_eq_ok_iff.mpr ⟨hnew, rfl⟩
      have hrest := ih { draft with values := draft.values ++ [(name, number)] }
        (by simpa using hn)
      have hsave : src.saveValue (keyword, number) = .str name ++ .signed number := by
        rw [saveValue, hname]
        rfl
      rw [List.map_cons, Output.concat, hsave, Output.append_assoc]
      refine (Reads.str name store).bind rfl ((Reads.signed number store).bind rfl ?_)
      simp only [List.append_assoc, List.singleton_append] at hrest
      simpa only [hadd] using hrest

/-! ### Bodies -/

section Bodies

variable {src : Store} {R : Store → TypeId → TypeId → Prop} (hr : src.Reachable) (hs : src.WellNamed)
  (hR : src.Relates R)
include hr hs hR

theorem takes_classDraft {draft : ClassDraft} {body : ClassBody} (hf : draft.Filled)
    (hc : Completes src.names draft body)
    (hopens : src.Opens start R (draft.type, .ofClass body)) :
    Takes start classDraft (src.save draft.type ++
        ((.length body.bases ++ .concat (body.bases.map src.saveBase)) ++
          ((.length body.data ++ .concat (body.data.map src.saveMember)) ++
            (.length body.functions ++ .concat (body.functions.map src.saveMember)))))
      fun new read => OpenBody.Rel src (R new) (draft.type, .ofClass body) (.ofClass read) := by
  intro hstop old hg
  obtain ⟨htype, hstop⟩ := Output.stop_append.mp hstop
  obtain ⟨hbases, hstop⟩ := Output.stop_append.mp hstop
  obtain ⟨hdata, hfunctions⟩ := Output.stop_append.mp hstop
  have hlb : body.bases.length < UInt64.size := hc.bases ▸ hf.bases
  have hld : body.data.length < UInt64.size := hc.data.length_eq ▸ hf.data
  have hlf : body.functions.length < UInt64.size := hc.functions.length_eq ▸ hf.functions
  obtain ⟨type, first, hreads, hg₁, ha⟩ := takes_type hr hs draft.type htype old hg
  have hs₁ := hg.trans hg₁
  obtain ⟨owner, ho, hopen⟩ := hopens first type hs₁ ha
  obtain ⟨bases, second, hreads₂, hg₂, hb⟩ := takes_bases hr hs hlb hbases first hs₁
  have hs₂ := hs₁.trans hg₂
  obtain ⟨data, third, hreads₃, hg₃, hd⟩ := takes_members hr hs hld hdata second hs₂
  have hs₃ := hs₂.trans hg₃
  obtain ⟨functions, last, hreads₄, hg₄, hfs⟩ :=
    takes_members hr hs hlf hfunctions third hs₃
  have hmono₃ (x y) (h : src.Alike third x y) : R last x y :=
    hR.mono hg₃.wellFormed hg₄ (hR.alike h)
  have hmono₂ (x y) (h : src.Alike second x y) : R last x y :=
    hR.mono hg₂.wellFormed (hg₃.trans hg₄) (hR.alike h)
  have howner : R last draft.type owner :=
    hR.mono hg₁.wellFormed ((hg₂.trans hg₃).trans hg₄) ho
  refine ⟨⟨owner, bases, data, functions⟩, last, ?_, ((hg₁.trans hg₂).trans hg₃).trans hg₄,
    .ofClass howner (hb.imp fun _ _ => .imp hmono₂) (hd.imp fun _ _ => .imp hmono₃)
      (hfs.imp fun _ _ => .imp fun _ _ h => hR.alike h)⟩
  exact hreads.bind htype ((Reads.query hopen).first (hreads₂.bind hbases
    (hreads₃.bind hdata (hreads₄.last (.pure _ last)))))

theorem takes_enumDraft {draft : EnumDraft} {base : TypeId} {body : EnumBody}
    (hf : draft.Filled) (hc : CompletesEnum src.names draft base body)
    (hopens : src.Opens start R (draft.type, .ofEnum body)) :
    Takes start enumDraft (src.save draft.type ++ (.str body.flavor.tag ++ (src.save body.base ++
        (.length body.values ++ .concat (body.values.map src.saveValue)))))
      fun new read => OpenBody.Rel src (R new) (draft.type, .ofEnum body)
        (.ofEnum read.1 read.2) := by
  intro hstop old hg
  obtain ⟨htype, hstop⟩ := Output.stop_append.mp hstop
  obtain ⟨hflavor, hstop⟩ := Output.stop_append.mp hstop
  obtain ⟨hbase, hvalues⟩ := Output.stop_append.mp hstop
  have hlength : body.values.length < UInt64.size := hc.values.length_eq ▸ hf.values
  obtain ⟨type, first, hreads, hg₁, ha⟩ := takes_type hr hs draft.type htype old hg
  have hs₁ := hg.trans hg₁
  obtain ⟨owner, ho, hopen⟩ := hopens first type hs₁ ha
  obtain ⟨stored, last, hreads₂, hg₂, hb⟩ := takes_type hr hs body.base hbase first hs₁
  have hcount : (UInt64.ofNat body.values.length).toNat = body.values.length :=
    UInt64.toNat_ofNat_of_lt' hlength
  have hreads₃ := reads_enumerators hc.values last ⟨owner, body.flavor, []⟩ (by simpa using hf.nodup)
  refine ⟨(⟨owner, body.flavor, draft.values⟩, stored), last, ?_, hg₁.trans hg₂,
    .ofEnum (hR.mono hg₁.wellFormed hg₂ ho) rfl (hR.alike hb)
      (hc.values.flip.imp fun _ _ h => ⟨h.1, h.2.symm⟩)⟩
  refine hreads.bind htype ((Reads.query hopen).first ((Reads.tagged body.flavor first).bind rfl
    (hreads₂.bind hbase ((Reads.count _ last).bind rfl ?_))))
  rw [hcount]
  exact hreads₃.last (.pure _ last)

/-- A body that lists what a filled draft did is read as a draft with the same members. -/
theorem takes_openBody {entry : TypeId × Definition} (hd : src.Drafted entry)
    (hopens : src.Opens start R entry) :
    Takes start openBody (src.saveBody entry) fun new => OpenBody.Rel src (R new) entry := by
  cases hd with
  | ofClass filled completes =>
      intro hstop old hg
      simp only [saveBody, Output.append_assoc] at hstop ⊢
      obtain ⟨read, new, hreads, hg', hrel⟩ := takes_classDraft hr hs hR filled completes hopens
        (by simpa only [Output.append_assoc] using (Output.stop_append.mp hstop).2) old hg
      have hlast := hreads.last (f := fun draft => pure (OpenBody.ofClass draft)) (.pure _ new)
      simp only [Output.append_assoc] at hlast
      exact ⟨.ofClass read, new, (Reads.tag "class_body" old).bind rfl hlast, hg', hrel⟩
  | ofEnum filled completes =>
      intro hstop old hg
      simp only [saveBody, Output.append_assoc] at hstop ⊢
      obtain ⟨⟨read, stored⟩, new, hreads, hg', hrel⟩ :=
        takes_enumDraft hr hs hR filled completes hopens
          (by simpa only [Output.append_assoc] using (Output.stop_append.mp hstop).2) old hg
      refine ⟨.ofEnum read stored, new, (Reads.tag "enum_body" old).bind rfl ?_, hg', hrel⟩
      exact hreads.last (.pure _ new)

omit hr hs hR in
theorem length_declared_le : src.declared.length ≤ src.nodes.size := by
  have hle : src.declared.length ≤ src.types.length := List.length_filter_le _ _
  simpa [types] using hle

/-- The tables of a store are read into any store where the classes and enums in them can be
opened. -/
theorem takes_tables (hcount : src.nodes.size < UInt32.size)
    (hlength : src.definitions.length ≤ src.nodes.size) (hd : src.AllDrafted)
    (hopens : ∀ entry ∈ src.definitions, src.Opens start R entry) :
    Takes start tables src.saveTables fun new =>
      List.Forall₂ (OpenBody.Rel src (R new)) src.definitions := by
  intro hstop old hg
  have hparts : src.saveTables = .tag "decls" ++
      ((.length src.declared ++ .concat (src.declared.map src.save)) ++ (.tag "bodies" ++
        (.length src.definitions ++ .concat (src.definitions.map src.saveBody)))) := by
    simp only [saveTables, Output.append_assoc]
  rw [hparts] at hstop ⊢
  obtain ⟨_, hstop⟩ := Output.stop_append.mp hstop
  obtain ⟨hdecls, hstop⟩ := Output.stop_append.mp hstop
  obtain ⟨_, hbodies⟩ := Output.stop_append.mp hstop
  have hfew : src.nodes.size < UInt64.size := Nat.lt_trans hcount (by decide)
  have hdeclared : src.declared.length < UInt64.size := Nat.lt_of_le_of_lt length_declared_le hfew
  have hdefined : src.definitions.length < UInt64.size := Nat.lt_of_le_of_lt hlength hfew
  obtain ⟨types, mid, hreads, hg₁, _⟩ := takes_list (P := fun new x => src.Alike new x)
    (fun _ _ hw hg _ _ h => h.mono hg.extends_ hw hg.wellFormed) hdeclared
    (fun x _ => takes_type hr hs x) hdecls old hg
  obtain ⟨bodies, new, hreads₂, hg₂, hrel⟩ := takes_list
    (fun _ _ hw hg _ _ => .imp fun _ _ h => hR.mono hw hg h) hdefined
    (fun entry hm => takes_openBody hr hs hR (hd entry hm) (hopens entry hm)) hbodies mid
    (hg.trans hg₁)
  refine ⟨bodies, new, ?_, hg₁.trans hg₂, hrel⟩
  exact (Reads.exactTag "decls" old).bind rfl (hreads.bind hdecls
    ((Reads.exactTag "bodies" mid).bind rfl hreads₂))

omit hR in
/-- The tables of a traced store are read into a store that has none of its bodies. -/
theorem takes_traced {machine : Target} (ht : src.Traced machine src.definitions)
    (hcount : src.nodes.size < UInt32.size)
    (hclear : ∀ entry ∈ src.definitions, src.Clear start entry.1) :
    Takes start tables src.saveTables fun new =>
      List.Forall₂ (OpenBody.Rel src (src.Alike new)) src.definitions := by
  refine takes_tables hr hs relates_alike hcount (ht.length_le hr.wellFormed) ?_ ?_
  · intro entry hm
    obtain ⟨before, hf⟩ := ht.fixes hm
    have hnames : (src.asOf machine before).names.Extends src.names := .refl _
    exact hf.drafted.mono hnames
  · intro entry hm
    obtain ⟨before, hf⟩ := ht.fixes hm
    exact hf.opens hr.wellFormed (hclear entry hm)

end Bodies

end Load

end TypeGraph
