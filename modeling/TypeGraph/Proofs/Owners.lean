import TypeGraph.Proofs.Placeholders

/-!
The class in the signature of a member. A signature has the path of the class and not whether it is
a struct or a union. Main statements: members of classes that go by different paths have different
signatures (`Store.Reachable.members_apart`), and those of a struct and a union that share a path
have the same ones (`Store.exists_members_alike`).
-/

namespace TypeGraph

/-! ### Signatures of members -/

namespace Signature

theorem toList_member {shape : TreeShape} {qual own : Qual PathName} {path : PathName}
    {isStruct : Bool} (ho : shape.owner? = some ⟨.classType path isStruct, own⟩) {text : String}
    (h : ofTree ⟨shape, qual⟩ = .ok text) :
    path.Known ∧ ∃ rest, text.toList = letter shape :: (nameChars path ++ rest) := by
  obtain ⟨front, hf, h⟩ := bind_eq_ok.mp h
  obtain ⟨back, _, h⟩ := bind_eq_ok.mp h
  cases h
  cases shape with
  | memberPointer owner base =>
      cases ho
      obtain ⟨written, hname, hf⟩ := bind_eq_ok.mp hf
      have hname : name path = .ok written := hname
      obtain ⟨inner, _, hf⟩ := bind_eq_ok.mp hf
      cases hf
      refine ⟨known_of_name hname, (nested inner).toList ++ back.toList, ?_⟩
      simp [letter, toList_name hname]
  | memberFunction owner ret list conv =>
      cases ho
      obtain ⟨types, variadic⟩ := list
      obtain ⟨written, hname, hf⟩ := bind_eq_ok.mp hf
      have hname : name path = .ok written := hname
      obtain ⟨listed, _, hf⟩ := bind_eq_ok.mp hf
      obtain ⟨result, _, hf⟩ := bind_eq_ok.mp hf
      cases hf
      refine ⟨known_of_name hname, (tagged conv.tag).toList ++ ((params listed variadic).toList ++
        ((nested result).toList ++ back.toList)), ?_⟩
      simp [letter, toList_name hname]
  | _ => cases ho

end Signature

namespace Store

variable {store : Store} {type : TypeId}

theorem WellFormed.toList_signature (hw : store.WellFormed) {owner : TypeId} {name : PathId}
    {isStruct : Bool} (hc : store.node? owner = some (.plain (.classType name isStruct)))
    {node : Node} (hn : store.node? type = some node) (ho : node.shape.owner? = some owner)
    {text : String} (h : store.signature type = .ok text) :
    (store.pathName name).Known ∧ ∃ letter rest,
      text.toList = letter :: (Signature.nameChars (store.pathName name) ++ rest) := by
  obtain ⟨⟨shape, qual⟩, ht, htext⟩ := bind_eq_ok.mp h
  obtain ⟨wanted, _, ⟨_, hn', hspell⟩, hu, _⟩ := hw.tree_eq_ok.mp ht
  cases hn.symm.trans hn'
  obtain ⟨_, hwanted, rfl⟩ := (spelling_eq_ok.mp hspell).owner? ho
  obtain ⟨tree, hshape, htree⟩ := hu.owner? hwanted
  cases (hw.tree_class hc).symm.trans htree
  obtain ⟨hknown, rest, hchars⟩ := Signature.toList_member hshape htext
  exact ⟨hknown, _, rest, hchars⟩

/-- Members of classes that go by different paths have different signatures. -/
theorem PlainPaths.signature_ne (hp : store.PlainPaths) (hw : store.WellFormed)
    {a b owner owner' : TypeId} {name name' : PathId} {isStruct isStruct' : Bool}
    (hc : store.node? owner = some (.plain (.classType name isStruct)))
    (hc' : store.node? owner' = some (.plain (.classType name' isStruct'))) (hne : name ≠ name')
    {node node' : Node} (ha : store.node? a = some node) (hb : store.node? b = some node')
    (ho : node.shape.owner? = some owner) (ho' : node'.shape.owner? = some owner')
    {text text' : String} (h : store.signature a = .ok text)
    (h' : store.signature b = .ok text') : text ≠ text' := by
  rintro rfl
  obtain ⟨hknown, letter, rest, hchars⟩ := hw.toList_signature hc ha ho h
  obtain ⟨hknown', letter', rest', hchars'⟩ := hw.toList_signature hc' hb ho' h'
  -- Past the letters, the two texts begin with the paths, and a plain path shows where it ends.
  have heq := (List.cons.inj (hchars.symm.trans hchars')).2
  obtain ⟨hpath, _⟩ :=
    Signature.splits_name (hp.plainName rfl hknown) (hp.plainName rfl hknown') heq
  exact hne (path_eq_of_pathName_eq rfl hpath.symm hknown)

end Store

/-! ### Requests for members -/

/-- What a member is, but for its class. -/
inductive MemberType where
  | pointer (base : TypeId)
  | function (ret : TypeId) (params : ParamSetId) (conv : Convention)

namespace MemberType

open Store

variable {store : Store} {member : MemberType} {owner : TypeId}

/-- The request for such a member of a class. -/
def ofClass (owner : TypeId) : MemberType → TypeRequest
  | .pointer base => .memberPointer owner base
  | .function ret params conv => .memberFunction owner ret params conv

/-- The types that make up a member, but for its class: what it points to, or its result and its
parameters. -/
inductive Uses (store : Store) : MemberType → TypeId → Prop where
  | base {base : TypeId} : Uses store (.pointer base) base
  | ret {ret : TypeId} {set : ParamSetId} {conv : Convention} :
      Uses store (.function ret set conv) ret
  | listed {ret : TypeId} {set : ParamSetId} {conv : Convention} {params : ParamSet} {part : TypeId}
      (params_eq : store.paramSet set = .ok params) (mem : part ∈ params.types) :
      Uses store (.function ret set conv) part

/-- The store holds what makes up a member. -/
def HeldBy (store : Store) : MemberType → Prop
  | .pointer base => store.Holds base
  | .function ret set _ => store.Holds ret ∧ ∃ params, store.paramSet set = .ok params

theorem HeldBy.mono {old new : Store} (hext : old.Extends new) (h : member.HeldBy old) :
    member.HeldBy new := by
  cases member with
  | pointer base => exact Store.Holds.mono h hext
  | function ret set conv =>
      obtain ⟨hret, params, hset⟩ := h
      exact ⟨hret.mono hext, params, hext.paramSet hset⟩

theorem Uses.holds (hw : store.WellFormed) (hm : member.HeldBy store) {part : TypeId}
    (h : member.Uses store part) : store.Holds part := by
  cases h with
  | base => exact hm
  | ret => exact hm.1
  | listed hset hmem => exact Store.node?_of_lt ((hw.sets _ _ hset).lt_size _ hmem)

theorem Uses.of_extends {old new : Store} (hext : old.Extends new) (hm : member.HeldBy old)
    {part : TypeId} (h : member.Uses new part) : member.Uses old part := by
  cases h with
  | base => exact .base
  | ret => exact .ret
  | listed hset hmem =>
      obtain ⟨_, params, hold⟩ := hm
      cases (hext.paramSet hold).symm.trans hset
      exact .listed hold hmem

/-- Nothing that makes up a member is in a placeholder space. -/
def FreeOfPlaceholders (store : Store) (member : MemberType) : Prop :=
  ∀ part, member.Uses store part → store.FreeOfPlaceholders part

theorem FreeOfPlaceholders.mono {old new : Store} (hext : old.Extends new) (hw : old.WellFormed)
    (hm : member.HeldBy old) (h : member.FreeOfPlaceholders old) :
    member.FreeOfPlaceholders new := by
  intro part hu
  have hold := hu.of_extends hext hm
  exact (h part hold).mono hext hw (hold.holds hw hm)

theorem exists_wanted {name : PathId} {isStruct : Bool}
    (hc : store.node? owner = some (.plain (.classType name isStruct)))
    (hm : member.HeldBy store) :
    ∃ wanted, (member.ofClass owner).wanted store = .ok wanted ∧ wanted.owner? = some owner ∧
      (∀ part, wanted.base? = some part → member.Uses store part) ∧
      ∀ params, wanted.params? = some params → ∀ part ∈ params.types, member.Uses store part := by
  have howner := classOwner_of_node? hc
  cases member with
  | pointer base =>
      obtain ⟨node, hn⟩ := hm
      refine ⟨.memberPointer owner base, ?_, rfl, ?_, by simp [Shape.params?]⟩
      · exact bind_eq_ok.mpr ⟨_, howner, bind_eq_ok.mpr ⟨_, node_eq_ok.mpr hn, rfl⟩⟩
      · rintro _ ⟨⟩
        exact .base
  | function ret set conv =>
      obtain ⟨⟨node, hn⟩, params, hset⟩ := hm
      refine ⟨.memberFunction owner ret params conv, ?_, rfl, ?_, ?_⟩
      · exact bind_eq_ok.mpr ⟨_, howner, bind_eq_ok.mpr
          ⟨_, node_eq_ok.mpr hn, bind_eq_ok.mpr ⟨_, hset, rfl⟩⟩⟩
      · rintro _ ⟨⟩
        exact .ret
      · rintro _ ⟨⟩
        exact fun part hpart => .listed hset hpart

/-- A member of a class is never refused. Its type names the class, and is free of placeholders if
what makes up the member is. -/
theorem run_ofClass (hw : store.WellFormed) {name : PathId} {isStruct : Bool}
    (hc : store.node? owner = some (.plain (.classType name isStruct)))
    (hm : member.HeldBy store) :
    ∃ type next shape, (member.ofClass owner).run store = .ok type next ∧ store.Grows next ∧
      next.node? type = some (.plain shape) ∧ shape.owner? = some owner ∧
      (member.FreeOfPlaceholders store → next.FreeOfPlaceholders type) := by
  obtain ⟨wanted, hwant, howner, hbase, hlist⟩ := exists_wanted hc hm
  have hcount : (member.ofClass owner).Countable := by cases member <;> exact trivial
  obtain ⟨type, next, shape, hrun, hgrows, hn, hspell⟩ :=
    Build.run_spelled hw (TypeRequest.wanted_admits hcount hw hwant)
  have hrel := spelling_eq_ok.mp hspell
  have howner' : shape.owner? = some owner := by
    obtain ⟨_, hshape, rfl⟩ := hrel.flip.owner? howner
    exact hshape
  have hnames : ∀ part, next.Mentions type part → part = owner ∨ member.Uses store part := by
    intro part h
    cases h with
    | base hn' hb =>
        cases hn.symm.trans hn'
        obtain ⟨_, hb', rfl⟩ := hrel.base? hb
        exact Or.inr (hbase _ hb')
    | owner hn' ho =>
        cases hn.symm.trans hn'
        exact Or.inl (Option.some.inj (ho.symm.trans howner'))
    | listed hn' hs hp hmem =>
        cases hn.symm.trans hn'
        obtain ⟨params, hparams, hset, _⟩ := hrel.params? hs
        cases hset.symm.trans hp
        exact Or.inr (hlist _ hparams part hmem)
  refine ⟨type, next, shape, ?_, hgrows, hn, howner', fun hfree => .plain hn fun part h => ?_⟩
  · rw [TypeRequest.run_eq, hwant]
    exact hrun
  · rcases hnames part h with rfl | hu
    · exact .leaf (hgrows.extends_.node? hc) rfl rfl rfl
    · exact (hfree part hu).mono hgrows.extends_ hw (hu.holds hw hm)

theorem HeldBy.given (hm : member.HeldBy store) (hc : store.Holds owner) :
    (member.ofClass owner).Given store := by
  cases member with
  | pointer base => exact ⟨hc, hm⟩
  | function ret set conv => exact ⟨hc, hm⟩

end MemberType

namespace TypeRequest

variable {request : TypeRequest} {store next : Store} {type : TypeId}

theorem names_run (h : request.run store = .ok type next) : next.names = store.names := by
  rw [run_eq] at h
  cases hwant : request.wanted store with
  | error failure =>
      rw [hwant] at h
      cases h
  | ok wanted =>
      rw [hwant] at h
      obtain ⟨sets, shape, _, hafter⟩ := Build.after_spelled wanted store
      have hrun : Build.spelled wanted store = .ok type next := h
      rw [← after_of_ok hrun, hafter]
      rfl

end TypeRequest

namespace Store

variable {store next : Store} {request : TypeRequest} {type : TypeId}

theorem PlainPaths.run (h : store.PlainPaths) (hr : request.run store = .ok type next) :
    next.PlainPaths := by
  intro path texts hp
  rw [pathName, TypeRequest.names_run hr] at hp
  exact h path texts hp

theorem Interned.run (h : store.Interned) (hg : request.Given store)
    (hr : request.run store = .ok type next) : next.Interned where
  labelled := by
    have hl := TypeRequest.labelled_run hg h.labelled
    rwa [after_of_ok hr] at hl
  texts := by
    rw [TypeRequest.names_run hr]
    exact h.texts

/-- Two classes that go by different paths can each be given the same sort of member, and the
signatures of the two member types differ. There are signatures if the paths in the types are known
and nothing that makes up the member is in a placeholder space. -/
theorem Reachable.members_apart (h : store.Reachable) (hp : store.PlainPaths) {a b : TypeId}
    {name name' : PathId} {isStruct isStruct' : Bool}
    (ha : store.node? a = some (.plain (.classType name isStruct)))
    (hb : store.node? b = some (.plain (.classType name' isStruct'))) (hne : name ≠ name')
    {member : MemberType} (hm : member.HeldBy store) :
    ∃ first next second last, (member.ofClass a).run store = .ok first next ∧
      (member.ofClass b).run next = .ok second last ∧
      (∀ text text', last.signature first = .ok text → last.signature second = .ok text' →
        text ≠ text') ∧
      (store.Interned → member.FreeOfPlaceholders store →
        ∃ text text', last.signature first = .ok text ∧ last.signature second = .ok text') := by
  have hw := h.wellFormed
  obtain ⟨first, next, shape, hrun, hgrows, hn, ho, hfree⟩ := MemberType.run_ofClass hw ha hm
  have hw' := hgrows.wellFormed
  have hext := hgrows.extends_
  have hm' := hm.mono hext
  obtain ⟨second, last, shape', hrun', hgrows', hn', ho', hfree'⟩ :=
    MemberType.run_ofClass hw' (hext.node? hb) hm'
  have hext' := hgrows'.extends_
  refine ⟨first, next, second, last, hrun, hrun', fun text text' hs hs' => ?_, fun hi hf => ?_⟩
  · have ha' := hext'.node? (hext.node? ha)
    have hb' := hext'.node? (hext.node? hb)
    exact ((hp.run hrun).run hrun').signature_ne hgrows'.wellFormed ha' hb' hne (hext'.node? hn) hn'
      ho ho' hs hs'
  · have hi' : last.Interned :=
      (hi.run (hm.given ⟨_, ha⟩) hrun).run (hm'.given ⟨_, hext.node? hb⟩) hrun'
    obtain ⟨text, hs⟩ := hi'.exists_signature hgrows'.wellFormed ⟨_, hext'.node? hn⟩
      ((hfree hf).mono hext' hw' ⟨_, hn⟩)
    obtain ⟨text', hs'⟩ := hi'.exists_signature hgrows'.wellFormed ⟨_, hn'⟩
      (hfree' (hf.mono hext hw hm))
    exact ⟨text, text', hs, hs'⟩

/-- Functions of the struct `foo` and the union `bar` that take and give integers. -/
theorem Reachable.members_apart_union :
    let int : TypeId := .builtin (.int ⟨.int, true⟩)
    let foo : TypeId := ⟨Builtin.all.length⟩
    let bar : TypeId := ⟨Builtin.all.length + 1⟩
    let store := (Store.new .wide).afterAll [.path ["foo"], .path ["bar"],
      .enter (.classType ⟨1⟩ true), .enter (.classType ⟨2⟩ false), .params [int] true]
    store.Reachable ∧ store.PlainPaths ∧ store.Interned ∧ foo ≠ bar ∧
      ∃ first next second last text text',
        Build.memberFunction foo int ⟨1⟩ .langC store = .ok first next ∧
        Build.memberFunction bar int ⟨1⟩ .langC next = .ok second last ∧
        last.signature first = .ok text ∧ last.signature second = .ok text' ∧ text ≠ text' := by
  intro int foo bar store
  have hr : store.Reachable := (reachable_new .wide).afterAll (by
    simp [Request.Countable, TypeRequest.Countable, UInt64.size])
  have hp : store.PlainPaths := plainPaths_of_texts (by decide +kernel)
  have hi : store.Interned := interned_of_tables (by decide +kernel) (by decide +kernel)
  have hfoo : store.node? foo = some (.plain (.classType ⟨1⟩ true)) := by decide +kernel
  have hbar : store.node? bar = some (.plain (.classType ⟨2⟩ false)) := by decide +kernel
  have hset : store.paramSet ⟨1⟩ = .ok ⟨[int], true⟩ := by decide +kernel
  have hint : store.FreeOfPlaceholders int :=
    .leaf (hr.wellFormed.node?_builtin _) rfl rfl rfl
  have hm : (MemberType.function int ⟨1⟩ .langC).HeldBy store :=
    ⟨⟨_, hr.wellFormed.node?_builtin _⟩, _, hset⟩
  have hfree : (MemberType.function int ⟨1⟩ .langC).FreeOfPlaceholders store := by
    intro part hu
    cases hu with
    | ret => exact hint
    | listed hset' hmem =>
        cases hset.symm.trans hset'
        exact List.mem_singleton.mp hmem ▸ hint
  obtain ⟨first, next, second, last, hrun, hrun', hne, hexists⟩ :=
    hr.members_apart hp hfoo hbar (by decide) hm
  obtain ⟨text, text', hs, hs'⟩ := hexists hi hfree
  exact ⟨hr, hp, hi, by decide +kernel, first, next, second, last, text, text', hrun, hrun', hs,
    hs', hne text text' hs hs'⟩

/-- The struct and the union `foo` are two classes, but their members share signatures. -/
theorem exists_members_alike :
    let int : TypeId := .builtin (.int ⟨.int, true⟩)
    let struct : TypeId := ⟨Builtin.all.length⟩
    let union : TypeId := ⟨Builtin.all.length + 1⟩
    let store := (Store.new .wide).afterAll
      [.path ["foo"], .enter (.classType ⟨1⟩ true), .enter (.classType ⟨1⟩ false)]
    store.Reachable ∧ store.PlainPaths ∧ store.Interned ∧ struct ≠ union ∧
      store.node? struct = some (.plain (.classType ⟨1⟩ true)) ∧
      store.node? union = some (.plain (.classType ⟨1⟩ false)) ∧ store.FreeOfPlaceholders int ∧
      (∃ first next second last, Build.memberPointer struct int store = .ok first next ∧
        Build.memberPointer union int next = .ok second last ∧ first ≠ second ∧
        last.signature first = .ok "O\x7b::foo\x7d(B<int>)" ∧
        last.signature second = .ok "O\x7b::foo\x7d(B<int>)") ∧
      ∃ first next second last, Build.memberFunction struct int ⟨0⟩ .langC store = .ok first next ∧
        Build.memberFunction union int ⟨0⟩ .langC next = .ok second last ∧ first ≠ second ∧
        last.signature first = .ok "M\x7b::foo\x7d<c>()(B<int>)" ∧
        last.signature second = .ok "M\x7b::foo\x7d<c>()(B<int>)" := by
  intro int struct union store
  have hr : store.Reachable := (reachable_new .wide).afterAll (by
    simp [Request.Countable, TypeRequest.Countable])
  have hint : store.FreeOfPlaceholders int :=
    .leaf (hr.wellFormed.node?_builtin _) rfl rfl rfl
  refine ⟨hr, plainPaths_of_texts (by decide +kernel),
    interned_of_tables (by decide +kernel) (by decide +kernel), by decide +kernel,
    by decide +kernel, by decide +kernel, hint, ?_, ?_⟩
  · refine ⟨⟨Builtin.all.length + 2⟩, _, ⟨Builtin.all.length + 3⟩, _,
      outcome_eq_ok.mp (by decide +kernel), outcome_eq_ok.mp (by decide +kernel), by decide +kernel,
      by decide +kernel, by decide +kernel⟩
  · refine ⟨⟨Builtin.all.length + 2⟩, _, ⟨Builtin.all.length + 3⟩, _,
      outcome_eq_ok.mp (by decide +kernel), outcome_eq_ok.mp (by decide +kernel), by decide +kernel,
      by decide +kernel, by decide +kernel⟩

end Store

end TypeGraph
