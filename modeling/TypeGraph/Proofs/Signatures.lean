import TypeGraph.Proofs.Records
import TypeGraph.Proofs.Scanning

/-!
Signatures tell types apart. Main statements: a signature is read as one tree only
(`Signature.splits_tree`), and across stores equal signatures mean equal records
(`Store.Reachable.signature_eq_iff`).
-/

namespace TypeGraph

namespace Signature

/-! ### Signatures as letters -/

/-- The letter that a signature starts with. -/
def letter : TreeShape → Char
  | .builtin _ => 'B'
  | .array _ _ => 'A'
  | .bitfield .. => 'W'
  | .pointer _ => 'P'
  | .leftRef _ => 'L'
  | .rightRef _ => 'R'
  | .function .. => 'F'
  | .memberFunction .. => 'M'
  | .memberPointer .. => 'O'
  | .tuple _ => 'T'
  | .classType _ isStruct => if isStruct then 'S' else 'U'
  | .enumType _ => 'E'

/-- The path of the class that has a member. -/
def ownerChars (owner : Tree) : List Char := (owner.shape.name?.map nameChars).getD []

def tagChars (tag : String) : List Char := '<' :: tag.toList ++ ['>']

mutual

/-- The signature of a type, with nothing written for unknown paths. -/
def treeChars : Tree → List Char
  | ⟨shape, qual⟩ => letter shape :: fieldChars shape ++ qualChars qual
termination_by structural tree => tree

/-- What follows the letter of a shape. -/
def fieldChars : TreeShape → List Char
  | .builtin type => tagChars type.tag
  | .array base count => '[' :: extentBody count ++ ']' :: '(' :: treeChars base ++ [')']
  | .bitfield base bits offset =>
      '(' :: treeChars base ++ ')' :: '[' :: digits bits.toNat ++
        ']' :: '[' :: digits offset.toNat ++ [']']
  | .pointer base => '(' :: treeChars base ++ [')']
  | .leftRef base => '(' :: treeChars base ++ [')']
  | .rightRef base => '(' :: treeChars base ++ [')']
  | .function ret ⟨types, variadic⟩ conv =>
      tagChars conv.tag ++ '(' :: listChars id variadic (treesChars types) ++
        ')' :: '(' :: treeChars ret ++ [')']
  | .memberFunction owner ret ⟨types, variadic⟩ conv =>
      ownerChars owner ++ tagChars conv.tag ++ '(' :: listChars id variadic (treesChars types) ++
        ')' :: '(' :: treeChars ret ++ [')']
  | .memberPointer owner base => ownerChars owner ++ '(' :: treeChars base ++ [')']
  | .tuple ⟨types, variadic⟩ => '(' :: listChars id variadic (treesChars types) ++ [')']
  | .classType name _ => nameChars name
  | .enumType name => nameChars name
termination_by structural shape => shape

def treesChars : List Tree → List (List Char)
  | [] => []
  | tree :: rest => treeChars tree :: treesChars rest
termination_by structural list => list

end

theorem treesChars_eq (trees : List Tree) : treesChars trees = trees.map treeChars := by
  induction trees with
  | nil => rfl
  | cons tree trees ih => rw [treesChars, List.map_cons, ih]

/-- The letters of a list of types are those of a list of signatures. -/
theorem listChars_map (isOpen : Bool) (trees : List Tree) :
    listChars id isOpen (trees.map treeChars) = listChars treeChars isOpen trees := by
  cases trees with
  | nil => rfl
  | cons tree trees => simp [listChars, restChars, List.flatMap_map]

theorem toList_tagged (tag : String) : (tagged tag).toList = tagChars tag := by
  simp [tagged, tagChars]

theorem toList_nested (text : String) : (nested text).toList = '(' :: text.toList ++ [')'] := by
  simp [nested]

theorem toList_name {path : PathName} {text : String} (h : name path = .ok text) :
    text.toList = nameChars path := by
  cases path with
  | ok texts =>
      cases h
      rw [toList_segments]
      rfl
  | error failure => cases h

theorem toList_params (types : List String) (variadic : Bool) :
    (params types variadic).toList =
      '(' :: listChars id variadic (types.map String.toList) ++ [')'] := by
  have hlist : (types.map nested ++ if variadic then ["..."] else []).map String.toList =
      (types.map String.toList).map (fun w => '(' :: w ++ [')']) ++
        if variadic then [['.', '.', '.']] else [] := by
    cases variadic <;> simp [Function.comp_def, toList_nested]
  rw [params, toList_nested, String.toList_intercalate, hlist]
  rw [← intercalate_eq_listChars id]
  rfl

/-! ### What a signature that was written says -/

theorem known_of_name {path : PathName} {text : String} (h : name path = .ok text) :
    PathName.Known path := by
  cases path with
  | ok texts => exact ⟨texts, rfl⟩
  | error failure => cases h

theorem space_spec {own : Space PathName} (hn : own.WellNamed) {text : String}
    (h : space own = .ok text) : text.toList = spaceChars own ∧ own.record.stop = none := by
  obtain ⟨storage, path⟩ := own
  cases hp : storage.isPlaceholder with
  | true =>
      simp only [space, hp, if_true] at h
      cases h
  | false =>
      cases hg : (Space.mk storage path).isGeneric with
      | true =>
          simp only [space, hp, hg, if_true, Bool.false_eq_true, if_false] at h
          obtain rfl : storage = .gen := by simpa [Space.isGeneric] using hg
          have hnone : path.isSome = false := hn
          obtain rfl : path = none := by simpa using hnone
          cases h
          exact ⟨rfl, Output.stop_space_of_known hp (by simp)⟩
      | false =>
          simp only [space, hp, hg, Bool.false_eq_true, if_false] at h
          cases path with
          | none =>
              cases h
              refine ⟨?_, Output.stop_space_of_known hp (by simp)⟩
              simp [spaceChars, hg, toList_tagged, tagChars]
          | some path =>
              obtain ⟨written, hw, h⟩ := bind_eq_ok.mp h
              cases h
              refine ⟨?_, Output.stop_space_of_known hp ?_⟩
              · simp [spaceChars, hg, toList_tagged, tagChars, toList_name hw]
              · rintro _ ⟨⟩
                exact known_of_name hw

theorem qual_spec {own : Qual PathName} (hn : own.space.WellNamed) {text : String}
    (h : qual own = .ok text) : text.toList = qualChars own ∧ own.record.stop = none := by
  obtain ⟨written, hw, h⟩ := bind_eq_ok.mp h
  obtain ⟨hs, hr⟩ := space_spec hn hw
  cases h
  refine ⟨?_, ?_⟩
  · simp only [String.toList_append, hs, qualChars, List.append_assoc]
    cases own.isAtomic <;> cases own.isConst <;> cases own.isRestrict <;> cases own.isVolatile <;>
      simp [flagChars]
  · simp only [Qual.record, Output.stop_append, hr, Output.stop_bool, and_self]

theorem trees_spec {trees : List Tree} (ih : ∀ tree ∈ trees, ∀ text, ofTree tree = .ok text →
    text.toList = treeChars tree ∧ tree.record.stop = none) :
    ∀ {texts : List String}, ofTrees trees = .ok texts →
      texts.map String.toList = trees.map treeChars ∧
        ∀ tree ∈ trees, tree.record.stop = none := by
  induction trees with
  | nil =>
      intro texts h
      cases h
      exact ⟨rfl, by simp⟩
  | cons tree trees hrest =>
      intro texts h
      obtain ⟨text, ht, h⟩ := bind_eq_ok.mp h
      obtain ⟨rest, hr, h⟩ := bind_eq_ok.mp h
      cases h
      obtain ⟨hc, hs⟩ := ih tree List.mem_cons_self text ht
      obtain ⟨hcs, hss⟩ := hrest (fun other hm => ih other (List.mem_cons_of_mem _ hm)) hr
      refine ⟨by rw [List.map_cons, List.map_cons, hc, hcs], ?_⟩
      intro other hm
      rcases List.mem_cons.mp hm with rfl | hm
      · exact hs
      · exact hss other hm

/-- A list of parameters, where `trees_spec` tells the letters of each. -/
theorem params_spec {types : List Tree} (variadic : Bool) (ih : ∀ tree ∈ types, ∀ text,
      ofTree tree = .ok text → text.toList = treeChars tree ∧ tree.record.stop = none)
    {texts : List String} (h : ofTrees types = .ok texts) :
    (params texts variadic).toList = '(' :: listChars id variadic (treesChars types) ++ [')'] ∧
      (Tree.recordParams ⟨types, variadic⟩).stop = none := by
  obtain ⟨hchars, hstop⟩ := trees_spec ih h
  refine ⟨?_, Tree.stop_recordParams hstop⟩
  rw [toList_params, hchars, treesChars_eq]

/-- The class of a member is written by its path alone, and as a record in full. -/
theorem owner_spec {owner : Tree}
    (hc : ∃ name isStruct, owner = ⟨.classType name isStruct, Qual.none⟩) {text : String}
    (h : ownerName owner = .ok text) :
    text.toList = ownerChars owner ∧ owner.record.stop = none := by
  obtain ⟨path, isStruct, rfl⟩ := hc
  have h : name path = .ok text := h
  obtain ⟨texts, rfl⟩ := known_of_name h
  exact ⟨toList_name h, rfl⟩

/-- The letters of a shape, given those of its parts. What has a signature has a record. -/
theorem shape_spec {shape : TreeShape} {own : Qual PathName} (hr : shape.Regular own)
    (ih : ∀ part ∈ TreeShape.parts shape, ∀ text, ofTree part = .ok text →
      text.toList = treeChars part ∧ part.record.stop = none)
    {text : String} (h : ofShape shape = .ok text) :
    text.toList = letter shape :: fieldChars shape ∧ (Tree.recordFields shape).stop = none := by
  cases shape with
  | builtin type =>
      cases h
      refine ⟨?_, rfl⟩
      simp [letter, fieldChars, toList_tagged]
  | array base count =>
      obtain ⟨written, hw, h⟩ := bind_eq_ok.mp h
      cases h
      obtain ⟨hc, hs⟩ := ih base (by simp [TreeShape.parts]) written hw
      refine ⟨?_, Output.stop_append.mpr ⟨by cases count <;> rfl, hs⟩⟩
      simp [letter, fieldChars, toList_extent, toList_nested, hc]
  | bitfield base bits offset =>
      obtain ⟨written, hw, h⟩ := bind_eq_ok.mp h
      cases h
      obtain ⟨hc, hs⟩ := ih base (by simp [TreeShape.parts]) written hw
      refine ⟨?_, by simp [Tree.recordFields, hs]⟩
      simp [letter, fieldChars, toList_bracket_word, toList_nested, hc]
  | pointer base | leftRef base | rightRef base =>
      obtain ⟨written, hw, h⟩ := bind_eq_ok.mp h
      cases h
      obtain ⟨hc, hs⟩ := ih base (by simp [TreeShape.parts]) written hw
      refine ⟨?_, hs⟩
      simp [letter, fieldChars, toList_nested, hc]
  | function ret list conv =>
      obtain ⟨types, variadic⟩ := list
      obtain ⟨written, hw, h⟩ := bind_eq_ok.mp h
      obtain ⟨result, hres, h⟩ := bind_eq_ok.mp h
      cases h
      obtain ⟨hcs, hss⟩ := params_spec variadic
        (fun tree hm => ih tree (by simp [TreeShape.parts, hm])) hw
      obtain ⟨hc, hs⟩ := ih ret (by simp [TreeShape.parts]) result hres
      refine ⟨?_, by simp [Tree.recordFields, hs, hss]⟩
      simp [letter, fieldChars, toList_tagged, toList_nested, hc, hcs]
  | memberFunction owner ret list conv =>
      obtain ⟨types, variadic⟩ := list
      obtain ⟨path, hp, h⟩ := bind_eq_ok.mp h
      obtain ⟨written, hw, h⟩ := bind_eq_ok.mp h
      obtain ⟨result, hres, h⟩ := bind_eq_ok.mp h
      cases h
      obtain ⟨hco, hso⟩ := owner_spec (hr.owner owner rfl) hp
      obtain ⟨hcs, hss⟩ := params_spec variadic
        (fun tree hm => ih tree (by simp [TreeShape.parts, hm])) hw
      obtain ⟨hc, hs⟩ := ih ret (by simp [TreeShape.parts]) result hres
      refine ⟨?_, by simp [Tree.recordFields, hso, hs, hss]⟩
      simp [letter, fieldChars, toList_tagged, toList_nested, hc, hco, hcs]
  | memberPointer owner base =>
      obtain ⟨path, hp, h⟩ := bind_eq_ok.mp h
      obtain ⟨written, hw, h⟩ := bind_eq_ok.mp h
      cases h
      obtain ⟨hco, hso⟩ := owner_spec (hr.owner owner rfl) hp
      obtain ⟨hc, hs⟩ := ih base (by simp [TreeShape.parts]) written hw
      refine ⟨?_, Output.stop_append.mpr ⟨hso, hs⟩⟩
      simp [letter, fieldChars, toList_nested, hc, hco]
  | tuple list =>
      obtain ⟨types, variadic⟩ := list
      obtain ⟨written, hw, h⟩ := bind_eq_ok.mp h
      cases h
      obtain ⟨hcs, hss⟩ := params_spec variadic
        (fun tree hm => ih tree (by simp [TreeShape.parts, hm])) hw
      refine ⟨?_, hss⟩
      simp [letter, fieldChars, hcs]
  | classType path isStruct =>
      obtain ⟨written, hw, h⟩ := bind_eq_ok.mp h
      cases h
      refine ⟨?_, Output.stop_key.mpr (known_of_name hw)⟩
      cases isStruct <;> simp [letter, fieldChars, toList_name hw]
  | enumType path =>
      obtain ⟨written, hw, h⟩ := bind_eq_ok.mp h
      cases h
      refine ⟨?_, Output.stop_key.mpr (known_of_name hw)⟩
      simp [letter, fieldChars, toList_name hw]

/-- The letters of a type. What has a signature has a record. -/
theorem tree_spec {tree : Tree} (hr : tree.Regular) :
    ∀ {text : String}, ofTree tree = .ok text →
      text.toList = treeChars tree ∧ tree.record.stop = none := by
  induction hr with
  | @mk shape own hown _ ih =>
      intro text h
      obtain ⟨front, hf, h⟩ := bind_eq_ok.mp h
      obtain ⟨back, hb, h⟩ := bind_eq_ok.mp h
      cases h
      obtain ⟨hcf, hsf⟩ := shape_spec hown (fun part hm text => ih part hm) hf
      obtain ⟨hcb, hsb⟩ := qual_spec hown.space hb
      refine ⟨by simp [treeChars, hcf, hcb], ?_⟩
      rw [Tree.record_eq]
      exact Output.stop_append.mpr ⟨Output.stop_append.mpr ⟨rfl, hsf⟩, hsb⟩

/-! ### Reading a signature -/

/-- What makes a signature readable: names that are plain, and paths that tell whether they name a
struct or a union, which `kind` says. -/
structure Readable (kind : List String → Bool → Prop) (shape : TreeShape) (qual : Qual PathName) :
    Prop where
  space : PlainSpace qual.space
  name : ∀ name, shape.name? = some name → PlainName name
  kind : ∀ texts isStruct, shape = .classType (.ok texts) isStruct → kind texts isStruct
  owner : ∀ owner, shape.owner? = some owner →
    ∃ name isStruct, owner = ⟨.classType name isStruct, Qual.none⟩

variable {kind : List String → Bool → Prop}

theorem splits_tagChars {α : Type} [Tagged α] (hp : PlainTags α) {a b : α} {r s : List Char}
    (h : tagChars (Tagged.tag a) ++ r = tagChars (Tagged.tag b) ++ s) : a = b ∧ r = s := by
  have h : (Tagged.tag a).toList ++ '>' :: r = (Tagged.tag b).toList ++ '>' :: s := by
    simpa [tagChars] using h
  obtain ⟨hab, _, hrs⟩ := splits_tag hp (Or.inl rfl) (Or.inl rfl) h
  exact ⟨hab, hrs⟩

/-- The path of a class says which class it is, as no path names both a struct and a union. -/
theorem splits_owner (hkind : ∀ texts, kind texts true → ¬kind texts false) {a b : Tree}
    (ha : a.All (Readable kind)) (hb : b.All (Readable kind))
    (hca : ∃ name isStruct, a = ⟨.classType name isStruct, Qual.none⟩)
    (hcb : ∃ name isStruct, b = ⟨.classType name isStruct, Qual.none⟩) {r s : List Char}
    (h : ownerChars a ++ r = ownerChars b ++ s) : a = b ∧ r = s := by
  obtain ⟨path, isStruct, rfl⟩ := hca
  obtain ⟨path', isStruct', rfl⟩ := hcb
  cases ha with
  | mk ha _ =>
      cases hb with
      | mk hb _ =>
          obtain ⟨rfl, hrs⟩ := splits_name (ha.name path rfl) (hb.name path' rfl) h
          obtain ⟨texts, rfl, _⟩ := ha.name path rfl
          have hk := ha.kind texts isStruct rfl
          have hk' := hb.kind texts isStruct' rfl
          have heq : isStruct = isStruct' := by
            cases isStruct <;> cases isStruct'
            · rfl
            · exact absurd hk (hkind texts hk')
            · exact absurd hk' (hkind texts hk)
            · rfl
          exact ⟨by rw [heq], hrs⟩

/-- A parameter list and a result, each in parentheses, and what follows. -/
def callChars (list : Params Tree) (ret : Tree) (rest : List Char) : List Char :=
  '(' :: listChars treeChars list.variadic list.types ++ ')' :: '(' :: treeChars ret ++ ')' :: rest

theorem fieldChars_function (ret : Tree) (list : Params Tree) (conv : Convention) (r : List Char) :
    fieldChars (.function ret list conv) ++ r = tagChars conv.tag ++ callChars list ret r := by
  obtain ⟨types, variadic⟩ := list
  simp [fieldChars, callChars, treesChars_eq, listChars_map]

theorem fieldChars_memberFunction (owner ret : Tree) (list : Params Tree) (conv : Convention)
    (r : List Char) :
    fieldChars (.memberFunction owner ret list conv) ++ r =
      ownerChars owner ++ (tagChars conv.tag ++ callChars list ret r) := by
  obtain ⟨types, variadic⟩ := list
  simp [fieldChars, callChars, treesChars_eq, listChars_map]

theorem splits_call {list list' : Params Tree} {ret ret' : Tree} {r s : List Char}
    (hparts : ∀ x ∈ ret :: list.types, ∀ y ∈ ret' :: list'.types, ∀ r s,
      treeChars x ++ ')' :: r = treeChars y ++ ')' :: s → x = y ∧ r = s)
    (h : callChars list ret r = callChars list' ret' s) : list = list' ∧ ret = ret' ∧ r = s := by
  obtain ⟨types, variadic⟩ := list
  obtain ⟨types', variadic'⟩ := list'
  have h : listChars treeChars variadic types ++ ')' :: '(' :: (treeChars ret ++ ')' :: r) =
      listChars treeChars variadic' types' ++ ')' :: '(' :: (treeChars ret' ++ ')' :: s) := by
    simpa [callChars] using h
  obtain ⟨rfl, rfl, h'⟩ := splits_list (fun x hx y hy => hparts x (List.mem_cons_of_mem _ hx) y
    (List.mem_cons_of_mem _ hy)) h
  obtain ⟨rfl, hrs⟩ := hparts ret List.mem_cons_self ret' List.mem_cons_self r s
    (List.cons.inj h').2
  exact ⟨rfl, rfl, hrs⟩

/-- Two shapes of one form. Whether a class is a struct or a union is part of its form. -/
inductive SameForm : TreeShape → TreeShape → Prop where
  | builtin (type type') : SameForm (.builtin type) (.builtin type')
  | array (base base' count count') : SameForm (.array base count) (.array base' count')
  | bitfield (base base' bits bits' offset offset') :
      SameForm (.bitfield base bits offset) (.bitfield base' bits' offset')
  | pointer (base base') : SameForm (.pointer base) (.pointer base')
  | leftRef (base base') : SameForm (.leftRef base) (.leftRef base')
  | rightRef (base base') : SameForm (.rightRef base) (.rightRef base')
  | function (ret ret' list list' conv conv') :
      SameForm (.function ret list conv) (.function ret' list' conv')
  | memberFunction (owner owner' ret ret' list list' conv conv') :
      SameForm (.memberFunction owner ret list conv) (.memberFunction owner' ret' list' conv')
  | memberPointer (owner owner' base base') :
      SameForm (.memberPointer owner base) (.memberPointer owner' base')
  | tuple (list list') : SameForm (.tuple list) (.tuple list')
  | classType (path path' isStruct) :
      SameForm (.classType path isStruct) (.classType path' isStruct)
  | enumType (path path') : SameForm (.enumType path) (.enumType path')

/-- The letter tells the form. -/
theorem SameForm.of_letter {a b : TreeShape} (h : letter a = letter b) : SameForm a b := by
  cases a <;> cases b
  case classType.classType path isStruct path' isStruct' =>
      obtain rfl : isStruct = isStruct' := by
        cases isStruct <;> cases isStruct' <;> simp [letter] at h ⊢
      exact .classType path path' isStruct
  all_goals first
    | constructor
    | (simp only [letter] at h; split at h <;> simp at h)
    | simp [letter] at h

/-- The fields of a shape tell the shape, if those of its parts tell the parts. -/
theorem splits_shape (hkind : ∀ texts, kind texts true → ¬kind texts false) {a b : TreeShape}
    {own own' : Qual PathName} (ha : Readable kind a own) (hb : Readable kind b own')
    (hpa : ∀ part ∈ TreeShape.parts a, part.All (Readable kind))
    (hpb : ∀ part ∈ TreeShape.parts b, part.All (Readable kind))
    (hparts : ∀ x ∈ TreeShape.parts a, ∀ y ∈ TreeShape.parts b, ∀ r s,
      treeChars x ++ ')' :: r = treeChars y ++ ')' :: s → x = y ∧ r = s)
    (hform : SameForm a b) {r s : List Char}
    (h : fieldChars a ++ r = fieldChars b ++ s) : a = b ∧ r = s := by
  cases hform with
  | builtin type type' =>
      obtain ⟨rfl, hrs⟩ := splits_tagChars plainTags_builtin h
      exact ⟨rfl, hrs⟩
  | array base base' count count' =>
      have h : extentBody count ++ ']' :: '(' :: (treeChars base ++ ')' :: r) =
          extentBody count' ++ ']' :: '(' :: (treeChars base' ++ ')' :: s) := by
        simpa [fieldChars] using h
      obtain ⟨rfl, h'⟩ := splits_extent h
      obtain ⟨rfl, hrs⟩ := hparts base (by simp [TreeShape.parts]) base'
        (by simp [TreeShape.parts]) _ _ (List.cons.inj h').2
      exact ⟨rfl, hrs⟩
  | bitfield base base' bits bits' offset offset' =>
      have h : treeChars base ++ ')' :: '[' :: (digits bits.toNat ++ ']' :: '[' ::
            (digits offset.toNat ++ ']' :: r)) =
          treeChars base' ++ ')' :: '[' :: (digits bits'.toNat ++ ']' :: '[' ::
            (digits offset'.toNat ++ ']' :: s)) := by
        simpa [fieldChars] using h
      obtain ⟨rfl, hbits⟩ := hparts base (by simp [TreeShape.parts]) base'
        (by simp [TreeShape.parts]) _ _ h
      obtain ⟨rfl, hoffset⟩ := splits_word (List.cons.inj hbits).2
      obtain ⟨rfl, hrs⟩ := splits_word (List.cons.inj hoffset).2
      exact ⟨rfl, hrs⟩
  | pointer base base' | leftRef base base' | rightRef base base' =>
      obtain ⟨rfl, hrs⟩ := hparts base (by simp [TreeShape.parts]) base'
        (by simp [TreeShape.parts]) r s (by simpa [fieldChars] using h)
      exact ⟨rfl, hrs⟩
  | function ret ret' list list' conv conv' =>
      rw [fieldChars_function, fieldChars_function] at h
      obtain ⟨rfl, h'⟩ := splits_tagChars plainTags_convention h
      obtain ⟨rfl, rfl, hrs⟩ := splits_call
        (fun x hx y hy => hparts x (by simpa [TreeShape.parts] using hx) y
          (by simpa [TreeShape.parts] using hy)) h'
      exact ⟨rfl, hrs⟩
  | memberFunction owner owner' ret ret' list list' conv conv' =>
      rw [fieldChars_memberFunction, fieldChars_memberFunction] at h
      obtain ⟨rfl, hconv⟩ := splits_owner hkind (hpa owner (by simp [TreeShape.parts]))
        (hpb owner' (by simp [TreeShape.parts])) (ha.owner owner rfl) (hb.owner owner' rfl) h
      obtain ⟨rfl, h'⟩ := splits_tagChars plainTags_convention hconv
      obtain ⟨rfl, rfl, hrs⟩ := splits_call
        (fun x hx y hy => hparts x (List.mem_cons_of_mem _ hx) y
          (List.mem_cons_of_mem _ hy)) h'
      exact ⟨rfl, hrs⟩
  | memberPointer owner owner' base base' =>
      have h : ownerChars owner ++ '(' :: (treeChars base ++ ')' :: r) =
          ownerChars owner' ++ '(' :: (treeChars base' ++ ')' :: s) := by
        simpa [fieldChars] using h
      obtain ⟨rfl, h'⟩ := splits_owner hkind (hpa owner (by simp [TreeShape.parts]))
        (hpb owner' (by simp [TreeShape.parts])) (ha.owner owner rfl) (hb.owner owner' rfl) h
      obtain ⟨rfl, hrs⟩ := hparts base (by simp [TreeShape.parts]) base'
        (by simp [TreeShape.parts]) r s (List.cons.inj h').2
      exact ⟨rfl, hrs⟩
  | tuple list list' =>
      obtain ⟨types, variadic⟩ := list
      obtain ⟨types', variadic'⟩ := list'
      have h : listChars treeChars variadic types ++ ')' :: r =
          listChars treeChars variadic' types' ++ ')' :: s := by
        simpa [fieldChars, treesChars_eq, listChars_map] using h
      obtain ⟨rfl, rfl, hrs⟩ := splits_list hparts h
      exact ⟨rfl, hrs⟩
  | classType path path' isStruct | enumType path path' =>
      obtain ⟨rfl, hrs⟩ := splits_name (ha.name path rfl) (hb.name path' rfl) h
      exact ⟨rfl, hrs⟩

/-- A signature tells the tree, whatever comes after its end. -/
theorem splits_tree (hkind : ∀ texts, kind texts true → ¬kind texts false) {a : Tree}
    (ha : a.All (Readable kind)) :
    ∀ {b : Tree}, b.All (Readable kind) → ∀ {r s : List Char}, Ends r → Ends s →
      treeChars a ++ r = treeChars b ++ s → a = b ∧ r = s := by
  induction ha with
  | @mk shape own hown hparts ih =>
      intro b hb r s hr hs h
      cases hb with
      | @mk shape' own' hown' hparts' =>
          have h : letter shape :: (fieldChars shape ++ (qualChars own ++ r)) =
              letter shape' :: (fieldChars shape' ++ (qualChars own' ++ s)) := by
            simpa [treeChars] using h
          obtain ⟨hletter, hfields⟩ := List.cons.inj h
          have hnested : ∀ x ∈ TreeShape.parts shape, ∀ y ∈ TreeShape.parts shape', ∀ r s,
              treeChars x ++ ')' :: r = treeChars y ++ ')' :: s → x = y ∧ r = s := by
            intro x hx y hy r s hxy
            obtain ⟨hxy, hrs⟩ := ih x hx (hparts' y hy) (Or.inr ⟨r, rfl⟩) (Or.inr ⟨s, rfl⟩) hxy
            exact ⟨hxy, (List.cons.inj hrs).2⟩
          obtain ⟨rfl, hquals⟩ :=
            splits_shape hkind hown hown' hparts hparts' hnested (.of_letter hletter) hfields
          obtain ⟨rfl, hrs⟩ := splits_qual hown.space hown'.space hr hs hquals
          exact ⟨rfl, hrs⟩

end Signature

namespace Load

/-- A record is that of one tree. -/
theorem CanRestore.tree_eq {a b : Tree} (ha : CanRestore Load.type a) (hb : CanRestore Load.type b)
    (h : a.record = b.record) : a = b := by
  have hw := Store.wellFormed_new .wide
  obtain ⟨type, new, hra⟩ := ha.restores _ hw
  obtain ⟨type', new', hrb⟩ := hb.restores _ hw
  have hread := hra.reads []
  rw [h, hrb.reads []] at hread
  cases hread
  have htree := hra.unfolds
  rw [hrb.unfolds] at htree
  cases htree
  rfl

end Load

namespace Store

variable {store : Store}

/-- No segment of a path contains a colon or a closing brace. -/
def PlainPaths (store : Store) : Prop :=
  ∀ path texts, store.pathName path = .ok texts → ∀ text ∈ texts, Signature.PlainText text

/-- A struct or a union of the store goes by a path. -/
def NamesClass (store : Store) (texts : List String) (isStruct : Bool) : Prop :=
  ∃ type path qual, store.node? type = some ⟨.classType path isStruct, qual⟩ ∧
    store.pathName path = .ok texts

theorem PlainPaths.plainName (h : store.PlainPaths) {path : PathId} {name : PathName}
    (hp : store.pathName path = name) (hk : PathName.Known name) : Signature.PlainName name := by
  obtain ⟨texts, rfl⟩ := hk
  exact ⟨texts, rfl, h path texts hp⟩

theorem WellFormed.namesClass (hw : store.WellFormed) {type : TypeId} {texts : List String}
    {isStruct : Bool} {qual : Qual PathName}
    (h : store.tree type = .ok ⟨.classType (.ok texts) isStruct, qual⟩) :
    store.NamesClass texts isStruct := by
  obtain ⟨wanted, own, ⟨shape, hn, hs⟩, hu, _⟩ := hw.tree_eq_ok.mp h
  rw [spelling_eq_ok] at hs
  cases hu with
  | classType _ hpath =>
      cases hs with
      | classType _ heq =>
          subst heq
          exact ⟨type, _, own, hn, hpath⟩

/-- The signatures of the types of a store can be read. -/
theorem WellFormed.readable (hw : store.WellFormed) (hp : store.PlainPaths)
    {kind : List String → Bool → Prop} (hk : ∀ texts isStruct, store.NamesClass texts isStruct →
      kind texts isStruct) {tree : Tree} (hr : tree.Regular) :
    ∀ {type : TypeId}, tree.Named → store.tree type = .ok tree →
      tree.All (Signature.Readable kind) := by
  induction hr with
  | @mk shape qual own _ ih =>
      intro type hnamed ht
      cases hnamed with
      | mk hname hparts =>
          obtain ⟨wanted, numbered, _, hu, hq⟩ := hw.tree_eq_ok.mp ht
          refine .mk ⟨⟨own.space, ?_⟩, ?_, ?_, own.owner⟩ ?_
          · intro name hn
            obtain ⟨⟨storage, path⟩, isAtomic, isConst, isRestrict, isVolatile⟩ := numbered
            obtain rfl := hq
            obtain ⟨path, hpath, rfl⟩ := Option.map_eq_some_iff.mp hn
            exact hp.plainName rfl (hname.space _ hn)
          · intro name hn
            obtain ⟨path, hpath⟩ := hw.name_of_tree ht hn
            exact hp.plainName hpath (hname.name name hn)
          · rintro texts isStruct rfl
            exact hk texts isStruct (hw.namesClass ht)
          · intro part hm
            obtain ⟨x, hx⟩ := TreeShape.exists_of_rel hu part hm
            exact ih part hm (hparts part hm) hx

/-- A type that has a signature: its tree, its record and the letters of the signature. -/
theorem Reachable.signature_spec (hr : store.Reachable) (kind : List String → Bool → Prop)
    (hs : store.WellNamed) (hp : store.PlainPaths)
    (hk : ∀ texts isStruct, store.NamesClass texts isStruct → kind texts isStruct)
    {type : TypeId} {text : String} (h : store.signature type = .ok text) :
    ∃ tree, store.tree type = .ok tree ∧ text.toList = Signature.treeChars tree ∧
      Load.CanRestore Load.type tree ∧ tree.All (Signature.Readable kind) := by
  have hw := hr.wellFormed
  obtain ⟨tree, ht, htext⟩ := bind_eq_ok.mp h
  have hregular := hw.regular hs tree ht
  obtain ⟨hchars, hstop⟩ := Signature.tree_spec hregular htext
  have hcan := hr.canRestore hs ht hstop
  exact ⟨tree, ht, hchars, hcan, hw.readable hp hk hregular hcan.named ht⟩

theorem save_of_tree {type : TypeId} {tree : Tree} (ht : store.tree type = .ok tree)
    (hs : tree.record.stop = none) : store.save type = ⟨tree.record.items, none⟩ := by
  refine save_eq_ok.mpr ⟨tree, ht, ?_⟩
  rw [← hs]

/-- Types that have signatures have records, and across stores the signatures are equal exactly if
the records are. Within one store they are equal exactly for the same type. -/
theorem Reachable.signature_eq_iff {first second : Store} (hr : first.Reachable)
    (hr' : second.Reachable) (hs : first.WellNamed) (hs' : second.WellNamed)
    (hp : first.PlainPaths) (hp' : second.PlainPaths)
    (hkind : ∀ texts, first.NamesClass texts true ∨ second.NamesClass texts true →
      ¬(first.NamesClass texts false ∨ second.NamesClass texts false))
    {type type' : TypeId} {text text' : String} (h : first.signature type = .ok text)
    (h' : second.signature type' = .ok text') :
    ∃ items items', first.save type = ⟨items, none⟩ ∧ second.save type' = ⟨items', none⟩ ∧
      (text = text' ↔ items = items') ∧ (first = second → (text = text' ↔ type = type')) := by
  let kind (texts : List String) (isStruct : Bool) : Prop :=
    first.NamesClass texts isStruct ∨ second.NamesClass texts isStruct
  obtain ⟨tree, ht, hchars, hcan, hread⟩ := hr.signature_spec kind hs hp (fun _ _ => Or.inl) h
  obtain ⟨tree', ht', hchars', hcan', hread'⟩ :=
    hr'.signature_spec kind hs' hp' (fun _ _ => Or.inr) h'
  have htext : text = text' ↔ tree = tree' := by
    constructor
    · rintro rfl
      refine (Signature.splits_tree hkind hread hread' (Or.inl rfl) (Or.inl rfl) ?_).1
      rw [← hchars, ← hchars']
    · rintro rfl
      exact String.toList_inj.mp (hchars.trans hchars'.symm)
  refine ⟨_, _, save_of_tree ht hcan.written, save_of_tree ht' hcan'.written, ?_, ?_⟩
  · rw [htext]
    constructor
    · rintro rfl
      rfl
    · intro hitems
      have hwhole (out : Output) (h : out.stop = none) : out = ⟨out.items, none⟩ := by
        rw [← h]
      refine hcan.tree_eq hcan' ?_
      rw [hwhole _ hcan.written, hwhole _ hcan'.written, hitems]
  · rintro rfl
    rw [htext]
    constructor
    · rintro rfl
      exact hr.wellFormed.type_eq_of_tree_eq hcan.named ht ht'
    · rintro rfl
      rw [ht] at ht'
      cases ht'
      rfl

/-- Paths are plain if all texts are. -/
theorem plainPaths_of_texts (h : ∀ text ∈ store.names.texts.entries, Signature.PlainText text) :
    store.PlainPaths := by
  intro path texts hp text hm
  obtain ⟨segments, _, htexts⟩ := Names.strings_eq_ok.mp hp
  obtain ⟨keyword, _, hk⟩ := forall₂_exists_right (mapM_eq_ok.mp htexts).flip hm
  exact h text (Table.mem_of_get? (Names.text_eq_ok.mp hk))

/-- The struct `f` in a store that holds nothing else and in one that met the struct `g` first. -/
theorem Reachable.signature_eq_iff_struct :
    ∃ (first second : Store) (type type' : TypeId) (text : String),
      first.Reachable ∧ second.Reachable ∧ first.WellNamed ∧ second.WellNamed ∧
      first.PlainPaths ∧ second.PlainPaths ∧
      (∀ texts, first.NamesClass texts true ∨ second.NamesClass texts true →
        ¬(first.NamesClass texts false ∨ second.NamesClass texts false)) ∧
      type ≠ type' ∧ first.signature type = .ok text ∧ second.signature type' = .ok text ∧
      ∃ items, first.save type = ⟨items, none⟩ ∧ second.save type' = ⟨items, none⟩ := by
  let struct (name : Nat) : Request := .enter (.classType ⟨name⟩ true)
  let named := (Request.path ["f"]).effect (Store.new .wide)
  let first := (struct 1).effect named
  let other := (Request.path ["f"]).effect ((Request.path ["g"]).effect (Store.new .wide))
  let crowded := (struct 1).effect other
  let second := (struct 2).effect crowded
  let type : TypeId := ⟨Builtin.all.length⟩
  let type' : TypeId := ⟨Builtin.all.length + 1⟩
  have hr : first.Reachable :=
    ⟨.wide, .tail (.single ⟨.path ["f"], trivial, rfl⟩) ⟨struct 1, trivial, rfl⟩⟩
  have hr' : second.Reachable :=
    ⟨.wide, .tail (.tail (.tail (.single ⟨.path ["g"], trivial, rfl⟩) ⟨.path ["f"], trivial, rfl⟩)
      ⟨struct 1, trivial, rfl⟩) ⟨struct 2, trivial, rfl⟩⟩
  have hwell (store : Store) (h : ∀ node ∈ store.nodes, node ∈ builtinNodes ∨
      ∃ name, node = .plain (.classType name true)) :
      store.WellNamed ∧ ∀ texts, ¬store.NamesClass texts false := by
    refine ⟨fun type node hn => ?_, fun texts ⟨type, path, qual, hn, _⟩ => ?_⟩
    · rcases h node (Table.mem_of_get? hn) with hm | ⟨name, rfl⟩
      · obtain ⟨builtin, rfl⟩ := mem_builtinNodes.mp hm
        rfl
      · rfl
    · rcases h _ (Table.mem_of_get? hn) with hm | ⟨name, heq⟩
      · obtain ⟨builtin, heq⟩ := mem_builtinNodes.mp hm
        cases heq
      · cases heq
  obtain ⟨hs, hno⟩ := hwell first fun node hm =>
    (Table.mem_insert.mp hm).imp id fun h => ⟨_, h⟩
  obtain ⟨hs', hno'⟩ := hwell second fun node hm =>
    (Table.mem_insert.mp hm).elim
      (fun hm => (Table.mem_insert.mp hm).imp id fun h => ⟨_, h⟩) fun h => Or.inr ⟨_, h⟩
  have hp : first.PlainPaths := plainPaths_of_texts (by decide +kernel)
  have hp' : second.PlainPaths := plainPaths_of_texts (by decide +kernel)
  have hkind : ∀ texts, first.NamesClass texts true ∨ second.NamesClass texts true →
      ¬(first.NamesClass texts false ∨ second.NamesClass texts false) :=
    fun texts _ h => h.elim (hno texts) (hno' texts)
  have htree : first.tree type = .ok ⟨.classType (.ok ["f"]) true, Qual.none⟩ :=
    hr.wellFormed.tree_class
      (show first.node? type = some (.plain (.classType ⟨1⟩ true)) by decide +kernel)
  have htree' : second.tree type' = .ok ⟨.classType (.ok ["f"]) true, Qual.none⟩ :=
    hr'.wellFormed.tree_class
      (show second.node? type' = some (.plain (.classType ⟨2⟩ true)) by decide +kernel)
  have h : first.signature type = .ok "S\x7b::f\x7d" := by
    rw [signature, htree]
    decide +kernel
  have h' : second.signature type' = .ok "S\x7b::f\x7d" := by
    rw [signature, htree']
    decide +kernel
  obtain ⟨items, items', hsave, hsave', htext, _⟩ :=
    Reachable.signature_eq_iff hr hr' hs hs' hp hp' hkind h h'
  obtain rfl := htext.mp rfl
  exact ⟨first, second, type, type', _, hr, hr', hs, hs', hp, hp', hkind, by decide +kernel, h, h',
    items, hsave, hsave'⟩

end Store

end TypeGraph
