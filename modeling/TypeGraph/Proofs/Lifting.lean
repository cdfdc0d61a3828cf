import Mathlib.Logic.Relation
import TypeGraph.Proofs.Outcome

/-!
Shapes related part by part. Main statements: replacing the parts of a shape relates it to the
result (`Shape.mapM_eq_ok`), and relations that determine their parts determine the whole shape
(`Shape.Rel.unique`).
-/

namespace TypeGraph

variable {τ τ' τ'' π π' π'' ν ν' ν'' : Type}

/-- Two parameter lists whose types are related one by one. -/
structure Params.Rel (R : τ → τ' → Prop) (a : Params τ) (b : Params τ') : Prop where
  types : List.Forall₂ R a.types b.types
  variadic : a.variadic = b.variadic

theorem Params.mapM_eq_ok {f : τ → Except Failure τ'} {a : Params τ} {b : Params τ'} :
    a.mapM f = .ok b ↔ Params.Rel (fun x y => f x = .ok y) a b := by
  unfold Params.mapM
  rw [bind_eq_ok]
  constructor
  · rintro ⟨types, ht, h⟩
    rw [← pure_eq_ok.mp h]
    exact ⟨TypeGraph.mapM_eq_ok.mp ht, rfl⟩
  · rintro ⟨ht, hv⟩
    refine ⟨b.types, TypeGraph.mapM_eq_ok.mpr ht, ?_⟩
    rw [hv]
    rfl

theorem Params.Rel.imp {R S : τ → τ' → Prop} (h : ∀ x y, R x y → S x y) {a : Params τ}
    {b : Params τ'} (hr : Params.Rel R a b) : Params.Rel S a b :=
  ⟨hr.types.imp h, hr.variadic⟩

/-- Related parameter lists are variadic together. -/
theorem Params.Rel.split {R : τ → τ' → Prop} {a : Params τ} {b : Params τ'}
    (hr : Params.Rel R a b) :
    ∃ types types' variadic, a = ⟨types, variadic⟩ ∧ b = ⟨types', variadic⟩ ∧
      List.Forall₂ R types types' := by
  obtain ⟨types, variadic⟩ := a
  obtain ⟨types', _⟩ := b
  obtain ⟨ht, rfl⟩ := hr
  exact ⟨types, types', variadic, rfl, rfl, ht⟩

theorem forall₂_comp {R : τ → τ' → Prop} {S : τ' → τ'' → Prop} {as : List τ} {cs : List τ''} :
    List.Forall₂ (Relation.Comp R S) as cs ↔ ∃ bs, List.Forall₂ R as bs ∧ List.Forall₂ S bs cs := by
  constructor
  · intro h
    induction h with
    | nil => exact ⟨[], .nil, .nil⟩
    | cons hac _ ih =>
        obtain ⟨b, hr, hs⟩ := hac
        obtain ⟨bs, hrs, hss⟩ := ih
        exact ⟨b :: bs, .cons hr hrs, .cons hs hss⟩
  · rintro ⟨bs, hr, hs⟩
    induction hr generalizing cs with
    | nil =>
        cases hs
        exact .nil
    | cons hab _ ih =>
        cases hs with
        | cons hbc hs => exact .cons ⟨_, hab, hbc⟩ (ih hs)

theorem forall₂_mem_right {R : τ → τ' → Prop} {as : List τ} {bs : List τ'}
    (h : List.Forall₂ R as bs) : List.Forall₂ (fun a b => b ∈ bs ∧ R a b) as bs := by
  induction h with
  | nil => exact .nil
  | cons hr _ ih =>
      refine .cons ⟨List.mem_cons_self, hr⟩ (ih.imp ?_)
      exact fun a b hab => ⟨List.mem_cons_of_mem _ hab.1, hab.2⟩

theorem forall₂_exists {R : τ → τ' → Prop} {as : List τ} (h : ∀ a ∈ as, ∃ b, R a b) :
    ∃ bs, List.Forall₂ R as bs := by
  induction as with
  | nil => exact ⟨[], .nil⟩
  | cons a as ih =>
      obtain ⟨b, hb⟩ := h a List.mem_cons_self
      obtain ⟨bs, hbs⟩ := ih fun a ha => h a (List.mem_cons_of_mem _ ha)
      exact ⟨b :: bs, .cons hb hbs⟩

theorem Params.Rel.flip {R : τ → τ' → Prop} {a : Params τ} {b : Params τ'} (h : Params.Rel R a b) :
    Params.Rel (fun y x => R x y) b a :=
  ⟨h.types.flip, h.variadic.symm⟩

theorem Params.Rel.comp {R : τ → τ' → Prop} {S : τ' → τ'' → Prop} {a : Params τ} {c : Params τ''} :
    Params.Rel (Relation.Comp R S) a c ↔ ∃ b, Params.Rel R a b ∧ Params.Rel S b c := by
  constructor
  · rintro ⟨ht, hv⟩
    obtain ⟨types, hr, hs⟩ := forall₂_comp.mp ht
    exact ⟨⟨types, a.variadic⟩, ⟨hr, rfl⟩, ⟨hs, hv⟩⟩
  · rintro ⟨b, hr, hs⟩
    exact ⟨forall₂_comp.mpr ⟨b.types, hr.types, hs.types⟩, hr.variadic.trans hs.variadic⟩

theorem forall₂_exists_right {R : τ → τ' → Prop} {as : List τ} {bs : List τ'}
    (h : List.Forall₂ R as bs) {a : τ} (ha : a ∈ as) : ∃ b ∈ bs, R a b := by
  induction h with
  | nil => cases ha
  | cons hr _ ih =>
      rcases List.mem_cons.mp ha with rfl | ha
      · exact ⟨_, List.mem_cons_self, hr⟩
      · obtain ⟨b, hb, hr⟩ := ih ha
        exact ⟨b, List.mem_cons_of_mem _ hb, hr⟩

/-- Two lists related to one list are equal, if that holds of their elements. -/
theorem forall₂_unique {R S : τ → τ' → Prop} (h : ∀ x y z, R x z → S y z → x = y) {as bs : List τ}
    {cs : List τ'} (ha : List.Forall₂ R as cs) (hb : List.Forall₂ S bs cs) : as = bs := by
  induction ha generalizing bs with
  | nil =>
      cases hb
      rfl
  | cons hx _ ih =>
      cases hb with
      | cons hy hb => rw [h _ _ _ hx hy, ih hb]

theorem Params.Rel.unique {R S : τ → τ' → Prop} (h : ∀ x y z, R x z → S y z → x = y)
    {a b : Params τ} {c : Params τ'} (ha : Params.Rel R a c) (hb : Params.Rel S b c) : a = b := by
  have ht : a.types = b.types := forall₂_unique h ha.types hb.types
  have hv : a.variadic = b.variadic := ha.variadic.trans hb.variadic.symm
  cases a
  cases b
  simp_all

/-- Two shapes of one form whose types, parameter lists and names are related one by one. -/
inductive Shape.Rel (R : τ → τ' → Prop) (P : π → π' → Prop) (N : ν → ν' → Prop) :
    Shape τ π ν → Shape τ' π' ν' → Prop where
  | builtin (type) : Rel R P N (.builtin type) (.builtin type)
  | array {base base'} (extent) (hb : R base base') :
      Rel R P N (.array base extent) (.array base' extent)
  | bitfield {base base'} (bits offset) (hb : R base base') :
      Rel R P N (.bitfield base bits offset) (.bitfield base' bits offset)
  | pointer {base base'} (hb : R base base') : Rel R P N (.pointer base) (.pointer base')
  | leftRef {base base'} (hb : R base base') : Rel R P N (.leftRef base) (.leftRef base')
  | rightRef {base base'} (hb : R base base') : Rel R P N (.rightRef base) (.rightRef base')
  | function {ret ret' params params'} (conv) (hr : R ret ret') (hp : P params params') :
      Rel R P N (.function ret params conv) (.function ret' params' conv)
  | memberFunction {owner owner' ret ret' params params'} (conv) (ho : R owner owner')
      (hr : R ret ret') (hp : P params params') :
      Rel R P N (.memberFunction owner ret params conv) (.memberFunction owner' ret' params' conv)
  | memberPointer {owner owner' base base'} (ho : R owner owner') (hb : R base base') :
      Rel R P N (.memberPointer owner base) (.memberPointer owner' base')
  | tuple {parts parts'} (hp : P parts parts') : Rel R P N (.tuple parts) (.tuple parts')
  | classType {name name'} (isStruct) (hn : N name name') :
      Rel R P N (.classType name isStruct) (.classType name' isStruct)
  | enumType {name name'} (hn : N name name') : Rel R P N (.enumType name) (.enumType name')

namespace Shape

/-- Replacing the parts of a shape succeeds exactly with the shape that has the results as parts. -/
theorem mapM_eq_ok {f : τ → Except Failure τ'} {g : π → Except Failure π'} {h : ν → ν'}
    {a : Shape τ π ν} {b : Shape τ' π' ν'} :
    a.mapM f g h = .ok b ↔
      Rel (fun x y => f x = .ok y) (fun x y => g x = .ok y) (fun x y => h x = y) a b := by
  constructor
  · intro hm
    cases a <;> simp only [Shape.mapM, bind_eq_ok, pure_eq_ok] at hm
    case builtin type => exact hm ▸ .builtin type
    case array base extent =>
        obtain ⟨base', hb, rfl⟩ := hm
        exact .array extent hb
    case bitfield base bits offset =>
        obtain ⟨base', hb, rfl⟩ := hm
        exact .bitfield bits offset hb
    case pointer base =>
        obtain ⟨base', hb, rfl⟩ := hm
        exact .pointer hb
    case leftRef base =>
        obtain ⟨base', hb, rfl⟩ := hm
        exact .leftRef hb
    case rightRef base =>
        obtain ⟨base', hb, rfl⟩ := hm
        exact .rightRef hb
    case function ret params conv =>
        obtain ⟨ret', hr, params', hp, rfl⟩ := hm
        exact .function conv hr hp
    case memberFunction owner ret params conv =>
        obtain ⟨owner', ho, ret', hr, params', hp, rfl⟩ := hm
        exact .memberFunction conv ho hr hp
    case memberPointer owner base =>
        obtain ⟨owner', ho, base', hb, rfl⟩ := hm
        exact .memberPointer ho hb
    case tuple parts =>
        obtain ⟨parts', hp, rfl⟩ := hm
        exact .tuple hp
    case classType name isStruct => exact hm ▸ .classType isStruct rfl
    case enumType name => exact hm ▸ .enumType rfl
  · intro hr
    cases hr <;> simp_all [Shape.mapM, bind, Except.bind, pure, Except.pure]

theorem Rel.imp {R S : τ → τ' → Prop} {P Q : π → π' → Prop} {N M : ν → ν' → Prop}
    (ht : ∀ x y, R x y → S x y) (hp : ∀ x y, P x y → Q x y) (hn : ∀ x y, N x y → M x y)
    {a : Shape τ π ν} {b : Shape τ' π' ν'} (h : Rel R P N a b) : Rel S Q M a b := by
  cases h <;> constructor <;> first | exact ht _ _ ‹_› | exact hp _ _ ‹_› | exact hn _ _ ‹_›

theorem Rel.refl {R : τ → τ → Prop} {P : π → π → Prop} {N : ν → ν → Prop} (ht : ∀ x, R x x)
    (hp : ∀ x, P x x) (hn : ∀ x, N x x) (a : Shape τ π ν) : Rel R P N a a := by
  cases a <;> constructor <;> first | exact ht _ | exact hp _ | exact hn _

/-- Relating part by part in two steps. -/
theorem Rel.comp {R : τ → τ' → Prop} {P : π → π' → Prop} {N : ν → ν' → Prop} {S : τ' → τ'' → Prop}
    {Q : π' → π'' → Prop} {M : ν' → ν'' → Prop} {a : Shape τ π ν} {c : Shape τ'' π'' ν''} :
    Rel (Relation.Comp R S) (Relation.Comp P Q) (Relation.Comp N M) a c ↔
      ∃ b, Rel R P N a b ∧ Rel S Q M b c := by
  constructor
  · intro h
    cases h with
    | builtin type => exact ⟨_, .builtin type, .builtin type⟩
    | array extent hb =>
        obtain ⟨_, hr, hs⟩ := hb
        exact ⟨_, .array extent hr, .array extent hs⟩
    | bitfield bits offset hb =>
        obtain ⟨_, hr, hs⟩ := hb
        exact ⟨_, .bitfield bits offset hr, .bitfield bits offset hs⟩
    | pointer hb =>
        obtain ⟨_, hr, hs⟩ := hb
        exact ⟨_, .pointer hr, .pointer hs⟩
    | leftRef hb =>
        obtain ⟨_, hr, hs⟩ := hb
        exact ⟨_, .leftRef hr, .leftRef hs⟩
    | rightRef hb =>
        obtain ⟨_, hr, hs⟩ := hb
        exact ⟨_, .rightRef hr, .rightRef hs⟩
    | function conv hr hp =>
        obtain ⟨_, hr, hs⟩ := hr
        obtain ⟨_, hp, hq⟩ := hp
        exact ⟨_, .function conv hr hp, .function conv hs hq⟩
    | memberFunction conv ho hr hp =>
        obtain ⟨_, ho, ho'⟩ := ho
        obtain ⟨_, hr, hs⟩ := hr
        obtain ⟨_, hp, hq⟩ := hp
        exact ⟨_, .memberFunction conv ho hr hp, .memberFunction conv ho' hs hq⟩
    | memberPointer ho hb =>
        obtain ⟨_, ho, ho'⟩ := ho
        obtain ⟨_, hr, hs⟩ := hb
        exact ⟨_, .memberPointer ho hr, .memberPointer ho' hs⟩
    | tuple hp =>
        obtain ⟨_, hp, hq⟩ := hp
        exact ⟨_, .tuple hp, .tuple hq⟩
    | classType isStruct hn =>
        obtain ⟨_, hn, hm⟩ := hn
        exact ⟨_, .classType isStruct hn, .classType isStruct hm⟩
    | enumType hn =>
        obtain ⟨_, hn, hm⟩ := hn
        exact ⟨_, .enumType hn, .enumType hm⟩
  · rintro ⟨b, hr, hs⟩
    cases hr <;> cases hs <;> constructor <;> exact ⟨_, ‹_›, ‹_›⟩

theorem Rel.flip {R : τ → τ' → Prop} {P : π → π' → Prop} {N : ν → ν' → Prop} {a : Shape τ π ν}
    {b : Shape τ' π' ν'} (h : Rel R P N a b) :
    Rel (fun y x => R x y) (fun y x => P x y) (fun y x => N x y) b a := by
  cases h <;> constructor <;> assumption

/-- A shape is related to some other one if each of its parts is related to something. -/
theorem Rel.exists {R : τ → τ' → Prop} {P : π → π' → Prop} {N : ν → ν' → Prop} {a : Shape τ π ν}
    (hb : ∀ x, a.base? = some x → ∃ y, R x y) (ho : ∀ x, a.owner? = some x → ∃ y, R x y)
    (hp : ∀ x, a.params? = some x → ∃ y, P x y) (hn : ∀ x, a.name? = some x → ∃ y, N x y) :
    ∃ b, Rel R P N a b := by
  cases a with
  | builtin type => exact ⟨_, .builtin type⟩
  | array base extent => exact (hb base rfl).imp' _ fun _ h => .array extent h
  | bitfield base bits offset => exact (hb base rfl).imp' _ fun _ h => .bitfield bits offset h
  | pointer base => exact (hb base rfl).imp' _ fun _ h => .pointer h
  | leftRef base => exact (hb base rfl).imp' _ fun _ h => .leftRef h
  | rightRef base => exact (hb base rfl).imp' _ fun _ h => .rightRef h
  | function ret params conv =>
      obtain ⟨_, hr⟩ := hb ret rfl
      obtain ⟨_, hp⟩ := hp params rfl
      exact ⟨_, .function conv hr hp⟩
  | memberFunction owner ret params conv =>
      obtain ⟨_, ho⟩ := ho owner rfl
      obtain ⟨_, hr⟩ := hb ret rfl
      obtain ⟨_, hp⟩ := hp params rfl
      exact ⟨_, .memberFunction conv ho hr hp⟩
  | memberPointer owner base =>
      obtain ⟨_, ho⟩ := ho owner rfl
      obtain ⟨_, hb⟩ := hb base rfl
      exact ⟨_, .memberPointer ho hb⟩
  | tuple parts => exact (hp parts rfl).imp' _ fun _ h => .tuple h
  | classType name isStruct => exact (hn name rfl).imp' _ fun _ h => .classType isStruct h
  | enumType name => exact (hn name rfl).imp' _ fun _ h => .enumType h

theorem Rel.base? {R : τ → τ' → Prop} {P : π → π' → Prop} {N : ν → ν' → Prop} {a : Shape τ π ν}
    {b : Shape τ' π' ν'} (h : Rel R P N a b) {x : τ} (hx : a.base? = some x) :
    ∃ y, b.base? = some y ∧ R x y := by
  cases h <;> simp_all [Shape.base?]

theorem Rel.owner? {R : τ → τ' → Prop} {P : π → π' → Prop} {N : ν → ν' → Prop} {a : Shape τ π ν}
    {b : Shape τ' π' ν'} (h : Rel R P N a b) {x : τ} (hx : a.owner? = some x) :
    ∃ y, b.owner? = some y ∧ R x y := by
  cases h <;> simp_all [Shape.owner?]

theorem Rel.params? {R : τ → τ' → Prop} {P : π → π' → Prop} {N : ν → ν' → Prop} {a : Shape τ π ν}
    {b : Shape τ' π' ν'} (h : Rel R P N a b) {x : π} (hx : a.params? = some x) :
    ∃ y, b.params? = some y ∧ P x y ∧ (a.parts? = some x → b.parts? = some y) := by
  cases h <;> simp_all [Shape.params?, Shape.parts?]

theorem Rel.name? {R : τ → τ' → Prop} {P : π → π' → Prop} {N : ν → ν' → Prop} {a : Shape τ π ν}
    {b : Shape τ' π' ν'} (h : Rel R P N a b) {x : ν} (hx : a.name? = some x) :
    ∃ y, b.name? = some y ∧ N x y := by
  cases h <;> simp_all [Shape.name?]

theorem Rel.kind_eq {R : τ → τ' → Prop} {P : π → π' → Prop} {N : ν → ν' → Prop} {a : Shape τ π ν}
    {b : Shape τ' π' ν'} (h : Rel R P N a b) : a.kind = b.kind := by
  cases h with
  | classType isStruct hn => cases isStruct <;> rfl
  | _ => rfl

theorem Rel.builtin?_eq {R : τ → τ' → Prop} {P : π → π' → Prop} {N : ν → ν' → Prop}
    {a : Shape τ π ν} {b : Shape τ' π' ν'} (h : Rel R P N a b) : a.builtin? = b.builtin? := by
  cases h <;> rfl

theorem Rel.extent?_eq {R : τ → τ' → Prop} {P : π → π' → Prop} {N : ν → ν' → Prop}
    {a : Shape τ π ν} {b : Shape τ' π' ν'} (h : Rel R P N a b) : a.extent? = b.extent? := by
  cases h <;> rfl

theorem Rel.bits?_eq {R : τ → τ' → Prop} {P : π → π' → Prop} {N : ν → ν' → Prop}
    {a : Shape τ π ν} {b : Shape τ' π' ν'} (h : Rel R P N a b) : a.bits? = b.bits? := by
  cases h <;> rfl

/-- Two shapes related to one shape are equal, if that holds of their parts. -/
theorem Rel.unique {R S : τ → τ' → Prop} {P Q : π → π' → Prop} {N M : ν → ν' → Prop}
    (ht : ∀ x y z, R x z → S y z → x = y) (hp : ∀ x y z, P x z → Q y z → x = y)
    (hn : ∀ x y z, N x z → M y z → x = y) {a b : Shape τ π ν} {c : Shape τ' π' ν'}
    (ha : Rel R P N a c) (hb : Rel S Q M b c) : a = b := by
  cases ha <;> cases hb <;> congr 1 <;>
    first | exact ht _ _ _ ‹_› ‹_› | exact hp _ _ _ ‹_› ‹_› | exact hn _ _ _ ‹_› ‹_›

end Shape

end TypeGraph
