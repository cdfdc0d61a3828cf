import TypeGraph.Proofs.Wanted
import TypeGraph.Record.Tables

/-!
Readers by their parts. Main statements: a relation between readers that takes in single items and
requests to the store, and is kept when one reader follows another, goes from the reader of nested
records to that of records (`Load.Composes.record`), and from there to that of tables
(`Load.Composes.tables`).
-/

namespace TypeGraph

variable {α β : Type}

/-! ### Single items -/

namespace ItemReader

/-- What is done with an item that was taken: an answer or a failure, whatever items follow. -/
def Idle (reader : ItemReader α) : Prop :=
  (∃ a, ∀ items, reader items = .ok a items) ∨ ∃ error, ∀ items, reader items = .error error items

theorem idle_pure (a : α) : Idle (pure a) := Or.inl ⟨a, fun _ => rfl⟩

theorem idle_throw (error : ArchiveError) : Idle (throw error : ItemReader α) :=
  Or.inr ⟨error, fun _ => rfl⟩

/-- A reader takes the first item, whether it is what was expected or not, and looks at no other
one. Without items it runs out. -/
structure TakesOne (reader : ItemReader α) : Prop where
  nil : ∃ expected, reader [] = .error (.unexpectedEnd expected) []
  cons : ∀ item, (∃ a, ∀ items, reader (item :: items) = .ok a items) ∨
    ∃ error, ∀ items, reader (item :: items) = .error error items

theorem takesOne_take (expected : String) (read : Item → Option α) :
    (take expected read).TakesOne where
  nil := ⟨expected, rfl⟩
  cons item := by
    have htake (items : List Item) :
        take expected read (item :: items) =
          (read item).elim (.error (.unexpectedItem expected item.describe) items)
            (.ok · items) := by
      unfold take
      rw [run_bind_of_ok (run_get _)]
      dsimp only
      rw [run_bind_of_ok (run_set _ items)]
      cases read item <;> rfl
    simp only [htake]
    cases read item with
    | some a => exact Or.inl ⟨a, fun _ => rfl⟩
    | none => exact Or.inr ⟨_, fun _ => rfl⟩

/-- What is done with an item takes no further ones. -/
theorem TakesOne.bind {reader : ItemReader α} {f : α → ItemReader β} (h : reader.TakesOne)
    (hf : ∀ a, (f a).Idle) : TakesOne (reader >>= f) where
  nil := by
    obtain ⟨expected, hnil⟩ := h.nil
    exact ⟨expected, by rw [run_bind, hnil]⟩
  cons item := by
    rcases h.cons item with ⟨a, ha⟩ | ⟨error, herror⟩
    · rcases hf a with ⟨b, hb⟩ | ⟨error, herror⟩
      · exact Or.inl ⟨b, fun items => by rw [run_bind_of_ok (ha items), hb]⟩
      · exact Or.inr ⟨error, fun items => by rw [run_bind_of_ok (ha items), herror]⟩
    · exact Or.inr ⟨error, fun items => by rw [run_bind, herror]⟩

theorem takesOne_tag : tag.TakesOne := takesOne_take _ _

theorem takesOne_bool : bool.TakesOne := takesOne_take _ _

theorem takesOne_count : count.TakesOne := takesOne_take _ _

theorem takesOne_signed : signed.TakesOne := takesOne_take _ _

theorem takesOne_str : str.TakesOne := takesOne_take _ _

theorem takesOne_key : key.TakesOne := takesOne_take _ _

theorem takesOne_word : word.TakesOne := by
  refine takesOne_count.bind fun value => ?_
  split
  · exact idle_pure _
  · exact idle_throw _

theorem takesOne_tagged [Tagged α] : (tagged : ItemReader α).TakesOne := by
  refine takesOne_str.bind fun text => ?_
  split
  · exact idle_pure _
  · exact idle_throw _

theorem takesOne_exactTag (expected : String) : (exactTag expected).TakesOne := by
  refine takesOne_tag.bind fun found => ?_
  split
  · exact idle_throw _
  · exact idle_pure _

end ItemReader

namespace Load

open ItemReader

/-- A record, `type` reading the records in it. -/
def record (type : Load TypeId) : Load TypeId := do
  let tag ← read .tag
  let plain ← unqualified type tag
  build (Build.qualify plain (← qual))

theorem typeUpTo_succ (depth : Nat) : typeUpTo (depth + 1) = record (typeUpTo depth) := rfl

/-! ### Parts of readers -/

/-- A request to the store that reading comes down to. -/
inductive Asks : {α : Type} → Build α → Prop where
  | intern (text : String) : Asks (Build.intern text)
  | path (texts : List String) : Asks (Build.path texts)
  | params (types : List TypeId) (variadic : Bool) : Asks (Build.params types variadic)
  | enter (asked : TypeRequest) : Asks asked.run
  | qualify (type : TypeId) (qual : Qual PathId) : Asks (Build.qualify type qual)
  | openClass (type : TypeId) : Asks (Build.query (·.openClass type))
  | openEnum (type : TypeId) : Asks (Build.query (·.openEnum type))

/-- Readers are related if they are put together alike out of related ones. A relation that looks at
the first reader only is a property of readers. -/
structure Composes (R : {α : Type} → Load α → Load α → Prop) : Prop where
  pure : ∀ {α : Type} (a : α), R (pure a) (pure a)
  throw : ∀ {α : Type} (failure : Failure), R (throw failure : Load α) (throw failure)
  bind : ∀ {α β : Type} {m m' : Load α} {f f' : α → Load β}, R m m' → (∀ a, R (f a) (f' a)) →
    R (m >>= f) (m' >>= f')
  read : ∀ {α : Type} {reader : ItemReader α}, reader.TakesOne → R (read reader) (read reader)
  build : ∀ {α : Type} {request : Build α}, Asks request → R (build request) (build request)

namespace Composes

variable {R : {α : Type} → Load α → Load α → Prop} (h : Composes R)

include h

theorem times {m m' : Load α} (hm : R m m') (n : Nat) : R (times m n) (times m' n) := by
  induction n with
  | zero => exact h.pure []
  | succ n ih => exact h.bind hm fun a => h.bind ih fun as => h.pure (a :: as)

theorem list {m m' : Load α} (hm : R m m') : R (list m) (list m') :=
  h.bind (h.read takesOne_count) fun count => h.times hm count.toNat

/-! ### Names and qualifiers -/

theorem keyword : R keyword keyword :=
  h.bind (h.read takesOne_str) fun text => h.build (.intern text)

theorem path : R path path :=
  h.bind (h.read takesOne_key) fun texts => h.build (.path texts)

theorem space : R space space := by
  refine h.bind (h.read takesOne_tagged) fun storage => ?_
  cases storage.isPlaceholder with
  | true => exact h.throw _
  | false =>
      cases storage.isDeclarable with
      | true => exact h.bind h.path fun _ => h.pure _
      | false => exact h.pure _

theorem qual : R qual qual :=
  h.bind h.space fun _ => h.bind (h.read takesOne_bool) fun _ =>
    h.bind (h.read takesOne_bool) fun _ => h.bind (h.read takesOne_bool) fun _ =>
      h.bind (h.read takesOne_bool) fun _ => h.pure _

/-! ### Records -/

section Nested

variable {m m' : Load TypeId} (hm : R m m')

include hm

theorem params : R (params m) (params m') :=
  h.bind (h.read takesOne_count) fun length => h.bind (h.read takesOne_bool) fun variadic =>
    h.bind (h.times hm length.toNat) fun types => h.build (.params types variadic)

/-- A type that is derived from the one that comes next. -/
theorem derived {asked : TypeId → Build TypeId} (ha : ∀ base, Asks (asked base)) :
    R (do Load.build (asked (← m))) (do Load.build (asked (← m'))) :=
  h.bind hm fun base => h.build (ha base)

theorem fields (tag : ShapeTag) : R (fields m tag) (fields m' tag) := by
  have harray (extent : Extent) :
      R (do Load.build (Build.array (← m) extent)) (do Load.build (Build.array (← m') extent)) :=
    h.derived hm fun base => .enter (.array base extent)
  cases tag with
  | array => exact h.bind (h.read takesOne_count) fun count => harray (.fixed count)
  | arrayIncomplete => exact harray .incomplete
  | arrayVariable => exact h.bind (h.read takesOne_word) fun expr => harray (.variable ⟨expr⟩)
  | arrayUnspecified => exact harray .unspecified
  | bitfield =>
      exact h.bind (h.read takesOne_word) fun bits => h.bind (h.read takesOne_word) fun offset =>
        h.derived hm fun base => .enter (.bitfield base bits offset)
  | pointer => exact h.derived hm fun base => .enter (.pointer base)
  | leftRef => exact h.derived hm fun base => .enter (.leftRef base)
  | rightRef => exact h.derived hm fun base => .enter (.rightRef base)
  | function =>
      exact h.bind hm fun ret => h.bind (h.params hm) fun set => h.bind (h.read takesOne_tagged)
        fun conv => h.build (.enter (.function ret set conv))
  | memberFunction =>
      exact h.bind hm fun owner => h.bind hm fun ret => h.bind (h.params hm) fun set =>
        h.bind (h.read takesOne_tagged) fun conv =>
          h.build (.enter (.memberFunction owner ret set conv))
  | memberPointer =>
      exact h.bind hm fun owner => h.derived hm fun base => .enter (.memberPointer owner base)
  | tuple => exact h.bind (h.params hm) fun set => h.build (.enter (.tupleOf set))
  | struct => exact h.bind h.path fun name => h.build (.enter (.classType name true))
  | union => exact h.bind h.path fun name => h.build (.enter (.classType name false))
  | enum => exact h.bind h.path fun name => h.build (.enter (.enumType name))

theorem unqualified (tag : String) : R (unqualified m tag) (unqualified m' tag) := by
  unfold Load.unqualified
  split
  · exact h.fields hm _
  · split
    · exact h.pure _
    · exact h.throw _

/-- Records are read alike if the records in them are. -/
theorem record : R (record m) (record m') :=
  h.bind (h.read takesOne_tag) fun tag => h.bind (h.unqualified hm tag) fun plain =>
    h.bind h.qual fun own => h.build (.qualify plain own)

end Nested

theorem typeUpTo (depth : Nat) : R (typeUpTo depth) (typeUpTo depth) := by
  induction depth with
  | zero => exact h.throw _
  | succ depth ih => exact h.record ih

/-! ### Tables -/

section Tables

variable (ht : R type type)

include ht

theorem baseClass : R baseClass baseClass :=
  h.bind ht fun _ => h.bind (h.read takesOne_tagged) fun _ => h.bind (h.read takesOne_bool) fun _ =>
    h.pure _

theorem member : R member member :=
  h.bind (h.read takesOne_str) fun _ => h.bind ht fun _ => h.bind (h.read takesOne_count) fun _ =>
    h.bind (h.read takesOne_tagged) fun _ => h.bind (h.read takesOne_bool) fun _ => h.pure _

theorem classDraft : R classDraft classDraft :=
  h.bind ht fun type => h.bind (h.build (.openClass type)) fun _ =>
    h.bind (h.list (h.baseClass ht)) fun _ => h.bind (h.list (h.member ht)) fun _ =>
      h.bind (h.list (h.member ht)) fun _ => h.pure _

omit ht in
theorem enumerators (draft : EnumDraft) (n : Nat) :
    R (enumerators draft n) (enumerators draft n) := by
  induction n generalizing draft with
  | zero => exact h.pure draft
  | succ n ih =>
      refine h.bind (h.read takesOne_str) fun name =>
        h.bind (h.read takesOne_signed) fun value => ?_
      cases draft.add name value with
      | ok draft => exact ih draft
      | error error => exact h.throw _

theorem enumDraft : R enumDraft enumDraft :=
  h.bind ht fun type => h.bind (h.build (.openEnum type)) fun draft =>
    h.bind (h.read takesOne_tagged) fun flavor => h.bind ht fun _ =>
      h.bind (h.read takesOne_count) fun count =>
        h.bind (h.enumerators { draft with flavor } count.toNat) fun _ => h.pure _

theorem openBody : R openBody openBody := by
  refine h.bind (h.read takesOne_tag) fun tag => ?_
  split
  · exact h.bind (h.classDraft ht) fun _ => h.pure _
  · split
    · exact h.bind (h.enumDraft ht) fun _ => h.pure _
    · exact h.throw _

/-- Tables are read alike if records are. -/
theorem tables : R tables tables :=
  h.bind (h.read (takesOne_exactTag _)) fun _ => h.bind (h.list ht) fun _ =>
    h.bind (h.read (takesOne_exactTag _)) fun _ => h.list (h.openBody ht)

end Tables

end Composes

end Load

end TypeGraph
