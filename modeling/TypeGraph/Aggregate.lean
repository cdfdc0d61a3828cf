import TypeGraph.Failure

/-!
Classes and enums: the bodies of finished ones and the drafts of open ones. A draft still has its
names as text. Main statement: a draft takes an enumerator exactly if its name is new
(`EnumDraft.add_eq_ok_iff`).
-/

namespace TypeGraph

/-- Access to a member or base class. -/
inductive Access where
  | isPublic
  | isProtected
  | isPrivate
deriving DecidableEq, Repr

namespace Access

def all : List Access := [.isPublic, .isProtected, .isPrivate]

def tag : Access → String
  | .isPublic => "public"
  | .isProtected => "protected"
  | .isPrivate => "private"

theorem mem_all (access : Access) : access ∈ all := by cases access <;> decide

instance : Tagged Access where
  all := all
  tag := tag
  mem_all := mem_all
  nodup_tags := by decide +kernel

end Access

/-- How an enum was declared. The enumerators of a plain one leak into the enclosing scope. -/
inductive Flavor where
  | plain
  | scoped
deriving DecidableEq, Repr

namespace Flavor

def all : List Flavor := [.plain, .scoped]

def tag : Flavor → String
  | .plain => "plain"
  | .scoped => "scoped"

theorem mem_all (flavor : Flavor) : flavor ∈ all := by cases flavor <;> decide

instance : Tagged Flavor where
  all := all
  tag := tag
  mem_all := mem_all
  nodup_tags := by decide +kernel

end Flavor

/-- A base class. -/
structure BaseClass where
  type : TypeId
  access : Access
  isVirtual : Bool
deriving DecidableEq, Repr

/-- A member of a class, its name given as `ν`. -/
structure Member (ν : Type) where
  name : ν
  type : TypeId
  /-- Bytes from the start of the object, or slots from the start of the dispatch table. -/
  offset : Count
  access : Access
  /-- Marks a mutable data member, or a function without a body. -/
  flag : Bool
deriving DecidableEq, Repr

/-- The same member under another name. -/
def Member.rename {ν ν' : Type} (member : Member ν) (name : ν') : Member ν' :=
  { member with name }

/-- The body of a finished class. Its size and alignment are fixed for good. -/
structure ClassBody where
  bases : List BaseClass
  data : List (Member Keyword)
  functions : List (Member Keyword)
  size : Count
  align : Count
deriving DecidableEq, Repr

namespace ClassBody

/-- The first data member with a name. -/
def dataMember? (body : ClassBody) (name : Keyword) : Option (Member Keyword) :=
  body.data.find? (·.name == name)

/-- The first function member with a name. -/
def functionMember? (body : ClassBody) (name : Keyword) : Option (Member Keyword) :=
  body.functions.find? (·.name == name)

end ClassBody

/-- The body of a finished enum. -/
structure EnumBody where
  flavor : Flavor
  values : List (Keyword × Int128)
  /-- The type that enumerators are stored as. -/
  base : TypeId
deriving DecidableEq, Repr

namespace EnumBody

/-- The value of an enumerator. -/
def value? (body : EnumBody) (name : Keyword) : Option Int128 :=
  body.values.lookup name

/-- The least value, zero if there are none. -/
def least (body : EnumBody) : Int128 :=
  match body.values with
  | [] => .zero
  | (_, first) :: rest => rest.foldl (fun least entry => least.min entry.2) first

/-- The greatest value, zero if there are none. -/
def greatest (body : EnumBody) : Int128 :=
  match body.values with
  | [] => .zero
  | (_, first) :: rest => rest.foldl (fun greatest entry => greatest.max entry.2) first

end EnumBody

/-- The body of a finished class or enum. -/
inductive Definition where
  | ofClass (body : ClassBody)
  | ofEnum (body : EnumBody)
deriving DecidableEq, Repr

/-- A class body that is still being written. -/
structure ClassDraft where
  type : TypeId
  bases : List BaseClass
  data : List (Member String)
  functions : List (Member String)
deriving DecidableEq, Repr

namespace ClassDraft

/-- The draft of `type` without any member. -/
def new (type : TypeId) : ClassDraft := ⟨type, [], [], []⟩

def addBase (draft : ClassDraft) (base : BaseClass) : ClassDraft :=
  { draft with bases := draft.bases ++ [base] }

def addData (draft : ClassDraft) (member : Member String) : ClassDraft :=
  { draft with data := draft.data ++ [member] }

def addFunction (draft : ClassDraft) (member : Member String) : ClassDraft :=
  { draft with functions := draft.functions ++ [member] }

def isEmpty (draft : ClassDraft) : Bool :=
  draft.bases.isEmpty && draft.data.isEmpty && draft.functions.isEmpty

end ClassDraft

/-- An enum body that is still being written. -/
structure EnumDraft where
  type : TypeId
  flavor : Flavor
  values : List (String × Int128)
deriving DecidableEq, Repr

namespace EnumDraft

/-- The plain draft of `type` without enumerators. -/
def new (type : TypeId) : EnumDraft := ⟨type, .plain, []⟩

/-- The value of an enumerator. -/
def value? (draft : EnumDraft) (name : String) : Option Int128 := draft.values.lookup name

/-- Adds an enumerator, whose name must be new. -/
def add (draft : EnumDraft) (name : String) (value : Int128) : Except TypeError EnumDraft :=
  if (draft.value? name).isSome then .error (.duplicateEnumValue draft.type name)
  else .ok { draft with values := draft.values ++ [(name, value)] }

theorem add_eq_ok_iff {draft draft' : EnumDraft} {name : String} {value : Int128} :
    draft.add name value = .ok draft' ↔
      draft.value? name = none ∧
        draft' = { draft with values := draft.values ++ [(name, value)] } := by
  unfold add
  cases draft.value? name <;> simp [eq_comm]

end EnumDraft

end TypeGraph
