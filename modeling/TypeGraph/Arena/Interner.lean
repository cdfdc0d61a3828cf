import TypeGraph.Arena.Registry
import TypeGraph.Names

/-!
Texts and paths as they are stored. A path is not kept as a list: it is a link to the path that it
extends, together with its last keyword, and its segments are collected on the way up to the root.
-/

namespace TypeGraph

deriving instance Hashable for Keyword, PathId

/-- A path without its last keyword, and that keyword. The root has none. -/
abbrev Link := Option (PathId × Keyword)

/-- The texts met so far, and the links of the paths. Links lead to older paths, so that every way
up ends. -/
structure Interner where
  texts : Registry String
  links : Array Link
  paths : Std.HashMap (PathId × Keyword) PathId
  older : ∀ (place : Nat) (parent : PathId) (keyword : Keyword),
    links[place]? = some (some (parent, keyword)) → parent.index < place

namespace Interner

/-- No texts, and the root. -/
def empty : Interner where
  texts := .empty
  links := #[none]
  paths := ∅
  older place parent keyword h := by
    obtain ⟨hlt, h⟩ := Array.getElem?_eq_some_iff.mp h
    obtain rfl : place = 0 := by simpa using hlt
    cases h

/-- Appends a path below one that is there. -/
def push (interner : Interner) (parent : PathId) (keyword : Keyword)
    (known : parent.index < interner.links.size) : Interner where
  texts := interner.texts
  links := interner.links.push (some (parent, keyword))
  paths := interner.paths.insert (parent, keyword) ⟨interner.links.size⟩
  older place parent' keyword' h := by
    rw [Array.getElem?_push] at h
    split at h
    next hplace =>
        cases h
        exact hplace ▸ known
    next => exact interner.older place parent' keyword' h

/-! ### Questions -/

def text (interner : Interner) (keyword : Keyword) : Except Failure String :=
  orFail (.fault (.unknownKeyword keyword)) interner.texts.entries[keyword.index]?

/-- The keyword of a text that was met before. -/
def lookup? (interner : Interner) (text : String) : Option Keyword :=
  interner.texts.numbers[text]?.map Keyword.mk

def link (interner : Interner) (path : PathId) : Except Failure Link :=
  orFail (.fault (.unknownPath path)) interner.links[path.index]?

/-- The path that `path` extends. The root extends none. -/
def parent (interner : Interner) (path : PathId) : Except Failure (Option PathId) := do
  return (← interner.link path).map Prod.fst

/-- The last segment of a path. -/
def last (interner : Interner) (path : PathId) : Except Failure (Option Keyword) := do
  return (← interner.link path).map Prod.snd

/-- The keywords on the way from a path up to the root, behind those collected before. -/
def climb (interner : Interner) (path : PathId) (collected : List Keyword) :
    Except Failure (List Keyword) :=
  match _h : interner.links[path.index]? with
  | none => throw (.fault (.unknownPath path))
  | some none => return collected
  | some (some (parent, keyword)) => interner.climb parent (collected ++ [keyword])
termination_by path.index
decreasing_by exact interner.older path.index parent keyword ‹_›

section Climbing

variable {interner : Interner} {path parent : PathId} {keyword : Keyword}

theorem climb_unknown (h : interner.links[path.index]? = none) (collected : List Keyword) :
    interner.climb path collected = .error (.fault (.unknownPath path)) := by
  rw [climb]
  split
  · rfl
  all_goals simp_all

theorem climb_root (h : interner.links[path.index]? = some none) (collected : List Keyword) :
    interner.climb path collected = .ok collected := by
  rw [climb]
  split
  case h_2 => rfl
  all_goals simp_all

theorem climb_below (h : interner.links[path.index]? = some (some (parent, keyword)))
    (collected : List Keyword) :
    interner.climb path collected = interner.climb parent (collected ++ [keyword]) := by
  rw [climb]
  split <;> simp_all

end Climbing

/-- The keywords of a path, outermost first. -/
def segments (interner : Interner) (path : PathId) : Except Failure (List Keyword) := do
  return (← interner.climb path []).reverse

/-- The texts of a path, outermost first. -/
def strings (interner : Interner) (path : PathId) : Except Failure (List String) := do
  (← interner.segments path).mapM interner.text

end Interner

/-! ### Requests -/

/-- A request that may add names. -/
abbrev Naming := EStateM Failure Interner

namespace Naming

/-- The keyword of a text, which is appended if the map does not know it. -/
def enterText (text : String) : Naming Keyword :=
  modifyGet fun interner =>
    let (place, texts) := interner.texts.enter text
    (⟨place⟩, { interner with texts })

/-- The keyword of a text that is copied if it is new. -/
def intern (text : String) : Naming Keyword := enterText text

/-- The keyword of a text that is handed over, as names of members and enumerators are. -/
def internOwned (text : String) : Naming Keyword := enterText text

/-- The path one segment longer than `parent`. The keyword need not be known. -/
def extend (parent : PathId) (keyword : Keyword) : Naming PathId := fun interner =>
  if known : parent.index < interner.links.size then
    match interner.paths[(parent, keyword)]? with
    | some path => .ok path interner
    | none => .ok ⟨interner.links.size⟩ (interner.push parent keyword known)
  else .error (.fault (.unknownPath parent)) interner

/-- The path one segment longer than `parent`, the segment given as text. -/
def child (parent : PathId) (text : String) : Naming PathId := do
  extend parent (← intern text)

/-- The path with the given texts from the root. -/
def path (texts : List String) : Naming PathId := texts.foldlM child PathId.root

end Naming

end TypeGraph
