import TypeGraph.Table
import TypeGraph.Failure

/-!
Texts and paths of texts by number. Main statements: the keyword of a text reads back as the text
(`text?_intern`), and entering a path gives a number whose segments are that path
(`segments?_enter`).
-/

namespace TypeGraph

/--
The texts and paths met so far.

A path is the list of its keywords. Each path is entered after the path without its last segment,
and the empty path is always there.
-/
structure Names where
  texts : Table String
  paths : Table (List Keyword)

namespace Names

/-- No texts, and only the path without segments. -/
def empty : Names := ⟨Table.empty, Table.singleton []⟩

/-! ### Texts -/

/-- The text of a keyword. -/
def text? (names : Names) (keyword : Keyword) : Option String := names.texts.get? keyword.index

def text (names : Names) (keyword : Keyword) : Except Failure String :=
  orFail (.fault (.unknownKeyword keyword)) (names.text? keyword)

/-- The keyword of a text that was met before. -/
def lookup? (names : Names) (text : String) : Option Keyword :=
  if text ∈ names.texts then some ⟨names.texts.indexOf text⟩ else none

/-- The keyword of a text, which is entered if it is new. -/
def intern (names : Names) (text : String) : Keyword × Names :=
  (⟨names.texts.indexOf text⟩, { names with texts := names.texts.insert text })

theorem text?_intern (names : Names) (text : String) :
    (names.intern text).2.text? (names.intern text).1 = some text :=
  names.texts.get?_insert_indexOf text

/-! ### Paths -/

/-- The keywords of a path, outermost first. -/
def segments? (names : Names) (path : PathId) : Option (List Keyword) :=
  names.paths.get? path.index

def segments (names : Names) (path : PathId) : Except Failure (List Keyword) :=
  orFail (.fault (.unknownPath path)) (names.segments? path)

/-- The path with the given keywords, which is entered if it is new. -/
def enter (names : Names) (segments : List Keyword) : PathId × Names :=
  (⟨names.paths.indexOf segments⟩, { names with paths := names.paths.insert segments })

theorem segments?_enter (names : Names) (segments : List Keyword) :
    (names.enter segments).2.segments? (names.enter segments).1 = some segments :=
  names.paths.get?_insert_indexOf segments

/-- The path one segment longer than `parent`. -/
def extend (names : Names) (parent : PathId) (keyword : Keyword) :
    Except Failure (PathId × Names) := do
  return names.enter ((← names.segments parent) ++ [keyword])

/-- Enters the texts one by one below the path `above`, and every path on the way. -/
def pathBelow (names : Names) (above : List Keyword) : List String → PathId × Names
  | [] => names.enter above
  | text :: rest =>
      let (keyword, names) := names.intern text
      let below := above ++ [keyword]
      (names.enter below).2.pathBelow below rest

/-- The path with the given texts from the root. -/
def path (names : Names) (texts : List String) : PathId × Names := names.pathBelow [] texts

/-- The path that `path` extends. The root extends none. -/
def parent (names : Names) (path : PathId) : Except Failure (Option PathId) := do
  let segments ← names.segments path
  return if segments = [] then none else some ⟨names.paths.indexOf segments.dropLast⟩

/-- The last segment of a path. -/
def last (names : Names) (path : PathId) : Except Failure (Option Keyword) := do
  return (← names.segments path).getLast?

/-- The texts of a path, outermost first. -/
def strings (names : Names) (path : PathId) : Except Failure (List String) := do
  (← names.segments path).mapM names.text

end Names

/-- How a path is written, `::a::b`. The path without segments is written `::`. -/
def writePath (segments : List String) : String :=
  if segments = [] then "::" else String.join (segments.map ("::" ++ ·))

end TypeGraph
