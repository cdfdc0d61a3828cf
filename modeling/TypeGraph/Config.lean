import TypeGraph.Json
import TypeGraph.Target

/-!
The configuration of a store and its JSON form. It has one setting, the machine; an object may have
other fields, which do not matter, and an array gives the settings in order. A setting that is left
out has its default.
-/

namespace TypeGraph

namespace Target

/-- The machine that is laid out for unless another one is asked for. -/
def default : Target := .wide

def name : Target → String
  | .narrow => "narrow"
  | .wide => "wide"

def ofName? (name : String) : Option Target :=
  if name = "narrow" then some .narrow
  else if name = "wide" then some .wide
  else none

end Target

/-- What a store is set up with. -/
structure Config where
  target : Target := .default
deriving DecidableEq, Repr

namespace Config

open Json

/-- A machine: its name, or an object with null under that name and nothing else. -/
def target? (text : List Char) : Option (Target × List Char) :=
  match skipBlank text with
  | '{' :: rest => do
      let (name, rest) ← string? (skipBlank rest)
      let target ← Target.ofName? name
      match skipBlank (← mark? ':' rest) with
      | 'n' :: 'u' :: 'l' :: 'l' :: rest => return (target, ← mark? '}' rest)
      | _ => none
  | text => do
      let (name, rest) ← string? text
      return (← Target.ofName? name, rest)

/-- The fields of an object, at most `count` of them, and its closing brace. The machine may be
given once. -/
def fields? : Nat → Option Target → List Char → Option (Config × List Char)
  | 0, _, _ => none
  | count + 1, found, text => do
      let (name, rest) ← string? (skipBlank text)
      let rest ← mark? ':' rest
      let (found, rest) ←
        if name = "target" then
          match found with
          | some _ => none
          | none => (target? rest).map fun (target, rest) => (some target, rest)
        else (skipValue? rest).map fun rest => (found, rest)
      match mark? ',' rest with
      | some rest => fields? count found rest
      | none => return ({ target := found.getD .default }, ← mark? '}' rest)

/-- A configuration at the front of a text. -/
def value? (text : List Char) : Option (Config × List Char) :=
  match skipBlank text with
  | '{' :: rest =>
      match mark? '}' rest with
      | some rest => some ({}, rest)
      | none => fields? rest.length none rest
  | '[' :: rest =>
      match mark? ']' rest with
      | some rest => some ({}, rest)
      | none => do
          let (target, rest) ← target? rest
          return ({ target }, ← mark? ']' rest)
  | _ => none

/-- The configuration written in a text. -/
def ofJson? (text : String) : Option Config := do
  let (config, rest) ← value? text.toList
  if skipBlank rest = [] then some config else none

def toJson (config : Config) : String :=
  "\x7b\"target\":\"" ++ config.target.name ++ "\"\x7d"

end Config

end TypeGraph
