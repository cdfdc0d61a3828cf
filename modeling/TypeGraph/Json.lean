/-!
The parts of JSON text that a configuration is made of. A value that is not wanted is only checked
for its form. Each function takes what it reads off the front of the text and gives the rest.
-/

namespace TypeGraph.Json

/-- Spaces, tabs and line ends. -/
def isBlank (c : Char) : Bool := c == ' ' || c == '\t' || c == '\n' || c == '\r'

def skipBlank (text : List Char) : List Char := text.dropWhile isBlank

def hexDigit? (c : Char) : Option Nat :=
  if '0' ≤ c ∧ c ≤ '9' then some (c.toNat - '0'.toNat)
  else if 'a' ≤ c ∧ c ≤ 'f' then some (c.toNat - 'a'.toNat + 10)
  else if 'A' ≤ c ∧ c ≤ 'F' then some (c.toNat - 'A'.toNat + 10)
  else none

/-- The number written in four hexadecimal digits. -/
def hexWord? (a b c d : Char) : Option Nat := do
  return 4096 * (← hexDigit? a) + 256 * (← hexDigit? b) + 16 * (← hexDigit? c) + (← hexDigit? d)

/-- The character that a letter after a backslash stands for. -/
def escape? : Char → Option Char
  | '"' => some '"'
  | '\\' => some '\\'
  | '/' => some '/'
  | 'b' => some '\x08'
  | 'f' => some '\x0c'
  | 'n' => some '\n'
  | 'r' => some '\r'
  | 't' => some '\t'
  | _ => none

/-- What follows the opening quote of a string, up to the closing one: its code points, where a
numeric escape counts as a code point even if it is half of a surrogate pair. -/
def stringTail? : List Char → Option (List Nat × List Char)
  | [] => none
  | '"' :: rest => some ([], rest)
  | '\\' :: 'u' :: a :: b :: c :: d :: rest => do
      let point ← hexWord? a b c d
      let (points, rest) ← stringTail? rest
      return (point :: points, rest)
  | '\\' :: letter :: rest => do
      let char ← escape? letter
      let (points, rest) ← stringTail? rest
      return (char.toNat :: points, rest)
  | char :: rest =>
      if char.toNat < 0x20 then none
      else do
        let (points, rest) ← stringTail? rest
        return (char.toNat :: points, rest)

def isHighSurrogate (point : Nat) : Bool := 0xD800 ≤ point && point < 0xDC00

def isLowSurrogate (point : Nat) : Bool := 0xDC00 ≤ point && point < 0xE000

/-- The characters of a list of code points. Two halves of a surrogate pair are one character, and
neither may stand alone. -/
def chars? : List Nat → Option (List Char)
  | [] => some []
  | point :: rest =>
      if isLowSurrogate point then none
      else if isHighSurrogate point then
        match rest with
        | low :: rest =>
            if isLowSurrogate low then do
              let char := Char.ofNat (0x10000 + 0x400 * (point - 0xD800) + (low - 0xDC00))
              return char :: (← chars? rest)
            else none
        | [] => none
      else do return Char.ofNat point :: (← chars? rest)

/-- A string that is wanted, its opening quote included. -/
def string? : List Char → Option (String × List Char)
  | '"' :: rest => do
      let (points, rest) ← stringTail? rest
      return (String.ofList (← chars? points), rest)
  | _ => none

/-- A character and blanks before it. -/
def mark? (expected : Char) (text : List Char) : Option (List Char) :=
  match skipBlank text with
  | char :: rest => if char = expected then some rest else none
  | [] => none

/-! ### Values that are not wanted -/

/-- One digit or more. -/
def digits? (text : List Char) : Option (List Char) :=
  match text with
  | digit :: rest => if digit.isDigit then some (rest.dropWhile Char.isDigit) else none
  | [] => none

/-- The whole part of a number: a zero, or digits that do not start with one. -/
def whole? (text : List Char) : Option (List Char) :=
  match text with
  | '0' :: rest => if rest.head?.any Char.isDigit then none else some rest
  | _ => digits? text

def fraction? (text : List Char) : Option (List Char) :=
  match text with
  | '.' :: rest => digits? rest
  | _ => some text

def exponent? (text : List Char) : Option (List Char) :=
  match text with
  | 'e' :: rest | 'E' :: rest =>
      match rest with
      | '+' :: rest | '-' :: rest => digits? rest
      | _ => digits? rest
  | _ => some text

def number? (text : List Char) : Option (List Char) := do
  let unsigned := match text with
    | '-' :: rest => rest
    | _ => text
  exponent? (← fraction? (← whole? unsigned))

mutual

/-- A value of any form, nested at most as deep as `fuel` allows. -/
def skipValueUpTo : Nat → List Char → Option (List Char)
  | 0, _ => none
  | fuel + 1, text =>
      match skipBlank text with
      | '"' :: rest => (stringTail? rest).map (·.2)
      | '[' :: rest =>
          match mark? ']' rest with
          | some rest => some rest
          | none => skipElements fuel rest
      | '{' :: rest =>
          match mark? '}' rest with
          | some rest => some rest
          | none => skipMembers fuel rest
      | 't' :: 'r' :: 'u' :: 'e' :: rest => some rest
      | 'f' :: 'a' :: 'l' :: 's' :: 'e' :: rest => some rest
      | 'n' :: 'u' :: 'l' :: 'l' :: rest => some rest
      | text => number? text
termination_by structural fuel => fuel

/-- The elements of an array and its closing bracket. -/
def skipElements : Nat → List Char → Option (List Char)
  | 0, _ => none
  | fuel + 1, text => do
      let rest ← skipValueUpTo fuel text
      match mark? ',' rest with
      | some rest => skipElements fuel rest
      | none => mark? ']' rest
termination_by structural fuel => fuel

/-- The members of an object and its closing brace. -/
def skipMembers : Nat → List Char → Option (List Char)
  | 0, _ => none
  | fuel + 1, text => do
      let (_, rest) ← stringTail? (← mark? '"' text)
      let rest ← skipValueUpTo fuel (← mark? ':' rest)
      match mark? ',' rest with
      | some rest => skipMembers fuel rest
      | none => mark? '}' rest
termination_by structural fuel => fuel

end

/-- A value of any form. A value and the list it opens take a character between them, so twice the
length of the text is deep enough. -/
def skipValue? (text : List Char) : Option (List Char) :=
  skipValueUpTo (2 * text.length + 2) text

end TypeGraph.Json
