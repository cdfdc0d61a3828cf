import TypeGraph.Archive.Item
import TypeGraph.Archive.Times
import TypeGraph.Archive.Varint

/-!
Items in bytes. A list is its length and then its elements; an item is the number of its kind and
then its content; a text is its length in bytes and then its UTF-8 form.
-/

namespace TypeGraph.Payload

/-! ### Writing -/

/-- The UTF-8 form of a text. -/
def utf8 (text : String) : List UInt8 := text.toUTF8.data.toList

def text (text : String) : List UInt8 :=
  let bytes := utf8 text
  Varint.write bytes.length ++ bytes

def list {α : Type} (element : α → List UInt8) (elements : List α) : List UInt8 :=
  Varint.write elements.length ++ elements.flatMap element

def item : Item → List UInt8
  | .tag tag => Varint.write 0 ++ text tag
  | .bool value => Varint.write 1 ++ [if value then 1 else 0]
  | .unsigned value => Varint.write 2 ++ Varint.write value.toNat
  | .signed value => Varint.write 3 ++ Varint.write (Zigzag.fold value.val)
  | .str str => Varint.write 4 ++ text str
  | .key segments => Varint.write 5 ++ list text segments

/-- A list of items in bytes. -/
def encode (items : List Item) : List UInt8 := list item items

/-! ### Reading -/

/-- The next `n` bytes. -/
def readBytes (n : Nat) : ByteReader (List UInt8) := do
  let bytes ← get
  if bytes.length < n then throw .endOfBuffer
  set (bytes.drop n)
  return bytes.take n

def readText : ByteReader String := do
  let bytes ← readBytes (← Varint.read Varint.word64)
  match String.fromUTF8? ⟨bytes.toArray⟩ with
  | some text => return text
  | none => throw .badUtf8

def readList {α : Type} (element : ByteReader α) : ByteReader (List α) := do
  times element (← Varint.read Varint.word64)

def readBool : ByteReader Bool := do
  let byte ← ByteReader.byte
  if byte = 0 then return false
  else if byte = 1 then return true
  else throw .badBool

def readCount : ByteReader Count := do
  match Count.ofNat? (← Varint.read Varint.word64) with
  | some value => return value
  | none => throw .badVarint

def readSigned : ByteReader Int128 := do
  match Int128.ofInt? (Zigzag.unfold (← Varint.read Varint.word128)) with
  | some value => return value
  | none => throw .badVarint

def readItem : ByteReader Item := do
  match ← Varint.read Varint.word32 with
  | 0 => return .tag (← readText)
  | 1 => return .bool (← readBool)
  | 2 => return .unsigned (← readCount)
  | 3 => return .signed (← readSigned)
  | 4 => return .str (← readText)
  | 5 => return .key (← readList readText)
  | _ => throw .unknownVariant

/-- The items that the bytes start with. What follows them does not matter. -/
def decode (bytes : List UInt8) : Except PayloadError (List Item) :=
  match (readList readItem).run bytes with
  | .ok items _ => .ok items
  | .error error _ => .error error

end TypeGraph.Payload
