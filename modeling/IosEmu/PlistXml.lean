import IosEmu.BinaryPlist
import IosEmu.Text

/-!
# XML property lists

A small recursive-descent reader of the elements a property list is made of. The parser is a
cursor into the bytes of the document; a slice from a cursor past the end panics. An element
with text ends at the first occurrence of its closing tag, and the entities in it are replaced
one kind after the other, the ampersand last.

Elements are read with a bound `fuel` on the depth of the recursion and the length of the
loops. Every round of a loop and every level of the recursion moves the cursor on, so a bound
of more than the length of the document is no bound (`Xml.value_fuel`).
-/

open SysLib

namespace IosEmu

namespace Xml

/-- A parser, on the cursor. -/
abbrev XmlM := Prog PlistError Panic ℕ

/-- The bytes of a literal. -/
def literal (text : String) : List U8 :=
  utf8Encode text.toList

/-- `<name>`. -/
def openTag (name : String) : List U8 :=
  literal ("<" ++ name ++ ">")

/-- `</name>`. -/
def closeTag (name : String) : List U8 :=
  literal ("</" ++ name ++ ">")

/-- `u8::is_ascii_whitespace`. -/
def isAsciiWhitespace (b : U8) : Bool :=
  b = 0x20 || b = 0x09 || b = 0x0a || b = 0x0c || b = 0x0d

def unescape (cs : List Char) : List Char :=
  replaceAll "&amp;".toList ['&'] <| replaceAll "&apos;".toList ['\''] <|
    replaceAll "&quot;".toList ['"'] <| replaceAll "&gt;".toList ['>'] <|
      replaceAll "&lt;".toList ['<'] cs

/-- `text.parse::<i64>()`. -/
def parseI64 (cs : List Char) : Option (BitVec 64) :=
  match fromDecimal cs with
  | some z => if -(2 ^ 63) ≤ z ∧ z < 2 ^ 63 then some (BitVec.ofInt 64 z) else none
  | none => none

section Parser

variable (s : List U8)

/-- `&self.s[self.i..]`. -/
def rest : XmlM (List U8) := fun i =>
  if i ≤ s.length then .ok (s.drop i) i else .panic .sliceOutOfRange

/-- `self.i += n`. -/
def advance (n : ℕ) : XmlM Unit :=
  Prog.modify (· + n)

def skipWs : XmlM Unit :=
  Prog.modify fun i => i + ((s.drop i).takeWhile isAsciiWhitespace).length

def startsWith (tag : List U8) : XmlM Bool := do
  let l ← rest s
  return tag.isPrefixOf l

def advancePast (stop : List U8) : XmlM Unit := do
  let l ← rest s
  match find stop l with
  | some pos => advance (pos + stop.length)
  | none => Prog.modify fun _ => s.length

/-- Skip `<?xml ...?>`, `<!DOCTYPE ...>` and comments. -/
def skipPrologue : ℕ → XmlM Unit
  | 0 => return ()
  | fuel + 1 => do
    skipWs s
    if ← startsWith s (literal "<?") then
      advancePast s (literal "?>")
      skipPrologue fuel
    else if ← startsWith s (literal "<!--") then
      advancePast s (literal "-->")
      skipPrologue fuel
    else if ← startsWith s (literal "<!") then
      advancePast s (literal ">")
      skipPrologue fuel
    else return ()

def expectOpen (name : String) : XmlM Unit := do
  skipWs s
  if ← startsWith s (literal ("<" ++ name)) then advancePast s (literal ">")
  else Prog.fail (.xml ("expected <" ++ name ++ ">"))

def textElement (name : String) : XmlM (List Char) := do
  advance (openTag name).length
  let l ← rest s
  match find (closeTag name) l with
  | none => Prog.fail (.xml ("unterminated <" ++ name ++ ">"))
  | some stop =>
    advance (stop + (closeTag name).length)
    return unescape ((fromUtf8 (l.take stop)).getD [])

/-- The entries of a dictionary up to its closing tag, put into a map. -/
def dictEntries (child : XmlM PlistValue) :
    ℕ → List (String × PlistValue) → XmlM (List (String × PlistValue))
  | 0, _ => Prog.fail (.xml "no fuel")
  | fuel + 1, map => do
    skipWs s
    if ← startsWith s (closeTag "dict") then
      advance (closeTag "dict").length
      return map
    else if ← startsWith s (openTag "key") then
      let key ← textElement s "key"
      let val ← child
      dictEntries child fuel (SortedMap.insertEntry (String.ofList key) val map)
    else Prog.fail (.xml "expected <key> in dict")

/-- The items of an array up to its closing tag. -/
def arrayItems (child : XmlM PlistValue) : ℕ → List PlistValue → XmlM (List PlistValue)
  | 0, _ => Prog.fail (.xml "no fuel")
  | fuel + 1, out => do
    skipWs s
    if ← startsWith s (closeTag "array") then
      advance (closeTag "array").length
      return out
    else
      let v ← child
      arrayItems child fuel (out ++ [v])

def parseDict (child : XmlM PlistValue) (fuel : ℕ) : XmlM PlistValue := do
  advance (openTag "dict").length
  let map ← dictEntries s child fuel []
  return .dict map

def parseArray (child : XmlM PlistValue) (fuel : ℕ) : XmlM PlistValue := do
  advance (openTag "array").length
  let out ← arrayItems s child fuel []
  return .array out

def value : ℕ → XmlM PlistValue
  | 0 => Prog.fail (.xml "no fuel")
  | fuel + 1 => do
    skipWs s
    if ← startsWith s (openTag "dict") then parseDict s (value fuel) fuel
    else if ← startsWith s (openTag "array") then parseArray s (value fuel) fuel
    else if ← startsWith s (openTag "string") then
      let t ← textElement s "string"
      return .string (String.ofList t)
    else if ← startsWith s (openTag "integer") then
      let t ← textElement s "integer"
      return .integer ((parseI64 (trim t)).getD 0)
    else if ← startsWith s (openTag "real") then
      let t ← textElement s "real"
      return .real ((f64FromStr (trim t)).getD 0)
    else if ← startsWith s (literal "<true/>") then
      advance (literal "<true/>").length
      return .bool true
    else if ← startsWith s (literal "<false/>") then
      advance (literal "<false/>").length
      return .bool false
    else if ← startsWith s (openTag "data") then
      let t ← textElement s "data"
      return .data (utf8Encode (trim t))
    else Prog.fail (.xml "unexpected element")

/-- Read a document with a bound on recursion and loops. -/
def document (fuel : ℕ) : XmlM PlistValue := do
  skipPrologue s fuel
  expectOpen s "plist"
  value s fuel

end Parser

def parse (bytes : List U8) : PlistM PlistValue :=
  match fromUtf8 bytes with
  | none => Prog.fail (.xml "not utf-8")
  | some _ => Prog.within 0 (document bytes (bytes.length + 1))

end Xml

namespace Plist

def looksLikeXml (bytes : List U8) : Bool :=
  let text := utf8Chars (bytes.take 256).length (bytes.take 256)
  (find "<plist".toList text).isSome || (find "<?xml".toList text).isSome

/-- Parse either a binary or an XML property list. -/
def parse (p : Profile) (bytes : List U8) : PlistM PlistValue :=
  if bplistMagic.isPrefixOf bytes then BinaryPlist.parse p bytes
  else if looksLikeXml bytes then Xml.parse bytes
  else Prog.fail .notAPlist

end Plist

end IosEmu
