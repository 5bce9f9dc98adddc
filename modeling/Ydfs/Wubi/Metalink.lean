import Mathlib.Data.List.DropRight
import Ydfs.Text.Search

/-!
# The metalink parser

`MetalinkHandler` builds the files of a metalink from the events of a SAX parser.  It keeps the names
of the open elements, the attributes of each, and the characters since the last tag.
-/

namespace Ydfs.Wubi.Sax

open Search

/-- A text of the document. -/
abbrev Text := List Char

/-- The attributes of an element. -/
abbrev Attrs := List (String × Text)

/-! ### Values -/

/-- `MetalinkHash`. -/
structure MetalinkHash where
  type : Text := []
  hash : Text := []
deriving DecidableEq

/-- `MetalinkUrl`. -/
structure MetalinkUrl where
  url : Text := []
  type : Text := []
  location : Text := []
  preference : ℤ := -1
  maxconnections : ℤ := -1
deriving DecidableEq

/-- `MetalinkFile`. -/
structure MetalinkFile where
  name : Text := []
  identity : Text := []
  version : Text := []
  size : ℤ := -1
  description : Text := []
  language : Text := []
  os : Text := []
  hashes : List MetalinkHash := []
  pieceHashes : List Text := []
  pieceLength : ℤ := -1
  pieceType : Text := ['s', 'h', 'a', '1']
  urls : List MetalinkUrl := []
  maxconnections : ℤ := -1
deriving DecidableEq

/-! ### Strings of Python -/

/-- The white space outside the block of general punctuation. -/
def spaces : List Char :=
  ['\t', '\n', '\x0b', '\x0c', '\r', '\x1c', '\x1d', '\x1e', '\x1f', ' ', '\x85', '\xa0',
    '\u1680', '\u180e', '\u2028', '\u2029', '\u202f', '\u205f', '\u3000']

/-- `unicode.isspace` of one character. -/
def isSpace (c : Char) : Bool := c ∈ spaces ∨ 0x2000 ≤ c.toNat ∧ c.toNat ≤ 0x200a

/-- `unicode.strip`. -/
def strip (t : Text) : Text := (t.dropWhile isSpace).rdropWhile isSpace

/-- `unicode.lower`, as far as it can make a name equal to one of ASCII letters: besides the capital
letters, the dotted capital I and the sign of the kelvin become such letters. -/
def lower (name : String) : String :=
  .ofList (name.toList.map fun c =>
    if c = '\u0130' then 'i' else if c = '\u212a' then 'k' else c.toLower)

/-- `unescape` of `xml.sax.saxutils`; the ampersand comes last. -/
def unescape (t : Text) : Text :=
  replace "&amp;".toList ['&'] (replace "&lt;".toList ['<'] (replace "&gt;".toList ['>'] t))

/-- The number that ASCII digits stand for; `int` takes the other decimal digits of Unicode, too, which no
number is written with here. -/
def parseDigits (t : Text) : Option ℕ :=
  if t ≠ [] ∧ t.all Char.isDigit then some (Nat.ofDigitChars 10 t 0) else none

/-- `int` of a text. -/
def parseInt (t : Text) : Option ℤ :=
  match strip t with
  | '-' :: digits => (parseDigits digits).map fun n => -(n : ℤ)
  | '+' :: digits => (parseDigits digits).map fun n => (n : ℤ)
  | digits => (parseDigits digits).map fun n => (n : ℤ)

/-- `str` of a number. -/
def decimal : ℤ → Text
  | .ofNat n => Nat.toDigits 10 n
  | .negSucc n => '-' :: Nat.toDigits 10 (n + 1)

/-! ### The handler -/

/-- `MetalinkHandler`; the files of the metalink it fills are in `metalink`. -/
structure MetalinkHandler where
  elements : List String
  attrs : List Attrs
  content : Text
  file : Option MetalinkFile
  pieces : List (Text × Text)
  metalink : List MetalinkFile

/-- The handler after `startDocument`. -/
def startDocument : MetalinkHandler := ⟨[], [], [], none, [], []⟩

/-- What a SAX parser reports of the content of a document. -/
inductive Event where
  | startElement (name : String) (attrs : Attrs)
  | endElement (name : String)
  | characters (content : Text)

/-- An attribute that is a text, or the value so far. -/
def textAttr (attrs : Attrs) (key : String) (old : Text) : Text := (attrs.lookup key).getD old

/-- An attribute that is a number, or the value so far; what cannot be parsed is ignored. -/
def intAttr (attrs : Attrs) (key : String) (old : ℤ) : ℤ :=
  ((attrs.lookup key).bind parseInt).getD old

/-- A change of `self._file`, which fails while there is none. -/
def MetalinkHandler.onFile (h : MetalinkHandler) (change : MetalinkFile → MetalinkFile) :
    Option MetalinkHandler :=
  h.file.map fun f => { h with file := some (change f) }

/-- The part of `startElement` that depends on the element. -/
def opening (attrs : Attrs) (h : MetalinkHandler) : Option MetalinkHandler :=
  if h.elements = ["metalink", "files", "file"] then
    some { h with file := some { name := textAttr attrs "name" [] } }
  else if h.elements = ["metalink", "files", "file", "resources"] then
    h.onFile fun f => { f with maxconnections := intAttr attrs "maxconnections" f.maxconnections }
  else if h.elements = ["metalink", "files", "file", "verification", "pieces"] then
    ({ h with pieces := [] } : MetalinkHandler).onFile fun f =>
      { f with
        pieceType := textAttr attrs "type" f.pieceType
        pieceLength := intAttr attrs "length" f.pieceLength }
  else some h

/-- `startElement`. -/
def startElement (name : String) (attrs : Attrs) (h : MetalinkHandler) : Option MetalinkHandler :=
  opening attrs
    { h with elements := h.elements ++ [lower name], attrs := h.attrs ++ [attrs], content := [] }

/-- The url of a `url` element. -/
def urlOf (attrs : Attrs) (content : Text) : MetalinkUrl where
  url := content
  type := textAttr attrs "type" []
  location := textAttr attrs "location" []
  preference := intAttr attrs "preference" (-1)
  maxconnections := intAttr attrs "maxconnections" (-1)

/-- `self._pieces[key] = content`. -/
def setPiece (pieces : List (Text × Text)) (key content : Text) : List (Text × Text) :=
  if (pieces.lookup key).isSome then
    pieces.map fun p => if p.1 = key then (key, content) else p
  else pieces ++ [(key, content)]

/-- The loop over the numbers of the pieces: if one is missing, all are skipped. -/
def addPieces (pieces : List (Text × Text)) : List Text → List ℕ → List Text
  | hashes, [] => hashes
  | hashes, i :: is =>
    match pieces.lookup (decimal i) with
    | none => []
    | some hash => addPieces pieces (hashes ++ [hash]) is

/-- The part of `endElement` that depends on the element. -/
def process (attrs : Attrs) (content : Text) (h : MetalinkHandler) : Option MetalinkHandler :=
  if h.elements = ["metalink", "files", "file"] then
    h.file.map fun f => if f.name ≠ [] then { h with metalink := h.metalink ++ [f] } else h
  else if h.elements = ["metalink", "files", "file", "resources", "url"] then
    h.onFile fun f => { f with urls := f.urls ++ [urlOf attrs content] }
  else if h.elements = ["metalink", "files", "file", "identity"] then
    h.onFile fun f => { f with identity := content }
  else if h.elements = ["metalink", "files", "file", "version"] then
    h.onFile fun f => { f with version := content }
  else if h.elements = ["metalink", "files", "file", "size"] then
    h.onFile fun f => { f with size := (parseInt content).getD f.size }
  else if h.elements = ["metalink", "files", "file", "description"] then
    h.onFile fun f => { f with description := content }
  else if h.elements = ["metalink", "files", "file", "language"] then
    h.onFile fun f => { f with language := content }
  else if h.elements = ["metalink", "files", "file", "os"] then
    h.onFile fun f => { f with os := content }
  else if h.elements = ["metalink", "files", "file", "verification", "hash"] then
    match attrs.lookup "type" with
    | none => some h
    | some type => h.onFile fun f => { f with hashes := f.hashes ++ [⟨type, content⟩] }
  else if h.elements = ["metalink", "files", "file", "verification", "pieces", "hash"] then
    match attrs.lookup "piece" with
    | none => some h
    | some piece => some { h with pieces := setPiece h.pieces piece content }
  else if h.elements = ["metalink", "files", "file", "verification", "pieces"] then
    ({ h with pieces := [] } : MetalinkHandler).onFile fun f =>
      { f with
        pieceHashes := addPieces h.pieces f.pieceHashes (List.range h.pieces.length) }
  else some h

/-- `endElement`. -/
def endElement (h : MetalinkHandler) : Option MetalinkHandler := do
  let attrs ← h.attrs.getLast?
  let content := unescape (strip h.content)
  let h ← process attrs content { h with attrs := h.attrs.dropLast, content := [] }
  return { h with elements := h.elements.dropLast }

/-- `characters`. -/
def characters (content : Text) (h : MetalinkHandler) : MetalinkHandler :=
  { h with content := h.content ++ content }

/-- One event; the name of an end tag is not looked at. -/
def handle (h : MetalinkHandler) : Event → Option MetalinkHandler
  | .startElement name attrs => startElement name attrs h
  | .endElement _ => endElement h
  | .characters content => some (characters content h)

/-- The events of a document. -/
def run (h : MetalinkHandler) (events : List Event) : Option MetalinkHandler :=
  events.foldlM handle h

/-- `parse_metalink`, from the events of the document. -/
def parseMetalink (events : List Event) : Option (List MetalinkFile) :=
  (run startDocument events).map MetalinkHandler.metalink

end Ydfs.Wubi.Sax
