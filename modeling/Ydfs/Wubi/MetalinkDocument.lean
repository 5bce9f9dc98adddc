import Ydfs.Wubi.Metalink

/-!
# Documents of a metalink

A document of a metalink, as a SAX parser reports it: the elements of its files in any order, each
text in any pieces, elements that are left out where the value is the default, and unknown elements
and characters between the known ones.  `write` writes the one in which nothing is left out.
-/

namespace Ydfs.Wubi.Sax

open Search

/-! ### Documents -/

/-- Characters, and elements with other names than the known ones. -/
inductive Noise : List String → List Event → Prop
  | nil (known : List String) : Noise known []
  | characters {known : List String} (t : Text) {rest : List Event} (h : Noise known rest) :
      Noise known (.characters t :: rest)
  | element {known : List String} (name : String) (attrs : Attrs) (unknown : lower name ∉ known)
      {inner rest : List Event} (hinner : Noise [] inner) (h : Noise known rest) :
      Noise known (.startElement name attrs :: (inner ++ .endElement name :: rest))

/-- Items in their order, with noise between them. -/
inductive Between (known : List String) : List (List Event → Prop) → List Event → Prop
  | nil {noise : List Event} (h : Noise known noise) : Between known [] noise
  | cons {item : List Event → Prop} {items : List (List Event → Prop)}
      {noise events rest : List Event} (h : Noise known noise) (hitem : item events)
      (hrest : Between known items rest) : Between known (item :: items) (noise ++ (events ++ rest))

/-- An element with a name that the handler reads as `key`. -/
def Element (key : String) (attributes : Attrs → Prop) (content : List Event → Prop)
    (events : List Event) : Prop :=
  ∃ name attrs inner, lower name = key ∧ attributes attrs ∧ content inner ∧
    events = .startElement name attrs :: (inner ++ [.endElement name])

/-- A text in pieces. -/
def Chunks (t : Text) (events : List Event) : Prop :=
  ∃ chunks : List Text, chunks.flatten = t ∧ events = chunks.map .characters

/-- An attribute that is a text; it may be left out if it has the default. -/
def CarriesText (attrs : Attrs) (key : String) (value default : Text) : Prop :=
  attrs.lookup key = some value ∨ attrs.lookup key = none ∧ value = default

/-- An attribute that is a number; it may be left out if there is none. -/
def CarriesInt (attrs : Attrs) (key : String) (value : ℤ) : Prop :=
  attrs.lookup key = some (decimal value) ∨ attrs.lookup key = none ∧ value = -1

/-- A `url` element. -/
def urlElement (u : MetalinkUrl) : List Event → Prop :=
  Element "url" (fun attrs => CarriesText attrs "type" u.type [] ∧
    CarriesText attrs "location" u.location [] ∧ CarriesInt attrs "preference" u.preference ∧
    CarriesInt attrs "maxconnections" u.maxconnections) (Chunks u.url)

/-- A `hash` element of a file. -/
def hashElement (x : MetalinkHash) : List Event → Prop :=
  Element "hash" (fun attrs => attrs.lookup "type" = some x.type) (Chunks x.hash)

/-- A `hash` element of a piece, with the number of the piece. -/
def pieceElement (piece : Text × ℕ) : List Event → Prop :=
  Element "hash" (fun attrs => attrs.lookup "piece" = some (decimal piece.2)) (Chunks piece.1)

/-- The `pieces` element. -/
def piecesElement (f : MetalinkFile) : List Event → Prop :=
  Element "pieces"
    (fun attrs => CarriesText attrs "type" f.pieceType ['s', 'h', 'a', '1'] ∧
      CarriesInt attrs "length" f.pieceLength)
    (Between ["hash"] (f.pieceHashes.zipIdx.map pieceElement))

/-- What a `verification` element holds. -/
inductive Part where
  | hash (x : MetalinkHash)
  | pieces
deriving DecidableEq

/-- The hash of a part. -/
def Part.hash? : Part → Option MetalinkHash
  | hash x => some x
  | pieces => none

/-- The element of a part. -/
def partElement (f : MetalinkFile) : Part → List Event → Prop
  | .hash x => hashElement x
  | .pieces => piecesElement f

/-- All that the `pieces` element says is the default. -/
def NoPieces (f : MetalinkFile) : Prop :=
  f.pieceHashes = [] ∧ f.pieceLength = -1 ∧ f.pieceType = ['s', 'h', 'a', '1']

/-- The parts of the `verification` element: the hashes in their order, and the pieces once, or not
at all if there is nothing to be said. -/
def PartsOf (f : MetalinkFile) (parts : List Part) : Prop :=
  parts.filterMap Part.hash? = f.hashes ∧ parts.count .pieces ≤ 1 ∧ (.pieces ∉ parts → NoPieces f)

/-- What a `file` element holds. -/
inductive Item where
  | identity
  | version
  | size
  | description
  | language
  | os
  | verification
  | resources
deriving DecidableEq

/-- The element of an item. -/
def itemElement (f : MetalinkFile) : Item → List Event → Prop
  | .identity => Element "identity" (fun _ => True) (Chunks f.identity)
  | .version => Element "version" (fun _ => True) (Chunks f.version)
  | .size => Element "size" (fun _ => True) (Chunks (decimal f.size))
  | .description => Element "description" (fun _ => True) (Chunks f.description)
  | .language => Element "language" (fun _ => True) (Chunks f.language)
  | .os => Element "os" (fun _ => True) (Chunks f.os)
  | .verification => Element "verification" (fun _ => True) fun events =>
      ∃ parts, PartsOf f parts ∧ Between ["hash", "pieces"] (parts.map (partElement f)) events
  | .resources => Element "resources"
      (fun attrs => CarriesInt attrs "maxconnections" f.maxconnections)
      (Between ["url"] (f.urls.map urlElement))

/-- The item has nothing to say. -/
def Item.Absent (f : MetalinkFile) : Item → Prop
  | identity => f.identity = []
  | version => f.version = []
  | size => f.size = -1
  | description => f.description = []
  | language => f.language = []
  | os => f.os = []
  | verification => f.hashes = [] ∧ NoPieces f
  | resources => f.urls = [] ∧ f.maxconnections = -1

/-- The names of the items. -/
def itemNames : List String :=
  ["identity", "version", "size", "description", "language", "os", "verification", "resources"]

/-- A `file` element: its items in any order, without those that have nothing to say. -/
def fileElement (f : MetalinkFile) : List Event → Prop :=
  Element "file" (fun attrs => attrs.lookup "name" = some f.name) fun events =>
    ∃ items : List Item, items.Nodup ∧ (∀ i ∉ items, i.Absent f) ∧
      Between itemNames (items.map (itemElement f)) events

/-- The events of a document of a metalink. -/
def Document (files : List MetalinkFile) : List Event → Prop :=
  Element "metalink" (fun _ => True) (Between ["files"]
    [Element "files" (fun _ => True) (Between ["file"] (files.map fileElement))])

/-! ### Values -/

/-- The texts of a file that are contents of elements. -/
def MetalinkFile.texts (f : MetalinkFile) : List Text :=
  [f.identity, f.version, f.description, f.language, f.os] ++ f.hashes.map MetalinkHash.hash ++
    f.pieceHashes ++ f.urls.map MetalinkUrl.url

theorem hash_mem_texts {f : MetalinkFile} {x : MetalinkHash} (h : x ∈ f.hashes) :
    x.hash ∈ f.texts := by
  have mem := List.mem_map_of_mem (f := MetalinkHash.hash) h
  simp only [MetalinkFile.texts, List.mem_append]
  exact .inl (.inl (.inr mem))

theorem url_mem_texts {f : MetalinkFile} {u : MetalinkUrl} (h : u ∈ f.urls) : u.url ∈ f.texts := by
  have mem := List.mem_map_of_mem (f := MetalinkUrl.url) h
  simp only [MetalinkFile.texts, List.mem_append]
  exact .inr mem

/-- A file with a name, whose texts have no white space at their ends. -/
def MetalinkFile.WellFormed (f : MetalinkFile) : Prop :=
  f.name ≠ [] ∧ ∀ t ∈ f.texts, strip t = t

/-- A text in which `unescape` finds nothing. -/
def Plain (t : Text) : Prop :=
  ¬ "&gt;".toList <:+: t ∧ ¬ "&lt;".toList <:+: t ∧ ¬ "&amp;".toList <:+: t

/-- The url with its text decoded once more. -/
def MetalinkUrl.again (u : MetalinkUrl) : MetalinkUrl := { u with url := unescape u.url }

/-- The hash with its text decoded once more. -/
def MetalinkHash.again (x : MetalinkHash) : MetalinkHash := { x with hash := unescape x.hash }

/-- The file with its texts decoded once more. -/
def MetalinkFile.again (f : MetalinkFile) : MetalinkFile :=
  { f with
    identity := unescape f.identity
    version := unescape f.version
    description := unescape f.description
    language := unescape f.language
    os := unescape f.os
    hashes := f.hashes.map MetalinkHash.again
    pieceHashes := f.pieceHashes.map unescape
    urls := f.urls.map MetalinkUrl.again }

/-! ### A writer -/

/-- An element as a document without noise has it. -/
def element (name : String) (attrs : Attrs) (inner : List Event) : List Event :=
  .startElement name attrs :: (inner ++ [.endElement name])

/-- The element of a part. -/
def writePart (f : MetalinkFile) : Part → List Event
  | .hash x => element "hash" [("type", x.type)] [.characters x.hash]
  | .pieces => element "pieces" [("type", f.pieceType), ("length", decimal f.pieceLength)] <|
      f.pieceHashes.zipIdx.flatMap fun p =>
        element "hash" [("piece", decimal p.2)] [.characters p.1]

/-- All parts of a file. -/
def allParts (f : MetalinkFile) : List Part := f.hashes.map .hash ++ [.pieces]

/-- The `resources` element. -/
def writeResources (f : MetalinkFile) : List Event :=
  element "resources" [("maxconnections", decimal f.maxconnections)] <|
    f.urls.flatMap fun u => element "url"
      [("type", u.type), ("location", u.location), ("preference", decimal u.preference),
        ("maxconnections", decimal u.maxconnections)] [.characters u.url]

/-- The element of an item. -/
def writeItem (f : MetalinkFile) : Item → List Event
  | .identity => element "identity" [] [.characters f.identity]
  | .version => element "version" [] [.characters f.version]
  | .size => element "size" [] [.characters (decimal f.size)]
  | .description => element "description" [] [.characters f.description]
  | .language => element "language" [] [.characters f.language]
  | .os => element "os" [] [.characters f.os]
  | .verification => element "verification" [] ((allParts f).flatMap (writePart f))
  | .resources => writeResources f

/-- All items of a file. -/
def allItems : List Item :=
  [.identity, .version, .size, .description, .language, .os, .verification, .resources]

/-- A document of a metalink in which nothing is left out. -/
def write (files : List MetalinkFile) : List Event :=
  element "metalink" [] <| element "files" [] <| files.flatMap fun f =>
    element "file" [("name", f.name)] (allItems.flatMap (writeItem f))

theorem between_flatMap {ι : Type} (known : List String) {item : ι → List Event → Prop}
    {writer : ι → List Event} (l : List ι) (h : ∀ i ∈ l, item i (writer i)) :
    Between known (l.map item) (l.flatMap writer) := by
  induction l with
  | nil => exact .nil (.nil known)
  | cons i l ih =>
    have rest := ih fun j hj => h j (List.mem_cons_of_mem _ hj)
    exact .cons (.nil known) (h i (List.mem_cons_self ..)) rest

theorem element_element {name key : String} {attrs : Attrs} {inner : List Event}
    {attributes : Attrs → Prop} {content : List Event → Prop} (hname : lower name = key)
    (ok : attributes attrs) (h : content inner) :
    Element key attributes content (element name attrs inner) :=
  ⟨name, attrs, inner, hname, ok, h, rfl⟩

theorem chunks_single (t : Text) : Chunks t [.characters t] := ⟨[t], by simp, rfl⟩

theorem partsOf_allParts (f : MetalinkFile) : PartsOf f (allParts f) := by
  refine ⟨?_, ?_, fun h => absurd (by simp [allParts]) h⟩
  · have kept : Part.hash? ∘ Part.hash = some := rfl
    simp [allParts, List.filterMap_map, kept, Part.hash?]
  · have none : Part.pieces ∉ f.hashes.map Part.hash := by simp
    simp [allParts, List.count_eq_zero_of_not_mem none]

theorem partElement_writePart (f : MetalinkFile) (part : Part) :
    partElement f part (writePart f part) := by
  cases part with
  | hash x => exact element_element (by decide) rfl (chunks_single x.hash)
  | pieces =>
    refine element_element (by decide) ⟨.inl rfl, .inl rfl⟩ (between_flatMap _ _ fun p _ => ?_)
    exact element_element (by decide) rfl (chunks_single p.1)

theorem itemElement_writeItem (f : MetalinkFile) (i : Item) : itemElement f i (writeItem f i) := by
  cases i with
  | identity => exact element_element (by decide) trivial (chunks_single f.identity)
  | version => exact element_element (by decide) trivial (chunks_single f.version)
  | size => exact element_element (by decide) trivial (chunks_single (decimal f.size))
  | description => exact element_element (by decide) trivial (chunks_single f.description)
  | language => exact element_element (by decide) trivial (chunks_single f.language)
  | os => exact element_element (by decide) trivial (chunks_single f.os)
  | verification =>
    exact element_element (by decide) trivial ⟨allParts f, partsOf_allParts f,
      between_flatMap _ (allParts f) fun part _ => partElement_writePart f part⟩
  | resources =>
    refine element_element (by decide) (.inl rfl) (between_flatMap _ f.urls fun u _ => ?_)
    exact element_element (by decide) ⟨.inl rfl, .inl rfl, .inl rfl, .inl rfl⟩ (chunks_single u.url)

/-- The writer writes documents. -/
theorem document_write (files : List MetalinkFile) : Document files (write files) := by
  have file (f : MetalinkFile) : fileElement f
      (element "file" [("name", f.name)] (allItems.flatMap (writeItem f))) :=
    element_element (by decide) rfl ⟨allItems, by decide, fun i hi => by cases i <;> simp [allItems] at hi,
      between_flatMap _ allItems fun i _ => itemElement_writeItem f i⟩
  have inner : Element "files" (fun _ => True) (Between ["file"] (files.map fileElement))
      (element "files" [] (files.flatMap fun f =>
        element "file" [("name", f.name)] (allItems.flatMap (writeItem f)))) :=
    element_element (by decide) trivial (between_flatMap _ files fun f _ => file f)
  refine element_element (by decide) trivial ?_
  have single := between_flatMap ["files"] [()] fun _ _ => inner
  simpa using single

end Ydfs.Wubi.Sax
