import Ydfs.Wubi.MetalinkParts

/-!
# What the metalink parser reads of the pieces

A document as the tree of its elements, of any names and in any order, and what the handler makes of
its `pieces` elements.  `Content.read` follows the handler element by element; from it comes what each
file has of pieces at the end, as a fold over the `pieces` elements of that file alone.
-/

namespace Ydfs.Wubi.Sax

/-! ### Trees -/

/-- The content of an element: characters and elements. -/
inductive Content where
  | nil
  | characters (t : Text) (rest : Content)
  | element (name : String) (attrs : Attrs) (inner rest : Content)

namespace Content

/-- The events of a content. -/
def events : Content → List Event
  | nil => []
  | characters t rest => .characters t :: rest.events
  | element name attrs inner rest =>
    .startElement name attrs :: (inner.events ++ .endElement name :: rest.events)

/-- The elements that the handler reads as `key`. -/
def elements (key : String) : Content → List (Attrs × Content)
  | nil => []
  | characters _ rest => rest.elements key
  | element name attrs inner rest =>
    if lower name = key then (attrs, inner) :: rest.elements key else rest.elements key

/-- The characters since the last tag, after those of `t`. -/
def text (t : Text) : Content → Text
  | nil => t
  | characters s rest => rest.text (t ++ s)
  | element _ _ _ rest => rest.text []

end Content

/-! ### The state of the pieces -/

/-- What a file has of pieces, and its name. -/
structure PieceFields where
  name : Text := []
  pieceHashes : List Text := []
  pieceLength : ℤ := -1
  pieceType : Text := ['s', 'h', 'a', '1']
deriving DecidableEq

/-- The part of a file that is about pieces. -/
def MetalinkFile.pieceFields (f : MetalinkFile) : PieceFields :=
  ⟨f.name, f.pieceHashes, f.pieceLength, f.pieceType⟩

/-- What the handler has of pieces. -/
structure PieceState where
  file : Option PieceFields
  pieces : List (Text × Text)
  files : List PieceFields

/-- The part of a handler that is about pieces. -/
def MetalinkHandler.pieceState (h : MetalinkHandler) : PieceState :=
  ⟨h.file.map MetalinkFile.pieceFields, h.pieces, h.metalink.map MetalinkFile.pieceFields⟩

/-- The paths at which something happens to the pieces. -/
def piecePaths : List (List String) :=
  [["metalink", "files", "file"],
    ["metalink", "files", "file", "verification", "pieces"],
    ["metalink", "files", "file", "verification", "pieces", "hash"]]

/-- What a start tag does to the pieces. -/
def opened (path : List String) (attrs : Attrs) (s : PieceState) : PieceState :=
  if path = ["metalink", "files", "file"] then
    { s with file := some { name := textAttr attrs "name" [] } }
  else if path = ["metalink", "files", "file", "verification", "pieces"] then
    { s with
      pieces := []
      file := s.file.map fun f =>
        { f with
          pieceType := textAttr attrs "type" f.pieceType
          pieceLength := intAttr attrs "length" f.pieceLength } }
  else s

/-- What an end tag does to the pieces. -/
def closed (path : List String) (attrs : Attrs) (content : Text) (s : PieceState) : PieceState :=
  if path = ["metalink", "files", "file"] then
    { s with files := s.files ++ (s.file.filter fun f => f.name ≠ []).toList }
  else if path = ["metalink", "files", "file", "verification", "pieces", "hash"] then
    match attrs.lookup "piece" with
    | none => s
    | some piece => { s with pieces := setPiece s.pieces piece content }
  else if path = ["metalink", "files", "file", "verification", "pieces"] then
    { s with
      pieces := []
      file := s.file.map fun f =>
        { f with pieceHashes := addPieces s.pieces f.pieceHashes (List.range s.pieces.length) } }
  else s

/-- What a content at `path` does to the pieces. -/
def Content.read : List String → Content → PieceState → PieceState
  | _, nil, s => s
  | path, characters _ rest, s => rest.read path s
  | path, element name attrs inner rest, s =>
    rest.read path <|
      closed (path ++ [lower name]) attrs (unescape (strip (inner.text []))) <|
        inner.read (path ++ [lower name]) (opened (path ++ [lower name]) attrs s)

/-- What an element `key` at `path` does to the pieces. -/
def readElement (path : List String) (key : String) (s : PieceState) (e : Attrs × Content) :
    PieceState :=
  closed (path ++ [key]) e.1 (unescape (strip (e.2.text []))) <|
    e.2.read (path ++ [key]) (opened (path ++ [key]) e.1 s)

/-! ### The handler reads the tree -/

/-- There is a file for what stands inside a `file` element. -/
def Ready (path : List String) (s : PieceState) : Prop :=
  ["metalink", "files", "file"] <+: path → s.file.isSome

theorem isSome_opened {path : List String} {attrs : Attrs} {s : PieceState} (h : s.file.isSome) :
    (opened path attrs s).file.isSome := by
  unfold opened
  split
  · rfl
  · split
    · simpa using h
    · exact h

theorem isSome_closed {path : List String} {attrs : Attrs} {t : Text} {s : PieceState}
    (h : s.file.isSome) : (closed path attrs t s).file.isSome := by
  unfold closed
  split
  · exact h
  · split
    · split <;> exact h
    · split
      · simpa using h
      · exact h

/-- A file that has been started stays. -/
theorem isSome_read (path : List String) (c : Content) {s : PieceState} (h : s.file.isSome) :
    (c.read path s).file.isSome := by
  induction c generalizing path s with
  | nil => exact h
  | characters t rest ih => exact ih path h
  | element name attrs inner rest ihinner ih =>
    exact ih path (isSome_closed (ihinner _ (isSome_opened h)))

theorem Ready.opened {path : List String} {s : PieceState} (h : Ready path s) (name : String)
    (attrs : Attrs) : Ready (path ++ [name]) (opened (path ++ [name]) attrs s) := by
  intro below
  rw [List.prefix_concat_iff] at below
  rcases below with here | below
  · simp [Sax.opened, ← here]
  · exact isSome_opened (h below)

/-- The handler at the same place, with these characters and this state of the pieces. -/
structure MetalinkHandler.Back (h h' : MetalinkHandler) (t : Text) (s : PieceState) : Prop where
  elements : h'.elements = h.elements
  attrs : h'.attrs = h.attrs
  content : h'.content = t
  pieceState : h'.pieceState = s

theorem opening_back (attrs : Attrs) {h : MetalinkHandler}
    (ready : h.elements ≠ ["metalink", "files", "file"] → Ready h.elements h.pieceState) :
    ∃ h', opening attrs h = some h' ∧
      h.Back h' h.content (opened h.elements attrs h.pieceState) := by
  by_cases mem : h.elements ∈ handled
  · obtain ⟨elements, hattrs, content, file, pieces, metalink⟩ := h
    dsimp only at mem ready ⊢
    simp only [handled, List.mem_cons, List.not_mem_nil, or_false] at mem
    cases file with
    | none =>
      have here : elements = ["metalink", "files", "file"] := by
        by_contra other
        have none := ready other
        rcases mem with rfl | rfl | rfl | rfl | rfl | rfl | rfl | rfl | rfl | rfl | rfl | rfl <;>
          simp [Ready, MetalinkHandler.pieceState] at none other
      subst here
      exact ⟨_, rfl, rfl, rfl, rfl, rfl⟩
    | some f =>
      rcases mem with rfl | rfl | rfl | rfl | rfl | rfl | rfl | rfl | rfl | rfl | rfl | rfl <;>
        exact ⟨_, rfl, rfl, rfl, rfl, rfl⟩
  · refine ⟨h, opening_of_not_handled attrs mem, rfl, rfl, rfl, ?_⟩
    simp only [handled, List.mem_cons, not_or] at mem
    simp [opened, mem]

theorem process_back (attrs : Attrs) (t : Text) {h : MetalinkHandler}
    (ready : Ready h.elements h.pieceState) :
    ∃ h', process attrs t h = some h' ∧
      h.Back h' h.content (closed h.elements attrs t h.pieceState) := by
  by_cases mem : h.elements ∈ handled
  · obtain ⟨elements, hattrs, content, file, pieces, metalink⟩ := h
    dsimp only at mem ready ⊢
    simp only [handled, List.mem_cons, List.not_mem_nil, or_false] at mem
    have below : ["metalink", "files", "file"] <+: elements := by
      rcases mem with rfl | rfl | rfl | rfl | rfl | rfl | rfl | rfl | rfl | rfl | rfl | rfl <;> decide
    obtain ⟨f, rfl⟩ : ∃ f, file = some f := by
      simpa [MetalinkHandler.pieceState, Option.isSome_iff_exists] using ready below
    rcases mem with rfl | rfl | rfl | rfl | rfl | rfl | rfl | rfl | rfl | rfl | rfl | rfl
    -- a file without a name is left out
    · refine ⟨if f.name ≠ [] then _ else _, rfl, ?_⟩
      by_cases unnamed : f.name = []
      · rw [if_neg (not_not.2 unnamed)]
        exact ⟨rfl, rfl, rfl,
          by simp [closed, MetalinkHandler.pieceState, MetalinkFile.pieceFields, unnamed]⟩
      · rw [if_pos unnamed]
        exact ⟨rfl, rfl, rfl, by
          simp [closed, MetalinkHandler.pieceState, MetalinkFile.pieceFields, Option.filter, unnamed]⟩
    iterate 8 exact ⟨_, rfl, rfl, rfl, rfl, rfl⟩
    · cases type : attrs.lookup "type" with
      | none =>
        exact ⟨⟨_, hattrs, content, some f, pieces, metalink⟩, by simp [process, type],
          rfl, rfl, rfl, rfl⟩
      | some type' =>
        exact ⟨⟨_, hattrs, content, some { f with hashes := f.hashes ++ [⟨type', t⟩] }, pieces,
          metalink⟩, by simp [process, type]; rfl, rfl, rfl, rfl, rfl⟩
    · exact ⟨_, rfl, rfl, rfl, rfl, rfl⟩
    · cases piece : attrs.lookup "piece" with
      | none =>
        exact ⟨⟨_, hattrs, content, some f, pieces, metalink⟩, by simp [process, piece],
          rfl, rfl, rfl, by simp [closed, piece]⟩
      | some piece' =>
        exact ⟨⟨_, hattrs, content, some f, setPiece pieces piece' t, metalink⟩,
          by simp [process, piece], rfl, rfl, rfl,
          by simp [closed, piece, MetalinkHandler.pieceState]⟩
  · refine ⟨h, process_of_not_handled attrs t mem, rfl, rfl, rfl, ?_⟩
    simp only [handled, List.mem_cons, not_or] at mem
    simp [closed, mem]

/-- The run over a content leads back, with what the content does to the pieces. -/
theorem run_events (c : Content) {h : MetalinkHandler} (ready : Ready h.elements h.pieceState) :
    ∃ h', run h c.events = some h' ∧
      h.Back h' (c.text h.content) (c.read h.elements h.pieceState) := by
  induction c generalizing h with
  | nil => exact ⟨h, rfl, rfl, rfl, rfl, rfl⟩
  | characters t rest ih =>
    obtain ⟨h', ran, back⟩ := ih (h := characters t h) ready
    exact ⟨h', ran, back.elements, back.attrs, back.content, back.pieceState⟩
  | element name attrs inner rest ihinner ih =>
    obtain ⟨h₁, start, back₁⟩ := opening_back attrs (h := { h with
      elements := h.elements ++ [lower name], attrs := h.attrs ++ [attrs], content := [] })
      fun other below => ready ((List.prefix_concat_iff.1 below).resolve_left other.symm)
    have ready₁ : Ready h₁.elements h₁.pieceState := by
      rw [back₁.elements, back₁.pieceState]
      exact ready.opened (lower name) attrs
    obtain ⟨h₂, middle, back₂⟩ := ihinner ready₁
    have ended : h₂.attrs.getLast? = some attrs := by simp [back₂.attrs, back₁.attrs]
    have ready₂ : Ready h₂.elements h₂.pieceState := by
      rw [back₂.elements, back₂.pieceState]
      exact fun below => isSome_read _ _ (ready₁ below)
    obtain ⟨h₃, finish, back₃⟩ := process_back attrs (unescape (strip h₂.content))
      (h := { h₂ with attrs := h₂.attrs.dropLast, content := [] }) ready₂
    let h₄ : MetalinkHandler := { h₃ with elements := h₃.elements.dropLast }
    have last : endElement h₂ = some h₄ := by simp [endElement, ended, finish, h₄]
    have here : h₄.elements = h.elements := by
      simp [h₄, back₃.elements, back₂.elements, back₁.elements]
    have outer : h₄.attrs = h.attrs := by simp [h₄, back₃.attrs, back₂.attrs, back₁.attrs]
    have state : h₄.pieceState = closed (h.elements ++ [lower name]) attrs
        (unescape (strip (inner.text []))) (inner.read (h.elements ++ [lower name])
          (opened (h.elements ++ [lower name]) attrs h.pieceState)) := by
      refine back₃.pieceState.trans ?_
      change closed h₂.elements attrs (unescape (strip h₂.content)) h₂.pieceState = _
      rw [back₂.elements, back₂.content, back₂.pieceState, back₁.elements, back₁.content,
        back₁.pieceState]
      rfl
    have ready₄ : Ready h₄.elements h₄.pieceState := by
      rw [here, state]
      exact fun below => isSome_closed (isSome_read _ _ (isSome_opened (ready below)))
    obtain ⟨h', ran, back⟩ := ih ready₄
    have empty : h₄.content = [] := back₃.content
    refine ⟨h', ?_, back.elements.trans here, back.attrs.trans outer, ?_, ?_⟩
    · simp [Content.events, run_cons, run_append, handle, startElement, start, middle, last, ran]
    · rw [back.content, empty, Content.text]
    · rw [back.pieceState, here, state, Content.read]

/-- The parser succeeds on every tree, and has the files that `Content.read` gives. -/
theorem parseMetalink_events (c : Content) : ∃ files, parseMetalink c.events = some files ∧
    files.map MetalinkFile.pieceFields = (c.read [] ⟨none, [], []⟩).files := by
  have ready : Ready startDocument.elements startDocument.pieceState := by
    simp [Ready, startDocument]
  obtain ⟨h, ran, back⟩ := run_events c ready
  refine ⟨h.metalink, by rw [parseMetalink, ran, Option.map_some], ?_⟩
  exact congrArg PieceState.files back.pieceState

/-! ### The elements that matter -/

/-- Nothing happens to the pieces at a path or below it. -/
def Quiet (path : List String) : Prop := ∀ p ∈ piecePaths, ¬ path <+: p

theorem Quiet.append {path : List String} (quiet : Quiet path) (name : String) :
    Quiet (path ++ [name]) :=
  fun p hp below => quiet p hp ((List.prefix_append path [name]).trans below)

theorem Quiet.not_mem {path : List String} (quiet : Quiet path) : path ∉ piecePaths :=
  fun mem => quiet path mem (List.prefix_refl path)

theorem opened_of_quiet {path : List String} (quiet : Quiet path) (attrs : Attrs) (s : PieceState) :
    opened path attrs s = s := by
  have free := quiet.not_mem
  simp only [piecePaths, List.mem_cons, not_or] at free
  simp [opened, free]

theorem closed_of_quiet {path : List String} (quiet : Quiet path) (attrs : Attrs) (t : Text)
    (s : PieceState) : closed path attrs t s = s := by
  have free := quiet.not_mem
  simp only [piecePaths, List.mem_cons, not_or] at free
  simp [closed, free]

/-- A content does nothing where the paths of all its elements are quiet. -/
theorem read_of_quiet {path : List String} (quiet : ∀ name, Quiet (path ++ [name])) (c : Content)
    (s : PieceState) : c.read path s = s := by
  induction c generalizing path s with
  | nil => rfl
  | characters t rest ih => exact ih quiet s
  | element name attrs inner rest ihinner ih =>
    have here := quiet (lower name)
    rw [Content.read, opened_of_quiet here, ihinner here.append, closed_of_quiet here, ih quiet]

/-- The paths with another name than the next one of every path that matters are quiet. -/
theorem quiet_of_ne {path : List String} {key name : String}
    (next : ∀ p ∈ piecePaths, path <+: p → path.length < p.length → p[path.length]? = some key)
    (ne : name ≠ key) : Quiet (path ++ [name]) := by
  intro p hp below
  have longer : path.length < p.length := by
    have := below.length_le
    rw [List.length_append, List.length_singleton] at this
    omega
  have expected := next p hp ((List.prefix_append path [name]).trans below) longer
  have found : p[path.length]? = some name := by
    obtain ⟨rest, rfl⟩ := below
    simp
  rw [expected, Option.some.injEq] at found
  exact ne found.symm

/-- Of the elements at `path`, only those with the name `key` do anything. -/
theorem read_eq_foldl {path : List String} (key : String)
    (next : ∀ p ∈ piecePaths, path <+: p → path.length < p.length → p[path.length]? = some key)
    (c : Content) (s : PieceState) :
    c.read path s = (c.elements key).foldl (readElement path key) s := by
  induction c generalizing s with
  | nil => rfl
  | characters t rest ih => exact ih s
  | element name attrs inner rest _ ih =>
    rw [Content.read, Content.elements]
    by_cases same : lower name = key
    · rw [if_pos same, List.foldl_cons, ← ih, readElement, same]
    · have quiet := quiet_of_ne next same
      rw [if_neg same, opened_of_quiet quiet, read_of_quiet quiet.append, closed_of_quiet quiet, ih]

/-! ### Pieces -/

/-- A `pieces` element: the type and the length it gives, and the numbers and texts of its pieces.
A `hash` element without the attribute `piece` is none of them. -/
structure PiecesElement where
  type : Option Text
  length : Option ℤ
  pieces : List (Text × Text)
deriving DecidableEq

/-- The number and the text of a piece, from its `hash` element. -/
def pieceOf (e : Attrs × Content) : Option (Text × Text) :=
  (e.1.lookup "piece").map fun piece => (piece, unescape (strip (e.2.text [])))

/-- The `pieces` element of these attributes and this content. -/
def piecesOf (e : Attrs × Content) : PiecesElement where
  type := e.1.lookup "type"
  length := (e.1.lookup "length").bind parseInt
  pieces := (e.2.elements "hash").filterMap pieceOf

/-- The `pieces` elements of a `file` element. -/
def Content.piecesElements (file : Content) : List PiecesElement :=
  ((file.elements "verification").flatMap fun e => e.2.elements "pieces").map piecesOf

/-- The `file` elements of a document. -/
def Content.fileElements (c : Content) : List (Attrs × Content) :=
  ((c.elements "metalink").flatMap fun e => e.2.elements "files").flatMap fun e =>
    e.2.elements "file"

/-- `self._pieces` after these pieces. -/
def setPieces (pieces : List (Text × Text)) (l : List (Text × Text)) : List (Text × Text) :=
  l.foldl (fun pieces p => setPiece pieces p.1 p.2) pieces

/-- `self._pieces` at the end of a `pieces` element. -/
def PiecesElement.dict (e : PiecesElement) : List (Text × Text) := setPieces [] e.pieces

/-- What a `pieces` element does to its file. -/
def PieceFields.add (f : PieceFields) (e : PiecesElement) : PieceFields :=
  { f with
    pieceType := e.type.getD f.pieceType
    pieceLength := e.length.getD f.pieceLength
    pieceHashes := addPieces e.dict f.pieceHashes (List.range e.dict.length) }

/-- A `file` element with a name. -/
def Named (e : Attrs × Content) : Bool := textAttr e.1 "name" [] ≠ []

/-- What a `file` element comes to. -/
def fieldsOf (e : Attrs × Content) : PieceFields :=
  e.2.piecesElements.foldl PieceFields.add { name := textAttr e.1 "name" [] }

/-! ### What the elements do -/

theorem readElement_hash (s : PieceState) (e : Attrs × Content) :
    readElement ["metalink", "files", "file", "verification", "pieces"] "hash" s e =
      { s with pieces := setPieces s.pieces (pieceOf e).toList } := by
  have quiet (name : String) : Quiet
      (["metalink", "files", "file", "verification", "pieces", "hash"] ++ [name]) := by
    intro p hp below
    have short : ∀ p ∈ piecePaths, p.length ≤ 6 := by decide
    have long := below.length_le.trans (short p hp)
    simp at long
  have start : opened ["metalink", "files", "file", "verification", "pieces", "hash"] e.1 s = s := by
    simp [opened]
  rw [readElement, List.cons_append, List.cons_append, List.cons_append, List.cons_append,
    List.cons_append, List.nil_append, start, read_of_quiet quiet]
  cases piece : e.1.lookup "piece" with
  | none => simp [closed, pieceOf, piece, setPieces]
  | some piece' => simp [closed, pieceOf, piece, setPieces]

theorem read_pieces (c : Content) (s : PieceState) :
    c.read ["metalink", "files", "file", "verification", "pieces"] s =
      { s with pieces := setPieces s.pieces ((c.elements "hash").filterMap pieceOf) } := by
  rw [read_eq_foldl "hash" (by decide)]
  induction c.elements "hash" generalizing s with
  | nil => rfl
  | cons e l ih =>
    rw [List.foldl_cons, ih, readElement_hash]
    cases piece : pieceOf e <;> simp [piece, setPieces]

theorem readElement_pieces (s : PieceState) (e : Attrs × Content) :
    readElement ["metalink", "files", "file", "verification"] "pieces" s e =
      { s with file := s.file.map fun f => f.add (piecesOf e), pieces := [] } := by
  have path : ["metalink", "files", "file", "verification"] ++ ["pieces"] =
    ["metalink", "files", "file", "verification", "pieces"] := rfl
  rw [readElement, path, read_pieces]
  simp [opened, closed, PieceFields.add, PiecesElement.dict, piecesOf, textAttr, intAttr,
    Function.comp_def]

theorem read_verification (c : Content) (s : PieceState) : ∃ pieces,
    c.read ["metalink", "files", "file", "verification"] s =
      ⟨s.file.map fun f => ((c.elements "pieces").map piecesOf).foldl PieceFields.add f, pieces,
        s.files⟩ := by
  rw [read_eq_foldl "pieces" (by decide)]
  induction c.elements "pieces" generalizing s with
  | nil => exact ⟨s.pieces, by simp⟩
  | cons e l ih =>
    obtain ⟨pieces, h⟩ := ih
      { s with file := s.file.map fun f => f.add (piecesOf e), pieces := [] }
    refine ⟨pieces, ?_⟩
    rw [List.foldl_cons, readElement_pieces, h]
    simp [Function.comp_def]

theorem read_file (c : Content) (s : PieceState) : ∃ pieces,
    c.read ["metalink", "files", "file"] s =
      ⟨s.file.map fun f => c.piecesElements.foldl PieceFields.add f, pieces, s.files⟩ := by
  rw [read_eq_foldl "verification" (by decide), Content.piecesElements]
  induction c.elements "verification" generalizing s with
  | nil => exact ⟨s.pieces, by simp⟩
  | cons e l ih =>
    have here : readElement ["metalink", "files", "file"] "verification" s e =
        e.2.read ["metalink", "files", "file", "verification"] s := by
      simp [readElement, opened, closed]
    obtain ⟨pieces, inner⟩ := read_verification e.2 s
    obtain ⟨pieces', h⟩ := ih ⟨s.file.map fun f =>
      ((e.2.elements "pieces").map piecesOf).foldl PieceFields.add f, pieces, s.files⟩
    refine ⟨pieces', ?_⟩
    rw [List.foldl_cons, here, inner, h]
    simp [Function.comp_def]

@[simp] theorem name_foldl_add (l : List PiecesElement) (f : PieceFields) :
    (l.foldl PieceFields.add f).name = f.name := by
  induction l generalizing f with
  | nil => rfl
  | cons e l ih => exact ih (f.add e)

theorem files_readElement_file (s : PieceState) (e : Attrs × Content) :
    (readElement ["metalink", "files"] "file" s e).files =
      s.files ++ ([e].filter Named).map fieldsOf := by
  have path : ["metalink", "files"] ++ ["file"] = ["metalink", "files", "file"] := rfl
  obtain ⟨pieces, inner⟩ := read_file e.2 (opened ["metalink", "files", "file"] e.1 s)
  rw [readElement, path, inner]
  by_cases named : textAttr e.1 "name" [] = [] <;>
    simp [opened, closed, fieldsOf, Named, Option.filter, named]

theorem files_read_files (c : Content) (s : PieceState) :
    (c.read ["metalink", "files"] s).files =
      s.files ++ ((c.elements "file").filter Named).map fieldsOf := by
  rw [read_eq_foldl "file" (by decide)]
  induction c.elements "file" generalizing s with
  | nil => simp
  | cons e l ih =>
    rw [List.foldl_cons, ih, files_readElement_file, List.append_assoc, ← List.map_append,
      ← List.filter_append, List.singleton_append]

theorem files_read_metalink (c : Content) (s : PieceState) :
    (c.read ["metalink"] s).files = s.files ++
      (((c.elements "files").flatMap fun e => e.2.elements "file").filter Named).map fieldsOf := by
  rw [read_eq_foldl "files" (by decide)]
  induction c.elements "files" generalizing s with
  | nil => simp
  | cons e l ih =>
    have here : readElement ["metalink"] "files" s e = e.2.read ["metalink", "files"] s := by
      simp [readElement, opened, closed]
    rw [List.foldl_cons, ih, here, files_read_files, List.append_assoc, List.flatMap_cons,
      List.filter_append, List.map_append]

/-- What a document of any elements comes to: each `file` element with a name is a file, with the
pieces that its own `pieces` elements give one after the other. -/
theorem files_read (c : Content) (s : PieceState) :
    (c.read [] s).files = s.files ++ (c.fileElements.filter Named).map fieldsOf := by
  rw [read_eq_foldl "metalink" (by decide), Content.fileElements]
  induction c.elements "metalink" generalizing s with
  | nil => simp
  | cons e l ih =>
    have here : readElement [] "metalink" s e = e.2.read ["metalink"] s := by
      simp [readElement, opened, closed]
    rw [List.foldl_cons, ih, here, files_read_metalink, List.append_assoc, List.flatMap_cons,
      List.flatMap_append, List.filter_append, List.map_append]

/-- The parser succeeds on every tree; its files are the `file` elements with a name. -/
theorem parseMetalink_tree (c : Content) : ∃ files, parseMetalink c.events = some files ∧
    files.map MetalinkFile.pieceFields = (c.fileElements.filter Named).map fieldsOf := by
  obtain ⟨files, parsed, fields⟩ := parseMetalink_events c
  exact ⟨files, parsed, by rw [fields, files_read, List.nil_append]⟩

end Ydfs.Wubi.Sax
