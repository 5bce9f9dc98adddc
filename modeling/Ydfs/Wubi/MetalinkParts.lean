import Ydfs.Wubi.MetalinkDocument

/-!
# Parts of a metalink document

`Takes` says what a part of a document does to what the handler has built.  It comes with one rule
for each way to compose a document: an element, a text in pieces, and items with noise between them.
From the rules follow those for the elements inside a file.
-/

namespace Ydfs.Wubi.Sax

open Search

/-! ### What a piece of a document does to the handler -/

/-- What the handler has built. -/
structure Built where
  file : Option MetalinkFile
  pieces : List (Text × Text)
  metalink : List MetalinkFile

/-- What a handler has built so far. -/
def MetalinkHandler.built (h : MetalinkHandler) : Built := ⟨h.file, h.pieces, h.metalink⟩

/-- The handler with something else built and other characters read. -/
def MetalinkHandler.put (h : MetalinkHandler) (b : Built) (content : Text) : MetalinkHandler :=
  { h with file := b.file, pieces := b.pieces, metalink := b.metalink, content := content }

@[simp] theorem built_put (h : MetalinkHandler) (b : Built) (t : Text) : (h.put b t).built = b := rfl

@[simp] theorem elements_put (h : MetalinkHandler) (b : Built) (t : Text) :
    (h.put b t).elements = h.elements := rfl

@[simp] theorem put_put (h : MetalinkHandler) (b b' : Built) (t t' : Text) :
    (h.put b t).put b' t' = h.put b' t' := rfl

/-- Events with the property `part`, read at `path` when `b` is built, lead to `b'` and back to
`path`. -/
def Takes (path : List String) (part : List Event → Prop) (b b' : Built) : Prop :=
  ∀ h events, h.elements = path → h.built = b → part events →
    ∃ t, run h events = some (h.put b' t)

@[simp] theorem run_nil (h : MetalinkHandler) : run h [] = some h := rfl

theorem run_cons (h : MetalinkHandler) (e : Event) (events : List Event) :
    run h (e :: events) = (handle h e).bind fun h' => run h' events := rfl

theorem run_append (h : MetalinkHandler) (events events' : List Event) :
    run h (events ++ events') = (run h events).bind fun h' => run h' events' :=
  List.foldlM_append ..

theorem run_chunks (h : MetalinkHandler) (chunks : List Text) :
    run h (chunks.map .characters) = some { h with content := h.content ++ chunks.flatten } := by
  induction chunks generalizing h with
  | nil => simp
  | cons c chunks ih => simp [run_cons, handle, characters, ih]

/-! ### Noise -/

/-- The paths at which the handler does something. -/
def handled : List (List String) :=
  [["metalink", "files", "file"],
    ["metalink", "files", "file", "identity"],
    ["metalink", "files", "file", "version"],
    ["metalink", "files", "file", "size"],
    ["metalink", "files", "file", "description"],
    ["metalink", "files", "file", "language"],
    ["metalink", "files", "file", "os"],
    ["metalink", "files", "file", "resources"],
    ["metalink", "files", "file", "resources", "url"],
    ["metalink", "files", "file", "verification", "hash"],
    ["metalink", "files", "file", "verification", "pieces"],
    ["metalink", "files", "file", "verification", "pieces", "hash"]]

/-- Nothing is handled at a path or below it. -/
def Deaf (path : List String) : Prop := ∀ p ∈ handled, ¬ path <+: p

theorem Deaf.append {path : List String} (deaf : Deaf path) (name : String) :
    Deaf (path ++ [name]) :=
  fun p hp below => deaf p hp ((List.prefix_append path [name]).trans below)

theorem Deaf.not_mem {path : List String} (deaf : Deaf path) : path ∉ handled :=
  fun mem => deaf path mem (List.prefix_refl path)

/-- The names under which something is handled below a path. -/
def children (path : List String) : List String :=
  handled.filterMap fun p => if path <+: p then (p.drop path.length).head? else none

theorem deaf_of_children {path known : List String} (h : ∀ n ∈ children path, n ∈ known) :
    ∀ n ∉ known, Deaf (path ++ [n]) := by
  rintro n unknown p hp ⟨rest, rfl⟩
  refine unknown (h n (List.mem_filterMap.2 ⟨_, hp, ?_⟩))
  simp

theorem opening_of_not_handled (attrs : Attrs) {h : MetalinkHandler} (free : h.elements ∉ handled) :
    opening attrs h = some h := by
  simp only [handled, List.mem_cons, not_or] at free
  simp [opening, free]

theorem process_of_not_handled (attrs : Attrs) (t : Text) {h : MetalinkHandler}
    (free : h.elements ∉ handled) : process attrs t h = some h := by
  simp only [handled, List.mem_cons, not_or] at free
  simp [process, free]

theorem put_self {g : MetalinkHandler} {b : Built} (hb : g.built = b) (hc : g.content = []) :
    g.put b [] = g := by
  cases g
  subst hb
  subst hc
  rfl

/-- An element: what its start tag does, its content, and what its end tag does with the
characters `t` before it. -/
theorem run_element {h : MetalinkHandler} (name : String) (attrs : Attrs) {inner : List Event}
    {b b' : Built} (b₁ b₂ : Built) (left : Text → Prop) (hb : h.built = b)
    (hstart : ∀ g : MetalinkHandler, g.elements = h.elements ++ [lower name] → g.built = b →
      g.content = [] → opening attrs g = some (g.put b₁ []))
    (hinner : ∀ g : MetalinkHandler, g.elements = h.elements ++ [lower name] → g.built = b₁ →
      g.content = [] → ∃ t, left t ∧ run g inner = some (g.put b₂ t))
    (hend : ∀ (g : MetalinkHandler) (t : Text), left t → g.elements = h.elements ++ [lower name] →
      g.built = b₂ → g.content = [] → process attrs (unescape (strip t)) g = some (g.put b' [])) :
    run h (.startElement name attrs :: (inner ++ [.endElement name])) = some (h.put b' []) := by
  let g : MetalinkHandler :=
    { h with elements := h.elements ++ [lower name], attrs := h.attrs ++ [attrs], content := [] }
  have first : startElement name attrs h = some (g.put b₁ []) := hstart g rfl hb rfl
  obtain ⟨t, ht, middle⟩ := hinner (g.put b₁ []) rfl rfl rfl
  rw [put_put] at middle
  have last : endElement (g.put b₂ t) = some (h.put b' []) := by
    have processed := hend { g.put b₂ t with attrs := h.attrs, content := [] } t ht rfl rfl rfl
    simp only [endElement, g, MetalinkHandler.put] at processed ⊢
    simp [processed]
  simp [run_cons, run_append, handle, first, middle, last]

/-- Noise changes nothing that is built, where its elements are unknown. -/
theorem run_noise {known : List String} {events : List Event} (noise : Noise known events)
    (h : MetalinkHandler) (deaf : ∀ n ∉ known, Deaf (h.elements ++ [n])) :
    ∃ t, run h events = some (h.put h.built t) := by
  induction noise generalizing h with
  | nil => exact ⟨h.content, rfl⟩
  | characters t _ ih =>
    obtain ⟨t', ht'⟩ := ih (characters t h) deaf
    exact ⟨t', ht'⟩
  | @element known name attrs unknown inner rest _ _ ihinner ih =>
    have below := deaf _ unknown
    have around : run h (.startElement name attrs :: (inner ++ [.endElement name])) =
        some (h.put h.built []) := by
      refine run_element name attrs h.built h.built (fun _ => True) rfl (fun g hp hb hc => ?_)
        (fun g hp hb hc => ?_)
        fun g t _ hp hb hc => ?_
      · rw [opening_of_not_handled attrs (hp ▸ below.not_mem), put_self hb hc]
      · obtain ⟨t, ht⟩ := ihinner g fun n _ => hp ▸ below.append n
        exact ⟨t, trivial, hb ▸ ht⟩
      · rw [process_of_not_handled attrs _ (hp ▸ below.not_mem), put_self hb hc]
    obtain ⟨t, ht⟩ := ih (h.put h.built []) deaf
    have split : Event.startElement name attrs :: (inner ++ .endElement name :: rest) =
        (.startElement name attrs :: (inner ++ [.endElement name])) ++ rest := by simp
    exact ⟨t, by rw [split, run_append, around, Option.bind_some, ht]; rfl⟩

/-! ### Rules for the parts of a document -/

variable {path : List String} {key : String} {attributes : Attrs → Prop} {b b' : Built}

/-- An element with other elements in it. -/
theorem takes_element {content : List Event → Prop} (b₁ b₂ : Built)
    (hstart : ∀ (attrs : Attrs) (g : MetalinkHandler), attributes attrs →
      g.elements = path ++ [key] → g.built = b → g.content = [] →
      opening attrs g = some (g.put b₁ []))
    (hinner : Takes (path ++ [key]) content b₁ b₂)
    (hend : ∀ (attrs : Attrs) (g : MetalinkHandler) (t : Text), attributes attrs →
      g.elements = path ++ [key] → g.built = b₂ → g.content = [] →
      process attrs t g = some (g.put b' [])) :
    Takes path (Element key attributes content) b b' := by
  rintro h events hp hb ⟨name, attrs, inner, rfl, ok, hcontent, rfl⟩
  refine ⟨[], run_element name attrs b₁ b₂ (fun _ => True) hb (fun g hg => ?_) (fun g hg hgb _ => ?_)
    fun g t _ hg => ?_⟩
  · exact hstart attrs g ok (by rw [hg, hp])
  · obtain ⟨t, ht⟩ := hinner g inner (by rw [hg, hp]) hgb hcontent
    exact ⟨t, trivial, ht⟩
  · exact hend attrs g _ ok (by rw [hg, hp])

/-- An element with a text in it. -/
theorem takes_text {t : Text} (stripped : strip t = t)
    (hstart : ∀ (attrs : Attrs) (g : MetalinkHandler), g.elements = path ++ [key] →
      opening attrs g = some g)
    (hend : ∀ (attrs : Attrs) (g : MetalinkHandler), attributes attrs →
      g.elements = path ++ [key] → g.built = b → g.content = [] →
      process attrs (unescape t) g = some (g.put b' [])) :
    Takes path (Element key attributes (Chunks t)) b b' := by
  rintro h events hp hb ⟨name, attrs, inner, rfl, ok, ⟨chunks, rfl, rfl⟩, rfl⟩
  refine ⟨[], run_element name attrs b b (· = chunks.flatten) hb (fun g hg hgb hc => ?_)
    (fun g hg hgb hc => ?_) fun g t ht hg hgb hc => ?_⟩
  · rw [hstart attrs g (by rw [hg, hp]), put_self hgb hc]
  · refine ⟨_, rfl, ?_⟩
    rw [run_chunks, hc, List.nil_append, ← hgb]
    rfl
  · rw [ht, stripped]
    exact hend attrs g ok (by rw [hg, hp]) hgb hc

/-- Items with noise between them: each takes what is built before it to what is built after it. -/
theorem takes_between {known : List String} (deaf : ∀ n ∉ known, Deaf (path ++ [n])) {ι : Type}
    (item : ι → List Event → Prop) (state : List ι → Built) (l : List ι)
    (step : ∀ done i rest, l = done ++ i :: rest →
      Takes path (item i) (state done) (state (done ++ [i]))) :
    Takes path (Between known (l.map item)) (state []) (state l) := by
  suffices h : ∀ rest done, l = done ++ rest →
      Takes path (Between known (rest.map item)) (state done) (state l) from h l [] rfl
  intro rest
  induction rest with
  | nil =>
    rintro done rfl h events hp hb ⟨noise⟩
    rw [List.append_nil, ← hb]
    exact run_noise noise h (hp ▸ deaf)
  | cons i rest ih =>
    rintro done split h events hp hb (_ | ⟨noise, hitem, hrest⟩)
    obtain ⟨t, ht⟩ := run_noise noise h (hp ▸ deaf)
    rw [hb] at ht
    obtain ⟨t', ht'⟩ := step done i rest split (h.put (state done) t) _ hp rfl hitem
    obtain ⟨t'', ht''⟩ := ih (done ++ [i]) (by simpa using split)
      (h.put (state (done ++ [i])) t') _ hp rfl hrest
    exact ⟨t'', by rw [run_append, ht, Option.bind_some, run_append, ht', Option.bind_some,
      put_put, ht'', put_put]⟩

/-! ### Numbers and entities -/

/-- The characters of a number are no blanks and no ampersands. -/
theorem mem_decimal {n : ℤ} {c : Char} (h : c ∈ decimal n) : c.isDigit ∨ c = '-' := by
  cases n with
  | ofNat n => exact .inl (Nat.isDigit_of_mem_toDigits (by decide) (by decide) h)
  | negSucc n =>
    rcases List.mem_cons.1 h with rfl | h
    · exact .inr rfl
    · exact .inl (Nat.isDigit_of_mem_toDigits (by decide) (by decide) h)

theorem isSpace_of_isDigit {c : Char} (h : c.isDigit) : isSpace c = false := by
  have digitless : ∀ c ∈ spaces, (!c.isDigit) = true := List.all_eq_true.1 (by decide)
  have low : c.toNat ≤ 57 := by
    simp only [Char.isDigit, Bool.and_eq_true, decide_eq_true_eq] at h
    exact h.2
  simp only [isSpace, decide_eq_false_iff_not, not_or, not_and]
  refine ⟨fun mem => ?_, fun high => by omega⟩
  have none := digitless c mem
  rw [h] at none
  cases none

theorem strip_of_no_space {t : Text} (h : ∀ c ∈ t, isSpace c = false) : strip t = t := by
  have left : t.dropWhile isSpace = t := by
    cases t with
    | nil => rfl
    | cons c t => simp [h c]
  rw [strip, left, List.rdropWhile_eq_self_iff]
  intro ne
  simp [h _ (List.getLast_mem ne)]

theorem strip_decimal (n : ℤ) : strip (decimal n) = decimal n := by
  refine strip_of_no_space fun c hc => ?_
  rcases mem_decimal hc with digit | rfl
  · exact isSpace_of_isDigit digit
  · decide

theorem parseDigits_toDigits (n : ℕ) : parseDigits (Nat.toDigits 10 n) = some n := by
  have digits : (Nat.toDigits 10 n).all Char.isDigit :=
    List.all_eq_true.2 fun c hc => Nat.isDigit_of_mem_toDigits (by decide) (by decide) hc
  rw [parseDigits, if_pos ⟨Nat.toDigits_ne_nil, digits⟩, Nat.ofDigitChars_ten_toDigits]

theorem parseInt_decimal (n : ℤ) : parseInt (decimal n) = some n := by
  rw [parseInt, strip_decimal]
  cases n with
  | ofNat n =>
    simp only [decimal]
    split
    · next digits minus =>
      have := Nat.isDigit_of_mem_toDigits (b := 10) (c := '-') (n := n) (by decide) (by decide)
        (by simp [minus])
      cases this
    · next digits plus =>
      have := Nat.isDigit_of_mem_toDigits (b := 10) (c := '+') (n := n) (by decide) (by decide)
        (by simp [plus])
      cases this
    · rw [parseDigits_toDigits]
      rfl
  | negSucc n => simp [decimal, parseDigits_toDigits, Int.negSucc_eq]

theorem unescape_of_plain {t : Text} (h : Plain t) : unescape t = t := by
  rw [unescape, replace_of_free h.1, replace_of_free h.2.1, replace_of_free h.2.2]

/-- `unescape` changes every text that has an entity in it. -/
theorem unescape_eq_self_iff (t : Text) : unescape t = t ↔ Plain t := by
  refine ⟨fun same => ?_, unescape_of_plain⟩
  rw [unescape] at same
  have length := congrArg List.length same
  have first := length_replace_le (w := "&gt;".toList) (v := ['>']) (x := t) (by decide)
  have second := length_replace_le (w := "&lt;".toList) (v := ['<'])
    (x := replace "&gt;".toList ['>'] t) (by decide)
  have third := length_replace_le (w := "&amp;".toList) (v := ['&'])
    (x := replace "&lt;".toList ['<'] (replace "&gt;".toList ['>'] t)) (by decide)
  have no_gt : ¬ "&gt;".toList <:+: t := fun h => by
    have := length_replace_lt (v := ['>']) (by decide) h
    omega
  rw [replace_of_free no_gt] at length second third
  have no_lt : ¬ "&lt;".toList <:+: t := fun h => by
    have := length_replace_lt (v := ['<']) (by decide) h
    omega
  rw [replace_of_free no_lt] at length third
  have no_amp : ¬ "&amp;".toList <:+: t := fun h => by
    have := length_replace_lt (v := ['&']) (by decide) h
    omega
  exact ⟨no_gt, no_lt, no_amp⟩

/-! ### Attributes -/

theorem textAttr_of_carries {attrs : Attrs} {name : String} {value default : Text}
    (h : CarriesText attrs name value default) : textAttr attrs name default = value := by
  rcases h with h | ⟨h, rfl⟩ <;> simp [textAttr, h]

theorem intAttr_of_carries {attrs : Attrs} {name : String} {value : ℤ}
    (h : CarriesInt attrs name value) : intAttr attrs name (-1) = value := by
  rcases h with h | ⟨h, rfl⟩ <;> simp [intAttr, h, parseInt_decimal]

/-! ### The elements of a file -/

variable {f : MetalinkFile} {pieces : List (Text × Text)} {metalink : List MetalinkFile}

theorem onFile_of_built {g : MetalinkHandler} (hb : g.built = ⟨some f, pieces, metalink⟩)
    (hc : g.content = []) (change : MetalinkFile → MetalinkFile) :
    g.onFile change = some (g.put ⟨some (change f), pieces, metalink⟩ []) := by
  cases g
  cases hb
  subst hc
  rfl

theorem onFile_clear_of_built {g : MetalinkHandler} (hb : g.built = ⟨some f, pieces, metalink⟩)
    (hc : g.content = []) (change : MetalinkFile → MetalinkFile) :
    ({ g with pieces := [] } : MetalinkHandler).onFile change =
      some (g.put ⟨some (change f), [], metalink⟩ []) := by
  cases g
  cases hb
  subst hc
  rfl

/-- A text element of a file that sets one field. -/
theorem takes_field (change : Text → MetalinkFile → MetalinkFile) {t : Text}
    (hstart : ∀ (attrs : Attrs) (g : MetalinkHandler), g.elements = path ++ [key] →
      opening attrs g = some g)
    (hend : ∀ (attrs : Attrs) (g : MetalinkHandler), attributes attrs →
      g.elements = path ++ [key] → process attrs (unescape t) g = g.onFile (change (unescape t)))
    (stripped : strip t = t) :
    Takes path (Element key attributes (Chunks t)) ⟨some f, pieces, metalink⟩
      ⟨some (change (unescape t) f), pieces, metalink⟩ :=
  takes_text stripped hstart fun attrs g ok hg hb hc => by
    rw [hend attrs g ok hg, onFile_of_built hb hc]

theorem takes_url {u : MetalinkUrl} (stripped : strip u.url = u.url) :
    Takes ["metalink", "files", "file", "resources"] (urlElement u) ⟨some f, pieces, metalink⟩
      ⟨some { f with urls := f.urls ++ [u.again] }, pieces, metalink⟩ := by
  refine takes_field (fun t f => { f with urls := f.urls ++ [{ u with url := t }] })
    (fun attrs g hg => by simp [opening, hg]) (fun attrs g ok hg => ?_) stripped
  obtain ⟨htype, hlocation, hpreference, hmaxconnections⟩ := ok
  simp [process, hg, urlOf, textAttr_of_carries htype, textAttr_of_carries hlocation,
    intAttr_of_carries hpreference, intAttr_of_carries hmaxconnections]

theorem takes_hash {x : MetalinkHash} (stripped : strip x.hash = x.hash) :
    Takes ["metalink", "files", "file", "verification"] (hashElement x)
      ⟨some f, pieces, metalink⟩
      ⟨some { f with hashes := f.hashes ++ [x.again] }, pieces, metalink⟩ := by
  refine takes_field (fun t f => { f with hashes := f.hashes ++ [{ x with hash := t }] })
    (fun attrs g hg => by simp [opening, hg]) (fun attrs g ok hg => ?_) stripped
  simp [process, hg, ok]

/-! ### The pieces of a file -/

theorem decimal_injective {i j : ℤ} (h : decimal i = decimal j) : i = j := by
  have parsed := congrArg parseInt h
  rwa [parseInt_decimal, parseInt_decimal, Option.some.injEq] at parsed

/-- The dictionary of the pieces that have been read. -/
def piecesRead (done : List (Text × ℕ)) : List (Text × Text) :=
  done.map fun p => (decimal p.2, unescape p.1)

theorem lookup_piecesRead_eq_none {done : List (Text × ℕ)} {i : ℕ} (h : i ∉ done.map Prod.snd) :
    (piecesRead done).lookup (decimal i) = none := by
  rw [List.lookup_eq_none_iff]
  intro p hp
  obtain ⟨q, hq, rfl⟩ := List.mem_map.1 hp
  have other : decimal (i : ℤ) ≠ decimal (q.2 : ℤ) := fun same => h <|
    List.mem_map.2 ⟨q, hq, (Int.ofNat_inj.1 (decimal_injective same)).symm⟩
  simpa using other

theorem takes_piece {done : List (Text × ℕ)} {p : Text × ℕ} (stripped : strip p.1 = p.1)
    (new : p.2 ∉ done.map Prod.snd) :
    Takes ["metalink", "files", "file", "verification", "pieces"] (pieceElement p)
      ⟨some f, piecesRead done, metalink⟩ ⟨some f, piecesRead (done ++ [p]), metalink⟩ := by
  refine takes_text stripped (fun attrs g hg => by simp [opening, hg]) fun attrs g ok hg hb hc => ?_
  have processed : process attrs (unescape p.1) g =
      some { g with pieces := setPiece g.pieces (decimal p.2) (unescape p.1) } := by
    simp [process, hg, ok]
  have appended : setPiece (piecesRead done) (decimal p.2) (unescape p.1) =
      piecesRead (done ++ [p]) := by
    rw [setPiece, lookup_piecesRead_eq_none new]
    simp [piecesRead]
  cases g
  cases hb
  subst hc
  rw [processed, ← appended]
  rfl

theorem lookup_piecesRead_zipIdx (l : List Text) (k i : ℕ) (h : i < l.length) :
    (piecesRead (l.zipIdx k)).lookup (decimal (k + i : ℕ)) = some (unescape l[i]) := by
  induction l generalizing k i with
  | nil => cases h
  | cons x l ih =>
    rw [List.zipIdx_cons, piecesRead, List.map_cons, List.lookup_cons]
    cases i with
    | zero => simp
    | succ i =>
      have other : (decimal (k + (i + 1) : ℕ) == decimal k) = false := by
        rw [beq_eq_false_iff_ne]
        intro same
        have := Int.ofNat_inj.1 (decimal_injective same)
        omega
      have rest := ih (k + 1) i (by simpa using h)
      rw [show k + 1 + i = k + (i + 1) by omega] at rest
      dsimp only
      rw [other]
      exact rest

theorem addPieces_of_lookup {read : List (Text × Text)} (value : ℕ → Text) (hashes : List Text)
    {is : List ℕ} (h : ∀ i ∈ is, read.lookup (decimal i) = some (value i)) :
    addPieces read hashes is = hashes ++ is.map value := by
  induction is generalizing hashes with
  | nil => simp [addPieces]
  | cons i is ih =>
    rw [addPieces, h i (List.mem_cons_self ..)]
    simp [ih (hashes ++ [value i]) fun j hj => h j (List.mem_cons_of_mem _ hj)]

/-- All pieces are there, in their order. -/
theorem addPieces_zipIdx (l : List Text) :
    addPieces (piecesRead l.zipIdx) [] (List.range (piecesRead l.zipIdx).length) =
      l.map unescape := by
  have length : (piecesRead l.zipIdx).length = l.length := by simp [piecesRead]
  rw [length, addPieces_of_lookup (fun i => unescape (l.getD i []))]
  · rw [List.nil_append]
    apply List.ext_getElem
    · simp
    · intro i h _
      simp [show i < l.length by simpa using h]
  · intro i hi
    have lt : i < l.length := by simpa using hi
    have found := lookup_piecesRead_zipIdx l 0 i lt
    rw [Nat.zero_add] at found
    simpa [lt] using found

/-- The number of a piece is not that of a piece before it. -/
theorem index_not_mem {l : List Text} {done rest : List (Text × ℕ)} {p : Text × ℕ}
    (split : l.zipIdx = done ++ p :: rest) : p.2 ∉ done.map Prod.snd := by
  have nodup : (l.zipIdx.map Prod.snd).Nodup := by
    simp [List.zipIdx_map_snd, List.nodup_range']
  rw [split, List.map_append, List.map_cons, List.nodup_append] at nodup
  intro mem
  exact nodup.2.2 _ mem _ (List.mem_cons_self ..) rfl

/-- The `pieces` element, in a file with nothing of it. -/
theorem takes_pieces {g : MetalinkFile} (blank : NoPieces g)
    (stripped : ∀ t ∈ f.pieceHashes, strip t = t) :
    Takes ["metalink", "files", "file", "verification"] (piecesElement f)
      ⟨some g, pieces, metalink⟩
      ⟨some { g with
          pieceHashes := f.pieceHashes.map unescape
          pieceLength := f.pieceLength
          pieceType := f.pieceType }, [], metalink⟩ := by
  obtain ⟨noHashes, noLength, noType⟩ := blank
  let opened : MetalinkFile := { g with pieceLength := f.pieceLength, pieceType := f.pieceType }
  refine takes_element ⟨some opened, [], metalink⟩
    ⟨some opened, piecesRead f.pieceHashes.zipIdx, metalink⟩ (fun attrs h ok hp hb hc => ?_)
    (takes_between ?_ pieceElement (fun done => ⟨some opened, piecesRead done, metalink⟩) _ ?_)
    fun attrs h t ok hp hb hc => ?_
  · obtain ⟨htype, hlength⟩ := ok
    have started : opening attrs h =
        ({ h with pieces := [] } : MetalinkHandler).onFile fun f =>
          { f with
            pieceType := textAttr attrs "type" f.pieceType
            pieceLength := intAttr attrs "length" f.pieceLength } := by
      simp [opening, hp]
    rw [started, onFile_clear_of_built hb hc]
    simp [opened, noLength, noType, textAttr_of_carries htype, intAttr_of_carries hlength]
  · exact deaf_of_children (by decide)
  · intro done p rest split
    refine takes_piece ?_ (index_not_mem split)
    have mem : p ∈ f.pieceHashes.zipIdx := by simp [split]
    exact stripped p.1 (List.fst_mem_of_mem_zipIdx mem)
  · have ended : process attrs t h =
        ({ h with pieces := [] } : MetalinkHandler).onFile fun f =>
          { f with
            pieceHashes := addPieces h.pieces f.pieceHashes (List.range h.pieces.length) } := by
      simp [process, hp]
    have read : h.pieces = piecesRead f.pieceHashes.zipIdx := congrArg Built.pieces hb
    rw [ended, onFile_clear_of_built hb hc, read]
    simp [opened, noHashes, addPieces_zipIdx]

end Ydfs.Wubi.Sax
