import Ydfs.Wubi.MetalinkParts

/-!
# The round trip of a metalink

From a document of a metalink the handler reads every attribute as it is, and every text with its
entities decoded once more: `unescape` works on text that the SAX parser has decoded already.
-/

namespace Ydfs.Wubi.Sax

open Search

variable {path : List String} {key : String} {b b' : Built} {f : MetalinkFile}
  {metalink : List MetalinkFile}

/-! ### The items of a file -/

/-- The file after some parts of its `verification` element. -/
def withParts (f g : MetalinkFile) (done : List Part) : MetalinkFile :=
  { g with
    hashes := (done.filterMap Part.hash?).map MetalinkHash.again
    pieceHashes := if .pieces ∈ done then f.pieceHashes.map unescape else []
    pieceLength := if .pieces ∈ done then f.pieceLength else -1
    pieceType := if .pieces ∈ done then f.pieceType else ['s', 'h', 'a', '1'] }

theorem withParts_nil {g : MetalinkFile} (noHashes : g.hashes = []) (blank : NoPieces g) :
    withParts f g [] = g := by
  obtain ⟨noPieces, noLength, noType⟩ := blank
  cases g
  subst noHashes noPieces noLength noType
  rfl

theorem withParts_of_partsOf {parts : List Part} (h : PartsOf f parts) (g : MetalinkFile) :
    withParts f g parts =
      { g with
        hashes := f.hashes.map MetalinkHash.again
        pieceHashes := f.pieceHashes.map unescape
        pieceLength := f.pieceLength
        pieceType := f.pieceType } := by
  obtain ⟨hashes, -, absent⟩ := h
  by_cases mem : Part.pieces ∈ parts
  · simp [withParts, hashes, mem]
  · obtain ⟨noPieces, noLength, noType⟩ := absent mem
    simp [withParts, hashes, mem, noPieces, noLength, noType]

theorem takes_part {g : MetalinkFile} {parts done rest : List Part} {part : Part}
    (h : PartsOf f parts) (split : parts = done ++ part :: rest)
    (hashesStripped : ∀ x ∈ f.hashes, strip x.hash = x.hash)
    (piecesStripped : ∀ t ∈ f.pieceHashes, strip t = t) :
    Takes ["metalink", "files", "file", "verification"] (partElement f part)
      ⟨some (withParts f g done), [], metalink⟩
      ⟨some (withParts f g (done ++ [part])), [], metalink⟩ := by
  cases part with
  | hash x =>
    have next : withParts f g (done ++ [.hash x]) =
        { withParts f g done with hashes := (withParts f g done).hashes ++ [x.again] } := by
      simp [withParts, Part.hash?]
    have mem : x ∈ f.hashes := by
      rw [← h.1, split]
      simp [Part.hash?]
    rw [next]
    exact takes_hash (hashesStripped x mem)
  | pieces =>
    have first : Part.pieces ∉ done := by
      intro mem
      have twice := h.2.1
      rw [split, List.count_append, List.count_cons_self] at twice
      have := List.count_pos_iff.2 mem
      omega
    have next : withParts f g (done ++ [.pieces]) =
        { withParts f g done with
          pieceHashes := f.pieceHashes.map unescape
          pieceLength := f.pieceLength
          pieceType := f.pieceType } := by
      simp [withParts, Part.hash?]
    rw [next]
    exact takes_pieces (by simp [NoPieces, withParts, first]) piecesStripped

theorem takes_verification {g : MetalinkFile} (noHashes : g.hashes = []) (blank : NoPieces g)
    (hashesStripped : ∀ x ∈ f.hashes, strip x.hash = x.hash)
    (piecesStripped : ∀ t ∈ f.pieceHashes, strip t = t) :
    Takes ["metalink", "files", "file"] (itemElement f .verification) ⟨some g, [], metalink⟩
      ⟨some { g with
          hashes := f.hashes.map MetalinkHash.again
          pieceHashes := f.pieceHashes.map unescape
          pieceLength := f.pieceLength
          pieceType := f.pieceType }, [], metalink⟩ := by
  let verified : MetalinkFile :=
    { g with
      hashes := f.hashes.map MetalinkHash.again
      pieceHashes := f.pieceHashes.map unescape
      pieceLength := f.pieceLength
      pieceType := f.pieceType }
  refine takes_element ⟨some g, [], metalink⟩ ⟨some verified, [], metalink⟩
    (fun attrs h _ hp hb hc => ?_) ?_ fun attrs h t _ hp hb hc => ?_
  · rw [opening_of_not_handled attrs (by rw [hp]; decide), put_self hb hc]
  · rintro h events hp hb ⟨parts, hparts, hbetween⟩
    have all : Takes ["metalink", "files", "file", "verification"]
        (Between ["hash", "pieces"] (parts.map (partElement f)))
        ⟨some (withParts f g []), [], metalink⟩ ⟨some (withParts f g parts), [], metalink⟩ :=
      takes_between (deaf_of_children (by decide)) (partElement f)
        (fun done => ⟨some (withParts f g done), [], metalink⟩) parts
        fun done part rest split => takes_part hparts split hashesStripped piecesStripped
    rw [withParts_nil noHashes blank, withParts_of_partsOf hparts] at all
    exact all h events hp hb hbetween
  · rw [process_of_not_handled attrs t (by rw [hp]; decide), put_self hb hc]

theorem takes_resources {g : MetalinkFile} (noUrls : g.urls = [])
    (noMaxconnections : g.maxconnections = -1) (stripped : ∀ u ∈ f.urls, strip u.url = u.url) :
    Takes ["metalink", "files", "file"] (itemElement f .resources) ⟨some g, [], metalink⟩
      ⟨some { g with
          urls := f.urls.map MetalinkUrl.again
          maxconnections := f.maxconnections }, [], metalink⟩ := by
  let state (done : List MetalinkUrl) : Built :=
    ⟨some { g with
      urls := done.map MetalinkUrl.again
      maxconnections := f.maxconnections }, [], metalink⟩
  refine takes_element (state []) (state f.urls) (fun attrs h ok hp hb hc => ?_)
    (takes_between (deaf_of_children (by decide)) urlElement state _ ?_)
    fun attrs h t _ hp hb hc => ?_
  · have started : opening attrs h = h.onFile fun f =>
        { f with maxconnections := intAttr attrs "maxconnections" f.maxconnections } := by
      simp [opening, hp]
    rw [started, onFile_of_built hb hc]
    simp [state, noUrls, noMaxconnections, intAttr_of_carries ok]
  · intro done u rest split
    have next : state (done ++ [u]) = ⟨some { g with
        urls := done.map MetalinkUrl.again ++ [u.again]
        maxconnections := f.maxconnections }, [], metalink⟩ := by
      simp [state]
    rw [next]
    exact takes_url (stripped u (by simp [split]))
  · have ended : process attrs t h = some h := by simp [process, hp]
    rw [ended, put_self hb hc]

/-- The file after some of its items. -/
def partialFile (f : MetalinkFile) (done : List Item) : MetalinkFile where
  name := f.name
  identity := if .identity ∈ done then unescape f.identity else []
  version := if .version ∈ done then unescape f.version else []
  size := if .size ∈ done then f.size else -1
  description := if .description ∈ done then unescape f.description else []
  language := if .language ∈ done then unescape f.language else []
  os := if .os ∈ done then unescape f.os else []
  hashes := if .verification ∈ done then f.hashes.map MetalinkHash.again else []
  pieceHashes := if .verification ∈ done then f.pieceHashes.map unescape else []
  pieceLength := if .verification ∈ done then f.pieceLength else -1
  pieceType := if .verification ∈ done then f.pieceType else ['s', 'h', 'a', '1']
  urls := if .resources ∈ done then f.urls.map MetalinkUrl.again else []
  maxconnections := if .resources ∈ done then f.maxconnections else -1

@[simp] theorem unescape_nil : unescape [] = [] := rfl

/-- Items that are left out make no difference. -/
theorem partialFile_eq_again {items : List Item} (absent : ∀ i ∉ items, i.Absent f) :
    partialFile f items = f.again := by
  have left {α : Type} {i : Item} {x d : α} (default : i.Absent f → x = d) :
      (if i ∈ items then x else d) = x := by
    split_ifs with mem
    · rfl
    · exact (default (absent i mem)).symm
  rw [partialFile, left, left, left, left, left, left, left, left, left, left, left, left]
  · rfl
  all_goals simp +contextual [Item.Absent, NoPieces]

theorem plain_decimal (n : ℤ) : Plain (decimal n) := by
  have free : '&' ∉ decimal n := fun mem => by
    rcases mem_decimal mem with digit | minus
    · cases digit
    · cases minus
  have without {w : Text} (h : '&' ∈ w) : ¬ w <:+: decimal n := fun inside => free (inside.subset h)
  exact ⟨without (by decide), without (by decide), without (by decide)⟩

theorem takes_item (wellFormed : f.WellFormed) {items done rest : List Item} {i : Item}
    (nodup : items.Nodup) (split : items = done ++ i :: rest) :
    Takes ["metalink", "files", "file"] (itemElement f i) ⟨some (partialFile f done), [], metalink⟩
      ⟨some (partialFile f (done ++ [i])), [], metalink⟩ := by
  have first : i ∉ done := by
    rw [split, List.nodup_append] at nodup
    exact fun mem => nodup.2.2 i mem i (List.mem_cons_self ..) rfl
  have stripped (t : Text) (mem : t ∈ f.texts) : strip t = t := wellFormed.2 t mem
  cases i with
  | identity =>
    have next : partialFile f (done ++ [.identity]) =
        { partialFile f done with identity := unescape f.identity } := by simp [partialFile]
    rw [next]
    exact takes_field (fun t g => { g with identity := t }) (fun attrs g hg => by simp [opening, hg])
      (fun attrs g _ hg => by simp [process, hg]) (stripped _ (by simp [MetalinkFile.texts]))
  | version =>
    have next : partialFile f (done ++ [.version]) =
        { partialFile f done with version := unescape f.version } := by simp [partialFile]
    rw [next]
    exact takes_field (fun t g => { g with version := t }) (fun attrs g hg => by simp [opening, hg])
      (fun attrs g _ hg => by simp [process, hg]) (stripped _ (by simp [MetalinkFile.texts]))
  | size =>
    have next : partialFile f (done ++ [.size]) =
        { partialFile f done with
          size := (parseInt (unescape (decimal f.size))).getD (partialFile f done).size } := by
      simp [partialFile, unescape_of_plain (plain_decimal f.size), parseInt_decimal]
    rw [next]
    exact takes_field (fun t g => { g with size := (parseInt t).getD g.size })
      (fun attrs g hg => by simp [opening, hg]) (fun attrs g _ hg => by simp [process, hg])
      (strip_decimal f.size)
  | description =>
    have next : partialFile f (done ++ [.description]) =
        { partialFile f done with description := unescape f.description } := by simp [partialFile]
    rw [next]
    exact takes_field (fun t g => { g with description := t }) (fun attrs g hg => by simp [opening, hg])
      (fun attrs g _ hg => by simp [process, hg]) (stripped _ (by simp [MetalinkFile.texts]))
  | language =>
    have next : partialFile f (done ++ [.language]) =
        { partialFile f done with language := unescape f.language } := by simp [partialFile]
    rw [next]
    exact takes_field (fun t g => { g with language := t }) (fun attrs g hg => by simp [opening, hg])
      (fun attrs g _ hg => by simp [process, hg]) (stripped _ (by simp [MetalinkFile.texts]))
  | os =>
    have next : partialFile f (done ++ [.os]) =
        { partialFile f done with os := unescape f.os } := by simp [partialFile]
    rw [next]
    exact takes_field (fun t g => { g with os := t }) (fun attrs g hg => by simp [opening, hg])
      (fun attrs g _ hg => by simp [process, hg]) (stripped _ (by simp [MetalinkFile.texts]))
  | verification =>
    have next : partialFile f (done ++ [.verification]) =
        { partialFile f done with
          hashes := f.hashes.map MetalinkHash.again
          pieceHashes := f.pieceHashes.map unescape
          pieceLength := f.pieceLength
          pieceType := f.pieceType } := by simp [partialFile]
    rw [next]
    refine takes_verification (by simp [partialFile, first]) (by simp [NoPieces, partialFile, first])
      (fun x hx => stripped _ (hash_mem_texts hx)) fun t ht => stripped t ?_
    simp [MetalinkFile.texts, ht]
  | resources =>
    have next : partialFile f (done ++ [.resources]) =
        { partialFile f done with
          urls := f.urls.map MetalinkUrl.again
          maxconnections := f.maxconnections } := by simp [partialFile]
    rw [next]
    exact takes_resources (by simp [partialFile, first]) (by simp [partialFile, first])
      fun u hu => stripped _ (url_mem_texts hu)

/-! ### The round trip -/

theorem takes_file (wellFormed : f.WellFormed) (file : Option MetalinkFile) :
    Takes ["metalink", "files"] (fileElement f) ⟨file, [], metalink⟩
      ⟨some f.again, [], metalink ++ [f.again]⟩ := by
  refine takes_element ⟨some (partialFile f []), [], metalink⟩ ⟨some f.again, [], metalink⟩
    (fun attrs h ok hp hb hc => ?_) ?_ fun attrs h t ok hp hb hc => ?_
  · have started : opening attrs h = some { h with file := some { name := f.name } } := by
      simp [opening, hp, textAttr, ok]
    cases h
    cases hb
    subst hc
    rw [started]
    rfl
  · rintro h events hp hb ⟨items, nodup, absent, hbetween⟩
    have all : Takes ["metalink", "files", "file"]
        (Between itemNames (items.map (itemElement f)))
        ⟨some (partialFile f []), [], metalink⟩ ⟨some (partialFile f items), [], metalink⟩ :=
      takes_between (deaf_of_children (by decide)) (itemElement f)
        (fun done => ⟨some (partialFile f done), [], metalink⟩) items
        fun done i rest split => takes_item wellFormed nodup split
    rw [partialFile_eq_again absent] at all
    exact all h events hp hb hbetween
  · have named : f.again.name ≠ [] := wellFormed.1
    have ended : process attrs t h = h.file.map fun f =>
        if f.name ≠ [] then { h with metalink := h.metalink ++ [f] } else h := by
      simp [process, hp]
    cases h
    cases hb
    subst hc
    rw [ended]
    simp [named, MetalinkHandler.put]

/-- The two outer elements, which do nothing themselves. -/
theorem takes_outer {content : List Event → Prop}
    (free : path ++ [key] ∉ handled) (h : Takes (path ++ [key]) content b b') :
    Takes path (Element key (fun _ => True) content) b b' :=
  takes_element b b'
    (fun attrs g _ hp hb hc => by
      rw [opening_of_not_handled attrs (hp ▸ free), put_self hb hc])
    h fun attrs g t _ hp hb hc => by
      rw [process_of_not_handled attrs t (hp ▸ free), put_self hb hc]

/-- A single item with noise around it. -/
theorem takes_single {known : List String} (deaf : ∀ n ∉ known, Deaf (path ++ [n]))
    {item : List Event → Prop} (h : Takes path item b b') :
    Takes path (Between known [item]) b b' := by
  let state (done : List Unit) : Built := if done.isEmpty then b else b'
  refine takes_between deaf (fun _ => item) state [()] fun done i rest split => ?_
  cases done with
  | nil => exact h
  | cons => simp at split

/-- What the handler reads from a document of a metalink. -/
theorem parseMetalink_document {files : List MetalinkFile} (wellFormed : ∀ f ∈ files, f.WellFormed)
    {events : List Event} (document : Document files events) :
    parseMetalink events = some (files.map MetalinkFile.again) := by
  let state (done : List MetalinkFile) : Built :=
    ⟨done.getLast?.map MetalinkFile.again, [], done.map MetalinkFile.again⟩
  have inner : Takes ["metalink", "files"] (Between ["file"] (files.map fileElement)) (state [])
      (state files) := by
    refine takes_between (deaf_of_children (by decide)) fileElement state files ?_
    intro done f rest split
    have next : state (done ++ [f]) =
        ⟨some f.again, [], done.map MetalinkFile.again ++ [f.again]⟩ := by simp [state]
    rw [next]
    exact takes_file (wellFormed f (by simp [split])) _
  have parsed : Takes [] (Document files) (state []) (state files) :=
    takes_outer (by decide) (takes_single (deaf_of_children (by decide))
      (takes_outer (by decide) inner))
  obtain ⟨t, ht⟩ := parsed startDocument events rfl rfl document
  rw [parseMetalink, ht]
  rfl

/-- A list of values that `again` does not change. -/
theorem map_eq_self_iff {α : Type} {g : α → α} {l : List α} : l.map g = l ↔ ∀ x ∈ l, g x = x := by
  conv_lhs => rw [← List.map_id l, List.map_map]
  exact List.map_inj_left

theorem again_eq_self_iff (f : MetalinkFile) : f.again = f ↔ ∀ t ∈ f.texts, Plain t := by
  have url (u : MetalinkUrl) : u.again = u ↔ Plain u.url := by
    rw [← unescape_eq_self_iff]
    cases u
    simp [MetalinkUrl.again]
  have hash (x : MetalinkHash) : x.again = x ↔ Plain x.hash := by
    rw [← unescape_eq_self_iff]
    cases x
    simp [MetalinkHash.again]
  cases f
  simp only [MetalinkFile.again, MetalinkFile.texts, MetalinkFile.mk.injEq, map_eq_self_iff, url,
    hash, unescape_eq_self_iff, true_and, and_true, List.forall_mem_append, List.forall_mem_cons,
    List.forall_mem_map]
  simp [and_assoc]

/-- A metalink comes back from its documents exactly if none of its texts has an entity in it that
`unescape` decodes. -/
theorem metalink_round_trip_iff {files : List MetalinkFile}
    (wellFormed : ∀ f ∈ files, f.WellFormed) {events : List Event}
    (document : Document files events) :
    parseMetalink events = some files ↔ ∀ f ∈ files, ∀ t ∈ f.texts, Plain t := by
  rw [parseMetalink_document wellFormed document, Option.some.injEq, map_eq_self_iff]
  exact forall₂_congr fun f _ => again_eq_self_iff f

/-- A file with nothing but a name and a version. -/
def sampleFile (version : Text) : MetalinkFile :=
  { name := ['i', 's', 'o'], version := version }

theorem wellFormed_sample {version : Text} (stripped : strip version = version) :
    ∀ f ∈ [sampleFile version], f.WellFormed := by
  intro f hf
  rw [List.mem_singleton.1 hf]
  refine ⟨List.cons_ne_nil _ _, fun t ht => ?_⟩
  simp only [sampleFile, MetalinkFile.texts, List.map_nil, List.append_nil, List.mem_cons,
    List.not_mem_nil, or_false] at ht
  rcases ht with rfl | rfl | rfl | rfl | rfl
  · rfl
  · exact stripped
  · rfl
  · rfl
  · rfl

theorem metalink_round_trip_sample :
    parseMetalink (write [sampleFile "10.10".toList]) = some [sampleFile "10.10".toList] ↔
      ∀ f ∈ [sampleFile "10.10".toList], ∀ t ∈ f.texts, Plain t :=
  metalink_round_trip_iff (wellFormed_sample (by decide)) (document_write _)

/-- A version that spells an entity is decoded once more. -/
theorem not_metalink_round_trip :
    ¬ ∀ (files : List MetalinkFile) (events : List Event), (∀ f ∈ files, f.WellFormed) →
      Document files events → parseMetalink events = some files := by
  intro back
  have same := back _ _ (wellFormed_sample (by decide)) (document_write [sampleFile "R&amp;D".toList])
  exact absurd same (by decide +kernel)

end Ydfs.Wubi.Sax
