import Mathlib.Data.List.Dedup
import Mathlib.Data.List.Forall2
import Mathlib.Data.List.Perm.Subperm
import Ydfs.Wubi.MetalinkTrees

/-!
# Whole lists of pieces

When the piece hashes of a file are those of one `pieces` element.  The handler adds the hashes of one
element to those of the elements before it, and only an element in which a number is missing throws
them away; the type and the length stay from the last element that gives them.
-/

namespace Ydfs.Wubi.Sax

namespace PiecesElement

/-- The numbers of the pieces, as they are written. -/
def numbers (e : PiecesElement) : List Text := e.pieces.map Prod.fst

/-- How many different numbers there are. -/
def count (e : PiecesElement) : ℕ := e.numbers.dedup.length

/-- A number from 0 on is missing. -/
def Gap (e : PiecesElement) : Prop := ∃ i : ℕ, i < e.count ∧ decimal i ∉ e.numbers

instance (e : PiecesElement) : Decidable e.Gap :=
  inferInstanceAs (Decidable (∃ i : ℕ, i < e.count ∧ decimal i ∉ e.numbers))

/-- The hashes in the order of their numbers; a number given twice has the later hash. -/
def hashes (e : PiecesElement) : List Text :=
  (List.range e.count).map fun i : ℕ => (e.pieces.reverse.lookup (decimal i)).getD []

/-- The pieces of these hashes, with their places as numbers. -/
def numbered (hashes : List Text) : List (Text × Text) :=
  hashes.zipIdx.map fun p => (decimal p.2, p.1)

/-- These are the hashes of the element, each under its place as its number. -/
def Whole (e : PiecesElement) (hashes : List Text) : Prop := e.pieces.Perm (numbered hashes)

instance (e : PiecesElement) (hashes : List Text) : Decidable (e.Whole hashes) :=
  inferInstanceAs (Decidable (e.pieces.Perm _))

end PiecesElement

open PiecesElement

/-! ### The dictionary of the pieces -/

theorem lookup_replaced (pieces : List (Text × Text)) (key content k : Text) :
    (pieces.map fun p => if p.1 = key then (key, content) else p).lookup k =
      if k = key then (pieces.lookup key).map fun _ => content else pieces.lookup k := by
  induction pieces with
  | nil => simp
  | cons p pieces ih =>
    obtain ⟨number, t⟩ := p
    rw [List.map_cons]
    by_cases here : number = key
    · subst here
      by_cases same : k = number
      · simp [same]
      · have other : (k == number) = false := by simpa using same
        rw [if_pos rfl, List.lookup_cons, other, if_neg same, List.lookup_cons, other]
        simpa [same] using ih
    · have apart : (key == number) = false := by simpa using Ne.symm here
      rw [if_neg here, List.lookup_cons, ih, List.lookup_cons, List.lookup_cons, apart]
      by_cases same : k = key
      · subst same
        simp [apart]
      · simp [same]

theorem lookup_setPiece (pieces : List (Text × Text)) (key content k : Text) :
    (setPiece pieces key content).lookup k =
      if k = key then some content else pieces.lookup k := by
  unfold setPiece
  split
  · next found =>
    obtain ⟨t, ht⟩ := Option.isSome_iff_exists.1 found
    rw [lookup_replaced, ht, Option.map_some]
  · next missing =>
    rw [List.lookup_append]
    by_cases same : k = key
    · subst same
      simp [Option.not_isSome_iff_eq_none.1 missing]
    · have : (k == key) = false := by simpa using same
      simp [List.lookup_cons, same, this]

theorem keys_setPiece (pieces : List (Text × Text)) (key content : Text) :
    (setPiece pieces key content).map Prod.fst =
      if key ∈ pieces.map Prod.fst then pieces.map Prod.fst
      else pieces.map Prod.fst ++ [key] := by
  have found : (pieces.lookup key).isSome ↔ key ∈ pieces.map Prod.fst := by simp
  unfold setPiece
  simp only [found]
  split
  · rw [List.map_map]
    apply List.map_congr_left
    intro p hp
    by_cases same : p.1 = key <;> simp [same]
  · simp

theorem lookup_setPieces (pieces l : List (Text × Text)) (k : Text) :
    (setPieces pieces l).lookup k = (l.reverse.lookup k).or (pieces.lookup k) := by
  induction l generalizing pieces with
  | nil => simp [setPieces]
  | cons p l ih =>
    obtain ⟨key, content⟩ := p
    have step : setPieces pieces ((key, content) :: l) = setPieces (setPiece pieces key content) l :=
      rfl
    rw [step, ih, lookup_setPiece, List.reverse_cons, List.lookup_append, Option.or_assoc]
    congr 1
    by_cases same : k = key
    · subst same
      simp
    · have other : (k == key) = false := by simpa using same
      simp [List.lookup_cons, same, other]

theorem keys_setPieces (pieces l : List (Text × Text))
    (nodup : (pieces.map Prod.fst).Nodup) :
    ((setPieces pieces l).map Prod.fst).Nodup ∧
      ∀ k, k ∈ (setPieces pieces l).map Prod.fst ↔ k ∈ pieces.map Prod.fst ∨ k ∈ l.map Prod.fst := by
  induction l generalizing pieces with
  | nil => simpa [setPieces] using nodup
  | cons p l ih =>
    have keys := keys_setPiece pieces p.1 p.2
    have nodup' : ((setPiece pieces p.1 p.2).map Prod.fst).Nodup := by
      rw [keys]
      split
      · exact nodup
      · next missing => exact nodup.append (List.nodup_singleton _) (by simpa using missing)
    obtain ⟨distinct, mem⟩ := ih _ nodup'
    refine ⟨distinct, fun k => (mem k).trans ?_⟩
    rw [keys, List.map_cons, List.mem_cons]
    split
    · next found =>
      constructor
      · rintro (h | h)
        · exact .inl h
        · exact .inr (.inr h)
      · rintro (h | rfl | h)
        · exact .inl h
        · exact .inl found
        · exact .inr h
    · rw [List.mem_append, List.mem_singleton, or_assoc]

namespace PiecesElement

theorem lookup_dict (e : PiecesElement) (k : Text) : e.dict.lookup k = e.pieces.reverse.lookup k := by
  rw [dict, lookup_setPieces, List.lookup_nil, Option.or_none]

theorem length_dict (e : PiecesElement) : e.dict.length = e.count := by
  obtain ⟨distinct, mem⟩ : (e.dict.map Prod.fst).Nodup ∧ _ :=
    keys_setPieces [] e.pieces List.nodup_nil
  have same : (e.dict.map Prod.fst).Perm e.numbers.dedup := by
    rw [List.perm_ext_iff_of_nodup distinct (List.nodup_dedup _)]
    intro k
    rw [List.mem_dedup, dict, mem k, numbers]
    simp
  rw [← List.length_map (f := Prod.fst), same.length_eq, count]

theorem lookup_eq_none_iff {e : PiecesElement} {k : Text} :
    e.pieces.reverse.lookup k = none ↔ k ∉ e.numbers := by
  simp only [List.lookup_eq_none_iff, List.mem_reverse, numbers, List.mem_map, not_exists, not_and,
    bne_iff_ne]
  exact ⟨fun h p hp same => h p hp same.symm, fun h p hp same => h p hp same.symm⟩

end PiecesElement

theorem addPieces_of_missing {read : List (Text × Text)} (hashes : List Text) {is : List ℕ}
    (missing : ∃ i ∈ is, read.lookup (decimal i) = none) : addPieces read hashes is = [] := by
  induction is generalizing hashes with
  | nil => simp at missing
  | cons i is ih =>
    rw [addPieces]
    split
    · rfl
    · next hash found =>
      apply ih
      obtain ⟨j, hj, none⟩ := missing
      rcases List.mem_cons.1 hj with rfl | hj
      · rw [found] at none
        cases none
      · exact ⟨j, hj, none⟩

/-- The hashes of an element come after those before it, or all are skipped. -/
theorem addPieces_dict (e : PiecesElement) (hashes : List Text) :
    addPieces e.dict hashes (List.range e.dict.length) =
      if e.Gap then [] else hashes ++ e.hashes := by
  split
  · next gap =>
    obtain ⟨i, hi, missing⟩ := gap
    apply addPieces_of_missing
    refine ⟨i, by rwa [List.mem_range, e.length_dict], ?_⟩
    rw [e.lookup_dict, PiecesElement.lookup_eq_none_iff]
    exact missing
  · next full =>
    rw [addPieces_of_lookup fun i => (e.pieces.reverse.lookup (decimal i)).getD [], e.length_dict,
      PiecesElement.hashes]
    intro i hi
    rw [List.mem_range, e.length_dict] at hi
    have there : decimal i ∈ e.numbers := by
      by_contra missing
      exact full ⟨i, hi, missing⟩
    rw [e.lookup_dict]
    cases found : e.pieces.reverse.lookup (decimal i) with
    | none => exact absurd there (PiecesElement.lookup_eq_none_iff.1 found)
    | some hash => rfl

/-! ### The elements of a file together -/

/-- The elements after the last one in which a number is missing. -/
def kept (l : List PiecesElement) : List PiecesElement := l.rtakeWhile fun e => ¬ e.Gap

/-- The elements up to the last one in which a number is missing. -/
def skipped (l : List PiecesElement) : List PiecesElement := l.rdropWhile fun e => ¬ e.Gap

/-- The type that the last element with a type gives, or the default. -/
def lastType (l : List PiecesElement) : Text :=
  (l.filterMap PiecesElement.type).getLast?.getD ['s', 'h', 'a', '1']

/-- The length that the last element with a length gives, or the default. -/
def lastLength (l : List PiecesElement) : ℤ := (l.filterMap PiecesElement.length).getLast?.getD (-1)

theorem lastType_concat (l : List PiecesElement) (e : PiecesElement) :
    lastType (l ++ [e]) = e.type.getD (lastType l) := by
  cases type : e.type <;> simp [lastType, type]

theorem lastLength_concat (l : List PiecesElement) (e : PiecesElement) :
    lastLength (l ++ [e]) = e.length.getD (lastLength l) := by
  cases length : e.length <;> simp [lastLength, length]

/-- The elements of a file one after the other. -/
theorem foldl_add (name : Text) (l : List PiecesElement) :
    l.foldl PieceFields.add { name := name } =
      { name := name
        pieceHashes := (kept l).flatMap PiecesElement.hashes
        pieceLength := lastLength l
        pieceType := lastType l } := by
  induction l using List.reverseRecOn with
  | nil => rfl
  | append_singleton l e ih =>
    have hashes : (kept (l ++ [e])).flatMap PiecesElement.hashes =
        if e.Gap then [] else (kept l).flatMap PiecesElement.hashes ++ e.hashes := by
      by_cases gap : e.Gap <;> simp [kept, gap]
    rw [List.foldl_append, List.foldl_cons, List.foldl_nil, ih, hashes, PieceFields.add,
      addPieces_dict, lastType_concat, lastLength_concat]

/-! ### One whole element -/

/-- The pieces of a file with these elements are none, or those of one of the elements, with its type
and its length. -/
def PiecesOfOne (l : List PiecesElement) (hashes : List Text) (type : Text) (length : ℤ) : Prop :=
  hashes = [] ∨ ∃ e ∈ l, e.Whole hashes ∧ type = e.type.getD ['s', 'h', 'a', '1'] ∧
    length = e.length.getD (-1)

instance (l : List PiecesElement) (hashes : List Text) (type : Text) (length : ℤ) :
    Decidable (PiecesOfOne l hashes type length) :=
  inferInstanceAs (Decidable (hashes = [] ∨ ∃ e ∈ l, _ ∧ _))

/-- After the last element in which a number is missing no element has pieces; or one element has, or
else an element that was skipped had the same pieces, and it gives no number twice, and the last type
and the last length are its own. -/
def OneLeft (l : List PiecesElement) : Prop :=
  (∀ e ∈ kept l, e.pieces = []) ∨ ∃ e ∈ l,
    ((kept l).filter (fun e => e.pieces ≠ []) = [e] ∧ e.numbers.Nodup ∨
      e ∈ skipped l ∧ e.Whole ((kept l).flatMap PiecesElement.hashes)) ∧
    lastType l = e.type.getD ['s', 'h', 'a', '1'] ∧ lastLength l = e.length.getD (-1)

namespace PiecesElement

theorem count_eq_zero_iff (e : PiecesElement) : e.count = 0 ↔ e.pieces = [] := by
  rw [count, List.length_eq_zero_iff, List.dedup_eq_nil, numbers, List.map_eq_nil_iff]

theorem count_of_nodup {e : PiecesElement} (once : e.numbers.Nodup) : e.count = e.pieces.length := by
  rw [count, once.dedup, numbers, List.length_map]

@[simp] theorem length_numbered (hashes : List Text) : (numbered hashes).length = hashes.length := by
  simp [numbered]

theorem fst_numbered (hashes : List Text) :
    (numbered hashes).map Prod.fst = (List.range hashes.length).map fun i : ℕ => decimal i := by
  apply List.ext_getElem
  · simp [numbered]
  · intro i _ _
    simp [numbered]

theorem nodup_fst_numbered (hashes : List Text) : ((numbered hashes).map Prod.fst).Nodup := by
  rw [fst_numbered]
  apply List.Nodup.map _ List.nodup_range
  intro i j same
  exact Int.ofNat_inj.1 (decimal_injective same)

@[simp] theorem length_hashes (e : PiecesElement) : e.hashes.length = e.count := by
  simp [hashes]

theorem hashes_eq_nil_iff (e : PiecesElement) : e.hashes = [] ↔ e.pieces = [] := by
  rw [← List.length_eq_zero_iff, length_hashes, count_eq_zero_iff]

/-- Without a gap and a number given twice, the hashes are those of all pieces. -/
theorem whole_hashes {e : PiecesElement} (full : ¬ e.Gap) (once : e.numbers.Nodup) :
    e.Whole e.hashes := by
  have sub : numbered e.hashes ⊆ e.pieces := by
    intro p hp
    obtain ⟨⟨hash, i⟩, mem, rfl⟩ := List.mem_map.1 hp
    obtain ⟨lt, value⟩ := List.mem_zipIdx' mem
    have there : decimal i ∈ e.numbers := by
      by_contra missing
      exact full ⟨i, by simpa using lt, missing⟩
    cases found : e.pieces.reverse.lookup (decimal i) with
    | none => exact absurd there (lookup_eq_none_iff.1 found)
    | some hash' =>
      obtain ⟨before, after, split, -⟩ := List.lookup_eq_some_iff.1 found
      rw [← List.mem_reverse, split, value]
      simp [hashes, found]
  have distinct : (numbered e.hashes).Nodup := (nodup_fst_numbered e.hashes).of_map
  have length : e.pieces.length ≤ (numbered e.hashes).length := by
    rw [length_numbered, length_hashes, count_of_nodup once]
  exact ((List.subperm_of_subset distinct sub).perm_of_length_le length).symm

theorem Whole.nodup {e : PiecesElement} {hashes : List Text} (h : e.Whole hashes) :
    e.numbers.Nodup :=
  (h.map Prod.fst).nodup_iff.2 (nodup_fst_numbered hashes)

theorem Whole.length_eq {e : PiecesElement} {hashes : List Text} (h : e.Whole hashes) :
    hashes.length = e.count := by
  rw [count_of_nodup h.nodup, List.Perm.length_eq h, length_numbered]

end PiecesElement

theorem filter_eq_singleton {l : List PiecesElement} {e : PiecesElement} (mem : e ∈ l)
    (some : e.pieces ≠ []) (h : (l.flatMap PiecesElement.hashes).length = e.count) :
    l.filter (fun e => e.pieces ≠ []) = [e] := by
  obtain ⟨before, after, rfl⟩ := List.append_of_mem mem
  have around : ∀ e' ∈ before ++ after, e'.pieces = [] := by
    intro e' he'
    have rest : (before ++ after).flatMap PiecesElement.hashes = [] := by
      rw [List.flatMap_append, List.flatMap_cons, List.length_append, List.length_append,
        e.length_hashes] at h
      rw [List.flatMap_append, ← List.length_eq_zero_iff, List.length_append]
      omega
    exact e'.hashes_eq_nil_iff.1 (List.flatMap_eq_nil_iff.1 rest e' he')
  have left : before.filter (fun e => e.pieces ≠ []) = [] := by
    simpa using fun e' he' => around e' (List.mem_append_left _ he')
  have right : after.filter (fun e => e.pieces ≠ []) = [] := by
    simpa using fun e' he' => around e' (List.mem_append_right _ he')
  rw [List.filter_append, List.filter_cons_of_pos (by simpa using some), left, right,
    List.nil_append]

theorem flatMap_filter (l : List PiecesElement) :
    (l.filter fun e => e.pieces ≠ []).flatMap PiecesElement.hashes =
      l.flatMap PiecesElement.hashes := by
  induction l with
  | nil => rfl
  | cons e l ih =>
    by_cases blank : e.pieces = []
    · rw [List.filter_cons_of_neg (by simpa using blank), ih, List.flatMap_cons,
        e.hashes_eq_nil_iff.2 blank, List.nil_append]
    · rw [List.filter_cons_of_pos (by simpa using blank), List.flatMap_cons, ih, List.flatMap_cons]

/-- The pieces are those of one element exactly if one element is left. -/
theorem piecesOfOne_iff (l : List PiecesElement) :
    PiecesOfOne l ((kept l).flatMap PiecesElement.hashes) (lastType l) (lastLength l) ↔
      OneLeft l := by
  have none : (kept l).flatMap PiecesElement.hashes = [] ↔ ∀ e ∈ kept l, e.pieces = [] := by
    simp only [List.flatMap_eq_nil_iff, PiecesElement.hashes_eq_nil_iff]
  constructor
  · rintro (empty | ⟨e, mem, whole, type, length⟩)
    · exact .inl (none.1 empty)
    · by_cases empty : ∀ e ∈ kept l, e.pieces = []
      · exact .inl empty
      refine .inr ⟨e, mem, ?_, type, length⟩
      rw [← List.rdropWhile_append_rtakeWhile (p := fun e : PiecesElement => ¬ e.Gap) (l := l),
        List.mem_append] at mem
      rcases mem with before | here
      · exact .inr ⟨before, whole⟩
      · have some : e.pieces ≠ [] := by
          intro blank
          have zero := whole.length_eq.trans (e.count_eq_zero_iff.2 blank)
          exact empty (none.1 (List.length_eq_zero_iff.1 zero))
        exact .inl ⟨filter_eq_singleton here some whole.length_eq, whole.nodup⟩
  · rintro (empty | ⟨e, mem, one | ⟨-, whole⟩, type, length⟩)
    · exact .inl (none.2 empty)
    · obtain ⟨single, once⟩ := one
      refine .inr ⟨e, mem, ?_, type, length⟩
      have here : e ∈ kept l := List.mem_of_mem_filter (single ▸ List.mem_singleton_self e)
      have full : ¬ e.Gap := by simpa using List.mem_rtakeWhile_imp here
      have only : (kept l).flatMap PiecesElement.hashes = e.hashes := by
        rw [← flatMap_filter, single, List.flatMap_singleton]
      rw [only]
      exact e.whole_hashes full once
    · exact .inr ⟨e, mem, whole, type, length⟩

/-- A file with one `pieces` element in which no number is given twice has its pieces or none. -/
theorem oneLeft_single {e : PiecesElement} (once : e.numbers.Nodup) : OneLeft [e] := by
  by_cases gap : e.Gap
  · exact .inl (by simp [kept, List.rtakeWhile, gap])
  · by_cases blank : e.pieces = []
    · exact .inl (by simp [kept, List.rtakeWhile, gap, blank])
    · refine .inr ⟨e, List.mem_singleton_self e, .inl ⟨?_, once⟩, ?_, ?_⟩
      · simp [kept, List.rtakeWhile, gap, blank]
      · exact lastType_concat [] e
      · exact lastLength_concat [] e

/-- The pieces of a parsed file, where `e` is its element. -/
def PiecesWhole (e : Attrs × Content) (f : MetalinkFile) : Prop :=
  PiecesOfOne e.2.piecesElements f.pieceHashes f.pieceType f.pieceLength

theorem metalink_pieces_whole_iff (c : Content) :
    ∃ files, parseMetalink c.events = some files ∧
      (List.Forall₂ PiecesWhole (c.fileElements.filter Named) files ↔
        ∀ e ∈ c.fileElements.filter Named, OneLeft e.2.piecesElements) := by
  obtain ⟨files, parsed, fields⟩ := parseMetalink_tree c
  refine ⟨files, parsed, ?_⟩
  let Whole (e : Attrs × Content) (f : PieceFields) : Prop :=
    PiecesOfOne e.2.piecesElements f.pieceHashes f.pieceType f.pieceLength
  calc
    List.Forall₂ PiecesWhole (c.fileElements.filter Named) files
      ↔ List.Forall₂ Whole (c.fileElements.filter Named) (files.map MetalinkFile.pieceFields) := by
        rw [List.forall₂_map_right_iff]
        rfl
    _ ↔ List.Forall₂ (fun e e' => Whole e (fieldsOf e')) (c.fileElements.filter Named)
        (c.fileElements.filter Named) := by rw [fields, List.forall₂_map_right_iff]
    _ ↔ ∀ e ∈ c.fileElements.filter Named, Whole e (fieldsOf e) := List.forall₂_same
    _ ↔ ∀ e ∈ c.fileElements.filter Named, OneLeft e.2.piecesElements := by
      refine forall₂_congr fun e _ => ?_
      rw [← piecesOfOne_iff]
      simp only [Whole, fieldsOf, foldl_add]

/-- A document of one file whose `verification` element holds two `pieces` elements of one piece. -/
def twoPieces : Content :=
  let piece (hash : Text) : Content :=
    .element "hash" [("piece", ['0'])] (.characters hash .nil) .nil
  let pieces : Content :=
    .element "pieces" [("type", ['s', 'h', 'a', '1'])] (piece ['a']) <|
      .element "pieces" [("type", ['m', 'd', '5'])] (piece ['b']) .nil
  .element "metalink" [] (.element "files" []
    (.element "file" [("name", ['f'])] (.element "verification" [] pieces .nil) .nil) .nil) .nil

/-- The file has the hashes of both elements. -/
theorem not_metalink_pieces_whole :
    ¬ ∀ c : Content, ∃ files, parseMetalink c.events = some files ∧
      List.Forall₂ PiecesWhole (c.fileElements.filter Named) files := by
  intro h
  obtain ⟨files, parsed, whole⟩ := h twoPieces
  have both : parseMetalink twoPieces.events = some [{
      name := ['f'], pieceHashes := [['a'], ['b']], pieceType := ['m', 'd', '5'] }] := by decide
  obtain rfl := Option.some.inj (parsed.symm.trans both)
  have apart : ∀ e ∈ twoPieces.fileElements.filter Named,
      ¬ PiecesOfOne e.2.piecesElements [['a'], ['b']] ['m', 'd', '5'] (-1) := by decide
  obtain ⟨e, rest, one, -, split⟩ := List.forall₂_cons_right_iff.1 whole
  exact apart e (by simp [split]) one

end Ydfs.Wubi.Sax
