import Mathlib.Algebra.Group.Nat.Defs
import Mathlib.Tactic.SplitIfs
import Ydfs.Files.Stream

/-!
# The beginning of the archive

`pack.py` writes the header, a marker and a 7z archive into one file, and `seek_beginning_of_archive`
looks for the marker with the 7z signature behind it.  It seeks to every offset in turn and reads into
one buffer; the end of the file causes no false match, since the signature does not end in two equal
bytes.  The offset is cast to a `long` of 32 bits for `fseek`, and from 2 GiB on it is negative: the
seeks fail, nobody looks at their result, and the reads go on one after the other.
-/

namespace Ydfs.Pylauncher.Unpack

open Search FileStream

/-! ### Strings of C -/

/-- The bytes before the first NUL. -/
def chars (memory : List UInt8) : List UInt8 := memory.takeWhile (· ≠ 0)

def strlen (memory : List UInt8) : ℕ := (chars memory).length

/-- `strncpy` copies `n` bytes, and NUL bytes once the string has ended. -/
def strncpy (str : List UInt8) (n : ℕ) : List UInt8 :=
  chars (str.take n) ++ List.replicate (n - strlen (str.take n)) 0

def concatn (str1 str2 : List UInt8) (len2 : ℕ) : List UInt8 :=
  chars str1 ++ strncpy str2 len2 ++ [0]

/-- `@@@pylauncher@@@` -/
def pylauncher : List UInt8 :=
  [0x40, 0x40, 0x40, 0x70, 0x79, 0x6C, 0x61, 0x75, 0x6E, 0x63, 0x68, 0x65, 0x72, 0x40, 0x40, 0x40]

def k7zSignature : List UInt8 := [0x37, 0x7A, 0xBC, 0xAF, 0x27, 0x1C]

def signature : List UInt8 := concatn (pylauncher ++ [0]) k7zSignature 6

def signatureSize : ℕ := strlen signature

/-- What is searched for. -/
def marker : List UInt8 := pylauncher ++ k7zSignature

theorem signature_take : signature.take signatureSize = marker := by decide

theorem signatureSize_eq : signatureSize = 22 := by decide

theorem marker_length : marker.length = 22 := rfl

/-! ### The search -/

/-- Offsets from here on are negative as a `long`. -/
def longMax : ℕ := 2 ^ 31

/-- `fseek` with the offset cast to a `long`; it fails for a negative one, and the position stays. -/
def seekFile (pos : ℕ) (s : Stream UInt8) : Stream UInt8 :=
  if pos < longMax then { s with pos := pos } else s

/-- The loop from the offset `i` on: where it ends, and whether the signature has been found. -/
def scan (content : List UInt8) : ℕ → ℕ → Stream UInt8 → ℕ × Bool
  | 0, i, _ => (i, false)
  | remaining + 1, i, s =>
    let result := read content signatureSize (seekFile i s)
    if result.1 = 0 then (i, false)
    else if result.2.buffer.take signatureSize = signature.take signatureSize then (i, true)
    else scan content remaining (i + 1) result.2

/-- What is reported, and what is returned. -/
structure Result where
  found : Bool
  offset : ℕ

/-- The bytes that the buffer has at the start are not defined. -/
def seekBeginningOfArchive (content garbage : List UInt8) : Result :=
  let result := scan content content.length 0 ⟨0, garbage⟩
  ⟨result.2, (result.1 + strlen (pylauncher ++ [0])) % 2 ^ 32⟩

/-- `make_self_extracting_exe` concatenates the header, the marker and the archive. -/
def makeSelfExtractingExe (header archive : List UInt8) : List UInt8 := header ++ pylauncher ++ archive

variable {content garbage header archive : List UInt8} {s : Stream UInt8} {i j k : ℕ}

/-! ### The reads after the last seek -/

/-- Where the reads begin whose seeks have failed. -/
def latePos (k : ℕ) : ℕ := longMax - 1 + 22 * (k + 1)

/-- What the buffer holds after such a read: if it is short, with the end of the read before. -/
def late (content : List UInt8) (k : ℕ) : List UInt8 :=
  (content.drop (latePos k)).take 22 ++
    ((content.drop (latePos k - 22)).take 22).drop (content.length - latePos k)

def LateMatch (content : List UInt8) (k : ℕ) : Prop :=
  latePos k < content.length ∧ late content k = marker

/-- The loop takes the offset for that of the marker. -/
def Match (content : List UInt8) (i : ℕ) : Prop :=
  (i < longMax ∧ Occurs marker content i) ∨ ∃ k, i = longMax + k ∧ LateMatch content k

theorem late_lt_latePos (k : ℕ) : longMax + k < latePos k := by
  simp only [latePos, longMax]
  omega

/-! ### The loop -/

/-- The stream where the loop comes to the offset `i`, in a file that ends in `last`. -/
structure Head (content : List UInt8) (last : UInt8) (i : ℕ) (s : Stream UInt8) : Prop where
  early : ∀ j, i = j + 1 → j < longMax → s.buffer.take 22 = window content last 22 j
  pos : ∀ k, i = longMax + k → s.pos = min content.length (latePos k)
  buffer : ∀ k, i = longMax + k → latePos k < content.length →
    s.buffer.take 22 = (content.drop (latePos k - 22)).take 22

variable {last : UInt8}

/-- An offset that `fseek` can reach. -/
theorem Head.seek (head : Head content last i s) (long : 22 ≤ content.length)
    (ends : content.getLast? = some last) (inside : i < content.length) (reach : i < longMax) :
    (read content 22 (seekFile i s)).1 ≠ 0 ∧
      (read content 22 (seekFile i s)).2.buffer.take 22 = window content last 22 i ∧
        Head content last (i + 1) (read content 22 (seekFile i s)).2 := by
  have sought : seekFile i s = { s with pos := i } := if_pos reach
  have seen : (read content 22 (seekFile i s)).2.buffer.take 22 = window content last 22 i := by
    rw [sought]
    apply read_window inside ends
    cases i with
    | zero => exact .inl (by simpa using long)
    | succ i => exact .inr ⟨i, rfl, head.early i rfl (by omega)⟩
  refine ⟨?_, seen, ⟨?_, ?_, ?_⟩⟩
  · rw [sought, Ne, read_eq_zero (by decide)]
    exact Nat.not_le.2 inside
  · rintro j next -
    obtain rfl : i = j := by omega
    exact seen
  · rintro k next
    rw [sought, read_pos inside.le]
    simp only [latePos, longMax] at *
    omega
  · rintro k next more
    have start : latePos k - 22 = i := by
      simp only [latePos, longMax] at *
      omega
    rw [seen, start, window_of_le]
    simp only [latePos, longMax] at *
    omega

/-- An offset that is negative for `fseek`: the reads come to their end, -/
theorem Head.stop (head : Head content last (longMax + k) s) (done : content.length ≤ latePos k) :
    (read content 22 (seekFile (longMax + k) s)).1 = 0 := by
  have failed : seekFile (longMax + k) s = s := if_neg (by omega)
  rw [failed, read_eq_zero (by decide), head.pos k rfl, Nat.min_eq_left done]

/-- or they go on. -/
theorem Head.late (head : Head content last (longMax + k) s) (more : latePos k < content.length) :
    (read content 22 (seekFile (longMax + k) s)).1 ≠ 0 ∧
      (read content 22 (seekFile (longMax + k) s)).2.buffer.take 22 = late content k ∧
        Head content last (longMax + k + 1) (read content 22 (seekFile (longMax + k) s)).2 := by
  have failed : seekFile (longMax + k) s = s := if_neg (by omega)
  have pos : s.pos = latePos k := (head.pos k rfl).trans (Nat.min_eq_right more.le)
  have next : latePos (k + 1) = latePos k + 22 := by
    simp only [latePos]
    omega
  rw [failed]
  refine ⟨?_, ?_, ⟨?_, ?_, ?_⟩⟩
  · rw [Ne, read_eq_zero (by decide), pos]
    exact Nat.not_le.2 more
  · rw [read_buffer, pos, head.buffer k rfl more, Unpack.late]
  · intro j eq small
    omega
  · intro l eq
    obtain rfl : k + 1 = l := by omega
    rw [read_pos (pos.le.trans more.le), pos, next]
  · intro l eq full
    obtain rfl : k + 1 = l := by omega
    rw [next] at full
    rw [read_full (pos.symm ▸ full.le), pos, next, Nat.add_sub_cancel]

/-- The first offset that is taken for that of the marker, if there is one. -/
def Outcome (content : List UInt8) (result : ℕ × Bool) : Prop :=
  if result.2 then Match content result.1 ∧ ∀ j < result.1, ¬ Match content j
  else ∀ j, ¬ Match content j

theorem Match.lt (h : Match content i) : i < content.length := by
  obtain ⟨-, here⟩ | ⟨k, rfl, more, -⟩ := h
  · have fits := here.le (by decide)
    rw [marker_length] at fits
    omega
  · exact (late_lt_latePos k).trans more

theorem match_of_lt (reach : i < longMax) : Match content i ↔ Occurs marker content i := by
  constructor
  · rintro (⟨-, here⟩ | ⟨k, rfl, -⟩)
    · exact here
    · omega
  · exact fun here => .inl ⟨reach, here⟩

theorem match_late : Match content (longMax + k) ↔ LateMatch content k := by
  constructor
  · rintro (⟨reach, -⟩ | ⟨l, eq, here⟩)
    · omega
    · obtain rfl : k = l := by omega
      exact here
  · exact fun here => .inr ⟨k, rfl, here⟩

/-- Once the reads have come to the end there are no more matches. -/
theorem not_match_of_done (done : content.length ≤ latePos k) (hj : longMax + k ≤ j) :
    ¬ Match content j := by
  obtain ⟨l, rfl⟩ := Nat.exists_eq_add_of_le ((Nat.le_add_right _ _).trans hj)
  intro here
  have more := (match_late.1 here).1
  simp only [latePos] at *
  omega

/-- One round of the loop. -/
theorem Head.step (head : Head content last i s) (long : 22 ≤ content.length)
    (ends : content.getLast? = some last) (inside : i < content.length) :
    ((read content 22 (seekFile i s)).1 = 0 → ∀ j, i ≤ j → ¬ Match content j) ∧
      ((read content 22 (seekFile i s)).1 ≠ 0 →
        ((read content 22 (seekFile i s)).2.buffer.take 22 = marker ↔ Match content i) ∧
          Head content last (i + 1) (read content 22 (seekFile i s)).2) := by
  by_cases reach : i < longMax
  · obtain ⟨count, seen, next⟩ := head.seek long ends inside reach
    refine ⟨fun stop => absurd stop count, fun _ => ⟨?_, next⟩⟩
    rw [seen, match_of_lt reach]
    exact window_eq_iff (w := marker) (a := 0x27) (b := 0x1C) (by decide) (by decide) inside ends
  · obtain ⟨k, rfl⟩ := Nat.exists_eq_add_of_le (Nat.le_of_not_lt reach)
    by_cases more : latePos k < content.length
    · obtain ⟨count, seen, next⟩ := head.late more
      refine ⟨fun stop => absurd stop count, fun _ => ⟨?_, next⟩⟩
      rw [seen, match_late, LateMatch, and_iff_right more]
    · have done := Nat.le_of_not_lt more
      exact ⟨fun _ j hj => not_match_of_done done hj, fun count => absurd (head.stop done) count⟩

theorem scan_outcome (long : 22 ≤ content.length) (ends : content.getLast? = some last)
    {remaining : ℕ} (left : i + remaining = content.length) (head : Head content last i s)
    (before : ∀ j < i, ¬ Match content j) : Outcome content (scan content remaining i s) := by
  induction remaining generalizing i s with
  | zero => exact fun j here => before j (here.lt.trans_eq left.symm) here
  | succ remaining ih =>
    obtain ⟨stop, go⟩ := head.step long ends (by omega)
    rw [scan, signature_take, signatureSize_eq]
    split_ifs with count seen
    · intro j here
      by_cases hj : i ≤ j
      · exact stop count j hj here
      · exact before j (Nat.lt_of_not_le hj) here
    · exact ⟨(go count).1.1 seen, before⟩
    · apply ih (by omega) (go count).2
      intro j hj
      obtain hj | rfl := Nat.lt_succ_iff_lt_or_eq.1 hj
      · exact before j hj
      · exact mt (go count).1.2 seen

/-- The loop of the whole function. -/
theorem seek_outcome (long : 22 ≤ content.length) :
    Outcome content (scan content content.length 0 ⟨0, garbage⟩) := by
  have ne : content ≠ [] := List.ne_nil_of_length_pos (by omega)
  exact scan_outcome long (List.getLast?_eq_some_getLast ne) (Nat.zero_add _)
    ⟨nofun, fun k eq => absurd eq (by simp only [longMax]; omega),
      fun k eq => absurd eq (by simp only [longMax]; omega)⟩ nofun

/-! ### What is expected -/

/-- The marker begins at `p`, and nowhere before. -/
def First (content : List UInt8) (p : ℕ) : Prop :=
  Occurs marker content p ∧ ∀ j < p, ¬ Occurs marker content j

/-- The marker is found exactly if it is there, and what is returned is the end of the first one
before the signature. -/
def Located (content : List UInt8) (result : Result) : Prop :=
  (result.found = true ↔ marker <:+: content) ∧
    ∀ p, First content p → result.offset = p + pylauncher.length

/-- The offset of the archive in a file that has been packed. -/
def Unpacks (content : List UInt8) (result : Result) : Prop :=
  ∀ header archive, ¬ marker <:+: header ++ pylauncher → k7zSignature <+: archive →
    content = makeSelfExtractingExe header archive →
      result.found = true ∧ result.offset = (header ++ pylauncher).length

/-- The first marker is in reach of `fseek`; or else what is read behind the last seek matches first
where the first marker happens to be, and does not match if there is none. -/
def InReach (content : List UInt8) : Prop :=
  (∃ p < longMax, Occurs marker content p) ∨
    (marker <:+: content → ∃ k, LateMatch content k) ∧
      ∀ k, LateMatch content k → (∀ j < k, ¬ LateMatch content j) → First content (longMax + k)

theorem First.unique {p q : ℕ} (hp : First content p) (hq : First content q) : p = q := by
  by_contra ne
  obtain lt | lt := Nat.lt_or_gt_of_ne ne
  · exact hq.2 p lt hp.1
  · exact hp.2 q lt hq.1

theorem exists_first (h : marker <:+: content) : ∃ p, First content p := by
  obtain ⟨p, found⟩ := find_of_infix (by decide) h
  exact ⟨p, .of_find found, fun j lt here => (le_of_find (by decide) found here).not_gt lt⟩

theorem Match.fits (h : Match content i) : i + 22 ≤ content.length := by
  obtain ⟨-, here⟩ | ⟨k, rfl, more, -⟩ := h
  · exact here.le (by decide)
  · simp only [latePos] at more
    omega

/-- A search that stops at `i` is right if the first marker is there. -/
theorem located_of_found (short : content.length < 2 ^ 32) (fits : i + 22 ≤ content.length) :
    Located content ⟨true, (i + strlen (pylauncher ++ [0])) % 2 ^ 32⟩ ↔ First content i := by
  have offset : (i + strlen (pylauncher ++ [0])) % 2 ^ 32 = i + pylauncher.length := by
    rw [show strlen (pylauncher ++ [0]) = 16 by decide, show pylauncher.length = 16 from rfl]
    omega
  rw [Located, offset]
  constructor
  · rintro ⟨found, first⟩
    obtain ⟨p, hp⟩ := exists_first (found.1 rfl)
    obtain rfl := Nat.add_right_cancel (first p hp)
    exact hp
  · intro hi
    refine ⟨⟨fun _ => hi.1.within, fun _ => rfl⟩, fun p hp => ?_⟩
    rw [hi.unique hp]

/-- A search that has found nothing is right if there is no marker. -/
theorem located_of_not_found {offset : ℕ} :
    Located content ⟨false, offset⟩ ↔ ¬ marker <:+: content := by
  constructor
  · rintro ⟨found, -⟩ there
    cases found.2 there
  · intro missing
    exact ⟨⟨nofun, fun there => absurd there missing⟩, fun p hp => absurd hp.1.within missing⟩

theorem inReach_of_found (here : Match content i) (before : ∀ j < i, ¬ Match content j) :
    InReach content ↔ First content i := by
  by_cases reach : i < longMax
  · have occurs := (match_of_lt reach).1 here
    refine iff_of_true (.inl ⟨i, reach, occurs⟩) ⟨occurs, fun j lt => ?_⟩
    exact mt (match_of_lt (lt.trans reach)).2 (before j lt)
  · obtain ⟨k, rfl⟩ := Nat.exists_eq_add_of_le (Nat.le_of_not_lt reach)
    have hk := match_late.1 here
    have first : ∀ j < k, ¬ LateMatch content j := fun j lt =>
      mt match_late.2 (before _ (Nat.add_lt_add_left lt _))
    constructor
    · rintro (⟨p, lt, occurs⟩ | ⟨-, only⟩)
      · exact absurd ((match_of_lt lt).2 occurs) (before p (by omega))
      · exact only k hk first
    · refine fun hi => .inr ⟨fun _ => ⟨k, hk⟩, fun l hl firstL => ?_⟩
      obtain lt | rfl | lt := Nat.lt_trichotomy l k
      · exact absurd hl (first l lt)
      · exact hi
      · exact absurd hk (firstL k lt)

theorem inReach_of_not_found (none : ∀ j, ¬ Match content j) :
    InReach content ↔ ¬ marker <:+: content := by
  have late : ∀ k, ¬ LateMatch content k := fun k => mt match_late.2 (none _)
  constructor
  · rintro (⟨p, lt, occurs⟩ | ⟨more, -⟩) there
    · exact none p ((match_of_lt lt).2 occurs)
    · obtain ⟨k, hk⟩ := more there
      exact late k hk
  · exact fun missing => .inr ⟨fun there => absurd there missing, fun k hk => absurd hk (late k)⟩

theorem located_iff_inReach (long : marker.length ≤ content.length)
    (short : content.length < 2 ^ 32) :
    Located content (seekBeginningOfArchive content garbage) ↔ InReach content := by
  have outcome : Outcome content (scan content content.length 0 ⟨0, garbage⟩) := seek_outcome long
  rw [seekBeginningOfArchive]
  generalize scan content content.length 0 ⟨0, garbage⟩ = result at outcome
  obtain ⟨i, _ | _⟩ := result
  · exact located_of_not_found.trans (inReach_of_not_found outcome).symm
  · exact (located_of_found short outcome.1.fits).trans (inReach_of_found outcome.1 outcome.2).symm

/-! ### Packed files -/

/-- No end of the marker that is a little shorter is a beginning of it. -/
theorem not_prefix_of_drop : ∀ d < 6, 0 < d → ¬ marker.drop d <+: marker := by decide

/-- The marker of a packed file begins after the header, if header and marker have no other one. -/
theorem first_of_packed (free : ¬ marker <:+: header ++ pylauncher)
    (sevenZip : k7zSignature <+: archive) :
    First (makeSelfExtractingExe header archive) header.length := by
  obtain ⟨rest, rfl⟩ := sevenZip
  have content : makeSelfExtractingExe header (k7zSignature ++ rest) = header ++ marker ++ rest := by
    simp only [makeSelfExtractingExe, marker, List.append_assoc]
  refine ⟨content ▸ occurs_append header marker rest, fun j lt here => ?_⟩
  by_cases inside : j + marker.length ≤ (header ++ pylauncher).length
  · exact free ((occurs_append_left inside).1 here).within
  · -- the marker would overlap the one after the header
    rw [List.length_append, marker_length] at inside
    have far : header.length - j < 6 := by
      have : pylauncher.length = 16 := rfl
      omega
    have overlap := List.IsPrefix.drop here (header.length - j)
    rw [List.drop_drop, Nat.add_sub_cancel' lt.le, content, List.append_assoc, List.drop_left]
      at overlap
    exact not_prefix_of_drop _ far (by omega) (List.prefix_of_prefix_length_le overlap
      (List.prefix_append marker rest) (List.drop_suffix _ _).length_le)

theorem Located.unpacks {result : Result} (located : Located content result) :
    Unpacks content result := by
  rintro header archive free sevenZip rfl
  have first := first_of_packed free sevenZip
  rw [List.length_append]
  exact ⟨located.1.2 first.1.within, located.2 _ first⟩

/-- For every file of less than 4 GiB the beginning of the archive is found, if it is there, exactly
when the first marker is in reach of `fseek`. -/
theorem located_and_unpacks_iff (long : marker.length ≤ content.length)
    (short : content.length < 2 ^ 32) :
    Located content (seekBeginningOfArchive content garbage) ∧
        Unpacks content (seekBeginningOfArchive content garbage) ↔ InReach content :=
  (and_iff_left_of_imp Located.unpacks).trans (located_iff_inReach long short)

theorem located_and_unpacks_small :
    let content := makeSelfExtractingExe [0x4D, 0x5A] k7zSignature
    Located content (seekBeginningOfArchive content []) ∧
        Unpacks content (seekBeginningOfArchive content []) ↔ InReach content :=
  located_and_unpacks_iff (by decide) (by decide)

/-! ### A header of 2 GiB -/

/-- A file whose marker is the first thing out of reach. -/
def bigFile : List UInt8 := makeSelfExtractingExe (List.replicate longMax 0) k7zSignature

theorem bigFile_eq : bigFile = List.replicate longMax 0 ++ marker := by
  simp only [bigFile, makeSelfExtractingExe, marker, List.append_assoc]

theorem first_bigFile : First bigFile longMax := by
  have free : ¬ marker <:+: List.replicate longMax 0 ++ pylauncher := by
    intro inside
    have seven := inside.subset (show (0x37 : UInt8) ∈ marker by decide)
    obtain zero | text := List.mem_append.1 seven
    · cases List.eq_of_mem_replicate zero
    · revert text
      decide
  have first := first_of_packed free (List.prefix_refl k7zSignature)
  rwa [List.length_replicate] at first

theorem not_lateMatch_bigFile (k : ℕ) : ¬ LateMatch bigFile k := by
  rintro ⟨more, same⟩
  rw [bigFile_eq, List.length_append, List.length_replicate, marker_length, latePos] at more
  have pos : latePos k = longMax + 21 := by
    rw [latePos]
    simp only [longMax] at *
    omega
  have read : bigFile.drop (latePos k) = [0x1C] := by
    rw [bigFile_eq, pos, List.drop_append, List.drop_eq_nil_of_le (by simp), List.length_replicate,
      Nat.add_sub_cancel_left]
    rfl
  rw [late, read] at same
  cases congrArg List.head? same

theorem big_header_not_found :
    ¬ ∀ content garbage : List UInt8, marker.length ≤ content.length → content.length < 2 ^ 32 →
      Located content (seekBeginningOfArchive content garbage) ∧
        Unpacks content (seekBeginningOfArchive content garbage) := by
  intro found
  have length : bigFile.length = longMax + 22 := by
    rw [bigFile_eq, List.length_append, List.length_replicate, marker_length]
  have long : marker.length ≤ bigFile.length := by
    rw [length, marker_length]
    omega
  have short : bigFile.length < 2 ^ 32 := by
    rw [length, longMax]
    omega
  obtain ⟨p, lt, here⟩ | ⟨more, -⟩ :=
    (located_iff_inReach long short).1 (found bigFile [] long short).1
  · exact first_bigFile.2 p lt here
  · obtain ⟨k, hk⟩ := more first_bigFile.1.within
    exact not_lateMatch_bigFile k hk

end Ydfs.Pylauncher.Unpack
