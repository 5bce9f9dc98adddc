import Mathlib.Tactic.Ring
import Ydfs.BitTorrent.StorageWrapper

/-!
# Where the pieces are

A piece that has a place keeps its bytes whatever else comes in: pieces are moved, but what is read of
a piece stays the same (`settle_spec`).  There is always a free place for a piece that is new, a long
piece is never moved to the short place at the end, and what is written over was free.
-/

namespace Ydfs.BitTorrent.StorageWrapper

open FilePlaces
open Wubi.Sax (Text)

variable {δ : Type} {w : StorageWrapper δ} {holes rest : List ℕ} {h i o p q k m : ℕ} {s : Text}

/-- The pieces fill the storage, and only the last one may be short. -/
structure Sized (w : StorageWrapper δ) : Prop where
  size_pos : 0 < w.piece_size
  many : 0 < w.hashes.length
  low : w.piece_size * (w.hashes.length - 1) < w.total_length
  high : w.total_length ≤ w.piece_size * w.hashes.length
  total : w.storage.total_length = w.total_length
  whole : w.storage.Whole

/-- A byte of a place -/
def cellAt (w : StorageWrapper δ) (q k : ℕ) : Option Char := w.storage.cell (w.piece_size * q + k)

/-- A byte of a piece -/
def data (w : StorageWrapper δ) (p k : ℕ) : Option Char := (w.places p).bind fun q => w.cellAt q k

/-- All bytes of a place are in the files. -/
def Full (w : StorageWrapper δ) (q : ℕ) : Prop := ∀ k, k < w.piecelen q → (w.cellAt q k).isSome

section Sizes

variable (sized : Sized w)

include sized

theorem Sized.piecelen_le : w.piecelen p ≤ w.piece_size := by
  rw [piecelen]
  split_ifs with inner
  · exact le_rfl
  · obtain ⟨n, same⟩ := Nat.exists_eq_succ_of_ne_zero sized.many.ne'
    have high := sized.high
    have : w.piece_size * (n + 1) ≤ w.piece_size * (p + 1) :=
      Nat.mul_le_mul_left _ (by omega)
    rw [same, Nat.succ_eq_add_one] at high
    rw [Nat.mul_comm p]
    rw [Nat.mul_add_one] at this
    rw [Nat.mul_add_one] at this
    rw [Nat.mul_add_one] at high
    omega

/-- A place ends where the next one begins, or at the end of the file. -/
theorem Sized.place_le (lt : p < w.hashes.length) :
    w.piece_size * p + w.piecelen p ≤ w.total_length := by
  have low := sized.low
  have below : w.piece_size * p ≤ w.piece_size * (w.hashes.length - 1) :=
    Nat.mul_le_mul_left _ (by omega)
  rw [piecelen]
  split_ifs with inner
  · have : w.piece_size * (p + 1) ≤ w.piece_size * (w.hashes.length - 1) :=
      Nat.mul_le_mul_left _ (by omega)
    rw [Nat.mul_add_one] at this
    omega
  · rw [Nat.mul_comm p]
    omega

theorem Sized.piecelen_pos (lt : p < w.hashes.length) : 0 < w.piecelen p := by
  have low := sized.low
  have below : w.piece_size * p ≤ w.piece_size * (w.hashes.length - 1) :=
    Nat.mul_le_mul_left _ (by omega)
  rw [piecelen]
  split_ifs
  · exact sized.size_pos
  · rw [Nat.mul_comm p]
    omega

/-- Two places have no byte in common. -/
theorem Sized.disjoint (ne : p ≠ q) (inside : k < w.piecelen p) :
    w.piece_size * p + k < w.piece_size * q ∨
      w.piece_size * q + w.piecelen q ≤ w.piece_size * p + k := by
  have le_p := sized.piecelen_le (p := p)
  have le_q := sized.piecelen_le (p := q)
  rcases Nat.lt_or_gt_of_ne ne with less | more
  · have : w.piece_size * (p + 1) ≤ w.piece_size * q := Nat.mul_le_mul_left _ less
    rw [Nat.mul_add_one] at this
    omega
  · have : w.piece_size * (q + 1) ≤ w.piece_size * p := Nat.mul_le_mul_left _ more
    rw [Nat.mul_add_one] at this
    omega

theorem Sized.writePlace (lt : q < w.hashes.length) {start : ℕ}
    (inside : start + s.length ≤ w.piecelen q) : Sized (w.writePlace q start s) := by
  have place := sized.place_le lt
  have fits : w.piece_size * q + start + s.length ≤ w.storage.total_length := by
    rw [sized.total]
    omega
  obtain ⟨whole, total, -⟩ := Storage.write_whole sized.whole fits
  exact ⟨sized.size_pos, sized.many, sized.low, sized.high, total.trans sized.total, whole⟩

theorem cellAt_writePlace (lt : q < w.hashes.length) {start : ℕ}
    (inside : start + s.length ≤ w.piecelen q) (low : start ≤ k) (high : k < start + s.length) :
    (w.writePlace q start s).cellAt q k = s[k - start]? := by
  have place := sized.place_le lt
  have fits : w.piece_size * q + start + s.length ≤ w.storage.total_length := by
    rw [sized.total]
    omega
  rw [cellAt, StorageWrapper.writePlace,
    Storage.cell_write_inside sized.whole fits (by dsimp only; omega) (by dsimp only; omega)]
  congr 1
  dsimp only
  omega

/-- A byte that is not written over stays. -/
theorem cellAt_writePlace_other (lt : q < w.hashes.length) {start : ℕ}
    (inside : start + s.length ≤ w.piecelen q) (kp : k < w.piecelen p)
    (out : p = q → k < start ∨ start + s.length ≤ k) {c : Char} (there : w.cellAt p k = some c) :
    (w.writePlace q start s).cellAt p k = some c := by
  have place := sized.place_le lt
  have fits : w.piece_size * q + start + s.length ≤ w.storage.total_length := by
    rw [sized.total]
    omega
  refine Storage.cell_write_outside sized.whole fits ?_ there
  change w.piece_size * p + k < _ ∨ _ ≤ w.piece_size * p + k
  by_cases same : p = q
  · have := out same
    rw [same]
    omega
  · have := sized.disjoint same kp
    omega

theorem waspre_writePlace (lt : q < w.hashes.length) {start : ℕ}
    (inside : start + s.length ≤ w.piecelen q) : (w.writePlace q start s).waspre = w.waspre := by
  have fits : w.piece_size * q + start + s.length ≤ w.storage.total_length := by
    have := sized.place_le lt
    rw [sized.total]
    omega
  obtain ⟨-, -, ranges, tops⟩ := Storage.write_whole sized.whole fits
  funext p
  change (w.storage.write (w.piece_size * q + start) s).was_preallocated _ _ = _
  rw [Storage.was_preallocated, Storage.intervals, ranges, tops]
  rfl

/-- The bytes that are read of a place. -/
theorem readPlace_spec (lt : q < w.hashes.length) (inside : m ≤ w.piecelen q)
    (full : ∀ k, k < m → (w.cellAt q k).isSome) :
    (w.readPlace q m).length = m ∧ ∀ k, k < m → (w.readPlace q m)[k]? = w.cellAt q k := by
  have place := sized.place_le lt
  have fits : w.piece_size * q + m ≤ w.storage.total_length := by
    rw [sized.total]
    omega
  have read := Storage.read_cell sized.whole _ _ fits (fun j low high => by
    have := full (j - w.piece_size * q) (by omega)
    rw [cellAt, Nat.add_sub_cancel' low] at this
    exact this)
  have long := congrArg List.length read
  rw [List.length_map, List.length_map, List.length_range'] at long
  refine ⟨long, fun k less => ?_⟩
  have byte := congrArg (·[k]?) read
  simp only [List.getElem?_map, List.getElem?_range' less, Option.map_some, Nat.one_mul] at byte
  obtain ⟨c, here⟩ := Option.isSome_iff_exists.1 (full k less)
  change (w.readPlace q m)[k]?.map some = some (w.cellAt q k) at byte
  rw [here] at byte ⊢
  obtain ⟨a, got, same⟩ := Option.map_eq_some_iff.1 byte
  rw [got, same]

end Sizes

/-! ### Moves -/

/-- The pieces are kept in places that are in the files. -/
structure Stored (w : StorageWrapper δ) (holes : List ℕ) : Prop extends Sized w where
  layout : Layout w.hashes.length w.piecelen w.places holes
  full : ∀ p q, w.places p = some q → w.Full q

/-- Each piece with a place has one still, and its bytes are the same. -/
structure Kept (w w' : StorageWrapper δ) : Prop where
  placed : ∀ p, (w.places p).isSome → (w'.places p).isSome
  data : ∀ p k, (w.places p).isSome → k < w.piecelen p → w'.data p k = w.data p k
  home : ∀ p, w.places p = some p → w'.places p = some p
  piecelen : w'.piecelen = w.piecelen
  waspre : w'.waspre = w.waspre

theorem Kept.refl (w : StorageWrapper δ) : Kept w w :=
  ⟨fun _ h => h, fun _ _ _ _ => rfl, fun _ h => h, rfl, rfl⟩

theorem Kept.trans {u v w : StorageWrapper δ} (h : Kept u v) (h' : Kept v w) : Kept u w :=
  ⟨fun p there => h'.placed p (h.placed p there), fun p k there less => by
    rw [h'.data p k (h.placed p there) (by rwa [h.piecelen]), h.data p k there less],
    fun p there => h'.home p (h.home p there), h'.piecelen.trans h.piecelen, h'.waspre.trans h.waspre⟩

section Moves

variable (stored : Stored w holes)

include stored

/-- A piece in another place than its own is in a long place. -/
theorem Stored.piecelen_eq (there : w.places p = some q) (away : q ≠ p) :
    w.piecelen q = w.piece_size := by
  obtain ⟨lt_p, lt_q⟩ := stored.layout.lt p q there
  by_cases inner : q + 1 < w.hashes.length
  · exact if_pos inner
  · have long : w.piecelen p = w.piece_size := if_pos (by omega)
    exact le_antisymm stored.piecelen_le (long ▸ stored.layout.fits p q there)

omit stored in
/-- A hole that is followed by another one is a long place. -/
theorem Stored.piecelen_hole (stored : Stored w (h :: rest)) (sorted : (h :: rest).Pairwise (· < ·))
    (more : rest ≠ []) : w.piecelen h = w.piece_size := by
  obtain ⟨r, rest', rfl⟩ := List.exists_cons_of_ne_nil more
  have above := (List.pairwise_cons.1 sorted).1 r List.mem_cons_self
  have lt := stored.layout.hole_lt r (by simp)
  exact if_pos (by omega)

/-- A write to a hole does not change the pieces. -/
theorem Stored.writePlace (hole : h ∈ holes) (start : ℕ) (inside : start + s.length ≤ w.piecelen h) :
    Stored (w.writePlace h start s) holes ∧ Kept w (w.writePlace h start s) := by
  have lt := stored.layout.hole_lt h hole
  have same : ∀ p q k, w.places p = some q → k < w.piecelen q →
      (w.writePlace h start s).cellAt q k = w.cellAt q k := by
    intro p q k there less
    obtain ⟨c, here⟩ := Option.isSome_iff_exists.1 (stored.full p q there k less)
    rw [here]
    refine cellAt_writePlace_other stored.toSized lt inside less (fun same => ?_) here
    exact absurd (same ▸ hole) (stored.layout.free p q there)
  refine ⟨⟨stored.toSized.writePlace lt inside, stored.layout, fun p q there k less => ?_⟩,
    fun p there => there, fun p k there less => ?_, fun p there => there, rfl, ?_⟩
  · rw [same p q k there less]
    exact stored.full p q there k less
  · obtain ⟨q, there⟩ := Option.isSome_iff_exists.1 there
    have fits := stored.layout.fits p q there
    rw [data, data, show (w.writePlace h start s).places p = some q from there, there]
    exact same p q k there (less.trans_le fits)
  · exact waspre_writePlace stored.toSized lt inside

/-- The bytes of a place that have been copied to a hole. -/
theorem Stored.cellAt_copy (hole : h ∈ holes) (lt : q < w.hashes.length) (inside : m ≤ w.piecelen q)
    (room : m ≤ w.piecelen h) (full : w.Full q) (less : k < m) :
    (w.writePlace h 0 (w.readPlace q m)).cellAt h k = w.cellAt q k := by
  obtain ⟨long, same⟩ := readPlace_spec stored.toSized lt inside fun k less =>
    full k (less.trans_le inside)
  rw [cellAt_writePlace stored.toSized (stored.layout.hole_lt h hole) (by rw [long]; omega)
    (Nat.zero_le k) (by rw [long]; omega), Nat.sub_zero, same k less]

/-- The piece of a hole is brought there; what it leaves is a hole. -/
theorem Stored.bring (cons : holes = h :: rest) (away : w.places h = some o) :
    Stored (w.bring h o) (o :: rest) ∧ Kept w (w.bring h o) ∧ (w.bring h o).Full o := by
  subst cons
  have hole : h ∈ h :: rest := List.mem_cons_self
  have lt_o := (stored.layout.lt h o away).2
  have fits := stored.layout.fits h o away
  have long := (readPlace_spec stored.toSized lt_o fits fun k less =>
    stored.full h o away k (less.trans_le fits)).1
  obtain ⟨written, kept⟩ := stored.writePlace (s := w.readPlace o (w.piecelen h)) hole 0
    (by rw [long, Nat.zero_add])
  have copied : ∀ k, k < w.piecelen h → (w.bring h o).cellAt h k = w.cellAt o k := fun k less =>
    stored.cellAt_copy hole lt_o fits le_rfl (stored.full h o away) less
  have others : ∀ p, p ≠ h → (w.bring h o).places p = w.places p := fun p ne => Function.update_of_ne ne ..
  have here : (w.bring h o).places h = some h := Function.update_self ..
  refine ⟨⟨⟨written.size_pos, written.many, written.low, written.high, written.total, written.whole⟩,
    stored.layout.bring away, fun p q there => ?_⟩, ⟨fun p there => ?_,
    fun p k there less => ?_, fun p there => ?_, rfl, kept.waspre⟩, written.full h o away⟩
  · by_cases same : p = h
    · rw [same, here, Option.some.injEq] at there
      rw [← there]
      intro k less
      rw [copied k less]
      exact stored.full h o away k (less.trans_le fits)
    · rw [others p same] at there
      exact written.full p q there
  · by_cases same : p = h
    · rw [same, here, Option.isSome_some]
    · rw [others p same]
      exact there
  · by_cases same : p = h
    · rw [same] at less
      rw [same, data, data, here, away]
      exact copied k less
    · rw [← kept.data p k there less, data, data, others p same]
      rfl
  · by_cases same : p = h
    · rw [same, here]
    · rw [others p same, there]

/-- A new piece is put into a hole that is in the files. -/
theorem Stored.fill (cons : holes = h :: rest) (lt : i < w.hashes.length) (new : w.places i = none)
    (nowhere : w.places h = none) (waits : i = h ∨ i ∈ rest) (small : w.piecelen i ≤ w.piecelen h)
    (full : w.Full h) : Stored (w.place i h) rest ∧ Kept w (w.place i h) := by
  subst cons
  have others : ∀ p, (w.places p).isSome → (w.place i h).places p = w.places p := by
    intro p there
    refine Function.update_of_ne ?_ ..
    rintro rfl
    simp [new] at there
  refine ⟨⟨⟨stored.size_pos, stored.many, stored.low, stored.high, stored.total, stored.whole⟩,
    stored.layout.fill lt new nowhere waits small, fun p q there => ?_⟩, ⟨fun p there => ?_,
    fun p k there less => ?_, fun p there => ?_, rfl, rfl⟩⟩
  · by_cases same : p = i
    · rw [same, show (w.place i h).places i = some h from Function.update_self ..,
        Option.some.injEq] at there
      exact there ▸ full
    · rw [show (w.place i h).places p = w.places p from Function.update_of_ne same ..] at there
      exact stored.full p q there
  · rw [others p there]
    exact there
  · rw [data, data, others p there]
    rfl
  · rw [others p (Option.isSome_of_eq_some there), there]

/-- A new piece takes its own place, and the piece that was there goes into a hole. -/
theorem Stored.swap (cons : holes = h :: rest) (lt : i < w.hashes.length) (new : w.places i = none)
    (nowhere : w.places h = none) (there : w.places p = some i)
    (long : w.piecelen h = w.piece_size) :
    let w' := ((w.place i i).place p h).writePlace h 0
      (((w.place i i).place p h).readPlace i (w.piecelen h))
    Stored w' rest ∧ Kept w w' := by
  intro w'
  subst cons
  have hole : h ∈ h :: rest := List.mem_cons_self
  have ne : i ≠ p := by
    rintro rfl
    cases new.symm.trans there
  have size : w.piecelen h ≤ w.piecelen i := by rw [long, stored.piecelen_eq there ne]
  have small : w.piecelen p ≤ w.piecelen h := by
    rw [long]
    exact stored.piecelen_le
  have read := (readPlace_spec stored.toSized lt size fun k less =>
    stored.full p i there k (less.trans_le size)).1
  obtain ⟨written, kept⟩ := stored.writePlace (s := w.readPlace i (w.piecelen h)) hole 0
    (by rw [read, Nat.zero_add])
  have copied : ∀ k, k < w.piecelen h → w'.cellAt h k = w.cellAt i k := fun k less =>
    stored.cellAt_copy hole lt size le_rfl (stored.full p i there) less
  have here : w'.places p = some h := Function.update_self ..
  have own : w'.places i = some i := by
    rw [show w'.places i = _ from Function.update_of_ne ne ..]
    exact Function.update_self ..
  have others : ∀ p', p' ≠ p → p' ≠ i → w'.places p' = w.places p' := fun p' ne ne' =>
    (Function.update_of_ne ne ..).trans (Function.update_of_ne ne' ..)
  refine ⟨⟨⟨written.size_pos, written.many, written.low, written.high, written.total, written.whole⟩,
    stored.layout.swap lt new nowhere there small, fun p' q there' => ?_⟩,
    ⟨fun p' there' => ?_, fun p' k there' less => ?_, fun p' there' => ?_, rfl,
      kept.waspre⟩⟩
  · by_cases same : p' = p
    · rw [same, here, Option.some.injEq] at there'
      rw [← there']
      intro k less
      rw [copied k less]
      exact stored.full p i there k (less.trans_le size)
    · by_cases same' : p' = i
      · rw [same', own, Option.some.injEq] at there'
        rw [← there']
        exact written.full p i there
      · rw [others p' same same'] at there'
        exact written.full p' q there'
  · by_cases same : p' = p
    · rw [same, here, Option.isSome_some]
    · by_cases same' : p' = i
      · rw [same', own, Option.isSome_some]
      · rw [others p' same same']
        exact there'
  · by_cases same : p' = p
    · rw [same] at less
      rw [same, data, data, here, there]
      exact copied k (less.trans_le small)
    · have same' : p' ≠ i := by
        rintro rfl
        simp [new] at there'
      rw [← kept.data p' k there' less, data, data, others p' same same']
      rfl
  · have same : p' ≠ p := by
      rintro rfl
      exact ne (Option.some.inj (there.symm.trans there'))
    have same' : p' ≠ i := by
      rintro rfl
      cases new.symm.trans there'
    rw [others p' same same', there']

end Moves

/-- A write to the place of a piece changes its bytes there, and nothing else. -/
theorem Stored.writeOwn (stored : Stored w holes) (there : w.places p = some q) (start : ℕ)
    (inside : start + s.length ≤ w.piecelen p) :
    Stored (w.writePlace q start s) holes ∧
      (∀ p' k, p' ≠ p → (w.places p').isSome → k < w.piecelen p' →
        (w.writePlace q start s).data p' k = w.data p' k) ∧
      (∀ k, start ≤ k → k < start + s.length → (w.writePlace q start s).data p k = s[k - start]?) ∧
      (∀ k, k < w.piecelen p → k < start ∨ start + s.length ≤ k →
        (w.writePlace q start s).data p k = w.data p k) ∧
      (w.writePlace q start s).waspre = w.waspre := by
  have lt := (stored.layout.lt p q there).2
  have fits := stored.layout.fits p q there
  have room : start + s.length ≤ w.piecelen q := inside.trans fits
  have kept : ∀ p' q' k, w.places p' = some q' → k < w.piecelen q' →
      (q' = q → k < start ∨ start + s.length ≤ k) →
        (w.writePlace q start s).cellAt q' k = w.cellAt q' k := by
    intro p' q' k there' less out
    obtain ⟨c, here⟩ := Option.isSome_iff_exists.1 (stored.full p' q' there' k less)
    rw [here, cellAt_writePlace_other stored.toSized lt room less out here]
  have full : ∀ p' q', w.places p' = some q' → (w.writePlace q start s).Full q' := by
    intro p' q' there' k less
    by_cases touched : q' = q ∧ start ≤ k ∧ k < start + s.length
    · obtain ⟨rfl, low, high⟩ := touched
      rw [cellAt_writePlace stored.toSized lt room low high, List.getElem?_eq_getElem (by omega)]
      rfl
    · rw [kept p' q' k there' less (by omega)]
      exact stored.full p' q' there' k less
  refine ⟨⟨stored.toSized.writePlace lt room, stored.layout, full⟩, fun p' k ne there' less => ?_,
    fun k low high => ?_, fun k less out => ?_, ?_⟩
  · obtain ⟨q', there'⟩ := Option.isSome_iff_exists.1 there'
    have other : q' ≠ q := fun same => ne (stored.layout.inj p' p q (same ▸ there') there)
    rw [data, data, show (w.writePlace q start s).places p' = some q' from there', there']
    exact kept p' q' k there' (less.trans_le (stored.layout.fits p' q' there'))
      fun same => absurd same other
  · rw [data, show (w.writePlace q start s).places p = some q from there]
    exact cellAt_writePlace stored.toSized lt room low high
  · rw [data, data, show (w.writePlace q start s).places p = some q from there, there]
    exact kept p q k there (less.trans_le fits) fun _ => out
  · exact waspre_writePlace stored.toSized lt room

/-! ### A piece without a place -/

section Settle

variable {sha : Text → δ} {order : List (ℕ × ℕ) → List (ℕ × ℕ)} {index : ℕ}
  (perm : ∀ l, (order l).Perm l)

include perm

/-- The loop over the places finds the piece in a place. -/
theorem Stored.occupant (stored : Stored w holes) (there : w.places p = some i) :
    w.occupant order i = some p := by
  have mem : ∀ p q, (p, q) ∈ w.items order ↔ w.places p = some q := by
    intro p q
    rw [items, (perm _).mem_iff, List.mem_filterMap]
    constructor
    · rintro ⟨p', -, found⟩
      obtain ⟨q', here, same⟩ := Option.map_eq_some_iff.1 found
      cases same
      exact here
    · intro here
      exact ⟨p, List.mem_range.2 (stored.layout.lt p q here).1, by rw [here]; rfl⟩
  rw [StorageWrapper.occupant]
  cases found : (w.items order).find? fun j => j.2 = i with
  | none =>
    have := List.find?_eq_none.1 found (p, i) ((mem p i).2 there)
    simp at this
  | some j =>
    have here := List.find?_some found
    simp only [decide_eq_true_eq] at here
    have at_ := (mem j.1 j.2).1 (List.mem_of_find?_eq_some found)
    rw [Option.some_or, Option.map_some, stored.layout.inj j.1 p i (here ▸ at_) there]

/-- A trade with the piece that is in a place. -/
theorem Stored.trade (stored : Stored w (h :: rest)) (lt : i < w.hashes.length)
    (new : w.places i = none) (nowhere : w.places h = none) (out : i ∉ h :: rest)
    (long : w.piecelen h = w.piece_size) :
    ∃ w', w.trade order i h (w.piecelen h) = some w' ∧ Stored w' rest ∧ Kept w w' ∧
      (w'.places i).isSome ∧
      w' = { w with storage := w'.storage, places := w'.places } := by
  obtain ⟨p, there⟩ := stored.layout.cover i lt out
  obtain ⟨swapped, kept⟩ := stored.swap rfl lt new nowhere there long
  refine ⟨_, by rw [StorageWrapper.trade, stored.occupant perm there]; rfl, swapped, kept, ?_, rfl⟩
  have ne : i ≠ p := by
    rintro rfl
    cases new.symm.trans there
  have own : Function.update (Function.update w.places i (some i)) p (some h) i = some i := by
    rw [Function.update_of_ne ne, Function.update_self]
  exact Option.isSome_of_eq_some own

/-- A piece without a place gets one at the hole that comes first, and no other piece is changed. -/
theorem settleAt_spec [DecidableEq δ] (sha : Text → δ) (stored : Stored w (h :: w.holes))
    (sorted : (h :: w.holes).Pairwise (· < ·)) (lt : index < w.hashes.length)
    (new : w.places index = none) (fresh : w.waspre h = false)
    (right : ∀ p q, w.have_ p → w.places p = some q → q ≠ p →
      some (sha (w.readPlace q (w.piecelen p))) = w.hashes[p]?) :
    ∃ w', settleAt sha order w h index = some (false, w') ∧ Stored w' w'.holes ∧ Kept w w' ∧
      (w'.places index).isSome ∧ w' = { w with storage := w'.storage, places := w'.places } := by
  rw [settleAt]
  cases away : w.places h with
  | some o =>
    have ne : o ≠ h := by
      rintro rfl
      exact stored.layout.free o o away List.mem_cons_self
    have fine : ¬ (w.have_ h ∧ some (sha (w.readPlace o (w.piecelen h))) ≠ w.hashes[h]?) :=
      fun bad => bad.2 (right h o bad.1 away ne)
    have other : index ≠ h := by
      rintro rfl
      cases new.symm.trans away
    obtain ⟨home, kept, full⟩ := stored.bring rfl away
    have long : w.piecelen o = w.piece_size := stored.piecelen_eq away ne
    have new' : (w.bring h o).places index = none := (Function.update_of_ne other ..).trans new
    have nowhere : (w.bring h o).places o = none := by
      rw [show (w.bring h o).places o = w.places o from Function.update_of_ne ne ..]
      cases there : w.places o with
      | none => rfl
      | some q =>
        have := stored.layout.free h o away
        have away' : q ≠ o := by
          rintro rfl
          exact ne (stored.layout.inj q h q there away)
        exact absurd (stored.layout.home o q there away') this
    dsimp only
    rw [if_neg fine]
    by_cases near : index = o ∨ index ∈ (w.bring h o).holes
    · obtain ⟨filled, kept'⟩ := home.fill rfl lt new' nowhere near (long ▸ home.piecelen_le) full
      rw [if_pos near]
      refine ⟨_, rfl, filled, kept.trans kept', ?_, rfl⟩
      exact Option.isSome_of_eq_some (Function.update_self ..)
    · rw [if_neg near]
      obtain ⟨w', traded, swapped, kept', placed, frame⟩ := home.trade perm lt new' nowhere
        (by rwa [List.mem_cons]) long
      have holes : w'.holes = w.holes := by
        rw [frame]
        rfl
      rw [show (w.bring h o).piece_size = (w.bring h o).piecelen o from long.symm, traded]
      exact ⟨w', rfl, holes ▸ swapped, kept.trans kept', placed, frame⟩
  | none =>
    dsimp only
    by_cases near : index ∈ w.holes ∨ index = h
    · rw [if_pos near]
      have small : w.piecelen index ≤ w.piecelen h := by
        rcases near with mem | rfl
        · rw [stored.piecelen_hole sorted (List.ne_nil_of_mem mem)]
          exact stored.piecelen_le
        · exact le_rfl
      have size : 0 + (List.replicate (w.piecelen h) (Char.ofNat 0xFF)).length ≤ w.piecelen h := by
        rw [List.length_replicate, Nat.zero_add]
      obtain ⟨written, kept⟩ := stored.writePlace List.mem_cons_self 0 size
      have full : (w.allocate h).Full h := by
        intro k less
        rw [allocate, if_neg (by rw [fresh]; exact Bool.false_ne_true)] at less ⊢
        rw [cellAt_writePlace stored.toSized (stored.layout.hole_lt h List.mem_cons_self) size
          (Nat.zero_le k) (by rw [List.length_replicate, Nat.zero_add]; exact less),
          List.getElem?_replicate, if_pos (by rw [Nat.sub_zero]; exact less), Option.isSome_some]
      have same : w.allocate h = w.writePlace h 0 (List.replicate (w.piecelen h) (Char.ofNat 0xFF)) :=
        if_neg (by rw [fresh]; exact Bool.false_ne_true)
      rw [same] at full ⊢
      obtain ⟨filled, kept'⟩ := written.fill rfl lt new away near.symm small full
      refine ⟨_, rfl, filled, kept.trans kept', ?_, rfl⟩
      exact Option.isSome_of_eq_some (Function.update_self ..)
    · rw [if_neg near]
      rw [not_or] at near
      have lt_h := stored.layout.hole_lt h List.mem_cons_self
      have more := stored.layout.rest_ne_nil lt new lt_h away near.2
      obtain ⟨w', traded, swapped, kept, placed, frame⟩ := stored.trade perm lt new away
        (by rw [List.mem_cons, not_or]; exact near.symm) (stored.piecelen_hole sorted more)
      have holes : w'.holes = w.holes := by
        rw [frame]
      rw [traded]
      exact ⟨w', rfl, holes ▸ swapped, kept, placed, frame⟩

/-- What is so after a piece without a place has got one. -/
structure Settled (w w' : StorageWrapper δ) (index : ℕ) : Prop where
  frame : w' = { w with storage := w'.storage, places := w'.places, holes := w.holes.tail }
  stored : Stored w' w'.holes
  kept : Kept w w'
  placed : (w'.places index).isSome

/-- A piece without a place gets one, and no other piece is changed. -/
theorem settle_spec [DecidableEq δ] (sha : Text → δ) (stored : Stored w w.holes)
    (sorted : w.holes.Pairwise (· < ·)) (lt : index < w.hashes.length) (new : w.places index = none)
    (fresh : ∀ h ∈ w.holes, w.waspre h = false)
    (right : ∀ p q, w.have_ p → w.places p = some q → q ≠ p →
      some (sha (w.readPlace q (w.piecelen p))) = w.hashes[p]?) :
    ∃ w', settle sha order w index = some (false, w') ∧ Settled w w' index := by
  obtain ⟨h, rest, cons⟩ := stored.layout.exists_hole lt new
  rw [settle, cons]
  have free := fresh h (cons ▸ List.mem_cons_self)
  rw [cons] at stored sorted
  have popped : Stored { w with holes := rest } (h :: rest) :=
    ⟨⟨stored.size_pos, stored.many, stored.low, stored.high, stored.total, stored.whole⟩,
      stored.layout, stored.full⟩
  obtain ⟨w', done, stored', kept, placed, frame⟩ := settleAt_spec perm sha popped sorted lt
    new free right
  refine ⟨w', done, ?_, stored', ⟨kept.placed, kept.data, kept.home, kept.piecelen,
    kept.waspre⟩, placed⟩
  rw [cons]
  exact frame

end Settle

end Ydfs.BitTorrent.StorageWrapper
