import Mathlib.Algebra.BigOperators.Ring.Finset
import Mathlib.Algebra.GroupWithZero.Nat
import Mathlib.Algebra.Order.BigOperators.Group.Finset
import Mathlib.Data.List.Perm.Subperm
import Ydfs.BitTorrent.PiecePlaces

/-!
# The blocks of the pieces

A piece that has been begun is cut into blocks, and each block is to be requested, or has been
requested, or has come in.  The amounts that a wrapper keeps are the sums of what they stand for
(`Ledger`).
-/

namespace Ydfs.BitTorrent.StorageWrapper

open Wubi.Sax (Text)

/-! ### Blocks -/

/-- Blocks of at most a size, one behind the other from `x` to `t`. -/
def Tiles (size : ℕ) (x : ℕ) : List (ℕ × ℕ) → ℕ → Prop
  | [], t => x = t
  | r :: l, t => r.1 = x ∧ 0 < r.2 ∧ r.2 ≤ size ∧ Tiles size (x + r.2) l t

section Tiles

variable {size x t k : ℕ} {l : List (ℕ × ℕ)} {r s : ℕ × ℕ}

theorem blocksFrom_tiles (pos : 0 < size) {length : ℕ} (fuel : ℕ) (less : x < length)
    (enough : length - x ≤ fuel) : Tiles size x (blocksFrom size length fuel x) length := by
  induction fuel generalizing x with
  | zero => omega
  | succ fuel ih =>
    rw [blocksFrom]
    split_ifs with more
    · exact ⟨rfl, pos, le_rfl, ih more (by omega)⟩
    · exact ⟨rfl, by dsimp only; omega, by dsimp only; omega, by dsimp only [Tiles]; omega⟩

theorem Tiles.sum (h : Tiles size x l t) : x + (l.map (·.2)).sum = t := by
  induction l generalizing x with
  | nil => exact h
  | cons r l ih =>
    rw [List.map_cons, List.sum_cons, ← Nat.add_assoc]
    exact ih h.2.2.2

theorem Tiles.bounds (h : Tiles size x l t) (mem : r ∈ l) : x ≤ r.1 ∧ 0 < r.2 ∧ r.1 + r.2 ≤ t := by
  induction l generalizing x with
  | nil => cases mem
  | cons s l ih =>
    obtain ⟨rfl, pos, -, rest⟩ := h
    rcases List.mem_cons.1 mem with rfl | mem
    · have := rest.sum
      exact ⟨le_rfl, pos, by omega⟩
    · have := ih rest mem
      exact ⟨by omega, this.2⟩

theorem Tiles.nodup (h : Tiles size x l t) : l.Nodup := by
  induction l generalizing x with
  | nil => exact List.nodup_nil
  | cons r l ih =>
    refine List.nodup_cons.2 ⟨fun mem => ?_, ih h.2.2.2⟩
    have := (h.2.2.2.bounds mem).1
    have := h.1
    have := h.2.1
    omega

/-- Two blocks have no byte in common. -/
theorem Tiles.disjoint (h : Tiles size x l t) (mem : r ∈ l) (mem' : s ∈ l) (ne : r ≠ s) :
    r.1 + r.2 ≤ s.1 ∨ s.1 + s.2 ≤ r.1 := by
  induction l generalizing x with
  | nil => cases mem
  | cons b l ih =>
    have first := h.1
    rcases List.mem_cons.1 mem with same | old <;> rcases List.mem_cons.1 mem' with same' | old'
    · exact absurd (same.trans same'.symm) ne
    · have := (h.2.2.2.bounds old').1
      exact .inl (by rw [same]; omega)
    · have := (h.2.2.2.bounds old).1
      exact .inr (by rw [same']; omega)
    · exact ih h.2.2.2 old old'

/-- Every byte is in a block. -/
theorem Tiles.exists (h : Tiles size x l t) (low : x ≤ k) (high : k < t) :
    ∃ r ∈ l, r.1 ≤ k ∧ k < r.1 + r.2 := by
  induction l generalizing x with
  | nil => exact absurd (h ▸ high) (Nat.not_lt.2 low)
  | cons r l ih =>
    by_cases here : k < x + r.2
    · exact ⟨r, List.mem_cons_self, by rw [h.1]; exact low, by rw [h.1]; exact here⟩
    · obtain ⟨s, mem, bounds⟩ := ih h.2.2.2 (by omega)
      exact ⟨s, List.mem_cons_of_mem r mem, bounds⟩

end Tiles

/-! ### Outstanding requests -/

/-- The blocks of a piece among requests. -/
def outOf (out : List (ℕ × ℕ × ℕ)) (p : ℕ) : List (ℕ × ℕ) := (out.filter (·.1 = p)).map (·.2)

section OutOf

variable {out out' : List (ℕ × ℕ × ℕ)} {p q : ℕ} {r : ℕ × ℕ}

theorem outOf_perm (h : out.Perm out') (p : ℕ) : (outOf out p).Perm (outOf out' p) :=
  (h.filter _).map _

@[simp]
theorem outOf_cons_self : outOf ((p, r) :: out) p = r :: outOf out p := by
  rw [outOf, List.filter_cons_of_pos (by simp)]
  rfl

theorem outOf_cons_ne (ne : p ≠ q) : outOf ((p, r) :: out) q = outOf out q := by
  rw [outOf, List.filter_cons_of_neg (by simpa using ne)]
  rfl

theorem mem_outOf : r ∈ outOf out p ↔ (p, r) ∈ out := by
  rw [outOf, List.mem_map]
  constructor
  · rintro ⟨⟨q, s⟩, mem, rfl⟩
    obtain ⟨mem, same⟩ := List.mem_filter.1 mem
    exact of_decide_eq_true same ▸ mem
  · intro mem
    exact ⟨(p, r), List.mem_filter.2 ⟨mem, by simp⟩, rfl⟩

end OutOf

variable {δ : Type} {w : StorageWrapper δ} {out : List (ℕ × ℕ × ℕ)} {p q : ℕ} {r : ℕ × ℕ}
  {l : List (ℕ × ℕ)}

/-- The blocks that a piece is cut into -/
def blocks (w : StorageWrapper δ) (p : ℕ) : List (ℕ × ℕ) :=
  blocksFrom w.request_size (w.piecelen p) (w.piecelen p) 0

theorem Sized.blocks_tiles (sized : Sized w) (pos : 0 < w.request_size) (lt : p < w.hashes.length) :
    Tiles w.request_size 0 (w.blocks p) (w.piecelen p) :=
  blocksFrom_tiles pos _ (sized.piecelen_pos lt) le_rfl

/-- `_make_inactive` cuts the piece into its blocks. -/
theorem Sized.make_inactive (sized : Sized w) (lt : p < w.hashes.length) : w.make_inactive p =
    { w with inactive_requests := Function.update w.inactive_requests p (.blocks (w.blocks p)) } := by
  have size : min w.piece_size (w.total_length - w.piece_size * p) = w.piecelen p := by
    have place := sized.place_le lt
    have le := sized.piecelen_le (p := p)
    rw [piecelen] at place le ⊢
    split_ifs at place le ⊢
    · omega
    · rw [Nat.mul_comm p] at place le ⊢
      omega
  rw [StorageWrapper.make_inactive, size]
  rfl

/-- The bytes of a piece that are to be requested -/
def waiting (w : StorageWrapper δ) (p : ℕ) : ℕ :=
  match w.inactive_requests p with
  | .all => w.piecelen p
  | .blocks l => (l.map (·.2)).sum
  | .none => 0

/-- The bytes of a piece that is not there -/
def lacking (w : StorageWrapper δ) (p : ℕ) : ℕ := if w.have_ p then 0 else w.piecelen p

/-- The blocks of one piece: those that are to be requested and those that have been are among them. -/
structure PieceLedger (w : StorageWrapper δ) (out : List (ℕ × ℕ × ℕ)) (p : ℕ) : Prop where
  number : w.numactive p = (outOf out p).length
  all : w.inactive_requests p = .all → w.have_ p = false ∧ outOf out p = []
  begun : ∀ l, w.inactive_requests p = .blocks l → w.have_ p = false ∧
    (l ++ outOf out p).Subperm (w.blocks p)
  got : w.inactive_requests p = .none → w.have_ p = true ∧ outOf out p = []

theorem PieceLedger.shared {out : List (ℕ × ℕ × ℕ)} {p : ℕ} (ledger : PieceLedger w out p) :
    match w.inactive_requests p with
      | .blocks l => (l ++ outOf out p).Subperm (w.blocks p)
      | .all | .none => outOf out p = [] := by
  split
  next l is => exact (ledger.begun l is).2
  next is => exact (ledger.all is).2
  next is => exact (ledger.got is).2

/-- The amounts of a wrapper, and its requests `out` that are neither lost nor answered. -/
structure Ledger (w : StorageWrapper δ) (out : List (ℕ × ℕ × ℕ)) : Prop where
  known : ∀ r ∈ out, r.1 < w.hashes.length
  piece : ∀ p, PieceLedger w out p
  left : w.amount_left = ∑ p ∈ Finset.range w.hashes.length, (w.lacking p : ℤ)
  inactive : w.amount_inactive = ∑ p ∈ Finset.range w.hashes.length, (w.waiting p : ℤ)
  ends : w.endgame = false → 0 < w.amount_inactive ∨ w.amount_left = 0

/-- A piece that has been begun has a block that is to be requested or to come. -/
def Live (w : StorageWrapper δ) (out : List (ℕ × ℕ × ℕ)) (p : ℕ) : Prop :=
  ∀ l, w.inactive_requests p = .blocks l → l ++ outOf out p ≠ []

/-- A sum after the value at one place has changed. -/
theorem sum_update {n : ℕ} {f g : ℕ → ℤ} (lt : p < n) (same : ∀ q, q ≠ p → g q = f q) :
    ∑ q ∈ Finset.range n, g q = (∑ q ∈ Finset.range n, f q) - f p + g p := by
  have mem := Finset.mem_range.2 lt
  have before := Finset.add_sum_erase (Finset.range n) (fun q => f q) mem
  have after := Finset.add_sum_erase (Finset.range n) (fun q => g q) mem
  have rest : ∑ q ∈ (Finset.range n).erase p, g q = ∑ q ∈ (Finset.range n).erase p, f q :=
    Finset.sum_congr rfl fun q there => same q (Finset.ne_of_mem_erase there)
  omega

theorem Ledger.perm {out' : List (ℕ × ℕ × ℕ)} (ledger : Ledger w out) (h : out.Perm out') :
    Ledger w out' := by
  have same := fun p => outOf_perm h p
  have none : ∀ p, outOf out p = [] → outOf out' p = [] := fun p e =>
    List.perm_nil.1 ((same p).symm.trans (e ▸ List.Perm.refl _))
  refine ⟨fun r mem => ledger.known r (h.mem_iff.2 mem), fun p => ?_, ledger.left, ledger.inactive,
    ledger.ends⟩
  obtain ⟨number, all, begun, got⟩ := ledger.piece p
  refine ⟨?_, fun e => ⟨(all e).1, none p (all e).2⟩, fun l e => ⟨(begun l e).1, ?_⟩,
    fun e => ⟨(got e).1, none p (got e).2⟩⟩
  · rw [number, (same p).length_eq]
  · exact ((same p).append_left l).subperm_right.1 (begun l e).2

/-- The wrappers and the requests do not differ at a piece. -/
structure Alike (w w' : StorageWrapper δ) (out out' : List (ℕ × ℕ × ℕ)) (q : ℕ) : Prop where
  number : w'.numactive q = w.numactive q
  inactive : w'.inactive_requests q = w.inactive_requests q
  have_ : w'.have_ q = w.have_ q
  out : outOf out' q = outOf out q

/-- Wrappers of the same torrent -/
structure SameTorrent (w w' : StorageWrapper δ) : Prop where
  hashes : w'.hashes = w.hashes
  request_size : w'.request_size = w.request_size
  piecelen : w'.piecelen = w.piecelen

theorem PieceLedger.congr {w' : StorageWrapper δ} {out' : List (ℕ × ℕ × ℕ)}
    (h : PieceLedger w out q) (torrent : SameTorrent w w') (alike : Alike w w' out out' q) :
    PieceLedger w' out' q := by
  have blocks : w'.blocks q = w.blocks q := by
    rw [StorageWrapper.blocks, torrent.request_size, torrent.piecelen]
    rfl
  constructor
  · rw [alike.number, alike.out]
    exact h.number
  · rw [alike.inactive, alike.have_, alike.out]
    exact h.all
  · rw [alike.inactive, alike.have_, alike.out, blocks]
    exact h.begun
  · rw [alike.inactive, alike.have_, alike.out]
    exact h.got

/-- A ledger after something has changed at one piece. -/
theorem Ledger.change {w' : StorageWrapper δ} {out' : List (ℕ × ℕ × ℕ)} (ledger : Ledger w out)
    (lt : p < w.hashes.length) (torrent : SameTorrent w w')
    (alike : ∀ q, q ≠ p → Alike w w' out out' q) (known : ∀ r ∈ out', r.1 < w.hashes.length)
    (piece : PieceLedger w' out' p)
    (left : w'.amount_left = w.amount_left - w.lacking p + w'.lacking p)
    (inactive : w'.amount_inactive = w.amount_inactive - w.waiting p + w'.waiting p)
    (ends : w'.endgame = false → 0 < w'.amount_inactive ∨ w'.amount_left = 0) : Ledger w' out' := by
  refine ⟨by rw [torrent.hashes]; exact known, fun q => ?_, ?_, ?_, ends⟩
  · by_cases same : q = p
    · exact same ▸ piece
    · exact (ledger.piece q).congr torrent (alike q same)
  · rw [left, torrent.hashes, ledger.left]
    refine (sum_update (f := fun q => (w.lacking q : ℤ)) (g := fun q => (w'.lacking q : ℤ)) lt
      fun q ne => ?_).symm
    rw [lacking, (alike q ne).have_, torrent.piecelen, lacking]
  · rw [inactive, torrent.hashes, ledger.inactive]
    refine (sum_update (f := fun q => (w.waiting q : ℤ)) (g := fun q => (w'.waiting q : ℤ)) lt
      fun q ne => ?_).symm
    rw [waiting, (alike q ne).inactive, torrent.piecelen, waiting]

theorem Ledger.waiting_le (ledger : Ledger w out) (lt : p < w.hashes.length) :
    (w.waiting p : ℤ) ≤ w.amount_inactive := by
  rw [ledger.inactive]
  exact Finset.single_le_sum (f := fun p => (w.waiting p : ℤ)) (fun q _ => Int.natCast_nonneg _)
    (Finset.mem_range.2 lt)

/-- Where nothing is left there is every piece. -/
theorem Ledger.left_eq_zero (ledger : Ledger w out) (sized : Sized w) :
    w.amount_left = 0 ↔ ∀ p, p < w.hashes.length → w.have_ p = true := by
  rw [ledger.left, Finset.sum_eq_zero_iff_of_nonneg fun p _ => Int.natCast_nonneg _]
  constructor
  · intro none p lt
    have here := none p (Finset.mem_range.2 lt)
    have pos := sized.piecelen_pos lt
    by_contra lacks
    rw [lacking, if_neg lacks] at here
    omega
  · intro all p mem
    rw [lacking, if_pos (all p (Finset.mem_range.1 mem))]
    rfl

/-! ### New requests -/

/-- A piece is begun: all of its blocks are to be requested. -/
theorem Ledger.make_inactive (ledger : Ledger w out) (sized : Sized w) (pos : 0 < w.request_size)
    (lt : p < w.hashes.length) (all : w.inactive_requests p = .all) :
    Ledger (w.make_inactive p) out := by
  have here : (w.make_inactive p).inactive_requests p = .blocks (w.blocks p) := by
    rw [sized.make_inactive lt]
    exact Function.update_self ..
  have total := (sized.blocks_tiles pos lt).sum
  have old := (ledger.piece p).all all
  rw [Nat.zero_add] at total
  refine ledger.change lt ⟨rfl, rfl, rfl⟩
    (fun q ne => ⟨rfl, Function.update_of_ne ne .., rfl, rfl⟩) ledger.known
    ⟨(ledger.piece p).number, ?_, ?_, ?_⟩ ?_ ?_ ledger.ends
  · rw [here]
    exact nofun
  · intro l is
    rw [here, Inactive.blocks.injEq] at is
    rw [← is, old.2, List.append_nil]
    exact ⟨old.1, List.Subperm.refl _⟩
  · rw [here]
    exact nofun
  · exact (Int.sub_add_cancel ..).symm
  · simp only [waiting, here, all, total]
    exact (Int.sub_add_cancel ..).symm

/-- The least block is one of them. -/
theorem foldl_minBlock_mem (b : ℕ × ℕ) (l : List (ℕ × ℕ)) : l.foldl minBlock b ∈ b :: l := by
  induction l generalizing b with
  | nil => exact List.mem_cons_self
  | cons c l ih =>
    have here := ih (minBlock b c)
    rw [List.foldl_cons]
    rcases List.mem_cons.1 here with same | mem
    · rw [same, minBlock]
      split_ifs <;> simp
    · simp [mem]

/-- What has changed by a request: a block that was to be requested is outstanding. -/
structure Requested (w w' : StorageWrapper δ) (p : ℕ) (r : ℕ × ℕ) : Prop where
  frame : w' = { w with
    numactive := w'.numactive
    inactive_requests := w'.inactive_requests
    amount_inactive := w'.amount_inactive
    endgame := w'.endgame }
  mem : r ∈ w.blocks p
  endgame : w.endgame = true → w'.endgame = true
  /-- What is to be requested of the piece, before and after. -/
  inactive : ∃ l, (w.inactive_requests p = .blocks l ∨ w.inactive_requests p = .all ∧ l = w.blocks p) ∧
    r ∈ l ∧ w'.inactive_requests p = .blocks (l.erase r)
  others : ∀ q, q ≠ p → w'.inactive_requests q = w.inactive_requests q

/-- A request for one of the blocks that are to be requested. -/
theorem Ledger.request (ledger : Ledger w out) (lt : p < w.hashes.length)
    (here : w.inactive_requests p = .blocks l) (ne : l ≠ []) :
    ∃ r w', w.new_request p = some (r, w') ∧ Requested w w' p r ∧ Ledger w' ((p, r) :: out) ∧
      Live w' ((p, r) :: out) p := by
  obtain ⟨b, l, rfl⟩ := List.exists_cons_of_ne_nil ne
  have mem := foldl_minBlock_mem b l
  generalize hr : l.foldl minBlock b = r at mem
  obtain ⟨lacks, among⟩ := (ledger.piece p).begun _ here
  have total : ((b :: l).map (·.2)).sum = r.2 + (((b :: l).erase r).map (·.2)).sum := by
    rw [← List.sum_cons, ← List.map_cons]
    exact ((List.perm_cons_erase mem).map _).sum_eq
  have step : w.new_request p = some (r, { w with
      numactive := Function.update w.numactive p (w.numactive p + 1)
      inactive_requests := Function.update w.inactive_requests p (.blocks ((b :: l).erase r))
      amount_inactive := w.amount_inactive - r.2
      endgame := if w.amount_inactive - r.2 = 0 then true else w.endgame }) := by
    rw [new_request, if_neg (by rw [here]; exact nofun)]
    simp only [here, hr]
  have after : ∀ l', Function.update w.inactive_requests p (.blocks ((b :: l).erase r)) p =
      .blocks l' → (b :: l).erase r = l' := by
    intro l' is
    rwa [Function.update_self, Inactive.blocks.injEq] at is
  have block := among.subset (List.mem_append_left _ mem)
  refine ⟨r, _, step, ⟨rfl, block, fun on => ?_, ⟨_, .inl here, mem, Function.update_self ..⟩,
    fun q ne => Function.update_of_ne ne ..⟩, ?_, fun l' is => ?_⟩
  · dsimp only
    rw [on]
    split_ifs <;> rfl
  · refine ledger.change lt ⟨rfl, rfl, rfl⟩ (fun q ne => ⟨Function.update_of_ne ne ..,
      Function.update_of_ne ne .., rfl, outOf_cons_ne ne.symm⟩) (fun s mem => ?_) ⟨?_, ?_, ?_, ?_⟩ ?_ ?_ ?_
    · rcases List.mem_cons.1 mem with rfl | mem
      · exact lt
      · exact ledger.known s mem
    · dsimp only
      rw [Function.update_self, outOf_cons_self, (ledger.piece p).number]
      rfl
    · dsimp only
      rw [Function.update_self]
      exact nofun
    · intro l' is
      rw [← after l' is, outOf_cons_self]
      have moved := List.perm_middle.trans
        ((List.perm_cons_erase mem).symm.append_right (outOf out p))
      exact ⟨lacks, moved.subperm_right.2 among⟩
    · dsimp only
      rw [Function.update_self]
      exact nofun
    · exact (Int.sub_add_cancel ..).symm
    · simp only [waiting, here, Function.update_self, total, Nat.cast_add]
      omega
    · intro off
      have room := ledger.waiting_le lt
      have whole : w.waiting p = r.2 + (((b :: l).erase r).map (·.2)).sum := by
        rw [waiting, here]
        exact total
      have some : w.amount_inactive - r.2 ≠ 0 := fun zero => by simp [zero] at off
      exact .inl (by dsimp only; omega)
  · rw [outOf_cons_self]
    exact List.append_ne_nil_of_right_ne_nil _ (List.cons_ne_nil _ _)

/-- A piece that has requests can be asked for one. -/
theorem Ledger.new_request (ledger : Ledger w out) (sized : Sized w) (pos : 0 < w.request_size)
    (lt : p < w.hashes.length) (asks : w.do_I_have_requests p) :
    ∃ r w', w.new_request p = some (r, w') ∧ Requested w w' p r ∧ Ledger w' ((p, r) :: out) ∧
      Live w' ((p, r) :: out) p := by
  rw [do_I_have_requests] at asks
  cases here : w.inactive_requests p with
  | none => simp [here] at asks
  | blocks l =>
    have ne : l ≠ [] := by
      rintro rfl
      simp [here] at asks
    exact ledger.request lt here ne
  | all =>
    have made := ledger.make_inactive sized pos lt here
    have cut : (w.make_inactive p).inactive_requests p = .blocks (w.blocks p) := by
      rw [sized.make_inactive lt]
      exact Function.update_self ..
    have ne : w.blocks p ≠ [] := by
      have tiles := sized.blocks_tiles pos lt
      have long := sized.piecelen_pos lt
      intro none
      rw [none] at tiles
      exact absurd tiles long.ne
    obtain ⟨r, w', step, asked, kept, live⟩ := made.request lt cut ne
    refine ⟨r, w', ?_, ⟨asked.frame, asked.mem, asked.endgame, ?_, fun q ne => ?_⟩, kept, live⟩
    · rw [← step, StorageWrapper.new_request, if_pos here, StorageWrapper.new_request,
        if_neg (by rw [cut]; exact nofun)]
    · obtain ⟨l, old, mem, new⟩ := asked.inactive
      refine ⟨l, .inr ⟨here, ?_⟩, mem, new⟩
      rcases old with same | ⟨same, -⟩
      · rw [cut, Inactive.blocks.injEq] at same
        exact same.symm
      · rw [cut] at same
        cases same
    · rw [asked.others q ne]
      exact Function.update_of_ne ne ..

/-! ### Requests that are lost, and blocks that come in -/

/-- The piece of a request has been begun. -/
theorem Ledger.blocks_of_out (ledger : Ledger w out) (mem : (p, r) ∈ out) :
    p < w.hashes.length ∧ r ∈ w.blocks p ∧ ∃ l, w.inactive_requests p = .blocks l := by
  have here := mem_outOf.2 mem
  have piece := ledger.piece p
  refine ⟨ledger.known _ mem, ?_⟩
  cases is : w.inactive_requests p with
  | all => simp [(piece.all is).2] at here
  | none => simp [(piece.got is).2] at here
  | blocks l => exact ⟨(piece.begun l is).2.subset (List.mem_append_right l here), l, rfl⟩

/-- What has changed by a request that is lost. -/
structure Lost (w w' : StorageWrapper δ) (p : ℕ) (r : ℕ × ℕ) : Prop where
  frame : w' = { w with
    numactive := w'.numactive
    inactive_requests := w'.inactive_requests
    amount_inactive := w'.amount_inactive }
  inactive : ∃ l, w.inactive_requests p = .blocks l ∧ w'.inactive_requests p = .blocks (l ++ [r])
  others : ∀ q, q ≠ p → w'.inactive_requests q = w.inactive_requests q

/-- The block of a request that is lost is to be requested again. -/
theorem Ledger.request_lost (ledger : Ledger w ((p, r) :: out)) (pos : 0 < r.2) :
    ∃ w', w.request_lost p r.1 r.2 = some w' ∧ Lost w w' p r ∧ Ledger w' out ∧ Live w' out p := by
  obtain ⟨lt, -, l, here⟩ := ledger.blocks_of_out List.mem_cons_self
  obtain ⟨lacks, among⟩ := (ledger.piece p).begun l here
  have step : w.request_lost p r.1 r.2 = some { w with
      inactive_requests := Function.update w.inactive_requests p (.blocks (l ++ [(r.1, r.2)]))
      amount_inactive := w.amount_inactive + r.2
      numactive := Function.update w.numactive p (w.numactive p - 1) } := by
    rw [StorageWrapper.request_lost]
    simp only [here]
  have after : ∀ l', Function.update w.inactive_requests p (.blocks (l ++ [(r.1, r.2)])) p =
      .blocks l' → l ++ [r] = l' := by
    intro l' is
    rwa [Function.update_self, Inactive.blocks.injEq] at is
  have room := ledger.waiting_le lt
  refine ⟨_, step, ⟨rfl, ⟨l, here, Function.update_self ..⟩, fun q ne => Function.update_of_ne ne ..⟩,
    ?_, fun l' is => ?_⟩
  · refine ledger.change lt ⟨rfl, rfl, rfl⟩ (fun q ne => ⟨Function.update_of_ne ne ..,
      Function.update_of_ne ne .., rfl, (outOf_cons_ne ne.symm).symm⟩)
      (fun s mem => ledger.known s (List.mem_cons_of_mem _ mem)) ⟨?_, ?_, ?_, ?_⟩ ?_ ?_ ?_
    · dsimp only
      rw [Function.update_self, (ledger.piece p).number, outOf_cons_self, List.length_cons]
      omega
    · dsimp only
      rw [Function.update_self]
      exact nofun
    · intro l' is
      rw [← after l' is, List.append_assoc]
      rw [outOf_cons_self] at among
      exact ⟨lacks, among⟩
    · dsimp only
      rw [Function.update_self]
      exact nofun
    · exact (Int.sub_add_cancel ..).symm
    · simp only [waiting, here, Function.update_self, List.map_append, List.map_cons, List.map_nil,
        List.sum_append, List.sum_cons, List.sum_nil, Nat.cast_add, Nat.add_zero]
      omega
    · exact fun _ => .inl (by dsimp only; omega)
  · rw [← after l' is]
    simp

/-- A request that has been answered is not outstanding any more. -/
theorem Ledger.answered (ledger : Ledger w ((p, r) :: out)) :
    Ledger { w with numactive := Function.update w.numactive p (w.numactive p - 1) } out := by
  obtain ⟨lt, -, l, here⟩ := ledger.blocks_of_out List.mem_cons_self
  obtain ⟨lacks, among⟩ := (ledger.piece p).begun l here
  refine ledger.change lt ⟨rfl, rfl, rfl⟩ (fun q ne => ⟨Function.update_of_ne ne .., rfl, rfl,
    (outOf_cons_ne ne.symm).symm⟩) (fun s mem => ledger.known s (List.mem_cons_of_mem _ mem))
    ⟨?_, ?_, ?_, ?_⟩ (Int.sub_add_cancel ..).symm (Int.sub_add_cancel ..).symm ledger.ends
  · dsimp only
    rw [Function.update_self, (ledger.piece p).number, outOf_cons_self, List.length_cons]
    omega
  · dsimp only
    rw [here]
    exact nofun
  · intro l' is
    rw [outOf_cons_self] at among
    obtain rfl : l = l' := Inactive.blocks.inj (here.symm.trans is)
    exact ⟨lacks, ((List.sublist_cons_self ..).append_left l).subperm.trans among⟩
  · dsimp only
    rw [here]
    exact nofun

/-! ### The check of a piece -/

section Check

variable [DecidableEq δ] {sha : Text → δ} {pos : ℕ}

/-- The check of a piece that all blocks have come of: it is there, or it is to be requested from the
beginning. -/
theorem Ledger.check (sha : Text → δ) (pos : ℕ) (ledger : Ledger w out) (sized : Sized w) (lt : p < w.hashes.length)
    (here : w.inactive_requests p = .blocks []) (none : outOf out p = []) :
    Ledger (w.check sha p pos).2 out ∧ Live (w.check sha p pos).2 out p := by
  have piece := ledger.piece p
  have lacks := (piece.begun [] here).1
  have long := sized.piecelen_pos lt
  have room := ledger.waiting_le lt
  rw [StorageWrapper.check]
  by_cases same : some (sha (w.readPlace pos (w.piecelen p))) = w.hashes[p]?
  · rw [if_pos same]
    have got : Ledger { w with
        have_ := Function.update w.have_ p true
        inactive_requests := Function.update w.inactive_requests p .none
        waschecked := Function.update w.waschecked p true
        amount_left := w.amount_left - w.piecelen p } out := by
      refine ledger.change lt ⟨rfl, rfl, rfl⟩ (fun q ne => ⟨rfl, Function.update_of_ne ne ..,
        Function.update_of_ne ne .., rfl⟩) ledger.known ⟨piece.number, ?_, ?_, fun _ => ?_⟩ ?_ ?_ ?_
      · dsimp only
        rw [Function.update_self]
        exact nofun
      · dsimp only
        rw [Function.update_self]
        exact nofun
      · exact ⟨Function.update_self .., none⟩
      · simp only [lacking, lacks, Function.update_self]
        simp
      · simp [waiting, here]
      · intro off
        rcases ledger.ends off with more | zero
        · exact .inl more
        · refine absurd ((ledger.left_eq_zero sized).1 zero p lt) ?_
          rw [lacks]
          exact Bool.false_ne_true
    have live : Live { w with
        have_ := Function.update w.have_ p true
        inactive_requests := Function.update w.inactive_requests p .none
        waschecked := Function.update w.waschecked p true
        amount_left := w.amount_left - w.piecelen p } out p := by
      intro l is
      dsimp only at is
      rw [Function.update_self] at is
      cases is
    dsimp only
    split_ifs
    · exact ⟨⟨got.known, fun q => ⟨(got.piece q).number, (got.piece q).all, (got.piece q).begun,
        (got.piece q).got⟩, got.left, got.inactive, got.ends⟩, live⟩
    · exact ⟨got, live⟩
  · rw [if_neg same]
    refine ⟨ledger.change lt ⟨rfl, rfl, rfl⟩ (fun q ne => ⟨rfl, Function.update_of_ne ne .., rfl,
      rfl⟩) ledger.known ⟨piece.number, fun _ => ⟨lacks, none⟩, ?_, ?_⟩
      (Int.sub_add_cancel ..).symm ?_ ?_, ?_⟩
    · dsimp only
      rw [Function.update_self]
      exact nofun
    · dsimp only
      rw [Function.update_self]
      exact nofun
    · simp only [waiting, here, Function.update_self]
      simp [piecelen, call]
    · intro _
      left
      change 0 < w.amount_inactive + (w.piecelen p : ℤ)
      omega
    · intro l is
      dsimp only at is
      rw [Function.update_self] at is
      cases is

end Check

end Ydfs.BitTorrent.StorageWrapper
