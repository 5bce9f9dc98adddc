import Mathlib.Data.Bool.Count
import Ydfs.Arithmetic.Bits
import Ydfs.Text.Bytes
import Ydfs.Wubi.MetalinkParts

/-!
# Which pieces a peer has

A `Bitfield` has a bit for each piece; as a string of bytes it is padded with zeros, and from the other
strings none is made (`init_eq_some`).  The number of pieces that are missing is kept along with the bits.
-/

namespace Ydfs.BitTorrent

open Wubi.Sax (Text)

/-- A `Bitfield`, which counts the pieces that are missing -/
@[ext]
structure Bitfield where
  length : ℕ
  array : List Bool
  numfalse : ℤ
  sized : array.length = length
  counted : numfalse = array.count false

namespace Bitfield

/-! ### The model of the source -/

/-- The loop of `_int_to_booleans` -/
def booleans : ℕ → ℕ → List Bool
  | 0, _ => []
  | i + 1, x => (x &&& 0x80 != 0) :: booleans i (x <<< 1)

/-- `_int_to_booleans`, from which the `lookup_table` is made -/
def int_to_booleans (x : ℕ) : List Bool := booleans 8 x

/-- `reverse_lookup_table`, in which later keys replace earlier ones; `none` is for a `KeyError`. -/
def reverse_lookup_table (t : List Bool) : Option Char :=
  ((List.range 256).reverse.find? fun i => int_to_booleans i == t).map Char.ofNat

def negsum (a : List Bool) : ℤ := a.length - a.count true

theorem length_booleans (i x : ℕ) : (booleans i x).length = i := by
  induction i generalizing x with
  | zero => rfl
  | succ i ih => rw [booleans, List.length_cons, ih]

/-- The bits of all bytes -/
def unpack (s : Text) : List Bool := s.flatMap fun c => int_to_booleans c.toNat

theorem length_unpack (s : Text) : (unpack s).length = s.length * 8 := by
  induction s with
  | nil => rfl
  | cons c s ih =>
    rw [unpack, List.flatMap_cons, List.length_append, ← unpack, ih, int_to_booleans, length_booleans,
      List.length_cons]
    omega

theorem negsum_eq (a : List Bool) : negsum a = a.count false := by
  have both := a.count_true_add_count_false
  rw [negsum]
  omega

/-- `Bitfield.__init__`, of a length alone -/
def blank (length : ℕ) : Bitfield where
  length := length
  array := List.replicate length false
  numfalse := length
  sized := List.length_replicate
  counted := by rw [List.count_replicate_self]

/-- `Bitfield.__init__`, of a string of bytes; `none` is for a `ValueError`. -/
def init (length : ℕ) (bitstring : Text) : Option Bitfield :=
  let extra : ℤ := bitstring.length * 8 - length
  if bound : extra < 0 ∨ 8 ≤ extra then none
  else
    let r := unpack bitstring
    let used := r.length - extra.toNat
    if 0 < extra ∧ r.drop used ≠ List.replicate extra.toNat false then none
    else some {
      length := length
      array := r.take used
      numfalse := negsum (r.take used)
      sized := by
        simp only [List.length_take, used, r, length_unpack, extra] at bound ⊢
        omega
      counted := negsum_eq _ }

/-- `__getitem__`, at an index that there is -/
def get (b : Bitfield) (index : ℕ) : Bool := b.array.getD index false

/-- `__setitem__`, at an index that there is -/
def set (b : Bitfield) (index : ℕ) (val : Bool) (there : index < b.length) : Bitfield where
  length := b.length
  array := b.array.set index val
  numfalse := b.numfalse + ((b.get index).toNat - val.toNat)
  sized := by rw [List.length_set, b.sized]
  counted := by
    have room : index < b.array.length := b.sized ▸ there
    have old := List.count_pos_iff (a := b.array[index]).2 (List.getElem_mem room)
    rw [b.counted, List.count_set room, get, List.getD_eq_getElem _ _ room]
    cases val <;> cases here : b.array[index] <;> rw [here] at old <;> simp <;> omega

/-- `tostring` -/
def tostring (b : Bitfield) : Option Text := do
  let s := b.array.length % 8
  let r ← (List.range' 0 ((b.array.length - s) / 8) 8).mapM fun x =>
    reverse_lookup_table ((b.array.drop x).take 8)
  if s ≠ 0 then
    let c ← reverse_lookup_table (b.array.drop (b.array.length - s) ++ List.replicate (8 - s) false)
    return r ++ [c]
  else return r

/-- `complete` -/
def complete (b : Bitfield) : Bool := b.numfalse == 0

/-! ### Strings of bytes -/

variable {b : Bitfield} {s : Text} {c : Char} {t : List Bool} {n : ℕ}

theorem booleans_eq (x : ℕ) {i j : ℕ} (all : i + j = 8) : booleans i (x <<< j) = Bits.bits i x := by
  induction i generalizing j with
  | zero => rfl
  | succ i ih =>
    have top : (x <<< j &&& 0x80 != 0) = x.testBit i := by
      have bit : (x <<< j &&& 2 ^ 7 != 0) = (x <<< j).testBit 7 := by
        rw [Nat.and_two_pow]
        cases (x <<< j).testBit 7 <;> rfl
      rw [show (0x80 : ℕ) = 2 ^ 7 from rfl, bit, Nat.testBit_shiftLeft]
      have low : j ≤ 7 := by omega
      rw [decide_eq_true low, Bool.true_and, show 7 - j = i by omega]
    rw [booleans, top, ← Nat.shiftLeft_add, ih (by omega), Bits.bits]

theorem int_to_booleans_eq (x : ℕ) : int_to_booleans x = Bits.bits 8 x :=
  booleans_eq x (i := 8) (j := 0) rfl

theorem reverse_lookup_table_eq : reverse_lookup_table t = some c ↔
    Bits.bits 8 c.toNat = t ∧ c.toNat < 256 := by
  have injective {i j : ℕ} (hi : i < 256) (hj : j < 256) (same : Bits.bits 8 i = Bits.bits 8 j) :
      i = j := by
    have values := congrArg Bits.value same
    rwa [Bits.value_bits, Bits.value_bits, Nat.mod_eq_of_lt (b := 2 ^ 8) hi,
      Nat.mod_eq_of_lt (b := 2 ^ 8) hj] at values
  rw [reverse_lookup_table, Option.map_eq_some_iff]
  constructor
  · rintro ⟨i, found, rfl⟩
    have key := List.find?_some found
    have less := List.mem_range.1 (List.mem_reverse.1 (List.mem_of_find?_eq_some found))
    rw [beq_iff_eq, int_to_booleans_eq] at key
    rw [toNat_ofNat less]
    exact ⟨key, less⟩
  · rintro ⟨rfl, less⟩
    have mem : c.toNat ∈ (List.range 256).reverse := List.mem_reverse.2 (List.mem_range.2 less)
    cases found : (List.range 256).reverse.find? fun i => int_to_booleans i == Bits.bits 8 c.toNat with
    | none =>
      have other := List.find?_eq_none.1 found _ mem
      rw [int_to_booleans_eq, beq_self_eq_true] at other
      exact absurd rfl other
    | some i =>
      have key := List.find?_some found
      have less' := List.mem_range.1 (List.mem_reverse.1 (List.mem_of_find?_eq_some found))
      rw [beq_iff_eq, int_to_booleans_eq] at key
      rw [injective less' less key]
      exact ⟨_, rfl, Char.ofNat_toNat c⟩

theorem mapM_reverse {L : List (List Bool)} : L.mapM reverse_lookup_table = some s ↔
    s.map (fun c => Bits.bits 8 c.toNat) = L ∧ Bytes s := by
  induction L generalizing s with
  | nil =>
    rw [List.mapM_nil]
    constructor
    · intro h
      obtain rfl := Option.some.inj h
      exact ⟨rfl, fun c mem => absurd mem List.not_mem_nil⟩
    · rintro ⟨same, -⟩
      rw [List.map_eq_nil_iff.1 same]
      rfl
  | cons t L ih =>
    rw [List.mapM_cons]
    constructor
    · intro h
      obtain ⟨c, first, h⟩ := Option.bind_eq_some_iff.1 h
      obtain ⟨s', rest, h⟩ := Option.bind_eq_some_iff.1 h
      obtain rfl := Option.some.inj h
      obtain ⟨rfl, less⟩ := reverse_lookup_table_eq.1 first
      obtain ⟨rfl, bytes⟩ := ih.1 rest
      exact ⟨rfl, bytes_cons.2 ⟨less, bytes⟩⟩
    · rintro ⟨same, bytes⟩
      cases s with
      | nil => exact absurd same (List.cons_ne_nil t L).symm
      | cons c s =>
        obtain ⟨rfl, rfl⟩ := List.cons.inj same
        obtain ⟨less, bytes⟩ := bytes_cons.1 bytes
        rw [reverse_lookup_table_eq.2 ⟨rfl, less⟩, ih.2 ⟨rfl, bytes⟩]
        rfl

/-- The bits with the zeros behind them that fill the last byte -/
def padded (a : List Bool) : List Bool := a ++ List.replicate ((8 - a.length % 8) % 8) false

theorem padded_groups (a : List Bool) : Bits.groups (padded a) 8 ((a.length + 7) / 8) =
    ((List.range' 0 ((a.length - a.length % 8) / 8) 8).map fun x => (a.drop x).take 8) ++
      if a.length % 8 ≠ 0 then
        [a.drop (a.length - a.length % 8) ++ List.replicate (8 - a.length % 8) false]
      else [] := by
  rw [Bits.groups, Bits.range'_eq, List.map_map]
  by_cases whole : a.length % 8 = 0
  · rw [if_neg (not_not.2 whole), List.append_nil, padded, whole, List.replicate_zero, List.append_nil,
      show (a.length + 7) / 8 = (a.length - 0) / 8 by omega]
    rfl
  · rw [if_pos whole, show (a.length + 7) / 8 = (a.length - a.length % 8) / 8 + 1 by omega,
      List.range_succ, List.map_append, List.map_singleton, padded]
    congr 1
    · refine List.map_congr_left fun k mem => ?_
      have less := List.mem_range.1 mem
      rw [Function.comp_apply, List.drop_append_of_le_length (by omega),
        List.take_append_of_le_length (by rw [List.length_drop]; omega)]
    · have fill : (8 - a.length % 8) % 8 = 8 - a.length % 8 := by omega
      rw [show 8 * ((a.length - a.length % 8) / 8) = a.length - a.length % 8 by omega,
        List.drop_append_of_le_length (Nat.sub_le ..), fill, List.take_of_length_le]
      rw [List.length_append, List.length_drop, List.length_replicate]
      omega

theorem length_padded (a : List Bool) : (padded a).length = 8 * ((a.length + 7) / 8) := by
  rw [padded, List.length_append, List.length_replicate]
  omega

theorem tostring_groups (b : Bitfield) : b.tostring =
    (Bits.groups (padded b.array) 8 ((b.array.length + 7) / 8)).mapM reverse_lookup_table := by
  rw [padded_groups, List.mapM_append, List.mapM_map, tostring]
  split_ifs with rest
  · simp only [List.mapM_cons, List.mapM_nil, Function.comp_def, bind_assoc, pure_bind]
  · simp only [List.mapM_nil, Function.comp_def, List.append_nil, pure_bind]

theorem unpack_eq (s : Text) : unpack s = (s.map fun c => Bits.bits 8 c.toNat).flatten := by
  rw [unpack, List.flatMap_def]
  simp only [int_to_booleans_eq]

theorem tostring_eq : b.tostring = some s ↔ unpack s = padded b.array ∧ Bytes s := by
  have fits : 8 * ((b.array.length + 7) / 8) ≤ (padded b.array).length := (length_padded _).ge
  have whole : (Bits.groups (padded b.array) 8 ((b.array.length + 7) / 8)).flatten = padded b.array := by
    rw [Bits.flatten_groups, ← length_padded, List.take_length]
  rw [tostring_groups, mapM_reverse, unpack_eq]
  refine and_congr_left fun _ => ⟨fun same => by rw [same, whole], fun same => ?_⟩
  refine Bits.flatten_injective (by decide : 0 < 8) ?_ (fun t mem => Bits.length_of_mem_groups fits mem)
    (same.trans whole.symm)
  rintro t mem
  obtain ⟨c, -, rfl⟩ := List.mem_map.1 mem
  exact Bits.length_bits ..

theorem padded_iff {r a : List Bool} (bits : r.length = 8 * ((a.length + 7) / 8)) :
    r = padded a ↔ r.take a.length = a ∧
      r.drop a.length = List.replicate (r.length - a.length) false := by
  have fill : r.length - a.length = (8 - a.length % 8) % 8 := by omega
  rw [fill]
  constructor
  · rintro rfl
    exact ⟨List.take_left .., List.drop_left ..⟩
  · rintro ⟨front, back⟩
    rw [padded, ← back]
    conv_lhs => rw [← List.take_append_drop a.length r, front]

theorem init_spec : init n s = some b ↔ (n ≤ s.length * 8 ∧ s.length * 8 < n + 8) ∧
    (unpack s).drop n = List.replicate (s.length * 8 - n) false ∧ b.length = n ∧
    b.array = (unpack s).take n := by
  have count := length_unpack s
  rw [init]
  split
  next bound => exact ⟨fun h => absurd h (Option.some_ne_none b).symm, fun h => by omega⟩
  next bound =>
    have fits : n ≤ s.length * 8 ∧ s.length * 8 < n + 8 := by omega
    have extra : ((s.length * 8 : ℤ) - n).toNat = s.length * 8 - n := by omega
    have used : (unpack s).length - ((s.length * 8 : ℤ) - n).toNat = n := by omega
    dsimp only
    split
    next other =>
      rw [used, extra] at other
      exact ⟨fun h => absurd h (Option.some_ne_none b).symm, fun h => absurd h.2.1 other.2⟩
    next zeros =>
      rw [used, extra] at zeros
      have back : (unpack s).drop n = List.replicate (s.length * 8 - n) false := by
        by_contra other
        refine zeros ⟨?_, other⟩
        by_contra none_
        have whole : s.length * 8 - n = 0 := by omega
        rw [whole, List.replicate_zero, List.drop_eq_nil_iff] at other
        omega
      rw [Option.some.injEq, Bitfield.ext_iff]
      dsimp only
      rw [used]
      constructor
      · rintro ⟨rfl, front, -⟩
        exact ⟨fits, back, rfl, front.symm⟩
      · rintro ⟨-, -, rfl, front⟩
        exact ⟨rfl, front.symm, by rw [← front, negsum_eq, b.counted]⟩

/-- A bitfield is made from the string of bytes that it gives, and from no other one. -/
theorem init_eq_some (bytes : Bytes s) :
    init n s = some b ↔ b.length = n ∧ b.tostring = some s := by
  have count := length_unpack s
  rw [tostring_eq, and_iff_left bytes, init_spec]
  constructor
  · rintro ⟨fits, back, size, front⟩
    have sized := b.sized
    refine ⟨size, (padded_iff (by omega)).2 ⟨?_, ?_⟩⟩
    · rw [sized, size, front]
    · rw [sized, size, back, count]
  · rintro ⟨rfl, same⟩
    have size := congrArg List.length same
    rw [length_padded, count, b.sized] at size
    have sized := b.sized
    obtain ⟨front, back⟩ := (padded_iff (by omega)).1 same
    rw [sized] at front back
    exact ⟨by omega, by rw [back, count], rfl, front.symm⟩

end Bitfield

end Ydfs.BitTorrent
