import Mathlib.Data.List.Sort
import Mathlib.Data.Char
import Mathlib.Data.List.Lex
import Ydfs.Text.Slices
import Ydfs.Wubi.MetalinkParts

/-!
# Bencode

`bencode` writes the values of torrents and of trackers, and `bdecode` reads them back by positions in
the text.  What has been written is read back (`bdecode_bencode`).  The reader goes forward from value
to value, unless the length of a key is negative: then it goes back, and there are texts that it never
comes to the end of (`bdecode_never`); it returns for all texts without such a length
(`bdecode_returns`).
-/

namespace Ydfs.BitTorrent.Bencode

open Slices
open Wubi.Sax (Text decimal parseDigits)

/-! ### The model of the source -/

mutual

/-- A number, a string, a list or a dictionary. -/
inductive Value where
  | int (n : ℤ)
  | string (s : Text)
  | list (l : Values)
  | dict (d : Entries)

inductive Values where
  | nil
  | cons (v : Value) (l : Values)

/-- The items of a dictionary. -/
inductive Entries where
  | nil
  | cons (k : Text) (v : Value) (d : Entries)

end

/-- `encode_string` -/
def encodeString (x : Text) : Text := decimal x.length ++ ':' :: x

mutual

/-- `encode_int`, `encode_string`, `encode_list` and `encode_dict` -/
def encode : Value → Text
  | .int n => 'i' :: (decimal n ++ ['e'])
  | .string s => encodeString s
  | .list l => 'l' :: (encodeList l ++ ['e'])
  | .dict d =>
    let ilist := (encodeItems d).insertionSort fun p q => p.1 ≤ q.1
    'd' :: ((ilist.flatMap fun p => encodeString p.1 ++ p.2) ++ ['e'])

def encodeList : Values → Text
  | .nil => []
  | .cons v l => encode v ++ encodeList l

/-- The items, with each value encoded. -/
def encodeItems : Entries → List (Text × Text)
  | .nil => []
  | .cons k v d => (k, encode v) :: encodeItems d

end

/-- `bencode` -/
def bencode (x : Value) : Text := encode x

/-- The exceptions of the decoder; the last is for a call that does not return. -/
inductive Error where
  | valueError
  | lookupError
  | unfinished
deriving DecidableEq

/-- `str.isspace` of one character -/
def isSpace (c : Char) : Bool := c ∈ [' ', '\t', '\n', '\x0b', '\x0c', '\r']

/-- `str.strip` -/
def strip (t : Text) : Text := (t.dropWhile isSpace).rdropWhile isSpace

/-- A sign and digits. -/
def signed (t : Text) : Option ℤ :=
  match t with
  | '-' :: digits => (parseDigits digits).map fun n => -(n : ℤ)
  | '+' :: digits => (parseDigits digits).map fun n => (n : ℤ)
  | digits => (parseDigits digits).map fun n => (n : ℤ)

/-- `int` of a string, or else `long` of it, which may have an `L` behind the digits. -/
def toLong (t : Text) : Option ℤ :=
  let t := strip t
  (signed t).or (if t.getLast? = some 'L' ∨ t.getLast? = some 'l' then signed t.dropLast else none)

/-- `decode_int` -/
def decodeInt (x : Text) (f : ℤ) : Except Error (Value × ℤ) :=
  let f := f + 1
  match index x 'e' f with
  | none => .error .valueError
  | some newf =>
    match toLong (slice x f newf) with
    | none => .error .valueError
    | some n =>
      if item x f = some '-' ∧ item x (f + 1) = some '0' then .error .valueError
      else if item x f = some '0' ∧ (newf : ℤ) ≠ f + 1 then .error .valueError
      else .ok (.int n, newf + 1)

/-- `decode_string` -/
def decodeString (x : Text) (f : ℤ) : Except Error (Text × ℤ) :=
  match index x ':' f with
  | none => .error .valueError
  | some colon =>
    match toLong (slice x f colon) with
    | none => .error .valueError
    | some n =>
      if item x f = some '0' ∧ (colon : ℤ) ≠ f + 1 then .error .valueError
      else .ok (slice x (colon + 1) (colon + 1 + n), colon + 1 + n)

mutual

/-- `decode_func[x[f]](x, f)`, with so many calls and turns of the loops at most -/
def decode (x : Text) : ℕ → ℤ → Except Error (Value × ℤ)
  | 0, _ => .error .unfinished
  | fuel + 1, f =>
    match item x f with
    | some 'l' => (decodeList x fuel (f + 1)).map fun r => (.list r.1, r.2)
    | some 'd' => (decodeDict x fuel none (f + 1)).map fun r => (.dict r.1, r.2)
    | some 'i' => decodeInt x f
    | some c =>
      if c.isDigit then (decodeString x f).map fun r => (.string r.1, r.2)
      else .error .lookupError
    | none => .error .lookupError

/-- The loop of `decode_list` -/
def decodeList (x : Text) : ℕ → ℤ → Except Error (Values × ℤ)
  | 0, _ => .error .unfinished
  | fuel + 1, f =>
    match item x f with
    | none => .error .lookupError
    | some 'e' => .ok (.nil, f + 1)
    | some _ => do
      let (v, f) ← decode x fuel f
      let (r, f) ← decodeList x fuel f
      return (.cons v r, f)

/-- The loop of `decode_dict` -/
def decodeDict (x : Text) : ℕ → Option Text → ℤ → Except Error (Entries × ℤ)
  | 0, _, _ => .error .unfinished
  | fuel + 1, lastkey, f =>
    match item x f with
    | none => .error .lookupError
    | some 'e' => .ok (.nil, f + 1)
    | some _ => do
      let (k, f) ← decodeString x f
      if lastkey.any (k ≤ ·) then .error .valueError
      let (v, f) ← decode x fuel f
      let (r, f) ← decodeDict x fuel (some k) f
      return (.cons k v r, f)

end

/-- `bdecode`; a `KeyError` or an `IndexError` becomes a `ValueError`. -/
def bdecode (fuel : ℕ) (x : Text) : Except Error Value :=
  match decode x fuel 0 with
  | .error .lookupError => .error .valueError
  | .error e => .error e
  | .ok (r, l) => if l = x.length then .ok r else .error .valueError

section Equations

variable {x : Text} {fuel : ℕ} {f : ℤ} {c : Char} {lastkey : Option Text}

theorem decode_l (h : item x f = some 'l') :
    decode x (fuel + 1) f = (decodeList x fuel (f + 1)).map fun r => (.list r.1, r.2) := by
  rw [decode, h]
  rfl

theorem decode_d (h : item x f = some 'd') :
    decode x (fuel + 1) f = (decodeDict x fuel none (f + 1)).map fun r => (.dict r.1, r.2) := by
  rw [decode, h]
  rfl

theorem decode_i (h : item x f = some 'i') : decode x (fuel + 1) f = decodeInt x f := by
  rw [decode, h]
  rfl

theorem decode_digit (h : item x f = some c) (digit : c.isDigit) :
    decode x (fuel + 1) f = (decodeString x f).map fun r => (.string r.1, r.2) := by
  rw [decode, h]
  split
  · next same => cases same; cases digit
  · next same => cases same; cases digit
  · next same => cases same; cases digit
  · next same => rw [← Option.some.inj same, if_pos digit]
  · next same => cases same

theorem decodeList_e (h : item x f = some 'e') :
    decodeList x (fuel + 1) f = .ok (.nil, f + 1) := by
  rw [decodeList, h]
  rfl

theorem decodeList_item (h : item x f = some c) (live : c ≠ 'e') :
    decodeList x (fuel + 1) f = (decode x fuel f >>= fun p =>
      (decodeList x fuel p.2).map fun q => (.cons p.1 q.1, q.2)) := by
  rw [decodeList, h]
  split
  · next same => cases same
  · next same => exact absurd (Option.some.inj same) live
  · rfl

theorem decodeDict_e (h : item x f = some 'e') :
    decodeDict x (fuel + 1) lastkey f = .ok (.nil, f + 1) := by
  rw [decodeDict, h]
  rfl

theorem decodeDict_item (h : item x f = some c) (live : c ≠ 'e') :
    decodeDict x (fuel + 1) lastkey f = (decodeString x f >>= fun s =>
      if lastkey.any (s.1 ≤ ·) then .error .valueError
      else decode x fuel s.2 >>= fun p =>
        (decodeDict x fuel (some s.1) p.2).map fun q => (.cons s.1 p.1 q.1, q.2)) := by
  rw [decodeDict, h]
  split
  · next same => cases same
  · next same => exact absurd (Option.some.inj same) live
  · cases decodeString x f with
    | error e => rfl
    | ok s =>
      dsimp only [bind, Except.bind]
      split_ifs <;> rfl

end Equations

/-! ### Numbers -/

theorem isSpace_of_isDigit {c : Char} (digit : c.isDigit) : isSpace c = false := by
  refine decide_eq_false fun mem => ?_
  have none : ∀ c ∈ [' ', '\t', '\n', '\x0b', '\x0c', '\r'], (!c.isDigit) = true :=
    List.all_eq_true.1 (by decide)
  have here := none c mem
  rw [digit] at here
  cases here

theorem strip_of_no_space {t : Text} (h : ∀ c ∈ t, isSpace c = false) : strip t = t := by
  have front : t.dropWhile isSpace = t := by
    cases t with
    | nil => rfl
    | cons c t => simp [h c]
  rw [strip, front, List.rdropWhile_eq_self_iff]
  intro ne
  simp [h _ (List.getLast_mem ne)]

/-- A number is a first character, which is no zero unless it is alone, and digits. -/
theorem toDigits_eq_cons (n : ℕ) : ∃ c t, Nat.toDigits 10 n = c :: t ∧ (c = '0' → t = []) := by
  induction n using Nat.strongRecOn with
  | ind n ih =>
    by_cases small : n < 10
    · exact ⟨n.digitChar, [], Nat.toDigits_of_lt_base small, fun _ => rfl⟩
    · obtain ⟨c, t, digits, zero⟩ := ih (n / 10) (by omega)
      refine ⟨c, t ++ [(n % 10).digitChar], ?_, fun first => ?_⟩
      · rw [Nat.toDigits_of_base_le (by decide) (by omega), digits, List.cons_append]
      · -- then the front of the number would be a zero
        have value := Nat.ofDigitChars_ten_toDigits (n := n / 10)
        rw [digits, zero first, first] at value
        have : n / 10 = 0 := value.symm.trans (by decide)
        omega

theorem signed_decimal (n : ℤ) : signed (decimal n) = some n := by
  cases n with
  | negSucc n => simp [signed, decimal, Wubi.Sax.parseDigits_toDigits, Int.negSucc_eq]
  | ofNat n =>
    simp only [signed, decimal]
    have digit : ∀ c ∈ Nat.toDigits 10 n, c.isDigit := fun c =>
      Nat.isDigit_of_mem_toDigits (by decide) (by decide)
    split
    · next digits minus => cases digit '-' (by simp [minus])
    · next digits plus => cases digit '+' (by simp [plus])
    · rw [Wubi.Sax.parseDigits_toDigits]
      rfl

theorem toLong_decimal (n : ℤ) : toLong (decimal n) = some n := by
  have whole : strip (decimal n) = decimal n := by
    refine strip_of_no_space fun c mem => ?_
    rcases Wubi.Sax.mem_decimal mem with digit | rfl
    · exact isSpace_of_isDigit digit
    · decide
  rw [toLong, whole, signed_decimal]
  rfl

theorem not_mem_decimal {c : Char} (digit : c.isDigit = false) (minus : c ≠ '-') (n : ℤ) :
    c ∉ decimal n := by
  intro mem
  rcases Wubi.Sax.mem_decimal mem with is | is
  · rw [digit] at is
    cases is
  · exact minus is

/-- A number that begins with a zero is zero. -/
theorem decimal_head {n : ℤ} {t : Text} (h : decimal n = '0' :: t) : t = [] := by
  cases n with
  | ofNat n =>
    obtain ⟨c, t', digits, zero⟩ := toDigits_eq_cons n
    obtain ⟨first, rest⟩ := List.cons.inj (digits.symm.trans h)
    exact rest ▸ zero first
  | negSucc n => cases h

theorem decimal_ne_nil (n : ℤ) : decimal n ≠ [] := by
  cases n with
  | ofNat n => exact Nat.toDigits_ne_nil
  | negSucc n => exact List.cons_ne_nil _ _

/-- The check for a zero in front lets a number pass that has been written. -/
theorem zero_check {n : ℤ} (pre post : Text) (c : Char) :
    ¬ (item (pre ++ (decimal n ++ c :: post)) pre.length = some '0' ∧
      ((pre.length + (decimal n).length : ℕ) : ℤ) ≠ pre.length + 1) := by
  rintro ⟨zero, long⟩
  obtain ⟨d, t, split⟩ := List.exists_cons_of_ne_nil (decimal_ne_nil n)
  rw [split, List.cons_append, item_append, Option.some.injEq] at zero
  rw [zero] at split
  rw [split, decimal_head split] at long
  simp at long

/-! ### The round trip -/

theorem decodeString_append (s pre post : Text) :
    decodeString (pre ++ (encodeString s ++ post)) pre.length =
      .ok (s, pre.length + (encodeString s).length) := by
  have colon : ':' ∉ decimal s.length := not_mem_decimal (by decide) (by decide) _
  have whole : pre ++ (encodeString s ++ post) =
      pre ++ (decimal s.length ++ ':' :: (s ++ post)) := by
    simp [encodeString]
  have tail : pre ++ (decimal s.length ++ ':' :: (s ++ post)) =
      (pre ++ (decimal s.length ++ [':'])) ++ (s ++ post) := by simp
  rw [whole, decodeString, index_append colon]
  dsimp only
  rw [Int.natCast_add, slice_append, toLong_decimal]
  dsimp only
  rw [← Int.natCast_add, if_neg (zero_check pre _ ':'), tail]
  have cut := slice_append (pre ++ (decimal s.length ++ [':'])) s post
  simp only [List.length_append, List.length_singleton, Int.natCast_add, Int.natCast_one] at cut
  simp only [Int.natCast_add, encodeString, List.length_append, List.length_cons, Int.natCast_one]
  rw [show (pre.length : ℤ) + (decimal s.length).length + 1 =
    pre.length + ((decimal s.length).length + 1) by omega, cut]
  congr 2
  omega

/-- A minus is in front of a number that is not zero. -/
theorem minus_check {n : ℤ} (pre post : Text) :
    ¬ (item (pre ++ (decimal n ++ post)) pre.length = some '-' ∧
      item (pre ++ (decimal n ++ post)) (pre.length + 1) = some '0') := by
  rintro ⟨minus, zero⟩
  obtain ⟨d, t, split⟩ := List.exists_cons_of_ne_nil (decimal_ne_nil n)
  rw [split, List.cons_append] at minus zero
  rw [item_append, Option.some.injEq] at minus
  cases n with
  | ofNat n =>
    have digit : d.isDigit := Nat.isDigit_of_mem_toDigits (b := 10) (n := n) (by decide) (by decide)
      (by rw [show Nat.toDigits 10 n = d :: t from split]; exact List.mem_cons_self)
    rw [minus] at digit
    cases digit
  | negSucc n =>
    obtain ⟨c, t', digits, first⟩ := toDigits_eq_cons (n + 1)
    obtain ⟨-, rest⟩ := List.cons.inj (show '-' :: Nat.toDigits 10 (n + 1) = d :: t from split)
    have whole : pre ++ d :: (t ++ post) = (pre ++ [d]) ++ c :: (t' ++ post) := by
      simp [← rest, digits]
    have at_ := item_append (pre ++ [d]) (t' ++ post) c
    simp only [List.length_append, List.length_singleton, Int.natCast_add, Int.natCast_one] at at_
    rw [whole, at_, Option.some.injEq] at zero
    have alone := first zero
    rw [zero, alone] at digits
    have value := Nat.ofDigitChars_ten_toDigits (n := n + 1)
    rw [digits] at value
    have : n + 1 = 0 := value.symm.trans (by decide)
    omega

theorem decodeInt_append (n : ℤ) (pre post : Text) :
    decodeInt (pre ++ ('i' :: (decimal n ++ 'e' :: post))) pre.length =
      .ok (.int n, pre.length + (encode (.int n)).length) := by
  have free : 'e' ∉ decimal n := not_mem_decimal (by decide) (by decide) n
  have whole : pre ++ ('i' :: (decimal n ++ 'e' :: post)) =
      (pre ++ ['i']) ++ (decimal n ++ 'e' :: post) := by simp
  have start : (pre.length : ℤ) + 1 = ((pre ++ ['i']).length : ℕ) := by simp
  rw [whole, decodeInt, start, index_append free]
  dsimp only
  rw [Int.natCast_add, slice_append, toLong_decimal]
  dsimp only
  rw [if_neg (minus_check (pre ++ ['i']) ('e' :: post)), ← Int.natCast_add,
    if_neg (zero_check (pre ++ ['i']) post 'e')]
  simp only [encode, List.length_append, List.length_cons, List.length_nil]
  congr 2
  omega

mutual

/-- The keys of each dictionary are in order, and none is there twice. -/
def Ordered : Value → Prop
  | .int _ => True
  | .string _ => True
  | .list l => OrderedList l
  | .dict d => OrderedItems none d

def OrderedList : Values → Prop
  | .nil => True
  | .cons v l => Ordered v ∧ OrderedList l

def OrderedItems : Option Text → Entries → Prop
  | _, .nil => True
  | lastkey, .cons k v d => lastkey.any (k ≤ ·) = false ∧ Ordered v ∧ OrderedItems (some k) d

end

/-- The encoded items, one after the other. -/
def joined (ilist : List (Text × Text)) : Text := ilist.flatMap fun p => encodeString p.1 ++ p.2

theorem encodeItems_pairwise : ∀ (d : Entries) (lastkey : Option Text), OrderedItems lastkey d →
    (∀ p ∈ encodeItems d, ∀ k ∈ lastkey, k ≤ p.1) ∧
      (encodeItems d).Pairwise fun p q => p.1 ≤ q.1
  | .nil, _, _ => by simp [encodeItems]
  | .cons k v d, lastkey, ⟨after, _, rest⟩ => by
    obtain ⟨above, sorted⟩ := encodeItems_pairwise d (some k) rest
    rw [encodeItems, List.pairwise_cons]
    refine ⟨fun p mem l hl => ?_, fun p mem => above p mem k rfl, sorted⟩
    have below : l ≤ k := by
      rw [hl, Option.any_some, decide_eq_false_iff_not, not_le] at after
      exact after.le
    rcases List.mem_cons.1 mem with rfl | mem
    · exact below
    · exact below.trans (above p mem k rfl)

/-- The items of a dictionary in order are written as they are. -/
theorem encode_dict {d : Entries} (h : OrderedItems none d) :
    encode (.dict d) = 'd' :: (joined (encodeItems d) ++ ['e']) := by
  rw [encode, (encodeItems_pairwise d none h).2.insertionSort_eq]
  rfl

/-- The first character of a written value says what it is. -/
theorem encode_eq_cons (v : Value) :
    ∃ c t, encode v = c :: t ∧ c ≠ 'e' ∧ (c = 'i' ∨ c = 'l' ∨ c = 'd' ∨ c.isDigit) := by
  cases v with
  | int n => exact ⟨_, _, rfl, by decide, .inl rfl⟩
  | list l => exact ⟨_, _, rfl, by decide, .inr (.inl rfl)⟩
  | dict d => exact ⟨_, _, rfl, by decide, .inr (.inr (.inl rfl))⟩
  | string s =>
    obtain ⟨c, t, digits, -⟩ := toDigits_eq_cons s.length
    have digit : c.isDigit := Nat.isDigit_of_mem_toDigits (b := 10) (n := s.length) (by decide)
      (by decide) (by rw [digits]; exact List.mem_cons_self)
    refine ⟨c, t ++ ':' :: s, ?_, ?_, .inr (.inr (.inr digit))⟩
    · rw [encode, encodeString, show decimal s.length = c :: t from digits, List.cons_append]
    · rintro rfl
      cases digit

theorem item_encode (v : Value) (pre post : Text) :
    ∃ c, item (pre ++ (encode v ++ post)) pre.length = some c ∧ c ≠ 'e' := by
  obtain ⟨c, t, split, first, -⟩ := encode_eq_cons v
  exact ⟨c, by rw [split, List.cons_append, item_append], first⟩

mutual

/-- A value in order is read from where it is written. -/
theorem decode_append : ∀ (v : Value), Ordered v → ∀ (fuel : ℕ), (encode v).length ≤ fuel →
    ∀ pre post : Text, decode (pre ++ (encode v ++ post)) fuel pre.length =
      .ok (v, (pre.length + (encode v).length : ℕ))
  | .int n, _, 0, enough, _, _ => by simp [encode] at enough
  | .string s, _, 0, enough, _, _ => by simp [encode, encodeString] at enough
  | .list l, _, 0, enough, _, _ => by simp [encode] at enough
  | .dict d, _, 0, enough, _, _ => by simp [encode] at enough
  | .int n, _, fuel + 1, _, pre, post => by
    have whole : pre ++ (encode (.int n) ++ post) = pre ++ ('i' :: (decimal n ++ 'e' :: post)) := by
      simp [encode]
    rw [whole, decode_i (item_append ..), decodeInt_append]
    rfl
  | .string s, _, fuel + 1, _, pre, post => by
    obtain ⟨c, t, split, -, kind⟩ := encode_eq_cons (.string s)
    have first : item (pre ++ (encode (.string s) ++ post)) pre.length = some c := by
      rw [split, List.cons_append, item_append]
    have digit : c.isDigit := by
      obtain ⟨d, t', digits, -⟩ := toDigits_eq_cons s.length
      have same : d = c := by
        rw [encode, encodeString, show decimal s.length = d :: t' from digits] at split
        exact (List.cons.inj split).1
      exact Nat.isDigit_of_mem_toDigits (b := 10) (n := s.length) (by decide) (by decide)
        (by rw [digits, same]; exact List.mem_cons_self)
    rw [decode_digit first digit, encode, decodeString_append]
    rfl
  | .list l, ordered, fuel + 1, enough, pre, post => by
    have whole : pre ++ (encode (.list l) ++ post) =
        (pre ++ ['l']) ++ (encodeList l ++ 'e' :: post) := by simp [encode]
    have long : (encodeList l).length + 1 ≤ fuel := by simp [encode] at enough; omega
    have inner := decodeList_append l ordered fuel long (pre ++ ['l']) post
    have first : item ((pre ++ ['l']) ++ (encodeList l ++ 'e' :: post)) pre.length = some 'l' := by
      rw [List.append_assoc]
      exact item_append ..
    rw [List.length_append, List.length_singleton] at inner
    rw [whole, decode_l first, show (pre.length : ℤ) + 1 = ((pre.length + 1 : ℕ) : ℤ) from rfl, inner]
    simp only [Except.map, encode, List.length_cons, List.length_append, List.length_nil]
    congr 3
    omega
  | .dict d, ordered, fuel + 1, enough, pre, post => by
    have whole : pre ++ (encode (.dict d) ++ post) =
        (pre ++ ['d']) ++ (joined (encodeItems d) ++ 'e' :: post) := by
      simp [encode_dict ordered]
    have long : (joined (encodeItems d)).length + 1 ≤ fuel := by
      simp [encode_dict ordered] at enough
      omega
    have inner := decodeDict_append d none ordered fuel long (pre ++ ['d']) post
    have first : item ((pre ++ ['d']) ++ (joined (encodeItems d) ++ 'e' :: post)) pre.length =
        some 'd' := by
      rw [List.append_assoc]
      exact item_append ..
    rw [List.length_append, List.length_singleton] at inner
    rw [whole, decode_d first, show (pre.length : ℤ) + 1 = ((pre.length + 1 : ℕ) : ℤ) from rfl, inner,
      encode_dict ordered]
    simp only [Except.map, List.length_cons, List.length_append, List.length_nil]
    congr 3
    omega

theorem decodeList_append : ∀ (l : Values), OrderedList l → ∀ (fuel : ℕ),
    (encodeList l).length + 1 ≤ fuel → ∀ pre post : Text,
      decodeList (pre ++ (encodeList l ++ 'e' :: post)) fuel pre.length =
        .ok (l, (pre.length + (encodeList l).length + 1 : ℕ))
  | _, _, 0, enough, _, _ => by omega
  | .nil, _, fuel + 1, _, pre, post => by
    rw [encodeList, List.nil_append, decodeList_e (item_append ..)]
    rfl
  | .cons v l, ordered, fuel + 1, enough, pre, post => by
    have whole : pre ++ (encodeList (.cons v l) ++ 'e' :: post) =
        pre ++ (encode v ++ (encodeList l ++ 'e' :: post)) := by simp [encodeList]
    have next : pre ++ (encode v ++ (encodeList l ++ 'e' :: post)) =
        (pre ++ encode v) ++ (encodeList l ++ 'e' :: post) := by simp
    obtain ⟨c, first, live⟩ := item_encode v pre (encodeList l ++ 'e' :: post)
    have short : 0 < (encode v).length := by
      obtain ⟨c, t, split, -⟩ := encode_eq_cons v
      simp [split]
    rw [encodeList, List.length_append] at enough
    have head := decode_append v ordered.1 fuel (by omega) pre (encodeList l ++ 'e' :: post)
    have tail := decodeList_append l ordered.2 fuel (by omega) (pre ++ encode v) post
    rw [whole, decodeList_item first live, head]
    dsimp only [bind, Except.bind]
    rw [← List.length_append, next, tail]
    simp only [Except.map, encodeList, List.length_append]
    congr 3
    omega

theorem decodeDict_append : ∀ (d : Entries) (lastkey : Option Text), OrderedItems lastkey d →
    ∀ (fuel : ℕ), (joined (encodeItems d)).length + 1 ≤ fuel → ∀ pre post : Text,
      decodeDict (pre ++ (joined (encodeItems d) ++ 'e' :: post)) fuel lastkey pre.length =
        .ok (d, (pre.length + (joined (encodeItems d)).length + 1 : ℕ))
  | _, _, _, 0, enough, _, _ => by omega
  | .nil, _, _, fuel + 1, _, pre, post => by
    rw [encodeItems, joined, List.flatMap_nil, List.nil_append, decodeDict_e (item_append ..)]
    rfl
  | .cons k v d, lastkey, ordered, fuel + 1, enough, pre, post => by
    have split_ : joined (encodeItems (.cons k v d)) =
        encodeString k ++ (encode v ++ joined (encodeItems d)) := by
      simp [encodeItems, joined]
    have whole : pre ++ (joined (encodeItems (.cons k v d)) ++ 'e' :: post) =
        pre ++ (encodeString k ++ (encode v ++ (joined (encodeItems d) ++ 'e' :: post))) := by
      simp [split_]
    have second : pre ++ (encodeString k ++ (encode v ++ (joined (encodeItems d) ++ 'e' :: post))) =
        (pre ++ encodeString k) ++ (encode v ++ (joined (encodeItems d) ++ 'e' :: post)) := by simp
    have third :
        (pre ++ encodeString k) ++ (encode v ++ (joined (encodeItems d) ++ 'e' :: post)) =
        (pre ++ encodeString k ++ encode v) ++ (joined (encodeItems d) ++ 'e' :: post) := by simp
    obtain ⟨c, first, live⟩ := item_encode (.string k) pre
      (encode v ++ (joined (encodeItems d) ++ 'e' :: post))
    have short : 0 < (encode v).length := by
      obtain ⟨c, t, split, -⟩ := encode_eq_cons v
      simp [split]
    rw [split_, List.length_append, List.length_append] at enough
    have middle := decode_append v ordered.2.1 fuel (by omega) (pre ++ encodeString k)
      (joined (encodeItems d) ++ 'e' :: post)
    have tail := decodeDict_append d (some k) ordered.2.2 fuel (by omega)
      (pre ++ encodeString k ++ encode v) post
    rw [encode] at first
    rw [whole, decodeDict_item first live, decodeString_append]
    dsimp only [bind, Except.bind]
    rw [if_neg (by rw [ordered.1]; exact Bool.false_ne_true), second, ← Int.natCast_add,
      ← List.length_append, middle]
    dsimp only
    rw [← List.length_append, third, tail]
    simp only [Except.map, split_, List.length_append]
    congr 3
    omega

end

theorem bdecode_bencode_ordered {v : Value} (ordered : Ordered v) {fuel : ℕ}
    (enough : (bencode v).length ≤ fuel) : bdecode fuel (bencode v) = .ok v := by
  have whole := decode_append v ordered fuel enough [] []
  rw [List.nil_append, List.append_nil, List.length_nil, Nat.zero_add] at whole
  rw [bdecode, bencode, show (0 : ℤ) = ((0 : ℕ) : ℤ) from rfl, whole]
  exact if_pos rfl

/-! ### The order of the items -/

/-- The item is put in its place by the key. -/
def insert (k : Text) (v : Value) : Entries → Entries
  | .nil => .cons k v .nil
  | .cons k' v' d => if k ≤ k' then .cons k v (.cons k' v' d) else .cons k' v' (insert k v d)

/-- The keys of a dictionary -/
def keys : Entries → List Text
  | .nil => []
  | .cons k _ d => k :: keys d

mutual

/-- The same value, with the items of its dictionaries in order. -/
def inOrder : Value → Value
  | .int n => .int n
  | .string s => .string s
  | .list l => .list (inOrderList l)
  | .dict d => .dict (inOrderItems d)

def inOrderList : Values → Values
  | .nil => .nil
  | .cons v l => .cons (inOrder v) (inOrderList l)

def inOrderItems : Entries → Entries
  | .nil => .nil
  | .cons k v d => insert k (inOrder v) (inOrderItems d)

end

mutual

/-- No key is twice in a dictionary. -/
def Distinct : Value → Prop
  | .int _ => True
  | .string _ => True
  | .list l => DistinctList l
  | .dict d => DistinctItems d

def DistinctList : Values → Prop
  | .nil => True
  | .cons v l => Distinct v ∧ DistinctList l

def DistinctItems : Entries → Prop
  | .nil => True
  | .cons k v d => k ∉ keys d ∧ Distinct v ∧ DistinctItems d

end

theorem encodeItems_insert (k : Text) (v : Value) : ∀ d : Entries, encodeItems (insert k v d) =
    (encodeItems d).orderedInsert (fun p q => p.1 ≤ q.1) (k, encode v)
  | .nil => rfl
  | .cons k' v' d => by
    rw [insert]
    split_ifs with before
    · exact (if_pos before).symm
    · rw [encodeItems, encodeItems, encodeItems_insert k v d]
      exact (if_neg before).symm

theorem insertionSort_pairwise (l : List (Text × Text)) :
    (l.insertionSort fun p q => p.1 ≤ q.1).Pairwise fun p q => p.1 ≤ q.1 := by
  have : Std.Total (fun p q : Text × Text => p.1 ≤ q.1) := ⟨fun p q => le_total p.1 q.1⟩
  have : IsTrans (Text × Text) (fun p q => p.1 ≤ q.1) := ⟨fun _ _ _ => le_trans⟩
  exact List.pairwise_insertionSort _ l

mutual

/-- The order of the items does not change what is written. -/
theorem encode_inOrder : ∀ v : Value, encode (inOrder v) = encode v
  | .int _ => rfl
  | .string _ => rfl
  | .list l => by rw [inOrder, encode, encode, encodeList_inOrder l]
  | .dict d => by
    rw [inOrder, encode, encode, encodeItems_inOrder d, (insertionSort_pairwise _).insertionSort_eq]

theorem encodeList_inOrder : ∀ l : Values, encodeList (inOrderList l) = encodeList l
  | .nil => rfl
  | .cons v l => by rw [inOrderList, encodeList, encodeList, encode_inOrder v, encodeList_inOrder l]

theorem encodeItems_inOrder : ∀ d : Entries, encodeItems (inOrderItems d) =
    (encodeItems d).insertionSort fun p q => p.1 ≤ q.1
  | .nil => rfl
  | .cons k v d => by
    rw [inOrderItems, encodeItems_insert, encode_inOrder v, encodeItems_inOrder d, encodeItems,
      List.insertionSort_cons]

end

theorem mem_keys_insert {k l : Text} {v : Value} : ∀ {d : Entries},
    l ∈ keys (insert k v d) ↔ l = k ∨ l ∈ keys d
  | .nil => by simp [insert, keys]
  | .cons k' v' d => by
    rw [insert]
    split_ifs
    · simp [keys]
    · rw [keys, keys, List.mem_cons, List.mem_cons, mem_keys_insert (d := d)]
      exact or_left_comm

theorem mem_keys_inOrderItems {l : Text} : ∀ {d : Entries},
    l ∈ keys (inOrderItems d) ↔ l ∈ keys d
  | .nil => Iff.rfl
  | .cons k v d => by
    rw [inOrderItems, mem_keys_insert, mem_keys_inOrderItems (d := d), keys, List.mem_cons]

/-- A new key goes to its place. -/
theorem insert_ordered {k : Text} {v : Value} (one : Ordered v) : ∀ (d : Entries)
    (lastkey : Option Text), lastkey.any (k ≤ ·) = false → k ∉ keys d → OrderedItems lastkey d →
      OrderedItems lastkey (insert k v d)
  | .nil, _, after, _, _ => ⟨after, one, trivial⟩
  | .cons k' v' d, lastkey, after, new, ⟨after', one', rest⟩ => by
    rw [keys, List.mem_cons, not_or] at new
    rw [insert]
    split_ifs with before
    · have strict : (some k).any (k' ≤ ·) = false :=
        decide_eq_false (not_le.2 (lt_of_le_of_ne before new.1))
      exact ⟨after, one, strict, one', rest⟩
    · have behind : (some k').any (k ≤ ·) = false := decide_eq_false before
      exact ⟨after', one', insert_ordered one d (some k') behind new.2 rest⟩

mutual

theorem inOrder_ordered : ∀ v : Value, Distinct v → Ordered (inOrder v)
  | .int _, _ => trivial
  | .string _, _ => trivial
  | .list l, h => inOrderList_ordered l h
  | .dict d, h => inOrderItems_ordered d h

theorem inOrderList_ordered : ∀ l : Values, DistinctList l → OrderedList (inOrderList l)
  | .nil, _ => trivial
  | .cons v l, h => ⟨inOrder_ordered v h.1, inOrderList_ordered l h.2⟩

theorem inOrderItems_ordered : ∀ d : Entries, DistinctItems d → OrderedItems none (inOrderItems d)
  | .nil, _ => trivial
  | .cons _ v d, h => insert_ordered (inOrder_ordered v h.2.1) _ none rfl
      (fun mem => h.1 (mem_keys_inOrderItems.1 mem)) (inOrderItems_ordered d h.2.2)

end

/-- What has been written is read back, with the items in order. -/
theorem bdecode_bencode {v : Value} (distinct : Distinct v) {fuel : ℕ}
    (enough : (bencode v).length ≤ fuel) : bdecode fuel (bencode v) = .ok (inOrder v) := by
  have same : bencode v = bencode (inOrder v) := (encode_inOrder v).symm
  rw [same] at enough ⊢
  exact bdecode_bencode_ordered (inOrder_ordered v distinct) enough

/-- The name and the length of a file, the other way around. -/
theorem bdecode_bencode_file :
    let file := Value.dict (.cons "name".toList (.string "a".toList)
      (.cons "length".toList (.int (-3)) .nil))
    bencode file = "d6:lengthi-3e4:name1:ae".toList ∧
      bdecode 30 (bencode file) = .ok (inOrder file) := by
  have distinct : Distinct (.dict (.cons "name".toList (.string "a".toList)
      (.cons "length".toList (.int (-3)) .nil))) := by
    simp [Distinct, DistinctItems, keys]
  exact ⟨by decide, bdecode_bencode distinct (by decide)⟩

/-! ### What is read -/

theorem map_ok {ε α β : Type} {r : Except ε α} {g : α → β} {b : β} (h : r.map g = .ok b) :
    ∃ a, r = .ok a ∧ g a = b := by
  cases r with
  | error e => cases h
  | ok a => exact ⟨a, rfl, Except.ok.inj h⟩

theorem bind_ok {ε α β : Type} {r : Except ε α} {g : α → Except ε β} {b : β}
    (h : (r >>= g) = .ok b) : ∃ a, r = .ok a ∧ g a = .ok b := by
  cases r with
  | error e => cases h
  | ok a => exact ⟨a, rfl, h⟩

theorem map_error {ε α β : Type} {r : Except ε α} {g : α → β} {e : ε} (h : r.map g = .error e) :
    r = .error e := by
  cases r with
  | error e' => exact congrArg _ (Except.error.inj h)
  | ok a => cases h

theorem decodeInt_ok {x : Text} {f f' : ℤ} {v : Value} (h : decodeInt x f = .ok (v, f')) :
    ∃ n newf, index x 'e' (f + 1) = some newf ∧ v = .int n ∧ f' = newf + 1 := by
  rw [decodeInt] at h
  split at h
  · cases h
  · next newf found =>
    split at h
    · cases h
    · next n _ =>
      split_ifs at h
      cases h
      exact ⟨n, newf, found, rfl, rfl⟩

theorem decodeString_ok {x s : Text} {f f' : ℤ} (h : decodeString x f = .ok (s, f')) :
    ∃ colon n, index x ':' f = some colon ∧ toLong (slice x f colon) = some n ∧
      f' = colon + 1 + n := by
  rw [decodeString] at h
  split at h
  · cases h
  · next colon found =>
    split at h
    · cases h
    · next n value =>
      split_ifs at h
      cases h
      exact ⟨colon, n, found, value, rfl⟩

/-- The ways in which a value is read. -/
theorem decode_ok {x : Text} {fuel : ℕ} {f f' : ℤ} {v : Value}
    (h : decode x (fuel + 1) f = .ok (v, f')) :
    (∃ l, v = .list l ∧ decodeList x fuel (f + 1) = .ok (l, f')) ∨
      (∃ d, v = .dict d ∧ decodeDict x fuel none (f + 1) = .ok (d, f')) ∨
      decodeInt x f = .ok (v, f') ∨ ∃ s, v = .string s ∧ decodeString x f = .ok (s, f') := by
  rw [decode] at h
  split at h
  · obtain ⟨⟨l, g⟩, read, same⟩ := map_ok h
    cases same
    exact .inl ⟨l, rfl, read⟩
  · obtain ⟨⟨d, g⟩, read, same⟩ := map_ok h
    cases same
    exact .inr (.inl ⟨d, rfl, read⟩)
  · exact .inr (.inr (.inl h))
  · split_ifs at h
    obtain ⟨⟨s, g⟩, read, same⟩ := map_ok h
    cases same
    exact .inr (.inr (.inr ⟨s, rfl, read⟩))
  · cases h

/-- One turn of the loop of a list. -/
theorem decodeList_ok {x : Text} {fuel : ℕ} {f f' : ℤ} {l : Values}
    (h : decodeList x (fuel + 1) f = .ok (l, f')) :
    l = .nil ∧ f' = f + 1 ∨ ∃ v g r, l = .cons v r ∧ decode x fuel f = .ok (v, g) ∧
      decodeList x fuel g = .ok (r, f') := by
  cases first : item x f with
  | none =>
    rw [decodeList, first] at h
    cases h
  | some c =>
    by_cases last : c = 'e'
    · rw [decodeList_e (last ▸ first)] at h
      cases h
      exact .inl ⟨rfl, rfl⟩
    · rw [decodeList_item first last] at h
      obtain ⟨⟨v, g⟩, one, h⟩ := bind_ok h
      obtain ⟨⟨r, k⟩, rest, same⟩ := map_ok h
      cases same
      exact .inr ⟨v, g, r, rfl, one, rest⟩

/-- One turn of the loop of a dictionary. -/
theorem decodeDict_ok {x : Text} {fuel : ℕ} {lastkey : Option Text} {f f' : ℤ} {d : Entries}
    (h : decodeDict x (fuel + 1) lastkey f = .ok (d, f')) :
    d = .nil ∧ f' = f + 1 ∨ ∃ k v g g' r, d = .cons k v r ∧ lastkey.any (k ≤ ·) = false ∧
      decodeString x f = .ok (k, g) ∧ decode x fuel g = .ok (v, g') ∧
      decodeDict x fuel (some k) g' = .ok (r, f') := by
  cases first : item x f with
  | none =>
    rw [decodeDict, first] at h
    cases h
  | some c =>
    by_cases last : c = 'e'
    · rw [decodeDict_e (last ▸ first)] at h
      cases h
      exact .inl ⟨rfl, rfl⟩
    · rw [decodeDict_item first last] at h
      obtain ⟨⟨k, g⟩, key, h⟩ := bind_ok h
      split_ifs at h with before
      obtain ⟨⟨v, g'⟩, one, h⟩ := bind_ok h
      obtain ⟨⟨r, k'⟩, rest, same⟩ := map_ok h
      cases same
      exact .inr ⟨k, v, g, g', r, rfl, by simpa using before, key, one, rest⟩

mutual

theorem decode_ordered (x : Text) : ∀ (fuel : ℕ) (f : ℤ) (v : Value) (f' : ℤ),
    decode x fuel f = .ok (v, f') → Ordered v
  | 0, _, _, _, h => by cases h
  | fuel + 1, f, v, f', h => by
    rcases decode_ok h with ⟨l, rfl, read⟩ | ⟨d, rfl, read⟩ | read | ⟨s, rfl, -⟩
    · exact decodeList_ordered x fuel _ l f' read
    · exact decodeDict_ordered x fuel none _ d f' read
    · obtain ⟨n, -, -, rfl, -⟩ := decodeInt_ok read
      trivial
    · trivial

theorem decodeList_ordered (x : Text) : ∀ (fuel : ℕ) (f : ℤ) (l : Values) (f' : ℤ),
    decodeList x fuel f = .ok (l, f') → OrderedList l
  | 0, _, _, _, h => by cases h
  | fuel + 1, f, l, f', h => by
    rcases decodeList_ok h with ⟨rfl, -⟩ | ⟨v, g, r, rfl, one, rest⟩
    · trivial
    · exact ⟨decode_ordered x fuel f v g one, decodeList_ordered x fuel g r f' rest⟩

theorem decodeDict_ordered (x : Text) : ∀ (fuel : ℕ) (lastkey : Option Text) (f : ℤ)
    (d : Entries) (f' : ℤ), decodeDict x fuel lastkey f = .ok (d, f') → OrderedItems lastkey d
  | 0, _, _, _, _, h => by cases h
  | fuel + 1, lastkey, f, d, f', h => by
    rcases decodeDict_ok h with ⟨rfl, -⟩ | ⟨k, v, g, g', r, rfl, after, -, one, rest⟩
    · trivial
    · exact ⟨after, decode_ordered x fuel g v g' one, decodeDict_ordered x fuel _ g' r f' rest⟩

end

theorem bdecode_ok {fuel : ℕ} {x : Text} {v : Value} (h : bdecode fuel x = .ok v) :
    decode x fuel 0 = .ok (v, x.length) := by
  rw [bdecode] at h
  split at h
  · cases h
  · cases h
  · next r l read =>
    split_ifs at h with whole
    rw [read, whole, Except.ok.inj h]

/-- A value that has been read is read again from what is written for it. -/
theorem bdecode_bencode_bdecode {fuel : ℕ} {x : Text} {v : Value} (h : bdecode fuel x = .ok v) :
    bdecode (bencode v).length (bencode v) = .ok v :=
  bdecode_bencode_ordered (decode_ordered x fuel 0 v _ (bdecode_ok h)) le_rfl

/-- A number that is written with a sign, and comes back without it -/
theorem bdecode_bencode_bdecode_sign :
    let list := Value.list (.cons (.int 1) (.cons (.string "a".toList) .nil))
    bdecode 20 "li+1e1:ae".toList = .ok list ∧ bencode list = "li1e1:ae".toList ∧
      bdecode (bencode list).length (bencode list) = .ok list :=
  ⟨rfl, by decide, bdecode_bencode_bdecode (x := "li+1e1:ae".toList) (rfl : bdecode 20 _ = _)⟩

/-! ### Returning -/

/-- No length in the text is negative. -/
def Forward (x : Text) : Prop :=
  ∀ (f colon : ℕ) (n : ℤ), index x ':' f = some colon → toLong (slice x f colon) = some n → 0 ≤ n

/-- The call returns, and what it has read ends behind `f`. -/
def Onward {β : Type} (f : ℕ) (r : Except Error (β × ℤ)) : Prop :=
  r ≠ .error .unfinished ∧ ∀ b f', r = .ok (b, f') → ∃ g : ℕ, f' = g ∧ f < g

theorem lt_of_item {x : Text} {f : ℕ} {c : Char} (h : item x f = some c) : f < x.length := by
  rw [item_natCast] at h
  exact (List.getElem?_eq_some_iff.1 h).1

/-- What is found from a place in the text is not before it. -/
theorem le_of_index {x : Text} {c : Char} {f k : ℕ} (h : index x c f = some k) : f ≤ k := by
  obtain ⟨low, high, -⟩ := index_eq_some h
  rw [bound_natCast] at low
  omega

theorem decodeInt_onward (x : Text) (f : ℕ) : Onward f (decodeInt x f) := by
  refine ⟨?_, fun v f' h => ?_⟩
  · rw [decodeInt]
    split
    · nofun
    · split
      · nofun
      · split_ifs <;> nofun
  · obtain ⟨n, newf, found, -, rfl⟩ := decodeInt_ok h
    have := le_of_index (f := f + 1) found
    exact ⟨newf + 1, rfl, by omega⟩

theorem decodeString_onward {x : Text} (forward : Forward x) (f : ℕ) :
    Onward f (decodeString x f) := by
  refine ⟨?_, fun s f' h => ?_⟩
  · rw [decodeString]
    split
    · nofun
    · split
      · nofun
      · split_ifs <;> nofun
  · obtain ⟨colon, n, found, value, rfl⟩ := decodeString_ok h
    have := le_of_index found
    have := forward f colon n found value
    exact ⟨colon + 1 + n.toNat, by omega, by omega⟩

theorem Onward.map {β γ : Type} {f : ℕ} {r : Except Error (β × ℤ)} (h : Onward f r) (g : β → γ) :
    Onward f (r.map fun p => (g p.1, p.2)) := by
  refine ⟨fun e => h.1 (map_error e), fun c f' e => ?_⟩
  obtain ⟨⟨b, k⟩, read, same⟩ := map_ok e
  cases same
  exact h.2 b k read

theorem Onward.mono {β : Type} {f k : ℕ} {r : Except Error (β × ℤ)} (h : Onward f r)
    (below : k ≤ f) : Onward k r :=
  ⟨h.1, fun b f' e => by
    obtain ⟨g, same, more⟩ := h.2 b f' e
    exact ⟨g, same, by omega⟩⟩

/-- Two reads one after the other. -/
theorem Onward.bind {β γ : Type} {f : ℕ} {r : Except Error (β × ℤ)}
    {next : β × ℤ → Except Error (γ × ℤ)} (h : Onward f r)
    (rest : ∀ b (g : ℕ), f < g → Onward f (next (b, g))) :
    Onward f (r >>= next) := by
  cases r with
  | error e => exact ⟨fun same => h.1 (congrArg _ (Except.error.inj same)), fun c f' e => nomatch e⟩
  | ok p =>
    obtain ⟨g, same, more⟩ := h.2 p.1 p.2 rfl
    have whole : p = (p.1, (g : ℤ)) := by rw [← same]
    rw [whole]
    exact rest p.1 g more

mutual

theorem decode_onward {x : Text} (forward : Forward x) : ∀ fuel f : ℕ,
    2 * (x.length - f) + 1 ≤ fuel → Onward f (decode x fuel f)
  | 0, _, enough => by omega
  | fuel + 1, f, enough => by
    rw [decode]
    split
    · next first =>
      have := lt_of_item first
      exact ((decodeList_onward forward fuel (f + 1) (by omega)).mono (Nat.le_succ f)).map _
    · next first =>
      have := lt_of_item first
      exact ((decodeDict_onward forward fuel none (f + 1) (by omega)).mono (Nat.le_succ f)).map _
    · exact decodeInt_onward x f
    · split_ifs
      · exact (decodeString_onward forward f).map _
      · exact ⟨nofun, nofun⟩
    · exact ⟨nofun, nofun⟩

theorem decodeList_onward {x : Text} (forward : Forward x) : ∀ fuel f : ℕ,
    2 * (x.length - f) + 2 ≤ fuel → Onward f (decodeList x fuel f)
  | 0, _, enough => by omega
  | fuel + 1, f, enough => by
    rw [decodeList]
    split
    · exact ⟨nofun, nofun⟩
    · exact ⟨nofun, fun _ _ h => by cases h; exact ⟨f + 1, rfl, Nat.lt_succ_self f⟩⟩
    · next first =>
      have := lt_of_item first
      refine (decode_onward forward fuel f (by omega)).bind fun v g more => ?_
      refine Onward.mono ?_ more.le
      exact (decodeList_onward forward fuel g (by omega)).bind fun r k above =>
        ⟨nofun, fun _ _ h => by cases h; exact ⟨k, rfl, above⟩⟩

theorem decodeDict_onward {x : Text} (forward : Forward x) : ∀ (fuel : ℕ) (lastkey : Option Text)
    (f : ℕ), 2 * (x.length - f) + 2 ≤ fuel → Onward f (decodeDict x fuel lastkey f)
  | 0, _, _, enough => by omega
  | fuel + 1, lastkey, f, enough => by
    rw [decodeDict]
    split
    · exact ⟨nofun, nofun⟩
    · exact ⟨nofun, fun _ _ h => by cases h; exact ⟨f + 1, rfl, Nat.lt_succ_self f⟩⟩
    · next first =>
      have := lt_of_item first
      refine (decodeString_onward forward f).bind fun k g more => ?_
      dsimp only
      split_ifs
      · exact ⟨nofun, nofun⟩
      · refine Onward.mono ?_ more.le
        refine (decode_onward forward fuel g (by omega)).bind fun v g' above => ?_
        refine Onward.mono ?_ above.le
        exact (decodeDict_onward forward fuel (some k) g' (by omega)).bind fun r k' beyond =>
          ⟨nofun, fun _ _ h => by cases h; exact ⟨k', rfl, beyond⟩⟩

end

/-- A text without a negative length is read, or refused with a `ValueError`; the limit that the
interpreter sets to a recursion is left out. -/
theorem bdecode_returns {x : Text} (forward : Forward x) {fuel : ℕ}
    (enough : 2 * x.length + 1 ≤ fuel) :
    (∃ v, bdecode fuel x = .ok v) ∨ bdecode fuel x = .error .valueError := by
  have back := (decode_onward forward fuel 0 enough).1
  rw [bdecode]
  split
  · exact .inr rfl
  next e other read =>
    cases e with
    | valueError => exact .inr rfl
    | lookupError => exact absurd rfl other
    | unfinished => exact absurd read back
  · split_ifs
    · exact .inl ⟨_, rfl⟩
    · exact .inr rfl

theorem bdecode_returns_list :
    (∃ v, bdecode 20 "li1e1:ae".toList = .ok v) ∨
      bdecode 20 "li1e1:ae".toList = .error .valueError := by
  have lengths : ∀ f ≤ 8, (index "li1e1:ae".toList ':' (f : ℕ)).all (fun colon : ℕ =>
      (toLong (slice "li1e1:ae".toList f colon)).all (0 ≤ ·)) := by decide
  refine bdecode_returns (fun f colon n found value => ?_) (by decide)
  have short : colon < 8 := (index_eq_some found).2.1
  have here := lengths f (by have := le_of_index found; omega)
  rw [found, Option.all_some, value] at here
  exact of_decide_eq_true here

/-- A list of a list of a number, and a string of so negative a length that the list goes on at its
beginning. -/
def around : Text := "lli1eed-8:".toList

theorem around_int : decodeInt around 2 = .ok (.int 1, 5) := by
  have found : index around 'e' (2 + 1) = some 4 := by decide
  have digits : toLong (slice around (2 + 1) (4 : ℕ)) = some 1 := by decide
  rw [decodeInt]
  simp only [found, digits]
  rw [if_neg (by decide), if_neg (by decide)]
  rfl

theorem around_string : decodeString around 7 = .ok ([], 2) := by
  have found : index around ':' 7 = some 9 := by decide
  have digits : toLong (slice around 7 (9 : ℕ)) = some (-8) := by decide
  rw [decodeString]
  simp only [found, digits]
  rw [if_neg (by decide)]
  rfl

/-- The dictionary ends where it begins. -/
theorem around_dict (fuel : ℕ) : decode around fuel 6 = .error .unfinished ∨
    ∃ v, decode around fuel 6 = .ok (v, 6) := by
  match fuel with
  | 0 => exact .inl rfl
  | 1 => exact .inl (decode_d rfl)
  | fuel + 2 =>
    rw [decode_d rfl, decodeDict_item rfl (by decide)]
    simp only [show (6 : ℤ) + 1 = 7 from rfl, around_string, bind, Except.bind]
    cases fuel with
    | zero => exact .inl rfl
    | succ fuel =>
      rw [if_neg (by decide), decode_i rfl, around_int]
      dsimp only
      rw [decodeDict_e rfl]
      exact .inr ⟨_, rfl⟩

theorem around_list (fuel : ℕ) : decodeList around fuel 6 = .error .unfinished := by
  induction fuel with
  | zero => rfl
  | succ fuel ih =>
    rw [decodeList_item rfl (by decide)]
    rcases around_dict fuel with out | ⟨v, back⟩
    · rw [out]
      rfl
    · simp only [back, bind, Except.bind, ih]
      rfl

/-- There is a text that the reader never comes to the end of. -/
theorem bdecode_never (fuel : ℕ) : bdecode fuel around = .error .unfinished := by
  have inner (fuel : ℕ) : decodeList around fuel 2 = .error .unfinished ∨
      ∃ l, decodeList around fuel 2 = .ok (l, 6) := by
    match fuel with
    | 0 => exact .inl rfl
    | 1 => exact .inl (decodeList_item rfl (by decide))
    | fuel + 2 =>
      rw [decodeList_item rfl (by decide), decode_i rfl, around_int]
      simp only [bind, Except.bind]
      rw [decodeList_e rfl]
      exact .inr ⟨_, rfl⟩
  have outer (fuel : ℕ) : decodeList around fuel 1 = .error .unfinished := by
    match fuel with
    | 0 => rfl
    | 1 => exact decodeList_item rfl (by decide)
    | fuel + 2 =>
      rw [decodeList_item rfl (by decide), decode_l rfl, show (1 : ℤ) + 1 = 2 from rfl]
      rcases inner fuel with out | ⟨l, read⟩
      · rw [out]
        rfl
      · simp only [read, Except.map, bind, Except.bind, around_list]
  cases fuel with
  | zero => rfl
  | succ fuel => rw [bdecode, decode_l rfl, Int.zero_add, outer, Except.map]

end Ydfs.BitTorrent.Bencode
