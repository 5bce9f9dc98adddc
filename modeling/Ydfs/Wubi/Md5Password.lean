import Mathlib.Data.List.Nodup
import Mathlib.Data.Nat.Digits.Defs
import Mathlib.Tactic.IntervalCases
import Ydfs.Wubi.Utils

/-!
# The password of the installed system

`md5_password` makes the entry for the new user that the installed system checks later with its own
`crypt`.  The program is compared with the algorithm: the digest over and over for the length of the
password, a byte for each binary digit of the length, a thousand rounds, and the digits of the result
in base 64 (`md5Crypt`).  A password is a string of bytes; the `unicode` that `get_text` gives is made
one by `update`, which raises `UnicodeEncodeError` for what is not ASCII.
-/

namespace Ydfs.Wubi.Utils

abbrev Digest := Vector UInt8 16

/-- A literal in ASCII. -/
def ascii (literal : String) : Str := literal.toList.map fun c => c.toNat.toUInt8

/-! ### `md5_password` -/

section Source

variable (md5 : Str → Digest)

/-- `hash.digest()` of an `md5` object. -/
def Hash.digest (hash : Hash) : Digest := md5 hash.fed

/-- `while i > 0`; an empty password has no first byte. -/
def feedLength (password : Str) (i : ℕ) (hash : Hash) : Option Hash :=
  if i = 0 then some hash
  else if i &&& 1 ≠ 0 then feedLength password (i >>> 1) (hash.update (ascii "\x00"))
  else do
    let first ← password.head?
    feedLength password (i >>> 1) (hash.update [first])
termination_by i
decreasing_by all_goals rw [Nat.shiftRight_eq_div_pow]; omega

/-- One of the thousand rounds. -/
def nthHash (password salt : Str) (hash : Digest) (i : ℕ) : Digest :=
  let nth : Hash := {}
  let nth := if i % 2 ≠ 0 then nth.update password else nth.update hash.toList
  let nth := if i % 3 ≠ 0 then nth.update salt else nth
  let nth := if i % 7 ≠ 0 then nth.update password else nth
  let nth := if i % 2 ≠ 0 then nth.update hash.toList else nth.update password
  nth.digest md5

def base64 : Str :=
  ascii "./0123456789ABCDEFGHIJKLMNOPQRSTUVWXYZabcdefghijklmnopqrstuvwxyz"

theorem base64_length : base64.length = 64 := by decide

/-- The loop of `b64_three_char`. -/
def b64 : ℕ → ℕ → Str
  | 0, _ => []
  | n + 1, w =>
    base64.get ⟨w &&& 0x3f, by rw [base64_length]; exact Nat.lt_succ_of_le Nat.and_le_right⟩ ::
      b64 n (w >>> 6)

def b64ThreeChar (byte2 byte1 byte0 : UInt8) (n : ℕ) : Str :=
  b64 n (byte2.toNat <<< 16 ||| byte1.toNat <<< 8 ||| byte0.toNat)

/-- `md5_password`, with the salt that has been chosen at random; `none` when the assertion or an
index fails. -/
def md5Password (salt password : Str) : Option Str := do
  let hash : Hash := {}
  let hash := ((hash.update password).update (ascii "$1$")).update salt
  let second : Hash := {}
  let second := ((second.update password).update salt).update password
  let second := (second.digest md5).toList
  let q := password.length / second.length
  let r := password.length % second.length
  let second := (List.replicate q second).flatten ++ second.take r
  guard (second.length = password.length)
  let hash := hash.update second
  let hash ← feedLength password password.length hash
  let hash := (List.range 1000).foldl (nthHash md5 password salt) (hash.digest md5)
  return ascii "$1$" ++ salt ++ ascii "$" ++
    b64ThreeChar hash[0] hash[6] hash[12] 4 ++ b64ThreeChar hash[1] hash[7] hash[13] 4 ++
    b64ThreeChar hash[2] hash[8] hash[14] 4 ++ b64ThreeChar hash[3] hash[9] hash[15] 4 ++
    b64ThreeChar hash[4] hash[10] hash[5] 4 ++ b64ThreeChar 0 0 hash[11] 2

def saltChars : Str :=
  ascii "./abcdefghijklmnopqrstuvwxyzABCDEFGHIJKLMNOPQRSTUVWXYZ0123456789"

end Source

/-! ### MD5-crypt -/

section Reference

variable (md5 : Str → Digest)

/-- The digest of password, salt and password over and over, for the length of the password. -/
def padding (salt password : Str) : Str :=
  let digest := md5 (password ++ salt ++ password)
  (List.range password.length).map fun i => digest.get ⟨i % 16, Nat.mod_lt i (by decide)⟩

/-- For each binary digit, from the lowest, a zero byte or the first of the password. -/
def digitBytes (password : Str) (n : ℕ) : Str :=
  (Nat.digits 2 n).flatMap fun digit => if digit = 1 then [0] else password.take 1

/-- The rounds. -/
def stretched (salt password : Str) : ℕ → Digest
  | 0 => md5 (password ++ ascii "$1$" ++ salt ++ padding md5 salt password ++
    digitBytes password password.length)
  | i + 1 =>
    let hash := (stretched salt password i).toList
    md5 ((if 2 ∣ i then hash else password) ++ (if 3 ∣ i then [] else salt) ++
      (if 7 ∣ i then [] else password) ++ (if 2 ∣ i then password else hash))

def itoa64 : Str :=
  ascii "./0123456789ABCDEFGHIJKLMNOPQRSTUVWXYZabcdefghijklmnopqrstuvwxyz"

/-- The lowest `n` digits in base 64. -/
def to64 (v n : ℕ) : Str := (List.range n).map fun k => itoa64.getD (v / 64 ^ k % 64) 0

/-- The bytes that make up a number, from the lowest. -/
def number (bytes : List UInt8) : ℕ := Nat.ofDigits 256 (bytes.map UInt8.toNat)

/-- The 22 letters at the end. -/
def tail (d : Digest) : Str :=
  to64 (number [d[12], d[6], d[0]]) 4 ++ to64 (number [d[13], d[7], d[1]]) 4 ++
    to64 (number [d[14], d[8], d[2]]) 4 ++ to64 (number [d[15], d[9], d[3]]) 4 ++
    to64 (number [d[5], d[10], d[4]]) 4 ++ to64 (number [d[11]]) 2

/-- The entry for a password, with this salt. -/
def md5Crypt (salt password : Str) : Str :=
  ascii "$1$" ++ salt ++ ascii "$" ++ tail (stretched md5 salt password 1000)

/-- `crypt` of a password with an entry, of which it takes the salt. -/
def crypt (password entry : Str) : Str :=
  md5Crypt md5 (((entry.drop 3).takeWhile (· ≠ 0x24)).take 8) password

end Reference

variable {md5 : Str → Digest} {salt password : Str} {hash : Hash}

/-! ### The pieces agree -/

/-- A list with the period `m`, from whole periods and a part of one. -/
theorem replicate_append_take {α : Type} {f : ℕ → α} {m r : ℕ} (q : ℕ)
    (period : ∀ i, f (m + i) = f i) (part : r ≤ m) :
    (List.replicate q ((List.range m).map f)).flatten ++ ((List.range m).map f).take r =
      (List.range (q * m + r)).map f := by
  induction q with
  | zero =>
    rw [List.replicate_zero, List.flatten_nil, List.nil_append, ← List.map_take, List.take_range,
      Nat.min_eq_left part, Nat.zero_mul, Nat.zero_add]
  | succ q ih =>
    have more : (q + 1) * m + r = m + (q * m + r) := by rw [Nat.succ_mul]; omega
    have shifted : (f ∘ fun i => m + i) = f := funext period
    rw [List.replicate_succ, List.flatten_cons, List.append_assoc, ih, more,
      @List.range_add m, List.map_append, List.map_map, shifted]

theorem digest_toList (d : Digest) :
    d.toList = (List.range 16).map fun i => d.get ⟨i % 16, Nat.mod_lt i (by decide)⟩ := by
  apply List.ext_getElem
  · simp
  · intro i h h'
    have small : i < 16 := by simpa using h
    simp only [Vector.getElem_toList, List.getElem_map, List.getElem_range, Nat.mod_eq_of_lt small]
    rfl

theorem padding_eq (md5 : Str → Digest) (salt password : Str) :
    let second := (md5 (password ++ salt ++ password)).toList
    (List.replicate (password.length / second.length) second).flatten ++
      second.take (password.length % second.length) = padding md5 salt password := by
  have split : password.length / 16 * 16 + password.length % 16 = password.length :=
    Nat.div_add_mod' password.length 16
  dsimp only
  rw [Vector.length_toList, digest_toList, replicate_append_take _ (by simp) (by omega), split]
  rfl

theorem padding_length : (padding md5 salt password).length = password.length := by
  simp [padding]

theorem digitBytes_of_pos {n : ℕ} (pos : n ≠ 0) :
    digitBytes password n =
      (if n % 2 = 1 then [0] else password.take 1) ++ digitBytes password (n / 2) := by
  rw [digitBytes, Nat.digits_def' (by decide) (Nat.pos_of_ne_zero pos), List.flatMap_cons]
  rfl

/-- The loop over the length fails for no password: that of an empty one has no digits. -/
theorem feedLength_eq (n : ℕ) (hash : Hash) (filled : n = 0 ∨ password ≠ []) :
    feedLength password n hash = some (hash.update (digitBytes password n)) := by
  fun_induction feedLength password n hash with
  | case1 hash => exact congrArg some hash.update_nil.symm
  | case2 n hash pos odd ih =>
    have digit : n % 2 = 1 := by
      rw [Nat.and_one_is_mod] at odd
      omega
    rw [ih (.inr (filled.resolve_left pos)), Hash.update_update, digitBytes_of_pos pos, if_pos digit,
      Nat.shiftRight_one]
    rfl
  | case3 n hash pos even ih =>
    have digit : n % 2 ≠ 1 := by
      rw [Nat.and_one_is_mod] at even
      omega
    obtain ⟨first, rest, rfl⟩ := List.exists_cons_of_ne_nil (filled.resolve_left pos)
    have later := ih first (.inr (filled.resolve_left pos))
    rw [Hash.update_update] at later
    rw [digitBytes_of_pos pos, if_neg digit]
    exact later

/-- A round of the program is one of the algorithm. -/
theorem stretched_succ (i : ℕ) :
    stretched md5 salt password (i + 1) =
      nthHash md5 password salt (stretched md5 salt password i) i := by
  rw [stretched, nthHash, Hash.digest]
  simp only [Nat.dvd_iff_mod_eq_zero, Hash.update, ite_not]
  split_ifs <;> simp

theorem foldl_nthHash (n : ℕ) :
    (List.range n).foldl (nthHash md5 password salt) (stretched md5 salt password 0) =
      stretched md5 salt password n := by
  induction n with
  | zero => rfl
  | succ n ih => rw [List.range_succ, List.foldl_append, ih, List.foldl_cons, List.foldl_nil,
      stretched_succ]

/-! ### Digits in base 64 -/

/-- The lowest digit, and the digits of the rest. -/
theorem to64_succ (v n : ℕ) :
    to64 v (n + 1) = itoa64.getD (v % 64) 0 :: to64 (v / 64) n := by
  simp only [to64, List.range_succ_eq_map, List.map_cons, List.map_map, pow_zero, Nat.div_one]
  congr 1
  apply List.map_congr_left
  intro k _
  rw [Function.comp_apply, Nat.pow_succ', Nat.div_div_eq_div_mul]

theorem base64_eq : base64 = itoa64 := rfl

theorem itoa64_length : itoa64.length = 64 := base64_length

theorem b64_eq (n w : ℕ) : b64 n w = to64 w n := by
  induction n generalizing w with
  | zero => rfl
  | succ n ih =>
    have digit : w &&& 0x3f = w % 64 := Nat.and_two_pow_sub_one_eq_mod w 6
    have rest : w >>> 6 = w / 64 := Nat.shiftRight_eq_div_pow w 6
    have small : w % 64 < itoa64.length := itoa64_length ▸ Nat.mod_lt w (by decide)
    rw [b64, ih, to64_succ, rest, List.getD_eq_getElem?_getD, List.getElem?_eq_getElem small,
      Option.getD_some, List.get_eq_getElem]
    simp only [digit, base64_eq]

/-- Shifts and `|` put three bytes together. -/
theorem number_three (byte2 byte1 byte0 : UInt8) :
    byte2.toNat <<< 16 ||| byte1.toNat <<< 8 ||| byte0.toNat = number [byte0, byte1, byte2] := by
  have h1 := byte1.toNat_lt
  have h0 := byte0.toNat_lt
  have low : byte1.toNat <<< 8 + byte0.toNat = byte1.toNat <<< 8 ||| byte0.toNat :=
    Nat.shiftLeft_add_eq_or_of_lt h0 _
  have high : byte2.toNat <<< 16 + (byte1.toNat <<< 8 ||| byte0.toNat) =
      byte2.toNat <<< 16 ||| (byte1.toNat <<< 8 ||| byte0.toNat) := by
    apply Nat.shiftLeft_add_eq_or_of_lt
    rw [← low, Nat.shiftLeft_eq]
    omega
  rw [Nat.or_assoc, ← high, ← low, Nat.shiftLeft_eq, Nat.shiftLeft_eq]
  simp [number, Nat.ofDigits]
  omega

theorem b64ThreeChar_eq (byte2 byte1 byte0 : UInt8) (n : ℕ) :
    b64ThreeChar byte2 byte1 byte0 n = to64 (number [byte0, byte1, byte2]) n := by
  rw [b64ThreeChar, b64_eq, number_three]

/-- The last group has two zero bytes, which make no difference. -/
theorem number_last (byte : UInt8) : number [byte, 0, 0] = number [byte] := by
  simp [number, Nat.ofDigits]

/-! ### The tail -/

theorem itoa64_nodup : itoa64.Nodup := by decide

/-- Digits that look the same are the same. -/
theorem itoa64_getD_inj {i j : ℕ} (same : itoa64.getD (i % 64) 0 = itoa64.getD (j % 64) 0) :
    i % 64 = j % 64 := by
  have hi : i % 64 < itoa64.length := itoa64_length ▸ Nat.mod_lt i (by decide)
  have hj : j % 64 < itoa64.length := itoa64_length ▸ Nat.mod_lt j (by decide)
  rw [List.getD_eq_getElem?_getD, List.getD_eq_getElem?_getD, List.getElem?_eq_getElem hi,
    List.getElem?_eq_getElem hj] at same
  exact (List.Nodup.getElem_inj_iff itoa64_nodup).1 same

theorem to64_length (v n : ℕ) : (to64 v n).length = n := by simp [to64]

/-- Numbers below `64 ^ n` have their own digits. -/
theorem to64_inj {v w n : ℕ} (hv : v < 64 ^ n) (hw : w < 64 ^ n) (same : to64 v n = to64 w n) :
    v = w := by
  induction n generalizing v w with
  | zero => omega
  | succ n ih =>
    rw [to64_succ, to64_succ] at same
    obtain ⟨digit, rest⟩ := List.cons.inj same
    rw [Nat.pow_succ] at hv hw
    have high := ih (Nat.div_lt_of_lt_mul (by omega)) (Nat.div_lt_of_lt_mul (by omega)) rest
    have low := itoa64_getD_inj digit
    omega

theorem number_lt (bytes : List UInt8) : number bytes < 256 ^ bytes.length := by
  have small : ∀ x ∈ bytes.map UInt8.toNat, x < 256 := by
    intro x mem
    obtain ⟨byte, -, rfl⟩ := List.mem_map.1 mem
    exact byte.toNat_lt
  simpa [number] using Nat.ofDigits_lt_base_pow_length (by decide) small

theorem number_inj {bytes bytes' : List UInt8} (length : bytes.length = bytes'.length)
    (same : number bytes = number bytes') : bytes = bytes' := by
  have small (l : List UInt8) : ∀ x ∈ l.map UInt8.toNat, x < 256 := by
    intro x mem
    obtain ⟨byte, -, rfl⟩ := List.mem_map.1 mem
    exact byte.toNat_lt
  have digits := Nat.ofDigits_inj_of_len_eq (by decide) (by simpa using length) (small bytes)
    (small bytes') same
  exact (List.map_inj_right fun _ _ => UInt8.toNat_inj.1).1 digits

/-- A group of the tail has its bytes. -/
theorem group_inj {bytes bytes' : List UInt8} {n : ℕ} (length : bytes.length = bytes'.length)
    (fits : 256 ^ bytes.length ≤ 64 ^ n) (same : to64 (number bytes) n = to64 (number bytes') n) :
    bytes = bytes' := by
  apply number_inj length
  exact to64_inj ((number_lt bytes).trans_le fits) ((number_lt bytes').trans_le (length ▸ fits)) same

theorem triple_inj {a b c a' b' c' : UInt8}
    (same : to64 (number [a, b, c]) 4 = to64 (number [a', b', c']) 4) :
    a = a' ∧ b = b' ∧ c = c' := by
  have bytes : [a, b, c] = [a', b', c'] := group_inj (by simp) (by simp) same
  simpa using bytes

theorem tail_length (d : Digest) : (tail d).length = 22 := by
  simp [tail, to64_length]

/-- The tail has all bytes of the digest. -/
theorem tail_injective : Function.Injective tail := by
  intro d d' same
  simp only [tail] at same
  obtain ⟨same, last⟩ := List.append_inj same (by simp [to64_length])
  obtain ⟨same, g4⟩ := List.append_inj same (by simp [to64_length])
  obtain ⟨same, g3⟩ := List.append_inj same (by simp [to64_length])
  obtain ⟨same, g2⟩ := List.append_inj same (by simp [to64_length])
  obtain ⟨g0, g1⟩ := List.append_inj same (by simp [to64_length])
  obtain ⟨b12, b6, b0⟩ := triple_inj g0
  obtain ⟨b13, b7, b1⟩ := triple_inj g1
  obtain ⟨b14, b8, b2⟩ := triple_inj g2
  obtain ⟨b15, b9, b3⟩ := triple_inj g3
  obtain ⟨b5, b10, b4⟩ := triple_inj g4
  have b11 : d[11] = d'[11] := List.head_eq_of_cons_eq (group_inj (by simp) (by simp) last)
  apply Vector.ext
  intro i hi
  interval_cases i <;> assumption

/-! ### The entry -/

/-- The program computes what the algorithm says. -/
theorem md5Password_eq (md5 : Str → Digest) (salt password : Str) :
    md5Password md5 salt password = some (md5Crypt md5 salt password) := by
  have pad := padding_eq md5 salt password
  have filled : password.length = 0 ∨ password ≠ [] := by
    rw [List.length_eq_zero_iff]
    exact em _
  have rounds : (List.range 1000).foldl (nthHash md5 password salt) (md5 (password ++ ascii "$1$" ++
      salt ++ padding md5 salt password ++ digitBytes password password.length)) =
        stretched md5 salt password 1000 := foldl_nthHash 1000
  dsimp only at pad
  simp only [md5Password, Hash.digest, Hash.update, List.nil_append, pad, padding_length, guard_true,
    feedLength_eq _ _ filled, Option.pure_def, Option.bind_eq_bind, Option.bind_some, rounds,
    b64ThreeChar_eq, number_last]
  simp only [md5Crypt, tail, List.append_assoc]

/-- `md5_password` makes the entry of MD5-crypt for every password and every salt of five bytes, and
the tail of an entry has all bytes of the last digest. -/
theorem md5_password_is_md5_crypt (md5 : Str → Digest) (salt : Vector UInt8 5) (password : Str) :
    md5Password md5 salt.toList password = some (ascii "$1$" ++ salt.toList ++ ascii "$" ++
        tail (stretched md5 salt.toList password 1000)) ∧
      (∀ d, (tail d).length = 22) ∧ Function.Injective tail :=
  ⟨md5Password_eq md5 salt.toList password, tail_length, tail_injective⟩

/-- `random.choice(salt_chars)` five times. -/
def chosenSalt (choices : Vector (Fin saltChars.length) 5) : Str := choices.toList.map saltChars.get

theorem dollar_not_mem_chosenSalt (choices : Vector (Fin saltChars.length) 5) :
    0x24 ∉ chosenSalt choices := by
  have free : 0x24 ∉ saltChars := by decide
  intro mem
  obtain ⟨i, -, is⟩ := List.mem_map.1 mem
  exact free (is ▸ List.get_mem saltChars i)

/-- The user is let in: `crypt` of the password with the entry gives the entry again. -/
theorem crypt_md5Password (md5 : Str → Digest) (choices : Vector (Fin saltChars.length) 5)
    {password entry : Str} (made : md5Password md5 (chosenSalt choices) password = some entry) :
    crypt md5 password entry = entry := by
  rw [md5Password_eq] at made
  obtain rfl := Option.some.inj made
  have rest : (md5Crypt md5 (chosenSalt choices) password).drop 3 = chosenSalt choices ++
      0x24 :: tail (stretched md5 (chosenSalt choices) password 1000) := by
    simp only [md5Crypt, List.append_assoc]
    rfl
  have plain : ∀ c ∈ chosenSalt choices, decide (c ≠ 0x24) = true := by
    intro c mem
    rw [decide_eq_true_eq]
    rintro rfl
    exact dollar_not_mem_chosenSalt choices mem
  have short : (chosenSalt choices).length ≤ 8 := by simp [chosenSalt]
  rw [crypt, rest, List.takeWhile_append_of_pos plain, List.takeWhile_cons_of_neg (by decide),
    List.append_nil, List.take_of_length_le short]

end Ydfs.Wubi.Utils
