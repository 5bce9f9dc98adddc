import Ydfs.BitTorrent.Bitfield
import Ydfs.BitTorrent.Encrypter

/-!
# The messages of two peers

After the handshake the peers send each other messages.  What a peer takes for a message is what
another one sends for it, and nothing else: everything else closes the connection (`got_message_iff`).
-/

namespace Ydfs.BitTorrent

open Wubi.Sax (Text)

/-! ### The model of the source -/

def CHOKE : Char := Char.ofNat 0
def UNCHOKE : Char := Char.ofNat 1
def INTERESTED : Char := Char.ofNat 2
def NOT_INTERESTED : Char := Char.ofNat 3
def HAVE : Char := Char.ofNat 4
def BITFIELD : Char := Char.ofNat 5
def REQUEST : Char := Char.ofNat 6
def PIECE : Char := Char.ofNat 7
def CANCEL : Char := Char.ofNat 8

/-- What a peer says to another one. -/
inductive Message where
  | choke
  | unchoke
  | interested
  | not_interested
  | have_ (index : ℕ)
  | bitfield (b : Bitfield)
  | request (index start length : ℕ)
  | cancel (index start length : ℕ)
  | piece (index start : ℕ) (s : Text)

namespace Message

variable {numpieces : ℕ} {got_anything : Bool} {m : Message} {message s : Text} {t : Char}

/-- The text that `send_choke`, `send_unchoke` and so on send; the numbers are below `2 ^ 32`. -/
def send : Message → Option Text
  | choke => some [CHOKE]
  | unchoke => some [UNCHOKE]
  | interested => some [INTERESTED]
  | not_interested => some [NOT_INTERESTED]
  | have_ index => some (HAVE :: tobinary index)
  | bitfield b => b.tostring.map (BITFIELD :: ·)
  | request index start length =>
    some (REQUEST :: (tobinary index ++ tobinary start ++ tobinary length))
  | cancel index start length =>
    some (CANCEL :: (tobinary index ++ tobinary start ++ tobinary length))
  | piece index start s => some (PIECE :: (tobinary index ++ tobinary start ++ s))

/-- `message[i:j]` -/
def part (message : Text) (i j : ℕ) : Text := (message.take j).drop i

/-- `got_message`, up to the call that it makes; `none` is where it closes the connection.  Nothing came
before, or `got_anything` is set.  A message is never empty. -/
def got_message (numpieces : ℕ) (got_anything : Bool) (message : Text) : Option Message :=
  match message with
  | [] => none
  | t :: _ =>
  if t = BITFIELD ∧ got_anything = true then none
  else if t ∈ [CHOKE, UNCHOKE, INTERESTED, NOT_INTERESTED] ∧ message.length ≠ 1 then none
  else if t = CHOKE then some choke
  else if t = UNCHOKE then some unchoke
  else if t = INTERESTED then some interested
  else if t = NOT_INTERESTED then some not_interested
  else if t = HAVE then
    if message.length ≠ 5 then none
    else
      let i := toint (message.drop 1)
      if numpieces ≤ i then none else some (have_ i)
  else if t = BITFIELD then (Bitfield.init numpieces (message.drop 1)).map bitfield
  else if t = REQUEST then
    if message.length ≠ 13 then none
    else
      let i := toint (part message 1 5)
      if numpieces ≤ i then none
      else some (request i (toint (part message 5 9)) (toint (message.drop 9)))
  else if t = CANCEL then
    if message.length ≠ 13 then none
    else
      let i := toint (part message 1 5)
      if numpieces ≤ i then none
      else some (cancel i (toint (part message 5 9)) (toint (message.drop 9)))
  else if t = PIECE then
    if message.length ≤ 9 then none
    else
      let i := toint (part message 1 5)
      if numpieces ≤ i then none
      else some (piece i (toint (part message 5 9)) (message.drop 9))
  else none

/-! ### What is a message -/

/-- The messages that a peer may send -/
def Proper (numpieces : ℕ) (got_anything : Bool) : Message → Prop
  | have_ index => index < numpieces ∧ index < 2 ^ 32
  | bitfield b => b.length = numpieces ∧ got_anything = false
  | request index start length | cancel index start length =>
    index < numpieces ∧ index < 2 ^ 32 ∧ start < 2 ^ 32 ∧ length < 2 ^ 32
  | piece index start s => index < numpieces ∧ index < 2 ^ 32 ∧ start < 2 ^ 32 ∧ s ≠ []
  | _ => True

/-! ### Each kind of message -/

theorem got_have (rest : Text) : got_message numpieces got_anything (HAVE :: rest) =
    if rest.length + 1 ≠ 5 then none
    else if numpieces ≤ toint rest then none else some (have_ (toint rest)) := rfl

theorem got_bitfield (rest : Text) : got_message numpieces got_anything (BITFIELD :: rest) =
    if got_anything then none else (Bitfield.init numpieces rest).map bitfield := by
  cases got_anything <;> rfl

theorem got_request (rest : Text) : got_message numpieces got_anything (REQUEST :: rest) =
    if rest.length + 1 ≠ 13 then none
    else if numpieces ≤ toint (rest.take 4) then none
    else some (request (toint (rest.take 4)) (toint ((rest.take 8).drop 4)) (toint (rest.drop 8))) := rfl

theorem got_cancel (rest : Text) : got_message numpieces got_anything (CANCEL :: rest) =
    if rest.length + 1 ≠ 13 then none
    else if numpieces ≤ toint (rest.take 4) then none
    else some (cancel (toint (rest.take 4)) (toint ((rest.take 8).drop 4)) (toint (rest.drop 8))) := rfl

theorem got_piece (rest : Text) : got_message numpieces got_anything (PIECE :: rest) =
    if rest.length + 1 ≤ 9 then none
    else if numpieces ≤ toint (rest.take 4) then none
    else some (piece (toint (rest.take 4)) (toint ((rest.take 8).drop 4)) (rest.drop 8)) := rfl

theorem got_other (h : t ∉ [CHOKE, UNCHOKE, INTERESTED, NOT_INTERESTED, HAVE, BITFIELD, REQUEST, CANCEL,
    PIECE]) (rest : Text) : got_message numpieces got_anything (t :: rest) = none := by
  simp only [List.mem_cons, List.not_mem_nil, or_false, not_or] at h
  obtain ⟨h0, h1, h2, h3, h4, h5, h6, h7, h8⟩ := h
  simp [got_message, h0, h1, h2, h3, h4, h5, h6, h7, h8]

/-- Four bytes are a number, and its text. -/
theorem number {s : Text} (bytes : Bytes s) (four : s.length = 4) :
    toint s < 2 ^ 32 ∧ tobinary (toint s) = s := by
  have less := toint_lt bytes
  rw [four] at less
  exact ⟨less, tobinary_toint bytes four⟩

theorem take_numbers (i j : ℕ) (s : Text) :
    (tobinary i ++ tobinary j ++ s).take 4 = tobinary i ∧
      ((tobinary i ++ tobinary j ++ s).take 8).drop 4 = tobinary j ∧
      (tobinary i ++ tobinary j ++ s).drop 8 = s := ⟨rfl, rfl, rfl⟩

theorem numbers {s : Text} (bytes : Bytes s) (long : 8 ≤ s.length) :
    toint (s.take 4) < 2 ^ 32 ∧ toint ((s.take 8).drop 4) < 2 ^ 32 ∧
      tobinary (toint (s.take 4)) ++ tobinary (toint ((s.take 8).drop 4)) ++ s.drop 8 = s := by
  have sub : Bytes (s.take 4) ∧ Bytes ((s.take 8).drop 4) :=
    ⟨fun c mem => bytes c (List.mem_of_mem_take mem),
      fun c mem => bytes c (List.mem_of_mem_take (List.mem_of_mem_drop mem))⟩
  obtain ⟨less, same⟩ := number sub.1 (by rw [List.length_take]; omega)
  obtain ⟨less', same'⟩ := number sub.2 (by rw [List.length_drop, List.length_take]; omega)
  refine ⟨less, less', ?_⟩
  have front : s.take 4 ++ (s.take 8).drop 4 = s.take 8 := by
    conv_rhs => rw [← List.take_append_drop 4 (s.take 8), List.take_take]
    rfl
  rw [same, same', front, List.take_append_drop]

/-- What is sent is taken for what it is. -/
theorem got_send (proper : m.Proper numpieces got_anything) (sent : m.send = some message)
    (bytes : Bytes message) : got_message numpieces got_anything message = some m := by
  cases m with
  | choke | unchoke | interested | not_interested =>
    rw [send, Option.some.injEq] at sent
    subst sent
    rfl
  | have_ index =>
    rw [send, Option.some.injEq] at sent
    subst sent
    obtain ⟨less, small⟩ := proper
    rw [got_have, toint_tobinary small, if_neg (by rw [length_tobinary]; decide), if_neg (by omega)]
  | bitfield b =>
    rw [send, Option.map_eq_some_iff] at sent
    obtain ⟨rest, text, rfl⟩ := sent
    obtain ⟨size, rfl⟩ := proper
    rw [got_bitfield, (Bitfield.init_eq_some (bytes_cons.1 bytes).2).2 ⟨size, text⟩]
    rfl
  | request index start length | cancel index start length =>
    rw [send, Option.some.injEq] at sent
    subst sent
    obtain ⟨less, small, small', small''⟩ := proper
    obtain ⟨one, two, three⟩ := take_numbers index start (tobinary length)
    first | rw [got_request] | rw [got_cancel]
    rw [one, two, three, toint_tobinary small, toint_tobinary small', toint_tobinary small'',
      if_neg (fun other => other rfl), if_neg (by omega)]
  | piece index start s =>
    rw [send, Option.some.injEq] at sent
    subst sent
    obtain ⟨less, small, small', some_⟩ := proper
    obtain ⟨one, two, three⟩ := take_numbers index start s
    have long := List.length_pos_iff.2 some_
    rw [got_piece, one, two, three, toint_tobinary small, toint_tobinary small', if_neg, if_neg (by omega)]
    rw [List.length_append, List.length_append, length_tobinary, length_tobinary]
    omega

/-- Three numbers -/
theorem numbers_three {s : Text} (bytes : Bytes s) (size : s.length = 12) :
    toint (s.take 4) < 2 ^ 32 ∧ toint ((s.take 8).drop 4) < 2 ^ 32 ∧ toint (s.drop 8) < 2 ^ 32 ∧
      tobinary (toint (s.take 4)) ++ tobinary (toint ((s.take 8).drop 4)) ++
        tobinary (toint (s.drop 8)) = s := by
  obtain ⟨small, small', same⟩ := numbers bytes (by omega)
  obtain ⟨small'', same'⟩ := number (s := s.drop 8) (fun c mem => bytes c (List.mem_of_mem_drop mem))
    (by rw [List.length_drop]; omega)
  exact ⟨small, small', small'', by rw [same', same]⟩

/-- What is taken for a message is what is sent for it. -/
theorem send_got (bytes : Bytes message) (got : got_message numpieces got_anything message = some m) :
    m.Proper numpieces got_anything ∧ m.send = some message := by
  cases message with
  | nil => exact absurd got (Option.some_ne_none m).symm
  | cons t rest =>
    have behind := (bytes_cons.1 bytes).2
    by_cases known : t ∈ [CHOKE, UNCHOKE, INTERESTED, NOT_INTERESTED, HAVE, BITFIELD, REQUEST, CANCEL,
      PIECE]
    · simp only [List.mem_cons, List.not_mem_nil, or_false] at known
      rcases known with rfl | rfl | rfl | rfl | rfl | rfl | rfl | rfl | rfl
      case inr.inr.inr.inr.inl =>
        rw [got_have] at got
        split_ifs at got with size less
        obtain rfl := Option.some.inj got
        obtain ⟨small, same⟩ := number behind (by omega)
        exact ⟨⟨Nat.lt_of_not_le less, small⟩, by rw [send, same]⟩
      case inr.inr.inr.inr.inr.inl =>
        rw [got_bitfield] at got
        split_ifs at got with early
        obtain ⟨b, made, rfl⟩ := Option.map_eq_some_iff.1 got
        obtain ⟨size, text⟩ := (Bitfield.init_eq_some behind).1 made
        exact ⟨⟨size, Bool.eq_false_iff.2 early⟩, by rw [send, text, Option.map_some]⟩
      case inr.inr.inr.inr.inr.inr.inl =>
        rw [got_request] at got
        split_ifs at got with size less
        obtain rfl := Option.some.inj got
        obtain ⟨small, small', small'', same⟩ := numbers_three behind (by omega)
        exact ⟨⟨Nat.lt_of_not_le less, small, small', small''⟩, by rw [send, same]⟩
      case inr.inr.inr.inr.inr.inr.inr.inl =>
        rw [got_cancel] at got
        split_ifs at got with size less
        obtain rfl := Option.some.inj got
        obtain ⟨small, small', small'', same⟩ := numbers_three behind (by omega)
        exact ⟨⟨Nat.lt_of_not_le less, small, small', small''⟩, by rw [send, same]⟩
      case inr.inr.inr.inr.inr.inr.inr.inr =>
        rw [got_piece] at got
        split_ifs at got with size less
        obtain rfl := Option.some.inj got
        obtain ⟨small, small', same⟩ := numbers behind (by omega)
        refine ⟨⟨Nat.lt_of_not_le less, small, small', fun e => ?_⟩, by rw [send, same]⟩
        have short := List.drop_eq_nil_iff.1 e
        omega
      all_goals
        cases rest with
        | nil =>
          obtain rfl := Option.some.inj got
          exact ⟨trivial, rfl⟩
        | cons c rest => exact absurd got (Option.some_ne_none m).symm
    · rw [got_other known] at got
      exact absurd got (Option.some_ne_none m).symm

/-- A peer takes for a message what is sent for it, if it may be sent, and nothing else. -/
theorem got_message_iff (bytes : Bytes message) : got_message numpieces got_anything message = some m ↔
    m.Proper numpieces got_anything ∧ m.send = some message :=
  ⟨send_got bytes, fun h => got_send h.1 h.2 bytes⟩

theorem got_message_iff_request : got_message 3 true
    (REQUEST :: (tobinary 1 ++ tobinary 5 ++ tobinary 6)) = some (request 1 5 6) := by
  have bytes : Bytes (REQUEST :: (tobinary 1 ++ tobinary 5 ++ tobinary 6)) := by
    refine bytes_cons.2 ⟨by decide, bytes_append.2 ⟨bytes_append.2 ⟨?_, ?_⟩, ?_⟩⟩
    all_goals exact bytes_tobinary (by decide)
  exact (got_message_iff bytes).2 ⟨by rw [Proper]; decide, rfl⟩

end Message

end Ydfs.BitTorrent
