import Ydfs.BitTorrent.Storage
import Ydfs.Files.Places

/-!
# The pieces of a torrent

A `StorageWrapper` takes the blocks of the pieces as they come, in any order, and keeps each piece in a
place of the file.  A piece that is new gets a place at once, the first that is free or its own, and to
this end another piece may be moved; so the file grows from its beginning.
-/

namespace Ydfs.BitTorrent

open Wubi.Sax (Text)

/-- What of a piece is to be requested: all of it (`1` in the source), these blocks, or nothing any
more (`None`). -/
inductive Inactive where
  | all
  | blocks (l : List (ℕ × ℕ))
  | none
deriving DecidableEq

/-- What a wrapper tells its owner. -/
inductive Call where
  | finished
  | failed (reason : Text)
  | data_flunked (size : ℕ)
deriving DecidableEq

/-- A `StorageWrapper`; `calls` are the calls of `finished`, `failed` and `data_flunked`. -/
structure StorageWrapper (δ : Type) where
  storage : Storage
  request_size : ℕ
  hashes : List δ
  piece_size : ℕ
  total_length : ℕ
  amount_left : ℤ
  numactive : ℕ → ℤ
  inactive_requests : ℕ → Inactive
  amount_inactive : ℤ
  endgame : Bool
  have_ : ℕ → Bool
  waschecked : ℕ → Bool
  places : ℕ → Option ℕ
  holes : List ℕ
  calls : List Call

namespace StorageWrapper

variable {δ : Type} [DecidableEq δ] (sha : Text → δ) (order : List (ℕ × ℕ) → List (ℕ × ℕ))

/-- `_piecelen` -/
def piecelen (w : StorageWrapper δ) (piece : ℕ) : ℕ :=
  if piece + 1 < w.hashes.length then w.piece_size else w.total_length - piece * w.piece_size

/-- `_waspre` -/
def waspre (w : StorageWrapper δ) (piece : ℕ) : Bool :=
  w.storage.was_preallocated (piece * w.piece_size) (w.piecelen piece)

/-- `get_amount_left` -/
def get_amount_left (w : StorageWrapper δ) : ℤ := w.amount_left

/-- `do_I_have_anything` -/
def do_I_have_anything (w : StorageWrapper δ) : Bool := w.amount_left < w.total_length

/-- `do_I_have_requests` -/
def do_I_have_requests (w : StorageWrapper δ) (index : ℕ) : Bool :=
  match w.inactive_requests index with
  | .all => true
  | .blocks l => !l.isEmpty
  | .none => false

/-! ### Requests -/

/-- The loop of `_make_inactive`, from `x` on; it takes no more turns than the piece has bytes. -/
def blocksFrom (request_size length : ℕ) : ℕ → ℕ → List (ℕ × ℕ)
  | 0, x => [(x, length - x)]
  | fuel + 1, x =>
    if x + request_size < length then
      (x, request_size) :: blocksFrom request_size length fuel (x + request_size)
    else [(x, length - x)]

/-- `_make_inactive` -/
def make_inactive (w : StorageWrapper δ) (index : ℕ) : StorageWrapper δ :=
  let length := min w.piece_size (w.total_length - w.piece_size * index)
  let l := blocksFrom w.request_size length length 0
  { w with inactive_requests := Function.update w.inactive_requests index (.blocks l) }

/-- The smaller of two tuples -/
def minBlock (r s : ℕ × ℕ) : ℕ × ℕ := if s.1 < r.1 ∨ s.1 = r.1 ∧ s.2 < r.2 then s else r

/-- `new_request`; `none` is for the exception where there is nothing to request. -/
def new_request (w : StorageWrapper δ) (index : ℕ) : Option ((ℕ × ℕ) × StorageWrapper δ) :=
  let w := if w.inactive_requests index = .all then w.make_inactive index else w
  match w.inactive_requests index with
  | .blocks (b :: l) =>
    let r := l.foldl minBlock b
    let amount_inactive := w.amount_inactive - r.2
    some (r, { w with
      numactive := Function.update w.numactive index (w.numactive index + 1)
      inactive_requests := Function.update w.inactive_requests index (.blocks ((b :: l).erase r))
      amount_inactive := amount_inactive
      endgame := if amount_inactive = 0 then true else w.endgame })
  | _ => none

/-- `request_lost` -/
def request_lost (w : StorageWrapper δ) (index start length : ℕ) : Option (StorageWrapper δ) :=
  match w.inactive_requests index with
  | .blocks l => some { w with
      inactive_requests := Function.update w.inactive_requests index (.blocks (l ++ [(start, length)]))
      amount_inactive := w.amount_inactive + length
      numactive := Function.update w.numactive index (w.numactive index - 1) }
  | _ => none

/-! ### Blocks that come in -/

/-- `self.places.items()`; `order` is the order in which the dictionary has them. -/
def items (w : StorageWrapper δ) : List (ℕ × ℕ) :=
  order ((List.range w.hashes.length).filterMap fun p => (w.places p).map (p, ·))

/-- The loop that looks for the piece in a place; the variable keeps the last piece if none is. -/
def occupant (w : StorageWrapper δ) (index : ℕ) : Option ℕ :=
  (((w.items order).find? fun i => i.2 = index).or (w.items order).getLast?).map (·.1)

def place (w : StorageWrapper δ) (piece pos : ℕ) : StorageWrapper δ :=
  { w with places := Function.update w.places piece (some pos) }

/-- `self.storage.write` at an offset in a place -/
def writePlace (w : StorageWrapper δ) (pos start : ℕ) (s : Text) : StorageWrapper δ :=
  { w with storage := w.storage.write (w.piece_size * pos + start) s }

/-- `self.storage.read` from the beginning of a place -/
def readPlace (w : StorageWrapper δ) (pos amount : ℕ) : Text :=
  w.storage.read (w.piece_size * pos) amount

def call (w : StorageWrapper δ) (c : Call) : StorageWrapper δ := { w with calls := w.calls ++ [c] }

/-- A piece is moved from a place to its own. -/
def bring (w : StorageWrapper δ) (n oldpos : ℕ) : StorageWrapper δ :=
  (w.writePlace n 0 (w.readPlace oldpos (w.piecelen n))).place n n

/-- A piece takes its own place, and what was there is moved. -/
def trade (w : StorageWrapper δ) (index pos amount : ℕ) : Option (StorageWrapper δ) :=
  (w.occupant order index).map fun p =>
    let w := (w.place index index).place p pos
    w.writePlace pos 0 (w.readPlace index amount)

/-- The bytes of a place that was not in the file -/
def allocate (w : StorageWrapper δ) (n : ℕ) : StorageWrapper δ :=
  if w.waspre n then w else w.writePlace n 0 (List.replicate (w.piecelen n) (Char.ofNat 0xFF))

/-- The first part of `_piece_came_in`, for the hole `n` that has been popped.  The answer is whether the
piece of the hole is broken; `none` is for an exception. -/
def settleAt (w : StorageWrapper δ) (n index : ℕ) : Option (Bool × StorageWrapper δ) :=
  match w.places n with
  | some oldpos =>
    if w.have_ n ∧ some (sha (w.readPlace oldpos (w.piecelen n))) ≠ w.hashes[n]? then
      some (true, w.call (.failed
        "data corrupted on disk - maybe you have two copies running?".toList))
    else
      let w := w.bring n oldpos
      if index = oldpos ∨ index ∈ w.holes then some (false, w.place index oldpos)
      else (w.trade order index oldpos w.piece_size).map fun w => (false, w)
  | none =>
    if index ∈ w.holes ∨ index = n then some (false, (w.allocate n).place index n)
    else (w.trade order index n (w.piecelen n)).map fun w => (false, w)

/-- The first part of `_piece_came_in`: a piece without a place gets one. -/
def settle (w : StorageWrapper δ) (index : ℕ) : Option (Bool × StorageWrapper δ) :=
  match w.holes with
  | [] => none
  | n :: holes => settleAt sha order { w with holes := holes } n index

/-- `not self.inactive_requests[index]` -/
def noneInactive (w : StorageWrapper δ) (index : ℕ) : Bool := !w.do_I_have_requests index

/-- The last part of `_piece_came_in`: all blocks have come, and the piece is checked. -/
def check (w : StorageWrapper δ) (index pos : ℕ) : Bool × StorageWrapper δ :=
  if some (sha (w.readPlace pos (w.piecelen index))) = w.hashes[index]? then
    let amount_left := w.amount_left - w.piecelen index
    let w := { w with
      have_ := Function.update w.have_ index true
      inactive_requests := Function.update w.inactive_requests index .none
      waschecked := Function.update w.waschecked index true
      amount_left := amount_left }
    (true, if amount_left = 0 then w.call .finished else w)
  else
    let w := w.call (.data_flunked (w.piecelen index))
    (false, { w with
      inactive_requests := Function.update w.inactive_requests index .all
      amount_inactive := w.amount_inactive + w.piecelen index })

/-- A block is written to the place of its piece. -/
def writeBlock (w : StorageWrapper δ) (index pos start : ℕ) (piece : Text) : StorageWrapper δ :=
  { w.writePlace pos start piece with
    numactive := Function.update w.numactive index (w.numactive index - 1) }

/-- `_piece_came_in` -/
def piece_came_in (w : StorageWrapper δ) (index start : ℕ) (piece : Text) :
    Option (Bool × StorageWrapper δ) :=
  let settled := if (w.places index).isSome then some (false, w) else settle sha order w index
  settled.bind fun r =>
    if r.1 then some (true, r.2)
    else (r.2.places index).map fun pos =>
      let w := r.2.writeBlock index pos start piece
      if w.noneInactive index ∧ w.numactive index = 0 then w.check sha index pos else (true, w)

/-- `_get_piece` -/
def get_piece (w : StorageWrapper δ) (index start length : ℕ) : Option (Option Text × StorageWrapper δ) :=
  if w.have_ index then
    (w.places index).map fun pos =>
      if w.waschecked index = false ∧
          some (sha (w.readPlace pos (w.piecelen index))) ≠ w.hashes[index]? then
        (none, w.call (.failed "told file complete on start-up, but piece failed hash check".toList))
      else
        let w := { w with waschecked := Function.update w.waschecked index true }
        if w.piecelen index < start + length then (none, w)
        else (some (w.storage.read (w.piece_size * pos + start) length), w)
  else some (none, w)

/-! ### The beginning -/

/-- `markgot` -/
def markgot (check_hashes : Bool) (w : StorageWrapper δ) (piece pos : ℕ) : StorageWrapper δ :=
  { w.place piece pos with
    have_ := Function.update w.have_ piece true
    amount_left := w.amount_left - w.piecelen piece
    amount_inactive := w.amount_inactive - w.piecelen piece
    inactive_requests := Function.update w.inactive_requests piece .none
    waschecked := Function.update w.waschecked piece check_hashes }

/-- The piece that is looked for last among those with a hash, if it has the length of a place. -/
def wanted (w : StorageWrapper δ) (targets : δ → List ℕ) (i : ℕ) (s : δ) : Option ℕ :=
  (targets s).getLast?.filter fun t => w.piecelen i = w.piecelen t

/-- What is made of a place by the hash `s` of what is there and the hash `sp` of its beginning; the
targets are the pieces that are not in the file, by their hashes. -/
def identify (check_hashes : Bool) (w : StorageWrapper δ) (targets : δ → List ℕ) (i : ℕ) (sp s : δ) :
    StorageWrapper δ × (δ → List ℕ) :=
  let last := w.hashes.length - 1
  if some s = w.hashes[i]? then (w.markgot check_hashes i i, targets)
  else match w.wanted targets i s with
    | some t => (w.markgot check_hashes t i, Function.update targets s (targets s).dropLast)
    | none =>
      if w.have_ last = false ∧ some sp = w.hashes[last]? ∧ (i = last ∨ w.waspre last = false) then
        (w.markgot check_hashes last i, targets)
      else (w.place i i, targets)

/-- One turn of the last loop of `__init__`. -/
def checkPlace (check_hashes : Bool) (s : StorageWrapper δ × (δ → List ℕ)) (i : ℕ) :
    StorageWrapper δ × (δ → List ℕ) :=
  let (w, targets) := s
  let lastlen := w.piecelen (w.hashes.length - 1)
  if w.waspre i = false then ({ w with holes := w.holes ++ [i] }, targets)
  else if check_hashes = false then (w.markgot check_hashes i i, targets)
  else
    let data := w.readPlace i lastlen
    w.identify check_hashes targets i (sha data)
      (sha (data ++ w.storage.read (w.piece_size * i + lastlen) (w.piecelen i - lastlen)))

/-- The pieces that are not in the file, by their hashes. -/
def targets (w : StorageWrapper δ) (d : δ) : List ℕ :=
  (List.range w.hashes.length).filter fun i => !w.waspre i ∧ w.hashes[i]? = some d

/-- The values that `__init__` begins with. -/
def start (storage : Storage) (request_size : ℕ) (hashes : List δ) (piece_size : ℕ)
    (check_hashes : Bool) : StorageWrapper δ where
  storage := storage
  request_size := request_size
  hashes := hashes
  piece_size := piece_size
  total_length := storage.total_length
  amount_left := storage.total_length
  numactive _ := 0
  inactive_requests _ := .all
  amount_inactive := storage.total_length
  endgame := false
  have_ _ := false
  waschecked _ := check_hashes
  places _ := none
  holes := []
  calls := []

/-- `__init__`, when the flag is not set meanwhile; `none` is for the `ValueError`. -/
def init (storage : Storage) (request_size : ℕ) (hashes : List δ) (piece_size : ℕ)
    (check_hashes : Bool) : Option (StorageWrapper δ) :=
  let w := start storage request_size hashes piece_size check_hashes
  if (w.total_length : ℤ) ≤ piece_size * (hashes.length - 1) then none
  else if piece_size * hashes.length < w.total_length then none
  else
    let w := ((List.range hashes.length).foldl (checkPlace sha check_hashes) (w, w.targets)).1
    some (if w.amount_left = 0 then w.call .finished else w)

end StorageWrapper

end Ydfs.BitTorrent
