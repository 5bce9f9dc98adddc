import Ydfs.BitTorrent.Messages
import Ydfs.BitTorrent.PiecePicker
import Ydfs.BitTorrent.StorageWrapper
import Ydfs.Lists.Shuffle

/-!
# What is requested from whom

A `Downloader` has a `SingleDownload` for each peer.  It requests blocks of the pieces that a peer has,
from one peer only as long as there are enough of them; when all blocks have been requested the endgame
begins, in which the outstanding ones are requested from all peers.
-/

namespace Ydfs.BitTorrent

open Wubi.Sax (Text)

/-- A `SingleDownload` -/
structure SingleDownload where
  choked : Bool
  interested : Bool
  active_requests : List (ℕ × ℕ × ℕ)
  have_ : Bitfield
  example_interest : Option ℕ

/-- A `Downloader` with its downloads, which are numbers for the objects in `single`.  The messages that
have been sent and the connections that were closed are listed; `randrange` are the random numbers that
are still to come, each a number below a bound.  There is no `all_requests` before the endgame; it is
empty here. -/
structure Downloader (δ : Type) where
  storage : StorageWrapper δ
  picker : PiecePicker
  backlog : ℕ
  numpieces : ℕ
  downloads : List ℕ
  single : ℕ → SingleDownload
  all_requests : List (ℕ × ℕ × ℕ)
  randrange : ℕ → ℕ → ℕ
  sent : List (ℕ × Message)
  closed : List ℕ

namespace SingleDownload

/-- `SingleDownload.__init__` -/
def init (numpieces : ℕ) : SingleDownload where
  choked := true
  interested := false
  active_requests := []
  have_ := Bitfield.blank numpieces
  example_interest := none

end SingleDownload

namespace Downloader

variable {δ : Type}

/-- `Downloader.__init__` -/
def init (storage : StorageWrapper δ) (picker : PiecePicker) (backlog numpieces : ℕ)
    (randrange : ℕ → ℕ → ℕ) : Downloader δ where
  storage := storage
  picker := picker
  backlog := backlog
  numpieces := numpieces
  downloads := []
  single _ := SingleDownload.init numpieces
  all_requests := []
  randrange := randrange
  sent := []
  closed := []

/-- What `download.py` begins with: pieces that are there are complete.  `none` is for an exception. -/
def start (storage : StorageWrapper δ) (rarest_first_cutoff : ℕ) (scrambled : List ℕ) (backlog : ℕ)
    (randrange : ℕ → ℕ → ℕ) : Option (Downloader δ) :=
  let numpieces := storage.hashes.length
  ((List.range numpieces).foldlM (fun p i => if storage.have_ i then p.complete i else some p)
    (PiecePicker.init numpieces rarest_first_cutoff scrambled)).map fun picker =>
      init storage picker backlog numpieces randrange

/-! ### The model of the source -/

/-- Something of a download is changed. -/
def change (s : Downloader δ) (d : ℕ) (f : SingleDownload → SingleDownload) : Downloader δ :=
  { s with single := Function.update s.single d (f (s.single d)) }

/-- `send_interested`, `send_request` and so on -/
def send (s : Downloader δ) (d : ℕ) (m : Message) : Downloader δ := { s with sent := s.sent ++ [(d, m)] }

/-- `connection.close()`; what follows from it is a call of `disconnected`. -/
def close (s : Downloader δ) (d : ℕ) : Downloader δ := { s with closed := s.closed ++ [d] }

/-- `n` random numbers have been used. -/
def drawn (s : Downloader δ) (n : ℕ) : Downloader δ :=
  { s with randrange := fun k => s.randrange (n + k) }

/-- `self.interested = True` and `send_interested` -/
def beInterested (s : Downloader δ) (d : ℕ) : Downloader δ :=
  (s.change d fun x => { x with interested := true }).send d .interested

/-- `self.interested = False` and `send_not_interested` -/
def beUninterested (s : Downloader δ) (d : ℕ) : Downloader δ :=
  (s.change d fun x => { x with interested := false }).send d .not_interested

/-- A request is sent. -/
def ask (s : Downloader δ) (d : ℕ) (r : ℕ × ℕ × ℕ) : Downloader δ :=
  (s.change d fun x => { x with active_requests := x.active_requests ++ [r] }).send d
    (.request r.1 r.2.1 r.2.2)

/-- `_want` -/
def want (s : Downloader δ) (d index : ℕ) : Bool :=
  (s.single d).have_.get index && s.storage.do_I_have_requests index

/-- `self.have.numfalse == 0` -/
def seed (s : Downloader δ) (d : ℕ) : Bool := (s.single d).have_.complete

/-- `picker.next(self._want, self.have.numfalse == 0)` -/
def pick (s : Downloader δ) (d : ℕ) : Option ℕ × Downloader δ :=
  (s.picker.next (s.randrange 0) (s.want d) (s.seed d), s.drawn 1)

/-- `fix_download_endgame` -/
def fix_download_endgame (s : Downloader δ) (d : ℕ) : Downloader δ :=
  let x := s.single d
  let want := s.all_requests.filter fun a => x.have_.get a.1 && a ∉ x.active_requests
  if x.interested ∧ x.active_requests = [] ∧ want = [] then s.beUninterested d
  else
    let s := if ¬ x.interested ∧ want ≠ [] then s.beInterested d else s
    if x.choked then s
    else
      let want := (Shuffle.shuffle s.randrange want).take (s.backlog - x.active_requests.length)
      want.foldl (fun s r => s.ask d r) (s.drawn s.all_requests.length)

/-- What is requested next: any piece, or one of `indices`. -/
def interest (s : Downloader δ) (d : ℕ) (indices : Option (List ℕ)) : Option ℕ × Downloader δ :=
  match indices with
  | none => s.pick d
  | some indices => (indices.find? (s.want d), s)

/-- The peer is told of the interest, because of this piece. -/
def aim (s : Downloader δ) (d i : ℕ) : Downloader δ :=
  (if (s.single d).interested then s else s.beInterested d).change d fun x =>
    { x with example_interest := some i }

/-- A block of a piece is requested; `none` is for an exception. -/
def demand (s : Downloader δ) (d i : ℕ) : Option (Downloader δ) :=
  (s.storage.new_request i).map fun (r, storage) =>
    { s with storage := storage, picker := s.picker.requested i (s.seed d) }.ask d (i, r)

/-- The first loop of `_request_more`, with the pieces of which the last block has been requested; it takes
no more turns than there may be requests.  `none` is for an exception. -/
def fill (d : ℕ) (indices : Option (List ℕ)) :
    ℕ → Downloader δ → List ℕ → Option (Downloader δ × List ℕ)
  | 0, s, lost => some (s, lost)
  | fuel + 1, s, lost =>
    if (s.single d).active_requests.length < s.backlog then
      match s.interest d indices with
      | (none, s) => some (s, lost)
      | (some i, s) => ((s.aim d i).demand d i).bind fun s =>
        fill d indices fuel s (if s.storage.do_I_have_requests i then lost else lost ++ [i])
    else some (s, lost)

/-- One turn of the loop for the other downloads in `_request_more`. -/
def reconsider (lost : List ℕ) (s : Downloader δ) (d : ℕ) : Downloader δ :=
  let x := s.single d
  if x.active_requests ≠ [] ∨ ¬ x.interested then s
  else if x.example_interest.any s.storage.do_I_have_requests then s
  else if ¬ lost.any x.have_.get then s
  else
    match s.pick d with
    | (none, s) => s.beUninterested d
    | (some i, s) => s.change d fun x => { x with example_interest := some i }

/-- The endgame begins: all requests are those that are active. -/
def endgame (s : Downloader δ) : Downloader δ :=
  let all := s.downloads.flatMap fun d => (s.single d).active_requests
  s.downloads.foldl fix_download_endgame { s with all_requests := all }

/-- What follows the first loop of `_request_more`. -/
def afterFill (s : Downloader δ) (d : ℕ) (lost : List ℕ) : Downloader δ :=
  let s := if (s.single d).active_requests = [] ∧ (s.single d).interested then s.beUninterested d else s
  let s := if lost ≠ [] then s.downloads.foldl (reconsider lost) s else s
  if s.storage.endgame then s.endgame else s

/-- `_request_more`; `none` is for an exception. -/
def request_more (s : Downloader δ) (d : ℕ) (indices : Option (List ℕ)) : Option (Downloader δ) :=
  if (s.single d).choked then none
  else if (s.single d).active_requests.length = s.backlog then some s
  else if s.storage.endgame then some (s.fix_download_endgame d)
  else (fill d indices s.backlog s []).map fun (s, lost) => s.afterFill d lost

/-- The downloads that are not choked, shuffled, request more of these pieces. -/
def redistribute (s : Downloader δ) (indices : List ℕ) : Option (Downloader δ) :=
  let ds := Shuffle.shuffle s.randrange (s.downloads.filter fun d => !(s.single d).choked)
  ds.foldlM (fun s d => s.request_more d (some indices)) (s.drawn s.downloads.length)

/-- `lost` of `_letgo`, the pieces of some requests -/
def pieces (l : List (ℕ × ℕ × ℕ)) : List ℕ :=
  l.foldl (fun lost r => if r.1 ∈ lost then lost else lost ++ [r.1]) []

/-- One turn of the last loop of `_letgo`. -/
def hear (lost : List ℕ) (s : Downloader δ) (d : ℕ) : Downloader δ :=
  let x := s.single d
  if x.choked ∧ ¬ x.interested ∧ lost.any (s.want d) then s.beInterested d else s

/-- The active requests are forgotten. -/
def clear (s : Downloader δ) (d : ℕ) : Downloader δ := s.change d fun x => { x with active_requests := [] }

/-- `_letgo`; `none` is for an exception. -/
def letgo (s : Downloader δ) (d : ℕ) : Option (Downloader δ) :=
  let active := (s.single d).active_requests
  if active = [] then some s
  else if s.storage.endgame then some (s.clear d)
  else do
    let storage ← active.foldlM (fun w r => w.request_lost r.1 r.2.1 r.2.2) s.storage
    let s ← { s.clear d with storage := storage }.redistribute (pieces active)
    some (s.downloads.foldl (hear (pieces active)) s)

/-- The loop over the pieces that a download has. -/
def forPieces (s : Downloader δ) (have_ : Bitfield)
    (f : PiecePicker → (ℕ → ℕ) → ℕ → Option PiecePicker) : Option (Downloader δ) :=
  ((List.range have_.length).foldlM (fun p i => if have_.get i then f p (s.randrange i) i else some p)
    s.picker).map fun p => { s with picker := p }.drawn have_.length

/-- `disconnected`; `none` is for an exception. -/
def disconnected (s : Downloader δ) (d : ℕ) : Option (Downloader δ) :=
  ({ s with downloads := s.downloads.erase d }.forPieces (s.single d).have_ PiecePicker.lost_have).bind
    (letgo · d)

def got_choke (s : Downloader δ) (d : ℕ) : Option (Downloader δ) :=
  if (s.single d).choked then some s
  else (s.change d fun x => { x with choked := true }).letgo d

def got_unchoke (s : Downloader δ) (d : ℕ) : Option (Downloader δ) :=
  if (s.single d).choked then
    let s := s.change d fun x => { x with choked := false }
    if (s.single d).interested then s.request_more d none else some s
  else some s

/-- The loop in `got_piece` that requests the blocks of a broken piece in the endgame; it takes no more
turns than the piece has bytes. -/
def askAgain (index : ℕ) : ℕ → Downloader δ → Option (Downloader δ)
  | 0, s => some s
  | fuel + 1, s =>
    if s.storage.do_I_have_requests index then do
      let (r, storage) ← s.storage.new_request index
      askAgain index fuel { s with storage := storage, all_requests := s.all_requests ++ [(index, r)] }
    else some s

/-- One turn of the loop in `got_piece` that cancels a request of the other downloads in the endgame. -/
def cancel (d : ℕ) (r : ℕ × ℕ × ℕ) (s : Downloader δ) (e : ℕ) : Downloader δ :=
  let x := s.single e
  if e ≠ d ∧ x.interested then
    if x.choked then s.fix_download_endgame e
    else if r ∈ x.active_requests then
      ((s.change e fun x => { x with active_requests := x.active_requests.erase r }).send e
        (.cancel r.1 r.2.1 r.2.2)).fix_download_endgame e
    else s
  else s

/-- The rest of `got_piece` where the piece is broken -/
def gotBroken (s : Downloader δ) (index : ℕ) : Option (Downloader δ) :=
  if s.storage.endgame then
    (askAgain index (s.storage.piecelen index) s).map fun s =>
      s.downloads.foldl fix_download_endgame s
  else (s.picker.bump index).bind fun picker => { s with picker := picker }.redistribute [index]

/-- The next requests; peers that lack nothing are left when nothing is missing. -/
def goOn (s : Downloader δ) (d : ℕ) : Option (Downloader δ) :=
  (s.request_more d none).map fun s =>
    if s.picker.am_I_complete then (s.downloads.filter s.seed).foldl close s else s

/-- The rest of `got_piece` where the block is taken -/
def gotBlock (s : Downloader δ) (d : ℕ) (r : ℕ × ℕ × ℕ) : Option (Downloader δ) :=
  (if s.storage.have_ r.1 then s.picker.complete r.1 else some s.picker).bind fun picker =>
    let s := { s with picker := picker }
    (if s.storage.endgame then s.downloads.foldl (cancel d r) s else s).goOn d

/-- What follows in `got_piece` from the answer of the storage -/
def gotAnswer (s : Downloader δ) (d : ℕ) (r : ℕ × ℕ × ℕ) (ok : Bool) : Option (Bool × Downloader δ) :=
  if ok then (s.gotBlock d r).map fun s => (s.storage.have_ r.1, s)
  else (s.gotBroken r.1).map fun s => (false, s)

/-- `self.active_requests.remove` -/
def answered (s : Downloader δ) (d : ℕ) (r : ℕ × ℕ × ℕ) : Downloader δ :=
  s.change d fun x => { x with active_requests := x.active_requests.erase r }

/-- `got_piece`, without the measures; `none` is for an exception. -/
def got_piece [DecidableEq δ] (sha : Text → δ) (order : List (ℕ × ℕ) → List (ℕ × ℕ))
    (s : Downloader δ) (d index start : ℕ) (piece : Text) : Option (Bool × Downloader δ) :=
  let r := (index, start, piece.length)
  if r ∉ (s.single d).active_requests then some (false, s)
  else if s.storage.endgame ∧ r ∉ s.all_requests then none
  else
    let s := s.answered d r
    let s := if s.storage.endgame then { s with all_requests := s.all_requests.erase r } else s
    (s.storage.piece_came_in sha order index start piece).bind fun (ok, storage) =>
      { s with storage := storage }.gotAnswer d r ok

/-- `self.have` is changed, and what the picker counts. -/
def learn (s : Downloader δ) (d : ℕ) (have_ : Bitfield) (picker : PiecePicker) : Downloader δ :=
  { s.change d fun x => { x with have_ := have_ } with picker := picker }

/-- The rest of `got_have`, when the piece has been counted -/
def afterHave (s : Downloader δ) (d index : ℕ) : Option (Downloader δ) :=
  if s.picker.am_I_complete ∧ s.seed d then some (s.close d)
  else if s.storage.endgame then some (s.fix_download_endgame d)
  else if s.storage.do_I_have_requests index then
    if ¬ (s.single d).choked then s.request_more d (some [index])
    else if ¬ (s.single d).interested then some (s.beInterested d)
    else some s
  else some s

/-- `got_have`, of a piece that there is -/
def got_have (s : Downloader δ) (d index : ℕ) : Option (Downloader δ) :=
  if there : index < (s.single d).have_.length then
    if (s.single d).have_.get index then some s
    else (s.picker.got_have (s.randrange 0) index).bind fun picker =>
      ((s.learn d ((s.single d).have_.set index true there) picker).drawn 1).afterHave d index
  else none

def got_have_bitfield (s : Downloader δ) (d : ℕ) (have_ : Bitfield) : Option (Downloader δ) :=
  ((s.learn d have_ s.picker).forPieces have_ PiecePicker.got_have).map fun s =>
    if s.picker.am_I_complete ∧ s.seed d then s.close d
    else if s.storage.endgame ∧ s.all_requests.any (fun r => have_.get r.1) then s.beInterested d
    else if (List.range have_.length).any (s.want d) then s.beInterested d
    else s

/-- `make_download`, for a connection that is new -/
def make_download (s : Downloader δ) (d : ℕ) : Downloader δ :=
  { s with
    downloads := s.downloads ++ [d]
    single := Function.update s.single d (SingleDownload.init s.numpieces) }

end Downloader

end Ydfs.BitTorrent
