import Ydfs.BitTorrent.Downloader
import Ydfs.BitTorrent.PieceRuns

/-!
# What holds of the downloads

The requests that the downloads have made are those that the storage waits for: before the endgame each of
them is made by one download, and in the endgame each download has made some of them.  What is sent to a
peer is in order: it is told of the interest before it gets a request.
-/

namespace Ydfs.BitTorrent

open Wubi.Sax (Text)

variable {δ : Type}

/-! ### The storage -/

namespace StorageWrapper

variable {sha : Text → δ} {order : List (ℕ × ℕ) → List (ℕ × ℕ)} {w w' : StorageWrapper δ}
  {out : List (ℕ × ℕ × ℕ)} {p : ℕ} {r : ℕ × ℕ} {s : Text} {ok : Bool}

theorem count_outOf (out : List (ℕ × ℕ × ℕ)) (p : ℕ) (r : ℕ × ℕ) :
    out.count (p, r) = (outOf out p).count r := by
  induction out with
  | nil => rfl
  | cons a out ih =>
    obtain ⟨q, t⟩ := a
    by_cases same : q = p
    · subst same
      rw [outOf_cons_self, List.count_cons, List.count_cons, ih]
      congr 1
      simp [Prod.ext_iff]
    · rw [outOf_cons_ne same, List.count_cons_of_ne fun e => same (congrArg Prod.fst e), ih]

/-- No block is requested twice. -/
theorem Good.nodup (good : Good sha w out) : out.Nodup := by
  rw [List.nodup_iff_count_le_one]
  rintro ⟨p, r⟩
  by_cases mem : (p, r) ∈ out
  · obtain ⟨lt, -, l, here⟩ := good.ledger.blocks_of_out mem
    have nodup := (good.blocks_tiles good.request_pos lt).nodup
    have all := ((good.ledger.piece p).begun l here).2.count_le r
    have once := List.nodup_iff_count_le_one.1 nodup r
    rw [List.count_append] at all
    rw [count_outOf]
    omega
  · rw [List.count_eq_zero_of_not_mem mem]
    exact Nat.zero_le 1

theorem Good.lacks (good : Good sha w out) (mem : (p, r) ∈ out) :
    w.have_ p = false ∧ p < w.hashes.length ∧ r ∈ w.blocks p := by
  obtain ⟨lt, block, l, here⟩ := good.ledger.blocks_of_out mem
  exact ⟨((good.ledger.piece p).begun l here).1, lt, block⟩

theorem Good.asks (good : Good sha w out) (asks : w.do_I_have_requests p) : w.have_ p = false := by
  have piece := good.ledger.piece p
  rw [do_I_have_requests] at asks
  cases is : w.inactive_requests p with
  | all => exact (piece.all is).1
  | blocks l => exact (piece.begun l is).1
  | none =>
    rw [is] at asks
    exact absurd asks Bool.false_ne_true

theorem SameTorrent.blocks (torrent : SameTorrent w w') (p : ℕ) : w'.blocks p = w.blocks p := by
  rw [StorageWrapper.blocks, torrent.request_size, torrent.piecelen]
  rfl

theorem SameTorrent.trans {w'' : StorageWrapper δ} (h : SameTorrent w w') (h' : SameTorrent w' w'') :
    SameTorrent w w'' :=
  ⟨h'.hashes.trans h.hashes, h'.request_size.trans h.request_size, h'.piecelen.trans h.piecelen⟩

theorem Requested.torrent (asked : Requested w w' p r) :
    SameTorrent w w' ∧ w'.have_ = w.have_ := by
  rw [asked.frame]
  exact ⟨⟨rfl, rfl, rfl⟩, rfl⟩

theorem Lost.torrent (gone : Lost w w' p r) :
    SameTorrent w w' ∧ w'.have_ = w.have_ ∧ w'.endgame = w.endgame := by
  rw [gone.frame]
  exact ⟨⟨rfl, rfl, rfl⟩, rfl, rfl⟩

/-- What has changed by a block that came in. -/
structure Came (w w' : StorageWrapper δ) (p : ℕ) (ok : Bool) : Prop where
  torrent : SameTorrent w w'
  endgame : w'.endgame = w.endgame
  have_ : ∀ q, q ≠ p → w'.have_ q = w.have_ q
  inactive : ∀ q, q ≠ p → w'.inactive_requests q = w.inactive_requests q
  broken : ok = false → w'.have_ p = w.have_ p
  kept : ok = true → w'.do_I_have_requests p = w.do_I_have_requests p

theorem Came.trans {w'' : StorageWrapper δ} (h : Came w w' p ok) (h' : Came w' w'' p ok) :
    Came w w'' p ok :=
  ⟨h.torrent.trans h'.torrent, h'.endgame.trans h.endgame,
    fun q ne => (h'.have_ q ne).trans (h.have_ q ne),
    fun q ne => (h'.inactive q ne).trans (h.inactive q ne),
    fun no => (h'.broken no).trans (h.broken no), fun yes => (h'.kept yes).trans (h.kept yes)⟩

/-- What has changed by the check of a piece of which all blocks have come. -/
theorem check_came [DecidableEq δ] (sha : Text → δ) (q : ℕ) (here : w.inactive_requests p = .blocks []) :
    Came w (w.check sha p q).2 p (w.check sha p q).1 := by
  rw [check]
  split_ifs with hash
  · refine ⟨?_, ?_, fun q ne => ?_, fun q ne => ?_, fun h => Bool.noConfusion h, fun _ => ?_⟩
    · dsimp only
      split_ifs <;> exact ⟨rfl, rfl, rfl⟩
    · dsimp only
      split_ifs <;> rfl
    · dsimp only
      split_ifs <;> exact Function.update_of_ne ne ..
    · dsimp only
      split_ifs <;> exact Function.update_of_ne ne ..
    · have nothing : w.do_I_have_requests p = false := by
        rw [do_I_have_requests, here]
        rfl
      rw [nothing]
      dsimp only
      split_ifs <;> simp [do_I_have_requests, call]
  · exact ⟨⟨rfl, rfl, rfl⟩, rfl, fun _ _ => rfl, fun q ne => Function.update_of_ne ne .., fun _ => rfl,
      fun h => Bool.noConfusion h⟩

/-- All blocks of a piece that is broken are to be requested again. -/
theorem check_again [DecidableEq δ] (sha : Text → δ) (q : ℕ) (broken : (w.check sha p q).1 = false) :
    (w.check sha p q).2.inactive_requests p = .all := by
  rw [check] at broken ⊢
  by_cases hash : some (sha (w.readPlace q (w.piecelen p))) = w.hashes[p]?
  · rw [if_pos hash] at broken
    cases broken
  · rw [if_neg hash]
    exact Function.update_self ..

/-- What a block changes that comes in. -/
theorem Good.comes [DecidableEq δ] (perm : ∀ l, (order l).Perm l)
    (good : Good sha w ((p, r) :: out)) (size : s.length = r.2) :
    ∃ ok w', piece_came_in sha order w p r.1 s = some (ok, w') ∧ Good sha w' out ∧ Came w w' p ok ∧
      (ok = false → w'.inactive_requests p = .all) := by
  obtain ⟨ok, w', w₁, step, good', written, -, how⟩ := good.came perm size
  refine ⟨ok, w', step, good', ?_⟩
  have wrote (p : ℕ) (ok : Bool) : Came w w₁ p ok := by
    refine ⟨written.torrent, written.endgame, fun q _ => by rw [written.have_],
      fun q _ => by rw [written.inactive], fun _ => by rw [written.have_], fun _ => ?_⟩
    rw [do_I_have_requests, do_I_have_requests, written.inactive]
  rcases how with ⟨rfl, rfl⟩ | ⟨q, -, is, -, check⟩
  · exact ⟨wrote p true, fun broken => Bool.noConfusion broken⟩
  · have checked := check_came sha q is
    have again := check_again (w := w₁) (p := p) sha q
    rw [← check] at checked again
    exact ⟨(wrote p ok).trans checked, again⟩

end StorageWrapper

/-! ### The downloads -/

namespace Downloader

variable {sha : Text → δ} {s s' : Downloader δ} {d e index : ℕ} {x : SingleDownload} {l : List Message}
  {r : ℕ × ℕ × ℕ}

/-- What has been sent to a peer -/
def sentTo (s : Downloader δ) (d : ℕ) : List Message := (s.sent.filter (·.1 = d)).map (·.2)

/-- The requests of all downloads -/
def actives (s : Downloader δ) : List (ℕ × ℕ × ℕ) :=
  s.downloads.flatMap fun d => (s.single d).active_requests

/-- How many peers have a piece -/
def holders (s : Downloader δ) (i : ℕ) : ℕ := s.downloads.countP fun d => (s.single d).have_.get i

/-- Whether a peer believes to be of interest after these messages; `none` is for a request that comes
when it is not. -/
def listens : Bool → List Message → Option Bool
  | b, [] => some b
  | _, .interested :: l => listens true l
  | _, .not_interested :: l => listens false l
  | true, .request .. :: l => listens true l
  | false, .request .. :: _ => none
  | b, _ :: l => listens b l

theorem listens_append (b : Bool) (l l' : List Message) :
    listens b (l ++ l') = (listens b l).bind fun c => listens c l' := by
  induction l generalizing b with
  | nil => rfl
  | cons m l ih => cases m <;> cases b <;> first | exact ih _ | rfl

/-- What holds of a download, and of what has been sent to its peer. -/
structure Fit (backlog numpieces : ℕ) (x : SingleDownload) (l : List Message) : Prop where
  idle : x.choked = true → x.active_requests = []
  eager : x.active_requests ≠ [] → x.interested = true
  room : x.active_requests.length ≤ backlog
  nodup : x.active_requests.Nodup
  size : x.have_.length = numpieces
  has : ∀ r ∈ x.active_requests, x.have_.get r.1 = true
  told : listens false l = some x.interested

/-- What holds whenever a download is called. -/
structure Base (s : Downloader δ) : Prop where
  nodup : s.downloads.Nodup
  fit : ∀ d ∈ s.downloads, Fit s.backlog s.numpieces (s.single d) (s.sentTo d)
  tidy : s.picker.Tidy
  pieces : s.picker.numpieces = s.numpieces
  hashes : s.storage.hashes.length = s.numpieces
  counts : ∀ i, i < s.numpieces →
    s.picker.numinterests i = if s.storage.have_ i then none else some (s.holders i)
  asked : ∀ d i b n, (d, Message.request i b n) ∈ s.sent → i < s.numpieces ∧ (b, n) ∈ s.storage.blocks i
  fair : ∀ k n, 0 < n → s.randrange k n < n
  few : s.downloads.length < 2 ^ 30

/-- Each request is made by one download. -/
structure Early (sha : Text → δ) (s : Downloader δ) : Prop extends Base s where
  good : s.storage.Good sha s.actives

/-- The endgame: what is outstanding may be requested by all downloads. -/
structure Late (sha : Text → δ) (s : Downloader δ) : Prop extends Base s where
  on : s.storage.endgame = true
  good : s.storage.Good sha s.all_requests
  within : ∀ d ∈ s.downloads, (s.single d).active_requests ⊆ s.all_requests

/-- What holds between any two messages. -/
def Sane (sha : Text → δ) (s : Downloader δ) : Prop :=
  s.storage.endgame = false ∧ Early sha s ∨ Late sha s

theorem Sane.base (sane : Sane sha s) : Base s := sane.elim (fun h => h.2.toBase) Late.toBase

/-- What the downloads do not change when they make requests. -/
structure Frame (s s' : Downloader δ) : Prop where
  backlog : s'.backlog = s.backlog
  numpieces : s'.numpieces = s.numpieces
  downloads : s'.downloads = s.downloads
  choked : ∀ d, (s'.single d).choked = (s.single d).choked
  have_ : ∀ d, (s'.single d).have_ = (s.single d).have_
  torrent : StorageWrapper.SameTorrent s.storage s'.storage
  got : s'.storage.have_ = s.storage.have_

theorem Frame.refl (s : Downloader δ) : Frame s s :=
  ⟨rfl, rfl, rfl, fun _ => rfl, fun _ => rfl, ⟨rfl, rfl, rfl⟩, rfl⟩

theorem Frame.trans {s'' : Downloader δ} (h : Frame s s') (h' : Frame s' s'') : Frame s s'' :=
  ⟨h'.backlog.trans h.backlog, h'.numpieces.trans h.numpieces, h'.downloads.trans h.downloads,
    fun d => (h'.choked d).trans (h.choked d), fun d => (h'.have_ d).trans (h.have_ d),
    h.torrent.trans h'.torrent, h'.got.trans h.got⟩

/-! ### One download -/

/-- A download is changed, and messages are sent to its peer. -/
def tell (s : Downloader δ) (d : ℕ) (x : SingleDownload) (l : List Message) : Downloader δ :=
  { s with single := Function.update s.single d x, sent := s.sent ++ l.map (d, ·) }

theorem single_tell_self (s : Downloader δ) (d : ℕ) (x : SingleDownload) (l : List Message) :
    (s.tell d x l).single d = x := Function.update_self ..

theorem single_tell_ne (ne : e ≠ d) (x : SingleDownload) (l : List Message) :
    (s.tell d x l).single e = s.single e := Function.update_of_ne ne ..

theorem change_eq (s : Downloader δ) (d : ℕ) (f : SingleDownload → SingleDownload) :
    s.change d f = s.tell d (f (s.single d)) [] := by
  rw [tell, List.map_nil, List.append_nil]
  rfl

theorem have_tell (same : x.have_ = (s.single d).have_) (l : List Message) (e : ℕ) :
    ((s.tell d x l).single e).have_ = (s.single e).have_ := by
  by_cases here : e = d
  · subst here
    rw [single_tell_self, same]
  · rw [single_tell_ne here]

theorem Frame.tell (choked : x.choked = (s.single d).choked) (have_ : x.have_ = (s.single d).have_)
    (l : List Message) : Frame s (s.tell d x l) := by
  refine ⟨rfl, rfl, rfl, fun e => ?_, have_tell have_ l, ⟨rfl, rfl, rfl⟩, rfl⟩
  by_cases same : e = d
  · subst same
    rw [single_tell_self, choked]
  · rw [single_tell_ne same]

/-- How many peers have a piece depends on what they have. -/
theorem holders_congr (downloads : s'.downloads = s.downloads)
    (have_ : ∀ d, (s'.single d).have_ = (s.single d).have_) (i : ℕ) : s'.holders i = s.holders i := by
  rw [holders, holders, downloads]
  simp only [have_]

theorem sentTo_tell (s : Downloader δ) (d e : ℕ) (x : SingleDownload) (l : List Message) :
    (s.tell d x l).sentTo e = if e = d then s.sentTo d ++ l else s.sentTo e := by
  rw [sentTo, tell, List.filter_append, List.map_append, List.filter_map]
  by_cases same : e = d
  · subst same
    rw [if_pos rfl]
    congr 1
    simp [Function.comp_def]
  · rw [if_neg same]
    have none_ : l.filter ((fun m : ℕ × Message => decide (m.1 = e)) ∘ fun m => (d, m)) = [] :=
      List.filter_eq_nil_iff.2 fun m _ h => same (of_decide_eq_true h).symm
    rw [none_]
    exact List.append_nil _

/-- The requests of the other downloads -/
def others (s : Downloader δ) (d : ℕ) : List (ℕ × ℕ × ℕ) :=
  (s.downloads.erase d).flatMap fun d => (s.single d).active_requests

theorem actives_split (mem : d ∈ s.downloads) :
    s.actives.Perm ((s.single d).active_requests ++ s.others d) := by
  have split := (List.perm_cons_erase mem).flatMap_right fun d => (s.single d).active_requests
  rwa [List.flatMap_cons] at split

theorem others_tell (nodup : s.downloads.Nodup) (x : SingleDownload) (l : List Message) :
    (s.tell d x l).others d = s.others d := by
  rw [others, others]
  refine List.flatMap_congr fun e mem => ?_
  rw [single_tell_ne (nodup.mem_erase_iff.1 mem).1]

/-- A download is changed, and remains fit. -/
theorem Base.tell (base : Base s) (have_ : x.have_ = (s.single d).have_)
    (fit : d ∈ s.downloads → Fit s.backlog s.numpieces x (s.sentTo d ++ l))
    (asked : ∀ i b n, Message.request i b n ∈ l → i < s.numpieces ∧ (b, n) ∈ s.storage.blocks i) :
    Base (s.tell d x l) := by
  refine ⟨base.nodup, fun e mem => ?_, base.tidy, base.pieces, base.hashes, fun i less => ?_,
    fun e i b n mem => ?_, base.fair, base.few⟩
  · rw [sentTo_tell]
    by_cases same : e = d
    · subst same
      rw [if_pos rfl, single_tell_self]
      exact fit mem
    · rw [if_neg same, single_tell_ne same]
      exact base.fit e mem
  · rw [holders_congr (show (s.tell d x l).downloads = s.downloads from rfl) (have_tell have_ l)]
    exact base.counts i less
  · rcases List.mem_append.1 mem with old | new
    · exact base.asked e i b n old
    · obtain ⟨m, mem, e⟩ := List.mem_map.1 new
      obtain ⟨-, rfl⟩ := Prod.mk.inj e
      exact asked i b n mem

/-- The storage and the picker are changed, where they count the same pieces. -/
theorem Base.swap (base : Base s) (storage : StorageWrapper δ) (picker : PiecePicker)
    (torrent : StorageWrapper.SameTorrent s.storage storage) (got : storage.have_ = s.storage.have_)
    (tidy : picker.Tidy) (pieces : picker.numpieces = s.picker.numpieces)
    (counts : picker.numinterests = s.picker.numinterests) :
    Base { s with storage := storage, picker := picker } := by
  refine ⟨base.nodup, base.fit, tidy, pieces.trans base.pieces, ?_, fun i less => ?_,
    fun d i b n mem => ?_, base.fair, base.few⟩
  · rw [torrent.hashes]
    exact base.hashes
  · dsimp only
    rw [counts, got]
    exact base.counts i less
  · rw [torrent.blocks]
    exact base.asked d i b n mem

theorem Base.drawn (base : Base s) (n : ℕ) : Base (s.drawn n) :=
  ⟨base.nodup, base.fit, base.tidy, base.pieces, base.hashes, base.counts, base.asked,
    fun k => base.fair (n + k), base.few⟩

theorem Frame.drawn (s : Downloader δ) (n : ℕ) : Frame s (s.drawn n) :=
  ⟨rfl, rfl, rfl, fun _ => rfl, fun _ => rfl, ⟨rfl, rfl, rfl⟩, rfl⟩

/-! ### Interest -/

theorem listens_snoc {b c : Bool} {m : Message} (told : listens b l = some c) :
    listens b (l ++ [m]) = listens c [m] := by
  rw [listens_append, told]
  rfl

/-- An interest that is told does not change the requests. -/
theorem Base.beInterested (base : Base s) (d : ℕ) : Base (s.beInterested d) := by
  refine base.tell (l := [.interested]) rfl (fun mem => ?_) fun i b n mem => ?_
  · have fit := base.fit d mem
    exact ⟨fit.idle, fun _ => rfl, fit.room, fit.nodup, fit.size, fit.has, listens_snoc fit.told⟩
  · cases List.mem_singleton.1 mem

theorem Base.beUninterested (base : Base s) (idle : (s.single d).active_requests = []) :
    Base (s.beUninterested d) := by
  refine base.tell (l := [.not_interested]) rfl (fun mem => ?_) fun i b n mem => ?_
  · have fit := base.fit d mem
    exact ⟨fit.idle, fun ne => absurd idle ne, fit.room, fit.nodup, fit.size, fit.has,
      listens_snoc fit.told⟩
  · cases List.mem_singleton.1 mem

/-- A request that a download may make -/
theorem Base.ask (base : Base s) (open_ : (s.single d).choked = false)
    (eager : (s.single d).interested = true) (room : (s.single d).active_requests.length < s.backlog)
    (new : r ∉ (s.single d).active_requests) (has : (s.single d).have_.get r.1 = true)
    (block : r.1 < s.numpieces ∧ r.2 ∈ s.storage.blocks r.1) : Base (s.ask d r) := by
  refine base.tell (l := [.request r.1 r.2.1 r.2.2]) rfl (fun mem => ?_) fun i b n mem => ?_
  · have fit := base.fit d mem
    refine ⟨fun choked => ?_, fun _ => eager, ?_, ?_, fit.size, fun a mem => ?_, ?_⟩
    · exact absurd (open_.symm.trans choked) Bool.false_ne_true
    · rw [List.length_append, List.length_singleton]
      exact room
    · exact List.nodup_append.2 ⟨fit.nodup, List.nodup_singleton r, fun a mem b mem' e =>
        new (List.mem_singleton.1 mem' ▸ e ▸ mem)⟩
    · rcases List.mem_append.1 mem with mem | mem
      · exact fit.has a mem
      · rw [List.mem_singleton.1 mem]
        exact has
    · rw [listens_snoc fit.told, eager]
      rfl
  · obtain ⟨rfl, rfl, rfl⟩ := Message.request.inj (List.mem_singleton.1 mem)
    exact block

/-- A change that a peer does not notice -/
theorem Base.example (base : Base s) (i : ℕ) :
    Base (s.change d fun x => { x with example_interest := some i }) := by
  rw [change_eq]
  refine base.tell rfl (fun mem => ?_) fun i b n mem => absurd mem List.not_mem_nil
  have fit := base.fit d mem
  rw [List.append_nil]
  exact ⟨fit.idle, fit.eager, fit.room, fit.nodup, fit.size, fit.has, fit.told⟩

theorem single_beInterested (s : Downloader δ) (d : ℕ) :
    (s.beInterested d).single d = { s.single d with interested := true } := Function.update_self ..

theorem single_beUninterested (s : Downloader δ) (d : ℕ) :
    (s.beUninterested d).single d = { s.single d with interested := false } := Function.update_self ..

theorem single_ask (s : Downloader δ) (d : ℕ) (r : ℕ × ℕ × ℕ) : (s.ask d r).single d =
    { s.single d with active_requests := (s.single d).active_requests ++ [r] } := Function.update_self ..

/-! ### The endgame -/

/-- Nothing but a download is changed, and what is sent. -/
structure Only (d : ℕ) (s s' : Downloader δ) : Prop where
  rest : s' = { s with single := s'.single, randrange := s'.randrange, sent := s'.sent }
  others : ∀ e, e ≠ d → s'.single e = s.single e
  choked : (s'.single d).choked = (s.single d).choked
  have_ : (s'.single d).have_ = (s.single d).have_

theorem Only.refl (d : ℕ) (s : Downloader δ) : Only d s s := ⟨rfl, fun _ _ => rfl, rfl, rfl⟩

theorem Only.trans {s'' : Downloader δ} (h : Only d s s') (h' : Only d s' s'') : Only d s s'' := by
  refine ⟨?_, fun e ne => (h'.others e ne).trans (h.others e ne), h'.choked.trans h.choked,
    h'.have_.trans h.have_⟩
  conv_lhs => rw [h'.rest, h.rest]

theorem Only.tell (choked : x.choked = (s.single d).choked) (have_ : x.have_ = (s.single d).have_) :
    Only d s (s.tell d x l) :=
  ⟨rfl, fun e ne => single_tell_ne ne x l, by rw [single_tell_self, choked],
    by rw [single_tell_self, have_]⟩

theorem Only.ask (s : Downloader δ) (d : ℕ) (r : ℕ × ℕ × ℕ) : Only d s (s.ask d r) :=
  Only.tell (l := [.request r.1 r.2.1 r.2.2]) rfl rfl

theorem Only.beInterested (s : Downloader δ) (d : ℕ) : Only d s (s.beInterested d) :=
  Only.tell (l := [.interested]) rfl rfl

theorem Only.beUninterested (s : Downloader δ) (d : ℕ) : Only d s (s.beUninterested d) :=
  Only.tell (l := [.not_interested]) rfl rfl

theorem Only.drawn (s : Downloader δ) (d n : ℕ) : Only d s (s.drawn n) := ⟨rfl, fun _ _ => rfl, rfl, rfl⟩

theorem Only.frame (only : Only d s s') : Frame s s' := by
  refine ⟨by rw [only.rest], by rw [only.rest], by rw [only.rest], fun e => ?_, fun e => ?_, ?_, ?_⟩
  · by_cases same : e = d
    · rw [same, only.choked]
    · rw [only.others e same]
  · by_cases same : e = d
    · rw [same, only.have_]
    · rw [only.others e same]
  · rw [only.rest]
    exact ⟨rfl, rfl, rfl⟩
  · rw [only.rest]

/-- Requests that a download may make, one after the other -/
theorem Base.asks (want : List (ℕ × ℕ × ℕ)) (base : Base s) (open_ : (s.single d).choked = false)
    (eager : want ≠ [] → (s.single d).interested = true)
    (room : (s.single d).active_requests.length + want.length ≤ s.backlog)
    (nodup : ((s.single d).active_requests ++ want).Nodup)
    (has : ∀ r ∈ want, (s.single d).have_.get r.1 = true)
    (block : ∀ r ∈ want, r.1 < s.numpieces ∧ r.2 ∈ s.storage.blocks r.1) :
    let s' := want.foldl (fun s r => s.ask d r) s
    Base s' ∧ Only d s s' ∧
      (s'.single d).active_requests = (s.single d).active_requests ++ want := by
  induction want generalizing s with
  | nil => exact ⟨base, Only.refl d s, (List.append_nil _).symm⟩
  | cons r want ih =>
    rw [List.length_cons] at room
    have ready := eager (List.cons_ne_nil r want)
    have new : r ∉ (s.single d).active_requests := fun mem =>
      (List.nodup_append.1 nodup).2.2 r mem r List.mem_cons_self rfl
    have base' := base.ask open_ ready (by omega) new (has r List.mem_cons_self)
      (block r List.mem_cons_self)
    have here := single_ask s d r
    obtain ⟨base'', only', active⟩ := ih (s := s.ask d r) base' (by rw [here]; exact open_)
      (fun _ => by rw [here]; exact ready)
      (by rw [here, List.length_append, List.length_singleton]; change _ ≤ s.backlog; omega)
      (by rw [here, List.append_assoc]; exact nodup)
      (fun a mem => by rw [here]; exact has a (List.mem_cons_of_mem r mem))
      (fun a mem => block a (List.mem_cons_of_mem r mem))
    refine ⟨base'', (Only.ask s d r).trans only', ?_⟩
    rw [List.foldl_cons, active, here, List.append_assoc]
    rfl

theorem Late.only (late : Late sha s) (only : Only d s s') (base : Base s')
    (within : (s'.single d).active_requests ⊆ s.all_requests) : Late sha s' := by
  have storage : s'.storage = s.storage := by rw [only.rest]
  have all : s'.all_requests = s.all_requests := by rw [only.rest]
  refine ⟨base, by rw [storage]; exact late.on, by rw [storage, all]; exact late.good,
    fun e mem => ?_⟩
  rw [all]
  by_cases same : e = d
  · rw [same]
    exact within
  · rw [only.others e same]
    rw [only.frame.downloads] at mem
    exact late.within e mem

/-- In the endgame a download requests some of what is outstanding. -/
theorem Base.fix (base : Base s) (good : s.storage.Good sha s.all_requests) (mem : d ∈ s.downloads)
    (within : (s.single d).active_requests ⊆ s.all_requests) :
    Base (s.fix_download_endgame d) ∧ Only d s (s.fix_download_endgame d) ∧
      ((s.fix_download_endgame d).single d).active_requests ⊆ s.all_requests := by
  have fit := base.fit d mem
  rw [fix_download_endgame]
  dsimp only
  generalize hwant : s.all_requests.filter (fun a => (s.single d).have_.get a.1 &&
    a ∉ (s.single d).active_requests) = want
  have wanted : ∀ r ∈ want, r ∈ s.all_requests ∧ (s.single d).have_.get r.1 = true ∧
      r ∉ (s.single d).active_requests := by
    intro r mem
    rw [← hwant, List.mem_filter, Bool.and_eq_true, decide_eq_true_eq] at mem
    exact mem
  have once : want.Nodup := hwant ▸ good.nodup.filter _
  by_cases done : (s.single d).interested = true ∧ (s.single d).active_requests = [] ∧ want = []
  · rw [if_pos done]
    refine ⟨base.beUninterested done.2.1, Only.beUninterested s d, ?_⟩
    rw [single_beUninterested]
    exact within
  · rw [if_neg done]
    obtain ⟨s₁, is, base₁, only, active, ready⟩ : ∃ s₁,
        (if ¬ (s.single d).interested = true ∧ want ≠ [] then s.beInterested d else s) = s₁ ∧
          Base s₁ ∧ Only d s s₁ ∧ (s₁.single d).active_requests = (s.single d).active_requests ∧
          (want ≠ [] → (s₁.single d).interested = true) := by
      by_cases asks : ¬ (s.single d).interested = true ∧ want ≠ []
      · exact ⟨_, if_pos asks, base.beInterested d, Only.beInterested s d,
          by rw [single_beInterested], fun _ => by rw [single_beInterested]⟩
      · exact ⟨_, if_neg asks, base, Only.refl d s, rfl,
          fun some_ => by_contra fun none_ => asks ⟨none_, some_⟩⟩
    rw [is]
    by_cases choked : (s.single d).choked = true
    · rw [if_pos choked]
      exact ⟨base₁, only, by rw [active]; exact within⟩
    · rw [if_neg choked]
      have room := fit.room
      have same := only.frame
      generalize hasked : (Shuffle.shuffle s₁.randrange want).take
        (s₁.backlog - (s.single d).active_requests.length) = asked
      have among : ∀ r ∈ asked, r ∈ want := fun r mem =>
        (Shuffle.shuffle_perm s₁.randrange want).subset (List.mem_of_mem_take (hasked ▸ mem))
      have short : asked.length ≤ s₁.backlog - (s.single d).active_requests.length :=
        hasked ▸ List.length_take_le ..
      have once' : asked.Nodup := hasked ▸ (((Shuffle.shuffle_perm s₁.randrange want).nodup_iff.2
        once).sublist (List.take_sublist ..))
      rw [same.backlog] at short
      obtain ⟨base', only', active'⟩ := Base.asks (d := d) asked (base₁.drawn s₁.all_requests.length)
        ((same.choked d).trans (Bool.eq_false_iff.2 choked))
        (fun some_ => ready fun none_ => some_ (List.eq_nil_iff_forall_not_mem.2 fun r mem => by
          have mem := among r mem
          rw [none_] at mem
          exact List.not_mem_nil mem))
        (by change (s₁.single d).active_requests.length + _ ≤ s₁.backlog
            rw [active, same.backlog]
            omega)
        (by change ((s₁.single d).active_requests ++ asked).Nodup
            rw [active]
            exact List.nodup_append.2 ⟨fit.nodup, once', fun a mem b mem' e =>
              (wanted b (among b mem')).2.2 (e ▸ mem)⟩)
        (fun r mem => by
          change (s₁.single d).have_.get r.1 = true
          rw [same.have_]
          exact (wanted r (among r mem)).2.1)
        (fun r mem => by
          have out := good.lacks (wanted r (among r mem)).1
          change r.1 < s₁.numpieces ∧ r.2 ∈ s₁.storage.blocks r.1
          rw [same.numpieces, same.torrent.blocks, ← base.hashes]
          exact out.2)
      refine ⟨base', (only.trans (Only.drawn s₁ d _)).trans only', ?_⟩
      rw [active']
      refine List.append_subset.2 ⟨?_, fun r mem => (wanted r (among r mem)).1⟩
      change (s₁.single d).active_requests ⊆ _
      rw [active]
      exact within

theorem Late.fix (late : Late sha s) (mem : d ∈ s.downloads) :
    Late sha (s.fix_download_endgame d) ∧ Frame s (s.fix_download_endgame d) := by
  obtain ⟨base, only, within⟩ := late.toBase.fix late.good mem (late.within d mem)
  exact ⟨late.only only base within, only.frame⟩

/-- Downloads that are changed one after the other -/
theorem each {P : Downloader δ → Prop} {f : Downloader δ → ℕ → Downloader δ} {ds : List ℕ}
    (turn : ∀ s d, P s → d ∈ s.downloads → P (f s d) ∧ Frame s (f s d)) (p : P s)
    (sub : ∀ d ∈ ds, d ∈ s.downloads) : P (ds.foldl f s) ∧ Frame s (ds.foldl f s) := by
  induction ds generalizing s with
  | nil => exact ⟨p, Frame.refl s⟩
  | cons d ds ih =>
    obtain ⟨p', frame⟩ := turn s d p (sub d List.mem_cons_self)
    obtain ⟨p'', frame'⟩ := ih p' fun e mem => by
      rw [frame.downloads]
      exact sub e (List.mem_cons_of_mem d mem)
    exact ⟨p'', frame.trans frame'⟩

theorem Late.fixAll (late : Late sha s) :
    Late sha (s.downloads.foldl fix_download_endgame s) ∧
      Frame s (s.downloads.foldl fix_download_endgame s) :=
  each (fun _ _ late mem => late.fix mem) late fun _ => id

/-- The endgame begins with the requests that are there. -/
theorem Early.endgame (early : Early sha s) (on : s.storage.endgame = true) :
    Late sha s.endgame ∧ Frame s s.endgame := by
  have late : Late sha { s with all_requests := s.actives } :=
    ⟨⟨early.nodup, early.fit, early.tidy, early.pieces, early.hashes, early.counts, early.asked,
      early.fair, early.few⟩, on, early.good, fun d mem r here => List.mem_flatMap.2 ⟨d, mem, here⟩⟩
  obtain ⟨late', frame⟩ := late.fixAll
  exact ⟨late', ⟨frame.backlog, frame.numpieces, frame.downloads, frame.choked, frame.have_,
    frame.torrent, frame.got⟩⟩

/-! ### New requests -/

theorem want_iff : s.want d index = true ↔
    (s.single d).have_.get index = true ∧ s.storage.do_I_have_requests index = true := by
  rw [want, Bool.and_eq_true]

theorem get_lt {b : Bitfield} (has : b.get index = true) : index < b.length := by
  rw [Bitfield.get, List.getD_eq_getElem?_getD] at has
  rw [← b.sized]
  by_contra far
  rw [List.getElem?_eq_none (Nat.le_of_not_lt far)] at has
  exact Bool.false_ne_true has

theorem Base.counted (base : Base s) {i k : ℕ} (less : i < s.picker.numpieces)
    (is : s.picker.numinterests i = some k) : k < 2 ^ 30 := by
  rw [base.counts i (base.pieces ▸ less)] at is
  split_ifs at is
  obtain rfl := Option.some.inj is
  exact (List.countP_le_length ..).trans_lt base.few

/-- What is chosen is wanted. -/
theorem Base.pick (base : Base s) {i : ℕ} (is : (s.pick d).1 = some i) : s.want d i = true :=
  ((PiecePicker.next_spec base.tidy (fun _ _ => base.counted) (base.fair 0)).1 i is).1

theorem Base.interest (base : Base s) {indices : Option (List ℕ)} {i : ℕ}
    (is : (s.interest d indices).1 = some i) : s.want d i = true := by
  cases indices with
  | none => exact base.pick is
  | some indices => exact List.find?_some is

theorem interest_only (s : Downloader δ) (d : ℕ) (indices : Option (List ℕ)) :
    ∃ n, (s.interest d indices).2 = s.drawn n := by
  cases indices with
  | none => exact ⟨1, rfl⟩
  | some indices =>
    refine ⟨0, ?_⟩
    rw [drawn]
    simp only [Nat.zero_add]
    rfl

theorem actives_congr (downloads : s'.downloads = s.downloads)
    (same : ∀ d, (s'.single d).active_requests = (s.single d).active_requests) :
    s'.actives = s.actives := by
  rw [actives, actives, downloads]
  simp only [same]

/-- Only what is sent is changed, and the interest. -/
theorem Early.only (early : Early sha s) (only : Only d s s') (base : Base s')
    (same : (s'.single d).active_requests = (s.single d).active_requests) : Early sha s' := by
  have all : s'.actives = s.actives := actives_congr only.frame.downloads fun e => by
    by_cases here : e = d
    · rw [here, same]
    · rw [only.others e here]
  refine ⟨base, ?_⟩
  rw [all, only.rest]
  exact early.good

/-- A block that is wanted is requested. -/
theorem Early.demand (early : Early sha s) (mem : d ∈ s.downloads)
    (open_ : (s.single d).choked = false) (eager : (s.single d).interested = true)
    (room : (s.single d).active_requests.length < s.backlog) {i : ℕ} (wanted : s.want d i = true) :
    ∃ s', s.demand d i = some s' ∧ Early sha s' ∧ Frame s s' := by
  obtain ⟨has, asks⟩ := want_iff.1 wanted
  have less : i < s.numpieces := by
    rw [← (early.fit d mem).size]
    exact get_lt has
  obtain ⟨r, w, step, asked, good⟩ := early.good.request (early.hashes.symm ▸ less) asks
  obtain ⟨torrent, got⟩ := asked.torrent
  have lacks := early.good.asks asks
  have missing : (s.picker.numinterests i).isSome := by
    rw [early.counts i less, lacks]
    rfl
  have tidy : (s.picker.requested i (s.seed d)).Tidy :=
    early.tidy.requested (early.pieces.symm ▸ less) missing
  have picker := PiecePicker.requested_eq s.picker i (s.seed d)
  have base := early.toBase.swap w (s.picker.requested i (s.seed d)) torrent got tidy (by rw [picker])
    (by rw [picker])
  have new : (i, r) ∉ s.actives := (List.nodup_cons.1 good.nodup).1
  have among : ∀ a ∈ (s.single d).active_requests, a ∈ s.actives := fun a here =>
    List.mem_flatMap.2 ⟨d, mem, here⟩
  generalize hs₁ : ({ s with storage := w, picker := s.picker.requested i (s.seed d) } :
    Downloader δ) = s₁ at base
  have same : s₁.single = s.single ∧ s₁.downloads = s.downloads ∧ s₁.storage = w := by
    rw [← hs₁]
    exact ⟨rfl, rfl, rfl⟩
  obtain ⟨single, downloads, storage⟩ := same
  refine ⟨s₁.ask d (i, r), by rw [Downloader.demand, step, ← hs₁]; rfl, ⟨?_, ?_⟩, ?_⟩
  · refine base.ask (by rw [single]; exact open_) (by rw [single]; exact eager) ?_
      (fun here => new (among _ (single ▸ here))) (by rw [single]; exact has) ?_
    · rw [single, ← hs₁]
      exact room
    · rw [← hs₁]
      exact ⟨less, by rw [torrent.blocks]; exact asked.mem⟩
  · change s₁.storage.Good sha _
    rw [storage]
    refine good.perm ?_
    have before := actives_split mem
    have after := actives_split (s := s₁.ask d (i, r)) (downloads.symm ▸ mem)
    have others : (s₁.ask d (i, r)).others d = s.others d := by
      rw [show (s₁.ask d (i, r)).others d = s₁.others d from
        others_tell (base.nodup) _ [.request i r.1 r.2], ← hs₁]
      rfl
    rw [single_ask, others, single, List.append_assoc] at after
    refine (before.cons _).trans (List.Perm.trans ?_ after.symm)
    change ((i, r) :: ((s.single d).active_requests ++ s.others d)).Perm
      ((s.single d).active_requests ++ (i, r) :: s.others d)
    exact List.perm_middle.symm
  · have only := (Only.ask s₁ d (i, r)).frame
    rw [← hs₁] at only ⊢
    exact ⟨only.backlog, only.numpieces, only.downloads, only.choked, only.have_,
      torrent.trans only.torrent, only.got.trans got⟩

theorem single_example (s : Downloader δ) (d i : ℕ) :
    (s.change d fun x => { x with example_interest := some i }).single d =
      { s.single d with example_interest := some i } := Function.update_self ..

theorem Only.example (s : Downloader δ) (d i : ℕ) :
    Only d s (s.change d fun x => { x with example_interest := some i }) :=
  ⟨rfl, fun _ ne => Function.update_of_ne ne .., by rw [single_example], by rw [single_example]⟩

theorem Early.aim (early : Early sha s) (d i : ℕ) : Early sha (s.aim d i) ∧ Only d s (s.aim d i) ∧
    ((s.aim d i).single d).active_requests = (s.single d).active_requests ∧
    ((s.aim d i).single d).interested = true := by
  rw [Downloader.aim]
  by_cases told : (s.single d).interested = true
  · rw [if_pos told, single_example]
    exact ⟨early.only (Only.example s d i) (early.toBase.example i) (by rw [single_example]),
      Only.example s d i, rfl, told⟩
  · have here := single_beInterested s d
    have early' := early.only (Only.beInterested s d) (early.toBase.beInterested d) (by rw [here])
    rw [if_neg told, single_example, here]
    exact ⟨early'.only (Only.example _ d i) (early'.toBase.example i) (by rw [single_example]),
      (Only.beInterested s d).trans (Only.example _ d i), rfl, rfl⟩

theorem Early.fill (indices : Option (List ℕ)) (early : Early sha s) (mem : d ∈ s.downloads)
    (open_ : (s.single d).choked = false) (fuel : ℕ) (lost : List ℕ) :
    ∃ s' lost', fill d indices fuel s lost = some (s', lost') ∧ Early sha s' ∧ Frame s s' := by
  induction fuel generalizing s lost with
  | zero => exact ⟨s, lost, rfl, early, Frame.refl s⟩
  | succ fuel ih =>
    rw [Downloader.fill]
    by_cases room : (s.single d).active_requests.length < s.backlog
    · rw [if_pos room]
      obtain ⟨n, drawn⟩ := interest_only s d indices
      rcases pair : s.interest d indices with ⟨o, s₀⟩
      rw [pair] at drawn
      dsimp only at drawn
      subst drawn
      have early₀ : Early sha (s.drawn n) :=
        early.only (Only.drawn s d n) (early.toBase.drawn n) rfl
      cases o with
      | none => exact ⟨_, lost, rfl, early₀, Frame.drawn s n⟩
      | some i =>
        have wanted := early.toBase.interest (i := i) (by rw [pair])
        obtain ⟨early₁, only₁, active₁, eager₁⟩ := early₀.aim d i
        have frame₁ := only₁.frame
        dsimp only
        generalize (s.drawn n).aim d i = s₁ at early₁ only₁ active₁ eager₁ frame₁
        obtain ⟨s₂, step, early₂, frame₂⟩ := early₁.demand (d := d) (i := i)
          (by rw [frame₁.downloads]; exact mem) (by rw [frame₁.choked]; exact open_) eager₁
          (by rw [active₁, frame₁.backlog]; exact room)
          (by rw [want, frame₁.have_, only₁.rest]; exact wanted)
        have frame := ((Frame.drawn s n).trans frame₁).trans frame₂
        obtain ⟨s₃, lost', filled, early₃, frame₃⟩ := ih early₂ (by rw [frame.downloads]; exact mem)
          (by rw [frame.choked]; exact open_) _
        rw [step, Option.bind_some]
        exact ⟨s₃, lost', filled, early₃, frame.trans frame₃⟩
    · rw [if_neg room]
      exact ⟨s, lost, rfl, early, Frame.refl s⟩

end Downloader

end Ydfs.BitTorrent
