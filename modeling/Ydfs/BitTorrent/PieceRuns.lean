import Mathlib.Data.List.Count
import Mathlib.Logic.Relation
import Ydfs.BitTorrent.PieceRequests

/-!
# Runs of a wrapper

Requests are made, lost and answered in any order, and what comes in as an answer may be anything of
the length that was requested.  No call fails, the data on the disk is never found broken, and the
owner is told once that the torrent is finished; then every piece is in its own place and has its hash
(`finished_right`).
-/

namespace Ydfs.BitTorrent.StorageWrapper

open Wubi.Sax (Text)

variable {δ : Type} {sha : Text → δ} {order : List (ℕ × ℕ) → List (ℕ × ℕ)}
  {w w' : StorageWrapper δ} {holes holes' : List ℕ} {out out' : List (ℕ × ℕ × ℕ)} {p q k : ℕ}
  {r : ℕ × ℕ} {s : Text}

/-- A piece that has its hash -/
def Right (sha : Text → δ) (w : StorageWrapper δ) (p : ℕ) : Prop :=
  ∃ q, w.places p = some q ∧ some (sha (w.readPlace q (w.piecelen p))) = w.hashes[p]?

/-- What is read of a piece are its bytes. -/
theorem Stored.text (stored : Stored w holes) (there : w.places p = some q) :
    (w.readPlace q (w.piecelen p)).length = w.piecelen p ∧
      ∀ k, k < w.piecelen p → (w.readPlace q (w.piecelen p))[k]? = w.data p k := by
  have fits := stored.layout.fits p q there
  obtain ⟨long, same⟩ := readPlace_spec stored.toSized (stored.layout.lt p q there).2 fits
    fun k less => stored.full p q there k (less.trans_le fits)
  refine ⟨long, fun k less => ?_⟩
  rw [same k less, data, there]
  rfl

/-- The same bytes have the same hash. -/
theorem Stored.text_eq {q' : ℕ} (stored : Stored w holes) (stored' : Stored w' holes')
    (there : w.places p = some q) (there' : w'.places p = some q') (size : w'.piecelen = w.piecelen)
    (same : ∀ k, k < w.piecelen p → w'.data p k = w.data p k) :
    w'.readPlace q' (w'.piecelen p) = w.readPlace q (w.piecelen p) := by
  obtain ⟨long, text⟩ := stored.text there
  obtain ⟨long', text'⟩ := stored'.text there'
  rw [size] at long' text' ⊢
  apply List.ext_getElem?
  intro k
  by_cases less : k < w.piecelen p
  · rw [text' k less, text k less, same k less]
  · rw [List.getElem?_eq_none (by omega), List.getElem?_eq_none (by omega)]

theorem Right.kept (right : Right sha w p) (stored : Stored w holes) (stored' : Stored w' holes')
    (placed : (w'.places p).isSome) (size : w'.piecelen = w.piecelen) (hashes : w'.hashes = w.hashes)
    (same : ∀ k, k < w.piecelen p → w'.data p k = w.data p k) : Right sha w' p := by
  obtain ⟨q, there, hash⟩ := right
  obtain ⟨q', there'⟩ := Option.isSome_iff_exists.1 placed
  exact ⟨q', there', by rw [stored.text_eq stored' there there' size same, hashes, hash]⟩

/-- What is so between any two calls, but for a piece that has just come in. -/
structure Sound (sha : Text → δ) (w : StorageWrapper δ) (out : List (ℕ × ℕ × ℕ)) : Prop extends
    Stored w w.holes where
  request_pos : 0 < w.request_size
  sorted : w.holes.Pairwise (· < ·)
  fresh : ∀ h ∈ w.holes, w.waspre h = false
  ledger : Ledger w out
  /-- A piece that has not been checked is in its own place. -/
  home : ∀ p, w.have_ p → w.waschecked p = false → w.places p = some p
  right : ∀ p, w.have_ p → w.waschecked p → Right sha w p
  /-- The data has never been found broken. -/
  unbroken : ∀ reason, Call.failed reason ∉ w.calls
  finished : w.calls.count .finished = if w.amount_left = 0 then 1 else 0

/-- What is so between any two calls. -/
structure Good (sha : Text → δ) (w : StorageWrapper δ) (out : List (ℕ × ℕ × ℕ)) : Prop extends
    Sound sha w out where
  live : ∀ p, Live w out p

/-- A change of places and of the disk that keeps the pieces that are there. -/
theorem Sound.reshape (sound : Sound sha w out) (stored : Stored w' w'.holes)
    (frame : w' = { w with storage := w'.storage, places := w'.places, holes := w'.holes })
    (sub : w'.holes.Sublist w.holes) (waspre : w'.waspre = w.waspre)
    (placed : ∀ p, w.have_ p → (w'.places p).isSome)
    (own : ∀ p, w.places p = some p → w'.places p = some p)
    (same : ∀ p k, w.have_ p → k < w.piecelen p → w'.data p k = w.data p k) : Sound sha w' out := by
  have ledger : Ledger w' out := by
    rw [frame]
    exact ⟨sound.ledger.known, fun q => ⟨(sound.ledger.piece q).number, (sound.ledger.piece q).all,
      (sound.ledger.piece q).begun, (sound.ledger.piece q).got⟩, sound.ledger.left,
      sound.ledger.inactive, sound.ledger.ends⟩
  have have_ : w'.have_ = w.have_ := by rw [frame]
  have checked : w'.waschecked = w.waschecked := by rw [frame]
  have size : w'.piecelen = w.piecelen := by rw [frame]; rfl
  have hashes : w'.hashes = w.hashes := by rw [frame]
  have calls : w'.calls = w.calls := by rw [frame]
  have left : w'.amount_left = w.amount_left := by rw [frame]
  refine ⟨stored, by rw [frame]; exact sound.request_pos, sound.sorted.sublist sub, fun h mem => ?_,
    ledger, fun p got off => ?_, fun p got on => ?_, ?_, ?_⟩
  · rw [waspre]
    exact sound.fresh h (sub.subset mem)
  · exact own p (sound.home p (have_ ▸ got) (checked ▸ off))
  · rw [have_] at got
    exact (sound.right p got (checked ▸ on)).kept sound.toStored stored (placed p got) size hashes
      fun k less => same p k got less
  · rw [calls]
    exact sound.unbroken
  · rw [calls, left]
    exact sound.finished

/-! ### Steps -/

theorem Sound.held (sound : Sound sha w out) (got : w.have_ p) : (w.places p).isSome := by
  by_cases on : w.waschecked p
  · obtain ⟨q, there, -⟩ := sound.right p got on
    exact Option.isSome_of_eq_some there
  · exact Option.isSome_of_eq_some (sound.home p got (by simpa using on))

/-- A request is made. -/
theorem Good.request (good : Good sha w out) (lt : p < w.hashes.length)
    (asks : w.do_I_have_requests p) :
    ∃ r w', w.new_request p = some (r, w') ∧ Requested w w' p r ∧ Good sha w' ((p, r) :: out) := by
  obtain ⟨r, w', step, asked, ledger, live⟩ :=
    good.ledger.new_request good.toSized good.request_pos lt asks
  refine ⟨r, w', step, asked, ⟨⟨?_, ?_, ?_, ?_, ledger, ?_, ?_, ?_, ?_⟩, fun q l is => ?_⟩⟩
  · rw [asked.frame]
    exact ⟨⟨good.size_pos, good.many, good.low, good.high, good.total, good.whole⟩, good.layout,
      good.full⟩
  · rw [asked.frame]
    exact good.request_pos
  · rw [asked.frame]
    exact good.sorted
  · rw [asked.frame]
    exact good.fresh
  · rw [asked.frame]
    exact good.home
  · rw [asked.frame]
    exact good.right
  · rw [asked.frame]
    exact good.unbroken
  · rw [asked.frame]
    exact good.finished
  · by_cases same : q = p
    · subst same
      exact live l is
    · rw [asked.others q same] at is
      rw [outOf_cons_ne (Ne.symm same)]
      exact good.live q l is

/-- A request is lost. -/
theorem Good.lost (good : Good sha w ((p, r) :: out)) :
    ∃ w', w.request_lost p r.1 r.2 = some w' ∧ Lost w w' p r ∧ Good sha w' out := by
  obtain ⟨lt, block, -⟩ := good.ledger.blocks_of_out List.mem_cons_self
  have pos := ((good.blocks_tiles good.request_pos lt).bounds block).2.1
  obtain ⟨w', step, gone, ledger, live⟩ := good.ledger.request_lost pos
  refine ⟨w', step, gone, ⟨⟨?_, ?_, ?_, ?_, ledger, ?_, ?_, ?_, ?_⟩, fun q l is => ?_⟩⟩
  · rw [gone.frame]
    exact ⟨⟨good.size_pos, good.many, good.low, good.high, good.total, good.whole⟩, good.layout,
      good.full⟩
  · rw [gone.frame]
    exact good.request_pos
  · rw [gone.frame]
    exact good.sorted
  · rw [gone.frame]
    exact good.fresh
  · rw [gone.frame]
    exact good.home
  · rw [gone.frame]
    exact good.right
  · rw [gone.frame]
    exact good.unbroken
  · rw [gone.frame]
    exact good.finished
  · by_cases same : q = p
    · subst same
      exact live l is
    · rw [gone.others q same] at is
      have old := good.live q l is
      rwa [outOf_cons_ne (Ne.symm same)] at old

section Came

variable [DecidableEq δ] (perm : ∀ l, (order l).Perm l)

include perm

/-- A piece has a place when its block is written. -/
theorem Sound.placed (sound : Sound sha w out) (lt : p < w.hashes.length) :
    ∃ w₁, (if (w.places p).isSome then some (false, w) else settle sha order w p) = some (false, w₁) ∧
      w₁ = { w with storage := w₁.storage, places := w₁.places, holes := w₁.holes } ∧
      Kept w w₁ ∧ (w₁.places p).isSome ∧ Sound sha w₁ out := by
  by_cases there : (w.places p).isSome
  · exact ⟨w, if_pos there, rfl, Kept.refl w, there, sound⟩
  · have new : w.places p = none := by simpa using there
    have right : ∀ p q, w.have_ p → w.places p = some q → q ≠ p →
        some (sha (w.readPlace q (w.piecelen p))) = w.hashes[p]? := by
      intro p q got there away
      by_cases on : w.waschecked p
      · obtain ⟨q', there', hash⟩ := sound.right p got on
        rwa [Option.some.inj (there'.symm.trans there)] at hash
      · have home := sound.home p got (by simpa using on)
        exact absurd (Option.some.inj (there.symm.trans home)) away
    obtain ⟨w₁, step, settled⟩ := settle_spec perm sha sound.toStored sound.sorted lt new
      sound.fresh right
    have tail : w₁.holes = w.holes.tail := by rw [settled.frame]
    have frame : w₁ = { w with storage := w₁.storage, places := w₁.places, holes := w₁.holes } := by
      rw [tail]
      exact settled.frame
    refine ⟨w₁, (if_neg there).trans step, frame, settled.kept, settled.placed, ?_⟩
    exact sound.reshape settled.stored frame (tail ▸ List.tail_sublist _) settled.kept.waspre
      (fun p got => settled.kept.placed p (sound.held got)) settled.kept.home
      fun p k got less => settled.kept.data p k (sound.held got) less

/-- A block that has been written, before the check of its piece. -/
structure Written (w w' : StorageWrapper δ) (p : ℕ) (r : ℕ × ℕ) (s : Text) : Prop where
  inactive : w'.inactive_requests = w.inactive_requests
  have_ : w'.have_ = w.have_
  waschecked : w'.waschecked = w.waschecked
  calls : w'.calls = w.calls
  endgame : w'.endgame = w.endgame
  torrent : SameTorrent w w'
  placed : ∀ q, q = p ∨ (w.places q).isSome → (w'.places q).isSome
  /-- The bytes of the block. -/
  new : ∀ k, r.1 ≤ k → k < r.1 + r.2 → w'.data p k = s[k - r.1]?
  /-- The other bytes of the piece. -/
  old : ∀ k, k < w.piecelen p → k < r.1 ∨ r.1 + r.2 ≤ k → (w.places p).isSome →
    w'.data p k = w.data p k
  /-- The other pieces. -/
  others : ∀ q k, q ≠ p → (w.places q).isSome → k < w.piecelen q → w'.data q k = w.data q k

/-- What an answer does: the block is written, and its piece is checked if it was the last one. -/
theorem Sound.write (sound : Sound sha w ((p, r) :: out)) (size : s.length = r.2) :
    ∃ q w', w'.places p = some q ∧ Sound sha w' out ∧ Written w w' p r s ∧
      piece_came_in sha order w p r.1 s =
        some (if w'.noneInactive p ∧ w'.numactive p = 0 then w'.check sha p q else (true, w')) := by
  obtain ⟨lt, block, l, here⟩ := sound.ledger.blocks_of_out List.mem_cons_self
  have lacks := ((sound.ledger.piece p).begun l here).1
  have inside := ((sound.blocks_tiles sound.request_pos lt).bounds block).2.2
  obtain ⟨w₁, step, frame, kept, placed, sound₁⟩ := sound.placed perm lt
  obtain ⟨q, there⟩ := Option.isSome_iff_exists.1 placed
  have have_ : w₁.have_ = w.have_ := by rw [frame]
  obtain ⟨stored₂, others, new, old, waspre⟩ := sound₁.writeOwn (s := s) there r.1
    (by rw [size, kept.piecelen]; exact inside)
  rw [size] at new old
  have other : ∀ q, w₁.have_ q → q ≠ p := by
    rintro q got rfl
    rw [have_, lacks] at got
    cases got
  have sound₂ : Sound sha (w₁.writePlace q r.1 s) ((p, r) :: out) := by
    refine sound₁.reshape stored₂ rfl (List.Sublist.refl _) waspre (fun q got => sound₁.held got)
      (fun q home => home) fun q k got less => others q k (other q got) (sound₁.held got) less
  have sound₃ : Sound sha (w₁.writeBlock p q r.1 s) out :=
    ⟨⟨⟨sound₂.size_pos, sound₂.many, sound₂.low, sound₂.high, sound₂.total, sound₂.whole⟩,
      sound₂.layout, sound₂.full⟩, sound₂.request_pos, sound₂.sorted, sound₂.fresh,
      sound₂.ledger.answered, sound₂.home, sound₂.right, sound₂.unbroken, sound₂.finished⟩
  refine ⟨q, w₁.writeBlock p q r.1 s, there, sound₃, ⟨by rw [frame]; rfl, have_, by rw [frame]; rfl,
    by rw [frame]; rfl, by rw [frame]; rfl, ⟨by rw [frame]; rfl, by rw [frame]; rfl, kept.piecelen⟩,
    fun q' was => ?_, new,
    fun k less out placed => ?_, fun q' k ne placed less => ?_⟩, ?_⟩
  · rcases was with rfl | was
    · exact Option.isSome_of_eq_some there
    · exact kept.placed q' was
  · exact (old k (by rwa [kept.piecelen]) out).trans (kept.data p k placed less)
  · exact (others q' k ne (kept.placed q' placed) (by rwa [kept.piecelen])).trans
      (kept.data q' k placed less)
  · rw [piece_came_in, step]
    simp only [Option.bind_some, there, Option.map_some]
    exact if_neg Bool.false_ne_true

omit perm in
/-- The check of a piece leaves everything sound. -/
theorem Sound.check (sound : Sound sha w out) (lt : p < w.hashes.length)
    (here : w.inactive_requests p = .blocks []) (none : outOf out p = []) (there : w.places p = some q) :
    Sound sha (w.check sha p q).2 out ∧ Live (w.check sha p q).2 out p := by
  obtain ⟨ledger, live⟩ := sound.ledger.check sha q sound.toSized lt here none
  refine ⟨?_, live⟩
  have lacks := ((sound.ledger.piece p).begun [] here).1
  have left : w.amount_left ≠ 0 := by
    intro zero
    have := (sound.ledger.left_eq_zero sound.toSized).1 zero p lt
    rw [lacks] at this
    cases this
  have quiet : w.calls.count .finished = 0 := by rw [sound.finished, if_neg left]
  rw [StorageWrapper.check] at ledger ⊢
  by_cases same : some (sha (w.readPlace q (w.piecelen p))) = w.hashes[p]?
  · rw [if_pos same] at ledger ⊢
    have home : ∀ p', Function.update w.have_ p true p' = true →
        Function.update w.waschecked p true p' = false → w.places p' = some p' := by
      intro p' got off
      by_cases e : p' = p
      · rw [e, Function.update_self] at off
        cases off
      · rw [Function.update_of_ne e] at got off
        exact sound.home p' got off
    have right : ∀ p', Function.update w.have_ p true p' = true →
        Function.update w.waschecked p true p' = true → Right sha w p' := by
      intro p' got on
      by_cases e : p' = p
      · exact e ▸ ⟨q, there, same⟩
      · rw [Function.update_of_ne e] at got on
        exact sound.right p' got on
    have stored := sound.toStored
    dsimp only at ledger ⊢
    by_cases last : w.amount_left - (w.piecelen p : ℤ) = 0
    · rw [if_pos last] at ledger ⊢
      refine ⟨⟨⟨stored.size_pos, stored.many, stored.low, stored.high, stored.total, stored.whole⟩,
        stored.layout, stored.full⟩, sound.request_pos, sound.sorted, sound.fresh, ledger, home, right,
        fun reason mem => ?_, ?_⟩
      · rcases List.mem_append.1 mem with old | new
        · exact sound.unbroken reason old
        · cases List.mem_singleton.1 new
      · rw [call, List.count_append, quiet]
        exact (if_pos last).symm
    · rw [if_neg last] at ledger ⊢
      refine ⟨⟨⟨stored.size_pos, stored.many, stored.low, stored.high, stored.total, stored.whole⟩,
        stored.layout, stored.full⟩, sound.request_pos, sound.sorted, sound.fresh, ledger, home, right,
        sound.unbroken, ?_⟩
      exact quiet.trans (if_neg last).symm
  · rw [if_neg same] at ledger ⊢
    have stored := sound.toStored
    refine ⟨⟨⟨stored.size_pos, stored.many, stored.low, stored.high, stored.total, stored.whole⟩,
      stored.layout, stored.full⟩, sound.request_pos, sound.sorted, sound.fresh, ledger, sound.home,
      sound.right, fun reason mem => ?_, ?_⟩
    · rcases List.mem_append.1 mem with old | new
      · exact sound.unbroken reason old
      · cases List.mem_singleton.1 new
    · dsimp only [call]
      rw [List.count_append, quiet]
      exact (if_neg left).symm

/-- What comes in is written, and its piece is checked if it was the last block. -/
theorem Good.came (good : Good sha w ((p, r) :: out)) (size : s.length = r.2) :
    ∃ ok w' w₁, piece_came_in sha order w p r.1 s = some (ok, w') ∧ Good sha w' out ∧
      Written w w₁ p r s ∧ Sound sha w₁ out ∧
      (ok = true ∧ w' = w₁ ∨ ∃ q, w₁.places p = some q ∧ w₁.inactive_requests p = .blocks [] ∧
        outOf out p = [] ∧ (ok, w') = w₁.check sha p q) := by
  obtain ⟨lt, -, l, here⟩ := good.ledger.blocks_of_out List.mem_cons_self
  obtain ⟨q, w₁, there, sound, written, step⟩ := good.toSound.write perm size
  have lt₁ : p < w₁.hashes.length := by rwa [written.torrent.hashes]
  rw [← written.inactive] at here
  have others : ∀ q', q' ≠ p → Live w₁ out q' := by
    intro q' ne l' is
    rw [written.inactive] at is
    have old := good.live q' l' is
    rwa [outOf_cons_ne (Ne.symm ne)] at old
  have number := (sound.ledger.piece p).number
  by_cases last : w₁.noneInactive p ∧ w₁.numactive p = 0
  · have empty : l = [] := by
      have none := last.1
      rw [noneInactive, do_I_have_requests, here] at none
      simpa using none
    have none : outOf out p = [] := by
      rw [last.2] at number
      exact List.eq_nil_of_length_eq_zero (Int.natCast_eq_zero.1 number.symm)
    rw [empty] at here
    obtain ⟨checked, live⟩ := sound.check lt₁ here none there
    refine ⟨(w₁.check sha p q).1, (w₁.check sha p q).2, w₁, by rw [step, if_pos last], ⟨checked, fun q' => ?_⟩, written, sound,
      .inr ⟨q, there, here, none, rfl⟩⟩
    by_cases same : q' = p
    · exact same ▸ live
    · intro l' is
      refine others q' same l' ?_
      rw [← is, StorageWrapper.check]
      by_cases hash : some (sha (w₁.readPlace q (w₁.piecelen p))) = w₁.hashes[p]?
      · rw [if_pos hash]
        dsimp only
        split_ifs <;> exact (Function.update_of_ne same ..).symm
      · rw [if_neg hash]
        exact (Function.update_of_ne same ..).symm
  · refine ⟨true, w₁, w₁, by rw [step, if_neg last], ⟨sound, fun q' => ?_⟩, written, sound,
      .inl ⟨rfl, rfl⟩⟩
    by_cases same : q' = p
    · intro l' is none
      rw [same] at is none
      obtain rfl := Inactive.blocks.inj (here.symm.trans is)
      rw [List.append_eq_nil_iff] at none
      refine last ⟨?_, ?_⟩
      · rw [noneInactive, do_I_have_requests, here, none.1]
        rfl
      · rw [number, none.2]
        rfl
    · exact others q' same

end Came

/-! ### Runs -/

/-- A call of the wrapper, with the requests before and after it; `answer` says what may come in for a
block. -/
inductive Step [DecidableEq δ] (sha : Text → δ) (order : List (ℕ × ℕ) → List (ℕ × ℕ))
    (answer : ℕ → ℕ × ℕ → Text → Prop) :
    StorageWrapper δ × List (ℕ × ℕ × ℕ) → StorageWrapper δ × List (ℕ × ℕ × ℕ) → Prop where
  /-- A piece that has requests is asked for one. -/
  | request {w w' : StorageWrapper δ} {out : List (ℕ × ℕ × ℕ)} {p : ℕ} {r : ℕ × ℕ}
      (lt : p < w.hashes.length) (asks : w.do_I_have_requests p)
      (step : w.new_request p = some (r, w')) : Step sha order answer (w, out) (w', (p, r) :: out)
  /-- A request is lost. -/
  | lost {w w' : StorageWrapper δ} {out : List (ℕ × ℕ × ℕ)} {p : ℕ} {r : ℕ × ℕ}
      (mem : (p, r) ∈ out) (step : w.request_lost p r.1 r.2 = some w') :
      Step sha order answer (w, out) (w', out.erase (p, r))
  /-- A request is answered. -/
  | came {w w' : StorageWrapper δ} {out : List (ℕ × ℕ × ℕ)} {p : ℕ} {r : ℕ × ℕ} {s : Text} {ok : Bool}
      (mem : (p, r) ∈ out) (size : s.length = r.2) (may : answer p r s)
      (step : piece_came_in sha order w p r.1 s = some (ok, w')) :
      Step sha order answer (w, out) (w', out.erase (p, r))

theorem Good.perm (good : Good sha w out) (h : out.Perm out') : Good sha w out' :=
  ⟨⟨good.toStored, good.request_pos, good.sorted, good.fresh, good.ledger.perm h, good.home, good.right,
    good.unbroken, good.finished⟩, fun p l is none => by
      have old := good.live p l is
      rw [List.append_eq_nil_iff] at none
      refine old ?_
      rw [none.1, List.nil_append]
      exact List.perm_nil.1 (none.2 ▸ outOf_perm h p)⟩

section Runs

variable [DecidableEq δ] {answer : ℕ → ℕ × ℕ → Text → Prop} (perm : ∀ l, (order l).Perm l)

include perm

/-- Every step leaves everything good. -/
theorem Good.step {x y : StorageWrapper δ × List (ℕ × ℕ × ℕ)} (good : Good sha x.1 x.2)
    (step : Step sha order answer x y) : Good sha y.1 y.2 := by
  cases step with
  | request lt asks step =>
    obtain ⟨r, w', same, -, after⟩ := good.request lt asks
    cases same.symm.trans step
    exact after
  | lost mem step =>
    obtain ⟨w', same, -, after⟩ := (good.perm (List.perm_cons_erase mem)).lost
    cases same.symm.trans step
    exact after
  | came mem size may step =>
    obtain ⟨ok, w', w₁, same, after, -⟩ := (good.perm (List.perm_cons_erase mem)).came perm size
    cases same.symm.trans step
    exact after

theorem Good.run {x y : StorageWrapper δ × List (ℕ × ℕ × ℕ)}
    (run : Relation.ReflTransGen (Step sha order answer) x y) (good : Good sha x.1 x.2) :
    Good sha y.1 y.2 := by
  induction run with
  | refl => exact good
  | tail _ step ih => exact ih.step perm step

theorem Good.checked {x y : StorageWrapper δ × List (ℕ × ℕ × ℕ)} (good : Good sha x.1 x.2)
    (step : Step sha order answer x y) (all : ∀ p, x.1.waschecked p = true) :
    ∀ p, y.1.waschecked p = true := by
  cases step with
  | request lt asks step =>
    obtain ⟨r, w', same, asked, -⟩ := good.request lt asks
    cases same.symm.trans step
    dsimp only
    rw [asked.frame]
    exact all
  | lost mem step =>
    obtain ⟨w', same, gone, -⟩ := (good.perm (List.perm_cons_erase mem)).lost
    cases same.symm.trans step
    dsimp only
    rw [gone.frame]
    exact all
  | @came w w' out p r s ok mem size may step =>
    obtain ⟨ok, w', w₁, same, -, written, -, how⟩ :=
      (good.perm (List.perm_cons_erase mem)).came perm size
    cases same.symm.trans step
    have all₁ : ∀ q, w₁.waschecked q = true := by
      rw [written.waschecked]
      exact all
    rcases how with ⟨-, rfl⟩ | ⟨q, -, -, -, check⟩
    · exact all₁
    · have same : w' = (w₁.check sha p q).2 := congrArg Prod.snd check
      intro p'
      dsimp only
      rw [same, StorageWrapper.check]
      by_cases hash : some (sha (w₁.readPlace q (w₁.piecelen p))) = w₁.hashes[p]?
      · have updated : Function.update w₁.waschecked p true p' = true := by
          rw [Function.update_apply, all₁, ite_self]
        rw [if_pos hash]
        dsimp only
        split_ifs <;> exact updated
      · rw [if_neg hash]
        exact all₁ p'

/-- Where all pieces were checked at the beginning, each of them has been. -/
theorem Good.run_checked {x y : StorageWrapper δ × List (ℕ × ℕ × ℕ)}
    (run : Relation.ReflTransGen (Step sha order answer) x y) (good : Good sha x.1 x.2)
    (all : ∀ p, x.1.waschecked p = true) : ∀ p, y.1.waschecked p = true := by
  induction run with
  | refl => exact all
  | tail run step ih => exact (good.run perm run).checked perm step ih

end Runs

/-- When the owner is told that the torrent is finished, every piece is in its own place of the file and
has its hash. -/
theorem Good.finished_right (good : Good sha w out) (checked : ∀ p, w.waschecked p = true)
    (finished : Call.finished ∈ w.calls) (lt : p < w.hashes.length) :
    some (sha (w.storage.read (w.piece_size * p) (w.piecelen p))) = w.hashes[p]? := by
  have left : w.amount_left = 0 := by
    have count := good.finished
    have pos := List.count_pos_iff.2 finished
    by_contra more
    rw [if_neg more] at count
    omega
  have all := (good.ledger.left_eq_zero good.toSized).1 left
  have none : w.holes = [] := by
    refine List.eq_nil_of_length_eq_zero ?_
    rw [← good.layout.card, Finset.card_eq_zero, Finset.filter_eq_empty_iff]
    intro q mem nowhere
    have := good.held (all q (Finset.mem_range.1 mem))
    rw [nowhere] at this
    cases this
  obtain ⟨q, there, hash⟩ := good.right p (all p lt) (checked p)
  have own : q = p := by
    by_contra away
    have := good.layout.home p q there away
    rw [none] at this
    cases this
  exact own ▸ hash

end Ydfs.BitTorrent.StorageWrapper
