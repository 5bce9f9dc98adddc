import Ydfs.BitTorrent.PieceScan

/-!
# What holds of every download

From any files on the disk a wrapper begins, and requests are made, lost and answered in any order.
No call fails (`calls_return`); as long as a piece is missing there is a request to make or to wait for
(`goes_on`); the owner is told once that the torrent is finished, and then the file is right
(`finished_file`).  Where what comes in is right no piece is thrown away (`honest_run`), and what is
given to others is right in any case (`get_piece_right`).
-/

namespace Ydfs.BitTorrent.StorageWrapper

open Wubi.Sax (Text)

variable {δ : Type} [DecidableEq δ] {sha : Text → δ} {order : List (ℕ × ℕ) → List (ℕ × ℕ)}
  {answer : ℕ → ℕ × ℕ → Text → Prop} {files : List (Text × ℕ)} {disk : Text → Option Text}
  {request_size piece_size p : ℕ} {hashes : List δ} {check : Bool} {v w : StorageWrapper δ}
  {out : List (ℕ × ℕ × ℕ)} {r : ℕ × ℕ} {s : Text}

/-- A download of a torrent: the state it has come to, and the requests that are outstanding. -/
structure Download (sha : Text → δ) (order : List (ℕ × ℕ) → List (ℕ × ℕ))
    (answer : ℕ → ℕ × ℕ → Text → Prop) (check : Bool) (w : StorageWrapper δ)
    (out : List (ℕ × ℕ × ℕ)) : Prop where
  perm : ∀ l, (order l).Perm l
  run : ∃ (files : List (Text × ℕ)) (disk : Text → Option Text) (request_size piece_size : ℕ)
    (hashes : List δ) (v : StorageWrapper δ), (files.map (·.1)).Nodup ∧ 0 < piece_size ∧
      0 < request_size ∧ hashes ≠ [] ∧
      init sha (Storage.init files disk) request_size hashes piece_size check = some v ∧
      Relation.ReflTransGen (Step sha order answer) (v, []) (w, out)

theorem Download.good (download : Download sha order answer check w out) : Good sha w out := by
  obtain ⟨files, disk, request_size, piece_size, hashes, v, nodup, size, request, many, begun, run⟩ :=
    download.run
  exact (init_good nodup size request many begun).1.run download.perm run

theorem Download.checked (download : Download sha order answer true w out) :
    ∀ p, w.waschecked p = true := by
  obtain ⟨files, disk, request_size, piece_size, hashes, v, nodup, size, request, many, begun, run⟩ :=
    download.run
  obtain ⟨good, all, -⟩ := init_good nodup size request many begun
  exact good.run_checked download.perm run (all rfl)

/-- The senders have the texts of the pieces, and give the blocks that they are asked for. -/
def Honest (target : ℕ → Text) (p : ℕ) (r : ℕ × ℕ) (s : Text) : Prop :=
  s = ((target p).drop r.1).take r.2

/-- A torrent of two pieces, where the hash of a text is the text itself -/
def small (disk : Text → Option Text) : Option (StorageWrapper Text) :=
  init id (Storage.init [("a".toList, 3)] disk) 1 ["xy".toList, "z".toList] 2 true

def smallPiece (p : ℕ) : Text := if p = 0 then "xy".toList else "z".toList

theorem small_download (disk : Text → Option Text) {v w : StorageWrapper Text}
    (begun : small disk = some v)
    (run : Relation.ReflTransGen (Step id id (Honest smallPiece)) (v, []) (w, out)) :
    Download id id (Honest smallPiece) true w out :=
  ⟨fun l => .refl l, _, disk, _, _, _, v, by decide, by decide, by decide, by decide, begun, run⟩

/-- The second piece comes in first, and then the blocks of the first one: where the last of them is
requested, and where it has come in. -/
theorem small_run : ∃ w₁ w₂ : StorageWrapper Text,
    Download id id (Honest smallPiece) true w₁ [(0, 1, 1)] ∧
      Download id id (Honest smallPiece) true w₂ [] ∧
      (w₁.hashes.length = 2 ∧ w₁.amount_left = 2 ∧ w₁.inactive_requests 0 = .blocks [] ∧
        w₁.inactive_requests 1 = .none) ∧
      w₂.hashes = ["xy".toList, "z".toList] ∧ w₂.piece_size = 2 ∧ w₂.total_length = 3 ∧
        w₂.have_ 0 = true ∧ w₂.calls = [.finished] := by
  obtain ⟨v, w₁, w₂, begun, run, last, facts⟩ : ∃ v w₁ w₂ : StorageWrapper Text,
      small (fun _ => none) = some v ∧
      Relation.ReflTransGen (Step id id (Honest smallPiece)) (v, []) (w₁, [(0, 1, 1)]) ∧
      Step id id (Honest smallPiece) (w₁, [(0, 1, 1)]) (w₂, []) ∧
      (w₁.hashes.length = 2 ∧ w₁.amount_left = 2 ∧ w₁.inactive_requests 0 = .blocks [] ∧
        w₁.inactive_requests 1 = .none) ∧
      w₂.hashes = ["xy".toList, "z".toList] ∧ w₂.piece_size = 2 ∧ w₂.total_length = 3 ∧
        w₂.have_ 0 = true ∧ w₂.calls = [.finished] := by
    refine ⟨_, _, _, rfl, (((((Relation.ReflTransGen.refl.tail
      (.request (p := 1) (r := (0, 1)) (by decide) (by decide) rfl)).tail
      (.came (p := 1) (r := (0, 1)) (s := "z".toList) List.mem_cons_self (by decide) rfl rfl)).tail
      (.request (p := 0) (r := (0, 1)) (by decide) (by decide) rfl)).tail
      (.came (p := 0) (r := (0, 1)) (s := "x".toList) List.mem_cons_self (by decide) rfl rfl)).tail
      (.request (p := 0) (r := (1, 1)) (by decide) (by decide) rfl)),
      .came (p := 0) (r := (1, 1)) (s := "y".toList) List.mem_cons_self (by decide) rfl rfl,
      ⟨rfl, rfl, rfl, rfl⟩, rfl, rfl, rfl, rfl, rfl⟩
  exact ⟨w₁, w₂, small_download _ begun run, small_download _ begun (run.tail last), facts⟩

/-- No call that may be made fails, and the data on the disk is never found broken. -/
theorem calls_return (download : Download sha order answer check w out) :
    (∀ p, p < w.hashes.length → w.do_I_have_requests p → (w.new_request p).isSome) ∧
      (∀ p r, (p, r) ∈ out → (w.request_lost p r.1 r.2).isSome) ∧
      (∀ p r s, (p, r) ∈ out → s.length = r.2 → (piece_came_in sha order w p r.1 s).isSome) ∧
      ∀ reason, Call.failed reason ∉ w.calls := by
  have good := download.good
  refine ⟨fun p lt asks => ?_, fun p r mem => ?_, fun p r s mem size => ?_, good.unbroken⟩
  · obtain ⟨r, w', step, -⟩ := good.request lt asks
    exact Option.isSome_of_eq_some step
  · obtain ⟨w', step, -⟩ := (good.perm (List.perm_cons_erase mem)).lost
    exact Option.isSome_of_eq_some step
  · obtain ⟨ok, w', w₁, step, -⟩ := (good.perm (List.perm_cons_erase mem)).came download.perm size
    exact Option.isSome_of_eq_some step

theorem calls_return_small : ∃ w : StorageWrapper Text,
    Download id id (Honest smallPiece) true w [(1, 0, 1)] ∧
      (piece_came_in id id w 1 0 "z".toList).isSome := by
  have download := small_download (fun _ => none) rfl
    (.single (.request (p := 1) (r := (0, 1)) (by decide) (by decide) rfl))
  exact ⟨_, download, (calls_return download).2.2.1 1 (0, 1) "z".toList List.mem_cons_self rfl⟩

omit [DecidableEq δ] in
/-- As long as a piece is missing there is something to be requested or to come. -/
theorem Good.more (good : Good sha w out) (left : w.amount_left ≠ 0) :
    out ≠ [] ∨ ∃ p, p < w.hashes.length ∧ w.do_I_have_requests p := by
  by_contra done
  rw [not_or, not_not] at done
  obtain ⟨nothing, asks⟩ := done
  refine left ((good.ledger.left_eq_zero good.toSized).2 fun p lt => ?_)
  cases is : w.inactive_requests p with
  | none => exact ((good.ledger.piece p).got is).1
  | all => exact absurd ⟨p, lt, by rw [do_I_have_requests, is]⟩ asks
  | blocks l =>
    have some := good.live p l is
    rw [nothing] at some
    have ne : l ≠ [] := fun e => some (by rw [e]; rfl)
    exact absurd ⟨p, lt, by rw [do_I_have_requests, is]; simpa using ne⟩ asks

/-- As long as a piece is missing there is a request to make or one that is outstanding, and without
any requests to make it is the endgame. -/
theorem goes_on (download : Download sha order answer check w out) :
    (w.amount_left ≠ 0 → out ≠ [] ∨ ∃ p, p < w.hashes.length ∧ w.do_I_have_requests p) ∧
      (w.amount_left ≠ 0 → (∀ p, p < w.hashes.length → ¬ w.do_I_have_requests p) →
        w.endgame = true) ∧
      ∀ p, p < w.hashes.length → match w.inactive_requests p with
        | .blocks l => (l ++ outOf out p).Subperm (w.blocks p)
        | .all | .none => outOf out p = [] := by
  have good := download.good
  refine ⟨good.more, fun left none => ?_, fun p _ => ?_⟩
  · cases on : w.endgame with
    | true => rfl
    | false =>
      have zero : w.amount_inactive = 0 := by
        rw [good.ledger.inactive]
        refine Finset.sum_eq_zero fun p mem => ?_
        have asks := none p (Finset.mem_range.1 mem)
        rw [do_I_have_requests] at asks
        rw [waiting]
        cases is : w.inactive_requests p with
        | none => rfl
        | all => simp [is] at asks
        | blocks l =>
          have empty : l = [] := by simpa [is] using asks
          rw [empty]
          rfl
      rcases good.ledger.ends on with more | done
      · omega
      · exact absurd done left
  · exact (good.ledger.piece p).shared

theorem goes_on_small : ∃ w : StorageWrapper Text,
    Download id id (Honest smallPiece) true w [(0, 1, 1)] ∧ w.amount_left = 2 ∧ w.endgame = true := by
  obtain ⟨w, -, download, -, ⟨two, left, first, second⟩, -⟩ := small_run
  refine ⟨w, download, left, (goes_on download).2.1 (by omega) fun p lt asks => ?_⟩
  obtain rfl | rfl : p = 0 ∨ p = 1 := by omega
  · rw [do_I_have_requests, first] at asks
    cases asks
  · rw [do_I_have_requests, second] at asks
    cases asks

/-- The owner is told that the torrent is finished when no piece is missing, and once; then every part
of the file has the hash of its piece. -/
theorem finished_file (download : Download sha order answer true w out) :
    w.calls.count .finished = (if w.amount_left = 0 then 1 else 0) ∧
      (Call.finished ∈ w.calls → out = [] ∧ ∀ p, p < w.hashes.length →
        some (sha (w.storage.read (w.piece_size * p) (w.piecelen p))) = w.hashes[p]?) := by
  have good := download.good
  refine ⟨good.finished, fun finished => ⟨?_, fun p lt =>
    good.finished_right download.checked finished lt⟩⟩
  by_contra some
  obtain ⟨⟨p, r⟩, mem⟩ := List.exists_mem_of_ne_nil _ some
  have left : w.amount_left = 0 := by
    have pos := List.count_pos_iff.2 finished
    by_contra more
    rw [good.finished, if_neg more] at pos
    omega
  have lt := good.ledger.known _ mem
  have got := (good.ledger.left_eq_zero good.toSized).1 left p lt
  obtain ⟨-, -, l, is⟩ := good.ledger.blocks_of_out mem
  rw [((good.ledger.piece p).begun l is).1] at got
  cases got

theorem finished_file_small : ∃ w : StorageWrapper Text,
    Download id id (Honest smallPiece) true w [] ∧ w.calls = [.finished] ∧
      some (id (w.storage.read (w.piece_size * 1) (w.piecelen 1))) = w.hashes[1]? := by
  obtain ⟨-, w, -, download, -, hashes, -, -, -, calls⟩ := small_run
  have finished : Call.finished ∈ w.calls := by rw [calls]; exact List.mem_cons_self
  exact ⟨w, download, calls, ((finished_file download).2 finished).2 1 (by rw [hashes]; decide)⟩

/-! ### Honest answers -/

/-- The texts are those of the torrent. -/
def Fits (sha : Text → δ) (target : ℕ → Text) (w : StorageWrapper δ) : Prop :=
  ∀ p, p < w.hashes.length →
    (target p).length = w.piecelen p ∧ some (sha (target p)) = w.hashes[p]?

/-- Every block that is neither to be requested nor outstanding is there as the senders have it. -/
def Arrived (target : ℕ → Text) (w : StorageWrapper δ) (out : List (ℕ × ℕ × ℕ)) : Prop :=
  ∀ p l, w.inactive_requests p = .blocks l → ∀ b ∈ w.blocks p, b ∉ l → b ∉ outOf out p →
    (w.places p).isSome ∧ ∀ k, b.1 ≤ k → k < b.1 + b.2 → w.data p k = (target p)[k]?

variable {target : ℕ → Text} {out' : List (ℕ × ℕ × ℕ)} {w' : StorageWrapper δ}

omit [DecidableEq δ] in
theorem Arrived.perm (arrived : Arrived target w out) (h : out.Perm out') :
    Arrived target w out' := fun p l is b mem waits none => arrived p l is b mem waits
  fun old => none ((outOf_perm h p).mem_iff.1 old)

omit [DecidableEq δ] in
theorem Arrived.request (arrived : Arrived target w out) (asked : Requested w w' p r) :
    Arrived target w' ((p, r) :: out) := by
  have blocks : w'.blocks = w.blocks := by rw [asked.frame]; rfl
  have data : w'.data = w.data := by rw [asked.frame]; rfl
  have places : w'.places = w.places := by rw [asked.frame]
  intro q l is b mem waits none
  rw [blocks] at mem
  rw [data, places]
  by_cases same : q = p
  · subst same
    rw [outOf_cons_self, List.mem_cons, not_or] at none
    obtain ⟨l', was, -, now⟩ := asked.inactive
    rw [now, Inactive.blocks.injEq] at is
    rw [← is, List.mem_erase_of_ne none.1] at waits
    rcases was with was | ⟨-, all⟩
    · exact arrived q l' was b mem waits none.2
    · exact absurd (all ▸ mem) waits
  · rw [outOf_cons_ne (Ne.symm same)] at none
    exact arrived q l (asked.others q same ▸ is) b mem waits none

omit [DecidableEq δ] in
theorem Arrived.lost (arrived : Arrived target w ((p, r) :: out)) (gone : Lost w w' p r) :
    Arrived target w' out := by
  have blocks : w'.blocks = w.blocks := by rw [gone.frame]; rfl
  have data : w'.data = w.data := by rw [gone.frame]; rfl
  have places : w'.places = w.places := by rw [gone.frame]
  intro q l is b mem waits none
  rw [blocks] at mem
  rw [data, places]
  by_cases same : q = p
  · subst same
    obtain ⟨l', was, now⟩ := gone.inactive
    rw [now, Inactive.blocks.injEq] at is
    rw [← is, List.mem_append, List.mem_singleton, not_or] at waits
    refine arrived q l' was b mem waits.1 ?_
    rw [outOf_cons_self, List.mem_cons, not_or]
    exact ⟨waits.2, none⟩
  · refine arrived q l (gone.others q same ▸ is) b mem waits ?_
    rwa [outOf_cons_ne (Ne.symm same)]

omit [DecidableEq δ] in
/-- A right answer is there when it has been written. -/
theorem Arrived.came (arrived : Arrived target w ((p, r) :: out)) (good : Good sha w ((p, r) :: out))
    (written : Written w w' p r s) (honest : Honest target p r s) : Arrived target w' out := by
  have blocks : w'.blocks = w.blocks := by
    funext q
    rw [StorageWrapper.blocks, written.torrent.request_size, written.torrent.piecelen]
    rfl
  intro q l is b mem waits none
  rw [blocks] at mem
  rw [written.inactive] at is
  obtain ⟨lt, block, -⟩ := good.ledger.blocks_of_out List.mem_cons_self
  by_cases same : q = p
  · subst same
    have tiles := good.blocks_tiles good.request_pos lt
    refine ⟨written.placed q (.inl rfl), fun k low high => ?_⟩
    by_cases new : b = r
    · rw [written.new k (new ▸ low) (new ▸ high), honest, ← new, List.getElem?_take_of_lt (by omega),
        List.getElem?_drop, Nat.add_sub_cancel' low]
    · obtain ⟨placed, same⟩ := arrived q l is b mem waits
        (by rw [outOf_cons_self, List.mem_cons, not_or]; exact ⟨new, none⟩)
      have inside := (tiles.bounds mem).2.2
      have apart := tiles.disjoint mem block new
      rw [written.old k (by omega) (by omega) placed, same k low high]
  · obtain ⟨placed, here⟩ := arrived q l is b mem waits (by rwa [outOf_cons_ne (Ne.symm same)])
    refine ⟨written.placed q (.inr placed), fun k low high => ?_⟩
    have lt : q < w.hashes.length := (good.layout.lt q _ (Option.get_mem placed)).1
    have inside := ((good.blocks_tiles good.request_pos lt).bounds mem).2.2
    rw [written.others q k same placed (by omega), here k low high]

omit [DecidableEq δ] in
/-- A piece all of whose blocks have arrived is as the senders have it. -/
theorem Arrived.text {q : ℕ} (arrived : Arrived target w out) (sound : Sound sha w out)
    (fits : Fits sha target w) (there : w.places p = some q)
    (here : w.inactive_requests p = .blocks []) (none : outOf out p = []) :
    w.readPlace q (w.piecelen p) = target p := by
  have lt := (sound.layout.lt p q there).1
  obtain ⟨long, text⟩ := sound.text there
  apply List.ext_getElem?
  intro k
  by_cases less : k < w.piecelen p
  · obtain ⟨b, mem, low, high⟩ :=
      (sound.blocks_tiles sound.request_pos lt).exists (Nat.zero_le k) less
    rw [text k less]
    exact (arrived p [] here b mem List.not_mem_nil (none ▸ List.not_mem_nil)).2 k low high
  · rw [List.getElem?_eq_none (by omega), List.getElem?_eq_none (by have := (fits p lt).1; omega)]

theorem Good.same {x y : StorageWrapper δ × List (ℕ × ℕ × ℕ)} (perm : ∀ l, (order l).Perm l)
    (good : Good sha x.1 x.2) (step : Step sha order answer x y) : SameTorrent x.1 y.1 := by
  cases step with
  | request lt asks step =>
    obtain ⟨r, w', same, asked, -⟩ := good.request lt asks
    cases same.symm.trans step
    dsimp only
    rw [asked.frame]
    exact ⟨rfl, rfl, rfl⟩
  | lost mem step =>
    obtain ⟨w', same, gone, -⟩ := (good.perm (List.perm_cons_erase mem)).lost
    cases same.symm.trans step
    dsimp only
    rw [gone.frame]
    exact ⟨rfl, rfl, rfl⟩
  | @came w w' out p r s ok mem size may step =>
    obtain ⟨ok, w', w₁, same, -, written, -, how⟩ :=
      (good.perm (List.perm_cons_erase mem)).came perm size
    cases same.symm.trans step
    rcases how with ⟨-, rfl⟩ | ⟨q, -, -, -, check⟩
    · exact written.torrent
    · have torrent := written.torrent
      have same : w' = (w₁.check sha p q).2 := congrArg Prod.snd check
      dsimp only
      rw [same, StorageWrapper.check]
      by_cases hash : some (sha (w₁.readPlace q (w₁.piecelen p))) = w₁.hashes[p]?
      · rw [if_pos hash]
        dsimp only
        split_ifs <;> exact ⟨torrent.hashes, torrent.request_size, torrent.piecelen⟩
      · rw [if_neg hash]
        exact ⟨torrent.hashes, torrent.request_size, torrent.piecelen⟩

/-- A right answer to a request keeps what has arrived, and its piece is not thrown away. -/
theorem Arrived.step {x y : StorageWrapper δ × List (ℕ × ℕ × ℕ)} (perm : ∀ l, (order l).Perm l)
    (good : Good sha x.1 x.2) (step : Step sha order (Honest target) x y)
    (fits : Fits sha target x.1) (arrived : Arrived target x.1 x.2)
    (quiet : ∀ size, Call.data_flunked size ∉ x.1.calls) :
    Arrived target y.1 y.2 ∧ ∀ size, Call.data_flunked size ∉ y.1.calls := by
  cases step with
  | request lt asks step =>
    obtain ⟨r, w', same, asked, -⟩ := good.request lt asks
    cases same.symm.trans step
    refine ⟨arrived.request asked, ?_⟩
    dsimp only
    rw [asked.frame]
    exact quiet
  | lost mem step =>
    obtain ⟨w', same, gone, -⟩ := (good.perm (List.perm_cons_erase mem)).lost
    cases same.symm.trans step
    refine ⟨(arrived.perm (List.perm_cons_erase mem)).lost gone, ?_⟩
    dsimp only
    rw [gone.frame]
    exact quiet
  | @came w w' out p r s ok mem size may step =>
    have good := good.perm (List.perm_cons_erase mem)
    obtain ⟨ok, w', w₁, same, -, written, sound, how⟩ := good.came perm size
    cases same.symm.trans step
    have arrived := (arrived.perm (List.perm_cons_erase mem)).came good written may
    have quiet₁ : ∀ size, Call.data_flunked size ∉ w₁.calls := by
      rw [written.calls]
      exact quiet
    rcases how with ⟨-, rfl⟩ | ⟨q, there, here, none, check⟩
    · exact ⟨arrived, quiet₁⟩
    · have lt := (sound.layout.lt p q there).1
      have fits₁ : Fits sha target w₁ := by
        intro p
        rw [written.torrent.hashes, written.torrent.piecelen]
        exact fits p
      have hash : some (sha (w₁.readPlace q (w₁.piecelen p))) = w₁.hashes[p]? := by
        rw [arrived.text sound fits₁ there here none]
        exact (fits₁ p lt).2
      have same : w' = (w₁.check sha p q).2 := congrArg Prod.snd check
      have now : Arrived target w' (out.erase (p, r)) ∧ ∀ size, Call.data_flunked size ∉ w'.calls := by
        have others : ∀ p' l, Function.update w₁.inactive_requests p .none p' = .blocks l →
            w₁.inactive_requests p' = .blocks l := by
          intro p' l is
          by_cases same : p' = p
          · rw [same, Function.update_self] at is
            cases is
          · rwa [Function.update_of_ne same] at is
        rw [same, StorageWrapper.check, if_pos hash]
        dsimp only
        by_cases last : w₁.amount_left - (w₁.piecelen p : ℤ) = 0
        · rw [if_pos last]
          refine ⟨fun p' l is => arrived p' l (others p' l is), fun size mem => ?_⟩
          rcases List.mem_append.1 mem with old | new
          · exact quiet₁ size old
          · cases List.mem_singleton.1 new
        · rw [if_neg last]
          exact ⟨fun p' l is => arrived p' l (others p' l is), quiet₁⟩
      exact now

/-- Where all answers are right no piece is thrown away. -/
theorem honest_run (download : Download sha order (Honest target) check w out)
    (fits : Fits sha target w) (size : ℕ) : Call.data_flunked size ∉ w.calls := by
  obtain ⟨files, disk, request_size, piece_size, hashes, v, nodup, size_pos, request, many, begun, run⟩ :=
    download.run
  obtain ⟨good, -, fresh, quiet⟩ := init_good nodup size_pos request many begun
  -- The texts fit along the whole run, since the torrent stays the same.
  have along : ∀ y : StorageWrapper δ × List (ℕ × ℕ × ℕ),
      Relation.ReflTransGen (Step sha order (Honest target)) (v, []) y → Fits sha target y.1 →
        Arrived target y.1 y.2 ∧ ∀ size, Call.data_flunked size ∉ y.1.calls := by
    intro y run
    induction run with
    | refl => exact fun _ => ⟨fun p l is => absurd is (fresh p l), quiet⟩
    | @tail x y run step ih =>
      intro fits
      have good := good.run download.perm run
      have same := good.same download.perm step
      have before : Fits sha target x.1 := by
        intro p
        rw [← same.hashes, ← same.piecelen]
        exact fits p
      obtain ⟨arrived, quiet⟩ := ih before
      exact arrived.step download.perm good step before quiet
  exact (along _ run fits).2 size

theorem honest_run_small : ∃ w : StorageWrapper Text,
    Download id id (Honest smallPiece) true w [] ∧ w.calls = [.finished] ∧
      Call.data_flunked 2 ∉ w.calls := by
  obtain ⟨-, w, -, download, -, hashes, size, total, -, calls⟩ := small_run
  refine ⟨w, download, calls, honest_run download (fun p lt => ?_) 2⟩
  rw [hashes] at lt
  have lt : p < 2 := lt
  rw [piecelen, hashes, size, total]
  obtain rfl | rfl : p = 0 ∨ p = 1 := by omega
  · exact ⟨rfl, rfl⟩
  · exact ⟨rfl, rfl⟩

/-! ### What is given to others -/

omit [DecidableEq δ] in
/-- A read inside of the place of a piece is a part of the piece. -/
theorem Stored.read_part {holes : List ℕ} {q start length : ℕ} (stored : Stored w holes)
    (there : w.places p = some q) (inside : start + length ≤ w.piecelen p) :
    w.storage.read (w.piece_size * q + start) length =
      ((w.readPlace q (w.piecelen p)).drop start).take length := by
  obtain ⟨long, text⟩ := stored.text there
  have room := stored.place_le (stored.layout.lt p q there).2
  have fits := stored.layout.fits p q there
  have total := stored.total
  have cells := Storage.read_cell stored.whole (w.piece_size * q + start) length (by omega)
     (fun k low high => by
      have := stored.full p q there (k - w.piece_size * q) (by omega)
      rwa [cellAt, Nat.add_sub_cancel' (by omega)] at this)
  apply List.map_injective_iff.2 (Option.some_injective _)
  rw [cells]
  apply List.ext_getElem?
  intro k
  rw [List.getElem?_map, List.getElem?_map, List.getElem?_take]
  by_cases less : k < length
  · have byte := text (start + k) (by omega)
    rw [if_pos less, List.getElem?_drop, byte, List.getElem?_range' less, data, there, Option.map_some,
      Option.bind_some, cellAt, Nat.one_mul, Nat.add_assoc]
    obtain ⟨c, here⟩ := Option.isSome_iff_exists.1 (stored.full p q there (start + k) (by omega))
    rw [cellAt] at here
    rw [here]
    rfl
  · rw [if_neg less, List.getElem?_eq_none (by rw [List.length_range']; omega)]
    rfl

/-- What is given of a piece to others is the part they ask for, of data with the hash of the piece. -/
theorem get_piece_right (download : Download sha order answer check w out) (start length : ℕ)
    (got : w.have_ p = true) :
    ∃ d w', get_piece sha w p start length = some (d, w') ∧
      (check = true → w' = w ∧ (start + length ≤ w.piecelen p → d.isSome)) ∧
      ∀ data ∈ d, ∃ text, some (sha text) = w.hashes[p]? ∧ text.length = w.piecelen p ∧
        start + length ≤ text.length ∧ data = (text.drop start).take length := by
  have good := download.good
  obtain ⟨q, there⟩ := Option.isSome_iff_exists.1 (good.held got)
  have long := (good.text there).1
  rw [get_piece, if_pos got, there, Option.map_some]
  by_cases broken : w.waschecked p = false ∧
      some (sha (w.readPlace q (w.piecelen p))) ≠ w.hashes[p]?
  · rw [if_pos broken]
    refine ⟨none, _, rfl, fun on => ?_, nofun⟩
    subst on
    have := download.checked p
    rw [broken.1] at this
    cases this
  · rw [if_neg broken]
    have hash : some (sha (w.readPlace q (w.piecelen p))) = w.hashes[p]? := by
      by_cases on : w.waschecked p = true
      · obtain ⟨q', there', hash⟩ := good.right p got on
        rwa [Option.some.inj (there'.symm.trans there)] at hash
      · by_contra wrong
        exact broken ⟨by simpa using on, wrong⟩
    have same : check = true → { w with waschecked := Function.update w.waschecked p true } = w := by
      intro on
      subst on
      rw [← download.checked p, Function.update_eq_self]
    by_cases out_ : w.piecelen p < start + length
    · exact ⟨none, _, congrArg some (if_pos out_), fun on => ⟨same on, fun inside => by omega⟩, nofun⟩
    · refine ⟨_, _, congrArg some (if_neg out_), fun on => ⟨same on, fun _ => rfl⟩, fun data mem => ?_⟩
      refine ⟨_, hash, long, by omega, ?_⟩
      rw [← Option.some.inj mem]
      exact good.read_part there (by omega)

theorem get_piece_right_small : ∃ w : StorageWrapper Text,
    Download id id (Honest smallPiece) true w [] ∧ w.calls = [.finished] ∧
      ∃ d w', get_piece id w 0 1 1 = some (d, w') ∧ d.isSome := by
  obtain ⟨-, w, -, download, -, hashes, size, total, got, calls⟩ := small_run
  obtain ⟨d, w', step, all, -⟩ := get_piece_right (p := 0) download 1 1 got
  have long : w.piecelen 0 = 2 := by rw [piecelen, hashes, size, total]; rfl
  exact ⟨w, download, calls, d, w', step, (all rfl).2 (by omega)⟩

end Ydfs.BitTorrent.StorageWrapper
