import Ydfs.BitTorrent.DownloadRuns
import Ydfs.BitTorrent.PieceSafety

/-!
# Blocks that come in

A block that has been requested is written; in the endgame the other downloads no longer ask for it, and a
piece that is broken is requested again.  Nothing that the peers send makes a call fail (`served`), and
no block is requested that is not missing (`requests_kept`).
-/

namespace Ydfs.BitTorrent

open Wubi.Sax (Text)

variable {δ : Type} {sha : Text → δ}

theorem StorageWrapper.Tiles.length_le {size x t : ℕ} {l : List (ℕ × ℕ)} (h : StorageWrapper.Tiles size x l t) :
    x + l.length ≤ t := by
  induction l generalizing x with
  | nil => exact h.le
  | cons r l ih =>
    obtain ⟨-, pos, -, rest⟩ := h
    have := ih rest
    rw [List.length_cons]
    omega

/-- The endgame has not begun when the files have been looked at. -/
theorem StorageWrapper.init_endgame [DecidableEq δ] {storage : Storage} {request_size piece_size : ℕ}
    {hashes : List δ} {check : Bool} {w : StorageWrapper δ}
    (begun : init sha storage request_size hashes piece_size check = some w) : w.endgame = false := by
  have turn (s : StorageWrapper δ × (δ → List ℕ)) (i : ℕ) :
      (checkPlace sha check s i).1.endgame = s.1.endgame := by
    rw [checkPlace]
    dsimp only
    split_ifs
    · rfl
    · rfl
    · rw [identify]
      split_ifs
      · rfl
      · split <;> rfl
      · split <;> rfl
  have whole : ∀ (l : List ℕ) (s : StorageWrapper δ × (δ → List ℕ)),
      (l.foldl (checkPlace sha check) s).1.endgame = s.1.endgame := by
    intro l
    induction l with
    | nil => exact fun s => rfl
    | cons i l ih => exact fun s => (ih _).trans (turn s i)
  rw [init] at begun
  dsimp only at begun
  split_ifs at begun
  · rw [← Option.some.inj begun]
    exact whole _ _
  · rw [← Option.some.inj begun]
    exact whole _ _

namespace Downloader

variable {s s' : Downloader δ} {d e index : ℕ} {r : ℕ × ℕ × ℕ} {x : SingleDownload} {l : List Message}

/-! ### A request less -/

/-- A request is taken from a download. -/
theorem Fit.erase {backlog numpieces : ℕ} (fit : Fit backlog numpieces x l) (r : ℕ × ℕ × ℕ) :
    Fit backlog numpieces { x with active_requests := x.active_requests.erase r } l := by
  have sub : (x.active_requests.erase r).Sublist x.active_requests := List.erase_sublist
  refine ⟨fun choked => ?_, fun some_ => fit.eager fun none_ => some_ ?_, sub.length_le.trans fit.room,
    fit.nodup.sublist sub, fit.size, fun a mem => fit.has a (sub.subset mem), fit.told⟩
  · exact List.sublist_nil.1 (fit.idle choked ▸ sub)
  · exact List.sublist_nil.1 (none_ ▸ sub)

theorem Base.answered (base : Base s) (d : ℕ) (r : ℕ × ℕ × ℕ) : Base (s.answered d r) := by
  rw [Downloader.answered, change_eq]
  refine base.tell rfl (fun mem => ?_) fun i b n mem => absurd mem List.not_mem_nil
  rw [List.append_nil]
  exact (base.fit d mem).erase r

/-- A request that is cancelled -/
theorem Base.cancel (base : Base s) (d : ℕ) (r : ℕ × ℕ × ℕ) :
    Base (s.tell d { s.single d with active_requests := (s.single d).active_requests.erase r }
      [.cancel r.1 r.2.1 r.2.2]) := by
  refine base.tell rfl (fun mem => ?_) fun i b n mem => ?_
  · have fit := (base.fit d mem).erase r
    refine ⟨fit.idle, fit.eager, fit.room, fit.nodup, fit.size, fit.has, ?_⟩
    rw [listens_snoc fit.told]
    cases (s.single d).interested <;> rfl
  · cases List.mem_singleton.1 mem

/-! ### The endgame -/

/-- The endgame when a request has been answered: the downloads in `rest`, other than the one that got the
answer, may still wait for it. -/
structure Answered (sha : Text → δ) (d : ℕ) (r : ℕ × ℕ × ℕ) (rest : List ℕ) (s : Downloader δ) : Prop
    extends Base s where
  on : s.storage.endgame = true
  good : s.storage.Good sha s.all_requests
  within : ∀ e ∈ s.downloads, (s.single e).active_requests ⊆ r :: s.all_requests
  done : ∀ e ∈ s.downloads, e = d ∨ e ∉ rest → (s.single e).active_requests ⊆ s.all_requests

theorem Answered.turn {rest : List ℕ} (answered : Answered sha d r (e :: rest) s) (only : Only e s s')
    (base : Base s') (active : (s'.single e).active_requests ⊆ s.all_requests) :
    Answered sha d r rest s' := by
  have storage : s'.storage = s.storage := by rw [only.rest]
  have all : s'.all_requests = s.all_requests := by rw [only.rest]
  have downloads := only.frame.downloads
  refine ⟨base, storage ▸ answered.on, by rw [storage, all]; exact answered.good, fun k mem => ?_,
    fun k mem out => ?_⟩
  · rw [all]
    by_cases here : k = e
    · rw [here]
      exact List.Subset.trans active (List.subset_cons_self r _)
    · rw [only.others k here]
      exact answered.within k (downloads ▸ mem)
  · rw [all]
    by_cases here : k = e
    · rw [here]
      exact active
    · rw [only.others k here]
      refine answered.done k (downloads ▸ mem) (out.imp_right fun out mem => ?_)
      exact (List.mem_cons.1 mem).elim here out

theorem Answered.cancel {rest : List ℕ} (answered : Answered sha d r (e :: rest) s)
    (mem : e ∈ s.downloads) :
    Answered sha d r rest (cancel d r s e) ∧ Frame s (cancel d r s e) := by
  have fit := answered.fit e mem
  have within := answered.within e mem
  have whole (out : r ∉ (s.single e).active_requests) :
      (s.single e).active_requests ⊆ s.all_requests := fun a here =>
    (List.mem_cons.1 (within here)).resolve_left fun same => out (same ▸ here)
  rw [Downloader.cancel]
  by_cases other : e ≠ d ∧ (s.single e).interested = true
  · rw [if_pos other]
    split_ifs with choked has
    · obtain ⟨base, only, active⟩ := answered.toBase.fix answered.good mem
        (by rw [fit.idle choked]; exact List.nil_subset _)
      exact ⟨answered.turn only base active, only.frame⟩
    · have asked : ((s.change e fun x => { x with active_requests := x.active_requests.erase r }).send e
          (.cancel r.1 r.2.1 r.2.2)) = s.tell e { s.single e with
            active_requests := (s.single e).active_requests.erase r } [.cancel r.1 r.2.1 r.2.2] := rfl
      rw [asked]
      have only : Only e s (s.tell e { s.single e with
          active_requests := (s.single e).active_requests.erase r } [.cancel r.1 r.2.1 r.2.2]) :=
        Only.tell rfl rfl
      have base := answered.toBase.cancel e r
      have here := single_tell_self s e { s.single e with
        active_requests := (s.single e).active_requests.erase r } [.cancel r.1 r.2.1 r.2.2]
      generalize s.tell e { s.single e with
        active_requests := (s.single e).active_requests.erase r } [.cancel r.1 r.2.1 r.2.2] = s₁
        at only base here
      have frame := only.frame
      have same : s₁.storage = s.storage ∧ s₁.all_requests = s.all_requests := by
        rw [only.rest]
        exact ⟨rfl, rfl⟩
      obtain ⟨base', only', active⟩ := base.fix (d := e) (by rw [same.1, same.2]; exact answered.good)
        (frame.downloads ▸ mem) (by
          rw [here, same.2]
          intro a mem
          obtain ⟨ne, mem⟩ := fit.nodup.mem_erase_iff.1 mem
          exact (List.mem_cons.1 (within mem)).resolve_left ne)
      rw [same.2] at active
      exact ⟨answered.turn (only.trans only') base' active, frame.trans only'.frame⟩
    · exact ⟨answered.turn (Only.refl e s) answered.toBase (whole has), Frame.refl s⟩
  · rw [if_neg other]
    refine ⟨answered.turn (Only.refl e s) answered.toBase ?_, Frame.refl s⟩
    by_cases own : e = d
    · exact answered.done e mem (.inl own)
    · have idle : (s.single e).active_requests = [] := by
        by_contra some_
        exact other ⟨own, fit.eager some_⟩
      rw [idle]
      exact List.nil_subset _

/-- The other downloads no longer ask for a block that has come. -/
theorem Answered.late {rest : List ℕ} (answered : Answered sha d r rest s)
    (sub : ∀ e ∈ rest, e ∈ s.downloads) : Late sha (rest.foldl (Downloader.cancel d r) s) ∧
      Frame s (rest.foldl (Downloader.cancel d r) s) := by
  induction rest generalizing s with
  | nil =>
    exact ⟨⟨answered.toBase, answered.on, answered.good, fun e mem =>
      answered.done e mem (.inr List.not_mem_nil)⟩, Frame.refl s⟩
  | cons e rest ih =>
    obtain ⟨answered', frame⟩ := answered.cancel (sub e List.mem_cons_self)
    obtain ⟨late, frame'⟩ := ih answered' fun k mem => by
      rw [frame.downloads]
      exact sub k (List.mem_cons_of_mem e mem)
    exact ⟨late, frame.trans frame'⟩

/-- A piece that is broken in the endgame: all of its blocks are requested. -/
theorem askAgain_spec (base : Base s) (good : s.storage.Good sha s.all_requests)
    (less : index < s.numpieces) {wait : List (ℕ × ℕ)}
    (is : s.storage.inactive_requests index = .blocks wait ∨
      s.storage.inactive_requests index = .all ∧ wait = s.storage.blocks index)
    (all : ∀ b ∈ s.storage.blocks index, b ∈ wait ∨ (index, b) ∈ s.all_requests) (fuel : ℕ)
    (enough : wait.length ≤ fuel) :
    ∃ s', askAgain index fuel s = some s' ∧ Base s' ∧ s'.storage.Good sha s'.all_requests ∧
      s' = { s with storage := s'.storage, all_requests := s'.all_requests } ∧
      s.all_requests ⊆ s'.all_requests ∧ (s.storage.endgame = true → s'.storage.endgame = true) ∧
      ∀ b ∈ s.storage.blocks index, (index, b) ∈ s'.all_requests := by
  induction fuel generalizing s wait with
  | zero =>
    obtain rfl := List.length_eq_zero_iff.1 (Nat.le_zero.1 enough)
    exact ⟨s, rfl, base, good, rfl, List.Subset.refl _, id, fun b mem =>
      (all b mem).resolve_left List.not_mem_nil⟩
  | succ fuel ih =>
    rw [askAgain]
    by_cases asks : s.storage.do_I_have_requests index = true
    · rw [if_pos asks]
      obtain ⟨t, w, step, asked, good'⟩ := good.request (base.hashes.symm ▸ less) asks
      obtain ⟨torrent, got⟩ := asked.torrent
      obtain ⟨l, before, mem, after⟩ := asked.inactive
      have same : l = wait := by
        rcases is with is | ⟨is, rfl⟩
        · rcases before with before | ⟨before, -⟩
          · exact (Inactive.blocks.inj (is.symm.trans before)).symm
          · cases is.symm.trans before
        · rcases before with before | ⟨-, rfl⟩
          · cases is.symm.trans before
          · rfl
      subst same
      have base' : Base { s with storage := w, all_requests := s.all_requests ++ [(index, t)] } := by
        have moved := base.swap w s.picker torrent got base.tidy rfl rfl
        exact ⟨moved.nodup, moved.fit, moved.tidy, moved.pieces, moved.hashes, moved.counts, moved.asked,
          moved.fair, moved.few⟩
      obtain ⟨s', rest, base'', good'', frame, sub, on, done⟩ := ih base'
        (good'.perm (List.perm_append_singleton _ _).symm) less (.inl after)
        (fun b mem' => by
          have mem' : b ∈ w.blocks index := mem'
          rw [torrent.blocks] at mem'
          rcases all b mem' with there | there
          · by_cases here : b = t
            · exact .inr (List.mem_append_right _ (by rw [here]; exact List.mem_singleton_self _))
            · exact .inl ((List.mem_erase_of_ne here).2 there)
          · exact .inr (List.mem_append_left _ there))
        (by rw [List.length_erase_of_mem mem]; omega)
      refine ⟨s', ?_, base'', good'', frame, fun a mem => sub (List.mem_append_left _ mem),
        fun h => on (asked.endgame h), fun b mem' => done b ?_⟩
      · rw [step, Option.bind_eq_bind, Option.bind_some]
        exact rest
      · change b ∈ w.blocks index
        rw [torrent.blocks]
        exact mem'
    · rw [if_neg asks]
      have none_ : wait = [] := by
        rw [StorageWrapper.do_I_have_requests] at asks
        rcases is with is | ⟨is, -⟩
        · rw [is] at asks
          simpa using asks
        · rw [is] at asks
          exact absurd rfl asks
      rw [none_] at all
      exact ⟨s, rfl, base, good, rfl, List.Subset.refl _, id, fun b mem =>
        (all b mem).resolve_left List.not_mem_nil⟩

/-! ### A block that comes in -/

variable {w : StorageWrapper δ} {ok : Bool}

theorem Base.missing (base : Base s) (less : index < s.numpieces)
    (lacks : s.storage.have_ index = false) : (s.picker.numinterests index).isSome := by
  rw [base.counts index less, lacks]
  rfl

/-- A block of a piece that is broken has come. -/
theorem Base.broken (base : Base s) (came : StorageWrapper.Came s.storage w index false) :
    Base { s with storage := w } := by
  refine base.swap w s.picker came.torrent (funext fun q => ?_) base.tidy rfl rfl
  by_cases here : q = index
  · rw [here]
    exact came.broken rfl
  · exact came.have_ q here

/-- A block has come, and maybe the last one of its piece. -/
theorem Base.block (base : Base s) (less : index < s.numpieces) (lacks : s.storage.have_ index = false)
    (came : StorageWrapper.Came s.storage w index true) :
    ∃ p, (if w.have_ index then s.picker.complete index else some s.picker) = some p ∧
      Base { s with storage := w, picker := p } := by
  have rest {p : PiecePicker} (tidy : p.Tidy) (pieces : p.numpieces = s.picker.numpieces)
      (counts : ∀ i, i < s.numpieces →
        p.numinterests i = if w.have_ i then none else some (s.holders i)) :
      Base { s with storage := w, picker := p } := by
    refine ⟨base.nodup, base.fit, tidy, pieces.trans base.pieces, ?_, counts, fun d i b n mem => ?_,
      base.fair, base.few⟩
    · rw [came.torrent.hashes]
      exact base.hashes
    · rw [came.torrent.blocks]
      exact base.asked d i b n mem
  by_cases got : w.have_ index = true
  · obtain ⟨p, step, tidy, pieces, counts⟩ :=
      base.tidy.complete (base.pieces.symm ▸ less) (base.missing less lacks)
    refine ⟨p, by rw [if_pos got, step], rest tidy pieces fun i small => ?_⟩
    rw [counts]
    by_cases here : i = index
    · rw [here, Function.update_self, if_pos got]
    · rw [Function.update_of_ne here, came.have_ i here]
      exact base.counts i small
  · refine ⟨s.picker, if_neg got, rest base.tidy rfl fun i small => ?_⟩
    by_cases here : i = index
    · rw [here, if_neg got, base.counts index less, lacks]
      rfl
    · rw [came.have_ i here]
      exact base.counts i small

/-- Before the endgame a broken piece is given to the others. -/
theorem Early.gotBroken (early : Early sha s) (off : s.storage.endgame = false)
    (less : index < s.numpieces) (lacks : s.storage.have_ index = false) :
    ∃ s', s.gotBroken index = some s' ∧ Sane sha s' := by
  obtain ⟨p, step, tidy, frame⟩ :=
    early.tidy.bump (early.pieces.symm ▸ less) (early.toBase.missing less lacks)
  have base := early.toBase.swap s.storage p ⟨rfl, rfl, rfl⟩ rfl tidy
    (by rw [frame]) (by rw [frame])
  have sane : Sane sha { s with picker := p } := .inl ⟨off, base, early.good⟩
  obtain ⟨s', more, sane', -⟩ := sane.redistribute [index]
  refine ⟨s', ?_, sane'⟩
  rw [Downloader.gotBroken, if_neg (Bool.eq_false_iff.1 off), step, Option.bind_some, more]

/-- In the endgame a broken piece is requested from all. -/
theorem Answered.gotBroken (answered : Answered sha d r s.downloads s) (less : r.1 < s.numpieces)
    (block : r.2 ∈ s.storage.blocks r.1) (is : s.storage.inactive_requests r.1 = .all) :
    ∃ s', s.gotBroken r.1 = some s' ∧ Sane sha s' := by
  have good := answered.good
  have tiles := good.blocks_tiles good.request_pos (answered.hashes.symm ▸ less)
  have short := tiles.length_le
  obtain ⟨s₁, step, base, good', frame, sub, on, all⟩ := askAgain_spec answered.toBase good less
    (.inr ⟨is, rfl⟩) (fun b => .inl) (s.storage.piecelen r.1) (by omega)
  have late : Late sha s₁ := by
    refine ⟨base, on answered.on, good', fun e mem a here => ?_⟩
    rw [frame] at mem here
    rcases List.mem_cons.1 (answered.within e mem here) with rfl | there
    · exact all a.2 block
    · exact sub there
  refine ⟨_, ?_, .inr late.fixAll.1⟩
  rw [Downloader.gotBroken, if_pos answered.on, step]
  rfl

theorem Sane.closeAll (sane : Sane sha s) (ds : List ℕ) : Sane sha (ds.foldl Downloader.close s) := by
  induction ds generalizing s with
  | nil => exact sane
  | cons d ds ih => exact ih (sane.close d)

theorem Sane.goOn (sane : Sane sha s) (mem : d ∈ s.downloads) (open_ : (s.single d).choked = false) :
    ∃ s', s.goOn d = some s' ∧ Sane sha s' := by
  obtain ⟨s₁, step, sane₁, -⟩ := sane.request_more mem open_ none
  rw [Downloader.goOn, step, Option.map_some]
  refine ⟨_, rfl, ?_⟩
  split_ifs
  · exact sane₁.closeAll _
  · exact sane₁

theorem subset_erase_cons {l : List (ℕ × ℕ × ℕ)} : l ⊆ r :: l.erase r := by
  intro a mem
  by_cases here : a = r
  · exact here ▸ List.mem_cons_self
  · exact List.mem_cons_of_mem r ((List.mem_erase_of_ne here).2 mem)

/-- What follows from the answer of the storage, before the endgame -/
theorem Base.gotAnswer (base : Base s) (off : s.storage.endgame = false) (mem : d ∈ s.downloads)
    (open_ : (s.single d).choked = false) (less : r.1 < s.numpieces)
    (lacks : s.storage.have_ r.1 = false) (came : StorageWrapper.Came s.storage w r.1 ok)
    (good : w.Good sha s.actives) :
    ∃ b s', ({ s with storage := w } : Downloader δ).gotAnswer d r ok = some (b, s') ∧ Sane sha s' := by
  have off' : w.endgame = false := came.endgame.trans off
  cases ok with
  | false =>
    have early : Early sha { s with storage := w } := ⟨base.broken came, good⟩
    obtain ⟨s', step, sane⟩ := early.gotBroken off' less ((came.broken rfl).trans lacks)
    refine ⟨false, s', ?_, sane⟩
    rw [Downloader.gotAnswer, if_neg Bool.false_ne_true, step]
    rfl
  | true =>
    obtain ⟨p, step, base'⟩ := base.block less lacks came
    have sane : Sane sha { s with storage := w, picker := p } := .inl ⟨off', base', good⟩
    obtain ⟨s', more, sane'⟩ := sane.goOn (d := d) mem open_
    refine ⟨s'.storage.have_ r.1, s', ?_, sane'⟩
    rw [Downloader.gotAnswer, if_pos rfl, gotBlock]
    dsimp only
    rw [step, Option.bind_some, if_neg (Bool.eq_false_iff.1 off'), more]
    rfl

/-- What follows from the answer of the storage, in the endgame -/
theorem Base.gotAnswer_endgame (base : Base s) (on : s.storage.endgame = true)
    (mem : d ∈ s.downloads) (open_ : (s.single d).choked = false) (less : r.1 < s.numpieces)
    (lacks : s.storage.have_ r.1 = false) (block : r.2 ∈ s.storage.blocks r.1)
    (came : StorageWrapper.Came s.storage w r.1 ok)
    (again : ok = false → w.inactive_requests r.1 = .all) (good : w.Good sha s.all_requests)
    (within : ∀ e ∈ s.downloads, (s.single e).active_requests ⊆ r :: s.all_requests)
    (own : (s.single d).active_requests ⊆ s.all_requests) :
    ∃ b s', ({ s with storage := w } : Downloader δ).gotAnswer d r ok = some (b, s') ∧ Sane sha s' := by
  have on' : w.endgame = true := came.endgame.trans on
  have done : ∀ e ∈ s.downloads, e = d ∨ e ∉ s.downloads →
      (s.single e).active_requests ⊆ s.all_requests := fun e there out =>
    out.elim (fun here => here ▸ own) fun out => absurd there out
  cases ok with
  | false =>
    have answered : Answered sha d r s.downloads { s with storage := w } :=
      ⟨base.broken came, on', good, within, done⟩
    obtain ⟨s', step, sane⟩ := Answered.gotBroken (s := { s with storage := w }) answered less
      (by rw [came.torrent.blocks]; exact block) (again rfl)
    refine ⟨false, s', ?_, sane⟩
    rw [Downloader.gotAnswer, if_neg Bool.false_ne_true, step]
    rfl
  | true =>
    obtain ⟨p, step, base'⟩ := base.block less lacks came
    have answered : Answered sha d r s.downloads { s with storage := w, picker := p } :=
      ⟨base', on', good, within, done⟩
    obtain ⟨late, frame⟩ := answered.late fun _ => id
    obtain ⟨s', more, sane'⟩ := Sane.goOn (d := d) (.inr late) (by rw [frame.downloads]; exact mem)
      (by rw [frame.choked]; exact open_)
    refine ⟨s'.storage.have_ r.1, s', ?_, sane'⟩
    rw [Downloader.gotAnswer, if_pos rfl, gotBlock]
    dsimp only
    rw [step, Option.bind_some, if_pos on', more]
    rfl

/-- A block comes in, whether it was requested or not. -/
theorem Sane.got_piece [DecidableEq δ] {order : List (ℕ × ℕ) → List (ℕ × ℕ)}
    (perm : ∀ l, (order l).Perm l) (sane : Sane sha s) (mem : d ∈ s.downloads) (index start : ℕ)
    (piece : Text) :
    ∃ b s', s.got_piece sha order d index start piece = some (b, s') ∧ Sane sha s' := by
  rw [Downloader.got_piece]
  generalize hr : (index, start, piece.length) = r
  by_cases asked : r ∈ (s.single d).active_requests
  · have fit := sane.base.fit d mem
    have open_ : (s.single d).choked = false := Bool.eq_false_iff.2 fun choked => by
      rw [fit.idle choked] at asked
      exact List.not_mem_nil asked
    have base := sane.base.answered d r
    have self : (s.answered d r).single d = { s.single d with
        active_requests := (s.single d).active_requests.erase r } := Function.update_self ..
    rw [if_neg (not_not_intro asked)]
    rcases sane with ⟨off, early⟩ | late
    · have split : s.actives.Perm (r :: (s.answered d r).actives) := by
        have after := actives_tell early.nodup mem
          { s.single d with active_requests := (s.single d).active_requests.erase r } []
        rw [← change_eq s d fun x => { x with active_requests := x.active_requests.erase r }] at after
        exact (actives_split mem).trans
          (((List.perm_cons_erase asked).append_right _).trans (after.symm.cons r))
      have good := early.good.perm split
      obtain ⟨lacks, less, -⟩ := good.lacks (p := r.1) (r := r.2) List.mem_cons_self
      obtain ⟨ok, w, step, good', came, -⟩ := good.comes (p := r.1) (r := r.2) (s := piece) perm
        (by rw [← hr])
      obtain ⟨b, s', last, sane'⟩ := base.gotAnswer (d := d) off mem (by rw [self]; exact open_)
        (early.hashes ▸ less) lacks came good'
      refine ⟨b, s', ?_, sane'⟩
      rw [if_neg fun h => Bool.noConfusion (off.symm.trans h.1), ← last]
      dsimp only
      rw [if_neg (Bool.eq_false_iff.1 (show (s.answered d r).storage.endgame = false from off))]
      change (s.storage.piece_came_in sha order index start piece).bind _ = _
      rw [← hr] at step ⊢
      rw [step]
      rfl
    · have within := late.within d mem
      have good := late.good.perm (List.perm_cons_erase (within asked))
      obtain ⟨lacks, less, block⟩ := good.lacks (p := r.1) (r := r.2) List.mem_cons_self
      obtain ⟨ok, w, step, good', came, again⟩ := good.comes (p := r.1) (r := r.2) (s := piece) perm
        (by rw [← hr])
      have base' : Base { s.answered d r with all_requests := s.all_requests.erase r } :=
        ⟨base.nodup, base.fit, base.tidy, base.pieces, base.hashes, base.counts, base.asked, base.fair,
          base.few⟩
      obtain ⟨b, s', last, sane'⟩ := base'.gotAnswer_endgame (d := d) late.on mem
        (by change ((s.answered d r).single d).choked = false; rw [self]; exact open_)
        (late.hashes ▸ less) lacks block came again good' (fun e there => by
          change ((s.answered d r).single e).active_requests ⊆ _
          refine List.Subset.trans ?_ subset_erase_cons
          by_cases here : e = d
          · rw [here, self]
            exact List.Subset.trans List.erase_subset within
          · rw [show (s.answered d r).single e = s.single e from Function.update_of_ne here ..]
            exact late.within e there) (by
          change ((s.answered d r).single d).active_requests ⊆ _
          rw [self]
          intro a here
          obtain ⟨ne, here⟩ := fit.nodup.mem_erase_iff.1 here
          exact (List.mem_erase_of_ne ne).2 (within here))
      refine ⟨b, s', ?_, sane'⟩
      rw [if_neg fun h => h.2 (within asked), ← last]
      dsimp only
      rw [if_pos (show (s.answered d r).storage.endgame = true from late.on)]
      change (s.storage.piece_came_in sha order index start piece).bind _ = _
      rw [← hr] at step ⊢
      rw [step]
      rfl
  · rw [if_pos asked]
    exact ⟨false, s, rfl, sane⟩

/-! ### Runs -/

/-- The picker is told of the pieces that are there. -/
theorem start_sane {w : StorageWrapper δ} (cutoff backlog : ℕ) {scrambled : List ℕ}
    {randrange : ℕ → ℕ → ℕ} (good : w.Good sha []) (off : w.endgame = false)
    (perm : scrambled.Perm (List.range w.hashes.length)) (fair : ∀ k n, 0 < n → randrange k n < n) :
    ∃ s, start w cutoff scrambled backlog randrange = some s ∧ Sane sha s ∧
      s.numpieces = w.hashes.length ∧ s.downloads = [] ∧ s.sent = [] := by
  have turns : ∀ n ≤ w.hashes.length, ∃ p, (List.range n).foldlM
      (fun p i => if w.have_ i then p.complete i else some p)
      (PiecePicker.init w.hashes.length cutoff scrambled) = some p ∧ p.Tidy ∧
      p.numpieces = w.hashes.length ∧ ∀ i, p.numinterests i =
        if i < n ∧ w.have_ i = true then none else some 0 := by
    intro n
    induction n with
    | zero => exact fun _ => ⟨_, rfl, PiecePicker.init_tidy perm, rfl, fun i => by
        rw [if_neg fun h => by omega]
        rfl⟩
    | succ n ih =>
      intro le
      obtain ⟨p, step, tidy, pieces, counts⟩ := ih (by omega)
      rw [List.range_succ, List.foldlM_append, step]
      simp only [List.foldlM_cons, List.foldlM_nil, Option.bind_eq_bind, Option.bind_some]
      by_cases got : w.have_ n = true
      · obtain ⟨p', step', tidy', pieces', counts'⟩ := tidy.complete (x := n) (by rw [pieces]; omega)
          (by rw [counts, if_neg fun h => by omega]; rfl)
        refine ⟨p', by rw [if_pos got, step']; rfl, tidy', pieces'.trans pieces, fun i => ?_⟩
        rw [counts']
        by_cases here : i = n
        · rw [here, Function.update_self, if_pos ⟨Nat.lt_succ_self n, got⟩]
        · rw [Function.update_of_ne here, counts]
          exact if_congr (by constructor <;> rintro ⟨h, h'⟩ <;> exact ⟨by omega, h'⟩) rfl rfl
      · refine ⟨p, by rw [if_neg got]; rfl, tidy, pieces, fun i => ?_⟩
        rw [counts]
        refine if_congr ⟨fun h => ⟨by omega, h.2⟩, fun h => ⟨?_, h.2⟩⟩ rfl rfl
        rcases Nat.lt_succ_iff_lt_or_eq.1 h.1 with less | rfl
        · exact less
        · exact absurd h.2 got
  obtain ⟨p, step, tidy, pieces, counts⟩ := turns _ le_rfl
  have base : Base (init w p backlog w.hashes.length randrange) := by
    refine ⟨List.nodup_nil, fun d mem => absurd mem List.not_mem_nil, tidy, pieces, rfl, fun i less => ?_,
      fun d i b n mem => absurd mem List.not_mem_nil, fair, Nat.two_pow_pos 30⟩
    refine (counts i).trans (if_congr ⟨And.right, fun h => ⟨less, h⟩⟩ rfl rfl)
  refine ⟨init w p backlog w.hashes.length randrange, by rw [start, step]; rfl, ?_, rfl, rfl, rfl⟩
  exact .inl ⟨off, base, good⟩

theorem get_blank (n i : ℕ) : (Bitfield.blank n).get i = false := by
  rw [Bitfield.get, Bitfield.blank, List.getD_eq_getElem?_getD, List.getElem?_replicate]
  split_ifs <;> rfl

/-- A download of a connection that is new -/
theorem Sane.make_download (sane : Sane sha s) (new : d ∉ s.downloads)
    (fresh : ∀ m, (d, m) ∉ s.sent) (few : s.downloads.length + 1 < 2 ^ 30) :
    Sane sha (s.make_download d) := by
  have base := sane.base
  have self : (s.make_download d).single d = SingleDownload.init s.numpieces := Function.update_self ..
  have rest : ∀ e ∈ s.downloads, (s.make_download d).single e = s.single e := fun e mem =>
    Function.update_of_ne (fun here : e = d => new (here ▸ mem)) ..
  have known : ∀ e ∈ (s.make_download d).downloads, e ∈ s.downloads ∨ e = d := fun e mem =>
    (List.mem_append.1 mem).imp_right List.mem_singleton.1
  have base' : Base (s.make_download d) := by
    refine ⟨List.nodup_append.2 ⟨base.nodup, List.nodup_singleton d, fun a mem b mem' here => by
      rw [here, List.mem_singleton.1 mem'] at mem
      exact new mem⟩, fun e mem => ?_, base.tidy, base.pieces,
      base.hashes, fun i less => ?_, base.asked, base.fair, ?_⟩
    · rcases known e mem with old | rfl
      · rw [rest e old]
        exact base.fit e old
      · have silent : s.sent.filter (·.1 = e) = [] := by
          rw [List.filter_eq_nil_iff]
          intro m mem here
          exact fresh m.2 (of_decide_eq_true here ▸ mem)
        rw [self, sentTo, show (s.make_download e).sent = s.sent from rfl, silent]
        exact ⟨fun _ => rfl, fun some_ => absurd rfl some_, Nat.zero_le _, List.nodup_nil, rfl,
          fun r mem => absurd mem List.not_mem_nil, rfl⟩
    · have count : (s.make_download d).holders i = s.holders i := by
        rw [holders, holders, show (s.make_download d).downloads = s.downloads ++ [d] from rfl,
          List.countP_append, List.countP_singleton, self,
          show (SingleDownload.init s.numpieces).have_.get i = false from get_blank _ i,
          if_neg Bool.false_ne_true, Nat.add_zero]
        exact List.countP_congr fun e mem => by rw [rest e mem]
      rw [count]
      exact base.counts i less
    · change (s.downloads ++ [d]).length < _
      rw [List.length_append]
      exact few
  rcases sane with ⟨off, early⟩ | late
  · refine .inl ⟨off, base', ?_⟩
    have same : (s.make_download d).actives = s.actives := by
      rw [actives, actives, show (s.make_download d).downloads = s.downloads ++ [d] from rfl,
        List.flatMap_append, List.flatMap_singleton, self,
        List.flatMap_congr fun e mem => by rw [rest e mem]]
      exact List.append_nil _
    rw [same]
    exact early.good
  · refine .inr ⟨base', late.on, late.good, fun e mem => ?_⟩
    rcases known e mem with old | rfl
    · rw [rest e old]
      exact late.within e old
    · rw [self]
      exact List.nil_subset _

section Step

variable [DecidableEq δ]

/-- What happens to a downloader: connections come and go, and their peers send messages. -/
inductive Step (sha : Text → δ) (order : List (ℕ × ℕ) → List (ℕ × ℕ)) (s : Downloader δ) :
    Downloader δ → Prop where
  | make_download (d : ℕ) (new : d ∉ s.downloads) (fresh : ∀ m, (d, m) ∉ s.sent)
      (few : s.downloads.length + 1 < 2 ^ 30) : Step sha order s (s.make_download d)
  | disconnected {s' : Downloader δ} {d : ℕ} (mem : d ∈ s.downloads)
      (step : s.disconnected d = some s') : Step sha order s s'
  | got_choke {s' : Downloader δ} {d : ℕ} (mem : d ∈ s.downloads)
      (step : s.got_choke d = some s') : Step sha order s s'
  | got_unchoke {s' : Downloader δ} {d : ℕ} (mem : d ∈ s.downloads)
      (step : s.got_unchoke d = some s') : Step sha order s s'
  | got_piece {s' : Downloader δ} {d : ℕ} {b : Bool} (mem : d ∈ s.downloads) (index start : ℕ)
      (piece : Text) (step : s.got_piece sha order d index start piece = some (b, s')) :
      Step sha order s s'
  | got_have {s' : Downloader δ} {d index : ℕ} (mem : d ∈ s.downloads) (less : index < s.numpieces)
      (step : s.got_have d index = some s') : Step sha order s s'
  /-- The first message of a peer may be a bitfield. -/
  | got_have_bitfield {s' : Downloader δ} {d : ℕ} {b : Bitfield} (mem : d ∈ s.downloads)
      (size : b.length = s.numpieces) (first : ∀ i, (s.single d).have_.get i = false)
      (step : s.got_have_bitfield d b = some s') : Step sha order s s'

variable {order : List (ℕ × ℕ) → List (ℕ × ℕ)}

theorem Sane.step (perm : ∀ l, (order l).Perm l) (sane : Sane sha s) (step : Step sha order s s') :
    Sane sha s' := by
  cases step with
  | make_download d new fresh few => exact sane.make_download new fresh few
  | disconnected mem step =>
    obtain ⟨t, same, sane'⟩ := sane.disconnected mem
    exact Option.some.inj (same.symm.trans step) ▸ sane'
  | got_choke mem step =>
    obtain ⟨t, same, sane'⟩ := sane.got_choke mem
    exact Option.some.inj (same.symm.trans step) ▸ sane'
  | got_unchoke mem step =>
    obtain ⟨t, same, sane'⟩ := sane.got_unchoke mem
    exact Option.some.inj (same.symm.trans step) ▸ sane'
  | got_piece mem index start piece step =>
    obtain ⟨b, t, same, sane'⟩ := sane.got_piece perm mem index start piece
    exact (Prod.mk.inj (Option.some.inj (same.symm.trans step))).2 ▸ sane'
  | got_have mem less step =>
    obtain ⟨t, same, sane'⟩ := sane.got_have mem less
    exact Option.some.inj (same.symm.trans step) ▸ sane'
  | got_have_bitfield mem size first step =>
    obtain ⟨t, same, sane'⟩ := sane.got_have_bitfield mem size first
    exact Option.some.inj (same.symm.trans step) ▸ sane'

/-- A downloader of a torrent, in a state that it can come to -/
structure Reached (sha : Text → δ) (order : List (ℕ × ℕ) → List (ℕ × ℕ)) (s : Downloader δ) : Prop where
  perm : ∀ l, (order l).Perm l
  run : ∃ (files : List (Text × ℕ)) (disk : Text → Option Text) (request_size piece_size : ℕ)
    (hashes : List δ) (check : Bool) (w : StorageWrapper δ) (cutoff backlog : ℕ) (scrambled : List ℕ)
    (randrange : ℕ → ℕ → ℕ) (s₀ : Downloader δ), (files.map (·.1)).Nodup ∧ 0 < piece_size ∧
      0 < request_size ∧ hashes ≠ [] ∧
      StorageWrapper.init sha (Storage.init files disk) request_size hashes piece_size check = some w ∧
      scrambled.Perm (List.range w.hashes.length) ∧ (∀ k n, 0 < n → randrange k n < n) ∧
      start w cutoff scrambled backlog randrange = some s₀ ∧
      Relation.ReflTransGen (Step sha order) s₀ s

theorem Reached.sane (reached : Reached sha order s) : Sane sha s := by
  obtain ⟨files, disk, request_size, piece_size, hashes, check, w, cutoff, backlog, scrambled, randrange,
    s₀, nodup, size, request, many, begun, shuffled, fair, started, run⟩ := reached.run
  obtain ⟨s₁, same, sane, -⟩ := start_sane cutoff backlog
    (StorageWrapper.init_good nodup size request many begun).1 (StorageWrapper.init_endgame begun)
    shuffled fair
  obtain rfl := Option.some.inj (same.symm.trans started)
  have perm := reached.perm
  clear reached started same
  induction run with
  | refl => exact sane
  | tail _ step ih => exact ih.step perm step

/-- Whatever peers have sent before, and in whichever order: no handler of a message, and none of a
connection that is lost, raises an exception. -/
theorem served (reached : Reached sha order s) (mem : d ∈ s.downloads) :
    (s.disconnected d).isSome ∧ (s.got_choke d).isSome ∧ (s.got_unchoke d).isSome ∧
      (∀ index start piece, (s.got_piece sha order d index start piece).isSome) ∧
      (∀ index, index < s.numpieces → (s.got_have d index).isSome) ∧
      ∀ b, b.length = s.numpieces → (∀ i, (s.single d).have_.get i = false) →
        (s.got_have_bitfield d b).isSome := by
  have sane := reached.sane
  refine ⟨?_, ?_, ?_, fun index start piece => ?_, fun index less => ?_, fun b size first => ?_⟩
  · obtain ⟨s', step, -⟩ := sane.disconnected mem
    exact Option.isSome_of_eq_some step
  · obtain ⟨s', step, -⟩ := sane.got_choke mem
    exact Option.isSome_of_eq_some step
  · obtain ⟨s', step, -⟩ := sane.got_unchoke mem
    exact Option.isSome_of_eq_some step
  · obtain ⟨b, s', step, -⟩ := sane.got_piece reached.perm mem index start piece
    exact Option.isSome_of_eq_some step
  · obtain ⟨s', step, -⟩ := sane.got_have mem less
    exact Option.isSome_of_eq_some step
  · obtain ⟨s', step, -⟩ := sane.got_have_bitfield mem size first
    exact Option.isSome_of_eq_some step

/-- A peer that has everything has sent its bitfield, an unchoke and a block; the next block is
requested. -/
theorem exists_reached : ∃ s : Downloader Text, Reached id id s ∧ s.downloads = [0] ∧
    (s.single 0).active_requests = [(0, 1, 1)] ∧ s.storage.endgame = false := by
  obtain ⟨w, s₀, s, begun, started, run, facts⟩ : ∃ (w : StorageWrapper Text) (s₀ s : Downloader Text),
      StorageWrapper.init id (Storage.init [("a".toList, 5)] fun _ => none) 1
        ["xy".toList, "zu".toList, "v".toList] 2 true = some w ∧
      start w 1 (List.range w.hashes.length) 1 (fun _ _ => 0) = some s₀ ∧
      Relation.ReflTransGen (Step id id) s₀ s ∧ s.downloads = [0] ∧
        (s.single 0).active_requests = [(0, 1, 1)] ∧ s.storage.endgame = false := by
    refine ⟨_, _, _, rfl, rfl, (((Relation.ReflTransGen.refl.tail
      (.make_download 0 List.not_mem_nil (fun _ => List.not_mem_nil) (by decide))).tail
      (.got_have_bitfield (d := 0) (b := ⟨3, [true, true, true], 0, rfl, rfl⟩) List.mem_cons_self rfl
        (get_blank 3) rfl)).tail
      (.got_unchoke (d := 0) List.mem_cons_self rfl)).tail
      (.got_piece (d := 0) List.mem_cons_self 0 0 "x".toList rfl), rfl, rfl, rfl⟩
  exact ⟨s, ⟨fun l => List.Perm.refl l, _, _, 1, 2, _, true, w, 1, 1, _, _, s₀, by decide, by decide,
    by decide, by decide, begun, List.Perm.refl _, fun _ _ pos => pos, started, run⟩, facts⟩

theorem served_first : ∃ s : Downloader Text, Reached id id s ∧
    (0, 1, 1) ∈ (s.single 0).active_requests ∧ (s.got_piece id id 0 0 1 "y".toList).isSome := by
  obtain ⟨s, reached, downloads, active, -⟩ := exists_reached
  exact ⟨s, reached, by rw [active]; exact List.mem_cons_self,
    (served reached (by rw [downloads]; decide)).2.2.2.1 0 1 _⟩

/-- What holds between any two messages: no download has more requests than the backlog allows, or
while it is choked; what is requested is missing, and the peer has it and is told of the interest.  Before
the endgame each block is requested once, and is not to be requested again; in the endgame all requests
are of blocks that are outstanding.  As long as something is missing, something can be requested or is. -/
theorem requests_kept (reached : Reached sha order s) :
    (∀ d ∈ s.downloads, Fit s.backlog s.numpieces (s.single d) (s.sentTo d) ∧
      ∀ r ∈ (s.single d).active_requests, s.storage.have_ r.1 = false ∧ r.2 ∈ s.storage.blocks r.1) ∧
    (s.storage.endgame = false → s.actives.Nodup ∧ ∀ i, match s.storage.inactive_requests i with
      | .blocks l => (l ++ StorageWrapper.outOf s.actives i).Subperm (s.storage.blocks i)
      | .all | .none => StorageWrapper.outOf s.actives i = []) ∧
    (s.storage.endgame = true → s.all_requests.Nodup ∧
      ∀ d ∈ s.downloads, (s.single d).active_requests ⊆ s.all_requests) ∧
    (s.storage.amount_left ≠ 0 → s.actives ≠ [] ∨ s.storage.endgame = true ∧ s.all_requests ≠ [] ∨
      ∃ i, i < s.numpieces ∧ s.storage.do_I_have_requests i) := by
  have base := reached.sane.base
  rcases reached.sane with ⟨off, early⟩ | late
  · have good := early.good
    refine ⟨fun d mem => ⟨base.fit d mem, fun r here => ?_⟩,
      fun _ => ⟨good.nodup, fun i => (good.ledger.piece i).shared⟩,
      fun on => absurd (on.symm.trans off) (Bool.false_ne_true ·.symm), fun left => ?_⟩
    · obtain ⟨lacks, -, block⟩ := good.lacks (p := r.1) (r := r.2) (List.mem_flatMap.2 ⟨d, mem, here⟩)
      exact ⟨lacks, block⟩
    · rw [← base.hashes]
      exact (good.more left).imp_right .inr
  · have good := late.good
    refine ⟨fun d mem => ⟨base.fit d mem, fun r here => ?_⟩,
      fun off => absurd (late.on.symm.trans off) (Bool.false_ne_true ·.symm),
      fun _ => ⟨good.nodup, late.within⟩, fun left => ?_⟩
    · obtain ⟨lacks, -, block⟩ := good.lacks (p := r.1) (r := r.2) (late.within d mem here)
      exact ⟨lacks, block⟩
    · rw [← base.hashes]
      exact .inr ((good.more left).imp_left fun some_ => ⟨late.on, some_⟩)

theorem requests_kept_first : ∃ s : Downloader Text, Reached id id s ∧
    (0, 1, 1) ∈ (s.single 0).active_requests ∧ s.storage.have_ 0 = false ∧
      (1, 1) ∈ s.storage.blocks 0 := by
  obtain ⟨s, reached, downloads, active, -⟩ := exists_reached
  have mem : (0, 1, 1) ∈ (s.single 0).active_requests := by rw [active]; exact List.mem_cons_self
  exact ⟨s, reached, mem, ((requests_kept reached).1 0 (by rw [downloads]; decide)).2 _ mem⟩

end Step

end Downloader

end Ydfs.BitTorrent
