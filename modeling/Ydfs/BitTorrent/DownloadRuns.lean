import Ydfs.BitTorrent.Downloads

/-!
# Runs of a downloader

No call that is made raises an exception, whatever the peers send and in whichever order.
-/

namespace Ydfs.BitTorrent.Downloader

open Wubi.Sax (Text)

variable {δ : Type} {sha : Text → δ} {s s' : Downloader δ} {d e index : ℕ} {r : ℕ × ℕ × ℕ}
  {indices : Option (List ℕ)} {lost : List ℕ}

/-! ### More requests -/

theorem Early.reconsider (early : Early sha s) (d : ℕ) :
    Early sha (reconsider lost s d) ∧ Frame s (reconsider lost s d) := by
  rw [Downloader.reconsider]
  by_cases busy : (s.single d).active_requests ≠ [] ∨ ¬ (s.single d).interested = true
  · rw [if_pos busy]
    exact ⟨early, Frame.refl s⟩
  · rw [if_neg busy]
    split_ifs
    · exact ⟨early, Frame.refl s⟩
    · have idle : (s.single d).active_requests = [] := by_contra fun some_ => busy (.inl some_)
      have early₁ : Early sha (s.drawn 1) := early.only (Only.drawn s d 1) (early.toBase.drawn 1) rfl
      rw [pick]
      cases s.picker.next (s.randrange 0) (s.want d) (s.seed d) with
      | none =>
        have only := Only.beUninterested (s.drawn 1) d
        exact ⟨early₁.only only (early₁.toBase.beUninterested idle) (by rw [single_beUninterested]),
          (Frame.drawn s 1).trans only.frame⟩
      | some i =>
        have only := Only.example (s.drawn 1) d i
        exact ⟨early₁.only only (early₁.toBase.example i) (by rw [single_example]),
          (Frame.drawn s 1).trans only.frame⟩
    · exact ⟨early, Frame.refl s⟩

theorem Early.afterFill (early : Early sha s) (d : ℕ) (lost : List ℕ) :
    Sane sha (s.afterFill d lost) ∧ Frame s (s.afterFill d lost) := by
  rw [Downloader.afterFill]
  obtain ⟨s₁, is₁, early₁, frame₁⟩ : ∃ s₁, (if (s.single d).active_requests = [] ∧
      (s.single d).interested = true then s.beUninterested d else s) = s₁ ∧ Early sha s₁ ∧ Frame s s₁ := by
    by_cases idle : (s.single d).active_requests = [] ∧ (s.single d).interested = true
    · exact ⟨_, if_pos idle, early.only (Only.beUninterested s d) (early.toBase.beUninterested idle.1)
        (by rw [single_beUninterested]), (Only.beUninterested s d).frame⟩
    · exact ⟨_, if_neg idle, early, Frame.refl s⟩
  obtain ⟨s₂, is₂, early₂, frame₂⟩ : ∃ s₂, (if lost ≠ [] then
      s₁.downloads.foldl (Downloader.reconsider lost) s₁ else s₁) = s₂ ∧ Early sha s₂ ∧ Frame s₁ s₂ := by
    by_cases some_ : lost ≠ []
    · exact ⟨_, if_pos some_, each (fun s d early _ => early.reconsider d) early₁ fun _ => id⟩
    · exact ⟨_, if_neg some_, early₁, Frame.refl s₁⟩
  rw [is₁, is₂]
  by_cases on : s₂.storage.endgame = true
  · rw [if_pos on]
    obtain ⟨late, frame⟩ := early₂.endgame on
    exact ⟨.inr late, (frame₁.trans frame₂).trans frame⟩
  · rw [if_neg on]
    exact ⟨.inl ⟨Bool.eq_false_iff.2 on, early₂⟩, frame₁.trans frame₂⟩

theorem Sane.late (sane : Sane sha s) (on : s.storage.endgame = true) : Late sha s := by
  rcases sane with ⟨off, -⟩ | late
  · exact absurd (on.symm.trans off) (Bool.false_ne_true ·.symm)
  · exact late

theorem Sane.early (sane : Sane sha s) (off : ¬ s.storage.endgame = true) : Early sha s := by
  rcases sane with ⟨-, early⟩ | late
  · exact early
  · exact absurd late.on off

/-- A download that is not choked makes its requests. -/
theorem Sane.request_more (sane : Sane sha s) (mem : d ∈ s.downloads)
    (open_ : (s.single d).choked = false) (indices : Option (List ℕ)) :
    ∃ s', s.request_more d indices = some s' ∧ Sane sha s' ∧ Frame s s' := by
  rw [Downloader.request_more, if_neg (Bool.eq_false_iff.1 open_)]
  split_ifs with full on
  · exact ⟨s, rfl, sane, Frame.refl s⟩
  · obtain ⟨late, frame⟩ := (sane.late on).fix mem
    exact ⟨_, rfl, .inr late, frame⟩
  · obtain ⟨s₁, lost, filled, early, frame⟩ :=
      Early.fill indices (sane.early on) mem open_ s.backlog []
    obtain ⟨sane', frame'⟩ := early.afterFill d lost
    exact ⟨_, by rw [filled]; rfl, sane', frame.trans frame'⟩

theorem Sane.drawn (sane : Sane sha s) (n : ℕ) : Sane sha (s.drawn n) := by
  rcases sane with ⟨off, early⟩ | late
  · exact .inl ⟨off, early.toBase.drawn n, early.good⟩
  · exact .inr ⟨late.toBase.drawn n, late.on, late.good, late.within⟩

theorem Sane.redistribute (sane : Sane sha s) (indices : List ℕ) :
    ∃ s', s.redistribute indices = some s' ∧ Sane sha s' ∧ Frame s s' := by
  have turns : ∀ (ds : List ℕ) (s : Downloader δ), Sane sha s →
      (∀ d ∈ ds, d ∈ s.downloads ∧ (s.single d).choked = false) →
      ∃ s', ds.foldlM (fun s d => s.request_more d (some indices)) s = some s' ∧ Sane sha s' ∧
        Frame s s' := by
    intro ds
    induction ds with
    | nil => exact fun s sane _ => ⟨s, rfl, sane, Frame.refl s⟩
    | cons d ds ih =>
      intro s sane ready
      obtain ⟨mem, open_⟩ := ready d List.mem_cons_self
      obtain ⟨s₁, step, sane₁, frame₁⟩ := sane.request_more mem open_ (some indices)
      obtain ⟨s₂, rest, sane₂, frame₂⟩ := ih s₁ sane₁ fun e mem => by
        rw [frame₁.downloads, frame₁.choked]
        exact ready e (List.mem_cons_of_mem d mem)
      refine ⟨s₂, ?_, sane₂, frame₁.trans frame₂⟩
      rw [List.foldlM_cons, step]
      exact rest
  obtain ⟨s', step, sane', frame⟩ := turns (Shuffle.shuffle s.randrange
    (s.downloads.filter fun d => !(s.single d).choked)) (s.drawn s.downloads.length)
    (sane.drawn _) fun d mem => by
      have mem := (Shuffle.shuffle_perm ..).subset mem
      rw [List.mem_filter, Bool.not_eq_true'] at mem
      exact mem
  exact ⟨s', step, sane', (Frame.drawn s _).trans frame⟩

/-! ### Requests that are given up -/

theorem Sane.beInterested (sane : Sane sha s) (mem : d ∈ s.downloads) : Sane sha (s.beInterested d) := by
  have only := Only.beInterested s d
  have here := single_beInterested s d
  rcases sane with ⟨off, early⟩ | late
  · exact .inl ⟨off, early.only only (early.toBase.beInterested d) (by rw [here])⟩
  · exact .inr (late.only only (late.toBase.beInterested d) (by rw [here]; exact late.within d mem))

theorem Sane.hear (sane : Sane sha s) (mem : d ∈ s.downloads) :
    Sane sha (hear lost s d) ∧ Frame s (hear lost s d) := by
  rw [Downloader.hear]
  split_ifs
  · exact ⟨sane.beInterested mem, (Only.beInterested s d).frame⟩
  · exact ⟨sane, Frame.refl s⟩

/-- The requests of a list are lost. -/
theorem request_lost_all {w : StorageWrapper δ} {out : List (ℕ × ℕ × ℕ)} (active : List (ℕ × ℕ × ℕ))
    (good : w.Good sha (active ++ out)) :
    ∃ w', active.foldlM (fun (w : StorageWrapper δ) r => w.request_lost r.1 r.2.1 r.2.2) w = some w' ∧
      w'.Good sha out ∧ StorageWrapper.SameTorrent w w' ∧ w'.have_ = w.have_ ∧
      w'.endgame = w.endgame := by
  induction active generalizing w with
  | nil => exact ⟨w, rfl, good, ⟨rfl, rfl, rfl⟩, rfl, rfl⟩
  | cons r active ih =>
    obtain ⟨w₁, step, gone, good₁⟩ := good.lost
    obtain ⟨torrent, have_, endgame⟩ := gone.torrent
    obtain ⟨w₂, rest, good₂, torrent₂, have₂, endgame₂⟩ := ih good₁
    refine ⟨w₂, ?_, good₂, torrent.trans torrent₂, have₂.trans have_, endgame₂.trans endgame⟩
    rw [List.foldlM_cons, step]
    exact rest

/-- What holds of a download that gives its requests up: they are still outstanding. -/
def Leaving (sha : Text → δ) (d : ℕ) (s : Downloader δ) : Prop :=
  s.storage.endgame = false ∧ Base (s.clear d) ∧
      s.storage.Good sha ((s.single d).active_requests ++ (s.clear d).actives) ∨
    Late sha (s.clear d)

theorem Leaving.letgo (leaving : Leaving sha d s) :
    ∃ s', s.letgo d = some s' ∧ Sane sha s' ∧ Frame (s.clear d) s' := by
  rw [Downloader.letgo]
  dsimp only
  by_cases idle : (s.single d).active_requests = []
  · have same : s.clear d = s := by
      rw [clear, change, ← idle]
      exact congrArg (fun f => { s with single := f }) (Function.update_eq_self ..)
    rw [if_pos idle, same]
    rw [Leaving, idle, List.nil_append, same] at leaving
    refine ⟨s, rfl, ?_, Frame.refl s⟩
    rcases leaving with ⟨off, base, good⟩ | late
    · exact .inl ⟨off, base, good⟩
    · exact .inr late
  · rw [if_neg idle]
    rcases leaving with ⟨off, base, good⟩ | late
    · rw [if_neg (Bool.eq_false_iff.1 off)]
      obtain ⟨w, lost, good', torrent, have_, endgame⟩ := request_lost_all _ good
      have sane : Sane sha { s.clear d with storage := w } := by
        refine .inl ⟨endgame.trans off, ?_, good'⟩
        exact base.swap w s.picker torrent have_ base.tidy rfl rfl
      obtain ⟨s₁, step, sane₁, frame₁⟩ := sane.redistribute (pieces (s.single d).active_requests)
      obtain ⟨sane₂, frame₂⟩ := each (f := Downloader.hear (pieces (s.single d).active_requests))
        (fun _ _ sane mem => sane.hear mem) sane₁ fun _ => id
      refine ⟨_, ?_, sane₂, ?_⟩
      · rw [lost, Option.bind_eq_bind, Option.bind_some, step]
        rfl
      · have frame := frame₁.trans frame₂
        exact ⟨frame.backlog, frame.numpieces, frame.downloads, frame.choked, frame.have_,
          torrent.trans frame.torrent, frame.got.trans have_⟩
    · rw [if_pos (show s.storage.endgame = true from late.on)]
      exact ⟨_, rfl, .inr late, Frame.refl _⟩

/-- A download without requests -/
theorem Base.idle (base : Base s) {x : SingleDownload} (idle : x.active_requests = [])
    (have_ : x.have_ = (s.single d).have_) (told : x.interested = (s.single d).interested) :
    Base (s.tell d x []) := by
  refine base.tell have_ (fun mem => ?_) fun i b n mem => absurd mem List.not_mem_nil
  have fit := base.fit d mem
  rw [List.append_nil]
  refine ⟨fun _ => idle, fun some_ => absurd idle some_, ?_, ?_, have_ ▸ fit.size, fun r mem => ?_,
    told ▸ fit.told⟩
  · rw [idle]
    exact Nat.zero_le _
  · rw [idle]
    exact List.nodup_nil
  · rw [idle] at mem
    exact absurd mem List.not_mem_nil

theorem clear_eq (s : Downloader δ) (d : ℕ) (f : SingleDownload → SingleDownload) :
    (s.change d f).clear d = s.tell d { f (s.single d) with active_requests := [] } [] := by
  rw [clear, change_eq, change_eq, single_tell_self, tell, tell, tell]
  simp [Function.update_idem]

theorem actives_tell (nodup : s.downloads.Nodup) (mem : d ∈ s.downloads) (x : SingleDownload)
    (l : List Message) : (s.tell d x l).actives.Perm (x.active_requests ++ s.others d) := by
  have split := actives_split (s := s.tell d x l) mem
  rwa [single_tell_self, others_tell nodup] at split

theorem Late.tell {x : SingleDownload} {l : List Message} (late : Late sha s)
    (base : Base (s.tell d x l)) (within : x.active_requests ⊆ s.all_requests) :
    Late sha (s.tell d x l) := by
  refine ⟨base, late.on, late.good, fun e mem => ?_⟩
  by_cases here : e = d
  · rw [here, single_tell_self]
    exact within
  · rw [single_tell_ne here]
    exact late.within e mem

theorem Sane.got_choke (sane : Sane sha s) (mem : d ∈ s.downloads) :
    ∃ s', s.got_choke d = some s' ∧ Sane sha s' := by
  rw [Downloader.got_choke]
  split_ifs with choked
  · exact ⟨s, rfl, sane⟩
  · have leaving : Leaving sha d (s.change d fun x => { x with choked := true }) := by
      have base := sane.base.idle (d := d) (x := { s.single d with
        choked := true
        active_requests := [] }) rfl rfl rfl
      rw [Leaving, clear_eq]
      rcases sane with ⟨off, early⟩ | late
      · refine .inl ⟨off, base, early.good.perm ?_⟩
        rw [change_eq, single_tell_self]
        have rest := actives_tell early.nodup mem { s.single d with
          choked := true
          active_requests := [] } []
        exact (actives_split mem).trans (rest.symm.append_left (s.single d).active_requests)
      · exact .inr (late.tell base (List.nil_subset _))
    obtain ⟨s', step, sane', -⟩ := leaving.letgo
    exact ⟨s', step, sane'⟩

theorem Sane.got_unchoke (sane : Sane sha s) (mem : d ∈ s.downloads) :
    ∃ s', s.got_unchoke d = some s' ∧ Sane sha s' := by
  rw [Downloader.got_unchoke]
  split_ifs with choked
  · have idle := (sane.base.fit d mem).idle choked
    have sane₁ : Sane sha (s.change d fun x => { x with choked := false }) := by
      rw [change_eq]
      have base := sane.base.idle (d := d) (x := { s.single d with choked := false }) idle rfl rfl
      rcases sane with ⟨off, early⟩ | late
      · refine .inl ⟨off, base, early.good.perm ((actives_split mem).trans ?_)⟩
        exact (actives_tell early.nodup mem { s.single d with choked := false } []).symm
      · exact .inr (late.tell base (late.within d mem))
    have open_ : ((s.change d fun x => { x with choked := false }).single d).choked = false := by
      rw [change_eq, single_tell_self]
    by_cases eager : ((s.change d fun x => { x with choked := false }).single d).interested = true
    · obtain ⟨s', step, sane', -⟩ := sane₁.request_more (d := d) mem open_ none
      exact ⟨s', (if_pos eager).trans step, sane'⟩
    · exact ⟨_, if_neg eager, sane₁⟩
  · exact ⟨s, rfl, sane⟩

/-! ### What the peers have -/

/-- The picker is told of all pieces of a peer. -/
theorem forPieces_eq {f : PiecePicker → (ℕ → ℕ) → ℕ → Option PiecePicker} {g : ℕ → ℕ} {b : Bitfield}
    (tidy : s.picker.Tidy) (turn : ∀ p i, p.Tidy → p.numpieces = s.picker.numpieces → i < b.length →
      b.get i = true → p.numinterests i = s.picker.numinterests i →
      ∃ p', f p (s.randrange i) i = some p' ∧ p'.Tidy ∧ p'.numpieces = p.numpieces ∧
        p'.numinterests = Function.update p.numinterests i ((p.numinterests i).map g)) :
    ∃ p', s.forPieces b f = some (({ s with picker := p' } : Downloader δ).drawn b.length) ∧ p'.Tidy ∧
      p'.numpieces = s.picker.numpieces ∧ ∀ i, i < b.length → p'.numinterests i =
        if b.get i = true then (s.picker.numinterests i).map g else s.picker.numinterests i := by
  have turns : ∀ n ≤ b.length, ∃ p', (List.range n).foldlM
      (fun p i => if b.get i then f p (s.randrange i) i else some p) s.picker = some p' ∧ p'.Tidy ∧
      p'.numpieces = s.picker.numpieces ∧ ∀ i, p'.numinterests i =
        if i < n ∧ b.get i = true then (s.picker.numinterests i).map g
        else s.picker.numinterests i := by
    intro n
    induction n with
    | zero => exact fun _ => ⟨s.picker, rfl, tidy, rfl, fun i => by rw [if_neg fun h => by omega]⟩
    | succ n ih =>
      intro le
      obtain ⟨p, step, tidy', pieces, counts⟩ := ih (by omega)
      rw [List.range_succ, List.foldlM_append, step]
      simp only [List.foldlM_cons, List.foldlM_nil, Option.bind_eq_bind, Option.bind_some]
      by_cases has : b.get n = true
      · obtain ⟨p', step', tidy'', pieces', counts'⟩ := turn p n tidy' pieces (by omega) has
          (by rw [counts, if_neg fun h => by omega])
        refine ⟨p', by rw [if_pos has, step']; rfl, tidy'', pieces'.trans pieces, fun i => ?_⟩
        rw [counts']
        by_cases here : i = n
        · subst here
          rw [Function.update_self, counts, if_neg fun h => by omega, if_pos ⟨by omega, has⟩]
        · rw [Function.update_of_ne here, counts]
          exact if_congr (by constructor <;> rintro ⟨h, h'⟩ <;> exact ⟨by omega, h'⟩) rfl rfl
      · refine ⟨p, by rw [if_neg has]; rfl, tidy', pieces, fun i => ?_⟩
        rw [counts]
        refine if_congr ⟨fun h => ⟨by omega, h.2⟩, fun h => ⟨?_, h.2⟩⟩ rfl rfl
        rcases Nat.lt_succ_iff_lt_or_eq.1 h.1 with less | rfl
        · exact less
        · exact absurd h.2 has
  obtain ⟨p', step, tidy', pieces, counts⟩ := turns b.length le_rfl
  refine ⟨p', by rw [forPieces, step]; rfl, tidy', pieces, fun i less => ?_⟩
  rw [counts]
  exact if_congr ⟨And.right, fun h => ⟨less, h⟩⟩ rfl rfl

/-- The other peers that have a piece -/
def otherHolders (s : Downloader δ) (d i : ℕ) : ℕ :=
  (s.downloads.erase d).countP fun e => (s.single e).have_.get i

theorem holders_split (mem : d ∈ s.downloads) (i : ℕ) :
    s.holders i = s.otherHolders d i + if (s.single d).have_.get i then 1 else 0 := by
  rw [holders, (List.perm_cons_erase mem).countP_eq, List.countP_cons]
  rfl

theorem otherHolders_congr (nodup : s.downloads.Nodup) (downloads : s'.downloads = s.downloads)
    (same : ∀ e, e ≠ d → (s'.single e).have_ = (s.single e).have_) (i : ℕ) :
    s'.otherHolders d i = s.otherHolders d i := by
  rw [otherHolders, otherHolders, downloads]
  refine List.countP_congr fun e mem => ?_
  rw [same e (nodup.mem_erase_iff.1 mem).1]

/-- A download that is no longer there. -/
theorem Sane.disconnected (sane : Sane sha s) (mem : d ∈ s.downloads) :
    ∃ s', s.disconnected d = some s' ∧ Sane sha s' := by
  have base := sane.base
  have fit := base.fit d mem
  obtain ⟨p, step, tidy, pieces, counts⟩ := forPieces_eq (f := PiecePicker.lost_have) (g := (· - 1))
    (s := { s with downloads := s.downloads.erase d }) (b := (s.single d).have_) base.tidy
    fun p i tidy pieces less has same => by
      have less' : i < s.numpieces := fit.size ▸ less
      obtain ⟨q, lost, tidy', frame⟩ := tidy.lost_have (x := i)
        (by rw [pieces]; exact base.pieces.symm ▸ less') (fun none_ => by
          rw [same] at none_
          have counted := base.counts i less'
          rw [none_, holders_split mem, has, if_pos rfl] at counted
          split_ifs at counted
          cases counted) (base.fair i)
      exact ⟨q, lost, tidy', by rw [frame], by rw [frame]⟩
  generalize hs₁ : (({ s with downloads := s.downloads.erase d, picker := p } : Downloader δ).drawn
    (s.single d).have_.length) = s₁ at step
  have frame : s₁.single = s.single ∧ s₁.downloads = s.downloads.erase d ∧ s₁.storage = s.storage ∧
      s₁.all_requests = s.all_requests ∧ s₁.numpieces = s.numpieces := by
    rw [← hs₁]
    exact ⟨rfl, rfl, rfl, rfl, rfl⟩
  obtain ⟨single, downloads, storage, all, numpieces⟩ := frame
  have still : ∀ e ∈ s₁.downloads, e ∈ s.downloads ∧ (s₁.clear d).single e = s.single e := by
    intro e there
    rw [downloads] at there
    obtain ⟨ne, there⟩ := base.nodup.mem_erase_iff.1 there
    exact ⟨there, (Function.update_of_ne ne ..).trans (congrFun single e)⟩
  have base₁ : Base (s₁.clear d) := by
    refine ⟨?_, fun e there => ?_, ?_, ?_, ?_, fun i less => ?_, ?_, ?_, ?_⟩
    · change s₁.downloads.Nodup
      rw [downloads]
      exact base.nodup.erase d
    · obtain ⟨there, same⟩ := still e there
      rw [same, ← hs₁]
      exact base.fit e there
    · rw [← hs₁]
      exact tidy
    · rw [← hs₁]
      exact pieces.trans base.pieces
    · rw [← hs₁]
      exact base.hashes
    · have less : i < s.numpieces := numpieces ▸ less
      have others : (s₁.clear d).holders i = s.otherHolders d i := by
        change s₁.downloads.countP _ = _
        rw [otherHolders, ← downloads]
        refine List.countP_congr fun e there => ?_
        rw [(still e there).2]
      rw [others]
      have counted := counts i (fit.size.symm ▸ less)
      change s₁.picker.numinterests i = if s₁.storage.have_ i = true then _ else _
      rw [storage, ← hs₁]
      refine counted.trans ?_
      change (if _ then (s.picker.numinterests i).map _ else s.picker.numinterests i) = _
      rw [base.counts i less, holders_split mem]
      by_cases got : s.storage.have_ i = true
      · rw [if_pos got, if_pos got, Option.map_none, ite_self]
      · rw [if_neg got, if_neg got]
        by_cases has : (s.single d).have_.get i = true
        · rw [if_pos has, if_pos has]
          rfl
        · rw [if_neg has, if_neg has]
          rfl
    · change ∀ e i b n, (e, Message.request i b n) ∈ s₁.sent → i < s₁.numpieces ∧
        (b, n) ∈ s₁.storage.blocks i
      rw [← hs₁]
      exact base.asked
    · rw [← hs₁]
      exact fun k => base.fair ((s.single d).have_.length + k)
    · change s₁.downloads.length < _
      rw [downloads]
      exact (List.length_erase_le ..).trans_lt base.few
  have leaving : Leaving sha d s₁ := by
    rcases sane with ⟨off, early⟩ | late
    · refine .inl ⟨storage ▸ off, base₁, ?_⟩
      rw [storage, single]
      refine early.good.perm ((actives_split mem).trans (List.Perm.append_left _ (.of_eq ?_)))
      rw [others, ← downloads]
      exact List.flatMap_congr fun e there => by rw [(still e there).2]
    · refine .inr ⟨base₁, ?_, ?_, fun e there => ?_⟩
      · exact storage.symm ▸ late.on
      · change s₁.storage.Good sha s₁.all_requests
        rw [storage, all]
        exact late.good
      · obtain ⟨there, same⟩ := still e there
        change _ ⊆ s₁.all_requests
        rw [same, all]
        exact late.within e there
  obtain ⟨s', last, sane', -⟩ := leaving.letgo
  refine ⟨s', ?_, sane'⟩
  rw [Downloader.disconnected, step, Option.bind_some, last]

/-- A peer has more pieces than before. -/
theorem Base.learn (base : Base s) (mem : d ∈ s.downloads) {b : Bitfield} {p : PiecePicker}
    (size : b.length = s.numpieces) (more : ∀ i, (s.single d).have_.get i = true → b.get i = true)
    (tidy : p.Tidy) (pieces : p.numpieces = s.picker.numpieces)
    (counts : ∀ i, i < s.numpieces → p.numinterests i =
      if b.get i = true ∧ (s.single d).have_.get i = false then (s.picker.numinterests i).map (· + 1)
      else s.picker.numinterests i) :
    Base (s.learn d b p) := by
  generalize hs₁ : s.learn d b p = s₁
  have self : s₁.single d = { s.single d with have_ := b } := by
    rw [← hs₁]
    exact Function.update_self ..
  have rest : ∀ e, e ≠ d → s₁.single e = s.single e := fun e ne => by
    rw [← hs₁]
    exact Function.update_of_ne ne ..
  have frame : s₁.downloads = s.downloads ∧ s₁.storage = s.storage ∧ s₁.picker = p ∧
      s₁.backlog = s.backlog ∧ s₁.numpieces = s.numpieces ∧ s₁.sent = s.sent ∧
      s₁.randrange = s.randrange := by
    rw [← hs₁]
    exact ⟨rfl, rfl, rfl, rfl, rfl, rfl, rfl⟩
  clear hs₁
  obtain ⟨downloads, storage, picker, backlog, numpieces, sent, randrange⟩ := frame
  refine ⟨downloads.symm ▸ base.nodup, fun e there => ?_, picker.symm ▸ tidy, ?_, ?_, fun i less => ?_,
    ?_, randrange.symm ▸ base.fair, downloads.symm ▸ base.few⟩
  · rw [downloads] at there
    have fit := base.fit e there
    rw [backlog, numpieces, sentTo, sent]
    by_cases here : e = d
    · subst here
      rw [self]
      exact ⟨fit.idle, fit.eager, fit.room, fit.nodup, size, fun r mem => more _ (fit.has r mem),
        fit.told⟩
    · rw [rest e here]
      exact fit
  · rw [picker, numpieces]
    exact pieces.trans base.pieces
  · rw [storage, numpieces]
    exact base.hashes
  · rw [numpieces] at less
    rw [picker, storage, counts i less, base.counts i less, holders_split (s := s₁) (d := d) (downloads.symm ▸ mem),
      otherHolders_congr base.nodup downloads (fun e ne => by rw [rest e ne]), self, holders_split mem]
    by_cases got : s.storage.have_ i = true
    · rw [if_pos got, if_pos got, Option.map_none, ite_self]
    · rw [if_neg got, if_neg got]
      cases has : (s.single d).have_.get i with
      | true =>
        rw [if_neg fun h => Bool.noConfusion h.2]
        rw [more i has]
      | false =>
        cases now : b.get i with
        | true => rw [if_pos ⟨rfl, rfl⟩]; rfl
        | false => rw [if_neg fun h => Bool.noConfusion h.1]
  · rw [sent, storage, numpieces]
    exact base.asked

theorem Sane.learn (sane : Sane sha s) (mem : d ∈ s.downloads) {b : Bitfield} {p : PiecePicker}
    (size : b.length = s.numpieces) (more : ∀ i, (s.single d).have_.get i = true → b.get i = true)
    (tidy : p.Tidy) (pieces : p.numpieces = s.picker.numpieces)
    (counts : ∀ i, i < s.numpieces → p.numinterests i =
      if b.get i = true ∧ (s.single d).have_.get i = false then (s.picker.numinterests i).map (· + 1)
      else s.picker.numinterests i) :
    Sane sha (s.learn d b p) := by
  have base := sane.base.learn mem size more tidy pieces counts
  have same : ∀ e, ((s.learn d b p).single e).active_requests = (s.single e).active_requests := by
    intro e
    by_cases here : e = d
    · change ((s.change d fun x => { x with have_ := b }).single e).active_requests = _
      rw [here, change_eq, single_tell_self]
    · change ((s.change d fun x => { x with have_ := b }).single e).active_requests = _
      rw [change_eq, single_tell_ne here]
  rcases sane with ⟨off, early⟩ | late
  · refine .inl ⟨off, base, ?_⟩
    rw [actives_congr (show (s.learn d b p).downloads = s.downloads from rfl) same]
    exact early.good
  · exact .inr ⟨base, late.on, late.good, fun e there => by
      rw [same e]
      exact late.within e there⟩

theorem get_set {b : Bitfield} {i : ℕ} (there : i < b.length) (v : Bool) (j : ℕ) :
    (b.set i v there).get j = if j = i then v else b.get j := by
  rw [Bitfield.get, Bitfield.get, Bitfield.set, List.getD_eq_getElem?_getD, List.getD_eq_getElem?_getD]
  dsimp only
  by_cases here : j = i
  · rw [if_pos here, here, List.getElem?_set_self (b.sized ▸ there)]
    rfl
  · rw [if_neg here, List.getElem?_set_ne (Ne.symm here)]

theorem Sane.close (sane : Sane sha s) (d : ℕ) : Sane sha (s.close d) := by
  have same (base : Base s) : Base (s.close d) :=
    ⟨base.nodup, base.fit, base.tidy, base.pieces, base.hashes, base.counts, base.asked, base.fair,
      base.few⟩
  rcases sane with ⟨off, early⟩ | late
  · exact .inl ⟨off, same early.toBase, early.good⟩
  · exact .inr ⟨same late.toBase, late.on, late.good, late.within⟩

theorem Sane.afterHave (sane : Sane sha s) (mem : d ∈ s.downloads) :
    ∃ s', s.afterHave d index = some s' ∧ Sane sha s' := by
  rw [Downloader.afterHave]
  split_ifs with full on asks choked eager
  · exact ⟨_, rfl, sane.close d⟩
  · exact ⟨_, rfl, .inr ((sane.late on).fix mem).1⟩
  · exact ⟨_, rfl, sane⟩
  · exact ⟨_, rfl, sane.beInterested mem⟩
  · obtain ⟨s', more, sane', -⟩ := sane.request_more mem (Bool.eq_false_iff.2 choked) (some [index])
    exact ⟨s', more, sane'⟩
  · exact ⟨_, rfl, sane⟩

theorem Sane.got_have (sane : Sane sha s) (mem : d ∈ s.downloads) (less : index < s.numpieces) :
    ∃ s', s.got_have d index = some s' ∧ Sane sha s' := by
  have base := sane.base
  have size := (base.fit d mem).size
  have there : index < (s.single d).have_.length := size.symm ▸ less
  rw [Downloader.got_have, dif_pos there]
  split_ifs with has
  · exact ⟨s, rfl, sane⟩
  · obtain ⟨p, step, tidy, frame⟩ := base.tidy.got_have (x := index) (base.pieces.symm ▸ less)
      (base.fair 0)
    have counts : p.numinterests = Function.update s.picker.numinterests index
        ((s.picker.numinterests index).map (· + 1)) := by rw [frame]
    have sane₁ := sane.learn mem (b := (s.single d).have_.set index true there) (p := p) size
      (fun i => by
        rw [get_set]
        split_ifs
        · exact fun _ => rfl
        · exact id) tidy (by rw [frame]) fun i _ => by
        rw [counts, get_set]
        by_cases here : i = index
        · rw [here, if_pos rfl, if_pos ⟨rfl, Bool.eq_false_iff.2 has⟩, Function.update_self]
        · rw [if_neg here, Function.update_of_ne here, if_neg fun h => by
            rw [h.1] at h
            exact Bool.noConfusion h.2]
    rw [step, Option.bind_some]
    exact (sane₁.drawn 1).afterHave mem

/-- The first message of a peer may say what it has. -/
theorem Sane.got_have_bitfield (sane : Sane sha s) (mem : d ∈ s.downloads) {b : Bitfield}
    (size : b.length = s.numpieces) (first : ∀ i, (s.single d).have_.get i = false) :
    ∃ s', s.got_have_bitfield d b = some s' ∧ Sane sha s' := by
  have base := sane.base
  obtain ⟨p, step, tidy, pieces, counts⟩ := forPieces_eq (f := PiecePicker.got_have) (g := (· + 1))
    (s := s.learn d b s.picker) (b := b) base.tidy
    fun p i tidy pieces less _ _ => by
      obtain ⟨q, told, tidy', frame⟩ := tidy.got_have (x := i)
        (by rw [pieces]; exact base.pieces.symm ▸ size ▸ less) (base.fair i)
      exact ⟨q, told, tidy', by rw [frame], by rw [frame]⟩
  have sane₁ : Sane sha ((s.learn d b p).drawn b.length) := (sane.learn mem (b := b) (p := p) size
    (fun i has => absurd (has.symm.trans (first i)) (Bool.false_ne_true ·.symm)) tidy pieces
    fun i less => by
      rw [counts i (size.symm ▸ less), first i]
      exact if_congr ⟨fun h => ⟨h, rfl⟩, And.left⟩ rfl rfl).drawn b.length
  rw [Downloader.got_have_bitfield, step, Option.map_some]
  refine ⟨_, rfl, ?_⟩
  split_ifs
  · exact sane₁.close d
  · exact sane₁.beInterested mem
  · exact sane₁.beInterested mem
  · exact sane₁

end Ydfs.BitTorrent.Downloader
