import Ydfs.BitTorrent.PieceRuns

/-!
# The pieces that are in the file at the beginning

Each place that is in the file is read, and what is there is taken for the piece with that hash, be it
the piece of the place or another one.  What comes of this is sound: every piece is taken once, and one
that is taken has its hash (`init_good`).
-/

namespace Ydfs.BitTorrent.StorageWrapper

open FilePlaces
open Wubi.Sax (Text)

variable {δ : Type} {sha : Text → δ} {check : Bool} {v w : StorageWrapper δ}
  {targets : δ → List ℕ} {i p q : ℕ}

/-- What is so when the places below `i` have been read; `v` is the wrapper at the beginning. -/
structure Scanned (sha : Text → δ) (check : Bool) (v : StorageWrapper δ) (i : ℕ)
    (w : StorageWrapper δ) (targets : δ → List ℕ) : Prop where
  frame : w = { v with
    amount_left := w.amount_left
    inactive_requests := w.inactive_requests
    amount_inactive := w.amount_inactive
    have_ := w.have_
    waschecked := w.waschecked
    places := w.places
    holes := w.holes }
  holes : w.holes = (List.range i).filter fun q => !v.waspre q
  place : ∀ p q, w.places p = some q → p < v.hashes.length ∧ q < i ∧ v.waspre q = true ∧
    (q ≠ p → v.waspre p = false) ∧ v.piecelen p ≤ v.piecelen q
  inj : ∀ p p' q, w.places p = some q → w.places p' = some q → p = p'
  cover : ∀ q, q < i → v.waspre q = true → ∃ p, w.places p = some q
  open_ : ∀ p, w.have_ p = false → w.inactive_requests p = .all
  checked : ∀ p, w.waschecked p = check
  got : ∀ p, w.have_ p = true → w.inactive_requests p = .none ∧
    (check = false → w.places p = some p) ∧ (check = true → Right sha w p)
  left : w.amount_left = ∑ p ∈ Finset.range v.hashes.length, (w.lacking p : ℤ)
  inactive : w.amount_inactive = w.amount_left
  nodup : ∀ d, (targets d).Nodup
  target : ∀ d t, t ∈ targets d → t < v.hashes.length ∧ v.waspre t = false ∧ v.hashes[t]? = some d
  /-- A piece that is looked for is nowhere, unless it is the last one and short. -/
  nowhere : ∀ d t, t ∈ targets d → w.places t = none ∨
    t + 1 = v.hashes.length ∧ v.piecelen t < v.piece_size
  /-- The last piece is looked for as long as it is not there. -/
  last : v.waspre (v.hashes.length - 1) = false → w.have_ (v.hashes.length - 1) = false →
    ∀ d, v.hashes[v.hashes.length - 1]? = some d → v.hashes.length - 1 ∈ targets d
  /-- A place that is not taken for any piece is that of its own one. -/
  idle : ∀ p q, w.places p = some q → w.have_ p = false → p < i ∧ v.waspre p = true

namespace Scanned

variable (scanned : Scanned sha check v i w targets)

include scanned

theorem piecelen : w.piecelen = v.piecelen := by
  rw [scanned.frame]
  rfl

theorem waspre : w.waspre = v.waspre := by
  rw [scanned.frame]
  rfl

theorem hashes : w.hashes = v.hashes := by rw [scanned.frame]

theorem piece_size : w.piece_size = v.piece_size := by rw [scanned.frame]

theorem storage : w.storage = v.storage := by rw [scanned.frame]

theorem held (got : w.have_ p = true) : ∃ q, w.places p = some q := by
  cases check with
  | false => exact ⟨p, (scanned.got p got).2.1 rfl⟩
  | true =>
    obtain ⟨q, there, -⟩ := (scanned.got p got).2.2 rfl
    exact ⟨q, there⟩

/-- A piece of the file that has not been reached has no place. -/
theorem unplaced (pre : v.waspre p = true) (le : i ≤ p) : w.places p = none := by
  cases there : w.places p with
  | none => rfl
  | some q =>
    obtain ⟨-, less, -, away, -⟩ := scanned.place p q there
    by_cases same : q = p
    · omega
    · rw [away same] at pre
      cases pre

theorem lacks (nowhere : w.places p = none) : w.have_ p = false := by
  cases got : w.have_ p with
  | false => rfl
  | true =>
    obtain ⟨q, there⟩ := scanned.held got
    cases nowhere.symm.trans there

theorem calls (none : v.calls = []) : w.calls = [] := by
  rw [scanned.frame]
  exact none

/-- No block is taken for itself before there are requests. -/
theorem not_begun (p : ℕ) (l : List (ℕ × ℕ)) : w.inactive_requests p ≠ .blocks l := by
  cases got : w.have_ p with
  | false =>
    rw [scanned.open_ p got]
    exact Inactive.noConfusion
  | true =>
    rw [(scanned.got p got).1]
    exact Inactive.noConfusion

/-- The place of `i` is taken for a piece. -/
theorem mark {targets' : δ → List ℕ} (pre : v.waspre i = true) (lt : p < v.hashes.length)
    (nowhere : w.places p = none) (away : i ≠ p → v.waspre p = false)
    (fits : v.piecelen p ≤ v.piecelen i) (home : check = false → i = p)
    (hash : check = true → some (sha (w.readPlace i (v.piecelen p))) = v.hashes[p]?)
    (sub : ∀ d, (targets' d).Sublist (targets d))
    (gone : ∀ d, p ∈ targets' d → p + 1 = v.hashes.length ∧ v.piecelen p < v.piece_size)
    (rest : ∀ d t, t ∈ targets d → t ≠ p → t ∈ targets' d) :
    Scanned sha check v (i + 1) (w.markgot check p i) targets' := by
  have lacks := scanned.lacks nowhere
  have places : ∀ p', p' ≠ p → Function.update w.places p (some i) p' = w.places p' := fun p' ne =>
    Function.update_of_ne ne ..
  have here : Function.update w.places p (some i) p = some i := Function.update_self ..
  have size := scanned.piecelen
  refine ⟨?_, ?_, fun p' q there => ?_, fun p' p'' q there there' => ?_, fun q less pre' => ?_,
    fun p' no => ?_, fun p' => ?_, fun p' yes => ?_, ?_, ?_, fun d => (scanned.nodup d).sublist (sub d),
    fun d t mem => scanned.target d t ((sub d).subset mem), fun d t mem => ?_, fun pre' no d hd => ?_,
    fun p' q there no => ?_⟩
  · rw [markgot, StorageWrapper.place, scanned.frame]
  · rw [List.range_succ, List.filter_append, ← scanned.holes]
    simp [pre, markgot, StorageWrapper.place]
  · by_cases same : p' = p
    · subst same
      obtain rfl := Option.some.inj (here.symm.trans there)
      exact ⟨lt, Nat.lt_succ_self _, pre, away, fits⟩
    · obtain ⟨a, b, c⟩ := scanned.place p' q ((places p' same).symm.trans there)
      exact ⟨a, by omega, c⟩
  · by_cases same : p' = p <;> by_cases same' : p'' = p
    · rw [same, same']
    · subst same
      obtain rfl := Option.some.inj (here.symm.trans there)
      have := (scanned.place p'' _ ((places p'' same').symm.trans there')).2.1
      omega
    · subst same'
      obtain rfl := Option.some.inj (here.symm.trans there')
      have := (scanned.place p' _ ((places p' same).symm.trans there)).2.1
      omega
    · exact scanned.inj p' p'' q ((places p' same).symm.trans there)
        ((places p'' same').symm.trans there')
  · by_cases new : q = i
    · exact ⟨p, new ▸ here⟩
    · obtain ⟨p', there⟩ := scanned.cover q (by omega) pre'
      refine ⟨p', (places p' ?_).trans there⟩
      rintro rfl
      cases nowhere.symm.trans there
  · have ne : p' ≠ p := by
      rintro rfl
      change Function.update w.have_ p' true p' = false at no
      rw [Function.update_self] at no
      cases no
    change Function.update w.have_ p true p' = false at no
    rw [Function.update_of_ne ne] at no
    exact (Function.update_of_ne ne ..).trans (scanned.open_ p' no)
  · change Function.update w.waschecked p check p' = check
    rw [Function.update_apply, scanned.checked, ite_self]
  · by_cases same : p' = p
    · subst same
      refine ⟨Function.update_self .., fun off => (home off) ▸ here,
        fun on => ⟨i, here, ?_⟩⟩
      change some (sha (w.readPlace i (w.piecelen p'))) = w.hashes[p']?
      rw [size, scanned.hashes]
      exact hash on
    · change Function.update w.have_ p true p' = true at yes
      rw [Function.update_of_ne same] at yes
      obtain ⟨a, c, d⟩ := scanned.got p' yes
      refine ⟨(Function.update_of_ne same ..).trans a,
        fun off => (places p' same).trans (c off), fun on => ?_⟩
      obtain ⟨q, there, right⟩ := d on
      exact ⟨q, (places p' same).trans there, right⟩
  · change w.amount_left - (w.piecelen p : ℤ) = _
    have sum := sum_update (f := fun q => (w.lacking q : ℤ))
      (g := fun q => ((w.markgot check p i).lacking q : ℤ)) lt fun q ne => by
        rw [lacking, lacking, show (w.markgot check p i).have_ q = w.have_ q from
          Function.update_of_ne ne ..]
        rfl
    have none : (w.markgot check p i).lacking p = 0 := if_pos (Function.update_self ..)
    have some : w.lacking p = w.piecelen p := by
      rw [lacking, lacks]
      exact if_neg Bool.false_ne_true
    rw [scanned.left, sum, none, some]
    exact (add_zero _).symm
  · change w.amount_inactive - (w.piecelen p : ℤ) = w.amount_left - (w.piecelen p : ℤ)
    rw [scanned.inactive]
  · by_cases same : t = p
    · exact .inr (same ▸ gone d (same ▸ mem))
    · exact (scanned.nowhere d t ((sub d).subset mem)).imp_left fun e => (places t same).trans e
  · have ne : v.hashes.length - 1 ≠ p := by
      intro same
      change Function.update w.have_ p true _ = false at no
      rw [same, Function.update_self] at no
      cases no
    change Function.update w.have_ p true _ = false at no
    rw [Function.update_of_ne ne] at no
    exact rest d _ (scanned.last pre' no d hd) ne
  · have ne : p' ≠ p := by
      rintro rfl
      change Function.update w.have_ p' true p' = false at no
      rw [Function.update_self] at no
      cases no
    change Function.update w.have_ p true p' = false at no
    rw [Function.update_of_ne ne] at no
    have := scanned.idle p' q ((places p' ne).symm.trans there) no
    exact ⟨by omega, this.2⟩

/-- The place of `i` is not in the file. -/
theorem hole (pre : v.waspre i = false) :
    Scanned sha check v (i + 1) { w with holes := w.holes ++ [i] } targets := by
  refine ⟨?_, ?_, fun p q there => ?_, scanned.inj, fun q less pre' => ?_, scanned.open_,
    scanned.checked, scanned.got,
    scanned.left, scanned.inactive, scanned.nodup, scanned.target, scanned.nowhere, scanned.last,
    fun p q there no => ?_⟩
  · rw [scanned.frame]
  · rw [List.range_succ, List.filter_append, ← scanned.holes]
    simp [pre]
  · obtain ⟨a, b, c⟩ := scanned.place p q there
    exact ⟨a, by omega, c⟩
  · refine scanned.cover q (lt_of_le_of_ne (by omega) ?_) pre'
    rintro rfl
    rw [pre] at pre'
    cases pre'
  · have := scanned.idle p q there no
    exact ⟨by omega, this.2⟩

/-- What is at the place of `i` is of no use. -/
theorem keep (pre : v.waspre i = true) (lt : i < v.hashes.length) :
    Scanned sha check v (i + 1) (w.place i i) targets := by
  have nowhere := scanned.unplaced pre le_rfl
  have lacks := scanned.lacks nowhere
  have places : ∀ p', p' ≠ i → Function.update w.places i (some i) p' = w.places p' := fun p' ne =>
    Function.update_of_ne ne ..
  have here : Function.update w.places i (some i) i = some i := Function.update_self ..
  refine ⟨?_, ?_, fun p' q there => ?_, fun p' p'' q there there' => ?_, fun q less pre' => ?_,
    scanned.open_, scanned.checked, fun p' yes => ?_, scanned.left, scanned.inactive, scanned.nodup, scanned.target,
    fun d t mem => ?_, scanned.last, fun p' q there no => ?_⟩
  · rw [StorageWrapper.place, scanned.frame]
  · rw [List.range_succ, List.filter_append, ← scanned.holes]
    simp [pre, StorageWrapper.place]
  · by_cases same : p' = i
    · subst same
      obtain rfl := Option.some.inj (here.symm.trans there)
      exact ⟨lt, Nat.lt_succ_self _, pre, fun ne => absurd rfl ne, le_rfl⟩
    · obtain ⟨a, b, c⟩ := scanned.place p' q ((places p' same).symm.trans there)
      exact ⟨a, by omega, c⟩
  · by_cases same : p' = i <;> by_cases same' : p'' = i
    · rw [same, same']
    · subst same
      obtain rfl := Option.some.inj (here.symm.trans there)
      have := (scanned.place p'' _ ((places p'' same').symm.trans there')).2.1
      omega
    · subst same'
      obtain rfl := Option.some.inj (here.symm.trans there')
      have := (scanned.place p' _ ((places p' same).symm.trans there)).2.1
      omega
    · exact scanned.inj p' p'' q ((places p' same).symm.trans there)
        ((places p'' same').symm.trans there')
  · by_cases new : q = i
    · exact ⟨i, new ▸ here⟩
    · obtain ⟨p', there⟩ := scanned.cover q (by omega) pre'
      refine ⟨p', (places p' ?_).trans there⟩
      rintro rfl
      cases nowhere.symm.trans there
  · have ne : p' ≠ i := by
      rintro rfl
      rw [show (w.place p' p').have_ p' = w.have_ p' from rfl, lacks] at yes
      cases yes
    obtain ⟨a, c, d⟩ := scanned.got p' yes
    refine ⟨a, fun off => (places p' ne).trans (c off), fun on => ?_⟩
    obtain ⟨q, there, right⟩ := d on
    exact ⟨q, (places p' ne).trans there, right⟩
  · have ne : t ≠ i := by
      rintro rfl
      rw [(scanned.target d t mem).2.1] at pre
      cases pre
    exact (scanned.nowhere d t mem).imp_left fun e => (places t ne).trans e
  · by_cases same : p' = i
    · exact ⟨by omega, same ▸ pre⟩
    · have := scanned.idle p' q ((places p' same).symm.trans there) no
      exact ⟨by omega, this.2⟩

end Scanned

/-! ### One place -/

/-- The two parts that a place is read in are what is there. -/
theorem readPlace_append (sized : Sized v) (lt : i < v.hashes.length) (full : v.Full i) {a : ℕ}
    (inside : a ≤ v.piecelen i) :
    v.readPlace i a ++ v.storage.read (v.piece_size * i + a) (v.piecelen i - a) =
      v.readPlace i (v.piecelen i) := by
  have room := sized.place_le lt
  have total := sized.total
  have cells : ∀ pos m, v.piece_size * i ≤ pos → pos + m ≤ v.piece_size * i + v.piecelen i →
      (v.storage.read pos m).map some = (List.range' pos m).map v.storage.cell := by
    intro pos m low high
    refine Storage.read_cell sized.whole pos m (by omega) fun k above below => ?_
    have := full (k - v.piece_size * i) (by omega)
    rwa [cellAt, Nat.add_sub_cancel' (by omega)] at this
  apply List.map_injective_iff.2 (Option.some_injective _)
  rw [List.map_append, readPlace, readPlace, cells _ _ le_rfl (by omega), cells _ _ (by omega) (by omega),
    cells _ _ le_rfl le_rfl, ← List.map_append, List.range'_append_1, Nat.add_sub_cancel' inside]

theorem Scanned.readPlace (scanned : Scanned sha check v i w targets) (q m : ℕ) :
    w.readPlace q m = v.readPlace q m := by
  rw [StorageWrapper.readPlace, scanned.storage, scanned.piece_size]
  rfl

/-- The piece that is looked for, if it has the length of the place. -/
theorem wanted_eq_some {s : δ} {t : ℕ} (h : w.wanted targets i s = some t) :
    (targets s).getLast? = some t ∧ w.piecelen i = w.piecelen t := by
  obtain ⟨found, same⟩ := Option.filter_eq_some_iff.1 h
  exact ⟨found, of_decide_eq_true same⟩

/-- What is at a place is taken for a piece with its hash. -/
theorem Scanned.identify [DecidableEq δ] (scanned : Scanned sha true v i w targets) (sized : Sized v)
    (pre : v.waspre i = true) (lt : i < v.hashes.length) {sp s : δ}
    (hsp : sp = sha (w.readPlace i (v.piecelen (v.hashes.length - 1))))
    (hs : s = sha (w.readPlace i (v.piecelen i))) :
    Scanned sha true v (i + 1) (w.identify true targets i sp s).1
      (w.identify true targets i sp s).2 := by
  have len : ∀ p, w.piecelen p = v.piecelen p := fun p => congrFun scanned.piecelen p
  have hashes := scanned.hashes
  have count := sized.many
  have long : ∀ p, p + 1 < v.hashes.length → v.piecelen p = v.piece_size := fun p inner => if_pos inner
  rw [StorageWrapper.identify]
  by_cases own : some s = w.hashes[i]?
  · rw [if_pos own]
    exact scanned.mark pre lt (scanned.unplaced pre le_rfl) (fun ne => absurd rfl ne) le_rfl
      (fun _ => rfl) (fun _ => by rw [← hs, own, hashes]) (fun d => List.Sublist.refl _)
      (fun d mem => by rw [(scanned.target d i mem).2.1] at pre; cases pre) fun d t mem _ => mem
  · rw [if_neg own]
    cases found : w.wanted targets i s with
    | some t =>
      obtain ⟨at_, size⟩ := wanted_eq_some found
      obtain ⟨front, split⟩ := List.getLast?_eq_some_iff.1 at_
      have mem : t ∈ targets s := by simp [split]
      obtain ⟨lt_t, off, hash⟩ := scanned.target s t mem
      rw [len, len] at size
      have new : t ∉ front := by
        have nodup := scanned.nodup s
        rw [split] at nodup
        exact fun old => (List.nodup_append.1 nodup).2.2 t old t List.mem_cons_self rfl
      have front_eq : (targets s).dropLast = front := by rw [split, List.dropLast_concat]
      have ne : i ≠ t := by
        rintro rfl
        rw [off] at pre
        cases pre
      have nowhere : w.places t = none := by
        rcases scanned.nowhere s t mem with none | ⟨end_, short⟩
        · exact none
        · have := long i (by omega)
          omega
      have sub : ∀ d, (Function.update targets s (targets s).dropLast d).Sublist (targets d) := by
        intro d
        by_cases e : d = s
        · rw [e, Function.update_self]
          exact List.dropLast_sublist _
        · rw [Function.update_of_ne e]
      dsimp only
      refine scanned.mark pre lt_t nowhere (fun _ => off) size.ge (fun e => by cases e)
        (fun _ => by rw [← size, ← hs, hash]) sub (fun d mem' => ?_) (fun d u mem' ne' => ?_)
      · by_cases e : d = s
        · rw [e, Function.update_self, front_eq] at mem'
          exact absurd mem' new
        · rw [Function.update_of_ne e] at mem'
          have := (scanned.target d t mem').2.2
          exact absurd (Option.some.inj (this.symm.trans hash)) e
      · by_cases e : d = s
        · rw [e] at mem' ⊢
          rw [Function.update_self, front_eq]
          rw [split] at mem'
          rcases List.mem_append.1 mem' with old | last
          · exact old
          · exact absurd (List.mem_singleton.1 last) ne'
        · rw [Function.update_of_ne e]
          exact mem'
    | none =>
      dsimp only
      by_cases end_ : w.have_ (w.hashes.length - 1) = false ∧
          some sp = w.hashes[w.hashes.length - 1]? ∧
            (i = w.hashes.length - 1 ∨ w.waspre (w.hashes.length - 1) = false)
      · rw [if_pos end_]
        rw [hashes, scanned.waspre] at end_
        rw [hashes]
        obtain ⟨no, hash, which⟩ := end_
        have nowhere : w.places (v.hashes.length - 1) = none := by
          cases there : w.places (v.hashes.length - 1) with
          | none => rfl
          | some q =>
            have := (scanned.idle _ q there no).1
            omega
        have fits : v.piecelen (v.hashes.length - 1) ≤ v.piecelen i := by
          by_cases inner : i + 1 < v.hashes.length
          · rw [long i inner]
            exact sized.piecelen_le
          · rw [show v.hashes.length - 1 = i by omega]
        refine scanned.mark pre (by omega) nowhere (fun ne => which.resolve_left ne) fits
          (fun e => by cases e) (fun _ => by rw [← hsp, hash]) (fun d => List.Sublist.refl _)
          (fun d mem => ⟨by omega, ?_⟩) fun d t mem _ => mem
        -- if the last piece were long, one of its hash would have been found before
        by_contra short
        have le := sized.piecelen_le (p := v.hashes.length - 1)
        obtain ⟨-, off, hash'⟩ := scanned.target d _ mem
        have inner : i + 1 < v.hashes.length := by
          by_contra out
          rw [show v.hashes.length - 1 = i by omega, pre] at off
          cases off
        have size : v.piecelen (v.hashes.length - 1) = v.piecelen i := by
          rw [long i inner]
          omega
        have same : d = s := by
          rw [hs, ← size, ← hsp]
          exact Option.some.inj (hash'.symm.trans hash.symm)
        obtain ⟨t, found'⟩ := List.getLast?_isSome.2 (List.ne_nil_of_mem (same ▸ mem)) |>
          Option.isSome_iff_exists.1
        have lt_t := (scanned.target s t (List.mem_of_getLast? found')).1
        have size_t : v.piecelen i = v.piecelen t := by
          by_cases inner_t : t + 1 < v.hashes.length
          · rw [long i inner, long t inner_t]
          · rw [← size, show v.hashes.length - 1 = t by omega]
        rw [wanted, found', Option.filter_some, if_pos (by simp [len, size_t])] at found
        cases found
      · rw [if_neg end_]
        exact scanned.keep pre lt

/-- One place is read. -/
theorem Scanned.step [DecidableEq δ] (scanned : Scanned sha check v i w targets) (sized : Sized v)
    (lt : i < v.hashes.length) (full : v.waspre i = true → v.Full i) :
    Scanned sha check v (i + 1) (checkPlace sha check (w, targets) i).1
      (checkPlace sha check (w, targets) i).2 := by
  have len : ∀ p, w.piecelen p = v.piecelen p := fun p => congrFun scanned.piecelen p
  rw [checkPlace]
  dsimp only
  by_cases pre : v.waspre i = true
  · rw [if_neg (by rw [scanned.waspre, pre]; exact nofun)]
    cases check with
    | false =>
      rw [if_pos rfl]
      exact scanned.mark pre lt (scanned.unplaced pre le_rfl) (fun ne => absurd rfl ne) le_rfl
        (fun _ => rfl) (fun e => by cases e) (fun d => List.Sublist.refl _)
        (fun d mem => by rw [(scanned.target d i mem).2.1] at pre; cases pre) fun d t mem _ => mem
    | true =>
      rw [if_neg (by decide)]
      refine scanned.identify sized pre lt (by rw [scanned.hashes, len]) ?_
      have last_le : v.piecelen (v.hashes.length - 1) ≤ v.piecelen i := by
        by_cases inner : i + 1 < v.hashes.length
        · rw [show v.piecelen i = v.piece_size from if_pos inner]
          exact sized.piecelen_le
        · rw [show v.hashes.length - 1 = i by omega]
      rw [scanned.hashes, len, len, scanned.readPlace, scanned.readPlace, scanned.storage,
        scanned.piece_size, readPlace_append sized lt (full pre) last_le]
  · have off : v.waspre i = false := by simpa using pre
    rw [if_pos (by rw [scanned.waspre, off])]
    exact scanned.hole off

/-! ### All places -/

/-- The pieces are the whole file. -/
theorem Sized.sum_piecelen (sized : Sized v) :
    ∑ p ∈ Finset.range v.hashes.length, v.piecelen p = v.total_length := by
  have low := sized.low
  obtain ⟨n, count⟩ := Nat.exists_eq_succ_of_ne_zero sized.many.ne'
  have front : ∑ p ∈ Finset.range n, v.piecelen p = n * v.piece_size := by
    have long : ∀ p ∈ Finset.range n, v.piecelen p = v.piece_size := fun p mem => by
      have := Finset.mem_range.1 mem
      exact if_pos (by omega)
    rw [Finset.sum_const_nat long, Finset.card_range]
  have last : v.piecelen n = v.total_length - n * v.piece_size := if_neg (by omega)
  rw [count, Nat.succ_sub_one, Nat.mul_comm] at low
  rw [count, Finset.sum_range_succ, front, last]
  omega

/-- All places have been read. -/
theorem Scanned.sound {targets : δ → List ℕ} (scanned : Scanned sha check v v.hashes.length w targets)
    (sized : Sized v) (request_pos : 0 < v.request_size)
    (full : ∀ i, i < v.hashes.length → v.waspre i = true → v.Full i)
    (numactive : v.numactive = fun _ => 0) (calls : v.calls = []) :
    Good sha (if w.amount_left = 0 then w.call .finished else w) [] := by
  have hashes := scanned.hashes
  have holes : ∀ q, q ∈ w.holes ↔ q < v.hashes.length ∧ v.waspre q = false := by
    intro q
    rw [scanned.holes, List.mem_filter, List.mem_range, Bool.not_eq_true']
  have layout : Layout w.hashes.length w.piecelen w.places w.holes := by
    rw [hashes, scanned.piecelen]
    refine ⟨?_, fun h mem => ((holes h).1 mem).1, fun p q there => ?_, fun p q there mem => ?_,
      scanned.inj, fun q lt out => ?_, fun p q there away => ?_, fun p q there => ?_⟩
    · rw [scanned.holes]
      exact List.nodup_range.filter _
    · have := scanned.place p q there
      exact ⟨this.1, this.2.1⟩
    · have pre := (scanned.place p q there).2.2.1
      rw [((holes q).1 mem).2] at pre
      cases pre
    · refine scanned.cover q lt ?_
      by_contra off
      exact out ((holes q).2 ⟨lt, by simpa using off⟩)
    · have := scanned.place p q there
      exact (holes p).2 ⟨this.1, this.2.2.2.1 away⟩
    · exact (scanned.place p q there).2.2.2.2
  have sized' : Sized w := by
    rw [scanned.frame]
    exact ⟨sized.size_pos, sized.many, sized.low, sized.high, sized.total, sized.whole⟩
  have full' : ∀ p q, w.places p = some q → w.Full q := by
    intro p q there
    obtain ⟨-, lt, pre, -⟩ := scanned.place p q there
    have here := full q lt pre
    rw [scanned.frame]
    exact here
  have left : w.amount_left = ∑ p ∈ Finset.range w.hashes.length, (w.lacking p : ℤ) := by
    rw [hashes, scanned.left]
  have waiting : ∀ p, w.waiting p = w.lacking p := by
    intro p
    rw [StorageWrapper.waiting, lacking]
    cases got : w.have_ p with
    | false => rw [scanned.open_ p got]; rfl
    | true => rw [(scanned.got p got).1]; rfl
  have idle : ∀ p, w.numactive p = 0 := by
    intro p
    rw [scanned.frame, numactive]
  have nonneg : 0 ≤ w.amount_left := by
    rw [left]
    exact Finset.sum_nonneg fun p _ => Int.natCast_nonneg _
  have ledger : Ledger w [] := by
    refine ⟨fun r mem => absurd mem List.not_mem_nil, fun p => ⟨idle p, fun all => ?_, fun l begun => ?_, fun none => ?_⟩, left, ?_, ?_⟩
    · cases got : w.have_ p with
      | false => exact ⟨rfl, rfl⟩
      | true => rw [(scanned.got p got).1] at all; cases all
    · exact absurd begun (scanned.not_begun p l)
    · cases got : w.have_ p with
      | false => rw [scanned.open_ p got] at none; cases none
      | true => exact ⟨rfl, rfl⟩
    · rw [scanned.inactive, left]
      exact Finset.sum_congr rfl fun p _ => by rw [waiting]
    · intro _
      rw [scanned.inactive]
      omega
  have no_calls := scanned.calls calls
  have home : ∀ p, w.have_ p → w.waschecked p = false → w.places p = some p := fun p got off =>
    (scanned.got p got).2.1 ((scanned.checked p).symm.trans off)
  have right : ∀ p, w.have_ p → w.waschecked p → Right sha w p := fun p got on =>
    (scanned.got p got).2.2 ((scanned.checked p).symm.trans on)
  have sorted : w.holes.Pairwise (· < ·) := by
    rw [scanned.holes]
    exact List.pairwise_lt_range.filter _
  have fresh : ∀ h ∈ w.holes, w.waspre h = false := fun h mem => by
    rw [scanned.waspre]
    exact ((holes h).1 mem).2
  have positive : 0 < w.request_size := by
    rw [scanned.frame]
    exact request_pos
  have live : ∀ p, Live w [] p := fun p l begun => absurd begun (scanned.not_begun p l)
  by_cases all : w.amount_left = 0
  · rw [if_pos all]
    refine ⟨⟨⟨⟨sized'.size_pos, sized'.many, sized'.low, sized'.high, sized'.total, sized'.whole⟩,
      layout, full'⟩, positive, sorted, fresh, ⟨ledger.known, fun p => ⟨(ledger.piece p).number,
      (ledger.piece p).all, (ledger.piece p).begun, (ledger.piece p).got⟩, ledger.left, ledger.inactive,
      ledger.ends⟩, home, right, fun reason mem => ?_, ?_⟩, live⟩
    · rw [call, no_calls] at mem
      cases List.mem_singleton.1 mem
    · rw [call, no_calls]
      exact (if_pos all).symm
  · rw [if_neg all]
    refine ⟨⟨⟨sized', layout, full'⟩, positive, sorted, fresh, ledger, home, right, fun reason mem => ?_,
      ?_⟩, live⟩
    · rw [no_calls] at mem
      cases mem
    · rw [no_calls, if_neg all]
      rfl

section Init

variable [DecidableEq δ] {storage : Storage} {request_size piece_size : ℕ} {hashes : List δ}

theorem start_scanned (v : StorageWrapper δ)
    (start : v = start storage request_size hashes piece_size check) (sized : Sized v) :
    Scanned sha check v 0 v v.targets := by
  have have_ : ∀ p, v.have_ p = false := fun p => by rw [start]; rfl
  have places : ∀ p, v.places p = none := fun p => by rw [start]; rfl
  have left : v.amount_left = ∑ p ∈ Finset.range v.hashes.length, (v.lacking p : ℤ) := by
    have total : v.amount_left = v.total_length := by rw [start]; rfl
    rw [total, ← sized.sum_piecelen, Nat.cast_sum]
    refine Finset.sum_congr rfl fun p _ => ?_
    rw [lacking, if_neg (by rw [have_ p]; exact Bool.false_ne_true)]
  refine ⟨rfl, by rw [start]; rfl, fun p q there => ?_, fun p p' q there => ?_, fun q less => ?_,
    fun p _ => by rw [start]; rfl, fun p => by rw [start]; rfl, fun p yes => ?_, left, by rw [start]; rfl, fun d => ?_,
    fun d t mem => ?_, fun d t mem => .inl (places t), fun pre no d hd => ?_, fun p q there => ?_⟩
  · rw [places p] at there
    cases there
  · rw [places p] at there
    cases there
  · omega
  · rw [have_ p] at yes
    cases yes
  · exact List.nodup_range.filter _
  · obtain ⟨mem, here⟩ := List.mem_filter.1 mem
    simp only [Bool.decide_and, Bool.and_eq_true, decide_eq_true_eq,
      Bool.not_eq_true'] at here
    exact ⟨List.mem_range.1 mem, by simpa using here.1, here.2⟩
  · have := sized.many
    refine List.mem_filter.2 ⟨List.mem_range.2 (by omega), ?_⟩
    simp [pre, hd]
  · rw [places p] at there
    cases there

theorem fold_scanned (sha : Text → δ) (check : Bool) (v : StorageWrapper δ) (sized : Sized v)
    (full : ∀ i, i < v.hashes.length → v.waspre i = true → v.Full i)
    (start : Scanned sha check v 0 v v.targets) (i : ℕ) (le : i ≤ v.hashes.length) :
    let r := (List.range i).foldl (checkPlace sha check) (v, v.targets)
    Scanned sha check v i r.1 r.2 := by
  induction i with
  | zero => exact start
  | succ i ih =>
    rw [List.range_succ, List.foldl_append]
    exact (ih (by omega)).step sized (by omega) (full i (by omega))

/-- A wrapper begins with everything good. -/
theorem init_good {files : List (Text × ℕ)} {disk : Text → Option Text}
    (nodup : (files.map (·.1)).Nodup) (size_pos : 0 < piece_size) (request_pos : 0 < request_size)
    (many : hashes ≠ [])
    (begun : init sha (Storage.init files disk) request_size hashes piece_size check = some w) :
    Good sha w [] ∧ (check = true → ∀ p, w.waschecked p = true) ∧
      (∀ p l, w.inactive_requests p ≠ .blocks l) ∧ ∀ size, Call.data_flunked size ∉ w.calls := by
  have count := List.length_pos_iff.2 many
  have whole := Storage.init_whole disk nodup
  generalize hv : start (Storage.init files disk) request_size hashes piece_size check = v
  have storage : v.storage = Storage.init files disk := by rw [← hv]; rfl
  have fields : v.hashes = hashes ∧ v.piece_size = piece_size ∧
      v.total_length = (Storage.init files disk).total_length ∧ v.request_size = request_size := by
    rw [← hv]
    exact ⟨rfl, rfl, rfl, rfl⟩
  rw [init, hv] at begun
  dsimp only at begun
  by_cases small : (v.total_length : ℤ) ≤ piece_size * (hashes.length - 1)
  · rw [if_pos small] at begun
    cases begun
  by_cases big : piece_size * hashes.length < v.total_length
  · rw [if_neg small, if_pos big] at begun
    cases begun
  rw [if_neg small, if_neg big] at begun
  have sized : Sized v := by
    obtain ⟨h, p, t, -⟩ := fields
    refine ⟨p ▸ size_pos, h ▸ count, ?_, ?_, by rw [storage, t], storage ▸ whole⟩
    · rw [h, p]
      have back : (hashes.length : ℤ) - 1 = (hashes.length - 1 : ℕ) := by omega
      rw [back, ← Int.natCast_mul] at small
      omega
    · rw [h, p]
      omega
  have full : ∀ i, i < v.hashes.length → v.waspre i = true → v.Full i := by
    intro i lt pre k less
    have room := sized.place_le lt
    rw [waspre, storage, Nat.mul_comm] at pre
    rw [cellAt, storage]
    refine Storage.init_preallocated nodup ?_ pre (Nat.le_add_right _ k) (by omega)
    rw [← fields.2.2.1]
    exact room
  have scanned := fold_scanned sha check v sized full (start_scanned v hv.symm sized)
    v.hashes.length le_rfl
  have done := scanned.sound sized (by rw [fields.2.2.2]; exact request_pos) full
    (by rw [← hv]; rfl) (by rw [← hv]; rfl)
  rw [fields.1] at scanned done
  rw [Option.some.injEq] at begun
  rw [begun] at done
  have none := scanned.calls (by rw [← hv]; rfl)
  refine ⟨done, fun on p => ?_, fun p l is => ?_, fun size mem => ?_⟩
  · rw [← begun]
    have := scanned.checked p
    split_ifs
    · exact this.trans on
    · exact this.trans on
  · refine scanned.not_begun p l ?_
    rw [← is, ← begun]
    split_ifs <;> rfl
  · rw [← begun] at mem
    split_ifs at mem
    · rw [call, none] at mem
      cases List.mem_singleton.1 mem
    · rw [none] at mem
      cases mem

end Init

end Ydfs.BitTorrent.StorageWrapper
