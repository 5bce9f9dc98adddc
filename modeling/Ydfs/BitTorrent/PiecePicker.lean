import Mathlib.Algebra.Order.Group.Nat
import Mathlib.Data.List.Induction
import Mathlib.Logic.Relation
import Ydfs.Lists.Indexed

/-!
# Which piece is requested next

A `PiecePicker` counts for each missing piece the peers that have it, and keeps the pieces with one count
together in a list.  A piece that is begun is requested first, and of these the rarest; then the rarest of
all, after every run of calls (`picked`).
-/

namespace Ydfs.BitTorrent

/-! ### The model of the source -/

/-- A `PiecePicker`; the count of a piece is `none` when the piece is complete. -/
structure PiecePicker where
  rarest_first_cutoff : ℕ
  numpieces : ℕ
  interests : List (List ℕ)
  pos_in_interests : ℕ → ℕ
  numinterests : ℕ → Option ℕ
  started : List ℕ
  seedstarted : List ℕ
  numgot : ℕ
  scrambled : List ℕ

namespace PiecePicker

/-- `PiecePicker.__init__`; the pieces have been shuffled. -/
def init (numpieces rarest_first_cutoff : ℕ) (scrambled : List ℕ) : PiecePicker where
  rarest_first_cutoff := rarest_first_cutoff
  numpieces := numpieces
  interests := [List.range numpieces]
  pos_in_interests p := p
  numinterests _ := some 0
  started := []
  seedstarted := []
  numgot := 0
  scrambled := scrambled

/-- A piece is taken out of the list of a count; `none` is for an `IndexError`. -/
def takeOut (p : PiecePicker) (piece numint : ℕ) : Option PiecePicker := do
  let l ← p.interests[numint]?
  let last ← l.getLast?
  let pos := p.pos_in_interests piece
  if pos < l.length then some { p with
    interests := p.interests.set numint (l.set pos last).dropLast
    pos_in_interests := Function.update p.pos_in_interests last pos }
  else none

/-- A piece is put in the list of a count, at the position `newp`. -/
def putIn (p : PiecePicker) (piece numint newp : ℕ) : Option PiecePicker := do
  let l ← p.interests[numint]?
  if newp = l.length then some { p with
    interests := p.interests.set numint (l ++ [piece])
    pos_in_interests := Function.update p.pos_in_interests piece l.length }
  else
    let old ← l[newp]?
    some { p with
      interests := p.interests.set numint ((l ++ [old]).set newp piece)
      pos_in_interests :=
        Function.update (Function.update p.pos_in_interests old l.length) piece newp }

/-- `_shift_over`, from the list of one count to that of another one -/
def shift_over (p : PiecePicker) (randrange : ℕ → ℕ) (piece i j : ℕ) : Option PiecePicker := do
  let p ← p.takeOut piece i
  let l2 ← p.interests[j]?
  p.putIn piece j (randrange (l2.length + 1))

def count (p : PiecePicker) (piece : ℕ) (numint : Option ℕ) : PiecePicker :=
  { p with numinterests := Function.update p.numinterests piece numint }

def got_have (p : PiecePicker) (randrange : ℕ → ℕ) (piece : ℕ) : Option PiecePicker :=
  match p.numinterests piece with
  | none => some p
  | some numint =>
    let p := if numint + 1 = p.interests.length then { p with interests := p.interests ++ [[]] } else p
    (p.count piece (some (numint + 1))).shift_over randrange piece numint (numint + 1)

/-- `lost_have`, of a piece that has been counted -/
def lost_have (p : PiecePicker) (randrange : ℕ → ℕ) (piece : ℕ) : Option PiecePicker :=
  match p.numinterests piece with
  | none => some p
  | some 0 => none
  | some (numint + 1) =>
    (p.count piece (some numint)).shift_over randrange piece (numint + 1) numint

def requested (p : PiecePicker) (piece : ℕ) (seed : Bool) : PiecePicker :=
  let p := if piece ∈ p.started then p else { p with started := p.started ++ [piece] }
  if seed ∧ piece ∉ p.seedstarted then { p with seedstarted := p.seedstarted ++ [piece] } else p

/-- `complete`; `none` is for the assertion.  Where the piece is not in `started` it is not taken out of
`seedstarted` either. -/
def complete (p : PiecePicker) (piece : ℕ) : Option PiecePicker :=
  match p.numinterests piece with
  | none => none
  | some numint => (takeOut { p with numgot := p.numgot + 1 } piece numint).map fun q =>
    let p := q.count piece none
    if piece ∈ p.started then { p with
      started := p.started.erase piece
      seedstarted := p.seedstarted.erase piece }
    else p

/-- `bump`; `none` is for an exception. -/
def bump (p : PiecePicker) (piece : ℕ) : Option PiecePicker := do
  let numint ← p.numinterests piece
  let l ← p.interests[numint]?
  let pos := p.pos_in_interests piece
  if pos < l.length then
    let l := l.eraseIdx pos ++ [piece]
    some { p with
      interests := p.interests.set numint l
      pos_in_interests := Indexed.number pos (l.drop pos) p.pos_in_interests }
  else none

/-- Whether a count is smaller; `None` is smaller than all numbers. -/
def below : Option ℕ → Option ℕ → Bool
  | some i, some j => i < j
  | none, some _ => true
  | _, none => false

/-- One turn of the first loop of `next`. -/
def better (p : PiecePicker) (havefunc : ℕ → Bool) (b : List ℕ × Option ℕ) (i : ℕ) :
    List ℕ × Option ℕ :=
  if havefunc i then
    if below (p.numinterests i) b.2 then ([i], p.numinterests i)
    else if p.numinterests i = b.2 then (b.1 ++ [i], b.2)
    else b
  else b

/-- `next`, where there are less than `2 ^ 30` peers -/
def next (p : PiecePicker) (randrange : ℕ → ℕ) (havefunc : ℕ → Bool) (seed : Bool) : Option ℕ :=
  let s := if seed then p.seedstarted else p.started
  let (bests, bestnum) := s.foldl (p.better havefunc) ([], some (2 ^ 30))
  if bests ≠ [] then bests[randrange bests.length]?
  else if p.numgot < p.rarest_first_cutoff then p.scrambled.find? havefunc
  else (List.range' 1 (min (bestnum.getD 0) p.interests.length - 1)).findSome? fun i =>
    (p.interests.getD i []).find? havefunc

def am_I_complete (p : PiecePicker) : Bool := p.numgot = p.numpieces

variable {p p' : PiecePicker} {randrange : ℕ → ℕ} {havefunc : ℕ → Bool} {seed : Bool} {i j x y : ℕ}
  {P : ℕ → ℕ → Prop}

/-! ### The lists -/

/-- Each list has its pieces, each at its position, and no piece is in two lists. -/
structure Lists (p : PiecePicker) (P : ℕ → ℕ → Prop) : Prop where
  indexed : ∀ i l, p.interests[i]? = some l → Indexed l p.pos_in_interests (P i)
  alone : ∀ i j x, P i x → P j x → i = j

/-- Only the lists and the positions are changed. -/
def Rearranged (p p' : PiecePicker) : Prop :=
  p' = { p with interests := p'.interests, pos_in_interests := p'.pos_in_interests } ∧
    p'.interests.length = p.interests.length

/-- One list is changed, and the positions of pieces that are not in the others. -/
theorem Lists.change {l : List ℕ} {pos : ℕ → ℕ} {Q : ℕ → ℕ → Prop} (lists : Lists p P)
    (less : i < p.interests.length) (indexed : Indexed l pos (Q i))
    (same : ∀ j x, j ≠ i → (P j x ↔ Q j x)) (alone : ∀ j x, j ≠ i → Q i x → ¬ Q j x)
    (frame : ∀ j x, j ≠ i → P j x → pos x = p.pos_in_interests x) :
    Lists { p with interests := p.interests.set i l, pos_in_interests := pos } Q := by
  refine ⟨fun j m there => ?_, fun j k x has has' => ?_⟩
  · dsimp only at there ⊢
    rw [List.getElem?_set] at there
    split_ifs at there with here
    · obtain rfl := Option.some.inj there
      exact here ▸ indexed
    · exact ((lists.indexed j m there).frame fun x => frame j x (Ne.symm here)).congr fun x =>
        same j x (Ne.symm here)
  · by_contra ne
    by_cases first : j = i
    · subst first
      exact alone k x (Ne.symm ne) has has'
    · by_cases second : k = i
      · subst second
        exact alone j x ne has' has
      · exact ne (lists.alone j k x ((same j x first).2 has) ((same k x second).2 has'))

theorem Lists.takeOut (lists : Lists p P) (less : i < p.interests.length) (has : P i x) :
    ∃ p', p.takeOut x i = some p' ∧ Rearranged p p' ∧ Lists p' fun j y => P j y ∧ y ≠ x := by
  have there : p.interests[i]? = some p.interests[i] := List.getElem?_eq_getElem less
  have indexed := lists.indexed i _ there
  cases is : p.interests[i].getLast? with
  | none =>
    rw [List.getLast?_eq_none_iff] at is
    have short := indexed.lt has
    rw [is] at short
    exact absurd short (Nat.not_lt_zero _)
  | some last =>
    refine ⟨_, by rw [PiecePicker.takeOut, there, Option.bind_eq_bind, Option.bind_some, is,
      Option.bind_eq_bind, Option.bind_some, if_pos (indexed.lt has)], ⟨rfl, List.length_set⟩,
      lists.change less (indexed.remove has is) (fun j y ne => ?_) (fun j y ne has' => ?_) fun j y ne has' => ?_⟩
    · refine ⟨fun has' => ⟨has', fun e => ne ?_⟩, fun h => h.1⟩
      exact lists.alone j i x (e ▸ has') has
    · exact fun h => ne (lists.alone j i y h.1 has'.1)
    · refine Function.update_of_ne (fun e => ne ?_) ..
      exact lists.alone j i y has' (e ▸ (indexed.last is).1)

theorem Lists.putIn {newp : ℕ} (lists : Lists p P) (less : i < p.interests.length) (new : ∀ j, ¬ P j x)
    (room : newp ≤ p.interests[i].length) :
    ∃ p', p.putIn x i newp = some p' ∧ Rearranged p p' ∧ Lists p' fun j y => P j y ∨ j = i ∧ y = x := by
  have there : p.interests[i]? = some p.interests[i] := List.getElem?_eq_getElem less
  have indexed := lists.indexed i _ there
  have same : ∀ j y, j ≠ i → (P j y ↔ P j y ∨ j = i ∧ y = x) := fun j y ne =>
    ⟨Or.inl, fun h => h.resolve_right fun h => ne h.1⟩
  have alone : ∀ j y, j ≠ i → (P i y ∨ i = i ∧ y = x) → ¬ (P j y ∨ j = i ∧ y = x) := by
    rintro j y ne (has | ⟨-, rfl⟩) (has' | ⟨e, -⟩)
    · exact ne (lists.alone j i y has' has)
    · exact ne e
    · exact new j has'
    · exact ne e
  by_cases atEnd : newp = p.interests[i].length
  · refine ⟨_, by rw [PiecePicker.putIn, there, Option.bind_eq_bind, Option.bind_some, if_pos atEnd],
      ⟨rfl, List.length_set⟩, lists.change less ?_ same alone fun j y ne has => ?_⟩
    · exact (indexed.append (new i)).congr fun y => or_congr_right (and_iff_right rfl).symm
    · exact Function.update_of_ne (fun e : y = x => new j (e ▸ has)) ..
  · have inside : newp < p.interests[i].length := by omega
    have old : p.interests[i][newp]? = some p.interests[i][newp] := List.getElem?_eq_getElem inside
    have mem := indexed.mem.1 (List.mem_of_getElem? old)
    refine ⟨_, by rw [PiecePicker.putIn, there, Option.bind_eq_bind, Option.bind_some, if_neg atEnd, old,
      Option.bind_eq_bind, Option.bind_some], ⟨rfl, List.length_set⟩,
      lists.change less ?_ same alone fun j y ne has => ?_⟩
    · exact (indexed.insert (new i) old).congr fun y => or_congr_right (and_iff_right rfl).symm
    · rw [Function.update_of_ne fun e : y = x => new j (e ▸ has), Function.update_of_ne fun e => ne ?_]
      exact lists.alone j i y has (e ▸ mem)

theorem Rearranged.trans {p'' : PiecePicker} (h : Rearranged p p') (h' : Rearranged p' p'') :
    Rearranged p p'' := by
  refine ⟨?_, h'.2.trans h.2⟩
  conv_lhs => rw [h'.1, h.1]

theorem Lists.shift_over (lists : Lists p P) (less : i < p.interests.length)
    (less' : j < p.interests.length) (has : P i x) (fair : ∀ n, 0 < n → randrange n < n) :
    ∃ p', p.shift_over randrange x i j = some p' ∧ Rearranged p p' ∧
      Lists p' fun k y => P k y ∧ y ≠ x ∨ k = j ∧ y = x := by
  obtain ⟨p₁, out, moved, lists₁⟩ := lists.takeOut less has
  have less₁ : j < p₁.interests.length := by rw [moved.2]; exact less'
  have room := fair (p₁.interests[j].length + 1) (Nat.succ_pos _)
  obtain ⟨p₂, in_, moved', lists₂⟩ := lists₁.putIn less₁ (fun k h => h.2 rfl) (Nat.le_of_lt_succ room)
  refine ⟨p₂, ?_, moved.trans moved', lists₂⟩
  rw [PiecePicker.shift_over, out, Option.bind_eq_bind, Option.bind_some,
    List.getElem?_eq_getElem less₁, Option.bind_eq_bind, Option.bind_some, in_]

/-! ### What every call keeps -/

/-- The pieces with a count -/
def Counted (numpieces : ℕ) (counts : ℕ → Option ℕ) (i x : ℕ) : Prop :=
  x < numpieces ∧ counts x = some i

/-- What is so between any two calls. -/
structure Tidy (p : PiecePicker) : Prop where
  lists : p.Lists (Counted p.numpieces p.numinterests)
  below : ∀ x i, x < p.numpieces → p.numinterests x = some i → i < p.interests.length
  started : ∀ x ∈ p.started, x < p.numpieces ∧ (p.numinterests x).isSome
  seedstarted : p.seedstarted ⊆ p.started
  nodup : p.started.Nodup ∧ p.seedstarted.Nodup
  scrambled : p.scrambled.Perm (List.range p.numpieces)
  numgot : p.numgot = (List.range p.numpieces).countP fun x => (p.numinterests x).isNone

theorem Lists.congr {Q : ℕ → ℕ → Prop} (lists : Lists p P) (same : ∀ i x, P i x ↔ Q i x) : Lists p Q :=
  ⟨fun i l there => (lists.indexed i l there).congr (same i),
    fun i j x has has' => lists.alone i j x ((same i x).2 has) ((same j x).2 has')⟩

/-- A piece gets another count. -/
theorem Lists.recount {n : ℕ} {counts : ℕ → Option ℕ} (lists : Lists p (Counted n counts))
    (less : x < n) (is : counts x = some i) (old : i < p.interests.length)
    (new : j < p.interests.length) (fair : ∀ n, 0 < n → randrange n < n) :
    ∃ p', (p.count x (some j)).shift_over randrange x i j = some p' ∧
      Rearranged (p.count x (some j)) p' ∧
      Lists p' (Counted n (Function.update counts x (some j))) := by
  have lists₁ : Lists (p.count x (some j)) (Counted n counts) := ⟨lists.indexed, lists.alone⟩
  obtain ⟨p', step, moved, lists'⟩ := lists₁.shift_over old new ⟨less, is⟩ fair
  refine ⟨p', step, moved, lists'.congr fun k y => ?_⟩
  rw [Counted, Counted]
  by_cases same : y = x
  · subst same
    rw [Function.update_self, Option.some.injEq]
    exact ⟨fun h => h.elim (fun h => absurd rfl h.2) fun h => ⟨less, h.1.symm⟩,
      fun h => Or.inr ⟨h.2.symm, rfl⟩⟩
  · rw [Function.update_of_ne same]
    exact ⟨fun h => h.elim (fun h => h.1) fun h => absurd h.2 same, fun h => Or.inl ⟨h, same⟩⟩

theorem Tidy.recount (tidy : Tidy p) (missing : (p.numinterests x).isSome)
    (frame : p' = { p with
      interests := p'.interests
      pos_in_interests := p'.pos_in_interests
      numinterests := Function.update p.numinterests x (some j) })
    (lists : p'.Lists (Counted p.numpieces (Function.update p.numinterests x (some j))))
    (room : j < p'.interests.length) (longer : p.interests.length ≤ p'.interests.length) : Tidy p' := by
  have same : ∀ y, (Function.update p.numinterests x (some j) y).isSome = (p.numinterests y).isSome := by
    intro y
    by_cases e : y = x
    · subst e
      rw [Function.update_self, missing]
      rfl
    · rw [Function.update_of_ne e]
  have same' : ∀ y, (Function.update p.numinterests x (some j) y).isNone = (p.numinterests y).isNone :=
    fun y => by rw [← Option.not_isSome, ← Option.not_isSome, same]
  have below : ∀ y i, y < p.numpieces → Function.update p.numinterests x (some j) y = some i →
      i < p'.interests.length := by
    intro y i less is
    by_cases e : y = x
    · subst e
      rw [Function.update_self, Option.some.injEq] at is
      exact is ▸ room
    · rw [Function.update_of_ne e] at is
      exact Nat.lt_of_lt_of_le (tidy.below y i less is) longer
  refine ⟨?_, ?_, fun y mem => ?_, ?_, ?_, ?_, ?_⟩
  · rw [frame]
    exact ⟨lists.indexed, lists.alone⟩
  · rw [frame]
    exact below
  · rw [frame] at mem ⊢
    rw [same]
    exact tidy.started y mem
  · rw [frame]
    exact tidy.seedstarted
  · rw [frame]
    exact tidy.nodup
  · rw [frame]
    exact tidy.scrambled
  · rw [frame]
    simp only [same']
    exact tidy.numgot

/-- There is a list for the next count. -/
theorem Tidy.grow {k : ℕ} (tidy : Tidy p) (less : k < p.interests.length) :
    ∃ l, (if k + 1 = p.interests.length then { p with interests := p.interests ++ [[]] } else p) =
        { p with interests := l } ∧
      k + 1 < l.length ∧ p.interests.length ≤ l.length ∧
      Lists { p with interests := l } (Counted p.numpieces p.numinterests) := by
  by_cases full : k + 1 = p.interests.length
  · refine ⟨_, if_pos full, by rw [List.length_append, List.length_singleton]; omega,
      by rw [List.length_append]; omega, fun i l there => ?_, tidy.lists.alone⟩
    dsimp only at there ⊢
    rcases Nat.lt_or_ge i p.interests.length with less' | ge
    · rw [List.getElem?_append_left less'] at there
      exact tidy.lists.indexed i l there
    · rw [List.getElem?_append_right ge] at there
      rw [List.mem_singleton.1 (List.mem_of_getElem? there)]
      refine Indexed.nil.congr fun x => ⟨False.elim, fun has => ?_⟩
      have short := tidy.below x i has.1 has.2
      omega
  · exact ⟨_, if_neg full, by omega, Nat.le_refl _, tidy.lists⟩

theorem Tidy.got_have (tidy : Tidy p) (less : x < p.numpieces) (fair : ∀ n, 0 < n → randrange n < n) :
    ∃ p', p.got_have randrange x = some p' ∧ Tidy p' ∧ p' = { p with
      interests := p'.interests
      pos_in_interests := p'.pos_in_interests
      numinterests := Function.update p.numinterests x ((p.numinterests x).map (· + 1)) } := by
  cases is : p.numinterests x with
  | none =>
    refine ⟨p, by rw [PiecePicker.got_have, is], tidy, ?_⟩
    rw [Option.map_none, ← is, Function.update_eq_self]
  | some k =>
    obtain ⟨l, grown, room, longer, lists⟩ := tidy.grow (tidy.below x k less is)
    obtain ⟨p', step, moved, lists'⟩ := lists.recount less is (Nat.lt_of_succ_lt room) room fair
    have size : p'.interests.length = l.length := moved.2
    refine ⟨p', ?_, tidy.recount (Option.isSome_of_eq_some is) moved.1 lists' (by omega) (by omega),
      moved.1⟩
    rw [PiecePicker.got_have, is]
    dsimp only
    rw [grown, step]

/-- What `lost_have` needs is that a peer had the piece. -/
theorem Tidy.lost_have (tidy : Tidy p) (less : x < p.numpieces) (some_ : p.numinterests x ≠ some 0)
    (fair : ∀ n, 0 < n → randrange n < n) :
    ∃ p', p.lost_have randrange x = some p' ∧ Tidy p' ∧ p' = { p with
      interests := p'.interests
      pos_in_interests := p'.pos_in_interests
      numinterests := Function.update p.numinterests x ((p.numinterests x).map (· - 1)) } := by
  cases is : p.numinterests x with
  | none =>
    refine ⟨p, by rw [PiecePicker.lost_have, is], tidy, ?_⟩
    rw [Option.map_none, ← is, Function.update_eq_self]
  | some m =>
    cases m with
    | zero => exact absurd is some_
    | succ k =>
      have room := tidy.below x (k + 1) less is
      obtain ⟨p', step, moved, lists'⟩ := tidy.lists.recount less is room (Nat.lt_of_succ_lt room) fair
      have size : p'.interests.length = p.interests.length := moved.2
      refine ⟨p', ?_, tidy.recount (Option.isSome_of_eq_some is) moved.1 lists' (by omega) (by omega),
        moved.1⟩
      rw [PiecePicker.lost_have, is]
      exact step

/-- An item is added where it is not there. -/
def addNew (l : List ℕ) (x : ℕ) : List ℕ := if x ∈ l then l else l ++ [x]

theorem mem_addNew {l : List ℕ} : y ∈ addNew l x ↔ y ∈ l ∨ y = x := by
  rw [addNew]
  split_ifs with old
  · exact ⟨Or.inl, fun h => h.elim id fun e => e ▸ old⟩
  · rw [List.mem_append, List.mem_singleton]

theorem nodup_addNew {l : List ℕ} (nodup : l.Nodup) : (addNew l x).Nodup := by
  rw [addNew]
  split_ifs with old
  · exact nodup
  · exact List.nodup_append.2 ⟨nodup, List.nodup_singleton x, fun y mem z mem' e =>
      old (List.mem_singleton.1 mem' ▸ e ▸ mem)⟩

theorem requested_eq (p : PiecePicker) (x : ℕ) (seed : Bool) : p.requested x seed = { p with
    started := addNew p.started x
    seedstarted := if seed then addNew p.seedstarted x else p.seedstarted } := by
  rw [PiecePicker.requested, addNew, addNew]
  cases seed <;> by_cases new : x ∈ p.started <;> by_cases new' : x ∈ p.seedstarted <;> simp [new, new']

theorem Tidy.requested (tidy : Tidy p) (less : x < p.numpieces) (missing : (p.numinterests x).isSome) :
    Tidy (p.requested x seed) := by
  rw [requested_eq]
  refine ⟨⟨tidy.lists.indexed, tidy.lists.alone⟩, tidy.below, fun y mem => ?_, fun y mem => ?_,
    ⟨nodup_addNew tidy.nodup.1, ?_⟩, tidy.scrambled, tidy.numgot⟩
  · rcases mem_addNew.1 mem with old | rfl
    · exact tidy.started y old
    · exact ⟨less, missing⟩
  · cases seed with
    | false => exact mem_addNew.2 (Or.inl (tidy.seedstarted mem))
    | true => exact mem_addNew.2 ((mem_addNew.1 mem).imp_left fun mem => tidy.seedstarted mem)
  · cases seed with
    | false => exact tidy.nodup.2
    | true => exact nodup_addNew tidy.nodup.2

theorem countP_update {n : ℕ} {f g : ℕ → Bool} (less : x < n) (old : f x = false) (new : g x = true)
    (same : ∀ y, y ≠ x → g y = f y) : (List.range n).countP g = (List.range n).countP f + 1 := by
  induction n with
  | zero => exact absurd less (Nat.not_lt_zero x)
  | succ n ih =>
    rw [List.range_succ, List.countP_append, List.countP_append]
    by_cases last : x = n
    · subst last
      have before : (List.range x).countP g = (List.range x).countP f := by
        refine List.countP_congr fun y mem => ?_
        rw [same y (Nat.ne_of_lt (List.mem_range.1 mem))]
      rw [before, List.countP_singleton, List.countP_singleton, old, new]
      rfl
    · rw [ih (by omega), List.countP_singleton, List.countP_singleton, same n (Ne.symm last)]
      omega

theorem Tidy.complete (tidy : Tidy p) (less : x < p.numpieces) (missing : (p.numinterests x).isSome) :
    ∃ p', p.complete x = some p' ∧ Tidy p' ∧ p'.numpieces = p.numpieces ∧
      p'.numinterests = Function.update p.numinterests x none := by
  obtain ⟨i, is⟩ := Option.isSome_iff_exists.1 missing
  have lists : Lists { p with numgot := p.numgot + 1 } (Counted p.numpieces p.numinterests) :=
    ⟨tidy.lists.indexed, tidy.lists.alone⟩
  obtain ⟨q, out, ⟨moved, size⟩, lists'⟩ := lists.takeOut (tidy.below x i less is) ⟨less, is⟩
  let counts := Function.update p.numinterests x none
  have rest {y : ℕ} (ne : y ≠ x) : counts y = p.numinterests y := Function.update_of_ne ne ..
  have gone : counts x = none := Function.update_self ..
  let p' := { p with
    interests := q.interests
    pos_in_interests := q.pos_in_interests
    numinterests := counts
    numgot := p.numgot + 1
    started := p.started.erase x
    seedstarted := p.seedstarted.erase x }
  have result : (if x ∈ p.started then { (q.count x none) with
      started := p.started.erase x, seedstarted := p.seedstarted.erase x } else q.count x none) = p' := by
    split_ifs with old
    · rw [moved]
      rfl
    · have same : p' = { p with
          interests := q.interests
          pos_in_interests := q.pos_in_interests
          numinterests := counts
          numgot := p.numgot + 1 } := by
        dsimp only [p']
        rw [List.erase_of_not_mem old, List.erase_of_not_mem fun mem => old (tidy.seedstarted mem)]
      rw [same, moved]
      rfl
  refine ⟨p', ?_, ⟨?_, fun y j less' is' => ?_, fun y mem => ?_, ?_, ?_, tidy.scrambled, ?_⟩, rfl, rfl⟩
  · rw [PiecePicker.complete, is]
    dsimp only
    rw [out, Option.map_some, ← result, moved]
    rfl
  · have lists'' : Lists q (Counted p.numpieces counts) := lists'.congr fun j y => by
      rw [Counted, Counted]
      by_cases same : y = x
      · subst same
        rw [gone]
        exact ⟨fun h => absurd rfl h.2, fun h => absurd h.2 (Option.some_ne_none j).symm⟩
      · rw [rest same, and_iff_left same]
    exact ⟨lists''.indexed, lists''.alone⟩
  · by_cases same : y = x
    · subst same
      exact absurd (gone.symm.trans is') (Option.some_ne_none j).symm
    · change j < q.interests.length
      rw [size]
      exact tidy.below y j less' ((rest same).symm.trans is')
  · have mem := (tidy.nodup.1.mem_erase_iff).1 mem
    obtain ⟨less', some_⟩ := tidy.started y mem.2
    exact ⟨less', by rw [show p'.numinterests y = p.numinterests y from rest mem.1]; exact some_⟩
  · intro y mem
    have mem := (tidy.nodup.2.mem_erase_iff).1 mem
    exact (tidy.nodup.1.mem_erase_iff).2 ⟨mem.1, tidy.seedstarted mem.2⟩
  · exact ⟨tidy.nodup.1.erase x, tidy.nodup.2.erase x⟩
  · change p.numgot + 1 = (List.range p.numpieces).countP fun y => (counts y).isNone
    rw [tidy.numgot]
    refine (countP_update less ?_ ?_ fun y ne => ?_).symm
    · rw [is]
      rfl
    · rw [gone]
      rfl
    · rw [rest ne]

theorem Tidy.bump (tidy : Tidy p) (less : x < p.numpieces) (missing : (p.numinterests x).isSome) :
    ∃ p', p.bump x = some p' ∧ Tidy p' ∧ p' = { p with
      interests := p'.interests, pos_in_interests := p'.pos_in_interests } := by
  obtain ⟨i, is⟩ := Option.isSome_iff_exists.1 missing
  have less' := tidy.below x i less is
  have there : p.interests[i]? = some p.interests[i] := List.getElem?_eq_getElem less'
  have indexed := tidy.lists.indexed i _ there
  have has : Counted p.numpieces p.numinterests i x := ⟨less, is⟩
  have new : ∀ y, ¬ Counted p.numpieces p.numinterests i y →
      y ∉ (p.interests[i].eraseIdx (p.pos_in_interests x) ++ [x]).drop (p.pos_in_interests x) := by
    intro y not mem
    have mem := List.mem_of_mem_drop mem
    rw [List.mem_append, List.mem_singleton] at mem
    rcases mem with mem | rfl
    · exact not (indexed.mem.1 (List.mem_of_mem_eraseIdx mem))
    · exact not has
  have lists := tidy.lists.change less' (indexed.rotate has) (fun _ _ _ => Iff.rfl)
    (fun j y ne has' has'' => ne (tidy.lists.alone j i y has'' has')) fun j y ne has' =>
      Indexed.number_of_not_mem (new y fun here => ne (tidy.lists.alone j i y has' here))
  refine ⟨_, ?_, ⟨lists, ?_, tidy.started, tidy.seedstarted, tidy.nodup, tidy.scrambled, tidy.numgot⟩,
    rfl⟩
  · rw [PiecePicker.bump, is, Option.bind_eq_bind, Option.bind_some, there, Option.bind_eq_bind,
      Option.bind_some, if_pos (indexed.lt has)]
  · dsimp only
    rw [List.length_set]
    exact tidy.below

theorem init_tidy {numpieces cutoff : ℕ} {scrambled : List ℕ}
    (perm : scrambled.Perm (List.range numpieces)) : Tidy (init numpieces cutoff scrambled) := by
  refine ⟨⟨fun i l there => ?_, fun i j x has has' => ?_⟩, fun x i _ is => ?_, fun x mem => ?_,
    List.Subset.refl _, ⟨List.nodup_nil, List.nodup_nil⟩, perm, ?_⟩
  · cases i with
    | succ i => exact absurd there (Option.some_ne_none l).symm
    | zero =>
      obtain rfl := Option.some.inj there
      intro k x
      rw [List.getElem?_eq_some_iff, Counted]
      constructor
      · rintro ⟨less, rfl⟩
        rw [List.length_range] at less
        rw [List.getElem_range]
        exact ⟨⟨less, rfl⟩, rfl⟩
      · rintro ⟨⟨less, -⟩, rfl⟩
        exact ⟨by rw [List.length_range]; exact less, List.getElem_range _⟩
  · exact Option.some.inj (has.2.symm.trans has'.2)
  · obtain rfl := Option.some.inj is
    exact Nat.one_pos
  · exact absurd mem List.not_mem_nil
  · exact (List.countP_eq_zero.2 fun x _ h => Bool.noConfusion h).symm

/-! ### The next piece -/

/-- The pieces that are looked at first -/
def begun (p : PiecePicker) (seed : Bool) : List ℕ := if seed then p.seedstarted else p.started

/-- Whether no more peers have the one piece than the other one. -/
def AsRare (p : PiecePicker) (r x : ℕ) : Prop :=
  ∃ k, p.numinterests r = some k ∧ ∀ j, p.numinterests x = some j → k ≤ j

/-- What the first loop of `next` has found among the pieces it has looked at. -/
structure Best (p : PiecePicker) (havefunc : ℕ → Bool) (s : List ℕ) (b : List ℕ × Option ℕ) (k : ℕ) :
    Prop where
  num : b.2 = some k
  mem : ∀ x ∈ b.1, x ∈ s ∧ havefunc x = true ∧ p.numinterests x = some k
  least : ∀ x ∈ s, havefunc x = true → ∀ j, p.numinterests x = some j → k ≤ j
  empty : b.1 = [] → k = 2 ^ 30 ∧ ∀ x ∈ s, havefunc x = false

theorem Best.turn {s : List ℕ} {b : List ℕ × Option ℕ} {k n a : ℕ} (best : Best p havefunc s b k)
    (count : p.numinterests a = some n) (small : n < 2 ^ 30) :
    ∃ k, Best p havefunc (s ++ [a]) (p.better havefunc b a) k := by
  have more {P : ℕ → Prop} (old : ∀ x ∈ s, P x) (new : P a) : ∀ x ∈ s ++ [a], P x := fun x mem =>
    (List.mem_append.1 mem).elim (old x) fun mem => List.mem_singleton.1 mem ▸ new
  rw [better]
  by_cases wanted : havefunc a = true
  · rw [if_pos wanted, best.num, count, below]
    by_cases less : n < k
    · rw [if_pos (decide_eq_true less)]
      refine ⟨n, rfl, fun x mem => ?_, more (fun x mem got j is => ?_) fun _ j is => ?_, fun e => ?_⟩
      · rw [List.mem_singleton.1 mem]
        exact ⟨List.mem_append_right _ List.mem_cons_self, wanted, count⟩
      · exact less.le.trans (best.least x mem got j is)
      · exact (Option.some.inj (count.symm.trans is)).le
      · exact absurd e (List.cons_ne_nil a [])
    · rw [if_neg fun h => less (of_decide_eq_true h)]
      have old : ∀ x ∈ b.1, x ∈ s ++ [a] ∧ havefunc x = true ∧ p.numinterests x = some k :=
        fun x mem => ⟨List.mem_append_left _ (best.mem x mem).1, (best.mem x mem).2⟩
      have least := more best.least fun _ j is => (Nat.le_of_not_lt less).trans
        (Option.some.inj (count.symm.trans is)).le
      by_cases same : n = k
      · subst same
        rw [if_pos rfl]
        refine ⟨n, rfl, fun x mem => ?_, least, fun e => ?_⟩
        · rcases List.mem_append.1 mem with mem | mem
          · exact old x mem
          · rw [List.mem_singleton.1 mem]
            exact ⟨List.mem_append_right _ List.mem_cons_self, wanted, count⟩
        · exact absurd (List.append_eq_nil_iff.1 e).2 (List.cons_ne_nil a [])
      · rw [if_neg fun e => same (Option.some.inj e)]
        refine ⟨k, best.num, old, least, fun e => ?_⟩
        have none_ := (best.empty e).1
        omega
  · rw [if_neg wanted]
    refine ⟨k, best.num, fun x mem => ?_, more best.least fun h => absurd h wanted, fun e => ?_⟩
    · exact ⟨List.mem_append_left _ (best.mem x mem).1, (best.mem x mem).2⟩
    · exact ⟨(best.empty e).1, more (best.empty e).2 (Bool.eq_false_iff.2 wanted)⟩

theorem foldl_better {s : List ℕ}
    (few : ∀ x ∈ s, ∃ k, p.numinterests x = some k ∧ k < 2 ^ 30) :
    ∃ k, Best p havefunc s (s.foldl (p.better havefunc) ([], some (2 ^ 30))) k := by
  induction s using List.reverseRecOn with
  | nil => exact ⟨2 ^ 30, rfl, fun x mem => absurd mem List.not_mem_nil,
      fun x mem => absurd mem List.not_mem_nil, fun _ => ⟨rfl, fun x mem => absurd mem List.not_mem_nil⟩⟩
  | append_singleton s a ih =>
    obtain ⟨k, best⟩ := ih fun x mem => few x (List.mem_append_left _ mem)
    obtain ⟨n, count, small⟩ := few a (List.mem_append_right _ List.mem_cons_self)
    rw [List.foldl_append, List.foldl_cons, List.foldl_nil]
    exact best.turn count small

theorem Tidy.mem_list (tidy : Tidy p) :
    x ∈ p.interests.getD i [] ↔ x < p.numpieces ∧ p.numinterests x = some i := by
  rw [List.getD_eq_getElem?_getD]
  cases there : p.interests[i]? with
  | none =>
    refine ⟨fun mem => absurd mem List.not_mem_nil, fun has => ?_⟩
    have short := List.getElem?_eq_none_iff.1 there
    exact absurd (tidy.below x i has.1 has.2) (Nat.not_lt.2 short)
  | some l => exact (tidy.lists.indexed i l there).mem

/-- The search through the lists, from the one for one peer on -/
def search (p : PiecePicker) (havefunc : ℕ → Bool) (m : ℕ) : Option ℕ :=
  (List.range' 1 m).findSome? fun i => (p.interests.getD i []).find? havefunc

theorem search_some {m r : ℕ} (tidy : Tidy p) (found : p.search havefunc m = some r) :
    havefunc r = true ∧ ∀ x, x < p.numpieces → havefunc x = true → p.numinterests x ≠ some 0 →
      p.AsRare r x := by
  obtain ⟨l, k, l', split, found, before⟩ := List.findSome?_eq_some_iff.1 found
  have mem := List.mem_of_find?_eq_some found
  refine ⟨List.find?_some found, fun x less wanted ne => ⟨k, (tidy.mem_list.1 mem).2, fun j is => ?_⟩⟩
  by_contra more
  have low : 1 ≤ j := Nat.one_le_iff_ne_zero.2 fun e => ne (e ▸ is)
  have earlier : j ∈ l := by
    obtain ⟨n, -, rfl, rest⟩ := List.range'_eq_append_iff.1 split
    have start := (List.range'_eq_cons_iff.1 rest.symm).1
    rw [List.mem_range'_1]
    omega
  exact List.find?_eq_none.1 (before j earlier) x (tidy.mem_list.2 ⟨less, is⟩) wanted

theorem search_none {m : ℕ} (tidy : Tidy p) (found : p.search havefunc m = none)
    (less : x < p.numpieces) (wanted : havefunc x = true) (is : p.numinterests x = some i) :
    i = 0 ∨ m < i := by
  by_contra inside
  have mem : i ∈ List.range' 1 m := by
    rw [List.mem_range'_1]
    omega
  exact List.find?_eq_none.1 (List.findSome?_eq_none_iff.1 found i mem) x
    (tidy.mem_list.2 ⟨less, is⟩) wanted

theorem next_spec (tidy : Tidy p) (few : ∀ x k, x < p.numpieces → p.numinterests x = some k → k < 2 ^ 30)
    (fair : ∀ n, 0 < n → randrange n < n) :
    (∀ r, p.next randrange havefunc seed = some r → havefunc r = true ∧
      (∀ x ∈ p.begun seed, havefunc x = true → r ∈ p.begun seed ∧ p.AsRare r x) ∧
      ((∀ x ∈ p.begun seed, havefunc x = false) → p.rarest_first_cutoff ≤ p.numgot →
        ∀ x, x < p.numpieces → havefunc x = true → p.numinterests x ≠ some 0 → p.AsRare r x)) ∧
    (p.next randrange havefunc seed = none → ∀ x, x < p.numpieces → havefunc x = true →
      p.numinterests x = none ∨ p.numinterests x = some 0) := by
  have known : ∀ x ∈ p.begun seed, ∃ k, p.numinterests x = some k ∧ k < 2 ^ 30 := by
    intro x mem
    have mem : x ∈ p.started := by
      cases seed with
      | false => exact mem
      | true => exact tidy.seedstarted mem
    obtain ⟨less, missing⟩ := tidy.started x mem
    obtain ⟨k, count⟩ := Option.isSome_iff_exists.1 missing
    exact ⟨k, count, few x k less count⟩
  obtain ⟨k, best⟩ : ∃ k, Best p havefunc (p.begun seed)
      ((p.begun seed).foldl (p.better havefunc) ([], some (2 ^ 30))) k := foldl_better known
  have unfolded : p.next randrange havefunc seed =
      let b := (p.begun seed).foldl (p.better havefunc) ([], some (2 ^ 30))
      if b.1 ≠ [] then b.1[randrange b.1.length]?
      else if p.numgot < p.rarest_first_cutoff then p.scrambled.find? havefunc
      else p.search havefunc (min (b.2.getD 0) p.interests.length - 1) := rfl
  rw [unfolded]
  generalize (p.begun seed).foldl (p.better havefunc) ([], some (2 ^ 30)) = b at best
  dsimp only
  by_cases some_ : b.1 ≠ []
  · rw [if_pos some_]
    have room := fair b.1.length (List.length_pos_iff.2 some_)
    rw [List.getElem?_eq_getElem room]
    refine ⟨fun r is => ?_, fun h => absurd h (Option.some_ne_none _)⟩
    obtain rfl := Option.some.inj is
    obtain ⟨mem, wanted, count⟩ := best.mem _ (List.getElem_mem room)
    exact ⟨wanted, fun x mem' wanted' => ⟨mem, k, count, best.least x mem' wanted'⟩,
      fun nothing => absurd (nothing _ mem) (by rw [wanted]; exact Bool.true_eq_false.mp)⟩
  · rw [if_neg some_]
    obtain ⟨rfl, nothing⟩ := best.empty (not_not.1 some_)
    have free {P : ℕ → Prop} : ∀ x ∈ p.begun seed, havefunc x = true → P x := fun x mem wanted =>
      absurd wanted (by rw [nothing x mem]; exact Bool.false_ne_true)
    rw [best.num, Option.getD_some]
    by_cases early : p.numgot < p.rarest_first_cutoff
    · rw [if_pos early]
      refine ⟨fun r found => ⟨List.find?_some found, free, fun _ late => by omega⟩,
        fun found x less wanted => ?_⟩
      have mem : x ∈ p.scrambled := tidy.scrambled.mem_iff.2 (List.mem_range.2 less)
      exact absurd wanted (List.find?_eq_none.1 found x mem)
    · rw [if_neg early]
      refine ⟨fun r found => ?_, fun found x less wanted => ?_⟩
      · obtain ⟨wanted, rare⟩ := search_some tidy found
        exact ⟨wanted, free, fun _ _ => rare⟩
      · cases is : p.numinterests x with
        | none => exact Or.inl rfl
        | some i =>
          have low := tidy.below x i less is
          have small := few x i less is
          rcases search_none tidy found less wanted is with zero | far
          · exact Or.inr (by rw [zero])
          · exact absurd far (Nat.not_lt.2 (by omega))

/-! ### Runs -/

/-- A call of a picker that a `Downloader` makes -/
inductive Step (p : PiecePicker) : PiecePicker → Prop where
  | got_have {p' : PiecePicker} {x : ℕ} (randrange : ℕ → ℕ) (fair : ∀ n, 0 < n → randrange n < n)
      (less : x < p.numpieces) (step : p.got_have randrange x = some p') : Step p p'
  | lost_have {p' : PiecePicker} {x : ℕ} (randrange : ℕ → ℕ) (fair : ∀ n, 0 < n → randrange n < n)
      (less : x < p.numpieces) (had : p.numinterests x ≠ some 0)
      (step : p.lost_have randrange x = some p') : Step p p'
  | requested {x : ℕ} (seed : Bool) (less : x < p.numpieces) (missing : (p.numinterests x).isSome) :
      Step p (p.requested x seed)
  | complete {p' : PiecePicker} {x : ℕ} (less : x < p.numpieces) (missing : (p.numinterests x).isSome)
      (step : p.complete x = some p') : Step p p'
  | bump {p' : PiecePicker} {x : ℕ} (less : x < p.numpieces) (missing : (p.numinterests x).isSome)
      (step : p.bump x = some p') : Step p p'

theorem Tidy.step (tidy : Tidy p) (step : Step p p') : Tidy p' := by
  cases step with
  | got_have randrange fair less step =>
    obtain ⟨q, same, tidy', -⟩ := tidy.got_have less fair
    exact Option.some.inj (same.symm.trans step) ▸ tidy'
  | lost_have randrange fair less had step =>
    obtain ⟨q, same, tidy', -⟩ := tidy.lost_have less had fair
    exact Option.some.inj (same.symm.trans step) ▸ tidy'
  | requested seed less missing => exact tidy.requested less missing
  | complete less missing step =>
    obtain ⟨q, same, tidy', -⟩ := tidy.complete less missing
    exact Option.some.inj (same.symm.trans step) ▸ tidy'
  | bump less missing step =>
    obtain ⟨q, same, tidy', -⟩ := tidy.bump less missing
    exact Option.some.inj (same.symm.trans step) ▸ tidy'

/-- The state after a run of calls -/
structure Reached (p : PiecePicker) : Prop where
  run : ∃ numpieces cutoff scrambled, scrambled.Perm (List.range numpieces) ∧
    Relation.ReflTransGen Step (init numpieces cutoff scrambled) p

theorem Reached.tidy (reached : Reached p) : Tidy p := by
  obtain ⟨numpieces, cutoff, scrambled, perm, run⟩ := reached.run
  induction run with
  | refl => exact init_tidy perm
  | tail _ step ih => exact (ih ⟨_, _, _, perm, by assumption⟩).step step

/-- In every run, a piece that is chosen is wanted.  If pieces that are begun are wanted it is one of
these, and the rarest of these; else, as soon as enough pieces are complete, it is the rarest of all.
No piece is chosen only if nobody has any that is wanted. -/
theorem picked (reached : Reached p) (few : ∀ x k, x < p.numpieces → p.numinterests x = some k → k < 2 ^ 30)
    (fair : ∀ n, 0 < n → randrange n < n) (havefunc : ℕ → Bool) (seed : Bool) :
    (∀ r, p.next randrange havefunc seed = some r → havefunc r = true ∧
      (∀ x ∈ p.begun seed, havefunc x = true → r ∈ p.begun seed ∧ p.AsRare r x) ∧
      ((∀ x ∈ p.begun seed, havefunc x = false) → p.rarest_first_cutoff ≤ p.numgot →
        ∀ x, x < p.numpieces → havefunc x = true → p.numinterests x ≠ some 0 → p.AsRare r x)) ∧
    (p.next randrange havefunc seed = none → ∀ x, x < p.numpieces → havefunc x = true →
      p.numinterests x = none ∨ p.numinterests x = some 0) :=
  next_spec reached.tidy few fair

theorem picked_small : ∃ p, (init 2 0 [0, 1]).got_have (fun _ => 0) 1 = some p ∧
    ∀ r, p.next (fun _ => 0) (fun _ => true) false = some r → p.AsRare r 1 := by
  have fair : ∀ n, 0 < n → (fun _ => 0 : ℕ → ℕ) n < n := fun n pos => pos
  have start : Tidy (init 2 0 [0, 1]) := init_tidy (List.Perm.refl (List.range 2))
  obtain ⟨p, step, -, frame⟩ := start.got_have (x := 1) (by decide) fair
  have counts : p.numinterests = Function.update (fun _ => some 0) 1 (some 1) := by
    rw [frame]
    rfl
  have reached : Reached p := ⟨2, 0, [0, 1], List.Perm.refl _, .single (.got_have _ fair (by decide) step)⟩
  refine ⟨p, step, fun r is => ((picked reached (fun x k _ is => ?_) fair _ false).1 r is).2.2
    (fun x mem => ?_) ?_ 1 ?_ rfl ?_⟩
  · rw [counts] at is
    by_cases one : x = 1
    · rw [one, Function.update_self, Option.some.injEq] at is
      omega
    · rw [Function.update_of_ne one, Option.some.injEq] at is
      omega
  · rw [frame] at mem
    exact absurd mem List.not_mem_nil
  · rw [frame]
    exact Nat.le_refl 0
  · rw [frame]
    exact Nat.one_lt_two
  · rw [counts, Function.update_self]
    decide

end PiecePicker

end Ydfs.BitTorrent
