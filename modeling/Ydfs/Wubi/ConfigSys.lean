import Ydfs.Text.Search
import Ydfs.Wubi.BootIni

/-!
# config.sys

`modify_configsys` appends a marked block, `undo_configsys` looks for the two markers and cuts the
block out.  The cut leaves the blanks of the template around the block, so that every round through
the two makes the file longer; and where a marker is missing, or the end comes first, the places that
are found cut something else.
-/

namespace Ydfs.Wubi.Win32

open Lines Search

/-! ### Strings of Python -/

/-- `str.find`, which is -1 where there is nothing to be found. -/
def strFind (config marker : Text) : ℤ :=
  match find marker config with
  | some k => k
  | none => -1

/-- The number of characters that a bound of a slice lets pass, a negative one being counted from
the end. -/
def sliceBound (config : Text) (i : ℤ) : ℕ :=
  if i < 0 then config.length - i.natAbs else i.toNat

/-- `config[:i]`. -/
def sliceTo (config : Text) (i : ℤ) : Text := config.take (sliceBound config i)

/-- `config[i:]`. -/
def sliceFrom (config : Text) (i : ℤ) : Text := config.drop (sliceBound config i)

/-! ### The model of the source -/

/-- The marker at the beginning of the block. -/
def menuStart : Text := "REM WUBI MENU START\n".toList

/-- The marker at the end of the block. -/
def menuEnd : Text := "REM WUBI MENU END\n".toList

/-- What `modify_configsys` appends after the first newline. -/
def menuLines : Text := unlines '\n'
  ["        REM WUBI MENU START".toList,
    "        [menu]".toList,
    "        menucolor=15,0".toList,
    "        menuitem=windows,Windows".toList,
    "        menuitem=wubildr,$distro".toList,
    "        menudefault=windows,10".toList,
    "        [wubildr]".toList,
    "        device=wubildr.exe".toList,
    "        [windows]".toList,
    [],
    "        REM WUBI MENU END".toList] ++ "        ".toList

/-- The content that `modify_configsys` writes. -/
def modifyConfig (config : Text) : Text :=
  if menuStart <:+: config then config else config ++ '\n' :: menuLines

/-- `modify_configsys`. -/
def modifyConfigsys (drive : Drive) : Drive :=
  match drive.configsys with
  | none => drive
  | some config => { drive with configsys := some (modifyConfig config), wubildrExe := true }

/-- The content that `undo_configsys` writes. -/
def undoConfig (config : Text) : Text :=
  let s := strFind config menuStart
  let e := strFind config menuEnd
  let e := if s > 0 ∧ e > 0 then e + ("REM WUBI MENU END".length : ℤ) else e
  sliceTo config s ++ sliceFrom config e

/-- `undo_configsys`. -/
def undoConfigsys (drive : Drive) : Drive :=
  { drive with configsys := drive.configsys.map undoConfig }

/-- An installation and an uninstallation. -/
def cycle (config : Text) : Text := undoConfig (modifyConfig config)

/-- The two tasks on a drive. -/
theorem configsys_cycle (drive : Drive) :
    (undoConfigsys (modifyConfigsys drive)).configsys = drive.configsys.map cycle := by
  cases h : drive.configsys <;> simp [undoConfigsys, modifyConfigsys, h, cycle]

/-! ### The markers and the block -/

theorem menuStart_ne_nil : menuStart ≠ [] := by decide

theorem menuEnd_ne_nil : menuEnd ≠ [] := by decide

theorem apart_start_end : Apart menuStart menuEnd := by decide

theorem apart_end_start : Apart menuEnd menuStart := by decide

theorem apart_start_newline : Apart menuStart.dropLast ['\n'] := by decide

theorem apart_end_newline : Apart menuEnd.dropLast ['\n'] := by decide

theorem find_start_menuLines : find menuStart menuLines = some 8 := by decide

theorem find_end_menuLines : find menuEnd menuLines = some 235 := by decide +kernel

/-- What a round leaves of the block, after its first newline. -/
def gap : Text := "        \n        ".toList

theorem menuLines_cut : menuLines.take 8 ++ menuLines.drop (235 + 17) = gap := by decide

/-! ### What `undo_configsys` cuts -/

theorem strFind_of_find {config marker : Text} {k : ℕ} (h : find marker config = some k) :
    strFind config marker = k := by
  simp [strFind, h]

theorem strFind_of_none {config marker : Text} (h : find marker config = none) :
    strFind config marker = -1 := by
  simp [strFind, h]

@[simp] theorem sliceBound_natCast (config : Text) (k : ℕ) : sliceBound config k = k := by
  have nonneg : ¬ (k : ℤ) < 0 := by omega
  simp [sliceBound, nonneg]

@[simp] theorem sliceBound_neg_one (config : Text) : sliceBound config (-1) = config.length - 1 := by
  simp [sliceBound]

/-- Both markers are found. -/
theorem undoConfig_of_found {config : Text} {s e : ℕ} (hs : find menuStart config = some s)
    (he : find menuEnd config = some e) :
    undoConfig config =
      config.take s ++ config.drop (if 0 < s ∧ 0 < e then e + 17 else e) := by
  have length : "REM WUBI MENU END".length = 17 := by decide
  have positive : ((s : ℤ) > 0 ∧ (e : ℤ) > 0) ↔ (0 < s ∧ 0 < e) := by omega
  have place : (if 0 < s ∧ 0 < e then (e : ℤ) + (17 : ℕ) else e) =
      ((if 0 < s ∧ 0 < e then e + 17 else e : ℕ) : ℤ) := by
    split_ifs <;> rfl
  simp only [undoConfig, strFind_of_find hs, strFind_of_find he, length, positive, place, sliceTo,
    sliceFrom, sliceBound_natCast]

/-- The end marker is missing. -/
theorem undoConfig_of_no_end {config : Text} {s : ℕ} (hs : find menuStart config = some s)
    (he : find menuEnd config = none) :
    undoConfig config = config.take s ++ config.drop (config.length - 1) := by
  simp [undoConfig, strFind_of_find hs, strFind_of_none he, sliceTo, sliceFrom]

/-- Two slices that meet or overlap lose nothing. -/
theorem sublist_take_append_drop (config : Text) {i k : ℕ} (h : k ≤ i) :
    List.Sublist config (config.take i ++ config.drop k) := by
  have rest : List.Sublist (config.drop i) (config.drop k) := List.drop_sublist_drop_left config h
  calc config = config.take i ++ config.drop i := (List.take_append_drop i config).symm
    List.Sublist _ (config.take i ++ config.drop k) := (List.Sublist.refl _).append rest

/-- The start marker is missing. -/
theorem sublist_undoConfig_of_no_start {config : Text} (hs : find menuStart config = none) :
    List.Sublist config (undoConfig config) := by
  cases he : find menuEnd config with
  | none =>
    simp [undoConfig, strFind_of_none hs, strFind_of_none he, sliceTo, sliceFrom]
  | some e =>
    have fits := (Occurs.of_find he).le menuEnd_ne_nil
    have length : menuEnd.length = 18 := by decide
    have overlap := sublist_take_append_drop config (show e ≤ config.length - 1 by omega)
    simpa [undoConfig, strFind_of_none hs, strFind_of_find he, sliceTo, sliceFrom] using overlap

/-- A content that `modify_configsys` has written has a start marker. -/
theorem menuStart_infix_modifyConfig (config : Text) : menuStart <:+: modifyConfig config := by
  unfold modifyConfig
  split_ifs with h
  · exact h
  · have block := Occurs.within (Occurs.of_find find_start_menuLines)
    exact block.trans ((List.suffix_cons _ _).isInfix.trans (List.suffix_append _ _).isInfix)

theorem modifyConfig_of_start {config : Text} (h : menuStart <:+: config) :
    modifyConfig config = config := if_pos h

theorem modifyConfig_of_no_start {config : Text} (h : ¬ menuStart <:+: config) :
    modifyConfig config = config ++ '\n' :: menuLines := if_neg h

/-! ### A content without markers -/

/-- No line of the content ends with a marker, the last line included. -/
def MarkerFree (config : Text) : Prop :=
  ¬ menuStart <:+: config ++ ['\n'] ∧ ¬ menuEnd <:+: config ++ ['\n']

theorem MarkerFree.no_start {config : Text} (h : MarkerFree config) : ¬ menuStart <:+: config :=
  fun start => h.1 (start.trans (List.prefix_append _ _).isInfix)

/-- A round leaves two blank lines' worth of characters. -/
theorem MarkerFree.cycle_eq {config : Text} (h : MarkerFree config) :
    cycle config = config ++ '\n' :: gap := by
  have hs : find menuStart (config ++ '\n' :: menuLines) = some (8 + (config.length + 1)) := by
    rw [find_append_terminator menuStart_ne_nil apart_start_newline h.1, find_start_menuLines]
    rfl
  have he : find menuEnd (config ++ '\n' :: menuLines) = some (235 + (config.length + 1)) := by
    rw [find_append_terminator menuEnd_ne_nil apart_end_newline h.2, find_end_menuLines]
    rfl
  have left : (config ++ '\n' :: menuLines).take (8 + (config.length + 1)) =
      config ++ '\n' :: menuLines.take 8 := by
    rw [List.take_append, List.take_of_length_le (by omega),
      show 8 + (config.length + 1) - config.length = 8 + 1 by omega, List.take_succ_cons]
  have right : (config ++ '\n' :: menuLines).drop (235 + (config.length + 1) + 17) =
      menuLines.drop (235 + 17) := by
    rw [List.drop_append, List.drop_eq_nil_of_le (by omega),
      show 235 + (config.length + 1) + 17 - config.length = 235 + 17 + 1 by omega,
      List.drop_succ_cons, List.nil_append]
  rw [cycle, modifyConfig_of_no_start h.no_start, undoConfig_of_found hs he, if_pos (by omega),
    left, right, List.append_assoc, List.cons_append, menuLines_cut]

/-- The markers do not come back with the blanks. -/
theorem MarkerFree.append_gap {config : Text} (h : MarkerFree config) :
    MarkerFree (config ++ '\n' :: gap) := by
  have free_start : ¬ menuStart <:+: gap ++ ['\n'] := by decide
  have free_end : ¬ menuEnd <:+: gap ++ ['\n'] := by decide
  rw [MarkerFree, List.append_assoc, List.cons_append, ← find_eq_none menuStart_ne_nil,
    ← find_eq_none menuEnd_ne_nil, find_append_terminator menuStart_ne_nil apart_start_newline h.1,
    find_append_terminator menuEnd_ne_nil apart_end_newline h.2,
    (find_eq_none menuStart_ne_nil).2 free_start, (find_eq_none menuEnd_ne_nil).2 free_end]
  exact ⟨rfl, rfl⟩

/-! ### What is cut besides the block -/

theorem menuStart_length : menuStart.length = 20 := by decide

theorem menuEnd_length : menuEnd.length = 18 := by decide

/-- One marker comes after the other. -/
theorem markers_apart {config : Text} {s e : ℕ} (hs : Occurs menuStart config s)
    (he : Occurs menuEnd config e) : s + 20 ≤ e ∨ e + 18 ≤ s := by
  rcases Nat.le_total s e with le | le
  · have after := apart_start_end.le hs he le
    rw [menuStart_length] at after
    exact .inl after
  · have after := apart_end_start.le he hs le
    rw [menuEnd_length] at after
    exact .inr after

/-- `undo_configsys` deletes nothing, or nothing outside a block from a start marker to an end
marker. -/
def KeepsOutside (config : Text) : Prop :=
  List.Sublist config (undoConfig config) ∨
    ∃ before block after, config = before ++ menuStart ++ block ++ menuEnd ++ after ∧
      List.Sublist (before ++ after) (undoConfig config)

/-- A block is cut out, possibly without its end marker. -/
theorem keeps_of_start_first {config : Text} {s e : ℕ} (hs : find menuStart config = some s)
    (he : find menuEnd config = some e) (after : s + 20 ≤ e) :
    ∃ before block after, config = before ++ menuStart ++ block ++ menuEnd ++ after ∧
      List.Sublist (before ++ after) (undoConfig config) := by
  have left := (Occurs.of_find he).split
  have start : Occurs menuStart (config.take e) s :=
    occurs_take.2 ⟨.of_find hs, by rw [menuStart_length]; omega⟩
  have middle := start.split
  rw [List.take_take, min_eq_left (by omega)] at middle
  refine ⟨config.take s, (config.take e).drop (s + menuStart.length), config.drop (e + 18), ?_, ?_⟩
  · rw [middle, ← menuEnd_length, left]
  · rw [undoConfig_of_found hs he]
    exact (List.Sublist.refl _).append (List.drop_sublist_drop_left config (by split_ifs <;> omega))

/-- Text outside a block is lost exactly if there is a start marker and no end marker at all. -/
theorem keepsOutside_iff (config : Text) :
    KeepsOutside config ↔ (menuStart <:+: config → menuEnd <:+: config) := by
  constructor
  · rintro (kept | ⟨before, block, after, rfl, -⟩) start
    · by_contra no_end
      obtain ⟨s, hs⟩ := find_of_infix menuStart_ne_nil start
      have fits := (Occurs.of_find hs).le menuStart_ne_nil
      have longer := kept.length_le
      rw [undoConfig_of_no_end hs ((find_eq_none menuEnd_ne_nil).2 no_end), List.length_append,
        List.length_take, List.length_drop] at longer
      rw [menuStart_length] at fits
      omega
    · exact ⟨before ++ menuStart ++ block, after, rfl⟩
  · intro complete
    by_cases start : menuStart <:+: config
    · obtain ⟨s, hs⟩ := find_of_infix menuStart_ne_nil start
      obtain ⟨e, he⟩ := find_of_infix menuEnd_ne_nil (complete start)
      have undone := undoConfig_of_found hs he
      rcases markers_apart (.of_find hs) (.of_find he) with after | after
      · exact .inr (keeps_of_start_first hs he after)
      · refine .inl ?_
        rw [undone]
        exact sublist_take_append_drop config (by split_ifs <;> omega)
    · exact .inl (sublist_undoConfig_of_no_start ((find_eq_none menuStart_ne_nil).2 start))

/-! ### How the file grows -/

/-- No length bounds the contents after all numbers of rounds. -/
def Grows (config : Text) : Prop := ∀ N : ℕ, ∃ n, N < (cycle^[n] config).length

theorem Grows.of_cycle {config : Text} (h : Grows (cycle config)) : Grows config := fun N =>
  let ⟨n, hn⟩ := h N
  ⟨n + 1, hn⟩

/-- Where every round makes the file longer and comes back to the same kind of content. -/
theorem grows_of_step (kind : Text → Prop)
    (step : ∀ config, kind config → kind (cycle config) ∧ config.length < (cycle config).length)
    {config : Text} (h : kind config) : Grows config := by
  have longer (n : ℕ) : kind (cycle^[n] config) ∧ n ≤ (cycle^[n] config).length := by
    induction n with
    | zero => exact ⟨h, Nat.zero_le _⟩
    | succ n ih =>
      obtain ⟨again, grown⟩ := step _ ih.1
      rw [Function.iterate_succ_apply']
      exact ⟨again, by omega⟩
  intro N
  have := (longer (N + 1)).2
  exact ⟨N + 1, by omega⟩

theorem MarkerFree.grows {config : Text} (h : MarkerFree config) : Grows config := by
  refine grows_of_step MarkerFree (fun config h => ?_) h
  rw [h.cycle_eq]
  exact ⟨h.append_gap, by simp⟩

/-- The first end marker comes before the first start marker. -/
def EndFirst (config : Text) : Prop :=
  ∃ s e, find menuStart config = some s ∧ find menuEnd config = some e ∧ e < s

theorem EndFirst.hasStart {config : Text} (h : EndFirst config) : menuStart <:+: config := by
  obtain ⟨s, e, hs, -, -⟩ := h
  exact (Occurs.of_find hs).within

/-- What lies between the markers is written twice. -/
theorem EndFirst.undo {config : Text} (h : EndFirst config) :
    EndFirst (undoConfig config) ∧ config.length < (undoConfig config).length := by
  obtain ⟨s, e, hs, he, lt⟩ := h
  have start := Occurs.of_find hs
  have ending := Occurs.of_find he
  have fits := start.le menuStart_ne_nil
  have after : e + 18 ≤ s := by
    rcases markers_apart start ending with after | after <;> omega
  obtain ⟨d, hd, undone⟩ : ∃ d, d < s ∧ undoConfig config = config.take s ++ config.drop d := by
    refine ⟨_, ?_, undoConfig_of_found hs he⟩
    split_ifs <;> omega
  have prefix_length : (config.take s).length = s := by
    rw [List.length_take]
    omega
  -- up to `s` nothing has changed
  have same {marker : Text} {k : ℕ} (h : k + marker.length ≤ s) :
      Occurs marker (config.take s ++ config.drop d) k ↔ Occurs marker config k := by
    rw [occurs_append_left (by omega), occurs_take]
    exact and_iff_left (by omega)
  have ending' := (same (by rw [menuEnd_length]; omega)).2 ending
  have he' : find menuEnd (config.take s ++ config.drop d) = some e := by
    refine find_eq_some menuEnd_ne_nil ending' fun j hj => ?_
    by_contra before
    exact before (le_of_find menuEnd_ne_nil he ((same (by rw [menuEnd_length]; omega)).1 hj))
  have rest : Occurs menuStart (config.drop d) (s - d) := by
    rw [Occurs, List.drop_drop, Nat.add_sub_cancel' hd.le]
    exact start
  obtain ⟨s', hs'⟩ := find_of_infix menuStart_ne_nil
    (rest.within.trans (List.suffix_append (config.take s) _).isInfix)
  have start' := Occurs.of_find hs'
  rw [undone]
  constructor
  · refine ⟨s', e, hs', he', ?_⟩
    rcases markers_apart start' ending' with before | after
    · have := le_of_find menuStart_ne_nil hs ((same (by rw [menuStart_length]; omega)).1 start')
      omega
    · omega
  · rw [List.length_append, prefix_length, List.length_drop]
    omega

theorem EndFirst.grows {config : Text} (h : EndFirst (modifyConfig config)) : Grows config := by
  refine grows_of_step (fun config => EndFirst (modifyConfig config)) (fun config h => ?_) h
  obtain ⟨again, grown⟩ := h.undo
  have written : config.length ≤ (modifyConfig config).length := by
    unfold modifyConfig
    split_ifs <;> simp
  constructor
  · show EndFirst (modifyConfig (undoConfig (modifyConfig config)))
    rw [modifyConfig_of_start again.hasStart]
    exact again
  · show config.length < (undoConfig (modifyConfig config)).length
    omega

theorem menuLines_length : menuLines.length = 261 := by
  have fits := (Occurs.of_find find_end_menuLines).le menuEnd_ne_nil
  have rest := congrArg List.length menuLines_cut
  have gap_length : gap.length = 17 := by decide
  rw [List.length_append, List.length_take, List.length_drop, gap_length] at rest
  omega

/-- A content that is a start marker without its newline grows from the second round on. -/
theorem grows_bare_start : Grows menuStart.dropLast := by
  have first : cycle menuStart.dropLast = menuEnd ++ "        ".toList := by decide +kernel
  have free : ¬ menuStart <:+: menuEnd ++ "        ".toList := by decide
  refine Grows.of_cycle (EndFirst.grows ?_)
  rw [first, modifyConfig_of_no_start free]
  exact ⟨35, 0, by decide, by decide, by omega⟩

/-- The last line of a content is a start marker that modify_configsys completes. -/
theorem bare_start_cases {config : Text} (absent : ¬ menuStart <:+: config)
    (completed : menuStart <:+: config ++ ['\n']) {s e : ℕ}
    (hs : find menuStart (config ++ '\n' :: menuLines) = some s)
    (he : find menuEnd (config ++ '\n' :: menuLines) = some e) (after : s + 20 ≤ e) :
    s + 19 = config.length ∧ config.length + 236 ≤ e := by
  have within {k : ℕ} (hk : Occurs menuStart (config ++ ['\n']) k) : config.length < k + 20 := by
    by_contra inside
    exact absent ((occurs_append_left (by rw [menuStart_length]; omega)).1 hk).within
  obtain ⟨i, hi⟩ := infix_iff_occurs.1 completed
  have fits := hi.le menuStart_ne_nil
  simp only [List.length_append, List.length_singleton, menuStart_length] at fits
  have split : config ++ '\n' :: menuLines = config ++ ['\n'] ++ menuLines := by simp
  have le : s ≤ i := by
    refine le_of_find menuStart_ne_nil hs ?_
    rw [split, occurs_append_left (by simp [menuStart_length]; omega)]
    exact hi
  have start : Occurs menuStart (config ++ ['\n']) s := by
    refine (Occurs.of_terminator (Occurs.of_find hs) apart_start_newline).resolve_right ?_
    omega
  have last := within start
  obtain ⟨-, ending⟩ := (Occurs.of_terminator (Occurs.of_find he) apart_end_newline).resolve_left
    fun before => by
      have fits := before.le menuEnd_ne_nil
      simp only [List.length_append, List.length_singleton, menuEnd_length] at fits
      omega
  have later := le_of_find menuEnd_ne_nil find_end_menuLines ending
  omega

theorem bare_start_eq {config : Text} (completed : menuStart <:+: config ++ ['\n'])
    (length : config.length = 19) : config = menuStart.dropLast := by
  have whole := completed.eq_of_length (by simp [menuStart_length, length])
  rw [whole, List.dropLast_concat]

/-- A round on a content with a start marker makes it shorter, or it grows. -/
theorem shrinks_or_grows_of_start {config : Text} (start : menuStart <:+: config) :
    (cycle config).length < config.length ∨ Grows config := by
  obtain ⟨s, hs⟩ := find_of_infix menuStart_ne_nil start
  have fits := (Occurs.of_find hs).le menuStart_ne_nil
  rw [menuStart_length] at fits
  cases he : find menuEnd config with
  | none =>
    left
    rw [cycle, modifyConfig_of_start start, undoConfig_of_no_end hs he, List.length_append,
      List.length_take, List.length_drop]
    omega
  | some e =>
    rcases markers_apart (.of_find hs) (.of_find he) with after | after
    · left
      rw [cycle, modifyConfig_of_start start, undoConfig_of_found hs he, List.length_append,
        List.length_take, List.length_drop]
      split_ifs <;> omega
    · right
      refine EndFirst.grows ?_
      rw [modifyConfig_of_start start]
      exact ⟨s, e, hs, he, by omega⟩

/-- If the block that is written begins with the first start marker, the content has no markers. -/
theorem markerFree_of_block {config : Text} {s e : ℕ} (absent : ¬ menuStart <:+: config ++ ['\n'])
    (hs : find menuStart (config ++ '\n' :: menuLines) = some s)
    (he : find menuEnd (config ++ '\n' :: menuLines) = some e) (after : s + 20 ≤ e) :
    MarkerFree config := by
  refine ⟨absent, fun ending => ?_⟩
  -- the last line is an end marker, hence before the block
  have place : s = 8 + (config.length + 1) := by
    rw [find_append_terminator menuStart_ne_nil apart_start_newline absent, find_start_menuLines,
      Option.map_some, Option.some.injEq] at hs
    exact hs.symm
  obtain ⟨k, hk⟩ := infix_iff_occurs.1 ending
  have fits := hk.le menuEnd_ne_nil
  simp only [List.length_append, List.length_singleton, menuEnd_length] at fits
  have earlier : Occurs menuEnd (config ++ ['\n'] ++ menuLines) k :=
    (occurs_append_left (by simp [menuEnd_length]; omega)).2 hk
  rw [List.append_assoc] at earlier
  have := le_of_find menuEnd_ne_nil he earlier
  omega

/-- A round on a content without a start marker makes it shorter, or it grows. -/
theorem shrinks_or_grows_of_no_start {config : Text} (absent : ¬ menuStart <:+: config) :
    (cycle config).length < config.length ∨ Grows config := by
  have written := modifyConfig_of_no_start absent
  have start := menuStart_infix_modifyConfig config
  have block : menuEnd <:+: config ++ '\n' :: menuLines :=
    (Occurs.of_find find_end_menuLines).within.trans
      ((List.suffix_cons _ _).isInfix.trans (List.suffix_append _ _).isInfix)
  rw [written] at start
  obtain ⟨s, hs⟩ := find_of_infix menuStart_ne_nil start
  obtain ⟨e, he⟩ := find_of_infix menuEnd_ne_nil block
  rcases markers_apart (.of_find hs) (.of_find he) with after | after
  · by_cases completed : menuStart <:+: config ++ ['\n']
    · obtain ⟨hlast, hend⟩ := bare_start_cases absent completed hs he after
      rcases Nat.eq_zero_or_pos s with rfl | pos
      · right
        rw [bare_start_eq completed (by omega)]
        exact grows_bare_start
      · left
        rw [cycle, written, undoConfig_of_found hs he, if_pos (by omega), List.length_append,
          List.length_take, List.length_drop, List.length_append, List.length_cons,
          menuLines_length]
        omega
    · exact .inr (markerFree_of_block completed hs he after).grows
  · exact .inr (EndFirst.grows ⟨s, e, by rw [written, hs], by rw [written, he], by omega⟩)

/-- Every content grows without bound under rounds of installing and uninstalling. -/
theorem grows (config : Text) : Grows config := by
  induction hn : config.length using Nat.strong_induction_on generalizing config with
  | _ n ih =>
    have round : (cycle config).length < config.length ∨ Grows config := by
      by_cases start : menuStart <:+: config
      · exact shrinks_or_grows_of_start start
      · exact shrinks_or_grows_of_no_start start
    rcases round with shorter | grown
    · exact (ih _ (hn ▸ shorter) (cycle config) rfl).of_cycle
    · exact grown

/-! ### The round trip -/

/-- What is expected of config.sys: a content without markers comes back, nothing outside a marked
block is deleted, and no number of rounds makes the file longer. -/
def RoundTrip (config : Text) : Prop :=
  (MarkerFree config → cycle config = config) ∧ KeepsOutside config ∧
    ∀ n, (cycle^[n] config).length ≤ config.length

/-- No content has a round trip: a round never gives back a content without markers, and enough
rounds make any content longer. -/
theorem not_configsys_round_trip (config : Text) : ¬ RoundTrip config := by
  rintro ⟨-, -, bounded⟩
  obtain ⟨n, hn⟩ := grows config config.length
  exact absurd (bounded n) (by omega)

/-- A content without markers does not come back. -/
theorem MarkerFree.cycle_ne {config : Text} (h : MarkerFree config) : cycle config ≠ config := by
  intro back
  have longer := congrArg List.length (h.cycle_eq.symm.trans back)
  simp at longer

/-- One round writes blanks after a line. -/
theorem not_roundTrip_himem : ¬ ∀ config, RoundTrip config := by
  intro trips
  have back := (trips "DEVICE=HIMEM.SYS\n".toList).1 ⟨by decide, by decide⟩
  exact absurd back (by decide)

end Ydfs.Wubi.Win32
