import Ydfs.Wubi.Paths

/-!
# The tarball in a disk image

`download_diskimage` saves a disk image under the last part of its URL, and `extract_diskimage` asks
7z for the tarball in the file that has been saved.  The name of the tarball is that of the file
without the letters `.`, `x` and `z` at both ends, and not without the ending `.xz`: it is right if
the name of the tarball has none of the three at its ends.  A disk image that is a local file is not
saved, `urlgrab` gives its own path.
-/

namespace Ydfs.Wubi.DiskImage

open NtPath (FileName EndsIn)
open Win32 (Text)

/-! ### The model of the source -/

/-- `str.strip` with letters to take away -/
def strip (letters x : Text) : Text := (x.dropWhile (· ∈ letters)).rdropWhile (· ∈ letters)

/-- The attributes of `info`, the working directory, what is a directory, the path of the local file
that a URL names (if there is one), and whether a URL can be fetched into a file. -/
structure Env where
  isoExtractor : Text
  disksDir : Text
  cwd : Text
  isdir : Text → Bool
  localFile : Text → Option Text
  fetch : Text → Text → Bool

/-- The letters of a scheme. -/
def isSchemeChar (c : Char) : Bool := c.isAlphanum || c ∈ ['+', '-', '.']

/-- The scheme of `urlparse`, empty without one. -/
def scheme (url : Text) : Text :=
  let head := url.takeWhile (· ≠ ':')
  if head.length < url.length ∧ head.all isSchemeChar then head.map Char.toLower else []

/-- The URLs that the parser of `urlgrab` gives or leaves the scheme `file`: those without a scheme,
those with the letter of a drive, and `file:` itself. -/
def isLocal (url : Text) : Bool :=
  scheme url = [] || ((scheme url).length = 1 && (scheme url).all Char.isAlpha) ||
    scheme url = "file".toList

/-- What `urlgrab` leaves: the path that it returns, and the file that it has saved. -/
structure Grab where
  path : Text
  saved : Option Text

/-- `urlgrab` with `copy_local` 0, unless it raises: of a local file just the name is returned. -/
def urlgrab (env : Env) (url filename : Text) : Option Grab :=
  if isLocal url then (env.localFile url).map fun path => ⟨path, none⟩
  else if env.fetch url filename then some ⟨filename, some filename⟩
  else none

/-- `join_path` of two paths -/
def joinPath (env : Env) (dir name : Text) : Text :=
  let dir := if dir.getLast? = some ':' then dir ++ ['\\'] else dir
  NtPath.abspath env.cwd (NtPath.join dir name)

/-- The file that `download` has `urlgrab` save. -/
def target (env : Env) (url filename : Text) : Text :=
  if env.isdir filename then NtPath.join filename (NtPath.basename url) else filename

/-- `download` -/
def download (env : Env) (url filename : Text) : Option Grab :=
  urlgrab env url (target env url filename)

/-- `save_as` in `download_diskimage` -/
def saveAs (env : Env) (diskimage : Text) : Text :=
  joinPath env env.disksDir ((diskimage.splitOn '/').getLastD [])

/-- `download_diskimage`: the `dimage_path`, if it returns `True`, and what has been saved -/
def downloadDiskimage (env : Env) (diskimage : Text) : Option Grab :=
  download env diskimage (saveAs env diskimage)

/-- The command line of `extract_diskimage` that reads the xz format. -/
def decXz (env : Env) (dimagePath : Text) : List Text :=
  let tarball := strip ".xz".toList (NtPath.basename dimagePath)
  [env.isoExtractor, "e".toList, "-i!".toList ++ tarball, "-so".toList, dimagePath]

/-! ### Letters at the ends -/

variable {letters b : Text}

theorem strip_append {suffix : Text} (all : ∀ c ∈ suffix, c ∈ letters) (b : Text) :
    strip letters (b ++ suffix) = strip letters b := by
  have gone : suffix.dropWhile (· ∈ letters) = [] := by
    rw [List.dropWhile_eq_nil_iff]
    exact fun c mem => decide_eq_true (all c mem)
  have back : ∀ u : Text, (u ++ suffix).rdropWhile (· ∈ letters) = u.rdropWhile (· ∈ letters) := by
    intro u
    have last : ∀ c ∈ suffix.reverse, decide (c ∈ letters) = true :=
      fun c mem => decide_eq_true (all c (List.mem_reverse.1 mem))
    rw [List.rdropWhile, List.reverse_append, List.dropWhile_append_of_pos last, List.rdropWhile]
  rw [strip, strip, List.dropWhile_append, gone]
  split_ifs with empty
  · rw [List.isEmpty_iff.1 empty]
  · exact back _

theorem strip_eq_self_iff : strip letters b = b ↔
    (∀ c ∈ b.head?, c ∉ letters) ∧ ∀ c ∈ b.getLast?, c ∉ letters := by
  have front : b.dropWhile (· ∈ letters) = b ↔ ∀ c ∈ b.head?, c ∉ letters := by
    cases b with
    | nil => simp
    | cons c b => simp [List.dropWhile_eq_self_iff]
  have back : b.rdropWhile (· ∈ letters) = b ↔ ∀ c ∈ b.getLast?, c ∉ letters := by
    rcases List.eq_nil_or_concat' b with rfl | ⟨b, c, rfl⟩
    · simp
    · simp [List.rdropWhile_eq_self_iff]
  rw [← front, ← back, strip]
  constructor
  · intro same
    have shorter := (List.rdropWhile_prefix (· ∈ letters) (l := b.dropWhile (· ∈ letters))).length_le
    have suffix := List.dropWhile_suffix (· ∈ letters) (l := b)
    have whole : b.dropWhile (· ∈ letters) = b := by
      refine suffix.eq_of_length_le ?_
      rwa [same] at shorter
    rw [whole] at same
    exact ⟨whole, same⟩
  · rintro ⟨first, last⟩
    rw [first, last]

/-! ### The tarball -/

variable {env : Env} {url : Text} {image : Grab}

/-- The letters of `.xz` are not at the ends of the name. -/
def EndsPlain (b : Text) : Prop :=
  (∀ c ∈ b.head?, c ∉ ".xz".toList) ∧ ∀ c ∈ b.getLast?, c ∉ ".xz".toList

/-- The name of a disk image. -/
def xz (b : Text) : Text := b ++ ".xz".toList

theorem fileName_xz (legal : ∀ c ∈ b, c ≠ '/' ∧ c ≠ '\\' ∧ c ≠ ':') : FileName (xz b) := by
  have letter : ∀ c ∈ xz b, c ≠ '/' ∧ c ≠ '\\' ∧ c ≠ ':' := by
    have suffix : ∀ c ∈ ".xz".toList, c ≠ '/' ∧ c ≠ '\\' ∧ c ≠ ':' := by simp
    intro c mem
    exact (List.mem_append.1 mem).elim (legal c) (suffix c)
  have other : ∀ w : Text, w.length < 3 → xz b ≠ w := by
    rintro w short rfl
    rw [xz, List.length_append] at short
    exact absurd short (by simp)
  exact
    { ne := other [] (by decide)
      slash := fun mem => (letter _ mem).1 rfl
      backslash := fun mem => (letter _ mem).2.1 rfl
      colon := fun mem => (letter _ mem).2.2 rfl
      dot := other ['.'] (by decide)
      dots := other ['.', '.'] (by decide) }

/-- The last part of a URL. -/
theorem endsIn_of_getLast {name : Text} (last : (url.splitOn '/').getLast? = some name) :
    EndsIn name url := by
  obtain ⟨parts, split⟩ := List.getLast?_eq_some_iff.1 last
  have whole : ['/'].intercalate (url.splitOn '/') = url := List.intercalate_splitOn '/'
  rw [split, Lines.intercalate_concat] at whole
  refine ⟨[], Lines.unlines '/' parts, whole.symm, .inl rfl, ?_⟩
  rcases List.eq_nil_or_concat' parts with rfl | ⟨before, c, rfl⟩
  · exact .inl rfl
  · exact .inr (.inr (by simp [Lines.unlines]))

theorem endsIn_joinPath {name : Text} (file : FileName name) (dir : Text) :
    EndsIn name (joinPath env dir name) :=
  (((EndsIn.self name).join file _).join file env.cwd).normpath file

/-- What is saved has the name that the URL ends in. -/
theorem basename_target {name : Text} (file : FileName name)
    (last : (url.splitOn '/').getLast? = some name) :
    NtPath.basename (target env url (saveAs env url)) = name := by
  have saved : EndsIn name (saveAs env url) := by
    rw [saveAs, List.getLastD_eq_getLast?, last]
    exact endsIn_joinPath file _
  rw [target]
  split_ifs
  · rw [(endsIn_of_getLast last).basename file]
    exact ((EndsIn.self name).join file _).basename file
  · exact saved.basename file

/-- 7z is asked for the tarball by its name, in the file that has been saved. -/
def AsksFor (env : Env) (image : Grab) (b : Text) : Prop :=
  ∃ saved, image.saved = some saved ∧ decXz env image.path =
    [env.isoExtractor, "e".toList, "-i!".toList ++ b, "-so".toList, saved]

/-- The tarball is asked for by its name, in the file that has been saved, exactly when the URL is not
that of a local file and the name does not begin or end in one of the letters. -/
theorem diskimage_member_iff (last : (url.splitOn '/').getLast? = some (xz b))
    (legal : ∀ c ∈ b, c ≠ '/' ∧ c ≠ '\\' ∧ c ≠ ':')
    (done : downloadDiskimage env url = some image) :
    AsksFor env image b ↔ isLocal url = false ∧ EndsPlain b := by
  have file := fileName_xz legal
  rw [downloadDiskimage, download, urlgrab] at done
  split_ifs at done with isFile fetched
  · rw [Option.map_eq_some_iff] at done
    obtain ⟨path, -, rfl⟩ := done
    simp [AsksFor, isFile]
  · obtain rfl := Option.some.inj done
    have member : decXz env (target env url (saveAs env url)) = [env.isoExtractor, "e".toList,
        "-i!".toList ++ strip ".xz".toList b, "-so".toList, target env url (saveAs env url)] := by
      rw [decXz, basename_target file last, xz, strip_append fun c mem => mem]
    simp [AsksFor, member, isFile, EndsPlain, strip_eq_self_iff]

/-! ### A sample -/

/-- All can be fetched. -/
def onDrive : Env where
  isoExtractor := "7z".toList
  disksDir := "C:\\ubuntu\\disks".toList
  cwd := "C:\\".toList
  isdir _ := false
  localFile _ := none
  fetch _ _ := true

/-- What the download saves. -/
def fetched (url : Text) : Grab :=
  ⟨target onDrive url (saveAs onDrive url), some (target onDrive url (saveAs onDrive url))⟩

def ubuntuUrl : Text := "http://mirror/ubuntu.tar.xz".toList

def xubuntuUrl : Text := "http://mirror/xubuntu.tar.xz".toList

theorem downloadDiskimage_onDrive {url : Text} (remote : isLocal url = false) :
    downloadDiskimage onDrive url = some (fetched url) := by
  rw [downloadDiskimage, download, urlgrab, remote]
  rfl

theorem diskimage_member_ubuntu : AsksFor onDrive (fetched ubuntuUrl) "ubuntu.tar".toList := by
  have last : (ubuntuUrl.splitOn '/').getLast? = some (xz "ubuntu.tar".toList) := by
    decide +kernel
  have remote : isLocal ubuntuUrl = false := by decide +kernel
  exact (diskimage_member_iff last (by simp) (downloadDiskimage_onDrive remote)).2
    ⟨remote, by simp [EndsPlain]⟩

/-- In `xubuntu.tar.xz` a file `ubuntu.tar` is asked for. -/
theorem not_diskimage_member :
    ¬ ∀ (env : Env) (url b : Text) (image : Grab), (url.splitOn '/').getLast? = some (xz b) →
      b ≠ [] → (∀ c ∈ b, c ≠ '/' ∧ c ≠ '\\' ∧ c ≠ ':') →
      downloadDiskimage env url = some image → AsksFor env image b := by
  intro h
  have last : (xubuntuUrl.splitOn '/').getLast? = some (xz "xubuntu.tar".toList) := by
    decide +kernel
  have remote : isLocal xubuntuUrl = false := by decide +kernel
  obtain ⟨saved, -, asked⟩ := h onDrive xubuntuUrl "xubuntu.tar".toList _ last (by decide) (by simp)
    (downloadDiskimage_onDrive remote)
  have other : strip ".xz".toList (xz "xubuntu.tar".toList) = "ubuntu.tar".toList := by
    decide +kernel
  rw [fetched, decXz, basename_target (fileName_xz (by simp)) last, other] at asked
  revert asked
  simp

end Ydfs.Wubi.DiskImage
