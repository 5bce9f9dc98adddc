import Mathlib.Data.List.Infix
import Ydfs.Text.Lines

/-!
# The dependencies of a package

`apt-get` greps the control file of a package for `Depends`, cuts the line at its colons, and reads it
into an array whose elements end at blanks and commas.  The loop takes for a name what has no bar and
no parenthesis.  So the names of the field are what it looks at if the field is the first line with
the word and not folded, no more than three colons are in its value and none of them behind a name,
and each name stands alone between blanks and commas, while everything else has a bar or a
parenthesis.
-/

namespace Ydfs.AptGet

abbrev Text := List Char

namespace Depends

/-! ### The script -/

def dependsWord : Text := "Depends".toList

/-- `grep word`, for a word without special characters. -/
def grep (word line : Text) : Bool := decide (word <:+: line)

/-- `cut -d: -f2,3,4,5`; a line without a colon is printed as it is. -/
def cut (line : Text) : Text :=
  match line.splitOn ':' with
  | [_] => line
  | fields => [':'].intercalate ((fields.drop 1).take 4)

/-- `DEPS`: the lines of the control file with the word, cut. -/
def deps (control : Text) : Text :=
  ['\n'].intercalate (((Lines.lines '\n' control).filter (grep dependsWord)).map cut)

/-- One line as `read` takes it: a backslash makes the next letter literal, or joins the next line. -/
def readLine : Text → List (Char × Bool)
  | '\\' :: '\n' :: rest => readLine rest
  | '\\' :: c :: rest => (c, true) :: readLine rest
  | ['\\'] => []
  | '\n' :: _ => []
  | c :: rest => (c, false) :: readLine rest
  | [] => []

/-- Where `read` is: at the start or behind a comma, in an element, or behind one and a blank, where a
comma belongs to the blank. -/
inductive Place where
  | start
  | word (element : Text)
  | gap

/-- The next letter, with `IFS=', '`: the place, and the element that ends. -/
def next : Place → Char × Bool → Place × Option Text
  | .start, (c, literal) =>
    if !literal && c == ' ' then (.start, none)
    else if !literal && c == ',' then (.start, some [])
    else (.word [c], none)
  | .word element, (c, literal) =>
    if !literal && c == ' ' then (.gap, some element)
    else if !literal && c == ',' then (.start, some element)
    else (.word (element ++ [c]), none)
  | .gap, (c, literal) =>
    if !literal && c == ' ' then (.gap, none)
    else if !literal && c == ',' then (.start, none)
    else (.word [c], none)

def finish : Place → List Text
  | .word element => [element]
  | _ => []

def elements : Place → List (Char × Bool) → List Text
  | p, [] => finish p
  | p, c :: line => (next p c).2.toList ++ elements (next p c).1 line

/-- The elements of a text that `read -a` reads. -/
def readArray (text : Text) : List Text := elements .start (readLine text)

/-- `array` -/
def array (control : Text) : List Text := readArray (deps control)

/-- The loop goes on with an element as the name of a package. -/
def isName (element : Text) : Bool :=
  !(element == ['1']) && !(element == ['4']) && !element.contains '|' && !element.contains ')' &&
    !element.contains '('

/-- The names that the dependency loop looks at. -/
def examined (control : Text) : List Text := (array control).filter isName

/-! ### Control files -/

/-- White space of a field, which may be folded. -/
inductive Blank where
  | space
  | tab
  | fold

def Blank.text : Blank → Text
  | .space => [' ']
  | .tab => ['\t']
  | .fold => ['\n', ' ']

abbrev Gap := List Blank

def Gap.text (gap : Gap) : Text := gap.flatMap Blank.text

def nameLetter (c : Char) : Bool := c.isLower || c.isDigit || c == '+' || c == '-' || c == '.'

def versionLetter (c : Char) : Bool :=
  c.isAlphanum || c == '.' || c == '+' || c == '-' || c == '~' || c == ':'

/-- The name of a package has at least two letters. -/
structure PackageName where
  text : Text
  letters : ∀ c ∈ text, nameLetter c = true
  long : 2 ≤ text.length

structure Version where
  text : Text
  letters : ∀ c ∈ text, versionLetter c = true

structure Architecture where
  text : Text
  letters : ∀ c ∈ text, (c.isAlphanum || c == '-') = true

inductive Relation where
  | earlier
  | earlierOrEqual
  | equal
  | laterOrEqual
  | later

def Relation.text : Relation → Text
  | .earlier => ['<', '<']
  | .earlierOrEqual => ['<', '=']
  | .equal => ['=']
  | .laterOrEqual => ['>', '=']
  | .later => ['>', '>']

/-- A version in parentheses, with the white space before it and at each place inside. -/
structure Constraint where
  before : Gap
  opening : Gap
  relation : Relation
  middle : Gap
  version : Version
  closing : Gap

def Constraint.text (c : Constraint) : Text :=
  Gap.text c.before ++ '(' :: (Gap.text c.opening ++ c.relation.text ++ Gap.text c.middle ++
    c.version.text ++ Gap.text c.closing ++ [')'])

/-- One package of a dependency, with the white space around it. -/
structure Possibility where
  lead : Gap
  name : PackageName
  architecture : Option Architecture
  constraint : Option Constraint
  trail : Gap

/-- What stands behind the name and its architecture. -/
def Possibility.tail (p : Possibility) : Text :=
  (p.constraint.map Constraint.text).getD [] ++ Gap.text p.trail

def Possibility.text (p : Possibility) : Text :=
  Gap.text p.lead ++ p.name.text ++ (p.architecture.map fun a => ':' :: a.text).getD [] ++ p.tail

/-- A dependency: one of several packages. -/
structure Dependency where
  first : Possibility
  others : List Possibility

def barred (ps : List Possibility) : Text := ps.flatMap fun p => '|' :: p.text

def Dependency.text (d : Dependency) : Text := d.first.text ++ barred d.others

/-- The field: its label, in any case, and its dependencies. -/
structure Field where
  label : Text
  isDepends : label.map Char.toLower = "depends".toList
  first : Dependency
  others : List Dependency

def commaed (ds : List Dependency) : Text := ds.flatMap fun d => ',' :: d.text

def Field.value (f : Field) : Text := f.first.text ++ commaed f.others

/-- A control file: the field, if there is one, and the lines before and after it. -/
structure Control where
  before : List Text
  depends : Option Field
  after : List Text
  lines_before : ∀ l ∈ before, '\n' ∉ l
  lines_after : ∀ l ∈ after, '\n' ∉ l

def Control.text (c : Control) : Text :=
  Lines.unlines '\n' (c.before ++ (c.depends.map fun f => f.label ++ ':' :: f.value).toList ++ c.after)

def Dependency.names (d : Dependency) : List Text :=
  d.first.name.text :: d.others.map fun p => p.name.text

def Field.names (f : Field) : List Text := f.first.names ++ f.others.flatMap Dependency.names

/-- The package names of the `Depends` field. -/
def Control.names (c : Control) : List Text := (c.depends.map Field.names).getD []

/-! ### Where the loop sees the names -/

/-- The tail of a package with the bar behind it, if another one follows. -/
def Possibility.tailBar (p : Possibility) (beforeBar : Bool) : Text :=
  p.tail ++ if beforeBar then ['|'] else []

/-- The name stands alone, in the place that the bars around it leave, and what is behind it is not
taken for a name. -/
structure Possibility.Alone (afterBar beforeBar : Bool) (p : Possibility) : Prop where
  lead : ∀ b ∈ p.lead, b = .space
  apart : afterBar = true → p.lead ≠ []
  unqualified : p.architecture = none
  unfolded : '\n' ∉ p.tail
  closed : ∀ c ∈ (p.tailBar beforeBar).head?, c = ' '
  others : ∀ e ∈ readArray (p.tailBar beforeBar), isName e = false

def BarredAlone : List Possibility → Prop
  | [] => True
  | p :: ps => p.Alone true (!ps.isEmpty) ∧ BarredAlone ps

def Dependency.Alone (d : Dependency) : Prop :=
  d.first.Alone false (!d.others.isEmpty) ∧ BarredAlone d.others

/-- The field has its usual label, no more than three colons, and each name alone. -/
structure Field.Clear (f : Field) : Prop where
  label : f.label = dependsWord
  colons : f.value.count ':' ≤ 3
  first : f.first.Alone
  others : ∀ d ∈ f.others, d.Alone

/-- No line before the field has the word, or no line at all if there is no field. -/
structure Control.Clear (c : Control) : Prop where
  before : ∀ l ∈ c.before, grep dependsWord l = false
  field : ∀ f ∈ c.depends, f.Clear
  after : c.depends = none → ∀ l ∈ c.after, grep dependsWord l = false

/-! ### Reading a line -/

/-- Letters without a backslash before them. -/
def plain (text : Text) : List (Char × Bool) := text.map fun c => (c, false)

variable {t x : Text} {w : Text} {c : Char} {rest : List (Char × Bool)} {q : Place}

theorem plain_append (x y : Text) : plain (x ++ y) = plain x ++ plain y := List.map_append

theorem plain_cons (c : Char) (x : Text) : plain (c :: x) = (c, false) :: plain x := rfl

theorem readLine_cons (slash : c ≠ '\\') (line : c ≠ '\n') (more : Text) :
    readLine (c :: more) = (c, false) :: readLine more := by
  rw [readLine.eq_def]
  split <;> simp_all

/-- A line without backslashes is read as it is. -/
theorem readLine_append (slash : '\\' ∉ t) (line : '\n' ∉ t) (more : Text) :
    readLine (t ++ more) = plain t ++ readLine more := by
  induction t with
  | nil => rfl
  | cons c t ih =>
    obtain ⟨notSlash, slash⟩ := not_or.1 (mt List.mem_cons.2 slash)
    obtain ⟨notLine, line⟩ := not_or.1 (mt List.mem_cons.2 line)
    rw [List.cons_append, readLine_cons (Ne.symm notSlash) (Ne.symm notLine), ih slash line]
    rfl

theorem readLine_plain (slash : '\\' ∉ t) (line : '\n' ∉ t) : readLine t = plain t := by
  simpa [readLine] using readLine_append slash line []

/-- Letters that are no delimiters. -/
def Solid (text : Text) : Prop := ∀ c ∈ text, c ≠ ' ' ∧ c ≠ ','

theorem elements_solid (solid : Solid x) (w : Text) (rest : List (Char × Bool)) :
    elements (.word w) (plain x ++ rest) = elements (.word (w ++ x)) rest := by
  induction x generalizing w with
  | nil => simp [plain]
  | cons c x ih =>
    obtain ⟨⟨blank, comma⟩, solid⟩ := List.forall_mem_cons.1 solid
    have step : next (.word w) (c, false) = (.word (w ++ [c]), none) := by
      simp [next, blank, comma]
    rw [plain_cons, List.cons_append, elements, step, Option.toList_none, List.nil_append,
      ih solid, List.append_assoc, List.singleton_append]

/-- Outside of an element. -/
def Place.Open (q : Place) : Prop := q = .start ∨ q = .gap

/-- Blanks are passed over. -/
theorem elements_blanks (hq : q.Open) (n : ℕ) (rest : List (Char × Bool)) :
    elements q (plain (List.replicate n ' ') ++ rest) = elements q rest := by
  induction n with
  | zero => rfl
  | succ n ih =>
    rw [List.replicate_succ, plain_cons, List.cons_append, elements]
    obtain rfl | rfl := hq
    · exact ih
    · exact ih

/-- An element begins. -/
theorem elements_word (hq : q.Open) (ne : x ≠ []) (solid : Solid x) (rest : List (Char × Bool)) :
    elements q (plain x ++ rest) = elements (.word x) rest := by
  cases x with
  | nil => exact absurd rfl ne
  | cons c x =>
    obtain ⟨⟨blank, comma⟩, solid⟩ := List.forall_mem_cons.1 solid
    have step : next q (c, false) = (.word [c], none) := by
      obtain rfl | rfl := hq <;> simp [next, blank, comma]
    rw [plain_cons, List.cons_append, elements, step, Option.toList_none, List.nil_append,
      elements_solid solid, List.singleton_append]

/-- The place behind a delimiter that ends an element or comes after one. -/
def behind (d : Char) : Place := if d = ',' then .start else .gap

theorem next_ne_start (comma : c ≠ ',') (hq : q ≠ .start) : (next q (c, false)).1 ≠ .start := by
  cases q with
  | start => exact absurd rfl hq
  | word element =>
    by_cases blank : c = ' '
    · subst blank
      exact nofun
    · simp [next, blank, comma]
  | gap =>
    by_cases blank : c = ' '
    · subst blank
      exact nofun
    · simp [next, blank, comma]

/-- A delimiter cuts what is read, unless nothing has been read before it. -/
theorem elements_delimiter (comma : ',' ∉ t) (hq : q ≠ .start) {d : Char} (hd : d = ' ' ∨ d = ',')
    (rest : List (Char × Bool)) :
    elements q (plain t ++ (d, false) :: rest) = elements q (plain t) ++ elements (behind d) rest := by
  induction t generalizing q with
  | nil =>
    obtain rfl | rfl := hd
    · cases q with
      | start => exact absurd rfl hq
      | word element => rfl
      | gap => rfl
    · cases q with
      | start => exact absurd rfl hq
      | word element => rfl
      | gap => rfl
  | cons c t ih =>
    obtain ⟨first, comma⟩ := not_or.1 (mt List.mem_cons.2 comma)
    rw [plain_cons, List.cons_append, elements, elements, ih comma (next_ne_start (Ne.symm first) hq),
      List.append_assoc]

/-- Without commas it makes no difference whether a blank has been read. -/
theorem elements_gap (comma : ',' ∉ t) : elements .gap (plain t) = elements .start (plain t) := by
  induction t with
  | nil => rfl
  | cons c t ih =>
    obtain ⟨first, others⟩ := not_or.1 (mt List.mem_cons.2 comma)
    by_cases blank : c = ' '
    · subst blank
      exact ih others
    · have same : next .gap (c, false) = next .start (c, false) := by
        simp [next, blank, Ne.symm first]
      rw [plain_cons, elements, elements, same]

/-! ### One name -/

/-- What the loop takes for names. -/
def names (line : List Text) : List Text := line.filter isName

theorem names_append (x y : List Text) : names (x ++ y) = names x ++ names y := List.filter_append ..

/-- A name with a tail that is apart from it. -/
theorem elements_tail (comma : ',' ∉ t) (closed : ∀ c ∈ t.head?, c = ' ') (w : Text) :
    elements (.word w) (plain t) = w :: elements .start (plain t) := by
  cases t with
  | nil => rfl
  | cons c t =>
    obtain rfl := closed c rfl
    have rest := elements_gap (not_or.1 (mt List.mem_cons.2 comma)).2
    exact congrArg (w :: ·) rest

theorem PackageName.ne (n : PackageName) (d : Char) (hd : nameLetter d = false) : d ∉ n.text := by
  intro inside
  rw [n.letters d inside] at hd
  cases hd

theorem PackageName.solid (n : PackageName) : Solid n.text := by
  intro c hc
  constructor
  · rintro rfl
    exact n.ne ' ' rfl hc
  · rintro rfl
    exact n.ne ',' rfl hc

theorem PackageName.ne_nil (n : PackageName) : n.text ≠ [] := by
  intro empty
  have long := n.long
  rw [empty] at long
  exact absurd long (by decide)

theorem PackageName.isName (n : PackageName) : Depends.isName n.text = true := by
  have single : ∀ c, n.text ≠ [c] := by
    intro c one
    have long := n.long
    rw [one] at long
    exact absurd long (by simp)
  simp [Depends.isName, single, n.ne '|' rfl, n.ne ')' rfl, n.ne '(' rfl]

/-- No comma and no backslash. -/
def Ordinary (text : Text) : Prop := ∀ c ∈ text, c ≠ ',' ∧ c ≠ '\\'

theorem Ordinary.append (hx : Ordinary x) (hy : Ordinary t) : Ordinary (x ++ t) :=
  List.forall_mem_append.2 ⟨hx, hy⟩

theorem ordinary_gap (gap : Gap) : Ordinary (Gap.text gap) := by
  intro c hc
  obtain ⟨b, -, hc⟩ := List.mem_flatMap.1 hc
  have letter : ∀ d ∈ b.text, d ≠ ',' ∧ d ≠ '\\' := by cases b <;> simp [Blank.text]
  exact letter c hc

theorem ordinary_version (v : Version) : Ordinary v.text := by
  intro c hc
  have letter := v.letters c hc
  constructor
  · rintro rfl
    cases letter
  · rintro rfl
    cases letter

theorem ordinary_constraint (c : Constraint) : Ordinary c.text := by
  have relation : Ordinary c.relation.text := by
    cases c.relation <;> simp [Relation.text, Ordinary]
  have inner := ((((ordinary_gap c.opening).append relation).append (ordinary_gap c.middle)).append
    (ordinary_version c.version)).append (ordinary_gap c.closing)
  refine (ordinary_gap c.before).append (List.forall_mem_cons.2 ⟨by decide, inner.append ?_⟩)
  simp [Ordinary]

theorem ordinary_tailBar (p : Possibility) (beforeBar : Bool) : Ordinary (p.tailBar beforeBar) := by
  refine (Ordinary.append ?_ (ordinary_gap p.trail)).append ?_
  · cases p.constraint with
    | none => simp [Ordinary]
    | some c => exact ordinary_constraint c
  · cases beforeBar <;> simp [Ordinary]

theorem gap_spaces {gap : Gap} (spaces : ∀ b ∈ gap, b = .space) :
    Gap.text gap = List.replicate gap.length ' ' := by
  induction gap with
  | nil => rfl
  | cons b gap ih =>
    obtain ⟨rfl, others⟩ := List.forall_mem_cons.1 spaces
    exact congrArg (' ' :: ·) (ih others)

/-- The letters of a package between two bars. -/
def Possibility.barText (p : Possibility) (beforeBar : Bool) : Text :=
  p.text ++ if beforeBar then ['|'] else []

theorem Possibility.Alone.barText {p : Possibility} {afterBar beforeBar : Bool}
    (h : p.Alone afterBar beforeBar) :
    p.barText beforeBar =
      List.replicate p.lead.length ' ' ++ (p.name.text ++ p.tailBar beforeBar) := by
  simp [Possibility.barText, Possibility.text, Possibility.tailBar, h.unqualified, gap_spaces h.lead]

/-- A package that stands alone is read as its name. -/
theorem Possibility.Alone.elements {p : Possibility} {afterBar beforeBar : Bool}
    (h : p.Alone afterBar beforeBar) (hq : q.Open) (rest : List (Char × Bool)) :
    elements q (plain (p.barText beforeBar) ++ rest) =
      Depends.elements (.word p.name.text) (plain (p.tailBar beforeBar) ++ rest) := by
  rw [h.barText, plain_append, plain_append, List.append_assoc, elements_blanks hq, List.append_assoc,
    elements_word hq p.name.ne_nil p.name.solid]

theorem Possibility.Alone.unfolded_tailBar {p : Possibility} {afterBar beforeBar : Bool}
    (h : p.Alone afterBar beforeBar) : '\n' ∉ p.tailBar beforeBar := by
  rw [tailBar, List.mem_append, not_or]
  refine ⟨h.unfolded, ?_⟩
  cases beforeBar <;> decide

/-- What is read of its tail is not taken for a name. -/
theorem Possibility.Alone.names_tail {p : Possibility} {afterBar beforeBar : Bool}
    (h : p.Alone afterBar beforeBar) :
    names (Depends.elements (.word p.name.text) (plain (p.tailBar beforeBar))) = [p.name.text] := by
  have ordinary := ordinary_tailBar p beforeBar
  have comma : ',' ∉ p.tailBar beforeBar := fun hc => (ordinary _ hc).1 rfl
  have slash : '\\' ∉ p.tailBar beforeBar := fun hc => (ordinary _ hc).2 rfl
  have others := h.others
  rw [readArray, readLine_plain slash h.unfolded_tailBar] at others
  rw [elements_tail comma h.closed, names, List.filter_cons_of_pos p.name.isName,
    List.filter_eq_nil_iff.2 fun e he => Bool.not_eq_true _ ▸ others e he]

/-- With a delimiter behind it, it is read as its name, and the rest is read from behind the
delimiter. -/
theorem Possibility.Alone.names_delimiter {p : Possibility} {afterBar beforeBar : Bool}
    (h : p.Alone afterBar beforeBar) (hq : q.Open) {d : Char} (hd : d = ' ' ∨ d = ',')
    (rest : List (Char × Bool)) :
    names (Depends.elements q (plain (p.barText beforeBar) ++ (d, false) :: rest)) =
      p.name.text :: names (Depends.elements (behind d) rest) := by
  have comma : ',' ∉ p.tailBar beforeBar := fun hc => (ordinary_tailBar p beforeBar _ hc).1 rfl
  rw [h.elements hq, elements_delimiter comma (q := .word p.name.text) nofun hd, names_append, h.names_tail,
    List.singleton_append]

theorem Possibility.Alone.names_end {p : Possibility} {afterBar beforeBar : Bool}
    (h : p.Alone afterBar beforeBar) (hq : q.Open) :
    names (Depends.elements q (plain (p.barText beforeBar))) = [p.name.text] := by
  rw [← h.names_tail, ← List.append_nil (plain (p.barText beforeBar)), h.elements hq, List.append_nil]

/-! ### The whole field -/

/-- Behind a bar a package begins with a blank. -/
theorem Possibility.Alone.behindBar {p : Possibility} {beforeBar : Bool} (h : p.Alone true beforeBar) :
    ∃ p' : Possibility, p.text = ' ' :: p'.text ∧ p'.name = p.name ∧ p'.Alone false beforeBar := by
  obtain ⟨lead, name, architecture, constraint, trail⟩ := p
  cases lead with
  | nil => exact absurd rfl (h.apart rfl)
  | cons b lead =>
    obtain rfl : b = .space := h.lead b List.mem_cons_self
    exact ⟨⟨lead, name, architecture, constraint, trail⟩, rfl, rfl,
      ⟨fun b hb => h.lead b (List.mem_cons_of_mem _ hb), nofun, h.unqualified, h.unfolded, h.closed,
        h.others⟩⟩

/-- A dependency at the end of the line, or before a comma. -/
theorem names_dependency {p : Possibility} {ps : List Possibility} {afterBar : Bool}
    (h : p.Alone afterBar (!ps.isEmpty)) (others : BarredAlone ps) (hq : q.Open) :
    names (elements q (plain (p.text ++ barred ps))) = p.name.text :: ps.map (·.name.text) ∧
      ∀ rest, names (elements q (plain (p.text ++ barred ps) ++ (',', false) :: rest)) =
        (p.name.text :: ps.map (·.name.text)) ++ names (elements .start rest) := by
  induction ps generalizing p afterBar q with
  | nil => exact ⟨h.names_end hq, fun rest => h.names_delimiter hq (.inr rfl) rest⟩
  | cons r ps ih =>
    have h : p.Alone afterBar true := h
    obtain ⟨alone, others⟩ := others
    obtain ⟨r', text, name, alone⟩ := alone.behindBar
    obtain ⟨last, more⟩ := ih alone others (.inr rfl)
    have line : plain (p.text ++ barred (r :: ps)) =
        plain (p.barText true) ++ (' ', false) :: plain (r'.text ++ barred ps) := by
      simp [barred, Possibility.barText, text, plain]
    rw [name] at last more
    refine ⟨?_, fun rest => ?_⟩
    · rw [line, h.names_delimiter hq (.inl rfl), behind, if_neg (by decide), last]
      rfl
    · rw [line, List.append_assoc, List.cons_append, h.names_delimiter hq (.inl rfl), behind,
        if_neg (by decide), more]
      rfl

/-- All dependencies of a field. -/
theorem names_field {d : Dependency} {ds : List Dependency} (h : d.Alone) (others : ∀ d ∈ ds, d.Alone) :
    names (elements .start (plain (d.text ++ commaed ds))) = d.names ++ ds.flatMap Dependency.names := by
  induction ds generalizing d with
  | nil =>
    rw [commaed, List.flatMap_nil, List.append_nil, List.flatMap_nil, List.append_nil]
    exact (names_dependency h.1 h.2 (.inl rfl)).1
  | cons e ds ih =>
    obtain ⟨next, others⟩ := List.forall_mem_cons.1 others
    have line : plain (d.text ++ commaed (e :: ds)) =
        plain d.text ++ (',', false) :: plain (e.text ++ commaed ds) := by
      simp [commaed, plain]
    rw [line, List.flatMap_cons, ← ih next others]
    exact (names_dependency h.1 h.2 (.inl rfl)).2 _

/-! ### The control file -/

/-- A value with few colons is not cut short. -/
theorem cut_label {label value : Text} (colon : ':' ∉ label) (few : value.count ':' ≤ 3) :
    cut (label ++ ':' :: value) = value := by
  have fields : (label ++ ':' :: value).splitOn ':' = label :: value.splitOn ':' :=
    List.splitOn_append_cons_self_of_not_mem colon value
  have all : (value.splitOn ':').take 4 = value.splitOn ':' := by
    apply List.take_of_length_le
    rw [Lines.length_splitOn]
    omega
  rw [cut, fields]
  obtain ⟨first, rest, split⟩ := List.exists_cons_of_ne_nil (List.splitOn_ne_nil ':' value)
  rw [split] at all ⊢
  simp only [List.drop_succ_cons, List.drop_zero, all]
  rw [← split, List.intercalate_splitOn]

/-- The lines of a clear control file with its field. -/
theorem text_some {c : Control} {f : Field} (h : c.depends = some f) :
    c.text = Lines.unlines '\n' (c.before ++ (f.label ++ ':' :: f.value) :: c.after) := by
  simp [Control.text, h]

/-- Neither a backslash nor the end of a line. -/
def Readable (text : Text) : Prop := ∀ c ∈ text, c ≠ '\\' ∧ c ≠ '\n'

theorem Possibility.Alone.readable {p : Possibility} {afterBar beforeBar : Bool}
    (h : p.Alone afterBar beforeBar) : Readable p.text := by
  have whole : Readable (p.barText beforeBar) := by
    rw [h.barText]
    refine List.forall_mem_append.2 ⟨fun c hc => ?_, List.forall_mem_append.2 ⟨fun c hc => ?_, ?_⟩⟩
    · rw [List.eq_of_mem_replicate hc]
      decide
    · exact ⟨fun slash => p.name.ne '\\' rfl (slash ▸ hc), fun line => p.name.ne '\n' rfl (line ▸ hc)⟩
    · exact fun c hc => ⟨(ordinary_tailBar p beforeBar c hc).2, fun line =>
        h.unfolded_tailBar (line ▸ hc)⟩
  exact (List.forall_mem_append.1 whole).1

theorem readable_barred {ps : List Possibility} (h : BarredAlone ps) : Readable (barred ps) := by
  induction ps with
  | nil => exact nofun
  | cons p ps ih =>
    rw [barred, List.flatMap_cons]
    exact List.forall_mem_append.2
      ⟨List.forall_mem_cons.2 ⟨by decide, h.1.readable⟩, ih h.2⟩

theorem Dependency.Alone.readable {d : Dependency} (h : d.Alone) : Readable d.text :=
  List.forall_mem_append.2 ⟨h.1.readable, readable_barred h.2⟩

theorem Field.Clear.readable {f : Field} (clear : f.Clear) : Readable f.value := by
  refine List.forall_mem_append.2 ⟨clear.first.readable, fun c hc => ?_⟩
  obtain ⟨d, hd, hc⟩ := List.mem_flatMap.1 hc
  obtain rfl | hc := List.mem_cons.1 hc
  · decide
  · exact (clear.others d hd).readable c hc

/-- Only the first of the lines is read. -/
theorem readLine_first {value : Text} (readable : Readable value) (others : List Text) :
    readLine (['\n'].intercalate (value :: others)) = plain value := by
  have slash : '\\' ∉ value := fun h => (readable _ h).1 rfl
  have line : '\n' ∉ value := fun h => (readable _ h).2 rfl
  cases others with
  | nil => rw [List.intercalate_singleton, readLine_plain slash line]
  | cons other others =>
    rw [List.intercalate_cons_of_ne_nil (List.cons_ne_nil _ _), List.append_assoc,
      readLine_append slash line]
    exact List.append_nil _

theorem deps_none {c : Control} (none : c.depends = none)
    (before : ∀ l ∈ c.before, grep dependsWord l = false)
    (after : ∀ l ∈ c.after, grep dependsWord l = false) : deps c.text = [] := by
  have free : ∀ l ∈ c.before ++ c.after, '\n' ∉ l :=
    List.forall_mem_append.2 ⟨c.lines_before, c.lines_after⟩
  have text : c.text = Lines.unlines '\n' (c.before ++ c.after) := by simp [Control.text, none]
  have found : (c.before ++ c.after).filter (grep dependsWord) = [] := by
    rw [List.filter_eq_nil_iff]
    intro l hl
    rw [List.forall_mem_append.2 ⟨before, after⟩ l hl]
    decide
  rw [deps, text, Lines.lines_unlines free, found]
  rfl

/-- The field comes first of what is grepped. -/
theorem deps_some {c : Control} {f : Field} (some : c.depends = some f) (field : f.Clear)
    (before : ∀ l ∈ c.before, grep dependsWord l = false) :
    ∃ others, deps c.text = ['\n'].intercalate (f.value :: others) := by
  have colon : ':' ∉ f.label := by
    rw [field.label]
    decide
  have line : '\n' ∉ f.label ++ ':' :: f.value := by
    rw [field.label, List.mem_append, not_or]
    refine ⟨by decide, fun h => ?_⟩
    obtain ⟨⟨⟩⟩ | h := List.mem_cons.1 h
    exact (field.readable _ h).2 rfl
  have free : ∀ l ∈ c.before ++ (f.label ++ ':' :: f.value) :: c.after, '\n' ∉ l :=
    List.forall_mem_append.2 ⟨c.lines_before, List.forall_mem_cons.2 ⟨line, c.lines_after⟩⟩
  have skipped : c.before.filter (grep dependsWord) = [] := by
    rw [List.filter_eq_nil_iff]
    intro l hl
    rw [before l hl]
    decide
  have found : grep dependsWord (f.label ++ ':' :: f.value) = true := by
    rw [field.label]
    exact decide_eq_true (List.prefix_append _ _).isInfix
  refine ⟨(c.after.filter (grep dependsWord)).map cut, ?_⟩
  rw [deps, text_some some, Lines.lines_unlines free, List.filter_append, skipped, List.nil_append,
    List.filter_cons_of_pos found, List.map_cons, cut_label colon field.colons]

/-- The loop looks at the names of the `Depends` field, if the control file is clear. -/
theorem examined_eq_names {c : Control} (clear : c.Clear) : examined c.text = c.names := by
  cases depends : c.depends with
  | none =>
    rw [examined, array, deps_none depends clear.before (clear.after depends), Control.names, depends]
    rfl
  | some f =>
    have field := clear.field f depends
    obtain ⟨others, found⟩ := deps_some depends field clear.before
    rw [examined, array, found, readArray, readLine_first field.readable, Control.names, depends]
    exact names_field field.first field.others

/-- `perl (>= 1:5.36) | mawk`. -/
def perlOrMawk : Dependency where
  first :=
    { lead := [.space]
      name := ⟨['p', 'e', 'r', 'l'], List.all_eq_true.1 rfl, by decide⟩
      architecture := none
      constraint := some
        { before := [.space]
          opening := []
          relation := .laterOrEqual
          middle := [.space]
          version := ⟨['1', ':', '5', '.', '3', '6'], List.all_eq_true.1 rfl⟩
          closing := [] }
      trail := [.space] }
  others :=
    [{ lead := [.space]
       name := ⟨['m', 'a', 'w', 'k'], List.all_eq_true.1 rfl, by decide⟩
       architecture := none
       constraint := none
       trail := [] }]

theorem perlOrMawk_alone : perlOrMawk.Alone := by
  refine ⟨⟨by simp [perlOrMawk], nofun, rfl, by decide, ?_, by decide⟩,
    ⟨by simp, by simp, rfl, by decide, nofun, by decide⟩, trivial⟩
  rintro c ⟨⟩
  rfl

theorem examined_eq_names_perl :
    let c : Control := ⟨["Package: a".toList], some ⟨dependsWord, rfl, perlOrMawk, []⟩, [], by decide,
      nofun⟩
    examined c.text = c.names := by
  refine examined_eq_names ⟨by decide, ?_, nofun⟩
  rintro f ⟨⟩
  exact ⟨rfl, by decide, perlOrMawk_alone, nofun⟩

/-- The name of a package for any architecture is looked at with its architecture. -/
theorem qualified_misread : ¬ ∀ c : Control, examined c.text = c.names := by
  intro same
  have read := same ⟨[], some ⟨dependsWord, rfl,
    ⟨⟨[.space], ⟨['p', 'e', 'r', 'l'], List.all_eq_true.1 rfl, by decide⟩,
      some ⟨['a', 'n', 'y'], List.all_eq_true.1 rfl⟩, none, []⟩, []⟩, []⟩, [], nofun, nofun⟩
  revert read
  decide

end Depends

end Ydfs.AptGet
