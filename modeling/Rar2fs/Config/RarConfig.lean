import Rar2fs.Libc

/-!
# The per-archive configuration file (`rarconfig.c`)

`rarconfig_init` reads `.rarconfig` line by line with `fgets` and two
scanners. `find_next_parent` takes a line for a section header when
`sscanf(line, " [ %[^]] ", s)` reads a name (`parentName`). `find_next_child`
takes a line for a `key = value` line when `sscanf(line, " %[^#!=]=%[^\n]",
s, v)` makes both conversions (`childMatch`), and ends the section at any other
line whose key text starts with `[` (`stopsSection`). For each header the
entry of its path is allocated zeroed, and each key line the child scan
reaches from the header goes through the setters (`applyChild`).

When the two scanners agree on every line, this is the reading the file
format describes: each key line is applied to the entry of the nearest header
above it, and to no other (`rarconfigInit_eq_referenceLoop`). They disagree on a
header whose name holds an `=` followed by more text, which the child scan
reads as a key line and scans past (`config_header_with_equals`). The value of
a key line keeps the blanks after the `=`: `strtoul` and `strchr` skip them,
the `strcasecmp` of `save-eof` does not (`childMatch_documented_layout`,
`save_eof_blank_ignored`).

The hash table and the property numbers and mask of `rarconfig.h` are not
among the sources: the table is modelled from the spec as a map from path to
entry whose `alloc` gives a zeroed entry, and the mask as one occupancy flag
per property. Aliases and the wide-character password are not modelled; nor
are allocation failures, after which the loops stop early.
-/

namespace Rar2fs.Config

/-! ## Characters and `sscanf` -/

/-- `isspace` in the C locale. -/
def isspace (c : Char) : Bool :=
  c = ' ' || c = '\t' || c = '\n' || c = '\x0b' || c = '\x0c' || c = '\r'

/-- The characters `sscanf` reads of a line: those before its first NUL. -/
def cStr (line : List Char) : List Char := line.takeWhile (· ≠ '\x00')

/-- A blank in a `sscanf` format: it skips any run of `isspace` characters. -/
def skipSpace (s : List Char) : List Char := s.dropWhile isspace

/-- `sscanf(s, "%s", s)`: the first word of `s`, or `s` unchanged when it has
none. The copy overlaps its source; it is read as the forward copy it is. -/
def scanWord (s : List Char) : List Char :=
  if skipSpace s = [] then s else (skipSpace s).takeWhile fun c => !isspace c

/-- `sscanf(line, " [ %[^]] ", s) == 1`: the name in a section header, from
after the `[` and the blanks after it up to the first `]` or the end of the
line, which must not be empty. -/
def parentName (line : List Char) : Option (List Char) :=
  match skipSpace (cStr line) with
  | '[' :: rest => if (skipSpace rest).takeWhile (· ≠ ']') = [] then none
      else some ((skipSpace rest).takeWhile (· ≠ ']'))
  | _ => none

/-- The characters `%[^#!=]` reads. -/
def isKeyChar (c : Char) : Bool := c ≠ '#' && c ≠ '!' && c ≠ '='

/-- What `%[^#!=]` reads after the blanks: the key text `s`, empty where the
conversion fails. -/
def childKey (line : List Char) : List Char := (skipSpace (cStr line)).takeWhile isKeyChar

/-- `sscanf(line, " %[^#!=]=%[^\n]", s, v) == 2`: the key text, which must
end at an `=`, and the value, the rest of the line before its newline; both
non-empty. -/
def childMatch (line : List Char) : Option (List Char × List Char) :=
  match (skipSpace (cStr line)).dropWhile isKeyChar with
  | '=' :: rest =>
    if childKey line ≠ [] ∧ rest.takeWhile (· ≠ '\n') ≠ [] then some (childKey line, rest.takeWhile (· ≠ '\n'))
    else none
  | _ => none

/-- The test of `find_next_child` on a line that is not a key line: the first
word of the key text starts with `[`. -/
def stopsSection (line : List Char) : Bool :=
  (childMatch line).isNone && (scanWord (childKey line)).head? == some '['

theorem cStr_of_forall {s : List Char} (h : ∀ c ∈ s, c ≠ '\x00') : cStr s = s :=
  List.takeWhile_eq_self_iff.mpr fun c hc => decide_eq_true (h c hc)

theorem skipSpace_append {b s : List Char} (hb : ∀ c ∈ b, isspace c) : skipSpace (b ++ s) = skipSpace s :=
  List.dropWhile_append_of_pos hb

/-! ## Reading the file -/

/-- `LINE_MAX` of `limits.h` on Linux. -/
def LINE_MAX : ℕ := 2048

/-- `fgets(line, n + 1, fp)`: the characters up to and including the first
newline, at most `n` of them, and the text after them. -/
def fgets : ℕ → List Char → List Char × List Char
  | 0, s => ([], s)
  | _, [] => ([], [])
  | n + 1, c :: s => if c = '\n' then ([c], s) else (c :: (fgets n s).1, (fgets n s).2)

theorem length_fgets_snd : ∀ (n : ℕ) (s : List Char), (fgets n s).2.length ≤ s.length
  | 0, _ => by simp [fgets]
  | _ + 1, [] => by simp [fgets]
  | n + 1, c :: s => by
    unfold fgets
    split_ifs
    · exact Nat.le_succ _
    · exact (length_fgets_snd n s).trans (Nat.le_succ _)

/-- The lines that successive `fgets(line, LINE_MAX, fp)` read, to the end of
the file. -/
def fgetsLines (text : List Char) : List (List Char) :=
  match text with
  | [] => []
  | c :: s => (fgets (LINE_MAX - 1) (c :: s)).1 :: fgetsLines (fgets (LINE_MAX - 1) (c :: s)).2
termination_by text.length
decreasing_by
  show (fgets (2046 + 1) (c :: s)).2.length < s.length + 1
  unfold fgets
  split_ifs
  · exact Nat.lt_succ_self _
  · exact Nat.lt_succ_of_le (length_fgets_snd _ _)

theorem fgetsLines_of_ne_nil {text : List Char} (h : text ≠ []) :
    fgetsLines text = (fgets (LINE_MAX - 1) text).1 :: fgetsLines (fgets (LINE_MAX - 1) text).2 := by
  cases text with
  | nil => exact absurd rfl h
  | cons c s => rw [fgetsLines]

/-- `fgets` reads a line shorter than its bound up to its newline. -/
theorem fgets_line : ∀ (line rest : List Char) (n : ℕ), '\n' ∉ line → line.length < n →
    fgets n (line ++ '\n' :: rest) = (line ++ ['\n'], rest)
  | _, _, 0, _, hn => absurd hn (Nat.not_lt_zero _)
  | [], rest, n + 1, _, _ => by simp [fgets]
  | c :: line, rest, n + 1, hl, hn => by
    have hc : c ≠ '\n' := fun h => hl (h ▸ List.mem_cons_self _ _)
    have ih := fgets_line line rest n (fun h => hl (List.mem_cons_of_mem _ h)) (Nat.lt_of_succ_lt_succ hn)
    simp [fgets, hc, ih]

/-- A text of lines shorter than `LINE_MAX`, each ended by its newline, is
read back line by line. -/
theorem fgetsLines_lines : ∀ (ls : List (List Char)), (∀ l ∈ ls, '\n' ∉ l ∧ l.length < LINE_MAX - 1) →
    fgetsLines (ls.flatMap fun l => l ++ ['\n']) = ls.map fun l => l ++ ['\n']
  | [], _ => by rw [List.flatMap_nil, fgetsLines]; rfl
  | l :: ls, h => by
    obtain ⟨hl, hn⟩ := h l (List.mem_cons_self _ _)
    have ih := fgetsLines_lines ls fun l' hl' => h l' (List.mem_cons_of_mem _ hl')
    rw [List.flatMap_cons, List.append_assoc, List.singleton_append,
      fgetsLines_of_ne_nil (by simp), fgets_line _ _ _ hl hn, ih, List.map_cons]

/-- A child node: `name`, the first word of the key text, and `value`. -/
structure ChildNode where
  name : List Char
  value : List Char
  deriving DecidableEq

/-- `find_next_parent(fp, p)`, from the lines after the header of `p` (all
of them for `p = NULL`): the next header's name and the lines after it. -/
def findNextParent : List (List Char) → Option (List Char × List (List Char))
  | [] => none
  | line :: rest =>
    match parentName line with
    | some name => some (name, rest)
    | none => findNextParent rest

/-- `find_next_child(fp, p, cnode)`, from the lines after the header of `p`
or the line of `cnode`: the next key line and the lines after it, or `none`
at the end of the section or of the file. -/
def findNextChild : List (List Char) → Option (ChildNode × List (List Char))
  | [] => none
  | line :: rest =>
    match childMatch line with
    | some (key, value) => some (⟨scanWord key, value⟩, rest)
    | none => if (scanWord (childKey line)).head? = some '[' then none else findNextChild rest

theorem findNextParent_length :
    ∀ {ls rest : List (List Char)} {name : List Char}, findNextParent ls = some (name, rest) → rest.length < ls.length
  | [], _, _, h => nomatch h
  | line :: ls, rest, name, h => by
    unfold findNextParent at h
    split at h
    · cases h; exact Nat.lt_succ_self _
    · exact Nat.lt_succ_of_lt (findNextParent_length h)

theorem findNextChild_length :
    ∀ {ls rest : List (List Char)} {c : ChildNode}, findNextChild ls = some (c, rest) → rest.length < ls.length
  | [], _, _, h => nomatch h
  | line :: ls, rest, c, h => by
    unfold findNextChild at h
    split at h
    · cases h; exact Nat.lt_succ_self _
    · split_ifs at h
      exact Nat.lt_succ_of_lt (findNextChild_length h)

/-! ## Entries and their setters -/

/-- `struct config_entry`: `seek_length`, `save_eof`, `password` (`none` for
`NULL`), and the bit of `mask` of each property. -/
structure ConfigEntry where
  seekLength : Int
  saveEof : Int
  password : Option (List Char)
  seekLengthSet : Bool
  saveEofSet : Bool
  passwordSet : Bool
  deriving DecidableEq

/-- `__alloc`: a zeroed entry. -/
def alloc : ConfigEntry := ⟨0, 0, none, false, false, false⟩

/-- `strcasecmp(a, b)` in the C locale. -/
def strcasecmp : List Char → List Char → Int
  | [], [] => 0
  | [], b :: _ => -(b.toLower.toNat : Int)
  | a :: _, [] => a.toLower.toNat
  | a :: as, b :: bs => if a.toLower = b.toLower then strcasecmp as bs else (a.toLower.toNat : Int) - b.toLower.toNat

/-- `ULONG_MAX` for a 64-bit `unsigned long`. -/
def ULONG_MAX : ℕ := 2 ^ 64 - 1

/-- The value of the digit `c` in base `b`, if it is one. -/
def digitVal (b : ℕ) (c : Char) : Option ℕ :=
  let v := if c.isDigit then c.toNat - '0'.toNat
    else if c.isLower then c.toNat - 'a'.toNat + 10
    else if c.isUpper then c.toNat - 'A'.toNat + 10 else b
  if v < b then some v else none

/-- The value of the longest run of base-`b` digits at the start of `s`, after
the value `n` of those before. -/
def digitsValue (b : ℕ) : ℕ → List Char → ℕ
  | n, [] => n
  | n, c :: s =>
    match digitVal b c with
    | some d => digitsValue b (n * b + d) s
    | none => n

/-- The sign `strtoul` reads: whether it negates, and the text after it. -/
def strtoulSign : List Char → Bool × List Char
  | '-' :: s => (true, s)
  | '+' :: s => (false, s)
  | s => (false, s)

/-- The base `strtoul(s, NULL, 0)` takes from its prefix, and where the digits
start: `0x` followed by a hexadecimal digit, `0`, or neither. -/
def strtoulBase : List Char → ℕ × List Char
  | '0' :: x :: s =>
    if (x = 'x' || x = 'X') && ((s.head?.bind (digitVal 16)).isSome) then (16, s) else (8, '0' :: x :: s)
  | ['0'] => (8, ['0'])
  | s => (10, s)

/-- `strtoul(s, NULL, 0)` for a 64-bit `unsigned long`: after the blanks and
a sign, the value of the digits in the base of the prefix, `ULONG_MAX` when it
does not fit, negated modulo `2⁶⁴` after a `-`. -/
def strtoul (s : List Char) : ℕ :=
  let v := digitsValue (strtoulBase (strtoulSign (skipSpace s)).2).1 0 (strtoulBase (strtoulSign (skipSpace s)).2).2
  if v > ULONG_MAX then ULONG_MAX else if (strtoulSign (skipSpace s)).1 then (2 ^ 64 - v) % 2 ^ 64 else v

/-- The `int` an `unsigned long` converts to: its value modulo `2³²`, in two's
complement. -/
def toInt32 (n : ℕ) : Int := if n % 2 ^ 32 < 2 ^ 31 then (n % 2 ^ 32 : ℕ) else (n % 2 ^ 32 : ℕ) - 2 ^ 32

/-- `strrchr(s, c)`: the index of the last `c` in `s`. -/
def strrchr (s : List Char) (c : Char) : Option ℕ :=
  (s.reverse.findIdx? (· = c)).map fun i => s.length - 1 - i

/-- `__entry_set_save_eof`. -/
def entrySetSaveEof (e : ConfigEntry) (value : List Char) : ConfigEntry :=
  if strcasecmp value "true".toList = 0 then { e with saveEof := 1, saveEofSet := true }
  else if strcasecmp value "false".toList = 0 then { e with saveEof := 0, saveEofSet := true }
  else e

/-- `__entry_set_seek_length`. -/
def entrySetSeekLength (e : ConfigEntry) (value : List Char) : ConfigEntry :=
  { e with seekLength := toInt32 (strtoul value), seekLengthSet := true }

/-- `__entry_set_password`: the text after the first `"` of the value, up to
the last `"` after it. -/
def entrySetPassword (e : ConfigEntry) (value : List Char) : ConfigEntry :=
  match value.dropWhile (· ≠ '"') with
  | [] => e
  | _ :: s =>
    match strrchr s '"' with
    | none => e
    | some i => { e with password := some (s.take i), passwordSet := true }

/-- The body of the inner loop of `rarconfig_init`: the setter of each
property whose key the child's name is, case-insensitively. The setter of
`alias` is not modelled. -/
def applyChild (e : ConfigEntry) (c : ChildNode) : ConfigEntry :=
  let e := if strcasecmp c.name "save-eof".toList = 0 then entrySetSaveEof e c.value else e
  let e := if strcasecmp c.name "seek-length".toList = 0 then entrySetSeekLength e c.value else e
  if strcasecmp c.name "password".toList = 0 then entrySetPassword e c.value else e

/-! ## `rarconfig_init` and the getters -/

/-- Modelled from the spec: the hash table, from path to entry. -/
abbrev Table := List Char → Option ConfigEntry

/-- Modelled from the spec: `hashtable_entry_alloc(ht, path)`, which replaces
any entry of the path by a zeroed one, followed by the writes of the setters
through the pointer it returns, which make it `e`. -/
def Table.insert (t : Table) (path : List Char) (e : ConfigEntry) : Table :=
  fun k => if k = path then some e else t k

/-- The inner loop of `rarconfig_init`: the entry after the children that
`find_next_child` finds from `rest`. -/
def childLoop (e : ConfigEntry) (rest : List (List Char)) : ConfigEntry :=
  match h : findNextChild rest with
  | none => e
  | some (c, rest') => childLoop (applyChild e c) rest'
termination_by rest.length
decreasing_by exact findNextChild_length h

/-- The outer loop of `rarconfig_init`, from the lines after the last header
found. -/
def parentLoop (t : Table) (rest : List (List Char)) : Table :=
  match h : findNextParent rest with
  | none => t
  | some (name, rest') => parentLoop (t.insert name (childLoop alloc rest')) rest'
termination_by rest.length
decreasing_by exact findNextParent_length h

/-- `rarconfig_init(source, cfg)` on the table `ht`, which it leaves as it is
when set; `cfg` is the text of the file, `none` where it cannot be opened. -/
def rarconfigInit (ht : Option Table) (cfg : Option (List Char)) : Option Table :=
  match ht with
  | some t => some t
  | none => cfg.map fun text => parentLoop (fun _ => none) (fgetsLines text)

/-- The properties of `rarconfig.h`. -/
inductive ConfigProp
  | seekLength
  | saveEof
  | password
  deriving DecidableEq

/-- `rarconfig_getprop_int(path, prop)`. -/
def rarconfigGetpropInt (ht : Option Table) (path : List Char) (prop : ConfigProp) : Int :=
  match ht.bind fun t => t path with
  | some e =>
    match prop with
    | .seekLength => if e.seekLengthSet then e.seekLength else -1
    | .saveEof => if e.saveEofSet then e.saveEof else -1
    | .password => -1
  | none => -1

/-- `rarconfig_getprop_char(path, prop)`. -/
def rarconfigGetpropChar (ht : Option Table) (path : List Char) (prop : ConfigProp) : Option (List Char) :=
  match ht.bind fun t => t path with
  | some e =>
    match prop with
    | .password => if e.passwordSet then e.password else none
    | _ => none
  | none => none

/-! ## One line at a time -/

section
variable {t : Table} {e : ConfigEntry} {line : List Char} {rest : List (List Char)}

theorem parentLoop_eq (t : Table) (ls : List (List Char)) :
    parentLoop t ls =
      match findNextParent ls with
      | none => t
      | some (name, rest) => parentLoop (t.insert name (childLoop alloc rest)) rest := by
  rw [parentLoop]; split <;> rename_i h <;> rw [h]

theorem childLoop_eq (e : ConfigEntry) (ls : List (List Char)) :
    childLoop e ls =
      match findNextChild ls with
      | none => e
      | some (c, rest) => childLoop (applyChild e c) rest := by
  rw [childLoop]; split <;> rename_i h <;> rw [h]

theorem parentLoop_nil : parentLoop t [] = t := by
  rw [parentLoop_eq]; rfl

theorem parentLoop_cons :
    parentLoop t (line :: rest) =
      match parentName line with
      | some name => parentLoop (t.insert name (childLoop alloc rest)) rest
      | none => parentLoop t rest := by
  rw [parentLoop_eq t (line :: rest)]
  cases h : parentName line with
  | some name => simp only [findNextParent, h]
  | none => rw [parentLoop_eq t rest]; simp only [findNextParent, h]

theorem childLoop_nil : childLoop e [] = e := by
  rw [childLoop_eq]; rfl

theorem childLoop_cons :
    childLoop e (line :: rest) =
      match childMatch line with
      | some (key, value) => childLoop (applyChild e ⟨scanWord key, value⟩) rest
      | none => if stopsSection line then e else childLoop e rest := by
  rw [childLoop_eq e (line :: rest)]
  cases h : childMatch line with
  | some kv => simp only [findNextChild, h]
  | none =>
    by_cases hs : (scanWord (childKey line)).head? = some '['
    · simp [findNextChild, stopsSection, h, hs]
    · rw [childLoop_eq e rest]; simp [findNextChild, stopsSection, h, hs]

end

/-! ## Against the reading of the file format -/

/-- The entry of `path` changed by `f`: the writes of the setters through the
pointer to it. -/
def Table.update (t : Table) (path : List Char) (f : ConfigEntry → ConfigEntry) : Table :=
  fun k => if k = path then (t k).map f else t k

theorem Table.update_insert (t : Table) (path : List Char) (e : ConfigEntry) (f : ConfigEntry → ConfigEntry) :
    (t.insert path e).update path f = t.insert path (f e) := by
  funext k
  by_cases hk : k = path <;> simp [Table.update, Table.insert, hk]

/-- Modelled from the spec: the reading of the file as "an INI-like text format
with `[path]` sections and `key = value` lines", each key line applied to the
entry of the nearest header above it (`cur`) and to no other. A header is a
line `find_next_parent` takes for one, a key line one `find_next_child` takes
for one. -/
def referenceLoop (t : Table) (cur : Option (List Char)) : List (List Char) → Table
  | [] => t
  | line :: rest =>
    match parentName line with
    | some name => referenceLoop (t.insert name alloc) (some name) rest
    | none =>
      match childMatch line, cur with
      | some (key, value), some name =>
        referenceLoop (t.update name fun e => applyChild e ⟨scanWord key, value⟩) cur rest
      | _, _ => referenceLoop t cur rest

/-- Within a section, on lines where the two scanners agree: the child scan
applies to the section's entry exactly the key lines up to the next header. -/
theorem referenceLoop_section :
    ∀ (ls : List (List Char)), (∀ line ∈ ls, (parentName line).isSome = stopsSection line) →
      ∀ (t : Table) (name : List Char) (e : ConfigEntry),
        referenceLoop (t.insert name e) (some name) ls = parentLoop (t.insert name (childLoop e ls)) ls
  | [], _, t, name, e => by rw [childLoop_nil, parentLoop_nil]; rfl
  | line :: rest, h, t, name, e => by
    have hl := h line (List.mem_cons_self _ _)
    have ih := referenceLoop_section rest fun l hl => h l (List.mem_cons_of_mem _ hl)
    rw [childLoop_cons, parentLoop_cons]
    cases hp : parentName line with
    | some n =>
      have hs : stopsSection line = true := by rw [← hl, hp]; rfl
      have hc : childMatch line = none := by
        simp only [stopsSection, Bool.and_eq_true, Option.isNone_iff_eq_none] at hs; exact hs.1
      simp only [referenceLoop, hp, hc, hs, if_true]
      exact ih _ n alloc
    | none =>
      rw [hp] at hl
      simp only [referenceLoop, hp]
      cases hc : childMatch line with
      | some kv =>
        obtain ⟨key, value⟩ := kv
        simp only [Table.update_insert]
        exact ih t name _
      | none =>
        simp only [← hl, Option.isSome_none, Bool.false_eq_true, if_false]
        exact ih t name e

/-- On lines where the two scanners agree, the loops of `rarconfig_init` build
the table of the reference reading. -/
theorem parentLoop_eq_referenceLoop :
    ∀ (t : Table) (ls : List (List Char)), (∀ line ∈ ls, (parentName line).isSome = stopsSection line) →
      parentLoop t ls = referenceLoop t none ls
  | t, [], _ => parentLoop_nil
  | t, line :: rest, h => by
    rw [parentLoop_cons]
    cases hp : parentName line with
    | some n =>
      simp only [referenceLoop, hp]
      exact (referenceLoop_section rest (fun l hl => h l (List.mem_cons_of_mem _ hl)) t n alloc).symm
    | none =>
      have ih := parentLoop_eq_referenceLoop t rest fun l hl => h l (List.mem_cons_of_mem _ hl)
      cases hc : childMatch line <;> simpa only [referenceLoop, hp, hc] using ih

/-- On a file whose lines the two scanners read alike, `rarconfig_init`
builds the table of the reference reading. -/
theorem rarconfigInit_eq_referenceLoop (text : List Char)
    (h : ∀ line ∈ fgetsLines text, (parentName line).isSome = stopsSection line) :
    rarconfigInit none (some text) = some (referenceLoop (fun _ => none) none (fgetsLines text)) := by
  simp only [rarconfigInit, Option.map_some', parentLoop_eq_referenceLoop _ _ h]

theorem rarconfigInit_eq_referenceLoop_one_section :
    (∀ line ∈ fgetsLines "[/a.rar]\nseek-length = 5\n".toList, (parentName line).isSome = stopsSection line) ∧
      rarconfigInit none (some "[/a.rar]\nseek-length = 5\n".toList) =
        some (referenceLoop (fun _ => none) none (fgetsLines "[/a.rar]\nseek-length = 5\n".toList)) := by
  have hs : fgetsLines "[/a.rar]\nseek-length = 5\n".toList = ["[/a.rar]\n".toList, "seek-length = 5\n".toList] :=
    fgetsLines_lines ["[/a.rar]".toList, "seek-length = 5".toList] (by decide)
  have hl : ∀ line ∈ fgetsLines "[/a.rar]\nseek-length = 5\n".toList,
      (parentName line).isSome = stopsSection line := by
    rw [hs]; decide
  exact ⟨hl, rarconfigInit_eq_referenceLoop _ hl⟩

/-- A header whose path holds an `=` with text after it is also a key line to
`find_next_child`, which scans past it: the key line below it is applied to
the section above as well as to its own. A line `[]` is no header, yet ends
the section above it: the key line below it is applied to no entry. -/
theorem config_header_with_equals :
    (parentName "[/a=b.rar]\n".toList = some "/a=b.rar".toList ∧ stopsSection "[/a=b.rar]\n".toList = false) ∧
      (∃ t, rarconfigInit none (some "[/x]\n[/a=b.rar]\nseek-length = 5\n".toList) = some t ∧
        rarconfigGetpropInt (some t) "/a=b.rar".toList .seekLength = 5 ∧
        rarconfigGetpropInt (some t) "/x".toList .seekLength = 5) ∧
      rarconfigGetpropInt (some (referenceLoop (fun _ => none) none
        (fgetsLines "[/x]\n[/a=b.rar]\nseek-length = 5\n".toList))) "/x".toList .seekLength = -1 ∧
      (parentName "[]\n".toList = none ∧ stopsSection "[]\n".toList = true) ∧
      rarconfigGetpropInt (rarconfigInit none (some "[/x]\n[]\nseek-length = 5\n".toList)) "/x".toList
        .seekLength = -1 ∧
      rarconfigGetpropInt (some (referenceLoop (fun _ => none) none
        (fgetsLines "[/x]\n[]\nseek-length = 5\n".toList))) "/x".toList .seekLength = 5 := by
  have hl : fgetsLines "[/x]\n[/a=b.rar]\nseek-length = 5\n".toList =
      ["[/x]\n".toList, "[/a=b.rar]\n".toList, "seek-length = 5\n".toList] :=
    fgetsLines_lines ["[/x]".toList, "[/a=b.rar]".toList, "seek-length = 5".toList] (by decide)
  have hl' : fgetsLines "[/x]\n[]\nseek-length = 5\n".toList =
      ["[/x]\n".toList, "[]\n".toList, "seek-length = 5\n".toList] :=
    fgetsLines_lines ["[/x]".toList, "[]".toList, "seek-length = 5".toList] (by decide)
  simp only [rarconfigInit, Option.map_some', Option.some.injEq, exists_eq_left', hl, hl', parentLoop_cons,
    childLoop_cons, parentLoop_nil, childLoop_nil]
  decide

/-- The value of a key line keeps the blank after the `=`, which the
`strcasecmp` of `__entry_set_save_eof` compares: `save-eof = true` sets
nothing, where the same line without that blank sets 1. -/
theorem save_eof_blank_ignored :
    childMatch "save-eof = true\n".toList = some ("save-eof ".toList, " true".toList) ∧
      rarconfigGetpropInt (rarconfigInit none (some "[/a.rar]\nsave-eof = true\n".toList)) "/a.rar".toList
        .saveEof = -1 ∧
      rarconfigGetpropInt (rarconfigInit none (some "[/a.rar]\nsave-eof =true\n".toList)) "/a.rar".toList
        .saveEof = 1 := by
  have hl : fgetsLines "[/a.rar]\nsave-eof = true\n".toList = ["[/a.rar]\n".toList, "save-eof = true\n".toList] :=
    fgetsLines_lines ["[/a.rar]".toList, "save-eof = true".toList] (by decide)
  have hl' : fgetsLines "[/a.rar]\nsave-eof =true\n".toList = ["[/a.rar]\n".toList, "save-eof =true\n".toList] :=
    fgetsLines_lines ["[/a.rar]".toList, "save-eof =true".toList] (by decide)
  simp only [rarconfigInit, Option.map_some', hl, hl', parentLoop_cons, childLoop_cons, parentLoop_nil,
    childLoop_nil]
  decide

/-! ## Key lines in the documented layout -/

section
variable {b b₁ b₂ b₃ key value s : List Char} {e : ConfigEntry}

/-- What the scanners and the setters see of a blank. -/
theorem blank_props {c : Char} (h : c = ' ' ∨ c = '\t') :
    isspace c ∧ isKeyChar c ∧ c ≠ '\x00' ∧ c ≠ '\n' ∧ c ≠ '"' := by
  rcases h with rfl | rfl <;> decide

theorem skipSpace_key (hk : key ≠ [] ∧ ∀ c ∈ key, isKeyChar c ∧ isspace c = false ∧ c ≠ '\x00')
    (r : List Char) : skipSpace (key ++ r) = key ++ r := by
  obtain ⟨k₀, ks, rfl⟩ := List.exists_cons_of_ne_nil hk.1
  exact List.dropWhile_cons_of_neg (by simp [(hk.2 k₀ (List.mem_cons_self _ _)).2.1])

/-- The trim of `find_next_child` takes the blanks off the key text. -/
theorem scanWord_key_blanks (hk : key ≠ [] ∧ ∀ c ∈ key, isKeyChar c ∧ isspace c = false ∧ c ≠ '\x00')
    (hb : ∀ c ∈ b, c = ' ' ∨ c = '\t') : scanWord (key ++ b) = key := by
  have hw : ∀ c ∈ key, (!isspace c) = true := fun c hc => by simp [(hk.2 c hc).2.1]
  rw [scanWord, skipSpace_key hk, if_neg (by simp [hk.1]), List.takeWhile_append_of_pos hw]
  cases b with
  | nil => rw [List.takeWhile_nil, List.append_nil]
  | cons c b =>
    rw [List.takeWhile_cons_of_neg (by simp [(blank_props (hb c (List.mem_cons_self _ _))).1]), List.append_nil]

/-- The `sscanf` of `find_next_child` on a key line of the documented layout:
the key text runs up to the `=`, with the blanks before it, and the value from
just after the `=`, with the blanks after it. -/
theorem childMatch_key_line (hb : ∀ c ∈ b₁ ++ b₂ ++ b₃, c = ' ' ∨ c = '\t')
    (hk : key ≠ [] ∧ ∀ c ∈ key, isKeyChar c ∧ isspace c = false ∧ c ≠ '\x00')
    (hv : value ≠ [] ∧ ∀ c ∈ value, c ≠ '\n' ∧ c ≠ '\x00') :
    childMatch (b₁ ++ key ++ b₂ ++ ['='] ++ b₃ ++ value ++ ['\n']) = some (key ++ b₂, b₃ ++ value) := by
  simp only [List.mem_append, or_imp, forall_and] at hb
  obtain ⟨⟨hb₁, hb₂⟩, hb₃⟩ := hb
  have hnul : ∀ c ∈ b₁ ++ key ++ b₂ ++ ['='] ++ b₃ ++ value ++ ['\n'], c ≠ '\x00' := by
    intro c hc
    simp only [List.mem_append, List.mem_singleton] at hc
    rcases hc with ((((((h | h) | h) | rfl) | h) | h) | rfl)
    · exact (blank_props (hb₁ c h)).2.2.1
    · exact (hk.2 c h).2.2
    · exact (blank_props (hb₂ c h)).2.2.1
    · decide
    · exact (blank_props (hb₃ c h)).2.2.1
    · exact (hv.2 c h).2
    · decide
  have hval : (b₃ ++ (value ++ ['\n'])).takeWhile (· ≠ '\n') = b₃ ++ value := by
    have hn : ∀ c ∈ b₃ ++ value, decide (c ≠ '\n') = true := fun c hc => by
      rcases List.mem_append.mp hc with h | h
      · exact decide_eq_true (blank_props (hb₃ c h)).2.2.2.1
      · exact decide_eq_true (hv.2 c h).1
    rw [← List.append_assoc, List.takeWhile_append_of_pos hn]; simp
  have hkey : ∀ c ∈ key, isKeyChar c := fun c hc => (hk.2 c hc).1
  have hb₂key : ∀ c ∈ b₂, isKeyChar c := fun c hc => (blank_props (hb₂ c hc)).2.1
  rw [childMatch, childKey, cStr_of_forall hnul]
  simp only [List.append_assoc, List.singleton_append, List.cons_append, List.nil_append]
  rw [skipSpace_append fun c hc => (blank_props (hb₁ c hc)).1, skipSpace_key hk, List.dropWhile_append_of_pos hkey,
    List.dropWhile_append_of_pos hb₂key, List.dropWhile_cons_of_neg (by decide),
    List.takeWhile_append_of_pos hkey, List.takeWhile_append_of_pos hb₂key,
    List.takeWhile_cons_of_neg (by decide), List.append_nil]
  simp only [hval]
  simp [hk.1, hv.1]

/-- `strtoul` skips the blanks before the number. -/
theorem strtoul_blanks (hb : ∀ c ∈ b, c = ' ' ∨ c = '\t') : strtoul (b ++ s) = strtoul s := by
  simp only [strtoul, skipSpace_append fun c hc => (blank_props (hb c hc)).1]

/-- The search for the first quote of `__entry_set_password` skips blanks. -/
theorem entrySetPassword_blanks (hb : ∀ c ∈ b, c = ' ' ∨ c = '\t') :
    entrySetPassword e (b ++ s) = entrySetPassword e s := by
  have hq : ∀ c ∈ b, decide (c ≠ '"') = true := fun c hc => decide_eq_true (blank_props (hb c hc)).2.2.2.2
  simp only [entrySetPassword, List.dropWhile_append_of_pos hq]

/-- `__entry_set_save_eof` sets nothing on a value that starts with a blank. -/
theorem entrySetSaveEof_blank {c : Char} (hc : c = ' ' ∨ c = '\t') : entrySetSaveEof e (c :: s) = e := by
  have ht : strcasecmp (c :: s) "true".toList ≠ 0 := by rcases hc with rfl | rfl <;> simp [strcasecmp]
  have hf : strcasecmp (c :: s) "false".toList ≠ 0 := by rcases hc with rfl | rfl <;> simp [strcasecmp]
  rw [entrySetSaveEof, if_neg ht, if_neg hf]

end

/-- A key line in the documented layout, with runs of blanks `b₁` before the
key, `b₂` before the `=` and `b₃` after it: the child scan reads the key and,
as the value, the text after the `=` with its blanks. `strtoul` and the search
for the first quote skip them; the comparisons of `__entry_set_save_eof` do
not, and set nothing after a blank. -/
theorem childMatch_documented_layout (b₁ b₂ b₃ key value : List Char) (e : ConfigEntry)
    (hb : ∀ c ∈ b₁ ++ b₂ ++ b₃, c = ' ' ∨ c = '\t')
    (hk : key ≠ [] ∧ ∀ c ∈ key, isKeyChar c ∧ isspace c = false ∧ c ≠ '\x00')
    (hv : value ≠ [] ∧ ∀ c ∈ value, c ≠ '\n' ∧ c ≠ '\x00') :
    (∃ k, childMatch (b₁ ++ key ++ b₂ ++ ['='] ++ b₃ ++ value ++ ['\n']) = some (k, b₃ ++ value) ∧
      scanWord k = key) ∧
    entrySetSeekLength e (b₃ ++ value) = entrySetSeekLength e value ∧
    entrySetPassword e (b₃ ++ value) = entrySetPassword e value ∧
    (b₃ ≠ [] → entrySetSaveEof e (b₃ ++ value) = e) := by
  have hb₂ : ∀ c ∈ b₂, c = ' ' ∨ c = '\t' := fun c hc => hb c (by simp [hc])
  have hb₃ : ∀ c ∈ b₃, c = ' ' ∨ c = '\t' := fun c hc => hb c (List.mem_append_right _ hc)
  refine ⟨⟨key ++ b₂, childMatch_key_line hb hk hv, scanWord_key_blanks hk hb₂⟩,
    by rw [entrySetSeekLength, entrySetSeekLength, strtoul_blanks hb₃], entrySetPassword_blanks hb₃, fun hne => ?_⟩
  obtain ⟨c, b₃, rfl⟩ := List.exists_cons_of_ne_nil hne
  exact entrySetSaveEof_blank (hb₃ c (List.mem_cons_self _ _))

theorem childMatch_documented_layout_seek_length :
    ((∀ c ∈ " ".toList ++ " ".toList ++ " ".toList, c = ' ' ∨ c = '\t') ∧
      ("seek-length".toList ≠ [] ∧ ∀ c ∈ "seek-length".toList, isKeyChar c ∧ isspace c = false ∧ c ≠ '\x00') ∧
      ("5".toList ≠ [] ∧ ∀ c ∈ "5".toList, c ≠ '\n' ∧ c ≠ '\x00')) ∧
    (∃ k, childMatch (" ".toList ++ "seek-length".toList ++ " ".toList ++ ['='] ++ " ".toList ++ "5".toList ++ ['\n'])
        = some (k, " ".toList ++ "5".toList) ∧ scanWord k = "seek-length".toList) ∧
    entrySetSeekLength alloc (" ".toList ++ "5".toList) = entrySetSeekLength alloc "5".toList ∧
    entrySetPassword alloc (" ".toList ++ "5".toList) = entrySetPassword alloc "5".toList ∧
    (" ".toList ≠ [] → entrySetSaveEof alloc (" ".toList ++ "5".toList) = alloc) := by
  have hb : ∀ c ∈ " ".toList ++ " ".toList ++ " ".toList, c = ' ' ∨ c = '\t' := by decide
  have hk : "seek-length".toList ≠ [] ∧ ∀ c ∈ "seek-length".toList, isKeyChar c ∧ isspace c = false ∧ c ≠ '\x00' := by
    decide
  have hv : "5".toList ≠ [] ∧ ∀ c ∈ "5".toList, c ≠ '\n' ∧ c ≠ '\x00' := by decide
  exact ⟨⟨hb, hk, hv⟩, childMatch_documented_layout _ _ _ _ _ alloc hb hk hv⟩

end Rar2fs.Config
