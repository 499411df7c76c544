import Rar2fs.Config.RarConfig

/-!
# Aliases (`rarconfig.c`)

An `alias` key line renames a file of an archive. `__entry_set_alias` reads
its value with `sscanf(value, " \"%[^\"]%*[^,]%*[^\"]\" %[^\"]", file,
alias)` (`scanAlias`) into two buffers of `strlen(value) + 1` bytes, checks the
two paths with `__check_paths`, and `__set_alias` appends the pair to the
entry's array. `rarconfig_setalias` appends a pair at run time, without the
check, and `rarconfig_getalias` returns the alias of the first pair of a file.

`__check_paths` compares `__gnu_dirname` of the two paths and `__dirlevels`
counts the `__gnu_dirname`s down to `"/"`; `dirname.h` is not among the
sources, so `dirname` is a parameter, and the loop of `__dirlevels` has fuel.
Each allocation has an outcome; in `rarconfig_init` they all succeed, as in
`Rar2fs.Config.RarConfig`.

* `scanAlias_length`: both names fit in the buffers, whatever the value;
* `alias_line_scan`: an alias line of the documented form
  `alias = "file", "alias"` is a key line of the key `alias`, and the scan
  reads the two names back from its value;
* `rarconfigInitFull_entries`: with the aliases, `rarconfig_init` builds on
  every other property the table of `rarconfigInit`;
* `getalias_setalias_run`: after any calls of `rarconfig_setalias`, the alias
  of a file is that of its first pair: the pairs from the file, then those
  set at run time in order.
-/

namespace Rar2fs.Config

/-- `struct alias_entry`. -/
structure AliasEntry where
  file : List Char
  «alias» : List Char
  deriving DecidableEq

/-! ## Reading an alias line -/

/-- `%[^c]`, or `%*[^c]`: the longest run of characters other than `c`, which
must not be empty, and the text after it. -/
def scanNot (c : Char) (s : List Char) : Option (List Char × List Char) :=
  if s.takeWhile (· ≠ c) = [] then none else some (s.takeWhile (· ≠ c), s.dropWhile (· ≠ c))

/-- An ordinary character `c` of a format: it must come next. -/
def scanChar (c : Char) : List Char → Option (List Char)
  | d :: s => if d = c then some s else none
  | [] => none

/-- `sscanf(value, " \"%[^\"]%*[^,]%*[^\"]\" %[^\"]", file, alias) == 2`:
every directive succeeds, and the two conversions are read. -/
def scanAlias (value : List Char) : Option (List Char × List Char) := do
  let s ← scanChar '"' (skipSpace value)
  let (file, s) ← scanNot '"' s
  let (_, s) ← scanNot ',' s
  let (_, s) ← scanNot '"' s
  let s ← scanChar '"' s
  let (target, _) ← scanNot '"' (skipSpace s)
  pure (file, target)

/-! ## `__check_paths` -/

/-- The loop of `__dirlevels`: `++count` and `tmp = __gnu_dirname(tmp)` while
`tmp` is not `"/"`; `none` where it is not `"/"` within `fuel` turns. -/
def dirlevelsLoop (dirname : List Char → List Char) : ℕ → List Char → Option ℕ
  | 0, tmp => if tmp = ['/'] then some 0 else none
  | fuel + 1, tmp => if tmp = ['/'] then some 0 else (dirlevelsLoop dirname fuel (dirname tmp)).map (· + 1)

/-- `__dirlevels(path)`: `0` when `strdup(path)` fails (`dupOk`). -/
def dirlevels (dirname : List Char → List Char) (fuel : ℕ) (dupOk : Bool) (path : List Char) : Option ℕ :=
  if dupOk then dirlevelsLoop dirname fuel path else some 0

/-- Whether each allocation of `__check_paths` succeeds: the `strdup` of each
`__dirlevels`, then those of `a_safe` and `b_safe`. -/
structure CheckAlloc where
  levelsA : Bool
  levelsB : Bool
  safeA : Bool
  safeB : Bool
  deriving DecidableEq

/-- `__check_paths(a, b)`: `1` when a path is not absolute or shorter than two
characters, when the depths differ, when a copy fails, or when the
`__gnu_dirname`s differ; `0` otherwise. -/
def checkPaths (dirname : List Char → List Char) (fuel : ℕ) (ok : CheckAlloc) (a b : List Char) : Option Int :=
  if a.head? ≠ some '/' ∨ b.head? ≠ some '/' then some 1
  else if a.length < 2 ∨ b.length < 2 then some 1
  else (dirlevels dirname fuel ok.levelsA a).bind fun la => (dirlevels dirname fuel ok.levelsB b).bind fun lb =>
    if la ≠ lb then some 1
    else if !ok.safeA then some 1
    else if !ok.safeB then some 1
    else if dirname a ≠ dirname b then some 1
    else some 0

/-! ## Storing an alias -/

/-- `__set_alias(e, file, alias)` on the pairs of `e`: the pair is appended
when the `realloc` of the array and the two `strdup`s succeed; otherwise `e`
keeps its `n_aliases` pairs. -/
def setAlias (aliases : List AliasEntry) (file target : List Char) (reallocOk fileOk aliasOk : Bool) :
    List AliasEntry :=
  if !reallocOk then aliases
  else if !fileOk then aliases
  else if !aliasOk then aliases
  else aliases ++ [⟨file, target⟩]

/-- Whether each allocation of `__entry_set_alias` succeeds: the two buffers,
those of `__check_paths`, and those of `__set_alias`. -/
structure AliasAlloc where
  fileOk : Bool
  aliasOk : Bool
  check : CheckAlloc
  reallocOk : Bool
  fileDupOk : Bool
  aliasDupOk : Bool
  deriving DecidableEq

/-- Every allocation succeeds. -/
def AliasAlloc.allOk : AliasAlloc := ⟨true, true, ⟨true, true, true, true⟩, true, true, true⟩

/-- `__entry_set_alias(e, cnode)` on the pairs of `e`, with `value` the value
of the key line. -/
def entrySetAlias (dirname : List Char → List Char) (fuel : ℕ) (ok : AliasAlloc) (aliases : List AliasEntry)
    (value : List Char) : Option (List AliasEntry) :=
  if !ok.fileOk then some aliases
  else if !ok.aliasOk then some aliases
  else
    match scanAlias value with
    | some (file, target) => (checkPaths dirname fuel ok.check file target).map fun r =>
      if r ≠ 0 then aliases else setAlias aliases file target ok.reallocOk ok.fileDupOk ok.aliasDupOk
    | none => some aliases

/-! ## The table with the aliases -/

/-- The hash table with each entry in full: the properties and the pairs of
`struct config_entry`. -/
abbrev FullTable := List Char → Option (ConfigEntry × List AliasEntry)

/-- The table of the properties alone. -/
def FullTable.entries (t : FullTable) : Table := fun k => (t k).map Prod.fst

/-- `hashtable_entry_alloc(ht, path)` and the writes through it, as
`Table.insert`. -/
def FullTable.insert (t : FullTable) (path : List Char) (x : ConfigEntry × List AliasEntry) : FullTable :=
  fun k => if k = path then some x else t k

/-- The body of the inner loop of `rarconfig_init` in full: the setters of
`applyChild`, then `__entry_set_alias` for an `alias` key. -/
def applyChildFull (dirname : List Char → List Char) (fuel : ℕ) (x : ConfigEntry × List AliasEntry)
    (c : ChildNode) : Option (ConfigEntry × List AliasEntry) :=
  if strcasecmp c.name "alias".toList = 0 then (entrySetAlias dirname fuel .allOk x.2 c.value).map (applyChild x.1 c, ·)
  else some (applyChild x.1 c, x.2)

/-- The inner loop of `rarconfig_init` in full. -/
def childLoopFull (dirname : List Char → List Char) (fuel : ℕ) (x : ConfigEntry × List AliasEntry)
    (rest : List (List Char)) : Option (ConfigEntry × List AliasEntry) :=
  match h : findNextChild rest with
  | none => some x
  | some (c, rest') => (applyChildFull dirname fuel x c).bind fun x => childLoopFull dirname fuel x rest'
termination_by rest.length
decreasing_by exact findNextChild_length h

/-- The outer loop of `rarconfig_init` in full: each header's entry starts
zeroed, with no pair. -/
def parentLoopFull (dirname : List Char → List Char) (fuel : ℕ) (t : FullTable) (rest : List (List Char)) :
    Option FullTable :=
  match h : findNextParent rest with
  | none => some t
  | some (name, rest') =>
    (childLoopFull dirname fuel (alloc, []) rest').bind fun x => parentLoopFull dirname fuel (t.insert name x) rest'
termination_by rest.length
decreasing_by exact findNextParent_length h

/-- `rarconfig_init(source, cfg)` in full, as `rarconfigInit`; `none` where
a `__dirlevels` runs out of fuel. -/
def rarconfigInitFull (dirname : List Char → List Char) (fuel : ℕ) (ht : Option FullTable)
    (cfg : Option (List Char)) : Option (Option FullTable) :=
  match ht, cfg with
  | some t, _ => some (some t)
  | none, none => some none
  | none, some text => (parentLoopFull dirname fuel (fun _ => none) (fgetsLines text)).map some

/-- `rarconfig_getalias(path, file)`: the alias of the first pair of `file`
(`!strcmp(file, aliases[n].file)`) in the entry of `path`. -/
def rarconfigGetalias (ht : Option FullTable) (path file : List Char) : Option (List Char) :=
  match ht.bind fun t => t path with
  | some (_, aliases) => (aliases.find? fun a => a.file = file).map AliasEntry.alias
  | none => none

/-- `rarconfig_setalias(path, file, alias)`: `__set_alias` on the entry of
`path`, when there is one. -/
def rarconfigSetalias (ht : Option FullTable) (path file target : List Char) (reallocOk fileOk aliasOk : Bool) :
    Option FullTable :=
  ht.map fun t k => if k = path then (t k).map fun x => (x.1, setAlias x.2 file target reallocOk fileOk aliasOk)
    else t k

/-! ## What the scan reads -/

section
variable {c : Char} {s r t : List Char}

theorem scanNot_eq_some (h : scanNot c s = some (r, t)) : r ++ t = s ∧ r ≠ [] := by
  unfold scanNot at h
  split_ifs at h with hr
  cases h
  exact ⟨List.takeWhile_append_dropWhile _ _, hr⟩

theorem scanChar_eq_some (h : scanChar c s = some t) : s = c :: t := by
  cases s with
  | nil => cases h
  | cons d s =>
    simp only [scanChar] at h
    split_ifs at h with hd
    cases h
    rw [hd]

theorem length_skipSpace_le (s : List Char) : (skipSpace s).length ≤ s.length :=
  (List.dropWhile_suffix _).length_le

end

/-- Both names `sscanf` reads of an alias value fit in the buffers of
`strlen(value) + 1` bytes that `__entry_set_alias` gives it: they take at most
the value's characters but four, the quotes and separators between them. -/
theorem scanAlias_length {value file target : List Char} (h : scanAlias value = some (file, target)) :
    file.length + target.length + 4 ≤ value.length := by
  simp only [scanAlias, Option.bind_eq_bind, Option.bind_eq_some, Option.some.injEq] at h
  obtain ⟨s₁, h₁, ⟨f, s₂⟩, h₂, ⟨m₁, s₃⟩, h₃, ⟨m₂, s₄⟩, h₄, s₅, h₅, ⟨a, s₆⟩, h₆, he⟩ := h
  obtain ⟨rfl, rfl⟩ := Prod.mk.inj (Option.some.inj he)
  dsimp only at h₃ h₄ h₅ ⊢
  obtain ⟨e₂, -⟩ := scanNot_eq_some h₂
  obtain ⟨e₃, n₃⟩ := scanNot_eq_some h₃
  obtain ⟨e₄, n₄⟩ := scanNot_eq_some h₄
  obtain ⟨e₆, -⟩ := scanNot_eq_some h₆
  have l₁ := congrArg List.length (scanChar_eq_some h₁)
  have l₅ := congrArg List.length (scanChar_eq_some h₅)
  have k₃ := List.length_pos.mpr n₃
  have k₄ := List.length_pos.mpr n₄
  have kv := length_skipSpace_le value
  have k₅ := length_skipSpace_le s₅
  subst e₂ e₃ e₄
  rw [← e₆] at k₅
  simp only [List.length_append, List.length_cons] at l₁ l₅ k₅
  omega

theorem scanAlias_length_two_names :
    scanAlias "\"/a.rar\", \"/b.rar\"".toList = some ("/a.rar".toList, "/b.rar".toList) ∧
      "/a.rar".toList.length + "/b.rar".toList.length + 4 ≤ "\"/a.rar\", \"/b.rar\"".toList.length :=
  have h : scanAlias "\"/a.rar\", \"/b.rar\"".toList = some ("/a.rar".toList, "/b.rar".toList) := by decide
  ⟨h, scanAlias_length h⟩

section
variable {c : Char} {r t : List Char}

theorem scanNot_append (hr : r ≠ [] ∧ c ∉ r) : scanNot c (r ++ c :: t) = some (r, c :: t) := by
  have hp : ∀ x ∈ r, decide (x ≠ c) = true := fun x hx => decide_eq_true fun he => hr.2 (he ▸ hx)
  unfold scanNot
  rw [List.takeWhile_append_of_pos hp, List.dropWhile_append_of_pos hp,
    List.takeWhile_cons_of_neg (by simp), List.dropWhile_cons_of_neg (by simp), List.append_nil, if_neg hr.1]

@[simp] theorem scanChar_cons : scanChar c (c :: t) = some t := by
  simp [scanChar]

theorem scanNot_single {x : Char} (hx : x ≠ c) : scanNot c (x :: c :: t) = some ([x], c :: t) :=
  scanNot_append (r := [x]) ⟨List.cons_ne_nil _ _, fun h => hx (List.mem_singleton.mp h).symm⟩

theorem scanNot_cons_append {x : Char} (hx : x ≠ c) (hr : c ∉ r) :
    scanNot c (x :: (r ++ c :: t)) = some (x :: r, c :: t) :=
  scanNot_append (r := x :: r) ⟨List.cons_ne_nil _ _, fun h => (List.mem_cons.mp h).elim (fun e => hx e.symm) hr⟩

theorem skipSpace_cons {x : Char} (hx : isspace x = false) : skipSpace (x :: t) = x :: t :=
  List.dropWhile_cons_of_neg (by simpa using hx)

theorem skipSpace_of_head (h : ∀ x ∈ t.head?, isspace x = false) : skipSpace t = t := by
  cases t with
  | nil => rfl
  | cons x t => exact List.dropWhile_cons_of_neg (by simpa using h)

end

/-- The value of an alias line of the documented form, `"file", "alias"`,
after any blanks, with any text but a quote after the comma, blanks before
the second name and anything after its quote: the scan reads the two names.
-/
theorem scanAlias_quoted {b₁ b₂ b₃ file target r : List Char} (hb₁ : ∀ c ∈ b₁, isspace c) (hb₂ : '"' ∉ b₂)
    (hb₃ : ∀ c ∈ b₃, isspace c) (hf : file ≠ [] ∧ '"' ∉ file) (ht : target ≠ [] ∧ '"' ∉ target)
    (ht₀ : ∀ c ∈ target.head?, isspace c = false) :
    scanAlias (b₁ ++ '"' :: file ++ '"' :: ',' :: b₂ ++ '"' :: b₃ ++ target ++ '"' :: r) = some (file, target) := by
  have ht' : ∀ x ∈ (target ++ '"' :: r).head?, isspace x = false := by
    obtain ⟨t₀, ts, rfl⟩ := List.exists_cons_of_ne_nil ht.1
    simpa using ht₀
  simp only [scanAlias, Option.bind_eq_bind, List.append_assoc, List.cons_append, skipSpace_append hb₁,
    skipSpace_cons (show isspace '"' = false by decide), scanChar_cons, Option.some_bind, scanNot_append hf,
    scanNot_single (show '"' ≠ ',' by decide), scanNot_cons_append (show ',' ≠ '"' by decide) hb₂,
    skipSpace_append hb₃, skipSpace_of_head ht',
    scanNot_append ht]
  rfl

/-- An alias line of the documented layout, `alias = "file", "alias"` with
runs of blanks around the key, the `=` and the second name, and any text but a
quote after the comma: `find_next_child` reads it as a key line of the key
`alias`, and the scan of `__entry_set_alias` reads the two names back from its
value. -/
theorem alias_line_scan {b₁ b₂ b₃ b₄ b₅ file target : List Char} (rest : List (List Char))
    (hb : ∀ c ∈ b₁ ++ b₂ ++ b₃ ++ b₅, c = ' ' ∨ c = '\t') (hb₄ : ∀ c ∈ b₄, c ≠ '"' ∧ c ≠ '\n' ∧ c ≠ '\x00')
    (hf : file ≠ [] ∧ ∀ c ∈ file, c ≠ '"' ∧ c ≠ '\n' ∧ c ≠ '\x00')
    (ht : target ≠ [] ∧ ∀ c ∈ target, c ≠ '"' ∧ c ≠ '\n' ∧ c ≠ '\x00') (ht₀ : ∀ c ∈ target.head?, isspace c = false) :
    ∃ c, findNextChild ((b₁ ++ "alias".toList ++ b₂ ++ ['='] ++ b₃ ++
        ('"' :: file ++ '"' :: ',' :: b₄ ++ '"' :: b₅ ++ target ++ ['"']) ++ ['\n']) :: rest) = some (c, rest) ∧
      strcasecmp c.name "alias".toList = 0 ∧ scanAlias c.value = some (file, target) := by
  have hb' : ∀ c ∈ b₁ ++ b₂ ++ b₃, c = ' ' ∨ c = '\t' := fun c hc => hb c (List.mem_append_left _ hc)
  have hb₂ : ∀ c ∈ b₂, c = ' ' ∨ c = '\t' := fun c hc => hb' c (by simp [hc])
  have hb₃ : ∀ c ∈ b₃, c = ' ' ∨ c = '\t' := fun c hc => hb' c (List.mem_append_right _ hc)
  have hb₅ : ∀ c ∈ b₅, c = ' ' ∨ c = '\t' := fun c hc => hb c (List.mem_append_right _ hc)
  have hk : "alias".toList ≠ [] ∧ ∀ c ∈ "alias".toList, isKeyChar c ∧ isspace c = false ∧ c ≠ '\x00' := by decide
  have hv : ('"' :: file ++ '"' :: ',' :: b₄ ++ '"' :: b₅ ++ target ++ ['"']) ≠ [] ∧
      ∀ c ∈ '"' :: file ++ '"' :: ',' :: b₄ ++ '"' :: b₅ ++ target ++ ['"'], c ≠ '\n' ∧ c ≠ '\x00' := by
    refine ⟨by simp, ?_⟩
    simp only [List.cons_append, List.forall_mem_cons, List.forall_mem_append, List.mem_singleton, forall_eq,
      and_assoc]
    have h₅ : ∀ c ∈ b₅, c ≠ '\n' ∧ c ≠ '\x00' := fun c hc =>
      ⟨(blank_props (hb₅ c hc)).2.2.2.1, (blank_props (hb₅ c hc)).2.2.1⟩
    exact ⟨by decide, by decide, fun c hc => (hf.2 c hc).2, by decide, by decide, by decide, by decide,
      fun c hc => (hb₄ c hc).2, by decide, by decide, h₅, fun c hc => (ht.2 c hc).2, by decide, by decide⟩
  have hline := childMatch_key_line hb' hk hv
  simp only [findNextChild, hline, Option.some.injEq, Prod.mk.injEq, and_true, exists_eq_left']
  refine ⟨by rw [scanWord_key_blanks hk hb₂]; decide, ?_⟩
  have s₃ : ∀ c ∈ b₃, isspace c := fun c hc => (blank_props (hb₃ c hc)).1
  have s₄ : '"' ∉ b₄ := fun h => (hb₄ _ h).1 rfl
  have s₅ : ∀ c ∈ b₅, isspace c := fun c hc => (blank_props (hb₅ c hc)).1
  have := scanAlias_quoted (r := []) s₃ s₄ s₅ ⟨hf.1, fun h => (hf.2 _ h).1 rfl⟩ ⟨ht.1, fun h => (ht.2 _ h).1 rfl⟩ ht₀
  simpa only [List.append_assoc, List.cons_append] using this

theorem alias_line_scan_blanks :
    (∀ c ∈ [' '] ++ [' '] ++ [' '] ++ [' '], c = ' ' ∨ c = '\t') ∧ (∀ c ∈ [' '], c ≠ '"' ∧ c ≠ '\n' ∧ c ≠ '\x00') ∧
      ("/a.rar".toList ≠ [] ∧ ∀ c ∈ "/a.rar".toList, c ≠ '"' ∧ c ≠ '\n' ∧ c ≠ '\x00') ∧
      ("/b.rar".toList ≠ [] ∧ ∀ c ∈ "/b.rar".toList, c ≠ '"' ∧ c ≠ '\n' ∧ c ≠ '\x00') ∧
      (∀ c ∈ "/b.rar".toList.head?, isspace c = false) ∧
      ∃ c, findNextChild (([' '] ++ "alias".toList ++ [' '] ++ ['='] ++ [' '] ++
          ('"' :: "/a.rar".toList ++ '"' :: ',' :: [' '] ++ '"' :: [' '] ++ "/b.rar".toList ++ ['"']) ++ ['\n']) :: [])
          = some (c, []) ∧
        strcasecmp c.name "alias".toList = 0 ∧ scanAlias c.value = some ("/a.rar".toList, "/b.rar".toList) :=
  have hb : ∀ c ∈ [' '] ++ [' '] ++ [' '] ++ [' '], c = ' ' ∨ c = '\t' := by decide
  have hb₄ : ∀ c ∈ [' '], c ≠ '"' ∧ c ≠ '\n' ∧ c ≠ '\x00' := by decide
  have hf : "/a.rar".toList ≠ [] ∧ ∀ c ∈ "/a.rar".toList, c ≠ '"' ∧ c ≠ '\n' ∧ c ≠ '\x00' := by decide
  have ht : "/b.rar".toList ≠ [] ∧ ∀ c ∈ "/b.rar".toList, c ≠ '"' ∧ c ≠ '\n' ∧ c ≠ '\x00' := by decide
  have ht₀ : ∀ c ∈ "/b.rar".toList.head?, isspace c = false := by decide
  ⟨hb, hb₄, hf, ht, ht₀, alias_line_scan [] hb hb₄ hf ht ht₀⟩

/-! ## The table of the properties -/

section
variable {dirname : List Char → List Char} {fuel : ℕ}

theorem childLoopFull_eq (x : ConfigEntry × List AliasEntry) (ls : List (List Char)) :
    childLoopFull dirname fuel x ls =
      match findNextChild ls with
      | none => some x
      | some (c, rest) => (applyChildFull dirname fuel x c).bind fun x => childLoopFull dirname fuel x rest := by
  rw [childLoopFull]; split <;> rename_i h <;> rw [h]

theorem parentLoopFull_eq (t : FullTable) (ls : List (List Char)) :
    parentLoopFull dirname fuel t ls =
      match findNextParent ls with
      | none => some t
      | some (name, rest) =>
        (childLoopFull dirname fuel (alloc, []) rest).bind fun x => parentLoopFull dirname fuel (t.insert name x) rest := by
  rw [parentLoopFull]; split <;> rename_i h <;> rw [h]

/-- An alias line changes only the pairs of the entry. -/
theorem applyChildFull_fst {x y : ConfigEntry × List AliasEntry} {c : ChildNode}
    (h : applyChildFull dirname fuel x c = some y) : y.1 = applyChild x.1 c := by
  unfold applyChildFull at h
  split_ifs at h
  · obtain ⟨a, -, rfl⟩ := Option.map_eq_some'.mp h
    rfl
  · cases h
    rfl

theorem childLoopFull_fst (x : ConfigEntry × List AliasEntry) (ls : List (List Char)) :
    ∀ {y}, childLoopFull dirname fuel x ls = some y → y.1 = childLoop x.1 ls := by
  induction x, ls using childLoopFull.induct dirname fuel with
  | case1 x rest h =>
    intro y hy
    rw [childLoopFull_eq, h] at hy
    cases hy
    rw [childLoop_eq, h]
  | case2 x rest c rest' h ih =>
    intro y hy
    rw [childLoopFull_eq, h] at hy
    obtain ⟨x', hx', hy⟩ := Option.bind_eq_some.mp hy
    rw [ih x' hy, applyChildFull_fst hx', childLoop_eq x.1 rest, h]

theorem FullTable.entries_insert (t : FullTable) (name : List Char) (x : ConfigEntry × List AliasEntry) :
    (t.insert name x).entries = t.entries.insert name x.1 := by
  funext k
  by_cases hk : k = name <;> simp [FullTable.entries, FullTable.insert, Table.insert, hk]

theorem parentLoopFull_entries (t : FullTable) (ls : List (List Char)) :
    ∀ {t'}, parentLoopFull dirname fuel t ls = some t' → t'.entries = parentLoop t.entries ls := by
  induction t, ls using parentLoopFull.induct dirname fuel with
  | case1 t rest h =>
    intro t' ht
    rw [parentLoopFull_eq, h] at ht
    cases ht
    rw [parentLoop_eq, h]
  | case2 t rest name rest' h ih =>
    intro t' ht
    rw [parentLoopFull_eq, h] at ht
    obtain ⟨x, hx, ht⟩ := Option.bind_eq_some.mp ht
    rw [ih x ht, FullTable.entries_insert, childLoopFull_fst _ _ hx, parentLoop_eq t.entries rest, h]

/-- With its aliases, `rarconfig_init` builds on every other property the
table of `rarconfigInit`: an alias line sets nothing else. -/
theorem rarconfigInitFull_entries {ht : Option FullTable} {cfg : Option (List Char)} {r : Option FullTable}
    (h : rarconfigInitFull dirname fuel ht cfg = some r) :
    r.map FullTable.entries = rarconfigInit (ht.map FullTable.entries) cfg := by
  match ht, cfg with
  | some t, _ => cases h; rfl
  | none, none => cases h; rfl
  | none, some text =>
    obtain ⟨t', ht', rfl⟩ := Option.map_eq_some'.mp h
    simp only [rarconfigInit, Option.map_none', Option.map_some', parentLoopFull_entries _ _ ht']
    rfl

end

/-! ## Aliases at run time -/

/-- A call of `rarconfig_setalias`, with the outcomes of the `realloc` and the
two `strdup`s of its `__set_alias`. -/
structure SetaliasCall where
  path : List Char
  file : List Char
  target : List Char
  reallocOk : Bool
  fileOk : Bool
  aliasOk : Bool

/-- Calls of `rarconfig_setalias`, one after the other. -/
def setaliasRun (ht : Option FullTable) (calls : List SetaliasCall) : Option FullTable :=
  calls.foldl (fun ht c => rarconfigSetalias ht c.path c.file c.target c.reallocOk c.fileOk c.aliasOk) ht

/-- The pair a call adds to the entry of `path`, if any. -/
def SetaliasCall.added (path : List Char) (c : SetaliasCall) : List AliasEntry :=
  if c.path = path ∧ (c.reallocOk && c.fileOk && c.aliasOk) then [⟨c.file, c.target⟩] else []

theorem setAlias_eq (aliases : List AliasEntry) (file target : List Char) (reallocOk fileOk aliasOk : Bool) :
    setAlias aliases file target reallocOk fileOk aliasOk =
      aliases ++ if reallocOk && fileOk && aliasOk then [⟨file, target⟩] else [] := by
  cases reallocOk <;> cases fileOk <;> cases aliasOk <;> simp [setAlias]

/-- A call adds its pair to the entry of its path, when it has one and the
allocations succeed, and changes nothing else. -/
theorem setalias_entry (ht : Option FullTable) (c : SetaliasCall) (path : List Char) :
    (rarconfigSetalias ht c.path c.file c.target c.reallocOk c.fileOk c.aliasOk).bind (· path) =
      (ht.bind (· path)).map fun x => (x.1, x.2 ++ c.added path) := by
  cases ht with
  | none => rfl
  | some t =>
    by_cases hp : path = c.path
    · subst hp
      cases t c.path <;> simp [rarconfigSetalias, SetaliasCall.added, setAlias_eq]
    · cases ht' : t path <;>
        simp [rarconfigSetalias, SetaliasCall.added, hp, ht', Ne.symm hp]

theorem setaliasRun_entry (path : List Char) :
    ∀ (calls : List SetaliasCall) (ht : Option FullTable),
      (setaliasRun ht calls).bind (· path) =
        (ht.bind (· path)).map fun x => (x.1, x.2 ++ calls.flatMap (SetaliasCall.added path))
  | [], ht => by simp [setaliasRun]
  | c :: cs, ht => by
    rw [setaliasRun, List.foldl_cons, ← setaliasRun, setaliasRun_entry path cs, setalias_entry]
    cases ht.bind (· path) <;> simp

/-- After any calls of `rarconfig_setalias`, with any outcomes of their
allocations, the alias `rarconfig_getalias` returns for a file is that of the
first pair of the file: the pairs the entry had, then those the calls that
succeeded on the entry's path set, in order. A later alias of a file never
replaces an earlier one. -/
theorem getalias_setalias_run (ht : Option FullTable) (path file : List Char) (calls : List SetaliasCall) :
    rarconfigGetalias (setaliasRun ht calls) path file =
      match ht.bind (· path) with
      | some (_, aliases) =>
        ((aliases ++ calls.flatMap (SetaliasCall.added path)).find? fun a => a.file = file).map AliasEntry.alias
      | none => none := by
  rw [rarconfigGetalias, setaliasRun_entry]
  cases ht.bind (· path) <;> rfl

end Rar2fs.Config
