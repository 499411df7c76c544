import Rar2fs.Recursion.Utf8

/-!
# Sanitizing member names (`sanitize_nested_path`)

`sanitize_nested_path` checks the length, the absolute prefixes and the UTF-8
encoding of its input, turns `\` into `/` and deletes every `..` that a
separator or the end follows, wherever it stands (`stripDotdotLoop`). So its
result is the normalized input with some ASCII bytes deleted
(`stripDotdotLoop_dropAscii`), and `sanitize_output_sublist` collects what
follows for every input: the result is not empty, not longer than 4096, has
no `\` and no NUL, is valid UTF-8 and does not start with the component `..`.

The checks look at the input, not at the result: deleting `..` can leave a
leading `/`, a drive prefix or a new `..` component, and it joins a
component ending in `..` to the next one.
-/

namespace Rar2fs.Recursion

/-- `MAX_NESTED_PATH_LENGTH` of `filecache.h`. -/
def MAX_NESTED_PATH_LENGTH : ℕ := 4096

/-- `is_absolute_path`: the path starts with `/` or `\`. -/
def isAbsolutePath : List UInt8 → Bool
  | [] => false
  | c :: _ => c == 0x2F || c == 0x5C

/-- `isalpha` of the C locale. -/
def isalpha (c : UInt8) : Bool := (0x41 ≤ c && c ≤ 0x5A) || (0x61 ≤ c && c ≤ 0x7A)

/-- `is_windows_absolute_path`: a letter, `:`, then `\` or `/`. -/
def isWindowsAbsolutePath (path : List UInt8) : Bool :=
  if path.length < 3 then false
  else isalpha (path.getD 0 0) && path.getD 1 0 == 0x3A && (path.getD 2 0 == 0x5C || path.getD 2 0 == 0x2F)

/-- The loop of `strip_dotdot_components`: at every byte, `..` followed by
`/`, `\` or the terminator is skipped with the separator after it; any other
byte is copied. -/
def stripDotdotLoop : List UInt8 → List UInt8
  | [] => []
  | [c] => [c]
  | [c, d] => if c = 0x2E ∧ d = 0x2E then [] else c :: stripDotdotLoop [d]
  | c :: d :: e :: tl =>
    if c = 0x2E ∧ d = 0x2E ∧ (e = 0x2F ∨ e = 0x5C) then stripDotdotLoop tl
    else c :: stripDotdotLoop (d :: e :: tl)

/-- `strip_dotdot_components`: the loop, then `NULL` when the result starts
with `..` followed by `/` or the terminator. -/
def stripDotdotComponents (path : List UInt8) (mallocOk : Bool) : Option (List UInt8) :=
  if !mallocOk then none
  else
    let result := stripDotdotLoop path
    if result.getD 0 0 = 0x2E ∧ result.getD 1 0 = 0x2E ∧ (result.getD 2 0 = 0x2F ∨ result.getD 2 0 = 0) then none
    else some result

/-- Rule 4 of `sanitize_nested_path`: every `\` becomes `/`. -/
def normalizeSlashes (path : List UInt8) : List UInt8 := path.map fun c => if c = 0x5C then 0x2F else c

/-- `sanitize_nested_path` on a non-`NULL` path: `strdupOk` and `mallocOk`
say whether its copy and the buffer of `strip_dotdot_components` are
allocated. -/
def sanitizeNestedPath (path : List UInt8) (strdupOk mallocOk : Bool) : Option (List UInt8) :=
  if path.length = 0 then none
  else if path.length > MAX_NESTED_PATH_LENGTH then none
  else if isAbsolutePath path then none
  else if isWindowsAbsolutePath path then none
  else if !isValidUtf8 path then none
  else if !strdupOk then none
  else
    match stripDotdotComponents (normalizeSlashes path) mallocOk with
    | none => none
    | some sanitized => if sanitized.getD 0 0 = 0 then none else some sanitized

/-! ## The loop deletes ASCII bytes -/

/-- `l'` is `l` with some ASCII bytes deleted. -/
inductive DropAscii : List UInt8 → List UInt8 → Prop
  | nil : DropAscii [] []
  | keep (x : UInt8) {l l' : List UInt8} : DropAscii l l' → DropAscii (x :: l) (x :: l')
  | drop {x : UInt8} {l l' : List UInt8} : x.toNat ≤ 0x7F → DropAscii l l' → DropAscii (x :: l) l'

theorem DropAscii.sublist {l l' : List UInt8} (h : DropAscii l l') : List.Sublist l' l := by
  induction h with
  | nil => exact .slnil
  | keep x _ ih => exact ih.cons₂ x
  | drop _ _ ih => exact ih.cons _

/-- Bytes that are not ASCII are never deleted. -/
theorem DropAscii.append_nonascii {rest l' : List UInt8} :
    ∀ {tl : List UInt8}, (∀ x ∈ tl, 0x7F < x.toNat) → DropAscii (tl ++ rest) l' →
      ∃ l'', l' = tl ++ l'' ∧ DropAscii rest l''
  | [], _, h => ⟨l', rfl, h⟩
  | x :: tl, hx, h => by
    cases h with
    | keep _ h =>
      obtain ⟨l'', rfl, hr⟩ := DropAscii.append_nonascii (fun y hy => hx y (List.mem_cons_of_mem _ hy)) h
      exact ⟨l'', rfl, hr⟩
    | drop hd _ => exact absurd (hx x (List.mem_cons_self _ _)) (by omega)

/-- Deleting ASCII bytes keeps a text well formed. -/
theorem DropAscii.rows {l l' : List UInt8} (hp : Rows codeTable l) (h : DropAscii l l') : Rows codeTable l' := by
  induction hp generalizing l' with
  | nil => cases h; exact .nil
  | @cons b r tl rest ht hf _ ih =>
    have hlo := (utf8Table_shape ht).2
    cases h with
    | keep _ h =>
      obtain ⟨l'', rfl, hr⟩ := DropAscii.append_nonascii (hf.nonascii hlo) h
      exact .cons ht hf (ih hr)
    | drop hb h =>
      obtain rfl := Fits.nil_of_ascii hb ht hf
      exact ih h

theorem stripDotdotLoop_dropAscii (l : List UInt8) : DropAscii l (stripDotdotLoop l) := by
  induction l using stripDotdotLoop.induct with
  | case1 => exact .nil
  | case2 c => exact .keep c .nil
  | case3 c d h =>
    rw [stripDotdotLoop, if_pos h, h.1, h.2]
    exact .drop (by decide) (.drop (by decide) .nil)
  | case4 c d h ih => rw [stripDotdotLoop, if_neg h]; exact .keep c ih
  | case5 c d e tl h ih =>
    rw [stripDotdotLoop, if_pos h]
    obtain ⟨rfl, rfl, he⟩ := h
    refine .drop (by decide) (.drop (by decide) (.drop ?_ ih))
    rcases he with rfl | rfl <;> decide
  | case6 c d e tl h ih => rw [stripDotdotLoop, if_neg h]; exact .keep c ih

/-! ## Normalizing the separators -/

theorem normalizeSlashes_rows {l : List UInt8} (hp : Rows codeTable l) : Rows codeTable (normalizeSlashes l) := by
  induction hp with
  | nil => exact .nil
  | @cons b r tl rest ht hf _ ih =>
    simp only [normalizeSlashes, List.map_cons, List.map_append] at ih ⊢
    by_cases hb : b.toNat ≤ 0x7F
    · obtain rfl := Fits.nil_of_ascii hb ht hf
      refine @Rows.cons _ _ _ [] _ (codeTable_ascii ?_) rfl ih
      split_ifs <;> [decide; exact hb]
    · have hc : b ≠ 0x5C := fun e => hb (by subst e; decide)
      have htl : tl.map (fun c => if c = 0x5C then 0x2F else c) = tl := by
        refine (List.map_congr_left fun x hx => if_neg fun e => ?_).trans (List.map_id tl)
        have := hf.nonascii (utf8Table_shape ht).2 x hx
        subst e; exact absurd this (by decide)
      rw [if_neg hc, htl]
      exact .cons ht hf ih

theorem not_mem_normalizeSlashes {l : List UInt8} : 0x5C ∉ normalizeSlashes l := by
  simp only [normalizeSlashes, List.mem_map, not_exists, not_and]
  intro c _
  split_ifs <;> first | decide | assumption

theorem zero_mem_normalizeSlashes {l : List UInt8} : 0 ∈ normalizeSlashes l ↔ 0 ∈ l := by
  simp only [normalizeSlashes, List.mem_map]
  constructor
  · rintro ⟨c, hc, e⟩
    split_ifs at e
    · exact absurd e (by decide)
    · exact e ▸ hc
  · exact fun h => ⟨0, h, if_neg (by decide)⟩

/-! ## What every result satisfies -/

theorem stripDotdotComponents_some {l s : List UInt8} {b : Bool} (h : stripDotdotComponents l b = some s) :
    s = stripDotdotLoop l ∧ ¬ (s.getD 0 0 = 0x2E ∧ s.getD 1 0 = 0x2E ∧ (s.getD 2 0 = 0x2F ∨ s.getD 2 0 = 0)) := by
  dsimp only [stripDotdotComponents] at h
  split_ifs at h with _ h2
  cases h
  exact ⟨rfl, h2⟩

theorem sanitizeNestedPath_some {p : List UInt8} {a b : Bool} {s : List UInt8}
    (h : sanitizeNestedPath p a b = some s) :
    p.length ≤ MAX_NESTED_PATH_LENGTH ∧ isValidUtf8 p = true ∧ s = stripDotdotLoop (normalizeSlashes p) ∧
      ¬ (s.getD 0 0 = 0x2E ∧ s.getD 1 0 = 0x2E ∧ (s.getD 2 0 = 0x2F ∨ s.getD 2 0 = 0)) ∧ s.getD 0 0 ≠ 0 := by
  simp only [sanitizeNestedPath, Option.ite_none_left_eq_some] at h
  obtain ⟨-, h2, -, -, h5, -, h⟩ := h
  split at h
  · cases h
  · rename_i r hr
    obtain ⟨h0, ⟨⟩⟩ := Option.ite_none_left_eq_some.mp h
    obtain ⟨rfl, hdd⟩ := stripDotdotComponents_some hr
    exact ⟨by omega, by simpa using h5, rfl, hdd, h0⟩

/-- What every result of `sanitize_nested_path` satisfies: it is the
normalized input with some bytes deleted, it is not empty, not longer than
`MAX_NESTED_PATH_LENGTH`, has no `\` and no NUL, is valid UTF-8, and does not
start with `../` and is not `..`. -/
theorem sanitize_output_sublist (p : CStr) (strdupOk mallocOk : Bool) (s : List UInt8)
    (h : sanitizeNestedPath p.bytes strdupOk mallocOk = some s) :
    List.Sublist s (normalizeSlashes p.bytes) ∧ s ≠ [] ∧ s.length ≤ MAX_NESTED_PATH_LENGTH ∧
      0x5C ∉ s ∧ 0 ∉ s ∧ isValidUtf8 s = true ∧
      ¬ (s.getD 0 0 = 0x2E ∧ s.getD 1 0 = 0x2E ∧ (s.getD 2 0 = 0x2F ∨ s.getD 2 0 = 0)) := by
  obtain ⟨hlen, hv, rfl, hdd, h0⟩ := sanitizeNestedPath_some h
  have hd := stripDotdotLoop_dropAscii (normalizeSlashes p.bytes)
  have hsub := hd.sublist
  refine ⟨hsub, fun e => h0 (by rw [e]; rfl), ?_, fun hm => not_mem_normalizeSlashes (hsub.subset hm),
    fun hm => p.nul_free (zero_mem_normalizeSlashes.mp (hsub.subset hm)), ?_, hdd⟩
  · calc _ ≤ (normalizeSlashes p.bytes).length := hsub.length_le
      _ ≤ MAX_NESTED_PATH_LENGTH := by rw [normalizeSlashes, List.length_map]; exact hlen
  · exact (isValidUtf8_iff _).mpr (hd.rows (normalizeSlashes_rows ((isValidUtf8_iff _).mp hv)))

/-- `a\..\b` becomes `a/b`. -/
theorem sanitize_backslash_dotdot :
    sanitizeNestedPath (lit "a\\..\\b") true true = some (lit "a/b") ∧
      (List.Sublist (lit "a/b") (normalizeSlashes (lit "a\\..\\b")) ∧ lit "a/b" ≠ [] ∧
        (lit "a/b").length ≤ MAX_NESTED_PATH_LENGTH ∧ 0x5C ∉ lit "a/b" ∧ 0 ∉ lit "a/b" ∧
        isValidUtf8 (lit "a/b") = true ∧
        ¬ ((lit "a/b").getD 0 0 = 0x2E ∧ (lit "a/b").getD 1 0 = 0x2E ∧
          ((lit "a/b").getD 2 0 = 0x2F ∨ (lit "a/b").getD 2 0 = 0))) := by
  have h : sanitizeNestedPath (lit "a\\..\\b") true true = some (lit "a/b") := by
    rw [sanitizeNestedPath, isValidUtf8_ascii] <;> decide
  exact ⟨h, sanitize_output_sublist ⟨lit "a\\..\\b", by decide⟩ true true _ h⟩

/-! ## What the checks miss

Rules 1 and 2 and the test for a leading `..` look at the input before the
`..` are deleted. -/

/-- Deleting `..` leaves a leading `/`, a `..` component and a drive prefix. -/
theorem sanitize_dotdot_escapes :
    sanitizeNestedPath (lit "..//etc/passwd") true true = some (lit "/etc/passwd") ∧
      sanitizeNestedPath (lit "x/....//y") true true = some (lit "x/../y") ∧
      sanitizeNestedPath (lit "../C:/x") true true = some (lit "C:/x") := by
  refine ⟨?_, ?_, ?_⟩ <;> rw [sanitizeNestedPath, isValidUtf8_ascii] <;> decide

/-- A `..` that ends a component is deleted with the separator after it. -/
theorem sanitize_joins_components :
    sanitizeNestedPath (lit "foo../bar") true true = some (lit "foobar") := by
  rw [sanitizeNestedPath, isValidUtf8_ascii] <;> decide

/-- A result can be one that `sanitize_nested_path` refuses. -/
theorem sanitize_not_idempotent :
    sanitizeNestedPath (lit "..//etc") true true = some (lit "/etc") ∧
      sanitizeNestedPath (lit "/etc") true true = none := by
  refine ⟨?_, by decide⟩
  rw [sanitizeNestedPath, isValidUtf8_ascii] <;> decide

end Rar2fs.Recursion
