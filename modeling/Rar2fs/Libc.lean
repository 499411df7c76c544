import Mathlib

/-!
# What the modelled code uses of the C library

A C string is the list of its bytes before the terminating NUL (`CStr`); the
functions of `recursion.c` and `dirlist.c` read it up to the terminator, so
pattern matching on the list reads what they read. `strcmp` compares two
strings byte by byte as `unsigned char` and returns the difference at the
first byte where they differ, the terminator counting as `0`: its sign is the
lexicographic order of the byte values (`strcmp_neg_iff`, `strcmp_eq_zero_iff`).

An allocation (`malloc`, `realloc`, `strdup`) that may fail is a `Bool`
argument of the function that makes it: `true` when it succeeds.
-/

namespace Rar2fs

/-- A NUL-terminated byte string: the bytes before the terminator. -/
@[ext] structure CStr where
  bytes : List UInt8
  nul_free : 0 ∉ bytes
  deriving DecidableEq

/-- The bytes of a C string literal of ASCII characters. -/
def lit (s : String) : List UInt8 := s.toList.map fun c => c.toNat.toUInt8

/-- `errno` values of Linux, which the modelled functions return negated. -/
def ENOMEM : Int := 12
def EINVAL : Int := 22
def EFBIG : Int := 27
def ELOOP : Int := 40

/-- `strcmp(a, b)`. -/
def strcmp : List UInt8 → List UInt8 → Int
  | [], [] => 0
  | [], b :: _ => -(b.toNat : Int)
  | a :: _, [] => a.toNat
  | a :: as, b :: bs => if a = b then strcmp as bs else (a.toNat : Int) - b.toNat

/-- The byte values of a string, ordered lexicographically. -/
def byteKey (s : List UInt8) : List ℕ := s.map UInt8.toNat

theorem byteKey_injective : Function.Injective byteKey :=
  List.map_injective_iff.mpr fun _ _ h => UInt8.toNat.inj h

theorem lex_cons_cons_iff {a b : ℕ} {l m : List ℕ} :
    a :: l < b :: m ↔ a < b ∨ a = b ∧ l < m := by
  constructor
  · rintro (_ | h | h)
    · exact .inr ⟨rfl, h⟩
    · exact .inl h
  · rintro (h | ⟨rfl, h⟩)
    · exact .rel h
    · exact .cons h

theorem toNat_ne_zero {b : UInt8} {l : List UInt8} (hb : b ∈ l) (h : 0 ∉ l) : b.toNat ≠ 0 :=
  fun e => h (UInt8.toNat.inj (e.trans UInt8.toNat_zero.symm) ▸ hb)

theorem strcmp_eq_zero_iff {a b : List UInt8} (ha : 0 ∉ a) (hb : 0 ∉ b) :
    strcmp a b = 0 ↔ a = b := by
  induction a generalizing b with
  | nil =>
    cases b with
    | nil => simp [strcmp]
    | cons y ys =>
      have := toNat_ne_zero (List.mem_cons_self _ _) hb
      simp only [strcmp, reduceCtorEq, iff_false]
      omega
  | cons x xs ih =>
    cases b with
    | nil =>
      have := toNat_ne_zero (List.mem_cons_self _ _) ha
      simp only [strcmp, reduceCtorEq, iff_false]
      omega
    | cons y ys =>
      simp only [List.mem_cons, not_or] at ha hb
      by_cases h : x = y
      · simp [strcmp, h, ih ha.2 hb.2]
      · have : x.toNat ≠ y.toNat := fun e => h (UInt8.toNat.inj e)
        simp only [strcmp, h, if_false, List.cons.injEq, false_and, iff_false]
        omega

theorem strcmp_neg_iff {a b : List UInt8} (ha : 0 ∉ a) (hb : 0 ∉ b) :
    strcmp a b < 0 ↔ byteKey a < byteKey b := by
  induction a generalizing b with
  | nil =>
    cases b with
    | nil => exact ⟨fun h => absurd h (by simp [strcmp]), fun h => absurd h (List.Lex.not_nil_right _ _)⟩
    | cons y ys =>
      have := toNat_ne_zero (List.mem_cons_self _ _) hb
      exact ⟨fun _ => List.nil_lt_cons _ _, fun _ => by simp only [strcmp]; omega⟩
  | cons x xs ih =>
    cases b with
    | nil =>
      exact ⟨fun h => absurd h (by simp only [strcmp]; omega), fun h => absurd h (List.Lex.not_nil_right _ _)⟩
    | cons y ys =>
      simp only [List.mem_cons, not_or] at ha hb
      simp only [strcmp, byteKey, List.map_cons, lex_cons_cons_iff]
      by_cases h : x = y
      · simp only [h, if_true, lt_self_iff_false, true_and, false_or]
        exact ih ha.2 hb.2
      · have : x.toNat ≠ y.toNat := fun e => h (UInt8.toNat.inj e)
        simp only [h, if_false, this, false_and, or_false]
        omega

theorem strcmp_antisymm : ∀ a b : List UInt8, strcmp a b = -strcmp b a
  | [], [] => rfl
  | [], _ :: _ => by simp [strcmp]
  | _ :: _, [] => by simp [strcmp]
  | x :: xs, y :: ys => by
    by_cases h : x = y
    · simp only [strcmp, h, if_true]; exact strcmp_antisymm xs ys
    · simp only [strcmp, h, Ne.symm h, if_false]; omega

theorem strcmp_pos_iff {a b : List UInt8} (ha : 0 ∉ a) (hb : 0 ∉ b) :
    0 < strcmp a b ↔ byteKey b < byteKey a := by
  rw [strcmp_antisymm, ← strcmp_neg_iff hb ha]
  omega

end Rar2fs
