import Rar2fs.Libc

/-!
# UTF-8 validation (`is_valid_utf8`)

The reference is Table 3-7 of the Unicode Standard, the well-formed byte
sequences of RFC 3629 §4, written as a table from a lead byte to the number of
continuation bytes after it and the range of the first of them (`utf8Table`,
`table37`); a text is well formed when it is a sequence of rows (`Rows`).

`is_valid_utf8` accepts exactly the rows of the same table with the second
byte after `0xED` and after `0xF4` widened to `0x80..0xBF`
(`isValidUtf8_iff`): it admits the surrogates `U+D800..U+DFFF`, for which it
has no test, and the code points `U+110000..U+13FFFF`, which its test
`*bytes > 0xF4` was meant to refuse but does not, as they start with `0xF4`.
Away from the second of these, it accepts exactly the well-formed texts with
surrogates admitted (`utf8_valid_iff_surrogates`).
-/

namespace Rar2fs.Recursion

/-- The body of `is_valid_utf8`'s loop at lead byte `b`, with `c`, `d`, `e`
the three bytes after it: how many continuation bytes the character has, or
`none` where the function returns false. -/
def utf8Char (b c d e : UInt8) : Option ℕ :=
  if b &&& 0x80 = 0 then some 0
  else if b &&& 0xE0 = 0xC0 then
    if c &&& 0xC0 ≠ 0x80 then none
    else if b &&& 0xFE = 0xC0 then none
    else some 1
  else if b &&& 0xF0 = 0xE0 then
    if c &&& 0xC0 ≠ 0x80 ∨ d &&& 0xC0 ≠ 0x80 then none
    else if b = 0xE0 ∧ c &&& 0xE0 = 0x80 then none
    else some 2
  else if b &&& 0xF8 = 0xF0 then
    if c &&& 0xC0 ≠ 0x80 ∨ d &&& 0xC0 ≠ 0x80 ∨ e &&& 0xC0 ≠ 0x80 then none
    else if b = 0xF0 ∧ c &&& 0xF0 = 0x80 then none
    else if b > 0xF4 then none
    else some 3
  else none

/-- `is_valid_utf8`, over the bytes before the terminator: `bytes[1..3]` past
the end read the terminator, `0`, which fails every test of a continuation
byte, as `||` stops at the first. -/
def isValidUtf8 (l : List UInt8) : Bool :=
  match l with
  | [] => true
  | b :: rest =>
    match utf8Char b (rest.getD 0 0) (rest.getD 1 0) (rest.getD 2 0) with
    | none => false
    | some k => isValidUtf8 (rest.drop k)
termination_by l.length
decreasing_by simp only [List.length_drop, List.length_cons]; omega

/-! ## The reference -/

/-- A row of a table of well-formed sequences: the number of continuation
bytes after the lead byte, and the range of the first of them. -/
structure Row where
  tails : ℕ
  lo : ℕ
  hi : ℕ
deriving DecidableEq

/-- Table 3-7, with the greatest second byte after `0xED` and after `0xF4` as
parameters: `0x9F` and `0x8F` in the standard, which exclude the surrogates
and the code points above `U+10FFFF`. -/
def utf8Table (edHi f4Hi : ℕ) (b : ℕ) : Option Row :=
  if b ≤ 0x7F then some ⟨0, 0x80, 0xBF⟩
  else if 0xC2 ≤ b ∧ b ≤ 0xDF then some ⟨1, 0x80, 0xBF⟩
  else if b = 0xE0 then some ⟨2, 0xA0, 0xBF⟩
  else if 0xE1 ≤ b ∧ b ≤ 0xEC then some ⟨2, 0x80, 0xBF⟩
  else if b = 0xED then some ⟨2, 0x80, edHi⟩
  else if 0xEE ≤ b ∧ b ≤ 0xEF then some ⟨2, 0x80, 0xBF⟩
  else if b = 0xF0 then some ⟨3, 0x90, 0xBF⟩
  else if 0xF1 ≤ b ∧ b ≤ 0xF3 then some ⟨3, 0x80, 0xBF⟩
  else if b = 0xF4 then some ⟨3, 0x80, f4Hi⟩
  else none

/-- Table 3-7 of the Unicode Standard. -/
def table37 : ℕ → Option Row := utf8Table 0x9F 0x8F

/-- Table 3-7 with the surrogates admitted. -/
def surrogateTable : ℕ → Option Row := utf8Table 0xBF 0x8F

/-- What `is_valid_utf8` accepts. -/
def codeTable : ℕ → Option Row := utf8Table 0xBF 0xBF

/-- `0x80..0xBF`. -/
def IsCont (c : UInt8) : Prop := 0x80 ≤ c.toNat ∧ c.toNat ≤ 0xBF

instance : DecidablePred IsCont := fun c => inferInstanceAs (Decidable (0x80 ≤ c.toNat ∧ c.toNat ≤ 0xBF))

/-- The continuation bytes of row `r`. -/
def Fits (r : Row) : List UInt8 → Prop
  | [] => r.tails = 0
  | c :: cs => cs.length + 1 = r.tails ∧ r.lo ≤ c.toNat ∧ c.toNat ≤ r.hi ∧ ∀ d ∈ cs, IsCont d

instance : (r : Row) → (tl : List UInt8) → Decidable (Fits r tl)
  | r, [] => inferInstanceAs (Decidable (r.tails = 0))
  | _, _ :: cs => inferInstanceAs (Decidable (_ ∧ _ ∧ _ ∧ ∀ d ∈ cs, IsCont d))

/-- A sequence of rows of table `t`. -/
inductive Rows (t : ℕ → Option Row) : List UInt8 → Prop
  | nil : Rows t []
  | cons {b : UInt8} {r : Row} {tl rest : List UInt8} :
      t b.toNat = some r → Fits r tl → Rows t rest → Rows t (b :: (tl ++ rest))

/-! ## The bit tests as ranges -/

/-- Masking a byte with its high `8 - k` bits rounds it down to a multiple
of `2 ^ k`. -/
theorem land_high_bits (n k : ℕ) (hn : n < 256) (hk : k ≤ 8) : n &&& (256 - 2 ^ k) = n / 2 ^ k * 2 ^ k := by
  have hm : 256 - 2 ^ k = 2 ^ k * (2 ^ (8 - k) - 1) := by
    rw [Nat.mul_sub, ← pow_add, Nat.add_sub_cancel' hk, mul_one]; rfl
  apply Nat.eq_of_testBit_eq
  intro i
  rw [hm, Nat.testBit_land, mul_comm (n / 2 ^ k), Nat.testBit_mul_pow_two, Nat.testBit_mul_pow_two,
    ← Nat.shiftRight_eq_div_pow, Nat.testBit_shiftRight, Nat.testBit_two_pow_sub_one]
  by_cases hi : k ≤ i
  · have h8 : i < 8 ∨ n.testBit i = false := by
      by_cases h : i < 8
      · exact .inl h
      · have h256 : 2 ^ 8 ≤ 2 ^ i := Nat.pow_le_pow_right (by norm_num) (by omega)
        exact .inr (Nat.testBit_eq_false_of_lt (hn.trans_le h256))
    rcases h8 with h8 | h8 <;> simp [hi, Nat.add_sub_cancel' hi, h8]
    omega
  · simp [hi]

/-- A test of the high bits of a byte, as a range of the byte's value. -/
theorem and_eq_iff {m v : UInt8} (k : ℕ) (hm : m.toNat = 256 - 2 ^ k) (hk : k ≤ 8) (P : ℕ → Prop)
    (h : ∀ n < 256, n / 2 ^ k * 2 ^ k = v.toNat ↔ P n) (b : UInt8) : b &&& m = v ↔ P b.toNat := by
  rw [← h _ b.toNat_lt_size, ← land_high_bits _ k b.toNat_lt_size hk, ← hm, ← UInt8.and_toNat]
  exact ⟨congrArg _, UInt8.toNat.inj⟩

theorem and80 : ∀ b : UInt8, b &&& 0x80 = 0 ↔ b.toNat ≤ 0x7F :=
  and_eq_iff (m := 0x80) (v := 0) 7 rfl (by norm_num) (· ≤ 0x7F)
    fun _ _ => show _ = 0 ↔ _ by omega

theorem andE0 : ∀ b : UInt8, b &&& 0xE0 = 0xC0 ↔ 0xC0 ≤ b.toNat ∧ b.toNat ≤ 0xDF :=
  and_eq_iff (m := 0xE0) (v := 0xC0) 5 rfl (by norm_num) (fun n => 0xC0 ≤ n ∧ n ≤ 0xDF)
    fun _ _ => show _ = 0xC0 ↔ _ by omega

theorem andFE : ∀ b : UInt8, b &&& 0xFE = 0xC0 ↔ 0xC0 ≤ b.toNat ∧ b.toNat ≤ 0xC1 :=
  and_eq_iff (m := 0xFE) (v := 0xC0) 1 rfl (by norm_num) (fun n => 0xC0 ≤ n ∧ n ≤ 0xC1)
    fun _ _ => show _ = 0xC0 ↔ _ by omega

theorem andF0 : ∀ b : UInt8, b &&& 0xF0 = 0xE0 ↔ 0xE0 ≤ b.toNat ∧ b.toNat ≤ 0xEF :=
  and_eq_iff (m := 0xF0) (v := 0xE0) 4 rfl (by norm_num) (fun n => 0xE0 ≤ n ∧ n ≤ 0xEF)
    fun _ _ => show _ = 0xE0 ↔ _ by omega

theorem andF8 : ∀ b : UInt8, b &&& 0xF8 = 0xF0 ↔ 0xF0 ≤ b.toNat ∧ b.toNat ≤ 0xF7 :=
  and_eq_iff (m := 0xF8) (v := 0xF0) 3 rfl (by norm_num) (fun n => 0xF0 ≤ n ∧ n ≤ 0xF7)
    fun _ _ => show _ = 0xF0 ↔ _ by omega

theorem andC0 : ∀ c : UInt8, c &&& 0xC0 = 0x80 ↔ 0x80 ≤ c.toNat ∧ c.toNat ≤ 0xBF :=
  and_eq_iff (m := 0xC0) (v := 0x80) 6 rfl (by norm_num) (fun n => 0x80 ≤ n ∧ n ≤ 0xBF)
    fun _ _ => show _ = 0x80 ↔ _ by omega

theorem andE0_80 : ∀ c : UInt8, c &&& 0xE0 = 0x80 ↔ 0x80 ≤ c.toNat ∧ c.toNat ≤ 0x9F :=
  and_eq_iff (m := 0xE0) (v := 0x80) 5 rfl (by norm_num) (fun n => 0x80 ≤ n ∧ n ≤ 0x9F)
    fun _ _ => show _ = 0x80 ↔ _ by omega

theorem andF0_80 : ∀ c : UInt8, c &&& 0xF0 = 0x80 ↔ 0x80 ≤ c.toNat ∧ c.toNat ≤ 0x8F :=
  and_eq_iff (m := 0xF0) (v := 0x80) 4 rfl (by norm_num) (fun n => 0x80 ≤ n ∧ n ≤ 0x8F)
    fun _ _ => show _ = 0x80 ↔ _ by omega

theorem eq_E0 (b : UInt8) : b = 0xE0 ↔ b.toNat = 0xE0 := ⟨fun e => e ▸ rfl, fun e => UInt8.toNat.inj e⟩

theorem eq_F0 (b : UInt8) : b = 0xF0 ↔ b.toNat = 0xF0 := ⟨fun e => e ▸ rfl, fun e => UInt8.toNat.inj e⟩

theorem gt_F4 (b : UInt8) : b > 0xF4 ↔ b.toNat > 0xF4 := Iff.rfl

/-! ## The loop body is a table lookup -/

/-- What row `r` asks of the three bytes after its lead byte. -/
def Row.Check (r : Row) (c d e : UInt8) : Prop :=
  r.tails = 0 ∨ (r.tails = 1 ∧ r.lo ≤ c.toNat ∧ c.toNat ≤ r.hi) ∨
    (r.tails = 2 ∧ r.lo ≤ c.toNat ∧ c.toNat ≤ r.hi ∧ IsCont d) ∨
    (r.tails = 3 ∧ r.lo ≤ c.toNat ∧ c.toNat ≤ r.hi ∧ IsCont d ∧ IsCont e)

instance (r : Row) (c d e : UInt8) : Decidable (r.Check c d e) :=
  inferInstanceAs (Decidable (_ ∨ _))

/-- The row of a lead byte, checked against the three bytes after it. -/
def rowCheck : Option Row → UInt8 → UInt8 → UInt8 → Option ℕ
  | none, _, _, _ => none
  | some r, c, d, e => if r.Check c d e then some r.tails else none

theorem byte_classes (n : ℕ) :
    n ≤ 0x7F ∨ (0x80 ≤ n ∧ n ≤ 0xC1) ∨ (0xC2 ≤ n ∧ n ≤ 0xDF) ∨ n = 0xE0 ∨ (0xE1 ≤ n ∧ n ≤ 0xEF) ∨
      n = 0xF0 ∨ (0xF1 ≤ n ∧ n ≤ 0xF4) ∨ 0xF5 ≤ n := by omega

/-- The loop body checks the row of `codeTable` of its lead byte. -/
theorem utf8Char_eq (b c d e : UInt8) : utf8Char b c d e = rowCheck (codeTable b.toNat) c d e := by
  have hb := b.toNat_lt_size
  simp only [utf8Char, and80, andE0, andF0, andF8, andFE, andC0, andE0_80, andF0_80, eq_E0 b, eq_F0 b,
    gt_F4, codeTable, utf8Table, ne_eq]
  rcases byte_classes b.toNat with h | h | h | h | h | h | h | h <;>
    simp (disch := omega) only [if_pos, if_neg, ite_self, rowCheck, Row.Check, IsCont, false_or, true_and,
      true_or, or_false, false_and, and_false] <;>
    split_ifs <;> first | rfl | omega | (simp only [false_or] at *; omega)

/-! ## Rows of a table -/

/-- Every row of `utf8Table` has at most three continuation bytes, and the
first of them is not the terminator. -/
theorem utf8Table_shape {x y n : ℕ} {r : Row} (h : utf8Table x y n = some r) :
    r.tails ≤ 3 ∧ 0x80 ≤ r.lo := by
  unfold utf8Table at h
  repeat
    rcases ite_eq_iff.mp h with ⟨-, h⟩ | ⟨-, h⟩
    · cases h; exact ⟨by dsimp only; omega, by dsimp only; omega⟩
  cases h

theorem Fits.length {r : Row} {tl : List UInt8} (h : Fits r tl) : tl.length = r.tails := by
  cases tl with
  | nil => exact h.symm
  | cons c cs => exact h.1

/-- The row check on the bytes after a lead byte, in the list. -/
theorem rowCheck_getD {r : Row} (h3 : r.tails ≤ 3) (hlo : 0x80 ≤ r.lo) (rest : List UInt8) (k : ℕ) :
    rowCheck (some r) (rest.getD 0 0) (rest.getD 1 0) (rest.getD 2 0) = some k ↔
      k = r.tails ∧ r.tails ≤ rest.length ∧ Fits r (rest.take r.tails) := by
  obtain ⟨t, lo, hi⟩ := r
  simp only at h3 hlo ⊢
  simp only [rowCheck, Row.Check]
  rcases (by omega : t = 0 ∨ t = 1 ∨ t = 2 ∨ t = 3) with rfl | rfl | rfl | rfl <;>
    rcases rest with _ | ⟨c, _ | ⟨d, _ | ⟨e, rest⟩⟩⟩ <;>
    simp only [Option.ite_none_right_eq_some, Option.some.injEq, List.getD_cons_zero, List.getD_cons_succ,
      List.getD_nil, Fits, IsCont, List.take_succ_cons, List.take_zero, List.take_nil, List.length_cons,
      List.length_nil, List.not_mem_nil, List.mem_cons, forall_eq_or_imp, UInt8.toNat_zero, true_or, true_and,
      and_true, false_implies, implies_true] <;>
    omega

theorem rows_cons_iff {t : ℕ → Option Row} {b : UInt8} {rest : List UInt8} :
    Rows t (b :: rest) ↔
      ∃ r, t b.toNat = some r ∧ r.tails ≤ rest.length ∧ Fits r (rest.take r.tails) ∧
        Rows t (rest.drop r.tails) := by
  constructor
  · rintro (_ | ⟨ht, hf, hr⟩)
    refine ⟨_, ht, ?_⟩
    rw [← hf.length]
    simpa using ⟨hf, hr⟩
  · rintro ⟨r, ht, hl, hf, hr⟩
    have := Rows.cons ht hf hr
    rwa [List.take_append_drop] at this

theorem isValidUtf8_cons (b : UInt8) (rest : List UInt8) :
    isValidUtf8 (b :: rest) = true ↔
      ∃ r, codeTable b.toNat = some r ∧ r.tails ≤ rest.length ∧ Fits r (rest.take r.tails) ∧
        isValidUtf8 (rest.drop r.tails) = true := by
  rw [isValidUtf8, utf8Char_eq]
  cases hc : codeTable b.toNat with
  | none => simp [rowCheck]
  | some r =>
    obtain ⟨h3, hlo⟩ := utf8Table_shape hc
    split
    · rename_i hn
      simp only [Bool.false_eq_true, false_iff, not_exists, not_and, Option.some.injEq]
      rintro _ rfl hl hf
      have := (rowCheck_getD h3 hlo rest r.tails).mpr ⟨rfl, hl, hf⟩
      rw [hn] at this; cases this
    · rename_i k hk
      obtain ⟨rfl, hl, hf⟩ := (rowCheck_getD h3 hlo rest k).mp hk
      simp [hl, hf]

/-- `is_valid_utf8` accepts exactly the sequences of rows of `codeTable`. -/
theorem isValidUtf8_iff (p : List UInt8) : isValidUtf8 p = true ↔ Rows codeTable p := by
  induction' h : p.length using Nat.strong_induction_on with n ih generalizing p
  cases p with
  | nil => simp [isValidUtf8, Rows.nil]
  | cons b rest =>
    rw [isValidUtf8_cons, rows_cons_iff]
    refine exists_congr fun r => and_congr_right fun _ => and_congr_right fun _ =>
      and_congr_right fun _ => ih _ ?_ _ rfl
    simp only [List.length_drop, List.length_cons] at h ⊢
    omega

/-! ## ASCII bytes

An ASCII byte is a row of its own, and no byte of a longer row is ASCII: so
deleting or replacing ASCII bytes keeps a text well formed. -/

theorem codeTable_ascii {b : UInt8} (h : b.toNat ≤ 0x7F) : codeTable b.toNat = some ⟨0, 0x80, 0xBF⟩ := by
  simp [codeTable, utf8Table, h]

theorem Fits.nonascii {r : Row} (hlo : 0x80 ≤ r.lo) : ∀ {tl : List UInt8}, Fits r tl → ∀ x ∈ tl, 0x7F < x.toNat
  | [], _ => by simp
  | _ :: _, ⟨_, h1, _, h3⟩ => by
    simp only [List.mem_cons, forall_eq_or_imp]
    exact ⟨by omega, fun x hx => by have := (h3 x hx).1; omega⟩

/-- The row of an ASCII lead byte has no continuation byte. -/
theorem Fits.nil_of_ascii {b : UInt8} {r : Row} {tl : List UInt8} (h : b.toNat ≤ 0x7F)
    (ht : codeTable b.toNat = some r) (hf : Fits r tl) : tl = [] := by
  rw [codeTable_ascii h, Option.some.injEq] at ht
  subst ht
  exact List.eq_nil_of_length_eq_zero hf.length

theorem rows_ascii : ∀ {l : List UInt8}, (∀ b ∈ l, b.toNat ≤ 0x7F) → Rows codeTable l
  | [], _ => .nil
  | _ :: _, h => @Rows.cons _ _ _ [] _ (codeTable_ascii (h _ (List.mem_cons_self _ _))) rfl
      (rows_ascii fun b hb => h b (List.mem_cons_of_mem _ hb))

theorem isValidUtf8_ascii (l : List UInt8) (h : ∀ b ∈ l, b.toNat ≤ 0x7F) : isValidUtf8 l = true :=
  (isValidUtf8_iff l).mpr (rows_ascii h)

/-! ## Against Table 3-7 -/

theorem Fits.widen {r r' : Row} (ht : r.tails = r'.tails) (hlo : r'.lo ≤ r.lo) (hhi : r.hi ≤ r'.hi) :
    ∀ {tl : List UInt8}, Fits r tl → Fits r' tl
  | [], h => by simp only [Fits] at h ⊢; omega
  | _ :: _, ⟨hl, h1, h2, h3⟩ => ⟨by omega, by omega, by omega, h3⟩

/-- The rows of a table are rows of any table whose rows are at least as wide. -/
theorem Rows.mono {t t' : ℕ → Option Row}
    (h : ∀ n r, t n = some r → ∃ r', t' n = some r' ∧ ∀ tl, Fits r tl → Fits r' tl)
    {p : List UInt8} (hp : Rows t p) : Rows t' p := by
  induction hp with
  | nil => exact .nil
  | cons ht hf _ ih =>
    obtain ⟨r', ht', hf'⟩ := h _ _ ht
    exact .cons ht' (hf' _ hf) ih

/-- The two parameters of `utf8Table` are the rows of `0xED` and `0xF4`. -/
theorem utf8Table_eq (x y n : ℕ) :
    utf8Table x y n =
      if n = 0xED then some ⟨2, 0x80, x⟩ else if n = 0xF4 then some ⟨3, 0x80, y⟩ else utf8Table 0 0 n := by
  unfold utf8Table
  by_cases hE : n = 0xED
  · subst hE; rfl
  by_cases hF : n = 0xF4
  · subst hF; rfl
  simp only [hE, hF, if_false]

theorem utf8Table_mono {x y x' y' : ℕ} (hx : x ≤ x') (hy : y ≤ y') (n : ℕ) (r : Row)
    (h : utf8Table x y n = some r) : ∃ r', utf8Table x' y' n = some r' ∧ ∀ tl, Fits r tl → Fits r' tl := by
  rw [utf8Table_eq] at h ⊢
  split_ifs at h ⊢
  · cases h; exact ⟨_, rfl, fun _ => @Fits.widen ⟨2, 0x80, x⟩ ⟨2, 0x80, x'⟩ rfl le_rfl hx _⟩
  · cases h; exact ⟨_, rfl, fun _ => @Fits.widen ⟨3, 0x80, y⟩ ⟨3, 0x80, y'⟩ rfl le_rfl hy _⟩
  · exact ⟨r, h, fun _ => id⟩

/-- The table of the code differs from the one with surrogates only after `0xF4`. -/
theorem surrogateTable_eq (n : ℕ) :
    surrogateTable n = if n = 0xF4 then some ⟨3, 0x80, 0x8F⟩ else codeTable n := by
  unfold surrogateTable codeTable
  rw [utf8Table_eq, utf8Table_eq 0xBF]
  split_ifs <;> first | rfl | omega

/-- No `0xF4` is followed by a byte of `0x90..0xFF`: no four-byte sequence of a
code point above `U+10FFFF`. -/
def NoF4High (p : List UInt8) : Prop := p.Chain' fun a c => a = 0xF4 → c.toNat < 0x90

/-- Away from `0xF4 0x90..`, a sequence of rows of `codeTable` is one of Table
3-7 with surrogates admitted. -/
theorem rows_surrogate_of_code {p : List UInt8} (hp : Rows codeTable p) (hn : NoF4High p) :
    Rows surrogateTable p := by
  induction hp with
  | nil => exact .nil
  | @cons b r tl rest ht hf _ ih =>
    refine @Rows.cons _ b (if b.toNat = 0xF4 then ⟨3, 0x80, 0x8F⟩ else r) tl rest ?_ ?_
      (ih (List.Chain'.right_of_append (show List.Chain' _ ((b :: tl) ++ rest) from hn)))
    · rw [surrogateTable_eq]; split_ifs <;> simp_all
    · split_ifs with h4
      · have hr : r = ⟨3, 0x80, 0xBF⟩ := by
          simpa [codeTable, utf8Table, h4] using ht.symm
        subst hr
        obtain ⟨c, cs, rfl⟩ := List.exists_cons_of_length_eq_add_one hf.length
        have hc4 : c.toNat < 0x90 := (List.chain'_cons'.mp hn).1 c rfl (UInt8.toNat.inj h4)
        exact ⟨hf.1, hf.2.1, by simp only; omega, hf.2.2.2⟩
      · exact hf

/-- Away from the four-byte sequences `0xF4 0x90..0xBF`, which it accepts
although they encode code points above `U+10FFFF`, `is_valid_utf8` accepts
exactly the well-formed sequences of Table 3-7 with the surrogates
`U+D800..U+DFFF` admitted. -/
theorem utf8_valid_iff_surrogates (p : CStr) (hn : NoF4High p.bytes) :
    isValidUtf8 p.bytes = true ↔ Rows surrogateTable p.bytes := by
  rw [isValidUtf8_iff]
  exact ⟨fun h => rows_surrogate_of_code h hn,
    Rows.mono (utf8Table_mono le_rfl (by decide))⟩

theorem utf8_surrogate_accepted :
    NoF4High [0xED, 0xA0, 0x80] ∧
      (isValidUtf8 [0xED, 0xA0, 0x80] = true ↔ Rows surrogateTable [0xED, 0xA0, 0x80]) :=
  ⟨by simp [NoF4High], utf8_valid_iff_surrogates ⟨[0xED, 0xA0, 0x80], by decide⟩ (by simp [NoF4High])⟩

/-- `is_valid_utf8` accepts the encoded surrogate `U+D800`, which Table 3-7 does not. -/
theorem isValidUtf8_surrogate_not_table37 :
    isValidUtf8 [0xED, 0xA0, 0x80] = true ∧ ¬ Rows table37 [0xED, 0xA0, 0x80] := by
  refine ⟨by simp +decide [isValidUtf8, utf8Char], fun h => ?_⟩
  obtain ⟨r, ht, -, hf, -⟩ := rows_cons_iff.mp h
  obtain rfl : r = ⟨2, 0x80, 0x9F⟩ := Option.some.inj (ht.symm.trans (by decide))
  exact absurd hf.2.2.1 (by decide)

/-- The slip in the test of values above `U+10FFFF`: `U+110000` is accepted. -/
example : isValidUtf8 [0xF4, 0x90, 0x80, 0x80] = true := by
  simp +decide [isValidUtf8, utf8Char]

end Rar2fs.Recursion
