import Rar2fs.Recursion.Stack

/-!
# The cumulative size limit

`check_unpack_size_limit` tests `total > max - size` before it adds: with
`0 ≤ total ≤ max < 2⁶³` (`Totals`) and a size of `off_t`, neither `max - size`
nor `total + size` leaves the 64-bit range (`checkSize_no_overflow`), so the
C arithmetic is the exact one the model computes, and the test accepts
exactly the sizes that keep the total within the limit (`checkSize_ret`).
The other functions leave the totals alone, so `Totals` holds after every
sequence of calls from `recursion_context_init` (`totals_run`,
`unpack_size_exact`).
-/

namespace Rar2fs.Recursion

/-- `x` is a value of `off_t`. -/
def InOffT (x : Int) : Prop := -2 ^ 63 ≤ x ∧ x < 2 ^ 63

/-- The totals of a context: `0 ≤ total_unpacked_size ≤ max_unpacked_size < 2⁶³`
and `max_unpacked_size ≥ 1`. -/
structure Totals (ctx : RecursionContext) : Prop where
  total_nonneg : 0 ≤ ctx.totalUnpackedSize
  total_le : ctx.totalUnpackedSize ≤ ctx.maxUnpackedSize
  max_pos : 1 ≤ ctx.maxUnpackedSize
  max_lt : ctx.maxUnpackedSize < 2 ^ 63

/-- `Totals` reads only the two sizes of a context. -/
theorem Totals.of_eq {ctx ctx' : RecursionContext} (h : Totals ctx)
    (ht : ctx'.totalUnpackedSize = ctx.totalUnpackedSize) (hm : ctx'.maxUnpackedSize = ctx.maxUnpackedSize) :
    Totals ctx' := by
  obtain ⟨h1, h2, h3, h4⟩ := h
  exact ⟨ht ▸ h1, ht ▸ hm ▸ h2, hm ▸ h3, hm ▸ h4⟩

theorem totals_init (d : Option Int) (s : Option OffT) : Totals (recursionContextInit d s) := by
  have := init_maxUnpackedSize_range d s
  exact ⟨le_rfl, by simp only [init_totalUnpackedSize]; omega, this.1, this.2⟩

section
variable {ctx : RecursionContext}

/-- The size check accepts a size exactly when it is not negative and the
total stays within the limit, then adds it; otherwise it says why and
changes nothing. -/
theorem checkSize_ret (s : OffT) :
    ((checkUnpackSizeLimit ctx s).1 = 0 ↔
        0 ≤ s.val ∧ ctx.totalUnpackedSize + s.val ≤ ctx.maxUnpackedSize) ∧
      ((checkUnpackSizeLimit ctx s).1 = 0 →
        (checkUnpackSizeLimit ctx s).2.totalUnpackedSize = ctx.totalUnpackedSize + s.val) ∧
      ((checkUnpackSizeLimit ctx s).1 ≠ 0 → (checkUnpackSizeLimit ctx s).2 = ctx ∧
        ((checkUnpackSizeLimit ctx s).1 = -EINVAL ∧ s.val < 0 ∨
          (checkUnpackSizeLimit ctx s).1 = -EFBIG ∧ 0 ≤ s.val ∧
            ctx.maxUnpackedSize < ctx.totalUnpackedSize + s.val)) := by
  unfold checkUnpackSizeLimit
  split
  · simp [EINVAL]; omega
  · split
    · simp [EFBIG]; omega
    · simp; omega

/-- Neither `max - size` nor, when it is added, `total + size` overflows. -/
theorem checkSize_no_overflow (h : Totals ctx) (s : OffT) :
    (0 ≤ s.val → InOffT (ctx.maxUnpackedSize - s.val)) ∧
      ((checkUnpackSizeLimit ctx s).1 = 0 → InOffT (ctx.totalUnpackedSize + s.val)) := by
  have := s.range; have := h.total_nonneg; have := h.total_le; have := h.max_pos; have := h.max_lt
  refine ⟨fun _ => ⟨by omega, by omega⟩, fun e => ?_⟩
  have := ((checkSize_ret s).1.mp e)
  exact ⟨by omega, by omega⟩

theorem totals_step (h : Totals ctx) (c : Call) : Totals (step ctx c) := by
  cases c with
  | push fp p ok => exact h.of_eq (push_totalUnpackedSize ..) (push_maxUnpackedSize ..)
  | pop => exact h.of_eq (pop_totalUnpackedSize ..) (pop_maxUnpackedSize ..)
  | isCycle fp => exact h
  | checkSize s =>
    simp only [step]
    by_cases e : (checkUnpackSizeLimit ctx s).1 = 0
    · have hs := (checkSize_ret s).1.mp e
      rw [checkSize_eq, (checkSize_ret s).2.1 e]
      exact ⟨by dsimp only; have := h.1; omega, by dsimp only; omega, h.3, h.4⟩
    · rw [((checkSize_ret s).2.2 e).1]
      exact h

end

theorem totals_run {ctx : RecursionContext} (h : Totals ctx) (calls : List Call) :
    Totals (run ctx calls) := by
  induction calls generalizing ctx with
  | nil => exact h
  | cons c cs ih => exact ih (totals_step h c)

/-- From `recursion_context_init`, over every sequence of calls:
`0 ≤ total_unpacked_size ≤ max_unpacked_size < 2⁶³`, and the next size check,
for any size of `off_t`, accepts it exactly when it is not negative and
`total + size ≤ max` as integers, then adds it exactly; it otherwise returns
`-EINVAL` (negative size) or `-EFBIG` and changes nothing; and neither
`max - size` nor `total + size` overflows. -/
theorem unpack_size_exact (depthOption : Option Int) (sizeOption : Option OffT) (calls : List Call) :
    let ctx := run (recursionContextInit depthOption sizeOption) calls
    Totals ctx ∧
      ∀ s : OffT,
        ((checkUnpackSizeLimit ctx s).1 = 0 ↔
          0 ≤ s.val ∧ ctx.totalUnpackedSize + s.val ≤ ctx.maxUnpackedSize) ∧
        ((checkUnpackSizeLimit ctx s).1 = 0 →
          (checkUnpackSizeLimit ctx s).2.totalUnpackedSize = ctx.totalUnpackedSize + s.val) ∧
        ((checkUnpackSizeLimit ctx s).1 ≠ 0 → (checkUnpackSizeLimit ctx s).2 = ctx ∧
          ((checkUnpackSizeLimit ctx s).1 = -EINVAL ∧ s.val < 0 ∨
            (checkUnpackSizeLimit ctx s).1 = -EFBIG ∧ 0 ≤ s.val ∧
              ctx.maxUnpackedSize < ctx.totalUnpackedSize + s.val)) ∧
        (0 ≤ s.val → InOffT (ctx.maxUnpackedSize - s.val)) ∧
        ((checkUnpackSizeLimit ctx s).1 = 0 → InOffT (ctx.totalUnpackedSize + s.val)) := by
  intro ctx
  have h := totals_run (totals_init depthOption sizeOption) calls
  exact ⟨h, fun s => ⟨(checkSize_ret s).1, (checkSize_ret s).2.1, (checkSize_ret s).2.2,
    checkSize_no_overflow h s⟩⟩

end Rar2fs.Recursion
