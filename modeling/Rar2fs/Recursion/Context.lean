import Rar2fs.Libc

/-!
# The recursion context (`recursion.c`)

`struct recursion_context` and the functions of `recursion.c` that read and
write it: `recursion_context_init`, `is_cycle_detected`,
`recursion_push_archive`, `recursion_pop_archive`, `check_unpack_size_limit`
and `recursion_context_cleanup`. Each is a function from the context to its
return value and the context after the call.

The arrays `visited` and `archive_chain` are functions of the index; which
indices the code uses is a theorem (`Stack.lean`), not a type. `depth` and
`max_depth` are `int` and stay `Int`. The `off_t` fields are `Int` and the
size check computes on them exactly; that the exact values never leave the
64-bit range, so that C computes the same, is proved in `UnpackSize.lean`.

`start_time` is left out: no modelled function reads it. A NULL `ctx` or `fp`
is left out too: the callers pass the address of a context and of a
fingerprint.
-/

namespace Rar2fs.Recursion

/-- `MAX_RECURSION_DEPTH`, the absolute limit. -/
def MAX_RECURSION_DEPTH : Int := 10

/-- `DEFAULT_MAX_RECURSION_DEPTH`. -/
def DEFAULT_MAX_RECURSION_DEPTH : Int := 5

/-- The default of `max_unpacked_size`, `10ULL * 1024 * 1024 * 1024`. -/
def DEFAULT_MAX_UNPACKED_SIZE : Int := 10 * 1024 * 1024 * 1024

/-- A value of `off_t`, a signed 64-bit integer. -/
structure OffT where
  val : Int
  range : -2 ^ 63 ≤ val ∧ val < 2 ^ 63
  deriving DecidableEq

/-- `struct archive_fingerprint`: compared only for equality. -/
structure ArchiveFingerprint where
  hash : UInt64
  size : Int
  mtime : Int
  deriving DecidableEq

/-- The fingerprint `memset` leaves. -/
def ArchiveFingerprint.zero : ArchiveFingerprint := ⟨0, 0, 0⟩

/-- `struct recursion_context`. -/
structure RecursionContext where
  depth : Int
  maxDepth : Int
  visited : ℕ → ArchiveFingerprint
  archiveChain : ℕ → Option CStr
  totalUnpackedSize : Int
  maxUnpackedSize : Int

/-- `recursion_context_init`: `depthOption` and `sizeOption` are the values of
`--recursion-depth` and `--max-unpack-size`, `none` when unset. -/
def recursionContextInit (depthOption : Option Int) (sizeOption : Option OffT) :
    RecursionContext where
  depth := 0
  maxDepth := match depthOption with
    | some configured =>
      if configured ≥ 1 ∧ configured ≤ MAX_RECURSION_DEPTH then configured
      else DEFAULT_MAX_RECURSION_DEPTH
    | none => DEFAULT_MAX_RECURSION_DEPTH
  visited := fun _ => .zero
  archiveChain := fun _ => none
  totalUnpackedSize := 0
  maxUnpackedSize := match sizeOption with
    | some configured => if configured.val > 0 then configured.val else DEFAULT_MAX_UNPACKED_SIZE
    | none => DEFAULT_MAX_UNPACKED_SIZE

/-- The test of `is_cycle_detected`'s loop: same hash, size and mtime. -/
def fingerprintMatches (visited fp : ArchiveFingerprint) : Bool :=
  visited.hash == fp.hash && visited.size == fp.size && visited.mtime == fp.mtime

/-- `is_cycle_detected`: `for (int i = 0; i < ctx->depth; i++)`. -/
def isCycleDetected (ctx : RecursionContext) (fp : ArchiveFingerprint) : Bool :=
  (List.range ctx.depth.toNat).any fun i => fingerprintMatches (ctx.visited i) fp

/-- `recursion_push_archive`: `strdupOk` is whether `strdup(archive_path)`
succeeds. The fingerprint is stored before the copy is made, so a failed copy
leaves it in `visited[depth]`. -/
def recursionPushArchive (ctx : RecursionContext) (fp : ArchiveFingerprint)
    (archivePath : Option CStr) (strdupOk : Bool) : Int × RecursionContext :=
  if ctx.depth ≥ ctx.maxDepth then (-ELOOP, ctx)
  else if ctx.depth ≥ MAX_RECURSION_DEPTH then (-ELOOP, ctx)
  else
    let ctx := { ctx with visited := Function.update ctx.visited ctx.depth.toNat fp }
    match archivePath with
    | some path =>
      if strdupOk then
        (0, { ctx with
          archiveChain := Function.update ctx.archiveChain ctx.depth.toNat (some path)
          depth := ctx.depth + 1 })
      else (-ENOMEM, { ctx with archiveChain := Function.update ctx.archiveChain ctx.depth.toNat none })
    | none => (0, { ctx with depth := ctx.depth + 1 })

/-- `recursion_pop_archive`: the path at the new depth is freed and cleared
when there is one; either way it is `NULL` after. -/
def recursionPopArchive (ctx : RecursionContext) : RecursionContext :=
  if ctx.depth ≤ 0 then ctx
  else
    { ctx with
      depth := ctx.depth - 1
      visited := Function.update ctx.visited (ctx.depth - 1).toNat .zero
      archiveChain := Function.update ctx.archiveChain (ctx.depth - 1).toNat none }

/-- `check_unpack_size_limit`. -/
def checkUnpackSizeLimit (ctx : RecursionContext) (archiveSize : OffT) :
    Int × RecursionContext :=
  if archiveSize.val < 0 then (-EINVAL, ctx)
  else if ctx.totalUnpackedSize > ctx.maxUnpackedSize - archiveSize.val then (-EFBIG, ctx)
  else (0, { ctx with totalUnpackedSize := ctx.totalUnpackedSize + archiveSize.val })

/-- `recursion_context_cleanup`: every path of the chain is freed and cleared. -/
def recursionContextCleanup (ctx : RecursionContext) : RecursionContext :=
  { ctx with archiveChain := fun _ => none }

/-! ## Small lemmas -/

@[simp] theorem fingerprintMatches_iff (v fp : ArchiveFingerprint) :
    fingerprintMatches v fp = true ↔ v = fp := by
  cases v; cases fp
  simp [fingerprintMatches, and_assoc]

theorem isCycleDetected_iff (ctx : RecursionContext) (fp : ArchiveFingerprint) :
    isCycleDetected ctx fp = true ↔ ∃ i < ctx.depth.toNat, ctx.visited i = fp := by
  simp [isCycleDetected]

@[simp] theorem init_depth (d : Option Int) (s : Option OffT) :
    (recursionContextInit d s).depth = 0 := rfl

@[simp] theorem init_totalUnpackedSize (d : Option Int) (s : Option OffT) :
    (recursionContextInit d s).totalUnpackedSize = 0 := rfl

@[simp] theorem init_archiveChain (d : Option Int) (s : Option OffT) (i : ℕ) :
    (recursionContextInit d s).archiveChain i = none := rfl

theorem init_maxDepth_range (d : Option Int) (s : Option OffT) :
    1 ≤ (recursionContextInit d s).maxDepth ∧
      (recursionContextInit d s).maxDepth ≤ MAX_RECURSION_DEPTH := by
  simp only [recursionContextInit, MAX_RECURSION_DEPTH, DEFAULT_MAX_RECURSION_DEPTH]
  split
  · split <;> omega
  · omega

theorem init_maxUnpackedSize_range (d : Option Int) (s : Option OffT) :
    1 ≤ (recursionContextInit d s).maxUnpackedSize ∧
      (recursionContextInit d s).maxUnpackedSize < 2 ^ 63 := by
  simp only [recursionContextInit, DEFAULT_MAX_UNPACKED_SIZE]
  split
  · rename_i c
    have := c.range
    split <;> omega
  · omega

/-- The three outcomes of `recursion_push_archive`, by its guards. -/
theorem push_of_full {ctx : RecursionContext} (h : ¬ (ctx.depth < ctx.maxDepth ∧ ctx.depth < MAX_RECURSION_DEPTH))
    (fp : ArchiveFingerprint) (p : Option CStr) (ok : Bool) :
    recursionPushArchive ctx fp p ok = (-ELOOP, ctx) := by
  unfold recursionPushArchive
  split
  · rfl
  · rw [if_pos (by omega)]

theorem push_of_no_path {ctx : RecursionContext}
    (h : ctx.depth < ctx.maxDepth ∧ ctx.depth < MAX_RECURSION_DEPTH) (fp : ArchiveFingerprint) (ok : Bool) :
    recursionPushArchive ctx fp none ok =
      (0, { ctx with
        depth := ctx.depth + 1
        visited := Function.update ctx.visited ctx.depth.toNat fp }) := by
  unfold recursionPushArchive
  rw [if_neg (by omega), if_neg (by omega)]

theorem push_of_copied {ctx : RecursionContext}
    (h : ctx.depth < ctx.maxDepth ∧ ctx.depth < MAX_RECURSION_DEPTH) (fp : ArchiveFingerprint) (path : CStr) :
    recursionPushArchive ctx fp (some path) true =
      (0, { ctx with
        depth := ctx.depth + 1
        visited := Function.update ctx.visited ctx.depth.toNat fp
        archiveChain := Function.update ctx.archiveChain ctx.depth.toNat (some path) }) := by
  unfold recursionPushArchive
  rw [if_neg (by omega), if_neg (by omega)]
  rfl

theorem push_of_strdup_fail {ctx : RecursionContext}
    (h : ctx.depth < ctx.maxDepth ∧ ctx.depth < MAX_RECURSION_DEPTH) (fp : ArchiveFingerprint) (path : CStr) :
    recursionPushArchive ctx fp (some path) false =
      (-ENOMEM, { ctx with
        visited := Function.update ctx.visited ctx.depth.toNat fp
        archiveChain := Function.update ctx.archiveChain ctx.depth.toNat none }) := by
  unfold recursionPushArchive
  rw [if_neg (by omega), if_neg (by omega)]
  simp

theorem pop_of_empty {ctx : RecursionContext} (h : ctx.depth ≤ 0) : recursionPopArchive ctx = ctx := by
  simp [recursionPopArchive, h]

theorem pop_of_pos {ctx : RecursionContext} (h : 0 < ctx.depth) :
    recursionPopArchive ctx =
      { ctx with
        depth := ctx.depth - 1
        visited := Function.update ctx.visited (ctx.depth - 1).toNat .zero
        archiveChain := Function.update ctx.archiveChain (ctx.depth - 1).toNat none } := by
  rw [recursionPopArchive, if_neg (by omega)]

/-! ## What each function leaves alone -/

section
variable (ctx : RecursionContext)

@[simp] theorem pop_maxDepth : (recursionPopArchive ctx).maxDepth = ctx.maxDepth := by
  unfold recursionPopArchive; split <;> rfl

@[simp] theorem pop_totalUnpackedSize :
    (recursionPopArchive ctx).totalUnpackedSize = ctx.totalUnpackedSize := by
  unfold recursionPopArchive; split <;> rfl

@[simp] theorem pop_maxUnpackedSize :
    (recursionPopArchive ctx).maxUnpackedSize = ctx.maxUnpackedSize := by
  unfold recursionPopArchive; split <;> rfl

/-- A push changes only `depth`, `visited` and `archive_chain`. -/
theorem push_frame (fp : ArchiveFingerprint) (p : Option CStr) (ok : Bool) :
    (recursionPushArchive ctx fp p ok).2.maxDepth = ctx.maxDepth ∧
      (recursionPushArchive ctx fp p ok).2.totalUnpackedSize = ctx.totalUnpackedSize ∧
      (recursionPushArchive ctx fp p ok).2.maxUnpackedSize = ctx.maxUnpackedSize := by
  by_cases h : ctx.depth < ctx.maxDepth ∧ ctx.depth < MAX_RECURSION_DEPTH
  · rcases p with _ | path
    · simp [push_of_no_path h]
    · cases ok
      · simp [push_of_strdup_fail h]
      · simp [push_of_copied h]
  · simp [push_of_full h]

@[simp] theorem push_maxDepth (fp : ArchiveFingerprint) (p : Option CStr) (ok : Bool) :
    (recursionPushArchive ctx fp p ok).2.maxDepth = ctx.maxDepth := (push_frame ctx fp p ok).1

@[simp] theorem push_totalUnpackedSize (fp : ArchiveFingerprint) (p : Option CStr) (ok : Bool) :
    (recursionPushArchive ctx fp p ok).2.totalUnpackedSize = ctx.totalUnpackedSize :=
  (push_frame ctx fp p ok).2.1

@[simp] theorem push_maxUnpackedSize (fp : ArchiveFingerprint) (p : Option CStr) (ok : Bool) :
    (recursionPushArchive ctx fp p ok).2.maxUnpackedSize = ctx.maxUnpackedSize :=
  (push_frame ctx fp p ok).2.2

/-- A size check changes only `total_unpacked_size`. -/
theorem checkSize_eq (s : OffT) :
    (checkUnpackSizeLimit ctx s).2 =
      { ctx with totalUnpackedSize := (checkUnpackSizeLimit ctx s).2.totalUnpackedSize } := by
  unfold checkUnpackSizeLimit
  split
  · rfl
  · split <;> rfl

@[simp] theorem checkSize_maxDepth (s : OffT) :
    (checkUnpackSizeLimit ctx s).2.maxDepth = ctx.maxDepth := by
  rw [checkSize_eq]

end

end Rar2fs.Recursion
