import Rar2fs.Recursion.Context

/-!
# The recursion context is a bounded stack of fingerprints

What the context is for: a stack of the fingerprints of the archives being
unpacked, outermost first, at most `max_depth` deep, whose push may also fail
when the copy of the archive's path fails (`push`, `pop`, `apply`). The
context holds such a stack (`Holds`): `depth` is its height, `visited[0..depth)`
its fingerprints, every `archive_chain` entry from `depth` on is `NULL`, and
`1 ≤ max_depth ≤ MAX_RECURSION_DEPTH`.

Each function keeps `Holds` (`holds_push`, `holds_pop`, `holds_checkSize`) and
answers as the stack does (`push_ret_iff`, `isCycleDetected_iff_mem`), so every
sequence of calls from `recursion_context_init` does (`holds_run`,
`recursion_stack_refinement`). When the callers push a fingerprint only after
`is_cycle_detected` has said no, the stack never holds one twice
(`nodup_run`).
-/

namespace Rar2fs.Recursion

/-- A call on a recursion context: what it is given, and whether its
`strdup` succeeds. -/
inductive Call
  | push (fp : ArchiveFingerprint) (archivePath : Option CStr) (strdupOk : Bool)
  | pop
  | isCycle (fp : ArchiveFingerprint)
  | checkSize (archiveSize : OffT)

/-- The context after a call. -/
def step (ctx : RecursionContext) : Call → RecursionContext
  | .push fp p ok => (recursionPushArchive ctx fp p ok).2
  | .pop => recursionPopArchive ctx
  | .isCycle _ => ctx
  | .checkSize s => (checkUnpackSizeLimit ctx s).2

/-- The context after a sequence of calls. -/
def run (ctx : RecursionContext) (calls : List Call) : RecursionContext := calls.foldl step ctx

/-! ## The stack -/

/-- A push: whether it succeeds, and the stack after it. -/
def push (bound : Int) (st : List ArchiveFingerprint) (fp : ArchiveFingerprint)
    (archivePath : Option CStr) (strdupOk : Bool) : Bool × List ArchiveFingerprint :=
  if (st.length : Int) < bound ∧ (archivePath = none ∨ strdupOk = true) then (true, st ++ [fp])
  else (false, st)

/-- A pop; on an empty stack, nothing. -/
def pop (st : List ArchiveFingerprint) : List ArchiveFingerprint := st.dropLast

/-- The stack after a call. -/
def apply (bound : Int) (st : List ArchiveFingerprint) : Call → List ArchiveFingerprint
  | .push fp p ok => (push bound st fp p ok).2
  | .pop => pop st
  | .isCycle _ | .checkSize _ => st

/-- The stack after a sequence of calls. -/
def applyAll (bound : Int) (st : List ArchiveFingerprint) (calls : List Call) :
    List ArchiveFingerprint :=
  calls.foldl (apply bound) st

/-- `ctx` holds the stack `st`. -/
structure Holds (ctx : RecursionContext) (st : List ArchiveFingerprint) : Prop where
  maxDepth_pos : 1 ≤ ctx.maxDepth
  maxDepth_le : ctx.maxDepth ≤ MAX_RECURSION_DEPTH
  depth_eq : ctx.depth = st.length
  depth_le : ctx.depth ≤ ctx.maxDepth
  visited_eq : ∀ i (h : i < st.length), ctx.visited i = st[i]
  chain_none : ∀ i, st.length ≤ i → ctx.archiveChain i = none

theorem Holds.depth_toNat {ctx : RecursionContext} {st : List ArchiveFingerprint}
    (h : Holds ctx st) : ctx.depth.toNat = st.length := by
  simp [h.depth_eq]

/-- Every index the functions use is below `MAX_RECURSION_DEPTH`: a push
writes `visited[depth]` when `depth < max_depth`, a pop `visited[depth - 1]`
when `depth > 0`, and `is_cycle_detected` reads `visited[0..depth)`. -/
theorem Holds.index_lt {ctx : RecursionContext} {st : List ArchiveFingerprint} (h : Holds ctx st) :
    (ctx.depth < ctx.maxDepth → 0 ≤ ctx.depth ∧ ctx.depth < MAX_RECURSION_DEPTH) ∧
      (0 < ctx.depth → ctx.depth - 1 < MAX_RECURSION_DEPTH) ∧
      0 ≤ ctx.depth ∧ ctx.depth ≤ MAX_RECURSION_DEPTH := by
  have := h.maxDepth_le; have := h.depth_le; have := h.depth_eq
  omega

theorem holds_init (d : Option Int) (s : Option OffT) : Holds (recursionContextInit d s) [] := by
  have := init_maxDepth_range d s
  exact ⟨this.1, this.2, rfl, by simp only [init_depth]; omega, nofun, fun _ _ => rfl⟩

/-! ## One lemma per function -/

section
variable {ctx : RecursionContext} {st : List ArchiveFingerprint}

theorem isCycleDetected_iff_mem (h : Holds ctx st) (fp : ArchiveFingerprint) :
    isCycleDetected ctx fp = true ↔ fp ∈ st := by
  rw [isCycleDetected_iff, h.depth_toNat, List.mem_iff_getElem]
  exact ⟨fun ⟨i, hi, e⟩ => ⟨i, hi, (h.visited_eq i hi).symm.trans e⟩,
    fun ⟨i, hi, e⟩ => ⟨i, hi, (h.visited_eq i hi).trans e⟩⟩

theorem push_ret_iff (h : Holds ctx st) (fp : ArchiveFingerprint) (p : Option CStr) (ok : Bool) :
    (recursionPushArchive ctx fp p ok).1 = 0 ↔ ctx.depth < ctx.maxDepth ∧ (p = none ∨ ok = true) := by
  have := h.maxDepth_le
  by_cases hr : ctx.depth < ctx.maxDepth ∧ ctx.depth < MAX_RECURSION_DEPTH
  · rcases p with _ | path
    · simp [push_of_no_path hr, hr.1]
    · cases ok
      · simp [push_of_strdup_fail hr, ENOMEM]
      · simp [push_of_copied hr, hr.1]
  · rw [push_of_full hr]
    simp only [MAX_RECURSION_DEPTH, ELOOP] at *
    omega

/-- A failed push changes neither `depth`, `visited[0..depth)` nor
`archive_chain`: the slot it writes before the copy fails is `visited[depth]`,
and the path it clears was `NULL` already. -/
theorem push_fail_frame (h : Holds ctx st) {fp : ArchiveFingerprint} {p : Option CStr} {ok : Bool}
    (hne : (recursionPushArchive ctx fp p ok).1 ≠ 0) :
    (recursionPushArchive ctx fp p ok).2.depth = ctx.depth ∧
      (∀ i < ctx.depth.toNat, (recursionPushArchive ctx fp p ok).2.visited i = ctx.visited i) ∧
      (recursionPushArchive ctx fp p ok).2.archiveChain = ctx.archiveChain := by
  by_cases hr : ctx.depth < ctx.maxDepth ∧ ctx.depth < MAX_RECURSION_DEPTH
  · rcases p with _ | path
    · simp [push_of_no_path hr] at hne
    · cases ok
      · rw [push_of_strdup_fail hr]
        refine ⟨rfl, fun i hi => Function.update_noteq (by omega) _ _, ?_⟩
        funext i
        by_cases e : i = ctx.depth.toNat
        · subst e; simp [h.chain_none _ h.depth_toNat.ge]
        · exact Function.update_noteq e _ _
      · simp [push_of_copied hr] at hne
  · rw [push_of_full hr]
    exact ⟨rfl, fun _ _ => rfl, rfl⟩

/-- A successful push puts its fingerprint at `visited[depth]` and its path,
if any, at `archive_chain[depth]`. -/
theorem holds_push_room (h : Holds ctx st) (hr : ctx.depth < ctx.maxDepth ∧ ctx.depth < MAX_RECURSION_DEPTH)
    (fp : ArchiveFingerprint) (p : Option CStr) (ok : Bool) (hok : p = none ∨ ok = true) :
    Holds (recursionPushArchive ctx fp p ok).2 (st ++ [fp]) := by
  have hd := h.depth_toNat
  have hv : ∀ i (hi : i < (st ++ [fp]).length),
      Function.update ctx.visited ctx.depth.toNat fp i = (st ++ [fp])[i] := by
    intro i hi
    simp only [List.length_append, List.length_singleton] at hi
    rcases Nat.lt_succ_iff_lt_or_eq.mp hi with hi | rfl
    · rw [Function.update_noteq (by omega), h.visited_eq i hi, List.getElem_append_left hi]
    · simp [Function.update_apply, hd]
  have hl : ctx.depth + 1 = ((st ++ [fp]).length : Int) := by simp [h.depth_eq]
  rcases p with _ | path
  · rw [push_of_no_path hr]
    exact ⟨h.maxDepth_pos, h.maxDepth_le, hl, by dsimp only; omega, hv,
      fun i hi => h.chain_none i (by simp at hi; omega)⟩
  · obtain rfl : ok = true := by simpa using hok
    rw [push_of_copied hr]
    refine ⟨h.maxDepth_pos, h.maxDepth_le, hl, by dsimp only; omega, hv, fun i hi => ?_⟩
    simp only [List.length_append, List.length_singleton] at hi
    dsimp only
    rw [Function.update_noteq (by omega), h.chain_none i (by omega)]

/-- A push whose copy fails leaves the stack as it is. -/
theorem holds_push_strdup_fail (h : Holds ctx st)
    (hr : ctx.depth < ctx.maxDepth ∧ ctx.depth < MAX_RECURSION_DEPTH) (fp : ArchiveFingerprint)
    (path : CStr) : Holds (recursionPushArchive ctx fp (some path) false).2 st := by
  have hd := h.depth_toNat
  rw [push_of_strdup_fail hr]
  dsimp only
  refine ⟨h.maxDepth_pos, h.maxDepth_le, h.depth_eq, h.depth_le, fun i hi => ?_, fun i hi => ?_⟩
  · dsimp only
    rw [Function.update_noteq (by omega), h.visited_eq i hi]
  · simp only [Function.update_apply]
    split
    · rfl
    · exact h.chain_none i hi

theorem holds_push (h : Holds ctx st) (fp : ArchiveFingerprint) (p : Option CStr) (ok : Bool) :
    Holds (recursionPushArchive ctx fp p ok).2 (push ctx.maxDepth st fp p ok).2 := by
  have := h.maxDepth_le
  by_cases hr : ctx.depth < ctx.maxDepth ∧ ctx.depth < MAX_RECURSION_DEPTH
  · have hl : (st.length : Int) < ctx.maxDepth := h.depth_eq ▸ hr.1
    rcases p with _ | path
    · simpa [push, hl] using holds_push_room h hr fp none ok (.inl rfl)
    · cases ok
      · simpa [push] using holds_push_strdup_fail h hr fp path
      · simpa [push, hl] using holds_push_room h hr fp _ true (.inr rfl)
  · have hl : ¬ (st.length : Int) < ctx.maxDepth := by
      rw [← h.depth_eq]; simp only [MAX_RECURSION_DEPTH] at *; omega
    simpa [push, hl, push_of_full hr] using h

theorem holds_pop (h : Holds ctx st) : Holds (recursionPopArchive ctx) (pop st) := by
  have hd := h.depth_toNat
  by_cases e : ctx.depth ≤ 0
  · have : st = [] := List.eq_nil_of_length_eq_zero (by omega)
    subst this
    rwa [pop_of_empty e]
  · rw [pop_of_pos (by omega)]
    have hl : (pop st).length = st.length - 1 := List.length_dropLast st
    have hp : (ctx.depth - 1).toNat = st.length - 1 := by omega
    have := h.depth_le; have := h.depth_eq
    refine ⟨h.maxDepth_pos, h.maxDepth_le, by dsimp only; omega, by dsimp only; omega,
      fun i hi => ?_, fun i hi => ?_⟩
    · dsimp only
      rw [Function.update_noteq (by omega), h.visited_eq i (by omega)]
      exact (List.getElem_dropLast _ _ _).symm
    · simp only [Function.update_apply]
      split
      · rfl
      · exact h.chain_none i (by omega)

theorem holds_checkSize (h : Holds ctx st) (s : OffT) : Holds (checkUnpackSizeLimit ctx s).2 st := by
  rw [checkSize_eq]
  exact ⟨h.1, h.2, h.3, h.4, h.5, h.6⟩

@[simp] theorem step_maxDepth (c : Call) : (step ctx c).maxDepth = ctx.maxDepth := by
  cases c <;> simp [step]

theorem holds_step (h : Holds ctx st) (c : Call) : Holds (step ctx c) (apply ctx.maxDepth st c) := by
  cases c with
  | push fp p ok => exact holds_push h fp p ok
  | pop => exact holds_pop h
  | isCycle fp => exact h
  | checkSize s => exact holds_checkSize h s

end

theorem holds_run {ctx : RecursionContext} {st : List ArchiveFingerprint} (h : Holds ctx st)
    (calls : List Call) : Holds (run ctx calls) (applyAll ctx.maxDepth st calls) := by
  induction calls generalizing ctx st with
  | nil => exact h
  | cons c cs ih =>
    have := ih (holds_step h c)
    rwa [step_maxDepth] at this

/-! ## No cycle on the stack -/

/-- Every push of `calls` is made from a context in which `is_cycle_detected`
of its fingerprint is false. -/
def CycleChecked : RecursionContext → List Call → Prop
  | _, [] => True
  | ctx, c :: cs =>
    (∀ fp p ok, c = .push fp p ok → isCycleDetected ctx fp = false) ∧ CycleChecked (step ctx c) cs

theorem nodup_apply {ctx : RecursionContext} {st : List ArchiveFingerprint} (h : Holds ctx st)
    (hn : st.Nodup) (c : Call) (hc : ∀ fp p ok, c = .push fp p ok → isCycleDetected ctx fp = false) :
    (apply ctx.maxDepth st c).Nodup := by
  cases c with
  | push fp p ok =>
    have hf : fp ∉ st := by
      rw [← isCycleDetected_iff_mem h]; simp [hc fp p ok rfl]
    simp only [apply, push]
    split
    · exact List.nodup_append.mpr ⟨hn, List.nodup_singleton fp, by simpa using hf⟩
    · exact hn
  | pop => exact hn.sublist (List.dropLast_sublist st)
  | isCycle _ | checkSize _ => exact hn

theorem nodup_run {ctx : RecursionContext} {st : List ArchiveFingerprint} (h : Holds ctx st)
    (hn : st.Nodup) (calls : List Call) (hc : CycleChecked ctx calls) :
    (applyAll ctx.maxDepth st calls).Nodup := by
  induction calls generalizing ctx st with
  | nil => exact hn
  | cons c cs ih =>
    have := ih (holds_step h c) (nodup_apply h hn c hc.1) hc.2
    rwa [step_maxDepth] at this

/-! ## Every run from `recursion_context_init` -/

/-- From `recursion_context_init`, over every sequence of calls: the context
holds the stack of the fingerprints pushed and not popped; a push succeeds
exactly when the stack has room and the path is `NULL` or its copy succeeds,
and a failed one changes neither `depth`, `visited[0..depth)` nor
`archive_chain`; a pop on an empty stack changes nothing; `is_cycle_detected`
answers membership in the stack; and when every push follows a negative
`is_cycle_detected`, no fingerprint is on the stack twice. -/
theorem recursion_stack_refinement (depthOption : Option Int) (sizeOption : Option OffT)
    (calls : List Call) :
    let ctx₀ := recursionContextInit depthOption sizeOption
    let ctx := run ctx₀ calls
    let st := applyAll ctx₀.maxDepth [] calls
    Holds ctx st ∧
      (0 ≤ ctx.depth ∧ ctx.depth ≤ MAX_RECURSION_DEPTH) ∧
      (∀ fp p ok,
        ((recursionPushArchive ctx fp p ok).1 = 0 ↔
          ctx.depth < ctx.maxDepth ∧ (p = none ∨ ok = true)) ∧
        ((recursionPushArchive ctx fp p ok).1 ≠ 0 →
          (recursionPushArchive ctx fp p ok).2.depth = ctx.depth ∧
          (∀ i < ctx.depth.toNat, (recursionPushArchive ctx fp p ok).2.visited i = ctx.visited i) ∧
          (recursionPushArchive ctx fp p ok).2.archiveChain = ctx.archiveChain)) ∧
      (st = [] → recursionPopArchive ctx = ctx) ∧
      (∀ fp, isCycleDetected ctx fp = true ↔ fp ∈ st) ∧
      (CycleChecked ctx₀ calls → st.Nodup) := by
  intro ctx₀ ctx st
  have h : Holds ctx st := holds_run (holds_init depthOption sizeOption) calls
  exact ⟨h, (Holds.index_lt h).2.2, fun fp p ok => ⟨push_ret_iff h fp p ok, push_fail_frame h⟩,
    fun e => pop_of_empty (by rw [h.depth_eq, e]; rfl), isCycleDetected_iff_mem h,
    nodup_run (holds_init depthOption sizeOption) List.nodup_nil calls⟩

end Rar2fs.Recursion
