import Rar2fs.Libc

/-!
# The in-memory extraction buffer (`extract_to_memory_callback`)

The callback appends each chunk of `UCM_PROCESSDATA` to `struct
extract_buffer`, doubling the capacity when the chunk does not fit and
refusing to grow past 1 GiB. The arithmetic is that of `size_t`: the chunk
length is the `LPARAM` argument `P2` converted to `size_t`
(`sizeOfLparam`), and `size + chunk_size` is taken modulo `2⁶⁴`.

For every chunk length that `P2` gives as a non-negative `long`, one call
keeps `size ≤ capacity ≤ 1 GiB`, copies only below the capacity, and either
appends the chunk to `data[0..size)` or leaves it alone (`callback_spec`);
over any sequence of such calls the buffer stays valid, `data[0..size)` is
its old contents followed by the chunks the calls accepted, in order, and a
buffer in error is never changed again (`callbacks_run`,
`callback_run_contract`). A negative `P2`, which is no chunk size, gives a
chunk length near `2⁶⁴`: `size + chunk_size` wraps, the growth is skipped
and the copy runs past the capacity (`callback_negative_chunk_wraps`).
-/

namespace Rar2fs.Recursion

/-- `UCM_PROCESSDATA` of `recursion.c`. -/
def UCM_PROCESSDATA : ℕ := 1

/-- `struct extract_buffer`: the bytes of the block at `data`, indexed from
its start, and `size`, `capacity` (`size_t`) and `error`. -/
structure ExtractBuffer where
  data : ℕ → UInt8
  size : ℕ
  capacity : ℕ
  error : Int

/-- `memcpy(dst + off, src, n)`. -/
def memcpy (dst : ℕ → UInt8) (off : ℕ) (src : ℕ → UInt8) (n : ℕ) : ℕ → UInt8 :=
  fun j => if off ≤ j ∧ j < off + n then src (j - off) else dst j

/-- `(size_t)P2` for an `LPARAM` (`long`) `P2`. -/
def sizeOfLparam (p : Int) : ℕ := (p % 2 ^ 64).toNat

/-- The growth step of `extract_to_memory_callback`: the buffer the chunk is
copied into, or `none` where the callback sets `error`. `realloc` is `none`
when `realloc` fails, and otherwise the bytes of the new block past the old
capacity, below which it keeps the old block. -/
def growExtractBuffer (buf : ExtractBuffer) (chunkSize : ℕ) (realloc : Option (ℕ → UInt8)) :
    Option ExtractBuffer :=
  if (buf.size + chunkSize) % 2 ^ 64 > buf.capacity then
    let doubled := buf.capacity * 2 % 2 ^ 64
    let newCapacity :=
      if doubled < (buf.size + chunkSize) % 2 ^ 64 then (buf.size + chunkSize) % 2 ^ 64 else doubled
    if newCapacity > 1024 * 1024 * 1024 then none
    else realloc.map fun fresh =>
      { buf with data := fun j => if j < buf.capacity then buf.data j else fresh j, capacity := newCapacity }
  else some buf

/-- `extract_to_memory_callback(msg, buf, P1, P2)` on a non-`NULL` buffer:
`p1` is the chunk at `P1`, or `none` for `NULL`. -/
def extractToMemoryCallback (msg : ℕ) (p1 : Option (ℕ → UInt8)) (p2 : Int) (realloc : Option (ℕ → UInt8))
    (buf : ExtractBuffer) : Int × ExtractBuffer :=
  if msg ≠ UCM_PROCESSDATA then (1, buf)
  else if buf.error ≠ 0 then (-1, buf)
  else match p1 with
    | none => (1, buf)
    | some chunk =>
      if sizeOfLparam p2 = 0 then (1, buf)
      else match growExtractBuffer buf (sizeOfLparam p2) realloc with
        | none => (-1, { buf with error := 1 })
        | some b =>
          (1, { b with data := memcpy b.data b.size chunk (sizeOfLparam p2),
                       size := (b.size + sizeOfLparam p2) % 2 ^ 64 })

/-- `free_extract_buffer`: the block is freed, and the buffer is the empty
one of capacity `0`. -/
def freeExtractBuffer (buf : ExtractBuffer) : ExtractBuffer := { buf with size := 0, capacity := 0, error := 0 }

/-- The arguments of one call of the callback. -/
structure CallbackCall where
  msg : ℕ
  p1 : Option (ℕ → UInt8)
  p2 : Int
  realloc : Option (ℕ → UInt8)

/-- The buffer after a sequence of calls. -/
def runCallbacks (buf : ExtractBuffer) (calls : List CallbackCall) : ExtractBuffer :=
  calls.foldl (fun b c => (extractToMemoryCallback c.msg c.p1 c.p2 c.realloc b).2) buf

/-- The values a sequence of calls returns. -/
def callbackReturns (buf : ExtractBuffer) : List CallbackCall → List Int
  | [] => []
  | c :: cs =>
    (extractToMemoryCallback c.msg c.p1 c.p2 c.realloc buf).1 ::
      callbackReturns (extractToMemoryCallback c.msg c.p1 c.p2 c.realloc buf).2 cs

/-- The bytes a call accepted, given what it returned: the `chunk_size` bytes
at `P1` of a `UCM_PROCESSDATA` call with a non-`NULL` `P1` that returns `1`. -/
def acceptedChunk (msg : ℕ) (p1 : Option (ℕ → UInt8)) (p2 ret : Int) : List UInt8 :=
  match p1 with
  | some chunk => if msg = UCM_PROCESSDATA ∧ ret = 1 then (List.range (sizeOfLparam p2)).map chunk else []
  | none => []

/-- The chunks a sequence of calls accepted, in order, given what they
returned. -/
def acceptedChunks : List CallbackCall → List Int → List UInt8
  | c :: cs, r :: rs => acceptedChunk c.msg c.p1 c.p2 r ++ acceptedChunks cs rs
  | _, _ => []

/-- `data[0..size)`. -/
def ExtractBuffer.contents (buf : ExtractBuffer) : List UInt8 := (List.range buf.size).map buf.data

/-- `size ≤ capacity ≤ 1 GiB`. -/
structure ExtractBuffer.Valid (buf : ExtractBuffer) : Prop where
  size_le : buf.size ≤ buf.capacity
  capacity_le : buf.capacity ≤ 1024 * 1024 * 1024

/-! ## One call -/

theorem sizeOfLparam_of_nonneg {p : Int} (h0 : 0 ≤ p) (h1 : p < 2 ^ 63) :
    sizeOfLparam p = p.toNat ∧ p.toNat < 2 ^ 63 := by
  unfold sizeOfLparam
  rw [Int.emod_eq_of_lt h0 (by omega)]
  omega

theorem memcpy_of_lt {dst src : ℕ → UInt8} {off n j : ℕ} (h : j < off) : memcpy dst off src n j = dst j :=
  if_neg (by omega)

theorem memcpy_add {dst src : ℕ → UInt8} {off n i : ℕ} (h : i < n) : memcpy dst off src n (off + i) = src i := by
  rw [memcpy, if_pos (by omega), Nat.add_sub_cancel_left]

section
variable {msg : ℕ} {p1 : Option (ℕ → UInt8)} {p2 : Int} {buf b : ExtractBuffer} {n : ℕ}
  {realloc : Option (ℕ → UInt8)}

theorem callback_of_msg (hm : msg ≠ UCM_PROCESSDATA) : extractToMemoryCallback msg p1 p2 realloc buf = (1, buf) :=
  if_pos hm

theorem callback_of_error (hm : msg = UCM_PROCESSDATA) (he : buf.error ≠ 0) :
    extractToMemoryCallback msg p1 p2 realloc buf = (-1, buf) := by
  unfold extractToMemoryCallback
  rw [if_neg (not_not.mpr hm), if_pos he]

theorem callback_of_null (hm : msg = UCM_PROCESSDATA) (he : buf.error = 0) :
    extractToMemoryCallback msg none p2 realloc buf = (1, buf) := by
  unfold extractToMemoryCallback
  rw [if_neg (not_not.mpr hm), if_neg (not_not.mpr he)]

theorem callback_of_empty {chunk : ℕ → UInt8} (hm : msg = UCM_PROCESSDATA) (he : buf.error = 0)
    (hz : sizeOfLparam p2 = 0) : extractToMemoryCallback msg (some chunk) p2 realloc buf = (1, buf) := by
  unfold extractToMemoryCallback
  rw [if_neg (not_not.mpr hm), if_neg (not_not.mpr he)]
  exact if_pos hz

theorem callback_of_grow_fail {chunk : ℕ → UInt8} (hm : msg = UCM_PROCESSDATA) (he : buf.error = 0)
    (hz : sizeOfLparam p2 ≠ 0) (hg : growExtractBuffer buf (sizeOfLparam p2) realloc = none) :
    extractToMemoryCallback msg (some chunk) p2 realloc buf = (-1, { buf with error := 1 }) := by
  unfold extractToMemoryCallback
  rw [if_neg (not_not.mpr hm), if_neg (not_not.mpr he)]
  simp only [if_neg hz, hg]

theorem callback_of_copy {chunk : ℕ → UInt8} (hm : msg = UCM_PROCESSDATA) (he : buf.error = 0)
    (hz : sizeOfLparam p2 ≠ 0) (hg : growExtractBuffer buf (sizeOfLparam p2) realloc = some b) :
    extractToMemoryCallback msg (some chunk) p2 realloc buf =
      (1, { b with data := memcpy b.data b.size chunk (sizeOfLparam p2),
                   size := (b.size + sizeOfLparam p2) % 2 ^ 64 }) := by
  unfold extractToMemoryCallback
  rw [if_neg (not_not.mpr hm), if_neg (not_not.mpr he)]
  simp only [if_neg hz, hg]

/-- A valid buffer grows, when it must, to a valid one with room for the
chunk, keeping `size` and the bytes below it. -/
theorem grow_spec (h : buf.Valid) (hn : n < 2 ^ 63) (hg : growExtractBuffer buf n realloc = some b) :
    b.Valid ∧ b.size = buf.size ∧ buf.size + n ≤ b.capacity ∧ ∀ j < buf.size, b.data j = buf.data j := by
  have := h.size_le; have := h.capacity_le
  have hmod : (buf.size + n) % 2 ^ 64 = buf.size + n := Nat.mod_eq_of_lt (by omega)
  have hdbl : buf.capacity * 2 % 2 ^ 64 = buf.capacity * 2 := Nat.mod_eq_of_lt (by omega)
  dsimp only [growExtractBuffer] at hg
  rw [hmod, hdbl] at hg
  split_ifs at hg
  · obtain ⟨fresh, -, rfl⟩ := Option.map_eq_some'.mp hg
    exact ⟨⟨by dsimp only; omega, by dsimp only; omega⟩, rfl, le_rfl, fun j _ => if_pos (by omega)⟩
  · obtain ⟨fresh, -, rfl⟩ := Option.map_eq_some'.mp hg
    exact ⟨⟨by dsimp only; omega, by dsimp only; omega⟩, rfl, by dsimp only; omega, fun j _ => if_pos (by omega)⟩
  · cases hg
    exact ⟨h, rfl, by omega, fun _ _ => rfl⟩

/-- The copy appends the chunk to `data[0..size)`. -/
theorem contents_copy {chunk : ℕ → UInt8} (hs : b.size = buf.size) (hd : ∀ j < buf.size, b.data j = buf.data j) :
    ExtractBuffer.contents { b with data := memcpy b.data b.size chunk n, size := b.size + n } =
      buf.contents ++ (List.range n).map chunk := by
  simp only [ExtractBuffer.contents, hs, List.range_add, List.map_append, List.map_map]
  congr 1
  · refine List.map_congr_left fun j hj => ?_
    rw [List.mem_range] at hj
    rw [memcpy_of_lt (by omega), hd j (by omega)]
  · exact List.map_congr_left fun i hi => memcpy_add (List.mem_range.mp hi)

end

/-- A call that returns anything but `1`, or is no `UCM_PROCESSDATA`, accepts
nothing. -/
theorem acceptedChunk_eq_nil {msg : ℕ} {p1 : Option (ℕ → UInt8)} {p2 ret : Int}
    (h : ¬ (msg = UCM_PROCESSDATA ∧ ret = 1)) : acceptedChunk msg p1 p2 ret = [] := by
  cases p1 <;> simp only [acceptedChunk, if_neg h]

/-- One call on a valid buffer with a chunk length `0 ≤ P2 < 2⁶³`: the buffer
stays valid; the copy, if any, lies below the capacity of the buffer it is
made into; a call returning `-1` changes only `error`; `data[0..size)` has
the chunk the call accepted appended; and a buffer in error is left alone. -/
theorem callback_spec (msg : ℕ) (p1 : Option (ℕ → UInt8)) (p2 : Int) (realloc : Option (ℕ → UInt8))
    (buf : ExtractBuffer) (h : buf.Valid) (hp0 : 0 ≤ p2) (hp1 : p2 < 2 ^ 63) :
    let r := extractToMemoryCallback msg p1 p2 realloc buf
    r.2.Valid ∧
      (∀ b, growExtractBuffer buf (sizeOfLparam p2) realloc = some b → b.size + sizeOfLparam p2 ≤ b.capacity) ∧
      (r.1 = -1 → r.2.data = buf.data ∧ r.2.size = buf.size ∧ r.2.capacity = buf.capacity) ∧
      r.2.contents = buf.contents ++ acceptedChunk msg p1 p2 r.1 ∧
      (msg = UCM_PROCESSDATA → buf.error ≠ 0 → r = (-1, buf)) := by
  obtain ⟨hsz, hlt⟩ := sizeOfLparam_of_nonneg hp0 hp1
  have hcopy : ∀ b, growExtractBuffer buf (sizeOfLparam p2) realloc = some b →
      b.size + sizeOfLparam p2 ≤ b.capacity := fun b hg => by
    have := grow_spec h (hsz ▸ hlt) hg
    omega
  have hnil : ∀ {ret}, ¬ (msg = UCM_PROCESSDATA ∧ ret = 1) → buf.contents = buf.contents ++ acceptedChunk msg p1 p2 ret :=
    fun hr => by rw [acceptedChunk_eq_nil hr, List.append_nil]
  by_cases hm : msg = UCM_PROCESSDATA
  swap
  · rw [callback_of_msg hm]
    exact ⟨h, hcopy, fun _ => ⟨rfl, rfl, rfl⟩, hnil fun e => hm e.1, fun e => absurd e hm⟩
  by_cases he : buf.error ≠ 0
  · rw [callback_of_error hm he]
    exact ⟨h, hcopy, fun _ => ⟨rfl, rfl, rfl⟩, hnil fun e => (by decide : ¬ (-1 : Int) = 1) e.2, fun _ _ => rfl⟩
  rw [not_not] at he
  obtain _ | chunk := p1
  · rw [callback_of_null hm he]
    exact ⟨h, hcopy, fun _ => ⟨rfl, rfl, rfl⟩, (List.append_nil _).symm, fun _ e => absurd he e⟩
  by_cases hz : sizeOfLparam p2 = 0
  · rw [callback_of_empty hm he hz]
    refine ⟨h, hcopy, fun _ => ⟨rfl, rfl, rfl⟩, ?_, fun _ e => absurd he e⟩
    simp [acceptedChunk, hm, hz]
  cases hg : growExtractBuffer buf (sizeOfLparam p2) realloc with
  | none =>
    rw [callback_of_grow_fail hm he hz hg]
    exact ⟨⟨h.1, h.2⟩, (fun _ e => nomatch e), fun _ => ⟨rfl, rfl, rfl⟩, hnil fun e => (by decide : ¬ (-1 : Int) = 1) e.2,
      fun _ e => absurd he e⟩
  | some b =>
    rw [callback_of_copy hm he hz hg]
    obtain ⟨hb, hs, hroom, hd⟩ := grow_spec h (hsz ▸ hlt) hg
    have := hb.2
    have hmod : (b.size + sizeOfLparam p2) % 2 ^ 64 = b.size + sizeOfLparam p2 := Nat.mod_eq_of_lt (by omega)
    refine ⟨⟨by dsimp only; omega, hb.2⟩, fun _ e => hcopy _ (hg.trans e), fun e => by simp at e, ?_,
      fun _ e => absurd he e⟩
    simp only [hmod, acceptedChunk, hm, eq_self_iff_true, and_self, if_true]
    exact contents_copy hs hd

theorem runCallbacks_append (buf : ExtractBuffer) (pre post : List CallbackCall) :
    runCallbacks buf (pre ++ post) = runCallbacks (runCallbacks buf pre) post :=
  List.foldl_append _ _ _ _

section
variable {msg : ℕ} {p1 : Option (ℕ → UInt8)} {p2 : Int} {realloc : Option (ℕ → UInt8)} {buf : ExtractBuffer}

/-- A buffer in error is left as it is, whatever the message. -/
theorem callback_snd_of_error (he : buf.error ≠ 0) : (extractToMemoryCallback msg p1 p2 realloc buf).2 = buf := by
  by_cases hm : msg = UCM_PROCESSDATA
  · rw [callback_of_error hm he]
  · rw [callback_of_msg hm]

theorem runCallbacks_of_error (he : buf.error ≠ 0) : ∀ calls, runCallbacks buf calls = buf
  | [] => rfl
  | c :: cs => by
    show runCallbacks (extractToMemoryCallback c.msg c.p1 c.p2 c.realloc buf).2 cs = buf
    rw [callback_snd_of_error he, runCallbacks_of_error he cs]

end

/-- Over any sequence of calls with chunk lengths `0 ≤ P2 < 2⁶³`, a valid
buffer stays valid and `data[0..size)` is its old contents followed by the
chunks the calls accepted. -/
theorem runCallbacks_spec : ∀ (calls : List CallbackCall) (buf : ExtractBuffer), buf.Valid →
    (∀ c ∈ calls, 0 ≤ c.p2 ∧ c.p2 < 2 ^ 63) →
    (runCallbacks buf calls).Valid ∧
      (runCallbacks buf calls).contents = buf.contents ++ acceptedChunks calls (callbackReturns buf calls)
  | [], _, h, _ => ⟨h, (List.append_nil _).symm⟩
  | c :: cs, buf, h, hp => by
    have hc := hp c (List.mem_cons_self _ _)
    obtain ⟨hv, -, -, hcont, -⟩ := callback_spec c.msg c.p1 c.p2 c.realloc buf h hc.1 hc.2
    obtain ⟨hv', hcont'⟩ := runCallbacks_spec cs _ hv fun c hc => hp c (List.mem_cons_of_mem _ hc)
    refine ⟨hv', ?_⟩
    show (runCallbacks _ cs).contents = buf.contents ++ (acceptedChunk c.msg c.p1 c.p2 _ ++ acceptedChunks cs _)
    rw [hcont', hcont, List.append_assoc]

/-- Over any sequence of calls with chunk lengths `0 ≤ P2 < 2⁶³`, a valid
buffer stays valid, `data[0..size)` only grows, and a buffer in error is never
changed. -/
theorem callbacks_run (buf : ExtractBuffer) (h : buf.Valid) (calls : List CallbackCall)
    (hp : ∀ c ∈ calls, 0 ≤ c.p2 ∧ c.p2 < 2 ^ 63) :
    (runCallbacks buf calls).Valid ∧ buf.contents <+: (runCallbacks buf calls).contents ∧
      (buf.error ≠ 0 → runCallbacks buf calls = buf) := by
  obtain ⟨hv, hcont⟩ := runCallbacks_spec calls buf h hp
  exact ⟨hv, hcont ▸ List.prefix_append _ _, fun he => runCallbacks_of_error he calls⟩

/-- A one-byte chunk and an empty one into an empty buffer. -/
theorem callbacks_run_two_chunks :
    let buf : ExtractBuffer := ⟨fun _ => 0, 0, 0, 0⟩
    let calls : List CallbackCall :=
      [⟨UCM_PROCESSDATA, some fun _ => 7, 1, some fun _ => 0⟩, ⟨UCM_PROCESSDATA, some fun _ => 7, 0, none⟩]
    buf.Valid ∧ (∀ c ∈ calls, 0 ≤ c.p2 ∧ c.p2 < 2 ^ 63) ∧
      ((runCallbacks buf calls).Valid ∧ buf.contents <+: (runCallbacks buf calls).contents ∧
        (buf.error ≠ 0 → runCallbacks buf calls = buf)) :=
  ⟨⟨le_rfl, by decide⟩, by simp, callbacks_run _ ⟨le_rfl, by decide⟩ _ (by simp)⟩

/-- The contract of the callback over a run of calls with chunk lengths
`0 ≤ P2 < 2⁶³`, from a valid buffer. At the end, `data[0..size)` is the old
contents followed by the chunks of the calls that accepted data, in order. At
each call, on the buffer the calls before it left: the buffer after it is
valid, the copy lies below the capacity of the block it is made into, a call
returning `-1` changes only `error`, and a buffer in error is left as it is,
a `UCM_PROCESSDATA` call returning `-1`. Once a buffer is in error, no later
call changes it. -/
theorem callback_run_contract (buf : ExtractBuffer) (h : buf.Valid) (calls : List CallbackCall)
    (hp : ∀ c ∈ calls, 0 ≤ c.p2 ∧ c.p2 < 2 ^ 63) :
    (runCallbacks buf calls).contents = buf.contents ++ acceptedChunks calls (callbackReturns buf calls) ∧
      (∀ pre c post, calls = pre ++ c :: post →
        let b := runCallbacks buf pre
        let r := extractToMemoryCallback c.msg c.p1 c.p2 c.realloc b
        r.2.Valid ∧
          (∀ g, growExtractBuffer b (sizeOfLparam c.p2) c.realloc = some g →
            g.size + sizeOfLparam c.p2 ≤ g.capacity) ∧
          (r.1 = -1 → r.2.data = b.data ∧ r.2.size = b.size ∧ r.2.capacity = b.capacity) ∧
          (b.error ≠ 0 → r.2 = b ∧ (c.msg = UCM_PROCESSDATA → r.1 = -1))) ∧
      ∀ pre post, calls = pre ++ post → (runCallbacks buf pre).error ≠ 0 →
        runCallbacks buf calls = runCallbacks buf pre := by
  refine ⟨(runCallbacks_spec calls buf h hp).2, fun pre c post hc => ?_, fun pre post hc he => ?_⟩
  · subst hc
    have hb := (runCallbacks_spec pre buf h fun c' hc' => hp c' (List.mem_append_left _ hc')).1
    have hpc := hp c (List.mem_append_right _ (List.mem_cons_self _ _))
    obtain ⟨hv, hcopy, hret, -, hstop⟩ := callback_spec c.msg c.p1 c.p2 c.realloc _ hb hpc.1 hpc.2
    exact ⟨hv, hcopy, hret, fun he => ⟨callback_snd_of_error he, fun hm => by rw [hstop hm he]⟩⟩
  · rw [hc, runCallbacks_append, runCallbacks_of_error he]

/-- A two-byte chunk, a `NULL` chunk and another message, into an empty
buffer. -/
theorem callback_run_contract_three_calls :
    let buf : ExtractBuffer := ⟨fun _ => 0, 0, 0, 0⟩
    let calls : List CallbackCall := [⟨UCM_PROCESSDATA, some Nat.toUInt8, 2, some fun _ => 0⟩,
      ⟨UCM_PROCESSDATA, none, 5, none⟩, ⟨0, some fun _ => 9, 3, none⟩]
    buf.Valid ∧ (∀ c ∈ calls, 0 ≤ c.p2 ∧ c.p2 < 2 ^ 63) ∧
      ((runCallbacks buf calls).contents = buf.contents ++ acceptedChunks calls (callbackReturns buf calls) ∧
        (∀ pre c post, calls = pre ++ c :: post →
          let b := runCallbacks buf pre
          let r := extractToMemoryCallback c.msg c.p1 c.p2 c.realloc b
          r.2.Valid ∧
            (∀ g, growExtractBuffer b (sizeOfLparam c.p2) c.realloc = some g →
              g.size + sizeOfLparam c.p2 ≤ g.capacity) ∧
            (r.1 = -1 → r.2.data = b.data ∧ r.2.size = b.size ∧ r.2.capacity = b.capacity) ∧
            (b.error ≠ 0 → r.2 = b ∧ (c.msg = UCM_PROCESSDATA → r.1 = -1))) ∧
        ∀ pre post, calls = pre ++ post → (runCallbacks buf pre).error ≠ 0 →
          runCallbacks buf calls = runCallbacks buf pre) :=
  ⟨⟨le_rfl, by decide⟩, by simp, callback_run_contract _ ⟨le_rfl, by decide⟩ _ (by simp)⟩

/-! ## Growth against the 1 GiB cap -/

/-- The capacity the growth step asks for a chunk of `n` bytes: when the chunk
does not fit, the doubled capacity, or `size + n` when that is larger. -/
def neededCapacity (size capacity n : ℕ) : ℕ :=
  if size + n > capacity then max (capacity * 2) (size + n) else capacity

/-- The capacity the growth step reaches over chunks of lengths `ns` from
`size` and `capacity`, were there no cap. -/
def grownCapacity : ℕ → ℕ → List ℕ → ℕ
  | _, capacity, [] => capacity
  | size, capacity, n :: ns => grownCapacity (size + n) (neededCapacity size capacity n) ns

theorem le_neededCapacity (size capacity n : ℕ) :
    capacity ≤ neededCapacity size capacity n ∧ size + n ≤ neededCapacity size capacity n := by
  unfold neededCapacity; split_ifs <;> omega

theorem le_grownCapacity : ∀ (size capacity : ℕ) (ns : List ℕ), capacity ≤ grownCapacity size capacity ns
  | _, _, [] => le_rfl
  | size, capacity, n :: ns =>
    (le_neededCapacity size capacity n).1.trans (le_grownCapacity (size + n) (neededCapacity size capacity n) ns)

/-- The capacity reached holds all the chunks, and stays within twice what it
holds when it starts so. -/
theorem grownCapacity_bounds : ∀ (size capacity : ℕ) (ns : List ℕ), size ≤ capacity → capacity ≤ 2 * size →
    size + ns.sum ≤ grownCapacity size capacity ns ∧ grownCapacity size capacity ns ≤ 2 * (size + ns.sum)
  | _, _, [], h1, h2 => by simp only [grownCapacity, List.sum_nil]; omega
  | size, capacity, n :: ns, h1, h2 => by
    have := grownCapacity_bounds (size + n) (neededCapacity size capacity n) ns
      (by unfold neededCapacity; split_ifs <;> omega) (by unfold neededCapacity; split_ifs <;> omega)
    simp only [grownCapacity, List.sum_cons]
    omega

section
variable {buf : ExtractBuffer} {n : ℕ}

/-- With `realloc` succeeding, the growth step fails exactly when the
capacity it asks for is over 1 GiB, and otherwise takes that capacity. -/
theorem grow_fresh (h : buf.Valid) (hn : n < 2 ^ 63) (fresh : ℕ → UInt8) :
    (growExtractBuffer buf n (some fresh)).map (fun b => (b.size, b.capacity, b.error)) =
      if neededCapacity buf.size buf.capacity n ≤ 1024 * 1024 * 1024 then
        some (buf.size, neededCapacity buf.size buf.capacity n, buf.error) else none := by
  have := h.size_le; have := h.capacity_le
  have hmod : (buf.size + n) % 2 ^ 64 = buf.size + n := Nat.mod_eq_of_lt (by omega)
  have hdbl : buf.capacity * 2 % 2 ^ 64 = buf.capacity * 2 := Nat.mod_eq_of_lt (by omega)
  unfold growExtractBuffer neededCapacity
  rw [hmod, hdbl]
  by_cases hg : buf.size + n > buf.capacity
  · have hmax : max (buf.capacity * 2) (buf.size + n) =
        if buf.capacity * 2 < buf.size + n then buf.size + n else buf.capacity * 2 := by
      split_ifs <;> omega
    simp only [if_pos hg, hmax]
    split_ifs <;> first | omega | rfl
  · simp only [if_neg hg]
    rw [if_pos (by omega)]
    rfl

/-- A non-empty chunk into a valid buffer not in error, with `realloc`
succeeding: the call returns `1` when the capacity asked for is at most
1 GiB, and then adds the chunk to `size` and takes that capacity, and returns
`-1` otherwise. -/
theorem callback_grows (chunk fresh : ℕ → UInt8) {p2 : Int} (h : buf.Valid) (he : buf.error = 0) (hp0 : 0 < p2)
    (hp1 : p2 < 2 ^ 63) :
    let r := extractToMemoryCallback UCM_PROCESSDATA (some chunk) p2 (some fresh) buf
    r.1 = (if neededCapacity buf.size buf.capacity p2.toNat ≤ 1024 * 1024 * 1024 then 1 else -1) ∧
      (neededCapacity buf.size buf.capacity p2.toNat ≤ 1024 * 1024 * 1024 →
        r.2.size = buf.size + p2.toNat ∧ r.2.capacity = neededCapacity buf.size buf.capacity p2.toNat ∧
        r.2.error = 0) := by
  obtain ⟨hsz, hlt⟩ := sizeOfLparam_of_nonneg hp0.le hp1
  have hz : sizeOfLparam p2 ≠ 0 := by omega
  have hgrow := grow_fresh h (hsz ▸ hlt) fresh
  rw [hsz] at hgrow
  cases hg : growExtractBuffer buf (sizeOfLparam p2) (some fresh) with
  | none =>
    rw [callback_of_grow_fail rfl he hz hg]
    rw [hsz] at hg
    rw [hg] at hgrow
    by_cases hc : neededCapacity buf.size buf.capacity p2.toNat ≤ 1024 * 1024 * 1024
    · rw [if_pos hc] at hgrow; simp at hgrow
    · exact ⟨(if_neg hc).symm, fun e => absurd e hc⟩
  | some b =>
    rw [callback_of_copy rfl he hz hg]
    rw [hsz] at hg
    rw [hg] at hgrow
    by_cases hc : neededCapacity buf.size buf.capacity p2.toNat ≤ 1024 * 1024 * 1024
    · rw [if_pos hc] at hgrow
      obtain ⟨hs, hcap, herr⟩ : b.size = buf.size ∧ b.capacity = _ ∧ b.error = buf.error := by
        simpa using hgrow
      have := h.size_le; have := h.capacity_le
      refine ⟨(if_pos hc).symm, fun _ => ⟨?_, hcap, herr.trans he⟩⟩
      dsimp only
      rw [hs, hsz, Nat.mod_eq_of_lt (by omega)]
    · rw [if_neg hc] at hgrow; simp at hgrow

end

/-- Over non-empty chunks of lengths `0 < P2 < 2⁶³` with `realloc`
succeeding, from a valid buffer not in error: every call returns `1` exactly
when the capacity the growth step reaches over all the chunks is at most
1 GiB. -/
theorem callbackReturns_all_one_iff (calls : List CallbackCall)
    (hc : ∀ c ∈ calls, c.msg = UCM_PROCESSDATA ∧ c.p1.isSome ∧ c.realloc.isSome ∧ 0 < c.p2 ∧ c.p2 < 2 ^ 63) :
    ∀ buf : ExtractBuffer, buf.Valid → buf.error = 0 →
      ((∀ r ∈ callbackReturns buf calls, r = 1) ↔
        grownCapacity buf.size buf.capacity (calls.map fun c => c.p2.toNat) ≤ 1024 * 1024 * 1024) := by
  induction calls with
  | nil => exact fun buf h _ => iff_of_true (by simp [callbackReturns]) h.capacity_le
  | cons c cs ih =>
    intro buf h he
    obtain ⟨hm, hp, hr, h0, h1⟩ := hc c (List.mem_cons_self _ _)
    obtain ⟨msg, _ | chunk, p2, _ | fresh⟩ := c <;> simp at hp hr
    dsimp only at hm h0 h1
    subst hm
    obtain ⟨hret, hstep⟩ := callback_grows chunk fresh h he h0 h1
    simp only [callbackReturns, List.mem_cons, forall_eq_or_imp, List.map_cons, grownCapacity]
    by_cases hn : neededCapacity buf.size buf.capacity p2.toNat ≤ 1024 * 1024 * 1024
    · obtain ⟨hs, hcap, herr⟩ := hstep hn
      have hv : ExtractBuffer.Valid (extractToMemoryCallback UCM_PROCESSDATA (some chunk) p2 (some fresh) buf).2 :=
        ⟨by rw [hs, hcap]; exact (le_neededCapacity _ _ _).2, by rw [hcap]; exact hn⟩
      rw [ih (fun c hc' => hc c (List.mem_cons_of_mem _ hc')) _ hv herr, hs, hcap, hret, if_pos hn]
      exact and_iff_right rfl
    · rw [hret, if_neg hn]
      exact iff_of_false (fun hall => absurd hall.1 (by decide))
        fun hg => hn ((le_grownCapacity _ _ _).trans hg)

/-- From the buffer `free_extract_buffer` leaves, with every `realloc`
succeeding and non-empty chunks of lengths `0 < P2 < 2⁶³`: every call returns
`1` exactly when the capacity the doubling reaches over all the chunks is at
most 1 GiB, and that capacity is at least the total of the chunks and at most
twice it. So every call returns `1` when the total is at most 512 MiB, and
only when it is at most 1 GiB. -/
theorem callbacks_accept_iff (buf : ExtractBuffer) (calls : List CallbackCall)
    (hc : ∀ c ∈ calls, c.msg = UCM_PROCESSDATA ∧ c.p1.isSome ∧ c.realloc.isSome ∧ 0 < c.p2 ∧ c.p2 < 2 ^ 63) :
    let lens := calls.map fun c => c.p2.toNat
    ((∀ r ∈ callbackReturns (freeExtractBuffer buf) calls, r = 1) ↔ grownCapacity 0 0 lens ≤ 1024 * 1024 * 1024) ∧
      lens.sum ≤ grownCapacity 0 0 lens ∧ grownCapacity 0 0 lens ≤ 2 * lens.sum := by
  have := grownCapacity_bounds 0 0 (calls.map fun c => c.p2.toNat) le_rfl le_rfl
  simp only [zero_add] at this
  exact ⟨callbackReturns_all_one_iff calls hc _ ⟨le_rfl, Nat.zero_le _⟩ rfl, this⟩

theorem callbacks_accept_iff_two_chunks :
    let calls : List CallbackCall :=
      [⟨UCM_PROCESSDATA, some fun _ => 7, 3, some fun _ => 0⟩, ⟨UCM_PROCESSDATA, some fun _ => 7, 5, some fun _ => 0⟩]
    (∀ c ∈ calls, c.msg = UCM_PROCESSDATA ∧ c.p1.isSome ∧ c.realloc.isSome ∧ 0 < c.p2 ∧ c.p2 < 2 ^ 63) ∧
      let lens := calls.map fun c => c.p2.toNat
      ((∀ r ∈ callbackReturns (freeExtractBuffer ⟨fun _ => 0, 0, 0, 0⟩) calls, r = 1) ↔
          grownCapacity 0 0 lens ≤ 1024 * 1024 * 1024) ∧
        lens.sum ≤ grownCapacity 0 0 lens ∧ grownCapacity 0 0 lens ≤ 2 * lens.sum := by
  intro calls
  have hc : ∀ c ∈ calls, c.msg = UCM_PROCESSDATA ∧ c.p1.isSome ∧ c.realloc.isSome ∧ 0 < c.p2 ∧ c.p2 < 2 ^ 63 := by
    simp [calls]
  exact ⟨hc, callbacks_accept_iff _ calls hc⟩

/-- A chunk of 600 MiB and then one of 100 MiB, 700 MiB in all: the second call
asks for the doubled capacity, 1200 MiB, over the cap, and returns `-1`. -/
theorem callbacks_reject_under_cap (buf : ExtractBuffer) (chunk₁ chunk₂ fresh₁ fresh₂ : ℕ → UInt8) :
    let calls : List CallbackCall :=
      [⟨UCM_PROCESSDATA, some chunk₁, 629145600, some fresh₁⟩, ⟨UCM_PROCESSDATA, some chunk₂, 104857600, some fresh₂⟩]
    (calls.map fun c => c.p2.toNat).sum ≤ 1024 * 1024 * 1024 ∧
      callbackReturns (freeExtractBuffer buf) calls = [1, -1] := by
  intro calls
  have ht₁ : (629145600 : Int).toNat = 629145600 := rfl
  have ht₂ : (104857600 : Int).toNat = 104857600 := rfl
  have h₀ : (freeExtractBuffer buf).Valid := ⟨le_rfl, Nat.zero_le _⟩
  obtain ⟨hr₁, hs₁⟩ := callback_grows chunk₁ fresh₁ h₀ rfl
    (show (0 : Int) < 629145600 by norm_num) (by norm_num)
  have hn₁ : neededCapacity 0 0 629145600 = 629145600 := by norm_num [neededCapacity]
  rw [ht₁, show (freeExtractBuffer buf).size = 0 from rfl, show (freeExtractBuffer buf).capacity = 0 from rfl,
    hn₁] at hr₁ hs₁
  obtain ⟨hsize, hcap, herr⟩ := hs₁ (by norm_num)
  obtain ⟨hr₂, -⟩ := callback_grows chunk₂ fresh₂ ⟨by rw [hsize, hcap], by rw [hcap]; norm_num⟩
    herr (show (0 : Int) < 104857600 by norm_num) (by norm_num)
  have hn₂ : neededCapacity 629145600 629145600 104857600 = 1258291200 := by norm_num [neededCapacity]
  rw [hsize, hcap, ht₂, zero_add, hn₂] at hr₂
  refine ⟨by rw [List.map_cons, List.map_cons, List.map_nil, ht₁, ht₂]; norm_num, ?_⟩
  simp only [calls, callbackReturns, hr₁, hr₂]
  norm_num

/-! ## A negative `P2` -/

/-- From the buffer `free_extract_buffer` leaves, a chunk of one byte and then
`P2 = -1`: the second call skips the growth, as `1 + (2⁶⁴ - 1)` wraps to `0`,
copies `2⁶⁴ - 1` bytes from offset `1` into a block of capacity `1`, and sets
`size` to `0`. -/
theorem callback_negative_chunk_wraps (buf : ExtractBuffer) (chunk₁ chunk₂ fresh : ℕ → UInt8)
    (realloc : Option (ℕ → UInt8)) :
    let r₁ := extractToMemoryCallback UCM_PROCESSDATA (some chunk₁) 1 (some fresh) (freeExtractBuffer buf)
    let r₂ := extractToMemoryCallback UCM_PROCESSDATA (some chunk₂) (-1) realloc r₁.2
    r₁.1 = 1 ∧ r₁.2.size = 1 ∧ r₁.2.capacity = 1 ∧
      r₂.1 = 1 ∧ r₂.2.size = 0 ∧ r₂.2.capacity = 1 ∧ ∀ j, 1 ≤ j → j < 2 ^ 64 → r₂.2.data j = chunk₂ (j - 1) := by
  intro r₁ r₂
  have hz₁ : sizeOfLparam 1 ≠ 0 := by decide
  have hz₂ : sizeOfLparam (-1) = 2 ^ 64 - 1 := rfl
  have e₁ : r₁ = (1,
      { data := memcpy (fun j => if j < 0 then buf.data j else fresh j) 0 chunk₁ 1, size := 1, capacity := 1,
        error := 0 }) := callback_of_copy rfl rfl hz₁ (by rfl)
  have hr₁ : r₁.2.size = 1 ∧ r₁.2.capacity = 1 ∧ r₁.2.error = 0 := by rw [e₁]; exact ⟨rfl, rfl, rfl⟩
  have hg₂ : growExtractBuffer r₁.2 (sizeOfLparam (-1)) realloc = some r₁.2 := by
    unfold growExtractBuffer; rw [if_neg (by omega)]
  have e₂ : r₂ = (1, { r₁.2 with data := memcpy r₁.2.data r₁.2.size chunk₂ (sizeOfLparam (-1)),
                                 size := (r₁.2.size + sizeOfLparam (-1)) % 2 ^ 64 }) :=
    callback_of_copy rfl hr₁.2.2 (by omega) hg₂
  refine ⟨by rw [e₁], hr₁.1, hr₁.2.1, by rw [e₂], by rw [e₂]; dsimp only; omega, by rw [e₂]; exact hr₁.2.1,
    fun j h1 h2 => ?_⟩
  rw [e₂]
  dsimp only
  rw [memcpy, if_pos (by omega), hr₁.1]

/-- From the zeroed buffer, a chunk of one `7` and then `P2 = -1` with a
chunk of `9`s: both calls accept data, yet `size` ends at `0`, and the copy
writes `9`s from offset `1` to `2⁶⁴ - 1` into a block of capacity `1`. -/
theorem callback_negative_chunk_from_zeroed :
    let buf := freeExtractBuffer ⟨fun _ => 0, 0, 0, 0⟩
    let r₁ := extractToMemoryCallback UCM_PROCESSDATA (some fun _ => 7) 1 (some fun _ => 0) buf
    let r₂ := extractToMemoryCallback UCM_PROCESSDATA (some fun _ => 9) (-1) none r₁.2
    buf.Valid ∧ r₁.1 = 1 ∧ r₁.2.size = 1 ∧ r₁.2.capacity = 1 ∧
      r₂.1 = 1 ∧ r₂.2.size = 0 ∧ r₂.2.capacity = 1 ∧ ∀ j, 1 ≤ j → j < 2 ^ 64 → r₂.2.data j = 9 :=
  ⟨⟨le_rfl, Nat.zero_le _⟩, callback_negative_chunk_wraps _ _ _ _ _⟩

end Rar2fs.Recursion
