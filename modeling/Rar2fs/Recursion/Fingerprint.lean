import Rar2fs.Recursion.Context

/-!
# Archive fingerprints (`recursion.c`)

`compute_archive_fingerprint` hashes with FNV-1a 64 (`fnv1a_hash_64`) the
first 4 KiB of an archive and, when the archive is longer, its last 4 KiB;
the fingerprint's hash is FNV-1a of the eight bytes of the `xor` of the two,
with the size and the mtime beside it. `is_cycle_detected` compares nothing
else (`isCycleDetected_iff`).

`fingerprint_collisions`: over 4 KiB, the fingerprint sees the two chunks
only through their `xor`. Two archives of one size and one mtime whose first
and last 4 KiB agree, or are swapped, have one fingerprint, whatever lies
between; and every archive whose last 4 KiB are its first 4 KiB has the hash
of eight zero bytes, whatever those 4 KiB are.
-/

namespace Rar2fs.Recursion

/-- `FNV_64_PRIME`. -/
def FNV_64_PRIME : UInt64 := 0x100000001b3

/-- `FNV_64_OFFSET_BASIS`. -/
def FNV_64_OFFSET_BASIS : UInt64 := 0xcbf29ce484222325

/-- `FINGERPRINT_CHUNK_SIZE`. -/
def FINGERPRINT_CHUNK_SIZE : ℕ := 4096

/-- `fnv1a_hash_64(data, len)` on the `len` bytes at `data`: from
`FNV_64_OFFSET_BASIS`, `hash ^= p[i]` then `hash *= FNV_64_PRIME` for each
byte, modulo `2⁶⁴`. -/
def fnv1aHash64 (data : List UInt8) : UInt64 :=
  data.foldl (fun hash b => (hash ^^^ b.toUInt64) * FNV_64_PRIME) FNV_64_OFFSET_BASIS

/-- The eight bytes of a `uint64_t` in memory, least significant first, as on
the little-endian targets. -/
def le64 (x : UInt64) : List UInt8 := (List.range 8).map fun i => (x >>> (8 * i).toUInt64).toUInt8

/-- `compute_archive_fingerprint(rar_data, rar_size, mtime)`, with `data` the
`rar_size` bytes at `rar_data`, `none` for `NULL`. -/
def computeArchiveFingerprint (data : Option (List UInt8)) (mtime : Int) : ArchiveFingerprint :=
  match data with
  | none => ⟨0, 0, 0⟩
  | some data =>
    if data.length = 0 then ⟨0, 0, 0⟩
    else
      let firstChunkSize := if data.length < FINGERPRINT_CHUNK_SIZE then data.length else FINGERPRINT_CHUNK_SIZE
      let hash1 := fnv1aHash64 (data.take firstChunkSize)
      let hash2 := if data.length > FINGERPRINT_CHUNK_SIZE then
          fnv1aHash64 (data.drop (data.length - FINGERPRINT_CHUNK_SIZE)) else 0
      ⟨fnv1aHash64 (le64 (hash1 ^^^ hash2)), data.length, mtime⟩

theorem UInt64.xor_comm' (a b : UInt64) : a ^^^ b = b ^^^ a := by
  cases a; cases b; exact congrArg UInt64.mk (BitVec.xor_comm _ _)

theorem UInt64.xor_self' (a : UInt64) : a ^^^ a = 0 := by
  cases a; exact congrArg UInt64.mk BitVec.xor_self

/-- Over 4 KiB, the fingerprint of the first and the last 4 KiB. -/
theorem computeArchiveFingerprint_long {data : List UInt8} (mtime : Int) (hn : FINGERPRINT_CHUNK_SIZE < data.length) :
    computeArchiveFingerprint (some data) mtime =
      ⟨fnv1aHash64 (le64 (fnv1aHash64 (data.take FINGERPRINT_CHUNK_SIZE) ^^^
        fnv1aHash64 (data.drop (data.length - FINGERPRINT_CHUNK_SIZE)))), data.length, mtime⟩ := by
  have h0 : data.length ≠ 0 := by omega
  have h1 : ¬ data.length < FINGERPRINT_CHUNK_SIZE := by omega
  simp only [computeArchiveFingerprint, if_neg h0, if_neg h1, gt_iff_lt, if_pos hn]

/-- Over 4 KiB, the fingerprint sees the first and the last 4 KiB only through
the `xor` of their hashes: two archives of one size and one mtime whose first
and last 4 KiB agree, or are swapped, have one fingerprint, and an archive
whose last 4 KiB are its first 4 KiB has the hash of eight zero bytes. -/
theorem fingerprint_collisions (mtime : Int) :
    (∀ d₁ d₂ : List UInt8, d₁.length = d₂.length → FINGERPRINT_CHUNK_SIZE < d₁.length →
      (d₁.take FINGERPRINT_CHUNK_SIZE = d₂.take FINGERPRINT_CHUNK_SIZE ∧
          d₁.drop (d₁.length - FINGERPRINT_CHUNK_SIZE) = d₂.drop (d₂.length - FINGERPRINT_CHUNK_SIZE) ∨
        d₁.take FINGERPRINT_CHUNK_SIZE = d₂.drop (d₂.length - FINGERPRINT_CHUNK_SIZE) ∧
          d₁.drop (d₁.length - FINGERPRINT_CHUNK_SIZE) = d₂.take FINGERPRINT_CHUNK_SIZE) →
      computeArchiveFingerprint (some d₁) mtime = computeArchiveFingerprint (some d₂) mtime) ∧
    ∀ d : List UInt8, FINGERPRINT_CHUNK_SIZE < d.length →
      d.take FINGERPRINT_CHUNK_SIZE = d.drop (d.length - FINGERPRINT_CHUNK_SIZE) →
      (computeArchiveFingerprint (some d) mtime).hash = fnv1aHash64 (le64 0) := by
  refine ⟨fun d₁ d₂ hl hn he => ?_, fun d hn he => ?_⟩
  · rw [computeArchiveFingerprint_long mtime hn, computeArchiveFingerprint_long mtime (hl ▸ hn)]
    rcases he with ⟨ht, hd⟩ | ⟨ht, hd⟩
    · rw [ht, hd, hl]
    · rw [ht, hd, hl, UInt64.xor_comm']
  · rw [computeArchiveFingerprint_long mtime hn, he, UInt64.xor_self']

end Rar2fs.Recursion
