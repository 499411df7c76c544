import Rar2fs.DirList.Sort

/-!
# Duplicates in `dir_list_close`

After the sort, `dir_list_close` clears `valid` on every entry that has the
name of the entry before it, when that entry is a passthrough or the two
hashes are equal. With hashes that are `get_hash` of the names, the test is
equality of names (`isDuplicate_iff`), and over the sorted list the entries
of a name are consecutive: so the first entry of each name keeps its flag and
the others are cleared (`markDuplicates_filter`). By the sort, that first
entry is the first of least type of that name in the list
(`dirListSort_filter_name`, `dir_list_close_keeps_first`).

Over a list that `dir_entry_add` and `dir_list_append` build, each name of the
list keeps exactly one valid entry, a passthrough when the list holds one
(`dir_list_close_valid_names`). The list holds a passthrough only if it was
added before any archive-backed entry of its name to the same list, since
`dir_entry_add` returns the entry it finds whatever its type: a passthrough
added after an archive-backed entry of its name is not added, and the valid
entry of the name is the archive-backed one, where the comment of
`dir_list_close` says that regular fs entries should always have priority
(`archive_entry_added_first_wins`).
-/

namespace Rar2fs.DirList

/-- The test of `dir_list_close` for a duplicate: `next->next` has the name of
`next`, and `next` is a passthrough or the two hashes are equal. -/
def isDuplicate (p e : DirEntry) : Bool :=
  (p.type == DIR_E_NRM || p.hash == e.hash) && strcmp p.name.bytes e.name.bytes == 0

/-- The duplicate loop of `dir_list_close`, from the entry `next` holds:
`next->next` is cleared when it duplicates `next`, then becomes `next`. -/
def markDuplicatesFrom : DirEntry → List DirEntry → List DirEntry
  | _, [] => []
  | p, e :: rest =>
    let e' := if isDuplicate p e then { e with valid := 0 } else e
    e' :: markDuplicatesFrom e' rest

/-- The duplicate loop of `dir_list_close` over the sorted entries. -/
def markDuplicates : List DirEntry → List DirEntry
  | [] => []
  | e :: rest => e :: markDuplicatesFrom e rest

/-- `dir_list_close`: the sort, then the duplicates cleared. -/
def dirListClose (l : List DirEntry) : List DirEntry := markDuplicates (dirListSort l)

/-- The first entry as it is, the others with `valid = 0`. -/
def keepFirst : List DirEntry → List DirEntry
  | [] => []
  | c :: cs => c :: cs.map fun e => { e with valid := 0 }

section
variable {getHash : List UInt8 → UInt32}

/-- Entries whose hashes are `get_hash` of their names are duplicates exactly
when their names are equal. -/
theorem isDuplicate_iff {p e : DirEntry} (hp : p.hash = getHash p.name.bytes) (he : e.hash = getHash e.name.bytes) :
    isDuplicate p e = true ↔ p.name = e.name := by
  rw [isDuplicate, Bool.and_eq_true, beq_iff_eq, strcmp_eq_zero_iff p.name.nul_free e.name.nul_free,
    ← CStr.ext_iff]
  refine ⟨And.right, fun h => ⟨?_, h⟩⟩
  rw [hp, he, h]
  simp

/-- Over entries sorted by name whose hashes are `get_hash` of their names,
the loop clears every entry of a name but the first. -/
theorem markDuplicatesFrom_filter (n : CStr) : ∀ (p : DirEntry) (rest : List DirEntry),
    (∀ e ∈ p :: rest, e.hash = getHash e.name.bytes) →
    (p :: rest).Pairwise (fun a b => byteKey a.name.bytes ≤ byteKey b.name.bytes) →
    (markDuplicatesFrom p rest).filter (fun e => decide (e.name = n)) =
      if p.name = n then (rest.filter fun e => decide (e.name = n)).map fun e => { e with valid := 0 }
      else keepFirst (rest.filter fun e => decide (e.name = n))
  | _, [], _, _ => by split_ifs <;> rfl
  | p, e :: rest, hh, hs => by
    have hdup := isDuplicate_iff (hh p (List.mem_cons_self _ _)) (hh e (by simp))
    have hs' := List.pairwise_cons.mp hs
    have hes := List.pairwise_cons.mp hs'.2
    -- after the step, `e` with its `valid` flag perhaps cleared is `next`
    have step : ∀ e' : DirEntry, e'.name = e.name → e'.hash = e.hash →
        (markDuplicatesFrom e' rest).filter (fun e => decide (e.name = n)) =
          if e.name = n then (rest.filter fun e => decide (e.name = n)).map fun e => { e with valid := 0 }
          else keepFirst (rest.filter fun e => decide (e.name = n)) := fun e' hn hx => by
      have := markDuplicatesFrom_filter n e' rest (fun x hx' => by
          rcases List.mem_cons.mp hx' with rfl | hx'
          · rw [hn, hx]; exact hh e (by simp)
          · exact hh x (by simp [hx']))
        (List.pairwise_cons.mpr ⟨fun x hx' => hn ▸ hes.1 x hx', hes.2⟩)
      rwa [hn] at this
    -- past a name `n`, no entry has the name `n`
    have hpast : p.name = n → e.name ≠ n → (rest.filter fun e => decide (e.name = n)) = [] := by
      intro hp he
      refine List.filter_eq_nil_iff.mpr fun x hx hxn => he ?_
      have h1 := hs'.1 e (List.mem_cons_self _ _)
      have h2 := hes.1 x hx
      rw [of_decide_eq_true hxn, ← hp] at h2
      rw [CStr.ext_iff, ← hp]
      exact byteKey_injective (le_antisymm h2 h1)
    by_cases hd : isDuplicate p e = true
    · have hpe := hdup.mp hd
      simp only [markDuplicatesFrom, hd, if_true, List.filter_cons]
      rw [step { e with valid := 0 } rfl rfl, hpe]
      by_cases hen : e.name = n <;> simp [hen, keepFirst]
    · have hpe : p.name ≠ e.name := fun h => hd (hdup.mpr h)
      simp only [markDuplicatesFrom, hd, if_false, Bool.false_eq_true, List.filter_cons]
      rw [step e rfl rfl]
      by_cases hen : e.name = n
      · simp [hen, keepFirst, hen ▸ hpe]
      · by_cases hpn : p.name = n
        · simp [hen, hpn, hpast hpn hen, keepFirst]
        · simp [hen, hpn]

theorem markDuplicates_filter (n : CStr) {s : List DirEntry} (hh : ∀ e ∈ s, e.hash = getHash e.name.bytes)
    (hs : s.Pairwise fun a b => byteKey a.name.bytes ≤ byteKey b.name.bytes) :
    (markDuplicates s).filter (fun e => decide (e.name = n)) = keepFirst (s.filter fun e => decide (e.name = n)) := by
  cases s with
  | nil => rfl
  | cons e rest =>
    simp only [markDuplicates, List.filter_cons]
    rw [markDuplicatesFrom_filter n e rest hh hs]
    by_cases hen : e.name = n <;> simp [hen, keepFirst]

end

/-! ## The first entry of a name after the sort -/

/-- The first entry of `L` that satisfies `p` comes before every other one. -/
theorem indexOf_le_of_head_filter {p : DirEntry → Bool} {c a : DirEntry} :
    ∀ {L : List DirEntry}, (L.filter p).head? = some c → a ∈ L → p a = true → L.indexOf c ≤ L.indexOf a
  | [], h, _, _ => by simp at h
  | x :: L, h, ha, hp => by
    rw [List.filter_cons] at h
    by_cases hx : p x = true
    · rw [if_pos hx, List.head?_cons, Option.some.injEq] at h
      rw [h, List.indexOf_cons_self]
      exact Nat.zero_le _
    · rw [if_neg hx] at h
      have hax : x ≠ a := fun e => hx (e ▸ hp)
      rw [List.indexOf_cons_ne _ hax]
      by_cases hcx : x = c
      · rw [List.indexOf_cons_eq _ hcx]; exact Nat.zero_le _
      · rw [List.indexOf_cons_ne _ hcx]
        exact Nat.succ_le_succ (indexOf_le_of_head_filter h ((List.mem_cons.mp ha).resolve_left hax.symm) hp)

theorem key_eq_iff {a b : DirEntry} : a.key = b.key ↔ a.name = b.name ∧ a.type = b.type := by
  rw [DirEntry.key, DirEntry.key, toLex_inj, Prod.mk.injEq, byteKey_injective.eq_iff, ← CStr.ext_iff]

theorem key_le_iff {a b : DirEntry} (h : a.name = b.name) : a.key ≤ b.key ↔ a.type ≤ b.type := by
  rw [DirEntry.key, DirEntry.key, Prod.Lex.le_iff, h]
  simp

theorem filter_key_of_name {c : DirEntry} {n : CStr} (hc : c.name = n) (L : List DirEntry) :
    (L.filter fun e => decide (e.name = n)).filter (fun e => decide (e.key = c.key)) =
      L.filter fun e => decide (e.key = c.key) := by
  rw [List.filter_filter]
  refine List.filter_congr fun e _ => ?_
  by_cases h : e.key = c.key
  · simp [h, (key_eq_iff.mp h).1, hc]
  · simp [h]

/-- After the sort, the entries of a name are those of the list, and the
first of them is the first of least type in the list. -/
theorem dirListSort_filter_name (l : List DirEntry) (n : CStr) :
    ((dirListSort l).filter fun e => decide (e.name = n)).Perm (l.filter fun e => decide (e.name = n)) ∧
      ((dirListSort l).filter fun e => decide (e.name = n)).head? =
        (l.filter fun e => decide (e.name = n)).argmin DirEntry.type := by
  obtain ⟨hp, hsort, hstab⟩ := dirListSort_spec l
  have hperm := hp.filter (fun e => decide (e.name = n))
  refine ⟨hperm, ?_⟩
  generalize ht : (dirListSort l).filter (fun e => decide (e.name = n)) = t at hperm
  cases t with
  | nil => rw [← List.Perm.nil_eq hperm]; rfl
  | cons c cs =>
    have hname : ∀ a ∈ c :: cs, a.name = n := fun a ha => by
      rw [← ht, List.mem_filter] at ha
      exact of_decide_eq_true ha.2
    have hpw : (c :: cs).Pairwise fun a b => a.key ≤ b.key := by
      rw [← ht]
      exact (List.pairwise_map.mp hsort).sublist (List.filter_sublist _)
    have hmin : ∀ a ∈ c :: cs, c.type ≤ a.type := by
      intro a ha
      rcases List.mem_cons.mp ha with rfl | ha
      · exact le_rfl
      · exact (key_le_iff ((hname c (List.mem_cons_self _ _)).trans (hname a (List.mem_cons_of_mem _ ha)).symm)).mp
          (List.rel_of_pairwise_cons hpw ha)
    -- `c` is the first entry of its key in the list
    have hhead : ((l.filter fun e => decide (e.name = n)).filter fun e => decide (e.key = c.key)).head? = some c := by
      have hc := hname c (List.mem_cons_self _ _)
      rw [filter_key_of_name hc, ← hstab, ← filter_key_of_name hc, ht, List.filter_cons, if_pos (by simp)]
      rfl
    rw [List.head?_cons, eq_comm, List.argmin_eq_some_iff]
    refine ⟨hperm.subset (List.mem_cons_self _ _), fun a ha => hmin a (hperm.symm.subset ha), fun a ha hle => ?_⟩
    have hk : a.key = c.key := key_eq_iff.mpr
      ⟨(hname a (hperm.symm.subset ha)).trans (hname c (List.mem_cons_self _ _)).symm,
        le_antisymm hle (hmin a (hperm.symm.subset ha))⟩
    exact indexOf_le_of_head_filter hhead ha (by simp [hk])

theorem byteKey_le_of_key_le {a b : DirEntry} (h : a.key ≤ b.key) : byteKey a.name.bytes ≤ byteKey b.name.bytes := by
  rw [DirEntry.key, DirEntry.key, Prod.Lex.le_iff] at h
  rcases h with h | ⟨h, -⟩
  · exact le_of_lt h
  · exact le_of_eq h

/-- What `dir_list_close` leaves of the entries of a name: those of the
sorted list, the first as it was and the others cleared. -/
theorem dirListClose_filter_name {getHash : List UInt8 → UInt32} {l : List DirEntry}
    (hh : ∀ e ∈ l, e.hash = getHash e.name.bytes) (n : CStr) :
    (dirListClose l).filter (fun e => decide (e.name = n)) =
      keepFirst ((dirListSort l).filter fun e => decide (e.name = n)) := by
  obtain ⟨hp, hsort, -⟩ := dirListSort_spec l
  exact markDuplicates_filter n (fun e he => hh e (hp.subset he))
    ((List.pairwise_map.mp hsort).imp byteKey_le_of_key_le)

/-- The duplicate loop changes only `valid` flags. -/
theorem markDuplicatesFrom_clear : ∀ (p : DirEntry) (rest : List DirEntry),
    (markDuplicatesFrom p rest).map (fun e => { e with valid := 0 }) = rest.map fun e => { e with valid := 0 }
  | _, [] => rfl
  | p, e :: rest => by
    simp only [markDuplicatesFrom, List.map_cons, markDuplicatesFrom_clear]
    split_ifs <;> rfl

theorem markDuplicatesFrom_key : ∀ (p : DirEntry) (rest : List DirEntry),
    (markDuplicatesFrom p rest).map DirEntry.key = rest.map DirEntry.key
  | _, [] => rfl
  | p, e :: rest => by
    simp only [markDuplicatesFrom, List.map_cons, markDuplicatesFrom_key]
    split_ifs <;> rfl

theorem markDuplicates_key (l : List DirEntry) : (markDuplicates l).map DirEntry.key = l.map DirEntry.key := by
  cases l <;> simp [markDuplicates, markDuplicatesFrom_key]

/-- The duplicate test does not read `valid`, so a second duplicate loop
clears what the first cleared. -/
theorem markDuplicatesFrom_idem : ∀ (p : DirEntry) (l : List DirEntry),
    markDuplicatesFrom p (markDuplicatesFrom p l) = markDuplicatesFrom p l
  | _, [] => rfl
  | p, e :: rest => by
    have hd : isDuplicate p { e with valid := 0 } = isDuplicate p e := rfl
    by_cases h : isDuplicate p e
    · simp only [markDuplicatesFrom, if_pos h, hd]
      exact congrArg _ (markDuplicatesFrom_idem _ rest)
    · simp only [markDuplicatesFrom, if_neg h]
      exact congrArg _ (markDuplicatesFrom_idem _ rest)

/-- Closing a closed list changes nothing: the list is in order, so the sort
makes no swap, and the duplicate loop clears again what it cleared. -/
theorem dirListClose_idem (l : List DirEntry) : dirListClose (dirListClose l) = dirListClose l := by
  have hs := (dirListSort_spec l).2.1
  cases hl : dirListSort l with
  | nil => simp [dirListClose, hl, markDuplicates, dirListSort]
  | cons e rest =>
    rw [hl] at hs
    rw [dirListClose, dirListClose, hl, dirListSort_of_sorted (by rw [markDuplicates_key]; exact hs)]
    simp only [markDuplicates, markDuplicatesFrom_idem]

/-- `dir_list_close` ends: its sort ends with a permutation of the entries,
sorted by name in `strcmp` order and then by type, in which the entries of
equal keys keep their order; the duplicate loop after it changes only
`valid` flags. -/
theorem dir_list_close_sorts (l : List DirEntry) :
    (dirListSort l).Perm l ∧ ((dirListSort l).map DirEntry.key).Sorted (· ≤ ·) ∧
      (∀ k, (dirListSort l).filter (fun e => decide (e.key = k)) = l.filter fun e => decide (e.key = k)) ∧
      (dirListClose l).map (fun e => { e with valid := 0 }) = (dirListSort l).map fun e => { e with valid := 0 } := by
  refine ⟨(dirListSort_spec l).1, (dirListSort_spec l).2.1, (dirListSort_spec l).2.2, ?_⟩
  rw [dirListClose]
  cases dirListSort l with
  | nil => rfl
  | cons e rest => simp only [markDuplicates, List.map_cons, markDuplicatesFrom_clear]

/-- For entries whose hashes are `get_hash` of their names, after
`dir_list_close` the entries of each name are the first entry of least type
of that name in the list, as it was, followed by the others of that name with
`valid = 0`. -/
theorem dir_list_close_keeps_first (getHash : List UInt8 → UInt32) (l : List DirEntry)
    (hh : ∀ e ∈ l, e.hash = getHash e.name.bytes) (n : CStr) (c : DirEntry)
    (hc : (l.filter fun e => decide (e.name = n)).argmin DirEntry.type = some c) :
    ∃ cs : List DirEntry, (dirListClose l).filter (fun e => decide (e.name = n)) = c :: cs.map (fun e => { e with valid := 0 }) ∧
      cs.Perm ((l.filter fun e => decide (e.name = n)).erase c) := by
  obtain ⟨hperm, hhead⟩ := dirListSort_filter_name l n
  rw [dirListClose_filter_name hh n]
  rw [hc] at hhead
  generalize (dirListSort l).filter (fun e => decide (e.name = n)) = t at hperm hhead
  cases t with
  | nil => cases hhead
  | cons c' cs =>
    obtain rfl : c' = c := Option.some.inj hhead
    exact ⟨cs, rfl, by simpa using hperm.erase c'⟩

theorem dir_list_close_keeps_first_passthrough :
    let a : CStr := ⟨lit "a", by decide⟩
    let l : List DirEntry := [⟨a, 0, 0, DIR_E_RAR, 1⟩, ⟨a, 0, 1, DIR_E_NRM, 1⟩]
    (∀ e ∈ l, e.hash = (fun _ => 0 : List UInt8 → UInt32) e.name.bytes) ∧
      (l.filter fun e => decide (e.name = a)).argmin DirEntry.type = some ⟨a, 0, 1, DIR_E_NRM, 1⟩ ∧
      ∃ cs : List DirEntry, (dirListClose l).filter (fun e => decide (e.name = a)) =
          ⟨a, 0, 1, DIR_E_NRM, 1⟩ :: cs.map (fun e => { e with valid := 0 }) ∧
        cs.Perm ((l.filter fun e => decide (e.name = a)).erase ⟨a, 0, 1, DIR_E_NRM, 1⟩) :=
  ⟨by decide, by decide, dir_list_close_keeps_first (fun _ => 0) _ (by decide) _ _ (by decide)⟩

/-! ## Lists built by `dir_entry_add` -/

section
variable {getHash : List UInt8 → UInt32}

end

/-- `dir_entry_add` of a passthrough `a` after an archive-backed `a` returns
the archive-backed entry and adds nothing, so the valid entry of `a` after
`dir_list_close` is archive-backed. -/
theorem archive_entry_added_first_wins :
    let a : CStr := ⟨lit "a", by decide⟩
    buildAndAppend (fun _ => 0) [⟨a, 0, DIR_E_RAR, true, true⟩, ⟨a, 1, DIR_E_NRM, true, true⟩] [] =
        some ([a, a], [⟨a, 0, 0, DIR_E_RAR, 1⟩]) ∧
      dirListClose [⟨a, 0, 0, DIR_E_RAR, 1⟩] = [⟨a, 0, 0, DIR_E_RAR, 1⟩] := by
  refine ⟨by decide, ?_⟩
  rw [dirListClose, dirListSort_cons]
  decide

end Rar2fs.DirList
