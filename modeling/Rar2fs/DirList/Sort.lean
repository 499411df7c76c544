import Rar2fs.DirList.Entry

/-!
# The bubble sort of `dir_list_close`

`dir_list_close` sorts the entries by name in `strcmp` order, then by type
(`DirEntry.key`), with passes of `swap` over adjacent entries until a pass
makes no swap. `swap` exchanges two entries exactly when the first has the
greater key (`swap_eq`), so a pass with `n` swaps removes `n` pairs out of
order (`bubblePass_perm`): the loop ends (`dirListSort`), and it ends with a
sorted permutation of the entries in which the entries of each key keep their
order (`dirListSort_spec`).
-/

namespace Rar2fs.DirList

/-- The order `dir_list_close` sorts by: the name in `strcmp` order, then the type. -/
def DirEntry.key (e : DirEntry) : Lex (List ℕ × Int) := toLex (byteKey e.name.bytes, e.type)

/-- `swap(A, B)`: the entries exchanged, and `1`, when `A` comes after `B`. -/
def swap (a b : DirEntry) : ℕ × DirEntry × DirEntry :=
  let s := strcmp a.name.bytes b.name.bytes
  let s := if s = 0 then (if a.type > b.type then 1 else 0) else s
  if s > 0 then (1, b, a) else (0, a, b)

/-- One pass of the `do` loop of `dir_list_close`, from the entry `next`
holds: each `swap` of `next` and `next->next`, then `next = next->next`.
The entries after the pass, and `n`, the number of swaps. -/
def bubblePass : DirEntry → List DirEntry → List DirEntry × ℕ
  | x, [] => ([x], 0)
  | x, b :: rest =>
    let s := swap x b
    ((s.2.1 :: (bubblePass s.2.2 rest).1), s.1 + (bubblePass s.2.2 rest).2)

/-- The pairs of entries out of order. -/
def inversions : List DirEntry → ℕ
  | [] => 0
  | a :: l => l.countP (fun b => decide (b.key < a.key)) + inversions l

theorem swap_eq (a b : DirEntry) : swap a b = if b.key < a.key then (1, b, a) else (0, a, b) := by
  have ha := a.name.nul_free
  have hb := b.name.nul_free
  simp only [swap, DirEntry.key, Prod.Lex.lt_iff, gt_iff_lt]
  by_cases h0 : strcmp a.name.bytes b.name.bytes = 0
  · have he : a.name.bytes = b.name.bytes := (strcmp_eq_zero_iff ha hb).mp h0
    simp only [h0, if_true]
    simp only [he, lt_self_iff_false, true_and, false_or]
    split_ifs <;> first | rfl | omega
  · have hne : byteKey b.name.bytes ≠ byteKey a.name.bytes := fun e =>
      h0 ((strcmp_eq_zero_iff ha hb).mpr (byteKey_injective e).symm)
    simp only [h0, if_false, hne, false_and, or_false, strcmp_pos_iff ha hb]

theorem bubblePass_cons (x b : DirEntry) (rest : List DirEntry) :
    bubblePass x (b :: rest) =
      if b.key < x.key then (b :: (bubblePass x rest).1, 1 + (bubblePass x rest).2)
      else (x :: (bubblePass b rest).1, (bubblePass b rest).2) := by
  rw [bubblePass, swap_eq]
  split_ifs
  · rfl
  · exact congrArg _ (Nat.zero_add _)

theorem bubblePass_perm (x : DirEntry) (l : List DirEntry) :
    (bubblePass x l).1.Perm (x :: l) ∧ inversions (bubblePass x l).1 + (bubblePass x l).2 = inversions (x :: l) := by
  induction l generalizing x with
  | nil => exact ⟨.refl _, rfl⟩
  | cons b rest ih =>
    rw [bubblePass_cons]
    split_ifs with h
    · obtain ⟨hp, hi⟩ := ih x
      refine ⟨(hp.cons b).trans (List.Perm.swap x b rest), ?_⟩
      have hc := hp.countP_eq fun e => decide (e.key < b.key)
      have hx : ¬ x.key < b.key := lt_asymm h
      simp only [inversions, List.countP_cons, h, hx, decide_True, decide_False, if_true, if_false,
        Bool.false_eq_true] at hc hi ⊢
      omega
    · obtain ⟨hp, hi⟩ := ih b
      refine ⟨hp.cons x, ?_⟩
      have hc := hp.countP_eq fun e => decide (e.key < x.key)
      simp only [inversions, List.countP_cons, h, decide_False, if_false, Bool.false_eq_true] at hc hi ⊢
      omega

/-- A pass exchanges only entries whose keys differ: the entries of one key
stay in their order. -/
theorem bubblePass_filter (k : Lex (List ℕ × Int)) (x : DirEntry) (l : List DirEntry) :
    (bubblePass x l).1.filter (fun e => decide (e.key = k)) = (x :: l).filter (fun e => decide (e.key = k)) := by
  induction l generalizing x with
  | nil => rfl
  | cons b rest ih =>
    rw [bubblePass_cons]
    split_ifs with h
    · have hx := ih x
      simp only [List.filter_cons] at hx ⊢
      rw [hx]
      by_cases hb : b.key = k
      · have : x.key ≠ k := fun e => (e ▸ hb ▸ h).false
        simp [hb, this]
      · by_cases hxk : x.key = k <;> simp [hb, hxk]
    · simp only [List.filter_cons] at ih ⊢
      rw [ih b]

/-- A pass without a swap leaves the entries as they are, and they are in order. -/
theorem bubblePass_of_zero {x : DirEntry} {l : List DirEntry} (h : (bubblePass x l).2 = 0) :
    (bubblePass x l).1 = x :: l ∧ (x :: l).Chain' fun a b => a.key ≤ b.key := by
  induction l generalizing x with
  | nil => exact ⟨rfl, List.chain'_singleton x⟩
  | cons b rest ih =>
    rw [bubblePass_cons] at h ⊢
    split_ifs at h ⊢ with hb
    · omega
    · obtain ⟨e, hc⟩ := ih h
      exact ⟨by rw [e], List.Chain'.cons (not_lt.mp hb) hc⟩

theorem inversions_bubblePass_lt {x : DirEntry} {l : List DirEntry} (h : (bubblePass x l).2 ≠ 0) :
    inversions (bubblePass x l).1 < inversions (x :: l) := by
  have := (bubblePass_perm x l).2
  omega

/-- The sorting loop of `dir_list_close`: passes over the entries until one
makes no swap. Each pass with a swap removes as many pairs out of order as it
makes swaps (`bubblePass_perm`), so the loop ends. -/
def dirListSort : List DirEntry → List DirEntry
  | [] => []
  | x :: rest =>
    if (bubblePass x rest).2 ≠ 0 then dirListSort (bubblePass x rest).1 else (bubblePass x rest).1
termination_by l => inversions l
decreasing_by exact inversions_bubblePass_lt ‹_›

theorem dirListSort_cons (x : DirEntry) (rest : List DirEntry) :
    dirListSort (x :: rest) =
      if (bubblePass x rest).2 ≠ 0 then dirListSort (bubblePass x rest).1 else (bubblePass x rest).1 := by
  rw [dirListSort]

/-- The sorting loop of `dir_list_close` ends with a permutation of the
entries, sorted by name and type, in which the entries of each key keep their
order. -/
theorem dirListSort_spec (l : List DirEntry) :
    (dirListSort l).Perm l ∧ ((dirListSort l).map DirEntry.key).Sorted (· ≤ ·) ∧
      ∀ k, (dirListSort l).filter (fun e => decide (e.key = k)) = l.filter (fun e => decide (e.key = k)) := by
  induction l using dirListSort.induct with
  | case1 => rw [dirListSort]; exact ⟨.nil, List.sorted_nil, fun _ => rfl⟩
  | case2 x rest h ih =>
    rw [dirListSort_cons, if_pos h]
    obtain ⟨hp, hs, hf⟩ := ih
    exact ⟨hp.trans (bubblePass_perm x rest).1, hs, fun k => (hf k).trans (bubblePass_filter k x rest)⟩
  | case3 x rest h =>
    rw [dirListSort_cons, if_neg h]
    obtain ⟨e, hc⟩ := bubblePass_of_zero (not_not.mp h)
    rw [e]
    exact ⟨.refl _, List.chain'_iff_pairwise.mp ((List.chain'_map _).mpr hc), fun _ => rfl⟩

section
variable {x : DirEntry} {l : List DirEntry}

/-- A pass over entries in order makes no swap. -/
theorem bubblePass_of_sorted (h : ((x :: l).map DirEntry.key).Sorted (· ≤ ·)) : bubblePass x l = (x :: l, 0) := by
  induction l generalizing x with
  | nil => rfl
  | cons b rest ih =>
    rw [List.map_cons, List.sorted_cons] at h
    rw [bubblePass_cons, if_neg (not_lt.mpr (h.1 b.key (List.mem_cons_self _ _))), ih h.2]

/-- The sort leaves entries in order as they are. -/
theorem dirListSort_of_sorted (h : (l.map DirEntry.key).Sorted (· ≤ ·)) : dirListSort l = l := by
  cases l with
  | nil => rw [dirListSort]
  | cons x rest => rw [dirListSort_cons, bubblePass_of_sorted h, if_neg fun h => h rfl]

theorem inversions_of_sorted (h : (l.map DirEntry.key).Sorted (· ≤ ·)) : inversions l = 0 := by
  induction l with
  | nil => rfl
  | cons a l ih =>
    rw [List.map_cons, List.sorted_cons] at h
    rw [inversions, ih h.2, List.countP_eq_zero.mpr fun b hb => by
      simpa using h.1 b.key (List.mem_map_of_mem _ hb)]

end

end Rar2fs.DirList
