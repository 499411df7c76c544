import Rar2fs.DirList.HeapAdd
import Rar2fs.DirList.HeapClose

/-!
# The life of a directory list

A caller builds a list with calls of `dir_entry_add`, from `NULL` or from the
head of a list it holds, then sorts it with `dir_list_close` and frees it with
`dir_list_free`, which frees the nodes after the head and never the head
itself. Over every sequence of calls and every outcome of their allocations,
the list leaks nothing: at the end every cell that it held or took, other
than its head, is freed, and every other cell of the heap is as it was
(`list_life_frees`).
-/

namespace Rar2fs.DirList

/-- There are at most `n * n` pairs out of order, so as many passes of
`dir_list_close` end its sort. -/
theorem inversions_le (l : List DirEntry) : inversions l ≤ l.length * l.length := by
  induction l with
  | nil => exact le_rfl
  | cons a l ih =>
    have := List.countP_le_length (fun b => decide (b.key < a.key)) (l := l)
    simp only [inversions, List.length_cons, Nat.succ_mul, Nat.mul_succ]
    omega

namespace Heap

/-! ## A list after `dir_list_free` -/

/-- `dir_list_free` of a list with named entries, given enough fuel, frees
its nodes. -/
theorem ListAt.dirListFree_eq {h : Heap} {root fuel : ℕ} {as : List ℕ} {es : List DirEntry}
    (hl : ListAt h root as es) (hf : as.length ≤ fuel) : dirListFree fuel h root = some (as.foldl free h) := by
  obtain ⟨n, hr, hs, he⟩ := hl
  rw [dirListFree, hr, Option.some_bind, freeLoop_seg hs (fun _ => Ptr.noConfusion) (entries_names he),
    if_pos ⟨rfl, hf⟩]

/-- The head at `root` points at the cell `a`, which is freed. -/
def Dangles (h : Heap) (root a : ℕ) : Prop :=
  ∃ n, h.read root = some n ∧ n.next = .addr a ∧ h.read a = none

section
variable {h : Heap} {root a : ℕ}

theorem Dangles.dirListFree (hd : Dangles h root a) (fuel : ℕ) : dirListFree fuel h root = none := by
  obtain ⟨n, hr, hn, ha⟩ := hd
  cases fuel <;> simp [Heap.dirListFree, freeLoop, hr, hn, ha]

theorem Dangles.dirListClose (hd : Dangles h root a) (fuel passes : ℕ) : dirListClose fuel passes h root = none := by
  obtain ⟨n, hr, hn, ha⟩ := hd
  cases passes <;> cases fuel <;> simp [Heap.dirListClose, sortLoop, passLoop, hr, hn, ha]

theorem Dangles.dirEntryAdd (hd : Dangles h root a) (getHash : List UInt8 → UInt32) (fuel : ℕ) (key : CStr)
    (st : ℕ) (type : Int) (mallocOk strdupOk : Bool) :
    dirEntryAdd getHash fuel h root key st type mallocOk strdupOk = none := by
  obtain ⟨n, hr, hn, ha⟩ := hd
  cases fuel <;> simp [Heap.dirEntryAdd, searchLoop, hr, hn, ha]

theorem Dangles.dirListAppend (hd : Dangles h root a) (ok : ℕ → Bool × Bool) (fuel list2 : ℕ) :
    dirListAppend ok fuel h root list2 = none := by
  obtain ⟨n, hr, hn, ha⟩ := hd
  cases fuel <;> simp [Heap.dirListAppend, lastNode, hr, hn, ha]

end

/-- `dir_list_free` frees the nodes of a list but leaves its head pointing at
the first of them: until `dir_list_open` resets the head, a second
`dir_list_free`, a `dir_list_close`, a `dir_entry_add` or a
`dir_list_append` onto the list reads freed memory. After `dir_list_open` the
head holds the empty list. -/
theorem dirListFree_leaves_dangling {h : Heap} {root fuel a : ℕ} {as : List ℕ} {es : List DirEntry}
    (hl : ListAt h root (a :: as) es) (hf : as.length < fuel) :
    ∃ h', dirListFree fuel h root = some h' ∧
      (∀ fuel', dirListFree fuel' h' root = none) ∧
      (∀ fuel' passes, dirListClose fuel' passes h' root = none) ∧
      (∀ getHash fuel' key st type mallocOk strdupOk,
        dirEntryAdd getHash fuel' h' root key st type mallocOk strdupOk = none) ∧
      (∀ ok fuel' list2, dirListAppend ok fuel' h' root list2 = none) ∧
      ∃ h'', dirListOpen h' root = some h'' ∧ ListAt h'' root [] [] := by
  have hroot := hl.root_not_mem
  have hfree := hl.dirListFree_eq hf
  obtain ⟨n, hr, hs, -⟩ := hl
  have hr' : ((a :: as).foldl free h).read root = some n := by rw [read_foldl_free, if_neg hroot, hr]
  have hd : Dangles ((a :: as).foldl free h) root a :=
    ⟨n, hr', hs.cons_inv.1, by rw [read_foldl_free, if_pos (List.mem_cons_self _ _)]⟩
  refine ⟨_, hfree, hd.dirListFree, hd.dirListClose, fun _ => hd.dirEntryAdd _, hd.dirListAppend, _,
    by rw [dirListOpen, hr']; rfl, _, read_write_self (lt_length_of_read hr'), .nil _, rfl⟩

/-- After a list of one node is freed. -/
theorem dirListFree_leaves_dangling_one :
    let x : CStr := ⟨lit "x", by decide⟩
    let H : Heap := [some ⟨.null, 0, 0, 0, 0, .addr 1⟩, some ⟨.str x, 0, 0, DIR_E_NRM, 1, .null⟩]
    ListAt H 0 [1] [⟨x, 0, 0, DIR_E_NRM, 1⟩] ∧ ([] : List ℕ).length < 1 ∧
      ∃ h', dirListFree 1 H 0 = some h' ∧
        (∀ fuel', dirListFree fuel' h' 0 = none) ∧
        (∀ fuel' passes, dirListClose fuel' passes h' 0 = none) ∧
        (∀ getHash fuel' key st type mallocOk strdupOk,
          dirEntryAdd getHash fuel' h' 0 key st type mallocOk strdupOk = none) ∧
        (∀ ok fuel' list2, dirListAppend ok fuel' h' 0 list2 = none) ∧
        ∃ h'', dirListOpen h' 0 = some h'' ∧ ListAt h'' 0 [] [] := by
  intro x H
  have hl : ListAt H 0 [1] [⟨x, 0, 0, DIR_E_NRM, 1⟩] := ⟨_, rfl, .cons rfl (.nil _), rfl⟩
  exact ⟨hl, by decide, dirListFree_leaves_dangling hl (by decide)⟩

/-- The life of a list: calls of `dir_entry_add` by a caller that holds `NULL`
or a head, with every outcome of their allocations, then, when the caller
holds a head, `dir_list_close` and `dir_list_free` on it, with fuel for every
walk and passes for the sort. At the end every cell that the list held or
took, other than its head, is freed, and every other cell is as it was. -/
theorem list_life_frees (getHash : List UInt8 → UInt32) (calls : List (AddCall × Bool)) {h : Heap}
    {σ : Option ℕ} {s : Option (List DirEntry)} {as : List ℕ} {fuel passes : ℕ} (hR : Holds h σ s as)
    (hf : as.length + calls.length ≤ fuel) (hp : fuel * fuel < passes) :
    ∃ ptrs σ' h₁ h₃, runCalls getHash fuel (σ, h) calls = some (ptrs, σ', h₁) ∧
      (match σ' with
        | none => h₃ = h₁
        | some root => ∃ h₂, dirListClose fuel passes h₁ root = some h₂ ∧ dirListFree fuel h₂ root = some h₃) ∧
      (∀ x < h.length, x ∉ σ.toList ++ as → h₃.read x = h.read x) ∧
      ∀ x, x ∉ σ'.toList → h.length ≤ x ∨ x ∈ as → h₃.read x = none := by
  obtain ⟨σ', h₁, as', hrun, hR', g, hlen⟩ := runCalls_refines getHash calls hR hf
  have hgone : ∀ x, x ∉ σ'.toList ++ as' → h.length ≤ x ∨ x ∈ as → h₁.read x = none := by
    intro x hx hin
    rcases hin with hin | hin
    · by_cases hl : x < h₁.length
      · exact (g.taken x hin hl).resolve_left hx
      · exact read_of_length_le (by omega)
    · exact absurd (List.mem_append_right _ (g.grow.subset hin)) hx
  cases σ' with
  | none =>
    cases hs : (DirList.runCalls (DirList.addStep getHash) s calls).2 <;> rw [hs] at hR' <;>
      simp only [Holds] at hR'
    subst hR'
    exact ⟨_, none, h₁, h₁, hrun, rfl, fun x hx hn => g.frame x hx hn, fun x _ => hgone x (by simp)⟩
  | some root =>
    cases hs : (DirList.runCalls (DirList.addStep getHash) s calls).2 <;> rw [hs] at hR' <;>
      simp only [Holds] at hR'
    rename_i es
    have hf' : as'.length ≤ fuel := by omega
    have hp' : inversions es < passes := by
      have := Nat.mul_le_mul hf' hf'
      rw [length_of_entries hR'.choose_spec.2.2] at this
      have := inversions_le es
      omega
    obtain ⟨h₂, hclose, ⟨r, hr, hs₂, he₂⟩, rel⟩ := dirListClose_refines hR' hf' hp'
    have hfree := ListAt.dirListFree_eq ⟨r, hr, hs₂, he₂⟩ hf'
    refine ⟨_, some root, h₁, _, hrun, ⟨h₂, hclose, hfree⟩, fun x hx hn => ?_, fun x hx hin => ?_⟩
    · have hx' : x ∉ as' := fun hm => (g.fresh x (List.mem_append_right _ hm)).elim hn (by omega)
      rw [read_foldl_free, if_neg hx', rel.read_of_not_mem x hx', g.frame x hx hn]
    · rw [read_foldl_free]
      split_ifs with hm
      · rfl
      · rw [rel.read_of_not_mem x hm]
        exact hgone x (by simp [hm, show x ≠ root by simpa using hx]) hin

/-- From `NULL`: a call that allocates the head and adds `a`, a call whose copy
of `b` fails, and a call that finds `a`; then `dir_list_close` and
`dir_list_free`. -/
theorem list_life_frees_from_null :
    let a : CStr := ⟨lit "a", by decide⟩
    let b : CStr := ⟨lit "b", by decide⟩
    let calls : List (AddCall × Bool) :=
      [(⟨a, 1, DIR_E_RAR, true, true⟩, true), (⟨b, 2, DIR_E_NRM, true, false⟩, true),
        (⟨a, 3, DIR_E_NRM, true, true⟩, true)]
    Holds [] none none [] ∧ ([] : List ℕ).length + calls.length ≤ 3 ∧ 3 * 3 < 10 ∧
      ∃ ptrs σ' h₁ h₃, runCalls (fun _ => 0) 3 (none, []) calls = some (ptrs, σ', h₁) ∧
        (match σ' with
          | none => h₃ = h₁
          | some root => ∃ h₂, dirListClose 3 10 h₁ root = some h₂ ∧ dirListFree 3 h₂ root = some h₃) ∧
        (∀ x < ([] : Heap).length, x ∉ (none : Option ℕ).toList ++ [] → h₃.read x = read [] x) ∧
        ∀ x, x ∉ σ'.toList → ([] : Heap).length ≤ x ∨ x ∈ ([] : List ℕ) → h₃.read x = none :=
  ⟨rfl, le_rfl, by decide, list_life_frees (fun _ => 0) _ (show Holds [] none none [] from rfl) le_rfl (by decide)⟩

end Heap

end Rar2fs.DirList
