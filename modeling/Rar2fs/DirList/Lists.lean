import Rar2fs.DirList.Lifecycle

/-!
# Several lists in one heap

Callers hold several lists in one heap at once, each in a variable that
holds `NULL` or a head, and call on them `dir_entry_add` (which makes a list
when the variable holds `NULL`), `dir_list_close`, `dir_list_append`,
`dir_list_dup`, and `dir_list_free` followed by the `free` of the head, as
`dir_list_dup` does with a head of its own. `Heap.step` is such a call on
the heap, with as much fuel for every walk as the heap has cells; `absStep`
is the call on the entries of the lists.

* `Heap.HeldLists`: every list held is well formed, no two lists share a
  cell, and every cell in use is a cell of a list held;
* `Heap.step_refines`, `Heap.run_refines`: from such a heap, for every
  sequence of calls and every outcome of their allocations where the
  entry-level calls are defined, the heap-level calls return, keep `HeldLists`,
  and leave in each variable the list of entries the entry-level calls give.

The entry-level calls are undefined where the code does not return or
leaves a list that is not well formed: a list appended to itself, a `NULL`
argument that the code reads through, and a `strdup` that fails in
`dir_list_append` or `dir_list_dup` (`strdup_failure_chains`).
-/

namespace Rar2fs.DirList

/-- A call on the lists held in the variables `0, 1, …` of a caller. `dup`
puts the copy in a new variable. -/
inductive Op
  | add (i : ℕ) (c : AddCall) (headOk : Bool)
  | close (i : ℕ)
  | free (i : ℕ)
  | append (i j : ℕ) (ok : ℕ → Bool × Bool)
  | dup (i : ℕ) (ok : ℕ → Bool × Bool) (rootOk : Bool)

section
variable (getHash : List UInt8 → UInt32)

/-- A call on the entries of the lists held; `none` where the code does not
return or leaves a list that is not well formed. -/
def absStep (L : List (Option (List DirEntry))) : Op → Option (List (Option (List DirEntry)))
  | .add i c headOk => L[i]?.map fun s => L.set i (addStep getHash s c headOk).2
  | .close i => L[i]?.map fun s => s.elim L fun es => L.set i (some (dirListClose es))
  | .free i => L[i]?.bind fun s => s.map fun _ => L.set i none
  | .append i j ok =>
    if i = j then none
    else L[i]?.bind fun s1 => L[j]?.bind fun s2 => s1.bind fun es1 => s2.bind fun es2 =>
      (dirListAppend es1 es2 ok).map fun r => L.set i (some r.2)
  | .dup i ok rootOk => L[i]?.bind fun
    | some es =>
      if rootOk then (appendCopies ok 0 es).map fun r => L ++ [if r.1 then some es else none]
      else some (L ++ [none])
    | none => if rootOk then none else some (L ++ [none])

/-- A sequence of calls on the entries. -/
def absRun : List (Option (List DirEntry)) → List Op → Option (List (Option (List DirEntry)))
  | L, [] => some L
  | L, op :: ops => (absStep getHash L op).bind fun L => absRun L ops

end

namespace Heap

section
variable (getHash : List UInt8 → UInt32)

/-- A call on the heap `h`, with `σs` the variables: the walks get as much
fuel as the heap has cells, and the sort of `dir_list_close` one pass more
than there are pairs of cells. `dir_list_close(NULL)` does nothing, and
`dir_list_dup(NULL)` returns `NULL` when the `malloc` of its head fails. -/
def step : Heap × List (Option ℕ) → Op → Option (Heap × List (Option ℕ))
  | (h, σs), .add i c headOk => σs[i]?.bind fun σ =>
    (addStep getHash h.length (σ, h) c headOk).map fun r => (r.2.2, σs.set i r.2.1)
  | (h, σs), .close i => σs[i]?.bind fun
    | some root => (dirListClose h.length (h.length * h.length + 1) h root).map fun h => (h, σs)
    | none => some (h, σs)
  | (h, σs), .free i => σs[i]?.bind fun σ => σ.bind fun root =>
    (dirListFree h.length h root).map fun h => (h.free root, σs.set i none)
  | (h, σs), .append i j ok => σs[i]?.bind fun σ1 => σs[j]?.bind fun σ2 => σ1.bind fun list1 =>
    σ2.bind fun list2 => (dirListAppend ok h.length h list1 list2).map fun r => (r.2, σs)
  | (h, σs), .dup i ok rootOk => σs[i]?.bind fun
    | some src => (dirListDup ok rootOk h.length h src).map fun r =>
      (r.2, σs ++ [match r.1 with | .addr root => some root | _ => none])
    | none => if rootOk then none else some (h, σs ++ [none])

/-- A sequence of calls on the heap. -/
def run : Heap × List (Option ℕ) → List Op → Option (Heap × List (Option ℕ))
  | s, [] => some s
  | s, op :: ops => (step getHash s op).bind fun s => run s ops

end

/-! ## A list appended to itself -/

/-- Every node of `xs` has a name. -/
def Named (h : Heap) (xs : List ℕ) : Prop := ∀ x ∈ xs, ∃ n s, h.read x = some n ∧ n.name = NamePtr.str s

section
variable {h : Heap} {ok : ℕ → Bool × Bool} {p : Ptr} {next1 t : ℕ} {m : Node} {s : CStr} {xs : List ℕ}

theorem entries_named {es : List DirEntry} (he : entries h xs = some es) : Named h xs := by
  induction xs generalizing es with
  | nil => nofun
  | cons a xs ih =>
    obtain ⟨n, e, es', hr, hv, he', -⟩ := entries_cons_inv he
    exact List.forall_mem_cons.mpr ⟨⟨n, e.name, hr, Node.name_of_view hv⟩, ih he'⟩

theorem Seg.addr_of (hs : Seg h p (.addr t) xs) : ∃ b, p = .addr b := by
  cases hs with
  | nil => exact ⟨t, rfl⟩
  | cons => exact ⟨_, rfl⟩

/-- The walk to the last node runs out of fuel on a longer list. -/
theorem lastNode_short {fuel prev : ℕ} (hs : Seg h p .null xs) (hf : fuel < xs.length) :
    lastNode h fuel prev p = none := by
  induction xs generalizing p fuel prev with
  | nil => exact absurd hf (Nat.not_lt_zero _)
  | cons a xs ih =>
    obtain ⟨rfl, n, hr, hs⟩ := hs.cons_inv
    cases fuel with
    | zero => rfl
    | succ fuel => rw [lastNode, hr, Option.some_bind, ih hs (by simpa using hf)]

/-- A turn of the copy loop of `dir_list_append` whose node to copy is the
node it links after: the copy takes the `next` just written, which points at
the copy itself. -/
theorem copyLoop_copy_self {fuel i : ℕ} (hm : h.read next1 = some m) (hs : m.name = .str s)
    (hok : ok i = (true, true)) :
    copyLoop ok (fuel + 1) i h next1 (.addr next1) =
      copyLoop ok fuel (i + 1) (link h next1 m { m with next := .addr h.length }) h.length (.addr h.length) := by
  have hlt := lt_length_of_read hm
  have hm' : { m with next := .addr h.length, name := .str s } = { m with next := .addr h.length } := by
    cases m; cases hs; rfl
  simp [copyLoop, malloc, hok, setNext, read_append_of_lt _ hlt, hm,
    read_write_self (show next1 < (h ++ [some Node.fresh]).length by simp; omega), hs, strdup, link, hm']

/-- From a node `next2` whose chain reaches the node `next1` the copy loop
links after, the loop never ends while every allocation succeeds: each copy
takes the `next` of the node it copies, so the chain from the node to copy
always reaches the node linked last. -/
theorem copyLoop_chases (hok : ∀ i, ok i = (true, true)) :
    ∀ (fuel i : ℕ) {h : Heap} {next1 next2 : ℕ} {xs : List ℕ} {m : Node}, Seg h (.addr next2) (.addr next1) xs →
      next1 ∉ xs → h.read next1 = some m → Named h (next1 :: xs) → copyLoop ok fuel i h next1 (.addr next2) = none
  | 0, _, _, _, _, _, _, _, _, _, _ => rfl
  | fuel + 1, i, h, next1, next2, [], m, hs, _, hm, hn => by
    cases hs.eq_of_nil
    obtain ⟨n, s, hr, hsn⟩ := hn next1 (List.mem_cons_self _ _)
    cases hm.symm.trans hr
    rw [copyLoop_copy_self hm hsn (hok i)]
    exact copyLoop_chases hok fuel (i + 1) (.nil _) (List.not_mem_nil _) read_link_self
      (List.forall_mem_singleton.mpr ⟨_, s, read_link_self, hsn⟩)
  | fuel + 1, i, h, next1, next2, a :: xs, m, hs, hx, hm, hn => by
    obtain ⟨ha, n, hr, hs'⟩ := hs.cons_inv
    cases ha
    have hne : next1 ≠ next2 := fun e => hx (e ▸ List.mem_cons_self _ _)
    have hx' : next1 ∉ xs := fun h => hx (List.mem_cons_of_mem _ h)
    obtain ⟨n', s, hr', hsn⟩ := hn next2 (by simp)
    cases hr.symm.trans hr'
    obtain ⟨b, hb⟩ := hs'.addr_of
    rw [copyLoop_copy hm hr hne hsn (hok i), hb]
    rw [hb] at hs'
    have f := frame_link (n := n) hm
    have hread : (link h next1 m n).read next1 = some { m with next := .addr h.length } := by rw [f.read_self, hm]; rfl
    have hlt : ∀ x ∈ xs ++ [next1], x < h.length := fun x hx => by
      rcases List.mem_append.mp hx with hx | hx
      · exact hs'.lt_length x hx
      · rw [List.mem_singleton.mp hx]; exact lt_length_of_read hm
    refine copyLoop_chases hok fuel (i + 1) ((hs'.frame (f.read_of_not_mem hs' hx')).append (.cons hread (.nil _)))
      (fun hmem => lt_irrefl _ (hlt _ hmem)) read_link_self fun x hmem => ?_
    simp only [List.mem_cons, List.mem_append, List.not_mem_nil, or_false] at hmem
    rcases hmem with rfl | hmem | rfl
    · exact ⟨n, s, read_link_self, hsn⟩
    · obtain ⟨n', s', hr'', hs''⟩ := hn x (by simp [hmem])
      exact ⟨n', s', (f.read_of_ne x (hlt x (by simp [hmem])) (fun e => hx' (e ▸ hmem))).trans hr'', hs''⟩
    · obtain ⟨m', s', hr'', hs''⟩ := hn x (List.mem_cons_self _ _)
      cases hm.symm.trans hr''
      exact ⟨_, s', hread, hs''⟩

end

/-- `dir_list_append(l, l)` on a list with a node never returns while every
allocation succeeds: its copy loop walks on into the copies it links. -/
theorem dirListAppend_self_never_returns {h : Heap} {root a : ℕ} {as : List ℕ} {es : List DirEntry}
    (hl : ListAt h root (a :: as) es) {ok : ℕ → Bool × Bool} (hok : ∀ i, ok i = (true, true)) (fuel : ℕ) :
    dirListAppend ok fuel h root root = none := by
  obtain ⟨n, hr, hs, he⟩ := hl
  have hnd := hs.nodup fun _ => Ptr.noConfusion
  by_cases hf : (a :: as).length ≤ fuel
  · obtain ⟨ys, t, hyt⟩ : ∃ ys t, a :: as = ys ++ [t] :=
      ⟨_, _, (List.dropLast_append_getLast (List.cons_ne_nil a as)).symm⟩
    rw [hyt] at hs hnd he hf
    obtain ⟨q, hq, ht⟩ := hs.split
    obtain ⟨rfl, m, hm, -⟩ := ht.cons_inv
    obtain ⟨b, hb⟩ := hq.addr_of
    have hn := entries_named he
    have hlast : (root :: (ys ++ [t])).getLast (List.cons_ne_nil _ _) = t := by simp
    simp only [dirListAppend, hr, Option.some_bind, lastNode_spec hs hf]
    rw [hlast, hb]
    rw [hb] at hq
    exact copyLoop_chases hok fuel 0 hq (fun hty => (List.nodup_append.mp hnd).2.2 hty (List.mem_singleton_self t)) hm
      fun x hx => hn x (by rcases List.mem_cons.mp hx with rfl | hx <;> simp [*])
  · simp [dirListAppend, hr, lastNode_short hs (not_le.mp hf)]

/-- A list of one node appended to itself. -/
theorem dirListAppend_self_never_returns_one :
    let x : CStr := ⟨lit "x", by decide⟩
    let H : Heap := [some ⟨.null, 0, 0, 0, 0, .addr 1⟩, some ⟨.str x, 0, 0, DIR_E_NRM, 1, .null⟩]
    let ok : ℕ → Bool × Bool := fun _ => (true, true)
    ListAt H 0 [1] [⟨x, 0, 0, DIR_E_NRM, 1⟩] ∧ (∀ i, ok i = (true, true)) ∧
      ∀ fuel, dirListAppend ok fuel H 0 0 = none := by
  intro x H ok
  have hl : ListAt H 0 [1] [⟨x, 0, 0, DIR_E_NRM, 1⟩] := ⟨_, rfl, .cons rfl (.nil _), rfl⟩
  exact ⟨hl, fun _ => rfl, dirListAppend_self_never_returns hl (fun _ => rfl)⟩

/-! ## The lists held -/

/-- A list held: its head, its nodes and its entries. -/
structure Held where
  root : ℕ
  nodes : List ℕ
  es : List DirEntry

/-- The cells of a list: its head and its nodes. -/
def Held.cells (x : Held) : List ℕ := x.root :: x.nodes

/-- The cells of what a variable holds. -/
def cellsOf (o : Option Held) : List ℕ := o.elim [] Held.cells

/-- What the variables hold, as pointers. -/
def rootsOf (ls : List (Option Held)) : List (Option ℕ) := ls.map (Option.map Held.root)

/-- What the variables hold, as entries. -/
def entriesOf (ls : List (Option Held)) : List (Option (List DirEntry)) := ls.map (Option.map Held.es)

/-- Every list held is well formed, no two lists share a cell, and every
cell in use is a cell of a list held: nothing leaks. -/
structure HeldLists (h : Heap) (ls : List (Option Held)) : Prop where
  listAt : ∀ (i : ℕ) (x : Held), ls[i]? = some (some x) → ListAt h x.root x.nodes x.es
  disjoint : ∀ (i j : ℕ) (x y : Held), i ≠ j → ls[i]? = some (some x) → ls[j]? = some (some y) →
    x.cells.Disjoint y.cells
  owned : ∀ c, (h.read c).isSome → ∃ (i : ℕ) (x : Held), ls[i]? = some (some x) ∧ c ∈ x.cells

section
variable {h h' : Heap} {σ : Option ℕ} {s : Option (List DirEntry)} {as cs : List ℕ} {ls : List (Option Held)}
  {i : ℕ} {o oi : Option Held} {c : ℕ}

theorem Keeps.refl (h : Heap) (cs : List ℕ) : Keeps h h cs := ⟨le_rfl, fun _ _ _ => rfl⟩

theorem Keeps.mono (k : Keeps h h' as) (hs : as ⊆ cs) : Keeps h h' cs :=
  ⟨k.length_le, fun x hx hn => k.read_eq x hx fun hm => hn (hs hm)⟩

theorem Grows.keeps {h' : Heap} {σ' : Option ℕ} {as' : List ℕ} (g : Grows h σ as h' σ' as') :
    Keeps h h' (σ.toList ++ as) :=
  ⟨g.length_le, g.frame⟩

theorem Relabel.keeps (r : Relabel h h' as) : Keeps h h' as :=
  ⟨r.length_eq.ge, fun x _ hx => r.read_of_not_mem x hx⟩

/-- `dir_list_free` and the `free` of the head change only the cells of the
list, which they free. -/
theorem keeps_free (x : Held) : Keeps h ((x.nodes.foldl free h).free x.root) x.cells := by
  refine ⟨by simp, fun y _ hy => ?_⟩
  simp only [Held.cells, List.mem_cons, not_or] at hy
  rw [read_free_of_ne (Ne.symm hy.1), read_foldl_free, if_neg hy.2]

theorem read_free_cells (x : Held) (hc : c ∈ x.cells) : ((x.nodes.foldl free h).free x.root).read c = none := by
  rcases List.mem_cons.mp hc with rfl | hc
  · exact read_free_self
  · by_cases hcr : c = x.root
    · rw [hcr]; exact read_free_self
    · rw [read_free_of_ne (Ne.symm hcr), read_foldl_free, if_pos hc]

theorem mem_cellsOf : c ∈ cellsOf o ↔ ∃ y, o = some y ∧ c ∈ y.cells := by
  cases o <;> simp [cellsOf]

theorem Holds.of_held (hL : HeldLists h ls) (hi : ls[i]? = some o) :
    Holds h (o.map Held.root) (o.map Held.es) (o.elim [] Held.nodes) := by
  cases o with
  | none => rfl
  | some x => exact hL.listAt i x hi

theorem Holds.held (hR : Holds h σ s as) :
    ∃ o : Option Held, o.map Held.root = σ ∧ o.map Held.es = s ∧ σ.toList ++ as = cellsOf o ∧
      ∀ x, o = some x → ListAt h x.root x.nodes x.es := by
  cases σ <;> cases s <;> simp only [Holds] at hR
  · exact ⟨none, rfl, rfl, by simp [hR, cellsOf], nofun⟩
  · exact ⟨some ⟨_, as, _⟩, rfl, rfl, rfl, fun x hx => by cases hx; exact hR⟩

theorem HeldLists.length_le (hL : HeldLists h ls) (hi : ls[i]? = some o) :
    (o.elim [] Held.nodes).length ≤ h.length := by
  cases o with
  | none => exact Nat.zero_le _
  | some x => exact (hL.listAt i x hi).length_lt.le

/-- The cells of the other lists are not those of the list at `i`. -/
theorem HeldLists.disjoint_cellsOf (hL : HeldLists h ls) (hi : ls[i]? = some o) :
    ∀ j x, j ≠ i → ls[j]? = some (some x) → x.cells.Disjoint (cellsOf o) := by
  intro j x hj hx
  cases o with
  | none => exact List.disjoint_nil_right _
  | some y => exact hL.disjoint j i x y hj hx hi

/-- A list whose cells are cells of `cs` or fresh shares none with a list of
`h` that shares none with `cs`. -/
theorem disjoint_fresh {x y : Held} (hx : ListAt h x.root x.nodes x.es) (hxc : x.cells.Disjoint cs)
    (hy : ∀ c ∈ y.cells, c ∈ cs ∨ h.length ≤ c) : x.cells.Disjoint y.cells := fun c hcx hcy =>
  (hy c hcy).elim (hxc hcx) fun hc => absurd (hx.lt_length c hcx) (not_lt.mpr hc)

/-- A cell in use after a call that keeps the cells outside `cs` is in use
before it, when it is an old cell outside `cs`. -/
theorem Keeps.isSome (k : Keeps h h' cs) (hc : (h'.read c).isSome) (hlt : c < h.length) (hcs : c ∉ cs) :
    (h.read c).isSome := by
  rwa [← k.read_eq c hlt hcs]

/-- A call that changes only the cells of the list at `i`, and leaves there
a list whose cells are its old cells or fresh, every other cell in use being
an old one. -/
theorem HeldLists.set (hL : HeldLists h ls) (hi : ls[i]? = some oi) (k : Keeps h h' (cellsOf oi))
    (o : Option Held)
    (ho : ∀ y, o = some y → ListAt h' y.root y.nodes y.es ∧ ∀ c ∈ y.cells, c ∈ cellsOf oi ∨ h.length ≤ c)
    (hlive : ∀ c, (h'.read c).isSome → c < h.length ∧ c ∉ cellsOf oi ∨ c ∈ cellsOf o) :
    HeldLists h' (ls.set i o) := by
  have hcs := hL.disjoint_cellsOf hi
  have old : ∀ j x, i ≠ j → (ls.set i o)[j]? = some (some x) → ls[j]? = some (some x) := fun j x hij hx => by
    rwa [List.getElem?_set_ne hij] at hx
  have hlen : i < ls.length := (List.getElem?_eq_some_iff.mp hi).1
  have new : ∀ x, (ls.set i o)[i]? = some (some x) → o = some x := fun x hx => by
    rw [List.getElem?_set_self hlen] at hx
    exact Option.some.inj hx
  refine ⟨fun j x hx => ?_, fun j₁ j₂ x₁ x₂ hne h₁ h₂ => ?_, fun c hc => ?_⟩
  · by_cases hij : i = j
    · subst hij; exact (ho x (new x hx)).1
    · exact (hL.listAt j x (old j x hij hx)).keeps k (hcs j x (Ne.symm hij) (old j x hij hx))
  · by_cases hi₁ : i = j₁
    · subst hi₁
      have hi₂ : i ≠ j₂ := hne
      exact (disjoint_fresh (hL.listAt j₂ x₂ (old j₂ x₂ hi₂ h₂)) (hcs j₂ x₂ (Ne.symm hi₂) (old j₂ x₂ hi₂ h₂))
        (ho x₁ (new x₁ h₁)).2).symm
    · by_cases hi₂ : i = j₂
      · subst hi₂
        exact disjoint_fresh (hL.listAt j₁ x₁ (old j₁ x₁ hi₁ h₁)) (hcs j₁ x₁ (Ne.symm hi₁) (old j₁ x₁ hi₁ h₁))
          (ho x₂ (new x₂ h₂)).2
      · exact hL.disjoint j₁ j₂ x₁ x₂ hne (old j₁ x₁ hi₁ h₁) (old j₂ x₂ hi₂ h₂)
  · rcases hlive c hc with ⟨hlt, hnot⟩ | hnew
    · obtain ⟨j, x, hj, hx⟩ := hL.owned c (k.isSome hc hlt hnot)
      have hij : i ≠ j := by
        rintro rfl
        cases hi.symm.trans hj
        exact hnot hx
      exact ⟨j, x, by rwa [List.getElem?_set_ne hij], hx⟩
    · obtain ⟨y, rfl, hy⟩ := mem_cellsOf.mp hnew
      exact ⟨i, y, List.getElem?_set_self hlen, hy⟩

theorem set_of_getElem?_eq {α : Type} {l : List α} {i : ℕ} {a : α} (h : l[i]? = some a) : l.set i a = l := by
  refine List.ext_getElem? fun j => ?_
  by_cases hij : i = j
  · subst hij; rw [List.getElem?_set_self (List.getElem?_eq_some_iff.mp h).1, h]
  · rw [List.getElem?_set_ne hij]

theorem getElem?_concat_eq_some {α : Type} {l : List α} {y a : α} {j : ℕ} (h : (l ++ [y])[j]? = some a) :
    l[j]? = some a ∨ j = l.length ∧ y = a := by
  rcases lt_trichotomy j l.length with hj | rfl | hj
  · exact .inl (by rwa [List.getElem?_append_left hj] at h)
  · rw [List.getElem?_concat_length] at h; exact .inr ⟨rfl, Option.some.inj h⟩
  · rw [List.getElem?_eq_none (by simp; omega)] at h; cases h

/-- A call that changes no cell of a list held, puts in a new variable a list
of fresh cells, and leaves in use no other fresh cell. -/
theorem HeldLists.push (hL : HeldLists h ls) (k : Keeps h h' []) (o : Option Held)
    (ho : ∀ y, o = some y → ListAt h' y.root y.nodes y.es ∧ ∀ c ∈ y.cells, h.length ≤ c)
    (hlive : ∀ c, (h'.read c).isSome → c < h.length ∨ c ∈ cellsOf o) :
    HeldLists h' (ls ++ [o]) := by
  have fresh : ∀ (j : ℕ) (x y : Held), ls[j]? = some (some x) → o = some y → x.cells.Disjoint y.cells :=
    fun j x y hx hy =>
    disjoint_fresh (hL.listAt j x hx) (List.disjoint_nil_right _) fun c hc => .inr ((ho y hy).2 c hc)
  refine ⟨fun j x hx => ?_, fun j₁ j₂ x₁ x₂ hne h₁ h₂ => ?_, fun c hc => ?_⟩
  · rcases getElem?_concat_eq_some hx with hx | ⟨-, rfl⟩
    · exact (hL.listAt j x hx).keeps k (List.disjoint_nil_right _)
    · exact (ho x rfl).1
  · rcases getElem?_concat_eq_some h₁ with h₁ | ⟨rfl, rfl⟩ <;> rcases getElem?_concat_eq_some h₂ with h₂ | ⟨rfl, hy⟩
    · exact hL.disjoint j₁ j₂ x₁ x₂ hne h₁ h₂
    · exact fresh j₁ x₁ x₂ h₁ hy
    · exact (fresh j₂ x₂ x₁ h₂ rfl).symm
    · exact absurd rfl hne
  · rcases hlive c hc with hlt | hnew
    · obtain ⟨j, x, hj, hx⟩ := hL.owned c (k.isSome hc hlt (List.not_mem_nil c))
      exact ⟨j, x, by rwa [List.getElem?_append_left (List.getElem?_eq_some_iff.mp hj).1], hx⟩
    · obtain ⟨y, rfl, hy⟩ := mem_cellsOf.mp hnew
      exact ⟨ls.length, y, List.getElem?_concat_length _ _, hy⟩

/-- A heap the call leaves as it is. -/
theorem HeldLists.push_none (hL : HeldLists h ls) : HeldLists h (ls ++ [none]) :=
  hL.push (Keeps.refl h []) none nofun fun _ hc => .inl (lt_length_of_read (Option.get_mem hc))

end

/-! ## One call -/

section
variable (getHash : List UInt8 → UInt32) {h : Heap} {ls : List (Option Held)} {L' : List (Option (List DirEntry))}

theorem step_add (hL : HeldLists h ls) {i : ℕ} {c : AddCall} {headOk : Bool}
    (hA : absStep getHash (entriesOf ls) (.add i c headOk) = some L') :
    ∃ h' ls', step getHash (h, rootsOf ls) (.add i c headOk) = some (h', rootsOf ls') ∧ HeldLists h' ls' ∧
      entriesOf ls' = L' := by
  cases hi : ls[i]? with
  | none => simp [absStep, entriesOf, hi] at hA
  | some o =>
    simp only [absStep, entriesOf, List.getElem?_map, hi, Option.map_some', Option.some.injEq] at hA
    obtain ⟨σ', h', as', hrun, hR', g, -⟩ := addStep_refines getHash (Holds.of_held hL hi) (hL.length_le hi) c headOk
    obtain ⟨o', rfl, hs', hc', ho'⟩ := hR'.held
    have hc : (o.map Held.root).toList ++ o.elim [] Held.nodes = cellsOf o := by cases o <;> rfl
    refine ⟨h', ls.set i o', ?_, hL.set hi (hc ▸ g.keeps) o' (fun y hy => ⟨ho' y hy, fun x hx => ?_⟩) fun x hx => ?_,
      by rw [← hA, entriesOf, List.map_set, hs']⟩
    · simp [step, rootsOf, List.getElem?_map, hi, hrun, List.map_set]
    · have := g.fresh x (by rw [hc', hy]; exact hx)
      rwa [hc] at this
    · have hlt' := lt_length_of_read (Option.get_mem hx)
      by_cases hlt : x < h.length
      · by_cases hxo : x ∈ cellsOf o
        · exact .inr (hc' ▸ g.subset (by rw [hc]; exact hxo))
        · exact .inl ⟨hlt, hxo⟩
      · rcases g.taken x (not_lt.mp hlt) hlt' with hx' | hx'
        · exact .inr (hc' ▸ hx')
        · rw [hx'] at hx; cases hx

theorem step_close (hL : HeldLists h ls) {i : ℕ} (hA : absStep getHash (entriesOf ls) (.close i) = some L') :
    ∃ h' ls', step getHash (h, rootsOf ls) (.close i) = some (h', rootsOf ls') ∧ HeldLists h' ls' ∧
      entriesOf ls' = L' := by
  cases hi : ls[i]? with
  | none => simp [absStep, entriesOf, hi] at hA
  | some o =>
    simp only [absStep, entriesOf, List.getElem?_map, hi, Option.map_some', Option.some.injEq] at hA
    cases o with
    | none => exact ⟨h, ls, by simp [step, rootsOf, List.getElem?_map, hi], hL, hA⟩
    | some x =>
      have hl := hL.listAt i x hi
      have hp : inversions x.es < h.length * h.length + 1 := by
        have := inversions_le x.es
        have := Nat.mul_le_mul hl.length_lt.le hl.length_lt.le
        rw [length_of_entries hl.choose_spec.2.2] at this
        omega
      obtain ⟨h', hrun, hl', rel⟩ := dirListClose_refines hl hl.length_lt.le hp
      have hroots : rootsOf (ls.set i (some ⟨x.root, x.nodes, DirList.dirListClose x.es⟩)) = rootsOf ls := by
        rw [rootsOf, List.map_set]
        exact set_of_getElem?_eq (by simp [List.getElem?_map, hi])
      refine ⟨h', _, ?_, hL.set hi (rel.keeps.mono (List.subset_cons_self _ _))
        (some ⟨x.root, x.nodes, DirList.dirListClose x.es⟩) (fun y hy => by cases hy; exact ⟨hl', fun c hc => .inl hc⟩)
        fun c hc => ?_, by rw [← hA]; simp [entriesOf, List.map_set]⟩
      · rw [hroots]
        simp [step, rootsOf, List.getElem?_map, hi, hrun]
      · by_cases hcx : c ∈ x.cells
        · exact .inr hcx
        · exact .inl ⟨rel.length_eq ▸ lt_length_of_read (Option.get_mem hc), hcx⟩

theorem step_free (hL : HeldLists h ls) {i : ℕ} (hA : absStep getHash (entriesOf ls) (.free i) = some L') :
    ∃ h' ls', step getHash (h, rootsOf ls) (.free i) = some (h', rootsOf ls') ∧ HeldLists h' ls' ∧
      entriesOf ls' = L' := by
  cases hi : ls[i]? with
  | none => simp [absStep, entriesOf, hi] at hA
  | some o =>
    cases o with
    | none => simp [absStep, entriesOf, hi] at hA
    | some x =>
      simp only [absStep, entriesOf, List.getElem?_map, hi, Option.map_some', Option.some_bind,
        Option.some.injEq] at hA
      have hl := hL.listAt i x hi
      refine ⟨_, ls.set i none, ?_, hL.set hi (keeps_free x) none nofun fun c hc => .inl ⟨?_, fun hcx => ?_⟩,
        by rw [← hA, entriesOf, List.map_set]; rfl⟩
      · simp [step, rootsOf, List.getElem?_map, hi, hl.dirListFree_eq hl.length_lt.le, List.map_set]
      · simpa using lt_length_of_read (Option.get_mem hc)
      · rw [read_free_cells x hcx] at hc; cases hc

theorem step_append (hL : HeldLists h ls) {i j : ℕ} {ok : ℕ → Bool × Bool}
    (hA : absStep getHash (entriesOf ls) (.append i j ok) = some L') :
    ∃ h' ls', step getHash (h, rootsOf ls) (.append i j ok) = some (h', rootsOf ls') ∧ HeldLists h' ls' ∧
      entriesOf ls' = L' := by
  by_cases hij : i = j
  · simp [absStep, hij] at hA
  cases hi : ls[i]? with
  | none => simp [absStep, entriesOf, hij, hi] at hA
  | some o1 =>
  cases hj : ls[j]? with
  | none => simp [absStep, entriesOf, hij, hi, hj] at hA
  | some o2 =>
  cases o1 with
  | none => simp [absStep, entriesOf, hij, hi, hj] at hA
  | some x1 =>
  cases o2 with
  | none => simp [absStep, entriesOf, hij, hi, hj] at hA
  | some x2 =>
  simp only [absStep, entriesOf, List.getElem?_map, hij, hi, hj, Option.map_some', Option.some_bind,
    if_false] at hA
  obtain ⟨⟨b, l⟩, happ, rfl⟩ := Option.map_eq_some'.mp hA
  have hl1 := hL.listAt i x1 hi
  have hl2 := hL.listAt j x2 hj
  obtain ⟨r, h', cas, hrun, hl1', k, hfr, hlen, -⟩ :=
    dirListAppend_keeps hl1 hl2 (hL.disjoint i j x1 x2 hij hi hj) hl1.length_lt.le hl2.length_lt.le happ
  have hroots : rootsOf (ls.set i (some ⟨x1.root, x1.nodes ++ cas, l⟩)) = rootsOf ls := by
    rw [rootsOf, List.map_set]
    exact set_of_getElem?_eq (by simp [List.getElem?_map, hi])
  have hcas : ∀ c, h.length ≤ c → c < h'.length → c ∈ cas := fun c hc hc' => by
    refine mem_of_range_nodup (List.nodup_append.mp (List.nodup_cons.mp hl1'.nodup).2).2.1
      (fun y hy => ⟨hfr y hy, ?_⟩) ⟨hc, by omega⟩
    have := hl1'.lt_length y (by simp [hy])
    omega
  refine ⟨h', _, ?_, hL.set hi k (some ⟨x1.root, x1.nodes ++ cas, l⟩)
    (fun y hy => ⟨by cases hy; exact hl1', fun c hc => ?_⟩) fun c hc => ?_, by simp [entriesOf, List.map_set]⟩
  · rw [hroots]
    simp [step, rootsOf, List.getElem?_map, hi, hj, hrun]
  · cases hy
    rcases List.mem_cons.mp hc with rfl | hc
    · exact .inl (List.mem_cons_self _ _)
    · exact (List.mem_append.mp hc).imp (List.mem_cons_of_mem _) (hfr c)
  · have hlt' := lt_length_of_read (Option.get_mem hc)
    by_cases hlt : c < h.length
    · by_cases hcx : c ∈ x1.cells
      · exact .inr (List.cons_subset_cons _ (List.subset_append_left _ _) hcx)
      · exact .inl ⟨hlt, hcx⟩
    · exact .inr (List.mem_cons_of_mem _ (List.mem_append_right _ (hcas c (not_lt.mp hlt) hlt')))

theorem step_dup (hL : HeldLists h ls) {i : ℕ} {ok : ℕ → Bool × Bool} {rootOk : Bool}
    (hA : absStep getHash (entriesOf ls) (.dup i ok rootOk) = some L') :
    ∃ h' ls', step getHash (h, rootsOf ls) (.dup i ok rootOk) = some (h', rootsOf ls') ∧ HeldLists h' ls' ∧
      entriesOf ls' = L' := by
  cases hi : ls[i]? with
  | none => simp [absStep, entriesOf, hi] at hA
  | some o =>
  cases o with
  | none =>
    cases rootOk
    · simp only [absStep, entriesOf, List.getElem?_map, hi, Option.map_some', Option.some_bind, Option.map_none',
        Bool.false_eq_true, if_false, Option.some.injEq] at hA
      exact ⟨h, ls ++ [none], by simp [step, rootsOf, List.getElem?_map, hi], hL.push_none,
        by rw [← hA, entriesOf, List.map_append]; rfl⟩
    · simp [absStep, entriesOf, hi] at hA
  | some x =>
  have hl := hL.listAt i x hi
  cases rootOk with
  | false =>
    simp only [absStep, entriesOf, List.getElem?_map, hi, Option.map_some', Option.some_bind,
      Bool.false_eq_true, if_false, Option.some.injEq] at hA
    exact ⟨h, ls ++ [none], by simp [step, rootsOf, List.getElem?_map, hi, dirListDup, malloc],
      hL.push_none, by rw [← hA, entriesOf, List.map_append]; rfl⟩
  | true =>
    simp only [absStep, entriesOf, List.getElem?_map, hi, Option.map_some', Option.some_bind, if_true] at hA
    obtain ⟨⟨b, cs⟩, hac, rfl⟩ := Option.map_eq_some'.mp hA
    obtain ⟨r, h', hrun, k, htrue, hfalse⟩ := dirListDup_keeps ok hl hl.length_lt.le hac
    cases b with
    | true =>
      obtain ⟨cas, rfl, hl', hfr, hlen⟩ := htrue rfl
      have hge : ∀ c ∈ h.length :: cas, h.length ≤ c := List.forall_mem_cons.mpr ⟨le_rfl, fun c hc => (hfr c hc).le⟩
      refine ⟨h', ls ++ [some ⟨h.length, cas, x.es⟩], by simp [step, rootsOf, List.getElem?_map, hi, hrun],
        hL.push k (some ⟨h.length, cas, x.es⟩) (fun y hy => by cases hy; exact ⟨hl', hge⟩) fun c hc => ?_,
        by simp [entriesOf]⟩
      have hlt' := lt_length_of_read (Option.get_mem hc)
      refine (lt_or_le c h.length).imp id fun hle => show c ∈ h.length :: cas from
        mem_of_range_nodup hl'.nodup (fun y hy => ⟨hge y hy, ?_⟩) ⟨hle, by simp only [List.length_cons]; omega⟩
      have := hl'.lt_length y hy
      simp only [List.length_cons]
      omega
    | false =>
      obtain ⟨rfl, hnone⟩ := hfalse rfl
      refine ⟨h', ls ++ [none], by simp [step, rootsOf, List.getElem?_map, hi, hrun],
        hL.push k none nofun fun c hc => .inl (not_le.mp fun hle => ?_), by simp [entriesOf]⟩
      rw [hnone c hle] at hc
      cases hc

theorem step_refines (hL : HeldLists h ls) (op : Op) (hA : absStep getHash (entriesOf ls) op = some L') :
    ∃ h' ls', step getHash (h, rootsOf ls) op = some (h', rootsOf ls') ∧ HeldLists h' ls' ∧ entriesOf ls' = L' := by
  cases op with
  | add => exact step_add getHash hL hA
  | close => exact step_close getHash hL hA
  | free => exact step_free getHash hL hA
  | append => exact step_append getHash hL hA
  | dup => exact step_dup getHash hL hA

end

/-! ## Runs -/

/-- Callers holding lists in one heap, whatever the calls and the outcomes
of their allocations: from a heap whose lists are well formed, share no cell
and own every cell in use, wherever the entry-level calls are defined, the
heap-level calls return, all of this stays true (nothing leaks, on the
failure paths too), and each variable holds the list of entries the
entry-level calls give. -/
theorem run_refines (getHash : List UInt8 → UInt32) :
    ∀ (ops : List Op) {h : Heap} {ls : List (Option Held)} {L' : List (Option (List DirEntry))},
      HeldLists h ls → absRun getHash (entriesOf ls) ops = some L' →
      ∃ h' ls', run getHash (h, rootsOf ls) ops = some (h', rootsOf ls') ∧ HeldLists h' ls' ∧ entriesOf ls' = L'
  | [], h, ls, _, hL, hA => ⟨h, ls, rfl, hL, Option.some.inj hA⟩
  | op :: ops, _, _, _, hL, hA => by
    obtain ⟨L₁, h₁, hrest⟩ := Option.bind_eq_some.mp hA
    obtain ⟨h', ls', hstep, hL', rfl⟩ := step_refines getHash hL op h₁
    obtain ⟨h'', ls'', hrun, hL'', hE⟩ := run_refines getHash ops hL' hrest
    exact ⟨h'', ls'', by rw [run, hstep, Option.some_bind, hrun], hL'', hE⟩

/-- From one variable holding `NULL`: two calls of `dir_entry_add` make a
list of `a` and `b`, `dir_list_dup` copies it into a second variable,
`dir_list_append` appends the copy to the first list, and the copy is
freed. -/
theorem run_refines_two_lists :
    let a : CStr := ⟨lit "a", by decide⟩
    let b : CStr := ⟨lit "b", by decide⟩
    let ea : DirEntry := ⟨a, 0, 1, DIR_E_NRM, 1⟩
    let eb : DirEntry := ⟨b, 0, 2, DIR_E_NRM, 1⟩
    let ok : ℕ → Bool × Bool := fun _ => (true, true)
    let ops : List Op := [.add 0 ⟨a, 1, DIR_E_NRM, true, true⟩ true, .add 0 ⟨b, 2, DIR_E_NRM, true, true⟩ true,
      .dup 0 ok true, .append 0 1 ok, .free 1]
    HeldLists [] [none] ∧ absRun (fun _ => 0) (entriesOf [none]) ops = some [some [ea, eb, ea, eb], none] ∧
      ∃ h' ls', run (fun _ => 0) ([], rootsOf [none]) ops = some (h', rootsOf ls') ∧ HeldLists h' ls' ∧
        entriesOf ls' = [some [ea, eb, ea, eb], none] := by
  intro a b ea eb ok ops
  have hL : HeldLists [] [none] :=
    ⟨fun i _ hx => (by cases i <;> cases hx), fun i _ _ _ _ hx => (by cases i <;> cases hx), fun _ hc => by cases hc⟩
  exact ⟨hL, rfl, run_refines (fun _ => 0) ops hL rfl⟩

end Heap

end Rar2fs.DirList
