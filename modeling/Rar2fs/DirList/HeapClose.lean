import Rar2fs.DirList.Heap
import Rar2fs.DirList.Close

/-!
# `dir_list_close` in the heap

`Rar2fs.DirList.Close` models `dir_list_close` over the entries of a list.
Here it runs over the nodes of `Rar2fs.DirList.Heap` as the code does: passes
of `swap` over adjacent nodes from `root->next`, where `swap` exchanges the
entries of two nodes and leaves their links, until a pass makes no swap; then
a walk that clears `valid` on each node that duplicates the one before it.

* `passLoop_spec`: a pass over the nodes of a list is the entry-level
  `bubblePass`, with the same count of swaps;
* `sortLoop_spec`: given one pass more than the entries have pairs out of
  order, the sort ends with the entries of `dirListSort` on the same nodes;
* `dirListClose_refines`: on a list of named entries, `dir_list_close` leaves
  the entries of the entry-level `dirListClose` on the same nodes, and
  changes nothing else: no link, no other cell;
* `dirListClose_idempotent`: on a list it has closed, `dir_list_close`
  changes nothing.
-/

namespace Rar2fs.DirList

/-- Clearing `valid` clears it in the entry. -/
@[simp] theorem Node.view_setValid (n : Node) (v : Int) :
    { n with valid := v }.view = n.view.map fun e => { e with valid := v } := by
  rcases n with ⟨_ | _ | _, _⟩ <;> rfl

namespace Heap

/-- `swap(A, B)` on the nodes at `a` and `b`: when `A` comes after `B`, the
two entries are exchanged (`B->entry = A->entry`, then `A->entry = TMP`),
each node keeping its `next`. `strcmp` reads both names, so both must be
strings. -/
def swapNodes (h : Heap) (a b : ℕ) : Option (ℕ × Heap) :=
  (h.read a).bind fun na => (h.read b).bind fun nb =>
    na.view.bind fun ea => nb.view.map fun eb =>
      let s := swap ea eb
      if s.1 > 0 then (s.1, (h.write b { na with next := nb.next }).write a { nb with next := na.next })
      else (s.1, h)

/-- The inner loop of a pass of `dir_list_close` from the node `next`:
`n += swap(next, next->next)` and `next = next->next` while `next->next` is
not `NULL`. `swap` leaves every `next` as it is, so `next->next` is read once
a turn. The swaps made, and the heap. -/
def passLoop : ℕ → Heap → ℕ → Option (ℕ × Heap)
  | 0, _, _ => none
  | fuel + 1, h, a => (h.read a).bind fun na =>
    match na.next with
    | .null => some (0, h)
    | .undef => none
    | .addr b => (swapNodes h a b).bind fun s => (passLoop fuel s.2 b).map fun r => (s.1 + r.1, r.2)

/-- The `do` loop of `dir_list_close`: a pass from `root->next`, again while
the pass made a swap; at most `passes` passes. -/
def sortLoop (fuel : ℕ) : ℕ → Heap → ℕ → Option Heap
  | 0, _, _ => none
  | passes + 1, h, root => (h.read root).bind fun r =>
    match r.next with
    | .addr next => (passLoop fuel h next).bind fun p =>
      if p.1 ≠ 0 then sortLoop fuel passes p.2 root else some p.2
    | _ => none

/-- The duplicate test of `dir_list_close` on `next` and `next->next`: the
`||` first, and `strcmp` of the names only when it holds. -/
def isDuplicateNode (p e : Node) : Option Bool :=
  if p.type = DIR_E_NRM ∨ p.hash = e.hash then
    match p.name, e.name with
    | .str s, .str t => some (strcmp s.bytes t.bytes = 0)
    | _, _ => none
  else some false

/-- The duplicate loop of `dir_list_close` from the node `next`:
`next->next->entry.valid = 0` on a duplicate, then `next = next->next`. -/
def markLoop : ℕ → Heap → ℕ → Option Heap
  | 0, _, _ => none
  | fuel + 1, h, a => (h.read a).bind fun na =>
    match na.next with
    | .null => some h
    | .undef => none
    | .addr b => (h.read b).bind fun nb => (isDuplicateNode na nb).bind fun d =>
      markLoop fuel (if d then h.write b { nb with valid := 0 } else h) b

/-- `dir_list_close(root)` on the head `root`: nothing when `root->next` is
`NULL`; otherwise the sort, then the duplicate loop from `root->next`. -/
def dirListClose (fuel passes : ℕ) (h : Heap) (root : ℕ) : Option Heap :=
  (h.read root).bind fun r =>
    match r.next with
    | .null => some h
    | .undef => none
    | .addr _ => (sortLoop fuel passes h root).bind fun h => (h.read root).bind fun r =>
      match r.next with
      | .addr next => markLoop fuel h next
      | _ => none

/-! ## Heaps that differ only in the entries of some nodes -/

/-- `h'` is `h` with, at most, other entries in the nodes `as`: the same cells,
the same links, and every other cell as it was. -/
structure Relabel (h h' : Heap) (as : List ℕ) : Prop where
  length_eq : h'.length = h.length
  read_of_not_mem : ∀ x ∉ as, h'.read x = h.read x
  next_eq : ∀ x ∈ as, (h'.read x).map Node.next = (h.read x).map Node.next

section
variable {h h' h₁ : Heap} {as bs : List ℕ} {a b x : ℕ} {n na nb : Node} {e : DirEntry} {es : List DirEntry}

theorem Relabel.refl (h : Heap) (as : List ℕ) : Relabel h h as :=
  ⟨rfl, fun _ _ => rfl, fun _ _ => rfl⟩

theorem Relabel.mono (r : Relabel h h' as) (hs : as ⊆ bs) : Relabel h h' bs where
  length_eq := r.length_eq
  read_of_not_mem x hx := r.read_of_not_mem x fun hm => hx (hs hm)
  next_eq x _ := by
    by_cases hm : x ∈ as
    · exact r.next_eq x hm
    · rw [r.read_of_not_mem x hm]

theorem Relabel.trans (r₁ : Relabel h h₁ as) (r₂ : Relabel h₁ h' as) : Relabel h h' as :=
  ⟨r₂.length_eq.trans r₁.length_eq, fun x hx => (r₂.read_of_not_mem x hx).trans (r₁.read_of_not_mem x hx),
    fun x hx => (r₂.next_eq x hx).trans (r₁.next_eq x hx)⟩

/-- Writing a node with the same `next` changes only an entry. -/
theorem relabel_write (hr : h.read a = some n) {m : Node} (hn : m.next = n.next) : Relabel h (h.write a m) [a] where
  length_eq := length_write
  read_of_not_mem x hx := read_write_of_ne fun he => hx (he ▸ List.mem_singleton_self a)
  next_eq x hx := by
    rw [List.mem_singleton.mp hx, read_write_self (lt_length_of_read hr), hr]
    simp [hn]

theorem Relabel.read_next (r : Relabel h h' as) (hx : h.read x = some n) : ∃ n', h'.read x = some n' ∧ n'.next = n.next := by
  by_cases hm : x ∈ as
  · have := r.next_eq x hm
    rw [hx, Option.map_some', Option.map_eq_some'] at this
    exact this
  · exact ⟨n, (r.read_of_not_mem x hm).trans hx, rfl⟩

/-- A chain survives a change of entries. -/
theorem Seg.relabel {p q : Ptr} (hs : Seg h p q bs) (r : Relabel h h' as) : Seg h' p q bs := by
  induction hs with
  | nil => exact .nil _
  | cons hn _ ih =>
    obtain ⟨n', hn', hnext⟩ := r.read_next hn
    exact .cons hn' (hnext ▸ ih)

theorem Relabel.entries (r : Relabel h h' as) (hd : ∀ x ∈ bs, x ∉ as) : entries h' bs = entries h bs :=
  entries_frame fun x hx => r.read_of_not_mem x (hd x hx)

theorem entries_cons (hv : (h.read a).bind Node.view = some e) (he : entries h as = some es) :
    entries h (a :: as) = some (e :: es) := by
  simp [entries, hv, he]

/-- The head of a list is not one of its nodes. -/
theorem ListAt.root_not_mem {root : ℕ} (hl : ListAt h root as es) : root ∉ as :=
  (List.nodup_cons.mp hl.nodup).1

end

/-! ## The sort -/

section
variable {h : Heap} {a b : ℕ} {na nb : Node} {ea eb : DirEntry}

/-- `swap` on two nodes with names is the entry-level `swap` of their entries,
written back into the nodes. -/
theorem swapNodes_spec (ha : h.read a = some na) (hb : h.read b = some nb) (hva : na.view = some ea)
    (hvb : nb.view = some eb) (hab : a ≠ b) :
    ∃ h', swapNodes h a b = some ((swap ea eb).1, h') ∧ Relabel h h' [a, b] ∧
      (h'.read a).bind Node.view = some (swap ea eb).2.1 ∧ (h'.read b).bind Node.view = some (swap ea eb).2.2 := by
  simp only [swapNodes, ha, hb, hva, hvb, Option.some_bind, Option.map_some', Option.some.injEq]
  rw [swap_eq]
  by_cases hk : eb.key < ea.key
  · simp only [if_pos hk, gt_iff_lt, zero_lt_one, if_true]
    have r₁ := relabel_write (m := { na with next := nb.next }) hb rfl
    have hr₁ : (h.write b { na with next := nb.next }).read a = some na := (read_write_of_ne hab.symm).trans ha
    refine ⟨_, rfl, (r₁.mono (by simp)).trans ((relabel_write (m := { nb with next := na.next }) hr₁ rfl).mono
      (by simp)), ?_, ?_⟩
    · rw [read_write_self (by simpa using lt_length_of_read ha)]; simp [hvb]
    · rw [read_write_of_ne hab, read_write_self (lt_length_of_read hb)]; simp [hva]
  · simp only [if_neg hk, gt_iff_lt, lt_self_iff_false, if_false]
    exact ⟨h, rfl, .refl h _, by simp [ha, hva], by simp [hb, hvb]⟩

/-- A pass over the nodes `a :: as` of a chain of entries `x :: l` is
`bubblePass x l`: it makes as many swaps, and leaves its entries on the same
nodes. -/
theorem passLoop_spec : ∀ {as : List ℕ} {h : Heap} {a fuel : ℕ} {x : DirEntry} {l : List DirEntry},
    Seg h (.addr a) .null (a :: as) → entries h (a :: as) = some (x :: l) → as.length < fuel →
    ∃ h', passLoop fuel h a = some ((bubblePass x l).2, h') ∧ Relabel h h' (a :: as) ∧
      entries h' (a :: as) = some (bubblePass x l).1
  | [], h, a, fuel + 1, x, l, hs, he, _ => by
    obtain ⟨-, n, hr, hs⟩ := hs.cons_inv
    obtain ⟨n', e, es', hr', hv, he', hx⟩ := entries_cons_inv he
    cases he'
    obtain ⟨rfl, rfl⟩ := List.cons.inj hx
    cases hr.symm.trans hr'
    simp only [passLoop, hr, Option.some_bind, hs.eq_of_nil]
    exact ⟨h, rfl, .refl h _, he⟩
  | b :: bs, h, a, fuel + 1, x, l, hs, he, hf => by
    have hnd := hs.nodup fun _ => Ptr.noConfusion
    obtain ⟨-, na, ha, hs'⟩ := hs.cons_inv
    obtain ⟨hnb, nb, hb, -⟩ := hs'.cons_inv
    obtain ⟨n, x', l₁, ha', hva, he₁, hx⟩ := entries_cons_inv he
    obtain ⟨n', y, l', hb', hvb, he₂, rfl⟩ := entries_cons_inv he₁
    cases ha.symm.trans ha'
    cases hb.symm.trans hb'
    obtain ⟨rfl, rfl⟩ := List.cons.inj hx
    have hab : a ∉ b :: bs := (List.nodup_cons.mp hnd).1
    obtain ⟨h₁, hsw, r₁, hv₁a, hv₁b⟩ := swapNodes_spec ha hb hva hvb fun e => hab (e ▸ List.mem_cons_self _ _)
    have hd : ∀ z ∈ bs, z ∉ [a, b] := by
      intro z hz hm
      rcases List.mem_pair.mp hm with rfl | rfl
      · exact hab (List.mem_cons_of_mem _ hz)
      · exact (List.nodup_cons.mp (List.nodup_cons.mp hnd).2).1 hz
    have hs₁ : Seg h₁ (.addr b) .null (b :: bs) := hnb ▸ hs'.relabel r₁
    obtain ⟨h₂, hrun, r₂, he₃⟩ := passLoop_spec hs₁
      (entries_cons hv₁b ((r₁.entries hd).trans he₂))
      (show bs.length < fuel by simp only [List.length_cons] at hf; omega)
    have hr₂a : h₂.read a = h₁.read a := r₂.read_of_not_mem a hab
    refine ⟨h₂, ?_, (r₁.mono (by simp)).trans (r₂.mono (List.subset_cons_self _ _)),
      entries_cons (hr₂a ▸ hv₁a) he₃⟩
    simp only [passLoop, ha, Option.some_bind, hnb, hsw, hrun, Option.map_some', bubblePass]

/-- The sort from the head `root`, whose `next` is the first node `a` of a
chain of entries `es`, given more passes than `es` has pairs out of order: it
ends with the entries of `dirListSort es` on the same nodes. -/
theorem sortLoop_spec {root a fuel : ℕ} {r : Node} {as : List ℕ} (hn : r.next = .addr a) (hroot : root ∉ a :: as)
    (hf : as.length < fuel) : ∀ {passes : ℕ} {h : Heap} {es : List DirEntry}, h.read root = some r →
      Seg h (.addr a) .null (a :: as) → entries h (a :: as) = some es → inversions es < passes →
      ∃ h', sortLoop fuel passes h root = some h' ∧ Relabel h h' (a :: as) ∧
        entries h' (a :: as) = some (dirListSort es)
  | 0, _, _, _, _, _, hp => absurd hp (Nat.not_lt_zero _)
  | passes + 1, h, es, hr, hs, he, hp => by
    obtain ⟨-, x, l, -, -, -, rfl⟩ := entries_cons_inv he
    obtain ⟨h₁, hrun, r₁, he₁⟩ := passLoop_spec hs he hf
    have hr₁ : h₁.read root = some r := (r₁.read_of_not_mem root hroot).trans hr
    rw [dirListSort_cons]
    by_cases hc : (bubblePass x l).2 ≠ 0
    · have hp₁ : inversions (bubblePass x l).1 < passes := by
        have := inversions_bubblePass_lt hc
        omega
      obtain ⟨h₂, hrun₂, r₂, he₂⟩ := sortLoop_spec hn hroot hf hr₁ (hs.relabel r₁) he₁ hp₁
      refine ⟨h₂, ?_, r₁.trans r₂, by rw [if_pos hc]; exact he₂⟩
      simp only [sortLoop, hr, Option.some_bind, hn, hrun, if_pos hc, hrun₂]
    · exact ⟨h₁, by simp only [sortLoop, hr, Option.some_bind, hn, hrun, if_neg hc], r₁, by rw [if_neg hc]; exact he₁⟩

end

/-! ## The duplicates -/

section
variable {h : Heap} {b : ℕ} {nb : Node} {y : DirEntry}

/-- On nodes with names, the duplicate test is the entry-level one. -/
theorem isDuplicateNode_of_view {p e : Node} {ep ee : DirEntry} (hp : p.view = some ep) (he : e.view = some ee) :
    isDuplicateNode p e = some (isDuplicate ep ee) := by
  rcases p with ⟨_ | s | _, ph, pst, ptype, pv, pn⟩ <;> cases hp
  rcases e with ⟨_ | t | _, eh, est, etype, ev, en⟩ <;> cases he
  simp only [isDuplicateNode, isDuplicate, Bool.beq_eq_decide_eq, ← Bool.decide_or]
  by_cases hc : ptype = DIR_E_NRM ∨ ph = eh <;> simp [hc]

/-- One turn of the duplicate loop: `valid` cleared on the node `b` when `d`. -/
theorem markStep (hb : h.read b = some nb) (hvb : nb.view = some y) (d : Bool) :
    Relabel h (if d then h.write b { nb with valid := 0 } else h) [b] ∧
      ((if d then h.write b { nb with valid := 0 } else h).read b).bind Node.view =
        some (if d then { y with valid := 0 } else y) := by
  cases d
  · exact ⟨.refl h _, by simp [hb, hvb]⟩
  · exact ⟨relabel_write hb rfl, by simp [read_write_self (lt_length_of_read hb), hvb]⟩

/-- The duplicate loop over the nodes `a :: as` of a chain of entries `p :: l`
is `markDuplicatesFrom p l` on the same nodes. -/
theorem markLoop_spec : ∀ {as : List ℕ} {h : Heap} {a fuel : ℕ} {p : DirEntry} {l : List DirEntry},
    Seg h (.addr a) .null (a :: as) → entries h (a :: as) = some (p :: l) → as.length < fuel →
    ∃ h', markLoop fuel h a = some h' ∧ Relabel h h' (a :: as) ∧
      entries h' (a :: as) = some (p :: markDuplicatesFrom p l)
  | [], h, a, fuel + 1, p, l, hs, he, _ => by
    obtain ⟨-, n, hr, hs⟩ := hs.cons_inv
    obtain ⟨n', e, es', hr', hv, he', hx⟩ := entries_cons_inv he
    cases he'
    obtain ⟨rfl, rfl⟩ := List.cons.inj hx
    cases hr.symm.trans hr'
    simp only [markLoop, hr, Option.some_bind, hs.eq_of_nil]
    exact ⟨h, rfl, .refl h _, he⟩
  | b :: bs, h, a, fuel + 1, p, l, hs, he, hf => by
    have hnd := hs.nodup fun _ => Ptr.noConfusion
    obtain ⟨-, na, ha, hs'⟩ := hs.cons_inv
    obtain ⟨hnb, nb, hb, -⟩ := hs'.cons_inv
    obtain ⟨n, x', l₁, ha', hva, he₁, hx⟩ := entries_cons_inv he
    obtain ⟨n', y, l', hb', hvb, he₂, rfl⟩ := entries_cons_inv he₁
    cases ha.symm.trans ha'
    cases hb.symm.trans hb'
    obtain ⟨rfl, rfl⟩ := List.cons.inj hx
    have hab : a ∉ b :: bs := (List.nodup_cons.mp hnd).1
    obtain ⟨r₁, hv₁⟩ := markStep hb hvb (isDuplicate p y)
    have hd : ∀ z ∈ bs, z ∉ [b] := fun z hz hm =>
      (List.nodup_cons.mp (List.nodup_cons.mp hnd).2).1 (List.mem_singleton.mp hm ▸ hz)
    have hs₁ := hnb ▸ hs'.relabel r₁
    obtain ⟨h₂, hrun, r₂, he₃⟩ := markLoop_spec hs₁ (entries_cons hv₁ ((r₁.entries hd).trans he₂))
      (show bs.length < fuel by simp only [List.length_cons] at hf; omega)
    have hr₂a : h₂.read a = some na :=
      (r₂.read_of_not_mem a hab).trans ((r₁.read_of_not_mem a fun hm => hab (List.mem_singleton.mp hm ▸
        List.mem_cons_self _ _)).trans ha)
    refine ⟨h₂, ?_, (r₁.mono (by simp)).trans (r₂.mono (List.subset_cons_self _ _)),
      entries_cons (by simp [hr₂a, hva]) he₃⟩
    simp only [markLoop, ha, Option.some_bind, hnb, hb, isDuplicateNode_of_view hva hvb, hrun]

end

/-- `dir_list_close` on the head of a list of named entries, with fuel for its
walks and more passes than the entries have pairs out of order: the nodes of
the list hold the entries of the entry-level `dirListClose`, node by node, and
no link and no other cell of the heap changes. -/
theorem dirListClose_refines {h : Heap} {root fuel passes : ℕ} {as : List ℕ} {es : List DirEntry}
    (hl : ListAt h root as es) (hf : as.length ≤ fuel) (hp : inversions es < passes) :
    ∃ h', dirListClose fuel passes h root = some h' ∧ ListAt h' root as (DirList.dirListClose es) ∧
      Relabel h h' as := by
  have hroot := hl.root_not_mem
  obtain ⟨r, hr, hs, he⟩ := hl
  cases as with
  | nil =>
    cases he
    refine ⟨h, by simp only [dirListClose, hr, Option.some_bind, hs.eq_of_nil], ⟨r, hr, hs, ?_⟩, .refl h _⟩
    rw [DirList.dirListClose, dirListSort]
    rfl
  | cons a as =>
    obtain ⟨hn, -⟩ := hs.cons_inv
    have hs₀ : Seg h (.addr a) .null (a :: as) := hn ▸ hs
    obtain ⟨h₁, hsort, r₁, he₁⟩ := sortLoop_spec hn hroot hf hr hs₀ he hp
    obtain ⟨-, p, l, -, -, -, hpl⟩ := entries_cons_inv he₁
    have hr₁ : h₁.read root = some r := (r₁.read_of_not_mem root hroot).trans hr
    obtain ⟨h₂, hmark, r₂, he₂⟩ := markLoop_spec (hs₀.relabel r₁) (hpl ▸ he₁) hf
    refine ⟨h₂, ?_, ⟨r, (r₂.read_of_not_mem root hroot).trans hr₁, hn ▸ (hs₀.relabel r₁).relabel r₂, ?_⟩,
      r₁.trans r₂⟩
    · simp only [dirListClose, hr, Option.some_bind, hn, hsort, hr₁, hmark]
    · rw [DirList.dirListClose, hpl]
      exact he₂

/-- A passthrough `b`, an archive-backed `a` and a passthrough `a`: three pairs
out of order, so four passes. -/
theorem dirListClose_refines_three :
    let a : CStr := ⟨lit "a", by decide⟩
    let b : CStr := ⟨lit "b", by decide⟩
    let H : Heap := [some ⟨.null, 0, 0, 0, 0, .addr 1⟩, some ⟨.str b, 0, 0, DIR_E_NRM, 1, .addr 2⟩,
      some ⟨.str a, 0, 0, DIR_E_RAR, 1, .addr 3⟩, some ⟨.str a, 0, 0, DIR_E_NRM, 1, .null⟩]
    let es : List DirEntry := [⟨b, 0, 0, DIR_E_NRM, 1⟩, ⟨a, 0, 0, DIR_E_RAR, 1⟩, ⟨a, 0, 0, DIR_E_NRM, 1⟩]
    ListAt H 0 [1, 2, 3] es ∧ [1, 2, 3].length ≤ 3 ∧ inversions es < 4 ∧
      ∃ h', dirListClose 3 4 H 0 = some h' ∧ ListAt h' 0 [1, 2, 3] (DirList.dirListClose es) ∧
        Relabel H h' [1, 2, 3] := by
  intro a b H es
  have hl : ListAt H 0 [1, 2, 3] es := ⟨_, rfl, .cons rfl (.cons rfl (.cons rfl (.nil _))), rfl⟩
  have hp : inversions es < 4 := by decide
  exact ⟨hl, le_rfl, hp, dirListClose_refines hl le_rfl hp⟩

/-! ## Closing a closed list -/

section
variable {h h' : Heap} {as : List ℕ} {es : List DirEntry}

/-- Heaps with the same cells are equal. -/
theorem ext_read (hl : h'.length = h.length) (hr : ∀ x, h'.read x = h.read x) : h' = h := by
  refine List.ext_getElem hl fun n h1 h2 => ?_
  simpa [read, List.getElem?_eq_getElem h1, List.getElem?_eq_getElem h2] using hr n

/-- Two heaps whose nodes `as` hold the same entries show the same entry at
each of them. -/
theorem entries_view_eq (he : entries h as = some es) (he' : entries h' as = some es) :
    ∀ x ∈ as, ∃ n n' e, h.read x = some n ∧ h'.read x = some n' ∧ n.view = some e ∧ n'.view = some e := by
  induction as generalizing es with
  | nil => nofun
  | cons a as ih =>
    obtain ⟨n, e, l, hr, hv, he₁, rfl⟩ := entries_cons_inv he
    obtain ⟨n', e', l', hr', hv', he₁', hel⟩ := entries_cons_inv he'
    cases hel
    exact List.forall_mem_cons.mpr ⟨⟨n, n', e, hr, hr', hv, hv'⟩, ih he₁ he₁'⟩

/-- A relabelling that leaves the entries of the nodes as they were changes
nothing. -/
theorem Relabel.eq_of_entries (rel : Relabel h h' as) (he : Heap.entries h as = some es)
    (he' : Heap.entries h' as = some es) :
    h' = h := by
  refine ext_read rel.length_eq fun x => ?_
  by_cases hx : x ∈ as
  · obtain ⟨n, n', e, hr, hr', hv, hv'⟩ := entries_view_eq he he' x hx
    have hnext : n'.next = n.next := by simpa [hr, hr'] using rel.next_eq x hx
    rw [hr, hr', Node.eq_of_view hv, Node.eq_of_view hv', hnext]
  · exact rel.read_of_not_mem x hx

end

/-- `dir_list_close` on a list it has closed changes nothing: the entries are
in order, so the sort makes no swap, and the duplicate loop clears again the
flags it cleared. Closing twice is closing once. -/
theorem dirListClose_idempotent {h : Heap} {root fuel passes : ℕ} {as : List ℕ} {es : List DirEntry}
    (hl : ListAt h root as es) (hf : as.length ≤ fuel) (hp : inversions es < passes) :
    ∃ h', dirListClose fuel passes h root = some h' ∧ dirListClose fuel passes h' root = some h' := by
  obtain ⟨h₁, hc₁, hl₁, -⟩ := dirListClose_refines hl hf hp
  have hp' : inversions (DirList.dirListClose es) < passes := by
    rw [inversions_of_sorted (by rw [DirList.dirListClose, markDuplicates_key]; exact (dirListSort_spec es).2.1)]
    omega
  obtain ⟨h₂, hc₂, ⟨-, -, -, he₂⟩, rel⟩ := dirListClose_refines hl₁ hf hp'
  rw [dirListClose_idem] at he₂
  exact ⟨h₁, hc₁, rel.eq_of_entries hl₁.choose_spec.2.2 he₂ ▸ hc₂⟩

/-- The list of `dirListClose_refines_three`, closed twice. -/
theorem dirListClose_idempotent_three :
    let a : CStr := ⟨lit "a", by decide⟩
    let b : CStr := ⟨lit "b", by decide⟩
    let H : Heap := [some ⟨.null, 0, 0, 0, 0, .addr 1⟩, some ⟨.str b, 0, 0, DIR_E_NRM, 1, .addr 2⟩,
      some ⟨.str a, 0, 0, DIR_E_RAR, 1, .addr 3⟩, some ⟨.str a, 0, 0, DIR_E_NRM, 1, .null⟩]
    let es : List DirEntry := [⟨b, 0, 0, DIR_E_NRM, 1⟩, ⟨a, 0, 0, DIR_E_RAR, 1⟩, ⟨a, 0, 0, DIR_E_NRM, 1⟩]
    ListAt H 0 [1, 2, 3] es ∧ [1, 2, 3].length ≤ 3 ∧ inversions es < 4 ∧
      ∃ h', dirListClose 3 4 H 0 = some h' ∧ dirListClose 3 4 h' 0 = some h' := by
  intro a b H es
  have hl : ListAt H 0 [1, 2, 3] es := ⟨_, rfl, .cons rfl (.cons rfl (.cons rfl (.nil _))), rfl⟩
  have hp : inversions es < 4 := by decide
  exact ⟨hl, le_rfl, hp, dirListClose_idempotent hl le_rfl hp⟩

end Heap

end Rar2fs.DirList
