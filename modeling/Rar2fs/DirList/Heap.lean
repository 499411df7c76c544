import Rar2fs.DirList.Entry

/-!
# Directory lists in the heap: `dir_list_append`, `dir_list_dup`, `dir_list_free`

`Rar2fs.DirList.Entry` models a list by its entries. Here its nodes are cells
of a heap, linked by `next`, as the three functions of `filecache.h` walk and
link them. A pointer is `NULL`, an address, or the indeterminate value of a
field nothing wrote since `malloc`; a use that C leaves undefined (reading a
freed or indeterminate pointer, `strdup(NULL)`, freeing an indeterminate name)
makes the model `none`. `Seg h p q as` says that from `p` the `next` links
visit the nodes `as` and reach `q`; a list with its head at `a` is `ListAt`.

`dir_list_append` walks to the last node of the first list and links after it
a `memcpy` of each node of the second, `next` included, whose name it then
`strdup`s. When no `strdup` fails, the first list becomes its entries followed
by fresh copies of those of the second, all of them or those copied before a
`malloc` failed, exactly as `dirListAppend` of `Entry` says
(`dirListAppend_refines`). When a `strdup` fails, the copy keeps a `NULL`
name and the `next` of the node it copied, so the first list runs on into the
second list's own nodes (`dirListAppend_strdup_fail`).

`dir_list_dup` writes a node's `next` only on the next turn of its loop. When
a `malloc` fails, `dir_list_free` gets a `NULL`-terminated chain of the nodes
linked; when a `strdup` fails, the last node's `next` is indeterminate and
`dir_list_free` reads it (`dirListDup_strdup_fail`).
-/

namespace Rar2fs.DirList

/-- A pointer field of a node: `NULL`, the address of a node, or the
indeterminate value of a field nothing wrote since `malloc`. -/
inductive Ptr
  | null
  | addr (a : ℕ)
  | undef
  deriving DecidableEq

/-- The `entry.name` of a node: `NULL`, a string, or indeterminate. A name is
modelled by its text: `strdup` copies the text, and no function here compares
name pointers. -/
inductive NamePtr
  | null
  | str (s : CStr)
  | undef
  deriving DecidableEq

/-- `struct dir_entry_list`: the fields of its `entry` that the functions copy,
and `next`. -/
structure Node where
  name : NamePtr
  hash : UInt32
  st : ℕ
  type : Int
  valid : Int
  next : Ptr
  deriving DecidableEq

/-- What `malloc` returns: a node whose fields are indeterminate. Nothing here
reads a scalar field before writing it, so those are 0. -/
def Node.fresh : Node := ⟨.undef, 0, 0, 0, 0, .undef⟩

/-- The entry of a node with a name. -/
def Node.view : Node → Option DirEntry
  | ⟨.str s, hash, st, type, valid, _⟩ => some ⟨s, hash, st, type, valid⟩
  | _ => none

theorem Node.name_of_view {n : Node} {e : DirEntry} (hv : n.view = some e) : n.name = .str e.name := by
  rcases n with ⟨_ | s | _, _⟩ <;> cases hv
  rfl

@[simp] theorem Node.view_setNext (n : Node) (p : Ptr) : { n with next := p }.view = n.view := by
  rcases n with ⟨_ | _ | _, _⟩ <;> rfl

/-- A node with a name is its entry and its link. -/
theorem Node.eq_of_view {n : Node} {e : DirEntry} (hv : n.view = some e) :
    n = ⟨.str e.name, e.hash, e.st, e.type, e.valid, n.next⟩ := by
  rcases n with ⟨_ | s | _, _⟩ <;> cases hv
  rfl

/-- The nodes by address, `none` where a node was freed. -/
abbrev Heap := List (Option Node)

namespace Heap

def read (h : Heap) (a : ℕ) : Option Node := h[a]?.join

def write (h : Heap) (a : ℕ) (n : Node) : Heap := h.set a (some n)

def free (h : Heap) (a : ℕ) : Heap := h.set a none

/-- `malloc` of a node, which returns `NULL` when `ok` is false. -/
def malloc (h : Heap) (ok : Bool) : Ptr × Heap :=
  if ok then (.addr h.length, h ++ [some Node.fresh]) else (.null, h)

/-- `a->next = p`. -/
def setNext (h : Heap) (a : ℕ) (p : Ptr) : Option Heap :=
  (h.read a).map fun n => h.write a { n with next := p }

section
variable {h : Heap} {a b : ℕ} {n : Node}

theorem lt_length_of_read (hr : h.read a = some n) : a < h.length := by
  by_contra hc
  simp [read, List.getElem?_eq_none (not_lt.mp hc)] at hr

@[simp] theorem length_write : (h.write a n).length = h.length := List.length_set ..

@[simp] theorem length_free : (h.free a).length = h.length := List.length_set ..

theorem read_write_self (ha : a < h.length) : (h.write a n).read a = some n := by
  simp [read, write, ha]

theorem read_write_of_ne (hne : a ≠ b) : (h.write a n).read b = h.read b := by
  simp [read, write, List.getElem?_set_ne hne]

theorem read_free_of_ne (hne : a ≠ b) : (h.free a).read b = h.read b := by
  simp [read, free, List.getElem?_set_ne hne]

theorem read_append_of_lt (l : Heap) (hb : b < h.length) : read (h ++ l) b = h.read b := by
  simp [read, List.getElem?_append_left hb]

theorem read_append_length (x : Option Node) : read (h ++ [x]) h.length = x := by
  simp [read]

theorem read_free_self : (h.free a).read a = none := by
  simp [free, read, List.getElem?_set]

theorem read_of_length_le {x : ℕ} (hx : h.length ≤ x) : h.read x = none := by
  simp [read, List.getElem?_eq_none hx]

@[simp] theorem length_foldl_free (as : List ℕ) (h : Heap) : (as.foldl free h).length = h.length := by
  induction as generalizing h with
  | nil => rfl
  | cons a as ih => rw [List.foldl_cons, ih, length_free]

/-- After `free` of each node of `as`, those cells are freed and the others
are as they were. -/
theorem read_foldl_free (as : List ℕ) (h : Heap) (x : ℕ) :
    (as.foldl free h).read x = if x ∈ as then none else h.read x := by
  induction as generalizing h with
  | nil => simp
  | cons a as ih =>
    rw [List.foldl_cons, ih]
    by_cases hx : x ∈ as
    · simp [hx]
    · by_cases ha : x = a
      · subst ha; simp [read_free_self]
      · simp [hx, ha, read_free_of_ne (Ne.symm ha)]

end

/-! ## Chains of nodes -/

/-- From the pointer `p`, the `next` links visit the nodes at `as` and then
hold `q`. -/
inductive Seg (h : Heap) : Ptr → Ptr → List ℕ → Prop
  | nil (p : Ptr) : Seg h p p []
  | cons {a : ℕ} {n : Node} {q : Ptr} {as : List ℕ} :
      h.read a = some n → Seg h n.next q as → Seg h (.addr a) q (a :: as)

/-- The entries of the nodes at `as`, when all of them have names. -/
def entries (h : Heap) : List ℕ → Option (List DirEntry)
  | [] => some []
  | a :: as => ((h.read a).bind Node.view).bind fun e => (entries h as).map (e :: ·)

/-- The list whose head is at `a`: the nodes `as` after the head, up to
`NULL`, and their entries `es`. -/
def ListAt (h : Heap) (a : ℕ) (as : List ℕ) (es : List DirEntry) : Prop :=
  ∃ n, h.read a = some n ∧ Seg h n.next .null as ∧ entries h as = some es

/-- `h'` is `h` with the `next` of the node at `a` set to `q`, and with cells
added after those of `h`. -/
structure Frame (h h' : Heap) (a : ℕ) (q : Ptr) : Prop where
  length_le : h.length ≤ h'.length
  read_of_ne : ∀ x < h.length, x ≠ a → h'.read x = h.read x
  read_self : h'.read a = (h.read a).map fun n => { n with next := q }

section
variable {h h' : Heap} {p q r : Ptr} {a : ℕ} {as bs : List ℕ}

theorem Seg.eq_of_nil (hs : Seg h p q []) : p = q := by
  cases hs; rfl

theorem Seg.cons_inv (hs : Seg h p q (a :: as)) :
    p = .addr a ∧ ∃ n, h.read a = some n ∧ Seg h n.next q as := by
  cases hs with
  | cons hr hs => exact ⟨rfl, _, hr, hs⟩

theorem Seg.append (hs : Seg h p q as) (ht : Seg h q r bs) : Seg h p r (as ++ bs) := by
  induction hs with
  | nil => exact ht
  | cons hr _ ih => exact .cons hr (ih ht)

theorem Seg.split (hs : Seg h p r (as ++ bs)) : ∃ q, Seg h p q as ∧ Seg h q r bs := by
  induction as generalizing p with
  | nil => exact ⟨p, .nil p, hs⟩
  | cons a as ih =>
    obtain ⟨rfl, n, hr, hs⟩ := hs.cons_inv
    obtain ⟨q, h1, h2⟩ := ih hs
    exact ⟨q, .cons hr h1, h2⟩

theorem Seg.lt_length (hs : Seg h p q as) : ∀ x ∈ as, x < h.length := by
  induction hs with
  | nil => simp
  | cons hr _ ih => exact List.forall_mem_cons.mpr ⟨lt_length_of_read hr, ih⟩

/-- A chain survives any heap that reads the same at its nodes. -/
theorem Seg.frame (hs : Seg h p q as) (hr : ∀ x ∈ as, h'.read x = h.read x) : Seg h' p q as := by
  induction hs with
  | nil => exact .nil _
  | cons hn _ ih =>
    have := List.forall_mem_cons.mp hr
    exact .cons (this.1.trans hn) (ih this.2)

theorem entries_frame (hr : ∀ x ∈ as, h'.read x = h.read x) : entries h' as = entries h as := by
  induction as with
  | nil => rfl
  | cons a as ih =>
    have := List.forall_mem_cons.mp hr
    simp only [entries, this.1, ih this.2]

theorem entries_cons_inv {es : List DirEntry} (he : entries h (a :: as) = some es) :
    ∃ n e es', h.read a = some n ∧ n.view = some e ∧ entries h as = some es' ∧ es = e :: es' := by
  simp only [entries, Option.bind_eq_some, Option.map_eq_some'] at he
  obtain ⟨e, ⟨n, hr, hv⟩, es', he, rfl⟩ := he
  exact ⟨n, e, es', hr, hv, he, rfl⟩

/-- The first node of a chain of entries, and the name it holds. -/
theorem Seg.cons_entries {es : List DirEntry} (hs : Seg h p q (a :: as)) (he : entries h (a :: as) = some es) :
    ∃ n e es' s, p = .addr a ∧ h.read a = some n ∧ Seg h n.next q as ∧ n.view = some e ∧
      entries h as = some es' ∧ es = e :: es' ∧ n.name = .str s := by
  obtain ⟨rfl, n, hr, hs⟩ := hs.cons_inv
  obtain ⟨n', e, es', hr', hv, he', rfl⟩ := entries_cons_inv he
  cases hr.symm.trans hr'
  exact ⟨n, e, es', e.name, rfl, hr, hs, hv, he', rfl, Node.name_of_view hv⟩

/-- A chain that ends in `NULL` or in an indeterminate pointer is determined
by where it starts. -/
theorem Seg.unique (hs : Seg h p q as) (ht : Seg h p q bs) (hq : ∀ a, q ≠ .addr a) : as = bs := by
  induction as generalizing p bs with
  | nil =>
    cases hs
    cases ht with
    | nil => rfl
    | cons => exact absurd rfl (hq _)
  | cons a as ih =>
    obtain ⟨rfl, n, hr, hs⟩ := hs.cons_inv
    cases ht with
    | nil => exact absurd rfl (hq _)
    | cons hr' ht => cases hr.symm.trans hr'; rw [ih hs ht]

/-- Such a chain visits no node twice. -/
theorem Seg.nodup (hs : Seg h p q as) (hq : ∀ a, q ≠ .addr a) : as.Nodup := by
  induction as generalizing p with
  | nil => exact List.nodup_nil
  | cons a as ih =>
    obtain ⟨rfl, n, hr, hs'⟩ := hs.cons_inv
    refine List.nodup_cons.mpr ⟨fun ha => ?_, ih hs'⟩
    obtain ⟨xs, ys, rfl⟩ := List.append_of_mem ha
    obtain ⟨r, -, hr'⟩ := hs'.split
    obtain ⟨rfl, -⟩ := hr'.cons_inv
    have := congrArg List.length (hs.unique hr' hq)
    simp only [List.length_cons, List.length_append] at this
    omega

theorem Frame.refl (hr : h.read a = some n) : Frame h h a n.next :=
  ⟨le_rfl, fun _ _ _ => rfl, by simp [hr]⟩

theorem Frame.trans {h₁ : Heap} {c : ℕ} {q' : Ptr} (f : Frame h h₁ a q) (g : Frame h₁ h' c q')
    (ha : a < h.length) (hc : h.length ≤ c) : Frame h h' a q :=
  ⟨f.length_le.trans g.length_le,
    fun x hx hne => (g.read_of_ne x (hx.trans_le f.length_le) (by omega)).trans (f.read_of_ne x hx hne),
    (g.read_of_ne a (ha.trans_le f.length_le) (by omega)).trans f.read_self⟩

theorem Frame.read_of_not_mem (f : Frame h h' a q) (hs : Seg h p r as) (ha : a ∉ as) :
    ∀ x ∈ as, h'.read x = h.read x :=
  fun x hx => f.read_of_ne x (hs.lt_length x hx) (by rintro rfl; exact ha hx)

theorem Frame.view (f : Frame h h' a q) {x : ℕ} (hx : x < h.length) :
    (h'.read x).bind Node.view = (h.read x).bind Node.view := by
  by_cases hxa : x = a
  · subst hxa; cases hr : h.read x <;> simp [f.read_self, hr]
  · rw [f.read_of_ne x hx hxa]

theorem Frame.entries (f : Frame h h' a q) (hs : Seg h p r as) : Heap.entries h' as = Heap.entries h as := by
  induction as generalizing p with
  | nil => rfl
  | cons x as ih =>
    obtain ⟨rfl, n, hr, hs⟩ := hs.cons_inv
    simp only [Heap.entries, f.view (lt_length_of_read hr), ih hs]

/-- Setting the `next` of the last node of a chain: what follows the node
before it is the chain's nodes, now followed by `q`. -/
theorem Seg.redirect {prev : ℕ} {m : Node} (hs : Seg h p r as) (hr : ∀ a, r ≠ .addr a)
    (hm : h.read prev = some m) (hp : m.next = p)
    (f : Frame h h' ((prev :: as).getLast (List.cons_ne_nil _ _)) q) :
    ∃ n, h'.read prev = some n ∧ Seg h' n.next q as := by
  have hnd : (prev :: as).Nodup := (Seg.cons hm (hp ▸ hs)).nodup hr
  induction as generalizing prev m p with
  | nil => exact ⟨{ m with next := q }, by simpa [hm] using f.read_self, .nil q⟩
  | cons a as ih =>
    obtain ⟨rfl, n, ha, hs⟩ := hs.cons_inv
    rw [List.getLast_cons (List.cons_ne_nil _ _)] at f
    obtain ⟨n', hn', hs'⟩ := ih hs ha rfl f hnd.of_cons
    have hne : prev ≠ (a :: as).getLast (List.cons_ne_nil _ _) := fun he =>
      (List.nodup_cons.mp hnd).1 (he ▸ List.getLast_mem _)
    refine ⟨m, ?_, by rw [hp]; exact .cons hn' hs'⟩
    rw [f.read_of_ne prev (lt_length_of_read hm) hne, hm]

end

/-! ## Heaps that keep cells -/

/-- `n` distinct numbers from `a` below `a + n` are all of them. -/
theorem mem_of_range_nodup {cas : List ℕ} {a x : ℕ} (hnd : cas.Nodup) (hr : ∀ y ∈ cas, a ≤ y ∧ y < a + cas.length)
    (hx : a ≤ x ∧ x < a + cas.length) : x ∈ cas := by
  have hsub : cas.toFinset ⊆ Finset.Ico a (a + cas.length) := fun y hy =>
    Finset.mem_Ico.mpr (hr y (List.mem_toFinset.mp hy))
  have hcard : (Finset.Ico a (a + cas.length)).card ≤ cas.toFinset.card := by
    rw [Nat.card_Ico, List.toFinset_card_of_nodup hnd]; omega
  exact List.mem_toFinset.mp (Finset.eq_of_subset_of_card_le hsub hcard ▸ Finset.mem_Ico.mpr hx)

/-- `h'` has every cell of `h` outside `cs` as it was, and perhaps more
cells. -/
structure Keeps (h h' : Heap) (cs : List ℕ) : Prop where
  length_le : h.length ≤ h'.length
  read_eq : ∀ x < h.length, x ∉ cs → h'.read x = h.read x

section
variable {h h' : Heap} {q : Ptr} {a r : ℕ} {as cs : List ℕ} {es : List DirEntry}

theorem Frame.keeps (f : Frame h h' a q) (ha : a ∈ cs) : Keeps h h' cs :=
  ⟨f.length_le, fun x hx hn => f.read_of_ne x hx fun e => hn (e ▸ ha)⟩

theorem ListAt.lt_length (hl : ListAt h r as es) : ∀ x ∈ r :: as, x < h.length := by
  obtain ⟨n, hr, hs, -⟩ := hl
  exact List.forall_mem_cons.mpr ⟨lt_length_of_read hr, hs.lt_length⟩

/-- The head and the nodes of a list are distinct cells. -/
theorem ListAt.nodup (hl : ListAt h r as es) : (r :: as).Nodup := by
  obtain ⟨n, hr, hs, -⟩ := hl
  exact (Seg.cons hr hs).nodup fun _ => Ptr.noConfusion

/-- A list has fewer nodes than the heap has cells. -/
theorem ListAt.length_lt (hl : ListAt h r as es) : as.length < h.length := by
  simpa using (hl.nodup.subperm fun x hx => List.mem_range.mpr (hl.lt_length x hx)).length_le

/-- A list none of whose cells the heap changes is still there. -/
theorem ListAt.keeps (hl : ListAt h r as es) (k : Keeps h h' cs) (hd : (r :: as).Disjoint cs) :
    ListAt h' r as es := by
  have hread : ∀ x ∈ r :: as, h'.read x = h.read x := fun x hx => k.read_eq x (hl.lt_length x hx) (hd hx)
  obtain ⟨n, hr, hs, he⟩ := hl
  exact ⟨n, (hread r (List.mem_cons_self _ _)).trans hr, hs.frame fun x hx => hread x (List.mem_cons_of_mem _ hx),
    (entries_frame fun x hx => hread x (List.mem_cons_of_mem _ hx)).trans he⟩

end

/-! ## `dir_list_append` -/

/-- `strdup(s)`: a copy of the text, or `NULL` when its allocation fails;
`none` for `strdup` of `NULL` or of an indeterminate pointer. -/
def strdup : NamePtr → Bool → Option NamePtr
  | .str s, true => some (.str s)
  | .str _, false => some .null
  | _, _ => none

/-- The first loop of `dir_list_append`, from `prev_next` and `next1`: the
last node of the first list. -/
def lastNode (h : Heap) : ℕ → ℕ → Ptr → Option ℕ
  | _, prev, .null => some prev
  | _, _, .undef => none
  | 0, _, .addr _ => none
  | fuel + 1, _, .addr a => (h.read a).bind fun n => lastNode h fuel a n.next

/-- The second loop of `dir_list_append`, at the `i`-th node `next2` of the
second list, with `next1` the node to link after; `ok i` says whether the
`malloc` and the `strdup` of that turn succeed. The node at `next2` is read
once: the writes of a turn go to `next1` before the read and to the new node,
which is never `next2`. -/
def copyLoop (ok : ℕ → Bool × Bool) : ℕ → ℕ → Heap → ℕ → Ptr → Option (Ptr × Heap)
  | _, _, h, next1, .null => some (.addr next1, h)
  | _, _, _, _, .undef => none
  | 0, _, _, _, .addr _ => none
  | fuel + 1, i, h, next1, .addr next2 =>
    let (p, h) := h.malloc (ok i).1
    (h.setNext next1 p).bind fun h =>
      match p with
      | .addr c => (h.read next2).bind fun n2 => (strdup n2.name (ok i).2).bind fun name =>
          if name = .null then some (.null, h.write c { n2 with name := name })
          else copyLoop ok fuel (i + 1) (h.write c { n2 with name := name }) c n2.next
      | _ => some (.null, h)

/-- `dir_list_append(list1, list2)`: the pointer it returns and the heap after
it. -/
def dirListAppend (ok : ℕ → Bool × Bool) (fuel : ℕ) (h : Heap) (list1 list2 : ℕ) : Option (Ptr × Heap) :=
  (h.read list1).bind fun n1 => (h.read list2).bind fun n2 =>
    (lastNode h fuel list1 n1.next).bind fun last => copyLoop ok fuel 0 h last n2.next

/-- The heap after a turn links a new node `n` at `h.length` after the node
`next1`, which held `m`. -/
def link (h : Heap) (next1 : ℕ) (m n : Node) : Heap :=
  ((h ++ [some Node.fresh]).write next1 { m with next := .addr h.length }).write h.length n

section
variable {h : Heap} {next1 a : ℕ} {m n : Node}

theorem length_link : (link h next1 m n).length = h.length + 1 := by
  simp [link]

theorem read_link_self : (link h next1 m n).read h.length = some n :=
  read_write_self (by simp)

theorem frame_link (hm : h.read next1 = some m) : Frame h (link h next1 m n) next1 (.addr h.length) := by
  have hlt := lt_length_of_read hm
  refine ⟨by simp [link], fun x hx hne => ?_, ?_⟩
  · rw [link, read_write_of_ne (by omega), read_write_of_ne (Ne.symm hne), read_append_of_lt _ hx]
  · rw [link, read_write_of_ne (by omega), read_write_self (by simp; omega), hm]; rfl

theorem lastNode_spec {p : Ptr} {as : List ℕ} {fuel prev : ℕ} (hs : Seg h p .null as) (hf : as.length ≤ fuel) :
    lastNode h fuel prev p = some ((prev :: as).getLast (List.cons_ne_nil _ _)) := by
  induction as generalizing p fuel prev with
  | nil => rw [hs.eq_of_nil, lastNode]; rfl
  | cons a as ih =>
    obtain ⟨rfl, n, hr, hs⟩ := hs.cons_inv
    cases fuel with
    | zero => simp at hf
    | succ fuel =>
      rw [lastNode, hr, Option.some_bind, ih hs (by simpa using hf)]
      rfl

variable {ok : ℕ → Bool × Bool} {fuel i : ℕ}

theorem copyLoop_malloc_fail (hm : h.read next1 = some m) (hok : (ok i).1 = false) :
    copyLoop ok (fuel + 1) i h next1 (.addr a) = some (.null, h.write next1 { m with next := .null }) := by
  simp [copyLoop, malloc, hok, setNext, hm]

theorem copyLoop_strdup_fail {s : CStr} (hm : h.read next1 = some m) (hn : h.read a = some n)
    (hne : next1 ≠ a) (hs : n.name = .str s) (hok : ok i = (true, false)) :
    copyLoop ok (fuel + 1) i h next1 (.addr a) = some (.null, link h next1 m { n with name := .null }) := by
  simp [copyLoop, malloc, hok, setNext, read_append_of_lt _ (lt_length_of_read hm), hm, read_write_of_ne hne,
    read_append_of_lt _ (lt_length_of_read hn), hn, hs, strdup, link]

theorem copyLoop_copy {s : CStr} (hm : h.read next1 = some m) (hn : h.read a = some n)
    (hne : next1 ≠ a) (hs : n.name = .str s) (hok : ok i = (true, true)) :
    copyLoop ok (fuel + 1) i h next1 (.addr a) = copyLoop ok fuel (i + 1) (link h next1 m n) h.length n.next := by
  have hn' : { n with name := .str s } = n := by cases n; cases hs; rfl
  simp [copyLoop, malloc, hok, setNext, read_append_of_lt _ (lt_length_of_read hm), hm, read_write_of_ne hne,
    read_append_of_lt _ (lt_length_of_read hn), hn, hs, strdup, link, hn']

end

section
variable {h h' : Heap} {p q r : Ptr} {next1 : ℕ} {m n : Node} {as bs : List ℕ} {es fs : List DirEntry}

theorem entries_append (he : entries h as = some es) (hf : entries h bs = some fs) :
    entries h (as ++ bs) = some (es ++ fs) := by
  induction as generalizing es with
  | nil => cases he; exact hf
  | cons a as ih =>
    obtain ⟨n, e, es, hr, hv, he', rfl⟩ := entries_cons_inv he
    simp [entries, hr, hv, ih he']

/-- The last node of a chain holds the pointer the chain ends in. -/
theorem Seg.last {prev : ℕ} (hs : Seg h p r as) (hm : h.read prev = some m) (hp : m.next = p) :
    ∃ m', h.read ((prev :: as).getLast (List.cons_ne_nil _ _)) = some m' ∧ m'.next = r := by
  induction as generalizing prev m p with
  | nil => exact ⟨m, hm, hp.trans hs.eq_of_nil⟩
  | cons a as ih =>
    obtain ⟨rfl, n, ha, hs⟩ := hs.cons_inv
    exact ih hs ha rfl

/-- A turn that links a copy of `n` at `h.length`, followed by whatever the
rest of the loop does after it. -/
theorem link_then (hm : h.read next1 = some m) (f : Frame (link h next1 m n) h' h.length q)
    (hs : Seg h' q r as) :
    Frame h h' next1 (.addr h.length) ∧ Seg h' (.addr h.length) r (h.length :: as) ∧
      entries h' (h.length :: as) = n.view.bind fun e => (entries h' as).map (e :: ·) := by
  have hc : h'.read h.length = some { n with next := q } := by rw [f.read_self, read_link_self]; rfl
  exact ⟨(frame_link hm).trans f (lt_length_of_read hm) le_rfl, .cons hc hs, by simp [entries, hc]⟩

theorem fresh_link {cas : List ℕ} (hfr : ∀ x ∈ cas, (link h next1 m n).length ≤ x) :
    ∀ x ∈ h.length :: cas, h.length ≤ x := by
  simp only [List.mem_cons, forall_eq_or_imp, le_refl, true_and]
  intro x hx
  have := hfr x hx
  rw [length_link] at this
  omega

end

/-- What the second loop of `dir_list_append` leaves, from a node `next1`
whose `next` is `NULL` when the second list is at its end: among the old
nodes only `next1`'s `next` changes, to a chain of fresh copies. When no
`strdup` fails the copies are those `appendCopies` gives, and the loop returns
`NULL` exactly when a `malloc` failed; when one fails, the last copy has a
`NULL` name and is followed by the second list's own nodes after the one it
copied. -/
theorem copyLoop_spec (ok : ℕ → Bool × Bool) {as : List ℕ} {fuel i next1 : ℕ} {h : Heap} {p : Ptr}
    {es : List DirEntry} {m : Node} (hs : Seg h p .null as) (he : entries h as = some es)
    (hm : h.read next1 = some m) (hn : next1 ∉ as) (hp : p = .null → m.next = .null) (hf : as.length ≤ fuel) :
    (∀ b cs, appendCopies ok i es = some (b, cs) → ∃ r h' q cas, copyLoop ok fuel i h next1 p = some (r, h') ∧
      Frame h h' next1 q ∧ Seg h' q .null cas ∧ entries h' cas = some cs ∧ (∀ x ∈ cas, h.length ≤ x) ∧
      h'.length = h.length + cas.length ∧ (r = .null ↔ b = false)) ∧
    (appendCopies ok i es = none → ∃ h' q cas c k n, copyLoop ok fuel i h next1 p = some (.null, h') ∧
      Frame h h' next1 q ∧ Seg h' q (.addr c) cas ∧ entries h' cas = some (es.take k) ∧
      (∀ x ∈ cas ++ [c], h.length ≤ x) ∧ h'.read c = some n ∧ n.name = .null ∧
      Seg h' n.next .null (as.drop (k + 1)) ∧ k < as.length) := by
  induction as generalizing fuel i next1 h p es m with
  | nil =>
    obtain rfl := hs.eq_of_nil
    obtain rfl : es = [] := by simpa [entries] using he.symm
    refine ⟨fun b cs hb => ?_, fun hb => by simp [appendCopies] at hb⟩
    obtain ⟨rfl, rfl⟩ : b = true ∧ cs = [] := by simpa [appendCopies] using hb.symm
    refine ⟨.addr next1, h, .null, [], by rw [copyLoop], ?_, .nil _, rfl, by simp, rfl, by simp⟩
    simpa [hp rfl] using Frame.refl hm
  | cons a as ih =>
    obtain ⟨n, e, es, s, rfl, hr, hs, hv, he', rfl, hname⟩ := hs.cons_entries he
    have hne : next1 ≠ a := fun h => hn (h ▸ List.mem_cons_self _ _)
    have hn' : next1 ∉ as := fun h => hn (List.mem_cons_of_mem _ h)
    have hkeep : ∀ n', ∀ x ∈ as, (link h next1 m n').read x = h.read x :=
      fun _ => (frame_link hm).read_of_not_mem hs hn'
    cases fuel with
    | zero => simp at hf
    | succ fuel =>
    cases h1 : (ok i).1
    case false =>
      have hc : appendCopies ok i (e :: es) = some (false, []) := by simp [appendCopies, h1]
      refine ⟨fun b cs hb => ?_, fun hb => by rw [hc] at hb; cases hb⟩
      rw [hc] at hb
      cases hb
      refine ⟨.null, _, .null, [], copyLoop_malloc_fail hm h1, ⟨by simp, fun x _ hx => read_write_of_ne (Ne.symm hx), ?_⟩,
        .nil _, rfl, by simp, by simp, by simp⟩
      simp [read_write_self (lt_length_of_read hm), hm]
    case true =>
    cases h2 : (ok i).2
    case false =>
      have hc : appendCopies ok i (e :: es) = none := by simp [appendCopies, h1, h2]
      refine ⟨fun b cs hb => (by rw [hc] at hb; cases hb), fun _ => ?_⟩
      exact ⟨_, _, [], h.length, 0, _, copyLoop_strdup_fail hm hr hne hname (Prod.ext h1 h2), frame_link hm, .nil _,
        rfl, by simp, read_link_self, rfl, hs.frame (hkeep _), by simp⟩
    case true =>
      have hc : appendCopies ok i (e :: es) = (appendCopies ok (i + 1) es).map fun r => (r.1, e :: r.2) := by
        simp [appendCopies, h1, h2]
      rw [copyLoop_copy hm hr hne hname (Prod.ext h1 h2), hc]
      have hfresh : h.length ∉ as := fun hx => lt_irrefl _ (hs.lt_length _ hx)
      obtain ⟨hsome, hnone⟩ := ih (hs.frame (hkeep n)) (((frame_link hm).entries hs).trans he') read_link_self hfresh id
        (by simpa using hf)
      refine ⟨fun b cs hb => ?_, fun hb => ?_⟩
      · obtain ⟨⟨b, cs⟩, hb', hbc⟩ := Option.map_eq_some'.mp hb
        cases hbc
        obtain ⟨r, h', q, cas, hrun, f, hsq, hcas, hfr, hlen, hrb⟩ := hsome b cs hb'
        obtain ⟨f', hseg, hent⟩ := link_then hm f hsq
        exact ⟨r, h', _, _, hrun, f', hseg, by simp [hent, hv, hcas], fresh_link hfr,
          by rw [hlen, length_link, List.length_cons]; omega, hrb⟩
      · obtain ⟨h', q, cas, c, k, n', hrun, f, hsq, hcas, hfr, hc', hnc, hrest, hk⟩ :=
          hnone (Option.map_eq_none'.mp hb)
        obtain ⟨f', hseg, hent⟩ := link_then hm f hsq
        exact ⟨h', _, _, c, k + 1, n', hrun, f', hseg, by simp [hent, hv, hcas], fresh_link hfr, hc', hnc, hrest,
          by simp; omega⟩

section
/-- The two loops of `dir_list_append` on two lists with no node in common:
the last node of the first, and the loop's spec from it. -/
theorem dirListAppend_run (ok : ℕ → Bool × Bool) (h1 : ListAt h list1 as1 es1) (h2 : ListAt h list2 as2 es2)
    (hd : (list1 :: as1).Disjoint (list2 :: as2)) (hf1 : as1.length ≤ fuel) :
    ∃ n1 n2 last m, h.read list1 = some n1 ∧ Seg h n1.next .null as1 ∧ entries h as1 = some es1 ∧
      h.read list2 = some n2 ∧ Seg h n2.next .null as2 ∧ entries h as2 = some es2 ∧
      last = (list1 :: as1).getLast (List.cons_ne_nil _ _) ∧ h.read last = some m ∧ m.next = .null ∧
      last ∉ list2 :: as2 ∧ dirListAppend ok fuel h list1 list2 = copyLoop ok fuel 0 h last n2.next := by
  obtain ⟨n1, hr1, hs1, he1⟩ := h1
  obtain ⟨n2, hr2, hs2, he2⟩ := h2
  obtain ⟨m, hm, hmn⟩ := hs1.last hr1 rfl
  refine ⟨n1, n2, _, m, hr1, hs1, he1, hr2, hs2, he2, rfl, hm, hmn, hd (List.getLast_mem _), ?_⟩
  simp [dirListAppend, hr1, hr2, lastNode_spec hs1 hf1]

/-- The second list keeps its nodes and entries when only the `next` of a
node not among them changed. -/
theorem listAt_of_frame {h' : Heap} {last : ℕ} {q : Ptr} {n2 : Node} (f : Frame h h' last q)
    (hr2 : h.read list2 = some n2) (hs2 : Seg h n2.next .null as2) (he2 : entries h as2 = some es2)
    (hl : last ∉ list2 :: as2) : ListAt h' list2 as2 es2 := by
  have hne : list2 ≠ last := fun he => hl (he ▸ List.mem_cons_self _ _)
  have hnot : last ∉ as2 := fun h => hl (List.mem_cons_of_mem _ h)
  exact ⟨n2, (f.read_of_ne _ (lt_length_of_read hr2) hne).trans hr2,
    hs2.frame (f.read_of_not_mem hs2 hnot), (f.entries hs2).trans he2⟩

end

/-- `dir_list_append` of two lists with named entries and no node in common,
given enough fuel, when no `strdup` fails: it returns `NULL` exactly when a
`malloc` failed, and the first list is then its entries followed by fresh
copies of those of the second that `dirListAppend` gives; the second list is
unchanged. -/
theorem dirListAppend_keeps {ok : ℕ → Bool × Bool} {fuel : ℕ} {h : Heap} {list1 list2 : ℕ}
    {as1 as2 : List ℕ} {es1 es2 : List DirEntry} (h1 : ListAt h list1 as1 es1) (h2 : ListAt h list2 as2 es2)
    (hd : (list1 :: as1).Disjoint (list2 :: as2)) (hf1 : as1.length ≤ fuel) (hf2 : as2.length ≤ fuel)
    {b : Bool} {l : List DirEntry} (hl : DirList.dirListAppend es1 es2 ok = some (b, l)) :
    ∃ r h' cas, dirListAppend ok fuel h list1 list2 = some (r, h') ∧ ListAt h' list1 (as1 ++ cas) l ∧
      Keeps h h' (list1 :: as1) ∧ (∀ x ∈ cas, h.length ≤ x) ∧ h'.length = h.length + cas.length ∧
      (r = .null ↔ b = false) := by
  obtain ⟨n1, n2, _, m, hr1, hs1, he1, hr2, hs2, he2, rfl, hm, hmn, hl2, hrun⟩ := dirListAppend_run ok h1 h2 hd hf1
  obtain ⟨⟨b, cs⟩, hac, hbl⟩ := Option.map_eq_some'.mp hl
  cases hbl
  obtain ⟨r, h', q, cas, hc, f, hsq, hcas, hfr, hlen, hrb⟩ :=
    (copyLoop_spec ok hs2 he2 hm (fun h => hl2 (List.mem_cons_of_mem _ h)) (fun _ => hmn) hf2).1 b cs hac
  obtain ⟨n1', hr1', hs1'⟩ := hs1.redirect (fun _ => Ptr.noConfusion) hr1 rfl f
  exact ⟨r, h', cas, hrun.trans hc, ⟨n1', hr1', hs1'.append hsq, entries_append ((f.entries hs1).trans he1) hcas⟩,
    f.keeps (List.getLast_mem _), hfr, hlen, hrb⟩

theorem dirListAppend_refines {ok : ℕ → Bool × Bool} {fuel : ℕ} {h : Heap} {list1 list2 : ℕ}
    {as1 as2 : List ℕ} {es1 es2 : List DirEntry} (h1 : ListAt h list1 as1 es1) (h2 : ListAt h list2 as2 es2)
    (hd : (list1 :: as1).Disjoint (list2 :: as2)) (hf1 : as1.length ≤ fuel) (hf2 : as2.length ≤ fuel)
    {b : Bool} {l : List DirEntry} (hl : DirList.dirListAppend es1 es2 ok = some (b, l)) :
    ∃ r h' cas, dirListAppend ok fuel h list1 list2 = some (r, h') ∧ ListAt h' list1 (as1 ++ cas) l ∧
      ListAt h' list2 as2 es2 ∧ (∀ x ∈ cas, h.length ≤ x) ∧ (r = .null ↔ b = false) := by
  obtain ⟨r, h', cas, hrun, hl1, k, hfr, -, hrb⟩ := dirListAppend_keeps h1 h2 hd hf1 hf2 hl
  exact ⟨r, h', cas, hrun, hl1, h2.keeps k hd.symm, hfr, hrb⟩

theorem dirListAppend_refines_one_copy :
    let x : CStr := ⟨lit "x", by decide⟩
    let a : CStr := ⟨lit "a", by decide⟩
    let H : Heap := [some ⟨.null, 0, 0, 0, 0, .addr 1⟩, some ⟨.str x, 0, 0, DIR_E_NRM, 1, .null⟩,
      some ⟨.null, 0, 0, 0, 0, .addr 3⟩, some ⟨.str a, 0, 0, DIR_E_RAR, 1, .null⟩]
    let ex : DirEntry := ⟨x, 0, 0, DIR_E_NRM, 1⟩
    let ea : DirEntry := ⟨a, 0, 0, DIR_E_RAR, 1⟩
    ListAt H 0 [1] [ex] ∧ ListAt H 2 [3] [ea] ∧ [0, 1].Disjoint [2, 3] ∧
      DirList.dirListAppend [ex] [ea] (fun _ => (true, true)) = some (true, [ex, ea]) ∧
      ∃ r h' cas, dirListAppend (fun _ => (true, true)) 1 H 0 2 = some (r, h') ∧
        ListAt h' 0 ([1] ++ cas) [ex, ea] ∧ ListAt h' 2 [3] [ea] ∧ (∀ y ∈ cas, H.length ≤ y) ∧
        (r = .null ↔ true = false) := by
  intro x a H ex ea
  have h1 : ListAt H 0 [1] [ex] := ⟨_, rfl, .cons rfl (.nil _), rfl⟩
  have h2 : ListAt H 2 [3] [ea] := ⟨_, rfl, .cons rfl (.nil _), rfl⟩
  have hd : [0, 1].Disjoint [2, 3] := by simp [List.Disjoint]
  have hl : DirList.dirListAppend [ex] [ea] (fun _ => (true, true)) = some (true, [ex, ea]) := rfl
  exact ⟨h1, h2, hd, hl, dirListAppend_refines h1 h2 hd (le_refl 1) (le_refl 1) hl⟩

/-- `dir_list_append` of two such lists when a `strdup` fails before any
`malloc` does: it returns `NULL`, and the first list is its entries, fresh
copies of the first `k` entries of the second, a fresh node with a `NULL`
name, and then the second list's own nodes after its `k`-th. -/
theorem dirListAppend_strdup_fail {ok : ℕ → Bool × Bool} {fuel : ℕ} {h : Heap} {list1 list2 : ℕ}
    {as1 as2 : List ℕ} {es1 es2 : List DirEntry} (h1 : ListAt h list1 as1 es1) (h2 : ListAt h list2 as2 es2)
    (hd : (list1 :: as1).Disjoint (list2 :: as2)) (hf1 : as1.length ≤ fuel) (hf2 : as2.length ≤ fuel)
    (hl : DirList.dirListAppend es1 es2 ok = none) :
    ∃ h' cas c k n, dirListAppend ok fuel h list1 list2 = some (.null, h') ∧ k < as2.length ∧
      (∃ n1, h'.read list1 = some n1 ∧ Seg h' n1.next .null (as1 ++ cas ++ c :: as2.drop (k + 1))) ∧
      entries h' (as1 ++ cas) = some (es1 ++ es2.take k) ∧ h'.read c = some n ∧ n.name = .null ∧
      (∀ x ∈ cas ++ [c], h.length ≤ x) ∧ ListAt h' list2 as2 es2 := by
  obtain ⟨n1, n2, _, m, hr1, hs1, he1, hr2, hs2, he2, rfl, hm, hmn, hl2, hrun⟩ := dirListAppend_run ok h1 h2 hd hf1
  obtain ⟨h', q, cas, c, k, n, hc, f, hsq, hcas, hfr, hrc, hnc, hrest, hk⟩ :=
    (copyLoop_spec ok hs2 he2 hm (fun h => hl2 (List.mem_cons_of_mem _ h)) (fun _ => hmn) hf2).2
      (Option.map_eq_none'.mp hl)
  obtain ⟨n1', hr1', hs1'⟩ := hs1.redirect (fun _ => Ptr.noConfusion) hr1 rfl f
  exact ⟨h', cas, c, k, n, hrun.trans hc, hk, ⟨n1', hr1', (hs1'.append hsq).append (.cons hrc hrest)⟩,
    entries_append ((f.entries hs1).trans he1) hcas, hrc, hnc, hfr, listAt_of_frame f hr2 hs2 he2 hl2⟩

/-! ## `dir_list_dup` and `dir_list_free` -/

/-- The loop of `dir_list_free` from `next`: `free(tmp->entry.name)` and
`free(tmp)` for each node; `none` where it reads a freed or indeterminate
pointer or frees an indeterminate name. -/
def freeLoop : ℕ → Heap → Ptr → Option Heap
  | _, h, .null => some h
  | _, _, .undef => none
  | 0, _, .addr _ => none
  | fuel + 1, h, .addr a => (h.read a).bind fun n =>
    if n.name = .undef then none else freeLoop fuel (h.free a) n.next

/-- `dir_list_free(root)`: frees the nodes after the head. -/
def dirListFree (fuel : ℕ) (h : Heap) (root : ℕ) : Option Heap :=
  (h.read root).bind fun n => freeLoop fuel h n.next

/-- `dir_list_open(root)`; the head flag is not modelled. -/
def dirListOpen (h : Heap) (root : ℕ) : Option Heap :=
  (h.read root).map fun n => h.write root { n with next := .null, name := .null }

/-- How the loop of `dir_list_dup` ends: at the end of the source list, with
`l` the node last linked, or at a failed allocation, with the heap it passes
to `dir_list_free`. -/
inductive DupExit
  | done (l : ℕ) (h : Heap)
  | failed (h : Heap)

/-- The loop of `dir_list_dup`, at the `i`-th node `next` of the source, with
`l` the node last linked; `ok i` says whether the `malloc` and the `strdup` of
that turn succeed. A new node's `next` is written only on the next turn. -/
def dupLoop (ok : ℕ → Bool × Bool) : ℕ → ℕ → Heap → ℕ → Ptr → Option DupExit
  | _, _, h, l, .null => some (.done l h)
  | _, _, _, _, .undef => none
  | 0, _, _, _, .addr _ => none
  | fuel + 1, i, h, l, .addr next =>
    let (p, h) := h.malloc (ok i).1
    (h.setNext l p).bind fun h =>
      match p with
      | .addr c => (h.read next).bind fun n => (strdup n.name (ok i).2).bind fun name =>
          if name = .null then some (.failed (h.write c { Node.fresh with name := name }))
          else dupLoop ok fuel (i + 1)
            (h.write c { Node.fresh with name := name, hash := n.hash, type := n.type, valid := n.valid, st := n.st })
            c n.next
      | _ => some (.failed h)

/-- What `dir_list_dup` does after its loop: end the list and return the head,
or pass the list to `dir_list_free`, free the head and return `NULL`. -/
def dupFinish (fuel root : ℕ) : DupExit → Option (Ptr × Heap)
  | .done l h => (h.setNext l .null).map fun h => (.addr root, h)
  | .failed h => (dirListFree fuel h root).map fun h => (.null, h.free root)

/-- `dir_list_dup(src)`: `rootOk` says whether the `malloc` of the head
succeeds. -/
def dirListDup (ok : ℕ → Bool × Bool) (rootOk : Bool) (fuel : ℕ) (h : Heap) (src : ℕ) : Option (Ptr × Heap) :=
  match h.malloc rootOk with
  | (.addr root, h) => (h.read src).bind fun s => (dirListOpen h root).bind fun h =>
      (dupLoop ok fuel 0 h root s.next).bind (dupFinish fuel root)
  | (p, h) => some (p, h)

section
variable {h : Heap} {p r : Ptr} {as : List ℕ} {es : List DirEntry} {fuel : ℕ}

theorem entries_names (he : entries h as = some es) : ∀ x ∈ as, ∀ n, h.read x = some n → n.name ≠ .undef := by
  induction as generalizing es with
  | nil => simp
  | cons a as ih =>
    obtain ⟨n, e, es, hr, hv, he', rfl⟩ := entries_cons_inv he
    refine List.forall_mem_cons.mpr ⟨fun n' hn' => ?_, ih he'⟩
    rw [← Option.some.inj (hr.symm.trans hn'), Node.name_of_view hv]
    exact NamePtr.noConfusion

theorem length_of_entries (he : entries h as = some es) : as.length = es.length := by
  induction as generalizing es with
  | nil => cases he; rfl
  | cons a as ih =>
    obtain ⟨n, e, es, -, -, he', rfl⟩ := entries_cons_inv he
    simp [ih he']

/-- `dir_list_free`'s loop over a chain that ends in `NULL` or in an
indeterminate pointer and whose names can be freed: it frees every node when
the chain ends in `NULL` and the fuel lasts, and is undefined otherwise. -/
theorem freeLoop_seg (hs : Seg h p r as) (hr : ∀ a, r ≠ .addr a)
    (hn : ∀ x ∈ as, ∀ n, h.read x = some n → n.name ≠ .undef) :
    freeLoop fuel h p = if r = .null ∧ as.length ≤ fuel then some (as.foldl free h) else none := by
  have hnd := hs.nodup hr
  induction as generalizing h p fuel with
  | nil =>
    obtain rfl := hs.eq_of_nil
    cases p with
    | null => simp [freeLoop]
    | addr a => exact absurd rfl (hr a)
    | undef => simp [freeLoop]
  | cons a as ih =>
    obtain ⟨rfl, n, ha, hs⟩ := hs.cons_inv
    have hkeep : ∀ x ∈ as, (h.free a).read x = h.read x := fun x hx =>
      read_free_of_ne fun he => (List.nodup_cons.mp hnd).1 (he ▸ hx)
    cases fuel with
    | zero => simp [freeLoop]
    | succ fuel =>
      have hname := hn a (List.mem_cons_self _ _) n ha
      rw [freeLoop, ha, Option.some_bind, if_neg hname,
        ih (hs.frame hkeep) (fun x hx m hm => hn x (List.mem_cons_of_mem _ hx) m ((hkeep x hx).symm.trans hm))
          hnd.of_cons]
      simp

end

theorem dirListAppend_strdup_fail_first_copy :
    let x : CStr := ⟨lit "x", by decide⟩
    let a : CStr := ⟨lit "a", by decide⟩
    let H : Heap := [some ⟨.null, 0, 0, 0, 0, .addr 1⟩, some ⟨.str x, 0, 0, DIR_E_NRM, 1, .null⟩,
      some ⟨.null, 0, 0, 0, 0, .addr 3⟩, some ⟨.str a, 0, 0, DIR_E_RAR, 1, .null⟩]
    let ex : DirEntry := ⟨x, 0, 0, DIR_E_NRM, 1⟩
    let ea : DirEntry := ⟨a, 0, 0, DIR_E_RAR, 1⟩
    ListAt H 0 [1] [ex] ∧ ListAt H 2 [3] [ea] ∧ [0, 1].Disjoint [2, 3] ∧
      DirList.dirListAppend [ex] [ea] (fun _ => (true, false)) = none ∧
      ∃ h' cas c k n, dirListAppend (fun _ => (true, false)) 1 H 0 2 = some (.null, h') ∧ k < [3].length ∧
        (∃ n1, h'.read 0 = some n1 ∧ Seg h' n1.next .null ([1] ++ cas ++ c :: [3].drop (k + 1))) ∧
        entries h' ([1] ++ cas) = some ([ex] ++ [ea].take k) ∧ h'.read c = some n ∧ n.name = .null ∧
        (∀ y ∈ cas ++ [c], H.length ≤ y) ∧ ListAt h' 2 [3] [ea] := by
  intro x a H ex ea
  have h1 : ListAt H 0 [1] [ex] := ⟨_, rfl, .cons rfl (.nil _), rfl⟩
  have h2 : ListAt H 2 [3] [ea] := ⟨_, rfl, .cons rfl (.nil _), rfl⟩
  have hd : [0, 1].Disjoint [2, 3] := by simp [List.Disjoint]
  have hl : DirList.dirListAppend [ex] [ea] (fun _ => (true, false)) = none := rfl
  exact ⟨h1, h2, hd, hl, dirListAppend_strdup_fail h1 h2 hd (le_refl 1) (le_refl 1) hl⟩

section
variable {ok : ℕ → Bool × Bool} {fuel i l a : ℕ} {h : Heap} {m n : Node}

theorem frame_write_next (hm : h.read l = some m) (q : Ptr) : Frame h (h.write l { m with next := q }) l q :=
  ⟨by simp, fun _ _ hx => read_write_of_ne (Ne.symm hx), by simp [read_write_self (lt_length_of_read hm), hm]⟩

theorem dupLoop_malloc_fail (hm : h.read l = some m) (hok : (ok i).1 = false) :
    dupLoop ok (fuel + 1) i h l (.addr a) = some (.failed (h.write l { m with next := .null })) := by
  simp [dupLoop, malloc, hok, setNext, hm]

theorem dupLoop_strdup_fail {s : CStr} (hm : h.read l = some m) (hn : h.read a = some n)
    (hne : l ≠ a) (hs : n.name = .str s) (hok : ok i = (true, false)) :
    dupLoop ok (fuel + 1) i h l (.addr a) = some (.failed (link h l m { Node.fresh with name := .null })) := by
  simp [dupLoop, malloc, hok, setNext, read_append_of_lt _ (lt_length_of_read hm), hm, read_write_of_ne hne,
    read_append_of_lt _ (lt_length_of_read hn), hn, hs, strdup, link]

theorem dupLoop_copy {s : CStr} (hm : h.read l = some m) (hn : h.read a = some n)
    (hne : l ≠ a) (hs : n.name = .str s) (hok : ok i = (true, true)) :
    dupLoop ok (fuel + 1) i h l (.addr a) = dupLoop ok fuel (i + 1) (link h l m { n with next := .undef }) h.length n.next := by
  have hn' : { Node.fresh with name := .str s, hash := n.hash, type := n.type, valid := n.valid, st := n.st } =
      { n with next := .undef } := by cases n; cases hs; rfl
  simp [dupLoop, malloc, hok, setNext, read_append_of_lt _ (lt_length_of_read hm), hm, read_write_of_ne hne,
    read_append_of_lt _ (lt_length_of_read hn), hn, hs, strdup, link, hn']

end

/-- What the loop of `dir_list_dup` leaves, from a node `l` whose `next` is
`NULL` or indeterminate: among the old nodes only `l`'s `next` changes, to a
chain of fresh nodes. When every allocation succeeds they copy the entries
and the chain ends in the last node's `next`, never an address; when a
`malloc` fails they copy those before it and the chain ends in `NULL`; when a
`strdup` fails the chain ends in the indeterminate `next` of a node whose name
is `NULL`. -/
theorem dupLoop_spec (ok : ℕ → Bool × Bool) {as : List ℕ} {fuel i l : ℕ} {h : Heap} {p : Ptr}
    {es : List DirEntry} {m : Node} (hs : Seg h p .null as) (he : entries h as = some es)
    (hm : h.read l = some m) (hn : l ∉ as) (hmn : ∀ a, m.next ≠ .addr a) (hf : as.length ≤ fuel) :
    (∀ cs, appendCopies ok i es = some (true, cs) → ∃ l' h' q r cas, dupLoop ok fuel i h l p = some (.done l' h') ∧
      Frame h h' l q ∧ Seg h' q r cas ∧ (∀ a, r ≠ .addr a) ∧ l' = (l :: cas).getLast (List.cons_ne_nil _ _) ∧
      entries h' cas = some cs ∧ (∀ x ∈ cas, h.length ≤ x) ∧ h'.length = h.length + cas.length) ∧
    (∀ cs, appendCopies ok i es = some (false, cs) → ∃ h' q cas, dupLoop ok fuel i h l p = some (.failed h') ∧
      Frame h h' l q ∧ Seg h' q .null cas ∧ entries h' cas = some cs ∧ (∀ x ∈ cas, h.length ≤ x) ∧
      h'.length = h.length + cas.length) ∧
    (appendCopies ok i es = none → ∃ h' q cas, dupLoop ok fuel i h l p = some (.failed h') ∧
      Frame h h' l q ∧ Seg h' q .undef cas ∧ (∀ x ∈ cas, ∀ n, h'.read x = some n → n.name ≠ .undef) ∧
      ∀ x ∈ cas, h.length ≤ x) := by
  induction as generalizing fuel i l h p es m with
  | nil =>
    obtain rfl := hs.eq_of_nil
    obtain rfl : es = [] := by simpa [entries] using he.symm
    have hc : appendCopies ok i [] = some (true, []) := rfl
    refine ⟨fun cs hb => ?_, fun cs hb => (by rw [hc] at hb; cases hb), fun hb => by rw [hc] at hb; cases hb⟩
    rw [hc] at hb
    cases hb
    exact ⟨l, h, m.next, m.next, [], by rw [dupLoop], Frame.refl hm, .nil _, hmn, rfl, rfl, by simp, rfl⟩
  | cons a as ih =>
    obtain ⟨n, e, es, s, rfl, hr, hs, hv, he', rfl, hname⟩ := hs.cons_entries he
    have hne : l ≠ a := fun h => hn (h ▸ List.mem_cons_self _ _)
    have hkeep : ∀ n', ∀ x ∈ as, (link h l m n').read x = h.read x :=
      fun _ => (frame_link hm).read_of_not_mem hs fun h => hn (List.mem_cons_of_mem _ h)
    cases fuel with
    | zero => simp at hf
    | succ fuel =>
    cases h1 : (ok i).1
    case false =>
      have hc : appendCopies ok i (e :: es) = some (false, []) := by simp [appendCopies, h1]
      refine ⟨fun cs hb => (by rw [hc] at hb; cases hb), fun cs hb => ?_, fun hb => by rw [hc] at hb; cases hb⟩
      rw [hc] at hb
      cases hb
      exact ⟨_, .null, [], dupLoop_malloc_fail hm h1, frame_write_next hm _, .nil _, rfl, by simp, by simp⟩
    case true =>
    cases h2 : (ok i).2
    case false =>
      have hc : appendCopies ok i (e :: es) = none := by simp [appendCopies, h1, h2]
      refine ⟨fun cs hb => (by rw [hc] at hb; cases hb), fun cs hb => (by rw [hc] at hb; cases hb), fun _ => ?_⟩
      have hc' : (link h l m { Node.fresh with name := .null }).read h.length = some { Node.fresh with name := .null } :=
        read_link_self
      refine ⟨_, _, [h.length], dupLoop_strdup_fail hm hr hne hname (Prod.ext h1 h2), frame_link hm,
        .cons hc' (.nil _), ?_, by simp⟩
      simp only [List.mem_singleton, forall_eq, hc', Option.some.injEq, forall_eq']
      exact NamePtr.noConfusion
    case true =>
      have hc : appendCopies ok i (e :: es) = (appendCopies ok (i + 1) es).map fun r => (r.1, e :: r.2) := by
        simp [appendCopies, h1, h2]
      rw [dupLoop_copy hm hr hne hname (Prod.ext h1 h2), hc]
      have hfresh : h.length ∉ as := fun hx => lt_irrefl _ (hs.lt_length _ hx)
      have hc' : (link h l m { n with next := .undef }).read h.length = some { n with next := .undef } :=
        read_link_self
      obtain ⟨hdone, hmalloc, hstrdup⟩ := ih (hs.frame (hkeep _)) (((frame_link hm).entries hs).trans he') hc'
        hfresh (fun _ => Ptr.noConfusion) (by simpa using hf)
      refine ⟨fun cs hb => ?_, fun cs hb => ?_, fun hb => ?_⟩
      · obtain ⟨⟨b, cs⟩, hb', hbc⟩ := Option.map_eq_some'.mp hb
        cases hbc
        obtain ⟨l', h', q, r, cas, hrun, f, hsq, hr, hl', hcas, hfr, hlen⟩ := hdone cs hb'
        obtain ⟨f', hseg, hent⟩ := link_then hm f hsq
        exact ⟨l', h', _, r, _, hrun, f', hseg, hr, by subst hl'; rfl, by simp [hent, hv, hcas], fresh_link hfr,
          by rw [hlen, length_link, List.length_cons]; omega⟩
      · obtain ⟨⟨b, cs⟩, hb', hbc⟩ := Option.map_eq_some'.mp hb
        cases hbc
        obtain ⟨h', q, cas, hrun, f, hsq, hcas, hfr, hlen⟩ := hmalloc cs hb'
        obtain ⟨f', hseg, hent⟩ := link_then hm f hsq
        exact ⟨h', _, _, hrun, f', hseg, by simp [hent, hv, hcas], fresh_link hfr,
          by rw [hlen, length_link, List.length_cons]; omega⟩
      · obtain ⟨h', q, cas, hrun, f, hsq, hnames, hfr⟩ := hstrdup (Option.map_eq_none'.mp hb)
        obtain ⟨f', hseg, -⟩ := link_then hm f hsq
        refine ⟨h', _, _, hrun, f', hseg, List.forall_mem_cons.mpr ⟨fun n' hn' => ?_, hnames⟩, fresh_link hfr⟩
        rw [f.read_self, read_link_self] at hn'
        cases hn'
        simp [hname]

/-- The heap after `dir_list_dup` allocated its head at `h.length` and
opened it. -/
def dupHead (h : Heap) : Heap :=
  (h ++ [some Node.fresh]).write h.length { Node.fresh with next := .null, name := .null }

section
variable {ok : ℕ → Bool × Bool} {fuel src : ℕ} {h : Heap} {as : List ℕ} {es : List DirEntry}

theorem read_dupHead_of_lt {x : ℕ} (hx : x < h.length) : (dupHead h).read x = h.read x := by
  rw [dupHead, read_write_of_ne (by omega), read_append_of_lt _ hx]

theorem read_dupHead_self : (dupHead h).read h.length = some { Node.fresh with next := .null, name := .null } :=
  read_write_self (by simp)

theorem length_dupHead : (dupHead h).length = h.length + 1 := by
  simp [dupHead]

theorem dirListDup_eq {s : Node} (hs : h.read src = some s) :
    dirListDup ok true fuel h src = (dupLoop ok fuel 0 (dupHead h) h.length s.next).bind (dupFinish fuel h.length) := by
  simp [dirListDup, malloc, read_append_of_lt _ (lt_length_of_read hs), hs, dirListOpen, read_append_length, dupHead]

theorem read_head_of_frame {h' : Heap} {q : Ptr} (f : Frame (dupHead h) h' h.length q) :
    h'.read h.length = some { { Node.fresh with next := .null, name := .null } with next := q } := by
  rw [f.read_self, read_dupHead_self]; rfl

end

/-- `dir_list_dup` of a list with named entries, given enough fuel. When every
allocation succeeds it returns a new head at `h.length` whose list holds the
same entries in fresh nodes, and the source list is unchanged. When a `malloc`
fails first, `dir_list_free` walks a `NULL`-terminated chain and `NULL` is
returned. When a `strdup` fails first, `dir_list_free` reads the indeterminate
`next` of the node whose name failed, which the model makes `none`. -/
theorem dirListDup_keeps (ok : ℕ → Bool × Bool) {fuel : ℕ} {h : Heap} {src : ℕ} {as : List ℕ}
    {es : List DirEntry} (hs : ListAt h src as es) (hf : as.length ≤ fuel) {b : Bool} {cs : List DirEntry}
    (hac : appendCopies ok 0 es = some (b, cs)) :
    ∃ r h', dirListDup ok true fuel h src = some (r, h') ∧ Keeps h h' [] ∧
      (b = true → ∃ cas, r = .addr h.length ∧ ListAt h' h.length cas es ∧ (∀ x ∈ cas, h.length < x) ∧
        h'.length = h.length + 1 + cas.length) ∧
      (b = false → r = .null ∧ ∀ x, h.length ≤ x → h'.read x = none) := by
  obtain ⟨s, hr, hss, hes⟩ := hs
  have hkeep : ∀ x ∈ as, (dupHead h).read x = h.read x := fun x hx => read_dupHead_of_lt (hss.lt_length x hx)
  obtain ⟨hdone, hmalloc, -⟩ := dupLoop_spec ok (i := 0) (hss.frame hkeep) ((entries_frame hkeep).trans hes)
    read_dupHead_self (fun hx => lt_irrefl _ (hss.lt_length _ hx)) (fun _ => Ptr.noConfusion) hf
  rw [dirListDup_eq hr]
  cases b with
  | true =>
    obtain rfl := appendCopies_true hac
    obtain ⟨l', h', q, r, cas, hrun, f, hsq, hr', hl', hcas, hfr, hlen'⟩ := hdone cs hac
    have hfr' : ∀ x ∈ cas, h.length < x := fun x hx => by have := hfr x hx; rw [length_dupHead] at this; omega
    obtain ⟨m', hm', -⟩ := hsq.last (read_head_of_frame f) rfl
    rw [← hl'] at hm'
    have f' := frame_write_next hm' .null
    obtain ⟨n, hn, hseg⟩ := hsq.redirect hr' (read_head_of_frame f) rfl (by rw [← hl']; exact f')
    have hl'ge : h.length ≤ l' := by
      rcases List.mem_cons.mp (hl' ▸ List.getLast_mem _ : l' ∈ h.length :: cas) with he | he
      · omega
      · exact (hfr' l' he).le
    have hlen : h.length < h'.length := by have := f.length_le; rw [length_dupHead] at this; omega
    refine ⟨_, _, by simp [hrun, dupFinish, setNext, hm'], ⟨by simp; omega, fun x hx _ => ?_⟩,
      fun _ => ⟨cas, rfl, ⟨n, hn, hseg, (f'.entries hsq).trans hcas⟩, hfr', by rw [length_write, hlen', length_dupHead]⟩,
      nofun⟩
    exact (f'.read_of_ne x (by omega) (by omega)).trans
      ((f.read_of_ne x (by rw [length_dupHead]; omega) (by omega)).trans (read_dupHead_of_lt hx))
  | false =>
    obtain ⟨h', q, cas, hrun, f, hsq, hcas, hfr, hlen'⟩ := hmalloc cs hac
    have hlen : cas.length ≤ fuel := by
      rw [length_of_entries hcas]
      exact ((appendCopies_sublist ok 0 es _ hac).length_le.trans (length_of_entries hes).ge).trans hf
    simp only [hrun, Option.some_bind, dupFinish, dirListFree, read_head_of_frame f,
      freeLoop_seg hsq (fun _ => Ptr.noConfusion) (entries_names hcas), true_and, if_pos hlen, Option.map_some']
    rw [length_dupHead] at hfr hlen'
    refine ⟨_, _, rfl, ⟨?_, fun x hx _ => ?_⟩, nofun, fun _ => ⟨rfl, fun x hx => ?_⟩⟩
    · rw [length_free, length_foldl_free]; omega
    · have hxc : x ∉ cas := fun hc => by have := hfr x hc; omega
      rw [read_free_of_ne (by omega), read_foldl_free, if_neg hxc,
        f.read_of_ne x (by rw [length_dupHead]; omega) (by omega), read_dupHead_of_lt hx]
    · by_cases hxh : x = h.length
      · rw [hxh, read_free_self]
      rw [read_free_of_ne (Ne.symm hxh), read_foldl_free]
      split_ifs with hxc
      · rfl
      · refine read_of_length_le (not_lt.mp fun hlt => hxc (mem_of_range_nodup (hsq.nodup fun _ => Ptr.noConfusion)
          (fun y hy => ⟨hfr y hy, by have := hsq.lt_length y hy; omega⟩) ⟨by omega, by omega⟩))

/-- The outcomes of `dir_list_dup(src)` for a list `src`: with every
allocation succeeding, a fresh head whose list holds the entries of `src` at
fresh nodes, `src` unchanged; when the `malloc` of the head fails, `NULL` and
the heap as it was; when the `malloc` of a node fails before any `strdup`
does, `NULL`; when a `strdup` fails, no result, as `dir_list_free` follows
the indeterminate `next` of the last node. -/
theorem dirListDup_outcomes (ok : ℕ → Bool × Bool) {fuel : ℕ} {h : Heap} {src : ℕ} {as : List ℕ}
    {es : List DirEntry} (hs : ListAt h src as es) (hf : as.length ≤ fuel) :
    ((∀ i, ok i = (true, true)) → ∃ h' cas, dirListDup ok true fuel h src = some (.addr h.length, h') ∧
      ListAt h' h.length cas es ∧ ListAt h' src as es ∧ ∀ x ∈ cas, h.length < x) ∧
    dirListDup ok false fuel h src = some (.null, h) ∧
    (∀ cs, appendCopies ok 0 es = some (false, cs) → ∃ h', dirListDup ok true fuel h src = some (.null, h')) ∧
    (appendCopies ok 0 es = none → dirListDup ok true fuel h src = none) := by
  refine ⟨fun hok => ?_, rfl, fun cs hac => ?_, fun hac => ?_⟩
  · obtain ⟨r, h', hrun, k, htrue, -⟩ := dirListDup_keeps ok hs hf (appendCopies_ok hok 0 es)
    obtain ⟨cas, rfl, hl, hfr, -⟩ := htrue rfl
    exact ⟨h', cas, hrun, hl, hs.keeps k (List.disjoint_nil_right _), hfr⟩
  · obtain ⟨r, h', hrun, -, -, hnull⟩ := dirListDup_keeps ok hs hf hac
    exact ⟨h', (hnull rfl).1 ▸ hrun⟩
  · obtain ⟨s, hr, hss, hes⟩ := hs
    have hkeep : ∀ x ∈ as, (dupHead h).read x = h.read x := fun x hx => read_dupHead_of_lt (hss.lt_length x hx)
    obtain ⟨h', q, cas, hrun, f, hsq, hnames, hfr⟩ := (dupLoop_spec ok (i := 0) (hss.frame hkeep)
      ((entries_frame hkeep).trans hes) read_dupHead_self (fun hx => lt_irrefl _ (hss.lt_length _ hx))
      (fun _ => Ptr.noConfusion) hf).2.2 hac
    simp [dirListDup_eq hr, hrun, dupFinish, dirListFree, read_head_of_frame f,
      freeLoop_seg hsq (fun _ => Ptr.noConfusion) hnames]


theorem dirListDup_outcomes_one_entry :
    let a : CStr := ⟨lit "a", by decide⟩
    let S : Heap := [some ⟨.null, 0, 0, 0, 0, .addr 1⟩, some ⟨.str a, 0, 0, DIR_E_NRM, 1, .null⟩]
    let ea : DirEntry := ⟨a, 0, 0, DIR_E_NRM, 1⟩
    let ok : ℕ → Bool × Bool := fun _ => (true, true)
    ListAt S 0 [1] [ea] ∧
      ((∀ i, ok i = (true, true)) → ∃ h' cas, dirListDup ok true 1 S 0 = some (.addr S.length, h') ∧
        ListAt h' S.length cas [ea] ∧ ListAt h' 0 [1] [ea] ∧ ∀ x ∈ cas, S.length < x) ∧
      dirListDup ok false 1 S 0 = some (.null, S) ∧
      (∀ cs, appendCopies ok 0 [ea] = some (false, cs) → ∃ h', dirListDup ok true 1 S 0 = some (.null, h')) ∧
      (appendCopies ok 0 [ea] = none → dirListDup ok true 1 S 0 = none) := by
  intro a S ea ok
  have hs : ListAt S 0 [1] [ea] := ⟨_, rfl, .cons rfl (.nil _), rfl⟩
  exact ⟨hs, dirListDup_outcomes ok hs (le_refl 1)⟩

/-- Where a `strdup` fails, the lists are not as a failed allocation should
leave them. Appending `[a, b]` to an empty list when the first `strdup` fails
links a node with a `NULL` name whose `next` is the second list's own node
`b`, so the first list holds a `NULL` name and runs on into the second list.
`dir_list_dup` of `[a]` when its `strdup` fails hands `dir_list_free` a chain
whose last `next` is indeterminate; with the fuel that copies the list when
the allocations succeed, it does not return. -/
theorem strdup_failure_chains :
    let a : CStr := ⟨lit "a", by decide⟩
    let b : CStr := ⟨lit "b", by decide⟩
    let H : Heap := [some ⟨.null, 0, 0, 0, 0, .null⟩, some ⟨.null, 0, 0, 0, 0, .addr 2⟩,
      some ⟨.str a, 0, 0, DIR_E_NRM, 1, .addr 3⟩, some ⟨.str b, 0, 0, DIR_E_NRM, 1, .null⟩]
    let S : Heap := [some ⟨.null, 0, 0, 0, 0, .addr 1⟩, some ⟨.str a, 0, 0, DIR_E_NRM, 1, .null⟩]
    ListAt H 0 [] [] ∧ ListAt H 1 [2, 3] [⟨a, 0, 0, DIR_E_NRM, 1⟩, ⟨b, 0, 0, DIR_E_NRM, 1⟩] ∧
      (∃ H', dirListAppend (fun _ => (true, false)) 2 H 0 1 = some (.null, H') ∧
        (∃ n, H'.read 0 = some n ∧ Seg H' n.next .null [4, 3]) ∧ (H'.read 4).map Node.name = some .null ∧
        ListAt H' 1 [2, 3] [⟨a, 0, 0, DIR_E_NRM, 1⟩, ⟨b, 0, 0, DIR_E_NRM, 1⟩]) ∧
      ListAt S 0 [1] [⟨a, 0, 0, DIR_E_NRM, 1⟩] ∧
      (∃ D n, dupLoop (fun _ => (true, false)) 1 0 (dupHead S) 2 (.addr 1) = some (.failed D) ∧
        D.read 2 = some n ∧ Seg D n.next .undef [3]) ∧
      (dirListDup (fun _ => (true, true)) true 1 S 0).isSome ∧
      dirListDup (fun _ => (true, false)) true 1 S 0 = none :=
  ⟨⟨_, rfl, .nil _, rfl⟩, ⟨_, rfl, .cons rfl (.cons rfl (.nil _)), rfl⟩,
    ⟨_, rfl, ⟨_, rfl, .cons rfl (.cons rfl (.nil _))⟩, rfl, ⟨_, rfl, .cons rfl (.cons rfl (.nil _)), rfl⟩⟩,
    ⟨_, rfl, .cons rfl (.nil _), rfl⟩, ⟨_, _, rfl, rfl, .cons rfl (.nil _)⟩, rfl, rfl⟩

end Heap

end Rar2fs.DirList
