import Rar2fs.DirList.Heap
import Rar2fs.DirList.Add

/-!
# `dir_entry_add` in the heap

`Rar2fs.DirList.Add` models a caller of `dir_entry_add` over the entries of
its list. Here the call walks the nodes of `Rar2fs.DirList.Heap` as the code
does: from the head, comparing the hash of each node and then, on a match, its
name; at the end of the list it links a fresh node after the last one, which
`add_entry` fills, or frees it again when the `strdup` of the name fails.

* `searchLoop_spec`: the search loop stops at the first entry with the hash
  and the name of the key, or at the last node;
* `dirEntryAdd_refines`: on a list of named entries, a call is the entry-level
  `dirEntryAdd`, the pointer it returns is the node of the index that one
  returns, and no node outside the list changes;
* `runCalls_refines`: over every sequence of calls by a caller that holds
  `NULL` or a head, with every outcome of the allocations, the heap holds the
  list of the entry-level `runCalls`, the returned pointers are the nodes of
  its results, and each node the calls allocated is in the list or freed.
-/

namespace Rar2fs.DirList

namespace Heap

/-- Where the search loop of `dir_entry_add` stops: at the node of the key, or
at the last node of the list. -/
inductive Search
  | found (a : ℕ)
  | last (a : ℕ)
  deriving DecidableEq

/-- The search loop of `dir_entry_add`, at the node `l`, with `tmp` the node
before it. A node's name is read only when its hash is the key's. -/
def searchLoop (h : Heap) (hash : UInt32) (key : CStr) : ℕ → ℕ → Ptr → Option Search
  | _, tmp, .null => some (.last tmp)
  | _, _, .undef => none
  | 0, _, .addr _ => none
  | fuel + 1, _, .addr a => (h.read a).bind fun n =>
    if hash = n.hash then
      match n.name with
      | .str s => if strcmp key.bytes s.bytes = 0 then some (.found a) else searchLoop h hash key fuel a n.next
      | _ => none
    else searchLoop h hash key fuel a n.next

/-- The node `add_entry` fills: the copy of the key, its hash, `st`, `type`,
and `valid = 1`; `next` is `NULL`. -/
def addedNode (key : CStr) (st : ℕ) (type : Int) (hash : UInt32) : Node := ⟨.str key, hash, st, type, 1, .null⟩

/-- The code at `new:` of `dir_entry_add`, after the node `l`: a node linked
after it and filled by `add_entry`. When the `malloc` fails `l->next` is
`NULL`; when the `strdup` of `add_entry` fails the node is freed and
`l->next` is `NULL` again. -/
def addNew (mallocOk strdupOk : Bool) (h : Heap) (l : ℕ) (key : CStr) (st : ℕ) (type : Int) (hash : UInt32) :
    Option (Ptr × Heap) :=
  let (p, h) := h.malloc mallocOk
  (h.setNext l p).bind fun h =>
    match p with
    | .addr c =>
      if strdupOk then some (.addr c, h.write c (addedNode key st type hash))
      else ((h.free c).setNext l .null).map fun h => (.null, h)
    | _ => some (.null, h)

/-- `dir_entry_add(l, key, st, type)` with `l` the head of the list at
`root`: the pointer it returns and the heap after it. -/
def dirEntryAdd (getHash : List UInt8 → UInt32) (fuel : ℕ) (h : Heap) (root : ℕ) (key : CStr) (st : ℕ)
    (type : Int) (mallocOk strdupOk : Bool) : Option (Ptr × Heap) :=
  (h.read root).bind fun r =>
    (searchLoop h (getHash key.bytes) key fuel root r.next).bind fun
      | .found a => some (.addr a, h)
      | .last l => addNew mallocOk strdupOk h l key st type (getHash key.bytes)

/-- `dir_entry_add(NULL, key, st, type)`: a head, with the node of the key
after it (`new_with_head:`). When an allocation fails what was allocated is
freed and `NULL` returned; otherwise the head is. -/
def dirEntryAddNull (getHash : List UInt8 → UInt32) (h : Heap) (key : CStr) (st : ℕ) (type : Int)
    (headOk mallocOk strdupOk : Bool) : Option (Ptr × Heap) :=
  match h.malloc headOk with
  | (.addr root, h) =>
    let h := h.write root { Node.fresh with next := .null }
    let (p, h) := h.malloc mallocOk
    (h.setNext root p).bind fun h =>
      match p with
      | .addr c =>
        if strdupOk then some (.addr root, h.write c (addedNode key st type (getHash key.bytes)))
        else ((h.free c).setNext root .null).map fun h => (.null, h.free root)
      | _ => some (.null, h.free root)
  | (p, h) => some (p, h)

/-- A call of `dir_entry_add` by a caller holding `NULL` (`none`) or the head
at `root`: what it returns, what the caller holds after it, and the heap.
`headOk` is the outcome of the `malloc` of a head, which only a call with
`NULL` makes. -/
def addStep (getHash : List UInt8 → UInt32) (fuel : ℕ) : Option ℕ × Heap → AddCall → Bool →
    Option (Ptr × Option ℕ × Heap)
  | (none, h), c, headOk =>
    (dirEntryAddNull getHash h c.key c.st c.type headOk c.mallocOk c.strdupOk).map fun r =>
      (r.1, (match r.1 with | .addr root => some root | _ => none), r.2)
  | (some root, h), c, _ =>
    (dirEntryAdd getHash fuel h root c.key c.st c.type c.mallocOk c.strdupOk).map fun r => (r.1, some root, r.2)

/-- A sequence of calls of `dir_entry_add` by one caller: the pointers they
return, what the caller holds after them, and the heap. -/
def runCalls (getHash : List UInt8 → UInt32) (fuel : ℕ) :
    Option ℕ × Heap → List (AddCall × Bool) → Option (List Ptr × Option ℕ × Heap)
  | s, [] => some ([], s)
  | s, (c, headOk) :: cs => (addStep getHash fuel s c headOk).bind fun r =>
    (runCalls getHash fuel (r.2.1, r.2.2) cs).map fun t => (r.1 :: t.1, t.2)

/-- The pointer to the node at index `i` of the nodes `as`, or `NULL`. -/
def nodePtr (as : List ℕ) : Option ℕ → Ptr
  | some i => .addr (as.getD i 0)
  | none => .null

/-! ## The heap after a call -/

section
variable {h : Heap} {a l : ℕ} {m n : Node}

theorem write_of_read (hr : h.read a = some n) : h.write a n = h := by
  have ha := lt_length_of_read hr
  have hx : h[a]? = some (some n) := by
    simp only [read, Option.join_eq_some] at hr; exact hr
  apply List.ext_getElem?
  intro i
  by_cases hi : a = i
  · subst hi; simp [write, ha, hx]
  · simp [write, List.getElem?_set_ne hi]

/-- A node linked after `l` and freed again, with `l->next` restored: one
freed cell more. -/
theorem restore_of_free (hm : h.read l = some m) (p : Ptr) :
    (((h ++ [some Node.fresh]).write l { m with next := p }).free h.length).write l m = h ++ [none] := by
  have hl := lt_length_of_read hm
  simp only [write, free]
  rw [List.set_append_left _ _ hl, List.set_append_right _ _ (by simp), List.length_set, Nat.sub_self,
    List.set_append_left _ _ (by simpa using hl), List.set_set]
  exact congrArg (· ++ [none]) (write_of_read hm)

theorem read_append_add (l : Heap) (i : ℕ) : (h ++ l).read (h.length + i) = l[i]?.join := by
  rw [read, List.getElem?_append_right (Nat.le_add_right _ _), Nat.add_sub_cancel_left]
theorem write_append_add (l : Heap) (i : ℕ) (n : Node) : (h ++ l).write (h.length + i) n = h ++ l.set i (some n) := by
  rw [write, List.set_append_right _ _ (Nat.le_add_right _ _), Nat.add_sub_cancel_left]
theorem free_append_add (l : Heap) (i : ℕ) : (h ++ l).free (h.length + i) = h ++ l.set i none := by
  rw [free, List.set_append_right _ _ (Nat.le_add_right _ _), Nat.add_sub_cancel_left]
theorem read_append_self (l : Heap) : (h ++ l).read h.length = l[0]?.join := read_append_add l 0
theorem write_append_self (l : Heap) (n : Node) : (h ++ l).write h.length n = h ++ l.set 0 (some n) :=
  write_append_add l 0 n
theorem free_append_self (l : Heap) : (h ++ l).free h.length = h ++ l.set 0 none := free_append_add l 0

end

section
variable {h : Heap} {l : ℕ} {m : Node} {key : CStr} {st : ℕ} {type : Int} {hash : UInt32}
  {mallocOk strdupOk : Bool}

/-- The search loop stops at the first entry with the hash and then the name
of the key, or at the last node. -/
theorem searchLoop_spec {p : Ptr} {as : List ℕ} {es : List DirEntry} {fuel : ℕ} (tmp : ℕ)
    (hs : Seg h p .null as) (he : entries h as = some es) (hf : as.length ≤ fuel) :
    searchLoop h hash key fuel tmp p =
      some (match es.findIdx? (fun e => hash == e.hash && strcmp key.bytes e.name.bytes == 0) with
        | some i => .found (as.getD i 0)
        | none => .last ((tmp :: as).getLast (List.cons_ne_nil _ _))) := by
  induction as generalizing p tmp fuel es with
  | nil => obtain rfl := hs.eq_of_nil; cases he; rw [searchLoop]; rfl
  | cons a as ih =>
    obtain ⟨n, e, es, s, rfl, hr, hs, hv, he', rfl, -⟩ := hs.cons_entries he
    cases fuel with
    | zero => simp at hf
    | succ fuel =>
      rw [searchLoop, hr, Option.some_bind, ih a hs he' (by simpa using hf), List.findIdx?_cons,
        List.findIdx?_succ, Node.eq_of_view hv]
      by_cases hh : hash = e.hash
      · by_cases hc : strcmp key.bytes e.name.bytes = 0
        · simp [hh, hc]
        · cases List.findIdx? (fun e => hash == e.hash && strcmp key.bytes e.name.bytes == 0) es <;>
            simp [hh, hc, List.getLast_cons]
      · cases List.findIdx? (fun e => hash == e.hash && strcmp key.bytes e.name.bytes == 0) es <;>
          simp [hh, List.getLast_cons]

/-- The code at `new:` after the last node `l`: a node filled by `add_entry`
at `h.length`; or, when the `strdup` fails, one freed cell more; or, when the
`malloc` fails, the heap as it was. -/
theorem addNew_eq (hm : h.read l = some m) (hmn : m.next = .null) :
    addNew mallocOk strdupOk h l key st type hash =
      some (if mallocOk && strdupOk then (.addr h.length, link h l m (addedNode key st type hash))
        else if mallocOk then (.null, h ++ [none]) else (.null, h)) := by
  have hm' : (h ++ [some Node.fresh]).read l = some m := (read_append_of_lt _ (lt_length_of_read hm)).trans hm
  have hmm : { m with next := .null } = m := by cases m; cases hmn; rfl
  cases mallocOk <;> cases strdupOk
  · simp [addNew, malloc, setNext, hm, hmm, write_of_read hm]
  · simp [addNew, malloc, setNext, hm, hmm, write_of_read hm]
  · simp only [addNew, malloc, if_true, setNext, hm', Option.map_some', Option.some_bind, Bool.false_eq_true,
      if_false, Bool.and_false]
    rw [read_free_of_ne (Nat.ne_of_gt (lt_length_of_read hm)),
      read_write_self (by simp; exact Nat.lt_succ_of_lt (lt_length_of_read hm))]
    simp only [Option.map_some', hmm, restore_of_free hm]
  · simp [addNew, malloc, setNext, hm', link]

end

/-- `dir_entry_add(NULL, ...)`: a head at `h.length` and the node of the key
after it; or, when an allocation fails, the cells it took, freed. -/
theorem dirEntryAddNull_eq (getHash : List UInt8 → UInt32) (h : Heap) (key : CStr) (st : ℕ) (type : Int)
    (headOk mallocOk strdupOk : Bool) :
    dirEntryAddNull getHash h key st type headOk mallocOk strdupOk =
      some (if headOk && mallocOk && strdupOk then
          (.addr h.length, h ++ [some { Node.fresh with next := .addr (h.length + 1) },
            some (addedNode key st type (getHash key.bytes))])
        else if headOk && mallocOk then (.null, h ++ [none, none])
        else if headOk then (.null, h ++ [none]) else (.null, h)) := by
  cases headOk <;> cases mallocOk <;> cases strdupOk <;>
    simp [dirEntryAddNull, malloc, setNext, read_append_add, write_append_add, free_append_add, read_append_self,
      write_append_self, free_append_self]

/-! ## What a caller holds -/

/-- What a caller holds over the nodes: `NULL` and no list, or the head at
`root` of a list whose nodes `as` hold the entries. -/
def Holds (h : Heap) : Option ℕ → Option (List DirEntry) → List ℕ → Prop
  | none, none, as => as = []
  | some root, some es, as => ListAt h root as es
  | _, _, _ => False

/-- The pointer an entry-level result names: `NULL`, the head, or the node at
an index of the list. -/
def retPtr (σ : Option ℕ) (as : List ℕ) : AddRet → Ptr
  | .null => .null
  | .head => σ.elim .null .addr
  | .entry i => .addr (as.getD i 0)

/-- How calls change the heap: the caller's head stays, the list only grows
at its end, with cells that were not in the heap; no other cell of the heap
changes; and every cell taken is in the list or freed. -/
structure Grows (h : Heap) (σ : Option ℕ) (as : List ℕ) (h' : Heap) (σ' : Option ℕ) (as' : List ℕ) : Prop where
  head : σ.isSome → σ' = σ
  grow : as <+: as'
  fresh : ∀ y ∈ σ'.toList ++ as', y ∈ σ.toList ++ as ∨ h.length ≤ y
  frame : ∀ x < h.length, x ∉ σ.toList ++ as → h'.read x = h.read x
  taken : ∀ x, h.length ≤ x → x < h'.length → x ∈ σ'.toList ++ as' ∨ h'.read x = none
  length_le : h.length ≤ h'.length

section
variable {h h₁ h₂ : Heap} {σ σ₁ σ₂ : Option ℕ} {s : Option (List DirEntry)} {as as₁ as₂ : List ℕ}

theorem Holds.read_isSome (hR : Holds h σ s as) : ∀ y ∈ σ.toList ++ as, (h.read y).isSome := by
  cases σ <;> cases s <;> simp only [Holds] at hR
  · subst hR; simp
  · rename_i root es
    obtain ⟨n, hr, hs, _⟩ := hR
    intro y hy
    rcases List.mem_append.mp hy with hy | hy
    · simp only [Option.toList_some, List.mem_singleton] at hy; simp [hy, hr]
    · obtain ⟨xs, ys, rfl⟩ := List.append_of_mem hy
      obtain ⟨q, -, hq⟩ := hs.split
      obtain ⟨rfl, m, hm, -⟩ := hq.cons_inv
      simp [hm]

theorem Grows.refl (h : Heap) (σ : Option ℕ) (as : List ℕ) : Grows h σ as h σ as :=
  ⟨fun _ => rfl, List.prefix_refl _, fun y hy => .inl hy, fun _ _ _ => rfl, fun _ h1 h2 => absurd h2 (by omega),
    le_rfl⟩

theorem Grows.subset (g : Grows h σ as h' σ' as') : σ.toList ++ as ⊆ σ'.toList ++ as' := by
  intro y hy
  rcases List.mem_append.mp hy with hy | hy
  · cases σ with
    | none => simp at hy
    | some r => rw [g.head rfl]; exact List.mem_append_left _ hy
  · exact List.mem_append_right _ (g.grow.subset hy)

theorem Grows.trans (g₁ : Grows h σ as h₁ σ₁ as₁) (g₂ : Grows h₁ σ₁ as₁ h₂ σ₂ as₂)
    (hl : ∀ y ∈ σ₁.toList ++ as₁, (h₁.read y).isSome) : Grows h σ as h₂ σ₂ as₂ where
  head hs := (g₂.head (by rw [g₁.head hs]; exact hs)).trans (g₁.head hs)
  grow := g₁.grow.trans g₂.grow
  fresh y hy := (g₂.fresh y hy).elim (fun hy => (g₁.fresh y hy).imp_right id)
    fun hy => .inr (g₁.length_le.trans hy)
  frame x hx hn := by
    have hn₁ : x ∉ σ₁.toList ++ as₁ := fun hm => (g₁.fresh x hm).elim hn (by omega)
    rw [g₂.frame x (hx.trans_le g₁.length_le) hn₁, g₁.frame x hx hn]
  taken x h₁x h₂x := by
    by_cases hx : x < h₁.length
    · rcases g₁.taken x h₁x hx with hm | hnone
      · exact .inl (g₂.subset hm)
      · have hn₁ : x ∉ σ₁.toList ++ as₁ := fun hm => by simpa [hnone] using hl x hm
        exact .inr ((g₂.frame x hx hn₁).trans hnone)
    · exact g₂.taken x (by omega) h₂x
  length_le := g₁.length_le.trans g₂.length_le

end

/-! ## A call on a list -/

section
variable {h : Heap} {root : ℕ} {as : List ℕ} {es : List DirEntry}

theorem listAt_append_none (hl : ListAt h root as es) : ListAt (h ++ [none]) root as es := by
  obtain ⟨n, hr, hs, he⟩ := hl
  have hkeep : ∀ x ∈ as, (h ++ [none]).read x = h.read x := fun x hx => read_append_of_lt _ (hs.lt_length x hx)
  exact ⟨n, (read_append_of_lt _ (lt_length_of_read hr)).trans hr, hs.frame hkeep, (entries_frame hkeep).trans he⟩

/-- A node linked after the last node of a list, holding an entry, makes the
list one entry longer. -/
theorem listAt_link {m : Node} {e : DirEntry} (hl : ListAt h root as es)
    (hm : h.read ((root :: as).getLast (List.cons_ne_nil _ _)) = some m) (n : Node) (hn : n.next = .null)
    (hv : n.view = some e) :
    ListAt (link h ((root :: as).getLast (List.cons_ne_nil _ _)) m n) root (as ++ [h.length]) (es ++ [e]) := by
  obtain ⟨r, hr, hs, he⟩ := hl
  have f := frame_link (n := n) hm
  obtain ⟨r', hr', hs'⟩ := hs.redirect (fun _ => Ptr.noConfusion) hr rfl f
  refine ⟨r', hr', hs'.append (.cons read_link_self (hn ▸ .nil _)), entries_append ((f.entries hs).trans he) ?_⟩
  simp [entries, read_link_self, hv]

/-- A head with one node after it, both in fresh cells, is a list of one entry. -/
theorem listAt_fresh {b n : Node} {e : DirEntry} (hb : b.next = .addr (h.length + 1)) (hn : n.next = .null)
    (hv : n.view = some e) : ListAt (h ++ [some b, some n]) h.length [h.length + 1] [e] := by
  have hr : (h ++ [some b, some n]).read (h.length + 1) = some n := read_append_add _ 1
  exact ⟨b, read_append_self _, hb ▸ .cons hr (hn ▸ .nil _), by simp [entries, hr, hv]⟩

/-- A call with `NULL` that fails leaves only freed cells behind. -/
theorem grows_pad {l : Heap} (hl : ∀ o ∈ l, o = none) : Grows h none [] (h ++ l) none [] where
  head := nofun
  grow := List.nil_prefix
  fresh := by simp
  frame x hx _ := read_append_of_lt _ hx
  taken x hx _ := by
    refine .inr ?_
    simp only [read, List.getElem?_append_right hx]
    cases ho : l[x - h.length]? with
    | none => rfl
    | some o => simp [hl o (List.getElem?_mem ho)]
  length_le := by simp

/-- A call with `NULL` that succeeds takes two fresh cells: the head and its
one node. -/
theorem grows_fresh (b n : Node) : Grows h none [] (h ++ [some b, some n]) (some h.length) [h.length + 1] where
  head := nofun
  grow := List.nil_prefix
  fresh y hy := by simp at hy; omega
  frame x hx _ := read_append_of_lt _ hx
  taken x h1 h2 := by simp at h2 ⊢; omega
  length_le := by simp

end

/-- A call of `dir_entry_add` on the head of a list of named entries, with
fuel for its search: it is the entry-level `dirEntryAdd`. It returns the node
at the index that one returns, or `NULL`; the list keeps its nodes, with at
most one new node after them; and the heap changes only as `Grows` says. -/
theorem dirEntryAdd_refines (getHash : List UInt8 → UInt32) {h : Heap} {root fuel : ℕ} {as : List ℕ}
    {es : List DirEntry} (hl : ListAt h root as es) (hf : as.length ≤ fuel) (key : CStr) (st : ℕ) (type : Int)
    (mallocOk strdupOk : Bool) :
    let r := DirList.dirEntryAdd getHash es key st type mallocOk strdupOk
    ∃ h' as', dirEntryAdd getHash fuel h root key st type mallocOk strdupOk = some (nodePtr as' r.1, h') ∧
      ListAt h' root as' r.2 ∧ Grows h (some root) as h' (some root) as' ∧ as'.length ≤ as.length + 1 := by
  intro r
  obtain ⟨n, hr, hs, he⟩ := hl
  simp only [r, dirEntryAdd, DirList.dirEntryAdd, hr, Option.some_bind, searchLoop_spec root hs he hf]
  cases es.findIdx? (fun e => getHash key.bytes == e.hash && strcmp key.bytes e.name.bytes == 0) with
  | some i => exact ⟨h, as, rfl, ⟨n, hr, hs, he⟩, .refl h _ as, by omega⟩
  | none =>
    obtain ⟨m, hm, hmn⟩ := hs.last hr rfl
    have hlast := List.getLast_mem (List.cons_ne_nil root as)
    simp only [addNew_eq hm hmn]
    cases mallocOk <;> cases strdupOk <;> simp only [Bool.and_false, Bool.and_true, Bool.false_eq_true, if_false,
      if_true]
    · exact ⟨h, as, rfl, ⟨n, hr, hs, he⟩, .refl h _ as, by omega⟩
    · exact ⟨h, as, rfl, ⟨n, hr, hs, he⟩, .refl h _ as, by omega⟩
    · refine ⟨_, as, rfl, listAt_append_none ⟨n, hr, hs, he⟩, ⟨fun _ => rfl, List.prefix_refl _,
        fun y hy => .inl hy, fun x hx _ => read_append_of_lt _ hx, fun x h1 h2 => .inr ?_, by simp⟩, by omega⟩
      simp only [List.length_append, List.length_singleton] at h2
      rw [show x = h.length by omega, read_append_length]
    · have hlen := length_of_entries he
      refine ⟨_, as ++ [h.length], by simp [nodePtr, ← hlen],
        listAt_link ⟨n, hr, hs, he⟩ hm (addedNode key st type _) rfl rfl, ⟨fun _ => rfl, List.prefix_append _ _,
          fun y hy => ?_, fun x hx hn => (frame_link hm).read_of_ne x hx fun he => hn (by simp [he] at hlast ⊢),
          fun x h1 h2 => .inl ?_, by rw [length_link]; omega⟩, by simp⟩
      · simp only [Option.toList_some, List.singleton_append, ← List.cons_append, List.mem_append,
          List.mem_singleton] at hy
        rcases hy with hy | rfl
        · exact .inl (by simpa using hy)
        · exact .inr le_rfl
      · rw [length_link] at h2
        simp [show x = h.length by omega]

theorem dirEntryAdd_index_lt {getHash : List UInt8 → UInt32} {l : List DirEntry} {key : CStr} {st : ℕ}
    {type : Int} {mallocOk strdupOk : Bool} {i : ℕ}
    (h : (DirList.dirEntryAdd getHash l key st type mallocOk strdupOk).1 = some i) :
    i < (DirList.dirEntryAdd getHash l key st type mallocOk strdupOk).2.length := by
  unfold DirList.dirEntryAdd at h ⊢
  cases hf : l.findIdx? (fun e => getHash key.bytes == e.hash && strcmp key.bytes e.name.bytes == 0) with
  | some j =>
    simp only [hf, Option.some.injEq] at h ⊢
    exact h ▸ (List.findIdx?_eq_some_iff_getElem.mp hf).1
  | none =>
    simp only [hf] at h ⊢
    by_cases hok : (mallocOk && strdupOk) = true
    · rw [if_pos hok] at h ⊢; cases h; simp
    · rw [if_neg hok] at h; cases h

/-! ## A caller's calls -/

/-- The results whose pointer a caller can still follow: `NULL`, the head
when it holds one, and the nodes of its list. -/
def Names (σ : Option ℕ) (as : List ℕ) : AddRet → Prop
  | .null => True
  | .head => σ.isSome
  | .entry i => i < as.length

/-- A pointer returned by an earlier call still names the same node after
later calls. -/
theorem retPtr_grows {h h' : Heap} {σ σ' : Option ℕ} {as as' : List ℕ} (g : Grows h σ as h' σ' as') :
    ∀ x, Names σ as x → retPtr σ' as' x = retPtr σ as x ∧ Names σ' as' x
  | .null, _ => ⟨rfl, trivial⟩
  | .head, hx => by rw [g.head hx]; exact ⟨rfl, hx⟩
  | .entry i, hx => by
    have hi : i < as.length := hx
    obtain ⟨t, rfl⟩ := g.grow
    exact ⟨by simp [retPtr, List.getElem?_append_left hi], by simp only [Names, List.length_append]; omega⟩

/-- One call by a caller holding `NULL` or a head, with fuel for its search:
it is the entry-level call of `Rar2fs.DirList.Add`, it returns the pointer
that call's result names, and the heap changes only as `Grows` says. -/
theorem addStep_refines (getHash : List UInt8 → UInt32) {h : Heap} {σ : Option ℕ} {s : Option (List DirEntry)}
    {as : List ℕ} {fuel : ℕ} (hR : Holds h σ s as) (hf : as.length ≤ fuel) (c : AddCall) (headOk : Bool) :
    let r := DirList.addStep getHash s c headOk
    ∃ σ' h' as', addStep getHash fuel (σ, h) c headOk = some (retPtr σ' as' r.1, σ', h') ∧
      Holds h' σ' r.2 as' ∧ Grows h σ as h' σ' as' ∧ as'.length ≤ as.length + 1 ∧ Names σ' as' r.1 := by
  intro r
  cases σ <;> cases s <;> simp only [Holds] at hR
  · subst hR
    simp only [r, addStep, DirList.addStep, DirList.dirEntryAddNull, dirEntryAddNull_eq]
    by_cases hok : (headOk && c.mallocOk && c.strdupOk) = true
    · simp only [if_pos hok, Option.map_some']
      exact ⟨some h.length, _, [h.length + 1], rfl, listAt_fresh rfl rfl rfl, grows_fresh _ _, le_rfl, rfl⟩
    · simp only [if_neg hok, Option.map_some']
      split_ifs
      · exact ⟨none, _, [], rfl, rfl, grows_pad (by simp), by simp, trivial⟩
      · exact ⟨none, _, [], rfl, rfl, grows_pad (by simp), by simp, trivial⟩
      · exact ⟨none, h, [], rfl, rfl, by simpa using grows_pad (h := h) (l := []) nofun, by simp, trivial⟩
  · rename_i root es
    obtain ⟨h', as', hrun, hl, g, hlen⟩ := dirEntryAdd_refines getHash hR hf c.key c.st c.type c.mallocOk c.strdupOk
    refine ⟨some root, h', as', ?_, hl, g, hlen, ?_⟩
    · simp only [addStep, hrun, Option.map_some', r, DirList.addStep]
      cases (DirList.dirEntryAdd getHash es c.key c.st c.type c.mallocOk c.strdupOk).1 <;> rfl
    · simp only [r, DirList.addStep]
      cases hj : (DirList.dirEntryAdd getHash es c.key c.st c.type c.mallocOk c.strdupOk).1 with
      | none => trivial
      | some j =>
        show j < as'.length
        rw [length_of_entries hl.choose_spec.2.2]
        exact dirEntryAdd_index_lt hj

/-- Every sequence of calls of `dir_entry_add` by a caller that starts with
`NULL` or a head, with every outcome of the allocations and fuel for the
searches: the heap holds the list of the entry-level `runCalls`, every returned
pointer is the head or the node of the entry-level result, no cell outside the
list changes, every cell the calls took is in the list or freed, and each call
adds at most one node. -/
theorem runCalls_refines (getHash : List UInt8 → UInt32) :
    ∀ (calls : List (AddCall × Bool)) {h : Heap} {σ : Option ℕ} {s : Option (List DirEntry)} {as : List ℕ}
      {fuel : ℕ}, Holds h σ s as → as.length + calls.length ≤ fuel →
    let r := DirList.runCalls (DirList.addStep getHash) s calls
    ∃ σ' h' as', runCalls getHash fuel (σ, h) calls = some (r.1.map (retPtr σ' as'), σ', h') ∧
      Holds h' σ' r.2 as' ∧ Grows h σ as h' σ' as' ∧ as'.length ≤ as.length + calls.length
  | [], h, σ, _, as, _, hR, _ => ⟨σ, h, as, rfl, hR, Grows.refl h σ as, le_rfl⟩
  | (c, headOk) :: cs, h, σ, s, as, fuel, hR, hf => by
    obtain ⟨σ₁, h₁, as₁, hstep, hR₁, g₁, hlen₁, hn₁⟩ :=
      addStep_refines getHash hR (show as.length ≤ fuel by simp only [List.length_cons] at hf; omega) c headOk
    obtain ⟨σ', h', as', hrun, hR', g', hlen'⟩ :=
      runCalls_refines getHash cs hR₁ (show as₁.length + cs.length ≤ fuel by simp only [List.length_cons] at hf; omega)
    refine ⟨σ', h', as', ?_, hR', g₁.trans g' hR₁.read_isSome, by simp only [List.length_cons]; omega⟩
    simp only [runCalls, hstep, hrun, Option.some_bind, Option.map_some', DirList.runCalls, List.map_cons,
      (retPtr_grows g' _ hn₁).1]

/-- From `NULL`: a call that allocates the head and adds `a`, a call whose
copy of `b` fails, and a call that finds `a`. -/
theorem runCalls_refines_from_null :
    let a : CStr := ⟨lit "a", by decide⟩
    let b : CStr := ⟨lit "b", by decide⟩
    let calls : List (AddCall × Bool) :=
      [(⟨a, 1, DIR_E_RAR, true, true⟩, true), (⟨b, 2, DIR_E_NRM, true, false⟩, true),
        (⟨a, 3, DIR_E_NRM, true, true⟩, true)]
    Holds [] none none [] ∧ ([] : List ℕ).length + calls.length ≤ 3 ∧
      let r := DirList.runCalls (DirList.addStep fun _ => 0) none calls
      ∃ σ' h' as', runCalls (fun _ => 0) 3 (none, []) calls = some (r.1.map (retPtr σ' as'), σ', h') ∧
        Holds h' σ' r.2 as' ∧ Grows [] none [] h' σ' as' ∧ as'.length ≤ ([] : List ℕ).length + calls.length :=
  ⟨rfl, le_rfl, runCalls_refines (fun _ => 0) _ rfl le_rfl⟩

end Heap

end Rar2fs.DirList
