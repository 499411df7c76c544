import Rar2fs.DirList.Entry

/-!
# A caller of `dir_entry_add`

A caller holds `NULL` or the head of a list, calls `dir_entry_add` with it,
and holds the list after the call (`addStep`, `runCalls`). The contract of a
call, stated over names, is `addSpec`: the entry of the name when the list has
one; otherwise, when the allocations succeed, a new entry at the end, which is
returned (the new head when the caller held `NULL`); otherwise `NULL`, and
nothing changes.

Every entry of such a list carries the hash of its name, so the lookup of the
code, by hash and then `strcmp`, finds exactly the entries of the name: every
call is the contract (`addStep_eq_addSpec`), over every run
(`runCalls_addStep`). From `dir_list_open` or from `NULL`, the names of the
list are then distinct, and the list is the first-wins insertion of the
successful calls, in their order (`dir_entry_add_first_wins`).
-/

namespace Rar2fs.DirList

/-- What `dir_entry_add` returns: `NULL`, the head of the list it makes when
it is called with `NULL`, or the entry at an index of the list. -/
inductive AddRet
  | null
  | head
  | entry (i : ℕ)
  deriving DecidableEq

/-- The name, `stat` pointer and type of an entry. -/
def DirEntry.view (e : DirEntry) : CStr × ℕ × Int := (e.name, e.st, e.type)

/-- First-wins insertion: a name already present keeps its `stat` pointer and
type; a new one goes at the end. -/
def insertFirst (m : List (CStr × ℕ × Int)) (x : CStr × ℕ × Int) : List (CStr × ℕ × Int) :=
  if x.1 ∈ m.map Prod.fst then m else m ++ [x]

section
variable (getHash : List UInt8 → UInt32)

/-- `dir_entry_add(NULL, key, st, type)`: the list it makes, whose head it
returns, or `none` where it frees what it allocated and returns `NULL`.
`headOk`, `mallocOk` and `strdupOk` say whether the head, the node and the
copy of the name are allocated. -/
def dirEntryAddNull (key : CStr) (st : ℕ) (type : Int) (headOk mallocOk strdupOk : Bool) :
    Option (List DirEntry) :=
  if headOk && mallocOk && strdupOk then some [addEntry key st type (getHash key.bytes)] else none

/-- A call of `dir_entry_add` by a caller holding `NULL` (`none`) or the head
of a list: what it returns, and what the caller holds after it. `headOk` is the
outcome of the allocation of a head, which only a call with `NULL` makes. -/
def addStep : Option (List DirEntry) → AddCall → Bool → AddRet × Option (List DirEntry)
  | none, c, headOk =>
    match dirEntryAddNull getHash c.key c.st c.type headOk c.mallocOk c.strdupOk with
    | some l => (.head, some l)
    | none => (.null, none)
  | some l, c, _ =>
    ((dirEntryAdd getHash l c.key c.st c.type c.mallocOk c.strdupOk).1.elim .null .entry,
      some (dirEntryAdd getHash l c.key c.st c.type c.mallocOk c.strdupOk).2)

/-- Whether the allocations of a call succeed: the head too, when the caller
holds `NULL`. -/
def allocOk (s : Option (List DirEntry)) (c : AddCall) (headOk : Bool) : Bool :=
  c.mallocOk && c.strdupOk && (s.isSome || headOk)

/-- The contract of one call, over names: the entry of the name when the list
has one; otherwise, when the allocations succeed (`ok`), a new valid entry at
the end, which is returned (the new head when the caller held `NULL`);
otherwise `NULL`, and nothing changes. -/
def addSpec (s : Option (List DirEntry)) (c : AddCall) (ok : Bool) : AddRet × Option (List DirEntry) :=
  match (s.getD []).findIdx? fun e => decide (e.name = c.key) with
  | some i => (.entry i, s)
  | none =>
    if ok then
      (if s.isSome then .entry (s.getD []).length else .head,
        some ((s.getD []) ++ [addEntry c.key c.st c.type (getHash c.key.bytes)]))
    else (.null, s)

end

/-- A sequence of calls of `step`: what each returns, and what the caller
holds after them. -/
def runCalls (step : Option (List DirEntry) → AddCall → Bool → AddRet × Option (List DirEntry)) :
    Option (List DirEntry) → List (AddCall × Bool) → List AddRet × Option (List DirEntry)
  | s, [] => ([], s)
  | s, (c, h) :: cs => ((step s c h).1 :: (runCalls step (step s c h).2 cs).1, (runCalls step (step s c h).2 cs).2)

/-! ## The lookup by hash is the lookup by name -/

section
variable {getHash : List UInt8 → UInt32}

/-- Every entry carries the hash of its name. -/
def HashOk (getHash : List UInt8 → UInt32) (s : Option (List DirEntry)) : Prop :=
  ∀ e ∈ s.getD [], e.hash = getHash e.name.bytes

theorem findIdx?_congr {p q : DirEntry → Bool} :
    ∀ {l : List DirEntry} (i : ℕ), (∀ e ∈ l, p e = q e) → l.findIdx? p i = l.findIdx? q i
  | [], _, _ => rfl
  | e :: l, i, h => by
    rw [List.findIdx?_cons, List.findIdx?_cons, h e (List.mem_cons_self _ _),
      findIdx?_congr (i + 1) fun x hx => h x (List.mem_cons_of_mem _ hx)]

theorem lookup_eq_name {l : List DirEntry} (h : HashOk getHash (some l)) (key : CStr) :
    l.findIdx? (fun e => getHash key.bytes == e.hash && strcmp key.bytes e.name.bytes == 0) =
      l.findIdx? fun e => decide (e.name = key) := by
  refine findIdx?_congr 0 fun e he => ?_
  rw [Bool.eq_iff_iff, lookup_iff, decide_eq_true_iff, h e he]
  exact ⟨fun h => h.2.symm, fun h => ⟨by rw [h], h.symm⟩⟩

/-- On a list whose entries carry the hashes of their names, a call is its
contract. -/
theorem addStep_eq_addSpec {s : Option (List DirEntry)} (h : HashOk getHash s) (c : AddCall) (headOk : Bool) :
    addStep getHash s c headOk = addSpec getHash s c (allocOk s c headOk) := by
  cases s with
  | none =>
    simp only [addStep, addSpec, allocOk, dirEntryAddNull, Option.getD_none, List.findIdx?_nil,
      Option.isSome_none, Bool.false_or, List.nil_append]
    cases c.mallocOk <;> cases c.strdupOk <;> cases headOk <;> rfl
  | some l =>
    simp only [addStep, addSpec, allocOk, dirEntryAdd, Option.getD_some, lookup_eq_name h,
      Option.isSome_some, Bool.true_or, Bool.and_true, if_true]
    cases l.findIdx? fun e => decide (e.name = c.key) with
    | some i => rfl
    | none => by_cases hok : (c.mallocOk && c.strdupOk) = true <;> simp [hok]

theorem hashOk_addSpec {s : Option (List DirEntry)} (h : HashOk getHash s) (c : AddCall) (ok : Bool) :
    HashOk getHash (addSpec getHash s c ok).2 := by
  unfold addSpec
  split
  · exact h
  · by_cases hok : ok
    · rw [if_pos hok]
      intro e he
      rcases List.mem_append.mp he with he | he
      · exact h e he
      · obtain rfl := List.mem_singleton.mp he; rfl
    · rw [if_neg hok]; exact h

/-- The calls of the code are those of the contract over every run. -/
theorem runCalls_addStep {s : Option (List DirEntry)} (h : HashOk getHash s) (calls : List (AddCall × Bool)) :
    runCalls (addStep getHash) s calls = runCalls (fun s c h => addSpec getHash s c (allocOk s c h)) s calls := by
  induction calls generalizing s with
  | nil => rfl
  | cons ch cs ih =>
    obtain ⟨c, hd⟩ := ch
    simp only [runCalls, addStep_eq_addSpec h, ih (hashOk_addSpec h c _)]

end

/-! ## First wins -/

/-- The first element of a key in a first-wins insertion is its first
insertion. -/
theorem find?_foldl_insertFirst (k : CStr) :
    ∀ (m xs : List (CStr × ℕ × Int)),
      (xs.foldl insertFirst m).find? (fun x => x.1 = k) = (m ++ xs).find? fun x => x.1 = k
  | m, [] => by rw [List.foldl_nil, List.append_nil]
  | m, x :: xs => by
    rw [List.foldl_cons, find?_foldl_insertFirst k, insertFirst]
    split_ifs with hx
    · rw [List.find?_append, List.find?_append, List.find?_cons]
      cases hm : m.find? (fun x => x.1 = k) with
      | some y => rfl
      | none =>
        have hxk : ¬ x.1 = k := fun e => by
          obtain ⟨y, hy, hyx⟩ := List.mem_map.mp hx
          exact absurd (hyx.trans e) (by simpa using List.find?_eq_none.mp hm y hy)
        simp [hxk]
    · rw [List.append_assoc, List.singleton_append]

section
variable {getHash : List UInt8 → UInt32}

theorem findIdx?_name_eq_none {l : List DirEntry} {key : CStr} :
    l.findIdx? (fun e => decide (e.name = key)) = none ↔ key ∉ l.map DirEntry.name := by
  simp [List.findIdx?_eq_none_iff]

theorem map_view_fst (l : List DirEntry) : (l.map DirEntry.view).map Prod.fst = l.map DirEntry.name := by
  rw [List.map_map]; rfl

/-- The contract keeps the names of the list distinct. -/
theorem nodup_addSpec {s : Option (List DirEntry)} (h : ((s.getD []).map DirEntry.name).Nodup)
    (c : AddCall) (ok : Bool) : (((addSpec getHash s c ok).2.getD []).map DirEntry.name).Nodup := by
  unfold addSpec
  split
  · exact h
  · rename_i hn
    by_cases hok : ok
    · rw [if_pos hok]
      simp only [Option.getD_some, List.map_append, List.map_singleton]
      exact List.nodup_append.mpr ⟨h, List.nodup_singleton _,
        List.disjoint_singleton.mpr (findIdx?_name_eq_none.mp hn)⟩
    · rw [if_neg hok]; exact h

/-- A call of the contract is a first-wins insertion when it does not return
`NULL`, and changes nothing when it does. -/
theorem view_addSpec (s : Option (List DirEntry)) (c : AddCall) (ok : Bool) :
    ((addSpec getHash s c ok).2.getD []).map DirEntry.view =
      if (addSpec getHash s c ok).1 != .null then insertFirst ((s.getD []).map DirEntry.view) (c.key, c.st, c.type)
      else (s.getD []).map DirEntry.view := by
  unfold addSpec
  split
  · rename_i i hi
    obtain ⟨hlt, hp, -⟩ := List.findIdx?_eq_some_iff_getElem.mp hi
    have hk : c.key ∈ ((s.getD []).map DirEntry.view).map Prod.fst := by
      rw [map_view_fst]; exact List.mem_map.mpr ⟨_, List.getElem_mem hlt, of_decide_eq_true hp⟩
    rw [show (AddRet.entry i != .null) = true from rfl, if_pos rfl, insertFirst, if_pos hk]
  · rename_i hn
    have hk : c.key ∉ ((s.getD []).map DirEntry.view).map Prod.fst := by
      rw [map_view_fst]; exact findIdx?_name_eq_none.mp hn
    by_cases hok : ok
    · have hr : (if s.isSome then AddRet.entry (s.getD []).length else .head) != .null := by
        split_ifs <;> rfl
      simp only [if_pos hok, hr, if_true, insertFirst, if_neg hk, Option.getD_some, List.map_append,
        List.map_singleton]
      rfl
    · simp [hok]

/-- Over a run of the contract, the list is the first-wins insertion of the
calls that do not return `NULL`, in their order. -/
theorem view_runCalls_addSpec (s : Option (List DirEntry)) (calls : List (AddCall × Bool)) :
    let r := runCalls (fun s c h => addSpec getHash s c (allocOk s c h)) s calls
    (r.2.getD []).map DirEntry.view =
      ((calls.zip r.1).filter fun p => p.2 != .null).foldl
        (fun m p => insertFirst m (p.1.1.key, p.1.1.st, p.1.1.type)) ((s.getD []).map DirEntry.view) := by
  induction calls generalizing s with
  | nil => rfl
  | cons ch cs ih =>
    obtain ⟨c, hd⟩ := ch
    simp only [runCalls, List.zip_cons_cons, List.filter_cons]
    rw [ih, view_addSpec]
    split_ifs <;> rfl

theorem nodup_runCalls_addSpec {s : Option (List DirEntry)} (h : ((s.getD []).map DirEntry.name).Nodup)
    (calls : List (AddCall × Bool)) :
    (((runCalls (fun s c h => addSpec getHash s c (allocOk s c h)) s calls).2.getD []).map DirEntry.name).Nodup := by
  induction calls generalizing s with
  | nil => exact h
  | cons ch cs ih => exact ih (nodup_addSpec h _ _)

end

/-- For any sequence of `dir_entry_add` calls by a caller that starts from
the head `dir_list_open` gives, or from `NULL` and then holds the head a call
with `NULL` returns, with any allocation failing or not: every call returns
what its contract says (the existing entry of its name; else the new entry, or
the new head for a caller holding `NULL`; else `NULL`, with the list
unchanged); the names of the list are distinct; and the list is the
first-wins insertion of the calls that did not return `NULL`, in their order,
so the entry of each name has the `stat` pointer and type of the first such
call with that name. -/
theorem dir_entry_add_first_wins (getHash : List UInt8 → UInt32) (s₀ : Option (List DirEntry))
    (h₀ : s₀ = none ∨ s₀ = some dirListOpen) (calls : List (AddCall × Bool)) :
    let r := runCalls (addStep getHash) s₀ calls
    let added := ((calls.zip r.1).filter fun p => p.2 != .null).map fun p => (p.1.1.key, p.1.1.st, p.1.1.type)
    r = runCalls (fun s c h => addSpec getHash s c (allocOk s c h)) s₀ calls ∧
      ((r.2.getD []).map DirEntry.name).Nodup ∧
      (r.2.getD []).map DirEntry.view = added.foldl insertFirst [] ∧
      ∀ n, ((r.2.getD []).map DirEntry.view).find? (fun x => x.1 = n) = added.find? fun x => x.1 = n := by
  intro r added
  have hs₀ : s₀.getD [] = [] := by rcases h₀ with rfl | rfl <;> rfl
  have hr : r = runCalls (fun s c h => addSpec getHash s c (allocOk s c h)) s₀ calls :=
    runCalls_addStep (fun e he => by rw [hs₀] at he; cases he) calls
  have hv : (r.2.getD []).map DirEntry.view = added.foldl insertFirst [] := by
    rw [hr, view_runCalls_addSpec, hs₀, List.map_nil, List.foldl_map, ← hr]
  refine ⟨hr, ?_, hv, fun n => ?_⟩
  · rw [hr]; exact nodup_runCalls_addSpec (by rw [hs₀]; exact List.nodup_nil) calls
  · rw [hv, find?_foldl_insertFirst, List.nil_append]

theorem dir_entry_add_first_wins_three_calls :
    let a : CStr := ⟨lit "a", by decide⟩
    let b : CStr := ⟨lit "b", by decide⟩
    let calls : List (AddCall × Bool) :=
      [(⟨a, 1, DIR_E_RAR, true, true⟩, false), (⟨b, 2, DIR_E_NRM, true, false⟩, false),
        (⟨a, 3, DIR_E_NRM, true, true⟩, false)]
    (some dirListOpen = none ∨ some dirListOpen = some dirListOpen) ∧
      let r := runCalls (addStep fun _ => 0) (some dirListOpen) calls
      let added := ((calls.zip r.1).filter fun p => p.2 != .null).map fun p => (p.1.1.key, p.1.1.st, p.1.1.type)
      r = runCalls (fun s c h => addSpec (fun _ => 0) s c (allocOk s c h)) (some dirListOpen) calls ∧
        ((r.2.getD []).map DirEntry.name).Nodup ∧
        (r.2.getD []).map DirEntry.view = added.foldl insertFirst [] ∧
        ∀ n, ((r.2.getD []).map DirEntry.view).find? (fun x => x.1 = n) = added.find? fun x => x.1 = n :=
  ⟨Or.inr rfl, dir_entry_add_first_wins (fun _ => 0) _ (Or.inr rfl) _⟩

/-- A passthrough `a` after an archive-backed `a` returns the first entry; a
failed copy of the name `b` returns `NULL` and adds nothing. -/
example :
    let a : CStr := ⟨lit "a", by decide⟩
    let b : CStr := ⟨lit "b", by decide⟩
    runCalls (addStep fun _ => 0) (some dirListOpen)
        [(⟨a, 1, DIR_E_RAR, true, true⟩, false), (⟨b, 2, DIR_E_NRM, true, false⟩, false),
          (⟨a, 3, DIR_E_NRM, true, true⟩, false)] =
      ([.entry 0, .null, .entry 0], some [⟨a, 0, 1, DIR_E_RAR, 1⟩]) := by
  decide

end Rar2fs.DirList
