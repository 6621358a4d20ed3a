import Pathcomp.Links

set_option autoImplicit false

/-!
# Clients of the lists

A client keeps any number of lists of pointers in one heap and works on them in any
order. The lists then are what they would be if they were values, and the heap has
their nodes and no others. A link that was removed is a list of its own.
-/
namespace Pathcomp.ListClients
open Bytes Heaps Links

/-- Lists are counted in the order in which the client got them; a list that does not
    exist is NULL. -/
inductive Command where
  | new (el : ℕ)
  | fromEls (els : List ℕ)
  | push (i el : ℕ)
  | length (i : ℕ)
  | find (i : ℕ) (test : ℕ → Bool)
  | remove (i k : ℕ) (test : ℕ → Bool)
  | transform (i : ℕ) (f : ℕ → ℕ)
  | free (i : ℕ)

inductive Reply where
  | void
  | count (n : Int32)
  | element (el : Option ℕ)
  deriving DecidableEq, Repr

section Memory
variable {γ : Type} [Nodes γ]

def listAt (heads : List (Option ℕ)) (i : ℕ) : Option ℕ := heads[i]?.getD none

/-- `remove` takes the first link of the list `k` that passes the test out of the list
    `i`, which should be the same one. -/
def Command.exec (heads : List (Option ℕ)) : Command → Mem γ Halt (Reply × List (Option ℕ))
  | .new el => do
    let list ← listNew el
    pure (.void, heads ++ [some list])
  | .fromEls els => do
    let list ← listFrom none els
    pure (.void, heads ++ [list])
  | .push i el => do
    let list ← listPush (listAt heads i) el
    pure (.void, if i < heads.length then heads.set i (some list) else heads ++ [some list])
  | .length i => do
    let n ← listLength (← heapBound) (listAt heads i) 0
    pure (.count n, heads)
  | .find i test => do
    match ← listFindFirst (fun el => pure (test el)) (← heapBound) (listAt heads i) with
    | none => pure (.element none, heads)
    | some link => do
      let el ← listEl link
      pure (.element (some el), heads)
  | .remove i k test => do
    match ← listFindFirst (fun el => pure (test el)) (← heapBound) (listAt heads k) with
    | none => pure (.void, heads)
    | some link => do
      let list ← listRemove (listAt heads i) link
      pure (.void, if i = k then heads.set i list ++ [some link] else heads.set i list)
  | .transform i f => do
    let list ← listTransform (fun el => pure (f el)) (← heapBound) (listAt heads i) none
    pure (.void, heads ++ [list])
  | .free i => do
    listFree (← heapBound) (listAt heads i)
    pure (.void, heads.eraseIdx i)

def session : List Command → List (Option ℕ) → Mem γ Halt (List Reply × List (Option ℕ))
  | [], heads => pure ([], heads)
  | command :: commands, heads => do
    let (reply, heads) ← command.exec heads
    let (replies, heads) ← session commands heads
    pure (reply :: replies, heads)

end Memory

def listOf (lists : List (List ℕ)) (i : ℕ) : List ℕ := lists[i]?.getD []

def Command.step (lists : List (List ℕ)) : Command → Reply × List (List ℕ)
  | .new el => (.void, lists ++ [[el]])
  | .fromEls els => (.void, lists ++ [els])
  | .push i el =>
    (.void, if i < lists.length then lists.set i (listOf lists i ++ [el]) else lists ++ [[el]])
  | .length i => (.count (.ofNat (listOf lists i).length), lists)
  | .find i test => (.element ((listOf lists i).find? test), lists)
  | .remove i k test =>
    match (listOf lists k).find? test with
    | none => (.void, lists)
    | some el =>
      (.void,
        if i = k then lists.set i ((listOf lists i).eraseP test) ++ [[el]] else lists)
  | .transform i f => (.void, lists ++ [(listOf lists i).map f])
  | .free i => (.void, lists.eraseIdx i)

def steps : List Command → List (List ℕ) → List Reply × List (List ℕ)
  | [], lists => ([], lists)
  | command :: commands, lists =>
    let (reply, lists) := command.step lists
    let (replies, lists) := steps commands lists
    (reply :: replies, lists)

abbrev Placed := List (ℕ × ℕ)

def Placed.head (xs : Placed) : Option ℕ := first xs none

def Placed.els (xs : Placed) : List ℕ := xs.map Prod.snd

section Cells
variable {γ : Type} [Nodes γ]

def Placed.cells (xs : Placed) : Bindings γ := listCells id (fun _ => 0) xs none

def cellsOf (owned : List Placed) : Bindings γ := (owned.map Placed.cells).sum

theorem cellsOf_concat (owned : List Placed) (xs : Placed) :
    (cellsOf (owned ++ [xs]) : Bindings γ) = xs.cells + cellsOf owned :=
  sum_concat Placed.cells owned xs

theorem cellsOf_focus {owned : List Placed} {i : ℕ} {xs : Placed} (h : owned[i]? = some xs) :
    (cellsOf owned : Bindings γ) = xs.cells + cellsOf (owned.eraseIdx i) ∧
      ∀ ys, (cellsOf (owned.set i ys) : Bindings γ) = ys.cells + cellsOf (owned.eraseIdx i) :=
  sum_focus Placed.cells h

/-- A list of the client, which is empty if it does not exist, and all others. -/
theorem cellsOf_at (owned : List Placed) (i : ℕ) :
    ∃ xs : Placed, ∃ rest : Bindings γ, cellsOf owned = xs.cells + rest ∧
      listAt (owned.map Placed.head) i = xs.head ∧ listOf (owned.map Placed.els) i = xs.els := by
  cases h : owned[i]? with
  | none =>
    refine ⟨[], cellsOf owned, (zero_add _).symm, ?_, ?_⟩
    · rw [listAt, List.getElem?_map, h]
      rfl
    · rw [listOf, List.getElem?_map, h]
      rfl
  | some xs =>
    refine ⟨xs, cellsOf (owned.eraseIdx i), (cellsOf_focus h).1, ?_, ?_⟩
    · rw [listAt, List.getElem?_map, h]
      rfl
    · rw [listOf, List.getElem?_map, h]
      rfl

theorem cells_addresses (xs : Placed) :
    (xs.cells : Bindings γ).map Prod.fst = ↑(xs.map Prod.fst) := by
  induction xs with
  | nil => rfl
  | cons x xs ih =>
    have hcons : (Placed.cells (x :: xs) : Bindings γ) =
        {(x.1, node x.2 (first xs none))} + Placed.cells xs := by
      simp only [Placed.cells, listCells, zero_add, id]
    rw [hcons, Multiset.map_add, ih, Multiset.map_singleton, List.map_cons]
    rfl

theorem length_le_cells (xs : Placed) : xs.length ≤ (xs.cells : Bindings γ).card :=
  length_le_card xs none

theorem ne_of_nodup {front back : Placed} {x : ℕ × ℕ} {rest : Bindings γ}
    (h : ((Placed.cells (front ++ x :: back) + rest).map Prod.fst).Nodup) :
    ∀ y ∈ front, y.1 ≠ x.1 := by
  rw [Multiset.map_add, cells_addresses] at h
  have hn := (Multiset.nodup_add.mp h).1
  rw [Multiset.coe_nodup, List.map_append, List.nodup_append] at hn
  intro y hy
  exact hn.2.2 y.1 (List.mem_map_of_mem hy) x.1 (by simp)

theorem address_mem {owned : List Placed} {xs : Placed} (hxs : xs ∈ owned) {x : ℕ × ℕ}
    (hx : x ∈ xs) : x.1 ∈ (cellsOf owned : Bindings γ).map Prod.fst := by
  obtain ⟨i, hi, rfl⟩ := List.mem_iff_getElem.mp hxs
  rw [(cellsOf_focus (List.getElem?_eq_getElem hi)).1, Multiset.map_add, cells_addresses]
  exact Multiset.mem_add.mpr (.inl (Multiset.mem_coe.mpr (List.mem_map_of_mem hx)))

/-- The nodes of another list are other nodes. -/
theorem ne_of_disjoint {owned : List Placed} {i k : ℕ} {xs ys : Placed} (hi : owned[i]? = some ys)
    (hk : owned[k]? = some xs) (hne : i ≠ k)
    (h : ((cellsOf owned : Bindings γ).map Prod.fst).Nodup) {x : ℕ × ℕ} (hx : x ∈ xs) :
    ∀ y ∈ ys, y.1 ≠ x.1 := by
  rw [(cellsOf_focus hk).1, Multiset.map_add, cells_addresses] at h
  intro y hy he
  have hother : ys ∈ owned.eraseIdx k := List.mem_eraseIdx_iff_getElem?.mpr ⟨i, hne, hi⟩
  refine Multiset.disjoint_left.mp (Multiset.nodup_add.mp h).2.2
    (Multiset.mem_coe.mpr (List.mem_map_of_mem hx)) ?_
  rw [← he]
  exact address_mem hother hy

end Cells

section Steps
variable {γ : Type} [Nodes γ]

/-- What `list_find_first` returns in a list of the client. -/
theorem triple_findFirst {α : Type} (xs : Placed) (rest : Bindings γ) (test : ℕ → Bool)
    {next : Option ℕ → Mem γ Halt α} {post : α → Bindings γ → Prop}
    (hnext : Triple (xs.cells + rest) (next ((xs.find? fun x => test x.2).map Prod.fst)) post) :
    Triple (xs.cells + rest) (do
      let link ← listFindFirst (fun el => pure (test el)) (← heapBound) xs.head
      next link) post := by
  have hlen := @length_le_cells γ _ xs
  apply triple_heapBound
  intro fuel hfuel
  rw [Multiset.card_add] at hfuel
  have hfind := @returns_listFindFirst γ ℕ _ id (fun _ => 0) (fun el => pure (test el)) test
    (fun i => Returns.ret _ _) xs fuel (by omega)
  exact (hfind.frame rest).then hnext

/-- A test splits a list at the first element that passes it. -/
theorem find_split {xs : Placed} {test : ℕ → Bool} {x : ℕ × ℕ}
    (h : (xs.find? fun x => test x.2) = some x) : ∃ front back, xs = front ++ x :: back ∧
      xs.els.find? test = some x.2 ∧ xs.els.eraseP test = Placed.els (front ++ back) := by
  obtain ⟨hx, front, back, rfl, hfront⟩ := List.find?_eq_some_iff_append.mp h
  refine ⟨front, back, rfl, ?_, ?_⟩
  · rw [Placed.els, List.find?_map]
    exact congrArg (Option.map Prod.snd) h
  · have hfront' : ∀ el ∈ front.map Prod.snd, ¬ test el = true := by
      intro el hel
      obtain ⟨y, hy, rfl⟩ := List.mem_map.mp hel
      simpa using hfront y hy
    rw [Placed.els, List.map_append, List.eraseP_append_right _ hfront', List.map_cons,
      List.eraseP_cons_of_pos hx, Placed.els, List.map_append]

theorem find_none {xs : Placed} {test : ℕ → Bool} (h : (xs.find? fun x => test x.2) = none) :
    xs.els.find? test = none := by
  rw [Placed.els, List.find?_map]
  exact congrArg (Option.map Prod.snd) h

/-- In memory the command does to the lists what it does to values. -/
def Simulated (γ : Type) [Nodes γ] (owned : List Placed) (command : Command) : Prop :=
  Triple (cellsOf owned : Bindings γ) (command.exec (owned.map Placed.head)) fun x m' =>
    ∃ after : List Placed, x = ((command.step (owned.map Placed.els)).1,
      after.map Placed.head) ∧
      after.map Placed.els = (command.step (owned.map Placed.els)).2 ∧ m' = cellsOf after

theorem gains {owned : List Placed} (xs : Placed) (r : Reply) {m : Bindings γ}
    (hm : m = xs.cells + cellsOf owned) : ∃ after : List Placed,
      (r, owned.map Placed.head ++ [xs.head]) = (r, after.map Placed.head) ∧
        after.map Placed.els = owned.map Placed.els ++ [xs.els] ∧ m = cellsOf after := by
  refine ⟨owned ++ [xs], ?_, ?_, hm.trans (cellsOf_concat owned xs).symm⟩
  · rw [List.map_append, List.map_singleton]
  · rw [List.map_append, List.map_singleton]

theorem replaces {owned : List Placed} {i : ℕ} {xs : Placed} (hi : owned[i]? = some xs)
    (ys : Placed) (r : Reply) {m : Bindings γ} (hm : m = ys.cells + cellsOf (owned.eraseIdx i)) :
    ∃ after : List Placed,
      (r, (owned.map Placed.head).set i ys.head) = (r, after.map Placed.head) ∧
        after.map Placed.els = (owned.map Placed.els).set i ys.els ∧ m = cellsOf after := by
  refine ⟨owned.set i ys, ?_, ?_, hm.trans ((cellsOf_focus hi).2 ys).symm⟩
  · rw [List.map_set]
  · rw [List.map_set]

theorem listAt_some {owned : List Placed} {i : ℕ} {xs : Placed} (hi : owned[i]? = some xs) :
    i < owned.length ∧ listAt (owned.map Placed.head) i = xs.head ∧
      listOf (owned.map Placed.els) i = xs.els := by
  refine ⟨(List.getElem?_eq_some_iff.mp hi).1, ?_, ?_⟩
  · rw [listAt, List.getElem?_map, hi]
    rfl
  · rw [listOf, List.getElem?_map, hi]
    rfl

theorem simulated_new (owned : List Placed) (el : ℕ) : Simulated γ owned (.new el) := by
  apply (triple_malloc _).bind
  rintro n m' rfl
  refine Triple.ret (gains [(n, el)] .void ?_)
  simp [Placed.cells, listCells, first]

theorem simulated_fromEls (owned : List Placed) (els : List ℕ) :
    Simulated γ owned (.fromEls els) := by
  have hfrom := (@triple_listFrom γ _ [] els).frame (cellsOf owned)
  rw [show listCells id (fun _ => (0 : Bindings γ)) [] none + cellsOf owned = cellsOf owned from
    zero_add _] at hfrom
  apply hfrom.bind
  rintro _ m' ⟨_, ⟨new, rfl, rfl, rfl⟩, rfl⟩
  exact Triple.ret (gains new .void rfl)

theorem simulated_push (owned : List Placed) (i el : ℕ) : Simulated γ owned (.push i el) := by
  cases hi : owned[i]? with
  | none =>
    have hlen : ¬ i < owned.length := by simpa using hi
    have hlist : listAt (owned.map Placed.head) i = none := by
      rw [listAt, List.getElem?_map, hi]
      rfl
    unfold Simulated
    simp only [Command.exec, Command.step, List.length_map, if_neg hlen, hlist]
    have hpush := (@triple_listPush γ ℕ _ id (fun _ => 0) [] el).frame (cellsOf owned)
    rw [show 0 + listCells id (fun _ => (0 : Bindings γ)) [] none + cellsOf owned =
      cellsOf owned by simp [listCells]] at hpush
    apply hpush.bind
    rintro r m' ⟨_, ⟨n, rfl, hr⟩, rfl⟩
    rw [← hr]
    exact Triple.ret (gains [(n, el)] .void rfl)
  | some xs =>
    obtain ⟨hlen, hlist, hels⟩ := listAt_some hi
    unfold Simulated
    simp only [Command.exec, Command.step, List.length_map, if_pos hlen, hlist, hels]
    have hpush := (@triple_listPush γ ℕ _ id (fun _ => 0) xs el).frame
      (cellsOf (owned.eraseIdx i))
    rw [zero_add] at hpush
    rw [(cellsOf_focus hi).1]
    apply hpush.bind
    rintro r m' ⟨_, ⟨n, rfl, hr⟩, rfl⟩
    rw [← hr, show xs.els ++ [el] = Placed.els (xs ++ [(n, el)]) by simp [Placed.els]]
    exact Triple.ret (replaces hi (xs ++ [(n, el)]) .void rfl)

theorem simulated_length (owned : List Placed) (i : ℕ) : Simulated γ owned (.length i) := by
  obtain ⟨xs, rest, hcells, hlist, hels⟩ := @cellsOf_at γ _ owned i
  have hlen := @length_le_cells γ _ xs
  unfold Simulated
  simp only [Command.exec, Command.step, hlist, hels, hcells]
  apply triple_heapBound
  intro fuel hfuel
  rw [Multiset.card_add] at hfuel
  have hlength := @returns_listLength γ ℕ _ id (fun _ => 0) xs fuel (by omega) 0
  refine (hlength.frame rest).then ?_
  refine Triple.ret ⟨owned, ?_, rfl, hcells.symm⟩
  rw [zero_add, Placed.els, List.length_map]

theorem simulated_find (owned : List Placed) (i : ℕ) (test : ℕ → Bool) :
    Simulated γ owned (.find i test) := by
  obtain ⟨xs, rest, hcells, hlist, hels⟩ := @cellsOf_at γ _ owned i
  unfold Simulated
  simp only [Command.exec, Command.step, hlist, hels, hcells]
  apply triple_findFirst
  cases hfind : xs.find? fun x => test x.2 with
  | none =>
    rw [find_none hfind]
    exact Triple.ret ⟨owned, rfl, rfl, hcells.symm⟩
  | some x =>
    obtain ⟨front, back, rfl, helement, _⟩ := find_split hfind
    have hmem : (x.1, node x.2 (first back none)) ∈
        (Placed.cells (front ++ x :: back) + rest : Bindings γ) := by
      refine Multiset.mem_add.mpr (.inl ?_)
      rw [Placed.cells, listCells_append]
      exact Multiset.mem_add.mpr (.inr head_mem)
    rw [helement]
    refine (returns_listEl hmem).then ?_
    exact Triple.ret ⟨owned, rfl, rfl, hcells.symm⟩

theorem simulated_transform (owned : List Placed) (i : ℕ) (f : ℕ → ℕ) :
    Simulated γ owned (.transform i f) := by
  obtain ⟨xs, rest, hcells, hlist, hels⟩ := @cellsOf_at γ _ owned i
  have hlen := @length_le_cells γ _ xs
  unfold Simulated
  simp only [Command.exec, Command.step, hlist, hels, hcells]
  apply triple_heapBound
  intro fuel hfuel
  rw [Multiset.card_add] at hfuel
  have hcopy := (@triple_listTransform γ ℕ _ id (fun _ => 0) ℕ id (fun _ => 0)
    (fun i j => j = f i)
    (fun el => pure (f el)) xs (fun x _ => Triple.ret ⟨f x.2, rfl, rfl, rfl⟩) [] fuel
    (by omega)).frame rest
  rw [show listCells id (fun _ => (0 : Bindings γ)) xs none + listCells id (fun _ => 0) [] none +
    rest = xs.cells + rest from congrArg (· + rest) (add_zero _)] at hcopy
  apply hcopy.bind
  rintro r m' ⟨_, ⟨copies, hcopies, rfl, rfl⟩, rfl⟩
  have hels' : Placed.els copies = xs.els.map f := by
    rw [Placed.els, Placed.els]
    generalize xs.map Prod.snd = els at hcopies ⊢
    generalize copies.map Prod.snd = new at hcopies ⊢
    induction hcopies with
    | nil => rfl
    | cons hcopy _ ih => rw [hcopy, ih, List.map_cons]
  rw [← hels']
  refine Triple.ret (gains copies .void ?_)
  rw [hcells, List.nil_append]
  change Placed.cells xs + Placed.cells copies + rest =
    Placed.cells copies + (Placed.cells xs + rest)
  abel

theorem simulated_free (owned : List Placed) (i : ℕ) : Simulated γ owned (.free i) := by
  unfold Simulated
  simp only [Command.exec, Command.step]
  cases hi : owned[i]? with
  | none =>
    have hlen : owned.length ≤ i := List.getElem?_eq_none_iff.mp hi
    have hlist : listAt (owned.map Placed.head) i = none := by
      rw [listAt, List.getElem?_map, hi]
      rfl
    rw [hlist, List.eraseIdx_of_length_le (by simpa using hlen),
      List.eraseIdx_of_length_le (by simpa using hlen)]
    apply triple_heapBound
    intro fuel _
    have hfree : listFree fuel none = (pure () : Mem γ Halt Unit) := by cases fuel <;> rfl
    rw [hfree]
    exact (Returns.ret _ _).then (Triple.ret ⟨owned, rfl, rfl, rfl⟩)
  | some xs =>
    obtain ⟨_, hlist, _⟩ := listAt_some hi
    have hlen := @length_le_cells γ _ xs
    rw [hlist, (cellsOf_focus hi).1]
    apply triple_heapBound
    intro fuel hfuel
    rw [Multiset.card_add] at hfuel
    have hfree := @returns_listFree γ ℕ _ id xs fuel (by omega)
    refine (hfree.frame (cellsOf (owned.eraseIdx i))).then ?_
    refine Triple.ret ⟨owned.eraseIdx i, ?_, ?_, zero_add _⟩
    · rw [List.eraseIdx_map]
    · rw [List.eraseIdx_map]

/-- The link comes from the list itself: it is taken out and is a list of its own. -/
theorem triple_remove_same {owned : List Placed} {i : ℕ} {front back : Placed} {x : ℕ × ℕ}
    (hi : owned[i]? = some (front ++ x :: back)) :
    Triple (cellsOf owned : Bindings γ) (listRemove (Placed.head (front ++ x :: back)) x.1)
      fun r m' => r = Placed.head (front ++ back) ∧
        m' = Placed.cells [x] + (Placed.cells (front ++ back) + cellsOf (owned.eraseIdx i)) := by
  have hlen := @length_le_cells γ _ (front ++ x :: back)
  rw [(cellsOf_focus hi).1]
  apply Triple.ofNodup
  intro hnodup
  apply triple_heapBound
  intro fuel hfuel
  rw [Multiset.card_add] at hfuel
  simp only [List.length_append, List.length_cons] at hlen
  have hremove := (@returns_removeLoop γ ℕ _ id (fun _ => 0) [] front back x fuel
    (ne_of_nodup hnodup) (by omega)).frame (cellsOf (owned.eraseIdx i))
  refine Triple.weaken hremove ?_
  rintro r m' ⟨rfl, rfl⟩
  refine ⟨rfl, ?_⟩
  change Placed.cells (front ++ back) + Placed.cells [x] + _ = _
  abel

/-- The link comes from another list: nothing happens. -/
theorem returns_remove_other {owned : List Placed} {i k : ℕ} {xs : Placed}
    (hk : owned[k]? = some xs) (hne : i ≠ k) {x : ℕ × ℕ} (hx : x ∈ xs) :
    Returns (cellsOf owned : Bindings γ) (listRemove (listAt (owned.map Placed.head) i) x.1)
      (listAt (owned.map Placed.head) i) (cellsOf owned) := by
  apply Triple.ofNodup
  intro hnodup
  apply triple_heapBound
  intro fuel hfuel
  cases hi : owned[i]? with
  | none =>
    have hlist : listAt (owned.map Placed.head) i = none := by
      rw [listAt, List.getElem?_map, hi]
      rfl
    have hstop : removeLoop none x.1 fuel none none = (pure none : Mem γ Halt (Option ℕ)) := by
      cases fuel <;> rfl
    rw [hlist, hstop]
    exact Returns.ret _ _
  | some ys =>
    have hlen := @length_le_cells γ _ ys
    rw [(cellsOf_focus hi).1, Multiset.card_add] at hfuel
    have habsent := ne_of_disjoint hi hk hne hnodup hx
    have hremove := (@returns_removeLoop_absent γ ℕ _ id (fun _ => 0) [] ys
      (listAt (owned.map Placed.head) i) x.1 fuel habsent (by omega)).frame
      (cellsOf (owned.eraseIdx i))
    rw [(listAt_some hi).2.1] at hremove ⊢
    exact hremove.reorder (cellsOf_focus hi).1 (cellsOf_focus hi).1.symm

theorem set_listAt (heads : List (Option ℕ)) (i : ℕ) :
    heads.set i (listAt heads i) = heads := by
  by_cases hi : i < heads.length
  · rw [listAt, List.getElem?_eq_getElem hi, Option.getD_some, List.set_getElem_self]
  · exact List.set_eq_of_length_le (by omega)

theorem simulated_remove (owned : List Placed) (i k : ℕ) (test : ℕ → Bool) :
    Simulated γ owned (.remove i k test) := by
  unfold Simulated
  simp only [Command.exec, Command.step]
  cases hk : owned[k]? with
  | none =>
    obtain ⟨xs, rest, hcells, hlist, hels⟩ := @cellsOf_at γ _ owned k
    have hnone : listOf (owned.map Placed.els) k = [] := by
      rw [listOf, List.getElem?_map, hk]
      rfl
    have hempty : xs = [] := by
      rw [hnone] at hels
      exact List.map_eq_nil_iff.mp hels.symm
    subst hempty
    rw [hlist, hnone, hcells]
    apply triple_findFirst
    exact Triple.ret ⟨owned, rfl, rfl, hcells.symm⟩
  | some xs =>
    obtain ⟨_, hlist, hels⟩ := listAt_some hk
    rw [hlist, hels, (cellsOf_focus hk).1]
    apply triple_findFirst
    rw [← (cellsOf_focus hk).1]
    cases hfind : xs.find? fun x => test x.2 with
    | none =>
      rw [find_none hfind]
      exact Triple.ret ⟨owned, rfl, rfl, rfl⟩
    | some x =>
      obtain ⟨front, back, rfl, helement, herase⟩ := find_split hfind
      rw [helement]
      simp only [Option.map_some]
      by_cases hik : i = k
      · subst hik
        simp only [↓reduceIte, hels, herase, hlist]
        apply (triple_remove_same hk).bind
        rintro _ m' ⟨rfl, rfl⟩
        obtain ⟨after, hheads, hafter, hcells⟩ :=
          @replaces γ _ owned i _ hk (front ++ back) .void _ rfl
        refine Triple.ret ⟨after ++ [[x]], ?_, ?_, ?_⟩
        · rw [(Prod.mk.inj hheads).2, List.map_append]
          rfl
        · rw [List.map_append, hafter]
          rfl
        · rw [cellsOf_concat, hcells]
      · simp only [if_neg hik]
        refine (returns_remove_other hk hik (by simp)).then ?_
        refine Triple.ret ⟨owned, ?_, rfl, rfl⟩
        rw [set_listAt]

theorem simulated (owned : List Placed) (command : Command) : Simulated γ owned command := by
  cases command with
  | new el => exact simulated_new owned el
  | fromEls els => exact simulated_fromEls owned els
  | push i el => exact simulated_push owned i el
  | length i => exact simulated_length owned i
  | find i test => exact simulated_find owned i test
  | remove i k test => exact simulated_remove owned i k test
  | transform i f => exact simulated_transform owned i f
  | free i => exact simulated_free owned i

end Steps

section Sessions
variable {γ : Type} [Nodes γ]

theorem triple_session (commands : List Command) (owned : List Placed) :
    Triple (cellsOf owned : Bindings γ) (session commands (owned.map Placed.head)) fun x m' =>
      ∃ after : List Placed,
        x = ((steps commands (owned.map Placed.els)).1, after.map Placed.head) ∧
        after.map Placed.els = (steps commands (owned.map Placed.els)).2 ∧
        m' = cellsOf after := by
  induction commands generalizing owned with
  | nil => exact Triple.ret ⟨owned, rfl, rfl, rfl⟩
  | cons command commands ih =>
    apply Triple.bind (simulated owned command)
    rintro _ m' ⟨mid, rfl, hmid, rfl⟩
    apply (ih mid).bind
    rintro _ m' ⟨after, rfl, hafter, rfl⟩
    rw [hmid] at hafter ⊢
    exact Triple.ret ⟨after, rfl, hafter, rfl⟩

/-- A client that starts with an empty heap gets the replies that it would get from lists
    that are values, it has these lists in the end, and their nodes, which are all
    different, are all that the heap has. -/
theorem lists_are_values (commands : List Command) :
    ∃ (h : Heap γ) (owned : List Placed),
      session commands [] Heap.empty =
        .ok (((steps commands []).1, owned.map Placed.head), h) ∧
      owned.map Placed.els = (steps commands []).2 ∧ Exactly h (cellsOf owned) := by
  obtain ⟨_, h, _, hrun, hcells, owned, rfl, hels, rfl⟩ :=
    @triple_session γ _ commands [] Exactly _ Heap.empty 0 (by exact exactly_empty)
  exact ⟨h, owned, hrun, hels, by rwa [add_zero] at hcells⟩

end Sessions

end Pathcomp.ListClients
