import Pathcomp.Bytes
import Pathcomp.Heaps

set_option autoImplicit false

/-!
# Lists of any elements in memory

All of `list.c`, on a heap whose cells include list nodes beside whatever else the
program keeps there. An element is a pointer; loops over lists are bounded by the
number of cells ever allocated.
-/
namespace Pathcomp.Links
open Bytes Heaps

/-- Cells among which there are the nodes of lists. -/
class Nodes (γ : Type) where
  node : ℕ → Option ℕ → γ
  asNode : γ → Option (ℕ × Option ℕ)
  asNode_node : ∀ el next, asNode (node el next) = some (el, next)

export Nodes (node asNode)

section Programs
variable {γ : Type} [Nodes γ]

/-- `list->el` -/
def listEl (list : ℕ) : Mem γ Halt ℕ := do
  match asNode (← load .nullPointer list) with
  | some (el, _) => pure el
  | none => halt .nullPointer

/-- `list->next` -/
def listNext (list : ℕ) : Mem γ Halt (Option ℕ) := do
  match asNode (← load .nullPointer list) with
  | some (_, next) => pure next
  | none => halt .nullPointer

/-- An assignment to `list->next` -/
def setNext (list : ℕ) (next : Option ℕ) : Mem γ Halt Unit := do
  store .nullPointer list (node (← listEl list) next)

def listNew (el : ℕ) : Mem γ Halt ℕ := malloc (node el none)

def listFree : ℕ → Option ℕ → Mem γ Halt Unit
  | _, none => pure ()
  | 0, some _ => halt .bound
  | fuel + 1, some list => do
    let next ← listNext list
    free .nullPointer list
    listFree fuel next

def listLength : ℕ → Option ℕ → Int32 → Mem γ Halt Int32
  | _, none, n => pure n
  | 0, some _, _ => halt .bound
  | fuel + 1, some list, n => do listLength fuel (← listNext list) (n + 1)

/-- The last node, which `list_push` looks for. -/
def listLast : ℕ → ℕ → Mem γ Halt ℕ
  | 0, _ => halt .bound
  | fuel + 1, p => do
    match ← listNext p with
    | none => pure p
    | some next => listLast fuel next

def listPush (list : Option ℕ) (el : ℕ) : Mem γ Halt ℕ := do
  let new ← malloc (node el none)
  match list with
  | none => pure new
  | some list => do
    let p ← listLast (← heapBound) list
    setNext p (some new)
    pure list

/-- The arguments up to the NULL that ends them. -/
def listFrom : Option ℕ → List ℕ → Mem γ Halt (Option ℕ)
  | list, [] => pure list
  | list, el :: els => do
    let list ← listPush list el
    listFrom (some list) els

def listForeach (f : ℕ → Mem γ Halt Unit) : ℕ → Option ℕ → Mem γ Halt Unit
  | _, none => pure ()
  | 0, some _ => halt .bound
  | fuel + 1, some list => do
    f (← listEl list)
    listForeach f fuel (← listNext list)

def listFindFirst (f : ℕ → Mem γ Halt Bool) : ℕ → Option ℕ → Mem γ Halt (Option ℕ)
  | _, none => pure none
  | 0, some _ => halt .bound
  | fuel + 1, some list => do
    if ← f (← listEl list) then pure (some list)
    else listFindFirst f fuel (← listNext list)

/-- The loop of `list_remove`, which stops at the link or at the end of the list. -/
def removeLoop (list : Option ℕ) (link : ℕ) :
    ℕ → Option ℕ → Option ℕ → Mem γ Halt (Option ℕ)
  | _, _, none => pure list
  | 0, _, some _ => halt .bound
  | fuel + 1, prev, some p => do
    if p = link then
      let next ← listNext link
      match prev with
      | some prev => do
        setNext prev next
        setNext link none
        pure list
      | none => do
        setNext link none
        pure next
    else removeLoop list link fuel (some p) (← listNext p)

def listRemove (list : Option ℕ) (link : ℕ) : Mem γ Halt (Option ℕ) := do
  removeLoop list link (← heapBound) none list

def listTransform (f : ℕ → Mem γ Halt ℕ) :
    ℕ → Option ℕ → Option ℕ → Mem γ Halt (Option ℕ)
  | _, none, dst => pure dst
  | 0, some _, _ => halt .bound
  | fuel + 1, some src, dst => do
    let dst ← listPush dst (← f (← listEl src))
    listTransform f fuel (← listNext src) (some dst)

end Programs

section Lists
variable {γ ι : Type} [Nodes γ]

/-- The pointer to the first node, or to what follows the list. -/
def first (xs : List (ℕ × ι)) (last : Option ℕ) : Option ℕ :=
  match xs with
  | [] => last
  | x :: _ => some x.1

/-- Nodes are paired with elements; `last` is where the last node points. -/
def listCells (cell : ι → ℕ) (own : ι → Bindings γ) :
    List (ℕ × ι) → Option ℕ → Bindings γ
  | [], _ => 0
  | x :: xs, last =>
    {(x.1, node (cell x.2) (first xs last))} + (own x.2 + listCells cell own xs last)

theorem first_append (xs ys : List (ℕ × ι)) (last : Option ℕ) :
    first (xs ++ ys) last = first xs (first ys last) := by
  cases xs <;> rfl

theorem first_concat (front : List (ℕ × ι)) (x : ℕ × ι) (last : Option ℕ) :
    ∃ p, first (front ++ [x]) last = some p := by
  cases front with
  | nil => exact ⟨x.1, rfl⟩
  | cons z front => exact ⟨z.1, rfl⟩

theorem first_congr {κ : Type} {xs : List (ℕ × ι)} {ys : List (ℕ × κ)}
    (h : xs.map Prod.fst = ys.map Prod.fst) (last : Option ℕ) :
    first xs last = first ys last := by
  cases xs <;> cases ys <;> simp_all [first]

section Reading
variable {m : Bindings γ} {p el : ℕ} {next : Option ℕ}

theorem returns_listEl (h : (p, node el next) ∈ m) : Returns m (listEl p) el m := by
  refine (returns_load h).then ?_
  rw [Nodes.asNode_node]
  exact Returns.ret m el

theorem returns_listNext (h : (p, node el next) ∈ m) : Returns m (listNext p) next m := by
  refine (returns_load h).then ?_
  rw [Nodes.asNode_node]
  exact Returns.ret m next

theorem returns_setNext (next' : Option ℕ) :
    Returns ({(p, node el next)} + m) (setNext p next') () ({(p, node el next')} + m) := by
  have hmem : (p, node el next) ∈ {(p, node el next)} + m := by simp
  refine (returns_listEl hmem).then ?_
  exact returns_store _

end Reading

variable {cell : ι → ℕ} {own : ι → Bindings γ}

theorem listCells_append (xs ys : List (ℕ × ι)) (last : Option ℕ) :
    listCells cell own (xs ++ ys) last =
      listCells cell own xs (first ys last) + listCells cell own ys last := by
  induction xs with
  | nil => simp [listCells]
  | cons x xs ih =>
    simp only [List.cons_append, listCells, first_append, ih]
    abel

theorem listCells_split (front back : List (ℕ × ι)) (x : ℕ × ι) (last : Option ℕ) :
    listCells cell own (front ++ x :: back) last =
      own x.2 + (listCells cell own front (some x.1) +
        {(x.1, node (cell x.2) (first back last))} + listCells cell own back last) := by
  rw [listCells_append, listCells]
  simp only [first]
  abel

theorem length_le_card (xs : List (ℕ × ι)) (last : Option ℕ) :
    xs.length ≤ (listCells cell own xs last).card := by
  induction xs with
  | nil => simp
  | cons x xs ih =>
    simp only [List.length_cons, listCells, Multiset.card_add, Multiset.card_singleton]
    omega

theorem listCells_congr {κ : Type} {cell' : κ → ℕ} {own' : κ → Bindings γ} (g : ι → κ)
    (hcell : ∀ i, cell' (g i) = cell i) (xs : List (ℕ × ι)) (last : Option ℕ) :
    listCells cell' own' (xs.map fun x => (x.1, g x.2)) last =
      listCells cell (fun i => own' (g i)) xs last := by
  induction xs with
  | nil => rfl
  | cons x xs ih =>
    have hfirst : first (xs.map fun x => (x.1, g x.2)) last = first xs last :=
      first_congr (by simp) last
    simp only [List.map_cons, listCells, hcell, hfirst, ih]

theorem node_mem {front back : List (ℕ × ι)} {x : ℕ × ι} (last : Option ℕ) :
    (x.1, node (cell x.2) (first back last)) ∈
      listCells cell own (front ++ x :: back) last := by
  rw [listCells_append, listCells]
  simp

theorem head_mem {x : ℕ × ι} {xs : List (ℕ × ι)} {last : Option ℕ} :
    (x.1, node (cell x.2) (first xs last)) ∈ listCells cell own (x :: xs) last := by
  simp [listCells]

theorem listCells_cons (x : ℕ × ι) (xs : List (ℕ × ι)) (last : Option ℕ) :
    listCells cell own (x :: xs) last = own x.2 +
      ({(x.1, node (cell x.2) (first xs last))} + listCells cell own xs last) := by
  simp only [listCells]
  abel

/-- What `list_foreach` does to the elements, when the calls own one each. -/
theorem returns_listForeach {own' : ι → Bindings γ} {f : ℕ → Mem γ Halt Unit}
    {xs : List (ℕ × ι)} (hf : ∀ x ∈ xs, Returns (own x.2) (f (cell x.2)) () (own' x.2))
    {fuel : ℕ} (hfuel : xs.length ≤ fuel) :
    Returns (listCells cell own xs none) (listForeach f fuel (first xs none)) ()
      (listCells cell own' xs none) := by
  induction xs generalizing fuel with
  | nil =>
    cases fuel <;> exact Returns.ret _ _
  | cons x xs ih =>
    obtain ⟨n, rfl⟩ : ∃ n, fuel = n + 1 := ⟨fuel - 1, by simp at hfuel; omega⟩
    have hx := (hf x (by simp)).frame
      ({(x.1, node (cell x.2) (first xs none))} + listCells cell own xs none)
    have hrest := (@ih (fun y hy => hf y (by simp [hy])) n (by simpa using hfuel)).frame
      ({(x.1, node (cell x.2) (first xs none))} + own' x.2)
    refine (returns_listEl head_mem).then ?_
    refine (hx.reorder (listCells_cons x xs none) rfl).then ?_
    refine (returns_listNext (show (x.1, node (cell x.2) (first xs none)) ∈ _ by simp)).then ?_
    exact hrest.reorder (by abel) (by simp only [listCells]; abel)

theorem returns_listFindFirst {f : ℕ → Mem γ Halt Bool} {test : ι → Bool}
    (hf : ∀ i, Returns (own i) (f (cell i)) (test i) (own i)) {xs : List (ℕ × ι)} {fuel : ℕ}
    (hfuel : xs.length ≤ fuel) :
    Returns (listCells cell own xs none) (listFindFirst f fuel (first xs none))
      ((xs.find? fun x => test x.2).map Prod.fst) (listCells cell own xs none) := by
  induction xs generalizing fuel with
  | nil =>
    cases fuel <;> exact Returns.ret _ _
  | cons x xs ih =>
    obtain ⟨n, rfl⟩ : ∃ n, fuel = n + 1 := ⟨fuel - 1, by simp at hfuel; omega⟩
    have hx := (hf x.2).frame
      ({(x.1, node (cell x.2) (first xs none))} + listCells cell own xs none)
    have hrest := (@ih n (by simpa using hfuel)).frame
      ({(x.1, node (cell x.2) (first xs none))} + own x.2)
    refine (returns_listEl head_mem).then ?_
    refine (hx.reorder (listCells_cons x xs none) (listCells_cons x xs none).symm).then ?_
    cases htest : test x.2 with
    | true =>
      rw [show ((x :: xs).find? fun x => test x.2) = some x by simp [htest]]
      exact Returns.ret _ _
    | false =>
      rw [show ((x :: xs).find? fun x => test x.2) = xs.find? fun x => test x.2 by simp [htest]]
      refine (returns_listNext head_mem).then ?_
      exact hrest.reorder (by simp only [listCells]; abel) (by simp only [listCells]; abel)

theorem returns_listFree {xs : List (ℕ × ι)} {fuel : ℕ} (hfuel : xs.length ≤ fuel) :
    Returns (listCells cell (fun _ => (0 : Bindings γ)) xs none) (listFree fuel (first xs none)) ()
      0 := by
  induction xs generalizing fuel with
  | nil =>
    cases fuel <;> exact Returns.ret _ _
  | cons x xs ih =>
    obtain ⟨n, rfl⟩ : ∃ n, fuel = n + 1 := ⟨fuel - 1, by simp at hfuel; omega⟩
    refine (returns_listNext head_mem).then ?_
    refine Returns.then returns_free ?_
    exact (@ih n (by simpa using hfuel)).reorder (zero_add _) rfl

theorem returns_listLength {xs : List (ℕ × ι)} {fuel : ℕ}
    (hfuel : xs.length ≤ fuel) (n : ℕ) :
    Returns (listCells cell own xs none) (listLength fuel (first xs none) (.ofNat n))
      (.ofNat (n + xs.length)) (listCells cell own xs none) := by
  induction xs generalizing fuel n with
  | nil =>
    cases fuel <;> exact Returns.ret _ _
  | cons x xs ih =>
    obtain ⟨k, rfl⟩ : ∃ k, fuel = k + 1 := ⟨fuel - 1, by simp at hfuel; omega⟩
    have hrest := (@ih k (by simpa using hfuel) (n + 1)).frame
      ({(x.1, node (cell x.2) (first xs none))} + own x.2)
    rw [Int32.ofNat_add n 1] at hrest
    refine (returns_listNext head_mem).then ?_
    rw [List.length_cons, show n + (xs.length + 1) = n + 1 + xs.length by omega]
    exact hrest.reorder (by simp only [listCells]; abel) (by simp only [listCells]; abel)

theorem returns_listLast {m : Bindings γ} {x : ℕ × ι} {front : List (ℕ × ι)} {p fuel : ℕ}
    (hp : first (front ++ [x]) none = some p) (hfuel : front.length < fuel)
    (hm : ∀ b ∈ listCells cell own (front ++ [x]) none, b ∈ m) :
    Returns m (listLast fuel p) x.1 m := by
  induction front generalizing p fuel with
  | nil =>
    obtain ⟨n, rfl⟩ : ∃ n, fuel = n + 1 := ⟨fuel - 1, by omega⟩
    obtain rfl : x.1 = p := by simpa [first] using hp
    refine (returns_listNext (hm _ head_mem)).then ?_
    exact Returns.ret _ _
  | cons y front ih =>
    obtain ⟨n, rfl⟩ : ∃ n, fuel = n + 1 := ⟨fuel - 1, by omega⟩
    obtain rfl : y.1 = p := by simpa [first] using hp
    obtain ⟨q, hq⟩ := first_concat front x none
    rw [List.cons_append] at hm
    refine (returns_listNext (hm _ head_mem)).then ?_
    rw [hq]
    refine ih hq (by simpa using hfuel) fun b hb => hm b ?_
    rw [listCells]
    exact Multiset.mem_add.mpr (.inr (Multiset.mem_add.mpr (.inr hb)))

theorem triple_listPush (xs : List (ℕ × ι)) (i : ι) :
    Triple (own i + listCells cell own xs none) (listPush (first xs none) (cell i)) fun r m' =>
      ∃ n, m' = listCells cell own (xs ++ [(n, i)]) none ∧
        first (xs ++ [(n, i)]) none = some r := by
  apply (triple_malloc _).bind
  rintro n m' rfl
  rcases List.eq_nil_or_concat xs with rfl | ⟨front, x, rfl⟩
  · refine Triple.ret ⟨n, ?_, rfl⟩
    simp [listCells, first]
  rw [List.concat_eq_append]
  obtain ⟨p, hp⟩ := first_concat front x none
  have hcells : listCells cell own (front ++ [x]) none =
      {(x.1, node (cell x.2) none)} + (own x.2 + listCells cell own front (some x.1)) := by
    rw [listCells_append]
    simp only [listCells, first]
    abel
  have hlen : front.length + 1 ≤ (listCells cell own (front ++ [x]) none).card := by
    have hle := @length_le_card _ _ _ cell own (front ++ [x]) none
    simpa using hle
  rw [hp]
  apply triple_heapBound
  intro fuel hfuel
  simp only [Multiset.card_add, Multiset.card_singleton] at hfuel
  have hmem : ∀ b ∈ listCells cell own (front ++ [x]) none,
      b ∈ {(n, node (cell i) none)} + (own i + listCells cell own (front ++ [x]) none) := by
    intro b hb
    simp [hb]
  refine (returns_listLast hp (by omega) hmem).then ?_
  have hset := @returns_setNext γ _ ({(n, node (cell i) none)} + (own i +
    (own x.2 + listCells cell own front (some x.1)))) x.1 (cell x.2) none (some n)
  refine (hset.reorder (by rw [hcells]; abel) rfl).then ?_
  refine Triple.ret ⟨n, ?_, ?_⟩
  · rw [List.append_assoc, listCells_append]
    simp only [List.cons_append, List.nil_append, listCells, first]
    abel
  · rw [← hp, first_append, first_append, first_append]
    rfl

theorem triple_listFrom (xs : List (ℕ × ℕ)) (els : List ℕ) :
    Triple (listCells id (fun _ => (0 : Bindings γ)) xs none) (listFrom (first xs none) els)
      fun r m' => ∃ new : List (ℕ × ℕ), new.map Prod.snd = els ∧
      r = first (xs ++ new) none ∧
        m' = listCells id (fun _ => (0 : Bindings γ)) (xs ++ new) none := by
  induction els generalizing xs with
  | nil => exact Triple.ret ⟨[], rfl, by simp, by simp⟩
  | cons el els ih =>
    have hpush := @triple_listPush γ ℕ _ id (fun _ => 0) xs el
    rw [zero_add] at hpush
    apply hpush.bind
    rintro r m' ⟨n, rfl, hr⟩
    rw [← hr]
    apply (ih (xs ++ [(n, el)])).weaken
    rintro r' m'' ⟨new, rfl, rfl, rfl⟩
    refine ⟨(n, el) :: new, rfl, ?_, ?_⟩
    · rw [List.append_assoc, List.singleton_append]
    · rw [List.append_assoc, List.singleton_append]

/-- The node before the one that the loop looks at. -/
def before (xs : List (ℕ × ι)) : Option ℕ := xs.getLast?.map Prod.fst

theorem before_concat (xs : List (ℕ × ι)) (x : ℕ × ι) : before (xs ++ [x]) = some x.1 := by
  rw [before, List.getLast?_concat]
  rfl

theorem removeLoop_skip {m : Bindings γ} {list : Option ℕ} {link : ℕ} {x : ℕ × ι}
    {next : Option ℕ} {fuel : ℕ} {prev : Option ℕ}
    {post : Option ℕ → Bindings γ → Prop}
    (hx : (x.1, node (cell x.2) next) ∈ m) (hne : x.1 ≠ link)
    (hrest : Triple m (removeLoop list link fuel (some x.1) next) post) :
    Triple m (removeLoop list link (fuel + 1) prev (some x.1)) post := by
  rw [removeLoop, if_neg hne]
  exact (returns_listNext hx).then hrest

theorem returns_removeLoop_absent {done todo : List (ℕ × ι)} {list : Option ℕ}
    {link fuel : ℕ} (habsent : ∀ x ∈ todo, x.1 ≠ link) (hfuel : todo.length ≤ fuel) :
    Returns (listCells cell own (done ++ todo) none)
      (removeLoop list link fuel (before done) (first todo none)) list
      (listCells cell own (done ++ todo) none) := by
  induction todo generalizing done fuel with
  | nil => cases fuel <;> exact Returns.ret _ _
  | cons x todo ih =>
    obtain ⟨n, rfl⟩ : ∃ n, fuel = n + 1 := ⟨fuel - 1, by simp at hfuel; omega⟩
    have hmem : (x.1, node (cell x.2) (first todo none)) ∈
        listCells cell own (done ++ x :: todo) none := by
      rw [listCells_append]
      exact Multiset.mem_add.mpr (.inr head_mem)
    have hrest := @ih (done ++ [x]) n (fun y hy => habsent y (by simp [hy])) (by simpa using hfuel)
    rw [before_concat, List.append_assoc, List.singleton_append] at hrest
    exact removeLoop_skip hmem (habsent x (by simp)) hrest

theorem returns_removeLoop {done mid back : List (ℕ × ι)} {x : ℕ × ι} {fuel : ℕ}
    (hmid : ∀ y ∈ mid, y.1 ≠ x.1) (hfuel : mid.length < fuel) :
    Returns (listCells cell own (done ++ mid ++ x :: back) none)
      (removeLoop (first (done ++ mid ++ x :: back) none) x.1 fuel (before done)
        (first (mid ++ x :: back) none))
      (first (done ++ mid ++ back) none)
      (listCells cell own (done ++ mid ++ back) none + listCells cell own [x] none) := by
  induction mid generalizing done fuel with
  | nil =>
    obtain ⟨n, rfl⟩ : ∃ n, fuel = n + 1 := ⟨fuel - 1, by omega⟩
    have hmem : (x.1, node (cell x.2) (first back none)) ∈
        listCells cell own (done ++ x :: back) none := by
      rw [listCells_append]
      exact Multiset.mem_add.mpr (.inr head_mem)
    rw [List.append_nil, List.nil_append, first, removeLoop, if_pos rfl]
    refine (returns_listNext hmem).then ?_
    rcases List.eq_nil_or_concat done with rfl | ⟨front, y, rfl⟩
    · have hset := @returns_setNext γ _ (own x.2 + listCells cell own back none) x.1 (cell x.2)
        (first back none) none
      refine (hset.reorder ?_ rfl).then ((Returns.ret _ _).reorder ?_ rfl)
      · rw [List.nil_append, listCells]
      · simp only [List.nil_append, listCells, first]
        abel
    · rw [List.concat_eq_append, before_concat]
      have hprev := @returns_setNext γ _ (own y.2 + listCells cell own front (some y.1) +
        listCells cell own (x :: back) none) y.1 (cell y.2) (some x.1) (first back none)
      have hset := @returns_setNext γ _ (own x.2 + listCells cell own (front ++ [y] ++ back) none)
        x.1 (cell x.2) (first back none) none
      refine (hprev.reorder ?_ rfl).then ((hset.reorder ?_ rfl).then ?_)
      · rw [listCells_append, listCells_append]
        simp only [listCells, first]
        abel
      · rw [listCells_append, listCells_append]
        simp only [listCells, first]
        abel
      · have hsame : first (front ++ [y] ++ x :: back) none =
            first (front ++ [y] ++ back) none := by
          rw [first_append, first_append, first_append, first_append]
          rfl
        rw [hsame]
        refine (Returns.ret _ _).reorder ?_ rfl
        simp only [listCells, first]
        abel
  | cons y mid ih =>
    obtain ⟨n, rfl⟩ : ∃ n, fuel = n + 1 := ⟨fuel - 1, by omega⟩
    have hmem : (y.1, node (cell y.2) (first (mid ++ x :: back) none)) ∈
        listCells cell own (done ++ y :: mid ++ x :: back) none := by
      rw [List.append_assoc, listCells_append, List.cons_append]
      exact Multiset.mem_add.mpr (.inr head_mem)
    have hrest := @ih (done ++ [y]) n (fun z hz => hmid z (by simp [hz])) (by simpa using hfuel)
    rw [before_concat] at hrest
    simp only [List.append_assoc, List.singleton_append] at hrest hmem ⊢
    exact removeLoop_skip hmem (hmid y (by simp)) hrest

theorem triple_listTransform {κ : Type} {cell' : κ → ℕ} {own' : κ → Bindings γ}
    {Copy : ι → κ → Prop} {f : ℕ → Mem γ Halt ℕ} {src : List (ℕ × ι)}
    (hf : ∀ x ∈ src, Triple (own x.2) (f (cell x.2)) fun r m' =>
      ∃ j, cell' j = r ∧ Copy x.2 j ∧ m' = own' j + own x.2)
    (dst : List (ℕ × κ)) {fuel : ℕ} (hfuel : src.length ≤ fuel) :
    Triple (listCells cell own src none + listCells cell' own' dst none)
      (listTransform f fuel (first src none) (first dst none)) fun r m' =>
        ∃ copies : List (ℕ × κ),
          List.Forall₂ Copy (src.map Prod.snd) (copies.map Prod.snd) ∧
          r = first (dst ++ copies) none ∧
          m' = listCells cell own src none + listCells cell' own' (dst ++ copies) none := by
  induction src generalizing dst fuel with
  | nil =>
    have hret : Triple (listCells cell own [] none + listCells cell' own' dst none)
        (pure (first dst none) : Mem γ Halt (Option ℕ)) fun r m' =>
          ∃ copies : List (ℕ × κ),
            List.Forall₂ Copy (([] : List (ℕ × ι)).map Prod.snd) (copies.map Prod.snd) ∧
            r = first (dst ++ copies) none ∧
            m' = listCells cell own [] none + listCells cell' own' (dst ++ copies) none :=
      Triple.ret ⟨[], .nil, by simp, by simp⟩
    cases fuel <;> exact hret
  | cons x src ih =>
    obtain ⟨n, rfl⟩ : ∃ n, fuel = n + 1 := ⟨fuel - 1, by simp at hfuel; omega⟩
    have hnode : (x.1, node (cell x.2) (first src none)) ∈
        listCells cell own (x :: src) none := head_mem
    refine (returns_listEl (Multiset.mem_add.mpr (.inl hnode))).then ?_
    have hcopy := (hf x (by simp)).frame ({(x.1, node (cell x.2) (first src none))} +
      (listCells cell own src none + listCells cell' own' dst none))
    rw [show listCells cell own (x :: src) none + listCells cell' own' dst none =
      own x.2 + ({(x.1, node (cell x.2) (first src none))} +
        (listCells cell own src none + listCells cell' own' dst none)) by
      simp only [listCells]
      abel]
    apply hcopy.bind
    rintro r m' ⟨m₁, ⟨j, rfl, hj, rfl⟩, rfl⟩
    have hpush := (@triple_listPush γ _ _ cell' own' dst j).frame
      (listCells cell own (x :: src) none)
    rw [show own' j + own x.2 + ({(x.1, node (cell x.2) (first src none))} +
        (listCells cell own src none + listCells cell' own' dst none)) =
      own' j + listCells cell' own' dst none + listCells cell own (x :: src) none by
      simp only [listCells]
      abel]
    apply hpush.bind
    rintro d m' ⟨m₁, ⟨k, rfl, hd⟩, rfl⟩
    refine (returns_listNext (Multiset.mem_add.mpr (.inr hnode))).then ?_
    have hrest := (@ih (fun y hy => hf y (by simp [hy])) (dst ++ [(k, j)]) n
      (by simpa using hfuel)).frame ({(x.1, node (cell x.2) (first src none))} + own x.2)
    rw [hd] at hrest
    rw [show listCells cell' own' (dst ++ [(k, j)]) none + listCells cell own (x :: src) none =
      listCells cell own src none + listCells cell' own' (dst ++ [(k, j)]) none +
        ({(x.1, node (cell x.2) (first src none))} + own x.2) by
      simp only [listCells]
      abel]
    apply hrest.weaken
    rintro r m' ⟨m₁, ⟨copies, hcopies, rfl, rfl⟩, rfl⟩
    refine ⟨(k, j) :: copies, .cons hj hcopies, ?_, ?_⟩
    · rw [List.append_assoc, List.singleton_append]
    · rw [List.append_assoc, List.singleton_append]
      simp only [listCells]
      abel

theorem triple_destroy {α : Type} {f : ℕ → Mem γ Halt Unit} {xs : List (ℕ × ι)}
    {m : Bindings γ}
    (hf : ∀ x ∈ xs, Returns (own x.2) (f (cell x.2)) () 0) {next : Mem γ Halt α}
    {post : α → Bindings γ → Prop} (hnext : Triple m next post) :
    Triple (listCells cell own xs none + m) (do
      listForeach f (← heapBound) (first xs none)
      listFree (← heapBound) (first xs none)
      next) post := by
  have hcard := @length_le_card _ _ _ cell own xs none
  have hcard' := @length_le_card _ _ _ cell (fun _ => (0 : Bindings γ)) xs none
  apply triple_heapBound
  intro fuel hfuel
  rw [Multiset.card_add] at hfuel
  refine Returns.then
    ((@returns_listForeach _ _ _ _ _ (fun _ => 0) _ _ hf fuel (by omega)).frame m) ?_
  apply triple_heapBound
  intro fuel hfuel
  rw [Multiset.card_add] at hfuel
  refine Returns.then ((returns_listFree (by omega)).frame m) ?_
  rw [zero_add]
  exact hnext

end Lists

end Pathcomp.Links
