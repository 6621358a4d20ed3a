import Mathlib.Algebra.Order.Group.Multiset
import Mathlib.Data.Multiset.Range
import Mathlib.Tactic.Abel

set_option autoImplicit false

/-!
# A heap of cells

Programs over a heap are specified by the bindings that they own. A triple holds
together with all other bindings of the heap, which stay as they are; bindings of
one heap have different addresses. If the bindings before are all that the heap
has, so are those afterwards: what a triple does not mention was freed.
-/
namespace Pathcomp.Heaps

/-- Addresses from `bound` on were never handed out. -/
structure Heap (γ : Type) where
  cells : ℕ → Option γ
  bound : ℕ
  fresh : ∀ a, bound ≤ a → cells a = none

abbrev Bindings (γ : Type) := Multiset (ℕ × γ)

abbrev Mem (γ ε : Type) := StateT (Heap γ) (Except ε)

section Heap
variable {γ : Type}

def Heap.empty : Heap γ := ⟨fun _ => none, 0, fun _ _ => rfl⟩

def Heap.put (h : Heap γ) (a : ℕ) (x : Option γ) (ha : a < h.bound) : Heap γ where
  cells := Function.update h.cells a x
  bound := h.bound
  fresh := by
    intro b hb
    rw [Function.update_of_ne (by omega)]
    exact h.fresh b hb

def Heap.grow (h : Heap γ) (x : γ) : Heap γ where
  cells := Function.update h.cells h.bound (some x)
  bound := h.bound + 1
  fresh := by
    intro b hb
    rw [Function.update_of_ne (by omega)]
    exact h.fresh b (by omega)

/-- The heap has the bindings, at different addresses. -/
structure Holds (h : Heap γ) (m : Bindings γ) : Prop where
  cells : ∀ b ∈ m, h.cells b.1 = some b.2
  nodup : (m.map Prod.fst).Nodup

theorem Heap.lt_bound {h : Heap γ} {a : ℕ} {x : γ} (ha : h.cells a = some x) : a < h.bound := by
  by_contra hle
  rw [h.fresh a (by omega)] at ha
  cases ha

theorem holds_zero (h : Heap γ) : Holds h 0 := ⟨by simp, by simp⟩

variable {h : Heap γ} {m : Bindings γ} {a : ℕ} {x : γ}

/-- There are no more bindings than addresses were handed out. -/
theorem Holds.card_le (hh : Holds h m) : m.card ≤ h.bound := by
  have hsub : m.map Prod.fst ≤ Multiset.range h.bound := by
    rw [Multiset.le_iff_subset hh.nodup]
    intro a ha
    obtain ⟨b, hb, rfl⟩ := Multiset.mem_map.mp ha
    exact Multiset.mem_range.mpr (Heap.lt_bound (hh.cells b hb))
  simpa using Multiset.card_le_card hsub

theorem Holds.left {k : Bindings γ} (hh : Holds h (m + k)) : Holds h m := by
  refine ⟨fun b hb => hh.cells b (Multiset.mem_add.mpr (.inl hb)), ?_⟩
  have hn := hh.nodup
  rw [Multiset.map_add, Multiset.nodup_add] at hn
  exact hn.1

/-- Bindings next to each other have different addresses. -/
theorem Holds.disjoint {k : Bindings γ} (hh : Holds h (m + k)) {b c : ℕ × γ} (hb : b ∈ m)
    (hc : c ∈ k) : b.1 ≠ c.1 := by
  have hn := hh.nodup
  rw [Multiset.map_add, Multiset.nodup_add] at hn
  intro he
  refine Multiset.disjoint_left.mp hn.2.2 (Multiset.mem_map_of_mem Prod.fst hb) ?_
  rw [he]
  exact Multiset.mem_map_of_mem Prod.fst hc

theorem Holds.ne {b : ℕ × γ} (hh : Holds h ({(a, x)} + m)) (hb : b ∈ m) : b.1 ≠ a :=
  fun he => hh.disjoint (Multiset.mem_singleton_self (a, x)) hb he.symm

theorem Holds.head (hh : Holds h ({(a, x)} + m)) : h.cells a = some x :=
  hh.cells (a, x) (by simp)

theorem Holds.put (hh : Holds h ({(a, x)} + m)) (y : γ) :
    Holds (h.put a (some y) (Heap.lt_bound hh.head)) ({(a, y)} + m) := by
  refine ⟨fun b hb => ?_, by simpa using hh.nodup⟩
  simp only [Heap.put]
  rcases Multiset.mem_add.mp hb with hb | hb
  · rw [Multiset.mem_singleton.mp hb, Function.update_self]
  · rw [Function.update_of_ne (hh.ne hb)]
    exact hh.cells b (Multiset.mem_add.mpr (.inr hb))

theorem Holds.clear (hh : Holds h ({(a, x)} + m)) :
    Holds (h.put a none (Heap.lt_bound hh.head)) m := by
  have hm : Holds h m := by
    rw [add_comm] at hh
    exact hh.left
  refine ⟨fun b hb => ?_, hm.nodup⟩
  simp only [Heap.put]
  rw [Function.update_of_ne (hh.ne hb)]
  exact hm.cells b hb

theorem Holds.grow (hh : Holds h m) (x : γ) : Holds (h.grow x) ({(h.bound, x)} + m) := by
  have hne : ∀ b ∈ m, b.1 ≠ h.bound := fun b hb => (Heap.lt_bound (hh.cells b hb)).ne
  refine ⟨fun b hb => ?_, ?_⟩
  · simp only [Heap.grow]
    rcases Multiset.mem_add.mp hb with hb | hb
    · rw [Multiset.mem_singleton.mp hb, Function.update_self]
    · rw [Function.update_of_ne (hne b hb)]
      exact hh.cells b hb
  · rw [Multiset.map_add, Multiset.map_singleton, Multiset.singleton_add, Multiset.nodup_cons]
    refine ⟨fun hmem => ?_, hh.nodup⟩
    obtain ⟨b, hb, he⟩ := Multiset.mem_map.mp hmem
    exact hne b hb he

/-- The heap has the bindings and no others. -/
structure Exactly (h : Heap γ) (m : Bindings γ) : Prop extends Holds h m where
  only : ∀ b, h.cells b.1 = some b.2 → b ∈ m

theorem exactly_empty : Exactly (Heap.empty : Heap γ) 0 :=
  ⟨holds_zero _, fun _ hb => by cases hb⟩

theorem Exactly.cells_none (hh : Exactly h 0) (a : ℕ) : h.cells a = none := by
  cases ha : h.cells a with
  | none => rfl
  | some x => exact absurd (hh.only (a, x) ha) (Multiset.notMem_zero _)

theorem Exactly.put (hh : Exactly h ({(a, x)} + m)) (y : γ) :
    Exactly (h.put a (some y) (Heap.lt_bound hh.head)) ({(a, y)} + m) := by
  refine ⟨hh.toHolds.put y, fun b hb => ?_⟩
  simp only [Heap.put] at hb
  by_cases ha : b.1 = a
  · rw [ha, Function.update_self] at hb
    refine Multiset.mem_add.mpr (.inl (Multiset.mem_singleton.mpr ?_))
    exact Prod.ext ha (Option.some.inj hb).symm
  · rw [Function.update_of_ne ha] at hb
    rcases Multiset.mem_add.mp (hh.only b hb) with hb | hb
    · exact absurd (congrArg Prod.fst (Multiset.mem_singleton.mp hb)) ha
    · exact Multiset.mem_add.mpr (.inr hb)

theorem Exactly.clear (hh : Exactly h ({(a, x)} + m)) :
    Exactly (h.put a none (Heap.lt_bound hh.head)) m := by
  refine ⟨hh.toHolds.clear, fun b hb => ?_⟩
  simp only [Heap.put] at hb
  by_cases ha : b.1 = a
  · rw [ha, Function.update_self] at hb
    cases hb
  · rw [Function.update_of_ne ha] at hb
    rcases Multiset.mem_add.mp (hh.only b hb) with hb | hb
    · exact absurd (congrArg Prod.fst (Multiset.mem_singleton.mp hb)) ha
    · exact hb

theorem Exactly.grow (hh : Exactly h m) (x : γ) : Exactly (h.grow x) ({(h.bound, x)} + m) := by
  refine ⟨hh.toHolds.grow x, fun b hb => ?_⟩
  simp only [Heap.grow] at hb
  by_cases ha : b.1 = h.bound
  · rw [ha, Function.update_self] at hb
    refine Multiset.mem_add.mpr (.inl (Multiset.mem_singleton.mpr ?_))
    exact Prod.ext ha (Option.some.inj hb).symm
  · rw [Function.update_of_ne ha] at hb
    exact Multiset.mem_add.mpr (.inr (hh.only b hb))

end Heap

section Sums
variable {γ α : Type} (cells : α → Bindings γ)

theorem sum_concat (owned : List α) (x : α) :
    ((owned ++ [x]).map cells).sum = cells x + (owned.map cells).sum := by
  rw [List.map_append, List.sum_append, List.map_singleton, List.sum_singleton, add_comm]

/-- The bindings of one owner, and those of all others. -/
theorem sum_focus {owned : List α} {i : ℕ} {x : α} (h : owned[i]? = some x) :
    (owned.map cells).sum = cells x + ((owned.eraseIdx i).map cells).sum ∧
      ∀ y, ((owned.set i y).map cells).sum = cells y + ((owned.eraseIdx i).map cells).sum := by
  induction owned generalizing i with
  | nil => cases h
  | cons z owned ih =>
    cases i with
    | zero =>
      cases h
      exact ⟨List.sum_cons, fun y => List.sum_cons⟩
    | succ i =>
      obtain ⟨hcells, hset⟩ := ih h
      refine ⟨?_, fun y => ?_⟩
      · rw [List.eraseIdx_cons_succ, List.map_cons, List.map_cons, List.sum_cons, List.sum_cons,
          hcells]
        abel
      · rw [List.set_cons_succ, List.eraseIdx_cons_succ, List.map_cons, List.map_cons,
          List.sum_cons, List.sum_cons, hset y]
        abel

end Sums

/-- What can be said about the bindings of a heap and stays true through every
    access: that it has them, and that it has no others. -/
class Ledger {γ : Type} (K : Heap γ → Bindings γ → Prop) : Prop where
  holds : ∀ {h m}, K h m → Holds h m
  put : ∀ {h m a x} (hh : K h ({(a, x)} + m)) (y : γ),
    K (h.put a (some y) (Heap.lt_bound (holds hh).head)) ({(a, y)} + m)
  clear : ∀ {h m a x} (hh : K h ({(a, x)} + m)),
    K (h.put a none (Heap.lt_bound (holds hh).head)) m
  grow : ∀ {h m}, K h m → ∀ x : γ, K (h.grow x) ({(h.bound, x)} + m)

instance {γ : Type} : Ledger (Holds (γ := γ)) where
  holds hh := hh
  put := Holds.put
  clear := Holds.clear
  grow := Holds.grow

instance {γ : Type} : Ledger (Exactly (γ := γ)) where
  holds := Exactly.toHolds
  put := Exactly.put
  clear := Exactly.clear
  grow := Exactly.grow

section Programs
variable {γ ε : Type}

/-- Access through a pointer that has no cell is the fault. -/
def load (fault : ε) (a : ℕ) : Mem γ ε γ := fun h =>
  match h.cells a with
  | none => .error fault
  | some x => .ok (x, h)

def store (fault : ε) (a : ℕ) (x : γ) : Mem γ ε Unit := fun h =>
  if ha : a < h.bound then
    match h.cells a with
    | none => .error fault
    | some _ => .ok ((), h.put a (some x) ha)
  else .error fault

def malloc (x : γ) : Mem γ ε ℕ := fun h => .ok (h.bound, h.grow x)

def free (fault : ε) (a : ℕ) : Mem γ ε Unit := fun h =>
  if ha : a < h.bound then
    match h.cells a with
    | none => .error fault
    | some _ => .ok ((), h.put a none ha)
  else .error fault

/-- No list in the heap is longer than this. -/
def heapBound : Mem γ ε ℕ := fun h => .ok (h.bound, h)

def halt {α : Type} (fault : ε) : Mem γ ε α := fun _ => .error fault

/-- Started with the bindings `m`, and whatever else the heap holds, the program
    returns; it leaves bindings in place of `m` that satisfy the postcondition,
    and everything else as it was. -/
def Triple {α : Type} (m : Bindings γ) (prog : Mem γ ε α)
    (post : α → Bindings γ → Prop) : Prop :=
  ∀ ⦃K : Heap γ → Bindings γ → Prop⦄ [Ledger K] (h : Heap γ) (frame : Bindings γ),
    K h (m + frame) → ∃ r h' m', prog h = .ok (r, h') ∧ K h' (m' + frame) ∧ post r m'

variable {α β : Type} {m : Bindings γ} {prog : Mem γ ε α} {post : α → Bindings γ → Prop}

theorem Triple.ret {r : α} (h : post r m) : Triple m (pure r : Mem γ ε α) post :=
  fun _ _ heap _ hh => ⟨r, heap, m, rfl, hh, h⟩

theorem Triple.bind {next : α → Mem γ ε β} {last : β → Bindings γ → Prop}
    (hprog : Triple m prog post) (hnext : ∀ r m', post r m' → Triple m' (next r) last) :
    Triple m (prog >>= next) last := by
  intro K _ h frame hh
  obtain ⟨r, h', m', hrun, hh', hpost⟩ := hprog h frame hh
  obtain ⟨s, h'', m'', hrun', hh'', hlast⟩ := hnext r m' hpost h' frame hh'
  refine ⟨s, h'', m'', ?_, hh'', hlast⟩
  change (prog h >>= fun x => next x.1 x.2) = _
  rw [hrun]
  exact hrun'

theorem Triple.weaken {post' : α → Bindings γ → Prop} (hprog : Triple m prog post)
    (himp : ∀ r m', post r m' → post' r m') : Triple m prog post' := by
  intro K _ h frame hh
  obtain ⟨r, h', m', hrun, hh', hpost⟩ := hprog h frame hh
  exact ⟨r, h', m', hrun, hh', himp r m' hpost⟩

theorem Triple.frame (hprog : Triple m prog post) (k : Bindings γ) :
    Triple (m + k) prog fun r m' => ∃ m₁, post r m₁ ∧ m' = m₁ + k := by
  intro K _ h frame hh
  rw [add_assoc] at hh
  obtain ⟨r, h', m', hrun, hh', hpost⟩ := hprog h (k + frame) hh
  rw [← add_assoc] at hh'
  exact ⟨r, h', m' + k, hrun, hh', m', hpost, rfl⟩

/-- The bindings of a heap have different addresses. -/
theorem Triple.ofNodup (h : (m.map Prod.fst).Nodup → Triple m prog post) : Triple m prog post :=
  fun _ _ heap frame hh => h (Ledger.holds hh).left.nodup heap frame hh

/-- The program returns `r` and leaves `m'` in place of `m`. -/
def Returns {α : Type} (m : Bindings γ) (prog : Mem γ ε α) (r : α)
    (m' : Bindings γ) : Prop :=
  Triple m prog fun s k => s = r ∧ k = m'

variable {r : α} {m' : Bindings γ}

theorem Returns.ret (m : Bindings γ) (r : α) : Returns m (pure r : Mem γ ε α) r m :=
  Triple.ret ⟨rfl, rfl⟩

theorem Returns.then {next : α → Mem γ ε β} {last : β → Bindings γ → Prop}
    (hprog : Returns m prog r m') (hnext : Triple m' (next r) last) :
    Triple m (prog >>= next) last := by
  apply Triple.bind hprog
  rintro s k ⟨rfl, rfl⟩
  exact hnext

theorem Returns.frame (hprog : Returns m prog r m') (k : Bindings γ) :
    Returns (m + k) prog r (m' + k) := by
  apply (Triple.frame hprog k).weaken
  rintro s k' ⟨m₁, ⟨rfl, rfl⟩, rfl⟩
  exact ⟨rfl, rfl⟩

theorem Returns.reorder {k k' : Bindings γ} (hprog : Returns m prog r m') (hm : k = m)
    (hm' : m' = k') : Returns k prog r k' := by
  subst hm hm'
  exact hprog

theorem returns_load {fault : ε} {a : ℕ} {x : γ} (hx : (a, x) ∈ m) :
    Returns m (load fault a) x m := by
  intro K _ h frame hh
  refine ⟨x, h, m, ?_, hh, rfl, rfl⟩
  have hcell : h.cells a = some x := (Ledger.holds hh).left.cells (a, x) hx
  simp only [load, hcell]

theorem returns_store {fault : ε} {a : ℕ} {x : γ} (y : γ) :
    Returns ({(a, x)} + m) (store fault a y) () ({(a, y)} + m) := by
  intro K _ h frame hh
  rw [add_assoc] at hh
  have hcell : h.cells a = some x := (Ledger.holds hh).head
  refine ⟨(), h.put a (some y) (Heap.lt_bound hcell), {(a, y)} + m, ?_, ?_, rfl, rfl⟩
  · simp only [store, hcell]
    rw [dif_pos (Heap.lt_bound hcell)]
  · rw [add_assoc]
    exact Ledger.put hh y

theorem returns_free {fault : ε} {a : ℕ} {x : γ} :
    Returns ({(a, x)} + m) (free fault a) () m := by
  intro K _ h frame hh
  rw [add_assoc] at hh
  have hcell : h.cells a = some x := (Ledger.holds hh).head
  refine ⟨(), h.put a none (Heap.lt_bound hcell), m, ?_, Ledger.clear hh, rfl, rfl⟩
  simp only [free, hcell]
  rw [dif_pos (Heap.lt_bound hcell)]

theorem triple_malloc (x : γ) :
    Triple m (malloc x : Mem γ ε ℕ) fun a m' => m' = {(a, x)} + m := by
  intro K _ h frame hh
  refine ⟨h.bound, h.grow x, {(h.bound, x)} + m, rfl, ?_, rfl⟩
  rw [add_assoc]
  exact Ledger.grow hh x

/-- A loop that is given the bound of the heap can make as many rounds as there
    are bindings. -/
theorem triple_heapBound {next : ℕ → Mem γ ε β} {last : β → Bindings γ → Prop}
    (hnext : ∀ n, m.card ≤ n → Triple m (next n) last) : Triple m (heapBound >>= next) last :=
  fun _ _ h frame hh => hnext h.bound (Ledger.holds hh).left.card_le h frame hh

end Programs

section Reading
variable {γ ε : Type}

/-- In every heap with the bindings `m` the program returns `r` and leaves the heap as
    it is. -/
def Reads {α : Type} (m : Bindings γ) (prog : Mem γ ε α) (r : α) : Prop :=
  ∀ h : Heap γ, Holds h m → prog h = .ok (r, h)

variable {α β : Type} {m : Bindings γ} {prog : Mem γ ε α} {r : α}

theorem Reads.ret (m : Bindings γ) (r : α) : Reads m (pure r : Mem γ ε α) r := fun _ _ => rfl

theorem Reads.then {next : α → Mem γ ε β} {s : β} (hprog : Reads m prog r)
    (hnext : Reads m (next r) s) : Reads m (prog >>= next) s := by
  intro h hh
  change (prog h >>= fun x => next x.1 x.2) = _
  rw [hprog h hh]
  exact hnext h hh

theorem Reads.mono {k : Bindings γ} (hprog : Reads m prog r) (hle : m ≤ k) : Reads k prog r := by
  obtain ⟨rest, rfl⟩ := Multiset.le_iff_exists_add.mp hle
  exact fun h hh => hprog h hh.left

theorem Reads.ofNodup (h : (m.map Prod.fst).Nodup → Reads m prog r) : Reads m prog r :=
  fun heap hh => h hh.nodup heap hh

theorem reads_load {fault : ε} {a : ℕ} {x : γ} (hx : (a, x) ∈ m) :
    Reads m (load fault a) x := by
  intro h hh
  have hcell : h.cells a = some x := hh.cells (a, x) hx
  simp only [load, hcell]

theorem reads_heapBound {next : ℕ → Mem γ ε β} {s : β}
    (hnext : ∀ n, m.card ≤ n → Reads m (next n) s) : Reads m (heapBound >>= next) s :=
  fun h hh => hnext h.bound hh.card_le h hh

end Reading

end Pathcomp.Heaps
