import Pathcomp.Memory
import Pathcomp.Purity

set_option autoImplicit false

/-!
# Attributes and composers with their addresses

A placed attribute is an attribute with the addresses of its cells. Each function
of `att.c` does to the cells of a placed attribute what its pure counterpart does
to the attribute.
-/
namespace Pathcomp.Placement
open Bytes Config Values Attributes Composers Evaluation Heaps
open Links hiding listNext
open Memory (Cell AttCell ComposerCell M)

section Reading
variable {m : Bindings Cell}

theorem returns_valueAt {p : ℕ} {val : Value} (h : (p, Cell.value val) ∈ m) :
    Returns m (Memory.valueAt p) val m :=
  (returns_load h).then (Returns.ret m val)

theorem returns_attAt {p : ℕ} {att : AttCell} (h : (p, Cell.att att) ∈ m) :
    Returns m (Memory.attAt p) att m :=
  (returns_load h).then (Returns.ret m att)

theorem returns_composerAt {p : ℕ} {composer : ComposerCell}
    (h : (p, Cell.composer composer) ∈ m) : Returns m (Memory.composerAt p) composer m :=
  (returns_load h).then (Returns.ret m composer)

end Reading

structure PlacedValue where
  cell : ℕ
  value : Value

structure PlacedAtt where
  cell : ℕ
  name : Text
  alternatives : List (ℕ × PlacedValue)
  current : Option ℕ
  origin : Option Text

def PlacedValue.cells (v : PlacedValue) : Bindings Cell := {(v.cell, .value v.value)}

/-- The node at a position. -/
def pointer {ι : Type} (xs : List (ℕ × ι)) (current : Option ℕ) : Option ℕ :=
  current.bind fun p => xs[p]?.map Prod.fst

def PlacedAtt.attCell (a : PlacedAtt) : AttCell :=
  ⟨a.name, first a.alternatives none, pointer a.alternatives a.current, a.origin⟩

def PlacedAtt.values (a : PlacedAtt) : Bindings Cell :=
  listCells PlacedValue.cell PlacedValue.cells a.alternatives none

def PlacedAtt.cells (a : PlacedAtt) : Bindings Cell := {(a.cell, .att a.attCell)} + a.values

def PlacedAtt.att (a : PlacedAtt) : Att :=
  ⟨a.name, a.alternatives.map fun x => x.2.value, a.current, a.origin⟩

/-- Everything but the cache, with the address. -/
def PlacedValue.erase (v : PlacedValue) : PlacedValue := { v with value := v.value.erase }

def PlacedAtt.erase (a : PlacedAtt) : PlacedAtt :=
  { a with alternatives := a.alternatives.map fun x => (x.1, x.2.erase) }

def PlacedAtt.currentValue (a : PlacedAtt) : Option PlacedValue :=
  a.current.bind fun p => a.alternatives[p]?.map Prod.snd

section Positions
variable {ι : Type} {cell : ι → ℕ} {own : ι → Bindings Cell}

theorem first_eq (xs : List (ℕ × ι)) : first xs none = pointer xs (listFirst xs) := by
  cases xs <;> rfl

theorem pointer_next (xs : List (ℕ × ι)) (p : ℕ) :
    pointer xs (listNext xs p) = xs[p + 1]?.map Prod.fst := by
  unfold pointer listNext
  by_cases hp : p + 1 < xs.length
  · rw [if_pos hp, Option.bind_some]
  · rw [if_neg hp, List.getElem?_eq_none (by omega)]
    rfl

theorem pointer_congr {xs ys : List (ℕ × ι)} (h : xs.map Prod.fst = ys.map Prod.fst)
    (current : Option ℕ) : pointer xs current = pointer ys current := by
  unfold pointer
  congr 1
  funext p
  rw [← List.getElem?_map, h, List.getElem?_map]

theorem pointer_append {xs : List (ℕ × ι)} {p : ℕ} (hp : p < xs.length)
    (ys : List (ℕ × ι)) :
    pointer (xs ++ ys) (some p) = pointer xs (some p) := by
  simp only [pointer, Option.bind_some]
  rw [List.getElem?_append_left hp]

theorem get_mem {xs : List (ℕ × ι)} {p : ℕ} (hp : p < xs.length) :
    (xs[p].1, node (cell xs[p].2) (xs[p + 1]?.map Prod.fst)) ∈ listCells cell own xs none := by
  have hsplit : xs.take p ++ xs[p] :: xs.drop (p + 1) = xs := by
    rw [← List.drop_eq_getElem_cons hp, List.take_append_drop]
  have hnext : first (xs.drop (p + 1)) none = xs[p + 1]?.map Prod.fst := by
    rw [first_eq, ← List.head?_drop]
    cases xs.drop (p + 1) <;> rfl
  have hmem := @node_mem _ ι _ cell own (xs.take p) (xs.drop (p + 1)) xs[p] none
  rwa [hsplit, hnext] at hmem

/-- The nodes of a list are different. -/
theorem nodes_nodup {xs : List (ℕ × ι)} {last : Option ℕ}
    (h : ((listCells cell own xs last).map Prod.fst).Nodup) : (xs.map Prod.fst).Nodup := by
  induction xs with
  | nil => exact List.nodup_nil
  | cons x xs ih =>
    rw [listCells, Multiset.map_add, Multiset.map_add, Multiset.map_singleton,
      Multiset.singleton_add, Multiset.nodup_cons, Multiset.nodup_add] at h
    rw [List.map_cons, List.nodup_cons]
    refine ⟨fun hx => h.1 ?_, ih h.2.2.1⟩
    obtain ⟨y, hy, he⟩ := List.mem_map.mp hx
    obtain ⟨front, back, rfl⟩ := List.append_of_mem hy
    refine Multiset.mem_add.mpr (.inr ?_)
    rw [← he]
    exact Multiset.mem_map_of_mem Prod.fst (node_mem last)

theorem pointer_inj {xs : List (ℕ × ι)} (h : (xs.map Prod.fst).Nodup) {p q : ℕ}
    (hp : p < xs.length) (hq : q < xs.length)
    (he : pointer xs (some p) = pointer xs (some q)) : p = q := by
  simp only [pointer, Option.bind_some, List.getElem?_eq_getElem hp, List.getElem?_eq_getElem hq,
    Option.map_some, Option.some.injEq] at he
  have hlen : (xs.map Prod.fst).length = xs.length := List.length_map _
  exact (@List.Nodup.getElem_inj_iff _ _ h p (by omega) q (by omega)).mp (by simpa using he)

end Positions

theorem triple_valueClone (v : PlacedValue) :
    Triple v.cells (Memory.valueClone v.cell) fun r m' =>
      ∃ w : PlacedValue, w.cell = r ∧ v.value = w.value ∧ m' = w.cells + v.cells := by
  refine (returns_valueAt (Multiset.mem_singleton_self _)).then ?_
  rw [valueClone_eq]
  apply (triple_malloc _).weaken
  rintro r m' rfl
  exact ⟨⟨r, v.value⟩, rfl, rfl, rfl⟩

theorem returns_valueFree (v : PlacedValue) : Returns v.cells (Memory.valueFree v.cell) () 0 :=
  returns_free.reorder (add_zero _).symm rfl

theorem returns_setResult {m : Bindings Cell} (v : PlacedValue) (result : Option Text) :
    Returns (v.cells + m) (Memory.setResult v.cell result) ()
      (PlacedValue.cells { v with value := v.value.setResult result } + m) :=
  (returns_valueAt (show (v.cell, Cell.value v.value) ∈ _ by simp [PlacedValue.cells])).then
    (returns_store _)

section Attributes
variable (a : PlacedAtt)

theorem att_mem : (a.cell, Cell.att a.attCell) ∈ a.cells := by
  simp [PlacedAtt.cells]

theorem returns_attNameEqualTo (name : Text) :
    Returns a.cells (Memory.attNameEqualTo name a.cell) (decide (a.name = name)) a.cells :=
  (returns_attAt (att_mem a)).then (Returns.ret _ _)

def PlacedAtt.rewind : PlacedAtt := { a with current := listFirst a.alternatives }

/-- The position of the current alternative. -/
theorem PlacedAtt.position (h : a.att.Valid) :
    ∃ p, p < a.alternatives.length ∧ a.current = some p := by
  obtain ⟨p, hp, hcurrent⟩ := h
  have hlen : p < a.alternatives.length := by simpa [PlacedAtt.att] using hp
  exact ⟨p, hlen, hcurrent⟩

theorem PlacedAtt.rewind_att : a.rewind.att = attRewind a.att := by
  simp [PlacedAtt.rewind, PlacedAtt.att, attRewind, listFirst]

theorem returns_attRewind : Returns a.cells (Memory.attRewind a.cell) () a.rewind.cells := by
  refine (returns_attAt (att_mem a)).then ?_
  have hcell : a.rewind.attCell = { a.attCell with current := a.attCell.alternatives } := by
    simp only [PlacedAtt.rewind, PlacedAtt.attCell, first_eq]
  rw [← hcell]
  exact returns_store _

def PlacedAtt.next (p : ℕ) : PlacedAtt := { a with current := listNext a.alternatives p }

theorem returns_attNext {p : ℕ} (hp : p < a.alternatives.length) (hcurrent : a.current = some p) :
    Returns a.cells (Memory.attNext a.cell) (listNext a.alternatives p).isSome
      (a.next p).cells := by
  have hpointer : a.attCell.current = some a.alternatives[p].1 := by
    simp [PlacedAtt.attCell, pointer, hcurrent, hp]
  have hnode : (a.alternatives[p].1, node a.alternatives[p].2.cell
      (a.alternatives[p + 1]?.map Prod.fst)) ∈ a.cells :=
    Multiset.mem_add.mpr (.inr (get_mem hp))
  have hnext := pointer_next a.alternatives p
  have hcell : (a.next p).attCell =
      { a.attCell with current := a.alternatives[p + 1]?.map Prod.fst } := by
    rw [← hnext]
    rfl
  have hsome : (a.alternatives[p + 1]?.map Prod.fst).isSome =
      (listNext a.alternatives p).isSome := by
    unfold listNext
    split <;> simp_all
  refine (returns_attAt (att_mem a)).then ?_
  rw [hpointer]
  refine (returns_listNext hnode).then ?_
  rw [← hcell, hsome]
  exact Returns.then (returns_store _) (Returns.ret _ _)

theorem PlacedAtt.next_att {p : ℕ} (hcurrent : a.current = some p) :
    attNext a.att = ((listNext a.alternatives p).isSome, (a.next p).att) := by
  simp [attNext, PlacedAtt.att, PlacedAtt.next, hcurrent, listNext]

def PlacedAtt.replace (n : ℕ) (v : PlacedValue) (origin : Option Text) : PlacedAtt :=
  { a with alternatives := [(n, v)], current := some 0, origin }

theorem PlacedAtt.replace_att (n : ℕ) (v : PlacedValue) (origin : Option Text) :
    (a.replace n v origin).att = attReplaceValue a.att v.value origin := rfl

theorem triple_attReplaceValue (v : PlacedValue) (origin : Option Text) :
    Triple (v.cells + a.cells) (Memory.attReplaceValue a.cell v.cell origin) fun _ m' =>
      ∃ n, m' = (a.replace n v origin).cells := by
  have hvalues := @returns_listForeach _ _ _ PlacedValue.cell PlacedValue.cells (fun _ => 0)
    Memory.valueFree a.alternatives fun x _ => returns_valueFree x.2
  have hcard := @length_le_card _ _ _ PlacedValue.cell PlacedValue.cells a.alternatives none
  have hcard' := @length_le_card Cell _ _ PlacedValue.cell (fun _ => 0) a.alternatives none
  refine (returns_attAt (Multiset.mem_add.mpr (.inr (att_mem a)))).then ?_
  apply triple_heapBound
  intro fuel hfuel
  simp only [PlacedAtt.cells, PlacedAtt.values, Multiset.card_add] at hfuel
  refine (((hvalues (by omega)).frame
    (v.cells + {(a.cell, .att a.attCell)})).reorder ?_ rfl).then ?_
  · rw [PlacedAtt.cells, PlacedAtt.values]
    abel
  apply triple_heapBound
  intro fuel hfuel
  simp only [Multiset.card_add] at hfuel
  refine Returns.then
    ((returns_listFree (by omega)).frame (v.cells + {(a.cell, .att a.attCell)})) ?_
  apply (triple_malloc _).bind
  rintro n m' rfl
  rw [show {(n, node v.cell none)} + (0 + (v.cells + {(a.cell, Cell.att a.attCell)})) =
      {(a.cell, Cell.att a.attCell)} + ({(n, node v.cell none)} + v.cells) by abel]
  apply Triple.weaken (returns_store _)
  rintro _ m' ⟨_, rfl⟩
  refine ⟨n, ?_⟩
  simp only [PlacedAtt.cells, PlacedAtt.values, PlacedAtt.replace, listCells, first, add_zero]
  rfl

def PlacedAtt.add (n : ℕ) (v : PlacedValue) : PlacedAtt :=
  { a with alternatives := a.alternatives ++ [(n, v)] }

theorem triple_attAddValue {p : ℕ} (hp : p < a.alternatives.length)
    (hcurrent : a.current = some p) (v : PlacedValue) :
    Triple (v.cells + a.cells) (Memory.attAddValue a.cell v.cell) fun _ m' =>
      ∃ n, m' = (a.add n v).cells := by
  refine (returns_attAt (Multiset.mem_add.mpr (.inr (att_mem a)))).then ?_
  have hpush := (@triple_listPush _ _ _ PlacedValue.cell PlacedValue.cells a.alternatives v).frame
    {(a.cell, .att a.attCell)}
  rw [show v.cells + a.cells = v.cells + listCells PlacedValue.cell PlacedValue.cells
      a.alternatives none + {(a.cell, .att a.attCell)} by
    rw [PlacedAtt.cells, PlacedAtt.values]
    abel]
  apply hpush.bind
  rintro r m' ⟨m₁, ⟨n, rfl, _⟩, rfl⟩
  have hcell : (a.add n v).attCell = a.attCell := by
    obtain ⟨x, xs, hx⟩ := List.exists_cons_of_length_pos
      (show 0 < a.alternatives.length by omega)
    simp only [PlacedAtt.attCell, PlacedAtt.add, hcurrent]
    rw [pointer_append hp, first_append, hx]
    rfl
  refine Triple.ret ⟨n, ?_⟩
  rw [PlacedAtt.cells, hcell, add_comm]
  rfl

theorem PlacedAtt.add_att (hne : a.alternatives ≠ []) (n : ℕ) (v : PlacedValue) :
    (a.add n v).att = attAddValue a.att v.value := by
  rw [attAddValue_alternatives (by simpa [PlacedAtt.att] using hne)]
  simp [PlacedAtt.add, PlacedAtt.att]

theorem triple_attNew (name : Text) (v : PlacedValue) (origin : Option Text) :
    Triple v.cells (Memory.attNew name v.cell origin) fun r m' =>
      ∃ b : PlacedAtt, b.cell = r ∧ b.att = attNew name v.value origin ∧ m' = b.cells := by
  apply (triple_malloc _).bind
  rintro n m' rfl
  apply (triple_malloc _).weaken
  rintro r m' rfl
  refine ⟨⟨r, name, [(n, v)], some 0, origin⟩, rfl, rfl, ?_⟩
  simp only [PlacedAtt.cells, PlacedAtt.values, listCells, first, add_zero]
  rfl

end Attributes

section Copies
variable {m : Bindings Cell} {xs ys : List (ℕ × PlacedValue)}

theorem forall_copy_values {vs ws : List PlacedValue}
    (h : List.Forall₂ (fun v w => v.value = w.value) vs ws) :
    ws.map PlacedValue.value = vs.map PlacedValue.value := by
  induction h with
  | nil => rfl
  | cons hv _ ih => rw [List.map_cons, List.map_cons, hv, ih]

/-- Both pointers stand at the same position, and they stop at the position of
    the current alternative since the nodes are different. -/
theorem returns_attCloneCurrent (hnodup : (xs.map Prod.fst).Nodup) (hlen : ys.length = xs.length)
    (hxs : ∀ b ∈ listCells PlacedValue.cell PlacedValue.cells xs none, b ∈ m)
    (hys : ∀ b ∈ listCells PlacedValue.cell PlacedValue.cells ys none, b ∈ m)
    {p k fuel : ℕ} (hp : p < xs.length) (hk : k ≤ p) (hfuel : p - k < fuel) :
    Returns m (Memory.attCloneCurrent (pointer xs (some p)) fuel (pointer xs (some k))
      (pointer ys (some k))) (pointer ys (some p)) m := by
  induction fuel generalizing k with
  | zero => omega
  | succ fuel ih =>
    have hkx : k < xs.length := by omega
    have hky : k < ys.length := by omega
    have hx : pointer xs (some k) = some xs[k].1 := by simp [pointer, hkx]
    have hy : pointer ys (some k) = some ys[k].1 := by simp [pointer, hky]
    rw [hx, hy, Memory.attCloneCurrent, ← hx, ← hy]
    by_cases he : k = p
    · subst he
      rw [if_pos rfl]
      exact Returns.ret _ _
    · have hne : ¬ pointer xs (some k) = pointer xs (some p) :=
        fun h => he (pointer_inj hnodup hkx hp h)
      rw [if_neg hne]
      refine (returns_listNext (hys _ (get_mem hky))).then ?_
      refine (returns_listNext (hxs _ (get_mem hkx))).then ?_
      exact ih (by omega) (by omega)

end Copies

/-- The loop of `att_clone` with the copies beside the original. -/
theorem returns_counted (a : PlacedAtt) {p : ℕ} (hp : p < a.alternatives.length)
    (hcurrent : a.current = some p) (hnodes : (a.alternatives.map Prod.fst).Nodup)
    {copies : List (ℕ × PlacedValue)} (hsame : copies.length = a.alternatives.length)
    {m : Bindings Cell}
    (ha : ∀ b ∈ listCells PlacedValue.cell PlacedValue.cells a.alternatives none,
      b ∈ m) (hcopies : ∀ b ∈ listCells PlacedValue.cell PlacedValue.cells copies
        none, b ∈ m)
    {fuel : ℕ} (hfuel : a.alternatives.length ≤ fuel) :
    Returns m (Memory.attCloneCurrent a.attCell.current fuel (first a.alternatives none)
      (first copies none)) (pointer copies (some p)) m := by
  have hfirst : first a.alternatives none = pointer a.alternatives (some 0) := by
    rw [first_eq, listFirst_of_ne (List.ne_nil_of_length_pos (by omega))]
  have hfirst' : first copies none = pointer copies (some 0) := by
    rw [first_eq, listFirst_of_ne (List.ne_nil_of_length_pos (by omega))]
  have hpointer : a.attCell.current = pointer a.alternatives (some p) := by
    rw [PlacedAtt.attCell, hcurrent]
  rw [hfirst, hfirst', hpointer]
  exact returns_attCloneCurrent hnodes hsame ha hcopies hp (by omega) (by omega)

/-- A copy has the same current position and shares nothing with its original. -/
theorem triple_attClone (a : PlacedAtt) (hvalid : a.att.Valid) :
    Triple a.cells (Memory.attClone a.cell) fun r m' =>
      ∃ b : PlacedAtt, b.cell = r ∧ b.att = a.att ∧ m' = b.cells + a.cells := by
  obtain ⟨p, hp, hcurrent⟩ := a.position hvalid
  have hcard := @length_le_card _ _ _ PlacedValue.cell PlacedValue.cells a.alternatives none
  have htransform := @triple_listTransform _ _ _ PlacedValue.cell PlacedValue.cells _
    PlacedValue.cell
    PlacedValue.cells (fun v w => v.value = w.value) Memory.valueClone a.alternatives
    (fun x _ => triple_valueClone x.2) []
  apply Triple.ofNodup
  intro hnodup
  have hnodes : (a.alternatives.map Prod.fst).Nodup := by
    rw [PlacedAtt.cells, Multiset.map_add, Multiset.nodup_add] at hnodup
    exact nodes_nodup hnodup.2.1
  refine (returns_attAt (att_mem a)).then ?_
  apply triple_heapBound
  intro fuel hfuel
  simp only [PlacedAtt.cells, PlacedAtt.values, Multiset.card_add] at hfuel
  have hcopies := (htransform (show _ ≤ fuel by omega)).frame {(a.cell, .att a.attCell)}
  rw [show a.cells = listCells PlacedValue.cell PlacedValue.cells a.alternatives none +
      listCells PlacedValue.cell PlacedValue.cells [] none + {(a.cell, .att a.attCell)} by
    rw [PlacedAtt.cells, PlacedAtt.values, listCells, add_zero, add_comm]]
  apply hcopies.bind
  rintro r m' ⟨m₁, ⟨copies, hcopy, rfl, rfl⟩, rfl⟩
  rw [List.nil_append]
  have hsame : copies.length = a.alternatives.length := by
    simpa using hcopy.length_eq.symm
  have hvalues := forall_copy_values hcopy
  rw [List.map_map, List.map_map] at hvalues
  apply triple_heapBound
  intro fuel hfuel
  simp only [Multiset.card_add] at hfuel
  have hloop := returns_counted a hp hcurrent hnodes hsame (fun b hb => show b ∈ listCells
      PlacedValue.cell PlacedValue.cells a.alternatives none + listCells PlacedValue.cell
      PlacedValue.cells copies none + {(a.cell, .att a.attCell)} by simp [hb])
    (fun b hb => by simp [hb]) (show _ ≤ fuel by omega)
  refine hloop.then ?_
  apply (triple_malloc _).weaken
  rintro r m' rfl
  refine ⟨⟨r, a.name, copies, some p, a.origin⟩, rfl, ?_, ?_⟩
  · simp only [PlacedAtt.att, hcurrent, Att.mk.injEq, true_and, and_true]
    exact hvalues
  · simp only [PlacedAtt.cells, PlacedAtt.values, PlacedAtt.attCell]
    abel

end Pathcomp.Placement
