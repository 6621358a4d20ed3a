import Pathcomp.Placement
import Pathcomp.Safety

set_option autoImplicit false

/-!
# Composers in memory behave like composers

Every function of `pathcomp.c` does to the cells of a placed composer what its
pure counterpart does to the composer, with the same result.
-/
namespace Pathcomp.PlacedComposers
open Bytes Buffer Config Values Attributes Composers Evaluation Purity Wheels Reachability
open Heaps Links Placement
open Memory (Cell AttCell ComposerCell M)

structure PlacedComposer where
  cell : ℕ
  name : Text
  attributes : List (ℕ × PlacedAtt)
  metatable : Text
  done : Bool
  started : Bool

def PlacedComposer.composerCell (c : PlacedComposer) : ComposerCell :=
  ⟨c.name, first c.attributes none, c.metatable, c.done, c.started⟩

def PlacedComposer.atts (c : PlacedComposer) : Bindings Cell :=
  listCells PlacedAtt.cell PlacedAtt.cells c.attributes none

def PlacedComposer.cells (c : PlacedComposer) : Bindings Cell :=
  {(c.cell, .composer c.composerCell)} + c.atts

def PlacedComposer.composer (c : PlacedComposer) : Composer :=
  ⟨c.name, c.attributes.map fun x => x.2.att, c.metatable, c.done, c.started⟩

def PlacedComposer.find (c : PlacedComposer) (name : Text) : Option (ℕ × PlacedAtt) :=
  c.attributes.find? fun x => decide (x.2.name = name)

/-- What evaluation leaves as it is: everything but the caches, with all addresses. -/
def PlacedComposer.erase (c : PlacedComposer) : PlacedComposer :=
  { c with attributes := c.attributes.map fun x => (x.1, x.2.erase) }

/-- The cell of the current value of an attribute. -/
def PlacedComposer.currentAt (c : PlacedComposer) (name : Text) : Option PlacedValue :=
  (c.find name).bind fun x => x.2.currentValue

/-- The program does to the composer at an address what the function does, with
    the same result. -/
def Refines {α : Type} (c : PlacedComposer) (prog : M α) (result : α × Composer) : Prop :=
  Triple c.cells prog fun r m' => ∃ d : PlacedComposer,
    d.cell = c.cell ∧ m' = d.cells ∧ r = result.1 ∧ d.composer = result.2

/-- The program does to the composer at an address what the function does, and stops
    where the function stops. -/
def Mirrors {α : Type} (c : PlacedComposer) (prog : M α) : Except Halt (α × Composer) → Prop
  | .ok result => Refines c prog result
  | .error halt => ∀ h frame, Holds h (c.cells + frame) → prog h = .error halt

theorem Refines.mirrors {α β : Type} {c : PlacedComposer} {prog : M α} {r : α} {d : Composer}
    {next : α → M β} {result : Except Halt (β × Composer)} (hprog : Refines c prog (r, d))
    (hnext : ∀ x : PlacedComposer, x.cell = c.cell → x.composer = d →
      Mirrors x (next r) result) :
    Mirrors c (prog >>= next) result := by
  cases result with
  | ok result =>
    apply Triple.bind hprog
    rintro _ m' ⟨x, hcell, rfl, rfl, hx⟩
    apply Triple.weaken (hnext x hcell hx)
    rintro s m' ⟨y, hy, hrest⟩
    exact ⟨y, hy.trans hcell, hrest⟩
  | error halt =>
    intro h frame hh
    obtain ⟨_, h', _, hrun, hh', x, hcell, rfl, rfl, hx⟩ := hprog h frame hh
    change (prog h >>= fun y => next y.1 y.2) = _
    rw [hrun]
    exact hnext x hcell hx h' frame hh'

section Store
variable (c : PlacedComposer)

theorem composer_mem : (c.cell, Cell.composer c.composerCell) ∈ c.cells := by
  simp [PlacedComposer.cells]

theorem atts_length_le : c.attributes.length ≤ c.cells.card := by
  have hcard := @length_le_card _ _ _ PlacedAtt.cell PlacedAtt.cells c.attributes none
  simp only [PlacedComposer.cells, PlacedComposer.atts, Multiset.card_add]
  omega

theorem retrieve_find (name : Text) :
    pathcompRetrieveAtt c.composer name = (c.find name).map fun x => x.2.att := by
  rw [pathcompRetrieveAtt, PlacedComposer.composer, List.find?_map]
  rfl

theorem returns_retrieveAtt (name : Text) :
    Returns c.cells (Memory.pathcompRetrieveAtt c.cell name) ((c.find name).map fun x => x.2.cell)
      c.cells := by
  have hfind := @returns_listFindFirst _ _ _ PlacedAtt.cell PlacedAtt.cells
    (Memory.attNameEqualTo name) _ (fun a => returns_attNameEqualTo a name) c.attributes
  refine (returns_composerAt (composer_mem c)).then ?_
  apply triple_heapBound
  intro fuel hfuel
  have hlen := atts_length_le c
  refine (((@hfind fuel (by omega)).frame {(c.cell, .composer c.composerCell)}).reorder
    (add_comm _ _) (add_comm _ _)).then ?_
  change Triple c.cells _ _
  cases hx : c.find name with
  | none =>
    simp only [PlacedComposer.find] at hx
    rw [hx]
    exact Returns.ret _ _
  | some x =>
    simp only [PlacedComposer.find] at hx
    rw [hx]
    obtain ⟨_, front, back, hsplit, _⟩ := List.find?_eq_some_iff_append.mp hx
    have hnode : (x.1, node x.2.cell (first back none)) ∈ c.cells := by
      rw [PlacedComposer.cells, PlacedComposer.atts, hsplit]
      exact Multiset.mem_add.mpr (.inr (node_mem none))
    exact (returns_listEl hnode).then (Returns.ret _ _)

/-- The composer with another attribute at a node. -/
def PlacedComposer.exchange (front : List (ℕ × PlacedAtt)) (n : ℕ) (b : PlacedAtt)
    (back : List (ℕ × PlacedAtt)) : PlacedComposer :=
  { c with attributes := front ++ (n, b) :: back }

theorem focus {front back : List (ℕ × PlacedAtt)} {x : ℕ × PlacedAtt}
    (h : c.attributes = front ++ x :: back) :
    ∃ rest, c.cells = x.2.cells + rest ∧
      ∀ b : PlacedAtt, b.cell = x.2.cell →
        (c.exchange front x.1 b back).cells = b.cells + rest := by
  refine ⟨{(c.cell, .composer c.composerCell)} + (listCells PlacedAtt.cell PlacedAtt.cells front
    (some x.1) + {(x.1, node x.2.cell (first back none))} +
    listCells PlacedAtt.cell PlacedAtt.cells back none), ?_, ?_⟩
  · rw [PlacedComposer.cells, PlacedComposer.atts, h, listCells_split]
    abel
  · intro b hb
    have hcell : (c.exchange front x.1 b back).composerCell = c.composerCell := by
      have hfirst : first (front ++ (x.1, b) :: back) none = first (front ++ x :: back) none :=
        first_congr (by simp) none
      simp only [PlacedComposer.composerCell, PlacedComposer.exchange, h, hfirst]
    rw [PlacedComposer.cells, hcell, PlacedComposer.atts, PlacedComposer.exchange, listCells_split,
      ← hb]
    simp only
    abel

theorem modifyFirst_split {α : Type} {p : α → Bool} {front back : List α} {x : α}
    (hx : p x = true) (hfront : ∀ y ∈ front, p y = false) (f : α → α) :
    modifyFirst p f (front ++ x :: back) = front ++ f x :: back := by
  induction front with
  | nil => simp [modifyFirst, hx]
  | cons y front ih =>
    have hy := hfront y (by simp)
    simp only [List.cons_append, modifyFirst, hy, Bool.false_eq_true, ↓reduceIte]
    rw [ih fun z hz => hfront z (by simp [hz])]

/-- The attribute that is found, and what an update through it does. -/
theorem find_split {name : Text} {x : ℕ × PlacedAtt} (h : c.find name = some x) :
    ∃ front back, c.attributes = front ++ x :: back ∧
      ∀ (f : Att → Att) (b : PlacedAtt), b.att = f x.2.att →
        c.composer.onAtt name f = (c.exchange front x.1 b back).composer := by
  obtain ⟨hname, front, back, hsplit, hfront⟩ := List.find?_eq_some_iff_append.mp h
  refine ⟨front, back, hsplit, fun f b hb => ?_⟩
  have hx : attNameEqualTo name x.2.att = true := hname
  have hother : ∀ att ∈ front.map fun y => y.2.att, attNameEqualTo name att = false := by
    intro att hatt
    obtain ⟨y, hy, rfl⟩ := List.mem_map.mp hatt
    have hne : ¬ y.2.name = name := by simpa using hfront y hy
    exact decide_eq_false hne
  simp only [Composer.onAtt, PlacedComposer.composer, PlacedComposer.exchange, hsplit,
    List.map_append, List.map_cons, modifyFirst_split hx hother, hb]

theorem inherited_eq (d : Composer) (origin : Option Text) :
    inherited d origin = Memory.inheritedBy d.name origin := by
  cases origin <;> rfl

theorem triple_pushAtt (name : Text) (v : PlacedValue) (origin : Option Text) :
    Triple (v.cells + c.cells) (do
      let new ← Memory.attNew name v.cell origin
      let d ← Memory.composerAt c.cell
      let attributes ← listPush d.attributes new
      store .nullPointer c.cell (.composer { d with attributes := some attributes }))
      fun _ m' => ∃ d : PlacedComposer, d.cell = c.cell ∧ m' = d.cells ∧
        d.composer = { c.composer with
          attributes := listPush c.composer.attributes (attNew name v.value origin) } := by
  apply ((triple_attNew name v origin).frame c.cells).bind
  rintro r m' ⟨m₁, ⟨b, rfl, hb, rfl⟩, rfl⟩
  refine (returns_composerAt (Multiset.mem_add.mpr (.inr (composer_mem c)))).then ?_
  have hpush := (@triple_listPush _ _ _ PlacedAtt.cell PlacedAtt.cells c.attributes b).frame
    {(c.cell, .composer c.composerCell)}
  rw [show b.cells + c.cells =
    b.cells + listCells PlacedAtt.cell PlacedAtt.cells c.attributes none +
      {(c.cell, .composer c.composerCell)} by
    rw [PlacedComposer.cells, PlacedComposer.atts]
    abel]
  apply hpush.bind
  rintro r m' ⟨m₁, ⟨n, rfl, hfirst⟩, rfl⟩
  rw [add_comm, ← hfirst]
  apply Triple.weaken (returns_store _)
  rintro _ m' ⟨_, rfl⟩
  refine ⟨{ c with attributes := c.attributes ++ [(n, b)] }, rfl, rfl, ?_⟩
  simp [PlacedComposer.composer, Attributes.listPush, hb]

theorem triple_updateAtt {name : Text} {x : ℕ × PlacedAtt} (h : c.find name = some x)
    (f : Att → Att) {v : PlacedValue} {prog : M Unit}
    (hprog : Triple (v.cells + x.2.cells) prog fun _ m' =>
      ∃ b : PlacedAtt, b.cell = x.2.cell ∧ b.att = f x.2.att ∧ m' = b.cells) :
    Triple (v.cells + c.cells) prog fun _ m' => ∃ d : PlacedComposer,
      d.cell = c.cell ∧ m' = d.cells ∧ d.composer = c.composer.onAtt name f := by
  obtain ⟨front, back, hsplit, hupdate⟩ := find_split c h
  obtain ⟨rest, hcells, hexchange⟩ := focus c hsplit
  rw [hcells, ← add_assoc]
  apply (hprog.frame rest).weaken
  rintro _ m' ⟨m₁, ⟨b, hcell, hatt, rfl⟩, rfl⟩
  exact ⟨c.exchange front x.1 b back, rfl, (hexchange b hcell).symm, (hupdate f b hatt).symm⟩

end Store

theorem resolved_ne_addIf (action : Action) (old new : Bool) :
    (if action = .addIf then resolveAddIf old new else action) ≠ .addIf := by
  split
  · rcases resolveAddIf_cases old new with h | h | h <;> simp [h]
  · assumption

theorem triple_addOrReplace (c : PlacedComposer) (hvalid : AllValid c.composer.attributes)
    (name : Text) (v : PlacedValue) (origin : Option Text) (action : Action) :
    Triple (v.cells + c.cells) (Memory.pathcompAddOrReplace c.cell name v.cell origin action)
      fun _ m' => ∃ d : PlacedComposer, d.cell = c.cell ∧ m' = d.cells ∧
        pathcompAddOrReplace c.composer name v.value origin action = .ok d.composer := by
  have hretrieve :=
    ((returns_retrieveAtt c name).frame v.cells).reorder (add_comm _ _) (add_comm _ _)
  refine hretrieve.then ?_
  have hretrieve := retrieve_find c name
  cases hx : c.find name with
  | none =>
    rw [hx] at hretrieve
    apply (triple_pushAtt c name v origin).weaken
    rintro _ m' ⟨d, hcell, rfl, hd⟩
    refine ⟨d, hcell, rfl, ?_⟩
    simp only [pathcompAddOrReplace, hretrieve, Option.map_none, hd]
  | some x =>
    rw [hx] at hretrieve
    obtain ⟨front, back, hsplit, _⟩ := find_split c hx
    have hatt : (x.2.cell, Cell.att x.2.attCell) ∈ c.cells := by
      obtain ⟨rest, hcells, _⟩ := focus c hsplit
      rw [hcells]
      exact Multiset.mem_add.mpr (.inl (att_mem x.2))
    obtain ⟨p, hp, hcurrent⟩ :=
      x.2.position (hvalid _ (by simp [PlacedComposer.composer, hsplit]))
    refine (returns_attAt (Multiset.mem_add.mpr (.inr hatt))).then ?_
    refine (returns_composerAt (Multiset.mem_add.mpr (.inr (composer_mem c)))).then ?_
    simp only [pathcompAddOrReplace, hretrieve, Option.map_some, inherited_eq]
    have hresolve : (if action = .addIf then resolveAddIf
          (Memory.inheritedBy c.composerCell.name x.2.attCell.origin)
          (Memory.inheritedBy c.composerCell.name origin) else action) =
        if action = .addIf then resolveAddIf
          (Memory.inheritedBy c.composer.name (attGetOrigin x.2.att))
          (Memory.inheritedBy c.composer.name origin) else action := rfl
    rw [hresolve]
    have hresolved := resolved_ne_addIf action
      (Memory.inheritedBy c.composer.name (attGetOrigin x.2.att))
      (Memory.inheritedBy c.composer.name origin)
    generalize (if action = .addIf then resolveAddIf
      (Memory.inheritedBy c.composer.name (attGetOrigin x.2.att))
      (Memory.inheritedBy c.composer.name origin) else action) = resolved at hresolved ⊢
    cases resolved with
    | replace =>
      have hreplace := triple_attReplaceValue x.2 v origin
      refine (triple_updateAtt c hx (fun att => attReplaceValue att v.value origin)
        (hreplace.weaken ?_)).weaken ?_
      · rintro _ m' ⟨n, rfl⟩
        exact ⟨x.2.replace n v origin, rfl, PlacedAtt.replace_att x.2 n v origin, rfl⟩
      · rintro _ m' ⟨d, hcell, rfl, hd⟩
        exact ⟨d, hcell, rfl, by rw [hd]⟩
    | add =>
      have hadd := triple_attAddValue x.2 hp hcurrent v
      refine (triple_updateAtt c hx (fun att => attAddValue att v.value)
        (hadd.weaken ?_)).weaken ?_
      · rintro _ m' ⟨n, rfl⟩
        exact ⟨x.2.add n v, rfl,
          PlacedAtt.add_att x.2 (List.ne_nil_of_length_pos (by omega)) n v, rfl⟩
      · rintro _ m' ⟨d, hcell, rfl, hd⟩
        exact ⟨d, hcell, rfl, by rw [hd]⟩
    | none =>
      apply ((returns_valueFree v).frame c.cells).weaken
      rintro _ m' ⟨_, rfl⟩
      exact ⟨c, rfl, zero_add _, rfl⟩
    | addIf => exact absurd rfl hresolved

theorem triple_update (c : PlacedComposer) (hvalid : AllValid c.composer.attributes) (name : Text)
    (value : Value) (origin : Option Text) (action : Action) :
    Triple c.cells (do
      Memory.pathcompAddOrReplace c.cell name (← Memory.valueNew value) origin action)
      fun _ m' => ∃ d : PlacedComposer, d.cell = c.cell ∧ m' = d.cells ∧
        pathcompAddOrReplace c.composer name value origin action = .ok d.composer := by
  apply (triple_malloc _).bind
  rintro n m' rfl
  exact triple_addOrReplace c hvalid name ⟨n, value⟩ origin action

theorem refines_update {c : PlacedComposer} (hvalid : AllValid c.composer.attributes) {name : Text}
    {value : Value} {origin : Option Text} {action : Action} {d : Composer}
    (h : pathcompAddOrReplace c.composer name value origin action = .ok d) :
    Refines c (do Memory.pathcompAddOrReplace c.cell name (← Memory.valueNew value) origin action)
      ((), d) := by
  apply (triple_update c hvalid name value origin action).weaken
  rintro _ m' ⟨e, hcell, rfl, he⟩
  rw [h] at he
  cases he
  exact ⟨e, hcell, rfl, rfl, rfl⟩

theorem refines_done (c : PlacedComposer) :
    Refines c (Memory.pathcompDone c.cell) (pathcompDone c.composer, c.composer) :=
  (returns_composerAt (composer_mem c)).then (Triple.ret ⟨c, rfl, rfl, rfl, rfl⟩)

def PlacedComposer.rewind (c : PlacedComposer) : PlacedComposer :=
  { c with
    attributes := c.attributes.map fun x => (x.1, x.2.rewind)
    done := false
    started := false }

theorem refines_rewind (c : PlacedComposer) :
    Refines c (Memory.pathcompRewind c.cell) ((), pathcompRewind c.composer) := by
  have hloop := @returns_listForeach _ _ _ PlacedAtt.cell PlacedAtt.cells (fun a => a.rewind.cells)
    Memory.attRewind c.attributes fun x _ => returns_attRewind x.2
  have hlen := atts_length_le c
  refine (returns_composerAt (composer_mem c)).then ?_
  apply triple_heapBound
  intro fuel hfuel
  refine (((@hloop fuel (by omega)).frame {(c.cell, .composer c.composerCell)}).reorder
    (add_comm _ _) (add_comm _ _)).then ?_
  apply Triple.weaken (returns_store _)
  rintro _ m' ⟨_, rfl⟩
  refine ⟨c.rewind, rfl, ?_, rfl, ?_⟩
  · have hatts := @listCells_congr _ _ _ PlacedAtt.cell _ PlacedAtt.cell PlacedAtt.cells
      PlacedAtt.rewind (fun _ => rfl) c.attributes none
    have hfirst : first (c.attributes.map fun x => (x.1, x.2.rewind)) none =
        first c.attributes none := first_congr (by simp) none
    simp only [PlacedComposer.cells, PlacedComposer.atts, PlacedComposer.composerCell,
      PlacedComposer.rewind, hatts, hfirst]
  · simp [PlacedComposer.composer, PlacedComposer.rewind, pathcompRewind, PlacedAtt.rewind_att]

theorem nextLoop_cons (att : Att) (atts : List Att) :
    nextLoop (att :: atts) = if (attNext att).1 then (true, (attNext att).2 :: atts)
      else ((nextLoop atts).1, attRewind (attNext att).2 :: (nextLoop atts).2) := rfl

/-- The loop of `pathcomp_next` from some attribute on. -/
theorem triple_nextLoop {xs : List (ℕ × PlacedAtt)} (hvalid : AllValid (xs.map fun x => x.2.att))
    {fuel : ℕ} (hfuel : xs.length ≤ fuel) :
    Triple (listCells PlacedAtt.cell PlacedAtt.cells xs none)
      (Memory.nextLoop fuel (first xs none)) fun r m' => ∃ ys : List (ℕ × PlacedAtt),
        m' = listCells PlacedAtt.cell PlacedAtt.cells ys none ∧
        ys.map Prod.fst = xs.map Prod.fst ∧
        nextLoop (xs.map fun x => x.2.att) = (r, ys.map fun y => y.2.att) := by
  induction xs generalizing fuel with
  | nil =>
    have hret : Triple (listCells PlacedAtt.cell PlacedAtt.cells [] none) (pure false : M Bool)
        fun r m' => ∃ ys : List (ℕ × PlacedAtt),
          m' = listCells PlacedAtt.cell PlacedAtt.cells ys none ∧
          ys.map Prod.fst = ([] : List (ℕ × PlacedAtt)).map Prod.fst ∧
          nextLoop (([] : List (ℕ × PlacedAtt)).map fun x => x.2.att) =
            (r, ys.map fun y => y.2.att) := Triple.ret ⟨[], rfl, rfl, rfl⟩
    cases fuel <;> exact hret
  | cons x xs ih =>
    obtain ⟨n, rfl⟩ : ∃ n, fuel = n + 1 := ⟨fuel - 1, by simp at hfuel; omega⟩
    obtain ⟨p, hp, hcurrent⟩ := x.2.position hvalid.head
    have hnext := (returns_attNext x.2 hp hcurrent).frame
      ({(x.1, node x.2.cell (first xs none))} + listCells PlacedAtt.cell PlacedAtt.cells xs none)
    refine (returns_listEl head_mem).then ?_
    refine (hnext.reorder (by simp only [listCells]; abel) rfl).then ?_
    have hpure : nextLoop ((x :: xs).map fun y => y.2.att) =
        if (listNext x.2.alternatives p).isSome then
          (true, (x.2.next p).att :: xs.map fun y => y.2.att)
        else ((nextLoop (xs.map fun y => y.2.att)).1,
          attRewind (x.2.next p).att :: (nextLoop (xs.map fun y => y.2.att)).2) := by
      rw [List.map_cons, nextLoop_cons, x.2.next_att hcurrent]
    rw [hpure]
    cases hadvanced : (listNext x.2.alternatives p).isSome with
    | true =>
      refine Triple.ret ⟨(x.1, x.2.next p) :: xs, ?_, rfl, rfl⟩
      simp only [listCells]
      rw [show (x.2.next p).cell = x.2.cell from rfl]
      abel
    | false =>
      have hrewind := (returns_attRewind (x.2.next p)).frame
        ({(x.1, node x.2.cell (first xs none))} + listCells PlacedAtt.cell PlacedAtt.cells xs none)
      refine (returns_listEl (show (x.1, node x.2.cell (first xs none)) ∈ _ by simp)).then ?_
      refine hrewind.then ?_
      refine (returns_listNext (show (x.1, node x.2.cell (first xs none)) ∈ _ by simp)).then ?_
      have hrest := (@ih hvalid.tail n (by simpa using hfuel)).frame
        ({(x.1, node x.2.cell (first xs none))} + (x.2.next p).rewind.cells)
      rw [show (x.2.next p).rewind.cells + ({(x.1, node x.2.cell (first xs none))} +
          listCells PlacedAtt.cell PlacedAtt.cells xs none) =
        listCells PlacedAtt.cell PlacedAtt.cells xs none +
          ({(x.1, node x.2.cell (first xs none))} + (x.2.next p).rewind.cells) by abel]
      apply hrest.weaken
      rintro r m' ⟨m₁, ⟨ys, rfl, hnodes, hys⟩, rfl⟩
      refine ⟨(x.1, (x.2.next p).rewind) :: ys, ?_, ?_, ?_⟩
      · simp only [listCells]
        rw [first_congr hnodes, show (x.2.next p).rewind.cell = x.2.cell from rfl]
        abel
      · rw [List.map_cons, List.map_cons, hnodes]
      · simp [hys, PlacedAtt.rewind_att]

theorem refines_next (c : PlacedComposer) (hvalid : AllValid c.composer.attributes) :
    Refines c (Memory.pathcompNext c.cell) (pathcompNext c.composer) := by
  have hlen := atts_length_le c
  refine (returns_composerAt (composer_mem c)).then ?_
  rw [show c.composerCell.done = c.composer.done from rfl, pathcompNext]
  cases hdone : c.composer.done with
  | true => exact Triple.ret ⟨c, rfl, rfl, rfl, rfl⟩
  | false =>
    simp only [Bool.false_eq_true, ↓reduceIte]
    apply triple_heapBound
    intro fuel hfuel
    have hloop := (triple_nextLoop hvalid (show _ ≤ fuel by omega)).frame
      {(c.cell, .composer c.composerCell)}
    rw [PlacedComposer.cells, add_comm]
    apply hloop.bind
    rintro r m' ⟨m₁, ⟨ys, rfl, hnodes, hys⟩, rfl⟩
    have hpure : nextLoop c.composer.attributes = (r, ys.map fun y => y.2.att) := hys
    simp only [hpure]
    have hcell : first ys none = first c.attributes none := first_congr hnodes none
    cases r with
    | true =>
      have hsame : c.done = false := hdone
      refine Triple.ret ⟨{ c with attributes := ys }, rfl, ?_, rfl, ?_⟩
      · simp only [PlacedComposer.cells, PlacedComposer.atts, PlacedComposer.composerCell, hcell,
          add_comm]
      · simp [PlacedComposer.composer, hsame]
    | false =>
      simp only [Bool.false_eq_true, ↓reduceIte]
      rw [add_comm]
      refine Returns.then (returns_store _) ?_
      refine Triple.ret ⟨{ c with attributes := ys, done := true }, rfl, ?_, rfl, rfl⟩
      simp only [PlacedComposer.cells, PlacedComposer.atts, PlacedComposer.composerCell, hcell]

theorem forall_copy_atts {as bs : List PlacedAtt}
    (h : List.Forall₂ (fun a b => b.att = a.att) as bs) :
    bs.map PlacedAtt.att = as.map PlacedAtt.att := by
  induction h with
  | nil => rfl
  | cons hab _ ih => rw [List.map_cons, List.map_cons, hab, ih]

/-- The clone has its own cells beside those of the original. -/
theorem triple_clone (c : PlacedComposer) (hvalid : AllValid c.composer.attributes) :
    Triple c.cells (Memory.pathcompClone c.cell) fun r m' => ∃ d : PlacedComposer,
      d.cell = r ∧ d.composer = c.composer ∧ m' = d.cells + c.cells := by
  have hlen := atts_length_le c
  have htransform := @triple_listTransform _ _ _ PlacedAtt.cell PlacedAtt.cells _ PlacedAtt.cell
    PlacedAtt.cells (fun a b => b.att = a.att) Memory.attClone c.attributes
    (fun x hx => triple_attClone x.2 (hvalid _ (List.mem_map.mpr ⟨x, hx, rfl⟩))) []
  refine (returns_composerAt (composer_mem c)).then ?_
  apply triple_heapBound
  intro fuel hfuel
  have hcopies := (htransform (show _ ≤ fuel by omega)).frame {(c.cell, .composer c.composerCell)}
  rw [show c.cells = listCells PlacedAtt.cell PlacedAtt.cells c.attributes none +
      listCells PlacedAtt.cell PlacedAtt.cells [] none + {(c.cell, .composer c.composerCell)} by
    rw [PlacedComposer.cells, PlacedComposer.atts, listCells, add_zero, add_comm]]
  apply hcopies.bind
  rintro r m' ⟨m₁, ⟨copies, hcopy, rfl, rfl⟩, rfl⟩
  rw [List.nil_append]
  apply (triple_malloc _).weaken
  rintro r m' rfl
  refine ⟨{ c with cell := r, attributes := copies }, rfl, ?_, ?_⟩
  · have hatts := forall_copy_atts hcopy
    rw [List.map_map, List.map_map] at hatts
    simp only [PlacedComposer.composer, Composer.mk.injEq, true_and, and_true]
    exact hatts
  · simp only [PlacedComposer.cells, PlacedComposer.atts, PlacedComposer.composerCell]
    abel

/-- On every composer at the address, the program does what the function does. -/
structure Builds (a : ℕ) (prog : M Unit) (build : Composer → Except Halt Composer) : Prop where
  keeps : ∀ c d, Representation c → build c = .ok d → Representation d
  mirrors : ∀ c : PlacedComposer, c.cell = a → Representation c.composer →
    Mirrors c prog ((build c.composer).map fun d => ((), d))

theorem Builds.ret (a : ℕ) : Builds a (pure ()) .ok where
  keeps := by
    intro c d hr h
    cases h
    exact hr
  mirrors := fun c _ _ => Triple.ret ⟨c, rfl, rfl, rfl, rfl⟩

theorem Builds.then {a : ℕ} {prog next : M Unit} {build then' : Composer → Except Halt Composer}
    (hprog : Builds a prog build) (hnext : Builds a next then') :
    Builds a (do prog; next) fun c => build c >>= then' where
  keeps := by
    intro c d hr h
    cases he : build c with
    | error halt =>
      rw [he] at h
      cases h
    | ok e =>
      rw [he] at h
      exact hnext.keeps e d (hprog.keeps c e hr he) h
  mirrors := by
    intro c hcell hr
    have hfirst := hprog.mirrors c hcell hr
    cases he : build c.composer with
    | error halt =>
      rw [he] at hfirst
      intro h frame hh
      change (prog h >>= fun y => next y.2) = _
      rw [hfirst h frame hh]
      rfl
    | ok e =>
      rw [he] at hfirst
      refine Refines.mirrors hfirst fun x hx hxe => ?_
      subst hxe
      exact hnext.mirrors x (hx.trans hcell) (hprog.keeps _ _ hr he)

theorem builds_update {a : ℕ} (name : Text) (value : Value) (origin : Option Text)
    (action : Action) {next : M Unit} {then' : Composer → Except Halt Composer}
    (hnext : Builds a next then') :
    Builds a (do
      Memory.pathcompAddOrReplace a name (← Memory.valueNew value) origin action
      next) fun c => pathcompAddOrReplace c name value origin action >>= then' := by
  have hupdate : Builds a
      (do Memory.pathcompAddOrReplace a name (← Memory.valueNew value) origin action)
      (pathcompAddOrReplace · name value origin action) := by
    refine ⟨fun c d hr h => addOrReplace_representation hr h, ?_⟩
    rintro c rfl hr
    obtain ⟨d, hd⟩ := addOrReplace_ok c.composer name value origin action
    rw [hd]
    exact refines_update hr.atts hd
  have hboth := hupdate.then hnext
  rwa [bind_assoc] at hboth

/-- The entries of a section are added in turn. -/
theorem builds_entries {a : ℕ} {addAtts : Text → M Unit}
    {recurse : Composer → Text → Except Halt Composer}
    (hadd : ∀ name, Builds a (addAtts name) (recurse · name)) (sectionName : Text)
    (entries : List CfKv) :
    Builds a (Memory.pathcompAddAttsFromEntries addAtts sectionName a entries)
      (pathcompAddAttsFromEntries recurse sectionName · entries) := by
  induction entries with
  | nil => exact Builds.ret a
  | cons kv entries ih =>
    have hupdate := @builds_update a kv.key (valueNewAuto kv.value) (some sectionName) .addIf
    rw [Memory.pathcompAddAttsFromEntries]
    by_cases hcopy : kv.key = attCopy
    · have hpure : (pathcompAddAttsFromEntries recurse sectionName · (kv :: entries)) = fun c =>
          pathcompAddOrReplace c kv.key (valueNewAuto kv.value) (some sectionName) .addIf >>=
            fun e => recurse e kv.value >>=
              (pathcompAddAttsFromEntries recurse sectionName · entries) := by
        funext c
        simp only [pathcompAddAttsFromEntries, if_pos hcopy]
        cases pathcompAddOrReplace c kv.key (valueNewAuto kv.value) (some sectionName) .addIf with
        | error halt => rfl
        | ok e => cases he : recurse e kv.value <;> simp [he, bind, Except.bind]
      rw [hpure, if_pos hcopy]
      exact hupdate ((hadd kv.value).then ih)
    · have hpure : (pathcompAddAttsFromEntries recurse sectionName · (kv :: entries)) = fun c =>
          pathcompAddOrReplace c kv.key (valueNewAuto kv.value) (some sectionName) .addIf >>=
            (pathcompAddAttsFromEntries recurse sectionName · entries) := by
        funext c
        simp only [pathcompAddAttsFromEntries, if_neg hcopy]
        cases pathcompAddOrReplace c kv.key (valueNewAuto kv.value) (some sectionName) .addIf <;>
          rfl
      rw [hpure, if_neg hcopy]
      exact hupdate ih

theorem builds_loop {a : ℕ} {addEntries : Text → List CfKv → M Unit}
    {add : Text → Composer → List CfKv → Except Halt Composer}
    (hadd : ∀ name entries, Builds a (addEntries name entries) (add name · entries))
    (sectionName : Text) (sections : List CfSection) :
    Builds a (Memory.addAttsLoop addEntries sectionName sections)
      (addAttsLoop add sectionName · sections) := by
  induction sections with
  | nil => exact Builds.ret a
  | cons sec sections ih =>
    rw [Memory.addAttsLoop]
    by_cases hname : sec.name = sectionName
    · have hpure : (addAttsLoop add sectionName · (sec :: sections)) = fun c =>
          add sec.name c sec.entries >>= (addAttsLoop add sectionName · sections) := by
        funext c
        simp only [addAttsLoop, if_pos hname]
        cases add sec.name c sec.entries <;> rfl
      rw [hpure, if_pos hname]
      exact (hadd sec.name sec.entries).then ih
    · simp only [addAttsLoop, if_neg hname]
      exact ih

theorem builds_sections (config : Option Cf) (a depth : ℕ) (name : Text) :
    Builds a (Memory.pathcompAddAttsFromSections config a depth name)
      (pathcompAddAttsFromSections config depth · name) := by
  induction depth generalizing name with
  | zero =>
    refine ⟨?_, fun _ _ _ _ _ _ => rfl⟩
    intro c d _ h
    cases h
  | succ depth ih =>
    cases config with
    | none => exact Builds.ret a
    | some cf =>
      exact builds_loop (fun name entries => builds_entries ih name entries) name cf.sections

/-- The composer that `pathcomp_new` starts with. -/
def PlacedComposer.blank (a : ℕ) (name : Text) : PlacedComposer :=
    ⟨a, name, [], [], false, false⟩

theorem blank_representation (a : ℕ) (name : Text) :
    Representation (PlacedComposer.blank a name).composer :=
  ⟨by simp [PlacedComposer.blank, PlacedComposer.composer],
    by simp [PlacedComposer.blank, PlacedComposer.composer, AllValid],
    by simp [PlacedComposer.blank, PlacedComposer.composer]⟩

section New
variable {config : Option Cf} {depth : ℕ} {name : Text}

theorem triple_new {c : Composer} (h : pathcompNew config depth name = .ok c) :
    Triple 0 (Memory.pathcompNew config depth name) fun r m' => ∃ d : PlacedComposer,
      d.cell = r ∧ d.composer = c ∧ m' = d.cells := by
  simp only [pathcompNew, pathcompMakeFromConfig] at h
  split at h
  · cases h
  · rename_i d hd
    cases h
    apply (triple_malloc _).bind
    rintro a m' rfl
    have hadd := (builds_sections config a depth name).mirrors (.blank a name) rfl
      (blank_representation a name)
    simp only [PlacedComposer.blank, PlacedComposer.composer, List.map_nil, hd] at hadd
    apply Triple.bind hadd
    rintro _ m' ⟨e, rfl, rfl, _, rfl⟩
    refine (returns_composerAt (composer_mem e)).then ?_
    refine (returns_store _).then ?_
    exact Triple.ret ⟨{ e with
      metatable := bufDetach (bufAddstr (bufAddstr bufInit metatablePrefix) name)
      done := false
      started := false }, rfl, rfl, rfl⟩

theorem new_halts {halt : Halt} (h : pathcompNew config depth name = .error halt)
    (heap : Heap Cell) : Memory.pathcompNew config depth name heap = .error halt := by
  simp only [pathcompNew, pathcompMakeFromConfig] at h
  split at h
  · rename_i hd
    cases h
    have hadd := (builds_sections config heap.bound depth name).mirrors (.blank heap.bound name) rfl
      (blank_representation heap.bound name)
    simp only [PlacedComposer.blank, PlacedComposer.composer, List.map_nil, hd] at hadd
    have hrun : Memory.pathcompAddAttsFromSections config heap.bound depth name
        (heap.grow (.composer ⟨name, none, [], false, false⟩)) = .error halt := by
      refine hadd _ 0 ?_
      rw [add_zero]
      exact (holds_zero heap).grow _
    change (Memory.pathcompAddAttsFromSections config heap.bound depth name (heap.grow _) >>= _) = _
    rw [hrun]
    rfl
  · cases h

end New

end Pathcomp.PlacedComposers
