import Pathcomp.PlacedComposers

set_option autoImplicit false

/-!
# Evaluation in memory

Evaluation writes through the pointer to the current value that it was given
before the chunk ran. Since a chunk moves no cell, this is still the current value
of the attribute.
-/
namespace Pathcomp.PlacedEvaluation
open Bytes Buffer Config Values Attributes Composers Evaluation Purity Wheels Reachability Search
open Heaps Links Placement PlacedComposers
open Memory (Cell AttCell ComposerCell M)

theorem currentValue_att (a : PlacedAtt) :
    attCurrentValue a.att = a.currentValue.map PlacedValue.value := by
  unfold attCurrentValue PlacedAtt.currentValue
  rw [show a.att.current = a.current from rfl]
  cases a.current with
  | none => rfl
  | some p =>
    simp only [PlacedAtt.att, Option.bind_some, List.getElem?_map, Option.map_map]
    rfl

theorem currentValue_currentAt (c : PlacedComposer) (name : Text) :
    currentValue c.composer name = (c.currentAt name).map PlacedValue.value := by
  rw [currentValue, retrieve_find, PlacedComposer.currentAt]
  cases c.find name with
  | none => rfl
  | some x => exact currentValue_att x.2

theorem currentAt_erase (c : PlacedComposer) (name : Text) :
    c.erase.currentAt name = (c.currentAt name).map PlacedValue.erase := by
  have hfind : c.erase.find name = (c.find name).map fun x => (x.1, x.2.erase) := by
    simp only [PlacedComposer.find, PlacedComposer.erase, List.find?_map]
    rfl
  rw [PlacedComposer.currentAt, hfind, PlacedComposer.currentAt]
  cases c.find name with
  | none => rfl
  | some x =>
    simp only [Option.map_some, Option.bind_some, PlacedAtt.currentValue, PlacedAtt.erase]
    cases x.2.current with
    | none => rfl
    | some p =>
      simp only [Option.bind_some, List.getElem?_map, Option.map_map]
      rfl

/-- The same cell, and the same value up to its cache. -/
theorem currentAt_congr {c d : PlacedComposer} (h : d.erase = c.erase) {name : Text}
    {v : PlacedValue} (hv : c.currentAt name = some v) :
    ∃ w, d.currentAt name = some w ∧ w.cell = v.cell := by
  have hcd := currentAt_erase d name
  rw [h, currentAt_erase c name, hv] at hcd
  cases hw : d.currentAt name with
  | none => simp [hw] at hcd
  | some w =>
    simp only [hw, Option.map_some, Option.some.injEq, PlacedValue.erase,
      PlacedValue.mk.injEq] at hcd
    exact ⟨w, rfl, hcd.1.symm⟩

theorem modify_split {α : Type} (front back : List α) (x : α) (f : α → α) :
    (front ++ x :: back).modify front.length f = front ++ f x :: back := by
  rw [List.modify_eq_take_cons_drop (by simp)]
  simp

/-- The result goes to the cell of the current value. -/
theorem storeResult_att {a : PlacedAtt} {v : PlacedValue} (hv : a.currentValue = some v)
    (result : Option Text) :
    ∃ b : PlacedAtt, b.cell = a.cell ∧ b.att = a.att.setResult result ∧ b.erase = a.erase ∧
      ∃ rest, a.cells = v.cells + rest ∧
        b.cells = PlacedValue.cells { v with value := v.value.setResult result } + rest := by
  obtain ⟨p, hcurrent, hp⟩ := Option.bind_eq_some_iff.mp hv
  obtain ⟨x, hx, rfl⟩ := Option.map_eq_some_iff.mp hp
  obtain ⟨front, back, halternatives, rfl⟩ :
    ∃ front back, a.alternatives = front ++ x :: back ∧
      front.length = p := by
    obtain ⟨hlt, rfl⟩ := List.getElem?_eq_some_iff.mp hx
    refine ⟨a.alternatives.take p, a.alternatives.drop (p + 1), ?_, ?_⟩
    · rw [← List.drop_eq_getElem_cons hlt, List.take_append_drop]
    · rw [List.length_take]
      omega
  let y : ℕ × PlacedValue := (x.1, { x.2 with value := x.2.value.setResult result })
  have hnodes : (front ++ y :: back).map Prod.fst = (front ++ x :: back).map Prod.fst := by
    simp [y]
  refine ⟨{ a with alternatives := front ++ y :: back }, rfl, ?_, ?_, ?_⟩
  · have hmodify := modify_split (front.map fun z => z.2.value) (back.map fun z => z.2.value)
      x.2.value (Value.setResult result)
    rw [List.length_map] at hmodify
    simp only [PlacedAtt.att, Att.setResult, hcurrent, halternatives, List.map_append,
      List.map_cons,
      hmodify, y]
  · simp [PlacedAtt.erase, halternatives, PlacedValue.erase, y]
  · have hcell : (PlacedAtt.attCell { a with alternatives := front ++ y :: back }) =
        a.attCell := by
      simp only [PlacedAtt.attCell, halternatives]
      rw [first_congr hnodes, pointer_congr hnodes]
    refine ⟨{(a.cell, .att a.attCell)} + (listCells PlacedValue.cell PlacedValue.cells front
      (some x.1) + {(x.1, node x.2.cell (first back none))} +
      listCells PlacedValue.cell PlacedValue.cells back none), ?_, ?_⟩
    · rw [PlacedAtt.cells, PlacedAtt.values, halternatives, listCells_split]
      abel
    · rw [PlacedAtt.cells, hcell, PlacedAtt.values, listCells_split]
      abel

theorem storeResult {c : PlacedComposer} {name : Text} {v : PlacedValue}
    (hv : c.currentAt name = some v) (result : Option Text) :
    ∃ d : PlacedComposer, d.composer = c.composer.onAtt name (Att.setResult result) ∧
      d.erase = c.erase ∧ Returns c.cells (Memory.setResult v.cell result) () d.cells := by
  obtain ⟨x, hx, hvx⟩ := Option.bind_eq_some_iff.mp hv
  obtain ⟨front, back, hsplit, hupdate⟩ := find_split c hx
  obtain ⟨rest, hcells, hexchange⟩ := focus c hsplit
  obtain ⟨b, hcell, hatt, herase, others, ha, hb⟩ := storeResult_att hvx result
  refine ⟨c.exchange front x.1 b back, (hupdate _ b hatt).symm, ?_, ?_⟩
  · simp only [PlacedComposer.erase, PlacedComposer.exchange, hsplit, List.map_append,
      List.map_cons, herase]
  · rw [hcells, hexchange b hcell, ha, hb, add_assoc, add_assoc]
    exact returns_setResult v result

/-- On every composer at the address, the program returns what the function does
    and changes caches only, as the function does. -/
def Evaluates {α : Type} (a : ℕ) (prog : M α) (eval : Composer → α × Composer) : Prop :=
  ∀ c : PlacedComposer, c.cell = a → Triple c.cells prog fun r m' => ∃ d : PlacedComposer,
    d.erase = c.erase ∧ m' = d.cells ∧ r = (eval c.composer).1 ∧
      d.composer = (eval c.composer).2

theorem cell_eq_of_erase {c d : PlacedComposer} (h : d.erase = c.erase) : d.cell = c.cell := by
  have hcell : d.erase.cell = c.erase.cell := by rw [h]
  exact hcell

theorem Evaluates.ret {α : Type} (a : ℕ) (r : α) :
    Evaluates a (pure r) fun c => (r, c) :=
  fun c _ => Triple.ret ⟨c, rfl, rfl, rfl, rfl⟩

theorem Evaluates.bind {α β : Type} {a : ℕ} {prog : M α} {eval : Composer → α × Composer}
    {next : α → M β} {then' : α → Composer → β × Composer}
    (hprog : Evaluates a prog eval) (hnext : ∀ r, Evaluates a (next r) (then' r)) :
    Evaluates a (prog >>= next) fun c => then' (eval c).1 (eval c).2 := by
  intro c hc
  apply (hprog c hc).bind
  rintro r m' ⟨d, herase, rfl, rfl, hd⟩
  apply (hnext _ d ((cell_eq_of_erase herase).trans hc)).weaken
  rintro s m' ⟨e, herase', rfl, rfl, he⟩
  rw [hd] at he ⊢
  exact ⟨e, herase'.trans herase, rfl, rfl, he⟩

theorem Evaluates.refines {α : Type} {c : PlacedComposer} {prog : M α}
    {eval : Composer → α × Composer} (h : Evaluates c.cell prog eval) :
    Refines c prog (eval c.composer) := by
  apply (h c rfl).weaken
  rintro r m' ⟨d, herase, rfl, hr, hd⟩
  exact ⟨d, cell_eq_of_erase herase, rfl, hr, hd⟩

theorem evaluates_run {a : ℕ} {push : Text → M LuaObject}
    {pushPure : Composer → Text → LuaObject × Composer}
    (hpush : ∀ name, Evaluates a (push name) (pushPure · name)) (code : LuaCode) :
    Evaluates a (Memory.LuaCode.run push code) (code.run pushPure) := by
  induction code with
  | finish result => exact Evaluates.ret a _
  | index name resume ih => exact (hpush name).bind fun r => ih r

theorem returns_attOnCurrent {α : Type} (a : PlacedAtt) {m : Bindings Cell} {absent : α}
    {onValue : ℕ → M α} {post : α → Bindings Cell → Prop}
    (hm : ∀ b ∈ a.cells, b ∈ m) (hnone : a.currentValue = none → post absent m)
    (hsome : ∀ v, a.currentValue = some v → Triple m (onValue v.cell) post) :
    Triple m (Memory.attOnCurrent absent onValue a.cell) post := by
  refine (returns_attAt (hm _ (att_mem a))).then ?_
  have hpointer : a.attCell.current =
      a.current.bind fun p => a.alternatives[p]?.map Prod.fst := rfl
  unfold PlacedAtt.currentValue at hnone hsome
  cases hcurrent : a.current with
  | none =>
    rw [hpointer, hcurrent]
    rw [hcurrent] at hnone
    exact Triple.ret (hnone rfl)
  | some p =>
    rw [hpointer, hcurrent]
    rw [hcurrent] at hnone hsome
    cases hx : a.alternatives[p]? with
    | none =>
      simp only [Option.bind_some, hx, Option.map_none]
      exact Triple.ret (hnone (by simp [hx]))
    | some x =>
      simp only [Option.bind_some, hx, Option.map_some]
      obtain ⟨hp, rfl⟩ := List.getElem?_eq_some_iff.mp hx
      have hnode := @get_mem _ PlacedValue.cell PlacedValue.cells a.alternatives p hp
      refine (returns_listEl (hm _ (Multiset.mem_add.mpr (.inr hnode)))).then ?_
      exact hsome _ (by simp [hx])

/-- A program that uses the current value of an attribute. -/
theorem evaluates_current {α : Type} {a : ℕ} {name : Text} {absent : α} {onValue : ℕ → M α}
    {eval : Composer → α × Composer} (onPure : Composer → Value → α × Composer)
    (hnone : ∀ c, currentValue c name = none → eval c = (absent, c))
    (hsome : ∀ c v, currentValue c name = some v → eval c = onPure c v)
    (hvalue : ∀ (c : PlacedComposer) (v : PlacedValue), c.cell = a →
      c.currentAt name = some v →
      Triple c.cells (onValue v.cell) fun r m' => ∃ d : PlacedComposer,
        d.erase = c.erase ∧ m' = d.cells ∧ r = (onPure c.composer v.value).1 ∧
          d.composer = (onPure c.composer v.value).2) :
    Evaluates a (Memory.onRetrieved absent (Memory.attOnCurrent absent onValue) a name) eval := by
  intro c hc
  have hcurrent := currentValue_currentAt c name
  have habsent (h : c.currentAt name = none) : ∃ d : PlacedComposer,
      d.erase = c.erase ∧ c.cells = d.cells ∧ absent = (eval c.composer).1 ∧
        d.composer = (eval c.composer).2 := by
    rw [h] at hcurrent
    rw [hnone c.composer hcurrent]
    exact ⟨c, rfl, rfl, rfl, rfl⟩
  subst hc
  refine (returns_retrieveAtt c name).then ?_
  cases hx : c.find name with
  | none => exact Triple.ret (habsent (by simp [PlacedComposer.currentAt, hx]))
  | some x =>
    obtain ⟨front, back, hsplit, _⟩ := find_split c hx
    obtain ⟨rest, hcells, _⟩ := focus c hsplit
    have hat : c.currentAt name = x.2.currentValue := by simp [PlacedComposer.currentAt, hx]
    have hm : ∀ b ∈ x.2.cells, b ∈ c.cells := by
      intro b hb
      rw [hcells]
      exact Multiset.mem_add.mpr (.inl hb)
    refine returns_attOnCurrent x.2 hm (fun h => habsent (hat.trans h)) fun v hv => ?_
    rw [← hat] at hv
    rw [hv] at hcurrent
    rw [hsome c.composer v.value hcurrent]
    exact hvalue c v rfl hv

theorem valueCell_mem {c : PlacedComposer} {name : Text} {v : PlacedValue}
    (hv : c.currentAt name = some v) : (v.cell, Cell.value v.value) ∈ c.cells := by
  obtain ⟨x, hx, hvx⟩ := Option.bind_eq_some_iff.mp hv
  obtain ⟨front, back, hsplit, _⟩ := find_split c hx
  obtain ⟨rest, hcells, _⟩ := focus c hsplit
  obtain ⟨_, _, _, _, others, ha, _⟩ := storeResult_att hvx none
  rw [hcells, ha]
  simp [PlacedValue.cells]

section Dispatch
variable {a : ℕ} {evalLua : ℕ → Text → M (Option Text)}
  {evalPure : Composer → Text → Text → Option Text × Composer}
  (hlua : ∀ (c : PlacedComposer) (name : Text) (v : PlacedValue) (source : Text), c.cell = a →
    c.currentAt name = some v →
      Triple c.cells (evalLua v.cell source) fun r m' => ∃ d : PlacedComposer,
        d.erase = c.erase ∧ m' = d.cells ∧ r = (evalPure c.composer name source).1 ∧
          d.composer = (evalPure c.composer name source).2)
include hlua

theorem evaluates_pushValue (name : Text) :
    Evaluates a (Memory.pathcompPushValue evalLua a name) (pathcompPushValue evalPure · name) := by
  refine evaluates_current (valuePush evalPure · name ·)
    (fun c h => push_none h) (fun c v h => push_some h) fun c v hc hv => ?_
  refine (returns_valueAt (valueCell_mem hv)).then ?_
  cases hvalue : v.value with
  | string result => exact Triple.ret ⟨c, rfl, rfl, rfl, rfl⟩
  | int integer result => exact Triple.ret ⟨c, rfl, rfl, rfl, rfl⟩
  | lua source result =>
    apply (hlua c name v source hc hv).bind
    rintro r m' ⟨d, herase, rfl, rfl, hd⟩
    exact Triple.ret ⟨d, herase, rfl, rfl, hd⟩

theorem evaluates_value (name : Text) (c : PlacedComposer) (v : PlacedValue) (hc : c.cell = a)
    (hv : c.currentAt name = some v) :
    Triple c.cells (Memory.valueEval evalLua v.cell) fun r m' => ∃ d : PlacedComposer,
      d.erase = c.erase ∧ m' = d.cells ∧ r = (valueEval evalPure c.composer name v.value).1 ∧
        d.composer = (valueEval evalPure c.composer name v.value).2 := by
  refine (returns_valueAt (valueCell_mem hv)).then ?_
  cases hvalue : v.value with
  | string result => exact Triple.ret ⟨c, rfl, rfl, rfl, rfl⟩
  | int integer result =>
    obtain ⟨d, hd, herase, hstore⟩ := storeResult hv (some (formatInt integer))
    exact hstore.then (Triple.ret ⟨d, herase, rfl, rfl, hd⟩)
  | lua source result => exact hlua c name v source hc hv

end Dispatch

/-- The result is written to the value that was current before the chunk ran. -/
theorem triple_valueEvalLua (lua : Lua) (depth : ℕ) (c : PlacedComposer) (name : Text)
    (v : PlacedValue) (source : Text) (hv : c.currentAt name = some v) :
    Triple c.cells (Memory.valueEvalLua lua c.cell depth v.cell source) fun r m' =>
      ∃ d : PlacedComposer, d.erase = c.erase ∧ m' = d.cells ∧
        r = (valueEvalLua lua depth c.composer name source).1 ∧
        d.composer = (valueEvalLua lua depth c.composer name source).2 := by
  induction depth generalizing c name v source with
  | zero =>
    obtain ⟨d, hd, herase, hstore⟩ := storeResult hv none
    exact hstore.then (Triple.ret ⟨d, herase, rfl, rfl, hd⟩)
  | succ depth ih =>
    have hpush := @evaluates_pushValue c.cell (Memory.valueEvalLua lua c.cell depth)
      (valueEvalLua lua depth) (fun d name w source hd hw => by
        rw [← hd]
        exact ih d name w source hw)
    apply (evaluates_run hpush (lua source) c rfl).bind
    rintro r m' ⟨d, herase, rfl, rfl, hd⟩
    obtain ⟨w, hw, hcell⟩ := currentAt_congr herase hv
    obtain ⟨e, he, herase', hstore⟩ := storeResult hw
      ((lua source).run (pathcompPushValue (valueEvalLua lua depth)) c.composer).1
    rw [hcell] at hstore
    refine hstore.then (Triple.ret ⟨e, herase'.trans herase, rfl, rfl, ?_⟩)
    rw [he, hd]
    rfl

theorem evaluates_evalNocopy (lua : Lua) (depth a : ℕ) (name : Text) :
    Evaluates a (Memory.pathcompEvalNocopy lua depth a name)
      (pathcompEvalNocopy lua depth · name) := by
  refine evaluates_current (valueEval (valueEvalLua lua depth) · name ·)
    (fun c h => evalNocopy_none h) (fun c v h => evalNocopy_some h) ?_
  refine evaluates_value (fun c name v source hc hv => ?_) name
  rw [← hc]
  exact triple_valueEvalLua lua depth c name v source hv

theorem evaluates_eval (lua : Lua) (depth a : ℕ) (name : Text) :
    Evaluates a (Memory.pathcompEval lua depth a name) (pathcompEval lua depth · name) :=
  (evaluates_evalNocopy lua depth a name).bind fun r => Evaluates.ret a (r.map cstr)

theorem evaluates_yield (lua : Lua) (depth a : ℕ) :
    Evaluates a (Memory.pathcompYield lua depth a) (pathcompYield lua depth) := by
  have hprog := (evaluates_evalNocopy lua depth a attRoot).bind fun root =>
    (evaluates_evalNocopy lua depth a attCompose).bind fun compose => Evaluates.ret a
      (if (addNonempty (addNonempty bufInit root [byte '/']) compose []).bytes.length = 0 then none
        else some (bufDetach (addNonempty (addNonempty bufInit root [byte '/']) compose [])))
  intro c hc
  rw [pathcompYield_eq]
  exact hprog c hc

theorem refines_advance (c : PlacedComposer) (hvalid : AllValid c.composer.attributes) :
    Refines c (Memory.advance c.cell) ((), advance c.composer) := by
  have hnext : Refines c (do
      if (← Memory.composerAt c.cell).started then Memory.pathcompNext c.cell else pure false)
      (if c.composer.started then pathcompNext c.composer else (false, c.composer)) := by
    refine (returns_composerAt (composer_mem c)).then ?_
    rw [show c.composerCell.started = c.composer.started from rfl]
    cases c.composer.started with
    | true => exact refines_next c hvalid
    | false => exact Triple.ret ⟨c, rfl, rfl, rfl, rfl⟩
  apply hnext.bind
  rintro r m' ⟨d, hcell, rfl, rfl, hd⟩
  rw [← hcell]
  refine (returns_composerAt (composer_mem d)).then ?_
  apply Triple.weaken (returns_store _)
  rintro _ m' ⟨_, rfl⟩
  refine ⟨{ d with started := true }, rfl, rfl, rfl, ?_⟩
  have hadvance : advance c.composer = { d.composer with started := true } := by
    rw [hd, advance]
    split <;> rfl
  rw [hadvance]
  rfl

theorem advance_representation {c : Composer} (h : Representation c) :
    Representation (advance c) := by
  have hs : Representation (if c.started then (pathcompNext c).2 else c) := by
    split
    · exact pathcompNext_representation h
    · exact h
  exact ⟨hs.names, hs.atts, hs.done⟩

theorem mirrors_find (lua : Lua) (depth : ℕ) (pathExists : Text → Bool) (fuel : ℕ)
    (c : PlacedComposer) (hr : Representation c.composer) :
    Mirrors c (Memory.pathcompFind lua depth pathExists fuel c.cell)
      (pathcompFind lua depth pathExists fuel c.composer) := by
  induction fuel generalizing c with
  | zero => exact fun _ _ _ => rfl
  | succ fuel ih =>
    rw [pathcompFind_succ]
    refine (refines_advance c hr.atts).mirrors fun x hx hadvance => ?_
    have hrx : Representation x.composer := by
      rw [hadvance]
      exact advance_representation hr
    rw [← hadvance, ← hx]
    refine (refines_done x).mirrors fun y hy hsame => ?_
    rw [pathcompDone, ← hsame, ← hy]
    rw [← hsame] at hrx
    cases hdone : y.composer.done with
    | true => exact Triple.ret ⟨y, rfl, rfl, rfl, rfl⟩
    | false =>
      simp only [Bool.false_eq_true, ↓reduceIte]
      have hrefines : Refines y (Memory.pathcompYield lua depth y.cell)
          ((pathcompYield lua depth y.composer).1, (pathcompYield lua depth y.composer).2) :=
        (evaluates_yield lua depth y.cell).refines
      refine hrefines.mirrors fun z hz hyield => ?_
      have hrz : Representation z.composer := by
        rw [hyield]
        exact hrx.congr ((pathcompYield_pure lua depth).frame _)
      rw [← hyield, ← hz]
      cases hpath : (pathcompYield lua depth y.composer).1 with
      | none => exact ih z hrz
      | some found =>
        by_cases hexists : pathExists found
        · simp only [hexists, ↓reduceIte]
          exact Triple.ret ⟨z, rfl, rfl, rfl, rfl⟩
        · simp only [hexists, Bool.false_eq_true, ↓reduceIte]
          exact ih z hrz

end Pathcomp.PlacedEvaluation
