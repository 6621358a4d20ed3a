import Pathcomp.Clones

set_option autoImplicit false

/-!
# Ownership of composers

A client creates composers, clones them, sends them requests and frees them, in any
order. The heap of list nodes, values, attributes and composers then has exactly the
cells of the composers that the client still owns, each composer with cells of its own.
-/
namespace Pathcomp.Ownership
open Bytes Config Composers Evaluation Reachability Observations Heaps Links Placement
  PlacedComposers Clones
open Memory (Cell M)

theorem returns_attFree (a : PlacedAtt) : Returns a.cells (Memory.attFree a.cell) () 0 := by
  have hfree : Returns ({(a.cell, Cell.att a.attCell)} + 0)
      (free Halt.nullPointer a.cell) () 0 := returns_free
  refine (returns_attAt (att_mem a)).then ?_
  rw [PlacedAtt.cells, add_comm, ← add_zero {(a.cell, Cell.att a.attCell)}]
  exact triple_destroy (fun x _ => returns_valueFree x.2) hfree

theorem returns_pathcompFree (c : PlacedComposer) :
    Returns c.cells (Memory.pathcompFree (some c.cell)) () 0 := by
  have hfree : Returns ({(c.cell, Cell.composer c.composerCell)} + 0)
      (free Halt.nullPointer c.cell) () 0 := returns_free
  refine (returns_composerAt (composer_mem c)).then ?_
  rw [PlacedComposer.cells, add_comm, ← add_zero {(c.cell, Cell.composer c.composerCell)}]
  exact triple_destroy (fun x _ => returns_attFree x.2) hfree

/-- What a client does with the composers that it owns; they are counted in the order
    in which they were created. A request is made in some state of the world. -/
inductive Command (σ : Type) where
  | new (name : Text)
  | free (i : ℕ)
  | call (i : ℕ) (s : σ) (request : Request)

section Sessions
variable {σ : Type} (w : World σ) (config : Option Cf) (nesting fuel : ℕ)

def Command.exec (owned : List ℕ) : Command σ → M (Reply × List ℕ)
  | .new name => do
    let a ← Memory.pathcompNew config nesting name
    pure (.void, owned ++ [a])
  | .free i => do
    Memory.pathcompFree owned[i]?
    pure (.void, owned.eraseIdx i)
  | .call i s request =>
    match owned[i]? with
    | none => halt .assertion
    | some a => do
      let (reply, b) ← request.exec w s fuel a
      pure (reply, if request = .clone then owned ++ [b] else owned)

def session : List (Command σ) → List ℕ → M (List Reply × List ℕ)
  | [], owned => pure ([], owned)
  | command :: commands, owned => do
    let (reply, owned) ← command.exec w config nesting fuel owned
    let (replies, owned) ← session commands owned
    pure (reply :: replies, owned)

/-- The same on composers that are values, where nothing can be shared or lost. -/
def Command.step (composers : List Composer) : Command σ → Except Halt (Reply × List Composer)
  | .new name =>
    match pathcompNew config nesting name with
    | .error halt => .error halt
    | .ok c => .ok (.void, composers ++ [c])
  | .free i => .ok (.void, composers.eraseIdx i)
  | .call i s request =>
    match composers[i]? with
    | none => .error .assertion
    | some c =>
      match request.step.exec w fuel c s with
      | .error halt => .error halt
      | .ok (reply, d, _) =>
        .ok (reply, if request = .clone then composers ++ [d] else composers.set i d)

def steps : List (Command σ) → List Composer → Except Halt (List Reply × List Composer)
  | [], composers => .ok ([], composers)
  | command :: commands, composers =>
    match command.step w config nesting fuel composers with
    | .error halt => .error halt
    | .ok (reply, composers) =>
      match steps commands composers with
      | .error halt => .error halt
      | .ok (replies, composers) => .ok (reply :: replies, composers)

/-- How many composers a client owns after a command. -/
def Command.count (n : ℕ) : Command σ → ℕ
  | .new _ => n + 1
  | .free i => if i < n then n - 1 else n
  | .call _ _ request => if request = .clone then n + 1 else n

/-- Requests go to composers that the client owns, and it only creates composers of
    classes that can be created. -/
def Command.Permitted (n : ℕ) : Command σ → Prop
  | .new name => ∃ c, pathcompNew config nesting name = .ok c
  | .free _ => True
  | .call i _ _ => i < n

def Permitted : List (Command σ) → ℕ → Prop
  | [], _ => True
  | command :: commands, n =>
    command.Permitted config nesting n ∧ Permitted commands (command.count n)

end Sessions

def cellsOf (owned : List PlacedComposer) : Bindings Cell := (owned.map PlacedComposer.cells).sum

/-- The client is left with these composers: their cells are all that the heap has, and
    no two composers share a cell. -/
structure Owns (h : Heap Cell) (owned : List PlacedComposer) : Prop where
  cells : Exactly h (cellsOf owned)
  separate : owned.Pairwise fun p q => Separate h p.cell q.cell

theorem cellsOf_append (owned : List PlacedComposer) (p : PlacedComposer) :
    cellsOf (owned ++ [p]) = p.cells + cellsOf owned :=
  sum_concat PlacedComposer.cells owned p

theorem cellsOf_focus {owned : List PlacedComposer} {i : ℕ} {p : PlacedComposer}
    (h : owned[i]? = some p) :
    cellsOf owned = p.cells + cellsOf (owned.eraseIdx i) ∧
      ∀ q, cellsOf (owned.set i q) = q.cells + cellsOf (owned.eraseIdx i) :=
  sum_focus PlacedComposer.cells h

section Steps
variable {σ : Type} (w : World σ) (config : Option Cf) (nesting : ℕ) {fuel : ℕ}
  {owned : List PlacedComposer}

section Focus
variable {i : ℕ} {p : PlacedComposer} (hp : owned[i]? = some p) (hr : Representation p.composer)
  (s : σ)
include hp hr

theorem triple_exec_clone :
    Triple (cellsOf owned) (Request.clone.exec w s fuel p.cell) fun x m' => ∃ q : PlacedComposer,
      x = (.void, q.cell) ∧ q.composer = p.composer ∧ m' = cellsOf (owned ++ [q]) := by
  have hcells := (cellsOf_focus hp).1
  rw [hcells]
  apply ((triple_clone p hr.atts).frame (cellsOf (owned.eraseIdx i))).bind
  rintro _ m' ⟨_, ⟨q, rfl, hq, rfl⟩, rfl⟩
  refine Triple.ret ⟨q, rfl, hq, ?_⟩
  rw [cellsOf_append, hcells, add_assoc]

theorem triple_exec {request : Request} (hclone : request ≠ .clone) {t : σ} {reply : Reply}
    {d : Composer} (h : request.step.exec w fuel p.composer s = .ok (reply, d, t)) :
    Triple (cellsOf owned) (request.exec w s fuel p.cell) fun x m' => ∃ q : PlacedComposer,
      x = (reply, p.cell) ∧ q.cell = p.cell ∧ q.composer = d ∧
      m' = cellsOf (owned.set i q) := by
  obtain ⟨hcells, hset⟩ := cellsOf_focus hp
  rw [hcells]
  apply (Triple.frame (refines_request w s hr hclone h) (cellsOf (owned.eraseIdx i))).weaken
  rintro _ m' ⟨_, ⟨q, hcell, rfl, rfl, hq⟩, rfl⟩
  exact ⟨q, rfl, hcell, hq, (hset q).symm⟩

end Focus

theorem set_cell {i : ℕ} {p q : PlacedComposer} (hp : owned[i]? = some p)
    (hcell : q.cell = p.cell) :
    (owned.set i q).map PlacedComposer.cell = owned.map PlacedComposer.cell := by
  obtain ⟨hi, rfl⟩ := List.getElem?_eq_some_iff.mp hp
  rw [List.map_set, hcell, ← List.map_set, List.set_getElem_self]

theorem triple_command (hr : ∀ p ∈ owned, Representation p.composer) (command : Command σ)
    {reply : Reply} {composers : List Composer}
    (h : command.step w config nesting fuel (owned.map PlacedComposer.composer) =
      .ok (reply, composers)) :
    Triple (cellsOf owned) (command.exec w config nesting fuel (owned.map PlacedComposer.cell))
      fun x m' => ∃ after : List PlacedComposer, x = (reply, after.map PlacedComposer.cell) ∧
        after.map PlacedComposer.composer = composers ∧ m' = cellsOf after := by
  cases command with
  | new name =>
    simp only [Command.step] at h
    split at h
    · cases h
    · rename_i c hc
      cases h
      have hnew := (triple_new hc).frame (cellsOf owned)
      rw [zero_add] at hnew
      apply hnew.bind
      rintro _ m' ⟨_, ⟨q, rfl, hq, rfl⟩, rfl⟩
      refine Triple.ret ⟨owned ++ [q], ?_, ?_, (cellsOf_append owned q).symm⟩
      · rw [List.map_append, List.map_singleton]
      · rw [List.map_append, List.map_singleton, hq]
  | free i =>
    cases h
    simp only [Command.exec, List.getElem?_map]
    cases hp : owned[i]? with
    | none =>
      have hlen : owned.length ≤ i := List.getElem?_eq_none_iff.mp hp
      refine Triple.ret ⟨owned, ?_, ?_, rfl⟩
      · rw [List.eraseIdx_of_length_le (by simpa using hlen)]
      · rw [List.eraseIdx_of_length_le (by simpa using hlen)]
    | some p =>
      have hfree := (returns_pathcompFree p).frame (cellsOf (owned.eraseIdx i))
      refine (hfree.reorder (cellsOf_focus hp).1 (zero_add _)).then ?_
      refine Triple.ret ⟨owned.eraseIdx i, ?_, ?_, rfl⟩
      · rw [List.eraseIdx_map]
      · rw [List.eraseIdx_map]
  | call i s request =>
    simp only [Command.step, Command.exec, List.getElem?_map] at h ⊢
    cases hp : owned[i]? with
    | none =>
      rw [hp] at h
      cases h
    | some p =>
      have hrp := hr p (List.mem_of_getElem? hp)
      rw [hp] at h
      simp only [Option.map_some] at h ⊢
      split at h
      · cases h
      · rename_i reply d t hstep
        cases h
        by_cases hclone : request = .clone
        · subst hclone
          simp only [Request.step, Step.exec, pathcompClone_eq hrp, replyVoid] at hstep
          cases hstep
          apply (triple_exec_clone w hp hrp s).bind
          rintro _ m' ⟨q, rfl, hq, rfl⟩
          refine Triple.ret ⟨owned ++ [q], ?_, ?_, rfl⟩
          · rw [if_pos rfl, List.map_append, List.map_singleton]
          · rw [if_pos rfl, List.map_append, List.map_singleton, hq]
        · apply (triple_exec w hp hrp s hclone hstep).bind
          rintro _ m' ⟨q, rfl, hcell, hq, rfl⟩
          refine Triple.ret ⟨owned.set i q, ?_, ?_, rfl⟩
          · rw [if_neg hclone, set_cell hp hcell]
          · rw [if_neg hclone, List.map_set, hq]

theorem command_halts (hr : ∀ p ∈ owned, Representation p.composer) (command : Command σ)
    {halt : Halt} (h : command.step w config nesting fuel (owned.map PlacedComposer.composer) =
      .error halt) {heap : Heap Cell} {frame : Bindings Cell}
    (hh : Holds heap (cellsOf owned + frame)) :
    command.exec w config nesting fuel (owned.map PlacedComposer.cell) heap = .error halt := by
  cases command with
  | new name =>
    simp only [Command.step] at h
    split at h
    · rename_i hc
      cases h
      change (Memory.pathcompNew config nesting name heap >>= _) = _
      rw [new_halts hc]
      rfl
    · cases h
  | free i => cases h
  | call i s request =>
    simp only [Command.step, Command.exec, List.getElem?_map] at h ⊢
    cases hp : owned[i]? with
    | none =>
      rw [hp] at h
      cases h
      rfl
    | some p =>
      rw [hp] at h
      simp only [Option.map_some] at h ⊢
      split at h
      · rename_i hstep
        cases h
        rw [(cellsOf_focus hp).1, add_assoc] at hh
        change (request.exec w s fuel p.cell heap >>= _) = _
        rw [request_halts w s (hr p (List.mem_of_getElem? hp)) request hstep hh]
        rfl
      · cases h

theorem step_reachable {command : Command σ} {composers after : List Composer} {reply : Reply}
    (hc : ∀ c ∈ composers, Reachable config c)
    (h : command.step w config nesting fuel composers = .ok (reply, after)) :
    ∀ c ∈ after, Reachable config c := by
  cases command with
  | new name =>
    simp only [Command.step] at h
    split at h
    · cases h
    · rename_i d hd
      cases h
      intro c hmem
      rcases List.mem_append.mp hmem with hmem | hmem
      · exact hc c hmem
      · rw [List.mem_singleton.mp hmem]
        exact .new hd
  | free i =>
    cases h
    exact fun c hmem => hc c (List.mem_of_mem_eraseIdx hmem)
  | call i s request =>
    simp only [Command.step] at h
    split at h
    · cases h
    · rename_i c hi
      split at h
      · cases h
      · rename_i reply d t hstep
        have hd := reachable_step (hc c (List.mem_of_getElem? hi)) hstep
        cases h
        intro e hmem
        split at hmem
        · rcases List.mem_append.mp hmem with hmem | hmem
          · exact hc e hmem
          · rw [List.mem_singleton.mp hmem]
            exact hd
        · rcases List.mem_or_eq_of_mem_set hmem with hmem | rfl
          · exact hc e hmem
          · exact hd

theorem command_settles (command : Command σ) {composers : List Composer}
    (hc : ∀ c ∈ composers, Reachable config c)
    (hp : command.Permitted config nesting composers.length) :
    ∃ (bound : ℕ) (reply : Reply) (after : List Composer),
      after.length = command.count composers.length ∧
      ∀ fuel, bound ≤ fuel → command.step w config nesting fuel composers =
        .ok (reply, after) := by
  cases command with
  | new name =>
    obtain ⟨c, hnew⟩ := hp
    refine ⟨0, .void, composers ++ [c], List.length_append, fun fuel _ => ?_⟩
    simp only [Command.step, hnew]
  | free i =>
    exact ⟨0, .void, composers.eraseIdx i, List.length_eraseIdx, fun _ _ => rfl⟩
  | call i s request =>
    have hi : composers[i]? = some composers[i] := List.getElem?_eq_getElem hp
    obtain ⟨bound, reply, d, _, hstep⟩ :=
      request_settles w s (hc composers[i] (List.getElem_mem hp)).representation request
    refine ⟨bound, reply, if request = .clone then composers ++ [d] else composers.set i d, ?_,
      fun fuel hfuel => ?_⟩
    · simp only [Command.count]
      split
      · exact List.length_append
      · exact List.length_set
    · simp only [Command.step, hi, hstep fuel hfuel]

end Steps

section Runs
variable {σ : Type} (w : World σ) (config : Option Cf) (nesting : ℕ)

theorem steps_settle (commands : List (Command σ)) {composers : List Composer}
    (hc : ∀ c ∈ composers, Reachable config c)
    (hp : Permitted config nesting commands composers.length) :
    ∃ (bound : ℕ) (replies : List Reply) (after : List Composer),
      after.length = commands.foldl Command.count composers.length ∧
      ∀ fuel, bound ≤ fuel →
        steps w config nesting fuel commands composers = .ok (replies, after) := by
  induction commands generalizing composers with
  | nil => exact ⟨0, [], composers, rfl, fun _ _ => rfl⟩
  | cons command commands ih =>
    obtain ⟨n, reply, mid, hmid, hstep⟩ := command_settles w config nesting command hc hp.1
    have hreach := step_reachable w config nesting hc (hstep n le_rfl)
    obtain ⟨m, replies, after, hafter, hsteps⟩ := ih hreach (by rw [hmid]; exact hp.2)
    refine ⟨max n m, reply :: replies, after, ?_, fun fuel hfuel => ?_⟩
    · rw [hafter, hmid, List.foldl_cons]
    · simp only [steps, hstep fuel (by omega), hsteps fuel (by omega)]

variable {fuel : ℕ}

theorem triple_session {commands : List (Command σ)} {owned : List PlacedComposer}
    (hr : ∀ p ∈ owned, Reachable config p.composer) {replies : List Reply}
    {composers : List Composer}
    (h : steps w config nesting fuel commands (owned.map PlacedComposer.composer) =
      .ok (replies, composers)) :
    Triple (cellsOf owned) (session w config nesting fuel commands (owned.map PlacedComposer.cell))
      fun x m' => ∃ after : List PlacedComposer, x = (replies, after.map PlacedComposer.cell) ∧
        after.map PlacedComposer.composer = composers ∧ m' = cellsOf after := by
  induction commands generalizing owned replies with
  | nil =>
    cases h
    exact Triple.ret ⟨owned, rfl, rfl, rfl⟩
  | cons command commands ih =>
    simp only [steps] at h
    split at h
    · cases h
    · rename_i reply mid hstep
      split at h
      · cases h
      · rename_i rest composers' hrest
        cases h
        have hreach := step_reachable w config nesting (by simpa using hr) hstep
        apply (triple_command w config nesting (fun p hp => (hr p hp).representation) command
          hstep).bind
        rintro _ m' ⟨after, rfl, rfl, rfl⟩
        apply (ih (by simpa using hreach) hrest).bind
        rintro _ m' ⟨last, rfl, hlast, rfl⟩
        exact Triple.ret ⟨last, rfl, hlast, rfl⟩

theorem session_halts {commands : List (Command σ)} {owned : List PlacedComposer}
    (hr : ∀ p ∈ owned, Reachable config p.composer) {halt : Halt}
    (h : steps w config nesting fuel commands (owned.map PlacedComposer.composer) = .error halt)
    {heap : Heap Cell} {frame : Bindings Cell} (hh : Holds heap (cellsOf owned + frame)) :
    session w config nesting fuel commands (owned.map PlacedComposer.cell) heap = .error halt := by
  induction commands generalizing owned heap with
  | nil => cases h
  | cons command commands ih =>
    have hrep : ∀ p ∈ owned, Representation p.composer := fun p hp => (hr p hp).representation
    change (command.exec w config nesting fuel (owned.map PlacedComposer.cell) heap >>= _) = _
    simp only [steps] at h
    split at h
    · rename_i hstep
      cases h
      rw [command_halts w config nesting hrep command hstep hh]
      rfl
    · rename_i reply mid hstep
      have hreach := step_reachable w config nesting (by simpa using hr) hstep
      obtain ⟨_, heap', _, hrun, hh', after, rfl, rfl, rfl⟩ :=
        triple_command w config nesting hrep command hstep heap frame hh
      rw [hrun]
      split at h
      · rename_i hrest
        cases h
        have htail := ih (by simpa using hreach) hrest hh'
        change
          (session w config nesting fuel commands (after.map PlacedComposer.cell) heap' >>= _) = _
        rw [htail]
        rfl
      · cases h

end Runs

theorem owned_separate {h : Heap Cell} {owned : List PlacedComposer} {frame : Bindings Cell}
    (hh : Holds h (cellsOf owned + frame)) :
    owned.Pairwise fun p q => Separate h p.cell q.cell := by
  induction owned generalizing frame with
  | nil => exact List.Pairwise.nil
  | cons p owned ih =>
    have hcons : cellsOf (p :: owned) = p.cells + cellsOf owned := List.sum_cons
    rw [hcons] at hh
    refine List.pairwise_cons.mpr ⟨fun q hq => ?_, ?_⟩
    · obtain ⟨i, hi⟩ := List.getElem?_of_mem hq
      rw [(cellsOf_focus hi).1, add_assoc, add_assoc] at hh
      exact separate_of_holds hh
    · refine @ih (p.cells + frame) ?_
      rwa [show cellsOf owned + (p.cells + frame) = p.cells + cellsOf owned + frame by abel]

/-- A session that starts with an empty heap does in memory what it does to composers
    that are values, or stops as that does. Where every command is permitted it is
    carried out, the heap has the cells of the composers that are left and no others, and
    it is empty again once all of them are freed. -/
theorem heap_is_owned {σ : Type} (w : World σ) (config : Option Cf) (nesting : ℕ)
    (commands : List (Command σ)) :
    (∀ fuel halt, steps w config nesting fuel commands [] = .error halt →
      session w config nesting fuel commands [] Heap.empty = .error halt) ∧
    (∀ fuel replies composers, steps w config nesting fuel commands [] =
      .ok (replies, composers) →
      ∃ owned h, session w config nesting fuel commands [] Heap.empty =
          .ok ((replies, owned.map PlacedComposer.cell), h) ∧
        owned.map PlacedComposer.composer = composers ∧ Owns h owned) ∧
    (Permitted config nesting commands 0 → ∃ bound, ∀ fuel, bound ≤ fuel →
      ∃ replies owned h, session w config nesting fuel commands [] Heap.empty =
          .ok ((replies, owned.map PlacedComposer.cell), h) ∧ Owns h owned ∧
        owned.length = commands.foldl Command.count 0 ∧
        (commands.foldl Command.count 0 = 0 → ∀ a, h.cells a = none)) := by
  have hstart : Exactly (Heap.empty : Heap Cell) (cellsOf [] + 0) := exactly_empty
  have hreturns (fuel : ℕ) (replies : List Reply) (composers : List Composer)
      (h : steps w config nesting fuel commands [] = .ok (replies, composers)) :
      ∃ owned heap, session w config nesting fuel commands [] Heap.empty =
          .ok ((replies, owned.map PlacedComposer.cell), heap) ∧
        owned.map PlacedComposer.composer = composers ∧ Owns heap owned := by
    obtain ⟨_, heap, _, hrun, hcells, owned, rfl, howned, rfl⟩ :=
      @triple_session σ w config nesting fuel commands [] (by simp) _ _ h _ _ Heap.empty 0 hstart
    refine ⟨owned, heap, hrun, howned, ?_, owned_separate hcells.toHolds⟩
    rwa [add_zero] at hcells
  refine ⟨fun fuel halt h => ?_, hreturns, fun hp => ?_⟩
  · exact @session_halts σ w config nesting fuel commands [] (by simp) halt h _ 0 hstart.toHolds
  · obtain ⟨bound, replies, composers, hlen, hsteps⟩ :=
      @steps_settle σ w config nesting commands [] (by simp) hp
    refine ⟨bound, fun fuel hfuel => ?_⟩
    obtain ⟨owned, heap, hrun, rfl, howns⟩ :=
      hreturns fuel replies composers (hsteps fuel hfuel)
    rw [List.length_map] at hlen
    refine ⟨replies, owned, heap, hrun, howns, hlen, fun hzero => ?_⟩
    have hnil : owned = [] := List.length_eq_zero_iff.mp (hlen.trans hzero)
    subst hnil
    exact howns.cells.cells_none

theorem heap_is_owned_colormap : ∃ bound, ∀ fuel, bound ≤ fuel → ∃ replies h,
    session failingWorld (some colormapConfig) 1 fuel [.new (ascii "colormap"), .call 0 () .next,
      .call 0 () .clone, .free 0, .call 0 () .find, .free 0] [] Heap.empty =
        .ok ((replies, []), h) ∧ ∀ a, h.cells a = none := by
  have hnew : pathcompNew (some colormapConfig) 1 (ascii "colormap") =
      .ok colormapComposer := by rfl
  obtain ⟨_, _, hcarried⟩ := heap_is_owned failingWorld (some colormapConfig) 1
    [.new (ascii "colormap"), .call 0 () .next, .call 0 () .clone, .free 0, .call 0 () .find,
      .free 0]
  obtain ⟨bound, hbound⟩ := hcarried
    ⟨⟨_, hnew⟩, Nat.zero_lt_one, Nat.zero_lt_one, trivial, Nat.zero_lt_one,
      trivial, trivial⟩
  refine ⟨bound, fun fuel hfuel => ?_⟩
  obtain ⟨replies, owned, h, hrun, _, hlen, hempty⟩ := hbound fuel hfuel
  have hnil : owned = [] := List.length_eq_zero_iff.mp hlen
  subst hnil
  exact ⟨replies, h, hrun, hempty rfl⟩

end Pathcomp.Ownership
