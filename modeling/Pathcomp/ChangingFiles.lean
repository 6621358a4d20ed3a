import Pathcomp.Search

set_option autoImplicit false

/-!
# Searching while files come and go

Between and during the calls of `pathcomp_find` the file system may change, and with
it what Lua functions return. A call of `stat` gets the answer of its moment and may
take time. Every combination is still looked at once, in the order of the iterator.
-/
namespace Pathcomp.ChangingFiles
open Bytes Config Values Attributes Composers Evaluation Purity Odometer Wheels Reachability
  Iteration Search

section World
variable {σ : Type} (lua : σ → Lua) (depth : ℕ) (stat : σ → Text → Bool × σ)

/-- The loop of `pathcomp_find` in a world that changes. -/
def pathcompFind (fuel : ℕ) (composer : Composer) (s : σ) :
    Except Halt (Option Text × Composer × σ) :=
  findWith (m := StateT (Composer × σ) (Except Halt))
    (fun (composer, s) => .ok ((), advance composer, s))
    (fun (composer, s) => .ok (pathcompDone composer, composer, s))
    (fun (composer, s) =>
      let (path, composer) := pathcompYield (lua s) depth composer
      .ok (path, composer, s))
    (fun path (composer, s) =>
      let (found, s) := stat s path
      .ok (found, composer, s)) fuel (composer, s)

def findAfter (fuel : ℕ) :
    List (σ → σ) → Composer → σ → Except Halt (List (Option Text) × Composer × σ)
  | [], c, s => .ok ([], c, s)
  | change :: changes, c, s =>
    match pathcompFind lua depth stat fuel c (change s) with
    | .error halt => .error halt
    | .ok (path, c, s) =>
      match findAfter fuel changes c s with
      | .error halt => .error halt
      | .ok (paths, c, s) => .ok (path :: paths, c, s)

/-- The combinations are taken from the list until one has a pathname that is found; the
    rest of the list is left. -/
def look (c : Composer) : List ℕ → σ → Option Text × List ℕ × σ
  | [], s => (none, [], s)
  | k :: rest, s =>
    match pathAt (lua s) depth c k with
    | none => look c rest s
    | some path => if (stat s path).1 then (some path, rest, (stat s path).2)
      else look c rest (stat s path).2

def lookAfter (c : Composer) : List (σ → σ) → List ℕ → σ →
    List (Option Text) × List ℕ × σ
  | [], todo, s => ([], todo, s)
  | change :: changes, todo, s =>
    let (path, todo, s) := look lua depth stat c todo (change s)
    let (paths, todo, s) := lookAfter c changes todo s
    (path :: paths, todo, s)

def todoFrom (c : Composer) (k : ℕ) : List ℕ := List.range' k (remaining c - k)

def todo (c : Composer) : List ℕ := todoFrom c (if c.started then 1 else 0)

end World

theorem todoFrom_end {c : Composer} {k : ℕ} (hk : remaining c ≤ k) : todoFrom c k = [] := by
  rw [todoFrom, show remaining c - k = 0 by omega]
  rfl

theorem todoFrom_step {c : Composer} {k : ℕ} (hk : k < remaining c) :
    todoFrom c k = k :: todoFrom c (k + 1) := by
  obtain ⟨m, hm⟩ : ∃ m, remaining c - k = m + 1 := ⟨remaining c - k - 1, by omega⟩
  rw [todoFrom, hm, List.range'_succ, todoFrom, show remaining c - (k + 1) = m by omega]

section Call
variable {σ : Type} (lua : σ → Lua) (depth : ℕ) (stat : σ → Text → Bool × σ)
  {c : Composer}

theorem pathcompFind_succ (fuel : ℕ) (x : Composer) (s : σ) :
    pathcompFind lua depth stat (fuel + 1) x s =
      if (advance x).done then .ok (none, advance x, s)
      else
        match (pathcompYield (lua s) depth (advance x)).1 with
        | none =>
          pathcompFind lua depth stat fuel (pathcompYield (lua s) depth (advance x)).2 s
        | some path =>
          if (stat s path).1 then
            .ok (some path, (pathcompYield (lua s) depth (advance x)).2, (stat s path).2)
          else pathcompFind lua depth stat fuel
            (pathcompYield (lua s) depth (advance x)).2 (stat s path).2 :=
  findWith_succ (fun y => (advance y.1, y.2)) (fun y => pathcompDone y.1)
    (fun y => ((pathcompYield (lua y.2) depth y.1).1, (pathcompYield (lua y.2) depth y.1).2, y.2))
    (fun y path => ((stat y.2 path).1, y.1, (stat y.2 path).2)) fuel (x, s)

/-- In a world that does not change this is the search in that world. -/
theorem pathcompFind_still (s : σ) (hstill : ∀ path, (stat s path).2 = s) (fuel : ℕ)
    (x : Composer) : pathcompFind lua depth stat fuel x s =
      (Evaluation.pathcompFind (lua s) depth (fun path => (stat s path).1) fuel x).map
        fun r => (r.1, r.2, s) := by
  induction fuel generalizing x with
  | zero => rfl
  | succ fuel ih =>
    rw [pathcompFind_succ, Evaluation.pathcompFind_succ]
    by_cases hdone : (advance x).done = true
    · rw [if_pos hdone, if_pos hdone]
      rfl
    rw [if_neg hdone, if_neg hdone]
    cases hpath : (pathcompYield (lua s) depth (advance x)).1 with
    | none => exact ih _
    | some path =>
      simp only [hstill]
      by_cases hfound : (stat s path).1 = true
      · rw [if_pos hfound, if_pos hfound]
        rfl
      · rw [if_neg hfound, if_neg hfound]
        exact ih _

theorem find_looks (hr : Representation c) (hd : c.done = false) {x : Composer} {k fuel : ℕ}
    (hx : Poised c k x) (hfuel : remaining c - k < fuel) (s : σ) :
    ∃ y j, pathcompFind lua depth stat fuel x s =
        .ok ((look lua depth stat c (todoFrom c k) s).1, y,
          (look lua depth stat c (todoFrom c k) s).2.2) ∧
      Poised c j y ∧ (look lua depth stat c (todoFrom c k) s).2.1 = todoFrom c j := by
  -- on the fuel: a combination that is not taken leaves one round less
  induction fuel generalizing x k s with
  | zero => omega
  | succ fuel ih =>
    have hs : Standing c k (advance x) := hx
    rw [pathcompFind_succ]
    by_cases hk : remaining c ≤ k
    · have hdone := hs.done.trans (after_is_done hr hd hk)
      rw [if_pos hdone, todoFrom_end hk]
      exact ⟨_, k + 1, rfl, hs.poised, (todoFrom_end (by omega)).symm⟩
    · have hdone := hs.done.trans (after_not_done hr hd (Nat.lt_of_not_le hk))
      have hpure := pathcompYield_pure (lua s) depth
      have hpath : (pathcompYield (lua s) depth (advance x)).1 = pathAt (lua s) depth c k :=
        hpure.same hs.same
      have hy : Standing c k (pathcompYield (lua s) depth (advance x)).2 :=
        hs.congr (hpure.frame _)
      rw [if_neg (by simp [hdone]), hpath, todoFrom_step (by omega)]
      simp only [look]
      cases hp : pathAt (lua s) depth c k with
      | none => exact ih hy.poised (by omega) s
      | some path =>
        by_cases hfound : (stat s path).1 = true
        · simp only [hfound, ↓reduceIte]
          exact ⟨_, k + 1, rfl, hy.poised, rfl⟩
        · simp only [hfound, Bool.false_eq_true, ↓reduceIte]
          exact ih hy.poised (by omega) (stat s path).2

theorem findAfter_looks (hr : Representation c) (hd : c.done = false) {x : Composer} {k fuel : ℕ}
    (hx : Poised c k x) (hfuel : remaining c < fuel) (changes : List (σ → σ)) (s : σ) :
    ∃ y j, findAfter lua depth stat fuel changes x s =
        .ok ((lookAfter lua depth stat c changes (todoFrom c k) s).1, y,
          (lookAfter lua depth stat c changes (todoFrom c k) s).2.2) ∧
      Poised c j y ∧ (lookAfter lua depth stat c changes (todoFrom c k) s).2.1 =
        todoFrom c j := by
  induction changes generalizing x k s with
  | nil => exact ⟨x, k, rfl, hx, rfl⟩
  | cons change changes ih =>
    obtain ⟨y, j, hcall, hy, htodo⟩ := find_looks lua depth stat hr hd hx
      (Nat.lt_of_le_of_lt (Nat.sub_le _ k) hfuel) (change s)
    obtain ⟨z, i, hcalls, hz, hrest⟩ :=
      ih hy (look lua depth stat c (todoFrom c k) (change s)).2.2
    simp only [findAfter, lookAfter, hcall, htodo, hcalls]
    exact ⟨z, i, rfl, hz, hrest⟩

end Call

section Trace
variable {σ : Type} (lua : σ → Lua) (depth : ℕ) (stat : σ → Text → Bool × σ)
  (c : Composer)

def recorded (s : σ × List Text) (path : Text) : Bool × σ × List Text :=
  ((stat s.1 path).1, (stat s.1 path).2, s.2 ++ [path])

def unrecorded (change : σ → σ) (s : σ × List Text) : σ × List Text := (change s.1, s.2)

variable (hpaths : ∀ s t k, pathAt (lua s) depth c k = pathAt (lua t) depth c k) (s₀ : σ)
include hpaths

theorem look_recorded (todo : List ℕ) (s : σ) (calls : List Text) :
    ∃ taken, todo = taken ++ (look lua depth stat c todo s).2.1 ∧
      look (fun x => lua x.1) depth (recorded stat) c todo (s, calls) =
        ((look lua depth stat c todo s).1, (look lua depth stat c todo s).2.1,
          (look lua depth stat c todo s).2.2,
          calls ++ taken.filterMap (pathAt (lua s₀) depth c)) ∧
      ((look lua depth stat c todo s).1 = none → (look lua depth stat c todo s).2.1 = []) := by
  induction todo generalizing s calls with
  | nil => exact ⟨[], rfl, by simp [look], fun _ => rfl⟩
  | cons k todo ih =>
    have hk := hpaths s s₀ k
    simp only [look]
    cases hp : pathAt (lua s) depth c k with
    | none =>
      obtain ⟨taken, htodo, hlook, hnone⟩ := ih s calls
      refine ⟨k :: taken, ?_, ?_, hnone⟩
      · rw [List.cons_append, ← htodo]
      · rw [List.filterMap_cons_none (hk.symm.trans hp)]
        exact hlook
    | some path =>
      have hcons (taken : List ℕ) :
          (k :: taken).filterMap (pathAt (lua s₀) depth c) =
            path :: taken.filterMap (pathAt (lua s₀) depth c) :=
        List.filterMap_cons_some (hk.symm.trans hp)
      by_cases hfound : (stat s path).1 = true
      · refine ⟨[k], ?_, ?_, ?_⟩
        · simp [hfound]
        · simp [recorded, hfound, hcons]
        · simp [hfound]
      · obtain ⟨taken, htodo, hlook, hnone⟩ := ih (stat s path).2 (calls ++ [path])
        refine ⟨k :: taken, ?_, ?_, ?_⟩
        · simp only [hfound, Bool.false_eq_true, ↓reduceIte, List.cons_append, ← htodo]
        · simp only [recorded, hfound, Bool.false_eq_true, ↓reduceIte, hcons]
          rw [hlook, List.append_assoc]
          rfl
        · simp only [hfound, Bool.false_eq_true, ↓reduceIte]
          exact hnone

theorem lookAfter_recorded (changes : List (σ → σ)) (todo : List ℕ) (s : σ)
    (calls : List Text) :
    ∃ taken, todo = taken ++ (lookAfter lua depth stat c changes todo s).2.1 ∧
      lookAfter (fun x => lua x.1) depth (recorded stat) c (changes.map unrecorded) todo
          (s, calls) =
        ((lookAfter lua depth stat c changes todo s).1,
          (lookAfter lua depth stat c changes todo s).2.1,
          (lookAfter lua depth stat c changes todo s).2.2,
          calls ++ taken.filterMap (pathAt (lua s₀) depth c)) ∧
      (none ∈ (lookAfter lua depth stat c changes todo s).1 →
        (lookAfter lua depth stat c changes todo s).2.1 = []) := by
  induction changes generalizing todo s calls with
  | nil => exact ⟨[], rfl, by simp [lookAfter], by simp [lookAfter]⟩
  | cons change changes ih =>
    obtain ⟨taken, htodo, hlook, hnone⟩ :=
      look_recorded lua depth stat c hpaths s₀ todo (change s) calls
    obtain ⟨later, hrest, hlater, hend⟩ := ih (look lua depth stat c todo (change s)).2.1
      (look lua depth stat c todo (change s)).2.2
      (calls ++ taken.filterMap (pathAt (lua s₀) depth c))
    simp only [lookAfter, List.map_cons, unrecorded, hlook, hlater]
    refine ⟨taken ++ later, ?_, ?_, fun hmem => ?_⟩
    · rw [List.append_assoc, ← hrest, ← htodo]
    · rw [List.filterMap_append, List.append_assoc]
    · rcases List.mem_cons.mp hmem with hfirst | hmem
      · -- the first of the calls has taken them all
        have hnil := hnone hfirst.symm
        rw [hnil] at hrest ⊢
        exact (List.append_eq_nil_iff.mp hrest.symm).2
      · exact hend hmem

end Trace

/-- However the world changes before and during the calls of `pathcomp_find`, they return
    what they find when they look at the combinations one after the other, each at its
    moment. If the pathnames themselves do not change, `stat` is called with those of a
    first part of the combinations, in order and once for each, and with those of all of
    them as soon as a call returns NULL. -/
theorem find_in_changing_world {σ : Type} (config : Option Cf) (c : Composer)
    (hc : Reachable config c) (hd : c.done = false) (lua : σ → Lua) (depth : ℕ)
    (stat : σ → Text → Bool × σ) (changes : List (σ → σ)) (s : σ) (fuel : ℕ)
    (hfuel : combinationCount c - combinationIndex c < fuel) :
    (∃ d, findAfter lua depth stat fuel changes c s =
      .ok ((lookAfter lua depth stat c changes (todo c) s).1, d,
        (lookAfter lua depth stat c changes (todo c) s).2.2)) ∧
    ((∀ s t k, pathAt (lua s) depth c k = pathAt (lua t) depth c k) →
      ∃ d taken rest, todo c = taken ++ rest ∧
      findAfter (fun x => lua x.1) depth (recorded stat) fuel (changes.map unrecorded) c (s, []) =
        .ok ((lookAfter lua depth stat c changes (todo c) s).1, d,
          (lookAfter lua depth stat c changes (todo c) s).2.2,
          taken.filterMap (pathAt (lua s) depth c)) ∧
      (none ∈ (lookAfter lua depth stat c changes (todo c) s).1 → rest = [])) := by
  have hr := hc.representation
  constructor
  · obtain ⟨d, _, hcalls, _, _⟩ :=
      findAfter_looks lua depth stat hr hd (poised_start c) hfuel changes s
    exact ⟨d, hcalls⟩
  · intro hpaths
    obtain ⟨d, _, hcalls, _, _⟩ := findAfter_looks (fun x : σ × List Text => lua x.1) depth
      (recorded stat) hr hd (poised_start c) hfuel (changes.map unrecorded) (s, [])
    obtain ⟨taken, htodo, hlook, hend⟩ :=
      lookAfter_recorded lua depth stat c hpaths s changes (todo c) s []
    refine ⟨d, taken, _, htodo, ?_, hend⟩
    change _ = Except.ok ((lookAfter _ depth (recorded stat) c _ (todo c) (s, [])).1, d,
      (lookAfter _ depth (recorded stat) c _ (todo c) (s, [])).2.2) at hcalls
    rw [hcalls, hlook]
    rfl

/-- The second root is there at first, and gone from time 3 on. -/
def appearing (time : ℕ) (path : Text) : Bool × ℕ :=
  (decide (path = ascii "/opt/" ∧ time < 3), time + 1)

theorem find_in_changing_world_colormap :
    ∃ d t, findAfter (fun _ _ => .finish none) 1 (recorded appearing) 5
      ([id, (· + 3)].map unrecorded) colormapComposer (0, []) =
        .ok ([some (ascii "/opt/"), none], d, t,
          [ascii "/usr/share/", ascii "/opt/", ascii "/usr/share/", ascii "/opt/"]) := by
  obtain ⟨d, taken, rest, htodo, hcalls, hend⟩ :=
    (find_in_changing_world (some colormapConfig) colormapComposer colormap_reachable rfl
      (fun _ _ => .finish none) 1 appearing [id, (· + 3)] 0 5 (by decide)).2 fun _ _ _ => rfl
  have hlook : (lookAfter (fun _ _ => .finish none) 1 appearing colormapComposer [id, (· + 3)]
      (todo colormapComposer) 0).1 = [some (ascii "/opt/"), none] := by decide +kernel
  rw [hlook] at hcalls hend
  rw [hend (by simp), List.append_nil] at htodo
  have hpaths : taken.filterMap (pathAt (fun _ => .finish none) 1 colormapComposer) =
      [ascii "/usr/share/", ascii "/opt/", ascii "/usr/share/", ascii "/opt/"] := by
    rw [← htodo]
    decide +kernel
  rw [hpaths] at hcalls
  exact ⟨d, _, hcalls⟩

end Pathcomp.ChangingFiles
