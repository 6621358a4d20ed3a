import Pathcomp.Iteration

set_option autoImplicit false

/-!
# Searching for existing pathnames

`pathcomp_find` walks the combinations that the iterator has left. A search
position is a number of calls of `pathcomp_next`; `Standing c k x` says that
`x` is, up to caches, the composer after `k` calls on `c` with `started` set.
-/
namespace Pathcomp.Search
open Bytes Config Values Attributes Composers Evaluation Purity Odometer Wheels Reachability
  Iteration

section Find
variable (lua : Lua) (depth : ℕ) (pathExists : Text → Bool)

/-- `n` successive calls of `pathcomp_find` with what they return. -/
def findTimes (fuel : ℕ) : ℕ → Composer → Except Halt (List (Option Text) × Composer)
  | 0, c => .ok ([], c)
  | n + 1, c =>
    match pathcompFind lua depth pathExists fuel c with
    | .error halt => .error halt
    | .ok (path, d) =>
      match findTimes fuel n d with
      | .error halt => .error halt
      | .ok (paths, e) => .ok (path :: paths, e)

def pathAt (c : Composer) (k : ℕ) : Option Text := (pathcompYield lua depth (after k c)).1

/-- The combination after `k` calls yields a path, and this path exists. -/
def hit (c : Composer) (k : ℕ) : Bool :=
  match pathAt lua depth c k with
  | none => false
  | some path => pathExists path

def remaining (c : Composer) : ℕ := combinationCount c - combinationIndex c

def hitsFrom (c : Composer) (k : ℕ) : List ℕ :=
  (List.range' k (remaining c - k)).filter (hit lua depth pathExists c)

/-- The existing combinations, starting with the current one, or with the one
    after it when a search has been started before. -/
def hits (c : Composer) : List ℕ :=
  hitsFrom lua depth pathExists c (if c.started then 1 else 0)

end Find

theorem attNext_erase (att : Att) :
    attNext att.erase = ((attNext att).1, (attNext att).2.erase) := by
  unfold attNext Att.erase
  cases hc : att.current <;> simp [listNext, hc]

theorem attRewind_erase (att : Att) : attRewind att.erase = (attRewind att).erase := by
  simp [attRewind, Att.erase, listFirst]

theorem nextLoop_erase (atts : List Att) :
    nextLoop (atts.map Att.erase) = ((nextLoop atts).1, (nextLoop atts).2.map Att.erase) := by
  induction atts with
  | nil => rfl
  | cons att atts ih =>
    simp only [List.map_cons, nextLoop, attNext_erase, ih, attRewind_erase]
    split <;> rfl

theorem pathcompNext_congr {x y : Composer} (h : SameCombination x y) (hd : x.done = y.done) :
    SameCombination (pathcompNext x).2 (pathcompNext y).2 ∧
      (pathcompNext x).2.done = (pathcompNext y).2.done ∧
      (pathcompNext x).2.started = x.started := by
  have hx := nextLoop_erase x.attributes
  have hy := nextLoop_erase y.attributes
  have hxy : x.attributes.map Att.erase = y.attributes.map Att.erase := h
  rw [hxy, hy, Prod.mk.injEq] at hx
  obtain ⟨hf, ha⟩ := hx
  unfold pathcompNext
  cases hdone : y.done with
  | true =>
    rw [hdone] at hd
    simpa [hd, hdone] using h
  | false =>
    rw [hdone] at hd
    simp only [hd, Bool.false_eq_true, ↓reduceIte, ← hf]
    split <;> simp [SameCombination, Composer.erase, ha]

structure Standing (c : Composer) (k : ℕ) (x : Composer) : Prop where
  same : SameCombination x (after k c)
  done : x.done = (after k c).done
  started : x.started = true

theorem Standing.next {c x : Composer} {k : ℕ} (h : Standing c k x) :
    Standing c (k + 1) { (pathcompNext x).2 with started := true } := by
  obtain ⟨hs, hd, _⟩ := pathcompNext_congr h.same h.done
  exact ⟨hs, hd, rfl⟩

theorem Standing.congr {c x y : Composer} {k : ℕ} (h : Standing c k x) (he : y.erase = x.erase) :
    Standing c k y := by
  refine ⟨?_, ?_, ?_⟩
  · rw [SameCombination, he]
    exact h.same
  · exact (congrArg Composer.done he).trans h.done
  · exact (congrArg Composer.started he).trans h.started

section Ends
variable {c : Composer} (hr : Representation c) (hd : c.done = false)
include hr hd

theorem after_not_done {k : ℕ} (hk : k < remaining c) : (after k c).done = false := by
  obtain ⟨ps, _, _, ha⟩ := after_moveTo hr hd hk
  rw [ha]
  exact hd

theorem after_remaining : (after (remaining c) c).done = true := by
  have hlt := combinationIndex_lt hr
  obtain ⟨m, hm⟩ : ∃ m, remaining c = m + 1 :=
    ⟨remaining c - 1, by unfold remaining; omega⟩
  rw [hm, after, next_after_last hr hd hm.symm]

theorem after_is_done {k : ℕ} (hk : remaining c ≤ k) : (after k c).done = true := by
  have h := after_remaining hr hd
  obtain ⟨j, rfl⟩ : ∃ j, k = remaining c + j := ⟨k - remaining c, by omega⟩
  rw [after_add, after_done h]
  exact h

end Ends

theorem pathcompFind_mono {lua : Lua} {depth : ℕ} {pathExists : Text → Bool} {n m : ℕ}
    (hnm : n ≤ m) {c : Composer} {x : Option Text × Composer}
    (h : pathcompFind lua depth pathExists n c = .ok x) :
    pathcompFind lua depth pathExists m c = .ok x := by
  induction n generalizing m c with
  | zero => cases h
  | succ n ih =>
    obtain ⟨k, rfl⟩ : ∃ k, m = k + 1 := ⟨m - 1, by omega⟩
    have hk : n ≤ k := by omega
    rw [pathcompFind_succ] at h ⊢
    by_cases hdone : (advance c).done
    · rw [if_pos hdone] at h ⊢
      exact h
    · rw [if_neg hdone] at h ⊢
      cases hpath : (pathcompYield lua depth (advance c)).1 with
      | none =>
        rw [hpath] at h
        exact ih hk h
      | some path =>
        rw [hpath] at h
        by_cases hexists : pathExists path
        · simp only [hexists, ↓reduceIte] at h ⊢
          exact h
        · simp only [hexists, Bool.false_eq_true, ↓reduceIte] at h ⊢
          exact ih hk h

section Round
variable (lua : Lua) (depth : ℕ) (pathExists : Text → Bool) {c : Composer}

theorem find_round (hr : Representation c) (hd : c.done = false) {x : Composer} {k : ℕ}
    (fuel : ℕ) (hs : Standing c k (advance x)) :
    ∃ y, Standing c k y ∧ pathcompFind lua depth pathExists (fuel + 1) x =
      if remaining c ≤ k then .ok (none, y)
      else if hit lua depth pathExists c k then .ok (pathAt lua depth c k, y)
      else pathcompFind lua depth pathExists fuel y := by
  rw [pathcompFind_succ]
  by_cases hk : remaining c ≤ k
  · have hdone := hs.done.trans (after_is_done hr hd hk)
    exact ⟨advance x, hs, by rw [if_pos hdone, if_pos hk]⟩
  · have hdone := hs.done.trans (after_not_done hr hd (Nat.lt_of_not_le hk))
    have hpure := pathcompYield_pure lua depth
    have hpath : (pathcompYield lua depth (advance x)).1 = pathAt lua depth c k :=
      hpure.same hs.same
    refine ⟨(pathcompYield lua depth (advance x)).2, hs.congr (hpure.frame _), ?_⟩
    rw [if_neg (by simp [hdone]), if_neg hk, hpath, hit]
    cases hp : pathAt lua depth c k with
    | none => rfl
    | some path => rfl

theorem hitsFrom_step {k : ℕ} (hk : k < remaining c) :
    hitsFrom lua depth pathExists c k =
      if hit lua depth pathExists c k then k :: hitsFrom lua depth pathExists c (k + 1)
      else hitsFrom lua depth pathExists c (k + 1) := by
  unfold hitsFrom
  obtain ⟨m, hm⟩ : ∃ m, remaining c - k = m + 1 := ⟨remaining c - k - 1, by omega⟩
  rw [hm, List.range'_succ, List.filter_cons, show remaining c - (k + 1) = m by omega]

theorem hitsFrom_end {k : ℕ} (hk : remaining c ≤ k) :
    hitsFrom lua depth pathExists c k = [] := by
  unfold hitsFrom
  rw [show remaining c - k = 0 by omega]
  rfl

def Poised (c : Composer) (k : ℕ) (x : Composer) : Prop := Standing c k (advance x)

theorem Standing.poised {x : Composer} {k : ℕ} (h : Standing c k x) : Poised c (k + 1) x := by
  unfold Poised advance
  rw [if_pos h.started]
  exact h.next

theorem poised_start (c : Composer) : Poised c (if c.started then 1 else 0) c := by
  unfold Poised advance
  cases hs : c.started with
  | true => exact ⟨rfl, rfl, rfl⟩
  | false => exact ⟨rfl, rfl, rfl⟩

theorem find_call (hr : Representation c) (hd : c.done = false) {x : Composer} {k fuel : ℕ}
    (hx : Poised c k x) (hfuel : remaining c - k < fuel) :
    ∃ y, match hitsFrom lua depth pathExists c k with
      | [] => pathcompFind lua depth pathExists fuel x = .ok (none, y) ∧
          ∃ j, remaining c ≤ j ∧ Standing c j y
      | m :: rest => pathcompFind lua depth pathExists fuel x = .ok (pathAt lua depth c m, y) ∧
          m < remaining c ∧ Standing c m y ∧
          rest = hitsFrom lua depth pathExists c (m + 1) := by
  -- on the fuel: a miss leaves one round and one position less
  induction fuel generalizing x k with
  | zero => omega
  | succ fuel ih =>
    obtain ⟨y, hy, hround⟩ := find_round lua depth pathExists hr hd fuel hx
    by_cases hk : remaining c ≤ k
    · rw [if_pos hk] at hround
      rw [hitsFrom_end lua depth pathExists hk]
      exact ⟨y, hround, k, hk, hy⟩
    · rw [if_neg hk] at hround
      rw [hitsFrom_step lua depth pathExists (by omega)]
      by_cases hh : hit lua depth pathExists c k = true
      · rw [if_pos hh] at hround ⊢
        exact ⟨y, hround, by omega, hy, rfl⟩
      · rw [if_neg hh] at hround ⊢
        rw [hround]
        exact ih hy.poised (by omega)

/-- The paths that `n` calls return when the search tests position `k` next. -/
def pathsFrom (c : Composer) (k n : ℕ) : List (Option Text) :=
  ((hitsFrom lua depth pathExists c k).map (pathAt lua depth c)).take n ++
    .replicate (n - (hitsFrom lua depth pathExists c k).length) none

/-- Where `n + 1` calls leave the search: at the last hit, or past the end. -/
def LeftAt (c : Composer) (k n : ℕ) (y : Composer) : Prop :=
  match (hitsFrom lua depth pathExists c k)[n]? with
  | some m => m < remaining c ∧ Standing c m y
  | none => ∃ j, remaining c ≤ j ∧ Standing c j y

theorem findTimes_poised (hr : Representation c) (hd : c.done = false) {x : Composer} {k fuel : ℕ}
    (hx : Poised c k x) (hfuel : remaining c < fuel) (n : ℕ) :
    ∃ y, findTimes lua depth pathExists fuel (n + 1) x =
        .ok (pathsFrom lua depth pathExists c k (n + 1), y) ∧
      LeftAt lua depth pathExists c k n y := by
  induction n generalizing x k with
  | zero =>
    obtain ⟨y, hy⟩ := find_call lua depth pathExists hr hd hx
      (Nat.lt_of_le_of_lt (Nat.sub_le _ k) hfuel)
    refine ⟨y, ?_⟩
    unfold LeftAt pathsFrom
    cases hh : hitsFrom lua depth pathExists c k with
    | nil =>
      rw [hh] at hy
      exact ⟨by simp [findTimes, hy.1], hy.2⟩
    | cons m rest =>
      rw [hh] at hy
      exact ⟨by simp [findTimes, hy.1], hy.2.1, hy.2.2.1⟩
  | succ n ih =>
    obtain ⟨y, hy⟩ := find_call lua depth pathExists hr hd hx
      (Nat.lt_of_le_of_lt (Nat.sub_le _ k) hfuel)
    unfold LeftAt pathsFrom
    rw [findTimes]
    cases hh : hitsFrom lua depth pathExists c k with
    | nil =>
      rw [hh] at hy
      obtain ⟨hcall, j, hj, hst⟩ := hy
      obtain ⟨e, he, hl⟩ := ih hst.poised
      have hnil : hitsFrom lua depth pathExists c (j + 1) = [] := hitsFrom_end _ _ _ (by omega)
      refine ⟨e, ?_, ?_⟩
      · simp [hcall, he, pathsFrom, hnil, List.replicate_succ]
      · simpa [LeftAt, hnil] using hl
    | cons m rest =>
      rw [hh] at hy
      obtain ⟨hcall, _, hst, hrest⟩ := hy
      obtain ⟨e, he, hl⟩ := ih hst.poised
      refine ⟨e, ?_, ?_⟩
      · simp [hcall, he, pathsFrom, hrest]
      · simpa [LeftAt, hrest] using hl

end Round

/-- Successive calls of `pathcomp_find` return the paths of exactly the existing
    combinations from the search position on, in the order of the iterator, and
    stand at the combination returned; then they return NULL with the iteration
    done. Each call ends within one round more than there are combinations. -/
theorem find_enumerates (config : Option Cf) (c : Composer) (hc : Reachable config c)
    (hd : c.done = false) (lua : Lua) (depth : ℕ) (pathExists : Text → Bool) (fuel : ℕ)
    (hfuel : combinationCount c - combinationIndex c < fuel) (n : ℕ) :
    ∃ d, findTimes lua depth pathExists fuel n c =
        .ok (((hits lua depth pathExists c).map (pathAt lua depth c)).take n ++
          .replicate (n - (hits lua depth pathExists c).length) none, d) ∧
      (∀ k, 1 ≤ n → (hits lua depth pathExists c)[n - 1]? = some k →
        positions d.attributes = positions (after k c).attributes ∧ d.done = false ∧
        (pathcompYield lua depth d).1 = pathAt lua depth c k) ∧
      ((hits lua depth pathExists c).length < n → d.done = true) := by
  have hr := hc.representation
  cases n with
  | zero => exact ⟨c, by simp [findTimes], fun k h => by omega, fun h => by omega⟩
  | succ n =>
    obtain ⟨d, hcalls, hleft⟩ := findTimes_poised lua depth pathExists hr hd
      (poised_start c) hfuel n
    refine ⟨d, hcalls, ?_, ?_⟩
    · intro k _ hk
      simp only [LeftAt, Nat.add_sub_cancel] at hleft hk
      rw [show hitsFrom lua depth pathExists c (if c.started then 1 else 0) =
        hits lua depth pathExists c from rfl, hk] at hleft
      obtain ⟨hlt, hst⟩ := hleft
      refine ⟨?_, hst.done.trans (after_not_done hr hd hlt),
        (pathcompYield_pure lua depth).same hst.same⟩
      have hp : ∀ x : Composer, positions x.attributes = positions x.erase.attributes := by
        intro x
        simp [positions, Composer.erase, Function.comp_def, Att.erase]
      rw [hp d, hp (after k c), show d.erase.attributes = _ from hst.same]
    · intro hlen
      have hnone : (hits lua depth pathExists c)[n]? = none := by
        rw [List.getElem?_eq_none_iff]
        omega
      simp only [LeftAt] at hleft
      rw [show hitsFrom lua depth pathExists c (if c.started then 1 else 0) =
        hits lua depth pathExists c from rfl, hnone] at hleft
      obtain ⟨j, hj, hst⟩ := hleft
      exact hst.done.trans (after_is_done hr hd hj)

/-- Of the two roots only the second one exists; it is found once with each
    extension. -/
theorem find_enumerates_colormap :
    ∃ d, findTimes (fun _ => .finish none) 1 (· = ascii "/opt/") 5 3 colormapComposer =
        .ok ([some (ascii "/opt/"), some (ascii "/opt/"), none], d) ∧ d.done = true := by
  have hh : hits (fun _ => .finish none) 1 (· = ascii "/opt/") colormapComposer = [1, 3] := by
    decide
  obtain ⟨d, hcalls, _, hend⟩ := find_enumerates (some colormapConfig) colormapComposer
    colormap_reachable rfl (fun _ => .finish none) 1 (· = ascii "/opt/") 5 (by decide) 3
  rw [hh] at hcalls hend
  exact ⟨d, hcalls, hend (by decide)⟩

end Pathcomp.Search
