import Mathlib.Data.Nat.Find
import Pathcomp.Directories

set_option autoImplicit false

/-!
# The calls of `mkdir`

The system is known only through the outcomes of its calls, one after the other.
The calls are recorded.
-/
namespace Pathcomp.MkdirCalls
open Bytes Composers Evaluation Directories

def isCut (path : Text) (i : ℕ) : Bool :=
  0 < i ∧ path[i]? = some slash ∧ path[i - 1]? ≠ some slash

def cuts (path : Text) : List ℕ := (List.range path.length).filter (isCut path)

def parents (path : Text) : List Text := (cuts path).map path.take

/-- The system call; the state is what it has been called with so far. -/
def answering (outcomes : ℕ → MkdirResult) (calls : List Text) (path : Text) :
    MkdirResult × List Text :=
  (outcomes calls.length, calls ++ [path])

/-- One call after the other, up to one that fails. -/
def attempts {σ : Type} (mkdir : σ → Text → MkdirResult × σ) :
    List Text → σ → Int × σ
  | [], s => (0, s)
  | path :: paths, s =>
    if (mkdir s path).1 = .failed then (-1, (mkdir s path).2)
    else attempts mkdir paths (mkdir s path).2

def cutsFrom (path : Text) (n : ℕ) : List ℕ :=
  (List.range' n (path.length - n)).filter (isCut path)

theorem cutsFrom_zero (path : Text) : cutsFrom path 0 = cuts path := by
  rw [cutsFrom, cuts, Nat.sub_zero, List.range_eq_range']

theorem cutsFrom_length (path : Text) : cutsFrom path path.length = [] := by
  rw [cutsFrom, Nat.sub_self]
  rfl

theorem cutsFrom_skip {path : Text} {n p : ℕ} (hnp : n ≤ p) (hp : p ≤ path.length)
    (h : ∀ i, n ≤ i → i < p → isCut path i = false) :
    cutsFrom path n = cutsFrom path p := by
  obtain ⟨k, rfl⟩ := Nat.exists_eq_add_of_le hnp
  have hrange : List.range' n (path.length - n) =
      List.range' n k ++ List.range' (n + k) (path.length - (n + k)) := by
    rw [List.range'_append_1]
    congr 1
    omega
  have hnone : (List.range' n k).filter (isCut path) = [] := by
    rw [List.filter_eq_nil_iff]
    intro i hi
    obtain ⟨hlow, hhigh⟩ := List.mem_range'_1.mp hi
    simp [h i hlow hhigh]
  rw [cutsFrom, hrange, List.filter_append, hnone, List.nil_append, cutsFrom]

theorem cutsFrom_cons {path : Text} {n : ℕ} (hn : n < path.length) (h : isCut path n = true) :
    cutsFrom path n = n :: cutsFrom path (n + 1) := by
  rw [cutsFrom, show path.length - n = path.length - (n + 1) + 1 by omega, List.range'_succ,
    List.filter_cons_of_pos h, cutsFrom]

section Splitting
variable {front rest lead comp tail after : Text}
  (hfront : front = [] ∨ ∃ f, front = f ++ [slash])

include hfront in
theorem slashes_behind (h : Split rest lead comp tail) {i : ℕ}
    (hlow : front.length ≤ i + 1) (hhigh : i < (front ++ lead).length) :
    (front ++ lead)[i]? = some slash := by
  rcases hfront with rfl | ⟨f, rfl⟩
  · rw [List.nil_append] at hhigh ⊢
    rw [List.getElem?_eq_getElem hhigh, h.slashes _ (List.getElem_mem hhigh)]
  · rw [List.length_append, List.length_singleton] at hlow
    rw [List.append_assoc, List.length_append] at hhigh
    rw [List.append_assoc, List.getElem?_append_right (by omega)]
    have hall : ∀ b ∈ [slash] ++ lead, b = slash := by
      intro b hb
      rcases List.mem_append.mp hb with hb | hb
      · exact List.mem_singleton.mp hb
      · exact h.slashes b hb
    have hi : i - f.length < ([slash] ++ lead).length := by omega
    rw [List.getElem?_eq_getElem hi, hall _ (List.getElem_mem hi)]

include hfront in
theorem no_cut_before (h : Split rest lead comp tail) {i : ℕ} (hlow : front.length ≤ i)
    (hhigh : i < (front ++ (lead ++ comp)).length) : isCut (front ++ rest) i = false := by
  have hpath : front ++ rest = (front ++ lead) ++ (comp ++ tail) := by
    rw [h.eq, List.append_assoc]
  rw [isCut, decide_eq_false_iff_not, hpath]
  rintro ⟨hi, hslash, hbefore⟩
  by_cases hlead : i < (front ++ lead).length
  · apply hbefore
    rw [List.getElem?_append_left (by omega)]
    exact slashes_behind hfront h (by omega) (by omega)
  · rw [← List.append_assoc, List.length_append] at hhigh
    have hcomp : i - (front ++ lead).length < comp.length := by omega
    rw [List.getElem?_append_right (by omega), List.getElem?_append_left hcomp,
      List.getElem?_eq_getElem hcomp, Option.some.injEq] at hslash
    exact h.plain _ (List.getElem_mem hcomp) hslash

theorem cut_after (h : Split rest lead comp (slash :: after)) :
    isCut (front ++ rest) (front ++ (lead ++ comp)).length = true := by
  have hne : comp ≠ [] := (h.ends.resolve_left (by simp)).1
  obtain ⟨start, b, rfl⟩ : ∃ start b, comp = start ++ [b] :=
    ⟨comp.dropLast, comp.getLast hne, (List.dropLast_append_getLast hne).symm⟩
  have hb : b ≠ slash := h.plain b (by simp)
  have hpath : front ++ rest = (front ++ (lead ++ (start ++ [b]))) ++ slash :: after := by
    rw [h.eq]
    simp
  have hlast : front ++ (lead ++ (start ++ [b])) = (front ++ (lead ++ start)) ++ [b] := by simp
  have hlength : (front ++ (lead ++ (start ++ [b]))).length =
      (front ++ (lead ++ start)).length + 1 := by
    rw [hlast, List.length_append, List.length_singleton]
  rw [isCut, decide_eq_true_eq, hpath]
  refine ⟨by omega, by simp, ?_⟩
  rw [List.getElem?_append_left (by omega), hlength, Nat.add_sub_cancel, hlast,
    List.getElem?_concat_length, ne_eq, Option.some.injEq]
  exact hb

end Splitting

theorem mkdirLoop_attempts {σ : Type} (mkdir : σ → Text → MkdirResult × σ) {fuel : ℕ}
    {front rest : Text} (s : σ) (hfuel : rest.length < fuel)
    (hnul : ∀ b ∈ front ++ rest, b ≠ 0)
    (hfront : front = [] ∨ ∃ f, front = f ++ [slash]) :
    mkdirLoop mkdir fuel (front ++ rest) front.length s =
      .ok (attempts mkdir
        ((cutsFrom (front ++ rest) front.length).map (front ++ rest).take) s) := by
  induction fuel generalizing front rest s with
  | zero => omega
  | succ fuel ih =>
    obtain ⟨lead, comp, ⟨hsplit, hround⟩ | ⟨after, hsplit, hrest, hround⟩⟩ :=
      mkdirLoop_round mkdir fuel s hnul
    · have hend : front ++ rest = front ++ (lead ++ comp) := by rw [hsplit.eq, List.append_nil]
      rw [hround, cutsFrom_skip (by simp) (by rw [hend])
        (fun i => no_cut_before hfront hsplit), ← hend, cutsFrom_length]
      rfl
    · have hpath : front ++ rest = (front ++ (lead ++ comp)) ++ slash :: after := by
        rw [← hrest]
        simp
      have hlength : (front ++ (lead ++ comp) ++ [slash]).length =
          (front ++ (lead ++ comp)).length + 1 := by
        rw [List.length_append, List.length_singleton]
      have hnext (t : σ) := @ih (front ++ (lead ++ comp) ++ [slash]) after t
        (by have := hsplit.length_lt; omega) (hrest ▸ hnul) (.inr ⟨_, rfl⟩)
      have htake : (front ++ rest).take (front ++ (lead ++ comp)).length =
          front ++ (lead ++ comp) := by
        rw [hpath, List.take_left]
      rw [hround, hnext, hrest, hlength, cutsFrom_skip (by simp) (by rw [hpath]; simp)
        (fun i => no_cut_before hfront hsplit), cutsFrom_cons (by rw [hpath]; simp)
        (cut_after hsplit), List.map_cons, attempts, htake]
      split
      · rfl
      · rfl

theorem attempts_none {outcomes : ℕ → MkdirResult} {paths calls : List Text}
    (h : ∀ k < paths.length, outcomes (calls.length + k) ≠ .failed) :
    attempts (answering outcomes) paths calls = (0, calls ++ paths) := by
  induction paths generalizing calls with
  | nil => rw [attempts, List.append_nil]
  | cons path paths ih =>
    have hhead : outcomes calls.length ≠ .failed := h 0 (by simp)
    rw [attempts, answering, if_neg hhead, ih, List.append_assoc, List.singleton_append]
    intro k hk
    rw [List.length_append, List.length_singleton, Nat.add_right_comm, Nat.add_assoc]
    exact h (k + 1) (by simpa using hk)

theorem attempts_failed {outcomes : ℕ → MkdirResult} {paths calls : List Text} {k : ℕ}
    (hk : k < paths.length) (hfailed : outcomes (calls.length + k) = .failed)
    (h : ∀ j < k, outcomes (calls.length + j) ≠ .failed) :
    attempts (answering outcomes) paths calls = (-1, calls ++ paths.take (k + 1)) := by
  induction paths generalizing calls k with
  | nil => simp at hk
  | cons path paths ih =>
    cases k with
    | zero =>
      have hhead : outcomes calls.length = .failed := hfailed
      rw [attempts, answering, if_pos hhead]
      rfl
    | succ k =>
      have hshift (j : ℕ) : (calls ++ [path]).length + j = calls.length + (j + 1) := by
        rw [List.length_append, List.length_singleton]
        omega
      have hhead : outcomes calls.length ≠ .failed := h 0 (by omega)
      have hrest := @ih (calls ++ [path]) k (by simpa using hk) (by rw [hshift]; exact hfailed)
        (fun j hj => by rw [hshift]; exact h (j + 1) (by omega))
      rw [attempts, answering, if_neg hhead, hrest, List.append_assoc, List.singleton_append,
        List.take_succ_cons]

/-- `mkdir` is called with the path up to each slash that ends a component, from the
    first to the last, until one of the calls fails. -/
theorem mkdir_calls_exact (lua : Lua) (depth : ℕ) (c : Composer) (path : Text)
    (hyield : (pathcompYield lua depth c).1 = some path) (hnul : ∀ b ∈ path, b ≠ 0)
    (outcomes : ℕ → MkdirResult) :
    ∃ rc calls, pathcompMkdir lua depth (answering outcomes) c [] =
        .ok (rc, (pathcompYield lua depth c).2, calls) ∧
      ((∀ k < (parents path).length, outcomes k ≠ .failed) → rc = 0 ∧
        calls = parents path) ∧
      (∀ k < (parents path).length, outcomes k = .failed →
        (∀ j < k, outcomes j ≠ .failed) →
        rc = -1 ∧ calls = (parents path).take (k + 1)) ∧
      (rc = -1 ↔ ∃ k < calls.length, outcomes k = .failed) ∧
      (rc = 0 ↔ ∀ k < calls.length, outcomes k ≠ .failed) := by
  have hloop := @mkdirLoop_attempts _ (answering outcomes) (path.length + 1) [] path []
    (by omega) hnul (.inl rfl)
  rw [List.nil_append, List.length_nil, cutsFrom_zero] at hloop
  have hcall : pathcompMkdir lua depth (answering outcomes) c [] =
      .ok ((attempts (answering outcomes) (parents path) []).1, (pathcompYield lua depth c).2,
        (attempts (answering outcomes) (parents path) []).2) := by
    simp only [pathcompMkdir, hyield, hloop]
    rfl
  refine ⟨_, _, hcall, ?_⟩
  by_cases hall : ∀ k < (parents path).length, outcomes k ≠ .failed
  · have hrun : attempts (answering outcomes) (parents path) [] = (0, parents path) :=
      attempts_none (by simpa using hall)
    rw [hrun]
    refine ⟨fun _ => ⟨rfl, rfl⟩, fun k hk hfailed _ => absurd hfailed (hall k hk), ?_, ?_⟩
    · refine iff_of_false (show (0 : Int) ≠ -1 by decide) ?_
      rintro ⟨k, hk, hfailed⟩
      exact hall k hk hfailed
    · exact iff_of_true rfl hall
  · have hsome : ∃ k, k < (parents path).length ∧ outcomes k = .failed := by
      simpa using hall
    obtain ⟨hk, hfailed⟩ := Nat.find_spec hsome
    have hmin : ∀ j < Nat.find hsome, outcomes j ≠ .failed := by
      intro j hj hbad
      exact Nat.find_min hsome hj ⟨by omega, hbad⟩
    have hrun : attempts (answering outcomes) (parents path) [] =
        (-1, (parents path).take (Nat.find hsome + 1)) :=
      attempts_failed hk (by simpa using hfailed) (by simpa using hmin)
    have hlast : Nat.find hsome < ((parents path).take (Nat.find hsome + 1)).length := by
      rw [List.length_take]
      omega
    rw [hrun]
    refine ⟨fun h => absurd h hall, fun k hk' hbad hfirst => ?_, ?_, ?_⟩
    · have hsame : k = Nat.find hsome := by
        by_contra hne
        rcases Nat.lt_or_gt_of_ne hne with hlt | hgt
        · exact hmin k hlt hbad
        · exact hfirst _ hgt hfailed
      rw [hsame]
      exact ⟨rfl, rfl⟩
    · exact iff_of_true rfl ⟨_, hlast, hfailed⟩
    · refine iff_of_false (show (-1 : Int) ≠ 0 by decide) ?_
      intro h
      exact h _ hlast hfailed

/-- The second call fails on a path with a slash too many. -/
theorem mkdir_calls_exact_twice :
    ∃ rc calls, pathcompMkdir (fun _ => .finish none) 1
        (answering fun k => if k = 1 then .failed else .eexist) logComposer [] =
        .ok (rc, (pathcompYield (fun _ => .finish none) 1 logComposer).2, calls) ∧
      rc = -1 ∧ calls = [ascii "/a", ascii "/a//b"] := by
  obtain ⟨rc, calls, hrun, _, hfailed, _⟩ :=
    mkdir_calls_exact (fun _ => .finish none) 1 logComposer
    (ascii "/a//b/c") rfl (by decide) fun k => if k = 1 then .failed else .eexist
  exact ⟨rc, calls, hrun, hfailed 1 (by decide) (by decide) (by decide)⟩

end Pathcomp.MkdirCalls
