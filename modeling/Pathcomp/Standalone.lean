import Pathcomp.CommandLine
import Pathcomp.Files
import Pathcomp.Search

set_option autoImplicit false

/-!
# The stand-alone utility

`main` sets up a composer from the configuration file and the assignments on the
command line and prints pathnames, or values of an attribute, in a loop. With `-e`
the loop goes from one existing pathname to the next through `pathcomp_find`, else
from one combination to the next through `pathcomp_next`.
-/
namespace Pathcomp.Standalone
open Bytes Config Attributes Composers Evaluation Purity Reachability Iteration Search Files
  CommandLine

inductive Output where
  | puts (line : Text)
  | logError (message : Text)
  deriving DecidableEq, Repr

structure Options where
  className : Text
  attributes : List Kv
  printAll : Bool
  onlyExisting : Bool
  configFile : Text
  doMkdir : Bool
  evalAtt : Option Text
  deriving DecidableEq, Repr

/-- What the utility meets besides the calls of the library: files, and the text of
    the last error. -/
structure Machine (σ : Type) extends World σ where
  file : σ → Text → File
  strerror : σ → Text

/-- The bound is that of `file_like_string_iff`. -/
def pathcompAddConfigFromFile (config : Option Cf) (file : File) : Except Halt (Option Cf) :=
  match cfAddFromFile (size file.reads + 1) (config.getD ⟨[]⟩) file with
  | .error halt => .error halt
  | .ok (_, cf) => .ok (some cf)

def kvAddAll : List Kv → Composer → Except Halt Composer
  | [], composer => .ok composer
  | kv :: kvs, composer =>
    match kvAddToComposer kv composer with
    | .error halt => .error halt
    | .ok composer => kvAddAll kvs composer

section Main
variable {σ : Type} (m : Machine σ)

/-- The part of `main` before the loop; there is no configuration at first, and
    `nesting` bounds the recursion of `pathcomp_new`. -/
def setUp (nesting : ℕ) (options : Options) (s : σ) : Except Halt Composer :=
  match pathcompAddConfigFromFile none (m.file s options.configFile) with
  | .error halt => .error halt
  | .ok config =>
    match pathcompNew config nesting options.className with
    | .error halt => .error halt
    | .ok composer => kvAddAll options.attributes composer

def nextPath (options : Options) (fuel : ℕ) (composer : Composer) (s : σ) :
    Except Halt (Option Text × Composer) :=
  if options.onlyExisting then pathcompFind (m.lua s) m.depth (m.stat s) fuel composer
  else .ok (pathcompYield (m.lua s) m.depth composer)

def makeParents (options : Options) (composer : Composer) (s : σ) :
    Except Halt (List Output × Composer × σ) :=
  if options.doMkdir then
    match pathcompMkdir (m.lua s) m.depth (mkdirLogging m.mkdir m.strerror) composer (s, []) with
    | .error halt => .error halt
    | .ok (rc, composer, s, logged) =>
      .ok (logged.map .logError ++
        (if rc = -1 then [.logError (ascii "cannot create directory: " ++ m.strerror s)] else []),
        composer, s)
  else .ok ([], composer, s)

def printed (options : Options) (path : Text) (composer : Composer) (s : σ) :
    List Output × Composer :=
  match options.evalAtt with
  | none => ([.puts path], composer)
  | some name =>
    let (att, composer) := pathcompEval (m.lua s) m.depth composer name
    (att.toList.map .puts, composer)

def report (options : Options) (path : Option Text) (composer : Composer) (s : σ) :
    Except Halt (List Output × Composer × σ) :=
  match path with
  | none => .ok ([], composer, s)
  | some path =>
    match makeParents m options composer s with
    | .error halt => .error halt
    | .ok (logged, composer, s) =>
      let (lines, composer) := printed m options path composer s
      .ok (logged ++ lines, composer, s)

def prepend (lines : List Output) :
    Except Halt (List Output × σ) → Except Halt (List Output × σ)
  | .error halt => .error halt
  | .ok (more, s) => .ok (lines ++ more, s)

/-- The loop with a bound on its rounds, and on those of `pathcomp_find`. -/
def mainLoop (options : Options) : ℕ → Composer → σ → Except Halt (List Output × σ)
  | 0, _, _ => .error .bound
  | fuel + 1, composer, s =>
    if pathcompDone composer then .ok ([], s)
    else
      match nextPath m options (fuel + 1) composer s with
      | .error halt => .error halt
      | .ok (path, composer) =>
        match report m options path composer s with
        | .error halt => .error halt
        | .ok (lines, composer, s) =>
          if !options.printAll then .ok (lines, s)
          else
            -- `pathcomp_find` advances by itself when it is called again
            let composer := if !options.onlyExisting then (pathcompNext composer).2 else composer
            prepend lines (mainLoop options fuel composer s)

def main (nesting fuel : ℕ) (options : Options) (s : σ) : Except Halt (List Output × σ) :=
  match setUp m nesting options s with
  | .error halt => .error halt
  | .ok composer => mainLoop m options fuel composer s

end Main

/-- The same call with `-a`, `-e` and `-x` given or not, and without `-m`. -/
def Options.mode (options : Options) (printAll onlyExisting : Bool) (evalAtt : Option Text) :
    Options :=
  { options with printAll, onlyExisting, doMkdir := false, evalAtt }

section Listing
variable {σ : Type} (m : Machine σ) (s : σ)

/-- The combinations whose yield is not NULL, in the order of the iterator: the path
    and the value of an attribute. -/
def listing (c : Composer) (att : Text) : List (Text × Option Text) :=
  (List.range (combinationCount c)).filterMap fun k =>
    (pathcompYield (m.lua s) m.depth (after k c)).1.map fun path =>
      (path, (pathcompEval (m.lua s) m.depth (after k c) att).1)

/-- Those of them whose path exists. -/
def existing (c : Composer) (att : Text) : List (Text × Option Text) :=
  (listing m s c att).filter fun entry => m.stat s entry.1

/-- The call ends after these lines; nothing else has changed. -/
def Prints (nesting fuel : ℕ) (options : Options) (lines : List Text) : Prop :=
  main m nesting fuel options s = .ok (lines.map .puts, s)

end Listing

/-- A composer at its first combination. -/
structure Start (c : Composer) : Prop where
  representation : Representation c
  done : c.done = false
  first : ∀ att ∈ c.attributes, att.AtFirst
  started : c.started = false

theorem addOrReplace_start {c d : Composer} {name : Text} {v : Values.Value} {origin : Option Text}
    {action : Action} (hc : Start c) (h : pathcompAddOrReplace c name v origin action = .ok d) :
    Start d := by
  have hr := addOrReplace_representation hc.representation h
  have hf := addOrReplace_atFirst hc.representation hc.first h
  rcases addOrReplace_cases c name v origin action with ⟨_, he⟩ | he | he | he
  all_goals
    rw [he] at h
    cases h
    exact ⟨hr, hc.done, hf, hc.started⟩

theorem kvAddAll_start {kvs : List Kv} {c d : Composer} (hc : Start c)
    (h : kvAddAll kvs c = .ok d) : Start d := by
  induction kvs generalizing c with
  | nil =>
    cases h
    exact hc
  | cons kv kvs ih =>
    rw [kvAddAll] at h
    split at h
    · cases h
    · rename_i e he
      refine ih ?_ h
      unfold kvAddToComposer at he
      split at he
      · exact addOrReplace_start hc he
      · exact addOrReplace_start hc he

theorem pathcompNew_start {config : Option Cf} {depth : ℕ} {name : Text} {c : Composer}
    (h : pathcompNew config depth name = .ok c) : Start c := by
  obtain ⟨hdone, hfirst⟩ := pathcompNew_atFirst h
  refine ⟨pathcompNew_representation h, hdone, hfirst, ?_⟩
  unfold pathcompNew at h
  simp only at h
  split at h
  · cases h
  · cases h
    rfl

theorem setUp_start {σ : Type} {m : Machine σ} {nesting : ℕ} {options : Options} {s : σ}
    {c : Composer} (h : setUp m nesting options s = .ok c) : Start c := by
  unfold setUp at h
  split at h
  · cases h
  · split at h
    · cases h
    · rename_i d hd
      exact kvAddAll_start (pathcompNew_start hd) h

theorem Start.remaining_eq {c : Composer} (h : Start c) : remaining c = combinationCount c := by
  rw [remaining, combinationIndex_fresh h.representation h.first, Nat.sub_zero]

section Rounds
variable {σ : Type} (m : Machine σ) (s : σ)

/-- What a round prints at the combination after `k` calls of `pathcomp_next`. -/
def lineAt (evalAtt : Option Text) (c : Composer) (k : ℕ) : Option Text :=
  match pathAt (m.lua s) m.depth c k with
  | none => none
  | some path =>
    match evalAtt with
    | none => some path
    | some att => (pathcompEval (m.lua s) m.depth (after k c) att).1

theorem report_line {options : Options} (hmkdir : options.doMkdir = false)
    {c x : Composer} {k : ℕ} (hx : SameCombination x (after k c)) :
    ∃ y, y.erase = x.erase ∧ report m options (pathAt (m.lua s) m.depth c k) x s =
      .ok ((lineAt m s options.evalAtt c k).toList.map .puts, y, s) := by
  unfold lineAt
  cases hpath : pathAt (m.lua s) m.depth c k with
  | none => exact ⟨x, rfl, rfl⟩
  | some path =>
    have hparents : makeParents m options x s = .ok ([], x, s) := by
      rw [makeParents, hmkdir]
      rfl
    simp only [report, hparents, List.nil_append]
    unfold printed
    cases options.evalAtt with
    | none => exact ⟨x, rfl, rfl⟩
    | some att =>
      have hpure := pathcompEval_pure (m.lua s) m.depth att
      have hsame : (pathcompEval (m.lua s) m.depth x att).1 = _ := hpure.same hx
      exact ⟨(pathcompEval (m.lua s) m.depth x att).2, hpure.frame x, by simp only [hsame]⟩

theorem mainLoop_done {options : Options} {fuel : ℕ} {x : Composer} (h : x.done = true) :
    mainLoop m options (fuel + 1) x s = .ok ([], s) := by
  rw [mainLoop, pathcompDone, if_pos h]

theorem mainLoop_round {options : Options} (hmkdir : options.doMkdir = false) {fuel : ℕ}
    {c x y : Composer} {k : ℕ} (hdone : x.done = false)
    (hpath : nextPath m options (fuel + 1) x s = .ok (pathAt (m.lua s) m.depth c k, y))
    (hy : SameCombination y (after k c)) :
    ∃ z, z.erase = y.erase ∧ mainLoop m options (fuel + 1) x s =
      if !options.printAll then .ok ((lineAt m s options.evalAtt c k).toList.map .puts, s)
      else prepend ((lineAt m s options.evalAtt c k).toList.map .puts)
        (mainLoop m options fuel (if !options.onlyExisting then (pathcompNext z).2 else z) s) := by
  obtain ⟨z, hz, hreport⟩ := report_line m s hmkdir hy
  refine ⟨z, hz, ?_⟩
  rw [mainLoop, pathcompDone, if_neg (by simp [hdone]), hpath]
  simp only [hreport]

theorem mainLoop_none {options : Options} {fuel : ℕ} {x y : Composer} (hdone : x.done = false)
    (hpath : nextPath m options (fuel + 2) x s = .ok (none, y)) (hy : y.done = true)
    (he : options.onlyExisting = true) : mainLoop m options (fuel + 2) x s = .ok ([], s) := by
  rw [mainLoop, pathcompDone, if_neg (by simp [hdone]), hpath]
  simp only [report, he, Bool.not_true, Bool.false_eq_true, ↓reduceIte, mainLoop_done m s hy]
  split <;> rfl

end Rounds

section Loops
variable {σ : Type} (m : Machine σ) (s : σ) {c : Composer} (hr : Representation c)
  (hd : c.done = false) {options : Options} (hmkdir : options.doMkdir = false)
include hr hd hmkdir

/-- Without `-e` a round stands, up to caches, at the combination after `k` calls
    of `pathcomp_next`. -/
theorem mainLoop_all (ha : options.printAll = true) (he : options.onlyExisting = false)
    {fuel k : ℕ} {x : Composer} (hx : SameCombination x (after k c))
    (hdone : x.done = (after k c).done) (hfuel : remaining c - k < fuel) :
    mainLoop m options fuel x s =
      .ok (((List.range' k (remaining c - k)).filterMap
        (lineAt m s options.evalAtt c)).map .puts, s) := by
  induction fuel generalizing k x with
  | zero => omega
  | succ fuel ih =>
    by_cases hk : remaining c ≤ k
    · rw [mainLoop_done m s (hdone.trans (after_is_done hr hd hk)),
        show remaining c - k = 0 by omega]
      rfl
    · have hpure := pathcompYield_pure (m.lua s) m.depth
      have hpath : nextPath m options (fuel + 1) x s =
          .ok (pathAt (m.lua s) m.depth c k, (pathcompYield (m.lua s) m.depth x).2) := by
        rw [nextPath, he, pathAt, ← hpure.same hx]
        rfl
      have hy : SameCombination (pathcompYield (m.lua s) m.depth x).2 (after k c) := by
        rw [SameCombination, hpure.frame x]
        exact hx
      obtain ⟨z, hz, hround⟩ := mainLoop_round m s hmkdir
        (hdone.trans (after_not_done hr hd (by omega))) hpath hy
      have hzx : z.erase = x.erase := hz.trans (hpure.frame x)
      have hzc : SameCombination z (after k c) := by
        rw [SameCombination, hzx]
        exact hx
      obtain ⟨hsame, hnext, _⟩ := pathcompNext_congr hzc
        ((congrArg Composer.done hzx).trans hdone)
      have hrest := @ih (k + 1) (pathcompNext z).2 hsame hnext (by omega)
      rw [hround, ha, he]
      simp only [Bool.not_true, Bool.not_false, Bool.false_eq_true, ↓reduceIte, hrest]
      rw [show remaining c - k = remaining c - (k + 1) + 1 by omega, List.range'_succ,
        List.filterMap_cons]
      cases lineAt m s options.evalAtt c k with
      | none => rfl
      | some line => rfl

theorem mainLoop_existing_round (he : options.onlyExisting = true) {fuel k : ℕ} {x : Composer}
    (hx : Poised c k x) (hdone : x.done = false) (hfuel : remaining c - k < fuel + 2) :
    (hitsFrom (m.lua s) m.depth (m.stat s) c k = [] ∧
      mainLoop m options (fuel + 2) x s = .ok ([], s)) ∨
    ∃ j z, hitsFrom (m.lua s) m.depth (m.stat s) c k =
        j :: hitsFrom (m.lua s) m.depth (m.stat s) c (j + 1) ∧
      k ≤ j ∧ j < remaining c ∧ Standing c j z ∧ mainLoop m options (fuel + 2) x s =
        if !options.printAll then .ok ((lineAt m s options.evalAtt c j).toList.map .puts, s)
        else prepend ((lineAt m s options.evalAtt c j).toList.map .puts)
          (mainLoop m options (fuel + 1) z s) := by
  have hfind : nextPath m options (fuel + 2) x s =
      pathcompFind (m.lua s) m.depth (m.stat s) (fuel + 2) x := by
    rw [nextPath, he]
    rfl
  obtain ⟨y, hy⟩ := find_call (m.lua s) m.depth (m.stat s) hr hd hx hfuel
  cases hh : hitsFrom (m.lua s) m.depth (m.stat s) c k with
  | nil =>
    rw [hh] at hy
    obtain ⟨hcall, j, hj, hst⟩ := hy
    exact .inl ⟨rfl, mainLoop_none m s hdone (hfind.trans hcall)
      (hst.done.trans (after_is_done hr hd hj)) he⟩
  | cons j rest =>
    rw [hh] at hy
    obtain ⟨hcall, hj, hst, rfl⟩ := hy
    have hmem : j ∈ hitsFrom (m.lua s) m.depth (m.stat s) c k := by
      rw [hh]
      exact List.mem_cons_self
    have hkj : k ≤ j := (List.mem_range'_1.mp (List.mem_of_mem_filter hmem)).1
    obtain ⟨z, hz, hround⟩ := mainLoop_round m s hmkdir hdone (hfind.trans hcall) hst.same
    rw [he] at hround
    exact .inr ⟨j, z, rfl, hkj, hj, hst.congr hz, hround⟩

theorem mainLoop_existing (ha : options.printAll = true) (he : options.onlyExisting = true)
    {fuel k : ℕ} {x : Composer} (hx : Poised c k x) (hdone : x.done = false)
    (hfuel : remaining c - k < fuel) :
    mainLoop m options (fuel + 1) x s =
      .ok (((hitsFrom (m.lua s) m.depth (m.stat s) c k).filterMap
        (lineAt m s options.evalAtt c)).map .puts, s) := by
  induction fuel generalizing k x with
  | zero => omega
  | succ fuel ih =>
    have hround : remaining c - k < fuel + 2 := by omega
    rcases mainLoop_existing_round m s hr hd hmkdir he hx hdone hround with
      ⟨hnil, hloop⟩ | ⟨j, z, hcons, hkj, hj, hst, hloop⟩
    · rw [hloop, hnil]
      rfl
    · have hrest := ih hst.poised (hst.done.trans (after_not_done hr hd hj)) (by omega)
      rw [hloop, ha, hcons, hrest, List.filterMap_cons]
      cases lineAt m s options.evalAtt c j with
      | none => rfl
      | some line => rfl

theorem mainLoop_first_existing (ha : options.printAll = false) (he : options.onlyExisting = true)
    {fuel k : ℕ} {x : Composer} (hx : Poised c k x) (hdone : x.done = false)
    (hfuel : remaining c - k < fuel + 2) :
    mainLoop m options (fuel + 2) x s =
      .ok ((((hitsFrom (m.lua s) m.depth (m.stat s) c k).take 1).filterMap
        (lineAt m s options.evalAtt c)).map .puts, s) := by
  rcases mainLoop_existing_round m s hr hd hmkdir he hx hdone hfuel with
    ⟨hnil, hloop⟩ | ⟨j, z, hcons, _, _, _, hloop⟩
  · rw [hloop, hnil]
    rfl
  · rw [hloop, ha, hcons, List.take_succ_cons, List.take_zero, List.filterMap_cons]
    cases lineAt m s options.evalAtt c j with
    | none => rfl
    | some line => rfl

end Loops

section Lines
variable {σ : Type} (m : Machine σ) (s : σ)

def entryAt (c : Composer) (att : Text) (k : ℕ) : Option (Text × Option Text) :=
  (pathAt (m.lua s) m.depth c k).map fun path =>
    (path, (pathcompEval (m.lua s) m.depth (after k c) att).1)

theorem lineAt_path (c : Composer) (att : Text) (k : ℕ) :
    lineAt m s none c k = (entryAt m s c att k).map Prod.fst := by
  unfold lineAt entryAt
  cases pathAt (m.lua s) m.depth c k with
  | none => rfl
  | some path => rfl

theorem lineAt_value (c : Composer) (att : Text) (k : ℕ) :
    lineAt m s (some att) c k = (entryAt m s c att k).bind Prod.snd := by
  unfold lineAt entryAt
  cases pathAt (m.lua s) m.depth c k with
  | none => rfl
  | some path => rfl

theorem hit_entry (c : Composer) (att : Text) (k : ℕ) :
    hit (m.lua s) m.depth (m.stat s) c k = (entryAt m s c att k).any fun e => m.stat s e.1 := by
  unfold hit entryAt
  cases pathAt (m.lua s) m.depth c k with
  | none => rfl
  | some path => rfl

theorem listing_eq (c : Composer) (att : Text) :
    listing m s c att = (List.range' 0 (combinationCount c)).filterMap (entryAt m s c att) := by
  rw [← List.range_eq_range']
  rfl

theorem existing_eq {c : Composer} (h : remaining c = combinationCount c) (att : Text) :
    existing m s c att =
      (hitsFrom (m.lua s) m.depth (m.stat s) c 0).filterMap (entryAt m s c att) := by
  rw [existing, listing_eq, hitsFrom, h, Nat.sub_zero, List.filter_filterMap,
    List.filterMap_filter]
  congr 1
  funext k
  rw [hit_entry m s c att k]
  cases entryAt m s c att k with
  | none => rfl
  | some e => rfl

theorem existing_take {c : Composer} (h : remaining c = combinationCount c) (att : Text) :
    (existing m s c att).take 1 =
      ((hitsFrom (m.lua s) m.depth (m.stat s) c 0).take 1).filterMap (entryAt m s c att) := by
  rw [existing_eq m s h]
  cases hh : hitsFrom (m.lua s) m.depth (m.stat s) c 0 with
  | nil => rfl
  | cons k rest =>
    have hk : hit (m.lua s) m.depth (m.stat s) c k = true :=
      List.of_mem_filter (show k ∈ hitsFrom (m.lua s) m.depth (m.stat s) c 0 by simp [hh])
    rw [hit_entry m s c att k] at hk
    rw [List.take_succ_cons, List.take_zero, List.filterMap_cons, List.filterMap_cons]
    cases he : entryAt m s c att k with
    | none => simp [he] at hk
    | some e => rfl

theorem lines_path (c : Composer) (att : Text) (ks : List ℕ) :
    ks.filterMap (lineAt m s none c) = (ks.filterMap (entryAt m s c att)).map Prod.fst := by
  rw [List.map_filterMap]
  congr 1
  funext k
  exact lineAt_path m s c att k

theorem lines_value (c : Composer) (att : Text) (ks : List ℕ) :
    ks.filterMap (lineAt m s (some att) c) =
      (ks.filterMap (entryAt m s c att)).filterMap Prod.snd := by
  rw [List.filterMap_filterMap]
  congr 1
  funext k
  exact lineAt_value m s c att k

end Lines

section Calls
variable {σ : Type} {m : Machine σ} {s : σ} {nesting : ℕ} {options : Options} {c : Composer}
  (hc : setUp m nesting options s = .ok c) {fuel : ℕ} (hfuel : combinationCount c + 2 ≤ fuel)
  (evalAtt : Option Text)
include hc

theorem main_eq (printAll onlyExisting : Bool) :
    main m nesting fuel (options.mode printAll onlyExisting evalAtt) s =
      mainLoop m (options.mode printAll onlyExisting evalAtt) fuel c s := by
  have hsame : setUp m nesting (options.mode printAll onlyExisting evalAtt) s = .ok c := hc
  rw [main, hsame]

theorem poised_setUp : Poised c 0 c := by
  have hpoised := poised_start c
  rw [(setUp_start hc).started] at hpoised
  exact hpoised

include hfuel

theorem prints_all :
    Prints m s nesting fuel (options.mode true false evalAtt)
      ((List.range' 0 (combinationCount c)).filterMap (lineAt m s evalAtt c)) := by
  have hstart := setUp_start hc
  have hcount := hstart.remaining_eq
  have hloop := @mainLoop_all _ m s c hstart.representation hstart.done
    (options.mode true false evalAtt) rfl rfl rfl fuel 0 c rfl rfl (by omega)
  rw [hcount, Nat.sub_zero] at hloop
  rw [Prints, main_eq hc]
  exact hloop

theorem prints_existing :
    Prints m s nesting fuel (options.mode true true evalAtt)
      ((hitsFrom (m.lua s) m.depth (m.stat s) c 0).filterMap (lineAt m s evalAtt c)) := by
  have hstart := setUp_start hc
  have hcount := hstart.remaining_eq
  obtain ⟨n, rfl⟩ : ∃ n, fuel = n + 1 := ⟨fuel - 1, by omega⟩
  rw [Prints, main_eq hc]
  exact mainLoop_existing m s hstart.representation hstart.done rfl rfl rfl (poised_setUp hc)
    hstart.done (by omega)

theorem prints_first_existing :
    Prints m s nesting fuel (options.mode false true evalAtt)
      (((hitsFrom (m.lua s) m.depth (m.stat s) c 0).take 1).filterMap (lineAt m s evalAtt c)) := by
  have hstart := setUp_start hc
  have hcount := hstart.remaining_eq
  obtain ⟨n, rfl⟩ : ∃ n, fuel = n + 2 := ⟨fuel - 2, by omega⟩
  rw [Prints, main_eq hc]
  exact mainLoop_first_existing m s hstart.representation hstart.done rfl rfl rfl (poised_setUp hc)
    hstart.done (by omega)

theorem prints_first :
    Prints m s nesting fuel (options.mode false false evalAtt) (lineAt m s evalAtt c 0).toList := by
  obtain ⟨n, rfl⟩ : ∃ n, fuel = n + 1 := ⟨fuel - 1, by omega⟩
  have hframe := (pathcompYield_pure (m.lua s) m.depth).frame c
  have hpath : nextPath m (options.mode false false evalAtt) (n + 1) c s =
      .ok (pathAt (m.lua s) m.depth c 0, (pathcompYield (m.lua s) m.depth c).2) := rfl
  obtain ⟨z, _, hround⟩ := @mainLoop_round _ m s
    (options.mode false false evalAtt) rfl n c c _ 0
    (setUp_start hc).done hpath (congrArg Composer.attributes hframe)
  rw [Prints, main_eq hc]
  exact hround

end Calls

/-- Without `-m` the modes print the same list of combinations: all of it or the
    part that exists, its paths or the values of an attribute, or only the first
    line. The bound on the rounds is two more than there are combinations. -/
theorem modes_agree {σ : Type} (m : Machine σ) (s : σ) (nesting : ℕ) (options : Options)
    (c : Composer) (hc : setUp m nesting options s = .ok c) (att : Text) (fuel : ℕ)
    (hfuel : combinationCount c + 2 ≤ fuel) :
    Prints m s nesting fuel (options.mode true false none) ((listing m s c att).map Prod.fst) ∧
    Prints m s nesting fuel (options.mode true true none) ((existing m s c att).map Prod.fst) ∧
    Prints m s nesting fuel (options.mode true false (some att))
      ((listing m s c att).filterMap Prod.snd) ∧
    Prints m s nesting fuel (options.mode true true (some att))
      ((existing m s c att).filterMap Prod.snd) ∧
    Prints m s nesting fuel (options.mode false true none)
      (((existing m s c att).map Prod.fst).take 1) ∧
    Prints m s nesting fuel (options.mode false true (some att))
      (((existing m s c att).take 1).filterMap Prod.snd) ∧
    ∀ evalAtt, ∃ lines, Prints m s nesting fuel (options.mode false false evalAtt) lines := by
  have hcount := (setUp_start hc).remaining_eq
  refine ⟨?_, ?_, ?_, ?_, ?_, ?_, ?_⟩
  · rw [listing_eq, ← lines_path]
    exact prints_all hc hfuel none
  · rw [existing_eq m s hcount, ← lines_path]
    exact prints_existing hc hfuel none
  · rw [listing_eq, ← lines_value]
    exact prints_all hc hfuel (some att)
  · rw [existing_eq m s hcount, ← lines_value]
    exact prints_existing hc hfuel (some att)
  · rw [← List.map_take, existing_take m s hcount, ← lines_path]
    exact prints_first_existing hc hfuel none
  · rw [existing_take m s hcount, ← lines_value]
    exact prints_first_existing hc hfuel (some att)
  · intro evalAtt
    exact ⟨_, prints_first hc hfuel evalAtt⟩

/-- Two roots, one from the configuration file and one from the command line. -/
def shareMachine : Machine Unit where
  lua _ _ := .finish none
  depth := 1
  stat _ path := path = ascii "/opt/x"
  mkdir s _ := (.created, s)
  file _ _ := ⟨true, [.data 91 (ascii "c]\nroot=/usr\ncompose=x")], true⟩
  strerror _ := []

def shareOptions : Options where
  className := ascii "c"
  attributes := [⟨ascii "root", ascii "/opt", true⟩]
  printAll := false
  onlyExisting := false
  configFile := ascii ".pathcomprc"
  doMkdir := false
  evalAtt := none

def shareComposer : Composer where
  name := ascii "c"
  attributes :=
    [⟨ascii "root", [.string (ascii "/usr"), .string (ascii "/opt")], some 0, some (ascii "c")⟩,
     ⟨ascii "compose", [.string (ascii "x")], some 0, some (ascii "c")⟩]
  metatable := ascii "libpathcomp::c"
  done := false
  started := false

theorem modes_agree_share :
    Prints shareMachine () 1 4 (shareOptions.mode true false none)
      [ascii "/usr/x", ascii "/opt/x"] ∧
    Prints shareMachine () 1 4 (shareOptions.mode true true (some (ascii "root")))
      [ascii "/opt"] := by
  have hset : setUp shareMachine 1 shareOptions () = .ok shareComposer := by rfl
  obtain ⟨hall, _, _, hvalue, _⟩ :=
    modes_agree shareMachine () 1 shareOptions shareComposer hset
    (ascii "root") 4 (by decide)
  exact ⟨hall, hvalue⟩

end Pathcomp.Standalone
