import Pathcomp.Directories
import Pathcomp.Observations
import Pathcomp.Standalone
import Mathlib.Data.List.Infix

set_option autoImplicit false

/-!
# The parents of all pathnames

With `-m` the utility makes the directories of every pathname that it comes to. What
the file system is in the end can be told from what it was before: a directory is new
if a pathname needs it and no regular file stands in the way.
-/
namespace Pathcomp.Parents
open Bytes Config Attributes Composers Evaluation Purity Reachability Iteration Search Observations
open CommandLine Standalone Directories

/-- No entry up to `q` is missing below a regular file. -/
def Clear (fs : FileSystem) (q : List Text) : Prop :=
  ∀ r k, r ++ [k] <+: q → fs.entry r = some .file → fs.entry (r ++ [k]) ≠ none

/-- A regular file stands in the way of a directory of the path. -/
def blocked (fs : FileSystem) (path : Text) : Bool :=
  (components (directoryPortion path)).inits.any fun q =>
    decide (fs.entry q.dropLast = some .file) && decide (fs.entry q = none)

/-- The file system after the parents of the paths have been made. -/
structure Furnished (paths : List Text) (before after : FileSystem) : Prop where
  kept : ∀ q node, before.entry q = some node → after.entry q = some node
  made : ∀ q, before.entry q = none →
    (after.entry q = some .dir ↔ (∃ path ∈ paths, Named path q) ∧ Clear before q)
  only : ∀ q, before.entry q = none → after.entry q ≠ some .file

/-- The entries below `done` along `part` are missing below no regular file. -/
def ClearBelow (fs : FileSystem) (done part : List Text) : Prop :=
  ∀ r k, r ++ [k] <+: part → fs.entry (done ++ r) = some .file →
    fs.entry (done ++ (r ++ [k])) ≠ none

theorem clearBelow_cons (fs : FileSystem) (done : List Text) (k : Text) (part : List Text) :
    ClearBelow fs done (k :: part) ↔
      (fs.entry done = some .file → fs.entry (done ++ [k]) ≠ none) ∧
        ClearBelow fs (done ++ [k]) part := by
  constructor
  · intro h
    constructor
    · intro hfile
      exact h [] k (by simp) (by rwa [List.append_nil])
    · intro r j hr hfile
      have hpart : (k :: r) ++ [j] <+: k :: part := List.cons_prefix_cons.mpr ⟨rfl, hr⟩
      have hlater := h (k :: r) j hpart (by simpa using hfile)
      simpa using hlater
  · rintro ⟨hfirst, hrest⟩ r j hr hfile
    cases r with
    | nil =>
      obtain ⟨rfl, _⟩ := List.cons_prefix_cons.mp hr
      exact hfirst (by rwa [List.append_nil] at hfile)
    | cons i r =>
      obtain ⟨rfl, htail⟩ := List.cons_prefix_cons.mp hr
      have hlater := hrest r j htail (by simpa using hfile)
      simpa using hlater

theorem clearBelow_make {fs : FileSystem} {done : List Text} {k : Text}
    (h : fs.entry (done ++ [k]) = none) (part : List Text) :
    ClearBelow (fs.make (done ++ [k])) (done ++ [k]) part ↔ ClearBelow fs (done ++ [k]) part := by
  have hlonger (r : List Text) (j : Text) : done ++ [k] ++ (r ++ [j]) ≠ done ++ [k] := by
    simp
  unfold ClearBelow
  refine forall_congr' fun r => forall_congr' fun j => imp_congr_right fun _ => ?_
  rw [make_entry_ne fs (hlonger r j)]
  by_cases hr : r = []
  · subst hr
    rw [List.append_nil, make_entry_self, h]
    simp
  · have hne : done ++ [k] ++ r ≠ done ++ [k] := by simpa using hr
    rw [make_entry_ne fs hne]

/-- A part that is needed starts with the first component. -/
theorem clearPart_cons {fs : FileSystem} {done ks q : List Text} {k : Text} :
    (∃ part, part ≠ [] ∧ part <+: k :: ks ∧ q = done ++ part ∧
        ClearBelow fs done part) ↔
      (fs.entry done = some .file → fs.entry (done ++ [k]) ≠ none) ∧
        ∃ part, part <+: ks ∧ q = done ++ [k] ++ part ∧ ClearBelow fs (done ++ [k]) part := by
  constructor
  · rintro ⟨part, hne, hpart, rfl, hclear⟩
    rcases prefix_cons_cases hpart with rfl | ⟨tail, rfl, htail⟩
    · exact absurd rfl hne
    · rw [clearBelow_cons] at hclear
      exact ⟨hclear.1, tail, htail, by simp, hclear.2⟩
  · rintro ⟨hfirst, part, hpart, rfl, hclear⟩
    refine ⟨k :: part, by simp, List.cons_prefix_cons.mpr ⟨rfl, hpart⟩, by simp, ?_⟩
    rw [clearBelow_cons]
    exact ⟨hfirst, hclear⟩

theorem makeAll_made_iff (ks done : List Text) (fs : FileSystem) (hdone : fs.entry done ≠ none)
    {q : List Text} (hq : fs.entry q = none) :
    (makeAll fs done ks).2.entry q = some .dir ↔
      ∃ part, part ≠ [] ∧ part <+: ks ∧ q = done ++ part ∧ ClearBelow fs done part := by
  induction ks generalizing done fs with
  | nil =>
    simp only [makeAll, hq, List.prefix_nil]
    constructor
    · intro h
      cases h
    · rintro ⟨part, hne, rfl, _⟩
      exact absurd rfl hne
  | cons k ks ih =>
    rw [clearPart_cons]
    rcases mkdirAt_cases fs done k with ⟨hex, hrun⟩ | ⟨habs, hdir, hrun⟩ |
      ⟨habs, hdir, hrun⟩
    · have hne : q ≠ done ++ [k] := by
        rintro rfl
        exact hex hq
      rw [makeAll, hrun, ih (done ++ [k]) fs hex hq]
      constructor
      · rintro ⟨part, _, hpart, he, hclear⟩
        exact ⟨fun _ => hex, part, hpart, he, hclear⟩
      · rintro ⟨_, part, hpart, rfl, hclear⟩
        refine ⟨part, ?_, hpart, rfl, hclear⟩
        rintro rfl
        exact hne (List.append_nil _)
    · have hfirst : fs.entry done = some .file → fs.entry (done ++ [k]) ≠ none := by
        rw [hdir]
        intro hfile
        cases hfile
      have hself := make_entry_self fs (done ++ [k])
      have hpresent : (fs.make (done ++ [k])).entry (done ++ [k]) ≠ none := by
        rw [hself]
        simp
      rw [makeAll, hrun]
      by_cases hnew : q = done ++ [k]
      · subst hnew
        have hkept := (makeAll_made (done ++ [k]) ks _ hpresent).kept _ _ hself
        refine ⟨fun _ => ⟨hfirst, [], List.nil_prefix, (List.append_nil _).symm, ?_⟩,
          fun _ => hkept⟩
        intro r j hr
        exact absurd (List.prefix_nil.mp hr) (by simp)
      · have hq' : (fs.make (done ++ [k])).entry q = none := by
          rw [make_entry_ne fs hnew]
          exact hq
        simp only
        rw [ih (done ++ [k]) (fs.make (done ++ [k])) hpresent hq']
        constructor
        · rintro ⟨part, _, hpart, he, hclear⟩
          exact ⟨hfirst, part, hpart, he, (clearBelow_make habs part).mp hclear⟩
        · rintro ⟨_, part, hpart, rfl, hclear⟩
          refine ⟨part, ?_, hpart, rfl, (clearBelow_make habs part).mpr hclear⟩
          rintro rfl
          exact hnew (List.append_nil _)
    · have hfile : fs.entry done = some .file := by
        cases hnode : fs.entry done with
        | none => exact absurd hnode hdone
        | some node =>
          cases node with
          | file => rfl
          | dir => exact absurd hnode hdir
      rw [makeAll, hrun]
      simp only [hq, hfile, habs, ne_eq, not_true_eq_false, imp_false, false_and, reduceCtorEq]

theorem blocked_iff (fs : FileSystem) (path : Text) :
    blocked fs path = true ↔ ∃ r k, r ++ [k] <+: components (directoryPortion path) ∧
      fs.entry r = some .file ∧ fs.entry (r ++ [k]) = none := by
  simp only [blocked, List.any_eq_true, List.mem_inits, Bool.and_eq_true, decide_eq_true_eq]
  constructor
  · rintro ⟨q, hq, hfile, hnone⟩
    rcases List.eq_nil_or_concat q with rfl | ⟨r, k, rfl⟩
    · rw [List.dropLast_nil, fs.start] at hfile
      cases hfile
    · rw [List.concat_eq_append] at hq hfile hnone
      rw [List.dropLast_concat] at hfile
      exact ⟨r, k, hq, hfile, hnone⟩
  · rintro ⟨r, k, hq, hfile, hnone⟩
    refine ⟨r ++ [k], hq, ?_, hnone⟩
    rwa [List.dropLast_concat]

theorem makeAll_furnished (fs : FileSystem) (path : Text) :
    Furnished [path] fs (makeAll fs [] (components (directoryPortion path))).2 := by
  have hstart : fs.entry [] ≠ none := by
    rw [fs.start]
    simp
  have hmade := makeAll_made [] (components (directoryPortion path)) fs hstart
  refine ⟨hmade.kept, fun q hq => ?_, fun q hq hfile => ?_⟩
  · rw [makeAll_made_iff _ [] fs hstart hq]
    constructor
    · rintro ⟨part, hne, hpart, he, hclear⟩
      rw [List.nil_append] at he
      rw [he]
      exact ⟨⟨path, List.mem_singleton_self _, (named_iff path part).mpr ⟨hne, hpart⟩⟩,
        hclear⟩
    · rintro ⟨⟨path', hpath, hnamed⟩, hclear⟩
      rw [List.mem_singleton.mp hpath, named_iff] at hnamed
      exact ⟨q, hnamed.1, hnamed.2, rfl, hclear⟩
  · have hdir := (hmade.added q hq (by rw [hfile]; simp)).2
    rw [hfile] at hdir
    cases hdir

theorem makeAll_status_range (fs : FileSystem) (done ks : List Text) :
    (makeAll fs done ks).1 = 0 ∨ (makeAll fs done ks).1 = -1 := by
  induction ks generalizing fs done with
  | nil => exact .inl rfl
  | cons k ks ih =>
    rw [makeAll]
    rcases mkdirAt fs (done ++ [k]) with ⟨result, t⟩
    cases result with
    | failed => exact .inr rfl
    | created => exact ih t _
    | eexist => exact ih t _

theorem makeAll_status (fs : FileSystem) (path : Text) :
    (makeAll fs [] (components (directoryPortion path))).1 =
      if blocked fs path then -1 else 0 := by
  have hmade := makeAll_made [] (components (directoryPortion path)) fs (by rw [fs.start]; simp)
  have hfail : (makeAll fs [] (components (directoryPortion path))).1 ≠ 0 ↔
      blocked fs path = true := by
    rw [hmade.failure, blocked_iff]
    rfl
  split
  · rename_i hblocked
    exact (makeAll_status_range fs [] _).resolve_left (hfail.mpr hblocked)
  · rename_i hblocked
    by_contra hne
    exact hblocked (hfail.mp hne)

theorem furnished_nil (fs : FileSystem) : Furnished [] fs fs := by
  refine ⟨fun _ _ h => h, fun q hq => ?_, fun q hq hfile => ?_⟩
  · rw [hq]
    constructor
    · intro h
      cases h
    · rintro ⟨⟨path, hpath, _⟩, _⟩
      cases hpath
  · rw [hq] at hfile
    cases hfile

section Composition
variable {paths : List Text} {before middle after : FileSystem}

theorem Furnished.file_iff (h : Furnished paths before after) (q : List Text) :
    after.entry q = some .file ↔ before.entry q = some .file := by
  constructor
  · intro hfile
    cases hq : before.entry q with
    | none => exact absurd hfile (h.only q hq)
    | some node =>
      rw [h.kept q node hq] at hfile
      exact hfile
  · exact h.kept q .file

theorem Furnished.missing_iff (h : Furnished paths before after) {r : List Text} {k : Text}
    (hfile : before.entry r = some .file) :
    after.entry (r ++ [k]) = none ↔ before.entry (r ++ [k]) = none := by
  constructor
  · intro hnone
    cases hq : before.entry (r ++ [k]) with
    | none => rfl
    | some node =>
      rw [h.kept _ node hq] at hnone
      cases hnone
  · intro hnone
    cases hq : after.entry (r ++ [k]) with
    | none => rfl
    | some node =>
      cases node with
      | file => exact absurd hq (h.only _ hnone)
      | dir => exact absurd hnone (((h.made _ hnone).mp hq).2 r k List.prefix_rfl hfile)

theorem Furnished.clear_iff (h : Furnished paths before after) (q : List Text) :
    Clear after q ↔ Clear before q := by
  unfold Clear
  refine forall_congr' fun r => forall_congr' fun k => imp_congr_right fun _ => ?_
  rw [h.file_iff]
  refine imp_congr_right fun hfile => ?_
  rw [ne_eq, h.missing_iff hfile]

theorem Furnished.blocked_eq (h : Furnished paths before after) (path : Text) :
    blocked after path = blocked before path := by
  have hiff : blocked after path = true ↔ blocked before path = true := by
    rw [blocked_iff, blocked_iff]
    refine exists_congr fun r => exists_congr fun k => and_congr_right fun _ => ?_
    rw [h.file_iff]
    exact and_congr_right fun hfile => h.missing_iff hfile
  exact Bool.eq_iff_iff.mpr hiff

theorem Furnished.append {later : List Text} (h : Furnished paths before middle)
    (h' : Furnished later middle after) : Furnished (paths ++ later) before after := by
  refine ⟨fun q node hq => h'.kept q node (h.kept q node hq), fun q hq => ?_,
    fun q hq hfile => ?_⟩
  · have hneeded : (∃ path ∈ paths ++ later, Named path q) ↔
        (∃ path ∈ paths, Named path q) ∨ ∃ path ∈ later, Named path q := by
      simp only [List.mem_append, or_and_right, exists_or]
    rw [hneeded]
    have hfirst := h.made q hq
    cases hmiddle : middle.entry q with
    | none =>
      rw [h'.made q hmiddle, h.clear_iff]
      rw [hmiddle] at hfirst
      constructor
      · rintro ⟨hlater, hclear⟩
        exact ⟨.inr hlater, hclear⟩
      · rintro ⟨hnow | hlater, hclear⟩
        · cases hfirst.mpr ⟨hnow, hclear⟩
        · exact ⟨hlater, hclear⟩
    | some node =>
      cases node with
      | file => exact absurd hmiddle (h.only q hq)
      | dir =>
        obtain ⟨hnow, hclear⟩ := hfirst.mp hmiddle
        exact ⟨fun _ => ⟨.inl hnow, hclear⟩, fun _ => h'.kept q .dir hmiddle⟩
  · exact h.only q hq ((h'.file_iff q).mp hfile)

end Composition

/-- Directories are made on the file system, and Lua chunks do not look at it. A path
    that exists has directories above it, and is the name of something. -/
structure OnFileSystem (m : Machine FileSystem) : Prop where
  mkdir : m.mkdir = Directories.mkdir
  lua : ∀ s t, m.lua s = m.lua t
  parents : ∀ s path q, m.stat s path = true → Named path q → s.entry q = some .dir
  names : ∀ s path, m.stat s path = true → ∀ b ∈ path, b ≠ 0

/-- The same call with `-m`. -/
def making (options : Options) (printAll onlyExisting : Bool) (evalAtt : Option Text) : Options :=
  { options.mode printAll onlyExisting evalAtt with doMkdir := true }

def putLine : Output → Option Text
  | .puts line => some line
  | .logError _ => none

def isError : Output → Bool
  | .puts _ => false
  | .logError _ => true

/-- The lines that were printed, two errors for each path that is blocked, and the file
    system with the parents of the others. -/
structure Outcome (lines paths : List Text) (before : FileSystem) (out : List Output)
    (after : FileSystem) : Prop where
  lines : out.filterMap putLine = lines
  errors : out.countP isError = 2 * paths.countP (blocked before)
  system : Furnished paths before after

theorem Outcome.append {lines lines' paths paths' : List Text} {before middle after : FileSystem}
    {out out' : List Output} (h : Outcome lines paths before out middle)
    (h' : Outcome lines' paths' middle out' after) :
    Outcome (lines ++ lines') (paths ++ paths') before (out ++ out') after where
  lines := by rw [List.filterMap_append, h.lines, h'.lines]
  errors := by
    have hblocked : blocked middle = blocked before := funext h.system.blocked_eq
    rw [List.countP_append, List.countP_append, h.errors, h'.errors, hblocked, Nat.mul_add]
  system := h.system.append h'.system

theorem outcome_round (lines : List Text) (path first second : Text) (s : FileSystem) :
    Outcome lines [path] s
      ((if blocked s path then [.logError first, .logError second] else []) ++ lines.map .puts)
      (makeAll s [] (components (directoryPortion path))).2 where
  lines := by
    have hlines : (lines.map Output.puts).filterMap putLine = lines := by
      rw [List.filterMap_map]
      exact List.filterMap_some
    rw [List.filterMap_append, hlines]
    cases blocked s path with
    | true => rfl
    | false => rfl
  errors := by
    have hquiet : (lines.map Output.puts).countP isError = 0 := by
      rw [List.countP_map]
      exact List.countP_eq_zero.mpr fun line _ => by simp [isError]
    rw [List.countP_append, hquiet, List.countP_singleton]
    cases blocked s path with
    | true => rfl
    | false => rfl
  system := makeAll_furnished s path

section Rounds
variable {m : Machine FileSystem} (hm : OnFileSystem m) {options : Options}
  (hmake : options.doMkdir = true)
include hm hmake

theorem makeParents_run {x : Composer} {path : Text} (s : FileSystem)
    (hyield : (pathcompYield (m.lua s) m.depth x).1 = some path) (hnul : ∀ b ∈ path, b ≠ 0) :
    ∃ y first second, y.erase = x.erase ∧ makeParents m options x s =
      .ok (if blocked s path then [.logError first, .logError second] else [], y,
        (makeAll s [] (components (directoryPortion path))).2) := by
  have hloop := @mkdirLoop_eq (path.length + 1) [] path s (by omega) hnul (.inl rfl)
  rw [components_nil] at hloop
  have hrun : mkdirLoop m.mkdir (path.length + 1) path 0 s =
      .ok (makeAll s [] (components (directoryPortion path))) := by
    rw [hm.mkdir]
    exact hloop
  obtain ⟨first, hlogged⟩ :=
    mkdirLoop_logging m.mkdir m.strerror (path.length + 1) path 0 s []
  rw [hrun] at hlogged
  refine ⟨(pathcompYield (m.lua s) m.depth x).2, first, ascii "cannot create directory: " ++
    m.strerror (makeAll s [] (components (directoryPortion path))).2,
    (pathcompYield_pure (m.lua s) m.depth).frame x, ?_⟩
  simp only [makeParents, hmake, ↓reduceIte, pathcompMkdir, hyield, hlogged, Except.map,
    makeAll_status]
  cases hblocked : blocked s path with
  | true => rfl
  | false => rfl

theorem report_making {c x : Composer} {k : ℕ} (base s : FileSystem)
    (hx : SameCombination x (after k c))
    (hnul : ∀ path, pathAt (m.lua base) m.depth c k = some path → ∀ b ∈ path, b ≠ 0) :
    ∃ y out t, y.erase = x.erase ∧
      report m options (pathAt (m.lua base) m.depth c k) x s = .ok (out, y, t) ∧
      Outcome (lineAt m base options.evalAtt c k).toList
        (pathAt (m.lua base) m.depth c k).toList s out t := by
  unfold lineAt
  cases hpath : pathAt (m.lua base) m.depth c k with
  | none => exact ⟨x, [], s, rfl, rfl, rfl, rfl, furnished_nil s⟩
  | some path =>
    have hyield : (pathcompYield (m.lua s) m.depth x).1 = some path := by
      rw [hm.lua s base, ← hpath]
      exact (pathcompYield_pure (m.lua base) m.depth).same hx
    obtain ⟨y, first, second, hy, hparents⟩ :=
      makeParents_run hm hmake s hyield (hnul path hpath)
    have hyx : SameCombination y (after k c) := by
      rw [SameCombination, hy]
      exact hx
    simp only [report, hparents, printed]
    cases options.evalAtt with
    | none => exact ⟨y, _, _, hy, rfl, outcome_round [path] path first second s⟩
    | some att =>
      have hpure := pathcompEval_pure (m.lua base) m.depth att
      have hvalue : (pathcompEval (m.lua base) m.depth y att).1 = _ := hpure.same hyx
      simp only [hm.lua _ base, hvalue]
      exact ⟨_, _, _, (hpure.frame y).trans hy, rfl, outcome_round _ path first second s⟩

end Rounds

section Loops
variable {m : Machine FileSystem} (hm : OnFileSystem m) {options : Options}
  (hmake : options.doMkdir = true) (he : options.onlyExisting = false) {c : Composer}
  (base : FileSystem)
  (hnul : ∀ k path, pathAt (m.lua base) m.depth c k = some path → ∀ b ∈ path, b ≠ 0)
include hm hmake he hnul

theorem mainLoop_making_round {fuel k : ℕ} {x : Composer} (s : FileSystem)
    (hx : SameCombination x (after k c)) (hdone : x.done = false) :
    ∃ z out t, z.erase = x.erase ∧ Outcome (lineAt m base options.evalAtt c k).toList
        (pathAt (m.lua base) m.depth c k).toList s out t ∧
      mainLoop m options (fuel + 1) x s = if !options.printAll then .ok (out, t)
        else prepend out (mainLoop m options fuel (pathcompNext z).2 t) := by
  have hpure := pathcompYield_pure (m.lua base) m.depth
  have hpath : nextPath m options (fuel + 1) x s =
      .ok (pathAt (m.lua base) m.depth c k, (pathcompYield (m.lua base) m.depth x).2) := by
    rw [nextPath, he, hm.lua s base, pathAt, ← hpure.same hx]
    rfl
  have hy : SameCombination (pathcompYield (m.lua base) m.depth x).2 (after k c) := by
    rw [SameCombination, hpure.frame x]
    exact hx
  obtain ⟨z, out, t, hz, hreport, houtcome⟩ := report_making hm hmake base s hy (hnul k)
  refine ⟨z, out, t, hz.trans (hpure.frame x), houtcome, ?_⟩
  rw [mainLoop, pathcompDone, if_neg (by simp [hdone]), hpath]
  simp only [hreport, he, Bool.not_false, ↓reduceIte]

variable (hr : Representation c) (hd : c.done = false)
include hr hd

theorem mainLoop_making_all (ha : options.printAll = true) {fuel k : ℕ} {x : Composer}
    (s : FileSystem) (hx : SameCombination x (after k c)) (hdone : x.done = (after k c).done)
    (hfuel : remaining c - k < fuel) :
    ∃ out t, mainLoop m options fuel x s = .ok (out, t) ∧
      Outcome ((List.range' k (remaining c - k)).filterMap (lineAt m base options.evalAtt c))
        ((List.range' k (remaining c - k)).filterMap (pathAt (m.lua base) m.depth c)) s out t := by
  induction fuel generalizing k x s with
  | zero => omega
  | succ fuel ih =>
    by_cases hk : remaining c ≤ k
    · rw [mainLoop_done m s (hdone.trans (after_is_done hr hd hk)),
        show remaining c - k = 0 by omega]
      exact ⟨[], s, rfl, rfl, rfl, furnished_nil s⟩
    · obtain ⟨z, out, t, hz, hout, hround⟩ :=
        @mainLoop_making_round m hm options hmake he c base
        hnul fuel k x s hx (hdone.trans (after_not_done hr hd (by omega)))
      have hzc : SameCombination z (after k c) := by
        rw [SameCombination, hz]
        exact hx
      obtain ⟨hsame, hnext, _⟩ := pathcompNext_congr hzc
        ((congrArg Composer.done hz).trans hdone)
      obtain ⟨more, u, hrest, hmore⟩ := @ih (k + 1) (pathcompNext z).2 t hsame hnext (by omega)
      have hjoined := hout.append hmore
      rw [hround, ha, hrest, show remaining c - k = remaining c - (k + 1) + 1 by omega,
        List.range'_succ]
      refine ⟨out ++ more, u, rfl, ?_⟩
      have hcons {β : Type} (f : ℕ → Option β) (ks : List ℕ) :
          (k :: ks).filterMap f = (f k).toList ++ ks.filterMap f := by
        rw [List.filterMap_cons]
        cases f k with
        | none => rfl
        | some b => rfl
      rw [hcons, hcons]
      exact hjoined

end Loops

theorem found_path {lua : Lua} {depth fuel : ℕ} {pathExists : Text → Bool} {c d : Composer}
    {path : Text} (h : pathcompFind lua depth pathExists fuel c = .ok (some path, d)) :
    pathExists path = true ∧ (pathcompYield lua depth d).1 = some path := by
  induction fuel generalizing c with
  | zero => cases h
  | succ fuel ih =>
    rw [pathcompFind_succ] at h
    split at h
    · cases h
    · split at h
      · exact ih h
      · rename_i found hfound
        split at h
        · rename_i hexists
          cases h
          have hpure := pathcompYield_pure lua depth
          have hsame : SameCombination (pathcompYield lua depth (advance c)).2 (advance c) :=
            congrArg Composer.attributes (hpure.frame (advance c))
          exact ⟨hexists, (hpure.same hsame).trans hfound⟩
        · exact ih h

theorem makeAll_present {fs : FileSystem} {done ks : List Text}
    (h : ∀ part, part ≠ [] → part <+: ks → fs.entry (done ++ part) ≠ none) :
    makeAll fs done ks = (0, fs) := by
  induction ks generalizing done with
  | nil => rfl
  | cons k ks ih =>
    have hfirst := h [k] (by simp) (List.cons_prefix_cons.mpr ⟨rfl, List.nil_prefix⟩)
    rcases mkdirAt_cases fs done k with ⟨_, hrun⟩ | ⟨habs, _⟩ | ⟨habs, _⟩
    · rw [makeAll, hrun]
      refine ih fun part _ hpart => ?_
      rw [List.append_assoc]
      exact h (k :: part) (by simp) (List.cons_prefix_cons.mpr ⟨rfl, hpart⟩)
    · exact absurd habs hfirst
    · exact absurd habs hfirst

theorem existing_unblocked {m : Machine FileSystem} (hm : OnFileSystem m) {s : FileSystem}
    {path : Text} (h : m.stat s path = true) : blocked s path = false ∧
      (makeAll s [] (components (directoryPortion path))).2 = s := by
  have hall : makeAll s [] (components (directoryPortion path)) = (0, s) := by
    refine makeAll_present fun part hne hpart => ?_
    rw [List.nil_append, hm.parents s path part h ((named_iff path part).mpr ⟨hne, hpart⟩)]
    simp
  have hstatus := makeAll_status s path
  rw [hall] at hstatus
  refine ⟨?_, by rw [hall]⟩
  cases hblocked : blocked s path with
  | false => rfl
  | true =>
    rw [hblocked] at hstatus
    cases hstatus

section Existing
variable {m : Machine FileSystem} (hm : OnFileSystem m) (options : Options) (printAll : Bool)
  (evalAtt : Option Text) {x y : Composer} (s : FileSystem)
include hm

theorem report_existing (hxy : x.erase = y.erase) {path : Text} (hstat : m.stat s path = true)
    (hyield : (pathcompYield (m.lua s) m.depth x).1 = some path) :
    ∃ out x' y', report m (making options printAll true evalAtt) (some path) x s =
        .ok (out, x', s) ∧
      report m (options.mode printAll true evalAtt) (some path) y s = .ok (out, y', s) ∧
      x'.erase = y'.erase := by
  obtain ⟨z, first, second, hz, hparents⟩ := @makeParents_run m hm
    (making options printAll true evalAtt) rfl x path s hyield (hm.names s path hstat)
  obtain ⟨hblocked, hsystem⟩ := existing_unblocked hm hstat
  rw [hblocked, hsystem] at hparents
  have hnone : makeParents m (options.mode printAll true evalAtt) y s = .ok ([], y, s) := rfl
  have hzy : z.erase = y.erase := hz.trans hxy
  simp only [report, hparents, hnone, printed]
  cases evalAtt with
  | none => exact ⟨_, _, _, rfl, rfl, hzy⟩
  | some att =>
    have hpure := pathcompEval_pure (m.lua s) m.depth att
    have hvalue : (pathcompEval (m.lua s) m.depth z att).1 =
        (pathcompEval (m.lua s) m.depth y att).1 := hpure.same (congrArg Composer.attributes hzy)
    refine ⟨_, _, _, rfl, ?_, (hpure.frame z).trans (hzy.trans (hpure.frame y).symm)⟩
    simp only [Options.mode, making, hvalue]
    rfl

theorem mainLoop_making_existing (hxy : x.erase = y.erase) (fuel : ℕ) :
    mainLoop m (making options printAll true evalAtt) fuel x s =
      mainLoop m (options.mode printAll true evalAtt) fuel y s := by
  induction fuel generalizing x y with
  | zero => rfl
  | succ fuel ih =>
    have hdone : x.erase.done = y.erase.done := by rw [hxy]
    have hfind := @pathcompFind_erase (m.lua s) m.depth (m.stat s) (fuel + 1) x y hxy
    have hx' : nextPath m (making options printAll true evalAtt) (fuel + 1) x s =
        pathcompFind (m.lua s) m.depth (m.stat s) (fuel + 1) x := rfl
    have hy' : nextPath m (options.mode printAll true evalAtt) (fuel + 1) y s =
        pathcompFind (m.lua s) m.depth (m.stat s) (fuel + 1) y := rfl
    rw [mainLoop, mainLoop, pathcompDone, pathcompDone, show x.done = y.done from hdone, hx', hy']
    by_cases hend : y.done = true
    · rw [if_pos hend, if_pos hend]
    · rw [if_neg hend, if_neg hend]
      cases hcx : pathcompFind (m.lua s) m.depth (m.stat s) (fuel + 1) x with
      | error halt =>
        cases hcy : pathcompFind (m.lua s) m.depth (m.stat s) (fuel + 1) y with
        | error halt' =>
          rw [hcx, hcy] at hfind
          cases hfind
          rfl
        | ok found =>
          rw [hcx, hcy] at hfind
          cases hfind
      | ok found =>
        cases hcy : pathcompFind (m.lua s) m.depth (m.stat s) (fuel + 1) y with
        | error halt =>
          rw [hcx, hcy] at hfind
          cases hfind
        | ok found' =>
          obtain ⟨path, u⟩ := found
          obtain ⟨path', v⟩ := found'
          rw [hcx, hcy] at hfind
          obtain ⟨rfl, huv⟩ : path = path' ∧ u.erase = v.erase := by
            simpa [Except.map] using hfind
          have hreport : ∃ out u' v',
              report m (making options printAll true evalAtt) path u s = .ok (out, u', s) ∧
              report m (options.mode printAll true evalAtt) path v s = .ok (out, v', s) ∧
              u'.erase = v'.erase := by
            cases path with
            | none => exact ⟨[], u, v, rfl, rfl, huv⟩
            | some path =>
              obtain ⟨hstat, hyield⟩ := found_path hcx
              exact report_existing hm options printAll evalAtt s huv hstat hyield
          obtain ⟨out, u', v', hru, hrv, huv'⟩ := hreport
          have hrest := congrArg (prepend out) (ih huv')
          simp only [hru, hrv]
          exact congrArg (fun rest => if !printAll then Except.ok (out, s) else rest) hrest

end Existing

/-- The system call, without links. -/
def statOn (fs : FileSystem) (path : Text) : Bool :=
  !path.isEmpty && path.all (· != 0) && (fs.entry (components path)).isSome &&
    (components (directoryPortion path)).inits.all fun q => decide (fs.entry q = some .dir)

def diskMachine : Machine FileSystem where
  lua _ _ := .finish none
  depth := 1
  stat := statOn
  mkdir := Directories.mkdir
  file _ _ := ⟨true, [.data 91 (ascii "c]\nroot=/a/b\ncompose=x")], true⟩
  strerror _ := ascii "Not a directory"

theorem diskMachine_onFileSystem : OnFileSystem diskMachine where
  mkdir := rfl
  lua _ _ := rfl
  parents := by
    intro s path q hstat hnamed
    have hall := (Bool.and_eq_true_iff.mp hstat).2
    have hq := List.all_eq_true.mp hall q
      ((List.mem_inits _ _).mpr ((named_iff path q).mp hnamed).2)
    simpa using hq
  names := by
    intro s path hstat b hb
    have hall := (Bool.and_eq_true_iff.mp (Bool.and_eq_true_iff.mp
      (Bool.and_eq_true_iff.mp hstat).1).1).2
    simpa using List.all_eq_true.mp hall b hb

/-- A regular file stands where the second root should be. -/
def halfSystem : FileSystem :=
  ⟨fun q => if q = [] then some .dir else if q = [ascii "f"] then some .file else none, rfl⟩

def rootsOptions : Options where
  className := ascii "c"
  attributes := [⟨ascii "root", ascii "/f/g", true⟩]
  printAll := false
  onlyExisting := false
  configFile := ascii ".pathcomprc"
  doMkdir := false
  evalAtt := none

def rootsComposer : Composer where
  name := ascii "c"
  attributes :=
    [⟨ascii "root", [.string (ascii "/a/b"), .string (ascii "/f/g")], some 0, some (ascii "c")⟩,
     ⟨ascii "compose", [.string (ascii "x")], some 0, some (ascii "c")⟩]
  metatable := ascii "libpathcomp::c"
  done := false
  started := false

theorem rootsComposer_paths (k : ℕ) (path : Text)
    (h : pathAt (diskMachine.lua halfSystem) 1 rootsComposer k = some path) :
    ∀ b ∈ path, b ≠ 0 := by
  have hend : (after 2 rootsComposer).done = true := rfl
  rcases k with _ | _ | k
  · cases h
    decide
  · cases h
    decide
  · rw [pathAt, show k + 1 + 1 = 2 + k by omega, after_add, after_done hend] at h
    cases h
    decide

end Pathcomp.Parents
