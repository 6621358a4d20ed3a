import Pathcomp.FiniteDescent
import Pathcomp.Interpreter
import Pathcomp.Lifetimes
import Pathcomp.Stages
import Mathlib.Data.Finset.Dedup

set_option autoImplicit false

/-!
# What evaluation computes

The attributes of a composer are a system of equations: an attribute whose current
value is a Lua chunk equals what the chunk makes of the attributes that it looks up.
Without cycles the system has one solution, and evaluation computes it, provided that
evaluations may be nested as deeply as there are such attributes.
-/
namespace Pathcomp.Denotation
open Bytes Buffer Values Attributes Composers Evaluation Purity FiniteDescent Interpreter
open Lifetimes (RootKept writesAfterRoot)

/-- The result of a chunk when look-ups have these results. -/
def chunkResult (f : Text → LuaObject) : LuaCode → Option Text
  | .finish result => result.map cstr
  | .index name resume => chunkResult f (resume (f name))

def rightSide (lua : Lua) (f : Text → LuaObject) : Option Value → LuaObject
  | none => .nil
  | some (.string result) => .string result
  | some (.int integer _) => .integer integer
  | some (.lua source _) => luaPushstring (chunkResult f (lua source))

def Solves (lua : Lua) (values : Text → Option Value) (f : Text → LuaObject) : Prop :=
  ∀ name, f name = rightSide lua f (values name)

/-- A chunk that, on some results of its other look-ups, looks up the name. -/
inductive LooksUp : LuaCode → Text → Prop where
  | now (name : Text) (resume : LuaObject → LuaCode) : LooksUp (.index name resume) name
  | later {name other : Text} {resume : LuaObject → LuaCode} {object : LuaObject}
      (h : LooksUp (resume object) other) : LooksUp (.index name resume) other

def Uses (lua : Lua) (values : Text → Option Value) (name other : Text) : Prop :=
  ∃ source result, values name = some (.lua source result) ∧ LooksUp (lua source) other

def isLua (att : Att) : Bool :=
  match attCurrentValue att with
  | some (.lua _ _) => true
  | _ => false

def luaCount (c : Composer) : ℕ := (c.attributes.filter isLua).length

/-- The pathname made of the two parts. -/
def joined (root compose : Option Text) : Option Text :=
  let path := addNonempty (addNonempty bufInit root [byte '/']) compose []
  if path.bytes.length = 0 then none else some path.bytes

section Bounded
variable (lua : Lua) (values : Text → Option Value)

/-- The result of a chunk, if all its look-ups have one. -/
def tryChunk (push : Text → Option LuaObject) : LuaCode → Option (Option Text)
  | .finish result => some (result.map cstr)
  | .index name resume => (push name).bind fun object => tryChunk push (resume object)

def tryValue (onLua : Text → Option (Option Text)) : Option Value → Option LuaObject
  | none => some .nil
  | some (.string result) => some (.string result)
  | some (.int integer _) => some (.integer integer)
  | some (.lua source _) => (onLua source).map luaPushstring

/-- What a look-up gives, unless evaluations are nested more deeply than the bound. -/
def tryPush : ℕ → Text → Option LuaObject
  | 0, name => tryValue (fun _ => none) (values name)
  | depth + 1, name => tryValue (fun source => tryChunk (tryPush depth) (lua source)) (values name)

end Bounded

theorem tryChunk_agree {push push' : Text → Option LuaObject}
    (h : ∀ name object, push name = some object → push' name = some object) {code : LuaCode}
    {result : Option Text} (hcode : tryChunk push code = some result) :
    tryChunk push' code = some result := by
  induction code with
  | finish result' => exact hcode
  | index name resume ih =>
    obtain ⟨object, hname, hrest⟩ := Option.bind_eq_some_iff.mp hcode
    rw [tryChunk, h name object hname]
    exact ih object hrest

theorem tryChunk_lost {push push' : Text → Option LuaObject} {code : LuaCode}
    {result : Option Text} (hcode : tryChunk push code = some result)
    (hlost : tryChunk push' code ≠ some result) :
    ∃ name object, push name = some object ∧ push' name ≠ some object := by
  by_contra hnone
  refine hlost (tryChunk_agree (fun name object hname => ?_) hcode)
  by_contra hne
  exact hnone ⟨name, object, hname, hne⟩

theorem tryValue_agree {onLua onLua' : Text → Option (Option Text)}
    (h : ∀ source result, onLua source = some result → onLua' source = some result)
    {value : Option Value} {object : LuaObject} (hv : tryValue onLua value = some object) :
    tryValue onLua' value = some object := by
  cases value with
  | none => exact hv
  | some v =>
    cases v with
    | string result => exact hv
    | int integer result => exact hv
    | lua source result =>
      obtain ⟨r, hr, rfl⟩ := Option.map_eq_some_iff.mp hv
      simp only [tryValue, h source r hr, Option.map_some]

section Bounds
variable {lua : Lua} {values : Text → Option Value}

theorem tryPush_succ {depth : ℕ} {name : Text} {object : LuaObject}
    (h : tryPush lua values depth name = some object) :
    tryPush lua values (depth + 1) name = some object := by
  induction depth generalizing name object with
  | zero => exact tryValue_agree (fun source result hr => by cases hr) h
  | succ depth ih =>
    exact tryValue_agree (fun source result => tryChunk_agree fun other object => ih) h

theorem tryPush_mono {depth depth' : ℕ} (hle : depth ≤ depth') {name : Text}
    {object : LuaObject} (h : tryPush lua values depth name = some object) :
    tryPush lua values depth' name = some object :=
  Stages.reached_later (D := fun k _ => tryPush lua values k name = some object)
    (fun _ _ => tryPush_succ) hle (x := ()) h

/-- The look-up has a result within the bound. -/
def Settled (lua : Lua) (values : Text → Option Value) (depth : ℕ) (name : Text) : Prop :=
  ∃ object, tryPush lua values depth name = some object

theorem settled_succ (depth : ℕ) (name : Text) (h : Settled lua values depth name) :
    Settled lua values (depth + 1) name := by
  obtain ⟨object, ho⟩ := h
  exact ⟨object, tryPush_succ ho⟩

theorem newly_settled {depth : ℕ} {name : Text} (h : Settled lua values (depth + 1) name)
    (hnot : ¬ Settled lua values depth name) :
    ∃ source result text, values name = some (.lua source result) ∧
      tryChunk (tryPush lua values depth) (lua source) = some text := by
  have hplain (onLua onLua' : Text → Option (Option Text))
      (h : ∃ object, tryValue onLua (values name) = some object)
      (hnot : ¬ ∃ object, tryValue onLua' (values name) = some object) :
      ∃ source result text, values name = some (.lua source result) ∧
        onLua source = some text := by
    cases hv : values name with
    | none =>
      rw [hv] at hnot
      exact absurd ⟨_, rfl⟩ hnot
    | some v =>
      rw [hv] at h hnot
      cases v with
      | string result => exact absurd ⟨_, rfl⟩ hnot
      | int integer result => exact absurd ⟨_, rfl⟩ hnot
      | lua source result =>
        obtain ⟨object, hobject⟩ := h
        obtain ⟨text, htext, _⟩ := Option.map_eq_some_iff.mp hobject
        exact ⟨source, result, text, rfl, htext⟩
  cases depth with
  | zero => exact hplain _ (fun _ => none) h hnot
  | succ depth =>
    exact hplain _ (fun source => tryChunk (tryPush lua values depth) (lua source)) h hnot

theorem newly_settled_step (depth : ℕ) (name : Text) (h : Settled lua values (depth + 2) name)
    (hnot : ¬ Settled lua values (depth + 1) name) :
    ∃ other, Settled lua values (depth + 1) other ∧ ¬ Settled lua values depth other := by
  obtain ⟨source, result, text, hv, hchunk⟩ := newly_settled h hnot
  have hlost : tryChunk (tryPush lua values depth) (lua source) ≠ some text := by
    intro hsame
    refine hnot ⟨luaPushstring text, ?_⟩
    simp only [tryPush, hv, tryValue, hsame, Option.map_some]
  obtain ⟨other, object, hsome, hne⟩ := tryChunk_lost hchunk hlost
  refine ⟨other, ⟨object, hsome⟩, ?_⟩
  rintro ⟨object', hsome'⟩
  have hsame := tryPush_succ hsome'
  rw [hsome] at hsame
  exact hne (hsame ▸ hsome')

theorem tryChunk_of_lookups {code : LuaCode}
    (h : ∀ name, LooksUp code name → ∃ depth, Settled lua values depth name) :
    ∃ depth result, tryChunk (tryPush lua values depth) code = some result := by
  induction code with
  | finish result => exact ⟨0, result.map cstr, rfl⟩
  | index name resume ih =>
    obtain ⟨k, object, hobject⟩ := h name (.now name resume)
    obtain ⟨m, result, hrest⟩ := ih object fun other hother => h other (.later hother)
    have hname := tryPush_mono (Nat.le_max_left k m) hobject
    refine ⟨max k m, result, ?_⟩
    rw [tryChunk, hname, Option.bind_some]
    exact tryChunk_agree (fun other object' => tryPush_mono (Nat.le_max_right k m)) hrest

theorem settled_of_descends {name : Text} (h : Descends (Uses lua values) name) :
    ∃ depth, Settled lua values depth name := by
  induction h with
  | intro name _ ih =>
    cases hv : values name with
    | none => exact ⟨0, .nil, by simp only [tryPush, hv, tryValue]⟩
    | some v =>
      cases v with
      | string result => exact ⟨0, .string result, by simp only [tryPush, hv, tryValue]⟩
      | int integer result => exact ⟨0, .integer integer, by simp only [tryPush, hv, tryValue]⟩
      | lua source result =>
        obtain ⟨depth, text, hchunk⟩ := @tryChunk_of_lookups lua values (lua source)
          fun other hother => ih other ⟨source, result, hv, hother⟩
        refine ⟨depth + 1, luaPushstring text, ?_⟩
        simp only [tryPush, hv, tryValue, hchunk, Option.map_some]

theorem settled_by_card {S : Finset Text}
    (hS : ∀ name source result, values name = some (.lua source result) → name ∈ S)
    {depth : ℕ}
    {name : Text} (h : Settled lua values depth name) : Settled lua values S.card name := by
  refine Stages.reached_by_card settled_succ newly_settled_step (fun k other hk hnot => ?_) h
  obtain ⟨source, result, _, hv, _⟩ := newly_settled hk hnot
  exact hS other source result hv

theorem tryChunk_total {push : Text → Option LuaObject} {f : Text → LuaObject}
    (h : ∀ name, push name = some (f name)) (code : LuaCode) :
    tryChunk push code = some (chunkResult f code) := by
  induction code with
  | finish result => rfl
  | index name resume ih =>
    rw [tryChunk, h name, Option.bind_some, ih (f name)]
    rfl

theorem solves_of_settled {depth : ℕ} {f : Text → LuaObject}
    (h : ∀ name, tryPush lua values depth name = some (f name)) : Solves lua values f := by
  intro name
  have hnext := tryPush_succ (h name)
  rw [tryPush] at hnext
  cases hv : values name with
  | none =>
    rw [hv] at hnext
    exact (Option.some.inj hnext).symm
  | some v =>
    rw [hv] at hnext
    cases v with
    | string result => exact (Option.some.inj hnext).symm
    | int integer result => exact (Option.some.inj hnext).symm
    | lua source result =>
      simp only [tryValue, tryChunk_total h, Option.map_some] at hnext
      exact (Option.some.inj hnext).symm

theorem Solves.unique {f : Text → LuaObject} (hf : Solves lua values f) {depth : ℕ}
    {name : Text}
    {object : LuaObject} (h : tryPush lua values depth name = some object) : f name = object := by
  have hchunk {push : Text → Option LuaObject}
      (hpush : ∀ other object, push other = some object → f other = object) {code : LuaCode}
      {result : Option Text} (hcode : tryChunk push code = some result) :
      chunkResult f code = result := by
    induction code with
    | finish result' => exact Option.some.inj hcode
    | index other resume ih =>
      obtain ⟨object, hother, hrest⟩ := Option.bind_eq_some_iff.mp hcode
      rw [chunkResult, hpush other object hother]
      exact ih object hrest
  have hvalue {onLua : Text → Option (Option Text)}
      (hlua : ∀ source result, onLua source = some result → chunkResult f (lua source) = result)
      {name : Text} {object : LuaObject} (h : tryValue onLua (values name) = some object) :
      f name = object := by
    rw [hf name]
    cases hv : values name with
    | none =>
      rw [hv] at h
      exact Option.some.inj h
    | some v =>
      rw [hv] at h
      cases v with
      | string result => exact Option.some.inj h
      | int integer result => exact Option.some.inj h
      | lua source result =>
        obtain ⟨text, htext, rfl⟩ := Option.map_eq_some_iff.mp h
        rw [rightSide, hlua source text htext]
  induction depth generalizing name object with
  | zero => exact hvalue (fun source result hr => by cases hr) h
  | succ depth ih => exact hvalue (fun source result => hchunk fun other object => ih) h

end Bounds

section Code
variable {lua : Lua} {c : Composer}

theorem run_result {depth : ℕ}
    (hpush : ∀ d, SameCombination d c → ∀ name object,
      tryPush lua (currentValue c) depth name = some object →
        (Evaluation.pathcompPushValue (Evaluation.valueEvalLua lua depth) d name).1 = object)
    {code : LuaCode} {result : Option Text}
    (hcode : tryChunk (tryPush lua (currentValue c) depth) code = some result) {d : Composer}
    (hd : SameCombination d c) :
    (code.run (Evaluation.pathcompPushValue (Evaluation.valueEvalLua lua depth)) d).1 = result := by
  induction code generalizing d with
  | finish result' => exact Option.some.inj hcode
  | index name resume ih =>
    obtain ⟨object, hname, hrest⟩ := Option.bind_eq_some_iff.mp hcode
    have hpure := pathcompPushValue_pure (valueEvalLua_pure lua depth) name
    have hframe : SameCombination
        (Evaluation.pathcompPushValue (Evaluation.valueEvalLua lua depth) d name).2 c := by
      rw [SameCombination, hpure.frame d]
      exact hd
    simp only [LuaCode.run]
    rw [hpush d hd name object hname]
    exact ih object hrest hframe

/-- The current values of two composers at the same combination differ in caches only. -/
theorem tryValue_congr {d : Composer} (hd : SameCombination d c)
    (onLua : Text → Option (Option Text)) (name : Text) :
    tryValue onLua (currentValue d name) = tryValue onLua (currentValue c name) := by
  have hsame := currentValue_congr hd name
  have herase (value : Option Value) :
      tryValue onLua (value.map Value.erase) = tryValue onLua value := by
    cases value with
    | none => rfl
    | some v => cases v <;> rfl
  rw [← herase, hsame, herase]

theorem value_result {d : Composer} (hd : SameCombination d c)
    {evalLua : Composer → Text → Text → Option Text × Composer}
    {onLua : Text → Option (Option Text)}
    (hlua : ∀ name source result, onLua source = some result →
      (evalLua d name source).1 = result)
    {name : Text} {object : LuaObject} (h : tryValue onLua (currentValue c name) = some object) :
    (Evaluation.pathcompPushValue evalLua d name).1 = object := by
  rw [← tryValue_congr hd] at h
  cases hv : currentValue d name with
  | none =>
    rw [hv] at h
    rw [push_none hv]
    exact Option.some.inj h
  | some v =>
    rw [hv] at h
    rw [push_some hv]
    cases v with
    | string result => exact Option.some.inj h
    | int integer result => exact Option.some.inj h
    | lua source result =>
      obtain ⟨text, htext, rfl⟩ := Option.map_eq_some_iff.mp h
      exact congrArg luaPushstring (hlua name source text htext)

theorem push_result {depth : ℕ} {d : Composer} (hd : SameCombination d c) {name : Text}
    {object : LuaObject} (h : tryPush lua (currentValue c) depth name = some object) :
    (Evaluation.pathcompPushValue (Evaluation.valueEvalLua lua depth) d name).1 = object := by
  induction depth generalizing d name object with
  | zero => exact value_result hd (fun name source result hr => by cases hr) h
  | succ depth ih =>
    exact value_result hd
      (fun name source result hchunk => run_result (fun e he _ _ => ih he) hchunk hd) h

/-- What `pathcomp_eval` returns is the text of what a chunk gets. -/
theorem eval_pushed (lua : Lua) (depth : ℕ) (d : Composer) (name : Text) :
    (Evaluation.pathcompEvalNocopy lua depth d name).1 =
      objectText (Evaluation.pathcompPushValue (Evaluation.valueEvalLua lua depth) d name).1 := by
  cases hv : currentValue d name with
  | none =>
    rw [push_none hv, evalNocopy_none hv]
    rfl
  | some v =>
    rw [push_some hv, evalNocopy_some hv]
    cases v with
    | string result => rfl
    | int integer result => rfl
    | lua source result => exact (objectText_pushstring _).symm

theorem lua_name_mem {source : Text} {result : Option Text} {name : Text}
    (h : currentValue c name = some (.lua source result)) :
    name ∈ ((c.attributes.filter isLua).map Att.name).toFinset := by
  obtain ⟨att, hatt, hcurrent⟩ := Option.bind_eq_some_iff.mp h
  have hname : att.name = name := by simpa [attNameEqualTo] using List.find?_some hatt
  rw [List.mem_toFinset, List.mem_map]
  refine ⟨att, List.mem_filter.mpr ⟨List.mem_of_find?_eq_some hatt, ?_⟩, hname⟩
  simp only [isLua, hcurrent]

end Code

/-- If no look-up leads back to where it came from, then the equations of a composer have
    exactly one solution. Evaluation gives it, and yield makes the pathname from it as
    long as it keeps its root, whatever the limit on nested evaluations is, from the
    number of Lua values on. -/
theorem evaluation_solves_equations (lua : Lua) (c : Composer)
    (hacyclic : ∀ name, NoCycleFrom (Uses lua (currentValue c)) name) :
    ∃ f, Solves lua (currentValue c) f ∧ (∀ g, Solves lua (currentValue c) g → g = f) ∧
      ∀ depth, luaCount c ≤ depth →
        (∀ name, (Evaluation.pathcompEvalNocopy lua depth c name).1 = objectText (f name)) ∧
        (RootKept lua depth c → (pathcompYield lua depth c).1 =
          joined (objectText (f attRoot)) (objectText (f attCompose))) := by
  let S := ((c.attributes.filter isLua).map Att.name).toFinset
  have hcard : S.card ≤ luaCount c := by
    have hle := List.toFinset_card_le ((c.attributes.filter isLua).map Att.name)
    rwa [List.length_map] at hle
  have hsources : ∀ x y, Uses lua (currentValue c) x y → x ∈ S := by
    rintro x y ⟨source, result, hv, _⟩
    exact lua_name_mem hv
  have hsettled (name : Text) : Settled lua (currentValue c) S.card name := by
    obtain ⟨depth, hdepth⟩ :=
      settled_of_descends ((descends_iff_noCycle hsources name).mpr (hacyclic name))
    exact settled_by_card (fun other source result hv => lua_name_mem hv) hdepth
  choose f hf using hsettled
  refine ⟨f, solves_of_settled hf, fun g hg => ?_, fun depth hdepth => ?_⟩
  · funext name
    exact hg.unique (hf name)
  · have heval (d : Composer) (hd : SameCombination d c) (name : Text) :
        (Evaluation.pathcompEvalNocopy lua depth d name).1 = objectText (f name) := by
      rw [eval_pushed, push_result hd (tryPush_mono (hcard.trans hdepth) (hf name))]
    refine ⟨heval c rfl, fun _ => ?_⟩
    have hroot : SameCombination (Evaluation.pathcompEvalNocopy lua depth c attRoot).2 c :=
      congrArg Composer.attributes ((pathcompEvalNocopy_pure lua depth attRoot).frame c)
    rw [pathcompYield_eq]
    simp only [heval c rfl, heval _ hroot, joined]

def dirSource : Text := ascii "local self = ...;  return self.base "

/-- `compose` looks up `dir`, which looks up `base`. -/
def chainLua : Lua := fun source =>
  if source = dirSource then .index (ascii "base") fun object => .finish (objectText object)
  else .index (ascii "dir") fun object => .finish (objectText object)

def chainComposer : Composer where
  name := ascii "c"
  attributes :=
    [⟨ascii "compose", [.lua (ascii "local self = ...;  return self.dir ") none], some 0, none⟩,
     ⟨ascii "dir", [.lua dirSource none], some 0, none⟩,
     ⟨ascii "base", [.int 7 none], some 0, none⟩]
  metatable := ascii "libpathcomp::c"
  done := false
  started := false

def chainLevel (name : Text) : ℕ :=
  if name = ascii "compose" then 2 else if name = ascii "dir" then 1 else 0

theorem chain_uses {name other : Text} (h : Uses chainLua (currentValue chainComposer) name other) :
    chainLevel other < chainLevel name := by
  have honly {source looked : Text} {resume : LuaObject → Option Text}
      (hcode : chainLua source = .index looked fun object => .finish (resume object))
      (hlook : LooksUp (chainLua source) other) : other = looked := by
    rw [hcode] at hlook
    cases hlook with
    | now => rfl
    | later h => cases h
  obtain ⟨source, result, hv, hlook⟩ := h
  obtain ⟨att, hatt, hcurrent⟩ := Option.bind_eq_some_iff.mp hv
  have hname : att.name = name := by simpa [attNameEqualTo] using List.find?_some hatt
  have hmem := List.mem_of_find?_eq_some hatt
  subst hname
  simp only [chainComposer, List.mem_cons, List.not_mem_nil, or_false] at hmem
  rcases hmem with rfl | rfl | rfl
  · cases hcurrent
    rw [honly rfl hlook]
    decide
  · cases hcurrent
    rw [honly rfl hlook]
    decide
  · cases hcurrent

theorem chain_root_kept : RootKept chainLua 2 chainComposer := by
  have hwrites : writesAfterRoot chainLua 2 chainComposer = [ascii "dir", attCompose] := by rfl
  rw [RootKept, hwrites]
  decide

theorem evaluation_solves_equations_chain :
    ∃ f, Solves chainLua (currentValue chainComposer) f ∧
    (∀ depth, 2 ≤ depth →
      (Evaluation.pathcompEvalNocopy chainLua depth chainComposer attCompose).1 =
        objectText (f attCompose)) ∧
    (pathcompYield chainLua 2 chainComposer).1 =
      joined (objectText (f attRoot)) (objectText (f attCompose)) := by
  have hacyclic (name : Text) : NoCycleFrom (Uses chainLua (currentValue chainComposer)) name := by
    have hwf : WellFounded fun y x => Uses chainLua (currentValue chainComposer) x y :=
      Subrelation.wf chain_uses (measure chainLevel).wf
    exact Descends.noCycle (hwf.apply name)
  obtain ⟨f, hf, _, heval⟩ := evaluation_solves_equations chainLua chainComposer hacyclic
  refine ⟨f, hf, fun depth hdepth => (heval depth hdepth).1 attCompose, ?_⟩
  exact (heval 2 le_rfl).2 chain_root_kept

end Pathcomp.Denotation
