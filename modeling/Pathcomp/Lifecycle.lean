import Pathcomp.Interpreter
import Pathcomp.Search
import Mathlib.Logic.Function.Basic

set_option autoImplicit false

/-!
# The library from its first call to its cleanup

The library has a configuration and an interpreter, which `pathcomp_cleanup` throws
away while composers may still be in use. Of the interpreter a client can see the
global variables, which chunks share until the cleanup, and the set of the classes that
were instantiated since the last one: chunks of their composers can look up attributes,
chunks of other composers cannot. Apart from this every call is as good as one in an
interpreter of its own.
-/
namespace Pathcomp.Lifecycle
open Bytes Buffer Config Values Attributes Composers Evaluation Purity Reachability Search
  Interpreter

section Calls
variable {γ : Type}

def onComposer {α : Type} (f : Composer → α × Composer) : E γ α :=
  fun m => .ok ((f m.composer).1, { m with composer := (f m.composer).2 })

def update (f : Composer → Except Halt Composer) : E γ Unit := fun m =>
  match f m.composer with
  | .error halt => .error halt
  | .ok composer => .ok ((), { m with composer })

def logLines (lines : List Text) : E γ Unit :=
  fun m => .ok ((), { m with log := m.log ++ lines })

variable (lib : Library γ) (depth : ℕ)

def pathcompEval (name : Text) : E γ (Option Text) := do
  pure ((← pathcompEvalNocopy lib depth name).map cstr)

def pathcompYield : E γ (Option Text) := yieldWith (pathcompEvalNocopy lib depth)

def pathcompFind (pathExists : Text → Bool) (fuel : ℕ) : E γ (Option Text) :=
  findWith (onComposer fun composer => ((), advance composer))
    (onComposer fun composer => (pathcompDone composer, composer)) (pathcompYield lib depth)
    (fun path => pure (pathExists path)) fuel

def pathcompMkdir {σ : Type} (mkdir : σ → Text → MkdirResult × σ)
    (strerror : σ → Text) (s : σ) :
    E γ (Int × σ) := do
  match ← pathcompYield lib depth with
  | none => throw .nullPointer
  | some path =>
    match mkdirLoop (mkdirLogging mkdir strerror) (path.length + 1) path 0 (s, []) with
    | .error halt => throw halt
    | .ok (rc, s, lines) => do
      logLines lines
      pure (rc, s)

end Calls

/-- What is outside of the library. Chunks may depend on it, but do not change it. -/
structure Host (σ γ : Type) where
  lib : σ → Library γ
  fresh : γ
  depth : ℕ
  stat : σ → Text → Bool
  mkdir : σ → Text → MkdirResult × σ
  strerror : σ → Text

section Registration
variable {σ γ : Type}

def callOn (host : Host σ γ) (fuel : ℕ) (s : σ) : Op → E γ (Reply × σ)
  | .set name value => do
    update (pathcompSet · name value)
    pure (.void, s)
  | .setInt name value => do
    update (pathcompSetInt · name value)
    pure (.void, s)
  | .add name value => do
    update (pathcompAdd · name value)
    pure (.void, s)
  | .addInt name value => do
    update (pathcompAddInt · name value)
    pure (.void, s)
  | .next => do pure (.flag (← onComposer pathcompNext), s)
  | .done => do pure (.flag (← onComposer fun composer => (pathcompDone composer, composer)), s)
  | .rewind => do
    onComposer fun composer => ((), pathcompRewind composer)
    pure (.void, s)
  | .eval name => do pure (.string (← pathcompEval (host.lib s) host.depth name), s)
  | .yield => do pure (.string (← pathcompYield (host.lib s) host.depth), s)
  | .find => do pure (.string (← pathcompFind (host.lib s) host.depth (host.stat s) fuel), s)
  | .mkdir => do
    let (rc, s) ← pathcompMkdir (host.lib s) host.depth host.mkdir host.strerror s
    pure (.status rc, s)

def luaLNewmetatable (name : Text) : E γ Unit := do
  let state ← interpreterGetState
  match state.tables name with
  | some _ => luaPush (.table name)
  | none => do
    setState { state with tables := Function.update state.tables name (some false) }
    luaPush (.table name)

def luaSetfieldIndex : E γ Unit := do
  match ← luaPop with
  | .callback => do
    let state ← interpreterGetState
    match state.stack with
    | .table name :: _ =>
      setState { state with tables := Function.update state.tables name (some true) }
    | _ => throw .assertion
  | _ => throw .assertion

/-- The part of `pathcomp_new` that follows the construction. -/
def registerMetatable : E γ Unit := do
  luaLNewmetatable (← metatableOf)
  luaPush .callback
  luaSetfieldIndex
  let _ ← luaPop

def interpreterCleanup : Option (LuaState γ) → Except Halt (Option (LuaState γ))
  | none => .ok none
  | some state => if state.stack.length ≠ 0 then .error .assertion else .ok none

end Registration

structure Global (σ γ : Type) where
  config : Option Cf
  state : Option (LuaState γ)
  composers : List Composer
  log : List Text
  outside : σ

/-- Calls of a client; it counts the composers that it has not freed. Between calls the
    world outside may change. -/
inductive Command (σ : Type) where
  | addConfigFromString (string : Text)
  | new (name : Text)
  | clone (i : ℕ)
  | free (i : ℕ)
  | call (i : ℕ) (op : Op)
  | cleanup
  | outside (s : σ)

/-- In place of the interpreter: the classes instantiated since the last cleanup, and
    the global variables. -/
structure Visible (σ γ : Type) where
  config : Option Cf
  classes : List Text
  globals : γ
  composers : List Composer
  log : List Text
  outside : σ

section Sessions
variable {σ γ : Type} (host : Host σ γ) (nesting fuel : ℕ)

/-- A program on one composer with the interpreter and the log of the library. -/
def onMachine {α : Type} (g : Global σ γ) (c : Composer) (prog : E γ α) :
    Except Halt (α × Composer × Global σ γ) :=
  match prog ⟨g.state, host.fresh, c, g.log⟩ with
  | .error halt => .error halt
  | .ok (r, m) => .ok (r, m.composer, { g with state := m.state, log := m.log })

def Command.exec (g : Global σ γ) : Command σ → Except Halt (Reply × Global σ γ)
  | .addConfigFromString string =>
    match cfAddFromString (string.length + 1) (g.config.getD ⟨[]⟩) string with
    | .error halt => .error halt
    | .ok (_, cf) => .ok (.void, { g with config := some cf })
  | .new name =>
    match pathcompNew g.config nesting name with
    | .error halt => .error halt
    | .ok c =>
      match onMachine host g c registerMetatable with
      | .error halt => .error halt
      | .ok (_, c, g) => .ok (.void, { g with composers := g.composers ++ [c] })
  | .clone i =>
    match g.composers[i]? with
    | none => .error .assertion
    | some c =>
      match pathcompClone c with
      | .error halt => .error halt
      | .ok d => .ok (.void, { g with composers := g.composers ++ [d] })
  | .free i => .ok (.void, { g with composers := g.composers.eraseIdx i })
  | .call i op =>
    match g.composers[i]? with
    | none => .error .assertion
    | some c =>
      match onMachine host g c (callOn host fuel g.outside op) with
      | .error halt => .error halt
      | .ok ((reply, s), c, g) =>
        .ok (reply, { g with composers := g.composers.set i c, outside := s })
  | .cleanup =>
    match interpreterCleanup g.state with
    | .error halt => .error halt
    | .ok state => .ok (.void, { g with config := none, state })
  | .outside s => .ok (.void, { g with outside := s })

def session : List (Command σ) → Global σ γ → Except Halt (List Reply × Global σ γ)
  | [], g => .ok ([], g)
  | command :: commands, g =>
    match command.exec host nesting fuel g with
    | .error halt => .error halt
    | .ok (reply, g) =>
      match session commands g with
      | .error halt => .error halt
      | .ok (replies, g) => .ok (reply :: replies, g)

/-- Whether the class has a metatable with `__index`. -/
def registered (classes : List Text) (name : Text) : Option Bool :=
  if classes.contains name then some true else none

/-- A program on one composer in an interpreter of its own, where at most the class of
    the composer is known and the global variables are those given. -/
def onOwn {α : Type} (v : Visible σ γ) (c : Composer) (prog : E γ α) :
    Except Halt (α × Composer × Visible σ γ) :=
  let tables := Function.update (fun _ => none) c.metatable (registered v.classes c.name)
  match prog ⟨some ⟨⟨[], tables⟩, v.globals⟩, host.fresh, c, v.log⟩ with
  | .error halt => .error halt
  | .ok (r, m) => .ok (r, m.composer, { v with globals := m.view.globals, log := m.log })

def Command.step (v : Visible σ γ) : Command σ → Except Halt (Reply × Visible σ γ)
  | .addConfigFromString string =>
    match cfAddFromString (string.length + 1) (v.config.getD ⟨[]⟩) string with
    | .error halt => .error halt
    | .ok (_, cf) => .ok (.void, { v with config := some cf })
  | .new name =>
    match pathcompNew v.config nesting name with
    | .error halt => .error halt
    | .ok c => .ok (.void, { v with classes := name :: v.classes, composers := v.composers ++ [c] })
  | .clone i =>
    match v.composers[i]? with
    | none => .error .assertion
    | some c =>
      match pathcompClone c with
      | .error halt => .error halt
      | .ok d => .ok (.void, { v with composers := v.composers ++ [d] })
  | .free i => .ok (.void, { v with composers := v.composers.eraseIdx i })
  | .call i op =>
    match v.composers[i]? with
    | none => .error .assertion
    | some c =>
      match onOwn host v c (callOn host fuel v.outside op) with
      | .error halt => .error halt
      | .ok ((reply, s), c, v) =>
        .ok (reply, { v with composers := v.composers.set i c, outside := s })
  | .cleanup => .ok (.void, { v with config := none, classes := [], globals := host.fresh })
  | .outside s => .ok (.void, { v with outside := s })

def steps : List (Command σ) → Visible σ γ → Except Halt (List Reply × Visible σ γ)
  | [], v => .ok ([], v)
  | command :: commands, v =>
    match command.step host nesting fuel v with
    | .error halt => .error halt
    | .ok (reply, v) =>
      match steps commands v with
      | .error halt => .error halt
      | .ok (replies, v) => .ok (reply :: replies, v)

/-- The library before its first call. -/
def Global.start (s : σ) : Global σ γ := ⟨none, none, [], [], s⟩

def Visible.start (s : σ) : Visible σ γ := ⟨none, [], host.fresh, [], [], s⟩

end Sessions

def metatableName (name : Text) : Text :=
  bufDetach (bufAddstr (bufAddstr bufInit metatablePrefix) name)

/-- The classes instantiated since the last cleanup, after a command. -/
def Command.instantiated {σ : Type} (classes : List Text) : Command σ → List Text
  | .new name => name :: classes
  | .cleanup => []
  | _ => classes

def Global.lua {σ γ : Type} (host : Host σ γ) (g : Global σ γ) : LuaState γ :=
  g.state.getD (luaLNewstate host.fresh)

/-- The stack is empty between two calls, the metatables are those of the classes, and
    every composer has the metatable of its class. -/
structure Represents {σ γ : Type} (host : Host σ γ) (g : Global σ γ)
    (v : Visible σ γ) : Prop where
  config : g.config = v.config
  composers : g.composers = v.composers
  log : g.log = v.log
  outside : g.outside = v.outside
  stack : (g.lua host).stack = []
  globals : (g.lua host).globals = v.globals
  classes : ∀ name, (g.lua host).tables (metatableName name) = registered v.classes name
  valid : ∀ c ∈ v.composers, c.metatable = metatableName c.name

/-- The same replies, or the same way to stop. -/
def Agree {σ γ α : Type} (host : Host σ γ) :
    Except Halt (α × Global σ γ) → Except Halt (α × Visible σ γ) → Prop
  | .error halt, .error halt' => halt = halt'
  | .ok (r, g), .ok (r', v) => r = r' ∧ Represents host g v
  | _, _ => False

theorem addOrReplace_sameClass {c d : Composer} {name : Text} {value : Value}
    {origin : Option Text} {action : Action}
    (h : pathcompAddOrReplace c name value origin action = .ok d) : SameClass c d := by
  rcases addOrReplace_cases c name value origin action with ⟨_, he⟩ | he | he | he
  all_goals
    rw [he] at h
    cases h
    exact ⟨rfl, rfl⟩

theorem pathcompNext_sameClass (c : Composer) : SameClass c (pathcompNext c).2 := by
  unfold pathcompNext
  split
  · exact ⟨rfl, rfl⟩
  · simp only
    split <;> exact ⟨rfl, rfl⟩

theorem advance_sameClass (c : Composer) : SameClass c (advance c) := by
  unfold advance
  split
  · exact ⟨(pathcompNext_sameClass c).name, (pathcompNext_sameClass c).metatable⟩
  · exact ⟨rfl, rfl⟩

theorem pathcompClone_sameClass {c d : Composer} (h : pathcompClone c = .ok d) : SameClass c d := by
  unfold pathcompClone at h
  split at h
  · cases h
  · cases h
    exact ⟨rfl, rfl⟩

theorem pathcompNew_class {config : Option Cf} {nesting : ℕ} {name : Text} {c : Composer}
    (h : pathcompNew config nesting name = .ok c) :
    c.name = name ∧ c.metatable = metatableName name := by
  unfold pathcompNew at h
  simp only at h
  split at h
  · cases h
  · rename_i d hd
    have hname : d.name = name := addAttsFromSections_keeps (P := fun d => d.name = name)
      (fun c d key value origin hp he => (addOrReplace_sameClass he).name.trans hp) rfl hd
    cases h
    exact ⟨hname, rfl⟩

theorem metatableName_inj {name name' : Text} (h : metatableName name = metatableName name') :
    name = name' := by
  simp only [metatableName, bufDetach, bufAddstr, bufInit] at h
  exact List.append_cancel_left h

section Evaluating
variable {γ : Type} {plain : Prop} {metatable : Text} {own : Option Bool} {v : View γ}

theorem evaluates_pure {α : Type} (r : α) (v : View γ) :
    Evaluates plain metatable own (pure r) v (.ok (r, v.composer)) :=
  .of_runs fun frame => Runs.ret r frame v

theorem evaluates_onComposer {α : Type} (f : Composer → α × Composer)
    (h : SameClass v.composer (f v.composer).2) :
    Evaluates plain metatable own (onComposer f) v (.ok (f v.composer)) := by
  refine ⟨.ok ((f v.composer).1, { v with composer := (f v.composer).2 }), fun frame _ => ?_,
    fun _ => rfl⟩
  refine ⟨h, fun m hm => ⟨{ m with composer := (f m.composer).2 }, ?_, ?_, rfl⟩⟩
  · rw [onComposer, hm.composer]
  · exact ⟨hm.state, by rw [hm.composer], hm.log⟩

theorem evaluates_update (f : Composer → Except Halt Composer)
    (h : ∀ d, f v.composer = .ok d → SameClass v.composer d) :
    Evaluates plain metatable own (update f) v ((f v.composer).map fun d => ((), d)) := by
  cases hf : f v.composer with
  | error halt =>
    refine ⟨.error halt, fun frame _ m hm => ?_, fun _ => rfl⟩
    rw [← hm.composer] at hf
    simp only [update, hf]
  | ok d =>
    refine ⟨.ok ((), { v with composer := d }), fun frame _ => ?_, fun _ => rfl⟩
    refine ⟨h d hf, fun m hm =>
      ⟨{ m with composer := d }, ?_, ⟨hm.state, rfl, hm.log⟩, rfl⟩⟩
    rw [← hm.composer] at hf
    simp only [update, hf]

variable (lib : Interpreter.Library γ) (lua : Lua) (depth : ℕ)

theorem evaluates_eval (hv : v.composer.metatable = metatable) (name : Text) :
    Evaluates (PlainLibrary lib (own = some true) lua) metatable own
      (pathcompEval lib depth name) v (.ok (Evaluation.pathcompEval lua depth v.composer name)) :=
  (evaluates_evalNocopy lib lua depth v hv name).map fun s => s.map cstr

theorem evaluates_yield (hv : v.composer.metatable = metatable) :
    Evaluates (PlainLibrary lib (own = some true) lua) metatable own (pathcompYield lib depth) v
      (.ok (Evaluation.pathcompYield lua depth v.composer)) := by
  rw [pathcompYield_eq]
  refine (evaluates_evalNocopy lib lua depth v hv attRoot).then fun root v' hclass hroot => ?_
  refine (evaluates_evalNocopy lib lua depth v' (hclass.metatable.trans hv) attCompose).then
    fun compose v'' _ hcompose => (evaluates_pure _ v'').congr fun hp => ?_
  simp only [← hroot hp, ← hcompose hp]
  rfl

theorem evaluates_find (pathExists : Text → Bool) (fuel : ℕ)
    (hv : v.composer.metatable = metatable) :
    Evaluates (PlainLibrary lib (own = some true) lua) metatable own
      (pathcompFind lib depth pathExists fuel) v
      (Evaluation.pathcompFind lua depth pathExists fuel v.composer) := by
  induction fuel generalizing v with
  | zero => exact ⟨.error .bound, fun _ _ _ _ => rfl, fun _ => rfl⟩
  | succ fuel ih =>
    refine (evaluates_onComposer (fun composer => ((), advance composer))
      (advance_sameClass v.composer)).then fun _ v₁ hclass hadvance => ?_
    refine (evaluates_onComposer (fun composer => (pathcompDone composer, composer))
      (.refl v₁.composer)).then fun stop v₂ hclass' hstop => ?_
    have hround (hp : PlainLibrary lib (own = some true) lua) :
        stop = (advance v.composer).done ∧ v₂.composer = advance v.composer := by
      obtain ⟨hdone, hsame⟩ := Prod.mk.inj (hstop hp)
      rw [← (Prod.mk.inj (hadvance hp)).2]
      exact ⟨hdone, hsame⟩
    have hmetatable := hclass'.metatable.trans (hclass.metatable.trans hv)
    cases stop with
    | true =>
      refine (evaluates_pure none v₂).congr fun hp => ?_
      rw [pathcompFind_succ, if_pos (hround hp).1.symm, (hround hp).2]
    | false =>
      refine (evaluates_yield lib lua depth hmetatable).then fun path v₃ hclass'' hyield => ?_
      have hlater := ih (hclass''.metatable.trans hmetatable)
      cases path with
      | none =>
        refine hlater.congr fun hp => ?_
        rw [pathcompFind_succ, ← (hround hp).1, ← (hround hp).2, ← hyield hp]
        rfl
      | some path =>
        simp only [pure_bind]
        by_cases hexists : pathExists path
        · rw [if_pos hexists]
          refine (evaluates_pure _ v₃).congr fun hp => ?_
          rw [pathcompFind_succ, ← (hround hp).1, ← (hround hp).2, ← hyield hp]
          simp [hexists]
        · rw [if_neg hexists]
          refine hlater.congr fun hp => ?_
          rw [pathcompFind_succ, ← (hround hp).1, ← (hround hp).2, ← hyield hp]
          simp [hexists]

theorem evaluates_mkdir {σ : Type} (mkdir : σ → Text → MkdirResult × σ)
    (strerror : σ → Text) (s : σ) (hv : v.composer.metatable = metatable) :
    Evaluates (PlainLibrary lib (own = some true) lua) metatable own
      (pathcompMkdir lib depth mkdir strerror s) v
      ((Evaluation.pathcompMkdir lua depth mkdir v.composer s).map
        fun x => ((x.1, x.2.2), x.2.1)) := by
  refine (evaluates_yield lib lua depth hv).then fun path v' _ hyield => ?_
  cases path with
  | none =>
    refine ⟨.error .nullPointer, fun _ _ _ _ => rfl, fun hp => ?_⟩
    simp only [Evaluation.pathcompMkdir, ← hyield hp]
    rfl
  | some path =>
    obtain ⟨message, hlogged⟩ := mkdirLoop_logging mkdir strerror (path.length + 1) path 0 s []
    simp only [hlogged]
    cases hloop : mkdirLoop mkdir (path.length + 1) path 0 s with
    | error halt =>
      refine ⟨.error halt, fun _ _ _ _ => rfl, fun hp => ?_⟩
      simp only [Evaluation.pathcompMkdir, ← hyield hp, hloop]
      rfl
    | ok x =>
      obtain ⟨rc, t⟩ := x
      simp only [Except.map]
      refine ⟨.ok ((rc, t), { v' with log := v'.log ++ if rc = -1 then [message] else [] }),
        fun frame _ => ⟨.refl _, fun m hm => ⟨{ m with log := m.log ++ _ }, rfl,
          ⟨hm.state, hm.composer, by rw [hm.log, List.nil_append]⟩, rfl⟩⟩, fun hp => ?_⟩
      simp only [Evaluation.pathcompMkdir, ← hyield hp, hloop]
      rfl

end Evaluating

theorem evaluates_call {σ γ : Type} (host : Host σ γ) (lua : Lua) (fuel : ℕ)
    (own : Option Bool) (v : View γ) (s : σ) (op : Op) :
    Evaluates (PlainLibrary (host.lib s) (own = some true) lua) v.composer.metatable own
      (callOn host fuel s op) v
      ((op.exec ⟨fun _ => lua, host.depth, host.stat, host.mkdir⟩ fuel v.composer s).map
        fun x => ((x.1, x.2.2), x.2.1)) := by
  have hvoid (f : Composer → Except Halt Composer)
      (hf : ∀ d, f v.composer = .ok d → SameClass v.composer d) :
      Evaluates (PlainLibrary (host.lib s) (own = some true) lua) v.composer.metatable own (do
        update f
        pure (Reply.void, s)) v
        ((replyVoid s (f v.composer)).map fun x => ((x.1, x.2.2), x.2.1)) := by
    refine ((evaluates_update f hf).map fun _ => (Reply.void, s)).congr fun _ => ?_
    cases f v.composer <;> rfl
  cases op with
  | set name value => exact hvoid (pathcompSet · name value) fun _ => addOrReplace_sameClass
  | setInt name value => exact hvoid (pathcompSetInt · name value) fun _ => addOrReplace_sameClass
  | add name value => exact hvoid (pathcompAdd · name value) fun _ => addOrReplace_sameClass
  | addInt name value => exact hvoid (pathcompAddInt · name value) fun _ => addOrReplace_sameClass
  | next => exact (evaluates_onComposer _ (pathcompNext_sameClass _)).map fun b => (Reply.flag b, s)
  | done => exact (evaluates_onComposer _ (.refl _)).map fun b => (Reply.flag b, s)
  | rewind => exact (evaluates_onComposer _ ⟨rfl, rfl⟩).map fun _ => (Reply.void, s)
  | eval name =>
    exact (evaluates_eval (host.lib s) lua host.depth rfl name).map fun r => (Reply.string r, s)
  | yield =>
    exact (evaluates_yield (host.lib s) lua host.depth rfl).map fun r => (Reply.string r, s)
  | find =>
    refine ((evaluates_find (host.lib s) lua host.depth (host.stat s) fuel rfl).map
      fun r => (Reply.string r, s)).congr fun _ => ?_
    simp only [Op.exec]
    cases Evaluation.pathcompFind lua host.depth (host.stat s) fuel v.composer <;> rfl
  | mkdir =>
    refine ((evaluates_mkdir (host.lib s) lua host.depth host.mkdir host.strerror s rfl).map
      fun x => (Reply.status x.1, x.2)).congr fun _ => ?_
    simp only [Op.exec]
    cases Evaluation.pathcompMkdir lua host.depth host.mkdir v.composer s <;> rfl

theorem runs_register {γ : Type} (stack : List (Slot γ)) (tables : Text → Option Bool)
    (v : View γ) :
    Runs registerMetatable ⟨stack, tables⟩ v
      ⟨stack, Function.update tables v.composer.metatable (some true)⟩ (.ok ((), v)) := by
  generalize hname : v.composer.metatable = name
  have hnew : Runs (luaLNewmetatable name) ⟨stack, tables⟩ v
      ⟨.table name :: stack, if (tables name).isSome then tables
        else Function.update tables name (some false)⟩ (.ok ((), v)) := by
    refine (runs_get _ v).then ?_
    cases htable : tables name with
    | none =>
      simp only [htable]
      exact (runs_setState _ v _).then (runs_push _ v _)
    | some b =>
      simp only [htable]
      exact runs_push _ v _
  have hsame (b : Bool) : Function.update (if b then tables
      else Function.update tables name (some false)) name (some true) =
      Function.update tables name (some true) := by
    cases b with
    | false => exact Function.update_idem _ _ _
    | true => rfl
  have hfield : Runs luaSetfieldIndex
      ⟨.callback :: .table name :: stack, if (tables name).isSome then tables
        else Function.update tables name (some false)⟩ v
      ⟨.table name :: stack, Function.update tables name (some true)⟩ (.ok ((), v)) := by
    rw [← hsame (tables name).isSome]
    exact (runs_pop v _ _ _).then ((runs_get _ v).then (runs_setState _ v _))
  have hmetatable := runs_metatableOf ⟨stack, tables⟩ v
  rw [hname] at hmetatable
  exact hmetatable.then (hnew.then ((runs_push _ v _).then
    (hfield.then ((runs_pop v _ _ _).then (Runs.ret () _ v)))))

section Agreement
variable {σ γ : Type} {host : Host σ γ} {nesting fuel : ℕ} {g : Global σ γ}
  {v : Visible σ γ}

/-- What a program sees of a composer of the library. -/
def Visible.view (v : Visible σ γ) (c : Composer) : View γ := ⟨v.globals, c, v.log⟩

theorem shows_shared (h : Represents host g v) (c : Composer) :
    Machine.Shows ⟨g.state, host.fresh, c, g.log⟩ ⟨[], (g.lua host).tables⟩ (v.view c) := by
  refine ⟨?_, rfl, h.log⟩
  change g.lua host = ⟨⟨[], (g.lua host).tables⟩, v.globals⟩
  rw [← h.stack, ← h.globals]

theorem onMachine_runs {α : Type} {c : Composer} {prog : E γ α} {frame : Frame γ} {r : α}
    {view : View γ} (h : Represents host g v)
    (hruns : Runs prog ⟨[], (g.lua host).tables⟩ (v.view c) frame (.ok (r, view))) :
    ∃ state, onMachine host g c prog =
        .ok (r, view.composer, { g with state, log := view.log }) ∧
      state.getD (luaLNewstate host.fresh) = ⟨frame, view.globals⟩ := by
  obtain ⟨m, hrun, hm, hfresh⟩ := hruns.2 _ (shows_shared h c)
  refine ⟨m.state, ?_, ?_⟩
  · rw [onMachine, hrun, ← hm.composer, ← hm.log]
  · rw [← hm.state, Machine.view, hfresh]

theorem onMachine_halts {α : Type} {c : Composer} {prog : E γ α} {frame : Frame γ} {halt : Halt}
    (h : Represents host g v)
    (hruns : Runs prog ⟨[], (g.lua host).tables⟩ (v.view c) frame (.error halt)) :
    onMachine host g c prog = .error halt := by
  rw [onMachine, hruns _ (shows_shared h c)]

theorem onOwn_evaluates {α : Type} {c : Composer} {prog : E γ α}
    {result : Except Halt (α × View γ)}
    (hruns : ∀ frame : Frame γ, frame.tables c.metatable = registered v.classes c.name →
      Runs prog frame (v.view c) frame result) :
    onOwn host v c prog =
      result.map fun x => (x.1, x.2.composer,
        { v with globals := x.2.globals, log := x.2.log }) := by
  have hframe := hruns ⟨[], Function.update (fun _ => none) c.metatable
    (registered v.classes c.name)⟩ (by simp only [Function.update_self])
  cases result with
  | error halt =>
    rw [onOwn, hframe _ ⟨rfl, rfl, rfl⟩]
    rfl
  | ok x =>
    obtain ⟨m, hrun, hm, _⟩ := hframe.2
      ⟨some ⟨⟨[], _⟩, v.globals⟩, host.fresh, c, v.log⟩
      ⟨rfl, rfl, rfl⟩
    rw [onOwn, hrun]
    simp only [hm.composer, hm.log, hm.state]
    rfl

theorem own_table (h : Represents host g v) {c : Composer} (hc : c ∈ v.composers) :
    (g.lua host).tables c.metatable = registered v.classes c.name := by
  rw [h.valid c hc]
  exact h.classes c.name

theorem new_agrees (h : Represents host g v) (name : Text) :
    Agree host ((Command.new name).exec host nesting fuel g)
      ((Command.new name).step host nesting fuel v) := by
  simp only [Command.exec, Command.step, h.config]
  cases hnew : pathcompNew v.config nesting name with
  | error halt => exact rfl
  | ok c =>
    obtain ⟨hname, hmetatable⟩ := pathcompNew_class hnew
    obtain ⟨state, hrun, hstate⟩ :=
      onMachine_runs h (runs_register [] (g.lua host).tables (v.view c))
    simp only [hrun]
    refine ⟨rfl, h.config, ?_, rfl, h.outside, ?_, ?_, fun other => ?_, fun d hd => ?_⟩
    · rw [h.composers]
      rfl
    · exact congrArg (fun state => state.stack) hstate
    · exact congrArg LuaState.globals hstate
    · change (state.getD (luaLNewstate host.fresh)).tables (metatableName other) = _
      rw [hstate]
      change Function.update (g.lua host).tables c.metatable (some true) (metatableName other) = _
      rw [hmetatable, registered]
      by_cases he : other = name
      · subst he
        rw [Function.update_self, if_pos (by simp)]
      · rw [Function.update_of_ne fun hm => he (metatableName_inj hm), h.classes other, registered]
        simp [he]
    · rcases List.mem_append.mp hd with hd | hd
      · exact h.valid d hd
      · rw [List.mem_singleton.mp hd, hmetatable, hname]

theorem call_agrees (h : Represents host g v) (i : ℕ) (op : Op) :
    Agree host ((Command.call i op).exec host nesting fuel g)
      ((Command.call i op).step host nesting fuel v) := by
  simp only [Command.exec, Command.step, h.composers]
  cases hi : v.composers[i]? with
  | none => exact rfl
  | some c =>
    have hc := List.mem_of_getElem? hi
    obtain ⟨result, hruns, _⟩ := evaluates_call host (fun _ => .finish none) fuel
      (registered v.classes c.name) (v.view c) v.outside op
    have hshared := hruns ⟨[], (g.lua host).tables⟩ (own_table h hc)
    have hown := @onOwn_evaluates σ γ host v _ c _ result hruns
    simp only [h.outside]
    rw [hown]
    cases result with
    | error halt =>
      rw [onMachine_halts h hshared]
      exact rfl
    | ok x =>
      obtain ⟨⟨reply, s⟩, view⟩ := x
      obtain ⟨state, hrun, hstate⟩ := onMachine_runs h hshared
      rw [hrun]
      refine ⟨rfl, h.config, ?_, rfl, rfl, ?_, ?_, fun name => ?_, fun e he => ?_⟩
      · simp only [h.composers]
      · exact congrArg (fun state => state.stack) hstate
      · exact congrArg LuaState.globals hstate
      · rw [← h.classes name]
        exact congrArg (fun state => state.tables (metatableName name)) hstate
      · rcases List.mem_or_eq_of_mem_set he with he | rfl
        · exact h.valid e he
        · have hclass : SameClass c view.composer := hshared.1
          rw [hclass.metatable, hclass.name, h.valid c hc]

theorem cleanup_empty (h : Represents host g v) : interpreterCleanup g.state = .ok none := by
  have hstack := h.stack
  unfold Global.lua at hstack
  cases hstate : g.state with
  | none => rfl
  | some state =>
    rw [hstate, Option.getD_some] at hstack
    rw [interpreterCleanup, hstack]
    rfl

theorem command_agrees (h : Represents host g v) (command : Command σ) :
    Agree host (command.exec host nesting fuel g) (command.step host nesting fuel v) := by
  cases command with
  | addConfigFromString string =>
    simp only [Command.exec, Command.step, h.config]
    cases cfAddFromString (string.length + 1) (v.config.getD ⟨[]⟩) string with
    | error halt => exact rfl
    | ok x =>
      exact ⟨rfl, rfl, h.composers, h.log, h.outside, h.stack, h.globals, h.classes, h.valid⟩
  | new name => exact new_agrees h name
  | clone i =>
    simp only [Command.exec, Command.step, h.composers]
    cases hi : v.composers[i]? with
    | none => exact rfl
    | some c =>
      simp only
      cases hclone : pathcompClone c with
      | error halt => exact rfl
      | ok d =>
        have hclass := pathcompClone_sameClass hclone
        refine ⟨rfl, h.config, rfl, h.log, h.outside, h.stack, h.globals, h.classes,
          fun e he => ?_⟩
        rcases List.mem_append.mp he with he | he
        · exact h.valid e he
        · rw [List.mem_singleton.mp he, hclass.metatable, hclass.name,
            h.valid c (List.mem_of_getElem? hi)]
  | free i =>
    refine ⟨rfl, h.config, ?_, h.log, h.outside, h.stack, h.globals, h.classes, fun d hd => ?_⟩
    · simp only [h.composers]
    · exact h.valid d (List.mem_of_mem_eraseIdx hd)
  | call i op => exact call_agrees h i op
  | cleanup =>
    simp only [Command.exec, Command.step, cleanup_empty h]
    exact ⟨rfl, rfl, h.composers, h.log, h.outside, rfl, rfl, fun _ => rfl, h.valid⟩
  | outside s =>
    exact ⟨rfl, h.config, h.composers, h.log, rfl, h.stack, h.globals, h.classes, h.valid⟩

theorem agree_cases {α : Type} {x : Except Halt (α × Global σ γ)}
    {y : Except Halt (α × Visible σ γ)} (h : Agree host x y) :
    (∃ halt, x = .error halt ∧ y = .error halt) ∨
      ∃ r g v, x = .ok (r, g) ∧ y = .ok (r, v) ∧ Represents host g v := by
  cases x with
  | error halt =>
    cases y with
    | error halt' =>
      obtain rfl : halt = halt' := h
      exact .inl ⟨halt, rfl, rfl⟩
    | ok y => exact h.elim
  | ok x =>
    cases y with
    | error halt => exact h.elim
    | ok y =>
      obtain ⟨r, g⟩ := x
      obtain ⟨r', v⟩ := y
      obtain ⟨rfl, hrep⟩ : r = r' ∧ Represents host g v := h
      exact .inr ⟨r, g, v, rfl, rfl, hrep⟩

theorem session_agrees (commands : List (Command σ)) (h : Represents host g v) :
    Agree host (session host nesting fuel commands g) (steps host nesting fuel commands v) := by
  induction commands generalizing g v with
  | nil => exact ⟨rfl, h⟩
  | cons command commands ih =>
    simp only [session, steps]
    rcases agree_cases (@command_agrees σ γ host nesting fuel g v h command) with
      ⟨halt, hg, hv⟩ | ⟨reply, g', v', hg, hv, h'⟩
    · rw [hg, hv]
      exact rfl
    · simp only [hg, hv]
      rcases agree_cases (ih h') with ⟨halt, hg, hv⟩ | ⟨replies, g'', v'', hg, hv, h''⟩
      · rw [hg, hv]
        exact rfl
      · rw [hg, hv]
        exact ⟨rfl, h''⟩

theorem start_represents (s : σ) : Represents host (Global.start s) (Visible.start host s) where
  config := rfl
  composers := rfl
  log := rfl
  outside := rfl
  stack := rfl
  globals := rfl
  classes := fun _ => rfl
  valid := fun c hc => by cases hc

theorem step_classes {command : Command σ} {v v' : Visible σ γ} {reply : Reply}
    (h : command.step host nesting fuel v = .ok (reply, v')) :
    v'.classes = command.instantiated v.classes := by
  cases command with
  | addConfigFromString | new =>
    simp only [Command.step] at h
    split at h
    · cases h
    · cases h
      rfl
  | clone =>
    simp only [Command.step] at h
    split at h
    · cases h
    · split at h
      · cases h
      · cases h
        rfl
  | call =>
    simp only [Command.step, onOwn] at h
    split at h
    · cases h
    · split at h
      · cases h
      · rename_i hown
        split at hown
        · cases hown
        · cases hown
          cases h
          rfl
  | free | cleanup | outside =>
    cases h
    rfl

theorem steps_classes {commands : List (Command σ)} {v v' : Visible σ γ} {replies : List Reply}
    (h : steps host nesting fuel commands v = .ok (replies, v')) :
    v'.classes = commands.foldl Command.instantiated v.classes := by
  induction commands generalizing v replies with
  | nil =>
    cases h
    rfl
  | cons command commands ih =>
    simp only [steps] at h
    split at h
    · cases h
    · rename_i hstep
      split at h
      · cases h
      · rename_i hrest
        cases h
        rw [ih hrest, step_classes hstep, List.foldl_cons]

end Agreement

/-- From the first call on, and through any number of cleanups, each call gives the reply,
    or stops in the way, that it does in an interpreter of its own with the same global
    variables, in which the class of its composer is known if it was instantiated since
    the last cleanup. The stack is empty whenever the interpreter is closed. Where chunks
    take no notice of the global variables, a call gives what the model without an
    interpreter gives. -/
theorem shared_interpreter {σ γ : Type} (host : Host σ γ) (nesting fuel : ℕ) (s : σ)
    (commands : List (Command σ)) :
    Agree host (session host nesting fuel commands (.start s))
      (steps host nesting fuel commands (.start host s)) ∧
    ∀ replies g, session host nesting fuel commands (.start s) = .ok (replies, g) →
      interpreterCleanup g.state = .ok none ∧
      ∀ c ∈ g.composers, ∀ op lua,
        PlainLibrary (host.lib g.outside)
          ((commands.foldl Command.instantiated []).contains c.name) lua →
        (onMachine host g c (callOn host fuel g.outside op)).map
            (fun x => (x.1.1, x.2.1, x.1.2)) =
          op.exec ⟨fun _ => lua, host.depth, host.stat, host.mkdir⟩ fuel c g.outside := by
  have hagree := @session_agrees σ γ host nesting fuel _ _ commands (start_represents s)
  refine ⟨hagree, fun replies g hg => ?_⟩
  rcases agree_cases hagree with ⟨halt, hhalt, _⟩ | ⟨replies', g', v, hg', hv, h⟩
  · rw [hg] at hhalt
    cases hhalt
  · rw [hg] at hg'
    cases hg'
    refine ⟨cleanup_empty h, fun c hc op lua hlua => ?_⟩
    rw [h.composers] at hc
    obtain ⟨result, hruns, hplain⟩ := evaluates_call host lua fuel (registered v.classes c.name)
      (v.view c) g.outside op
    have hbound : decide (registered v.classes c.name = some true) =
        (commands.foldl Command.instantiated []).contains c.name := by
      rw [show commands.foldl Command.instantiated [] = v.classes from (steps_classes hv).symm,
        registered]
      cases v.classes.contains c.name <;> rfl
    rw [hbound] at hplain
    have hshared := hruns ⟨[], (g.lua host).tables⟩ (own_table h hc)
    have hexpected := hplain hlua
    change _ = Except.map _ (op.exec _ fuel c g.outside) at hexpected
    cases hexec : op.exec ⟨fun _ => lua, host.depth, host.stat, host.mkdir⟩ fuel c
      g.outside with
    | error halt =>
      rw [hexec] at hexpected
      cases result with
      | error halt' =>
        cases hexpected
        rw [onMachine_halts h hshared]
        rfl
      | ok x => cases hexpected
    | ok y =>
      rw [hexec] at hexpected
      cases result with
      | error halt => cases hexpected
      | ok x =>
        obtain ⟨⟨reply, t⟩, view⟩ := x
        obtain ⟨reply', d, t'⟩ := y
        simp only [Except.map, Except.ok.injEq, Prod.mk.injEq] at hexpected
        obtain ⟨⟨rfl, rfl⟩, rfl⟩ := hexpected
        obtain ⟨state, hrun, _⟩ := onMachine_runs h hshared
        rw [hrun]
        rfl

/-- Every chunk counts its runs in a global variable and looks up the attribute `root` of
    its composer. -/
def rootHost (result : LuaObject → ℕ → Option Text) : Host Unit ℕ where
  lib _ :=
    { load := fun _ => .ok fun runs => .index (.string attRoot) (runs + 1)
        (fun object runs => .ret (result object runs) runs) fun message runs =>
          .error (some message) runs
      overflow := ascii "C stack overflow"
      unindexable := fun _ => ascii "attempt to index a userdata value" }
  fresh := 0
  depth := 2
  stat _ _ := false
  mkdir s _ := (.created, s)
  strerror _ := []

/-- The number of the run is appended to what was found. -/
def countHost : Host Unit ℕ :=
  rootHost fun object runs => (objectText object).map (· ++ formatInt (.ofNat runs))

/-- What was found is all that is returned. -/
def echoHost : Host Unit ℕ := rootHost fun object _ => objectText object

def echoLua : Lua := fun _ => .index attRoot fun object => .finish (objectText object)

theorem echo_plain : PlainLibrary (echoHost.lib ()) true echoLua := by
  intro source
  refine ⟨fun message h => (by cases h), fun chunk h globals => ?_⟩
  cases h
  exact ⟨attRoot, _, rfl, rfl, fun object globals => rfl⟩

/-- A class is used by two composers before a cleanup, without success after it, and again
    once it is instantiated. -/
def countCommands : List (Command Unit) :=
  [.addConfigFromString (ascii "[c]\nroot=/usr\npath=lua \x7b\x7d"), .new (ascii "c"), .clone 0,
    .call 0 (.eval (ascii "path")), .call 1 (.eval (ascii "path")), .cleanup,
    .call 0 (.eval (ascii "path")), .new (ascii "c"), .call 1 (.eval (ascii "path"))]

theorem shared_interpreter_count :
    (∃ g, session countHost 1 1 countCommands (.start ()) =
      .ok ([.void, .void, .void, .string (some (ascii "/usr1")), .string (some (ascii "/usr2")),
        .void, .string none, .void, .string (some (ascii "/usr2"))], g)) ∧
    ∃ replies g, session echoHost 1 1 countCommands (.start ()) = .ok (replies, g) ∧
      interpreterCleanup g.state = .ok none ∧
      ∀ c ∈ g.composers, c.name = ascii "c" → ∀ op,
        (onMachine echoHost g c (callOn echoHost 1 g.outside op)).map
            (fun x => (x.1.1, x.2.1, x.1.2)) =
          op.exec ⟨fun _ => echoLua, 2, echoHost.stat, echoHost.mkdir⟩ 1 c g.outside := by
  have hreplies (host : Host Unit ℕ) (replies : List Reply)
      (h : (steps host 1 1 countCommands (.start host ())).map Prod.fst = .ok replies) :
      ∃ g, session host 1 1 countCommands (.start ()) = .ok (replies, g) := by
    rcases agree_cases (shared_interpreter host 1 1 () countCommands).1 with
      ⟨halt, _, hv⟩ | ⟨replies', g, v, hg, hv, _⟩
    · rw [hv] at h
      cases h
    · rw [hv] at h
      cases h
      exact ⟨g, hg⟩
  refine ⟨hreplies countHost _ (by decide +kernel), ?_⟩
  obtain ⟨g, hg⟩ := hreplies echoHost
    [.void, .void, .void, .string (some (ascii "/usr")), .string (some (ascii "/usr")),
      .void, .string none, .void, .string (some (ascii "/usr"))] (by decide +kernel)
  obtain ⟨hclean, hcall⟩ := (shared_interpreter echoHost 1 1 () countCommands).2 _ g hg
  refine ⟨_, g, hg, hclean, fun c hc hname op => hcall c hc op echoLua ?_⟩
  rw [hname]
  exact echo_plain

end Pathcomp.Lifecycle
