import Pathcomp.Purity

set_option autoImplicit false

/-!
# The Lua interpreter behind evaluation

`value_eval_lua` works on the stack of one interpreter that all composers share and
that is created when it is first asked for. A chunk gets hold of its composer through
userdata, whose metatable `pathcomp_new` has registered under the name of the class.
Without that table a look-up raises an error in the chunk. What chunks leave in the
global variables is there for the chunks that run later.
-/
namespace Pathcomp.Interpreter
open Bytes Values Attributes Composers Evaluation

/-- What a chunk does once it runs, with the global variables `γ` as it leaves them. It
    may catch the error that a look-up raises. A result, or an error object, that is no
    string is `none`; a key that is no string and no number is `nil`. -/
inductive Chunk (γ : Type) where
  | ret (result : Option Text) (globals : γ)
  | error (message : Option Text) (globals : γ)
  | index (key : LuaObject) (globals : γ) (resume : LuaObject → γ → Chunk γ)
      (raised : Text → γ → Chunk γ)

inductive Slot (γ : Type) where
  | object (object : LuaObject)
  | function (chunk : γ → Chunk γ)
  | userdata (metatable : Option Text)
  | table (name : Text)
  | callback

/-- The stack of the running function, top first, and the registered metatables: whether
    there is one of a name, and whether its field `__index` is set. -/
structure Frame (γ : Type) where
  stack : List (Slot γ)
  tables : Text → Option Bool

structure LuaState (γ : Type) extends Frame γ where
  globals : γ

/-- `luaL_loadstring`, and the messages of the errors that Lua itself raises. -/
structure Library (γ : Type) where
  load : Text → Except Text (γ → Chunk γ)
  overflow : Text
  unindexable : LuaObject → Text

/-- `fresh` are the global variables that `luaL_openlibs` sets up. -/
structure Machine (γ : Type) where
  state : Option (LuaState γ)
  fresh : γ
  composer : Composer
  log : List Text

abbrev E (γ : Type) := StateT (Machine γ) (Except Halt)

def luaLNewstate {γ : Type} (fresh : γ) : LuaState γ := ⟨⟨[], fun _ => none⟩, fresh⟩

section Programs
variable {γ : Type}

def interpreterGetState : E γ (LuaState γ) := fun m =>
  match m.state with
  | some state => .ok (state, m)
  | none => .ok (luaLNewstate m.fresh, { m with state := some (luaLNewstate m.fresh) })

def setState (state : LuaState γ) : E γ Unit := fun m => .ok ((), { m with state := some state })

def pathcompLogError (message : Text) : E γ Unit :=
  fun m => .ok ((), { m with log := m.log ++ [message] })

def metatableOf : E γ Text := fun m => .ok (m.composer.metatable, m)

def pathcompRetrieveAtt (name : Text) : E γ (Option Att) :=
  fun m => .ok (Composers.pathcompRetrieveAtt m.composer name, m)

def setResult (name : Text) (result : Option Text) : E γ Unit := fun m =>
  .ok ((), { m with composer := m.composer.onAtt name (Att.setResult result) })

def setGlobals (globals : γ) : E γ Unit := do
  let state ← interpreterGetState
  setState { state with globals }

def luaPush (x : Slot γ) : E γ Unit := do
  let state ← interpreterGetState
  setState { state with stack := x :: state.stack }

def luaPop : E γ (Slot γ) := do
  let state ← interpreterGetState
  match state.stack with
  | [] => throw .assertion
  | x :: stack => do
    setState { state with stack }
    pure x

end Programs

def objectText : LuaObject → Option Text
  | .nil => none
  | .string s => some s
  | .integer n => some (formatInt n)

theorem objectText_pushstring (result : Option Text) :
    objectText (luaPushstring result) = result := by
  cases result <;> rfl

section Calls
variable {γ : Type}

def luaTostring : E γ (Option Text) := do
  match (← interpreterGetState).stack with
  | .object object :: _ => pure (objectText object)
  | _ => pure none

/-- `luaL_getmetatable` pushes nil for a name that is not registered. -/
def luaLGetmetatable (name : Text) : E γ Unit := do
  match (← interpreterGetState).tables name with
  | none => luaPush (.object .nil)
  | some _ => luaPush (.table name)

def luaSetmetatable : E γ Unit := do
  let table ← luaPop
  match table, ← luaPop with
  | .table name, .userdata _ => luaPush (.userdata (some name))
  | .object .nil, .userdata _ => luaPush (.userdata none)
  | _, _ => throw .assertion

def indexable (tables : Text → Option Bool) : Slot γ → Bool
  | .userdata (some name) => tables name = some true
  | _ => false

/-- A C function runs on a stack of its own, which holds its arguments at first; its
    results are on top of that stack. One result is wanted. -/
def luaCall (function : E γ ℕ) (arguments : List (Slot γ)) : E γ LuaObject := do
  let caller ← interpreterGetState
  setState { caller with stack := arguments }
  let n ← function
  let callee ← interpreterGetState
  setState { callee with stack := caller.stack }
  match callee.stack[n - 1]? with
  | some (.object object) => pure (if n = 0 then .nil else object)
  | _ => pure .nil

def runChunk (lib : Library γ) (callback : E γ ℕ) (self : Slot γ) :
    Chunk γ → E γ (Except (Option Text) (Option Text))
  | .ret result globals => do
    setGlobals globals
    pure (.ok result)
  | .error message globals => do
    setGlobals globals
    pure (.error message)
  | .index key globals resume raised => do
    setGlobals globals
    if indexable (← interpreterGetState).tables self then do
      let object ← luaCall callback [.object key, self]
      -- the evaluation of the attribute may have run chunks
      runChunk lib callback self (resume object (← interpreterGetState).globals)
    else runChunk lib callback self (raised (lib.unindexable key) globals)

/-- `lua_pcall(L, 1, 1, 0)`, which is true for LUA_OK. Without a callback the call would
    be nested too deeply. -/
def luaPcall (lib : Library γ) (callback : Option (E γ ℕ)) : E γ Bool := do
  let self ← luaPop
  match ← luaPop, callback with
  | .function _, none => do
    luaPush (.object (.string lib.overflow))
    pure false
  | .function chunk, some callback => do
    match ← runChunk lib callback self (chunk (← interpreterGetState).globals) with
    | .ok result => do
      luaPush (.object (luaPushstring result))
      pure true
    | .error message => do
      luaPush (.object (luaPushstring message))
      pure false
  | _, _ => throw .assertion

/-- Both error paths of `value_eval_lua`. -/
def evalFailed (text : Text) (name : Text) : E γ (Option Text) := do
  let error ← luaTostring
  pathcompLogError (text ++ (error.map cstr).getD (ascii "(null)"))
  let _ ← luaPop
  setResult name none
  pure none

/-- The value is the current one of attribute `name`. -/
def evalChunk (lib : Library γ) (metatable : Text) (callback : Option (E γ ℕ))
    (name source : Text) : E γ (Option Text) := do
  match lib.load source with
  | .error message => do
    luaPush (.object (.string message))
    evalFailed (ascii "cannot parse Lua code: ") name
  | .ok chunk => do
    luaPush (.function chunk)
    luaPush (.userdata none)
    luaLGetmetatable metatable
    luaSetmetatable
    if ← luaPcall lib callback then do
      let s ← luaTostring
      setResult name (s.map cstr)
      let _ ← luaPop
      pure (s.map cstr)
    else evalFailed (ascii "cannot execute Lua code: ") name

end Calls

section Dispatch
variable {γ : Type} (evalLua : Text → Text → E γ (Option Text))

def valuePush (name : Text) : Value → E γ ℕ
  | .string result => do
    luaPush (.object (luaPushstring (some result)))
    pure 1
  | .lua source _ => do
    let result ← evalLua name source
    luaPush (.object (luaPushstring result))
    pure 1
  | .int integer _ => do
    luaPush (.object (.integer integer))
    pure 1

def valueEval (name : Text) : Value → E γ (Option Text)
  | .string result => pure (some result)
  | .lua source _ => evalLua name source
  | .int integer _ => do
    setResult name (some (formatInt integer))
    pure (some (formatInt integer))

def attPush (name : Text) (att : Att) : E γ ℕ :=
  match attCurrentValue att with
  | none => pure 0
  | some val => valuePush evalLua name val

def attEval (name : Text) (att : Att) : E γ (Option Text) :=
  match attCurrentValue att with
  | none => pure none
  | some val => valueEval evalLua name val

def pathcompPushValue (name : Text) : E γ ℕ := do
  match ← pathcompRetrieveAtt name with
  | none => pure 0
  | some att => attPush evalLua name att

/-- A key that is no string and no number fails the assertion. -/
def pathcompEvalCallback : E γ ℕ := do
  match (← interpreterGetState).stack with
  | .object key :: .userdata _ :: _ =>
    match objectText key with
    | none => throw .assertion
    | some name => pathcompPushValue evalLua (cstr name)
  | _ => throw .assertion

end Dispatch

section Evaluators
variable {γ : Type} (lib : Library γ)

def valueEvalLua (metatable : Text) : ℕ → Text → Text → E γ (Option Text)
  | 0 => evalChunk lib metatable none
  | depth + 1 =>
    evalChunk lib metatable (some (pathcompEvalCallback (valueEvalLua metatable depth)))

def pathcompEvalNocopy (depth : ℕ) (name : Text) : E γ (Option Text) := do
  match ← pathcompRetrieveAtt name with
  | none => pure none
  | some att => do attEval (valueEvalLua lib (← metatableOf) depth) name att

end Evaluators

/-- Both are fixed when a composer is made. -/
structure SameClass (c d : Composer) : Prop where
  name : d.name = c.name
  metatable : d.metatable = c.metatable

theorem SameClass.refl (c : Composer) : SameClass c c := ⟨rfl, rfl⟩

theorem SameClass.trans {c d e : Composer} (h : SameClass c d) (h' : SameClass d e) :
    SameClass c e :=
  ⟨h'.name.trans h.name, h'.metatable.trans h.metatable⟩

/-- What a program can read and change besides the stack. -/
structure View (γ : Type) where
  globals : γ
  composer : Composer
  log : List Text

def Machine.view {γ : Type} (m : Machine γ) : LuaState γ := m.state.getD (luaLNewstate m.fresh)

structure Machine.Shows {γ : Type} (m : Machine γ) (frame : Frame γ) (v : View γ) : Prop where
  state : m.view = ⟨frame, v.globals⟩
  composer : m.composer = v.composer
  log : m.log = v.log

section Rules
variable {γ α β : Type} {prog : E γ α} {next : α → E γ β}
  {frame frame' frame'' : Frame γ} {v v' : View γ} {r : α} {result : Except Halt (β × View γ)}

/-- The result on this frame and this view, with the frame that is left. -/
def Runs (prog : E γ α) (frame : Frame γ) (v : View γ) (frame' : Frame γ) :
    Except Halt (α × View γ) → Prop
  | .error halt => ∀ m : Machine γ, m.Shows frame v → prog m = .error halt
  | .ok (r, v') => SameClass v.composer v'.composer ∧ ∀ m : Machine γ, m.Shows frame v →
      ∃ m', prog m = .ok (r, m') ∧ m'.Shows frame' v' ∧ m'.fresh = m.fresh

theorem Runs.ret (r : α) (frame : Frame γ) (v : View γ) :
    Runs (pure r) frame v frame (.ok (r, v)) :=
  ⟨.refl _, fun m hm => ⟨m, rfl, hm, rfl⟩⟩

theorem Runs.then (hprog : Runs prog frame v frame' (.ok (r, v')))
    (hnext : Runs (next r) frame' v' frame'' result) :
    Runs (prog >>= next) frame v frame'' result := by
  obtain ⟨hclass, hprog⟩ := hprog
  have hbind (m m' : Machine γ) (hrun : prog m = .ok (r, m')) :
      (prog >>= next) m = next r m' := by
    change (prog m >>= fun x => next x.1 x.2) = _
    rw [hrun]
    rfl
  cases result with
  | error halt =>
    intro m hm
    obtain ⟨m', hrun, hm', _⟩ := hprog m hm
    rw [hbind m m' hrun]
    exact hnext m' hm'
  | ok x =>
    obtain ⟨hclass', hnext⟩ := hnext
    refine ⟨hclass.trans hclass', fun m hm => ?_⟩
    obtain ⟨m', hrun, hm', hfresh⟩ := hprog m hm
    obtain ⟨m'', hrun', hm'', hfresh'⟩ := hnext m' hm'
    rw [hbind m m' hrun]
    exact ⟨m'', hrun', hm'', hfresh'.trans hfresh⟩

theorem Runs.stop {halt : Halt} (hprog : Runs prog frame v frame' (.error halt)) :
    Runs (prog >>= next) frame v frame'' (.error halt) := by
  intro m hm
  change (prog m >>= fun x => next x.1 x.2) = _
  rw [hprog m hm]
  rfl

end Rules

section Primitives
variable {γ : Type} (frame : Frame γ) (v : View γ)

theorem runs_get :
    Runs interpreterGetState frame v frame (.ok (⟨frame, v.globals⟩, v)) := by
  refine ⟨.refl _, fun m hm => ?_⟩
  have hstate := hm.state
  cases hs : m.state with
  | none =>
    rw [Machine.view, hs, Option.getD_none] at hstate
    refine ⟨{ m with state := some (luaLNewstate m.fresh) }, ?_,
      ⟨hstate, hm.composer, hm.log⟩, rfl⟩
    simp only [interpreterGetState, hs, hstate]
  | some x =>
    rw [Machine.view, hs, Option.getD_some] at hstate
    refine ⟨m, ?_, hm, rfl⟩
    simp only [interpreterGetState, hs, hstate]

theorem runs_setState (state : LuaState γ) :
    Runs (setState state) frame v state.toFrame (.ok ((), { v with globals := state.globals })) :=
  ⟨.refl _, fun m hm => ⟨{ m with state := some state }, rfl,
    ⟨rfl, hm.composer, hm.log⟩, rfl⟩⟩

theorem runs_logError (message : Text) :
    Runs (pathcompLogError message) frame v frame
      (.ok ((), { v with log := v.log ++ [message] })) :=
  ⟨.refl _, fun m hm => ⟨{ m with log := m.log ++ [message] }, rfl,
    ⟨hm.state, hm.composer, by rw [hm.log]⟩, rfl⟩⟩

theorem runs_metatableOf : Runs metatableOf frame v frame (.ok (v.composer.metatable, v)) :=
  ⟨.refl _, fun m hm => ⟨m, by rw [metatableOf, hm.composer], hm, rfl⟩⟩

theorem runs_retrieveAtt (name : Text) :
    Runs (pathcompRetrieveAtt name) frame v frame
      (.ok (Composers.pathcompRetrieveAtt v.composer name, v)) :=
  ⟨.refl _, fun m hm => ⟨m, by rw [pathcompRetrieveAtt, hm.composer], hm, rfl⟩⟩

theorem runs_setResult (name : Text) (result : Option Text) :
    Runs (setResult name result) frame v frame
      (.ok ((), { v with composer := v.composer.onAtt name (Att.setResult result) })) :=
  ⟨⟨rfl, rfl⟩, fun m hm =>
    ⟨{ m with composer := m.composer.onAtt name (Att.setResult result) },
      rfl, ⟨hm.state, by rw [hm.composer], hm.log⟩, rfl⟩⟩

theorem runs_setGlobals (globals : γ) :
    Runs (setGlobals globals) frame v frame (.ok ((), { v with globals })) :=
  (runs_get frame v).then (runs_setState frame v _)

theorem runs_push (x : Slot γ) :
    Runs (luaPush x) frame v { frame with stack := x :: frame.stack } (.ok ((), v)) :=
  (runs_get frame v).then (runs_setState frame v _)

theorem runs_pop (x : Slot γ) (stack : List (Slot γ)) (tables : Text → Option Bool) :
    Runs luaPop ⟨x :: stack, tables⟩ v ⟨stack, tables⟩ (.ok (x, v)) :=
  (runs_get _ v).then ((runs_setState _ v _).then (Runs.ret x _ v))

theorem runs_tostring (object : LuaObject) (stack : List (Slot γ))
    (tables : Text → Option Bool) :
    Runs luaTostring ⟨.object object :: stack, tables⟩ v ⟨.object object :: stack, tables⟩
      (.ok (objectText object, v)) :=
  (runs_get _ v).then (Runs.ret _ _ v)

end Primitives

/-- The userdata of a composer after `lua_setmetatable`. -/
def selfOf {γ : Type} (metatable : Text) (own : Option Bool) : Slot γ :=
  .userdata (own.map fun _ => metatable)

theorem indexable_self {γ : Type} (tables : Text → Option Bool) (metatable : Text) :
    indexable tables (selfOf metatable (tables metatable) : Slot γ) =
      decide (tables metatable = some true) := by
  unfold selfOf
  cases h : tables metatable with
  | none => rfl
  | some b => simp only [Option.map_some, indexable, h]

theorem runs_newSelf {γ α : Type} (frame : Frame γ) (metatable : Text) {v : View γ}
    {next : E γ α} {frame' : Frame γ} {result : Except Halt (α × View γ)}
    (hnext : Runs next
      { frame with stack := selfOf metatable (frame.tables metatable) :: frame.stack } v frame'
      result) :
    Runs (do
      luaPush (.userdata none)
      luaLGetmetatable metatable
      luaSetmetatable
      next) frame v frame' result := by
  obtain ⟨stack, tables⟩ := frame
  refine (runs_push _ v _).then ?_
  have htable : Runs (luaLGetmetatable metatable) ⟨.userdata none :: stack, tables⟩ v
      ⟨((tables metatable).map fun _ => Slot.table metatable).getD (.object .nil) ::
        .userdata none :: stack, tables⟩ (.ok ((), v)) := by
    refine (runs_get _ v).then ?_
    cases h : tables metatable with
    | none =>
      simp only [h]
      exact runs_push _ v _
    | some b =>
      simp only [h]
      exact runs_push _ v _
  refine htable.then ?_
  have hset : Runs luaSetmetatable
      ⟨((tables metatable).map fun _ => Slot.table metatable).getD (.object .nil) ::
        .userdata none :: stack, tables⟩ v
      ⟨selfOf metatable (tables metatable) :: stack, tables⟩ (.ok ((), v)) := by
    refine (runs_pop v _ _ _).then ((runs_pop v _ _ _).then ?_)
    unfold selfOf
    cases tables metatable with
    | none => exact runs_push _ v _
    | some b => exact runs_push _ v _
  exact hset.then hnext

/-- The object is pushed, or nothing at all in place of nil. -/
def Pushes {γ : Type} (prog : E γ ℕ) (frame : Frame γ) (v : View γ) :
    Except Halt (LuaObject × View γ) → Prop
  | .error halt => Runs prog frame v frame (.error halt)
  | .ok (object, v') => (object = .nil ∧ Runs prog frame v frame (.ok (0, v'))) ∨
      Runs prog frame v { frame with stack := .object object :: frame.stack } (.ok (1, v'))

theorem Pushes.after {γ α : Type} {first : E γ α} {rest : α → E γ ℕ} {frame : Frame γ}
    {v v' : View γ}
    {r : α} {result : Except Halt (LuaObject × View γ)}
    (hfirst : Runs first frame v frame (.ok (r, v'))) (hrest : Pushes (rest r) frame v' result) :
    Pushes (first >>= rest) frame v result := by
  cases result with
  | error halt =>
    have hrest : Runs (rest r) frame v' frame (.error halt) := hrest
    exact hfirst.then hrest
  | ok x =>
    rcases hrest with ⟨hnil, hzero⟩ | hone
    · exact .inl ⟨hnil, hfirst.then hzero⟩
    · exact .inr (hfirst.then hone)

theorem Pushes.stop {γ α : Type} {first : E γ α} {rest : α → E γ ℕ} {frame : Frame γ}
    {v : View γ} {halt : Halt} (hfirst : Runs first frame v frame (.error halt)) :
    Pushes (first >>= rest) frame v (.error halt) := by
  have hstop : Runs (first >>= rest) frame v frame (.error halt) := hfirst.stop
  exact hstop

theorem runs_luaCall {γ : Type} {function : E γ ℕ} {arguments : List (Slot γ)}
    {frame : Frame γ} {v : View γ} {result : Except Halt (LuaObject × View γ)}
    (h : Pushes function ⟨arguments, frame.tables⟩ v result) :
    Runs (luaCall function arguments) frame v frame result := by
  refine (runs_get _ v).then ((runs_setState _ v _).then ?_)
  cases result with
  | error halt =>
    have h : Runs function ⟨arguments, frame.tables⟩ v ⟨arguments, frame.tables⟩
      (.error halt) := h
    exact h.stop
  | ok x =>
    obtain ⟨object, v'⟩ := x
    rcases h with ⟨rfl, hzero⟩ | hone
    · refine hzero.then ((runs_get _ v').then ((runs_setState _ v' _).then ?_))
      simp only [↓reduceIte]
      split
      · exact Runs.ret _ _ v'
      · exact Runs.ret _ _ v'
    · refine hone.then ((runs_get _ v').then ((runs_setState _ v' _).then ?_))
      exact Runs.ret _ _ v'

/-- A chunk that takes no notice of the global variables, and what it amounts to. -/
def PlainChunk {γ : Type} (lib : Library γ) (isBound : Bool) : Chunk γ → LuaCode → Prop
  | .ret result _, code => code = .finish result
  | .error _ _, code => code = .finish none
  | .index key _ resume raised, code =>
    if isBound then
      ∃ name next, objectText key = some name ∧ code = .index (cstr name) next ∧
        ∀ object globals, PlainChunk lib isBound (resume object globals) (next object)
    else ∀ globals, PlainChunk lib isBound (raised (lib.unindexable key) globals) code

def PlainLibrary {γ : Type} (lib : Library γ) (isBound : Bool) (lua : Lua) : Prop :=
  ∀ source, (∀ message, lib.load source = .error message → lua source = .finish none) ∧
    ∀ chunk, lib.load source = .ok chunk →
      ∀ globals, PlainChunk lib isBound (chunk globals) (lua source)

section Evaluating
variable {γ : Type} (plain : Prop) (metatable : Text) (own : Option Bool)

/-- On any stack, and whatever the metatables of other classes are, the program has the
    same result and leaves the frame as it was. Where only plain chunks run, the result
    is the expected one. -/
def Evaluates {α : Type} (prog : E γ α) (v : View γ) (expected : Except Halt (α × Composer)) :
    Prop :=
  ∃ result, (∀ frame, frame.tables metatable = own → Runs prog frame v frame result) ∧
    (plain → result.map (fun x => (x.1, x.2.composer)) = expected)

/-- The same for a program that pushes what it gives. -/
def Delivers (prog : E γ ℕ) (stack : List (Slot γ)) (v : View γ)
    (expected : Except Halt (LuaObject × Composer)) : Prop :=
  ∃ result, (∀ tables, tables metatable = own → Pushes prog ⟨stack, tables⟩ v result) ∧
    (plain → result.map (fun x => (x.1, x.2.composer)) = expected)

variable {plain metatable own}

theorem Evaluates.of_runs {α : Type} {prog : E γ α} {v v' : View γ} {r : α}
    (h : ∀ frame, Runs prog frame v frame (.ok (r, v'))) :
    Evaluates plain metatable own prog v (.ok (r, v'.composer)) :=
  ⟨_, fun frame _ => h frame, fun _ => rfl⟩

theorem Evaluates.congr {α : Type} {prog : E γ α} {v : View γ}
    {expected expected' : Except Halt (α × Composer)}
    (h : Evaluates plain metatable own prog v expected) (he : plain → expected = expected') :
    Evaluates plain metatable own prog v expected' := by
  obtain ⟨result, hruns, hplain⟩ := h
  exact ⟨result, hruns, fun hp => (hplain hp).trans (he hp)⟩

theorem Evaluates.then {α β : Type} {prog : E γ α} {next : α → E γ β} {v : View γ}
    {first : α × Composer} {expected : Except Halt (β × Composer)}
    (hprog : Evaluates plain metatable own prog v (.ok first))
    (hnext : ∀ r v', SameClass v.composer v'.composer → (plain → (r, v'.composer) = first) →
      Evaluates plain metatable own (next r) v' expected) :
    Evaluates plain metatable own (prog >>= next) v expected := by
  obtain ⟨result, hruns, hplain⟩ := hprog
  cases result with
  | error halt =>
    exact ⟨.error halt, fun frame hown => (hruns frame hown).stop, fun hp => by cases hplain hp⟩
  | ok x =>
    obtain ⟨r, v'⟩ := x
    obtain ⟨result', hruns', hplain'⟩ := hnext r v' (hruns ⟨[], fun _ => own⟩ rfl).1
      fun hp => Except.ok.inj (hplain hp)
    exact ⟨result', fun frame hown => (hruns frame hown).then (hruns' frame hown), hplain'⟩

theorem Evaluates.map {α β : Type} {prog : E γ α} {v : View γ}
    {expected : Except Halt (α × Composer)} (h : Evaluates plain metatable own prog v expected)
    (f : α → β) :
    Evaluates plain metatable own (do pure (f (← prog))) v
      (expected.map fun x => (f x.1, x.2)) := by
  obtain ⟨result, hruns, hplain⟩ := h
  cases result with
  | error halt =>
    refine ⟨.error halt, fun frame hown => (hruns frame hown).stop, fun hp => ?_⟩
    rw [← hplain hp]
    rfl
  | ok x =>
    refine ⟨.ok (f x.1, x.2), fun frame hown => (hruns frame hown).then (Runs.ret _ frame x.2),
      fun hp => ?_⟩
    rw [← hplain hp]
    rfl

end Evaluating

/-- A look-up that a chunk makes. -/
def lookUp (push : Composer → Text → LuaObject × Composer) (c : Composer) (key : LuaObject) :
    Except Halt (LuaObject × Composer) :=
  match objectText key with
  | none => .error .assertion
  | some name => .ok (push c (cstr name))

section Push
variable {γ : Type} {plain : Prop} {metatable : Text} {own : Option Bool}
  {evalLua : Text → Text → E γ (Option Text)}
  {direct : Composer → Text → Text → Option Text × Composer}
  (hlua : ∀ v name source, Evaluates plain metatable own (evalLua name source) v
    (.ok (direct v.composer name source)))
include hlua

theorem delivers_value (stack : List (Slot γ)) (v : View γ) (name : Text) (val : Value) :
    Delivers plain metatable own (valuePush evalLua name val) stack v
      (.ok (Evaluation.valuePush direct v.composer name val)) := by
  cases val with
  | string result =>
    exact ⟨.ok (_, v), fun _ _ => .inr ((runs_push _ v _).then (Runs.ret 1 _ v)), fun _ => rfl⟩
  | int integer result =>
    exact ⟨.ok (_, v), fun _ _ => .inr ((runs_push _ v _).then (Runs.ret 1 _ v)), fun _ => rfl⟩
  | lua source result =>
    obtain ⟨result, hruns, hplain⟩ := hlua v name source
    cases result with
    | error halt =>
      exact ⟨.error halt, fun tables hown => Pushes.stop (hruns ⟨stack, tables⟩ hown),
        fun hp => by cases hplain hp⟩
    | ok x =>
      obtain ⟨text, v'⟩ := x
      refine ⟨.ok (luaPushstring text, v'), fun tables hown => .inr ?_, fun hp => ?_⟩
      · exact (hruns ⟨stack, tables⟩ hown).then ((runs_push _ v' _).then (Runs.ret 1 _ v'))
      · have heq := Except.ok.inj (hplain hp)
        simp only [Except.map, Evaluation.valuePush, ← heq]

theorem delivers_pushValue (stack : List (Slot γ)) (v : View γ) (name : Text) :
    Delivers plain metatable own (pathcompPushValue evalLua name) stack v
      (.ok (Evaluation.pathcompPushValue direct v.composer name)) := by
  have hretrieve (tables : Text → Option Bool) := runs_retrieveAtt ⟨stack, tables⟩ v name
  unfold Evaluation.pathcompPushValue Evaluation.attPush
  cases hr : Composers.pathcompRetrieveAtt v.composer name with
  | none =>
    rw [hr] at hretrieve
    exact ⟨.ok (.nil, v), fun tables _ =>
      .inl ⟨rfl, (hretrieve tables).then (Runs.ret 0 _ v)⟩,
      fun _ => rfl⟩
  | some att =>
    rw [hr] at hretrieve
    have hpush (tables : Text → Option Bool) {result : Except Halt (LuaObject × View γ)}
        (h : Pushes (attPush evalLua name att) ⟨stack, tables⟩ v result) :
        Pushes (pathcompPushValue evalLua name) ⟨stack, tables⟩ v result :=
      Pushes.after (hretrieve tables) h
    simp only [attPush] at hpush ⊢
    cases hv : attCurrentValue att with
    | none =>
      rw [hv] at hpush
      exact ⟨.ok (.nil, v), fun tables _ => hpush tables (.inl ⟨rfl, Runs.ret 0 _ v⟩),
        fun _ => rfl⟩
    | some val =>
      rw [hv] at hpush
      obtain ⟨result, hvalue, hplain⟩ := delivers_value hlua stack v name val
      exact ⟨result, fun tables hown => hpush tables (hvalue tables hown), hplain⟩

theorem delivers_callback (v : View γ) (key : LuaObject) (userdata : Option Text) :
    Delivers plain metatable own (pathcompEvalCallback evalLua) [.object key, .userdata userdata] v
      (lookUp (Evaluation.pathcompPushValue direct) v.composer key) := by
  unfold lookUp
  have hstart (tables : Text → Option Bool) {result : Except Halt (LuaObject × View γ)}
      (h : Pushes (match objectText key with
        | none => throw .assertion
        | some name => pathcompPushValue evalLua (cstr name))
        ⟨[.object key, .userdata userdata], tables⟩ v result) :
      Pushes (pathcompEvalCallback evalLua)
        ⟨[.object key, .userdata userdata], tables⟩ v result :=
    Pushes.after (runs_get _ v) h
  cases hkey : objectText key with
  | none =>
    rw [hkey] at hstart
    exact ⟨.error .assertion, fun tables _ => hstart tables fun m _ => rfl, fun _ => rfl⟩
  | some name =>
    rw [hkey] at hstart
    obtain ⟨result, hpush, hplain⟩ :=
      delivers_pushValue hlua [.object key, .userdata userdata] v (cstr name)
    exact ⟨result, fun tables hown => hstart tables (hpush tables hown), hplain⟩

end Push

def outcome : Except (Option Text) (Option Text) → Option Text
  | .ok result => result.map cstr
  | .error _ => none

/-- What is left of the code after its first look-up. -/
def answered (object : LuaObject) : LuaCode → LuaCode
  | .finish result => .finish result
  | .index _ next => next object

section Chunks
variable {γ : Type} {plain : Prop} {metatable : Text} {own : Option Bool} (lib : Library γ)

section Index
variable {callback : E γ ℕ} {key : LuaObject} {globals : γ}
  {resume : LuaObject → γ → Chunk γ} {raised : Text → γ → Chunk γ}
  {frame frame' : Frame γ} {v : View γ}
  {result : Except Halt (Except (Option Text) (Option Text) × View γ)}

/-- A look-up in a class that is known, with what the chunk does next. -/
theorem runs_index_bound (hown : frame.tables metatable = own) (hbound : own = some true)
    (h : Runs (do
        let object ← luaCall callback [.object key, selfOf metatable own]
        runChunk lib callback (selfOf metatable own)
          (resume object (← interpreterGetState).globals))
      frame { v with globals } frame' result) :
    Runs (runChunk lib callback (selfOf metatable own) (.index key globals resume raised)) frame v
      frame' result := by
  refine (runs_setGlobals frame v globals).then ((runs_get frame _).then ?_)
  rw [← hown, indexable_self, hown, decide_eq_true hbound, if_pos rfl]
  exact h

theorem runs_index_unbound (hown : frame.tables metatable = own) (hbound : own ≠ some true)
    (h : Runs (runChunk lib callback (selfOf metatable own) (raised (lib.unindexable key) globals))
      frame { v with globals } frame' result) :
    Runs (runChunk lib callback (selfOf metatable own) (.index key globals resume raised)) frame v
      frame' result := by
  refine (runs_setGlobals frame v globals).then ((runs_get frame _).then ?_)
  rw [← hown, indexable_self, hown, decide_eq_false hbound, if_neg Bool.false_ne_true]
  exact h

end Index

theorem evaluates_runChunk {callback : E γ ℕ}
    {push : Composer → Text → LuaObject × Composer}
    (hpush : ∀ v key, Delivers plain metatable own callback
      [.object key, selfOf metatable own] v (lookUp push v.composer key))
    (chunk : Chunk γ) (v : View γ) (code : LuaCode)
    (hcode : plain → PlainChunk lib (own = some true) chunk code) :
    ∃ result, (∀ frame, frame.tables metatable = own →
        Runs (runChunk lib callback (selfOf metatable own) chunk) frame v frame result) ∧
      (plain → result.map (fun x => (outcome x.1, x.2.composer)) =
        .ok (code.run push v.composer)) := by
  induction chunk generalizing v code with
  | ret result globals =>
    refine ⟨.ok (.ok result, { v with globals }), fun frame _ => ?_, fun hp => ?_⟩
    · exact (runs_setGlobals frame v globals).then (Runs.ret _ frame _)
    · rw [show code = .finish result from hcode hp]
      rfl
  | error message globals =>
    refine ⟨.ok (.error message, { v with globals }), fun frame _ => ?_, fun hp => ?_⟩
    · exact (runs_setGlobals frame v globals).then (Runs.ret _ frame _)
    · rw [show code = .finish none from hcode hp]
      rfl
  | index key globals resume raised ihresume ihraised =>
    simp only [PlainChunk] at hcode
    by_cases hbound : own = some true
    · simp only [hbound, decide_true, ↓reduceIte] at hcode
      obtain ⟨answer, hcall, hanswer⟩ := hpush { v with globals } key
      have hstep (frame : Frame γ) (hown : frame.tables metatable = own) :=
        @runs_luaCall γ callback _ frame _ _ (hcall frame.tables hown)
      cases answer with
      | error halt =>
        refine ⟨.error halt, fun frame hown => runs_index_bound lib hown hbound
          (hstep frame hown).stop, fun hp => ?_⟩
        obtain ⟨name, _, hname, _⟩ := hcode hp
        have hno := hanswer hp
        rw [lookUp, hname] at hno
        cases hno
      | ok x =>
        obtain ⟨object, v'⟩ := x
        have hnext (hp : plain) : PlainChunk lib (decide (own = some true))
            (resume object v'.globals) (answered object code) := by
          obtain ⟨name, next, _, rfl, hnext⟩ := hcode hp
          rw [decide_eq_true hbound]
          exact hnext object v'.globals
        obtain ⟨result, hrest, hresult⟩ :=
          ihresume object v'.globals v' (answered object code) hnext
        refine ⟨result, fun frame hown => runs_index_bound lib hown hbound
          ((hstep frame hown).then ((runs_get frame v').then (hrest frame hown))), fun hp => ?_⟩
        obtain ⟨name, next, hname, rfl, _⟩ := hcode hp
        have hlook := hanswer hp
        rw [lookUp, hname] at hlook
        have heq := Except.ok.inj hlook
        rw [hresult hp, LuaCode.run, ← heq]
        rfl
    · simp only [hbound, decide_false, Bool.false_eq_true, ↓reduceIte] at hcode
      have hnext (hp : plain) : PlainChunk lib (decide (own = some true))
          (raised (lib.unindexable key) globals) code := by
        rw [decide_eq_false hbound]
        exact hcode hp globals
      obtain ⟨result, hrest, hresult⟩ :=
        ihraised (lib.unindexable key) globals { v with globals } code hnext
      exact ⟨result, fun frame hown => runs_index_unbound lib hown hbound (hrest frame hown),
        hresult⟩

/-- The view after a failed evaluation. -/
def View.failed (v : View γ) (text name : Text) (object : LuaObject) : View γ :=
  { v with
    composer := v.composer.onAtt name (Att.setResult none)
    log := v.log ++ [text ++ ((objectText object).map cstr).getD (ascii "(null)")] }

theorem runs_failed (text name : Text) (object : LuaObject) (frame : Frame γ) (v : View γ) :
    Runs (evalFailed text name) { frame with stack := .object object :: frame.stack } v frame
      (.ok (none, v.failed text name object)) :=
  (runs_tostring v _ _ _).then ((runs_logError _ v _).then ((runs_pop _ _ _ _).then
    ((runs_setResult frame _ name none).then (Runs.ret none frame _))))

section Source
variable {callback : Option (E γ ℕ)} {name source : Text} {v : View γ}

theorem runs_unloadable {message : Text} (hload : lib.load source = .error message)
    (frame : Frame γ) :
    Runs (evalChunk lib metatable callback name source) frame v frame
      (.ok (none, v.failed (ascii "cannot parse Lua code: ") name (.string message))) := by
  rw [evalChunk, hload]
  exact (runs_push frame v _).then (runs_failed _ name _ frame v)

theorem runs_loaded {chunk : γ → Chunk γ} (hload : lib.load source = .ok chunk)
    {frame : Frame γ} {result : Except Halt (Option Text × View γ)}
    (h : Runs (do
        if ← luaPcall lib callback then do
          let s ← luaTostring
          setResult name (s.map cstr)
          let _ ← luaPop
          pure (s.map cstr)
        else evalFailed (ascii "cannot execute Lua code: ") name)
      { frame with stack := selfOf metatable (frame.tables metatable) :: .function chunk ::
        frame.stack } v frame result) :
    Runs (evalChunk lib metatable callback name source) frame v frame result := by
  rw [evalChunk, hload]
  exact (runs_push frame v _).then (runs_newSelf _ metatable h)

/-- What `lua_pcall` leaves on the stack for the result of a chunk. -/
def pcallObject : Except (Option Text) (Option Text) → LuaObject
  | .ok result => luaPushstring result
  | .error message => luaPushstring message

/-- What `value_eval_lua` returns for the result of a chunk, and the view after it. -/
def View.executed (v : View γ) (name : Text) :
    Except (Option Text) (Option Text) → Option Text × View γ
  | .ok result => (result.map cstr,
      { v with composer := v.composer.onAtt name (Att.setResult (result.map cstr)) })
  | .error message =>
    (none, v.failed (ascii "cannot execute Lua code: ") name (luaPushstring message))

theorem executed_outcome (v : View γ) (name : Text)
    (answer : Except (Option Text) (Option Text)) :
    ((v.executed name answer).1, (v.executed name answer).2.composer) =
      (outcome answer, v.composer.onAtt name (Att.setResult (outcome answer))) := by
  cases answer <;> rfl

theorem runs_pcall {callback : E γ ℕ} {self : Slot γ} {chunk : γ → Chunk γ}
    {frame : Frame γ} {v' : View γ} {answer : Except (Option Text) (Option Text)}
    (h : Runs (runChunk lib callback self (chunk v.globals)) frame v frame (.ok (answer, v'))) :
    Runs (luaPcall lib (some callback))
      ⟨self :: .function chunk :: frame.stack, frame.tables⟩ v
      ⟨.object (pcallObject answer) :: frame.stack, frame.tables⟩ (.ok (answer.isOk, v')) := by
  refine (runs_pop v _ _ _).then ((runs_pop v _ _ _).then ((runs_get _ v).then (h.then ?_)))
  cases answer with
  | ok result => exact (runs_push frame v' _).then (Runs.ret true _ v')
  | error message => exact (runs_push frame v' _).then (Runs.ret false _ v')

theorem runs_pcall_halts {callback : E γ ℕ} {self : Slot γ} {chunk : γ → Chunk γ}
    {frame : Frame γ} {halt : Halt}
    (h : Runs (runChunk lib callback self (chunk v.globals)) frame v frame (.error halt)) :
    Runs (luaPcall lib (some callback))
      ⟨self :: .function chunk :: frame.stack, frame.tables⟩ v frame (.error halt) :=
  (runs_pop v _ _ _).then ((runs_pop v _ _ _).then ((runs_get _ v).then h.stop))

theorem runs_executed {chunk : γ → Chunk γ} (hload : lib.load source = .ok chunk)
    {frame : Frame γ} {v' : View γ} {answer : Except (Option Text) (Option Text)}
    (hcall : Runs (luaPcall lib callback)
      ⟨selfOf metatable (frame.tables metatable) :: .function chunk :: frame.stack,
        frame.tables⟩ v
      ⟨.object (pcallObject answer) :: frame.stack, frame.tables⟩ (.ok (answer.isOk, v'))) :
    Runs (evalChunk lib metatable callback name source) frame v frame
      (.ok (v'.executed name answer)) := by
  refine runs_loaded lib hload (hcall.then ?_)
  cases answer with
  | ok result =>
    refine (runs_tostring v' _ _ _).then ?_
    rw [pcallObject, objectText_pushstring]
    exact (runs_setResult _ v' name _).then ((runs_pop _ _ _ _).then (Runs.ret _ _ _))
  | error message => exact runs_failed _ name _ frame v'

end Source

theorem evaluates_valueEvalLua (lua : Lua) (depth : ℕ) (v : View γ) (name source : Text) :
    Evaluates (PlainLibrary lib (own = some true) lua) metatable own
      (valueEvalLua lib metatable depth name source) v
      (.ok (Evaluation.valueEvalLua lua depth v.composer name source)) := by
  induction depth generalizing v name source with
  | zero =>
    cases hload : lib.load source with
    | error message =>
      exact ⟨_, fun frame _ => runs_unloadable lib hload frame, fun _ => rfl⟩
    | ok chunk =>
      refine ⟨.ok (v.executed name (.error (some lib.overflow))),
        fun frame _ => runs_executed lib hload ?_, fun _ => rfl⟩
      exact (runs_pop v _ _ _).then ((runs_pop v _ _ _).then
        ((runs_push frame v _).then (Runs.ret false _ v)))
  | succ depth ih =>
    have hpush (v : View γ) (key : LuaObject) :=
      delivers_callback ih v key (own.map fun _ => metatable)
    rw [Evaluation.valueEvalLua]
    cases hload : lib.load source with
    | error message =>
      refine ⟨_, fun frame _ => runs_unloadable lib hload frame, fun hp => ?_⟩
      rw [(hp source).1 message hload]
      rfl
    | ok chunk =>
      obtain ⟨result, hruns, hplain⟩ := evaluates_runChunk lib hpush (chunk v.globals) v
        (lua source) fun hp => (hp source).2 chunk hload v.globals
      cases result with
      | error halt =>
        refine ⟨.error halt, fun frame hown => runs_loaded lib hload ?_,
          fun hp => by cases hplain hp⟩
        rw [hown]
        exact (runs_pcall_halts lib (hruns frame hown)).stop
      | ok x =>
        obtain ⟨answer, v'⟩ := x
        refine ⟨.ok (v'.executed name answer), fun frame hown => runs_executed lib hload ?_,
          fun hp => ?_⟩
        · rw [hown]
          exact runs_pcall lib (hruns frame hown)
        · have heq := Except.ok.inj (hplain hp)
          simp only [Except.map, executed_outcome, ← heq]

theorem evaluates_evalNocopy (lua : Lua) (depth : ℕ) (v : View γ)
    (hv : v.composer.metatable = metatable) (name : Text) :
    Evaluates (PlainLibrary lib (own = some true) lua) metatable own
      (pathcompEvalNocopy lib depth name) v
      (.ok (Evaluation.pathcompEvalNocopy lua depth v.composer name)) := by
  have hretrieve (frame : Frame γ) := runs_retrieveAtt frame v name
  simp only [Evaluation.pathcompEvalNocopy, Evaluation.attEval]
  cases hr : Composers.pathcompRetrieveAtt v.composer name with
  | none =>
    rw [hr] at hretrieve
    exact ⟨_, fun frame _ => (hretrieve frame).then (Runs.ret none _ v), fun _ => rfl⟩
  | some att =>
    rw [hr] at hretrieve
    have hatt (frame : Frame γ) {frame' : Frame γ} {result : Except Halt (Option Text × View γ)}
        (h : Runs (attEval (valueEvalLua lib metatable depth) name att) frame v frame' result) :
        Runs (pathcompEvalNocopy lib depth name) frame v frame' result := by
      refine (hretrieve frame).then ((runs_metatableOf frame v).then ?_)
      rw [hv]
      exact h
    simp only [attEval] at hatt
    simp only
    cases hcurrent : attCurrentValue att with
    | none =>
      rw [hcurrent] at hatt
      exact ⟨_, fun frame _ => hatt frame (Runs.ret none _ v), fun _ => rfl⟩
    | some val =>
      rw [hcurrent] at hatt
      cases val with
      | string result => exact ⟨_, fun frame _ => hatt frame (Runs.ret _ _ v), fun _ => rfl⟩
      | lua source result =>
        obtain ⟨result, hruns, hplain⟩ := evaluates_valueEvalLua lib lua depth v name source
        exact ⟨result, fun frame hown => hatt frame (hruns frame hown), hplain⟩
      | int integer result =>
        exact ⟨_, fun frame _ => hatt frame ((runs_setResult frame v name _).then
          (Runs.ret _ _ _)), fun _ => rfl⟩

end Chunks

end Pathcomp.Interpreter
