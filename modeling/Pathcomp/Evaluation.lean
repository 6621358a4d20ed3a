import Pathcomp.Composers

set_option autoImplicit false

/-!
# Evaluation, search and directory creation

A Lua chunk is known only through what it does: a finite tree of look-ups
`self.name`, each answered by re-entering the composer, that ends in a string
or in a failure. Nested evaluation is limited by the C stack limit of the
interpreter, beyond which the inner evaluation fails.
-/
namespace Pathcomp.Evaluation
open Bytes Buffer Config Values Attributes Composers

inductive LuaObject where
  | nil
  | string (s : Text)
  | integer (n : Int32)
  deriving DecidableEq, Repr

/-- Load errors, runtime errors and results that are no strings all end in
    `finish none`. -/
inductive LuaCode where
  | finish (result : Option Text)
  | index (name : Text) (resume : LuaObject → LuaCode)

abbrev Lua := Text → LuaCode

def LuaCode.run (push : Composer → Text → LuaObject × Composer) :
    LuaCode → Composer → Option Text × Composer
  | .finish result, composer => (result.map cstr, composer)
  | .index name resume, composer =>
    let (object, composer) := push composer name
    (resume object).run push composer

def luaPushstring : Option Text → LuaObject
  | none => .nil
  | some s => .string s

section Dispatch
variable (evalLua : Composer → Text → Text → Option Text × Composer)

/-- The value is the current one of attribute `name`, where a result is stored;
    `evalLua` evaluates a Lua value given the attribute and the source. -/
def valuePush (composer : Composer) (name : Text) : Value → LuaObject × Composer
  | .string result => (.string result, composer)
  | .lua source _ =>
    let (result, composer) := evalLua composer name source
    (luaPushstring result, composer)
  | .int integer _ => (.integer integer, composer)

def valueEval (composer : Composer) (name : Text) : Value → Option Text × Composer
  | .string result => (some result, composer)
  | .lua source _ => evalLua composer name source
  | .int integer _ =>
    let result := formatInt integer
    (some result, composer.onAtt name (Att.setResult (some result)))

def attPush (composer : Composer) (name : Text) (att : Att) : LuaObject × Composer :=
  match attCurrentValue att with
  -- nothing is pushed, which the chunk sees as `nil`
  | none => (.nil, composer)
  | some val => valuePush evalLua composer name val

def attEval (composer : Composer) (name : Text) (att : Att) : Option Text × Composer :=
  match attCurrentValue att with
  | none => (none, composer)
  | some val => valueEval evalLua composer name val

def pathcompPushValue (composer : Composer) (name : Text) : LuaObject × Composer :=
  match pathcompRetrieveAtt composer name with
  | none => (.nil, composer)
  | some att => attPush evalLua composer name att

end Dispatch

/-- The first argument after the chunks counts the evaluations that may still be
    nested; the cache is written after the chunk has run, also when it failed. -/
def valueEvalLua (lua : Lua) : ℕ → Composer → Text → Text → Option Text × Composer
  | 0, composer, name, _ => (none, composer.onAtt name (Att.setResult none))
  | depth + 1, composer, name, source =>
    let (result, composer) := (lua source).run (pathcompPushValue (valueEvalLua lua depth)) composer
    (result, composer.onAtt name (Att.setResult result))

def pathcompEvalNocopy (lua : Lua) (depth : ℕ) (composer : Composer) (name : Text) :
    Option Text × Composer :=
  match pathcompRetrieveAtt composer name with
  | none => (none, composer)
  | some att => attEval (valueEvalLua lua depth) composer name att

def pathcompEval (lua : Lua) (depth : ℕ) (composer : Composer) (name : Text) :
    Option Text × Composer :=
  let (s, composer) := pathcompEvalNocopy lua depth composer name
  (s.map cstr, composer)

def addNonempty (path : Buf) (part : Option Text) (separator : Text) : Buf :=
  match part with
  | none => path
  | some s => if s.length = 0 then path else bufAddstr (bufAddstr path s) separator

/-- The body of `pathcomp_yield` for any way to evaluate an attribute. -/
def yieldWith {m : Type → Type} [Monad m] (evalNocopy : Text → m (Option Text)) :
    m (Option Text) := do
  let path := bufInit
  let root ← evalNocopy attRoot
  let compose ← evalNocopy attCompose
  let path := addNonempty path root [byte '/']
  let path := addNonempty path compose []
  pure (if path.bytes.length = 0 then none else some (bufDetach path))

def pathcompYield (lua : Lua) (depth : ℕ) : Composer → Option Text × Composer :=
  yieldWith (m := StateM Composer) fun name composer =>
    pathcompEvalNocopy lua depth composer name

def advance (composer : Composer) : Composer :=
  let composer := if composer.started then (pathcompNext composer).2 else composer
  { composer with started := true }

/-- The loop of `pathcomp_find` with at most `fuel` rounds; `pathExists` is the
    answer of `stat`. -/
def findWith {m : Type → Type} [Monad m] [MonadExceptOf Halt m] (advance : m Unit) (done : m Bool)
    (yield : m (Option Text)) (pathExists : Text → m Bool) : ℕ → m (Option Text)
  | 0 => throw .bound
  | fuel + 1 => do
    advance
    if ← done then pure none
    else
      match ← yield with
      | none => findWith advance done yield pathExists fuel
      | some path =>
        if ← pathExists path then pure (some path)
        else findWith advance done yield pathExists fuel

theorem findWith_succ {σ : Type} (advance : σ → σ) (done : σ → Bool)
    (yield : σ → Option Text × σ) (stat : σ → Text → Bool × σ) (fuel : ℕ) (s : σ) :
    let search := findWith (m := StateT σ (Except Halt)) (fun s => .ok ((), advance s))
      (fun s => .ok (done s, s)) (fun s => .ok (yield s)) (fun path s => .ok (stat s path))
    search (fuel + 1) s =
      if done (advance s) then .ok (none, advance s)
      else
        match (yield (advance s)).1 with
        | none => search fuel (yield (advance s)).2
        | some path =>
          if (stat (yield (advance s)).2 path).1 then
            .ok (some path, (stat (yield (advance s)).2 path).2)
          else search fuel (stat (yield (advance s)).2 path).2 := by
  intro search
  simp only [search, findWith, bind, StateT.bind, Except.bind]
  by_cases hdone : done (advance s) = true
  · rw [if_pos hdone, if_pos hdone]
    rfl
  rw [if_neg hdone, if_neg hdone]
  simp only [StateT.bind, bind, Except.bind]
  rcases yield (advance s) with ⟨path, s'⟩
  cases path with
  | none => rfl
  | some path =>
    simp only [StateT.bind, bind, Except.bind]
    rcases stat s' path with ⟨found, s''⟩
    cases found <;> rfl

def pathcompFind (lua : Lua) (depth : ℕ) (pathExists : Text → Bool) (fuel : ℕ) :
    Composer → Except Halt (Option Text × Composer) :=
  findWith (m := StateT Composer (Except Halt)) (fun composer => .ok ((), advance composer))
    (fun composer => .ok (pathcompDone composer, composer))
    (fun composer => .ok (pathcompYield lua depth composer))
    (fun path composer => .ok (pathExists path, composer)) fuel

theorem pathcompFind_succ (lua : Lua) (depth : ℕ) (pathExists : Text → Bool) (fuel : ℕ)
    (x : Composer) :
    pathcompFind lua depth pathExists (fuel + 1) x =
      if (advance x).done then .ok (none, advance x)
      else
        match (pathcompYield lua depth (advance x)).1 with
        | none => pathcompFind lua depth pathExists fuel (pathcompYield lua depth (advance x)).2
        | some path =>
          if pathExists path then .ok (some path, (pathcompYield lua depth (advance x)).2)
          else pathcompFind lua depth pathExists fuel
            (pathcompYield lua depth (advance x)).2 :=
  findWith_succ advance pathcompDone (pathcompYield lua depth)
    (fun composer path => (pathExists path, composer)) fuel x

inductive MkdirResult where
  | created
  | eexist
  | failed
  deriving DecidableEq, Repr

def skipWhile (p : UInt8 → Bool) (path : Text) (i : ℕ) : ℕ :=
  i + ((path.drop i).takeWhile p).length

/-- One pass of the loop of `pathcomp_mkdir` per component. The path is cut with
    a NUL at `p` for the system call and patched again afterwards. -/
def mkdirLoop {σ : Type} (mkdir : σ → Text → MkdirResult × σ) :
    ℕ → Text → ℕ → σ → Except Halt (Int × σ)
  | 0, _, _, _ => .error .bound
  | fuel + 1, path, p, s =>
    let p := skipWhile (· = byte '/') path p
    let p := skipWhile (· ≠ byte '/') path p
    if path.length ≤ p then .ok (0, s)
    else
      let path := path.set p 0
      let (result, s) := mkdir s (cstr path)
      match result with
      | .failed => .ok (-1, s)
      | .created | .eexist => mkdirLoop mkdir fuel (path.set p (byte '/')) (p + 1) s

def pathcompMkdir {σ : Type} (lua : Lua) (depth : ℕ) (mkdir : σ → Text → MkdirResult × σ)
    (composer : Composer) (s : σ) : Except Halt (Int × Composer × σ) :=
  let (path, composer) := pathcompYield lua depth composer
  match path with
  | none => .error .nullPointer
  | some path =>
    match mkdirLoop mkdir (path.length + 1) path 0 s with
    | .error halt => .error halt
    | .ok (rc, s) => .ok (rc, composer, s)

/-- The call together with the line that `pathcomp_mkdir` logs right after a failure. -/
def mkdirLogging {σ : Type} (mkdir : σ → Text → MkdirResult × σ) (strerror : σ → Text)
    (s : σ × List Text) (path : Text) : MkdirResult × σ × List Text :=
  match mkdir s.1 path with
  | (.failed, t) => (.failed, t, s.2 ++ [ascii "mkdir '" ++ path ++ ascii "': " ++ strerror t])
  | (.created, t) => (.created, t, s.2)
  | (.eexist, t) => (.eexist, t, s.2)

theorem mkdirLoop_logging {σ : Type} (mkdir : σ → Text → MkdirResult × σ)
    (strerror : σ → Text) (fuel : ℕ) (path : Text) (p : ℕ) (s : σ) (logged : List Text) :
    ∃ message, mkdirLoop (mkdirLogging mkdir strerror) fuel path p (s, logged) =
      (mkdirLoop mkdir fuel path p s).map fun x =>
        (x.1, x.2, if x.1 = -1 then logged ++ [message] else logged) := by
  induction fuel generalizing path p s with
  | zero => exact ⟨[], rfl⟩
  | succ fuel ih =>
    simp only [mkdirLoop, mkdirLogging]
    split
    · exact ⟨[], rfl⟩
    · rcases mkdir s (cstr _) with ⟨result, u⟩
      cases result with
      | failed => exact ⟨_, rfl⟩
      | created => exact ih _ _ u
      | eexist => exact ih _ _ u

end Pathcomp.Evaluation
