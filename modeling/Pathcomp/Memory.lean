import Pathcomp.Evaluation
import Pathcomp.Links

set_option autoImplicit false

/-!
# Composers in memory

`att.c` and `pathcomp.c` on a heap of list nodes, values, attributes and composers.
Pointers are addresses and NULL is `none`. Texts are no cells of their own but values
inside these cells, so that nothing is said here about the lifetime of a string; and a
chunk uses no composer but its own. A record is allocated once its fields are known.
Loops over lists are bounded by the number of cells ever allocated.
-/
namespace Pathcomp.Memory
open Bytes Buffer Config Values Composers Evaluation Heaps Links

structure AttCell where
  name : Text
  alternatives : Option ℕ
  current : Option ℕ
  origin : Option Text
  deriving DecidableEq, Repr

structure ComposerCell where
  name : Text
  attributes : Option ℕ
  metatable : Text
  done : Bool
  started : Bool
  deriving DecidableEq, Repr

inductive Cell where
  | node (el : ℕ) (next : Option ℕ)
  | value (val : Value)
  | att (att : AttCell)
  | composer (composer : ComposerCell)
  deriving DecidableEq, Repr

/-- The cells that a cell points at. -/
def Cell.pointers : Cell → List ℕ
  | .node el next => el :: next.toList
  | .value _ => []
  | .att a => a.alternatives.toList ++ a.current.toList
  | .composer c => c.attributes.toList

abbrev M := Mem Cell Halt

instance : Nodes Cell where
  node := .node
  asNode
    | .node el next => some (el, next)
    | _ => none
  asNode_node _ _ := rfl

def valueAt (val : ℕ) : M Value := do
  match ← load .nullPointer val with
  | .value val => pure val
  | _ => halt .nullPointer

def attAt (att : ℕ) : M AttCell := do
  match ← load .nullPointer att with
  | .att att => pure att
  | _ => halt .nullPointer

def composerAt (composer : ℕ) : M ComposerCell := do
  match ← load .nullPointer composer with
  | .composer composer => pure composer
  | _ => halt .nullPointer

def valueNew (val : Value) : M ℕ := malloc (.value val)

def valueFree (val : ℕ) : M Unit := free .nullPointer val

def valueClone (val : ℕ) : M ℕ := do malloc (.value (Values.valueClone (← valueAt val)))

def setResult (val : ℕ) (result : Option Text) : M Unit := do
  store .nullPointer val (.value ((← valueAt val).setResult result))

def attNew (name : Text) (value : ℕ) (origin : Option Text) : M ℕ := do
  let alternatives ← listNew value
  malloc (.att { name, alternatives := some alternatives, current := some alternatives, origin })

/-- The counting loop of `att_clone` with the assertions inside and after it. -/
def attCloneCurrent (current : Option ℕ) : ℕ → Option ℕ → Option ℕ → M (Option ℕ)
  | 0, _, _ => halt .bound
  | fuel + 1, p, q =>
    if p = current then pure q
    else match p, q with
      | some p, some q => do
        let q ← listNext q
        attCloneCurrent current fuel (← listNext p) q
      | _, _ => halt .assertion

def attClone (att : ℕ) : M ℕ := do
  let a ← attAt att
  let alternatives ← listTransform valueClone (← heapBound) a.alternatives none
  let current ← attCloneCurrent a.current (← heapBound) a.alternatives alternatives
  malloc (.att { name := a.name, alternatives, current, origin := a.origin })

def attReplaceValue (att value : ℕ) (origin : Option Text) : M Unit := do
  let a ← attAt att
  listForeach valueFree (← heapBound) a.alternatives
  listFree (← heapBound) a.alternatives
  let alternatives ← listNew value
  store .nullPointer att
    (.att { a with alternatives := some alternatives, current := some alternatives, origin })

def attAddValue (att value : ℕ) : M Unit := do
  let _ ← listPush (← attAt att).alternatives value

def attFree (att : ℕ) : M Unit := do
  let a ← attAt att
  listForeach valueFree (← heapBound) a.alternatives
  listFree (← heapBound) a.alternatives
  free .nullPointer att

def attNameEqualTo (name : Text) (att : ℕ) : M Bool := do pure ((← attAt att).name = name)

def attRewind (att : ℕ) : M Unit := do
  let a ← attAt att
  store .nullPointer att (.att { a with current := a.alternatives })

def attNext (att : ℕ) : M Bool := do
  let a ← attAt att
  match a.current with
  | none => pure false
  | some p => do
    let current ← listNext p
    store .nullPointer att (.att { a with current })
    pure current.isSome

def pathcompRetrieveAtt (composer : ℕ) (name : Text) : M (Option ℕ) := do
  let c ← composerAt composer
  match ← listFindFirst (attNameEqualTo name) (← heapBound) c.attributes with
  | none => pure none
  | some patt => do pure (some (← listEl patt))

def inheritedBy (name : Text) : Option Text → Bool
  | none => false
  | some origin => origin ≠ name

def pathcompAddOrReplace (composer : ℕ) (name : Text) (value : ℕ) (origin : Option Text)
    (action : Action) : M Unit := do
  match ← pathcompRetrieveAtt composer name with
  | none => do
    let new ← attNew name value origin
    let c ← composerAt composer
    let attributes ← listPush c.attributes new
    store .nullPointer composer (.composer { c with attributes := some attributes })
  | some att => do
    let a ← attAt att
    let c ← composerAt composer
    match if action = .addIf then
        resolveAddIf (inheritedBy c.name a.origin) (inheritedBy c.name origin)
      else action with
    | .replace => attReplaceValue att value origin
    | .add => attAddValue att value
    | .none => valueFree value
    | .addIf => halt .assertion

def pathcompSet (composer : ℕ) (name value : Text) : M Unit := do
  pathcompAddOrReplace composer name (← valueNew (valueNewAuto value)) originRuntime .replace

def pathcompSetInt (composer : ℕ) (name : Text) (value : Int32) : M Unit := do
  pathcompAddOrReplace composer name (← valueNew (valueNewInt value)) originRuntime .replace

def pathcompAdd (composer : ℕ) (name value : Text) : M Unit := do
  pathcompAddOrReplace composer name (← valueNew (valueNewAuto value)) originRuntime .add

def pathcompAddInt (composer : ℕ) (name : Text) (value : Int32) : M Unit := do
  pathcompAddOrReplace composer name (← valueNew (valueNewInt value)) originRuntime .add

def pathcompRewind (composer : ℕ) : M Unit := do
  let c ← composerAt composer
  listForeach attRewind (← heapBound) c.attributes
  store .nullPointer composer (.composer { c with done := false, started := false })

def pathcompDone (composer : ℕ) : M Bool := do pure (← composerAt composer).done

def nextLoop : ℕ → Option ℕ → M Bool
  | _, none => pure false
  | 0, some _ => halt .bound
  | fuel + 1, some p => do
    if ← attNext (← listEl p) then pure true
    else do
      attRewind (← listEl p)
      nextLoop fuel (← listNext p)

def pathcompNext (composer : ℕ) : M Bool := do
  let c ← composerAt composer
  if c.done then pure false
  else do
    if ← nextLoop (← heapBound) c.attributes then pure true
    else do
      store .nullPointer composer (.composer { c with done := true })
      pure false

def pathcompClone (composer : ℕ) : M ℕ := do
  let c ← composerAt composer
  let attributes ← listTransform attClone (← heapBound) c.attributes none
  malloc (.composer { c with attributes })

def pathcompFree : Option ℕ → M Unit
  | none => pure ()
  | some composer => do
    let c ← composerAt composer
    listForeach attFree (← heapBound) c.attributes
    listFree (← heapBound) c.attributes
    free .nullPointer composer

def LuaCode.run (push : Text → M LuaObject) : LuaCode → M (Option Text)
  | .finish result => pure (result.map cstr)
  | .index name resume => do LuaCode.run push (resume (← push name))

/-- What `att_eval` and `att_push` do with the value that `current` points at. -/
def attOnCurrent {α : Type} (absent : α) (onValue : ℕ → M α) (att : ℕ) : M α := do
  match (← attAt att).current with
  | none => pure absent
  | some p => do onValue (← listEl p)

/-- What `pathcomp_eval_nocopy` and `pathcomp_push_value` do with an attribute. -/
def onRetrieved {α : Type} (absent : α) (onAtt : ℕ → M α) (composer : ℕ)
    (name : Text) : M α := do
  match ← pathcompRetrieveAtt composer name with
  | none => pure absent
  | some att => onAtt att

section Dispatch
variable (evalLua : ℕ → Text → M (Option Text))

def valuePush (val : ℕ) : M LuaObject := do
  match ← valueAt val with
  | .string result => pure (.string result)
  | .lua source _ => do pure (luaPushstring (← evalLua val source))
  | .int integer _ => pure (.integer integer)

def valueEval (val : ℕ) : M (Option Text) := do
  match ← valueAt val with
  | .string result => pure (some result)
  | .lua source _ => evalLua val source
  | .int integer _ => do
    setResult val (some (formatInt integer))
    pure (some (formatInt integer))

def attPush (att : ℕ) : M LuaObject := attOnCurrent .nil (valuePush evalLua) att

def attEval (att : ℕ) : M (Option Text) := attOnCurrent none (valueEval evalLua) att

def pathcompPushValue (composer : ℕ) (name : Text) : M LuaObject :=
  onRetrieved .nil (attPush evalLua) composer name

end Dispatch

def valueEvalLua (lua : Lua) (composer : ℕ) : ℕ → ℕ → Text → M (Option Text)
  | 0, val, _ => do
    setResult val none
    pure none
  | depth + 1, val, source => do
    let result ← LuaCode.run (pathcompPushValue (valueEvalLua lua composer depth) composer)
      (lua source)
    setResult val result
    pure result

def pathcompEvalNocopy (lua : Lua) (depth : ℕ) (composer : ℕ) (name : Text) : M (Option Text) :=
  onRetrieved none (attEval (valueEvalLua lua composer depth)) composer name

def pathcompEval (lua : Lua) (depth : ℕ) (composer : ℕ) (name : Text) : M (Option Text) := do
  pure ((← pathcompEvalNocopy lua depth composer name).map cstr)

def pathcompYield (lua : Lua) (depth : ℕ) (composer : ℕ) : M (Option Text) :=
  yieldWith (pathcompEvalNocopy lua depth composer)

/-- The start of a round of `pathcomp_find`. -/
def advance (composer : ℕ) : M Unit := do
  let _ ← (do if (← composerAt composer).started then pathcompNext composer else pure false)
  let c ← composerAt composer
  store .nullPointer composer (.composer { c with started := true })

def pathcompFind (lua : Lua) (depth : ℕ) (pathExists : Text → Bool) (fuel composer : ℕ) :
    M (Option Text) :=
  findWith (advance composer) (pathcompDone composer) (pathcompYield lua depth composer)
    (fun path => pure (pathExists path)) fuel

def pathcompAddAttsFromEntries (addAttsFromSections : Text → M Unit) (sectionName : Text)
    (composer : ℕ) : List CfKv → M Unit
  | [] => pure ()
  | kv :: entry => do
    pathcompAddOrReplace composer kv.key (← valueNew (valueNewAuto kv.value)) (some sectionName)
      .addIf
    if kv.key = attCopy then do
      addAttsFromSections kv.value
      pathcompAddAttsFromEntries addAttsFromSections sectionName composer entry
    else pathcompAddAttsFromEntries addAttsFromSections sectionName composer entry

def addAttsLoop (addAttsFromEntries : Text → List CfKv → M Unit) (sectionName : Text) :
    List CfSection → M Unit
  | [] => pure ()
  | sec :: psec =>
    if sec.name = sectionName then do
      addAttsFromEntries sec.name sec.entries
      addAttsLoop addAttsFromEntries sectionName psec
    else addAttsLoop addAttsFromEntries sectionName psec

def pathcompAddAttsFromSections (config : Option Cf) (composer : ℕ) : ℕ → Text → M Unit
  | 0, _ => halt .bound
  | depth + 1, sectionName =>
    match config with
    | none => pure ()
    | some cf =>
      addAttsLoop (fun name => pathcompAddAttsFromEntries
        (pathcompAddAttsFromSections config composer depth) name composer) sectionName cf.sections

def pathcompNew (config : Option Cf) (depth : ℕ) (name : Text) : M ℕ := do
  let composer ← malloc (.composer
    { name, attributes := none, metatable := [], done := false, started := false })
  pathcompAddAttsFromSections config composer depth name
  let c ← composerAt composer
  store .nullPointer composer (.composer { c with
    metatable := bufDetach (bufAddstr (bufAddstr bufInit metatablePrefix) name)
    done := false
    started := false })
  pure composer

end Pathcomp.Memory
