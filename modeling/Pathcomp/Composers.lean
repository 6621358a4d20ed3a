import Pathcomp.Attributes
import Pathcomp.Config

set_option autoImplicit false

/-!
# Composer objects

The attribute store with its add-or-replace decision, construction from the
configuration by the mutual recursion over sections and entries, cloning, and
the iterator over combinations of alternatives.
-/
namespace Pathcomp.Composers
open Bytes Buffer Config Values Attributes

structure Composer where
  name : Text
  attributes : List Att
  metatable : Text
  done : Bool
  started : Bool
  deriving DecidableEq, Repr

inductive Action where
  | add
  | replace
  | addIf
  | none
  deriving DecidableEq, Repr

def originRuntime : Option Text := none
def attRoot : Text := ascii "root"
def attCompose : Text := ascii "compose"
def attCopy : Text := ascii "copy-from"

def pathcompRetrieveAtt (composer : Composer) (name : Text) : Option Att :=
  composer.attributes.find? (attNameEqualTo name)

/-- Writing through the pointer that `list_find_first` returned. -/
def modifyFirst {α : Type} (p : α → Bool) (f : α → α) : List α → List α
  | [] => []
  | x :: xs => if p x then f x :: xs else x :: modifyFirst p f xs

def Composer.onAtt (composer : Composer) (name : Text) (f : Att → Att) : Composer :=
  { composer with attributes := modifyFirst (attNameEqualTo name) f composer.attributes }

def inherited (composer : Composer) : Option Text → Bool
  | none => false
  | some origin => origin ≠ composer.name

def resolveAddIf (oldInherited newInherited : Bool) : Action :=
  if newInherited && !oldInherited then .none
  else if !newInherited && oldInherited then .replace
  else .add

def pathcompAddOrReplace (composer : Composer) (name : Text) (value : Value)
    (origin : Option Text) (action : Action) : Except Halt Composer :=
  match pathcompRetrieveAtt composer name with
  | none =>
    .ok { composer with attributes := listPush composer.attributes (attNew name value origin) }
  | some att =>
    -- there happens to be an attribute with this name already
    let action :=
      if action = .addIf then
        resolveAddIf (inherited composer (attGetOrigin att)) (inherited composer origin)
      else action
    match action with
    | .replace => .ok (composer.onAtt name (fun att => attReplaceValue att value origin))
    | .add => .ok (composer.onAtt name (fun att => attAddValue att value))
    | .none => .ok composer
    | .addIf => .error .assertion

/-- The entries of one section; `addAttsFromSections` is the recursive call. -/
def pathcompAddAttsFromEntries
    (addAttsFromSections : Composer → Text → Except Halt Composer)
    (sectionName : Text) : Composer → List CfKv → Except Halt Composer
  | composer, [] => .ok composer
  | composer, kv :: entry =>
    match pathcompAddOrReplace composer kv.key (valueNewAuto kv.value) (some sectionName)
        .addIf with
    | .error halt => .error halt
    | .ok composer =>
      if kv.key = attCopy then
        match addAttsFromSections composer kv.value with
        | .error halt => .error halt
        | .ok composer =>
          pathcompAddAttsFromEntries addAttsFromSections sectionName composer entry
      else pathcompAddAttsFromEntries addAttsFromSections sectionName composer entry

/-- The loop that finds the next section of a name and adds its entries. -/
def addAttsLoop (addAttsFromEntries : Text → Composer → List CfKv → Except Halt Composer)
    (sectionName : Text) : Composer → List CfSection → Except Halt Composer
  | composer, [] => .ok composer
  | composer, sec :: psec =>
    if sec.name = sectionName then
      match addAttsFromEntries sec.name composer sec.entries with
      | .error halt => .error halt
      | .ok composer => addAttsLoop addAttsFromEntries sectionName composer psec
    else addAttsLoop addAttsFromEntries sectionName composer psec

/-- The first argument bounds the depth of nested calls; `config` may be NULL. -/
def pathcompAddAttsFromSections (config : Option Cf) :
    ℕ → Composer → Text → Except Halt Composer
  | 0, _, _ => .error .bound
  | depth + 1, composer, sectionName =>
    match config with
    | none => .ok composer
    | some cf =>
      addAttsLoop
        (pathcompAddAttsFromEntries (pathcompAddAttsFromSections config depth))
        sectionName composer cf.sections

def pathcompMakeFromConfig (config : Option Cf) (depth : ℕ) (composer : Composer) :
    Except Halt Composer :=
  pathcompAddAttsFromSections config depth composer composer.name

def metatablePrefix : Text := ascii "libpathcomp::"

def pathcompNew (config : Option Cf) (depth : ℕ) (name : Text) : Except Halt Composer :=
  let composer : Composer :=
    { name, attributes := [], metatable := [], done := false, started := false }
  match pathcompMakeFromConfig config depth composer with
  | .error halt => .error halt
  | .ok composer =>
    .ok { composer with
      metatable := bufDetach (bufAddstr (bufAddstr bufInit metatablePrefix) name)
      done := false
      started := false }

def listTransform {α β : Type} (f : α → Except Halt β) : List α → Except Halt (List β)
  | [] => .ok []
  | x :: xs =>
    match f x with
    | .error halt => .error halt
    | .ok y =>
      match listTransform f xs with
      | .error halt => .error halt
      | .ok ys => .ok (y :: ys)

def pathcompClone (composer : Composer) : Except Halt Composer :=
  match listTransform attClone composer.attributes with
  | .error halt => .error halt
  | .ok attributes => .ok { composer with attributes }

def pathcompSet (composer : Composer) (name value : Text) : Except Halt Composer :=
  pathcompAddOrReplace composer name (valueNewAuto value) originRuntime .replace

def pathcompSetInt (composer : Composer) (name : Text) (value : Int32) : Except Halt Composer :=
  pathcompAddOrReplace composer name (valueNewInt value) originRuntime .replace

def pathcompAdd (composer : Composer) (name value : Text) : Except Halt Composer :=
  pathcompAddOrReplace composer name (valueNewAuto value) originRuntime .add

def pathcompAddInt (composer : Composer) (name : Text) (value : Int32) : Except Halt Composer :=
  pathcompAddOrReplace composer name (valueNewInt value) originRuntime .add

def pathcompRewind (composer : Composer) : Composer :=
  { composer with
    attributes := composer.attributes.map attRewind
    done := false
    started := false }

def pathcompDone (composer : Composer) : Bool := composer.done

/-- The loop of `pathcomp_next`: an attribute that has wrapped around is
    rewound and the following one is cycled. -/
def nextLoop : List Att → Bool × List Att
  | [] => (false, [])
  | att :: p =>
    let (advanced, att) := attNext att
    if advanced then (true, att :: p)
    else
      let (found, p) := nextLoop p
      (found, attRewind att :: p)

def pathcompNext (composer : Composer) : Bool × Composer :=
  if composer.done then (false, composer)
  else
    let (found, attributes) := nextLoop composer.attributes
    if found then (true, { composer with attributes })
    else (false, { composer with attributes, done := true })

def Composer.erase (composer : Composer) : Composer :=
  { composer with attributes := composer.attributes.map Att.erase }

end Pathcomp.Composers
