import Pathcomp.Buffer

set_option autoImplicit false

/-!
# Attribute values

A value is a string, a Lua chunk or an integer. For a string the field `result`
is the value itself; for the other kinds it caches the last evaluation.
-/
namespace Pathcomp.Values
open Bytes Buffer

inductive Value where
  | string (result : Text)
  | lua (source : Text) (result : Option Text)
  | int (integer : Int32) (result : Option Text)
  deriving DecidableEq, Repr

/-- The text between the first brace after the keyword and the last closing
    brace; whatever follows the latter is dropped. -/
def valueMatchAndExtractBlock (text keyword : Text) : Option Text :=
  if text.length ≤ keyword.length then none
  else if text.take keyword.length ≠ keyword then none
  else
    match (text.drop keyword.length).dropWhile (fun b => isspace (charToInt b)) with
    | [] => none
    | b :: text =>
      if b ≠ byte '\x7b' then none
      else
        let buf := bufAddstr bufInit text
        match strrchr buf.bytes (byte '\x7d') with
        | none => none
        | some p => some (bufDetach (bufSetlen buf p))

def valueNewString (text : Text) : Value := .string text

def luaPreamble : Text := ascii "local self = ...; "

def valueNewLua (source : Text) : Value :=
  .lua (bufDetach (bufAddstr (bufAddstr bufInit luaPreamble) source)) none

def valueNewInt (ival : Int32) : Value := .int ival none

def valueNewAuto (text : Text) : Value :=
  match valueMatchAndExtractBlock text (ascii "lua") with
  | some source => valueNewLua source
  | none => valueNewString text

def valueClone : Value → Value
  | .string result => .string result
  | .lua source result => .lua source result
  | .int integer result => .int integer result

/-- The `%d` rendering of an integer. -/
def formatInt (n : Int32) : Text :=
  if n.toInt < 0 then byte '-' :: (Nat.toDigits 10 n.toInt.natAbs).map byte
  else (Nat.toDigits 10 n.toInt.natAbs).map byte

/-- A value with its cache emptied: what evaluation can depend on. -/
def Value.erase : Value → Value
  | .string result => .string result
  | .lua source _ => .lua source none
  | .int integer _ => .int integer none

def Value.setResult (result : Option Text) : Value → Value
  | .string text => .string text
  | .lua source _ => .lua source result
  | .int integer _ => .int integer result

@[simp] theorem valueClone_eq (v : Value) : valueClone v = v := by cases v <;> rfl

@[simp] theorem Value.erase_setResult (result : Option Text) (v : Value) :
    (v.setResult result).erase = v.erase := by cases v <;> rfl

theorem valueNewAuto_erase (text : Text) : (valueNewAuto text).erase = valueNewAuto text := by
  unfold valueNewAuto
  split <;> rfl

end Pathcomp.Values
