import Pathcomp.Buffer

set_option autoImplicit false

/-!
# The configuration parser

The character loops of `cf.c` over one shared cursor. Every loop has a bound on
its rounds as first argument and stops with `Halt.bound` beyond it; that the
length of the text is enough is shown with the scanner.
-/
namespace Pathcomp.Config
open Bytes Buffer

structure CfKv where
  key : Text
  value : Text
  deriving DecidableEq, Repr

structure CfSection where
  name : Text
  entries : List CfKv
  deriving DecidableEq, Repr

structure Cf where
  sections : List CfSection
  deriving DecidableEq, Repr

def cfKvNew (key value : Buf) : CfKv := ⟨cstr key.bytes, cstr value.bytes⟩

def cfSectionNew (name : Buf) : CfSection := ⟨cstr name.bytes, []⟩

/-- What the loops read: a buffer, or a buffer with a record of the accesses to it, where
    `round` notes a round of the main loop. -/
class Source (τ : Type) where
  fgetc : τ → Int × τ
  ungetc : τ → Int → τ
  round : τ → τ

open Source

instance : Source Buf where
  fgetc := bufFgetc
  ungetc text c := (bufUngetc text c).2
  round text := text

theorem fgetc_buf (text : Buf) : fgetc text = bufFgetc text := rfl

theorem ungetc_buf (text : Buf) (c : Int) : ungetc text c = (bufUngetc text c).2 := rfl

theorem round_buf (text : Buf) : round text = text := rfl

section Loops
variable {τ : Type} [Source τ]

def cfParseSectionName : ℕ → τ → Buf → Except Halt (Bool × τ × Buf)
  | 0, _, _ => .error .bound
  | fuel + 1, text, name =>
    let (ch, text) := fgetc text
    if ch < 0 then .ok (false, text, name)
    else if ch = code '\n' then .ok (false, text, name)
    else if ch = code ']' then .ok (true, text, name)
    else cfParseSectionName fuel text (bufAddch name ch)

/-- First loop of `cf_parse_value`. At the end of the text the pushed-back
    character is the end marker. -/
def skipInitialSpaces : ℕ → τ → Except Halt τ
  | 0, _ => .error .bound
  | fuel + 1, text =>
    let (ch, text) := fgetc text
    if !isspace ch || ch = code '\n' then .ok (ungetc text ch)
    else skipInitialSpaces fuel text

/-- Second loop of `cf_parse_value`. Reaching the end is not a syntax error. -/
def parseValueLoop : ℕ → τ → Buf → Except Halt (Bool × τ × Buf)
  | 0, _, _ => .error .bound
  | fuel + 1, text, value =>
    let (ch, text) := fgetc text
    if ch < 0 then .ok (true, text, value)
    else if ch = code '\\' then
      let (ch, text) := fgetc text
      if ch = code '\n' then parseValueLoop fuel text value
      else
        -- unknown escape sequences pass through
        parseValueLoop fuel text (bufAddch (bufAddch value (code '\\')) ch)
    else if ch = code '\n' then .ok (true, text, value)
    else parseValueLoop fuel text (bufAddch value ch)

def cfParseValue (fuel : ℕ) (text : τ) (value : Buf) : Except Halt (Bool × τ × Buf) :=
  match skipInitialSpaces fuel text with
  | .error halt => .error halt
  | .ok text => parseValueLoop fuel text value

def cfParseKeyValuePair : ℕ → τ → Buf → Buf → Except Halt (Bool × τ × Buf × Buf)
  | 0, _, _, _ => .error .bound
  | fuel + 1, text, key, value =>
    let (ch, text) := fgetc text
    if ch < 0 then .ok (false, text, key, value)
    else if ch = code '\n' then .ok (false, text, key, value)
    else if ch = code '[' ∨ ch = code ']' then .ok (false, text, key, value)
    else if ch = code '=' then
      match cfParseValue (fuel + 1) text value with
      | .error halt => .error halt
      | .ok (rc, text, value) => .ok (rc, text, bufRtrim key, value)
    else cfParseKeyValuePair fuel text (bufAddch key ch) value

/-- An open section is pushed onto the list when the next header starts and at
    the end of the text. -/
def pushSection (cf : Cf) (sec : Option CfSection) : Cf := ⟨cf.sections ++ sec.toList⟩

/-- An entry without a section to attach it to is dropped. -/
def attachEntry (kv : CfKv) : Option CfSection → Option CfSection
  | none => none
  | some sec => some { sec with entries := sec.entries ++ [kv] }

def parseTextLoop : ℕ → Cf → τ → Option CfSection → Bool →
    Except Halt (Bool × Cf × τ)
  | 0, _, _, _, _ => .error .bound
  | fuel + 1, cf, text, sec, comment =>
    let (ch, text) := fgetc (round text)
    if ch < 0 then .ok (true, pushSection cf sec, text)
    else if ch = code '\n' then parseTextLoop fuel cf text sec false
    else if comment || isspace ch then parseTextLoop fuel cf text sec comment
    else if ch = code ';' ∨ ch = code '#' then parseTextLoop fuel cf text sec true
    else if ch = code '[' then
      let cf := pushSection cf sec
      match cfParseSectionName (fuel + 1) text bufInit with
      | .error halt => .error halt
      | .ok (false, text, _) => .ok (false, cf, text)
      | .ok (true, text, name) => parseTextLoop fuel cf text (some (cfSectionNew name)) comment
    else if ch = code '=' then .ok (false, cf, text)
    else
      match cfParseKeyValuePair (fuel + 1) (ungetc text ch) bufInit bufInit with
      | .error halt => .error halt
      | .ok (false, text, _, _) => .ok (false, cf, text)
      | .ok (true, text, key, value) =>
        let kv := cfKvNew key (bufRtrim value)
        parseTextLoop fuel cf text (attachEntry kv sec) comment

def cfParseText (fuel : ℕ) (cf : Cf) (text : τ) : Except Halt (Bool × Cf × τ) :=
  parseTextLoop fuel cf text none false

end Loops

def cfAddFromString (fuel : ℕ) (cf : Cf) (string : Text) : Except Halt (Bool × Cf) :=
  let text := bufAddstr bufInit string
  match cfParseText fuel cf text with
  | .error halt => .error halt
  | .ok (rc, cf, _) => .ok (rc, cf)

end Pathcomp.Config
