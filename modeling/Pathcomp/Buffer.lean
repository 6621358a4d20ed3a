import Pathcomp.Bytes
import Mathlib.Data.List.DropRight

set_option autoImplicit false

/-!
# The growing buffer as a byte string with a read cursor

Capacity and the terminating NUL are not part of this level: `bytes` is
`buf[0..len)`. The cursor view `cursor done rest` is what the parser proofs
work with.
-/
namespace Pathcomp.Buffer
open Bytes

structure Buf where
  bytes : Text
  pos : ℕ
  deriving DecidableEq, Repr

def bufInit : Buf := ⟨[], 0⟩

def bufSetlen (buf : Buf) (len : ℕ) : Buf := ⟨buf.bytes.take len, min buf.pos len⟩

def bufAddch (buf : Buf) (c : Int) : Buf := { buf with bytes := buf.bytes ++ [intToChar c] }

def bufAddstr (buf : Buf) (s : Text) : Buf := { buf with bytes := buf.bytes ++ s }

def bufDetach (buf : Buf) : Text := buf.bytes

def trimRight (s : Text) : Text := s.rdropWhile (fun b => isspace (charToInt b))

def bufRtrim (buf : Buf) : Buf := bufSetlen buf (trimRight buf.bytes).length

/-- A cursor inside the part that is removed goes to the start. -/
def bufLtrim (buf : Buf) : Buf :=
  let rest := buf.bytes.dropWhile fun b => isspace (charToInt b)
  ⟨rest, buf.pos - (buf.bytes.length - rest.length)⟩

/-- The bytes from `start` to `stop` are replaced by `data`. -/
def bufSplice (buf : Buf) (start stop : ℕ) (data : Text) : Buf :=
  let bytes := buf.bytes.take start ++ (data ++ buf.bytes.drop stop)
  ⟨bytes, min buf.pos bytes.length⟩

def bufRewind (buf : Buf) : Buf := { buf with pos := 0 }

def bufFgetc (buf : Buf) : Int × Buf :=
  match buf.bytes[buf.pos]? with
  | some b => (charToInt b, { buf with pos := buf.pos + 1 })
  | none => (eof, buf)

/-- Push-back writes the character over the byte before the cursor, also when
    the character is the end marker that reading did not advance over. -/
def bufUngetc (buf : Buf) (c : Int) : Int × Buf :=
  if 0 < buf.pos then
    (charToInt (intToChar c), ⟨buf.bytes.set (buf.pos - 1) (intToChar c), buf.pos - 1⟩)
  else (eof, buf)

def cursor (past rest : Text) : Buf := ⟨past ++ rest, past.length⟩

theorem bufFgetc_cons (past rest : Text) (b : UInt8) :
    bufFgetc (cursor past (b :: rest)) = (charToInt b, cursor (past ++ [b]) rest) := by
  simp [bufFgetc, cursor]

theorem bufFgetc_nil (past : Text) : bufFgetc (cursor past []) = (eof, cursor past []) := by
  simp [bufFgetc, cursor]

theorem bufUngetc_concat (past rest : Text) (b : UInt8) (c : Int) :
    (bufUngetc (cursor (past ++ [b]) rest) c).2 = cursor past (intToChar c :: rest) := by
  simp [bufUngetc, cursor]

/-- Pushing back the character just read restores the buffer. -/
theorem bufUngetc_char (past rest : Text) (b : UInt8) :
    (bufUngetc (cursor (past ++ [b]) rest) (charToInt b)).2 = cursor past (b :: rest) := by
  rw [bufUngetc_concat, intToChar_charToInt]

theorem bufRtrim_bytes (buf : Buf) : (bufRtrim buf).bytes = trimRight buf.bytes := by
  have h : trimRight buf.bytes <+: buf.bytes := List.rdropWhile_prefix _ _
  exact (List.prefix_iff_eq_take.mp h).symm

theorem bufAddch_char (buf : Buf) (b : UInt8) :
    bufAddch buf (charToInt b) = { buf with bytes := buf.bytes ++ [b] } := by
  rw [bufAddch, intToChar_charToInt]

end Pathcomp.Buffer
