import Pathcomp.Buffer
import Pathcomp.Cells
import Mathlib.Algebra.Group.Int.Defs
import Mathlib.Algebra.Group.Nat.Defs

set_option autoImplicit false

/-!
# The growing buffer in memory

`buf_t` with its capacity, its terminating NUL and the shared empty string. Sizes
are computed modulo 2^64 as `size_t` does, lengths that pass through an `int`
are narrowed to 32 bits, and every access is checked against the block it goes
to.
-/
namespace Pathcomp.RawBuffer
open Bytes Buffer Cells

/-- Why an operation does not return: a failed `assert`, a read outside the
    initialised part of a block, a write outside of the block or of something
    else than NUL to the shared empty string, or memory freed that does not come
    from `malloc`. -/
inductive Fault where
  | assertion
  | read
  | write
  | free
  deriving DecidableEq, Repr

/-- What `buf->buf` points at. Cells that were never written are `none`. -/
inductive Storage where
  | null
  | shared
  | heap (cells : List (Option UInt8))
  deriving DecidableEq, Repr

/-- `initial` is the byte of `buf_initial`, which all buffers share. -/
structure RawBuf where
  buf : Storage
  alloc : ℕ
  len : ℕ
  pos : ℕ
  initial : UInt8
  deriving DecidableEq, Repr

def sizeMax : ℕ := 2 ^ 64

def addSize (a b : ℕ) : ℕ := (a + b) % sizeMax

def subSize (a b : ℕ) : ℕ := (a + sizeMax - b % sizeMax) % sizeMax

def narrow (n : ℕ) : Int := Int.bmod n (2 ^ 32)

def toSize (n : Int) : ℕ := (n % sizeMax).toNat

def check (p : Bool) : Except Fault Unit := if p then .ok () else .error .assertion

def RawBuf.store (b : RawBuf) (i : ℕ) (data : Text) : Except Fault RawBuf :=
  match b.buf with
  | .heap cells =>
    if i + data.length ≤ cells.length then
      .ok { b with buf := .heap (overwrite cells i (data.map some)) }
    else .error .write
  | .shared =>
    if data = [] then .ok b
    else if i = 0 ∧ data = [0] then .ok { b with initial := 0 }
    else .error .write
  | .null => if data = [] then .ok b else .error .write

def RawBuf.load (b : RawBuf) (i : ℕ) : Except Fault UInt8 :=
  match b.buf with
  | .heap cells =>
    match cells[i]? with
    | some (some byte) => .ok byte
    | _ => .error .read
  | .shared => if i = 0 then .ok b.initial else .error .read
  | .null => .error .read

def RawBuf.move (b : RawBuf) (dst src n : ℕ) : Except Fault RawBuf :=
  match b.buf with
  | .heap cells =>
    if cells.length < src + n then .error .read
    else if cells.length < dst + n then .error .write
    else .ok { b with buf := .heap (overwrite cells dst ((cells.drop src).take n)) }
  | _ => if n = 0 then .ok b else .error .write

def realloc (p : Storage) (n : ℕ) : Except Fault Storage :=
  match p with
  | .null => .ok (.heap (extend [] none n))
  | .shared => .error .free
  | .heap cells => .ok (.heap (extend cells none n))

def growN (n : ℕ) : ℕ := addSize n 16 * 3 % sizeMax / 2

def growTo (p : Storage) (want cur : ℕ) : Except Fault (Storage × ℕ) :=
  if cur < want then
    let cur := if growN cur < want then want else growN cur
    match realloc p cur with
    | .error fault => .error fault
    | .ok p => .ok (p, cur)
  else .ok (p, cur)

def RawBuf.grow (b : RawBuf) (extra : ℕ) : Except Fault RawBuf :=
  let newBuf : Bool := b.alloc = 0
  let p := if newBuf then .null else b.buf
  match growTo p (addSize (addSize b.len extra) 1) b.alloc with
  | .error fault => .error fault
  | .ok (p, alloc) =>
    let b := { b with buf := p, alloc }
    if newBuf then b.store 0 [0] else .ok b

def RawBuf.init (b : RawBuf) (hint : ℕ) : Except Fault RawBuf :=
  let b := { b with buf := .shared, alloc := 0, len := 0, pos := 0 }
  if hint ≠ 0 then b.grow hint else .ok b

def RawBuf.release (b : RawBuf) : Except Fault RawBuf :=
  if b.alloc ≠ 0 then
    match b.buf with
    | .heap _ => b.init 0
    | _ => .error .free
  else .ok b

/-- The returned block and its length, and the buffer that is left. -/
def RawBuf.detach (b : RawBuf) : Except Fault (Storage × ℕ × RawBuf) := do
  let b ← b.grow 0
  let s := b.buf
  let len := b.len
  let b ← b.init 0
  .ok (s, len, b)

def RawBuf.setlen (b : RawBuf) (len : ℕ) : Except Fault RawBuf := do
  check (if b.alloc ≠ 0 then len < b.alloc else len = 0)
  let b := { b with len }
  let b ← b.store len [0]
  .ok (if b.len < b.pos then { b with pos := b.len } else b)

def RawBuf.avail (b : RawBuf) : ℕ :=
  if b.alloc ≠ 0 then subSize (subSize b.alloc b.len) 1 else 0

def RawBuf.addch (b : RawBuf) (c : Int) : Except Fault RawBuf := do
  let b ← b.grow 1
  let b ← b.store b.len [intToChar c]
  let b := { b with len := addSize b.len 1 }
  b.store b.len [0]

def RawBuf.add (b : RawBuf) (data : Option Text) : Except Fault RawBuf :=
  match data with
  | none => .ok b
  | some data => do
    let b ← b.grow data.length
    let b ← b.store b.len data
    b.setlen (addSize b.len data.length)

def RawBuf.addstr (b : RawBuf) (s : Text) : Except Fault RawBuf := b.add (some (cstr s))

/-- The first `size - 1` characters and a NUL are written; the result is the full
    length. -/
def RawBuf.vsnprintf (b : RawBuf) (i size : ℕ) (text : Text) : Except Fault (Int × RawBuf) :=
  match if size = 0 then .ok b else b.store i (text.take (size - 1) ++ [0]) with
  | .error fault => .error fault
  | .ok b => .ok (narrow text.length, b)

/-- `text` is what the format and its arguments print. -/
def RawBuf.addf (b : RawBuf) (text : Text) : Except Fault RawBuf := do
  let b ← (if b.avail = 0 then b.grow 64 else .ok b)
  let (n, b) ← b.vsnprintf b.len (subSize b.alloc b.len) text
  check (0 ≤ n)
  if b.avail < toSize n then
    let b ← b.grow (toSize n)
    let (n, b) ← b.vsnprintf b.len (subSize b.alloc b.len) text
    check (toSize n ≤ b.avail)
    b.setlen (addSize b.len (toSize n))
  else b.setlen (addSize b.len (toSize n))

/-- The loop of `buf_ltrim` from index `i` with `n` bytes before the end. -/
def RawBuf.skipSpaces (b : RawBuf) : ℕ → ℕ → Except Fault ℕ
  | 0, i => .ok i
  | n + 1, i =>
    match b.load i with
    | .error fault => .error fault
    | .ok byte => if isspace (charToInt byte) then b.skipSpaces n (i + 1) else .ok i

def RawBuf.ltrim (b : RawBuf) : Except Fault RawBuf := do
  let i ← b.skipSpaces b.len 0
  let b := { b with pos := if b.pos < i then 0 else b.pos - i }
  let b ← b.move 0 i (b.len - i)
  b.setlen (b.len - i)

def RawBuf.trimEnd (b : RawBuf) : ℕ → Except Fault ℕ
  | 0 => .ok 0
  | len + 1 =>
    match b.load len with
    | .error fault => .error fault
    | .ok byte => if isspace (charToInt byte) then b.trimEnd len else .ok (len + 1)

def RawBuf.rtrim (b : RawBuf) : Except Fault RawBuf := do
  let len ← b.trimEnd b.len
  b.setlen len

/-- `data` may be NULL, with the length 0. The end of the range is computed modulo
    2^64, in the assertion and for the move. -/
def RawBuf.splice (b : RawBuf) (off : Int) (len : ℕ) (data : Option Text) :
    Except Fault RawBuf := do
  let dataLen := (data.getD []).length
  let delta := narrow (subSize dataLen len)
  let off := if off < 0 then narrow (addSize b.len (toSize off)) else off
  check (0 ≤ off ∧ toSize off ≤ b.len)
  check (addSize (toSize off) len ≤ b.len)
  check (dataLen = 0 ∨ data.isSome)
  let off := off.toNat
  let b ← (if 0 < delta then b.grow (toSize delta) else .ok b)
  let b ← (if delta ≠ 0 then
      b.move (off + dataLen) (addSize off len) (subSize (subSize b.len off) len)
    else .ok b)
  let b ← (if dataLen ≠ 0 then b.store off (data.getD []) else .ok b)
  b.setlen (addSize b.len (toSize delta))

def RawBuf.fgetc (b : RawBuf) : Except Fault (Int × RawBuf) :=
  if b.pos < b.len then
    match b.load b.pos with
    | .error fault => .error fault
    | .ok byte => .ok (charToInt byte, { b with pos := b.pos + 1 })
  else .ok (eof, b)

def RawBuf.ungetc (b : RawBuf) (c : Int) : Except Fault (Int × RawBuf) :=
  if 0 < b.pos then
    match { b with pos := b.pos - 1 }.store (b.pos - 1) [intToChar c] with
    | .error fault => .error fault
    | .ok b => .ok (charToInt (intToChar c), b)
  else .ok (eof, b)

def RawBuf.rewind (b : RawBuf) : RawBuf := { b with pos := 0 }

end Pathcomp.RawBuffer
