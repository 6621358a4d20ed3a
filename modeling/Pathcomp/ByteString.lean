import Pathcomp.Capacity

set_option autoImplicit false

/-!
# Runs of the buffer

A sequence of calls that starts with `buf_init` keeps to the byte string with a
cursor, as long as the lengths fit into an `int` and the arguments pass the
assertions. The exception is a splice whose range wraps around the end of
`size_t`: the assertion of `buf_splice` lets it through.
-/
namespace Pathcomp.ByteString
open Bytes Buffer RawBuffer Capacity

/-- The calls; `addf` takes the text that is printed. -/
inductive Call where
  | init (hint : ℕ)
  | release
  | detach
  | grow (extra : ℕ)
  | setlen (len : ℕ)
  | addch (c : Int)
  | add (data : Option Text)
  | addstr (s : Text)
  | addf (text : Text)
  | ltrim
  | rtrim
  | splice (off : Int) (len : ℕ) (data : Option Text)
  | fgetc
  | ungetc (c : Int)
  | rewind
  deriving DecidableEq, Repr

inductive Reply where
  | nothing
  | char (c : Int)
  | block (s : Storage) (len : ℕ)
  deriving DecidableEq, Repr

def Call.exec (b : RawBuf) : Call → Except Fault (Reply × RawBuf)
  | .init hint => (b.init hint).map (.nothing, ·)
  | .release => b.release.map (.nothing, ·)
  | .detach => b.detach.map fun r => (.block r.1 r.2.1, r.2.2)
  | .grow extra => (b.grow extra).map (.nothing, ·)
  | .setlen len => (b.setlen len).map (.nothing, ·)
  | .addch c => (b.addch c).map (.nothing, ·)
  | .add data => (b.add data).map (.nothing, ·)
  | .addstr s => (b.addstr s).map (.nothing, ·)
  | .addf text => (b.addf text).map (.nothing, ·)
  | .ltrim => b.ltrim.map (.nothing, ·)
  | .rtrim => b.rtrim.map (.nothing, ·)
  | .splice off len data => (b.splice off len data).map (.nothing, ·)
  | .fgetc => b.fgetc.map fun r => (.char r.1, r.2)
  | .ungetc c => (b.ungetc c).map fun r => (.char r.1, r.2)
  | .rewind => .ok (.nothing, b.rewind)

def spliceStart (buf : Buf) (off : Int) : Int :=
  if off < 0 then buf.bytes.length + off else off

def Call.effect (buf : Buf) : Call → Buf
  | .init _ => bufInit
  | .release => bufInit
  | .detach => bufInit
  | .grow _ => buf
  | .setlen len => bufSetlen buf len
  | .addch c => bufAddch buf c
  | .add data => bufAddstr buf (data.getD [])
  | .addstr s => bufAddstr buf (cstr s)
  | .addf text => bufAddstr buf text
  | .ltrim => bufLtrim buf
  | .rtrim => bufRtrim buf
  | .splice off len data =>
    let start := (spliceStart buf off).toNat
    bufSplice buf start (start + len) (data.getD [])
  | .fgetc => (bufFgetc buf).2
  | .ungetc c => (bufUngetc buf c).2
  | .rewind => bufRewind buf

/-- What the code does in place of `effect`, with `off + len` a sum of type `size_t`. -/
def Call.outcome (buf : Buf) : Call → Buf
  | .splice off len data =>
    let start := (spliceStart buf off).toNat
    bufSplice buf start (addSize start len) (data.getD [])
  | call => call.effect buf

def Call.Answers (buf : Buf) : Call → Reply → Prop
  | .detach, reply =>
    -- A detached block holds the contents and a NUL.
    ∃ junk, reply = .block (.heap (buf.bytes.map some ++ some 0 :: junk)) buf.bytes.length
  | .fgetc, reply => reply = .char (bufFgetc buf).1
  | .ungetc c, reply => reply = .char (bufUngetc buf c).1
  | _, reply => reply = .nothing

def Call.Allowed (buf : Buf) : Call → Prop
  | .init hint => hint < 2 ^ 31
  | .grow extra => extra < 2 ^ 31
  | .setlen len => len ≤ buf.bytes.length
  | .splice off len _ =>
    0 ≤ spliceStart buf off ∧ spliceStart buf off ≤ buf.bytes.length ∧ len < 2 ^ 64 ∧
      addSize (spliceStart buf off).toNat len ≤ buf.bytes.length
  | _ => True

def Call.InRange (buf : Buf) : Call → Prop
  | .splice off len _ => (spliceStart buf off).toNat + len ≤ buf.bytes.length
  | _ => True

/-- All calls are allowed when their turn comes and all lengths fit into an
    `int`. -/
def Admissible (buf : Buf) : List Call → Prop
  | [] => True
  | call :: calls =>
    call.Allowed buf ∧ (call.outcome buf).bytes.length < 2 ^ 31 ∧
    Admissible (call.outcome buf) calls

def AllInRange (buf : Buf) : List Call → Prop
  | [] => True
  | call :: calls => call.InRange buf ∧ AllInRange (call.effect buf) calls

/-- The buffer is the shared empty string or a block of `alloc` cells whose bytes
    end with a NUL, and it holds the byte string. -/
structure Holds (b : RawBuf) (buf : Buf) : Prop where
  initial : b.initial = 0
  storage :
    (b.alloc = 0 ∧ b.len = 0 ∧ b.pos = 0 ∧ b.buf = .shared ∧ buf.bytes = []) ∨
    ∃ cells, b.buf = .heap cells ∧ cells.length = b.alloc ∧ b.len < b.alloc ∧
      cells[b.len]? = some (some 0) ∧ cells.take b.len = buf.bytes.map some
  len : b.len = buf.bytes.length
  cursor : b.pos = buf.pos
  cursor_le : b.pos ≤ b.len

/-- Each call returns, with the right answer, and leaves a buffer that holds the
    right byte string. -/
def Implements (b : RawBuf) (buf : Buf) : List Call → Prop
  | [] => True
  | call :: calls =>
    ∃ reply b', call.exec b = .ok (reply, b') ∧ call.Answers buf reply ∧
      Holds b' (call.effect buf) ∧ Implements b' (call.effect buf) calls

theorem holds_empty : Holds emptyForm bufInit :=
  ⟨rfl, .inl ⟨rfl, rfl, rfl, rfl, rfl⟩, rfl, rfl, le_rfl⟩

theorem holds_open {bytes : Text} {pos : ℕ} (hpos : pos ≤ bytes.length)
    (junk : List (Option UInt8)) :
    Holds (openForm bytes (some 0 :: junk) pos) ⟨bytes, pos⟩ := by
  refine ⟨rfl, .inr ⟨_, rfl, ?_, ?_, ?_, ?_⟩, rfl, rfl, hpos⟩
  · simp [openForm]
  · simp [openForm]
  · simp [openForm]
  · simp [openForm, List.take_left']

theorem holds_of_represents {b : RawBuf} {buf : Buf} (h : Represents b buf) : Holds b buf := by
  cases h with
  | empty => exact holds_empty
  | @heap bytes junk pos hpos hcap => exact holds_open hpos junk

theorem silent_represents {r : Except Fault RawBuf} {buf : Buf}
    (h : ∃ b, r = .ok b ∧ Represents b buf) :
    ∃ reply b, r.map (Reply.nothing, ·) = .ok (reply, b) ∧ reply = .nothing ∧
      Represents b buf := by
  obtain ⟨b, rfl, hb⟩ := h
  exact ⟨.nothing, b, rfl, rfl, hb⟩

theorem char_represents {r : Except Fault (Int × RawBuf)} {c : Int} {buf : Buf}
    (h : ∃ b, r = .ok (c, b) ∧ Represents b buf) :
    ∃ reply b, (r.map fun r => (Reply.char r.1, r.2)) = .ok (reply, b) ∧ reply = .char c ∧
      Represents b buf := by
  obtain ⟨b, rfl, hb⟩ := h
  exact ⟨.char c, b, rfl, rfl, hb⟩

theorem Holds.unique {b : RawBuf} {buf buf' : Buf} (h : Holds b buf) (h' : Holds b buf') :
    buf.bytes = buf'.bytes := by
  rcases h.storage with ⟨halloc, _, _, _, hnil⟩ | ⟨cells, hbuf, _, hlt, _, hbytes⟩
  · rcases h'.storage with ⟨_, _, _, _, hnil'⟩ | ⟨_, _, _, hlt', _, _⟩
    · rw [hnil, hnil']
    · omega
  · rcases h'.storage with ⟨halloc, _⟩ | ⟨cells', hbuf', _, _, _, hbytes'⟩
    · omega
    · rw [hbuf, Storage.heap.injEq] at hbuf'
      subst hbuf'
      exact (List.map_inj_right fun _ _ => Option.some.inj).mp (hbytes.symm.trans hbytes')

theorem exec_outcome {b : RawBuf} {buf : Buf} (h : Represents b buf)
    (hlen : buf.bytes.length < 2 ^ 31) {call : Call} (hallowed : call.Allowed buf)
    (hresult : (call.outcome buf).bytes.length < 2 ^ 31) :
    ∃ reply b', call.exec b = .ok (reply, b') ∧ call.Answers buf reply ∧
      Represents b' (call.outcome buf) := by
  cases call with
  | init hint => exact silent_represents (Represents.init h.initial hallowed)
  | release => exact silent_represents h.release
  | detach =>
    obtain ⟨junk, b', hdetach, hb'⟩ := h.detach hlen
    exact ⟨_, b', by simp only [Call.exec, hdetach, Except.map], ⟨junk, rfl⟩, hb'⟩
  | grow extra =>
    obtain ⟨junk, hgrow, _, hpos, hcap⟩ := h.grow hlen hallowed
    exact silent_represents ⟨_, hgrow, .heap hpos hcap⟩
  | setlen len => exact silent_represents (h.setlen hallowed)
  | addch c =>
    refine silent_represents (h.addch ?_ c)
    simpa [Call.outcome, Call.effect, bufAddch] using hresult
  | add data =>
    simp only [Call.outcome, Call.effect, bufAddstr, List.length_append] at hresult
    cases data with
    | none =>
      exact silent_represents ⟨b, rfl, by simpa [Call.outcome, Call.effect, bufAddstr] using h⟩
    | some data => exact silent_represents (h.add hresult)
  | addstr s =>
    simp only [Call.outcome, Call.effect, bufAddstr, List.length_append] at hresult
    exact silent_represents (h.add hresult)
  | addf text =>
    simp only [Call.outcome, Call.effect, bufAddstr, List.length_append] at hresult
    exact silent_represents (h.addf hresult)
  | ltrim => exact silent_represents h.ltrim
  | rtrim => exact silent_represents h.rtrim
  | splice off len data =>
    obtain ⟨hlo, hhi, _, hstop⟩ := hallowed
    have hstart : spliceStart buf off = (spliceStart buf off).toNat := by omega
    exact silent_represents (h.splice hstart (by omega) rfl hstop hlen hresult)
  | fgetc => exact char_represents h.fgetc
  | ungetc c => exact char_represents (h.ungetc c)
  | rewind => exact ⟨.nothing, _, rfl, rfl, h.rewind⟩

theorem outcome_eq_effect {buf : Buf} (hlen : buf.bytes.length < 2 ^ 31) {call : Call}
    (hrange : call.InRange buf) : call.outcome buf = call.effect buf := by
  cases call with
  | splice off len data =>
    have hrange : (spliceStart buf off).toNat + len ≤ buf.bytes.length := hrange
    simp only [Call.outcome, Call.effect, addSize_eq (show
      (spliceStart buf off).toNat + len < 2 ^ 64 by omega)]
  | _ => rfl

/-- A range that wraps around ends before its start: bytes are kept that should
    have been replaced. -/
theorem outcome_ne_effect {buf : Buf} {call : Call} (hallowed : call.Allowed buf)
    (hrange : ¬ call.InRange buf) : (call.outcome buf).bytes ≠ (call.effect buf).bytes := by
  cases call with
  | splice off len data =>
    obtain ⟨hlo, hhi, hsize, hstop⟩ := hallowed
    have hrange : ¬ (spliceStart buf off).toNat + len ≤ buf.bytes.length := hrange
    intro heq
    have hlength := congrArg List.length heq
    simp only [Call.outcome, Call.effect, bufSplice, List.length_append, List.length_drop]
      at hlength
    unfold addSize sizeMax at hstop hlength
    omega
  | _ => exact absurd trivial hrange

theorem exec_represents {b : RawBuf} {buf : Buf} (h : Represents b buf)
    (hlen : buf.bytes.length < 2 ^ 31) {call : Call} (hallowed : call.Allowed buf)
    (hrange : call.InRange buf) (hresult : (call.effect buf).bytes.length < 2 ^ 31) :
    ∃ reply b', call.exec b = .ok (reply, b') ∧ call.Answers buf reply ∧
      Represents b' (call.effect buf) := by
  rw [← outcome_eq_effect hlen hrange] at hresult ⊢
  exact exec_outcome h hlen hallowed hresult

theorem implements_of_represents {b : RawBuf} {buf : Buf} (h : Represents b buf)
    (hlen : buf.bytes.length < 2 ^ 31) {calls : List Call} (hcalls : Admissible buf calls) :
    Implements b buf calls ↔ AllInRange buf calls := by
  induction calls generalizing b buf with
  | nil => exact Iff.rfl
  | cons call calls ih =>
    obtain ⟨hallowed, hresult, hrest⟩ := hcalls
    obtain ⟨reply, b', hexec, hreply, hb'⟩ := exec_outcome h hlen hallowed hresult
    by_cases hrange : call.InRange buf
    · rw [outcome_eq_effect hlen hrange] at hresult hb' hrest
      constructor
      · rintro ⟨reply', c, hexec', -, -, hrun⟩
        rw [hexec] at hexec'
        cases hexec'
        exact ⟨hrange, (ih hb' hresult hrest).mp hrun⟩
      · rintro ⟨-, hrun⟩
        exact ⟨reply, b', hexec, hreply, holds_of_represents hb',
          (ih hb' hresult hrest).mpr hrun⟩
    · constructor
      · rintro ⟨reply', c, hexec', -, hholds, -⟩
        rw [hexec] at hexec'
        cases hexec'
        exact absurd ((holds_of_represents hb').unique hholds) (outcome_ne_effect hallowed hrange)
      · exact fun hrun => absurd hrun.1 hrange

/-- A run that starts with `buf_init`, whatever the struct held before, implements the
    byte string exactly when the ranges of all its splices lie inside the buffer. -/
theorem buffer_implements_byte_string_iff (b : RawBuf) (buf : Buf) (hint : ℕ) (calls : List Call)
    (hinitial : b.initial = 0) (hcalls : Admissible buf (.init hint :: calls)) :
    Implements b buf (.init hint :: calls) ↔ AllInRange buf (.init hint :: calls) := by
  obtain ⟨hhint, hresult, hrest⟩ := hcalls
  obtain ⟨b', hinit, hb'⟩ := Represents.init hinitial hhint
  have hrun := implements_of_represents hb' hresult hrest
  have hexec : Call.exec b (.init hint) = .ok (.nothing, b') := by
    simp only [Call.exec, hinit, Except.map]
  constructor
  · rintro ⟨reply, c, hexec', -, -, himpl⟩
    rw [hexec] at hexec'
    cases hexec'
    exact ⟨trivial, hrun.mp himpl⟩
  · rintro ⟨-, hrange⟩
    exact ⟨.nothing, b', hexec, rfl, holds_of_represents hb', hrun.mpr hrange⟩

theorem buffer_implements_byte_string_trimmed :
    Implements ⟨.null, 7, 3, 5, 0⟩ bufInit
      [.init 0, .addstr [32, 97, 98], .ltrim, .splice (-1) 1 (some [99, 100]), .fgetc,
        .ungetc 122, .detach] := by
  refine (buffer_implements_byte_string_iff _ _ 0 _ rfl ?_).mpr ?_
  · simp only [Admissible, Call.Allowed, Call.outcome, Call.effect]
    decide
  · simp only [AllInRange, Call.InRange, Call.effect]
    decide

/-- On `hJllo `, with the offset 4 and the length 2^64 - 2, the range ends at 2:
    nothing is removed, and `ll` is there twice. -/
theorem splice_wraps_around :
    Admissible bufInit
        [.init 0, .addstr [104, 74, 108, 108, 111, 32], .splice 4 (2 ^ 64 - 2) none] ∧
      (∃ b b', Call.exec emptyForm (.addstr [104, 74, 108, 108, 111, 32]) = .ok (.nothing, b) ∧
        Call.exec b (.splice 4 (2 ^ 64 - 2) none) = .ok (.nothing, b') ∧
        Holds b' ⟨[104, 74, 108, 108, 108, 108, 111, 32], 0⟩) ∧
      ¬ Implements emptyForm bufInit
        [.init 0, .addstr [104, 74, 108, 108, 111, 32], .splice 4 (2 ^ 64 - 2) none] := by
  have hcalls : Admissible bufInit
      [.init 0, .addstr [104, 74, 108, 108, 111, 32], .splice 4 (2 ^ 64 - 2) none] := by
    simp only [Admissible, Call.Allowed, Call.outcome, Call.effect]
    decide
  refine ⟨hcalls, ?_, fun himpl => ?_⟩
  · obtain ⟨-, -, hadd, haddlen, hsplice, hsplicelen, -⟩ := hcalls
    obtain ⟨_, b, hb, rfl, hrep⟩ := exec_outcome .empty (by decide) hadd haddlen
    obtain ⟨_, b', hb', rfl, hrep'⟩ := exec_outcome hrep haddlen hsplice hsplicelen
    exact ⟨b, b', hb, hb', holds_of_represents hrep'⟩
  · have hrange := (implements_of_represents .empty (by decide) hcalls).mp himpl
    simp only [AllInRange, Call.InRange, Call.effect] at hrange
    revert hrange
    decide

end Pathcomp.ByteString
