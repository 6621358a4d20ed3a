import Pathcomp.Reading

set_option autoImplicit false

/-!
# Runs of the buffer with input

All functions of `buf.c` in any order, those that read descriptors, files and
streams included. The buffer in memory keeps to the byte string with a cursor.
-/
namespace Pathcomp.Streams
open Bytes Buffer RawBuffer Capacity ByteString Files
open Reading (Stop guarded guarded_bind)

/-- `fread` stores the next bytes of the stream, as many as it is asked for or as there
    are. -/
def bufFread (b : RawBuf) (size : ℕ) (stream : Text) : Except Fault (ℕ × RawBuf) := do
  let oldalloc := b.alloc
  let b ← b.grow size
  let data := stream.take size
  let b ← b.store b.len data
  if 0 < data.length then
    let b ← b.setlen (addSize b.len data.length)
    .ok (data.length, b)
  else if oldalloc = 0 then
    let b ← b.release
    .ok (data.length, b)
  else .ok (data.length, b)

/-- What was read stays in the buffer when the file cannot be closed. -/
def bufReadFile (fuel : ℕ) (b : RawBuf) (file : File) (hint : ℕ) :
    Except Stop (Int × RawBuf) :=
  if !file.opens then .ok (-1, b)
  else do
    let (_, len, b) ← Reading.bufRead fuel b file.reads hint
    if !file.closes then .ok (-1, b) else .ok (len, b)

def bufSplicestr (b : RawBuf) (off : Int) (len : ℕ) (s : Option Text) : Except Fault RawBuf :=
  b.splice off len (s.map cstr)

def bufFtell (b : RawBuf) : ℕ := b.pos

/-- A read comes with what the file or the stream gives at that moment. -/
inductive StreamCall where
  | plain (call : Call)
  | splicestr (off : Int) (len : ℕ) (s : Option Text)
  | ftell
  | read (reads : List Event) (hint : ℕ)
  | readFile (file : File) (hint : ℕ)
  | fread (size : ℕ) (stream : Text)
  deriving DecidableEq, Repr

inductive Answer where
  | reply (reply : Reply)
  | int (n : Int)
  | size (n : ℕ)
  deriving DecidableEq, Repr

def StreamCall.exec (b : RawBuf) : StreamCall → Except Stop (Answer × RawBuf)
  | .plain call => (guarded (call.exec b)).map fun r => (.reply r.1, r.2)
  | .splicestr off len s => (guarded (bufSplicestr b off len s)).map fun b => (.reply .nothing, b)
  | .ftell => .ok (.size (bufFtell b), b)
  | .read reads hint =>
    (Reading.bufRead (size reads + 1) b reads hint).map fun r => (.int r.2.1, r.2.2)
  | .readFile file hint =>
    (bufReadFile (size file.reads + 1) b file hint).map fun r => (.int r.1, r.2)
  | .fread size stream => (guarded (bufFread b size stream)).map fun r => (.size r.1, r.2)

/-- Everything is appended, or nothing after an error. -/
def appended (buf : Buf) (reads : List Event) : Buf :=
  if Event.error ∈ reads then buf else bufAddstr buf (contents reads)

def StreamCall.effect (buf : Buf) : StreamCall → Buf
  | .plain call => call.effect buf
  | .splicestr off len s => Call.effect buf (.splice off len (s.map cstr))
  | .ftell => buf
  | .read reads _ => appended buf reads
  | .readFile file _ => if file.opens then appended buf file.reads else buf
  | .fread size stream => bufAddstr buf (stream.take size)

def StreamCall.Answers (buf : Buf) : StreamCall → Answer → Prop
  | .plain call, answer => ∃ reply, answer = .reply reply ∧ call.Answers buf reply
  | .splicestr _ _ _, answer => answer = .reply .nothing
  | .ftell, answer => answer = .size buf.pos
  | .read reads _, answer =>
    answer = .int (if Event.error ∈ reads then -1 else (contents reads).length)
  | .readFile file _, answer =>
    answer = .int (if file.opens ∧ Event.error ∉ file.reads ∧ file.closes then
      (contents file.reads).length else -1)
  | .fread size stream, answer => answer = .size (min size stream.length)

/-- Lengths and hints fit into an `int`, the arguments pass the assertions, and the
    range of a splice does not wrap around. -/
def StreamCall.Allowed (buf : Buf) : StreamCall → Prop
  | .plain call => call.Allowed buf ∧ call.InRange buf
  | .splicestr off len s =>
    Call.Allowed buf (.splice off len (s.map cstr)) ∧
    Call.InRange buf (.splice off len (s.map cstr))
  | .ftell => True
  | .read reads hint => hint < 2 ^ 31 ∧ buf.bytes.length + (contents reads).length < 2 ^ 31
  | .readFile file hint =>
    hint < 2 ^ 31 ∧ buf.bytes.length + (contents file.reads).length < 2 ^ 31
  | .fread size _ => size < 2 ^ 31

def StreamCall.Fruitless : StreamCall → Prop
  | .read reads _ => Event.error ∈ reads
  | .readFile file _ => file.opens = false ∨ Event.error ∈ file.reads
  | .fread size stream => stream.take size = []
  | _ => False

def Admissible (buf : Buf) : List StreamCall → Prop
  | [] => True
  | call :: calls =>
    call.Allowed buf ∧ (call.effect buf).bytes.length < 2 ^ 31 ∧
    Admissible (call.effect buf) calls

/-- Each call returns, with the right answer, and leaves a buffer that holds the right
    byte string; one that reads nothing into a buffer without memory leaves it as it
    was. -/
def Implements (b : RawBuf) (buf : Buf) : List StreamCall → Prop
  | [] => True
  | call :: calls =>
    ∃ answer b', call.exec b = .ok (answer, b') ∧ call.Answers buf answer ∧
      Holds b' (call.effect buf) ∧ (call.Fruitless → b.alloc = 0 → b' = b) ∧
      Implements b' (call.effect buf) calls

theorem nextAlloc_small {cur want : ℕ} (hcur : cur < 2 ^ 33) (hwant : want ≤ 2 ^ 32) :
    nextAlloc cur want < 2 ^ 33 := by
  unfold nextAlloc
  by_cases hlt : cur < want
  · rw [if_pos hlt, growN_eq (by omega)]
    split <;> omega
  · rw [if_neg hlt]
    exact hcur

theorem ok_of_bind {ε α β : Type} {x : Except ε α} {f : α → Except ε β} {r : β}
    (h : (x >>= f) = .ok r) : ∃ a, x = .ok a ∧ f a = .ok r := by
  cases x with
  | error e => cases h
  | ok a => exact ⟨a, rfl, h⟩

theorem ok_of_guarded {α : Type} {x : Except Fault α} {a : α} (h : guarded x = .ok a) :
    x = .ok a := by
  cases x with
  | error e => cases h
  | ok b =>
    cases h
    rfl

theorem store_alloc {b b' : RawBuf} {i : ℕ} {data : Text} (h : b.store i data = .ok b') :
    b'.alloc = b.alloc ∧ b'.len = b.len := by
  unfold RawBuf.store at h
  cases hbuf : b.buf with
  | heap cells =>
    simp only [hbuf] at h
    split at h
    · cases h
      exact ⟨rfl, rfl⟩
    · cases h
  | shared =>
    simp only [hbuf] at h
    split at h
    · cases h
      exact ⟨rfl, rfl⟩
    · split at h
      · cases h
        exact ⟨rfl, rfl⟩
      · cases h
  | null =>
    simp only [hbuf] at h
    split at h
    · cases h
      exact ⟨rfl, rfl⟩
    · cases h

theorem growTo_alloc {p q : Storage} {want cur alloc : ℕ}
    (h : growTo p want cur = .ok (q, alloc)) :
    alloc = nextAlloc cur want := by
  unfold growTo at h
  unfold nextAlloc
  by_cases hlt : cur < want
  · rw [if_pos hlt] at h ⊢
    simp only at h
    split at h
    · cases h
    · cases h
      rfl
  · rw [if_neg hlt] at h ⊢
    cases h
    rfl

theorem grow_alloc {b b' : RawBuf} {extra : ℕ} (h : b.grow extra = .ok b') :
    b'.alloc = nextAlloc b.alloc (addSize (addSize b.len extra) 1) ∧ b'.len = b.len := by
  unfold RawBuf.grow at h
  simp only at h
  split at h
  · cases h
  · rename_i p alloc hgrow
    rw [← growTo_alloc hgrow]
    split at h
    · exact store_alloc h
    · cases h
      exact ⟨rfl, rfl⟩

theorem setlen_alloc {b b' : RawBuf} {len : ℕ} (h : b.setlen len = .ok b') :
    b'.alloc = b.alloc := by
  obtain ⟨_, _, h⟩ := ok_of_bind h
  obtain ⟨c, hstore, h⟩ := ok_of_bind h
  cases h
  have halloc := (store_alloc hstore).1
  split <;> exact halloc

theorem release_alloc {b b' : RawBuf} (h : b.release = .ok b') : b'.alloc ≤ b.alloc := by
  unfold RawBuf.release at h
  split at h
  · split at h
    · cases h
      exact Nat.zero_le _
    · cases h
  · cases h
    exact le_rfl

theorem tryRead_contents {count : ℕ} {reads left : List Event} {chunk : Text}
    (h : Files.tryRead count reads = (some chunk, left)) :
    contents reads = chunk ++ contents left := by
  induction reads with
  | nil =>
    cases h
    rfl
  | cons event reads ih =>
    cases event with
    | again => exact ih h
    | data first more =>
      cases h
      rw [leftOver_contents, ← List.append_assoc, List.take_append_drop]
      rfl
    | error => cases h

theorem readLoop_alloc {oldalloc oldlen fuel : ℕ} {b b' : RawBuf} {reads : List Event}
    {counts : List ℕ} {rc : Int}
    (h : Reading.readLoop oldalloc oldlen fuel b reads = .ok (counts, rc, b'))
    (halloc : b.alloc < 2 ^ 33) (hlen : b.len + (contents reads).length < 2 ^ 31) :
    b'.alloc < 2 ^ 33 := by
  induction fuel generalizing b b' reads counts rc with
  | zero => cases h
  | succ fuel ih =>
    have hread := Reading.tryRead_eq b.avail reads
    rw [Reading.readLoop] at h
    rcases hcall : Reading.tryRead b.avail reads with ⟨asked, result, left⟩
    rw [hcall] at h hread
    cases result with
    | none =>
      obtain ⟨c, hrestore, h⟩ := ok_of_bind h
      cases h
      have hrestore := ok_of_guarded hrestore
      split at hrestore
      · rw [setlen_alloc hrestore]
        exact halloc
      · exact Nat.lt_of_le_of_lt (release_alloc hrestore) halloc
    | some chunk =>
      cases chunk with
      | nil =>
        obtain ⟨c, hstore, h⟩ := ok_of_bind h
        simp only [Except.ok.injEq, Prod.mk.injEq] at h
        rw [← h.2.2, (store_alloc (ok_of_guarded hstore)).1]
        exact halloc
      | cons first more =>
        obtain ⟨c, hstore, h⟩ := ok_of_bind h
        obtain ⟨d, hgrow, h⟩ := ok_of_bind h
        obtain ⟨⟨later, rc', e⟩, hrest, h⟩ := ok_of_bind h
        simp only [Except.ok.injEq, Prod.mk.injEq] at h
        rw [← h.2.2]
        obtain ⟨hsame, hsamelen⟩ := store_alloc (ok_of_guarded hstore)
        obtain ⟨hgrown, hgrownlen⟩ := grow_alloc (ok_of_guarded hgrow)
        have hcount := congrArg List.length (tryRead_contents hread.symm)
        rw [List.length_append] at hcount
        have hraised : addSize c.len (first :: more).length = b.len + (first :: more).length := by
          rw [hsamelen, addSize_eq (by omega)]
        simp only [hsame, hraised] at hgrown hgrownlen
        rw [@addSize_eq _ 8192 (by omega), addSize_eq (by omega)] at hgrown
        refine ih hrest ?_ ?_
        · rw [hgrown]
          exact nextAlloc_small halloc (by omega)
        · omega

section Operations
variable {b : RawBuf} {buf : Buf} (h : Represents b buf)
include h

theorem alloc_lt : b.alloc < 2 ^ 33 := by
  cases h with
  | empty => exact Nat.two_pow_pos 33
  | heap hpos hcap =>
    simp only [openForm, List.length_cons]
    omega

theorem pos_le : buf.pos ≤ buf.bytes.length := by
  cases h with
  | empty => exact le_rfl
  | heap hpos hcap => exact hpos

theorem empty_of_alloc (halloc : b.alloc = 0) : b = emptyForm ∧ buf = bufInit := by
  cases h with
  | empty => exact ⟨rfl, rfl⟩
  | heap hpos hcap =>
    simp only [openForm, List.length_cons] at halloc
    omega

theorem bufRead_alloc {fuel hint : ℕ} {reads : List Event} {counts : List ℕ} {rc : Int}
    {b' : RawBuf} (hhint : hint < 2 ^ 31)
    (htotal : buf.bytes.length + (contents reads).length < 2 ^ 31)
    (hrun : Reading.bufRead fuel b reads hint = .ok (counts, rc, b')) : b'.alloc < 2 ^ 33 := by
  have halloc := alloc_lt h
  have hlen := h.len
  obtain ⟨grown, hgrow, hloop⟩ := ok_of_bind hrun
  obtain ⟨hgrown, hgrownlen⟩ := grow_alloc (ok_of_guarded hgrow)
  have hextra : (if hint ≠ 0 then hint else 8192) < 2 ^ 31 := by
    split
    · exact hhint
    · omega
  rw [@addSize_eq b.len _ (by omega), addSize_eq (by omega)] at hgrown
  refine readLoop_alloc hloop ?_ (by omega)
  rw [hgrown]
  exact nextAlloc_small halloc (by omega)

theorem read_represents {hint : ℕ} {reads : List Event} (hhint : hint < 2 ^ 31)
    (htotal : buf.bytes.length + (contents reads).length < 2 ^ 31) :
    ∃ counts b', Reading.bufRead (size reads + 1) b reads hint =
        .ok (counts, if Event.error ∈ reads then -1 else ((contents reads).length : Int), b') ∧
      Represents b' (appended buf reads) ∧
      (Event.error ∈ reads → b.alloc = 0 → b' = b) := by
  have halloc := alloc_lt h
  have hpos := pos_le h
  obtain ⟨counts, rc, b', hrun, _, happended, hrestored⟩ := Reading.bufRead_spec
    (holds_of_represents h) (by omega) (show buf.bytes.length + hint + 1 < 2 ^ 64 by omega)
    (by omega) (Nat.lt_succ_self (size reads))
  have hcap := bufRead_alloc h hhint htotal hrun
  by_cases herror : Event.error ∈ reads
  · obtain ⟨rfl, hempty, hheap⟩ := hrestored herror
    rw [if_pos herror, appended, if_pos herror]
    cases h with
    | empty =>
      obtain rfl := hempty rfl
      exact ⟨counts, _, hrun, .empty, fun _ _ => rfl⟩
    | @heap bytes junk pos hpos hcap' =>
      have hne : (openForm bytes (some 0 :: junk) pos).alloc ≠ 0 := by
        simp only [openForm, List.length_cons]
        omega
      obtain ⟨junk', rfl⟩ := hheap hne
      refine ⟨counts, _, hrun, .heap hpos ?_, fun _ h0 => absurd h0 hne⟩
      simp only [openForm, List.length_cons] at hcap ⊢
      omega
  · obtain ⟨hrc, junk, rfl⟩ := happended herror
    rw [narrow_eq (by omega)] at hrc
    rw [if_neg herror, appended, if_neg herror]
    rw [hrc] at hrun
    refine ⟨counts, _, hrun, .heap ?_ ?_, fun he => absurd he herror⟩
    · rw [List.length_append]
      omega
    · simp only [openForm, List.length_cons] at hcap
      omega

theorem fread_represents {size : ℕ} {stream : Text} (hsize : size < 2 ^ 31)
    (htotal : buf.bytes.length + (stream.take size).length < 2 ^ 31) :
    ∃ b', bufFread b size stream = .ok (min size stream.length, b') ∧
      Represents b' (bufAddstr buf (stream.take size)) ∧
      (stream.take size = [] → b.alloc = 0 → b' = b) := by
  obtain ⟨junk, hg, hroom, hpos, hcap⟩ := h.grow (by omega) hsize
  have hlen : (stream.take size).length = min size stream.length := List.length_take
  have hstore := @store_open buf.bytes (some 0 :: junk) buf.pos (stream.take size)
    (by simp only [List.length_cons]; omega)
  rw [bufFread, ← hlen]
  simp only
  rw [hg, bind_ok,
    show (openForm buf.bytes (some 0 :: junk) buf.pos).len = buf.bytes.length from rfl,
    hstore, bind_ok]
  by_cases hnil : stream.take size = []
  · have hempty : Represents (openForm buf.bytes (some 0 :: junk) buf.pos) buf := .heap hpos hcap
    rw [hnil, List.length_nil, if_neg (Nat.lt_irrefl 0), List.map_nil, List.nil_append,
      List.drop_zero]
    have hsame : bufAddstr buf [] = buf := by simp [bufAddstr]
    rw [hsame]
    by_cases hold : b.alloc = 0
    · rw [if_pos hold]
      obtain ⟨rfl, rfl⟩ := empty_of_alloc h hold
      have halloc : ([] : Text).length + (some 0 :: junk).length ≠ 0 := by simp
      refine ⟨emptyForm, ?_, .empty, fun _ _ => rfl⟩
      simp only [RawBuf.release, openForm, ne_eq, halloc, not_false_eq_true, ↓reduceIte, bufInit]
      rfl
    · rw [if_neg hold]
      exact ⟨_, rfl, hempty, fun _ h0 => absurd h0 hold⟩
  · have hdata : 0 < (stream.take size).length := List.length_pos_iff.mpr hnil
    have hrest : ((some 0 :: junk).drop (stream.take size).length).length =
        junk.length + 1 - (stream.take size).length := by
      rw [List.length_drop, List.length_cons]
    rw [if_pos hdata]
    obtain ⟨b', hset, hb'⟩ := @setlen_open buf.bytes
      ((some 0 :: junk).drop (stream.take size).length)
      buf.pos (stream.take size) (List.ne_nil_of_length_pos (by omega)) hpos htotal
      (by rw [List.length_append, List.length_map, hrest]; omega)
    refine ⟨b', ?_, hb', fun h0 => absurd h0 hnil⟩
    exact congrArg (· >>= fun c => Except.ok ((stream.take size).length, c)) hset

theorem readFile_represents {hint : ℕ} {file : File} (hhint : hint < 2 ^ 31)
    (htotal : buf.bytes.length + (contents file.reads).length < 2 ^ 31) :
    ∃ b', bufReadFile (size file.reads + 1) b file hint =
        .ok (if file.opens ∧ Event.error ∉ file.reads ∧ file.closes then
          ((contents file.reads).length : Int) else -1, b') ∧
      Represents b' (if file.opens then appended buf file.reads else buf) ∧
      (file.opens = false ∨ Event.error ∈ file.reads → b.alloc = 0 → b' = b) := by
  rw [bufReadFile]
  cases hopens : file.opens with
  | false => exact ⟨b, by simp, h, fun _ _ => rfl⟩
  | true =>
    obtain ⟨counts, b', hrun, hb', hrestored⟩ := read_represents h hhint htotal
    refine ⟨b', ?_, hb', fun hfruitless => hrestored (by simpa using hfruitless)⟩
    rw [hrun]
    cases hcloses : file.closes with
    | false => simp [bind_ok]
    | true => by_cases herror : Event.error ∈ file.reads <;> simp [bind_ok, herror]

theorem exec_represents (hlen : buf.bytes.length < 2 ^ 31) {call : StreamCall}
    (hallowed : call.Allowed buf) (hresult : (call.effect buf).bytes.length < 2 ^ 31) :
    ∃ answer b', call.exec b = .ok (answer, b') ∧ call.Answers buf answer ∧
      Represents b' (call.effect buf) ∧ (call.Fruitless → b.alloc = 0 → b' = b) := by
  cases call with
  | plain call =>
    obtain ⟨reply, b', hexec, hreply, hb'⟩ :=
      ByteString.exec_represents h hlen hallowed.1 hallowed.2 hresult
    refine ⟨.reply reply, b', ?_, ⟨reply, rfl, hreply⟩, hb', False.elim⟩
    rw [StreamCall.exec, hexec]
    rfl
  | splicestr off len s =>
    obtain ⟨reply, b', hexec, hreply, hb'⟩ :=
      ByteString.exec_represents h hlen hallowed.1 hallowed.2 hresult
    refine ⟨_, b', ?_, rfl, hb', False.elim⟩
    rw [Call.exec] at hexec
    cases hsplice : b.splice off len (s.map cstr) with
    | error fault =>
      rw [hsplice] at hexec
      cases hexec
    | ok c =>
      rw [hsplice] at hexec
      cases hexec
      rw [StreamCall.exec, bufSplicestr, hsplice]
      rfl
  | ftell =>
    exact ⟨_, b, rfl, congrArg Answer.size (holds_of_represents h).cursor, h, False.elim⟩
  | read reads hint =>
    obtain ⟨counts, b', hrun, hb', hrestored⟩ := read_represents h hallowed.1 hallowed.2
    refine ⟨_, b', ?_, rfl, hb', hrestored⟩
    rw [StreamCall.exec, hrun]
    rfl
  | readFile file hint =>
    obtain ⟨b', hrun, hb', hrestored⟩ := readFile_represents h hallowed.1 hallowed.2
    refine ⟨_, b', ?_, rfl, hb', hrestored⟩
    rw [StreamCall.exec, hrun]
    rfl
  | fread size stream =>
    have htotal : buf.bytes.length + (stream.take size).length < 2 ^ 31 := by
      simpa [StreamCall.effect, bufAddstr] using hresult
    obtain ⟨b', hrun, hb', hrestored⟩ := fread_represents h hallowed htotal
    refine ⟨_, b', ?_, rfl, hb', hrestored⟩
    rw [StreamCall.exec, hrun]
    rfl

end Operations

theorem implements_of_represents {b : RawBuf} {buf : Buf} (h : Represents b buf)
    (hlen : buf.bytes.length < 2 ^ 31) {calls : List StreamCall} (hcalls : Admissible buf calls) :
    Implements b buf calls := by
  induction calls generalizing b buf with
  | nil => trivial
  | cons call calls ih =>
    obtain ⟨hallowed, hresult, hrest⟩ := hcalls
    obtain ⟨answer, b', hexec, hanswer, hb', hfruitless⟩ :=
      exec_represents h hlen hallowed hresult
    exact ⟨answer, b', hexec, hanswer, holds_of_represents hb', hfruitless,
      ih hb' hresult hrest⟩

/-- Whatever files and streams give. -/
theorem streams_implement_byte_string (b : RawBuf) (buf : Buf) (hint : ℕ)
    (calls : List StreamCall) (hinitial : b.initial = 0) (hhint : hint < 2 ^ 31)
    (hcalls : Admissible bufInit calls) :
    Implements b buf (.plain (.init hint) :: calls) := by
  obtain ⟨b', hinit, hb'⟩ := Represents.init hinitial hhint
  refine ⟨.reply .nothing, b', ?_, ⟨.nothing, rfl, rfl⟩, holds_of_represents hb',
    False.elim, ?_⟩
  · rw [StreamCall.exec, Call.exec, hinit]
    rfl
  · exact implements_of_represents hb' (Nat.two_pow_pos 31) hcalls

/-- A stream at its end, a file that breaks off, one that cannot be closed, and an
    insertion between what was read. -/
theorem streams_implement_byte_string_files :
    Implements ⟨.null, 7, 3, 5, 0⟩ bufInit
      [.plain (.init 0), .fread 8192 [], .read [.data 97 [98], .error] 0,
        .readFile ⟨true, [.data 97 [98], .again, .data 99 []], false⟩ 1,
        .splicestr (-1) 0 (some [120, 0, 121]), .plain .fgetc, .ftell,
        .fread 2 [100, 101, 102]] := by
  refine streams_implement_byte_string _ _ 0 _ rfl (by decide) ?_
  simp only [Admissible, StreamCall.Allowed, StreamCall.effect, Call.Allowed, Call.InRange,
    Call.effect]
  decide

end Pathcomp.Streams
