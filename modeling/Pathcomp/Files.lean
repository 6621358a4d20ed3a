import Pathcomp.RawBuffer
import Pathcomp.Truncation

set_option autoImplicit false

/-!
# Configuration files

A file is read in chunks into a growing buffer and then parsed like a string. The
number of bytes that were read passes through an `int`, where `-1` stands for an
error.
-/
namespace Pathcomp.Files
open Bytes Buffer Config RawBuffer Scanner HighBytes Additions Truncation

/-- What the calls of `read` on a file give one after the other: a failure with
    `EINTR` or `EAGAIN`, some bytes, or a failure for another reason. At the end
    of the list it is 0. -/
inductive Event where
  | again
  | data (first : UInt8) (more : Text)
  | error
  deriving DecidableEq, Repr

structure File where
  opens : Bool
  reads : List Event
  closes : Bool
  deriving DecidableEq, Repr

/-- Bytes that are left over when fewer are asked for. -/
def leftOver (chunk : Text) (reads : List Event) : List Event :=
  match chunk with
  | [] => reads
  | first :: more => .data first more :: reads

/-- The bytes that were read, none at the end of the file, or an error. -/
def tryRead (count : ℕ) : List Event → Option Text × List Event
  | [] => (some [], [])
  | .again :: reads => tryRead count reads
  | .data first more :: reads =>
    (some ((first :: more).take count), leftOver ((first :: more).drop count) reads)
  | .error :: reads => (none, reads)

/-- A buffer with its capacity. No block comes near 2^64 bytes, so that sizes are
    not narrowed here. -/
structure SizedBuf where
  buf : Buf
  alloc : ℕ
  deriving DecidableEq, Repr

def SizedBuf.len (b : SizedBuf) : ℕ := b.buf.bytes.length

def SizedBuf.avail (b : SizedBuf) : ℕ := if b.alloc ≠ 0 then b.alloc - b.len - 1 else 0

def SizedBuf.grow (b : SizedBuf) (extra : ℕ) : SizedBuf :=
  let want := b.len + extra + 1
  let grown := (b.alloc + 16) * 3 / 2
  if b.alloc < want then { b with alloc := if grown < want then want else grown } else b

/-- The loop of `buf_read` with a bound on its rounds. After an error the buffer
    is restored. -/
def readLoop (oldalloc oldlen : ℕ) : ℕ → SizedBuf → List Event →
    Except Halt (Int × SizedBuf)
  | 0, _, _ => .error .bound
  | fuel + 1, b, reads =>
    match tryRead b.avail reads with
    | (none, _) =>
      .ok (-1,
        if oldalloc ≠ 0 then { b with buf := bufSetlen b.buf oldlen } else ⟨bufInit, 0⟩)
    | (some [], _) => .ok (narrow (b.len - oldlen), b)
    | (some (first :: more), reads) =>
      let b := { b with buf := { b.buf with bytes := b.buf.bytes ++ first :: more } }
      readLoop oldalloc oldlen fuel (b.grow 8192) reads

def bufRead (fuel : ℕ) (b : SizedBuf) (reads : List Event) (hint : ℕ) :
    Except Halt (Int × SizedBuf) :=
  readLoop b.alloc b.len fuel (b.grow (if hint ≠ 0 then hint else 8192)) reads

def bufReadFile (fuel : ℕ) (b : SizedBuf) (file : File) (hint : ℕ) :
    Except Halt (Int × SizedBuf) :=
  if !file.opens then .ok (-1, b)
  else match bufRead fuel b file.reads hint with
    | .error halt => .error halt
    | .ok (len, b) => if !file.closes then .ok (-1, b) else .ok (len, b)

def cfAddFromFile (fuel : ℕ) (cf : Cf) (file : File) : Except Halt (Bool × Cf) :=
  match bufReadFile fuel ⟨bufInit, 0⟩ file 0 with
  | .error halt => .error halt
  | .ok (rc, b) =>
    if rc = -1 then .ok (false, cf)
    else match cfParseText fuel cf b.buf with
      | .error halt => .error halt
      | .ok (rc, cf, _) => .ok (rc, cf)

def contents : List Event → Text
  | [] => []
  | .data first more :: reads => first :: more ++ contents reads
  | _ :: reads => contents reads

/-- A bound on the calls of `read`. -/
def size (reads : List Event) : ℕ := (contents reads).length + reads.length

theorem leftOver_contents (chunk : Text) (reads : List Event) :
    contents (leftOver chunk reads) = chunk ++ contents reads := by
  cases chunk <;> rfl

theorem leftOver_error (chunk : Text) (reads : List Event) :
    Event.error ∈ leftOver chunk reads ↔ Event.error ∈ reads := by
  cases chunk <;> simp [leftOver]

theorem leftOver_length (chunk : Text) (reads : List Event) :
    (leftOver chunk reads).length ≤ reads.length + 1 := by
  cases chunk <;> simp [leftOver]

theorem tryRead_cases {count : ℕ} (hcount : 0 < count) (reads : List Event) :
    ((∃ rest, tryRead count reads = (none, rest)) ∧ Event.error ∈ reads) ∨
    ((∃ rest, tryRead count reads = (some [], rest)) ∧ contents reads = [] ∧
      Event.error ∉ reads) ∨
    ∃ first more rest, tryRead count reads = (some (first :: more), rest) ∧
      contents reads = first :: more ++ contents rest ∧
      (Event.error ∈ rest ↔ Event.error ∈ reads) ∧ size rest < size reads := by
  induction reads with
  | nil => exact .inr (.inl ⟨⟨[], rfl⟩, rfl, by simp⟩)
  | cons event reads ih =>
    cases event with
    | again =>
      have hmem : Event.error ∈ Event.again :: reads ↔ Event.error ∈ reads := by simp
      rw [hmem]
      rcases ih with h | h | ⟨first, more, rest, hread, hcontents, herror, hsize⟩
      · exact .inl h
      · exact .inr (.inl h)
      · refine .inr (.inr ⟨first, more, rest, hread, hcontents, herror, ?_⟩)
        simp only [size, contents, List.length_cons] at hsize ⊢
        omega
    | data first more =>
      obtain ⟨n, rfl⟩ := Nat.exists_eq_succ_of_ne_zero (Nat.pos_iff_ne_zero.mp hcount)
      refine .inr (.inr ⟨first, more.take n, leftOver (more.drop n) reads, rfl, ?_, ?_, ?_⟩)
      · rw [leftOver_contents, contents, List.cons_append, List.cons_append, ← List.append_assoc,
          List.take_append_drop]
      · simp [leftOver_error]
      · have hleft := leftOver_length (more.drop n) reads
        simp only [size, leftOver_contents, contents, List.length_append, List.length_cons,
          List.length_drop]
        omega
    | error => exact .inl ⟨⟨reads, rfl⟩, by simp⟩

theorem grow_buf (b : SizedBuf) (extra : ℕ) : (b.grow extra).buf = b.buf := by
  simp only [SizedBuf.grow]
  split <;> rfl

theorem grow_alloc (b : SizedBuf) (extra : ℕ) : b.len + extra < (b.grow extra).alloc := by
  simp only [SizedBuf.grow]
  by_cases hlt : b.alloc < b.len + extra + 1
  · rw [if_pos hlt]
    simp only
    split <;> omega
  · rw [if_neg hlt]
    omega

theorem grow_avail (b : SizedBuf) {extra : ℕ} (h : 0 < extra) : 0 < (b.grow extra).avail := by
  have halloc := grow_alloc b extra
  have hlen : (b.grow extra).len = b.len := by rw [SizedBuf.len, grow_buf, SizedBuf.len]
  rw [SizedBuf.avail, if_pos (by omega), hlen]
  omega

theorem readLoop_error {oldalloc oldlen fuel : ℕ} {b : SizedBuf} {reads : List Event}
    (hb : 0 < b.avail) (hfuel : size reads < fuel) (herror : Event.error ∈ reads) :
    ∃ b', readLoop oldalloc oldlen fuel b reads = .ok (-1, b') := by
  induction fuel generalizing b reads with
  | zero => omega
  | succ fuel ih =>
    rw [readLoop]
    rcases tryRead_cases hb reads with ⟨⟨rest, hread⟩, _⟩ | ⟨_, _, hnone⟩ |
      ⟨first, more, rest, hread, _, hrest, hsize⟩
    · exact ⟨_, by rw [hread]⟩
    · exact absurd herror hnone
    · rw [hread]
      exact ih (grow_avail _ (by omega)) (by omega) (hrest.mpr herror)

theorem readLoop_contents {oldalloc oldlen fuel : ℕ} {b : SizedBuf} {reads : List Event}
    (hb : 0 < b.avail) (hfuel : size reads < fuel) (herror : Event.error ∉ reads) :
    ∃ alloc, readLoop oldalloc oldlen fuel b reads =
      .ok (narrow ((b.buf.bytes ++ contents reads).length - oldlen),
        ⟨{ b.buf with bytes := b.buf.bytes ++ contents reads }, alloc⟩) := by
  induction fuel generalizing b reads with
  | zero => omega
  | succ fuel ih =>
    rw [readLoop]
    rcases tryRead_cases hb reads with ⟨_, hsome⟩ | ⟨⟨rest, hread⟩, hcontents, _⟩ |
      ⟨first, more, rest, hread, hcontents, hrest, hsize⟩
    · exact absurd hsome herror
    · refine ⟨b.alloc, ?_⟩
      rw [hread, hcontents, List.append_nil]
      rfl
    · obtain ⟨alloc, hloop⟩ := @ih
        (SizedBuf.grow { b with buf := { b.buf with bytes := b.buf.bytes ++ first :: more } } 8192)
        rest (grow_avail _ (by omega)) (by omega) (fun h => herror (hrest.mp h))
      refine ⟨alloc, ?_⟩
      rw [grow_buf, List.append_assoc, ← hcontents] at hloop
      rw [hread]
      exact hloop

theorem bufReadFile_error {fuel : ℕ} {file : File} (hfuel : size file.reads < fuel)
    (h : file.opens = false ∨ Event.error ∈ file.reads) :
    ∃ b, bufReadFile fuel ⟨bufInit, 0⟩ file 0 = .ok (-1, b) := by
  obtain ⟨opens, reads, closes⟩ := file
  cases opens with
  | false => exact ⟨_, rfl⟩
  | true =>
    have herror : Event.error ∈ reads := by simpa using h
    obtain ⟨b, hread⟩ := @readLoop_error 0 0 fuel _ reads
      (grow_avail ⟨bufInit, 0⟩ (show 0 < 8192 by omega)) hfuel herror
    have hbuf : bufRead fuel ⟨bufInit, 0⟩ reads 0 = .ok (-1, b) := hread
    refine ⟨b, ?_⟩
    simp only [bufReadFile, hbuf]
    cases closes <;> rfl

theorem bufReadFile_contents {fuel : ℕ} {reads : List Event} (hfuel : size reads < fuel)
    (herror : Event.error ∉ reads) :
    ∃ alloc, bufReadFile fuel ⟨bufInit, 0⟩ ⟨true, reads, true⟩ 0 =
      .ok (narrow (contents reads).length, ⟨bufAddstr bufInit (contents reads), alloc⟩) := by
  obtain ⟨alloc, hread⟩ := @readLoop_contents 0 0 fuel _ reads
    (grow_avail ⟨bufInit, 0⟩ (show 0 < 8192 by omega)) hfuel herror
  have hbuf : bufRead fuel ⟨bufInit, 0⟩ reads 0 =
      .ok (narrow (contents reads).length, ⟨bufAddstr bufInit (contents reads), alloc⟩) := by
    rw [grow_buf] at hread
    exact hread
  exact ⟨alloc, by simp only [bufReadFile, hbuf]; rfl⟩

theorem narrow_eq_neg_one_iff (n : ℕ) : narrow n = -1 ↔ n % 2 ^ 32 = 2 ^ 32 - 1 := by
  unfold narrow
  rw [Int.bmod_def]
  omega

theorem cfAddFromFile_error {fuel : ℕ} {file : File} (cf : Cf) (hfuel : size file.reads < fuel)
    (h : file.opens = false ∨ Event.error ∈ file.reads) :
    cfAddFromFile fuel cf file = .ok (false, cf) := by
  obtain ⟨b, hread⟩ := bufReadFile_error hfuel h
  rw [cfAddFromFile, hread]
  rfl

theorem cfAddFromFile_unclosed {fuel : ℕ} {reads : List Event} (cf : Cf)
    (hfuel : size reads < fuel) (herror : Event.error ∉ reads) :
    cfAddFromFile fuel cf ⟨true, reads, false⟩ = .ok (false, cf) := by
  obtain ⟨alloc, hread⟩ := @readLoop_contents 0 0 fuel _ reads
    (grow_avail ⟨bufInit, 0⟩ (show 0 < 8192 by omega)) hfuel herror
  have hbuf : bufRead fuel ⟨bufInit, 0⟩ reads 0 = _ := hread
  simp only [cfAddFromFile, bufReadFile, hbuf]
  rfl

theorem cfAddFromFile_contents {fuel : ℕ} {reads : List Event} (cf : Cf)
    (hfuel : size reads < fuel) (herror : Event.error ∉ reads) :
    cfAddFromFile fuel cf ⟨true, reads, true⟩ =
      if (contents reads).length % 2 ^ 32 = 2 ^ 32 - 1 then .ok (false, cf)
      else cfAddFromString fuel cf (contents reads) := by
  obtain ⟨alloc, hread⟩ := bufReadFile_contents hfuel herror
  rw [cfAddFromFile, hread]
  simp only [narrow_eq_neg_one_iff]
  rfl

theorem cfAddFromString_nothing_iff {fuel : ℕ} {text : Text} (cf : Cf)
    (hfuel : text.length < fuel) :
    cfAddFromString fuel cf text = .ok (false, cf) ↔ failsEarly .start text = true := by
  have hearly : failsEarly .start text = true ↔ scan [] text = (false, []) :=
    failsEarly_iff fits_start separate_start text
  rw [hearly, cfAddFromString_scan cf hfuel, scan_append]
  generalize scan [] text = result
  obtain ⟨rc, sections⟩ := result
  obtain ⟨before⟩ := cf
  simp

/-- A file with the contents `s` behaves like the string `s`; one that cannot be
    read gives 0 and adds nothing. -/
structure LikeString (fuel : ℕ) (cf : Cf) (file : File) (s : Text) : Prop where
  same : file.opens = true → file.closes = true → Event.error ∉ file.reads →
    cfAddFromFile fuel cf file = cfAddFromString fuel cf (cstr s)
  unread : file.opens = false ∨ Event.error ∈ file.reads →
    cfAddFromFile fuel cf file = .ok (false, cf)

/-- A file of 2^32 - 1 bytes, or of a multiple of 2^32 more, is taken for one that
    cannot be read; that makes a difference unless the string is rejected before
    it adds a section. -/
theorem file_like_string_iff (fuel : ℕ) (cf : Cf) (file : File) (s : Text)
    (hcontents : contents file.reads = s) (hs : ∀ b ∈ s, b ≠ 0)
    (hfuel : s.length + file.reads.length < fuel) :
    LikeString fuel cf file s ↔
      (file.opens = true ∧ file.closes = true ∧ Event.error ∉ file.reads →
        s.length % 2 ^ 32 ≠ 2 ^ 32 - 1 ∨ failsEarly .start s = true) := by
  obtain ⟨opens, reads, closes⟩ := file
  simp only at hcontents hfuel
  subst hcontents
  have hcf := cfAddFromString_nothing_iff cf (show (contents reads).length < fuel by omega)
  constructor
  · rintro hlike ⟨hopens, hcloses, herror⟩
    have hsame := hlike.same hopens hcloses herror
    simp only at hopens hcloses herror
    subst hopens hcloses
    rw [cfAddFromFile_contents cf hfuel herror, cstr_of_nul_free _ hs] at hsame
    by_cases hlen : (contents reads).length % 2 ^ 32 = 2 ^ 32 - 1
    · rw [if_pos hlen] at hsame
      exact .inr (hcf.mp hsame.symm)
    · exact .inl hlen
  · intro hcond
    refine ⟨fun hopens hcloses herror => ?_, cfAddFromFile_error cf hfuel⟩
    have hgood := hcond ⟨hopens, hcloses, herror⟩
    simp only at hopens hcloses herror
    subst hopens hcloses
    rw [cfAddFromFile_contents cf hfuel herror, cstr_of_nul_free _ hs]
    by_cases hlen : (contents reads).length % 2 ^ 32 = 2 ^ 32 - 1
    · rw [if_pos hlen]
      exact (hcf.mpr (hgood.resolve_left (not_not.mpr hlen))).symm
    · exact if_neg hlen

theorem file_like_string_interrupted :
    LikeString 40 ⟨[]⟩ ⟨true, [.data 91 [97], .again, .data 93 [10, 107, 61, 118]], true⟩
      [91, 97, 93, 10, 107, 61, 118] := by
  refine (file_like_string_iff 40 ⟨[]⟩ _ _ rfl (by decide) (by decide)).mpr fun _ => ?_
  exact .inl (by decide)

theorem scan_newlines (n : ℕ) : scan [] (List.replicate n nl) = (true, []) := by
  have hrun : run (start []) (List.replicate n nl) = start [] := by
    induction n with
    | zero => rfl
    | succ n ih =>
      rw [List.replicate_succ, run_cons]
      exact ih
  rw [scan, hrun]
  rfl

theorem newlines_unlike {n fuel : ℕ} (hn : (n + 1) % 2 ^ 32 = 2 ^ 32 - 1) (hfuel : n + 2 < fuel) :
    ¬ LikeString fuel ⟨[]⟩ ⟨true, [.data nl (List.replicate n nl)], true⟩
      (List.replicate (n + 1) nl) := by
  intro hlike
  have hcontents : contents [.data nl (List.replicate n nl)] = List.replicate (n + 1) nl := by
    rw [contents, contents, List.append_nil, List.replicate_succ]
  have hsame := hlike.same rfl rfl (by simp)
  rw [cfAddFromFile_contents ⟨[]⟩ ?_ (by simp), hcontents, List.length_replicate, if_pos hn,
    cstr_of_nul_free _ ?_, cfAddFromString_scan ⟨[]⟩ (by rw [List.length_replicate]; omega),
    scan_newlines] at hsame
  · simp at hsame
  · intro b hb
    rw [List.eq_of_mem_replicate hb]
    decide
  · rw [size, hcontents, List.length_replicate, List.length_singleton]
    omega

/-- A string of 2^32 - 1 newlines is accepted, a file of them is not. -/
theorem newlines_not_like_string :
    ¬ LikeString (2 ^ 32 + 1) ⟨[]⟩
      ⟨true, [.data nl (List.replicate (2 ^ 32 - 2) nl)], true⟩
      (List.replicate (2 ^ 32 - 2 + 1) nl) :=
  newlines_unlike (by decide) (by decide)

end Pathcomp.Files
