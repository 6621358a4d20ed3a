import Pathcomp.ByteString
import Pathcomp.Files

set_option autoImplicit false

/-!
# Reading into the buffer in memory

`buf_read` lets `read` write behind the contents and raises the length without a
terminating NUL until the end of the file. The counts that `read` is called with
are recorded.
-/
namespace Pathcomp.Reading
open Bytes Buffer RawBuffer Capacity ByteString Files

/-- A call ends in a fault, or the bound on its rounds is used up. -/
inductive Stop where
  | fault (fault : Fault)
  | bound
  deriving DecidableEq, Repr

def guarded {α : Type} : Except Fault α → Except Stop α
  | .ok a => .ok a
  | .error fault => .error (.fault fault)

/-- The most that one call of `read` can report. -/
def ssizeMax : ℕ := 2 ^ 63 - 1

/-- The counts asked for, the bytes that were read or an error, and what the
    following calls give. A request for nothing gives nothing. -/
def tryRead (count : ℕ) : List Event → List ℕ × Option Text × List Event
  | [] => ([count], some [], [])
  | .again :: reads => (count :: (tryRead count reads).1, (tryRead count reads).2)
  | .data first more :: reads =>
    ([count], some ((first :: more).take (min count ssizeMax)),
      leftOver ((first :: more).drop (min count ssizeMax)) reads)
  | .error :: reads => ([count], none, reads)

/-- The loop of `buf_read` with a bound on its rounds. -/
def readLoop (oldalloc oldlen : ℕ) :
    ℕ → RawBuf → List Event → Except Stop (List ℕ × Int × RawBuf)
  | 0, _, _ => .error .bound
  | fuel + 1, b, reads =>
    let (counts, result, reads) := tryRead b.avail reads
    match result with
    | none => do
      -- must restore to state before call
      let b ← guarded (if oldalloc ≠ 0 then b.setlen oldlen else b.release)
      .ok (counts, -1, b)
    | some [] => do
      let b ← guarded (b.store b.len [0])
      .ok (counts, narrow (subSize b.len oldlen), b)
    | some (first :: more) => do
      let b ← guarded (b.store b.len (first :: more))
      let b := { b with len := addSize b.len (first :: more).length }
      let b ← guarded (b.grow 8192)
      let (later, rc, b) ← readLoop oldalloc oldlen fuel b reads
      .ok (counts ++ later, rc, b)

def bufRead (fuel : ℕ) (b : RawBuf) (reads : List Event) (hint : ℕ) :
    Except Stop (List ℕ × Int × RawBuf) := do
  let grown ← guarded (b.grow (if hint ≠ 0 then hint else 8192))
  readLoop b.alloc b.len fuel grown reads

theorem tryRead_counts (count : ℕ) (reads : List Event) :
    ∀ n ∈ (tryRead count reads).1, n = count := by
  induction reads with
  | nil => simp [tryRead]
  | cons event reads ih =>
    cases event with
    | again => simpa [tryRead] using ih
    | data first more => simp [tryRead]
    | error => simp [tryRead]

theorem tryRead_eq (count : ℕ) (reads : List Event) :
    (tryRead count reads).2 = Files.tryRead (min count ssizeMax) reads := by
  induction reads with
  | nil => rfl
  | cons event reads ih =>
    cases event with
    | again => exact ih
    | data first more => rfl
    | error => rfl

theorem tryRead_length {count : ℕ} {reads rest : List Event} {chunk : Text}
    (h : Files.tryRead count reads = (some chunk, rest)) : chunk.length ≤ count := by
  induction reads with
  | nil =>
    cases h
    exact Nat.zero_le _
  | cons event reads ih =>
    cases event with
    | again => exact ih h
    | data first more =>
      cases h
      rw [List.length_take]
      exact Nat.min_le_left _ _
    | error => cases h

section Open
variable {bytes : Text} {rest : List (Option UInt8)} {pos : ℕ}

theorem avail_open (hne : rest ≠ []) (hcap : bytes.length + rest.length < 2 ^ 64) :
    (openForm bytes rest pos).avail = rest.length - 1 := by
  have hrest := List.length_pos_iff.mpr hne
  have halloc : bytes.length + rest.length ≠ 0 := by omega
  simp only [RawBuf.avail, openForm, ne_eq, halloc, not_false_eq_true, ↓reduceIte]
  rw [subSize_eq hcap (by omega), subSize_eq (by omega) (by omega)]
  omega

theorem grow_wide {extra : ℕ} (hne : rest ≠ []) (hwant : bytes.length + extra + 1 < 2 ^ 64)
    (hcap : bytes.length + rest.length < 2 ^ 64) :
    ∃ tail, (openForm bytes rest pos).grow extra = .ok (openForm bytes tail pos) ∧
      extra < tail.length ∧ bytes.length + tail.length < 2 ^ 64 := by
  have hnext := le_nextAlloc (bytes.length + rest.length) (bytes.length + extra + 1)
  have hbound : nextAlloc (bytes.length + rest.length) (bytes.length + extra + 1) < 2 ^ 64 :=
    nextAlloc_lt hcap hwant
  refine ⟨_, grow_open_eq hne hwant, ?_, ?_⟩
  · rw [List.length_append, List.length_replicate]
    omega
  · rw [List.length_append, List.length_replicate]
    omega

theorem raise_len {chunk : Text} (hsum : bytes.length + chunk.length < 2 ^ 64) {b : RawBuf}
    (hb : b = openForm bytes (chunk.map some ++ rest) pos) :
    { b with len := addSize b.len chunk.length } = openForm (bytes ++ chunk) rest pos := by
  subst hb
  simp only [openForm, addSize_eq hsum, List.map_append, List.append_assoc, List.length_append,
    List.length_map, Nat.add_assoc]

theorem take_chunk {chunk : Text} (hfit : chunk.length < rest.length)
    (hcap : bytes.length + rest.length < 2 ^ 64)
    (hwant : bytes.length + chunk.length + 8192 + 1 < 2 ^ 64) :
    ∃ b tail, (openForm bytes rest pos).store bytes.length chunk = .ok b ∧
      RawBuf.grow { b with len := addSize b.len chunk.length } 8192 =
        .ok (openForm (bytes ++ chunk) tail pos) ∧
      8192 < tail.length ∧ (bytes ++ chunk).length + tail.length < 2 ^ 64 := by
  have hdrop : (rest.drop chunk.length).length = rest.length - chunk.length := List.length_drop
  have hraised : (bytes ++ chunk).length = bytes.length + chunk.length := List.length_append
  obtain ⟨tail, hgrow, htail, hroom⟩ :=
    @grow_wide (bytes ++ chunk) (rest.drop chunk.length) pos 8192
    (List.ne_nil_of_length_pos (by omega)) (by omega) (by omega)
  refine ⟨_, tail, store_open (Nat.le_of_lt hfit), ?_, htail, hroom⟩
  rw [raise_len (by omega) rfl, hgrow]

end Open

theorem guarded_bind {α β : Type} {r : Except Fault α} {a : α} (h : r = .ok a)
    (f : α → Except Stop β) : (guarded r >>= f) = f a := by
  rw [h]
  rfl

section Rounds
variable {oldalloc oldlen fuel : ℕ} {b b' grown : RawBuf} {reads left : List Event}
  {counts : List ℕ}

theorem readLoop_failed (hcall : tryRead b.avail reads = (counts, none, left))
    (hrestore : (if oldalloc ≠ 0 then b.setlen oldlen else b.release) = .ok b') :
    readLoop oldalloc oldlen (fuel + 1) b reads = .ok (counts, -1, b') := by
  rw [readLoop, hcall]
  exact guarded_bind hrestore _

theorem readLoop_end (hcall : tryRead b.avail reads = (counts, some [], left))
    (hstore : b.store b.len [0] = .ok b') :
    readLoop oldalloc oldlen (fuel + 1) b reads =
      .ok (counts, narrow (subSize b'.len oldlen), b') := by
  rw [readLoop, hcall]
  exact guarded_bind hstore _

theorem readLoop_data {first : UInt8} {more : Text} {later : List ℕ} {rc : Int} {final : RawBuf}
    (hcall : tryRead b.avail reads = (counts, some (first :: more), left))
    (hstore : b.store b.len (first :: more) = .ok b')
    (hgrow : RawBuf.grow { b' with len := addSize b'.len (first :: more).length } 8192 = .ok grown)
    (hrest : readLoop oldalloc oldlen fuel grown left = .ok (later, rc, final)) :
    readLoop oldalloc oldlen (fuel + 1) b reads = .ok (counts ++ later, rc, final) := by
  rw [readLoop, hcall]
  refine (guarded_bind hstore _).trans ((guarded_bind hgrow _).trans ?_)
  rw [hrest]
  rfl

end Rounds

/-- What a buffer that held `old`, allocated or not, becomes again. -/
def Restored (oldalloc : ℕ) (old : Text) (pos : ℕ) (b : RawBuf) : Prop :=
  (oldalloc = 0 → b = emptyForm) ∧
    (oldalloc ≠ 0 → ∃ junk, b = openForm old (some 0 :: junk) pos)

section Loop
variable {oldalloc : ℕ} {old got : Text} {rest : List (Option UInt8)} {pos : ℕ}
  (hpos : pos ≤ old.length)

include hpos in
theorem restore {b : RawBuf} (hb : b = openForm (old ++ got) rest pos) (hne : rest ≠ []) :
    ∃ b', (if oldalloc ≠ 0 then b.setlen old.length else b.release) = .ok b' ∧
      Restored oldalloc old pos b' := by
  subst hb
  have hrest := List.length_pos_iff.mpr hne
  by_cases hold : oldalloc = 0
  · have halloc : (old ++ got).length + rest.length ≠ 0 := by omega
    refine ⟨emptyForm, ?_, fun _ => rfl, fun h => absurd hold h⟩
    rw [if_neg (not_not.mpr hold)]
    simp only [RawBuf.release, openForm, ne_eq, halloc, not_false_eq_true, ↓reduceIte]
    rfl
  · have hset := @setlen_heap old (got.map some ++ rest) (openForm (old ++ got) rest pos)
      (by simp [openForm]) (by simp [hne]) (by simp [openForm, Nat.add_assoc]) rfl
    rw [show (openForm (old ++ got) rest pos).pos = pos from rfl, Nat.min_eq_left hpos] at hset
    rw [if_pos hold, hset]
    exact ⟨_, rfl, fun h => absurd h hold, fun _ => ⟨_, rfl⟩⟩

include hpos in
theorem readLoop_spec {fuel : ℕ} {reads : List Event} (hroom : 1 < rest.length)
    (hcap : (old ++ got).length + rest.length < 2 ^ 64)
    (htotal : (old ++ got).length + (contents reads).length + 8192 + 1 < 2 ^ 64)
    (hfuel : size reads < fuel) :
    ∃ counts rc b', readLoop oldalloc old.length fuel (openForm (old ++ got) rest pos) reads =
        .ok (counts, rc, b') ∧ (∀ n ∈ counts, 0 < n) ∧
      (Event.error ∉ reads → rc = narrow (got ++ contents reads).length ∧
        ∃ junk, b' = openForm (old ++ (got ++ contents reads)) (some 0 :: junk) pos) ∧
      (Event.error ∈ reads → rc = -1 ∧ Restored oldalloc old pos b') := by
  induction fuel generalizing got rest reads with
  | zero => omega
  | succ fuel ih =>
    have hne : rest ≠ [] := List.ne_nil_of_length_pos (by omega)
    have havail : (openForm (old ++ got) rest pos).avail = rest.length - 1 := avail_open hne hcap
    have hmin : 0 < min (rest.length - 1) ssizeMax := by
      unfold ssizeMax
      omega
    have hcounts : ∀ n ∈ (tryRead (rest.length - 1) reads).1, 0 < n := by
      intro n hn
      rw [tryRead_counts _ _ n hn]
      omega
    have hcall : tryRead (openForm (old ++ got) rest pos).avail reads =
        ((tryRead (rest.length - 1) reads).1,
          Files.tryRead (min (rest.length - 1) ssizeMax) reads) := by
      rw [havail, ← tryRead_eq]
    rcases tryRead_cases hmin reads with ⟨⟨left, hread⟩, herror⟩ |
      ⟨⟨left, hread⟩, hcontents, herror⟩ |
        ⟨first, more, left, hread, hcontents, herror, hsize⟩
    · rw [hread] at hcall
      obtain ⟨b', hrestore, hb'⟩ := @restore oldalloc old got rest pos hpos _ rfl hne
      exact ⟨_, _, b', readLoop_failed hcall hrestore, hcounts, fun h => absurd herror h,
        fun _ => ⟨rfl, hb'⟩⟩
    · rw [hread] at hcall
      have hstore : (openForm (old ++ got) rest pos).store (old ++ got).length [0] =
          .ok (openForm (old ++ got) (some 0 :: rest.drop 1) pos) :=
        store_open (Nat.le_of_lt hroom)
      refine ⟨_, _, _, readLoop_end hcall hstore, hcounts, fun _ => ⟨?_, ?_⟩,
        fun h => absurd h herror⟩
      · rw [hcontents, List.append_nil]
        have hlen : (openForm (old ++ got) (some 0 :: rest.drop 1) pos).len =
            (old ++ got).length := rfl
        rw [List.length_append] at hlen hcap
        rw [hlen, subSize_eq (by omega) (by omega), Nat.add_sub_cancel_left]
      · rw [hcontents, List.append_nil]
        exact ⟨_, rfl⟩
    · rw [hread] at hcall
      have hlength := tryRead_length hread
      have hcount : (contents reads).length = (first :: more).length + (contents left).length := by
        rw [hcontents, List.length_append]
      have hraised : ((old ++ got) ++ first :: more).length =
          (old ++ got).length + (first :: more).length := List.length_append
      obtain ⟨b, tail, hstore, hgrow, htail, hcap'⟩ := @take_chunk (old ++ got) rest pos
        (first :: more) (by omega) hcap (by omega)
      rw [List.append_assoc] at hgrow hraised hcap'
      obtain ⟨counts, rc, b', hrest, hpositive, happended, hrestored⟩ :=
        @ih (got ++ first :: more) tail left (by omega) hcap' (by omega) (by omega)
      have hsame : got ++ (first :: more) ++ contents left = got ++ contents reads := by
        rw [hcontents]
        simp
      rw [hsame, herror] at happended
      rw [herror] at hrestored
      refine ⟨_, rc, b', readLoop_data hcall hstore hgrow hrest, ?_, happended, hrestored⟩
      intro n hn
      rcases List.mem_append.mp hn with hn | hn
      · exact hcounts n hn
      · exact hpositive n hn

end Loop

theorem holds_cases {b : RawBuf} {buf : Buf} (h : Holds b buf) :
    (b = emptyForm ∧ buf = bufInit) ∨
      ∃ junk, b = openForm buf.bytes (some 0 :: junk) buf.pos := by
  obtain ⟨storage, alloc, len, pos, initial⟩ := b
  obtain ⟨bytes, bufpos⟩ := buf
  obtain ⟨rfl, hstorage, hlen, hpos, _⟩ := h
  simp only at hlen hpos hstorage
  subst hlen hpos
  rcases hstorage with ⟨rfl, hnil, rfl, rfl, hbytes⟩ | ⟨cells, rfl, rfl, hlt, hnul, htake⟩
  · rw [List.length_eq_zero_iff] at hnil
    subst hnil
    exact .inl ⟨rfl, rfl⟩
  · have hcells : cells = bytes.map some ++ some 0 :: cells.drop (bytes.length + 1) := by
      have hdrop := List.drop_eq_getElem_cons hlt
      rw [List.getElem?_eq_getElem hlt, Option.some.injEq] at hnul
      rw [hnul] at hdrop
      rw [← htake, ← hdrop, List.take_append_drop]
    refine .inr ⟨cells.drop (bytes.length + 1), ?_⟩
    simp only [openForm, ← hcells, List.length_cons, List.length_drop]
    congr 1
    omega

theorem cursor_le {b : RawBuf} {buf : Buf} (h : Holds b buf) : buf.pos ≤ buf.bytes.length := by
  have hle := h.cursor_le
  rwa [h.cursor, h.len] at hle

theorem grow_holds {b : RawBuf} {buf : Buf} (hb : Holds b buf) (halloc : b.alloc < 2 ^ 64)
    {extra : ℕ} (hwant : buf.bytes.length + extra + 1 < 2 ^ 64) :
    ∃ rest, b.grow extra = .ok (openForm buf.bytes rest buf.pos) ∧ extra < rest.length ∧
      buf.bytes.length + rest.length < 2 ^ 64 := by
  rcases holds_cases hb with ⟨rfl, rfl⟩ | ⟨junk, rfl⟩
  · have hwant' : extra + 1 < 2 ^ 64 := by omega
    have hnext := le_nextAlloc 0 (extra + 1)
    have hbound : nextAlloc 0 (extra + 1) < 2 ^ 64 := nextAlloc_lt (by decide) hwant'
    refine ⟨_, grow_empty_eq hwant', ?_, ?_⟩
    · rw [List.length_cons, List.length_replicate]
      omega
    · rw [List.length_cons, List.length_replicate, bufInit, List.length_nil]
      omega
  · exact grow_wide (by simp) hwant halloc

theorem load_nul (bytes : Text) (junk : List (Option UInt8)) (pos : ℕ) :
    (openForm bytes (some 0 :: junk) pos).load bytes.length = .ok 0 := by
  have hcell : (bytes.map some ++ some 0 :: junk)[bytes.length]? = some (some 0) := by
    rw [List.getElem?_append_right (by simp), List.length_map, Nat.sub_self]
    rfl
  simp only [RawBuf.load, openForm, hcell]

section Calls
variable {b : RawBuf} {buf : Buf} (hb : Holds b buf) (halloc : b.alloc < 2 ^ 64) {hint : ℕ}
  (hhint : buf.bytes.length + hint + 1 < 2 ^ 64) {reads : List Event}
  (htotal : buf.bytes.length + (contents reads).length + 8192 + 1 < 2 ^ 64) {fuel : ℕ}
  (hfuel : size reads < fuel)
include hb halloc hhint htotal hfuel

theorem bufRead_spec :
    ∃ counts rc b', bufRead fuel b reads hint = .ok (counts, rc, b') ∧
    (∀ n ∈ counts, 0 < n) ∧
      (Event.error ∉ reads → rc = narrow (contents reads).length ∧
        ∃ junk, b' = openForm (buf.bytes ++ contents reads) (some 0 :: junk) buf.pos) ∧
      (Event.error ∈ reads → rc = -1 ∧ Restored b.alloc buf.bytes buf.pos b') := by
  have hwant : buf.bytes.length + (if hint ≠ 0 then hint else 8192) + 1 < 2 ^ 64 := by
    split <;> omega
  have hasked : 0 < if hint ≠ 0 then hint else 8192 := by
    split <;> omega
  obtain ⟨rest, hgrow, hrest, hcap⟩ := grow_holds hb halloc hwant
  have hroom : 1 < rest.length := by omega
  have hloop := @readLoop_spec b.alloc buf.bytes [] rest buf.pos (cursor_le hb) fuel reads hroom
  rw [List.append_nil] at hloop
  obtain ⟨counts, rc, b', hrun, hspec⟩ := hloop hcap htotal hfuel
  refine ⟨counts, rc, b', ?_, hspec⟩
  rw [bufRead, hb.len]
  exact (guarded_bind hgrow _).trans hrun

/-- Without an error the buffer in memory ends with the byte string that the model of
    files computes with capacities alone. -/
theorem bufRead_sized (herror : Event.error ∉ reads) :
    ∃ counts rc b' sized, bufRead fuel b reads hint = .ok (counts, rc, b') ∧
      Files.bufRead fuel ⟨buf, b.alloc⟩ reads hint = .ok (rc, sized) ∧
      Holds b' sized.buf := by
  obtain ⟨counts, rc, b', hrun, _, happended, _⟩ := bufRead_spec hb halloc hhint htotal hfuel
  obtain ⟨hrc, junk, rfl⟩ := happended herror
  have hasked : 0 < if hint ≠ 0 then hint else 8192 := by
    split <;> omega
  obtain ⟨alloc, hsized⟩ := @readLoop_contents b.alloc buf.bytes.length fuel
    (SizedBuf.grow ⟨buf, b.alloc⟩ (if hint ≠ 0 then hint else 8192)) reads
      (grow_avail _ hasked)
    hfuel herror
  rw [grow_buf, List.length_append, Nat.add_sub_cancel_left] at hsized
  have hpos := cursor_le hb
  refine ⟨counts, rc, _, ⟨⟨buf.bytes ++ contents reads, buf.pos⟩, alloc⟩, hrun, ?_,
    holds_open ?_ junk⟩
  · rw [Files.bufRead, SizedBuf.len, hsized, hrc]
  · rw [List.length_append]
    omega

end Calls

/-- Whatever the calls of `read` give, everything up to the end of the file is
    appended, or after an error the buffer holds what it held before. -/
theorem read_appends_or_restores (b : RawBuf) (buf : Buf) (hb : Holds b buf)
    (halloc : b.alloc < 2 ^ 64) (hint : ℕ) (hhint : buf.bytes.length + hint + 1 < 2 ^ 64)
    (reads : List Event)
    (htotal : buf.bytes.length + (contents reads).length + 8192 + 1 < 2 ^ 64) (fuel : ℕ)
    (hfuel : size reads < fuel) :
    ∃ counts rc b', bufRead fuel b reads hint = .ok (counts, rc, b') ∧
    (∀ n ∈ counts, 0 < n) ∧
      (Event.error ∉ reads → Holds b' (bufAddstr buf (contents reads)) ∧ b'.len < b'.alloc ∧
        b'.load b'.len = .ok 0) ∧
      (Event.error ∈ reads → rc = -1 ∧ Holds b' buf ∧ (b.alloc = 0 → b' = b)) := by
  have hpos := cursor_le hb
  obtain ⟨counts, rc, b', hrun, hcounts, happended, hrestored⟩ :=
    bufRead_spec hb halloc hhint htotal hfuel
  refine ⟨counts, rc, b', hrun, hcounts, ?_, ?_⟩
  · intro herror
    obtain ⟨_, junk, rfl⟩ := happended herror
    refine ⟨holds_open ?_ junk, ?_, load_nul _ junk buf.pos⟩
    · rw [List.length_append]
      omega
    · simp only [openForm, List.length_cons]
      omega
  · intro herror
    obtain ⟨hrc, hempty, hheap⟩ := hrestored herror
    rcases holds_cases hb with ⟨rfl, rfl⟩ | ⟨junk, rfl⟩
    · rw [hempty rfl]
      exact ⟨hrc, hb, fun _ => rfl⟩
    · have hne : (openForm buf.bytes (some 0 :: junk) buf.pos).alloc ≠ 0 := by
        simp only [openForm, List.length_cons]
        omega
      obtain ⟨junk', rfl⟩ := hheap hne
      exact ⟨hrc, holds_open hpos junk', fun h => absurd h hne⟩

/-- Three bytes and an error behind `a`, with the cursor behind it too. -/
theorem read_appends_or_restores_error :
    ∃ counts b', bufRead 8 (openForm [97] [some 0] 1)
        [.data 98 [99], .again, .data 100 [], .error] 2 = .ok (counts, -1, b') ∧
      (∀ n ∈ counts, 0 < n) ∧ Holds b' ⟨[97], 1⟩ := by
  obtain ⟨counts, rc, b', hrun, hcounts, _, hrestored⟩ :=
    read_appends_or_restores (openForm [97] [some 0] 1) ⟨[97], 1⟩ (holds_open (by decide) [])
      (by decide) 2 (by decide) [.data 98 [99], .again, .data 100 [], .error] (by decide) 8
      (by decide)
  obtain ⟨rfl, hholds, _⟩ := hrestored (by decide)
  exact ⟨counts, b', hrun, hcounts, hholds⟩

end Pathcomp.Reading
