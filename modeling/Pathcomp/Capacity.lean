import Pathcomp.RawBuffer

set_option autoImplicit false

/-!
# The buffer in memory implements a byte string with a cursor

Every operation is first described on buffers whose bytes up to `len` are known
and whose remaining cells are not. The refinement follows for every sequence of
operations as long as the lengths fit into an `int`.
-/
namespace Pathcomp.Capacity
open Bytes Buffer Cells RawBuffer

theorem bind_ok {ε α β : Type} (a : α) (f : α → Except ε β) :
    (Except.ok a >>= f) = f a := rfl

theorem addSize_eq {a b : ℕ} (h : a + b < 2 ^ 64) : addSize a b = a + b :=
  Nat.mod_eq_of_lt h

theorem subSize_eq {a b : ℕ} (ha : a < 2 ^ 64) (hb : b ≤ a) : subSize a b = a - b := by
  unfold subSize sizeMax
  omega

theorem narrow_eq {n : ℕ} (h : n < 2 ^ 31) : narrow n = n := by
  unfold narrow
  rw [Int.bmod_def]
  omega

theorem toSize_natCast {n : ℕ} (h : n < 2 ^ 64) : toSize n = n := by
  unfold toSize sizeMax
  omega

theorem addSize_toSize {a : ℕ} {d : Int} (ha : a < 2 ^ 31) (hd : -a ≤ d) (hd' : d < 2 ^ 31) :
    addSize a (toSize d) = (a + d).toNat := by
  unfold addSize toSize sizeMax
  omega

theorem narrow_offset {a : ℕ} {off : Int} (ha : a < 2 ^ 31) (hlo : -a ≤ off) (hhi : off < 0) :
    narrow (addSize a (toSize off)) = a + off := by
  rw [addSize_toSize ha hlo (by omega), narrow_eq (by omega)]
  omega

/-- By how much a range is longer after its replacement, also when its end was
    computed modulo 2^64. -/
theorem narrow_delta {start len stop total n : ℕ} (hstop : addSize start len = stop)
    (htotal : total < 2 ^ 31) (hle : stop ≤ total)
    (hlen : start + n + (total - stop) < 2 ^ 31) :
    narrow (subSize n len) = (start : Int) + n - stop := by
  unfold addSize sizeMax at hstop
  unfold narrow subSize sizeMax
  rw [Int.bmod_def]
  omega

theorem subSize_range {start len stop total : ℕ} (hstop : addSize start len = stop)
    (htotal : total < 2 ^ 31) (hle : stop ≤ total) :
    subSize (subSize total start) len = total - stop := by
  unfold addSize sizeMax at hstop
  unfold subSize sizeMax
  omega

/-- The bytes up to `len` are known, `rest` are the remaining cells. -/
def openForm (bytes : Text) (rest : List (Option UInt8)) (pos : ℕ) : RawBuf :=
  { buf := .heap (bytes.map some ++ rest), alloc := bytes.length + rest.length,
    len := bytes.length, pos, initial := 0 }

def emptyForm : RawBuf := { buf := .shared, alloc := 0, len := 0, pos := 0, initial := 0 }

/-- The buffer in memory stands for a byte string with a cursor. -/
inductive Represents : RawBuf → Buf → Prop where
  | empty : Represents emptyForm ⟨[], 0⟩
  | heap {bytes : Text} {junk : List (Option UInt8)} {pos : ℕ} (hpos : pos ≤ bytes.length)
      (hcap : bytes.length + 1 + junk.length < 2 ^ 33) :
      Represents (openForm bytes (some 0 :: junk) pos) ⟨bytes, pos⟩

theorem growN_eq {n : ℕ} (h : n < 2 ^ 60) : growN n = (n + 16) * 3 / 2 := by
  unfold growN
  rw [addSize_eq (by omega)]
  unfold sizeMax
  omega

/-- The capacity that the macro `GROW` leaves. -/
def nextAlloc (cur want : ℕ) : ℕ :=
  if cur < want then if growN cur < want then want else growN cur else cur

theorem le_nextAlloc (cur want : ℕ) : cur ≤ nextAlloc cur want ∧
    want ≤ nextAlloc cur want := by
  unfold nextAlloc
  split
  · split <;> omega
  · omega

theorem nextAlloc_lt {cur want : ℕ} (hcur : cur < 2 ^ 64) (hwant : want < 2 ^ 64) :
    nextAlloc cur want < 2 ^ 64 := by
  unfold nextAlloc growN sizeMax
  split
  · split <;> omega
  · exact hcur

section Open
variable {bytes : Text} {rest : List (Option UInt8)} {pos : ℕ}

/-- Growing adds fresh cells, whatever the sizes are modulo 2^64 in between. -/
theorem grow_open_eq {extra : ℕ} (hne : rest ≠ []) (hwant : bytes.length + extra + 1 < 2 ^ 64) :
    (openForm bytes rest pos).grow extra =
      .ok (openForm bytes (rest ++ List.replicate
        (nextAlloc (bytes.length + rest.length) (bytes.length + extra + 1) -
          (bytes.length + rest.length)) none) pos) := by
  have hrest := List.length_pos_iff.mpr hne
  have hsum : addSize (addSize bytes.length extra) 1 = bytes.length + extra + 1 := by
    rw [@addSize_eq bytes.length extra (by omega), addSize_eq hwant]
  have halloc : bytes.length + rest.length ≠ 0 := by omega
  have hnext := le_nextAlloc (bytes.length + rest.length) (bytes.length + extra + 1)
  simp only [RawBuf.grow, openForm, halloc, decide_false, Bool.false_eq_true, ↓reduceIte, hsum,
    growTo]
  by_cases hlt : bytes.length + rest.length < bytes.length + extra + 1
  · have hcur : nextAlloc (bytes.length + rest.length) (bytes.length + extra + 1) = _ := if_pos hlt
    rw [if_pos hlt, ← hcur]
    simp only [realloc, extend, List.length_append, List.length_map, List.length_replicate,
      List.append_assoc]
    congr 2
    omega
  · have hcur : nextAlloc (bytes.length + rest.length) (bytes.length + extra + 1) = _ := if_neg hlt
    rw [if_neg hlt, hcur, Nat.sub_self, List.replicate_zero, List.append_nil]

theorem grow_open {extra : ℕ} (hne : rest ≠ []) (hlen : bytes.length < 2 ^ 31)
    (hextra : extra < 2 ^ 31) (hcap : bytes.length + rest.length < 2 ^ 33) :
    ∃ tail, (openForm bytes rest pos).grow extra = .ok (openForm bytes (rest ++ tail) pos) ∧
      extra < (rest ++ tail).length ∧ bytes.length + (rest ++ tail).length < 2 ^ 33 := by
  have hnext := le_nextAlloc (bytes.length + rest.length) (bytes.length + extra + 1)
  have hbound : nextAlloc (bytes.length + rest.length) (bytes.length + extra + 1) < 2 ^ 33 := by
    rw [nextAlloc, growN_eq (by omega)]
    split
    · split <;> omega
    · omega
  refine ⟨_, grow_open_eq hne (by omega), ?_, ?_⟩
  · rw [List.length_append, List.length_replicate]
    omega
  · rw [List.length_append, List.length_replicate]
    omega

theorem grow_empty_eq {extra : ℕ} (hwant : extra + 1 < 2 ^ 64) :
    emptyForm.grow extra =
      .ok (openForm [] (some 0 :: List.replicate (nextAlloc 0 (extra + 1) - 1) none) 0) := by
  have hsum : addSize (addSize 0 extra) 1 = extra + 1 := by
    rw [@addSize_eq 0 extra (by omega), addSize_eq (by omega), Nat.zero_add]
  have hnext := le_nextAlloc 0 (extra + 1)
  have hcur : nextAlloc 0 (extra + 1) = _ := if_pos (Nat.succ_pos extra)
  obtain ⟨n, hn⟩ : ∃ n, nextAlloc 0 (extra + 1) = n + 1 :=
    ⟨nextAlloc 0 (extra + 1) - 1, by omega⟩
  simp only [RawBuf.grow, emptyForm, decide_true, ↓reduceIte, hsum, growTo, Nat.zero_lt_succ]
  rw [← hcur, hn]
  simp [realloc, extend, RawBuf.store, overwrite, openForm, List.replicate_succ]

theorem grow_empty {extra : ℕ} (hextra : extra < 2 ^ 31) :
    ∃ junk, emptyForm.grow extra = .ok (openForm [] (some 0 :: junk) 0) ∧
      extra ≤ junk.length ∧ 1 + junk.length < 2 ^ 33 := by
  have hnext := le_nextAlloc 0 (extra + 1)
  have hbound : nextAlloc 0 (extra + 1) < 2 ^ 33 := by
    rw [nextAlloc, growN_eq (by omega)]
    split
    · split <;> omega
    · omega
  refine ⟨_, grow_empty_eq (by omega), ?_, ?_⟩
  · rw [List.length_replicate]
    omega
  · rw [List.length_replicate]
    omega

theorem store_heap {b : RawBuf} {cells : List (Option UInt8)} (hb : b.buf = .heap cells) {i : ℕ}
    {data : Text} (h : i + data.length ≤ cells.length) :
    b.store i data = .ok { b with buf := .heap (overwrite cells i (data.map some)) } := by
  simp only [RawBuf.store, hb]
  rw [if_pos h]

theorem move_heap {b : RawBuf} {cells : List (Option UInt8)} (hb : b.buf = .heap cells)
    {dst src n : ℕ} (hsrc : src + n ≤ cells.length) (hdst : dst + n ≤ cells.length) :
    b.move dst src n =
      .ok { b with buf := .heap (overwrite cells dst ((cells.drop src).take n)) } := by
  simp only [RawBuf.move, hb]
  rw [if_neg (by omega), if_neg (by omega)]

theorem store_open {data : Text} (hroom : data.length ≤ rest.length) :
    (openForm bytes rest pos).store bytes.length data =
      .ok (openForm bytes (data.map some ++ rest.drop data.length) pos) := by
  have hwrite := overwrite_append (bytes.map some) rest (data.map some) (by simpa using hroom)
  rw [List.length_map, List.length_map] at hwrite
  rw [store_heap rfl (by simpa using hroom), hwrite]
  simp only [openForm, List.length_append, List.length_map, List.length_drop]
  congr 2
  omega

/-- Setting the length to the end of the known bytes. -/
theorem setlen_heap {b : RawBuf} (hb : b.buf = .heap (bytes.map some ++ rest)) (hne : rest ≠ [])
    (halloc : b.alloc = bytes.length + rest.length) (hinit : b.initial = 0) :
    b.setlen bytes.length =
      .ok (openForm bytes (some 0 :: rest.tail) (min b.pos bytes.length)) := by
  obtain ⟨x, tail, rfl⟩ := List.exists_cons_of_ne_nil hne
  have hcheck : (if b.alloc ≠ 0 then decide (bytes.length < b.alloc)
      else decide (bytes.length = 0)) = true := by
    rw [halloc, List.length_cons, if_pos (by omega), decide_eq_true_eq]
    omega
  have hstore : ({ b with len := bytes.length } : RawBuf).store bytes.length [0] =
      .ok { b with len := bytes.length, buf := .heap (bytes.map some ++ some 0 :: tail) } := by
    rw [store_heap (b := { b with len := bytes.length }) hb (by simp)]
    have hwrite := overwrite_split (bytes.map some) [x] [some 0] tail rfl
    rw [List.length_map] at hwrite
    simp only [List.map_cons, List.map_nil]
    rw [show bytes.map some ++ x :: tail = bytes.map some ++ ([x] ++ tail) from rfl, hwrite]
    rfl
  simp only [RawBuf.setlen, check, hcheck, ↓reduceIte, bind, Except.bind, hstore]
  split
  · rename_i hpos
    rw [Nat.min_eq_right (by omega)]
    simp [openForm, halloc, hinit]
  · rename_i hpos
    rw [Nat.min_eq_left (by omega)]
    simp [openForm, halloc, hinit]

theorem setlen_represents {b : RawBuf} (hb : b.buf = .heap (bytes.map some ++ rest))
    (hne : rest ≠ []) (halloc : b.alloc = bytes.length + rest.length) (hinit : b.initial = 0)
    (hcap : b.alloc < 2 ^ 33) {n : ℕ} (hn : n = bytes.length) :
    ∃ raw, b.setlen n = .ok raw ∧ Represents raw ⟨bytes, min b.pos n⟩ := by
  subst hn
  refine ⟨_, setlen_heap hb hne halloc hinit, .heap (Nat.min_le_right _ _) ?_⟩
  have hpos := List.length_pos_iff.mpr hne
  rw [List.length_tail]
  omega

/-- Known bytes after the length become part of the contents. -/
theorem setlen_open {data : Text} (hne : rest ≠ []) (hpos : pos ≤ bytes.length)
    (hlen : bytes.length + data.length < 2 ^ 31)
    (hcap : bytes.length + (data.map some ++ rest).length < 2 ^ 33) :
    ∃ raw, (openForm bytes (data.map some ++ rest) pos).setlen
      (addSize bytes.length data.length) =
        .ok raw ∧ Represents raw ⟨bytes ++ data, pos⟩ := by
  have hsum : addSize bytes.length data.length = (bytes ++ data).length := by
    rw [addSize_eq (by omega), List.length_append]
  obtain ⟨raw, hset, hraw⟩ := @setlen_represents (bytes ++ data) rest
    (openForm bytes (data.map some ++ rest) pos) (by simp [openForm]) hne
    (by simp only [openForm, List.length_append, List.length_map]; omega) rfl hcap _ hsum
  refine ⟨raw, hset, ?_⟩
  rw [hsum, List.length_append] at hraw
  simp only [openForm] at hraw
  rwa [Nat.min_eq_left (by omega)] at hraw

theorem avail_open (hne : rest ≠ []) (hcap : bytes.length + rest.length < 2 ^ 33) :
    (openForm bytes rest pos).avail = rest.length - 1 := by
  have hroom := List.length_pos_iff.mpr hne
  have halloc : (openForm bytes rest pos).alloc = bytes.length + rest.length := rfl
  have hlen : (openForm bytes rest pos).len = bytes.length := rfl
  rw [RawBuf.avail, halloc, hlen, if_pos (by omega),
    @subSize_eq _ bytes.length (by omega) (by omega),
    subSize_eq (by omega) (by omega)]
  omega

/-- What the free cells hold after printing, cut off at their end. -/
def printed (text : Text) (rest : List (Option UInt8)) : List (Option UInt8) :=
  (text.take (rest.length - 1) ++ [0]).map some ++
    rest.drop (text.take (rest.length - 1) ++ [0]).length

theorem vsnprintf_open {b : RawBuf} (hb : b = openForm bytes rest pos) (text : Text)
    (hne : rest ≠ []) (hcap : bytes.length + rest.length < 2 ^ 33)
    (htext : text.length < 2 ^ 31) :
    b.vsnprintf b.len (subSize b.alloc b.len) text =
      .ok (text.length, openForm bytes (printed text rest) pos) := by
  subst hb
  have hroom := List.length_pos_iff.mpr hne
  have hsize : subSize (openForm bytes rest pos).alloc (openForm bytes rest pos).len =
      rest.length := by
    simp only [openForm]
    rw [subSize_eq (by omega) (by omega), Nat.add_sub_cancel_left]
  have hfit : (text.take (rest.length - 1) ++ [0]).length ≤ rest.length := by
    simp only [List.length_append, List.length_take, List.length_singleton]
    omega
  have hstore := @store_open bytes rest pos _ hfit
  rw [RawBuf.vsnprintf, hsize, if_neg (by omega),
    show (openForm bytes rest pos).len = bytes.length from rfl, hstore]
  simp only [narrow_eq htext]
  rfl

theorem printed_length (text : Text) (hne : rest ≠ []) :
    (printed text rest).length = rest.length := by
  have hroom := List.length_pos_iff.mpr hne
  simp only [printed, List.length_append, List.length_map, List.length_take, List.length_drop,
    List.length_singleton]
  omega

theorem printed_fits {text : Text} (hroom : text.length < rest.length) :
    printed text rest = text.map some ++ (some 0 :: rest.drop (text.length + 1)) := by
  rw [printed, List.take_of_length_le (by omega)]
  simp

theorem load_open {i : ℕ} (hi : i < bytes.length) :
    (openForm bytes rest pos).load i = .ok bytes[i] := by
  have hcell : (bytes.map some ++ rest)[i]? = some (some bytes[i]) := by
    rw [List.getElem?_append_left (by simpa using hi)]
    simp [hi]
  simp only [RawBuf.load, openForm, hcell]

theorem skipSpaces_open {n i : ℕ} (h : i + n = bytes.length) :
    (openForm bytes rest pos).skipSpaces n i =
      .ok (i + ((bytes.drop i).takeWhile fun b => isspace (charToInt b)).length) := by
  induction n generalizing i with
  | zero => simp [RawBuf.skipSpaces, List.drop_eq_nil_of_le (show bytes.length ≤ i by omega)]
  | succ n ih =>
    have hi : i < bytes.length := by omega
    rw [RawBuf.skipSpaces, load_open hi, List.drop_eq_getElem_cons hi]
    simp only [List.takeWhile_cons]
    split
    · rw [ih (by omega), List.length_cons]
      congr 1
      omega
    · rfl

theorem trimEnd_open {n : ℕ} (h : n ≤ bytes.length) :
    (openForm bytes rest pos).trimEnd n = .ok (trimRight (bytes.take n)).length := by
  induction n with
  | zero => rfl
  | succ n ih =>
    have hn : n < bytes.length := by omega
    rw [RawBuf.trimEnd, load_open hn, List.take_succ_eq_append_getElem hn]
    simp only [trimRight, List.rdropWhile_concat]
    split
    · exact ih (by omega)
    · simp
      omega

end Open

section Operations
variable {raw : RawBuf} {buf : Buf}

/-- After growing there is room for `extra` bytes and the NUL. -/
theorem Represents.grow (h : Represents raw buf) (hlen : buf.bytes.length < 2 ^ 31) {extra : ℕ}
    (hextra : extra < 2 ^ 31) :
    ∃ junk, raw.grow extra = .ok (openForm buf.bytes (some 0 :: junk) buf.pos) ∧
      extra ≤ junk.length ∧ buf.pos ≤ buf.bytes.length ∧
      buf.bytes.length + 1 + junk.length < 2 ^ 33 := by
  cases h with
  | empty =>
    obtain ⟨junk, hg, hroom, hcap⟩ := grow_empty hextra
    exact ⟨junk, hg, hroom, le_rfl, by simpa using hcap⟩
  | @heap bytes junk pos hpos hcap =>
    obtain ⟨tail, hg, hroom, hcap'⟩ :=
      @grow_open bytes (some 0 :: junk) pos extra (by simp) hlen
      hextra (by simp only [List.length_cons]; omega)
    simp only [List.cons_append, List.length_cons] at hroom hcap'
    exact ⟨junk ++ tail, hg, by omega, hpos, by simp only; omega⟩

theorem Represents.init (hinit : raw.initial = 0) {hint : ℕ} (hhint : hint < 2 ^ 31) :
    ∃ raw', raw.init hint = .ok raw' ∧ Represents raw' bufInit := by
  have hstart : ({ raw with buf := .shared, alloc := 0, len := 0, pos := 0 } : RawBuf) =
      emptyForm := by simp [emptyForm, hinit]
  simp only [RawBuf.init, hstart]
  split
  · obtain ⟨junk, hg, _, hcap⟩ := grow_empty hhint
    exact ⟨_, hg, .heap le_rfl (by simpa using hcap)⟩
  · exact ⟨_, rfl, .empty⟩

theorem Represents.initial (h : Represents raw buf) : raw.initial = 0 := by
  cases h <;> rfl

theorem Represents.len (h : Represents raw buf) : raw.len = buf.bytes.length := by
  cases h <;> rfl

theorem Represents.release (h : Represents raw buf) :
    ∃ raw', raw.release = .ok raw' ∧ Represents raw' bufInit := by
  cases h with
  | empty => exact ⟨_, rfl, .empty⟩
  | @heap bytes junk pos hpos hcap =>
    obtain ⟨raw', hi, hr⟩ := @Represents.init
      (openForm bytes (some 0 :: junk) pos) rfl 0 (by omega)
    refine ⟨raw', ?_, hr⟩
    rw [RawBuf.release, if_pos (by simp [openForm])]
    exact hi

/-- The block that is handed out holds the contents and a NUL. -/
theorem Represents.detach (h : Represents raw buf) (hlen : buf.bytes.length < 2 ^ 31) :
    ∃ junk raw', raw.detach =
        .ok (.heap (buf.bytes.map some ++ some 0 :: junk), buf.bytes.length, raw') ∧
      Represents raw' bufInit := by
  obtain ⟨junk, hg, _, _, _⟩ := h.grow hlen (show 0 < 2 ^ 31 by omega)
  obtain ⟨raw', hi, hr⟩ :=
    @Represents.init (openForm buf.bytes (some 0 :: junk) buf.pos) rfl 0 (by omega)
  refine ⟨junk, raw', ?_, hr⟩
  simp only [RawBuf.detach, bind, Except.bind, hg, hi]
  rfl

theorem Represents.setlen (h : Represents raw buf) {n : ℕ} (hn : n ≤ buf.bytes.length) :
    ∃ raw', raw.setlen n = .ok raw' ∧ Represents raw' (bufSetlen buf n) := by
  cases h with
  | empty =>
    obtain rfl : n = 0 := by simpa using hn
    exact ⟨emptyForm, rfl, .empty⟩
  | @heap bytes junk pos hpos hcap =>
    refine @setlen_represents (bytes.take n) ((bytes.drop n).map some ++ some 0 :: junk)
      (openForm bytes (some 0 :: junk) pos) ?_ (by simp) ?_ rfl ?_ n ?_
    · simp only [openForm]
      rw [← List.append_assoc, ← List.map_append, List.take_append_drop]
    · simp only [openForm, List.length_take, List.length_append, List.length_map, List.length_drop,
        List.length_cons]
      omega
    · simp only [openForm, List.length_cons]
      omega
    · exact (List.length_take_of_le hn).symm

theorem Represents.addch (h : Represents raw buf) (hlen : buf.bytes.length + 1 < 2 ^ 31) (c : Int) :
    ∃ raw', raw.addch c = .ok raw' ∧ Represents raw' (bufAddch buf c) := by
  obtain ⟨junk, hg, hroom, hpos, hcap⟩ := h.grow (by omega) (show 1 < 2 ^ 31 by omega)
  obtain ⟨x, junk, rfl⟩ := List.exists_cons_of_length_pos (show 0 < junk.length by omega)
  simp only [List.length_cons] at hcap
  have hfirst := @store_open buf.bytes (some 0 :: x :: junk) buf.pos [intToChar c] (by simp)
  have hsum : addSize buf.bytes.length 1 = (buf.bytes ++ [intToChar c]).length := by
    rw [addSize_eq (by omega), List.length_append, List.length_singleton]
  have hmoved : ({ openForm buf.bytes (some (intToChar c) :: x :: junk) buf.pos with
      len := (buf.bytes ++ [intToChar c]).length } : RawBuf) =
      openForm (buf.bytes ++ [intToChar c]) (x :: junk) buf.pos := by
    simp [openForm]
    omega
  have hlast := @store_open (buf.bytes ++ [intToChar c]) (x :: junk) buf.pos [0] (by simp)
  refine ⟨openForm (buf.bytes ++ [intToChar c]) (some 0 :: junk) buf.pos, ?_, ?_⟩
  · rw [RawBuf.addch, hg, bind_ok]
    rw [show (openForm buf.bytes (some 0 :: x :: junk) buf.pos).len = buf.bytes.length from rfl,
      hfirst, bind_ok]
    simp only [List.map_cons, List.map_nil, List.singleton_append, List.length_singleton,
      List.drop_succ_cons, List.drop_zero]
    rw [show (openForm buf.bytes (some (intToChar c) :: x :: junk) buf.pos).len =
      buf.bytes.length from rfl, hsum, hmoved]
    exact hlast
  · exact .heap (by simp; omega) (by simp; omega)

theorem Represents.add (h : Represents raw buf) {data : Text}
    (hlen : buf.bytes.length + data.length < 2 ^ 31) :
    ∃ raw', raw.add (some data) = .ok raw' ∧ Represents raw' (bufAddstr buf data) := by
  obtain ⟨junk, hg, hroom, hpos, hcap⟩ :=
    h.grow (by omega) (show data.length < 2 ^ 31 by omega)
  have hstore := @store_open buf.bytes (some 0 :: junk) buf.pos data (by simp; omega)
  simp only [RawBuf.add]
  rw [hg, bind_ok,
    show (openForm buf.bytes (some 0 :: junk) buf.pos).len = buf.bytes.length from rfl,
    hstore, bind_ok]
  refine setlen_open ?_ hpos hlen ?_
  · rw [← List.length_pos_iff, List.length_drop, List.length_cons]
    omega
  · simp only [List.length_append, List.length_map, List.length_drop, List.length_cons]
    omega

/-- Before anything is printed there is room for at least one character. -/
theorem Represents.roomy (h : Represents raw buf) (hlen : buf.bytes.length < 2 ^ 31) :
    ∃ junk, (if raw.avail = 0 then raw.grow 64 else .ok raw) =
        .ok (openForm buf.bytes (some 0 :: junk) buf.pos) ∧
      buf.pos ≤ buf.bytes.length ∧ buf.bytes.length + 1 + junk.length < 2 ^ 33 := by
  by_cases hfull : raw.avail = 0
  · obtain ⟨junk, hg, _, hpos, hcap⟩ := h.grow hlen (show 64 < 2 ^ 31 by omega)
    exact ⟨junk, by rw [if_pos hfull, hg], hpos, hcap⟩
  · cases h with
    | empty => exact absurd rfl hfull
    | @heap bytes junk pos hpos hcap => exact ⟨junk, if_neg hfull, hpos, hcap⟩

theorem check_true {p : Bool} (h : p = true) : check p = .ok () := if_pos h

theorem printed_setlen {bytes text : Text} {rest : List (Option UInt8)} {pos : ℕ}
    (hpos : pos ≤ bytes.length) (hcap : bytes.length + rest.length < 2 ^ 33)
    (hlen : bytes.length + text.length < 2 ^ 31) (hroom : text.length < rest.length) :
    ∃ raw, (openForm bytes (printed text rest) pos).setlen
        (addSize (openForm bytes (printed text rest) pos).len (toSize text.length)) = .ok raw ∧
      Represents raw ⟨bytes ++ text, pos⟩ := by
  rw [toSize_natCast (by omega), printed_fits hroom]
  refine setlen_open (by simp) hpos hlen ?_
  simp only [List.length_append, List.length_map, List.length_cons, List.length_drop]
  omega

theorem Represents.addf (h : Represents raw buf) {text : Text}
    (hlen : buf.bytes.length + text.length < 2 ^ 31) :
    ∃ raw', raw.addf text = .ok raw' ∧ Represents raw' (bufAddstr buf text) := by
  obtain ⟨junk, hroomy, hpos, hcap⟩ := h.roomy (by omega)
  have hn : toSize text.length = text.length := toSize_natCast (by omega)
  have hcap' : buf.bytes.length + (some 0 :: junk).length < 2 ^ 33 := by
    simp only [List.length_cons]
    omega
  rw [RawBuf.addf, hroomy, bind_ok, vsnprintf_open rfl text (by simp) hcap' (by omega), bind_ok]
  simp only
  have hfull : (printed text (some 0 :: junk)).length = junk.length + 1 :=
    printed_length text (by simp)
  have hfree : (openForm buf.bytes (printed text (some 0 :: junk)) buf.pos).avail =
      junk.length := by
    rw [avail_open ?_ ?_, hfull, Nat.add_sub_cancel]
    · rw [← List.length_pos_iff, hfull]
      omega
    · rw [hfull]
      omega
  rw [check_true (by simp), bind_ok, hfree]
  by_cases hroom : junk.length < toSize text.length
  · rw [if_pos hroom, hn]
    obtain ⟨tail, hg, hspace, hcap''⟩ :=
      @grow_open buf.bytes (printed text (some 0 :: junk)) buf.pos
      text.length (by rw [← List.length_pos_iff, hfull]; omega) (by omega) (by omega)
      (by rw [hfull]; omega)
    have hne : printed text (some 0 :: junk) ++ tail ≠ [] := by
      rw [← List.length_pos_iff]
      omega
    rw [hg, bind_ok, vsnprintf_open rfl text hne hcap'' (by omega), bind_ok]
    simp only
    have havail : toSize text.length ≤
        (openForm buf.bytes (printed text (printed text (some 0 :: junk) ++ tail))
          buf.pos).avail := by
      rw [avail_open ?_ ?_, printed_length text hne, hn]
      · omega
      · rw [← List.length_pos_iff, printed_length text hne]
        omega
      · rw [printed_length text hne]
        exact hcap''
    rw [check_true (by simpa using havail), bind_ok]
    exact printed_setlen hpos hcap'' hlen hspace
  · rw [if_neg hroom]
    exact printed_setlen hpos hcap' hlen (by simp only [List.length_cons]; omega)

/-- The bytes after the spaces are moved to the front. -/
theorem ltrim_move {spaces kept : Text} {rest : List (Option UInt8)} {pos : ℕ}
    (hskip : (openForm (spaces ++ kept) rest pos).skipSpaces (spaces ++ kept).length 0 =
      .ok spaces.length) :
    (openForm (spaces ++ kept) rest pos).ltrim =
      ({ openForm (spaces ++ kept) rest (pos - spaces.length) with
        buf := .heap (kept.map some ++ ((spaces ++ kept).map some ++ rest).drop kept.length) }
        : RawBuf).setlen kept.length := by
  have hcursor : (if pos < spaces.length then 0 else pos - spaces.length) =
      pos - spaces.length := by
    split <;> omega
  have hkeep : (spaces ++ kept).length - spaces.length = kept.length := by simp
  have hcells : (((spaces ++ kept).map some ++ rest).drop spaces.length).take kept.length =
      kept.map some := by
    rw [List.map_append, List.append_assoc, List.drop_left' (by simp), List.take_left' (by simp)]
  have hwrite := overwrite_append [] ((spaces ++ kept).map some ++ rest) (kept.map some)
    (by simp; omega)
  rw [List.nil_append, List.nil_append, List.length_map, List.length_nil] at hwrite
  have hmove := @move_heap (openForm (spaces ++ kept) rest (pos - spaces.length)) _ rfl 0
    spaces.length kept.length (by simp) (by simp; omega)
  rw [hcells, hwrite] at hmove
  rw [RawBuf.ltrim,
    show (openForm (spaces ++ kept) rest pos).len = (spaces ++ kept).length from rfl,
    hskip, bind_ok]
  simp only [show (openForm (spaces ++ kept) rest pos).pos = pos from rfl, hcursor, hkeep]
  refine Eq.trans (congrArg (· >>= _) hmove) ?_
  rw [bind_ok]
  exact congrArg _ hkeep

theorem Represents.ltrim (h : Represents raw buf) :
    ∃ raw', raw.ltrim = .ok raw' ∧ Represents raw' (bufLtrim buf) := by
  cases h with
  | empty => exact ⟨emptyForm, rfl, .empty⟩
  | @heap bytes junk pos hpos hcap =>
    have hskip := @skipSpaces_open bytes (some 0 :: junk) pos bytes.length 0 (Nat.zero_add _)
    have hsplit :=
      List.takeWhile_append_dropWhile (p := fun b => isspace (charToInt b)) (l := bytes)
    rw [List.drop_zero, Nat.zero_add] at hskip
    simp only [bufLtrim]
    generalize bytes.takeWhile (fun b => isspace (charToInt b)) = spaces at hskip hsplit
    generalize bytes.dropWhile (fun b => isspace (charToInt b)) = kept at hsplit
    subst hsplit
    have hdrop : (spaces ++ kept).length - kept.length = spaces.length := by simp
    rw [List.length_append] at hcap hpos
    obtain ⟨raw', hset, hraw⟩ := @setlen_represents kept
      (((spaces ++ kept).map some ++ some 0 :: junk).drop kept.length)
      { openForm (spaces ++ kept) (some 0 :: junk) (pos - spaces.length) with
        buf := .heap (kept.map some ++
          ((spaces ++ kept).map some ++ some 0 :: junk).drop kept.length) }
      rfl (by rw [← List.length_pos_iff]; simp; omega)
      (by simp [openForm]; omega) rfl (by simp [openForm]; omega) _ rfl
    refine ⟨raw', by rw [ltrim_move hskip, hset], ?_⟩
    rw [hdrop]
    simp only [openForm] at hraw
    rwa [Nat.min_eq_left (by omega)] at hraw

theorem Represents.rtrim (h : Represents raw buf) :
    ∃ raw', raw.rtrim = .ok raw' ∧ Represents raw' (bufRtrim buf) := by
  have hle : (trimRight buf.bytes).length ≤ buf.bytes.length :=
    (List.rdropWhile_prefix _ _).length_le
  obtain ⟨raw', hset, hraw⟩ := h.setlen hle
  refine ⟨raw', ?_, hraw⟩
  cases h with
  | empty => exact hset
  | @heap bytes junk pos hpos hcap =>
    have htrim := @trimEnd_open bytes (some 0 :: junk) pos bytes.length le_rfl
    rw [List.take_length] at htrim
    rw [RawBuf.rtrim, show (openForm bytes (some 0 :: junk) pos).len = bytes.length from rfl, htrim,
      bind_ok]
    exact hset

/-- The bytes after the range go to their new place; they are there already when
    the range keeps its length. -/
theorem splice_move {bytes : Text} {rest : List (Option UInt8)} {pos start stop n : ℕ}
    {delta : Int} (hstop : stop ≤ bytes.length)
    (hroom : start + n + (bytes.length - stop) < bytes.length + rest.length)
    (hdelta : delta = (start : Int) + n - stop) :
    (if delta ≠ 0 then (openForm bytes rest pos).move (start + n) stop (bytes.length - stop)
      else .ok (openForm bytes rest pos)) =
      .ok { openForm bytes rest pos with
        buf := .heap (overwrite (bytes.map some ++ rest) (start + n)
          ((bytes.drop stop).map some)) } := by
  have hsplit : bytes.map some ++ rest =
      (bytes.take stop).map some ++ ((bytes.drop stop).map some ++ rest) := by
    rw [← List.append_assoc, ← List.map_append, List.take_append_drop]
  have hfront : ((bytes.take stop).map some).length = stop := by
    rw [List.length_map, List.length_take_of_le hstop]
  by_cases hd : delta ≠ 0
  · have htail : ((bytes.map some ++ rest).drop stop).take (bytes.length - stop) =
        (bytes.drop stop).map some := by
      rw [hsplit, List.drop_left' hfront, List.take_left' (by simp)]
    rw [if_pos hd, move_heap rfl (by simp; omega) (by simp; omega), htail]
  · have hself := overwrite_self ((bytes.take stop).map some) ((bytes.drop stop).map some) rest
    rw [hfront, ← hsplit] at hself
    rw [if_neg hd, show start + n = stop by omega, hself]
    rfl

theorem splice_store {bytes data tail : Text} {rest : List (Option UInt8)} {pos start : ℕ}
    (hroom : start + data.length + tail.length < bytes.length + rest.length) :
    (if data.length ≠ 0 then
      ({ openForm bytes rest pos with
        buf := .heap (overwrite (bytes.map some ++ rest) (start + data.length) (tail.map some)) }
        : RawBuf).store start data
      else .ok { openForm bytes rest pos with
        buf := .heap (overwrite (bytes.map some ++ rest) (start + data.length) (tail.map some)) }) =
      .ok { openForm bytes rest pos with
        buf := .heap (overwrite (bytes.map some ++ rest) start ((data ++ tail).map some)) } := by
  have hover := @overwrite_overwrite _ (bytes.map some ++ rest) start (data.map some)
    (tail.map some)
    (by simp; omega)
  rw [List.length_map, ← List.map_append] at hover
  by_cases hd : data.length ≠ 0
  · rw [if_pos hd, store_heap rfl ?_, hover]
    rw [overwrite_length (by simp; omega)]
    simp
    omega
  · obtain rfl := List.eq_nil_of_length_eq_zero (not_not.mp hd)
    rw [if_neg hd]
    simp

theorem splice_finish {bytes data : Text} {rest : List (Option UInt8)} {pos start stop len : ℕ}
    {delta : Int} (hstart : start ≤ bytes.length) (hstop : addSize start len = stop)
    (hle : stop ≤ bytes.length) (htotal : bytes.length < 2 ^ 31)
    (hlen : start + data.length + (bytes.length - stop) < 2 ^ 31)
    (hroom : start + data.length + (bytes.length - stop) < bytes.length + rest.length)
    (hcap : bytes.length + rest.length < 2 ^ 33)
    (hdelta : delta = (start : Int) + data.length - stop) :
    ∃ raw, (do
        let b ← (if delta ≠ 0 then
            (openForm bytes rest pos).move (start + data.length) (addSize start len)
              (subSize (subSize (openForm bytes rest pos).len start) len)
          else .ok (openForm bytes rest pos))
        let b ← (if data.length ≠ 0 then b.store start data else .ok b)
        b.setlen (addSize b.len (toSize delta))) = .ok raw ∧
      Represents raw (bufSplice ⟨bytes, pos⟩ start stop data) := by
  have hset : addSize bytes.length (toSize delta) =
      (bytes.take start ++ (data ++ bytes.drop stop)).length := by
    rw [addSize_toSize htotal (by omega) (by omega)]
    simp only [List.length_append, List.length_take_of_le hstart, List.length_drop]
    omega
  have hfront : ((bytes.take start).map some).length = start := by
    rw [List.length_map, List.length_take_of_le hstart]
  have hcells := overwrite_append ((bytes.take start).map some)
    ((bytes.drop start).map some ++ rest)
    ((data ++ bytes.drop stop).map some) (by simp; omega)
  rw [hfront, ← List.append_assoc, ← List.map_append, List.take_append_drop,
    ← List.append_assoc,
    ← List.map_append] at hcells
  rw [show (openForm bytes rest pos).len = bytes.length from rfl, subSize_range hstop htotal hle,
    hstop, splice_move hle hroom hdelta, bind_ok, splice_store (by simpa using hroom), bind_ok]
  simp only [show (openForm bytes rest pos).len = bytes.length from rfl, hset, hcells, bufSplice]
  refine setlen_represents rfl ?_ ?_ rfl hcap rfl
  · rw [← List.length_pos_iff]
    simp
    omega
  · simp [openForm, List.length_take_of_le hstart]
    omega

/-- A length that wraps around the end of `size_t` gives an end before the start;
    the bytes in between are then kept twice. -/
theorem Represents.splice (h : Represents raw buf) {off : Int} {start stop len : ℕ}
    {data : Option Text} (hoff : (if off < 0 then buf.bytes.length + off else off) = (start : Int))
    (hstart : start ≤ buf.bytes.length) (hstop : addSize start len = stop)
    (hle : stop ≤ buf.bytes.length) (htotal : buf.bytes.length < 2 ^ 31)
    (hlen : (bufSplice buf start stop (data.getD [])).bytes.length < 2 ^ 31) :
    ∃ raw', raw.splice off len data = .ok raw' ∧
      Represents raw' (bufSplice buf start stop (data.getD [])) := by
  have hlength : (bufSplice buf start stop (data.getD [])).bytes.length =
      start + (data.getD []).length + (buf.bytes.length - stop) := by
    simp only [bufSplice, List.length_append, List.length_take_of_le hstart, List.length_drop]
    omega
  rw [hlength] at hlen
  have hdelta := narrow_delta hstop htotal hle hlen
  have hlenraw : raw.len = buf.bytes.length := h.len
  have hoff' : (if off < 0 then narrow (addSize raw.len (toSize off)) else off) =
      (start : Int) := by
    rw [hlenraw, ← hoff]
    by_cases hneg : off < 0
    · rw [if_pos hneg] at hoff
      rw [if_pos hneg, if_pos hneg, narrow_offset htotal (by omega) hneg]
    · rw [if_neg hneg, if_neg hneg]
  have hsize : toSize (start : Int) = start := toSize_natCast (by omega)
  rw [RawBuf.splice]
  simp only [hoff', hdelta]
  rw [check_true (by simp [hsize, hlenraw, hstart]), bind_ok,
    check_true (by simp [hsize, hstop, hlenraw, hle]), bind_ok,
    check_true (by cases data <;> simp), bind_ok, Int.toNat_natCast]
  by_cases hgrow : (0 : Int) < (start : Int) + (data.getD []).length - stop
  · have hextra : toSize ((start : Int) + (data.getD []).length - stop) =
        start + (data.getD []).length - stop := by
      unfold toSize sizeMax
      omega
    obtain ⟨junk, hg, hroom, hpos, hcap⟩ := h.grow htotal (show toSize _ < 2 ^ 31 by
      rw [hextra]
      omega)
    rw [if_pos hgrow, hg, bind_ok]
    exact splice_finish hstart hstop hle htotal hlen (by simp only [List.length_cons]; omega)
      (by simp only [List.length_cons]; omega) rfl
  · rw [if_neg hgrow, bind_ok]
    cases h with
    | empty =>
      simp only [List.length_nil, Nat.le_zero] at hstart hle
      subst hle hstart
      obtain hnil : data.getD [] = [] := List.eq_nil_of_length_eq_zero (by omega)
      rw [hnil]
      exact ⟨emptyForm, rfl, .empty⟩
    | @heap bytes junk pos hpos hcap =>
      simp only at hstart hle htotal hlen
      exact splice_finish hstart hstop hle htotal hlen (by simp only [List.length_cons]; omega)
        (by simp only [List.length_cons]; omega) rfl

theorem Represents.fgetc (h : Represents raw buf) :
    ∃ raw', raw.fgetc = .ok ((bufFgetc buf).1, raw') ∧ Represents raw' (bufFgetc buf).2 := by
  cases h with
  | empty => exact ⟨emptyForm, rfl, .empty⟩
  | @heap bytes junk pos hpos hcap =>
    by_cases hlt : pos < bytes.length
    · have hload := @load_open bytes (some 0 :: junk) pos pos hlt
      refine ⟨openForm bytes (some 0 :: junk) (pos + 1), ?_, ?_⟩
      · rw [RawBuf.fgetc, if_pos (show (openForm bytes (some 0 :: junk) pos).pos <
          (openForm bytes (some 0 :: junk) pos).len from hlt),
          show (openForm bytes (some 0 :: junk) pos).pos = pos from rfl, hload]
        simp [bufFgetc, hlt, openForm]
      · simp only [bufFgetc, List.getElem?_eq_getElem hlt]
        exact .heap hlt hcap
    · refine ⟨openForm bytes (some 0 :: junk) pos, ?_, ?_⟩
      · rw [RawBuf.fgetc, if_neg (show ¬ (openForm bytes (some 0 :: junk) pos).pos <
          (openForm bytes (some 0 :: junk) pos).len from hlt)]
        simp [bufFgetc, List.getElem?_eq_none (Nat.le_of_not_lt hlt)]
      · simp only [bufFgetc, List.getElem?_eq_none (Nat.le_of_not_lt hlt)]
        exact .heap hpos hcap

theorem Represents.ungetc (h : Represents raw buf) (c : Int) :
    ∃ raw', raw.ungetc c = .ok ((bufUngetc buf c).1, raw') ∧
      Represents raw' (bufUngetc buf c).2 := by
  cases h with
  | empty => exact ⟨emptyForm, rfl, .empty⟩
  | @heap bytes junk pos hpos hcap =>
    by_cases hlt : 0 < pos
    · have hcells : overwrite (bytes.map some ++ some 0 :: junk) (pos - 1)
          ([intToChar c].map some) =
          (bytes.set (pos - 1) (intToChar c)).map some ++ some 0 :: junk := by
        rw [List.map_singleton, overwrite_singleton (by simp; omega),
          List.set_append_left _ _ (by simp; omega), List.map_set]
      refine ⟨openForm (bytes.set (pos - 1) (intToChar c)) (some 0 :: junk) (pos - 1), ?_, ?_⟩
      · rw [RawBuf.ungetc, if_pos (show 0 < (openForm bytes (some 0 :: junk) pos).pos from hlt),
          store_heap rfl (by simp [openForm]; omega)]
        simp only [openForm, hcells, bufUngetc, hlt, ↓reduceIte, List.length_set]
      · simp only [bufUngetc, hlt, ↓reduceIte]
        exact .heap (by rw [List.length_set]; omega) (by rw [List.length_set]; exact hcap)
    · refine ⟨openForm bytes (some 0 :: junk) pos, ?_, ?_⟩
      · rw [RawBuf.ungetc, if_neg (show ¬ 0 < (openForm bytes (some 0 :: junk) pos).pos from hlt)]
        simp only [bufUngetc, hlt, ↓reduceIte]
      · simp only [bufUngetc, hlt, ↓reduceIte]
        exact .heap hpos hcap

theorem Represents.rewind (h : Represents raw buf) : Represents raw.rewind (bufRewind buf) := by
  cases h with
  | empty => exact .empty
  | heap hpos hcap => exact .heap (Nat.zero_le _) hcap

end Operations

end Pathcomp.Capacity
