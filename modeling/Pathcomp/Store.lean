import Pathcomp.Files
import Pathcomp.Links

set_option autoImplicit false

/-!
# The configuration in memory

`cf.c` on a heap of list nodes, strings, key-value pairs, sections and the blocks of
buffers, with the calls of `free` that it makes and those that it does not make. The
contents of a buffer are kept beside the heap; a block that is there is resized in
place. A record is allocated once its fields are known.
-/
namespace Pathcomp.Store
open Bytes Buffer Config RawBuffer Files Heaps Links

inductive Block where
  | node (el : ℕ) (next : Option ℕ)
  | string (text : Text)
  | buffer
  | kv (key value : ℕ)
  | sec (name : ℕ) (entries : Option ℕ)
  | cf (sections : Option ℕ)
  deriving DecidableEq, Repr

instance : Nodes Block where
  node := .node
  asNode
    | .node el next => some (el, next)
    | _ => none
  asNode_node _ _ := rfl

abbrev S := Mem Block Halt

def strdup (s : Text) : S ℕ := malloc (.string s)

/-- A `buf_t` with the block that it owns. -/
structure OwnedBuf where
  buf : Buf
  block : Option ℕ
  deriving DecidableEq, Repr

def bufInit : OwnedBuf := ⟨Buffer.bufInit, none⟩

def bufGrow (b : OwnedBuf) : S OwnedBuf :=
  match b.block with
  | some _ => pure b
  | none => do
    let block ← malloc .buffer
    pure { b with block := some block }

def bufAddch (b : OwnedBuf) (c : Int) : S OwnedBuf := do
  let b ← bufGrow b
  pure { b with buf := Buffer.bufAddch b.buf c }

/-- An empty string is given a block too. -/
def bufAddstr (b : OwnedBuf) (s : Text) : S OwnedBuf := do
  let b ← bufGrow b
  pure { b with buf := Buffer.bufAddstr b.buf s }

def bufRtrim (b : OwnedBuf) : OwnedBuf := { b with buf := Buffer.bufRtrim b.buf }

def bufRelease (b : OwnedBuf) : S Unit :=
  match b.block with
  | some block => free .nullPointer block
  | none => pure ()

def cfKvNew (key value : OwnedBuf) : S ℕ := do
  let key ← strdup (cstr key.buf.bytes)
  let value ← strdup (cstr value.buf.bytes)
  malloc (.kv key value)

def cfKvFree (kv : ℕ) : S Unit := do
  match ← load .nullPointer kv with
  | .kv key value => do
    free .nullPointer key
    free .nullPointer value
    free .nullPointer kv
  | _ => halt .nullPointer

def cfSectionNew (name : OwnedBuf) : S ℕ := do
  let name ← strdup (cstr name.buf.bytes)
  malloc (.sec name none)

def cfSectionFree (sec : ℕ) : S Unit := do
  match ← load .nullPointer sec with
  | .sec name entries => do
    free .nullPointer name
    listForeach cfKvFree (← heapBound) entries
    listFree (← heapBound) entries
    free .nullPointer sec
  | _ => halt .nullPointer

def cfNew : S ℕ := malloc (.cf none)

def cfFree : Option ℕ → S Unit
  | none => pure ()
  | some cf => do
    match ← load .nullPointer cf with
    | .cf sections => do
      listForeach cfSectionFree (← heapBound) sections
      listFree (← heapBound) sections
      free .nullPointer cf
    | _ => halt .nullPointer

def cfParseSectionName : ℕ → Buf → OwnedBuf → S (Bool × Buf × OwnedBuf)
  | 0, _, _ => halt .bound
  | fuel + 1, text, name =>
    let (ch, text) := bufFgetc text
    if ch < 0 then pure (false, text, name)
    else if ch = code '\n' then pure (false, text, name)
    else if ch = code ']' then pure (true, text, name)
    else do cfParseSectionName fuel text (← bufAddch name ch)

def parseValueLoop : ℕ → Buf → OwnedBuf → S (Bool × Buf × OwnedBuf)
  | 0, _, _ => halt .bound
  | fuel + 1, text, value =>
    let (ch, text) := bufFgetc text
    if ch < 0 then pure (true, text, value)
    else if ch = code '\\' then
      let (ch, text) := bufFgetc text
      if ch = code '\n' then parseValueLoop fuel text value
      else do
        let value ← bufAddch value (code '\\')
        parseValueLoop fuel text (← bufAddch value ch)
    else if ch = code '\n' then pure (true, text, value)
    else do parseValueLoop fuel text (← bufAddch value ch)

/-- The first loop stores nothing. -/
def cfParseValue (fuel : ℕ) (text : Buf) (value : OwnedBuf) : S (Bool × Buf × OwnedBuf) :=
  match skipInitialSpaces fuel text with
  | .error reason => halt reason
  | .ok text => parseValueLoop fuel text value

def cfParseKeyValuePair : ℕ → Buf → OwnedBuf → OwnedBuf →
    S (Bool × Buf × OwnedBuf × OwnedBuf)
  | 0, _, _, _ => halt .bound
  | fuel + 1, text, key, value =>
    let (ch, text) := bufFgetc text
    if ch < 0 then pure (false, text, key, value)
    else if ch = code '\n' then pure (false, text, key, value)
    else if ch = code '[' ∨ ch = code ']' then pure (false, text, key, value)
    else if ch = code '=' then do
      let (rc, text, value) ← cfParseValue (fuel + 1) text value
      pure (rc, text, bufRtrim key, value)
    else do cfParseKeyValuePair fuel text (← bufAddch key ch) value

def pushSection (cf : ℕ) : Option ℕ → S Unit
  | none => pure ()
  | some sec => do
    match ← load .nullPointer cf with
    | .cf sections => do
      let sections ← listPush sections sec
      store .nullPointer cf (.cf (some sections))
    | _ => halt .nullPointer

def attachEntry (kv : ℕ) : Option ℕ → S Unit
  | none => cfKvFree kv
  | some sec => do
    match ← load .nullPointer sec with
    | .sec name entries => do
      let entries ← listPush entries kv
      store .nullPointer sec (.sec name (some entries))
    | _ => halt .nullPointer

/-- A syntax error returns at once: the buffers of the name, the key and the value and
    the open section are left behind. -/
def parseTextLoop : ℕ → ℕ → Buf → Option ℕ → Bool → S (Bool × Buf)
  | 0, _, _, _, _ => halt .bound
  | fuel + 1, cf, text, sec, comment =>
    let (ch, text) := bufFgetc text
    if ch < 0 then do
      pushSection cf sec
      pure (true, text)
    else if ch = code '\n' then parseTextLoop fuel cf text sec false
    else if comment || isspace ch then parseTextLoop fuel cf text sec comment
    else if ch = code ';' ∨ ch = code '#' then parseTextLoop fuel cf text sec true
    else if ch = code '[' then do
      pushSection cf sec
      let (rc, text, name) ← cfParseSectionName (fuel + 1) text bufInit
      if rc then do
        let sec ← cfSectionNew name
        bufRelease name
        parseTextLoop fuel cf text (some sec) comment
      else pure (false, text)
    else if ch = code '=' then pure (false, text)
    else do
      let (_, text) := bufUngetc text ch
      let (rc, text, key, value) ← cfParseKeyValuePair (fuel + 1) text bufInit bufInit
      if rc then do
        let value := bufRtrim value
        let kv ← cfKvNew key value
        bufRelease key
        bufRelease value
        attachEntry kv sec
        parseTextLoop fuel cf text sec comment
      else pure (false, text)

def cfParseText (fuel cf : ℕ) (text : OwnedBuf) : S Bool := do
  let (rc, _) ← parseTextLoop fuel cf text.buf none false
  pure rc

def cfAddFromString (fuel cf : ℕ) (string : Text) : S Bool := do
  let text ← bufAddstr bufInit string
  let rc ← cfParseText fuel cf text
  bufRelease text
  pure rc

/-- The buffer that a file is read into, with its capacity. -/
structure FileBuf where
  sized : SizedBuf
  block : Option ℕ
  deriving DecidableEq, Repr

def FileBuf.grow (b : FileBuf) (extra : ℕ) : S FileBuf := do
  let owned ← bufGrow ⟨b.sized.buf, b.block⟩
  pure ⟨b.sized.grow extra, owned.block⟩

def FileBuf.append (b : FileBuf) (chunk : Text) : FileBuf :=
  ⟨{ b.sized with buf := { b.sized.buf with bytes := b.sized.buf.bytes ++ chunk } }, b.block⟩

def FileBuf.setlen (b : FileBuf) (len : ℕ) : FileBuf :=
  ⟨{ b.sized with buf := bufSetlen b.sized.buf len }, b.block⟩

def FileBuf.release (b : FileBuf) : S FileBuf := do
  bufRelease ⟨b.sized.buf, b.block⟩
  pure ⟨⟨Buffer.bufInit, 0⟩, none⟩

def readLoop (oldalloc oldlen : ℕ) : ℕ → FileBuf → List Event → S (Int × FileBuf)
  | 0, _, _ => halt .bound
  | fuel + 1, b, reads =>
    match tryRead b.sized.avail reads with
    | (none, _) =>
      if oldalloc ≠ 0 then pure (-1, b.setlen oldlen)
      else do
        let b ← b.release
        pure (-1, b)
    | (some [], _) => pure (narrow (b.sized.len - oldlen), b)
    | (some (first :: more), reads) => do
      let b ← (b.append (first :: more)).grow 8192
      readLoop oldalloc oldlen fuel b reads

def bufRead (fuel : ℕ) (b : FileBuf) (reads : List Event) (hint : ℕ) : S (Int × FileBuf) := do
  let grown ← b.grow (if hint ≠ 0 then hint else 8192)
  readLoop b.sized.alloc b.sized.len fuel grown reads

def bufReadFile (fuel : ℕ) (b : FileBuf) (file : File) (hint : ℕ) : S (Int × FileBuf) :=
  if !file.opens then pure (-1, b)
  else do
    let (len, b) ← bufRead fuel b file.reads hint
    if !file.closes then pure (-1, b) else pure (len, b)

/-- The buffer is not released where the file counts as unreadable. -/
def cfAddFromFile (fuel cf : ℕ) (file : File) : S Bool := do
  let (rc, text) ← bufReadFile fuel ⟨⟨Buffer.bufInit, 0⟩, none⟩ file 0
  if rc = -1 then pure false
  else do
    let text : OwnedBuf := ⟨text.sized.buf, text.block⟩
    let rc ← cfParseText fuel cf text
    bufRelease text
    pure rc

structure PlacedKv where
  cell : ℕ
  key : ℕ
  value : ℕ
  kv : CfKv

def PlacedKv.cells (p : PlacedKv) : Bindings Block :=
  {(p.cell, .kv p.key p.value)} + ({(p.key, .string p.kv.key)} + {(p.value, .string p.kv.value)})

structure PlacedSection where
  cell : ℕ
  nameCell : ℕ
  name : Text
  entries : List (ℕ × PlacedKv)

def PlacedSection.entryCells (p : PlacedSection) : Bindings Block :=
  listCells PlacedKv.cell PlacedKv.cells p.entries none

def PlacedSection.cells (p : PlacedSection) : Bindings Block :=
  {(p.cell, .sec p.nameCell (first p.entries none))} +
    ({(p.nameCell, .string p.name)} + p.entryCells)

def PlacedSection.sec (p : PlacedSection) : CfSection := ⟨p.name, p.entries.map fun x => x.2.kv⟩

structure PlacedCf where
  cell : ℕ
  sections : List (ℕ × PlacedSection)

def PlacedCf.sectionCells (p : PlacedCf) : Bindings Block :=
  listCells PlacedSection.cell PlacedSection.cells p.sections none

def PlacedCf.cells (p : PlacedCf) : Bindings Block :=
  {(p.cell, .cf (first p.sections none))} + p.sectionCells

def PlacedCf.secs (p : PlacedCf) : List CfSection := p.sections.map fun x => x.2.sec

def PlacedCf.cf (p : PlacedCf) : Cf := ⟨p.secs⟩

def OwnedBuf.cells (b : OwnedBuf) : Bindings Block :=
  match b.block with
  | some block => {(block, .buffer)}
  | none => 0

def FileBuf.cells (b : FileBuf) : Bindings Block := OwnedBuf.cells ⟨b.sized.buf, b.block⟩

/-- The cells of the open section, if there is one. -/
def openCells : Option PlacedSection → Bindings Block
  | some p => p.cells
  | none => 0

theorem entries_card (entries : List (ℕ × PlacedKv)) (last : Option ℕ) :
    (listCells PlacedKv.cell PlacedKv.cells entries last).card = 4 * entries.length := by
  induction entries with
  | nil => rfl
  | cons x entries ih =>
    simp only [listCells, PlacedKv.cells, Multiset.card_add, Multiset.card_singleton, ih,
      List.length_cons]
    omega

theorem PlacedSection.card (p : PlacedSection) : p.cells.card = 2 + 4 * p.sec.entries.length := by
  simp only [PlacedSection.cells, PlacedSection.entryCells, Multiset.card_add,
    Multiset.card_singleton, entries_card, PlacedSection.sec, List.length_map]
  omega

theorem triple_strdup {m : Bindings Block} (s : Text) :
    Triple m (strdup s) fun a m' => m' = {(a, .string s)} + m := triple_malloc _

theorem triple_cfKvNew (key value : OwnedBuf) :
    Triple 0 (cfKvNew key value) fun r m' => ∃ p : PlacedKv, r = p.cell ∧
      p.kv = Config.cfKvNew key.buf value.buf ∧ m' = p.cells := by
  apply (triple_strdup _).bind
  rintro k _ rfl
  apply (triple_strdup _).bind
  rintro v _ rfl
  apply (triple_malloc _).weaken
  rintro c _ rfl
  refine ⟨⟨c, k, v, Config.cfKvNew key.buf value.buf⟩, rfl, rfl, ?_⟩
  simp only [PlacedKv.cells, Config.cfKvNew]
  abel

theorem returns_cfKvFree (p : PlacedKv) : Returns p.cells (cfKvFree p.cell) () 0 := by
  have hmem : (p.cell, Block.kv p.key p.value) ∈ p.cells := by simp [PlacedKv.cells]
  have hkey := @returns_free Block Halt
    ({(p.cell, .kv p.key p.value)} + {(p.value, .string p.kv.value)}) .nullPointer p.key
    (.string p.kv.key)
  have hvalue := @returns_free Block Halt {(p.cell, .kv p.key p.value)} .nullPointer p.value
    (.string p.kv.value)
  have hcell := @returns_free Block Halt 0 .nullPointer p.cell (.kv p.key p.value)
  rw [add_zero] at hcell
  refine (returns_load hmem).then ?_
  refine (hkey.reorder (by simp only [PlacedKv.cells]; abel) rfl).then ?_
  exact (hvalue.reorder (add_comm _ _) rfl).then hcell

theorem triple_cfSectionNew (name : OwnedBuf) :
    Triple 0 (cfSectionNew name) fun r m' => ∃ p : PlacedSection, r = p.cell ∧
      p.sec = Config.cfSectionNew name.buf ∧ m' = p.cells := by
  apply (triple_strdup _).bind
  rintro n _ rfl
  apply (triple_malloc _).weaken
  rintro c _ rfl
  exact ⟨⟨c, n, cstr name.buf.bytes, []⟩, rfl, rfl, rfl⟩

theorem returns_cfSectionFree (p : PlacedSection) :
    Returns p.cells (cfSectionFree p.cell) () 0 := by
  have hmem : (p.cell, Block.sec p.nameCell (first p.entries none)) ∈ p.cells := by
    simp [PlacedSection.cells]
  have hname := @returns_free Block Halt
    ({(p.cell, .sec p.nameCell (first p.entries none))} + p.entryCells) .nullPointer p.nameCell
    (.string p.name)
  have hcell : Returns ({(p.cell, Block.sec p.nameCell (first p.entries none))} + 0)
      (free Halt.nullPointer p.cell) () 0 := returns_free
  rw [add_zero] at hcell
  refine (returns_load hmem).then ?_
  refine (hname.reorder (by simp only [PlacedSection.cells]; abel) rfl).then ?_
  rw [PlacedSection.entryCells, add_comm]
  exact triple_destroy (fun x _ => returns_cfKvFree x.2) hcell

theorem triple_cfNew : Triple 0 cfNew fun r m' => ∃ p : PlacedCf, r = p.cell ∧ p.secs = [] ∧
    m' = p.cells := by
  apply (triple_malloc _).weaken
  rintro c _ rfl
  exact ⟨⟨c, []⟩, rfl, rfl, rfl⟩

theorem returns_cfFree (p : PlacedCf) : Returns p.cells (cfFree (some p.cell)) () 0 := by
  have hmem : (p.cell, Block.cf (first p.sections none)) ∈ p.cells := by simp [PlacedCf.cells]
  have hcell : Returns ({(p.cell, Block.cf (first p.sections none))} + 0)
      (free Halt.nullPointer p.cell) () 0 := returns_free
  rw [add_zero] at hcell
  refine (returns_load hmem).then ?_
  rw [PlacedCf.cells, PlacedCf.sectionCells, add_comm]
  exact triple_destroy (fun x _ => returns_cfSectionFree x.2) hcell

/-- The open section becomes the last one of the list. -/
theorem triple_pushSection (p : PlacedCf) (sec : Option PlacedSection) :
    Triple (p.cells + openCells sec) (pushSection p.cell (sec.map PlacedSection.cell)) fun _ m' =>
      ∃ q : PlacedCf, q.cell = p.cell ∧
      q.secs = p.secs ++ (sec.map PlacedSection.sec).toList ∧
        m' = q.cells := by
  cases sec with
  | none => exact Triple.ret ⟨p, rfl, (List.append_nil _).symm, add_zero _⟩
  | some s =>
    have hmem : (p.cell, Block.cf (first p.sections none)) ∈ p.cells + s.cells := by
      simp [PlacedCf.cells]
    have hpush := (@triple_listPush Block _ _ PlacedSection.cell PlacedSection.cells p.sections
      s).frame {(p.cell, .cf (first p.sections none))}
    refine (returns_load hmem).then ?_
    rw [show p.cells + s.cells =
      s.cells + listCells PlacedSection.cell PlacedSection.cells p.sections none +
        {(p.cell, .cf (first p.sections none))} by
      simp only [PlacedCf.cells, PlacedCf.sectionCells]
      abel]
    apply hpush.bind
    rintro r _ ⟨_, ⟨n, rfl, hr⟩, rfl⟩
    have hstore := @returns_store Block Halt (listCells PlacedSection.cell PlacedSection.cells
      (p.sections ++ [(n, s)]) none) .nullPointer p.cell (.cf (first p.sections none))
      (.cf (some r))
    apply (Triple.weaken (hstore.reorder (add_comm _ _) rfl))
    rintro _ _ ⟨_, rfl⟩
    refine ⟨⟨p.cell, p.sections ++ [(n, s)]⟩, rfl, ?_, ?_⟩
    · simp [PlacedCf.secs]
    · rw [PlacedCf.cells, PlacedCf.sectionCells, hr]

/-- An entry goes to the open section or is freed. -/
theorem triple_attachEntry (kv : PlacedKv) (sec : Option PlacedSection) :
    Triple (kv.cells + openCells sec) (attachEntry kv.cell (sec.map PlacedSection.cell))
      fun _ m' => ∃ after : Option PlacedSection,
        after.map PlacedSection.cell = sec.map PlacedSection.cell ∧
        after.map PlacedSection.sec = Config.attachEntry kv.kv (sec.map PlacedSection.sec) ∧
        m' = openCells after := by
  cases sec with
  | none =>
    rw [openCells, add_zero]
    apply Triple.weaken (returns_cfKvFree kv)
    rintro _ _ ⟨_, rfl⟩
    exact ⟨none, rfl, rfl, rfl⟩
  | some s =>
    have hmem : (s.cell, Block.sec s.nameCell (first s.entries none)) ∈ kv.cells + s.cells := by
      simp [PlacedSection.cells]
    have hpush := (@triple_listPush Block _ _ PlacedKv.cell PlacedKv.cells s.entries kv).frame
      ({(s.cell, .sec s.nameCell (first s.entries none))} + {(s.nameCell, .string s.name)})
    refine (returns_load hmem).then ?_
    rw [show kv.cells + s.cells =
      kv.cells + listCells PlacedKv.cell PlacedKv.cells s.entries none +
        ({(s.cell, .sec s.nameCell (first s.entries none))} + {(s.nameCell, .string s.name)}) by
      simp only [PlacedSection.cells, PlacedSection.entryCells]
      abel]
    apply hpush.bind
    rintro r _ ⟨_, ⟨n, rfl, hr⟩, rfl⟩
    have hstore := @returns_store Block Halt ({(s.nameCell, .string s.name)} +
      listCells PlacedKv.cell PlacedKv.cells (s.entries ++ [(n, kv)]) none) .nullPointer s.cell
      (.sec s.nameCell (first s.entries none)) (.sec s.nameCell (some r))
    apply (Triple.weaken (hstore.reorder (by abel) rfl))
    rintro _ _ ⟨_, rfl⟩
    refine ⟨some ⟨s.cell, s.nameCell, s.name, s.entries ++ [(n, kv)]⟩, rfl, ?_, ?_⟩
    · simp [PlacedSection.sec, Config.attachEntry]
    · simp only [openCells, PlacedSection.cells, PlacedSection.entryCells, hr]

/-- A buffer has a block as soon as something was stored. -/
def OwnedBuf.Tight (b : OwnedBuf) : Prop := b.block = none ↔ b.buf.bytes = []

theorem OwnedBuf.Tight.card {b : OwnedBuf} (h : b.Tight) :
    b.cells.card = if b.buf.bytes = [] then 0 else 1 := by
  obtain ⟨buf, block⟩ := b
  cases block with
  | none => rw [if_pos (h.mp rfl)]; rfl
  | some a =>
    rw [if_neg fun he => Option.some_ne_none a (h.mpr he)]
    rfl

theorem tight_bufInit : bufInit.Tight := by simp [OwnedBuf.Tight, bufInit, Buffer.bufInit]

theorem triple_bufGrow (b : OwnedBuf) : Triple b.cells (bufGrow b) fun b' m' =>
    b'.buf = b.buf ∧ b'.block ≠ none ∧ m' = b'.cells := by
  obtain ⟨buf, block⟩ := b
  cases block with
  | none =>
    apply (triple_malloc _).bind
    rintro a _ rfl
    exact Triple.ret ⟨rfl, by simp, by simp [OwnedBuf.cells]⟩
  | some a => exact Triple.ret ⟨rfl, by simp, rfl⟩

theorem triple_bufAddch (b : OwnedBuf) (c : Int) : Triple b.cells (bufAddch b c) fun b' m' =>
    b'.buf = Buffer.bufAddch b.buf c ∧ b'.Tight ∧ m' = b'.cells := by
  apply (triple_bufGrow b).bind
  rintro b' _ ⟨hbuf, hblock, rfl⟩
  refine Triple.ret ⟨?_, ?_, rfl⟩
  · simp only [hbuf]
  · simp [OwnedBuf.Tight, hblock, Buffer.bufAddch]

theorem returns_bufRelease (b : OwnedBuf) : Returns b.cells (bufRelease b) () 0 := by
  obtain ⟨buf, block⟩ := b
  cases block with
  | none => exact Returns.ret _ _
  | some a =>
    have hfree := @returns_free Block Halt 0 .nullPointer a .buffer
    rwa [add_zero] at hfree

theorem triple_grow (b : FileBuf) (extra : ℕ) : Triple b.cells (b.grow extra) fun b' m' =>
    b'.sized = b.sized.grow extra ∧ b'.block ≠ none ∧ m' = b'.cells := by
  apply (triple_bufGrow ⟨b.sized.buf, b.block⟩).bind
  rintro b' _ ⟨_, hblock, rfl⟩
  exact Triple.ret ⟨rfl, hblock, rfl⟩

theorem FileBuf.card {b : FileBuf} (h : b.block ≠ none) : b.cells.card = 1 := by
  obtain ⟨sized, block⟩ := b
  cases block with
  | none => exact absurd rfl h
  | some a => rfl

end Pathcomp.Store
