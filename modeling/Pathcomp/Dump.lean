import Pathcomp.PlacedComposers

set_option autoImplicit false

/-!
# What a dump shows

`pathcomp_dump` prints a composer with its attributes and their alternatives, one
item a line, with the addresses of the cells. The text shows the whole state, as
long as the texts in it have no newline.
-/
namespace Pathcomp.Dump
open Bytes Buffer Values Attributes Composers Wheels Heaps Links Placement
  PlacedComposers
open Memory (Cell M valueAt attAt composerAt)

/-- `%x` takes an `unsigned int`. -/
def formatHex (n : UInt32) : Text := (Nat.toDigits 16 n.toNat).map byte

def formatFlag (flag : Bool) : Text := formatInt (if flag then 1 else 0)

def added (buf : Buf) (parts : List Text) : Buf := bufAddstr buf parts.flatten

/-- `buf_addf` with the format cut at its conversions. `vsnprintf` fails for a text whose
    length is no `int`, and then the assertion does. -/
def bufAddf (buf : Buf) (parts : List Text) : M Buf :=
  if parts.flatten.length < 2 ^ 31 then pure (added buf parts) else halt .assertion

def orNull (s : Option Text) : Text := s.getD (ascii "(null)")

/-- `list_foreach` with a buffer that the calls add to. -/
def listForeach (f : Buf → ℕ → M Buf) : ℕ → Option ℕ → Buf → M Buf
  | _, none, buf => pure buf
  | 0, some _, _ => halt .bound
  | fuel + 1, some list, buf => do
    let buf ← f buf (← listEl list)
    listForeach f fuel (← listNext list) buf

/-- `att->current ? att->current->el : NULL` -/
def currentEl : Option ℕ → M (Option ℕ)
  | none => pure none
  | some p => do pure (some (← listEl p))

section Functions
variable (place : ℕ → UInt64)

/-- `place` tells at which address a cell lies, of which `%x` shows the lower half;
    `current` is a field of `value_dump_info_t`. -/
def valueDump (current : Option ℕ) (buf : Buf) (val : ℕ) : M Buf := do
  let marker := [if some val = current then byte '*' else byte ' ']
  match ← valueAt val with
  | .string result =>
    bufAddf buf [ascii "       ", marker, ascii "string(0x", formatHex (place val).toUInt32,
      ascii ") | ", result, ascii "\n"]
  | .lua source result =>
    bufAddf buf [ascii "       ", marker, ascii "lua(0x", formatHex (place val).toUInt32,
      ascii ")    | ", orNull result, ascii " | (source:) ", source, ascii "\n"]
  | .int integer result =>
    bufAddf buf [ascii "       ", marker, ascii "int(0x", formatHex (place val).toUInt32,
      ascii ")    | ", orNull result, ascii " | (source:) ", formatInt integer, ascii "\n"]

def attDump (buf : Buf) (att : ℕ) : M Buf := do
  let a ← attAt att
  let buf ← bufAddf buf [ascii "    attribute at 0x", formatHex (place att).toUInt32, ascii "\n"]
  let buf ← bufAddf buf [ascii "      name: ", a.name, ascii "\n"]
  let buf ← bufAddf buf [ascii "      origin: ", orNull a.origin, ascii "\n"]
  let buf ← bufAddf buf [ascii "      values:\n"]
  let current ← currentEl a.current
  listForeach (valueDump place current) (← heapBound) a.alternatives buf

def pathcompDump (composer : ℕ) : M Text := do
  let c ← composerAt composer
  let buf ← bufAddf bufInit
    [ascii "composer object at 0x", formatHex (place composer).toUInt32, ascii "\n"]
  let buf ← bufAddf buf [ascii "  class: ", c.name, ascii "\n"]
  let buf ← bufAddf buf [ascii "  metatable: ", c.metatable, ascii "\n"]
  let buf ← bufAddf buf [ascii "  done: ", formatFlag c.done, ascii "\n"]
  let buf ← bufAddf buf [ascii "  started: ", formatFlag c.started, ascii "\n"]
  let buf ← bufAddf buf [ascii "  attributes:\n"]
  let buf ← listForeach (attDump place) (← heapBound) c.attributes buf
  pure (bufDetach buf)

end Functions

def blank : Value → Value
  | .string result => .string result
  | .lua source result => .lua source (some (orNull result))
  | .int integer result => .int integer (some (orNull result))

/-- Values are shown with their addresses; `current` is the position of the one that is
    marked. -/
structure ShownAtt where
  address : UInt32
  name : Text
  origin : Text
  values : List (UInt32 × Value)
  current : Option ℕ
  deriving DecidableEq, Repr

structure Picture where
  address : UInt32
  name : Text
  metatable : Text
  done : Bool
  started : Bool
  attributes : List ShownAtt
  deriving DecidableEq, Repr

def showAtt (place : ℕ → UInt64) (a : PlacedAtt) : ShownAtt where
  address := (place a.cell).toUInt32
  name := a.name
  origin := orNull a.origin
  values := a.alternatives.map fun x => ((place x.2.cell).toUInt32, blank x.2.value)
  current := a.current

/-- The state of a composer and the low halves of the addresses of its cells. -/
def picture (place : ℕ → UInt64) (c : PlacedComposer) : Picture where
  address := (place c.cell).toUInt32
  name := c.name
  metatable := c.metatable
  done := c.done
  started := c.started
  attributes := c.attributes.map fun x => showAtt place x.2

/-- The line of a value without its newline. -/
def valueLine (marked : Bool) (address : UInt32) : Value → Text
  | .string result =>
    ascii "       " ++ [if marked then byte '*' else byte ' '] ++ ascii "string(0x" ++
      formatHex address ++ ascii ") | " ++ result
  | .lua source result =>
    ascii "       " ++ [if marked then byte '*' else byte ' '] ++ ascii "lua(0x" ++
      formatHex address ++ ascii ")    | " ++ orNull result ++ ascii " | (source:) " ++ source
  | .int integer result =>
    ascii "       " ++ [if marked then byte '*' else byte ' '] ++ ascii "int(0x" ++
      formatHex address ++ ascii ")    | " ++ orNull result ++ ascii " | (source:) " ++
      formatInt integer

def ShownAtt.valueLines (a : ShownAtt) : List Text :=
  a.values.mapIdx fun i v => valueLine (some i = a.current) v.1 v.2

def ShownAtt.lines (a : ShownAtt) : List Text :=
  [ascii "    attribute at 0x" ++ formatHex a.address, ascii "      name: " ++ a.name,
    ascii "      origin: " ++ a.origin, ascii "      values:"] ++ a.valueLines

def Picture.lines (s : Picture) : List Text :=
  [ascii "composer object at 0x" ++ formatHex s.address, ascii "  class: " ++ s.name,
    ascii "  metatable: " ++ s.metatable, ascii "  done: " ++ formatFlag s.done,
    ascii "  started: " ++ formatFlag s.started, ascii "  attributes:"] ++
    s.attributes.flatMap ShownAtt.lines

def unlines (lines : List Text) : Text := lines.flatMap (· ++ ascii "\n")

def Short (lines : List Text) : Prop := ∀ line ∈ lines, line.length + 1 < 2 ^ 31

section Loop
variable {ι : Type} {cell : ι → ℕ} {own : ι → Bindings Cell} {m : Bindings Cell}

theorem reads_listForeach {f : Buf → ℕ → M Buf} {add : ι → Text} {xs : List (ℕ × ι)}
    (hm : listCells cell own xs none ≤ m)
    (hf : ∀ x ∈ xs, ∀ buf, Reads m (f buf (cell x.2)) (bufAddstr buf (add x.2))) {fuel : ℕ}
    (hfuel : xs.length ≤ fuel) (buf : Buf) :
    Reads m (listForeach f fuel (first xs none) buf)
      (bufAddstr buf (xs.flatMap fun x => add x.2)) := by
  induction xs generalizing fuel buf with
  | nil =>
    have hnil : bufAddstr buf [] = buf := by simp [bufAddstr]
    rw [List.flatMap_nil, hnil]
    cases fuel <;> exact Reads.ret m buf
  | cons x xs ih =>
    obtain ⟨n, rfl⟩ : ∃ n, fuel = n + 1 := ⟨fuel - 1, by simp at hfuel; omega⟩
    have hnode : (x.1, node (cell x.2) (first xs none)) ∈ m := Multiset.mem_of_le hm head_mem
    have hrest : listCells cell own xs none ≤ m :=
      le_trans ((Multiset.le_add_left _ _).trans (Multiset.le_add_left _ _)) hm
    have hcons : bufAddstr buf ((x :: xs).flatMap fun x => add x.2) =
        bufAddstr (bufAddstr buf (add x.2)) (xs.flatMap fun x => add x.2) := by
      simp [bufAddstr]
    rw [hcons]
    refine Reads.then ((reads_load hnode).then (Reads.ret m _)) ?_
    refine (hf x (by simp) buf).then ?_
    refine Reads.then ((reads_load hnode).then (Reads.ret m _)) ?_
    exact ih hrest (fun y hy => hf y (by simp [hy])) (by simpa using hfuel) _

end Loop

theorem values_nodup {xs : List (ℕ × PlacedValue)} {last : Option ℕ}
    (h : ((listCells PlacedValue.cell PlacedValue.cells xs last).map Prod.fst).Nodup) :
    (xs.map fun x => x.2.cell).Nodup := by
  induction xs with
  | nil => exact List.nodup_nil
  | cons x xs ih =>
    rw [listCells, Multiset.map_add, Multiset.map_add, PlacedValue.cells, Multiset.map_singleton,
      Multiset.map_singleton, Multiset.singleton_add, Multiset.nodup_cons, Multiset.singleton_add,
      Multiset.nodup_cons] at h
    rw [List.map_cons, List.nodup_cons]
    refine ⟨fun hx => h.2.1 ?_, ih h.2.2⟩
    obtain ⟨y, hy, he⟩ := List.mem_map.mp hx
    obtain ⟨front, back, rfl⟩ := List.append_of_mem hy
    have hvalue : (y.2.cell, Cell.value y.2.value) ∈
        listCells PlacedValue.cell PlacedValue.cells (front ++ y :: back) last := by
      rw [listCells_split]
      exact Multiset.mem_add.mpr (.inl (Multiset.mem_singleton_self _))
    have hcell := Multiset.mem_map_of_mem Prod.fst hvalue
    rwa [show (y.2.cell, Cell.value y.2.value).1 = x.2.cell from he] at hcell

section Run
variable (place : ℕ → UInt64) {m : Bindings Cell}

theorem reads_bufAddf {line : Text} {parts : List Text}
    (hparts : parts.flatten = line ++ ascii "\n") (hline : line.length + 1 < 2 ^ 31) (buf : Buf) :
    Reads m (bufAddf buf parts) (added buf parts) := by
  have hlength : parts.flatten.length < 2 ^ 31 := by
    rw [hparts, List.length_append]
    exact hline
  rw [bufAddf, if_pos hlength]
  exact Reads.ret m _

theorem reads_labelled (label text : Text) (h : (label ++ text).length + 1 < 2 ^ 31) (buf : Buf) :
    Reads m (bufAddf buf [label, text, ascii "\n"]) (added buf [label, text, ascii "\n"]) :=
  reads_bufAddf (by simp) h buf

theorem reads_valueDump (current : Option ℕ) {v : PlacedValue}
    (hm : (v.cell, Cell.value v.value) ∈ m)
    (hshort : (valueLine (some v.cell = current) (place v.cell).toUInt32 (blank v.value)).length + 1
      < 2 ^ 31) (buf : Buf) :
    Reads m (valueDump place current buf v.cell) (bufAddstr buf
      (valueLine (some v.cell = current) (place v.cell).toUInt32 (blank v.value) ++
      ascii "\n")) := by
  have hadd (parts : List Text) (hparts : parts.flatten =
      valueLine (some v.cell = current) (place v.cell).toUInt32 (blank v.value) ++ ascii "\n") :
      Reads m (bufAddf buf parts) (bufAddstr buf
        (valueLine (some v.cell = current) (place v.cell).toUInt32 (blank v.value) ++
          ascii "\n")) := by
    rw [← hparts]
    exact reads_bufAddf hparts hshort buf
  refine Reads.then ((reads_load hm).then (Reads.ret m v.value)) ?_
  cases hv : v.value with
  | string result =>
    rw [hv] at hadd
    exact hadd _ (by simp [valueLine, blank])
  | lua source result =>
    rw [hv] at hadd
    exact hadd _ (by simp [valueLine, blank, orNull])
  | int integer result =>
    rw [hv] at hadd
    exact hadd _ (by simp [valueLine, blank, orNull])

example : valueLine true 32 (blank (.int 7 none)) =
    ascii "       *int(0x20)    | (null) | (source:) 7" := by decide +kernel

/-- The address that `current->el` holds. -/
def currentCell (a : PlacedAtt) : Option ℕ := a.currentValue.map PlacedValue.cell

theorem marked_iff {a : PlacedAtt} (hvalid : a.att.Valid)
    (hnodup : (a.alternatives.map fun x => x.2.cell).Nodup) {i : ℕ}
    (hi : i < a.alternatives.length) :
    some a.alternatives[i].2.cell = currentCell a ↔ some i = a.current := by
  obtain ⟨p, hp, hcurrent⟩ := a.position hvalid
  have hcell : currentCell a = some a.alternatives[p].2.cell := by
    simp [currentCell, PlacedAtt.currentValue, hcurrent, hp]
  have hlen : (a.alternatives.map fun x => x.2.cell).length = a.alternatives.length :=
    List.length_map _
  have hinj := @List.Nodup.getElem_inj_iff _ _ hnodup i (by omega) p (by omega)
  rw [List.getElem_map, List.getElem_map] at hinj
  rw [hcell, hcurrent, Option.some.injEq, Option.some.injEq, hinj]

theorem valueLines_eq {a : PlacedAtt} (hvalid : a.att.Valid)
    (hnodup : (a.alternatives.map fun x => x.2.cell).Nodup) :
    (showAtt place a).valueLines = a.alternatives.map fun x =>
      valueLine (some x.2.cell = currentCell a) (place x.2.cell).toUInt32
        (blank x.2.value) := by
  apply List.ext_getElem
  · simp [ShownAtt.valueLines, showAtt]
  · intro i hi hi'
    have hlt : i < a.alternatives.length := by simpa using hi'
    simp only [ShownAtt.valueLines, showAtt, List.getElem_mapIdx, List.getElem_map]
    congr 1
    exact decide_eq_decide.mpr (marked_iff hvalid hnodup hlt).symm

theorem unlines_att {a : PlacedAtt} (hvalid : a.att.Valid)
    (hnodup : (a.alternatives.map fun x => x.2.cell).Nodup) (buf : Buf) :
    bufAddstr buf (unlines (showAtt place a).lines) =
      bufAddstr (added (added (added (added buf
          [ascii "    attribute at 0x", formatHex (place a.cell).toUInt32, ascii "\n"])
          [ascii "      name: ", a.name, ascii "\n"])
          [ascii "      origin: ", orNull a.origin, ascii "\n"])
          [ascii "      values:\n"])
        (a.alternatives.flatMap fun x => valueLine (some x.2.cell = currentCell a)
          (place x.2.cell).toUInt32 (blank x.2.value) ++ ascii "\n") := by
  have hvalues : ascii "      values:" ++ ascii "\n" = ascii "      values:\n" := by decide
  rw [unlines, ShownAtt.lines, valueLines_eq place hvalid hnodup, List.flatMap_append,
    List.flatMap_map]
  simp only [showAtt, added, bufAddstr, List.flatMap_cons, List.flatMap_nil,
    List.flatten_cons, List.flatten_nil, List.append_assoc, List.append_nil, ← hvalues]

theorem reads_currentCell {a : PlacedAtt} (hvalid : a.att.Valid) :
    Reads a.cells (currentEl a.attCell.current) (currentCell a) := by
  obtain ⟨p, hp, hcurrent⟩ := a.position hvalid
  have hpointer : a.attCell.current = some a.alternatives[p].1 := by
    simp [PlacedAtt.attCell, pointer, hcurrent, hp]
  have hcell : currentCell a = some a.alternatives[p].2.cell := by
    simp [currentCell, PlacedAtt.currentValue, hcurrent, hp]
  have hnode : (a.alternatives[p].1, node a.alternatives[p].2.cell
      (a.alternatives[p + 1]?.map Prod.fst)) ∈ a.cells :=
    Multiset.mem_add.mpr (.inr (get_mem hp))
  rw [hpointer, hcell]
  exact Reads.then ((reads_load hnode).then (Reads.ret _ _)) (Reads.ret _ _)

theorem reads_attDump {a : PlacedAtt} (hvalid : a.att.Valid)
    (hshort : Short (showAtt place a).lines)
    (buf : Buf) :
    Reads a.cells (attDump place buf a.cell) (bufAddstr buf (unlines (showAtt place a).lines)) := by
  apply Reads.ofNodup
  intro hnodup
  have hvalues : a.values ≤ a.cells := Multiset.le_add_left _ _
  have hcells : (a.alternatives.map fun x => x.2.cell).Nodup :=
    values_nodup (Multiset.nodup_of_le (Multiset.map_le_map hvalues) hnodup)
  have hvalue (x : ℕ × PlacedValue) (hx : x ∈ a.alternatives) :
      (x.2.cell, Cell.value x.2.value) ∈ a.cells := by
    obtain ⟨front, back, hsplit⟩ := List.append_of_mem hx
    refine Multiset.mem_of_le hvalues ?_
    rw [PlacedAtt.values, hsplit, listCells_split]
    exact Multiset.mem_add.mpr (.inl (Multiset.mem_singleton_self _))
  have hline (x : ℕ × PlacedValue) (hx : x ∈ a.alternatives) :
      valueLine (some x.2.cell = currentCell a) (place x.2.cell).toUInt32 (blank x.2.value) ∈
        (showAtt place a).lines := by
    refine List.mem_append.mpr (.inr ?_)
    rw [valueLines_eq place hvalid hcells]
    exact List.mem_map.mpr ⟨x, hx, rfl⟩
  have hloop := @reads_listForeach _ PlacedValue.cell PlacedValue.cells a.cells
    (valueDump place (currentCell a))
    (fun v => valueLine (some v.cell = currentCell a) (place v.cell).toUInt32
      (blank v.value) ++ ascii "\n") a.alternatives hvalues fun x hx buf =>
      reads_valueDump place _ (hvalue x hx) (hshort _ (hline x hx)) buf
  have hhead {line : Text} (hmem : line ∈ [ascii "    attribute at 0x" ++
      formatHex (place a.cell).toUInt32, ascii "      name: " ++ a.name,
      ascii "      origin: " ++ orNull a.origin, ascii "      values:"]) :
      line.length + 1 < 2 ^ 31 := hshort line (List.mem_append.mpr (.inl hmem))
  refine Reads.then ((reads_load (att_mem a)).then (Reads.ret _ _)) ?_
  refine (reads_labelled _ _ (hhead (by simp)) _).then ?_
  refine (reads_labelled _ _ (hhead (by simp [PlacedAtt.attCell])) _).then ?_
  refine (reads_labelled _ _ (hhead (by simp [PlacedAtt.attCell])) _).then ?_
  refine (reads_bufAddf (show _ = ascii "      values:" ++ ascii "\n" by decide)
    (hhead (by simp)) _).then ?_
  refine (reads_currentCell hvalid).then ?_
  apply reads_heapBound
  intro fuel hfuel
  have hlen := @length_le_card _ _ _ PlacedValue.cell PlacedValue.cells a.alternatives none
  have hcard := Multiset.card_le_card hvalues
  rw [unlines_att place hvalid hcells]
  exact hloop (hlen.trans (hcard.trans hfuel)) _

theorem unlines_picture (c : PlacedComposer) :
    unlines (picture place c).lines =
      bufDetach (bufAddstr (added (added (added (added (added (added bufInit
          [ascii "composer object at 0x", formatHex (place c.cell).toUInt32, ascii "\n"])
          [ascii "  class: ", c.name, ascii "\n"])
          [ascii "  metatable: ", c.metatable, ascii "\n"])
          [ascii "  done: ", formatFlag c.done, ascii "\n"])
          [ascii "  started: ", formatFlag c.started, ascii "\n"])
          [ascii "  attributes:\n"])
        (c.attributes.flatMap fun x => unlines (showAtt place x.2).lines)) := by
  have hattributes : ascii "  attributes:" ++ ascii "\n" = ascii "  attributes:\n" := by decide
  rw [unlines, Picture.lines, List.flatMap_append, List.flatMap_assoc]
  simp only [picture, bufDetach, bufInit, added, bufAddstr, unlines,
    List.flatMap_map, List.flatMap_cons, List.flatMap_nil, List.flatten_cons, List.flatten_nil,
    List.append_assoc, List.append_nil, List.nil_append, ← hattributes]

theorem reads_pathcompDump {c : PlacedComposer} (hvalid : AllValid c.composer.attributes)
    (hshort : Short (picture place c).lines) :
    Reads c.cells (pathcompDump place c.cell) (unlines (picture place c).lines) := by
  have hatts : c.atts ≤ c.cells := Multiset.le_add_left _ _
  have hloop := @reads_listForeach _ PlacedAtt.cell PlacedAtt.cells c.cells
    (attDump place) (fun a => unlines (showAtt place a).lines) c.attributes hatts fun x hx buf => by
      have hle : x.2.cells ≤ c.atts := by
        obtain ⟨front, back, hsplit⟩ := List.append_of_mem hx
        rw [PlacedComposer.atts, hsplit, listCells_split]
        exact Multiset.le_add_right _ _
      have hatt : x.2.att.Valid := hvalid x.2.att (List.mem_map_of_mem hx)
      have hlines : Short (showAtt place x.2).lines := fun line hline =>
        hshort line (List.mem_append.mpr (.inr (List.mem_flatMap.mpr
          ⟨_, List.mem_map.mpr ⟨x, hx, rfl⟩, hline⟩)))
      exact (reads_attDump place hatt hlines buf).mono (hle.trans hatts)
  have hhead {line : Text} (hmem : line ∈ [ascii "composer object at 0x" ++
      formatHex (place c.cell).toUInt32, ascii "  class: " ++ c.name,
      ascii "  metatable: " ++ c.metatable, ascii "  done: " ++ formatFlag c.done,
      ascii "  started: " ++ formatFlag c.started, ascii "  attributes:"]) :
      line.length + 1 < 2 ^ 31 := hshort line (List.mem_append.mpr (.inl hmem))
  refine Reads.then ((reads_load (composer_mem c)).then (Reads.ret _ _)) ?_
  refine (reads_labelled _ _ (hhead (by simp)) _).then ?_
  refine (reads_labelled _ _ (hhead (by simp [PlacedComposer.composerCell])) _).then ?_
  refine (reads_labelled _ _ (hhead (by simp [PlacedComposer.composerCell])) _).then ?_
  refine (reads_labelled _ _ (hhead (by simp [PlacedComposer.composerCell])) _).then ?_
  refine (reads_labelled _ _ (hhead (by simp [PlacedComposer.composerCell])) _).then ?_
  refine (reads_bufAddf (show _ = ascii "  attributes:" ++ ascii "\n" by decide)
    (hhead (by simp)) _).then ?_
  apply reads_heapBound
  intro fuel hfuel
  rw [unlines_picture]
  refine (hloop ((atts_length_le c).trans hfuel) _).then ?_
  exact Reads.ret _ _

end Run

theorem digit_inj {d e : ℕ} (hd : d < 16) (he : e < 16)
    (h : byte (Nat.digitChar d) = byte (Nat.digitChar e)) : d = e := by
  have hall : ∀ i j : Fin 16, byte (Nat.digitChar i) = byte (Nat.digitChar j) →
      i = j := by decide
  exact congrArg Fin.val (hall ⟨d, hd⟩ ⟨e, he⟩ h)

section Numerals
variable {b : ℕ} (hb : 1 < b) (hb' : b ≤ 16)
include hb hb'

theorem numeral_inj {n m : ℕ}
    (h : (Nat.toDigits b n).map byte = (Nat.toDigits b m).map byte) : n = m := by
  induction n using Nat.strong_induction_on generalizing m with
  | _ n ih =>
    rw [@Nat.toDigits_eq_if b n hb, @Nat.toDigits_eq_if b m hb] at h
    by_cases hn : n < b
    · by_cases hm : m < b
      · rw [if_pos hn, if_pos hm, List.map_singleton, List.map_singleton, List.singleton_inj] at h
        exact digit_inj (by omega) (by omega) h
      · rw [if_pos hn, if_neg hm] at h
        have hlen := congrArg List.length h
        have hpos := @Nat.length_toDigits_pos b (m / b)
        simp only [List.length_map, List.length_append, List.length_singleton] at hlen
        omega
    · by_cases hm : m < b
      · rw [if_neg hn, if_pos hm] at h
        have hlen := congrArg List.length h
        have hpos := @Nat.length_toDigits_pos b (n / b)
        simp only [List.length_map, List.length_append, List.length_singleton] at hlen
        omega
      · rw [if_neg hn, if_neg hm, List.map_append, List.map_append, List.map_singleton,
          List.map_singleton] at h
        obtain ⟨hfront, hlast⟩ := List.append_inj' h rfl
        have hdiv := ih (n / b) (Nat.div_lt_self (by omega) hb) hfront
        have hmod := digit_inj (Nat.lt_of_lt_of_le (Nat.mod_lt n (by omega)) hb')
          (Nat.lt_of_lt_of_le (Nat.mod_lt m (by omega)) hb') (List.singleton_inj.mp hlast)
        rw [← Nat.div_add_mod n b, ← Nat.div_add_mod m b, hdiv, hmod]

theorem mem_numeral {n : ℕ} {x : UInt8} (hx : x ∈ (Nat.toDigits b n).map byte) :
    x ∈ ascii "0123456789abcdef" := by
  have hdigit : ∀ i : Fin 16, byte (Nat.digitChar i) ∈ ascii "0123456789abcdef" := by decide
  induction n using Nat.strong_induction_on with
  | _ n ih =>
    rw [@Nat.toDigits_eq_if b n hb] at hx
    by_cases hn : n < b
    · rw [if_pos hn, List.map_singleton, List.mem_singleton] at hx
      rw [hx]
      exact hdigit ⟨n, by omega⟩
    · rw [if_neg hn, List.map_append, List.mem_append, List.map_singleton,
        List.mem_singleton] at hx
      rcases hx with hx | hx
      · exact ih (n / b) (Nat.div_lt_self (by omega) hb) hx
      · rw [hx]
        exact hdigit ⟨n % b, Nat.lt_of_lt_of_le (Nat.mod_lt n (by omega)) hb'⟩

end Numerals

theorem formatHex_inj {n m : UInt32} (h : formatHex n = formatHex m) : n = m :=
  UInt32.toNat_inj.mp (numeral_inj (by decide) (by decide) h)

theorem formatHex_notMem {x : UInt8} (hx : x ∉ ascii "0123456789abcdef") (n : UInt32) :
    x ∉ formatHex n :=
  fun h => hx (mem_numeral (by decide) (by decide) h)

theorem formatInt_inj {n m : Int32} (h : formatInt n = formatInt m) : n = m := by
  have hminus (k : ℕ) : byte '-' ∉ (Nat.toDigits 10 k).map byte :=
    fun hk => absurd (mem_numeral (by decide) (by decide) hk) (by decide)
  have habs {k l : ℕ}
      (hkl : (Nat.toDigits 10 k).map byte = (Nat.toDigits 10 l).map byte) : k = l :=
    numeral_inj (by decide) (by decide) hkl
  apply Int32.toInt_inj.mp
  unfold formatInt at h
  by_cases hn : n.toInt < 0
  · by_cases hm : m.toInt < 0
    · rw [if_pos hn, if_pos hm, List.cons_inj_right] at h
      have := habs h
      omega
    · rw [if_pos hn, if_neg hm] at h
      exact absurd (h ▸ List.mem_cons_self) (hminus _)
  · by_cases hm : m.toInt < 0
    · rw [if_neg hn, if_pos hm] at h
      exact absurd (h ▸ List.mem_cons_self) (hminus _)
    · rw [if_neg hn, if_neg hm] at h
      have := habs h
      omega

theorem formatInt_notMem {x : UInt8} (hx : x ∉ ascii "-0123456789abcdef") (n : Int32) :
    x ∉ formatInt n := by
  have hcons : ascii "-0123456789abcdef" = byte '-' :: ascii "0123456789abcdef" := by decide
  rw [hcons, List.mem_cons, not_or] at hx
  have hdigits (k : ℕ) : x ∉ (Nat.toDigits 10 k).map byte :=
    fun h => hx.2 (mem_numeral (by decide) (by decide) h)
  unfold formatInt
  split
  · rw [List.mem_cons, not_or]
    exact ⟨hx.1, hdigits _⟩
  · exact hdigits _

theorem formatFlag_inj {x y : Bool} (h : formatFlag x = formatFlag y) : x = y := by
  have hall : ∀ a b : Bool, formatFlag a = formatFlag b → a = b := by decide
  exact hall x y h

def newline : UInt8 := byte '\n'

def bar : UInt8 := byte '|'

theorem split_first {c : UInt8} {x y u v : Text} (hx : c ∉ x) (hy : c ∉ y)
    (h : x ++ c :: u = y ++ c :: v) : x = y ∧ u = v := by
  induction x generalizing y with
  | nil =>
    cases y with
    | nil => exact ⟨rfl, (List.cons.inj h).2⟩
    | cons b y => exact absurd (List.cons.inj h).1 (fun he => hy (he ▸ List.mem_cons_self))
  | cons a x ih =>
    cases y with
    | nil => exact absurd (List.cons.inj h).1 (fun he => hx (he ▸ List.mem_cons_self))
    | cons b y =>
      obtain ⟨rfl, htail⟩ := List.cons.inj h
      obtain ⟨rfl, huv⟩ := ih (fun hc => hx (List.mem_cons_of_mem _ hc))
        (fun hc => hy (List.mem_cons_of_mem _ hc)) htail
      exact ⟨rfl, huv⟩

theorem unlines_inj {xs ys : List Text} (hx : ∀ l ∈ xs, newline ∉ l)
    (hy : ∀ l ∈ ys, newline ∉ l) (h : unlines xs = unlines ys) : xs = ys := by
  have hcons (l : Text) (ls : List Text) : unlines (l :: ls) = l ++ newline :: unlines ls := by
    have hend : ascii "\n" = [newline] := by decide
    rw [unlines, List.flatMap_cons, hend, List.append_assoc]
    rfl
  induction xs generalizing ys with
  | nil =>
    cases ys with
    | nil => rfl
    | cons y ys =>
      rw [hcons] at h
      cases y <;> cases h
  | cons x xs ih =>
    cases ys with
    | nil =>
      rw [hcons] at h
      cases x <;> cases h
    | cons y ys =>
      rw [hcons, hcons] at h
      obtain ⟨rfl, hrest⟩ := split_first (hx x (by simp)) (hy y (by simp)) h
      rw [ih (fun l hl => hx l (by simp [hl])) (fun l hl => hy l (by simp [hl])) hrest]

/-- A value whose line can be read back. -/
def PlainValue : Value → Prop
  | .string result => newline ∉ result
  | .lua source result =>
    newline ∉ source ∧ ∃ s, result = some s ∧ newline ∉ s ∧ bar ∉ s
  | .int _ result => ∃ s, result = some s ∧ newline ∉ s ∧ bar ∉ s

/-- What follows the mark in the line of a value. -/
def valueBody (address : UInt32) : Value → Text
  | .string result => ascii "string(0x" ++ (formatHex address ++ (ascii ") | " ++ result))
  | .lua source result => ascii "lua(0x" ++ (formatHex address ++
      (ascii ")    | " ++ (orNull result ++ (ascii " | (source:) " ++ source))))
  | .int integer result => ascii "int(0x" ++ (formatHex address ++
      (ascii ")    | " ++ (orNull result ++ (ascii " | (source:) " ++ formatInt integer))))

theorem valueLine_eq (marked : Bool) (address : UInt32) (v : Value) :
    valueLine marked address v =
      ascii "       " ++ (if marked then byte '*' else byte ' ') :: valueBody address v := by
  cases v <;> simp [valueLine, valueBody]

theorem address_inj {x y : UInt32} {u v : Text}
    (h : formatHex x ++ byte ')' :: u = formatHex y ++ byte ')' :: v) : x = y ∧ u = v := by
  obtain ⟨hx, huv⟩ := split_first (formatHex_notMem (by decide) x)
    (formatHex_notMem (by decide) y) h
  exact ⟨formatHex_inj hx, huv⟩

theorem source_inj {r s u v : Text} (hr : bar ∉ r) (hs : bar ∉ s)
    (h : r ++ (ascii " | (source:) " ++ u) = s ++ (ascii " | (source:) " ++ v)) :
    r = s ∧ u = v := by
  have hblank : bar ∉ [byte ' '] := by decide
  have hcut (w : Text) : ascii " | (source:) " ++ w =
      byte ' ' :: bar :: (ascii " (source:) " ++ w) := by
    rw [show ascii " | (source:) " = byte ' ' :: bar :: ascii " (source:) " by decide]
    rfl
  rw [hcut, hcut, List.append_cons r, List.append_cons s] at h
  obtain ⟨hresult, hrest⟩ := split_first
    (fun hc => (List.mem_append.mp hc).elim hr hblank)
    (fun hc => (List.mem_append.mp hc).elim hs hblank) h
  exact ⟨List.append_cancel_right hresult, List.append_cancel_left hrest⟩

theorem valueBody_inj {x y : UInt32} {v w : Value} (hv : PlainValue v) (hw : PlainValue w)
    (h : valueBody x v = valueBody y w) : x = y ∧ v = w := by
  have hstring : ascii "string(0x" = byte 's' :: ascii "tring(0x" := by decide
  have hlua : ascii "lua(0x" = byte 'l' :: ascii "ua(0x" := by decide
  have hint : ascii "int(0x" = byte 'i' :: ascii "nt(0x" := by decide
  have hshort : ascii ") | " = byte ')' :: ascii " | " := by decide
  have hlong : ascii ")    | " = byte ')' :: ascii "    | " := by decide
  have hkinds : byte 's' ≠ byte 'l' ∧ byte 's' ≠ byte 'i' ∧
      byte 'l' ≠ byte 'i' := by decide
  cases v with
  | string r =>
    cases w with
    | string s =>
      rw [valueBody, valueBody, hshort] at h
      obtain ⟨rfl, hrest⟩ := address_inj (List.append_cancel_left h)
      exact ⟨rfl, congrArg Value.string (List.append_cancel_left hrest)⟩
    | lua source s =>
      rw [valueBody, valueBody, hstring, hlua] at h
      exact absurd (List.cons.inj h).1 hkinds.1
    | int integer s =>
      rw [valueBody, valueBody, hstring, hint] at h
      exact absurd (List.cons.inj h).1 hkinds.2.1
  | lua source r =>
    cases w with
    | string s =>
      rw [valueBody, valueBody, hstring, hlua] at h
      exact absurd (List.cons.inj h).1.symm hkinds.1
    | lua source' s =>
      obtain ⟨_, r, rfl, _, hr⟩ := hv
      obtain ⟨_, s, rfl, _, hs⟩ := hw
      rw [valueBody, valueBody, hlong] at h
      obtain ⟨rfl, hrest⟩ := address_inj (List.append_cancel_left h)
      obtain ⟨rfl, rfl⟩ := source_inj hr hs (List.append_cancel_left hrest)
      exact ⟨rfl, rfl⟩
    | int integer s =>
      rw [valueBody, valueBody, hlua, hint] at h
      exact absurd (List.cons.inj h).1 hkinds.2.2
  | int integer r =>
    cases w with
    | string s =>
      rw [valueBody, valueBody, hstring, hint] at h
      exact absurd (List.cons.inj h).1.symm hkinds.2.1
    | lua source s =>
      rw [valueBody, valueBody, hlua, hint] at h
      exact absurd (List.cons.inj h).1.symm hkinds.2.2
    | int integer' s =>
      obtain ⟨r, rfl, _, hr⟩ := hv
      obtain ⟨s, rfl, _, hs⟩ := hw
      rw [valueBody, valueBody, hlong] at h
      obtain ⟨rfl, hrest⟩ := address_inj (List.append_cancel_left h)
      obtain ⟨rfl, hinteger⟩ := source_inj hr hs (List.append_cancel_left hrest)
      exact ⟨rfl, congrArg (Value.int · _) (formatInt_inj hinteger)⟩

theorem valueLine_inj {p q : Bool} {x y : UInt32} {v w : Value} (hv : PlainValue v)
    (hw : PlainValue w) (h : valueLine p x v = valueLine q y w) : p = q ∧ x = y ∧ v = w := by
  have hmarks : ∀ a b : Bool, (if a then byte '*' else byte ' ') =
      (if b then byte '*' else byte ' ') → a = b := by decide
  rw [valueLine_eq, valueLine_eq] at h
  obtain ⟨hmark, hbody⟩ := List.cons.inj (List.append_cancel_left h)
  exact ⟨hmarks p q hmark, valueBody_inj hv hw hbody⟩

theorem valueLine_newline {p : Bool} {x : UInt32} {v : Value} (hv : PlainValue v) :
    newline ∉ valueLine p x v := by
  have hhex := formatHex_notMem (show newline ∉ ascii "0123456789abcdef" by decide) x
  have hmark : newline ≠ if p then byte '*' else byte ' ' := by cases p <;> decide
  rw [valueLine_eq]
  cases v with
  | string r =>
    simp only [valueBody, List.mem_append, List.mem_cons, not_or]
    exact ⟨by decide, hmark, by decide, hhex, by decide, hv⟩
  | lua source r =>
    obtain ⟨hsource, r, rfl, hr, _⟩ := hv
    simp only [valueBody, List.mem_append, List.mem_cons, not_or]
    exact ⟨by decide, hmark, by decide, hhex, by decide, hr, by decide, hsource⟩
  | int integer r =>
    obtain ⟨r, rfl, hr, _⟩ := hv
    simp only [valueBody, List.mem_append, List.mem_cons, not_or]
    exact ⟨by decide, hmark, by decide, hhex, by decide, hr, by decide,
      formatInt_notMem (by decide) integer⟩

/-- An attribute whose lines can be read back. -/
structure ShownAtt.Plain (a : ShownAtt) : Prop where
  name : newline ∉ a.name
  origin : newline ∉ a.origin
  values : ∀ v ∈ a.values, PlainValue v.2
  current : ∃ p < a.values.length, a.current = some p

structure Picture.Plain (s : Picture) : Prop where
  name : newline ∉ s.name
  metatable : newline ∉ s.metatable
  attributes : ∀ a ∈ s.attributes, a.Plain

theorem valueLines_inj {a b : ShownAtt} (ha : a.Plain) (hb : b.Plain)
    (h : a.valueLines = b.valueLines) : a.values = b.values ∧ a.current = b.current := by
  have hlen : a.values.length = b.values.length := by
    simpa [ShownAtt.valueLines] using congrArg List.length h
  have hline (i : ℕ) (hi : i < a.values.length) (hi' : i < b.values.length) :
      decide (some i = a.current) = decide (some i = b.current) ∧ a.values[i] = b.values[i] := by
    have hget := List.getElem_of_eq h (show i < a.valueLines.length by
      rw [ShownAtt.valueLines, List.length_mapIdx]
      exact hi)
    simp only [ShownAtt.valueLines, List.getElem_mapIdx] at hget
    obtain ⟨hmark, haddress, hvalue⟩ := valueLine_inj (ha.values _ (List.getElem_mem hi))
      (hb.values _ (List.getElem_mem hi')) hget
    exact ⟨hmark, Prod.ext haddress hvalue⟩
  refine ⟨List.ext_getElem hlen fun i hi hi' => (hline i hi hi').2, ?_⟩
  obtain ⟨p, hp, hcurrent⟩ := ha.current
  obtain ⟨hmark, _⟩ := hline p hp (hlen ▸ hp)
  rw [decide_eq_decide, hcurrent] at hmark
  rw [hcurrent, hmark.mp rfl]

/-- Lines of values are indented further than those of attributes. -/
def isValueLine (line : Text) : Bool := (ascii "       ").isPrefixOf line

theorem isValueLine_value (a : ShownAtt) : ∀ line ∈ a.valueLines, isValueLine line := by
  intro line hline
  obtain ⟨i, hi, rfl⟩ := List.mem_mapIdx.mp hline
  rw [valueLine_eq]
  exact List.isPrefixOf_iff_prefix.mpr (List.prefix_append _ _)

theorem takeWhile_atts (as : List ShownAtt) :
    (as.flatMap ShownAtt.lines).takeWhile isValueLine = [] := by
  cases as with
  | nil => rfl
  | cons a as =>
    have hhead : isValueLine (ascii "    attribute at 0x" ++ formatHex a.address) = false := by
      rw [show ascii "    attribute at 0x" = ascii "    a" ++ ascii "ttribute at 0x" by decide,
        List.append_assoc]
      rfl
    simp only [List.flatMap_cons, ShownAtt.lines, List.cons_append, List.takeWhile_cons, hhead]
    rfl

theorem atts_inj {as bs : List ShownAtt} (ha : ∀ a ∈ as, a.Plain) (hb : ∀ b ∈ bs, b.Plain)
    (h : as.flatMap ShownAtt.lines = bs.flatMap ShownAtt.lines) : as = bs := by
  induction as generalizing bs with
  | nil =>
    cases bs with
    | nil => rfl
    | cons b bs => cases h
  | cons a as ih =>
    cases bs with
    | nil => cases h
    | cons b bs =>
      have hplain := ha a List.mem_cons_self
      have hplain' := hb b List.mem_cons_self
      simp only [List.flatMap_cons, ShownAtt.lines, List.cons_append, List.nil_append,
        List.cons.injEq] at h
      obtain ⟨haddress, hname, horigin, _, htail⟩ := h
      have hvalues := congrArg (List.takeWhile isValueLine) htail
      rw [List.takeWhile_append_of_pos (isValueLine_value a),
        List.takeWhile_append_of_pos (isValueLine_value b), takeWhile_atts, takeWhile_atts,
        List.append_nil, List.append_nil] at hvalues
      rw [hvalues] at htail
      obtain ⟨hvals, hcurrent⟩ := valueLines_inj hplain hplain' hvalues
      have hsame : a = b := by
        cases a
        cases b
        simp only [ShownAtt.mk.injEq]
        exact ⟨formatHex_inj (List.append_cancel_left haddress), List.append_cancel_left hname,
          List.append_cancel_left horigin, hvals, hcurrent⟩
      rw [hsame, ih (fun x hx => ha x (List.mem_cons_of_mem _ hx))
        (fun x hx => hb x (List.mem_cons_of_mem _ hx)) (List.append_cancel_left htail)]

theorem lines_newline {s : Picture} (hs : s.Plain) : ∀ line ∈ s.lines, newline ∉ line := by
  have hhex := @formatHex_notMem newline (by decide)
  have hflag (x : Bool) : newline ∉ formatFlag x := formatInt_notMem (by decide) _
  have hatt (a : ShownAtt) (ha : a.Plain) : ∀ line ∈ a.lines, newline ∉ line := by
    intro line hline
    rcases List.mem_append.mp hline with hline | hline
    · have hcases : line = ascii "    attribute at 0x" ++ formatHex a.address ∨
          line = ascii "      name: " ++ a.name ∨ line = ascii "      origin: " ++ a.origin ∨
          line = ascii "      values:" := by simpa using hline
      rcases hcases with rfl | rfl | rfl | rfl
      · exact fun hc => (List.mem_append.mp hc).elim (by decide) (hhex _)
      · exact fun hc => (List.mem_append.mp hc).elim (by decide) ha.name
      · exact fun hc => (List.mem_append.mp hc).elim (by decide) ha.origin
      · decide
    · obtain ⟨i, hi, rfl⟩ := List.mem_mapIdx.mp hline
      exact valueLine_newline (ha.values _ (List.getElem_mem hi))
  intro line hline
  rcases List.mem_append.mp hline with hline | hline
  · have hcases : line = ascii "composer object at 0x" ++ formatHex s.address ∨
        line = ascii "  class: " ++ s.name ∨ line = ascii "  metatable: " ++ s.metatable ∨
        line = ascii "  done: " ++ formatFlag s.done ∨
        line = ascii "  started: " ++ formatFlag s.started ∨ line = ascii "  attributes:" := by
      simpa using hline
    rcases hcases with rfl | rfl | rfl | rfl | rfl | rfl
    · exact fun hc => (List.mem_append.mp hc).elim (by decide) (hhex _)
    · exact fun hc => (List.mem_append.mp hc).elim (by decide) hs.name
    · exact fun hc => (List.mem_append.mp hc).elim (by decide) hs.metatable
    · exact fun hc => (List.mem_append.mp hc).elim (by decide) (hflag _)
    · exact fun hc => (List.mem_append.mp hc).elim (by decide) (hflag _)
    · decide
  · obtain ⟨a, ha, hline⟩ := List.mem_flatMap.mp hline
    exact hatt a (hs.attributes a ha) line hline

theorem picture_inj {s t : Picture} (hs : s.Plain) (ht : t.Plain)
    (h : unlines s.lines = unlines t.lines) : s = t := by
  have hlines := unlines_inj (lines_newline hs) (lines_newline ht) h
  simp only [Picture.lines, List.cons_append, List.nil_append, List.cons.injEq] at hlines
  obtain ⟨haddress, hname, hmetatable, hdone, hstarted, _, hatts⟩ := hlines
  cases s
  cases t
  simp only [Picture.mk.injEq]
  exact ⟨formatHex_inj (List.append_cancel_left haddress), List.append_cancel_left hname,
    List.append_cancel_left hmetatable, formatFlag_inj (List.append_cancel_left hdone),
    formatFlag_inj (List.append_cancel_left hstarted), atts_inj hs.attributes ht.attributes hatts⟩

/-- A composer with the texts that are printed for NULL. -/
def nullsPrinted (c : Composer) : Composer :=
  { c with attributes := c.attributes.map fun att =>
      { att with alternatives := att.alternatives.map blank, origin := some (orNull att.origin) } }

/-- The addresses that are printed, of the composer and of the attributes with their
    values. -/
def addresses (place : ℕ → UInt64) (c : PlacedComposer) :
    UInt32 × List (UInt32 × List UInt32) :=
  ((place c.cell).toUInt32, c.attributes.map fun x =>
    ((place x.2.cell).toUInt32, x.2.alternatives.map fun y => (place y.2.cell).toUInt32))

/-- No text of the composer has a newline, and no cached result has a bar. -/
structure Printable (c : Composer) : Prop where
  name : newline ∉ c.name
  metatable : newline ∉ c.metatable
  names : ∀ att ∈ c.attributes, newline ∉ att.name
  origins : ∀ att ∈ c.attributes, newline ∉ orNull att.origin
  values : ∀ att ∈ c.attributes, ∀ v ∈ att.alternatives, PlainValue (blank v)

theorem picture_plain (place : ℕ → UInt64) {c : PlacedComposer}
    (hvalid : AllValid c.composer.attributes) (hc : Printable c.composer) :
    (picture place c).Plain := by
  refine ⟨hc.name, hc.metatable, fun a ha => ?_⟩
  obtain ⟨x, hx, rfl⟩ := List.mem_map.mp ha
  have hatt : x.2.att ∈ c.composer.attributes := List.mem_map_of_mem hx
  refine ⟨hc.names _ hatt, hc.origins _ hatt, fun v hv => ?_, ?_⟩
  · obtain ⟨y, hy, rfl⟩ := List.mem_map.mp hv
    exact hc.values _ hatt _ (List.mem_map_of_mem hy)
  · obtain ⟨p, hp, hcurrent⟩ := x.2.position (hvalid _ hatt)
    exact ⟨p, by simpa [showAtt] using hp, hcurrent⟩

theorem map_pair_inj {α β γ : Type} {f : α → β} {g : α → γ}
    (hinj : ∀ x y, f x = f y → g x = g y → x = y) {xs ys : List α} (hf : xs.map f = ys.map f)
    (hg : xs.map g = ys.map g) : xs = ys := by
  induction xs generalizing ys with
  | nil =>
    cases ys with
    | nil => rfl
    | cons y ys => cases hf
  | cons x xs ih =>
    cases ys with
    | nil => cases hf
    | cons y ys =>
      simp only [List.map_cons, List.cons.injEq] at hf hg
      rw [hinj x y hf.1 hg.1, ih hf.2 hg.2]

def Picture.composer (s : Picture) : Composer where
  name := s.name
  attributes := s.attributes.map fun a =>
    ⟨a.name, a.values.map Prod.snd, a.current, some a.origin⟩
  metatable := s.metatable
  done := s.done
  started := s.started

def Picture.addresses (s : Picture) : UInt32 × List (UInt32 × List UInt32) :=
  (s.address, s.attributes.map fun a => (a.address, a.values.map Prod.fst))

theorem picture_ext {s t : Picture} (hcomposer : s.composer = t.composer)
    (haddresses : s.addresses = t.addresses) : s = t := by
  cases s
  cases t
  simp only [Picture.composer, Picture.addresses, Composer.mk.injEq,
    Prod.mk.injEq] at hcomposer haddresses
  obtain ⟨rfl, hatts, rfl, rfl, rfl⟩ := hcomposer
  obtain ⟨rfl, hplaces⟩ := haddresses
  congr 1
  refine map_pair_inj (fun a b hab hab' => ?_) hatts hplaces
  cases a
  cases b
  simp only [Att.mk.injEq, Prod.mk.injEq, Option.some.injEq] at hab hab'
  obtain ⟨rfl, hvalues, rfl, rfl⟩ := hab
  obtain ⟨rfl, hcells⟩ := hab'
  congr 1
  exact map_pair_inj (fun x y hx hy => Prod.ext hy hx) hvalues hcells

theorem picture_composer (place : ℕ → UInt64) (c : PlacedComposer) :
    (picture place c).composer = nullsPrinted c.composer := by
  simp [Picture.composer, picture, showAtt, nullsPrinted, PlacedComposer.composer, PlacedAtt.att]

theorem picture_addresses (place : ℕ → UInt64) (c : PlacedComposer) :
    (picture place c).addresses = addresses place c := by
  simp [Picture.addresses, picture, showAtt, addresses]

/-- A dump leaves the memory as it is, and the dumps of two printable composers are the
    same text if and only if the composers are the same, up to the text for NULL, and lie
    at the same printed addresses. -/
theorem dump_shows_composer (place place' : ℕ → UInt64) (p q : PlacedComposer)
    (h h' : Heap Cell)
    (hp : Holds h p.cells) (hq : Holds h' q.cells) (hvalid : AllValid p.composer.attributes)
    (hvalid' : AllValid q.composer.attributes) (hshort : Short (picture place p).lines)
    (hshort' : Short (picture place' q).lines) :
    ∃ s t, pathcompDump place p.cell h = .ok (s, h) ∧
    pathcompDump place' q.cell h' = .ok (t, h') ∧
      (Printable p.composer → Printable q.composer →
        (s = t ↔ nullsPrinted p.composer = nullsPrinted q.composer ∧
          addresses place p = addresses place' q)) := by
  refine ⟨_, _, reads_pathcompDump place hvalid hshort h hp,
    reads_pathcompDump place' hvalid' hshort' h' hq, fun hprintable hprintable' => ?_⟩
  rw [← picture_composer place p, ← picture_composer place' q, ← picture_addresses,
    ← picture_addresses]
  constructor
  · intro htext
    rw [picture_inj (picture_plain place hvalid hprintable)
      (picture_plain place' hvalid' hprintable') htext]
    exact ⟨rfl, rfl⟩
  · rintro ⟨hcomposer, haddresses⟩
    rw [picture_ext hcomposer haddresses]

def rootsAtt (current : ℕ) : PlacedAtt :=
  ⟨4, ascii "root", [(1, ⟨0, .string (ascii "/usr")⟩), (3, ⟨2, .int 7 none⟩)],
    some current, none⟩

/-- A composer with one attribute that has two alternatives. -/
def rootsAt (current : ℕ) : PlacedComposer :=
  ⟨6, ascii "data", [(5, rootsAtt current)], ascii "libpathcomp::data", false, false⟩

theorem rootsAt_holds (current : ℕ) : ∃ h, Holds h (rootsAt current).cells := by
  have hcells : (rootsAt current).cells =
      {(6, .composer (rootsAt current).composerCell)} + ({(5, node 4 none)} +
        ({(4, .att (rootsAtt current).attCell)} + ({(3, node 2 none)} +
          ({(2, .value (.int 7 none))} + ({(1, node 0 (some 3))} +
            ({(0, .value (.string (ascii "/usr")))} + 0)))))) := by
    simp only [PlacedComposer.cells, PlacedComposer.atts, rootsAt, listCells, PlacedAtt.cells,
      PlacedAtt.values, first]
    simp only [rootsAtt, listCells, PlacedValue.cells, first]
    abel
  rw [hcells]
  have hempty := holds_zero (Heap.empty : Heap Cell)
  exact ⟨_, ((((((hempty.grow _).grow _).grow _).grow _).grow _).grow _).grow _⟩

/-- The dumps tell which of the alternatives is current. -/
theorem dump_shows_composer_roots : ∃ h h' s t,
    pathcompDump (fun a => UInt64.ofNat (16 * a)) (rootsAt 0).cell h = .ok (s, h) ∧
      pathcompDump (fun a => UInt64.ofNat (16 * a)) (rootsAt 1).cell h' = .ok (t, h') ∧
      s ≠ t := by
  have hvalid (current : ℕ) (hlt : current < 2) :
      AllValid (rootsAt current).composer.attributes := by
    intro att hatt
    rw [List.mem_singleton.mp hatt]
    exact ⟨current, hlt, rfl⟩
  have hprintable (current : ℕ) : Printable (rootsAt current).composer := by
    refine ⟨show newline ∉ ascii "data" by decide,
      show newline ∉ ascii "libpathcomp::data" by decide,
      fun att hatt => ?_, fun att hatt => ?_, fun att hatt v hv => ?_⟩
    · rw [List.mem_singleton.mp hatt]
      exact show newline ∉ ascii "root" by decide
    · rw [List.mem_singleton.mp hatt]
      exact show newline ∉ ascii "(null)" by decide
    · rw [List.mem_singleton.mp hatt] at hv
      rcases List.mem_cons.mp hv with rfl | hv
      · exact show newline ∉ ascii "/usr" by decide
      · rw [List.mem_singleton.mp hv]
        exact ⟨_, rfl, by decide, by decide⟩
  obtain ⟨h, hh⟩ := rootsAt_holds 0
  obtain ⟨h', hh'⟩ := rootsAt_holds 1
  obtain ⟨s, t, hs, ht, hiff⟩ := dump_shows_composer (fun a => UInt64.ofNat (16 * a))
    (fun a => UInt64.ofNat (16 * a)) (rootsAt 0) (rootsAt 1) h h' hh hh' (hvalid 0 (by decide))
    (hvalid 1 (by decide)) (by unfold Short; decide +kernel) (by unfold Short; decide +kernel)
  refine ⟨h, h', s, t, hs, ht, fun htext => ?_⟩
  have hsame := ((hiff (hprintable 0) (hprintable 1)).mp htext).1
  have hcurrent := congrArg (fun c => c.attributes.map Att.current) hsame
  exact absurd hcurrent (by decide)

end Pathcomp.Dump
