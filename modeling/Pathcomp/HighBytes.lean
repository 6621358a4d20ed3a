import Pathcomp.Scanner

set_option autoImplicit false

/-!
# Bytes above 127

`buf_fgetc` returns a plain `char`, so that every loop of the parser takes a
byte above 127 for the end of the text. A text is compared with its image in
which a letter stands for each such byte.
-/
namespace Pathcomp.HighBytes
open Bytes Buffer Config Scanner

/-- A letter in place of a byte above 127. -/
def lower (b : UInt8) : UInt8 := if b < 128 then b else byte 'x'

def lowerText (text : Text) : Text := text.map lower

def lowerKv (kv : CfKv) : CfKv := ⟨lowerText kv.key, lowerText kv.value⟩

def lowerSection (sec : CfSection) : CfSection := ⟨lowerText sec.name, sec.entries.map lowerKv⟩

/-- The text and its image are read alike. -/
def EightBitClean (text : Text) : Prop :=
  ∀ cf fuel, text.length < fuel → ∃ rc sections,
    cfAddFromString fuel cf text = .ok (rc, ⟨cf.sections ++ sections⟩) ∧
    cfAddFromString fuel cf (lowerText text) =
      .ok (rc, ⟨cf.sections ++ sections.map lowerSection⟩)

inductive Place where
  | line
  | comment
  | name
  | key
  | skip
  | value
  | escape
  | ended
  deriving DecidableEq, Repr

/-- Where the next byte stands, and whether a section header came before. -/
structure Context where
  place : Place
  opened : Bool
  deriving DecidableEq, Repr

/-- The syntax of a configuration with every byte above 127 taken as a letter.
    Nothing is read after a malformed line. -/
def Context.next (c : Context) (b : UInt8) : Context :=
  match c.place with
  | .line =>
    if b = nl then c
    else if space b then c
    else if b = byte ';' ∨ b = byte '#' then { c with place := .comment }
    else if b = byte '[' then { c with place := .name }
    else if b = byte '=' then { c with place := .ended }
    else if b = byte '[' ∨ b = byte ']' then { c with place := .ended }
    else { c with place := .key }
  | .comment => if b = nl then { c with place := .line } else c
  | .name =>
    if b = nl then { c with place := .ended }
    else if b = byte ']' then ⟨.line, true⟩
    else c
  | .key =>
    if b = nl then { c with place := .ended }
    else if b = byte '[' ∨ b = byte ']' then { c with place := .ended }
    else if b = byte '=' then { c with place := .skip }
    else c
  | .skip =>
    if space b ∧ b ≠ nl then c
    else if b = bs then { c with place := .escape }
    else if b = nl then { c with place := .line }
    else { c with place := .value }
  | .value =>
    if b = bs then { c with place := .escape }
    else if b = nl then { c with place := .line }
    else c
  | .escape => { c with place := .value }
  | .ended => c

def Context.start : Context := ⟨.line, false⟩

def context (text : Text) : Context := text.foldl Context.next .start

/-- The places where a byte above 127 does no harm: directly after a backslash
    that starts an escape, and after a malformed line. -/
def Place.harmless : Place → Bool
  | .escape => true
  | .ended => true
  | _ => false

def harmlessFrom : Context → Text → Bool
  | _, [] => true
  | c, b :: text => (decide (b < 128) || c.place.harmless) && harmlessFrom (c.next b) text

/-- Every byte above 127 stands at a harmless place. -/
def highBytesHarmless (text : Text) : Bool := harmlessFrom .start text

/-- The text ends directly after a backslash that starts an escape in an entry
    of a section. -/
def endsInEscape (text : Text) : Bool :=
  (context text).place = .escape ∧ (context text).opened

theorem endsInEscape_iff (text : Text) : endsInEscape text = true ↔
    (context text).place = .escape ∧ (context text).opened = true := by
  simp [endsInEscape]

def lowerMode : Mode → Mode
  | .line comment => .line comment
  | .name acc => .name (lowerText acc)
  | .key acc => .key (lowerText acc)
  | .skip key => .skip (lowerText key)
  | .value key acc => .value (lowerText key) (lowerText acc)
  | .escape key acc => .escape (lowerText key) (lowerText acc)
  | .stopped => .stopped
  | .failed => .failed

def lowerScan (s : Scan) : Scan :=
  ⟨s.sections.map lowerSection, s.sec.map lowerSection, lowerMode s.mode⟩

theorem lower_of_lt {b : UInt8} (h : b < 128) : lower b = b := by simp [lower, h]

theorem lower_zero_iff (b : UInt8) : lower b = 0 ↔ b = 0 := by
  unfold lower
  split
  · rfl
  · rename_i h
    refine iff_of_false (by decide) ?_
    rintro rfl
    exact h (by decide)

theorem lowerText_nul_free {s : Text} (h : ∀ b ∈ s, b ≠ 0) :
    ∀ b ∈ lowerText s, b ≠ 0 := by
  intro x hx
  obtain ⟨y, hy, rfl⟩ := List.mem_map.mp hx
  exact fun h0 => h y hy ((lower_zero_iff y).mp h0)

theorem space_of_not_lt {b : UInt8} (h : ¬ b < 128) : space b = false := by
  have hneg := (charToInt_neg_iff b).mpr h
  simp only [space, isspace, Bool.or_eq_false_iff, decide_eq_false_iff_not, Bool.and_eq_false_imp,
    decide_eq_true_eq]
  omega

theorem space_lower (b : UInt8) : space (lower b) = space b := by
  by_cases h : b < 128
  · rw [lower_of_lt h]
  · rw [space_of_not_lt h, lower, if_neg h]
    decide

theorem lowerText_append (s t : Text) : lowerText (s ++ t) = lowerText s ++ lowerText t :=
  List.map_append

theorem lowerText_concat (s : Text) {b : UInt8} (h : b < 128) :
    lowerText (s ++ [b]) = lowerText s ++ [b] := by
  rw [lowerText_append]
  simp [lowerText, lower_of_lt h]

theorem cstr_lowerText (s : Text) : cstr (lowerText s) = lowerText (cstr s) := by
  unfold cstr lowerText
  rw [List.takeWhile_map]
  congr 2
  funext b
  simp [lower_zero_iff]

theorem trimRight_lowerText (s : Text) : trimRight (lowerText s) = lowerText (trimRight s) := by
  unfold trimRight lowerText List.rdropWhile
  rw [← List.map_reverse, List.dropWhile_map, ← List.map_reverse]
  congr 3
  funext b
  exact space_lower b

theorem attachEntry_lower (key value : Text) (sec : Option CfSection) :
    attachEntry ⟨lowerText key, lowerText value⟩ (sec.map lowerSection) =
      (attachEntry ⟨key, value⟩ sec).map lowerSection := by
  cases sec with
  | none => rfl
  | some sec => simp [attachEntry, lowerSection, lowerKv]

theorem closeEntry_lower (s : Scan) (key value : Text) :
    closeEntry (lowerScan s) (lowerText key) (lowerText value) =
      lowerScan (closeEntry s key value) := by
  simp only [closeEntry, lowerScan, trimRight_lowerText, cstr_lowerText, attachEntry_lower,
    lowerMode]

def placeOf : Mode → Place
  | .line false => .line
  | .line true => .comment
  | .name _ => .name
  | .key _ => .key
  | .skip _ => .skip
  | .value _ _ => .value
  | .escape _ _ => .escape
  | .stopped => .ended
  | .failed => .ended

theorem advanceKey_lower (s : Scan) (acc : Text) {b : UInt8} (h : b < 128) :
    advanceKey (lowerScan s) (lowerText acc) b = lowerScan (advanceKey s acc b) := by
  unfold advanceKey
  simp only [h, not_true_eq_false, ↓reduceIte, ← lowerText_concat acc h]
  split_ifs <;> rfl

theorem advanceValue_lower (s : Scan) (key acc : Text) {b : UInt8} (h : b < 128) :
    advanceValue (lowerScan s) (lowerText key) (lowerText acc) b =
      lowerScan (advanceValue s key acc b) := by
  unfold advanceValue
  simp only [h, not_true_eq_false, ↓reduceIte, ← lowerText_concat acc h, closeEntry_lower]
  split_ifs <;> rfl

theorem advance_lower_ascii (s : Scan) {b : UInt8} (h : b < 128) :
    advance (lowerScan s) b = lowerScan (advance s b) := by
  obtain ⟨sections, sec, mode⟩ := s
  cases mode with
  | line comment =>
    have hkey := advanceKey_lower ⟨sections, sec, .line comment⟩ [] h
    change advanceLine (lowerScan ⟨sections, sec, .line comment⟩) comment b =
      lowerScan (advanceLine ⟨sections, sec, .line comment⟩ comment b)
    unfold advanceLine
    rw [show ([] : Text) = lowerText [] from rfl, hkey]
    split_ifs
    · rfl
    · rfl
    · rfl
    · cases sec <;> simp [lowerScan, lowerMode, lowerText]
    · rfl
    · rfl
  | name acc =>
    simp only [advance, lowerScan, lowerMode, h, not_true_eq_false, ↓reduceIte,
      ← lowerText_concat acc h, cstr_lowerText]
    split_ifs <;> rfl
  | key acc => exact advanceKey_lower ⟨sections, sec, .key acc⟩ acc h
  | skip key =>
    have hvalue := advanceValue_lower ⟨sections, sec, .skip key⟩ key [] h
    change (if space b ∧ b ≠ nl then lowerScan ⟨sections, sec, .skip key⟩
        else advanceValue (lowerScan ⟨sections, sec, .skip key⟩) (lowerText key)
          (lowerText []) b) =
      lowerScan (if space b ∧ b ≠ nl then ⟨sections, sec, .skip key⟩
        else advanceValue ⟨sections, sec, .skip key⟩ key [] b)
    rw [hvalue]
    split_ifs <;> rfl
  | value key acc => exact advanceValue_lower ⟨sections, sec, .value key acc⟩ key acc h
  | escape key acc =>
    have hacc : lowerText (acc ++ [bs, b]) = lowerText acc ++ [bs, b] := by
      rw [lowerText_append]
      simp [lowerText, lower_of_lt h, lower_of_lt (show bs < 128 by decide)]
    simp only [advance, lowerScan, lowerMode, ← hacc]
    split_ifs <;> rfl
  | stopped => rfl
  | failed => rfl

/-- A byte above 127 in a harmless place is passed through or not read. -/
theorem advance_lower_high (s : Scan) {b : UInt8} (h : ¬ b < 128)
    (hplace : (placeOf s.mode).harmless) :
    advance (lowerScan s) (lower b) = lowerScan (advance s b) := by
  obtain ⟨sections, sec, mode⟩ := s
  have hnl : b ≠ nl := by
    rintro rfl
    exact h (by decide)
  have hlower : lower b ≠ nl := by
    rw [lower, if_neg h]
    decide
  cases mode with
  | escape key acc =>
    have hacc : lowerText (acc ++ [bs, b]) = lowerText acc ++ [bs, lower b] := by
      rw [lowerText_append]
      simp [lowerText, lower_of_lt (show bs < 128 by decide)]
    simp only [advance, lowerScan, lowerMode, hnl, hlower, ↓reduceIte, hacc]
  | stopped => rfl
  | failed => rfl
  | line comment => cases comment <;> cases hplace
  | name _ => cases hplace
  | key _ => cases hplace
  | skip _ => cases hplace
  | value _ _ => cases hplace

/-- The places where the section of the last header is still open. -/
def Place.inSection : Place → Bool
  | .name => false
  | .ended => false
  | _ => true

/-- The automaton stands where the syntax says, and has an open section exactly
    when a header came before. -/
structure Fits (c : Context) (s : Scan) : Prop where
  place : placeOf s.mode = c.place
  live : s.mode ≠ .stopped
  opened : c.place.inSection → c.opened = s.sec.isSome

theorem Fits.section_of_opened {c : Context} {s : Scan} (h : Fits c s) (hin : c.place.inSection)
    (hopened : c.opened = true) : ∃ sec, s.sec = some sec := by
  have hsome := h.opened hin
  rw [hopened] at hsome
  exact Option.isSome_iff_exists.mp hsome.symm

/-- An entry of a section is inside an escape exactly where the syntax says so. -/
theorem Fits.inEscape_iff {c : Context} {s : Scan} (h : Fits c s) :
    c.place = .escape ∧ c.opened = true ↔
      ∃ sec key acc, s.sec = some sec ∧ s.mode = .escape key acc := by
  constructor
  · rintro ⟨hplace, hopen⟩
    obtain ⟨sec, hsec⟩ := h.section_of_opened (by rw [hplace]; rfl) hopen
    have hp := h.place
    rw [hplace] at hp
    cases hmode : s.mode with
    | escape key acc => exact ⟨sec, key, acc, hsec, rfl⟩
    | line comment => cases comment <;> simp [hmode, placeOf] at hp
    | _ => simp [hmode, placeOf] at hp
  · rintro ⟨sec, key, acc, hsec, hm⟩
    have hp := h.place
    rw [hm] at hp
    have hopen := h.opened (by rw [← hp]; rfl)
    rw [hsec] at hopen
    exact ⟨hp.symm, hopen⟩

theorem attachEntry_isSome (kv : CfKv) (sec : Option CfSection) :
    (attachEntry kv sec).isSome = sec.isSome := by
  cases sec <;> rfl

section Next
variable {sections : List CfSection} {sec : Option CfSection} {opened : Bool} {b : UInt8}

theorem fits_line (ho : opened = sec.isSome) (hb : b < 128) :
    Fits (Context.next ⟨.line, opened⟩ b) (advance ⟨sections, sec, .line false⟩ b) := by
  simp only [Context.next, advance, advanceLine, advanceKey, hb, not_true_eq_false, ↓reduceIte,
    Bool.false_or]
  split_ifs
  · exact ⟨rfl, by simp, fun _ => ho⟩
  · exact ⟨rfl, by simp, fun _ => ho⟩
  · exact ⟨rfl, by simp, fun _ => ho⟩
  · exact ⟨rfl, by simp, fun h => absurd h Bool.false_ne_true⟩
  · exact ⟨rfl, by simp, fun h => absurd h Bool.false_ne_true⟩
  · exact ⟨rfl, by simp, fun h => absurd h Bool.false_ne_true⟩
  · exact ⟨rfl, by simp, fun _ => ho⟩

theorem fits_comment (ho : opened = sec.isSome) (hb : b < 128) :
    Fits (Context.next ⟨.comment, opened⟩ b) (advance ⟨sections, sec, .line true⟩ b) := by
  simp only [Context.next, advance, advanceLine, hb, not_true_eq_false, ↓reduceIte, Bool.true_or]
  split_ifs
  · exact ⟨rfl, by simp, fun _ => ho⟩
  · exact ⟨rfl, by simp, fun _ => ho⟩

theorem fits_name (acc : Text) (hb : b < 128) :
    Fits (Context.next ⟨.name, opened⟩ b) (advance ⟨sections, sec, .name acc⟩ b) := by
  simp only [Context.next, advance, hb, not_true_eq_false, ↓reduceIte]
  split_ifs
  · exact ⟨rfl, by simp, fun h => absurd h Bool.false_ne_true⟩
  · exact ⟨rfl, by simp, fun _ => rfl⟩
  · exact ⟨rfl, by simp, fun h => absurd h Bool.false_ne_true⟩

theorem fits_key (acc : Text) (ho : opened = sec.isSome) (hb : b < 128) :
    Fits (Context.next ⟨.key, opened⟩ b) (advance ⟨sections, sec, .key acc⟩ b) := by
  simp only [Context.next, advance, advanceKey, hb, not_true_eq_false, ↓reduceIte]
  split_ifs
  · exact ⟨rfl, by simp, fun h => absurd h Bool.false_ne_true⟩
  · exact ⟨rfl, by simp, fun h => absurd h Bool.false_ne_true⟩
  · exact ⟨rfl, by simp, fun _ => ho⟩
  · exact ⟨rfl, by simp, fun _ => ho⟩

theorem fits_close {mode : Mode} (key value : Text) (ho : opened = sec.isSome) :
    Fits ⟨.line, opened⟩ (closeEntry ⟨sections, sec, mode⟩ key value) :=
  ⟨rfl, by simp [closeEntry], fun _ => by simpa [closeEntry, attachEntry_isSome] using ho⟩

theorem fits_skip (key : Text) (ho : opened = sec.isSome) (hb : b < 128) :
    Fits (Context.next ⟨.skip, opened⟩ b) (advance ⟨sections, sec, .skip key⟩ b) := by
  simp only [Context.next, advance, advanceValue, hb, not_true_eq_false, ↓reduceIte]
  split_ifs
  · exact ⟨rfl, by simp, fun _ => ho⟩
  · exact ⟨rfl, by simp, fun _ => ho⟩
  · exact fits_close key [] ho
  · exact ⟨rfl, by simp, fun _ => ho⟩

theorem fits_value (key acc : Text) (ho : opened = sec.isSome) (hb : b < 128) :
    Fits (Context.next ⟨.value, opened⟩ b) (advance ⟨sections, sec, .value key acc⟩ b) := by
  simp only [Context.next, advance, advanceValue, hb, not_true_eq_false, ↓reduceIte]
  split_ifs
  · exact ⟨rfl, by simp, fun _ => ho⟩
  · exact fits_close key acc ho
  · exact ⟨rfl, by simp, fun _ => ho⟩

theorem fits_escape (key acc : Text) (ho : opened = sec.isSome) :
    Fits (Context.next ⟨.escape, opened⟩ b)
    (advance ⟨sections, sec, .escape key acc⟩ b) := by
  simp only [Context.next, advance]
  split_ifs
  · exact ⟨rfl, by simp, fun _ => ho⟩
  · exact ⟨rfl, by simp, fun _ => ho⟩

theorem Fits.next {c : Context} {s : Scan} (h : Fits c s) (hb : b < 128 ∨ c.place.harmless) :
    Fits (c.next b) (advance s b) := by
  obtain ⟨sections, sec, mode⟩ := s
  obtain ⟨place, opened⟩ := c
  obtain ⟨hp, hl, ho⟩ := h
  simp only at hp hl ho hb
  subst hp
  cases mode with
  | line comment =>
    cases comment with
    | false => exact fits_line (ho rfl) (hb.resolve_right Bool.false_ne_true)
    | true => exact fits_comment (ho rfl) (hb.resolve_right Bool.false_ne_true)
  | name acc => exact fits_name acc (hb.resolve_right Bool.false_ne_true)
  | key acc => exact fits_key acc (ho rfl) (hb.resolve_right Bool.false_ne_true)
  | skip key => exact fits_skip key (ho rfl) (hb.resolve_right Bool.false_ne_true)
  | value key acc => exact fits_value key acc (ho rfl) (hb.resolve_right Bool.false_ne_true)
  | escape key acc => exact fits_escape key acc (ho rfl)
  | stopped => exact absurd rfl hl
  | failed => exact ⟨rfl, hl, ho⟩

end Next

theorem advance_lower {c : Context} {s : Scan} (h : Fits c s) {b : UInt8}
    (hb : b < 128 ∨ c.place.harmless) :
    advance (lowerScan s) (lower b) = lowerScan (advance s b) := by
  by_cases hlt : b < 128
  · rw [lower_of_lt hlt]
    exact advance_lower_ascii s hlt
  · refine advance_lower_high s hlt ?_
    rw [h.place]
    exact hb.resolve_left hlt

theorem run_lower {c : Context} {s : Scan} (h : Fits c s) {text : Text}
    (ht : harmlessFrom c text) :
    run (lowerScan s) (lowerText text) = lowerScan (run s text) ∧
      Fits (text.foldl Context.next c) (run s text) := by
  induction text generalizing c s with
  | nil => exact ⟨rfl, h⟩
  | cons b text ih =>
    obtain ⟨hb, hrest⟩ : (b < 128 ∨ c.place.harmless) ∧ harmlessFrom (c.next b) text := by
      simpa [harmlessFrom] using ht
    have hstep := advance_lower h hb
    have htail := ih (h.next hb) hrest
    rw [← hstep] at htail
    exact htail

theorem fits_start : Fits .start (start []) := ⟨rfl, by simp [start], fun _ => rfl⟩

theorem scan_fits {text : Text} (h : highBytesHarmless text) :
    run (start []) (lowerText text) = lowerScan (run (start []) text) ∧
      Fits (context text) (run (start []) text) :=
  run_lower fits_start h

/-- Unless an entry ends inside an escape, the end of the text is read alike. -/
theorem outcome_lower {s : Scan}
    (h : ∀ key acc, s.mode = .escape key acc → s.sec = none) :
    outcome (lowerScan s) = ((outcome s).1, (outcome s).2.map lowerSection) := by
  obtain ⟨sections, sec, mode⟩ := s
  have hclose (key value : Text) :
      (attachEntry ⟨cstr (trimRight (lowerText key)), cstr (trimRight (lowerText value))⟩
        (sec.map lowerSection)).toList =
      (attachEntry ⟨cstr (trimRight key), cstr (trimRight value)⟩ sec).toList.map
        lowerSection := by
    rw [trimRight_lowerText, trimRight_lowerText, cstr_lowerText, cstr_lowerText,
      attachEntry_lower, Option.toList_map]
  cases mode with
  | skip key =>
    have hv := hclose key []
    simpa [outcome, atEnd, lowerScan, lowerMode, closeEntry, lowerText] using hv
  | value key acc =>
    have hv := hclose key acc
    simpa [outcome, atEnd, lowerScan, lowerMode, closeEntry] using hv
  | escape key acc =>
    have hs : sec = none := h key acc rfl
    simp [outcome, atEnd, lowerScan, lowerMode, closeEntry, hs, attachEntry]
  | line comment => simp [outcome, atEnd, lowerScan, lowerMode, Option.toList_map]
  | name acc => simp [outcome, atEnd, lowerScan, lowerMode, Option.toList_map]
  | key acc => simp [outcome, atEnd, lowerScan, lowerMode]
  | stopped => simp [outcome, atEnd, lowerScan, lowerMode, Option.toList_map]
  | failed => simp [outcome, atEnd, lowerScan, lowerMode, Option.toList_map]

theorem eightBitClean_iff (text : Text) :
    EightBitClean text ↔
      scan [] (lowerText text) = ((scan [] text).1, (scan [] text).2.map lowerSection) := by
  have hlen : (lowerText text).length = text.length := List.length_map _
  constructor
  · intro h
    obtain ⟨rc, sections, ht, hl⟩ := h ⟨[]⟩ (text.length + 1) (by omega)
    rw [cfAddFromString_scan _ (by omega)] at ht hl
    simp only [Except.ok.injEq, Prod.mk.injEq, Cf.mk.injEq, List.nil_append] at ht hl
    rw [ht.1, ht.2]
    exact Prod.ext hl.1 hl.2
  · intro h cf fuel hf
    refine ⟨(scan [] text).1, (scan [] text).2, ?_, ?_⟩
    · rw [cfAddFromString_scan _ hf, scan_append]
    · rw [cfAddFromString_scan _ (by omega), scan_append, h]

/-- The bytes of the value that is being read. -/
def valueBytes : Mode → Text
  | .value _ acc => acc
  | .escape _ acc => acc
  | _ => []

theorem advanceValue_nul_free (s : Scan) (key acc : Text) {b : UInt8}
    (hacc : ∀ x ∈ acc, x ≠ 0)
    (hb : b ≠ 0) : ∀ x ∈ valueBytes (advanceValue s key acc b).mode, x ≠ 0 := by
  unfold advanceValue
  split
  · simp [closeEntry, valueBytes]
  split
  · exact hacc
  split
  · simp [closeEntry, valueBytes]
  · intro x hx
    rcases List.mem_append.mp hx with hx | hx
    · exact hacc x hx
    · rw [List.mem_singleton.mp hx]
      exact hb

theorem advance_nul_free {s : Scan} (hs : ∀ x ∈ valueBytes s.mode, x ≠ 0) {b : UInt8}
    (hb : b ≠ 0) : ∀ x ∈ valueBytes (advance s b).mode, x ≠ 0 := by
  obtain ⟨sections, sec, mode⟩ := s
  cases mode with
  | line comment =>
    simp only [advance, advanceLine, advanceKey]
    split_ifs <;> exact List.forall_mem_nil _
  | name acc =>
    simp only [advance]
    split_ifs <;> exact List.forall_mem_nil _
  | key acc =>
    simp only [advance, advanceKey]
    split_ifs <;> exact List.forall_mem_nil _
  | skip key =>
    simp only [advance]
    split_ifs
    · exact List.forall_mem_nil _
    · exact advanceValue_nul_free _ key [] (List.forall_mem_nil _) hb
  | value key acc => exact advanceValue_nul_free _ key acc hs hb
  | escape key acc =>
    simp only [advance]
    split_ifs
    · exact hs
    · intro x hx
      rcases List.mem_append.mp hx with hx | hx
      · exact hs x hx
      · rcases List.mem_pair.mp hx with rfl | rfl
        · decide
        · exact hb
  | stopped => exact List.forall_mem_nil _
  | failed => exact List.forall_mem_nil _

theorem run_nul_free {s : Scan} (hs : ∀ x ∈ valueBytes s.mode, x ≠ 0) {text : Text}
    (ht : ∀ b ∈ text, b ≠ 0) : ∀ x ∈ valueBytes (run s text).mode, x ≠ 0 := by
  induction text generalizing s with
  | nil => exact hs
  | cons b text ih =>
    exact ih (advance_nul_free hs (ht b (by simp))) fun d hd => ht d (by simp [hd])

/-- The last byte of the last value of the last section. -/
def lastByte (sections : List CfSection) : Option UInt8 :=
  sections.getLast?.bind fun sec => sec.entries.getLast?.bind fun kv => kv.value.getLast?

theorem trimRight_end_marker (acc : Text) : trimRight (acc ++ [bs, 255]) = acc ++ [bs, 255] := by
  refine List.rdropWhile_eq_self_iff.mpr fun _ => ?_
  simp
  decide

theorem lastByte_escape (sections : List CfSection) (sec : CfSection) (key : Text) {acc : Text}
    (hacc : ∀ x ∈ acc, x ≠ 0) :
    lastByte (outcome ⟨sections, some sec, .escape key acc⟩).2 = some 255 := by
  have hv : cstr (acc ++ [bs, 255]) = acc ++ [bs, 255] := by
    refine cstr_of_nul_free _ fun x hx => ?_
    rcases List.mem_append.mp hx with hx | hx
    · exact hacc x hx
    · rcases List.mem_pair.mp hx with rfl | rfl <;> decide
  simp [outcome, atEnd, closeEntry, attachEntry, lastByte, trimRight_end_marker, hv]

theorem lastByte_lower (sections : List CfSection) :
    lastByte (sections.map lowerSection) = (lastByte sections).map lower := by
  unfold lastByte
  rw [List.getLast?_map]
  cases sections.getLast? with
  | none => rfl
  | some sec =>
    simp only [Option.map_some, Option.bind_some, lowerSection, List.getLast?_map]
    cases sec.entries.getLast? with
    | none => rfl
    | some kv => simp [lowerKv, lowerText]

theorem outcome_escape_ne {s : Scan} {sec : CfSection} {key acc : Text} (hs : s.sec = some sec)
    (hm : s.mode = .escape key acc) (hacc : ∀ x ∈ acc, x ≠ 0) :
    (outcome (lowerScan s)).2 ≠ (outcome s).2.map lowerSection := by
  obtain ⟨sections, sec', mode⟩ := s
  simp only at hs hm
  subst hs hm
  intro he
  have hleft := lastByte_escape (sections.map lowerSection) (lowerSection sec) (lowerText key)
    (lowerText_nul_free hacc)
  have hright := lastByte_escape sections sec key hacc
  have hlast := congrArg lastByte he
  rw [lastByte_lower, hright] at hlast
  rw [show lowerScan ⟨sections, some sec, .escape key acc⟩ = ⟨sections.map lowerSection,
    some (lowerSection sec), .escape (lowerText key) (lowerText acc)⟩ from rfl, hleft] at hlast
  exact absurd hlast (by decide)

/-- Without harm from bytes above 127, only an escape at the end can spoil it. -/
theorem clean_iff_of_harmless {text : Text} (hnul : ∀ b ∈ text, b ≠ 0)
    (h : highBytesHarmless text) : EightBitClean text ↔ endsInEscape text = false := by
  obtain ⟨hrun, hfits⟩ := scan_fits h
  rw [eightBitClean_iff]
  unfold scan
  rw [hrun]
  rw [← Bool.not_eq_true, endsInEscape_iff, hfits.inEscape_iff]
  generalize hs : run (start []) text = s
  constructor
  · rintro he ⟨sec, key, acc, hsec, hm⟩
    have hacc := run_nul_free (s := start []) (List.forall_mem_nil _) hnul
    rw [hs, hm] at hacc
    exact outcome_escape_ne hsec hm hacc (congrArg Prod.snd he)
  · intro hno
    refine outcome_lower fun key acc hm => ?_
    cases hsec : s.sec with
    | none => rfl
    | some sec => exact absurd ⟨sec, key, acc, hsec, hm⟩ hno

section High
variable (sections : List CfSection) (sec : Option CfSection) {b : UInt8}

theorem advance_line_high (comment : Bool) (hb : ¬ b < 128) :
    advance ⟨sections, sec, .line comment⟩ b = ⟨sections, sec, .stopped⟩ := by
  simp only [advance, advanceLine]
  rw [if_pos hb]

theorem advance_name_high (acc : Text) (hb : ¬ b < 128) :
    advance ⟨sections, sec, .name acc⟩ b = ⟨sections, sec, .failed⟩ := by
  simp only [advance]
  rw [if_pos hb]

theorem advance_key_high (acc : Text) (hb : ¬ b < 128) :
    advance ⟨sections, sec, .key acc⟩ b = ⟨sections, none, .failed⟩ := by
  simp only [advance, advanceKey]
  rw [if_pos hb]

theorem advance_skip_high (key : Text) (hb : ¬ b < 128) :
    advance ⟨sections, sec, .skip key⟩ b =
      closeEntry ⟨sections, sec, .skip key⟩ key [] := by
  have hspace : ¬ (space b ∧ b ≠ nl) := by simp [space_of_not_lt hb]
  simp only [advance, advanceValue]
  rw [if_neg hspace, if_pos hb]

theorem advance_value_high (key acc : Text) (hb : ¬ b < 128) :
    advance ⟨sections, sec, .value key acc⟩ b =
      closeEntry ⟨sections, sec, .value key acc⟩ key acc := by
  simp only [advance, advanceValue]
  rw [if_pos hb]

end High

/-- After a byte above 127 that the code takes for the end of the text, some
    ASCII continuation is accepted for one of the texts only. -/
theorem harmful_continuation {s : Scan} (hlive : s.mode ≠ .stopped)
    (hplace : (placeOf s.mode).harmless = false) {h : UInt8} (hh : ¬ h < 128) :
    ∃ w : Text, (∀ b ∈ w, b ≠ 0 ∧ b < 128) ∧
      (outcome (run s (h :: w))).1 ≠ (outcome (run (lowerScan s) (byte 'x' :: w))).1 := by
  obtain ⟨sections, sec, mode⟩ := s
  cases mode with
  | line comment =>
    refine ⟨[nl, byte '['], by decide, ?_⟩
    rw [run_cons, advance_line_high sections sec comment hh, run_stopped]
    cases comment <;> exact fun he => Bool.false_ne_true he.symm
  | name acc =>
    refine ⟨[byte ']'], by decide, ?_⟩
    rw [run_cons, advance_name_high sections sec acc hh, run_failed]
    exact Bool.false_ne_true
  | key acc =>
    refine ⟨[byte '='], by decide, ?_⟩
    rw [run_cons, advance_key_high sections sec acc hh, run_failed]
    exact Bool.false_ne_true
  | skip key =>
    refine ⟨[byte '['], by decide, ?_⟩
    rw [run_cons, advance_skip_high sections sec key hh]
    exact Bool.false_ne_true
  | value key acc =>
    refine ⟨[byte '['], by decide, ?_⟩
    rw [run_cons, advance_value_high sections sec key acc hh]
    exact Bool.false_ne_true
  | escape key acc => cases hplace
  | stopped => exact absurd rfl hlive
  | failed => cases hplace

/-- At every other place the text read so far has an ASCII continuation that is
    not read like its image. -/
theorem harmful_place {before : Text} (hbefore : highBytesHarmless before) {h : UInt8}
    (hh : ¬ h < 128) (hplace : (context before).place.harmless = false) :
    ∃ rest, (∀ b ∈ rest, b ≠ 0 ∧ b < 128) ∧ ¬ EightBitClean (before ++ h :: rest) := by
  obtain ⟨hrun, hfits⟩ := scan_fits hbefore
  rw [← hfits.place] at hplace
  obtain ⟨rest, hrest, hne⟩ := harmful_continuation hfits.live hplace hh
  refine ⟨rest, hrest, fun hclean => ?_⟩
  have hlow : lowerText (before ++ h :: rest) = lowerText before ++ byte 'x' :: rest := by
    have hsame : lowerText rest = rest :=
      (List.map_congr_left fun b hb => lower_of_lt (hrest b hb).2).trans (List.map_id' _)
    rw [lowerText_append]
    change _ ++ lower h :: lowerText rest = _
    rw [hsame, lower, if_neg hh]
  have hrc := congrArg Prod.fst ((eightBitClean_iff _).mp hclean)
  unfold scan at hrc
  rw [hlow, run_append, run_append, hrun] at hrc
  exact hne hrc.symm

end Pathcomp.HighBytes
