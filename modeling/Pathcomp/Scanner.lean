import Pathcomp.Config

set_option autoImplicit false

/-!
# The parser as an automaton over bytes

`advance` reads one byte and `outcome` says what the end of the text leads to.
The character loops of `cf.c` with their shared cursor and their push-back
compute the same as one pass of this automaton, and the length of the text
bounds the rounds of every loop.
-/
namespace Pathcomp.Scanner
open Bytes Buffer Config

/-- Which loop reads the next byte. `stopped` is the end of the text as the main
    loop sees it, `failed` is a syntax error; both read nothing more. -/
inductive Mode where
  | line (comment : Bool)
  | name (acc : Text)
  | key (acc : Text)
  | skip (key : Text)
  | value (key acc : Text)
  | escape (key acc : Text)
  | stopped
  | failed
  deriving DecidableEq, Repr

structure Scan where
  sections : List CfSection
  sec : Option CfSection
  mode : Mode
  deriving DecidableEq, Repr

def nl : UInt8 := byte '\n'
def bs : UInt8 := byte '\\'

def space (b : UInt8) : Bool := isspace (charToInt b)

/-- The end of a value: the entry is trimmed and attached. -/
def closeEntry (s : Scan) (key value : Text) : Scan :=
  { s with
    sec := attachEntry ⟨cstr (trimRight key), cstr (trimRight value)⟩ s.sec
    mode := .line false }

/-- A byte of a value proper. -/
def advanceValue (s : Scan) (key acc : Text) (b : UInt8) : Scan :=
  if ¬ b < 128 then closeEntry s key acc
  else if b = bs then { s with mode := .escape key acc }
  else if b = nl then closeEntry s key acc
  else { s with mode := .value key (acc ++ [b]) }

def advanceKey (s : Scan) (acc : Text) (b : UInt8) : Scan :=
  if ¬ b < 128 then { s with sec := none, mode := .failed }
  else if b = nl then { s with sec := none, mode := .failed }
  else if b = byte '[' ∨ b = byte ']' then { s with sec := none, mode := .failed }
  else if b = byte '=' then { s with mode := .skip acc }
  else { s with mode := .key (acc ++ [b]) }

def advanceLine (s : Scan) (comment : Bool) (b : UInt8) : Scan :=
  if ¬ b < 128 then { s with mode := .stopped }
  else if b = nl then { s with mode := .line false }
  else if comment || space b then { s with mode := .line comment }
  else if b = byte ';' ∨ b = byte '#' then { s with mode := .line true }
  else if b = byte '[' then ⟨s.sections ++ s.sec.toList, none, .name []⟩
  else if b = byte '=' then { s with sec := none, mode := .failed }
  else advanceKey s [] b

def advance (s : Scan) (b : UInt8) : Scan :=
  match s.mode with
  | .line comment => advanceLine s comment b
  | .name acc =>
    if ¬ b < 128 then { s with mode := .failed }
    else if b = nl then { s with mode := .failed }
    else if b = byte ']' then { s with sec := some ⟨cstr acc, []⟩, mode := .line false }
    else { s with mode := .name (acc ++ [b]) }
  | .key acc => advanceKey s acc b
  | .skip key =>
    if space b ∧ b ≠ nl then s else advanceValue s key [] b
  | .value key acc => advanceValue s key acc b
  | .escape key acc =>
    if b = nl then { s with mode := .value key acc }
    else { s with mode := .value key (acc ++ [bs, b]) }
  | .stopped => s
  | .failed => s

/-- The state after the end of the text has been seen: a value that ends inside
    an escape has the end marker stored as a byte. -/
def atEnd (s : Scan) : Scan :=
  match s.mode with
  | .line _ => { s with mode := .stopped }
  | .name _ => { s with mode := .failed }
  | .key _ => { s with sec := none, mode := .failed }
  | .skip key => { closeEntry s key [] with mode := .stopped }
  | .value key acc => { closeEntry s key acc with mode := .stopped }
  | .escape key acc => { closeEntry s key (acc ++ [bs, 255]) with mode := .stopped }
  | .stopped => s
  | .failed => s

def outcome (s : Scan) : Bool × List CfSection :=
  ((atEnd s).mode = .stopped, (atEnd s).sections ++ (atEnd s).sec.toList)

def run (s : Scan) (text : Text) : Scan := text.foldl advance s

def start (sections : List CfSection) : Scan := ⟨sections, none, .line false⟩

def scan (sections : List CfSection) (text : Text) : Bool × List CfSection :=
  outcome (run (start sections) text)

theorem charToInt_neg_iff (b : UInt8) : charToInt b < 0 ↔ ¬ b < 128 := by
  rw [← charToInt_nonneg_iff, Int.not_le]

theorem charToInt_eq_code_iff (b : UInt8) {c : Char} (hc : c.toNat < 128) :
    charToInt b = code c ↔ b = byte c := by
  have hb := b.toNat_lt
  have hbyte : (byte c).toNat = c.toNat := by
    simp only [byte, UInt8.toNat_ofNat']
    omega
  rw [← UInt8.toNat_inj, hbyte]
  unfold charToInt code
  split
  · omega
  · rename_i h
    have h' : ¬ b.toNat < 128 := h
    omega

@[simp] theorem run_nil (s : Scan) : run s [] = s := rfl

@[simp] theorem run_cons (s : Scan) (b : UInt8) (text : Text) :
    run s (b :: text) = run (advance s b) text := rfl

theorem run_append (s : Scan) (u v : Text) : run s (u ++ v) = run (run s u) v :=
  List.foldl_append

theorem run_failed (sections : List CfSection) (sec : Option CfSection) (text : Text) :
    run ⟨sections, sec, .failed⟩ text = ⟨sections, sec, .failed⟩ := by
  induction text with
  | nil => rfl
  | cons b text ih => exact ih

theorem run_stopped (sections : List CfSection) (sec : Option CfSection) (text : Text) :
    run ⟨sections, sec, .stopped⟩ text = ⟨sections, sec, .stopped⟩ := by
  induction text with
  | nil => rfl
  | cons b text ih => exact ih

theorem outcome_failed (sections : List CfSection) (text : Text) :
    outcome (run ⟨sections, none, .failed⟩ text) = (false, sections) := by
  rw [run_failed]
  simp [outcome, atEnd]

theorem bufAddch_bs (bytes : Text) (p : ℕ) :
    bufAddch ⟨bytes, p⟩ (code '\\') = ⟨bytes ++ [bs], p⟩ := rfl

theorem bufAddch_eof (bytes : Text) (p : ℕ) :
    bufAddch ⟨bytes ++ [bs], p⟩ eof = ⟨bytes ++ [bs, 255], p⟩ := by
  simp [bufAddch, eof, intToChar, UInt8.ofInt]

/-- The cursor has reached the end of the text. An end marker that was pushed
    back may stand in place of the last byte. -/
def EndReached (text past : Text) : Prop :=
  past = text ∨ ∃ front b, text = front ++ [b] ∧ past = front ++ [255]

/-- A loop has moved its cursor from `past` and `rest` to `past'` and `rest'`, and
    over the same bytes the automaton goes from `s` to `t`. -/
def Consumes (past rest past' rest' : Text) (s t : Scan) : Prop :=
  (rest' = [] ∧ EndReached (past ++ rest) past' ∧ outcome (run s rest) = outcome t) ∨
  ∃ chunk, chunk ≠ [] ∧ rest = chunk ++ rest' ∧ past' = past ++ chunk ∧ run s chunk = t

section Consuming
variable {past rest past' rest' : Text} {s t : Scan}

theorem Consumes.outcome_eq (h : Consumes past rest past' rest' s t) :
    outcome (run s rest) = outcome (run t rest') := by
  rcases h with ⟨rfl, _, he⟩ | ⟨chunk, _, rfl, _, rfl⟩
  · exact he
  · rw [run_append]

theorem Consumes.length_lt (h : Consumes past rest past' rest' s t) (hne : rest ≠ []) :
    rest'.length < rest.length := by
  rcases h with ⟨rfl, _⟩ | ⟨chunk, hc, rfl, _⟩
  · exact List.length_pos_iff.mpr hne
  · have hpos := List.length_pos_iff.mpr hc
    simp only [List.length_append]
    omega

theorem Consumes.cons {b : UInt8} {u : Scan} (hu : advance s b = u)
    (h : Consumes (past ++ [b]) rest past' rest' u t) :
    Consumes past (b :: rest) past' rest' s t := by
  subst hu
  rcases h with ⟨hr, hend, he⟩ | ⟨chunk, _, rfl, rfl, he⟩
  · exact .inl ⟨hr, by simpa using hend, he⟩
  · exact .inr ⟨b :: chunk, by simp, rfl, by simp, he⟩

/-- Only the first byte decides which of two states the automaton was in. -/
theorem Consumes.head {b : UInt8} {u : Scan} (hu : advance u b = advance s b)
    (h : Consumes past (b :: rest) past' rest' s t) :
    Consumes past (b :: rest) past' rest' u t := by
  rcases h with ⟨hr, hend, he⟩ | ⟨chunk, hne, hrest, hpast, he⟩
  · exact .inl ⟨hr, hend, by rw [run_cons, hu, ← run_cons, he]⟩
  · refine .inr ⟨chunk, hne, hrest, hpast, ?_⟩
    obtain ⟨d, chunk, rfl⟩ := List.exists_cons_of_ne_nil hne
    obtain ⟨rfl, _⟩ := List.cons.inj hrest
    rw [run_cons, hu, ← run_cons, he]

theorem Consumes.one (past rest : Text) {b : UInt8} (hu : advance s b = t) :
    Consumes past (b :: rest) (past ++ [b]) rest s t :=
  .inr ⟨[b], by simp, rfl, rfl, hu⟩

theorem Consumes.at_end (h : Consumes past [] past' rest' s t) :
    rest' = [] ∧ EndReached past past' ∧ outcome s = outcome t := by
  rcases h with ⟨hr, hend, he⟩ | ⟨chunk, hc, he, _⟩
  · exact ⟨hr, by simpa using hend, he⟩
  · exact absurd (List.append_eq_nil_iff.mp he.symm).1 hc

end Consuming

section Loops
variable (sections : List CfSection) (sec : Option CfSection)

theorem parseSectionName_run {fuel : ℕ} {past rest acc : Text} (p : ℕ)
    (hf : rest.length < fuel) :
    (∃ past' rest' acc',
      cfParseSectionName fuel (cursor past rest) ⟨acc, p⟩ =
        .ok (true, cursor past' rest', ⟨acc', p⟩) ∧
      Consumes past rest past' rest' ⟨sections, none, .name acc⟩
        ⟨sections, some ⟨cstr acc', []⟩, .line false⟩) ∨
    (∃ text name, cfParseSectionName fuel (cursor past rest) ⟨acc, p⟩ =
      .ok (false, text, name) ∧
      outcome (run ⟨sections, none, .name acc⟩ rest) = (false, sections)) := by
  induction rest generalizing fuel past acc with
  | nil =>
    obtain ⟨n, rfl⟩ : ∃ n, fuel = n + 1 := ⟨fuel - 1, by simp at hf; omega⟩
    refine .inr ⟨_, _, by rw [cfParseSectionName, fgetc_buf, bufFgetc_nil]; rfl, ?_⟩
    simp [outcome, atEnd]
  | cons b rest ih =>
    obtain ⟨n, rfl⟩ : ∃ n, fuel = n + 1 := ⟨fuel - 1, by simp at hf; omega⟩
    have hn : rest.length < n := by simpa using hf
    simp only [cfParseSectionName, fgetc_buf, bufFgetc_cons, charToInt_neg_iff,
      charToInt_eq_code_iff b (by decide : '\n'.toNat < 128),
      charToInt_eq_code_iff b (by decide : ']'.toNat < 128), run_cons]
    have hstep : advance ⟨sections, none, .name acc⟩ b =
        if ¬ b < 128 then ⟨sections, none, .failed⟩
        else if b = byte '\n' then ⟨sections, none, .failed⟩
        else if b = byte ']' then ⟨sections, some ⟨cstr acc, []⟩, .line false⟩
        else ⟨sections, none, .name (acc ++ [b])⟩ := rfl
    split
    · rename_i hb
      rw [if_pos hb] at hstep
      exact .inr ⟨_, _, rfl, by rw [hstep, outcome_failed]⟩
    rename_i hb
    rw [if_neg hb] at hstep
    split
    · rename_i hb
      rw [if_pos hb] at hstep
      exact .inr ⟨_, _, rfl, by rw [hstep, outcome_failed]⟩
    rename_i hb
    rw [if_neg hb] at hstep
    split
    · rename_i hb
      rw [if_pos hb] at hstep
      exact .inl ⟨_, rest, acc, rfl, .one past rest hstep⟩
    · rename_i hb
      rw [if_neg hb] at hstep
      rw [bufAddch_char, hstep]
      rcases @ih n (past ++ [b]) (acc ++ [b]) hn with ⟨past', rest', acc', hp, hc⟩ | hfail
      · exact .inl ⟨past', rest', acc', hp, hc.cons hstep⟩
      · exact .inr hfail

theorem parseValueLoop_run {fuel : ℕ} {past rest acc : Text} (key : Text) (p : ℕ)
    (hf : rest.length < fuel) :
    ∃ past' rest' acc',
      parseValueLoop fuel (cursor past rest) ⟨acc, p⟩ =
        .ok (true, cursor past' rest', ⟨acc', p⟩) ∧
      Consumes past rest past' rest' ⟨sections, sec, .value key acc⟩
        (closeEntry ⟨sections, sec, .line false⟩ key acc') := by
  induction fuel generalizing past rest acc with
  | zero => omega
  | succ n ih =>
    cases rest with
    | nil =>
      refine ⟨past, [], acc, by rw [parseValueLoop, fgetc_buf, bufFgetc_nil]; rfl,
        .inl ⟨rfl, ?_, ?_⟩⟩
      · exact .inl (List.append_nil past).symm
      · simp [outcome, atEnd, closeEntry]
    | cons b rest =>
      simp only [List.length_cons, Nat.add_lt_add_iff_right] at hf
      simp only [parseValueLoop, fgetc_buf, bufFgetc_cons, charToInt_neg_iff,
        charToInt_eq_code_iff b (by decide : '\n'.toNat < 128),
        charToInt_eq_code_iff b (by decide : '\\'.toNat < 128)]
      have hstep : advance ⟨sections, sec, .value key acc⟩ b =
          advanceValue ⟨sections, sec, .value key acc⟩ key acc b := rfl
      unfold advanceValue at hstep
      by_cases hhigh : ¬ b < 128
      · rw [if_pos hhigh] at hstep ⊢
        exact ⟨_, rest, acc, rfl, .one past rest hstep⟩
      rw [if_neg hhigh] at hstep ⊢
      by_cases hbs : b = bs
      · rw [if_pos hbs] at hstep
        rw [if_pos (show b = byte '\\' from hbs)]
        cases rest with
        | nil =>
          -- the end marker is stored as a byte, and the next round sees the end again
          obtain ⟨past', rest', acc', hp, hc⟩ :=
            @ih (past ++ [b]) [] (acc ++ [bs, 255]) (by simpa using hf)
          obtain ⟨hr, hend, he⟩ := hc.at_end
          refine ⟨past', rest', acc', ?_, .inl ⟨hr, hend, ?_⟩⟩
          · rw [bufFgetc_nil, bufAddch_bs, bufAddch_eof]
            exact hp
          · rw [← he, run_cons, hstep]
            rfl
        | cons d rest =>
          simp only [bufFgetc_cons, charToInt_eq_code_iff d (by decide : '\n'.toNat < 128)]
          simp only [List.length_cons] at hf
          have hnext : advance ⟨sections, sec, .escape key acc⟩ d =
              if d = nl then ⟨sections, sec, .value key acc⟩
              else ⟨sections, sec, .value key (acc ++ [bs, d])⟩ := rfl
          by_cases hd : d = nl
          · rw [if_pos hd] at hnext
            rw [if_pos (show d = byte '\n' from hd)]
            obtain ⟨past', rest', acc', hp, hc⟩ := @ih (past ++ [b] ++ [d]) rest acc (by omega)
            exact ⟨past', rest', acc', hp, (hc.cons hnext).cons hstep⟩
          · rw [if_neg hd, show acc ++ [bs, d] = acc ++ [bs] ++ [d] by simp] at hnext
            rw [if_neg (show ¬ d = byte '\n' from hd), bufAddch_bs, bufAddch_char]
            obtain ⟨past', rest', acc', hp, hc⟩ :=
              @ih (past ++ [b] ++ [d]) rest (acc ++ [bs] ++ [d]) (by omega)
            exact ⟨past', rest', acc', hp, (hc.cons hnext).cons hstep⟩
      rw [if_neg hbs] at hstep
      rw [if_neg (show ¬ b = byte '\\' from hbs)]
      by_cases hnl : b = nl
      · rw [if_pos hnl] at hstep
        rw [if_pos (show b = byte '\n' from hnl)]
        exact ⟨_, rest, acc, rfl, .one past rest hstep⟩
      · rw [if_neg hnl] at hstep
        rw [if_neg (show ¬ b = byte '\n' from hnl), bufAddch_char]
        obtain ⟨past', rest', acc', hp, hc⟩ := @ih (past ++ [b]) rest (acc ++ [b]) hf
        exact ⟨past', rest', acc', hp, hc.cons hstep⟩

theorem space_iff (b : UInt8) :
    (!isspace (charToInt b) || decide (charToInt b = code '\n')) = true ↔
      ¬ (space b ∧ b ≠ nl) := by
  rw [Bool.or_eq_true, decide_eq_true_eq,
    charToInt_eq_code_iff b (by decide : '\n'.toNat < 128)]
  change _ ∨ b = nl ↔ _
  cases hs : isspace (charToInt b) <;> simp [space, hs]

/-- Skipping hands the first byte that is no white space to the value loop. At
    the end of the text it is the end marker, written over the byte before. -/
theorem skipInitialSpaces_run {fuel : ℕ} {past rest : Text} (c : UInt8) (key : Text)
    (hf : rest.length < fuel) :
    ∃ past₁ rest₁,
      skipInitialSpaces fuel (cursor (past ++ [c]) rest) = .ok (cursor past₁ rest₁) ∧
      rest₁.length ≤ max 1 rest.length ∧
      ∀ past' rest' t, Consumes past₁ rest₁ past' rest'
        ⟨sections, sec, .value key []⟩ t →
        Consumes (past ++ [c]) rest past' rest' ⟨sections, sec, .skip key⟩ t := by
  induction rest generalizing past c fuel with
  | nil =>
    obtain ⟨n, rfl⟩ : ∃ n, fuel = n + 1 := ⟨fuel - 1, by simp at hf; omega⟩
    refine ⟨past, [255], ?_, by simp, fun past' rest' t h => .inl ?_⟩
    · rw [skipInitialSpaces, fgetc_buf, bufFgetc_nil]
      simp only [ungetc_buf, bufUngetc_concat]
      rfl
    · rcases h with ⟨hr, hend, he⟩ | ⟨chunk, hne, hrest, hpast, he⟩
      · refine ⟨hr, ?_, he⟩
        rw [List.append_nil]
        rcases hend with rfl | ⟨front, b, hfront, rfl⟩
        · exact .inr ⟨past, c, rfl, rfl⟩
        · obtain ⟨rfl, _⟩ := List.append_inj' hfront rfl
          exact .inr ⟨past, c, rfl, rfl⟩
      · obtain ⟨d, chunk, rfl⟩ := List.exists_cons_of_ne_nil hne
        obtain ⟨rfl, hnil⟩ := List.cons.inj hrest
        obtain ⟨rfl, rfl⟩ := List.append_eq_nil_iff.mp hnil.symm
        subst hpast he
        exact ⟨rfl, .inr ⟨past, c, List.append_nil _, rfl⟩, rfl⟩
  | cons b rest ih =>
    obtain ⟨n, rfl⟩ : ∃ n, fuel = n + 1 := ⟨fuel - 1, by omega⟩
    simp only [List.length_cons] at hf ⊢
    simp only [skipInitialSpaces, fgetc_buf, bufFgetc_cons, space_iff]
    by_cases hb : space b ∧ b ≠ nl
    · obtain ⟨past₁, rest₁, hp, hl, hc⟩ := @ih n (past ++ [c]) b (by omega)
      rw [if_neg (not_not.mpr hb)]
      refine ⟨past₁, rest₁, hp, by omega,
        fun past' rest' t h => (hc past' rest' t h).cons ?_⟩
      simp only [advance]
      rw [if_pos hb]
    · rw [if_pos hb]
      simp only [ungetc_buf, bufUngetc_char]
      refine ⟨past ++ [c], b :: rest, rfl, by simp, fun past' rest' t h => h.head ?_⟩
      simp only [advance]
      rw [if_neg hb]
      rfl

theorem parseValue_run {fuel : ℕ} {past rest : Text} (c : UInt8) (key : Text) (p : ℕ)
    (hf : rest.length + 1 < fuel) :
    ∃ past' rest' acc',
      cfParseValue fuel (cursor (past ++ [c]) rest) ⟨[], p⟩ =
        .ok (true, cursor past' rest', ⟨acc', p⟩) ∧
      Consumes (past ++ [c]) rest past' rest' ⟨sections, sec, .skip key⟩
        (closeEntry ⟨sections, sec, .line false⟩ key acc') := by
  obtain ⟨past₁, rest₁, hskip, hl, hc⟩ :=
    @skipInitialSpaces_run sections sec fuel past rest c key (by omega)
  obtain ⟨past', rest', acc, hloop, hv⟩ :=
    @parseValueLoop_run sections sec fuel past₁ rest₁ [] key p (by omega)
  refine ⟨past', rest', acc, ?_, hc past' rest' _ hv⟩
  rw [cfParseValue, hskip]
  exact hloop

theorem parseKeyValuePair_run {fuel : ℕ} {past rest acc : Text} (p q : ℕ)
    (hf : rest.length < fuel) :
    (∃ past' rest' key value,
      cfParseKeyValuePair fuel (cursor past rest) ⟨acc, p⟩ ⟨[], q⟩ =
        .ok (true, cursor past' rest', bufRtrim ⟨key, p⟩, ⟨value, q⟩) ∧
      Consumes past rest past' rest' ⟨sections, sec, .key acc⟩
        (closeEntry ⟨sections, sec, .line false⟩ key value)) ∨
    (∃ text key value,
      cfParseKeyValuePair fuel (cursor past rest) ⟨acc, p⟩ ⟨[], q⟩ =
        .ok (false, text, key, value) ∧
      outcome (run ⟨sections, sec, .key acc⟩ rest) = (false, sections)) := by
  induction rest generalizing fuel past acc with
  | nil =>
    obtain ⟨n, rfl⟩ : ∃ n, fuel = n + 1 := ⟨fuel - 1, by simp at hf; omega⟩
    refine .inr ⟨_, _, _, by rw [cfParseKeyValuePair, fgetc_buf, bufFgetc_nil]; rfl, ?_⟩
    simp [outcome, atEnd]
  | cons b rest ih =>
    obtain ⟨n, rfl⟩ : ∃ n, fuel = n + 1 := ⟨fuel - 1, by simp at hf; omega⟩
    have hn : rest.length < n := by simpa using hf
    simp only [cfParseKeyValuePair, fgetc_buf, bufFgetc_cons, charToInt_neg_iff,
      charToInt_eq_code_iff b (by decide : '\n'.toNat < 128),
      charToInt_eq_code_iff b (by decide : '['.toNat < 128),
      charToInt_eq_code_iff b (by decide : ']'.toNat < 128),
      charToInt_eq_code_iff b (by decide : '='.toNat < 128), run_cons]
    have hstep : advance ⟨sections, sec, .key acc⟩ b =
        if ¬ b < 128 then ⟨sections, none, .failed⟩
        else if b = byte '\n' then ⟨sections, none, .failed⟩
        else if b = byte '[' ∨ b = byte ']' then ⟨sections, none, .failed⟩
        else if b = byte '=' then ⟨sections, sec, .skip acc⟩
        else ⟨sections, sec, .key (acc ++ [b])⟩ := rfl
    split
    · rename_i hb
      rw [if_pos hb] at hstep
      exact .inr ⟨_, _, _, rfl, by rw [hstep, outcome_failed]⟩
    rename_i hb
    rw [if_neg hb] at hstep
    split
    · rename_i hb
      rw [if_pos hb] at hstep
      exact .inr ⟨_, _, _, rfl, by rw [hstep, outcome_failed]⟩
    rename_i hb
    rw [if_neg hb] at hstep
    split
    · rename_i hb
      rw [if_pos hb] at hstep
      exact .inr ⟨_, _, _, rfl, by rw [hstep, outcome_failed]⟩
    rename_i hb
    rw [if_neg hb] at hstep
    split
    · rename_i hb
      rw [if_pos hb] at hstep
      obtain ⟨past', rest', value, hp, hc⟩ :=
        @parseValue_run sections sec (n + 1) past rest b acc q (by omega)
      rw [hp]
      exact .inl ⟨past', rest', acc, value, rfl, hc.cons hstep⟩
    · rename_i hb
      rw [if_neg hb] at hstep
      rw [bufAddch_char, hstep]
      rcases @ih n (past ++ [b]) (acc ++ [b]) hn with ⟨past', rest', key, value, hp, hc⟩ | hfail
      · exact .inl ⟨past', rest', key, value, hp, hc.cons hstep⟩
      · exact .inr hfail

end Loops

theorem cfKvNew_close (key value : Text) (p q : ℕ) :
    cfKvNew (bufRtrim ⟨key, p⟩) (bufRtrim ⟨value, q⟩) =
      ⟨cstr (trimRight key), cstr (trimRight value)⟩ := by
  simp only [cfKvNew, bufRtrim_bytes]

/-- More rounds than bytes let the main loop reach the end of the text. -/
theorem parseTextLoop_run {fuel : ℕ} {past rest : Text} (cf : Cf) (sec : Option CfSection)
    (comment : Bool) (hf : rest.length < fuel) :
    ∃ text, parseTextLoop fuel cf (cursor past rest) sec comment =
      .ok ((outcome (run ⟨cf.sections, sec, .line comment⟩ rest)).1,
        ⟨(outcome (run ⟨cf.sections, sec, .line comment⟩ rest)).2⟩, text) := by
  induction fuel generalizing past rest cf sec comment with
  | zero => omega
  | succ n ih =>
    cases rest with
    | nil =>
      rw [parseTextLoop, round_buf, fgetc_buf, bufFgetc_nil]
      exact ⟨_, rfl⟩
    | cons b rest =>
      simp only [List.length_cons] at hf
      have hn : rest.length < n := by omega
      simp only [parseTextLoop, round_buf, fgetc_buf, bufFgetc_cons, charToInt_neg_iff,
        charToInt_eq_code_iff b (by decide : '\n'.toNat < 128),
        charToInt_eq_code_iff b (by decide : ';'.toNat < 128),
        charToInt_eq_code_iff b (by decide : '#'.toNat < 128),
        charToInt_eq_code_iff b (by decide : '['.toNat < 128),
        charToInt_eq_code_iff b (by decide : '='.toNat < 128), run_cons, advance, advanceLine, nl,
        space]
      split
      · rw [run_stopped]
        exact ⟨_, rfl⟩
      split
      · exact ih cf sec false hn
      split
      · exact ih cf sec comment hn
      split
      · exact ih cf sec true hn
      have hcomment : comment = false := by
        rename_i hc _
        simp only [Bool.or_eq_true, not_or, Bool.not_eq_true] at hc
        exact hc.1
      subst hcomment
      split
      · rcases @parseSectionName_run (pushSection cf sec).sections (n + 1) (past ++ [b]) rest [] 0
          (by omega) with ⟨past', rest', acc', hp, hc⟩ | ⟨text, name, hp, hr⟩
        · change cfParseSectionName (n + 1) _ bufInit = _ at hp
          rw [hp]
          have hrest : rest ≠ [] := by
            rintro rfl
            cases hc.at_end.2.2
          have hl := hc.length_lt hrest
          obtain ⟨text, ht⟩ := @ih past' rest' (pushSection cf sec)
            (some ⟨cstr acc', []⟩) false
            (by omega)
          refine ⟨text, ht.trans ?_⟩
          have hr := hc.outcome_eq
          change outcome (run ⟨cf.sections ++ sec.toList, none, .name []⟩ rest) = _ at hr
          rw [hr]
        · change cfParseSectionName (n + 1) _ bufInit = _ at hp
          rw [hp]
          refine ⟨text, ?_⟩
          have hfail : outcome (run ⟨cf.sections ++ sec.toList, none, .name []⟩ rest) =
              (false, (pushSection cf sec).sections) := hr
          rw [hfail]
      split
      · rw [outcome_failed]
        exact ⟨_, rfl⟩
      · rw [ungetc_buf, bufUngetc_char]
        rcases @parseKeyValuePair_run cf.sections sec (n + 1) past (b :: rest) [] 0 0
          (by simpa using hf) with ⟨past', rest', key, value, hp, hc⟩ |
            ⟨text, key, value, hp, hr⟩
        · change cfParseKeyValuePair (n + 1) _ bufInit bufInit = _ at hp
          rw [hp]
          have hl := hc.length_lt (by simp)
          simp only [List.length_cons] at hl
          have hr := hc.outcome_eq
          obtain ⟨text, ht⟩ := @ih past' rest' cf
            (attachEntry ⟨cstr (trimRight key), cstr (trimRight value)⟩ sec) false (by omega)
          refine ⟨text, ?_⟩
          change parseTextLoop n cf _
            (attachEntry (cfKvNew _ (bufRtrim ⟨value, 0⟩)) sec) false = _
          rw [cfKvNew_close]
          refine ht.trans ?_
          rw [run_cons] at hr
          change outcome (run (advanceKey ⟨cf.sections, sec, .line false⟩ [] b) rest) = _ at hr
          rw [hr]
          rfl
        · change cfParseKeyValuePair (n + 1) _ bufInit bufInit = _ at hp
          rw [hp]
          refine ⟨text, ?_⟩
          rw [run_cons] at hr
          change outcome (run (advanceKey ⟨cf.sections, sec, .line false⟩ [] b) rest) = _ at hr
          rw [hr]

/-- The parser computes what one pass of the automaton computes. -/
theorem cfAddFromString_scan {fuel : ℕ} {text : Text} (cf : Cf) (hf : text.length < fuel) :
    cfAddFromString fuel cf text =
      .ok ((scan cf.sections text).1, ⟨(scan cf.sections text).2⟩) := by
  obtain ⟨past, hp⟩ := @parseTextLoop_run fuel [] text cf none false hf
  have hparse : cfParseText fuel cf (bufAddstr bufInit text) = _ := hp
  simp only [cfAddFromString, hparse]
  rfl

/-- The same scan with other sections before those it has found. -/
def Scan.after (before : List CfSection) (s : Scan) : Scan :=
  { s with sections := before ++ s.sections }

theorem advance_after (before : List CfSection) (s : Scan) (b : UInt8) :
    advance (s.after before) b = (advance s b).after before := by
  obtain ⟨sections, sec, mode⟩ := s
  have hkey (acc : Text) : advanceKey ⟨before ++ sections, sec, mode⟩ acc b =
      (advanceKey ⟨sections, sec, mode⟩ acc b).after before := by
    unfold advanceKey
    split_ifs <;> rfl
  have hvalue (key acc : Text) : advanceValue ⟨before ++ sections, sec, mode⟩ key acc b =
      (advanceValue ⟨sections, sec, mode⟩ key acc b).after before := by
    unfold advanceValue
    split_ifs <;> rfl
  cases mode with
  | line comment =>
    simp only [advance, Scan.after, advanceLine, hkey]
    split_ifs <;> simp
  | name acc =>
    simp only [advance, Scan.after]
    split_ifs <;> rfl
  | key acc => exact hkey acc
  | skip key =>
    simp only [advance, Scan.after, hvalue]
    split_ifs <;> rfl
  | value key acc => exact hvalue key acc
  | escape key acc =>
    simp only [advance, Scan.after]
    split_ifs <;> rfl
  | stopped => rfl
  | failed => rfl

theorem run_after (before : List CfSection) (s : Scan) (text : Text) :
    run (s.after before) text = (run s text).after before := by
  induction text generalizing s with
  | nil => rfl
  | cons b text ih => rw [run_cons, run_cons, advance_after, ih]

theorem outcome_after (before : List CfSection) (s : Scan) :
    outcome (s.after before) = ((outcome s).1, before ++ (outcome s).2) := by
  obtain ⟨sections, sec, mode⟩ := s
  cases mode <;> simp [outcome, atEnd, Scan.after, closeEntry]

theorem scan_append (sections : List CfSection) (text : Text) :
    scan sections text = ((scan [] text).1, sections ++ (scan [] text).2) := by
  have hstart : start sections = (start []).after sections := by simp [start, Scan.after]
  unfold scan
  rw [hstart, run_after, outcome_after]

end Pathcomp.Scanner
