import Pathcomp.Scanner
import Mathlib.Algebra.Group.Nat.Even

set_option autoImplicit false

/-!
# Parsing undoes printing

A printed configuration may be laid out freely: white space around keys and
values, continuation lines inside values, blank lines and comments. The parser
gives back the sections whatever the layout.
-/
namespace Pathcomp.RoundTrip
open Bytes Buffer Config Scanner

def Printable (b : UInt8) : Prop := b ≠ 0 ∧ b < 128

instance (b : UInt8) : Decidable (Printable b) := inferInstanceAs (Decidable (_ ∧ _))

structure PrintableName (name : Text) : Prop where
  bytes : ∀ b ∈ name, Printable b ∧ b ≠ nl ∧ b ≠ byte ']'

structure PrintableKey (key : Text) : Prop where
  nonempty : key ≠ []
  bytes : ∀ b ∈ key, Printable b ∧ b ≠ nl ∧ b ≠ byte '=' ∧
    b ≠ byte '[' ∧ b ≠ byte ']'
  first : ∀ b ∈ key.head?, ¬ space b ∧ b ≠ byte ';' ∧ b ≠ byte '#'
  last : ∀ b ∈ key.getLast?, ¬ space b

structure PrintableValue (value : Text) : Prop where
  bytes : ∀ b ∈ value, Printable b ∧ b ≠ nl
  first : ∀ b ∈ value.head?, ¬ space b
  last : ∀ b ∈ value.getLast?, ¬ space b

structure PrintableSection (sec : CfSection) : Prop where
  name : PrintableName sec.name
  keys : ∀ kv ∈ sec.entries, PrintableKey kv.key
  values : ∀ kv ∈ sec.entries, PrintableValue kv.value

/-- White space within a line. -/
def Blank (ws : Text) : Prop := ∀ b ∈ ws, space b ∧ b ≠ nl

instance (ws : Text) : Decidable (Blank ws) := List.decidableBAll _ ws

inductive Filler : Text → Prop where
  | blank {ws : Text} (hws : Blank ws) : Filler (ws ++ [nl])
  | comment {ws text : Text} {mark : UInt8} (hws : Blank ws)
      (hmark : mark = byte ';' ∨ mark = byte '#')
        (htext : ∀ b ∈ text, Printable b ∧ b ≠ nl) :
      Filler (ws ++ mark :: text ++ [nl])

inductive Fillers : Text → Prop where
  | nil : Fillers []
  | cons {first rest : Text} (h : Filler first) (tail : Fillers rest) : Fillers (first ++ rest)

def trailingBackslashes (s : Text) : ℕ := (s.reverse.takeWhile (· = bs)).length

/-- The bytes `rest` of a value whose bytes `seen` are printed already, with a
    backslash and a newline wherever an even number of backslashes precedes. -/
inductive Continued : Text → Text → Text → Prop where
  | done {seen : Text} : Continued seen [] []
  | char {seen rest text : Text} (b : UInt8) (tail : Continued (seen ++ [b]) rest text) :
      Continued seen (b :: rest) (b :: text)
  | cut {seen rest text : Text} (heven : Even (trailingBackslashes seen))
      (tail : Continued seen rest text) : Continued seen rest (bs :: nl :: text)

/-- A line `ws key ws = ws value ws newline`. -/
inductive PrintsEntry : CfKv → Text → Prop where
  | mk {kv : CfKv} {before between after close printed : Text} (hbefore : Blank before)
      (hbetween : Blank between) (hafter : Blank after) (hclose : Blank close)
      (hprinted : Continued [] kv.value printed)
      (hodd : close = [] → Even (trailingBackslashes kv.value)) :
      PrintsEntry kv
        (before ++ kv.key ++ between ++ byte '=' :: after ++ printed ++ close ++ [nl])

inductive PrintsEntries : List CfKv → Text → Prop where
  | nil {fill : Text} (hfill : Fillers fill) : PrintsEntries [] fill
  | cons {kv : CfKv} {entries : List CfKv} {fill line rest : Text} (hfill : Fillers fill)
      (hline : PrintsEntry kv line) (tail : PrintsEntries entries rest) :
      PrintsEntries (kv :: entries) (fill ++ line ++ rest)

inductive Prints : List CfSection → Text → Prop where
  | nil {fill : Text} (hfill : Fillers fill) : Prints [] fill
  | cons {sec : CfSection} {sections : List CfSection} {fill before body rest : Text}
      (hfill : Fillers fill) (hbefore : Blank before) (hbody : PrintsEntries sec.entries body)
      (tail : Prints sections rest) :
      Prints (sec :: sections)
        (fill ++ before ++ byte '[' :: sec.name ++ byte ']' :: body ++ rest)

theorem space_lt {b : UInt8} (h : space b) : b < 128 := by
  rw [← charToInt_nonneg_iff]
  simp only [space, isspace, Bool.or_eq_true, decide_eq_true_eq, Bool.and_eq_true] at h
  omega

theorem space_ne {b : UInt8} (h : space b) {c : Char} (hc : space (byte c) = false) :
    b ≠ byte c := by
  rintro rfl
  rw [hc] at h
  cases h

section Parts
variable (sections : List CfSection) (sec : Option CfSection)

theorem run_line_blank {ws : Text} (h : Blank ws) :
    run ⟨sections, sec, .line false⟩ ws = ⟨sections, sec, .line false⟩ := by
  induction ws with
  | nil => rfl
  | cons b ws ih =>
    obtain ⟨hs, hnl⟩ := h b (by simp)
    have hb : advance ⟨sections, sec, .line false⟩ b = ⟨sections, sec, .line false⟩ := by
      simp [advance, advanceLine, space_lt hs, hs, hnl]
    rw [run_cons, hb]
    exact ih fun d hd => h d (by simp [hd])

theorem run_comment {text : Text} (h : ∀ b ∈ text, Printable b ∧ b ≠ nl) :
    run ⟨sections, sec, .line true⟩ text = ⟨sections, sec, .line true⟩ := by
  induction text with
  | nil => rfl
  | cons b text ih =>
    obtain ⟨hp, hnl⟩ := h b (by simp)
    have hb : advance ⟨sections, sec, .line true⟩ b = ⟨sections, sec, .line true⟩ := by
      simp [advance, advanceLine, hp.2, hnl]
    rw [run_cons, hb]
    exact ih fun d hd => h d (by simp [hd])

theorem run_filler {fill : Text} (h : Filler fill) :
    run ⟨sections, sec, .line false⟩ fill = ⟨sections, sec, .line false⟩ := by
  cases h with
  | blank hws =>
    rw [run_append, run_line_blank sections sec hws]
    rfl
  | @comment ws text mark hws hmark htext =>
    have hm : advance ⟨sections, sec, .line false⟩ mark = ⟨sections, sec, .line true⟩ := by
      rcases hmark with rfl | rfl <;> rfl
    rw [run_append, run_append, run_line_blank sections sec hws, run_cons _ mark, hm,
      run_comment sections sec htext]
    rfl

theorem run_fillers {fill : Text} (h : Fillers fill) :
    run ⟨sections, sec, .line false⟩ fill = ⟨sections, sec, .line false⟩ := by
  induction h with
  | nil => rfl
  | cons h _ ih => rw [run_append, run_filler sections sec h, ih]

theorem run_name {name : Text} (h : PrintableName name) (acc : Text) :
    run ⟨sections, none, .name acc⟩ name = ⟨sections, none, .name (acc ++ name)⟩ := by
  obtain ⟨h⟩ := h
  induction name generalizing acc with
  | nil => simp
  | cons b name ih =>
    obtain ⟨hp, hnl, hclose⟩ := h b (by simp)
    have hb : advance ⟨sections, none, .name acc⟩ b =
        ⟨sections, none, .name (acc ++ [b])⟩ := by
      simp [advance, hp.2, hnl, hclose]
    rw [run_cons, hb, ih _ (fun d hd => h d (by simp [hd]))]
    simp

theorem run_header {name : Text} (h : PrintableName name) :
    run ⟨sections, sec, .line false⟩ (byte '[' :: name ++ [byte ']']) =
      ⟨sections ++ sec.toList, some ⟨name, []⟩, .line false⟩ := by
  have hopen : advance ⟨sections, sec, .line false⟩ (byte '[') =
      ⟨sections ++ sec.toList, none, .name []⟩ := rfl
  have hname : cstr name = name := cstr_of_nul_free name fun b hb => (h.bytes b hb).1.1
  rw [List.cons_append, run_cons, hopen, run_append, run_name _ h]
  simp only [run_cons, run_nil, advance, List.nil_append]
  rw [hname]
  rfl

/-- Bytes that the key loop stores. -/
theorem run_key {text : Text} (acc : Text)
    (h : ∀ b ∈ text, b < 128 ∧ b ≠ nl ∧ b ≠ byte '=' ∧
      b ≠ byte '[' ∧ b ≠ byte ']') :
    run ⟨sections, sec, .key acc⟩ text = ⟨sections, sec, .key (acc ++ text)⟩ := by
  induction text generalizing acc with
  | nil => simp
  | cons b text ih =>
    obtain ⟨hlt, hnl, heq, hopen, hclose⟩ := h b (by simp)
    have hb : advance ⟨sections, sec, .key acc⟩ b = ⟨sections, sec, .key (acc ++ [b])⟩ := by
      simp [advance, advanceKey, hlt, hnl, heq, hopen, hclose]
    rw [run_cons, hb, ih _ (fun d hd => h d (by simp [hd]))]
    simp

theorem run_line_key {key : Text} (h : PrintableKey key) :
    run ⟨sections, sec, .line false⟩ key = ⟨sections, sec, .key key⟩ := by
  cases key with
  | nil => exact absurd rfl h.nonempty
  | cons b key =>
    obtain ⟨hp, hnl, heq, hopen, hclose⟩ := h.bytes b (by simp)
    obtain ⟨hs, hsemi, hhash⟩ := h.first b rfl
    have hb : advance ⟨sections, sec, .line false⟩ b = ⟨sections, sec, .key [b]⟩ := by
      simp [advance, advanceLine, advanceKey, hp.2, hnl, hs, hsemi, hhash, hopen, heq, hclose]
    rw [run_cons, hb, run_key]
    · rfl
    · intro d hd
      obtain ⟨hp, hrest⟩ := h.bytes d (by simp [hd])
      exact ⟨hp.2, hrest⟩

theorem Blank.key_bytes {ws : Text} (h : Blank ws) :
    ∀ b ∈ ws, b < 128 ∧ b ≠ nl ∧ b ≠ byte '=' ∧
    b ≠ byte '[' ∧ b ≠ byte ']' := by
  intro b hb
  obtain ⟨hs, hnl⟩ := h b hb
  exact ⟨space_lt hs, hnl, space_ne hs (by decide), space_ne hs (by decide),
    space_ne hs (by decide)⟩

theorem run_skip_blank {ws : Text} (key : Text) (h : Blank ws) :
    run ⟨sections, sec, .skip key⟩ ws = ⟨sections, sec, .skip key⟩ := by
  induction ws with
  | nil => rfl
  | cons b ws ih =>
    have hb : advance ⟨sections, sec, .skip key⟩ b = ⟨sections, sec, .skip key⟩ := by
      simp [advance, h b (by simp)]
    rw [run_cons, hb]
    exact ih fun d hd => h d (by simp [hd])

/-- The first byte that is not skipped is read as the first of the value. -/
theorem run_skip_value (key : Text) {b : UInt8} (text : Text) (hb : ¬ (space b ∧ b ≠ nl)) :
    run ⟨sections, sec, .skip key⟩ (b :: text) =
      run ⟨sections, sec, .value key []⟩ (b :: text) := by
  have hstep : advance ⟨sections, sec, .skip key⟩ b =
      advance ⟨sections, sec, .value key []⟩ b := by
    simp only [advance]
    rw [if_neg hb]
    rfl
  rw [run_cons, run_cons, hstep]

end Parts

theorem trailingBackslashes_concat (s : Text) (b : UInt8) :
    trailingBackslashes (s ++ [b]) = if b = bs then trailingBackslashes s + 1 else 0 := by
  unfold trailingBackslashes
  rw [List.reverse_append, List.reverse_singleton, List.singleton_append, List.takeWhile_cons]
  by_cases h : b = bs
  · simp [h]
  · simp [h]

theorem exists_of_odd {s : Text} (h : ¬ Even (trailingBackslashes s)) : ∃ t, s = t ++ [bs] := by
  rcases List.eq_nil_or_concat s with rfl | ⟨t, b, rfl⟩
  · exact absurd (by decide) h
  · refine ⟨t, ?_⟩
    rw [List.concat_eq_append, trailingBackslashes_concat] at h
    by_cases hb : b = bs
    · rw [hb, List.concat_eq_append]
    · rw [if_neg hb] at h
      exact absurd (by decide) h

/-- Where the value loop stands after the bytes `seen` of a value: an odd
    number of backslashes at the end has just opened an escape. -/
def valueMode (key seen : Text) : Mode :=
  if Even (trailingBackslashes seen) then .value key seen else .escape key seen.dropLast

section Value
variable (sections : List CfSection) (sec : Option CfSection) (key : Text)

theorem advance_value {seen : Text} {b : UInt8} (hb : b < 128) (hnl : b ≠ nl) :
    advance ⟨sections, sec, valueMode key seen⟩ b =
      ⟨sections, sec, valueMode key (seen ++ [b])⟩ := by
  have hcount := trailingBackslashes_concat seen b
  by_cases heven : Even (trailingBackslashes seen)
  · by_cases hbs : b = bs
    · subst hbs
      have hodd : ¬ Even (trailingBackslashes (seen ++ [bs])) := by
        rw [hcount, if_pos rfl, Nat.even_add_one]
        exact not_not.mpr heven
      simp [valueMode, heven, hodd, advance, advanceValue, hb]
    · rw [if_neg hbs] at hcount
      simp [valueMode, heven, hcount, advance, advanceValue, hb, hbs, hnl]
  · obtain ⟨t, rfl⟩ := exists_of_odd heven
    have heven' : Even (trailingBackslashes (t ++ [bs] ++ [b])) := by
      rw [hcount]
      split
      · rw [Nat.even_add_one]
        exact heven
      · decide
    simp only [valueMode, heven, heven', ↓reduceIte, advance, hnl, List.dropLast_concat]
    rw [List.append_assoc]
    rfl

theorem run_value {seen text : Text} (h : ∀ b ∈ text, b < 128 ∧ b ≠ nl) :
    run ⟨sections, sec, valueMode key seen⟩ text =
      ⟨sections, sec, valueMode key (seen ++ text)⟩ := by
  induction text generalizing seen with
  | nil => simp
  | cons b text ih =>
    obtain ⟨hb, hnl⟩ := h b (by simp)
    rw [run_cons, advance_value sections sec key hb hnl, ih fun d hd => h d (by simp [hd])]
    simp

theorem run_continued {seen rest text : Text} (h : Continued seen rest text)
    (hrest : ∀ b ∈ rest, b < 128 ∧ b ≠ nl) :
    run ⟨sections, sec, valueMode key seen⟩ text =
      ⟨sections, sec, valueMode key (seen ++ rest)⟩ := by
  induction h with
  | done => simp
  | char b _ ih =>
    obtain ⟨hb, hnl⟩ := hrest b (by simp)
    rw [run_cons, advance_value sections sec key hb hnl, ih fun d hd => hrest d (by simp [hd])]
    simp
  | @cut seen rest text heven _ ih =>
    have hskip : run ⟨sections, sec, valueMode key seen⟩ [bs, nl] =
        ⟨sections, sec, valueMode key seen⟩ := by
      simp only [valueMode, heven, ↓reduceIte]
      rfl
    have hsplit : bs :: nl :: text = [bs, nl] ++ text := rfl
    rw [hsplit, run_append, hskip, ih hrest]

theorem advance_value_newline {seen : Text} (heven : Even (trailingBackslashes seen)) :
    advance ⟨sections, sec, valueMode key seen⟩ nl =
      closeEntry ⟨sections, sec, .line false⟩ key seen := by
  simp only [valueMode, heven, ↓reduceIte]
  rfl

end Value

theorem trimRight_blank {s ws : Text} (hs : ∀ b ∈ s.getLast?, ¬ space b) (hws : Blank ws) :
    trimRight (s ++ ws) = s := by
  have hdrop : trimRight (s ++ ws) = trimRight s := by
    unfold trimRight List.rdropWhile
    rw [List.reverse_append, List.dropWhile_append_of_pos]
    intro b hb
    exact (hws b (List.mem_reverse.mp hb)).1
  rw [hdrop]
  refine List.rdropWhile_eq_self_iff.mpr fun hne => ?_
  exact hs _ (List.getLast?_eq_getLast_of_ne_nil hne)

theorem Blank.value_bytes {ws : Text} (h : Blank ws) : ∀ b ∈ ws, b < 128 ∧ b ≠ nl :=
  fun b hb => ⟨space_lt (h b hb).1, (h b hb).2⟩

theorem PrintableValue.value_bytes {value : Text} (h : PrintableValue value) :
    ∀ b ∈ value, b < 128 ∧ b ≠ nl :=
  fun b hb => ⟨(h.bytes b hb).1.2, (h.bytes b hb).2⟩

/-- A printed value starts with its own first byte or with a backslash. -/
theorem Continued.first {value text : Text} {b : UInt8} (h : Continued [] value (b :: text))
    (hvalue : PrintableValue value) : ¬ (space b ∧ b ≠ nl) := by
  rintro ⟨hs, _⟩
  cases h with
  | char b _ => exact hvalue.first b rfl hs
  | cut _ _ => exact absurd hs (by decide)

theorem trailing_blank {value close : Text} (hclose : Blank close)
    (hodd : close = [] → Even (trailingBackslashes value)) :
    Even (trailingBackslashes (value ++ close)) := by
  rcases List.eq_nil_or_concat close with rfl | ⟨ws, b, rfl⟩
  · simpa using hodd rfl
  · rw [List.concat_eq_append] at hclose ⊢
    obtain ⟨hs, _⟩ := hclose b (by simp)
    have hb : b ≠ bs := space_ne hs (by decide)
    rw [← List.append_assoc, trailingBackslashes_concat, if_neg hb]
    decide

theorem run_printed_value (sections : List CfSection) (sec : Option CfSection) (key : Text)
    {value printed close : Text} (hvalue : PrintableValue value)
    (hprinted : Continued [] value printed) (hclose : Blank close)
    (hodd : close = [] → Even (trailingBackslashes value)) :
    ∃ ws, Blank ws ∧ run ⟨sections, sec, .skip key⟩ (printed ++ close ++ [nl]) =
      closeEntry ⟨sections, sec, .line false⟩ key (value ++ ws) := by
  cases printed with
  | nil =>
    -- an empty value: the white space after it is skipped like that before it
    have hnil : value = [] := by
      cases hprinted
      rfl
    refine ⟨[], by simp [Blank], ?_⟩
    rw [hnil, List.nil_append, run_append, run_skip_blank sections sec key hclose]
    rfl
  | cons b text =>
    refine ⟨close, hclose, ?_⟩
    rw [List.append_assoc, List.cons_append,
      run_skip_value sections sec key _ (hprinted.first hvalue), ← List.cons_append, run_append]
    have hstart : Mode.value key [] = valueMode key [] := rfl
    rw [hstart, run_continued sections sec key hprinted hvalue.value_bytes, List.nil_append,
      run_append, run_value sections sec key hclose.value_bytes, run_cons,
      advance_value_newline sections sec key (trailing_blank hclose hodd)]
    rfl

theorem run_entry (sections : List CfSection) (sec : Option CfSection) {kv : CfKv} {line : Text}
    (hkey : PrintableKey kv.key) (hvalue : PrintableValue kv.value) (h : PrintsEntry kv line) :
    run ⟨sections, sec, .line false⟩ line =
      ⟨sections, attachEntry kv sec, .line false⟩ := by
  cases h with
  | @mk before between after close printed hbefore hbetween hafter hclose hprinted hodd =>
    obtain ⟨ws, hws, hrun⟩ := run_printed_value sections sec (kv.key ++ between) hvalue hprinted
      hclose hodd
    have hshape : before ++ kv.key ++ between ++ byte '=' :: after ++ printed ++ close ++ [nl] =
        before ++ (kv.key ++ (between ++ (byte '=' :: (after ++ (printed ++ close ++ [nl]))))) := by
      simp
    have heq : advance ⟨sections, sec, .key (kv.key ++ between)⟩ (byte '=') =
        ⟨sections, sec, .skip (kv.key ++ between)⟩ := rfl
    rw [hshape, run_append, run_line_blank sections sec hbefore, run_append,
      run_line_key sections sec hkey, run_append, run_key sections sec _ hbetween.key_bytes,
      run_cons, heq, run_append, run_skip_blank sections sec _ hafter, hrun]
    have hk : cstr kv.key = kv.key := cstr_of_nul_free _ fun b hb => (hkey.bytes b hb).1.1
    have hv : cstr kv.value = kv.value := cstr_of_nul_free _ fun b hb => (hvalue.bytes b hb).1.1
    simp only [closeEntry, trimRight_blank hkey.last hbetween, trimRight_blank hvalue.last hws,
      hk, hv]

theorem run_entries (sections : List CfSection) (sec : CfSection) {entries : List CfKv}
    {text : Text} (hkeys : ∀ kv ∈ entries, PrintableKey kv.key)
    (hvalues : ∀ kv ∈ entries, PrintableValue kv.value) (h : PrintsEntries entries text) :
    run ⟨sections, some sec, .line false⟩ text =
      ⟨sections, some ⟨sec.name, sec.entries ++ entries⟩, .line false⟩ := by
  induction h generalizing sec with
  | nil hfill =>
    rw [run_fillers sections (some sec) hfill]
    simp
  | @cons kv entries fill line rest hfill hline _ ih =>
    rw [run_append, run_append, run_fillers sections (some sec) hfill,
      run_entry sections (some sec) (hkeys kv (by simp)) (hvalues kv (by simp)) hline]
    simp only [attachEntry]
    rw [ih _ (fun kv' hm => hkeys kv' (by simp [hm])) (fun kv' hm => hvalues kv' (by simp [hm]))]
    simp

theorem run_sections (before : List CfSection) (sec : Option CfSection)
    {sections : List CfSection} {text : Text}
    (hsections : ∀ s ∈ sections, PrintableSection s) (h : Prints sections text) :
    outcome (run ⟨before, sec, .line false⟩ text) =
      (true, before ++ sec.toList ++ sections) := by
  induction h generalizing before sec with
  | nil hfill =>
    rw [run_fillers before sec hfill]
    simp [outcome, atEnd]
  | @cons s sections fill ws body rest hfill hbefore hbody _ ih =>
    have hs := hsections s (by simp)
    have hshape : fill ++ ws ++ byte '[' :: s.name ++ byte ']' :: body ++ rest =
        fill ++ (ws ++ ((byte '[' :: s.name ++ [byte ']']) ++ (body ++ rest))) := by
      simp
    rw [hshape, run_append, run_fillers before sec hfill, run_append,
      run_line_blank before sec hbefore, run_append, run_header before sec hs.name, run_append,
      run_entries _ _ hs.keys hs.values hbody, ih _ _ fun s' hm => hsections s' (by simp [hm])]
    simp

/-- Reading any layout of a list of printable sections appends these sections. -/
theorem parse_prints (cf : Cf) (sections : List CfSection) (text : Text) (fuel : ℕ)
    (hsections : ∀ sec ∈ sections, PrintableSection sec) (h : Prints sections text)
    (hfuel : text.length < fuel) :
    cfAddFromString fuel cf text = .ok (true, ⟨cf.sections ++ sections⟩) := by
  rw [cfAddFromString_scan cf hfuel, scan, start, run_sections cf.sections none hsections h]
  simp

def paletteSections : List CfSection := [⟨ascii "palette", [⟨ascii "title", ascii "a b"⟩]⟩]

def paletteText : Text := ascii "# colours\n[palette]\n  title = a\\\n b \n"

theorem palette_printable : ∀ sec ∈ paletteSections, PrintableSection sec := by
  intro sec hs
  rw [List.mem_singleton.mp hs]
  refine ⟨⟨by decide⟩, fun kv hk => ?_, fun kv hk => ?_⟩
  · rw [List.mem_singleton.mp hk]
    exact ⟨by decide, by decide, by rintro b ⟨⟩; decide, by rintro b ⟨⟩; decide⟩
  · rw [List.mem_singleton.mp hk]
    exact ⟨by decide, by rintro b ⟨⟩; decide, by rintro b ⟨⟩; decide⟩

theorem palette_prints : Prints paletteSections paletteText := by
  have hcomment : Filler (ascii "# colours\n") :=
    @Filler.comment [] (ascii " colours") (byte '#') (by decide) (by decide) (by decide)
  have hnewline : Filler [nl] := @Filler.blank [] (by decide)
  have hvalue : Continued [] (ascii "a b") (ascii "a\\\n b") :=
    .char _ (.cut (by decide) (.char _ (.char _ .done)))
  have hline : PrintsEntry ⟨ascii "title", ascii "a b"⟩ (ascii "  title = a\\\n b \n") :=
    @PrintsEntry.mk ⟨ascii "title", ascii "a b"⟩ (ascii "  ") (ascii " ") (ascii " ")
      (ascii " ") _
      (by decide) (by decide) (by decide) (by decide) hvalue (by decide)
  have hbody : PrintsEntries [⟨ascii "title", ascii "a b"⟩] _ :=
    .cons (.cons hnewline .nil) hline (.nil .nil)
  exact @Prints.cons ⟨ascii "palette", _⟩ [] _ [] _ [] (.cons hcomment .nil) (by decide) hbody
    (.nil .nil)

theorem parse_prints_palette :
    (∀ sec ∈ paletteSections, PrintableSection sec) ∧ Prints paletteSections paletteText ∧
      cfAddFromString 50 ⟨[]⟩ paletteText = .ok (true, ⟨paletteSections⟩) :=
  ⟨palette_printable, palette_prints,
    parse_prints ⟨[]⟩ _ _ 50 palette_printable palette_prints (by decide)⟩

end Pathcomp.RoundTrip
