import Pathcomp.HighBytes
import Pathcomp.Tracing
import Mathlib.Data.List.Forall2

set_option autoImplicit false

/-!
# Where the value of an entry comes from

The reference reading of a value works on the text after the `=` alone. The
parser stores what it says, except that a text which ends directly after the
backslash of an escape gets the end marker as a byte of its last value.
-/
namespace Pathcomp.Provenance
open Bytes Buffer Config Scanner HighBytes Tracing

def skipBlanks (v : Text) : Text := v.dropWhile fun b => space b && decide (b ≠ nl)

/-- The text up to the first newline that is not the second character of a
    backslash pair. -/
def rawValue : Text → Text
  | [] => []
  | [b] => if b = nl then [] else [b]
  | b :: d :: v =>
    if b = nl then []
    else if b = bs then b :: d :: rawValue v
    else b :: rawValue (d :: v)

def dropContinuations : Text → Text
  | [] => []
  | [b] => [b]
  | b :: d :: v =>
    if b = bs then
      if d = nl then dropContinuations v else b :: d :: dropContinuations v
    else b :: dropContinuations (d :: v)

def referenceValue (v : Text) : Text :=
  trimRight (dropContinuations (rawValue (skipBlanks v)))

/-- The positions of the stored entries, section by section. A section still open
    at the end is stored only if there was no syntax error. -/
def storedEntries (rc : Bool) : List (List ℕ) → Option (List ℕ) → List Event →
    List (List ℕ)
  | done, last, [] => if rc then done ++ last.toList else done
  | done, last, .header _ :: events => storedEntries rc (done ++ last.toList) (some []) events
  | done, last, .entry pos :: events => storedEntries rc done (last.map (· ++ [pos])) events

/-- The value is what stands in the text from the position on, and its bytes
    occur there in the same order. -/
def StoredAs (text : Text) (kv : CfKv) (pos : ℕ) : Prop :=
  kv.value = referenceValue (text.drop pos) ∧ kv.value.Sublist (text.drop pos)

def SectionAs (text : Text) (sec : CfSection) (positions : List ℕ) : Prop :=
  List.Forall₂ (StoredAs text) sec.entries positions

/-- Every stored entry holds the text that was written. -/
def ValuesAsWritten (text : Text) : Prop :=
  ∀ cf fuel, text.length < fuel → ∃ rc sections,
    cfAddFromString fuel cf text = .ok (rc, ⟨cf.sections ++ sections⟩) ∧
    List.Forall₂ (SectionAs text) sections (storedEntries rc [] none (trace fuel text))

theorem rawValue_plain {b : UInt8} (hnl : b ≠ nl) (hbs : b ≠ bs) (v : Text) :
    rawValue (b :: v) = b :: rawValue v := by
  cases v with
  | nil => simp [rawValue, hnl]
  | cons d v => simp [rawValue, hnl, hbs]

theorem dropContinuations_plain {b : UInt8} (hbs : b ≠ bs) (v : Text) :
    dropContinuations (b :: v) = b :: dropContinuations v := by
  cases v with
  | nil => rfl
  | cons d v => simp [dropContinuations, hbs]

theorem rawValue_initial (v : Text) : rawValue v <+: v := by
  fun_induction rawValue v with
  | case1 => exact List.prefix_rfl
  | case2 => exact List.nil_prefix
  | case3 b hb => exact List.prefix_rfl
  | case4 d v => exact List.nil_prefix
  | case5 d v hb ih =>
    exact List.prefix_cons_inj _ |>.mpr (List.prefix_cons_inj _ |>.mpr ih)
  | case6 b d v hb hbs ih => exact List.prefix_cons_inj _ |>.mpr ih

theorem dropContinuations_sublist (v : Text) : (dropContinuations v).Sublist v := by
  fun_induction dropContinuations v with
  | case1 => exact List.Sublist.refl _
  | case2 b => exact List.Sublist.refl _
  | case3 v ih => exact (ih.cons _).cons _
  | case4 d v hd ih => exact (ih.cons_cons _).cons_cons _
  | case5 b d v hb ih => exact ih.cons_cons _

theorem referenceValue_sublist (v : Text) : (referenceValue v).Sublist v := by
  have htrim : (referenceValue v).Sublist (dropContinuations (rawValue (skipBlanks v))) :=
    (List.rdropWhile_prefix _ _).sublist
  have hraw : (dropContinuations (rawValue (skipBlanks v))).Sublist (skipBlanks v) :=
    (dropContinuations_sublist _).trans (rawValue_initial _).sublist
  exact (htrim.trans hraw).trans (List.dropWhile_suffix _).sublist

section Loops
variable (sections : List CfSection) (sec : Option CfSection)

/-- The automaton has come to the end of the text inside an escape. -/
def CutOff (s : Scan) : Prop := ∃ key acc, s = ⟨sections, sec, .escape key acc⟩

theorem parseValueLoop_value {fuel : ℕ} {past rest acc : Text} (key : Text) (p : ℕ)
    (hf : rest.length < fuel) (hascii : ∀ b ∈ rest, b < 128) :
    ∃ text acc', parseValueLoop fuel (cursor past rest) ⟨acc, p⟩ =
      .ok (true, text, ⟨acc', p⟩) ∧
      (acc' = acc ++ dropContinuations (rawValue rest) ∨
        CutOff sections sec (run ⟨sections, sec, .value key acc⟩ rest)) := by
  induction fuel generalizing past rest acc with
  | zero => omega
  | succ n ih =>
    cases rest with
    | nil =>
      refine ⟨_, acc, by rw [parseValueLoop, fgetc_buf, bufFgetc_nil]; rfl, .inl ?_⟩
      simp [rawValue, dropContinuations]
    | cons b rest =>
      simp only [List.length_cons, Nat.add_lt_add_iff_right] at hf
      simp only [List.forall_mem_cons] at hascii
      obtain ⟨hb, hrest⟩ := hascii
      simp only [parseValueLoop, fgetc_buf, bufFgetc_cons, charToInt_neg_iff,
        charToInt_eq_code_iff b (by decide : '\n'.toNat < 128),
        charToInt_eq_code_iff b (by decide : '\\'.toNat < 128)]
      have hstep : advance ⟨sections, sec, .value key acc⟩ b =
          advanceValue ⟨sections, sec, .value key acc⟩ key acc b := rfl
      unfold advanceValue at hstep
      rw [if_neg (not_not.mpr hb)] at hstep ⊢
      by_cases hbs : b = bs
      · rw [if_pos hbs] at hstep
        rw [if_pos (show b = byte '\\' from hbs)]
        cases rest with
        | nil =>
          obtain ⟨past', rest', acc', hp, _⟩ :=
            @parseValueLoop_run sections sec n (past ++ [b]) []
            (acc ++ [bs, 255]) key p (by simpa using hf)
          refine ⟨cursor past' rest', acc', ?_, .inr ⟨key, acc, hstep⟩⟩
          rw [bufFgetc_nil, bufAddch_bs, bufAddch_eof]
          exact hp
        | cons d rest =>
          simp only [bufFgetc_cons, charToInt_eq_code_iff d (by decide : '\n'.toNat < 128)]
          simp only [List.length_cons] at hf
          have hnl : b ≠ nl := by
            rw [hbs]
            decide
          have htail : ∀ x ∈ rest, x < 128 := fun x hx => hrest x (List.mem_cons_of_mem d hx)
          simp only [run_cons, hstep, rawValue, if_neg hnl, if_pos hbs, dropContinuations]
          have hnext : advance ⟨sections, sec, .escape key acc⟩ d =
              if d = nl then ⟨sections, sec, .value key acc⟩
              else ⟨sections, sec, .value key (acc ++ [bs, d])⟩ := rfl
          by_cases hd : d = nl
          · rw [if_pos hd] at hnext
            rw [if_pos (show d = byte '\n' from hd), hnext, if_pos hd]
            exact ih (by omega) htail
          · rw [if_neg hd] at hnext
            rw [if_neg (show ¬ d = byte '\n' from hd), bufAddch_bs, bufAddch_char, hnext,
              if_neg hd]
            obtain ⟨text, acc', hp, hv⟩ := @ih (past ++ [b] ++ [d]) rest (acc ++ [bs] ++ [d])
              (by omega) htail
            refine ⟨text, acc', hp, ?_⟩
            simpa [hbs] using hv
      · rw [if_neg hbs] at hstep
        rw [if_neg (show ¬ b = byte '\\' from hbs)]
        by_cases hnl : b = nl
        · rw [if_pos (show b = byte '\n' from hnl)]
          refine ⟨_, acc, rfl, .inl ?_⟩
          cases rest <;> simp [rawValue, hnl, dropContinuations]
        · rw [if_neg hnl] at hstep
          rw [if_neg (show ¬ b = byte '\n' from hnl), bufAddch_char, run_cons, hstep]
          obtain ⟨text, acc', hp, hv⟩ := @ih (past ++ [b]) rest (acc ++ [b]) hf hrest
          refine ⟨text, acc', hp, ?_⟩
          rw [rawValue_plain hnl hbs, dropContinuations_plain hbs]
          simpa using hv

theorem run_skipBlanks (key v : Text) :
    skipBlanks v = [] ∨ run ⟨sections, sec, .skip key⟩ v =
      run ⟨sections, sec, .value key []⟩ (skipBlanks v) := by
  induction v with
  | nil => exact .inl rfl
  | cons b v ih =>
    have hstep : advance ⟨sections, sec, .skip key⟩ b =
        if space b ∧ b ≠ nl then ⟨sections, sec, .skip key⟩
        else advance ⟨sections, sec, .value key []⟩ b := rfl
    rw [run_cons, hstep]
    by_cases hb : space b ∧ b ≠ nl
    · rw [if_pos hb, skipBlanks, List.dropWhile_cons_of_pos (by simpa using hb)]
      exact ih
    · rw [if_neg hb, skipBlanks, List.dropWhile_cons_of_neg (by simpa using hb)]
      exact .inr rfl

theorem skipInitialSpaces_value {fuel : ℕ} {past rest : Text} (c : UInt8)
    (hf : rest.length < fuel) :
    (skipBlanks rest = [] ∧ ∃ past',
      skipInitialSpaces fuel (cursor (past ++ [c]) rest) = .ok (cursor past' [255])) ∨
    (skipBlanks rest ≠ [] ∧ ∃ past',
      skipInitialSpaces fuel (cursor (past ++ [c]) rest) =
        .ok (cursor past' (skipBlanks rest))) := by
  induction rest generalizing past c fuel with
  | nil =>
    obtain ⟨n, rfl⟩ : ∃ n, fuel = n + 1 := ⟨fuel - 1, by simp at hf; omega⟩
    refine .inl ⟨rfl, past, ?_⟩
    rw [skipInitialSpaces, fgetc_buf, bufFgetc_nil]
    simp only [ungetc_buf, bufUngetc_concat]
    rfl
  | cons b rest ih =>
    obtain ⟨n, rfl⟩ : ∃ n, fuel = n + 1 := ⟨fuel - 1, by omega⟩
    simp only [List.length_cons] at hf
    simp only [skipInitialSpaces, fgetc_buf, bufFgetc_cons, space_iff]
    by_cases hb : space b ∧ b ≠ nl
    · rw [if_neg (not_not.mpr hb), skipBlanks, List.dropWhile_cons_of_pos (by simpa using hb)]
      exact ih b (by omega)
    · rw [if_pos hb, skipBlanks, List.dropWhile_cons_of_neg (by simpa using hb), ungetc_buf,
        bufUngetc_char]
      exact .inr ⟨by simp, past ++ [c], rfl⟩

theorem parseValue_value {fuel : ℕ} {past rest : Text} (c : UInt8) (key : Text) (p : ℕ)
    (hf : rest.length + 1 < fuel) (hascii : ∀ b ∈ rest, b < 128) :
    ∃ text acc', cfParseValue fuel (cursor (past ++ [c]) rest) ⟨[], p⟩ =
        .ok (true, text, ⟨acc', p⟩) ∧
      (acc' = dropContinuations (rawValue (skipBlanks rest)) ∨
        CutOff sections sec (run ⟨sections, sec, .skip key⟩ rest)) := by
  unfold cfParseValue
  rcases @skipInitialSpaces_value fuel past rest c (by omega) with
    ⟨hnil, past', hskip⟩ | ⟨hne, past', hskip⟩
  · -- the end marker that was pushed back ends the value at once
    rw [hskip]
    obtain ⟨n, rfl⟩ : ∃ n, fuel = n + 1 := ⟨fuel - 1, by omega⟩
    refine ⟨cursor (past' ++ [255]) [], [], ?_, .inl ?_⟩
    · simp only [parseValueLoop, fgetc_buf, bufFgetc_cons]
      rfl
    · rw [hnil]
      rfl
  · rw [hskip]
    have hsub : (skipBlanks rest).Sublist rest := (List.dropWhile_suffix _).sublist
    obtain ⟨text, acc', hp, hv⟩ :=
      @parseValueLoop_value sections sec fuel past' (skipBlanks rest)
      [] key p (by have := hsub.length_le; omega) (fun b hb => hascii b (hsub.mem hb))
    refine ⟨text, acc', hp, ?_⟩
    rw [(run_skipBlanks sections sec key rest).resolve_left hne]
    exact hv

def afterEquals (rest : Text) : Text :=
  rest.drop ((rest.takeWhile (· ≠ byte '=')).length + 1)

theorem parseKeyValuePair_value {fuel : ℕ} {past rest acc : Text} {text key : Buf} {value : Text}
    (p q : ℕ) (hf : rest.length < fuel) (hascii : ∀ b ∈ rest, b < 128)
    (hp : cfParseKeyValuePair fuel (cursor past rest) ⟨acc, p⟩ ⟨[], q⟩ =
      .ok (true, text, key, ⟨value, q⟩)) :
    value = dropContinuations (rawValue (skipBlanks (afterEquals rest))) ∨
      CutOff sections sec (run ⟨sections, sec, .key acc⟩ rest) := by
  induction rest generalizing fuel past acc with
  | nil =>
    obtain ⟨n, rfl⟩ : ∃ n, fuel = n + 1 := ⟨fuel - 1, by simp at hf; omega⟩
    rw [cfParseKeyValuePair, fgetc_buf, bufFgetc_nil] at hp
    cases hp
  | cons b rest ih =>
    obtain ⟨n, rfl⟩ : ∃ n, fuel = n + 1 := ⟨fuel - 1, by simp at hf; omega⟩
    have hn : rest.length < n := by simpa using hf
    obtain ⟨hb, hrest⟩ := List.forall_mem_cons.mp hascii
    simp only [cfParseKeyValuePair, fgetc_buf, bufFgetc_cons, charToInt_neg_iff,
      charToInt_eq_code_iff b (by decide : '\n'.toNat < 128),
      charToInt_eq_code_iff b (by decide : '['.toNat < 128),
      charToInt_eq_code_iff b (by decide : ']'.toNat < 128),
      charToInt_eq_code_iff b (by decide : '='.toNat < 128)] at hp
    have hstep : advance ⟨sections, sec, .key acc⟩ b =
        if ¬ b < 128 then ⟨sections, none, .failed⟩
        else if b = byte '\n' then ⟨sections, none, .failed⟩
        else if b = byte '[' ∨ b = byte ']' then ⟨sections, none, .failed⟩
        else if b = byte '=' then ⟨sections, sec, .skip acc⟩
        else ⟨sections, sec, .key (acc ++ [b])⟩ := rfl
    rw [if_neg (not_not.mpr hb)] at hp hstep
    by_cases hnl : b = byte '\n'
    · rw [if_pos hnl] at hp
      cases hp
    rw [if_neg hnl] at hp hstep
    by_cases hopen : b = byte '[' ∨ b = byte ']'
    · rw [if_pos hopen] at hp
      cases hp
    rw [if_neg hopen] at hp hstep
    rw [run_cons]
    by_cases heq : b = byte '='
    · rw [if_pos heq] at hp hstep
      obtain ⟨text', value', hv, hvalue⟩ :=
        @parseValue_value sections sec (n + 1) past rest b acc q (by omega) hrest
      rw [hv] at hp
      cases hp
      have hafter : afterEquals (b :: rest) = rest := by simp [afterEquals, heq]
      rw [hafter, hstep]
      exact hvalue
    · rw [if_neg heq] at hp hstep
      rw [bufAddch_char] at hp
      have hafter : afterEquals (b :: rest) = afterEquals rest := by simp [afterEquals, heq]
      rw [hafter, hstep]
      exact ih hn hrest hp

end Loops

/-- No entry of a section is cut off inside an escape. -/
def NotCutOff (s : Scan) : Prop := ∀ sec key acc, s.sec = some sec → s.mode ≠ .escape key acc

theorem drop_valueStart (past rest : Text) :
    (past ++ rest).drop (valueStart (cursor past rest)) = afterEquals rest := by
  simp only [valueStart, cursor, List.drop_left, afterEquals]
  rw [Nat.add_assoc, List.drop_length_add_append]

theorem storedAs_reference {text : Text} (key : Text) (pos : ℕ) (hnul : ∀ b ∈ text, b ≠ 0) :
    StoredAs text ⟨key, cstr (referenceValue (text.drop pos))⟩ pos := by
  have hsub := referenceValue_sublist (text.drop pos)
  have hcstr : cstr (referenceValue (text.drop pos)) = referenceValue (text.drop pos) :=
    cstr_of_nul_free _ fun b hb => hnul b (List.mem_of_mem_drop (hsub.mem hb))
  refine ⟨hcstr, ?_⟩
  change (cstr (referenceValue (text.drop pos))).Sublist _
  rw [hcstr]
  exact hsub

theorem forall_toList {R : CfSection → List ℕ → Prop} {sec : Option CfSection}
    {last : Option (List ℕ)} (h : Option.Rel R sec last) :
    List.Forall₂ R sec.toList last.toList := by
  cases h with
  | some h => exact .cons h .nil
  | none => exact .nil

theorem attachEntry_as {text : Text} {kv : CfKv} {pos : ℕ} {sec : Option CfSection}
    {last : Option (List ℕ)} (h : Option.Rel (SectionAs text) sec last)
    (hkv : sec ≠ none → StoredAs text kv pos) :
    Option.Rel (SectionAs text) (attachEntry kv sec) (last.map (· ++ [pos])) := by
  cases h with
  | some h => exact .some (List.rel_append h (.cons (hkv (by simp)) .nil))
  | none => exact .none

theorem stored_trace {fuel : ℕ} {text past rest : Text} {comment : Bool}
    {sections : List CfSection} {sec : Option CfSection} {done : List (List ℕ)}
    {last : Option (List ℕ)} (htext : text = past ++ rest) (hf : rest.length < fuel)
    (hascii : ∀ b ∈ text, b ≠ 0 ∧ b < 128)
    (hcut : NotCutOff (run ⟨sections, sec, .line comment⟩ rest))
    (hdone : List.Forall₂ (SectionAs text) sections done)
    (hlast : Option.Rel (SectionAs text) sec last) :
    List.Forall₂ (SectionAs text) (outcome (run ⟨sections, sec, .line comment⟩ rest)).2
      (storedEntries (outcome (run ⟨sections, sec, .line comment⟩ rest)).1 done last
        (parseTextTrace fuel (cursor past rest) comment)) := by
  induction fuel generalizing past rest comment sections sec done last with
  | zero => omega
  | succ fuel ih =>
    have hall := List.rel_append hdone (forall_toList hlast)
    cases round comment sections sec hf with
    | finish ht ho =>
      rw [ht, ho]
      exact hall
    | blank b tail comment' hrest ht hb =>
      subst hrest
      simp only [List.length_cons] at hf
      rw [ht, run_cons, hb]
      rw [run_cons, hb] at hcut
      exact ih (by simpa using htext) (by omega) hcut hdone hlast
    | header past' rest' name ht hc =>
      rw [ht]
      have hnew : Option.Rel (SectionAs text) (some ⟨cstr name, []⟩) (some []) := .some .nil
      rcases hc with ⟨rfl, _, he⟩ | ⟨chunk, hne, rfl, rfl, hrun⟩
      · rw [he, parseTextTrace_nil]
        exact List.rel_append hall (forall_toList hnew)
      · have hlen := List.length_pos_iff.mpr hne
        rw [List.length_append] at hf
        rw [run_append, hrun] at hcut ⊢
        exact ih (by simpa using htext) (by omega) hcut hall hnew
    | badHeader ht ho =>
      rw [ht, ho]
      exact hall
    | badLine ht ho =>
      rw [ht, ho]
      exact hdone
    | entry past' rest' key value hp ht hk hc =>
      have hvalue := parseKeyValuePair_value sections sec 0 0 hf
        (fun b hb => (hascii b (htext ▸ List.mem_append_right past hb)).2) hp
      have hkv : sec ≠ none →
          StoredAs text ⟨cstr (trimRight key), cstr (trimRight value)⟩
            (valueStart (cursor past rest)) := by
        intro hsec
        rcases hvalue with hv | ⟨key', acc, hrun⟩
        · have hstored := storedAs_reference (cstr (trimRight key))
            (valueStart (cursor past rest)) fun b hb => (hascii b hb).1
          rw [htext, drop_valueStart, referenceValue, ← hv] at hstored
          rw [htext]
          exact hstored
        · obtain ⟨open', hopen⟩ := Option.ne_none_iff_exists'.mp hsec
          rw [hk, hrun] at hcut
          exact absurd rfl (hcut open' key' acc hopen)
      have hnew := attachEntry_as hlast hkv
      rw [ht]
      rcases hc with ⟨rfl, _, he⟩ | ⟨chunk, hne, rfl, rfl, hrun⟩
      · rw [he, parseTextTrace_nil]
        exact List.rel_append hdone (forall_toList hnew)
      · have hlen := List.length_pos_iff.mpr hne
        rw [List.length_append] at hf
        rw [run_append, hrun] at hcut ⊢
        exact ih (by simpa using htext) (by omega) hcut hdone hnew

theorem harmless_of_ascii {text : Text} (h : ∀ b ∈ text, b < 128) (c : Context) :
    harmlessFrom c text := by
  induction text generalizing c with
  | nil => rfl
  | cons b text ih =>
    obtain ⟨hb, hrest⟩ := List.forall_mem_cons.mp h
    simpa [harmlessFrom, hb] using ih hrest (c.next b)

theorem notCutOff_iff {text : Text} (h : ∀ b ∈ text, b < 128) :
    NotCutOff (run (start []) text) ↔ endsInEscape text = false := by
  obtain ⟨_, hfits⟩ := scan_fits (harmless_of_ascii h .start)
  rw [← Bool.not_eq_true, endsInEscape_iff, hfits.inEscape_iff]
  constructor
  · rintro hcut ⟨sec, key, acc, hsec, hm⟩
    exact hcut sec key acc hsec hm
  · intro hno sec key acc hsec hm
    exact hno ⟨sec, key, acc, hsec, hm⟩

theorem exists_of_mem {α β : Type} {R : α → β → Prop} {l : List α} {m : List β}
    (h : List.Forall₂ R l m) {a : α} (ha : a ∈ l) : ∃ b, R a b := by
  induction h with
  | nil => simp at ha
  | cons hab _ ih =>
    rcases List.mem_cons.mp ha with rfl | ha
    · exact ⟨_, hab⟩
    · exact ih ha

theorem lastByte_ascii {text : Text} {sections : List CfSection} {positions : List (List ℕ)}
    (hascii : ∀ b ∈ text, b < 128) (h : List.Forall₂ (SectionAs text) sections positions)
    {b : UInt8} (hb : lastByte sections = some b) : b < 128 := by
  obtain ⟨sec, hsec, hb⟩ := Option.bind_eq_some_iff.mp hb
  obtain ⟨kv, hkv, hb⟩ := Option.bind_eq_some_iff.mp hb
  obtain ⟨entries, hentries⟩ := exists_of_mem h (List.mem_of_getLast? hsec)
  obtain ⟨pos, hpos⟩ := exists_of_mem hentries (List.mem_of_getLast? hkv)
  exact hascii b (List.mem_of_mem_drop (hpos.2.mem (List.mem_of_getLast? hb)))

/-- Stored values are what was written, exactly if the text does not end inside
    an escape of an entry that belongs to a section. -/
theorem values_as_written_iff (text : Text) (hascii : ∀ b ∈ text, b ≠ 0 ∧ b < 128) :
    ValuesAsWritten text ↔ endsInEscape text = false := by
  rw [← notCutOff_iff fun b hb => (hascii b hb).2]
  constructor
  · intro h sec key acc hsec hm
    obtain ⟨rc, sections, hadd, hall⟩ := h ⟨[]⟩ (text.length + 1) (by omega)
    rw [cfAddFromString_scan _ (by omega), List.nil_append] at hadd
    have hsections : (scan [] text).2 = sections := by
      injection hadd with hadd
      injection congrArg Prod.snd hadd
    have hacc := run_nul_free (s := start []) (List.forall_mem_nil _) fun b hb => (hascii b hb).1
    rw [hm] at hacc
    have hlast : lastByte sections = some 255 := by
      rw [← hsections, scan]
      generalize run (start []) text = s at hsec hm hacc
      obtain ⟨before, sec', mode⟩ := s
      simp only at hsec hm
      subst hsec hm
      exact lastByte_escape before sec key hacc
    exact absurd (lastByte_ascii (fun b hb => (hascii b hb).2) hall hlast) (by decide)
  · intro hcut cf fuel hf
    refine ⟨(scan [] text).1, (scan [] text).2, ?_, ?_⟩
    · rw [cfAddFromString_scan cf hf, scan_append]
    · exact stored_trace rfl hf hascii hcut .nil .none

theorem values_as_written_folded :
    endsInEscape (ascii "[a]\nk =  v\\\n w\\t \\") = true ∧
    ValuesAsWritten (ascii "[a]\nk =  v\\\n w\\t ") :=
  ⟨by decide, (values_as_written_iff (ascii "[a]\nk =  v\\\n w\\t ") (by decide)).mpr
    (by decide)⟩

def cutText : Text := ascii "[a]\nk = v\\"

/-- The last value gets a byte 255 that is not in the text. -/
theorem cut_text_not_as_written :
    (∀ b ∈ cutText, b ≠ 0 ∧ b < 128) ∧
    cfAddFromString 20 ⟨[]⟩ cutText =
      .ok (true, ⟨[⟨ascii "a", [⟨ascii "k", ascii "v\\" ++ [255]⟩]⟩]⟩) ∧
    ¬ ValuesAsWritten cutText := by
  have hadd : cfAddFromString 20 ⟨[]⟩ cutText =
      .ok (true, ⟨[⟨ascii "a", [⟨ascii "k", ascii "v\\" ++ [255]⟩]⟩]⟩) := by rfl
  refine ⟨by decide, hadd, fun h => ?_⟩
  obtain ⟨rc, sections, hsame, hall⟩ := h ⟨[]⟩ 20 (by decide)
  rw [hadd] at hsame
  cases hsame
  exact absurd (lastByte_ascii (by decide) hall (by rfl : lastByte _ = some 255)) (by decide)

end Pathcomp.Provenance
