import Pathcomp.Files
import Pathcomp.RoundTrip

set_option autoImplicit false

/-!
# What can be read

Every section that the parser appends is of a certain form, whether the text is
accepted or not, and every list of such sections is read from some text. A file may
contain NUL bytes, where the names, keys and values that are stored are cut off.
-/
namespace Pathcomp.Readable
open Bytes Buffer Config RawBuffer Scanner Additions Files RoundTrip

/-- A byte above 127 follows a backslash that starts a pair. -/
def escaped (seen : Text) : Text → Bool
  | [] => true
  | b :: rest =>
    (decide (b < 128) || !decide (Even (trailingBackslashes seen))) && escaped (seen ++ [b]) rest

/-- Without NUL bytes in the text, the key is trimmed as it should be. -/
structure ReadableKey (nul : Bool) (key : Text) : Prop where
  bytes : ∀ b ∈ key, Printable b ∧ b ≠ nl ∧ b ≠ byte '=' ∧
    b ≠ byte '[' ∧ b ≠ byte ']'
  first : ∀ b ∈ key.head?, ¬ space b ∧ b ≠ byte ';' ∧ b ≠ byte '#'
  nonempty : nul = false → key ≠ []
  last : nul = false → ∀ b ∈ key.getLast?, ¬ space b

/-- The value may start with white space, which then follows a continuation line. -/
structure ReadableValue (nul : Bool) (value : Text) : Prop where
  bytes : ∀ b ∈ value, b ≠ 0 ∧ b ≠ nl
  pairs : escaped [] value
  last : nul = false → ∀ b ∈ value.getLast?, ¬ space b

structure ReadableSection (nul : Bool) (sec : CfSection) : Prop where
  name : PrintableName sec.name
  keys : ∀ kv ∈ sec.entries, ReadableKey nul kv.key
  values : ∀ kv ∈ sec.entries, ReadableValue nul kv.value

def cut (nul : Bool) : Text := if nul then [0] else []

/-- The value follows a continuation line, and a blank keeps its last backslash away from
    the end of the line. -/
def writeEntry (nul : Bool) (kv : CfKv) : Text :=
  kv.key ++ cut nul ++ [byte '=', bs, nl] ++ kv.value ++ cut nul ++ [byte ' ', nl]

def writeEntries (nul : Bool) (entries : List CfKv) : Text := entries.flatMap (writeEntry nul)

def writeSection (nul : Bool) (sec : CfSection) : Text :=
  byte '[' :: sec.name ++ [byte ']'] ++ [nl] ++ writeEntries nul sec.entries

def write (nul : Bool) (sections : List CfSection) : Text := sections.flatMap (writeSection nul)

theorem escaped_append (seen u v : Text) :
    escaped seen (u ++ v) = (escaped seen u && escaped (seen ++ u) v) := by
  induction u generalizing seen with
  | nil => simp [escaped]
  | cons b u ih => simp [escaped, ih, Bool.and_assoc]

theorem escaped_prefix {u v : Text} (h : u <+: v) (hv : escaped [] v) : escaped [] u := by
  obtain ⟨w, rfl⟩ := h
  rw [escaped_append, Bool.and_eq_true] at hv
  exact hv.1

theorem escaped_of_lt {text : Text} (h : ∀ b ∈ text, b < 128) (seen : Text) :
    escaped seen text := by
  induction text generalizing seen with
  | nil => rfl
  | cons b text ih =>
    simp [escaped, h b (by simp), ih fun d hd => h d (by simp [hd])]

theorem even_pair {s : Text} (h : Even (trailingBackslashes s)) (b : UInt8) :
    ¬ Even (trailingBackslashes (s ++ [bs])) ∧ Even (trailingBackslashes (s ++ [bs, b])) := by
  have hodd : ¬ Even (trailingBackslashes (s ++ [bs])) := by
    rw [trailingBackslashes_concat, if_pos rfl, Nat.even_add_one]
    exact not_not.mpr h
  refine ⟨hodd, ?_⟩
  rw [show s ++ [bs, b] = s ++ [bs] ++ [b] by simp, trailingBackslashes_concat]
  split
  · rw [Nat.even_add_one]
    exact hodd
  · decide

theorem escaped_pair {s : Text} (hs : escaped [] s) (h : Even (trailingBackslashes s))
    (b : UInt8) : escaped [] (s ++ [bs, b]) := by
  have hodd := (even_pair h b).1
  rw [escaped_append, hs, Bool.true_and, List.nil_append]
  simp [escaped, hodd, show bs < 128 by decide]

section Written
variable (sections : List CfSection) (sec : Option CfSection) (key : Text)

theorem advance_escaped {seen : Text} {b : UInt8}
    (hb : b < 128 ∨ ¬ Even (trailingBackslashes seen)) (hnl : b ≠ nl) :
    advance ⟨sections, sec, valueMode key seen⟩ b =
      ⟨sections, sec, valueMode key (seen ++ [b])⟩ := by
  by_cases hlt : b < 128
  · exact advance_value sections sec key hlt hnl
  · have hodd := hb.resolve_left hlt
    obtain ⟨t, rfl⟩ := exists_of_odd hodd
    have heven : Even (trailingBackslashes (t ++ [bs] ++ [b])) := by
      rw [trailingBackslashes_concat]
      split
      · rw [Nat.even_add_one]
        exact hodd
      · decide
    simp only [valueMode, hodd, heven, ↓reduceIte, advance, hnl, List.dropLast_concat]
    rw [List.append_assoc]
    rfl

theorem run_escaped {seen text : Text} (h : escaped seen text) (hnl : ∀ b ∈ text, b ≠ nl) :
    run ⟨sections, sec, valueMode key seen⟩ text =
      ⟨sections, sec, valueMode key (seen ++ text)⟩ := by
  induction text generalizing seen with
  | nil => simp
  | cons b text ih =>
    simp only [escaped, Bool.and_eq_true, Bool.or_eq_true, decide_eq_true_eq,
      Bool.not_eq_eq_eq_not, Bool.not_true, decide_eq_false_iff_not] at h
    rw [run_cons, advance_escaped sections sec key h.1 (hnl b (by simp)),
      ih h.2 fun d hd => hnl d (by simp [hd])]
    simp

theorem run_line_entry {text : Text} (hne : text ≠ [])
    (hbytes : ∀ b ∈ text, b < 128 ∧ b ≠ nl ∧ b ≠ byte '=' ∧
      b ≠ byte '[' ∧ b ≠ byte ']')
    (hfirst : ∀ b ∈ text.head?, ¬ space b ∧ b ≠ byte ';' ∧ b ≠ byte '#') :
    run ⟨sections, sec, .line false⟩ text = ⟨sections, sec, .key text⟩ := by
  cases text with
  | nil => exact absurd rfl hne
  | cons b text =>
    obtain ⟨hlt, hnl, heq, hopen, hclose⟩ := hbytes b (by simp)
    obtain ⟨hs, hsemi, hhash⟩ := hfirst b rfl
    have hb : advance ⟨sections, sec, .line false⟩ b = ⟨sections, sec, .key [b]⟩ := by
      simp [advance, advanceLine, advanceKey, hlt, hnl, hs, hsemi, hhash, hopen, heq, hclose]
    rw [run_cons, hb, run_key sections sec _ fun d hd => hbytes d (by simp [hd])]
    rfl

end Written

theorem cut_lt (nul : Bool) : ∀ b ∈ cut nul, b = 0 := by
  cases nul <;> decide

/-- What is stored of a text that is cut off or has blanks after it. -/
theorem stored_cut {nul : Bool} {s ws : Text} (hbytes : ∀ b ∈ s, b ≠ 0)
    (hlast : nul = false → ∀ b ∈ s.getLast?, ¬ space b) (hws : Blank ws) :
    cstr (trimRight (s ++ cut nul ++ ws)) = s := by
  cases nul with
  | false => rw [cut, if_neg (by simp), List.append_nil, trimRight_blank (hlast rfl) hws,
      cstr_of_nul_free s hbytes]
  | true =>
    have hzero : ∀ b ∈ (s ++ [0]).getLast?, ¬ space b := by
      rw [List.getLast?_concat]
      rintro b ⟨⟩
      decide
    rw [cut, if_pos rfl, trimRight_blank hzero hws, cstr, List.takeWhile_append_of_pos]
    · simp
    · simpa using hbytes

theorem ReadableKey.line_bytes {nul : Bool} {key : Text} (h : ReadableKey nul key) :
    ∀ b ∈ key ++ cut nul, b < 128 ∧ b ≠ nl ∧ b ≠ byte '=' ∧
    b ≠ byte '[' ∧ b ≠ byte ']' := by
  intro b hb
  rcases List.mem_append.mp hb with hb | hb
  · exact ⟨(h.bytes b hb).1.2, (h.bytes b hb).2⟩
  · rw [cut_lt nul b hb]
    decide

theorem ReadableKey.line_first {nul : Bool} {key : Text} (h : ReadableKey nul key) :
    key ++ cut nul ≠ [] ∧
      ∀ b ∈ (key ++ cut nul).head?, ¬ space b ∧ b ≠ byte ';' ∧ b ≠ byte '#' := by
  cases key with
  | nil =>
    cases nul with
    | false => exact absurd rfl (h.nonempty rfl)
    | true =>
      refine ⟨by simp [cut], ?_⟩
      rintro b ⟨⟩
      decide
  | cons b key => exact ⟨by simp, h.first⟩

theorem ReadableValue.line_bytes {nul : Bool} {value : Text} (h : ReadableValue nul value) :
    escaped [] (value ++ cut nul ++ [byte ' ']) ∧
      ∀ b ∈ value ++ cut nul ++ [byte ' '], b ≠ nl := by
  constructor
  · rw [List.append_assoc, escaped_append, h.pairs, Bool.true_and]
    refine escaped_of_lt (fun b hb => ?_) _
    rcases List.mem_append.mp hb with hb | hb
    · rw [cut_lt nul b hb]
      decide
    · rw [List.mem_singleton.mp hb]
      decide
  · intro b hb
    rcases List.mem_append.mp hb with hb | hb
    · rcases List.mem_append.mp hb with hb | hb
      · exact (h.bytes b hb).2
      · rw [cut_lt nul b hb]
        decide
    · rw [List.mem_singleton.mp hb]
      decide

theorem run_writeEntry (sections : List CfSection) (sec : Option CfSection) {nul : Bool} {kv : CfKv}
    (hkey : ReadableKey nul kv.key) (hvalue : ReadableValue nul kv.value) :
    run ⟨sections, sec, .line false⟩ (writeEntry nul kv) =
      ⟨sections, attachEntry kv sec, .line false⟩ := by
  obtain ⟨hne, hfirst⟩ := hkey.line_first
  obtain ⟨hescaped, hnl⟩ := hvalue.line_bytes
  have hshape : writeEntry nul kv = (kv.key ++ cut nul) ++ ([byte '=', bs, nl] ++
      ((kv.value ++ cut nul ++ [byte ' ']) ++ [nl])) := by
    simp [writeEntry]
  have hstart : run ⟨sections, sec, .key (kv.key ++ cut nul)⟩ [byte '=', bs, nl] =
      ⟨sections, sec, valueMode (kv.key ++ cut nul) []⟩ := rfl
  have heven : Even (trailingBackslashes (kv.value ++ cut nul ++ [byte ' '])) := by
    rw [trailingBackslashes_concat, if_neg (by decide)]
    decide
  have hblank : Blank [byte ' '] := by decide
  have hk : cstr (trimRight (kv.key ++ cut nul)) = kv.key := by
    have h := stored_cut (fun b hb => (hkey.bytes b hb).1.1) hkey.last (by decide : Blank [])
    rwa [List.append_nil] at h
  have hv := stored_cut (fun b hb => (hvalue.bytes b hb).1) hvalue.last hblank
  rw [hshape, run_append, run_line_entry sections sec hne hkey.line_bytes hfirst, run_append,
    hstart, run_append, run_escaped sections sec _ hescaped hnl, List.nil_append, run_cons,
    advance_value_newline sections sec _ heven]
  simp only [closeEntry, hk, hv, run_nil]

theorem run_writeEntries (sections : List CfSection) (sec : CfSection) {nul : Bool}
    {entries : List CfKv} (hkeys : ∀ kv ∈ entries, ReadableKey nul kv.key)
    (hvalues : ∀ kv ∈ entries, ReadableValue nul kv.value) :
    run ⟨sections, some sec, .line false⟩ (writeEntries nul entries) =
      ⟨sections, some ⟨sec.name, sec.entries ++ entries⟩, .line false⟩ := by
  induction entries generalizing sec with
  | nil => simp [writeEntries]
  | cons kv entries ih =>
    rw [writeEntries, List.flatMap_cons, run_append,
      run_writeEntry sections _ (hkeys kv (by simp)) (hvalues kv (by simp))]
    simp only [attachEntry]
    rw [← writeEntries, ih _ (fun kv' hm => hkeys kv' (by simp [hm]))
      (fun kv' hm => hvalues kv' (by simp [hm]))]
    simp

/-- After the sections that were written, the parser is at the start of a line. -/
theorem run_write {nul : Bool} {sections : List CfSection}
    (h : ∀ sec ∈ sections, ReadableSection nul sec) (before : List CfSection)
    (sec : Option CfSection) : ∃ found last,
      run ⟨before, sec, .line false⟩ (write nul sections) = ⟨found, last, .line false⟩ ∧
      found ++ last.toList = before ++ sec.toList ++ sections := by
  induction sections generalizing before sec with
  | nil => exact ⟨before, sec, rfl, by simp⟩
  | cons s sections ih =>
    have hs := h s (by simp)
    have hnewline (found : List CfSection) (last : Option CfSection) :
        run ⟨found, last, .line false⟩ [nl] = ⟨found, last, .line false⟩ := rfl
    obtain ⟨found, last, hrun, hfound⟩ := ih (fun s' hm => h s' (by simp [hm]))
      (before ++ sec.toList) (some s)
    refine ⟨found, last, ?_, by rw [hfound]; simp⟩
    rw [write, List.flatMap_cons, run_append, writeSection, run_append, run_append,
      run_header before sec hs.name, hnewline, run_writeEntries _ _ hs.keys hs.values]
    exact hrun

theorem stored_prefix (s : Text) : cstr (trimRight s) <+: s :=
  (List.takeWhile_prefix _).trans (List.rdropWhile_prefix _ _)

theorem cstr_ne_zero (s : Text) : ∀ b ∈ cstr s, b ≠ 0 := by
  intro b hb
  simpa using List.mem_takeWhile_imp hb

theorem stored_last {s : Text} (hs : ∀ b ∈ s, b ≠ 0) :
    ∀ b ∈ (cstr (trimRight s)).getLast?, ¬ space b := by
  intro b hb
  have hsub : ∀ d ∈ trimRight s, d ≠ 0 :=
    fun d hd => hs d ((List.rdropWhile_prefix _ _).mem hd)
  rw [cstr_of_nul_free _ hsub] at hb
  have hne : trimRight s ≠ [] := by
    intro hnil
    rw [hnil] at hb
    cases hb
  rw [List.getLast?_eq_getLast_of_ne_nil hne] at hb
  cases hb
  exact List.rdropWhile_last_not _ _ hne

theorem head_prefix {u v : Text} {b : UInt8} (h : u <+: v) (hb : b ∈ u.head?) :
    b ∈ v.head? := by
  obtain ⟨w, rfl⟩ := h
  cases u with
  | nil => cases hb
  | cons d u => exact hb

/-- The bytes that a loop of the parser has stored so far. -/
structure KeyBytes (nul : Bool) (acc : Text) : Prop where
  bytes : ∀ b ∈ acc, b < 128 ∧ b ≠ nl ∧ b ≠ byte '=' ∧
    b ≠ byte '[' ∧ b ≠ byte ']'
  first : ∃ b ∈ acc.head?, ¬ space b ∧ b ≠ byte ';' ∧ b ≠ byte '#'
  zero : nul = false → ∀ b ∈ acc, b ≠ 0

structure ValueBytes (nul : Bool) (acc : Text) : Prop where
  bytes : ∀ b ∈ acc, b ≠ nl
  pairs : escaped [] acc
  zero : nul = false → ∀ b ∈ acc, b ≠ 0

def ModeBytes (nul : Bool) : Mode → Prop
  | .name acc => ∀ b ∈ acc, b < 128 ∧ b ≠ nl ∧ b ≠ byte ']'
  | .key acc => KeyBytes nul acc
  | .skip key => KeyBytes nul key
  | .value key acc => KeyBytes nul key ∧ ValueBytes nul acc ∧ Even (trailingBackslashes acc)
  | .escape key acc => KeyBytes nul key ∧ ValueBytes nul acc ∧ Even (trailingBackslashes acc)
  | _ => True

/-- What holds of the automaton after every byte. -/
structure Sound (nul : Bool) (s : Scan) : Prop where
  sections : ∀ sec ∈ content s, ReadableSection nul sec
  mode : ModeBytes nul s.mode

theorem KeyBytes.readable {nul : Bool} {acc : Text} (h : KeyBytes nul acc) :
    ReadableKey nul (cstr (trimRight acc)) := by
  have hsub := stored_prefix acc
  obtain ⟨first, hfirst, hform⟩ := h.first
  refine ⟨fun b hb => ?_, fun b hb => ?_, fun hn => ?_, fun hn => stored_last (h.zero hn)⟩
  · obtain ⟨hlt, hrest⟩ := h.bytes b (hsub.mem hb)
    exact ⟨⟨cstr_ne_zero _ b hb, hlt⟩, hrest⟩
  · have hb := head_prefix hsub hb
    rw [Option.mem_def] at hb hfirst
    rw [hfirst] at hb
    cases hb
    exact hform
  · -- the first byte is neither trimmed nor a NUL
    intro hnil
    have hkeep : ∀ b ∈ trimRight acc, b ≠ 0 := fun b hb =>
      h.zero hn b ((List.rdropWhile_prefix _ _).mem hb)
    rw [cstr_of_nul_free _ hkeep] at hnil
    have hall := List.rdropWhile_eq_nil_iff.mp hnil
    exact hform.1 (hall first (List.mem_of_mem_head? hfirst))

theorem ValueBytes.readable {nul : Bool} {acc : Text} (h : ValueBytes nul acc) :
    ReadableValue nul (cstr (trimRight acc)) := by
  have hsub := stored_prefix acc
  exact ⟨fun b hb => ⟨cstr_ne_zero _ b hb, h.bytes b (hsub.mem hb)⟩,
    escaped_prefix hsub h.pairs, fun hn => stored_last (h.zero hn)⟩

theorem readable_name {acc : Text} (h : ∀ b ∈ acc, b < 128 ∧ b ≠ nl ∧ b ≠ byte ']') :
    PrintableName (cstr acc) := by
  refine ⟨fun b hb => ?_⟩
  obtain ⟨hlt, hrest⟩ := h b ((List.takeWhile_prefix _).mem hb)
  exact ⟨⟨cstr_ne_zero _ b hb, hlt⟩, hrest⟩

theorem KeyBytes.concat {nul : Bool} {acc : Text} {b : UInt8} (h : KeyBytes nul acc)
    (hb : b < 128 ∧ b ≠ nl ∧ b ≠ byte '=' ∧ b ≠ byte '[' ∧ b ≠ byte ']')
    (hzero : nul = false → b ≠ 0) : KeyBytes nul (acc ++ [b]) := by
  obtain ⟨first, hfirst, hform⟩ := h.first
  refine ⟨fun d hd => ?_, ⟨first, ?_, hform⟩, fun hn d hd => ?_⟩
  · rcases List.mem_append.mp hd with hd | hd
    · exact h.bytes d hd
    · rwa [List.mem_singleton.mp hd]
  · rw [List.head?_append, Option.mem_def.mp hfirst]
    rfl
  · rcases List.mem_append.mp hd with hd | hd
    · exact h.zero hn d hd
    · rw [List.mem_singleton.mp hd]
      exact hzero hn

theorem ValueBytes.append {nul : Bool} {acc more : Text} (h : ValueBytes nul acc)
    (hbytes : ∀ b ∈ more, b ≠ nl) (hpairs : escaped [] (acc ++ more))
    (hzero : nul = false → ∀ b ∈ more, b ≠ 0) : ValueBytes nul (acc ++ more) := by
  refine ⟨fun d hd => ?_, hpairs, fun hn d hd => ?_⟩
  · rcases List.mem_append.mp hd with hd | hd
    · exact h.bytes d hd
    · exact hbytes d hd
  · rcases List.mem_append.mp hd with hd | hd
    · exact h.zero hn d hd
    · exact hzero hn d hd

theorem ValueBytes.pair {nul : Bool} {acc : Text} {b : UInt8} (h : ValueBytes nul acc)
    (heven : Even (trailingBackslashes acc)) (hnl : b ≠ nl) (hzero : nul = false → b ≠ 0) :
    ValueBytes nul (acc ++ [bs, b]) := by
  refine h.append ?_ (escaped_pair h.pairs heven b) ?_
  · simpa using ⟨by decide, hnl⟩
  · simpa using fun hn => ⟨by decide, hzero hn⟩

section Steps
variable {nul : Bool} {sections : List CfSection} {sec : Option CfSection}

theorem Sound.mk_open {mode mode' : Mode} (h : Sound nul ⟨sections, sec, mode⟩)
    (hmode : ModeBytes nul mode') : Sound nul ⟨sections, sec, mode'⟩ := ⟨h.sections, hmode⟩

theorem Sound.drop {mode : Mode} (h : Sound nul ⟨sections, sec, mode⟩) :
    Sound nul ⟨sections, none, .failed⟩ := by
  refine ⟨fun s hs => h.sections s ?_, trivial⟩
  simp only [content, Option.toList_none, List.append_nil] at hs ⊢
  exact List.mem_append_left _ hs

/-- Where an entry is attached, the section keeps its form. -/
theorem Sound.close {mode : Mode} {key acc : Text} (h : Sound nul ⟨sections, sec, mode⟩)
    (hkey : KeyBytes nul key) (hvalue : ValueBytes nul acc) (comment : Bool) :
    Sound nul ⟨sections, attachEntry ⟨cstr (trimRight key), cstr (trimRight acc)⟩ sec,
      .line comment⟩ := by
  cases sec with
  | none => exact ⟨h.sections, trivial⟩
  | some last =>
    refine ⟨fun s hs => ?_, trivial⟩
    simp only [content, attachEntry, Option.toList_some, List.mem_append, List.mem_singleton] at hs
    rcases hs with hs | rfl
    · exact h.sections s (List.mem_append_left _ hs)
    · have hlast := h.sections last (by simp [content])
      refine ⟨hlast.name, fun kv hk => ?_, fun kv hk => ?_⟩
      · rcases List.mem_append.mp hk with hk | hk
        · exact hlast.keys kv hk
        · rw [List.mem_singleton.mp hk]
          exact hkey.readable
      · rcases List.mem_append.mp hk with hk | hk
        · exact hlast.values kv hk
        · rw [List.mem_singleton.mp hk]
          exact hvalue.readable

theorem Sound.advanceValue {mode : Mode} {key acc : Text} {b : UInt8}
    (h : Sound nul ⟨sections, sec, mode⟩) (hkey : KeyBytes nul key)
    (hvalue : ValueBytes nul acc)
    (heven : Even (trailingBackslashes acc)) (hzero : nul = false → b ≠ 0) :
    Sound nul (advanceValue ⟨sections, sec, mode⟩ key acc b) := by
  unfold Scanner.advanceValue
  split
  · exact h.close hkey hvalue false
  rename_i hhigh
  split
  · exact h.mk_open ⟨hkey, hvalue, heven⟩
  rename_i hbs
  split
  · exact h.close hkey hvalue false
  rename_i hnl
  refine h.mk_open ⟨hkey, hvalue.append (by simpa using hnl) ?_ (by simpa using hzero), ?_⟩
  · rw [escaped_append, hvalue.pairs, Bool.true_and]
    exact escaped_of_lt (by simpa using hhigh) _
  · rw [trailingBackslashes_concat, if_neg hbs]
    decide

/-- The key loop, also with the byte that the main loop has pushed back. -/
theorem Sound.advanceKey {mode : Mode} {acc : Text} {b : UInt8}
    (h : Sound nul ⟨sections, sec, mode⟩)
    (hstore : b < 128 ∧ b ≠ nl ∧ b ≠ byte '=' ∧ b ≠ byte '[' ∧ b ≠ byte ']' →
      KeyBytes nul (acc ++ [b])) (hskip : b = byte '=' → KeyBytes nul acc) :
    Sound nul (advanceKey ⟨sections, sec, mode⟩ acc b) := by
  unfold Scanner.advanceKey
  split
  · exact h.drop
  rename_i hhigh
  split
  · exact h.drop
  rename_i hnl
  split
  · exact h.drop
  rename_i hbracket
  rw [not_or] at hbracket
  split
  · rename_i heq
    exact h.mk_open (hskip heq)
  · rename_i heq
    exact h.mk_open (hstore ⟨not_not.mp hhigh, hnl, heq, hbracket⟩)

theorem Sound.advanceLine {mode : Mode} {comment : Bool} {b : UInt8}
    (h : Sound nul ⟨sections, sec, mode⟩) (hzero : nul = false → b ≠ 0) :
    Sound nul (advanceLine ⟨sections, sec, mode⟩ comment b) := by
  unfold Scanner.advanceLine
  split
  · exact h.mk_open trivial
  split
  · exact h.mk_open trivial
  split
  · exact h.mk_open trivial
  rename_i hspace
  split
  · exact h.mk_open trivial
  rename_i hmark
  split
  · refine ⟨?_, by simp [ModeBytes]⟩
    simpa [content] using h.sections
  split
  · exact h.drop
  rename_i heq
  rw [not_or] at hmark
  simp only [Bool.or_eq_true, not_or] at hspace
  refine h.advanceKey (fun hb => ⟨by simpa using hb, ⟨b, rfl, hspace.2, hmark⟩, ?_⟩)
    fun hb => absurd hb heq
  simpa using hzero

theorem Sound.step {s : Scan} (h : Sound nul s) {b : UInt8} (hzero : nul = false → b ≠ 0) :
    Sound nul (advance s b) := by
  obtain ⟨sections, sec, mode⟩ := s
  cases mode with
  | line comment => exact h.advanceLine hzero
  | name acc =>
    have hacc : ∀ d ∈ acc, d < 128 ∧ d ≠ nl ∧ d ≠ byte ']' := h.mode
    simp only [advance]
    split
    · exact h.mk_open trivial
    rename_i hhigh
    split
    · exact h.mk_open trivial
    rename_i hnl
    split
    · refine ⟨fun s hs => ?_, trivial⟩
      simp only [content, Option.toList_some, List.mem_append, List.mem_singleton] at hs
      rcases hs with hs | rfl
      · exact h.sections s (List.mem_append_left _ hs)
      · exact ⟨readable_name hacc, by simp, by simp⟩
    · rename_i hclose
      refine h.mk_open fun d hd => ?_
      rcases List.mem_append.mp hd with hd | hd
      · exact hacc d hd
      · rw [List.mem_singleton.mp hd]
        exact ⟨not_not.mp hhigh, hnl, hclose⟩
  | key acc =>
    have hacc : KeyBytes nul acc := h.mode
    exact h.advanceKey (fun hb => hacc.concat hb hzero) fun _ => hacc
  | skip key =>
    simp only [advance]
    split
    · exact h
    · exact h.advanceValue h.mode ⟨by simp, rfl, by simp⟩ (by decide) hzero
  | value key acc =>
    obtain ⟨hkey, hvalue, heven⟩ : KeyBytes nul key ∧ ValueBytes nul acc ∧
      Even (trailingBackslashes acc) := h.mode
    exact h.advanceValue hkey hvalue heven hzero
  | escape key acc =>
    obtain ⟨hkey, hvalue, heven⟩ : KeyBytes nul key ∧ ValueBytes nul acc ∧
      Even (trailingBackslashes acc) := h.mode
    simp only [advance]
    split
    · exact h.mk_open ⟨hkey, hvalue, heven⟩
    · rename_i hnl
      exact h.mk_open ⟨hkey, hvalue.pair heven hnl hzero, (even_pair heven b).2⟩
  | stopped => exact h
  | failed => exact h

theorem Sound.run {s : Scan} (h : Sound nul s) {text : Text}
    (hzero : nul = false → ∀ b ∈ text, b ≠ 0) : Sound nul (run s text) := by
  induction text generalizing s with
  | nil => exact h
  | cons b text ih =>
    exact ih (h.step fun hn => hzero hn b (by simp)) fun hn d hd => hzero hn d (by simp [hd])

theorem Sound.outcome {s : Scan} (h : Sound nul s) :
    ∀ sec ∈ (outcome s).2, ReadableSection nul sec := by
  obtain ⟨sections, sec, mode⟩ := s
  cases mode with
  | line comment => exact h.sections
  | name acc => exact h.sections
  | key acc => exact h.drop.sections
  | skip key =>
    have hempty : ValueBytes nul [] := ⟨by simp, rfl, by simp⟩
    exact (h.close h.mode hempty false).sections
  | value key acc => exact (h.close h.mode.1 h.mode.2.1 false).sections
  | escape key acc =>
    have hpair := h.mode.2.1.pair h.mode.2.2 (by decide : (255 : UInt8) ≠ nl) (by simp)
    exact (h.close h.mode.1 hpair false).sections
  | stopped => exact h.sections
  | failed => exact h.sections

end Steps

/-- Every section that is found has the form of those that can be written. -/
theorem scan_readable {nul : Bool} {text : Text} (hzero : nul = false → ∀ b ∈ text, b ≠ 0) :
    ∀ sec ∈ (scan [] text).2, ReadableSection nul sec := by
  have hstart : Sound nul (start []) := ⟨by simp [content, start], trivial⟩
  exact (hstart.run hzero).outcome

/-- The string is accepted or rejected, and it adds these sections. -/
def StringGives (text : Text) (sections : List CfSection) : Prop :=
  ∃ rc, ∀ cf fuel, text.length < fuel →
    cfAddFromString fuel cf text = .ok (rc, ⟨cf.sections ++ sections⟩)

def FileGives (file : File) (sections : List CfSection) : Prop :=
  ∃ rc, ∀ cf fuel, size file.reads < fuel →
    cfAddFromFile fuel cf file = .ok (rc, ⟨cf.sections ++ sections⟩)

theorem accepts_write {nul : Bool} {sections : List CfSection}
    (h : ∀ sec ∈ sections, ReadableSection nul sec) {fill : Text}
    (hfill : Fillers fill) (cf : Cf)
    {fuel : ℕ} (hfuel : (write nul sections ++ fill).length < fuel) :
    cfAddFromString fuel cf (write nul sections ++ fill) =
      .ok (true, ⟨cf.sections ++ sections⟩) := by
  obtain ⟨found, last, hrun, hfound⟩ := run_write h cf.sections none
  rw [cfAddFromString_scan cf hfuel, scan, start, run_append, hrun,
    run_fillers found last hfill]
  simp only [Option.toList_none, List.append_nil] at hfound
  simp [outcome, atEnd, hfound]

theorem write_ne_zero {sections : List CfSection}
    (h : ∀ sec ∈ sections, ReadableSection false sec) :
    ∀ b ∈ write false sections, b ≠ 0 := by
  have hentry (kv : CfKv) (hkey : ReadableKey false kv.key)
      (hvalue : ReadableValue false kv.value) :
      ∀ b ∈ writeEntry false kv, b ≠ 0 := by
    intro b hb
    simp only [writeEntry, cut, Bool.false_eq_true, ↓reduceIte, List.append_nil,
      List.mem_append] at hb
    rcases hb with ((hb | hb) | hb) | hb
    · exact (hkey.bytes b hb).1.1
    · exact (by decide : ∀ b ∈ [byte '=', bs, nl], b ≠ 0) b hb
    · exact (hvalue.bytes b hb).1
    · exact (by decide : ∀ b ∈ [byte ' ', nl], b ≠ 0) b hb
  intro b hb
  obtain ⟨sec, hsec, hb⟩ := List.mem_flatMap.mp hb
  have hs := h sec hsec
  simp only [writeSection, List.cons_append, List.mem_cons, List.mem_append, List.not_mem_nil,
    or_false] at hb
  rcases hb with rfl | ((hb | rfl) | rfl) | hb
  · decide
  · exact (hs.name.bytes b hb).1.1
  · decide
  · decide
  · obtain ⟨kv, hkv, hb⟩ := List.mem_flatMap.mp hb
    exact hentry kv (hs.keys kv hkv) (hs.values kv hkv) b hb

theorem stringGives_readable {nul : Bool} {text : Text} {sections : List CfSection}
    (hzero : nul = false → ∀ b ∈ text, b ≠ 0) (h : StringGives text sections) :
    ∀ sec ∈ sections, ReadableSection nul sec := by
  obtain ⟨rc, h⟩ := h
  have hread := h ⟨[]⟩ (text.length + 1) (by omega)
  rw [cfAddFromString_scan _ (Nat.lt_succ_self _)] at hread
  simp only [Except.ok.injEq, Prod.mk.injEq, Cf.mk.injEq, List.nil_append] at hread
  rw [← hread.2]
  exact scan_readable hzero

theorem cfAddFromFile_cases {fuel : ℕ} {file : File} (hfuel : size file.reads < fuel) (cf : Cf) :
    cfAddFromFile fuel cf file = .ok (false, cf) ∨
      cfAddFromFile fuel cf file = cfAddFromString fuel cf (contents file.reads) := by
  by_cases herror : file.opens = false ∨ Event.error ∈ file.reads
  · exact .inl (cfAddFromFile_error cf hfuel herror)
  rw [not_or, Bool.not_eq_false] at herror
  obtain ⟨opens, reads, closes⟩ := file
  obtain ⟨hopens, herror⟩ := herror
  simp only at hopens herror hfuel
  subst hopens
  cases closes with
  | false => exact .inl (cfAddFromFile_unclosed cf hfuel herror)
  | true =>
    rw [cfAddFromFile_contents cf hfuel herror]
    split
    · exact .inl rfl
    · exact .inr rfl

theorem fileGives_readable {file : File} {sections : List CfSection}
    (h : FileGives file sections) : ∀ sec ∈ sections, ReadableSection true sec := by
  obtain ⟨rc, h⟩ := h
  have hlen : (contents file.reads).length < size file.reads + 1 := by
    rw [size]
    omega
  have hread := h ⟨[]⟩ (size file.reads + 1) (by omega)
  rcases cfAddFromFile_cases (Nat.lt_succ_self (size file.reads)) ⟨[]⟩ with hnone | hsame
  · rw [hnone] at hread
    simp only [Except.ok.injEq, Prod.mk.injEq, Cf.mk.injEq, List.nil_append] at hread
    rw [← hread.2]
    simp
  · rw [hsame, cfAddFromString_scan _ hlen] at hread
    simp only [Except.ok.injEq, Prod.mk.injEq, Cf.mk.injEq, List.nil_append] at hread
    rw [← hread.2]
    exact scan_readable (by simp)

/-- A newline more avoids the length that is taken for an error. -/
theorem fileGives_write {sections : List CfSection}
    (h : ∀ sec ∈ sections, ReadableSection true sec) : ∃ file, FileGives file sections := by
  obtain ⟨fill, hfill, hlen⟩ : ∃ fill, Fillers fill ∧
      (write true sections ++ fill).length % 2 ^ 32 ≠ 2 ^ 32 - 1 := by
    by_cases hlen : (write true sections).length % 2 ^ 32 = 2 ^ 32 - 1
    · refine ⟨[nl], .cons (@Filler.blank [] (by decide)) .nil, ?_⟩
      rw [List.length_append, List.length_singleton]
      omega
    · exact ⟨[], .nil, by rwa [List.append_nil]⟩
  have hcontents : contents (leftOver (write true sections ++ fill) []) =
      write true sections ++ fill := by
    rw [leftOver_contents, contents, List.append_nil]
  refine ⟨⟨true, leftOver (write true sections ++ fill) [], true⟩, true,
    fun cf fuel hfuel => ?_⟩
  rw [cfAddFromFile_contents cf hfuel (by simp [leftOver_error]), hcontents, if_neg hlen]
  refine accepts_write h hfill cf ?_
  simp only [size, hcontents] at hfuel
  omega

/-- The sections that strings and files can add are those of the given form, and those of a
    string can be read from the text that is written for them. -/
theorem readable_sections (sections : List CfSection) :
    ((∃ text, (∀ b ∈ text, b ≠ 0) ∧ StringGives text sections) ↔
      ∀ sec ∈ sections, ReadableSection false sec) ∧
    ((∃ file, FileGives file sections) ↔ ∀ sec ∈ sections, ReadableSection true sec) ∧
    ((∀ sec ∈ sections, ReadableSection false sec) → ∀ cf fuel,
      (write false sections).length < fuel →
        cfAddFromString fuel cf (write false sections) =
          .ok (true, ⟨cf.sections ++ sections⟩)) := by
  have haccept (h : ∀ sec ∈ sections, ReadableSection false sec) (cf : Cf) (fuel : ℕ)
      (hfuel : (write false sections).length < fuel) :
      cfAddFromString fuel cf (write false sections) =
        .ok (true, ⟨cf.sections ++ sections⟩) := by
    have hwritten := @accepts_write false sections h [] .nil cf fuel (by rwa [List.append_nil])
    rwa [List.append_nil] at hwritten
  refine ⟨⟨?_, fun h => ?_⟩, ⟨?_, fileGives_write⟩, haccept⟩
  · rintro ⟨text, hzero, h⟩
    exact stringGives_readable (fun _ => hzero) h
  · exact ⟨write false sections, write_ne_zero h, true, haccept h⟩
  · rintro ⟨file, h⟩
    exact fileGives_readable h

/-- A value with white space before it, a byte above 127 in a pair and a backslash at the
    end. -/
def quotedSections : List CfSection :=
  [⟨ascii "a[b", [⟨ascii "k v", ascii " x" ++ [bs, 200, bs]⟩]⟩]

theorem quoted_readable : ∀ sec ∈ quotedSections, ReadableSection false sec := by
  intro sec hs
  rw [List.mem_singleton.mp hs]
  refine ⟨⟨by decide⟩, fun kv hk => ?_, fun kv hk => ?_⟩
  · rw [List.mem_singleton.mp hk]
    exact ⟨by decide, by rintro b ⟨⟩; decide, by decide, by rintro _ b ⟨⟩; decide⟩
  · rw [List.mem_singleton.mp hk]
    exact ⟨by decide, by decide, by rintro _ b ⟨⟩; decide⟩

theorem readable_sections_quoted :
    (∀ sec ∈ quotedSections, ReadableSection false sec) ∧
      cfAddFromString 40 ⟨[]⟩ (write false quotedSections) = .ok (true, ⟨quotedSections⟩) :=
  ⟨quoted_readable, (readable_sections quotedSections).2.2 quoted_readable ⟨[]⟩ 40
    (by decide)⟩

end Pathcomp.Readable
