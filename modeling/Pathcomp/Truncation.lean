import Pathcomp.Additions

set_option autoImplicit false

/-!
# What is lost behind a byte above 127

The first byte above 127 at a harmful place ends a comment, a name, a key or a
value for the code, but not for the image of the text. Reading never takes back
a section once the next header is reached, so that the two results differ unless
the section that is being read gets dropped on both sides.
-/
namespace Pathcomp.Truncation
open Bytes Buffer Config Scanner HighBytes Additions

/-- A header that puts the section before it among the finished ones. -/
def pushesAt (c : Context) (b : UInt8) : Bool :=
  c.place = .line ∧ c.opened ∧ b = byte '['

/-- Reading as the code does meets a syntax error before such a header. -/
def failsEarly : Context → Text → Bool
  | c, [] => !complete c.place
  | c, b :: text =>
    if b < 128 ∨ c.place.harmless then !pushesAt c b && failsEarly (c.next b) text
    else match c.place with
      | .name => true
      | .key => true
      | .skip => failsEarly { c with place := .line } text
      | .value => failsEarly { c with place := .line } text
      | _ => false

theorem advance_sections (s : Scan) (b : UInt8) :
    (advance s b).sections =
      s.sections ++ if s.mode = .line false ∧ b = byte '[' then s.sec.toList else [] := by
  obtain ⟨sections, sec, mode⟩ := s
  have hvalue (key acc : Text) :
      (advanceValue ⟨sections, sec, mode⟩ key acc b).sections = sections := by
    unfold advanceValue
    split_ifs <;> rfl
  have hkey (acc : Text) : (advanceKey ⟨sections, sec, mode⟩ acc b).sections = sections := by
    unfold advanceKey
    split_ifs <;> rfl
  cases mode with
  | line comment =>
    by_cases hb : b = byte '['
    · subst hb
      cases comment with
      | false => rfl
      | true => exact (List.append_nil _).symm
    · simp only [advance, advanceLine, hb, and_false, ↓reduceIte, List.append_nil]
      split_ifs <;> first | rfl | exact hkey []
  | name acc =>
    simp only [advance]
    split_ifs <;> simp_all
  | key acc => simp [advance, hkey]
  | skip key =>
    simp only [advance]
    split_ifs <;> simp_all
  | value key acc => simp [advance, hvalue]
  | escape key acc =>
    simp only [advance]
    split_ifs <;> simp_all
  | stopped => simp [advance]
  | failed => simp [advance]

theorem advance_sections_iff {c : Context} {s : Scan} (h : Fits c s) (b : UInt8) :
    (advance s b).sections = s.sections ↔ pushesAt c b = false := by
  have hline : s.mode = .line false ↔ c.place = .line := by
    rw [← h.place]
    cases s.mode with
    | line comment => cases comment <;> simp [placeOf]
    | _ => simp [placeOf]
  rw [advance_sections, List.append_right_eq_self]
  by_cases hp : s.mode = .line false ∧ b = byte '['
  · have hplace := hline.mp hp.1
    have hopen := h.opened (by rw [hplace]; rfl)
    rw [if_pos hp]
    cases hsec : s.sec <;> simp [pushesAt, hp.2, hplace, hopen, hsec]
  · rw [if_neg hp]
    simp only [pushesAt, decide_eq_false_iff_not, true_iff]
    exact fun hall => hp ⟨hline.mpr hall.1, hall.2.2⟩

theorem run_sections (s : Scan) (text : Text) : s.sections <+: (run s text).sections := by
  induction text generalizing s with
  | nil => exact List.prefix_rfl
  | cons b text ih =>
    have hstep : s.sections <+: (advance s b).sections := by
      rw [advance_sections]
      exact List.prefix_append _ _
    exact hstep.trans (ih (advance s b))

theorem outcome_sections (s : Scan) : s.sections <+: (outcome s).2 := by
  obtain ⟨sections, sec, mode⟩ := s
  cases mode <;> exact List.prefix_append _ _

theorem outcome_failing {s : Scan} (hsep : Separate s) (h : (outcome s).1 = false) :
    (outcome s).2 = s.sections := by
  obtain ⟨sections, sec, mode⟩ := s
  cases mode with
  | name acc =>
    have hsec : sec = none := hsep.name acc rfl
    simp [outcome, atEnd, hsec]
  | key acc => exact List.append_nil _
  | failed =>
    have hsec : sec = none := hsep.failed rfl
    simp [outcome, atEnd, hsec]
  | _ => cases h

theorem failsEarly_next {c : Context} {s : Scan} {b : UInt8} {text : Text} (h : Fits c s)
    (ih : failsEarly (c.next b) text = true ↔
      outcome (run (advance s b) text) = (false, (advance s b).sections)) :
    (!pushesAt c b && failsEarly (c.next b) text) = true ↔
      outcome (run s (b :: text)) = (false, s.sections) := by
  cases hp : pushesAt c b with
  | false =>
    rw [run_cons, ← (advance_sections_iff h b).mpr hp, ← ih]
    rfl
  | true =>
    refine iff_of_false Bool.false_ne_true fun he => ?_
    -- the section that is pushed here stays to the end
    have hlast : (advance s b).sections <+: s.sections := by
      have hfinal := (run_sections (advance s b) text).trans (outcome_sections _)
      rw [← run_cons, he] at hfinal
      exact hfinal
    have hfirst : s.sections <+: (advance s b).sections := run_sections s [b]
    have hsame := (advance_sections_iff h b).mp
      (hlast.eq_of_length (Nat.le_antisymm hlast.length_le hfirst.length_le))
    rw [hp] at hsame
    cases hsame

theorem failsEarly_iff {c : Context} {s : Scan} (h : Fits c s) (hsep : Separate s) (text : Text) :
    failsEarly c text = true ↔ outcome (run s text) = (false, s.sections) := by
  induction text generalizing c s with
  | nil =>
    have hcomplete := outcome_complete h
    rw [failsEarly, ← hcomplete, Bool.not_eq_true']
    exact ⟨fun hf => Prod.ext hf (outcome_failing hsep hf), fun he => congrArg Prod.fst he⟩
  | cons b text ih =>
    rw [failsEarly]
    by_cases hb : b < 128 ∨ c.place.harmless
    · rw [if_pos hb]
      exact failsEarly_next h (ih (h.next hb) (hsep.next b))
    rw [if_neg hb]
    obtain ⟨hhigh, hplace⟩ := not_or.mp hb
    have hsep' := hsep.next b
    obtain ⟨sections, sec, mode⟩ := s
    obtain ⟨place, opened⟩ := c
    obtain ⟨hp, hl, ho⟩ := h
    simp only at hp hl ho hplace
    subst hp
    cases mode with
    | line comment =>
      rw [run_cons, advance_line_high sections sec comment hhigh, run_stopped]
      cases comment <;>
        exact iff_of_false Bool.false_ne_true fun he =>
          Bool.false_ne_true (congrArg Prod.fst he).symm
    | name acc =>
      have hsec : sec = none := hsep.name acc rfl
      rw [run_cons, advance_name_high sections sec acc hhigh, hsec, outcome_failed]
      exact iff_of_true rfl rfl
    | key acc =>
      rw [run_cons, advance_key_high sections sec acc hhigh, outcome_failed]
      exact iff_of_true rfl rfl
    | skip key =>
      have hclose := advance_skip_high sections sec key hhigh
      rw [hclose] at hsep'
      rw [run_cons, hclose]
      exact ih (fits_close key [] (ho rfl)) hsep'
    | value key acc =>
      have hclose := advance_value_high sections sec key acc hhigh
      rw [hclose] at hsep'
      rw [run_cons, hclose]
      exact ih (fits_close key acc (ho rfl)) hsep'
    | escape key acc => exact absurd rfl hplace
    | stopped => exact absurd rfl hl
    | failed => exact absurd rfl hplace

def notName : Mode → Bool
  | .name _ => false
  | _ => true

/-- The section `name` with at least the entries `entries` follows `sections`, or
    a syntax error has dropped it before the next header. -/
def Keeps (sections : List CfSection) (name : Text) (entries : List CfKv) (s : Scan) : Prop :=
  (s.mode = .failed ∧ s.sections = sections ∧ s.sec = none) ∨
  (s.sections = sections ∧ (∃ more, s.sec = some ⟨name, entries ++ more⟩) ∧
    notName s.mode) ∨
  ∃ more rest, s.sections = sections ++ ⟨name, entries ++ more⟩ :: rest

section Keeping
variable {sections : List CfSection} {name : Text} {entries : List CfKv}

theorem keeps_cases {s : Scan} (h : Keeps sections name entries s)
    (hm : (placeOf s.mode).inSection) :
    (s.sections = sections ∧ ∃ more, s.sec = some ⟨name, entries ++ more⟩) ∨
      ∃ more rest, s.sections = sections ++ ⟨name, entries ++ more⟩ :: rest := by
  rcases h with h | h | h
  · rw [h.1] at hm
    cases hm
  · exact .inl ⟨h.1, h.2.1⟩
  · exact .inr h

theorem keeps_attach {s : Scan} (key value : Text) (h : Keeps sections name entries s)
    (hm : (placeOf s.mode).inSection) : Keeps sections name entries (closeEntry s key value) := by
  rcases keeps_cases h hm with ⟨hs, more, hsec⟩ | hs
  · refine .inr (.inl ⟨hs, ⟨more ++ [⟨cstr (trimRight key), cstr (trimRight value)⟩],
      ?_⟩, rfl⟩)
    simp only [closeEntry, hsec, attachEntry, List.append_assoc]
  · exact .inr (.inr hs)

/-- Changing the mode, but not to the reading of a name, keeps everything. -/
theorem keeps_mode {s : Scan} {mode : Mode} (h : Keeps sections name entries s)
    (hm : (placeOf s.mode).inSection) (hmode : notName mode) :
    Keeps sections name entries { s with mode := mode } := by
  rcases keeps_cases h hm with ⟨hs, hsec⟩ | hs
  · exact .inr (.inl ⟨hs, hsec, hmode⟩)
  · exact .inr (.inr hs)

theorem keeps_fail {s : Scan} (h : Keeps sections name entries s) :
    Keeps sections name entries { s with sec := none, mode := .failed } := by
  rcases h with h | h | hs
  · exact .inl ⟨rfl, h.2.1, rfl⟩
  · exact .inl ⟨rfl, h.1, rfl⟩
  · exact .inr (.inr hs)

theorem keeps_push {s : Scan} (h : Keeps sections name entries s)
    (hm : (placeOf s.mode).inSection) :
    Keeps sections name entries ⟨s.sections ++ s.sec.toList, none, .name []⟩ := by
  rcases keeps_cases h hm with ⟨hs, more, hsec⟩ | ⟨more, rest, hs⟩
  · exact .inr (.inr ⟨more, [], by simp [hs, hsec]⟩)
  · exact .inr (.inr ⟨more, rest ++ s.sec.toList, by simp [hs]⟩)

/-- While a name is read the section is already among the finished ones. -/
theorem keeps_name {before : List CfSection} {sec : Option CfSection} {acc : Text}
    (h : Keeps sections name entries ⟨before, sec, .name acc⟩) :
    ∃ more rest, before = sections ++ ⟨name, entries ++ more⟩ :: rest := by
  rcases h with h | h | hs
  · cases h.1
  · exact absurd h.2.2 Bool.false_ne_true
  · exact hs

theorem keeps_advanceKey {s : Scan} (acc : Text) (b : UInt8) (h : Keeps sections name entries s)
    (hm : (placeOf s.mode).inSection) : Keeps sections name entries (advanceKey s acc b) := by
  unfold advanceKey
  split_ifs
  · exact keeps_fail h
  · exact keeps_fail h
  · exact keeps_mode h hm rfl
  · exact keeps_mode h hm rfl
  · exact keeps_fail h

theorem keeps_advanceValue {s : Scan} (key acc : Text) (b : UInt8)
    (h : Keeps sections name entries s) (hm : (placeOf s.mode).inSection) :
    Keeps sections name entries (advanceValue s key acc b) := by
  unfold advanceValue
  split_ifs
  · exact keeps_mode h hm rfl
  · exact keeps_attach key acc h hm
  · exact keeps_mode h hm rfl
  · exact keeps_attach key acc h hm

theorem keeps_advance {s : Scan} (b : UInt8) (h : Keeps sections name entries s) :
    Keeps sections name entries (advance s b) := by
  obtain ⟨before, sec, mode⟩ := s
  cases mode with
  | line comment =>
    have hm : (placeOf (.line comment)).inSection := by cases comment <;> rfl
    simp only [advance, advanceLine]
    split_ifs
    · exact keeps_mode h hm rfl
    · exact keeps_mode h hm rfl
    · exact keeps_mode h hm rfl
    · exact keeps_push h hm
    · exact keeps_fail h
    · exact keeps_advanceKey [] b h hm
    · exact keeps_mode h hm rfl
  | name acc =>
    have hs := keeps_name h
    simp only [advance]
    split_ifs <;> exact .inr (.inr hs)
  | key acc => exact keeps_advanceKey acc b h rfl
  | skip key =>
    simp only [advance]
    split_ifs
    · exact h
    · exact keeps_advanceValue key [] b h rfl
  | value key acc => exact keeps_advanceValue key acc b h rfl
  | escape key acc =>
    simp only [advance]
    split_ifs <;> exact keeps_mode h rfl rfl
  | stopped => exact h
  | failed => exact h

theorem keeps_run {s : Scan} (text : Text) (h : Keeps sections name entries s) :
    Keeps sections name entries (run s text) := by
  induction text generalizing s with
  | nil => exact h
  | cons b text ih => exact ih (keeps_advance b h)

theorem keeps_atEnd {s : Scan} (h : Keeps sections name entries s) :
    Keeps sections name entries (atEnd s) := by
  obtain ⟨before, sec, mode⟩ := s
  cases mode with
  | line comment => exact keeps_mode h (by cases comment <;> rfl) rfl
  | name acc => exact .inr (.inr (keeps_name h))
  | key acc => exact keeps_fail h
  | skip key => exact keeps_mode (keeps_attach key [] h rfl) rfl rfl
  | value key acc => exact keeps_mode (keeps_attach key acc h rfl) rfl rfl
  | escape key acc => exact keeps_mode (keeps_attach key (acc ++ [bs, 255]) h rfl) rfl rfl
  | stopped => exact h
  | failed => exact h

theorem keeps_outcome {s : Scan} (h : Keeps sections name entries s) :
    outcome s = (false, sections) ∨
      ∃ more rest, (outcome s).2 = sections ++ ⟨name, entries ++ more⟩ :: rest := by
  rcases keeps_atEnd h with ⟨hm, hs, hsec⟩ | ⟨hs, ⟨more, hsec⟩, _⟩ |
    ⟨more, rest, hs⟩
  · exact .inl (by simp [outcome, hm, hs, hsec])
  · exact .inr ⟨more, [], by simp [outcome, hs, hsec]⟩
  · exact .inr ⟨more, rest ++ (atEnd s).sec.toList, by simp [outcome, hs]⟩

theorem keeps_close {mode : Mode} (key value : Text) :
    Keeps sections name (entries ++ [⟨cstr (trimRight key), cstr (trimRight value)⟩])
      (closeEntry ⟨sections, some ⟨name, entries⟩, mode⟩ key value) :=
  .inr (.inl ⟨rfl, ⟨[], by simp [closeEntry, attachEntry]⟩, rfl⟩)

/-- A value that starts with `start` is being read, or has been stored as the
    entry behind `entries`. -/
def Extends (sections : List CfSection) (name : Text) (entries : List CfKv) (key start : Text)
    (s : Scan) : Prop :=
  ∃ more, (∀ x ∈ more, x ≠ 0) ∧
    (s = ⟨sections, some ⟨name, entries⟩, .value key (start ++ more)⟩ ∨
      s = ⟨sections, some ⟨name, entries⟩, .escape key (start ++ more)⟩ ∨
      Keeps sections name
        (entries ++ [⟨cstr (trimRight key), cstr (trimRight (start ++ more))⟩]) s)

theorem nul_free_append {more tail : Text} (hmore : ∀ x ∈ more, x ≠ 0)
    (htail : ∀ x ∈ tail, x ≠ 0) :
    ∀ x ∈ more ++ tail, x ≠ 0 := by
  intro x hx
  rcases List.mem_append.mp hx with hx | hx
  · exact hmore x hx
  · exact htail x hx

theorem extends_advance {key start : Text} {s : Scan} {b : UInt8} (hb : b ≠ 0)
    (h : Extends sections name entries key start s) :
    Extends sections name entries key start (advance s b) := by
  obtain ⟨more, hmore, rfl | rfl | hk⟩ := h
  · simp only [advance, advanceValue]
    split_ifs
    · exact ⟨more, hmore, .inr (.inl rfl)⟩
    · exact ⟨more, hmore, .inr (.inr (keeps_close key (start ++ more)))⟩
    · exact ⟨more ++ [b], nul_free_append hmore (by simpa using hb), .inl (by simp)⟩
    · exact ⟨more, hmore, .inr (.inr (keeps_close key (start ++ more)))⟩
  · simp only [advance]
    split_ifs
    · exact ⟨more, hmore, .inl rfl⟩
    · exact ⟨more ++ [bs, b], nul_free_append hmore (by simpa using ⟨by decide, hb⟩),
        .inl (by simp)⟩
  · exact ⟨more, hmore, .inr (.inr (keeps_advance b hk))⟩

theorem extends_run {key start : Text} {s : Scan} {text : Text} (ht : ∀ b ∈ text, b ≠ 0)
    (h : Extends sections name entries key start s) :
    Extends sections name entries key start (run s text) := by
  induction text generalizing s with
  | nil => exact h
  | cons b text ih =>
    exact ih (fun d hd => ht d (by simp [hd])) (extends_advance (ht b (by simp)) h)

theorem extends_outcome {key start : Text} {s : Scan}
    (h : Extends sections name entries key start s) :
    outcome s = (false, sections) ∨
    ∃ more, (∀ x ∈ more, x ≠ 0) ∧ ∃ extra rest, (outcome s).2 = sections ++
      ⟨name, entries ++ [⟨cstr (trimRight key), cstr (trimRight (start ++ more))⟩] ++ extra⟩
        ::
        rest := by
  obtain ⟨more, hmore, rfl | rfl | hk⟩ := h
  · exact .inr ⟨more, hmore, [], [], by simp [outcome, atEnd, closeEntry, attachEntry]⟩
  · refine .inr ⟨more ++ [bs, 255], nul_free_append hmore (by decide), [], [], ?_⟩
    simp [outcome, atEnd, closeEntry, attachEntry]
  · rcases keeps_outcome hk with he | he
    · exact .inl he
    · exact .inr ⟨more, hmore, he⟩

end Keeping

/-- A byte that is no white space is kept by trimming, with all before it. -/
theorem trimRight_length {s more : Text} {b : UInt8} (hb : space b = false) :
    s.length < (trimRight (s ++ [b] ++ more)).length := by
  have hself : trimRight (s ++ [b]) = s ++ [b] := by
    refine List.rdropWhile_eq_self_iff.mpr fun _ => ?_
    simp only [List.getLast_append_singleton]
    rw [show isspace (charToInt b) = false from hb]
    decide
  have hcases : trimRight (s ++ [b] ++ more) = s ++ [b] ∨
      ∃ t, trimRight (s ++ [b] ++ more) = s ++ [b] ++ t := by
    unfold trimRight List.rdropWhile at *
    rw [List.reverse_append, List.dropWhile_append]
    split
    · exact .inl hself
    · exact .inr ⟨_, by rw [List.reverse_append, List.reverse_reverse]⟩
  rcases hcases with he | ⟨t, he⟩
  · rw [he]
    simp
  · rw [he]
    simp

theorem cstr_trimRight_of_nul_free {s : Text} (h : ∀ x ∈ s, x ≠ 0) :
    cstr (trimRight s) = trimRight s :=
  cstr_of_nul_free _ fun x hx => h x ((List.rdropWhile_prefix _ s).subset hx)

theorem truncated_value_ne {acc more : Text} (hacc : ∀ x ∈ acc, x ≠ 0)
    (hmore : ∀ x ∈ more, x ≠ 0) :
    lowerText (cstr (trimRight acc)) ≠ cstr
      (trimRight (lowerText acc ++ [byte 'x'] ++ more)) := by
  have hall : ∀ x ∈ lowerText acc ++ [byte 'x'] ++ more, x ≠ 0 :=
    nul_free_append (nul_free_append (lowerText_nul_free hacc) (by decide)) hmore
  intro he
  have hlen := congrArg List.length he
  have hlong := @trimRight_length (lowerText acc) more (byte 'x') (by decide)
  have hshort : (trimRight acc).length ≤ acc.length := (List.rdropWhile_prefix _ acc).length_le
  rw [cstr_trimRight_of_nul_free hall, cstr_trimRight_of_nul_free hacc] at hlen
  simp only [lowerText, List.length_map] at hlen hlong
  omega

/-- Where the value is cut off in an entry of a section, only a syntax error
    before the next header brings the two readings together. -/
theorem cut_value_early {sections : List CfSection} {name : Text} {entries : List CfKv}
    {mode : Mode} {key acc after : Text} (hacc : ∀ x ∈ acc, x ≠ 0)
    (hafter : ∀ x ∈ after, x ≠ 0)
    {t : Scan} (ht : t = closeEntry ⟨sections, some ⟨name, entries⟩, mode⟩ key acc)
    (he : outcome (run ⟨sections.map lowerSection, some (lowerSection ⟨name, entries⟩),
        .value (lowerText key) (lowerText acc ++ [byte 'x'])⟩ (lowerText after)) =
      ((outcome (run t after)).1, (outcome (run t after)).2.map lowerSection)) :
    outcome (run t after) = (false, sections) := by
  subst ht
  have hsections := congrArg Prod.snd he
  rcases keeps_outcome (keeps_run after (keeps_close key acc)) with hcut | ⟨kept, rest, hcut⟩
  · exact hcut
  exfalso
  rw [hcut] at hsections
  have hstart : Extends (sections.map lowerSection) (lowerText name) (entries.map lowerKv)
      (lowerText key) (lowerText acc ++ [byte 'x']) ⟨sections.map lowerSection,
        some (lowerSection ⟨name, entries⟩),
        .value (lowerText key) (lowerText acc ++ [byte 'x'])⟩ :=
    ⟨[], List.forall_mem_nil _, .inl (by rw [List.append_nil]; rfl)⟩
  rcases extends_outcome (extends_run (lowerText_nul_free hafter) hstart) with
    himage | ⟨more, hmore, extra, _, himage⟩
  · rw [himage] at hsections
    have hlen := congrArg List.length hsections
    simp at hlen
  · rw [himage] at hsections
    simp only [List.map_append, List.map_cons, lowerSection, List.append_cancel_left_eq,
      List.cons.injEq, CfSection.mk.injEq, List.append_assoc, List.cons_append, List.nil_append,
      true_and, lowerKv, CfKv.mk.injEq] at hsections
    refine truncated_value_ne hacc hmore ?_
    rw [List.append_assoc]
    exact hsections.1.1.2.symm

theorem cut_name_early {c : Context} (hplace : c.place = .name ∨ c.place = .key) {b : UInt8}
    (hb : ¬ b < 128) (after : Text) : failsEarly c (b :: after) = true := by
  have hharm : ¬ (b < 128 ∨ c.place.harmless) := by
    rcases hplace with hp | hp <;> simp [hp, Place.harmless, hb]
  rw [failsEarly, if_neg hharm]
  rcases hplace with hp | hp <;> rw [hp]

section Cut
variable {c : Context} {s : Scan} {b : UInt8} {after : Text}

theorem agree_of_early (h : Fits c s) (hsep : Separate s) (text : Text)
    (ht : failsEarly c text = true) (hi : failsEarly c (lowerText text) = true) :
    outcome (run (lowerScan s) (lowerText text)) =
      ((outcome (run s text)).1, (outcome (run s text)).2.map lowerSection) := by
  rw [(failsEarly_iff (fits_lower h) hsep.lower _).mp hi, (failsEarly_iff h hsep _).mp ht]
  rfl

theorem early_of_agree (h : Fits c s) (hsep : Separate s)
    (hacc : ∀ x ∈ valueBytes s.mode, x ≠ 0)
    (hb : ¬ b < 128) (hafter : ∀ x ∈ after, x ≠ 0) (hline : c.place ≠ .line)
    (hcomment : c.place ≠ .comment) (hharm : c.place.harmless = false)
    (hstray : c.place = .skip ∨ c.place = .value → c.opened = true)
    (he : outcome (run (lowerScan s) (lowerText (b :: after))) =
      ((outcome (run s (b :: after))).1, (outcome (run s (b :: after))).2.map lowerSection)) :
    failsEarly c (b :: after) = true ∧ failsEarly c (lowerText (b :: after)) = true := by
  have hcut : failsEarly c (b :: after) = true := by
    have hfits := h
    obtain ⟨sections, sec, mode⟩ := s
    obtain ⟨hp, hl, _⟩ := h
    have hx : lowerText (b :: after) = byte 'x' :: lowerText after := by
      change lower b :: lowerText after = _
      rw [lower, if_neg hb]
    rw [hx, run_cons, run_cons] at he
    cases mode with
    | line comment =>
      cases comment with
      | false => exact absurd hp.symm hline
      | true => exact absurd hp.symm hcomment
    | name acc => exact cut_name_early (.inl hp.symm) hb after
    | key acc => exact cut_name_early (.inr hp.symm) hb after
    | skip key =>
      obtain ⟨⟨name, entries⟩, rfl⟩ :=
        hfits.section_of_opened (by rw [← hp]; rfl) (hstray (.inl hp.symm))
      rw [failsEarly_iff hfits hsep, run_cons]
      exact @cut_value_early sections name entries (.skip key) key [] after (List.forall_mem_nil _)
        hafter _ (advance_skip_high sections _ key hb) he
    | value key acc =>
      obtain ⟨⟨name, entries⟩, rfl⟩ :=
        hfits.section_of_opened (by rw [← hp]; rfl) (hstray (.inr hp.symm))
      rw [failsEarly_iff hfits hsep, run_cons]
      exact cut_value_early hacc hafter (advance_value_high sections _ key acc hb) he
    | escape key acc => rw [← hp] at hharm; cases hharm
    | stopped => exact absurd rfl hl
    | failed => rw [← hp] at hharm; cases hharm
  refine ⟨hcut, (failsEarly_iff (fits_lower h) hsep.lower _).mpr ?_⟩
  rw [he, (failsEarly_iff h hsep _).mp hcut]
  rfl

end Cut

/-- The text from the first byte above 127 at a harmful place on, with its
    context. -/
def firstHarm : Context → Text → Option (Context × Text)
  | _, [] => none
  | c, b :: text =>
    if b < 128 ∨ c.place.harmless then firstHarm (c.next b) text else some (c, b :: text)

/-- Nothing is lost at such a byte. At the start of a line and in a comment the
    image has to be well-formed and may add nothing more. Elsewhere a syntax
    error has to drop the section that is being read, in the text and in its
    image. -/
def nothingLost (c : Context) (rest : Text) : Bool :=
  if c.place = .line ∨ c.place = .comment then
    complete (rest.foldl Context.next c).place ∧ additions c rest = 0
  else failsEarly c rest && failsEarly c (lowerText rest)

def readAlike (text : Text) : Bool :=
  match firstHarm .start text with
  | none => !endsInEscape text
  | some (c, rest) => nothingLost c rest

/-- The first harm is done to a value before the first header. -/
def strayHarm (text : Text) : Bool :=
  match firstHarm .start text with
  | none => false
  | some (c, _) => (c.place = .skip ∨ c.place = .value) ∧ c.opened = false

theorem firstHarm_none {c : Context} {text : Text} (h : firstHarm c text = none) :
    harmlessFrom c text := by
  induction text generalizing c with
  | nil => rfl
  | cons b text ih =>
    rw [firstHarm] at h
    split at h
    · rename_i hb
      simpa [harmlessFrom, hb] using ih h
    · cases h

theorem firstHarm_some {c d : Context} {text rest : Text} (h : firstHarm c text = some (d, rest)) :
    ∃ before b after, text = before ++ rest ∧ rest = b :: after ∧ harmlessFrom c before ∧
      before.foldl Context.next c = d ∧ ¬ b < 128 ∧ d.place.harmless = false := by
  induction text generalizing c with
  | nil => cases h
  | cons b text ih =>
    rw [firstHarm] at h
    split at h
    · rename_i hb
      obtain ⟨before, b', after, rfl, hrest, hbefore, hd, hb'⟩ := ih h
      exact ⟨b :: before, b', after, rfl, hrest, by simpa [harmlessFrom, hb] using
        hbefore, hd, hb'⟩
    · rename_i hb
      obtain ⟨hhigh, hplace⟩ := not_or.mp hb
      obtain ⟨rfl, rfl⟩ : c = d ∧ b :: text = rest := by simpa using h
      exact ⟨[], b, text, rfl, rfl, rfl, rfl, hhigh, by simpa using hplace⟩

theorem separate_start : Separate (start []) := separate_of_none rfl

theorem clean_iff_rest {before rest : Text} (hbefore : highBytesHarmless before) :
    EightBitClean (before ++ rest) ↔
      outcome (run (lowerScan (run (start []) before)) (lowerText rest)) =
        ((outcome (run (run (start []) before) rest)).1,
          (outcome (run (run (start []) before) rest)).2.map lowerSection) := by
  rw [eightBitClean_iff]
  unfold scan
  rw [lowerText_append, run_append, run_append, (scan_fits hbefore).1]

/-- A text is read like its image if nothing is lost at the first harm, and only
    then unless that harm is done to a value before the first header. -/
theorem eight_bit_clean (text : Text) (hnul : ∀ b ∈ text, b ≠ 0) :
    (readAlike text → EightBitClean text) ∧
    (strayHarm text = false → EightBitClean text → readAlike text) := by
  unfold readAlike strayHarm
  cases hfirst : firstHarm .start text with
  | none =>
    have hclean := clean_iff_of_harmless hnul (firstHarm_none hfirst)
    simp only [Bool.not_eq_true']
    exact ⟨hclean.mpr, fun _ => hclean.mp⟩
  | some harm =>
    obtain ⟨c, rest⟩ := harm
    obtain ⟨before, b, after, rfl, rfl, hbefore, hc, hb, hharm⟩ := firstHarm_some hfirst
    obtain ⟨_, hfits⟩ := scan_fits hbefore
    have hcontext : context before = c := hc
    rw [hcontext] at hfits
    have hsep := run_separate separate_start before
    simp only [nothingLost]
    rw [clean_iff_rest hbefore]
    by_cases hline : c.place = .line ∨ c.place = .comment
    · rw [if_pos hline, stopped_iff hfits hsep hline hb after, decide_eq_true_iff]
      exact ⟨id, fun _ => id⟩
    · rw [if_neg hline, Bool.and_eq_true]
      refine ⟨fun hearly => agree_of_early hfits hsep _ hearly.1 hearly.2, fun hstray he => ?_⟩
      have hacc := @run_nul_free (start []) (List.forall_mem_nil _) before
        fun d hd => hnul d (List.mem_append_left _ hd)
      have hafter : ∀ d ∈ after, d ≠ 0 := fun d hd => hnul d (by simp [hd])
      refine early_of_agree hfits hsep hacc hb hafter (fun hp => hline (.inl hp))
        (fun hp => hline (.inr hp)) hharm (fun hp => ?_) he
      simp only [decide_eq_false_iff_not, not_and, Bool.not_eq_false] at hstray
      exact hstray hp

def remarkText : Text := ascii "[a]\nk = v\n# caf" ++ [195, 169] ++ ascii " = 1\n"

theorem eight_bit_clean_remark : readAlike remarkText ∧ EightBitClean remarkText :=
  ⟨by decide, (eight_bit_clean remarkText (by decide)).1 (by decide)⟩

def cafeText : Text := ascii "[a]\nk = caf" ++ [195, 169] ++ ascii "\n[b]\n"

theorem cafe_truncated :
    cfAddFromString 40 ⟨[]⟩ cafeText =
      .ok (true, ⟨[⟨ascii "a", [⟨ascii "k", ascii "caf"⟩]⟩]⟩) ∧
    cfAddFromString 40 ⟨[]⟩ (lowerText cafeText) =
      .ok (true, ⟨[⟨ascii "a", [⟨ascii "k", ascii "cafxx"⟩]⟩, ⟨ascii "b", []⟩]⟩) ∧
    ¬ EightBitClean cafeText := by
  refine ⟨by rfl, by rfl, fun h => ?_⟩
  have hs := (eightBitClean_iff _).mp h
  revert hs
  decide

end Pathcomp.Truncation
