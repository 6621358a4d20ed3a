import Pathcomp.HighBytes

set_option autoImplicit false

/-!
# What a text adds

A byte above 127 at the start of a line or in a comment ends the reading. The
text and its image then agree when the image is accepted and adds no section
and no entry from there on.
-/
namespace Pathcomp.Additions
open Bytes Buffer Config Scanner HighBytes

/-- A byte that completes a header, or that makes an entry of a section. -/
def addsAt (c : Context) (b : UInt8) : Bool :=
  match c.place with
  | .name => b = byte ']'
  | .key => c.opened && b = byte '='
  | _ => false

def additions : Context → Text → ℕ
  | _, [] => 0
  | c, b :: text => (addsAt c b).toNat + additions (c.next b) text

/-- The number of sections and entries. -/
def sizeOfSections : List CfSection → ℕ
  | [] => 0
  | sec :: sections => sec.entries.length + sizeOfSections sections + 1

def content (s : Scan) : List CfSection := s.sections ++ s.sec.toList

/-- An entry whose value is being read, if there is a section to attach it to. -/
def pending (s : Scan) : ℕ :=
  match s.mode, s.sec with
  | .skip _, some _ => 1
  | .value _ _, some _ => 1
  | .escape _ _, some _ => 1
  | _, _ => 0

def weight (s : Scan) : ℕ := sizeOfSections (content s) + pending s

/-- While a header is read, and after a syntax error, no section is open. -/
structure Separate (s : Scan) : Prop where
  name : ∀ acc, s.mode = .name acc → s.sec = none
  failed : s.mode = .failed → s.sec = none

/-- The places where a text may end without a syntax error. -/
def complete : Place → Bool
  | .name => false
  | .key => false
  | .ended => false
  | _ => true

theorem sizeOfSections_append (xs ys : List CfSection) :
    sizeOfSections (xs ++ ys) = sizeOfSections xs + sizeOfSections ys := by
  induction xs with
  | nil => simp [sizeOfSections]
  | cons sec xs ih =>
    simp only [List.cons_append, sizeOfSections, ih]
    omega

theorem sizeOfSections_attach (kv : CfKv) (sec : CfSection) :
    sizeOfSections (attachEntry kv (some sec)).toList = sizeOfSections [sec] + 1 := by
  simp [sizeOfSections, attachEntry]

theorem weight_close (sections : List CfSection) (sec : Option CfSection) (mode : Mode)
    (key value : Text)
    (hmode : placeOf mode = .skip ∨ placeOf mode = .value ∨ placeOf mode = .escape) :
    weight (closeEntry ⟨sections, sec, mode⟩ key value) = weight ⟨sections, sec, mode⟩ := by
  have hpending : pending ⟨sections, sec, mode⟩ = sec.isSome.toNat := by
    cases mode with
    | line comment => cases comment <;> simp [placeOf] at hmode
    | skip _ => cases sec <;> rfl
    | value _ _ => cases sec <;> rfl
    | escape _ _ => cases sec <;> rfl
    | _ => simp [placeOf] at hmode
  cases sec with
  | none => simp [weight, closeEntry, content, pending, attachEntry]
  | some sec =>
    have hattach := sizeOfSections_attach ⟨cstr (trimRight key), cstr (trimRight value)⟩ sec
    simp only [weight, hpending, closeEntry, content, sizeOfSections_append, hattach]
    simp [pending]
    omega

theorem separate_of_none {s : Scan} (h : s.sec = none) : Separate s :=
  ⟨fun _ _ => h, fun _ => h⟩

theorem separate_of_inSection {s : Scan} (h : (placeOf s.mode).inSection) : Separate s := by
  constructor
  · intro acc hm
    rw [hm] at h
    cases h
  · intro hm
    rw [hm] at h
    cases h

theorem Separate.next {s : Scan} (h : Separate s) (b : UInt8) : Separate (advance s b) := by
  obtain ⟨sections, sec, mode⟩ := s
  have hvalue (key acc : Text) : Separate (advanceValue ⟨sections, sec, mode⟩ key acc b) := by
    unfold advanceValue
    split_ifs <;> exact separate_of_inSection rfl
  have hkey (acc : Text) : Separate (advanceKey ⟨sections, sec, mode⟩ acc b) := by
    unfold advanceKey
    split_ifs
    · exact separate_of_none rfl
    · exact separate_of_none rfl
    · exact separate_of_inSection rfl
    · exact separate_of_inSection rfl
    · exact separate_of_none rfl
  cases mode with
  | line comment =>
    simp only [advance, advanceLine]
    split_ifs
    · exact separate_of_inSection rfl
    · exact separate_of_inSection (by cases comment <;> rfl)
    · exact separate_of_inSection rfl
    · exact separate_of_none rfl
    · exact separate_of_none rfl
    · exact hkey []
    · constructor <;> simp
  | name acc =>
    have hsec : sec = none := h.name acc rfl
    simp only [advance]
    split_ifs
    · exact separate_of_none hsec
    · exact separate_of_inSection rfl
    · exact separate_of_none hsec
    · exact separate_of_none hsec
  | key acc => exact hkey acc
  | skip key =>
    simp only [advance]
    split_ifs
    · exact h
    · exact hvalue key []
  | value key acc => exact hvalue key acc
  | escape key acc =>
    simp only [advance]
    split_ifs <;> exact separate_of_inSection rfl
  | stopped => exact h
  | failed => exact h

/-- Unless it ends in a syntax error, a byte adds what its place says. -/
theorem weight_advance {c : Context} {s : Scan} (h : Fits c s) (hsep : Separate s) {b : UInt8}
    (hb : b < 128) (hok : (advance s b).mode ≠ .failed) :
    weight (advance s b) = weight s + (addsAt c b).toNat := by
  obtain ⟨sections, sec, mode⟩ := s
  obtain ⟨place, opened⟩ := c
  obtain ⟨hp, hl, ho⟩ := h
  simp only at hp hl ho
  subst hp
  cases mode with
  | line comment =>
    have hadds : addsAt ⟨placeOf (.line comment), opened⟩ b = false := by cases comment <;> rfl
    rw [hadds]
    simp only [advance, advanceLine, advanceKey, hb, not_true_eq_false, ↓reduceIte] at hok ⊢
    split_ifs at hok ⊢ <;> first | rfl | exact absurd rfl hok | simp [weight, content, pending]
  | name acc =>
    have hsec : sec = none := hsep.name acc rfl
    simp only [advance, hb, not_true_eq_false, ↓reduceIte] at hok ⊢
    split_ifs at hok ⊢ with hnl hclose
    · exact absurd rfl hok
    · simp [weight, content, pending, hsec, addsAt, placeOf, hclose, sizeOfSections_append,
        sizeOfSections]
    · simp [weight, content, pending, hsec, addsAt, placeOf, hclose]
  | key acc =>
    have hopen : opened = sec.isSome := ho rfl
    simp only [advance, advanceKey, hb, not_true_eq_false, ↓reduceIte] at hok ⊢
    split_ifs at hok ⊢ with hnl hbad heq
    · exact absurd rfl hok
    · exact absurd rfl hok
    · cases sec <;> simp [weight, content, pending, addsAt, placeOf, heq, hopen]
    · simp [weight, content, pending, addsAt, placeOf, heq]
  | skip key =>
    simp only [advance, advanceValue, hb, not_true_eq_false, ↓reduceIte] at hok ⊢
    split_ifs
    · rfl
    · cases sec <;> rfl
    · exact weight_close sections sec _ key [] (.inl rfl)
    · cases sec <;> rfl
  | value key acc =>
    simp only [advance, advanceValue, hb, not_true_eq_false, ↓reduceIte] at hok ⊢
    split_ifs
    · cases sec <;> rfl
    · exact weight_close sections sec _ key acc (.inr (.inl rfl))
    · cases sec <;> rfl
  | escape key acc =>
    simp only [advance]
    split_ifs
    · cases sec <;> rfl
    · cases sec <;> rfl
  | stopped => exact absurd rfl hl
  | failed => exact absurd rfl hok

/-- A byte that adds nothing leaves the sections and their entries alone. -/
theorem content_advance {c : Context} {s : Scan} (h : Fits c s) {b : UInt8} (hb : b < 128)
    (hok : (advance s b).mode ≠ .failed) (hadds : addsAt c b = false) (hp : pending s = 0) :
    content (advance s b) = content s ∧ pending (advance s b) = 0 := by
  obtain ⟨sections, sec, mode⟩ := s
  obtain ⟨place, opened⟩ := c
  obtain ⟨hplace, hl, ho⟩ := h
  simp only at hplace hl ho
  subst hplace
  cases mode with
  | line comment =>
    simp only [advance, advanceLine, advanceKey, hb, not_true_eq_false, ↓reduceIte] at hok ⊢
    split_ifs at hok ⊢ <;>
      first | exact ⟨rfl, rfl⟩ | exact absurd rfl hok | exact ⟨by simp [content], rfl⟩
  | name acc =>
    simp only [advance, hb, not_true_eq_false, ↓reduceIte] at hok ⊢
    split_ifs at hok ⊢ with hnl hclose
    · exact absurd rfl hok
    · simp [addsAt, placeOf, hclose] at hadds
    · exact ⟨rfl, rfl⟩
  | key acc =>
    have hopen : opened = sec.isSome := ho rfl
    simp only [advance, advanceKey, hb, not_true_eq_false, ↓reduceIte] at hok ⊢
    split_ifs at hok ⊢ with hnl hbad heq
    · exact absurd rfl hok
    · exact absurd rfl hok
    · cases sec with
      | none => exact ⟨rfl, rfl⟩
      | some sec => simp [addsAt, placeOf, heq, hopen] at hadds
    · exact ⟨rfl, rfl⟩
  | skip key =>
    cases sec with
    | none =>
      simp only [advance, advanceValue, hb, not_true_eq_false, ↓reduceIte]
      split_ifs <;> exact ⟨rfl, rfl⟩
    | some sec => cases hp
  | value key acc =>
    cases sec with
    | none =>
      simp only [advance, advanceValue, hb, not_true_eq_false, ↓reduceIte]
      split_ifs <;> exact ⟨rfl, rfl⟩
    | some sec => cases hp
  | escape key acc =>
    cases sec with
    | none =>
      simp only [advance]
      split_ifs <;> exact ⟨rfl, rfl⟩
    | some sec => cases hp
  | stopped => exact absurd rfl hl
  | failed => exact absurd rfl hok

section Runs
variable {c : Context} {s : Scan}

theorem advance_ok_of_run {b : UInt8} {text : Text} (h : (run s (b :: text)).mode ≠ .failed) :
    (advance s b).mode ≠ .failed := by
  intro hf
  apply h
  rw [run_cons]
  generalize advance s b = s' at hf
  obtain ⟨sections, sec, mode⟩ := s'
  simp only at hf
  rw [hf, run_failed]

theorem fits_run (h : Fits c s) {text : Text} (ht : ∀ b ∈ text, b < 128) :
    Fits (text.foldl Context.next c) (run s text) := by
  induction text generalizing c s with
  | nil => exact h
  | cons b text ih => exact ih (h.next (.inl (ht b (by simp)))) fun d hd => ht d (by simp [hd])

theorem weight_run (h : Fits c s) (hsep : Separate s) {text : Text} (ht : ∀ b ∈ text, b < 128)
    (hok : (run s text).mode ≠ .failed) : weight (run s text) = weight s + additions c text := by
  induction text generalizing c s with
  | nil => rfl
  | cons b text ih =>
    have hb := ht b (by simp)
    have hstep := weight_advance h hsep hb (advance_ok_of_run hok)
    have htail := ih (h.next (.inl hb)) (hsep.next b) (fun d hd => ht d (by simp [hd])) hok
    rw [run_cons, htail, hstep, additions]
    omega

theorem content_run (h : Fits c s) {text : Text} (ht : ∀ b ∈ text, b < 128)
    (hok : (run s text).mode ≠ .failed) (hadds : additions c text = 0) (hp : pending s = 0) :
    content (run s text) = content s ∧ pending (run s text) = 0 := by
  induction text generalizing c s with
  | nil => exact ⟨rfl, hp⟩
  | cons b text ih =>
    have hb := ht b (by simp)
    obtain ⟨hfirst, hrest⟩ : addsAt c b = false ∧ additions (c.next b) text = 0 := by
      simpa [additions] using hadds
    obtain ⟨hc, hp'⟩ := content_advance h hb (advance_ok_of_run hok) hfirst hp
    have htail := ih (h.next (.inl hb)) (fun d hd => ht d (by simp [hd])) hok hrest hp'
    rw [hc] at htail
    exact htail

theorem outcome_complete (h : Fits c s) : (outcome s).1 = complete c.place := by
  rw [← h.place]
  obtain ⟨sections, sec, mode⟩ := s
  cases mode with
  | line comment => cases comment <;> rfl
  | stopped => exact absurd rfl h.live
  | _ => rfl

theorem outcome_ok (h : (outcome s).1 = true) : s.mode ≠ .failed := by
  intro hf
  obtain ⟨sections, sec, mode⟩ := s
  simp only at hf
  subst hf
  cases h

theorem outcome_weight (h : (outcome s).1 = true) : sizeOfSections (outcome s).2 = weight s := by
  obtain ⟨sections, sec, mode⟩ := s
  cases mode with
  | skip key => exact weight_close sections sec (.skip key) key [] (.inl rfl)
  | value key acc =>
    exact weight_close sections sec (.value key acc) key acc (.inr (.inl rfl))
  | escape key acc =>
    exact weight_close sections sec (.escape key acc) key (acc ++ [bs, 255]) (.inr (.inr rfl))
  | line _ => rfl
  | stopped => rfl
  | name _ => cases h
  | key _ => cases h
  | failed => cases h

theorem outcome_content (h : (outcome s).1 = true) (hp : pending s = 0) :
    (outcome s).2 = content s := by
  obtain ⟨sections, sec, mode⟩ := s
  cases mode with
  | skip _ =>
    cases sec with
    | none => rfl
    | some _ => cases hp
  | value _ _ =>
    cases sec with
    | none => rfl
    | some _ => cases hp
  | escape _ _ =>
    cases sec with
    | none => rfl
    | some _ => cases hp
  | line _ => rfl
  | stopped => rfl
  | name _ => cases h
  | key _ => cases h
  | failed => cases h

end Runs

/-- A byte without a meaning in the syntax. -/
structure Letter (b : UInt8) : Prop where
  space : space b = false
  nl : b ≠ nl
  bs : b ≠ bs
  mark : ¬ (b = byte ';' ∨ b = byte '#')
  opening : b ≠ byte '['
  closing : b ≠ byte ']'
  equals : b ≠ byte '='

theorem letter_x : Letter (byte 'x') := by
  constructor <;> decide

theorem letter_high {b : UInt8} (h : ¬ b < 128) : Letter b := by
  have hne {v : UInt8} (hv : v < 128) : b ≠ v := by
    rintro rfl
    exact h hv
  refine ⟨space_of_not_lt h, hne (by decide), hne (by decide), ?_, hne (by decide),
    hne (by decide), hne (by decide)⟩
  exact not_or.mpr ⟨hne (by decide), hne (by decide)⟩

/-- All letters lead to the same place and none of them adds anything. -/
theorem next_letter {a b : UInt8} (ha : Letter a) (hb : Letter b) (c : Context) :
    c.next a = c.next b := by
  obtain ⟨place, opened⟩ := c
  cases place <;>
    simp [Context.next, ha.space, hb.space, ha.nl, hb.nl, ha.bs, hb.bs, ha.mark, hb.mark,
      ha.opening, hb.opening, ha.closing, hb.closing, ha.equals, hb.equals]

theorem addsAt_letter {b : UInt8} (hb : Letter b) (c : Context) : addsAt c b = false := by
  obtain ⟨place, opened⟩ := c
  cases place <;> simp [addsAt, hb.closing, hb.equals]

theorem next_lower (c : Context) (b : UInt8) : c.next (lower b) = c.next b := by
  by_cases hb : b < 128
  · rw [lower_of_lt hb]
  · rw [lower, if_neg hb]
    exact next_letter letter_x (letter_high hb) c

theorem addsAt_lower (c : Context) (b : UInt8) : addsAt c (lower b) = addsAt c b := by
  by_cases hb : b < 128
  · rw [lower_of_lt hb]
  · rw [lower, if_neg hb, addsAt_letter letter_x, addsAt_letter (letter_high hb)]

theorem additions_lower (c : Context) (text : Text) :
    additions c (lowerText text) = additions c text := by
  induction text generalizing c with
  | nil => rfl
  | cons b text ih =>
    change (addsAt c (lower b)).toNat + additions (c.next (lower b)) (lowerText text) = _
    rw [addsAt_lower, next_lower, ih]
    rfl

theorem lowerText_lt (text : Text) : ∀ b ∈ lowerText text, b < 128 := by
  intro b hb
  obtain ⟨d, _, rfl⟩ := List.mem_map.mp hb
  unfold lower
  split
  · assumption
  · decide

theorem fits_lower {c : Context} {s : Scan} (h : Fits c s) : Fits c (lowerScan s) := by
  obtain ⟨sections, sec, mode⟩ := s
  obtain ⟨hp, hl, ho⟩ := h
  refine ⟨?_, ?_, ?_⟩
  · rw [← hp]
    cases mode with
    | line comment => cases comment <;> rfl
    | _ => rfl
  · intro hm
    apply hl
    cases mode <;> simp [lowerScan, lowerMode] at hm ⊢
  · intro hin
    rw [ho hin]
    simp [lowerScan]

theorem foldl_next_lower (c : Context) (text : Text) :
    (lowerText text).foldl Context.next c = text.foldl Context.next c := by
  induction text generalizing c with
  | nil => rfl
  | cons b text ih =>
    change (lowerText text).foldl Context.next (c.next (lower b)) = _
    rw [next_lower, ih]
    rfl

/-- The image of a text is read as the syntax says, from any place on. -/
theorem fits_image {c : Context} {s : Scan} (h : Fits c s) (text : Text) :
    Fits (text.foldl Context.next c) (run (lowerScan s) (lowerText text)) := by
  rw [← foldl_next_lower]
  exact fits_run (fits_lower h) (lowerText_lt text)

theorem Separate.lower {s : Scan} (h : Separate s) : Separate (lowerScan s) := by
  obtain ⟨sections, sec, mode⟩ := s
  have hnone (hsec : sec = none) : Separate (lowerScan ⟨sections, sec, mode⟩) :=
    separate_of_none (by simp [lowerScan, hsec])
  cases mode with
  | name acc => exact hnone (h.name acc rfl)
  | failed => exact hnone (h.failed rfl)
  | line comment => exact separate_of_inSection (by cases comment <;> rfl)
  | stopped => constructor <;> simp [lowerScan, lowerMode]
  | _ => exact separate_of_inSection rfl

theorem run_separate {s : Scan} (h : Separate s) (text : Text) : Separate (run s text) := by
  induction text generalizing s with
  | nil => exact h
  | cons b text ih => exact ih (h.next b)

theorem content_lower (s : Scan) : content (lowerScan s) = (content s).map lowerSection := by
  obtain ⟨sections, sec, mode⟩ := s
  cases sec <;> simp [content, lowerScan]

theorem line_of_place {c : Context} {s : Scan} (h : Fits c s)
    (hplace : c.place = .line ∨ c.place = .comment) : ∃ comment, s.mode = .line comment := by
  have hp := h.place
  cases hm : s.mode with
  | line comment => exact ⟨comment, rfl⟩
  | stopped => exact absurd hm h.live
  | _ =>
    rw [hm] at hp
    rcases hplace with hc | hc <;> rw [hc] at hp <;> cases hp

theorem stopped_iff {c : Context} {s : Scan} (h : Fits c s) (hsep : Separate s)
    (hplace : c.place = .line ∨ c.place = .comment) {b : UInt8} (hb : ¬ b < 128) (after : Text) :
    outcome (run (lowerScan s) (lowerText (b :: after))) =
      ((outcome (run s (b :: after))).1, (outcome (run s (b :: after))).2.map lowerSection) ↔
    complete ((b :: after).foldl Context.next c).place ∧ additions c (b :: after) = 0 := by
  obtain ⟨comment, hm⟩ := line_of_place h hplace
  have hstop : outcome (run s (b :: after)) = (true, content s) := by
    obtain ⟨sections, sec, mode⟩ := s
    simp only at hm
    subst hm
    rw [run_cons, advance_line_high sections sec comment hb, run_stopped]
    rfl
  have hpending : pending (lowerScan s) = 0 := by
    simp [pending, lowerScan, hm, lowerMode]
  have hascii := lowerText_lt (b :: after)
  rw [hstop, ← additions_lower, ← outcome_complete (fits_image h (b :: after))]
  constructor
  · intro he
    have hok : (outcome (run (lowerScan s) (lowerText (b :: after)))).1 = true := by rw [he]
    refine ⟨hok, ?_⟩
    have hweight := weight_run (fits_lower h) hsep.lower hascii (outcome_ok hok)
    have hsize := outcome_weight hok
    have hsections : (outcome (run (lowerScan s) (lowerText (b :: after)))).2 =
        (content s).map lowerSection := by rw [he]
    rw [hsections, hweight, weight, hpending, content_lower] at hsize
    omega
  · rintro ⟨hok, hadds⟩
    obtain ⟨hcontent, hp⟩ := content_run (fits_lower h) hascii (outcome_ok hok) hadds hpending
    refine Prod.ext hok ?_
    rw [outcome_content hok hp, hcontent, content_lower]

end Pathcomp.Additions
