import Pathcomp.Additions

set_option autoImplicit false

/-!
# Two texts in a row

At the end of a line the parser knows nothing but the finished sections and the
open one. A header finishes the open section in the same way as the end of a
text does, so that a text that starts with a header may be added on its own.
-/
namespace Pathcomp.Concatenation
open Bytes Buffer Config Scanner HighBytes Additions

/-- The text ends with a newline that ends a line: it is not the second byte of
    a backslash pair inside a value. -/
def EndsLine (text : Text) : Prop :=
  text = [] ∨ ∃ front, text = front ++ [nl] ∧ (context front).place ≠ .escape

def firstSignificant (comment : Bool) : Text → Option UInt8
  | [] => none
  | b :: text =>
    if b = nl then firstSignificant false text
    else if comment || space b then firstSignificant comment text
    else if b = byte ';' ∨ b = byte '#' then firstSignificant true text
    else some b

theorem context_concat (front : Text) (b : UInt8) :
    context (front ++ [b]) = (context front).next b := by
  simp [context]

theorem next_nl {c : Context} (h : c.place ≠ .escape) :
    (c.next nl).place = .line ∨ (c.next nl).place = .ended := by
  have hspace : ¬ (space nl = true ∧ nl ≠ nl) := fun h => h.2 rfl
  obtain ⟨place, opened⟩ := c
  cases place with
  | line => exact .inl rfl
  | comment => exact .inl rfl
  | name => exact .inr rfl
  | key => exact .inr rfl
  | skip => exact .inl rfl
  | value => exact .inl rfl
  | escape => exact absurd rfl h
  | ended => exact .inr rfl

theorem endsLine_place {text : Text} (h : EndsLine text) :
    (context text).place = .line ∨ (context text).place = .ended := by
  rcases h with rfl | ⟨front, rfl, hfront⟩
  · exact .inl rfl
  · rw [context_concat]
    exact next_nl hfront

theorem line_of_placeOf {mode : Mode} (h : placeOf mode = .line) : mode = .line false := by
  cases mode with
  | line comment => cases comment <;> first | rfl | cases h
  | _ => cases h

theorem run_endsLine {text : Text} (hascii : ∀ b ∈ text, b < 128) (hends : EndsLine text)
    (hok : (scan [] text).1 = true) :
    ∃ sections sec, run (start []) text = ⟨sections, sec, .line false⟩ := by
  have hfits : Fits (context text) (run (start []) text) := fits_run fits_start hascii
  have hplace : (context text).place = .line := by
    rcases endsLine_place hends with hp | hp
    · exact hp
    · have hcomplete := outcome_complete hfits
      rw [hp] at hcomplete
      exact absurd (hcomplete.symm.trans hok) Bool.false_ne_true
  have hmode := line_of_placeOf (hfits.place.trans hplace)
  refine ⟨(run (start []) text).sections, (run (start []) text).sec, ?_⟩
  rw [← hmode]

theorem run_firstSignificant {comment : Bool} {text : Text} (hascii : ∀ b ∈ text, b < 128)
    (h : firstSignificant comment text = some (byte '[')) :
    ∃ rest, ∀ sections sec, run ⟨sections, sec, .line comment⟩ text =
      run ⟨sections ++ sec.toList, none, .name []⟩ rest := by
  induction text generalizing comment with
  | nil => cases h
  | cons b text ih =>
    have hb : ¬ ¬ b < 128 := not_not.mpr (hascii b (by simp))
    have ih := fun {comment} => @ih comment fun d hd => hascii d (by simp [hd])
    rw [firstSignificant] at h
    simp only [run_cons, advance, advanceLine, if_neg hb]
    by_cases hnl : b = nl
    · simp only [if_pos hnl] at h ⊢
      exact ih h
    simp only [if_neg hnl] at h ⊢
    by_cases hblank : (comment || space b) = true
    · simp only [if_pos hblank] at h ⊢
      exact ih h
    simp only [if_neg hblank] at h ⊢
    by_cases hmark : b = byte ';' ∨ b = byte '#'
    · simp only [if_pos hmark] at h ⊢
      exact ih h
    · simp only [if_neg hmark] at h ⊢
      obtain rfl : b = byte '[' := Option.some.inj h
      exact ⟨text, fun _ _ => rfl⟩

/-- Adding an accepted text that ends a line and then a text that starts with a
    header gives what adding both at once gives. -/
theorem add_concatenation (cf cf' : Cf) (s1 s2 : Text) (fuel : ℕ)
    (hascii : ∀ b ∈ s1 ++ s2, b < 128) (hfuel : (s1 ++ s2).length < fuel)
    (hends : EndsLine s1) (hfirst : firstSignificant false s2 = some (byte '['))
    (hfst : cfAddFromString fuel cf s1 = .ok (true, cf')) :
    ∃ rc cf'', cfAddFromString fuel cf' s2 = .ok (rc, cf'') ∧
      cfAddFromString fuel cf (s1 ++ s2) = .ok (rc, cf'') := by
  rw [List.length_append] at hfuel
  have hascii1 : ∀ b ∈ s1, b < 128 := fun b hb => hascii b (List.mem_append_left _ hb)
  have hascii2 : ∀ b ∈ s2, b < 128 := fun b hb => hascii b (List.mem_append_right _ hb)
  rw [cfAddFromString_scan cf (by omega), scan_append] at hfst
  simp only [Except.ok.injEq, Prod.mk.injEq] at hfst
  obtain ⟨hok, rfl⟩ := hfst
  obtain ⟨sections, sec, hrun⟩ := run_endsLine hascii1 hends hok
  obtain ⟨rest, hrest⟩ := run_firstSignificant hascii2 hfirst
  have hone : (scan [] s1).2 = sections ++ sec.toList := by
    unfold scan
    rw [hrun]
    rfl
  have hboth : scan cf.sections (s1 ++ s2) = scan (cf.sections ++ (scan [] s1).2) s2 := by
    have hafter : run (start cf.sections) s1 = ⟨cf.sections ++ sections, sec, .line false⟩ := by
      have hstart : start cf.sections = (start []).after cf.sections := by
        simp [start, Scan.after]
      rw [hstart, run_after, hrun]
      rfl
    unfold scan at hone ⊢
    rw [run_append, hafter, hrest, hone, start, hrest, List.append_assoc]
    simp
  refine ⟨_, _, cfAddFromString_scan _ (by omega), ?_⟩
  rw [cfAddFromString_scan cf (by rw [List.length_append]; omega), hboth]

def inkText : Text := ascii "[ink]\nhue = dark\\\n blue\n"

def inkTail : Text := ascii "; more\n [paper]\nsize = a4\n[glue]\n="

def inkSection : CfSection := ⟨ascii "ink", [⟨ascii "hue", ascii "dark blue"⟩]⟩

def paperSection : CfSection := ⟨ascii "paper", [⟨ascii "size", ascii "a4"⟩]⟩

/-- The second text is refused at its last line. -/
theorem add_concatenation_ink :
    EndsLine inkText ∧ firstSignificant false inkTail = some (byte '[') ∧
    ∃ rc cf'', rc = false ∧ cf'' = ⟨[inkSection, paperSection]⟩ ∧
      cfAddFromString 80 ⟨[inkSection]⟩ inkTail = .ok (rc, cf'') ∧
      cfAddFromString 80 ⟨[]⟩ (inkText ++ inkTail) = .ok (rc, cf'') := by
  have hends : EndsLine inkText :=
    .inr ⟨ascii "[ink]\nhue = dark\\\n blue", by rfl, by decide⟩
  obtain ⟨rc, cf'', htail, hboth⟩ :=
    add_concatenation ⟨[]⟩ ⟨[inkSection]⟩ inkText inkTail 80
    (by decide) (by decide) hends (by decide) (by rfl)
  have hrefused : cfAddFromString 80 ⟨[inkSection]⟩ inkTail =
      .ok (false, ⟨[inkSection, paperSection]⟩) := by rfl
  rw [hrefused] at htail
  cases htail
  exact ⟨hends, by decide, false, _, rfl, rfl, hrefused, hboth⟩

end Pathcomp.Concatenation
