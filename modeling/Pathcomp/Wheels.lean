import Pathcomp.Composers
import Pathcomp.Odometer

set_option autoImplicit false

/-!
# The attributes of a composer as an odometer

Each attribute is a wheel: its size is the number of alternatives and its digit
the position of the current one. The loop of `pathcomp_next` is a tick.
-/
namespace Pathcomp.Wheels
open Bytes Values Attributes Composers Odometer

def radices (atts : List Att) : List ℕ := atts.map fun att => att.alternatives.length

def positions (atts : List Att) : List ℕ := atts.map fun att => att.current.getD 0

def setPositions : List Att → List ℕ → List Att
  | att :: atts, p :: ps => { att with current := some p } :: setPositions atts ps
  | _, _ => []

def AllValid (atts : List Att) : Prop := ∀ att ∈ atts, att.Valid

theorem AllValid.head {att : Att} {atts : List Att} (h : AllValid (att :: atts)) : att.Valid :=
  h att (by simp)

theorem AllValid.tail {att : Att} {atts : List Att} (h : AllValid (att :: atts)) :
    AllValid atts := fun a ha => h a (by simp [ha])

@[simp] theorem radices_length (atts : List Att) : (radices atts).length = atts.length := by
  simp [radices]

@[simp] theorem positions_length (atts : List Att) : (positions atts).length = atts.length := by
  simp [positions]

theorem positions_within {atts : List Att} (h : AllValid atts) :
    Within (radices atts) (positions atts) := by
  induction atts with
  | nil => trivial
  | cons att atts ih =>
    obtain ⟨p, hp, hc⟩ := h.head
    exact ⟨by simpa [hc] using hp, ih h.tail⟩

theorem setPositions_positions {atts : List Att} (h : AllValid atts) :
    setPositions atts (positions atts) = atts := by
  induction atts with
  | nil => rfl
  | cons att atts ih =>
    obtain ⟨p, _, hc⟩ := h.head
    have ht := ih h.tail
    simp only [positions, List.map_cons, setPositions, hc, Option.getD_some] at ht ⊢
    rw [ht, ← hc]

/-- The loop of `pathcomp_next` moves the current positions by one tick and
    touches nothing else. -/
theorem nextLoop_tick {atts : List Att} (h : AllValid atts) :
    nextLoop atts = ((tick (radices atts) (positions atts)).1,
      setPositions atts (tick (radices atts) (positions atts)).2) := by
  induction atts with
  | nil => rfl
  | cons att atts ih =>
    have hn := h.head.nonempty
    obtain ⟨p, hp, hc⟩ := h.head
    have ht := ih h.tail
    have hs := setPositions_positions h.tail
    by_cases hlt : p + 1 < att.alternatives.length
    · simp [nextLoop, attNext, hc, listNext, hlt, radices, positions, tick, setPositions]
      exact hs.symm
    · simp only [radices, positions] at ht
      simp [nextLoop, attNext, hc, listNext, hlt, radices, positions, tick, setPositions, ht,
        attRewind, listFirst_of_ne hn]

theorem setPositions_valid {atts : List Att} {ps : List ℕ} (h : Within (radices atts) ps) :
    AllValid (setPositions atts ps) := by
  induction atts generalizing ps with
  | nil => intro att ha; cases ps <;> simp [setPositions] at ha
  | cons att atts ih =>
    cases ps with
    | nil => exact h.elim
    | cons p ps =>
      intro a ha
      simp only [setPositions, List.mem_cons] at ha
      rcases ha with rfl | ha
      · exact ⟨p, h.1, rfl⟩
      · exact ih h.2 a ha

theorem setPositions_keeps {β : Type} (f : Att → β)
    (hf : ∀ (att : Att) p, f { att with current := p } = f att) {atts : List Att} {ps : List ℕ}
    (h : ps.length = atts.length) : (setPositions atts ps).map f = atts.map f := by
  induction atts generalizing ps with
  | nil => cases ps <;> rfl
  | cons att atts ih =>
    cases ps with
    | nil => simp at h
    | cons p ps =>
      simp only [List.length_cons, Nat.add_right_cancel_iff] at h
      simp [setPositions, hf, ih h]

theorem radices_setPositions {atts : List Att} {ps : List ℕ} (h : ps.length = atts.length) :
    radices (setPositions atts ps) = radices atts :=
  setPositions_keeps _ (fun _ _ => rfl) h

theorem positions_setPositions {atts : List Att} {ps : List ℕ} (h : ps.length = atts.length) :
    positions (setPositions atts ps) = ps := by
  induction atts generalizing ps with
  | nil => cases ps <;> simp_all [setPositions, positions]
  | cons att atts ih =>
    cases ps with
    | nil => simp at h
    | cons p ps =>
      simp only [List.length_cons, Nat.add_right_cancel_iff] at h
      have ht := ih h
      simp only [positions] at ht
      simp [setPositions, positions, ht]

theorem setPositions_setPositions {atts : List Att} {ps qs : List ℕ}
    (hp : ps.length = atts.length) (hq : qs.length = atts.length) :
    setPositions (setPositions atts ps) qs = setPositions atts qs := by
  induction atts generalizing ps qs with
  | nil => cases ps <;> cases qs <;> rfl
  | cons att atts ih =>
    cases ps with
    | nil => simp at hp
    | cons p ps =>
      cases qs with
      | nil => simp at hq
      | cons q qs =>
        simp only [List.length_cons, Nat.add_right_cancel_iff] at hp hq
        simp [setPositions, ih hp hq]

/-- With every digit zero each attribute stands at its first alternative. -/
theorem setPositions_zero_atFirst {atts : List Att} (h : AllValid atts) :
    ∀ att ∈ setPositions atts (.replicate (radices atts).length 0), att.AtFirst := by
  induction atts with
  | nil => intro att ha; simp [setPositions] at ha
  | cons att atts ih =>
    intro a ha
    simp only [radices, List.map_cons, List.length_cons, List.replicate_succ, setPositions,
      List.mem_cons] at ha
    rcases ha with rfl | ha
    · exact (listFirst_of_ne h.head.nonempty).symm
    · exact ih h.tail a ha

theorem positions_of_atFirst {atts : List Att} (h : AllValid atts)
    (hf : ∀ att ∈ atts, att.AtFirst) :
    positions atts = .replicate (radices atts).length 0 := by
  induction atts with
  | nil => rfl
  | cons att atts ih =>
    have ht := ih h.tail (fun a ha => hf a (by simp [ha]))
    have h0 : att.current = some 0 := (hf att (by simp)).trans (listFirst_of_ne h.head.nonempty)
    simp only [positions, radices, List.map_cons, List.length_cons, List.replicate_succ] at ht ⊢
    rw [ht, h0, Option.getD_some]

end Pathcomp.Wheels
