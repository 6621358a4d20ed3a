import Pathcomp.Reachability

set_option autoImplicit false

/-!
# The iterator visits every combination exactly once

`after k c` is the composer after `k` successive calls of `pathcomp_next`.
Until the last combination each call raises the index of the combination by
one; the call after the last combination rewinds everything.
-/
namespace Pathcomp.Iteration
open Bytes Config Values Attributes Composers Odometer Wheels Reachability

def after : ℕ → Composer → Composer
  | 0, c => c
  | k + 1, c => (pathcompNext (after k c)).2

def combinationCount (c : Composer) : ℕ := (radices c.attributes).prod

/-- The sum over the attributes of the current position times the product of the
    numbers of alternatives of the attributes before it. -/
def combinationIndex (c : Composer) : ℕ :=
  ∑ i ∈ Finset.range c.attributes.length,
    (positions c.attributes).getD i 0 * ((radices c.attributes).take i).prod

/-- A composer as `pathcomp_new` or `pathcomp_rewind` leaves it. -/
def Fresh (config : Option Cf) (c : Composer) : Prop :=
  (∃ depth name, pathcompNew config depth name = .ok c) ∨
    ∃ d, Reachable config d ∧ c = pathcompRewind d

def moveTo (c : Composer) (ps : List ℕ) : Composer :=
  { c with attributes := setPositions c.attributes ps }

theorem combinationIndex_eq (c : Composer) :
    combinationIndex c = value (radices c.attributes) (positions c.attributes) := by
  rw [value_eq_sum (by simp), positions_length]
  rfl

theorem moveTo_positions {c : Composer} {ps : List ℕ} (h : Within (radices c.attributes) ps) :
    positions (moveTo c ps).attributes = ps :=
  positions_setPositions (by rw [h.length_eq, radices_length])

theorem moveTo_radices {c : Composer} {ps : List ℕ} (h : Within (radices c.attributes) ps) :
    radices (moveTo c ps).attributes = radices c.attributes :=
  radices_setPositions (by rw [h.length_eq, radices_length])

theorem moveTo_representation {c : Composer} {ps : List ℕ} (hr : Representation c)
    (hd : c.done = false) (h : Within (radices c.attributes) ps) :
    Representation (moveTo c ps) := by
  refine ⟨?_, setPositions_valid h, fun hf => by simp [moveTo, hd] at hf⟩
  simp only [moveTo]
  rw [setPositions_keeps Att.name (fun _ _ => rfl) (by rw [h.length_eq, radices_length])]
  exact hr.names

theorem moveTo_self {c : Composer} (h : Representation c) :
    moveTo c (positions c.attributes) = c := by
  rw [moveTo, setPositions_positions h.atts]

theorem moveTo_moveTo {c : Composer} {ps qs : List ℕ} (hp : Within (radices c.attributes) ps)
    (hq : Within (radices c.attributes) qs) : moveTo (moveTo c ps) qs = moveTo c qs := by
  have hp' : ps.length = c.attributes.length := by rw [hp.length_eq, radices_length]
  have hq' : qs.length = c.attributes.length := by rw [hq.length_eq, radices_length]
  simp [moveTo, setPositions_setPositions hp' hq']

theorem pathcompNext_moveTo {c : Composer} {ps : List ℕ} (hr : Representation c)
    (hd : c.done = false) (h : Within (radices c.attributes) ps) :
    pathcompNext (moveTo c ps) =
      let t := tick (radices c.attributes) ps
      (t.1, { moveTo c t.2 with done := !t.1 }) := by
  have hm := moveTo_moveTo h (tick_within h)
  rw [pathcompNext_tick (moveTo_representation hr hd h) (by exact hd), moveTo_radices h,
    moveTo_positions h]
  simp only [Prod.mk.injEq, true_and]
  rw [← hm]
  rfl

/-- While combinations are left, `k` calls move the index by `k` and change
    nothing but the current positions. -/
theorem after_moveTo {c : Composer} (hr : Representation c) (hd : c.done = false) {k : ℕ}
    (hk : k < combinationCount c - combinationIndex c) :
    ∃ ps, Within (radices c.attributes) ps ∧
      value (radices c.attributes) ps = combinationIndex c + k ∧ after k c = moveTo c ps := by
  induction k with
  | zero =>
    exact ⟨positions c.attributes, positions_within hr.atts, (combinationIndex_eq c).symm,
      (moveTo_self hr).symm⟩
  | succ k ih =>
    obtain ⟨ps, hw, hv, ha⟩ := ih (by omega)
    have ht : (tick (radices c.attributes) ps).1 = true := by
      rw [tick_iff hw]
      simp only [combinationCount] at hk
      omega
    refine ⟨_, tick_within hw, ?_, ?_⟩
    · rw [tick_value hw ht, hv, Nat.add_assoc]
    · simp only [after]
      rw [ha, pathcompNext_moveTo hr hd hw]
      simp [ht, moveTo, hd]

theorem after_index {c : Composer} (hr : Representation c) (hd : c.done = false) {k : ℕ}
    (hk : k < combinationCount c - combinationIndex c) :
    combinationIndex (after k c) = combinationIndex c + k := by
  obtain ⟨ps, hw, hv, ha⟩ := after_moveTo hr hd hk
  rw [ha, combinationIndex_eq, moveTo_radices hw, moveTo_positions hw, hv]

theorem combinationIndex_lt {c : Composer} (hr : Representation c) :
    combinationIndex c < combinationCount c := by
  rw [combinationIndex_eq]
  exact value_lt (positions_within hr.atts)

theorem next_before_last {c : Composer} (hr : Representation c) (hd : c.done = false) {k : ℕ}
    (hk : k + 1 < combinationCount c - combinationIndex c) :
    (pathcompNext (after k c)).1 = true := by
  obtain ⟨ps, hw, hv, ha⟩ := after_moveTo hr hd (k := k) (by omega)
  rw [ha, pathcompNext_moveTo hr hd hw]
  simp only [tick_iff hw]
  simp only [combinationCount] at hk
  omega

theorem next_after_last {c : Composer} (hr : Representation c) (hd : c.done = false) {k : ℕ}
    (hk : k + 1 = combinationCount c - combinationIndex c) :
    pathcompNext (after k c) =
      (false, { moveTo c (.replicate (radices c.attributes).length 0) with done := true }) := by
  obtain ⟨ps, hw, hv, ha⟩ := after_moveTo hr hd (k := k) (by omega)
  have ht : (tick (radices c.attributes) ps).1 = false := by
    by_contra hf
    have := (tick_iff hw).mp (by simpa using hf)
    simp only [combinationCount] at hk
    omega
  rw [ha, pathcompNext_moveTo hr hd hw]
  simp only [ht, (tick_last hw ht).2, Bool.not_false]

theorem next_when_done {c : Composer} (h : c.done = true) : pathcompNext c = (false, c) := by
  simp [pathcompNext, h]

theorem after_done {c : Composer} (h : c.done = true) (k : ℕ) : after k c = c := by
  induction k with
  | zero => rfl
  | succ k ih => rw [after, ih, next_when_done h]

theorem after_add (j k : ℕ) (c : Composer) : after (j + k) c = after k (after j c) := by
  induction k with
  | zero => rfl
  | succ k ih => rw [← Nat.add_assoc, after, ih, after]

theorem addOrReplace_atFirst {c d : Composer} {name : Text} {v : Value} {origin : Option Text}
    {action : Action} (hr : Representation c) (hf : ∀ att ∈ c.attributes, att.AtFirst)
    (h : pathcompAddOrReplace c name v origin action = .ok d) :
    ∀ att ∈ d.attributes, att.AtFirst := by
  -- being rewound is the part of the invariant that a finished iteration has
  have hr' : Representation { c with done := true } := ⟨hr.names, hr.atts, fun _ => hf⟩
  rcases addOrReplace_cases c name v origin action with ⟨hn, he⟩ | he | he | he
  all_goals
    rw [he] at h
    cases h
  · exact (hr'.push hn v origin).done rfl
  · exact (hr'.onAtt name (f := fun att => attReplaceValue att v origin) (fun _ => rfl)
        (fun att _ => attReplaceValue_valid att v origin)
        (fun _ _ _ => rfl)).done rfl
  · exact (hr'.onAtt name (f := fun att => attAddValue att v) (fun att => attAddValue_name att v)
        (fun _ ha => attAddValue_valid ha v)
        (fun _ ha hf => attAddValue_atFirst ha.nonempty hf v)).done rfl
  · exact hf

theorem pathcompNew_atFirst {config : Option Cf} {depth : ℕ} {name : Text} {c : Composer}
    (h : pathcompNew config depth name = .ok c) :
    c.done = false ∧ ∀ att ∈ c.attributes, att.AtFirst := by
  unfold pathcompNew at h
  simp only at h
  split at h
  · cases h
  · rename_i d hd
    have hp : Representation d ∧ ∀ att ∈ d.attributes, att.AtFirst :=
      addAttsFromSections_keeps
        (P := fun d => Representation d ∧ ∀ att ∈ d.attributes, att.AtFirst)
        (fun _ _ _ _ _ hp he =>
          ⟨addOrReplace_representation hp.1 he, addOrReplace_atFirst hp.1 hp.2 he⟩)
        ⟨⟨by simp, by simp [AllValid], by simp⟩, by simp⟩ hd
    cases h
    exact ⟨rfl, hp.2⟩

theorem Fresh.start {config : Option Cf} {c : Composer} (h : Fresh config c) :
    Representation c ∧ c.done = false ∧ ∀ att ∈ c.attributes, att.AtFirst := by
  rcases h with ⟨depth, name, h⟩ | ⟨d, hd, rfl⟩
  · exact ⟨pathcompNew_representation h, pathcompNew_atFirst h⟩
  · refine ⟨pathcompRewind_representation hd.representation, rfl, ?_⟩
    intro att ha
    obtain ⟨a, _, rfl⟩ := List.mem_map.mp ha
    rfl

theorem combinationIndex_fresh {c : Composer} (hr : Representation c)
    (hf : ∀ att ∈ c.attributes, att.AtFirst) : combinationIndex c = 0 := by
  rw [combinationIndex_eq, positions_of_atFirst hr.atts hf]
  exact value_zero _

/-- The combination that stands after `k` calls on a fresh composer has index `k`. -/
theorem after_fresh {c : Composer} (hr : Representation c) (hd : c.done = false)
    (hf : ∀ att ∈ c.attributes, att.AtFirst) {k : ℕ} (hk : k < combinationCount c) :
    Within (radices c.attributes) (positions (after k c).attributes) ∧
      value (radices c.attributes) (positions (after k c).attributes) = k := by
  have h0 := combinationIndex_fresh hr hf
  obtain ⟨ps, hw, hv, ha⟩ := after_moveTo hr hd (k := k) (by omega)
  rw [ha, moveTo_positions hw]
  exact ⟨hw, by omega⟩

end Pathcomp.Iteration
