import Pathcomp.Iteration
import Mathlib.Data.List.GetD

set_option autoImplicit false

/-!
# Adding alternatives in the middle of an iteration

A combination is the sequence of current positions, zero beyond the last
attribute, so that it keeps its meaning when attributes are created later.
Adding leaves the current combination alone and only enlarges the box, and
every successful `pathcomp_next` goes up in an order that does not depend on
the box.
-/
namespace Pathcomp.Growth
open Bytes Config Values Attributes Composers Purity Odometer Wheels Reachability Iteration

def combination (c : Composer) : ℕ → ℕ := digits (positions c.attributes)

def Present (c : Composer) (v : ℕ → ℕ) : Prop := InBox (radices c.attributes) v

/-- Runs of `pathcomp_next`, `pathcomp_add` and `pathcomp_add_int` in any order,
    in which every `pathcomp_next` returns 1, with the combinations that are
    current after each of these. -/
inductive Growing : Composer → List (ℕ → ℕ) → Composer → Prop where
  | refl (c : Composer) : Growing c [] c
  | next {c d e : Composer} {vs : List (ℕ → ℕ)} (h : pathcompNext c = (true, d))
      (tail : Growing d vs e) : Growing c (combination d :: vs) e
  | add {c d e : Composer} {vs : List (ℕ → ℕ)} {name value : Text}
      (h : pathcompAdd c name value = .ok d) (tail : Growing d vs e) : Growing c vs e
  | addInt {c d e : Composer} {vs : List (ℕ → ℕ)} {name : Text} {value : Int32}
      (h : pathcompAddInt c name value = .ok d) (tail : Growing d vs e) : Growing c vs e

/-- What adding an alternative does to the iteration. -/
structure Grows (c d : Composer) : Prop where
  combination : combination d = combination c
  present : ∀ v, Present c v → Present d v
  done : d.done = c.done

theorem digits_concat_zero (cs : List ℕ) : digits (cs ++ [0]) = digits cs := by
  funext i
  unfold digits
  rcases Nat.lt_trichotomy i cs.length with h | h | h
  · rw [List.getD_append _ _ _ _ h]
  · subst h
    simp
  · rw [List.getD_eq_default _ _ (by simp; omega), List.getD_eq_default _ _ (by omega)]

theorem inBox_concat_one {ns : List ℕ} {v : ℕ → ℕ} (h : InBox ns v) :
    InBox (ns ++ [1]) v := by
  intro i
  have hi := h i
  rcases Nat.lt_trichotomy i ns.length with hlt | heq | hgt
  · rwa [List.getD_append _ _ _ _ hlt]
  · subst heq
    simpa using hi
  · rw [List.getD_eq_default _ _ (by omega)] at hi
    rwa [List.getD_eq_default _ _ (by simp; omega)]

theorem inBox_modifyFirst {p : Att → Bool} {f : Att → Att}
    (hf : ∀ att : Att, att.alternatives.length ≤ (f att).alternatives.length) {atts : List Att}
    {v : ℕ → ℕ} (h : InBox (radices atts) v) : InBox (radices (modifyFirst p f atts)) v := by
  induction atts generalizing v with
  | nil => exact h
  | cons att atts ih =>
    intro i
    unfold modifyFirst
    split
    · cases i with
      | zero => exact Nat.lt_of_lt_of_le (h 0) (hf att)
      | succ i => exact h (i + 1)
    · cases i with
      | zero => exact h 0
      | succ i => exact ih h.shift i

theorem attAddValue_current (att : Att) (value : Value) :
    (attAddValue att value).current = att.current := by
  unfold attAddValue
  split <;> rfl

theorem attAddValue_length (att : Att) (value : Value) :
    att.alternatives.length ≤ (attAddValue att value).alternatives.length := by
  unfold attAddValue
  split
  · rfl
  · rename_i he
    simp [he, listPush]

theorem grows_push (c : Composer) (name : Text) (value : Value) (origin : Option Text) :
    Grows c { c with attributes := listPush c.attributes (attNew name value origin) } := by
  refine ⟨?_, ?_, rfl⟩
  · simp only [combination, listPush, positions, List.map_append]
    exact digits_concat_zero _
  · intro v hv
    simp only [Present, listPush, radices, List.map_append]
    exact inBox_concat_one hv

theorem grows_addValue (c : Composer) (name : Text) (value : Value) :
    Grows c (c.onAtt name fun att => attAddValue att value) := by
  refine ⟨?_, ?_, rfl⟩
  · simp only [combination, positions, Composer.onAtt]
    rw [map_modifyFirst _ _ _ (fun att => by rw [attAddValue_current])]
  · intro v hv
    exact inBox_modifyFirst (fun att => attAddValue_length att value) hv

theorem addOrReplace_grows {c d : Composer} {name : Text} {value : Value} {origin : Option Text}
    (h : pathcompAddOrReplace c name value origin .add = .ok d) : Grows c d := by
  unfold pathcompAddOrReplace at h
  split at h
  · cases h
    exact grows_push c name value origin
  · cases h
    exact grows_addValue c name value

theorem pathcompNext_combination {c d : Composer} (hr : Representation c) (hd : c.done = false)
    (h : pathcompNext c = (true, d)) :
    (tick (radices c.attributes) (positions c.attributes)).1 = true ∧ d.done = false ∧
      combination d = digits (tick (radices c.attributes) (positions c.attributes)).2 ∧
      ∀ v, Present c v → Present d v := by
  rw [pathcompNext_tick hr hd] at h
  simp only [Prod.mk.injEq] at h
  obtain ⟨ht, rfl⟩ := h
  refine ⟨ht, by simp [ht], ?_, ?_⟩
  · simp only [combination]
    rw [positions_setPositions (tick_length hr.atts)]
  · intro v hv
    simp only [Present]
    rw [radices_setPositions (tick_length hr.atts)]
    exact hv

theorem Growing.visits {c e : Composer} {vs : List (ℕ → ℕ)} (h : Growing c vs e)
    (hr : Representation c) (hd : c.done = false) :
    (combination c :: vs).Pairwise Below ∧ Representation e ∧ e.done = false ∧
      ∀ v, Present c v → Present e v ∧
        (v = combination e ∨ Below v (combination e) →
          Below v (combination c) ∨ v ∈ combination c :: vs) := by
  induction h with
  | refl c =>
    refine ⟨by simp, hr, hd, fun v hv => ⟨hv, ?_⟩⟩
    rintro (he | hb)
    · exact .inr (by simp [he])
    · exact .inl hb
  | @next c d e vs h _ ih =>
    obtain ⟨ht, hdd, hcd, hp⟩ := pathcompNext_combination hr hd h
    have hrd : Representation d := by
      have := pathcompNext_representation hr
      rwa [h] at this
    have hw := positions_within hr.atts
    have hup : Below (combination c) (combination d) := hcd ▸ tick_below hw ht
    obtain ⟨hpair, hre, hde, hcov⟩ := ih hrd hdd
    refine ⟨?_, hre, hde, ?_⟩
    · refine List.pairwise_cons.mpr ⟨?_, hpair⟩
      intro u hu
      rcases List.mem_cons.mp hu with rfl | hu
      · exact hup
      · exact hup.trans ((List.pairwise_cons.mp hpair).1 u hu)
    · intro v hv
      obtain ⟨hve, hlow⟩ := hcov v (hp v hv)
      refine ⟨hve, fun hle => ?_⟩
      rcases hlow hle with hb | hm
      · rcases inBox_tick hw ht hv (hcd ▸ hb) with he | hb'
        · exact .inr (by simp [he, combination])
        · exact .inl hb'
      · exact .inr (List.mem_cons_of_mem _ hm)
  | add h _ ih | addInt h _ ih =>
    have hg := addOrReplace_grows h
    obtain ⟨hpair, hre, hde, hcov⟩ := ih (addOrReplace_representation hr h) (hg.done.trans hd)
    rw [hg.combination] at hpair hcov
    exact ⟨hpair, hre, hde, fun v hv => hcov v (hg.present v hv)⟩

/-- Alternatives may be added to existing or new attributes at any point of an
    iteration from the first combination on: no combination is visited twice, and
    once `pathcomp_next` returns 0 every combination that was there at the start
    has been visited. -/
theorem growing_iteration (config : Option Cf) (c e : Composer) (vs : List (ℕ → ℕ))
    (hc : Reachable config c) (hd : c.done = false) (hf : ∀ att ∈ c.attributes, att.AtFirst)
    (hrun : Growing c vs e) :
    (combination c :: vs).Nodup ∧
      ((pathcompNext e).1 = false → ∀ v, Present c v → v ∈ combination c :: vs) := by
  have hr := hc.representation
  obtain ⟨hpair, hre, hde, hcov⟩ := hrun.visits hr hd
  constructor
  · apply hpair.imp
    intro u v huv he
    exact below_irrefl u (he ▸ huv)
  · intro hend v hv
    obtain ⟨hve, hlow⟩ := hcov v hv
    have ht : (tick (radices e.attributes) (positions e.attributes)).1 = false := by
      rwa [pathcompNext_tick hre hde] at hend
    rcases hlow (inBox_last (positions_within hre.atts) ht hve) with hb | hm
    · obtain ⟨i, hi, _⟩ := hb
      rw [combination, positions_of_atFirst hr.atts hf, digits_zero] at hi
      exact absurd hi (Nat.not_lt_zero _)
    · exact hm

/-- With a third root added after the first step there are six combinations. -/
theorem growing_iteration_colormap :
    ∃ vs e, Growing colormapComposer vs e ∧ vs.length = 5 ∧ (pathcompNext e).1 = false ∧
      (combination colormapComposer :: vs).Nodup ∧
      ∀ v, Present colormapComposer v → v ∈ combination colormapComposer :: vs := by
  have hrun := Growing.next (c := colormapComposer) rfl
    (@Growing.add _ _ _ _ (ascii "root") (ascii "/srv") rfl
      (.next rfl (.next rfl (.next rfl (.next rfl (.refl _))))))
  obtain ⟨hn, hall⟩ := growing_iteration _ _ _ _ colormap_reachable rfl (by decide) hrun
  exact ⟨_, _, hrun, rfl, rfl, hn, hall rfl⟩

end Pathcomp.Growth
