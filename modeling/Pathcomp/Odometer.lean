import Mathlib.Algebra.BigOperators.Ring.Finset
import Mathlib.Data.List.Basic
import Mathlib.Data.List.Sections
import Mathlib.Data.Multiset.Sections
import Mathlib.Tactic.Common
import Mathlib.Tactic.Ring

set_option autoImplicit false

/-!
# Odometers with wheels of any size

A reading is a list of digits, the first wheel turning fastest. `value` numbers
the readings of a fixed list of wheel sizes; `Below` orders readings without
reference to the sizes, the last wheel being the most significant one.
-/
namespace Pathcomp.Odometer

def Within : List ℕ → List ℕ → Prop
  | [], [] => True
  | n :: ns, c :: cs => c < n ∧ Within ns cs
  | _, _ => False

def value : List ℕ → List ℕ → ℕ
  | n :: ns, c :: cs => c + n * value ns cs
  | _, _ => 0

/-- One turn of the first wheel, with carries; `false` after the last reading. -/
def tick : List ℕ → List ℕ → Bool × List ℕ
  | n :: ns, c :: cs =>
    if c + 1 < n then (true, (c + 1) :: cs) else ((tick ns cs).1, 0 :: (tick ns cs).2)
  | _, _ => (false, [])

theorem Within.length_eq : {ns cs : List ℕ} → Within ns cs → cs.length = ns.length
  | [], [], _ => rfl
  | _ :: _, _ :: _, h => congrArg (· + 1) h.2.length_eq

theorem value_zero (ns : List ℕ) : value ns (.replicate ns.length 0) = 0 := by
  induction ns with
  | nil => rfl
  | cons n ns ih => simp [List.replicate_succ, value, ih]

theorem value_lt {ns cs : List ℕ} (h : Within ns cs) : value ns cs < ns.prod := by
  induction ns generalizing cs with
  | nil =>
    cases cs with
    | nil => simp [value]
    | cons c cs => exact h.elim
  | cons n ns ih =>
    cases cs with
    | nil => exact h.elim
    | cons c cs =>
      have ht := ih h.2
      have hm := Nat.mul_le_mul_left n (Nat.succ_le_of_lt ht)
      have hc := h.1
      simp only [value, List.prod_cons]
      rw [Nat.mul_succ] at hm
      omega

theorem value_injective {ns cs ds : List ℕ} (hc : Within ns cs) (hd : Within ns ds)
    (h : value ns cs = value ns ds) : cs = ds := by
  induction ns generalizing cs ds with
  | nil =>
    cases cs <;> cases ds <;> first | rfl | exact hc.elim | exact hd.elim
  | cons n ns ih =>
    cases cs with
    | nil => exact hc.elim
    | cons c cs =>
      cases ds with
      | nil => exact hd.elim
      | cons d ds =>
        simp only [value] at h
        have hmod : c = d := by
          have hm := congrArg (· % n) h
          simpa [Nat.mod_eq_of_lt hc.1, Nat.mod_eq_of_lt hd.1] using hm
        subst hmod
        have hn : 0 < n := by
          have := hc.1
          omega
        rw [ih hc.2 hd.2 (Nat.eq_of_mul_eq_mul_left hn (by omega))]

theorem tick_within {ns cs : List ℕ} (h : Within ns cs) : Within ns (tick ns cs).2 := by
  induction ns generalizing cs with
  | nil =>
    cases cs with
    | nil => trivial
    | cons c cs => exact h.elim
  | cons n ns ih =>
    cases cs with
    | nil => exact h.elim
    | cons c cs =>
      simp only [tick]
      split
      · rename_i hlt
        exact ⟨hlt, h.2⟩
      · have hc := h.1
        exact ⟨by omega, ih h.2⟩

theorem tick_value {ns cs : List ℕ} (h : Within ns cs) (ht : (tick ns cs).1 = true) :
    value ns (tick ns cs).2 = value ns cs + 1 := by
  induction ns generalizing cs with
  | nil => simp [tick] at ht
  | cons n ns ih =>
    cases cs with
    | nil => exact h.elim
    | cons c cs =>
      by_cases hlt : c + 1 < n
      · simp only [tick, hlt, ↓reduceIte, value]
        omega
      · simp only [tick, hlt, ↓reduceIte] at ht ⊢
        have hc := h.1
        simp only [value, ih h.2 ht, Nat.mul_succ]
        omega

theorem tick_last {ns cs : List ℕ} (h : Within ns cs) (ht : (tick ns cs).1 = false) :
    value ns cs + 1 = ns.prod ∧ (tick ns cs).2 = .replicate ns.length 0 := by
  induction ns generalizing cs with
  | nil => cases cs <;> simp [tick, value]
  | cons n ns ih =>
    cases cs with
    | nil => exact h.elim
    | cons c cs =>
      by_cases hlt : c + 1 < n
      · simp [tick, hlt] at ht
      · simp only [tick, hlt, ↓reduceIte] at ht ⊢
        obtain ⟨hv, hz⟩ := ih h.2 ht
        have hc := h.1
        refine ⟨?_, by simp [hz, List.replicate_succ]⟩
        simp only [value, List.prod_cons, ← hv, Nat.mul_succ]
        omega

theorem tick_iff {ns cs : List ℕ} (h : Within ns cs) :
    (tick ns cs).1 = true ↔ value ns cs + 1 < ns.prod := by
  constructor
  · intro ht
    rw [← tick_value h ht]
    exact value_lt (tick_within h)
  · intro hlt
    by_contra hf
    have hl := (tick_last h (by simpa using hf)).1
    omega

/-- The number of a reading as a sum of digits weighted by the smaller wheels. -/
theorem value_eq_sum {ns cs : List ℕ} (h : cs.length = ns.length) :
    value ns cs = ∑ i ∈ Finset.range cs.length, cs.getD i 0 * (ns.take i).prod := by
  induction ns generalizing cs with
  | nil =>
    have hz : cs = [] := List.length_eq_zero_iff.mp h
    simp [hz, value]
  | cons n ns ih =>
    cases cs with
    | nil => simp at h
    | cons c cs =>
      simp only [List.length_cons, Nat.add_right_cancel_iff] at h
      have hs : ∀ i ∈ Finset.range cs.length,
          (c :: cs).getD (i + 1) 0 * ((n :: ns).take (i + 1)).prod =
            n * (cs.getD i 0 * (ns.take i).prod) := by
        intro i _
        rw [List.getD_cons_succ, List.take_succ_cons, List.prod_cons]
        ring
      rw [List.length_cons, Finset.sum_range_succ', Finset.sum_congr rfl hs, ← Finset.mul_sum,
        ← ih h, value, List.getD_cons_zero, List.take_zero, List.prod_nil]
      omega

def digits (cs : List ℕ) (i : ℕ) : ℕ := cs.getD i 0

def Below (c d : ℕ → ℕ) : Prop := ∃ i, c i < d i ∧ ∀ j, i < j → c j = d j

/-- Every digit fits its wheel, and there is nothing beyond the last wheel. -/
def InBox (ns : List ℕ) (v : ℕ → ℕ) : Prop := ∀ i, v i < ns.getD i 1

def shift (v : ℕ → ℕ) (i : ℕ) : ℕ := v (i + 1)

theorem below_irrefl (c : ℕ → ℕ) : ¬ Below c c := fun ⟨_, h, _⟩ => Nat.lt_irrefl _ h

theorem Below.trans {c d e : ℕ → ℕ} (hcd : Below c d) (hde : Below d e) : Below c e := by
  obtain ⟨i, hi, hi'⟩ := hcd
  obtain ⟨j, hj, hj'⟩ := hde
  rcases Nat.lt_trichotomy i j with h | h | h
  · exact ⟨j, by rw [hi' j h]; exact hj, fun k hk => (hi' k (by omega)).trans (hj' k hk)⟩
  · subst h
    exact ⟨i, hi.trans hj, fun k hk => (hi' k hk).trans (hj' k hk)⟩
  · exact ⟨i, by rw [← hj' i h]; exact hi, fun k hk => (hi' k hk).trans (hj' k (by omega))⟩

theorem below_shift_iff (c d : ℕ → ℕ) :
    Below c d ↔ Below (shift c) (shift d) ∨ (shift c = shift d ∧ c 0 < d 0) := by
  constructor
  · rintro ⟨i, hi, hs⟩
    cases i with
    | zero => exact .inr ⟨funext fun j => hs (j + 1) (by omega), hi⟩
    | succ i => exact .inl ⟨i, hi, fun j hj => hs (j + 1) (by omega)⟩
  · rintro (⟨i, hi, hs⟩ | ⟨he, h0⟩)
    · refine ⟨i + 1, hi, fun j hj => ?_⟩
      obtain ⟨k, rfl⟩ : ∃ k, j = k + 1 := ⟨j - 1, by omega⟩
      exact hs k (by omega)
    · refine ⟨0, h0, fun j hj => ?_⟩
      obtain ⟨k, rfl⟩ : ∃ k, j = k + 1 := ⟨j - 1, by omega⟩
      exact congrFun he k

theorem eq_of_shift {c d : ℕ → ℕ} (h0 : c 0 = d 0) (h : shift c = shift d) : c = d := by
  funext i
  cases i with
  | zero => exact h0
  | succ i => exact congrFun h i

@[simp] theorem shift_digits (c : ℕ) (cs : List ℕ) : shift (digits (c :: cs)) = digits cs := rfl

theorem digits_zero (n i : ℕ) : digits (.replicate n 0) i = 0 := by
  unfold digits
  rw [List.getD_eq_getElem?_getD, List.getElem?_replicate]
  split <;> rfl

theorem InBox.shift {n : ℕ} {ns : List ℕ} {v : ℕ → ℕ} (h : InBox (n :: ns) v) :
    InBox ns (shift v) := fun i => h (i + 1)

theorem inBox_nil {v : ℕ → ℕ} (h : InBox [] v) : v = digits [] := by
  funext i
  have hi := h i
  simp only [List.getD_nil, Nat.lt_one_iff] at hi
  exact hi

theorem tick_below {ns cs : List ℕ} (h : Within ns cs) (ht : (tick ns cs).1 = true) :
    Below (digits cs) (digits (tick ns cs).2) := by
  induction ns generalizing cs with
  | nil => simp [tick] at ht
  | cons n ns ih =>
    cases cs with
    | nil => exact h.elim
    | cons c cs =>
      rw [below_shift_iff]
      by_cases hlt : c + 1 < n
      · simp only [tick, hlt, ↓reduceIte, shift_digits, true_and]
        exact .inr (Nat.lt_succ_self c)
      · simp only [tick, hlt, ↓reduceIte] at ht ⊢
        exact .inl (ih h.2 ht)

theorem eq_of_digits {cs ds : List ℕ} (hl : cs.length = ds.length) (h : digits cs = digits ds) :
    cs = ds := by
  apply List.ext_getElem hl
  intro i hi hj
  have := congrFun h i
  simpa [digits, hi, hj] using this

/-- The numbering of the readings follows their order. -/
theorem value_lt_of_below {ns cs ds : List ℕ} (hc : Within ns cs) (hd : Within ns ds)
    (h : Below (digits cs) (digits ds)) : value ns cs < value ns ds := by
  induction ns generalizing cs ds with
  | nil =>
    cases cs <;> cases ds <;> first | exact absurd h (below_irrefl _) | exact hc.elim |
      exact hd.elim
  | cons n ns ih =>
    cases cs with
    | nil => exact hc.elim
    | cons c cs =>
      cases ds with
      | nil => exact hd.elim
      | cons d ds =>
        simp only [value]
        rcases (below_shift_iff _ _).mp h with hs | ⟨he, h0⟩
        · have hm := Nat.mul_le_mul_left n (Nat.succ_le_of_lt (ih hc.2 hd.2 hs))
          have hn := hc.1
          rw [Nat.mul_succ] at hm
          omega
        · have h0' : c < d := h0
          have ht : cs = ds := eq_of_digits (by rw [hc.2.length_eq, hd.2.length_eq]) he
          rw [ht]
          omega

/-- After the last reading of the box nothing in it is left. -/
theorem inBox_last {ns cs : List ℕ} (h : Within ns cs) (ht : (tick ns cs).1 = false)
    {v : ℕ → ℕ} (hv : InBox ns v) : v = digits cs ∨ Below v (digits cs) := by
  induction ns generalizing cs v with
  | nil =>
    cases cs with
    | nil => exact .inl (inBox_nil hv)
    | cons c cs => exact h.elim
  | cons n ns ih =>
    cases cs with
    | nil => exact h.elim
    | cons c cs =>
      by_cases hlt : c + 1 < n
      · simp [tick, hlt] at ht
      · simp only [tick, hlt, ↓reduceIte] at ht
        have hv0 : v 0 < n := hv 0
        have hc := h.1
        rcases ih h.2 ht hv.shift with he | hb
        · rcases Nat.lt_or_ge (v 0) c with hl | hg
          · exact .inr ((below_shift_iff _ _).mpr (.inr ⟨he, hl⟩))
          · exact .inl (eq_of_shift (show v 0 = c by omega) he)
        · exact .inr ((below_shift_iff _ _).mpr (.inl hb))

theorem inBox_tick {ns cs : List ℕ} (h : Within ns cs) (ht : (tick ns cs).1 = true)
    {v : ℕ → ℕ} (hv : InBox ns v) (hb : Below v (digits (tick ns cs).2)) :
    v = digits cs ∨ Below v (digits cs) := by
  induction ns generalizing cs v with
  | nil => simp [tick] at ht
  | cons n ns ih =>
    cases cs with
    | nil => exact h.elim
    | cons c cs =>
      by_cases hlt : c + 1 < n
      · simp only [tick, hlt, ↓reduceIte] at hb
        rcases (below_shift_iff _ _).mp hb with hs | ⟨he, h0⟩
        · exact .inr ((below_shift_iff _ _).mpr (.inl hs))
        · have h0' : v 0 < c + 1 := h0
          rcases Nat.lt_or_ge (v 0) c with hl | hg
          · exact .inr ((below_shift_iff _ _).mpr (.inr ⟨he, hl⟩))
          · exact .inl (eq_of_shift (show v 0 = c by omega) he)
      · simp only [tick, hlt, ↓reduceIte] at ht hb
        have hv0 : v 0 < n := hv 0
        have hc := h.1
        rcases (below_shift_iff _ _).mp hb with hs | ⟨_, h0⟩
        · rcases ih h.2 ht hv.shift hs with he | hb'
          · rcases Nat.lt_or_ge (v 0) c with hl | hg
            · exact .inr ((below_shift_iff _ _).mpr (.inr ⟨he, hl⟩))
            · exact .inl (eq_of_shift (show v 0 = c by omega) he)
          · exact .inr ((below_shift_iff _ _).mpr (.inl hb'))
        · exact absurd h0 (Nat.not_lt_zero _)

/-- The reading that has the number. -/
def reading : List ℕ → ℕ → List ℕ
  | [], _ => []
  | n :: ns, k => k % n :: reading ns (k / n)

theorem reading_within {ns : List ℕ} {k : ℕ} (h : k < ns.prod) : Within ns (reading ns k) := by
  induction ns generalizing k with
  | nil => trivial
  | cons n ns ih =>
    rw [List.prod_cons] at h
    have hn : 0 < n := Nat.pos_of_ne_zero fun hz => by simp [hz] at h
    exact ⟨Nat.mod_lt k hn, ih (Nat.div_lt_of_lt_mul h)⟩

theorem value_reading {ns : List ℕ} {k : ℕ} (h : k < ns.prod) :
    value ns (reading ns k) = k := by
  induction ns generalizing k with
  | nil =>
    rw [List.prod_nil] at h
    change 0 = k
    omega
  | cons n ns ih =>
    rw [List.prod_cons] at h
    rw [reading, value, ih (Nat.div_lt_of_lt_mul h)]
    exact Nat.mod_add_div k n

theorem range_mul (m n : ℕ) :
    List.range (n * m) = (List.range m).flatMap fun q => (List.range n).map (n * q + ·) := by
  induction m with
  | zero => simp
  | succ m ih =>
    rw [Nat.mul_succ, List.range_add, ih, List.range_succ, List.flatMap_append]
    simp

/-- The readings in the order of their numbers. -/
theorem readings_eq_sections (ns : List ℕ) :
    (List.range ns.prod).map (reading ns) = (ns.map List.range).sections := by
  induction ns with
  | nil => rfl
  | cons n ns ih =>
    rw [List.map_cons, List.sections, ← ih, List.prod_cons, range_mul, List.map_flatMap,
      List.flatMap_map]
    refine List.flatMap_congr fun q _ => ?_
    rw [List.map_map]
    refine List.map_congr_left fun r hr => ?_
    have hr := List.mem_range.mp hr
    have hn : 0 < n := by omega
    simp only [Function.comp_apply, reading]
    rw [Nat.mul_add_mod, Nat.mod_eq_of_lt hr, Nat.mul_add_div hn, Nat.div_eq_of_lt hr, Nat.add_zero]

/-- What does not depend on the order of the wheels is seen equally often whichever way
    they are arranged. -/
theorem map_sections_perm {α β : Type*} {L L' : List (List α)} (h : L.Perm L')
    {f : List α → β} (hf : ∀ r ∈ L.sections, ∀ r', r.Perm r' → f r = f r') :
    (L.sections.map f).Perm (L'.sections.map f) := by
  have hsets : (L.sections.map fun l : List α => (l : Multiset α)).Perm
      (L'.sections.map fun l : List α => (l : Multiset α)) := by
    rw [← Multiset.coe_eq_coe, ← Multiset.coe_sections, ← Multiset.coe_sections]
    exact congrArg Multiset.Sections (Multiset.coe_eq_coe.mpr (h.map _))
  have hlist (r : List α) : r.Perm (r : Multiset α).toList := by
    rw [← Multiset.coe_eq_coe, Multiset.coe_toList]
  have hleft : L.sections.map f =
      (L.sections.map fun l : List α => (l : Multiset α)).map fun s => f s.toList := by
    rw [List.map_map]
    exact List.map_congr_left fun r hr => hf r hr _ (hlist r)
  have hright : L'.sections.map f =
      (L'.sections.map fun l : List α => (l : Multiset α)).map fun s => f s.toList := by
    rw [List.map_map]
    refine List.map_congr_left fun r' hr' => ?_
    -- the same selection was made from the other arrangement
    obtain ⟨r, hr, hsame⟩ := List.mem_map.mp (hsets.symm.subset (List.mem_map_of_mem hr'))
    have hperm : r.Perm r' := Multiset.coe_eq_coe.mp hsame
    exact (hf r hr r' hperm).symm.trans (hf r hr _ (hperm.trans (hlist r')))
  rw [hleft, hright]
  exact hsets.map _

end Pathcomp.Odometer
