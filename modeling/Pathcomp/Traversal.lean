import Pathcomp.Reachability
import Pathcomp.FiniteDescent
import Mathlib.Data.Finset.Dedup

set_option autoImplicit false

/-!
# Following copy-from references

The mutual recursion of `pathcomp_new` visits the entries of the configuration
depth first. `Expands` states this order on its own, with a list of entries
still to be visited. The recursion ends exactly when no cycle of copy-from
references can be reached from the class name.
-/
namespace Pathcomp.Traversal
open Bytes Config Values Attributes Composers Reachability FiniteDescent Relation

def sectionsOf : Option Cf → List CfSection
  | none => []
  | some cf => cf.sections

/-- An entry with the name of the section it stands in. -/
structure Item where
  sectionName : Text
  kv : CfKv
  deriving DecidableEq, Repr

def tagged (sec : CfSection) : List Item := sec.entries.map (Item.mk sec.name)

def entriesOf (config : Option Cf) (name : Text) : List Item :=
  ((sectionsOf config).filter (·.name = name)).flatMap tagged

/-- Some section named `a` has an entry `copy-from = b`. -/
def CopiesFrom (config : Option Cf) (a b : Text) : Prop :=
  ∃ e ∈ entriesOf config a, e.kv.key = attCopy ∧ e.kv.value = b

/-- Depth-first order: a copy-from entry is followed by the entries of all the
    sections that its value names. -/
inductive Expands (config : Option Cf) : List Item → List Item → Prop where
  | nil : Expands config [] []
  | plain {e : Item} {rest out : List Item} (hk : e.kv.key ≠ attCopy)
      (tail : Expands config rest out) : Expands config (e :: rest) (e :: out)
  | copy {e : Item} {rest out : List Item} (hk : e.kv.key = attCopy)
      (tail : Expands config (entriesOf config e.kv.value ++ rest) out) :
      Expands config (e :: rest) (e :: out)

/-- The store update for one visited entry. -/
def place (c : Composer) (e : Item) : Composer :=
  match pathcompAddOrReplace c e.kv.key (valueNewAuto e.kv.value) (some e.sectionName) .addIf with
  | .ok d => d
  | .error _ => c

theorem addOrReplace_place (c : Composer) (e : Item) :
    pathcompAddOrReplace c e.kv.key (valueNewAuto e.kv.value) (some e.sectionName) .addIf =
      .ok (place c e) := by
  obtain ⟨d, hd⟩ := addOrReplace_ok c e.kv.key (valueNewAuto e.kv.value)
    (some e.sectionName) .addIf
  unfold place
  rw [hd]

theorem addAttsFromEntries_cons (recurse : Composer → Text → Except Halt Composer)
    (sectionName : Text) (c : Composer) (kv : CfKv) (entries : List CfKv) :
    pathcompAddAttsFromEntries recurse sectionName c (kv :: entries) =
      if kv.key = attCopy then
        match recurse (place c ⟨sectionName, kv⟩) kv.value with
        | .error halt => .error halt
        | .ok d => pathcompAddAttsFromEntries recurse sectionName d entries
      else pathcompAddAttsFromEntries recurse sectionName
        (place c ⟨sectionName, kv⟩) entries := by
  let continued : Except Halt Composer → Except Halt Composer
    | .error halt => .error halt
    | .ok d =>
      if kv.key = attCopy then
        match recurse d kv.value with
        | .error halt => .error halt
        | .ok d => pathcompAddAttsFromEntries recurse sectionName d entries
      else pathcompAddAttsFromEntries recurse sectionName d entries
  exact congrArg continued (addOrReplace_place c ⟨sectionName, kv⟩)

theorem Expands.append {config : Option Cf} {xs ys out out' : List Item}
    (hx : Expands config xs out) (hy : Expands config ys out') :
    Expands config (xs ++ ys) (out ++ out') := by
  induction hx with
  | nil => exact hy
  | plain hk _ ih => exact .plain hk ih
  | copy hk _ ih =>
    rw [List.append_assoc] at ih
    exact .copy hk ih

theorem Expands.unique {config : Option Cf} {xs out out' : List Item}
    (h : Expands config xs out) (h' : Expands config xs out') : out = out' := by
  induction h generalizing out' with
  | nil =>
    cases h'
    rfl
  | plain hk _ ih =>
    cases h' with
    | plain _ tail => rw [ih tail]
    | copy hk' _ => exact absurd hk' hk
  | copy hk _ ih =>
    cases h' with
    | plain hk' _ => exact absurd hk hk'
    | copy _ tail => rw [ih tail]

theorem mem_entriesOf {config : Option Cf} {name : Text} {e : Item}
    (h : e ∈ entriesOf config name) : e.sectionName = name := by
  obtain ⟨sec, hs, he⟩ := List.mem_flatMap.mp h
  obtain ⟨kv, _, rfl⟩ := List.mem_map.mp he
  simpa using (List.mem_filter.mp hs).2

/-- A recursive call that adds what the sections of a name expand to. -/
def Follows (config : Option Cf) (recurse : Composer → Text → Except Halt Composer) : Prop :=
  ∀ c d name, recurse c name = .ok d →
    ∃ out, Expands config (entriesOf config name) out ∧ d = out.foldl place c

theorem entries_expand {config : Option Cf} {recurse : Composer → Text → Except Halt Composer}
    (hr : Follows config recurse) {sectionName : Text} {entries : List CfKv} {c d : Composer}
    (h : pathcompAddAttsFromEntries recurse sectionName c entries = .ok d) :
    ∃ out, Expands config (entries.map (Item.mk sectionName)) out ∧ d = out.foldl place c := by
  induction entries generalizing c with
  | nil =>
    cases h
    exact ⟨[], .nil, rfl⟩
  | cons kv entries ih =>
    rw [addAttsFromEntries_cons] at h
    split at h
    · rename_i hk
      cases he : recurse (place c ⟨sectionName, kv⟩) kv.value with
      | error halt => simp [he] at h
      | ok e =>
        simp only [he] at h
        obtain ⟨inner, hinner, rfl⟩ := hr _ _ _ he
        obtain ⟨rest, hrest, rfl⟩ := ih h
        refine ⟨⟨sectionName, kv⟩ :: (inner ++ rest), .copy hk (hinner.append hrest), ?_⟩
        rw [List.foldl_cons, List.foldl_append]
    · rename_i hk
      obtain ⟨rest, hrest, rfl⟩ := ih h
      exact ⟨⟨sectionName, kv⟩ :: rest, .plain hk hrest, rfl⟩

theorem loop_expand {config : Option Cf} {recurse : Composer → Text → Except Halt Composer}
    (hr : Follows config recurse) {name : Text} {sections : List CfSection} {c d : Composer}
    (h : addAttsLoop (pathcompAddAttsFromEntries recurse) name c sections = .ok d) :
    ∃ out, Expands config ((sections.filter (·.name = name)).flatMap tagged) out ∧
      d = out.foldl place c := by
  induction sections generalizing c with
  | nil =>
    cases h
    exact ⟨[], .nil, rfl⟩
  | cons sec sections ih =>
    simp only [addAttsLoop] at h
    by_cases hn : sec.name = name
    · rw [if_pos hn] at h
      cases he : pathcompAddAttsFromEntries recurse sec.name c sec.entries with
      | error halt => simp [he] at h
      | ok e =>
        simp only [he] at h
        obtain ⟨first, hfirst, rfl⟩ := entries_expand hr he
        obtain ⟨rest, hrest, rfl⟩ := ih h
        refine ⟨first ++ rest, ?_, by rw [List.foldl_append]⟩
        rw [List.filter_cons_of_pos (by simpa using hn), List.flatMap_cons]
        exact hfirst.append hrest
    · rw [if_neg hn] at h
      rw [List.filter_cons_of_neg (by simpa using hn)]
      exact ih h

theorem addAttsFromSections_expand (config : Option Cf) (depth : ℕ) :
    Follows config (pathcompAddAttsFromSections config depth) := by
  induction depth with
  | zero =>
    intro c d name h
    cases h
  | succ depth ih =>
    intro c d name h
    cases config with
    | none =>
      cases h
      exact ⟨[], .nil, rfl⟩
    | some cf => exact loop_expand ih h

section Ends
variable {config : Option Cf}

theorem recursed_of_entries {recurse : Composer → Text → Except Halt Composer}
    {sectionName : Text} {entries : List CfKv} {c d : Composer}
    (h : pathcompAddAttsFromEntries recurse sectionName c entries = .ok d) {kv : CfKv}
    (hm : kv ∈ entries) (hk : kv.key = attCopy) : ∃ c' d', recurse c' kv.value = .ok d' := by
  induction entries generalizing c with
  | nil => simp at hm
  | cons first entries ih =>
    rw [addAttsFromEntries_cons] at h
    split at h
    · cases he : recurse (place c ⟨sectionName, first⟩) first.value with
      | error halt => simp [he] at h
      | ok e =>
        simp only [he] at h
        rcases List.mem_cons.mp hm with rfl | hm
        · exact ⟨_, _, he⟩
        · exact ih h hm
    · rename_i hne
      rcases List.mem_cons.mp hm with rfl | hm
      · exact absurd hk hne
      · exact ih h hm

theorem recursed_of_loop {recurse : Composer → Text → Except Halt Composer} {name : Text}
    {sections : List CfSection} {c d : Composer}
    (h : addAttsLoop (pathcompAddAttsFromEntries recurse) name c sections = .ok d)
    {sec : CfSection} (hs : sec ∈ sections) (hn : sec.name = name) {kv : CfKv}
    (hm : kv ∈ sec.entries) (hk : kv.key = attCopy) :
    ∃ c' d', recurse c' kv.value = .ok d' := by
  induction sections generalizing c with
  | nil => simp at hs
  | cons first sections ih =>
    simp only [addAttsLoop] at h
    split at h
    · cases he : pathcompAddAttsFromEntries recurse first.name c first.entries with
      | error halt => simp [he] at h
      | ok e =>
        simp only [he] at h
        rcases List.mem_cons.mp hs with rfl | hs
        · exact recursed_of_entries he hm hk
        · exact ih h hs
    · rename_i hne
      rcases List.mem_cons.mp hs with rfl | hs
      · exact absurd hn hne
      · exact ih h hs

theorem copiesFrom_iff (config : Option Cf) (a b : Text) :
    CopiesFrom config a b ↔ ∃ sec ∈ sectionsOf config, sec.name = a ∧
      ∃ kv ∈ sec.entries, kv.key = attCopy ∧ kv.value = b := by
  simp only [CopiesFrom, entriesOf, tagged, List.mem_flatMap, List.mem_filter, List.mem_map,
    decide_eq_true_eq]
  constructor
  · rintro ⟨_, ⟨sec, ⟨hs, hn⟩, kv, hm, rfl⟩, hk, hv⟩
    exact ⟨sec, hs, hn, kv, hm, hk, hv⟩
  · rintro ⟨sec, hs, hn, kv, hm, hk, hv⟩
    exact ⟨⟨sec.name, kv⟩, ⟨sec, ⟨hs, hn⟩, kv, hm, rfl⟩, hk, hv⟩

theorem descends_of_ok {depth : ℕ} {c d : Composer} {name : Text}
    (h : pathcompAddAttsFromSections config depth c name = .ok d) :
    Descends (CopiesFrom config) name := by
  induction depth generalizing c d name with
  | zero => cases h
  | succ depth ih =>
    refine Acc.intro name fun b hb => ?_
    obtain ⟨sec, hs, hn, kv, hm, hk, rfl⟩ := (copiesFrom_iff config name b).mp hb
    cases config with
    | none => simp [sectionsOf] at hs
    | some cf =>
      obtain ⟨c', d', he⟩ := recursed_of_loop h hs hn hm hk
      exact ih he

/-- From some depth on the recursive call returns, whatever the composer. -/
def Finishes (config : Option Cf) (name : Text) : Prop :=
  ∃ depth, ∀ n, depth ≤ n → ∀ c, ∃ d,
    pathcompAddAttsFromSections config n c name = .ok d

theorem entries_finish (sectionName : Text) {entries : List CfKv}
    (h : ∀ kv ∈ entries, kv.key = attCopy → Finishes config kv.value) :
    ∃ depth, ∀ n, depth ≤ n → ∀ c, ∃ d, pathcompAddAttsFromEntries
      (pathcompAddAttsFromSections config n) sectionName c entries = .ok d := by
  induction entries with
  | nil => exact ⟨0, fun _ _ c => ⟨c, rfl⟩⟩
  | cons kv entries ih =>
    obtain ⟨k, hrest⟩ := ih fun kv' hm => h kv' (by simp [hm])
    by_cases hk : kv.key = attCopy
    · obtain ⟨j, hfirst⟩ := h kv (by simp) hk
      refine ⟨max j k, fun n hn c => ?_⟩
      obtain ⟨e, he⟩ := hfirst n (by omega) (place c ⟨sectionName, kv⟩)
      obtain ⟨d, hd⟩ := hrest n (by omega) e
      exact ⟨d, by rw [addAttsFromEntries_cons, if_pos hk, he]; exact hd⟩
    · refine ⟨k, fun n hn c => ?_⟩
      obtain ⟨d, hd⟩ := hrest n hn (place c ⟨sectionName, kv⟩)
      exact ⟨d, by rw [addAttsFromEntries_cons, if_neg hk]; exact hd⟩

theorem loop_finish {name : Text} {sections : List CfSection}
    (h : ∀ sec ∈ sections, sec.name = name → ∀ kv ∈ sec.entries, kv.key = attCopy →
      Finishes config kv.value) :
    ∃ depth, ∀ n, depth ≤ n → ∀ c, ∃ d, addAttsLoop
      (pathcompAddAttsFromEntries (pathcompAddAttsFromSections config n)) name c sections =
        .ok d := by
  induction sections with
  | nil => exact ⟨0, fun _ _ c => ⟨c, rfl⟩⟩
  | cons sec sections ih =>
    obtain ⟨k, hrest⟩ := ih fun s hm => h s (by simp [hm])
    by_cases hn : sec.name = name
    · obtain ⟨j, hfirst⟩ := entries_finish sec.name (h sec (by simp) hn)
      refine ⟨max j k, fun n hle c => ?_⟩
      obtain ⟨e, he⟩ := hfirst n (by omega) c
      obtain ⟨d, hd⟩ := hrest n (by omega) e
      exact ⟨d, by rw [addAttsLoop, if_pos hn, he]; exact hd⟩
    · refine ⟨k, fun n hle c => ?_⟩
      obtain ⟨d, hd⟩ := hrest n hle c
      exact ⟨d, by rw [addAttsLoop, if_neg hn]; exact hd⟩

theorem finishes_of_descends {name : Text} (h : Descends (CopiesFrom config) name) :
    Finishes config name := by
  induction h with
  | intro name _ ih =>
    cases config with
    | none =>
      refine ⟨1, fun n hn c => ?_⟩
      obtain ⟨m, rfl⟩ : ∃ m, n = m + 1 := ⟨n - 1, by omega⟩
      exact ⟨c, rfl⟩
    | some cf =>
      obtain ⟨k, hk⟩ := loop_finish fun sec (hs : sec ∈ cf.sections)
        (hn : sec.name = name) kv hm hc =>
        ih kv.value ((copiesFrom_iff _ _ _).mpr ⟨sec, hs, hn, kv, hm, hc, rfl⟩)
      refine ⟨k + 1, fun n hn c => ?_⟩
      obtain ⟨m, rfl⟩ : ∃ m, n = m + 1 := ⟨n - 1, by omega⟩
      exact hk m (by omega) c

theorem descends_iff_acyclic (config : Option Cf) (name : Text) :
    Descends (CopiesFrom config) name ↔ NoCycleFrom (CopiesFrom config) name := by
  apply descends_iff_noCycle (s := ((sectionsOf config).map CfSection.name).toFinset)
  intro a b hab
  obtain ⟨sec, hs, rfl, _⟩ := (copiesFrom_iff config a b).mp hab
  simpa using ⟨sec, hs, rfl⟩

end Ends

def blank (name : Text) : Composer :=
  { name, attributes := [], metatable := [], done := false, started := false }

theorem pathcompNew_ok {config : Option Cf} {depth : ℕ} {name : Text} {c : Composer}
    (h : pathcompNew config depth name = .ok c) :
    ∃ d, pathcompAddAttsFromSections config depth (blank name) name = .ok d ∧
      c.attributes = d.attributes := by
  unfold pathcompNew pathcompMakeFromConfig at h
  simp only at h
  split at h
  · cases h
  · rename_i d hd
    cases h
    exact ⟨d, hd, rfl⟩

/-- The attributes of a new composer come from the entries in the order of the
    expansion. -/
theorem pathcompNew_expand {config : Option Cf} {depth : ℕ} {name : Text} {c : Composer}
    (h : pathcompNew config depth name = .ok c) :
    ∃ out, Expands config (entriesOf config name) out ∧
      c.attributes = (out.foldl place (blank name)).attributes := by
  obtain ⟨d, hd, ha⟩ := pathcompNew_ok h
  obtain ⟨out, hout, rfl⟩ := addAttsFromSections_expand config depth _ _ _ hd
  exact ⟨out, hout, ha⟩

theorem pathcompNew_descends {config : Option Cf} {depth : ℕ} {name : Text} {c : Composer}
    (h : pathcompNew config depth name = .ok c) : Descends (CopiesFrom config) name := by
  obtain ⟨d, hd, _⟩ := pathcompNew_ok h
  exact descends_of_ok hd

theorem pathcompNew_finishes {config : Option Cf} {name : Text}
    (h : Descends (CopiesFrom config) name) :
    ∃ depth, ∀ n, depth ≤ n → ∃ c, pathcompNew config n name = .ok c := by
  obtain ⟨k, hk⟩ := finishes_of_descends h
  refine ⟨k, fun n hn => ?_⟩
  obtain ⟨d, hd⟩ := hk n hn (blank name)
  unfold blank at hd
  unfold pathcompNew pathcompMakeFromConfig
  simp only [hd]
  exact ⟨_, rfl⟩

/-- A composer is obtained, with whatever depth of recursion, exactly when no
    cycle of copy-from references can be reached from its class. -/
theorem pathcompNew_returns_iff (config : Option Cf) (name : Text) :
    (∃ depth c, pathcompNew config depth name = .ok c) ↔
      NoCycleFrom (CopiesFrom config) name := by
  rw [← descends_iff_acyclic]
  constructor
  · rintro ⟨depth, c, h⟩
    exact pathcompNew_descends h
  · intro h
    obtain ⟨k, hk⟩ := pathcompNew_finishes h
    obtain ⟨c, hc⟩ := hk k le_rfl
    exact ⟨k, c, hc⟩

def selfCopyText : Text := ascii "[a]\ncopy-from = a\n"

def selfCopyConfig : Cf := ⟨[⟨ascii "a", [⟨ascii "copy-from", ascii "a"⟩]⟩]⟩

theorem pathcompNew_self_copy :
    cfAddFromString 20 ⟨[]⟩ selfCopyText = .ok (true, selfCopyConfig) ∧
      ∀ depth c, pathcompNew (some selfCopyConfig) depth (ascii "a") ≠ .ok c := by
  refine ⟨by rfl, fun depth c h => ?_⟩
  have hself : CopiesFrom (some selfCopyConfig) (ascii "a") (ascii "a") :=
    ⟨⟨ascii "a", ascii "copy-from", ascii "a"⟩, by decide, rfl, rfl⟩
  exact (pathcompNew_descends h).not_transGen (.single hself)

end Pathcomp.Traversal
