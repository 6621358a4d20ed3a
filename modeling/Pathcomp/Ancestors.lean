import Pathcomp.Traversal
import Pathcomp.Stages

set_option autoImplicit false

/-!
# What a class takes from the configuration

`pathcomp_new` goes through all the sections, but only those of the class and of its
ancestors matter, and of these only the entries and their order within one name. The
recursion is never deeper than the number of classes that have a copy-from entry of
their own, unless it does not end at all.
-/
namespace Pathcomp.Ancestors
open Bytes Config Values Attributes Composers Reachability FiniteDescent Traversal Stages Relation

/-- The walk of `pathcomp_add_atts_from_entries` over the entries of all the sections of
    one name. -/
def visit (recurse : Composer → Text → Except Halt Composer) :
    Composer → List Item → Except Halt Composer
  | c, [] => .ok c
  | c, e :: items =>
    if e.kv.key = attCopy then
      match recurse (place c e) e.kv.value with
      | .error halt => .error halt
      | .ok d => visit recurse d items
    else visit recurse (place c e) items

section Visits
variable (recurse : Composer → Text → Except Halt Composer)

theorem entries_visit (sectionName : Text) (c : Composer) (entries : List CfKv) :
    pathcompAddAttsFromEntries recurse sectionName c entries =
      visit recurse c (entries.map (Item.mk sectionName)) := by
  induction entries generalizing c with
  | nil => rfl
  | cons kv entries ih =>
    rw [addAttsFromEntries_cons, List.map_cons, visit]
    by_cases hk : kv.key = attCopy
    · rw [if_pos hk, if_pos hk]
      cases recurse (place c ⟨sectionName, kv⟩) kv.value with
      | error halt => rfl
      | ok d => exact ih d
    · rw [if_neg hk, if_neg hk]
      exact ih _

theorem visit_append (c : Composer) (xs ys : List Item) :
    visit recurse c (xs ++ ys) = (visit recurse c xs).bind fun d => visit recurse d ys := by
  induction xs generalizing c with
  | nil => rfl
  | cons e xs ih =>
    rw [List.cons_append, visit, visit]
    by_cases hk : e.kv.key = attCopy
    · rw [if_pos hk, if_pos hk]
      cases recurse (place c e) e.kv.value with
      | error halt => rfl
      | ok d => exact ih d
    · rw [if_neg hk, if_neg hk]
      exact ih _

theorem loop_visit (name : Text) (c : Composer) (sections : List CfSection) :
    addAttsLoop (pathcompAddAttsFromEntries recurse) name c sections =
      visit recurse c ((sections.filter (·.name = name)).flatMap tagged) := by
  induction sections generalizing c with
  | nil => rfl
  | cons sec sections ih =>
    rw [addAttsLoop]
    by_cases hn : sec.name = name
    · rw [if_pos hn, List.filter_cons_of_pos (by simpa using hn), List.flatMap_cons, visit_append,
        entries_visit]
      change _ = (visit recurse c (sec.entries.map (Item.mk sec.name))).bind _
      cases visit recurse c (sec.entries.map (Item.mk sec.name)) with
      | error halt => rfl
      | ok d => exact ih d
    · rw [if_neg hn, List.filter_cons_of_neg (by simpa using hn)]
      exact ih c

end Visits

theorem addAttsFromSections_visit (config : Option Cf) (depth : ℕ) (c : Composer) (name : Text) :
    pathcompAddAttsFromSections config (depth + 1) c name =
      visit (pathcompAddAttsFromSections config depth) c (entriesOf config name) := by
  cases config with
  | none => rfl
  | some cf => exact loop_visit _ name c cf.sections

theorem visit_congr {recurse recurse' : Composer → Text → Except Halt Composer}
    {items : List Item} (h : ∀ e ∈ items, e.kv.key = attCopy →
      ∀ c, recurse c e.kv.value = recurse' c e.kv.value)
    (c : Composer) : visit recurse c items = visit recurse' c items := by
  induction items generalizing c with
  | nil => rfl
  | cons e items ih =>
    have hrest := ih fun e' he' => h e' (List.mem_cons_of_mem _ he')
    rw [visit, visit]
    by_cases hk : e.kv.key = attCopy
    · rw [if_pos hk, if_pos hk, h e List.mem_cons_self hk]
      cases recurse' (place c e) e.kv.value with
      | error halt => rfl
      | ok d => exact hrest d
    · rw [if_neg hk, if_neg hk]
      exact hrest _

theorem addAttsFromSections_congr {config config' : Option Cf} (depth : ℕ) {name : Text}
    (h : ∀ a, ReflTransGen (CopiesFrom config) name a →
      entriesOf config a = entriesOf config' a)
    (c : Composer) : pathcompAddAttsFromSections config depth c name =
      pathcompAddAttsFromSections config' depth c name := by
  induction depth generalizing name c with
  | zero => rfl
  | succ depth ih =>
    rw [addAttsFromSections_visit, addAttsFromSections_visit, ← h name .refl]
    refine visit_congr (fun e he hk => ih fun a ha => h a ?_) c
    exact ReflTransGen.head ⟨e, he, hk, rfl⟩ ha

/-- The order of sections of different names, sections that no ancestor names, and the
    division of the entries of a name into several sections make no difference to a
    class, also when its copy-from references run in a circle. -/
theorem class_depends_on_ancestors (config config' : Option Cf) (name : Text)
    (h : ∀ a, ReflTransGen (CopiesFrom config) name a →
      entriesOf config a = entriesOf config' a)
    (depth : ℕ) : pathcompNew config depth name = pathcompNew config' depth name := by
  unfold pathcompNew pathcompMakeFromConfig
  simp only [addAttsFromSections_congr depth h]

/-- A class and its parent, whose entries stand in two sections. -/
def shareConfig : Cf :=
  ⟨[⟨ascii "file", [⟨ascii "root", ascii "/srv"⟩]⟩,
    ⟨ascii "image", [⟨ascii "copy-from", ascii "file"⟩]⟩,
    ⟨ascii "file", [⟨ascii "root", ascii "/opt"⟩]⟩]⟩

/-- The same with one section for the parent, and with a class that refers to itself. -/
def regroupedConfig : Cf :=
  ⟨[⟨ascii "image", [⟨ascii "copy-from", ascii "file"⟩]⟩,
    ⟨ascii "loop", [⟨ascii "copy-from", ascii "loop"⟩]⟩,
    ⟨ascii "file", [⟨ascii "root", ascii "/srv"⟩, ⟨ascii "root", ascii "/opt"⟩]⟩]⟩

theorem shareConfig_ancestors {a : Text}
    (h : ReflTransGen (CopiesFrom (some shareConfig)) (ascii "image") a) :
    a = ascii "image" ∨ a = ascii "file" := by
  rcases ReflTransGen.cases_tail h with rfl | ⟨b, _, hb⟩
  · exact .inl rfl
  · obtain ⟨sec, hs, _, kv, hm, hk, rfl⟩ := (copiesFrom_iff _ _ _).mp hb
    simp only [sectionsOf, shareConfig, List.mem_cons, List.not_mem_nil, or_false] at hs
    rcases hs with rfl | rfl | rfl
    · obtain rfl := List.mem_singleton.mp hm
      exact absurd hk (by decide)
    · obtain rfl := List.mem_singleton.mp hm
      exact .inr rfl
    · obtain rfl := List.mem_singleton.mp hm
      exact absurd hk (by decide)

theorem class_depends_on_ancestors_regrouped :
    pathcompNew (some shareConfig) 2 (ascii "image") =
      pathcompNew (some regroupedConfig) 2 (ascii "image") ∧
    ∃ c, pathcompNew (some regroupedConfig) 2 (ascii "image") = .ok c := by
  refine ⟨class_depends_on_ancestors _ _ _ (fun a ha => ?_) 2, _, rfl⟩
  rcases shareConfig_ancestors ha with rfl | rfl
  · decide
  · decide

/-- References from the name are followed to the end within the depth. -/
def Shallow (config : Option Cf) : ℕ → Text → Prop
  | 0, _ => False
  | depth + 1, name => ∀ b, CopiesFrom config name b → Shallow config depth b

theorem visit_returns_iff {recurse : Composer → Text → Except Halt Composer} {P : Text → Prop}
    (hr : ∀ c name, (∃ d, recurse c name = .ok d) ↔ P name) (items : List Item)
    (c : Composer) :
    (∃ d, visit recurse c items = .ok d) ↔ ∀ e ∈ items, e.kv.key = attCopy →
      P e.kv.value := by
  induction items generalizing c with
  | nil => simp [visit]
  | cons e items ih =>
    rw [visit, List.forall_mem_cons]
    by_cases hk : e.kv.key = attCopy
    · rw [if_pos hk, ← hr (place c e) e.kv.value]
      cases hcall : recurse (place c e) e.kv.value with
      | error halt => simp [hk]
      | ok d =>
        rw [ih d]
        simp
    · rw [if_neg hk, ih]
      simp [hk]

theorem addAttsFromSections_returns_iff (config : Option Cf) (depth : ℕ) (c : Composer)
    (name : Text) : (∃ d, pathcompAddAttsFromSections config depth c name = .ok d) ↔
      Shallow config depth name := by
  induction depth generalizing c name with
  | zero =>
    constructor
    · intro h
      obtain ⟨d, hd⟩ := h
      cases hd
    · exact False.elim
  | succ depth ih =>
    rw [addAttsFromSections_visit, visit_returns_iff ih]
    constructor
    · intro h b hb
      obtain ⟨e, he, hk, rfl⟩ := hb
      exact h e he hk
    · exact fun h e he hk => h _ ⟨e, he, hk, rfl⟩

theorem visit_stops {recurse : Composer → Text → Except Halt Composer}
    (hr : ∀ c name halt, recurse c name = .error halt → halt = .bound) {items : List Item}
    {c : Composer} {halt : Halt} (h : visit recurse c items = .error halt) : halt = .bound := by
  induction items generalizing c with
  | nil => cases h
  | cons e items ih =>
    rw [visit] at h
    by_cases hk : e.kv.key = attCopy
    · rw [if_pos hk] at h
      cases hcall : recurse (place c e) e.kv.value with
      | error halt' =>
        rw [hcall] at h
        cases h
        exact hr _ _ _ hcall
      | ok d =>
        rw [hcall] at h
        exact ih h
    · rw [if_neg hk] at h
      exact ih h

theorem addAttsFromSections_stops (config : Option Cf) {depth : ℕ} {c : Composer} {name : Text}
    {halt : Halt} (h : pathcompAddAttsFromSections config depth c name = .error halt) :
    halt = .bound := by
  induction depth generalizing c name halt with
  | zero =>
    cases h
    rfl
  | succ depth ih =>
    rw [addAttsFromSections_visit] at h
    exact visit_stops (fun _ _ _ hcall => ih hcall) h

theorem visit_mono {recurse recurse' : Composer → Text → Except Halt Composer}
    (hr : ∀ c d name, recurse c name = .ok d → recurse' c name = .ok d) {items : List Item}
    {c d : Composer} (h : visit recurse c items = .ok d) : visit recurse' c items = .ok d := by
  induction items generalizing c with
  | nil => exact h
  | cons e items ih =>
    rw [visit] at h ⊢
    by_cases hk : e.kv.key = attCopy
    · rw [if_pos hk] at h ⊢
      cases hcall : recurse (place c e) e.kv.value with
      | error halt =>
        rw [hcall] at h
        cases h
      | ok d' =>
        rw [hcall] at h
        rw [hr _ _ _ hcall]
        exact ih h
    · rw [if_neg hk] at h ⊢
      exact ih h

theorem addAttsFromSections_mono (config : Option Cf) {depth : ℕ} {c d : Composer} {name : Text}
    (h : pathcompAddAttsFromSections config depth c name = .ok d) :
    pathcompAddAttsFromSections config (depth + 1) c name = .ok d := by
  induction depth generalizing c d name with
  | zero => cases h
  | succ depth ih =>
    rw [addAttsFromSections_visit] at h ⊢
    exact visit_mono (fun _ _ _ hcall => ih hcall) h

def copying (config : Option Cf) : List Text :=
  (((sectionsOf config).filter fun sec =>
    sec.entries.any (·.key = attCopy)).map CfSection.name).dedup

theorem mem_copying {config : Option Cf} {a b : Text} (h : CopiesFrom config a b) :
    a ∈ copying config := by
  obtain ⟨sec, hs, rfl, kv, hm, hk, _⟩ := (copiesFrom_iff config a b).mp h
  refine List.mem_dedup.mpr (List.mem_map_of_mem (List.mem_filter.mpr ⟨hs, ?_⟩))
  exact List.any_eq_true.mpr ⟨kv, hm, by simpa using hk⟩

theorem shallow_mono (config : Option Cf) {depth : ℕ} {name : Text}
    (h : Shallow config depth name) :
    Shallow config (depth + 1) name := by
  induction depth generalizing name with
  | zero => exact h.elim
  | succ depth ih => exact fun b hb => ih (h b hb)

theorem exists_deep {config : Option Cf} {depth : ℕ} {name : Text}
    (h : ¬ Shallow config (depth + 1) name) :
    ∃ b, CopiesFrom config name b ∧ ¬ Shallow config depth b := by
  by_contra hnone
  refine h fun b hb => ?_
  by_contra hdeep
  exact hnone ⟨b, hb, hdeep⟩

theorem shallow_bound {config : Option Cf} {depth : ℕ} {name : Text}
    (h : Shallow config depth name) : Shallow config ((copying config).length + 1) name := by
  have hreached : Shallow config ((copying config).toFinset.card + 1) name := by
    refine reached_by_card (D := fun k => Shallow config (k + 1)) (k := depth)
      (fun k x hx => shallow_mono config hx) (fun k x hx hnot => ?_) (fun k x hx hnot => ?_)
      (shallow_mono config h)
    · obtain ⟨b, hb, hdeep⟩ := exists_deep hnot
      exact ⟨b, hx b hb, hdeep⟩
    · obtain ⟨b, hb, _⟩ := exists_deep hnot
      exact List.mem_toFinset.mpr (mem_copying hb)
  have hnodup : (copying config).Nodup := List.nodup_dedup _
  rwa [List.toFinset_card_of_nodup hnodup] at hreached

theorem pathcompNew_mono {config : Option Cf} {depth depth' : ℕ} (hle : depth ≤ depth')
    {name : Text} {c : Composer} (h : pathcompNew config depth name = .ok c) :
    pathcompNew config depth' name = .ok c := by
  induction hle with
  | refl => exact h
  | step _ ih =>
    unfold pathcompNew pathcompMakeFromConfig at ih ⊢
    simp only at ih ⊢
    split at ih
    · cases ih
    · rename_i hd
      rw [addAttsFromSections_mono config hd]
      exact ih

/-- With a nesting of one call more than there are classes with a copy-from entry,
    `pathcomp_new` returns the composer that it returns with any greater one, unless it
    meets a cycle; then no nesting is enough. -/
theorem nesting_bounded (config : Option Cf) (name : Text) :
    (NoCycleFrom (CopiesFrom config) name →
      ∃ c, ∀ depth, (copying config).length + 1 ≤ depth →
        pathcompNew config depth name = .ok c) ∧
    (¬ NoCycleFrom (CopiesFrom config) name →
      ∀ depth, pathcompNew config depth name = .error .bound) := by
  constructor
  · intro hacyclic
    obtain ⟨depth, c, hc⟩ := (pathcompNew_returns_iff config name).mpr hacyclic
    obtain ⟨d, hd, _⟩ := pathcompNew_ok hc
    have hshallow :=
      shallow_bound ((addAttsFromSections_returns_iff config depth _ name).mp ⟨d, hd⟩)
    obtain ⟨e, he⟩ := (addAttsFromSections_returns_iff config _ (blank name) name).mpr hshallow
    unfold blank at he
    have hbound : ∃ c, pathcompNew config ((copying config).length + 1) name = .ok c := by
      unfold pathcompNew pathcompMakeFromConfig
      simp only [he]
      exact ⟨_, rfl⟩
    obtain ⟨c, hc⟩ := hbound
    exact ⟨c, fun depth hdepth => pathcompNew_mono hdepth hc⟩
  · intro hcycle depth
    cases hnew : pathcompNew config depth name with
    | ok c => exact absurd ((pathcompNew_returns_iff config name).mp ⟨depth, c, hnew⟩) hcycle
    | error halt =>
      unfold pathcompNew pathcompMakeFromConfig at hnew
      simp only at hnew
      split at hnew
      · rename_i hd
        cases hnew
        rw [addAttsFromSections_stops config hd]
      · cases hnew

theorem nesting_bounded_share :
    (∃ c, ∀ depth, 2 ≤ depth → pathcompNew (some shareConfig) depth
      (ascii "image") = .ok c) ∧
      ∀ depth, pathcompNew (some regroupedConfig) depth (ascii "loop") = .error .bound := by
  obtain ⟨c, hc⟩ : ∃ c, pathcompNew (some shareConfig) 2 (ascii "image") = .ok c :=
    ⟨_, rfl⟩
  have hacyclic := (pathcompNew_returns_iff (some shareConfig) (ascii "image")).mp ⟨2, c, hc⟩
  have hself : CopiesFrom (some regroupedConfig) (ascii "loop") (ascii "loop") :=
    ⟨⟨ascii "loop", ascii "copy-from", ascii "loop"⟩, by decide, rfl, rfl⟩
  exact ⟨(nesting_bounded (some shareConfig) (ascii "image")).1 hacyclic,
    (nesting_bounded (some regroupedConfig) (ascii "loop")).2 fun hno =>
      hno _ .refl (.single hself)⟩

end Pathcomp.Ancestors
