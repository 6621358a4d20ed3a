import Pathcomp.Resolution

set_option autoImplicit false

/-!
# Overriding through several levels of inheritance

A class whose only entry is `copy-from = parent` is compared with its parent.
The store only asks whether an entry comes from the class under construction,
so values that the parent overrides are inherited again.
-/
namespace Pathcomp.Overriding
open Bytes Config Values Attributes Composers Reachability FiniteDescent Traversal Resolution
open Relation

def alternativesOf (c : Composer) (n : Text) : Option (List Value) :=
  (pathcompRetrieveAtt c n).map Att.alternatives

section Members
variable {config : Option Cf}

/-- Some reference among the items leads to a section with the entry `e`. -/
def Referred (config : Option Cf) (xs : List Item) (e : Item) : Prop :=
  ∃ x ∈ xs, x.kv.key = attCopy ∧
    ∃ a, ReflTransGen (CopiesFrom config) x.kv.value a ∧ e ∈ entriesOf config a

theorem Referred.mono {xs ys : List Item} {e : Item} (h : Referred config xs e)
    (hsub : ∀ x ∈ xs, x ∈ ys) : Referred config ys e := by
  obtain ⟨x, hx, hk, ha⟩ := h
  exact ⟨x, hsub x hx, hk, ha⟩

/-- The entries behind one reference are those of the sections it names and
    those that these refer to. -/
theorem reached_iff {v : Text} {e : Item} :
    (∃ a, ReflTransGen (CopiesFrom config) v a ∧ e ∈ entriesOf config a) ↔
      e ∈ entriesOf config v ∨ Referred config (entriesOf config v) e := by
  constructor
  · rintro ⟨a, hva, he⟩
    rcases ReflTransGen.cases_head hva with rfl | ⟨b, ⟨x, hx, hk, rfl⟩, hba⟩
    · exact .inl he
    · exact .inr ⟨x, hx, hk, a, hba, he⟩
  · rintro (he | ⟨x, hx, hk, a, hxa, he⟩)
    · exact ⟨v, .refl, he⟩
    · exact ⟨a, .head ⟨x, hx, hk, rfl⟩ hxa, he⟩

theorem mem_expansion {xs out : List Item} (h : Expands config xs out) (e : Item) :
    e ∈ out ↔ e ∈ xs ∨ Referred config xs e := by
  induction h with
  | nil => simp [Referred]
  | @plain x rest out hk _ ih =>
    have hr : Referred config (x :: rest) e ↔ Referred config rest e := by
      constructor
      · rintro ⟨y, hy, hky, ha⟩
        rcases List.mem_cons.mp hy with rfl | hy
        · exact absurd hky hk
        · exact ⟨y, hy, hky, ha⟩
      · exact fun h => h.mono fun y hy => by simp [hy]
    rw [List.mem_cons, List.mem_cons, ih, hr, or_assoc]
  | @copy x rest out hk _ ih =>
    have hr : Referred config (x :: rest) e ↔
        (e ∈ entriesOf config x.kv.value ∨ Referred config (entriesOf config x.kv.value) e) ∨
          Referred config rest e := by
      rw [← reached_iff]
      constructor
      · rintro ⟨y, hy, hky, ha⟩
        rcases List.mem_cons.mp hy with rfl | hy
        · exact .inl ha
        · exact .inr ⟨y, hy, hky, ha⟩
      · rintro (ha | h)
        · exact ⟨x, by simp, hk, ha⟩
        · exact h.mono fun y hy => by simp [hy]
    have hs : Referred config (entriesOf config x.kv.value ++ rest) e ↔
        Referred config (entriesOf config x.kv.value) e ∨ Referred config rest e := by
      constructor
      · rintro ⟨y, hy, hky, ha⟩
        rcases List.mem_append.mp hy with hy | hy
        · exact .inl ⟨y, hy, hky, ha⟩
        · exact .inr ⟨y, hy, hky, ha⟩
      · rintro (h | h)
        · exact h.mono fun y hy => by simp [hy]
        · exact h.mono fun y hy => by simp [hy]
    rw [List.mem_cons, List.mem_cons, ih, hr, hs, List.mem_append]
    simp only [or_assoc, or_left_comm]

theorem mem_class_expansion {name : Text} {out : List Item}
    (h : Expands config (entriesOf config name) out) (e : Item) :
    e ∈ out ↔ ∃ a, ReflTransGen (CopiesFrom config) name a ∧ e ∈ entriesOf config a := by
  rw [mem_expansion h, reached_iff]

end Members

theorem alternativesOf_new {config : Option Cf} {depth : ℕ} {name : Text} {c : Composer}
    {out : List Item} (hc : pathcompNew config depth name = .ok c)
    (hout : Expands config (entriesOf config name) out) (n : Text) :
    alternativesOf c n =
      if ownItems name n out ≠ [] then some (values (ownItems name n out))
      else if inheritedItems name n out = [] then none
      else some (values (inheritedItems name n out)) := by
  obtain ⟨out', hout', hres⟩ := pathcompNew_resolves hc
  cases hout.unique hout'
  have hn := hres n
  unfold alternativesOf
  generalize pathcompRetrieveAtt c n = r at hn
  cases hn with
  | absent own inh =>
    rw [if_neg (not_not.mpr own), if_pos inh]
    rfl
  | derived _ _ own inh =>
    rw [if_neg (not_not.mpr own), if_neg inh]
    rfl
  | own own =>
    rw [if_pos own]
    rfl

def keyItems (n : Text) (items : List Item) : List Item := items.filter (·.kv.key = n)

theorem keyItems_length (name n : Text) (items : List Item) :
    (keyItems n items).length =
      (ownItems name n items).length + (inheritedItems name n items).length := by
  induction items with
  | nil => rfl
  | cons e items ih =>
    unfold keyItems ownItems inheritedItems at *
    by_cases hk : e.kv.key = n
    · by_cases hs : e.sectionName = name
      · simp [hk, hs, ih]
        omega
      · simp [hk, hs, ih]
        omega
    · simp [hk, ih]

theorem keyItems_of_own_nil {name n : Text} {items : List Item}
    (h : ownItems name n items = []) : inheritedItems name n items = keyItems n items := by
  refine List.filter_congr fun e he => ?_
  have hne := List.filter_eq_nil_iff.mp h e he
  by_cases hk : e.kv.key = n
  · simp only [hk, and_true, decide_eq_true_eq] at hne
    simp [hk, hne]
  · simp [hk]

theorem keyItems_of_inherited_nil {name n : Text} {items : List Item}
    (h : inheritedItems name n items = []) : ownItems name n items = keyItems n items := by
  refine List.filter_congr fun e he => ?_
  have hne := List.filter_eq_nil_iff.mp h e he
  by_cases hk : e.kv.key = n
  · simp only [hk, and_true, ne_eq, decide_eq_true_eq, not_not] at hne
    simp [hk, hne]
  · simp [hk]

/-- A class that inherits everything sees what its parent sees unless the
    parent has the attribute both from itself and from its ancestors. -/
theorem resolved_eq_iff (name n : Text) (items : List Item) :
    ((if keyItems n items = [] then none else some (values (keyItems n items))) =
      if ownItems name n items ≠ [] then some (values (ownItems name n items))
      else if inheritedItems name n items = [] then none
      else some (values (inheritedItems name n items))) ↔
    ownItems name n items = [] ∨ inheritedItems name n items = [] := by
  have hlen := keyItems_length name n items
  by_cases ho : ownItems name n items = []
  · rw [if_neg (not_not.mpr ho), keyItems_of_own_nil ho]
    exact iff_of_true rfl (.inl ho)
  · rw [if_pos ho]
    by_cases hi : inheritedItems name n items = []
    · rw [← keyItems_of_inherited_nil hi, if_neg ho]
      exact iff_of_true rfl (.inr hi)
    · refine iff_of_false (fun he => ?_) (not_or.mpr ⟨ho, hi⟩)
      split at he
      · cases he
      · have hv := congrArg List.length (Option.some.inj he)
        simp only [values, List.length_map] at hv
        have := List.length_pos_iff.mpr hi
        omega

def plainConfig (pre post : List CfSection) : Option Cf := some ⟨pre ++ post⟩

/-- The configuration with one section `[child]`, `copy-from = parent` added. -/
def extendedConfig (pre post : List CfSection) (child parent : Text) : Option Cf :=
  some ⟨pre ++ ⟨child, [⟨attCopy, parent⟩]⟩ :: post⟩

/-- The name `child` is neither configured nor referred to. -/
structure NewClass (pre post : List CfSection) (child parent : Text) : Prop where
  distinct : child ≠ parent
  unnamed : ∀ sec ∈ pre ++ post, sec.name ≠ child
  unreferenced : ∀ sec ∈ pre ++ post, ∀ kv ∈ sec.entries, kv.key = attCopy →
    kv.value ≠ child

section Extended
variable {pre post : List CfSection} {child parent : Text}

theorem entriesOf_child (h : NewClass pre post child parent) :
    entriesOf (extendedConfig pre post child parent) child = [⟨child, attCopy, parent⟩] := by
  have hnone (l : List CfSection) (hl : ∀ sec ∈ l, sec ∈ pre ++ post) :
      l.filter (·.name = child) = [] :=
    List.filter_eq_nil_iff.mpr fun sec hs => by simpa using h.unnamed sec (hl sec hs)
  have hpre := hnone pre fun sec hs => by simp [hs]
  have hpost := hnone post fun sec hs => by simp [hs]
  simp [entriesOf, sectionsOf, extendedConfig, hpre, hpost, tagged]

theorem entriesOf_extended {a : Text} (ha : a ≠ child) :
    entriesOf (extendedConfig pre post child parent) a = entriesOf (plainConfig pre post) a := by
  simp [entriesOf, sectionsOf, extendedConfig, plainConfig, ha.symm]

theorem copiesFrom_extended {a b : Text} (ha : a ≠ child) :
    CopiesFrom (extendedConfig pre post child parent) a b ↔
      CopiesFrom (plainConfig pre post) a b := by
  unfold CopiesFrom
  rw [entriesOf_extended ha]

theorem not_copiesFrom_child (h : NewClass pre post child parent) (a : Text) :
    ¬ CopiesFrom (extendedConfig pre post child parent) a child := by
  intro hc
  by_cases ha : a = child
  · obtain ⟨e, he, _, hv⟩ := hc
    rw [ha, entriesOf_child h] at he
    rw [List.mem_singleton.mp he] at hv
    exact h.distinct hv.symm
  · obtain ⟨sec, hs, _, kv, hm, hk, hv⟩ :=
      (copiesFrom_iff _ _ _).mp ((copiesFrom_extended ha).mp hc)
    exact h.unreferenced sec hs kv hm hk hv

theorem transGen_extended (h : NewClass pre post child parent) {a b : Text} (ha : a ≠ child) :
    TransGen (CopiesFrom (extendedConfig pre post child parent)) a b ↔
      TransGen (CopiesFrom (plainConfig pre post)) a b := by
  constructor
  · intro hab
    induction hab with
    | single hab => exact .single ((copiesFrom_extended ha).mp hab)
    | @tail b c hab hbc ih =>
      have hb : b ≠ child := by
        rintro rfl
        obtain ⟨x, _, hx⟩ := TransGen.tail'_iff.mp hab
        exact not_copiesFrom_child h x hx
      exact .tail ih ((copiesFrom_extended hb).mp hbc)
  · intro hab
    refine TransGen.mono (fun x y hxy => ?_) a b hab
    have hx : x ≠ child := by
      rintro rfl
      obtain ⟨sec, hs, hn, _⟩ := (copiesFrom_iff _ _ _).mp hxy
      exact h.unnamed sec hs hn
    exact (copiesFrom_extended hx).mpr hxy

theorem extended_acyclic (h : NewClass pre post child parent)
    (hacyclic : ∀ x, ¬ TransGen (CopiesFrom (plainConfig pre post)) x x) (x : Text) :
    NoCycleFrom (CopiesFrom (extendedConfig pre post child parent)) x := by
  intro y _ hy
  by_cases hc : y = child
  · obtain ⟨z, _, hz⟩ := TransGen.tail'_iff.mp hy
    exact not_copiesFrom_child h z (hc ▸ hz)
  · exact hacyclic y ((transGen_extended h hc).mp hy)

theorem child_expands (h : NewClass pre post child parent) {out : List Item}
    (hout : Expands (extendedConfig pre post child parent)
      (entriesOf (extendedConfig pre post child parent) parent) out) :
    Expands (extendedConfig pre post child parent)
      (entriesOf (extendedConfig pre post child parent) child)
      (⟨child, attCopy, parent⟩ :: out) := by
  rw [entriesOf_child h]
  refine .copy rfl ?_
  rwa [List.append_nil]

theorem alternativesOf_child (h : NewClass pre post child parent) {depth : ℕ} {c : Composer}
    (hc : pathcompNew (extendedConfig pre post child parent) depth child = .ok c)
    {out : List Item} (hout : Expands (extendedConfig pre post child parent)
      (entriesOf (extendedConfig pre post child parent) parent) out)
    (hacyclic : NoCycleFrom (CopiesFrom (extendedConfig pre post child parent)) child)
    {n : Text} (hn : n ≠ attCopy) :
    alternativesOf c n = if keyItems n out = [] then none else some (values (keyItems n out)) := by
  have hexp := child_expands h hout
  have hown : ownItems child n (⟨child, attCopy, parent⟩ :: out) = [] := by
    rw [ownItems_expansion n hacyclic hexp, entriesOf_child h]
    simp [hn.symm]
  have hkey : keyItems n (⟨child, attCopy, parent⟩ :: out) = keyItems n out := by
    simp [keyItems, hn.symm]
  rw [alternativesOf_new hc hexp, if_neg (not_not.mpr hown), keyItems_of_own_nil hown, hkey]

end Extended

/-- No attribute other than copy-from is configured both in a section of the
    class and in a section of one of its proper ancestors. -/
def NothingOverridden (config : Option Cf) (name : Text) : Prop :=
  ∀ a, TransGen (CopiesFrom config) name a → ∀ e ∈ entriesOf config name,
    ∀ e' ∈ entriesOf config a, e.kv.key = e'.kv.key → e.kv.key = attCopy

theorem nothingOverridden_iff {config : Option Cf} {name : Text} {out : List Item}
    (hacyclic : NoCycleFrom (CopiesFrom config) name)
    (hout : Expands config (entriesOf config name) out) :
    (∀ n, n ≠ attCopy → ownItems name n out = [] ∨ inheritedItems name n out = []) ↔
      NothingOverridden config name := by
  constructor
  · intro h a ha e he e' he' hkey
    by_contra hk
    have hne : e'.sectionName ≠ name := by
      rw [mem_entriesOf he']
      rintro rfl
      exact hacyclic a .refl ha
    have hmem := (mem_class_expansion hout e).mpr ⟨name, .refl, he⟩
    have hmem' := (mem_class_expansion hout e').mpr ⟨a, ha.to_reflTransGen, he'⟩
    have hown : e ∈ ownItems name e.kv.key out :=
      List.mem_filter.mpr ⟨hmem, by simpa using mem_entriesOf he⟩
    have hinh : e' ∈ inheritedItems name e.kv.key out :=
      List.mem_filter.mpr ⟨hmem', by simpa [hkey] using hne⟩
    rcases h e.kv.key hk with hnil | hnil
    · exact List.ne_nil_of_mem hown hnil
    · exact List.ne_nil_of_mem hinh hnil
  · intro h n hn
    by_contra hboth
    obtain ⟨hown, hinh⟩ := not_or.mp hboth
    rw [ownItems_expansion n hacyclic hout] at hown
    obtain ⟨e, he⟩ := List.exists_mem_of_ne_nil _ hown
    obtain ⟨e', he'⟩ := List.exists_mem_of_ne_nil _ hinh
    obtain ⟨hmem, hkey⟩ := List.mem_filter.mp he
    obtain ⟨hmem', hcond⟩ := List.mem_filter.mp he'
    obtain ⟨hs, hkey'⟩ : e'.sectionName ≠ name ∧ e'.kv.key = n := by simpa using hcond
    have hkey : e.kv.key = n := by simpa using hkey
    obtain ⟨a, hreach, hin⟩ := (mem_class_expansion hout e').mp hmem'
    rcases reflTransGen_iff_eq_or_transGen.mp hreach with heq | hreach
    · exact hs ((mem_entriesOf hin).trans heq)
    · exact hn (hkey ▸ h a hreach e hmem e' hin (hkey.trans hkey'.symm))

theorem nothingOverridden_extended {pre post : List CfSection} {child parent : Text}
    (h : NewClass pre post child parent) :
    NothingOverridden (extendedConfig pre post child parent) parent ↔
      NothingOverridden (plainConfig pre post) parent := by
  unfold NothingOverridden
  refine forall_congr' fun a => ?_
  rw [transGen_extended h h.distinct.symm]
  refine imp_congr_right fun hreach => ?_
  have ha : a ≠ child := by
    rintro rfl
    obtain ⟨x, _, hx⟩ := TransGen.tail'_iff.mp
      ((transGen_extended h h.distinct.symm).mpr hreach)
    exact not_copiesFrom_child h x hx
  rw [entriesOf_extended ha, entriesOf_extended h.distinct.symm]

/-- A class that only copies from its parent has the parent's alternatives
    exactly when the parent overrides nothing. -/
theorem copying_class_iff (pre post : List CfSection) (child parent : Text)
    (h : NewClass pre post child parent)
    (hacyclic : ∀ x, ¬ TransGen (CopiesFrom (plainConfig pre post)) x x) :
    (∃ depth c p,
      pathcompNew (extendedConfig pre post child parent) depth child = .ok c ∧
      pathcompNew (extendedConfig pre post child parent) depth parent = .ok p ∧
      ∀ n, n ≠ attCopy → alternativesOf c n = alternativesOf p n) ↔
    NothingOverridden (plainConfig pre post) parent := by
  have hno := extended_acyclic h hacyclic
  obtain ⟨j, hj⟩ := pathcompNew_finishes ((descends_iff_acyclic _ child).mpr (hno child))
  obtain ⟨k, hk⟩ := pathcompNew_finishes ((descends_iff_acyclic _ parent).mpr (hno parent))
  obtain ⟨c, hc⟩ := hj (max j k) (by omega)
  obtain ⟨p, hp⟩ := hk (max j k) (by omega)
  obtain ⟨out, hout, _⟩ := pathcompNew_expand hp
  have hsame {depth : ℕ} {c p : Composer}
      (hc : pathcompNew (extendedConfig pre post child parent) depth child = .ok c)
      (hp : pathcompNew (extendedConfig pre post child parent) depth parent = .ok p)
      (n : Text) (hn : n ≠ attCopy) : alternativesOf c n = alternativesOf p n ↔
        ownItems parent n out = [] ∨ inheritedItems parent n out = [] := by
    rw [alternativesOf_child h hc hout (hno child) hn, alternativesOf_new hp hout]
    exact resolved_eq_iff parent n out
  rw [← nothingOverridden_extended h, ← nothingOverridden_iff (hno parent) hout]
  constructor
  · rintro ⟨depth, c, p, hc, hp, hall⟩ n hn
    exact (hsame hc hp n hn).mp (hall n hn)
  · intro hall
    exact ⟨_, c, p, hc, hp, fun n hn => (hsame hc hp n hn).mpr (hall n hn)⟩

theorem acyclic_of_new {cf : Cf} (depth : ℕ)
    (h : ∀ sec ∈ cf.sections, (pathcompNew (some cf) depth sec.name).isOk) (x : Text) :
    ¬ TransGen (CopiesFrom (some cf)) x x := by
  intro hx
  obtain ⟨y, hxy, _⟩ := TransGen.head'_iff.mp hx
  obtain ⟨sec, hs, rfl, _⟩ := (copiesFrom_iff _ _ _).mp hxy
  have hok := h sec hs
  cases hc : pathcompNew (some cf) depth sec.name with
  | error halt => simp [hc, Except.isOk, Except.toBool] at hok
  | ok c => exact (pathcompNew_descends hc).not_transGen hx

def fileSections : List CfSection :=
  [⟨ascii "file", [⟨ascii "root", ascii "/srv"⟩]⟩,
   ⟨ascii "image", [⟨ascii "copy-from", ascii "file"⟩,
     ⟨ascii "extension", ascii ".png"⟩]⟩]

theorem fileSections_acyclic (x : Text) :
    ¬ TransGen (CopiesFrom (plainConfig fileSections [])) x x :=
  acyclic_of_new 2 (by decide) x

theorem copying_class_photo :
    NewClass fileSections [] (ascii "photo") (ascii "image") ∧
      ∃ depth c p,
        pathcompNew (extendedConfig fileSections [] (ascii "photo") (ascii "image")) depth
          (ascii "photo") = .ok c ∧
        pathcompNew (extendedConfig fileSections [] (ascii "photo") (ascii "image")) depth
          (ascii "image") = .ok p ∧
        ∀ n, n ≠ attCopy → alternativesOf c n = alternativesOf p n := by
  have hnew : NewClass fileSections [] (ascii "photo") (ascii "image") :=
    ⟨by decide, by decide, by decide⟩
  have hparent : ∀ x ∈ entriesOf (plainConfig fileSections []) (ascii "image"),
      x.kv.key = attCopy → x.kv.value = ascii "file" := by decide
  have hleaf : ∀ x ∈ entriesOf (plainConfig fileSections []) (ascii "file"),
      x.kv.key ≠ attCopy := by decide
  have hkeys : ∀ e ∈ entriesOf (plainConfig fileSections []) (ascii "image"),
      ∀ e' ∈ entriesOf (plainConfig fileSections []) (ascii "file"),
        e.kv.key = e'.kv.key → e.kv.key = attCopy := by decide
  refine ⟨hnew, (copying_class_iff _ _ _ _ hnew fileSections_acyclic).mpr ?_⟩
  intro a ha e he e' he' hkey
  obtain ⟨b, ⟨x, hx, hk, rfl⟩, hba⟩ := TransGen.head'_iff.mp ha
  rw [hparent x hx hk] at hba
  rcases ReflTransGen.cases_head hba with rfl | ⟨y, ⟨z, hz, hkz, _⟩, _⟩
  · exact hkeys e he e' he' hkey
  · exact absurd hkz (hleaf z hz)

def overriddenSections : List CfSection :=
  [⟨ascii "g", [⟨ascii "att", ascii "1"⟩]⟩,
   ⟨ascii "p", [⟨ascii "copy-from", ascii "g"⟩, ⟨ascii "att", ascii "2"⟩]⟩]

theorem overriddenSections_acyclic (x : Text) :
    ¬ TransGen (CopiesFrom (plainConfig overriddenSections [])) x x :=
  acyclic_of_new 2 (by decide) x

/-- The value that `p` overrides comes back in `c`. -/
theorem copying_class_overridden :
    NewClass overriddenSections [] (ascii "c") (ascii "p") ∧
      (∀ x, ¬ TransGen (CopiesFrom (plainConfig overriddenSections [])) x x) ∧
      ∃ c p,
        pathcompNew (extendedConfig overriddenSections [] (ascii "c") (ascii "p")) 3
          (ascii "c") = .ok c ∧
        pathcompNew (extendedConfig overriddenSections [] (ascii "c") (ascii "p")) 3
          (ascii "p") = .ok p ∧
        alternativesOf p (ascii "att") = some [.string (ascii "2")] ∧
        alternativesOf c (ascii "att") = some [.string (ascii "1"), .string (ascii "2")] :=
  ⟨⟨by decide, by decide, by decide⟩, overriddenSections_acyclic, _, _, rfl, rfl, rfl, rfl⟩

end Pathcomp.Overriding
