import Pathcomp.Traversal

set_option autoImplicit false

/-!
# Resolution of attributes

Own and inherited entries reach the store interleaved. After every prefix of
the expansion an attribute holds its own values if there are any and all the
inherited ones otherwise, so the position of a copy-from entry does not matter.
-/
namespace Pathcomp.Resolution
open Bytes Config Values Attributes Composers Reachability FiniteDescent Traversal Relation

section Store
variable {α : Type} {p q : α → Bool} {f : α → α}

theorem find?_modifyFirst (hf : ∀ x, p (f x) = p x) (l : List α) :
    (modifyFirst p f l).find? p = (l.find? p).map f := by
  induction l with
  | nil => rfl
  | cons x l ih =>
    cases hx : p x with
    | true => simp [modifyFirst, hx, hf]
    | false => simpa [modifyFirst, hx] using ih

theorem find?_modifyFirst_of_disjoint (hf : ∀ x, q (f x) = q x) (hpq : ∀ x, p x → q x = false)
    (l : List α) : (modifyFirst p f l).find? q = l.find? q := by
  induction l with
  | nil => rfl
  | cons x l ih =>
    cases hx : p x with
    | true => simp [modifyFirst, hx, hf, hpq x hx]
    | false => simp [modifyFirst, hx, List.find?_cons, ih]

theorem retrieve_onAtt (c : Composer) (name : Text) {f : Att → Att}
    (hf : ∀ att, (f att).name = att.name) :
    pathcompRetrieveAtt (c.onAtt name f) name = (pathcompRetrieveAtt c name).map f :=
  find?_modifyFirst (fun att => by simp [attNameEqualTo, hf]) _

theorem retrieve_onAtt_of_ne (c : Composer) {name n : Text} (hn : name ≠ n) {f : Att → Att}
    (hf : ∀ att, (f att).name = att.name) :
    pathcompRetrieveAtt (c.onAtt name f) n = pathcompRetrieveAtt c n := by
  refine find?_modifyFirst_of_disjoint (fun att => by simp [attNameEqualTo, hf]) ?_ _
  intro att ha
  have ha' : att.name = name := by simpa [attNameEqualTo] using ha
  simp [attNameEqualTo, ha', hn]

theorem retrieve_push {c : Composer} (name : Text) (value : Value) (origin : Option Text)
    (h : pathcompRetrieveAtt c name = none) :
    pathcompRetrieveAtt { c with attributes := listPush c.attributes (attNew name value origin) }
      name = some (attNew name value origin) := by
  unfold pathcompRetrieveAtt at *
  simp [listPush, List.find?_append, h, attNameEqualTo, attNew]

theorem retrieve_push_of_ne (c : Composer) {name n : Text} (hn : name ≠ n) (value : Value)
    (origin : Option Text) :
    pathcompRetrieveAtt { c with attributes := listPush c.attributes (attNew name value origin) }
      n = pathcompRetrieveAtt c n := by
  unfold pathcompRetrieveAtt
  simp [listPush, List.find?_append, attNameEqualTo, attNew, hn]

end Store

theorem addOrReplace_name {c d : Composer} {name : Text} {value : Value} {origin : Option Text}
    {action : Action} (h : pathcompAddOrReplace c name value origin action = .ok d) :
    d.name = c.name := by
  rcases addOrReplace_cases c name value origin action with ⟨_, he⟩ | he | he | he
  all_goals
    rw [he] at h
    cases h
    rfl

theorem addOrReplace_retrieve_of_ne {c d : Composer} {name n : Text} (hn : name ≠ n)
    {value : Value} {origin : Option Text} {action : Action}
    (h : pathcompAddOrReplace c name value origin action = .ok d) :
    pathcompRetrieveAtt d n = pathcompRetrieveAtt c n := by
  rcases addOrReplace_cases c name value origin action with ⟨_, he⟩ | he | he | he
  all_goals
    rw [he] at h
    cases h
  · exact retrieve_push_of_ne c hn value origin
  · exact retrieve_onAtt_of_ne c hn fun _ => rfl
  · exact retrieve_onAtt_of_ne c hn fun att => attAddValue_name att value
  · rfl

@[simp] theorem place_name (c : Composer) (e : Item) : (place c e).name = c.name :=
  addOrReplace_name (addOrReplace_place c e)

theorem retrieve_place_of_ne (c : Composer) (e : Item) {n : Text} (hn : e.kv.key ≠ n) :
    pathcompRetrieveAtt (place c e) n = pathcompRetrieveAtt c n :=
  addOrReplace_retrieve_of_ne hn (addOrReplace_place c e)

/-- The four outcomes of an entry whose attribute may exist already. -/
theorem retrieve_place (c : Composer) (e : Item) :
    pathcompRetrieveAtt (place c e) e.kv.key =
      match pathcompRetrieveAtt c e.kv.key with
      | none => some (attNew e.kv.key (valueNewAuto e.kv.value) (some e.sectionName))
      | some att =>
        match resolveAddIf (inherited c att.origin) (inherited c (some e.sectionName)) with
        | .replace => some (attReplaceValue att (valueNewAuto e.kv.value) (some e.sectionName))
        | .add => some (attAddValue att (valueNewAuto e.kv.value))
        | _ => some att := by
  have h := addOrReplace_place c e
  generalize place c e = d at h
  unfold pathcompAddOrReplace at h
  cases hr : pathcompRetrieveAtt c e.kv.key with
  | none =>
    simp only [hr] at h
    cases h
    exact retrieve_push _ _ _ hr
  | some att =>
    simp only [hr, ↓reduceIte, attGetOrigin] at h ⊢
    rcases resolveAddIf_cases (inherited c att.origin) (inherited c (some e.sectionName)) with
      ha | ha | ha
    all_goals
      simp only [ha] at h ⊢
      cases h
    · exact hr
    · have hu := retrieve_onAtt c e.kv.key
        (f := fun att => attReplaceValue att (valueNewAuto e.kv.value) (some e.sectionName))
        fun _ => rfl
      rw [hu, hr]
      rfl
    · have hu := retrieve_onAtt c e.kv.key
        (f := fun att => attAddValue att (valueNewAuto e.kv.value))
        fun att => attAddValue_name att _
      rw [hu, hr]
      rfl

def values (items : List Item) : List Value := items.map fun e => valueNewAuto e.kv.value

def ownItems (name n : Text) (items : List Item) : List Item :=
  items.filter fun e => e.sectionName = name ∧ e.kv.key = n

def inheritedItems (name n : Text) (items : List Item) : List Item :=
  items.filter fun e => e.sectionName ≠ name ∧ e.kv.key = n

/-- What the class `name` has stored as attribute `n` once the items are seen. -/
inductive Resolves (name n : Text) (seen : List Item) : Option Att → Prop where
  | absent (own : ownItems name n seen = []) (inh : inheritedItems name n seen = []) :
      Resolves name n seen none
  | derived (origin : Text) (foreign : origin ≠ name) (own : ownItems name n seen = [])
      (inh : inheritedItems name n seen ≠ []) :
      Resolves name n seen (some ⟨n, values (inheritedItems name n seen), some 0, some origin⟩)
  | own (own : ownItems name n seen ≠ []) :
      Resolves name n seen (some ⟨n, values (ownItems name n seen), some 0, some name⟩)

section Step
variable (name : Text) {n : Text} (seen : List Item) {e : Item}

theorem ownItems_concat (h : e.sectionName = name) (hk : e.kv.key = n) :
    ownItems name n (seen ++ [e]) = ownItems name n seen ++ [e] := by
  simp [ownItems, h, hk]

theorem ownItems_concat_of_ne (h : e.sectionName ≠ name ∨ e.kv.key ≠ n) :
    ownItems name n (seen ++ [e]) = ownItems name n seen := by
  rcases h with h | h <;> simp [ownItems, h]

theorem inheritedItems_concat (h : e.sectionName ≠ name) (hk : e.kv.key = n) :
    inheritedItems name n (seen ++ [e]) = inheritedItems name n seen ++ [e] := by
  simp [inheritedItems, h, hk]

theorem inheritedItems_concat_of_ne (h : e.sectionName = name ∨ e.kv.key ≠ n) :
    inheritedItems name n (seen ++ [e]) = inheritedItems name n seen := by
  rcases h with h | h <;> simp [inheritedItems, h]

variable {name seen}

theorem Resolves.other {r : Option Att} (h : Resolves name n seen r) (hk : e.kv.key ≠ n) :
    Resolves name n (seen ++ [e]) r := by
  have ho := ownItems_concat_of_ne name seen (.inr hk)
  have hi := inheritedItems_concat_of_ne name seen (.inr hk)
  cases h with
  | absent own inh => exact .absent (ho.trans own) (hi.trans inh)
  | derived origin foreign own inh =>
    rw [← hi] at inh ⊢
    exact .derived origin foreign (ho.trans own) inh
  | own own =>
    rw [← ho] at own ⊢
    exact .own own

theorem values_concat (items : List Item) (e : Item) :
    values (items ++ [e]) = values items ++ [valueNewAuto e.kv.value] := by
  simp [values]

theorem values_ne_nil {items : List Item} (h : items ≠ []) : values items ≠ [] := by
  simpa [values] using h

/-- An own entry creates the attribute, replaces inherited values or is added
    to the own ones. -/
theorem Resolves.place_own {c : Composer} (hc : c.name = name) (hs : e.sectionName = name)
    (h : Resolves name e.kv.key seen (pathcompRetrieveAtt c e.kv.key)) :
    Resolves name e.kv.key (seen ++ [e]) (pathcompRetrieveAtt (place c e) e.kv.key) := by
  have ho := ownItems_concat name seen hs (rfl : e.kv.key = e.kv.key)
  have hnew : inherited c (some e.sectionName) = false := by simp [inherited, hc, hs]
  have hfirst (own : ownItems name e.kv.key seen = []) :
      Resolves name e.kv.key (seen ++ [e])
        (some ⟨e.kv.key, [valueNewAuto e.kv.value], some 0, some e.sectionName⟩) := by
    have hv : values (ownItems name e.kv.key (seen ++ [e])) = [valueNewAuto e.kv.value] := by
      rw [ho, own]
      rfl
    rw [hs, ← hv]
    exact .own (by rw [ho]; simp)
  rw [retrieve_place, hnew]
  generalize pathcompRetrieveAtt c e.kv.key = r at h
  cases h with
  | absent own inh => exact hfirst own
  | derived origin foreign own inh =>
    have hold : inherited c (some origin) = true := by simp [inherited, hc, foreign]
    simp only [hold]
    exact hfirst own
  | own own =>
    have hold : inherited c (some name) = false := by simp [inherited, hc]
    simp only [hold]
    show Resolves _ _ _ (some (attAddValue _ _))
    rw [attAddValue_alternatives (values_ne_nil own)]
    simp only [← values_concat, ← ho]
    exact .own (by rw [ho]; simp)

/-- An inherited entry creates the attribute, is added to inherited values or
    is dropped. -/
theorem Resolves.place_inherited {c : Composer} (hc : c.name = name) (hs : e.sectionName ≠ name)
    (h : Resolves name e.kv.key seen (pathcompRetrieveAtt c e.kv.key)) :
    Resolves name e.kv.key (seen ++ [e]) (pathcompRetrieveAtt (place c e) e.kv.key) := by
  have ho := ownItems_concat_of_ne name seen (.inl hs : _ ∨ e.kv.key ≠ e.kv.key)
  have hi := inheritedItems_concat name seen hs (rfl : e.kv.key = e.kv.key)
  have hnew : inherited c (some e.sectionName) = true := by simp [inherited, hc, hs]
  rw [retrieve_place, hnew]
  generalize pathcompRetrieveAtt c e.kv.key = r at h
  cases h with
  | absent own inh =>
    have hv : values (inheritedItems name e.kv.key (seen ++ [e])) = [valueNewAuto e.kv.value] := by
      rw [hi, inh]
      rfl
    show Resolves _ _ _ (some ⟨_, [_], some 0, some e.sectionName⟩)
    rw [← hv]
    exact .derived e.sectionName hs (ho.trans own) (by rw [hi]; simp)
  | derived origin foreign own inh =>
    have hold : inherited c (some origin) = true := by simp [inherited, hc, foreign]
    simp only [hold]
    show Resolves _ _ _ (some (attAddValue _ _))
    rw [attAddValue_alternatives (values_ne_nil inh)]
    simp only [← values_concat, ← hi]
    exact .derived origin foreign (ho.trans own) (by rw [hi]; simp)
  | own own =>
    have hold : inherited c (some name) = false := by simp [inherited, hc]
    simp only [hold]
    show Resolves _ _ _ (some _)
    rw [← ho] at own ⊢
    exact .own own

theorem Resolves.place {c : Composer} (hc : c.name = name) (e : Item)
    (h : Resolves name n seen (pathcompRetrieveAtt c n)) :
    Resolves name n (seen ++ [e]) (pathcompRetrieveAtt (place c e) n) := by
  by_cases hk : e.kv.key = n
  · subst hk
    by_cases hs : e.sectionName = name
    · exact h.place_own hc hs
    · exact h.place_inherited hc hs
  · rw [retrieve_place_of_ne c e hk]
    exact h.other hk

end Step

theorem foldl_place_resolves {name : Text} (n : Text) {seen : List Item} (items : List Item)
    {c : Composer} (hc : c.name = name) (h : Resolves name n seen (pathcompRetrieveAtt c n)) :
    Resolves name n (seen ++ items) (pathcompRetrieveAtt (items.foldl place c) n) := by
  induction items generalizing seen c with
  | nil => simpa using h
  | cons e items ih =>
    have hstep := ih ((place_name c e).trans hc) (h.place hc e)
    rwa [List.append_assoc, List.singleton_append] at hstep

/-- Every attribute of a new composer, in terms of the whole expansion. -/
theorem pathcompNew_resolves {config : Option Cf} {depth : ℕ} {name : Text} {c : Composer}
    (h : pathcompNew config depth name = .ok c) :
    ∃ out, Expands config (entriesOf config name) out ∧
      ∀ n, Resolves name n out (pathcompRetrieveAtt c n) := by
  obtain ⟨out, hout, ha⟩ := pathcompNew_expand h
  refine ⟨out, hout, fun n => ?_⟩
  have hempty : Resolves name n [] (pathcompRetrieveAtt (blank name) n) := .absent rfl rfl
  have hf := foldl_place_resolves (c := blank name) n out rfl hempty
  unfold pathcompRetrieveAtt at *
  rw [ha]
  exact hf

/-- References that do not lead back to `name` bring in no entry of `name`. -/
theorem expands_own_eq {config : Option Cf} (name : Text) {xs out : List Item}
    (h : Expands config xs out)
    (hx : ∀ e ∈ xs, e.kv.key = attCopy →
      ¬ ReflTransGen (CopiesFrom config) e.kv.value name) :
    out.filter (·.sectionName = name) = xs.filter (·.sectionName = name) := by
  induction h with
  | nil => rfl
  | plain hk _ ih =>
    have htail := ih fun e he => hx e (by simp [he])
    rw [List.filter_cons, List.filter_cons, htail]
  | @copy e rest out hk _ ih =>
    have hback := hx e (by simp) hk
    have hinner : ∀ e' ∈ entriesOf config e.kv.value, e'.kv.key = attCopy →
        ¬ ReflTransGen (CopiesFrom config) e'.kv.value name :=
      fun e' he' hk' hr => hback (.head ⟨e', he', hk', rfl⟩ hr)
    have hnone : (entriesOf config e.kv.value).filter (·.sectionName = name) = [] := by
      refine List.filter_eq_nil_iff.mpr fun e' he' => ?_
      rw [mem_entriesOf he']
      intro hn
      have hn' : e.kv.value = name := by simpa using hn
      exact hback (hn' ▸ .refl)
    have htail := ih fun e' he' hk' => by
      rcases List.mem_append.mp he' with he' | he'
      · exact hinner e' he' hk'
      · exact hx e' (by simp [he']) hk'
    rw [List.filter_cons, List.filter_cons, htail, List.filter_append, hnone, List.nil_append]

theorem ownItems_expansion {config : Option Cf} {name : Text} {out : List Item} (n : Text)
    (hc : NoCycleFrom (CopiesFrom config) name)
    (h : Expands config (entriesOf config name) out) :
    ownItems name n out = (entriesOf config name).filter (·.kv.key = n) := by
  have hown := expands_own_eq name h fun e he hk hr =>
    hc name .refl (TransGen.head'_iff.mpr ⟨e.kv.value, ⟨e, he, hk, rfl⟩, hr⟩)
  have hall : (entriesOf config name).filter (·.sectionName = name) = entriesOf config name :=
    List.filter_eq_self.mpr fun e he => by simpa using mem_entriesOf he
  have hsplit : ownItems name n out =
      (out.filter (·.sectionName = name)).filter (·.kv.key = n) := by
    rw [List.filter_filter, ownItems]
    refine List.filter_congr fun e _ => ?_
    rw [Bool.decide_and, Bool.and_comm]
  rw [hsplit, hown, hall]

/-- Own entries of the class decide an attribute, wherever copy-from stands;
    without any, the ancestors contribute in the order of the expansion. -/
theorem attribute_resolution (config : Option Cf) (name : Text)
    (h : NoCycleFrom (CopiesFrom config) name) :
    (∃ depth, ∀ m, depth ≤ m → ∃ c, pathcompNew config m name = .ok c) ∧
    ∃ out, Expands config (entriesOf config name) out ∧
      ∀ depth c, pathcompNew config depth name = .ok c → ∀ n,
        let own := (entriesOf config name).filter (·.kv.key = n)
        let inherited := out.filter fun e => e.sectionName ≠ name ∧ e.kv.key = n
        (own ≠ [] → ∃ att, pathcompRetrieveAtt c n = some att ∧
          att.alternatives = own.map (fun e => valueNewAuto e.kv.value) ∧
          att.origin = some name ∧ att.current = some 0) ∧
        (own = [] →
          (pathcompRetrieveAtt c n = none ↔ inherited = []) ∧
          ∀ att, pathcompRetrieveAtt c n = some att →
            att.alternatives = inherited.map (fun e => valueNewAuto e.kv.value) ∧
            att.current = some 0) := by
  obtain ⟨k, hk⟩ := pathcompNew_finishes ((descends_iff_acyclic config name).mpr h)
  refine ⟨⟨k, hk⟩, ?_⟩
  obtain ⟨c₀, hc₀⟩ := hk k le_rfl
  obtain ⟨out, hout, _⟩ := pathcompNew_resolves hc₀
  refine ⟨out, hout, fun depth c hc n => ?_⟩
  obtain ⟨out', hout', hres⟩ := pathcompNew_resolves hc
  cases hout.unique hout'
  have hown := ownItems_expansion n h hout
  have hn := hres n
  generalize pathcompRetrieveAtt c n = r at hn
  intro own inherited
  change _ = own at hown
  rw [← hown]
  cases hn with
  | absent own inh =>
    exact ⟨fun ho => absurd own ho, fun _ => ⟨iff_of_true rfl inh, by simp⟩⟩
  | derived origin foreign own inh =>
    refine ⟨fun ho => absurd own ho, fun _ => ⟨iff_of_false (by simp) inh, ?_⟩⟩
    intro att hatt
    cases hatt
    exact ⟨rfl, rfl⟩
  | own own => exact ⟨fun _ => ⟨_, rfl, rfl, rfl, rfl⟩, fun ho => absurd ho own⟩

def imageConfig : Cf :=
  ⟨[⟨ascii "file", [⟨ascii "root", ascii "/srv"⟩, ⟨ascii "extension", ascii ".txt"⟩]⟩,
    ⟨ascii "image", [⟨ascii "copy-from", ascii "file"⟩,
      ⟨ascii "extension", ascii ".png"⟩]⟩,
    ⟨ascii "file", [⟨ascii "root", ascii "/opt"⟩]⟩]⟩

theorem image_acyclic : NoCycleFrom (CopiesFrom (some imageConfig)) (ascii "image") := by
  obtain ⟨c, hc⟩ : ∃ c, pathcompNew (some imageConfig) 2 (ascii "image") = .ok c :=
    ⟨_, rfl⟩
  exact (descends_iff_acyclic _ _).mp (pathcompNew_descends hc)

theorem attribute_resolution_image :
    NoCycleFrom (CopiesFrom (some imageConfig)) (ascii "image") ∧
      ∃ depth c att, pathcompNew (some imageConfig) depth (ascii "image") = .ok c ∧
        pathcompRetrieveAtt c (ascii "extension") = some att ∧
        att.alternatives = [.string (ascii ".png")] := by
  refine ⟨image_acyclic, ?_⟩
  obtain ⟨⟨k, hk⟩, out, _, hall⟩ := attribute_resolution _ _ image_acyclic
  obtain ⟨c, hc⟩ := hk k le_rfl
  obtain ⟨att, hr, ha, _⟩ := (hall k c hc (ascii "extension")).1 (by decide)
  exact ⟨k, c, att, hc, hr, by rw [ha]; decide⟩

end Pathcomp.Resolution
