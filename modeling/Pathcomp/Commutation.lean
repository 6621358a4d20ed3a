import Pathcomp.History
import Pathcomp.Observations

set_option autoImplicit false

/-!
# Updates of different attributes commute

The order of the attributes of a composer decides in which order its combinations are
visited, and nothing else. Two histories that agree on the calls for each single name,
but interleave them in different ways, lead to the same values, the same pathname and
the same pathnames over a whole iteration.
-/
namespace Pathcomp.Commutation
open Bytes Buffer Config Values Attributes Composers Evaluation Purity Reachability Odometer Wheels
open Iteration Search Traversal Resolution History Observations

def SameValues (c d : Composer) : Prop :=
  ∀ name, (currentValue c name).map Value.erase = (currentValue d name).map Value.erase

/-- The result is a function of the current values. -/
def ByValue {α : Type} (eval : Composer → α × Composer) : Prop :=
  ∀ c d, SameValues c d → (eval c).1 = (eval d).1

theorem SameValues.of_erase {c c' d d' : Composer} (h : SameValues c d) (hc : c'.erase = c.erase)
    (hd : d'.erase = d.erase) : SameValues c' d' := by
  intro name
  rw [← currentValue_erase, ← currentValue_erase, hc, hd, currentValue_erase,
    currentValue_erase]
  exact h name

theorem SameValues.after {α : Type} {eval : Composer → α × Composer} (hp : Pure eval)
    {c d : Composer} (h : SameValues c d) : SameValues (eval c).2 (eval d).2 :=
  h.of_erase (hp.frame c) (hp.frame d)

theorem luaCode_run_byValue {push : Composer → Text → LuaObject × Composer}
    (hp : ∀ name, Pure (push · name)) (hv : ∀ name, ByValue (push · name)) (chunk : LuaCode) :
    ByValue (chunk.run push) := by
  induction chunk with
  | finish result => exact fun c d _ => rfl
  | index name resume ih =>
    intro c d h
    have hobject : (push c name).1 = (push d name).1 := hv name c d h
    simp only [LuaCode.run, hobject]
    exact ih _ _ _ (h.after (hp name))

theorem byValue_of_currentValue {α : Type} (name : Text) (eval : Composer → α × Composer)
    (absent : α) (onValue : Composer → Value → α × Composer)
    (hnone : ∀ c, currentValue c name = none → eval c = (absent, c))
    (hsome : ∀ c v, currentValue c name = some v → eval c = onValue c v)
    (hv : ∀ v w : Value, v.erase = w.erase → ∀ c d : Composer, SameValues c d →
      (onValue c v).1 = (onValue d w).1) : ByValue eval := by
  intro c d h
  have hname := h name
  cases hc : currentValue c name with
  | none =>
    rw [hc, Option.map_none] at hname
    rw [hnone c hc, hnone d (Option.map_eq_none_iff.mp hname.symm)]
  | some v =>
    rw [hc, Option.map_some] at hname
    obtain ⟨w, hw, hvw⟩ := Option.map_eq_some_iff.mp hname.symm
    rw [hsome c v hc, hsome d w hw]
    exact hv v w hvw.symm c d h

theorem erase_cases {v w : Value} (h : v.erase = w.erase) :
    (∃ text, v = .string text ∧ w = .string text) ∨
    (∃ source r r', v = .lua source r ∧ w = .lua source r') ∨
    ∃ integer r r', v = .int integer r ∧ w = .int integer r' := by
  cases v <;> cases w <;> simp_all [Value.erase]

theorem pathcompPushValue_byValue {evalLua : Composer → Text → Text → Option Text × Composer}
    (hl : ∀ name source, ByValue (evalLua · name source)) (name : Text) :
    ByValue (pathcompPushValue evalLua · name) := by
  refine byValue_of_currentValue name _ .nil (valuePush evalLua · name) (fun c h => push_none h)
    (fun c v h => push_some h) fun v w hvw c d h => ?_
  rcases erase_cases hvw with ⟨text, rfl, rfl⟩ | ⟨source, r, r', rfl, rfl⟩ |
    ⟨integer, r, r', rfl, rfl⟩
  · rfl
  · exact congrArg luaPushstring (hl name source c d h)
  · rfl

theorem valueEvalLua_byValue (lua : Lua) (depth : ℕ) (name source : Text) :
    ByValue (valueEvalLua lua depth · name source) := by
  induction depth generalizing name source with
  | zero => exact fun c d _ => rfl
  | succ depth ih =>
    exact luaCode_run_byValue (pathcompPushValue_pure (valueEvalLua_pure lua depth))
      (pathcompPushValue_byValue ih) (lua source)

theorem pathcompEvalNocopy_byValue (lua : Lua) (depth : ℕ) (name : Text) :
    ByValue (pathcompEvalNocopy lua depth · name) := by
  refine byValue_of_currentValue name _ none (valueEval (valueEvalLua lua depth) · name)
    (fun c h => evalNocopy_none h) (fun c v h => evalNocopy_some h) fun v w hvw c d h => ?_
  rcases erase_cases hvw with ⟨text, rfl, rfl⟩ | ⟨source, r, r', rfl, rfl⟩ |
    ⟨integer, r, r', rfl, rfl⟩
  · rfl
  · exact valueEvalLua_byValue lua depth name source c d h
  · rfl

theorem pathcompEval_byValue (lua : Lua) (depth : ℕ) (name : Text) :
    ByValue (pathcompEval lua depth · name) :=
  fun c d h => congrArg (Option.map cstr) (pathcompEvalNocopy_byValue lua depth name c d h)

theorem pathcompYield_byValue (lua : Lua) (depth : ℕ) : ByValue (pathcompYield lua depth) := by
  intro c d h
  have hroot := pathcompEvalNocopy_byValue lua depth attRoot c d h
  have hcompose := pathcompEvalNocopy_byValue lua depth attCompose _ _
    (h.after (pathcompEvalNocopy_pure lua depth attRoot))
  simp only [pathcompYield_eq, hroot, hcompose]

theorem mem_iff_find {atts : List Att} (hn : (atts.map Att.name).Nodup) (name : Text) (att : Att) :
    atts.find? (attNameEqualTo name) = some att ↔ att ∈ atts ∧ att.name = name := by
  induction atts with
  | nil => simp
  | cons first atts ih =>
    rw [List.map_cons, List.nodup_cons] at hn
    by_cases hname : first.name = name
    · rw [List.find?_cons_of_pos (by simpa [attNameEqualTo] using hname), Option.some_inj,
        List.mem_cons]
      constructor
      · rintro rfl
        exact ⟨.inl rfl, hname⟩
      · rintro ⟨rfl | hm, ha⟩
        · rfl
        · exact absurd (List.mem_map.mpr ⟨att, hm, ha.trans hname.symm⟩) hn.1
    · rw [List.find?_cons_of_neg (by simpa [attNameEqualTo] using hname), ih hn.2, List.mem_cons]
      constructor
      · rintro ⟨hm, ha⟩
        exact ⟨.inr hm, ha⟩
      · rintro ⟨rfl | hm, ha⟩
        · exact absurd ha hname
        · exact ⟨hm, ha⟩

theorem find_perm {atts atts' : List Att} (hp : atts.Perm atts') (hn : (atts.map Att.name).Nodup)
    (name : Text) : atts.find? (attNameEqualTo name) = atts'.find? (attNameEqualTo name) := by
  have hn' : (atts'.map Att.name).Nodup := (hp.map Att.name).nodup_iff.mp hn
  refine Option.ext fun att => ?_
  rw [mem_iff_find hn, mem_iff_find hn', hp.mem_iff]

theorem perm_of_find {atts atts' : List Att} (hn : (atts.map Att.name).Nodup)
    (hn' : (atts'.map Att.name).Nodup)
    (h : ∀ name, atts.find? (attNameEqualTo name) = atts'.find? (attNameEqualTo name)) :
    atts.Perm atts' := by
  refine (List.perm_ext_iff_of_nodup hn.of_map hn'.of_map).mpr fun att => ?_
  have hfind := h att.name
  constructor
  · intro hm
    rw [(mem_iff_find hn att.name att).mpr ⟨hm, rfl⟩] at hfind
    exact ((mem_iff_find hn' att.name att).mp hfind.symm).1
  · intro hm
    rw [(mem_iff_find hn' att.name att).mpr ⟨hm, rfl⟩] at hfind
    exact ((mem_iff_find hn att.name att).mp hfind).1

/-- The attribute without its results and its origin. -/
def bare (att : Att) : Att := { att.erase with origin := none }

/-- The composer reduced to what evaluation can see. -/
def bareOf (atts : List Att) : Composer := { blank [] with attributes := atts.map bare }

theorem bare_names (atts : List Att) : (atts.map bare).map Att.name = atts.map Att.name := by
  rw [List.map_map]
  rfl

theorem sameValues_bare (c : Composer) : SameValues c (bareOf c.attributes) := by
  intro name
  have hbare : currentValue (bareOf c.attributes) name = currentValue c.erase name := by
    unfold currentValue pathcompRetrieveAtt Composer.erase bareOf
    rw [List.find?_map, List.find?_map]
    cases hfind : c.attributes.find? (attNameEqualTo name ∘ bare) with
    | none =>
      have herase : c.attributes.find? (attNameEqualTo name ∘ Att.erase) = none := hfind
      rw [herase]
      rfl
    | some att =>
      have herase : c.attributes.find? (attNameEqualTo name ∘ Att.erase) = some att := hfind
      rw [herase]
      rfl
  rw [hbare, currentValue_erase, Option.map_map]
  cases currentValue c name with
  | none => rfl
  | some v => exact congrArg some (Value.erase_erase v).symm

theorem sameValues_perm {atts atts' : List Att} (hn : (atts.map Att.name).Nodup)
    (hp : (atts.map bare).Perm (atts'.map bare)) : SameValues (bareOf atts) (bareOf atts') := by
  intro name
  unfold currentValue pathcompRetrieveAtt bareOf
  rw [find_perm hp (by rwa [bare_names])]

theorem SameValues.symm {c d : Composer} (h : SameValues c d) : SameValues d c :=
  fun name => (h name).symm

theorem SameValues.trans {c d e : Composer} (h : SameValues c d) (h' : SameValues d e) :
    SameValues c e := fun name => (h name).trans (h' name)

theorem sameValues_of_perm {c d : Composer} (hn : (c.attributes.map Att.name).Nodup)
    (hp : (c.attributes.map bare).Perm (d.attributes.map bare)) : SameValues c d :=
  ((sameValues_bare c).trans (sameValues_perm hn hp)).trans (sameValues_bare d).symm

/-- The attribute at each of its alternatives. -/
def settings (att : Att) : List Att :=
  (List.range att.alternatives.length).map fun p => { att with current := some p }

theorem sections_settings (atts : List Att) : (atts.map settings).sections =
    ((radices atts).map List.range).sections.map (setPositions atts) := by
  induction atts with
  | nil => rfl
  | cons att atts ih =>
    simp only [radices, List.map_cons, List.sections] at ih ⊢
    rw [ih, List.map_flatMap, List.flatMap_map]
    refine List.flatMap_congr fun ps _ => ?_
    rw [settings, List.map_map, List.map_map]
    rfl

theorem sections_names {atts r : List Att} (h : r ∈ (atts.map settings).sections) :
    r.map Att.name = atts.map Att.name := by
  rw [sections_settings] at h
  obtain ⟨ps, hps, rfl⟩ := List.mem_map.mp h
  refine setPositions_keeps Att.name (fun _ _ => rfl) ?_
  rw [List.mem_sections_length hps, List.length_map, radices_length]

theorem setPositions_bare (atts : List Att) (ps : List ℕ) :
    (setPositions atts ps).map bare = setPositions (atts.map bare) ps := by
  induction atts generalizing ps with
  | nil => rfl
  | cons att atts ih =>
    cases ps with
    | nil => rfl
    | cons p ps =>
      rw [List.map_cons, setPositions, setPositions, List.map_cons, ih]
      rfl

theorem radices_bare (atts : List Att) : radices (atts.map bare) = radices atts := by
  simp [radices, bare, Att.erase]

section Paths
variable (lua : Lua) (depth : ℕ)

/-- The pathname of these attributes. -/
def pathOf (atts : List Att) : Option Text := (pathcompYield lua depth (bareOf atts)).1

theorem pathOf_perm {atts atts' : List Att} (hn : (atts.map Att.name).Nodup)
    (hp : atts.Perm atts') : pathOf lua depth atts = pathOf lua depth atts' :=
  pathcompYield_byValue lua depth _ _ (sameValues_perm hn (hp.map bare))

theorem pathOf_bare (c : Composer) :
    (pathcompYield lua depth c).1 = pathOf lua depth (c.attributes.map bare) :=
  pathcompYield_byValue lua depth _ _
    ((sameValues_bare c).trans (sameValues_bare (bareOf c.attributes)))

/-- The composer has just been made or rewound. -/
structure Rewound (c : Composer) : Prop where
  representation : Representation c
  done : c.done = false
  started : c.started = false
  first : ∀ att ∈ c.attributes, att.AtFirst

theorem Rewound.after_eq {c : Composer} (h : Rewound c) {k : ℕ} (hk : k < combinationCount c) :
    after k c = moveTo c (reading (radices c.attributes) k) := by
  have hzero := combinationIndex_fresh h.representation h.first
  obtain ⟨ps, hw, hv, ha⟩ := after_moveTo h.representation h.done (k := k) (by omega)
  rw [hzero, Nat.zero_add] at hv
  rw [ha, value_injective hw (reading_within hk) (hv.trans (value_reading hk).symm)]

/-- The pathnames in the order of the iteration. -/
def paths (c : Composer) : List (Option Text) :=
  (List.range (combinationCount c)).map (pathAt lua depth c)

theorem Rewound.paths_eq {c : Composer} (h : Rewound c) : paths lua depth c =
    ((c.attributes.map bare).map settings).sections.map (pathOf lua depth) := by
  rw [sections_settings, radices_bare, ← readings_eq_sections, List.map_map, List.map_map]
  refine List.map_congr_left fun k hk => ?_
  rw [pathAt, h.after_eq (List.mem_range.mp hk), pathOf_bare]
  exact congrArg (pathOf lua depth) (setPositions_bare _ _)

theorem Rewound.paths_perm {c d : Composer} (hc : Rewound c) (hd : Rewound d)
    (hp : (c.attributes.map bare).Perm (d.attributes.map bare)) :
    (paths lua depth c).Perm (paths lua depth d) := by
  rw [hc.paths_eq, hd.paths_eq]
  refine map_sections_perm (hp.map settings) fun r hr r' hr' => pathOf_perm lua depth ?_ hr'
  rw [sections_names hr, bare_names]
  exact hc.representation.names

/-- The pathnames that repeated calls of `pathcomp_find` return. -/
theorem Rewound.found {c : Composer} (h : Rewound c) (pathExists : Text → Bool) {fuel n : ℕ}
    (hfuel : combinationCount c < fuel) (hn : combinationCount c ≤ n) :
    ∃ x, findTimes lua depth pathExists fuel n c =
      .ok (((paths lua depth c).filter (·.any pathExists)) ++
        .replicate (n - ((paths lua depth c).filter (·.any pathExists)).length) none, x) := by
  have hzero := combinationIndex_fresh h.representation h.first
  have hlt := combinationIndex_lt h.representation
  have hremaining : remaining c = combinationCount c := by
    rw [remaining, hzero, Nat.sub_zero]
  have hposition : (if c.started then 1 else 0) = 0 := by
    rw [h.started]
    rfl
  have hhits : (hitsFrom lua depth pathExists c 0).map (pathAt lua depth c) =
      (paths lua depth c).filter (·.any pathExists) := by
    have hhit : hit lua depth pathExists c = (·.any pathExists) ∘ pathAt lua depth c := by
      funext k
      unfold hit
      cases hpath : pathAt lua depth c k with
      | none => simp [hpath]
      | some path => simp [hpath]
    rw [hitsFrom, hremaining, Nat.sub_zero, ← List.range_eq_range', hhit, paths, List.filter_map]
  have hlength : (hitsFrom lua depth pathExists c 0).length ≤ combinationCount c := by
    rw [← hremaining]
    refine (List.length_filter_le _ _).trans ?_
    rw [List.length_range', Nat.sub_zero]
  obtain ⟨m, rfl⟩ : ∃ m, n = m + 1 := ⟨n - 1, by omega⟩
  have hpoised := poised_start c
  rw [hposition] at hpoised
  have hbound : remaining c < fuel := by omega
  obtain ⟨x, hx, _⟩ := findTimes_poised lua depth pathExists h.representation h.done hpoised
    hbound m
  refine ⟨x, hx.trans ?_⟩
  rw [← hhits, pathsFrom, List.length_map,
    List.take_of_length_le (by rw [List.length_map]; omega)]

end Paths

theorem record_other {n : Text} {op : Op} (h : target op ≠ some n) (values : List Value) :
    record n values op = values := by
  cases op with
  | set name value | setInt name value | add name value | addInt name value =>
    have hn : name ≠ n := fun hn => h (congrArg some hn)
    simp [record, setValue, addValue, hn]
  | next | done | rewind | eval | yield | find | mkdir => simp [record, setValue, addValue]

theorem expected_filter (n : Text) (initial : List Value) (ops : List Op) :
    expected n initial ops = expected n initial (ops.filter fun op => target op = some n) := by
  induction ops generalizing initial with
  | nil => rfl
  | cons op ops ih =>
    by_cases h : target op = some n
    · rw [List.filter_cons_of_pos (by simpa using h), expected_cons, expected_cons, ih]
    · rw [List.filter_cons_of_neg (by simpa using h), expected_cons, record_other h, ih]

/-- The attribute of a name after `pathcomp_rewind`. -/
def firstOf (name : Text) (values : List Value) : Att := ⟨name, values, listFirst values, none⟩

theorem bare_rewind (att : Att) :
    bare (attRewind att) = firstOf att.name (att.alternatives.map Value.erase) := by
  simp [bare, attRewind, Att.erase, firstOf, listFirst]

theorem find_rewind {c : Composer} (hc : Representation c) (name : Text) :
    ((pathcompRewind c).attributes.map bare).find? (attNameEqualTo name) =
      if sourcesOf c name = [] then none else some (firstOf name (sourcesOf c name)) := by
  have hrewind : (pathcompRewind c).attributes.map bare =
      c.attributes.map fun att => firstOf att.name (att.alternatives.map Value.erase) := by
    rw [pathcompRewind, List.map_map]
    exact List.map_congr_left fun att _ => bare_rewind att
  rw [hrewind, List.find?_map]
  have hretrieve : c.attributes.find? (attNameEqualTo name ∘
      fun att => firstOf att.name (att.alternatives.map Value.erase)) =
      pathcompRetrieveAtt c name := rfl
  rw [hretrieve]
  cases hr : pathcompRetrieveAtt c name with
  | none => rw [if_pos ((sourcesOf_nil_iff hc name).mp hr), Option.map_none]
  | some att =>
    have hne : sourcesOf c name ≠ [] := by
      intro hnil
      rw [(sourcesOf_nil_iff hc name).mpr hnil] at hr
      cases hr
    have hname : att.name = name := by simpa [attNameEqualTo] using List.find?_some hr
    rw [if_neg hne, Option.map_some, sourcesOf, hr, hname]
    rfl

theorem rewound {c : Composer} (hc : Representation c) : Rewound (pathcompRewind c) where
  representation := pathcompRewind_representation hc
  done := rfl
  started := rfl
  first := by
    intro att hatt
    obtain ⟨att', _, rfl⟩ := List.mem_map.mp hatt
    rfl

/-- Composers that hold the same values under each name differ, after a rewind, in the
    order of their attributes only. -/
theorem rewind_perm {c d : Composer} (hc : Representation c) (hd : Representation d)
    (h : ∀ name, sourcesOf c name = sourcesOf d name) :
    ((pathcompRewind c).attributes.map bare).Perm ((pathcompRewind d).attributes.map bare) := by
  refine perm_of_find ?_ ?_ fun name => ?_
  · rw [bare_names]
    exact (pathcompRewind_representation hc).names
  · rw [bare_names]
    exact (pathcompRewind_representation hd).names
  · rw [find_rewind hc, find_rewind hd, h name]

theorem combinationCount_perm {c d : Composer}
    (hp : (c.attributes.map bare).Perm (d.attributes.map bare)) :
    combinationCount c = combinationCount d := by
  unfold combinationCount
  rw [← radices_bare c.attributes, ← radices_bare d.attributes]
  exact (hp.map fun att => att.alternatives.length).prod_eq

/-- Two histories of a composer in which each name has the same updates in the same
    order, interleaved in any way with each other and with any other calls: after a
    rewind the composers have the same values and the same pathname, an iteration comes
    to the same pathnames equally often, and a search finds the same ones. -/
theorem update_order_irrelevant (config : Option Cf) (c d e : Composer) (ops ops' : List Op)
    (hc : Reachable config c) (hd : Run c ops d) (he : Run c ops' e)
    (hsame : ∀ n, (ops.filter fun op => target op = some n) =
      ops'.filter fun op => target op = some n) (lua : Lua) (depth : ℕ) :
    (∀ name, (pathcompEval lua depth (pathcompRewind d) name).1 =
      (pathcompEval lua depth (pathcompRewind e) name).1) ∧
    (pathcompYield lua depth (pathcompRewind d)).1 =
      (pathcompYield lua depth (pathcompRewind e)).1 ∧
    combinationCount (pathcompRewind d) = combinationCount (pathcompRewind e) ∧
    (paths lua depth (pathcompRewind d)).Perm (paths lua depth (pathcompRewind e)) ∧
    ∀ pathExists fuel n, combinationCount (pathcompRewind d) < fuel →
      combinationCount (pathcompRewind d) ≤ n → ∃ found found' x y,
        findTimes lua depth pathExists fuel n (pathcompRewind d) = .ok (found, x) ∧
        findTimes lua depth pathExists fuel n (pathcompRewind e) = .ok (found', y) ∧
        found.Perm found' := by
  have hrd := hd.representation hc.representation
  have hre := he.representation hc.representation
  have hsources (n : Text) : sourcesOf d n = sourcesOf e n := by
    rw [hd.sources hc.representation n, he.sources hc.representation n, expected_filter, hsame n,
      ← expected_filter]
  have hp := rewind_perm hrd hre hsources
  have hvalues := sameValues_of_perm (rewound hrd).representation.names hp
  have hpaths := (rewound hrd).paths_perm lua depth (rewound hre) hp
  have hcount := combinationCount_perm hp
  refine ⟨fun name => pathcompEval_byValue lua depth name _ _ hvalues,
    pathcompYield_byValue lua depth _ _ hvalues, hcount, hpaths,
    fun pathExists fuel n hfuel hn => ?_⟩
  obtain ⟨x, hx⟩ := (rewound hrd).found lua depth pathExists hfuel hn
  rw [hcount] at hfuel hn
  obtain ⟨y, hy⟩ := (rewound hre).found lua depth pathExists hfuel hn
  have hhits := hpaths.filter (·.any pathExists)
  refine ⟨_, _, x, y, hx, hy, ?_⟩
  rw [hhits.length_eq]
  exact hhits.append_right _

/-- The updates of `paletteOps` in another order, between other calls. -/
def reorderedOps : List Op :=
  [.addInt (ascii "size") 12, .add (ascii "root") (ascii "/old"), .rewind,
    .set (ascii "root") (ascii "/a"), .add (ascii "root") (ascii "/b"), .next]

theorem reordered_run : ∃ e, Run colormapComposer reorderedOps e := by
  apply idle_step rfl
  apply idle_step rfl
  apply idle_step rfl
  apply idle_step rfl
  apply idle_step rfl
  exact idle_step rfl ⟨_, .nil _⟩

theorem reordered_same (n : Text) : (paletteOps.filter fun op => target op = some n) =
    reorderedOps.filter fun op => target op = some n := by
  by_cases hroot : ascii "root" = n
  · subst hroot
    decide
  · by_cases hsize : ascii "size" = n
    · subst hsize
      decide
    · simp [paletteOps, reorderedOps, target, hroot, hsize]

theorem update_order_irrelevant_palette : ∃ d e, Run colormapComposer paletteOps d ∧
    Run colormapComposer reorderedOps e ∧
    (paths (fun _ => .finish none) 1 (pathcompRewind d)).Perm
      (paths (fun _ => .finish none) 1 (pathcompRewind e)) := by
  obtain ⟨d, hd⟩ := palette_run
  obtain ⟨e, he⟩ := reordered_run
  obtain ⟨_, _, _, hpaths, _⟩ :=
    update_order_irrelevant (some colormapConfig) colormapComposer d e
    paletteOps reorderedOps colormap_reachable hd he reordered_same (fun _ => .finish none) 1
  exact ⟨d, e, hd, he, hpaths⟩

end Pathcomp.Commutation
