import Pathcomp.Purity
import Pathcomp.Wheels

set_option autoImplicit false

/-!
# Calls on a composer and what every reachable composer satisfies

The state of the outside world is an arbitrary type `σ`: Lua chunks and `stat`
read it and `mkdir` may change it. The representation invariant is proved for
one store update, for one call and from these for every reachable composer.
-/
namespace Pathcomp.Reachability
open Bytes Config Values Attributes Composers Evaluation Purity Odometer Wheels

structure World (σ : Type) where
  lua : σ → Lua
  depth : ℕ
  stat : σ → Text → Bool
  mkdir : σ → Text → MkdirResult × σ

inductive Op where
  | set (name value : Text)
  | setInt (name : Text) (value : Int32)
  | add (name value : Text)
  | addInt (name : Text) (value : Int32)
  | next
  | done
  | rewind
  | eval (name : Text)
  | yield
  | find
  | mkdir
  deriving DecidableEq, Repr

inductive Reply where
  | void
  | flag (b : Bool)
  | string (s : Option Text)
  | status (rc : Int)
  deriving DecidableEq, Repr

def replyVoid {σ : Type} (s : σ) : Except Halt Composer → Except Halt (Reply × Composer × σ)
  | .ok composer => .ok (.void, composer, s)
  | .error halt => .error halt

/-- One public call; `fuel` bounds the rounds of `pathcomp_find`. -/
def Op.exec {σ : Type} (w : World σ) (fuel : ℕ) (composer : Composer) (s : σ) :
    Op → Except Halt (Reply × Composer × σ)
  | .set name value => replyVoid s (pathcompSet composer name value)
  | .setInt name value => replyVoid s (pathcompSetInt composer name value)
  | .add name value => replyVoid s (pathcompAdd composer name value)
  | .addInt name value => replyVoid s (pathcompAddInt composer name value)
  | .next => .ok (.flag (pathcompNext composer).1, (pathcompNext composer).2, s)
  | .done => .ok (.flag (pathcompDone composer), composer, s)
  | .rewind => .ok (.void, pathcompRewind composer, s)
  | .eval name =>
    let (result, composer) := pathcompEval (w.lua s) w.depth composer name
    .ok (.string result, composer, s)
  | .yield =>
    let (path, composer) := pathcompYield (w.lua s) w.depth composer
    .ok (.string path, composer, s)
  | .find =>
    match pathcompFind (w.lua s) w.depth (w.stat s) fuel composer with
    | .error halt => .error halt
    | .ok (path, composer) => .ok (.string path, composer, s)
  | .mkdir =>
    match pathcompMkdir (w.lua s) w.depth w.mkdir composer s with
    | .error halt => .error halt
    | .ok (rc, composer, s) => .ok (.status rc, composer, s)

inductive Reachable (config : Option Cf) : Composer → Prop where
  | new {depth : ℕ} {name : Text} {c : Composer} (h : pathcompNew config depth name = .ok c) :
      Reachable config c
  | clone {c d : Composer} (hc : Reachable config c) (h : pathcompClone c = .ok d) :
      Reachable config d
  | call {σ : Type} {w : World σ} {fuel : ℕ} {op : Op} {c d : Composer} {s t : σ} {r : Reply}
      (hc : Reachable config c) (h : op.exec w fuel c s = .ok (r, d, t)) : Reachable config d

/-- The representation invariant: distinct names, every attribute with a current
    alternative, and everything rewound once the iteration is done. -/
structure Representation (c : Composer) : Prop where
  names : (c.attributes.map Att.name).Nodup
  atts : AllValid c.attributes
  done : c.done = true → ∀ att ∈ c.attributes, att.AtFirst

theorem modifyFirst_forall {α : Type} {p : α → Bool} {f : α → α} {P : α → Prop}
    (hf : ∀ x, P x → P (f x)) {xs : List α} (h : ∀ x ∈ xs, P x) :
    ∀ x ∈ modifyFirst p f xs, P x := by
  induction xs with
  | nil => exact h
  | cons x xs ih =>
    have hx := h x (by simp)
    have ht := ih (fun y hy => h y (by simp [hy]))
    intro y hy
    unfold modifyFirst at hy
    split at hy
    · rcases List.mem_cons.mp hy with rfl | hy
      · exact hf x hx
      · exact h y (by simp [hy])
    · rcases List.mem_cons.mp hy with rfl | hy
      · exact hx
      · exact ht y hy

theorem attAddValue_name (att : Att) (value : Value) : (attAddValue att value).name = att.name := by
  unfold attAddValue
  split <;> rfl

/-- An update through the retrieved attribute that keeps its name, its validity
    and its being at the first alternative keeps the invariant. -/
theorem Representation.onAtt {c : Composer} (h : Representation c) (name : Text) {f : Att → Att}
    (hname : ∀ att, (f att).name = att.name) (hvalid : ∀ att : Att, att.Valid → (f att).Valid)
    (hfirst : ∀ att : Att, att.Valid → att.AtFirst → (f att).AtFirst) :
    Representation (c.onAtt name f) := by
  refine ⟨?_, modifyFirst_forall hvalid h.atts, ?_⟩
  · simp only [Composer.onAtt]
    rw [map_modifyFirst _ _ _ hname]
    exact h.names
  · intro hd
    have hb : ∀ att ∈ c.attributes, att.Valid ∧ att.AtFirst :=
      fun att ha => ⟨h.atts att ha, h.done hd att ha⟩
    have hm := modifyFirst_forall (p := attNameEqualTo name) (f := f)
      (P := fun att => att.Valid ∧ att.AtFirst)
      (fun att ha => ⟨hvalid att ha.1, hfirst att ha.1 ha.2⟩) hb
    exact fun att ha => (hm att ha).2

theorem Representation.push {c : Composer} (h : Representation c) {name : Text}
    (hn : pathcompRetrieveAtt c name = none) (value : Value) (origin : Option Text) :
    Representation { c with attributes := listPush c.attributes (attNew name value origin) } := by
  have hfresh : name ∉ c.attributes.map Att.name := by
    intro hm
    obtain ⟨att, ha, rfl⟩ := List.mem_map.mp hm
    have := List.find?_eq_none.mp hn att ha
    simp [attNameEqualTo] at this
  refine ⟨?_, ?_, ?_⟩
  · simp only [listPush, List.map_append, List.map_cons, List.map_nil]
    refine List.nodup_append.mpr ⟨h.names, by simp, ?_⟩
    intro a ha b hb he
    have hb' : b = name := List.mem_singleton.mp hb
    exact hfresh (hb' ▸ he ▸ ha)
  · intro att ha
    rcases List.mem_append.mp ha with ha | ha
    · exact h.atts att ha
    · rw [List.mem_singleton.mp ha]
      exact attNew_valid name value origin
  · intro hd att ha
    rcases List.mem_append.mp ha with ha | ha
    · exact h.done hd att ha
    · rw [List.mem_singleton.mp ha]
      rfl

theorem resolveAddIf_cases (old new : Bool) :
    resolveAddIf old new = .none ∨ resolveAddIf old new = .replace ∨
      resolveAddIf old new = .add := by
  cases old <;> cases new <;> simp [resolveAddIf]

/-- What one store update does. The assertion at its end is never reached. -/
theorem addOrReplace_cases (c : Composer) (name : Text) (value : Value) (origin : Option Text)
    (action : Action) :
    (pathcompRetrieveAtt c name = none ∧ pathcompAddOrReplace c name value origin action =
      .ok { c with attributes := listPush c.attributes (attNew name value origin) }) ∨
    pathcompAddOrReplace c name value origin action =
      .ok (c.onAtt name fun att => attReplaceValue att value origin) ∨
    pathcompAddOrReplace c name value origin action =
      .ok (c.onAtt name fun att => attAddValue att value) ∨
    pathcompAddOrReplace c name value origin action = .ok c := by
  unfold pathcompAddOrReplace
  cases hr : pathcompRetrieveAtt c name with
  | none => exact .inl ⟨rfl, rfl⟩
  | some att =>
    cases action with
    | add => exact .inr (.inr (.inl rfl))
    | replace => exact .inr (.inl rfl)
    | none => exact .inr (.inr (.inr rfl))
    | addIf =>
      simp only [↓reduceIte]
      rcases resolveAddIf_cases (inherited c (attGetOrigin att)) (inherited c origin) with
        h | h | h
      · simp [h]
      · simp [h]
      · simp [h]

theorem addOrReplace_ok (c : Composer) (name : Text) (value : Value) (origin : Option Text)
    (action : Action) : ∃ d, pathcompAddOrReplace c name value origin action = .ok d := by
  rcases addOrReplace_cases c name value origin action with ⟨_, h⟩ | h | h | h <;>
    exact ⟨_, h⟩

theorem addOrReplace_representation {c d : Composer} {name : Text} {value : Value}
    {origin : Option Text}
    {action : Action} (hc : Representation c)
    (h : pathcompAddOrReplace c name value origin action = .ok d) : Representation d := by
  rcases addOrReplace_cases c name value origin action with ⟨hn, he⟩ | he | he | he
  all_goals
    rw [he] at h
    cases h
  · exact hc.push hn value origin
  · exact hc.onAtt name (fun _ => rfl) (fun att _ => attReplaceValue_valid att value origin)
      (fun _ _ _ => rfl)
  · exact hc.onAtt name (fun att => attAddValue_name att value)
      (fun _ ha => attAddValue_valid ha value)
      (fun _ ha hf => attAddValue_atFirst ha.nonempty hf value)
  · exact hc

section Construction
variable {P : Composer → Prop} {config : Option Cf}

/-- A property that store updates keep is kept while the entries are added. -/
theorem addAttsFromEntries_keeps
    (step : ∀ c d name value origin, P c →
      pathcompAddOrReplace c name value origin .addIf = .ok d → P d)
    {recurse : Composer → Text → Except Halt Composer}
    (hr : ∀ c d name, P c → recurse c name = .ok d → P d) {sectionName : Text}
    {entries : List CfKv} {c d : Composer} (hc : P c)
    (h : pathcompAddAttsFromEntries recurse sectionName c entries = .ok d) : P d := by
  induction entries generalizing c with
  | nil =>
    cases h
    exact hc
  | cons kv entries ih =>
    obtain ⟨e, he⟩ := addOrReplace_ok c kv.key (valueNewAuto kv.value) (some sectionName) .addIf
    have hpe := step c e _ _ _ hc he
    simp only [pathcompAddAttsFromEntries, he] at h
    split at h
    · cases hg : recurse e kv.value with
      | error halt => simp [hg] at h
      | ok g =>
        simp only [hg] at h
        exact ih (hr e g _ hpe hg) h
    · exact ih hpe h

theorem addAttsLoop_keeps {add : Text → Composer → List CfKv → Except Halt Composer}
    (ha : ∀ c d name entries, P c → add name c entries = .ok d → P d) {sectionName : Text}
    {sections : List CfSection} {c d : Composer} (hc : P c)
    (h : addAttsLoop add sectionName c sections = .ok d) : P d := by
  induction sections generalizing c with
  | nil =>
    cases h
    exact hc
  | cons sec sections ih =>
    simp only [addAttsLoop] at h
    split at h
    · cases he : add sec.name c sec.entries with
      | error halt => simp [he] at h
      | ok e =>
        simp only [he] at h
        exact ih (ha c e _ _ hc he) h
    · exact ih hc h

theorem addAttsFromSections_keeps
    (step : ∀ c d name value origin, P c →
      pathcompAddOrReplace c name value origin .addIf = .ok d → P d)
    {depth : ℕ} {c d : Composer} {name : Text} (hc : P c)
    (h : pathcompAddAttsFromSections config depth c name = .ok d) : P d := by
  induction depth generalizing c d name with
  | zero => simp [pathcompAddAttsFromSections] at h
  | succ depth ih =>
    cases config with
    | none =>
      cases h
      exact hc
    | some cf =>
      exact addAttsLoop_keeps
        (fun _ _ _ _ hp he => addAttsFromEntries_keeps step (fun _ _ _ => ih) hp he) hc h

end Construction

theorem pathcompNew_representation {config : Option Cf} {depth : ℕ} {name : Text} {c : Composer}
    (h : pathcompNew config depth name = .ok c) : Representation c := by
  unfold pathcompNew at h
  simp only at h
  split at h
  · cases h
  · rename_i d hd
    have hr : Representation d ∧ d.done = false :=
      addAttsFromSections_keeps (P := fun d => Representation d ∧ d.done = false)
        (fun c d name value origin hp he => ⟨addOrReplace_representation hp.1 he, by
          rcases addOrReplace_cases c name value origin .addIf with ⟨_, hk⟩ | hk | hk | hk
          all_goals
            rw [hk] at he
            cases he
            exact hp.2⟩)
        ⟨⟨by simp, by simp [AllValid], by simp⟩, rfl⟩ hd
    cases h
    exact ⟨hr.1.names, hr.1.atts, fun hf => by simp at hf⟩

theorem listTransform_attClone {atts : List Att} (h : AllValid atts) :
    listTransform attClone atts = .ok atts := by
  induction atts with
  | nil => rfl
  | cons att atts ih => simp only [listTransform, attClone_valid h.head, ih h.tail]

theorem pathcompClone_eq {c : Composer} (h : Representation c) : pathcompClone c = .ok c := by
  unfold pathcompClone
  rw [listTransform_attClone h.atts]

theorem AllValid.rewind {atts : List Att} (h : AllValid atts) : AllValid (atts.map attRewind) := by
  intro att ha
  obtain ⟨a, hm, rfl⟩ := List.mem_map.mp ha
  exact attRewind_valid (h a hm)

theorem pathcompRewind_representation {c : Composer} (h : Representation c) :
    Representation (pathcompRewind c) := by
  refine ⟨?_, AllValid.rewind h.atts, fun hf => by simp [pathcompRewind] at hf⟩
  simp only [pathcompRewind, List.map_map]
  exact h.names

/-- A call of `pathcomp_next` before the end is a tick of the odometer. -/
theorem pathcompNext_tick {c : Composer} (h : Representation c) (hd : c.done = false) :
    pathcompNext c =
      let t := tick (radices c.attributes) (positions c.attributes)
      (t.1, { c with attributes := setPositions c.attributes t.2, done := !t.1 }) := by
  unfold pathcompNext
  rw [nextLoop_tick h.atts]
  cases ht : (tick (radices c.attributes) (positions c.attributes)).1 <;> simp [hd, ht]

theorem tick_length {atts : List Att} (h : AllValid atts) :
    (tick (radices atts) (positions atts)).2.length = atts.length := by
  rw [(tick_within (positions_within h)).length_eq, radices_length]

theorem pathcompNext_representation {c : Composer} (h : Representation c) :
    Representation (pathcompNext c).2 := by
  cases hd : c.done with
  | true => simpa [pathcompNext, hd] using h
  | false =>
    rw [pathcompNext_tick h hd]
    have hw := tick_within (positions_within h.atts)
    refine ⟨?_, setPositions_valid hw, ?_⟩
    · rw [setPositions_keeps Att.name (fun _ _ => rfl) (tick_length h.atts)]
      exact h.names
    · intro hdone
      have hf : (tick (radices c.attributes) (positions c.attributes)).1 = false := by
        simpa using hdone
      simp only [(tick_last (positions_within h.atts) hf).2]
      exact setPositions_zero_atFirst h.atts

theorem Att.erase_valid {att : Att} : att.erase.Valid ↔ att.Valid := by
  simp [Att.Valid, Att.erase]

theorem Att.erase_atFirst {att : Att} : att.erase.AtFirst ↔ att.AtFirst := by
  simp [Att.AtFirst, Att.erase, listFirst]

theorem representation_erase (c : Composer) : Representation c.erase ↔ Representation c := by
  have hn : c.erase.attributes.map Att.name = c.attributes.map Att.name := by
    simp [Composer.erase, Function.comp_def, Att.erase]
  have hm : ∀ P : Att → Prop, (∀ att : Att, P att.erase ↔ P att) →
      ((∀ att ∈ c.erase.attributes, P att) ↔ ∀ att ∈ c.attributes, P att) := by
    intro P hP
    simp [Composer.erase, hP]
  constructor
  · intro h
    exact ⟨hn ▸ h.names, (hm _ fun _ => Att.erase_valid).mp h.atts,
      fun hd => (hm _ fun _ => Att.erase_atFirst).mp (h.done hd)⟩
  · intro h
    exact ⟨hn ▸ h.names, (hm _ fun _ => Att.erase_valid).mpr h.atts,
      fun hd => (hm _ fun _ => Att.erase_atFirst).mpr (h.done hd)⟩

/-- The invariant does not see the caches. -/
theorem Representation.congr {c d : Composer} (h : Representation c) (he : d.erase = c.erase) :
    Representation d := (representation_erase d).mp (he ▸ (representation_erase c).mpr h)

theorem pathcompFind_representation {lua : Lua} {depth fuel : ℕ} {pathExists : Text → Bool}
    {c d : Composer} {path : Option Text} (h : Representation c)
    (hf : pathcompFind lua depth pathExists fuel c = .ok (path, d)) : Representation d := by
  induction fuel generalizing c with
  | zero => cases hf
  | succ fuel ih =>
    have hr : Representation (advance c) := by
      have hs : Representation (if c.started then (pathcompNext c).2 else c) := by
        split
        · exact pathcompNext_representation h
        · exact h
      exact ⟨hs.names, hs.atts, hs.done⟩
    have hy := hr.congr ((pathcompYield_pure lua depth).frame (advance c))
    rw [pathcompFind_succ] at hf
    split at hf
    · cases hf
      exact hr
    · split at hf
      · exact ih hy hf
      · split at hf
        · cases hf
          exact hy
        · exact ih hy hf

theorem replyVoid_ok {σ : Type} {s t : σ} {e : Except Halt Composer} {r : Reply} {d : Composer}
    (h : replyVoid s e = .ok (r, d, t)) : e = .ok d := by
  cases e with
  | error halt => cases h
  | ok c =>
    cases h
    rfl

theorem replyVoid_void {σ : Type} {s t : σ} {e : Except Halt Composer} {r : Reply} {d : Composer}
    (h : replyVoid s e = .ok (r, d, t)) : r = .void := by
  cases e with
  | error halt => cases h
  | ok c =>
    cases h
    rfl

/-- `pathcomp_mkdir` does to the composer what `pathcomp_yield` does. -/
theorem mkdir_composer {σ : Type} {w : World σ} {fuel : ℕ} {c d : Composer}
    {s t : σ} {r : Reply} (h : Op.mkdir.exec w fuel c s = .ok (r, d, t)) :
    d = (pathcompYield (w.lua s) w.depth c).2 := by
  simp only [Op.exec, pathcompMkdir] at h
  split at h
  · cases h
  · rename_i hm
    cases h
    split at hm
    · cases hm
    · split at hm
      · cases hm
      · cases hm
        rfl

theorem find_composer {σ : Type} {w : World σ} {fuel : ℕ} {c d : Composer}
    {s t : σ} {r : Reply}
    (h : Op.find.exec w fuel c s = .ok (r, d, t)) : ∃ path, r = .string path ∧
      pathcompFind (w.lua s) w.depth (w.stat s) fuel c = .ok (path, d) := by
  simp only [Op.exec] at h
  split at h
  · cases h
  · rename_i path d' hf
    cases h
    exact ⟨path, rfl, hf⟩

theorem exec_representation {σ : Type} {w : World σ} {fuel : ℕ} {op : Op} {c d : Composer}
    {s t : σ} {r : Reply} (hc : Representation c) (h : op.exec w fuel c s = .ok (r, d, t)) :
    Representation d := by
  cases op with
  | set | setInt | add | addInt => exact addOrReplace_representation hc (replyVoid_ok h)
  | next =>
    cases h
    exact pathcompNext_representation hc
  | done =>
    cases h
    exact hc
  | rewind =>
    cases h
    exact pathcompRewind_representation hc
  | eval name =>
    cases h
    exact hc.congr ((pathcompEval_pure (w.lua s) w.depth name).frame c)
  | yield =>
    cases h
    exact hc.congr ((pathcompYield_pure (w.lua s) w.depth).frame c)
  | find =>
    obtain ⟨_, _, hf⟩ := find_composer h
    exact pathcompFind_representation hc hf
  | mkdir =>
    rw [mkdir_composer h]
    exact hc.congr ((pathcompYield_pure (w.lua s) w.depth).frame c)

theorem Reachable.representation {config : Option Cf} {c : Composer} (h : Reachable config c) :
    Representation c := by
  induction h with
  | new h => exact pathcompNew_representation h
  | clone _ h ih =>
    rw [pathcompClone_eq ih] at h
    cases h
    exact ih
  | call _ h ih => exact exec_representation ih h

/-- In every reachable composer names are distinct, every attribute has its
    current pointer at one of its own alternatives, and a finished iteration is
    rewound. Evaluation sees the composer up to caches (`d`), so that neither
    `att_eval` nor `att_push` meets a NULL `current`. -/
theorem reachable_invariant (config : Option Cf) (c : Composer) (h : Reachable config c) :
    (c.attributes.map Att.name).Nodup ∧
    (∀ att ∈ c.attributes, att.alternatives ≠ [] ∧
      ∃ p < att.alternatives.length, att.current = some p) ∧
    (c.done = true → ∀ att ∈ c.attributes, att.current = some 0) ∧
    (∀ d : Composer, d.erase = c.erase → ∀ name att, pathcompRetrieveAtt d name = some att →
      att.current ≠ none ∧ ∃ v ∈ att.alternatives, attCurrentValue att = some v) ∧
    (∀ lua depth name att, pathcompRetrieveAtt c name = some att →
      ∃ v ∈ att.alternatives, pathcompEvalNocopy lua depth c name =
        valueEval (valueEvalLua lua depth) c name v) := by
  have hr := h.representation
  have hsee : ∀ d : Composer, d.erase = c.erase → ∀ name att,
      pathcompRetrieveAtt d name = some att → att.Valid := by
    intro d hd name att ha
    exact (hr.congr hd).atts att (List.mem_of_find?_eq_some ha)
  refine ⟨hr.names, fun att ha => ⟨(hr.atts att ha).nonempty, hr.atts att ha⟩, ?_, ?_, ?_⟩
  · intro hd att ha
    exact (hr.done hd att ha).trans (listFirst_of_ne (hr.atts att ha).nonempty)
  · intro d hd name att ha
    have hv := hsee d hd name att ha
    obtain ⟨p, _, hc⟩ := hv
    exact ⟨by simp [hc], attCurrentValue_valid (hsee d hd name att ha)⟩
  · intro lua depth name att ha
    obtain ⟨v, hm, hv⟩ := attCurrentValue_valid (hsee c rfl name att ha)
    exact ⟨v, hm, by simp [pathcompEvalNocopy, ha, attEval, hv]⟩

def colormapConfig : Cf :=
  ⟨[⟨ascii "colormap", [⟨ascii "root", ascii "/usr/share"⟩,
    ⟨ascii "root", ascii "/opt"⟩,
    ⟨ascii "extension", ascii ".txt"⟩, ⟨ascii "extension", ascii ".gz"⟩]⟩]⟩

def colormapComposer : Composer :=
  { name := ascii "colormap"
    attributes :=
      [⟨ascii "root", [.string (ascii "/usr/share"), .string (ascii "/opt")], some 0,
        some (ascii "colormap")⟩,
       ⟨ascii "extension", [.string (ascii ".txt"), .string (ascii ".gz")], some 0,
        some (ascii "colormap")⟩]
    metatable := ascii "libpathcomp::colormap"
    done := false
    started := false }

theorem colormap_reachable : Reachable (some colormapConfig) colormapComposer :=
  @Reachable.new _ 1 (ascii "colormap") _ (by rfl)

/-- In mid-iteration: one step has been made, and then the extensions were replaced. -/
def steppedComposer : Composer :=
  { colormapComposer with
    attributes :=
      [⟨ascii "root", [.string (ascii "/usr/share"), .string (ascii "/opt")], some 1,
        some (ascii "colormap")⟩,
       ⟨ascii "extension", [.string (ascii ".png")], some 0, originRuntime⟩] }

theorem stepped_reachable : Reachable (some colormapConfig) steppedComposer := by
  let world : World Unit := ⟨fun _ _ => .finish none, 1, fun _ _ => false,
    fun _ _ => (.failed, ())⟩
  have hnext : Op.next.exec world 0 colormapComposer () =
      .ok (.flag true, (pathcompNext colormapComposer).2, ()) := by rfl
  have hset : (Op.set (ascii "extension") (ascii ".png")).exec world 0
      (pathcompNext colormapComposer).2 () = .ok (.void, steppedComposer, ()) := by rfl
  exact (colormap_reachable.call hnext).call hset

theorem reachable_invariant_colormap :
    Reachable (some colormapConfig) steppedComposer ∧ steppedComposer.done = false ∧
      steppedComposer.attributes.map Att.current = [some 1, some 0] ∧
      (steppedComposer.attributes.map Att.name).Nodup ∧
      (∀ att ∈ steppedComposer.attributes, att.alternatives ≠ [] ∧
        ∃ p < att.alternatives.length, att.current = some p) ∧
      ∀ lua depth name att, pathcompRetrieveAtt steppedComposer name = some att →
        ∃ v ∈ att.alternatives, pathcompEvalNocopy lua depth steppedComposer name =
          valueEval (valueEvalLua lua depth) steppedComposer name v :=
  have h := reachable_invariant _ _ stepped_reachable
  ⟨stepped_reachable, rfl, rfl, h.1, h.2.1, h.2.2.2.2⟩

end Pathcomp.Reachability
