import Pathcomp.Search

set_option autoImplicit false

/-!
# Caches cannot be observed

Two composers that differ in the results of Lua and integer values only give the
same replies to every sequence of calls, also after going over to a clone, and
differ in nothing else afterwards.
-/
namespace Pathcomp.Observations
open Bytes Config Values Attributes Composers Evaluation Purity Reachability Search

/-- The same string, or the same source with possibly another result. -/
inductive SameSource : Value → Value → Prop where
  | string (text : Text) : SameSource (.string text) (.string text)
  | lua (source : Text) (result result' : Option Text) :
      SameSource (.lua source result) (.lua source result')
  | int (integer : Int32) (result result' : Option Text) :
      SameSource (.int integer result) (.int integer result')

structure SameAtt (a b : Att) : Prop where
  name : a.name = b.name
  alternatives : List.Forall₂ SameSource a.alternatives b.alternatives
  current : a.current = b.current
  origin : a.origin = b.origin

/-- Nothing but the results of Lua and integer values differs. -/
structure CachesOnly (c d : Composer) : Prop where
  name : c.name = d.name
  attributes : List.Forall₂ SameAtt c.attributes d.attributes
  metatable : c.metatable = d.metatable
  done : c.done = d.done
  started : c.started = d.started

/-- A call, or going over to a clone. -/
inductive Step where
  | call (op : Op)
  | clone
  deriving DecidableEq, Repr

section Observing
variable {σ : Type} (w : World σ) (fuel : ℕ)

def Step.exec (c : Composer) (s : σ) : Step → Except Halt (Reply × Composer × σ)
  | .call op => op.exec w fuel c s
  | .clone => replyVoid s (pathcompClone c)

/-- The replies, up to the first call that does not return, and the end. -/
def observe : List Step → Composer → σ → List Reply × Except Halt (Composer × σ)
  | [], c, s => ([], .ok (c, s))
  | step :: steps, c, s =>
    match step.exec w fuel c s with
    | .error halt => ([], .error halt)
    | .ok (reply, c, s) =>
      let (replies, last) := observe steps c s
      (reply :: replies, last)

/-- Both runs stop for the same reason, or end in composers that differ in caches
    only and in the same outside world. -/
inductive SameEnd : Except Halt (Composer × σ) → Except Halt (Composer × σ) → Prop where
  | halted (halt : Halt) : SameEnd (.error halt) (.error halt)
  | returned {c d : Composer} (s : σ) (h : CachesOnly c d) : SameEnd (.ok (c, s)) (.ok (d, s))

end Observing

/-- What the chunk returns when it is run now. -/
def chunkResult (lua : Lua) : ℕ → Composer → Text → Option Text
  | 0, _, _ => none
  | depth + 1, c, source => ((lua source).run (pathcompPushValue (valueEvalLua lua depth)) c).1

theorem sameSource_iff (v w : Value) : SameSource v w ↔ v.erase = w.erase := by
  constructor
  · intro h
    cases h <;> rfl
  · intro h
    cases v <;> cases w <;> simp only [Value.erase, reduceCtorEq, Value.string.injEq,
      Value.lua.injEq, Value.int.injEq, and_true] at h
    all_goals
      subst h
      constructor

theorem forall_map_iff {α β : Type} {R : α → α → Prop} (f : α → β)
    (hR : ∀ a b, R a b ↔ f a = f b) (l m : List α) :
    List.Forall₂ R l m ↔ l.map f = m.map f := by
  rw [← List.forall₂_eq_eq_eq, List.forall₂_map_left_iff, List.forall₂_map_right_iff]
  exact ⟨.imp fun a b h => (hR a b).mp h, .imp fun a b h => (hR a b).mpr h⟩

theorem sameAtt_iff (a b : Att) : SameAtt a b ↔ a.erase = b.erase := by
  have hvalues := forall_map_iff Value.erase sameSource_iff a.alternatives b.alternatives
  constructor
  · intro h
    simp only [Att.erase, h.name, h.current, h.origin, hvalues.mp h.alternatives]
  · intro h
    simp only [Att.erase, Att.mk.injEq] at h
    exact ⟨h.1, hvalues.mpr h.2.1, h.2.2.1, h.2.2.2⟩

theorem cachesOnly_iff (c d : Composer) : CachesOnly c d ↔ c.erase = d.erase := by
  have hatts := forall_map_iff Att.erase sameAtt_iff c.attributes d.attributes
  constructor
  · intro h
    simp only [Composer.erase, h.name, h.metatable, h.done, h.started, hatts.mp h.attributes]
  · intro h
    simp only [Composer.erase, Composer.mk.injEq] at h
    exact ⟨h.1, hatts.mpr h.2.1, h.2.2.1, h.2.2.2.1, h.2.2.2.2⟩

@[simp] theorem Value.erase_erase (v : Value) : v.erase.erase = v.erase := by cases v <;> rfl

@[simp] theorem Att.erase_erase (att : Att) : att.erase.erase = att.erase := by
  simp [Att.erase, Function.comp_def]

@[simp] theorem Composer.erase_erase (c : Composer) : c.erase.erase = c.erase := by
  simp [Composer.erase, Function.comp_def]

def eraseReply {σ : Type} (x : Reply × Composer × σ) : Reply × Composer × σ :=
  (x.1, x.2.1.erase, x.2.2)

theorem erase_modifyFirst (name : Text) {f : Att → Att} (h : ∀ att, (f att).erase = f att.erase)
    (atts : List Att) : (modifyFirst (attNameEqualTo name) f atts).map Att.erase =
      modifyFirst (attNameEqualTo name) f (atts.map Att.erase) := by
  induction atts with
  | nil => rfl
  | cons att atts ih =>
    have hname : attNameEqualTo name att.erase = attNameEqualTo name att := rfl
    simp only [modifyFirst, List.map_cons, hname]
    split
    · rw [List.map_cons, h]
    · rw [List.map_cons, ih]

theorem erase_onAtt (c : Composer) (name : Text) {f : Att → Att}
    (h : ∀ att, (f att).erase = f att.erase) : (c.onAtt name f).erase = c.erase.onAtt name f := by
  simp only [Composer.erase, Composer.onAtt, erase_modifyFirst name h]

theorem attReplaceValue_erase (att : Att) {value : Value} (hv : value.erase = value)
    (origin : Option Text) :
    (attReplaceValue att value origin).erase = attReplaceValue att.erase value origin := by
  simp [attReplaceValue, Att.erase, hv, listFirst]

theorem attAddValue_erase (att : Att) {value : Value} (hv : value.erase = value) :
    (attAddValue att value).erase = attAddValue att.erase value := by
  obtain ⟨name, alternatives, current, origin⟩ := att
  cases alternatives with
  | nil => rfl
  | cons first rest => simp [attAddValue, Att.erase, listPush, hv]

theorem addOrReplace_erase (c : Composer) (name : Text) {value : Value} (hv : value.erase = value)
    (origin : Option Text) (action : Action) :
    pathcompAddOrReplace c.erase name value origin action =
      (pathcompAddOrReplace c name value origin action).map Composer.erase := by
  unfold pathcompAddOrReplace
  rw [retrieve_erase]
  cases pathcompRetrieveAtt c name with
  | none => simp [Composer.erase, listPush, attNew, Att.erase, hv, Except.map]
  | some att =>
    have hcond : (if action = .addIf then
          resolveAddIf (inherited c.erase (attGetOrigin att.erase)) (inherited c.erase origin)
        else action) = if action = .addIf then
          resolveAddIf (inherited c (attGetOrigin att)) (inherited c origin) else action := rfl
    simp only [Option.map_some, hcond]
    generalize (if action = .addIf then
      resolveAddIf (inherited c (attGetOrigin att)) (inherited c origin) else action) = resolved
    cases resolved with
    | replace =>
      simp only [Except.map]
      rw [erase_onAtt c name fun att => attReplaceValue_erase att hv origin]
    | add =>
      simp only [Except.map]
      rw [erase_onAtt c name fun att => attAddValue_erase att hv]
    | none => rfl
    | addIf => rfl

theorem pathcompNext_erase (c : Composer) :
    pathcompNext c.erase = ((pathcompNext c).1, (pathcompNext c).2.erase) := by
  have hloop := nextLoop_erase c.attributes
  unfold pathcompNext
  simp only [Composer.erase, hloop]
  split
  · rfl
  · split <;> rfl

theorem advance_erase (c : Composer) : advance c.erase = (advance c).erase := by
  have hstarted : c.erase.started = c.started := rfl
  unfold advance
  rw [hstarted, pathcompNext_erase]
  split <;> rfl

theorem pathcompRewind_erase (c : Composer) :
    pathcompRewind c.erase = (pathcompRewind c).erase := by
  simp only [pathcompRewind, Composer.erase, List.map_map]
  congr 1
  exact List.map_congr_left fun att _ => attRewind_erase att

theorem attCloneCurrent_erase (target : Option ℕ) (copies rest : List Value) (p : ℕ)
    (q : Option ℕ) :
    attCloneCurrent target (copies.map Value.erase) p (rest.map Value.erase) q =
      attCloneCurrent target copies p rest q := by
  induction rest generalizing p q with
  | nil => rfl
  | cons v rest ih =>
    simp only [List.map_cons, attCloneCurrent, listNext, List.length_map, ih]

theorem attClone_erase (att : Att) : attClone att.erase = (attClone att).map Att.erase := by
  have hmap : (att.alternatives.map Value.erase).map valueClone =
      (att.alternatives.map valueClone).map Value.erase := by simp
  have hfirst (values : List Value) : listFirst (values.map Value.erase) = listFirst values := by
    simp [listFirst]
  unfold attClone
  simp only [Att.erase, hmap, hfirst, attCloneCurrent_erase]
  split <;> simp_all [Except.map, Att.erase]

theorem listTransform_erase (atts : List Att) :
    listTransform attClone (atts.map Att.erase) =
      (listTransform attClone atts).map (List.map Att.erase) := by
  induction atts with
  | nil => rfl
  | cons att atts ih =>
    simp only [List.map_cons, listTransform, attClone_erase, ih]
    cases attClone att with
    | error halt => rfl
    | ok copy => cases listTransform attClone atts <;> rfl

theorem pathcompClone_erase (c : Composer) :
    pathcompClone c.erase = (pathcompClone c).map Composer.erase := by
  unfold pathcompClone
  simp only [Composer.erase, listTransform_erase]
  cases listTransform attClone c.attributes <;> rfl

theorem replyVoid_erase {σ : Type} (s : σ) {x y : Except Halt Composer}
    (h : x = y.map Composer.erase) :
    (replyVoid s x).map eraseReply = (replyVoid s y).map eraseReply := by
  subst h
  cases y with
  | error halt => rfl
  | ok c => simp [replyVoid, Except.map, eraseReply]

theorem pathcompFind_erase (lua : Lua) (depth : ℕ) (pathExists : Text → Bool) {fuel : ℕ}
    {c d : Composer} (h : c.erase = d.erase) :
    (pathcompFind lua depth pathExists fuel c).map (fun x => (x.1, x.2.erase)) =
      (pathcompFind lua depth pathExists fuel d).map fun x => (x.1, x.2.erase) := by
  induction fuel generalizing c d with
  | zero => rfl
  | succ fuel ih =>
    have hadvance : (advance c).erase = (advance d).erase := by
      rw [← advance_erase, h, advance_erase]
    rw [pathcompFind_succ, pathcompFind_succ]
    have hpure := pathcompYield_pure lua depth
    have hsame := hpure.same (congrArg Composer.attributes hadvance)
    have hrest : (pathcompYield lua depth (advance c)).2.erase =
        (pathcompYield lua depth (advance d)).2.erase := by
      rw [hpure.frame, hpure.frame, hadvance]
    have hdone : (advance c).done = (advance d).done := by
      have he := congrArg Composer.done hadvance
      exact he
    rw [hdone, hsame]
    split
    · simp [Except.map, hadvance]
    · split
      · exact ih hrest
      · split
        · simp [Except.map, hrest]
        · exact ih hrest

section Congruence
variable {σ : Type} (w : World σ) (fuel : ℕ) (s : σ)

theorem exec_congr (step : Step) {c d : Composer} (h : c.erase = d.erase) :
    (step.exec w fuel c s).map eraseReply = (step.exec w fuel d s).map eraseReply := by
  have hcombination : SameCombination c d := congrArg Composer.attributes h
  have hupdate (name : Text) {value : Value} (hv : value.erase = value) (action : Action) :
      (replyVoid s (pathcompAddOrReplace c name value originRuntime action)).map eraseReply =
        (replyVoid s (pathcompAddOrReplace d name value originRuntime action)).map eraseReply := by
    rw [← replyVoid_erase s (addOrReplace_erase c name hv originRuntime action), h,
      replyVoid_erase s (addOrReplace_erase d name hv originRuntime action)]
  have hpure {α : Type} {eval : Composer → α × Composer} (he : Pure eval) :
      (eval c).1 = (eval d).1 ∧ (eval c).2.erase = (eval d).2.erase := by
    refine ⟨he.same hcombination, ?_⟩
    rw [he.frame, he.frame, h]
  cases step with
  | clone => rw [Step.exec, Step.exec, ← replyVoid_erase s (pathcompClone_erase c), h,
      replyVoid_erase s (pathcompClone_erase d)]
  | call op =>
    cases op with
    | set name value => exact hupdate name (valueNewAuto_erase value) .replace
    | setInt name value => exact hupdate name rfl .replace
    | add name value => exact hupdate name (valueNewAuto_erase value) .add
    | addInt name value => exact hupdate name rfl .add
    | next =>
      have hc := pathcompNext_erase c
      rw [h, pathcompNext_erase d, Prod.mk.injEq] at hc
      simp only [Step.exec, Op.exec, Except.map, eraseReply, hc.1, hc.2]
    | done =>
      have hdone : pathcompDone c = pathcompDone d := by
        have he := congrArg Composer.done h
        exact he
      simp only [Step.exec, Op.exec, Except.map, eraseReply, hdone, h]
    | rewind =>
      have hc := pathcompRewind_erase c
      rw [h, pathcompRewind_erase d] at hc
      simp only [Step.exec, Op.exec, Except.map, eraseReply, hc]
    | eval name =>
      obtain ⟨hr, he⟩ := hpure (pathcompEval_pure (w.lua s) w.depth name)
      simp only [Step.exec, Op.exec, Except.map, eraseReply, hr, he]
    | yield =>
      obtain ⟨hr, he⟩ := hpure (pathcompYield_pure (w.lua s) w.depth)
      simp only [Step.exec, Op.exec, Except.map, eraseReply, hr, he]
    | find =>
      have hfind := @pathcompFind_erase (w.lua s) w.depth (w.stat s) fuel c d h
      simp only [Step.exec, Op.exec]
      cases hc : pathcompFind (w.lua s) w.depth (w.stat s) fuel c with
      | error halt =>
        cases hd : pathcompFind (w.lua s) w.depth (w.stat s) fuel d with
        | error halt' => simpa [hc, hd, Except.map] using hfind
        | ok y => simp [hc, hd, Except.map] at hfind
      | ok x =>
        cases hd : pathcompFind (w.lua s) w.depth (w.stat s) fuel d with
        | error halt' => simp [hc, hd, Except.map] at hfind
        | ok y => simpa [hc, hd, Except.map, eraseReply] using hfind
    | mkdir =>
      obtain ⟨hr, he⟩ := hpure (pathcompYield_pure (w.lua s) w.depth)
      simp only [Step.exec, Op.exec, pathcompMkdir, hr]
      cases (pathcompYield (w.lua s) w.depth d).1 with
      | none => rfl
      | some path =>
        cases hm : mkdirLoop w.mkdir (path.length + 1) path 0 s with
        | error halt => simp [hm, Except.map]
        | ok x => simp [hm, Except.map, eraseReply, he]

theorem observe_congr (steps : List Step) {c d : Composer} (h : c.erase = d.erase) :
    (observe w fuel steps c s).1 = (observe w fuel steps d s).1 ∧
      (observe w fuel steps c s).2.map (fun x => (x.1.erase, x.2)) =
        (observe w fuel steps d s).2.map fun x => (x.1.erase, x.2) := by
  induction steps generalizing c d s with
  | nil => exact ⟨rfl, by simp [observe, Except.map, h]⟩
  | cons step steps ih =>
    have hstep := exec_congr w fuel s step h
    simp only [observe]
    cases hc : step.exec w fuel c s with
    | error halt =>
      cases hd : step.exec w fuel d s with
      | error halt' =>
        rw [hc, hd] at hstep
        cases hstep
        exact ⟨rfl, rfl⟩
      | ok y => simp [hc, hd, Except.map] at hstep
    | ok x =>
      cases hd : step.exec w fuel d s with
      | error halt' => simp [hc, hd, Except.map] at hstep
      | ok y =>
        simp only [hc, hd, Except.map, eraseReply, Except.ok.injEq, Prod.mk.injEq] at hstep
        obtain ⟨hreply, hcomposer, hworld⟩ := hstep
        obtain ⟨hreplies, hlast⟩ := ih y.2.2 hcomposer
        simp only [hreply, hworld, hreplies, hlast, and_self]

end Congruence

theorem sameEnd_of_erase {σ : Type} {x y : Except Halt (Composer × σ)}
    (h : x.map (fun z => (z.1.erase, z.2)) = y.map fun z => (z.1.erase, z.2)) : SameEnd x y := by
  cases x with
  | error halt =>
    cases y with
    | error halt' =>
      cases h
      exact .halted halt
    | ok y => cases h
  | ok x =>
    cases y with
    | error halt' => cases h
    | ok y =>
      simp only [Except.map, Except.ok.injEq, Prod.mk.injEq] at h
      obtain ⟨c, s⟩ := x
      obtain ⟨d, t⟩ := y
      obtain ⟨hcd, rfl⟩ := h
      exact .returned s ((cachesOnly_iff c d).mpr hcd)

theorem valueEvalLua_result (lua : Lua) (depth : ℕ) (c : Composer) (name source : Text) :
    (valueEvalLua lua depth c name source).1 = chunkResult lua depth c source := by
  cases depth <;> rfl

theorem pathcompEval_lua {lua : Lua} {depth : ℕ} {c : Composer} {name source : Text}
    {cached : Option Text} (h : currentValue c name = some (.lua source cached)) :
    (pathcompEval lua depth c name).1 = (chunkResult lua depth c source).map cstr := by
  obtain ⟨att, hatt, hvalue⟩ := Option.bind_eq_some_iff.mp h
  simp only [pathcompEval, pathcompEvalNocopy, hatt, attEval, hvalue, valueEval,
    valueEvalLua_result]

/-- Evaluation changes nothing but caches, and what is cached changes no reply of
    any later calls. A cached result is not returned when the chunk fails now. -/
theorem evaluation_unobservable {σ : Type} (w : World σ) (c : Composer) (s : σ) :
    (∀ name, CachesOnly c (pathcompEval (w.lua s) w.depth c name).2) ∧
    CachesOnly c (pathcompYield (w.lua s) w.depth c).2 ∧
    (∀ d, CachesOnly c d → ∀ fuel steps,
      (observe w fuel steps c s).1 = (observe w fuel steps d s).1 ∧
      SameEnd (observe w fuel steps c s).2 (observe w fuel steps d s).2) ∧
    (∀ name source cached, currentValue c name = some (.lua source cached) →
      chunkResult (w.lua s) w.depth c source = none →
      (pathcompEval (w.lua s) w.depth c name).1 = none) := by
  refine ⟨fun name => ?_, ?_, fun d hd fuel steps => ?_, fun name source cached hv hfail => ?_⟩
  · exact (cachesOnly_iff _ _).mpr ((pathcompEval_pure (w.lua s) w.depth name).frame c).symm
  · exact (cachesOnly_iff _ _).mpr ((pathcompYield_pure (w.lua s) w.depth).frame c).symm
  · obtain ⟨hreplies, hlast⟩ := observe_congr w fuel s steps ((cachesOnly_iff c d).mp hd)
    exact ⟨hreplies, sameEnd_of_erase hlast⟩
  · rw [pathcompEval_lua hv, hfail]
    rfl

/-- A composer whose path is computed by a chunk, with a result of an earlier run. -/
def cachedComposer (result : Option Text) : Composer :=
  { name := ascii "log", attributes := [attNew attCompose (.lua (ascii "chunk") result) none],
    metatable := [], done := false, started := false }

/-- Every chunk raises an error after looking up `root`. -/
def failingWorld : World Unit where
  lua := fun _ _ => .index attRoot fun _ => .finish none
  depth := 2
  stat := fun _ _ => true
  mkdir := fun s _ => (.created, s)

theorem evaluation_unobservable_stale :
    CachesOnly (cachedComposer (some (ascii "old"))) (cachedComposer none) ∧
    (observe failingWorld 9 [.clone, .call (.eval attCompose), .call .find]
        (cachedComposer (some (ascii "old"))) ()).1 =
      (observe failingWorld 9 [.clone, .call (.eval attCompose), .call .find]
        (cachedComposer none) ()).1 ∧
    (pathcompEval (failingWorld.lua ()) 2 (cachedComposer (some (ascii "old"))) attCompose).1 =
      none := by
  have hsame : CachesOnly (cachedComposer (some (ascii "old"))) (cachedComposer none) :=
    (cachesOnly_iff _ _).mpr rfl
  obtain ⟨_, _, hobserve, hstale⟩ :=
    evaluation_unobservable failingWorld (cachedComposer (some (ascii "old"))) ()
  exact ⟨hsame, (hobserve _ hsame 9 _).1, hstale attCompose (ascii "chunk") _ rfl rfl⟩

end Pathcomp.Observations
