import Pathcomp.Resolution
import Pathcomp.Search

set_option autoImplicit false

/-!
# The attribute store after any history of calls

The alternatives of an attribute are determined by the calls that named it, in
their order, and the attributes stand in the order in which their names first
appeared.
-/
namespace Pathcomp.History
open Bytes Config Values Attributes Composers Evaluation Purity Reachability Search
open Traversal Resolution

/-- Calls in any order; Lua, `stat` and `mkdir` may behave differently at each. -/
inductive Run : Composer → List Op → Composer → Prop where
  | nil (c : Composer) : Run c [] c
  | cons {σ : Type} {w : World σ} {fuel : ℕ} {op : Op} {ops : List Op}
      {c d e : Composer} {s t : σ}
      {r : Reply} (h : op.exec w fuel c s = .ok (r, d, t)) (tail : Run d ops e) :
      Run c (op :: ops) e

/-- The value of a `pathcomp_set` or `pathcomp_set_int` of the name. -/
def setValue (n : Text) : Op → Option Value
  | .set name value => if name = n then some (valueNewAuto value) else none
  | .setInt name value => if name = n then some (valueNewInt value) else none
  | _ => none

/-- The value of a `pathcomp_add` or `pathcomp_add_int` of the name. -/
def addValue (n : Text) : Op → Option Value
  | .add name value => if name = n then some (valueNewAuto value) else none
  | .addInt name value => if name = n then some (valueNewInt value) else none
  | _ => none

/-- The name that a store update is about. -/
def target : Op → Option Text
  | .set name _ => some name
  | .setInt name _ => some name
  | .add name _ => some name
  | .addInt name _ => some name
  | _ => none

/-- The value of the last set of the name, and the calls after it. -/
def lastSet (n : Text) : List Op → Option (Value × List Op)
  | [] => none
  | op :: ops =>
    match lastSet n ops with
    | some found => some found
    | none => (setValue n op).map fun value => (value, ops)

def added (n : Text) (ops : List Op) : List Value := ops.filterMap (addValue n)

/-- What the alternatives of the name should be after the calls. -/
def expected (n : Text) (initial : List Value) (ops : List Op) : List Value :=
  match lastSet n ops with
  | some (value, later) => value :: added n later
  | none => initial ++ added n ops

/-- The alternatives of an attribute with their caches emptied; none if there is
    no such attribute. -/
def sourcesOf (c : Composer) (n : Text) : List Value :=
  ((pathcompRetrieveAtt c n).map fun att => att.alternatives.map Value.erase).getD []

def names (c : Composer) : List Text := c.attributes.map Att.name

def appear (seen : List Text) (n : Text) : List Text := if n ∈ seen then seen else seen ++ [n]

/-- Each name once, in the order of first appearance. -/
def firstAppearances (ns : List Text) : List Text := ns.foldl appear []

def shape (c : Composer) : List (Text × List Value) :=
  c.attributes.map fun att => (att.name, att.alternatives.map Value.erase)

theorem names_eq (c : Composer) : names c = (shape c).map Prod.fst := by
  simp [names, shape, Function.comp_def]

theorem sourcesOf_eq (c : Composer) (n : Text) :
    sourcesOf c n = (((shape c).find? fun p => decide (p.1 = n)).map Prod.snd).getD [] := by
  unfold sourcesOf pathcompRetrieveAtt shape
  rw [List.find?_map, Option.map_map]
  rfl

theorem shape_erase (c : Composer) : shape c.erase = shape c := by
  simp only [shape, Composer.erase, List.map_map]
  refine List.map_congr_left fun att _ => ?_
  simp only [Function.comp_apply, Att.erase, List.map_map]
  congr 1
  refine List.map_congr_left fun v _ => ?_
  cases v <;> rfl

theorem shape_of_erase {c d : Composer} (h : c.erase = d.erase) : shape c = shape d := by
  rw [← shape_erase c, h, shape_erase]

theorem nextLoop_shape {β : Type} (f : Att → β)
    (hf : ∀ (att : Att) (current : Option ℕ), f { att with current } = f att)
    (atts : List Att) :
    (nextLoop atts).2.map f = atts.map f := by
  have hnext (att : Att) : f (attNext att).2 = f att := by
    unfold attNext
    split
    · rfl
    · exact hf att _
  induction atts with
  | nil => rfl
  | cons att atts ih =>
    simp only [nextLoop]
    split
    · rw [List.map_cons, List.map_cons, hnext]
    · rw [List.map_cons, List.map_cons, ih]
      congr 1
      exact (hf _ _).trans (hnext att)

theorem shape_next (c : Composer) : shape (pathcompNext c).2 = shape c := by
  have hloop := nextLoop_shape (fun att : Att => (att.name, att.alternatives.map Value.erase))
    (fun _ _ => rfl) c.attributes
  unfold pathcompNext
  split
  · rfl
  · dsimp only
    split <;> exact hloop

theorem shape_rewind (c : Composer) : shape (pathcompRewind c) = shape c := by
  simp only [shape, pathcompRewind, List.map_map]
  rfl

theorem shape_advance (c : Composer) : shape (advance c) = shape c := by
  unfold advance
  split
  · exact shape_next c
  · rfl

theorem shape_yield (lua : Lua) (depth : ℕ) (c : Composer) :
    shape (pathcompYield lua depth c).2 = shape c :=
  shape_of_erase ((pathcompYield_pure lua depth).frame c)

theorem shape_find {lua : Lua} {depth fuel : ℕ} {pathExists : Text → Bool} {c d : Composer}
    {path : Option Text} (h : pathcompFind lua depth pathExists fuel c = .ok (path, d)) :
    shape d = shape c := by
  induction fuel generalizing c with
  | zero => cases h
  | succ fuel ih =>
    have hround : shape (pathcompYield lua depth (advance c)).2 = shape c :=
      (shape_yield lua depth _).trans (shape_advance c)
    rw [pathcompFind_succ] at h
    split at h
    · cases h
      exact shape_advance c
    · split at h
      · exact (ih h).trans hround
      · split at h
        · cases h
          exact hround
        · exact (ih h).trans hround

theorem shape_exec {σ : Type} {w : World σ} {fuel : ℕ} {op : Op} {c d : Composer} {s t : σ}
    {r : Reply} (htarget : target op = none) (h : op.exec w fuel c s = .ok (r, d, t)) :
    shape d = shape c := by
  cases op with
  | set | setInt | add | addInt => cases htarget
  | next =>
    cases h
    exact shape_next c
  | done =>
    cases h
    rfl
  | rewind =>
    cases h
    exact shape_rewind c
  | eval name =>
    cases h
    exact shape_of_erase ((pathcompEval_pure (w.lua s) w.depth name).frame c)
  | yield =>
    cases h
    exact shape_yield (w.lua s) w.depth c
  | find =>
    obtain ⟨_, _, hf⟩ := find_composer h
    exact shape_find hf
  | mkdir =>
    rw [mkdir_composer h]
    exact shape_yield (w.lua s) w.depth c

section Updates
variable {c d : Composer} {name : Text} {value : Value} {origin : Option Text} {action : Action}

theorem sourcesOf_replace (h : pathcompAddOrReplace c name value origin .replace = .ok d) :
    sourcesOf d name = [value.erase] := by
  unfold pathcompAddOrReplace at h
  cases hr : pathcompRetrieveAtt c name with
  | none =>
    rw [hr] at h
    cases h
    rw [sourcesOf, retrieve_push name value origin hr]
    rfl
  | some att =>
    rw [hr] at h
    cases h
    have hnew := @retrieve_onAtt c name (fun att => attReplaceValue att value origin) fun _ => rfl
    rw [sourcesOf, hnew, hr]
    rfl

theorem sourcesOf_add (hc : Representation c)
    (h : pathcompAddOrReplace c name value origin .add = .ok d) :
    sourcesOf d name = sourcesOf c name ++ [value.erase] := by
  unfold pathcompAddOrReplace at h
  cases hr : pathcompRetrieveAtt c name with
  | none =>
    rw [hr] at h
    cases h
    rw [sourcesOf, sourcesOf, retrieve_push name value origin hr, hr]
    rfl
  | some att =>
    rw [hr] at h
    cases h
    have hnew := @retrieve_onAtt c name (fun att => attAddValue att value)
      fun att => attAddValue_name att value
    have hne := (hc.atts att (List.mem_of_find?_eq_some hr)).nonempty
    rw [sourcesOf, sourcesOf, hnew, hr]
    simp [attAddValue_alternatives hne]

theorem sourcesOf_other {n : Text} (hn : name ≠ n)
    (h : pathcompAddOrReplace c name value origin action = .ok d) :
    sourcesOf d n = sourcesOf c n := by
  rw [sourcesOf, sourcesOf, addOrReplace_retrieve_of_ne hn h]

theorem mem_names_iff (c : Composer) (name : Text) :
    name ∈ names c ↔ pathcompRetrieveAtt c name ≠ none := by
  simp [names, pathcompRetrieveAtt, attNameEqualTo]

theorem addOrReplace_names (h : pathcompAddOrReplace c name value origin action = .ok d) :
    names d = appear (names c) name := by
  have hkept {f : Att → Att} (hf : ∀ att, (f att).name = att.name)
      (hr : pathcompRetrieveAtt c name ≠ none) :
      names (c.onAtt name f) = appear (names c) name := by
    rw [appear, if_pos ((mem_names_iff c name).mpr hr)]
    exact map_modifyFirst _ _ _ hf _
  unfold pathcompAddOrReplace at h
  cases hr : pathcompRetrieveAtt c name with
  | none =>
    rw [hr] at h
    cases h
    rw [appear, if_neg fun hm => (mem_names_iff c name).mp hm hr]
    simp [names, listPush, attNew]
  | some att =>
    have hne : pathcompRetrieveAtt c name ≠ none := by simp [hr]
    rw [hr] at h
    simp only at h
    split at h
    · cases h
      exact hkept (fun _ => rfl) hne
    · cases h
      exact hkept (fun att => attAddValue_name att value) hne
    · cases h
      rw [appear, if_pos ((mem_names_iff c name).mpr hne)]
    · cases h

theorem addOrReplace_flags (h : pathcompAddOrReplace c name value origin action = .ok d) :
    d.done = c.done ∧ d.started = c.started := by
  rcases addOrReplace_cases c name value origin action with ⟨_, he⟩ | he | he | he
  all_goals
    rw [he] at h
    cases h
    exact ⟨rfl, rfl⟩

end Updates

/-- The effect of one call on the alternatives of a name. -/
def record (n : Text) (values : List Value) (op : Op) : List Value :=
  match setValue n op with
  | some value => [value]
  | none => values ++ (addValue n op).toList

section Calls
variable {σ : Type} {w : World σ} {fuel : ℕ} {op : Op} {c d : Composer} {s t : σ} {r : Reply}

/-- A call replaces the alternatives of one name, adds to them, or leaves the
    store alone. -/
theorem exec_cases (h : op.exec w fuel c s = .ok (r, d, t)) :
    (target op = none ∧ shape d = shape c ∧ ∀ n, setValue n op = none ∧
      addValue n op = none) ∨
    (∃ name value, target op = some name ∧ value.erase = value ∧
      pathcompAddOrReplace c name value originRuntime .replace = .ok d ∧
      ∀ n, setValue n op = (if name = n then some value else none) ∧ addValue n op = none) ∨
    (∃ name value, target op = some name ∧ value.erase = value ∧
      pathcompAddOrReplace c name value originRuntime .add = .ok d ∧
      ∀ n, setValue n op = none ∧ addValue n op = if name = n then some value else none) := by
  cases op with
  | set name value =>
    exact .inr (.inl ⟨name, valueNewAuto value, rfl, valueNewAuto_erase value, replyVoid_ok h,
      fun _ => ⟨rfl, rfl⟩⟩)
  | setInt name value =>
    exact .inr (.inl ⟨name, valueNewInt value, rfl, rfl, replyVoid_ok h,
      fun _ => ⟨rfl, rfl⟩⟩)
  | add name value =>
    exact .inr (.inr ⟨name, valueNewAuto value, rfl, valueNewAuto_erase value, replyVoid_ok h,
      fun _ => ⟨rfl, rfl⟩⟩)
  | addInt name value =>
    exact .inr (.inr ⟨name, valueNewInt value, rfl, rfl, replyVoid_ok h,
      fun _ => ⟨rfl, rfl⟩⟩)
  | next | done | rewind | eval | yield | find | mkdir =>
    exact .inl ⟨rfl, shape_exec rfl h, fun _ => ⟨rfl, rfl⟩⟩

theorem exec_sources (hc : Representation c) (h : op.exec w fuel c s = .ok (r, d, t)) (n : Text) :
    sourcesOf d n = record n (sourcesOf c n) op := by
  rcases exec_cases h with ⟨_, hshape, hop⟩ | ⟨name, value, _, hv, hd, hop⟩ |
    ⟨name, value, _, hv, hd, hop⟩
  · rw [record, (hop n).1, (hop n).2, sourcesOf_eq, sourcesOf_eq, hshape]
    simp
  · rw [record, (hop n).1, (hop n).2]
    by_cases hn : name = n
    · subst hn
      rw [if_pos rfl, sourcesOf_replace hd, hv]
    · rw [if_neg hn, sourcesOf_other hn hd]
      simp
  · rw [record, (hop n).1, (hop n).2]
    by_cases hn : name = n
    · subst hn
      rw [if_pos rfl, sourcesOf_add hc hd, hv]
      rfl
    · rw [if_neg hn, sourcesOf_other hn hd]
      simp

theorem exec_names (h : op.exec w fuel c s = .ok (r, d, t)) :
    names d = (target op).toList.foldl appear (names c) := by
  rcases exec_cases h with ⟨ht, hshape, _⟩ | ⟨name, value, ht, _, hd, _⟩ |
    ⟨name, value, ht, _, hd, _⟩
  · rw [ht, names_eq, names_eq, hshape]
    rfl
  · rw [ht]
    exact addOrReplace_names hd
  · rw [ht]
    exact addOrReplace_names hd

end Calls

theorem expected_cons (n : Text) (initial : List Value) (op : Op) (ops : List Op) :
    expected n initial (op :: ops) = expected n (record n initial op) ops := by
  simp only [expected, lastSet]
  cases hlast : lastSet n ops with
  | some found => rfl
  | none =>
    cases hset : setValue n op with
    | some value => simp [record, hset]
    | none =>
      cases hadd : addValue n op <;> simp [record, hset, hadd, added]

theorem Run.sources {c d : Composer} {ops : List Op} (h : Run c ops d) (hc : Representation c)
    (n : Text) : sourcesOf d n = expected n (sourcesOf c n) ops := by
  induction h with
  | nil c => simp [expected, lastSet, added]
  | cons h _ ih =>
    rw [ih (exec_representation hc h), exec_sources hc h n, expected_cons]

theorem Run.representation {c d : Composer} {ops : List Op} (h : Run c ops d)
    (hc : Representation c) : Representation d := by
  induction h with
  | nil c => exact hc
  | cons h _ ih => exact ih (exec_representation hc h)

theorem Run.names {c d : Composer} {ops : List Op} (h : Run c ops d) :
    names d = (ops.filterMap target).foldl appear (names c) := by
  induction h with
  | nil c => rfl
  | @cons σ w fuel op ops c d e s t r h _ ih =>
    rw [ih, exec_names h]
    cases ht : target op <;> simp [ht]

theorem pathcompNew_names {config : Option Cf} {depth : ℕ} {name : Text} {c : Composer}
    (h : pathcompNew config depth name = .ok c) :
    ∃ out, Expands config (entriesOf config name) out ∧
      names c = firstAppearances (out.map fun e => e.kv.key) := by
  obtain ⟨out, hout, hatts⟩ := pathcompNew_expand h
  refine ⟨out, hout, ?_⟩
  have hplace (items : List Item) (b : Composer) :
      names (items.foldl place b) = (items.map fun e => e.kv.key).foldl appear (names b) := by
    induction items generalizing b with
    | nil => rfl
    | cons e items ih =>
      rw [List.foldl_cons, ih, addOrReplace_names (addOrReplace_place b e)]
      rfl
  rw [firstAppearances, ← show names (blank name) = [] from rfl, ← hplace]
  exact congrArg (List.map Att.name) hatts

theorem sourcesOf_nil_iff {c : Composer} (hc : Representation c) (n : Text) :
    pathcompRetrieveAtt c n = none ↔ sourcesOf c n = [] := by
  unfold sourcesOf
  cases hr : pathcompRetrieveAtt c n with
  | none => simp
  | some att =>
    have hne := (hc.atts att (List.mem_of_find?_eq_some hr)).nonempty
    simpa using hne

/-- After any calls on a new composer the alternatives of every name are the last
    value set and those added later, or those it started with and all that were
    added. Names stand in the order of first appearance, and a store update does
    not touch another name. -/
theorem no_lost_update (config : Option Cf) (depth : ℕ) (name : Text) (c d : Composer)
    (ops : List Op) (hnew : pathcompNew config depth name = .ok c) (hrun : Run c ops d) :
    (∀ n, sourcesOf d n = expected n (sourcesOf c n) ops ∧
      (pathcompRetrieveAtt d n = none ↔ expected n (sourcesOf c n) ops = [])) ∧
    (∃ out, Expands config (entriesOf config name) out ∧
      names d = firstAppearances (out.map (fun e => e.kv.key) ++ ops.filterMap target)) ∧
    (∀ (σ : Type) (w : World σ) fuel s op n r e t, target op = some n →
      op.exec w fuel d s = .ok (r, e, t) →
      e.done = d.done ∧ e.started = d.started ∧
      ∀ m, m ≠ n → pathcompRetrieveAtt e m = pathcompRetrieveAtt d m) := by
  have hc := pathcompNew_representation hnew
  have hd := hrun.representation hc
  refine ⟨fun n => ?_, ?_, ?_⟩
  · have hsources := hrun.sources hc n
    exact ⟨hsources, hsources ▸ sourcesOf_nil_iff hd n⟩
  · obtain ⟨out, hout, hnames⟩ := pathcompNew_names hnew
    refine ⟨out, hout, ?_⟩
    rw [hrun.names, hnames, firstAppearances, firstAppearances, List.foldl_append]
  · intro σ w fuel s op n r e t htarget hexec
    rcases exec_cases hexec with ⟨ht, _⟩ | ⟨name, value, ht, _, he, _⟩ |
      ⟨name, value, ht, _, he, _⟩
    · rw [ht] at htarget
      cases htarget
    all_goals
      rw [ht] at htarget
      cases htarget
      obtain ⟨hdone, hstarted⟩ := addOrReplace_flags he
      exact ⟨hdone, hstarted, fun m hm => addOrReplace_retrieve_of_ne (Ne.symm hm) he⟩

def idleWorld : World Unit where
  lua := fun _ _ => .finish none
  depth := 1
  stat := fun _ _ => false
  mkdir := fun s _ => (.created, s)

def paletteOps : List Op :=
  [.next, .add (ascii "root") (ascii "/old"), .set (ascii "root") (ascii "/a"), .yield,
    .addInt (ascii "size") 12, .add (ascii "root") (ascii "/b")]

theorem idle_step {op : Op} {ops : List Op} {c d : Composer} {r : Reply}
    (h : op.exec idleWorld 1 c () = .ok (r, d, ())) (htail : ∃ e, Run d ops e) :
    ∃ e, Run c (op :: ops) e := by
  obtain ⟨e, he⟩ := htail
  exact ⟨e, .cons h he⟩

theorem palette_run : ∃ d, Run colormapComposer paletteOps d := by
  apply idle_step rfl
  apply idle_step rfl
  apply idle_step rfl
  apply idle_step rfl
  apply idle_step rfl
  exact idle_step rfl ⟨_, .nil _⟩

theorem no_lost_update_palette :
    ∃ d, Run colormapComposer paletteOps d ∧
      sourcesOf d (ascii "root") = [.string (ascii "/a"), .string (ascii "/b")] ∧
      sourcesOf d (ascii "size") = [.int 12 none] ∧
      sourcesOf d (ascii "extension") = [.string (ascii ".txt"), .string (ascii ".gz")] := by
  obtain ⟨d, hrun⟩ := palette_run
  have hnew : pathcompNew (some colormapConfig) 1 (ascii "colormap") =
      .ok colormapComposer := by rfl
  have hlaw := (no_lost_update (some colormapConfig) 1 (ascii "colormap") colormapComposer d
    paletteOps hnew hrun).1
  refine ⟨d, hrun, ?_, ?_, ?_⟩
  · rw [(hlaw (ascii "root")).1]
    decide
  · rw [(hlaw (ascii "size")).1]
    decide
  · rw [(hlaw (ascii "extension")).1]
    decide

end Pathcomp.History
