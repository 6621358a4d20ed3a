import Pathcomp.Resolution

set_option autoImplicit false

/-!
# How long the root string stays current

Evaluation with a record of the result fields it assigns: each assignment frees
the string that the field held before. `pathcomp_yield` keeps a pointer to the
result of `root` while it evaluates `compose`, and the record says when this
assigns the same field again.
-/
namespace Pathcomp.Lifetimes
open Bytes Values Attributes Composers Evaluation Purity Resolution

/-- A composer and the names whose current value had its result assigned. -/
structure Logged where
  composer : Composer
  writes : List Text

def Logged.store (s : Logged) (name : Text) (result : Option Text) : Logged :=
  ⟨s.composer.onAtt name (Att.setResult result), s.writes ++ [name]⟩

def runLogged (push : Logged → Text → LuaObject × Logged) :
    LuaCode → Logged → Option Text × Logged
  | .finish result, s => (result.map cstr, s)
  | .index name resume, s =>
    let (object, s) := push s name
    runLogged push (resume object) s

section Dispatch
variable (evalLua : Logged → Text → Text → Option Text × Logged)

def valuePushLogged (s : Logged) (name : Text) : Value → LuaObject × Logged
  | .string result => (.string result, s)
  | .lua source _ =>
    let (result, s) := evalLua s name source
    (luaPushstring result, s)
  | .int integer _ => (.integer integer, s)

def valueEvalLogged (s : Logged) (name : Text) : Value → Option Text × Logged
  | .string result => (some result, s)
  | .lua source _ => evalLua s name source
  | .int integer _ =>
    let result := formatInt integer
    (some result, s.store name (some result))

def attPushLogged (s : Logged) (name : Text) (att : Att) : LuaObject × Logged :=
  match attCurrentValue att with
  | none => (.nil, s)
  | some val => valuePushLogged evalLua s name val

def attEvalLogged (s : Logged) (name : Text) (att : Att) : Option Text × Logged :=
  match attCurrentValue att with
  | none => (none, s)
  | some val => valueEvalLogged evalLua s name val

def pathcompPushValueLogged (s : Logged) (name : Text) : LuaObject × Logged :=
  match pathcompRetrieveAtt s.composer name with
  | none => (.nil, s)
  | some att => attPushLogged evalLua s name att

end Dispatch

def valueEvalLuaLogged (lua : Lua) : ℕ → Logged → Text → Text → Option Text × Logged
  | 0, s, name, _ => (none, s.store name none)
  | depth + 1, s, name, source =>
    let (result, s) :=
      runLogged (pathcompPushValueLogged (valueEvalLuaLogged lua depth)) (lua source) s
    (result, s.store name result)

def pathcompEvalNocopyLogged (lua : Lua) (depth : ℕ) (s : Logged) (name : Text) :
    Option Text × Logged :=
  match pathcompRetrieveAtt s.composer name with
  | none => (none, s)
  | some att => attEvalLogged (valueEvalLuaLogged lua depth) s name att

/-- The fields that `pathcomp_yield` assigns after it has obtained `root`, until it
    copies the string: those assigned by the evaluation of `compose`. -/
def writesAfterRoot (lua : Lua) (depth : ℕ) (c : Composer) : List Text :=
  (pathcompEvalNocopyLogged lua depth ⟨(pathcompEvalNocopy lua depth c attRoot).2, []⟩
    attCompose).2.writes

/-- The result field of the current value of `root` is not assigned while
    `pathcomp_yield` holds a pointer to its string. -/
def RootKept (lua : Lua) (depth : ℕ) (c : Composer) : Prop :=
  attRoot ∉ writesAfterRoot lua depth c

/-- The chunk looks up the name, given the answers to its look-ups. -/
inductive Asks (answer : Text → LuaObject) : LuaCode → Text → Prop where
  | here (name : Text) (resume : LuaObject → LuaCode) : Asks answer (.index name resume) name
  | later {name n : Text} {resume : LuaObject → LuaCode}
      (h : Asks answer (resume (answer name)) n) : Asks answer (.index name resume) n

/-- The answer to a look-up when `depth` evaluations may still be nested. -/
def answer (lua : Lua) (c : Composer) (depth : ℕ) (name : Text) : LuaObject :=
  (pathcompPushValue (valueEvalLua lua depth) c name).1

/-- Evaluating the source looks up the name, in its own chunk or in the chunk of
    an attribute that it looks up. -/
inductive LooksUp (lua : Lua) (c : Composer) : ℕ → Text → Text → Prop where
  | direct {depth : ℕ} {source n : Text} (h : Asks (answer lua c depth) (lua source) n) :
      LooksUp lua c (depth + 1) source n
  | through {depth : ℕ} {source m source' n : Text} {result : Option Text}
      (h : Asks (answer lua c depth) (lua source) m)
      (hm : currentValue c m = some (.lua source' result)) (tail : LooksUp lua c depth source' n) :
      LooksUp lua c (depth + 1) source n

def IsLua (c : Composer) (name : Text) : Prop :=
  ∃ source result, currentValue c name = some (.lua source result)

def ComposeLooksUpRoot (lua : Lua) (depth : ℕ) (c : Composer) : Prop :=
  ∃ source result, currentValue c attCompose = some (.lua source result) ∧
    LooksUp lua c depth source attRoot

/-- The evaluator with a record does what the one without does. -/
def Tracks {α : Type} (f : Logged → α × Logged) (g : Composer → α × Composer) : Prop :=
  ∀ s : Logged, (f s).1 = (g s.composer).1 ∧ (f s).2.composer = (g s.composer).2

theorem runLogged_tracks {push : Logged → Text → LuaObject × Logged}
    {plain : Composer → Text → LuaObject × Composer}
    (h : ∀ name, Tracks (push · name) (plain · name)) (chunk : LuaCode) :
    Tracks (runLogged push chunk) (chunk.run plain) := by
  induction chunk with
  | finish result => exact fun s => ⟨rfl, rfl⟩
  | index name resume ih =>
    intro s
    obtain ⟨hobject, hcomposer⟩ := h name s
    obtain ⟨hr, hc⟩ := ih (push s name).1 (push s name).2
    simp only [runLogged, LuaCode.run]
    rw [← hobject, ← hcomposer]
    exact ⟨hr, hc⟩

section Values
variable {evalLua : Logged → Text → Text → Option Text × Logged} {name : Text} {v : Value}

theorem pushLogged_none {s : Logged} (h : currentValue s.composer name = none) :
    pathcompPushValueLogged evalLua s name = (.nil, s) := by
  rcases currentValue_none h with hr | ⟨att, hr, hv⟩
  · simp only [pathcompPushValueLogged, hr]
  · simp only [pathcompPushValueLogged, hr, attPushLogged, hv]

theorem pushLogged_some {s : Logged} (h : currentValue s.composer name = some v) :
    pathcompPushValueLogged evalLua s name = valuePushLogged evalLua s name v := by
  obtain ⟨att, hr, hv⟩ := Option.bind_eq_some_iff.mp h
  simp only [pathcompPushValueLogged, hr, attPushLogged, hv]

theorem evalLogged_none {lua : Lua} {depth : ℕ} {s : Logged}
    (h : currentValue s.composer name = none) :
    pathcompEvalNocopyLogged lua depth s name = (none, s) := by
  rcases currentValue_none h with hr | ⟨att, hr, hv⟩
  · simp only [pathcompEvalNocopyLogged, hr]
  · simp only [pathcompEvalNocopyLogged, hr, attEvalLogged, hv]

theorem evalLogged_some {lua : Lua} {depth : ℕ} {s : Logged}
    (h : currentValue s.composer name = some v) :
    pathcompEvalNocopyLogged lua depth s name =
      valueEvalLogged (valueEvalLuaLogged lua depth) s name v := by
  obtain ⟨att, hr, hv⟩ := Option.bind_eq_some_iff.mp h
  simp only [pathcompEvalNocopyLogged, hr, attEvalLogged, hv]

end Values

theorem pathcompPushValueLogged_tracks
    {evalLua : Logged → Text → Text → Option Text × Logged}
    {plain : Composer → Text → Text → Option Text × Composer}
    (h : ∀ name source, Tracks (evalLua · name source) (plain · name source)) (name : Text) :
    Tracks (pathcompPushValueLogged evalLua · name) (pathcompPushValue plain · name) := by
  intro s
  cases hv : currentValue s.composer name with
  | none =>
    simp only [pushLogged_none hv, push_none hv, and_self]
  | some v =>
    simp only [pushLogged_some hv, push_some hv]
    cases v with
    | string result => exact ⟨rfl, rfl⟩
    | int integer result => exact ⟨rfl, rfl⟩
    | lua source result =>
      obtain ⟨hr, hc⟩ := h name source s
      exact ⟨congrArg luaPushstring hr, hc⟩

theorem valueEvalLuaLogged_tracks (lua : Lua) (depth : ℕ) (name source : Text) :
    Tracks (valueEvalLuaLogged lua depth · name source)
    (valueEvalLua lua depth · name source) := by
  induction depth generalizing name source with
  | zero => exact fun s => ⟨rfl, rfl⟩
  | succ depth ih =>
    intro s
    obtain ⟨hr, hc⟩ := runLogged_tracks (pathcompPushValueLogged_tracks ih) (lua source) s
    refine ⟨hr, ?_⟩
    simp only [valueEvalLuaLogged, valueEvalLua, Logged.store]
    rw [hr, hc]

theorem pathcompEvalNocopyLogged_tracks (lua : Lua) (depth : ℕ) (name : Text) :
    Tracks (pathcompEvalNocopyLogged lua depth · name) (pathcompEvalNocopy lua depth · name) := by
  intro s
  cases hv : currentValue s.composer name with
  | none => simp only [evalLogged_none hv, evalNocopy_none hv, and_self]
  | some v =>
    simp only [evalLogged_some hv, evalNocopy_some hv]
    cases v with
    | string result => exact ⟨rfl, rfl⟩
    | int integer result => exact ⟨rfl, rfl⟩
    | lua source result => exact valueEvalLuaLogged_tracks lua depth name source s

theorem currentValue_isLua {c d : Composer} (h : SameCombination c d) {name source : Text}
    {result : Option Text} (hc : currentValue c name = some (.lua source result)) :
    ∃ result', currentValue d name = some (.lua source result') := by
  have he := currentValue_congr h name
  rw [hc] at he
  cases hd : currentValue d name with
  | none => simp [hd] at he
  | some v =>
    rw [hd] at he
    cases v with
    | lua source' result' =>
      simp only [Option.map_some, Value.erase, Option.some.injEq, Value.lua.injEq, and_true] at he
      exact ⟨result', by rw [he]⟩
    | string _ => simp [Value.erase] at he
    | int _ _ => simp [Value.erase] at he

theorem pushLogged_of_not_lua {evalLua : Logged → Text → Text → Option Text × Logged}
    {s : Logged} {name : Text} (h : ¬ IsLua s.composer name) :
    (pathcompPushValueLogged evalLua s name).2 = s := by
  cases hv : currentValue s.composer name with
  | none => rw [pushLogged_none hv]
  | some v =>
    rw [pushLogged_some hv]
    cases v with
    | string result => rfl
    | int integer result => rfl
    | lua source result => exact absurd ⟨source, result, hv⟩ h

theorem runLogged_writes {c : Composer} {push : Logged → Text → LuaObject × Logged}
    {plain : Composer → Text → LuaObject × Composer} {assigned : Text → Prop} {n : Text}
    (htrack : ∀ name, Tracks (push · name) (plain · name))
    (hpure : ∀ name, Pure (plain · name))
    (hpush : ∀ s name, SameCombination s.composer c →
      (n ∈ (push s name).2.writes ↔ n ∈ s.writes ∨ assigned name))
    (chunk : LuaCode) {s : Logged} (hs : SameCombination s.composer c) :
    n ∈ (runLogged push chunk s).2.writes ↔
      n ∈ s.writes ∨ ∃ m, Asks (fun name => (plain c name).1) chunk m ∧ assigned m := by
  induction chunk generalizing s with
  | finish result =>
    refine ⟨.inl, fun h => h.resolve_right ?_⟩
    rintro ⟨m, hm, _⟩
    cases hm
  | index name resume ih =>
    obtain ⟨hobject, hcomposer⟩ := htrack name s
    have hanswer : (push s name).1 = (plain c name).1 := hobject.trans ((hpure name).same hs)
    have hnext : SameCombination (push s name).2.composer c := by
      rw [hcomposer, SameCombination, (hpure name).frame]
      exact hs
    simp only [runLogged]
    rw [ih (push s name).1 hnext, hpush s name hs, hanswer, or_assoc]
    constructor
    · rintro (hw | ha | ⟨m, hm, ha⟩)
      · exact .inl hw
      · exact .inr ⟨name, .here name resume, ha⟩
      · exact .inr ⟨m, .later hm, ha⟩
    · rintro (hw | ⟨m, hm, ha⟩)
      · exact .inl hw
      · cases hm with
        | here => exact .inr (.inl ha)
        | later hm => exact .inr (.inr ⟨m, hm, ha⟩)

theorem valueEvalLuaLogged_writes (lua : Lua) (c : Composer) (depth : ℕ) (name source n : Text)
    {s : Logged} (hs : SameCombination s.composer c) :
    n ∈ (valueEvalLuaLogged lua depth s name source).2.writes ↔
      n ∈ s.writes ∨ n = name ∨ IsLua c n ∧ LooksUp lua c depth source n := by
  induction depth generalizing name source s with
  | zero =>
    have hnone : ¬ (IsLua c n ∧ LooksUp lua c 0 source n) := by
      rintro ⟨_, h⟩
      cases h
    simp [valueEvalLuaLogged, Logged.store, hnone]
  | succ depth ih =>
    have hpush : ∀ (s : Logged) (m : Text), SameCombination s.composer c →
        (n ∈ (pathcompPushValueLogged (valueEvalLuaLogged lua depth) s m).2.writes ↔
          n ∈ s.writes ∨ ∃ source' result, currentValue c m = some (.lua source' result) ∧
            (n = m ∨ IsLua c n ∧ LooksUp lua c depth source' n)) := by
      intro s m hs
      by_cases hlua : IsLua s.composer m
      · obtain ⟨source', result, hv⟩ := hlua
        obtain ⟨result', hv'⟩ := currentValue_isLua hs hv
        rw [pushLogged_some hv]
        change n ∈ (valueEvalLuaLogged lua depth s m source').2.writes ↔ _
        rw [ih m source' hs]
        constructor
        · rintro (hw | ha)
          · exact .inl hw
          · exact .inr ⟨source', result', hv', ha⟩
        · rintro (hw | ⟨source'', result'', hv'', ha⟩)
          · exact .inl hw
          · rw [hv'] at hv''
            cases hv''
            exact .inr ha
      · rw [pushLogged_of_not_lua hlua]
        refine ⟨.inl, fun h => h.resolve_right ?_⟩
        rintro ⟨source', result, hv, _⟩
        obtain ⟨result', hv'⟩ := currentValue_isLua hs.symm hv
        exact hlua ⟨source', result', hv'⟩
    have hrun := runLogged_writes
      (pathcompPushValueLogged_tracks (valueEvalLuaLogged_tracks lua depth))
      (pathcompPushValue_pure (valueEvalLua_pure lua depth)) hpush (lua source) hs
    simp only [valueEvalLuaLogged, Logged.store, List.mem_append, List.mem_singleton, hrun]
    constructor
    · rintro ((hw | ⟨m, hm, source', result, hv, rfl | ⟨hlua, hlook⟩⟩) | rfl)
      · exact .inl hw
      · exact .inr (.inr ⟨⟨source', result, hv⟩, .direct hm⟩)
      · exact .inr (.inr ⟨hlua, .through hm hv hlook⟩)
      · exact .inr (.inl rfl)
    · rintro (hw | rfl | ⟨⟨source', result, hv⟩, hlook⟩)
      · exact .inl (.inl hw)
      · exact .inr rfl
      · cases hlook with
        | direct hm => exact .inl (.inr ⟨n, hm, source', result, hv, .inl rfl⟩)
        | @through _ _ m source'' _ result' hm hmv htail =>
          exact .inl (.inr ⟨m, hm, source'', result', hmv,
            .inr ⟨⟨source', result, hv⟩, htail⟩⟩)

/-- A field that the evaluator does not assign holds what it held before. -/
def Frames {α : Type} (n : Text) (f : Logged → α × Logged) : Prop :=
  ∀ s : Logged, n ∉ (f s).2.writes →
    n ∉ s.writes ∧ currentValue (f s).2.composer n = currentValue s.composer n

theorem store_frames {n : Text} (s : Logged) (name : Text) (result : Option Text)
    (h : n ∉ (s.store name result).writes) :
    n ∉ s.writes ∧ currentValue (s.store name result).composer n =
      currentValue s.composer n := by
  simp only [Logged.store, List.mem_append, List.mem_singleton, not_or] at h
  refine ⟨h.1, ?_⟩
  simp only [currentValue, Logged.store]
  rw [@retrieve_onAtt_of_ne s.composer name n (Ne.symm h.2) (Att.setResult result) fun _ => rfl]

theorem runLogged_frames {n : Text} {push : Logged → Text → LuaObject × Logged}
    (h : ∀ name, Frames n (push · name)) (chunk : LuaCode) :
    Frames n (runLogged push chunk) := by
  induction chunk with
  | finish result => exact fun s hs => ⟨hs, rfl⟩
  | index name resume ih =>
    intro s hs
    obtain ⟨hmid, hlast⟩ := ih (push s name).1 (push s name).2 hs
    obtain ⟨hfirst, hvalue⟩ := h name s hmid
    exact ⟨hfirst, hlast.trans hvalue⟩

theorem pushLogged_frames {n : Text} {evalLua : Logged → Text → Text → Option Text × Logged}
    (h : ∀ name source, Frames n (evalLua · name source)) (name : Text) :
    Frames n (pathcompPushValueLogged evalLua · name) := by
  intro s hs
  by_cases hlua : IsLua s.composer name
  · obtain ⟨source, result, hv⟩ := hlua
    simp only [pushLogged_some hv] at hs ⊢
    exact h name source s hs
  · simp only [pushLogged_of_not_lua hlua] at hs ⊢
    exact ⟨hs, trivial⟩

theorem valueEvalLuaLogged_frames (lua : Lua) (depth : ℕ) (n name source : Text) :
    Frames n (valueEvalLuaLogged lua depth · name source) := by
  induction depth generalizing name source with
  | zero => exact fun s hs => store_frames s name none hs
  | succ depth ih =>
    intro s hs
    obtain ⟨hmid, hlast⟩ := store_frames _ name _ hs
    obtain ⟨hfirst, hvalue⟩ := runLogged_frames (pushLogged_frames ih) (lua source) s hmid
    exact ⟨hfirst, hlast.trans hvalue⟩

theorem evalLogged_frames (lua : Lua) (depth : ℕ) (n name : Text) :
    Frames n (pathcompEvalNocopyLogged lua depth · name) := by
  intro s hs
  cases hv : currentValue s.composer name with
  | none =>
    simp only [evalLogged_none hv] at hs ⊢
    exact ⟨hs, trivial⟩
  | some v =>
    simp only [evalLogged_some hv] at hs ⊢
    cases v with
    | string result => exact ⟨hs, rfl⟩
    | int integer result => exact store_frames s name _ hs
    | lua source result => exact valueEvalLuaLogged_frames lua depth n name source s hs

/-- The string of a root that is kept is still there when it is copied. -/
theorem root_current {lua : Lua} {depth : ℕ} {c : Composer} (h : RootKept lua depth c) :
    currentValue (pathcompYield lua depth c).2 attRoot =
      currentValue (pathcompEvalNocopy lua depth c attRoot).2 attRoot := by
  have htrack := (pathcompEvalNocopyLogged_tracks lua depth attCompose
    ⟨(pathcompEvalNocopy lua depth c attRoot).2, []⟩).2
  rw [pathcompYield_eq, ← (evalLogged_frames lua depth attRoot attCompose _ h).2]
  exact congrArg (currentValue · attRoot) htrack.symm

theorem evalLogged_of_not_lua {lua : Lua} {depth : ℕ} {s : Logged} {name : Text}
    (h : ¬ IsLua s.composer name) :
    (pathcompEvalNocopyLogged lua depth s name).2.writes ⊆ s.writes ++ [name] := by
  cases hv : currentValue s.composer name with
  | none =>
    rw [evalLogged_none hv]
    exact List.subset_append_left _ _
  | some v =>
    rw [evalLogged_some hv]
    cases v with
    | string result => exact List.subset_append_left _ _
    | int integer result => exact List.Subset.refl _
    | lua source result => exact absurd ⟨source, result, hv⟩ h

theorem root_assigned_iff (lua : Lua) (depth : ℕ) (c : Composer) :
    attRoot ∈ writesAfterRoot lua depth c ↔ IsLua c attRoot ∧
    ComposeLooksUpRoot lua depth c := by
  have hs : SameCombination (pathcompEvalNocopy lua depth c attRoot).2 c := by
    rw [SameCombination, (pathcompEvalNocopy_pure lua depth attRoot).frame]
  have hne : attRoot ≠ attCompose := by decide
  unfold writesAfterRoot ComposeLooksUpRoot
  generalize (pathcompEvalNocopy lua depth c attRoot).2 = d at hs
  by_cases hlua : IsLua d attCompose
  · obtain ⟨source, result, hv⟩ := hlua
    obtain ⟨result', hv'⟩ := currentValue_isLua hs hv
    have hsome : currentValue (⟨d, []⟩ : Logged).composer attCompose =
        some (.lua source result) := hv
    rw [evalLogged_some hsome]
    change attRoot ∈ (valueEvalLuaLogged lua depth ⟨d, []⟩ attCompose source).2.writes ↔ _
    rw [valueEvalLuaLogged_writes lua c depth attCompose source attRoot hs]
    constructor
    · rintro (hw | he | ⟨hroot, hlook⟩)
      · cases hw
      · exact absurd he hne
      · exact ⟨hroot, source, result', hv', hlook⟩
    · rintro ⟨hroot, source', result'', hv'', hlook⟩
      rw [hv'] at hv''
      cases hv''
      exact .inr (.inr ⟨hroot, hlook⟩)
  · refine iff_of_false (fun hw => ?_) ?_
    · have hmem := evalLogged_of_not_lua (s := ⟨d, []⟩) hlua hw
      exact hne (List.mem_singleton.mp hmem)
    · rintro ⟨_, source, result, hv, _⟩
      obtain ⟨result', hv'⟩ := currentValue_isLua hs.symm hv
      exact hlua ⟨source, result', hv'⟩

/-- The root string stays current exactly if `root` is not computed by Lua or the
    evaluation of `compose` does not look it up. -/
theorem root_kept_iff (lua : Lua) (depth : ℕ) (c : Composer) :
    RootKept lua depth c ↔ ¬ IsLua c attRoot ∨ ¬ ComposeLooksUpRoot lua depth c := by
  rw [RootKept, root_assigned_iff, not_and_or]

def rootSource : Text := ascii "local self = ...;  return '/a' "

def composeSource : Text := ascii "local self = ...;  return self.root "

/-- `root` is one chunk, and the chunk of `compose` returns what it finds there. -/
def rootedComposer : Composer :=
  { name := ascii "image"
    attributes := [attNew attRoot (.lua rootSource none) none,
      attNew attCompose (.lua composeSource none) none]
    metatable := ascii "libpathcomp::image", done := false, started := false }

example :
    (do
      let c ← pathcompNew none 1 (ascii "image")
      let c ← pathcompSet c attRoot (ascii "lua \x7b return '/a' \x7d")
      pathcompSet c attCompose (ascii "lua \x7b return self.root \x7d")) = .ok rootedComposer := by
  rfl

def rootedLua : Lua := fun source =>
  if source = rootSource then .finish (some (ascii "/a"))
  else .index attRoot fun object =>
    match object with
    | .string text => .finish (some text)
    | _ => .finish none

/-- The string of `root` is replaced before it is copied. -/
theorem rooted_root_replaced :
    (pathcompEvalNocopy rootedLua 9 rootedComposer attRoot).1 = some (ascii "/a") ∧
    writesAfterRoot rootedLua 9 rootedComposer = [attRoot, attCompose] ∧
    ¬ RootKept rootedLua 9 rootedComposer := by
  have hwrites : writesAfterRoot rootedLua 9 rootedComposer = [attRoot, attCompose] := by rfl
  refine ⟨rfl, hwrites, fun h => ?_⟩
  rw [RootKept, hwrites] at h
  exact h (List.mem_cons_self)

end Pathcomp.Lifetimes
