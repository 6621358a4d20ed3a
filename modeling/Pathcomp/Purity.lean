import Pathcomp.Evaluation

set_option autoImplicit false

/-!
# Evaluation changes nothing but caches

Erasing the caches of a composer leaves what evaluation may depend on: the
attributes with their alternatives and current positions. Evaluation gives equal
answers on composers that agree in these, and changes nothing but caches.
-/
namespace Pathcomp.Purity
open Bytes Buffer Config Values Attributes Composers Evaluation

theorem map_modifyFirst {α β : Type} (p : α → Bool) (f : α → α) (g : α → β)
    (h : ∀ x, g (f x) = g x) (xs : List α) : (modifyFirst p f xs).map g = xs.map g := by
  induction xs with
  | nil => rfl
  | cons x xs ih =>
    unfold modifyFirst
    split
    · simp [h]
    · simp [ih]

@[simp] theorem erase_onAtt_setResult (composer : Composer) (name : Text) (result : Option Text) :
    (composer.onAtt name (Att.setResult result)).erase = composer.erase := by
  simp only [Composer.erase, Composer.onAtt]
  rw [map_modifyFirst _ _ _ (Att.erase_setResult result)]

theorem retrieve_erase (composer : Composer) (name : Text) :
    pathcompRetrieveAtt composer.erase name =
      (pathcompRetrieveAtt composer name).map Att.erase := by
  unfold pathcompRetrieveAtt Composer.erase
  rw [List.find?_map]
  rfl

theorem attCurrentValue_erase (att : Att) :
    attCurrentValue att.erase = (attCurrentValue att).map Value.erase := by
  unfold attCurrentValue Att.erase
  cases att.current with
  | none => rfl
  | some p => simp

def currentValue (composer : Composer) (name : Text) : Option Value :=
  (pathcompRetrieveAtt composer name).bind attCurrentValue

theorem currentValue_none {c : Composer} {name : Text} (h : currentValue c name = none) :
    pathcompRetrieveAtt c name = none ∨
      ∃ att, pathcompRetrieveAtt c name = some att ∧ attCurrentValue att = none := by
  unfold currentValue at h
  cases hr : pathcompRetrieveAtt c name with
  | none => exact .inl rfl
  | some att =>
    rw [hr] at h
    exact .inr ⟨att, rfl, h⟩

section Current
variable {plain : Composer → Text → Text → Option Text × Composer} {c : Composer}
  {name : Text} {v : Value}

theorem push_none (h : currentValue c name = none) :
    pathcompPushValue plain c name = (.nil, c) := by
  rcases currentValue_none h with hr | ⟨att, hr, hv⟩
  · simp only [pathcompPushValue, hr]
  · simp only [pathcompPushValue, hr, attPush, hv]

theorem push_some (h : currentValue c name = some v) :
    pathcompPushValue plain c name = valuePush plain c name v := by
  obtain ⟨att, hr, hv⟩ := Option.bind_eq_some_iff.mp h
  simp only [pathcompPushValue, hr, attPush, hv]

theorem evalNocopy_none {lua : Lua} {depth : ℕ} (h : currentValue c name = none) :
    pathcompEvalNocopy lua depth c name = (none, c) := by
  rcases currentValue_none h with hr | ⟨att, hr, hv⟩
  · simp only [pathcompEvalNocopy, hr]
  · simp only [pathcompEvalNocopy, hr, attEval, hv]

theorem evalNocopy_some {lua : Lua} {depth : ℕ} (h : currentValue c name = some v) :
    pathcompEvalNocopy lua depth c name = valueEval (valueEvalLua lua depth) c name v := by
  obtain ⟨att, hr, hv⟩ := Option.bind_eq_some_iff.mp h
  simp only [pathcompEvalNocopy, hr, attEval, hv]

end Current

theorem currentValue_erase (composer : Composer) (name : Text) :
    currentValue composer.erase name = (currentValue composer name).map Value.erase := by
  unfold currentValue
  rw [retrieve_erase]
  cases pathcompRetrieveAtt composer name with
  | none => rfl
  | some att => exact attCurrentValue_erase att

/-- Equal attributes, alternatives and current positions, whatever is cached. -/
def SameCombination (c d : Composer) : Prop := c.erase.attributes = d.erase.attributes

theorem currentValue_congr {c d : Composer} (h : SameCombination c d) (name : Text) :
    (currentValue c name).map Value.erase = (currentValue d name).map Value.erase := by
  rw [← currentValue_erase, ← currentValue_erase]
  simp only [currentValue, pathcompRetrieveAtt]
  rw [show c.erase.attributes = d.erase.attributes from h]

/-- An evaluator whose answer depends on the current combination only and which
    changes nothing but caches. -/
def Pure {α : Type} (eval : Composer → α × Composer) : Prop :=
  ∀ c d : Composer, SameCombination c d →
    (eval c).1 = (eval d).1 ∧ (eval c).2.erase = c.erase

theorem Pure.same {α : Type} {eval : Composer → α × Composer} (h : Pure eval)
    {c d : Composer} (hcd : SameCombination c d) : (eval c).1 = (eval d).1 := (h c d hcd).1

theorem Pure.frame {α : Type} {eval : Composer → α × Composer} (h : Pure eval) (c : Composer) :
    (eval c).2.erase = c.erase := (h c c rfl).2

theorem luaCode_run_pure {push : Composer → Text → LuaObject × Composer}
    (hp : ∀ name, Pure (push · name)) (chunk : LuaCode) : Pure (chunk.run push) := by
  induction chunk with
  | finish result => exact fun c d _ => ⟨rfl, rfl⟩
  | index name resume ih =>
    intro c d h
    have hn := hp name
    have he : SameCombination (push c name).2 (push d name).2 := by
      rw [SameCombination, hn.frame c, hn.frame d]
      exact h
    obtain ⟨hr, hf⟩ := ih (push c name).1 _ _ he
    simp only [LuaCode.run]
    rw [← hn.same h]
    exact ⟨hr, hf.trans (hn.frame c)⟩

/-- An evaluator that looks up an attribute is pure when what it does with the
    current value is, whatever that value has cached. -/
theorem pure_of_currentValue {α : Type} (name : Text) (eval : Composer → α × Composer)
    (absent : α) (onValue : Composer → Value → α × Composer)
    (hnone : ∀ c, currentValue c name = none → eval c = (absent, c))
    (hsome : ∀ c v, currentValue c name = some v → eval c = onValue c v)
    (hv : ∀ v w : Value, v.erase = w.erase → ∀ c d : Composer, SameCombination c d →
      (onValue c v).1 = (onValue d w).1 ∧ (onValue c v).2.erase = c.erase) : Pure eval := by
  intro c d h
  have hcd := currentValue_congr h name
  cases hc : currentValue c name with
  | none =>
    rw [hc] at hcd
    cases hd : currentValue d name with
    | none =>
      rw [hnone c hc, hnone d hd]
      exact ⟨rfl, rfl⟩
    | some w => simp [hd] at hcd
  | some v =>
    rw [hc] at hcd
    cases hd : currentValue d name with
    | none => simp [hd] at hcd
    | some w =>
      rw [hd] at hcd
      rw [hsome c v hc, hsome d w hd]
      exact hv v w (by simpa using hcd) c d h

section Dispatch
variable {evalLua : Composer → Text → Text → Option Text × Composer}
  (hl : ∀ name source, Pure (evalLua · name source))
include hl

theorem valuePush_pure (name : Text) (v w : Value) (hvw : v.erase = w.erase) (c d : Composer)
    (h : SameCombination c d) :
    (valuePush evalLua c name v).1 = (valuePush evalLua d name w).1 ∧
      (valuePush evalLua c name v).2.erase = c.erase := by
  cases v <;> cases w <;> simp only [Value.erase, reduceCtorEq, Value.string.injEq,
    Value.lua.injEq, Value.int.injEq, and_true] at hvw
  case string r r' => exact ⟨congrArg LuaObject.string hvw, rfl⟩
  case lua source _ source' _ =>
    subst hvw
    obtain ⟨hr, hf⟩ := hl name source c d h
    exact ⟨congrArg luaPushstring hr, hf⟩
  case int n _ n' _ => exact ⟨congrArg LuaObject.integer hvw, rfl⟩

theorem valueEval_pure (name : Text) (v w : Value) (hvw : v.erase = w.erase) (c d : Composer)
    (h : SameCombination c d) :
    (valueEval evalLua c name v).1 = (valueEval evalLua d name w).1 ∧
      (valueEval evalLua c name v).2.erase = c.erase := by
  cases v <;> cases w <;> simp only [Value.erase, reduceCtorEq, Value.string.injEq,
    Value.lua.injEq, Value.int.injEq, and_true] at hvw
  case string r r' => exact ⟨congrArg some hvw, rfl⟩
  case lua source _ source' _ =>
    subst hvw
    exact hl name source c d h
  case int n _ n' _ =>
    subst hvw
    exact ⟨rfl, erase_onAtt_setResult c name _⟩

theorem pathcompPushValue_pure (name : Text) : Pure (pathcompPushValue evalLua · name) := by
  apply pure_of_currentValue name _ .nil (valuePush evalLua · name) _ _ (valuePush_pure hl name)
  · intro c h
    exact push_none h
  · intro c v h
    exact push_some h

end Dispatch

theorem valueEvalLua_pure (lua : Lua) (depth : ℕ) (name source : Text) :
    Pure (valueEvalLua lua depth · name source) := by
  induction depth generalizing name source with
  | zero => exact fun c d _ => ⟨rfl, erase_onAtt_setResult c name none⟩
  | succ depth ih =>
    intro c d h
    obtain ⟨hr, hf⟩ := luaCode_run_pure (pathcompPushValue_pure ih) (lua source) c d h
    refine ⟨hr, ?_⟩
    simp only [valueEvalLua, erase_onAtt_setResult]
    exact hf

theorem pathcompEvalNocopy_pure (lua : Lua) (depth : ℕ) (name : Text) :
    Pure (pathcompEvalNocopy lua depth · name) := by
  have hl := valueEvalLua_pure lua depth
  apply pure_of_currentValue name _ none (valueEval (valueEvalLua lua depth) · name) _ _
    (valueEval_pure hl name)
  · intro c h
    exact evalNocopy_none h
  · intro c v h
    exact evalNocopy_some h

theorem pathcompEval_pure (lua : Lua) (depth : ℕ) (name : Text) :
    Pure (pathcompEval lua depth · name) := by
  intro c d h
  obtain ⟨hr, hf⟩ := pathcompEvalNocopy_pure lua depth name c d h
  exact ⟨congrArg (Option.map cstr) hr, hf⟩

theorem pathcompYield_eq (lua : Lua) (depth : ℕ) (composer : Composer) :
    pathcompYield lua depth composer =
      let root := pathcompEvalNocopy lua depth composer attRoot
      let compose := pathcompEvalNocopy lua depth root.2 attCompose
      let path := addNonempty (addNonempty bufInit root.1 [byte '/']) compose.1 []
      (if path.bytes.length = 0 then none else some path.bytes, compose.2) := rfl

theorem pathcompYield_pure (lua : Lua) (depth : ℕ) : Pure (pathcompYield lua depth) := by
  intro c d h
  have hroot := pathcompEvalNocopy_pure lua depth attRoot
  have hcompose := pathcompEvalNocopy_pure lua depth attCompose
  have hmid : SameCombination (pathcompEvalNocopy lua depth c attRoot).2
      (pathcompEvalNocopy lua depth d attRoot).2 := by
    rw [SameCombination, hroot.frame c, hroot.frame d]
    exact h
  rw [pathcompYield_eq, pathcompYield_eq]
  constructor
  · simp only [hroot.same h, hcompose.same hmid]
  · exact (hcompose.frame _).trans (hroot.frame c)

end Pathcomp.Purity
