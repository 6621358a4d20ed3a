import Pathcomp.Values

set_option autoImplicit false

/-!
# Attributes

A `list_t *` that points at a node of the alternatives is the position of that
node, and NULL is `none`: `listFirst` is the pointer to the first node and
`listNext` follows `->next`.
-/
namespace Pathcomp.Attributes
open Bytes Values

structure Att where
  name : Text
  alternatives : List Value
  current : Option ℕ
  origin : Option Text
  deriving DecidableEq, Repr

def listPush {α : Type} (list : List α) (el : α) : List α := list ++ [el]

def listFirst {α : Type} (list : List α) : Option ℕ := if list.isEmpty then none else some 0

def listNext {α : Type} (list : List α) (p : ℕ) : Option ℕ :=
  if p + 1 < list.length then some (p + 1) else none

def attNew (name : Text) (value : Value) (origin : Option Text) : Att :=
  { name, alternatives := [value], current := listFirst [value], origin }

/-- The counting loop of `att_clone`: `p` runs over the original nodes (`rest`
    are those from `p` on) while `q` runs over the copied ones. -/
def attCloneCurrent (target : Option ℕ) (copies : List Value) :
    ℕ → List Value → Option ℕ → Except Halt (Option ℕ)
  | _, [], q => if target = none then .ok q else .error .assertion
  | p, _ :: rest, q =>
    if target = some p then .ok q
    else
      match q with
      | none => .error .assertion
      | some q => attCloneCurrent target copies (p + 1) rest (listNext copies q)

def attClone (att : Att) : Except Halt Att :=
  let alternatives := att.alternatives.map valueClone
  match attCloneCurrent att.current alternatives 0 att.alternatives (listFirst alternatives) with
  | .ok current => .ok { name := att.name, alternatives, current, origin := att.origin }
  | .error halt => .error halt

def attReplaceValue (att : Att) (value : Value) (origin : Option Text) : Att :=
  { att with alternatives := [value], current := listFirst [value], origin }

/-- The list returned by `list_push` is discarded, so that a value pushed on an
    empty list of alternatives would be lost. -/
def attAddValue (att : Att) (value : Value) : Att :=
  match att.alternatives with
  | [] => att
  | first :: rest => { att with alternatives := listPush (first :: rest) value }

def attNameEqualTo (name : Text) (att : Att) : Bool := att.name = name

def attGetOrigin (att : Att) : Option Text := att.origin

def attRewind (att : Att) : Att := { att with current := listFirst att.alternatives }

def attNext (att : Att) : Bool × Att :=
  match att.current with
  | none => (false, att)
  | some p =>
    let current := listNext att.alternatives p
    (current.isSome, { att with current })

/-- The value that `att_eval` and `att_push` read through `current`. -/
def attCurrentValue (att : Att) : Option Value := att.current.bind (att.alternatives[·]?)

/-- At least one alternative, and `current` is the pointer to one of them. -/
def Att.Valid (att : Att) : Prop := ∃ p < att.alternatives.length, att.current = some p

def Att.AtFirst (att : Att) : Prop := att.current = listFirst att.alternatives

def Att.setResult (result : Option Text) (att : Att) : Att :=
  { att with alternatives :=
      match att.current with
      | none => att.alternatives
      | some p => att.alternatives.modify p (Value.setResult result) }

def Att.erase (att : Att) : Att := { att with alternatives := att.alternatives.map Value.erase }

instance (att : Att) : Decidable att.AtFirst := inferInstanceAs (Decidable (_ = _))

theorem Att.Valid.nonempty {att : Att} (h : att.Valid) : att.alternatives ≠ [] := by
  obtain ⟨p, hp, _⟩ := h
  intro he
  simp [he] at hp

theorem listFirst_of_ne {α : Type} {list : List α} (h : list ≠ []) :
    listFirst list = some 0 := by
  cases list with
  | nil => exact absurd rfl h
  | cons _ _ => rfl

theorem Att.Valid.of_atFirst {att : Att} (hn : att.alternatives ≠ []) (h : att.AtFirst) :
    att.Valid :=
  ⟨0, List.length_pos_iff.mpr hn, h.trans (listFirst_of_ne hn)⟩

theorem attNew_valid (name : Text) (value : Value) (origin : Option Text) :
    (attNew name value origin).Valid := ⟨0, by simp [attNew], rfl⟩

theorem attReplaceValue_valid (att : Att) (value : Value) (origin : Option Text) :
    (attReplaceValue att value origin).Valid := ⟨0, by simp [attReplaceValue], rfl⟩

theorem attAddValue_alternatives {att : Att} (h : att.alternatives ≠ []) (value : Value) :
    attAddValue att value = { att with alternatives := att.alternatives ++ [value] } := by
  unfold attAddValue
  split
  · rename_i he
    exact absurd he h
  · rename_i he
    rw [he, listPush]

theorem attAddValue_valid {att : Att} (h : att.Valid) (value : Value) :
    (attAddValue att value).Valid := by
  rw [attAddValue_alternatives h.nonempty]
  obtain ⟨p, hp, hc⟩ := h
  exact ⟨p, by simp; omega, hc⟩

theorem attAddValue_atFirst {att : Att} (hn : att.alternatives ≠ []) (h : att.AtFirst)
    (value : Value) : (attAddValue att value).AtFirst := by
  rw [attAddValue_alternatives hn]
  unfold Att.AtFirst at *
  rw [h, listFirst_of_ne hn, listFirst_of_ne (by simp)]

theorem attRewind_valid {att : Att} (h : att.Valid) : (attRewind att).Valid :=
  Att.Valid.of_atFirst h.nonempty rfl

theorem attClone_loop {copies : List Value} {target : ℕ} (rest : List Value) (p : ℕ)
    (hle : p ≤ target) (hlt : target < p + rest.length) (hlen : p + rest.length = copies.length) :
    attCloneCurrent (some target) copies p rest (some p) = .ok (some target) := by
  -- both pointers stand at the same position, so the copy never runs off its list
  induction rest generalizing p with
  | nil => simp at hlt; omega
  | cons v rest ih =>
    simp only [List.length_cons] at hlt hlen
    unfold attCloneCurrent
    by_cases he : target = p
    · simp [he]
    · have hn : listNext copies p = some (p + 1) := by
        unfold listNext
        rw [if_pos (by omega)]
      simp only [Option.some.injEq, he, ↓reduceIte, hn]
      exact ih (p + 1) (by omega) (by omega) (by omega)

/-- On a valid attribute no assertion of `att_clone` fails and the copy equals
    its original, the current position included. -/
theorem attClone_valid {att : Att} (h : att.Valid) : attClone att = .ok att := by
  have hn := h.nonempty
  obtain ⟨p, hp, hc⟩ := h
  have hm : att.alternatives.map valueClone = att.alternatives := by
    rw [funext valueClone_eq]
    exact List.map_id' _
  unfold attClone
  simp only [hm, hc, listFirst_of_ne hn]
  rw [attClone_loop att.alternatives 0 (by omega) (by omega) (by omega), ← hc]

theorem attCurrentValue_valid {att : Att} (h : att.Valid) :
    ∃ v ∈ att.alternatives, attCurrentValue att = some v := by
  obtain ⟨p, hp, hc⟩ := h
  exact ⟨att.alternatives[p], List.getElem_mem hp, by simp [attCurrentValue, hc, hp]⟩

/-- Storing a result touches nothing but a cache. -/
@[simp] theorem Att.erase_setResult (result : Option Text) (att : Att) :
    (att.setResult result).erase = att.erase := by
  have hl : (match att.current with
      | none => att.alternatives
      | some p => att.alternatives.modify p (Value.setResult result)).map Value.erase =
      att.alternatives.map Value.erase := by
    split
    · rfl
    · apply List.ext_getElem?
      intro i
      simp only [List.getElem?_map, List.getElem?_modify, Option.map_eq_map, Option.map_map]
      congr 1
      funext v
      split <;> simp
  simp only [Att.erase, Att.setResult, hl]

end Pathcomp.Attributes
