import Pathcomp.Composers

set_option autoImplicit false

/-!
# Assignments on the command line

`key=value` sets an attribute and `key+=value` adds to it. `kv_new` splits the
argument at the first `=` and looks at the end of the key for the `+` afterwards.
-/
namespace Pathcomp.CommandLine
open Bytes Config Composers

structure Kv where
  key : Text
  value : Text
  add : Bool
  deriving DecidableEq, Repr

/-- `kv_new` returns NULL after it has logged the message. -/
inductive KvResult where
  | rejected (message : Text)
  | kv (kv : Kv)
  deriving DecidableEq, Repr

def strchr : Text → UInt8 → Option ℕ
  | [], _ => none
  | b :: s, c => if b = c then some 0 else (strchr s c).map (· + 1)

def emptyKey : KvResult := .rejected (ascii "empty key specified on command line")

def kvNew (text : Text) : Except Halt KvResult :=
  match strchr text (byte '=') with
  | none => .error .assertion
  | some val =>
    let key := text.take val
    let value := text.drop (val + 1)
    if key.length < 1 then .ok emptyKey
    else if key[key.length - 1]? = some (byte '+') then
      .ok (.kv ⟨key.take (key.length - 1), value, true⟩)
    else .ok (.kv ⟨key, value, false⟩)

def kvAddToComposer (kv : Kv) (composer : Composer) : Except Halt Composer :=
  if kv.add then pathcompAdd composer kv.key kv.value else pathcompSet composer kv.key kv.value

def kvList : List Text → Except Halt (List Kv)
  | [] => .ok []
  | text :: texts =>
    match kvNew text with
    | .error halt => .error halt
    | .ok (.rejected _) => .error .assertion
    | .ok (.kv kv) =>
      match kvList texts with
      | .error halt => .error halt
      | .ok kvs => .ok (kv :: kvs)

/-- What precedes the first `=`, or what precedes the `+=` if there is a `+` before
    that `=`. -/
def keyPart (text : Text) : Text :=
  let before := text.takeWhile (· ≠ byte '=')
  if before.getLast? = some (byte '+') then before.dropLast else before

def operator (add : Bool) : Text := if add then ascii "+=" else ascii "="

/-- The argument is taken apart as the usage message says. -/
structure AsDocumented (text : Text) : Prop where
  returns : kvNew text = .ok emptyKey ∨ ∃ kv, kvNew text = .ok (.kv kv)
  sound : ∀ kv, kvNew text = .ok (.kv kv) →
    kv.key ≠ [] ∧ byte '=' ∉ kv.key ∧ text = kv.key ++ (operator kv.add ++ kv.value)
  rejects : kvNew text = .ok emptyKey ↔ keyPart text = []
  complete : ∀ key value add, key ≠ [] → byte '=' ∉ key →
    key.getLast? ≠ some (byte '+') →
    text = key ++ (operator add ++ value) → kvNew text = .ok (.kv ⟨key, value, add⟩)

theorem strchr_append {front back : Text} {c : UInt8} (h : c ∉ front) :
    strchr (front ++ c :: back) c = some front.length := by
  induction front with
  | nil => simp [strchr]
  | cons b front ih =>
    rw [List.mem_cons, not_or] at h
    rw [List.cons_append, strchr, if_neg (Ne.symm h.1), ih h.2]
    rfl

theorem kvNew_split {key value : Text} (h : byte '=' ∉ key) :
    kvNew (key ++ byte '=' :: value) =
      if key = [] then .ok emptyKey
      else if key.getLast? = some (byte '+') then .ok (.kv ⟨key.dropLast, value, true⟩)
      else .ok (.kv ⟨key, value, false⟩) := by
  have hvalue : (key ++ byte '=' :: value).drop (key.length + 1) = value := by
    rw [List.drop_length_add_append]
    rfl
  rw [kvNew, strchr_append h]
  simp only [List.take_left, hvalue, Nat.lt_one_iff, List.length_eq_zero_iff,
    List.getLast?_eq_getElem?, List.dropLast_eq_take]

theorem keyPart_split {key value : Text} (h : byte '=' ∉ key) :
    keyPart (key ++ byte '=' :: value) =
      if key.getLast? = some (byte '+') then key.dropLast else key := by
  have hkey : ∀ b ∈ key, decide (b ≠ byte '=') = true := by
    intro b hb
    simp only [decide_eq_true_eq]
    rintro rfl
    exact h hb
  have hbefore : (key ++ byte '=' :: value).takeWhile (· ≠ byte '=') = key := by
    rw [List.takeWhile_append_of_pos hkey, List.takeWhile_cons_of_neg (by simp), List.append_nil]
  rw [keyPart, hbefore]

theorem dropLast_concat_of_getLast? {key : Text} {c : UInt8} (h : key.getLast? = some c) :
    key = key.dropLast ++ [c] := by
  obtain ⟨front, rfl⟩ := List.getLast?_eq_some_iff.mp h
  rw [List.dropLast_concat]

theorem kvNew_complete {key value : Text} {add : Bool} (hne : key ≠ []) (heq : byte '=' ∉ key)
    (hplus : key.getLast? ≠ some (byte '+')) :
    kvNew (key ++ (operator add ++ value)) = .ok (.kv ⟨key, value, add⟩) := by
  cases add with
  | false =>
    rw [show operator false ++ value = byte '=' :: value from rfl, kvNew_split heq, if_neg hne,
      if_neg hplus]
  | true =>
    have heq' : byte '=' ∉ key ++ [byte '+'] := by
      rw [List.mem_append, not_or]
      exact ⟨heq, by decide⟩
    rw [show key ++ (operator true ++ value) = (key ++ [byte '+']) ++ byte '=' :: value by
      simp [operator, ascii, byte], kvNew_split heq', if_neg (by simp), if_pos (by simp),
      List.dropLast_concat]

theorem plus_prefix_iff {key value : Text} (h : byte '=' ∉ key) :
    ascii "+=" <+: key ++ byte '=' :: value ↔ key = [byte '+'] := by
  rw [show ascii "+=" = [byte '+', byte '='] by decide]
  constructor
  · intro hplus
    cases key with
    | nil =>
      rw [List.nil_append, List.cons_prefix_cons] at hplus
      exact absurd hplus.1 (by decide)
    | cons b key =>
      rw [List.cons_append, List.cons_prefix_cons] at hplus
      obtain ⟨rfl, hplus⟩ := hplus
      cases key with
      | nil => rfl
      | cons c key =>
        rw [List.cons_append, List.cons_prefix_cons] at hplus
        obtain ⟨rfl, _⟩ := hplus
        exact absurd h (by simp)
  · rintro rfl
    exact ⟨value, rfl⟩

/-- The key is tested before the `+` is removed from it, so that an argument `+=value`
    is accepted with an empty key. -/
theorem assignment_as_documented_iff (text : Text) (h : byte '=' ∈ text) :
    AsDocumented text ↔ ¬ ascii "+=" <+: text := by
  obtain ⟨key, value, rfl, hkey⟩ := List.eq_append_cons_of_mem h
  rw [plus_prefix_iff hkey]
  constructor
  · rintro hdoc rfl
    have hnew : kvNew ([byte '+'] ++ byte '=' :: value) = .ok (.kv ⟨[], value, true⟩) :=
      kvNew_split hkey
    exact (hdoc.sound _ hnew).1 rfl
  · intro hplus
    have hnew := @kvNew_split key value hkey
    have hdrop (hlast : key.getLast? = some (byte '+')) : key.dropLast ≠ [] := by
      intro hnil
      have hkey := dropLast_concat_of_getLast? hlast
      rw [hnil] at hkey
      exact hplus hkey
    refine ⟨?_, ?_, ?_, ?_⟩
    · rw [hnew]
      split
      · exact .inl rfl
      · split
        · exact .inr ⟨_, rfl⟩
        · exact .inr ⟨_, rfl⟩
    · intro kv hkv
      rw [hnew] at hkv
      split at hkv
      · cases hkv
      · rename_i hne
        split at hkv
        · rename_i hlast
          cases hkv
          refine ⟨hdrop hlast, fun hmem => hkey (List.dropLast_subset key hmem), ?_⟩
          nth_rewrite 1 [dropLast_concat_of_getLast? hlast]
          simp [operator, ascii, byte]
        · cases hkv
          exact ⟨hne, hkey, rfl⟩
    · rw [hnew, keyPart_split hkey]
      by_cases hne : key = []
      · simp [hne]
      · rw [if_neg hne]
        by_cases hlast : key.getLast? = some (byte '+')
        · simp [hlast, hdrop hlast, emptyKey]
        · simp [hlast, hne, emptyKey]
    · intro key' value' add hne heq hlast htext
      rw [htext]
      exact kvNew_complete hne heq hlast

theorem assignment_as_documented_twice : AsDocumented (ascii "a++=b+=c") := by
  refine (assignment_as_documented_iff (ascii "a++=b+=c") (by decide)).mpr ?_
  decide

theorem plus_not_as_documented : ¬ AsDocumented (ascii "+=v") := by
  intro h
  exact (h.sound ⟨[], ascii "v", true⟩ (by decide)).1 rfl

end Pathcomp.CommandLine
