import Mathlib.Data.List.Basic
import Mathlib.Tactic.Common

set_option autoImplicit false

/-!
# Bytes, C strings and the ways a call can stop

A C string is the list of its bytes without the terminating NUL. Plain `char`
is signed, so a byte read into an `int` is sign-extended, and `isspace` is the
one of the C locale.
-/
namespace Pathcomp.Bytes

abbrev Text := List UInt8

instance decidableForallByte (s : Text) (P : UInt8 → Prop) [DecidablePred P] :
    Decidable (∀ b ∈ s, P b) := List.decidableBAll P s

/-- Why a modelled call does not return: a failed `assert`, a read through a
    NULL pointer, or a loop or recursion that needs more than the given bound. -/
inductive Halt where
  | assertion
  | nullPointer
  | bound
  deriving DecidableEq, Repr

def ascii (s : String) : Text := s.toList.map (fun c => UInt8.ofNat c.toNat)

def byte (c : Char) : UInt8 := UInt8.ofNat c.toNat

/-- The `int` value of a character constant below 128. -/
def code (c : Char) : Int := c.toNat

def eof : Int := -1

/-- Conversion of a plain (signed) `char` to `int`. -/
def charToInt (b : UInt8) : Int := if b < 128 then b.toNat else (b.toNat : Int) - 256

/-- Conversion of an `int` to `char` on assignment. -/
def intToChar (c : Int) : UInt8 := UInt8.ofInt c

def isspace (ch : Int) : Bool := decide (ch = 32) || (decide (9 ≤ ch) && decide (ch ≤ 13))

def cstr (s : Text) : Text := s.takeWhile (· ≠ 0)

def strrchr : Text → UInt8 → Option ℕ
  | [], _ => none
  | b :: s, c =>
    match strrchr s c with
    | some i => some (i + 1)
    | none => if b = c then some 0 else none

theorem intToChar_charToInt (b : UInt8) : intToChar (charToInt b) = b := by
  have hb := b.toNat_lt
  apply UInt8.toNat_inj.mp
  unfold intToChar charToInt UInt8.ofInt
  split <;> simp <;> omega

theorem charToInt_nonneg_iff (b : UInt8) : 0 ≤ charToInt b ↔ b < 128 := by
  have hb := b.toNat_lt
  unfold charToInt
  split
  · rename_i h
    exact ⟨fun _ => h, fun _ => by omega⟩
  · rename_i h
    exact ⟨fun hn => by omega, fun hn => absurd hn h⟩

theorem strrchr_none {u : Text} {c : UInt8} (h : c ∉ u) : strrchr u c = none := by
  induction u with
  | nil => rfl
  | cons b u ih =>
    rw [List.mem_cons, not_or] at h
    rw [strrchr, ih h.2]
    simp [Ne.symm h.1]

theorem strrchr_append_cons (u v : Text) (c : UInt8) :
    strrchr (u ++ c :: v) c = some (u.length + ((strrchr v c).map (· + 1)).getD 0) := by
  induction u with
  | nil => cases hv : strrchr v c <;> simp [strrchr, hv]
  | cons b u ih =>
    simp only [List.cons_append, strrchr, ih, List.length_cons]
    congr 1
    omega

theorem cstr_of_nul_free (s : Text) (h : ∀ b ∈ s, b ≠ 0) : cstr s = s := by
  induction s with
  | nil => rfl
  | cons b s ih =>
    have hb : b ≠ 0 := h b (by simp)
    have hs := ih (fun c hc => h c (by simp [hc]))
    simpa [cstr, hb] using hs

end Pathcomp.Bytes
