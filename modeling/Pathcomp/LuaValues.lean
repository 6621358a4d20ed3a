import Pathcomp.Purity

set_option autoImplicit false

/-!
# Recognition of Lua values

A text is a Lua value when it is the keyword, whitespace and a block in braces;
the block ends at the last closing brace, and what follows is dropped. Every other
text is a string.
-/
namespace Pathcomp.LuaValues
open Bytes Buffer Values Evaluation Composers Purity

def openBrace : UInt8 := byte '\x7b'

def closeBrace : UInt8 := byte '\x7d'

/-- The text is the keyword, whitespace, `body` in braces and a rest without a
    closing brace. -/
structure Block (keyword text space body rest : Text) : Prop where
  split : text = keyword ++ (space ++ openBrace :: (body ++ closeBrace :: rest))
  blank : ∀ b ∈ space, isspace (charToInt b) = true
  last : closeBrace ∉ rest

theorem strrchr_append {front back : Text} {c : UInt8} (h : c ∉ back) :
    strrchr (front ++ c :: back) c = some front.length := by
  rw [strrchr_append_cons, strrchr_none h]
  rfl

theorem exists_last_of_mem {s : Text} {c : UInt8} (h : c ∈ s) :
    ∃ front back, s = front ++ c :: back ∧ c ∉ back := by
  induction s with
  | nil => cases h
  | cons b s ih =>
    by_cases hs : c ∈ s
    · obtain ⟨front, back, rfl, hback⟩ := ih hs
      exact ⟨b :: front, back, rfl, hback⟩
    · obtain rfl : c = b := by simpa [hs] using h
      exact ⟨[], s, rfl, hs⟩

section Blocks
variable {keyword text space body rest : Text}

theorem dropWhile_space (h : ∀ b ∈ space, isspace (charToInt b) = true) (s : Text) :
    (space ++ openBrace :: s).dropWhile (fun b => isspace (charToInt b)) = openBrace :: s := by
  rw [List.dropWhile_append_of_pos h, List.dropWhile_cons_of_neg]
  decide

theorem Block.extract (h : Block keyword text space body rest) :
    valueMatchAndExtractBlock text keyword = some body := by
  have hlen : ¬ text.length ≤ keyword.length := by
    rw [h.split]
    simp only [List.length_append, List.length_cons]
    omega
  have htake : text.take keyword.length = keyword := by rw [h.split, List.take_left]
  have hdrop : text.drop keyword.length = space ++ openBrace :: (body ++ closeBrace :: rest) := by
    rw [h.split, List.drop_left]
  rw [valueMatchAndExtractBlock, if_neg hlen, if_neg (not_not.mpr htake), hdrop,
    dropWhile_space h.blank]
  have hlast := @strrchr_append body rest closeBrace h.last
  simp only [openBrace, ne_eq, not_true_eq_false, ↓reduceIte, bufAddstr, bufInit, List.nil_append]
  rw [show byte '\x7d' = closeBrace from rfl, hlast]
  simp [bufDetach, bufSetlen]

theorem exists_block (h : valueMatchAndExtractBlock text keyword = some body) :
    ∃ space rest, Block keyword text space body rest := by
  unfold valueMatchAndExtractBlock at h
  by_cases hlen : text.length ≤ keyword.length
  · rw [if_pos hlen] at h
    cases h
  · rw [if_neg hlen] at h
    by_cases hkey : text.take keyword.length = keyword
    · rw [if_neg (not_not.mpr hkey)] at h
      have htext : text.take keyword.length ++ text.drop keyword.length = text :=
        List.take_append_drop _ _
      rw [hkey] at htext
      have hspace := @List.takeWhile_append_dropWhile _ (fun b => isspace (charToInt b))
        (text.drop keyword.length)
      cases hrest : (text.drop keyword.length).dropWhile (fun b => isspace (charToInt b)) with
      | nil =>
        rw [hrest] at h
        cases h
      | cons b s =>
        rw [hrest] at h hspace
        simp only [bufAddstr, bufInit, List.nil_append] at h
        rw [show byte '\x7b' = openBrace from rfl, show byte '\x7d' = closeBrace from rfl] at h
        by_cases hb : b = openBrace
        · rw [if_neg (not_not.mpr hb)] at h
          by_cases hlast : closeBrace ∈ s
          · obtain ⟨front, back, rfl, hback⟩ := exists_last_of_mem hlast
            have hchr := @strrchr_append front back closeBrace hback
            rw [hchr] at h
            simp only [bufDetach, bufSetlen, List.take_left, Option.some.injEq] at h
            subst h hb
            refine ⟨(text.drop keyword.length).takeWhile fun b => isspace (charToInt b), back, ?_,
              fun b hb => ?_, hback⟩
            · rw [hspace, htext]
            · have hspaces := List.mem_takeWhile_imp hb
              exact hspaces
          · rw [strrchr_none hlast] at h
            cases h
        · rw [if_pos hb] at h
          cases h
    · rw [if_pos hkey] at h
      cases h

theorem Block.unique (h : Block keyword text space body rest) {space' body' rest' : Text}
    (h' : Block keyword text space' body' rest') :
    space' = space ∧ body' = body ∧ rest' = rest := by
  have hbody : body' = body := by
    have he := h.extract
    rw [h'.extract] at he
    exact Option.some.inj he
  have hafter : space ++ openBrace :: (body ++ closeBrace :: rest) =
      space' ++ openBrace :: (body' ++ closeBrace :: rest') :=
    List.append_cancel_left (h.split.symm.trans h'.split)
  have hsame := congrArg (List.dropWhile fun b => isspace (charToInt b)) hafter
  rw [dropWhile_space h.blank, dropWhile_space h'.blank] at hsame
  rw [hsame] at hafter
  subst hbody
  have hspace : space = space' := List.append_cancel_right hafter
  simp only [List.cons.injEq, true_and] at hsame
  have hrest := List.append_cancel_left hsame
  simp only [List.cons.injEq, true_and] at hrest
  exact ⟨hspace.symm, rfl, hrest.symm⟩

end Blocks

theorem valueNewAuto_of_block {text space body rest : Text}
    (h : Block (ascii "lua") text space body rest) :
    valueNewAuto text = .lua (ascii "local self = ...; " ++ body) none := by
  rw [valueNewAuto, h.extract]
  rfl

theorem valueNewAuto_of_no_block {text : Text}
    (h : ¬ ∃ space body rest, Block (ascii "lua") text space body rest) :
    valueNewAuto text = .string text := by
  rw [valueNewAuto]
  cases hmatch : valueMatchAndExtractBlock text (ascii "lua") with
  | none => rfl
  | some body =>
    obtain ⟨space, rest, hblock⟩ := exists_block hmatch
    exact absurd ⟨space, body, rest, hblock⟩ h

/-- A text is a Lua value exactly when it is a block, and the block is then unique and
    gives the source. Every other text is a string that evaluates to itself. -/
theorem lua_value_iff_block (text : Text) (htext : ∀ b ∈ text, b ≠ 0) :
    ((∃ source result, valueNewAuto text = .lua source result) ↔
      ∃ space body rest, Block (ascii "lua") text space body rest) ∧
    (∀ space body rest, Block (ascii "lua") text space body rest →
      (∀ space' body' rest', Block (ascii "lua") text space' body' rest' →
        space' = space ∧ body' = body ∧ rest' = rest) ∧
      valueNewAuto text = .lua (ascii "local self = ...; " ++ body) none) ∧
    ((¬ ∃ space body rest, Block (ascii "lua") text space body rest) →
      valueNewAuto text = .string text ∧
      ∀ (lua : Lua) (depth : ℕ) (c : Composer) (name : Text),
        currentValue c name = some (valueNewAuto text) →
          pathcompEval lua depth c name = (some text, c)) := by
  refine ⟨⟨fun hlua => ?_, ?_⟩, fun space body rest h => ⟨fun _ _ _ => h.unique, ?_⟩,
    fun h => ?_⟩
  · by_contra hnone
    obtain ⟨source, result, hlua⟩ := hlua
    rw [valueNewAuto_of_no_block hnone] at hlua
    cases hlua
  · rintro ⟨space, body, rest, h⟩
    exact ⟨_, _, valueNewAuto_of_block h⟩
  · exact valueNewAuto_of_block h
  · have hstring := valueNewAuto_of_no_block h
    refine ⟨hstring, fun lua depth c name hvalue => ?_⟩
    rw [hstring] at hvalue
    rw [pathcompEval, evalNocopy_some hvalue]
    simp only [valueEval, Option.map_some, cstr_of_nul_free text htext]

/-- Braces inside the body are kept, and what follows the last one is dropped. -/
theorem lua_value_iff_block_nested :
    valueNewAuto (ascii "lua \x7b f\x7b\x7d \x7d end") =
      .lua (ascii "local self = ...;  f\x7b\x7d ") none := by
  have hblock : Block (ascii "lua") (ascii "lua \x7b f\x7b\x7d \x7d end") (ascii " ")
      (ascii " f\x7b\x7d ") (ascii " end") := ⟨by decide, by decide, by decide⟩
  obtain ⟨_, hunique, _⟩ := lua_value_iff_block
    (ascii "lua \x7b f\x7b\x7d \x7d end") (by decide)
  exact (hunique _ _ _ hblock).2

end Pathcomp.LuaValues
