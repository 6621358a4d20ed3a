import Pathcomp.Scanner

set_option autoImplicit false

/-!
# What the main loop of the parser meets

The trace of a text lists the headers and the entries that the main loop of
`cf_parse_text` comes across, each with its position. After a syntax error the
sections that were appended are those of the text before its last header.
-/
namespace Pathcomp.Tracing
open Bytes Buffer Config Scanner

/-- A `[` consumed by the main loop, at its position, or an entry line, at the
    position after its `=`. -/
inductive Event where
  | header (pos : ℕ)
  | entry (pos : ℕ)
  deriving DecidableEq, Repr

def valueStart (text : Buf) : ℕ :=
  text.pos + ((text.bytes.drop text.pos).takeWhile (· ≠ byte '=')).length + 1

def parseTextTrace : ℕ → Buf → Bool → List Event
  | 0, _, _ => []
  | fuel + 1, text, comment =>
    let pos := text.pos
    let (ch, text) := bufFgetc text
    if ch < 0 then []
    else if ch = code '\n' then parseTextTrace fuel text false
    else if comment || isspace ch then parseTextTrace fuel text comment
    else if ch = code ';' ∨ ch = code '#' then parseTextTrace fuel text true
    else if ch = code '[' then
      match cfParseSectionName (fuel + 1) text bufInit with
      | .ok (true, text, _) => .header pos :: parseTextTrace fuel text comment
      | _ => [.header pos]
    else if ch = code '=' then []
    else
      let (_, text) := bufUngetc text ch
      match cfParseKeyValuePair (fuel + 1) text bufInit bufInit with
      | .ok (true, text', _, _) => .entry (valueStart text) :: parseTextTrace fuel text' comment
      | _ => []

theorem parseTextTrace_nil (fuel : ℕ) (past : Text) (comment : Bool) :
    parseTextTrace fuel (cursor past []) comment = [] := by
  cases fuel with
  | zero => rfl
  | succ fuel =>
    rw [parseTextTrace, bufFgetc_nil]
    rfl

def trace (fuel : ℕ) (text : Text) : List Event :=
  parseTextTrace fuel (bufAddstr bufInit text) false

def lastHeader : List Event → Option ℕ
  | [] => none
  | .header pos :: events => some ((lastHeader events).getD pos)
  | .entry _ :: events => lastHeader events

/-- What one round with the cursor between `past` and `rest` does, to the trace
    and to the automaton. -/
inductive Round (fuel : ℕ) (past rest : Text) (comment : Bool) (sections : List CfSection)
    (sec : Option CfSection) : Prop where
  | finish (ht : parseTextTrace (fuel + 1) (cursor past rest) comment = [])
      (ho : outcome (run ⟨sections, sec, .line comment⟩ rest) = (true, sections ++ sec.toList))
  | blank (b : UInt8) (tail : Text) (comment' : Bool) (hrest : rest = b :: tail)
      (ht : parseTextTrace (fuel + 1) (cursor past rest) comment =
        parseTextTrace fuel (cursor (past ++ [b]) tail) comment')
      (hb : advance ⟨sections, sec, .line comment⟩ b = ⟨sections, sec, .line comment'⟩)
  | header (past' rest' name : Text)
      (ht : parseTextTrace (fuel + 1) (cursor past rest) comment =
        .header past.length :: parseTextTrace fuel (cursor past' rest') false)
      (hc : Consumes past rest past' rest' ⟨sections, sec, .line comment⟩
        ⟨sections ++ sec.toList, some ⟨cstr name, []⟩, .line false⟩)
  | badHeader (ht : parseTextTrace (fuel + 1) (cursor past rest) comment = [.header past.length])
      (ho : outcome (run ⟨sections, sec, .line comment⟩ rest) = (false, sections ++ sec.toList))
  | badLine (ht : parseTextTrace (fuel + 1) (cursor past rest) comment = [])
      (ho : outcome (run ⟨sections, sec, .line comment⟩ rest) = (false, sections))
  | entry (past' rest' key value : Text)
      (hp : cfParseKeyValuePair (fuel + 1) (cursor past rest) bufInit bufInit =
        .ok (true, cursor past' rest', bufRtrim ⟨key, 0⟩, ⟨value, 0⟩))
      (ht : parseTextTrace (fuel + 1) (cursor past rest) comment =
        .entry (valueStart (cursor past rest)) ::
          parseTextTrace fuel (cursor past' rest') false)
      (hk : run ⟨sections, sec, .line comment⟩ rest = run ⟨sections, sec, .key []⟩ rest)
      (hc : Consumes past rest past' rest' ⟨sections, sec, .line comment⟩
        (closeEntry ⟨sections, sec, .line false⟩ key value))

theorem round {fuel : ℕ} {past rest : Text} (comment : Bool) (sections : List CfSection)
    (sec : Option CfSection) (hf : rest.length < fuel + 1) :
    Round fuel past rest comment sections sec := by
  cases rest with
  | nil =>
    exact .finish (parseTextTrace_nil (fuel + 1) past comment) rfl
  | cons b rest =>
    simp only [List.length_cons] at hf
    have htrace : parseTextTrace (fuel + 1) (cursor past (b :: rest)) comment =
        parseTextTrace (fuel + 1) (cursor past (b :: rest)) comment := rfl
    conv at htrace =>
      rhs
      simp only [parseTextTrace, bufFgetc_cons, charToInt_neg_iff,
        charToInt_eq_code_iff b (by decide : '\n'.toNat < 128),
        charToInt_eq_code_iff b (by decide : ';'.toNat < 128),
        charToInt_eq_code_iff b (by decide : '#'.toNat < 128),
        charToInt_eq_code_iff b (by decide : '['.toNat < 128),
        charToInt_eq_code_iff b (by decide : '='.toNat < 128)]
    have hstep : advance ⟨sections, sec, .line comment⟩ b =
        advanceLine ⟨sections, sec, .line comment⟩ comment b := rfl
    unfold advanceLine at hstep
    by_cases hhigh : ¬ b < 128
    · rw [if_pos hhigh] at htrace hstep
      refine .finish htrace ?_
      rw [run_cons, hstep, run_stopped]
      rfl
    rw [if_neg hhigh] at htrace hstep
    by_cases hnl : b = nl
    · rw [if_pos (show b = byte '\n' from hnl)] at htrace
      rw [if_pos hnl] at hstep
      exact .blank b rest false rfl htrace hstep
    rw [if_neg (show ¬ b = byte '\n' from hnl)] at htrace
    rw [if_neg hnl] at hstep
    by_cases hblank : (comment || space b) = true
    · rw [if_pos hblank] at hstep
      rw [if_pos (show (comment || isspace (charToInt b)) = true from hblank)] at htrace
      exact .blank b rest comment rfl htrace hstep
    rw [if_neg hblank] at hstep
    rw [if_neg (show ¬ (comment || isspace (charToInt b)) = true from hblank)] at htrace
    by_cases hmark : b = byte ';' ∨ b = byte '#'
    · rw [if_pos hmark] at htrace hstep
      exact .blank b rest true rfl htrace hstep
    rw [if_neg hmark] at htrace hstep
    obtain rfl : comment = false := by
      cases comment with
      | false => rfl
      | true => exact absurd rfl hblank
    by_cases hopen : b = byte '['
    · rw [if_pos hopen] at htrace hstep
      rcases @parseSectionName_run (sections ++ sec.toList) (fuel + 1) (past ++ [b]) rest [] 0
        (by omega) with ⟨past', rest', acc', hp, hc⟩ | ⟨text, name, hp, hr⟩
      · change cfParseSectionName (fuel + 1) _ bufInit = _ at hp
        rw [hp] at htrace
        exact .header past' rest' acc' htrace (hc.cons hstep)
      · change cfParseSectionName (fuel + 1) _ bufInit = _ at hp
        rw [hp] at htrace
        refine .badHeader htrace ?_
        rw [run_cons, hstep, hr]
    rw [if_neg hopen] at htrace hstep
    by_cases heq : b = byte '='
    · rw [if_pos heq] at htrace hstep
      refine .badLine htrace ?_
      rw [run_cons, hstep, outcome_failed]
    rw [if_neg heq] at htrace hstep
    rw [bufUngetc_char] at htrace
    rcases @parseKeyValuePair_run sections sec (fuel + 1) past (b :: rest) [] 0 0
      (by simpa using hf) with ⟨past', rest', key, value, hp, hc⟩ |
        ⟨text, key, value, hp, hr⟩
    · change cfParseKeyValuePair (fuel + 1) _ bufInit bufInit = _ at hp
      rw [hp] at htrace
      have hkey : advance ⟨sections, sec, .line false⟩ b =
          advance ⟨sections, sec, .key []⟩ b :=
        hstep.trans rfl
      exact .entry past' rest' key value hp htrace (by rw [run_cons, hkey, run_cons])
        (hc.head hkey)
    · change cfParseKeyValuePair (fuel + 1) _ bufInit bufInit = _ at hp
      rw [hp] at htrace
      refine .badLine htrace ?_
      rw [run_cons, hstep, ← hr]
      rfl

def LeftBehind (past rest : Text) (s : Scan) (events : List Event) : Prop :=
  (outcome (run s rest)).1 = false →
    (lastHeader events = none → (outcome (run s rest)).2 = s.sections) ∧
    ∀ pos, lastHeader events = some pos → past.length ≤ pos ∧
      outcome (run s (rest.take (pos - past.length))) = (true, (outcome (run s rest)).2)

theorem LeftBehind.before {past chunk rest : Text} {s t : Scan} {events : List Event}
    (h : LeftBehind (past ++ chunk) rest t events) (ht : run s chunk = t)
    (hs : t.sections = s.sections) : LeftBehind past (chunk ++ rest) s events := by
  unfold LeftBehind at *
  rw [run_append, ht]
  intro hfail
  obtain ⟨hnone, hsome⟩ := h hfail
  refine ⟨fun he => (hnone he).trans hs, fun pos he => ?_⟩
  obtain ⟨hle, hout⟩ := hsome pos he
  rw [List.length_append] at hle hout
  refine ⟨by omega, ?_⟩
  rw [show pos - past.length = chunk.length + (pos - (past.length + chunk.length)) by omega,
    List.take_length_add_append, run_append, ht]
  exact hout

theorem LeftBehind.header {past chunk rest : Text} {s t : Scan} {events : List Event}
    (h : LeftBehind (past ++ chunk) rest t events) (ht : run s chunk = t)
    (hs : outcome s = (true, t.sections)) :
    LeftBehind past (chunk ++ rest) s (.header past.length :: events) := by
  unfold LeftBehind at *
  rw [run_append, ht]
  intro hfail
  obtain ⟨hnone, hsome⟩ := h hfail
  refine ⟨by simp [lastHeader], fun pos he => ?_⟩
  simp only [lastHeader, Option.some.injEq] at he
  cases hl : lastHeader events with
  | none =>
    rw [hl] at he
    subst he
    refine ⟨le_rfl, ?_⟩
    rw [Option.getD_none, Nat.sub_self, List.take_zero, run_nil, hs, hnone hl]
  | some last =>
    rw [hl] at he
    subst he
    obtain ⟨hle, hout⟩ := hsome last hl
    rw [Option.getD_some]
    rw [List.length_append] at hle hout
    refine ⟨by omega, ?_⟩
    rw [show last - past.length = chunk.length + (last - (past.length + chunk.length)) by omega,
      List.take_length_add_append, run_append, ht]
    exact hout

theorem leftBehind_trace {fuel : ℕ} {past rest : Text} (comment : Bool)
    (sections : List CfSection) (sec : Option CfSection) (hf : rest.length < fuel) :
    LeftBehind past rest ⟨sections, sec, .line comment⟩
      (parseTextTrace fuel (cursor past rest) comment) := by
  induction fuel generalizing past rest comment sections sec with
  | zero => omega
  | succ fuel ih =>
    intro hfail
    cases round comment sections sec hf with
    | finish ht ho =>
      rw [ho] at hfail
      cases hfail
    | blank b tail comment' hrest ht hb =>
      subst hrest
      simp only [List.length_cons] at hf
      have htail := @ih (past ++ [b]) tail comment' sections sec (by omega)
      rw [← ht] at htail
      exact htail.before hb rfl hfail
    | header past' rest' name ht hc =>
      rcases hc with ⟨_, _, he⟩ | ⟨chunk, hne, rfl, rfl, hrun⟩
      · rw [he] at hfail
        cases hfail
      · have htail := @ih (past ++ chunk) rest' false (sections ++ sec.toList)
          (some ⟨cstr name, []⟩) (by have := List.length_pos_iff.mpr hne; simp at hf; omega)
        rw [ht]
        exact htail.header hrun rfl hfail
    | badHeader ht ho =>
      rw [ht, ho]
      refine ⟨by simp [lastHeader], fun pos he => ?_⟩
      obtain rfl : past.length = pos := Option.some.inj he
      refine ⟨le_rfl, ?_⟩
      rw [Nat.sub_self, List.take_zero]
      rfl
    | badLine ht ho =>
      rw [ht, ho]
      exact ⟨fun _ => rfl, by simp [lastHeader]⟩
    | entry past' rest' key value hp ht hk hc =>
      rcases hc with ⟨_, _, he⟩ | ⟨chunk, hne, rfl, rfl, hrun⟩
      · rw [he] at hfail
        cases hfail
      · have htail := @ih (past ++ chunk) rest' false sections
          (attachEntry ⟨cstr (trimRight key), cstr (trimRight value)⟩ sec)
          (by have := List.length_pos_iff.mpr hne; simp at hf; omega)
        rw [ht]
        exact htail.before hrun rfl hfail

def spoiltText : Text := ascii "[a]\nk = v\n[b]\nx = [y]\n[c]\nno value\n"

end Pathcomp.Tracing
