import Pathcomp.Scanner

set_option autoImplicit false

/-!
# The parser makes progress

The parser with a record of what it does to its text: where each round of the main
loop starts, what `buf_fgetc` reads and what `buf_ungetc` writes. Without the
record it is the parser.
-/
namespace Pathcomp.Progress
open Bytes Buffer Config Scanner

/-- `read` has no byte at the end of the text. -/
inductive Access where
  | round (pos : ℕ)
  | read (pos : ℕ) (byte : Option UInt8)
  | write (pos : ℕ) (byte : UInt8)
  deriving DecidableEq, Repr

/-- The text and the accesses to it, the latest one first. -/
structure Traced where
  buf : Buf
  log : List Access
  deriving DecidableEq, Repr

namespace Traced

def fgetc (text : Traced) : Int × Traced :=
  ((bufFgetc text.buf).1,
    ⟨(bufFgetc text.buf).2, .read text.buf.pos text.buf.bytes[text.buf.pos]? :: text.log⟩)

def ungetc (text : Traced) (c : Int) : Traced :=
  ⟨(bufUngetc text.buf c).2,
    if 0 < text.buf.pos then .write (text.buf.pos - 1) (intToChar c) :: text.log else text.log⟩

def mark (text : Traced) : Traced := ⟨text.buf, .round text.buf.pos :: text.log⟩

instance : Source Traced := ⟨fgetc, ungetc, mark⟩

def cfParseText (fuel : ℕ) (cf : Cf) (text : Traced) : Except Halt (Bool × Cf × Traced) :=
  Config.cfParseText fuel cf text

theorem source_fgetc (text : Traced) : Source.fgetc text = text.fgetc := rfl

theorem source_ungetc (text : Traced) (c : Int) : Source.ungetc text c = text.ungetc c := rfl

theorem source_round (text : Traced) : Source.round text = text.mark := rfl

end Traced

/-- A map between texts that keeps what is read. -/
structure Erasure {τ υ : Type} [Source τ] [Source υ] (f : τ → υ) : Prop where
  fgetc : ∀ text, Source.fgetc (f text) = ((Source.fgetc text).1, f (Source.fgetc text).2)
  ungetc : ∀ text c, Source.ungetc (f text) c = f (Source.ungetc text c)
  round : ∀ text, Source.round (f text) = f (Source.round text)

theorem Traced.erasure : Erasure Traced.buf := ⟨fun _ => rfl, fun _ _ => rfl, fun _ => rfl⟩

section Erasing
variable {τ υ : Type} [Source τ] [Source υ] {f : τ → υ}

theorem cfParseSectionName_erased (hf : Erasure f) (fuel : ℕ) (text : τ) (name : Buf) :
    cfParseSectionName fuel (f text) name =
      (cfParseSectionName fuel text name).map fun r => (r.1, f r.2.1, r.2.2) := by
  induction fuel generalizing text name with
  | zero => rfl
  | succ fuel ih =>
    rw [cfParseSectionName, cfParseSectionName, hf.fgetc]
    obtain ⟨ch, next⟩ := Source.fgetc text
    simp only
    by_cases hend : ch < 0
    · rw [if_pos hend, if_pos hend]
      rfl
    rw [if_neg hend, if_neg hend]
    by_cases hnl : ch = code '\n'
    · rw [if_pos hnl, if_pos hnl]
      rfl
    rw [if_neg hnl, if_neg hnl]
    by_cases hclose : ch = code ']'
    · rw [if_pos hclose, if_pos hclose]
      rfl
    · rw [if_neg hclose, if_neg hclose]
      exact ih next _

theorem skipInitialSpaces_erased (hf : Erasure f) (fuel : ℕ) (text : τ) :
    skipInitialSpaces fuel (f text) = (skipInitialSpaces fuel text).map f := by
  induction fuel generalizing text with
  | zero => rfl
  | succ fuel ih =>
    rw [skipInitialSpaces, skipInitialSpaces, hf.fgetc]
    obtain ⟨ch, next⟩ := Source.fgetc text
    simp only
    split
    · rw [hf.ungetc]
      rfl
    · exact ih next

theorem parseValueLoop_erased (hf : Erasure f) (fuel : ℕ) (text : τ) (value : Buf) :
    parseValueLoop fuel (f text) value =
      (parseValueLoop fuel text value).map fun r => (r.1, f r.2.1, r.2.2) := by
  induction fuel generalizing text value with
  | zero => rfl
  | succ fuel ih =>
    rw [parseValueLoop, parseValueLoop, hf.fgetc]
    obtain ⟨ch, next⟩ := Source.fgetc text
    simp only
    by_cases hend : ch < 0
    · rw [if_pos hend, if_pos hend]
      rfl
    rw [if_neg hend, if_neg hend]
    by_cases hbs : ch = code '\\'
    · rw [if_pos hbs, if_pos hbs]
      rw [hf.fgetc]
      obtain ⟨ch', next'⟩ := Source.fgetc next
      simp only
      by_cases hnl : ch' = code '\n'
      · rw [if_pos hnl, if_pos hnl]
        exact ih next' _
      · rw [if_neg hnl, if_neg hnl]
        exact ih next' _
    rw [if_neg hbs, if_neg hbs]
    by_cases hnl : ch = code '\n'
    · rw [if_pos hnl, if_pos hnl]
      rfl
    · rw [if_neg hnl, if_neg hnl]
      exact ih next _

theorem cfParseValue_erased (hf : Erasure f) (fuel : ℕ) (text : τ) (value : Buf) :
    cfParseValue fuel (f text) value =
      (cfParseValue fuel text value).map fun r => (r.1, f r.2.1, r.2.2) := by
  rw [cfParseValue, cfParseValue, skipInitialSpaces_erased hf]
  cases skipInitialSpaces fuel text with
  | error halt => rfl
  | ok text => exact parseValueLoop_erased hf fuel text value

theorem cfParseKeyValuePair_erased (hf : Erasure f) (fuel : ℕ) (text : τ) (key value : Buf) :
    cfParseKeyValuePair fuel (f text) key value =
      (cfParseKeyValuePair fuel text key value).map fun r => (r.1, f r.2.1, r.2.2) := by
  induction fuel generalizing text key with
  | zero => rfl
  | succ fuel ih =>
    rw [cfParseKeyValuePair, cfParseKeyValuePair, hf.fgetc]
    obtain ⟨ch, next⟩ := Source.fgetc text
    simp only
    by_cases hend : ch < 0
    · rw [if_pos hend, if_pos hend]
      rfl
    rw [if_neg hend, if_neg hend]
    by_cases hnl : ch = code '\n'
    · rw [if_pos hnl, if_pos hnl]
      rfl
    rw [if_neg hnl, if_neg hnl]
    by_cases hbracket : ch = code '[' ∨ ch = code ']'
    · rw [if_pos hbracket, if_pos hbracket]
      rfl
    rw [if_neg hbracket, if_neg hbracket]
    by_cases heq : ch = code '='
    · rw [if_pos heq, if_pos heq, cfParseValue_erased hf]
      cases cfParseValue (fuel + 1) next value with
      | error halt => rfl
      | ok r => rfl
    · rw [if_neg heq, if_neg heq]
      exact ih next _

theorem parseTextLoop_erased (hf : Erasure f) (fuel : ℕ) (cf : Cf) (text : τ)
    (sec : Option CfSection) (comment : Bool) :
    parseTextLoop fuel cf (f text) sec comment =
      (parseTextLoop fuel cf text sec comment).map fun r => (r.1, r.2.1, f r.2.2) := by
  induction fuel generalizing cf text sec comment with
  | zero => rfl
  | succ fuel ih =>
    rw [parseTextLoop, parseTextLoop, hf.round, hf.fgetc]
    obtain ⟨ch, next⟩ := Source.fgetc (Source.round text)
    simp only
    by_cases hend : ch < 0
    · rw [if_pos hend, if_pos hend]
      rfl
    rw [if_neg hend, if_neg hend]
    by_cases hnl : ch = code '\n'
    · rw [if_pos hnl, if_pos hnl]
      exact ih cf next sec false
    rw [if_neg hnl, if_neg hnl]
    by_cases hblank : (comment || isspace ch) = true
    · rw [if_pos hblank, if_pos hblank]
      exact ih cf next sec comment
    rw [if_neg hblank, if_neg hblank]
    by_cases hmark : ch = code ';' ∨ ch = code '#'
    · rw [if_pos hmark, if_pos hmark]
      exact ih cf next sec true
    rw [if_neg hmark, if_neg hmark]
    by_cases hopen : ch = code '['
    · rw [if_pos hopen, if_pos hopen]
      rw [cfParseSectionName_erased hf]
      rcases cfParseSectionName (fuel + 1) next bufInit with halt | ⟨rc, next, name⟩
      · rfl
      · cases rc with
        | false => rfl
        | true => exact ih _ next _ comment
    rw [if_neg hopen, if_neg hopen]
    by_cases heq : ch = code '='
    · rw [if_pos heq, if_pos heq]
      rfl
    rw [if_neg heq, if_neg heq]
    rw [hf.ungetc, cfParseKeyValuePair_erased hf]
    rcases cfParseKeyValuePair (fuel + 1) (Source.ungetc next ch) bufInit bufInit with
      halt | ⟨rc, next, key, value⟩
    · rfl
    · cases rc with
      | false => rfl
      | true => exact ih cf next _ comment

end Erasing

/-- An access after `earlier` ones. A byte that is read is the one of the text or the
    end marker, after it has been written over the last byte; what is written is the
    byte just read, or this marker just after the end has been met. Each round starts
    further to the right than those before. -/
def Allowed (text : Text) (earlier : List Access) : Access → Prop
  | .round pos => pos ≤ text.length ∧ ∀ p, .round p ∈ earlier → p < pos
  | .read pos none => pos = text.length
  | .read pos (some b) =>
    text[pos]? = some b ∨ (b = 255 ∧ pos + 1 = text.length ∧ .write pos 255 ∈ earlier)
  | .write pos b =>
    (text[pos]? = some b ∧ ∃ before, earlier = .read pos (some b) :: before) ∨
    (b = 255 ∧ pos + 1 = text.length ∧ ∃ before, earlier = .read text.length none :: before)

def Sound (text : Text) : List Access → Prop
  | [] => True
  | access :: earlier => Allowed text earlier access ∧ Sound text earlier

theorem Sound.allowed {text : Text} {log later earlier : List Access} {access : Access}
    (h : Sound text log) (hlog : log = later ++ access :: earlier) :
    Allowed text earlier access := by
  induction later generalizing log with
  | nil =>
    subst hlog
    exact h.1
  | cons a later ih =>
    subst hlog
    exact ih h.2 rfl

/-- Nothing has been overwritten; the last round has started at `n` or before. -/
structure Intact (text : Text) (n : ℕ) (t : Traced) : Prop where
  bytes : t.buf.bytes = text
  pos : t.buf.pos ≤ text.length
  sound : Sound text t.log
  rounds : ∀ p, .round p ∈ t.log → p ≤ n

/-- The end marker stands in place of the last byte, and at most this is left to be
    read. -/
structure Marked (text : Text) (n : ℕ) (t : Traced) : Prop where
  bytes : t.buf.bytes = text.set (text.length - 1) 255
  nonempty : 0 < text.length
  low : text.length ≤ t.buf.pos + 1
  high : t.buf.pos ≤ text.length
  marker : .write (text.length - 1) 255 ∈ t.log
  sound : Sound text t.log
  rounds : ∀ p, .round p ∈ t.log → p ≤ n

/-- Between two rounds. -/
def Settled (text : Text) (n : ℕ) (t : Traced) : Prop :=
  Intact text n t ∨ (Marked text n t ∧ t.buf.pos = text.length)

theorem fgetc_some {t : Traced} {b : UInt8} (hb : t.buf.bytes[t.buf.pos]? = some b) :
    t.fgetc = (charToInt b,
      ⟨⟨t.buf.bytes, t.buf.pos + 1⟩, .read t.buf.pos (some b) :: t.log⟩) := by
  simp only [Traced.fgetc, bufFgetc, hb]

theorem fgetc_none {t : Traced} (hb : t.buf.bytes[t.buf.pos]? = none) :
    t.fgetc = (eof, ⟨t.buf, .read t.buf.pos none :: t.log⟩) := by
  simp only [Traced.fgetc, bufFgetc, hb]

theorem rounds_cons {log : List Access} {access : Access} {n : ℕ}
    (h : ∀ p, .round p ∈ log → p ≤ n) (hne : ∀ p, access ≠ .round p) :
    ∀ p, .round p ∈ access :: log → p ≤ n := by
  intro p hp
  exact h p (List.mem_of_ne_of_mem (Ne.symm (hne p)) hp)

section Accesses
variable {text : Text} {n : ℕ} {t : Traced}

theorem Intact.fgetc (h : Intact text n t) :
    Intact text n t.fgetc.2 ∧
      ((∃ b, t.fgetc.1 = charToInt b ∧ text[t.buf.pos]? = some b ∧
        t.fgetc.2.buf.pos = t.buf.pos + 1 ∧ t.fgetc.2.log = .read t.buf.pos (some b) :: t.log) ∨
      (t.fgetc.1 = eof ∧ t.buf.pos = text.length ∧ t.fgetc.2.buf = t.buf ∧
        t.fgetc.2.log = .read text.length none :: t.log)) := by
  have hpos := h.pos
  cases hb : t.buf.bytes[t.buf.pos]? with
  | some b =>
    rw [fgetc_some hb]
    rw [h.bytes] at hb ⊢
    have hlt : t.buf.pos < text.length := (List.getElem?_eq_some_iff.mp hb).1
    exact ⟨⟨rfl, hlt, ⟨.inl hb, h.sound⟩, rounds_cons h.rounds (by simp)⟩,
      .inl ⟨b, rfl, hb, rfl, rfl⟩⟩
  | none =>
    rw [fgetc_none hb]
    have hle := List.getElem?_eq_none_iff.mp hb
    rw [h.bytes] at hle
    have hend : t.buf.pos = text.length := by omega
    rw [hend]
    exact ⟨⟨h.bytes, h.pos, ⟨rfl, h.sound⟩, rounds_cons h.rounds (by simp)⟩,
      .inr ⟨rfl, rfl, rfl, rfl⟩⟩

theorem Marked.fgetc (h : Marked text n t) :
    Marked text n t.fgetc.2 ∧ t.fgetc.1 < 0 ∧ t.fgetc.2.buf.pos = text.length := by
  have hlow := h.low
  have hhigh := h.high
  have hne := h.nonempty
  cases hb : t.buf.bytes[t.buf.pos]? with
  | some b =>
    have hlt : t.buf.pos < t.buf.bytes.length := (List.getElem?_eq_some_iff.mp hb).1
    rw [h.bytes, List.length_set] at hlt
    have hlast : t.buf.pos = text.length - 1 := by omega
    have hmark : b = 255 := by
      rw [h.bytes, hlast, List.getElem?_set_self (by omega)] at hb
      exact (Option.some.inj hb).symm
    subst hmark
    rw [fgetc_some hb]
    refine ⟨⟨h.bytes, hne, ?_, ?_, ?_, ⟨.inr ⟨rfl, ?_, ?_⟩, h.sound⟩,
      rounds_cons h.rounds (by simp)⟩,
      show charToInt 255 < 0 by decide, ?_⟩
    · simp only
      omega
    · simp only
      omega
    · exact List.mem_cons_of_mem _ h.marker
    · omega
    · rw [hlast]
      exact h.marker
    · simp only
      omega
  | none =>
    rw [fgetc_none hb]
    have hle := List.getElem?_eq_none_iff.mp hb
    rw [h.bytes, List.length_set] at hle
    have hend : t.buf.pos = text.length := by omega
    exact ⟨⟨h.bytes, hne, h.low, h.high, List.mem_cons_of_mem _ h.marker, ⟨hend, h.sound⟩,
      rounds_cons h.rounds (by simp)⟩, show eof < 0 by decide, hend⟩

theorem Intact.ungetc (h : Intact text n t) {p : ℕ} {b : UInt8} {before : List Access}
    (hb : text[p]? = some b) (hpos : t.buf.pos = p + 1)
    (hlog : t.log = .read p (some b) :: before) :
    Intact text n (t.ungetc (charToInt b)) ∧ (t.ungetc (charToInt b)).buf.pos = p := by
  have hle := h.pos
  have hcall : t.ungetc (charToInt b) = ⟨⟨text, p⟩, .write p b :: t.log⟩ := by
    have hsame : text.set p b = text := by
      obtain ⟨hlt, rfl⟩ := List.getElem?_eq_some_iff.mp hb
      exact List.set_getElem_self hlt
    simp only [Traced.ungetc, bufUngetc, hpos, Nat.zero_lt_succ, ↓reduceIte, Nat.add_sub_cancel,
      intToChar_charToInt, h.bytes, hsame]
  rw [hcall]
  exact ⟨⟨rfl, by simp only; omega, ⟨.inl ⟨hb, before, hlog⟩, h.sound⟩,
    rounds_cons h.rounds (by simp)⟩, rfl⟩

theorem Intact.ungetc_eof (h : Intact text n t) {before : List Access} (hne : 0 < text.length)
    (hpos : t.buf.pos = text.length) (hlog : t.log = .read text.length none :: before) :
    Marked text n (t.ungetc eof) := by
  have hcall : t.ungetc eof = ⟨⟨text.set (text.length - 1) 255, text.length - 1⟩,
      .write (text.length - 1) 255 :: t.log⟩ := by
    have hmark : intToChar eof = 255 := by decide
    simp only [Traced.ungetc, bufUngetc, hpos, hne, ↓reduceIte, hmark, h.bytes]
  rw [hcall]
  refine ⟨rfl, hne, by simp only; omega, by simp only; omega, List.mem_cons_self,
    ⟨.inr ⟨rfl, by omega, before, hlog⟩, h.sound⟩, rounds_cons h.rounds (by simp)⟩

end Accesses

section Loops
variable {text : Text} {n : ℕ} {t t' : Traced}

theorem eof_neg : eof < 0 := by decide

/-- A loop has read on, and nothing has been overwritten. -/
structure Moved (text : Text) (n : ℕ) (t t' : Traced) : Prop where
  intact : Intact text n t'
  le : t.buf.pos ≤ t'.buf.pos

theorem Moved.trans {u : Traced} (h : Moved text n t t') (h' : Moved text n t' u) :
    Moved text n t u :=
  ⟨h'.intact, h.le.trans h'.le⟩

theorem Intact.moved (h : Intact text n t) : Moved text n t t.fgetc.2 := by
  obtain ⟨hnext, ⟨b, _, _, hpos, _⟩ | ⟨_, _, hbuf, _⟩⟩ := h.fgetc
  · exact ⟨hnext, by omega⟩
  · exact ⟨hnext, by rw [hbuf]⟩

theorem Intact.advance (h : Intact text n t) (hch : ¬ t.fgetc.1 < 0) :
    t.fgetc.2.buf.pos = t.buf.pos + 1 := by
  obtain ⟨_, ⟨b, _, _, hpos, _⟩ | ⟨heof, _⟩⟩ := h.fgetc
  · exact hpos
  · rw [heof] at hch
    exact absurd eof_neg hch

theorem sectionName_progress {fuel : ℕ} {name name' : Buf} {rc : Bool} (h : Intact text n t)
    (hrun : cfParseSectionName fuel t name = .ok (rc, t', name')) : Moved text n t t' := by
  induction fuel generalizing t name with
  | zero => cases hrun
  | succ fuel ih =>
    simp only [cfParseSectionName, Traced.source_fgetc] at hrun
    split at hrun
    · cases hrun
      exact h.moved
    split at hrun
    · cases hrun
      exact h.moved
    split at hrun
    · cases hrun
      exact h.moved
    · exact h.moved.trans (ih h.moved.intact hrun)

/-- Only at the end of the text the last byte is overwritten. -/
theorem skip_progress {fuel : ℕ} (h : Intact text n t) (hpos : 0 < t.buf.pos)
    (hrun : skipInitialSpaces fuel t = .ok t') :
    Moved text n t t' ∨ Marked text n t' := by
  induction fuel generalizing t with
  | zero => cases hrun
  | succ fuel ih =>
    have hhigh := h.pos
    simp only [skipInitialSpaces, Traced.source_fgetc, Traced.source_ungetc] at hrun
    split at hrun
    · cases hrun
      obtain ⟨hnext, ⟨b, hch, hb, hnpos, hlog⟩ | ⟨hch, hend, hbuf, hlog⟩⟩ := h.fgetc
      · rw [hch]
        obtain ⟨hback, hbpos⟩ := hnext.ungetc hb hnpos hlog
        exact .inl ⟨hback, Nat.le_of_eq hbpos.symm⟩
      · rw [hch]
        exact .inr (hnext.ungetc_eof (by omega) (by rw [hbuf, hend]) hlog)
    · rcases ih h.moved.intact (Nat.lt_of_lt_of_le hpos h.moved.le) hrun with hdone | hmarked
      · exact .inl (h.moved.trans hdone)
      · exact .inr hmarked

theorem valueLoop_marked {fuel : ℕ} {value value' : Buf} {rc : Bool} (h : Marked text n t)
    (hrun : parseValueLoop fuel t value = .ok (rc, t', value')) :
    Marked text n t' ∧ t'.buf.pos = text.length := by
  cases fuel with
  | zero => cases hrun
  | succ fuel =>
    obtain ⟨hnext, hneg, hend⟩ := h.fgetc
    simp only [parseValueLoop, Traced.source_fgetc, hneg, ↓reduceIte] at hrun
    cases hrun
    exact ⟨hnext, hend⟩

theorem valueLoop_progress {fuel : ℕ} {value value' : Buf} {rc : Bool} (h : Intact text n t)
    (hrun : parseValueLoop fuel t value = .ok (rc, t', value')) : Moved text n t t' := by
  induction fuel generalizing t value with
  | zero => cases hrun
  | succ fuel ih =>
    simp only [parseValueLoop, Traced.source_fgetc] at hrun
    split at hrun
    · cases hrun
      exact h.moved
    split at hrun
    · -- an escape reads two characters
      have htwice := h.moved.trans h.moved.intact.moved
      split at hrun
      · exact htwice.trans (ih htwice.intact hrun)
      · exact htwice.trans (ih htwice.intact hrun)
    split at hrun
    · cases hrun
      exact h.moved
    · exact h.moved.trans (ih h.moved.intact hrun)

theorem value_progress {fuel : ℕ} {value value' : Buf} {rc : Bool} (h : Intact text n t)
    (hpos : 0 < t.buf.pos) (hrun : cfParseValue fuel t value = .ok (rc, t', value')) :
    Settled text n t' ∧ t.buf.pos ≤ t'.buf.pos := by
  unfold cfParseValue at hrun
  split at hrun
  · cases hrun
  · rename_i next hskip
    rcases skip_progress h hpos hskip with hnext | hmarked
    · have hdone := hnext.trans (valueLoop_progress hnext.intact hrun)
      exact ⟨.inl hdone.intact, hdone.le⟩
    · -- the push-back is made up for by reading the marker
      obtain ⟨hdone, hend⟩ := valueLoop_marked hmarked hrun
      exact ⟨.inr ⟨hdone, hend⟩, hend ▸ h.pos⟩

theorem keyValuePair_progress {fuel : ℕ} {key value key' value' : Buf} {rc : Bool}
    (h : Intact text n t)
    (hrun : cfParseKeyValuePair fuel t key value = .ok (rc, t', key', value')) :
    Settled text n t' ∧ (rc = true → t.buf.pos < t'.buf.pos) := by
  induction fuel generalizing t key with
  | zero => cases hrun
  | succ fuel ih =>
    have hnext := h.moved.intact
    simp only [cfParseKeyValuePair, Traced.source_fgetc] at hrun
    split at hrun
    · cases hrun
      exact ⟨.inl hnext, by simp⟩
    rename_i hch
    have hpos := h.advance hch
    split at hrun
    · cases hrun
      exact ⟨.inl hnext, by simp⟩
    split at hrun
    · cases hrun
      exact ⟨.inl hnext, by simp⟩
    split at hrun
    · split at hrun
      · cases hrun
      · rename_i hvalue
        cases hrun
        obtain ⟨hdone, hmore⟩ := value_progress hnext (by omega) hvalue
        exact ⟨hdone, fun _ => by omega⟩
    · obtain ⟨hdone, hmore⟩ := ih hnext hrun
      exact ⟨hdone, fun hrc => Nat.lt_of_le_of_lt h.moved.le (hmore hrc)⟩

theorem Settled.mark (h : Settled text n t)
    (hrounds : ∀ p, .round p ∈ t.log → p < t.buf.pos) :
    Settled text t.buf.pos t.mark := by
  have hstarted : ∀ p, .round p ∈ t.mark.log → p ≤ t.buf.pos := by
    intro p hp
    rcases List.mem_cons.mp hp with heq | hp
    · cases heq
      exact le_rfl
    · exact Nat.le_of_lt (hrounds p hp)
  rcases h with h | ⟨h, hend⟩
  · exact .inl ⟨h.bytes, h.pos, ⟨⟨h.pos, hrounds⟩, h.sound⟩, hstarted⟩
  · exact .inr ⟨⟨h.bytes, h.nonempty, h.low, h.high, List.mem_cons_of_mem _ h.marker,
      ⟨⟨h.high, hrounds⟩, h.sound⟩, hstarted⟩, hend⟩

theorem Settled.sound (h : Settled text n t) : Sound text t.log := by
  rcases h with h | ⟨h, _⟩
  · exact h.sound
  · exact h.sound

theorem Settled.rounds_lt (h : Settled text n t) (hlt : n < t.buf.pos) :
    ∀ p, .round p ∈ t.log → p < t.buf.pos := by
  intro p hp
  rcases h with h | ⟨h, _⟩
  · exact Nat.lt_of_le_of_lt (h.rounds p hp) hlt
  · exact Nat.lt_of_le_of_lt (h.rounds p hp) hlt

/-- On the bound: every round that goes on has moved the cursor to the right. -/
theorem parseTextLoop_sound {fuel : ℕ} {cf cf' : Cf} {sec : Option CfSection} {comment rc : Bool}
    (h : Settled text n t) (hrounds : ∀ p, .round p ∈ t.log → p < t.buf.pos)
    (hrun : parseTextLoop fuel cf t sec comment = .ok (rc, cf', t')) :
    Sound text t'.log := by
  induction fuel generalizing n cf t sec comment with
  | zero => cases hrun
  | succ fuel ih =>
    simp only [parseTextLoop, Traced.source_round, Traced.source_fgetc,
      Traced.source_ungetc] at hrun
    rcases h.mark hrounds with hmark | ⟨hmark, _⟩
    · obtain ⟨hnext, hread⟩ := hmark.fgetc
      have hsettled : Settled text t.buf.pos t.mark.fgetc.2 := .inl hnext
      split at hrun
      · cases hrun
        exact hnext.sound
      rename_i hch
      have hpos : t.mark.fgetc.2.buf.pos = t.buf.pos + 1 := hmark.advance hch
      have hlt := hsettled.rounds_lt (by omega)
      split at hrun
      · exact ih hsettled hlt hrun
      split at hrun
      · exact ih hsettled hlt hrun
      split at hrun
      · exact ih hsettled hlt hrun
      split at hrun
      · split at hrun
        · cases hrun
        · rename_i hname
          cases hrun
          exact (sectionName_progress hnext hname).intact.sound
        · rename_i next name hname
          obtain ⟨hdone, hle⟩ := sectionName_progress hnext hname
          have hsettled' : Settled text t.buf.pos next := .inl hdone
          exact ih hsettled' (hsettled'.rounds_lt (by omega)) hrun
      split at hrun
      · cases hrun
        exact hnext.sound
      · rcases hread with ⟨b, hb, hbyte, _, hlog⟩ | ⟨heof, _⟩
        · rw [hb] at hrun
          obtain ⟨hback, hbpos⟩ := hnext.ungetc hbyte hpos hlog
          split at hrun
          · cases hrun
          · rename_i hpair
            cases hrun
            exact (keyValuePair_progress hback hpair).1.sound
          · rename_i hpair
            obtain ⟨hdone, hmore⟩ := keyValuePair_progress hback hpair
            have hmore := hmore rfl
            exact ih hdone (hdone.rounds_lt (hbpos ▸ hmore)) hrun
        · rw [heof] at hch
          exact absurd eof_neg hch
    · obtain ⟨hnext, hneg, _⟩ := hmark.fgetc
      rw [if_pos hneg] at hrun
      cases hrun
      exact hnext.sound

end Loops

/-- The parser ends on every text. In its record each round of the main loop starts
    further to the right than those before and not behind the end, nothing is
    overwritten but the last byte, and what is read is the text or the end marker. -/
theorem parser_progresses (cf : Cf) (text : Text) (fuel : ℕ) (hfuel : text.length < fuel) :
    ∃ rc cf' t, Traced.cfParseText fuel cf ⟨bufAddstr bufInit text, []⟩ = .ok (rc, cf', t) ∧
      cfParseText fuel cf (bufAddstr bufInit text) = .ok (rc, cf', t.buf) ∧
      ∀ later access earlier, t.log = later ++ access :: earlier →
        Allowed text earlier access := by
  have hstart : Settled text 0 ⟨bufAddstr bufInit text, []⟩ :=
    .inl ⟨rfl, Nat.zero_le _, trivial, by simp⟩
  have hsame : cfParseText fuel cf (bufAddstr bufInit text) =
      (Traced.cfParseText fuel cf ⟨bufAddstr bufInit text, []⟩).map
        fun r => (r.1, r.2.1, r.2.2.buf) :=
    parseTextLoop_erased Traced.erasure fuel cf ⟨bufAddstr bufInit text, []⟩ none false
  obtain ⟨final, hplain⟩ := @parseTextLoop_run fuel [] text cf none false hfuel
  cases hrun : Traced.cfParseText fuel cf ⟨bufAddstr bufInit text, []⟩ with
  | error halt =>
    rw [hrun] at hsame
    cases hplain.symm.trans hsame
  | ok r =>
    obtain ⟨rc, cf', t⟩ := r
    rw [hrun] at hsame
    refine ⟨rc, cf', t, rfl, hsame, ?_⟩
    intro later access earlier hlog
    exact (parseTextLoop_sound hstart (by simp) hrun).allowed hlog

/-- The end comes just after `=`, which is overwritten. -/
theorem parser_progresses_marked :
    ∃ rc cf' t, Traced.cfParseText 10 ⟨[]⟩ ⟨bufAddstr bufInit (ascii "[a]\nk="), []⟩ =
        .ok (rc, cf', t) ∧ t.buf.bytes = ascii "[a]\nk" ++ [255] ∧
      t.log.reverse =
        [.round 0, .read 0 (byte '['), .read 1 (byte 'a'), .read 2 (byte ']'),
         .round 3, .read 3 (byte '\n'),
         .round 4, .read 4 (byte 'k'), .write 4 (byte 'k'), .read 4 (byte 'k'), .read 5 (byte '='),
         .read 6 none, .write 5 255, .read 5 (some 255),
         .round 6, .read 6 none] ∧
      ∀ later access earlier, t.log = later ++ access :: earlier →
        Allowed (ascii "[a]\nk=") earlier access := by
  obtain ⟨rc, cf', t, hrun, _, hlog⟩ :=
    parser_progresses ⟨[]⟩ (ascii "[a]\nk=") 10 (by decide)
  refine ⟨rc, cf', t, hrun, ?_⟩
  cases hrun
  exact ⟨by decide, by decide, hlog⟩

end Pathcomp.Progress
