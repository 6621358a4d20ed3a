import Pathcomp.Store

set_option autoImplicit false

/-!
# What the configuration leaves behind

The heap is followed through calls that add texts and files to the configuration and
through its cleanup. It has the cells of the configuration and those that were left
behind by syntax errors and by files that count as unreadable, and the number of the
latter is determined by the texts and files alone.
-/
namespace Pathcomp.Leaks
open Bytes Buffer Config RawBuffer Scanner Additions Files Heaps Links Store

/-- The blocks of a section: itself and its name, and for each entry a node, a pair and
    two strings. -/
def sectionSize : Option CfSection → ℕ
  | some sec => 2 + 4 * sec.entries.length
  | none => 0

/-- What the parser holds and does not give back if the next byte, or the end of the
    text, is a syntax error. -/
def held (s : Scan) : ℕ :=
  match s.mode with
  | .line _ => sectionSize s.sec
  | .name acc => if acc = [] then 0 else 1
  | .key acc => (if acc = [] then 0 else 1) + sectionSize s.sec
  | _ => 0

def lostFrom (s : Scan) : Text → ℕ
  | [] => if (atEnd s).mode = .failed then held s else 0
  | b :: rest => if (advance s b).mode = .failed then held s else lostFrom (advance s b) rest

/-- The number of blocks that nobody can free after this text was parsed. -/
def lostBy (text : Text) : ℕ := lostFrom (start []) text

theorem lostFrom_run {s : Scan} {chunk : Text} (h : (run s chunk).mode ≠ .failed) (rest : Text) :
    lostFrom s (chunk ++ rest) = lostFrom (run s chunk) rest := by
  induction chunk generalizing s with
  | nil => rfl
  | cons b chunk ih =>
    rw [List.cons_append, lostFrom, if_neg (advance_ok_of_run h), ih h]
    rfl

theorem lostFrom_accepted {s : Scan} {text : Text} (h : (outcome (run s text)).1 = true) :
    lostFrom s text = 0 := by
  induction text generalizing s with
  | nil =>
    have hstopped : (atEnd s).mode = .stopped := of_decide_eq_true h
    rw [lostFrom, if_neg (by rw [hstopped]; simp)]
  | cons b text ih =>
    rw [lostFrom, if_neg (advance_ok_of_run (outcome_ok h))]
    exact ih h

theorem lostFrom_consumes {past rest past' rest' : Text} {s t : Scan}
    (h : Consumes past rest past' rest' s t) (ht : (outcome t).1 = true) :
    lostFrom s rest = lostFrom t rest' := by
  rcases h with ⟨rfl, _, he⟩ | ⟨chunk, _, rfl, _, rfl⟩
  · rw [lostFrom_accepted (he ▸ ht), @lostFrom_accepted t [] ht]
  · exact lostFrom_run (outcome_ok ht) rest'

theorem lostFrom_after (before : List CfSection) (s : Scan) (text : Text) :
    lostFrom (s.after before) text = lostFrom s text := by
  induction text generalizing s with
  | nil =>
    obtain ⟨sections, sec, mode⟩ := s
    cases mode <;> rfl
  | cons b text ih =>
    rw [lostFrom, lostFrom, advance_after, ih]
    rfl

theorem lostFrom_start (sections : List CfSection) (text : Text) :
    lostFrom (start sections) text = lostBy text := by
  rw [lostBy, ← lostFrom_after sections (start [])]
  simp [start, Scan.after]

section Loops
variable (sections : List CfSection) (sec : Option CfSection)

theorem parseSectionName_lost {fuel : ℕ} {past rest acc : Text} {p : ℕ} {text name : Buf}
    (h : Config.cfParseSectionName fuel (cursor past rest) ⟨acc, p⟩ = .ok (false, text, name)) :
    lostFrom ⟨sections, none, .name acc⟩ rest = if name.bytes = [] then 0 else 1 := by
  induction fuel generalizing past rest acc with
  | zero => cases h
  | succ fuel ih =>
    cases rest with
    | nil =>
      rw [Config.cfParseSectionName, fgetc_buf, bufFgetc_nil] at h
      cases h
      rfl
    | cons b rest =>
      simp only [Config.cfParseSectionName, fgetc_buf, bufFgetc_cons, charToInt_neg_iff,
        charToInt_eq_code_iff b (by decide : '\n'.toNat < 128),
        charToInt_eq_code_iff b (by decide : ']'.toNat < 128)] at h
      have hstep : advance ⟨sections, none, .name acc⟩ b =
          if ¬ b < 128 then ⟨sections, none, .failed⟩
          else if b = byte '\n' then ⟨sections, none, .failed⟩
          else if b = byte ']' then ⟨sections, some ⟨cstr acc, []⟩, .line false⟩
          else ⟨sections, none, .name (acc ++ [b])⟩ := rfl
      rw [lostFrom, hstep]
      split at h
      · rename_i hb
        cases h
        rw [if_pos hb]
        rfl
      rename_i hb
      rw [if_neg hb]
      split at h
      · rename_i hb
        cases h
        rw [if_pos hb]
        rfl
      rename_i hb
      rw [if_neg hb]
      split at h
      · cases h
      rename_i hb
      rw [if_neg hb]
      rw [bufAddch_char] at h
      exact ih h

theorem parseValueLoop_true {fuel : ℕ} {text value text' value' : Buf} {rc : Bool}
    (h : Config.parseValueLoop fuel text value = .ok (rc, text', value')) : rc = true := by
  induction fuel generalizing text value with
  | zero => cases h
  | succ fuel ih =>
    simp only [Config.parseValueLoop] at h
    split at h
    · cases h
      rfl
    split at h
    · split at h
      · exact ih h
      · exact ih h
    split at h
    · cases h
      rfl
    · exact ih h

theorem parseKeyValuePair_lost {fuel : ℕ} {past rest acc : Text} {p : ℕ}
    {value text key value' : Buf}
    (h : Config.cfParseKeyValuePair fuel (cursor past rest) ⟨acc, p⟩ value =
      .ok (false, text, key, value')) :
    lostFrom ⟨sections, sec, .key acc⟩ rest =
      (if key.bytes = [] then 0 else 1) + sectionSize sec := by
  induction fuel generalizing past rest acc with
  | zero => cases h
  | succ fuel ih =>
    cases rest with
    | nil =>
      rw [Config.cfParseKeyValuePair, fgetc_buf, bufFgetc_nil] at h
      cases h
      rfl
    | cons b rest =>
      simp only [Config.cfParseKeyValuePair, fgetc_buf, bufFgetc_cons, charToInt_neg_iff,
        charToInt_eq_code_iff b (by decide : '\n'.toNat < 128),
        charToInt_eq_code_iff b (by decide : '['.toNat < 128),
        charToInt_eq_code_iff b (by decide : ']'.toNat < 128),
        charToInt_eq_code_iff b (by decide : '='.toNat < 128)] at h
      have hstep : advance ⟨sections, sec, .key acc⟩ b =
          if ¬ b < 128 then ⟨sections, none, .failed⟩
          else if b = byte '\n' then ⟨sections, none, .failed⟩
          else if b = byte '[' ∨ b = byte ']' then ⟨sections, none, .failed⟩
          else if b = byte '=' then ⟨sections, sec, .skip acc⟩
          else ⟨sections, sec, .key (acc ++ [b])⟩ := rfl
      rw [lostFrom, hstep]
      split at h
      · rename_i hb
        cases h
        rw [if_pos hb]
        rfl
      rename_i hb
      rw [if_neg hb]
      split at h
      · rename_i hb
        cases h
        rw [if_pos hb]
        rfl
      rename_i hb
      rw [if_neg hb]
      split at h
      · rename_i hb
        cases h
        rw [if_pos hb]
        rfl
      rename_i hb
      rw [if_neg hb]
      split at h
      · -- a value is never a syntax error
        split at h
        · cases h
        · rename_i hvalue
          unfold Config.cfParseValue at hvalue
          split at hvalue
          · cases hvalue
          · cases h
            cases parseValueLoop_true hvalue
      rename_i hb
      rw [if_neg hb]
      rw [bufAddch_char] at h
      exact ih h

end Loops

section Buffers

theorem triple_sectionName {fuel : ℕ} {text text' buf : Buf} {name : OwnedBuf} {rc : Bool}
    (hname : name.Tight) (h : Config.cfParseSectionName fuel text name.buf = .ok (rc, text', buf)) :
    Triple name.cells (Store.cfParseSectionName fuel text name) fun x m' => ∃ name' : OwnedBuf,
      x = (rc, text', name') ∧ name'.buf = buf ∧ name'.Tight ∧ m' = name'.cells := by
  induction fuel generalizing text name with
  | zero => cases h
  | succ fuel ih =>
    simp only [Config.cfParseSectionName, fgetc_buf, Store.cfParseSectionName] at h ⊢
    split at h
    · rename_i hc
      cases h
      rw [if_pos hc]
      exact Triple.ret ⟨name, rfl, rfl, hname, rfl⟩
    rename_i hc
    rw [if_neg hc]
    split at h
    · rename_i hc
      cases h
      rw [if_pos hc]
      exact Triple.ret ⟨name, rfl, rfl, hname, rfl⟩
    rename_i hc
    rw [if_neg hc]
    split at h
    · rename_i hc
      cases h
      rw [if_pos hc]
      exact Triple.ret ⟨name, rfl, rfl, hname, rfl⟩
    rename_i hc
    rw [if_neg hc]
    apply (triple_bufAddch name _).bind
    rintro name' _ ⟨hbuf, htight, rfl⟩
    rw [← hbuf] at h
    exact ih htight h

theorem triple_valueLoop {fuel : ℕ} {text text' buf : Buf} {value : OwnedBuf} {rc : Bool}
    (h : Config.parseValueLoop fuel text value.buf = .ok (rc, text', buf)) :
    Triple value.cells (Store.parseValueLoop fuel text value) fun x m' => ∃ value' : OwnedBuf,
      x = (rc, text', value') ∧ value'.buf = buf ∧ m' = value'.cells := by
  induction fuel generalizing text value with
  | zero => cases h
  | succ fuel ih =>
    simp only [Config.parseValueLoop, fgetc_buf, Store.parseValueLoop] at h ⊢
    split at h
    · rename_i hc
      cases h
      rw [if_pos hc]
      exact Triple.ret ⟨value, rfl, rfl, rfl⟩
    rename_i hc
    rw [if_neg hc]
    split at h
    · rename_i hc
      rw [if_pos hc]
      split at h
      · rename_i hc
        rw [if_pos hc]
        exact ih h
      · rename_i hc
        rw [if_neg hc]
        apply (triple_bufAddch value _).bind
        rintro value' _ ⟨hbuf, _, rfl⟩
        apply (triple_bufAddch value' _).bind
        rintro value'' _ ⟨hbuf', _, rfl⟩
        rw [← hbuf, ← hbuf'] at h
        exact ih h
    rename_i hc
    rw [if_neg hc]
    split at h
    · rename_i hc
      cases h
      rw [if_pos hc]
      exact Triple.ret ⟨value, rfl, rfl, rfl⟩
    · rename_i hc
      rw [if_neg hc]
      apply (triple_bufAddch value _).bind
      rintro value' _ ⟨hbuf, _, rfl⟩
      rw [← hbuf] at h
      exact ih h

theorem triple_value {fuel : ℕ} {text text' buf : Buf} {value : OwnedBuf} {rc : Bool}
    (h : Config.cfParseValue fuel text value.buf = .ok (rc, text', buf)) :
    Triple value.cells (Store.cfParseValue fuel text value) fun x m' => ∃ value' : OwnedBuf,
      x = (rc, text', value') ∧ value'.buf = buf ∧ m' = value'.cells := by
  unfold Config.cfParseValue at h
  unfold Store.cfParseValue
  cases hskip : skipInitialSpaces fuel text with
  | error reason =>
    rw [hskip] at h
    cases h
  | ok rest =>
    rw [hskip] at h
    exact triple_valueLoop h

theorem triple_keyValuePair {fuel : ℕ} {text text' kbuf vbuf : Buf} {key value : OwnedBuf}
    {rc : Bool} (hkey : key.Tight)
    (h : Config.cfParseKeyValuePair fuel text key.buf value.buf = .ok (rc, text', kbuf, vbuf)) :
    Triple (key.cells + value.cells) (Store.cfParseKeyValuePair fuel text key value) fun x m' =>
      ∃ key' value' : OwnedBuf, x = (rc, text', key', value') ∧ key'.buf = kbuf ∧
        value'.buf = vbuf ∧ (rc = false → key'.Tight ∧ value' = value) ∧
        m' = key'.cells + value'.cells := by
  induction fuel generalizing text key with
  | zero => cases h
  | succ fuel ih =>
    simp only [Config.cfParseKeyValuePair, fgetc_buf, Store.cfParseKeyValuePair] at h ⊢
    split at h
    · rename_i hc
      cases h
      rw [if_pos hc]
      exact Triple.ret ⟨key, value, rfl, rfl, rfl, fun _ => ⟨hkey, rfl⟩, rfl⟩
    rename_i hc
    rw [if_neg hc]
    split at h
    · rename_i hc
      cases h
      rw [if_pos hc]
      exact Triple.ret ⟨key, value, rfl, rfl, rfl, fun _ => ⟨hkey, rfl⟩, rfl⟩
    rename_i hc
    rw [if_neg hc]
    split at h
    · rename_i hc
      cases h
      rw [if_pos hc]
      exact Triple.ret ⟨key, value, rfl, rfl, rfl, fun _ => ⟨hkey, rfl⟩, rfl⟩
    rename_i hc
    rw [if_neg hc]
    split at h
    · rename_i hc
      rw [if_pos hc]
      split at h
      · cases h
      · rename_i hvalue
        cases h
        have hframe := (triple_value hvalue).frame key.cells
        rw [add_comm] at hframe
        apply hframe.bind
        rintro _ _ ⟨_, ⟨value', rfl, rfl, rfl⟩, rfl⟩
        refine Triple.ret ⟨Store.bufRtrim key, value', rfl, rfl, rfl, fun hrc => ?_,
          add_comm _ _⟩
        unfold Config.cfParseValue at hvalue
        split at hvalue
        · cases hvalue
        · cases hrc.symm.trans (parseValueLoop_true hvalue)
    · rename_i hc
      rw [if_neg hc]
      apply ((triple_bufAddch key _).frame value.cells).bind
      rintro key' _ ⟨_, ⟨hbuf, htight, rfl⟩, rfl⟩
      rw [← hbuf] at h
      exact ih htight h

end Buffers

/-- The state of the automaton that goes with a configuration and an open section. -/
def scanOf (p : PlacedCf) (sec : Option PlacedSection) (mode : Mode) : Scan :=
  ⟨p.secs, sec.map PlacedSection.sec, mode⟩

/-- How the parser ends if the automaton reads the rest of the text from `s`. -/
def Parsed (cf : ℕ) (s : Scan) (rest : Text) (x : Bool × Buf) (m : Bindings Block) : Prop :=
  ∃ (q : PlacedCf) (lost : Bindings Block), x.1 = (outcome (run s rest)).1 ∧ q.cell = cf ∧
    q.secs = (outcome (run s rest)).2 ∧ m = q.cells + lost ∧ lost.card = lostFrom s rest

theorem Parsed.of_eq {cf : ℕ} {s t : Scan} {rest rest' : Text} {x : Bool × Buf}
    {m : Bindings Block} (h : Parsed cf t rest' x m)
    (hout : outcome (run s rest) = outcome (run t rest'))
    (hlost : lostFrom s rest = lostFrom t rest') : Parsed cf s rest x m := by
  obtain ⟨q, lost, hx, hcell, hsecs, hm, hcard⟩ := h
  exact ⟨q, lost, by rw [hout, hx], hcell, by rw [hout, hsecs], hm, by rw [hlost, hcard]⟩

theorem sectionSize_card (sec : Option PlacedSection) :
    (openCells sec).card = sectionSize (sec.map PlacedSection.sec) := by
  cases sec with
  | none => rfl
  | some s => exact s.card

theorem Parsed.step {cf : ℕ} {s t : Scan} {b : UInt8} {rest : Text} {x : Bool × Buf}
    {m : Bindings Block} (hb : advance s b = t) (ht : t.mode ≠ .failed)
    (h : Parsed cf t rest x m) : Parsed cf s (b :: rest) x m := by
  refine h.of_eq (by rw [run_cons, hb]) ?_
  rw [lostFrom, hb, if_neg ht]

theorem triple_header {n : ℕ} {past rest : Text} (q : PlacedCf) (hf : rest.length ≤ n)
    (hnext : ∀ past' rest' (s : PlacedSection), rest'.length < rest.length →
      Triple (q.cells + openCells (some s))
        (Store.parseTextLoop n q.cell (cursor past' rest') (some s.cell) false)
        (Parsed q.cell (scanOf q (some s) (.line false)) rest')) :
    Triple q.cells (do
      let (rc, text, name) ← Store.cfParseSectionName (n + 1) (cursor past rest) Store.bufInit
      if rc then do
        let sec ← Store.cfSectionNew name
        bufRelease name
        Store.parseTextLoop n q.cell text (some sec) false
      else pure (false, text)) (Parsed q.cell ⟨q.secs, none, .name []⟩ rest) := by
  have hcells : q.cells = Store.bufInit.cells + q.cells := (zero_add _).symm
  rcases @parseSectionName_run q.secs (n + 1) past rest [] 0 (by omega) with
    ⟨past', rest', acc, hp, hc⟩ | ⟨text, name, hp, hr⟩
  · have hrest : rest ≠ [] := by
      rintro rfl
      cases hc.at_end.2.2
    rw [hcells]
    apply ((triple_sectionName tight_bufInit hp).frame q.cells).bind
    rintro _ _ ⟨_, ⟨name, rfl, hname, _, rfl⟩, rfl⟩
    have hnew := (triple_cfSectionNew name).frame (name.cells + q.cells)
    rw [zero_add] at hnew
    apply hnew.bind
    rintro _ _ ⟨_, ⟨s, rfl, hs, rfl⟩, rfl⟩
    have hfree := (returns_bufRelease name).frame (q.cells + s.cells)
    refine (hfree.reorder (by abel) (zero_add _)).then ?_
    apply (hnext past' rest' s (hc.length_lt hrest)).weaken
    intro x m h
    have hstate : scanOf q (some s) (.line false) =
        ⟨q.secs, some ⟨cstr acc, []⟩, .line false⟩ := by
      rw [scanOf, Option.map_some, hs, Config.cfSectionNew, hname]
    rw [hstate] at h
    exact h.of_eq hc.outcome_eq (lostFrom_consumes hc rfl)
  · rw [hcells]
    apply ((triple_sectionName tight_bufInit hp).frame q.cells).bind
    rintro _ _ ⟨_, ⟨name, rfl, rfl, htight, rfl⟩, rfl⟩
    refine Triple.ret ⟨q, name.cells, ?_, rfl, ?_, add_comm _ _, ?_⟩
    · rw [hr]
    · rw [hr]
    · rw [htight.card, parseSectionName_lost q.secs hp]

theorem triple_entry {n : ℕ} {past rest : Text} (p : PlacedCf) (sec : Option PlacedSection)
    (hne : rest ≠ []) (hf : rest.length ≤ n)
    (hnext : ∀ past' rest' (sec' : Option PlacedSection), rest'.length < rest.length →
      sec'.map PlacedSection.cell = sec.map PlacedSection.cell →
      Triple (p.cells + openCells sec')
        (Store.parseTextLoop n p.cell (cursor past' rest') (sec.map PlacedSection.cell) false)
        (Parsed p.cell (scanOf p sec' (.line false)) rest')) :
    Triple (p.cells + openCells sec) (do
      let (rc, text, key, value) ←
        Store.cfParseKeyValuePair (n + 1) (cursor past rest) Store.bufInit Store.bufInit
      if rc then do
        let value := Store.bufRtrim value
        let kv ← Store.cfKvNew key value
        bufRelease key
        bufRelease value
        Store.attachEntry kv (sec.map PlacedSection.cell)
        Store.parseTextLoop n p.cell text (sec.map PlacedSection.cell) false
      else pure (false, text)) (Parsed p.cell (scanOf p sec (.key [])) rest) := by
  have hcells : p.cells + openCells sec =
      Store.bufInit.cells + Store.bufInit.cells + (p.cells + openCells sec) := (zero_add _).symm
  rcases @parseKeyValuePair_run p.secs (sec.map PlacedSection.sec) (n + 1) past rest [] 0 0
    (by omega) with ⟨past', rest', key, value, hp, hc⟩ | ⟨text, key, value, hp, hr⟩
  · rw [hcells]
    apply ((triple_keyValuePair tight_bufInit hp).frame (p.cells + openCells sec)).bind
    rintro _ _ ⟨_, ⟨k, v, rfl, hk, hv, _, rfl⟩, rfl⟩
    have hnew := (triple_cfKvNew k (Store.bufRtrim v)).frame
      (k.cells + v.cells + (p.cells + openCells sec))
    rw [zero_add] at hnew
    apply hnew.bind
    rintro _ _ ⟨_, ⟨kv, rfl, hkv, rfl⟩, rfl⟩
    have hkey := (returns_bufRelease k).frame (v.cells + (kv.cells + openCells sec + p.cells))
    have hvalue := (returns_bufRelease (Store.bufRtrim v)).frame
      (kv.cells + openCells sec + p.cells)
    refine (hkey.reorder (by abel) (zero_add _)).then ?_
    refine (hvalue.reorder rfl (zero_add _)).then ?_
    apply ((triple_attachEntry kv sec).frame p.cells).bind
    rintro _ _ ⟨_, ⟨sec', hcell, hsec, rfl⟩, rfl⟩
    rw [add_comm]
    apply (hnext past' rest' sec' (hc.length_lt hne) hcell).weaken
    intro x m h
    have hstate : scanOf p sec' (.line false) =
        closeEntry ⟨p.secs, sec.map PlacedSection.sec, .line false⟩ key value := by
      have hclose := cfKvNew_close key value 0 0
      rw [scanOf, hsec, hkv, hk, Store.bufRtrim, hv, hclose]
      rfl
    rw [hstate] at h
    exact h.of_eq hc.outcome_eq (lostFrom_consumes hc rfl)
  · rw [hcells]
    apply ((triple_keyValuePair tight_bufInit hp).frame (p.cells + openCells sec)).bind
    rintro _ _ ⟨_, ⟨k, v, rfl, rfl, _, hfail, rfl⟩, rfl⟩
    obtain ⟨htight, rfl⟩ := hfail rfl
    refine Triple.ret ⟨p, k.cells + openCells sec, ?_, rfl, ?_, ?_, ?_⟩
    · rw [scanOf, hr]
    · rw [scanOf, hr]
    · rw [show Store.bufInit.cells = 0 from rfl, add_zero]
      abel
    · rw [Multiset.card_add, htight.card, sectionSize_card, scanOf,
        parseKeyValuePair_lost p.secs (sec.map PlacedSection.sec) hp]

theorem triple_parseTextLoop {fuel : ℕ} {past rest : Text} (p : PlacedCf)
    (sec : Option PlacedSection) (comment : Bool) (hf : rest.length < fuel) :
    Triple (p.cells + openCells sec)
      (Store.parseTextLoop fuel p.cell (cursor past rest) (sec.map PlacedSection.cell) comment)
      (Parsed p.cell (scanOf p sec (.line comment)) rest) := by
  induction fuel generalizing past rest p sec comment with
  | zero => omega
  | succ n ih =>
    cases rest with
    | nil =>
      simp only [Store.parseTextLoop, bufFgetc_nil]
      apply (triple_pushSection p sec).bind
      rintro _ _ ⟨q, hcell, hsecs, rfl⟩
      exact Triple.ret ⟨q, 0, rfl, hcell, hsecs, (add_zero _).symm, rfl⟩
    | cons b rest =>
      simp only [List.length_cons] at hf
      have hn : rest.length < n := by omega
      have hstep : advance (scanOf p sec (.line comment)) b =
          advanceLine (scanOf p sec (.line comment)) comment b := rfl
      simp only [advanceLine, scanOf] at hstep
      simp only [Store.parseTextLoop, bufFgetc_cons, charToInt_neg_iff,
        charToInt_eq_code_iff b (by decide : '\n'.toNat < 128),
        charToInt_eq_code_iff b (by decide : ';'.toNat < 128),
        charToInt_eq_code_iff b (by decide : '#'.toNat < 128),
        charToInt_eq_code_iff b (by decide : '['.toNat < 128),
        charToInt_eq_code_iff b (by decide : '='.toNat < 128)]
      by_cases hhigh : ¬ b < 128
      · -- the end, as the parser sees it
        rw [if_pos hhigh] at hstep ⊢
        apply (triple_pushSection p sec).bind
        rintro _ _ ⟨q, hcell, hsecs, rfl⟩
        refine Triple.ret ⟨q, 0, ?_, hcell, ?_, (add_zero _).symm, ?_⟩
        · rw [run_cons, scanOf, hstep, run_stopped]
          rfl
        · rw [run_cons, scanOf, hstep, run_stopped]
          exact hsecs
        · rw [lostFrom, scanOf, hstep, if_neg (by simp),
            lostFrom_accepted (by rw [run_stopped]; rfl)]
          rfl
      rw [if_neg hhigh] at hstep ⊢
      by_cases hnl : b = nl
      · rw [if_pos hnl] at hstep
        rw [if_pos (show b = byte '\n' from hnl)]
        exact (ih p sec false hn).weaken fun x m h => h.step hstep (by simp)
      rw [if_neg hnl] at hstep
      rw [if_neg (show ¬ b = byte '\n' from hnl)]
      by_cases hblank : (comment || space b) = true
      · rw [if_pos hblank] at hstep
        rw [if_pos (show (comment || isspace (charToInt b)) = true from hblank)]
        exact (ih p sec comment hn).weaken fun x m h => h.step hstep (by simp)
      rw [if_neg hblank] at hstep
      rw [if_neg (show ¬ (comment || isspace (charToInt b)) = true from hblank)]
      by_cases hmark : b = byte ';' ∨ b = byte '#'
      · rw [if_pos hmark] at hstep ⊢
        exact (ih p sec true hn).weaken fun x m h => h.step hstep (by simp)
      rw [if_neg hmark] at hstep ⊢
      have hcomment : comment = false := by
        simp only [Bool.or_eq_true, not_or, Bool.not_eq_true] at hblank
        exact hblank.1
      subst hcomment
      by_cases hopen : b = byte '['
      · rw [if_pos hopen] at hstep ⊢
        apply (triple_pushSection p sec).bind
        rintro _ _ ⟨q, hcell, hsecs, rfl⟩
        rw [← hcell]
        refine (triple_header q (by omega) fun past' rest' s hlen => ?_).weaken ?_
        · exact @ih past' rest' q (some s) false (by omega)
        · intro x m h
          rw [hsecs] at h
          exact h.step hstep (by simp)
      rw [if_neg hopen] at hstep ⊢
      by_cases heq : b = byte '='
      · rw [if_pos heq] at hstep ⊢
        refine Triple.ret ⟨p, openCells sec, ?_, rfl, ?_, rfl, ?_⟩
        · rw [run_cons, scanOf, hstep, outcome_failed]
        · rw [run_cons, scanOf, hstep, outcome_failed]
        · rw [lostFrom, scanOf, hstep, if_pos rfl, sectionSize_card]
          rfl
      rw [if_neg heq] at hstep ⊢
      rw [bufUngetc_char]
      have hlength : (b :: rest).length ≤ n := hn
      refine (triple_entry p sec (by simp) hlength fun past' rest' sec' hlen hcell => ?_).weaken ?_
      · rw [← hcell]
        exact @ih past' rest' p sec' false (by omega)
      · intro x m h
        refine h.of_eq ?_ ?_
        · rw [run_cons, run_cons, scanOf, hstep]
          rfl
        · rw [lostFrom, lostFrom, scanOf, hstep]
          simp only [held, scanOf, ↓reduceIte, zero_add]
          rfl

theorem triple_cfParseText {fuel : ℕ} {text : OwnedBuf} {bytes : Text} (p : PlacedCf)
    (htext : text.buf = cursor [] bytes) (hf : bytes.length < fuel) :
    Triple p.cells (Store.cfParseText fuel p.cell text) fun rc m' =>
      ∃ (q : PlacedCf) (lost : Bindings Block), rc = (scan p.secs bytes).1 ∧ q.cell = p.cell ∧
        q.secs = (scan p.secs bytes).2 ∧ m' = q.cells + lost ∧ lost.card = lostBy bytes := by
  have hloop := @triple_parseTextLoop fuel [] bytes p none false hf
  rw [openCells, add_zero, ← htext] at hloop
  apply hloop.bind
  rintro x _ ⟨q, lost, hrc, hcell, hsecs, rfl, hcard⟩
  refine Triple.ret ⟨q, lost, hrc, hcell, hsecs, rfl, ?_⟩
  rw [hcard, ← lostFrom_start p.secs]
  rfl

/-- What a call that adds to a configuration does: the configuration becomes what it would
    be as a value, and so many blocks are left behind. -/
def Adds (p : PlacedCf) (result : Except Halt (Bool × Cf)) (n : ℕ) (prog : S Bool) : Prop :=
  Triple p.cells prog fun rc m' => ∃ (q : PlacedCf) (lost : Bindings Block),
    result = .ok (rc, q.cf) ∧ q.cell = p.cell ∧ m' = q.cells + lost ∧ lost.card = n

theorem adds_parse {fuel : ℕ} {text : OwnedBuf} {bytes : Text} (p : PlacedCf)
    (htext : text.buf = cursor [] bytes) (hf : bytes.length < fuel) :
    Triple (text.cells + p.cells) (do
      let rc ← Store.cfParseText fuel p.cell text
      bufRelease text
      pure rc) fun rc m' => ∃ (q : PlacedCf) (lost : Bindings Block),
        Config.cfAddFromString fuel p.cf bytes = .ok (rc, q.cf) ∧ q.cell = p.cell ∧
          m' = q.cells + lost ∧ lost.card = lostBy bytes := by
  have hparse := (triple_cfParseText p htext hf).frame text.cells
  rw [add_comm]
  apply hparse.bind
  rintro rc _ ⟨_, ⟨q, lost, rfl, hcell, hsecs, rfl, hcard⟩, rfl⟩
  have hfree := (returns_bufRelease text).frame (q.cells + lost)
  refine (hfree.reorder (add_comm _ _) (zero_add _)).then ?_
  refine Triple.ret ⟨q, lost, ?_, hcell, rfl, hcard⟩
  rw [cfAddFromString_scan p.cf hf, PlacedCf.cf, PlacedCf.cf, hsecs]

theorem adds_string {fuel : ℕ} {text : Text} (p : PlacedCf) (hf : text.length < fuel) :
    Adds p (Config.cfAddFromString fuel p.cf text) (lostBy text)
      (Store.cfAddFromString fuel p.cell text) := by
  have hgrow := (triple_bufGrow Store.bufInit).frame p.cells
  rw [show Store.bufInit.cells + p.cells = p.cells from zero_add _] at hgrow
  have hadd : Triple p.cells (Store.bufAddstr Store.bufInit text) fun b m' =>
      b.buf = cursor [] text ∧ m' = b.cells + p.cells := by
    apply hgrow.bind
    rintro b _ ⟨_, ⟨hbuf, _, rfl⟩, rfl⟩
    refine Triple.ret ⟨?_, rfl⟩
    simp only [hbuf]
    rfl
  apply hadd.bind
  rintro b _ ⟨hbuf, rfl⟩
  exact adds_parse p hbuf hf

/-- The number of blocks that are left behind by a file: the buffer, where the file cannot
    be closed or its length is taken for an error. -/
def lostByFile (file : File) : ℕ :=
  if file.opens = false ∨ Event.error ∈ file.reads then 0
  else if file.closes = false ∨ (contents file.reads).length % 2 ^ 32 = 2 ^ 32 - 1 then 1
  else lostBy (contents file.reads)

theorem triple_readLoop_error {oldlen fuel : ℕ} {b : FileBuf} {reads : List Event}
    (hb : 0 < b.sized.avail) (hfuel : size reads < fuel) (herror : Event.error ∈ reads) :
    Triple b.cells (Store.readLoop 0 oldlen fuel b reads)
      fun x m' => x.1 = -1 ∧ x.2.cells = 0 ∧ m' = 0 := by
  induction fuel generalizing b reads with
  | zero => omega
  | succ fuel ih =>
    unfold Store.readLoop
    rcases tryRead_cases hb reads with ⟨⟨rest, hread⟩, _⟩ | ⟨_, _, hnone⟩ |
      ⟨first, more, rest, hread, _, hrest, hsize⟩
    · simp only [hread]
      have hfree := returns_bufRelease ⟨b.sized.buf, b.block⟩
      refine Returns.then (Returns.then hfree (Returns.ret _ _)) ?_
      exact Triple.ret ⟨rfl, rfl, rfl⟩
    · exact absurd herror hnone
    · simp only [hread]
      apply (triple_grow (b.append (first :: more)) 8192).bind
      rintro b' _ ⟨hsized, _, rfl⟩
      refine ih ?_ (by omega) (hrest.mpr herror)
      rw [hsized]
      exact grow_avail _ (by omega)

theorem triple_readLoop_contents {oldlen fuel : ℕ} {b : FileBuf} {reads : List Event}
    (hblock : b.block ≠ none) (hb : 0 < b.sized.avail) (hfuel : size reads < fuel)
    (herror : Event.error ∉ reads) :
    Triple b.cells (Store.readLoop 0 oldlen fuel b reads) fun x m' =>
      x.1 = narrow ((b.sized.buf.bytes ++ contents reads).length - oldlen) ∧
      x.2.sized.buf = { b.sized.buf with bytes := b.sized.buf.bytes ++ contents reads } ∧
      x.2.block ≠ none ∧ m' = x.2.cells := by
  induction fuel generalizing b reads with
  | zero => omega
  | succ fuel ih =>
    unfold Store.readLoop
    rcases tryRead_cases hb reads with ⟨_, hsome⟩ | ⟨⟨rest, hread⟩, hcontents, _⟩ |
      ⟨first, more, rest, hread, hcontents, hrest, hsize⟩
    · exact absurd hsome herror
    · simp only [hread, hcontents, List.append_nil]
      exact Triple.ret ⟨by rw [SizedBuf.len], rfl, hblock, rfl⟩
    · simp only [hread]
      apply (triple_grow (b.append (first :: more)) 8192).bind
      rintro b' _ ⟨hsized, hblock', rfl⟩
      have havail : 0 < b'.sized.avail := by
        rw [hsized]
        exact grow_avail _ (by omega)
      apply (ih hblock' havail (by omega) fun h => herror (hrest.mp h)).weaken
      rintro x m' ⟨hlen, hbuf, hlast, hm⟩
      have hbytes : (b.append (first :: more)).sized.buf.bytes ++ contents rest =
          b.sized.buf.bytes ++ contents reads := by
        rw [hcontents, FileBuf.append, List.append_assoc]
      rw [hsized, grow_buf, hbytes] at hlen hbuf
      exact ⟨hlen, hbuf, hlast, hm⟩

/-- The buffer of `cf_add_from_file` before anything is read. -/
def emptyFile : FileBuf := ⟨⟨Buffer.bufInit, 0⟩, none⟩

theorem triple_bufRead_error {fuel : ℕ} {reads : List Event} (hfuel : size reads < fuel)
    (herror : Event.error ∈ reads) : Triple 0 (Store.bufRead fuel emptyFile reads 0)
      fun x m' => x.1 = -1 ∧ x.2.cells = 0 ∧ m' = 0 := by
  apply (triple_grow emptyFile 8192).bind
  rintro b _ ⟨hsized, _, rfl⟩
  refine triple_readLoop_error ?_ hfuel herror
  rw [hsized]
  exact grow_avail _ (by omega)

theorem triple_bufRead_contents {fuel : ℕ} {reads : List Event} (hfuel : size reads < fuel)
    (herror : Event.error ∉ reads) : Triple 0 (Store.bufRead fuel emptyFile reads 0)
      fun x m' => x.1 = narrow (contents reads).length ∧
        x.2.sized.buf = cursor [] (contents reads) ∧ x.2.block ≠ none ∧ m' = x.2.cells := by
  apply (triple_grow emptyFile 8192).bind
  rintro b _ ⟨hsized, hblock, rfl⟩
  have havail : 0 < b.sized.avail := by
    rw [hsized]
    exact grow_avail _ (by omega)
  apply (triple_readLoop_contents hblock havail hfuel herror).weaken
  rintro x m' ⟨hlen, hbuf, hlast, hm⟩
  rw [hsized, grow_buf] at hlen hbuf
  exact ⟨hlen, hbuf, hlast, hm⟩

theorem triple_bufReadFile {fuel : ℕ} {file : File} (hf : size file.reads < fuel) :
    Triple 0 (Store.bufReadFile fuel emptyFile file 0) fun x m' => m' = x.2.cells ∧
      (((file.opens = false ∨ Event.error ∈ file.reads) ∧ x.1 = -1 ∧ x.2.cells = 0) ∨
        (file.opens = true ∧ Event.error ∉ file.reads ∧
          (file.closes = false → x.1 = -1) ∧
          (file.closes = true → x.1 = narrow (contents file.reads).length) ∧
          x.2.sized.buf = cursor [] (contents file.reads) ∧ x.2.block ≠ none)) := by
  obtain ⟨opens, reads, closes⟩ := file
  cases opens with
  | false => exact Triple.ret ⟨rfl, .inl ⟨.inl rfl, rfl, rfl⟩⟩
  | true =>
    by_cases herror : Event.error ∈ reads
    · apply (triple_bufRead_error hf herror).bind
      rintro ⟨rc, b⟩ _ ⟨hrc, hcells, rfl⟩
      cases closes with
      | false => exact Triple.ret ⟨hcells.symm, .inl ⟨.inr herror, rfl, hcells⟩⟩
      | true => exact Triple.ret ⟨hcells.symm, .inl ⟨.inr herror, hrc, hcells⟩⟩
    · apply (triple_bufRead_contents hf herror).bind
      rintro ⟨rc, b⟩ _ ⟨hrc, hbuf, hblock, rfl⟩
      cases closes with
      | false =>
        exact Triple.ret ⟨rfl, .inr ⟨rfl, herror, fun _ => rfl, by simp, hbuf, hblock⟩⟩
      | true =>
        exact Triple.ret ⟨rfl, .inr ⟨rfl, herror, by simp, fun _ => hrc, hbuf, hblock⟩⟩

theorem adds_file {fuel : ℕ} {file : File} (p : PlacedCf) (hf : size file.reads < fuel) :
    Adds p (Files.cfAddFromFile fuel p.cf file) (lostByFile file)
      (Store.cfAddFromFile fuel p.cell file) := by
  have hread := (triple_bufReadFile hf).frame p.cells
  rw [zero_add] at hread
  apply hread.bind
  rintro ⟨rc, text⟩ _ ⟨_, ⟨rfl, hcase⟩, rfl⟩
  rcases hcase with ⟨hnone, rfl, hcells⟩ |
    ⟨hopens, herror, hunclosed, hclosed, hbuf, hblock⟩
  · have hpure := cfAddFromFile_error p.cf hf hnone
    have hlost : lostByFile file = 0 := if_pos hnone
    rw [hpure, hlost]
    exact Triple.ret ⟨p, text.cells, rfl, rfl, add_comm _ _, by rw [hcells]; rfl⟩
  · have hsome : ¬ (file.opens = false ∨ Event.error ∈ file.reads) := by
      simp [hopens, herror]
    have hlost : lostByFile file =
        if file.closes = false ∨ (contents file.reads).length % 2 ^ 32 = 2 ^ 32 - 1 then 1
        else lostBy (contents file.reads) := if_neg hsome
    rw [hlost]
    obtain ⟨opens, reads, closes⟩ := file
    simp only at hopens herror hunclosed hclosed hbuf hf
    subst hopens
    cases closes with
    | false =>
      obtain rfl := hunclosed rfl
      rw [if_pos (Or.inl rfl), cfAddFromFile_unclosed p.cf hf herror]
      exact Triple.ret ⟨p, text.cells, rfl, rfl, add_comm _ _, FileBuf.card hblock⟩
    | true =>
      rw [cfAddFromFile_contents p.cf hf herror]
      by_cases hlen : (contents reads).length % 2 ^ 32 = 2 ^ 32 - 1
      · have hrc : rc = -1 := (hclosed rfl).trans ((narrow_eq_neg_one_iff _).mpr hlen)
        subst hrc
        rw [if_pos (Or.inr hlen), if_pos hlen]
        exact Triple.ret ⟨p, text.cells, rfl, rfl, add_comm _ _, FileBuf.card hblock⟩
      · have hrc : rc ≠ -1 := by
          rw [hclosed rfl, Ne, narrow_eq_neg_one_iff]
          exact hlen
        rw [if_neg (not_or.mpr ⟨by simp, hlen⟩), if_neg hlen]
        simp only [if_neg hrc]
        refine adds_parse p hbuf ?_
        rw [size] at hf
        omega

/-- The calls that change the configuration. -/
inductive Command where
  | addConfigFromString (string : Text)
  | addConfigFromFile (file : File)
  | cleanup
  deriving DecidableEq, Repr

def configOrNew : Option ℕ → S ℕ
  | some cf => pure cf
  | none => cfNew

def Command.exec (config : Option ℕ) : Command → S (Option ℕ)
  | .addConfigFromString string => do
    let cf ← configOrNew config
    let _ ← Store.cfAddFromString (string.length + 1) cf string
    pure (some cf)
  | .addConfigFromFile file => do
    let cf ← configOrNew config
    let _ ← Store.cfAddFromFile (size file.reads + 1) cf file
    pure (some cf)
  | .cleanup => do
    cfFree config
    pure none

def session : List Command → Option ℕ → S (Option ℕ)
  | [], config => pure config
  | command :: commands, config => do session commands (← command.exec config)

/-- The same on a configuration that is a value. -/
def Command.step (config : Option Cf) : Command → Except Halt (Option Cf)
  | .addConfigFromString string =>
    (Config.cfAddFromString (string.length + 1) (config.getD ⟨[]⟩) string).map fun x => some x.2
  | .addConfigFromFile file =>
    (Files.cfAddFromFile (size file.reads + 1) (config.getD ⟨[]⟩) file).map fun x => some x.2
  | .cleanup => .ok none

def steps : List Command → Option Cf → Except Halt (Option Cf)
  | [], config => .ok config
  | command :: commands, config => command.step config >>= steps commands

def Command.lost : Command → ℕ
  | .addConfigFromString string => lostBy string
  | .addConfigFromFile file => lostByFile file
  | .cleanup => 0

def storeCells : Option PlacedCf → Bindings Block
  | some p => p.cells
  | none => 0

theorem triple_configOrNew (store : Option PlacedCf) :
    Triple (storeCells store) (configOrNew (store.map PlacedCf.cell)) fun r m' =>
      ∃ p : PlacedCf, r = p.cell ∧ p.cf = (store.map PlacedCf.cf).getD ⟨[]⟩ ∧
      m' = p.cells := by
  cases store with
  | none =>
    apply triple_cfNew.weaken
    rintro _ _ ⟨p, rfl, hsecs, rfl⟩
    exact ⟨p, rfl, by rw [PlacedCf.cf, hsecs]; rfl, rfl⟩
  | some p => exact Triple.ret ⟨p, rfl, rfl, rfl⟩

theorem triple_command (store : Option PlacedCf) (command : Command) :
    Triple (storeCells store) (command.exec (store.map PlacedCf.cell)) fun r m' =>
      ∃ (after : Option PlacedCf) (lost : Bindings Block), r = after.map PlacedCf.cell ∧
        command.step (store.map PlacedCf.cf) = .ok (after.map PlacedCf.cf) ∧
        m' = storeCells after + lost ∧ lost.card = command.lost := by
  cases command with
  | addConfigFromString string =>
    apply (triple_configOrNew store).bind
    rintro _ _ ⟨p, rfl, hp, rfl⟩
    apply Triple.bind (adds_string p (Nat.lt_succ_self _))
    rintro rc _ ⟨q, lost, hq, hcell, rfl, hcard⟩
    refine Triple.ret ⟨some q, lost, ?_, ?_, rfl, hcard⟩
    · rw [Option.map_some, hcell]
    · rw [Command.step, ← hp, hq]
      rfl
  | addConfigFromFile file =>
    apply (triple_configOrNew store).bind
    rintro _ _ ⟨p, rfl, hp, rfl⟩
    apply Triple.bind (adds_file p (Nat.lt_succ_self _))
    rintro rc _ ⟨q, lost, hq, hcell, rfl, hcard⟩
    refine Triple.ret ⟨some q, lost, ?_, ?_, rfl, hcard⟩
    · rw [Option.map_some, hcell]
    · rw [Command.step, ← hp, hq]
      rfl
  | cleanup =>
    have hdone : Triple (0 : Bindings Block) (pure none : S (Option ℕ)) fun r m' =>
        ∃ (after : Option PlacedCf) (lost : Bindings Block), r = after.map PlacedCf.cell ∧
          Command.cleanup.step (store.map PlacedCf.cf) = .ok (after.map PlacedCf.cf) ∧
          m' = storeCells after + lost ∧ lost.card = Command.cleanup.lost :=
      Triple.ret ⟨none, 0, rfl, rfl, rfl, rfl⟩
    cases store with
    | none => exact (Returns.ret 0 ()).then hdone
    | some p => exact (returns_cfFree p).then hdone

theorem triple_session (commands : List Command) (store : Option PlacedCf) :
    Triple (storeCells store) (session commands (store.map PlacedCf.cell)) fun r m' =>
      ∃ (after : Option PlacedCf) (lost : Bindings Block), r = after.map PlacedCf.cell ∧
        steps commands (store.map PlacedCf.cf) = .ok (after.map PlacedCf.cf) ∧
        m' = storeCells after + lost ∧ lost.card = (commands.map Command.lost).sum := by
  induction commands generalizing store with
  | nil => exact Triple.ret ⟨store, 0, rfl, rfl, (add_zero _).symm, rfl⟩
  | cons command commands ih =>
    apply (triple_command store command).bind
    rintro _ _ ⟨mid, lost, rfl, hmid, rfl, hcard⟩
    apply ((ih mid).frame lost).weaken
    rintro _ _ ⟨_, ⟨after, later, rfl, hafter, rfl, hlater⟩, rfl⟩
    refine ⟨after, later + lost, rfl, ?_, add_assoc _ _ _, ?_⟩
    · rw [steps, hmid]
      exact hafter
    · rw [Multiset.card_add, hlater, hcard, List.map_cons, List.sum_cons, add_comm]

/-- The texts are accepted, and files can be read and closed. -/
def Command.Clean : Command → Prop
  | .addConfigFromString string => (scan [] string).1 = true
  | .addConfigFromFile file => file.opens = true → Event.error ∉ file.reads →
      file.closes = true ∧ (contents file.reads).length % 2 ^ 32 ≠ 2 ^ 32 - 1 ∧
        (scan [] (contents file.reads)).1 = true
  | .cleanup => True

theorem lost_of_clean {command : Command} (h : command.Clean) : command.lost = 0 := by
  cases command with
  | addConfigFromString string => exact lostFrom_accepted h
  | addConfigFromFile file =>
    simp only [Command.lost, lostByFile]
    split
    · rfl
    rename_i hread
    rw [not_or, Bool.not_eq_false] at hread
    obtain ⟨hcloses, hlen, haccepted⟩ := h hread.1 hread.2
    rw [if_neg (not_or.mpr ⟨by simp [hcloses], hlen⟩)]
    exact lostFrom_accepted haccepted
  | cleanup => rfl

/-- Whatever is added to the configuration, the calls return and the configuration is what
    it would be as a value. The heap has its blocks, and beside them as many as the texts
    and files have left behind, which is none if they are all clean. -/
theorem blocks_left_behind (commands : List Command) :
    ∃ (h : Heap Block) (store : Option PlacedCf) (lost : Bindings Block),
      session commands none Heap.empty = .ok (store.map PlacedCf.cell, h) ∧
      steps commands none = .ok (store.map PlacedCf.cf) ∧
      Exactly h (storeCells store + lost) ∧ lost.card = (commands.map Command.lost).sum ∧
      ((∀ command ∈ commands, command.Clean) → lost = 0) := by
  obtain ⟨_, h, _, hrun, hcells, store, lost, rfl, hsteps, rfl, hcard⟩ :=
    triple_session commands none Heap.empty 0 (exactly_empty : Exactly Heap.empty (0 + 0))
  refine ⟨h, store, lost, hrun, hsteps, by rwa [add_zero] at hcells, hcard, fun hclean => ?_⟩
  rw [← Multiset.card_eq_zero, hcard, List.sum_eq_zero_iff_forall_eq_nat]
  intro n hn
  obtain ⟨command, hmem, rfl⟩ := List.mem_map.mp hn
  exact lost_of_clean (hclean command hmem)

/-- A line that starts with an equals sign loses the section before it. -/
def brokenSession : List Command :=
  [.addConfigFromString (ascii "[a]\nk=v\n=\n"), .addConfigFromString (ascii "[b]\nk=v\n"),
    .cleanup]

theorem blocks_left_behind_broken : ∃ (h : Heap Block) (lost : Bindings Block),
    (∃ config, session brokenSession none Heap.empty = .ok (config, h)) ∧ lost.card = 6 ∧
      Exactly h lost := by
  obtain ⟨h, store, lost, hrun, hsteps, hcells, hcard, _⟩ := blocks_left_behind brokenSession
  have hnone : store.map PlacedCf.cf = none := by
    have hfinal : steps brokenSession none = .ok none := by decide +kernel
    exact Except.ok.inj (hsteps.symm.trans hfinal)
  rw [Option.map_eq_none_iff.mp hnone] at hcells
  refine ⟨h, lost, ⟨_, hrun⟩, ?_, by rwa [storeCells, zero_add] at hcells⟩
  rw [hcard]
  decide +kernel

end Pathcomp.Leaks
