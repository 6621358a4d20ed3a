import Pathcomp.Search
import Pathcomp.Traversal

set_option autoImplicit false

/-!
# Sequences of public calls

A system holds all composers that were created and the state of the outside
world. A call is total if it returns from some bound on, never fails in another
way than by its bound, and reports 0 or -1 if it reports a status.
-/
namespace Pathcomp.Safety
open Bytes Config Values Attributes Composers Evaluation Purity Wheels Reachability Iteration Search
open FiniteDescent Traversal Relation

structure System (σ : Type) where
  composers : List Composer
  outside : σ

inductive Call (σ : Type) where
  | new (name : Text)
  | clone (i : ℕ)
  | invoke (i : ℕ) (op : Op)
  | outside (s : σ)

/-- One call, with `n` as bound for recursion and search. A call on an index
    without a composer is not made. -/
def Call.step {σ : Type} (w : World σ) (config : Option Cf) (sys : System σ) :
    Call σ → ℕ → Except Halt (Reply × System σ)
  | .new name, n =>
    match pathcompNew config n name with
    | .error halt => .error halt
    | .ok c => .ok (.void, { sys with composers := sys.composers ++ [c] })
  | .clone i, _ =>
    match sys.composers[i]? with
    | none => .ok (.void, sys)
    | some c =>
      match pathcompClone c with
      | .error halt => .error halt
      | .ok d => .ok (.void, { sys with composers := sys.composers ++ [d] })
  | .invoke i op, n =>
    match sys.composers[i]? with
    | none => .ok (.void, sys)
    | some c =>
      match op.exec w n c sys.outside with
      | .error halt => .error halt
      | .ok (r, d, s) => .ok (r, ⟨sys.composers.set i d, s⟩)
  | .outside s, _ => .ok (.void, { sys with outside := s })

structure Total {α : Type} (f : ℕ → Except Halt (Reply × α)) : Prop where
  returns : ∃ bound, ∀ n, bound ≤ n → ∃ r a, f n = .ok (r, a)
  halts : ∀ n halt, f n = .error halt → halt = .bound
  status : ∀ n rc a, f n = .ok (.status rc, a) → rc = 0 ∨ rc = -1

theorem Total.const {α : Type} {f : ℕ → Except Halt (Reply × α)} {r : Reply} {a : α}
    (h : ∀ n, f n = .ok (r, a)) (hr : ∀ rc, r = .status rc → rc = 0 ∨ rc = -1) :
    Total f := by
  refine ⟨⟨0, fun n _ => ⟨r, a, h n⟩⟩, ?_, ?_⟩
  · intro n halt hf
    rw [h n] at hf
    cases hf
  · intro n rc b hf
    rw [h n] at hf
    cases hf
    exact hr rc rfl

theorem Total.store {α β : Type} {f : ℕ → Except Halt (Reply × α)} (h : Total f)
    {k : α → β} {g : ℕ → Except Halt (Reply × β)}
    (herror : ∀ n halt, f n = .error halt → g n = .error halt)
    (hok : ∀ n r a, f n = .ok (r, a) → g n = .ok (r, k a)) : Total g := by
  obtain ⟨⟨bound, hb⟩, hh, hs⟩ := h
  refine ⟨⟨bound, fun n hn => ?_⟩, ?_, ?_⟩
  · obtain ⟨r, a, hf⟩ := hb n hn
    exact ⟨r, k a, hok n r a hf⟩
  · intro n halt hg
    cases hn : f n with
    | error halt' =>
      rw [herror n halt' hn] at hg
      cases hg
      exact hh n halt hn
    | ok p =>
      rw [hok n p.1 p.2 hn] at hg
      cases hg
  · intro n rc b hg
    cases hn : f n with
    | error halt' =>
      rw [herror n halt' hn] at hg
      cases hg
    | ok p =>
      obtain ⟨r, a⟩ := p
      rw [hok n r a hn] at hg
      cases hg
      exact hs n rc a hn

theorem entries_halts {recurse : Composer → Text → Except Halt Composer}
    (hr : ∀ c name halt, recurse c name = .error halt → halt = .bound) {sectionName : Text}
    {entries : List CfKv} {c : Composer} {halt : Halt}
    (h : pathcompAddAttsFromEntries recurse sectionName c entries = .error halt) :
    halt = .bound := by
  induction entries generalizing c with
  | nil => cases h
  | cons kv entries ih =>
    rw [addAttsFromEntries_cons] at h
    split at h
    · cases he : recurse (place c ⟨sectionName, kv⟩) kv.value with
      | error halt' =>
        simp only [he] at h
        cases h
        exact hr _ _ _ he
      | ok d =>
        simp only [he] at h
        exact ih h
    · exact ih h

theorem loop_halts {recurse : Composer → Text → Except Halt Composer}
    (hr : ∀ c name halt, recurse c name = .error halt → halt = .bound) {name : Text}
    {sections : List CfSection} {c : Composer} {halt : Halt}
    (h : addAttsLoop (pathcompAddAttsFromEntries recurse) name c sections = .error halt) :
    halt = .bound := by
  induction sections generalizing c with
  | nil => cases h
  | cons sec sections ih =>
    simp only [addAttsLoop] at h
    split at h
    · cases he : pathcompAddAttsFromEntries recurse sec.name c sec.entries with
      | error halt' =>
        simp only [he] at h
        cases h
        exact entries_halts hr he
      | ok d =>
        simp only [he] at h
        exact ih h
    · exact ih h

theorem addAttsFromSections_halts (config : Option Cf) (depth : ℕ) :
    ∀ c name halt, pathcompAddAttsFromSections config depth c name = .error halt →
      halt = .bound := by
  induction depth with
  | zero =>
    intro c name halt h
    cases h
    rfl
  | succ depth ih =>
    intro c name halt h
    cases config with
    | none => cases h
    | some cf => exact loop_halts ih h

theorem pathcompNew_halts {config : Option Cf} {depth : ℕ} {name : Text} {halt : Halt}
    (h : pathcompNew config depth name = .error halt) : halt = .bound := by
  unfold pathcompNew pathcompMakeFromConfig at h
  simp only at h
  split at h
  · rename_i he
    cases h
    exact addAttsFromSections_halts config depth _ _ _ he
  · cases h

theorem pathcompFind_halts {lua : Lua} {depth : ℕ} {pathExists : Text → Bool} {fuel : ℕ}
    {c : Composer} {halt : Halt}
    (h : pathcompFind lua depth pathExists fuel c = .error halt) : halt = .bound := by
  induction fuel generalizing c with
  | zero =>
    cases h
    rfl
  | succ fuel ih =>
    rw [pathcompFind_succ] at h
    split at h
    · cases h
    split at h
    · exact ih h
    split at h
    · cases h
    · exact ih h

theorem pathcompFind_returns (lua : Lua) (depth : ℕ) (pathExists : Text → Bool) {c : Composer}
    (hr : Representation c) : ∃ bound, ∀ n, bound ≤ n → ∃ path d,
      pathcompFind lua depth pathExists n c = .ok (path, d) := by
  cases hd : c.done with
  | true =>
    refine ⟨1, fun n hn => ?_⟩
    obtain ⟨m, rfl⟩ : ∃ m, n = m + 1 := ⟨n - 1, by omega⟩
    have hadvance : (advance c).done = true := by
      unfold advance
      split
      · simp [pathcompNext, hd]
      · exact hd
    exact ⟨none, advance c, by rw [pathcompFind_succ, if_pos hadvance]⟩
  | false =>
    refine ⟨remaining c + 1, fun n hn => ?_⟩
    obtain ⟨d, hfind⟩ := find_call lua depth pathExists hr hd (poised_start c)
      (show remaining c - _ < n by omega)
    split at hfind
    · exact ⟨_, d, hfind.1⟩
    · exact ⟨_, d, hfind.1⟩

theorem le_skipWhile (p : UInt8 → Bool) (path : Text) (i : ℕ) : i ≤ skipWhile p path i :=
  Nat.le_add_right i _

/-- Every round moves past one more slash of the path, whose length stays. -/
theorem mkdirLoop_returns {σ : Type} (mkdir : σ → Text → MkdirResult × σ) {fuel : ℕ}
    {path : Text} {p : ℕ} (s : σ) (hf : path.length - p < fuel) :
    ∃ rc t, mkdirLoop mkdir fuel path p s = .ok (rc, t) ∧ (rc = 0 ∨ rc = -1) := by
  induction fuel generalizing path p s with
  | zero => omega
  | succ fuel ih =>
    have hfirst := le_skipWhile (· = byte '/') path p
    have hsecond := le_skipWhile (· ≠ byte '/') path (skipWhile (· = byte '/') path p)
    simp only [mkdirLoop]
    split
    · exact ⟨0, s, rfl, .inl rfl⟩
    · rename_i hlt
      split
      · exact ⟨-1, _, rfl, .inr rfl⟩
      · apply ih
        simp only [List.length_set]
        omega
      · apply ih
        simp only [List.length_set]
        omega

/-- The attribute `root` or the attribute `compose` evaluates to a non-empty
    string. -/
def HasPath (lua : Lua) (depth : ℕ) (c : Composer) : Prop :=
  ∃ name, (name = attRoot ∨ name = attCompose) ∧
    ∃ text, (pathcompEvalNocopy lua depth c name).1 = some text ∧ text ≠ []

theorem addNonempty_nil_iff (path : Buffer.Buf) (part : Option Text) (separator : Text) :
    (addNonempty path part separator).bytes = [] ↔
      path.bytes = [] ∧ ¬ ∃ text, part = some text ∧ text ≠ [] := by
  cases part with
  | none => simp [addNonempty]
  | some text =>
    cases text with
    | nil => simp [addNonempty]
    | cons b text => simp [addNonempty, Buffer.bufAddstr]

theorem pathcompYield_none_iff (lua : Lua) (depth : ℕ) (c : Composer) :
    (pathcompYield lua depth c).1 = none ↔ ¬ HasPath lua depth c := by
  have hroot := pathcompEvalNocopy_pure lua depth attRoot
  have hcompose := pathcompEvalNocopy_pure lua depth attCompose
  -- evaluating `root` first does not change what `compose` evaluates to
  have hsame : (pathcompEvalNocopy lua depth (pathcompEvalNocopy lua depth c attRoot).2
      attCompose).1 = (pathcompEvalNocopy lua depth c attCompose).1 := by
    apply hcompose.same
    rw [SameCombination, hroot.frame c]
  have hempty : (pathcompYield lua depth c).1 = none ↔
      (addNonempty
        (addNonempty Buffer.bufInit (pathcompEvalNocopy lua depth c attRoot).1 [byte '/'])
        (pathcompEvalNocopy lua depth c attCompose).1 []).bytes = [] := by
    rw [pathcompYield_eq]
    simp only [hsame, ite_eq_left_iff, reduceCtorEq, imp_false, not_not, List.length_eq_zero_iff]
  rw [hempty, addNonempty_nil_iff, addNonempty_nil_iff]
  constructor
  · rintro ⟨⟨_, hr⟩, hc⟩ ⟨name, rfl | rfl, htext⟩
    · exact hr htext
    · exact hc htext
  · intro h
    exact ⟨⟨rfl, fun ht => h ⟨attRoot, .inl rfl, ht⟩⟩,
      fun ht => h ⟨attCompose, .inr rfl, ht⟩⟩

theorem pathcompMkdir_returns {σ : Type} {lua : Lua} {depth : ℕ} {c : Composer}
    (mkdir : σ → Text → MkdirResult × σ) (s : σ) (h : HasPath lua depth c) :
    ∃ rc d t, pathcompMkdir lua depth mkdir c s = .ok (rc, d, t) ∧ (rc = 0 ∨ rc = -1) := by
  cases hy : (pathcompYield lua depth c).1 with
  | none => exact absurd h ((pathcompYield_none_iff lua depth c).mp hy)
  | some path =>
    obtain ⟨rc, t, hloop, hrc⟩ :=
      @mkdirLoop_returns σ mkdir (path.length + 1) path 0 s (by omega)
    refine ⟨rc, (pathcompYield lua depth c).2, t, ?_, hrc⟩
    simp only [pathcompMkdir, hy, hloop]

theorem pathcompMkdir_null {σ : Type} {lua : Lua} {depth : ℕ} {c : Composer}
    (mkdir : σ → Text → MkdirResult × σ) (s : σ) (h : ¬ HasPath lua depth c) :
    pathcompMkdir lua depth mkdir c s = .error .nullPointer := by
  have hy := (pathcompYield_none_iff lua depth c).mpr h
  simp only [pathcompMkdir, hy]

section Calls
variable {σ : Type} (w : World σ) (config : Option Cf)

/-- What a call needs: `mkdir` needs a composer that yields a path. -/
def Ready (sys : System σ) : Call σ → Prop
  | .invoke i .mkdir =>
    ∀ c, sys.composers[i]? = some c → HasPath (w.lua sys.outside) w.depth c
  | _ => True

theorem replyVoid_total {f : Except Halt Composer} (s : σ) (h : ∃ d, f = .ok d) :
    Total fun _ => replyVoid s f := by
  obtain ⟨d, rfl⟩ := h
  exact .const (fun _ => rfl) (by simp)

theorem exec_total {c : Composer} (hr : Representation c) (s : σ) (op : Op)
    (hop : op = .mkdir → HasPath (w.lua s) w.depth c) : Total fun n => op.exec w n c s := by
  cases op with
  | set | setInt | add | addInt => exact replyVoid_total s (addOrReplace_ok _ _ _ _ _)
  | next => exact .const (fun _ => rfl) (by simp)
  | done => exact .const (fun _ => rfl) (by simp)
  | rewind => exact .const (fun _ => rfl) (by simp)
  | eval name => exact .const (fun _ => rfl) (by simp)
  | yield => exact .const (fun _ => rfl) (by simp)
  | find =>
    obtain ⟨bound, hb⟩ := pathcompFind_returns (w.lua s) w.depth (w.stat s) hr
    refine ⟨⟨bound, fun n hn => ?_⟩, ?_, ?_⟩
    · obtain ⟨path, d, hf⟩ := hb n hn
      exact ⟨.string path, (d, s), by simp only [Op.exec, hf]⟩
    · intro n halt h
      simp only [Op.exec] at h
      split at h
      · rename_i hf
        cases h
        exact pathcompFind_halts hf
      · cases h
    · intro n rc a h
      simp only [Op.exec] at h
      split at h
      · cases h
      · cases h
  | mkdir =>
    obtain ⟨rc, d, t, hm, hrc⟩ := pathcompMkdir_returns w.mkdir s (hop rfl)
    refine Total.const (r := .status rc) (a := (d, t)) (fun n => ?_) ?_
    · simp only [Op.exec, hm]
    · intro rc' h
      cases h
      exact hrc

/-- The composers of a system satisfy the representation invariant. -/
def Sound (sys : System σ) : Prop := ∀ c ∈ sys.composers, Representation c

theorem new_total (sys : System σ) {name : Text} (h : NoCycleFrom (CopiesFrom config) name) :
    Total ((Call.new name).step w config sys) := by
  obtain ⟨bound, hb⟩ := pathcompNew_finishes ((descends_iff_acyclic config name).mpr h)
  refine ⟨⟨bound, fun n hn => ?_⟩, ?_, ?_⟩
  · obtain ⟨c, hc⟩ := hb n hn
    exact ⟨.void, { sys with composers := sys.composers ++ [c] }, by simp only [Call.step, hc]⟩
  · intro n halt hf
    simp only [Call.step] at hf
    split at hf
    · rename_i he
      cases hf
      exact pathcompNew_halts he
    · cases hf
  · intro n rc a hf
    simp only [Call.step] at hf
    split at hf
    · cases hf
    · cases hf

theorem clone_total {sys : System σ} (hs : Sound sys) (i : ℕ) :
    Total ((Call.clone i).step w config sys) := by
  cases hc : sys.composers[i]? with
  | none => exact .const (r := .void) (a := sys) (fun n => by simp only [Call.step, hc]) (by simp)
  | some c =>
    have hr := hs c (List.mem_of_getElem? hc)
    refine Total.const (r := .void) (a := { sys with composers := sys.composers ++ [c] })
      (fun n => ?_) (by simp)
    simp only [Call.step, hc, pathcompClone_eq hr]

theorem invoke_total {sys : System σ} (hs : Sound sys) (i : ℕ) (op : Op)
    (h : Ready w sys (.invoke i op)) : Total ((Call.invoke i op).step w config sys) := by
  cases hc : sys.composers[i]? with
  | none => exact .const (r := .void) (a := sys) (fun n => by simp only [Call.step, hc]) (by simp)
  | some c =>
    have hr := hs c (List.mem_of_getElem? hc)
    have hop : op = .mkdir → HasPath (w.lua sys.outside) w.depth c := by
      rintro rfl
      exact h c hc
    refine (exec_total w hr sys.outside op hop).store
      (k := fun p : Composer × σ => (⟨sys.composers.set i p.1, p.2⟩ : System σ)) ?_ ?_
    · intro n halt he
      simp only [Call.step, hc, he]
    · intro n r p he
      simp only [Call.step, hc, he]

theorem call_total_iff (hacyclic : ∀ name, NoCycleFrom (CopiesFrom config) name)
    {sys : System σ} (hs : Sound sys) (call : Call σ) :
    Total (call.step w config sys) ↔ Ready w sys call := by
  constructor
  · intro h
    cases call with
    | invoke i op =>
      cases op with
      | mkdir =>
        intro c hc
        by_contra hpath
        have hnull : (Call.invoke i .mkdir).step w config sys 0 = .error .nullPointer := by
          simp only [Call.step, hc, Op.exec, pathcompMkdir_null w.mkdir sys.outside hpath]
        cases h.halts 0 .nullPointer hnull
      | _ => trivial
    | _ => trivial
  · intro h
    cases call with
    | new name => exact new_total w config sys (hacyclic name)
    | clone i => exact clone_total w config hs i
    | invoke i op => exact invoke_total w config hs i op h
    | outside s => exact .const (fun _ => rfl) (by simp)

theorem step_sound {sys sys' : System σ} {call : Call σ} {n : ℕ} {r : Reply} (hs : Sound sys)
    (h : call.step w config sys n = .ok (r, sys')) : Sound sys' := by
  cases call with
  | new name =>
    simp only [Call.step] at h
    split at h
    · cases h
    · rename_i c hc
      cases h
      intro d hd
      rcases List.mem_append.mp hd with hd | hd
      · exact hs d hd
      · rw [List.mem_singleton.mp hd]
        exact pathcompNew_representation hc
  | clone i =>
    simp only [Call.step] at h
    split at h
    · cases h
      exact hs
    · rename_i c hc
      have hr := hs c (List.mem_of_getElem? hc)
      rw [pathcompClone_eq hr] at h
      cases h
      intro d hd
      rcases List.mem_append.mp hd with hd | hd
      · exact hs d hd
      · rw [List.mem_singleton.mp hd]
        exact hr
  | invoke i op =>
    simp only [Call.step] at h
    split at h
    · cases h
      exact hs
    · rename_i c hc
      split at h
      · cases h
      · rename_i he
        cases h
        intro d hd
        rcases List.mem_or_eq_of_mem_set hd with hd | rfl
        · exact hs d hd
        · exact exec_representation (hs c (List.mem_of_getElem? hc)) he
  | outside s =>
    cases h
    exact hs

/-- Every call of the sequence is total in the state in which it is made. -/
def RunTotal : System σ → List (Call σ) → Prop
  | _, [] => True
  | sys, call :: calls => Total (call.step w config sys) ∧
    ∀ n r sys', call.step w config sys n = .ok (r, sys') → RunTotal sys' calls

/-- Whenever the sequence calls `mkdir`, the composer yields a path. -/
def RunReady : System σ → List (Call σ) → Prop
  | _, [] => True
  | sys, call :: calls => Ready w sys call ∧
    ∀ n r sys', call.step w config sys n = .ok (r, sys') → RunReady sys' calls

theorem run_total_iff (hacyclic : ∀ name, NoCycleFrom (CopiesFrom config) name)
    {sys : System σ} (hs : Sound sys) (calls : List (Call σ)) :
    RunTotal w config sys calls ↔ RunReady w config sys calls := by
  induction calls generalizing sys with
  | nil => rfl
  | cons call calls ih =>
    have htail : (∀ n r sys', call.step w config sys n = .ok (r, sys') →
        RunTotal w config sys' calls) ↔
        ∀ n r sys', call.step w config sys n = .ok (r, sys') →
          RunReady w config sys' calls := by
      constructor
      · intro h n r sys' hstep
        exact (ih (step_sound w config hs hstep)).mp (h n r sys' hstep)
      · intro h n r sys' hstep
        exact (ih (step_sound w config hs hstep)).mpr (h n r sys' hstep)
    exact and_congr (call_total_iff w config hacyclic hs call) htail

end Calls

/-- Starting without composers, every call of every sequence is total exactly
    when no `mkdir` is called on a composer without a path. -/
theorem calls_total_iff {σ : Type} (w : World σ) (config : Option Cf) (outside : σ)
    (calls : List (Call σ)) (hacyclic : ∀ name, NoCycleFrom (CopiesFrom config) name) :
    RunTotal w config ⟨[], outside⟩ calls ↔ RunReady w config ⟨[], outside⟩ calls :=
  run_total_iff w config hacyclic (by simp [Sound]) calls

def quietWorld : World Unit where
  lua := fun _ _ => .finish none
  depth := 1
  stat := fun _ _ => false
  mkdir := fun s _ => (.created, s)

theorem empty_acyclic (name : Text) : NoCycleFrom (CopiesFrom (some ⟨[]⟩)) name := by
  obtain ⟨c, hc⟩ : ∃ c, pathcompNew (some ⟨[]⟩) 1 name = .ok c := ⟨_, rfl⟩
  exact (descends_iff_acyclic _ _).mp (pathcompNew_descends hc)

theorem calls_total_data :
    (∀ name, NoCycleFrom (CopiesFrom (some ⟨[]⟩)) name) ∧
    RunTotal quietWorld (some ⟨[]⟩) ⟨[], ()⟩
      [.new (ascii "data"), .invoke 0 (.set (ascii "root") (ascii "/srv/data")),
        .invoke 0 .mkdir] := by
  refine ⟨empty_acyclic, (calls_total_iff _ _ _ _ empty_acyclic).mpr ⟨trivial, ?_⟩⟩
  intro n r sys hnew
  cases n with
  | zero => cases hnew
  | succ n =>
    cases hnew
    refine ⟨trivial, fun n r sys hset => ?_⟩
    cases hset
    refine ⟨fun c hc => ?_, fun _ _ _ _ => trivial⟩
    cases hc
    exact ⟨attRoot, .inl rfl, ascii "/srv/data", rfl, by decide⟩

/-- A class without attributes yields no path, and `mkdir` reads through NULL. -/
theorem mkdir_without_path :
    (∀ name, NoCycleFrom (CopiesFrom (some ⟨[]⟩)) name) ∧
    (∃ c, pathcompNew (some ⟨[]⟩) 1 (ascii "data") = .ok c ∧
      pathcompMkdir (quietWorld.lua ()) 1 quietWorld.mkdir c () = .error .nullPointer) ∧
    ¬ RunTotal quietWorld (some ⟨[]⟩) ⟨[], ()⟩
      [.new (ascii "data"), .invoke 0 .mkdir] := by
  refine ⟨empty_acyclic, ⟨_, rfl, rfl⟩, ?_⟩
  rintro ⟨_, h⟩
  obtain ⟨htotal, _⟩ := h 1 .void _ rfl
  cases htotal.halts 0 .nullPointer rfl

end Pathcomp.Safety
