import Pathcomp.Evaluation

set_option autoImplicit false

/-!
# Directory creation on a file system

A path names the list of its non-empty components. `pathcomp_mkdir` makes the
directories of a path from the first to the last, and takes a regular file in
the place of one for a directory that is there already.
-/
namespace Pathcomp.Directories
open Bytes Attributes Composers Evaluation

def slash : UInt8 := byte '/'

/-- The components of a path; empty ones from leading or repeated slashes are
    dropped. -/
def components (path : Text) : List Text := (path.splitOn slash).filter (· ≠ [])

inductive Node where
  | file
  | dir
  deriving DecidableEq, Repr

/-- The start directory exists. -/
structure FileSystem where
  entry : List Text → Option Node
  start : entry [] = some .dir

def FileSystem.make (fs : FileSystem) (q : List Text) : FileSystem where
  entry r := if r = q then some .dir else fs.entry r
  start := by
    split
    · rfl
    · exact fs.start

def mkdirAt (fs : FileSystem) (q : List Text) : MkdirResult × FileSystem :=
  if fs.entry q ≠ none then (.eexist, fs)
  else if fs.entry q.dropLast = some .dir then (.created, fs.make q)
  else (.failed, fs)

def mkdir (fs : FileSystem) (path : Text) : MkdirResult × FileSystem :=
    mkdirAt fs (components path)

/-- A prefix of the path that ends just before a slash following a component
    names `q`. -/
def Named (path : Text) (q : List Text) : Prop :=
  ∃ before after b, path = before ++ b :: slash :: after ∧ b ≠ slash ∧
    q = components (before ++ [b])

def directoryPortion (path : Text) : Text := path.take ((strrchr path slash).getD 0)

/-- Nothing that existed is changed, and only directories of the path are added.
    On success all of them are there. -/
structure LikeMkdirP (path : Text) (before after : FileSystem) (rc : Int) : Prop where
  kept : ∀ q node, before.entry q = some node → after.entry q = some node
  added : ∀ q, before.entry q = none → after.entry q ≠ none →
    Named path q ∧ after.entry q = some .dir
  made : rc = 0 → ∀ q, Named path q → after.entry q = some .dir
  portion : rc = 0 → after.entry (components (directoryPortion path)) = some .dir

/-- Regular files among the directories of the path are noticed: there are none,
    or one of them hides the absence of the next directory. -/
def FilesNoticed (path : Text) (fs : FileSystem) : Prop :=
  (∀ q, Named path q → fs.entry q ≠ some .file) ∨
  ∃ q k, Named path q ∧ Named path (q ++ [k]) ∧ fs.entry q = some .file ∧
    fs.entry (q ++ [k]) = none

theorem components_slash (u v : Text) :
    components (u ++ slash :: v) = components u ++ components v := by
  have hsplit : (u ++ slash :: v).splitOn slash = u.splitOn slash ++ v.splitOn slash :=
    List.splitOnP_append_cons u v (beq_self_eq_true slash)
  rw [components, hsplit, List.filter_append]
  rfl

theorem components_nil : components [] = [] := by simp [components]

theorem components_single {u : Text} (hne : u ≠ []) (h : ∀ b ∈ u, b ≠ slash) :
    components u = [u] := by
  have hsplit : u.splitOn slash = [u] := List.splitOnP_eq_singleton (by simpa using h)
  rw [components, hsplit]
  simp [hne]

theorem components_slashes {lead : Text} (h : ∀ b ∈ lead, b = slash) (v : Text) :
    components (lead ++ v) = components v := by
  induction lead with
  | nil => rfl
  | cons b lead ih =>
    obtain ⟨rfl, hlead⟩ := List.forall_mem_cons.mp h
    have hhead := components_slash [] (lead ++ v)
    rw [components_nil, ih hlead] at hhead
    exact hhead

theorem directoryPortion_none {u : Text} (h : ∀ b ∈ u, b ≠ slash) :
    directoryPortion u = [] := by
  have hslash : slash ∉ u := fun hmem => h slash hmem rfl
  rw [directoryPortion, strrchr_none hslash]
  rfl

theorem components_portion (u v : Text) :
    components (directoryPortion (u ++ slash :: v)) =
      components u ++ components (directoryPortion v) := by
  unfold directoryPortion
  rw [strrchr_append_cons, Option.getD_some, List.take_length_add_append]
  cases strrchr v slash with
  | none => simp [components_nil]
  | some i =>
    simp only [Option.map_some, Option.getD_some, List.take_succ_cons]
    exact components_slash u (v.take i)

theorem portion_slashes {lead : Text} (h : ∀ b ∈ lead, b = slash) (v : Text) :
    components (directoryPortion (lead ++ v)) = components (directoryPortion v) := by
  induction lead with
  | nil => rfl
  | cons b lead ih =>
    obtain ⟨rfl, hlead⟩ := List.forall_mem_cons.mp h
    have hhead := components_portion [] (lead ++ v)
    rw [components_nil, ih hlead] at hhead
    exact hhead

/-- What one round of the loop sees: slashes, a component, and the rest. -/
structure Split (rest lead comp tail : Text) : Prop where
  eq : rest = lead ++ (comp ++ tail)
  slashes : ∀ b ∈ lead, b = slash
  plain : ∀ b ∈ comp, b ≠ slash
  ends : tail = [] ∨ comp ≠ [] ∧ ∃ after, tail = slash :: after

theorem split (rest : Text) :
    Split rest (rest.takeWhile (· = slash))
      ((rest.dropWhile (· = slash)).takeWhile (· ≠ slash))
      ((rest.dropWhile (· = slash)).dropWhile (· ≠ slash)) := by
  refine ⟨?_, ?_, ?_, ?_⟩
  · rw [List.takeWhile_append_dropWhile, List.takeWhile_append_dropWhile]
  · intro b hb
    simpa using List.mem_takeWhile_imp hb
  · intro b hb
    simpa using List.mem_takeWhile_imp hb
  · cases hmid : rest.dropWhile (· = slash) with
    | nil => exact .inl rfl
    | cons b mid =>
      have hb : b ≠ slash := by
        have hhead := List.head_dropWhile_not (fun b => decide (b = slash))
          (show rest.dropWhile (· = slash) ≠ [] by simp [hmid])
        simpa [hmid] using hhead
      have hkeep : decide (b ≠ slash) = true := by simpa using hb
      simp only [List.dropWhile_cons, List.takeWhile_cons, hkeep, ↓reduceIte]
      cases htail : mid.dropWhile (· ≠ slash) with
      | nil => exact .inl rfl
      | cons d after =>
        have hhead := List.head_dropWhile_not (fun b => decide (b ≠ slash))
          (show mid.dropWhile (· ≠ slash) ≠ [] by rw [htail]; exact List.cons_ne_nil _ _)
        simp only [htail, List.head_cons, decide_eq_false_iff_not, not_not] at hhead
        have hd : d = slash := hhead
        exact .inr ⟨by simp, after, by rw [hd]⟩

section Splitting
variable {rest lead comp after : Text}

theorem Split.last (h : Split rest lead comp []) : components (directoryPortion rest) = [] := by
  rw [h.eq, List.append_nil, portion_slashes h.slashes, directoryPortion_none h.plain,
    components_nil]

theorem Split.components_head (h : Split rest lead comp (slash :: after)) :
    components (lead ++ comp) = [comp] := by
  have hne : comp ≠ [] := (h.ends.resolve_left (by simp)).1
  rw [components_slashes h.slashes, components_single hne h.plain]

theorem Split.next (h : Split rest lead comp (slash :: after)) :
    components (directoryPortion rest) = comp :: components (directoryPortion after) := by
  rw [h.eq, ← List.append_assoc, components_portion, h.components_head]
  rfl

theorem Split.length_lt (h : Split rest lead comp (slash :: after)) :
    after.length < rest.length := by
  rw [h.eq]
  simp only [List.length_append, List.length_cons]
  omega

end Splitting

theorem components_ne_nil (u : Text) {b : UInt8} (hb : b ≠ slash) :
    components (u ++ [b]) ≠ [] := by
  induction hn : u.length using Nat.strong_induction_on generalizing u with
  | _ n ih =>
    by_cases h : slash ∈ u
    · obtain ⟨s, t, rfl⟩ := List.append_of_mem h
      simp only [List.length_append, List.length_cons] at hn
      rw [List.append_assoc, List.cons_append, components_slash]
      intro he
      exact ih t.length (by omega) t rfl (List.append_eq_nil_iff.mp he).2
    · rw [components_single (by simp) ?_]
      · simp
      · intro d hd
        rcases List.mem_append.mp hd with hd | hd
        · rintro rfl
          exact h hd
        · rw [List.mem_singleton.mp hd]
          exact hb

theorem named_iff (path : Text) (q : List Text) :
    Named path q ↔ q ≠ [] ∧ q <+: components (directoryPortion path) := by
  constructor
  · rintro ⟨before, after, b, rfl, hb, rfl⟩
    refine ⟨components_ne_nil before hb, ?_⟩
    rw [show before ++ b :: slash :: after = (before ++ [b]) ++ slash :: after by simp,
      components_portion]
    exact List.prefix_append _ _
  · rintro ⟨hne, hq⟩
    -- along the rounds of the loop: the first component, then the rest of the path
    induction hn : path.length using Nat.strong_induction_on generalizing path q with
    | _ n ih =>
      have hsplit := split path
      rcases hsplit.ends with hnil | ⟨hcomp, after, hafter⟩
      · rw [hnil] at hsplit
        rw [hsplit.last] at hq
        exact absurd (List.prefix_nil.mp hq) hne
      · rw [hafter] at hsplit
        generalize path.takeWhile (· = slash) = lead at hsplit
        generalize (path.dropWhile (· = slash)).takeWhile (· ≠ slash) = comp at hsplit hcomp
        rw [hsplit.next] at hq
        obtain ⟨k, q, rfl⟩ := List.exists_cons_of_ne_nil hne
        obtain ⟨rfl, htail⟩ := List.cons_prefix_cons.mp hq
        obtain ⟨front, b, rfl⟩ : ∃ front b, k = front ++ [b] :=
          ⟨k.dropLast, k.getLast hcomp, (List.dropLast_append_getLast hcomp).symm⟩
        have hb : b ≠ slash := hsplit.plain b (by simp)
        have hhead := hsplit.components_head
        have hpath := hsplit.eq
        cases q with
        | nil =>
          refine ⟨lead ++ front, after, b, by simpa using hpath, hb, ?_⟩
          rw [List.append_assoc, hhead]
        | cons k q =>
          obtain ⟨before, after', b', he, hb', hq'⟩ :=
            ih after.length (by have := hsplit.length_lt; omega) after (k :: q) (by simp) htail rfl
          refine ⟨lead ++ (front ++ [b]) ++ slash :: before, after', b', ?_, hb', ?_⟩
          · rw [hpath, he]
            simp
          · rw [List.append_assoc, List.cons_append, components_slash, hhead, ← hq']
            rfl

/-- The directories below `done`, each made in the one before. -/
def makeAll (fs : FileSystem) (done : List Text) : List Text → Int × FileSystem
  | [] => (0, fs)
  | k :: ks =>
    match mkdirAt fs (done ++ [k]) with
    | (.failed, fs) => (-1, fs)
    | (.created, fs) => makeAll fs (done ++ [k]) ks
    | (.eexist, fs) => makeAll fs (done ++ [k]) ks

theorem skipWhile_append (p : UInt8 → Bool) (u v : Text) :
    skipWhile p (u ++ v) u.length = u.length + (v.takeWhile p).length := by
  rw [skipWhile, List.drop_left]

theorem cstr_cut {u : Text} (v : Text) (h : ∀ b ∈ u, b ≠ 0) : cstr (u ++ 0 :: v) = u := by
  induction u with
  | nil => simp [cstr]
  | cons b u ih =>
    obtain ⟨hb, hu⟩ := List.forall_mem_cons.mp h
    have htail := ih hu
    simpa [cstr, hb] using htail

theorem mkdirLoop_round {σ : Type} (mkdir : σ → Text → MkdirResult × σ) (fuel : ℕ)
    {front rest : Text} (s : σ) (hnul : ∀ b ∈ front ++ rest, b ≠ 0) :
    ∃ lead comp,
      (Split rest lead comp [] ∧
        mkdirLoop mkdir (fuel + 1) (front ++ rest) front.length s = .ok (0, s)) ∨
      ∃ after, Split rest lead comp (slash :: after) ∧
        front ++ (lead ++ comp) ++ [slash] ++ after = front ++ rest ∧
        mkdirLoop mkdir (fuel + 1) (front ++ rest) front.length s =
          if (mkdir s (front ++ (lead ++ comp))).1 = .failed then
            .ok (-1, (mkdir s (front ++ (lead ++ comp))).2)
          else mkdirLoop mkdir fuel (front ++ (lead ++ comp) ++ [slash] ++ after)
            (front ++ (lead ++ comp) ++ [slash]).length (mkdir s (front ++ (lead ++ comp))).2 := by
  have hsplit := split rest
  have hlead : skipWhile (· = byte '/') (front ++ rest) front.length =
      (front ++ rest.takeWhile (· = slash)).length := by
    rw [skipWhile_append, List.length_append]
    rfl
  have hcomp : skipWhile (· ≠ byte '/') (front ++ rest)
      (front ++ rest.takeWhile (· = slash)).length =
      (front ++ (rest.takeWhile (· = slash) ++
        (rest.dropWhile (· = slash)).takeWhile (· ≠ slash))).length := by
    have hsame : front ++ rest = (front ++ rest.takeWhile (· = slash)) ++
        rest.dropWhile (· = slash) := by
      rw [List.append_assoc, List.takeWhile_append_dropWhile]
    rw [hsame, skipWhile_append, ← List.append_assoc, ← List.length_append]
    rfl
  simp only [mkdirLoop, hlead, hcomp]
  generalize rest.takeWhile (· = slash) = lead at *
  generalize (rest.dropWhile (· = slash)).takeWhile (· ≠ slash) = comp at *
  generalize (rest.dropWhile (· = slash)).dropWhile (· ≠ slash) = tail at *
  refine ⟨lead, comp, ?_⟩
  rcases hsplit.ends with rfl | ⟨hne, after, rfl⟩
  · exact .inl ⟨hsplit, if_pos (by rw [hsplit.eq]; simp)⟩
  · have hpath : front ++ rest = (front ++ (lead ++ comp)) ++ slash :: after := by
      rw [hsplit.eq]
      simp
    have hcut : (front ++ rest).set (front ++ (lead ++ comp)).length 0 =
        (front ++ (lead ++ comp)) ++ 0 :: after := by
      rw [hpath]
      simp
    have hpatch : ((front ++ (lead ++ comp)) ++ 0 :: after).set
        (front ++ (lead ++ comp)).length (byte '/') =
          (front ++ (lead ++ comp) ++ [slash]) ++ after := by
      simp [slash]
    have hclean : ∀ b ∈ front ++ (lead ++ comp), b ≠ 0 := by
      intro b hb
      exact hnul b (hpath ▸ List.mem_append_left _ hb)
    have hlength : (front ++ (lead ++ comp) ++ [slash]).length =
        (front ++ (lead ++ comp)).length + 1 := by
      rw [List.length_append, List.length_singleton]
    refine .inr ⟨after, hsplit, by rw [hpath]; simp, ?_⟩
    rw [if_neg (by rw [hpath]; simp), hcut, cstr_cut after hclean, hpatch, hlength]
    rcases mkdir s (front ++ (lead ++ comp)) with ⟨result, t⟩
    cases result with
    | failed => rfl
    | created => rfl
    | eexist => rfl

theorem mkdirLoop_eq {fuel : ℕ} {front rest : Text} (fs : FileSystem) (hf : rest.length < fuel)
    (hnul : ∀ b ∈ front ++ rest, b ≠ 0)
    (hfront : front = [] ∨ ∃ f, front = f ++ [slash]) :
    mkdirLoop mkdir fuel (front ++ rest) front.length fs =
      .ok (makeAll fs (components front) (components (directoryPortion rest))) := by
  induction fuel generalizing front rest fs with
  | zero => omega
  | succ fuel ih =>
    obtain ⟨lead, comp, ⟨hsplit, hround⟩ | ⟨after, hsplit, hrest, hround⟩⟩ :=
      mkdirLoop_round mkdir fuel fs hnul
    · rw [hround, hsplit.last]
      rfl
    · have hnames : components (front ++ (lead ++ comp)) = components front ++ [comp] := by
        rw [← hsplit.components_head]
        rcases hfront with rfl | ⟨f, rfl⟩
        · rw [components_nil]
          rfl
        · rw [List.append_assoc, List.singleton_append, components_slash, components_slash f [],
            components_nil, List.append_nil]
      have hdone : components (front ++ (lead ++ comp) ++ [slash]) =
          components front ++ [comp] := by
        rw [components_slash, components_nil, List.append_nil, hnames]
      have hnext (t : FileSystem) := @ih (front ++ (lead ++ comp) ++ [slash]) after t
        (by have := hsplit.length_lt; omega) (hrest ▸ hnul) (.inr ⟨_, rfl⟩)
      rw [hround, hsplit.next]
      simp only [mkdir, hnames, makeAll]
      rw [hdone] at hnext
      rcases mkdirAt fs (components front ++ [comp]) with ⟨result, t⟩
      cases result with
      | failed => rfl
      | created => exact hnext t
      | eexist => exact hnext t

/-- What making the directories `ks` below `done` does to the file system. -/
structure Made (done ks : List Text) (before after : FileSystem) (rc : Int) : Prop where
  kept : ∀ q node, before.entry q = some node → after.entry q = some node
  added : ∀ q, before.entry q = none → after.entry q ≠ none →
    (∃ part, part ≠ [] ∧ part <+: ks ∧ q = done ++ part) ∧ after.entry q = some .dir
  success : rc = 0 → ∀ part, part <+: ks → after.entry (done ++ part) ≠ none
  failure : rc ≠ 0 ↔ ∃ part k, part ++ [k] <+: ks ∧
    before.entry (done ++ part) = some .file ∧
    before.entry (done ++ part ++ [k]) = none

theorem mkdirAt_cases (fs : FileSystem) (done : List Text) (k : Text) :
    (fs.entry (done ++ [k]) ≠ none ∧ mkdirAt fs (done ++ [k]) = (.eexist, fs)) ∨
    (fs.entry (done ++ [k]) = none ∧ fs.entry done = some .dir ∧
      mkdirAt fs (done ++ [k]) = (.created, fs.make (done ++ [k]))) ∨
    (fs.entry (done ++ [k]) = none ∧ fs.entry done ≠ some .dir ∧
      mkdirAt fs (done ++ [k]) = (.failed, fs)) := by
  unfold mkdirAt
  rw [List.dropLast_concat]
  by_cases hq : fs.entry (done ++ [k]) = none
  · by_cases hdir : fs.entry done = some .dir
    · exact .inr (.inl ⟨hq, hdir, by rw [if_neg (not_not.mpr hq), if_pos hdir]⟩)
    · exact .inr (.inr ⟨hq, hdir, by rw [if_neg (not_not.mpr hq), if_neg hdir]⟩)
  · exact .inl ⟨hq, if_pos hq⟩

theorem make_entry_self (fs : FileSystem) (q : List Text) : (fs.make q).entry q = some .dir :=
  if_pos rfl

theorem make_entry_ne (fs : FileSystem) {q r : List Text} (h : r ≠ q) :
    (fs.make q).entry r = fs.entry r :=
  if_neg h

theorem prefix_cons_cases {k : Text} {ks part : List Text} (h : part <+: k :: ks) :
    part = [] ∨ ∃ tail, part = k :: tail ∧ tail <+: ks := by
  cases part with
  | nil => exact .inl rfl
  | cons d tail =>
    obtain ⟨rfl, htail⟩ := List.cons_prefix_cons.mp h
    exact .inr ⟨tail, rfl, htail⟩

section Steps
variable {done ks : List Text} {k : Text} {before middle after : FileSystem} {rc : Int}

theorem Made.cons (h : Made (done ++ [k]) ks middle after rc) (hdone : before.entry done ≠ none)
    (hkept : ∀ q node, before.entry q = some node → middle.entry q = some node)
    (hadded : ∀ q, before.entry q = none → middle.entry q ≠ none →
      q = done ++ [k] ∧ middle.entry q = some .dir)
    (hhead : before.entry done = some .file → before.entry (done ++ [k]) ≠ none) :
    Made done (k :: ks) before after rc := by
  have hfile {q : List Text} (hq : middle.entry q = some .file) : before.entry q = some .file := by
    cases hb : before.entry q with
    | some node => rw [← hkept q node hb, hq]
    | none =>
      have hdir := (hadded q hb (by simp [hq])).2
      rw [hq] at hdir
      cases hdir
  have hnone {q : List Text} (hq : middle.entry q = none) : before.entry q = none := by
    cases hb : before.entry q with
    | some node =>
      rw [hkept q node hb] at hq
      cases hq
    | none => rfl
  refine ⟨fun q node hq => h.kept q node (hkept q node hq), fun q hq hnew => ?_,
    fun hrc part hpart => ?_, ?_⟩
  · cases hm : middle.entry q with
    | some node =>
      obtain ⟨rfl, hdir⟩ := hadded q hq (by rw [hm]; simp)
      exact ⟨⟨[k], by simp, by simp, rfl⟩, h.kept _ _ hdir⟩
    | none =>
      obtain ⟨⟨part, hne, hpart, rfl⟩, hdir⟩ := h.added q hm hnew
      exact ⟨⟨k :: part, by simp, List.cons_prefix_cons.mpr ⟨rfl, hpart⟩, by simp⟩,
        hdir⟩
  · rcases prefix_cons_cases hpart with rfl | ⟨tail, rfl, htail⟩
    · rw [List.append_nil]
      obtain ⟨node, hnode⟩ := Option.ne_none_iff_exists'.mp hdone
      rw [h.kept done node (hkept done node hnode)]
      simp
    · have hs := h.success hrc tail htail
      rw [List.append_assoc] at hs
      exact hs
  · rw [h.failure]
    constructor
    · rintro ⟨part, d, hpart, hmf, hmn⟩
      refine ⟨k :: part, d, List.cons_prefix_cons.mpr ⟨rfl, hpart⟩, ?_, ?_⟩
      · have hbf := hfile hmf
        rwa [List.append_assoc] at hbf
      · have hbn := hnone hmn
        rwa [List.append_assoc done] at hbn
    · rintro ⟨part, d, hpart, hbf, hbn⟩
      cases part with
      | nil =>
        obtain ⟨rfl, _⟩ := List.cons_prefix_cons.mp hpart
        rw [List.append_nil] at hbf hbn
        exact absurd hbn (hhead hbf)
      | cons k' tail =>
        obtain ⟨rfl, htail⟩ := List.cons_prefix_cons.mp hpart
        have hsplit : done ++ k' :: tail = done ++ [k'] ++ tail := by simp
        rw [hsplit] at hbf hbn
        refine ⟨tail, d, htail, hkept _ _ hbf, ?_⟩
        by_contra hne
        have hlen := congrArg List.length (hadded _ hbn hne).1
        simp at hlen

end Steps

theorem makeAll_made (done ks : List Text) (fs : FileSystem) (hdone : fs.entry done ≠ none) :
    Made done ks fs (makeAll fs done ks).2 (makeAll fs done ks).1 := by
  induction ks generalizing done fs with
  | nil =>
    refine ⟨fun _ _ h => h, fun q hq hnew => absurd hq hnew, fun _ part hpart => ?_, ?_⟩
    · rw [List.prefix_nil.mp hpart, List.append_nil]
      exact hdone
    · refine iff_of_false (by simp [makeAll]) ?_
      rintro ⟨part, k, hpart, _⟩
      simpa using List.prefix_nil.mp hpart
  | cons k ks ih =>
    rcases mkdirAt_cases fs done k with ⟨hq, hm⟩ | ⟨hq, hdir, hm⟩ | ⟨hq, hdir, hm⟩
    · simp only [makeAll, hm]
      refine (ih (done ++ [k]) fs hq).cons hdone (fun _ _ h => h) ?_ fun _ => hq
      exact fun q hnone hsome => absurd hnone hsome
    · simp only [makeAll, hm]
      have hself := make_entry_self fs (done ++ [k])
      refine (ih (done ++ [k]) (fs.make (done ++ [k])) (by simp [hself])).cons hdone ?_ ?_ ?_
      · intro q node hnode
        rw [make_entry_ne fs ?_]
        · exact hnode
        · rintro rfl
          rw [hq] at hnode
          cases hnode
      · intro q hnone hsome
        by_cases he : q = done ++ [k]
        · rw [he]
          exact ⟨rfl, hself⟩
        · rw [make_entry_ne fs he] at hsome
          exact absurd hnone hsome
      · rw [hdir]
        simp
    · simp only [makeAll, hm]
      refine ⟨fun _ _ h => h, fun q hnone hsome => absurd hnone hsome, by simp, ?_⟩
      refine iff_of_true (by decide) ⟨[], k, by simp, ?_, ?_⟩
      · rw [List.append_nil]
        cases hnode : fs.entry done with
        | none => exact absurd hnode hdone
        | some node =>
          cases node with
          | file => rfl
          | dir => exact absurd hnode hdir
      · rw [List.append_nil]
        exact hq

theorem Made.likeMkdirP_iff {path : Text} {before after : FileSystem} {rc : Int}
    (h : Made [] (components (directoryPortion path)) before after rc) :
    LikeMkdirP path before after rc ↔ FilesNoticed path before := by
  have hfail : rc ≠ 0 ↔ ∃ q k, Named path q ∧ Named path (q ++ [k]) ∧
      before.entry q = some .file ∧ before.entry (q ++ [k]) = none := by
    rw [h.failure]
    constructor
    · rintro ⟨q, k, hq, hfile, hnone⟩
      refine ⟨q, k, (named_iff path q).mpr ⟨?_, (List.prefix_append q [k]).trans hq⟩,
        (named_iff path _).mpr ⟨by simp, hq⟩, hfile, hnone⟩
      rintro rfl
      rw [List.append_nil, before.start] at hfile
      cases hfile
    · rintro ⟨q, k, _, hqk, hfile, hnone⟩
      exact ⟨q, k, ((named_iff path _).mp hqk).2, hfile, hnone⟩
  constructor
  · intro hlike
    by_cases hrc : rc = 0
    · refine .inl fun q hq hfile => ?_
      have hdir := hlike.made hrc q hq
      rw [h.kept q _ hfile] at hdir
      cases hdir
    · exact .inr (hfail.mp hrc)
  · intro hnoticed
    have hmade : rc = 0 → ∀ q, q <+: components (directoryPortion path) →
        after.entry q = some .dir := by
      intro hrc q hq
      have hfiles : ∀ q, Named path q → before.entry q ≠ some .file :=
        hnoticed.resolve_right fun hx => hfail.mpr hx hrc
      cases hb : before.entry q with
      | none => exact (h.added q hb (h.success hrc q hq)).2
      | some node =>
        cases node with
        | dir => exact h.kept q _ hb
        | file =>
          have hne : q ≠ [] := by
            rintro rfl
            rw [before.start] at hb
            cases hb
          exact absurd hb (hfiles q ((named_iff path q).mpr ⟨hne, hq⟩))
    refine ⟨h.kept, fun q hq hnew => ?_, fun hrc q hq => ?_, fun hrc => ?_⟩
    · obtain ⟨⟨part, hne, hpart, rfl⟩, hdir⟩ := h.added q hq hnew
      exact ⟨(named_iff path _).mpr ⟨hne, hpart⟩, hdir⟩
    · exact hmade hrc q ((named_iff path q).mp hq).2
    · exact hmade hrc _ List.prefix_rfl

/-- Directories are made as by `mkdir -p`, exactly if regular files in their place
    are noticed. -/
theorem mkdir_like_mkdir_p_iff (lua : Lua) (depth : ℕ) (c : Composer) (fs : FileSystem)
    (path : Text) (hyield : (pathcompYield lua depth c).1 = some path)
    (hnul : ∀ b ∈ path, b ≠ 0) :
    ∃ rc d after, pathcompMkdir lua depth mkdir c fs = .ok (rc, d, after) ∧
      (LikeMkdirP path fs after rc ↔ FilesNoticed path fs) := by
  have hloop := @mkdirLoop_eq (path.length + 1) [] path fs (by omega) hnul (.inl rfl)
  rw [components_nil] at hloop
  have hmade := makeAll_made [] (components (directoryPortion path)) fs (by simp [fs.start])
  refine ⟨_, (pathcompYield lua depth c).2, _, ?_, hmade.likeMkdirP_iff⟩
  simp only [pathcompMkdir, hyield]
  rw [show mkdirLoop mkdir (path.length + 1) path 0 fs = _ from hloop]

/-- Nothing but the start directory. -/
def bareSystem : FileSystem := ⟨fun q => if q = [] then some .dir else none, rfl⟩

def logComposer : Composer :=
  { name := ascii "log", attributes := [attNew attRoot (.string (ascii "/a//b")) none,
      attNew attCompose (.string (ascii "c")) none],
    metatable := [], done := false, started := false }

theorem mkdir_like_mkdir_p_bare :
    (pathcompYield (fun _ => .finish none) 1 logComposer).1 = some (ascii "/a//b/c") ∧
    ∃ rc d after, pathcompMkdir (fun _ => .finish none) 1 mkdir logComposer bareSystem =
        .ok (rc, d, after) ∧ LikeMkdirP (ascii "/a//b/c") bareSystem after rc := by
  have hyield : (pathcompYield (fun _ => .finish none) 1 logComposer).1 =
      some (ascii "/a//b/c") := by
    rfl
  obtain ⟨rc, d, after, hrun, hiff⟩ :=
    mkdir_like_mkdir_p_iff (fun _ => .finish none) 1 logComposer
    bareSystem (ascii "/a//b/c") hyield (by decide)
  refine ⟨hyield, rc, d, after, hrun, hiff.mpr (.inl fun q _ hfile => ?_)⟩
  by_cases hq : q = []
  · simp [bareSystem, hq] at hfile
  · simp [bareSystem, hq] at hfile

/-- A regular file stands where the last directory should be. -/
def blockedSystem : FileSystem :=
  ⟨fun q => if q = [] then some .dir else if q = [ascii "a"] then some .file else none, rfl⟩

def blockedComposer : Composer :=
  { name := ascii "log", attributes := [attNew attCompose (.string (ascii "a/b")) none],
    metatable := [], done := false, started := false }

theorem mkdir_takes_file_for_directory :
    (pathcompYield (fun _ => .finish none) 1 blockedComposer).1 = some (ascii "a/b") ∧
    pathcompMkdir (fun _ => .finish none) 1 mkdir blockedComposer blockedSystem =
      .ok (0, blockedComposer, blockedSystem) ∧
    ¬ LikeMkdirP (ascii "a/b") blockedSystem blockedSystem 0 := by
  refine ⟨rfl, rfl, fun h => ?_⟩
  have hdir := h.made rfl [ascii "a"] ⟨[], ascii "b", byte 'a', by decide, by decide, by decide⟩
  cases hdir

end Pathcomp.Directories
