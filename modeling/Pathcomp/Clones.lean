import Pathcomp.PlacedEvaluation
import Pathcomp.Observations

set_option autoImplicit false

/-!
# Clones

A composer in memory and its clone share no cell. Requests on the two, in any
order, are answered as if each were alone, and both give the same answers to the
same requests.
-/
namespace Pathcomp.Clones
open Bytes Config Values Attributes Composers Evaluation Purity Wheels Reachability Search
open Observations Heaps Links Placement PlacedComposers PlacedEvaluation
open Memory (Cell AttCell ComposerCell M)

/-- The public operations on one composer; `clone` goes over to the clone. -/
inductive Request where
  | set (name value : Text)
  | setInt (name : Text) (value : Int32)
  | add (name value : Text)
  | addInt (name : Text) (value : Int32)
  | next
  | done
  | rewind
  | eval (name : Text)
  | yield
  | find
  | clone
  deriving DecidableEq, Repr

def Request.step : Request → Step
  | .set name value => .call (.set name value)
  | .setInt name value => .call (.setInt name value)
  | .add name value => .call (.add name value)
  | .addInt name value => .call (.addInt name value)
  | .next => .call .next
  | .done => .call .done
  | .rewind => .call .rewind
  | .eval name => .call (.eval name)
  | .yield => .call .yield
  | .find => .call .find
  | .clone => .clone

section Runs
variable {σ : Type} (w : World σ) (s : σ) (fuel : ℕ)

/-- The reply, and the address of the composer to go on with. -/
def Request.exec (a : ℕ) : Request → M (Reply × ℕ)
  | .set name value => do
    Memory.pathcompSet a name value
    pure (.void, a)
  | .setInt name value => do
    Memory.pathcompSetInt a name value
    pure (.void, a)
  | .add name value => do
    Memory.pathcompAdd a name value
    pure (.void, a)
  | .addInt name value => do
    Memory.pathcompAddInt a name value
    pure (.void, a)
  | .next => do pure (.flag (← Memory.pathcompNext a), a)
  | .done => do pure (.flag (← Memory.pathcompDone a), a)
  | .rewind => do
    Memory.pathcompRewind a
    pure (.void, a)
  | .eval name => do pure (.string (← Memory.pathcompEval (w.lua s) w.depth a name), a)
  | .yield => do pure (.string (← Memory.pathcompYield (w.lua s) w.depth a), a)
  | .find => do pure (.string (← Memory.pathcompFind (w.lua s) w.depth (w.stat s) fuel a), a)
  | .clone => do pure (.void, ← Memory.pathcompClone a)

def serve : List Request → ℕ → M (List Reply × ℕ)
  | [], a => pure ([], a)
  | request :: requests, a => do
    let (reply, a) ← request.exec w s fuel a
    let (replies, a) ← serve requests a
    pure (reply :: replies, a)

def serveBoth : List (Bool × Request) → ℕ → ℕ → M (List (Bool × Reply) × ℕ × ℕ)
  | [], a, b => pure ([], a, b)
  | (false, request) :: requests, a, b => do
    let (reply, a) ← request.exec w s fuel a
    let (replies, ends) ← serveBoth requests a b
    pure ((false, reply) :: replies, ends)
  | (true, request) :: requests, a, b => do
    let (reply, b) ← request.exec w s fuel b
    let (replies, ends) ← serveBoth requests a b
    pure ((true, reply) :: replies, ends)

end Runs

def ofSide {α : Type} (side : Bool) (xs : List (Bool × α)) : List α :=
  (xs.filter fun x => x.1 = side).map Prod.snd

/-- Following pointers from a composer. -/
inductive Reaches (h : Heap Cell) (a : ℕ) : ℕ → Prop where
  | refl : Reaches h a a
  | step {x y : ℕ} {cell : Cell} (hx : Reaches h a x) (hcell : h.cells x = some cell)
      (hy : y ∈ cell.pointers) : Reaches h a y

def Separate (h : Heap Cell) (a b : ℕ) : Prop := ∀ x, ¬ (Reaches h a x ∧ Reaches h b x)

/-- The heap holds the composer at the address. -/
def Placed (h : Heap Cell) (a : ℕ) (c : Composer) : Prop :=
  ∃ (p : PlacedComposer) (frame : Bindings Cell),
    p.cell = a ∧ p.composer = c ∧ Holds h (p.cells + frame)

/-- The composers that come into being in memory: by `pathcomp_new`, whatever else the
    heap holds, and by requests on such a composer. -/
inductive Lives (config : Option Cf) : Heap Cell → ℕ → Prop where
  | new {h h' : Heap Cell} {depth a : ℕ} {name : Text}
      (hnew : Memory.pathcompNew config depth name h = .ok (a, h')) : Lives config h' a
  | request {σ : Type} {w : World σ} {s : σ} {fuel a b : ℕ} {request : Request} {reply : Reply}
      {h h' : Heap Cell} (ha : Lives config h a)
      (hexec : request.exec w s fuel a h = .ok ((reply, b), h')) : Lives config h' b

/-- The requests on the composer at the address get these replies. -/
def Answers {σ : Type} (w : World σ) (s : σ) (fuel : ℕ) (h : Heap Cell) (a : ℕ)
    (requests : List Request) (replies : List Reply) : Prop :=
  ∃ b h', serve w s fuel requests a h = .ok ((replies, b), h')

def Closed (m : Bindings Cell) : Prop :=
  ∀ b ∈ m, ∀ y ∈ b.2.pointers, y ∈ m.map Prod.fst

section Reaching
variable {ι : Type} {cell : ι → ℕ} {own : ι → Bindings Cell}

theorem first_mem {xs : List (ℕ × ι)} {y : ℕ} (h : first xs none = some y) :
    y ∈ (listCells cell own xs none).map Prod.fst := by
  cases xs with
  | nil => cases h
  | cons x xs =>
    cases h
    exact Multiset.mem_map_of_mem Prod.fst head_mem

theorem pointer_mem {xs : List (ℕ × ι)} {current : Option ℕ} {y : ℕ}
    (h : pointer xs current = some y) : y ∈ (listCells cell own xs none).map Prod.fst := by
  obtain ⟨p, rfl, hp⟩ := Option.bind_eq_some_iff.mp h
  obtain ⟨x, hx, rfl⟩ := Option.map_eq_some_iff.mp hp
  obtain ⟨hlt, rfl⟩ := List.getElem?_eq_some_iff.mp hx
  exact Multiset.mem_map_of_mem Prod.fst (get_mem hlt)

theorem closed_listCells {xs : List (ℕ × ι)} (hown : ∀ x ∈ xs, Closed (own x.2))
    (hcell : ∀ x ∈ xs, cell x.2 ∈ (own x.2).map Prod.fst) :
    Closed (listCells cell own xs none) := by
  induction xs with
  | nil => simp [Closed, listCells]
  | cons x xs ih =>
    have hrest := ih (fun y hy => hown y (by simp [hy])) fun y hy => hcell y (by simp [hy])
    intro b hb y hy
    rw [listCells] at hb ⊢
    rw [Multiset.map_add, Multiset.map_add]
    rcases Multiset.mem_add.mp hb with hb | hb
    · rw [Multiset.mem_singleton.mp hb] at hy
      rcases List.mem_cons.mp hy with rfl | hy
      · exact Multiset.mem_add.mpr (.inr (Multiset.mem_add.mpr (.inl (hcell x (by simp)))))
      · have hfirst : first xs none = some y := by simpa using hy
        exact Multiset.mem_add.mpr (.inr (Multiset.mem_add.mpr (.inr (first_mem hfirst))))
    · rcases Multiset.mem_add.mp hb with hb | hb
      · exact Multiset.mem_add.mpr
          (.inr (Multiset.mem_add.mpr (.inl (hown x (by simp) b hb y hy))))
      · exact Multiset.mem_add.mpr (.inr (Multiset.mem_add.mpr (.inr (hrest b hb y hy))))

end Reaching

theorem closed_att (a : PlacedAtt) : Closed a.cells := by
  have hvalues : Closed a.values :=
    closed_listCells (fun x _ => by simp [Closed, PlacedValue.cells, Memory.Cell.pointers])
      fun x _ => by simp [PlacedValue.cells]
  intro b hb y hy
  rw [PlacedAtt.cells, Multiset.map_add]
  refine Multiset.mem_add.mpr (.inr ?_)
  rcases Multiset.mem_add.mp hb with hb | hb
  · rw [Multiset.mem_singleton.mp hb] at hy
    rcases List.mem_append.mp hy with hy | hy
    · exact first_mem (by simpa [PlacedAtt.attCell] using hy)
    · exact pointer_mem (by simpa [PlacedAtt.attCell] using hy)
  · exact hvalues b hb y hy

theorem closed_composer (c : PlacedComposer) : Closed c.cells := by
  have hatts : Closed c.atts := closed_listCells (fun x _ => closed_att x.2)
    fun x _ => Multiset.mem_map_of_mem Prod.fst (att_mem x.2)
  intro b hb y hy
  rw [PlacedComposer.cells, Multiset.map_add]
  refine Multiset.mem_add.mpr (.inr ?_)
  rcases Multiset.mem_add.mp hb with hb | hb
  · rw [Multiset.mem_singleton.mp hb] at hy
    exact first_mem (by simpa [PlacedComposer.composerCell, Memory.Cell.pointers] using hy)
  · exact hatts b hb y hy

theorem reaches_mem {h : Heap Cell} {c : PlacedComposer} (hh : Holds h c.cells) {x : ℕ}
    (hx : Reaches h c.cell x) : x ∈ c.cells.map Prod.fst := by
  induction hx with
  | refl => exact Multiset.mem_map_of_mem Prod.fst (composer_mem c)
  | step hx hcell hy ih =>
    obtain ⟨b, hb, rfl⟩ := Multiset.mem_map.mp ih
    rw [hh.cells b hb] at hcell
    cases hcell
    exact closed_composer c b hb _ hy

theorem separate_of_holds {h : Heap Cell} {c d : PlacedComposer} {frame : Bindings Cell}
    (hh : Holds h (c.cells + (d.cells + frame))) : Separate h c.cell d.cell := by
  rintro x ⟨hc, hd⟩
  have hdc : Holds h (d.cells + (c.cells + frame)) := by
    rwa [show d.cells + (c.cells + frame) = c.cells + (d.cells + frame) by abel]
  obtain ⟨b, hb, rfl⟩ := Multiset.mem_map.mp (reaches_mem hh.left hc)
  obtain ⟨b', hb', he⟩ := Multiset.mem_map.mp (reaches_mem hdc.left hd)
  exact hh.disjoint hb (Multiset.mem_add.mpr (.inl hb')) he.symm

/-- The program gives the reply and leaves the composer at the address that it
    returns, perhaps beside cells that are no longer used. -/
def Serves {α : Type} (c : PlacedComposer) (prog : M (α × ℕ)) (reply : α)
    (d : Composer) : Prop :=
  Triple c.cells prog fun x m' => ∃ (e : PlacedComposer) (left : Bindings Cell),
    x = (reply, e.cell) ∧ e.composer = d ∧ m' = e.cells + left

theorem serves_of_refines {α : Type} {c : PlacedComposer} {prog : M (α × ℕ)} {reply : α}
    {d : Composer} (h : Refines c prog ((reply, c.cell), d)) : Serves c prog reply d := by
  apply h.weaken
  rintro _ m' ⟨e, hcell, rfl, rfl, hd⟩
  refine ⟨e, 0, ?_, hd, (add_zero _).symm⟩
  rw [hcell]

theorem refines_reply {α : Type} {c : PlacedComposer} {prog : M α} {r : α} {d : Composer}
    (h : Refines c prog (r, d)) (reply : α → Reply) :
    Refines c (do pure (reply (← prog), c.cell)) ((reply r, c.cell), d) := by
  apply h.bind
  rintro _ m' ⟨e, hcell, rfl, rfl, hd⟩
  exact Triple.ret ⟨e, hcell, rfl, rfl, hd⟩

section Serving
variable {σ : Type} (w : World σ) (s : σ) {fuel : ℕ} {c : PlacedComposer}

theorem refines_request (hr : Representation c.composer) {request : Request}
    (hclone : request ≠ .clone) {reply : Reply} {d : Composer} {t : σ}
    (h : request.step.exec w fuel c.composer s = .ok (reply, d, t)) :
    Refines c (request.exec w s fuel c.cell) ((reply, c.cell), d) := by
  cases request with
  | set | setInt | add | addInt =>
    have hupdate := refines_update hr.atts (replyVoid_ok h)
    rw [replyVoid_void h]
    exact refines_reply hupdate fun _ => .void
  | next =>
    cases h
    exact refines_reply (refines_next c hr.atts) .flag
  | done =>
    cases h
    exact refines_reply (refines_done c) .flag
  | rewind =>
    cases h
    exact refines_reply (refines_rewind c) fun _ => .void
  | eval name =>
    cases h
    exact refines_reply (evaluates_eval (w.lua s) w.depth c.cell name).refines .string
  | yield =>
    cases h
    exact refines_reply (evaluates_yield (w.lua s) w.depth c.cell).refines .string
  | find =>
    have hmirrors := mirrors_find (w.lua s) w.depth (w.stat s) fuel c hr
    obtain ⟨path, rfl, hfind⟩ := find_composer h
    rw [hfind] at hmirrors
    exact refines_reply hmirrors .string
  | clone => exact absurd rfl hclone

theorem serves_request (hr : Representation c.composer) (request : Request) {reply : Reply}
    {d : Composer} {t : σ} (h : request.step.exec w fuel c.composer s = .ok (reply, d, t)) :
    Serves c (request.exec w s fuel c.cell) reply d := by
  by_cases hclone : request = .clone
  · subst hclone
    simp only [Request.step, Step.exec, pathcompClone_eq hr, replyVoid] at h
    cases h
    apply (triple_clone c hr.atts).bind
    rintro _ m' ⟨d, rfl, hd, rfl⟩
    exact Triple.ret ⟨d, c.cells, rfl, hd, rfl⟩
  · exact serves_of_refines (refines_request w s hr hclone h)

theorem request_halts (hr : Representation c.composer) (request : Request) {halt : Halt}
    (hstep : request.step.exec w fuel c.composer s = .error halt) {h : Heap Cell}
    {frame : Bindings Cell} (hh : Holds h (c.cells + frame)) :
    request.exec w s fuel c.cell h = .error halt := by
  have hvoid {e : Except Halt Composer} (hd : ∃ d, e = .ok d) :
      replyVoid s e ≠ .error halt := by
    obtain ⟨d, rfl⟩ := hd
    simp [replyVoid]
  cases request with
  | set | setInt | add | addInt => exact absurd hstep (hvoid (addOrReplace_ok _ _ _ _ _))
  | clone => exact absurd hstep (hvoid ⟨_, pathcompClone_eq hr⟩)
  | next | done | rewind | eval | yield => cases hstep
  | find =>
    have hmirrors := mirrors_find (w.lua s) w.depth (w.stat s) fuel c hr
    simp only [Request.step, Step.exec, Op.exec] at hstep
    split at hstep
    · rename_i hfind
      cases hstep
      rw [hfind] at hmirrors
      change (Memory.pathcompFind (w.lua s) w.depth (w.stat s) fuel c.cell h >>= _) = _
      rw [hmirrors h frame hh]
      rfl
    · cases hstep

/-- With enough rounds for `pathcomp_find`, and then with any more, the request is
    answered in the same way, and the world stays as it is. -/
def Settles (c : Composer) (request : Request) : Prop :=
  ∃ (bound : ℕ) (reply : Reply) (d : Composer), Representation d ∧
    ∀ fuel, bound ≤ fuel → request.step.exec w fuel c s = .ok (reply, d, s)

theorem request_settles {c : Composer} (hr : Representation c) (request : Request) :
    Settles w s c request := by
  have hreturns (reply : Reply) (d : Composer)
      (h : ∀ fuel, request.step.exec w fuel c s = .ok (reply, d, s)) (hd : Representation d) :
      Settles w s c request :=
    ⟨0, reply, d, hd, fun fuel _ => h fuel⟩
  have hupdate (name : Text) (value : Value) (action : Action)
      (h : ∀ fuel, request.step.exec w fuel c s =
        replyVoid s (pathcompAddOrReplace c name value originRuntime action)) :
      Settles w s c request := by
    obtain ⟨d, hd⟩ := addOrReplace_ok c name value originRuntime action
    refine hreturns .void d (fun fuel => ?_) (addOrReplace_representation hr hd)
    rw [h fuel, hd]
    rfl
  cases request with
  | set name value => exact hupdate name (valueNewAuto value) .replace fun _ => rfl
  | setInt name value => exact hupdate name (valueNewInt value) .replace fun _ => rfl
  | add name value => exact hupdate name (valueNewAuto value) .add fun _ => rfl
  | addInt name value => exact hupdate name (valueNewInt value) .add fun _ => rfl
  | next => exact hreturns _ _ (fun _ => rfl) (pathcompNext_representation hr)
  | done => exact hreturns _ _ (fun _ => rfl) hr
  | rewind => exact hreturns _ _ (fun _ => rfl) (pathcompRewind_representation hr)
  | eval name =>
    exact hreturns _ _ (fun _ => rfl)
      (hr.congr ((pathcompEval_pure (w.lua s) w.depth name).frame c))
  | yield =>
    exact hreturns _ _ (fun _ => rfl) (hr.congr ((pathcompYield_pure (w.lua s) w.depth).frame c))
  | find =>
    obtain ⟨bound, hb⟩ := Safety.pathcompFind_returns (w.lua s) w.depth (w.stat s) hr
    obtain ⟨path, d, hfind⟩ := hb bound le_rfl
    refine ⟨bound, .string path, d, pathcompFind_representation hr hfind, fun fuel hfuel => ?_⟩
    simp only [Request.step, Step.exec, Op.exec, pathcompFind_mono hfuel hfind]
  | clone => exact hreturns .void c (fun _ => congrArg (replyVoid s) (pathcompClone_eq hr)) hr

/-- Wherever the composer is placed, the requests get these replies. -/
def Replies (fuel : ℕ) (c : Composer) (requests : List Request) (replies : List Reply) : Prop :=
  ∀ p : PlacedComposer, p.composer = c →
    Triple p.cells (serve w s fuel requests p.cell) fun x _ => x.1 = replies

theorem Replies.nil (fuel : ℕ) (c : Composer) : Replies w s fuel c [] [] :=
  fun _ _ => Triple.ret rfl

theorem Replies.cons {c d : Composer} (hr : Representation c) {request : Request} {reply : Reply}
    (hstep : request.step.exec w fuel c s = .ok (reply, d, s)) {requests : List Request}
    {replies : List Reply} (htail : Replies w s fuel d requests replies) :
    Replies w s fuel c (request :: requests) (reply :: replies) := by
  rintro p rfl
  apply Triple.bind (serves_request w s hr request hstep)
  rintro _ m' ⟨e, left, rfl, he, rfl⟩
  apply Triple.bind ((htail e he).frame left)
  rintro ⟨rest, b⟩ m' ⟨_, rfl, rfl⟩
  exact Triple.ret rfl

end Serving

theorem ofSide_map {α : Type} (side : Bool) (xs : List α) :
    ofSide side (xs.map (Prod.mk side)) = xs := by
  simp [ofSide, List.filter_map, Function.comp_def]

section Both
variable {σ : Type} (w : World σ) (s : σ) {fuel : ℕ}

/-- Wherever the two composers are placed beside each other, the requests get these
    replies and leave two composers beside each other. -/
def BothReply (fuel : ℕ) (c d : Composer) (requests : List (Bool × Request))
    (replies : List (Bool × Reply)) : Prop :=
  ∀ p q : PlacedComposer, p.composer = c → q.composer = d →
    Triple (p.cells + q.cells) (serveBoth w s fuel requests p.cell q.cell) fun x m' =>
      ∃ (p' q' : PlacedComposer) (left : Bindings Cell), x = (replies, p'.cell, q'.cell) ∧
        m' = p'.cells + (q'.cells + left)

theorem BothReply.nil (fuel : ℕ) (c d : Composer) : BothReply w s fuel c d [] [] := by
  intro p q _ _
  refine Triple.ret ⟨p, q, 0, rfl, ?_⟩
  rw [add_zero]

variable {c d e : Composer} {request : Request} {reply : Reply}
  {requests : List (Bool × Request)} {replies : List (Bool × Reply)}

theorem BothReply.cons_false (hr : Representation c)
    (hstep : request.step.exec w fuel c s = .ok (reply, e, s))
    (htail : BothReply w s fuel e d requests replies) :
    BothReply w s fuel c d ((false, request) :: requests) ((false, reply) :: replies) := by
  rintro p q rfl hq
  apply Triple.bind ((serves_request w s hr request hstep).frame q.cells)
  rintro _ m' ⟨_, ⟨x, left, rfl, hx, rfl⟩, rfl⟩
  rw [show x.cells + left + q.cells = x.cells + q.cells + left by abel]
  apply Triple.bind ((htail x q hx hq).frame left)
  rintro _ m' ⟨_, ⟨p', q', left', rfl, rfl⟩, rfl⟩
  refine Triple.ret ⟨p', q', left' + left, rfl, ?_⟩
  abel

theorem BothReply.cons_true (hr : Representation d)
    (hstep : request.step.exec w fuel d s = .ok (reply, e, s))
    (htail : BothReply w s fuel c e requests replies) :
    BothReply w s fuel c d ((true, request) :: requests) ((true, reply) :: replies) := by
  rintro p q hp rfl
  rw [add_comm]
  apply Triple.bind ((serves_request w s hr request hstep).frame p.cells)
  rintro _ m' ⟨_, ⟨x, left, rfl, hx, rfl⟩, rfl⟩
  rw [show x.cells + left + p.cells = p.cells + x.cells + left by abel]
  apply Triple.bind ((htail p x hp hx).frame left)
  rintro _ m' ⟨_, ⟨p', q', left', rfl, rfl⟩, rfl⟩
  refine Triple.ret ⟨p', q', left' + left, rfl, ?_⟩
  abel

theorem both_return {c d : Composer} (hc : Representation c) (hd : Representation d)
    (requests : List (Bool × Request)) :
    ∃ (bound : ℕ) (replies : List (Bool × Reply)), ∀ fuel, bound ≤ fuel →
      BothReply w s fuel c d requests replies ∧
      Replies w s fuel c (ofSide false requests) (ofSide false replies) ∧
      Replies w s fuel d (ofSide true requests) (ofSide true replies) := by
  induction requests generalizing c d with
  | nil =>
    exact ⟨0, [], fun fuel _ => ⟨.nil w s fuel c d, .nil w s fuel c, .nil w s fuel d⟩⟩
  | cons first requests ih =>
    obtain ⟨side, request⟩ := first
    cases side with
    | false =>
      obtain ⟨n, reply, e, he, hstep⟩ := request_settles w s hc request
      obtain ⟨m, replies, hrest⟩ := ih he hd
      refine ⟨max n m, (false, reply) :: replies, fun fuel hfuel => ?_⟩
      have hn := hstep fuel (by omega)
      obtain ⟨hboth, hfalse, htrue⟩ := hrest fuel (by omega)
      exact ⟨hboth.cons_false w s hc hn, hfalse.cons w s hc hn, htrue⟩
    | true =>
      obtain ⟨n, reply, e, he, hstep⟩ := request_settles w s hd request
      obtain ⟨m, replies, hrest⟩ := ih hc he
      refine ⟨max n m, (true, reply) :: replies, fun fuel hfuel => ?_⟩
      have hn := hstep fuel (by omega)
      obtain ⟨hboth, hfalse, htrue⟩ := hrest fuel (by omega)
      exact ⟨hboth.cons_true w s hd hn, hfalse, htrue.cons w s hd hn⟩

end Both

theorem Serves.lives {σ : Type} {w : World σ} {s : σ} {fuel : ℕ} {config : Option Cf}
    {h : Heap Cell} {c : PlacedComposer} {frame : Bindings Cell} (hl : Lives config h c.cell)
    (hh : Holds h (c.cells + frame)) {request : Request} {reply : Reply} {d : Composer}
    (hs : Serves c (request.exec w s fuel c.cell) reply d) :
    ∃ h' b, Lives config h' b ∧ Placed h' b d := by
  obtain ⟨_, h', _, hrun, hh', e, left, rfl, he, rfl⟩ := hs h frame hh
  rw [add_assoc] at hh'
  exact ⟨h', e.cell, hl.request hrun, e, left + frame, rfl, he, hh'⟩

theorem exists_request {σ : Type} {w : World σ} {fuel : ℕ} {op : Op} {c d : Composer} {s t : σ}
    {r : Reply} (h : op.exec w fuel c s = .ok (r, d, t)) :
    ∃ (request : Request) (reply : Reply) (t' : σ),
      request.step.exec w fuel c s = .ok (reply, d, t') := by
  cases op with
  | set name value => exact ⟨.set name value, r, t, h⟩
  | setInt name value => exact ⟨.setInt name value, r, t, h⟩
  | add name value => exact ⟨.add name value, r, t, h⟩
  | addInt name value => exact ⟨.addInt name value, r, t, h⟩
  | next => exact ⟨.next, r, t, h⟩
  | done => exact ⟨.done, r, t, h⟩
  | rewind => exact ⟨.rewind, r, t, h⟩
  | eval name => exact ⟨.eval name, r, t, h⟩
  | yield => exact ⟨.yield, r, t, h⟩
  | find => exact ⟨.find, r, t, h⟩
  | mkdir =>
    rw [mkdir_composer h]
    exact ⟨.yield, _, s, rfl⟩

theorem reachable_lives {config : Option Cf} {c : Composer} (hc : Reachable config c) :
    ∃ h a, Lives config h a ∧ Placed h a c := by
  induction hc with
  | new hnew =>
    obtain ⟨_, h', _, hrun, hh', d, rfl, hd, rfl⟩ := triple_new hnew Heap.empty 0 (holds_zero _)
    exact ⟨h', d.cell, .new hrun, d, 0, rfl, hd, hh'⟩
  | clone hc hclone ih =>
    obtain ⟨h, _, hl, p, frame, rfl, rfl, hh⟩ := ih
    have hstep : Request.clone.step.exec failingWorld 0 p.composer () = .ok (.void, _, ()) :=
      congrArg (replyVoid ()) hclone
    exact (serves_request failingWorld () hc.representation .clone hstep).lives hl hh
  | call hc hcall ih =>
    obtain ⟨h, _, hl, p, frame, rfl, rfl, hh⟩ := ih
    obtain ⟨request, reply, t', hstep⟩ := exists_request hcall
    exact (serves_request _ _ hc.representation request hstep).lives hl hh

theorem reachable_step {σ : Type} {w : World σ} {fuel : ℕ} {config : Option Cf} {c d : Composer}
    {s t : σ} {reply : Reply} (hc : Reachable config c) {step : Step}
    (h : step.exec w fuel c s = .ok (reply, d, t)) : Reachable config d := by
  cases step with
  | call op => exact hc.call h
  | clone => exact hc.clone (replyVoid_ok h)

theorem lives_placed {config : Option Cf} {h : Heap Cell} {a : ℕ} (hl : Lives config h a) :
    ∃ c, Reachable config c ∧ Placed h a c := by
  induction hl with
  | @new h h' depth a name hnew =>
    cases hpure : pathcompNew config depth name with
    | error halt =>
      rw [new_halts hpure] at hnew
      cases hnew
    | ok c =>
      obtain ⟨_, _, _, hrun, hh', d, rfl, hd, rfl⟩ := triple_new hpure h 0 (holds_zero h)
      rw [hrun] at hnew
      cases hnew
      exact ⟨c, .new hpure, d, 0, rfl, hd, hh'⟩
  | @request σ w s fuel a b request reply h h' ha hexec ih =>
    obtain ⟨_, hc, p, frame, rfl, rfl, hh⟩ := ih
    cases hstep : request.step.exec w fuel p.composer s with
    | error halt =>
      rw [request_halts w s hc.representation request hstep hh] at hexec
      cases hexec
    | ok x =>
      obtain ⟨reply', d, t⟩ := x
      obtain ⟨_, _, _, hrun, hh', e, left, rfl, he, rfl⟩ :=
        serves_request w s hc.representation request hstep h frame hh
      rw [hrun] at hexec
      cases hexec
      rw [add_assoc] at hh'
      exact ⟨d, reachable_step hc hstep, e, left + frame, rfl, he, hh'⟩

theorem Replies.answers {σ : Type} {w : World σ} {s : σ} {fuel : ℕ} {c : PlacedComposer}
    {requests : List Request} {replies : List Reply}
    (hr : Replies w s fuel c.composer requests replies) {h : Heap Cell} {frame : Bindings Cell}
    (hh : Holds h (c.cells + frame)) : Answers w s fuel h c.cell requests replies := by
  obtain ⟨⟨_, b⟩, h', _, hrun, _, rfl⟩ := hr c rfl h frame hh
  exact ⟨b, h', hrun⟩

/-- The composers in memory are the reachable ones. Wherever such a composer is, its
    clone shares no cell with it. The same requests on the composer, before and after it
    is cloned, and on its clone get the same replies. Requests on the two in any order get
    the replies that the requests on each alone get, and no cell is shared afterwards. -/
theorem clone_indistinguishable {σ : Type} (w : World σ) (s : σ) (config : Option Cf) :
    (∀ h a, Lives config h a → ∃ c, Reachable config c ∧ Placed h a c) ∧
    ∀ c, Reachable config c → (∃ h a, Lives config h a ∧ Placed h a c) ∧
      ∀ h a, Placed h a c → ∃ b h', Memory.pathcompClone a h = .ok (b, h') ∧
      Separate h' a b ∧
        (∀ requests : List Request, ∃ (bound : ℕ) (replies : List Reply), ∀ fuel,
          bound ≤ fuel →
          Answers w s fuel h a requests replies ∧ Answers w s fuel h' a requests replies ∧
          Answers w s fuel h' b requests replies) ∧
        ∀ requests : List (Bool × Request), ∃ bound : ℕ, ∀ fuel, bound ≤ fuel →
          ∃ replies a' b' h'', serveBoth w s fuel requests a b h' =
            .ok ((replies, a', b'), h'') ∧
            Separate h'' a' b' ∧
            Answers w s fuel h' a (ofSide false requests) (ofSide false replies) ∧
            Answers w s fuel h' b (ofSide true requests) (ofSide true replies) := by
  refine ⟨fun h a => lives_placed, fun c hc => ⟨reachable_lives hc, ?_⟩⟩
  rintro h _ ⟨p, frame, rfl, rfl, hh⟩
  have hr := hc.representation
  obtain ⟨_, h', _, hclone, hh', q, rfl, hq, rfl⟩ := triple_clone p hr.atts h frame hh
  have hp' : Holds h' (p.cells + (q.cells + frame)) := by
    rwa [show p.cells + (q.cells + frame) = q.cells + p.cells + frame by abel]
  have hq' : Holds h' (q.cells + (p.cells + frame)) := by
    rwa [← add_assoc]
  refine ⟨q.cell, h', hclone, separate_of_holds hp', fun requests => ?_, fun requests => ?_⟩
  · obtain ⟨bound, replies, hreplies⟩ := both_return w s hr hr (requests.map (Prod.mk false))
    rw [ofSide_map] at hreplies
    refine ⟨bound, ofSide false replies, fun fuel hfuel => ?_⟩
    obtain ⟨_, hanswers, _⟩ := hreplies fuel hfuel
    refine ⟨hanswers.answers hh, hanswers.answers hp', ?_⟩
    rw [← hq] at hanswers
    exact hanswers.answers hq'
  · obtain ⟨bound, replies, hreplies⟩ := both_return w s hr hr requests
    refine ⟨bound, fun fuel hfuel => ?_⟩
    obtain ⟨hboth, hfalse, htrue⟩ := hreplies fuel hfuel
    obtain ⟨_, h'', _, hrun, hh'', p', q', left, rfl, rfl⟩ :=
      hboth p q rfl hq h' frame (by rwa [add_assoc])
    refine ⟨replies, p'.cell, q'.cell, h'', hrun, ?_, hfalse.answers hp', ?_⟩
    · rw [add_assoc, add_assoc] at hh''
      exact separate_of_holds hh''
    · rw [← hq] at htrue
      exact htrue.answers hq'

theorem clone_indistinguishable_colormap : ∃ h a b h',
    Placed h a colormapComposer ∧ Memory.pathcompClone a h = .ok (b, h') ∧ Separate h' a b ∧
    ∃ bound replies, ∀ fuel, bound ≤ fuel →
      Answers failingWorld () fuel h' a [.next, .find, .clone, .eval attRoot] replies ∧
      Answers failingWorld () fuel h' b [.next, .find, .clone, .eval attRoot] replies := by
  obtain ⟨_, hreachable⟩ := clone_indistinguishable failingWorld () (some colormapConfig)
  obtain ⟨⟨h, a, _, ha⟩, hclones⟩ := hreachable colormapComposer colormap_reachable
  obtain ⟨b, h', hclone, hseparate, hsame, _⟩ := hclones h a ha
  obtain ⟨bound, replies, hreplies⟩ := hsame [.next, .find, .clone, .eval attRoot]
  exact ⟨h, a, b, h', ha, hclone, hseparate, bound, replies, fun fuel hfuel =>
    ⟨(hreplies fuel hfuel).2.1, (hreplies fuel hfuel).2.2⟩⟩

end Pathcomp.Clones
