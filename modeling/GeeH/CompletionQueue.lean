import GeeH.Rules
import Mathlib.Data.Fintype.Basic
import Mathlib.Logic.Function.Basic

/-!
# GeeH.CompletionQueue — `gh/detail/base_completion_queue.cpp`

The operations of a completion queue, and the threads that execute its `run()`.

* An operation is made by `create_op()`, stored in `pending_ops_` by
  `register_op()` and posted by the interceptor, once each and in this order. The
  calls that do so come from any thread, also from one that is inside a callback,
  and their steps are interleaved with all others.
* The tag of an operation is its address, and addresses are used again. So
  operations are known by a number here, in the order in which they were made, and
  `pending_ops_` maps addresses to numbers.
* gRPC reports each posted tag at most once. It may also report a tag that nobody
  posted, a null pointer among them.
-/

namespace GeeH.CompletionQueue

/-- An address, cast to `std::intptr_t`. -/
abbrev Tag := Int64

/-- `base_async_op`, and what became of it. -/
structure Op where
  address : Tag := 0
  /-- A `shared_ptr` outside of the queue: that of the call that made it, or the application's. -/
  held : Bool := false
  registered : Bool := false
  posted : Bool := false
  /-- The flag that was reported for its tag. -/
  reported : Option Bool := none
deriving DecidableEq

/-- Where in `run()` a thread is. -/
inductive Thread where
  | outside
  /-- Before it loads `shutdown_`. -/
  | looping
  /-- In `AsyncNext()`. -/
  | waiting
  /-- A tag and a flag were reported to it, for the operation `source` if for any. -/
  | fetched (tag : Tag) (ok : Bool) (source : Option Nat)
  /-- `unregister_op()` returned an operation. -/
  | found (op : Nat) (ok : Bool)
  /-- In the callback. -/
  | calling (op : Nat)
deriving DecidableEq

/-- What a thread has to do for an operation before it calls its callback. -/
inductive Task where
  | fetched (tag : Tag) (ok : Bool)
  | found (ok : Bool)
deriving DecidableEq

namespace Thread

/-- The operation that `op` points to in `run()`. -/
def op : Thread → Option Nat
  | .found i _ => some i
  | .calling i => some i
  | .outside | .looping | .waiting | .fetched _ _ _ => none

/-- What is left to do, and for which operation. -/
def task : Thread → Option (Nat × Task)
  | .fetched tag ok (some i) => some (i, .fetched tag ok)
  | .found i ok => some (i, .found ok)
  | .outside | .looping | .waiting | .fetched _ _ none | .calling _ => none

/-- The tag that it has, if that was reported for no operation. -/
def spurious : Thread → Option Tag
  | .fetched tag _ none => some tag
  | .outside | .looping | .waiting | .fetched _ _ (some _) | .found _ _ | .calling _ => none

theorem task_eq_found {th : Thread} {i : Nat} {ok : Bool} :
    th.task = some (i, .found ok) ↔ th = .found i ok := by
  cases th with
  | fetched tag ok' source => cases source <;> simp [task]
  | _ => simp [task]

end Thread

end GeeH.CompletionQueue

namespace GeeH

open Machine CompletionQueue

/-- `base_completion_queue`, with its operations and the executions `ι` of `run()`. -/
structure CompletionQueue (ι : Type) where
  pendingOps : Tag → Option Nat := fun _ => none
  shutdown : Bool := false
  /-- How many operations were made. -/
  made : Nat := 0
  ops : Nat → Op := fun _ => {}
  threads : ι → Thread := fun _ => .outside
  /-- The callbacks invoked, with their flags. -/
  invoked : List (Nat × Bool) := []
  /-- The assertion of `register_op()` fired. -/
  asserted : Bool := false

namespace CompletionQueue

variable {ι : Type}

/-- The steps of `run()` on a thread, and those of everybody else. -/
inductive Act (ι : Type) where
  | createOp (address : Tag)
  | registerOp (i : Nat)
  | post (i : Nat)
  | release (i : Nat)
  | shutdown
  | run (w : ι)
  /-- `while (not shutdown_.load())`. -/
  | loop (w : ι)
  | nextShutdown (w : ι)
  | nextTimeout (w : ι)
  | nextEvent (w : ι) (i : Nat) (ok : Bool)
  | nextSpurious (w : ι) (tag : Tag) (ok : Bool)
  | lookup (w : ι)
  | call (w : ι)
  | returned (w : ι)
  | threw (w : ι)
deriving DecidableEq

section Operations

variable [DecidableEq ι] (s : CompletionQueue ι)

def setOp (i : Nat) (o : Op) : CompletionQueue ι :=
  { s with ops := Function.update s.ops i o }

def setThread (w : ι) (th : Thread) : CompletionQueue ι :=
  { s with threads := Function.update s.threads w th }

/-- `create_op()`: the callback and the name are those of its caller. -/
def createOp (address : Tag) : CompletionQueue ι :=
  { s with
    made := s.made + 1
    ops := Function.update s.ops s.made { address := address, held := true } }

/-- `register_op()`. -/
def registerOp (i : Nat) : CompletionQueue ι :=
  let key := (s.ops i).address
  match s.pendingOps key with
  | some _ => { s with asserted := true }
  | none =>
    { s with
      pendingOps := Function.update s.pendingOps key (some i)
      ops := Function.update s.ops i { s.ops i with registered := true } }

def erase (tag : Tag) : CompletionQueue ι :=
  { s with pendingOps := Function.update s.pendingOps tag none }

/-- `unregister_op()`. -/
def unregisterOp (tag : Tag) : Option Nat × CompletionQueue ι :=
  match s.pendingOps tag with
  | some i => (some i, s.erase tag)
  | none => (none, s)

/-- The body of the loop in `run()`, from the reported tag to the callback. -/
def dispatch (w : ι) (tag : Tag) (ok : Bool) : CompletionQueue ι :=
  if tag = 0 then s.setThread w .looping
  else match s.unregisterOp tag with
    | (some i, s') => s'.setThread w (.found i ok)
    | (none, s') => s'.setThread w .looping

/-- One step. -/
def step : Act ι → Option (CompletionQueue ι)
  | .createOp address => if address = 0 then none else some (s.createOp address)
  | .registerOp i =>
    if (s.ops i).held ∧ ¬ (s.ops i).registered then some (s.registerOp i) else none
  | .post i =>
    if (s.ops i).held ∧ (s.ops i).registered ∧ ¬ (s.ops i).posted then
      some (s.setOp i { s.ops i with posted := true })
    else none
  | .release i =>
    if (s.ops i).held then some (s.setOp i { s.ops i with held := false }) else none
  | .shutdown => some { s with shutdown := true }
  | .run w => if s.threads w = .outside then some (s.setThread w .looping) else none
  | .loop w =>
    if s.threads w = .looping then
      some (s.setThread w (if s.shutdown then .outside else .waiting))
    else none
  | .nextShutdown w =>
    if s.threads w = .waiting ∧ s.shutdown then some (s.setThread w .outside) else none
  | .nextTimeout w =>
    if s.threads w = .waiting then some (s.setThread w .looping) else none
  | .nextEvent w i ok =>
    if s.threads w = .waiting ∧ (s.ops i).posted ∧ (s.ops i).reported = none then
      some ((s.setOp i { s.ops i with reported := some ok }).setThread w
        (.fetched (s.ops i).address ok (some i)))
    else none
  | .nextSpurious w tag ok =>
    if s.threads w = .waiting then some (s.setThread w (.fetched tag ok none)) else none
  | .lookup w =>
    match s.threads w with
    | .fetched tag ok _ => some (s.dispatch w tag ok)
    | .outside | .looping | .waiting | .found _ _ | .calling _ => none
  | .call w =>
    match s.threads w with
    | .found i ok =>
      some { s.setThread w (.calling i) with invoked := s.invoked ++ [(i, ok)] }
    | .outside | .looping | .waiting | .fetched _ _ _ | .calling _ => none
  | .returned w =>
    match s.threads w with
    | .calling _ => some (s.setThread w .looping)
    | .outside | .looping | .waiting | .fetched _ _ _ | .found _ _ => none
  -- nothing catches what a callback throws
  | .threw w =>
    match s.threads w with
    | .calling _ => some (s.setThread w .outside)
    | .outside | .looping | .waiting | .fetched _ _ _ | .found _ _ => none

end Operations

/-- A queue, any operations on it, and any number of threads. -/
def machine (ι : Type) [DecidableEq ι] : Machine (CompletionQueue ι) (Act ι) where
  Init s := s = {}
  step := step

variable {s s' : CompletionQueue ι} {i : Nat} {w : ι} {tag : Tag} {ok : Bool}

/-- Somebody has a `shared_ptr` to the operation. -/
def Live (s : CompletionQueue ι) (i : Nat) : Prop :=
  i < s.made ∧
    ((s.ops i).held ∨ s.pendingOps (s.ops i).address = some i ∨ ∃ w, (s.threads w).op = some i)

/-- An operation is made at an address that no live operation has, and a tag that was reported
for no operation is null, or unknown where it is looked up. -/
def Assumed (s : CompletionQueue ι) : Act ι → Prop
  | .createOp address => ∀ i < s.made, s.Live i → (s.ops i).address ≠ address
  | .lookup w => ∀ tag ∈ (s.threads w).spurious, tag ≠ 0 → s.pendingOps tag = none
  | .registerOp _ | .post _ | .release _ | .shutdown | .run _ | .loop _ | .nextShutdown _
  | .nextTimeout _ | .nextEvent _ _ _ | .nextSpurious _ _ _ | .call _ | .returned _ | .threw _ =>
    True

instance [Fintype ι] (s : CompletionQueue ι) (i : Nat) : Decidable (s.Live i) :=
  inferInstanceAs (Decidable (_ ∧ _))

instance [Fintype ι] (s : CompletionQueue ι) : DecidablePred s.Assumed
  | .createOp _ => inferInstanceAs (Decidable (∀ i < s.made, _ → _))
  | .lookup w => Option.decidableForallMem (s.threads w).spurious
  | .registerOp _ | .post _ | .release _ | .shutdown | .run _ | .loop _ | .nextShutdown _
  | .nextTimeout _ | .nextEvent _ _ _ | .nextSpurious _ _ _ | .call _ | .returned _ | .threw _ =>
    inferInstanceAs (Decidable True)

/-- The flags with which the callback of an operation was invoked. -/
def calls (s : CompletionQueue ι) (i : Nat) : List Bool :=
  (s.invoked.filter (·.1 = i)).map (·.2)

/-! ## The stages of an operation -/

/-- How far an operation has come. -/
inductive Stage (ι : Type) where
  | created
  | pending
  | fetched (w : ι) (ok : Bool)
  | found (w : ι) (ok : Bool)
  | called (ok : Bool)

namespace Stage

/-- It is in `pending_ops_`. -/
def isPending : Stage ι → Bool
  | .pending | .fetched _ _ => true
  | .created | .found _ _ | .called _ => false

def isRegistered : Stage ι → Bool
  | .created => false
  | .pending | .fetched _ _ | .found _ _ | .called _ => true

/-- The flag that was reported for it. -/
def reported : Stage ι → Option Bool
  | .fetched _ ok | .found _ ok | .called ok => some ok
  | .created | .pending => none

/-- The flags with which its callback was invoked. -/
def calls : Stage ι → List Bool
  | .called ok => [ok]
  | .created | .pending | .fetched _ _ | .found _ _ => []

/-- The thread that has something to do for it. -/
def task (address : Tag) : Stage ι → Option (ι × Task)
  | .fetched w ok => some (w, .fetched address ok)
  | .found w ok => some (w, .found ok)
  | .created | .pending | .called _ => none

end Stage

variable {st : Stage ι}

/-- The stage of an operation accounts for everything that the queue and its threads have of it. -/
structure Describes (s : CompletionQueue ι) (i : Nat) (st : Stage ι) : Prop where
  pending : ∀ tag, s.pendingOps tag = some i ↔ st.isPending ∧ tag = (s.ops i).address
  tasks : ∀ w k, (s.threads w).task = some (i, k) ↔
    st.task (s.ops i).address = some (w, k)
  calls : s.calls i = st.calls
  registered : (s.ops i).registered = st.isRegistered
  reported : (s.ops i).reported = st.reported
  posted : (s.ops i).posted → (s.ops i).registered

/-- Every operation has its stage, the live ones have different addresses, and the assertion did
not fire. -/
structure Inv (s : CompletionQueue ι) : Prop where
  stage : ∀ i, ∃ st, s.Describes i st
  distinct : ∀ i j, s.Live i → s.Live j → (s.ops i).address = (s.ops j).address → i = j
  fresh : ∀ i, s.made ≤ i → s.ops i = {}
  address : ∀ i < s.made, (s.ops i).address ≠ 0
  asserted : s.asserted = false

theorem inv_init : Inv ({} : CompletionQueue ι) where
  stage i := ⟨.created, by simp [Stage.isPending], by simp [Thread.task, Stage.task], rfl, rfl, rfl,
    by simp⟩
  distinct i j hi := by cases Nat.not_lt_zero i hi.1
  fresh i _ := rfl
  address i hi := by cases Nat.not_lt_zero i hi
  asserted := rfl

theorem Inv.lt_made (h : s.Inv) (ho : s.ops i ≠ {}) : i < s.made := by
  by_contra hge
  exact ho (h.fresh i (Nat.le_of_not_lt hge))

theorem Inv.lt_of_registered (h : s.Inv) (hreg : (s.ops i).registered) : i < s.made := by
  apply h.lt_made
  intro ho
  rw [ho] at hreg
  cases hreg

theorem Inv.lt_of_held (h : s.Inv) (hheld : (s.ops i).held) : i < s.made := by
  apply h.lt_made
  intro ho
  rw [ho] at hheld
  cases hheld

/-- `register_op()` finds the address free. -/
theorem Inv.unused (h : s.Inv) (hheld : (s.ops i).held) (hreg : ¬ (s.ops i).registered) :
    s.pendingOps (s.ops i).address = none := by
  rw [Option.eq_none_iff_forall_ne_some]
  intro j hj
  obtain ⟨st, hst⟩ := h.stage j
  obtain ⟨hpending, haddr⟩ := (hst.pending _).mp hj
  have hreg' : (s.ops j).registered := by
    rw [hst.registered]
    cases st <;> simp_all [Stage.isPending, Stage.isRegistered]
  -- both are live, and at the same address
  have hlive : s.Live i := ⟨h.lt_of_held hheld, Or.inl hheld⟩
  have hlive' : s.Live j := ⟨h.lt_of_registered hreg', Or.inr (Or.inl (haddr ▸ hj))⟩
  obtain rfl := h.distinct i j hlive hlive' haddr
  exact hreg hreg'

theorem Describes.frame (h : s.Describes i st) (hop : s'.ops i = s.ops i)
    (hpending : ∀ tag, s'.pendingOps tag = some i ↔ s.pendingOps tag = some i)
    (htasks : ∀ w k, (s'.threads w).task = some (i, k) ↔ (s.threads w).task = some (i, k))
    (hcalls : s'.calls i = s.calls i) : s'.Describes i st where
  pending tag := by
    rw [hop]
    exact (hpending tag).trans (h.pending tag)
  tasks w k := by
    rw [hop]
    exact (htasks w k).trans (h.tasks w k)
  calls := hcalls.trans h.calls
  registered := by rw [hop, h.registered]
  reported := by rw [hop, h.reported]
  posted := by rw [hop]; exact h.posted

/-- Nobody is at work for an operation that is not registered. -/
theorem Describes.created (h : s.Describes i st) (hreg : ¬ (s.ops i).registered) :
    st = .created := by
  rw [h.registered] at hreg
  cases st with
  | created => rfl
  | _ => exact absurd rfl hreg

theorem calls_append (hinv : s'.invoked = s.invoked ++ [(i, ok)]) (j : Nat) :
    s'.calls j = s.calls j ++ if i = j then [ok] else [] := by
  simp only [calls, hinv, List.filter_append, List.map_append, List.filter_cons, List.filter_nil]
  by_cases h : i = j <;> simp [h]

section Stages

variable {j : Nat} (h : s.Describes j st)
include h

theorem Describes.create (hinv : s.Inv) (address : Tag) :
    ∃ st', (s.createOp address).Describes j st' := by
  by_cases hj : j = s.made
  · subst hj
    obtain rfl := h.created (by simp [hinv.fresh s.made le_rfl])
    refine ⟨.created, ?_, ?_, h.calls, ?_, ?_, ?_⟩
    · simpa [createOp, Stage.isPending] using h.pending
    · simpa [createOp, Stage.task] using h.tasks
    all_goals simp [createOp, Stage.isRegistered, Stage.reported]
  · exact ⟨st, h.frame (Function.update_of_ne hj _ _) (fun _ => Iff.rfl) (fun _ _ => Iff.rfl) rfl⟩

theorem Describes.register (hreg : ¬ (s.ops i).registered) :
    ∃ st', (s.registerOp i).Describes j st' := by
  simp only [registerOp]
  split
  · exact ⟨st, h.frame rfl (fun _ => Iff.rfl) (fun _ _ => Iff.rfl) rfl⟩
  rename_i hkey
  by_cases hj : j = i
  · subst hj
    obtain rfl := h.created hreg
    refine ⟨.pending, ?_, ?_, h.calls, ?_, ?_, ?_⟩
    · intro tag
      by_cases htag : tag = (s.ops j).address
      · subst htag
        simp [Stage.isPending]
      · have hnot := h.pending tag
        simp_all [Stage.isPending]
    · simpa [Stage.task] using h.tasks
    · simp [Stage.isRegistered]
    · simpa [Stage.reported] using h.reported
    · simp
  · refine ⟨st, h.frame (Function.update_of_ne hj _ _) ?_ (fun _ _ => Iff.rfl) rfl⟩
    intro tag
    by_cases htag : tag = (s.ops i).address
    · subst htag
      simp [hkey, Ne.symm hj]
    · simp [Function.update_of_ne htag]

theorem Describes.mark {held posted : Bool}
    (hposted : posted → (s.ops i).posted ∨ (s.ops i).registered) :
    (s.setOp i { s.ops i with held := held, posted := posted }).Describes j st := by
  by_cases hj : j = i
  · subst hj
    constructor
    · simpa [setOp] using h.pending
    · simpa [setOp] using h.tasks
    · exact h.calls
    · simpa [setOp] using h.registered
    · simpa [setOp] using h.reported
    · simp only [setOp, Function.update_self]
      intro hp
      exact (hposted hp).elim h.posted id
  · exact h.frame (Function.update_of_ne hj _ _) (fun _ => Iff.rfl) (fun _ _ => Iff.rfl) rfl

end Stages

/-! ## Addresses -/

/-- An operation that was there keeps its address, and it is held by no more than before. -/
def Kept (s s' : CompletionQueue ι) : Prop :=
  s'.made = s.made ∧ ∀ j, s'.ops j = s.ops j ∨
    j < s.made ∧ (s'.ops j).address = (s.ops j).address ∧ ((s'.ops j).held → (s.ops j).held)

theorem kept_of_update {o : Op} (hmade : s'.made = s.made)
    (hops : s'.ops = Function.update s.ops i o) (hi : i < s.made)
    (haddr : o.address = (s.ops i).address) (hheld : o.held → (s.ops i).held) : Kept s s' := by
  refine ⟨hmade, ?_⟩
  intro j
  rw [hops]
  by_cases hj : j = i
  · subst hj
    rw [Function.update_self]
    exact Or.inr ⟨hi, haddr, hheld⟩
  · exact Or.inl (Function.update_of_ne hj _ _)

theorem kept_of_eq (hmade : s'.made = s.made) (hops : s'.ops = s.ops) : Kept s s' :=
  ⟨hmade, fun j => Or.inl (congrFun hops j)⟩

theorem Kept.address (hk : Kept s s') (j : Nat) : (s'.ops j).address = (s.ops j).address := by
  rcases hk.2 j with h | h
  · rw [h]
  · exact h.2.1

theorem Kept.held {j : Nat} (hk : Kept s s') (hheld : (s'.ops j).held) : (s.ops j).held := by
  rcases hk.2 j with h | h
  · rwa [← h]
  · exact h.2.2 hheld

/-- Where nobody gets hold of an operation that was not live, none becomes live. -/
theorem Kept.live {j : Nat} (hk : Kept s s')
    (hpending : j < s.made → s'.pendingOps (s.ops j).address = some j → s.Live j)
    (hthreads : j < s.made → ∀ w, (s'.threads w).op = some j → s.Live j) (hlive : s'.Live j) :
    s.Live j := by
  obtain ⟨hlt, hheld | hpend | ⟨w, hw⟩⟩ := hlive
  · exact ⟨hk.1 ▸ hlt, Or.inl (hk.held hheld)⟩
  · rw [hk.address] at hpend
    exact hpending (hk.1 ▸ hlt) hpend
  · exact hthreads (hk.1 ▸ hlt) w hw

/-- `register_op()` makes nobody live who was not: the operation is held already. -/
theorem Inv.live_register (h : s.Inv) (hheld : (s.ops i).held) (hreg : ¬ (s.ops i).registered) :
    Kept s (s.registerOp i) ∧ ∀ j, (s.registerOp i).Live j → s.Live j := by
  have hlt := h.lt_of_held hheld
  simp only [registerOp, h.unused hheld hreg]
  have hk : Kept s { s with
      pendingOps := Function.update s.pendingOps (s.ops i).address (some i)
      ops := Function.update s.ops i { s.ops i with registered := true } } :=
    kept_of_update rfl rfl hlt rfl id
  refine ⟨hk, ?_⟩
  intro j
  refine hk.live ?_ (fun hlt w hw => ⟨hlt, Or.inr (Or.inr ⟨w, hw⟩)⟩)
  intro hlt' hp
  by_cases hj : j = i
  · subst hj
    exact ⟨hlt, Or.inl hheld⟩
  · refine ⟨hlt', Or.inr (Or.inl ?_)⟩
    by_cases haddr : (s.ops j).address = (s.ops i).address
    · simp only [haddr, Function.update_self] at hp
      exact absurd (Option.some.inj hp).symm hj
    · simpa [Function.update_of_ne haddr] using hp

/-- The operation that a thread has found is live by that alone. -/
theorem Inv.live_found (h : s.Inv) (hw : s.threads w = .found i ok) : s.Live i := by
  obtain ⟨st, hst⟩ := h.stage i
  have htask := (hst.tasks w (.found ok)).mp (by rw [hw]; rfl)
  have hreg : (s.ops i).registered := by
    rw [hst.registered]
    cases st <;> simp_all [Stage.task, Stage.isRegistered]
  exact ⟨h.lt_of_registered hreg, Or.inr (Or.inr ⟨w, by rw [hw]; rfl⟩)⟩

variable [DecidableEq ι]

/-! ## Steps -/

/-- What a step can do. -/
inductive Effect (s : CompletionQueue ι) : Act ι → CompletionQueue ι → Prop where
  | create (address : Tag) (h : address ≠ 0) : Effect s (.createOp address) (s.createOp address)
  | register (i : Nat) (hheld : (s.ops i).held) (hreg : ¬ (s.ops i).registered) :
      Effect s (.registerOp i) (s.registerOp i)
  /-- The operation is posted, or it is released. -/
  | mark (a : Act ι) (i : Nat) (held posted : Bool) (hheld : (s.ops i).held)
      (hposted : posted → (s.ops i).posted ∨ (s.ops i).registered) :
      Effect s a (s.setOp i { s.ops i with held := held, posted := posted })
  | shutdown : Effect s .shutdown { s with shutdown := true }
  /-- The thread goes on, and it is not for an operation. -/
  | idle (a : Act ι) (w : ι) (th : Thread) (htask : (s.threads w).task = none)
      (htask' : th.task = none) (hop : th.op = none) : Effect s a (s.setThread w th)
  | report (w : ι) (i : Nat) (ok : Bool) (hw : s.threads w = .waiting)
      (hposted : (s.ops i).posted) (hrep : (s.ops i).reported = none) :
      Effect s (.nextEvent w i ok) ((s.setOp i { s.ops i with reported := some ok }).setThread w
        (.fetched (s.ops i).address ok (some i)))
  | lookup (w : ι) (tag : Tag) (ok : Bool) (source : Option Nat)
      (hw : s.threads w = .fetched tag ok source) :
      Effect s (.lookup w) (s.dispatch w tag ok)
  | call (w : ι) (i : Nat) (ok : Bool) (hw : s.threads w = .found i ok) :
      Effect s (.call w)
        { s.setThread w (.calling i) with invoked := s.invoked ++ [(i, ok)] }

theorem step_effect {a : Act ι} (hstep : s.step a = some s') : s.Effect a s' := by
  cases a with
  | createOp address =>
    obtain ⟨h, ⟨⟩⟩ := Option.ite_none_left_eq_some.mp hstep
    exact .create address h
  | registerOp i =>
    obtain ⟨h, ⟨⟩⟩ := Option.ite_none_right_eq_some.mp hstep
    exact .register i h.1 h.2
  | post i =>
    obtain ⟨h, ⟨⟩⟩ := Option.ite_none_right_eq_some.mp hstep
    exact .mark _ i _ true h.1 (fun _ => Or.inr h.2.1)
  | release i =>
    obtain ⟨h, ⟨⟩⟩ := Option.ite_none_right_eq_some.mp hstep
    exact .mark _ i false _ h Or.inl
  | shutdown =>
    cases hstep
    exact .shutdown
  | run w =>
    obtain ⟨h, ⟨⟩⟩ := Option.ite_none_right_eq_some.mp hstep
    exact .idle _ w _ (by rw [h]; rfl) rfl rfl
  | loop w =>
    obtain ⟨h, ⟨⟩⟩ := Option.ite_none_right_eq_some.mp hstep
    refine .idle _ w _ (by rw [h]; rfl) ?_ ?_
    · split <;> rfl
    · split <;> rfl
  | nextShutdown w =>
    obtain ⟨h, ⟨⟩⟩ := Option.ite_none_right_eq_some.mp hstep
    exact .idle _ w _ (by rw [h.1]; rfl) rfl rfl
  | nextTimeout w =>
    obtain ⟨h, ⟨⟩⟩ := Option.ite_none_right_eq_some.mp hstep
    exact .idle _ w _ (by rw [h]; rfl) rfl rfl
  | nextEvent w i ok =>
    obtain ⟨h, ⟨⟩⟩ := Option.ite_none_right_eq_some.mp hstep
    exact .report w i ok h.1 h.2.1 h.2.2
  | nextSpurious w tag ok =>
    obtain ⟨h, ⟨⟩⟩ := Option.ite_none_right_eq_some.mp hstep
    exact .idle _ w _ (by rw [h]; rfl) rfl rfl
  | lookup w =>
    simp only [step] at hstep
    split at hstep
    · rename_i tag ok source h
      cases hstep
      exact .lookup w tag ok source h
    all_goals cases hstep
  | call w =>
    simp only [step] at hstep
    split at hstep
    · rename_i i ok h
      cases hstep
      exact .call w i ok h
    all_goals cases hstep
  | returned w =>
    simp only [step] at hstep
    split at hstep
    · rename_i i h
      cases hstep
      exact .idle _ w _ (by rw [h]; rfl) rfl rfl
    all_goals cases hstep
  | threw w =>
    simp only [step] at hstep
    split at hstep
    · rename_i i h
      cases hstep
      exact .idle _ w _ (by rw [h]; rfl) rfl rfl
    all_goals cases hstep

/-! ## The stages along a step -/

section Threads

variable {th : Thread}

theorem task_update_of_ne (hfrom : ∀ k, (s.threads w).task ≠ some (i, k))
    (hto : ∀ k, th.task ≠ some (i, k)) (v : ι) (k : Task) :
    (Function.update s.threads w th v).task = some (i, k) ↔ (s.threads v).task = some (i, k) := by
  by_cases hv : v = w
  · subst hv
    rw [Function.update_self]
    exact iff_of_false (hto k) (hfrom k)
  · rw [Function.update_of_ne hv]

/-- A thread takes over what it alone had to do. -/
theorem task_update (hothers : ∀ v k, (s.threads v).task = some (i, k) → v = w) (v : ι)
    (k : Task) :
    (Function.update s.threads w th v).task = some (i, k) ↔ v = w ∧ th.task = some (i, k) := by
  by_cases hv : v = w
  · subst hv
    simp
  · rw [Function.update_of_ne hv]
    exact iff_of_false (fun h => hv (hothers v k h)) (fun h => hv h.1)

end Threads

/-- What `run()` makes of a reported tag: one that was reported for no operation is skipped, and
any other leads to the operation it was reported for. -/
theorem Inv.dispatch {source : Option Nat} (h : s.Inv)
    (hw : s.threads w = .fetched tag ok source)
    (hunknown : source = none → tag ≠ 0 → s.pendingOps tag = none) :
    (source = none ∧ s.dispatch w tag ok = s.setThread w .looping) ∨
    ∃ i, source = some i ∧ s.Describes i (.fetched w ok) ∧ tag = (s.ops i).address ∧
      s.dispatch w tag ok = (s.erase tag).setThread w (.found i ok) := by
  cases source with
  | none =>
    refine Or.inl ⟨rfl, ?_⟩
    -- a null pointer is not looked up, and an unknown tag is not found
    by_cases htag : tag = 0
    · simp [CompletionQueue.dispatch, htag]
    · simp [CompletionQueue.dispatch, unregisterOp, htag, hunknown rfl htag]
  | some i =>
    refine Or.inr ⟨i, rfl, ?_⟩
    obtain ⟨st, hst⟩ := h.stage i
    have htask := (hst.tasks w (.fetched tag ok)).mp (by rw [hw]; rfl)
    -- the tag that a thread has for an operation is the address of the operation
    obtain ⟨rfl, rfl⟩ : st = .fetched w ok ∧ tag = (s.ops i).address := by
      cases st <;> simp_all [Stage.task]
    -- an operation stays in the table until its tag was looked up
    have hpending : s.pendingOps (s.ops i).address = some i :=
      (hst.pending _).mpr ⟨rfl, rfl⟩
    have hne : (s.ops i).address ≠ 0 := h.address i (h.lt_of_registered hst.registered)
    refine ⟨hst, rfl, ?_⟩
    simp [CompletionQueue.dispatch, unregisterOp, hpending, hne]

section StageStep

variable {j : Nat} (h : s.Describes j st)
include h

theorem Describes.idle {th : Thread} (htask : (s.threads w).task = none)
    (htask' : th.task = none) : (s.setThread w th).Describes j st := by
  refine h.frame rfl (fun _ => Iff.rfl) ?_ rfl
  exact task_update_of_ne (by simp [htask]) (by simp [htask'])

theorem Describes.report (hw : s.threads w = .waiting) (hposted : (s.ops i).posted)
    (hrep : (s.ops i).reported = none) :
    ∃ st', ((s.setOp i { s.ops i with reported := some ok }).setThread w
        (.fetched (s.ops i).address ok (some i))).Describes j st' := by
  by_cases hj : j = i
  · subst hj
    -- posted and not yet reported: it can only be pending
    obtain rfl : st = .pending := by
      have hreg := h.posted hposted
      rw [h.registered] at hreg
      rw [h.reported] at hrep
      cases st <;> simp_all [Stage.isRegistered, Stage.reported]
    refine ⟨.fetched w ok, ?_, ?_, h.calls, ?_, ?_, ?_⟩
    · simpa [setOp, setThread, Stage.isPending] using h.pending
    · intro v k
      have hnone : ∀ v k, (s.threads v).task = some (j, k) → v = w := by
        intro v k hv
        cases (h.tasks v k).mp hv
      refine (task_update hnone v k).trans ?_
      simp [setOp, setThread, Stage.task, Thread.task, eq_comm]
    · simpa [setOp, setThread, Stage.isRegistered] using h.registered
    · simp [setOp, setThread, Stage.reported]
    · simpa [setOp, setThread] using h.posted
  · refine ⟨st, h.frame (Function.update_of_ne hj _ _) (fun _ => Iff.rfl) ?_ rfl⟩
    refine task_update_of_ne (by simp [setOp, hw, Thread.task]) ?_
    simp [Thread.task, Ne.symm hj]

/-- The operation `i` is found by the thread that its tag was reported to. -/
theorem Describes.hit (hi : s.Describes i (.fetched w ok)) (hw : s.threads w =
    .fetched (s.ops i).address ok (some i)) :
    ∃ st', ((s.erase (s.ops i).address).setThread w (.found i ok)).Describes j st' := by
  have hpending : s.pendingOps (s.ops i).address = some i := (hi.pending _).mpr ⟨rfl, rfl⟩
  by_cases hj : j = i
  · subst hj
    refine ⟨.found w ok, ?_, ?_, hi.calls, hi.registered, hi.reported, hi.posted⟩
    · intro tag
      have hnot := hi.pending tag
      by_cases htag : tag = (s.ops j).address
      · subst htag
        simp [erase, setThread, Stage.isPending]
      · simp_all [erase, setThread, Stage.isPending]
    · intro v k
      have honly : ∀ v k, (s.threads v).task = some (j, k) → v = w := by
        intro v k hv
        cases (hi.tasks v k).mp hv
        rfl
      refine (task_update honly v k).trans ?_
      simp [Stage.task, Thread.task, eq_comm]
  · refine ⟨st, h.frame rfl ?_ ?_ rfl⟩
    · intro tag
      by_cases htag : tag = (s.ops i).address
      · subst htag
        simp [erase, setThread, hpending, Ne.symm hj]
      · simp [erase, setThread, Function.update_of_ne htag]
    · refine task_update_of_ne ?_ ?_
      · simp [erase, hw, Thread.task, Ne.symm hj]
      · simp [Thread.task, Ne.symm hj]

theorem Describes.call (hw : s.threads w = .found i ok) :
    ∃ st', ({ s.setThread w (.calling i) with invoked := s.invoked ++ [(i, ok)] }).Describes j
      st' := by
  by_cases hj : j = i
  · subst hj
    -- what the thread is about to do gives the stage of the operation
    obtain rfl : st = .found w ok := by
      have htask := (h.tasks w (.found ok)).mp (by rw [hw]; rfl)
      cases st <;> simp_all [Stage.task]
    refine ⟨.called ok, h.pending, ?_, ?_, h.registered, h.reported, h.posted⟩
    · intro v k
      have honly : ∀ v k, (s.threads v).task = some (j, k) → v = w := by
        intro v k hv
        cases (h.tasks v k).mp hv
        rfl
      refine (task_update honly v k).trans ?_
      simp [Stage.task, Thread.task]
    · rw [calls_append (s := s) rfl, h.calls]
      simp [Stage.calls]
  · refine ⟨st, h.frame rfl (fun _ => Iff.rfl) ?_ ?_⟩
    · refine task_update_of_ne ?_ ?_
      · simp [hw, Thread.task, Ne.symm hj]
      · simp [Thread.task]
    · rw [calls_append (s := s) rfl, if_neg (Ne.symm hj), List.append_nil]

end StageStep

theorem Inv.stage_step {a : Act ι} (h : s.Inv) (hok : s.Assumed a) (he : s.Effect a s') (j : Nat) :
    ∃ st, s'.Describes j st := by
  obtain ⟨st, hst⟩ := h.stage j
  cases he with
  | create address _ => exact hst.create h address
  | register i _ hreg => exact hst.register hreg
  | mark _ i held posted _ hposted => exact ⟨st, hst.mark hposted⟩
  | shutdown => exact ⟨st, hst.frame rfl (fun _ => Iff.rfl) (fun _ _ => Iff.rfl) rfl⟩
  | idle _ w th htask htask' _ => exact ⟨st, hst.idle htask htask'⟩
  | report w i ok hw hposted hrep => exact hst.report hw hposted hrep
  | lookup w tag ok source hw =>
    rcases h.dispatch hw (fun hsource => hok tag (by rw [hw, hsource]; rfl)) with
      ⟨rfl, heq⟩ | ⟨i, rfl, hi, rfl, heq⟩
    · rw [heq]
      exact ⟨st, hst.idle (by rw [hw]; rfl) rfl⟩
    · rw [heq]
      exact hst.hit hi hw
  | call w i ok hw => exact hst.call hw

/-- `Kept.live`, for a step that changes one thread at most. -/
theorem Kept.live_update {j : Nat} {th : Thread} (hk : Kept s s')
    (hpending : s'.pendingOps (s.ops j).address = some j →
      s.pendingOps (s.ops j).address = some j)
    (hthreads : s'.threads = Function.update s.threads w th)
    (hth : th.op = some j → s.Live j) (hlive : s'.Live j) : s.Live j := by
  refine hk.live (fun hlt hp => ⟨hlt, Or.inr (Or.inl (hpending hp))⟩) ?_ hlive
  intro hlt v hv
  rw [hthreads] at hv
  by_cases hvw : v = w
  · subst hvw
    rw [Function.update_self] at hv
    exact hth hv
  · rw [Function.update_of_ne hvw] at hv
    exact ⟨hlt, Or.inr (Or.inr ⟨v, hv⟩)⟩

/-- The operation that `unregister_op()` returns was in `pending_ops_` before. -/
theorem Inv.live_hit (h : s.Inv) (hi : s.Describes i (.fetched w ok)) :
    Kept s ((s.erase (s.ops i).address).setThread w (.found i ok)) ∧
    ∀ j, ((s.erase (s.ops i).address).setThread w (.found i ok)).Live j → s.Live j := by
  have hk : Kept s ((s.erase (s.ops i).address).setThread w (.found i ok)) := kept_of_eq rfl rfl
  refine ⟨hk, ?_⟩
  intro j
  refine hk.live_update ?_ rfl ?_
  · intro hp
    by_cases haddr : (s.ops j).address = (s.ops i).address
    · simp [erase, setThread, haddr] at hp
    · simpa [erase, setThread, Function.update_of_ne haddr] using hp
  · rintro ⟨rfl⟩
    exact ⟨h.lt_of_registered hi.registered, Or.inr (Or.inl ((hi.pending _).mpr ⟨rfl, rfl⟩))⟩

/-- A step makes an operation, or it keeps those that are there and makes none of them live. -/
theorem Inv.live_step {a : Act ι} (h : s.Inv) (hok : s.Assumed a) (he : s.Effect a s') :
    (∃ address, address ≠ 0 ∧ a = .createOp address ∧ s' = s.createOp address) ∨
    Kept s s' ∧ ∀ j, s'.Live j → s.Live j := by
  cases he with
  | create address hne => exact Or.inl ⟨address, hne, rfl, rfl⟩
  | register i hheld hreg => exact Or.inr (h.live_register hheld hreg)
  | mark _ i held posted hheld hposted =>
    have hk : Kept s (s.setOp i { s.ops i with held := held, posted := posted }) :=
      kept_of_update rfl rfl (h.lt_of_held hheld) rfl (fun _ => hheld)
    refine Or.inr ⟨hk, ?_⟩
    intro j
    exact hk.live (fun hlt hp => ⟨hlt, Or.inr (Or.inl hp)⟩)
      (fun hlt w hw => ⟨hlt, Or.inr (Or.inr ⟨w, hw⟩)⟩)
  | shutdown => exact Or.inr ⟨kept_of_eq rfl rfl, fun _ => id⟩
  | idle _ w th htask htask' hop =>
    have hk : Kept s (s.setThread w th) := kept_of_eq rfl rfl
    refine Or.inr ⟨hk, ?_⟩
    intro j
    exact hk.live_update id rfl (by simp [hop])
  | report w i ok hw hposted hrep =>
    have hlt : i < s.made := by
      obtain ⟨st, hst⟩ := h.stage i
      exact h.lt_of_registered (hst.posted hposted)
    have hk : Kept s ((s.setOp i { s.ops i with reported := some ok }).setThread w
        (.fetched (s.ops i).address ok (some i))) := kept_of_update rfl rfl hlt rfl id
    refine Or.inr ⟨hk, ?_⟩
    intro j
    exact hk.live_update id rfl (by simp [Thread.op])
  | lookup w tag ok source hw =>
    rcases h.dispatch hw (fun hsource => hok tag (by rw [hw, hsource]; rfl)) with
      ⟨rfl, heq⟩ | ⟨i, rfl, hi, rfl, heq⟩
    · rw [heq]
      have hk : Kept s (s.setThread w .looping) := kept_of_eq rfl rfl
      refine Or.inr ⟨hk, ?_⟩
      intro j
      exact hk.live_update id rfl (by simp [Thread.op])
    · rw [heq]
      exact Or.inr (h.live_hit hi)
  | call w i ok hw =>
    have hk : Kept s { s.setThread w (.calling i) with invoked := s.invoked ++ [(i, ok)] } :=
      kept_of_eq rfl rfl
    refine Or.inr ⟨hk, ?_⟩
    intro j
    refine hk.live_update id rfl ?_
    rintro ⟨rfl⟩
    exact h.live_found hw

theorem Inv.asserted_step {a : Act ι} (h : s.Inv) (he : s.Effect a s') : s'.asserted = false := by
  cases he with
  | register i hheld hreg =>
    simp only [registerOp, h.unused hheld hreg]
    exact h.asserted
  | lookup w tag ok source hw =>
    simp only [CompletionQueue.dispatch, unregisterOp]
    cases s.pendingOps tag with
    | none => split <;> exact h.asserted
    | some i => split <;> exact h.asserted
  | _ => exact h.asserted

theorem Inv.step {a : Act ι} (h : s.Inv) (hok : s.Assumed a) (hstep : s.step a = some s') :
    s'.Inv := by
  have he := step_effect hstep
  have hstage := h.stage_step hok he
  have hasserted := h.asserted_step he
  rcases h.live_step hok he with ⟨address, hne, rfl, rfl⟩ | ⟨hk, hlive⟩
  -- a new operation: its address is that of no live one
  · have hold : ∀ j, j < s.made → (s.createOp address).ops j = s.ops j := by
      intro j hj
      exact Function.update_of_ne (Nat.ne_of_lt hj) _ _
    have hnew : (s.createOp address).ops s.made = { address := address, held := true } :=
      Function.update_self _ _ _
    have hsplit : ∀ j, (s.createOp address).Live j → j = s.made ∨ j < s.made ∧ s.Live j := by
      rintro j ⟨hlt, hlive⟩
      rcases Nat.lt_succ_iff_lt_or_eq.mp hlt with hj | hj
      · rw [hold j hj] at hlive
        exact Or.inr ⟨hj, hj, hlive⟩
      · exact Or.inl hj
    refine ⟨hstage, ?_, ?_, ?_, hasserted⟩
    · intro i j hi hj haddr
      rcases hsplit i hi with rfl | ⟨hi', hilive⟩ <;> rcases hsplit j hj with rfl | ⟨hj', hjlive⟩
      · rfl
      · rw [hnew, hold j hj'] at haddr
        exact absurd haddr.symm (hok j hj' hjlive)
      · rw [hnew, hold i hi'] at haddr
        exact absurd haddr (hok i hi' hilive)
      · rw [hold i hi', hold j hj'] at haddr
        exact h.distinct i j hilive hjlive haddr
    · intro j hj
      exact (Function.update_of_ne (Nat.ne_of_gt hj) _ _).trans (h.fresh j (Nat.le_of_lt hj))
    · intro j hj
      rcases Nat.lt_succ_iff_lt_or_eq.mp hj with hj' | rfl
      · rw [hold j hj']
        exact h.address j hj'
      · rw [hnew]
        exact hne
  · refine ⟨hstage, ?_, ?_, ?_, hasserted⟩
    · intro i j hi hj haddr
      rw [hk.address, hk.address] at haddr
      exact h.distinct i j (hlive i hi) (hlive j hj) haddr
    · intro j hj
      rw [hk.1] at hj
      rcases hk.2 j with heq | ⟨hlt, _⟩
      · rw [heq, h.fresh j hj]
      · omega
    · intro j hj
      rw [hk.address]
      exact h.address j (hk.1 ▸ hj)

theorem inv_of_reachable (hs : (machine ι).Reachable Assumed s) : s.Inv := by
  refine hs.invariant ?_ ?_
  · rintro s rfl
    exact inv_init
  · intro s a s' ih hok hstep
    exact ih.step hok hstep

/-! ## Dispatch -/

/-- Every operation that was registered is in `pending_ops_` and its callback was not invoked, or
it is not there and its callback was invoked once, or one thread is about to, with the flag that
was reported for it. No other callback is invoked, and the assertion does not fire. -/
theorem dispatch_exactly_once (s : CompletionQueue ι) (hs : (machine ι).Reachable Assumed s) :
    (∀ i, (s.ops i).registered →
      (s.pendingOps (s.ops i).address = some i ∧ s.calls i = [] ∧
        ∀ w ok, s.threads w ≠ .found i ok) ∨
      (∀ tag, s.pendingOps tag ≠ some i) ∧ ∃ ok, (s.ops i).reported = some ok ∧
        (s.calls i = [ok] ∧ (∀ w ok', s.threads w ≠ .found i ok') ∨
          s.calls i = [] ∧ ∃ w, ∀ v ok', s.threads v = .found i ok' ↔ v = w ∧ ok' = ok)) ∧
    (∀ i ok, (i, ok) ∈ s.invoked → (s.ops i).registered) ∧
    s.asserted = false := by
  have hinv := inv_of_reachable hs
  refine ⟨?_, ?_, hinv.asserted⟩
  · intro i hreg
    obtain ⟨st, hst⟩ := hinv.stage i
    have hfound : ∀ w ok, s.threads w = .found i ok ↔
        st.task (s.ops i).address = some (w, .found ok) := by
      intro w ok
      rw [← hst.tasks, Thread.task_eq_found]
    cases st with
    | created =>
      rw [hst.registered] at hreg
      cases hreg
    | pending =>
      refine Or.inl ⟨(hst.pending _).mpr ⟨rfl, rfl⟩, hst.calls, ?_⟩
      simp [hfound, Stage.task]
    | fetched w ok =>
      refine Or.inl ⟨(hst.pending _).mpr ⟨rfl, rfl⟩, hst.calls, ?_⟩
      simp [hfound, Stage.task]
    | found w ok =>
      refine Or.inr ⟨?_, ok, hst.reported, Or.inr ⟨hst.calls, w, ?_⟩⟩
      · simp [hst.pending, Stage.isPending]
      · simp [hfound, Stage.task, eq_comm]
    | called ok =>
      refine Or.inr ⟨?_, ok, hst.reported, Or.inl ⟨hst.calls, ?_⟩⟩
      · simp [hst.pending, Stage.isPending]
      · simp [hfound, Stage.task]
  · intro i ok hmem
    obtain ⟨st, hst⟩ := hinv.stage i
    have hcalls : ok ∈ s.calls i := by simpa [calls] using hmem
    rw [hst.calls] at hcalls
    rw [hst.registered]
    cases st <;> simp_all [Stage.calls, Stage.isRegistered]

/-- A callback makes an operation, and the address of the operation it was called for is used
again after it returned. In the meantime, a null pointer is reported. -/
theorem dispatch_exactly_once_reused : ∃ s : CompletionQueue Bool,
    (machine Bool).Reachable Assumed s ∧ s.calls 0 = [true] ∧ s.threads false = .found 1 false ∧
      s.pendingOps 16 = some 2 ∧ s.asserted = false := by
  rcases reachable_of_execIf (machine Bool) (fun s a => decide (s.Assumed a)) {}
    [.createOp 16, .registerOp 0, .post 0, .run true, .run false, .loop true, .loop false,
      .nextEvent true 0 true, .lookup true, .call true,
      .createOp 32, .registerOp 1, .post 1, .release 0, .returned true, .loop true,
      .nextSpurious true 0 true, .lookup true,
      .createOp 16, .registerOp 2, .post 2, .nextEvent false 1 false, .lookup false]
    (fun s => decide (s.calls 0 = [true] ∧ s.threads false = .found 1 false ∧
      s.pendingOps 16 = some 2)) (fun _ _ => of_decide_eq_true) rfl (by decide) with
    ⟨s, hreach, hcheck⟩
  obtain ⟨hcalls, hfound, hpending⟩ := of_decide_eq_true hcheck
  exact ⟨s, hreach, hcalls, hfound, hpending, (dispatch_exactly_once s hreach).2.2⟩

end CompletionQueue

end GeeH
