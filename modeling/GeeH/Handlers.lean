import GeeH.Rules

/-!
# GeeH.Handlers — objects whose handlers run on another thread

An object has calls, made by the application, and handlers, run by the thread
of a queue when an operation of the object completes. A handler is not atomic:
it is entered, lets go of its operation (`release`), does the rest of its work
(`body`) and returns. Between any two of these steps the calls may take theirs,
the destructor's included.

`Guard` is the invariant of such an object: it holds between the steps, and it
knows of a handler that was entered and has not let go of its operation yet.
What a guard gives is that nothing is left of the object's operations when the
object is gone. It knows nothing of a handler that has let go of its operation;
whether one is still running is up to the schedule (`Waits`).
-/

namespace GeeH

universe u v w x

/-- An object with calls and handlers; `gone` says that its destructor has returned. -/
structure Reactor (σ : Type u) (α : Type v) (κ : Type w) where
  Init : σ → Prop
  call : σ → α → Option σ
  ready : σ → κ → Bool
  enter : σ → κ → σ
  release : σ → κ → σ
  body : σ → κ → σ
  gone : σ → Bool

/-- How far a handler is. -/
inductive Phase where
  | entered | released | finished
deriving DecidableEq, Repr

/-- The object, and the handler that the queue is running. -/
structure Threads (σ : Type u) (κ : Type w) where
  obj : σ
  running : Option (κ × Phase) := none
deriving DecidableEq

namespace Threads

variable {σ : Type u} {κ : Type w}

/-- The handler that was entered and has not let go of its operation. -/
def held (s : Threads σ κ) : Option κ :=
  match s.running with
  | some (k, .entered) => some k
  | _ => none

/-- A handler has let go of its operation and has not returned. -/
def loose (s : Threads σ κ) : Bool :=
  match s.running with
  | some (_, .released) => true
  | some (_, .finished) => true
  | _ => false

/-- A handler that runs either holds its operation or does not. -/
theorem running_eq_none (s : Threads σ κ) : s.running = none ↔ s.held = none ∧ s.loose = false := by
  rcases s with ⟨c, _ | ⟨k, p⟩⟩
  · simp [held, loose]
  · cases p <;> simp [held, loose]

end Threads

namespace Reactor

/-- A step of a call, or of the handler. -/
inductive Act (α : Type v) (κ : Type w) where
  | call (a : α)
  | enter (k : κ)
  | release
  | body
  | leave
deriving DecidableEq

variable {σ : Type u} {α : Type v} {κ : Type w} (R : Reactor σ α κ)

/-- One step. The queue enters a handler only when it has left the one before. -/
def step (s : Threads σ κ) : Act α κ → Option (Threads σ κ)
  | .call a => (R.call s.obj a).map fun c => { s with obj := c }
  | .enter k =>
    match s.running with
    | none =>
      if R.ready s.obj k then some { obj := R.enter s.obj k, running := some (k, .entered) }
      else none
    | some _ => none
  | .release =>
    match s.running with
    | some (k, .entered) => some { obj := R.release s.obj k, running := some (k, .released) }
    | _ => none
  | .body =>
    match s.running with
    | some (k, .released) => some { obj := R.body s.obj k, running := some (k, .finished) }
    | _ => none
  | .leave =>
    match s.running with
    | some (_, .finished) => some { s with running := none }
    | _ => none

/-- The object under all schedules. -/
def machine : Machine (Threads σ κ) (Act α κ) where
  Init s := R.Init s.obj ∧ s.running = none
  step := R.step

/-- A call with which the destructor returns. -/
def returns (c : σ) (a : α) : Bool := !R.gone c && (R.call c a).any R.gone

/-- The calls are made as `ok` says. -/
def Obeys (_ : Reactor σ α κ) (ok : σ → α → Prop) (s : Threads σ κ) : Act α κ → Prop
  | .call a => ok s.obj a
  | _ => True

/-- Besides, the destructor does not return while a handler that has let go of its operation
is running. -/
def Waits (ok : σ → α → Prop) (s : Threads σ κ) : Act α κ → Prop
  | .call a => ok s.obj a ∧ (R.returns s.obj a = true → s.loose = false)
  | _ => True

instance {ok : σ → α → Prop} [∀ c a, Decidable (ok c a)] (s : Threads σ κ) (a : Act α κ) :
    Decidable (R.Waits ok s a) :=
  match a with
  | .call _ => inferInstanceAs (Decidable (_ ∧ _))
  | .enter _ | .release | .body | .leave => inferInstanceAs (Decidable True)

theorem waits_obeys {ok : σ → α → Prop} (s : Threads σ κ) (a : Act α κ) (h : R.Waits ok s a) :
    R.Obeys ok s a := by
  cases a with
  | call a => exact h.1
  | _ => trivial

/-! ## Steps by their effect -/

/-- What one step can be. -/
inductive Step (s : Threads σ κ) : Act α κ → Threads σ κ → Prop where
  | call (a : α) (c : σ) (h : R.call s.obj a = some c) : Step s (.call a) { s with obj := c }
  | enter (k : κ) (hidle : s.running = none) (h : R.ready s.obj k = true) :
      Step s (.enter k) { obj := R.enter s.obj k, running := some (k, .entered) }
  | release (k : κ) (h : s.running = some (k, .entered)) :
      Step s .release { obj := R.release s.obj k, running := some (k, .released) }
  | body (k : κ) (h : s.running = some (k, .released)) :
      Step s .body { obj := R.body s.obj k, running := some (k, .finished) }
  | leave (k : κ) (h : s.running = some (k, .finished)) : Step s .leave { s with running := none }

theorem step_cases {s s' : Threads σ κ} {a : Act α κ} (h : R.step s a = some s') : R.Step s a s' := by
  cases a with
  | call a =>
    rcases Option.map_eq_some_iff.mp h with ⟨c, hc, rfl⟩
    exact .call a c hc
  | enter k =>
    simp only [step] at h
    split at h
    · rename_i hidle
      split at h
      · rename_i hready
        cases h
        exact .enter k hidle hready
      · cases h
    · cases h
  | release =>
    simp only [step] at h
    split at h
    · rename_i k hrun
      cases h
      exact .release k hrun
    · cases h
  | body =>
    simp only [step] at h
    split at h
    · rename_i k hrun
      cases h
      exact .body k hrun
    · cases h
  | leave =>
    simp only [step] at h
    split at h
    · rename_i k hrun
      cases h
      exact .leave k hrun
    · cases h

/-! ## The guard -/

/-- An invariant of the object and the handler that holds its operation. -/
structure Guard (ok : σ → α → Prop) (I : σ → Option κ → Prop) : Prop where
  init : ∀ c, R.Init c → I c none
  call : ∀ c e a c', I c e → ok c a → R.call c a = some c' → I c' e
  enter : ∀ c k, I c none → R.ready c k = true → I (R.enter c k) (some k)
  release : ∀ c k, I c (some k) → I (R.release c k) none
  body : ∀ c k, I c none → I (R.body c k) none
  /-- Nothing is left of the operations of an object that is gone. -/
  idle : ∀ c e, I c e → R.gone c = true → e = none ∧ ∀ k, R.ready c k = false
  /-- A handler does not make an object go. -/
  stays : ∀ c k, (R.gone (R.enter c k) = true → R.gone c = true) ∧
    (R.gone (R.release c k) = true → R.gone c = true) ∧
    (R.gone (R.body c k) = true → R.gone c = true)

variable {R} {ok : σ → α → Prop} {I : σ → Option κ → Prop} {s s' : Threads σ κ}

theorem Guard.step (h : R.Guard ok I) {a : Act α κ} (hinv : I s.obj s.held) (hok : R.Obeys ok s a)
    (hstep : R.step s a = some s') : I s'.obj s'.held := by
  cases R.step_cases hstep with
  | call a c hc => exact h.call _ _ a _ hinv hok hc
  | enter k hidle hready =>
    have hnone : s.held = none := ((s.running_eq_none).mp hidle).1
    rw [hnone] at hinv
    exact h.enter _ k hinv hready
  | release k hrun =>
    have hheld : s.held = some k := by simp [Threads.held, hrun]
    rw [hheld] at hinv
    exact h.release _ k hinv
  | body k hrun =>
    have hnone : s.held = none := by simp [Threads.held, hrun]
    rw [hnone] at hinv
    exact h.body _ k hinv
  | leave k hrun =>
    have hnone : s.held = none := by simp [Threads.held, hrun]
    rw [hnone] at hinv
    exact hinv

/-- The guard holds under all schedules. -/
theorem Guard.reachable (h : R.Guard ok I) (hs : R.machine.Reachable (R.Obeys ok) s) :
    I s.obj s.held := by
  refine hs.invariant ?_ ?_
  · rintro s ⟨hinit, hidle⟩
    rw [((s.running_eq_none).mp hidle).1]
    exact h.init _ hinit
  · intro s a s' hinv hok hstep
    exact h.step hinv hok hstep

/-- When the destructor returns, no handler is running if and only if none has let go of its
operation before. -/
theorem Guard.returned (h : R.Guard ok I) (hs : R.machine.Reachable (R.Obeys ok) s) {a : α}
    (hok : ok s.obj a) (hret : R.returns s.obj a = true)
    (hstep : R.step s (.call a) = some s') : s'.running = none ↔ s.loose = false := by
  have hinv : I s'.obj s'.held := h.step (a := .call a) (h.reachable hs) hok hstep
  cases R.step_cases hstep with
  | call _ c hc =>
    have hgone : R.gone c = true := by
      simp only [returns, hc, Option.any_some, Bool.and_eq_true] at hret
      exact hret.2
    have hheld : s.held = none := (h.idle c _ hinv hgone).1
    rw [show ({ s with obj := c } : Threads σ κ).running = s.running from rfl, s.running_eq_none]
    simp [hheld]

/-- No handler runs on an object that is gone. -/
def Quiet (R : Reactor σ α κ) (s : Threads σ κ) : Prop := R.gone s.obj = true → s.running = none

theorem Guard.quiet_step (h : R.Guard ok I) {a : Act α κ} (hinv : I s.obj s.held) (ih : R.Quiet s)
    (hok : R.Waits ok s a) (hstep : R.step s a = some s') : R.Quiet s' := by
  intro hgone
  have hinv' := h.step hinv (R.waits_obeys s a hok) hstep
  cases R.step_cases hstep with
  | call a c hc =>
    cases hwas : R.gone s.obj with
    | true => exact ih hwas
    | false =>
      -- this call is the destructor's return: it saw no operation, and it waited for the rest
      have hret : R.returns s.obj a = true := by
        simp only [returns, hwas, hc, Option.any_some, Bool.not_false, Bool.true_and]
        exact hgone
      have hheld : s.held = none := (h.idle c _ hinv' hgone).1
      exact (s.running_eq_none).mpr ⟨hheld, hok.2 hret⟩
  | enter k hidle hready =>
    have hwas : R.gone s.obj = true := (h.stays s.obj k).1 hgone
    rw [(h.idle _ _ hinv hwas).2 k] at hready
    cases hready
  | release k hrun =>
    have hwas : R.gone s.obj = true := (h.stays s.obj k).2.1 hgone
    rw [ih hwas] at hrun
    cases hrun
  | body k hrun =>
    have hwas : R.gone s.obj = true := (h.stays s.obj k).2.2 hgone
    rw [ih hwas] at hrun
    cases hrun
  | leave k hrun => rfl

/-- Where the destructor waits, no handler runs on an object that is gone, and none will. -/
theorem Guard.quiet (h : R.Guard ok I) (hs : R.machine.Reachable (R.Waits ok) s)
    (hgone : R.gone s.obj = true) : s.running = none ∧ ∀ k, R.ready s.obj k = false := by
  have hobeys := hs.mono R.waits_obeys
  have hquiet : R.Quiet s := by
    have hguard : ∀ s, R.machine.Reachable (R.Waits ok) s → I s.obj s.held :=
      fun s hs => h.reachable (hs.mono R.waits_obeys)
    refine Machine.Reachable.invariant_of hguard ?_ ?_ hs
    · rintro s ⟨-, hidle⟩ -
      exact hidle
    · exact fun s a s' => h.quiet_step
  exact ⟨hquiet hgone, (h.idle _ _ (h.reachable hobeys) hgone).2⟩

/-- What an object promises whose destructor waits for its operations. -/
structure Joins (R : Reactor σ α κ) (ok : σ → α → Prop) (s : Threads σ κ) : Prop where
  /-- No handler runs on an object that is gone, and none will, in runs in which the destructor
  does not return during the end of a handler. -/
  quiet : R.machine.Reachable (R.Waits ok) s → R.gone s.obj = true →
    s.running = none ∧ ∀ k, R.ready s.obj k = false
  /-- Nothing less will do. -/
  sharp : ∀ s' a, R.machine.Reachable (R.Obeys ok) s → ok s.obj a →
    R.returns s.obj a = true → R.step s (.call a) = some s' →
    (s'.running = none ↔ s.loose = false)

theorem Guard.joins (h : R.Guard ok I) (s : Threads σ κ) : R.Joins ok s where
  quiet hs hgone := h.quiet hs hgone
  sharp _ _ hs hok hret hstep := h.returned hs hok hret hstep

/-! ## Atomic handlers -/

/-- A machine that runs its handlers in one step has no runs that the object under all
schedules does not have. -/
theorem run_of_atomic {β : Type x} {M : Machine σ β} {allowed : σ → β → Prop}
    (hstep : ∀ c b c', M.step c b = some c' → (∃ a, R.call c a = some c') ∨
      ∃ k, R.ready c k = true ∧ c' = R.body (R.release (R.enter c k) k) k)
    {c c' : σ} (hrun : M.Run allowed c c') :
    R.machine.Run Machine.Any { obj := c } { obj := c' } := by
  refine hrun.simulates (fun d => ({ obj := d } : Threads σ κ)) ?_
  intro d b d' _ hst
  rcases hstep d b d' hst with ⟨a, hcall⟩ | ⟨k, hready, rfl⟩
  · refine .single (.call a) trivial ?_
    simp [machine, step, hcall]
  · have hexec : R.machine.exec { obj := d } [.enter k, .release, .body, .leave] =
        some { obj := R.body (R.release (R.enter d k) k) k } := by
      simp [Machine.exec, Machine.execIf, machine, step, hready]
    exact Machine.run_of_exec hexec

end Reactor

end GeeH
