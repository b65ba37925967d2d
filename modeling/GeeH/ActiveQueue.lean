import GeeH.Rules
import Mathlib.Logic.Function.Basic

/-!
# GeeH.ActiveQueue — `gh/active_completion_queue.hpp`

An `active_completion_queue` holds a completion queue and the thread that runs
its loop. Queues are known by their number, and so are their threads: both
constructors bring a queue that no other object holds, with the thread that
calls its `run()`.

Ownership is kept three times: in `queue_`, in `thread_` and in `shutdown_`.
(`join_` always points to the `thread_` of its own object.) The move
constructor empties all three in its source; the move assignment forgets
`shutdown_`.
-/

namespace GeeH

open Machine

/-- `active_completion_queue`. -/
structure ActiveCompletionQueue where
  queue : Option Nat
  /-- `thread_`, if it is joinable. -/
  thread : Option Nat
  /-- `shutdown_.queue`. -/
  shutdown : Option Nat
deriving DecidableEq

namespace ActiveCompletionQueue

/-- What the destructors do to a queue and to its thread. -/
inductive Effect where
  | shutdown (queue : Nat)
  | join (thread : Nat)
deriving DecidableEq

/-- The queue that an effect is about. -/
def Effect.queue : Effect → Nat
  | .shutdown q => q
  | .join t => t

/-- The constructors. -/
def init (q : Nat) : ActiveCompletionQueue where
  queue := some q
  thread := some q
  shutdown := some q

/-- The destructor: `~defer_shutdown()`, then `~defer_join()`. -/
def destroy (o : ActiveCompletionQueue) : List Effect :=
  (o.shutdown.map .shutdown).toList ++ (o.thread.map .join).toList

/-- The move constructor: the new object, and what is left of the source. -/
def moveConstruct (rhs : ActiveCompletionQueue) :
    ActiveCompletionQueue × ActiveCompletionQueue :=
  ({ queue := rhs.queue
     thread := rhs.thread
     shutdown := rhs.queue },
   { queue := none
     thread := none
     shutdown := none })

/-- The move assignment: the target, what is left of the source, and what the destruction of
the temporary does. -/
def moveAssign (lhs rhs : ActiveCompletionQueue) :
    ActiveCompletionQueue × ActiveCompletionQueue × List Effect :=
  let tmp := lhs.moveConstruct.1
  ({ lhs.moveConstruct.2 with
     queue := rhs.queue
     thread := rhs.thread
     shutdown := rhs.queue },
   -- `rhs.shutdown_` is not released
   { rhs with
     queue := none
     thread := none },
   tmp.destroy)

/-! ## The machine -/

/-- The objects of a program, by name. -/
structure Program where
  object : Nat → Option ActiveCompletionQueue := fun _ => none
  /-- How many queues there were. -/
  queues : Nat := 0
  log : List Effect := []

namespace Program

/-- What a program does with its objects. -/
inductive Act where
  | construct (x : Nat)
  | moveConstruct (x y : Nat)
  | moveAssign (x y : Nat)
  | destroy (x : Nat)
deriving DecidableEq

variable (s : Program)

/-- One step. -/
def step : Act → Option Program
  | .construct x =>
    match s.object x with
    | some _ => none
    | none =>
      some { s with
        object := Function.update s.object x (some (.init s.queues))
        queues := s.queues + 1 }
  | .moveConstruct x y =>
    match s.object x, s.object y with
    | none, some rhs =>
      some { s with
        object := Function.update (Function.update s.object y (some rhs.moveConstruct.2)) x
          (some rhs.moveConstruct.1) }
    | _, _ => none
  | .moveAssign x y =>
    if x = y then none
    else match s.object x, s.object y with
      | some lhs, some rhs =>
        let r := lhs.moveAssign rhs
        some { s with
          object := Function.update (Function.update s.object y (some r.2.1)) x (some r.1)
          log := s.log ++ r.2.2 }
      | _, _ => none
  | .destroy x =>
    match s.object x with
    | none => none
    | some o =>
      some { s with
        object := Function.update s.object x none
        log := s.log ++ o.destroy }

/-- Programs with any objects. -/
def machine : Machine Program Act where
  Init s := s = {}
  step := step

/-- The object is the one whose `cq()` is the queue. -/
def Owns (x q : Nat) : Prop := ∃ o, s.object x = some o ∧ o.queue = some q

/-- The object that a step destroys or overwrites. -/
def Act.ends : Act → Option Nat
  | .moveAssign x _ => some x
  | .destroy x => some x
  | _ => none

/-- What was done to a queue and to its thread. -/
def done (q : Nat) : List Effect := s.log.filter fun e => e.queue = q

/-- An object is not destroyed while its `shutdown_` still has a queue that was taken from it. -/
def Released : Act → Prop
  | .destroy x => ∀ o ∈ s.object x, o.shutdown = o.queue
  | _ => True

instance : DecidablePred s.Released
  | .destroy _ => inferInstanceAs (Decidable (∀ o ∈ _, _))
  | .construct _ | .moveConstruct _ _ | .moveAssign _ _ => inferInstanceAs (Decidable True)

/-- A queue that is overwritten or destroyed with its owner is shut down, and then its thread
is joined; nothing is done to any other. -/
def Exact (s : Program) (a : Act) (s' : Program) : Prop :=
  ∀ q, (∀ x ∈ a.ends, s.Owns x q → s'.done q = s.done q ++ [.shutdown q, .join q]) ∧
    ((∀ x ∈ a.ends, ¬ s.Owns x q) → s'.done q = s.done q)

/-! ## One step -/

variable {s s' : Program} {a : Act}

/-- What one step can do. -/
inductive Step (s : Program) : Act → Program → Prop where
  | construct (x : Nat) (hx : s.object x = none) :
      Step s (.construct x)
        { s with
          object := Function.update s.object x (some (.init s.queues))
          queues := s.queues + 1 }
  | moveConstruct (x y : Nat) (rhs : ActiveCompletionQueue) (hx : s.object x = none)
      (hy : s.object y = some rhs) :
      Step s (.moveConstruct x y)
        { s with
          object := Function.update (Function.update s.object y (some rhs.moveConstruct.2)) x
            (some rhs.moveConstruct.1) }
  | moveAssign (x y : Nat) (lhs rhs : ActiveCompletionQueue) (hne : x ≠ y)
      (hx : s.object x = some lhs) (hy : s.object y = some rhs) :
      Step s (.moveAssign x y)
        { s with
          object := Function.update (Function.update s.object y (some (lhs.moveAssign rhs).2.1)) x
            (some (lhs.moveAssign rhs).1)
          log := s.log ++ (lhs.moveAssign rhs).2.2 }
  | destroy (x : Nat) (o : ActiveCompletionQueue) (hx : s.object x = some o) :
      Step s (.destroy x)
        { s with
          object := Function.update s.object x none
          log := s.log ++ o.destroy }

theorem step_cases (h : s.step a = some s') : Step s a s' := by
  cases a with
  | construct x =>
    simp only [step] at h
    split at h
    · cases h
    · rename_i hx
      cases h
      exact .construct x hx
  | moveConstruct x y =>
    simp only [step] at h
    split at h
    · rename_i rhs hx hy
      cases h
      exact .moveConstruct x y rhs hx hy
    · cases h
  | moveAssign x y =>
    simp only [step] at h
    split at h
    · cases h
    · rename_i hne
      split at h
      · rename_i lhs rhs hx hy
        cases h
        exact .moveAssign x y lhs rhs hne hx hy
      · cases h
  | destroy x =>
    simp only [step] at h
    split at h
    · cases h
    · rename_i o hx
      cases h
      exact .destroy x o hx

/-- What the destructor of an owner does, and of an object that owns nothing. -/
def closing (q : Option Nat) : List Effect := (q.map .shutdown).toList ++ (q.map .join).toList

theorem filter_closing (owned : Option Nat) (q : Nat) :
    ((closing owned).filter fun e => e.queue = q) =
      if owned = some q then [.shutdown q, .join q] else [] := by
  cases owned with
  | none => rfl
  | some r =>
    by_cases hr : r = q
    · simp [closing, Effect.queue, hr]
    · simp [closing, Effect.queue, hr]

theorem done_append {log : List Effect} {q : Nat} (h : s'.log = s.log ++ log) :
    s'.done q = s.done q ++ log.filter fun e => e.queue = q := by
  unfold done
  rw [h, List.filter_append]

/-- Whoever moves takes the queue along. -/
theorem owns_move {x y z q : Nat} {l r : ActiveCompletionQueue} (hne : x ≠ y)
    (hobj : s'.object = Function.update (Function.update s.object y (some r)) x (some l))
    (hr : r.queue = none) (hl : l.queue = some q ↔ s.Owns y q) :
    s'.Owns z q ↔ z = x ∧ s.Owns y q ∨ z ≠ x ∧ z ≠ y ∧ s.Owns z q := by
  unfold Owns at hl ⊢
  rw [hobj]
  by_cases hzx : z = x
  · subst hzx
    simp [hl]
  · by_cases hzy : z = y
    · subst hzy
      simp [hzx, hr]
    · simp [hzx, hzy]

/-! ## The invariant -/

/-- Every queue has one owner, or it was shut down once and its thread joined after that. -/
structure Ledger (s : Program) : Prop where
  unique : ∀ x y q, s.Owns x q → s.Owns y q → x = y
  made : ∀ x q, s.Owns x q → q < s.queues
  owned : ∀ x q, s.Owns x q → s.done q = []
  ended : ∀ q < s.queues, (∀ x, ¬ s.Owns x q) → s.done q = [.shutdown q, .join q]
  beyond : ∀ q, s.queues ≤ q → s.done q = []

/-- Ownership is the same in `queue_` and `thread_`; `shutdown_` may have a queue that the
object has lost. -/
def Whole (o : ActiveCompletionQueue) : Prop :=
  o.thread = o.queue ∧ (o.queue = none ∨ o.shutdown = o.queue)

structure Sound (s : Program) : Prop extends Ledger s where
  whole : ∀ x o, s.object x = some o → Whole o

theorem whole_update {f : Nat → Option ActiveCompletionQueue} {x : Nat}
    {v : Option ActiveCompletionQueue} (hf : ∀ z o, f z = some o → Whole o)
    (hv : ∀ o ∈ v, Whole o) : ∀ z o, Function.update f x v z = some o → Whole o := by
  intro z o ho
  by_cases hzx : z = x
  · rw [hzx, Function.update_self] at ho
    exact hv o ho
  · rw [Function.update_of_ne hzx] at ho
    exact hf z o ho

/-- A new queue has a new owner. -/
theorem Ledger.construct {x : Nat} (h : Ledger s) (hx : s.object x = none) :
    Ledger { s with
      object := Function.update s.object x (some (.init s.queues))
      queues := s.queues + 1 } := by
  set s' : Program := { s with
    object := Function.update s.object x (some (.init s.queues))
    queues := s.queues + 1 } with hs'
  have howns : ∀ z q, s'.Owns z q ↔ z = x ∧ q = s.queues ∨ s.Owns z q := by
    intro z q
    unfold Owns
    by_cases hzx : z = x
    · subst hzx
      simp [hs', hx, init, eq_comm]
    · simp [hs', hzx]
  -- no object has the queue that is made next
  have hnew : ∀ z, ¬ s.Owns z s.queues := by
    intro z hz
    exact absurd (h.made z _ hz) (Nat.lt_irrefl _)
  refine ⟨?_, ?_, ?_, ?_, ?_⟩
  · intro y z q hy hz
    rcases (howns y q).mp hy with ⟨rfl, rfl⟩ | hold
    · rcases (howns z _).mp hz with ⟨rfl, -⟩ | hold
      · rfl
      · exact absurd hold (hnew z)
    · rcases (howns z q).mp hz with ⟨rfl, rfl⟩ | hold'
      · exact absurd hold (hnew y)
      · exact h.unique y z q hold hold'
  · intro z q hz
    show q < s.queues + 1
    rcases (howns z q).mp hz with ⟨-, rfl⟩ | hz
    · exact Nat.lt_succ_self _
    · exact Nat.lt_succ_of_lt (h.made z q hz)
  · intro z q hz
    rcases (howns z q).mp hz with ⟨-, rfl⟩ | hz
    · exact h.beyond _ (Nat.le_refl _)
    · exact h.owned z q hz
  · intro q hq hfree
    have hne : q ≠ s.queues := by
      rintro rfl
      exact hfree x ((howns x _).mpr (Or.inl ⟨rfl, rfl⟩))
    have hlt : q < s.queues := by
      have : q < s.queues + 1 := hq
      omega
    exact h.ended q hlt fun z hz => hfree z ((howns z q).mpr (Or.inr hz))
  · intro q hq
    exact h.beyond q (Nat.le_of_succ_le hq)

/-- What `x` had is closed, and it gets what `y` had, if there is such a `y`. -/
theorem Ledger.close {x : Nat} {y : Option Nat} {lost : Option Nat} (h : Ledger s)
    (hqueues : s'.queues = s.queues) (hlog : s'.log = s.log ++ closing lost)
    (hlost : ∀ q, lost = some q ↔ s.Owns x q) (hne : y ≠ some x)
    (howns : ∀ z q, s'.Owns z q ↔
      z = x ∧ (∃ z' ∈ y, s.Owns z' q) ∨ z ≠ x ∧ y ≠ some z ∧ s.Owns z q) : Ledger s' := by
  have hdone : ∀ q, s'.done q = s.done q ++ if lost = some q then [.shutdown q, .join q] else [] := by
    intro q
    rw [done_append hlog, filter_closing]
  -- a queue has an owner after the step if it had one, and that was not `x`
  have hkept : ∀ q, (∃ z, s'.Owns z q) ↔ ∃ z, z ≠ x ∧ s.Owns z q := by
    intro q
    constructor
    · rintro ⟨z, hz⟩
      rcases (howns z q).mp hz with ⟨-, z', rfl, hz'⟩ | ⟨hzx, -, hz'⟩
      · exact ⟨z', fun heq => hne (by rw [heq]), hz'⟩
      · exact ⟨z, hzx, hz'⟩
    · rintro ⟨z, hzx, hz⟩
      by_cases hzy : y = some z
      · exact ⟨x, (howns x q).mpr (Or.inl ⟨rfl, z, hzy, hz⟩)⟩
      · exact ⟨z, (howns z q).mpr (Or.inr ⟨hzx, hzy, hz⟩)⟩
  -- so nobody has the queue that is closed, which was the one of `x`
  have hother : ∀ z q, s'.Owns z q → lost ≠ some q ∧ ∃ z', s.Owns z' q := by
    intro z q hz
    rcases (hkept q).mp ⟨z, hz⟩ with ⟨z', hz'x, hz'⟩
    exact ⟨fun hl => hz'x (h.unique z' x q hz' ((hlost q).mp hl)), z', hz'⟩
  refine ⟨?_, ?_, ?_, ?_, ?_⟩
  · intro z₁ z₂ q h₁ h₂
    rcases (howns z₁ q).mp h₁ with ⟨rfl, y₁, hy₁, ho₁⟩ | ⟨hx₁, hn₁, ho₁⟩
    · rcases (howns z₂ q).mp h₂ with ⟨rfl, -⟩ | ⟨hx₂, hn₂, ho₂⟩
      · rfl
      · exact absurd (h.unique y₁ z₂ q ho₁ ho₂ ▸ hy₁) hn₂
    · rcases (howns z₂ q).mp h₂ with ⟨rfl, y₂, hy₂, ho₂⟩ | ⟨hx₂, hn₂, ho₂⟩
      · exact absurd (h.unique y₂ z₁ q ho₂ ho₁ ▸ hy₂) hn₁
      · exact h.unique z₁ z₂ q ho₁ ho₂
  · intro z q hz
    rcases (hother z q hz).2 with ⟨z', hz'⟩
    rw [hqueues]
    exact h.made z' q hz'
  · intro z q hz
    rcases hother z q hz with ⟨hl, z', hz'⟩
    rw [hdone, if_neg hl, List.append_nil]
    exact h.owned z' q hz'
  · intro q hq hfree
    rw [hqueues] at hq
    rw [hdone]
    by_cases hl : lost = some q
    · rw [if_pos hl, h.owned x q ((hlost q).mp hl), List.nil_append]
    · rw [if_neg hl, List.append_nil]
      refine h.ended q hq fun z hz => ?_
      have hzx : z ≠ x := by
        rintro rfl
        exact hl ((hlost q).mpr hz)
      rcases (hkept q).mpr ⟨z, hzx, hz⟩ with ⟨z', hz'⟩
      exact hfree z' hz'
  · intro q hq
    rw [hqueues] at hq
    have hl : lost ≠ some q := by
      intro hl
      exact absurd (h.made x q ((hlost q).mp hl)) (Nat.not_lt.mpr hq)
    rw [hdone, if_neg hl, List.append_nil]
    exact h.beyond q hq

theorem sound_init : Sound {} where
  unique x y q hx := by
    rcases hx with ⟨o, ho, _⟩
    cases ho
  made x q hx := by
    rcases hx with ⟨o, ho, _⟩
    cases ho
  owned _ _ _ := rfl
  ended q hq := absurd hq (Nat.not_lt_zero q)
  beyond _ _ := rfl
  whole x o ho := by cases ho

theorem owns_iff {x : Nat} {o : ActiveCompletionQueue} (hx : s.object x = some o) (q : Nat) :
    s.Owns x q ↔ o.queue = some q := by
  unfold Owns
  rw [hx]
  simp

theorem not_owns {x : Nat} (hx : s.object x = none) (q : Nat) : ¬ s.Owns x q := by
  rintro ⟨o, ho, _⟩
  rw [hx] at ho
  cases ho

/-- What is done in a step that closes what `x` had. -/
theorem exact_of_closing {x : Nat} {lost : Option Nat} (hends : a.ends = some x)
    (hlost : ∀ q, lost = some q ↔ s.Owns x q) (hlog : s'.log = s.log ++ closing lost) :
    Exact s a s' := by
  intro q
  rw [done_append hlog, filter_closing, hends]
  constructor
  · rintro _ ⟨rfl⟩ howns
    rw [if_pos ((hlost q).mpr howns)]
  · intro hnot
    rw [if_neg fun hl => hnot x rfl ((hlost q).mp hl), List.append_nil]

theorem exact_of_log (hends : a.ends = none) (hlog : s'.log = s.log) : Exact s a s' := by
  intro q
  have hdone : s'.done q = s.done q := by
    unfold done
    rw [hlog]
  rw [hends]
  exact ⟨fun x hx => (Option.not_mem_none x hx).elim, fun _ => hdone⟩

theorem moveConstruct_whole {o : ActiveCompletionQueue} (h : Whole o) :
    Whole o.moveConstruct.1 ∧ Whole o.moveConstruct.2 :=
  ⟨⟨h.1, Or.inr rfl⟩, ⟨rfl, Or.inl rfl⟩⟩

theorem moveAssign_whole {l r : ActiveCompletionQueue} (h : Whole r) :
    Whole (l.moveAssign r).1 ∧ Whole (l.moveAssign r).2.1 :=
  ⟨⟨h.1, Or.inr rfl⟩, ⟨rfl, Or.inl rfl⟩⟩

/-- A step keeps the books, and it is exact, if nothing is destroyed with a queue that it has
lost. -/
theorem Sound.step (h : Sound s) (hok : s.Released a) (hstep : s.step a = some s') :
    Sound s' ∧ Exact s a s' := by
  cases step_cases hstep with
  | construct x hx =>
    refine ⟨⟨h.construct hx, whole_update h.whole ?_⟩, exact_of_log rfl rfl⟩
    rintro _ ⟨rfl⟩
    exact ⟨rfl, Or.inr rfl⟩
  | moveConstruct x y rhs hx hy =>
    have hne : x ≠ y := by
      rintro rfl
      rw [hx] at hy
      cases hy
    have hwhole := moveConstruct_whole (h.whole y rhs hy)
    -- nothing is closed: the target is a new object
    have hlog : s.log = s.log ++ closing none := (List.append_nil _).symm
    refine ⟨⟨h.close (x := x) (y := some y) rfl hlog ?_ ?_ ?_,
      ?_⟩, exact_of_log rfl rfl⟩
    · intro q
      exact iff_of_false (by simp) (not_owns hx q)
    · simpa using hne.symm
    · intro z q
      refine (owns_move (l := rhs.moveConstruct.1) (r := rhs.moveConstruct.2) hne rfl rfl
        (owns_iff hy q).symm).trans ?_
      simp [eq_comm]
    · refine whole_update (whole_update h.whole ?_) ?_
      · rintro _ ⟨rfl⟩
        exact hwhole.2
      · rintro _ ⟨rfl⟩
        exact hwhole.1
  | moveAssign x y lhs rhs hne hx hy =>
    have hwhole := moveAssign_whole (l := lhs) (h.whole y rhs hy)
    have hlost : ∀ q, lhs.queue = some q ↔ s.Owns x q := fun q => (owns_iff hx q).symm
    -- the temporary has what the target had
    have hlog : s.log ++ (lhs.moveAssign rhs).2.2 = s.log ++ closing lhs.queue := by
      show s.log ++ ((lhs.queue.map .shutdown).toList ++ (lhs.thread.map .join).toList) = _
      rw [(h.whole x lhs hx).1]
      rfl
    refine ⟨⟨h.close (x := x) (y := some y) rfl hlog hlost ?_ ?_, ?_⟩,
      exact_of_closing rfl hlost hlog⟩
    · simpa using hne.symm
    · intro z q
      refine (owns_move (l := (lhs.moveAssign rhs).1) (r := (lhs.moveAssign rhs).2.1) hne rfl rfl
        (owns_iff hy q).symm).trans ?_
      simp [eq_comm]
    · refine whole_update (whole_update h.whole ?_) ?_
      · rintro _ ⟨rfl⟩
        exact hwhole.2
      · rintro _ ⟨rfl⟩
        exact hwhole.1
  -- `shutdown_` and `thread_` are of one queue, or both are empty
  | destroy x o hx =>
    have hlost : ∀ q, o.queue = some q ↔ s.Owns x q := fun q => (owns_iff hx q).symm
    have hlog : s.log ++ o.destroy = s.log ++ closing o.queue := by
      show s.log ++ ((o.shutdown.map .shutdown).toList ++ (o.thread.map .join).toList) = _
      rw [(h.whole x o hx).1, hok o hx]
      rfl
    refine ⟨⟨h.close (x := x) (y := none) rfl hlog hlost (by simp) ?_, ?_⟩,
      exact_of_closing rfl hlost hlog⟩
    · intro z q
      unfold Owns
      by_cases hzx : z = x
      · simp [hzx]
      · simp [hzx]
    · refine whole_update h.whole ?_
      rintro _ ⟨⟩

theorem sound (h : machine.Reachable Released s) : Sound s := by
  refine h.invariant ?_ ?_
  · rintro _ rfl
    exact sound_init
  · intro s a s' ih hok hstep
    exact (ih.step hok hstep).1

/-- The destruction of an object that has lost its queue to a move assignment shuts down a
queue that it does not own. -/
theorem Sound.not_exact (h : Sound s) {x : Nat} {o : ActiveCompletionQueue}
    (hx : s.object x = some o) (hne : o.shutdown ≠ o.queue)
    (hstep : s.step (.destroy x) = some s') : ¬ Exact s (.destroy x) s' := by
  intro hexact
  -- an object that owns its queue has it in `shutdown_`, too
  have hnone : o.queue = none := ((h.whole x o hx).2.resolve_right hne)
  cases hq : o.shutdown with
  | none =>
    rw [hq, hnone] at hne
    exact hne rfl
  | some q =>
    -- an exact step leaves the queue alone, as `x` does not own it
    have hkeep : s'.done q = s.done q := by
      refine (hexact q).2 ?_
      rintro _ ⟨rfl⟩ howns
      rw [owns_iff hx, hnone] at howns
      cases howns
    simp only [Program.step, hx] at hstep
    cases hstep
    have hlog : s.log ++ o.destroy = s.log ++ [.shutdown q] := by
      simp [ActiveCompletionQueue.destroy, hq, (h.whole x o hx).1, hnone]
    rw [done_append hlog] at hkeep
    simp [Effect.queue] at hkeep

/-- Where no object is destroyed with a queue that was taken from it, a queue with an owner was
not touched, and one without was shut down once and its thread joined once after that. A step
does that exactly when the owner is destroyed or overwritten if and only if it meets that
condition. -/
theorem ownership_exact (s : Program) (h : machine.Reachable Released s) :
    (∀ x q, s.Owns x q → s.done q = []) ∧
    (∀ q < s.queues, (∀ x, ¬ s.Owns x q) → s.done q = [.shutdown q, .join q]) ∧
    ∀ a s', s.step a = some s' → (Exact s a s' ↔ s.Released a) := by
  have hs := sound h
  refine ⟨hs.owned, hs.ended, ?_⟩
  intro a s' hstep
  constructor
  · intro hexact
    cases a with
    | destroy x =>
      intro o hx
      by_contra hne
      exact hs.not_exact hx hne hstep hexact
    | _ => trivial
  · intro hok
    exact (hs.step hok hstep).2

/-- An object is assigned to another, and then from a third before anything is destroyed. -/
theorem ownership_exact_assigned : ∃ s s', machine.Reachable Released s ∧ s.Owns 0 2 ∧
    s.done 2 = [] ∧ s.step (.destroy 0) = some s' ∧ Exact s (.destroy 0) s' := by
  rcases reachable_of_execIf machine (fun s a => decide (s.Released a)) {}
    [.construct 0, .construct 1, .moveAssign 1 0, .construct 2, .moveAssign 0 2]
    (fun s => decide (s.object 0 = some (.init 2)) && decide (s.Released (.destroy 0)))
    (fun _ _ => of_decide_eq_true) rfl (by decide) with ⟨s, hreach, hcheck⟩
  simp only [Bool.and_eq_true, decide_eq_true_eq] at hcheck
  rcases hcheck with ⟨hobj, hok⟩
  have howns : s.Owns 0 2 := ⟨_, hobj, rfl⟩
  have hstep : ∃ s', s.step (.destroy 0) = some s' := by
    simp only [step, hobj]
    exact ⟨_, rfl⟩
  rcases hstep with ⟨s', hstep⟩
  rcases ownership_exact s hreach with ⟨howned, -, hexact⟩
  exact ⟨s, s', hreach, howns, howned 0 2 howns, hstep, (hexact _ s' hstep).mpr hok⟩

/-- The source of a move assignment is destroyed first: the queue that it has lost is shut down
under its new owner, and again when the new owner is destroyed. -/
theorem moved_from_shuts_down : ∃ s s', machine.Reachable Any s ∧ s.Owns 1 0 ∧
    s.object 0 = none ∧ s.done 0 = [.shutdown 0] ∧ s.step (.destroy 1) = some s' ∧
    s'.done 0 = [.shutdown 0, .shutdown 0, .join 0] := by
  rcases reachable_of_exec machine {} [.construct 0, .construct 1, .moveAssign 1 0, .destroy 0]
    (fun s => decide (s.object 1 = some (.init 0)) && decide (s.object 0 = none) &&
      decide (s.done 0 = [.shutdown 0]) &&
      (s.step (.destroy 1)).any fun s' : Program =>
        decide (s'.done 0 = [.shutdown 0, .shutdown 0, .join 0]))
    rfl (by decide) with ⟨s, hreach, hcheck⟩
  simp only [Bool.and_eq_true, decide_eq_true_eq, Option.any_eq_true] at hcheck
  rcases hcheck with ⟨⟨⟨hobj, hnone⟩, hdone⟩, s', hstep, hdone'⟩
  exact ⟨s, s', hreach, ⟨_, hobj, rfl⟩, hnone, hdone, hstep, hdone'⟩

end Program

end ActiveCompletionQueue

end GeeH
