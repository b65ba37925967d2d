import GeeH.AsyncOps
import GeeH.Rules
import Mathlib.Data.Multiset.Count

/-!
# GeeH.Gate — `async_op_counter` and `async_op_tracer`

Any number of threads use one `async_op_counter`: some call `async_op_start()`
and, if it is granted, `async_op_done()` later; some hold an `async_op_tracer`
for as long as their operation runs; some call `shutdown()` or wait in
`block_until_all_done()`. Each call holds the mutex, so it is one step, but for
the wait, which lets go of the mutex until `pending_` is zero.

The destructor of a tracer calls `async_op_done()` whether or not its start was
granted.
-/

namespace GeeH

/-- An `async_op_counter` and its users. -/
structure Gate where
  counter : AsyncOpCounter := {}
  /-- Ghost: the direct starts that were granted and are not done. -/
  started : Nat := 0
  /-- `status_` of the tracers that are alive. -/
  tracers : Multiset Bool := 0
  /-- The callers that wait in `block_until_all_done()`. -/
  waiting : Nat := 0
  /-- Ghost: a `block_until_all_done()` has returned. -/
  drained : Bool := false
deriving DecidableEq

namespace Gate

open Machine

variable (g : Gate)

/-! ## The calls -/

/-- `async_op_start()`, and what it returns. -/
def asyncOpStart : Gate × Bool :=
  ({ g with
    counter := g.counter.asyncOpStart
    started := g.started + g.counter.grants.toNat }, g.counter.grants)

/-- `async_op_done()`, for a direct start. -/
def asyncOpDone : Gate :=
  { g with counter := g.counter.asyncOpDone, started := g.started - 1 }

/-- `shutdown()`. -/
def shutdown : Gate := { g with counter := g.counter.setShutdown }

/-- `block_until_all_done()`: it looks at `pending_` before it waits. -/
def blockUntilAllDone : Gate :=
  let g := g.shutdown
  if g.counter.pending = 0 then { g with drained := true } else { g with waiting := g.waiting + 1 }

/-- A caller of `block_until_all_done()` wakes up to `pending_ == 0`, and returns. -/
def wake : Gate := { g with waiting := g.waiting - 1, drained := true }

/-- The constructor of an `async_op_tracer`, and its `operator bool`. -/
def constructTracer : Gate × Bool :=
  ({ g with
    counter := g.counter.asyncOpStart
    tracers := g.counter.grants ::ₘ g.tracers }, g.counter.grants)

/-- The destructor of an `async_op_tracer`; it does not look at `status_`. -/
def destroyTracer (status : Bool) : Gate :=
  { g with counter := g.counter.asyncOpDone, tracers := g.tracers.erase status }

/-! ## The machine -/

/-- What the users of a counter do. -/
inductive Act where
  | asyncOpStart
  | asyncOpDone
  | shutdown
  | blockUntilAllDone
  | wake
  | constructTracer
  | destroyTracer (status : Bool)
deriving DecidableEq

/-- One step, with the answer of a start or of a tracer. `async_op_done()` is called once for
each direct start that was granted. -/
def act : Act → Option (Gate × Option Bool)
  | .asyncOpStart => some (g.asyncOpStart.1, some g.asyncOpStart.2)
  | .asyncOpDone => if 0 < g.started then some (g.asyncOpDone, none) else none
  | .shutdown => some (g.shutdown, none)
  | .blockUntilAllDone => some (g.blockUntilAllDone, none)
  | .wake => if 0 < g.waiting ∧ g.counter.pending = 0 then some (g.wake, none) else none
  | .constructTracer => some (g.constructTracer.1, some g.constructTracer.2)
  | .destroyTracer status =>
    if status ∈ g.tracers then some (g.destroyTracer status, none) else none

def machine : Machine Gate Act where
  Init g := g = {}
  step g a := (g.act a).map Prod.fst

/-! ## What the counter is for -/

/-- The operations that were granted and are not done. -/
def outstanding : Nat := g.started + g.tracers.count true

/-- No start and no tracer is granted any more. -/
def Closed : Prop := ∀ a g' answer, g.act a = some (g', some answer) → answer = false

/-- `pending_` counts the operations that were granted and are not done; and once somebody has
waited for them, there are none and there will be none. -/
structure Exact : Prop where
  counts : g.counter.pending = g.outstanding
  nonneg : 0 ≤ g.counter.pending
  drained : g.drained = true → g.counter.pending = 0 ∧ g.Closed

/-- What the destructor of a tracer needs: its start was granted. -/
def Granted (_ : Gate) : Act → Prop
  | .destroyTracer status => status = true
  | _ => True

instance : DecidablePred g.Granted
  | .destroyTracer _ => inferInstanceAs (Decidable (_ = _))
  | .asyncOpStart | .asyncOpDone | .shutdown | .blockUntilAllDone | .wake | .constructTracer =>
    inferInstanceAs (Decidable True)

/-! ## What a step can do -/

section Steps

variable {g} {g' : Gate} {a : Act} {r : Option Bool}

/-- The decrement of a tracer whose start was refused. -/
def Act.lost : Act → Nat
  | .destroyTracer false => 1
  | _ => 0

theorem granted_iff : g.Granted a ↔ a.lost = 0 := by
  cases a with
  | destroyTracer status => cases status <;> simp [Granted, Act.lost]
  | _ => simp [Granted, Act.lost]

/-- The effects that a step can have: something starts or is refused, something is done, the
counter is shut down, or a wait is over. -/
inductive Effect (g g' : Gate) (a : Act) (r : Option Bool) : Prop where
  | starts (hcounter : g'.counter = g.counter.asyncOpStart)
      (hout : g'.outstanding = g.outstanding + g.counter.grants.toNat)
      (hwaiting : g'.waiting = g.waiting) (hdrained : g'.drained = g.drained)
      (hlost : a.lost = 0) (hanswer : r = some g.counter.grants)
  | done (hcounter : g'.counter = g.counter.asyncOpDone)
      (hout : g'.outstanding + 1 = g.outstanding + a.lost)
      (hwaiting : g'.waiting = g.waiting) (hdrained : g'.drained = g.drained)
      (hanswer : r = none)
  | shuts (hcounter : g'.counter = g.counter.setShutdown) (hout : g'.outstanding = g.outstanding)
      (hkept : g.drained = true → g'.drained = true)
      (hnew : g'.drained = true → g.drained = true ∨ g.counter.pending = 0)
      (hlost : a.lost = 0) (hanswer : r = none)
  | returns (hcounter : g'.counter = g.counter) (hout : g'.outstanding = g.outstanding)
      (hwaited : 0 < g.waiting) (hpending : g.counter.pending = 0) (hdrained : g'.drained = true)
      (hlost : a.lost = 0) (hanswer : r = none)

theorem act_cases (hact : g.act a = some (g', r)) : Effect g g' a r := by
  cases a with
  | asyncOpStart =>
    obtain ⟨rfl, rfl⟩ := Prod.mk.inj (Option.some.inj hact)
    exact .starts rfl (by simp only [outstanding, asyncOpStart]; omega) rfl rfl rfl rfl
  | asyncOpDone =>
    obtain ⟨hpos, heq⟩ := Option.ite_none_right_eq_some.mp hact
    obtain ⟨rfl, rfl⟩ := Prod.mk.inj (Option.some.inj heq)
    exact .done rfl (by simp only [outstanding, asyncOpDone, Act.lost]; omega) rfl rfl rfl
  | shutdown =>
    obtain ⟨rfl, rfl⟩ := Prod.mk.inj (Option.some.inj hact)
    exact .shuts rfl rfl id .inl rfl rfl
  | blockUntilAllDone =>
    obtain ⟨rfl, rfl⟩ := Prod.mk.inj (Option.some.inj hact)
    simp only [blockUntilAllDone]
    split
    · rename_i hzero
      exact .shuts rfl rfl (fun _ => rfl) (fun _ => .inr hzero) rfl rfl
    · exact .shuts rfl rfl id .inl rfl rfl
  | wake =>
    obtain ⟨⟨hpos, hzero⟩, heq⟩ := Option.ite_none_right_eq_some.mp hact
    obtain ⟨rfl, rfl⟩ := Prod.mk.inj (Option.some.inj heq)
    exact .returns rfl rfl hpos hzero rfl rfl rfl
  | constructTracer =>
    obtain ⟨rfl, rfl⟩ := Prod.mk.inj (Option.some.inj hact)
    refine .starts rfl ?_ rfl rfl rfl rfl
    simp only [outstanding, constructTracer]
    cases g.counter.grants with
    | true =>
      rw [Multiset.count_cons_self]
      rfl
    | false =>
      rw [Multiset.count_cons_of_ne (by simp)]
      rfl
  | destroyTracer status =>
    obtain ⟨hmem, heq⟩ := Option.ite_none_right_eq_some.mp hact
    obtain ⟨rfl, rfl⟩ := Prod.mk.inj (Option.some.inj heq)
    refine .done rfl ?_ rfl rfl rfl
    simp only [outstanding, destroyTracer]
    cases status with
    | true =>
      have hpos : 0 < g.tracers.count true := Multiset.count_pos.mpr hmem
      rw [Multiset.count_erase_self]
      simp only [Act.lost]
      omega
    | false =>
      -- the tracer was never counted
      rw [Multiset.count_erase_of_ne (by simp)]
      rfl

theorem refused (h : g.counter.shutdown = true) :
    g.counter.grants = false ∧ g.counter.asyncOpStart = g.counter :=
  ⟨by simp [AsyncOpCounter.grants, h], if_pos h⟩

/-! ## The balance -/

/-- What `pending_` has beyond the outstanding operations. -/
def surplus (g : Gate) : Int := g.counter.pending - g.outstanding

theorem surplus_act (hact : g.act a = some (g', r)) : g'.surplus + a.lost = g.surplus := by
  unfold surplus
  cases act_cases hact with
  | starts hcounter hout _ _ hlost _ =>
    have hpending : g.counter.asyncOpStart.pending =
        g.counter.pending + g.counter.grants.toNat := by
      cases hshut : g.counter.shutdown with
      | true => simp [AsyncOpCounter.asyncOpStart, AsyncOpCounter.grants, hshut]
      | false => simp [AsyncOpCounter.asyncOpStart, AsyncOpCounter.grants, hshut]
    rw [hcounter]
    omega
  | done hcounter hout _ _ _ =>
    rw [hcounter, AsyncOpCounter.asyncOpDone_pending]
    omega
  | shuts hcounter hout _ _ hlost _ =>
    rw [hcounter, AsyncOpCounter.setShutdown_pending]
    omega
  | returns hcounter hout _ _ _ hlost _ =>
    rw [hcounter]
    omega

/-- `pending_` is the number of outstanding operations exactly in the runs that destroy no tracer
whose start was refused. -/
theorem surplus_eq_zero (hg : machine.Reachable Any g) :
    g.surplus = 0 ↔ machine.Reachable Granted g := by
  have hbalance : g.surplus = 0 ↔ machine.Reachable (fun _ a => a.lost = 0) g := by
    refine Reachable.balance ?_ ?_ hg
    · rintro _ rfl
      rfl
    · intro g a g' hstep
      rcases Option.map_eq_some_iff.mp hstep with ⟨⟨g', r⟩, hact, rfl⟩
      exact surplus_act hact
  exact hbalance.trans (Reachable.congr fun g a _ _ _ => granted_iff.symm)

/-! ## After the wait -/

/-- Whoever waits, or has waited, has shut the counter down. -/
def Shut (g : Gate) : Prop := 0 < g.waiting ∨ g.drained = true → g.counter.shutdown = true

theorem shut_act (h : Shut g) (hact : g.act a = some (g', r)) : Shut g' := by
  unfold Shut
  cases act_cases hact with
  | starts hcounter _ hwaiting hdrained _ _ =>
    rw [hcounter, hwaiting, hdrained, AsyncOpCounter.asyncOpStart_shutdown]
    exact h
  | done hcounter _ hwaiting hdrained _ =>
    rw [hcounter, hwaiting, hdrained]
    exact h
  | shuts hcounter _ _ _ _ _ =>
    rw [hcounter]
    exact fun _ => rfl
  | returns hcounter _ hwaited _ _ _ _ =>
    rw [hcounter]
    exact fun _ => h (.inl hwaited)

theorem closed_of_shutdown (h : g.counter.shutdown = true) : g.Closed := by
  intro a g' answer hact
  cases act_cases hact with
  | starts _ _ _ _ _ hanswer => exact (Option.some.inj hanswer).trans (refused h).1
  | done _ _ _ _ hanswer => cases hanswer
  | shuts _ _ _ _ _ hanswer => cases hanswer
  | returns _ _ _ _ _ _ hanswer => cases hanswer

/-- Whoever has waited has left nothing behind. -/
def Emptied (g : Gate) : Prop := g.drained = true → g.counter.pending = 0

theorem emptied_act (h : Emptied g) (hshut : Shut g) (hzero : g.surplus = 0) (ha : g.Granted a)
    (hact : g.act a = some (g', r)) : Emptied g' := by
  intro hd'
  cases act_cases hact with
  | starts hcounter _ _ hdrained _ _ =>
    have hd : g.drained = true := hdrained.symm.trans hd'
    rw [hcounter, (refused (hshut (.inr hd))).2]
    exact h hd
  | done _ hout _ hdrained _ =>
    -- there was nothing left that could be done
    have hpending := h (hdrained.symm.trans hd')
    have hlost := granted_iff.mp ha
    unfold surplus at hzero
    omega
  | shuts hcounter _ _ hnew _ _ =>
    rw [hcounter]
    exact (hnew hd').elim h id
  | returns hcounter _ _ hpending _ _ _ =>
    rw [hcounter]
    exact hpending

/-- Who has waited has waited for good. -/
theorem drained_act (hd : g.drained = true) (hact : g.act a = some (g', r)) :
    g'.drained = true := by
  cases act_cases hact with
  | starts _ _ _ hdrained _ _ => exact hdrained.trans hd
  | done _ _ _ hdrained _ => exact hdrained.trans hd
  | shuts _ _ hkept _ _ _ => exact hkept hd
  | returns _ _ _ _ hdrained _ _ => exact hdrained

theorem reachable_shut (hg : machine.Reachable Any g) : Shut g := by
  refine hg.invariant ?_ ?_
  · rintro _ rfl hw
    cases hw with
    | inl hpos => exact absurd hpos (Nat.lt_irrefl 0)
    | inr hd => cases hd
  · intro g a g' ih _ hstep
    rcases Option.map_eq_some_iff.mp hstep with ⟨⟨g', r⟩, hact, rfl⟩
    exact shut_act ih hact

theorem reachable_exact (hg : machine.Reachable Granted g) : Exact g := by
  have hany : ∀ g, machine.Reachable Granted g → machine.Reachable Any g :=
    fun g hg => hg.mono fun _ _ _ => trivial
  have hzero : ∀ g, machine.Reachable Granted g → g.surplus = 0 :=
    fun g hg => (surplus_eq_zero (hany g hg)).mpr hg
  have hshut : ∀ g, machine.Reachable Granted g → Shut g ∧ g.surplus = 0 :=
    fun g hg => ⟨reachable_shut (hany g hg), hzero g hg⟩
  have hempty : Emptied g := by
    refine hg.invariant_of hshut ?_ ?_
    · rintro _ rfl hd
      cases hd
    · rintro g a g' ⟨hshut, hz⟩ ih ha hstep
      rcases Option.map_eq_some_iff.mp hstep with ⟨⟨g', r⟩, hact, rfl⟩
      exact emptied_act ih hshut hz ha hact
  have hcounts : g.counter.pending = g.outstanding := by
    have hz := hzero g hg
    unfold surplus at hz
    omega
  refine ⟨hcounts, by omega, ?_⟩
  intro hd
  exact ⟨hempty hd, closed_of_shutdown (reachable_shut (hany g hg) (.inr hd))⟩

/-! ## Below zero -/

/-- Shut down and below zero. -/
structure Overdrawn (g : Gate) : Prop where
  shutdown : g.counter.shutdown = true
  negative : g.counter.pending < 0

/-- Nothing counts up any more, so nobody returns from the wait. -/
theorem Overdrawn.act (h : Overdrawn g) (hact : g.act a = some (g', r)) :
    Overdrawn g' ∧ g'.drained = g.drained := by
  have hneg := h.negative
  cases act_cases hact with
  | starts hcounter _ _ hdrained _ _ =>
    have hsame : g'.counter = g.counter := hcounter.trans (refused h.shutdown).2
    exact ⟨⟨hsame ▸ h.shutdown, hsame ▸ hneg⟩, hdrained⟩
  | done hcounter _ _ hdrained _ =>
    refine ⟨⟨hcounter ▸ h.shutdown, ?_⟩, hdrained⟩
    rw [hcounter, AsyncOpCounter.asyncOpDone_pending]
    omega
  | shuts hcounter _ hkept hnew _ _ =>
    refine ⟨⟨hcounter ▸ rfl, hcounter ▸ hneg⟩, Bool.eq_iff_iff.mpr ⟨?_, hkept⟩⟩
    exact fun hd' => (hnew hd').resolve_right hneg.ne
  | returns _ _ _ hpending _ _ _ => exact absurd hpending hneg.ne

/-- A negative count makes every later wait for zero last for ever. -/
theorem Overdrawn.run (h : Overdrawn g) (hrun : machine.Run Any g g') :
    Overdrawn g' ∧ g'.drained = g.drained := by
  refine hrun.invariant ?_ ⟨h, rfl⟩
  rintro s a s' ⟨hs, hdrained⟩ _ hstep
  rcases Option.map_eq_some_iff.mp hstep with ⟨⟨s', r⟩, hact, rfl⟩
  exact ⟨(hs.act hact).1, (hs.act hact).2.trans hdrained⟩

/-! ## The gate is exact -/

/-- A counter is exact in the runs that destroy no tracer whose start was refused, and in no
others. In such a run, once a `block_until_all_done()` has returned, nothing is pending and
nothing is granted, for ever. -/
theorem gate_exact (hg : machine.Reachable Any g) :
    (Exact g ↔ machine.Reachable Granted g) ∧
    (Exact g → g.drained = true → ∀ g', machine.Run Granted g g' →
      g'.counter.pending = 0 ∧ g'.Closed) := by
  have hiff : Exact g ↔ machine.Reachable Granted g := by
    constructor
    · intro h
      refine (surplus_eq_zero hg).mp ?_
      have hcounts := h.counts
      unfold surplus
      omega
    · exact reachable_exact
  refine ⟨hiff, ?_⟩
  intro h hd g' hrun
  have hd' : g'.drained = true := by
    refine hrun.invariant ?_ hd
    intro g a g' ih _ hstep
    rcases Option.map_eq_some_iff.mp hstep with ⟨⟨g', r⟩, hact, rfl⟩
    exact drained_act ih hact
  exact (reachable_exact ((hiff.mp h).run hrun)).drained hd'

end Steps

/-- Two operations are started, one of them with a tracer, while another thread waits; a tracer
that came too late is still alive when the wait is over. -/
theorem gate_exact_waited : ∃ g, machine.Reachable Any g ∧ g.tracers = {false} ∧ Exact g ∧
    ∀ g', machine.Run Granted g g' → g'.counter.pending = 0 ∧ g'.Closed := by
  rcases reachable_of_execIf machine (fun g a => decide (g.Granted a)) {}
    [.asyncOpStart, .constructTracer, .blockUntilAllDone, .constructTracer,
      .destroyTracer true, .asyncOpDone, .wake]
    (fun g => g.drained && decide (g.tracers = {false})) (fun _ _ => of_decide_eq_true) rfl
    (by decide) with ⟨g, hreach, hcheck⟩
  simp only [Bool.and_eq_true, decide_eq_true_eq] at hcheck
  have hany : machine.Reachable Any g := hreach.mono fun _ _ _ => trivial
  rcases gate_exact hany with ⟨hiff, hafter⟩
  have hexact : Exact g := hiff.mpr hreach
  exact ⟨g, hany, hcheck.2, hexact, hafter hexact hcheck.1⟩

/-- A tracer is constructed after `shutdown()`, and destroyed: the count is below zero, and whoever
waits for it waits for ever. The same after a wait that has returned. -/
theorem refused_tracer_uncounted :
    (∃ g, machine.Reachable Any g ∧ g.outstanding = 0 ∧ g.counter.pending = -1 ∧
      ∀ g', machine.Run Any g g' → g'.drained = false) ∧
    ∃ g, machine.Reachable Any g ∧ g.drained = true ∧ g.counter.pending = -1 := by
  constructor
  · rcases reachable_of_exec machine {} [.shutdown, .constructTracer, .destroyTracer false]
      (fun g => decide (g.counter = { pending := -1, shutdown := true } ∧ g.outstanding = 0) &&
        !g.drained) rfl (by decide) with ⟨g, hreach, hcheck⟩
    simp only [Bool.and_eq_true, decide_eq_true_eq, Bool.not_eq_true'] at hcheck
    rcases hcheck with ⟨⟨hcounter, hnone⟩, hd⟩
    have hover : Overdrawn g := by
      constructor
      · rw [hcounter]
      · rw [hcounter]
        decide
    refine ⟨g, hreach, hnone, congrArg AsyncOpCounter.pending hcounter, ?_⟩
    exact fun g' hrun => (hover.run hrun).2.trans hd
  · rcases reachable_of_exec machine {}
      [.blockUntilAllDone, .constructTracer, .destroyTracer false]
      (fun g => g.drained && decide (g.counter.pending = -1)) rfl (by decide)
      with ⟨g, hreach, hcheck⟩
    simp only [Bool.and_eq_true, decide_eq_true_eq] at hcheck
    exact ⟨g, hreach, hcheck.1, hcheck.2⟩

end Gate

end GeeH
