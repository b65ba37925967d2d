import GeeH.Candidate.Accounting
import GeeH.Handlers
import GeeH.Observer.Accounting
import GeeH.Session.Accounting

/-!
# GeeH.Teardown — destructors, and the handlers they wait for

The three classes as `Reactor`s: a completion handler is entered by the thread
of the completion queue, calls `async_op_done()`, runs its body and returns,
while the calls of the application, the destructor's among them, run on other
threads. The counters are the guard: what a handler has been entered for and
has not settled yet is owed, and the destructor returns only when nothing is.
-/

namespace GeeH

open Machine

/-! ## The observer -/

namespace Observer

variable {c c' : Observer} {a : Act} {o : Outcome}

/-- The observer, its handlers taken apart. -/
def reactor : Reactor Observer Act Completion where
  Init c := ∃ name, c = init name
  call c a := if a.isQueue then none else (c.act a).map Prod.fst
  ready c k := decide (k.op ∈ c.pending ∧ k.WellFormed)
  enter := enter
  release c _ := c.asyncOpDone
  body c k := (c.body k).1
  gone c := c.destroyed && decide (c.calls = 0)

/-- The operation of the handler that was entered last is the only one owed. -/
def Guarded (c : Observer) (e : Option Completion) : Prop :=
  Stage c ∧ c.owed = e.elim 0 fun _ => 1

theorem guard : reactor.Guard Any Guarded where
  init := by
    rintro _ ⟨name, rfl⟩
    exact ⟨.live rfl rfl (Multiset.notMem_zero _), rfl⟩
  call := by
    rintro c e a c' ⟨hs, howed⟩ _ hcall
    simp only [reactor] at hcall
    split at hcall
    · cases hcall
    · rename_i hq
      rcases Option.map_eq_some_iff.mp hcall with ⟨⟨d, o⟩, hact, rfl⟩
      rcases settled_act hs (fun k hk => hq (by rw [hk]; rfl)) hact with ⟨hs', howed'⟩
      exact ⟨hs', howed'.trans howed⟩
  enter := by
    rintro c k ⟨hs, howed⟩ hready
    have hmem : k.op ∈ c.pending := (of_decide_eq_true hready).1
    refine ⟨hs.enter k, ?_⟩
    show (c.enter k).owed = 1
    rw [owed_enter hmem, howed]
    rfl
  release := by
    rintro c k ⟨hs, howed⟩
    have hone : c.owed = 1 := howed
    refine ⟨hs.asyncOpDone (by omega), ?_⟩
    show c.asyncOpDone.owed = 0
    rw [owed_asyncOpDone, hone]
    rfl
  body := by
    rintro c k ⟨hs, howed⟩
    have hbody := balanced_body c k
    exact ⟨hbody.stage hs, hbody.ops.trans howed⟩
  idle := by
    rintro c e ⟨hs, howed⟩ hgone
    simp only [reactor, Bool.and_eq_true, decide_eq_true_eq] at hgone
    rcases hgone with ⟨hd, hcalls⟩
    have hzero : c.ops.pending = 0 := by
      cases hs with
      | live hd' => exact absurd (hd.symm.trans hd') (by simp)
      | cleanup _ _ hcalls' => exact absurd (hcalls'.symm.trans hcalls) (by simp)
      | gone _ _ _ hpend => exact hpend
    unfold owed at howed
    cases e with
    | some k =>
      simp only [Option.elim_some] at howed
      omega
    | none =>
      simp only [Option.elim_none] at howed
      have hpend : c.pending = 0 := pending_of_idle (by omega)
      refine ⟨rfl, ?_⟩
      intro k
      simp [reactor, hpend]
  stays := by
    intro c k
    have hbody := balanced_body c k
    refine ⟨id, id, ?_⟩
    simp only [reactor, hbody.destroyed, hbody.calls]
    exact id

/-- Runs with atomic handlers are among the runs of the reactor. -/
theorem threads_of_run (h : machine.Run Any c c') :
    reactor.machine.Run Any { obj := c } { obj := c' } := by
  refine Reactor.run_of_atomic ?_ h
  intro c a c' hstep
  rcases Option.map_eq_some_iff.mp hstep with ⟨⟨d, o⟩, hact, rfl⟩
  cases hq : a.isQueue with
  | true =>
    cases a with
    | complete k =>
      rcases act_complete hact with ⟨hmem, hwf, rfl⟩
      exact .inr ⟨k, decide_eq_true ⟨hmem, hwf⟩, rfl⟩
    | _ => cases hq
  | false => exact .inl ⟨a, by simp [reactor, hq, hact]⟩

end Observer

/-! ## The candidate -/

namespace Candidate

variable {c c' : Candidate} {a : Act} {o : Outcome}

/-- The handlers: those of the posted operations, and `on_watch_cancel()` for the cancel
writes of `resign()`. -/
inductive Handler where
  | completion (k : Completion)
  | watchCancel (writes : Multiset Nat) (w : Nat)
deriving DecidableEq

/-- The candidate, its handlers taken apart. `on_watch_cancel()` lets go of its write by the
counter of the `resign()` that waits for it; its body does nothing. -/
def reactor : Reactor Candidate Act Handler where
  Init c := ∃ name leaseId value, c = init name leaseId value
  call c a := if a.isQueue then none else (c.act a).map Prod.fst
  ready c
    | .completion k => decide (k.op ∈ c.pending ∧ k.WellFormed)
    | .watchCancel writes w => decide (.resignCancels writes ∈ c.calls ∧ w ∈ writes)
  enter c
    | .completion k => c.enter k
    | .watchCancel _ _ => c
  release c
    | .completion k => c.asyncOpDone k
    | .watchCancel writes w =>
      c.moveCall (.resignCancels writes) (.resignCancels (writes.erase w))
  body c
    | .completion k => (c.body k).1
    | .watchCancel _ _ => c
  gone c := c.destroyed && decide (c.calls = 0)

/-- What the counters owe to the handler that was entered last. -/
def Owes (c : Candidate) : Option Handler → Prop
  | none => 0 ≤ c.owed ∧ 0 ≤ c.owedReads
  | some (.completion k) => (k.op.inOps : Int) ≤ c.owed ∧ (k.isRead.toNat : Int) ≤ c.owedReads
  | some (.watchCancel writes w) =>
    0 ≤ c.owed ∧ 0 ≤ c.owedReads ∧ .resignCancels writes ∈ c.calls ∧ w ∈ writes

def Guarded (c : Candidate) (e : Option Handler) : Prop := Stage c ∧ c.Owes e

theorem Owes.nonneg {e : Option Handler} (h : c.Owes e) : 0 ≤ c.owed ∧ 0 ≤ c.owedReads := by
  rcases e with _ | ⟨k | ⟨writes, w⟩⟩
  · exact h
  · rcases h with ⟨hops, hreads⟩
    constructor
    · omega
    · omega
  · exact ⟨h.1, h.2.1⟩

/-- No call but its own handler takes a write from the counter of a `resign()`. -/
theorem cancels_stay {writes : Multiset Nat} {w : Nat} (hmem : .resignCancels writes ∈ c.calls)
    (hw : w ∈ writes) (hq : a.isQueue = false) (hact : c.act a = some (c', o)) :
    .resignCancels writes ∈ c'.calls := by
  cases a with
  | complete k => cases hq
  | cancelWritten _ _ => cases hq
  | resign =>
    obtain ⟨-, rfl⟩ := of_guard_not hact
    unfold resign
    split
    · exact hmem
    · cases hstream : c.watcherStream with
      | false => simpa [hstream] using hmem
      | true => simpa [hstream] using Or.inr hmem
  | cancelsDone =>
    obtain ⟨-, rfl⟩ := of_guard hact
    have hne : writes ≠ 0 := fun h => Multiset.notMem_zero w (h ▸ hw)
    refine Multiset.mem_cons_of_mem ((Multiset.mem_erase_of_ne ?_).mpr hmem)
    exact fun h => hne (Call.resignCancels.inj h)
  | _ =>
    -- the weight that counts the calls which wait for these writes
    let weight : Call → Nat := fun call => if call = .resignCancels writes then 1 else 0
    have hweight : ∀ call : Call, call.isCancels = false → weight call = 0 := by
      intro call hcall
      refine if_neg ?_
      rintro rfl
      cases hcall
    have htotal := total_act hweight hact rfl
    by_contra hnot
    have hzero : Pool.total weight c'.calls = 0 := by
      refine (Pool.total_eq_zero weight).mpr ?_
      intro call hcall
      refine if_neg ?_
      rintro rfl
      exact hnot hcall
    rw [htotal] at hzero
    have hone : weight (.resignCancels writes) = 0 := (Pool.total_eq_zero weight).mp hzero _ hmem
    simp [weight] at hone

theorem guard : reactor.Guard Any Guarded where
  init := by
    rintro _ ⟨name, leaseId, value, rfl⟩
    exact ⟨init_stage name leaseId value, le_rfl, le_rfl⟩
  call := by
    rintro c e a c' ⟨hs, howes⟩ _ hcall
    simp only [reactor] at hcall
    split at hcall
    · cases hcall
    · rename_i hq
      rcases Option.map_eq_some_iff.mp hcall with ⟨⟨d, o⟩, hact, rfl⟩
      rcases settled_act hs (fun k hk => hq (by rw [hk]; rfl)) hact with ⟨hs', hops, hreads⟩
      refine ⟨hs', ?_⟩
      rcases e with _ | ⟨k | ⟨writes, w⟩⟩
      · exact ⟨hops ▸ howes.1, hreads ▸ howes.2⟩
      · exact ⟨hops ▸ howes.1, hreads ▸ howes.2⟩
      · rcases howes with ⟨h₁, h₂, hmem, hw⟩
        exact ⟨hops ▸ h₁, hreads ▸ h₂, cancels_stay hmem hw (by simpa using hq) hact, hw⟩
  enter := by
    rintro c (k | ⟨writes, w⟩) ⟨hs, howes⟩ hready
    · have hmem : k.op ∈ c.pending := (of_decide_eq_true hready).1
      have henter := owed_enter hmem
      rcases howes with ⟨h₁, h₂⟩
      refine ⟨hs.enter k, ?_, ?_⟩
      · show _ ≤ (c.enter k).owed
        omega
      · show _ ≤ (c.enter k).owedReads
        omega
    · have hmem := of_decide_eq_true hready
      exact ⟨hs, howes.1, howes.2, hmem.1, hmem.2⟩
  release := by
    rintro c (k | ⟨writes, w⟩) ⟨hs, howes⟩
    · have hdone := owed_asyncOpDone c k
      have hlost := k.settles_add_lost
      rcases howes with ⟨h₁, h₂⟩
      refine ⟨hs.asyncOpDone h₁ h₂, ?_, ?_⟩
      · show 0 ≤ (c.asyncOpDone k).owed
        omega
      · show 0 ≤ (c.asyncOpDone k).owedReads
        omega
    · rcases howes with ⟨h₁, h₂, hmem, hw⟩
      have hact : c.act (.cancelWritten writes w) =
          some (c.moveCall (.resignCancels writes) (.resignCancels (writes.erase w)), .running) :=
        if_pos ⟨hmem, hw⟩
      rcases settled_act hs (by simp) hact with ⟨hs', hops, hreads⟩
      exact ⟨hs', hops ▸ h₁, hreads ▸ h₂⟩
  body := by
    rintro c (k | ⟨writes, w⟩) ⟨hs, howes⟩
    · have hbody := balanced_body c k
      exact ⟨hs.body k, hbody.ops ▸ howes.1, hbody.reads ▸ howes.2⟩
    · exact ⟨hs, howes⟩
  idle := by
    rintro c e ⟨hs, howes⟩ hgone
    simp only [reactor, Bool.and_eq_true, decide_eq_true_eq] at hgone
    rcases hgone with ⟨hd, hcalls⟩
    have hzero : c.ops.pending = 0 ∧ c.reads.pending = 0 := by
      cases hs with
      | live hd' => exact absurd (hd.symm.trans hd') (by simp)
      | cleanupOps _ _ hcalls' => exact absurd (hcalls'.symm.trans hcalls) (by simp)
      | cleanupReads _ _ _ hcalls' => exact absurd (hcalls'.symm.trans hcalls) (by simp)
      | gone _ _ _ _ hops hreads => exact ⟨hops, hreads⟩
    rcases howes.nonneg with ⟨hops, hreads⟩
    have hpend : c.pending = 0 := pending_of_owed hzero.1 hzero.2 hops hreads
    constructor
    · rcases e with _ | ⟨k | ⟨writes, w⟩⟩
      · rfl
      · have hsome := k.op.counted
        rcases howes with ⟨h₁, h₂⟩
        unfold owed at h₁
        unfold owedReads at h₂
        unfold Completion.isRead at h₂
        omega
      · have hmem : .resignCancels writes ∈ c.calls := howes.2.2.1
        rw [hcalls] at hmem
        exact absurd hmem (Multiset.notMem_zero _)
    · rintro (k | ⟨writes, w⟩)
      · simp [reactor, hpend]
      · simp [reactor, hcalls]
  stays := by
    rintro c (k | ⟨writes, w⟩)
    · have hview : ∀ d : Candidate, d.callView = c.callView →
          reactor.gone d = true → reactor.gone c = true := by
        intro d hview hgone
        have hd : d.destroyed = c.destroyed := congrArg CallView.destroyed hview
        have hcalls : d.calls = c.calls := congrArg CallView.calls hview
        simpa only [reactor, hd, hcalls] using hgone
      exact ⟨hview _ (callView_enter c k), hview _ (callView_asyncOpDone c k),
        hview _ (callView_body c k)⟩
    · refine ⟨id, ?_, id⟩
      intro hgone
      simp [reactor, moveCall] at hgone

/-- Runs with atomic handlers are among the runs of the reactor. -/
theorem threads_of_run (h : machine.Run Any c c') :
    reactor.machine.Run Any { obj := c } { obj := c' } := by
  refine Reactor.run_of_atomic ?_ h
  intro c a c' hstep
  rcases machine_step hstep with ⟨o, hact⟩
  cases hq : a.isQueue with
  | true =>
    cases a with
    | complete k =>
      rcases completed_of_act hact with ⟨hmem, hwf, rfl⟩
      exact .inr ⟨.completion k, decide_eq_true ⟨hmem, hwf⟩, rfl⟩
    | cancelWritten writes w =>
      obtain ⟨hmem, rfl⟩ := of_guard hact
      exact .inr ⟨.watchCancel writes w, decide_eq_true hmem, rfl⟩
    | _ => cases hq
  | false => exact .inl ⟨a, by simp [reactor, hq, hact]⟩

end Candidate

/-! ## The session -/

namespace Session

variable {c c' : Session} {a : Act} {o : Outcome}

/-- The session, its handlers taken apart. It is gone when `shutdown()` has returned, to the
destructor or to the constructor that rethrows. -/
def reactor : Reactor Session Act Completion where
  Init c := ∃ desiredTtl leaseId, c = init desiredTtl leaseId
  call c a := if a.isQueue then none else (c.act a).map Prod.fst
  ready c k := decide (k.op ∈ c.pending ∧ k.WellFormed)
  enter := enter
  release := asyncOpDone
  body := body
  gone c := (c.destroyed || !c.constructed) && decide (c.calls = 0)

/-- What the counters owe is the operation of the handler that was entered last. -/
structure Guarded (c : Session) (e : Option Completion) : Prop where
  orderly : Orderly c
  ops : c.owed = e.elim 0 fun k => (k.op.inOps : Int)
  reads : c.owedReads = e.elim 0 fun k => (k.isRead.toNat : Int)

theorem Guarded.nonneg {e : Option Completion} (h : Guarded c e) : 0 ≤ c.owed ∧ 0 ≤ c.owedReads := by
  rw [h.ops, h.reads]
  cases e with
  | none => exact ⟨le_rfl, le_rfl⟩
  | some k => exact ⟨Int.natCast_nonneg _, Int.natCast_nonneg _⟩

/-- `shutdown()` has waited for both counters when it returns. -/
theorem Orderly.gone (h : Orderly c) (hgone : reactor.gone c = true) :
    c.calls = 0 ∧ c.ops.pending = 0 ∧ c.reads.pending = 0 := by
  simp only [reactor, Bool.and_eq_true, Bool.or_eq_true, Bool.not_eq_true', decide_eq_true_eq]
    at hgone
  rcases hgone with ⟨hover, hcalls⟩
  have hnone : ∀ call, call ∉ c.calls := by
    rw [hcalls]
    exact Multiset.notMem_zero
  have hops : c.ops.shutdown = true := by
    rcases h.closing hover with hops | ⟨call, hmem, _⟩
    · exact hops
    · exact absurd hmem (hnone call)
  refine ⟨hcalls, ?_, (h.closed hops).2⟩
  rcases h.drained hops with ⟨call, hmem, _⟩ | hzero
  · exact absurd hmem (hnone call)
  · exact hzero

theorem guard : reactor.Guard Traced Guarded where
  init := by
    rintro _ ⟨ttl, id, rfl⟩
    exact ⟨init_orderly ttl id, rfl, rfl⟩
  call := by
    intro c e a c' h htr hcall
    simp only [reactor] at hcall
    split at hcall
    · cases hcall
    · rename_i hq
      rcases Option.map_eq_some_iff.mp hcall with ⟨⟨d, o⟩, hact, rfl⟩
      rcases orderly_act h.orderly h.nonneg.1 (fun k hk => hq (by rw [hk]; rfl)) hact with
        ⟨ho, hops, hreads⟩
      rw [show c.refused a = 0 from htr] at hops
      exact ⟨ho, by simpa using hops.trans (by simp [h.ops]), hreads.trans h.reads⟩
  enter := by
    intro c k h hready
    have hmem : k.op ∈ c.pending := (of_decide_eq_true hready).1
    rcases owed_enter hmem with ⟨hops, hreads⟩
    refine ⟨h.orderly.enter k, ?_, ?_⟩
    · show (c.enter k).owed = k.op.inOps
      rw [hops, h.ops]
      simp
    · show (c.enter k).owedReads = k.isRead.toNat
      rw [hreads, h.reads]
      simp
  release := by
    intro c k h
    rcases owed_asyncOpDone c k with ⟨hops, hreads⟩
    refine ⟨h.orderly.asyncOpDone h.ops.ge h.reads.ge, ?_, ?_⟩
    · show (c.asyncOpDone k).owed = 0
      rw [hops, h.ops]
      simp
    · show (c.asyncOpDone k).owedReads = 0
      rw [hreads, h.reads]
      simp
  body := by
    intro c k h
    have hbody := balanced_body c k
    exact ⟨hbody.orderly h.orderly, hbody.ops.trans h.ops, hbody.reads.trans h.reads⟩
  idle := by
    intro c e h hgone
    rcases h.orderly.gone hgone with ⟨hcalls, hzero, hzero'⟩
    have hpend : c.pending = 0 := pending_of_owed hzero hzero' h.nonneg.1 h.nonneg.2
    constructor
    · cases e with
      | none => rfl
      | some k =>
        have hone := k.op.counted
        have hops := h.ops
        have hreads := h.reads
        simp only [owed, owedReads, hpend, Option.elim_some] at hops hreads
        unfold Completion.isRead at hreads
        omega
    · intro k
      simp [reactor, hpend]
  stays := by
    intro c k
    have hbody := balanced_body c k
    refine ⟨id, ?_, ?_⟩
    · cases k <;> exact id
    · simp only [reactor, hbody.destroyed, hbody.constructed, hbody.calls]
      exact id

/-- Runs with atomic handlers are among the runs of the reactor. -/
theorem threads_of_run (h : machine.Run Any c c') :
    reactor.machine.Run Any { obj := c } { obj := c' } := by
  refine Reactor.run_of_atomic ?_ h
  intro c a c' hstep
  rcases Option.map_eq_some_iff.mp hstep with ⟨⟨d, o⟩, hact, rfl⟩
  cases hq : a.isQueue with
  | true =>
    cases a with
    | complete k =>
      rcases act_complete hact with ⟨hmem, hwf, rfl⟩
      exact .inr ⟨k, decide_eq_true ⟨hmem, hwf⟩, rfl⟩
    | _ => cases hq
  | false => exact .inl ⟨a, by simp [reactor, hq, hact]⟩

end Session

/-! ## The destructors -/

/-- A destructor that returns leaves no handler behind, in runs in which it does not return
between the `async_op_done()` of a handler and the handler's return; and in those alone. For a
session, no tracer of a `revoke()` may have been refused. -/
theorem destructors_wait (o : Threads Observer Observer.Completion)
    (c : Threads Candidate Candidate.Handler) (s : Threads Session Session.Completion) :
    Observer.reactor.Joins Any o ∧ Candidate.reactor.Joins Any c ∧
    Session.reactor.Joins Session.Traced s :=
  ⟨Observer.guard.joins o, Candidate.guard.joins c, Session.guard.joins s⟩

/-- An observer whose query is cancelled, and whose handler returns before the destructor is
entered. -/
theorem destructors_wait_cancelled : ∃ s, Observer.reactor.machine.Reachable
    (Observer.reactor.Waits Any) s ∧ Observer.reactor.gone s.obj = true ∧ s.running = none := by
  rcases reachable_of_execIf Observer.reactor.machine
    (fun s a => decide (Observer.reactor.Waits Any s a)) { obj := Observer.init [] }
    [.call .startup, .call (.streamCreated true),
      .enter (.range (Observer.init []).discoverRequest none false {}), .release, .body, .leave,
      .call .destroy, .call .opsDrained]
    (fun s => Observer.reactor.gone s.obj) (fun _ _ => of_decide_eq_true) ⟨⟨_, rfl⟩, rfl⟩
    (by decide) with ⟨s, hreach, hgone⟩
  exact ⟨s, hreach, hgone,
    ((destructors_wait s { obj := .init [] 1 [] } { obj := .init 10000 0 }).1.quiet hreach hgone).1⟩

/-- A new leader. -/
def leaderPut : Etcd.WatchResponse :=
  { events := [{ type := .put, kv := { key := [1], value := [2], createRevision := 2 } }] }

/-- The destructor of an observer returns while `on_watch_read()` is at work, which then changes
the nodes of an observer that is gone. -/
theorem handler_outlives_observer : ∃ s s', Observer.reactor.machine.Reachable Any s ∧
    Observer.reactor.gone s.obj = true ∧
    s.running = some (.watchRead true leaderPut, .released) ∧
    Observer.reactor.machine.step s .body = some s' ∧
    s'.obj.participants ≠ s.obj.participants := by
  let c := Observer.init []
  rcases reachable_of_exec Observer.reactor.machine { obj := c }
    [.call .startup, .call (.streamCreated true),
      .call (.answerRange c.discoverRequest { revision := 1 }),
      .enter (.range c.discoverRequest (some { revision := 1 }) true {}), .release, .body, .leave,
      .enter (.watchCreate (c.watcherRequest 1) true), .release, .body, .leave,
      .enter (.watchRead true leaderPut), .release, .call .destroy, .call .opsDrained]
    (fun s => Observer.reactor.gone s.obj &&
      decide (s.running = some (.watchRead true leaderPut, .released)) &&
      (Observer.reactor.machine.step s .body).any fun s' =>
        decide (s'.obj.participants ≠ s.obj.participants))
    ⟨⟨_, rfl⟩, rfl⟩ (by decide) with ⟨s, hreach, hcheck⟩
  simp only [Bool.and_eq_true, decide_eq_true_eq, Option.any_eq_true] at hcheck
  rcases hcheck with ⟨⟨hgone, hrun⟩, s', hstep, hne⟩
  exact ⟨s, s', hreach, hgone, hrun, hstep, hne⟩

/-! ## The counters -/

/-- The counters of a session are exact in runs in which no tracer of a `revoke()` is refused,
and a step breaks them if and only if it is refused one; the counter of an observer always is.
What waits for counters with nothing outstanding goes through, and then nothing is outstanding,
nor will be. -/
theorem counters_exact (s : Session) (o : Observer) :
    (Session.machine.Reachable Session.Traced s →
      s.Exact ∧
      (s.Idle → ∀ exn,
        (.shutdownReads exn ∈ s.calls →
          (Session.machine.step s (.shutdownReadsDrained exn)).isSome) ∧
        (.shutdownOps exn ∈ s.calls →
          (Session.machine.step s (.shutdownOpsDrained exn)).isSome)) ∧
      (∀ a s' out, a.returns out = true → s.act a = some (s', out) →
        ∀ d, Session.machine.Run Session.Traced s' d → d.Idle) ∧
      ∀ a s', Session.machine.step s a = some s' → (s'.Exact ↔ s.Traced a)) ∧
    (Observer.machine.Reachable Any o →
      o.Exact ∧
      (o.outstanding = 0 → .cleanupOps ∈ o.calls →
        (Observer.machine.step o .opsDrained).isSome) ∧
      ∀ o', Observer.machine.step o .opsDrained = some o' →
        ∀ d, Observer.machine.Run Any o' d → d.outstanding = 0) := by
  constructor
  · intro hs
    rcases Session.accounted_traced hs with ⟨hexact, hidle, hreturn⟩
    refine ⟨hexact, hidle, hreturn, ?_⟩
    intro a s' hstep
    rcases Option.map_eq_some_iff.mp hstep with ⟨⟨d, out⟩, hact, rfl⟩
    exact ((Session.reachable_accounted hs).act hact).2
  · intro ho
    exact Observer.accounted_always ho

/-- The lease that the server grants. -/
def grantedLease : Session.LeaseGrantResponse := { id := 7, ttl := 10 }

/-- A session with its lease and its first timer. -/
def openSession : List Session.Act :=
  [.streamCreated true, .leaseGranted (Session.init 10000 0).grantRequest true {} grantedLease]

/-- `revoke()`, up to its last wait. -/
def closeSession : List Session.Act :=
  [.leaseRevoked 7 true {}, .revokeReadsDrained, .writesDone true, .finished true {}]

/-- The session is revoked. The last wait of `revoke()` is for the canceled timer, whose handler
runs late. -/
theorem counters_exact_revoked : ∃ c, Session.machine.Reachable Session.Traced c ∧
    .revokeOps ∈ c.calls ∧ c.Exact ∧ ∃ c', c.act .revokeOpsDrained = some (c', .returned) ∧
      c'.Idle := by
  rcases reachable_of_execIf Session.machine (fun c a => decide (c.Traced a))
    (Session.init 10000 0)
    (openSession ++ [.revoke, .revokeLease] ++ closeSession ++
      [.complete (.timer 0 2000 .canceled false)])
    (fun c => decide (.revokeOps ∈ c.calls ∧ c.ops.pending = 0))
    (fun _ _ => of_decide_eq_true) ⟨_, _, rfl⟩ (by decide) with ⟨c, hreach, hcheck⟩
  have hready := of_decide_eq_true hcheck
  have hact : c.act .revokeOpsDrained =
      some ({ c with calls := c.calls.erase .revokeOps }, .returned) := if_pos hready
  rcases (counters_exact c (.init [])).1 hreach with ⟨hexact, _, hreturn, _⟩
  exact ⟨c, hreach, hready.1, hexact, _, hact, hreturn _ _ _ rfl hact _ (.refl _)⟩

/-- Two calls of `revoke()` overlap. The first is in its last wait when the second constructs the
tracers of WritesDone and Finish; `ops_` refuses them, and they are counted off all the same.
Nothing is outstanding, and both calls wait for a counter that is not zero. -/
theorem overlapping_revokes_miscount : ∃ c, Session.machine.Reachable Any c ∧ c.Idle ∧
    c.ops.pending = -2 ∧ ¬ c.Exact ∧ c.calls = {.revokeOps, .revokeOps} ∧
    Session.machine.step c .revokeOpsDrained = none := by
  rcases reachable_of_exec Session.machine (Session.init 10000 0)
    (openSession ++ [.revoke, .revokeLease, .revoke, .revokeLease,
      .complete (.timer 0 2000 .canceled false)] ++ closeSession ++ closeSession)
    (fun c => decide c.Idle && decide (c.ops.pending = -2) &&
      decide (c.calls = {.revokeOps, .revokeOps}) &&
      (Session.machine.step c .revokeOpsDrained).isNone)
    ⟨_, _, rfl⟩ (by decide) with ⟨c, hreach, hcheck⟩
  simp only [Bool.and_eq_true, decide_eq_true_eq, Option.isNone_iff_eq_none] at hcheck
  rcases hcheck with ⟨⟨⟨hidle, hpend⟩, hcalls⟩, hstep⟩
  refine ⟨c, hreach, hidle, hpend, ?_, hcalls, hstep⟩
  rintro ⟨hops, _⟩
  rw [hpend, hidle.1] at hops
  cases hops

end GeeH
