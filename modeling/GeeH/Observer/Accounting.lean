import GeeH.Observer.Steps
import GeeH.Pool

/-!
# GeeH.Observer.Accounting — what the counter of an observer counts

`ops_` counts the Range, the writes and the reads, and the tracer of
`startup()`. The observer has one counter, and every handler starts with its
`async_op_done`, so nothing is ever owed; once the destructor has waited for
the counter, nothing is outstanding and nothing is started any more.
-/

namespace GeeH.Observer

open Etcd Machine

variable {c c' : Observer} {a : Act} {o : Outcome}

/-- The live tracers of a call. -/
def Call.tracers : Call → Nat
  | .createWatcherStream => 1
  | _ => 0

/-- The outstanding operations, and the live tracers. -/
def outstanding (c : Observer) : Nat := c.pending.card + Pool.total Call.tracers c.calls

/-- What `ops_` counts and is not outstanding. -/
def owed (c : Observer) : Int := c.ops.pending - c.outstanding

/-- A piece of code that counts what it starts, starts nothing when `ops_` refuses it, and has
nothing to do with calls. -/
structure Balanced (c c' : Observer) : Prop where
  ops : c'.owed = c.owed
  refused : c.ops.shutdown = true → c'.ops.pending = c.ops.pending := by exact fun _ => rfl
  calls : c'.calls = c.calls := by rfl
  stream : c'.watcherStream = c.watcherStream := by rfl
  destroyed : c'.destroyed = c.destroyed := by rfl
  shutdown : c'.ops.shutdown = c.ops.shutdown := by rfl

theorem Balanced.refl (c : Observer) : Balanced c c where
  ops := rfl

theorem Balanced.trans {c₁ c₂ c₃ : Observer} (h : Balanced c₁ c₂) (h' : Balanced c₂ c₃) :
    Balanced c₁ c₃ where
  ops := h'.ops.trans h.ops
  refused hops := (h'.refused (h.shutdown.trans hops)).trans (h.refused hops)
  calls := h'.calls.trans h.calls
  stream := h'.stream.trans h.stream
  destroyed := h'.destroyed.trans h.destroyed
  shutdown := h'.shutdown.trans h.shutdown

/-- An operation is counted and posted. -/
theorem balanced_post {op : Op} (hops : ¬ c.ops.shutdown = true)
    (hpend : c'.pending = op ::ₘ c.pending) (hcount : c'.ops = c.ops.asyncOpStart)
    (hcalls : c'.calls = c.calls) (hstream : c'.watcherStream = c.watcherStream)
    (hd : c'.destroyed = c.destroyed) : Balanced c c' where
  ops := by
    simp only [owed, outstanding, hpend, hcount, hcalls, Multiset.card_cons,
      AsyncOpCounter.asyncOpStart_pending _ (show c.ops.shutdown = false by simpa using hops)]
    omega
  refused h := absurd h hops
  calls := hcalls
  stream := hstream
  destroyed := hd
  shutdown := by rw [hcount, AsyncOpCounter.asyncOpStart_shutdown]

theorem balanced_discover (c : Observer) : Balanced c c.discover := by
  unfold discover
  split
  · exact .refl c
  · rename_i hops
    exact balanced_post hops rfl rfl rfl rfl rfl

theorem balanced_createWatcher (c : Observer) (rev : Int) : Balanced c (c.createWatcher rev) := by
  unfold createWatcher
  split
  · exact .refl c
  · rename_i hops
    exact balanced_post hops rfl rfl rfl rfl rfl

theorem balanced_cancelWatcher (c : Observer) : Balanced c c.cancelWatcher := by
  unfold cancelWatcher
  split
  · exact .refl c
  · rename_i hops
    exact balanced_post hops rfl rfl rfl rfl rfl

theorem balanced_postRead (c : Observer) : Balanced c c.postRead := by
  unfold postRead
  split
  · exact .refl c
  · rename_i hops
    exact balanced_post hops rfl rfl rfl rfl rfl

theorem balanced_reportElectionLeader (c : Observer) (kv : KeyValue) :
    Balanced c (c.reportElectionLeader kv) := by
  simp only [reportElectionLeader]
  split
  · exact { ops := rfl }
  · exact { ops := rfl }

theorem balanced_onRangeRequest (c : Observer) (ok : Bool) (resp : RangeResponse) :
    Balanced c (c.onRangeRequest ok resp).1 := by
  have hlearn : Balanced c { c with discovered := some resp } := { ops := rfl }
  unfold onRangeRequest
  split
  · exact .refl c
  · split
    · exact hlearn.trans (balanced_createWatcher _ _)
    · split
      · exact hlearn.trans (balanced_createWatcher _ _)
      · exact (hlearn.trans (balanced_createWatcher _ _)).trans (balanced_reportElectionLeader _ _)

theorem balanced_onWatchRead (c : Observer) (ok : Bool) (resp : WatchResponse) :
    Balanced c (c.onWatchRead ok resp) := by
  unfold onWatchRead
  split
  · exact .refl c
  · split
    · exact .refl c
    · refine Balanced.trans ?_ (balanced_postRead _)
      split
      · exact { ops := rfl }
      · exact { ops := rfl }

theorem balanced_body (c : Observer) (k : Completion) : Balanced c (c.body k).1 := by
  cases k with
  | range _ resp ok status => exact balanced_onRangeRequest c ok _
  | watchCreate _ ok =>
    simp only [body, onWatchCreate]
    split
    · exact .refl c
    · exact balanced_postRead c
  | watchCancel _ _ => exact .refl c
  | watchRead ok resp => exact balanced_onWatchRead c ok resp

/-- Between its entry and its `async_op_done`, the operation of a handler is owed. -/
theorem owed_enter {k : Completion} (hmem : k.op ∈ c.pending) :
    (c.enter k).owed = c.owed + 1 := by
  have hcard := Multiset.card_erase_add_one hmem
  simp only [owed, outstanding, enter]
  omega

theorem owed_asyncOpDone (c : Observer) : c.asyncOpDone.owed = c.owed - 1 := by
  simp only [owed, outstanding, asyncOpDone, AsyncOpCounter.asyncOpDone_pending]
  omega

theorem owed_handle {k : Completion} (hmem : k.op ∈ c.pending) :
    (c.handle k).1.owed = c.owed := by
  unfold handle
  rw [(balanced_body _ k).ops, owed_asyncOpDone, owed_enter hmem]
  omega

/-! ## The stages of destruction -/

/-- How far the destructor is. Until it is entered, `ops_` grants every operation;
from then on no other call runs. -/
inductive Stage (c : Observer) : Prop where
  | live (hd : c.destroyed = false) (hops : c.ops.shutdown = false)
      (hcalls : .cleanupOps ∉ c.calls)
  | cleanup (hd : c.destroyed = true) (hops : c.ops.shutdown = true)
      (hcalls : c.calls = {.cleanupOps})
  | gone (hd : c.destroyed = true) (hops : c.ops.shutdown = true) (hcalls : c.calls = 0)
      (hpend : c.ops.pending = 0)

/-- What a step may do to the counter that is not the end of an operation. -/
def Settled (c c' : Observer) : Prop := Stage c' ∧ c'.owed = c.owed

theorem Stage.open_of_live (h : Stage c) (hd : c.destroyed = false) : c.ops.shutdown = false := by
  cases h with
  | live _ hops _ => exact hops
  | cleanup hd' => exact absurd (hd.symm.trans hd') (by simp)
  | gone hd' => exact absurd (hd.symm.trans hd') (by simp)

theorem Stage.calls_of_live (h : Stage c) (hd : c.destroyed = false) : .cleanupOps ∉ c.calls := by
  cases h with
  | live _ _ hcalls => exact hcalls
  | cleanup hd' => exact absurd (hd.symm.trans hd') (by simp)
  | gone hd' => exact absurd (hd.symm.trans hd') (by simp)

/-- A call other than the destructor's runs only on a live object. -/
theorem Stage.live_of_call (h : Stage c) {call : Call} (hmem : call ∈ c.calls)
    (hcall : call ≠ .cleanupOps) : c.destroyed = false ∧ c.ops.shutdown = false := by
  cases h with
  | live hd hops _ => exact ⟨hd, hops⟩
  | cleanup _ _ hcalls =>
    rw [hcalls, Multiset.mem_singleton] at hmem
    exact absurd hmem hcall
  | gone _ _ hcalls =>
    rw [hcalls] at hmem
    exact absurd hmem (Multiset.notMem_zero _)

/-- A call that is not the destructor's is entered or left. -/
theorem settled_of_live (hs : Stage c) (hd : c.destroyed = false)
    (hd' : c'.destroyed = c.destroyed) (hops : c'.ops.shutdown = c.ops.shutdown)
    (hcalls : .cleanupOps ∈ c'.calls → .cleanupOps ∈ c.calls) (howed : c'.owed = c.owed) :
    Settled c c' := by
  refine ⟨.live (hd'.trans hd) (hops.trans (hs.open_of_live hd)) ?_, howed⟩
  intro hmem
  exact hs.calls_of_live hd (hcalls hmem)

/-- A body leaves the stage alone. -/
theorem Balanced.stage (h : Balanced c c') (hs : Stage c) : Stage c' := by
  cases hs with
  | live hd hops hcalls =>
    exact .live (h.destroyed.trans hd) (h.shutdown.trans hops) (h.calls ▸ hcalls)
  | cleanup hd hops hcalls =>
    exact .cleanup (h.destroyed.trans hd) (h.shutdown.trans hops) (h.calls.trans hcalls)
  | gone hd hops hcalls hpend =>
    exact .gone (h.destroyed.trans hd) (h.shutdown.trans hops) (h.calls.trans hcalls)
      ((h.refused hops).trans hpend)

theorem Stage.enter (h : Stage c) (k : Completion) : Stage (c.enter k) := by
  cases h with
  | live hd hops hcalls => exact .live hd hops hcalls
  | cleanup hd hops hcalls => exact .cleanup hd hops hcalls
  | gone hd hops hcalls hpend => exact .gone hd hops hcalls hpend

/-- The counter that the destructor has waited for is zero, so it owes no operation. -/
theorem Stage.asyncOpDone (h : Stage c) (howed : 1 ≤ c.owed) : Stage c.asyncOpDone := by
  cases h with
  | live hd hops hcalls => exact .live hd hops hcalls
  | cleanup hd hops hcalls => exact .cleanup hd hops hcalls
  | gone hd hops hcalls hpend =>
    unfold owed at howed
    omega

theorem Stage.handle {k : Completion} (h : Stage c) (howed : c.owed = 0) (hmem : k.op ∈ c.pending) :
    Stage (c.handle k).1 := by
  refine (balanced_body _ k).stage ((h.enter k).asyncOpDone ?_)
  rw [owed_enter hmem, howed]
  decide

/-! ## Steps other than completions -/

theorem settled_onStreamCreated (hs : Stage c) (hmem : .createWatcherStream ∈ c.calls) (ok : Bool) :
    Settled c (c.onStreamCreated ok).1 := by
  rcases hs.live_of_call hmem (by simp) with ⟨hd, _⟩
  have htotal := Pool.total_erase Call.tracers hmem
  simp only [Call.tracers] at htotal
  have hleft : owed { c with
      ops := c.ops.asyncOpDone
      calls := c.calls.erase .createWatcherStream } = c.owed := by
    simp only [owed, outstanding, AsyncOpCounter.asyncOpDone_pending]
    omega
  have hcalls : .cleanupOps ∈ c.calls.erase .createWatcherStream → .cleanupOps ∈ c.calls :=
    Multiset.mem_of_mem_erase
  unfold onStreamCreated
  cases ok with
  | false => exact settled_of_live hs hd rfl rfl hcalls hleft
  | true =>
    simp only [Bool.not_true, Bool.false_eq_true, if_false]
    have hdisc := balanced_discover { c with
      ops := c.ops.asyncOpDone
      calls := c.calls.erase .createWatcherStream
      watcherStream := true }
    refine settled_of_live hs hd hdisc.destroyed hdisc.shutdown ?_ (hdisc.ops.trans hleft)
    rw [hdisc.calls]
    exact hcalls

/-- The calls of the application on an object that is not being destroyed. -/
theorem settled_public (hs : Stage c) (hd : c.destroyed = false) :
    Settled c c.startup.1 ∧ Settled c c.subscribe.1 ∧ (∀ token, Settled c (c.unsubscribe token)) ∧
    Settled c c.shutdown.1 := by
  have hops := hs.open_of_live hd
  refine ⟨?_, ?_, ?_, ?_⟩
  · have hstart : c.startup.1 = { c with
        started := true
        ops := c.ops.asyncOpStart
        calls := .createWatcherStream ::ₘ c.calls } := by
      simp [startup, hops]
    rw [hstart]
    refine settled_of_live hs hd rfl (AsyncOpCounter.asyncOpStart_shutdown _) ?_ ?_
    · intro hmem
      simpa using hmem
    · simp only [owed, outstanding, Pool.total_cons, Call.tracers,
        AsyncOpCounter.asyncOpStart_pending _ hops]
      omega
  · unfold subscribe
    split
    · refine settled_of_live hs hd rfl rfl ?_ ?_
      · intro hmem
        simpa using hmem
      · simp [owed, outstanding, Call.tracers]
    · exact settled_of_live hs hd rfl rfl id rfl
  · intro token
    exact settled_of_live hs hd rfl rfl id rfl
  · unfold shutdown
    split
    · exact settled_of_live hs hd rfl rfl id rfl
    · have hcancel := balanced_cancelWatcher c
      exact ⟨hcancel.stage hs, hcancel.ops⟩

theorem settled_onSubscriberDone (hs : Stage c) {key value : Bytes}
    (hmem : .subscribing key value ∈ c.calls) (throws : Bool) :
    Settled c (c.onSubscriberDone key value throws).1 := by
  rcases hs.live_of_call hmem (by simp) with ⟨hd, _⟩
  have htotal := Pool.total_erase Call.tracers hmem
  simp only [Call.tracers, Nat.zero_add] at htotal
  have hcalls : .cleanupOps ∈ c.calls.erase (.subscribing key value) → .cleanupOps ∈ c.calls :=
    Multiset.mem_of_mem_erase
  unfold onSubscriberDone
  cases throws with
  | false =>
    refine settled_of_live hs hd rfl rfl hcalls ?_
    simp [owed, outstanding, register, htotal]
  | true =>
    refine settled_of_live hs hd rfl rfl hcalls ?_
    simp [owed, outstanding, htotal]

/-- Every step other than a completion leaves alone what is owed. -/
theorem settled_act (hs : Stage c) (ha : ∀ k, a ≠ .complete k) (hact : c.act a = some (c', o)) :
    Settled c c' := by
  cases a with
  | startup =>
    obtain ⟨hd, rfl⟩ := of_guard_not hact
    exact (settled_public hs (by simpa using hd)).1
  | streamCreated ok =>
    obtain ⟨hmem, rfl⟩ := of_guard hact
    exact settled_onStreamCreated hs hmem ok
  | subscribe =>
    obtain ⟨hd, rfl⟩ := of_guard_not hact
    exact (settled_public hs (by simpa using hd)).2.1
  | subscriberDone key value throws =>
    obtain ⟨hmem, rfl⟩ := of_guard hact
    exact settled_onSubscriberDone hs hmem throws
  | unsubscribe token =>
    obtain ⟨hd, rfl⟩ := of_guard_not hact
    exact (settled_public hs (by simpa using hd)).2.2.1 token
  | shutdown =>
    obtain ⟨hd, rfl⟩ := of_guard_not hact
    exact (settled_public hs (by simpa using hd)).2.2.2
  | destroy =>
    obtain ⟨hd, heq⟩ := of_guard_not hact
    have hcalls : c.calls = 0 := by simpa using (not_or.mp hd).2
    rw [heq]
    refine ⟨.cleanup rfl rfl ?_, ?_⟩
    · show _ ::ₘ c.calls = _
      rw [hcalls]
      rfl
    · simp [owed, outstanding, Call.tracers]
  | answerRange req resp =>
    obtain ⟨hmem, rfl⟩ := of_guard hact
    have hcard := Multiset.card_erase_add_one hmem
    have howed : (c.answerRange req resp).owed = c.owed := by
      simp only [owed, outstanding, answerRange, Multiset.card_cons]
      omega
    exact ⟨Balanced.stage { ops := howed } hs, howed⟩
  | complete k => exact absurd rfl (ha k)
  | opsDrained =>
    obtain ⟨hmem, heq⟩ := of_guard hact
    have htotal := Pool.total_erase Call.tracers hmem.1
    simp only [Call.tracers, Nat.zero_add] at htotal
    rw [heq]
    refine ⟨?_, by simp [owed, outstanding, htotal]⟩
    cases hs with
    | live _ _ hcalls => exact absurd hmem.1 hcalls
    | cleanup hd hops hcalls =>
      refine .gone hd hops ?_ hmem.2
      simp [hcalls]
    | gone _ _ hcalls =>
      rw [hcalls] at hmem
      exact absurd hmem.1 (Multiset.notMem_zero _)

/-! ## Whole runs -/

/-- The counter counts what is outstanding, and nothing else. -/
def Exact (c : Observer) : Prop := c.ops.pending = c.outstanding

theorem exact_iff : c.Exact ↔ c.owed = 0 := by
  unfold Exact owed
  omega

/-- The counter is exact, and the destructor is where it is. -/
def Accounted (c : Observer) : Prop := Stage c ∧ c.Exact

theorem Accounted.step (h : Accounted c) (hact : c.act a = some (c', o)) : Accounted c' := by
  rcases h with ⟨hs, hexact⟩
  have howed := exact_iff.mp hexact
  by_cases ha : ∃ k, a = .complete k
  · rcases ha with ⟨k, rfl⟩
    rcases act_complete hact with ⟨hmem, _, rfl⟩
    exact ⟨hs.handle howed hmem, exact_iff.mpr ((owed_handle hmem).trans howed)⟩
  · rcases settled_act hs (fun k h => ha ⟨k, h⟩) hact with ⟨hs', howed'⟩
    exact ⟨hs', exact_iff.mpr (howed'.trans howed)⟩

theorem Accounted.run {allowed : Observer → Act → Prop} (h : Accounted c)
    (hrun : machine.Run allowed c c') : Accounted c' := by
  refine hrun.invariant ?_ h
  intro c a c' ih _ hstep
  rcases Option.map_eq_some_iff.mp hstep with ⟨⟨d, o⟩, hact, rfl⟩
  exact ih.step hact

theorem reachable_accounted {allowed : Observer → Act → Prop}
    (h : machine.Reachable allowed c) : Accounted c := by
  rcases h with ⟨_, ⟨name, rfl⟩, hrun⟩
  have hinit : Accounted (init name) := ⟨.live rfl rfl (Multiset.notMem_zero _), rfl⟩
  exact hinit.run hrun

/-- A destructor that has waited for the counter has left nothing outstanding. -/
theorem Accounted.idle_of_gone (h : Accounted c) (hd : c.destroyed = true) (hcalls : c.calls = 0) :
    c.outstanding = 0 := by
  rcases h with ⟨hs, hexact⟩
  cases hs with
  | live hd' => exact absurd (hd.symm.trans hd') (by simp)
  | cleanup _ _ hcalls' =>
    rw [hcalls] at hcalls'
    exact absurd hcalls'.symm (Multiset.singleton_ne_zero _)
  | gone _ _ _ hpend =>
    unfold Exact at hexact
    omega

theorem pending_of_idle (h : c.outstanding = 0) : c.pending = 0 := by
  unfold outstanding at h
  exact Multiset.card_eq_zero.mp (by omega)

/-- Then nothing can happen to it any more. -/
theorem Accounted.stuck (h : Accounted c) (hd : c.destroyed = true) (hcalls : c.calls = 0) (a : Act) :
    c.act a = none := by
  have hpend := pending_of_idle (h.idle_of_gone hd hcalls)
  cases a <;> simp [act, hd, hcalls, hpend]

/-- In every state the counter of an observer is exact. A destructor with nothing outstanding
goes through, and when it has gone through, nothing is outstanding then or later. -/
theorem accounted_always (h : machine.Reachable Any c) :
    c.Exact ∧
    (c.outstanding = 0 → .cleanupOps ∈ c.calls → (machine.step c .opsDrained).isSome) ∧
    ∀ c', machine.step c .opsDrained = some c' →
      ∀ d, machine.Run Any c' d → d.outstanding = 0 := by
  have hacc := reachable_accounted h
  refine ⟨hacc.2, ?_, ?_⟩
  · intro hnone hmem
    have hzero : c.ops.pending = 0 := by
      rw [hacc.2, hnone]
      rfl
    show ((c.act .opsDrained).map Prod.fst).isSome = true
    simp [act, hmem, hzero]
  · intro c' hstep d hrun
    rcases Option.map_eq_some_iff.mp hstep with ⟨⟨c₁, o⟩, hact, rfl⟩
    have hacc' := hacc.step hact
    obtain ⟨hmem, rfl⟩ := of_guard hact
    -- the frame of the destructor was the only one
    have hgone : c.destroyed = true ∧ c.calls.erase .cleanupOps = 0 := by
      cases hacc.1 with
      | live _ _ hcalls => exact absurd hmem.1 hcalls
      | cleanup hd _ hcalls => exact ⟨hd, by simp [hcalls]⟩
      | gone _ _ hcalls =>
        rw [hcalls] at hmem
        exact absurd hmem.1 (Multiset.notMem_zero _)
    have hstays : d.destroyed = true ∧ d.calls = 0 ∧ Accounted d := by
      refine hrun.invariant ?_ ⟨hgone.1, hgone.2, hacc'⟩
      rintro e a e' ⟨hd, hcalls, he⟩ _ hstep'
      rcases Option.map_eq_some_iff.mp hstep' with ⟨_, hact', _⟩
      rw [he.stuck hd hcalls a] at hact'
      cases hact'
    exact hstays.2.2.idle_of_gone hstays.1 hstays.2.1

end GeeH.Observer
