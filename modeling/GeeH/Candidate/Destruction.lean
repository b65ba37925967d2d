import GeeH.Candidate.Accounting
import GeeH.Fairness

/-!
# GeeH.Candidate.Destruction — when the destructor returns

The destructor waits for `ops_`, while the reads of the watches go on, and then
for `reads_`. The completion of a query that was cancelled is not counted off,
so the destructor waits for it for ever; nothing else can keep it from
returning.
-/

namespace GeeH.Candidate

open Etcd Machine

variable {c c' : Candidate} {a : Act} {o : Outcome}

/-- A completion that `ops_` counts, or the wake-up of the destructor that waits for `ops_`. -/
def ResumesOps (_ : Candidate) : Act → Prop
  | .complete k => k.isRead = false
  | .opsDrained => True
  | _ => False

/-- The end of a read, or the wake-up of the destructor that waits for `reads_`. -/
def ResumesReads (_ : Candidate) : Act → Prop
  | .complete k => k.isRead = true
  | .readsDrained => True
  | _ => False

/-- The completion of an operation that failed; a query is not cancelled, its status is not OK. -/
def Op.failed : Op → Completion
  | .queryPredecessor request response => .rangeRequest request response true { errorCode := 14 }
  | .watchCreate wkey wrevision => .watchCreate wkey wrevision false
  | .watchRead wkey wrevision => .watchRead wkey wrevision false {}

theorem Op.failed_op (op : Op) : op.failed.op = op := by
  cases op <;> rfl

theorem Op.failed_wellFormed (op : Op) : op.failed.WellFormed := by
  cases op with
  | queryPredecessor _ _ => exact fun _ h => absurd h (by decide)
  | _ => trivial

theorem Op.failed_uncancelled (op : Op) : c.Uncancelled (.complete op.failed) := by
  cases op <;> rfl

theorem act_failed {op : Op} (hop : op ∈ c.pending) :
    (machine.step c (.complete op.failed)).isSome := by
  have hready : op.failed.op ∈ c.pending ∧ op.failed.WellFormed :=
    ⟨op.failed_op.symm ▸ hop, op.failed_wellFormed⟩
  simp [machine, act, hready]

/-! ## What a step can do once the destructor is entered -/

inductive Late (c c' : Candidate) : Act → Prop where
  | answered (req : RangeRequest) (resp : RangeResponse)
      (hcalls : c'.calls = c.calls) (hd : c'.destroyed = true)
      (hops : c'.outstanding = c.outstanding) (hreads : reading c'.pending = reading c.pending) :
      Late c c' (.answerRange req resp)
  | completed (k : Completion)
      (hcalls : c'.calls = c.calls) (hd : c'.destroyed = true)
      (hops : c'.outstanding + k.op.inOps = c.outstanding)
      (hreads : c.reads.shutdown = true →
        reading c'.pending + k.isRead.toNat = reading c.pending) :
      Late c c' (.complete k)
  | opsDrained (hmem : .cleanupOps ∈ c.calls) (hd : c'.destroyed = true)
      (hcalls : c'.calls = {.cleanupReads}) : Late c c' .opsDrained
  | readsDrained (hmem : .cleanupReads ∈ c.calls) (hd : c'.destroyed = true)
      (hcalls : c'.calls = 0) : Late c c' .readsDrained

theorem asyncOpDone_counters (c : Candidate) (k : Completion) :
    (c.asyncOpDone k).ops.pending = c.ops.pending - k.settles ∧
    (c.asyncOpDone k).reads.pending = c.reads.pending - k.isRead.toNat := by
  cases k with
  | rangeRequest req resp ok status =>
    cases ok <;> simp [asyncOpDone, Completion.settles, Completion.isRead, Completion.op, Op.isRead]
  | _ => simp [asyncOpDone, Completion.settles, Completion.isRead, Completion.op, Op.isRead]

theorem asyncOpDone_flags (c : Candidate) (k : Completion) :
    (c.asyncOpDone k).ops.shutdown = c.ops.shutdown ∧
    (c.asyncOpDone k).reads.shutdown = c.reads.shutdown := by
  cases k with
  | rangeRequest req resp ok status => cases ok <;> exact ⟨rfl, rfl⟩
  | _ => exact ⟨rfl, rfl⟩

/-- A handler whose counter is shut down only ends its operation. -/
theorem ended_handle {k : Completion} (hmem : k.op ∈ c.pending) :
    (c.ops.shutdown = true → (c.handle k).1.outstanding + k.op.inOps = c.outstanding) ∧
    (c.reads.shutdown = true →
      reading (c.handle k).1.pending + k.isRead.toNat = reading c.pending) := by
  rcases owed_handle hmem with ⟨hops, hreads⟩
  rcases asyncOpDone_counters (c.enter k) k with ⟨hdone, hdone'⟩
  rcases asyncOpDone_flags (c.enter k) k with ⟨hshut, hshut'⟩
  rcases refused_body ((c.enter k).asyncOpDone k) k with ⟨hrefused, hrefused'⟩
  have hsettles := k.settles_add_lost
  constructor
  · intro hdown
    have hcount : (c.handle k).1.ops.pending = c.ops.pending - k.settles :=
      (hrefused (hshut.trans hdown)).trans hdone
    unfold owed at hops
    omega
  · intro hdown
    have hcount : (c.handle k).1.reads.pending = c.reads.pending - k.isRead.toNat :=
      (hrefused' (hshut'.trans hdown)).trans hdone'
    unfold owedReads at hreads
    omega

theorem Stage.late (hs : Stage c) (hd : c.destroyed = true) (hact : c.act a = some (c', o)) :
    Late c c' a := by
  have hops : c.ops.shutdown = true := by
    cases hs with
    | live hd' => exact absurd (hd.symm.trans hd') (by simp)
    | cleanupOps _ hops | cleanupReads _ hops | gone _ hops => exact hops
  -- no call but the destructor's is left
  have hgone : ∀ {call : Call}, call ∈ c.calls → call.isCleanup = false → Late c c' a := by
    intro call hmem hcall
    exact absurd (hd.symm.trans (hs.live_of_call hmem hcall).1) (by simp)
  cases a with
  | campaign | proclaim | resign => exact absurd hd (of_guard_not hact).1
  | destroy => exact absurd (.inl hd) (of_guard_not hact).1
  | answerRange req resp =>
    rcases owed_act hs hact with ⟨howed, howed'⟩
    obtain ⟨_, rfl⟩ := of_guard hact
    simp only [Act.lost, owed, owedReads, answerRange] at howed howed'
    refine .answered req resp rfl hd ?_ ?_
    · simp only [answerRange]
      omega
    · simp only [answerRange]
      omega
  | answerTxn call resp =>
    simp only [act] at hact
    split at hact
    · rename_i hmem
      rcases Option.map_eq_some_iff.mp hact with ⟨call', hans, _⟩
      exact hgone hmem (answered_tracers hans).2
    · cases hact
  | complete k =>
    rcases completed_of_act hact with ⟨hmem, _, rfl⟩
    have hview := callView_handle c k
    rcases ended_handle hmem with ⟨hended, hended'⟩
    exact .completed k (congrArg CallView.calls hview)
      ((congrArg CallView.destroyed hview).trans hd) (hended hops) hended'
  | streamCreated ok => exact hgone (of_guard hact).1 rfl
  | txnDone call ok status =>
    simp only [act] at hact
    split at hact
    · rename_i hmem
      exact hgone hmem (onTxn_isCleanup hact)
    · cases hact
  | cancelWritten writes w => exact hgone (of_guard hact).1.1 rfl
  | cancelsDone => exact hgone (of_guard hact).1 rfl
  | readsDone => exact hgone (of_guard hact).1.1 rfl
  | writesDone ok => exact hgone (of_guard hact).1 rfl
  | finished ok => exact hgone (of_guard hact).1 rfl
  | opsDrained =>
    obtain ⟨⟨hmem, _⟩, rfl⟩ := of_guard hact
    refine .opsDrained hmem hd ?_
    cases hs with
    | live hd' => exact absurd (hd.symm.trans hd') (by simp)
    | cleanupOps _ _ hcalls => simp [moveCall, hcalls]
    | cleanupReads _ _ _ hcalls => simp [hcalls] at hmem
    | gone _ _ _ hcalls => simp [hcalls] at hmem
  | readsDrained =>
    obtain ⟨⟨hmem, _⟩, rfl⟩ := of_guard hact
    refine .readsDrained hmem hd ?_
    cases hs with
    | live hd' => exact absurd (hd.symm.trans hd') (by simp)
    | cleanupOps _ _ hcalls => simp [hcalls] at hmem
    | cleanupReads _ _ _ hcalls => simp [hcalls]
    | gone _ _ _ hcalls => simp [hcalls] at hmem

/-! ## Runs without a cancelled query -/

theorem uncancelled_exact (hc : machine.Reachable Uncancelled c) : c.Exact := by
  refine hc.invariant_of (fun _ h => (reachable_accounted h).stage) ?_ ?_
  · rintro _ ⟨name, leaseId, value, rfl⟩
    exact ⟨rfl, rfl⟩
  · intro c a c' hs ih hok hstep
    rcases machine_step hstep with ⟨o, hact⟩
    exact (exact_step hs ih hact).mpr hok

theorem run_owed (hc : machine.Reachable Any c) (hrun : machine.Run Any c c') :
    c.owed ≤ c'.owed := by
  induction hrun with
  | refl => exact le_rfl
  | tail a hrun _ hstep ih =>
    rcases machine_step hstep with ⟨o, hact⟩
    have howed := (owed_act (reachable_accounted (hc.run hrun)).stage hact).1
    omega

/-- What is owed was lost in cancelled queries, so if nothing is, none was cancelled. -/
theorem uncancelled_of_owed (hc : machine.Reachable Any c) (hzero : c.owed = 0) :
    machine.Reachable Uncancelled c := by
  rcases hc with ⟨c₀, hinit, hrun⟩
  refine ⟨c₀, hinit, ?_⟩
  induction hrun with
  | refl => exact .refl _
  | tail a hrun _ hstep ih =>
    have hacc := reachable_accounted ⟨c₀, hinit, hrun⟩
    rcases machine_step hstep with ⟨o, hact⟩
    have howed := (owed_act hacc.stage hact).1
    have hbefore := hacc.ops
    refine (ih (by omega)).tail a ?_ hstep
    show a.lost = 0
    omega

/-! ## The two waits -/

/-- The destructor waits for `ops_`. -/
def DrainsOps (c : Candidate) : Prop := c.destroyed = true ∧ c.calls = {.cleanupOps}

/-- The destructor waits for `reads_`. -/
def DrainsReads (c : Candidate) : Prop := c.destroyed = true ∧ c.calls = {.cleanupReads}

/-- The destructor has returned. -/
def Gone (c : Candidate) : Prop := c.destroyed = true ∧ c.calls = 0

theorem Accounted.gone_pending (h : Accounted c) (hgone : Gone c) :
    c.pending = 0 ∧ c.owed = 0 := by
  rcases hgone with ⟨hd, hcalls⟩
  cases h.stage with
  | live hd' => exact absurd (hd.symm.trans hd') (by simp)
  | cleanupOps _ _ hcalls' => exact absurd (hcalls'.symm.trans hcalls) (by simp)
  | cleanupReads _ _ _ hcalls' => exact absurd (hcalls'.symm.trans hcalls) (by simp)
  | gone _ _ _ _ hzero hzero' =>
    have hpend := pending_of_owed hzero hzero' h.ops h.reads
    refine ⟨hpend, ?_⟩
    simp [owed, outstanding, hzero, hpend, hcalls]

theorem Gone.step (hs : Stage c) (h : Gone c) (hact : c.act a = some (c', o)) : Gone c' := by
  rcases h with ⟨hd, hcalls⟩
  cases hs.late hd hact with
  | answered req resp hcalls' hd' => exact ⟨hd', hcalls'.trans hcalls⟩
  | completed k hcalls' hd' => exact ⟨hd', hcalls'.trans hcalls⟩
  | opsDrained hmem => simp [hcalls] at hmem
  | readsDrained hmem => simp [hcalls] at hmem

section Waits

variable {b : Behavior machine Uncancelled}

/-- While it waits for `ops_`, reads may go on; what `ops_` counts only ends. -/
theorem ops_drained (hfair : b.Fair ResumesOps) : b.LeadsTo DrainsOps DrainsReads := by
  refine .descend outstanding hfair ?_ ?_
  · rintro c a c' hc ⟨hd, hcalls⟩ _ hstep
    rcases machine_step hstep with ⟨o, hact⟩
    cases (reachable_accounted hc).stage.late hd hact with
    | answered req resp hcalls' hd' hops _ =>
      exact .inr ⟨⟨hd', hcalls'.trans hcalls⟩, .inr ⟨hops, id⟩⟩
    | completed k hcalls' hd' hops _ =>
      refine .inr ⟨⟨hd', hcalls'.trans hcalls⟩, ?_⟩
      have hcounted : k.op.inOps + k.isRead.toNat = 1 := k.op.counted
      cases hread : k.isRead with
      | false =>
        rw [hread, Bool.toNat_false] at hcounted
        exact .inl (by omega)
      | true =>
        rw [hread, Bool.toNat_true] at hcounted
        exact .inr ⟨by omega, fun h => absurd (hread.symm.trans h) (by simp)⟩
    | opsDrained _ hd' hcalls' => exact .inl ⟨hd', hcalls'⟩
    | readsDrained hmem => simp [hcalls] at hmem
  · rintro c hc ⟨hd, hcalls⟩
    right
    by_cases hnone : c.outstanding = 0
    · have hzero : c.ops.pending = 0 := by
        rw [(uncancelled_exact hc).1, hnone]
        rfl
      exact ⟨.opsDrained, trivial, rfl, by simp [machine, act, hcalls, hzero]⟩
    · have hpend : Pool.total Op.inOps c.pending ≠ 0 := by
        simpa [outstanding, hcalls, Call.tracers] using hnone
      rw [ne_eq, Pool.total_eq_zero] at hpend
      push Not at hpend
      rcases hpend with ⟨op, hop, hcount⟩
      have hread : op.isRead = false := by
        have hcounted := op.counted
        cases h : op.isRead with
        | false => rfl
        | true =>
          rw [h, Bool.toNat_true] at hcounted
          omega
      refine ⟨.complete op.failed, ?_, op.failed_uncancelled (c := c), act_failed hop⟩
      show op.failed.op.isRead = false
      rw [op.failed_op, hread]

theorem reads_drained (hfair : b.Fair ResumesReads) : b.LeadsTo DrainsReads Gone := by
  refine .descend (fun c => reading c.pending) hfair ?_ ?_
  · rintro c a c' hc ⟨hd, hcalls⟩ _ hstep
    rcases machine_step hstep with ⟨o, hact⟩
    have hs := (reachable_accounted hc).stage
    have hdown : c.reads.shutdown = true := by
      cases hs with
      | live hd' => exact absurd (hd.symm.trans hd') (by simp)
      | cleanupOps _ _ hcalls' => simp [hcalls] at hcalls'
      | cleanupReads _ _ hreads => exact hreads
      | gone _ _ hreads => exact hreads
    cases hs.late hd hact with
    | answered req resp hcalls' hd' _ hreads =>
      exact .inr ⟨⟨hd', hcalls'.trans hcalls⟩, .inr ⟨hreads, id⟩⟩
    | completed k hcalls' hd' _ hreads =>
      refine .inr ⟨⟨hd', hcalls'.trans hcalls⟩, ?_⟩
      have hended := hreads hdown
      cases hread : k.isRead with
      | false =>
        rw [hread, Bool.toNat_false] at hended
        exact .inr ⟨hended, fun h => absurd (hread.symm.trans h) (by simp)⟩
      | true =>
        rw [hread, Bool.toNat_true] at hended
        exact .inl (by omega)
    | opsDrained hmem => simp [hcalls] at hmem
    | readsDrained _ hd' hcalls' => exact .inl ⟨hd', hcalls'⟩
  · rintro c hc ⟨hd, hcalls⟩
    right
    by_cases hnone : reading c.pending = 0
    · have hzero : c.reads.pending = 0 := by
        rw [(uncancelled_exact hc).2, hnone]
        rfl
      exact ⟨.readsDrained, trivial, rfl, by simp [machine, act, hcalls, hzero]⟩
    · rw [reading_eq_zero] at hnone
      push Not at hnone
      rcases hnone with ⟨op, hop, hread⟩
      refine ⟨.complete op.failed, ?_, op.failed_uncancelled (c := c), act_failed hop⟩
      show op.failed.op.isRead = true
      rw [op.failed_op]
      simpa using hread

theorem gone_in_the_end (hops : b.Fair ResumesOps) (hreads : b.Fair ResumesReads) {n : Nat}
    (hd : (b.state n).destroyed = true) : ∃ m, n ≤ m ∧ Gone (b.state m) := by
  have hclose := reads_drained hreads
  cases (reachable_accounted (b.reachable n)).stage with
  | live hd' => exact absurd (hd.symm.trans hd') (by simp)
  | cleanupOps _ _ hcalls => exact ((ops_drained hops).trans hclose) n ⟨hd, hcalls⟩
  | cleanupReads _ _ _ hcalls => exact hclose n ⟨hd, hcalls⟩
  | gone _ _ _ hcalls => exact ⟨n, Nat.le_refl n, hd, hcalls⟩

end Waits

/-- The destructor of a candidate returns, provided that completions do not stay away for ever and
the thread that waits is woken, exactly if no query of the candidate is ever cancelled, before or
after it was entered. -/
theorem destructor_returns_iff (b : Behavior machine Any) (hops : b.Fair ResumesOps)
    (hreads : b.Fair ResumesReads) (n : Nat) (hd : (b.state n).destroyed = true) :
    (∃ m, n ≤ m ∧ ∀ k, m ≤ k → (b.state k).calls = 0 ∧ (b.state k).pending = 0) ↔
      ∀ k, machine.Reachable Uncancelled (b.state k) := by
  have hstays : ∀ {m k : Nat}, m ≤ k → Gone (b.state m) → Gone (b.state k) := by
    intro m k hk hgone
    refine b.stays ?_ hk hgone
    intro c a c' hc hgone _ hstep
    rcases machine_step hstep with ⟨o, hact⟩
    exact hgone.step (reachable_accounted hc).stage hact
  have hdestroyed : ∀ {k : Nat}, n ≤ k → (b.state k).destroyed = true := by
    intro k hk
    refine b.stays (p := fun c => c.destroyed = true) ?_ hk hd
    intro c a c' hc hd _ hstep
    rcases machine_step hstep with ⟨o, hact⟩
    cases (reachable_accounted hc).stage.late hd hact with
    | answered _ _ _ hd' | completed _ _ hd' | opsDrained _ hd' | readsDrained _ hd' => exact hd'
  constructor
  · rintro ⟨m, hm, hall⟩ k
    -- where it has returned, nothing is owed, so nothing was before
    have hle : m ≤ max k m := Nat.le_max_right k m
    have hgone : Gone (b.state (max k m)) := ⟨hdestroyed (hm.trans hle), (hall _ hle).1⟩
    have hzero := ((reachable_accounted (b.reachable (max k m))).gone_pending hgone).2
    have howed := run_owed (b.reachable k) (b.run (Nat.le_max_left k m))
    have hpos := (reachable_accounted (b.reachable k)).ops
    exact uncancelled_of_owed (b.reachable k) (by omega)
  · intro hall
    have hactions : ∀ k a, b.action k = some a → (b.state k).Uncancelled a := by
      intro k a ha
      rcases b.step_cases k with ⟨hnone, _⟩ | ⟨a', ha', _, hstep⟩
      · exact absurd (hnone.symm.trans ha) (by simp)
      · obtain rfl : a' = a := Option.some.inj (ha'.symm.trans ha)
        rcases machine_step hstep with ⟨o, hact⟩
        exact (exact_step (reachable_accounted (b.reachable k)).stage (uncancelled_exact (hall k))
          hact).mp (uncancelled_exact (hall (k + 1)))
    let b' := b.restrict (hall 0) hactions
    rcases gone_in_the_end (b := b') (Behavior.fair_restrict (fun _ _ _ => trivial) hops)
      (Behavior.fair_restrict (fun _ _ _ => trivial) hreads) hd with ⟨m, hm, hgone⟩
    refine ⟨m, hm, fun k hk => ?_⟩
    have hk' : Gone (b.state k) := hstays hk hgone
    exact ⟨hk'.2, ((reachable_accounted (b.reachable k)).gone_pending hk').1⟩

/-- The destructor is entered while the first query is pending. The query is answered, and the
candidate is elected while it is destroyed. -/
theorem destructor_returns_iff_elected : ∃ b : Behavior machine Any,
    (b.state 0).destroyed = true ∧ (b.state 0).elected = false ∧ (b.state 0).pending ≠ 0 ∧
    ∃ m, ∀ k, m ≤ k → (b.state k).calls = 0 ∧ (b.state k).pending = 0 := by
  let ok := fun (c : Candidate) a => decide (c.Uncancelled a)
  have hok : ∀ c a, ok c a = true → c.Uncancelled a := fun _ _ => of_decide_eq_true
  have hrun : ((machine.execIf ok (init [] 1 []) (campaignTrace ++ [.destroy])).any fun c =>
      decide (c.destroyed = true ∧ c.elected = false ∧ c.pending ≠ 0) &&
        (machine.execIf ok c [.answerRange firstQuery { revision := 2 },
          .complete (.rangeRequest firstQuery (some { revision := 2 }) true {}),
          .opsDrained, .readsDrained]).any fun d =>
          decide (d.calls = 0 ∧ d.pending = 0)) = true := by decide
  rcases (Option.any_eq_true _ _).mp hrun with ⟨c, hexec, hcheck⟩
  simp only [Bool.and_eq_true, decide_eq_true_eq] at hcheck
  rcases hcheck with ⟨⟨hd, hel, hquery⟩, hrest⟩
  rcases (Option.any_eq_true _ _).mp hrest with ⟨d, hexec', hend⟩
  rcases of_decide_eq_true hend with ⟨hcalls, hpend⟩
  have hc : machine.Reachable Uncancelled c := ⟨_, ⟨_, _, _, rfl⟩, run_of_execIf hok hexec⟩
  have hany : machine.Reachable Any c := hc.mono fun _ _ _ => trivial
  rcases Behavior.exists_of_execIf (fun _ _ _ => trivial) hany hexec' with
    ⟨b, rfl, _, hstates, hfair⟩
  have hops : ¬ Behavior.Enabled machine Any ResumesOps d := by
    rintro ⟨a, hresumes, _, hsome⟩
    cases a with
    | complete k => simp [machine, act, hpend] at hsome
    | opsDrained => simp [machine, act, hcalls] at hsome
    | _ => exact hresumes
  have hreads : ¬ Behavior.Enabled machine Any ResumesReads d := by
    rintro ⟨a, hresumes, _, hsome⟩
    cases a with
    | complete k => simp [machine, act, hpend] at hsome
    | readsDrained => simp [machine, act, hcalls] at hsome
    | _ => exact hresumes
  have hall : ∀ k, machine.Reachable Uncancelled (b.state k) := by
    intro k
    rcases hstates k with ⟨bs, _, hk⟩
    exact hc.run (run_of_execIf hok hk)
  rcases (destructor_returns_iff b (hfair _ hops) (hfair _ hreads) 0 hd).mpr hall with ⟨m, _, hm⟩
  exact ⟨b, hd, hel, hquery, m, hm⟩

end GeeH.Candidate
