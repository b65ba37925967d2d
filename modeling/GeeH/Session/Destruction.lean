import GeeH.Fairness
import GeeH.Teardown

/-!
# GeeH.Session.Destruction — `shutdown()` returns

The destructor, and a constructor that fails, end in `shutdown()`. It waits for
`reads_` while `ops_` is open: a read that ends sets a timer, and a timer that
expires leads to a write. But a write leads to no read any more, so what is
left to do goes down with every step.
-/

namespace GeeH.Session

open Machine

variable {c c' : Session} {a : Act} {o : Outcome}

/-- Completions, timers that expire, and the wake-ups of `shutdown()`. -/
def Resumes (_ : Session) : Act → Prop
  | .complete _ | .timerFires _ _ | .shutdownReadsDrained _ | .shutdownOpsDrained _ => True
  | _ => False

/-- The completion of an operation that failed; a timer that has expired is not canceled. -/
def Op.failed : Op → Completion
  | .timer id delay state => .timer id delay state (decide (state = .fired))
  | .write leaseId => .write leaseId false
  | .read => .read false 0

theorem Op.failed_op (op : Op) : op.failed.op = op := by
  cases op <;> rfl

theorem Op.failed_wellFormed (op : Op) : op.failed.WellFormed := by
  cases op with
  | timer id delay state => cases state <;> simp [Op.failed, Completion.WellFormed]
  | write _ => trivial
  | read => trivial

theorem resumes_failed {op : Op} (hop : op ∈ c.pending) :
    Behavior.Enabled machine Traced Resumes c := by
  have hready : op.failed.op ∈ c.pending ∧ op.failed.WellFormed :=
    ⟨op.failed_op.symm ▸ hop, op.failed_wellFormed⟩
  exact ⟨.complete op.failed, trivial, rfl, by simp [machine, act, hready]⟩

/-! ## How much is left to do

A read that ends may set a timer, a timer that expires a write, and a write no read any more. -/

def Op.rank : Op → Nat
  | .read => 4
  | .timer _ _ .armed => 3
  | .timer _ _ .fired => 2
  | .timer _ _ .canceled => 1
  | .write _ => 1

def Call.rank : Call → Nat
  | .shutdownReads _ => 2
  | .shutdownOps _ => 1
  | _ => 0

def rank (c : Session) : Nat := Pool.total Op.rank c.pending + Pool.total Call.rank c.calls

theorem rank_setTimer (c : Session) :
    Pool.total Op.rank c.setTimer.pending ≤ 3 + Pool.total Op.rank c.pending := by
  unfold setTimer
  split
  · exact Nat.le_add_left _ _
  · simp [Op.rank]

theorem rank_handle {k : Completion} (hdown : c.reads.shutdown = true) (hmem : k.op ∈ c.pending)
    (hwf : k.WellFormed) :
    Pool.total Op.rank (c.handle k).pending < Pool.total Op.rank c.pending := by
  have htotal := Pool.total_erase Op.rank hmem
  cases k with
  | timer id delay state ok =>
    simp only [handle, body, onTimeout]
    split
    · have hpos : 1 ≤ (Op.timer id delay state).rank := by
        cases state <;> simp [Op.rank]
      simp only [Completion.op, asyncOpDone, enter] at htotal ⊢
      omega
    · rename_i hok
      have hpos : 2 ≤ (Op.timer id delay state).rank := by
        cases state with
        | canceled =>
          obtain rfl : ok = true := by
            simp only [Bool.or_eq_true, not_or] at hok
            simpa using hok.1
          exact absurd rfl hwf
        | armed | fired => simp [Op.rank]
      simp only [Completion.op, asyncOpDone, enter, Pool.total_cons] at htotal ⊢
      have hone : (Op.write c.leaseId).rank = 1 := rfl
      omega
  | write leaseId ok =>
    have hwrite : (c.handle (.write leaseId ok)).pending = c.pending.erase (.write leaseId) := by
      simp [handle, body, onWrite, asyncOpDone, enter, hdown, Completion.op]
    rw [hwrite]
    simp only [Completion.op, Op.rank] at htotal
    omega
  | read ok ttl =>
    simp only [handle, body, onRead]
    split
    · simp only [Completion.op, asyncOpDone, enter, Op.rank] at htotal ⊢
      omega
    · refine Nat.lt_of_le_of_lt (rank_setTimer _) ?_
      simp only [Completion.op, asyncOpDone, enter, Op.rank] at htotal ⊢
      omega

/-! ## `shutdown()` is the last call -/

/-- No call is left but `shutdown()`. -/
inductive Closing (c : Session) : Prop where
  | reads (exn : Option Exn) (hcalls : c.calls = {.shutdownReads exn})
  | ops (exn : Option Exn) (hcalls : c.calls = {.shutdownOps exn})
  | gone (hcalls : c.calls = 0)

/-- The object is destroyed, or was not constructed. -/
def Defunct (c : Session) : Prop := c.destroyed = true ∨ c.constructed = false

theorem Closing.of_mem (h : Closing c) {call : Call} (hmem : call ∈ c.calls) :
    ∃ exn, call = .shutdownReads exn ∨ call = .shutdownOps exn := by
  cases h with
  | reads exn hcalls =>
    rw [hcalls, Multiset.mem_singleton] at hmem
    exact ⟨exn, .inl hmem⟩
  | ops exn hcalls =>
    rw [hcalls, Multiset.mem_singleton] at hmem
    exact ⟨exn, .inr hmem⟩
  | gone hcalls =>
    rw [hcalls] at hmem
    exact absurd hmem (Multiset.notMem_zero _)

theorem Closing.reads_shutdown (h : Closing c) (ho : Orderly c) (hover : Defunct c) :
    c.reads.shutdown = true := by
  cases h with
  | reads exn hcalls => exact ho.frames (.shutdownReads exn) (by simp [hcalls])
  | ops exn hcalls => exact (ho.closed (ho.frames (.shutdownOps exn) (by simp [hcalls]))).1
  | gone hcalls =>
    rcases ho.closing hover with hops | ⟨call, hmem, _⟩
    · exact (ho.closed hops).1
    · rw [hcalls] at hmem
      exact absurd hmem (Multiset.notMem_zero _)

theorem handle_flags (c : Session) (k : Completion) :
    (c.handle k).calls = c.calls ∧ (c.handle k).destroyed = c.destroyed ∧
    (c.handle k).constructed = c.constructed := by
  have hbody := balanced_body ((c.enter k).asyncOpDone k) k
  unfold handle
  rw [hbody.calls, hbody.destroyed, hbody.constructed]
  cases k <;> exact ⟨rfl, rfl, rfl⟩

/-- Once `shutdown()` is the last call, every step comes closer to its end. -/
theorem Accounted.closing_step (h : Accounted c) (hover : Defunct c) (hclosing : Closing c)
    (hact : c.act a = some (c', o)) :
    Defunct c' ∧ Closing c' ∧ Resumes c a ∧ c'.rank < c.rank := by
  have hdown := hclosing.reads_shutdown h.orderly hover
  -- no other call can go on, or begin
  have hcall : ∀ {call : Call} {P : Prop}, call ∈ c.calls →
      (∀ exn, call ≠ .shutdownReads exn ∧ call ≠ .shutdownOps exn) → P := by
    intro call P hmem hother
    rcases hclosing.of_mem hmem with ⟨exn, hcall | hcall⟩
    · exact absurd hcall (hother exn).1
    · exact absurd hcall (hother exn).2
  have hlive : ∀ {P : Prop}, c.constructed = true → c.destroyed = false → P := by
    intro P hcon hd
    rcases hover with hover | hover
    · exact absurd (hd.symm.trans hover) (by simp)
    · exact absurd (hcon.symm.trans hover) (by simp)
  cases a with
  | streamCreated ok => exact hcall (of_guard hact).1 (by simp)
  | leaseGranted req ok status resp => exact hcall (of_guard hact).1 (by simp)
  | revoke => exact hlive (of_guard hact).1.1 (of_guard hact).1.2
  | revokeLease => exact hcall (of_guard hact).1 (by simp)
  | leaseRevoked id ok status => exact hcall (of_guard hact).1 (by simp)
  | revokeReadsDrained => exact hcall (of_guard hact).1.1 (by simp)
  | writesDone ok => exact hcall (of_guard hact).1 (by simp)
  | finished ok status => exact hcall (of_guard hact).1 (by simp)
  | revokeOpsDrained => exact hcall (of_guard hact).1.1 (by simp)
  | destroy => exact hlive (of_guard hact).1.1 (of_guard hact).1.2.1
  | shutdownReadsDrained exn =>
    obtain ⟨⟨hmem, _⟩, rfl⟩ := of_guard hact
    have htotal := Pool.total_erase Call.rank hmem
    simp only [Call.rank] at htotal
    refine ⟨hover, ?_, trivial, ?_⟩
    · cases hclosing with
      | reads exn' hcalls =>
        obtain rfl : exn = exn' := by simpa [hcalls] using hmem
        exact .ops exn (by simp [onShutdownReads, hcalls])
      | ops exn' hcalls => simp [hcalls] at hmem
      | gone hcalls => simp [hcalls] at hmem
    · simp only [rank, onShutdownReads, Pool.total_cons, Call.rank]
      omega
  | shutdownOpsDrained exn =>
    obtain ⟨⟨hmem, _⟩, rfl⟩ := of_guard hact
    have htotal := Pool.total_erase Call.rank hmem
    simp only [Call.rank] at htotal
    refine ⟨hover, ?_, trivial, ?_⟩
    · cases hclosing with
      | reads exn' hcalls => simp [hcalls] at hmem
      | ops exn' hcalls =>
        obtain rfl : exn = exn' := by simpa [hcalls] using hmem
        exact .gone (by simp [onShutdownOps, hcalls])
      | gone hcalls => simp [hcalls] at hmem
    · simp only [rank, onShutdownOps]
      omega
  | timerFires id delay =>
    obtain ⟨hmem, rfl⟩ := of_guard hact
    have htotal := Pool.total_erase Op.rank hmem
    simp only [Op.rank] at htotal
    refine ⟨hover, ?_, trivial, ?_⟩
    · cases hclosing with
      | reads exn hcalls => exact .reads exn hcalls
      | ops exn hcalls => exact .ops exn hcalls
      | gone hcalls => exact .gone hcalls
    · simp only [rank, timerFires, Pool.total_cons, Op.rank]
      omega
  | complete k =>
    rcases act_complete hact with ⟨hmem, hwf, rfl⟩
    rcases handle_flags c k with ⟨hcalls', hd', hcon'⟩
    refine ⟨?_, ?_, trivial, ?_⟩
    · unfold Defunct
      rwa [hd', hcon']
    · cases hclosing with
      | reads exn hcalls => exact .reads exn (hcalls'.trans hcalls)
      | ops exn hcalls => exact .ops exn (hcalls'.trans hcalls)
      | gone hcalls => exact .gone (hcalls'.trans hcalls)
    · unfold rank
      rw [hcalls']
      exact Nat.add_lt_add_right (rank_handle hdown hmem hwf) _

/-- It goes on until it returns, and leaves nothing outstanding. -/
theorem Accounted.closing_enabled (h : Accounted c) (hclosing : Closing c) :
    c.calls = 0 ∨ Behavior.Enabled machine Traced Resumes c := by
  cases hclosing with
  | gone hcalls => exact .inl hcalls
  | reads exn hcalls =>
    right
    by_cases hnone : c.pending = 0
    · have hzero : c.reads.pending = 0 := by
        rw [h.exact.2, hnone]
        rfl
      exact ⟨.shutdownReadsDrained exn, trivial, rfl, by simp [machine, Session.act, hcalls, hzero]⟩
    · rcases Multiset.exists_mem_of_ne_zero hnone with ⟨op, hop⟩
      exact resumes_failed hop
  | ops exn hcalls =>
    right
    by_cases hnone : c.pending = 0
    · have hzero : c.ops.pending = 0 := by
        rw [h.exact.1, outstanding, hnone, hcalls]
        rfl
      exact ⟨.shutdownOpsDrained exn, trivial, rfl, by simp [machine, Session.act, hcalls, hzero]⟩
    · rcases Multiset.exists_mem_of_ne_zero hnone with ⟨op, hop⟩
      exact resumes_failed hop

theorem Accounted.defunct_pending (h : Accounted c) (hover : Defunct c) (hcalls : c.calls = 0) :
    c.pending = 0 := by
  have hgone : reactor.gone c = true := by
    simpa [reactor, hcalls, Defunct] using hover
  rcases h.orderly.gone hgone with ⟨_, hzero, hzero'⟩
  rcases exact_iff.mp h.exact with ⟨howed, howed'⟩
  exact pending_of_owed hzero hzero' howed.ge howed'.ge

/-! ## Whoever enters `shutdown()` is alone -/

theorem shutdown_closing (exn : Option Exn) (hcalls : c.calls = 0) :
    Closing (c.shutdown exn).1 := by
  unfold shutdown
  split
  · exact .gone hcalls
  · refine .reads exn ?_
    show _ ::ₘ c.cancelTimer.calls = _
    rw [(cancelTimer_keeps c).2.2.1, hcalls]
    rfl

/-- A session that is over, but for the constructor that is at work. -/
def Ends (c : Session) : Prop :=
  Defunct c → Closing c ∨ ∃ call, c.calls = {call} ∧ call.isPreamble = true

/-- What the calls on a constructed object leave alone. -/
theorem act_flags (hcon : c.constructed = true) (ho : Orderly c) (ha : a ≠ .destroy)
    (hact : c.act a = some (c', o)) : c'.constructed = true ∧ c'.destroyed = c.destroyed := by
  -- the constructor has returned
  have hbuilt : ∀ {call : Call} {P : Prop}, call ∈ c.calls → call.isPreamble = true → P := by
    intro call P hmem hpre
    exact absurd (hcon.symm.trans (ho.building hmem hpre).constructed) (by simp)
  have hcancel : c.cancelTimer.destroyed = c.destroyed := by
    unfold cancelTimer
    split <;> rfl
  have hdrain : ∀ {d : Session}, d.constructed = true → d.destroyed = c.destroyed →
      d.drainOps.1.constructed = true ∧ d.drainOps.1.destroyed = c.destroyed := by
    intro d hcon hd
    rcases d.drainOps_keeps with ⟨_, _, hcon', hd'⟩
    exact ⟨hcon'.trans hcon, hd'.trans hd⟩
  cases a with
  | streamCreated ok => exact hbuilt (of_guard hact).1 rfl
  | leaseGranted req ok status resp => exact hbuilt (of_guard hact).1 rfl
  | revoke =>
    obtain ⟨_, rfl⟩ := of_guard hact
    unfold revoke
    split
    · exact ⟨hcon, rfl⟩
    · exact ⟨(cancelTimer_keeps c).2.2.2.2.2.1.trans hcon, hcancel⟩
  | revokeLease =>
    obtain ⟨_, rfl⟩ := of_guard hact
    exact ⟨hcon, rfl⟩
  | leaseRevoked id ok status =>
    obtain ⟨_, rfl⟩ := of_guard hact
    unfold onLeaseRevoked
    simp only
    split
    · exact ⟨hcon, rfl⟩
    · split
      · exact ⟨hcon, rfl⟩
      · exact hdrain hcon rfl
  | revokeReadsDrained =>
    obtain ⟨_, rfl⟩ := of_guard hact
    exact ⟨hcon, rfl⟩
  | writesDone ok =>
    obtain ⟨_, rfl⟩ := of_guard hact
    unfold onWritesDone
    split <;> exact ⟨hcon, rfl⟩
  | finished ok status =>
    obtain ⟨_, rfl⟩ := of_guard hact
    unfold onFinished
    split
    · exact ⟨hcon, rfl⟩
    · split
      · exact ⟨hcon, rfl⟩
      · exact hdrain hcon rfl
  | revokeOpsDrained =>
    obtain ⟨_, rfl⟩ := of_guard hact
    exact ⟨hcon, rfl⟩
  | destroy => exact absurd rfl ha
  | shutdownReadsDrained exn =>
    obtain ⟨_, rfl⟩ := of_guard hact
    exact ⟨hcon, rfl⟩
  | shutdownOpsDrained exn =>
    obtain ⟨_, rfl⟩ := of_guard hact
    exact ⟨hcon, rfl⟩
  | timerFires id delay =>
    obtain ⟨_, rfl⟩ := of_guard hact
    exact ⟨hcon, rfl⟩
  | complete k =>
    rcases act_complete hact with ⟨_, _, rfl⟩
    rcases handle_flags c k with ⟨_, hd, hcon'⟩
    exact ⟨hcon'.trans hcon, hd⟩

/-- The constructor goes on alone, or fails and enters `shutdown()`. -/
theorem ends_preamble (ho : Orderly c) {call : Call} (hcalls : c.calls = {call})
    (hpre : call.isPreamble = true) (hact : c.act a = some (c', o)) : Ends c' := by
  have hmem : call ∈ c.calls := by simp [hcalls]
  have hbuilding := ho.building hmem hpre
  have honly : ∀ {call' : Call} {P : Prop}, call' ∈ c.calls → call'.isPreamble = false → P := by
    intro call' P hmem' hpre'
    rw [hcalls, Multiset.mem_singleton] at hmem'
    exact absurd ((hmem' ▸ hpre').symm.trans hpre) (by simp)
  cases a with
  | streamCreated ok =>
    obtain ⟨hmem', rfl⟩ := of_guard hact
    have hnone : c.calls.erase .createStream = 0 := by
      rw [hcalls, Multiset.mem_singleton] at hmem'
      simp [hcalls, hmem']
    intro _
    unfold onStreamCreated
    cases ok with
    | false => exact .inl (shutdown_closing _ hnone)
    | true =>
      refine .inr ⟨.leaseGrant c.grantRequest, ?_, rfl⟩
      show _ ::ₘ c.calls.erase .createStream = _
      rw [hnone]
      rfl
  | leaseGranted req ok status resp =>
    obtain ⟨hmem', rfl⟩ := of_guard hact
    have hnone : c.calls.erase (.leaseGrant req) = 0 := by
      rw [hcalls, Multiset.mem_singleton] at hmem'
      simp [hcalls, hmem']
    unfold onLeaseGranted
    simp only
    split
    · exact fun _ => .inl (shutdown_closing _ hnone)
    · split
      · exact fun _ => .inl (shutdown_closing _ hnone)
      · -- the object is constructed
        intro hover
        have htimer : ∀ d : Session, d.setTimer.destroyed = d.destroyed := by
          intro d
          unfold setTimer
          split <;> rfl
        have hd := (htimer (granted { c with calls := c.calls.erase (.leaseGrant req) } resp)).trans
          hbuilding.destroyed
        rcases hover with hover | hover
        · exact absurd (hd.symm.trans hover) (by simp)
        · cases hover
  | revoke => exact absurd (hbuilding.constructed.symm.trans (of_guard hact).1.1) (by simp)
  | revokeLease => exact honly (of_guard hact).1 rfl
  | destroy => exact absurd (hbuilding.constructed.symm.trans (of_guard hact).1.1) (by simp)
  | leaseRevoked id ok status => exact honly (of_guard hact).1 rfl
  | revokeReadsDrained => exact honly (of_guard hact).1.1 rfl
  | writesDone ok => exact honly (of_guard hact).1 rfl
  | finished ok status => exact honly (of_guard hact).1 rfl
  | revokeOpsDrained => exact honly (of_guard hact).1.1 rfl
  | shutdownReadsDrained exn => exact honly (of_guard hact).1.1 rfl
  | shutdownOpsDrained exn => exact honly (of_guard hact).1.1 rfl
  | timerFires id delay =>
    obtain ⟨_, rfl⟩ := of_guard hact
    exact fun _ => .inr ⟨call, hcalls, hpre⟩
  | complete k =>
    rcases act_complete hact with ⟨_, _, rfl⟩
    exact fun _ => .inr ⟨call, (handle_flags c k).1.trans hcalls, hpre⟩

theorem Ends.step (hends : Ends c) (h : Accounted c) (hact : c.act a = some (c', o)) : Ends c' := by
  by_cases hover : Defunct c
  · rcases hends hover with hclosing | ⟨call, hcalls, hpre⟩
    · exact fun _ => .inl (h.closing_step hover hclosing hact).2.1
    · exact ends_preamble h.orderly hcalls hpre hact
  · unfold Defunct at hover
    rw [not_or, Bool.not_eq_true, Bool.not_eq_false] at hover
    rcases hover with ⟨hd, hcon⟩
    by_cases ha : a = .destroy
    · subst ha
      obtain ⟨⟨_, _, hcalls⟩, rfl⟩ := of_guard hact
      exact fun _ => .inl (shutdown_closing none hcalls)
    · rcases act_flags hcon h.orderly ha hact with ⟨hcon', hd'⟩
      rintro (hover | hover)
      · exact absurd (hover.symm.trans (hd'.trans hd)) (by simp)
      · exact absurd (hover.symm.trans hcon') (by simp)

theorem reachable_ends (hc : machine.Reachable Traced c) : Ends c := by
  refine hc.invariant_of (fun _ h => reachable_accounted h) ?_ ?_
  · rintro _ ⟨ttl, id, rfl⟩ _
    exact .inr ⟨.createStream, rfl, rfl⟩
  · intro c a c' hacc hends _ hstep
    rcases Option.map_eq_some_iff.mp hstep with ⟨⟨_, o⟩, hact, rfl⟩
    exact hends.step hacc hact

/-- `shutdown()` returns, to the destructor or to the constructor that fails: if completions do not
stay away for ever, timers expire, and the thread that waits is woken, then from some time on
nothing runs and nothing is outstanding. No tracer of a `revoke()` may have been refused. -/
theorem shutdown_returns (b : Behavior machine Traced) (hfair : b.Fair Resumes) (n : Nat)
    (hover : (b.state n).destroyed = true ∨ (b.state n).constructed = false ∧
      ∀ call ∈ (b.state n).calls, call.isPreamble = false) :
    ∃ m, n ≤ m ∧ ∀ k, m ≤ k → (b.state k).calls = 0 ∧ (b.state k).pending = 0 := by
  have hstart : Defunct (b.state n) ∧ Closing (b.state n) := by
    have hover' : Defunct (b.state n) := hover.imp id And.left
    refine ⟨hover', ?_⟩
    rcases reachable_ends (b.reachable n) hover' with hclosing | ⟨call, hcalls, hpre⟩
    · exact hclosing
    · have hmem : call ∈ (b.state n).calls := by simp [hcalls]
      have hbuilding := (reachable_accounted (b.reachable n)).orderly.building hmem hpre
      rcases hover with hd | ⟨_, hno⟩
      · exact absurd (hbuilding.destroyed.symm.trans hd) (by simp)
      · exact absurd ((hno call hmem).symm.trans hpre) (by simp)
  have hstep : ∀ c a c', machine.Reachable Traced c → Defunct c ∧ Closing c →
      machine.step c a = some c' → Defunct c' ∧ Closing c' ∧ Resumes c a ∧ c'.rank < c.rank := by
    rintro c a c' hc ⟨hover, hclosing⟩ hst
    rcases Option.map_eq_some_iff.mp hst with ⟨⟨_, o⟩, hact, rfl⟩
    exact (reachable_accounted hc).closing_step hover hclosing hact
  have hleads : b.LeadsTo (fun c => Defunct c ∧ Closing c)
      (fun c => (Defunct c ∧ Closing c) ∧ c.calls = 0) := by
    refine .descend rank hfair ?_ ?_
    · intro c a c' hc hp _ hst
      rcases hstep c a c' hc hp hst with ⟨hover', hclosing', _, hlt⟩
      exact .inr ⟨⟨hover', hclosing'⟩, .inl hlt⟩
    · intro c hc hp
      rcases (reachable_accounted hc).closing_enabled hp.2 with hcalls | henabled
      · exact .inl ⟨hp, hcalls⟩
      · exact .inr henabled
  rcases hleads n hstart with ⟨m, hm, hp, hcalls⟩
  refine ⟨m, hm, fun k hk => ?_⟩
  have hk' : (Defunct (b.state k) ∧ Closing (b.state k)) ∧ (b.state k).calls = 0 := by
    refine b.stays (p := fun c => (Defunct c ∧ Closing c) ∧ c.calls = 0) ?_ hk ⟨hp, hcalls⟩
    rintro c a c' hc ⟨hp, hcalls⟩ _ hst
    rcases hstep c a c' hc hp hst with ⟨hover', hclosing', _, hlt⟩
    -- nothing is pending, so nothing can happen
    have hrank : c.rank = 0 := by
      simp [rank, hcalls, (reachable_accounted hc).defunct_pending hp.1 hcalls]
    omega
  exact ⟨hk'.2, (reachable_accounted (b.reachable k)).defunct_pending hk'.1.1 hk'.2⟩

/-- The destructor is entered when the timer has expired, which leads to a last keep-alive; its
answer is not read. -/
theorem shutdown_returns_writing : ∃ b : Behavior machine Traced,
    (b.state 0).destroyed = true ∧ (b.state 0).pending = {.timer 0 2000 .fired} ∧
    ∃ m, ∀ k, m ≤ k → (b.state k).calls = 0 ∧ (b.state k).pending = 0 := by
  let ok := fun (c : Session) a => decide (c.Traced a)
  have hok : ∀ c a, ok c a = true → c.Traced a := fun _ _ => of_decide_eq_true
  have hrun : ((machine.execIf ok (init 10000 0)
      (openSession ++ [.timerFires 0 2000, .destroy])).any fun c =>
      decide (c.destroyed = true ∧ c.pending = {.timer 0 2000 .fired}) &&
        (machine.execIf ok c [.complete (.timer 0 2000 .fired true), .complete (.write 7 true),
          .shutdownReadsDrained none, .shutdownOpsDrained none]).any fun d =>
          decide (d.calls = 0 ∧ d.pending = 0)) = true := by decide
  rcases (Option.any_eq_true _ _).mp hrun with ⟨c, hexec, hcheck⟩
  simp only [Bool.and_eq_true, decide_eq_true_eq] at hcheck
  rcases hcheck with ⟨⟨hd, htimer⟩, hrest⟩
  rcases (Option.any_eq_true _ _).mp hrest with ⟨d, hexec', hend⟩
  rcases of_decide_eq_true hend with ⟨hcalls, hpend⟩
  have hc : machine.Reachable Traced c := ⟨_, ⟨_, _, rfl⟩, run_of_execIf hok hexec⟩
  rcases Behavior.exists_of_execIf hok hc hexec' with ⟨b, rfl, _, _, hfair⟩
  have hrests : ¬ Behavior.Enabled machine Traced Resumes d := by
    rintro ⟨a, hresumes, _, hsome⟩
    cases a with
    | complete k => simp [machine, act, hpend] at hsome
    | timerFires id delay => simp [machine, act, hpend] at hsome
    | shutdownReadsDrained exn => simp [machine, act, hcalls] at hsome
    | shutdownOpsDrained exn => simp [machine, act, hcalls] at hsome
    | _ => exact hresumes
  rcases shutdown_returns b (hfair _ hrests) 0 (.inl hd) with ⟨m, _, hall⟩
  exact ⟨b, hd, htimer, m, hall⟩

end GeeH.Session
