import GeeH.Pool
import GeeH.Session.Impl

/-!
# GeeH.Session.Steps — what one step of a session can do

`act_cases` says it once. The steps of a blocked call leave the keep-alive cycle
alone (`Calls`), except that `revoke()` and `shutdown()` cancel the timer first.
The others start the cycle, close the stream for writing, or are the cycle.
-/

namespace GeeH.Session

variable {c c' : Session} {a : Act} {o : Outcome}

/-- The steps that the completion queue takes. -/
def Act.isQueue : Act → Bool
  | .complete _ => true
  | _ => false

/-- The calls that belong to the constructor, as long as it may succeed. -/
def Call.isPreamble : Call → Bool
  | .createStream => true
  | .leaseGrant _ => true
  | _ => false

/-- The calls that belong to `revoke()`. -/
def Call.isRevoke : Call → Bool
  | .revoking => true
  | .leaseRevoke _ => true
  | .revokeReads => true
  | .writesDone => true
  | .finish => true
  | .revokeOps => true
  | _ => false

/-- How many constructors are at work. -/
def building (c : Session) : Nat := c.calls.countP fun call => call.isPreamble

/-- The keep-alive cycle is left alone; flags stay set, and nothing is written. -/
structure Kept (c c' : Session) : Prop where
  pending : c'.pending = c.pending
  timer : c'.currentTimer = c.currentTimer
  ttl : c'.lastTtl = c.lastTtl
  ops : c.ops.shutdown = true → c'.ops.shutdown = true
  reads : c'.reads.pending = c.reads.pending
  refused : c.reads.shutdown = true → c'.reads.shutdown = true
  constructed : c'.constructed = c.constructed
  stream : ∃ l, c'.stream = c.stream ++ l ∧ (∀ id, .write id ∉ l) ∧ .writesDone ∉ l

/-- A step of a blocked call that leaves the keep-alive cycle alone. -/
structure Calls (c c' : Session) : Prop extends Kept c c' where
  building : building c' ≤ building c
  frames : ∀ call ∈ c'.calls, call.isRevoke = true →
    c.constructed = true ∨ ∃ old ∈ c.calls, old.isRevoke = true
  waiting : .revokeReads ∈ c'.calls → .revokeReads ∈ c.calls ∨ c'.reads.shutdown = true

/-- The effects that a step can have. -/
inductive Effect (c c' : Session) : Act → Prop where
  | calls (a : Act) (h : Calls c c') : Effect c c' a
  | stopped (a : Act) (h : Calls c.cancelTimer c') : Effect c c' a
  | granted (req : LeaseGrantRequest) (ok : Bool) (status : Status) (resp : LeaseGrantResponse)
      (hmem : .leaseGrant req ∈ c.calls) (hok : ok = true) (hst : status.ok = true)
      (hnone : resp.error = []) (heq : c' = (c.onLeaseGranted req ok status resp).1) :
      Effect c c' (.leaseGranted req ok status resp)
  | barrier (hmem : .revokeReads ∈ c.calls) (hnone : c.reads.pending = 0)
      (heq : c' = c.onRevokeReads) : Effect c c' .revokeReadsDrained
  | fires (id : Nat) (delay : Int) (hmem : .timer id delay .armed ∈ c.pending)
      (heq : c' = c.timerFires id delay) : Effect c c' (.timerFires id delay)
  | handled (k : Completion) (hmem : k.op ∈ c.pending) (hwf : k.WellFormed)
      (heq : c' = c.handle k) : Effect c c' (.complete k)

/-! ## Blocked calls -/

/-- A call that moves from one blocking point to another, which is not the constructor's. -/
theorem calls_move (call : Call) {s : Multiset Call} (hkept : Kept c c')
    (hcalls : c'.calls = call ::ₘ s) (hs : s ≤ c.calls) (hcall : call.isPreamble = false)
    (hframe : call.isRevoke = true →
      c.constructed = true ∨ ∃ old ∈ c.calls, old.isRevoke = true)
    (hwait : call = .revokeReads → c'.reads.shutdown = true) : Calls c c' where
  toKept := hkept
  building := by
    unfold Session.building
    rw [hcalls, Multiset.countP_cons_of_neg _ (by simp [hcall])]
    exact Multiset.countP_le_of_le _ hs
  frames call' hmem hrev := by
    rw [hcalls] at hmem
    rcases Multiset.mem_cons.mp hmem with rfl | hold
    · exact hframe hrev
    · exact Or.inr ⟨call', Multiset.mem_of_le hs hold, hrev⟩
  waiting hmem := by
    rw [hcalls] at hmem
    rcases Multiset.mem_cons.mp hmem with heq | hold
    · exact Or.inr (hwait heq.symm)
    · exact Or.inl (Multiset.mem_of_le hs hold)

/-- A call that ends. -/
theorem calls_end (hkept : Kept c c') (hs : c'.calls ≤ c.calls) : Calls c c' where
  toKept := hkept
  building := Multiset.countP_le_of_le _ hs
  frames call hmem hrev := Or.inr ⟨call, Multiset.mem_of_le hs hmem, hrev⟩
  waiting hmem := Or.inl (Multiset.mem_of_le hs hmem)

/-- Nothing is issued on the stream. -/
theorem issues_nothing (l : List StreamOp) :
    ∃ l', l = l ++ l' ∧ (∀ id, .write id ∉ l') ∧ .writesDone ∉ l' :=
  ⟨[], by simp⟩

/-- A Finish or a cancellation is issued. -/
theorem issues {op : StreamOp} (hw : ∀ id, op ≠ .write id) (hd : op ≠ .writesDone)
    (l : List StreamOp) :
    ∃ l', l ++ [op] = l ++ l' ∧ (∀ id, .write id ∉ l') ∧ .writesDone ∉ l' := by
  refine ⟨[op], rfl, ?_, ?_⟩
  · intro id hmem
    exact hw id (List.mem_singleton.mp hmem).symm
  · intro hmem
    exact hd (List.mem_singleton.mp hmem).symm

/-! ## Cancelling the timer -/

@[simp] theorem cancelTimer_currentTimer (c : Session) : c.cancelTimer.currentTimer = none := by
  unfold cancelTimer
  split
  · assumption
  · rfl

/-- Everything but the timer stays as it is. -/
theorem cancelTimer_keeps (c : Session) :
    c.cancelTimer.ops = c.ops ∧ c.cancelTimer.reads = c.reads ∧ c.cancelTimer.calls = c.calls ∧
    c.cancelTimer.stream = c.stream ∧ c.cancelTimer.lastTtl = c.lastTtl ∧
    c.cancelTimer.constructed = c.constructed ∧ c.cancelTimer.kaStream = c.kaStream := by
  unfold cancelTimer
  split <;> exact ⟨rfl, rfl, rfl, rfl, rfl, rfl, rfl⟩

/-- Cancelling a timer depends on the timer alone. -/
theorem cancelTimer_congr (hpend : c'.pending = c.pending)
    (htimer : c'.currentTimer = c.currentTimer) :
    c'.cancelTimer.pending = c.cancelTimer.pending := by
  unfold cancelTimer
  rw [htimer]
  split <;> simp [hpend]

/-- `shutdown()`, from a state that differs from `c` in the calls and counters only. -/
theorem effect_shutdown {d : Session} (a : Act) (exn : Option Exn) (hkept : Kept c d)
    (hops : d.ops.shutdown = c.ops.shutdown) (hreads : d.reads = c.reads)
    (hstream : d.stream = c.stream) (hcalls : d.calls ≤ c.calls) :
    Effect c (d.shutdown exn).1 a := by
  unfold shutdown
  split
  · exact .calls a (calls_end hkept hcalls)
  · refine .stopped a ?_
    rcases cancelTimer_keeps d with ⟨ho, hr, hc, hs, ht, hcon, _⟩
    rcases cancelTimer_keeps c with ⟨ho', hr', hc', hs', ht', hcon', _⟩
    refine calls_move (.shutdownReads exn) (s := d.calls) ?_ ?_ ?_ rfl ?_ ?_
    · constructor
      · exact cancelTimer_congr hkept.pending hkept.timer
      · show d.cancelTimer.currentTimer = c.cancelTimer.currentTimer
        rw [cancelTimer_currentTimer, cancelTimer_currentTimer]
      · show d.cancelTimer.lastTtl = c.cancelTimer.lastTtl
        rw [ht, ht', hkept.ttl]
      · show c.cancelTimer.ops.shutdown = true → d.cancelTimer.ops.shutdown = true
        rw [ho, ho', hops]
        exact id
      · show d.cancelTimer.reads.pending = c.cancelTimer.reads.pending
        rw [hr, hr', hreads]
      · intro _
        rfl
      · show d.cancelTimer.constructed = c.cancelTimer.constructed
        rw [hcon, hcon', hkept.constructed]
      · show ∃ l, (if d.cancelTimer.kaStream = true then d.cancelTimer.stream ++ [.tryCancel]
          else d.cancelTimer.stream) = c.cancelTimer.stream ++ l ∧ _
        rw [hs, hs', hstream]
        split
        · exact issues (by simp) (by simp) c.stream
        · exact issues_nothing c.stream
    · show _ ::ₘ d.cancelTimer.calls = _ ::ₘ d.calls
      rw [hc]
    · rw [hc']
      exact hcalls
    · intro hrev
      cases hrev
    · intro heq
      cases heq

/-! ## The constructor -/

theorem effect_onStreamCreated {ok : Bool} (hmem : .createStream ∈ c.calls) :
    Effect c (c.onStreamCreated ok).1 (.streamCreated ok) := by
  unfold onStreamCreated
  cases ok with
  | false =>
    refine effect_shutdown _ _ ?_ rfl rfl rfl (Multiset.erase_le _ _)
    exact ⟨rfl, rfl, rfl, id, rfl, id, rfl, issues_nothing c.stream⟩
  | true =>
    refine .calls _ ?_
    have hcount := Pool.countP_erase_of_pos (fun call : Call => call.isPreamble) hmem rfl
    constructor
    · refine ⟨rfl, rfl, rfl, ?_, rfl, id, rfl, issues_nothing c.stream⟩
      show c.ops.shutdown = true → c.ops.asyncOpStart.shutdown = true
      rw [AsyncOpCounter.asyncOpStart_shutdown]
      exact id
    · show Multiset.countP (fun call : Call => call.isPreamble)
        (.leaseGrant c.grantRequest ::ₘ c.calls.erase .createStream) ≤
        Multiset.countP (fun call : Call => call.isPreamble) c.calls
      rw [Multiset.countP_cons_of_pos (p := fun call : Call => call.isPreamble) _ rfl]
      omega
    · intro call hcall hrev
      have hcall' : call ∈ .leaseGrant c.grantRequest ::ₘ c.calls.erase .createStream := hcall
      rcases Multiset.mem_cons.mp hcall' with rfl | hold
      · cases hrev
      · exact Or.inr ⟨call, Multiset.mem_of_mem_erase hold, hrev⟩
    · intro hwait
      have hwait' : .revokeReads ∈ .leaseGrant c.grantRequest ::ₘ c.calls.erase .createStream :=
        hwait
      rcases Multiset.mem_cons.mp hwait' with heq | hold
      · cases heq
      · exact Or.inl (Multiset.mem_of_mem_erase hold)

theorem effect_onLeaseGranted {req : LeaseGrantRequest} {ok : Bool} {status : Status}
    {resp : LeaseGrantResponse} (hmem : .leaseGrant req ∈ c.calls) :
    Effect c (c.onLeaseGranted req ok status resp).1 (.leaseGranted req ok status resp) := by
  have hkept : Kept c { c with
      calls := c.calls.erase (.leaseGrant req)
      ops := c.ops.asyncOpDone.asyncOpDone } :=
    ⟨rfl, rfl, rfl, id, rfl, id, rfl, issues_nothing c.stream⟩
  cases hfut : futureError "async rpc cancelled" "session/preamble/lease_grant" ok status with
  | some e =>
    simp only [onLeaseGranted, hfut]
    exact effect_shutdown _ _ hkept rfl rfl rfl (Multiset.erase_le _ _)
  | none =>
    rcases futureError_eq_none.mp hfut with ⟨hok, hst⟩
    by_cases herr : resp.error = []
    · exact .granted req ok status resp hmem hok hst herr rfl
    · simp only [onLeaseGranted, hfut, ne_eq, herr, not_false_eq_true, if_true]
      exact effect_shutdown _ _ hkept rfl rfl rfl (Multiset.erase_le _ _)

/-! ## `revoke()` -/

theorem effect_revoke (hcon : c.constructed = true) : Effect c c.revoke.1 .revoke := by
  unfold revoke
  split
  · exact .calls _ (calls_end ⟨rfl, rfl, rfl, id, rfl, id, rfl, issues_nothing c.stream⟩ le_rfl)
  · refine .stopped _ ?_
    rcases cancelTimer_keeps c with ⟨_, _, _, _, _, hcon', _⟩
    refine calls_move .revoking (s := c.cancelTimer.calls) ?_ rfl le_rfl rfl ?_ ?_
    · exact ⟨rfl, rfl, rfl, id, rfl, id, rfl, issues_nothing c.cancelTimer.stream⟩
    · intro _
      exact Or.inl (hcon'.trans hcon)
    · intro heq
      cases heq

theorem calls_revokeLease (hmem : .revoking ∈ c.calls) : Calls c c.revokeLease := by
  refine calls_move (.leaseRevoke c.leaseId) ?_ rfl (Multiset.erase_le _ _) rfl
    (fun _ => Or.inr ⟨_, hmem, rfl⟩) ?_
  · refine ⟨rfl, rfl, rfl, ?_, rfl, id, rfl, issues_nothing c.stream⟩
    show c.ops.shutdown = true → c.ops.asyncOpStart.shutdown = true
    rw [AsyncOpCounter.asyncOpStart_shutdown]
    exact id
  · intro heq
    cases heq

/-- The last wait of `revoke()`: `ops_` is in shutdown, and the call waits or is over. -/
theorem drainOps_cases (c : Session) :
    (c.ops.pending = 0 ∧ c.drainOps = ({ c with ops := c.ops.setShutdown }, .returned)) ∨
    (c.ops.pending ≠ 0 ∧ c.drainOps =
      ({ c with ops := c.ops.setShutdown, calls := .revokeOps ::ₘ c.calls }, .running)) := by
  by_cases hzero : c.ops.pending = 0
  · exact .inl ⟨hzero, by simp [drainOps, hzero]⟩
  · exact .inr ⟨hzero, by simp [drainOps, hzero]⟩

/-- It changes nothing else. -/
theorem drainOps_keeps (c : Session) :
    c.drainOps.1.stream = c.stream ∧ c.drainOps.1.kaStream = c.kaStream ∧
    c.drainOps.1.constructed = c.constructed ∧ c.drainOps.1.destroyed = c.destroyed := by
  rcases c.drainOps_cases with ⟨_, heq⟩ | ⟨_, heq⟩
  · rw [heq]
    exact ⟨rfl, rfl, rfl, rfl⟩
  · rw [heq]
    exact ⟨rfl, rfl, rfl, rfl⟩

/-- A call of `revoke()` comes to its last wait. -/
theorem calls_drainOps {d : Session} {old : Call} (hmem : old ∈ c.calls)
    (hold : old.isRevoke = true) (hkept : Kept c d) (hcalls : d.calls = c.calls.erase old) :
    Calls c d.drainOps.1 := by
  have herase : d.calls ≤ c.calls := hcalls.trans_le (Multiset.erase_le _ _)
  have hkept' : Kept c { d with ops := d.ops.setShutdown } :=
    { hkept with ops := fun _ => rfl }
  rcases d.drainOps_cases with ⟨_, heq⟩ | ⟨_, heq⟩
  · rw [heq]
    exact calls_end hkept' herase
  · rw [heq]
    refine calls_move .revokeOps (s := d.calls) ?_ rfl herase rfl
      (fun _ => Or.inr ⟨old, hmem, hold⟩) ?_
    · exact ⟨hkept.pending, hkept.timer, hkept.ttl, fun _ => rfl, hkept.reads, hkept.refused,
        hkept.constructed, hkept.stream⟩
    · intro heq
      cases heq

theorem calls_onLeaseRevoked {id : UInt64} {ok : Bool} {status : Status}
    (hmem : .leaseRevoke id ∈ c.calls) : Calls c (c.onLeaseRevoked id ok status).1 := by
  have hold : ∃ old ∈ c.calls, old.isRevoke = true := ⟨_, hmem, rfl⟩
  have herase : c.calls.erase (.leaseRevoke id) ≤ c.calls := Multiset.erase_le _ _
  simp only [onLeaseRevoked]
  split
  · exact calls_end ⟨rfl, rfl, rfl, fun h => h, rfl, fun h => h, rfl, issues_nothing c.stream⟩ herase
  · split
    · refine calls_move _ ?_ rfl herase rfl (fun _ => Or.inr hold) (fun _ => rfl)
      exact ⟨rfl, rfl, rfl, fun h => h, rfl, fun _ => rfl, rfl, issues_nothing c.stream⟩
    · refine calls_drainOps hmem rfl ?_ rfl
      exact ⟨rfl, rfl, rfl, fun h => h, rfl, fun h => h, rfl, issues_nothing c.stream⟩

theorem calls_onWritesDone {ok : Bool} (hmem : .writesDone ∈ c.calls) :
    Calls c (c.onWritesDone ok).1 := by
  have herase : c.calls.erase .writesDone ≤ c.calls := Multiset.erase_le _ _
  unfold onWritesDone
  cases ok with
  | false => exact calls_end ⟨rfl, rfl, rfl, id, rfl, id, rfl, issues_nothing c.stream⟩ herase
  | true =>
    refine calls_move .finish ?_ rfl herase rfl (fun _ => Or.inr ⟨_, hmem, rfl⟩) ?_
    · refine ⟨rfl, rfl, rfl, ?_, rfl, id, rfl, issues (by simp) (by simp) c.stream⟩
      show c.ops.shutdown = true → c.ops.asyncOpStart.shutdown = true
      rw [AsyncOpCounter.asyncOpStart_shutdown]
      exact id
    · intro heq
      cases heq

theorem calls_onFinished {ok : Bool} {status : Status} (hmem : .finish ∈ c.calls) :
    Calls c (c.onFinished ok status).1 := by
  have herase : c.calls.erase .finish ≤ c.calls := Multiset.erase_le _ _
  simp only [onFinished]
  split
  · exact calls_end ⟨rfl, rfl, rfl, id, rfl, id, rfl, issues_nothing c.stream⟩ herase
  · split
    · exact calls_end ⟨rfl, rfl, rfl, id, rfl, id, rfl, issues_nothing c.stream⟩ herase
    · refine calls_drainOps hmem rfl ?_ rfl
      exact ⟨rfl, rfl, rfl, id, rfl, id, rfl, issues_nothing c.stream⟩

theorem calls_onShutdownReads (c : Session) (exn : Option Exn) :
    Calls c (c.onShutdownReads exn) := by
  refine calls_move (.shutdownOps exn) ?_ rfl (Multiset.erase_le _ _) rfl ?_ ?_
  · exact ⟨rfl, rfl, rfl, fun _ => rfl, rfl, id, rfl, issues_nothing c.stream⟩
  · intro hrev
    cases hrev
  · intro heq
    cases heq

/-- A call that returns from a wait. -/
theorem calls_erase (c : Session) (call : Call) :
    Calls c { c with calls := c.calls.erase call } :=
  calls_end ⟨rfl, rfl, rfl, id, rfl, id, rfl, issues_nothing c.stream⟩ (Multiset.erase_le _ _)

/-! ## Handlers -/

/-- The keep-alive cycle ends with this completion. -/
def Completion.ends (c : Session) : Completion → Bool
  | .timer _ _ _ ok => !ok || c.ops.shutdown
  | .write _ ok => !ok || c.reads.shutdown
  | .read ok _ => !ok || c.ops.shutdown

/-- The operation that follows in the cycle. -/
def Completion.next (c : Session) : Completion → Op
  | .timer _ _ _ _ => .write c.leaseId
  | .write _ _ => .read
  | .read _ ttl => .timer c.timers ((ttl * 1000).tdiv keepAlivesPerTtl) .armed

/-- What a handler issues on the stream, if the cycle goes on. -/
def Completion.issued (c : Session) : Completion → List StreamOp
  | .timer _ _ _ _ => [.write c.leaseId]
  | .write _ _ => [.read]
  | .read _ _ => []

/-- The TTL after a handler. -/
def Completion.ttl (c : Session) : Completion → Option Int
  | .read true ttl => some ttl
  | _ => c.lastTtl

/-- A handler with which the cycle ends. -/
theorem handle_ends {k : Completion} (h : k.ends c = true) :
    (c.handle k).pending = c.pending.erase k.op ∧ (c.handle k).stream = c.stream ∧
    (c.handle k).currentTimer = c.currentTimer ∧ (c.handle k).lastTtl = k.ttl c ∧
    (c.handle k).ops.shutdown = c.ops.shutdown ∧ (c.handle k).reads.shutdown = c.reads.shutdown ∧
    (c.handle k).calls = c.calls ∧ (c.handle k).constructed = c.constructed := by
  cases k with
  | timer id delay state ok =>
    have hstop : c.handle (.timer id delay state ok) =
        (c.enter (.timer id delay state ok)).asyncOpDone (.timer id delay state ok) := if_pos h
    rw [hstop]
    exact ⟨rfl, rfl, rfl, rfl, rfl, rfl, rfl, rfl⟩
  | write id ok =>
    have hstop : c.handle (.write id ok) =
        (c.enter (.write id ok)).asyncOpDone (.write id ok) := if_pos h
    rw [hstop]
    exact ⟨rfl, rfl, rfl, rfl, rfl, rfl, rfl, rfl⟩
  | read ok ttl =>
    cases ok with
    | false => exact ⟨rfl, rfl, rfl, rfl, rfl, rfl, rfl, rfl⟩
    | true =>
      -- the TTL is taken, and `set_timer()` is refused
      have hstop : c.handle (.read true ttl) =
          { (c.enter (.read true ttl)).asyncOpDone (.read true ttl) with
            actualTtl := ttl * 1000
            lastTtl := some ttl } := if_pos h
      rw [hstop]
      exact ⟨rfl, rfl, rfl, rfl, rfl, rfl, rfl, rfl⟩

/-- The timer after a handler with which the cycle goes on. -/
def Completion.timerAfter (c : Session) : Completion → Option Nat
  | .read _ _ => some c.timers
  | _ => c.currentTimer

/-- A handler with which the cycle goes on. -/
theorem handle_goes {k : Completion} (h : k.ends c = false) :
    (c.handle k).pending = k.next c ::ₘ c.pending.erase k.op ∧
    (c.handle k).stream = c.stream ++ k.issued c ∧
    (c.handle k).currentTimer = k.timerAfter c ∧ (c.handle k).lastTtl = k.ttl c ∧
    (c.handle k).ops.shutdown = c.ops.shutdown ∧ (c.handle k).reads.shutdown = c.reads.shutdown ∧
    (c.handle k).calls = c.calls ∧ (c.handle k).constructed = c.constructed := by
  have hne : ¬ k.ends c = true := by simp [h]
  cases k with
  | timer id delay state ok =>
    have hgo : c.handle (.timer id delay state ok) =
        { (c.enter (.timer id delay state ok)).asyncOpDone (.timer id delay state ok) with
          ops := c.ops.asyncOpDone.asyncOpStart
          stream := c.stream ++ [.write c.leaseId]
          pending := .write c.leaseId ::ₘ c.pending.erase (.timer id delay state) } := if_neg hne
    rw [hgo]
    exact ⟨rfl, rfl, rfl, rfl, AsyncOpCounter.asyncOpStart_shutdown _, rfl, rfl, rfl⟩
  | write id ok =>
    have hgo : c.handle (.write id ok) =
        { (c.enter (.write id ok)).asyncOpDone (.write id ok) with
          reads := c.reads.asyncOpStart
          stream := c.stream ++ [.read]
          pending := .read ::ₘ c.pending.erase (.write id) } := if_neg hne
    rw [hgo]
    exact ⟨rfl, rfl, rfl, rfl, rfl, AsyncOpCounter.asyncOpStart_shutdown _, rfl, rfl⟩
  | read ok ttl =>
    cases ok with
    | false => simp [Completion.ends] at h
    | true =>
      have hgo : c.handle (.read true ttl) =
          { (c.enter (.read true ttl)).asyncOpDone (.read true ttl) with
            actualTtl := ttl * 1000
            lastTtl := some ttl
            ops := c.ops.asyncOpStart
            timers := c.timers + 1
            currentTimer := some c.timers
            pending := .timer c.timers ((ttl * 1000).tdiv keepAlivesPerTtl) .armed ::ₘ
              c.pending.erase .read } := if_neg hne
      rw [hgo]
      exact ⟨rfl, (List.append_nil _).symm, rfl, rfl, AsyncOpCounter.asyncOpStart_shutdown _, rfl,
        rfl, rfl⟩

/-- The counter of the reads follows the Reads. -/
theorem handle_reads (c : Session) (k : Completion) :
    (c.handle k).reads.pending =
      match k with
      | .timer _ _ _ _ => c.reads.pending
      | .write _ _ => if k.ends c then c.reads.pending else c.reads.pending + 1
      | .read _ _ => c.reads.pending - 1 := by
  cases k with
  | timer id delay state ok =>
    simp only [handle, body, onTimeout]
    split <;> rfl
  | write id ok =>
    simp only [handle, body, onWrite]
    split
    · rename_i hend
      exact (if_pos hend).symm
    · rename_i hend
      have hopen : c.reads.shutdown = false := by
        by_contra hshut
        exact hend (by simp [asyncOpDone, enter, hshut])
      rw [if_neg (show ¬ (Completion.write id ok).ends c = true from hend)]
      exact AsyncOpCounter.asyncOpStart_pending _ hopen
  | read ok ttl =>
    simp only [handle, body, onRead, setTimer]
    split
    · rfl
    · split <;> rfl

/-! ## All steps -/

/-- `revoke()` goes on to WritesDone when the reads are drained. -/
theorem act_revokeReadsDrained (h : c.act .revokeReadsDrained = some (c', o)) :
    .revokeReads ∈ c.calls ∧ c.reads.pending = 0 ∧ c' = c.onRevokeReads := by
  obtain ⟨hmem, rfl⟩ := of_guard h
  exact ⟨hmem.1, hmem.2, rfl⟩

theorem act_complete {k : Completion} (h : c.act (.complete k) = some (c', o)) :
    k.op ∈ c.pending ∧ k.WellFormed ∧ c' = c.handle k := by
  obtain ⟨hk, rfl⟩ := of_guard h
  exact ⟨hk.1, hk.2, rfl⟩

/-- What one step can do. -/
theorem act_cases (h : c.act a = some (c', o)) : Effect c c' a := by
  cases a with
  | streamCreated ok =>
    obtain ⟨hmem, rfl⟩ := of_guard h
    exact effect_onStreamCreated hmem
  | leaseGranted req ok status resp =>
    obtain ⟨hmem, rfl⟩ := of_guard h
    exact effect_onLeaseGranted hmem
  | revoke =>
    obtain ⟨hcon, rfl⟩ := of_guard h
    exact effect_revoke hcon.1
  | revokeLease =>
    obtain ⟨hmem, rfl⟩ := of_guard h
    exact .calls _ (calls_revokeLease hmem)
  | leaseRevoked id ok status =>
    obtain ⟨hmem, rfl⟩ := of_guard h
    exact .calls _ (calls_onLeaseRevoked hmem)
  | revokeReadsDrained =>
    rcases act_revokeReadsDrained h with ⟨hmem, hnone, heq⟩
    exact .barrier hmem hnone heq
  | writesDone ok =>
    obtain ⟨hmem, rfl⟩ := of_guard h
    exact .calls _ (calls_onWritesDone hmem)
  | finished ok status =>
    obtain ⟨hmem, rfl⟩ := of_guard h
    exact .calls _ (calls_onFinished hmem)
  | revokeOpsDrained =>
    obtain ⟨-, rfl⟩ := of_guard h
    exact .calls _ (calls_erase c _)
  | destroy =>
    obtain ⟨-, rfl⟩ := of_guard h
    refine effect_shutdown _ _ ?_ rfl rfl rfl le_rfl
    exact ⟨rfl, rfl, rfl, id, rfl, id, rfl, issues_nothing c.stream⟩
  | shutdownReadsDrained exn =>
    obtain ⟨-, rfl⟩ := of_guard h
    exact .calls _ (calls_onShutdownReads c exn)
  | shutdownOpsDrained exn =>
    obtain ⟨-, rfl⟩ := of_guard h
    exact .calls _ (calls_erase c _)
  | timerFires id delay =>
    obtain ⟨hmem, heq⟩ := of_guard h
    exact .fires id delay hmem heq
  | complete k =>
    obtain ⟨hk, heq⟩ := of_guard h
    exact .handled k hk.1 hk.2 heq

end GeeH.Session
