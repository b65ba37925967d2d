import GeeH.Session.Cycle

/-!
# GeeH.Session.Accounting — what the counters of a session count

`ops_` counts the timers, the Writes and the tracers, `reads_` the Reads. What
a counter holds in excess of that is owed (`owed`, `owedReads`). Nothing ever
is, with one exception: a tracer that is constructed when `ops_` is already in
shutdown is refused, and takes one off the counter all the same when it is
destroyed. Only `revoke()` can get there, when another `revoke()` is ahead of
it (`refused`).

`Orderly` says what the blocked calls rely on. It follows that once a call has
waited for `ops_`, nothing is outstanding and nothing is started any more.
-/

namespace GeeH.Session

open Machine

variable {c c' : Session} {a : Act} {o : Outcome}

/-- What `ops_` counts of an operation. -/
def Op.inOps : Op → Nat
  | .timer _ _ _ => 1
  | .write _ => 1
  | .read => 0

/-- The live tracers of a blocked call. -/
def Call.tracers : Call → Nat
  | .createStream => 1
  | .leaseGrant _ => 2
  | .leaseRevoke _ => 1
  | .writesDone => 1
  | .finish => 2
  | _ => 0

@[simp] theorem tracers_eq : Call.createStream.tracers = 1 ∧
    (∀ request, (Call.leaseGrant request).tracers = 2) ∧ Call.revoking.tracers = 0 ∧
    (∀ leaseId, (Call.leaseRevoke leaseId).tracers = 1) ∧ Call.revokeReads.tracers = 0 ∧
    Call.writesDone.tracers = 1 ∧ Call.finish.tracers = 2 ∧ Call.revokeOps.tracers = 0 ∧
    (∀ exn, (Call.shutdownReads exn).tracers = 0) ∧
    ∀ exn, (Call.shutdownOps exn).tracers = 0 :=
  ⟨rfl, fun _ => rfl, rfl, fun _ => rfl, rfl, rfl, rfl, rfl, fun _ => rfl, fun _ => rfl⟩

/-- How many Reads there are. -/
def reading (s : Multiset Op) : Nat := s.countP fun op => op.isRead

/-- The outstanding timers and Writes, and the live tracers. -/
def outstanding (c : Session) : Nat :=
  Pool.total Op.inOps c.pending + Pool.total Call.tracers c.calls

/-- What `ops_` counts and is not outstanding. -/
def owed (c : Session) : Int := c.ops.pending - c.outstanding

/-- What `reads_` counts and is not outstanding. -/
def owedReads (c : Session) : Int := c.reads.pending - reading c.pending

theorem reading_cons {op : Op} (h : op.isRead = false) (s : Multiset Op) :
    reading (op ::ₘ s) = reading s :=
  Multiset.countP_cons_of_neg _ (by simp [h])

theorem reading_read (s : Multiset Op) : reading (.read ::ₘ s) = reading s + 1 :=
  Multiset.countP_cons_of_pos _ rfl

theorem reading_erase {op : Op} {s : Multiset Op} (hmem : op ∈ s) :
    reading (s.erase op) + op.isRead.toNat = reading s := by
  cases hread : op.isRead with
  | true => exact Pool.countP_erase_of_pos (fun op : Op => op.isRead) hmem hread
  | false => exact Pool.countP_erase_of_neg (fun op : Op => op.isRead) (by simp [hread])

/-- Every operation is counted, by one counter or the other. -/
theorem Op.counted (op : Op) : op.inOps + op.isRead.toNat = 1 := by
  cases op <;> rfl

theorem pending_eq_zero {s : Multiset Op} (hops : Pool.total Op.inOps s = 0)
    (hreads : reading s = 0) : s = 0 := by
  refine Multiset.eq_zero_of_forall_notMem ?_
  intro op hmem
  have hin := (Pool.total_eq_zero Op.inOps).mp hops op hmem
  have hread := Multiset.countP_eq_zero.mp hreads op hmem
  have hone := op.counted
  simp only [Bool.not_eq_true] at hread
  rw [hin, hread] at hone
  cases hone

/-- Where the counters are zero and nothing is owed, no operation is outstanding. -/
theorem pending_of_owed (hops : c.ops.pending = 0) (hreads : c.reads.pending = 0)
    (howed : 0 ≤ c.owed) (howed' : 0 ≤ c.owedReads) : c.pending = 0 := by
  unfold owed outstanding at howed
  unfold owedReads at howed'
  exact pending_eq_zero (by omega) (by omega)

/-- A blocked call has its tracers counted. -/
theorem tracers_le {call : Call} (h : 0 ≤ c.owed) (hmem : call ∈ c.calls) :
    (call.tracers : Int) ≤ c.ops.pending := by
  have htotal := Pool.total_erase Call.tracers hmem
  unfold owed outstanding at h
  omega

/-! ## Handlers -/

/-- A piece of code that counts what it starts, starts nothing when a counter refuses it, and
has nothing to do with calls. -/
structure Balanced (c c' : Session) : Prop where
  ops : c'.owed = c.owed
  reads : c'.owedReads = c.owedReads
  refused : c.ops.shutdown = true → c'.ops.pending = c.ops.pending := by exact fun _ => rfl
  refusedReads : c.reads.shutdown = true → c'.reads.pending = c.reads.pending := by
    exact fun _ => rfl
  shutdown : c'.ops.shutdown = c.ops.shutdown := by rfl
  shutdownReads : c'.reads.shutdown = c.reads.shutdown := by rfl
  calls : c'.calls = c.calls := by rfl
  kaStream : c'.kaStream = c.kaStream := by rfl
  constructed : c'.constructed = c.constructed := by rfl
  destroyed : c'.destroyed = c.destroyed := by rfl

theorem Balanced.refl (c : Session) : Balanced c c where
  ops := rfl
  reads := rfl

/-- An operation of `ops_` is counted and posted. -/
theorem balanced_post (op : Op) {d : Session} (hops : c.ops.shutdown = false)
    (hop : op.inOps = 1) (hread : op.isRead = false) (hpend : d.pending = c.pending)
    (hcount : d.ops = c.ops) (hreads : d.reads = c.reads) (hcalls : d.calls = c.calls)
    (hka : d.kaStream = c.kaStream) (hcon : d.constructed = c.constructed)
    (hd : d.destroyed = c.destroyed) :
    Balanced c { d with ops := d.ops.asyncOpStart, pending := op ::ₘ d.pending } := by
  refine
    { ops := ?_
      reads := ?_
      refused := fun h => absurd (hops.symm.trans h) (by simp)
      refusedReads := fun _ => by rw [hreads]
      shutdown := by rw [hcount, AsyncOpCounter.asyncOpStart_shutdown]
      shutdownReads := by rw [hreads]
      calls := hcalls
      kaStream := hka
      constructed := hcon
      destroyed := hd }
  · simp only [owed, outstanding, hcount, hcalls, hpend, Pool.total_cons, hop,
      AsyncOpCounter.asyncOpStart_pending _ hops]
    omega
  · simp only [owedReads, hreads, hpend, reading_cons hread]

theorem balanced_setTimer (c : Session) : Balanced c c.setTimer := by
  unfold setTimer
  cases hops : c.ops.shutdown with
  | true => exact .refl c
  | false =>
    exact balanced_post (.timer c.timers (c.actualTtl.tdiv keepAlivesPerTtl) .armed)
      (d := { c with timers := c.timers + 1, currentTimer := some c.timers })
      hops rfl rfl rfl rfl rfl rfl rfl rfl rfl

theorem balanced_body (c : Session) (k : Completion) : Balanced c (c.body k) := by
  cases k with
  | timer id delay state ok =>
    cases hcond : (!ok || c.ops.shutdown) with
    | true =>
      have heq : c.body (.timer id delay state ok) = c := if_pos hcond
      rw [heq]
      exact .refl c
    | false =>
      have hops : c.ops.shutdown = false := by
        simp only [Bool.or_eq_false_iff] at hcond
        exact hcond.2
      have heq : c.body (.timer id delay state ok) = { c with
          ops := c.ops.asyncOpStart
          stream := c.stream ++ [.write c.leaseId]
          pending := .write c.leaseId ::ₘ c.pending } := if_neg (by simp [hcond])
      rw [heq]
      exact balanced_post (.write c.leaseId)
        (d := { c with stream := c.stream ++ [.write c.leaseId] })
        hops rfl rfl rfl rfl rfl rfl rfl rfl rfl
  | write id ok =>
    cases hcond : (!ok || c.reads.shutdown) with
    | true =>
      have heq : c.body (.write id ok) = c := if_pos hcond
      rw [heq]
      exact .refl c
    | false =>
      have hreads : c.reads.shutdown = false := by
        simp only [Bool.or_eq_false_iff] at hcond
        exact hcond.2
      have heq : c.body (.write id ok) = { c with
          reads := c.reads.asyncOpStart
          stream := c.stream ++ [.read]
          pending := .read ::ₘ c.pending } := if_neg (by simp [hcond])
      rw [heq]
      refine
        { ops := by simp [owed, outstanding, Op.inOps]
          reads := ?_
          refusedReads := fun h => absurd (hreads.symm.trans h) (by simp)
          shutdownReads := AsyncOpCounter.asyncOpStart_shutdown _ }
      simp only [owedReads, reading_read, AsyncOpCounter.asyncOpStart_pending _ hreads]
      omega
  | read ok ttl =>
    cases ok with
    | false => exact .refl c
    | true =>
      have htimer := balanced_setTimer { c with actualTtl := ttl * 1000, lastTtl := some ttl }
      exact
        { ops := htimer.ops
          reads := htimer.reads
          refused := htimer.refused
          refusedReads := htimer.refusedReads
          shutdown := htimer.shutdown
          shutdownReads := htimer.shutdownReads
          calls := htimer.calls
          kaStream := htimer.kaStream
          constructed := htimer.constructed
          destroyed := htimer.destroyed }

/-- Whether the handler of a completion works on `reads_`. -/
def Completion.isRead (k : Completion) : Bool := k.op.isRead

/-- Between its entry and its `async_op_done`, the operation of a handler is owed. -/
theorem owed_enter {k : Completion} (hmem : k.op ∈ c.pending) :
    (c.enter k).owed = c.owed + k.op.inOps ∧
    (c.enter k).owedReads = c.owedReads + k.isRead.toNat := by
  have htotal := Pool.total_erase Op.inOps hmem
  have hread := reading_erase hmem
  constructor
  · simp only [owed, outstanding, enter]
    omega
  · simp only [owedReads, enter, Completion.isRead]
    omega

theorem owed_asyncOpDone (c : Session) (k : Completion) :
    (c.asyncOpDone k).owed = c.owed - k.op.inOps ∧
    (c.asyncOpDone k).owedReads = c.owedReads - k.isRead.toNat := by
  cases k with
  | timer _ _ _ _ =>
    simp only [asyncOpDone, owed, owedReads, outstanding, Completion.op, Completion.isRead,
      Op.inOps, Op.isRead, AsyncOpCounter.asyncOpDone_pending]
    constructor
    · simp
      omega
    · simp
  | write _ _ =>
    simp only [asyncOpDone, owed, owedReads, outstanding, Completion.op, Completion.isRead,
      Op.inOps, Op.isRead, AsyncOpCounter.asyncOpDone_pending]
    constructor
    · simp
      omega
    · simp
  | read _ _ =>
    simp only [asyncOpDone, owed, owedReads, outstanding, Completion.op, Completion.isRead,
      Op.inOps, Op.isRead, AsyncOpCounter.asyncOpDone_pending]
    constructor
    · simp
    · simp
      omega

theorem owed_handle {k : Completion} (hmem : k.op ∈ c.pending) :
    (c.handle k).owed = c.owed ∧ (c.handle k).owedReads = c.owedReads := by
  have hbody := balanced_body ((c.enter k).asyncOpDone k) k
  have hdone := owed_asyncOpDone (c.enter k) k
  have henter := owed_enter hmem
  unfold handle
  constructor
  · rw [hbody.ops, hdone.1, henter.1]
    omega
  · rw [hbody.reads, hdone.2, henter.2]
    omega

/-! ## What the blocked calls rely on -/

/-- No Read is outstanding, and none will be. -/
def Sealed (c : Session) : Prop := c.reads.shutdown = true ∧ c.reads.pending = 0

/-- The constructor is at work: nobody else has the object yet. -/
structure Building (c : Session) (call : Call) : Prop where
  calls : c.calls = {call}
  constructed : c.constructed = false
  destroyed : c.destroyed = false
  opened : c.ops.shutdown = false

/-- What a blocked call relies on. -/
def Call.Orderly (c : Session) : Call → Prop
  | .createStream => Building c .createStream
  | .leaseGrant req => Building c (.leaseGrant req) ∧ c.kaStream = true
  | .revoking => c.constructed = true
  | .leaseRevoke _ => c.constructed = true
  | .revokeReads => c.constructed = true ∧ c.reads.shutdown = true
  | .writesDone => c.constructed = true ∧ Sealed c
  | .finish => c.constructed = true ∧ Sealed c
  | .shutdownReads _ => c.reads.shutdown = true
  | .revokeOps => c.ops.shutdown = true
  | .shutdownOps _ => c.ops.shutdown = true

/-- The calls that wait for `ops_`. -/
def Call.isDrain : Call → Bool
  | .revokeOps => true
  | .shutdownOps _ => true
  | _ => false

/-- The calls that lead to the shutdown of `ops_` when the object is not, or not any more, in
use. -/
def Call.isClosing : Call → Bool
  | .shutdownReads _ => true
  | call => call.isPreamble

/-- The order in which the counters are drained. -/
structure Orderly (c : Session) : Prop where
  frames : ∀ call ∈ c.calls, call.Orderly c
  stream : c.constructed = true → c.kaStream = true
  fresh : c.constructed = false → c.destroyed = false
  /-- `reads_` is drained before `ops_` is shut down. -/
  closed : c.ops.shutdown = true → Sealed c
  /-- Whoever shut `ops_` down waits for it, or has waited. -/
  drained : c.ops.shutdown = true → (∃ call ∈ c.calls, call.isDrain = true) ∨ c.ops.pending = 0
  closing : c.destroyed = true ∨ c.constructed = false →
    c.ops.shutdown = true ∨ ∃ call ∈ c.calls, call.isClosing = true

theorem init_orderly (desiredTtl : Int) (leaseId : UInt64) : Orderly (init desiredTtl leaseId) where
  frames call hmem := by
    have heq : call = .createStream := Multiset.mem_singleton.mp hmem
    rw [heq]
    exact ⟨rfl, rfl, rfl, rfl⟩
  stream h := by cases h
  fresh _ := rfl
  closed h := by cases h
  drained h := by cases h
  closing _ := Or.inr ⟨.createStream, Multiset.mem_singleton_self _, rfl⟩

theorem Orderly.building (h : Orderly c) {call : Call} (hmem : call ∈ c.calls)
    (hcall : call.isPreamble = true) : Building c call := by
  have horder := h.frames call hmem
  cases call with
  | createStream => exact horder
  | leaseGrant req => exact horder.1
  | _ => cases hcall

/-- As long as another call runs, the constructor is not at work. -/
theorem Orderly.other (h : Orderly c) {call : Call} (hmem : call ∈ c.calls)
    (hcall : call.isPreamble = false) : ∀ call' ∈ c.calls, call'.isPreamble = false := by
  intro call' hmem'
  by_contra hpre
  have hb := h.building hmem' (by simpa using hpre)
  rw [hb.calls, Multiset.mem_singleton] at hmem
  rw [hmem] at hcall
  exact hpre hcall

theorem Orderly.built (h : Orderly c) (hcon : c.constructed = true) :
    ∀ call ∈ c.calls, call.isPreamble = false := by
  intro call hmem
  by_contra hpre
  have hb := h.building hmem (by simpa using hpre)
  exact absurd (hcon.symm.trans hb.constructed) (by simp)

/-- What a call relies on is there to stay. -/
theorem Call.Orderly.mono {call : Call} (h : call.Orderly c) (hcall : call.isPreamble = false)
    (hcon : c.constructed = true → c'.constructed = true)
    (hops : c.ops.shutdown = true → c'.ops.shutdown = true)
    (hreads : c.reads.shutdown = true → c'.reads.shutdown = true)
    (hzero : Sealed c → c'.reads.pending = 0) : call.Orderly c' := by
  have hsealed : Sealed c → Sealed c' := fun hs => ⟨hreads hs.1, hzero hs⟩
  cases call with
  | createStream => cases hcall
  | leaseGrant req => cases hcall
  | revoking => exact hcon h
  | leaseRevoke id => exact hcon h
  | revokeReads => exact ⟨hcon h.1, hreads h.2⟩
  | writesDone => exact ⟨hcon h.1, hsealed h.2⟩
  | finish => exact ⟨hcon h.1, hsealed h.2⟩
  | revokeOps => exact hops h
  | shutdownReads exn => exact hreads h
  | shutdownOps exn => exact hops h

/-- A step that is not about calls at all. -/
theorem Orderly.congr (h : Orderly c) (hcalls : c'.calls = c.calls)
    (hka : c'.kaStream = c.kaStream) (hcon : c'.constructed = c.constructed)
    (hd : c'.destroyed = c.destroyed) (hops : c'.ops.shutdown = c.ops.shutdown)
    (hreads : c'.reads.shutdown = c.reads.shutdown)
    (hzero : c.ops.shutdown = true → c.ops.pending = 0 → c'.ops.pending = 0)
    (hzero' : Sealed c → c'.reads.pending = 0) : Orderly c' where
  frames call hmem := by
    rw [hcalls] at hmem
    cases hpre : call.isPreamble with
    | true =>
      have hb := h.building hmem hpre
      have hb' : Building c' call :=
        ⟨hcalls.trans hb.calls, hcon.trans hb.constructed, hd.trans hb.destroyed,
          hops.trans hb.opened⟩
      have horder := h.frames call hmem
      cases call with
      | createStream => exact hb'
      | leaseGrant req => exact ⟨hb', hka.trans horder.2⟩
      | _ => cases hpre
    | false =>
      exact (h.frames call hmem).mono hpre (fun hc => hcon.trans hc) (fun ho => hops.trans ho)
        (fun hr => hreads.trans hr) hzero'
  stream hc := hka.trans (h.stream (hcon.symm.trans hc))
  fresh hc := hd.trans (h.fresh (hcon.symm.trans hc))
  closed ho := by
    have hs := h.closed (hops.symm.trans ho)
    exact ⟨hreads.trans hs.1, hzero' hs⟩
  drained ho := by
    rw [hcalls]
    rcases h.drained (hops.symm.trans ho) with hframe | hz
    · exact Or.inl hframe
    · exact Or.inr (hzero (hops.symm.trans ho) hz)
  closing hcl := by
    rw [hd, hcon] at hcl
    rw [hops, hcalls]
    exact h.closing hcl

theorem Balanced.orderly (h : Balanced c c') (ho : Orderly c) : Orderly c' := by
  refine ho.congr h.calls h.kaStream h.constructed h.destroyed h.shutdown h.shutdownReads ?_ ?_
  · intro hops hz
    exact (h.refused hops).trans hz
  · intro hs
    exact (h.refusedReads hs.1).trans hs.2

theorem Orderly.enter (h : Orderly c) (k : Completion) : Orderly (c.enter k) :=
  h.congr rfl rfl rfl rfl rfl rfl (fun _ hz => hz) (fun hs => hs.2)

/-- A counter that is zero owes no operation, so no handler takes one off it. -/
theorem Orderly.asyncOpDone (h : Orderly c) {k : Completion} (hops : (k.op.inOps : Int) ≤ c.owed)
    (hreads : (k.isRead.toNat : Int) ≤ c.owedReads) : Orderly (c.asyncOpDone k) := by
  have hdone := owed_asyncOpDone c k
  have hkeep : (c.asyncOpDone k).calls = c.calls ∧ (c.asyncOpDone k).pending = c.pending ∧
      (c.asyncOpDone k).kaStream = c.kaStream ∧
      (c.asyncOpDone k).constructed = c.constructed ∧
      (c.asyncOpDone k).destroyed = c.destroyed ∧
      (c.asyncOpDone k).ops.shutdown = c.ops.shutdown ∧
      (c.asyncOpDone k).reads.shutdown = c.reads.shutdown := by
    cases k <;> exact ⟨rfl, rfl, rfl, rfl, rfl, rfl, rfl⟩
  rcases hkeep with ⟨hcalls, hpend, hka, hcon, hd, hsh, hsh'⟩
  unfold owed outstanding at hops hdone
  unfold owedReads at hreads hdone
  rw [hpend, hcalls] at hdone
  refine h.congr hcalls hka hcon hd hsh hsh' ?_ ?_
  · intro _ hz
    omega
  · intro hs
    have hz := hs.2
    omega

/-- A call moves on, or ends, that neither waits for `ops_` nor leads there from outside
`revoke()`. -/
theorem Orderly.move (h : Orderly c) {old : Call} (hmem : old ∈ c.calls)
    (hpre : old.isClosing = false) (hdrain : old.isDrain = false)
    (hkeep : ∀ call ∈ c.calls.erase old, call ∈ c'.calls)
    (hnew : ∀ call ∈ c'.calls, call ∈ c.calls ∨ call.Orderly c')
    (hka : c'.kaStream = c.kaStream) (hcon : c'.constructed = c.constructed)
    (hd : c'.destroyed = c.destroyed) (hops : c'.ops.shutdown = c.ops.shutdown)
    (hreads : c.reads.shutdown = true → c'.reads.shutdown = true)
    (hzero : c.ops.shutdown = true → c.ops.pending = 0 → c'.ops.pending = 0)
    (hzero' : c'.reads.pending = c.reads.pending) : Orderly c' := by
  have hother : ∀ {call : Call}, call ∈ c.calls → call ≠ old → call ∈ c'.calls := by
    intro call hcall hne
    exact hkeep call ((Multiset.mem_erase_of_ne hne).mpr hcall)
  have hnp : old.isPreamble = false := by
    cases old with
    | shutdownReads exn => cases hpre
    | _ => exact hpre
  refine ⟨?_, ?_, ?_, ?_, ?_, ?_⟩
  · intro call hcall
    rcases hnew call hcall with hold | horder
    · exact (h.frames call hold).mono (h.other hmem hnp call hold) (fun hc => hcon.trans hc)
        (fun ho => hops.trans ho) hreads (fun hs => hzero'.trans hs.2)
    · exact horder
  · intro hc
    exact hka.trans (h.stream (hcon.symm.trans hc))
  · intro hc
    exact hd.trans (h.fresh (hcon.symm.trans hc))
  · intro ho
    have hs := h.closed (hops.symm.trans ho)
    exact ⟨hreads hs.1, hzero'.trans hs.2⟩
  · intro ho
    rcases h.drained (hops.symm.trans ho) with ⟨call, hcall, hdr⟩ | hz
    · left
      refine ⟨call, hother hcall ?_, hdr⟩
      rintro rfl
      exact absurd (hdrain.symm.trans hdr) (by simp)
    · exact Or.inr (hzero (hops.symm.trans ho) hz)
  · intro hcl
    rw [hd, hcon] at hcl
    rw [hops]
    rcases h.closing hcl with ho | ⟨call, hcall, hc⟩
    · exact Or.inl ho
    · right
      refine ⟨call, hother hcall ?_, hc⟩
      rintro rfl
      exact absurd (hpre.symm.trans hc) (by simp)

/-- A call shuts `ops_` down, with `reads_` drained. It waits, or there is nothing to wait for. -/
theorem Orderly.drain (h : Orderly c) {old : Call} (hmem : old ∈ c.calls)
    (hpre : old.isPreamble = false)
    (hwait : (∃ call ∈ c'.calls, call.isDrain = true) ∨ c'.ops.pending = 0)
    (hcalls : ∀ call ∈ c'.calls, call ∈ c.calls ∨ call.isDrain = true)
    (hka : c'.kaStream = c.kaStream) (hcon : c'.constructed = c.constructed)
    (hd : c'.destroyed = c.destroyed) (hops : c'.ops.shutdown = true)
    (hreads : c'.reads = c.reads) (hsealed : Sealed c) : Orderly c' := by
  refine ⟨?_, ?_, ?_, ?_, fun _ => hwait, fun _ => Or.inl hops⟩
  · intro call hcall
    rcases hcalls call hcall with hold | hnew
    · exact (h.frames call hold).mono (h.other hmem hpre call hold) (fun hc => hcon.trans hc)
        (fun _ => hops) (fun hr => by rw [hreads]; exact hr) (fun hs => by rw [hreads]; exact hs.2)
    · cases call <;> first | exact hops | cases hnew
  · intro hc
    exact hka.trans (h.stream (hcon.symm.trans hc))
  · intro hc
    exact hd.trans (h.fresh (hcon.symm.trans hc))
  · intro _
    unfold Sealed
    rw [hreads]
    exact hsealed

/-! ## The constructor and `shutdown()` -/

theorem cancel_inOps (id : Nat) (op : Op) : (Op.cancel id op).inOps = op.inOps := by
  unfold Op.cancel
  split
  · split <;> rfl
  · rfl

/-- Cancelling the timer leaves the counts alone. -/
theorem owed_cancelTimer (c : Session) :
    c.cancelTimer.owed = c.owed ∧ c.cancelTimer.owedReads = c.owedReads := by
  rcases cancelTimer_keeps c with ⟨ho, hr, hc, _⟩
  have htotal : Pool.total Op.inOps c.cancelTimer.pending = Pool.total Op.inOps c.pending := by
    unfold cancelTimer
    split
    · rfl
    · simp [Pool.total, cancel_inOps]
  have hread : reading c.cancelTimer.pending = reading c.pending := (cancelTimer_pending c).2
  constructor
  · rw [owed, owed, outstanding, outstanding, ho, hc, htotal]
  · rw [owedReads, owedReads, hr, hread]

/-- What a step may do to the counters that is not the end of an operation. -/
structure Settled (c c' : Session) : Prop where
  orderly : Orderly c'
  ops : c'.owed = c.owed
  reads : c'.owedReads = c.owedReads

/-- `shutdown()`, when no call is running and `ops_` is not in shutdown. -/
theorem settled_shutdown (exn : Option Exn) (hcalls : c.calls = 0) (hops : c.ops.shutdown = false)
    (hstream : c.constructed = true → c.kaStream = true)
    (hfresh : c.constructed = false → c.destroyed = false) : Settled c (c.shutdown exn).1 := by
  rcases cancelTimer_keeps c with ⟨ho, hr, hc, _, _, hcon, hka⟩
  have hd : c.cancelTimer.destroyed = c.destroyed := by
    unfold cancelTimer
    split <;> rfl
  have howed := owed_cancelTimer c
  have heq : (c.shutdown exn).1 = { c.cancelTimer with
      stream := if c.cancelTimer.kaStream then c.cancelTimer.stream ++ [.tryCancel]
        else c.cancelTimer.stream
      reads := c.cancelTimer.reads.setShutdown
      calls := .shutdownReads exn ::ₘ c.cancelTimer.calls } := by
    simp [shutdown, hops]
  rw [heq]
  have hframe : (Call.shutdownReads exn) ∈ Call.shutdownReads exn ::ₘ c.cancelTimer.calls :=
    Multiset.mem_cons_self _ _
  refine ⟨⟨?_, ?_, ?_, ?_, ?_, ?_⟩, ?_, ?_⟩
  · intro call hmem
    have hmem' : call ∈ Call.shutdownReads exn ::ₘ c.cancelTimer.calls := hmem
    rw [hc, hcalls] at hmem'
    rcases Multiset.mem_cons.mp hmem' with rfl | hold
    · rfl
    · exact absurd hold (Multiset.notMem_zero _)
  · intro h
    exact hka.trans (hstream (hcon.symm.trans h))
  · intro h
    exact hd.trans (hfresh (hcon.symm.trans h))
  · intro h
    exact absurd ((ho ▸ hops).symm.trans h) (by simp)
  · intro h
    exact absurd ((ho ▸ hops).symm.trans h) (by simp)
  · intro _
    exact Or.inr ⟨_, hframe, rfl⟩
  · rw [← howed.1]
    simp [owed, outstanding]
  · rw [← howed.2]
    rfl

theorem settled_onStreamCreated (h : Orderly c) (hmem : .createStream ∈ c.calls) (ok : Bool) :
    Settled c (c.onStreamCreated ok).1 := by
  have hb := h.building hmem rfl
  have herase : c.calls.erase .createStream = 0 := by simp [hb.calls]
  have htotal := Pool.total_erase Call.tracers hmem
  rw [herase] at htotal
  simp only [tracers_eq, Pool.total_zero] at htotal
  cases ok with
  | false =>
    have hleft : owed { c with calls := 0, ops := c.ops.asyncOpDone } = c.owed := by
      simp only [owed, outstanding, AsyncOpCounter.asyncOpDone_pending, Pool.total_zero]
      omega
    have hset := settled_shutdown (c := { c with calls := 0, ops := c.ops.asyncOpDone })
      (some (.runtimeError "async create_rdwr_stream cancelled for session/ka_stream"))
      rfl hb.opened h.stream h.fresh
    simp only [onStreamCreated, herase, Bool.not_false, if_true]
    exact ⟨hset.orderly, hset.ops.trans hleft, hset.reads⟩
  | true =>
    simp only [onStreamCreated, herase, Bool.not_true, Bool.false_eq_true, if_false]
    refine ⟨⟨?_, ?_, ?_, ?_, ?_, ?_⟩, ?_, rfl⟩
    · intro call hcall
      have heq : call = _ := Multiset.mem_singleton.mp hcall
      rw [heq]
      exact ⟨⟨rfl, hb.constructed, hb.destroyed,
        (AsyncOpCounter.asyncOpStart_shutdown _).trans hb.opened⟩, rfl⟩
    · intro _
      rfl
    · exact h.fresh
    · intro hops
      exact absurd (((AsyncOpCounter.asyncOpStart_shutdown _).trans hb.opened).symm.trans hops)
        (by simp)
    · intro hops
      exact absurd (((AsyncOpCounter.asyncOpStart_shutdown _).trans hb.opened).symm.trans hops)
        (by simp)
    · intro _
      exact Or.inr ⟨_, Multiset.mem_singleton_self _, rfl⟩
    · simp only [owed, outstanding, Pool.total_cons, Pool.total_zero, tracers_eq,
        AsyncOpCounter.asyncOpStart_pending _ hb.opened]
      omega

theorem settled_onLeaseGranted (h : Orderly c) {req : LeaseGrantRequest}
    (hmem : .leaseGrant req ∈ c.calls) (ok : Bool) (status : Status) (resp : LeaseGrantResponse) :
    Settled c (c.onLeaseGranted req ok status resp).1 := by
  have hb := h.building hmem rfl
  have herase : c.calls.erase (.leaseGrant req) = 0 := by simp [hb.calls]
  have htotal := Pool.total_erase Call.tracers hmem
  rw [herase] at htotal
  simp only [tracers_eq, Pool.total_zero] at htotal
  have hleft : owed { c with calls := 0, ops := c.ops.asyncOpDone.asyncOpDone } = c.owed := by
    simp only [owed, outstanding, AsyncOpCounter.asyncOpDone_pending, Pool.total_zero]
    omega
  have hfails : ∀ exn, Settled c
      (shutdown { c with calls := 0, ops := c.ops.asyncOpDone.asyncOpDone } exn).1 := by
    intro exn
    have hset := settled_shutdown (c := { c with calls := 0, ops := c.ops.asyncOpDone.asyncOpDone })
      exn rfl hb.opened h.stream h.fresh
    exact ⟨hset.orderly, hset.ops.trans hleft, hset.reads⟩
  cases hfut : futureError "async rpc cancelled" "session/preamble/lease_grant" ok status with
  | some e =>
    simp only [onLeaseGranted, hfut, herase]
    exact hfails _
  | none =>
    by_cases herr : resp.error = []
    · have htimer := balanced_setTimer (granted { c with calls := 0 } resp)
      have heq : (c.onLeaseGranted req ok status resp).1 =
          { (granted { c with calls := 0 } resp).setTimer with
            ops := (granted { c with calls := 0 } resp).setTimer.ops.asyncOpDone.asyncOpDone
            constructed := true } := by
        simp only [onLeaseGranted, hfut, herase, herr, ne_eq, not_true, if_false]
      rw [heq]
      have hopen : (granted { c with calls := 0 } resp).setTimer.ops.shutdown = false :=
        htimer.shutdown.trans hb.opened
      have hnone : (granted { c with calls := 0 } resp).setTimer.calls = 0 := htimer.calls
      refine ⟨⟨?_, ?_, ?_, ?_, ?_, ?_⟩, ?_, ?_⟩
      · intro call hcall
        have hcall' : call ∈ (granted { c with calls := 0 } resp).setTimer.calls := hcall
        rw [hnone] at hcall'
        exact absurd hcall' (Multiset.notMem_zero _)
      · intro _
        exact htimer.kaStream.trans (h.frames _ hmem).2
      · intro hcon
        cases hcon
      · intro hops
        exact absurd (hopen.symm.trans hops) (by simp)
      · intro hops
        exact absurd (hopen.symm.trans hops) (by simp)
      · rintro (hd | hcon)
        · exact absurd ((htimer.destroyed.trans hb.destroyed).symm.trans hd) (by simp)
        · cases hcon
      -- the timer is counted while the two tracers still are
      · have howed := htimer.ops
        simp only [owed, outstanding, hnone, Pool.total_zero] at howed ⊢
        simp only [AsyncOpCounter.asyncOpDone_pending]
        simp only [granted, Pool.total_zero] at howed ⊢
        omega
      · exact htimer.reads
    · simp only [onLeaseGranted, hfut, herase, ne_eq, herr, not_false_eq_true, if_true]
      exact hfails _

/-! ## `revoke()` -/

theorem settled_revoke (h : Orderly c) (hcon : c.constructed = true) (hd : c.destroyed = false) :
    Settled c c.revoke.1 := by
  cases hops : c.ops.shutdown with
  | true =>
    have heq : c.revoke.1 = c := by simp [revoke, hops]
    rw [heq]
    exact ⟨h, rfl, rfl⟩
  | false =>
    rcases cancelTimer_keeps c with ⟨ho, hr, hc, _, _, hcon', hka⟩
    have hd' : c.cancelTimer.destroyed = c.destroyed := by
      unfold cancelTimer
      split <;> rfl
    have howed := owed_cancelTimer c
    have heq : c.revoke.1 =
        { c.cancelTimer with calls := .revoking ::ₘ c.cancelTimer.calls } := by
      simp [revoke, hops]
    rw [heq]
    have hopen : c.cancelTimer.ops.shutdown = false := by
      rw [ho]
      exact hops
    refine ⟨⟨?_, ?_, ?_, ?_, ?_, ?_⟩, ?_, ?_⟩
    · intro call hmem
      have hmem' : call ∈ Call.revoking ::ₘ c.cancelTimer.calls := hmem
      rcases Multiset.mem_cons.mp hmem' with rfl | hold
      · exact hcon'.trans hcon
      · rw [hc] at hold
        refine (h.frames call hold).mono (h.built hcon call hold) ?_ ?_ ?_ ?_
        · intro hc
          exact hcon'.trans hc
        · intro hsh
          exact absurd (hops.symm.trans hsh) (by simp)
        · intro hreads
          show c.cancelTimer.reads.shutdown = true
          rw [hr]
          exact hreads
        · intro hs
          show c.cancelTimer.reads.pending = 0
          rw [hr]
          exact hs.2
    · intro _
      exact hka.trans (h.stream hcon)
    · intro hno
      exact absurd ((hcon'.trans hcon).symm.trans hno) (by simp)
    · intro hsh
      exact absurd (hopen.symm.trans hsh) (by simp)
    · intro hsh
      exact absurd (hopen.symm.trans hsh) (by simp)
    · rintro (hdest | hno)
      · exact absurd ((hd'.trans hd).symm.trans hdest) (by simp)
      · exact absurd ((hcon'.trans hcon).symm.trans hno) (by simp)
    · rw [← howed.1]
      simp [owed, outstanding]
    · rw [← howed.2]
      rfl

/-- How many tracers a step constructs that `ops_` refuses to count. -/
def refused (c : Session) : Act → Nat
  | .revokeLease => c.ops.shutdown.toNat
  | .revokeReadsDrained => c.ops.shutdown.toNat
  | .writesDone ok => (ok && c.ops.shutdown).toNat
  | _ => 0

/-- A tracer is counted, or it is refused. -/
theorem asyncOpStart_pending_or (s : AsyncOpCounter) :
    s.asyncOpStart.pending = s.pending + 1 - s.shutdown.toNat := by
  unfold AsyncOpCounter.asyncOpStart
  cases s.shutdown <;> simp

/-- A counter that is zero and in shutdown stays zero: a tracer is refused. -/
theorem asyncOpStart_pending_zero {s : AsyncOpCounter} (hs : s.shutdown = true)
    (hz : s.pending = 0) : s.asyncOpStart.pending = 0 := by
  rw [asyncOpStart_pending_or, hs, hz]
  rfl

/-- A call goes on with one tracer more, which `ops_` counts or refuses. -/
theorem Orderly.trace (h : Orderly c) {old : Call} (new : Call) (hmem : old ∈ c.calls)
    (hclosing : old.isClosing = false) (hdrain : old.isDrain = false)
    (hw : new.tracers = old.tracers + 1) (hcalls : c'.calls = new ::ₘ c.calls.erase old)
    (hops : c'.ops = c.ops.asyncOpStart) (hpend : c'.pending = c.pending)
    (hreads : c'.reads = c.reads) (hka : c'.kaStream = c.kaStream)
    (hcon : c'.constructed = c.constructed) (hd : c'.destroyed = c.destroyed)
    (hnew : new.Orderly c') :
    Orderly c' ∧ c'.owed = c.owed - c.ops.shutdown.toNat ∧ c'.owedReads = c.owedReads := by
  have htotal := Pool.total_erase Call.tracers hmem
  refine ⟨?_, ?_, ?_⟩
  · refine h.move hmem hclosing hdrain ?_ ?_ hka hcon hd ?_ ?_ ?_ (by rw [hreads])
    · intro call hcall
      rw [hcalls]
      exact Multiset.mem_cons_of_mem hcall
    · intro call hcall
      rw [hcalls] at hcall
      rcases Multiset.mem_cons.mp hcall with rfl | hold
      · exact Or.inr hnew
      · exact Or.inl (Multiset.mem_of_mem_erase hold)
    · rw [hops, AsyncOpCounter.asyncOpStart_shutdown]
    · intro hr
      rw [hreads]
      exact hr
    · intro hs hz
      rw [hops]
      exact asyncOpStart_pending_zero hs hz
  · simp only [owed, outstanding, hcalls, hops, hpend, Pool.total_cons, hw,
      asyncOpStart_pending_or]
    omega
  · rw [owedReads, owedReads, hreads, hpend]

theorem orderly_revokeLease (h : Orderly c) (hmem : .revoking ∈ c.calls) :
    Orderly c.revokeLease ∧ c.revokeLease.owed = c.owed - c.refused .revokeLease ∧
    c.revokeLease.owedReads = c.owedReads := by
  have hcon : c.constructed = true := h.frames _ hmem
  exact h.trace (.leaseRevoke c.leaseId) hmem rfl rfl rfl rfl rfl rfl rfl rfl rfl rfl hcon

/-- A blocked call that has a tracer keeps `ops_` from being drained. -/
theorem zero_of_tracer (howed : 0 ≤ c.owed) {call : Call} (hmem : call ∈ c.calls)
    (hw : 1 ≤ call.tracers) {P : Prop} : c.ops.pending = 0 → P := by
  intro hz
  have hle := tracers_le howed hmem
  omega

/-- A call of `revoke()` ends, and its tracers with it. -/
theorem settled_ends (h : Orderly c) (howed : 0 ≤ c.owed) {old : Call} (hmem : old ∈ c.calls)
    (hclosing : old.isClosing = false) (hdrain : old.isDrain = false) (hw : 1 ≤ old.tracers)
    (hcalls : c'.calls = c.calls.erase old) (hops : c'.ops.pending = c.ops.pending - old.tracers)
    (hshut : c'.ops.shutdown = c.ops.shutdown) (hpend : c'.pending = c.pending)
    (hreads : c'.reads = c.reads) (hka : c'.kaStream = c.kaStream)
    (hcon : c'.constructed = c.constructed) (hd : c'.destroyed = c.destroyed) : Settled c c' := by
  have htotal := Pool.total_erase Call.tracers hmem
  refine ⟨?_, ?_, ?_⟩
  · refine h.move hmem hclosing hdrain ?_ ?_ hka hcon hd hshut ?_
      (fun _ => zero_of_tracer howed hmem hw) (by rw [hreads])
    · intro call hcall
      rwa [hcalls]
    · intro call hcall
      rw [hcalls] at hcall
      exact Or.inl (Multiset.mem_of_mem_erase hcall)
    · intro hr
      rw [hreads]
      exact hr
  · simp only [owed, outstanding, hcalls, hops, hpend]
    omega
  · rw [owedReads, owedReads, hreads, hpend]

theorem settled_onLeaseRevoked (h : Orderly c) (howed : 0 ≤ c.owed) {id : UInt64}
    (hmem : .leaseRevoke id ∈ c.calls) (ok : Bool) (status : Status) :
    Settled c (c.onLeaseRevoked id ok status).1 := by
  have htotal := Pool.total_erase Call.tracers hmem
  simp only [tracers_eq] at htotal
  have hcon : c.constructed = true := h.frames _ hmem
  have hka : c.kaStream = true := h.stream hcon
  simp only [onLeaseRevoked]
  split
  · exact settled_ends h howed hmem rfl rfl le_rfl rfl rfl rfl rfl rfl rfl rfl rfl
  · simp only [hka, if_true]
    refine ⟨?_, ?_, rfl⟩
    · refine h.move hmem rfl rfl ?_ ?_ hka.symm rfl rfl rfl (fun _ => rfl)
        (fun _ => zero_of_tracer howed hmem le_rfl) rfl
      · intro call hcall
        exact Multiset.mem_cons_of_mem hcall
      · intro call hcall
        rcases Multiset.mem_cons.mp hcall with rfl | hold
        · exact Or.inr ⟨hcon, rfl⟩
        · exact Or.inl (Multiset.mem_of_mem_erase hold)
    · simp only [owed, outstanding, AsyncOpCounter.asyncOpDone_pending, Pool.total_cons,
        tracers_eq]
      omega

theorem orderly_onRevokeReads (h : Orderly c) (hmem : .revokeReads ∈ c.calls)
    (hnone : c.reads.pending = 0) :
    Orderly c.onRevokeReads ∧ c.onRevokeReads.owed = c.owed - c.refused .revokeReadsDrained ∧
    c.onRevokeReads.owedReads = c.owedReads := by
  rcases h.frames _ hmem with ⟨hcon, hreads⟩
  exact h.trace .writesDone hmem rfl rfl rfl rfl rfl rfl rfl rfl rfl rfl
    ⟨hcon, hreads, hnone⟩

theorem orderly_onWritesDone (h : Orderly c) (howed : 0 ≤ c.owed) (hmem : .writesDone ∈ c.calls)
    (ok : Bool) :
    Orderly (c.onWritesDone ok).1 ∧
    (c.onWritesDone ok).1.owed = c.owed - c.refused (.writesDone ok) ∧
    (c.onWritesDone ok).1.owedReads = c.owedReads := by
  cases ok with
  | false =>
    have hset : Settled c (c.onWritesDone false).1 :=
      settled_ends h howed hmem rfl rfl le_rfl rfl rfl rfl rfl rfl rfl rfl rfl
    exact ⟨hset.orderly, hset.ops.trans (Int.sub_zero _).symm, hset.reads⟩
  | true =>
    exact h.trace .finish hmem rfl rfl rfl rfl rfl rfl rfl rfl rfl rfl (h.frames _ hmem)

theorem settled_onFinished (h : Orderly c) (howed : 0 ≤ c.owed) (hmem : .finish ∈ c.calls)
    (ok : Bool) (status : Status) : Settled c (c.onFinished ok status).1 := by
  have hends : Settled c { c with
      ops := c.ops.asyncOpDone.asyncOpDone
      calls := c.calls.erase .finish } := by
    refine settled_ends h howed hmem rfl rfl (by decide) rfl ?_ rfl rfl rfl rfl rfl rfl
    show c.ops.pending - 1 - 1 = c.ops.pending - 2
    omega
  have hsub : ∀ call ∈ c.calls.erase .finish, call ∈ c.calls := fun call =>
    Multiset.mem_of_mem_erase
  have hsealed : Sealed c := (h.frames _ hmem).2
  simp only [onFinished]
  split
  · exact hends
  · split
    · exact hends
    · rcases drainOps_cases { c with
          ops := c.ops.asyncOpDone.asyncOpDone
          calls := c.calls.erase .finish } with ⟨hzero, heq⟩ | ⟨_, heq⟩
      · rw [heq]
        refine ⟨?_, hends.ops, rfl⟩
        exact h.drain hmem rfl (Or.inr hzero) (fun call hcall => Or.inl (hsub call hcall))
          rfl rfl rfl rfl rfl hsealed
      · rw [heq]
        refine ⟨?_, ?_, rfl⟩
        · refine h.drain hmem rfl (Or.inl ⟨.revokeOps, Multiset.mem_cons_self _ _, rfl⟩) ?_
            rfl rfl rfl rfl rfl hsealed
          intro call hcall
          rcases Multiset.mem_cons.mp hcall with rfl | hold
          · exact Or.inr rfl
          · exact Or.inl (hsub call hold)
        · rw [← hends.ops]
          simp [owed, outstanding]

/-! ## Steps other than completions -/

theorem settled_onShutdownReads (h : Orderly c) {exn : Option Exn}
    (hmem : .shutdownReads exn ∈ c.calls) (hnone : c.reads.pending = 0) :
    Settled c (c.onShutdownReads exn) := by
  have htotal := Pool.total_erase Call.tracers hmem
  simp only [tracers_eq] at htotal
  refine ⟨?_, ?_, rfl⟩
  · refine h.drain hmem rfl (Or.inl ⟨.shutdownOps exn, Multiset.mem_cons_self _ _, rfl⟩) ?_
      rfl rfl rfl rfl rfl ⟨h.frames _ hmem, hnone⟩
    intro call hcall
    have hcall' : call ∈ Call.shutdownOps exn ::ₘ c.calls.erase (.shutdownReads exn) := hcall
    rcases Multiset.mem_cons.mp hcall' with rfl | hold
    · exact Or.inr rfl
    · exact Or.inl (Multiset.mem_of_mem_erase hold)
  · simp only [owed, outstanding, onShutdownReads, AsyncOpCounter.setShutdown_pending,
      Pool.total_cons, tracers_eq]
    omega

/-- A call has waited for `ops_`. -/
theorem settled_drained (h : Orderly c) {call : Call} (hmem : call ∈ c.calls)
    (hdrain : call.isDrain = true) (hzero : c.ops.pending = 0) :
    Settled c { c with calls := c.calls.erase call } := by
  have hw : call.tracers = 0 := by cases call <;> first | rfl | cases hdrain
  have hpre : call.isPreamble = false := by cases call <;> first | rfl | cases hdrain
  have hcl : call.isClosing = false := by cases call <;> first | rfl | cases hdrain
  have htotal := Pool.total_erase Call.tracers hmem
  refine ⟨⟨?_, h.stream, h.fresh, h.closed, fun _ => Or.inr hzero, ?_⟩, ?_, rfl⟩
  · intro call' hcall
    have hold : call' ∈ c.calls := Multiset.mem_of_mem_erase hcall
    exact (h.frames call' hold).mono (h.other hmem hpre call' hold) (fun hc => hc) (fun ho => ho)
      (fun hr => hr) (fun hs => hs.2)
  · intro hc
    rcases h.closing hc with ho | ⟨call', hcall, hc'⟩
    · exact Or.inl ho
    · right
      refine ⟨call', (Multiset.mem_erase_of_ne ?_).mpr hcall, hc'⟩
      rintro rfl
      exact absurd (hcl.symm.trans hc') (by simp)
  · simp only [owed, outstanding]
    omega

theorem settled_timerFires (h : Orderly c) {id : Nat} {delay : Int}
    (hmem : .timer id delay .armed ∈ c.pending) : Settled c (c.timerFires id delay) := by
  have htotal := Pool.total_erase Op.inOps hmem
  have hread := reading_erase hmem
  refine ⟨h.congr rfl rfl rfl rfl rfl rfl (fun _ hz => hz) (fun hs => hs.2), ?_, ?_⟩
  · simp only [Op.inOps] at htotal
    simp only [owed, outstanding, timerFires, Pool.total_cons, Op.inOps]
    omega
  · simp only [Op.isRead, Bool.toNat_false, Nat.add_zero] at hread
    simp only [owedReads, timerFires]
    rw [reading_cons rfl]
    omega

/-- Every step other than a completion leaves alone what is owed, except for the tracers
that it has refused. -/
theorem orderly_act (h : Orderly c) (howed : 0 ≤ c.owed) (ha : ∀ k, a ≠ .complete k)
    (hact : c.act a = some (c', o)) :
    Orderly c' ∧ c'.owed = c.owed - c.refused a ∧ c'.owedReads = c.owedReads := by
  have hset : ∀ {d : Session} {b : Act}, c.refused b = 0 → Settled c d →
      Orderly d ∧ d.owed = c.owed - c.refused b ∧ d.owedReads = c.owedReads := by
    intro d b hb hd
    rw [hb]
    exact ⟨hd.orderly, by rw [hd.ops]; simp, hd.reads⟩
  cases a with
  | streamCreated ok =>
    obtain ⟨hmem, rfl⟩ := of_guard hact
    exact hset rfl (settled_onStreamCreated h hmem ok)
  | leaseGranted req ok status resp =>
    obtain ⟨hmem, rfl⟩ := of_guard hact
    exact hset rfl (settled_onLeaseGranted h hmem ok status resp)
  | revoke =>
    obtain ⟨hcond, rfl⟩ := of_guard hact
    exact hset rfl (settled_revoke h hcond.1 hcond.2)
  | revokeLease =>
    obtain ⟨hmem, rfl⟩ := of_guard hact
    exact orderly_revokeLease h hmem
  | leaseRevoked id ok status =>
    obtain ⟨hmem, rfl⟩ := of_guard hact
    exact hset rfl (settled_onLeaseRevoked h howed hmem ok status)
  | revokeReadsDrained =>
    rcases act_revokeReadsDrained hact with ⟨hmem, hnone, rfl⟩
    exact orderly_onRevokeReads h hmem hnone
  | writesDone ok =>
    obtain ⟨hmem, rfl⟩ := of_guard hact
    exact orderly_onWritesDone h howed hmem ok
  | finished ok status =>
    obtain ⟨hmem, rfl⟩ := of_guard hact
    exact hset rfl (settled_onFinished h howed hmem ok status)
  | revokeOpsDrained =>
    obtain ⟨hcond, rfl⟩ := of_guard hact
    exact hset rfl (settled_drained h hcond.1 rfl hcond.2)
  | destroy =>
    obtain ⟨hcond, heq⟩ := of_guard hact
    rcases hcond with ⟨hcon, hd, hcalls⟩
    rw [heq]
    refine hset rfl ?_
    cases hops : c.ops.shutdown with
    | true =>
      have heq : (shutdown { c with destroyed := true } none).1 = { c with destroyed := true } := by
        simp [shutdown, hops]
      rw [heq]
      refine ⟨⟨?_, h.stream, ?_, h.closed, h.drained, fun _ => Or.inl hops⟩, rfl, rfl⟩
      · intro call hmem
        have hmem' : call ∈ c.calls := hmem
        rw [hcalls] at hmem'
        exact absurd hmem' (Multiset.notMem_zero _)
      · intro hno
        exact absurd (hcon.symm.trans hno) (by simp)
    | false =>
      have hset' := settled_shutdown (c := { c with destroyed := true }) none hcalls hops h.stream
        (fun hno => absurd (hcon.symm.trans hno) (by simp))
      exact ⟨hset'.orderly, hset'.ops, hset'.reads⟩
  | shutdownReadsDrained exn =>
    obtain ⟨hcond, rfl⟩ := of_guard hact
    exact hset rfl (settled_onShutdownReads h hcond.1 hcond.2)
  | shutdownOpsDrained exn =>
    obtain ⟨hcond, rfl⟩ := of_guard hact
    exact hset rfl (settled_drained h hcond.1 rfl hcond.2)
  | timerFires id delay =>
    obtain ⟨hmem, rfl⟩ := of_guard hact
    exact hset rfl (settled_timerFires h hmem)
  | complete k => exact absurd rfl (ha k)

/-! ## Whole runs -/

/-- The counters count what is outstanding, and nothing else. -/
def Exact (c : Session) : Prop :=
  c.ops.pending = c.outstanding ∧ c.reads.pending = reading c.pending

theorem exact_iff : c.Exact ↔ c.owed = 0 ∧ c.owedReads = 0 := by
  unfold Exact owed owedReads
  omega

/-- No tracer is constructed that `ops_` refuses to count. -/
def Traced (c : Session) (a : Act) : Prop := c.refused a = 0

instance (c : Session) (a : Act) : Decidable (c.Traced a) := inferInstanceAs (Decidable (_ = _))

/-- The counters are exact, and the calls in order. -/
structure Accounted (c : Session) : Prop where
  orderly : Orderly c
  exact : c.Exact

/-- What a step makes of exact counters. -/
theorem Accounted.act (h : Accounted c) (hact : c.act a = some (c', o)) :
    Orderly c' ∧ (c'.Exact ↔ c.Traced a) := by
  rcases exact_iff.mp h.exact with ⟨hops, hreads⟩
  by_cases ha : ∃ k, a = .complete k
  · rcases ha with ⟨k, rfl⟩
    rcases act_complete hact with ⟨hmem, _, rfl⟩
    have henter := owed_enter hmem
    have hhandle := owed_handle hmem
    refine ⟨?_, ?_⟩
    · refine (balanced_body _ k).orderly ((h.orderly.enter k).asyncOpDone ?_ ?_)
      · omega
      · omega
    · rw [exact_iff]
      exact ⟨fun _ => rfl, fun _ => ⟨hhandle.1.trans hops, hhandle.2.trans hreads⟩⟩
  · rcases orderly_act h.orderly hops.ge (fun k hk => ha ⟨k, hk⟩) hact with ⟨ho, hops', hreads'⟩
    refine ⟨ho, ?_⟩
    rw [exact_iff, hops', hreads', Traced]
    omega

theorem Accounted.step (h : Accounted c) (htr : c.Traced a) (hact : c.act a = some (c', o)) :
    Accounted c' := by
  rcases h.act hact with ⟨ho, hexact⟩
  exact ⟨ho, hexact.mpr htr⟩

theorem reachable_accounted (h : machine.Reachable Traced c) : Accounted c := by
  refine h.invariant ?_ ?_
  · rintro _ ⟨desiredTtl, leaseId, rfl⟩
    exact ⟨init_orderly desiredTtl leaseId, rfl, rfl⟩
  · intro c a c' ih htr hstep
    rcases Option.map_eq_some_iff.mp hstep with ⟨⟨d, o⟩, hact, rfl⟩
    exact ih.step htr hact

/-- Nothing is outstanding. -/
def Idle (c : Session) : Prop := c.outstanding = 0 ∧ reading c.pending = 0

instance (c : Session) : Decidable c.Idle := inferInstanceAs (Decidable (_ ∧ _))

theorem Idle.pending (h : Idle c) : c.pending = 0 := by
  rcases h with ⟨hout, hread⟩
  unfold outstanding at hout
  exact pending_eq_zero (by omega) hread

theorem Idle.tracers (h : Idle c) {call : Call} (hmem : call ∈ c.calls) : call.tracers = 0 := by
  have hzero : Pool.total Call.tracers c.calls = 0 := by
    have hout := h.1
    unfold outstanding at hout
    omega
  exact (Pool.total_eq_zero Call.tracers).mp hzero call hmem

/-- A call has waited for `ops_`: it is in shutdown, and nothing is outstanding. -/
structure Drained (c : Session) : Prop extends Accounted c where
  shutdown : c.ops.shutdown = true
  idle : Idle c

/-- Then nothing is started any more. -/
theorem Drained.step (h : Drained c) (htr : c.Traced a) (hact : c.act a = some (c', o)) :
    Drained c' := by
  have hacc := h.toAccounted.step htr hact
  have hpend := h.idle.pending
  have hsame : ∀ {d : Session}, Accounted d → d.ops.shutdown = true → d.pending = c.pending →
      d.ops.pending = c.ops.pending → Drained d := by
    intro d hd hops hp hcount
    have hzero : c.ops.pending = 0 := by
      rw [h.exact.1, h.idle.1]
      rfl
    refine ⟨hd, hops, ?_, ?_⟩
    · have hexact := hd.exact.1
      omega
    · rw [hp]
      exact h.idle.2
  have hno : ∀ {call : Call}, call ∈ c.calls → 1 ≤ call.tracers → False := by
    intro call hmem hw
    have hzero := h.idle.tracers hmem
    omega
  cases a with
  | streamCreated ok =>
    obtain ⟨hmem, -⟩ := of_guard hact
    exact (hno hmem (by decide)).elim
  | leaseGranted req ok status resp =>
    obtain ⟨hmem, -⟩ := of_guard hact
    exact (hno hmem (by simp)).elim
  | revoke =>
    obtain ⟨-, rfl⟩ := of_guard hact
    simp only [revoke, h.shutdown, if_true]
    exact h
  | revokeLease =>
    -- the tracer of LeaseRevoke would be refused
    simp [Traced, refused, h.shutdown] at htr
  | leaseRevoked id ok status =>
    obtain ⟨hmem, -⟩ := of_guard hact
    exact (hno hmem (by simp)).elim
  | revokeReadsDrained =>
    -- the tracer of WritesDone would be refused
    simp [Traced, refused, h.shutdown] at htr
  | writesDone ok =>
    obtain ⟨hmem, -⟩ := of_guard hact
    exact (hno hmem (by decide)).elim
  | finished ok status =>
    obtain ⟨hmem, -⟩ := of_guard hact
    exact (hno hmem (by decide)).elim
  | revokeOpsDrained =>
    obtain ⟨-, rfl⟩ := of_guard hact
    exact hsame hacc h.shutdown rfl rfl
  | destroy =>
    obtain ⟨-, rfl⟩ := of_guard hact
    simp only [Session.shutdown, h.shutdown, if_true] at hacc ⊢
    exact hsame hacc h.shutdown rfl rfl
  | shutdownReadsDrained exn =>
    obtain ⟨-, rfl⟩ := of_guard hact
    exact hsame hacc rfl rfl rfl
  | shutdownOpsDrained exn =>
    obtain ⟨-, rfl⟩ := of_guard hact
    exact hsame hacc h.shutdown rfl rfl
  | timerFires id delay => simp [act, hpend] at hact
  | complete k => simp [act, hpend] at hact

/-- A step that ends with `o` is one with which a call returns that has waited for `ops_`; the
wait of `revoke()` may be over as soon as it begins. -/
def Act.returns : Act → Outcome → Bool
  | .leaseRevoked _ _ _, o => decide (o = .returned)
  | .finished _ _, o => decide (o = .returned)
  | .revokeOpsDrained, _ => true
  | .shutdownOpsDrained _, _ => true
  | _, _ => false

/-- Where the last wait of `revoke()` is over at once, `ops_` is in shutdown and zero. -/
theorem drainOps_returned (h : c.drainOps.2 = .returned) :
    c.drainOps.1.ops.shutdown = true ∧ c.drainOps.1.ops.pending = 0 := by
  rcases c.drainOps_cases with ⟨hzero, heq⟩ | ⟨_, heq⟩
  · rw [heq]
    exact ⟨rfl, hzero⟩
  · rw [heq] at h
    cases h

/-- A call that has waited for `ops_` leaves nothing behind. -/
theorem Accounted.drained (h : Accounted c) (ha : a.returns o = true)
    (hact : c.act a = some (c', o)) : Drained c' := by
  have htr : c.Traced a := by cases a <;> first | rfl | cases ha
  have hacc := h.step htr hact
  have hframe : ∀ {call : Call}, call ∈ c.calls → call.isDrain = true → c.ops.shutdown = true := by
    intro call hmem hdrain
    have horder := h.orderly.frames call hmem
    cases call <;> first | exact horder | cases hdrain
  have hend : c'.ops.shutdown = true ∧ c'.ops.pending = 0 := by
    cases a with
    | leaseRevoked id ok status =>
      obtain ⟨hmem, rfl⟩ := of_guard hact
      -- the stream is there, and is closed first
      have hka : c.kaStream = true := h.orderly.stream (h.orderly.frames _ hmem)
      have hret : (c.onLeaseRevoked id ok status).2 = .returned :=
        (outcome_of_guard hact).symm.trans (of_decide_eq_true ha)
      simp only [onLeaseRevoked, hka, if_true] at hret
      split at hret <;> cases hret
    | finished ok status =>
      obtain ⟨hmem, rfl⟩ := of_guard hact
      have hret : (c.onFinished ok status).2 = .returned :=
        (outcome_of_guard hact).symm.trans (of_decide_eq_true ha)
      simp only [onFinished] at hret ⊢
      split at hret
      · cases hret
      · split at hret
        · cases hret
        · rename_i hok hst
          rw [if_neg hok, if_neg hst]
          exact drainOps_returned hret
    | revokeOpsDrained =>
      obtain ⟨hcond, rfl⟩ := of_guard hact
      exact ⟨hframe hcond.1 rfl, hcond.2⟩
    | shutdownOpsDrained exn =>
      obtain ⟨hcond, rfl⟩ := of_guard hact
      exact ⟨hframe hcond.1 rfl, hcond.2⟩
    | _ => cases ha
  have hsealed := hacc.orderly.closed hend.1
  refine ⟨hacc, hend.1, ?_, ?_⟩
  · have hexact := hacc.exact.1
    omega
  · have hexact := hacc.exact.2
    have hzero := hsealed.2
    omega

theorem Drained.run (h : Drained c) (hrun : machine.Run Traced c c') : Drained c' := by
  refine hrun.invariant ?_ h
  intro c a c' ih htr hstep
  rcases Option.map_eq_some_iff.mp hstep with ⟨⟨d, o⟩, hact, rfl⟩
  exact ih.step htr hact

/-- In runs in which no tracer is refused the counters are exact. `shutdown()` does not block
when nothing is outstanding, and when a call returns that has waited for `ops_`, nothing is
outstanding then or later. -/
theorem accounted_traced (h : machine.Reachable Traced c) :
    c.Exact ∧
    (c.Idle → ∀ exn,
      (.shutdownReads exn ∈ c.calls → (machine.step c (.shutdownReadsDrained exn)).isSome) ∧
      (.shutdownOps exn ∈ c.calls → (machine.step c (.shutdownOpsDrained exn)).isSome)) ∧
    ∀ a c' o, a.returns o = true → c.act a = some (c', o) →
      ∀ d, machine.Run Traced c' d → d.Idle := by
  have hacc := reachable_accounted h
  refine ⟨hacc.exact, ?_, ?_⟩
  · rintro ⟨hout, hread⟩ exn
    have hops : c.ops.pending = 0 := by
      rw [hacc.exact.1, hout]
      rfl
    have hreads : c.reads.pending = 0 := by
      rw [hacc.exact.2, hread]
      rfl
    constructor
    · intro hmem
      show ((c.act (.shutdownReadsDrained exn)).map Prod.fst).isSome = true
      simp [act, hmem, hreads]
    · intro hmem
      show ((c.act (.shutdownOpsDrained exn)).map Prod.fst).isSome = true
      simp [act, hmem, hops]
  · intro a c' o ha hact d hrun
    exact ((hacc.drained ha hact).run hrun).idle

end GeeH.Session
