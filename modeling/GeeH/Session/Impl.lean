import GeeH.AsyncOps
import GeeH.Rules
import Mathlib.Data.Multiset.AddSub
import Mathlib.Data.Multiset.MapFold

/-!
# GeeH.Session.Impl — `gh/detail/session_impl.hpp`

The state of a `session_impl`, its constructor, `revoke()` and the destructor,
the keep-alive cycle (a timer, a Write, a Read, the next timer), and the machine
they form with a completion queue that delivers anything.

`pending` holds the operations whose completion calls a handler of the object,
`calls` the calls of the application that are blocked somewhere. TTLs are
milliseconds in the object, as `std::chrono` has them, and seconds on the wire.
-/

namespace GeeH.Session

/-- A `grpc::Alarm`. Cancelling one that has fired already has no effect. -/
inductive TimerState where
  | armed | fired | canceled
deriving DecidableEq, Repr

/-- The operations posted with a completion handler. -/
inductive Op where
  /-- `session/set_timer/ttl_refresh`, with the delay it was set to. -/
  | timer (id : Nat) (delay : Int) (state : TimerState)
  /-- `session/on_timeout/write`, with the id of the lease. -/
  | write (leaseId : UInt64)
  /-- `session/on_write/read`. -/
  | read
deriving DecidableEq

/-- `etcdserverpb::LeaseGrantRequest`. -/
structure LeaseGrantRequest where
  ttl : Int
  id : UInt64
deriving DecidableEq, Repr

/-- `etcdserverpb::LeaseGrantResponse`. -/
structure LeaseGrantResponse where
  id : UInt64 := 0
  ttl : Int := 0
  error : Bytes := []
deriving DecidableEq, Repr

/-- Where a call of the application is blocked. -/
inductive Call where
  /-- `preamble()`: the creation of the KeepAlive stream. -/
  | createStream
  /-- `preamble()`: `LeaseGrant`. -/
  | leaseGrant (request : LeaseGrantRequest)
  /-- `revoke()`: between the cancellation of the timer and `LeaseRevoke`. -/
  | revoking
  /-- `revoke()`: `LeaseRevoke`. -/
  | leaseRevoke (leaseId : UInt64)
  /-- `revoke()`: `reads_.block_until_all_done()`. -/
  | revokeReads
  /-- `revoke()`: `WritesDone`. -/
  | writesDone
  /-- `revoke()`: `Finish`. -/
  | finish
  /-- `revoke()`: `ops_.block_until_all_done()`. -/
  | revokeOps
  /-- `shutdown()`: `reads_.block_until_all_done()`, with what `preamble()` rethrows. -/
  | shutdownReads (exn : Option Exn)
  /-- `shutdown()`: `ops_.block_until_all_done()`, with what `preamble()` rethrows. -/
  | shutdownOps (exn : Option Exn)
deriving DecidableEq

/-- What is issued on the KeepAlive stream. -/
inductive StreamOp where
  | write (leaseId : UInt64)
  | read
  | writesDone
  | finish
  | tryCancel
deriving DecidableEq

/-- `keep_alives_per_ttl`. -/
def keepAlivesPerTtl : Int := 5

end GeeH.Session

namespace GeeH

open Session

/-- `session_impl`. -/
structure Session where
  leaseId : UInt64
  desiredTtl : Int
  actualTtl : Int
  /-- Whether `ka_stream_` is set. -/
  kaStream : Bool := false
  /-- `current_timer_`; it stays set when the timer expires. -/
  currentTimer : Option Nat := none
  ops : AsyncOpCounter := {}
  reads : AsyncOpCounter := {}
  /-- How many timers were made; they are known by their number. -/
  timers : Nat := 0
  pending : Multiset Op := 0
  calls : Multiset Call := 0
  /-- Ghost: what was issued on the stream. -/
  stream : List StreamOp := []
  /-- Ghost: the last TTL that the server sent, in seconds. -/
  lastTtl : Option Int := none
  /-- Ghost: the constructor has returned. -/
  constructed : Bool := false
  /-- Ghost: the destructor has been entered. -/
  destroyed : Bool := false
deriving DecidableEq

namespace Session

variable (c : Session)

/-- `is_active()`. -/
def isActive : Bool := c.currentTimer.isSome && !c.ops.shutdown

/-! ## The timer -/

/-- `set_timer()`. -/
def setTimer : Session :=
  if c.ops.shutdown then c
  else
    { c with
      ops := c.ops.asyncOpStart
      timers := c.timers + 1
      currentTimer := some c.timers
      pending := .timer c.timers (c.actualTtl.tdiv keepAlivesPerTtl) .armed ::ₘ c.pending }

/-- What `deadline_timer::cancel()` does to an operation. -/
def Op.cancel (id : Nat) : Op → Op
  | .timer i delay .armed => if i = id then .timer i delay .canceled else .timer i delay .armed
  | op => op

/-- Cancel the outstanding timer, if any. -/
def cancelTimer : Session :=
  match c.currentTimer with
  | none => c
  | some id => { c with pending := c.pending.map (Op.cancel id), currentTimer := none }

/-! ## `shutdown()` -/

/-- How a call ends that has an exception to rethrow, or none. -/
def ending : Option Exn → Outcome
  | none => .returned
  | some e => .threw e

/-- `shutdown()`, up to `reads_.block_until_all_done()`. -/
def shutdown (exn : Option Exn) : Session × Outcome :=
  if c.ops.shutdown then (c, ending exn)
  else
    let c := c.cancelTimer
    ({ c with
      stream := if c.kaStream then c.stream ++ [.tryCancel] else c.stream
      reads := c.reads.setShutdown
      calls := .shutdownReads exn ::ₘ c.calls }, .running)

/-- `shutdown()`: the reads are drained. -/
def onShutdownReads (exn : Option Exn) : Session :=
  { c with
    ops := c.ops.setShutdown
    calls := .shutdownOps exn ::ₘ c.calls.erase (.shutdownReads exn) }

/-- `shutdown()`: the other operations are drained. -/
def onShutdownOps (exn : Option Exn) : Session × Outcome :=
  ({ c with calls := c.calls.erase (.shutdownOps exn) }, ending exn)

/-! ## The constructor -/

/-- The request for the lease; the TTL is in seconds. -/
def grantRequest : LeaseGrantRequest where
  ttl := c.desiredTtl.tdiv 1000
  id := c.leaseId

/-- `preamble()`: the stream was created, or that failed. -/
def onStreamCreated (ok : Bool) : Session × Outcome :=
  let c := { c with calls := c.calls.erase .createStream }
  if !ok then
    { c with ops := c.ops.asyncOpDone }.shutdown (some (.runtimeError
      "async create_rdwr_stream cancelled for session/ka_stream"))
  else
    ({ c with
      kaStream := true
      ops := c.ops.asyncOpStart
      calls := .leaseGrant c.grantRequest ::ₘ c.calls }, .running)

/-- `preamble()`, up to `set_timer()`: the lease was granted. -/
def granted (resp : LeaseGrantResponse) : Session :=
  { c with
    leaseId := resp.id
    actualTtl := resp.ttl * 1000
    lastTtl := some resp.ttl }

/-- `preamble()`: LeaseGrant completed. At the end, and before `shutdown()` when
something failed, the two tracers are destroyed. -/
def onLeaseGranted (request : LeaseGrantRequest) (ok : Bool) (status : Status)
    (resp : LeaseGrantResponse) : Session × Outcome :=
  let c := { c with calls := c.calls.erase (.leaseGrant request) }
  match futureError "async rpc cancelled" "session/preamble/lease_grant" ok status with
  | some e => { c with ops := c.ops.asyncOpDone.asyncOpDone }.shutdown (some e)
  | none =>
    if resp.error ≠ [] then
      { c with ops := c.ops.asyncOpDone.asyncOpDone }.shutdown
        (some (.leaseRejected "Lease grant request rejected lease_id=" c.leaseId resp.error))
    else
      let c := (c.granted resp).setTimer
      ({ c with ops := c.ops.asyncOpDone.asyncOpDone, constructed := true }, .returned)

/-! ## `revoke()` -/

/-- `revoke()`: the test of `in_shutdown()`, and the cancellation of the timer. -/
def revoke : Session × Outcome :=
  if c.ops.shutdown then (c, .returned)
  else
    let c := c.cancelTimer
    ({ c with calls := .revoking ::ₘ c.calls }, .running)

/-- `revoke()`: the tracer of LeaseRevoke, and LeaseRevoke. Another `revoke()` may have shut `ops_`
down since the test. -/
def revokeLease : Session :=
  { c with
    ops := c.ops.asyncOpStart
    calls := .leaseRevoke c.leaseId ::ₘ c.calls.erase .revoking }

/-- `revoke()`: wait for everything that is left. Where that is nothing, the wait is over under the
same lock. -/
def drainOps : Session × Outcome :=
  let c := { c with ops := c.ops.setShutdown }
  if c.ops.pending = 0 then (c, .returned)
  else ({ c with calls := .revokeOps ::ₘ c.calls }, .running)

/-- `revoke()`: LeaseRevoke completed. -/
def onLeaseRevoked (leaseId : UInt64) (ok : Bool) (status : Status) : Session × Outcome :=
  let c := { c with ops := c.ops.asyncOpDone, calls := c.calls.erase (.leaseRevoke leaseId) }
  match futureError "async rpc cancelled" "session/revoke/lease_revoke" ok status with
  | some e => (c, .threw e)
  | none =>
    -- the keep-alive stream is closed once its reads are drained
    if c.kaStream then
      ({ c with reads := c.reads.setShutdown, calls := .revokeReads ::ₘ c.calls }, .running)
    else c.drainOps

/-- `revoke()`: the reads are drained, and WritesDone is issued. -/
def onRevokeReads : Session :=
  { c with
    ops := c.ops.asyncOpStart
    stream := c.stream ++ [.writesDone]
    calls := .writesDone ::ₘ c.calls.erase .revokeReads }

/-- `revoke()`: WritesDone completed, and Finish is issued. -/
def onWritesDone (ok : Bool) : Session × Outcome :=
  let c := { c with calls := c.calls.erase .writesDone }
  if !ok then
    ({ c with ops := c.ops.asyncOpDone }, .threw (.runtimeError "async writes done cancelled"))
  else
    ({ c with
      ops := c.ops.asyncOpStart
      stream := c.stream ++ [.finish]
      calls := .finish ::ₘ c.calls }, .running)

/-- `revoke()`: Finish completed; both tracers are destroyed. -/
def onFinished (ok : Bool) (status : Status) : Session × Outcome :=
  let c := { c with
    ops := c.ops.asyncOpDone.asyncOpDone
    calls := c.calls.erase .finish }
  if !ok then (c, .threw (.runtimeError "async finished cancelled"))
  else if !status.ok then (c, .threw (.grpcError "session::finish()" status))
  else c.drainOps

/-! ## Completion handlers -/

/-- A completion that calls a handler of the object. -/
inductive Completion where
  | timer (id : Nat) (delay : Int) (state : TimerState) (ok : Bool)
  | write (leaseId : UInt64) (ok : Bool)
  /-- With the TTL of the response. -/
  | read (ok : Bool) (ttl : Int)
deriving DecidableEq

/-- The operation that completed. -/
def Completion.op : Completion → Op
  | .timer id delay state _ => .timer id delay state
  | .write leaseId _ => .write leaseId
  | .read _ _ => .read

/-- `on_timeout()`. -/
def onTimeout (ok : Bool) : Session :=
  -- canceled, or too late: the cycle ends here
  if !ok || c.ops.shutdown then c
  else
    { c with
      ops := c.ops.asyncOpStart
      stream := c.stream ++ [.write c.leaseId]
      pending := .write c.leaseId ::ₘ c.pending }

/-- `on_write()`. -/
def onWrite (ok : Bool) : Session :=
  if !ok || c.reads.shutdown then c
  else
    { c with
      reads := c.reads.asyncOpStart
      stream := c.stream ++ [.read]
      pending := .read ::ₘ c.pending }

/-- `on_read()`. -/
def onRead (ok : Bool) (ttl : Int) : Session :=
  if !ok then c else { c with actualTtl := ttl * 1000, lastTtl := some ttl }.setTimer

/-- The completion queue takes the operation out of its table and calls the handler. -/
def enter (k : Completion) : Session := { c with pending := c.pending.erase k.op }

/-- The `async_op_done` with which every handler starts. -/
def asyncOpDone : Completion → Session
  | .read _ _ => { c with reads := c.reads.asyncOpDone }
  | _ => { c with ops := c.ops.asyncOpDone }

/-- The body of a handler, after its `async_op_done`. -/
def body : Completion → Session
  | .timer _ _ _ ok => c.onTimeout ok
  | .write _ ok => c.onWrite ok
  | .read ok ttl => c.onRead ok ttl

/-- A completion handler, run to its end. -/
def handle (k : Completion) : Session := ((c.enter k).asyncOpDone k).body k

/-- A timer is ok if it expired, and it is not if it was canceled before. -/
def Completion.WellFormed : Completion → Prop
  | .timer _ _ state ok => if ok then state ≠ .canceled else state ≠ .fired
  | _ => True

instance : DecidablePred Completion.WellFormed
  | .timer _ _ _ ok => by
    unfold Completion.WellFormed
    cases ok <;> infer_instance
  | .write _ _ | .read _ _ => inferInstanceAs (Decidable True)

/-! ## The machine -/

/-- What can happen to a session. -/
inductive Act where
  | streamCreated (ok : Bool)
  | leaseGranted (request : LeaseGrantRequest) (ok : Bool) (status : Status)
      (response : LeaseGrantResponse)
  | revoke
  | revokeLease
  | leaseRevoked (leaseId : UInt64) (ok : Bool) (status : Status)
  | revokeReadsDrained
  | writesDone (ok : Bool)
  | finished (ok : Bool) (status : Status)
  | revokeOpsDrained
  | destroy
  | shutdownReadsDrained (exn : Option Exn)
  | shutdownOpsDrained (exn : Option Exn)
  /-- The deadline of a timer passes. -/
  | timerFires (id : Nat) (delay : Int)
  | complete (k : Completion)
deriving DecidableEq

/-- The alarm expires, and its completion is on its way. -/
def timerFires (id : Nat) (delay : Int) : Session :=
  { c with pending := .timer id delay .fired ::ₘ c.pending.erase (.timer id delay .armed) }

/-- One step of a session. `revoke()` needs an object that is constructed and not being
destroyed, the destructor an object on which no call is running. -/
def act : Act → Option (Session × Outcome)
  | .streamCreated ok => if .createStream ∈ c.calls then some (c.onStreamCreated ok) else none
  | .leaseGranted request ok status response =>
    if .leaseGrant request ∈ c.calls then some (c.onLeaseGranted request ok status response)
    else none
  | .revoke => if c.constructed = true ∧ c.destroyed = false then some c.revoke else none
  | .revokeLease => if .revoking ∈ c.calls then some (c.revokeLease, .running) else none
  | .leaseRevoked leaseId ok status =>
    if .leaseRevoke leaseId ∈ c.calls then some (c.onLeaseRevoked leaseId ok status) else none
  | .revokeReadsDrained =>
    if .revokeReads ∈ c.calls ∧ c.reads.pending = 0 then some (c.onRevokeReads, .running)
    else none
  | .writesDone ok => if .writesDone ∈ c.calls then some (c.onWritesDone ok) else none
  | .finished ok status => if .finish ∈ c.calls then some (c.onFinished ok status) else none
  | .revokeOpsDrained =>
    if .revokeOps ∈ c.calls ∧ c.ops.pending = 0 then
      some ({ c with calls := c.calls.erase .revokeOps }, .returned)
    else none
  | .destroy =>
    if c.constructed = true ∧ c.destroyed = false ∧ c.calls = 0 then
      some ({ c with destroyed := true }.shutdown none)
    else none
  | .shutdownReadsDrained exn =>
    if .shutdownReads exn ∈ c.calls ∧ c.reads.pending = 0 then
      some (c.onShutdownReads exn, .running)
    else none
  | .shutdownOpsDrained exn =>
    if .shutdownOps exn ∈ c.calls ∧ c.ops.pending = 0 then some (c.onShutdownOps exn) else none
  | .timerFires id delay =>
    if .timer id delay .armed ∈ c.pending then some (c.timerFires id delay, .running) else none
  | .complete k =>
    if k.op ∈ c.pending ∧ k.WellFormed then some (c.handle k, .returned) else none

/-- The constructor, up to the creation of the KeepAlive stream. -/
def init (desiredTtl : Int) (leaseId : UInt64) : Session where
  leaseId := leaseId
  desiredTtl := desiredTtl
  actualTtl := desiredTtl
  ops := AsyncOpCounter.asyncOpStart {}
  calls := {.createStream}

/-- The session under a completion queue that delivers anything. -/
def machine : Machine Session Act where
  Init c := ∃ desiredTtl leaseId, c = init desiredTtl leaseId
  step c a := (c.act a).map Prod.fst

end Session

end GeeH
