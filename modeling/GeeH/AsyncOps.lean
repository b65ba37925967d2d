import GeeH.Bytes

/-!
# GeeH.AsyncOps — what the asynchronous classes share

The operation counter of `gh/detail/async_op_counter.hpp`, the statuses gRPC
reports and the exceptions they become (`gh/detail/grpc_errors.hpp`), and
`std::promise<bool>`.

A completion handler runs to its end in one step, and its operation is outstanding
until then: wherever a condition says that no operation of a kind is outstanding,
it says that none of their handlers is at work either. A thread of the application
runs in one step from one blocking point to the next (a `get()` on a future or a
`block_until_all_done()`), with stops of their own in calls that may overlap, as
between the test of `in_shutdown()` and the first tracer in `revoke()`. The
callback of an operation started with `gh::use_future` touches nothing but the
promise its caller waits for, so the completion of such an operation and the
resumption of its caller are one step.
-/

namespace GeeH

/-! ## Statuses and exceptions -/

/-- `grpc::Status`. -/
structure Status where
  errorCode : Nat := 0
  errorMessage : Bytes := []
deriving DecidableEq, Repr

/-- `Status::ok()`. -/
def Status.ok (s : Status) : Bool := s.errorCode == 0

/-- The exceptions of the modelled classes, with what their messages are made of. -/
inductive Exn where
  /-- `std::runtime_error` with a fixed text. -/
  | runtimeError (what : String)
  /-- `gh::detail::make_exception`: where, and the status. -/
  | grpcError (location : String) (status : Status)
  /-- `gh::assert_throw_impl`: the predicate that failed. -/
  | assertThrow (what : String)
  /-- `std::future_error` with `future_already_retrieved`. -/
  | futureAlreadyRetrieved
  /-- A Txn did not succeed; the text names the key. -/
  | txnFailed (what : String) (key : Bytes)
  /-- A LeaseGrant was rejected; the text names the lease and the response. -/
  | leaseRejected (what : String) (leaseId : UInt64) (error : Bytes)
  /-- Whatever code of the application throws. -/
  | application
deriving DecidableEq, Repr

/-- How a step of a call or of a handler ends: still running, returned, or thrown. -/
inductive Outcome where
  | running
  | returned
  | threw (e : Exn)
deriving DecidableEq, Repr

/-- The result of a `gh::use_future` operation as `get()` delivers it: a cancelled
operation and a bad status both become an exception. -/
def futureError (cancelled location : String) (ok : Bool) (status : Status) : Option Exn :=
  if !ok then some (.runtimeError cancelled)
  else if !status.ok then some (.grpcError location status)
  else none

theorem futureError_eq_none {c l : String} {ok : Bool} {status : Status} :
    futureError c l ok status = none ↔ ok = true ∧ status.ok = true := by
  cases ok <;> cases h : status.ok <;> simp [futureError, h]

/-! ## `async_op_counter` -/

/-- `async_op_counter`: the pending operations and the shutdown flag. -/
structure AsyncOpCounter where
  pending : Int := 0
  shutdown : Bool := false
deriving DecidableEq, Repr

namespace AsyncOpCounter

variable (c : AsyncOpCounter)

/-- Whether `async_op_start` would be granted. -/
def grants : Bool := !c.shutdown

/-- `async_op_start`: count the operation, unless shut down. -/
def asyncOpStart : AsyncOpCounter :=
  if c.shutdown then c else { c with pending := c.pending + 1 }

/-- `async_op_done`. -/
def asyncOpDone : AsyncOpCounter := { c with pending := c.pending - 1 }

/-- `shutdown()`, and the entry of `block_until_all_done()`, which then waits for
`pending_ == 0`. It tests that under the same lock; but a count that is zero then stays zero, unless
a tracer is destroyed that was refused, so that elsewhere the test may be a step of its own. -/
def setShutdown : AsyncOpCounter := { c with shutdown := true }

@[simp] theorem asyncOpStart_shutdown : c.asyncOpStart.shutdown = c.shutdown := by
  unfold asyncOpStart
  split <;> rfl

theorem asyncOpStart_pending (h : c.shutdown = false) :
    c.asyncOpStart.pending = c.pending + 1 := by
  simp [asyncOpStart, h]

@[simp] theorem asyncOpDone_shutdown : c.asyncOpDone.shutdown = c.shutdown := rfl

@[simp] theorem asyncOpDone_pending : c.asyncOpDone.pending = c.pending - 1 := rfl

@[simp] theorem setShutdown_pending : c.setShutdown.pending = c.pending := rfl

@[simp] theorem setShutdown_shutdown : c.setShutdown.shutdown = true := rfl

end AsyncOpCounter

/-! ## `std::promise<bool>` -/

/-- `std::promise<bool>`: whether its future was taken, and its value. -/
structure Promise where
  retrieved : Bool := false
  value : Option Bool := none
deriving DecidableEq, Repr

/-- `set_value`, ignoring `promise_already_satisfied`. -/
def Promise.setValue (p : Promise) (b : Bool) : Promise :=
  { p with value := p.value.or (some b) }

@[simp] theorem Promise.setValue_retrieved (p : Promise) (b : Bool) :
    (p.setValue b).retrieved = p.retrieved := rfl

end GeeH
