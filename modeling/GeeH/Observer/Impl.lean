import GeeH.AsyncOps
import GeeH.Etcd.Service
import GeeH.OrdMap
import GeeH.Rules
import Mathlib.Data.Multiset.AddSub
import Mathlib.Data.Finset.Basic

/-!
# GeeH.Observer.Impl — `gh/detail/election_observer_impl.hpp`

The state of an `election_observer_impl`, its public calls, its completion
handlers, and the machine they form with a completion queue that delivers
anything. As in `GeeH.Candidate.Impl`, `pending` holds the operations whose
completion calls a handler, and `calls` the calls of the application that are
not at their end.

The keys of `participants_` are create revisions. The source converts them to
`std::uint64_t`, which keeps the order of the revisions that etcd gives out.
-/

namespace GeeH.Observer

open Etcd

/-- The operations posted with a completion handler. -/
inductive Op where
  /-- `election_observer/discover_node_with_lowest_creation_revision`. -/
  | range (request : RangeRequest) (response : Option RangeResponse)
  /-- `election_observer/create_watcher`. -/
  | watchCreate (request : WatchCreateRequest)
  /-- `election_observer/cancel_watcher`. -/
  | watchCancel (watchId : Nat)
  /-- `election_observer/*/watch_read`. -/
  | watchRead
deriving DecidableEq

/-- Where a call of the application is. -/
inductive Call where
  /-- `startup()`: the creation of the watch stream. -/
  | createWatcherStream
  /-- `subscribe()`: in the subscriber, with the leader it found. -/
  | subscribing (key value : Bytes)
  /-- `cleanup()`: `ops_.block_until_all_done()`. -/
  | cleanupOps
deriving DecidableEq

/-- `participants_type`. -/
abbrev Participants := OrdMap Int KeyValue

/-! ## The nodes of the election -/

/-- Whether the entry with that key is `participants_.begin()`. -/
def isFirst (p : Participants) (r : Int) : Bool := p.first?.map Prod.fst = some r

/-- `handle_node_put()`: modify or add a node, true if the leader changed. -/
def handleNodePut (p : Participants) (kv : KeyValue) : Participants × Bool :=
  let p' := p.insert kv.createRevision kv
  match p.find? kv.createRevision with
  | some old => (p', isFirst p' kv.createRevision && decide (kv.value ≠ old.value))
  | none => (p', isFirst p' kv.createRevision)

/-- `handle_node_delete()`: delete a node, true if the leader changed. -/
def handleNodeDelete (p : Participants) (kv : KeyValue) : Participants × Bool :=
  match p.find? kv.createRevision with
  | none => (p, false)
  | some _ => (p.erase kv.createRevision, isFirst p kv.createRevision)

/-- One turn of the loop of `on_watch_read()`. -/
def handleEvent (p : Participants) (ev : Event) : Participants × Bool :=
  match ev.type with
  | .put => handleNodePut p ev.kv
  | .delete => handleNodeDelete p ev.prevKv

/-- The loop of `on_watch_read()`; the flag is `leader_changed`. -/
def handleEvents (p : Participants) (events : List Event) : Participants × Bool :=
  events.foldl (fun st ev =>
    let r := handleEvent st.1 ev
    (r.1, r.2 || st.2)) (p, false)

/-- One call of `call_subscribers()`: who was registered, and what they were told. -/
structure Round where
  tokens : Finset Nat
  key : Bytes
  value : Bytes
deriving DecidableEq

end GeeH.Observer

namespace GeeH

open Etcd Observer

/-- `election_observer_impl`. A subscriber is known by its token. -/
structure Observer where
  electionName : Bytes
  subscriptions : Finset Nat := ∅
  tokenGen : Nat := 0
  /-- Whether `watcher_stream_` is set. -/
  watcherStream : Bool := false
  watchId : Nat := 0
  participants : Participants := ∅
  ops : AsyncOpCounter := {}
  /-- The watch-create requests written so far; their position is their watch id. -/
  requests : List WatchCreateRequest := []
  pending : Multiset Op := 0
  calls : Multiset Call := 0
  /-- Ghost: the calls of `call_subscribers()`. -/
  rounds : List Round := []
  /-- Ghost: `startup()` has been called. -/
  started : Bool := false
  /-- Ghost: the answer that `on_range_request()` got. -/
  discovered : Option RangeResponse := none
  /-- Ghost: the destructor has been entered. -/
  destroyed : Bool := false
deriving DecidableEq

namespace Observer

variable (c : Observer)

/-! ## The leader -/

/-- The first node of `participants_`. -/
def leader : Option KeyValue := c.participants.first?.map Prod.snd

/-- `has_leader()`. -/
def hasLeader : Bool := c.leader.isSome

/-- `current_key()`. -/
def currentKey : Except Exn Bytes :=
  match c.leader with
  | none => .error (.runtimeError "election_observer_impl::current_key called on empty election")
  | some kv => .ok kv.key

/-- `current_value()`. -/
def currentValue : Except Exn Bytes :=
  match c.leader with
  | none => .error (.runtimeError "election_observer_impl::current_value called on empty election")
  | some kv => .ok kv.value

/-- `call_subscribers()`. -/
def callSubscribers : Observer :=
  let kv := c.leader.getD {}
  { c with rounds := c.rounds ++ [{ tokens := c.subscriptions, key := kv.key, value := kv.value }] }

/-- `report_election_leader()`. -/
def reportElectionLeader (kv : KeyValue) : Observer :=
  let r := handleNodePut c.participants kv
  let c := { c with participants := r.1 }
  if r.2 then c.callSubscribers else c

/-! ## Requests -/

/-- The request of `discover_node_with_lowest_creation_revision()`. -/
def discoverRequest : RangeRequest where
  key := electionPrefix c.electionName
  rangeEnd := prefixEnd (electionPrefix c.electionName)
  sortOrder := .ascend
  limit := 1

/-- `discover_node_with_lowest_creation_revision()`. -/
def discover : Observer :=
  if c.ops.shutdown then c
  else
    { c with
      ops := c.ops.asyncOpStart
      pending := .range c.discoverRequest none ::ₘ c.pending }

/-- The request of `create_watcher()`. -/
def watcherRequest (startRevision : Int) : WatchCreateRequest where
  key := electionPrefix c.electionName
  rangeEnd := prefixEnd (electionPrefix c.electionName)
  progressNotify := true
  startRevision := startRevision
  prevKv := true

/-- `create_watcher()`. -/
def createWatcher (startRevision : Int) : Observer :=
  if c.ops.shutdown then c
  else
    { c with
      ops := c.ops.asyncOpStart
      requests := c.requests ++ [c.watcherRequest startRevision]
      pending := .watchCreate (c.watcherRequest startRevision) ::ₘ c.pending }

/-- `cancel_watcher()`. -/
def cancelWatcher : Observer :=
  if c.ops.shutdown then c
  else
    { c with
      ops := c.ops.asyncOpStart
      pending := .watchCancel c.watchId ::ₘ c.pending }

/-- Post a read on the watch stream. -/
def postRead : Observer :=
  if c.ops.shutdown then c
  else { c with ops := c.ops.asyncOpStart, pending := .watchRead ::ₘ c.pending }

/-! ## Calls of the application -/

/-- `startup()`, up to the creation of the watch stream. A tracer that is refused takes one off
the counter all the same when it is destroyed; then `startup()` goes on to
`discover_node_with_lowest_creation_revision()`, which is refused as well. -/
def startup : Observer × Outcome :=
  let c := { c with started := true }
  if c.ops.shutdown then ({ c with ops := c.ops.asyncOpDone }, .returned)
  else
    ({ c with ops := c.ops.asyncOpStart, calls := .createWatcherStream ::ₘ c.calls }, .running)

/-- The stream was created, or that failed. -/
def onStreamCreated (ok : Bool) : Observer × Outcome :=
  let c := { c with ops := c.ops.asyncOpDone, calls := c.calls.erase .createWatcherStream }
  if !ok then
    (c, .threw (.runtimeError
      "async create_rdwr_stream cancelled for election_observer/create_watcher_stream"))
  else (discover { c with watcherStream := true }, .returned)

/-- The second critical section of `subscribe()`. -/
def register : Observer :=
  { c with tokenGen := c.tokenGen + 1, subscriptions := insert (c.tokenGen + 1) c.subscriptions }

/-- `subscribe()`, up to the call of the subscriber; without a leader it is not called. -/
def subscribe : Observer × Outcome :=
  match c.leader with
  | some kv => ({ c with calls := .subscribing kv.key kv.value ::ₘ c.calls }, .running)
  | none => (c.register, .returned)

/-- The subscriber has returned to `subscribe()`, or has thrown. -/
def onSubscriberDone (key value : Bytes) (throws : Bool) : Observer × Outcome :=
  let c := { c with calls := c.calls.erase (.subscribing key value) }
  if throws then (c, .threw .application) else (c.register, .returned)

/-- `unsubscribe()`. -/
def unsubscribe (token : Nat) : Observer := { c with subscriptions := c.subscriptions.erase token }

/-- `shutdown()`. -/
def shutdown : Observer × Outcome :=
  if !c.watcherStream then
    (c, .threw (.runtimeError "leader_election::shutdown() called before startup"))
  else (c.cancelWatcher, .returned)

/-! ## Completion handlers -/

/-- A completion that calls a handler of the object. -/
inductive Completion where
  | range (request : RangeRequest) (response : Option RangeResponse) (ok : Bool) (status : Status)
  | watchCreate (request : WatchCreateRequest) (ok : Bool)
  | watchCancel (watchId : Nat) (ok : Bool)
  | watchRead (ok : Bool) (response : WatchResponse)
deriving DecidableEq

/-- The operation that completed. -/
def Completion.op : Completion → Op
  | .range request response _ _ => .range request response
  | .watchCreate request _ => .watchCreate request
  | .watchCancel watchId _ => .watchCancel watchId
  | .watchRead _ _ => .watchRead

/-- `on_range_request()`; it does not look at the status. -/
def onRangeRequest (ok : Bool) (resp : RangeResponse) : Observer × Outcome :=
  if !ok then (c, .returned)
  else
    let c := { c with discovered := some resp }
    match resp.kvs with
    | [] => (c.createWatcher resp.revision, .returned)
    | kv :: rest =>
      -- the watch starts at the creation of the node, not at the revision of the answer
      let c := c.createWatcher kv.createRevision
      if rest ≠ [] then (c, .threw (.assertThrow "op.response.kvs().size() == 1UL"))
      else (c.reportElectionLeader kv, .returned)

/-- `on_watch_create()`. -/
def onWatchCreate (ok : Bool) : Observer := if !ok then c else c.postRead

/-- `on_watch_read()`. -/
def onWatchRead (ok : Bool) (resp : WatchResponse) : Observer :=
  if !ok then c
  -- the watch is over, and no other read is posted
  else if resp.canceled || resp.compactRevision ≠ 0 then c
  else
    let r := handleEvents c.participants resp.events
    let c := { c with watchId := resp.watchId, participants := r.1 }
    let c := if r.2 then c.callSubscribers else c
    c.postRead

/-- The completion queue takes the operation out of its table and calls the handler. -/
def enter (k : Completion) : Observer := { c with pending := c.pending.erase k.op }

/-- The `async_op_done` with which every handler starts. -/
def asyncOpDone : Observer := { c with ops := c.ops.asyncOpDone }

/-- The body of a handler, after its `async_op_done`. gRPC fills in the response of an
RPC only with OK status. `on_watch_cancel()` does nothing. -/
def body : Completion → Observer × Outcome
  | .range _ resp ok status => c.onRangeRequest ok (if status.ok then resp.getD {} else {})
  | .watchCreate _ ok => (c.onWatchCreate ok, .returned)
  | .watchCancel _ _ => (c, .returned)
  | .watchRead ok resp => (c.onWatchRead ok resp, .returned)

/-- A completion handler, run to its end. -/
def handle (k : Completion) : Observer × Outcome := (c.enter k).asyncOpDone.body k

/-- An RPC completes with OK status only after the server has answered it. -/
def Completion.WellFormed : Completion → Prop
  | .range _ resp ok status => ok = true → status.ok = true → resp.isSome
  | _ => True

instance : DecidablePred Completion.WellFormed
  | .range _ _ _ _ => inferInstanceAs (Decidable (_ → _ → _))
  | .watchCreate _ _ | .watchCancel _ _ | .watchRead _ _ => inferInstanceAs (Decidable True)

/-! ## The machine -/

/-- What can happen to an observer. -/
inductive Act where
  | startup
  | streamCreated (ok : Bool)
  | subscribe
  | subscriberDone (key value : Bytes) (throws : Bool)
  | unsubscribe (token : Nat)
  | shutdown
  | destroy
  /-- The server answers the Range. -/
  | answerRange (request : RangeRequest) (response : RangeResponse)
  | complete (k : Completion)
  | opsDrained
deriving DecidableEq

/-- The server has answered the Range: gRPC fills in the response. -/
def answerRange (request : RangeRequest) (response : RangeResponse) : Observer :=
  { c with
    pending := .range request (some response) ::ₘ c.pending.erase (.range request none) }

/-- One step of an observer. -/
def act : Act → Option (Observer × Outcome)
  | .startup => if c.destroyed then none else some c.startup
  | .streamCreated ok =>
    if .createWatcherStream ∈ c.calls then some (c.onStreamCreated ok) else none
  | .subscribe => if c.destroyed then none else some c.subscribe
  | .subscriberDone key value throws =>
    if .subscribing key value ∈ c.calls then some (c.onSubscriberDone key value throws) else none
  | .unsubscribe token => if c.destroyed then none else some (c.unsubscribe token, .returned)
  | .shutdown => if c.destroyed then none else some c.shutdown
  | .destroy =>
    if c.destroyed ∨ c.calls ≠ 0 then none
    else some ({ c with
      destroyed := true
      ops := c.ops.setShutdown
      calls := .cleanupOps ::ₘ c.calls }, .running)
  | .answerRange request response =>
    if .range request none ∈ c.pending then some (c.answerRange request response, .running)
    else none
  | .complete k => if k.op ∈ c.pending ∧ k.WellFormed then some (c.handle k) else none
  | .opsDrained =>
    if .cleanupOps ∈ c.calls ∧ c.ops.pending = 0 then
      some ({ c with calls := c.calls.erase .cleanupOps }, .returned)
    else none

/-- A freshly constructed observer. -/
def init (name : Bytes) : Observer where
  electionName := name

/-- The observer under a completion queue that delivers anything. -/
def machine : Machine Observer Act where
  Init c := ∃ name, c = init name
  step c a := (c.act a).map Prod.fst

end Observer

end GeeH
