import GeeH.AsyncOps
import GeeH.Etcd.Service
import GeeH.Rules
import Mathlib.Data.Multiset.AddSub
import Mathlib.Data.Finset.Basic

/-!
# GeeH.Candidate.Impl — `gh/detail/election_candidate_impl.hpp`

The state of an `election_candidate_impl`, its public calls, its completion
handlers, and the machine they form with a completion queue that delivers
anything: any order, any ok flag, any status, any contents.

`pending` holds the operations whose completion calls a handler of the object,
`calls` the calls of the application that are blocked somewhere, each with the
operation it is blocked on. Several calls may be running at a time.
-/

namespace GeeH.Candidate

open Etcd

/-- The operations posted with a completion handler. gRPC fills in the response of
an RPC before it reports the completion. -/
inductive Op where
  /-- `election_candidate/query_predecessor`. -/
  | queryPredecessor (request : RangeRequest) (response : Option RangeResponse)
  /-- `election_candidate/on_range_request/watch`. -/
  | watchCreate (wkey : Bytes) (wrevision : Int)
  /-- `election_candidate/*/read`. -/
  | watchRead (wkey : Bytes) (wrevision : Int)
deriving DecidableEq

/-- Where a call of the application is blocked. -/
inductive Call where
  /-- `campaign()`: the creation of the watch stream. -/
  | createWatchStream
  /-- `campaign()`: the Txn of `create_node()`. -/
  | createNode (request : TxnRequest) (response : Option TxnResponse)
  /-- `campaign()`: the second Txn of `create_node()`, on an adopted node. -/
  | republish (request : TxnRequest) (response : Option TxnResponse)
  /-- `proclaim()`: its Txn. -/
  | proclaim (value : Bytes) (request : TxnRequest) (response : Option TxnResponse)
  /-- `resign()`: the outstanding cancel writes, one for each count of `cancels`. -/
  | resignCancels (writes : Multiset Nat)
  /-- `resign()`: `reads_.block_until_all_done()`. -/
  | resignReads
  /-- `resign()`: `WritesDone`. -/
  | resignWritesDone
  /-- `resign()`: `Finish`. -/
  | resignFinish
  /-- `cleanup()`: `ops_.block_until_all_done()`. -/
  | cleanupOps
  /-- `cleanup()`: `reads_.block_until_all_done()`. -/
  | cleanupReads
deriving DecidableEq

/-- The calls that belong to a `campaign()` in progress. -/
def Call.isCampaign : Call → Bool
  | .createWatchStream => true
  | .createNode _ _ => true
  | .republish _ _ => true
  | _ => false

end GeeH.Candidate

namespace GeeH

open Etcd Candidate

/-- `election_candidate_impl`. -/
structure Candidate where
  leaseId : UInt64
  electionName : Bytes
  candidateValue : Bytes
  creationRevision : Int := 0
  currentWatches : Finset Nat := ∅
  watchedKeys : Finset Bytes := ∅
  elected : Bool := false
  promise : Promise := {}
  ops : AsyncOpCounter := {}
  reads : AsyncOpCounter := {}
  /-- Whether `watcher_stream_` is set. -/
  watcherStream : Bool := false
  /-- The watch-create requests written on the stream so far; their position is
  the watch id that the server gives them. -/
  requests : List WatchCreateRequest := []
  pending : Multiset Op := 0
  calls : Multiset Call := 0
  /-- Ghost: `campaign()` has returned its future. -/
  campaigned : Bool := false
  /-- Ghost: `resign()` has been called. -/
  resigned : Bool := false
  /-- Ghost: the destructor has been entered. -/
  destroyed : Bool := false
deriving DecidableEq

namespace Candidate

variable (c : Candidate)

/-- `key()`. -/
def key : Bytes := candidateKey c.electionName c.leaseId

/-! ## Shared helpers -/

/-- `election_result()`: the promise keeps its first value. -/
def electionResult (result : Bool) : Candidate :=
  { c with elected := result, promise := c.promise.setValue result }

/-- The request of `query_predecessor()`: the youngest node of the election that
is older than this candidate's. -/
def predecessorRequest : RangeRequest where
  key := electionPrefix c.electionName
  rangeEnd := prefixEnd (electionPrefix c.electionName)
  maxCreateRevision := c.creationRevision - 1
  sortOrder := .descend
  limit := 1

/-- `query_predecessor()`. -/
def queryPredecessor : Candidate :=
  if c.ops.shutdown then c.electionResult false
  else
    { c with
      ops := c.ops.asyncOpStart
      pending := .queryPredecessor c.predecessorRequest none ::ₘ c.pending }

/-- `check_election_over_maybe()`. -/
def checkElectionOverMaybe : Candidate :=
  if c.watchedKeys ≠ ∅ then c else c.electionResult true

/-- The Txn of `publish_value()`. -/
def publishRequest (value : Bytes) (failureOp : Option RequestOp) : TxnRequest where
  compare := [{ key := c.key, createRevision := c.creationRevision }]
  success := [.put c.key value c.leaseId]
  failure := failureOp.toList

/-- The first Txn of `create_node()`: create the node, or fetch it. -/
def createNodeRequest : TxnRequest where
  compare := [{ key := c.key, createRevision := 0 }]
  success := [.put c.key c.candidateValue c.leaseId]
  failure := [.range c.key]

/-- Block in `commit()` or on a stream operation: a tracer counts the call in `ops_`. -/
def block (call : Call) : Candidate :=
  { c with ops := c.ops.asyncOpStart, calls := call ::ₘ c.calls }

/-- A call of the application moves on to its next blocking point. -/
def moveCall (call call' : Call) : Candidate :=
  { c with calls := call' ::ₘ c.calls.erase call }

/-- Leave a blocking point, which destroys its tracer. -/
def unblock (call : Call) : Candidate :=
  { c with ops := c.ops.asyncOpDone, calls := c.calls.erase call }

/-! ## `campaign()` -/

/-- `campaign()`, up to the creation of the watch stream. -/
def campaign : Candidate × Outcome :=
  if c.ops.shutdown then
    (c, .threw (.runtimeError "campaign() called after election candidate was shutdown."))
  else if c.promise.retrieved then (c, .threw .futureAlreadyRetrieved)
  else
    (block { c with promise := { c.promise with retrieved := true } } .createWatchStream,
      .running)

/-- `create_node()`, up to its Txn. -/
def createNode : Candidate × Outcome :=
  if c.ops.shutdown then
    (c, .threw (.runtimeError "create_node() called after shutdown()"))
  else (c.block (.createNode c.createNodeRequest none), .running)

/-- The stream was created, or that failed. -/
def onStreamCreated (ok : Bool) : Candidate × Outcome :=
  let c := c.unblock .createWatchStream
  if !ok then
    (c, .threw (.runtimeError "async create_rdwr_stream cancelled for election_candidate/watch"))
  else createNode { c with watcherStream := true }

/-- The end of `campaign_impl()`: start the asynchronous part and return the future. -/
def startCampaign : Candidate × Outcome :=
  ({ c.queryPredecessor with campaigned := true }, .returned)

/-- `response_range().kvs()`, empty for a response of another kind. -/
def responseRangeKvs : ResponseOp → List KeyValue
  | .range kvs => kvs
  | _ => []

/-- `create_node()`, on the response of its first Txn. The revision of the header
is taken first, the create revision of an adopted node then replaces it. -/
def onNodeCreated (resp : TxnResponse) : Candidate × Outcome :=
  let c := { c with creationRevision := resp.revision }
  if resp.succeeded then c.startCampaign
  -- the key already existed: a previous instance left it, and its node is adopted
  else match resp.responses with
    | [r] =>
      match responseRangeKvs r with
      | [kv] =>
        let c := { c with creationRevision := kv.createRevision }
        if kv.value ≠ c.candidateValue then
          -- publish again, and delete the key if the node is gone by then
          (c.block (.republish (c.publishRequest c.candidateValue (some (.deleteRange c.key)))
            none), .running)
        else c.startCampaign
      | _ => (c, .threw (.assertThrow "resp.responses(0).response_range().kvs().size() == 1U"))
    | _ => (c, .threw (.assertThrow "resp.responses().size() == 1"))

/-- `create_node()`, on the response of the republication. -/
def onRepublished (resp : TxnResponse) : Candidate × Outcome :=
  if resp.succeeded then c.startCampaign
  else (c, .threw (.txnFailed "Unexpected failure writing new value on existing key=" c.key))

/-! ## `proclaim()` -/

/-- `proclaim()`, up to its Txn. -/
def proclaim (value : Bytes) : Candidate × Outcome :=
  if c.ops.shutdown then
    (c, .threw (.runtimeError "proclaim() called after election candidate was shutdown."))
  else (c.block (.proclaim value (c.publishRequest value none) none), .running)

/-- `proclaim()`, on the response of its Txn. -/
def onProclaimed (value : Bytes) (resp : TxnResponse) : Candidate × Outcome :=
  if resp.succeeded then ({ c with candidateValue := value }, .returned)
  else (c, .threw (.txnFailed " unexpected failure writing new value:" c.key))

/-- A Txn completed; `commit()` throws unless it is ok and has OK status. -/
def onTxn (call : Call) (ok : Bool) (status : Status) : Option (Candidate × Outcome) :=
  let c := c.unblock call
  match call with
  | .createNode _ resp =>
    match futureError "async rpc cancelled" "election_candidate/create_node" ok status with
    | some e => some (c, .threw e)
    | none => resp.map c.onNodeCreated
  | .republish _ resp =>
    match futureError "async rpc cancelled" "election_candidate/publish_value" ok status with
    | some e => some (c, .threw e)
    | none => resp.map c.onRepublished
  | .proclaim value _ resp =>
    match futureError "async rpc cancelled" "election_candidate/publish_value" ok status with
    | some e => some (c, .threw e)
    | none => resp.map (c.onProclaimed value)
  | _ => none

/-! ## `resign()` -/

/-- `resign()`, up to `cancels.block_until_all_done()`: the known watches are taken
and a cancel request is written for each. -/
def resign : Candidate × Outcome :=
  if c.ops.shutdown then
    (c, .threw (.runtimeError "resign() called after election candidate was shutdown."))
  else
    let watches := c.currentWatches
    let c := { c with currentWatches := ∅, resigned := true }
    -- without a stream there is nothing to cancel; `elected_` and the promise stay as they are
    if !c.watcherStream then (c, .returned)
    else ({ c with calls := .resignCancels watches.val ::ₘ c.calls }, .running)

/-- All cancel writes completed: `try_cancel_on()`, then wait for the reads. -/
def onCancelsDone : Candidate :=
  { c.moveCall (.resignCancels 0) .resignReads with reads := c.reads.setShutdown }

/-- The reads are drained: `WritesDone`, with a tracer. -/
def onReadsDone : Candidate :=
  block { c with calls := c.calls.erase .resignReads } .resignWritesDone

/-- `WritesDone` completed: `Finish`, with a second tracer. -/
def onWritesDone (ok : Bool) : Candidate × Outcome :=
  if !ok then
    (c.unblock .resignWritesDone, .threw (.runtimeError "async writes done cancelled"))
  else (block { c with calls := c.calls.erase .resignWritesDone } .resignFinish, .running)

/-- `Finish` completed, whatever its status; both tracers are destroyed. -/
def onFinished (ok : Bool) : Candidate × Outcome :=
  let c := { c with
    ops := c.ops.asyncOpDone.asyncOpDone
    calls := c.calls.erase .resignFinish }
  if !ok then (c, .threw (.runtimeError "async finished cancelled"))
  else (c.electionResult false, .returned)

/-! ## Completion handlers

A handler first decrements its counter (`asyncOpDone` of the completion), then
runs the body given by `onRangeRequest`, `onWatchCreate` or `onWatchRead`. -/

/-- A completion that calls a handler of the object. -/
inductive Completion where
  | rangeRequest (request : RangeRequest) (response : Option RangeResponse) (ok : Bool)
      (status : Status)
  | watchCreate (wkey : Bytes) (wrevision : Int) (ok : Bool)
  | watchRead (wkey : Bytes) (wrevision : Int) (ok : Bool) (response : WatchResponse)
deriving DecidableEq

/-- The operation that completed. -/
def Completion.op : Completion → Op
  | .rangeRequest request response _ _ => .queryPredecessor request response
  | .watchCreate wkey wrevision _ => .watchCreate wkey wrevision
  | .watchRead wkey wrevision _ _ => .watchRead wkey wrevision

/-- The watch on one node, from the revision of the Range that named it. -/
def watchRequest (k : Bytes) (revision : Int) : WatchCreateRequest where
  key := k
  startRevision := revision
  prevKv := true

/-- Write the request for a watch. -/
def createWatch (k : Bytes) (revision : Int) : Candidate :=
  { c with
    ops := c.ops.asyncOpStart
    watchedKeys := insert k c.watchedKeys
    requests := c.requests ++ [watchRequest k revision]
    pending := .watchCreate k revision ::ₘ c.pending }

/-- The loop of `on_range_request()`; the flag says that it returned early. -/
def createWatches (revision : Int) : Candidate → List KeyValue → Candidate × Bool
  | c, [] => (c, false)
  | c, kv :: kvs =>
    if c.ops.shutdown then (c, true) else createWatches revision (c.createWatch kv.key revision) kvs

/-- `on_range_request()`. -/
def onRangeRequest (ok : Bool) (status : Status) (resp : RangeResponse) : Candidate × Outcome :=
  if !ok then (c.electionResult false, .returned)
  -- thrown in the completion queue; the promise is not satisfied
  else if !status.ok then (c, .threw (.grpcError "on_range_request()" status))
  else
    let r := createWatches resp.revision c resp.kvs
    if r.2 then (r.1, .returned) else (r.1.checkElectionOverMaybe, .returned)

/-- `on_watch_create()`. -/
def onWatchCreate (ok : Bool) (wkey : Bytes) (wrevision : Int) : Candidate :=
  if !ok then c
  else if c.reads.shutdown then c
  else
    { c with
      reads := c.reads.asyncOpStart
      pending := .watchRead wkey wrevision ::ₘ c.pending }

/-- The keys whose deletion a response reports; those of its `DELETE` events. -/
def deletedKeys (events : List Event) : List Bytes :=
  (events.filter fun ev => ev.type = .delete).map (·.prevKv.key)

/-- `on_watch_read()`, up to its decision what to do next. -/
def recordEvents (resp : WatchResponse) : Candidate :=
  { c with
    currentWatches :=
      if resp.created then insert resp.watchId c.currentWatches else c.currentWatches
    watchedKeys := c.watchedKeys.filter fun k => k ∉ deletedKeys resp.events }

/-- `on_watch_read()`. -/
def onWatchRead (ok : Bool) (wkey : Bytes) (wrevision : Int) (resp : WatchResponse) :
    Candidate :=
  if !ok then c
  else
    let c := c.recordEvents resp
    -- the server ended the watch; the key stays in `watched_keys_`
    if resp.canceled || resp.compactRevision ≠ 0 then
      { c with currentWatches := c.currentWatches.erase resp.watchId }.queryPredecessor
    -- no known predecessor is left: there may be another one
    else if c.watchedKeys = ∅ then c.queryPredecessor
    -- the watch is still active
    else if c.reads.shutdown then c
    else
      { c with
        reads := c.reads.asyncOpStart
        pending := .watchRead wkey wrevision ::ₘ c.pending }

/-- The completion queue takes the operation out of its table and calls the handler. -/
def enter (k : Completion) : Candidate :=
  { c with pending := c.pending.erase k.op }

/-- The `async_op_done` of a handler. `on_range_request()` returns before it reaches
its own when the RPC was cancelled. -/
def asyncOpDone : Completion → Candidate
  | .rangeRequest _ _ ok _ => if ok then { c with ops := c.ops.asyncOpDone } else c
  | .watchCreate _ _ _ => { c with ops := c.ops.asyncOpDone }
  | .watchRead _ _ _ _ => { c with reads := c.reads.asyncOpDone }

/-- The body of a handler, after its `async_op_done`. -/
def body : Completion → Candidate × Outcome
  | .rangeRequest _ resp ok status => c.onRangeRequest ok status (resp.getD {})
  | .watchCreate wkey wrevision ok => (c.onWatchCreate ok wkey wrevision, .returned)
  | .watchRead wkey wrevision ok resp => (c.onWatchRead ok wkey wrevision resp, .returned)

/-- A completion handler, run to its end. -/
def handle (k : Completion) : Candidate × Outcome :=
  ((c.enter k).asyncOpDone k).body k

/-- An RPC completes with OK status only after the server has answered it. -/
def Completion.WellFormed : Completion → Prop
  | .rangeRequest _ resp ok status => ok = true → status.ok = true → resp.isSome
  | _ => True

instance : DecidablePred Completion.WellFormed
  | .rangeRequest _ _ _ _ => inferInstanceAs (Decidable (_ → _ → _))
  | .watchCreate _ _ _ => inferInstanceAs (Decidable True)
  | .watchRead _ _ _ _ => inferInstanceAs (Decidable True)

/-! ## The machine -/

/-- What can happen to a candidate. -/
inductive Act where
  | campaign
  | proclaim (value : Bytes)
  | resign
  | destroy
  /-- The server answers a query. -/
  | answerRange (request : RangeRequest) (response : RangeResponse)
  /-- The server answers the Txn of a call. -/
  | answerTxn (call : Call) (response : TxnResponse)
  | complete (k : Completion)
  | streamCreated (ok : Bool)
  | txnDone (call : Call) (ok : Bool) (status : Status)
  | cancelWritten (writes : Multiset Nat) (w : Nat)
  | cancelsDone
  | readsDone
  | writesDone (ok : Bool)
  | finished (ok : Bool)
  | opsDrained
  | readsDrained
deriving DecidableEq

/-- The call with the answer of the server filled in. -/
def Call.answered (response : TxnResponse) : Call → Option Call
  | .createNode request none => some (.createNode request (some response))
  | .republish request none => some (.republish request (some response))
  | .proclaim value request none => some (.proclaim value request (some response))
  | _ => none

/-- The server has answered a query: gRPC fills in the response. -/
def answerRange (request : RangeRequest) (response : RangeResponse) : Candidate :=
  { c with
    pending := .queryPredecessor request (some response) ::ₘ
      c.pending.erase (.queryPredecessor request none) }

/-- One step of a candidate. The public calls need an object that is not being
destroyed, the destructor an object on which no call is running. -/
def act : Act → Option (Candidate × Outcome)
  | .campaign => if c.destroyed then none else some c.campaign
  | .proclaim value => if c.destroyed then none else some (c.proclaim value)
  | .resign => if c.destroyed then none else some c.resign
  | .destroy =>
    if c.destroyed ∨ c.calls ≠ 0 then none
    else some ({ c with
      destroyed := true
      ops := c.ops.setShutdown
      calls := .cleanupOps ::ₘ c.calls }, .running)
  | .answerRange request response =>
    if .queryPredecessor request none ∈ c.pending then
      some (c.answerRange request response, .running)
    else none
  | .answerTxn call response =>
    if call ∈ c.calls then
      (call.answered response).map fun call' => (c.moveCall call call', .running)
    else none
  | .complete k => if k.op ∈ c.pending ∧ k.WellFormed then some (c.handle k) else none
  | .streamCreated ok =>
    if .createWatchStream ∈ c.calls then some (c.onStreamCreated ok) else none
  | .txnDone call ok status => if call ∈ c.calls then c.onTxn call ok status else none
  | .cancelWritten writes w =>
    if .resignCancels writes ∈ c.calls ∧ w ∈ writes then
      some (c.moveCall (.resignCancels writes) (.resignCancels (writes.erase w)), .running)
    else none
  | .cancelsDone =>
    if .resignCancels 0 ∈ c.calls then some (c.onCancelsDone, .running) else none
  | .readsDone =>
    if .resignReads ∈ c.calls ∧ c.reads.pending = 0 then some (c.onReadsDone, .running) else none
  | .writesDone ok =>
    if .resignWritesDone ∈ c.calls then some (c.onWritesDone ok) else none
  | .finished ok => if .resignFinish ∈ c.calls then some (c.onFinished ok) else none
  | .opsDrained =>
    if .cleanupOps ∈ c.calls ∧ c.ops.pending = 0 then
      some ({ c.moveCall .cleanupOps .cleanupReads with reads := c.reads.setShutdown }, .running)
    else none
  | .readsDrained =>
    if .cleanupReads ∈ c.calls ∧ c.reads.pending = 0 then
      some ({ c with calls := c.calls.erase .cleanupReads }, .returned)
    else none

/-- A freshly constructed candidate; all work is delayed until `campaign()`. -/
def init (name : Bytes) (leaseId : UInt64) (value : Bytes) : Candidate where
  leaseId := leaseId
  electionName := name
  candidateValue := value

/-- The candidate under a completion queue that delivers anything. -/
def machine : Machine Candidate Act where
  Init c := ∃ name leaseId value, c = init name leaseId value
  step c a := (c.act a).map Prod.fst

end Candidate

end GeeH
