import GeeH.Candidate.Invariants
import Mathlib.Logic.Function.Basic

/-!
# GeeH.Election.System — many candidates on one etcd

Any number of candidates of one election, each with its own lease, and the
store they share. A candidate moves on its own (`client`), or the server does
something for it: it evaluates a Range or a Txn, or it reports events on a
watch. Everything else that happens to the store is a `write`: other clients,
and the expiry or revocation of a lease, which deletes keys. A transaction puts
at most one key (`SinglePut`), so that no two nodes have one create revision.

A request that the server executes after the client has given up on it is a
`write` as well, and one that is never executed is never served.
-/

namespace GeeH.Election

open Etcd Machine Candidate

universe u

/-- The candidates, the store, and what the server keeps of their watches. The watch
with id `n` of a candidate is the one of its `n`-th watch-create request. -/
structure System (ι : Type u) where
  etcd : Store
  cand : ι → Candidate
  watch : ι → Nat → WatchState

inductive Act (ι : Type u) where
  /-- The application, the completion queue or a handler of a candidate. -/
  | client (i : ι) (a : Candidate.Act)
  /-- The server evaluates a Range. -/
  | serveRange (i : ι) (req : RangeRequest)
  /-- The server evaluates the Txn that a call waits for. -/
  | serveTxn (i : ι) (call : Call)
  /-- A read completes with a response on a watch: its next `n` events. -/
  | deliver (i : ι) (wkey : Bytes) (wrevision : Int) (id n : Nat) (canceled : Bool)
      (compactRevision : Int)
  /-- A transaction of somebody else, which puts at most one key, or the end of a lease. -/
  | write (ops : List RequestOp)

/-- The steps that a candidate takes without the server. What an RPC or a read
delivers is up to the server. -/
def isClient : Candidate.Act → Bool
  | .answerRange _ _ => false
  | .answerTxn _ _ => false
  | .complete (.watchRead _ _ true _) => false
  | _ => true

/-- The Txn that a call waits for. -/
def request : Call → Option TxnRequest
  | .createNode req _ => some req
  | .republish req _ => some req
  | .proclaim _ req _ => some req
  | _ => none

namespace System

variable {ι : Type u} [DecidableEq ι]

/-- One step of the system. -/
def step (s : System ι) : Act ι → Option (System ι)
  | .client i a =>
    if isClient a then
      ((s.cand i).act a).map fun r => { s with cand := Function.update s.cand i r.1 }
    else none
  | .serveRange i req =>
    ((s.cand i).act (.answerRange req (s.etcd.range req))).map fun r =>
      { s with cand := Function.update s.cand i r.1 }
  | .serveTxn i call =>
    match request call with
    | none => none
    | some req =>
      ((s.cand i).act (.answerTxn call (s.etcd.txnResponse req))).map fun r =>
        { s with etcd := s.etcd.txn req, cand := Function.update s.cand i r.1 }
  | .deliver i wkey wrevision id n canceled compactRevision =>
    match (s.cand i).requests[id]? with
    | none => none
    | some req =>
      let w := s.watch i id
      if w.canceled ∨ (w.undelivered req s.etcd.log).length < n then none
      else
        ((s.cand i).act (.complete (.watchRead wkey wrevision true
          (watchResponse w req s.etcd.log id n canceled compactRevision)))).map fun r =>
          { s with
            cand := Function.update s.cand i r.1
            watch := Function.update s.watch i
              (Function.update (s.watch i) id (watchSent w n canceled compactRevision)) }
  | .write ops => if SinglePut ops then some { s with etcd := s.etcd.commit ops } else none

/-- Fresh candidates of one election, with leases of their own, on an etcd without keys. -/
def init (name : Bytes) (lease : ι → UInt64) (value : ι → Bytes) (revision : Int)
    (h : 1 ≤ revision) : System ι where
  etcd := .empty revision h
  cand i := .init name (lease i) (value i)
  watch _ _ := {}

/-- The machine of the system. -/
def machine : Machine (System ι) (Act ι) where
  Init s := ∃ name lease value revision h, Function.Injective lease ∧
    s = init name lease value revision h
  step := step

/-! ## Steps by their effect -/

/-- What one step of the system can be. -/
inductive Step (s : System ι) : Act ι → System ι → Prop where
  | client (i : ι) (a : Candidate.Act) (c' : Candidate) (o : Outcome) (hcl : isClient a = true)
      (hact : (s.cand i).act a = some (c', o)) :
      Step s (.client i a) { s with cand := Function.update s.cand i c' }
  | range (i : ι) (req : RangeRequest) (c' : Candidate) (o : Outcome)
      (hact : (s.cand i).act (.answerRange req (s.etcd.range req)) = some (c', o)) :
      Step s (.serveRange i req) { s with cand := Function.update s.cand i c' }
  | txn (i : ι) (call : Call) (req : TxnRequest) (c' : Candidate) (o : Outcome)
      (hreq : request call = some req)
      (hact : (s.cand i).act (.answerTxn call (s.etcd.txnResponse req)) = some (c', o)) :
      Step s (.serveTxn i call)
        { s with etcd := s.etcd.txn req, cand := Function.update s.cand i c' }
  | deliver (i : ι) (wkey : Bytes) (wrevision : Int) (id n : Nat) (canceled : Bool)
      (compactRevision : Int) (req : WatchCreateRequest) (c' : Candidate) (o : Outcome)
      (hreq : (s.cand i).requests[id]? = some req)
      (hlive : (s.watch i id).canceled = false)
      (hn : n ≤ ((s.watch i id).undelivered req s.etcd.log).length)
      (hact : (s.cand i).act (.complete (.watchRead wkey wrevision true
        (watchResponse (s.watch i id) req s.etcd.log id n canceled compactRevision))) =
          some (c', o)) :
      Step s (.deliver i wkey wrevision id n canceled compactRevision)
        { s with
          cand := Function.update s.cand i c'
          watch := Function.update s.watch i (Function.update (s.watch i) id
            (watchSent (s.watch i id) n canceled compactRevision)) }
  | write (ops : List RequestOp) (hops : SinglePut ops) :
      Step s (.write ops) { s with etcd := s.etcd.commit ops }

theorem step_cases {s s' : System ι} {a : Act ι} (h : s.step a = some s') : Step s a s' := by
  cases a with
  | client i a =>
    simp only [step] at h
    split at h
    · rename_i hcl
      rcases Option.map_eq_some_iff.mp h with ⟨⟨c', o⟩, hact, rfl⟩
      exact .client i a c' o hcl hact
    · cases h
  | serveRange i req =>
    rcases Option.map_eq_some_iff.mp h with ⟨⟨c', o⟩, hact, rfl⟩
    exact .range i req c' o hact
  | serveTxn i call =>
    simp only [step] at h
    split at h
    · cases h
    · rename_i req hreq
      rcases Option.map_eq_some_iff.mp h with ⟨⟨c', o⟩, hact, rfl⟩
      exact .txn i call req c' o hreq hact
  | deliver i wkey wrevision id n canceled compactRevision =>
    simp only [step] at h
    split at h
    · cases h
    · rename_i req hreq
      split at h
      · cases h
      · rename_i hcond
        rcases Option.map_eq_some_iff.mp h with ⟨⟨c', o⟩, hact, rfl⟩
        rcases not_or.mp hcond with ⟨hlive, hn⟩
        exact .deliver i wkey wrevision id n canceled compactRevision req c' o hreq
          (by simpa using hlive) (Nat.le_of_not_lt hn) hact
  | write ops =>
    simp only [step] at h
    split at h
    · rename_i hops
      cases h
      exact .write ops hops
    · cases h

/-- The steps of a candidate `c` that has not campaigned yet: it creates its node, at
revision `r`, and its first query is answered at once, with the nodes `kvs`. -/
def campaignActs (i : ι) (c : Candidate) (r : Int) (kvs : List KeyValue) : List (Act ι) :=
  let resp : TxnResponse := { revision := r, succeeded := true, responses := [.put] }
  let query := predecessorRequest { c with creationRevision := r }
  [.client i .campaign, .client i (.streamCreated true),
    .serveTxn i (.createNode c.createNodeRequest none),
    .client i (.txnDone (.createNode c.createNodeRequest (some resp)) true {}),
    .serveRange i query,
    .client i (.complete (.rangeRequest query (some { revision := r, kvs := kvs }) true {}))]

end System

end GeeH.Election
