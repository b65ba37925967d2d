import GeeH.OrdMap
import GeeH.Session.Impl
import Mathlib.Data.List.Lex

/-!
# GeeH.Cluster.Impl — `gh/detail/cluster_membership_impl.hpp`

A `cluster_membership_impl` keeps the URLs of an etcd cluster. A timer starts a
refresh, which asks the known URLs for the list of members, one after the other,
until one of them answers; then the timer is set again.

`pending` holds the operations whose completion calls a handler of the object.
A handler runs to its end in one step. Durations are microseconds, as the object
keeps them.
-/

namespace GeeH.Cluster

open Session (TimerState)

/-- Strings are compared byte by byte. -/
scoped instance byteOrder : LinearOrder UInt8 where
  le_refl := UInt8.le_refl
  le_trans _ _ _ := UInt8.le_trans
  le_antisymm _ _ := UInt8.le_antisymm
  le_total := UInt8.le_total
  lt_iff_le_not_ge a b := by
    rw [UInt8.not_le]
    exact ⟨fun h => ⟨UInt8.le_of_lt h, h⟩, fun h => h.2⟩
  toDecidableLE := inferInstance
  toDecidableLT := inferInstance
  toDecidableEq := inferInstance

/-- `std::set<std::string>`. -/
abbrev UrlSet := OrdMap Bytes Unit

/-- `etcdserverpb::Member`. -/
structure Member where
  clientUrls : List Bytes := []
deriving DecidableEq

/-- `etcdserverpb::MemberListResponse`. -/
structure MemberListResponse where
  members : List Member := []
deriving DecidableEq

/-- The URLs of all members. -/
def MemberListResponse.newUrls (resp : MemberListResponse) : UrlSet :=
  resp.members.foldl (fun urls member =>
    member.clientUrls.foldl (fun urls url => urls.insert url ()) urls) ∅

/-- What a MemberList RPC completes with. -/
structure Reply where
  ok : Bool
  status : Status := {}
  response : MemberListResponse := {}
deriving DecidableEq

/-- The operations posted with a completion handler. -/
inductive Op where
  /-- `cluster_membership/refresh_timer`, with the delay it was set to. -/
  | timer (id : Nat) (delay : Int) (state : TimerState)
  /-- `cluster_membership/member_list`, to the URL at `i`. -/
  | memberList (urls : List Bytes) (i : Nat)
deriving DecidableEq

/-- `min_refresh_interval`, in milliseconds. -/
def minRefreshInterval : Int := 5000

end GeeH.Cluster

namespace GeeH

open Cluster
open Session (TimerState)

/-- `cluster_membership_impl`. -/
structure ClusterMembership where
  memberUrls : UrlSet
  refreshInterval : Int
  /-- `refresh_timer_`. -/
  refreshTimer : Option Nat := none
  /-- How many timers were made; they are known by their number. -/
  timers : Nat := 0
  pending : Multiset Op := 0
  /-- Ghost: the URLs to which a MemberList was sent. -/
  queried : List Bytes := []
  /-- Ghost: how often `on_failure()` was called on the backoff policy. -/
  failures : Nat := 0
deriving DecidableEq

namespace Cluster

/-- The text of the `std::invalid_argument`. -/
def tooShort (refreshInterval : Int) : String :=
  "cluster_membership_impl<>() - refresh interval (" ++ toString (refreshInterval.tdiv 1000) ++
    "ms) too short, should be >= " ++ toString minRefreshInterval ++ "ms"

/-- The constructors: from one URL, or from a list of them. -/
def init (urls : List Bytes) (refreshInterval : Int) : Except String ClusterMembership :=
  let c : ClusterMembership :=
    { memberUrls := urls.foldl (fun s url => s.insert url ()) ∅
      refreshInterval := refreshInterval }
  if c.refreshInterval ≤ minRefreshInterval * 1000 then .error (tooShort c.refreshInterval)
  else .ok c

end Cluster

namespace ClusterMembership

variable (c : ClusterMembership)

/-- `current_urls()`. -/
def currentUrls : List Bytes := c.memberUrls.keys

/-- `reset_refresh_timer()`. -/
def resetRefreshTimer : ClusterMembership :=
  { c with
    refreshTimer := some c.timers
    timers := c.timers + 1
    pending := .timer c.timers c.refreshInterval .armed ::ₘ c.pending }

/-- `startup()`. -/
def startup : ClusterMembership := c.resetRefreshTimer

/-- What `deadline_timer::cancel()` does to an operation. -/
def cancel (id : Nat) : Op → Op
  | .timer i delay .armed => if i = id then .timer i delay .canceled else .timer i delay .armed
  | op => op

/-- `shutdown()`. -/
def shutdown : ClusterMembership :=
  match c.refreshTimer with
  | none => c
  | some id => { c with pending := c.pending.map (cancel id) }

/-- `try_query_cluster_membership()`. -/
def tryQueryClusterMembership (urls : List Bytes) (i : Nat) : ClusterMembership :=
  match urls[i]? with
  -- every member was asked: back off, and wait for the next round
  | none => { c with failures := c.failures + 1 }.resetRefreshTimer
  | some url =>
    { c with
      queried := c.queried ++ [url]
      pending := .memberList urls i ::ₘ c.pending }

/-- `on_refresh_expired()`. -/
def onRefreshExpired (ok : Bool) : ClusterMembership :=
  let c := { c with refreshTimer := none }
  if !ok then c else c.tryQueryClusterMembership c.currentUrls 0

/-- `on_member_list_response()`. -/
def onMemberListResponse (urls : List Bytes) (i : Nat) (reply : Reply) : ClusterMembership :=
  if !reply.ok || !reply.status.ok then c.tryQueryClusterMembership urls (i + 1)
  else
    let newUrls := reply.response.newUrls
    -- an answer without URLs is not believed
    if newUrls.keys = [] then c.tryQueryClusterMembership urls (i + 1)
    else { c with memberUrls := newUrls }.resetRefreshTimer

/-! ## The machine -/

/-- A completion that calls a handler of the object. -/
inductive Completion where
  | timer (id : Nat) (delay : Int) (state : TimerState) (ok : Bool)
  | memberList (urls : List Bytes) (i : Nat) (reply : Reply)
deriving DecidableEq

/-- The operation that completed. -/
def Completion.op : Completion → Op
  | .timer id delay state _ => .timer id delay state
  | .memberList urls i _ => .memberList urls i

/-- A timer is ok if it expired, and it is not if it was canceled before. -/
def Completion.WellFormed : Completion → Prop
  | .timer _ _ state ok => if ok then state ≠ .canceled else state ≠ .fired
  | _ => True

instance : DecidablePred Completion.WellFormed
  | .timer _ _ _ ok => by
    unfold Completion.WellFormed
    cases ok <;> infer_instance
  | .memberList _ _ _ => inferInstanceAs (Decidable True)

/-- The handler of a completion. -/
def body : Completion → ClusterMembership
  | .timer _ _ _ ok => c.onRefreshExpired ok
  | .memberList urls i reply => c.onMemberListResponse urls i reply

/-- The completion queue takes the operation out of its table and calls the handler. -/
def handle (k : Completion) : ClusterMembership :=
  body { c with pending := c.pending.erase k.op } k

/-- The alarm expires, and its completion is on its way. -/
def timerFires (id : Nat) (delay : Int) : ClusterMembership :=
  { c with pending := .timer id delay .fired ::ₘ c.pending.erase (.timer id delay .armed) }

/-- What can happen to a cluster membership. -/
inductive Act where
  | startup
  | shutdown
  /-- The deadline of a timer passes. -/
  | timerFires (id : Nat) (delay : Int)
  | complete (k : Completion)
deriving DecidableEq

/-- One step. -/
def act : Act → Option ClusterMembership
  | .startup => some c.startup
  | .shutdown => some c.shutdown
  | .timerFires id delay =>
    if .timer id delay .armed ∈ c.pending then some (c.timerFires id delay) else none
  | .complete k => if k.op ∈ c.pending ∧ k.WellFormed then some (c.handle k) else none

/-- The cluster membership under a completion queue that delivers anything. -/
def machine : Machine ClusterMembership Act where
  Init c := ∃ urls refreshInterval, Cluster.init urls refreshInterval = .ok c
  step := act

end ClusterMembership

end GeeH
