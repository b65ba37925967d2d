import GeeH.Etcd.Store
import Mathlib.Data.List.Sort

/-!
# GeeH.Etcd.Service — the requests that the elections make

`Range`, `Txn` and the watch streams of etcd, as far as `gh` uses them. A Range
and a Txn are evaluated atomically on the store. A watch is a position in the
list of the events it matches: what a response delivers next is decided by the
history alone, so it does not matter when the server sends it.
-/

namespace GeeH.Etcd

/-! ## Range -/

/-- `RangeRequest::SortOrder`, for the sort target `CREATE`. -/
inductive SortOrder where
  | ascend | descend
deriving DecidableEq, Repr

/-- `etcdserverpb::RangeRequest`; zero means no `limit`, no `max_create_revision`. -/
structure RangeRequest where
  key : Bytes
  rangeEnd : Bytes := []
  limit : Nat := 0
  sortOrder : SortOrder := .ascend
  maxCreateRevision : Int := 0
deriving DecidableEq, Repr

/-- `etcdserverpb::RangeResponse`, with the revision of its header. -/
structure RangeResponse where
  revision : Int := 0
  kvs : List KeyValue := []
deriving DecidableEq, Repr

/-- The order in which a Range returns the nodes. -/
def SortOrder.le : SortOrder → KeyValue → KeyValue → Prop
  | .ascend, a, b => a.createRevision ≤ b.createRevision
  | .descend, a, b => b.createRevision ≤ a.createRevision

instance (o : SortOrder) : DecidableRel o.le := fun a b =>
  match o with
  | .ascend => inferInstanceAs (Decidable (a.createRevision ≤ b.createRevision))
  | .descend => inferInstanceAs (Decidable (b.createRevision ≤ a.createRevision))

instance (o : SortOrder) : Std.Total o.le :=
  ⟨fun a b => by cases o <;> simp only [SortOrder.le] <;> omega⟩

instance (o : SortOrder) : IsTrans KeyValue o.le :=
  ⟨fun a b c => by cases o <;> simp only [SortOrder.le] <;> omega⟩

/-- The nodes a Range selects. -/
def RangeRequest.Selects (req : RangeRequest) (kv : KeyValue) : Prop :=
  InRange req.key req.rangeEnd kv.key ∧
  (req.maxCreateRevision = 0 ∨ kv.createRevision ≤ req.maxCreateRevision)

instance (req : RangeRequest) (kv : KeyValue) : Decidable (req.Selects kv) :=
  inferInstanceAs (Decidable (_ ∧ _))

/-- The selected nodes, sorted, cut at the limit. -/
def RangeRequest.answer (req : RangeRequest) (kvs : List KeyValue) : List KeyValue :=
  let sorted := (kvs.filter fun kv => req.Selects kv).insertionSort req.sortOrder.le
  if req.limit = 0 then sorted else sorted.take req.limit

/-- `KV.Range`. -/
def Store.range (e : Store) (req : RangeRequest) : RangeResponse where
  revision := e.revision
  kvs := req.answer e.kvs

/-- A Range with limit 1 returns nothing, and then it selects no node, or it
returns the first of the nodes it selects. -/
theorem answer_limit_one (req : RangeRequest) (hlim : req.limit = 1) (kvs : List KeyValue) :
    (req.answer kvs = [] ∧ ∀ kv ∈ kvs, ¬ req.Selects kv) ∨
    (∃ kv, req.answer kvs = [kv] ∧ kv ∈ kvs ∧ req.Selects kv ∧
      ∀ kv' ∈ kvs, req.Selects kv' → req.sortOrder.le kv kv') := by
  set sel := kvs.filter fun kv => req.Selects kv with hsel
  have hmem : ∀ kv, kv ∈ sel.insertionSort req.sortOrder.le ↔ kv ∈ kvs ∧ req.Selects kv := by
    intro kv
    rw [(List.perm_insertionSort req.sortOrder.le sel).mem_iff, hsel]
    simp
  have hsorted := List.pairwise_insertionSort req.sortOrder.le sel
  have hans : req.answer kvs = (sel.insertionSort req.sortOrder.le).take 1 := by
    simp [RangeRequest.answer, hlim, hsel]
  rw [hans]
  cases hs : sel.insertionSort req.sortOrder.le with
  | nil =>
    left
    refine ⟨rfl, fun kv hkv hk => ?_⟩
    have := (hmem kv).mpr ⟨hkv, hk⟩
    rw [hs] at this
    cases this
  | cons kv rest =>
    right
    rw [hs] at hmem hsorted
    rw [List.pairwise_cons] at hsorted
    have hkv := (hmem kv).mp (by simp)
    refine ⟨kv, rfl, hkv.1, hkv.2, fun kv' hkv' hsel' => ?_⟩
    rcases List.mem_cons.mp ((hmem kv').mpr ⟨hkv', hsel'⟩) with rfl | hrest
    · cases req.sortOrder <;> simp [SortOrder.le]
    · exact hsorted.1 kv' hrest

/-! ## Txn -/

/-- `etcdserverpb::Compare` with target `CREATE` and result `EQUAL`. -/
structure Compare where
  key : Bytes
  createRevision : Int
deriving DecidableEq, Repr

/-- `etcdserverpb::TxnRequest`. -/
structure TxnRequest where
  compare : List Compare
  success : List RequestOp
  failure : List RequestOp
deriving DecidableEq, Repr

/-- `etcdserverpb::TxnResponse`, with the revision of its header. -/
structure TxnResponse where
  revision : Int := 0
  succeeded : Bool := false
  responses : List ResponseOp := []
deriving DecidableEq, Repr

/-- A compare on the create revision; an absent key has create revision 0. -/
def Compare.Holds (c : Compare) (kvs : List KeyValue) : Prop :=
  ((get? kvs c.key).map (·.createRevision)).getD 0 = c.createRevision

instance (c : Compare) (kvs : List KeyValue) : Decidable (c.Holds kvs) :=
  inferInstanceAs (Decidable (_ = _))

namespace Store

/-- Whether the guard of a Txn holds. -/
def succeeds (e : Store) (req : TxnRequest) : Bool :=
  req.compare.all fun c => c.Holds e.kvs

/-- The branch that a Txn executes. -/
def branch (e : Store) (req : TxnRequest) : List RequestOp :=
  if e.succeeds req then req.success else req.failure

/-- The store after a `KV.Txn`. -/
def txn (e : Store) (req : TxnRequest) : Store := e.commit (e.branch req)

/-- The response of a `KV.Txn`; its header has the revision after the Txn. -/
def txnResponse (e : Store) (req : TxnRequest) : TxnResponse where
  revision := (e.txn req).revision
  succeeded := e.succeeds req
  responses := e.responses (e.branch req)

end Store

/-! ## Watch -/

/-- `etcdserverpb::WatchCreateRequest`. -/
structure WatchCreateRequest where
  key : Bytes
  rangeEnd : Bytes := []
  startRevision : Int := 0
  progressNotify : Bool := false
  prevKv : Bool := false
deriving DecidableEq, Repr

/-- `etcdserverpb::WatchResponse`; the cancel reason is only logged. -/
structure WatchResponse where
  watchId : Nat := 0
  created : Bool := false
  canceled : Bool := false
  compactRevision : Int := 0
  events : List Event := []
deriving DecidableEq, Repr

/-- The events a watch is interested in, from its start revision on. -/
def WatchCreateRequest.Selects (req : WatchCreateRequest) (ev : Event) : Prop :=
  InRange req.key req.rangeEnd ev.kv.key ∧ req.startRevision ≤ ev.revision

instance (req : WatchCreateRequest) (ev : Event) : Decidable (req.Selects ev) :=
  inferInstanceAs (Decidable (_ ∧ _))

/-- An event as the watch reports it: with the previous node only on request. -/
def WatchCreateRequest.report (req : WatchCreateRequest) (ev : Event) : Event :=
  if req.prevKv then ev else { ev with prevKv := {} }

/-- The events of a history that a watch reports, in order. -/
def WatchCreateRequest.events (req : WatchCreateRequest) (log : List Event) : List Event :=
  (log.filter fun ev => req.Selects ev).map req.report

theorem events_append (req : WatchCreateRequest) (l₁ l₂ : List Event) :
    req.events (l₁ ++ l₂) = req.events l₁ ++ req.events l₂ := by
  simp [WatchCreateRequest.events]

theorem mem_events {req : WatchCreateRequest} (hp : req.prevKv = true) {log : List Event}
    {ev : Event} : ev ∈ req.events log ↔ ev ∈ log ∧ req.Selects ev := by
  simp [WatchCreateRequest.events, WatchCreateRequest.report, hp]

/-- What the server keeps of a watch: how many of its events went out, whether it
confirmed the creation, and whether it canceled the watch. -/
structure WatchState where
  sent : Nat := 0
  created : Bool := false
  canceled : Bool := false
deriving DecidableEq, Repr

/-- The events of a watch that the client has not been told yet. -/
def WatchState.undelivered (w : WatchState) (req : WatchCreateRequest) (log : List Event) :
    List Event :=
  (req.events log).drop w.sent

/-- The events of a batch and the rest are what was undelivered. -/
theorem undelivered_take (w : WatchState) (req : WatchCreateRequest) (log : List Event)
    (n : Nat) : w.undelivered req log = (w.undelivered req log).take n ++
      { w with sent := w.sent + n, created := true }.undelivered req log := by
  simp only [WatchState.undelivered]
  rw [← List.drop_drop, List.take_append_drop]

/-- New events of a history are undelivered, once the old ones are all accounted for. -/
theorem undelivered_append {w : WatchState} {req : WatchCreateRequest} {l₁ : List Event}
    (hsent : w.sent ≤ (req.events l₁).length) (l₂ : List Event) :
    w.undelivered req (l₁ ++ l₂) = w.undelivered req l₁ ++ req.events l₂ := by
  unfold WatchState.undelivered
  rw [events_append, List.drop_append_of_le_length hsent]

/-- The response that a watch sends next; its first one confirms the creation. -/
def watchResponse (w : WatchState) (req : WatchCreateRequest) (log : List Event) (id n : Nat)
    (canceled : Bool) (compactRevision : Int) : WatchResponse where
  watchId := id
  created := !w.created
  canceled := canceled
  compactRevision := compactRevision
  events := (w.undelivered req log).take n

/-- The watch after that response. A compaction cancels it, too. -/
def watchSent (w : WatchState) (n : Nat) (canceled : Bool) (compactRevision : Int) :
    WatchState where
  sent := w.sent + n
  created := true
  canceled := canceled || compactRevision ≠ 0

end GeeH.Etcd
