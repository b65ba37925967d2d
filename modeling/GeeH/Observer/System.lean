import GeeH.Etcd.History
import GeeH.Observer.Steps

/-!
# GeeH.Observer.System — an observer and the etcd it watches

The observer, the store, and the watch on the election. The store is written by
anybody. The runs of interest are those that nothing disturbs (`Undisturbed`):
`startup()` is called once, its Range succeeds, and the watch is not canceled.
Here are the system, its steps, and what the handlers of the observer do to
what it knows.
-/

namespace GeeH.Observer

open Etcd Machine

variable {e : Store} {c c' : Observer} {o : Outcome}

/-- The observer, the store, and what the server keeps of the watches. -/
structure Observed where
  etcd : Store
  obs : Observer
  watch : Nat → WatchState

namespace Observed

/-- What can happen to an observer and its etcd. -/
inductive Act where
  /-- The application, the completion queue or a handler of the observer. -/
  | client (a : Observer.Act)
  /-- The server evaluates the Range. -/
  | serveRange (req : RangeRequest)
  /-- A read completes with a response on a watch: its next `n` events. -/
  | deliver (id n : Nat) (canceled : Bool) (compactRevision : Int)
  /-- A write by somebody, or the end of a lease. -/
  | write (ops : List RequestOp)

end Observed

/-- The steps that an observer takes without the server. -/
def isClient : Observer.Act → Bool
  | .answerRange _ _ => false
  | .complete (.watchRead true _) => false
  | _ => true

namespace Observed

/-- One step of the system. -/
def step (s : Observed) : Act → Option Observed
  | .client a => if isClient a then (s.obs.act a).map fun r => { s with obs := r.1 } else none
  | .serveRange req =>
    (s.obs.act (.answerRange req (s.etcd.range req))).map fun r => { s with obs := r.1 }
  | .deliver id n canceled compactRevision =>
    match s.obs.requests[id]? with
    | none => none
    | some req =>
      let w := s.watch id
      if w.canceled ∨ (w.undelivered req s.etcd.log).length < n then none
      else
        (s.obs.act (.complete (.watchRead true
          (watchResponse w req s.etcd.log id n canceled compactRevision)))).map fun r =>
          { s with
            obs := r.1
            watch := Function.update s.watch id (watchSent w n canceled compactRevision) }
  | .write ops => some { s with etcd := s.etcd.commit ops }

/-- A fresh observer of an election, on an etcd without keys. -/
def init (name : Bytes) (revision : Int) (h : 1 ≤ revision) : Observed where
  etcd := .empty revision h
  obs := .init name
  watch _ := {}

/-- The machine of the system. -/
def machine : Machine Observed Act where
  Init s := ∃ name revision h, s = init name revision h
  step := step

/-- What one step of the system can be. -/
inductive Step (s : Observed) : Act → Observed → Prop where
  | client (a : Observer.Act) (c' : Observer) (o : Outcome) (hcl : isClient a = true)
      (hact : s.obs.act a = some (c', o)) : Step s (.client a) { s with obs := c' }
  | range (req : RangeRequest) (c' : Observer) (o : Outcome)
      (hact : s.obs.act (.answerRange req (s.etcd.range req)) = some (c', o)) :
      Step s (.serveRange req) { s with obs := c' }
  | deliver (id n : Nat) (canceled : Bool) (compactRevision : Int) (req : WatchCreateRequest)
      (c' : Observer) (o : Outcome) (hreq : s.obs.requests[id]? = some req)
      (hlive : (s.watch id).canceled = false)
      (hn : n ≤ ((s.watch id).undelivered req s.etcd.log).length)
      (hact : s.obs.act (.complete (.watchRead true
        (watchResponse (s.watch id) req s.etcd.log id n canceled compactRevision))) =
          some (c', o)) :
      Step s (.deliver id n canceled compactRevision)
        { s with
          obs := c'
          watch := Function.update s.watch id
            (watchSent (s.watch id) n canceled compactRevision) }
  | write (ops : List RequestOp) : Step s (.write ops) { s with etcd := s.etcd.commit ops }

theorem step_cases {s s' : Observed} {a : Act} (h : s.step a = some s') : Step s a s' := by
  cases a with
  | client a =>
    simp only [step] at h
    split at h
    · rename_i hcl
      rcases Option.map_eq_some_iff.mp h with ⟨⟨c', o⟩, hact, rfl⟩
      exact .client a c' o hcl hact
    · cases h
  | serveRange req =>
    rcases Option.map_eq_some_iff.mp h with ⟨⟨c', o⟩, hact, rfl⟩
    exact .range req c' o hact
  | deliver id n canceled compactRevision =>
    simp only [step] at h
    split at h
    · cases h
    · rename_i req hreq
      split at h
      · cases h
      · rename_i hcond
        rcases Option.map_eq_some_iff.mp h with ⟨⟨c', o⟩, hact, rfl⟩
        rcases not_or.mp hcond with ⟨hlive, hn⟩
        exact .deliver id n canceled compactRevision req c' o hreq (by simpa using hlive)
          (Nat.le_of_not_lt hn) hact
  | write ops =>
    simp only [step] at h
    cases h
    exact .write ops

theorem step_complete {s : Observed} {k : Completion} (hcl : isClient (.complete k) = true)
    (hmem : k.op ∈ s.obs.pending) (hwf : k.WellFormed) :
    s.step (.client (.complete k)) = some { s with obs := (s.obs.handle k).1 } := by
  simp [step, hcl, act, hmem, hwf]

theorem step_deliver {s : Observed} (id n : Nat) (canceled : Bool) (compactRevision : Int)
    {req : WatchCreateRequest} (hmem : .watchRead ∈ s.obs.pending)
    (hreq : s.obs.requests[id]? = some req) (hlive : (s.watch id).canceled = false)
    (hn : n ≤ ((s.watch id).undelivered req s.etcd.log).length) :
    s.step (.deliver id n canceled compactRevision) = some
      { s with
        obs := (s.obs.handle (.watchRead true
          (watchResponse (s.watch id) req s.etcd.log id n canceled compactRevision))).1
        watch := Function.update s.watch id
          (watchSent (s.watch id) n canceled compactRevision) } := by
  have hguard : ¬ ((s.watch id).canceled = true ∨
      ((s.watch id).undelivered req s.etcd.log).length < n) := by
    rintro (hc | hlt)
    · rw [hlive] at hc
      cases hc
    · omega
  simp only [step, hreq, hguard, if_false, act, Completion.op, hmem, Completion.WellFormed]
  rfl

/-- `startup()` is called once, the Range succeeds, and no watch is canceled. -/
def Undisturbed (s : Observed) : Act → Prop
  | .client .startup => s.obs.started = false
  | .client (.complete (.range _ _ ok status)) => ok = true ∧ status.ok = true
  | .deliver _ _ canceled compactRevision => canceled = false ∧ compactRevision = 0
  | _ => True

instance (s : Observed) (a : Act) : Decidable (s.Undisturbed a) := by
  unfold Undisturbed
  split <;> infer_instance

end Observed

/-! ## What the events make of a view -/

/-- The view after a list of events. -/
def observe (p : Participants) (events : List Event) : Participants :=
  events.foldl (fun p ev => (handleEvent p ev).1) p

theorem observe_append (p : Participants) (l₁ l₂ : List Event) :
    observe p (l₁ ++ l₂) = observe (observe p l₁) l₂ := by
  simp [observe, List.foldl_append]

/-- `on_watch_read()` leaves the view that its events make. -/
theorem handleEvents_fst (p : Participants) (events : List Event) :
    (handleEvents p events).1 = observe p events := by
  have hfold : ∀ (st : Participants × Bool),
      (events.foldl (fun st ev =>
        let r := handleEvent st.1 ev
        (r.1, r.2 || st.2)) st).1 = observe st.1 events := by
    induction events with
    | nil =>
      intro st
      rfl
    | cons ev events ih =>
      intro st
      exact ih _
  exact hfold (p, false)

@[simp] theorem handleNodePut_fst (p : Participants) (kv : KeyValue) :
    (handleNodePut p kv).1 = p.insert kv.createRevision kv := by
  unfold handleNodePut
  cases p.find? kv.createRevision <;> rfl

/-- The revision from which the watch starts. -/
def startRevision (resp : RangeResponse) : Int :=
  match resp.kvs with
  | [] => resp.revision
  | kv :: _ => kv.createRevision

/-- The view that the answer to the Range gives. -/
def firstView (resp : RangeResponse) : Participants :=
  match resp.kvs with
  | [] => ∅
  | kv :: _ => (∅ : Participants).insert kv.createRevision kv

/-! ## Steps of the observer -/

theorem reportElectionLeader_view (c : Observer) (kv : KeyValue) :
    (c.reportElectionLeader kv).view =
      { c.view with participants := c.participants.insert kv.createRevision kv } := by
  simp only [reportElectionLeader]
  split <;> simp [view, callSubscribers]

/-- The requests after `create_watcher()`. -/
def requested (c : Observer) (rev : Int) : List WatchCreateRequest :=
  c.requests ++ if c.ops.shutdown then [] else [c.watcherRequest rev]

theorem requested_cases (h : c.requests = []) (rev : Int) :
    c.requested rev = [] ∨ c.requested rev = [c.watcherRequest rev] := by
  rw [requested, h, List.nil_append]
  split
  · exact Or.inl rfl
  · exact Or.inr rfl

theorem createWatcher_view (c : Observer) (rev : Int) :
    (c.createWatcher rev).view = { c.view with requests := c.requested rev } := by
  unfold createWatcher requested
  split <;> simp [view]

/-- The answer to the Range, with at most one node, on an observer that knows nothing. -/
theorem onRangeRequest_view {resp : RangeResponse} (hone : resp.kvs.length ≤ 1)
    (hp : c.participants = ∅) :
    (c.onRangeRequest true resp).1.view =
      { electionName := c.electionName
        participants := firstView resp
        requests := c.requested (startRevision resp)
        discovered := some resp } := by
  unfold onRangeRequest firstView startRevision
  match hkvs : resp.kvs with
  | [] =>
    simp only [Bool.not_true, Bool.false_eq_true, if_false]
    rw [createWatcher_view]
    simp [view, hp, requested, watcherRequest]
  | [kv] =>
    simp only [Bool.not_true, Bool.false_eq_true, if_false, ne_eq, not_true]
    rw [reportElectionLeader_view, createWatcher_view]
    have hkeep : (createWatcher { c with discovered := some resp } kv.createRevision).participants =
        c.participants := by
      unfold createWatcher
      split <;> rfl
    rw [hkeep, hp]
    simp [view, requested, watcherRequest]
  | _ :: _ :: _ =>
    rw [hkvs] at hone
    simp at hone

theorem createWatcher_ranges (c : Observer) (rev : Int) :
    ranges (c.createWatcher rev).pending = ranges c.pending := by
  unfold createWatcher
  split
  · rfl
  · exact ranges_cons rfl _

theorem reportElectionLeader_pending (c : Observer) (kv : KeyValue) :
    (c.reportElectionLeader kv).pending = c.pending := by
  simp only [reportElectionLeader]
  split <;> rfl

/-- `on_range_request()` starts no Range and no stream, and it is not part of `startup()`. -/
theorem onRangeRequest_frame (c : Observer) (ok : Bool) (resp : RangeResponse) :
    ranges (c.onRangeRequest ok resp).1.pending = ranges c.pending ∧
    (c.onRangeRequest ok resp).1.calls = c.calls ∧
    (c.onRangeRequest ok resp).1.started = c.started := by
  have hcreate : ∀ (d : Observer) rev, (d.createWatcher rev).calls = d.calls ∧
      (d.createWatcher rev).started = d.started := by
    intro d rev
    unfold createWatcher
    split <;> exact ⟨rfl, rfl⟩
  have hreport : ∀ (d : Observer) kv, (d.reportElectionLeader kv).calls = d.calls ∧
      (d.reportElectionLeader kv).started = d.started := by
    intro d kv
    simp only [reportElectionLeader]
    split <;> exact ⟨rfl, rfl⟩
  unfold onRangeRequest
  cases ok with
  | false => exact ⟨rfl, rfl, rfl⟩
  | true =>
    simp only [Bool.not_true, Bool.false_eq_true, if_false]
    split
    · exact ⟨createWatcher_ranges _ _, (hcreate _ _).1, (hcreate _ _).2⟩
    · split
      · exact ⟨createWatcher_ranges _ _, (hcreate _ _).1, (hcreate _ _).2⟩
      · refine ⟨?_, ?_, ?_⟩
        · rw [reportElectionLeader_pending]
          exact createWatcher_ranges _ _
        · exact (hreport _ _).1.trans (hcreate _ _).1
        · exact (hreport _ _).2.trans (hcreate _ _).2

/-- A watch response that is not a cancellation. -/
theorem onWatchRead_view {resp : WatchResponse} (hcan : resp.canceled = false)
    (hcom : resp.compactRevision = 0) :
    (c.onWatchRead true resp).view =
      { c.view with participants := observe c.participants resp.events } := by
  simp only [onWatchRead, hcan, hcom, Bool.not_true, Bool.false_eq_true, if_false, ne_eq,
    not_true, decide_false, Bool.or_false]
  rw [(quiet_postRead _).view]
  split <;> simp [view, callSubscribers, handleEvents_fst]

theorem onWatchRead_frame (c : Observer) (ok : Bool) (resp : WatchResponse) :
    ranges (c.onWatchRead ok resp).pending = ranges c.pending ∧
    (c.onWatchRead ok resp).calls = c.calls ∧ (c.onWatchRead ok resp).started = c.started := by
  have hpost : ∀ d : Observer, ranges d.postRead.pending = ranges d.pending ∧
      d.postRead.calls = d.calls ∧ d.postRead.started = d.started := by
    intro d
    unfold postRead
    split
    · exact ⟨rfl, rfl, rfl⟩
    · exact ⟨ranges_cons rfl _, rfl, rfl⟩
  unfold onWatchRead
  split
  · exact ⟨rfl, rfl, rfl⟩
  · split
    · exact ⟨rfl, rfl, rfl⟩
    · rcases hpost (if (handleEvents c.participants resp.events).2 = true
        then callSubscribers { c with watchId := resp.watchId
                                      participants := (handleEvents c.participants resp.events).1 }
        else { c with watchId := resp.watchId
                      participants := (handleEvents c.participants resp.events).1 })
        with ⟨hr, hc, hs⟩
      refine ⟨hr.trans ?_, hc.trans ?_, hs.trans ?_⟩
      all_goals split <;> rfl

end GeeH.Observer
