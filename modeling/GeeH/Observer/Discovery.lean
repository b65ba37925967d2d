import GeeH.Observer.Covering

/-!
# GeeH.Observer.Discovery — a discovery that fails

`on_range_request()` does not look at the status of the Range. When the RPC
fails, its response is empty, and the handler takes that for an election
without nodes: it asks for a watch with `start_revision` 0, which is not the
revision of an answer, and for etcd means "from now on". The nodes that are
there already are never reported.

Here the Range may end in any way. After one that failed the view is right if
there was no node when the watch was created (`no_leader_vacant`).
-/

namespace GeeH.Observer

open Etcd Machine

/-! ## The system -/

/-- An observer, its etcd, and the watches that the server runs for it. -/
structure Discovery extends Observed where
  /-- The watches that the server has created, by their id. -/
  created : Nat → Option WatchCreateRequest := fun _ => none
  /-- Ghost: a Range of the discovery ended with another status than OK. -/
  failed : Bool := false

/-- The watch that the server creates for a request: without a start revision it reports what
is written from now on. -/
def watchFrom (e : Store) (req : WatchCreateRequest) : WatchCreateRequest :=
  if req.startRevision = 0 then { req with startRevision := e.revision + 1 } else req

/-- The steps of a watch. -/
def isDelivery : Observed.Act → Bool
  | .deliver _ _ _ _ => true
  | _ => false

/-- The completion of a Range that failed, although it was not canceled. -/
def failsRange : Observed.Act → Bool
  | .client (.complete (.range _ _ true status)) => !status.ok
  | _ => false

namespace Discovery

/-- What can happen to an observer whose Range may fail. -/
inductive Act where
  /-- Anything but the watches. -/
  | observed (a : Observed.Act)
  /-- The server creates a watch that was asked for. -/
  | createWatch (id : Nat)
  /-- A read completes with the next `n` events of a watch. -/
  | deliver (id n : Nat) (canceled : Bool) (compactRevision : Int)

/-- One step of the system. -/
def step (s : Discovery) : Act → Option Discovery
  | .observed a =>
    if isDelivery a then none
    else (s.toObserved.step a).map fun t =>
      { s with
        toObserved := t
        failed := s.failed || failsRange a }
  | .createWatch id =>
    if (s.created id).isSome then none
    else (s.obs.requests[id]?).map fun req =>
      { s with created := Function.update s.created id (some (watchFrom s.etcd req)) }
  | .deliver id n canceled compactRevision =>
    (s.created id).bind fun req =>
      let w := s.watch id
      if w.canceled ∨ (w.undelivered req s.etcd.log).length < n then none
      else
        (s.obs.act (.complete (.watchRead true
          (watchResponse w req s.etcd.log id n canceled compactRevision)))).map fun r =>
          { s with
            obs := r.1
            watch := Function.update s.watch id (watchSent w n canceled compactRevision) }

/-- The machine of the system. -/
def machine : Machine Discovery Act where
  Init s := ∃ name revision h, s = { toObserved := .init name revision h }
  step := step

/-- What one step of the system can be. -/
inductive Step (s : Discovery) : Act → Discovery → Prop where
  | observed (a : Observed.Act) (t : Observed) (hno : isDelivery a = false)
      (hstep : s.toObserved.step a = some t) :
      Step s (.observed a) { s with toObserved := t, failed := s.failed || failsRange a }
  | createWatch (id : Nat) (req : WatchCreateRequest) (hnew : s.created id = none)
      (hreq : s.obs.requests[id]? = some req) :
      Step s (.createWatch id)
        { s with created := Function.update s.created id (some (watchFrom s.etcd req)) }
  | deliver (id n : Nat) (canceled : Bool) (compactRevision : Int) (req : WatchCreateRequest)
      (c' : Observer) (o : Outcome) (hreq : s.created id = some req)
      (hlive : (s.watch id).canceled = false)
      (hn : n ≤ ((s.watch id).undelivered req s.etcd.log).length)
      (hact : s.obs.act (.complete (.watchRead true
        (watchResponse (s.watch id) req s.etcd.log id n canceled compactRevision))) =
          some (c', o)) :
      Step s (.deliver id n canceled compactRevision)
        { s with
          obs := c'
          watch := Function.update s.watch id
            (watchSent (s.watch id) n canceled compactRevision) }

theorem step_cases {s s' : Discovery} {a : Act} (h : s.step a = some s') : Step s a s' := by
  cases a with
  | observed a =>
    rcases Option.ite_none_left_eq_some.mp h with ⟨hno, h⟩
    rcases Option.map_eq_some_iff.mp h with ⟨t, hstep, rfl⟩
    exact .observed a t (by simpa using hno) hstep
  | createWatch id =>
    rcases Option.ite_none_left_eq_some.mp h with ⟨hnew, h⟩
    rcases Option.map_eq_some_iff.mp h with ⟨req, hreq, rfl⟩
    exact .createWatch id req (by simpa using hnew) hreq
  | deliver id n canceled compactRevision =>
    rcases Option.bind_eq_some_iff.mp h with ⟨req, hreq, h⟩
    rcases Option.ite_none_left_eq_some.mp h with ⟨hcond, h⟩
    rcases Option.map_eq_some_iff.mp h with ⟨⟨c', o⟩, hact, rfl⟩
    rcases not_or.mp hcond with ⟨hlive, hn⟩
    exact .deliver id n canceled compactRevision req c' o hreq (by simpa using hlive)
      (Nat.le_of_not_lt hn) hact

/-- The range of the election is empty in etcd. -/
def Vacant (s : Discovery) : Prop := ∀ kv ∈ s.etcd.kvs, ¬ InElection s.obs.electionName kv.key

/-- A watch is established, and the observer has processed all of its events. -/
def CaughtUp (s : Discovery) : Prop :=
  ∃ id req, s.created id = some req ∧ (s.watch id).canceled = false ∧
    (s.watch id).undelivered req s.etcd.log = []

/-- `startup()` is called once, a write creates at most one node of the election, and after a
Range that failed the watch is created while the election has no node. -/
def Harmless (s : Discovery) : Act → Prop
  | .observed (.client .startup) => s.obs.started = false
  | .observed (.write ops) => OneCreated s.obs.electionName (s.etcd.newEvents ops)
  | .createWatch _ => s.failed = true → s.Vacant
  | _ => True

instance (s : Discovery) : Decidable s.Vacant :=
  inferInstanceAs (Decidable (∀ kv ∈ s.etcd.kvs, ¬ _))

instance (s : Discovery) (a : Act) : Decidable (s.Harmless a) := by
  unfold Harmless
  split <;> infer_instance

end Discovery

/-! ## Steps of the observer -/

section Steps

variable {c c' : Observer} {o : Outcome}

/-- What the observer can do on its own. -/
inductive Ran (c c' : Observer) : Observer.Act → Prop where
  | quiet (a : Observer.Act) (hok : failsRange (.client a) = false) (hq : Quiet c c') : Ran c c' a
  | ranged (req : RangeRequest) (resp : Option RangeResponse) (ok : Bool) (status : Status)
      (hmem : .range req resp ∈ c.pending)
      (hwf : (Completion.range req resp ok status).WellFormed)
      (heq : c' = (c.handle (.range req resp ok status)).1) :
      Ran c c' (.complete (.range req resp ok status))

theorem client_cases {a : Observer.Act} (hcl : isClient a = true)
    (hact : c.act a = some (c', o)) (hst : a = .startup → c.started = false) : Ran c c' a := by
  cases a with
  | complete k =>
    cases k with
    | range req resp ok status =>
      rcases act_complete hact with ⟨hmem, hwf, heq⟩
      exact .ranged req resp ok status hmem hwf heq
    | watchRead ok resp =>
      cases ok with
      -- a read that has a response is a delivery of the server
      | true => cases hcl
      | false =>
        rcases act_complete hact with ⟨_, _, rfl⟩
        exact .quiet _ rfl (Quiet.erase .watchRead (quiet_of rfl rfl le_rfl le_rfl))
    | watchCreate req ok =>
      cases act_cases hact with
      | quiet _ hq => exact .quiet _ rfl hq
    | watchCancel id ok =>
      cases act_cases hact with
      | quiet _ hq => exact .quiet _ rfl hq
  | startup =>
    cases act_cases hact with
    | quiet _ hq => exact .quiet _ rfl hq
    | startedAgain hagain =>
      rw [hst rfl] at hagain
      cases hagain
  | answerRange req resp => cases hcl
  | _ =>
    cases act_cases hact with
    | quiet _ hq => exact .quiet _ rfl hq

/-- The response that `on_range_request()` sees: gRPC fills it in only with OK status. -/
def seen (resp : Option RangeResponse) (status : Status) : RangeResponse :=
  if status.ok then resp.getD {} else {}

/-- `on_range_request()` on an observer that knows nothing. -/
theorem handle_range_view {req : RangeRequest} {resp : Option RangeResponse} {status : Status}
    (hone : (seen resp status).kvs.length ≤ 1) (hp : c.participants = ∅) :
    (c.handle (.range req resp true status)).1.view =
      { electionName := c.electionName
        participants := firstView (seen resp status)
        requests := c.requested (startRevision (seen resp status))
        discovered := some (seen resp status) } :=
  onRangeRequest_view (c := c.taken (.range req resp)) hone hp

theorem handle_range_frame (c : Observer) (req : RangeRequest) (resp : Option RangeResponse)
    (ok : Bool) (status : Status) :
    ranges (c.handle (.range req resp ok status)).1.pending =
      ranges (c.pending.erase (.range req resp)) ∧
    (c.handle (.range req resp ok status)).1.calls = c.calls ∧
    (c.handle (.range req resp ok status)).1.started = c.started :=
  onRangeRequest_frame (c.taken (.range req resp)) ok (seen resp status)

theorem handle_range_name (c : Observer) (req : RangeRequest) (resp : Option RangeResponse)
    (ok : Bool) (status : Status) :
    (c.handle (.range req resp ok status)).1.electionName = c.electionName := by
  have hcreate : ∀ (d : Observer) rev, (d.createWatcher rev).electionName = d.electionName :=
    fun d rev => congrArg View.electionName (createWatcher_view d rev)
  have hreport : ∀ (d : Observer) kv, (d.reportElectionLeader kv).electionName = d.electionName :=
    fun d kv => congrArg View.electionName (reportElectionLeader_view d kv)
  simp only [handle, body, onRangeRequest]
  split
  · rfl
  · split
    · exact hcreate _ _
    · split
      · exact hcreate _ _
      · exact (hreport _ _).trans (hcreate _ _)

end Steps

namespace Discovery

variable {s s' : Discovery} {resp : RangeResponse} {c' : Observer}

/-! ## Before the Range has ended -/

/-- The observer knows nothing yet. -/
structure Waits (s : Discovery) : Prop where
  undiscovered : s.obs.discovered = none
  tracks : Tracks s.toObserved
  answers : ∀ req resp, .range req (some resp) ∈ ranges s.obs.pending → 0 < resp.revision
  created : ∀ id, s.created id = none
  failed : s.failed = false

theorem waits_init (name : Bytes) (revision : Int) (h : 1 ≤ revision) :
    Waits { toObserved := .init name revision h } where
  undiscovered := rfl
  tracks := tracks_init name revision h
  answers req resp hmem := by simp [Observed.init, Observer.init, ranges] at hmem
  created _ := rfl
  failed := rfl

theorem Waits.write (h : Waits s) (ops : List RequestOp) :
    Waits { s with etcd := s.etcd.commit ops } where
  undiscovered := h.undiscovered
  tracks := h.tracks.write ops
  answers := h.answers
  created := h.created
  failed := h.failed

theorem Waits.quiet (h : Waits s) (hq : Quiet s.obs c') : Waits { s with obs := c' } where
  undiscovered := (congrArg View.discovered hq.view).trans h.undiscovered
  tracks := h.tracks.quiet hq
  answers req resp hmem := by
    rcases hq.ranges _ hmem with hold | hnew
    · exact h.answers req resp hold
    · cases hnew
  created := h.created
  failed := h.failed

theorem Waits.answered {req : RangeRequest} (h : Waits s) (hmem : .range req none ∈ s.obs.pending) :
    Waits { s with obs := s.obs.answerRange req (s.etcd.range req) } where
  undiscovered := h.undiscovered
  tracks := h.tracks.answered hmem
  answers req' resp hmem' := by
    have hmem' : .range req' (some resp) ∈ ranges (.range req (some (s.etcd.range req)) ::ₘ
        s.obs.pending.erase (.range req none)) := hmem'
    rw [ranges_range] at hmem'
    rcases Multiset.mem_cons.mp hmem' with hnew | hold
    · cases hnew
      have := s.etcd.revision_pos
      show 0 < s.etcd.revision
      omega
    · exact h.answers req' resp (Multiset.mem_of_le (ranges_erase_le _ _) hold)
  created := h.created
  failed := h.failed

/-! ## After the Range -/

/-- What a watch that is not canceled has made of the view. -/
structure Watching (s : Discovery) (req : WatchCreateRequest) : Prop where
  request : req = s.obs.watcherRequest req.startRevision
  since : Since s.etcd s.obs.electionName req.startRevision
  sent : (s.watch 0).sent ≤ (req.events s.etcd.log).length
  view : ∃ p, s.obs.participants = observe p ((req.events s.etcd.log).take (s.watch 0).sent)

/-- The Range has ended, and the handler has seen this response. -/
structure Follows (s : Discovery) (resp : RangeResponse) : Prop where
  discovered : s.obs.discovered = some resp
  once : s.obs.inquiries ≤ s.obs.started.toNat
  requests : s.obs.requests = [] ∨ s.obs.requests = [s.obs.follow resp]
  found : s.failed = false → Found s.etcd s.obs.electionName resp ∧ 0 < resp.revision
  missed : s.failed = true → resp = {} ∧ (s.created 0 = none → s.obs.participants = ∅)
  only : ∀ id req, s.created id = some req → id = 0
  unsent : s.created 0 = none → (s.watch 0).sent = 0 ∧ (s.watch 0).canceled = false
  watching : ∀ req, s.created 0 = some req → (s.watch 0).canceled = false → Watching s req

/-- The Range was the only one. -/
theorem Follows.idle (h : Follows s resp) : ranges s.obs.pending = 0 := by
  have honce := h.once
  have hstart := Bool.toNat_le s.obs.started
  unfold inquiries at honce
  rw [h.discovered, Option.isSome_some, Bool.toNat_true] at honce
  refine Multiset.card_eq_zero.mp ?_
  omega

theorem Follows.no_range (h : Follows s resp) {req : RangeRequest} {r : Option RangeResponse}
    (hmem : .range req r ∈ s.obs.pending) : False := by
  have hrange : .range req r ∈ ranges s.obs.pending := mem_ranges.mpr ⟨hmem, rfl⟩
  rw [h.idle] at hrange
  simp at hrange

theorem Watching.write {req : WatchCreateRequest} (h : Watching s req) (ops : List RequestOp) :
    Watching { s with etcd := s.etcd.commit ops } req where
  request := h.request
  since := h.since.commit ops
  sent := by
    show (s.watch 0).sent ≤ (req.events (s.etcd.commit ops).log).length
    rw [Store.commit_log, events_append, List.length_append]
    have := h.sent
    omega
  view := by
    rcases h.view with ⟨p, hview⟩
    refine ⟨p, ?_⟩
    show s.obs.participants = observe p ((req.events (s.etcd.commit ops).log).take _)
    rw [Store.commit_log, events_append, List.take_append_of_le_length h.sent]
    exact hview

theorem Watching.quiet {req : WatchCreateRequest} (h : Watching s req)
    (hview : c'.view = s.obs.view) : Watching { s with obs := c' } req := by
  have hname : c'.electionName = s.obs.electionName := congrArg View.electionName hview
  have hpart : c'.participants = s.obs.participants := congrArg View.participants hview
  constructor
  · exact h.request.trans (watcherRequest_congr hname _).symm
  · show Since s.etcd c'.electionName req.startRevision
    rw [hname]
    exact h.since
  · exact h.sent
  · show ∃ p, c'.participants = _
    rw [hpart]
    exact h.view

theorem Follows.write (h : Follows s resp) (ops : List RequestOp) :
    Follows { s with etcd := s.etcd.commit ops } resp where
  discovered := h.discovered
  once := h.once
  requests := h.requests
  found hok := ⟨(h.found hok).1.commit ops, (h.found hok).2⟩
  missed := h.missed
  only := h.only
  unsent := h.unsent
  watching req hreq hlive := (h.watching req hreq hlive).write ops

theorem Follows.quiet (h : Follows s resp) (hq : Quiet s.obs c') :
    Follows { s with obs := c' } resp := by
  have hname : c'.electionName = s.obs.electionName := congrArg View.electionName hq.view
  have hpart : c'.participants = s.obs.participants := congrArg View.participants hq.view
  have hreqs : c'.requests = s.obs.requests := congrArg View.requests hq.view
  have hdisc : c'.discovered = s.obs.discovered := congrArg View.discovered hq.view
  have hfollow : c'.follow resp = s.obs.follow resp := follow_congr hname resp
  constructor
  · exact hdisc.trans h.discovered
  · have honce := h.once
    have hq' := hq.once
    show c'.inquiries ≤ c'.started.toNat
    omega
  · show c'.requests = [] ∨ c'.requests = [c'.follow resp]
    rw [hreqs, hfollow]
    exact h.requests
  · intro hok
    show Found s.etcd c'.electionName resp ∧ 0 < resp.revision
    rw [hname]
    exact h.found hok
  · show s.failed = true → resp = {} ∧ (s.created 0 = none → c'.participants = ∅)
    rw [hpart]
    exact h.missed
  · exact h.only
  · exact h.unsent
  · intro req hreq hlive
    exact (h.watching req hreq hlive).quiet hq.view

/-- `on_range_request()` runs, with whatever the Range came to. -/
theorem Waits.ranged {req : RangeRequest} {r : Option RangeResponse} {status : Status}
    (h : Waits s) (hmem : .range req r ∈ s.obs.pending)
    (hwf : (Completion.range req r true status).WellFormed) :
    Follows
      { s with
        obs := (s.obs.handle (.range req r true status)).1
        failed := !status.ok } (seen r status) := by
  rcases h.tracks.first hmem with ⟨_, hstreams, hnone, hstart⟩
  rcases h.tracks.before h.undiscovered with ⟨hp, hreqs⟩
  -- with OK status the response is the answer of the server, and otherwise it is empty
  have hfound : status.ok = true →
      Found s.etcd s.obs.electionName (seen r status) ∧ 0 < (seen r status).revision := by
    intro hok
    rcases Option.isSome_iff_exists.mp (hwf rfl hok) with ⟨found, rfl⟩
    simp only [seen, hok, if_true, Option.getD_some]
    exact ⟨h.tracks.found_of_pending hmem, h.answers req found (mem_ranges.mpr ⟨hmem, rfl⟩)⟩
  have hmissed : status.ok = false → seen r status = {} := by
    intro hbad
    simp [seen, hbad]
  have hone : (seen r status).kvs.length ≤ 1 := by
    cases hok : status.ok with
    | true => exact (hfound hok).1.length
    | false => simp [hmissed hok]
  have hview : (s.obs.handle (.range req r true status)).1.view = _ := handle_range_view hone hp
  rcases handle_range_frame s.obs req r true status with ⟨hranges, hcalls, hstarted⟩
  generalize (s.obs.handle (.range req r true status)).1 = c' at hview hranges hcalls hstarted ⊢
  have hname : c'.electionName = s.obs.electionName := congrArg View.electionName hview
  have hpart : c'.participants = firstView (seen r status) := congrArg View.participants hview
  have hnew : c'.requests = s.obs.requested (startRevision (seen r status)) :=
    congrArg View.requests hview
  have hdisc : c'.discovered = some (seen r status) := congrArg View.discovered hview
  constructor
  · exact hdisc
  · show (streams c'.calls).card + (ranges c'.pending).card + c'.discovered.isSome.toNat ≤
      c'.started.toNat
    rw [hcalls, hranges, hstarted, hdisc, hstreams, hnone, hstart]
    exact le_refl 1
  · show c'.requests = [] ∨ c'.requests = [c'.follow (seen r status)]
    rw [hnew, follow_congr hname]
    exact requested_cases hreqs _
  · intro hok
    show Found s.etcd c'.electionName (seen r status) ∧ 0 < (seen r status).revision
    rw [hname]
    exact hfound (by simpa using hok)
  · intro hbad
    have hempty := hmissed (by simpa using hbad)
    refine ⟨hempty, fun _ => ?_⟩
    show c'.participants = ∅
    rw [hpart, hempty]
    rfl
  · intro id req' hreq'
    cases (h.created id).symm.trans hreq'
  · intro _
    exact ⟨h.tracks.unsent hreqs, h.tracks.live⟩
  · intro req' hreq'
    cases (h.created 0).symm.trans hreq'

/-- The watch that the server creates starts where the observer knows of all nodes. -/
theorem Follows.starts (h : Follows s resp) (hok : s.failed = true → s.Vacant) :
    ∃ start, watchFrom s.etcd (s.obs.follow resp) = s.obs.watcherRequest start ∧
      Since s.etcd s.obs.electionName start := by
  cases hfail : s.failed with
  | false =>
    rcases h.found hfail with ⟨hfound, hpos⟩
    -- an answer never has revision 0, so the watch starts there
    have hstart := hfound.start_pos hpos
    refine ⟨startRevision resp, ?_, hfound.since⟩
    exact if_neg (by show startRevision resp ≠ 0; omega)
  | true =>
    rcases h.missed hfail with ⟨rfl, _⟩
    -- the watch starts from now on, and there is no node yet
    refine ⟨s.etcd.revision + 1, rfl, le_refl _, ?_⟩
    intro kv hkv hel
    exact absurd hel (hok hfail kv hkv)

theorem Follows.request (h : Follows s resp) {id : Nat} {req : WatchCreateRequest}
    (hreq : s.obs.requests[id]? = some req) : id = 0 ∧ req = s.obs.follow resp := by
  rcases h.requests with hnil | hone
  · simp [hnil] at hreq
  · rw [hone] at hreq
    cases id with
    | zero => exact ⟨rfl, by simpa using hreq.symm⟩
    | succ id => simp at hreq

/-- The server creates the watch. -/
theorem Follows.createWatch (h : Follows s resp) {id : Nat} {req : WatchCreateRequest}
    (hnew : s.created id = none) (hreq : s.obs.requests[id]? = some req)
    (hok : s.failed = true → s.Vacant) :
    Follows
      { s with created := Function.update s.created id (some (watchFrom s.etcd req)) } resp := by
  rcases h.request hreq with ⟨rfl, rfl⟩
  rcases h.unsent hnew with ⟨hsent, _⟩
  rcases h.starts hok with ⟨start, hstart, hsince⟩
  constructor
  · exact h.discovered
  · exact h.once
  · exact h.requests
  · exact h.found
  · intro hfail
    refine ⟨(h.missed hfail).1, ?_⟩
    intro hnone
    simp at hnone
  · intro id req' hreq'
    by_cases hid : id = 0
    · exact hid
    · exact h.only id req' (by simpa [hid] using hreq')
  · intro hnone
    simp at hnone
  · intro req' hreq' _
    have heq : s.obs.watcherRequest start = req' := by
      rw [← hstart]
      simpa using hreq'
    subst heq
    constructor
    · rfl
    · exact hsince
    · show (s.watch 0).sent ≤ _
      omega
    · refine ⟨s.obs.participants, ?_⟩
      show s.obs.participants = observe _ (List.take (s.watch 0).sent _)
      rw [hsent, List.take_zero]
      rfl

/-- The observer has handled the next events of the watch. -/
theorem Watching.delivered {req : WatchCreateRequest} {n : Nat} {w : WatchState}
    (h : Watching s req) (hn : n ≤ ((s.watch 0).undelivered req s.etcd.log).length)
    (hname : c'.electionName = s.obs.electionName)
    (hpart : c'.participants =
      observe s.obs.participants (((s.watch 0).undelivered req s.etcd.log).take n))
    (hw : w.sent = (s.watch 0).sent + n) :
    Watching { s with obs := c', watch := Function.update s.watch 0 w } req := by
  have hbound := h.sent
  have hle : n ≤ (req.events s.etcd.log).length - (s.watch 0).sent := by
    simpa [WatchState.undelivered] using hn
  have hsent : (Function.update s.watch 0 w 0).sent = (s.watch 0).sent + n := by
    rw [Function.update_self]
    exact hw
  constructor
  · exact h.request.trans (watcherRequest_congr hname _).symm
  · show Since s.etcd c'.electionName req.startRevision
    rw [hname]
    exact h.since
  · show (Function.update s.watch 0 w 0).sent ≤ (req.events s.etcd.log).length
    rw [hsent]
    omega
  · rcases h.view with ⟨first, hfirst⟩
    refine ⟨first, ?_⟩
    show c'.participants =
      observe first ((req.events s.etcd.log).take (Function.update s.watch 0 w 0).sent)
    rw [hsent, List.take_add, observe_append, ← hfirst]
    exact hpart

/-- `on_watch_read()` gets a response of the watch. -/
theorem Follows.delivered (h : Follows s resp) {n : Nat} {canceled : Bool} {compactRevision : Int}
    {req : WatchCreateRequest} (hreq : s.created 0 = some req)
    (hlive : (s.watch 0).canceled = false)
    (hn : n ≤ ((s.watch 0).undelivered req s.etcd.log).length) :
    Follows
      { s with
        obs := (s.obs.handle (.watchRead true
          (watchResponse (s.watch 0) req s.etcd.log 0 n canceled compactRevision))).1
        watch := Function.update s.watch 0
          (watchSent (s.watch 0) n canceled compactRevision) } resp := by
  set w := watchResponse (s.watch 0) req s.etcd.log 0 n canceled compactRevision with hw
  rcases handle_read_view s.obs w with ⟨p, hview⟩
  rcases handle_read_frame s.obs w with ⟨_, hinq, hstarted⟩
  -- a response that cancels the watch leaves the view alone
  have hlast : canceled = false → compactRevision = 0 →
      (s.obs.handle (.watchRead true w)).1.participants = observe s.obs.participants w.events := by
    rintro rfl rfl
    exact congrArg View.participants (handle_watchRead_view s.obs w rfl rfl)
  generalize (s.obs.handle (.watchRead true w)).1 = c' at hview hinq hstarted hlast ⊢
  have hname : c'.electionName = s.obs.electionName := congrArg View.electionName hview
  have hreqs : c'.requests = s.obs.requests := congrArg View.requests hview
  have hdisc : c'.discovered = s.obs.discovered := congrArg View.discovered hview
  have hfollow : c'.follow resp = s.obs.follow resp := follow_congr hname resp
  constructor
  · exact hdisc.trans h.discovered
  · have honce := h.once
    show c'.inquiries ≤ c'.started.toNat
    rw [hstarted]
    omega
  · show c'.requests = [] ∨ c'.requests = [c'.follow resp]
    rw [hreqs, hfollow]
    exact h.requests
  · intro hok
    show Found s.etcd c'.electionName resp ∧ 0 < resp.revision
    rw [hname]
    exact h.found hok
  · intro hfail
    refine ⟨(h.missed hfail).1, ?_⟩
    intro hnone
    cases hreq.symm.trans hnone
  · exact h.only
  · intro hnone
    cases hreq.symm.trans hnone
  · intro req' hreq' hlive'
    obtain rfl : req = req' := Option.some.inj (hreq.symm.trans hreq')
    have hgoes : canceled = false ∧ compactRevision = 0 := by
      simpa [watchSent] using hlive'
    exact (h.watching req hreq hlive).delivered hn hname (hlast hgoes.1 hgoes.2) rfl

/-! ## Runs -/

/-- What is known in a run without harm. -/
structure Inv (s : Discovery) : Prop where
  alone : OneCreated s.obs.electionName s.etcd.log
  phase : Waits s ∨ ∃ resp, Follows s resp

theorem Inv.quiet (h : Inv s) (hq : Quiet s.obs c') : Inv { s with obs := c' } where
  alone := by
    show OneCreated c'.electionName s.etcd.log
    rw [show c'.electionName = s.obs.electionName from congrArg View.electionName hq.view]
    exact h.alone
  phase := by
    rcases h.phase with hw | ⟨resp, hf⟩
    · exact Or.inl (hw.quiet hq)
    · exact Or.inr ⟨resp, hf.quiet hq⟩

theorem Inv.write (h : Inv s) {ops : List RequestOp}
    (hok : OneCreated s.obs.electionName (s.etcd.newEvents ops)) :
    Inv { s with etcd := s.etcd.commit ops } where
  alone := h.alone.commit hok
  phase := by
    rcases h.phase with hw | ⟨resp, hf⟩
    · exact Or.inl (hw.write ops)
    · exact Or.inr ⟨resp, hf.write ops⟩

theorem Inv.answered {req : RangeRequest} (h : Inv s) (hmem : .range req none ∈ s.obs.pending) :
    Inv { s with obs := s.obs.answerRange req (s.etcd.range req) } where
  alone := h.alone
  phase := by
    rcases h.phase with hw | ⟨resp, hf⟩
    · exact Or.inl (hw.answered hmem)
    · exact absurd hmem hf.no_range

theorem Inv.ranged {req : RangeRequest} {resp : Option RangeResponse} {ok : Bool}
    {status : Status} (h : Inv s) (hmem : .range req resp ∈ s.obs.pending)
    (hwf : (Completion.range req resp ok status).WellFormed) :
    Inv
      { s with
        obs := (s.obs.handle (.range req resp ok status)).1
        failed := s.failed || failsRange (.client (.complete (.range req resp ok status))) } := by
  rcases h.phase with hw | ⟨resp', hf⟩
  · cases ok with
    | false =>
      have hq : Quiet s.obs (s.obs.handle (.range req resp false status)).1 :=
        Quiet.erase (.range req resp) (quiet_of rfl rfl le_rfl le_rfl)
      simp only [failsRange, Bool.or_false]
      exact h.quiet hq
    | true =>
      have hname : (s.obs.handle (.range req resp true status)).1.electionName =
          s.obs.electionName := handle_range_name s.obs req resp true status
      constructor
      · show OneCreated (s.obs.handle (.range req resp true status)).1.electionName s.etcd.log
        rw [hname]
        exact h.alone
      · right
        refine ⟨seen resp status, ?_⟩
        simp only [hw.failed, failsRange, Bool.false_or]
        exact hw.ranged hmem hwf
  · exact absurd hmem hf.no_range

theorem Inv.step {a : Act} (h : Inv s) (hok : s.Harmless a) (hstep : s.step a = some s') :
    Inv s' := by
  cases step_cases hstep with
  | createWatch id req hnew hreq =>
    refine ⟨h.alone, ?_⟩
    rcases h.phase with hw | ⟨resp, hf⟩
    -- no watch was asked for before the Range has ended
    · rw [(hw.tracks.before hw.undiscovered).2] at hreq
      simp at hreq
    · exact Or.inr ⟨resp, hf.createWatch hnew hreq hok⟩
  | deliver id n canceled compactRevision req c' o hreq hlive hn hact =>
    rcases act_complete hact with ⟨_, _, rfl⟩
    rcases h.phase with hw | ⟨resp, hf⟩
    · cases (hw.created id).symm.trans hreq
    · obtain rfl : id = 0 := hf.only id req hreq
      refine ⟨?_, Or.inr ⟨resp, hf.delivered hreq hlive hn⟩⟩
      rcases handle_read_view s.obs (watchResponse (s.watch 0) req s.etcd.log 0 n canceled
        compactRevision) with ⟨p, hview⟩
      have hname := congrArg View.electionName hview
      show OneCreated (s.obs.handle _).1.electionName s.etcd.log
      rw [show (s.obs.handle _).1.electionName = s.obs.electionName from hname]
      exact h.alone
  | observed a t hno hobs =>
    cases Observed.step_cases hobs with
    | deliver id n canceled compactRevision req c' o hreq hlive hn hact => cases hno
    | write ops =>
      simp only [failsRange, Bool.or_false]
      exact h.write hok
    | range req c' o hact =>
      simp only [failsRange, Bool.or_false]
      cases act_cases hact with
      | quiet _ hq => exact h.quiet hq
      | answered _ _ hmem heq =>
        subst heq
        exact h.answered hmem
    | client a c' o hcl hact =>
      have hst : a = .startup → s.obs.started = false := by
        rintro rfl
        exact hok
      cases client_cases hcl hact hst with
      | quiet _ hfails hq =>
        rw [hfails, Bool.or_false]
        exact h.quiet hq
      | ranged req resp ok status hmem hwf heq =>
        subst heq
        exact h.ranged hmem hwf

theorem inv (h : machine.Reachable Harmless s) : Inv s := by
  refine Reachable.invariant ?_ ?_ h
  · rintro _ ⟨name, revision, hpos, rfl⟩
    refine ⟨?_, Or.inl (waits_init name revision hpos)⟩
    intro a ha
    cases ha
  · intro s a s' ih hok hstep
    exact ih.step hok hstep

/-! ## A failed discovery is not an empty election -/

theorem Watching.vacant {req : WatchCreateRequest} (h : Watching s req)
    (hone : OneCreated s.obs.electionName s.etcd.log)
    (hleft : (s.watch 0).undelivered req s.etcd.log = [])
    (hno : s.obs.hasLeader = false) : s.Vacant := by
  -- the view was told everything from the start of the watch on
  have hall : (req.events s.etcd.log).take (s.watch 0).sent =
      replayed s.etcd s.obs.electionName req.startRevision s.etcd.revision := by
    rw [List.take_of_length_le (List.drop_eq_nil_iff.mp hleft), h.request, watcher_events,
      replayed, s.etcd.logAt_revision]
    rfl
  rcases h.view with ⟨p, hview⟩
  have hcovers := covers_replayed hone p req.startRevision
  rw [← hall, ← hview] at hcovers
  have hnone : s.obs.leader = none := by simpa [hasLeader] using hno
  intro kv hkv hel
  have hfind := hcovers kv hkv hel (h.since.nodes kv hkv hel)
  rw [leader_eq_none.mp hnone] at hfind
  cases hfind

/-- A watch that is created after a Range that failed has nothing to report yet, and the
observer no leader. -/
theorem Follows.blank {id : Nat} (h : Follows s resp) (hfail : s.failed = true)
    (hstep : s.step (.createWatch id) = some s') :
    s'.CaughtUp ∧ s'.obs.hasLeader = false := by
  cases step_cases hstep with
  | createWatch _ req hnew hreq =>
    rcases h.request hreq with ⟨rfl, rfl⟩
    rcases h.missed hfail with ⟨rfl, hp⟩
    constructor
    · refine ⟨0, watchFrom s.etcd (s.obs.follow {}), by simp, (h.unsent hnew).2, ?_⟩
      show ((s.obs.watcherRequest (s.etcd.revision + 1)).events s.etcd.log).drop _ = []
      -- no event is later than the revision of the store
      rw [watcher_events, List.filter_eq_nil_iff.mpr, List.drop_nil]
      intro ev hev
      have := (s.etcd.bounded ev hev).2
      simp only [decide_eq_true_eq]
      omega
    · show s.obs.hasLeader = false
      unfold hasLeader
      rw [leader_eq_none.mpr, Option.isSome_none]
      intro r
      rw [hp hnew]
      rfl

/-- Once the observer has processed all events of its watch, it is without a leader only if
the election is without a node. After a Range that failed this is so just if there was no node
when the watch was created. -/
theorem no_leader_vacant (s : Discovery) (h : machine.Reachable Harmless s) :
    (s.CaughtUp → s.obs.hasLeader = false → s.Vacant) ∧
    ∀ id s', s.step (.createWatch id) = some s' →
      ((s'.CaughtUp → s'.obs.hasLeader = false → s'.Vacant) ↔ s.Harmless (.createWatch id)) := by
  have hvacant : ∀ t : Discovery, machine.Reachable Harmless t →
      t.CaughtUp → t.obs.hasLeader = false → t.Vacant := by
    rintro t ht ⟨id, req, hreq, hlive, hleft⟩ hno
    rcases (inv ht).phase with hw | ⟨resp, hf⟩
    · cases (hw.created id).symm.trans hreq
    · obtain rfl : id = 0 := hf.only id req hreq
      exact (hf.watching req hreq hlive).vacant (inv ht).alone hleft hno
  refine ⟨hvacant s h, ?_⟩
  intro id s' hstep
  constructor
  · intro hgood hfail
    rcases (inv h).phase with hw | ⟨resp, hf⟩
    · cases hw.failed.symm.trans hfail
    · rcases hf.blank hfail hstep with ⟨hcaught, hno⟩
      -- the creation of the watch changes neither etcd nor the view
      have hempty := hgood hcaught hno
      cases step_cases hstep with
      | createWatch _ req hnew hreq => exact hempty
  · intro hok
    exact hvacant s' (h.run (Run.single (.createWatch id) hok hstep))

/-! ## Two runs with a Range that fails -/

/-- Whether the observer has processed all events of a given watch. -/
def caughtUp (s : Discovery) (id : Nat) : Bool :=
  (s.created id).any fun req =>
    !(s.watch id).canceled && decide ((s.watch id).undelivered req s.etcd.log = [])

theorem caughtUp_of {id : Nat} (h : s.caughtUp id = true) : s.CaughtUp := by
  obtain ⟨req, hreq, hcheck⟩ := Option.any_eq_true _ _ |>.mp h
  simp only [Bool.and_eq_true, Bool.not_eq_true', decide_eq_true_eq] at hcheck
  exact ⟨id, req, hreq, hcheck.1, hcheck.2⟩

/-- `startup()`, with a Range that etcd cannot be reached for. -/
def rangeFails : List Act :=
  [.observed (.client .startup), .observed (.client (.streamCreated true)),
    .observed (.client (.complete
      (.range (Observer.init []).discoverRequest none true { errorCode := 14 })))]

/-- A candidate that enters the election. -/
def enters (k : Bytes) : Act := .observed (.write [.put (0x2F :: k) [1] 0])

/-- The Range fails while the election is empty; then a candidate comes, and leaves. -/
theorem no_leader_vacant_failed : ∃ s : Discovery, machine.Reachable Harmless s ∧
    s.failed = true ∧ s.CaughtUp ∧ s.obs.hasLeader = false ∧ s.Vacant := by
  rcases reachable_of_execIf machine (fun s a => decide (s.Harmless a))
    { toObserved := .init [] 1 le_rfl }
    (rangeFails ++ [.createWatch 0,
      .observed (.client (.complete (.watchCreate ((Observer.init []).watcherRequest 0) true))),
      enters [0x61], .deliver 0 1 false 0,
      .observed (.write [.deleteRange [0x2F, 0x61]]), .deliver 0 1 false 0])
    (fun s => s.failed && (!s.obs.hasLeader && s.caughtUp 0))
    (fun _ _ => of_decide_eq_true) ⟨_, _, _, rfl⟩ (by decide) with ⟨s, hreach, hcheck⟩
  rcases (Bool.and_eq_true _ _).mp hcheck with ⟨hfail, hcheck⟩
  rcases (Bool.and_eq_true _ _).mp hcheck with ⟨hno, hcaught⟩
  have hno : s.obs.hasLeader = false := by simpa using hno
  exact ⟨s, hreach, hfail, caughtUp_of hcaught, hno,
    (no_leader_vacant s hreach).1 (caughtUp_of hcaught) hno⟩

/-- Two candidates that one transaction lets in; the Range finds the first, which then leaves. -/
def createdTogether : List Act :=
  let c := Observer.init []
  let first : KeyValue :=
    { key := [0x2F, 0x61], value := [1], createRevision := 2, modRevision := 2 }
  [.observed (.write [.put [0x2F, 0x61] [1] 0, .put [0x2F, 0x62] [2] 0]),
    .observed (.client .startup), .observed (.client (.streamCreated true)),
    .observed (.serveRange c.discoverRequest),
    .observed (.client (.complete
      (.range c.discoverRequest (some { revision := 2, kvs := [first] }) true {}))),
    .createWatch 0, .observed (.client (.complete (.watchCreate (c.watcherRequest 2) true))),
    .deliver 0 2 false 0, .observed (.write [.deleteRange [0x2F, 0x61]]), .deliver 0 1 false 0]

/-- With a node in the election the observer has no leader, and nothing to come. And where one
transaction creates two nodes, these share an entry of the view: when one of them leaves, the
other one is lost. -/
theorem no_leader_not_vacant :
    (∃ s s' : Discovery, machine.Reachable Harmless s ∧ s.failed = true ∧
      s.step (.createWatch 0) = some s' ∧ s'.CaughtUp ∧ s'.obs.hasLeader = false ∧ ¬ s'.Vacant) ∧
    ∃ s : Discovery, machine.Reachable Any s ∧ s.failed = false ∧ s.CaughtUp ∧
      s.obs.hasLeader = false ∧ ¬ s.Vacant := by
  constructor
  · rcases reachable_of_execIf machine (fun s a => decide (s.Harmless a))
      { toObserved := .init [] 1 le_rfl } (enters [0x61] :: rangeFails)
      (fun s => s.failed && (s.step (.createWatch 0)).any fun (s' : Discovery) =>
        decide (¬ s'.Vacant) && (!s'.obs.hasLeader && s'.caughtUp 0))
      (fun _ _ => of_decide_eq_true) ⟨_, _, _, rfl⟩ (by decide) with ⟨s, hreach, hcheck⟩
    rcases (Bool.and_eq_true _ _).mp hcheck with ⟨hfail, hcheck⟩
    rcases Option.any_eq_true _ _ |>.mp hcheck with ⟨s', hstep, hcheck⟩
    rcases (Bool.and_eq_true _ _).mp hcheck with ⟨hnot, hcheck⟩
    rcases (Bool.and_eq_true _ _).mp hcheck with ⟨hno, hcaught⟩
    exact ⟨s, s', hreach, hfail, hstep, caughtUp_of hcaught, by simpa using hno,
      of_decide_eq_true hnot⟩
  · rcases reachable_of_exec machine { toObserved := .init [] 1 le_rfl } createdTogether
      (fun s => decide (s.failed = false ∧ ¬ s.Vacant) && (!s.obs.hasLeader && s.caughtUp 0))
      ⟨_, _, _, rfl⟩ (by decide) with ⟨s, hreach, hcheck⟩
    rcases (Bool.and_eq_true _ _).mp hcheck with ⟨hstate, hcheck⟩
    rcases (Bool.and_eq_true _ _).mp hcheck with ⟨hno, hcaught⟩
    rcases of_decide_eq_true hstate with ⟨hfail, hnot⟩
    exact ⟨s, hreach, hfail, caughtUp_of hcaught, by simpa using hno, hnot⟩

end Discovery

end GeeH.Observer
