import GeeH.Observer.System

/-!
# GeeH.Observer.Tracking — what an undisturbed observer has seen

The Range of `startup()` is answered once, at some revision, with the oldest
node of the election or with none (`Found`). From then on the observer holds
what the events that its watch has delivered make of that answer (`Tracks`):
the watch starts where the answer says, and it delivers in order.
-/

namespace GeeH.Observer

open Etcd Machine

variable {e : Store} {c c' : Observer} {o : Outcome} {s s' : Observed}

/-! ## The answer to the Range -/

/-- An answer to the Range of the discovery, which the store gave at the revision in it. -/
structure Found (e : Store) (name : Bytes) (resp : RangeResponse) : Prop where
  revision : resp.revision ≤ e.revision
  kvs : (resp.kvs = [] ∧ ∀ kv ∈ e.kvsAt resp.revision, ¬ InElection name kv.key) ∨
    ∃ kv, resp.kvs = [kv] ∧ kv ∈ e.kvsAt resp.revision ∧ InElection name kv.key ∧
      ∀ kv' ∈ e.kvsAt resp.revision, InElection name kv'.key →
        kv.createRevision ≤ kv'.createRevision

theorem Found.length {name : Bytes} {resp : RangeResponse} (h : Found e name resp) :
    resp.kvs.length ≤ 1 := by
  rcases h.kvs with ⟨hnil, _⟩ | ⟨kv, hone, _⟩
  · simp [hnil]
  · simp [hone]

theorem Found.commit {name : Bytes} {resp : RangeResponse} (h : Found e name resp)
    (ops : List RequestOp) : Found (e.commit ops) name resp := by
  constructor
  · exact h.revision.trans (e.le_commit_revision ops)
  · rw [Store.kvsAt_commit h.revision]
    exact h.kvs

theorem found_range (e : Store) (c : Observer) :
    Found e c.electionName (e.range c.discoverRequest) := by
  have hnow : e.kvsAt (e.range c.discoverRequest).revision = e.kvs := e.kvsAt_revision
  have hsel : ∀ kv, c.discoverRequest.Selects kv ↔ InElection c.electionName kv.key := by
    intro kv
    constructor
    · intro hkv
      exact hkv.1
    · intro hkv
      exact ⟨hkv, Or.inl rfl⟩
  constructor
  · exact le_refl e.revision
  · rw [hnow]
    rcases answer_limit_one c.discoverRequest rfl e.kvs with
      ⟨hnil, hnone⟩ | ⟨kv, hone, hmem, hkv, hmin⟩
    · left
      refine ⟨hnil, ?_⟩
      intro kv hkv hel
      exact hnone kv hkv ((hsel kv).mpr hel)
    · right
      refine ⟨kv, hone, hmem, (hsel kv).mp hkv, ?_⟩
      intro kv' hkv' hel
      exact hmin kv' hkv' ((hsel kv').mpr hel)

/-! ## The invariant -/

/-- The watch on the election that follows an answer. -/
def follow (c : Observer) (resp : RangeResponse) : WatchCreateRequest :=
  c.watcherRequest (startRevision resp)

theorem watcherRequest_congr (h : c'.electionName = c.electionName) (rev : Int) :
    c'.watcherRequest rev = c.watcherRequest rev := by
  unfold watcherRequest
  rw [h]

theorem follow_congr (h : c'.electionName = c.electionName) (resp : RangeResponse) :
    c'.follow resp = c.follow resp :=
  watcherRequest_congr h _

theorem discoverRequest_congr (h : c'.electionName = c.electionName) :
    c'.discoverRequest = c.discoverRequest := by
  unfold discoverRequest
  rw [h]

/-- The events that the observer has been told. -/
def told (s : Observed) (req : WatchCreateRequest) : List Event :=
  (req.events s.etcd.log).take (s.watch 0).sent

/-- What the observer holds after the answer to its Range: the answer, and if it could
start the watch, what that has told it. -/
def After (s : Observed) (resp : RangeResponse) : Prop :=
  (s.obs.requests = [] ∧ s.obs.participants = firstView resp) ∨
  (s.obs.requests = [s.obs.follow resp] ∧
    (s.watch 0).sent ≤ ((s.obs.follow resp).events s.etcd.log).length ∧
    s.obs.participants = observe (firstView resp) (told s (s.obs.follow resp)))

/-- What an undisturbed observer holds. -/
structure Tracks (s : Observed) : Prop where
  once : s.obs.inquiries ≤ s.obs.started.toNat
  before : s.obs.discovered = none → s.obs.participants = ∅ ∧ s.obs.requests = []
  asked : ∀ op ∈ ranges s.obs.pending, ∃ resp, op = .range s.obs.discoverRequest resp ∧
    ∀ found, resp = some found → Found s.etcd s.obs.electionName found
  found : ∀ resp, s.obs.discovered = some resp → Found s.etcd s.obs.electionName resp
  after : ∀ resp, s.obs.discovered = some resp → After s resp
  unsent : s.obs.requests = [] → (s.watch 0).sent = 0
  live : (s.watch 0).canceled = false

theorem tracks_init (name : Bytes) (revision : Int) (h : 1 ≤ revision) :
    Tracks (.init name revision h) where
  once := le_refl 0
  before _ := ⟨rfl, rfl⟩
  asked op hop := by simp [Observed.init, Observer.init, ranges] at hop
  found resp hresp := by simp [Observed.init, Observer.init] at hresp
  after resp hresp := by simp [Observed.init, Observer.init] at hresp
  unsent _ := rfl
  live := rfl

/-! ## Writes -/

theorem told_commit {req : WatchCreateRequest} (ops : List RequestOp)
    (hsent : (s.watch 0).sent ≤ (req.events s.etcd.log).length) :
    told { s with etcd := s.etcd.commit ops } req = told s req := by
  show (req.events (s.etcd.commit ops).log).take _ = _
  rw [Store.commit_log, events_append, List.take_append_of_le_length hsent]
  rfl

theorem Tracks.write (h : Tracks s) (ops : List RequestOp) :
    Tracks { s with etcd := s.etcd.commit ops } where
  once := h.once
  before := h.before
  asked op hop := by
    rcases h.asked op hop with ⟨resp, heq, hfound⟩
    exact ⟨resp, heq, fun found hr => (hfound found hr).commit ops⟩
  found resp hresp := (h.found resp hresp).commit ops
  after resp hresp := by
    rcases h.after resp hresp with hnone | ⟨hreq, hsent, hview⟩
    · exact Or.inl hnone
    · right
      refine ⟨hreq, ?_, ?_⟩
      · show (s.watch 0).sent ≤ ((s.obs.follow resp).events (s.etcd.commit ops).log).length
        rw [Store.commit_log, events_append, List.length_append]
        omega
      · show s.obs.participants = observe (firstView resp)
          (told { s with etcd := s.etcd.commit ops } (s.obs.follow resp))
        rw [told_commit ops hsent]
        exact hview
  unsent := h.unsent
  live := h.live

/-! ## Steps of the observer alone -/

/-- A step that keeps what the observer knows, and adds no other Range. -/
theorem Tracks.quiet (h : Tracks s) (hq : Quiet s.obs c') : Tracks { s with obs := c' } := by
  have hname : c'.electionName = s.obs.electionName := congrArg View.electionName hq.view
  have hpart : c'.participants = s.obs.participants := congrArg View.participants hq.view
  have hreqs : c'.requests = s.obs.requests := congrArg View.requests hq.view
  have hdisc : c'.discovered = s.obs.discovered := congrArg View.discovered hq.view
  have hask : c'.discoverRequest = s.obs.discoverRequest := discoverRequest_congr hname
  have hfollow : ∀ resp, c'.follow resp = s.obs.follow resp := follow_congr hname
  constructor
  · have honce := h.once
    have hq' := hq.once
    show c'.inquiries ≤ c'.started.toNat
    omega
  · show c'.discovered = none → c'.participants = ∅ ∧ c'.requests = []
    rw [hdisc, hpart, hreqs]
    exact h.before
  · intro op hop
    show ∃ resp, op = .range c'.discoverRequest resp ∧
      ∀ found, resp = some found → Found s.etcd c'.electionName found
    rw [hask, hname]
    rcases hq.ranges op hop with hold | hnew
    · exact h.asked op hold
    · refine ⟨none, hnew, ?_⟩
      intro found hf
      cases hf
  · intro resp hresp
    show Found s.etcd c'.electionName resp
    rw [hname]
    exact h.found resp (hdisc ▸ hresp)
  · intro resp hresp
    have hafter := h.after resp (hdisc ▸ hresp)
    unfold After at hafter ⊢
    show (c'.requests = [] ∧ c'.participants = firstView resp) ∨
      (c'.requests = [c'.follow resp] ∧
        (s.watch 0).sent ≤ ((c'.follow resp).events s.etcd.log).length ∧
        c'.participants = observe (firstView resp) (told s (c'.follow resp)))
    rw [hreqs, hpart, hfollow]
    exact hafter
  · show c'.requests = [] → (s.watch 0).sent = 0
    rw [hreqs]
    exact h.unsent
  · exact h.live

/-- The server answers the Range. -/
theorem Tracks.answered {req : RangeRequest} (h : Tracks s) (hmem : .range req none ∈ s.obs.pending) :
    Tracks { s with obs := s.obs.answerRange req (s.etcd.range req) } := by
  have hreq : req = s.obs.discoverRequest := by
    rcases h.asked _ (mem_ranges.mpr ⟨hmem, rfl⟩) with ⟨resp, heq, _⟩
    simp only [Op.range.injEq] at heq
    exact heq.1
  constructor
  · have hcard := ranges_erase_range hmem
    have honce := h.once
    show (streams s.obs.calls).card + (ranges (.range req (some (s.etcd.range req)) ::ₘ
      s.obs.pending.erase (.range req none))).card + s.obs.discovered.isSome.toNat ≤
      s.obs.started.toNat
    rw [ranges_range, Multiset.card_cons, hcard]
    exact honce
  · exact h.before
  · intro op hop
    have hop' : op ∈ ranges (.range req (some (s.etcd.range req)) ::ₘ
        s.obs.pending.erase (.range req none)) := hop
    rw [ranges_range] at hop'
    rcases Multiset.mem_cons.mp hop' with hnew | hold
    · refine ⟨some (s.etcd.range req), by rw [hnew, hreq]; rfl, ?_⟩
      intro found hf
      rw [← Option.some.inj hf, hreq]
      exact found_range s.etcd s.obs
    · exact h.asked op (Multiset.mem_of_le (ranges_erase_le _ _) hold)
  · exact h.found
  · exact h.after
  · exact h.unsent
  · exact h.live

/-- While a Range is outstanding, nothing is known yet: it is the one discovery that was
begun. -/
theorem Tracks.first (h : Tracks s) {req : RangeRequest} {resp : Option RangeResponse}
    (hmem : .range req resp ∈ s.obs.pending) :
    s.obs.discovered = none ∧ (streams s.obs.calls).card = 0 ∧
    ranges (s.obs.pending.erase (.range req resp)) = 0 ∧ s.obs.started = true := by
  have hcard := ranges_erase_range hmem
  have honce := h.once
  unfold inquiries at honce
  have hstart := Bool.toNat_le s.obs.started
  refine ⟨?_, ?_, ?_, ?_⟩
  · cases hd : s.obs.discovered with
    | none => rfl
    | some _ =>
      simp only [hd, Option.isSome_some, Bool.toNat_true] at honce
      omega
  · omega
  · apply Multiset.card_eq_zero.mp
    omega
  · cases hst : s.obs.started with
    | true => rfl
    | false =>
      simp only [hst, Bool.toNat_false] at honce
      omega

/-- The answer is one that the store gave. -/
theorem Tracks.found_of_pending (h : Tracks s) {req : RangeRequest} {resp : RangeResponse}
    (hmem : .range req (some resp) ∈ s.obs.pending) : Found s.etcd s.obs.electionName resp := by
  rcases h.asked _ (mem_ranges.mpr ⟨hmem, rfl⟩) with ⟨r, heq, hr⟩
  simp only [Op.range.injEq] at heq
  exact hr resp heq.2.symm

/-- What `on_range_request()` does to the view. -/
theorem Tracks.ranged_view {req : RangeRequest} {resp : RangeResponse} {status : Status}
    (h : Tracks s) (hmem : .range req (some resp) ∈ s.obs.pending) (hok : status.ok = true) :
    (s.obs.handle (.range req (some resp) true status)).1.view =
      { electionName := s.obs.electionName
        participants := firstView resp
        requests := s.obs.requested (startRevision resp)
        discovered := some resp } := by
  have hp := (h.before (h.first hmem).1).1
  have hview := onRangeRequest_view (c := s.obs.taken (.range req (some resp)))
    (h.found_of_pending hmem).length hp
  simp only [handle, body, hok, if_true, Option.getD_some]
  exact hview

/-- `on_range_request()` gets the answer. -/
theorem Tracks.ranged {req : RangeRequest} {resp : RangeResponse} {status : Status} (h : Tracks s)
    (hmem : .range req (some resp) ∈ s.obs.pending) (hok : status.ok = true) :
    Tracks { s with obs := (s.obs.handle (.range req (some resp) true status)).1 } := by
  have hfound := h.found_of_pending hmem
  rcases h.first hmem with ⟨hdisc, hstreams, hnone, hstart⟩
  have hreqs := (h.before hdisc).2
  have hview := h.ranged_view hmem hok
  set d := s.obs.taken (.range req (some resp)) with hd
  have hhandle : (s.obs.handle (.range req (some resp) true status)).1 =
      (d.onRangeRequest true resp).1 := by
    simp [handle, body, hok, hd, taken, enter, asyncOpDone, Completion.op]
  rw [hhandle] at hview ⊢
  rcases onRangeRequest_frame d true resp with ⟨hranges, hcalls, hstarted⟩
  generalize (d.onRangeRequest true resp).1 = c' at hview hranges hcalls hstarted ⊢
  have hname : c'.electionName = s.obs.electionName := congrArg View.electionName hview
  have hpart : c'.participants = firstView resp := congrArg View.participants hview
  have hnew : c'.requests = s.obs.requested (startRevision resp) := congrArg View.requests hview
  have hdisc' : c'.discovered = some resp := congrArg View.discovered hview
  have hreqs' : c'.requests = [] ∨ c'.requests = [c'.follow resp] := by
    rw [hnew, follow_congr hname]
    exact requested_cases hreqs _
  have hsent := h.unsent hreqs
  constructor
  · show (streams c'.calls).card + (ranges c'.pending).card + c'.discovered.isSome.toNat ≤
      c'.started.toNat
    rw [hcalls, hranges, hstarted, hdisc']
    show (streams s.obs.calls).card + (ranges (s.obs.pending.erase (.range req (some resp)))).card +
      1 ≤ s.obs.started.toNat
    rw [hstreams, hnone, hstart]
    exact le_refl 1
  · intro hnone
    rw [show c'.discovered = none from hnone] at hdisc'
    cases hdisc'
  · intro op hop
    have hop' : op ∈ ranges c'.pending := hop
    rw [hranges, show ranges d.pending = 0 from hnone] at hop'
    simp at hop'
  · intro r hr
    show Found s.etcd c'.electionName r
    rw [hname, ← Option.some.inj (hdisc'.symm.trans hr)]
    exact hfound
  · intro r hr
    have heq : resp = r := Option.some.inj (hdisc'.symm.trans hr)
    subst heq
    rcases hreqs' with hnil | hone
    · exact Or.inl ⟨hnil, hpart⟩
    · right
      refine ⟨hone, ?_, ?_⟩
      · show (s.watch 0).sent ≤ _
        omega
      · show c'.participants = observe (firstView resp)
          (((c'.follow resp).events s.etcd.log).take (s.watch 0).sent)
        rw [hsent, List.take_zero]
        exact hpart
  · intro _
    exact hsent
  · exact h.live

/-- The observer has asked for one watch at most, the one after the answer. -/
theorem Tracks.request (h : Tracks s) {id : Nat} {req : WatchCreateRequest}
    (hreq : s.obs.requests[id]? = some req) :
    id = 0 ∧ ∃ resp, s.obs.discovered = some resp ∧ req = s.obs.follow resp ∧
      s.obs.requests = [s.obs.follow resp] ∧
      (s.watch 0).sent ≤ ((s.obs.follow resp).events s.etcd.log).length ∧
      s.obs.participants = observe (firstView resp) (told s (s.obs.follow resp)) := by
  cases hd : s.obs.discovered with
  | none =>
    rw [(h.before hd).2] at hreq
    simp at hreq
  | some resp =>
    rcases h.after resp hd with ⟨hnil, _⟩ | ⟨hone, hsent, hview⟩
    · rw [hnil] at hreq
      simp at hreq
    · rcases List.getElem?_eq_some_iff.mp hreq with ⟨hlt, heq⟩
      simp only [hone, List.length_singleton] at hlt
      have hid : id = 0 := by omega
      subst hid
      refine ⟨rfl, resp, rfl, ?_, hone, hsent, hview⟩
      rw [hone] at hreq
      simpa using hreq.symm

/-- What `on_watch_read()` does to the view, when its response is not a cancellation. -/
theorem handle_watchRead_view (c : Observer) (resp : WatchResponse)
    (hcan : resp.canceled = false) (hcom : resp.compactRevision = 0) :
    (c.handle (.watchRead true resp)).1.view =
      { c.view with participants := observe c.participants resp.events } :=
  onWatchRead_view hcan hcom

/-- A read of the watch changes nothing but the view of the nodes. -/
theorem handle_read_view (c : Observer) (resp : WatchResponse) :
    ∃ p, (c.handle (.watchRead true resp)).1.view = { c.view with participants := p } := by
  by_cases hover : resp.canceled = true ∨ resp.compactRevision ≠ 0
  · refine ⟨c.participants, ?_⟩
    have hhandle : (c.handle (.watchRead true resp)).1 = c.taken .watchRead := by
      simp only [handle, body, onWatchRead, Bool.not_true, Bool.false_eq_true, if_false]
      rw [if_pos (by simpa using hover)]
      rfl
    rw [hhandle]
    rfl
  · rcases not_or.mp hover with ⟨hcan, hcom⟩
    exact ⟨_, handle_watchRead_view c resp (by simpa using hcan) (not_not.mp hcom)⟩

/-- And it starts no discovery. -/
theorem handle_read_frame (c : Observer) (resp : WatchResponse) :
    ranges (c.handle (.watchRead true resp)).1.pending ≤ ranges c.pending ∧
    (c.handle (.watchRead true resp)).1.inquiries ≤ c.inquiries ∧
    (c.handle (.watchRead true resp)).1.started = c.started := by
  rcases onWatchRead_frame (c.taken .watchRead) true resp with ⟨hranges, hcalls, hstarted⟩
  rcases handle_read_view c resp with ⟨p, hview⟩
  have hpend : ranges (c.handle (.watchRead true resp)).1.pending ≤ ranges c.pending := by
    rw [show ranges (c.handle (.watchRead true resp)).1.pending =
      ranges (c.pending.erase .watchRead) from hranges]
    exact ranges_erase_le _ _
  have hdisc : (c.handle (.watchRead true resp)).1.discovered = c.discovered :=
    congrArg View.discovered hview
  have hcard := Multiset.card_le_card hpend
  refine ⟨hpend, ?_, hstarted⟩
  unfold inquiries
  rw [hdisc, show (c.handle (.watchRead true resp)).1.calls = c.calls from hcalls]
  omega

/-- `on_watch_read()` gets the next events of the watch. -/
theorem Tracks.delivered {id n : Nat} {req : WatchCreateRequest} (h : Tracks s)
    (hreq : s.obs.requests[id]? = some req)
    (hn : n ≤ ((s.watch id).undelivered req s.etcd.log).length) :
    Tracks
      { s with
        obs := (s.obs.handle (.watchRead true
          (watchResponse (s.watch id) req s.etcd.log id n false 0))).1
        watch := Function.update s.watch id (watchSent (s.watch id) n false 0) } := by
  rcases h.request hreq with ⟨rfl, resp, hresp, rfl, hone, hsent, hview⟩
  set w := watchResponse (s.watch 0) (s.obs.follow resp) s.etcd.log 0 n false 0 with hw
  have hv := handle_watchRead_view s.obs w rfl rfl
  rcases handle_read_frame s.obs w with ⟨hpend, hinq, hstarted⟩
  generalize (s.obs.handle (.watchRead true w)).1 = c' at hv hpend hinq hstarted ⊢
  have hname : c'.electionName = s.obs.electionName := congrArg View.electionName hv
  have hpart : c'.participants = observe s.obs.participants w.events :=
    congrArg View.participants hv
  have hreqs : c'.requests = s.obs.requests := congrArg View.requests hv
  have hdisc : c'.discovered = some resp := (congrArg View.discovered hv).trans hresp
  have hfollow : c'.follow resp = s.obs.follow resp := follow_congr hname resp
  constructor
  · have honce := h.once
    show c'.inquiries ≤ c'.started.toNat
    rw [hstarted]
    omega
  · intro hnone
    rw [show c'.discovered = none from hnone] at hdisc
    cases hdisc
  · intro op hop
    show ∃ resp, op = .range c'.discoverRequest resp ∧
      ∀ found, resp = some found → Found s.etcd c'.electionName found
    rw [discoverRequest_congr hname, hname]
    exact h.asked op (Multiset.mem_of_le hpend hop)
  · intro r hr
    show Found s.etcd c'.electionName r
    rw [hname, ← Option.some.inj (hdisc.symm.trans hr)]
    exact h.found resp hresp
  · intro r hr
    have heq : resp = r := Option.some.inj (hdisc.symm.trans hr)
    subst heq
    right
    have hsome : (Function.update s.watch 0 (watchSent (s.watch 0) n false 0) 0).sent =
        (s.watch 0).sent + n := by
      rw [Function.update_self]
      rfl
    have hlen : n ≤ ((s.obs.follow resp).events s.etcd.log).length - (s.watch 0).sent := by
      simpa [WatchState.undelivered] using hn
    refine ⟨?_, ?_, ?_⟩
    · show c'.requests = [c'.follow resp]
      rw [hreqs, hfollow]
      exact hone
    · show (Function.update s.watch 0 (watchSent (s.watch 0) n false 0) 0).sent ≤
        ((c'.follow resp).events s.etcd.log).length
      rw [hsome, hfollow]
      omega
    · show c'.participants = observe (firstView resp) (((c'.follow resp).events s.etcd.log).take
        (Function.update s.watch 0 (watchSent (s.watch 0) n false 0) 0).sent)
      rw [hsome, hfollow, List.take_add, observe_append, hpart, hview]
      rfl
  · intro hnil
    rw [show c'.requests = [] from hnil] at hreqs
    rw [hone] at hreqs
    cases hreqs
  · show (Function.update s.watch 0 (watchSent (s.watch 0) n false 0) 0).canceled = false
    rw [Function.update_self]
    rfl

/-! ## Runs -/

theorem Tracks.step {a : Observed.Act} (h : Tracks s) (hok : s.Undisturbed a)
    (hstep : s.step a = some s') : Tracks s' := by
  cases Observed.step_cases hstep with
  | write ops => exact h.write ops
  | range req c' o hact =>
    cases act_cases hact with
    | quiet _ hq => exact h.quiet hq
    | answered _ _ hmem heq =>
      subst heq
      exact h.answered hmem
  | deliver id n canceled compactRevision req c' o hreq hlive hn hact =>
    obtain ⟨rfl, rfl⟩ : canceled = false ∧ compactRevision = 0 := hok
    rcases act_complete hact with ⟨_, _, rfl⟩
    exact h.delivered hreq hn
  | client a c' o hcl hact =>
    cases act_cases hact with
    | quiet _ hq => exact h.quiet hq
    | startedAgain hst =>
      rw [show s.obs.started = false from hok] at hst
      cases hst
    | answered req resp hmem heq => cases hcl
    | ranged req resp ok status hmem hwf heq =>
      obtain ⟨rfl, hst⟩ : ok = true ∧ status.ok = true := hok
      rcases Option.isSome_iff_exists.mp (hwf rfl hst) with ⟨r, rfl⟩
      subst heq
      exact h.ranged hmem hst
    | read ok resp hmem heq =>
      cases ok with
      | true => cases hcl
      | false =>
        subst heq
        exact h.quiet (Quiet.erase .watchRead (quiet_of rfl rfl le_rfl le_rfl))

/-- In a run that nothing disturbs the observer tracks the election. -/
theorem tracks (h : Observed.machine.Reachable Observed.Undisturbed s) : Tracks s := by
  refine Reachable.invariant ?_ ?_ h
  · rintro _ ⟨name, revision, hpos, rfl⟩
    exact tracks_init name revision hpos
  · intro s a s' ih hok hstep
    exact ih.step hok hstep

/-! ## After the answer -/

/-- What a step can do after the answer to the Range: nothing to what the observer knows, a
write to the store, or the next events of the watch. -/
inductive Followed (s : Observed) : Observed → Prop where
  | quiet (c' : Observer) (hview : c'.view = s.obs.view) : Followed s { s with obs := c' }
  | written (ops : List RequestOp) : Followed s { s with etcd := s.etcd.commit ops }
  | told (n : Nat) (resp : RangeResponse) (c' : Observer)
      (hone : s.obs.requests = [s.obs.follow resp])
      (hsent : (s.watch 0).sent ≤ ((s.obs.follow resp).events s.etcd.log).length)
      (hview : c'.view =
        { s.obs.view with
          participants := observe s.obs.participants
            (((s.watch 0).undelivered (s.obs.follow resp) s.etcd.log).take n) }) :
      Followed s
        { s with
          obs := c'
          watch := Function.update s.watch 0 (watchSent (s.watch 0) n false 0) }

theorem Tracks.followed {a : Observed.Act} (h : Tracks s) (hseen : s.obs.discovered ≠ none)
    (hok : s.Undisturbed a) (hstep : s.step a = some s') : Followed s s' := by
  cases Observed.step_cases hstep with
  | write ops => exact .written ops
  | range req c' o hact =>
    cases act_cases hact with
    | quiet _ hq => exact .quiet c' hq.view
    | answered _ _ hmem heq =>
      subst heq
      exact .quiet _ rfl
  | deliver id n canceled compactRevision req c' o hreq hlive hn hact =>
    obtain ⟨rfl, rfl⟩ : canceled = false ∧ compactRevision = 0 := hok
    rcases act_complete hact with ⟨_, _, rfl⟩
    rcases h.request hreq with ⟨rfl, resp, _, rfl, hone, hsent, _⟩
    exact .told n resp _ hone hsent (handle_watchRead_view s.obs _ rfl rfl)
  | client a c' o hcl hact =>
    cases act_cases hact with
    | quiet _ hq => exact .quiet c' hq.view
    | startedAgain hst =>
      rw [show s.obs.started = false from hok] at hst
      cases hst
    | answered req resp hmem heq => cases hcl
    | ranged req resp ok status hmem hwf heq => exact absurd (h.first hmem).1 hseen
    | read ok resp hmem heq =>
      cases ok with
      | true => cases hcl
      | false =>
        subst heq
        exact .quiet _ rfl

/-- The answer is the only one, and no other watch is started. -/
theorem Followed.keeps (h : Followed s s') :
    s'.obs.discovered = s.obs.discovered ∧ s'.obs.requests = s.obs.requests := by
  cases h with
  | written ops => exact ⟨rfl, rfl⟩
  | quiet c' hview => exact ⟨congrArg View.discovered hview, congrArg View.requests hview⟩
  | told n resp c' hone hsent hview =>
    exact ⟨congrArg View.discovered hview, congrArg View.requests hview⟩

end GeeH.Observer
