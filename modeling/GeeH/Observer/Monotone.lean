import GeeH.Observer.Refinement

/-!
# GeeH.Observer.Monotone — when a view goes back in time

The Range gives the oldest node as it is now, and the watch then replays that
node from its creation. A node that was updated in between goes back to its
first value when the creation is replayed. With a node that was never updated
the replay is no older than the answer, and from there on the revisions of the
events carry the argument (`Floor`).

Transactions may put several keys here.
-/

namespace GeeH.Observer

open Etcd Machine

variable {s s' : Observed} {resp : RangeResponse}

/-- The node of the answer was not updated since its creation. -/
def Untouched (resp : RangeResponse) : Prop :=
  ∀ kv ∈ resp.kvs, kv.modRevision = kv.createRevision

instance (resp : RangeResponse) : Decidable (Untouched resp) :=
  inferInstanceAs (Decidable (∀ kv ∈ resp.kvs, _))

/-- Under every create revision the later view has no older node, and it reports no older
value of the same leader. -/
def NotBack (c c' : Observer) : Prop :=
  (∀ r kv kv', c.participants.find? r = some kv → c'.participants.find? r = some kv' →
    kv.modRevision ≤ kv'.modRevision) ∧
  ∀ kv kv', c.leader = some kv → c'.leader = some kv' →
    kv.createRevision = kv'.createRevision → kv.modRevision ≤ kv'.modRevision

/-! ## Views are keyed by create revision -/

theorem Tracks.keyed (h : Tracks s) {r : Int} {kv : KeyValue}
    (hkv : s.obs.participants.find? r = some kv) : kv.createRevision = r := by
  have hfirst : ∀ resp, (firstView resp).find? r = some kv → kv.createRevision = r := by
    intro resp hfind
    rcases firstView_find? hfind with ⟨_, _, hr⟩
    exact hr
  cases hd : s.obs.discovered with
  | none =>
    rw [(h.before hd).1] at hkv
    cases hkv
  | some resp =>
    rcases h.after resp hd with ⟨_, hview⟩ | ⟨_, _, hview⟩
    · rw [hview] at hkv
      exact hfirst resp hkv
    · rw [hview, observe_find?] at hkv
      split at hkv
      · exact hfirst resp hkv
      · rename_i ev hlast
        rcases left_some hkv with ⟨hput, rfl⟩
        rw [← (lastFor_some hlast).2]
        simp [Event.node, hput]

theorem Tracks.leader_find? (h : Tracks s) {kv : KeyValue} (hkv : s.obs.leader = some kv) :
    s.obs.participants.find? kv.createRevision = some kv := by
  rcases Option.map_eq_some_iff.mp hkv with ⟨⟨r, kv'⟩, hfirst, rfl⟩
  have hfind := (OrdMap.first?_eq_some.mp hfirst).1
  rw [h.keyed hfind]
  exact hfind

theorem notBack_of_find? {c c' : Observer} (hc : ∀ kv, c.leader = some kv →
      c.participants.find? kv.createRevision = some kv)
    (hc' : ∀ kv, c'.leader = some kv → c'.participants.find? kv.createRevision = some kv)
    (h : ∀ r kv kv', c.participants.find? r = some kv → c'.participants.find? r = some kv' →
      kv.modRevision ≤ kv'.modRevision) : NotBack c c' := by
  refine ⟨h, ?_⟩
  intro kv kv' hkv hkv' heq
  refine h kv.createRevision kv kv' (hc kv hkv) ?_
  rw [heq]
  exact hc' kv' hkv'

/-! ## A floor under the revisions -/

/-- From here on, nothing older than `m` comes under the create revision `r`. -/
structure Floor (r m : Int) (s : Observed) : Prop where
  seen : s.obs.discovered ≠ none
  entry : ∀ kv, s.obs.participants.find? r = some kv → m ≤ kv.modRevision
  revision : m ≤ s.etcd.revision
  events : ∀ req, s.obs.requests = [req] →
    ∀ ev ∈ (s.watch 0).undelivered req s.etcd.log, m ≤ ev.revision

theorem Floor.step {r m : Int} {a : Observed.Act} (h : Floor r m s) (ht : Tracks s)
    (hok : s.Undisturbed a) (hstep : s.step a = some s') : Floor r m s' := by
  have hfollowed := ht.followed h.seen hok hstep
  rcases hfollowed.keeps with ⟨hdisc, hreqs⟩
  have hseen : s'.obs.discovered ≠ none := by
    rw [hdisc]
    exact h.seen
  cases hfollowed with
  | quiet c' hview =>
    have hpart : c'.participants = s.obs.participants := congrArg View.participants hview
    refine ⟨hseen, ?_, h.revision, ?_⟩
    · show ∀ kv, c'.participants.find? r = some kv → m ≤ kv.modRevision
      rw [hpart]
      exact h.entry
    · show ∀ req, c'.requests = [req] → ∀ ev ∈ (s.watch 0).undelivered req s.etcd.log, _
      rw [show c'.requests = s.obs.requests from hreqs]
      exact h.events
  | written ops =>
    have hle := s.etcd.le_commit_revision ops
    have hrev := h.revision
    refine ⟨hseen, h.entry, ?_, ?_⟩
    · show m ≤ (s.etcd.commit ops).revision
      omega
    · intro req hreq ev hev
      have hreq' : s.obs.requests[0]? = some req := by
        rw [show s.obs.requests = [req] from hreq]
        rfl
      rcases ht.request hreq' with ⟨_, resp, _, rfl, _, hsent, _⟩
      have hev' : ev ∈ (s.watch 0).undelivered (s.obs.follow resp) (s.etcd.commit ops).log := hev
      rw [Store.commit_log, undelivered_append hsent] at hev'
      rcases List.mem_append.mp hev' with hold | hnew
      · exact h.events _ hreq ev hold
      -- a new event has a new revision
      · have hnew' := ((mem_events rfl).mp hnew).1
        rw [s.etcd.newEvents_revision_eq ops hnew']
        omega
  | told n resp c' hone hsent hview =>
    have hpart := congrArg View.participants hview
    have hevents := h.events _ hone
    refine ⟨hseen, ?_, h.revision, ?_⟩
    · intro kv hkv
      rw [show c'.participants = _ from hpart, observe_find?] at hkv
      split at hkv
      · exact h.entry kv hkv
      · rename_i ev hlast
        rcases left_some hkv with ⟨_, rfl⟩
        exact hevents ev (List.mem_of_mem_take (lastFor_some hlast).1)
    · intro req hreq ev hev
      have hreq' : req = s.obs.follow resp := by
        have hlist : [req] = [s.obs.follow resp] := by
          rw [← hone, ← show c'.requests = [req] from hreq]
          exact hreqs
        simpa using hlist
      subst hreq'
      have hev' : ev ∈ ((s.obs.follow resp).events s.etcd.log).drop ((s.watch 0).sent + n) := by
        have hupd : ev ∈ (Function.update s.watch 0 (watchSent (s.watch 0) n false 0) 0).undelivered
          (s.obs.follow resp) s.etcd.log := hev
        rw [Function.update_self] at hupd
        exact hupd
      refine hevents ev ?_
      unfold WatchState.undelivered
      rw [← List.drop_drop] at hev'
      exact List.mem_of_mem_drop hev'

theorem Floor.run {r m : Int} (h : Floor r m s)
    (hreach : Observed.machine.Reachable Observed.Undisturbed s)
    (hrun : Observed.machine.Run Observed.Undisturbed s s') : Floor r m s' := by
  refine hrun.invariant_of (fun s => tracks) ?_ hreach h
  intro s a s' ht ih hok hstep
  exact ih.step ht hok hstep

/-! ## What an answer with an untouched node leaves -/

/-- The watch, if there is one, follows an answer with an untouched node. -/
def Steady (s : Observed) : Prop :=
  ∀ resp, s.obs.discovered = some resp → s.obs.requests = [] ∨ Untouched resp

/-- Then no event to come is older than what the view holds. -/
theorem floor_of_steady (ht : Tracks s) (hs : Steady s) {r : Int} {kv : KeyValue}
    (hkv : s.obs.participants.find? r = some kv) : Floor r kv.modRevision s := by
  cases hd : s.obs.discovered with
  | none =>
    rw [(ht.before hd).1] at hkv
    cases hkv
  | some resp =>
    have hfound := ht.found resp hd
    -- the node of the answer is a node of the store at that time
    have hanswer : ∀ kv, (firstView resp).find? r = some kv →
        kv ∈ s.etcd.kvsAt resp.revision ∧ startRevision resp = kv.createRevision ∧
          kv ∈ resp.kvs := by
      intro kv hfind
      rcases firstView_find? hfind with ⟨rest, hkvs, _⟩
      rcases hfound.kvs with ⟨hnil, _⟩ | ⟨first, hone, hmem, _⟩
      · rw [hnil] at hkvs
        cases hkvs
      · rw [hone] at hkvs
        cases hkvs
        exact ⟨hmem, by simp [startRevision, hone], by simp [hone]⟩
    have hle : ∀ kv, (firstView resp).find? r = some kv → kv.modRevision ≤ s.etcd.revision := by
      intro kv hfind
      have hb := s.etcd.kvsAt_bounded resp.revision kv (hanswer kv hfind).1
      have hrev := hfound.revision
      omega
    refine ⟨by simp [hd], ?_, ?_, ?_⟩
    · intro kv' hkv'
      rw [hkv] at hkv'
      cases hkv'
      exact le_refl _
    · rcases ht.after resp hd with ⟨_, hview⟩ | ⟨_, _, hview⟩
      · rw [hview] at hkv
        exact hle kv hkv
      · rw [hview, observe_find?] at hkv
        split at hkv
        · exact hle kv hkv
        · rename_i ev hlast
          rcases left_some hkv with ⟨_, rfl⟩
          have hmem := List.mem_of_mem_take (lastFor_some hlast).1
          exact (s.etcd.bounded ev ((mem_events rfl).mp hmem).1).2
    · intro req hreq ev hev
      rcases ht.after resp hd with ⟨hnil, _⟩ | ⟨hone, _, hview⟩
      · rw [hnil] at hreq
        cases hreq
      rw [hone] at hreq
      cases hreq
      have hevmem : ev ∈ (s.obs.follow resp).events s.etcd.log := List.mem_of_mem_drop hev
      rw [hview, observe_find?] at hkv
      split at hkv
      · rcases hanswer kv hkv with ⟨_, hstart, hmem⟩
        rcases hs resp hd with hnil | hun
        · rw [hnil] at hone
          cases hone
        · rw [hun kv hmem, ← hstart]
          exact ((mem_events rfl).mp hevmem).2.2
      -- an event that was delivered comes before one that was not
      · rename_i ev' hlast
        rcases left_some hkv with ⟨_, rfl⟩
        have hord : ((s.obs.follow resp).events s.etcd.log).Pairwise
            fun a b => a.revision ≤ b.revision := by
          rw [follow_events]
          exact s.etcd.ordered.sublist List.filter_sublist
        rw [← List.take_append_drop (s.watch 0).sent ((s.obs.follow resp).events s.etcd.log)]
          at hord
        exact (List.pairwise_append.mp hord).2.2 ev' (lastFor_some hlast).1 ev hev

namespace Observed

/-- Nothing disturbs the observer, and the node that its Range finds was not updated
since its creation. An observer under destruction starts no watch. -/
def Fresh (s : Observed) (a : Act) : Prop :=
  s.Undisturbed a ∧
  match a with
  | .client (.complete (.range _ (some resp) _ _)) =>
    s.obs.ops.shutdown = true ∨ Untouched resp
  | _ => True

instance (s : Observed) (a : Act) : Decidable (s.Fresh a) := by
  unfold Fresh
  split <;> infer_instance

end Observed

theorem Steady.step {a : Observed.Act} (h : Steady s) (ht : Tracks s) (hok : s.Fresh a)
    (hstep : s.step a = some s') : Steady s' := by
  by_cases hseen : s.obs.discovered = none
  swap
  · rcases (ht.followed hseen hok.1 hstep).keeps with ⟨hdisc, hreqs⟩
    unfold Steady
    rw [hdisc, hreqs]
    exact h
  -- until then a step that keeps the view finds nothing
  · have hkeep : ∀ c' : Observer, c'.view = s.obs.view → Steady { s with obs := c' } := by
      intro c' hview resp hresp
      have hnone : c'.discovered = none := (congrArg View.discovered hview).trans hseen
      rw [show c'.discovered = some resp from hresp] at hnone
      cases hnone
    cases Observed.step_cases hstep with
    | write ops => exact h
    | range req c' o hact =>
      cases act_cases hact with
      | quiet _ hq => exact hkeep c' hq.view
      | answered _ _ hmem heq =>
        subst heq
        exact hkeep _ rfl
    | deliver id n canceled compactRevision req c' o hreq hlive hn hact =>
      rcases ht.request hreq with ⟨_, resp, hresp, _⟩
      rw [hseen] at hresp
      cases hresp
    | client a c' o hcl hact =>
      cases act_cases hact with
      | quiet _ hq => exact hkeep c' hq.view
      | startedAgain hst =>
        rw [show s.obs.started = false from hok.1] at hst
        cases hst
      | answered req resp hmem heq => cases hcl
      | ranged req resp ok status hmem hwf heq =>
        obtain ⟨rfl, hst⟩ : ok = true ∧ status.ok = true := hok.1
        rcases Option.isSome_iff_exists.mp (hwf rfl hst) with ⟨found, rfl⟩
        subst heq
        have hview := ht.ranged_view hmem hst
        intro resp hresp
        have heq : found = resp := Option.some.inj ((congrArg View.discovered hview).symm.trans hresp)
        subst heq
        rcases hok.2 with hshut | hun
        · left
          have hreqs := congrArg View.requests hview
          refine hreqs.trans ?_
          simp [requested, hshut, (ht.before hseen).2]
        · exact Or.inr hun
      | read ok resp hmem heq =>
        cases ok with
        | true => cases hcl
        | false =>
          subst heq
          exact hkeep _ rfl

theorem steady (h : Observed.machine.Reachable Observed.Fresh s) : Steady s := by
  refine h.invariant_of (fun s hs => tracks (hs.mono fun _ _ hok => hok.1)) ?_ ?_
  · rintro _ ⟨name, revision, hpos, rfl⟩ resp hresp
    simp [Observed.init, Observer.init] at hresp
  · intro s a s' ht ih hok hstep
    exact ih.step ht hok hstep

/-- After the answer, `Steady` stays for ever. -/
theorem Steady.run (h : Steady s) (hseen : s.obs.discovered ≠ none)
    (hreach : Observed.machine.Reachable Observed.Undisturbed s)
    (hrun : Observed.machine.Run Observed.Undisturbed s s') :
    Steady s' ∧ s'.obs.discovered ≠ none := by
  have hstep : ∀ s a s', Tracks s → Steady s ∧ s.obs.discovered ≠ none →
      s.Undisturbed a → Observed.machine.step s a = some s' →
      Steady s' ∧ s'.obs.discovered ≠ none := by
    intro s a s' ht ih hok hstep
    rcases (ht.followed ih.2 hok hstep).keeps with ⟨hdisc, hreqs⟩
    unfold Steady
    rw [hdisc, hreqs]
    exact ih
  exact hrun.invariant_of (fun s => tracks) hstep hreach ⟨h, hseen⟩

theorem notBack_of_steady (hs : Steady s)
    (hreach : Observed.machine.Reachable Observed.Undisturbed s)
    (hrun : Observed.machine.Run Observed.Undisturbed s s') : NotBack s.obs s'.obs := by
  have ht := tracks hreach
  have ht' := tracks (hreach.run hrun)
  refine notBack_of_find? (fun kv => ht.leader_find?) (fun kv => ht'.leader_find?) ?_
  intro r kv kv' hkv hkv'
  exact ((floor_of_steady ht hs hkv).run hreach hrun).entry kv' hkv'

/-! ## What an answer with an updated node leads to -/

theorem createWatcher_posts {c : Observer} (h : c.ops.shutdown = false) (rev : Int) :
    .watchCreate (c.watcherRequest rev) ∈ (c.createWatcher rev).pending ∧
    (c.createWatcher rev).ops.shutdown = false := by
  unfold createWatcher
  rw [if_neg (by simp [h])]
  constructor
  · exact Multiset.mem_cons_self _ _
  · rw [AsyncOpCounter.asyncOpStart_shutdown]
    exact h

theorem reportElectionLeader_ops (c : Observer) (kv : KeyValue) :
    (c.reportElectionLeader kv).ops = c.ops := by
  simp only [reportElectionLeader]
  split <;> rfl

/-- `on_range_request()` posts the request for the watch. -/
theorem onRangeRequest_posts {c : Observer} (h : c.ops.shutdown = false) (resp : RangeResponse) :
    .watchCreate (c.follow resp) ∈ (c.onRangeRequest true resp).1.pending ∧
    (c.onRangeRequest true resp).1.ops.shutdown = false := by
  unfold onRangeRequest follow startRevision
  simp only [Bool.not_true, Bool.false_eq_true, if_false]
  cases resp.kvs with
  | nil => exact createWatcher_posts (c := { c with discovered := some resp }) h resp.revision
  | cons kv rest =>
    have hposts := createWatcher_posts (c := { c with discovered := some resp }) h kv.createRevision
    dsimp only
    split
    · exact hposts
    · rw [reportElectionLeader_pending, reportElectionLeader_ops]
      exact hposts

/-- What the answer to the first query leaves: the view of it, and a watch to create. -/
theorem follows {req : RangeRequest} {status : Status} (ht : Tracks s)
    (hmem : .range req (some resp) ∈ s.obs.pending) (hst : status.ok = true)
    (hlive : s.obs.ops.shutdown = false) {d : Observer}
    (hd : d = (s.obs.handle (.range req (some resp) true status)).1) :
    d.participants = firstView resp ∧ d.requests = [s.obs.follow resp] ∧
    .watchCreate (s.obs.follow resp) ∈ d.pending ∧ d.ops.shutdown = false := by
  have hhandle : (s.obs.handle (.range req (some resp) true status)).1 =
      ((s.obs.taken (.range req (some resp))).onRangeRequest true resp).1 := by
    simp [handle, body, hst, taken, enter, asyncOpDone, Completion.op]
  have hposts := onRangeRequest_posts (c := s.obs.taken (.range req (some resp))) hlive resp
  rw [← hhandle, ← hd] at hposts
  have hview := ht.ranged_view hmem hst
  rw [← hd] at hview
  have hreqs := (ht.before (ht.first hmem).1).2
  refine ⟨congrArg View.participants hview, ?_, hposts⟩
  refine (congrArg View.requests hview).trans ?_
  simp [requested, hreqs, hlive, follow]

/-- Once the request for a watch is written, a read is posted. -/
theorem run_watchCreate {d : Observer} {req : WatchCreateRequest}
    (hmem : .watchCreate req ∈ d.pending) (hlive : d.ops.shutdown = false) :
    ∃ d', Observed.machine.Run Observed.Undisturbed { s with obs := d } { s with obs := d' } ∧
      d'.view = d.view ∧ .watchRead ∈ d'.pending := by
  have hstep := Observed.step_complete (s := { s with obs := d }) (k := .watchCreate req true)
    rfl hmem trivial
  refine ⟨_, .single (.client (.complete (.watchCreate req true))) trivial hstep,
    (quiet_postRead _).view, ?_⟩
  simp [handle, body, onWatchCreate, postRead, asyncOpDone, enter, hlive]

/-- A watch response that ends with a put of a node leaves the node as the put wrote it. -/
theorem run_replay {d : Observer} {req : WatchCreateRequest} {ev : Event} {l₁ l₂ : List Event}
    (hread : .watchRead ∈ d.pending) (hreq : d.requests[0]? = some req)
    (hwatch : (s.watch 0).canceled = false)
    (hleft : (s.watch 0).undelivered req s.etcd.log = l₁ ++ ev :: l₂) (hput : ev.type = .put) :
    ∃ s', Observed.machine.Run Observed.Undisturbed { s with obs := d } s' ∧
      s'.obs.participants.find? ev.node = some ev.kv := by
  have hstep := Observed.step_deliver (s := { s with obs := d }) 0 (l₁.length + 1) false 0 hread
    hreq hwatch (by simp [hleft])
  refine ⟨_, .single (.deliver 0 (l₁.length + 1) false 0) ⟨rfl, rfl⟩ hstep, ?_⟩
  have hview := handle_watchRead_view d (watchResponse (s.watch 0) req s.etcd.log 0
    (l₁.length + 1) false 0) rfl rfl
  have htake : (l₁ ++ ev :: l₂).take (l₁.length + 1) = l₁ ++ [ev] := by simp [List.take_append]
  have hlast : lastFor ev.node (watchResponse (s.watch 0) req s.etcd.log 0
      (l₁.length + 1) false 0).events = some ev := by
    show lastFor ev.node (((s.watch 0).undelivered req s.etcd.log).take (l₁.length + 1)) = some ev
    rw [hleft, htake, lastFor_concat, if_pos rfl]
  rw [show (d.handle _).1.participants = _ from congrArg View.participants hview, observe_find?,
    hlast]
  simp [Event.left, hput]

/-- An answer with an updated node, and a watch that can start: once its creation is
replayed, the node is back at its first value. -/
theorem rewinds {req : RangeRequest} {status : Status} {kv : KeyValue} (ht : Tracks s)
    (hmem : .range req (some resp) ∈ s.obs.pending) (hst : status.ok = true)
    (hlive : s.obs.ops.shutdown = false) (hkv : kv ∈ resp.kvs)
    (hupdated : kv.modRevision ≠ kv.createRevision)
    (hs' : s' = { s with obs := (s.obs.handle (.range req (some resp) true status)).1 }) :
    ∃ s₃, Observed.machine.Run Observed.Undisturbed s' s₃ ∧ ¬ NotBack s'.obs s₃.obs := by
  have hfound := ht.found_of_pending hmem
  obtain ⟨hkvs, hnode, hel⟩ : resp.kvs = [kv] ∧ kv ∈ s.etcd.kvsAt resp.revision ∧
      InElection s.obs.electionName kv.key := by
    rcases hfound.kvs with ⟨hnil, _⟩ | ⟨first, hone, hnode, hel, _⟩
    · rw [hnil] at hkv
      cases hkv
    · rw [hone, List.mem_singleton] at hkv
      subst hkv
      exact ⟨hone, hnode, hel⟩
  have hstart : startRevision resp = kv.createRevision := by simp [startRevision, hkvs]
  -- the events up to the one that created the node
  rcases Store.createdIn_of_kvsAt hfound.revision hnode with
    ⟨ev, hev, hput, hkey, hrev, hcreate⟩
  have hevents : ev ∈ (s.obs.follow resp).events s.etcd.log := by
    refine (mem_events rfl).mpr ⟨(List.mem_filter.mp hev).1, hkey ▸ hel, ?_⟩
    show startRevision resp ≤ ev.revision
    omega
  rcases List.append_of_mem hevents with ⟨l₁, l₂, hsplit⟩
  have hleft : (s.watch 0).undelivered (s.obs.follow resp) s.etcd.log = l₁ ++ ev :: l₂ := by
    have hreqs := (ht.before (ht.first hmem).1).2
    rw [WatchState.undelivered, ht.unsent hreqs, List.drop_zero, hsplit]
  -- the watch is created, and its first response ends with the creation
  subst hs'
  rcases follows ht hmem hst hlive rfl with ⟨hpart, hdreqs, hcreates, hdlive⟩
  rcases run_watchCreate (s := s) hcreates hdlive with ⟨d₁, hrun₁, hview₁, hread⟩
  have hreq₁ : d₁.requests[0]? = some (s.obs.follow resp) := by
    rw [show d₁.requests = _ from congrArg View.requests hview₁]
    show (s.obs.handle (.range req (some resp) true status)).1.requests[0]? = _
    rw [hdreqs]
    rfl
  rcases run_replay hread hreq₁ ht.live hleft hput with ⟨s₃, hrun₂, hnew⟩
  refine ⟨s₃, hrun₁.trans hrun₂, ?_⟩
  intro hback
  have hevnode : ev.node = kv.createRevision := by simp [Event.node, hput, hcreate]
  have hold : (firstView resp).find? kv.createRevision = some kv := by
    rw [firstView, hkvs]
    simp [OrdMap.find?_insert]
  have hle := hback.1 kv.createRevision kv ev.kv (hpart ▸ hold) (hevnode ▸ hnew)
  have hb := s.etcd.kvsAt_bounded resp.revision kv hnode
  have hmod : ev.kv.modRevision = kv.createRevision := hrev
  omega

/-! ## The view never goes back -/

namespace Observed

/-- Where the Range finds an untouched node, or none, no view ever goes back in time. After
an answer, this holds of all runs from there if and only if the answer is such a one. -/
theorem never_back (s s' : Observed) :
    (machine.Reachable Fresh s → machine.Run Fresh s s' → NotBack s.obs s'.obs) ∧
    ∀ req resp ok status, machine.Reachable Undisturbed s →
      s.Undisturbed (.client (.complete (.range req resp ok status))) →
      s.step (.client (.complete (.range req resp ok status))) = some s' →
      ((∀ s₂ s₃, machine.Run Undisturbed s' s₂ → machine.Run Undisturbed s₂ s₃ →
          NotBack s₂.obs s₃.obs) ↔
        s.Fresh (.client (.complete (.range req resp ok status)))) := by
  have hund : ∀ (s : Observed) a, s.Fresh a → s.Undisturbed a := fun _ _ hok => hok.1
  constructor
  · intro hs hrun
    exact notBack_of_steady (steady hs) (hs.mono hund) (hrun.mono hund)
  · intro req resp ok status hs hok hstep
    have ht := tracks hs
    have hs' : machine.Reachable Undisturbed s' := hs.run (.single _ hok hstep)
    obtain ⟨hmem, hwf, hc'⟩ : .range req resp ∈ s.obs.pending ∧
        (Completion.range req resp ok status).WellFormed ∧
        s' = { s with obs := (s.obs.handle (.range req resp ok status)).1 } := by
      cases step_cases hstep with
      | client _ c' o hcl hact =>
        rcases act_complete hact with ⟨hmem, hwf, rfl⟩
        exact ⟨hmem, hwf, rfl⟩
    obtain ⟨rfl, hst⟩ : ok = true ∧ status.ok = true := hok
    rcases Option.isSome_iff_exists.mp (hwf rfl hst) with ⟨found, rfl⟩
    constructor
    · intro hall
      refine ⟨⟨rfl, hst⟩, ?_⟩
      by_contra hcond
      rcases not_or.mp hcond with ⟨hlive, htouched⟩
      -- the answer names a node that was updated
      obtain ⟨kv, hkv, hupdated⟩ : ∃ kv ∈ found.kvs, kv.modRevision ≠ kv.createRevision := by
        simpa [Untouched] using htouched
      rcases rewinds ht hmem hst (by simpa using hlive) hkv hupdated hc' with ⟨s₃, hrun, hback⟩
      exact hback (hall s' s₃ (.refl s') hrun)
    · intro hfresh s₂ s₃ hrun₂ hrun₃
      have hnone := (ht.first hmem).1
      have hsteady : Steady s := by
        intro resp hresp
        rw [hnone] at hresp
        cases hresp
      have hseen : s'.obs.discovered ≠ none := by
        subst hc'
        rw [show Observer.discovered _ = some found from
          congrArg View.discovered (ht.ranged_view hmem hst)]
        simp
      have hsteady₂ := ((hsteady.step ht hfresh hstep).run hseen hs' hrun₂).1
      exact notBack_of_steady hsteady₂ (hs'.run hrun₂) hrun₃

/-- One candidate, with the values it puts at the revisions 2, 3, and so on. -/
def oneCandidate (values : List Bytes) : List Act :=
  values.map fun value => .write [.put [0x2F, 0x61] value 0]

/-- The node of that candidate. -/
def node (value : Bytes) (modRevision : Int) : KeyValue where
  key := [0x2F, 0x61]
  value := value
  createRevision := 2
  modRevision := modRevision

/-- An observer that starts at a revision at which the candidate has some value. -/
def observesAt (value : Bytes) (revision : Int) : List Act :=
  let c := Observer.init []
  startupActs c.discoverRequest { revision := revision, kvs := [node value revision] }
    (c.watcherRequest 2)

/-- A node that is updated only after the observer has started: the view follows, and from
the answer to the Range on it never goes back. -/
theorem never_back_untouched :
    (∃ s s', machine.Reachable Fresh s ∧ machine.Run Fresh s s' ∧
      s.obs.leader = some (node [1] 2) ∧ s'.obs.leader = some (node [2] 3) ∧
      NotBack s.obs s'.obs) ∧
    ∃ s s' req resp ok status, machine.Reachable Undisturbed s ∧
      s.step (.client (.complete (.range req resp ok status))) = some s' ∧
      ∀ s₂ s₃, machine.Run Undisturbed s' s₂ → machine.Run Undisturbed s₂ s₃ →
        NotBack s₂.obs s₃.obs := by
  constructor
  · rcases reachable_of_execIf machine (fun s a => decide (s.Fresh a)) (init [] 1 le_rfl)
      (oneCandidate [[1]] ++ observesAt [1] 2 ++ oneCandidate [[2]])
      (fun s => (machine.execIf (fun s a => decide (s.Fresh a)) s [.deliver 0 2 false 0]).any
        fun (s' : Observed) => decide (s.obs.leader = some (node [1] 2)) &&
          decide (s'.obs.leader = some (node [2] 3)))
      (fun _ _ => of_decide_eq_true) ⟨_, _, _, rfl⟩ (by decide) with ⟨s, hreach, hcheck⟩
    simp only [Option.any_eq_true, Bool.and_eq_true, decide_eq_true_eq] at hcheck
    rcases hcheck with ⟨s', hexec, hlead, hlead'⟩
    have hrun : machine.Run Fresh s s' := run_of_execIf (fun _ _ => of_decide_eq_true) hexec
    exact ⟨s, s', hreach, hrun, hlead, hlead', (never_back s s').1 hreach hrun⟩
  · let req := (Observer.init []).discoverRequest
    let resp : RangeResponse := { revision := 2, kvs := [node [1] 2] }
    rcases reachable_of_execIf machine (fun s a => decide (s.Undisturbed a)) (init [] 1 le_rfl)
      (oneCandidate [[1]] ++ [.client .startup, .client (.streamCreated true), .serveRange req])
      (fun s => (s.step (.client (.complete (.range req (some resp) true {})))).isSome)
      (fun _ _ => of_decide_eq_true) ⟨_, _, _, rfl⟩ (by decide) with ⟨s, hreach, hcheck⟩
    rcases Option.isSome_iff_exists.mp hcheck with ⟨s', hstep⟩
    refine ⟨s, s', req, some resp, true, {}, hreach, hstep, ?_⟩
    apply ((never_back s s').2 req (some resp) true {} hreach ⟨rfl, rfl⟩ hstep).mpr
    refine ⟨⟨rfl, rfl⟩, Or.inr ?_⟩
    show Untouched { revision := 2, kvs := [node [1] 2] }
    decide

/-- The candidate updates its value before the observer starts: the observer reports the
new value, and when the creation of the node is replayed, the old one. -/
theorem view_goes_back : ∃ s s', machine.Reachable Undisturbed s ∧ machine.Run Undisturbed s s' ∧
    s.obs.currentValue = .ok [2] ∧ s'.obs.currentValue = .ok [1] ∧ ¬ NotBack s.obs s'.obs := by
  rcases reachable_of_execIf machine (fun s a => decide (s.Undisturbed a)) (init [] 1 le_rfl)
    (oneCandidate [[1], [2]] ++ observesAt [2] 3)
    (fun s => (machine.execIf (fun s a => decide (s.Undisturbed a)) s [.deliver 0 1 false 0]).any
      fun (s' : Observed) => decide (s.obs.leader = some (node [2] 3)) &&
        decide (s'.obs.leader = some (node [1] 2)))
    (fun _ _ => of_decide_eq_true) ⟨_, _, _, rfl⟩ (by decide) with ⟨s, hreach, hcheck⟩
  simp only [Option.any_eq_true, Bool.and_eq_true, decide_eq_true_eq] at hcheck
  rcases hcheck with ⟨s', hexec, hlead, hlead'⟩
  refine ⟨s, s', hreach, run_of_execIf (fun _ _ => of_decide_eq_true) hexec, ?_, ?_, ?_⟩
  · rw [currentValue, hlead]
    rfl
  · rw [currentValue, hlead']
    rfl
  · intro hback
    have hle := hback.2 _ _ hlead hlead' rfl
    exact absurd hle (by decide)

end Observed

end GeeH.Observer
