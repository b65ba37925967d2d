import GeeH.Observer.Tracking

/-!
# GeeH.Observer.Refinement — the view of an observer is the content of etcd

The observer starts from the oldest node alone and replays the history from
its creation on. That is enough: whatever is present later was created since,
so its creation is replayed, and for each node the last event replayed is the
last one of the history (`lastFor_replayed`). What the Range put into the view
is replayed as well, and so makes no difference.

Writers put one key per transaction here (`Orderly`); a create revision then
stands for one key.
-/

namespace GeeH.Observer

open Etcd Machine

variable {e : Store} {s s' : Observed} {name : Bytes} {resp : RangeResponse} {rev : Int}

/-! ## The last event wins -/

theorem handleEvent_find? (p : Participants) (ev : Event) (r : Int) :
    (handleEvent p ev).1.find? r = if ev.node = r then ev.left else p.find? r := by
  unfold handleEvent Event.node Event.left
  cases ev.type with
  | put =>
    simp only [handleNodePut_fst]
    rw [OrdMap.find?_insert]
    simp only [eq_comm]
  | delete =>
    simp only [handleNodeDelete]
    by_cases hr : ev.prevKv.createRevision = r
    · subst hr
      cases hfind : p.find? ev.prevKv.createRevision with
      | none => simp [hfind]
      | some kv => simp [OrdMap.find?_erase]
    · cases hfind : p.find? ev.prevKv.createRevision with
      | none => simp [hr]
      | some kv => simp [OrdMap.find?_erase, hr, Ne.symm hr]

/-- What a view holds under a create revision is decided by the last event about it. -/
theorem observe_find? (p : Participants) (events : List Event) (r : Int) :
    (observe p events).find? r =
      match lastFor r events with
      | none => p.find? r
      | some ev => ev.left := by
  induction events using List.reverseRecOn with
  | nil => rfl
  | append_singleton events ev ih =>
    rw [observe_append, lastFor_concat]
    show (handleEvent (observe p events) ev).1.find? r = _
    rw [handleEvent_find?, ih]
    by_cases h : ev.node = r
    · simp [h]
    · simp [h]

theorem firstView_find? {r : Int} {kv : KeyValue} (h : (firstView resp).find? r = some kv) :
    ∃ rest, resp.kvs = kv :: rest ∧ kv.createRevision = r := by
  unfold firstView at h
  split at h
  · simp at h
  · rename_i kv' rest hkvs
    rw [OrdMap.find?_insert] at h
    split at h
    · rename_i hr
      cases h
      exact ⟨rest, hkvs, hr.symm⟩
    · simp at h

/-! ## What the watch replays -/

/-- The events of the election from a revision on, up to another one. -/
def replayed (e : Store) (name : Bytes) (start rev : Int) : List Event :=
  (e.logAt rev).filter fun ev => InElection name ev.kv.key ∧ start ≤ ev.revision

theorem mem_replayed {start : Int} {ev : Event} :
    ev ∈ replayed e name start rev ↔
      ev ∈ e.logAt rev ∧ InElection name ev.kv.key ∧ start ≤ ev.revision := by
  simp [replayed]

/-- The last event replayed for a node is the last one there is. -/
theorem lastFor_replayed {start r : Int} {ev : Event} (hone : OnePut e.log)
    (h : lastFor r (replayed e name start rev) = some ev) :
    lastFor r (e.logAt rev) = some ev := by
  rcases lastFor_some h with ⟨hmem, rfl⟩
  rcases mem_replayed.mp hmem with ⟨hlog, hel, hstart⟩
  have hlegal := e.logAt_legal rev
  rcases revision_le_lastFor (e.ordered.sublist List.filter_sublist) hlog with ⟨last, hlast, hle⟩
  rcases lastFor_some hlast with ⟨hlastmem, hnode⟩
  -- both events are about one key, so the watch is interested in the later one, too
  have hkey : last.kv.key = ev.kv.key := by
    have hcr := created_of_mem hlegal hlastmem
    rw [hnode] at hcr
    exact createdIn_key (Store.logAt_onePut hone rev) hcr (created_of_mem hlegal hlog)
  have hsel : InElection name last.kv.key ∧ start ≤ last.revision := by
    rw [hkey]
    exact ⟨hel, by omega⟩
  have hfilter := lastFor_filter (fun ev => InElection name ev.kv.key ∧ start ≤ ev.revision) hlast
    (by simpa using hsel)
  rw [← h]
  exact hlast.trans hfilter.symm

/-- The creation of a node that is young enough is replayed. -/
theorem replayed_of_created {start r : Int} {k : Bytes} (hel : InElection name k)
    (hcr : CreatedIn (e.logAt rev) k r) (hstart : start ≤ r) :
    lastFor r (replayed e name start rev) ≠ none := by
  rcases hcr with ⟨ev, hmem, hput, rfl, hrev, hcreate⟩
  intro hnone
  have hnode : ev.node = r := by simp [Event.node, hput, hcreate]
  refine lastFor_none.mp hnone ev (mem_replayed.mpr ⟨hmem, hel, ?_⟩) hnode
  omega

/-- After the answer, no node of the election is older than the start of the watch. -/
theorem Found.start_le (h : Found e name resp) (hle : resp.revision ≤ rev) :
    ∀ kv ∈ e.kvsAt rev, InElection name kv.key → startRevision resp ≤ kv.createRevision := by
  intro kv hkv hel
  rcases h.kvs with ⟨hnil, hnone⟩ | ⟨first, hone, hmem, _, hmin⟩
  · rw [show startRevision resp = resp.revision by simp [startRevision, hnil]]
    rcases Store.node_kvsAt hle kv hkv with ⟨old, hold, hkey, _⟩ | hnew
    · exact absurd (hkey ▸ hel) (hnone old hold)
    · omega
  · rw [show startRevision resp = first.createRevision by simp [startRevision, hone]]
    rcases Store.node_kvsAt hle kv hkv with ⟨old, hold, hkey, hcr⟩ | hnew
    · rw [← hcr]
      exact hmin old hold (hkey ▸ hel)
    · have := e.kvsAt_bounded resp.revision first hmem
      omega

/-- Replaying the history from there on rebuilds the election. -/
theorem observe_replayed (hone : OnePut e.log) (h : Found e name resp)
    (hle : resp.revision ≤ rev) (r : Int) (kv : KeyValue) :
    (observe (firstView resp) (replayed e name (startRevision resp) rev)).find? r = some kv ↔
      kv ∈ e.kvsAt rev ∧ InElection name kv.key ∧ kv.createRevision = r := by
  have hlegal := e.logAt_legal rev
  have hpresent : ∀ kv, kv ∈ e.kvsAt rev ↔
      ∃ ev, lastFor kv.createRevision (e.logAt rev) = some ev ∧ ev.type = .put ∧ ev.kv = kv :=
    leftByLast hlegal (Store.logAt_onePut hone rev)
  rw [observe_find?]
  cases hlast : lastFor r (replayed e name (startRevision resp) rev) with
  | none =>
    -- neither the answer nor the store has a node that was created at `r`
    constructor
    · intro hfirst
      rcases firstView_find? hfirst with ⟨rest, hkvs, rfl⟩
      rcases h.kvs with ⟨hnil, _⟩ | ⟨first, hfound, hmem, hel, _⟩
      · rw [hnil] at hkvs
        cases hkvs
      · rw [hfound] at hkvs
        cases hkvs
        refine absurd hlast (replayed_of_created hel (Store.createdIn_of_kvsAt hle hmem) ?_)
        simp [startRevision, hfound]
    · rintro ⟨hmem, hel, rfl⟩
      refine absurd hlast (replayed_of_created hel (Store.createdIn_of_kvsAt le_rfl hmem) ?_)
      exact h.start_le hle kv hmem hel
  | some ev =>
    have hstore := lastFor_replayed hone hlast
    have hmem := mem_replayed.mp (lastFor_some hlast).1
    constructor
    · intro hleft
      have hput := left_some hleft
      have hr : kv.createRevision = r := by
        rw [← (lastFor_some hlast).2, ← hput.2]
        simp [Event.node, hput.1]
      refine ⟨(hpresent kv).mpr ⟨ev, hr ▸ hstore, hput⟩, ?_, hr⟩
      rw [← hput.2]
      exact hmem.2.1
    · rintro ⟨hkv, _, rfl⟩
      rcases (hpresent kv).mp hkv with ⟨ev', hev', hput, rfl⟩
      rw [hstore] at hev'
      cases hev'
      simp [Event.left, hput]

/-! ## Orderly runs -/

namespace Observed

/-- Nothing disturbs the observer, and a transaction puts at most one key. -/
def Orderly (s : Observed) (a : Act) : Prop :=
  s.Undisturbed a ∧
  match a with
  | .write ops => SinglePut ops
  | _ => True

theorem onePut (h : machine.Reachable Orderly s) : OnePut s.etcd.log := by
  refine Reachable.invariant ?_ ?_ h
  · rintro _ ⟨name, revision, hpos, rfl⟩
    exact List.Pairwise.nil
  · intro s a s' ih hok hstep
    cases step_cases hstep with
    | write ops => exact Store.onePut_commit ih hok.2
    | client => exact ih
    | range => exact ih
    | deliver => exact ih

/-- The observer has processed the events of its watch up to a revision. -/
def Processed (s : Observed) (rev : Int) : Prop :=
  match s.obs.requests[0]? with
  | none => False
  | some req =>
    (s.watch 0).sent = ((req.events s.etcd.log).filter fun ev => ev.revision ≤ rev).length

instance (s : Observed) : DecidablePred s.Orderly
  | .write ops => inferInstanceAs (Decidable (_ ∧ SinglePut ops))
  | .client _ | .serveRange _ | .deliver _ _ _ _ => inferInstanceAs (Decidable (_ ∧ True))

instance (s : Observed) (rev : Int) : Decidable (s.Processed rev) := by
  unfold Processed
  split <;> infer_instance

end Observed

/-- The watch of the observer reports the events of the election as they are. -/
theorem watcher_events (c : Observer) (start : Int) (log : List Event) :
    (c.watcherRequest start).events log =
      log.filter fun ev => InElection c.electionName ev.kv.key ∧ start ≤ ev.revision := by
  have hreport : (c.watcherRequest start).report = id := by
    funext ev
    rfl
  unfold WatchCreateRequest.events
  rw [hreport, List.map_id]
  rfl

theorem follow_events (c : Observer) (resp : RangeResponse) (log : List Event) :
    (c.follow resp).events log =
      log.filter fun ev => InElection c.electionName ev.kv.key ∧ startRevision resp ≤ ev.revision :=
  watcher_events c (startRevision resp) log

theorem take_events (e : Store) (c : Observer) (resp : RangeResponse) (rev : Int) :
    ((c.follow resp).events e.log).take
        (((c.follow resp).events e.log).filter fun ev => ev.revision ≤ rev).length =
      replayed e c.electionName (startRevision resp) rev := by
  rw [follow_events, take_at_revision (e.ordered.sublist List.filter_sublist)]
  unfold replayed Store.logAt
  rw [List.filter_filter, List.filter_filter]
  refine List.filter_congr fun ev _ => ?_
  rw [Bool.and_comm]

/-- What the observer holds once it has processed the events up to a revision. -/
theorem participants_processed (h : Tracks s) (hresp : s.obs.discovered = some resp)
    (hp : s.Processed rev) :
    s.obs.participants = observe (firstView resp)
      (replayed s.etcd s.obs.electionName (startRevision resp) rev) := by
  unfold Observed.Processed at hp
  rcases h.after resp hresp with ⟨hnil, _⟩ | ⟨hone, _, hview⟩
  · rw [hnil] at hp
    cases hp
  · have hsent : (s.watch 0).sent = (((s.obs.follow resp).events s.etcd.log).filter
        fun ev => ev.revision ≤ rev).length := by
      rw [hone] at hp
      exact hp
    rw [hview, told, hsent, take_events]

/-! ## The leader -/

theorem leader_eq_none {c : Observer} :
    c.leader = none ↔ ∀ r, c.participants.find? r = none := by
  rw [← OrdMap.first?_eq_none]
  exact Option.map_eq_none_iff

/-- The node of the view with the smallest create revision is the leader. -/
theorem leader_eq_some {c : Observer} {r : Int} {kv : KeyValue}
    (hkv : c.participants.find? r = some kv)
    (hmin : ∀ r' kv', c.participants.find? r' = some kv' → r ≤ r') : c.leader = some kv := by
  unfold leader
  rw [OrdMap.first?_eq_some.mpr ⟨hkv, hmin⟩]
  rfl

namespace Observed

/-- The nodes of the observed election that are present at a revision. -/
def Present (s : Observed) (rev : Int) (kv : KeyValue) : Prop :=
  kv ∈ s.etcd.kvsAt rev ∧ InElection s.obs.electionName kv.key

/-- The oldest of them. -/
def Leads (s : Observed) (rev : Int) (kv : KeyValue) : Prop :=
  s.Present rev kv ∧ ∀ kv', s.Present rev kv' → kv.createRevision ≤ kv'.createRevision

/-- Once the observer has processed the events up to a revision, not older than that of
the answer to its Range, its view is the election as it is at that revision. -/
theorem view_refines (h : machine.Reachable Orderly s) (hresp : s.obs.discovered = some resp)
    (hle : resp.revision ≤ rev) (hp : s.Processed rev) :
    (∀ r kv, s.obs.participants.find? r = some kv ↔
      s.Present rev kv ∧ kv.createRevision = r) ∧
    (s.obs.hasLeader = true ↔ ∃ kv, s.Present rev kv) ∧
    ∀ kv, s.Leads rev kv →
      s.obs.currentKey = .ok kv.key ∧ s.obs.currentValue = .ok kv.value := by
  have htracks := tracks (h.mono fun _ _ hok => hok.1)
  have hview : ∀ r kv, s.obs.participants.find? r = some kv ↔
      s.Present rev kv ∧ kv.createRevision = r := by
    intro r kv
    rw [participants_processed htracks hresp hp,
      observe_replayed (onePut h) (htracks.found resp hresp) hle, Present, and_assoc]
  refine ⟨hview, ?_, ?_⟩
  · unfold hasLeader
    rw [Option.isSome_iff_ne_none, ne_eq, leader_eq_none]
    constructor
    · intro hsome
      by_contra hnone
      refine hsome fun r => Option.eq_none_iff_forall_ne_some.mpr ?_
      intro kv hkv
      exact hnone ⟨kv, ((hview r kv).mp hkv).1⟩
    · rintro ⟨kv, hkv⟩ hnone
      have hfind := (hview kv.createRevision kv).mpr ⟨hkv, rfl⟩
      rw [hnone] at hfind
      cases hfind
  · rintro kv ⟨hkv, hmin⟩
    have hlead : s.obs.leader = some kv := by
      apply leader_eq_some ((hview kv.createRevision kv).mpr ⟨hkv, rfl⟩)
      intro r' kv' hkv'
      rcases (hview r' kv').mp hkv' with ⟨hpres, rfl⟩
      exact hmin kv' hpres
    unfold currentKey currentValue
    rw [hlead]
    exact ⟨rfl, rfl⟩

/-- Its view is the election at that revision. -/
theorem processed_view (h : machine.Reachable Orderly s) (hresp : s.obs.discovered = some resp)
    (hle : resp.revision ≤ rev) (hp : s.Processed rev) (r : Int) (kv : KeyValue) :
    s.obs.participants.find? r = some kv ↔ s.Present rev kv ∧ kv.createRevision = r := by
  have htracks := tracks (h.mono fun _ _ hok => hok.1)
  rw [participants_processed htracks hresp hp,
    observe_replayed (onePut h) (htracks.found resp hresp) hle, Present, and_assoc]

/-- The leader that it reports is the oldest node of the election at that revision. -/
theorem processed_leader (h : machine.Reachable Orderly s) (hresp : s.obs.discovered = some resp)
    (hle : resp.revision ≤ rev) (hp : s.Processed rev) (kv : KeyValue) :
    s.obs.leader = some kv ↔ s.Leads rev kv := by
  have hview := processed_view h hresp hle hp
  constructor
  · intro hlead
    rcases Option.map_eq_some_iff.mp hlead with ⟨⟨r, kv'⟩, hfirst, rfl⟩
    rcases OrdMap.first?_eq_some.mp hfirst with ⟨hfind, hmin⟩
    rcases (hview r kv').mp hfind with ⟨hpres, rfl⟩
    refine ⟨hpres, fun other hother => ?_⟩
    exact hmin _ other ((hview _ other).mpr ⟨hother, rfl⟩)
  · rintro ⟨hpres, hmin⟩
    refine leader_eq_some ((hview kv.createRevision kv).mpr ⟨hpres, rfl⟩) ?_
    intro r' kv' hkv'
    rcases (hview r' kv').mp hkv' with ⟨hpres', rfl⟩
    exact hmin kv' hpres'

/-- The steps of `startup()`, with the answer to the Range, up to the first read. -/
def startupActs (req : RangeRequest) (resp : RangeResponse) (watch : WatchCreateRequest) :
    List Act :=
  [.client .startup, .client (.streamCreated true), .serveRange req,
    .client (.complete (.range req (some resp) true {})),
    .client (.complete (.watchCreate watch true))]

/-- Two candidates: the first updates its value before the observer starts, and leaves
afterwards. -/
def firstLeaves : List Act :=
  let c := Observer.init []
  let first : KeyValue :=
    { key := [0x2F, 0x61], value := [2], createRevision := 2, modRevision := 3 }
  [.write [.put [0x2F, 0x61] [1] 0], .write [.put [0x2F, 0x61] [2] 0],
    .write [.put [0x2F, 0x62] [3] 0]] ++
  startupActs c.discoverRequest { revision := 4, kvs := [first] } (c.watcherRequest 2) ++
  [.write [.deleteRange [0x2F, 0x61]], .deliver 0 1 false 0, .deliver 0 3 false 0]

/-- The node of the second one. -/
def second : KeyValue where
  key := [0x2F, 0x62]
  value := [3]
  createRevision := 4
  modRevision := 4

/-- The observer then sees the second one lead. -/
theorem view_refines_second : ∃ s : Observed, machine.Reachable Orderly s ∧
    s.Processed 5 ∧ s.obs.hasLeader = true ∧ s.obs.currentKey = .ok [0x2F, 0x62] := by
  rcases reachable_of_execIf machine (fun s a => decide (s.Orderly a)) (init [] 1 le_rfl)
    firstLeaves (fun s => decide (s.Processed 5) && decide (s.obs.electionName = []) &&
      decide (s.etcd.kvsAt 5 = [second]) &&
      s.obs.discovered.any fun (resp : RangeResponse) => decide (resp.revision ≤ 5))
    (fun _ _ => of_decide_eq_true) ⟨_, _, _, rfl⟩ (by decide) with ⟨s, hreach, hcheck⟩
  simp only [Bool.and_eq_true, decide_eq_true_eq, Option.any_eq_true] at hcheck
  rcases hcheck with ⟨⟨⟨hp, hname⟩, hkvs⟩, resp, hresp, hle⟩
  rcases view_refines hreach hresp hle hp with ⟨_, hleader, hcurrent⟩
  have hpresent : ∀ kv, s.Present 5 kv ↔ kv = second := by
    intro kv
    unfold Present
    rw [hkvs, hname, List.mem_singleton]
    constructor
    · intro hkv
      exact hkv.1
    · rintro rfl
      exact ⟨rfl, by decide⟩
  refine ⟨s, hreach, hp, hleader.mpr ⟨second, (hpresent second).mpr rfl⟩, ?_⟩
  refine (hcurrent second ⟨(hpresent second).mpr rfl, ?_⟩).1
  intro kv hkv
  rw [(hpresent kv).mp hkv]

end Observed

end GeeH.Observer
