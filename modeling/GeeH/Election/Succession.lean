import GeeH.Candidate.Progress
import GeeH.Election.Watches

/-!
# GeeH.Election.Succession — no wake-up is lost

Runs in which operations complete with ok and OK status and no watch is
canceled. A campaigning candidate is then always in one of three phases
(`Phase`): it asks for its predecessor, it waits for the deletion of its
predecessor, or it leads. What the phases say about the store survives every
write: the predecessor is still the predecessor, or the event of its deletion
is on its way to the candidate.
-/

namespace GeeH.Election

open Etcd Machine Candidate

universe u

variable {e : Store} {c c' : Candidate} {w : Nat → WatchState} {k : Bytes}

/-! ## The predecessor -/

/-- The node at `k` is the youngest of those older than the candidate's. -/
def Predecessor (e : Store) (c : Candidate) (k : Bytes) : Prop :=
  ∃ kv ∈ e.kvs, kv.key = k ∧ InElection c.electionName k ∧
    kv.createRevision < c.creationRevision ∧
    ∀ kv' ∈ e.kvs, InElection c.electionName kv'.key →
      kv'.createRevision < c.creationRevision → kv'.createRevision ≤ kv.createRevision

/-- The event of the deletion of the node at a key, as a watch on it reports it. -/
def Deletes (k : Bytes) (ev : Event) : Prop :=
  ev.type = .delete ∧ ev.kv.key = k ∧ ev.prevKv.key = k

/-- A write leaves the predecessor in place, or deletes it and says so. -/
theorem Predecessor.commit (h : Predecessor e c k) (hr : Issued e c.creationRevision)
    (ops : List RequestOp) :
    Predecessor (e.commit ops) c k ∨ ∃ ev ∈ e.newEvents ops, Deletes k ev := by
  rcases h with ⟨kv, hkv, hkey, hel, hlt, hmax⟩
  have hnode : e.HasNode k kv.createRevision := ⟨kv, hkv, hkey, rfl⟩
  rcases Store.hasNode_commit_or_deleted ops hnode with ⟨new, hnew, hk, hcr⟩ | hdel
  · left
    refine ⟨new, hnew, hk, hel, by omega, ?_⟩
    intro kv' hkv' hel' hlt'
    -- a node that old was there before the write
    have hnode' : (e.commit ops).HasNode kv'.key kv'.createRevision := ⟨kv', hkv', rfl, rfl⟩
    rcases Store.hasNode_of_commit hnode' with ⟨old, hold, hkold, hcrold⟩ | hfresh
    · have hle := hmax old hold (hkold ▸ hel') (by omega)
      omega
    · have := hr.2
      omega
  · exact Or.inr hdel

/-- The answer to the query of a candidate: no older node, or the predecessor. -/
theorem range_predecessor (hr : 2 ≤ c.creationRevision) :
    ((e.range c.predecessorRequest).kvs = [] ∧ NoOlder e c) ∨
    ∃ kv, (e.range c.predecessorRequest).kvs = [kv] ∧ Predecessor e c kv.key := by
  rcases answer_limit_one c.predecessorRequest rfl e.kvs with
    ⟨hnil, _⟩ | ⟨kv, hans, hkv, hsel, hfirst⟩
  · exact Or.inl ⟨hnil, noOlder_of_range hnil⟩
  · refine Or.inr ⟨kv, hans, kv, hkv, rfl, hsel.1, ?_, ?_⟩
    -- the filter is on: revision 0 would mean no filter
    · have hmax : kv.createRevision ≤ c.creationRevision - 1 := by
        rcases hsel.2 with hzero | hle
        · have hzero' : c.creationRevision - 1 = 0 := hzero
          omega
        · exact hle
      omega
    · intro kv' hkv' hel hlt
      refine hfirst kv' hkv' ⟨hel, Or.inr ?_⟩
      show kv'.createRevision ≤ c.creationRevision - 1
      omega

/-! ## The phases of a campaign -/

/-- What an answer that has not been handled yet still tells. -/
def Tells (e : Store) (c : Candidate) (resp : RangeResponse) : Prop :=
  resp.revision ≤ e.revision ∧
  ((resp.kvs = [] ∧ NoOlder e c) ∨
    ∃ kv, resp.kvs = [kv] ∧ (Predecessor e c kv.key ∨
      ∃ ev ∈ e.log, Deletes kv.key ev ∧ resp.revision ≤ ev.revision))

/-- The node at `k` is the predecessor, or a watch on it has its deletion to report. -/
def Guarded (e : Store) (w : Nat → WatchState) (c : Candidate) (k : Bytes) : Prop :=
  ∃ id rev, c.requests[id]? = some (watchRequest k rev) ∧ rev ≤ e.revision ∧
    (Predecessor e c k ∨
      ∃ ev ∈ (w id).undelivered (watchRequest k rev) e.log, Deletes k ev)

/-- The phases of a campaign. -/
inductive Phase (e : Store) (w : Nat → WatchState) (c : Candidate) : Prop where
  | asking (resp : Option RangeResponse)
      (hpend : c.pending = .queryPredecessor c.predecessorRequest resp ::ₘ 0)
      (hw : c.watchedKeys = ∅) (hel : c.elected = false)
      (htells : ∀ r, resp = some r → Tells e c r)
  | waiting (op : Op) (k : Bytes) (hop : op.isQuery = false) (hpend : c.pending = op ::ₘ 0)
      (hw : c.watchedKeys = {k}) (hel : c.elected = false) (hguard : Guarded e w c k)
  | leading (hpend : c.pending = 0) (hw : c.watchedKeys = ∅) (hel : c.elected = true)
      (hold : NoOlder e c)

theorem predecessor_congr (hname : c'.electionName = c.electionName)
    (hrev : c'.creationRevision = c.creationRevision) :
    Predecessor e c' k ↔ Predecessor e c k := by
  rw [Predecessor, Predecessor, hname, hrev]

theorem Phase.congr (h : Phase e w c) (hcore : c'.core = c.core) : Phase e w c' := by
  have hname : c'.electionName = c.electionName := congrArg Core.electionName hcore
  have hrev : c'.creationRevision = c.creationRevision := congrArg Core.creationRevision hcore
  have hwk : c'.watchedKeys = c.watchedKeys := congrArg Core.watchedKeys hcore
  have hel' : c'.elected = c.elected := congrArg Core.elected hcore
  have hreqs : c'.requests = c.requests := congrArg Core.requests hcore
  have hp : c'.pending = c.pending := congrArg Core.pending hcore
  cases h with
  | asking resp hpend hw hel htells =>
    refine .asking resp ?_ (hwk.trans hw) (hel'.trans hel) ?_
    · rw [hp, hpend, predecessorRequest_congr hname hrev]
    · intro r hr
      rcases htells r hr with ⟨hle, ⟨hnil, hno⟩ | ⟨kv, hkv, hpred⟩⟩
      · exact ⟨hle, Or.inl ⟨hnil, hno.congr hname hrev⟩⟩
      · exact ⟨hle, Or.inr ⟨kv, hkv, hpred.imp_left (predecessor_congr hname hrev).mpr⟩⟩
  | waiting op k hop hpend hw hel hguard =>
    rcases hguard with ⟨id, rev, hreq, hle, hpred⟩
    exact .waiting op k hop (hp.trans hpend) (hwk.trans hw) (hel'.trans hel)
      ⟨id, rev, hreqs ▸ hreq, hle, hpred.imp_left (predecessor_congr hname hrev).mpr⟩
  | leading hpend hw hel hold =>
    exact .leading (hp.trans hpend) (hwk.trans hw) (hel'.trans hel) (hold.congr hname hrev)

/-! ## Writes -/

theorem Tells.commit {resp : RangeResponse} (h : Tells e c resp)
    (hr : Issued e c.creationRevision) (ops : List RequestOp) : Tells (e.commit ops) c resp := by
  rcases h with ⟨hle, hcase⟩
  refine ⟨hle.trans (e.le_commit_revision ops), ?_⟩
  rcases hcase with ⟨hnil, hno⟩ | ⟨kv, hkv, hpred | ⟨ev, hev, hdel⟩⟩
  · exact Or.inl ⟨hnil, hno.commit hr ops⟩
  · right
    refine ⟨kv, hkv, ?_⟩
    rcases hpred.commit hr ops with hpred | ⟨ev, hev, hdel⟩
    · exact Or.inl hpred
    · refine Or.inr ⟨ev, ?_, hdel, ?_⟩
      · rw [Store.commit_log]
        exact List.mem_append_right _ hev
      · rw [e.newEvents_revision ops ev hev]
        omega
  · refine Or.inr ⟨kv, hkv, Or.inr ⟨ev, ?_, hdel⟩⟩
    rw [Store.commit_log]
    exact List.mem_append_left _ hev

theorem Guarded.commit (h : Guarded e w c k) (hr : Issued e c.creationRevision)
    (hwatch : Watches e w c) (ops : List RequestOp) : Guarded (e.commit ops) w c k := by
  rcases h with ⟨id, rev, hreq, hle, hpred⟩
  refine ⟨id, rev, hreq, hle.trans (e.le_commit_revision ops), ?_⟩
  have hsplit : (w id).undelivered (watchRequest k rev) (e.commit ops).log =
      (w id).undelivered (watchRequest k rev) e.log ++
        (watchRequest k rev).events (e.newEvents ops) := by
    rw [Store.commit_log]
    exact undelivered_append (hwatch.sent id _ hreq) _
  rcases hpred with hpred | ⟨ev, hev, hdel⟩
  · rcases hpred.commit hr ops with hpred | ⟨ev, hev, hdel⟩
    · exact Or.inl hpred
    -- the watch selects the deletion that has just been logged
    · refine Or.inr ⟨ev, ?_, hdel⟩
      rw [hsplit]
      refine List.mem_append_right _ ((mem_events rfl).mpr ⟨hev, ?_, ?_⟩)
      · exact (inRange_nil k _).mpr hdel.2.1
      · show rev ≤ ev.revision
        rw [e.newEvents_revision ops ev hev]
        omega
  · refine Or.inr ⟨ev, ?_, hdel⟩
    rw [hsplit]
    exact List.mem_append_left _ hev

theorem Phase.commit (h : Phase e w c) (hr : Issued e c.creationRevision)
    (hwatch : Watches e w c) (ops : List RequestOp) : Phase (e.commit ops) w c := by
  cases h with
  | asking resp hpend hw hel htells =>
    exact .asking resp hpend hw hel fun r hresp => (htells r hresp).commit hr ops
  | waiting op k hop hpend hw hel hguard =>
    exact .waiting op k hop hpend hw hel (hguard.commit hr hwatch ops)
  | leading hpend hw hel hold => exact .leading hpend hw hel (hold.commit hr ops)

/-! ## Steps of the candidate -/

theorem phase_started (hcore : c.core = c.started) : Phase e w c := by
  have hp : c.pending = _ := congrArg Core.pending hcore
  have hwk : c.watchedKeys = _ := congrArg Core.watchedKeys hcore
  have hel : c.elected = _ := congrArg Core.elected hcore
  exact .asking none hp hwk hel (by simp)

/-- A query that is out is the one of the phase. -/
theorem Phase.of_query {req : RangeRequest} {resp : Option RangeResponse} (h : Phase e w c)
    (hmem : .queryPredecessor req resp ∈ c.pending) :
    req = c.predecessorRequest ∧ c.pending = .queryPredecessor req resp ::ₘ 0 ∧
      c.watchedKeys = ∅ ∧ c.elected = false ∧ ∀ r, resp = some r → Tells e c r := by
  cases h with
  | asking resp' hpend hw hel htells =>
    rw [hpend] at hmem
    have heq : Op.queryPredecessor req resp = .queryPredecessor c.predecessorRequest resp' := by
      simpa using hmem
    injection heq with hreq hresp
    subst hresp
    exact ⟨hreq, by rw [hpend, hreq], hw, hel, htells⟩
  | waiting op k hop hpend hw hel hguard =>
    rw [hpend] at hmem
    have heq : Op.queryPredecessor req resp = op := by simpa using hmem
    rw [← heq] at hop
    cases hop
  | leading hpend hw hel hold =>
    rw [hpend] at hmem
    simp at hmem

/-- An operation on the watch stream is the one that the candidate waits for. -/
theorem Phase.of_stream {op : Op} (h : Phase e w c) (hmem : op ∈ c.pending)
    (hop : op.isQuery = false) :
    ∃ k, c.pending = op ::ₘ 0 ∧ c.watchedKeys = {k} ∧ c.elected = false ∧ Guarded e w c k := by
  cases h with
  | asking resp hpend hw hel htells =>
    rw [hpend] at hmem
    have heq : op = .queryPredecessor c.predecessorRequest resp := by simpa using hmem
    rw [heq] at hop
    cases hop
  | waiting op' k _ hpend hw hel hguard =>
    rw [hpend] at hmem
    have heq : op = op' := by simpa using hmem
    exact ⟨k, heq ▸ hpend, hw, hel, hguard⟩
  | leading hpend hw hel hold =>
    rw [hpend] at hmem
    simp at hmem

theorem Phase.answered {req : RangeRequest} (h : Phase e w c)
    (hr : 2 ≤ c.creationRevision) (hmem : .queryPredecessor req none ∈ c.pending) :
    Phase e w (c.answerRange req (e.range req)) := by
  rcases h.of_query hmem with ⟨rfl, hpend, hw, hel, _⟩
  refine .asking (some (e.range c.predecessorRequest)) ?_ hw hel ?_
  · show _ ::ₘ c.pending.erase _ = _
    rw [hpend, Multiset.erase_cons_head]
    rfl
  · intro r hresp
    rw [← Option.some.inj hresp]
    refine ⟨le_rfl, ?_⟩
    rcases range_predecessor (e := e) hr with ⟨hnil, hno⟩ | ⟨kv, hkv, hpred⟩
    · exact Or.inl ⟨hnil, hno⟩
    · exact Or.inr ⟨kv, hkv, Or.inl hpred⟩

/-- The new watch starts at the revision of the answer: it misses no deletion. -/
theorem guarded_new {resp : RangeResponse} {kv : KeyValue} (hwatch : Watches e w c)
    (hreqs : c'.requests = c.requests ++ [watchRequest kv.key resp.revision])
    (hname : c'.electionName = c.electionName) (hrev : c'.creationRevision = c.creationRevision)
    (hle : resp.revision ≤ e.revision) (hpred : Predecessor e c kv.key ∨
      ∃ ev ∈ e.log, Deletes kv.key ev ∧ resp.revision ≤ ev.revision) :
    Guarded e w c' kv.key := by
  refine ⟨c.requests.length, resp.revision, ?_, hle, ?_⟩
  · rw [hreqs, List.getElem?_concat_length]
  · rcases hpred with hpred | ⟨ev, hev, hdel, hafter⟩
    · exact Or.inl ((predecessor_congr hname hrev).mpr hpred)
    · refine Or.inr ⟨ev, ?_, hdel⟩
      rw [hwatch.fresh _ le_rfl]
      show ev ∈ ((watchRequest kv.key resp.revision).events e.log).drop 0
      rw [List.drop_zero]
      exact (mem_events rfl).mpr ⟨hev, (inRange_nil kv.key _).mpr hdel.2.1, hafter⟩

theorem Phase.range {req : RangeRequest} {resp : RangeResponse} {status : Status}
    (h : Phase e w c) (hi : Inv c) (hc : c.Campaigning) (hwatch : Watches e w c)
    (hmem : .queryPredecessor req (some resp) ∈ c.pending) (hst : status.ok = true) :
    Phase e w (c.handle (.rangeRequest req (some resp) true status)).1 := by
  rcases h.of_query hmem with ⟨_, hpend, hw, hel, htells⟩
  rcases htells resp rfl with ⟨hle, ⟨hnil, hno⟩ | ⟨kv, hkv, hpred⟩⟩
  · have hcore := core_rangeEmpty c req hst hnil
    rw [if_pos hw, hpend, Multiset.erase_cons_head] at hcore
    exact .leading (congrArg Core.pending hcore) ((congrArg Core.watchedKeys hcore).trans hw)
      (congrArg Core.elected hcore) (hno.congr (congrArg Core.electionName hcore)
        (congrArg Core.creationRevision hcore))
  · have hcore := core_rangeNamed c req (hi.granting hc).1 hst hkv
    rw [hw, hpend, Multiset.erase_cons_head] at hcore
    refine .waiting (.watchCreate kv.key resp.revision) kv.key rfl (congrArg Core.pending hcore)
      ?_ ((congrArg Core.elected hcore).trans hel) ?_
    · have hwk := congrArg Core.watchedKeys hcore
      exact hwk
    · exact guarded_new hwatch (congrArg Core.requests hcore)
        (congrArg Core.electionName hcore) (congrArg Core.creationRevision hcore) hle hpred

theorem Phase.created {k : Bytes} {rev : Int} (h : Phase e w c) (hi : Inv c)
    (hc : c.Campaigning) (hmem : .watchCreate k rev ∈ c.pending) :
    Phase e w (c.handle (.watchCreate k rev true)).1 := by
  rcases h.of_stream hmem rfl with ⟨k', hpend, hw, hel, hguard⟩
  have hcore := core_watchCreate c k rev (hi.granting hc).2
  rw [hpend, Multiset.erase_cons_head] at hcore
  have hwait : Phase e w { c with pending := .watchRead k rev ::ₘ 0 } :=
    .waiting (.watchRead k rev) k' rfl rfl hw hel hguard
  exact hwait.congr hcore

theorem mem_deletedKeys {events : List Event} {ev : Event} (hev : ev ∈ events)
    (hdel : Deletes k ev) : k ∈ deletedKeys events := by
  unfold deletedKeys
  refine List.mem_map.mpr ⟨ev, List.mem_filter.mpr ⟨hev, ?_⟩, hdel.2.2⟩
  simpa using hdel.1

/-- What is left to report after a response that does not report the deletion. -/
theorem Guarded.deliver {id n : Nat} {req : WatchCreateRequest} (h : Guarded e w c k)
    (hreq : c.requests[id]? = some req)
    (hno : k ∉ deletedKeys (((w id).undelivered req e.log).take n)) :
    Guarded e (Function.update w id (watchSent (w id) n false 0)) c k := by
  rcases h with ⟨id', rev, hreq', hle, hpred⟩
  refine ⟨id', rev, hreq', hle, ?_⟩
  rcases hpred with hpred | ⟨ev, hev, hdel⟩
  · exact Or.inl hpred
  · right
    by_cases hid : id' = id
    · subst hid
      rw [hreq'] at hreq
      rw [← Option.some.inj hreq] at hno
      rw [undelivered_take (w id') (watchRequest k rev) e.log n] at hev
      rcases List.mem_append.mp hev with hsent | hleft
      · exact absurd (mem_deletedKeys hsent hdel) hno
      · refine ⟨ev, ?_, hdel⟩
        rw [Function.update_self]
        exact hleft
    · refine ⟨ev, ?_, hdel⟩
      rw [Function.update_of_ne hid]
      exact hev

theorem Phase.deliver {wkey : Bytes} {wrevision : Int} {id n : Nat} {req : WatchCreateRequest}
    (h : Phase e w c) (hi : Inv c) (hc : c.Campaigning)
    (hmem : .watchRead wkey wrevision ∈ c.pending) (hreq : c.requests[id]? = some req) :
    Phase e (Function.update w id (watchSent (w id) n false 0))
      (c.handle (.watchRead wkey wrevision true
        (watchResponse (w id) req e.log id n false 0))).1 := by
  rcases h.of_stream hmem rfl with ⟨k, hpend, hw, hel, hguard⟩
  rcases hi.granting hc with ⟨hops, hreads⟩
  have hcore := core_watchRead c wkey wrevision (watchResponse (w id) req e.log id n false 0)
    hops hreads
  rw [hpend, Multiset.erase_cons_head] at hcore
  by_cases hdel : k ∈ deletedKeys (((w id).undelivered req e.log).take n)
  -- the deletion of the predecessor is reported: ask again
  · have hstill : c.stillWatched (watchResponse (w id) req e.log id n false 0) = ∅ :=
      (stillWatched_singleton hw _).trans (if_pos hdel)
    rw [hstill, if_pos (Or.inr (Or.inr rfl))] at hcore
    have hask : Phase e (Function.update w id (watchSent (w id) n false 0))
        { c with watchedKeys := ∅, pending := .queryPredecessor c.predecessorRequest none ::ₘ 0 } :=
      .asking none rfl rfl hel (by simp)
    exact hask.congr hcore
  · have hstill : c.stillWatched (watchResponse (w id) req e.log id n false 0) = {k} :=
      (stillWatched_singleton hw _).trans (if_neg hdel)
    rw [hstill, if_neg (by simp [watchResponse])] at hcore
    have hwait : Phase e (Function.update w id (watchSent (w id) n false 0))
        { c with watchedKeys := {k}, pending := .watchRead wkey wrevision ::ₘ 0 } :=
      .waiting (.watchRead wkey wrevision) k rfl rfl rfl hel (hguard.deliver hreq hdel)
    exact hwait.congr hcore

/-- A step of the candidate that does not read from the watch stream. -/
theorem Phase.act {a : Candidate.Act} {o : Outcome} (h : c.Campaigning → Phase e w c)
    (htied : Tied e c) (hwatch : Watches e w c) (hact : c.act a = some (c', o))
    (hc' : c'.Campaigning) (hans : Answers e a) (hok : a.Ok)
    (hread : ∀ wkey wrevision resp, a ≠ .complete (.watchRead wkey wrevision true resp)) :
    Phase e w c' := by
  cases progress_cases htied.inv hact hc' with
  | same _ hc hcore => exact (h hc).congr hcore
  | started _ hno hcore => exact phase_started hcore
  | answered req resp hc hmem hcore =>
    have hresp : resp = e.range req := hans
    rw [hresp] at hcore
    exact ((h hc).answered (htied.created hc.1).1 hmem).congr hcore
  | completed k hc hmem hwf heq =>
    rw [heq]
    cases k with
    | rangeRequest req resp ok status =>
      rcases hok with ⟨rfl, hst⟩
      rcases Option.isSome_iff_exists.mp (hwf rfl hst) with ⟨resp, rfl⟩
      exact (h hc).range htied.inv hc hwatch hmem hst
    | watchCreate wkey wrevision ok =>
      have hok' : ok = true := hok
      subst hok'
      exact (h hc).created htied.inv hc hmem
    | watchRead wkey wrevision ok resp =>
      have hok' : ok = true := hok
      subst hok'
      exact absurd rfl (hread wkey wrevision resp)

namespace System

variable {ι : Type u} {s s' : System ι}

/-- Operations complete with ok and OK status, and no watch is canceled. -/
def Healthy (_ : System ι) : Act ι → Prop
  | .client _ a => a.Ok
  | .deliver _ _ _ _ _ canceled compactRevision => canceled = false ∧ compactRevision = 0
  | _ => True

instance (s : System ι) : DecidablePred s.Healthy
  | .client _ a => inferInstanceAs (Decidable a.Ok)
  | .deliver _ _ _ _ _ _ _ => inferInstanceAs (Decidable (_ ∧ _))
  | .serveRange _ _ | .serveTxn _ _ | .write _ => inferInstanceAs (Decidable True)

/-- Every campaigning candidate is in one of the phases. -/
def InPhase (s : System ι) : Prop :=
  ∀ i, (s.cand i).Campaigning → Phase s.etcd (s.watch i) (s.cand i)

/-- Nothing is on its way to the candidate: no query or watch-create write is out, and
its watches have no event left to report. -/
def Quiescent (s : System ι) (i : ι) : Prop :=
  (∀ op ∈ (s.cand i).pending, op.isRead = true) ∧
  ∀ id req, (s.cand i).requests[id]? = some req →
    (s.watch i id).undelivered req s.etcd.log = []

theorem quiescent_iff (s : System ι) (i : ι) : s.Quiescent i ↔
    (∀ op ∈ (s.cand i).pending, op.isRead = true) ∧
    ∀ p ∈ (s.cand i).requests.zipIdx, (s.watch i p.2).undelivered p.1 s.etcd.log = [] := by
  simp only [Quiescent, Prod.forall, List.mem_zipIdx_iff_getElem?]
  exact and_congr_right fun _ => forall_comm

instance (s : System ι) (i : ι) : Decidable (s.Quiescent i) :=
  have : Decidable (∀ op ∈ (s.cand i).pending, op.isRead = true) :=
    Multiset.decidableForallMultiset
  decidable_of_iff' _ (quiescent_iff s i)

theorem inPhase_commit (hw : Watching s) (h : InPhase s) (ops : List RequestOp) :
    ∀ j, (s.cand j).Campaigning → Phase (s.etcd.commit ops) (s.watch j) (s.cand j) := by
  intro j hc
  exact (h j hc).commit ((hw.consistent.tied j).created hc.1) (hw.watches j) ops

variable [DecidableEq ι]

/-- One candidate takes a step on the store `e'`; the others only see the store change. -/
theorem InPhase.update {e' : Store} {i : ι} {a : Candidate.Act} {o : Outcome}
    (h : ∀ j, (s.cand j).Campaigning → Phase e' (s.watch j) (s.cand j))
    (htied : Tied e' (s.cand i)) (hwatch : Watches e' (s.watch i) (s.cand i))
    (hact : (s.cand i).act a = some (c', o)) (hans : Answers e' a) (hok : a.Ok)
    (hread : ∀ wkey wrevision resp, a ≠ .complete (.watchRead wkey wrevision true resp)) :
    InPhase { etcd := e', cand := Function.update s.cand i c', watch := s.watch } := by
  intro j
  show (Function.update s.cand i c' j).Campaigning →
    Phase e' (s.watch j) (Function.update s.cand i c' j)
  by_cases hj : j = i
  · subst hj
    rw [Function.update_self]
    intro hc'
    exact Phase.act (h j) htied hwatch hact hc' hans hok hread
  · rw [Function.update_of_ne hj]
    exact h j

theorem step_inPhase {a : Act ι} (hw : Watching s) (h : InPhase s) (hok : s.Healthy a)
    (hstep : s.step a = some s') : InPhase s' := by
  cases step_cases hstep with
  | client i a c' o hcl hact =>
    refine InPhase.update h (hw.consistent.tied i) (hw.watches i) hact
      (answers_of_isClient hcl) hok ?_
    rintro wkey wrevision resp rfl
    cases hcl
  | range i req c' o hact =>
    exact InPhase.update h (hw.consistent.tied i) (hw.watches i) hact rfl trivial (by simp)
  | txn i call req c' o hreq hact =>
    exact InPhase.update (inPhase_commit hw h _) ((hw.consistent.tied i).commit _)
      ((hw.watches i).commit _) hact ⟨s.etcd, req, hreq, rfl, rfl⟩ trivial (by simp)
  | deliver i wkey wrevision id n canceled compactRevision req c' o hreq hlive hn hact =>
    rcases hok with ⟨rfl, rfl⟩
    intro j
    show (Function.update s.cand i c' j).Campaigning →
      Phase s.etcd (Function.update s.watch i _ j) (Function.update s.cand i c' j)
    by_cases hj : j = i
    · subst hj
      rw [Function.update_self, Function.update_self]
      intro hc'
      rcases completed_of_act hact with ⟨hmem, _, rfl⟩
      have hc := (campaigning_handle _ _).mp hc'
      exact (h j hc).deliver (hw.consistent.tied j).inv hc hmem hreq
    · rw [Function.update_of_ne hj, Function.update_of_ne hj]
      exact h j
  | write ops hops => exact inPhase_commit hw h ops

theorem reachable_inPhase (h : machine.Reachable Healthy s) : InPhase s := by
  refine h.invariant_of (fun s => reachable_watching) ?_ ?_
  · rintro s ⟨name, lease, value, revision, h, hinj, rfl⟩
    intro i hc
    cases hc.1
  · intro s a s' hw hs hok hstep
    exact step_inPhase hw hs hok hstep

/-! ## Succession -/

/-- In every quiescent state a campaigning candidate is elected if and only if no node of
the election is older than its own, and otherwise it watches exactly the node of its
immediate predecessor. -/
theorem succession (h : machine.Reachable Healthy s) (i : ι) (hc : (s.cand i).Campaigning)
    (hq : s.Quiescent i) :
    ((s.cand i).elected = true ↔ NoOlder s.etcd (s.cand i)) ∧
    (¬ NoOlder s.etcd (s.cand i) →
      ∃ k, (s.cand i).watchedKeys = {k} ∧ Predecessor s.etcd (s.cand i) k) := by
  rcases hq with ⟨hreads, hnone⟩
  cases reachable_inPhase h i hc with
  | asking resp hpend hw hel htells =>
    have hread := hreads _ (hpend ▸ Multiset.mem_cons_self _ _)
    cases hread
  | waiting op k hop hpend hw hel hguard =>
    rcases hguard with ⟨id, rev, hreq, _, hpred⟩
    have hpred : Predecessor s.etcd (s.cand i) k := by
      rcases hpred with hpred | ⟨ev, hev, _⟩
      · exact hpred
      -- the deletion would be an event that is not delivered yet
      · rw [hnone id _ hreq] at hev
        cases hev
    have hnot : ¬ NoOlder s.etcd (s.cand i) := by
      intro hold
      rcases hpred with ⟨kv, hkv, hkey, helec, hlt, _⟩
      have hle := hold kv hkv (hkey ▸ helec)
      omega
    refine ⟨⟨?_, fun hold => absurd hold hnot⟩, fun _ => ⟨k, hw, hpred⟩⟩
    intro helected
    rw [hel] at helected
    cases helected
  | leading hpend hw hel hold => exact ⟨⟨fun _ => hold, fun _ => hel⟩, fun hnot => absurd hold hnot⟩

/-- Two candidates campaign, and the second creates its watch on the node of the first. -/
def secondWaits : List (Act Bool) :=
  bothCampaign ++ [.client true (.complete (.watchCreate (Candidate.init [] 1 []).key 3 true))]

/-- The second of two candidates waits for the first. -/
theorem succession_two : ∃ s : System Bool, machine.Reachable Healthy s ∧
    (s.cand true).Campaigning ∧ s.Quiescent true ∧ (s.cand true).elected = false ∧
    ∃ k, (s.cand true).watchedKeys = {k} ∧ Predecessor s.etcd (s.cand true) k := by
  rcases reachable_of_execIf machine (fun s a => decide (s.Healthy a))
    (init [] twoLeases (fun _ => []) 1 le_rfl) secondWaits
    (fun s => decide (s.cand true).Campaigning && decide (s.Quiescent true) &&
      !(s.cand true).elected)
    (fun _ _ => of_decide_eq_true) ⟨_, _, _, _, _, by decide, rfl⟩ (by decide) with ⟨s, hreach, hcheck⟩
  simp only [Bool.and_eq_true, decide_eq_true_eq, Bool.not_eq_true'] at hcheck
  rcases hcheck with ⟨⟨hc, hq⟩, hel⟩
  have hmain := succession hreach true hc hq
  refine ⟨s, hreach, hc, hq, hel, hmain.2 ?_⟩
  intro hold
  rw [hmain.1.mpr hold] at hel
  cases hel

end System

end GeeH.Election
