import GeeH.Candidate.Progress
import GeeH.Election.Watches

/-!
# GeeH.Election.Cancellation — what becomes of the keys of a canceled watch

Runs in which operations complete with ok and OK status, and the server may
cancel any watch. A cancellation makes the candidate ask for its predecessor
again, but leaves the key of the canceled watch in `watched_keys_`. If the
answer names that key again, a new watch takes over; if it names another key,
or none, the candidate is left waiting for a key that nobody watches. The
answers for which that does not happen are `Survivable`.
-/

namespace GeeH.Election

open Etcd Machine Candidate

universe u

variable {e : Store} {c c' : Candidate} {w : Nat → WatchState} {k : Bytes}

/-! ## The invariant -/

/-- The server has a watch on the key that it has not canceled. -/
def LiveWatch (w : Nat → WatchState) (c : Candidate) (k : Bytes) : Prop :=
  ∃ id req, c.requests[id]? = some req ∧ req.key = k ∧ (w id).canceled = false

/-- One operation is out: the query, with an answer of at most one node, or an operation
on the stream, and then every key that is waited for has a live watch. -/
inductive Attending (w : Nat → WatchState) (c : Candidate) : Prop where
  | asking (resp : Option RangeResponse)
      (hpend : c.pending = .queryPredecessor c.predecessorRequest resp ::ₘ 0)
      (hone : ∀ r, resp = some r → r.kvs.length ≤ 1)
  | waiting (op : Op) (hop : op.isQuery = false) (hpend : c.pending = op ::ₘ 0)
      (hlive : ∀ k ∈ c.watchedKeys, LiveWatch w c k)

theorem LiveWatch.grow (h : LiveWatch w c k) (hpre : c.requests <+: c'.requests) :
    LiveWatch w c' k := by
  rcases h with ⟨id, req, hreq, hkey, hcan⟩
  rcases hpre with ⟨new, hnew⟩
  refine ⟨id, req, ?_, hkey, hcan⟩
  rw [← hnew, List.getElem?_append_left (List.getElem?_eq_some_iff.mp hreq).1]
  exact hreq

theorem Attending.congr (h : Attending w c) (hcore : c'.core = c.core) : Attending w c' := by
  have hname : c'.electionName = c.electionName := congrArg Core.electionName hcore
  have hrev : c'.creationRevision = c.creationRevision := congrArg Core.creationRevision hcore
  have hwk : c'.watchedKeys = c.watchedKeys := congrArg Core.watchedKeys hcore
  have hreqs : c'.requests = c.requests := congrArg Core.requests hcore
  have hp : c'.pending = c.pending := congrArg Core.pending hcore
  cases h with
  | asking resp hpend hone =>
    refine .asking resp ?_ hone
    rw [hp, hpend, predecessorRequest_congr hname hrev]
  | waiting op hop hpend hlive =>
    refine .waiting op hop (hp.trans hpend) ?_
    intro k hk
    exact (hlive k (hwk ▸ hk)).grow (hreqs ▸ List.prefix_rfl)

theorem attending_started (hcore : c.core = c.started) : Attending w c :=
  .asking none (congrArg Core.pending hcore) (by simp)

/-! ## Steps of the candidate -/

/-- A query that is out is the only operation. -/
theorem Attending.of_query {req : RangeRequest} {resp : Option RangeResponse}
    (h : Attending w c) (hmem : .queryPredecessor req resp ∈ c.pending) :
    req = c.predecessorRequest ∧ c.pending = .queryPredecessor req resp ::ₘ 0 ∧
      ∀ r, resp = some r → r.kvs.length ≤ 1 := by
  cases h with
  | asking resp' hpend hone =>
    rw [hpend] at hmem
    have heq : Op.queryPredecessor req resp = .queryPredecessor c.predecessorRequest resp' := by
      simpa using hmem
    injection heq with hreq hresp
    subst hresp
    exact ⟨hreq, by rw [hpend, hreq], hone⟩
  | waiting op hop hpend hlive =>
    rw [hpend] at hmem
    have heq : Op.queryPredecessor req resp = op := by simpa using hmem
    rw [← heq] at hop
    cases hop

/-- An operation on the stream is the only one. -/
theorem Attending.of_stream {op : Op} (h : Attending w c) (hmem : op ∈ c.pending)
    (hop : op.isQuery = false) :
    c.pending = op ::ₘ 0 ∧ ∀ k ∈ c.watchedKeys, LiveWatch w c k := by
  cases h with
  | asking resp hpend hone =>
    rw [hpend] at hmem
    have heq : op = .queryPredecessor c.predecessorRequest resp := by simpa using hmem
    rw [heq] at hop
    cases hop
  | waiting op' _ hpend hlive =>
    rw [hpend] at hmem
    have heq : op = op' := by simpa using hmem
    exact ⟨heq ▸ hpend, hlive⟩

theorem Attending.answered {req : RangeRequest} (h : Attending w c)
    (hmem : .queryPredecessor req none ∈ c.pending) :
    Attending w (c.answerRange req (e.range req)) := by
  rcases h.of_query hmem with ⟨rfl, hpend, _⟩
  refine .asking (some (e.range c.predecessorRequest)) ?_ ?_
  · show _ ::ₘ c.pending.erase _ = _
    rw [hpend, Multiset.erase_cons_head]
    rfl
  · intro r hresp
    rw [← Option.some.inj hresp]
    rcases answer_limit_one c.predecessorRequest rfl e.kvs with ⟨hnil, _⟩ | ⟨kv, hans, _⟩
    · have hkvs : (e.range c.predecessorRequest).kvs = [] := hnil
      rw [hkvs]
      exact Nat.zero_le _
    · have hkvs : (e.range c.predecessorRequest).kvs = [kv] := hans
      rw [hkvs]
      exact le_rfl

/-- The key that an answer names is watched from now on. -/
theorem liveWatch_named {req : RangeRequest} {resp : RangeResponse} {status : Status}
    {kv : KeyValue} (hi : Inv c) (hc : c.Campaigning) (hwatch : Watches e w c)
    (hst : status.ok = true) (hkv : resp.kvs = [kv]) :
    LiveWatch w (c.handle (.rangeRequest req (some resp) true status)).1 kv.key := by
  have hcore := core_rangeNamed c req (hi.granting hc).1 hst hkv
  have hreqs : (c.handle (.rangeRequest req (some resp) true status)).1.requests = _ :=
    congrArg Core.requests hcore
  refine ⟨c.requests.length, watchRequest kv.key resp.revision, ?_, rfl, ?_⟩
  · rw [hreqs, List.getElem?_concat_length]
  · rw [hwatch.fresh _ le_rfl]

/-- An answer that names a key, while the other keys are watched. -/
theorem Attending.named {req : RangeRequest} {resp : RangeResponse} {status : Status}
    {kv : KeyValue} (h : Attending w c) (hi : Inv c) (hc : c.Campaigning)
    (hwatch : Watches e w c) (hmem : .queryPredecessor req (some resp) ∈ c.pending)
    (hst : status.ok = true) (hkv : resp.kvs = [kv])
    (hothers : ∀ k ∈ c.watchedKeys, k ≠ kv.key → LiveWatch w c k) :
    Attending w (c.handle (.rangeRequest req (some resp) true status)).1 := by
  rcases h.of_query hmem with ⟨_, hpend, _⟩
  have hcore := core_rangeNamed c req (hi.granting hc).1 hst hkv
  rw [hpend, Multiset.erase_cons_head] at hcore
  have hwk : (c.handle (.rangeRequest req (some resp) true status)).1.watchedKeys = _ :=
    congrArg Core.watchedKeys hcore
  have hreqs : (c.handle (.rangeRequest req (some resp) true status)).1.requests = _ :=
    congrArg Core.requests hcore
  refine .waiting (.watchCreate kv.key resp.revision) rfl (congrArg Core.pending hcore) ?_
  intro k hk
  rw [hwk] at hk
  by_cases hkey : k = kv.key
  · rw [hkey]
    exact liveWatch_named hi hc hwatch hst hkv
  · have hold : k ∈ c.watchedKeys := (Finset.mem_insert.mp hk).resolve_left hkey
    exact (hothers k hold hkey).grow (hreqs ▸ List.prefix_append _ _)

theorem Attending.created {k : Bytes} {rev : Int} (h : Attending w c) (hi : Inv c)
    (hc : c.Campaigning) (hmem : .watchCreate k rev ∈ c.pending) :
    Attending w (c.handle (.watchCreate k rev true)).1 := by
  rcases h.of_stream hmem rfl with ⟨hpend, hlive⟩
  have hcore := core_watchCreate c k rev (hi.granting hc).2
  rw [hpend, Multiset.erase_cons_head] at hcore
  have hwait : Attending w { c with pending := .watchRead k rev ::ₘ 0 } :=
    .waiting (.watchRead k rev) rfl rfl hlive
  exact hwait.congr hcore

theorem Attending.deliver {wkey : Bytes} {wrevision : Int} {id n : Nat}
    {req : WatchCreateRequest} {canceled : Bool} {compactRevision : Int} (h : Attending w c)
    (hi : Inv c) (hc : c.Campaigning) (hmem : .watchRead wkey wrevision ∈ c.pending) :
    Attending (Function.update w id (watchSent (w id) n canceled compactRevision))
      (c.handle (.watchRead wkey wrevision true
        (watchResponse (w id) req e.log id n canceled compactRevision))).1 := by
  rcases h.of_stream hmem rfl with ⟨hpend, hlive⟩
  rcases hi.granting hc with ⟨hops, hreads⟩
  have hcore := core_watchRead c wkey wrevision
    (watchResponse (w id) req e.log id n canceled compactRevision) hops hreads
  rw [hpend, Multiset.erase_cons_head] at hcore
  split at hcore
  -- canceled, or nothing left to wait for: ask again
  · have hask : Attending (Function.update w id (watchSent (w id) n canceled compactRevision))
        { c with
          watchedKeys :=
            c.stillWatched (watchResponse (w id) req e.log id n canceled compactRevision)
          pending := .queryPredecessor c.predecessorRequest none ::ₘ 0 } :=
      .asking none rfl (by simp)
    exact hask.congr hcore
  · rename_i hcond
    rw [not_or, not_or] at hcond
    have hcan : canceled = false := by simpa [watchResponse] using hcond.1
    have hcompact : compactRevision = 0 := by simpa [watchResponse] using hcond.2.1
    have hwait : Attending (Function.update w id (watchSent (w id) n canceled compactRevision))
        { c with
          watchedKeys :=
            c.stillWatched (watchResponse (w id) req e.log id n canceled compactRevision)
          pending := .watchRead wkey wrevision ::ₘ 0 } := by
      refine .waiting (.watchRead wkey wrevision) rfl rfl ?_
      intro k hk
      rcases hlive k (Finset.mem_of_mem_filter k hk) with ⟨id', req', hreq', hkey, hlive'⟩
      refine ⟨id', req', hreq', hkey, ?_⟩
      by_cases hid : id' = id
      · subst hid
        rw [Function.update_self, hcan, hcompact]
        rfl
      · rw [Function.update_of_ne hid]
        exact hlive'
    exact hwait.congr hcore

namespace System

variable {ι : Type u} {s s' : System ι}

/-! ## What the candidates wait for -/

/-- A watch-create request for the key is in flight, or the server has a watch on it
that it has not canceled. -/
def Watched (s : System ι) (i : ι) (k : Bytes) : Prop :=
  (∃ rev, .watchCreate k rev ∈ (s.cand i).pending) ∨ LiveWatch (s.watch i) (s.cand i) k

/-- The future of the campaign has no value yet. -/
def Undecided (s : System ι) (i : ι) : Prop :=
  (s.cand i).Campaigning ∧ (s.cand i).promise.value = none

/-- The candidate has one operation out, and unless it is the query it waits for keys
that are watched. -/
def Attended (s : System ι) (i : ι) : Prop :=
  (s.cand i).pending.card = 1 ∧
  ((∀ op ∈ (s.cand i).pending, op.isQuery = false) →
    ∀ k ∈ (s.cand i).watchedKeys, s.Watched i k)

/-- An answer after which every key that is waited for is watched: no key is waited for,
or the answer names a key and the others still have a watch. -/
def Survivable (s : System ι) (i : ι) (resp : RangeResponse) : Prop :=
  (s.cand i).watchedKeys = ∅ ∨
  ∃ kv kvs, resp.kvs = kv :: kvs ∧ ∀ k ∈ (s.cand i).watchedKeys, k ≠ kv.key → s.Watched i k

/-- Operations complete with ok and OK status, and the answers that an undecided campaign
handles are survivable. -/
def Attentive (s : System ι) : Act ι → Prop
  | .client i a => a.Ok ∧ ∀ req resp ok status,
      a = .complete (.rangeRequest req (some resp) ok status) → s.Undecided i →
        s.Survivable i resp
  | _ => True

theorem attended_of_attending {i : ι} (h : Attending (s.watch i) (s.cand i)) :
    s.Attended i := by
  cases h with
  | asking resp hpend hone =>
    refine ⟨by rw [hpend]; rfl, fun hno => ?_⟩
    have hq := hno _ (hpend ▸ Multiset.mem_cons_self _ _)
    cases hq
  | waiting op hop hpend hlive =>
    exact ⟨by rw [hpend]; rfl, fun _ k hk => Or.inr (hlive k hk)⟩

/-- While a query is out, no watch-create request is in flight. -/
theorem liveWatch_of_watched {i : ι} {req : RangeRequest} {resp : Option RangeResponse}
    (hpend : (s.cand i).pending = .queryPredecessor req resp ::ₘ 0) (h : s.Watched i k) :
    LiveWatch (s.watch i) (s.cand i) k := by
  rcases h with ⟨rev, hmem⟩ | hlive
  · rw [hpend] at hmem
    simp at hmem
  · exact hlive

/-- The answer to the query, handled by an undecided campaign that stays undecided. -/
theorem attending_range {i : ι} {req : RangeRequest} {resp : RangeResponse} {status : Status}
    (hw : Watching s) (hu : s.Undecided i) (h : Attending (s.watch i) (s.cand i))
    (hmem : .queryPredecessor req (some resp) ∈ (s.cand i).pending) (hst : status.ok = true)
    (hvalue : ((s.cand i).handle (.rangeRequest req (some resp) true status)).1.promise.value = none)
    (hsurv : s.Survivable i resp) :
    Attending (s.watch i) ((s.cand i).handle (.rangeRequest req (some resp) true status)).1 := by
  rcases h.of_query hmem with ⟨_, hpend, hone⟩
  cases hkvs : resp.kvs with
  | nil =>
    -- nothing is waited for, so the answer elects: the campaign is decided
    have hempty : (s.cand i).watchedKeys = ∅ := by
      rcases hsurv with hempty | ⟨kv, kvs, hcons, _⟩
      · exact hempty
      · rw [hkvs] at hcons
        cases hcons
    have hcore := core_rangeEmpty (s.cand i) req hst hkvs
    rw [if_pos hempty] at hcore
    have hval := congrArg Core.value hcore
    rw [show (core _).value = _ from hvalue] at hval
    simp [Promise.setValue, hu.2] at hval
  | cons kv kvs =>
    have hkv : resp.kvs = [kv] := by
      have hlen := hone resp rfl
      rw [hkvs] at hlen ⊢
      simpa using hlen
    refine h.named (hw.consistent.tied i).inv hu.1 (hw.watches i) hmem hst hkv ?_
    intro k hk hne
    rcases hsurv with hempty | ⟨kv', kvs', hcons, hothers⟩
    · rw [hempty] at hk
      simp at hk
    · rw [hkvs] at hcons
      have hkv' : kv = kv' := (List.cons.inj hcons).1
      exact liveWatch_of_watched hpend (hothers k hk (hkv' ▸ hne))

/-! ## Runs -/

/-- Every undecided campaign is attended to. -/
def InAttention (s : System ι) : Prop :=
  ∀ i, s.Undecided i → Attending (s.watch i) (s.cand i)

/-- A candidate whose campaign stays undecided takes a step that does not read from the
watch stream. -/
theorem attending_act {i : ι} {a : Candidate.Act} {o : Outcome} (hw : Watching s)
    (h : InAttention s) (hact : (s.cand i).act a = some (c', o)) (hc' : c'.Campaigning)
    (hv' : c'.promise.value = none) (hok : a.Ok)
    (hrange : ∀ req resp, a = .answerRange req resp → ∃ e : Store, resp = e.range req)
    (hread : ∀ wkey wrevision resp, a ≠ .complete (.watchRead wkey wrevision true resp))
    (hsurv : ∀ req resp ok status, a = .complete (.rangeRequest req (some resp) ok status) →
      s.Undecided i → s.Survivable i resp) :
    Attending (s.watch i) c' := by
  have hi := (hw.consistent.tied i).inv
  cases progress_cases hi hact hc' with
  | same _ hc hcore =>
    have hv : (s.cand i).promise.value = none := (congrArg Core.value hcore).symm.trans hv'
    exact (h i ⟨hc, hv⟩).congr hcore
  | started _ hno hcore => exact attending_started hcore
  | answered req resp hc hmem hcore =>
    have hv : (s.cand i).promise.value = none := (congrArg Core.value hcore).symm.trans hv'
    rcases hrange req resp rfl with ⟨e, rfl⟩
    exact ((h i ⟨hc, hv⟩).answered hmem).congr hcore
  | completed k hc hmem hwf heq =>
    subst heq
    have hu : s.Undecided i := ⟨hc, handle_value hv'⟩
    cases k with
    | rangeRequest req resp ok status =>
      rcases hok with ⟨rfl, hst⟩
      rcases Option.isSome_iff_exists.mp (hwf rfl hst) with ⟨resp, rfl⟩
      exact attending_range hw hu (h i hu) hmem hst hv' (hsurv req resp true status rfl hu)
    | watchCreate wkey wrevision ok =>
      have hok' : ok = true := hok
      subst hok'
      exact (h i hu).created hi hc hmem
    | watchRead wkey wrevision ok resp =>
      have hok' : ok = true := hok
      subst hok'
      exact absurd rfl (hread wkey wrevision resp)

variable [DecidableEq ι]

/-- The other candidates are not concerned. -/
theorem InAttention.update {e' : Store} {i : ι} (h : InAttention s)
    (hnew : c'.Campaigning → c'.promise.value = none → Attending (s.watch i) c') :
    InAttention { etcd := e', cand := Function.update s.cand i c', watch := s.watch } := by
  intro j
  show (Function.update s.cand i c' j).Campaigning ∧
      (Function.update s.cand i c' j).promise.value = none →
    Attending (s.watch j) (Function.update s.cand i c' j)
  by_cases hj : j = i
  · subst hj
    rw [Function.update_self]
    rintro ⟨hc', hv'⟩
    exact hnew hc' hv'
  · rw [Function.update_of_ne hj]
    exact h j

theorem step_inAttention {a : Act ι} (hw : Watching s) (h : InAttention s)
    (hok : s.Attentive a) (hstep : s.step a = some s') : InAttention s' := by
  cases step_cases hstep with
  | client i a c' o hcl hact =>
    refine h.update fun hc' hv' => attending_act hw h hact hc' hv' hok.1 ?_ ?_ hok.2
    · rintro req resp rfl
      cases hcl
    · rintro wkey wrevision resp rfl
      cases hcl
  | range i req c' o hact =>
    refine h.update fun hc' hv' => attending_act hw h hact hc' hv' trivial ?_ (by simp) (by simp)
    rintro req' resp' heq
    injection heq with hreq hresp
    exact ⟨s.etcd, by rw [← hresp, hreq]⟩
  | txn i call req c' o hreq hact =>
    exact h.update fun hc' hv' =>
      attending_act hw h hact hc' hv' trivial (by simp) (by simp) (by simp)
  | deliver i wkey wrevision id n canceled compactRevision req c' o hreq hlive hn hact =>
    intro j
    show (Function.update s.cand i c' j).Campaigning ∧
        (Function.update s.cand i c' j).promise.value = none →
      Attending (Function.update s.watch i _ j) (Function.update s.cand i c' j)
    by_cases hj : j = i
    · subst hj
      rw [Function.update_self, Function.update_self]
      rintro ⟨hc', hv'⟩
      rcases completed_of_act hact with ⟨hmem, _, rfl⟩
      have hc := (campaigning_handle _ _).mp hc'
      exact (h j ⟨hc, handle_value hv'⟩).deliver (hw.consistent.tied j).inv hc hmem
    · rw [Function.update_of_ne hj, Function.update_of_ne hj]
      exact h j
  | write ops hops => exact h

theorem reachable_inAttention (h : machine.Reachable Attentive s) : InAttention s := by
  refine h.invariant_of (fun s => reachable_watching) ?_ ?_
  · rintro s ⟨name, lease, value, revision, h, hinj, rfl⟩
    intro i hu
    cases hu.1.1
  · intro s a s' hw hs hok hstep
    exact step_inAttention hw hs hok hstep

/-! ## Exactly the survivable answers -/

/-- An answer that is not survivable leaves a key unwatched, or nothing out. -/
theorem survivable_of_attended {i : ι} {req : RangeRequest} {resp : RangeResponse}
    {status : Status} (hw : Watching s) (hu : s.Undecided i)
    (h : Attending (s.watch i) (s.cand i)) (hst : status.ok = true)
    (hstep : s.step (.client i (.complete (.rangeRequest req (some resp) true status))) = some s')
    (hatt : s'.Attended i) : s.Survivable i resp := by
  cases step_cases hstep with
  | client _ _ c' o hcl hact =>
    rcases completed_of_act hact with ⟨hmem, _, rfl⟩
    rcases h.of_query hmem with ⟨_, hpend, hone⟩
    simp only [Attended, Watched, Function.update_self] at hatt
    by_cases hempty : (s.cand i).watchedKeys = ∅
    · exact Or.inl hempty
    right
    cases hkvs : resp.kvs with
    | nil =>
      -- a key is waited for, and the last operation is gone
      have hcore := core_rangeEmpty (s.cand i) req hst hkvs
      rw [if_neg hempty, hpend, Multiset.erase_cons_head] at hcore
      have hcard := hatt.1
      rw [show ((s.cand i).handle _).1.pending = 0 from congrArg Core.pending hcore] at hcard
      simp at hcard
    | cons kv kvs =>
      have hkv : resp.kvs = [kv] := by
        have hlen := hone resp rfl
        rw [hkvs] at hlen ⊢
        simpa using hlen
      have hcore := core_rangeNamed (s.cand i) req
        ((hw.consistent.tied i).inv.granting hu.1).1 hst hkv
      rw [hpend, Multiset.erase_cons_head] at hcore
      have hp : ((s.cand i).handle (.rangeRequest req (some resp) true status)).1.pending =
        .watchCreate kv.key resp.revision ::ₘ 0 := congrArg Core.pending hcore
      have hwk : ((s.cand i).handle (.rangeRequest req (some resp) true status)).1.watchedKeys =
        insert kv.key (s.cand i).watchedKeys := congrArg Core.watchedKeys hcore
      have hreqs : ((s.cand i).handle (.rangeRequest req (some resp) true status)).1.requests =
        (s.cand i).requests ++ [watchRequest kv.key resp.revision] :=
        congrArg Core.requests hcore
      refine ⟨kv, kvs, rfl, ?_⟩
      intro k hk hne
      rw [hp, hwk] at hatt
      rcases hatt.2 (by simp [Op.isQuery]) k (Finset.mem_insert_of_mem hk) with
        ⟨rev, hcreate⟩ | ⟨id, req', hreq', hkey, hcan⟩
      · have heq : k = kv.key ∧ rev = resp.revision := by simpa using hcreate
        exact absurd heq.1 hne
      · rw [hreqs] at hreq'
        by_cases hid : id < (s.cand i).requests.length
        · rw [List.getElem?_append_left hid] at hreq'
          exact Or.inr ⟨id, req', hreq', hkey, hcan⟩
        -- the new watch is on the key that the answer names
        · rw [List.getElem?_append_right (Nat.le_of_not_lt hid)] at hreq'
          have hreq'' : req' = watchRequest kv.key resp.revision := by
            simpa using List.mem_of_getElem? hreq'
          rw [hreq''] at hkey
          exact absurd hkey.symm hne

/-- In runs whose answers are survivable, every undecided campaign has exactly one
operation out and waits for watched keys only; and an answer keeps it so if and only if
it is survivable. -/
theorem campaign_survives (h : machine.Reachable Attentive s) :
    (∀ i, s.Undecided i → s.Attended i) ∧
    ∀ i req resp status s', status.ok = true → s.Undecided i →
      s.step (.client i (.complete (.rangeRequest req (some resp) true status))) = some s' →
      s'.Undecided i → (s'.Attended i ↔ s.Survivable i resp) := by
  have hin := reachable_inAttention h
  have hw := reachable_watching h
  constructor
  · intro i hu
    exact attended_of_attending (hin i hu)
  · intro i req resp status s' hst hu hstep hu'
    constructor
    · exact survivable_of_attended hw hu (hin i hu) hst hstep
    · intro hsurv
      have hok : s.Attentive (.client i (.complete (.rangeRequest req (some resp) true status))) := by
        refine ⟨⟨rfl, hst⟩, ?_⟩
        rintro req' resp' ok' status' heq -
        injection heq with heq
        injection heq with _ hresp
        rw [← Option.some.inj hresp]
        exact hsurv
      exact attended_of_attending (step_inAttention hw hin hok hstep i hu')

/-- The key of a candidate that campaigned earlier, with lease 9. -/
def olderKey : Bytes := (Candidate.init [] 9 []).key

/-- The predecessor's node is there before a candidate campaigns; the candidate asks,
gets its name and creates a watch on it. -/
def watchOlder : List (Act Unit) :=
  .write [.put olderKey [] 9] ::
    campaignActs () (Candidate.init [] 1 []) 3
      [{ key := olderKey, createRevision := 2, modRevision := 2, lease := 9 }] ++
    [.client () (.complete (.watchCreate olderKey 3 true))]

/-- The query of that candidate. -/
def olderQuery : RangeRequest :=
  predecessorRequest { Candidate.init [] 1 [] with creationRevision := 3 }

/-- The watch is canceled, and the answer to the next query names the same key. -/
def watchRenewed : List (Act Unit) :=
  watchOlder ++
    [.deliver () olderKey 3 0 0 true 0, .serveRange () olderQuery,
      .client () (.complete (.rangeRequest olderQuery
        (some ((Store.empty 1 le_rfl).commit [.put olderKey [] 9] |>.commit
          [.put (Candidate.init [] 1 []).key [] 1] |>.range olderQuery)) true {}))]

/-- Answers that name every key that is waited for are survivable. -/
def namesWatched (s : System ι) : Act ι → Bool
  | .client i (.complete (.rangeRequest _ (some resp) ok status)) =>
    ok && status.ok && decide (∀ k ∈ (s.cand i).watchedKeys, resp.kvs.head?.map (·.key) = some k)
  | .client _ a => decide a.Ok
  | _ => true

omit [DecidableEq ι] in
theorem attentive_of_namesWatched (s : System ι) (a : Act ι) (h : s.namesWatched a = true) :
    s.Attentive a := by
  cases a with
  | client i a =>
    constructor
    · unfold namesWatched at h
      split at h
      · rename_i i' _ resp ok status heq
        injection heq with _ heq
        subst heq
        simp only [Bool.and_eq_true] at h
        exact h.1
      · rename_i i' a' _ heq
        injection heq with _ heq
        subst heq
        exact of_decide_eq_true h
      · rename_i hno
        exact absurd rfl (hno i a)
    · rintro req resp ok status rfl -
      simp only [namesWatched, Bool.and_eq_true, decide_eq_true_eq] at h
      cases hkvs : resp.kvs with
      | nil =>
        left
        refine Finset.eq_empty_of_forall_notMem fun k hk => ?_
        have hname := h.2 k hk
        rw [hkvs] at hname
        cases hname
      | cons kv kvs =>
        refine Or.inr ⟨kv, kvs, hkvs, fun k hk hne => absurd ?_ hne⟩
        have hname := h.2 k hk
        rw [hkvs] at hname
        exact (Option.some.inj hname).symm
  | _ => trivial

instance (s : System ι) (i : ι) : Decidable (s.Undecided i) := inferInstanceAs (Decidable (_ ∧ _))

/-- A canceled watch that is renewed: the campaign goes on. -/
theorem campaign_survives_renewed : ∃ s : System Unit, machine.Reachable Attentive s ∧
    s.Undecided () ∧ (s.cand ()).watchedKeys = {olderKey} ∧ (s.watch () 0).canceled = true ∧
    s.Attended () := by
  rcases reachable_of_execIf machine namesWatched
    (init [] (fun _ => 1) (fun _ => []) 1 le_rfl) watchRenewed
    (fun s => decide (s.Undecided ()) && decide ((s.cand ()).watchedKeys = {olderKey}) &&
      (s.watch () 0).canceled)
    attentive_of_namesWatched ⟨_, _, _, _, _, fun _ _ _ => rfl, rfl⟩ (by decide) with
    ⟨s, hreach, hcheck⟩
  simp only [Bool.and_eq_true, decide_eq_true_eq] at hcheck
  rcases hcheck with ⟨⟨hu, hwk⟩, hcan⟩
  exact ⟨s, hreach, hu, hwk, hcan, (campaign_survives hreach).1 () hu⟩

/-- Operations complete with ok and OK status. -/
def AllOk (_ : System ι) : Act ι → Prop
  | .client _ a => a.Ok
  | _ => True

instance (s : System ι) : DecidablePred s.AllOk
  | .client _ a => inferInstanceAs (Decidable a.Ok)
  | .deliver _ _ _ _ _ _ _ | .serveRange _ _ | .serveTxn _ _ | .write _ =>
    inferInstanceAs (Decidable True)

/-- The predecessor is deleted and its history compacted: the watch is canceled without an
event, and the answer to the next query names nobody. -/
def watchCompacted : List (Act Unit) :=
  watchOlder ++
    [.write [.deleteRange olderKey], .deliver () olderKey 3 0 0 true 4,
      .serveRange () olderQuery,
      .client () (.complete (.rangeRequest olderQuery (some { revision := 4 }) true {}))]

/-- The candidate is left with nothing out, waiting for a key that nobody watches. -/
theorem campaign_lost_by_compaction : ∃ s : System Unit, machine.Reachable AllOk s ∧
    s.Undecided () ∧ (s.cand ()).watchedKeys = {olderKey} ∧ (s.cand ()).pending = 0 ∧
    ¬ s.Attended () := by
  rcases reachable_of_execIf machine (fun s a => decide (s.AllOk a))
    (init [] (fun _ => 1) (fun _ => []) 1 le_rfl) watchCompacted
    (fun s => decide (s.Undecided ()) && decide ((s.cand ()).watchedKeys = {olderKey}) &&
      decide ((s.cand ()).pending = 0))
    (fun _ _ => of_decide_eq_true) ⟨_, _, _, _, _, fun _ _ _ => rfl, rfl⟩ (by decide) with
    ⟨s, hreach, hcheck⟩
  simp only [Bool.and_eq_true, decide_eq_true_eq] at hcheck
  rcases hcheck with ⟨⟨hu, hwk⟩, hpend⟩
  refine ⟨s, hreach, hu, hwk, hpend, fun hatt => ?_⟩
  have hcard := hatt.1
  rw [hpend] at hcard
  cases hcard

end System

end GeeH.Election
