import GeeH.Candidate.Invariants

/-!
# GeeH.Candidate.Progress — a campaign that nothing disturbs

Between the return of `campaign()` and `resign()` or the destructor, and as
long as operations complete with ok and OK status, a candidate goes round one
loop: it asks for its predecessor, creates a watch on it, and reads from the
watch until it has to ask again. `Progress` lists the steps of that loop by
what they do to the state of the campaign (`core`).
-/

namespace GeeH.Candidate

open Etcd

variable {c c' : Candidate} {a : Act} {o : Outcome}

/-- `campaign()` has returned; neither `resign()` nor the destructor was called. -/
def Campaigning (c : Candidate) : Prop :=
  c.campaigned = true ∧ c.resigned = false ∧ c.destroyed = false

instance (c : Candidate) : Decidable c.Campaigning := inferInstanceAs (Decidable (_ ∧ _))

/-- While a candidate campaigns, both counters grant operations. -/
theorem Inv.granting (h : Inv c) (hc : c.Campaigning) :
    c.ops.shutdown = false ∧ c.reads.shutdown = false := by
  rcases hc with ⟨_, hres, hdes⟩
  constructor
  · cases hops : c.ops.shutdown with
    | false => rfl
    | true =>
      rw [h.live.1 hops] at hdes
      cases hdes
  · cases hreads : c.reads.shutdown with
    | false => rfl
    | true =>
      rcases h.live.2 hreads with hr | hd
      · rw [hr] at hres
        cases hres
      · rw [hd] at hdes
        cases hdes

/-- No handler ends or starts a campaign. -/
theorem campaigning_handle (c : Candidate) (k : Completion) :
    (c.handle k).1.Campaigning ↔ c.Campaigning := by
  have hview := callView_handle c k
  have hcamp : (c.handle k).1.campaigned = c.campaigned := congrArg CallView.campaigned hview
  have hres : (c.handle k).1.resigned = c.resigned := congrArg CallView.resigned hview
  have hdes : (c.handle k).1.destroyed = c.destroyed := congrArg CallView.destroyed hview
  rw [Campaigning, Campaigning, hcamp, hres, hdes]

/-- The state of a campaign. -/
structure Core where
  electionName : Bytes
  creationRevision : Int
  watchedKeys : Finset Bytes
  elected : Bool
  value : Option Bool
  requests : List WatchCreateRequest
  pending : Multiset Op

/-- The state of the campaign of a candidate. -/
def core (c : Candidate) : Core where
  electionName := c.electionName
  creationRevision := c.creationRevision
  watchedKeys := c.watchedKeys
  elected := c.elected
  value := c.promise.value
  requests := c.requests
  pending := c.pending

/-! ## What the handlers do to it -/

@[simp] theorem core_asyncOpDone (c : Candidate) (k : Completion) :
    (c.asyncOpDone k).core = c.core := by
  cases k with
  | rangeRequest _ _ ok _ => cases ok <;> rfl
  | watchCreate _ _ _ => rfl
  | watchRead _ _ _ _ => rfl

theorem core_queryPredecessor (h : c.ops.shutdown = false) :
    c.queryPredecessor.core =
      { c.core with pending := .queryPredecessor c.predecessorRequest none ::ₘ c.pending } := by
  simp [queryPredecessor, h, core]

theorem core_rangeEmpty (c : Candidate) (req : RangeRequest) {resp : RangeResponse} {status : Status}
    (hst : status.ok = true) (hkvs : resp.kvs = []) :
    (c.handle (.rangeRequest req (some resp) true status)).1.core =
      if c.watchedKeys = ∅ then
        { c.core with
          elected := true
          value := (c.promise.setValue true).value
          pending := c.pending.erase (.queryPredecessor req (some resp)) }
      else { c.core with pending := c.pending.erase (.queryPredecessor req (some resp)) } := by
  by_cases hw : c.watchedKeys = ∅
  · simp [handle, body, onRangeRequest, hst, hkvs, createWatches, checkElectionOverMaybe, hw,
      enter, asyncOpDone, electionResult, core, Completion.op]
  · simp [handle, body, onRangeRequest, hst, hkvs, createWatches, checkElectionOverMaybe, hw,
      enter, asyncOpDone, core, Completion.op]

theorem core_rangeNamed (c : Candidate) (req : RangeRequest) {resp : RangeResponse}
    {status : Status} {kv : KeyValue} (hops : c.ops.shutdown = false) (hst : status.ok = true)
    (hkvs : resp.kvs = [kv]) :
    (c.handle (.rangeRequest req (some resp) true status)).1.core =
      { c.core with
        watchedKeys := insert kv.key c.watchedKeys
        requests := c.requests ++ [watchRequest kv.key resp.revision]
        pending := .watchCreate kv.key resp.revision ::ₘ
          c.pending.erase (.queryPredecessor req (some resp)) } := by
  simp [handle, body, onRangeRequest, hst, hkvs, createWatches, createWatch, hops,
    checkElectionOverMaybe, enter, asyncOpDone, core, Completion.op]

theorem core_watchCreate (c : Candidate) (k : Bytes) (rev : Int) (hreads : c.reads.shutdown = false) :
    (c.handle (.watchCreate k rev true)).1.core =
      { c.core with pending := .watchRead k rev ::ₘ c.pending.erase (.watchCreate k rev) } := by
  simp [handle, body, onWatchCreate, enter, asyncOpDone, hreads, core, Completion.op]

/-- The keys that are still watched after a response. -/
def stillWatched (c : Candidate) (resp : WatchResponse) : Finset Bytes :=
  (c.recordEvents resp).watchedKeys

/-- Of one key. -/
theorem stillWatched_singleton {c : Candidate} {k : Bytes} (hw : c.watchedKeys = {k})
    (resp : WatchResponse) :
    c.stillWatched resp = if k ∈ deletedKeys resp.events then ∅ else {k} := by
  rw [stillWatched, recordEvents, hw, Finset.filter_singleton]
  by_cases hdel : k ∈ deletedKeys resp.events
  · simp [hdel]
  · simp [hdel]

theorem core_watchRead (c : Candidate) (k : Bytes) (rev : Int) (resp : WatchResponse)
    (hops : c.ops.shutdown = false) (hreads : c.reads.shutdown = false) :
    (c.handle (.watchRead k rev true resp)).1.core =
      { c.core with
        watchedKeys := c.stillWatched resp
        pending :=
          (if resp.canceled ∨ resp.compactRevision ≠ 0 ∨ c.stillWatched resp = ∅
            then .queryPredecessor c.predecessorRequest none else .watchRead k rev) ::ₘ
          c.pending.erase (.watchRead k rev) } := by
  have hrec : ((((c.enter (.watchRead k rev true resp)).asyncOpDone
      (.watchRead k rev true resp)).recordEvents resp)).watchedKeys = c.stillWatched resp := rfl
  simp only [handle, body, onWatchRead, Bool.not_true, Bool.false_eq_true, if_false]
  by_cases hcan : resp.canceled = true ∨ resp.compactRevision ≠ 0
  · have hcan' : (resp.canceled || decide (resp.compactRevision ≠ 0)) = true := by
      simpa using hcan
    rw [if_pos hcan', core_queryPredecessor (by simpa [recordEvents, asyncOpDone, enter] using hops),
      if_pos (by tauto)]
    rfl
  · have hcan' : ¬ (resp.canceled || decide (resp.compactRevision ≠ 0)) = true := by
      simpa using hcan
    rw [if_neg hcan', hrec]
    by_cases hw : c.stillWatched resp = ∅
    · rw [if_pos hw, core_queryPredecessor
        (by simpa [recordEvents, asyncOpDone, enter] using hops), if_pos (by tauto)]
      rfl
    · have hsh : ¬ (((c.enter (.watchRead k rev true resp)).asyncOpDone
          (.watchRead k rev true resp)).recordEvents resp).reads.shutdown = true := by
        simp [recordEvents, asyncOpDone, enter, hreads]
      rw [if_neg hw, if_neg hsh, if_neg (by tauto)]
      rfl

/-! ## The future of the campaign -/

theorem electionResult_value (c : Candidate) (b : Bool) :
    (c.electionResult b).promise.value ≠ none := by
  cases hv : c.promise.value <;> simp [electionResult, Promise.setValue, hv]

theorem queryPredecessor_value (h : c.queryPredecessor.promise.value = none) :
    c.promise.value = none := by
  unfold queryPredecessor at h
  split at h
  · exact absurd h (electionResult_value _ _)
  · exact h

theorem createWatches_promise (rev : Int) (c : Candidate) (kvs : List KeyValue) :
    (createWatches rev c kvs).1.promise = c.promise := by
  induction kvs generalizing c with
  | nil => rfl
  | cons kv kvs ih =>
    unfold createWatches
    split
    · rfl
    · rw [ih]
      rfl

/-- A value of the future stays. -/
theorem handle_value {k : Completion} (h : (c.handle k).1.promise.value = none) :
    c.promise.value = none := by
  have hsame : ((c.enter k).asyncOpDone k).promise.value = c.promise.value :=
    congrArg Core.value (core_asyncOpDone (c.enter k) k)
  rw [← hsame]
  unfold handle at h
  generalize (c.enter k).asyncOpDone k = d at h
  cases k with
  | rangeRequest request response ok status =>
    simp only [body] at h
    rcases onRangeRequest_cases d ok status (response.getD {}) with
      ⟨_, heq⟩ | ⟨_, _, heq⟩ | ⟨_, _, _, heq⟩ | ⟨_, _, _, heq⟩
    · rw [heq] at h
      exact absurd h (electionResult_value _ _)
    · rw [heq] at h
      exact h
    · rw [heq, checkElectionOverMaybe] at h
      split at h
      · exact h
      · exact absurd h (electionResult_value _ _)
    · rw [heq, createWatches_promise] at h
      exact h
  | watchCreate wkey wrevision ok =>
    simp only [body, onWatchCreate] at h
    split at h
    · exact h
    · split at h <;> exact h
  | watchRead wkey wrevision ok resp =>
    simp only [body, onWatchRead] at h
    split at h
    · exact h
    · split at h
      · have hold := queryPredecessor_value h
        exact hold
      · split at h
        · have hold := queryPredecessor_value h
          exact hold
        · split at h <;> exact h

/-! ## The steps of a campaign -/

/-- The operation that completes, if one does, is ok and has OK status. -/
def Act.Ok : Act → Prop
  | .complete (.rangeRequest _ _ ok status) => ok = true ∧ status.ok = true
  | .complete (.watchCreate _ _ ok) => ok = true
  | .complete (.watchRead _ _ ok _) => ok = true
  | .streamCreated ok => ok = true
  | .txnDone _ ok status => ok = true ∧ status.ok = true
  | .writesDone ok => ok = true
  | .finished ok => ok = true
  | _ => True

instance : DecidablePred Act.Ok
  | .complete (.rangeRequest _ _ _ _) => inferInstanceAs (Decidable (_ ∧ _))
  | .complete (.watchCreate _ _ ok) => inferInstanceAs (Decidable (ok = true))
  | .complete (.watchRead _ _ ok _) => inferInstanceAs (Decidable (ok = true))
  | .streamCreated ok => inferInstanceAs (Decidable (ok = true))
  | .txnDone _ _ _ => inferInstanceAs (Decidable (_ ∧ _))
  | .writesDone ok => inferInstanceAs (Decidable (ok = true))
  | .finished ok => inferInstanceAs (Decidable (ok = true))
  | .campaign | .proclaim _ | .resign | .destroy | .answerRange _ _ | .answerTxn _ _
  | .cancelWritten _ _ | .cancelsDone | .readsDone | .opsDrained | .readsDrained =>
    inferInstanceAs (Decidable True)

/-- The state of a campaign that has just started. -/
def started (c : Candidate) : Core where
  electionName := c.electionName
  creationRevision := c.creationRevision
  watchedKeys := ∅
  elected := false
  value := c.promise.value
  requests := []
  pending := .queryPredecessor c.predecessorRequest none ::ₘ 0

/-- The steps of a campaign, by their effect on its state. -/
inductive Progress (c c' : Candidate) : Act → Prop where
  | same (a : Act) (hc : c.Campaigning) (h : c'.core = c.core) : Progress c c' a
  | started (a : Act) (hno : c.campaigned = false) (h : c'.core = c'.started) : Progress c c' a
  | answered (req : RangeRequest) (resp : RangeResponse) (hc : c.Campaigning)
      (hmem : .queryPredecessor req none ∈ c.pending)
      (h : c'.core = (c.answerRange req resp).core) : Progress c c' (.answerRange req resp)
  | completed (k : Completion) (hc : c.Campaigning) (hmem : k.op ∈ c.pending)
      (hwf : k.WellFormed) (heq : c' = (c.handle k).1) : Progress c c' (.complete k)

theorem core_startCampaign (h : Inv c) (hno : c.campaigned = false)
    (hc' : c.startCampaign.1.Campaigning) (hi' : Inv c.startCampaign.1) :
    c.startCampaign.1.core = c.startCampaign.1.started := by
  have hview := callView_queryPredecessor c
  have hops : c.ops.shutdown = false :=
    (congrArg CallView.opsShutdown hview).symm.trans (hi'.granting hc').1
  rcases h.idle hno with ⟨hpend, hel, hw, hreq⟩
  have hcore : c.startCampaign.1.core = _ := core_queryPredecessor hops
  rw [hcore]
  simp [started, startCampaign, queryPredecessor, hops, core, hpend, hel, hw, hreq,
    predecessorRequest]

/-- A step that leaves the candidate campaigning is one of those. -/
theorem progress_cases (hi : Inv c) (hact : c.act a = some (c', o)) (hc' : c'.Campaigning) :
    Progress c c' a := by
  have hi' := step_inv hact hi
  cases act_cases hact with
  | quiet _ hq =>
    refine .same _ ⟨?_, ?_, ?_⟩ ?_
    · exact (congrArg CampaignView.campaigned hq.view).symm.trans hc'.1
    -- the flags are never taken back
    · cases hres : c.resigned with
      | false => rfl
      | true => exact absurd (hc'.2.1.symm.trans (hq.resigned hres)) (by simp)
    · cases hdes : c.destroyed with
      | false => rfl
      | true => exact absurd (hc'.2.2.symm.trans (hq.destroyed hdes)) (by simp)
    · have hview := hq.view
      simp only [campaignView, CampaignView.mk.injEq] at hview
      simp only [core, Core.mk.injEq]
      tauto
  | answeredTxn call call' resp hmem hans heq =>
    subst heq
    exact .same _ hc' rfl
  | created req resp ok status hmem heq =>
    rcases hi.campaign_frame hmem rfl with ⟨hno, _, _⟩
    have hun := (quiet_unblock (.createNode req (some resp))).inv hi
    rcases onNodeCreated_cases (c.unblock (.createNode req (some resp))) resp with
      ⟨_, h⟩ | ⟨kv, _, h⟩ | ⟨kv, _, req', _, h⟩ | h
    · rw [heq, h] at hc' hi' ⊢
      exact .started _ hno (core_startCampaign (inv_creationRevision hun hno _) hno hc' hi')
    · rw [heq, h] at hc' hi' ⊢
      exact .started _ hno (core_startCampaign (inv_creationRevision hun hno _) hno hc' hi')
    · rw [heq, h] at hc'
      exact absurd (hno.symm.trans hc'.1) (by simp)
    · rw [heq, h] at hc'
      exact absurd (hno.symm.trans hc'.1) (by simp)
  | republished req resp ok status hmem _ heq =>
    rcases hi.campaign_frame hmem rfl with ⟨hno, _, _⟩
    rw [heq] at hc' hi' ⊢
    exact .started _ hno (core_startCampaign ((quiet_unblock _).inv hi) hno hc' hi')
  | finished hmem heq =>
    -- `resign()` was called: it shut `reads_` down
    subst heq
    have hsh := (hi.sound _ hmem).1
    rcases hi.live.2 hsh with hres | hdes
    · exact absurd (hc'.2.1.symm.trans hres) (by simp)
    · exact absurd (hc'.2.2.symm.trans hdes) (by simp)
  | answeredRange req resp hmem heq =>
    subst heq
    exact .answered req resp hc' hmem rfl
  | completed k hmem hwf heq =>
    subst heq
    exact .completed k ((campaigning_handle c k).mp hc') hmem hwf rfl

/-! ## As long as nobody ends it -/

/-- What only `resign()` and the destructor set. -/
def flags (c : Candidate) : Bool × Bool := (c.resigned, c.destroyed)

theorem flags_startCampaign (c : Candidate) : c.startCampaign.1.flags = c.flags := by
  have hview := callView_queryPredecessor c
  exact Prod.ext (congrArg CallView.resigned hview) (congrArg CallView.destroyed hview)

theorem flags_onTxn {call : Call} {ok : Bool} {status : Status}
    (h : c.onTxn call ok status = some (c', o)) : c'.flags = c.flags := by
  have hdone : ∀ {resp : Option TxnResponse} {f : TxnResponse → Candidate × Outcome},
      (∀ r, (f r).1.flags = c.flags) → resp.map f = some (c', o) → c'.flags = c.flags := by
    intro resp f hf h
    rcases Option.map_eq_some_iff.mp h with ⟨r, _, heq⟩
    rw [← hf r, heq]
  cases call with
  | createNode req resp =>
    simp only [onTxn] at h
    split at h
    · rw [fst_of_some h]
      rfl
    · refine hdone (fun r => ?_) h
      rcases onNodeCreated_cases (c.unblock (.createNode req resp)) r with
        ⟨_, h⟩ | ⟨kv, _, h⟩ | ⟨kv, _, req', _, h⟩ | h
      · rw [h]
        exact flags_startCampaign _
      · rw [h]
        exact flags_startCampaign _
      · rw [h]
        rfl
      · rw [h]
        rfl
  | republish req resp =>
    simp only [onTxn] at h
    split at h
    · rw [fst_of_some h]
      rfl
    · refine hdone (fun r => ?_) h
      unfold onRepublished
      split
      · exact flags_startCampaign _
      · rfl
  | proclaim value req resp =>
    simp only [onTxn] at h
    split at h
    · rw [fst_of_some h]
      rfl
    · refine hdone (fun r => ?_) h
      unfold onProclaimed
      split <;> rfl
  | _ => cases h

theorem flags_act (h : c.act a = some (c', o)) (hr : a ≠ .resign) (hd : a ≠ .destroy) :
    c'.flags = c.flags := by
  cases a with
  | resign => exact absurd rfl hr
  | destroy => exact absurd rfl hd
  | campaign =>
    rw [fst_of_some (Option.ite_none_left_eq_some.mp h).2]
    unfold campaign
    split
    · rfl
    · split <;> rfl
  | proclaim value =>
    rw [fst_of_some (Option.ite_none_left_eq_some.mp h).2]
    unfold proclaim
    split <;> rfl
  | answerRange req resp =>
    rw [(of_guard h).2]
    rfl
  | answerTxn call resp =>
    rcases Option.map_eq_some_iff.mp (Option.ite_none_right_eq_some.mp h).2 with ⟨call', _, heq⟩
    rw [← show _ = c' from congrArg Prod.fst heq]
    rfl
  | complete k =>
    rw [fst_of_some (Option.ite_none_right_eq_some.mp h).2]
    have hview := callView_handle c k
    exact Prod.ext (congrArg CallView.resigned hview) (congrArg CallView.destroyed hview)
  | streamCreated ok =>
    rw [fst_of_some (Option.ite_none_right_eq_some.mp h).2]
    simp only [onStreamCreated]
    split
    · rfl
    · unfold createNode
      split <;> rfl
  | txnDone call ok status => exact flags_onTxn (Option.ite_none_right_eq_some.mp h).2
  | writesDone ok =>
    rw [fst_of_some (Option.ite_none_right_eq_some.mp h).2]
    unfold onWritesDone
    split <;> rfl
  | finished ok =>
    rw [fst_of_some (Option.ite_none_right_eq_some.mp h).2]
    simp only [onFinished]
    split <;> rfl
  | cancelWritten writes w =>
    rw [(of_guard h).2]
    rfl
  | _ =>
    rw [(of_guard h).2]
    rfl

/-- A campaign goes on until `resign()` or the destructor is called. -/
theorem campaigning_act (hi : Inv c) (h : c.act a = some (c', o)) (hc : c.Campaigning)
    (hr : a ≠ .resign) (hd : a ≠ .destroy) : c'.Campaigning := by
  have hflags := flags_act h hr hd
  refine ⟨?_, (congrArg Prod.fst hflags).trans hc.2.1, (congrArg Prod.snd hflags).trans hc.2.2⟩
  cases act_cases h with
  | quiet _ hq => exact (congrArg CampaignView.campaigned hq.view).trans hc.1
  | answeredTxn call call' resp hmem hans heq => exact heq ▸ hc.1
  | created req resp ok status hmem heq =>
    exact absurd ((hi.campaign_frame hmem rfl).1.symm.trans hc.1) (by simp)
  | republished req resp ok status hmem _ heq => exact heq ▸ rfl
  | finished hmem heq => exact heq ▸ hc.1
  | answeredRange req resp hmem heq => exact heq ▸ hc.1
  | completed k hmem hwf heq => exact heq ▸ ((campaigning_handle c k).mpr hc).1

end GeeH.Candidate
