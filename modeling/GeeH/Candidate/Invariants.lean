import GeeH.Candidate.Steps
import Mathlib.Tactic.Ring

/-!
# GeeH.Candidate.Invariants — what holds in every run of a candidate

The invariant `Inv` holds whatever the completion queue delivers. It says that
`campaign()` gets past its first lines at most once, that nothing is pending
before it has returned, which requests are in flight, and that `reads_` counts
the outstanding reads.
-/

namespace GeeH.Candidate

open Etcd

variable {c c' : Candidate} {a : Act} {o : Outcome}

/-! ## The loop of `on_range_request()` -/

theorem createWatches_elected (rev : Int) (c : Candidate) (kvs : List KeyValue) :
    (createWatches rev c kvs).1.elected = c.elected := by
  induction kvs generalizing c with
  | nil => rfl
  | cons kv kvs ih =>
    unfold createWatches
    split
    · rfl
    · rw [ih]
      rfl

theorem createWatches_watchedKeys (rev : Int) (c : Candidate) (kvs : List KeyValue) :
    c.watchedKeys ⊆ (createWatches rev c kvs).1.watchedKeys := by
  induction kvs generalizing c with
  | nil => exact Finset.Subset.refl _
  | cons kv kvs ih =>
    unfold createWatches
    split
    · exact Finset.Subset.refl _
    · exact (Finset.subset_insert kv.key c.watchedKeys).trans (ih (c.createWatch kv.key rev))

/-- Where the loop ran to its end, the keys of the answer are watched. -/
theorem createWatches_nonempty {rev : Int} {c : Candidate} {kv : KeyValue} {kvs : List KeyValue}
    (h : (createWatches rev c (kv :: kvs)).2 = false) :
    (createWatches rev c (kv :: kvs)).1.watchedKeys ≠ ∅ := by
  unfold createWatches at h ⊢
  split at h
  · cases h
  · rename_i hsh
    rw [if_neg hsh]
    have hsub := createWatches_watchedKeys rev (c.createWatch kv.key rev) kvs
    exact Finset.nonempty_iff_ne_empty.mp ⟨kv.key, hsub (by simp [createWatch])⟩

/-- How `on_range_request()` ends: cancelled, with a bad status, with no predecessor, or
with the watches of the predecessors created. -/
theorem onRangeRequest_cases (c : Candidate) (ok : Bool) (status : Status) (resp : RangeResponse) :
    (ok = false ∧ (c.onRangeRequest ok status resp).1 = c.electionResult false) ∨
    (ok = true ∧ status.ok = false ∧ (c.onRangeRequest ok status resp).1 = c) ∨
    (ok = true ∧ status.ok = true ∧ resp.kvs = [] ∧
      (c.onRangeRequest ok status resp).1 = c.checkElectionOverMaybe) ∨
    (ok = true ∧ status.ok = true ∧ resp.kvs ≠ [] ∧
      (c.onRangeRequest ok status resp).1 = (createWatches resp.revision c resp.kvs).1) := by
  simp only [onRangeRequest]
  by_cases hok : ok = true
  · by_cases hst : status.ok = true
    · right
      right
      cases hkvs : resp.kvs with
      | nil => exact Or.inl ⟨hok, hst, rfl, by simp [hok, hst, createWatches]⟩
      | cons kv kvs =>
        refine Or.inr ⟨hok, hst, by simp, ?_⟩
        simp only [hok, hst, Bool.not_true, Bool.false_eq_true, if_false]
        split
        · rfl
        -- the loop ran to its end, so the first key is watched and nothing is decided
        · rename_i hret
          have hne := createWatches_nonempty (Bool.eq_false_iff.mpr hret)
          rw [checkElectionOverMaybe, if_pos hne]
    · exact Or.inr (Or.inl ⟨hok, by simpa using hst, by simp [hok, hst]⟩)
  · exact Or.inl ⟨by simpa using hok, by simp [hok]⟩

theorem createWatches_of_shutdown (rev : Int) (hops : c.ops.shutdown = true) (kvs : List KeyValue) :
    (createWatches rev c kvs).1 = c := by
  cases kvs with
  | nil => rfl
  | cons kv kvs => simp [createWatches, hops]

/-! ## What a handler posts -/

/-- A query for the predecessor. -/
def Op.isQuery : Op → Bool
  | .queryPredecessor _ _ => true
  | _ => false

/-- A read on the watch stream. -/
def Op.isRead : Op → Bool
  | .watchRead _ _ => true
  | _ => false

/-- How many of the operations are reads. -/
def reading (s : Multiset Op) : Nat := s.countP fun op => op.isRead

@[simp] theorem reading_zero : reading 0 = 0 := Multiset.countP_zero _

@[simp] theorem reading_queryPredecessor (req : RangeRequest) (resp : Option RangeResponse)
    (s : Multiset Op) : reading (.queryPredecessor req resp ::ₘ s) = reading s :=
  Multiset.countP_cons_of_neg (p := fun op : Op => op.isRead) _ (by simp [Op.isRead])

@[simp] theorem reading_watchCreate (k : Bytes) (rev : Int) (s : Multiset Op) :
    reading (.watchCreate k rev ::ₘ s) = reading s :=
  Multiset.countP_cons_of_neg (p := fun op : Op => op.isRead) _ (by simp [Op.isRead])

@[simp] theorem reading_watchRead (k : Bytes) (rev : Int) (s : Multiset Op) :
    reading (.watchRead k rev ::ₘ s) = reading s + 1 :=
  Multiset.countP_cons_of_pos (p := fun op : Op => op.isRead) _ rfl

theorem reading_add (s t : Multiset Op) : reading (s + t) = reading s + reading t :=
  Multiset.countP_add _ _ _

theorem reading_eq_zero {s : Multiset Op} : reading s = 0 ↔ ∀ op ∈ s, op.isRead = false := by
  simp only [reading, Multiset.countP_eq_zero, Bool.not_eq_true]

/-- What a handler adds to the pending operations: reads are counted in `reads_`, and
a query asks for the predecessor of this candidate. -/
structure Posts (c c' : Candidate) (extra : Multiset Op) : Prop where
  pending : c'.pending = extra + c.pending
  query : ∀ op ∈ extra, op.isQuery → op = .queryPredecessor c.predecessorRequest none
  reads : c'.reads.pending = c.reads.pending + reading extra
  drained : c.reads.shutdown = true → reading extra = 0

theorem Posts.none {c c' : Candidate} (hp : c'.pending = c.pending)
    (hr : c'.reads.pending = c.reads.pending) : Posts c c' 0 :=
  ⟨by rw [hp, zero_add], by simp, by simp [hr], by simp⟩

theorem posts_queryPredecessor (c : Candidate) : ∃ extra, Posts c c.queryPredecessor extra := by
  unfold queryPredecessor
  split
  · exact ⟨0, .none rfl rfl⟩
  · refine ⟨.queryPredecessor c.predecessorRequest none ::ₘ 0, by simp, ?_, ?_, ?_⟩
    · intro op hop _
      simpa using hop
    · rw [reading_queryPredecessor, reading_zero]
      simp
    · intro _
      rw [reading_queryPredecessor, reading_zero]

theorem posts_createWatches (rev : Int) (c : Candidate) (kvs : List KeyValue) :
    ∃ extra, Posts c (createWatches rev c kvs).1 extra := by
  induction kvs generalizing c with
  | nil => exact ⟨0, .none rfl rfl⟩
  | cons kv kvs ih =>
    unfold createWatches
    split
    · exact ⟨0, .none rfl rfl⟩
    · rcases ih (c.createWatch kv.key rev) with ⟨extra, hpend, hquery, hreads, hdrain⟩
      refine ⟨.watchCreate kv.key rev ::ₘ extra, ?_, ?_, ?_, ?_⟩
      · rw [hpend]
        simp [createWatch]
      · intro op hop hq
        rcases Multiset.mem_cons.mp hop with rfl | hop
        · cases hq
        · exact hquery op hop hq
      · rw [hreads, reading_watchCreate]
        rfl
      · rw [reading_watchCreate]
        exact hdrain

/-- A further read, which needs `reads_` not to be shut down. -/
theorem posts_watchRead {wkey : Bytes} {wrevision : Int}
    (hp : c'.pending = .watchRead wkey wrevision ::ₘ c.pending)
    (hr : c'.reads = c.reads.asyncOpStart) (hsh : c.reads.shutdown ≠ true) :
    Posts c c' (.watchRead wkey wrevision ::ₘ 0) where
  pending := by simpa using hp
  query := by
    intro op hop hq
    have hop : op = .watchRead wkey wrevision := by simpa using hop
    rw [hop] at hq
    cases hq
  reads := by
    rw [hr, AsyncOpCounter.asyncOpStart_pending _ (by simpa using hsh), reading_watchRead,
      reading_zero]
    simp
  drained h := absurd h hsh

theorem posts_body (c : Candidate) (k : Completion) : ∃ extra, Posts c (c.body k).1 extra := by
  cases k with
  | rangeRequest request response ok status =>
    simp only [body]
    rcases onRangeRequest_cases c ok status (response.getD {}) with
      ⟨_, heq⟩ | ⟨_, _, heq⟩ | ⟨_, _, _, heq⟩ | ⟨_, _, _, heq⟩
    · exact ⟨0, by rw [heq]; exact .none rfl rfl⟩
    · exact ⟨0, by rw [heq]; exact .none rfl rfl⟩
    · refine ⟨0, ?_⟩
      rw [heq]
      unfold checkElectionOverMaybe
      split
      · exact .none rfl rfl
      · exact .none rfl rfl
    · rw [heq]
      exact posts_createWatches _ c _
  | watchCreate wkey wrevision ok =>
    simp only [body, onWatchCreate]
    split
    · exact ⟨0, .none rfl rfl⟩
    · split
      · exact ⟨0, .none rfl rfl⟩
      · rename_i hsh
        exact ⟨_, posts_watchRead rfl rfl hsh⟩
  | watchRead wkey wrevision ok resp =>
    simp only [body, onWatchRead]
    split
    · exact ⟨0, .none rfl rfl⟩
    · split
      · rcases posts_queryPredecessor
          { c.recordEvents resp with
            currentWatches := (c.recordEvents resp).currentWatches.erase resp.watchId } with
          ⟨extra, hpend, hquery, hreads, hdrain⟩
        exact ⟨extra, hpend, hquery, hreads, hdrain⟩
      · split
        · rcases posts_queryPredecessor (c.recordEvents resp) with
            ⟨extra, hpend, hquery, hreads, hdrain⟩
          exact ⟨extra, hpend, hquery, hreads, hdrain⟩
        · split
          · exact ⟨0, .none rfl rfl⟩
          · rename_i hsh
            exact ⟨_, posts_watchRead rfl rfl hsh⟩

/-! ## How a candidate gets elected -/

/-- The completion that elects a candidate: an ok answer with no predecessor in it. -/
def Completion.Empty : Completion → Prop
  | .rangeRequest _ resp ok status => ok = true ∧ status.ok = true ∧ (resp.getD {}).kvs = []
  | _ => False

theorem queryPredecessor_elected (c : Candidate) :
    c.queryPredecessor.elected = true → c.elected = true := by
  unfold queryPredecessor
  split
  · intro h
    cases h
  · exact id

/-- A handler elects the candidate only on an empty answer, with no key watched. -/
theorem body_elected {k : Completion} (h : (c.body k).1.elected = true) :
    c.elected = true ∨ (k.Empty ∧ c.watchedKeys = ∅) := by
  cases k with
  | rangeRequest request response ok status =>
    simp only [body] at h
    rcases onRangeRequest_cases c ok status (response.getD {}) with
      ⟨_, heq⟩ | ⟨_, _, heq⟩ | ⟨hok, hst, hkvs, heq⟩ | ⟨_, _, _, heq⟩
    · rw [heq] at h
      cases h
    · rw [heq] at h
      exact Or.inl h
    · rw [heq] at h
      by_cases hw : c.watchedKeys = ∅
      · exact Or.inr ⟨⟨hok, hst, hkvs⟩, hw⟩
      · left
        simpa [checkElectionOverMaybe, hw] using h
    · rw [heq, createWatches_elected] at h
      exact Or.inl h
  | watchCreate wkey wrevision ok =>
    left
    simp only [body, onWatchCreate] at h
    split at h
    · exact h
    · by_cases hsh : c.reads.shutdown = true <;> simpa [hsh] using h
  | watchRead wkey wrevision ok resp =>
    left
    simp only [body, onWatchRead] at h
    split at h
    · exact h
    · split at h
      · have hel := queryPredecessor_elected _ h
        exact hel
      · split at h
        · have hel := queryPredecessor_elected _ h
          exact hel
        · split at h
          · exact h
          · exact h

@[simp] theorem enter_elected (c : Candidate) (k : Completion) :
    (c.enter k).elected = c.elected := rfl

@[simp] theorem asyncOpDone_elected (c : Candidate) (k : Completion) :
    (c.asyncOpDone k).elected = c.elected := by
  cases k with
  | rangeRequest _ _ ok _ => cases ok <;> rfl
  | watchCreate _ _ _ => rfl
  | watchRead _ _ _ _ => rfl

@[simp] theorem asyncOpDone_watchedKeys (c : Candidate) (k : Completion) :
    (c.asyncOpDone k).watchedKeys = c.watchedKeys := by
  cases k with
  | rangeRequest _ _ ok _ => cases ok <;> rfl
  | watchCreate _ _ _ => rfl
  | watchRead _ _ _ _ => rfl

@[simp] theorem asyncOpDone_pending (c : Candidate) (k : Completion) :
    (c.asyncOpDone k).pending = c.pending := by
  cases k with
  | rangeRequest _ _ ok _ => cases ok <;> rfl
  | watchCreate _ _ _ => rfl
  | watchRead _ _ _ _ => rfl

theorem handle_elected {k : Completion} (h : (c.handle k).1.elected = true) :
    c.elected = true ∨ (k.Empty ∧ c.watchedKeys = ∅) := by
  have hb := body_elected h
  simpa [enter] using hb

/-- The decrement of a handler keeps `reads_` in step with the outstanding reads. -/
theorem reads_enter_done {k : Completion} (hmem : k.op ∈ c.pending)
    (h : c.reads.pending = reading c.pending) :
    ((c.enter k).asyncOpDone k).reads.pending = reading (c.pending.erase k.op) := by
  cases k with
  | rangeRequest request response ok status =>
    have hc : reading (c.pending.erase (.queryPredecessor request response)) = _ :=
      Pool.countP_erase_of_neg (fun op : Op => op.isRead) (by simp [Op.isRead])
    rw [Completion.op, hc]
    cases ok <;> exact h
  | watchCreate wkey wrevision ok =>
    have hc : reading (c.pending.erase (.watchCreate wkey wrevision)) = _ :=
      Pool.countP_erase_of_neg (fun op : Op => op.isRead) (by simp [Op.isRead])
    rw [Completion.op, hc]
    exact h
  | watchRead wkey wrevision ok resp =>
    have hc : reading (c.pending.erase (.watchRead wkey wrevision)) + 1 = reading c.pending :=
      Pool.countP_erase_of_pos (fun op : Op => op.isRead) hmem rfl
    simp only [Completion.op, enter, asyncOpDone, AsyncOpCounter.asyncOpDone_pending]
    omega

/-! ## The invariant -/

/-- What holds in every run of a candidate. -/
structure Inv (c : Candidate) : Prop where
  /-- `campaign()` gets past its first lines once. -/
  once : c.campaigns + c.campaigned.toNat ≤ c.promise.retrieved.toNat
  /-- Before it has returned, nothing is pending and nothing is known. -/
  idle : c.campaigned = false →
    c.pending = 0 ∧ c.elected = false ∧ c.watchedKeys = ∅ ∧ c.requests = []
  query : ∀ op ∈ c.pending, op.isQuery →
    ∃ resp, op = .queryPredecessor c.predecessorRequest resp
  sound : ∀ call ∈ c.calls, call.Sound c
  stream : c.campaigned = true → c.watcherStream = true
  reads : c.reads.pending = reading c.pending
  live : c.Live

theorem init_inv (name : Bytes) (leaseId : UInt64) (value : Bytes) :
    Inv (init name leaseId value) where
  once := by simp [init, campaigns]
  idle _ := by simp [init]
  query := by simp [init]
  sound := by simp [init]
  stream h := by simp [init] at h
  reads := by simp [init]
  live := by simp [Live, init]

/-- A frame of `campaign()` excludes that it has returned, and there is no other. -/
theorem Inv.campaign_frame {call : Call} (h : Inv c) (hmem : call ∈ c.calls)
    (hc : call.isCampaign = true) :
    c.campaigned = false ∧ (c.unblock call).campaigns + 1 ≤ c.promise.retrieved.toNat ∧
      (c.unblock call).campaigns = 0 := by
  have hcount : (c.unblock call).campaigns + 1 = c.campaigns :=
    Pool.countP_erase_of_pos (fun call : Call => call.isCampaign) hmem hc
  have honce := h.once
  have hle : c.promise.retrieved.toNat ≤ 1 := Bool.toNat_le _
  refine ⟨?_, by omega, by omega⟩
  cases hcamp : c.campaigned with
  | false => rfl
  | true =>
    rw [hcamp, Bool.toNat_true] at honce
    omega

/-- An outstanding operation needs a campaign. -/
theorem Inv.campaigned_of_pending (h : Inv c) {op : Op} (hmem : op ∈ c.pending) :
    c.campaigned = true := by
  cases hc : c.campaigned with
  | true => rfl
  | false =>
    rw [(h.idle hc).1] at hmem
    simp at hmem

/-- `Live` is a matter of the calls of the application alone. -/
theorem live_congr (h : c'.callView = c.callView) : c'.Live ↔ c.Live := by
  have hops : c'.ops.shutdown = c.ops.shutdown := congrArg CallView.opsShutdown h
  have hreads : c'.reads.shutdown = c.reads.shutdown := congrArg CallView.readsShutdown h
  have hres : c'.resigned = c.resigned := congrArg CallView.resigned h
  have hdes : c'.destroyed = c.destroyed := congrArg CallView.destroyed h
  rw [Live, Live, hops, hreads, hres, hdes]

theorem predecessorRequest_congr (hname : c'.electionName = c.electionName)
    (hrev : c'.creationRevision = c.creationRevision) :
    c'.predecessorRequest = c.predecessorRequest := by
  simp [predecessorRequest, hname, hrev]

theorem Quiet.inv (hq : Quiet c c') (h : Inv c) : Inv c' where
  once := by
    have hcamp : c'.campaigned = c.campaigned := congrArg CampaignView.campaigned hq.view
    have honce := h.once
    have hq' := hq.once
    rw [hcamp]
    omega
  idle hno := by
    have hcamp : c'.campaigned = c.campaigned := congrArg CampaignView.campaigned hq.view
    have hidle := h.idle (hcamp ▸ hno)
    have hpend : c'.pending = c.pending := congrArg CampaignView.pending hq.view
    have hel : c'.elected = c.elected := congrArg CampaignView.elected hq.view
    have hw : c'.watchedKeys = c.watchedKeys := congrArg CampaignView.watchedKeys hq.view
    have hr : c'.requests = c.requests := congrArg CampaignView.requests hq.view
    rw [hpend, hel, hw, hr]
    exact hidle
  query op hop hisq := by
    have hpend : c'.pending = c.pending := congrArg CampaignView.pending hq.view
    rw [hpend] at hop
    rw [predecessorRequest_congr (congrArg CampaignView.electionName hq.view)
      (congrArg CampaignView.creationRevision hq.view)]
    exact h.query op hop hisq
  sound := hq.sound h.sound
  stream hcamp' := by
    have hcamp : c'.campaigned = c.campaigned := congrArg CampaignView.campaigned hq.view
    exact hq.stream (h.stream (hcamp ▸ hcamp'))
  reads := by
    have hpend : c'.pending = c.pending := congrArg CampaignView.pending hq.view
    have hr : c'.reads.pending = c.reads.pending := congrArg CampaignView.readsPending hq.view
    rw [hpend, hr]
    exact h.reads
  live := hq.live h.sound h.live

/-! ## Preservation, effect by effect -/

theorem answered_isCampaign {call call' : Call} {resp : TxnResponse}
    (h : call.answered resp = some call') : call'.isCampaign = call.isCampaign := by
  cases call with
  | createNode req resp? =>
    cases resp? <;> simp [Call.answered] at h
    rw [← h]
    rfl
  | republish req resp? =>
    cases resp? <;> simp [Call.answered] at h
    rw [← h]
    rfl
  | proclaim value req resp? =>
    cases resp? <;> simp [Call.answered] at h
    rw [← h]
    rfl
  | _ => cases h

theorem answered_sound {call call' : Call} {resp : TxnResponse}
    (h : call.answered resp = some call') (hs : call.Sound c) : call'.Sound c := by
  cases call with
  | createNode req resp? =>
    cases resp? <;> simp [Call.answered] at h
    rw [← h]
    exact hs
  | republish req resp? =>
    cases resp? <;> simp [Call.answered] at h
    rw [← h]
    exact hs
  | proclaim value req resp? =>
    cases resp? <;> simp [Call.answered] at h
    rw [← h]
    exact hs
  | _ => cases h

theorem inv_answeredTxn {call call' : Call} {resp : TxnResponse} (h : Inv c)
    (hmem : call ∈ c.calls) (hans : call.answered resp = some call') :
    Inv (c.moveCall call call') where
  once := by
    have hcount : (c.moveCall call call').campaigns = c.campaigns := by
      have hkind := answered_isCampaign hans
      unfold campaigns moveCall
      by_cases hc : call.isCampaign = true
      · have herase := Pool.countP_erase_of_pos (fun call : Call => call.isCampaign) hmem hc
        rw [Multiset.countP_cons_of_pos (p := fun call : Call => call.isCampaign) _
          (hkind.trans hc), herase]
      · have herase := Pool.countP_erase_of_neg (fun call : Call => call.isCampaign)
          (s := c.calls) hc
        rw [Multiset.countP_cons_of_neg (p := fun call : Call => call.isCampaign) _
          (by rw [hkind]; exact hc), herase]
    rw [hcount]
    exact h.once
  idle := h.idle
  query := h.query
  sound call'' hcall := by
    rcases Multiset.mem_cons.mp hcall with rfl | hcall
    · exact (answered_sound hans (h.sound call hmem)).still { view := rfl, retrieved := rfl }
    · exact (h.sound call'' (Multiset.mem_of_mem_erase hcall)).still { view := rfl, retrieved := rfl }
  stream := h.stream
  reads := h.reads
  live := h.live

/-- The creation revision is learned before anything depends on it. -/
theorem inv_creationRevision (h : Inv c) (hno : c.campaigned = false) (rev : Int) :
    Inv { c with creationRevision := rev } where
  once := h.once
  idle := h.idle
  query op hop _ := by
    have hmem : op ∈ c.pending := hop
    rw [(h.idle hno).1] at hmem
    simp at hmem
  sound call hcall := by
    have hs := h.sound call hcall
    cases call <;> exact hs
  stream := h.stream
  reads := h.reads
  live := h.live

theorem queryPredecessor_reading (c : Candidate) (h : c.reads.pending = reading c.pending) :
    c.queryPredecessor.reads.pending = reading c.queryPredecessor.pending := by
  unfold queryPredecessor
  split
  · exact h
  · rw [reading_queryPredecessor]
    exact h

/-- The end of `campaign()`: its frame is gone, the campaign has started. -/
theorem inv_startCampaign (h : Inv c) (hno : c.campaigned = false)
    (hroom : c.campaigns + 1 ≤ c.promise.retrieved.toNat) (hst : c.watcherStream = true) :
    Inv c.startCampaign.1 where
  once := by
    have hview := callView_queryPredecessor c
    have hcalls : c.queryPredecessor.calls = c.calls := congrArg CallView.calls hview
    have hret : c.queryPredecessor.promise.retrieved = c.promise.retrieved :=
      congrArg CallView.retrieved hview
    show Multiset.countP _ c.queryPredecessor.calls + 1 ≤ _
    rw [hcalls]
    exact hroom.trans (Nat.le_of_eq (congrArg Bool.toNat hret.symm))
  idle hc := by cases hc
  query op hop hisq := by
    rcases posts_queryPredecessor c with ⟨extra, hp⟩
    have hmem : op ∈ c.queryPredecessor.pending := hop
    rw [hp.pending, (h.idle hno).1, add_zero] at hmem
    have hview := callView_queryPredecessor c
    refine ⟨none, (hp.query op hmem hisq).trans ?_⟩
    exact congrArg (Op.queryPredecessor · none) (predecessorRequest_congr
      (congrArg CallView.electionName hview).symm (congrArg CallView.creationRevision hview).symm)
  sound call hcall := by
    have hview := callView_queryPredecessor c
    have hmem : call ∈ c.queryPredecessor.calls := hcall
    have hcalls : c.queryPredecessor.calls = c.calls := congrArg CallView.calls hview
    have hs := h.sound call (hcalls ▸ hmem)
    unfold startCampaign queryPredecessor
    split
    · cases call <;> exact hs
    · cases call <;> exact hs
  stream _ := (congrArg CallView.watcherStream (callView_queryPredecessor c)).trans hst
  reads := queryPredecessor_reading c h.reads
  live := (live_congr (callView_queryPredecessor c)).mpr h.live

/-- `create_node()` blocks again, to publish its value on the node it adopted. -/
theorem inv_blockRepublish {req : TxnRequest} (h : Inv c) (hno : c.campaigned = false)
    (hroom : c.campaigns + 1 ≤ c.promise.retrieved.toNat) (hst : c.watcherStream = true)
    (hreq : req.SinglePut) : Inv (c.block (.republish req none)) where
  once := by
    have hcount : (c.block (.republish req none)).campaigns = c.campaigns + 1 :=
      Multiset.countP_cons_of_pos (p := fun call : Call => call.isCampaign) _ rfl
    rw [hcount]
    show c.campaigns + 1 + c.campaigned.toNat ≤ _
    rw [hno]
    exact hroom
  idle := h.idle
  query := h.query
  sound call hcall := by
    rcases Multiset.mem_cons.mp hcall with rfl | hcall
    · exact ⟨hreq, hst⟩
    · exact (h.sound call hcall).still { view := rfl, retrieved := rfl }
  stream := h.stream
  reads := h.reads
  live := (live_block _ _).mpr h.live

theorem inv_created {req : TxnRequest} {resp : TxnResponse} (h : Inv c)
    (hmem : .createNode req (some resp) ∈ c.calls) :
    Inv ((c.unblock (.createNode req (some resp))).onNodeCreated resp).1 := by
  rcases h.campaign_frame hmem rfl with ⟨hno, hroom, _⟩
  have hst : c.watcherStream = true := (h.sound _ hmem).2
  have hun := (quiet_unblock (.createNode req (some resp))).inv h
  rcases onNodeCreated_cases (c.unblock (.createNode req (some resp))) resp with
    ⟨_, heq⟩ | ⟨kv, _, heq⟩ | ⟨kv, _, req', hreq', heq⟩ | heq
  · rw [heq]
    exact inv_startCampaign (inv_creationRevision hun hno resp.revision) hno hroom hst
  · rw [heq]
    exact inv_startCampaign (inv_creationRevision hun hno kv.createRevision) hno hroom hst
  · rw [heq]
    exact inv_blockRepublish (inv_creationRevision hun hno kv.createRevision) hno hroom hst hreq'
  · rw [heq]
    exact inv_creationRevision hun hno resp.revision

theorem inv_republished {req : TxnRequest} {resp : TxnResponse} (h : Inv c)
    (hmem : .republish req (some resp) ∈ c.calls) :
    Inv (c.unblock (.republish req (some resp))).startCampaign.1 := by
  rcases h.campaign_frame hmem rfl with ⟨hno, hroom, _⟩
  exact inv_startCampaign ((quiet_unblock _).inv h) hno hroom (h.sound _ hmem).2

theorem inv_finished (h : Inv c) : Inv (c.onFinished true).1 where
  once := by
    have hle : (c.onFinished true).1.campaigns ≤ c.campaigns :=
      Pool.countP_erase_le (fun call : Call => call.isCampaign)
    have honce := h.once
    show (c.onFinished true).1.campaigns + c.campaigned.toNat ≤ c.promise.retrieved.toNat
    omega
  idle hno := by
    rcases h.idle hno with ⟨hpend, _, hw, hr⟩
    exact ⟨hpend, rfl, hw, hr⟩
  query := h.query
  sound call hcall := by
    have hs := h.sound call (Multiset.mem_of_mem_erase hcall)
    cases call <;> exact hs
  stream := h.stream
  reads := h.reads
  live := h.live

theorem inv_answeredRange {req : RangeRequest} {resp : RangeResponse} (h : Inv c)
    (hmem : .queryPredecessor req none ∈ c.pending) : Inv (c.answerRange req resp) where
  once := h.once
  idle hno := by
    have hc := h.campaigned_of_pending hmem
    rw [show c.campaigned = false from hno] at hc
    cases hc
  query op hop hisq := by
    rcases Multiset.mem_cons.mp hop with rfl | hop
    -- the request in flight is the one that was posted
    · rcases h.query _ hmem rfl with ⟨resp', heq⟩
      injection heq with hreq _
      exact ⟨some resp, by rw [hreq]; rfl⟩
    · exact h.query op (Multiset.mem_of_mem_erase hop) hisq
  sound call hcall := by
    have hs := h.sound call hcall
    cases call <;> exact hs
  stream := h.stream
  reads := by
    have herase : reading (c.pending.erase (.queryPredecessor req none)) = _ :=
      Pool.countP_erase_of_neg (fun op : Op => op.isRead) (by simp [Op.isRead])
    show c.reads.pending = reading (_ ::ₘ _)
    rw [reading_queryPredecessor, herase]
    exact h.reads
  live := h.live

theorem Call.Sound.view {call : Call} (hs : call.Sound c) (h : c'.callView = c.callView)
    (hr : c.reads.shutdown = true → c.reads.pending = 0 → c'.reads.pending = 0) :
    call.Sound c' := by
  have hlease : c'.leaseId = c.leaseId := congrArg CallView.leaseId h
  have hname : c'.electionName = c.electionName := congrArg CallView.electionName h
  have hst : c'.watcherStream = c.watcherStream := congrArg CallView.watcherStream h
  have hsh : c'.reads.shutdown = c.reads.shutdown := congrArg CallView.readsShutdown h
  cases call with
  | createNode req resp =>
    rcases hs with ⟨⟨value, rfl⟩, hstream⟩
    refine ⟨⟨value, ?_⟩, hst.trans hstream⟩
    simp [createNodeRequest, key, hlease, hname]
  | republish req resp => exact ⟨hs.1, hst.trans hs.2⟩
  | proclaim value req resp => exact hs
  | resignCancels writes =>
    exact ⟨hst.trans hs.1, (congrArg CallView.resigned h).trans hs.2⟩
  | resignReads => exact ⟨hst.trans hs.1, hsh.trans hs.2⟩
  | resignWritesDone => exact ⟨hsh.trans hs.1, hr hs.1 hs.2⟩
  | resignFinish => exact ⟨hsh.trans hs.1, hr hs.1 hs.2⟩
  | cleanupOps => exact (congrArg CallView.destroyed h).trans hs
  | _ => trivial

/-- A handler adds to the operations that are left when its own is taken out. -/
theorem posts_handle {k : Completion} (h : Inv c) (hmem : k.op ∈ c.pending) :
    ∃ extra, (c.handle k).1.pending = extra + c.pending.erase k.op ∧
      (∀ op ∈ extra, op.isQuery → op = .queryPredecessor c.predecessorRequest none) ∧
      (c.handle k).1.reads.pending = reading (c.pending.erase k.op) + reading extra ∧
      (c.reads.shutdown = true → reading extra = 0) := by
  rcases posts_body ((c.enter k).asyncOpDone k) k with ⟨extra, hpend, hquery, hreads, hdrain⟩
  have hview : ((c.enter k).asyncOpDone k).callView = c.callView := by simp
  refine ⟨extra, ?_, ?_, ?_, ?_⟩
  · rw [handle, hpend, asyncOpDone_pending]
    rfl
  · intro op hop hisq
    rw [hquery op hop hisq, predecessorRequest_congr (congrArg CallView.electionName hview)
      (congrArg CallView.creationRevision hview)]
  · rw [handle, hreads, reads_enter_done hmem h.reads]
  · intro hsh
    exact hdrain ((congrArg CallView.readsShutdown hview).trans hsh)

theorem inv_handle {k : Completion} (h : Inv c) (hmem : k.op ∈ c.pending) :
    Inv (c.handle k).1 := by
  rcases posts_handle h hmem with ⟨extra, hpend, hquery, hreads, hdrain⟩
  have hview := callView_handle c k
  have hcalls : (c.handle k).1.calls = c.calls := congrArg CallView.calls hview
  have hcamp : (c.handle k).1.campaigned = c.campaigned := congrArg CallView.campaigned hview
  have hret : (c.handle k).1.promise.retrieved = c.promise.retrieved :=
    congrArg CallView.retrieved hview
  refine ⟨?_, ?_, ?_, ?_, ?_, ?_, (live_congr hview).mpr h.live⟩
  · rw [campaigns, hcalls, hcamp, hret]
    exact h.once
  · intro hno
    rw [hcamp, h.campaigned_of_pending hmem] at hno
    cases hno
  · intro op hop hisq
    rw [predecessorRequest_congr (congrArg CallView.electionName hview)
      (congrArg CallView.creationRevision hview)]
    rw [hpend] at hop
    rcases Multiset.mem_add.mp hop with hop | hop
    · exact ⟨none, hquery op hop hisq⟩
    · exact h.query op (Multiset.mem_of_mem_erase hop) hisq
  · intro call hcall
    refine (h.sound call (hcalls ▸ hcall)).view hview ?_
    intro hsh hzero
    -- `reads_` is at zero: no read is outstanding, and no handler starts one
    have hnone : reading c.pending = 0 := by
      have := h.reads
      omega
    have hle : reading (c.pending.erase k.op) ≤ reading c.pending :=
      Pool.countP_erase_le (fun op : Op => op.isRead)
    rw [hreads, hdrain hsh]
    omega
  · intro hcamp'
    exact (congrArg CallView.watcherStream hview).trans (h.stream (hcamp ▸ hcamp'))
  · rw [hreads, hpend, reading_add]
    push_cast
    ring

/-- A completion runs its handler. -/
theorem completed_of_act {k : Completion} (h : c.act (.complete k) = some (c', o)) :
    k.op ∈ c.pending ∧ k.WellFormed ∧ c' = (c.handle k).1 := by
  obtain ⟨hk, heq⟩ := of_guard h
  exact ⟨hk.1, hk.2, heq⟩

/-- One step of a candidate preserves the invariant, whatever it is. -/
theorem step_inv (h : c.act a = some (c', o)) (hi : Inv c) : Inv c' := by
  cases act_cases h with
  | quiet _ hq => exact hq.inv hi
  | answeredTxn call call' resp hmem hans heq =>
    rw [heq]
    exact inv_answeredTxn hi hmem hans
  | created req resp ok status hmem heq =>
    rw [heq]
    exact inv_created hi hmem
  | republished req resp ok status hmem _ heq =>
    rw [heq]
    exact inv_republished hi hmem
  | finished _ heq =>
    rw [heq]
    exact inv_finished hi
  | answeredRange req resp hmem heq =>
    rw [heq]
    exact inv_answeredRange hi hmem
  | completed k hmem _ heq =>
    rw [heq]
    exact inv_handle hi hmem

/-- The lease and the election of a candidate never change. -/
theorem act_identity (h : c.act a = some (c', o)) :
    c'.leaseId = c.leaseId ∧ c'.electionName = c.electionName := by
  cases act_cases h with
  | quiet _ hq =>
    exact ⟨congrArg CampaignView.leaseId hq.view, congrArg CampaignView.electionName hq.view⟩
  | answeredTxn call call' resp hmem hans heq =>
    subst heq
    exact ⟨rfl, rfl⟩
  | created req resp ok status hmem heq =>
    have hstart (c : Candidate) : c.startCampaign.1.leaseId = c.leaseId ∧
        c.startCampaign.1.electionName = c.electionName :=
      ⟨congrArg CallView.leaseId (callView_queryPredecessor c),
        congrArg CallView.electionName (callView_queryPredecessor c)⟩
    rcases onNodeCreated_cases (c.unblock (.createNode req (some resp))) resp with
      ⟨_, h'⟩ | ⟨kv, _, h'⟩ | ⟨kv, _, req', _, h'⟩ | h'
    · rw [heq, h']
      exact hstart _
    · rw [heq, h']
      exact hstart _
    · rw [heq, h']
      exact ⟨rfl, rfl⟩
    · rw [heq, h']
      exact ⟨rfl, rfl⟩
  | republished req resp ok status hmem _ heq =>
    rw [heq]
    have hview := callView_queryPredecessor (c.unblock (.republish req (some resp)))
    exact ⟨congrArg CallView.leaseId hview, congrArg CallView.electionName hview⟩
  | finished _ heq =>
    subst heq
    exact ⟨rfl, rfl⟩
  | answeredRange req resp hmem heq =>
    subst heq
    exact ⟨rfl, rfl⟩
  | completed k hmem _ heq =>
    rw [heq]
    have hview := callView_handle c k
    exact ⟨congrArg CallView.leaseId hview, congrArg CallView.electionName hview⟩

theorem createWatches_requests (rev : Int) (c : Candidate) (kvs : List KeyValue) :
    c.requests <+: (createWatches rev c kvs).1.requests := by
  induction kvs generalizing c with
  | nil => exact List.prefix_rfl
  | cons kv kvs ih =>
    unfold createWatches
    split
    · exact List.prefix_rfl
    · exact (List.prefix_append c.requests _).trans (ih (c.createWatch kv.key rev))

@[simp] theorem queryPredecessor_requests (c : Candidate) :
    c.queryPredecessor.requests = c.requests := by
  unfold queryPredecessor
  split <;> rfl

theorem body_requests (c : Candidate) (k : Completion) :
    c.requests <+: (c.body k).1.requests := by
  cases k with
  | rangeRequest request response ok status =>
    simp only [body]
    rcases onRangeRequest_cases c ok status (response.getD {}) with
      ⟨_, heq⟩ | ⟨_, _, heq⟩ | ⟨_, _, _, heq⟩ | ⟨_, _, _, heq⟩
    · rw [heq]
      exact List.prefix_rfl
    · rw [heq]
    · rw [heq]
      unfold checkElectionOverMaybe
      split <;> exact List.prefix_rfl
    · rw [heq]
      exact createWatches_requests _ c _
  | watchCreate wkey wrevision ok =>
    simp only [body, onWatchCreate]
    split
    · exact List.prefix_rfl
    · split <;> exact List.prefix_rfl
  | watchRead wkey wrevision ok resp =>
    simp only [body, onWatchRead]
    split
    · exact List.prefix_rfl
    · split
      · rw [queryPredecessor_requests]
        exact List.prefix_rfl
      · split
        · rw [queryPredecessor_requests]
          exact List.prefix_rfl
        · split <;> exact List.prefix_rfl

/-- The watches that a candidate asked for stay asked for. -/
theorem act_requests (h : c.act a = some (c', o)) : c.requests <+: c'.requests := by
  cases act_cases h with
  | quiet _ hq =>
    have hreq : c'.requests = c.requests := congrArg CampaignView.requests hq.view
    rw [hreq]
  | answeredTxn call call' resp hmem hans heq =>
    subst heq
    exact List.prefix_rfl
  | created req resp ok status hmem heq =>
    rcases onNodeCreated_cases (c.unblock (.createNode req (some resp))) resp with
      ⟨_, h'⟩ | ⟨kv, _, h'⟩ | ⟨kv, _, req', _, h'⟩ | h'
    · rw [heq, h', startCampaign, queryPredecessor_requests]
      exact List.prefix_rfl
    · rw [heq, h', startCampaign, queryPredecessor_requests]
      exact List.prefix_rfl
    · rw [heq, h']
      exact List.prefix_rfl
    · rw [heq, h']
      exact List.prefix_rfl
  | republished req resp ok status hmem _ heq =>
    rw [heq, startCampaign, queryPredecessor_requests]
    exact List.prefix_rfl
  | finished _ heq =>
    subst heq
    exact List.prefix_rfl
  | answeredRange req resp hmem heq =>
    subst heq
    exact List.prefix_rfl
  | completed k hmem _ heq =>
    have hpre := body_requests ((c.enter k).asyncOpDone k) k
    have hsame : ((c.enter k).asyncOpDone k).requests = c.requests := by
      cases k with
      | rangeRequest _ _ ok _ => cases ok <;> rfl
      | watchCreate _ _ _ => rfl
      | watchRead _ _ _ _ => rfl
    rw [heq, ← hsame]
    exact hpre

/-- A step of the machine is a step of the candidate with some outcome. -/
theorem machine_step (h : machine.step c a = some c') : ∃ o, c.act a = some (c', o) := by
  rcases Option.map_eq_some_iff.mp h with ⟨⟨c'', o⟩, hact, rfl⟩
  exact ⟨o, hact⟩

/-- The invariant holds in every state that a candidate can reach. -/
theorem reachable_inv (h : machine.Reachable Machine.Any c) : Inv c := by
  refine h.invariant ?_ ?_
  · rintro s ⟨name, leaseId, value, rfl⟩
    exact init_inv name leaseId value
  · intro s a s' hs _ hstep
    rcases machine_step hstep with ⟨o, hact⟩
    exact step_inv hact hs

/-! ## A short campaign -/

/-- A campaign up to its first query, in an election without a name. -/
def campaignTrace : List Act :=
  let c := init [] 1 []
  [.campaign, .streamCreated true,
    .answerTxn (.createNode c.createNodeRequest none) { revision := 2, succeeded := true },
    .txnDone (.createNode c.createNodeRequest (some { revision := 2, succeeded := true })) true {}]

/-- The query of that campaign. -/
def firstQuery : RangeRequest := predecessorRequest { init [] 1 [] with creationRevision := 2 }

end GeeH.Candidate
