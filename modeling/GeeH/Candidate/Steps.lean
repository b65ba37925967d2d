import GeeH.Candidate.Impl
import GeeH.Etcd.History
import GeeH.Pool

/-!
# GeeH.Candidate.Steps — what one step of a candidate can do

`act_cases` says it once: most steps are quiet, that is, they only move the
calls of the application and the counters; the others answer a Txn or a query,
learn the creation revision, start the asynchronous part of the campaign, end
a resignation, or run a completion handler. The invariants of every run of a
candidate (`Inv`) follow from it.
-/

namespace GeeH.Candidate

open Etcd

variable {c c' : Candidate} {a : Act} {o : Outcome}

/-- The steps that the completion queue takes. -/
def Act.isQueue : Act → Bool
  | .complete _ => true
  | .cancelWritten _ _ => true
  | _ => false

/-! ## The part that handlers leave alone -/

/-- What the calls of the application work on, and no completion handler changes. -/
structure CallView where
  leaseId : UInt64
  electionName : Bytes
  candidateValue : Bytes
  creationRevision : Int
  retrieved : Bool
  watcherStream : Bool
  calls : Multiset Call
  campaigned : Bool
  resigned : Bool
  destroyed : Bool
  opsShutdown : Bool
  readsShutdown : Bool

/-- The part of a candidate that its calls work on. -/
def callView (c : Candidate) : CallView where
  leaseId := c.leaseId
  electionName := c.electionName
  candidateValue := c.candidateValue
  creationRevision := c.creationRevision
  retrieved := c.promise.retrieved
  watcherStream := c.watcherStream
  calls := c.calls
  campaigned := c.campaigned
  resigned := c.resigned
  destroyed := c.destroyed
  opsShutdown := c.ops.shutdown
  readsShutdown := c.reads.shutdown

@[simp] theorem callView_electionResult (c : Candidate) (b : Bool) :
    (c.electionResult b).callView = c.callView := rfl

@[simp] theorem callView_queryPredecessor (c : Candidate) :
    c.queryPredecessor.callView = c.callView := by
  unfold queryPredecessor
  split
  · simp
  · simp [callView]

@[simp] theorem callView_createWatch (c : Candidate) (k : Bytes) (rev : Int) :
    (c.createWatch k rev).callView = c.callView := by
  simp [createWatch, callView]

@[simp] theorem callView_createWatches (rev : Int) (c : Candidate) (kvs : List KeyValue) :
    (createWatches rev c kvs).1.callView = c.callView := by
  induction kvs generalizing c with
  | nil => rfl
  | cons kv kvs ih =>
    unfold createWatches
    split
    · rfl
    · rw [ih, callView_createWatch]

@[simp] theorem callView_checkElectionOverMaybe (c : Candidate) :
    c.checkElectionOverMaybe.callView = c.callView := by
  unfold checkElectionOverMaybe
  split
  · rfl
  · simp

@[simp] theorem callView_enter (c : Candidate) (k : Completion) :
    (c.enter k).callView = c.callView := rfl

@[simp] theorem callView_asyncOpDone (c : Candidate) (k : Completion) :
    (c.asyncOpDone k).callView = c.callView := by
  cases k with
  | rangeRequest _ _ ok _ => cases ok <;> rfl
  | watchCreate _ _ _ => rfl
  | watchRead _ _ _ _ => rfl

theorem callView_body (c : Candidate) (k : Completion) : (c.body k).1.callView = c.callView := by
  cases k with
  | rangeRequest request response ok status =>
    simp only [body, onRangeRequest]
    by_cases hok : ok = true
    · by_cases hst : status.ok = true
      · by_cases hret : (createWatches (response.getD {}).revision c (response.getD {}).kvs).2
        · simp [hok, hst, hret]
        · simp [hok, hst, hret]
      · simp [hok, hst]
    · simp [hok]
  | watchCreate wkey wrevision ok =>
    simp only [body, onWatchCreate]
    by_cases hok : ok = true
    · by_cases hsh : c.reads.shutdown = true <;> simp [hok, hsh, callView]
    · simp [hok]
  | watchRead wkey wrevision ok resp =>
    have hrec : (c.recordEvents resp).callView = c.callView := rfl
    simp only [body, onWatchRead]
    split
    · rfl
    · split
      · rw [callView_queryPredecessor]
        exact hrec
      · split
        · rw [callView_queryPredecessor, hrec]
        · split
          · exact hrec
          · simpa [callView] using hrec

/-- No handler touches what a call of the application works on. -/
theorem callView_handle (c : Candidate) (k : Completion) : (c.handle k).1.callView = c.callView := by
  rw [handle, callView_body, callView_asyncOpDone, callView_enter]

/-! ## Steps by their effect -/

/-- What a quiet step leaves alone: the state of the campaign itself. -/
structure CampaignView where
  leaseId : UInt64
  electionName : Bytes
  creationRevision : Int
  watchedKeys : Finset Bytes
  elected : Bool
  requests : List WatchCreateRequest
  pending : Multiset Op
  campaigned : Bool
  readsPending : Int
  value : Option Bool

/-- The state of the campaign. -/
def campaignView (c : Candidate) : CampaignView where
  leaseId := c.leaseId
  electionName := c.electionName
  creationRevision := c.creationRevision
  watchedKeys := c.watchedKeys
  elected := c.elected
  requests := c.requests
  pending := c.pending
  campaigned := c.campaigned
  readsPending := c.reads.pending
  value := c.promise.value

/-- How many frames of `campaign()` there are. -/
def campaigns (c : Candidate) : Nat := c.calls.countP fun call => call.isCampaign

/-- What a blocked call relies on. A frame that sends a Txn sends one that the
candidate built; the ends of `resign()` come after `reads_` is shut down and drained. -/
def Call.Sound (c : Candidate) : Call → Prop
  | .createNode req _ =>
    (∃ value, req = createNodeRequest { c with candidateValue := value }) ∧ c.watcherStream = true
  | .republish req _ => req.SinglePut ∧ c.watcherStream = true
  | .proclaim _ req _ => req.SinglePut
  | .resignCancels _ => c.watcherStream = true ∧ c.resigned = true
  | .resignReads => c.watcherStream = true ∧ c.reads.shutdown = true
  | .resignWritesDone => c.reads.shutdown = true ∧ c.reads.pending = 0
  | .resignFinish => c.reads.shutdown = true ∧ c.reads.pending = 0
  | .cleanupOps => c.destroyed = true
  | _ => True

/-- Only `resign()` and the destructor shut the counters down. -/
def Live (c : Candidate) : Prop :=
  (c.ops.shutdown = true → c.destroyed = true) ∧
  (c.reads.shutdown = true → c.resigned = true ∨ c.destroyed = true)

@[simp] theorem live_block (c : Candidate) (call : Call) : (c.block call).Live ↔ c.Live := by
  simp [Live, block]

/-- A step that does not touch the campaign; it may shut a counter down. -/
structure Still (c c' : Candidate) : Prop where
  view : c'.campaignView = c.campaignView
  retrieved : c'.promise.retrieved = c.promise.retrieved
  stream : c.watcherStream = true → c'.watcherStream = true := by exact id
  shutdown : c.reads.shutdown = true → c'.reads.shutdown = true := by exact id
  resigned : c.resigned = true → c'.resigned = true := by exact id
  destroyed : c.destroyed = true → c'.destroyed = true := by exact id
  live : (∀ call ∈ c.calls, call.Sound c) → c.Live → c'.Live := by
    first | exact fun _ h => h | exact fun _ h => (live_block _ _).mpr h

theorem Still.refl (c : Candidate) : Still c c where
  view := rfl
  retrieved := rfl

theorem Call.Sound.still {call : Call} (hs : call.Sound c) (h : Still c c') : call.Sound c' := by
  have hlease : c'.leaseId = c.leaseId := congrArg CampaignView.leaseId h.view
  have hname : c'.electionName = c.electionName := congrArg CampaignView.electionName h.view
  have hreads : c'.reads.pending = c.reads.pending := congrArg CampaignView.readsPending h.view
  cases call with
  | createNode req resp =>
    rcases hs with ⟨⟨value, rfl⟩, hstream⟩
    refine ⟨⟨value, ?_⟩, h.stream hstream⟩
    simp [createNodeRequest, key, hlease, hname]
  | republish req resp => exact ⟨hs.1, h.stream hs.2⟩
  | proclaim value req resp => exact hs
  | resignCancels writes => exact ⟨h.stream hs.1, h.resigned hs.2⟩
  | resignReads => exact ⟨h.stream hs.1, h.shutdown hs.2⟩
  | resignWritesDone => exact ⟨h.shutdown hs.1, hreads.trans hs.2⟩
  | resignFinish => exact ⟨h.shutdown hs.1, hreads.trans hs.2⟩
  | cleanupOps => exact h.destroyed hs
  | _ => trivial

theorem createNodeRequest_singlePut (c : Candidate) : c.createNodeRequest.SinglePut := by
  simp [createNodeRequest, TxnRequest.SinglePut, SinglePut, RequestOp.isPut]

theorem publishRequest_singlePut (c : Candidate) (value : Bytes) (failureOp : Option RequestOp)
    (h : ∀ op ∈ failureOp, op.isPut = false) : (c.publishRequest value failureOp).SinglePut := by
  refine ⟨by simp [publishRequest, SinglePut, RequestOp.isPut], ?_⟩
  cases failureOp with
  | none => simp [publishRequest, SinglePut]
  | some op =>
    have hop := h op rfl
    simp [publishRequest, SinglePut, hop]

/-- A step that only moves calls and counters. The frames of `campaign()` it leaves
are old, or wait for the stream, or for the first Txn; a new one needs the future
of the promise. -/
structure Quiet (c c' : Candidate) : Prop where
  view : c'.campaignView = c.campaignView
  stream : c.watcherStream = true → c'.watcherStream = true
  shutdown : c.reads.shutdown = true → c'.reads.shutdown = true
  resigned : c.resigned = true → c'.resigned = true
  destroyed : c.destroyed = true → c'.destroyed = true
  live : (∀ call ∈ c.calls, call.Sound c) → c.Live → c'.Live
  frames : ∀ call ∈ c'.calls, call.isCampaign →
    call ∈ c.calls ∨ call = .createWatchStream ∨ call = .createNode c.createNodeRequest none
  sound : (∀ call ∈ c.calls, call.Sound c) → ∀ call ∈ c'.calls, call.Sound c'
  once : c'.campaigns + c.promise.retrieved.toNat ≤ c.campaigns + c'.promise.retrieved.toNat

/-- The effects that a step can have. -/
inductive Effect (c c' : Candidate) : Act → Prop where
  | quiet (a : Act) (h : Quiet c c') : Effect c c' a
  | answeredTxn (call call' : Call) (resp : TxnResponse) (hmem : call ∈ c.calls)
      (hans : call.answered resp = some call')
      (heq : c' = c.moveCall call call') :
      Effect c c' (.answerTxn call resp)
  | created (req : TxnRequest) (resp : TxnResponse) (ok : Bool) (status : Status)
      (hmem : .createNode req (some resp) ∈ c.calls)
      (heq : c' = ((c.unblock (.createNode req (some resp))).onNodeCreated resp).1) :
      Effect c c' (.txnDone (.createNode req (some resp)) ok status)
  | republished (req : TxnRequest) (resp : TxnResponse) (ok : Bool) (status : Status)
      (hmem : .republish req (some resp) ∈ c.calls) (hsucc : resp.succeeded = true)
      (heq : c' = (c.unblock (.republish req (some resp))).startCampaign.1) :
      Effect c c' (.txnDone (.republish req (some resp)) ok status)
  | finished (hmem : .resignFinish ∈ c.calls) (heq : c' = (c.onFinished true).1) :
      Effect c c' (.finished true)
  | answeredRange (req : RangeRequest) (resp : RangeResponse)
      (hmem : .queryPredecessor req none ∈ c.pending)
      (heq : c' = c.answerRange req resp) :
      Effect c c' (.answerRange req resp)
  | completed (k : Completion) (hmem : k.op ∈ c.pending) (hwf : k.WellFormed)
      (heq : c' = (c.handle k).1) : Effect c c' (.complete k)

theorem quiet_same (hst : Still c c') (h : c'.calls = c.calls) : Quiet c c' where
  view := hst.view
  stream := hst.stream
  shutdown := hst.shutdown
  resigned := hst.resigned
  destroyed := hst.destroyed
  live := hst.live
  frames call hmem _ := Or.inl (h ▸ hmem)
  sound hs call hmem := (hs call (h ▸ hmem)).still hst
  once := by rw [hst.retrieved, campaigns, campaigns, h]

theorem quiet_erase {call : Call} (hst : Still c c') (h : c'.calls = c.calls.erase call) :
    Quiet c c' where
  view := hst.view
  stream := hst.stream
  shutdown := hst.shutdown
  resigned := hst.resigned
  destroyed := hst.destroyed
  live := hst.live
  frames call' hmem _ := Or.inl (Multiset.mem_of_mem_erase (h ▸ hmem))
  sound hs call' hmem := (hs call' (Multiset.mem_of_mem_erase (h ▸ hmem))).still hst
  once := by
    have hle := Pool.countP_erase_le (fun call : Call => call.isCampaign) (a := call) (s := c.calls)
    rw [hst.retrieved, campaigns, campaigns, h]
    omega

theorem quiet_add {call : Call} (hst : Still c c') (h : c'.calls = call ::ₘ c.calls)
    (hc : call.isCampaign = false)
    (hnew : (∀ call ∈ c.calls, call.Sound c) → call.Sound c') : Quiet c c' where
  view := hst.view
  stream := hst.stream
  shutdown := hst.shutdown
  resigned := hst.resigned
  destroyed := hst.destroyed
  live := hst.live
  frames call' hmem hcamp := by
    rw [h] at hmem
    rcases Multiset.mem_cons.mp hmem with rfl | hmem
    · rw [hc] at hcamp
      cases hcamp
    · exact Or.inl hmem
  sound hs call' hmem := by
    rw [h] at hmem
    rcases Multiset.mem_cons.mp hmem with rfl | hmem
    · exact hnew hs
    · exact (hs call' hmem).still hst
  once := by
    rw [hst.retrieved, campaigns, campaigns, h, Multiset.countP_cons_of_neg _ (by simp [hc])]

theorem quiet_replace {call call' : Call} (hst : Still c c')
    (h : c'.calls = call' ::ₘ c.calls.erase call) (hc : call'.isCampaign = false)
    (hnew : (∀ call ∈ c.calls, call.Sound c) → call'.Sound c') : Quiet c c' where
  view := hst.view
  stream := hst.stream
  shutdown := hst.shutdown
  resigned := hst.resigned
  destroyed := hst.destroyed
  live := hst.live
  frames call'' hmem hcamp := by
    rw [h] at hmem
    rcases Multiset.mem_cons.mp hmem with rfl | hmem
    · rw [hc] at hcamp
      cases hcamp
    · exact Or.inl (Multiset.mem_of_mem_erase hmem)
  sound hs call'' hmem := by
    rw [h] at hmem
    rcases Multiset.mem_cons.mp hmem with rfl | hmem
    · exact hnew hs
    · exact (hs call'' (Multiset.mem_of_mem_erase hmem)).still hst
  once := by
    have hle := Pool.countP_erase_le (fun call : Call => call.isCampaign) (a := call) (s := c.calls)
    rw [hst.retrieved, campaigns, campaigns, h, Multiset.countP_cons_of_neg _ (by simp [hc])]
    omega

theorem quiet_unblock (call : Call) : Quiet c (c.unblock call) :=
  quiet_erase { view := rfl, retrieved := rfl } rfl

theorem quiet_onStreamCreated {ok : Bool} (hmem : .createWatchStream ∈ c.calls) :
    Quiet c (c.onStreamCreated ok).1 := by
  unfold onStreamCreated
  cases ok with
  | false => exact quiet_unblock _
  | true =>
    simp only [Bool.not_true, Bool.false_eq_true, if_false, createNode]
    split
    · exact quiet_erase { view := rfl, retrieved := rfl, stream := fun _ => rfl } rfl
    · refine ⟨rfl, fun _ => rfl, id, id, id, fun _ h => (live_block _ _).mpr h, ?_, ?_, ?_⟩
      · intro call hcall _
        rcases Multiset.mem_cons.mp hcall with rfl | hcall
        · exact Or.inr (Or.inr rfl)
        · exact Or.inl (Multiset.mem_of_mem_erase hcall)
      · intro hs call hcall
        rcases Multiset.mem_cons.mp hcall with rfl | hcall
        · exact ⟨⟨c.candidateValue, rfl⟩, rfl⟩
        · exact (hs call (Multiset.mem_of_mem_erase hcall)).still
            { view := rfl, retrieved := rfl, stream := fun _ => rfl }
      -- the frame of the stream becomes the frame of the first Txn
      · have hcount := Pool.countP_erase_of_pos (fun call : Call => call.isCampaign) hmem rfl
        have hnew : Multiset.countP (fun call : Call => call.isCampaign)
            (.createNode c.createNodeRequest none ::ₘ c.calls.erase .createWatchStream) =
            c.campaigns := by
          rw [Multiset.countP_cons_of_pos (p := fun call : Call => call.isCampaign) _ rfl, hcount]
          rfl
        exact Nat.add_le_add_right hnew.le _

theorem quiet_resign : Quiet c c.resign.1 := by
  -- the flag that is set allows `reads_` to be shut down from now on
  have hlive : c.Live → Live { c with resigned := true } := fun h => ⟨h.1, fun _ => Or.inl rfl⟩
  unfold resign
  split
  · exact quiet_same (Still.refl _) rfl
  · cases hs : c.watcherStream with
    | true =>
      simp only [Bool.not_true, Bool.false_eq_true, if_false]
      refine quiet_add ?_ rfl rfl (fun _ => ⟨rfl, rfl⟩)
      exact
        { view := rfl
          retrieved := rfl
          resigned := fun _ => rfl
          live := fun _ => hlive
          stream := fun _ => rfl }
    | false =>
      simp only [Bool.not_false, if_true]
      refine quiet_same ?_ rfl
      exact
        { view := rfl
          retrieved := rfl
          resigned := fun _ => rfl
          live := fun _ => hlive
          stream := fun h => absurd (hs.symm.trans h) (by simp) }

theorem effect_onTxn {call : Call} {ok : Bool} {status : Status} (hmem : call ∈ c.calls)
    (h : c.onTxn call ok status = some (c', o)) : Effect c c' (.txnDone call ok status) := by
  cases call with
  | createNode req resp =>
    simp only [onTxn] at h
    split at h
    · obtain ⟨rfl, -⟩ := Prod.mk.inj (Option.some.inj h)
      exact .quiet _ (quiet_unblock _)
    · cases resp with
      | none => cases h
      | some resp =>
        exact .created req resp ok status hmem (fst_of_some h)
  | republish req resp =>
    simp only [onTxn] at h
    split at h
    · obtain ⟨rfl, -⟩ := Prod.mk.inj (Option.some.inj h)
      exact .quiet _ (quiet_unblock _)
    · cases resp with
      | none => cases h
      | some resp =>
        have heq := fst_of_some h
        by_cases hs : resp.succeeded = true
        · simp only [onRepublished, hs, if_true] at heq
          exact .republished req resp ok status hmem hs heq
        · simp only [onRepublished, hs] at heq
          rw [heq]
          exact .quiet _ (quiet_unblock _)
  | proclaim value req resp =>
    simp only [onTxn] at h
    split at h
    · obtain ⟨rfl, -⟩ := Prod.mk.inj (Option.some.inj h)
      exact .quiet _ (quiet_unblock _)
    · cases resp with
      | none => cases h
      | some resp =>
        have heq := fst_of_some h
        simp only [onProclaimed] at heq
        rw [heq]
        split
        · exact .quiet _ (quiet_erase { view := rfl, retrieved := rfl } rfl)
        · exact .quiet _ (quiet_unblock _)
  | _ => cases h

/-- What one step can do. -/
theorem act_cases (h : c.act a = some (c', o)) : Effect c c' a := by
  cases a with
  | campaign =>
    obtain ⟨-, rfl⟩ := of_guard_not h
    unfold campaign
    refine .quiet _ ?_
    split
    · exact quiet_same (Still.refl _) rfl
    · split
      · exact quiet_same (Still.refl _) rfl
      · rename_i hret
        refine ⟨rfl, id, id, id, id, fun _ h => (live_block _ _).mpr h, ?_, ?_, ?_⟩
        · intro call hmem _
          rcases Multiset.mem_cons.mp hmem with rfl | hmem
          · exact Or.inr (Or.inl rfl)
          · exact Or.inl hmem
        · intro hs call hmem
          rcases Multiset.mem_cons.mp hmem with rfl | hmem
          · trivial
          -- not `Still`: the future is taken
          · have hsame := hs call hmem
            cases call <;> exact hsame
        -- the one frame that a fresh promise pays for
        · have hnew : Multiset.countP (fun call : Call => call.isCampaign)
              (.createWatchStream ::ₘ c.calls) = c.campaigns + 1 :=
            Multiset.countP_cons_of_pos _ rfl
          have hr : c.promise.retrieved = false := by simpa using hret
          rw [hr]
          exact hnew.le
  | proclaim value =>
    obtain ⟨-, rfl⟩ := of_guard_not h
    unfold proclaim
    split
    · exact .quiet _ (quiet_same (Still.refl _) rfl)
    · refine .quiet _ (quiet_add { view := rfl, retrieved := rfl } rfl rfl (fun _ => ?_))
      exact publishRequest_singlePut c value none (by simp)
  | resign =>
    obtain ⟨-, rfl⟩ := of_guard_not h
    exact .quiet _ quiet_resign
  | destroy =>
    obtain ⟨-, rfl⟩ := of_guard_not h
    refine .quiet _ (quiet_add ?_ rfl rfl (fun _ => rfl))
    exact
      { view := rfl
        retrieved := rfl
        destroyed := fun _ => rfl
        live := fun _ _ => ⟨fun _ => rfl, fun _ => Or.inr rfl⟩ }
  | answerRange req resp =>
    obtain ⟨hmem, heq⟩ := of_guard h
    exact .answeredRange req resp hmem heq
  | answerTxn call resp =>
    simp only [act] at h
    split at h
    · rename_i hmem
      cases hans : call.answered resp with
      | none =>
        rw [hans] at h
        cases h
      | some call' =>
        rw [hans] at h
        exact .answeredTxn call call' resp hmem hans (fst_of_some h)
    · cases h
  | complete k =>
    obtain ⟨hk, heq⟩ := of_guard h
    exact .completed k hk.1 hk.2 heq
  | streamCreated ok =>
    obtain ⟨hmem, rfl⟩ := of_guard h
    exact .quiet _ (quiet_onStreamCreated hmem)
  | txnDone call ok status =>
    simp only [act] at h
    split at h
    · rename_i hmem
      exact effect_onTxn hmem h
    · cases h
  | cancelWritten writes w =>
    obtain ⟨hmem, rfl⟩ := of_guard h
    refine .quiet _ (quiet_replace { view := rfl, retrieved := rfl } rfl rfl (fun hs => ?_))
    exact hs _ hmem.1
  | cancelsDone =>
    obtain ⟨hmem, rfl⟩ := of_guard h
    refine .quiet _ (quiet_replace ?_ rfl rfl (fun hs => ⟨(hs _ hmem).1, rfl⟩))
    exact
      { view := rfl
        retrieved := rfl
        shutdown := fun _ => rfl
        live := fun hs h => ⟨h.1, fun _ => Or.inl (hs _ hmem).2⟩ }
  | readsDone =>
    obtain ⟨hmem, rfl⟩ := of_guard h
    refine .quiet _ (quiet_replace { view := rfl, retrieved := rfl } rfl rfl (fun hs => ?_))
    exact ⟨(hs _ hmem.1).2, hmem.2⟩
  | writesDone ok =>
    obtain ⟨hmem, rfl⟩ := of_guard h
    unfold onWritesDone
    split
    · exact .quiet _ (quiet_unblock _)
    · refine .quiet _ (quiet_replace { view := rfl, retrieved := rfl } rfl rfl (fun hs => ?_))
      exact hs _ hmem
  | finished ok =>
    obtain ⟨hmem, heq⟩ := of_guard h
    cases ok with
    | true => exact .finished hmem heq
    | false =>
      rw [heq]
      exact .quiet _ (quiet_erase { view := rfl, retrieved := rfl } rfl)
  | opsDrained =>
    obtain ⟨hmem, rfl⟩ := of_guard h
    refine .quiet _ (quiet_replace ?_ rfl rfl (fun _ => trivial))
    exact
      { view := rfl
        retrieved := rfl
        shutdown := fun _ => rfl
        live := fun hs h => ⟨h.1, fun _ => Or.inr (hs _ hmem.1)⟩ }
  | readsDrained =>
    obtain ⟨-, rfl⟩ := of_guard h
    exact .quiet _ (quiet_erase { view := rfl, retrieved := rfl } rfl)

/-- How `create_node()` goes on after its first Txn: with the node it created, with
the node it adopted, with a second Txn to publish its value on an adopted node, or
with an exception. -/
theorem onNodeCreated_cases (c : Candidate) (resp : TxnResponse) :
    (resp.succeeded = true ∧
      (c.onNodeCreated resp).1 = (startCampaign { c with creationRevision := resp.revision }).1) ∨
    (∃ kv, resp.responses = [.range [kv]] ∧
      (c.onNodeCreated resp).1 =
        (startCampaign { c with creationRevision := kv.createRevision }).1) ∨
    (∃ kv, resp.responses = [.range [kv]] ∧ ∃ req, req.SinglePut ∧
      (c.onNodeCreated resp).1 =
        block { c with creationRevision := kv.createRevision } (.republish req none)) ∨
    (c.onNodeCreated resp).1 = { c with creationRevision := resp.revision } := by
  simp only [onNodeCreated]
  by_cases hsucc : resp.succeeded = true
  · left
    simp [hsucc]
  · right
    simp only [hsucc]
    match hresp : resp.responses with
    | [.range [kv]] =>
      simp only [responseRangeKvs]
      by_cases hv : kv.value ≠ c.candidateValue
      · right
        left
        refine ⟨kv, rfl, _, publishRequest_singlePut
          { c with creationRevision := kv.createRevision } c.candidateValue
          (some (.deleteRange c.key)) (by simp [RequestOp.isPut]), ?_⟩
        simp [hv]
        rfl
      · left
        refine ⟨kv, rfl, ?_⟩
        simp [hv]
    | [] => exact Or.inr (Or.inr rfl)
    | _ :: _ :: _ => exact Or.inr (Or.inr rfl)
    | [.range []] => exact Or.inr (Or.inr rfl)
    | [.range (_ :: _ :: _)] => exact Or.inr (Or.inr rfl)
    | [.put] => exact Or.inr (Or.inr rfl)
    | [.deleteRange _] => exact Or.inr (Or.inr rfl)

/-! ## The cancel writes of `resign()` -/

/-- The calls that wait for cancel writes. -/
def Call.isCancels : Call → Bool
  | .resignCancels _ => true
  | _ => false

/-- The steps that write cancel requests, or complete the writes. -/
def Act.isCancels : Act → Bool
  | .resign => true
  | .cancelWritten _ _ => true
  | .cancelsDone => true
  | _ => false

theorem answered_isCancels {call call' : Call} {resp : TxnResponse}
    (h : call.answered resp = some call') : call.isCancels = false ∧ call'.isCancels = false := by
  cases call with
  | createNode req r =>
    cases r <;> cases h
    exact ⟨rfl, rfl⟩
  | republish req r =>
    cases r <;> cases h
    exact ⟨rfl, rfl⟩
  | proclaim value req r =>
    cases r <;> cases h
    exact ⟨rfl, rfl⟩
  | _ => cases h

section Weights

/-! A weight of calls that only the cancel writes have is not changed by other steps. -/

variable {w : Call → Nat} (hw : ∀ call : Call, call.isCancels = false → w call = 0)
include hw

theorem total_block {call : Call} (hcall : call.isCancels = false) :
    Pool.total w (c.block call).calls = Pool.total w c.calls := by
  simp [block, hw call hcall]

theorem total_unblock (call : Call) (hcall : call.isCancels = false) :
    Pool.total w (c.unblock call).calls = Pool.total w c.calls :=
  Pool.total_erase_of_zero w (hw call hcall)

theorem total_moveCall {call call' : Call} (hcall : call.isCancels = false)
    (hcall' : call'.isCancels = false) :
    Pool.total w (c.moveCall call call').calls = Pool.total w c.calls := by
  simp [moveCall, hw call' hcall', Pool.total_erase_of_zero w (hw call hcall)]

theorem total_onTxn {call : Call} {ok : Bool} {status : Status}
    (h : c.onTxn call ok status = some (c', o)) :
    Pool.total w c'.calls = Pool.total w c.calls := by
  have hstart : ∀ d : Candidate, d.startCampaign.1.calls = d.calls :=
    fun d => congrArg CallView.calls (callView_queryPredecessor d)
  cases call with
  | createNode req resp =>
    have hleft := total_unblock (c := c) hw (.createNode req resp) rfl
    simp only [onTxn] at h
    split at h
    · rw [fst_of_some h, hleft]
    · rcases Option.map_eq_some_iff.mp h with ⟨resp, _, heq⟩
      rw [← show _ = c' from congrArg Prod.fst heq]
      rcases onNodeCreated_cases (c.unblock (.createNode req _)) resp with
        ⟨_, heq⟩ | ⟨kv, _, heq⟩ | ⟨kv, _, req', _, heq⟩ | heq
      · rw [heq, hstart, ← hleft]
      · rw [heq, hstart, ← hleft]
      · rw [heq, total_block hw rfl, ← hleft]
      · rw [heq, ← hleft]
  | republish req resp =>
    have hleft := total_unblock (c := c) hw (.republish req resp) rfl
    simp only [onTxn] at h
    split at h
    · rw [fst_of_some h, hleft]
    · rcases Option.map_eq_some_iff.mp h with ⟨resp, _, heq⟩
      rw [← show _ = c' from congrArg Prod.fst heq, ← hleft]
      unfold onRepublished
      split
      · rw [hstart]
      · rfl
  | proclaim value req resp =>
    have hleft := total_unblock (c := c) hw (.proclaim value req resp) rfl
    simp only [onTxn] at h
    split at h
    · rw [fst_of_some h, hleft]
    · rcases Option.map_eq_some_iff.mp h with ⟨resp, _, heq⟩
      rw [← show _ = c' from congrArg Prod.fst heq, ← hleft]
      unfold onProclaimed
      split <;> rfl
  | _ => cases h

theorem total_act (hact : c.act a = some (c', o)) (ha : a.isCancels = false) :
    Pool.total w c'.calls = Pool.total w c.calls := by
  cases a with
  | campaign =>
    obtain ⟨-, rfl⟩ := of_guard_not hact
    unfold campaign
    split
    · rfl
    · split
      · rfl
      · exact total_block hw rfl
  | proclaim value =>
    obtain ⟨-, rfl⟩ := of_guard_not hact
    unfold proclaim
    split
    · rfl
    · exact total_block hw rfl
  | destroy =>
    obtain ⟨-, rfl⟩ := of_guard_not hact
    simp [hw .cleanupOps rfl]
  | answerRange req resp =>
    obtain ⟨-, rfl⟩ := of_guard hact
    rfl
  | answerTxn call resp =>
    simp only [act] at hact
    split at hact
    · rcases Option.map_eq_some_iff.mp hact with ⟨call', hans, heq⟩
      rw [← show _ = c' from congrArg Prod.fst heq]
      exact total_moveCall hw (answered_isCancels hans).1 (answered_isCancels hans).2
    · cases hact
  | complete k =>
    obtain ⟨-, heq⟩ := of_guard hact
    have hcalls : (c.handle k).1.calls = c.calls :=
      congrArg CallView.calls (callView_handle c k)
    rw [heq, hcalls]
  | streamCreated ok =>
    obtain ⟨-, rfl⟩ := of_guard hact
    have hleft := total_unblock (c := c) hw .createWatchStream rfl
    unfold onStreamCreated
    cases ok with
    | false => exact hleft
    | true =>
      simp only [Bool.not_true, Bool.false_eq_true, if_false, createNode]
      split
      · exact hleft
      · rw [total_block hw rfl]
        exact hleft
  | txnDone call ok status =>
    simp only [act] at hact
    split at hact
    · exact total_onTxn hw hact
    · cases hact
  | readsDone =>
    obtain ⟨-, heq⟩ := of_guard hact
    rw [heq, onReadsDone, total_block hw rfl]
    exact Pool.total_erase_of_zero w (hw _ rfl)
  | writesDone ok =>
    obtain ⟨-, rfl⟩ := of_guard hact
    unfold onWritesDone
    cases ok with
    | false => exact total_unblock hw _ rfl
    | true =>
      simp only [Bool.not_true, Bool.false_eq_true, if_false]
      rw [total_block hw rfl]
      exact Pool.total_erase_of_zero w (hw _ rfl)
  | finished ok =>
    obtain ⟨-, rfl⟩ := of_guard hact
    cases ok with
    | false => exact Pool.total_erase_of_zero w (hw _ rfl)
    | true => exact Pool.total_erase_of_zero w (hw _ rfl)
  | opsDrained =>
    obtain ⟨-, rfl⟩ := of_guard hact
    exact total_moveCall hw rfl rfl
  | readsDrained =>
    obtain ⟨-, rfl⟩ := of_guard hact
    exact Pool.total_erase_of_zero w (hw _ rfl)
  | resign => cases ha
  | cancelWritten writes w => cases ha
  | cancelsDone => cases ha

end Weights

end GeeH.Candidate
