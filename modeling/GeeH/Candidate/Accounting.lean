import GeeH.Candidate.Invariants

/-!
# GeeH.Candidate.Accounting — what the counters of a candidate count

`ops_` counts the queries, the watch-create writes and the tracers, `reads_`
the reads. What a counter holds in excess of that is owed (`owed`,
`owedReads`). Every piece of code leaves what is owed alone, except that
`on_range_request()` returns without its `async_op_done` when the query was
cancelled: that operation stays owed for good.
-/

namespace GeeH.Candidate

open Etcd Machine

variable {c c' : Candidate} {a : Act} {o : Outcome}

/-- What `ops_` counts of an operation. -/
def Op.inOps : Op → Nat
  | .queryPredecessor _ _ => 1
  | .watchCreate _ _ => 1
  | .watchRead _ _ => 0

/-- The live tracers of a blocked call. -/
def Call.tracers : Call → Nat
  | .createWatchStream => 1
  | .createNode _ _ => 1
  | .republish _ _ => 1
  | .proclaim _ _ _ => 1
  | .resignWritesDone => 1
  | .resignFinish => 2
  | _ => 0

/-- The outstanding queries and watch-create writes, and the live tracers. -/
def outstanding (c : Candidate) : Nat :=
  Pool.total Op.inOps c.pending + Pool.total Call.tracers c.calls

/-- What `ops_` counts and is not outstanding. -/
def owed (c : Candidate) : Int := c.ops.pending - c.outstanding

/-- What `reads_` counts and is not outstanding. -/
def owedReads (c : Candidate) : Int := c.reads.pending - reading c.pending

/-- Every operation is counted, by one counter or the other. -/
theorem Op.counted (op : Op) : op.inOps + op.isRead.toNat = 1 := by
  cases op <;> rfl

/-- Where the counters are zero and nothing is owed, no operation is outstanding. -/
theorem pending_of_owed (hops : c.ops.pending = 0) (hreads : c.reads.pending = 0)
    (howed : 0 ≤ c.owed) (howed' : 0 ≤ c.owedReads) : c.pending = 0 := by
  unfold owed outstanding at howed
  unfold owedReads at howed'
  have hnone : Pool.total Op.inOps c.pending = 0 := by omega
  have hnone' : reading c.pending = 0 := by omega
  refine Multiset.eq_zero_of_forall_notMem ?_
  intro op hmem
  have hin := (Pool.total_eq_zero Op.inOps).mp hnone op hmem
  have hread := Multiset.countP_eq_zero.mp hnone' op hmem
  have hone := op.counted
  simp only [Bool.not_eq_true] at hread
  rw [hin, hread] at hone
  cases hone

/-- A piece of code that counts what it does, and has nothing to do with the destructor. -/
structure Balanced (c c' : Candidate) : Prop where
  ops : c'.owed = c.owed
  reads : c'.owedReads = c.owedReads
  destroyed : c'.destroyed = c.destroyed := by rfl
  shutdown : c'.ops.shutdown = c.ops.shutdown := by first | rfl | simp

theorem Balanced.refl (c : Candidate) : Balanced c c where
  ops := rfl
  reads := rfl

theorem Balanced.trans {c₁ c₂ c₃ : Candidate} (h : Balanced c₁ c₂) (h' : Balanced c₂ c₃) :
    Balanced c₁ c₃ where
  ops := h'.ops.trans h.ops
  reads := h'.reads.trans h.reads
  destroyed := h'.destroyed.trans h.destroyed
  shutdown := h'.shutdown.trans h.shutdown

/-- What the counters count has not changed. -/
theorem owed_of (hops : c'.ops.pending = c.ops.pending)
    (hreads : c'.reads.pending = c.reads.pending) (hpend : c'.pending = c.pending)
    (hcalls : Pool.total Call.tracers c'.calls = Pool.total Call.tracers c.calls) :
    c'.owed = c.owed ∧ c'.owedReads = c.owedReads := by
  constructor
  · rw [owed, owed, outstanding, outstanding, hops, hpend, hcalls]
  · rw [owedReads, owedReads, hreads, hpend]

/-! ## Calls -/

/-- A call enters a blocking point, with the tracer that it constructs there. -/
theorem balanced_block {call : Call} (hw : call.tracers = 1) (hops : c.ops.shutdown = false) :
    Balanced c (c.block call) := by
  refine { ops := ?_, reads := rfl, shutdown := AsyncOpCounter.asyncOpStart_shutdown _ }
  simp only [owed, outstanding, block, Pool.total_cons, hw,
    AsyncOpCounter.asyncOpStart_pending _ hops]
  omega

/-- A call leaves a blocking point, and its tracer is destroyed. -/
theorem balanced_unblock {call : Call} (hmem : call ∈ c.calls) (hw : call.tracers = 1) :
    Balanced c (c.unblock call) := by
  have htotal := Pool.total_erase Call.tracers hmem
  refine { ops := ?_, reads := rfl }
  simp only [owed, outstanding, unblock, AsyncOpCounter.asyncOpDone_pending]
  omega

/-- A call moves on, with as many tracers as before. -/
theorem balanced_move {call call' : Call} (hmem : call ∈ c.calls)
    (hw : call'.tracers = call.tracers) : Balanced c (c.moveCall call call') := by
  have htotal := Pool.total_erase Call.tracers hmem
  refine { ops := ?_, reads := rfl }
  simp only [owed, outstanding, moveCall, Pool.total_cons]
  omega

/-! ## What handlers and `query_predecessor()` post -/

theorem balanced_electionResult (c : Candidate) (b : Bool) : Balanced c (c.electionResult b) where
  ops := rfl
  reads := rfl

theorem balanced_queryPredecessor (c : Candidate) : Balanced c c.queryPredecessor := by
  unfold queryPredecessor
  split
  · exact balanced_electionResult c false
  · rename_i hops
    refine
      { ops := ?_
        reads := by simp [owedReads]
        shutdown := AsyncOpCounter.asyncOpStart_shutdown _ }
    simp only [owed, outstanding, Pool.total_cons, Op.inOps,
      AsyncOpCounter.asyncOpStart_pending _ (show c.ops.shutdown = false by simpa using hops)]
    omega

theorem balanced_createWatches (rev : Int) (c : Candidate) (kvs : List KeyValue) :
    Balanced c (createWatches rev c kvs).1 := by
  induction kvs generalizing c with
  | nil => exact .refl c
  | cons kv kvs ih =>
    unfold createWatches
    split
    · exact .refl c
    · rename_i hops
      refine Balanced.trans ?_ (ih _)
      refine
        { ops := ?_
          reads := by simp [owedReads, createWatch]
          shutdown := AsyncOpCounter.asyncOpStart_shutdown _ }
      simp only [owed, outstanding, createWatch, Pool.total_cons, Op.inOps,
        AsyncOpCounter.asyncOpStart_pending _ (show c.ops.shutdown = false by simpa using hops)]
      omega

theorem balanced_postRead {wkey : Bytes} {wrevision : Int} (h : ¬ c.reads.shutdown = true) :
    Balanced c
      { c with
        reads := c.reads.asyncOpStart
        pending := .watchRead wkey wrevision ::ₘ c.pending } := by
  refine { ops := by simp [owed, outstanding, Op.inOps], reads := ?_ }
  simp only [owedReads, reading_watchRead,
    AsyncOpCounter.asyncOpStart_pending _ (show c.reads.shutdown = false by simpa using h)]
  omega

theorem balanced_body (c : Candidate) (k : Completion) : Balanced c (c.body k).1 := by
  cases k with
  | rangeRequest req resp ok status =>
    rcases onRangeRequest_cases c ok status (resp.getD {}) with
      ⟨_, heq⟩ | ⟨_, _, heq⟩ | ⟨_, _, _, heq⟩ | ⟨_, _, _, heq⟩
    · rw [show (c.body (.rangeRequest req resp ok status)).1 = _ from heq]
      exact balanced_electionResult c false
    · rw [show (c.body (.rangeRequest req resp ok status)).1 = _ from heq]
      exact .refl c
    · rw [show (c.body (.rangeRequest req resp ok status)).1 = _ from heq]
      unfold checkElectionOverMaybe
      split
      · exact .refl c
      · exact balanced_electionResult c true
    · rw [show (c.body (.rangeRequest req resp ok status)).1 = _ from heq]
      exact balanced_createWatches _ _ _
  | watchCreate wkey wrevision ok =>
    simp only [body, onWatchCreate]
    split
    · exact .refl c
    · split
      · exact .refl c
      · rename_i hsh
        exact balanced_postRead hsh
  | watchRead wkey wrevision ok resp =>
    simp only [body, onWatchRead]
    have hrec : ∀ s, Balanced c { c.recordEvents resp with currentWatches := s } :=
      fun _ => { ops := rfl, reads := rfl }
    split
    · exact .refl c
    · split
      · exact (hrec _).trans (balanced_queryPredecessor _)
      · split
        · exact (hrec _).trans (balanced_queryPredecessor _)
        · split
          · exact hrec _
          · rename_i hsh
            exact (hrec _).trans (balanced_postRead hsh)

/-- A counter that is shut down is not touched by what a handler does after its
`async_op_done`. -/
theorem refused_body (c : Candidate) (k : Completion) :
    (c.ops.shutdown = true → (c.body k).1.ops.pending = c.ops.pending) ∧
    (c.reads.shutdown = true → (c.body k).1.reads.pending = c.reads.pending) := by
  have hquery : ∀ d : Candidate, d.ops.shutdown = true →
      d.queryPredecessor.ops.pending = d.ops.pending := by
    intro d hd
    simp [queryPredecessor, hd, electionResult]
  constructor
  · intro hops
    cases k with
    | rangeRequest req resp ok status =>
      rcases onRangeRequest_cases c ok status (resp.getD {}) with
        ⟨_, heq⟩ | ⟨_, _, heq⟩ | ⟨_, _, _, heq⟩ | ⟨_, _, _, heq⟩
      · rw [show (c.body (.rangeRequest req resp ok status)).1 = _ from heq]
        rfl
      · rw [show (c.body (.rangeRequest req resp ok status)).1 = _ from heq]
      · rw [show (c.body (.rangeRequest req resp ok status)).1 = _ from heq]
        unfold checkElectionOverMaybe
        split <;> rfl
      · rw [show (c.body (.rangeRequest req resp ok status)).1 = _ from heq,
          createWatches_of_shutdown _ hops]
    | watchCreate wkey wrevision ok =>
      simp only [body, onWatchCreate]
      split
      · rfl
      · split <;> rfl
    | watchRead wkey wrevision ok resp =>
      simp only [body, onWatchRead]
      split
      · rfl
      · split
        · exact hquery _ hops
        · split
          · exact hquery _ hops
          · split <;> rfl
  · intro hreads
    rcases posts_body c k with ⟨extra, hposts⟩
    rw [hposts.reads, hposts.drained hreads]
    simp

/-! ## Handlers -/

/-- What a handler takes off `ops_`. -/
def Completion.settles : Completion → Nat
  | .rangeRequest _ _ ok _ => ok.toNat
  | .watchCreate _ _ _ => 1
  | .watchRead _ _ _ _ => 0

/-- The operation that a cancelled query leaves in `ops_`. -/
def Completion.lost : Completion → Nat
  | .rangeRequest _ _ false _ => 1
  | _ => 0

theorem Completion.settles_add_lost (k : Completion) : k.settles + k.lost = k.op.inOps := by
  cases k with
  | rangeRequest _ _ ok _ => cases ok <;> rfl
  | _ => rfl

/-- Whether the handler of a completion works on `reads_`. -/
def Completion.isRead (k : Completion) : Bool := k.op.isRead

theorem reading_erase {op : Op} {s : Multiset Op} (hmem : op ∈ s) :
    reading (s.erase op) + op.isRead.toNat = reading s := by
  cases hread : op.isRead with
  | true => exact Pool.countP_erase_of_pos (fun op : Op => op.isRead) hmem hread
  | false => exact Pool.countP_erase_of_neg (fun op : Op => op.isRead) (by simp [hread])

/-- Between its entry and its `async_op_done`, the operation of a handler is owed. -/
theorem owed_enter {k : Completion} (hmem : k.op ∈ c.pending) :
    (c.enter k).owed = c.owed + k.op.inOps ∧
    (c.enter k).owedReads = c.owedReads + k.isRead.toNat := by
  have htotal := Pool.total_erase Op.inOps hmem
  have hread := reading_erase hmem
  constructor
  · simp only [owed, outstanding, enter]
    omega
  · simp only [owedReads, enter, Completion.isRead]
    omega

theorem owed_asyncOpDone (c : Candidate) (k : Completion) :
    (c.asyncOpDone k).owed = c.owed - k.settles ∧
    (c.asyncOpDone k).owedReads = c.owedReads - k.isRead.toNat := by
  cases k with
  | rangeRequest _ _ ok _ =>
    cases ok with
    | false => simp [asyncOpDone, Completion.settles, Completion.isRead, Completion.op, Op.isRead]
    | true =>
      simp only [asyncOpDone, Completion.settles, Completion.isRead, Completion.op, Op.isRead,
        owed, owedReads, outstanding, AsyncOpCounter.asyncOpDone_pending, if_true]
      constructor
      · simp
        omega
      · simp
  | watchCreate _ _ _ =>
    simp only [asyncOpDone, Completion.settles, Completion.isRead, Completion.op, Op.isRead,
      owed, owedReads, outstanding, AsyncOpCounter.asyncOpDone_pending]
    constructor
    · simp
      omega
    · simp
  | watchRead _ _ _ _ =>
    simp only [asyncOpDone, Completion.settles, Completion.isRead, Completion.op, Op.isRead,
      owed, owedReads, outstanding, AsyncOpCounter.asyncOpDone_pending]
    constructor
    · simp
    · simp
      omega

/-- A handler leaves a cancelled query owed, and nothing else. -/
theorem owed_handle {k : Completion} (hmem : k.op ∈ c.pending) :
    (c.handle k).1.owed = c.owed + k.lost ∧ (c.handle k).1.owedReads = c.owedReads := by
  have hbody := balanced_body ((c.enter k).asyncOpDone k) k
  have hdone := owed_asyncOpDone (c.enter k) k
  have henter := owed_enter hmem
  have hlost := k.settles_add_lost
  unfold handle
  constructor
  · rw [hbody.ops, hdone.1, henter.1]
    omega
  · rw [hbody.reads, hdone.2, henter.2]
    omega

/-! ## The stages of destruction -/

/-- How far the destructor is. Until it is entered, `ops_` grants every operation;
from then on no other call runs. -/
inductive Stage (c : Candidate) : Prop where
  | live (hd : c.destroyed = false) (hops : c.ops.shutdown = false)
  | cleanupOps (hd : c.destroyed = true) (hops : c.ops.shutdown = true)
      (hcalls : c.calls = {.cleanupOps})
  | cleanupReads (hd : c.destroyed = true) (hops : c.ops.shutdown = true)
      (hreads : c.reads.shutdown = true) (hcalls : c.calls = {.cleanupReads})
      (hzero : c.ops.pending = 0)
  | gone (hd : c.destroyed = true) (hops : c.ops.shutdown = true)
      (hreads : c.reads.shutdown = true) (hcalls : c.calls = 0)
      (hzero : c.ops.pending = 0) (hzero' : c.reads.pending = 0)

theorem Stage.congr (h : Stage c) (hview : c'.callView = c.callView)
    (hops : c.ops.shutdown = true → c.ops.pending = 0 → c'.ops.pending = 0)
    (hreads : c.reads.shutdown = true → c.reads.pending = 0 → c'.reads.pending = 0) :
    Stage c' := by
  have hd : c'.destroyed = c.destroyed := congrArg CallView.destroyed hview
  have ho : c'.ops.shutdown = c.ops.shutdown := congrArg CallView.opsShutdown hview
  have hr : c'.reads.shutdown = c.reads.shutdown := congrArg CallView.readsShutdown hview
  have hc : c'.calls = c.calls := congrArg CallView.calls hview
  cases h with
  | live h₁ h₂ => exact .live (hd.trans h₁) (ho.trans h₂)
  | cleanupOps h₁ h₂ h₃ => exact .cleanupOps (hd.trans h₁) (ho.trans h₂) (hc.trans h₃)
  | cleanupReads h₁ h₂ h₃ h₄ h₅ =>
    exact .cleanupReads (hd.trans h₁) (ho.trans h₂) (hr.trans h₃) (hc.trans h₄) (hops h₂ h₅)
  | gone h₁ h₂ h₃ h₄ h₅ h₆ =>
    exact .gone (hd.trans h₁) (ho.trans h₂) (hr.trans h₃) (hc.trans h₄) (hops h₂ h₅)
      (hreads h₃ h₆)

theorem Stage.enter (h : Stage c) (k : Completion) : Stage (c.enter k) :=
  h.congr (callView_enter c k) (fun _ h => h) (fun _ h => h)

/-- A counter that is zero owes no operation, so no handler takes one off it. -/
theorem Stage.asyncOpDone (h : Stage c) {k : Completion} (hops : (k.op.inOps : Int) ≤ c.owed)
    (hreads : (k.isRead.toNat : Int) ≤ c.owedReads) : Stage (c.asyncOpDone k) := by
  have hdone := owed_asyncOpDone c k
  have hlost := k.settles_add_lost
  have hpend : (c.asyncOpDone k).outstanding = c.outstanding := by
    rw [outstanding, outstanding, asyncOpDone_pending,
      show (c.asyncOpDone k).calls = c.calls from congrArg CallView.calls (callView_asyncOpDone c k)]
  unfold owed at hops hdone
  unfold owedReads at hreads hdone
  rw [hpend, asyncOpDone_pending] at hdone
  refine h.congr (callView_asyncOpDone c k) ?_ ?_
  · intro _ hzero
    omega
  · intro _ hzero
    omega

theorem Stage.body (h : Stage c) (k : Completion) : Stage (c.body k).1 := by
  rcases refused_body c k with ⟨hops, hreads⟩
  refine h.congr (callView_body c k) ?_ ?_
  · intro hsh hzero
    exact (hops hsh).trans hzero
  · intro hsh hzero
    exact (hreads hsh).trans hzero

/-- The calls of the destructor. -/
def Call.isCleanup : Call → Bool
  | .cleanupOps => true
  | .cleanupReads => true
  | _ => false

/-- A call other than the destructor's runs only on a live object. -/
theorem Stage.live_of_call (h : Stage c) {call : Call} (hmem : call ∈ c.calls)
    (hcall : call.isCleanup = false) : c.destroyed = false ∧ c.ops.shutdown = false := by
  cases h with
  | live hd hops => exact ⟨hd, hops⟩
  | cleanupOps _ _ hcalls =>
    rw [hcalls, Multiset.mem_singleton] at hmem
    rw [hmem] at hcall
    cases hcall
  | cleanupReads _ _ _ hcalls _ =>
    rw [hcalls, Multiset.mem_singleton] at hmem
    rw [hmem] at hcall
    cases hcall
  | gone _ _ _ hcalls _ _ =>
    rw [hcalls] at hmem
    exact absurd hmem (Multiset.notMem_zero _)

/-- `ops_` is open as long as the destructor has not been entered. -/
theorem Stage.open_of_live (h : Stage c) (hd : c.destroyed = false) : c.ops.shutdown = false := by
  cases h with
  | live _ hops => exact hops
  | cleanupOps hd' => exact absurd (hd.symm.trans hd') (by simp)
  | cleanupReads hd' => exact absurd (hd.symm.trans hd') (by simp)
  | gone hd' => exact absurd (hd.symm.trans hd') (by simp)

/-! ## Steps other than completions -/

theorem balanced_startCampaign (c : Candidate) : Balanced c c.startCampaign.1 :=
  (balanced_queryPredecessor c).trans { ops := rfl, reads := rfl }

theorem balanced_onNodeCreated (hops : c.ops.shutdown = false) (resp : TxnResponse) :
    Balanced c (c.onNodeCreated resp).1 := by
  have hlearn : ∀ rev, Balanced c { c with creationRevision := rev } :=
    fun _ => { ops := rfl, reads := rfl }
  rcases onNodeCreated_cases c resp with ⟨_, heq⟩ | ⟨kv, _, heq⟩ | ⟨kv, _, req, _, heq⟩ | heq
  · rw [heq]
    exact (hlearn _).trans (balanced_startCampaign _)
  · rw [heq]
    exact (hlearn _).trans (balanced_startCampaign _)
  · rw [heq]
    refine (hlearn kv.createRevision).trans (balanced_block rfl ?_)
    exact hops
  · rw [heq]
    exact hlearn _

theorem balanced_onTxn {call : Call} {ok : Bool} {status : Status} (hmem : call ∈ c.calls)
    (hops : c.ops.shutdown = false) (h : c.onTxn call ok status = some (c', o)) :
    Balanced c c' := by
  cases call with
  | createNode req resp =>
    have hleft : Balanced c (c.unblock (.createNode req resp)) := balanced_unblock hmem rfl
    simp only [onTxn] at h
    split at h
    · rw [fst_of_some h]
      exact hleft
    · rcases Option.map_eq_some_iff.mp h with ⟨resp, _, heq⟩
      rw [← show _ = c' from congrArg Prod.fst heq]
      refine hleft.trans (balanced_onNodeCreated ?_ resp)
      exact hops
  | republish req resp =>
    have hleft : Balanced c (c.unblock (.republish req resp)) := balanced_unblock hmem rfl
    simp only [onTxn] at h
    split at h
    · rw [fst_of_some h]
      exact hleft
    · rcases Option.map_eq_some_iff.mp h with ⟨resp, _, heq⟩
      rw [← show _ = c' from congrArg Prod.fst heq]
      unfold onRepublished
      split
      · exact hleft.trans (balanced_startCampaign _)
      · exact hleft
  | proclaim value req resp =>
    have hleft : Balanced c (c.unblock (.proclaim value req resp)) := balanced_unblock hmem rfl
    simp only [onTxn] at h
    split at h
    · rw [fst_of_some h]
      exact hleft
    · rcases Option.map_eq_some_iff.mp h with ⟨resp, _, heq⟩
      rw [← show _ = c' from congrArg Prod.fst heq]
      unfold onProclaimed
      split
      · exact hleft.trans { ops := rfl, reads := rfl }
      · exact hleft
  | _ => cases h

/-- The calls that a Txn answers have one tracer. -/
theorem answered_tracers {call call' : Call} {resp : TxnResponse}
    (h : call.answered resp = some call') :
    call'.tracers = call.tracers ∧ call.isCleanup = false := by
  cases call with
  | createNode req r =>
    cases r with
    | none =>
      cases h
      exact ⟨rfl, rfl⟩
    | some _ => cases h
  | republish req r =>
    cases r with
    | none =>
      cases h
      exact ⟨rfl, rfl⟩
    | some _ => cases h
  | proclaim value req r =>
    cases r with
    | none =>
      cases h
      exact ⟨rfl, rfl⟩
    | some _ => cases h
  | _ => cases h

/-- The calls that end with a Txn are not the destructor's. -/
theorem onTxn_isCleanup {call : Call} {ok : Bool} {status : Status}
    (h : c.onTxn call ok status = some (c', o)) : call.isCleanup = false := by
  cases call with
  | cleanupOps => cases h
  | cleanupReads => cases h
  | _ => rfl

/-- What a step may do to the counters that is not the end of an operation. -/
def Settled (c c' : Candidate) : Prop := Stage c' ∧ c'.owed = c.owed ∧ c'.owedReads = c.owedReads

theorem Balanced.settled (h : Balanced c c') (hd : c.destroyed = false)
    (hops : c.ops.shutdown = false) : Settled c c' :=
  ⟨.live (h.destroyed.trans hd) (h.shutdown.trans hops), h.ops, h.reads⟩

/-- The public calls. -/
theorem settled_public (hs : Stage c) (hd : c.destroyed = false) :
    Settled c c.campaign.1 ∧ (∀ value, Settled c (c.proclaim value).1) ∧ Settled c c.resign.1 := by
  have hops := hs.open_of_live hd
  refine ⟨?_, ?_, ?_⟩
  · refine Balanced.settled ?_ hd hops
    unfold campaign
    split
    · exact .refl c
    · split
      · exact .refl c
      · have hret : Balanced c { c with promise := { c.promise with retrieved := true } } :=
          { ops := rfl, reads := rfl }
        exact hret.trans (balanced_block rfl hops)
  · intro value
    refine Balanced.settled ?_ hd hops
    unfold proclaim
    split
    · exact .refl c
    · exact balanced_block rfl hops
  · refine Balanced.settled ?_ hd hops
    unfold resign
    split
    · exact .refl c
    · cases hstream : c.watcherStream with
      | false => exact { ops := rfl, reads := rfl }
      | true =>
        refine { ops := ?_, reads := rfl }
        simp [owed, outstanding, Call.tracers]

/-- The calls that `resign()` is made of. -/
theorem settled_resign (hs : Stage c) :
    (.resignCancels 0 ∈ c.calls → Settled c c.onCancelsDone) ∧
    (.resignReads ∈ c.calls → Settled c c.onReadsDone) ∧
    (∀ ok, .resignWritesDone ∈ c.calls → Settled c (c.onWritesDone ok).1) ∧
    ∀ ok, .resignFinish ∈ c.calls → Settled c (c.onFinished ok).1 := by
  refine ⟨?_, ?_, ?_, ?_⟩
  · intro hmem
    rcases hs.live_of_call hmem rfl with ⟨hd, hops⟩
    refine Balanced.settled ?_ hd hops
    have hmove : Balanced c (c.moveCall (.resignCancels 0) .resignReads) := balanced_move hmem rfl
    exact hmove.trans { ops := rfl, reads := rfl }
  · intro hmem
    rcases hs.live_of_call hmem rfl with ⟨hd, hops⟩
    refine Balanced.settled ?_ hd hops
    have htotal := Pool.total_erase Call.tracers hmem
    have hleft : Balanced c { c with calls := c.calls.erase .resignReads } := by
      refine { ops := ?_, reads := rfl }
      simp only [Call.tracers] at htotal
      simp only [owed, outstanding]
      omega
    refine hleft.trans (balanced_block rfl ?_)
    exact hops
  · intro ok hmem
    rcases hs.live_of_call hmem rfl with ⟨hd, hops⟩
    refine Balanced.settled ?_ hd hops
    unfold onWritesDone
    cases ok with
    | false => exact balanced_unblock hmem rfl
    | true =>
      have htotal := Pool.total_erase Call.tracers hmem
      refine
        { ops := ?_
          reads := rfl
          shutdown := AsyncOpCounter.asyncOpStart_shutdown _ }
      simp only [Call.tracers] at htotal
      simp only [Bool.not_true, Bool.false_eq_true, if_false, owed, outstanding, block,
        Pool.total_cons, Call.tracers, AsyncOpCounter.asyncOpStart_pending _ hops]
      omega
  · intro ok hmem
    rcases hs.live_of_call hmem rfl with ⟨hd, hops⟩
    refine Balanced.settled ?_ hd hops
    have htotal := Pool.total_erase Call.tracers hmem
    have hleft : Balanced c { c with
        ops := c.ops.asyncOpDone.asyncOpDone
        calls := c.calls.erase .resignFinish } := by
      refine { ops := ?_, reads := rfl }
      simp only [Call.tracers] at htotal
      simp only [owed, outstanding, AsyncOpCounter.asyncOpDone_pending]
      omega
    cases ok with
    | false => exact hleft
    | true => exact hleft.trans (balanced_electionResult _ false)

/-- The destructor. -/
theorem settled_cleanup (hs : Stage c) :
    (.cleanupOps ∈ c.calls → c.ops.pending = 0 →
      Settled c { c.moveCall .cleanupOps .cleanupReads with reads := c.reads.setShutdown }) ∧
    (.cleanupReads ∈ c.calls → c.reads.pending = 0 →
      Settled c { c with calls := c.calls.erase .cleanupReads }) := by
  constructor
  · intro hmem hzero
    have hmove : Balanced c (c.moveCall .cleanupOps .cleanupReads) := balanced_move hmem rfl
    refine ⟨?_, hmove.ops, hmove.reads⟩
    cases hs with
    | live hd hops => exact .live hd hops
    | cleanupOps hd hops hcalls =>
      refine .cleanupReads hd hops rfl ?_ hzero
      simp [moveCall, hcalls]
    | cleanupReads _ _ _ hcalls _ =>
      rw [hcalls] at hmem
      cases Multiset.mem_singleton.mp hmem
    | gone _ _ _ hcalls _ _ =>
      rw [hcalls] at hmem
      exact absurd hmem (Multiset.notMem_zero _)
  · intro hmem hzero
    have htotal := Pool.total_erase Call.tracers hmem
    simp only [Call.tracers, Nat.zero_add] at htotal
    refine ⟨?_, owed_of rfl rfl rfl htotal⟩
    cases hs with
    | live hd hops => exact .live hd hops
    | cleanupOps _ _ hcalls =>
      rw [hcalls] at hmem
      cases Multiset.mem_singleton.mp hmem
    | cleanupReads hd hops hreads hcalls hzero' =>
      refine .gone hd hops hreads ?_ hzero' hzero
      simp [hcalls]
    | gone _ _ _ hcalls _ _ =>
      rw [hcalls] at hmem
      exact absurd hmem (Multiset.notMem_zero _)

/-- Every step other than a completion leaves alone what is owed. -/
theorem settled_act (hs : Stage c) (ha : ∀ k, a ≠ .complete k) (hact : c.act a = some (c', o)) :
    Settled c c' := by
  cases a with
  | campaign =>
    obtain ⟨hd, rfl⟩ := of_guard_not hact
    exact (settled_public hs (by simpa using hd)).1
  | proclaim value =>
    obtain ⟨hd, rfl⟩ := of_guard_not hact
    exact (settled_public hs (by simpa using hd)).2.1 value
  | resign =>
    obtain ⟨hd, rfl⟩ := of_guard_not hact
    exact (settled_public hs (by simpa using hd)).2.2
  | destroy =>
    obtain ⟨hd, heq⟩ := of_guard_not hact
    rcases not_or.mp hd with ⟨_, hcalls⟩
    have hcalls' : c.calls = 0 := by simpa using hcalls
    rw [heq]
    refine ⟨.cleanupOps rfl rfl ?_, owed_of rfl rfl rfl ?_⟩
    · show _ ::ₘ c.calls = _
      rw [hcalls']
      rfl
    · simp [Call.tracers]
  | answerRange req resp =>
    obtain ⟨hmem, rfl⟩ := of_guard hact
    have htotal := Pool.total_erase Op.inOps hmem
    have hread := reading_erase hmem
    refine ⟨hs.congr rfl (fun _ h => h) (fun _ h => h), ?_, ?_⟩
    · simp only [Op.inOps] at htotal
      simp only [owed, outstanding, answerRange, Pool.total_cons, Op.inOps]
      omega
    · simp only [Op.isRead, Bool.toNat_false, Nat.add_zero] at hread
      simp only [owedReads, answerRange, reading_queryPredecessor]
      omega
  | answerTxn call resp =>
    simp only [act] at hact
    split at hact
    · rename_i hmem
      rcases Option.map_eq_some_iff.mp hact with ⟨call', hans, heq⟩
      rcases answered_tracers hans with ⟨hw, hcl⟩
      rcases hs.live_of_call hmem hcl with ⟨hd, hops⟩
      rw [← show _ = c' from congrArg Prod.fst heq]
      exact (balanced_move hmem hw).settled hd hops
    · cases hact
  | complete k => exact absurd rfl (ha k)
  | streamCreated ok =>
    obtain ⟨hmem, heq⟩ := of_guard hact
    rcases hs.live_of_call hmem rfl with ⟨hd, hops⟩
    rw [heq]
    have hleft : Balanced c (c.unblock .createWatchStream) := balanced_unblock hmem rfl
    refine Balanced.settled ?_ hd hops
    unfold onStreamCreated
    cases ok with
    | false => exact hleft
    | true =>
      have hset : Balanced c { c.unblock .createWatchStream with watcherStream := true } :=
        hleft.trans { ops := rfl, reads := rfl }
      simp only [Bool.not_true, Bool.false_eq_true, if_false, createNode]
      split
      · exact hset
      · exact hset.trans (balanced_block rfl hops)
  | txnDone call ok status =>
    simp only [act] at hact
    split at hact
    · rename_i hmem
      rcases hs.live_of_call hmem (onTxn_isCleanup hact) with ⟨hd, hops⟩
      exact (balanced_onTxn hmem hops hact).settled hd hops
    · cases hact
  | cancelWritten writes w =>
    obtain ⟨hmem, heq⟩ := of_guard hact
    rcases hs.live_of_call hmem.1 rfl with ⟨hd, hops⟩
    rw [heq]
    have hmove : Balanced c
        (c.moveCall (.resignCancels writes) (.resignCancels (writes.erase w))) :=
      balanced_move hmem.1 rfl
    exact hmove.settled hd hops
  | cancelsDone =>
    obtain ⟨hmem, rfl⟩ := of_guard hact
    exact (settled_resign hs).1 hmem
  | readsDone =>
    obtain ⟨hmem, rfl⟩ := of_guard hact
    exact (settled_resign hs).2.1 hmem.1
  | writesDone ok =>
    obtain ⟨hmem, rfl⟩ := of_guard hact
    exact (settled_resign hs).2.2.1 ok hmem
  | finished ok =>
    obtain ⟨hmem, rfl⟩ := of_guard hact
    exact (settled_resign hs).2.2.2 ok hmem
  | opsDrained =>
    obtain ⟨hmem, rfl⟩ := of_guard hact
    exact (settled_cleanup hs).1 hmem.1 hmem.2
  | readsDrained =>
    obtain ⟨hmem, rfl⟩ := of_guard hact
    exact (settled_cleanup hs).2 hmem.1 hmem.2

/-! ## Whole runs -/

/-- The operation that a step leaves in `ops_`. -/
def Act.lost : Act → Nat
  | .complete k => k.lost
  | _ => 0

/-- The destructor is where it is, and the counters count at least what is outstanding. -/
structure Accounted (c : Candidate) : Prop where
  stage : Stage c
  ops : 0 ≤ c.owed
  reads : 0 ≤ c.owedReads

theorem owed_act (hs : Stage c) (hact : c.act a = some (c', o)) :
    c'.owed = c.owed + a.lost ∧ c'.owedReads = c.owedReads := by
  cases a with
  | complete k =>
    rcases completed_of_act hact with ⟨hmem, _, rfl⟩
    exact owed_handle hmem
  | _ =>
    rcases settled_act hs (fun k h => by cases h) hact with ⟨_, hops, hreads⟩
    exact ⟨by rw [hops]; simp [Act.lost], hreads⟩

theorem Accounted.step (h : Accounted c) (hact : c.act a = some (c', o)) : Accounted c' := by
  rcases owed_act h.stage hact with ⟨hops, hreads⟩
  have hpos := h.ops
  have hpos' := h.reads
  refine ⟨?_, by omega, by omega⟩
  by_cases ha : ∃ k, a = .complete k
  · rcases ha with ⟨k, rfl⟩
    rcases completed_of_act hact with ⟨hmem, _, rfl⟩
    have henter := owed_enter hmem
    refine ((h.stage.enter k).asyncOpDone ?_ ?_).body k
    · omega
    · omega
  · exact (settled_act h.stage (fun k hk => ha ⟨k, hk⟩) hact).1

/-- The counters count what is outstanding, and nothing else. -/
def Exact (c : Candidate) : Prop :=
  c.ops.pending = c.outstanding ∧ c.reads.pending = reading c.pending

theorem exact_iff : c.Exact ↔ c.owed = 0 ∧ c.owedReads = 0 := by
  unfold Exact owed owedReads
  omega

/-- No query is cancelled. -/
def Uncancelled (_ : Candidate) (a : Act) : Prop := a.lost = 0

instance (c : Candidate) (a : Act) : Decidable (c.Uncancelled a) :=
  inferInstanceAs (Decidable (_ = _))

theorem init_stage (name : Bytes) (leaseId : UInt64) (value : Bytes) :
    Stage (init name leaseId value) := .live rfl rfl

theorem reachable_accounted {allowed : Candidate → Act → Prop}
    (h : machine.Reachable allowed c) : Accounted c := by
  refine h.invariant ?_ ?_
  · rintro _ ⟨name, leaseId, value, rfl⟩
    exact ⟨init_stage name leaseId value, le_rfl, le_rfl⟩
  · intro c a c' hacc _ hstep
    rcases machine_step hstep with ⟨o, hact⟩
    exact hacc.step hact

theorem exact_step (hs : Stage c) (h : c.Exact) (hact : c.act a = some (c', o)) :
    c'.Exact ↔ c.Uncancelled a := by
  rcases owed_act hs hact with ⟨hops, hreads⟩
  rcases exact_iff.mp h with ⟨hzero, hzero'⟩
  rw [exact_iff, hops, hreads, Uncancelled]
  omega

/-- In runs in which no query is cancelled, the counters count exactly what is outstanding,
and the destructor does not block when nothing is; a step from such a state breaks the
count if and only if it completes a cancelled query. -/
theorem accounting (c : Candidate) (hc : machine.Reachable Uncancelled c) : c.Exact ∧
    (c.outstanding = 0 → .cleanupOps ∈ c.calls → (machine.step c .opsDrained).isSome) ∧
    (reading c.pending = 0 → .cleanupReads ∈ c.calls → (machine.step c .readsDrained).isSome) ∧
    ∀ c' a, machine.step c a = some c' → (c'.Exact ↔ c.Uncancelled a) := by
  have hexact : c.Exact := by
    refine hc.invariant_of (fun _ h => (reachable_accounted h).stage) ?_ ?_
    · rintro _ ⟨name, leaseId, value, rfl⟩
      exact ⟨rfl, rfl⟩
    · intro c a c' hs ih hok hstep
      rcases machine_step hstep with ⟨o, hact⟩
      exact (exact_step hs ih hact).mpr hok
  refine ⟨hexact, ?_, ?_, ?_⟩
  · intro hnone hmem
    have hzero : c.ops.pending = 0 := by rw [hexact.1, hnone]; rfl
    show ((c.act .opsDrained).map Prod.fst).isSome = true
    simp [act, hmem, hzero]
  · intro hnone hmem
    have hzero : c.reads.pending = 0 := by rw [hexact.2, hnone]; rfl
    show ((c.act .readsDrained).map Prod.fst).isSome = true
    simp [act, hmem, hzero]
  · intro c' a hstep
    rcases machine_step hstep with ⟨o, hact⟩
    exact exact_step (reachable_accounted hc).stage hexact hact

/-- The query is answered, the candidate is elected and destroyed, and the destructor goes
through. -/
theorem accounting_elected : ∃ c, machine.Reachable Uncancelled c ∧ c.elected = true ∧
    .cleanupOps ∈ c.calls ∧ c.Exact ∧ (machine.step c .opsDrained).isSome := by
  rcases reachable_of_execIf machine (fun c a => decide (c.Uncancelled a)) (init [] 1 [])
    (campaignTrace ++ [.answerRange firstQuery { revision := 2 },
      .complete (.rangeRequest firstQuery (some { revision := 2 }) true {}), .destroy])
    (fun c => c.elected && decide (.cleanupOps ∈ c.calls) && decide (c.outstanding = 0))
    (fun _ _ => of_decide_eq_true) ⟨_, _, _, rfl⟩ (by decide) with ⟨c, hreach, hcheck⟩
  simp only [Bool.and_eq_true, decide_eq_true_eq] at hcheck
  rcases hcheck with ⟨⟨hel, hmem⟩, hnone⟩
  rcases accounting c hreach with ⟨hexact, hdrains, _⟩
  exact ⟨c, hreach, hel, hmem, hexact, hdrains hnone hmem⟩

/-- The first query is cancelled: nothing is outstanding, `ops_` counts one operation, and the
destructor waits for it. -/
theorem cancelled_query_counted : ∃ c, machine.Reachable Any c ∧ c.pending = 0 ∧
    c.outstanding = 0 ∧ c.ops.pending = 1 ∧ .cleanupOps ∈ c.calls ∧ ¬ c.Exact ∧
    machine.step c .opsDrained = none := by
  rcases reachable_of_exec machine (init [] 1 [])
    (campaignTrace ++ [.complete (.rangeRequest firstQuery none false {}), .destroy])
    (fun c => decide (c.pending = 0) && decide (c.outstanding = 0) && decide (c.ops.pending = 1) &&
      decide (.cleanupOps ∈ c.calls) && (machine.step c .opsDrained).isNone)
    ⟨_, _, _, rfl⟩ (by decide) with ⟨c, hreach, hcheck⟩
  simp only [Bool.and_eq_true, decide_eq_true_eq, Option.isNone_iff_eq_none] at hcheck
  rcases hcheck with ⟨⟨⟨⟨hpend, hnone⟩, hone⟩, hmem⟩, hstep⟩
  refine ⟨c, hreach, hpend, hnone, hone, hmem, ?_, hstep⟩
  rintro ⟨hops, _⟩
  rw [hone, hnone] at hops
  cases hops

end GeeH.Candidate
