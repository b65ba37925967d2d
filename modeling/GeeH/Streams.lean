import GeeH.Candidate.Invariants
import GeeH.Observer.Steps

/-!
# GeeH.Streams — the writes on the watch streams

gRPC allows one outstanding Write on a stream. A candidate writes the requests
for its watches from `on_range_request()` and the cancel requests from
`resign()`, an observer its request from `on_range_request()` and the cancel
request from `shutdown()`. Nothing in the code keeps them apart: `SingleWriter`
says which steps may write, and when.
-/

namespace GeeH

open Etcd Machine

/-! ## The candidate -/

namespace Candidate

variable {c c' : Candidate} {a : Act} {o : Outcome}

/-- The writes among the operations. -/
def Op.isWrite : Op → Bool
  | .watchCreate _ _ => true
  | _ => false

def creating (s : Multiset Op) : Nat := s.countP fun op => op.isWrite

@[simp] theorem creating_query (req : RangeRequest) (resp : Option RangeResponse) (s : Multiset Op) :
    creating (.queryPredecessor req resp ::ₘ s) = creating s :=
  Multiset.countP_cons_of_neg _ (by simp [Op.isWrite])

@[simp] theorem creating_create (k : Bytes) (rev : Int) (s : Multiset Op) :
    creating (.watchCreate k rev ::ₘ s) = creating s + 1 :=
  Multiset.countP_cons_of_pos _ rfl

@[simp] theorem creating_read (k : Bytes) (rev : Int) (s : Multiset Op) :
    creating (.watchRead k rev ::ₘ s) = creating s :=
  Multiset.countP_cons_of_neg _ (by simp [Op.isWrite])

theorem creating_erase {op : Op} {s : Multiset Op} (hmem : op ∈ s) :
    creating (s.erase op) + op.isWrite.toNat = creating s := by
  cases hw : op.isWrite with
  | true => exact Pool.countP_erase_of_pos (fun op : Op => op.isWrite) hmem hw
  | false => exact Pool.countP_erase_of_neg (fun op : Op => op.isWrite) (by simp [hw])

/-- The cancel writes that a call waits for. -/
def Call.cancels : Call → Nat
  | .resignCancels writes => writes.card
  | _ => 0

theorem cancels_of_not (call : Call) (h : call.isCancels = false) : call.cancels = 0 := by
  cases call with
  | resignCancels writes => cases h
  | _ => rfl

/-- The writes outstanding on `watcher_stream_`. -/
def writes (c : Candidate) : Nat := creating c.pending + Pool.total Call.cancels c.calls

/-- The requests for watches that a handler writes. -/
def Completion.requested (c : Candidate) : Completion → Nat
  | .rangeRequest _ resp true status =>
    if status.ok && !c.ops.shutdown then (resp.getD {}).kvs.length else 0
  | _ => 0

/-- The writes that a step issues. -/
def issued (c : Candidate) : Act → Nat
  | .resign => if c.watcherStream && !c.ops.shutdown then c.currentWatches.card else 0
  | .complete k => k.requested c
  | _ => 0

/-- The writes that a step completes. -/
def Act.written : Act → Nat
  | .cancelWritten _ _ => 1
  | .complete k => k.op.isWrite.toNat
  | _ => 0

theorem creating_queryPredecessor (c : Candidate) :
    creating c.queryPredecessor.pending = creating c.pending := by
  unfold queryPredecessor
  split
  · rfl
  · exact creating_query _ _ _

theorem creating_createWatches (rev : Int) (c : Candidate) (hops : c.ops.shutdown = false)
    (kvs : List KeyValue) :
    creating (createWatches rev c kvs).1.pending = creating c.pending + kvs.length := by
  induction kvs generalizing c with
  | nil => rfl
  | cons kv kvs ih =>
    have hnext : (c.createWatch kv.key rev).ops.shutdown = false := by
      simpa [createWatch] using hops
    simp only [createWatches, hops, Bool.false_eq_true, if_false]
    rw [ih _ hnext]
    simp only [createWatch, creating_create, List.length_cons]
    omega

theorem creating_body (c : Candidate) (k : Completion) :
    creating (c.body k).1.pending = creating c.pending + k.requested c := by
  cases k with
  | rangeRequest req resp ok status =>
    rcases onRangeRequest_cases c ok status (resp.getD {}) with
      ⟨hok, heq⟩ | ⟨hok, hst, heq⟩ | ⟨hok, hst, hkvs, heq⟩ | ⟨hok, hst, hkvs, heq⟩
    · rw [show (c.body (.rangeRequest req resp ok status)).1 = _ from heq, hok]
      rfl
    · rw [show (c.body (.rangeRequest req resp ok status)).1 = _ from heq, hok]
      simp [Completion.requested, hst]
    · rw [show (c.body (.rangeRequest req resp ok status)).1 = _ from heq, hok]
      simp only [Completion.requested, hkvs, List.length_nil, ite_self, Nat.add_zero,
        checkElectionOverMaybe]
      split <;> rfl
    · rw [show (c.body (.rangeRequest req resp ok status)).1 = _ from heq, hok]
      cases hops : c.ops.shutdown with
      | false =>
        rw [creating_createWatches _ _ hops]
        simp [Completion.requested, hst, hops]
      | true =>
        rw [createWatches_of_shutdown _ hops]
        simp [Completion.requested, hops]
  | watchCreate wkey wrevision ok =>
    simp only [body, onWatchCreate]
    split
    · rfl
    · split
      · rfl
      · exact creating_read _ _ _
  | watchRead wkey wrevision ok resp =>
    simp only [body, onWatchRead]
    split
    · rfl
    · split
      · rw [creating_queryPredecessor]
        rfl
      · split
        · rw [creating_queryPredecessor]
          rfl
        · split
          · rfl
          · exact creating_read _ _ _

/-- The entry of a handler and its `async_op_done` do not change what it requests. -/
theorem requested_settled (c : Candidate) (k : Completion) :
    k.requested ((c.enter k).asyncOpDone k) = k.requested c := by
  have hops : ((c.enter k).asyncOpDone k).ops.shutdown = c.ops.shutdown :=
    congrArg CallView.opsShutdown ((callView_asyncOpDone _ k).trans (callView_enter c k))
  cases k with
  | rangeRequest req resp ok status =>
    cases ok with
    | false => rfl
    | true => simp only [Completion.requested, hops]
  | _ => rfl

theorem creating_handle {k : Completion} (hmem : k.op ∈ c.pending) :
    creating (c.handle k).1.pending + k.op.isWrite.toNat = creating c.pending + k.requested c := by
  have herase := creating_erase hmem
  unfold handle
  rw [creating_body, requested_settled, asyncOpDone_pending]
  simp only [enter]
  omega

/-- Only handlers change which operations are outstanding among the posted ones, but for the
queries. -/
theorem countP_act (p : Op → Prop) [DecidablePred p]
    (hp : ∀ req resp, ¬ p (.queryPredecessor req resp)) (hact : c.act a = some (c', o))
    (ha : ∀ k, a ≠ .complete k) : c'.pending.countP p = c.pending.countP p := by
  have hstart : ∀ d : Candidate, d.startCampaign.1.pending.countP p = d.pending.countP p := by
    intro d
    simp only [startCampaign, queryPredecessor]
    split
    · rfl
    · exact Multiset.countP_cons_of_neg _ (hp _ _)
  cases act_cases hact with
  | quiet _ h => rw [show c'.pending = c.pending from congrArg CampaignView.pending h.view]
  | answeredTxn call call' resp hmem hans heq =>
    rw [heq]
    rfl
  | created req resp ok status hmem heq =>
    rcases onNodeCreated_cases (c.unblock (.createNode req (some resp))) resp with
      ⟨_, h⟩ | ⟨kv, _, h⟩ | ⟨kv, _, req', _, h⟩ | h
    · rw [heq, h, hstart]
      rfl
    · rw [heq, h, hstart]
      rfl
    · rw [heq, h]
      rfl
    · rw [heq, h]
      rfl
  | republished req resp ok status hmem hsucc heq =>
    rw [heq, hstart]
    rfl
  | finished hmem heq =>
    rw [heq]
    rfl
  | answeredRange req resp hmem heq =>
    rw [heq]
    exact (Multiset.countP_cons_of_neg _ (hp _ _)).trans (Pool.countP_erase_of_neg p (hp _ _))
  | completed k hmem hwf heq => exact absurd rfl (ha k)

theorem creating_act (hact : c.act a = some (c', o)) (ha : ∀ k, a ≠ .complete k) :
    creating c'.pending = creating c.pending :=
  countP_act (fun op => op.isWrite) (by simp [Op.isWrite]) hact ha

/-- `resign()` writes a cancel request for every watch it knows of. -/
theorem cancels_resign (c : Candidate) :
    Pool.total Call.cancels c.resign.1.calls =
      Pool.total Call.cancels c.calls + c.issued .resign := by
  unfold resign issued
  cases c.ops.shutdown with
  | true => simp
  | false =>
    cases c.watcherStream with
    | false => simp
    | true =>
      simp only [Bool.not_true, Bool.false_eq_true, if_false, Pool.total_cons,
        Call.cancels, Finset.card_val, Bool.not_false, Bool.and_self, if_true]
      omega

/-- A step issues the writes that it issues, and completes those that it completes. -/
theorem writes_act (hact : c.act a = some (c', o)) :
    c'.writes + a.written = c.writes + c.issued a := by
  unfold writes
  cases a with
  | complete k =>
    have hcancels := total_act cancels_of_not hact rfl
    rcases completed_of_act hact with ⟨hmem, _, rfl⟩
    have hhandle := creating_handle hmem
    simp only [Act.written, issued]
    omega
  | resign =>
    have hcreating := creating_act hact (by simp)
    obtain ⟨-, rfl⟩ := of_guard_not hact
    have hcancels := cancels_resign c
    simp only [Act.written]
    omega
  | cancelWritten writes w =>
    have hcreating := creating_act hact (by simp)
    obtain ⟨hmem, rfl⟩ := of_guard hact
    have htotal := Pool.total_erase Call.cancels hmem.1
    have hcard := Multiset.card_erase_add_one hmem.2
    simp only [moveCall, Pool.total_cons, Call.cancels, Act.written, issued] at htotal ⊢
    omega
  | cancelsDone =>
    have hcreating := creating_act hact (by simp)
    obtain ⟨hmem, rfl⟩ := of_guard hact
    have htotal := Pool.total_erase Call.cancels hmem
    simp only [onCancelsDone, moveCall, Pool.total_cons, Call.cancels, Act.written, issued,
      Multiset.card_zero] at htotal ⊢
    omega
  | _ =>
    have hcreating := creating_act hact (by simp)
    have hcancels := total_act cancels_of_not hact rfl
    simp only [Act.written, issued]
    omega

/-- What has to be so for one writer at a time. `resign()` knows of no watch, or of one while no
write is outstanding; a query names no node, or one while no write is outstanding. -/
def SingleWriter (c : Candidate) : Act → Prop
  | .resign => c.watcherStream = true → c.ops.shutdown = false →
    c.currentWatches = ∅ ∨ (c.currentWatches.card = 1 ∧ c.writes = 0)
  | .complete (.rangeRequest _ resp true status) => status.ok = true → c.ops.shutdown = false →
    (resp.getD {}).kvs = [] ∨ ((resp.getD {}).kvs.length = 1 ∧ c.writes = 0)
  | _ => True

instance (c : Candidate) : DecidablePred c.SingleWriter
  | .resign => inferInstanceAs (Decidable (_ → _ → _))
  | .complete (.rangeRequest _ _ true _) => inferInstanceAs (Decidable (_ → _ → _))
  | .campaign | .proclaim _ | .destroy | .answerRange _ _ | .answerTxn _ _
  | .complete (.rangeRequest _ _ false _) | .complete (.watchCreate _ _ _)
  | .complete (.watchRead _ _ _ _) | .streamCreated _ | .txnDone _ _ _ | .cancelWritten _ _
  | .cancelsDone | .readsDone | .writesDone _ | .finished _ | .opsDrained | .readsDrained =>
    inferInstanceAs (Decidable True)

/-- From a state with at most one write, a step leads to such a state exactly then. -/
theorem singleWriter_step (h : c.writes ≤ 1) (hact : c.act a = some (c', o)) :
    c'.writes ≤ 1 ↔ c.SingleWriter a := by
  have hwrites := writes_act hact
  by_cases hissue : c.issued a = 0
  -- nothing is written
  · refine iff_of_true (by omega) ?_
    unfold SingleWriter
    split
    · intro hstream hops
      simp only [issued, hstream, hops, Bool.not_false, Bool.and_self, if_true,
        Finset.card_eq_zero] at hissue
      exact .inl hissue
    · intro hst hops
      simp only [issued, Completion.requested, hst, hops, Bool.not_false, Bool.and_self, if_true,
        List.length_eq_zero_iff] at hissue
      exact .inl hissue
    · trivial
  · cases a with
    | resign =>
      simp only [issued] at hissue hwrites
      split at hissue
      · rename_i hguard
        simp only [Bool.and_eq_true, Bool.not_eq_true'] at hguard
        rw [if_pos (by simp [hguard])] at hwrites
        simp only [SingleWriter, hguard, true_imp_iff, Act.written] at hwrites ⊢
        rw [← Finset.card_eq_zero]
        omega
      · exact absurd rfl hissue
    | complete k =>
      cases k with
      | rangeRequest req resp ok status =>
        cases ok with
        | false => exact absurd rfl hissue
        | true =>
          simp only [issued, Completion.requested] at hissue hwrites
          split at hissue
          · rename_i hguard
            simp only [Bool.and_eq_true, Bool.not_eq_true'] at hguard
            rw [if_pos (by simp [hguard])] at hwrites
            simp only [SingleWriter, hguard, true_imp_iff, Act.written, Completion.op, Op.isWrite,
              Bool.toNat_false] at hwrites ⊢
            rw [← List.length_eq_zero_iff]
            omega
          · exact absurd rfl hissue
      | _ => exact absurd rfl hissue
    | _ => exact absurd rfl hissue

end Candidate

/-! ## The observer -/

namespace Observer

variable {c c' : Observer} {a : Act} {o : Outcome}

/-- The writes among the operations. -/
def Op.isWrite : Op → Bool
  | .watchCreate _ => true
  | .watchCancel _ => true
  | _ => false

def writing (s : Multiset Op) : Nat := s.countP fun op => op.isWrite

/-- The writes outstanding on `watcher_stream_`. -/
def writes (c : Observer) : Nat := writing c.pending

/-- What has to be so for one writer at a time: `shutdown()` is called, and the Range is
completed, only while no write is outstanding. -/
def SingleWriter (c : Observer) : Act → Prop
  | .shutdown => c.watcherStream = true → c.ops.shutdown = false → c.writes = 0
  | .complete (.range _ _ true _) => c.ops.shutdown = false → c.writes = 0
  | _ => True

instance (c : Observer) : DecidablePred c.SingleWriter
  | .shutdown => inferInstanceAs (Decidable (_ → _ → _))
  | .complete (.range _ _ true _) => inferInstanceAs (Decidable (_ → _))
  | .startup | .streamCreated _ | .subscribe | .subscriberDone _ _ _ | .unsubscribe _ | .destroy
  | .answerRange _ _ | .complete (.range _ _ false _) | .complete (.watchCreate _ _)
  | .complete (.watchCancel _ _) | .complete (.watchRead _ _) | .opsDrained =>
    inferInstanceAs (Decidable True)

theorem writes_act (hact : c.act a = some (c', o)) :
    c'.writes + writing a.ended = writing (c.posted a) + c.writes := by
  unfold writes writing
  exact countP_act (fun op => op.isWrite) hact

theorem writing_cancel (id : Nat) : writing {Op.watchCancel id} = 1 := rfl

/-- Handlers post one write at most, and only for the Range. -/
theorem writing_next (c : Observer) (k : Completion) :
    writing (k.next c) = match k with
      | .range _ _ true _ => 1
      | _ => 0 := by
  cases k with
  | range _ _ ok _ => cases ok <;> rfl
  | watchCreate _ ok => cases ok <;> rfl
  | watchCancel _ _ => rfl
  | watchRead ok resp =>
    cases ok with
    | false => rfl
    | true =>
      simp only [Completion.next]
      split <;> rfl

/-- From a state with at most one write, a step leads to such a state exactly then. -/
theorem singleWriter_step (h : c.writes ≤ 1) (hact : c.act a = some (c', o)) :
    c'.writes ≤ 1 ↔ c.SingleWriter a := by
  have hwrites := writes_act hact
  by_cases hpost : writing (c.posted a) = 0
  -- nothing is written
  · refine iff_of_true (by omega) ?_
    unfold SingleWriter
    split
    · intro hstream hops
      simp [posted, hstream, hops, writing_cancel] at hpost
    · intro hops
      simp [posted, hops, writing_next] at hpost
    · trivial
  · cases a with
    | streamCreated ok =>
      cases ok with
      | false => exact absurd rfl hpost
      | true =>
        simp only [posted] at hpost
        split at hpost
        · exact absurd rfl hpost
        · exact absurd rfl hpost
    | shutdown =>
      simp only [posted] at hpost hwrites
      split at hpost
      · rename_i hguard
        simp only [Bool.and_eq_true, Bool.not_eq_true'] at hguard
        have hnone : writing Act.shutdown.ended = 0 := rfl
        rw [if_pos (by simp [hguard]), writing_cancel, hnone] at hwrites
        simp only [SingleWriter, hguard, true_imp_iff]
        omega
      · exact absurd rfl hpost
    | complete k =>
      simp only [posted] at hpost hwrites
      split at hpost
      · exact absurd rfl hpost
      · rename_i hops
        rw [if_neg hops] at hwrites
        simp only [Bool.not_eq_true] at hops
        rw [writing_next] at hpost
        cases k with
        | range req resp ok status =>
          cases ok with
          | false => exact absurd rfl hpost
          | true =>
            have hnone : writing (Act.complete (.range req resp true status)).ended = 0 := rfl
            rw [writing_next, hnone] at hwrites
            simp only [SingleWriter, hops, true_imp_iff] at hwrites ⊢
            omega
        | _ => exact absurd rfl hpost
    | _ => exact absurd rfl hpost

end Observer

/-! ## One write at a time -/

/-- In runs of single writers, at most one write is outstanding on the stream of a candidate and
on the stream of an observer; and a step leaves them at that if and only if it is a single
writer's. -/
theorem one_write (c : Candidate) (o : Observer) :
    (Candidate.machine.Reachable Candidate.SingleWriter c → c.writes ≤ 1 ∧
      ∀ a c', Candidate.machine.step c a = some c' → (c'.writes ≤ 1 ↔ c.SingleWriter a)) ∧
    (Observer.machine.Reachable Observer.SingleWriter o → o.writes ≤ 1 ∧
      ∀ a o', Observer.machine.step o a = some o' → (o'.writes ≤ 1 ↔ o.SingleWriter a)) := by
  constructor
  · intro hc
    have hone : c.writes ≤ 1 := by
      refine hc.invariant ?_ ?_
      · rintro _ ⟨name, leaseId, value, rfl⟩
        exact Nat.zero_le 1
      · intro c a c' ih hok hstep
        rcases Candidate.machine_step hstep with ⟨o, hact⟩
        exact (Candidate.singleWriter_step ih hact).mpr hok
    refine ⟨hone, ?_⟩
    intro a c' hstep
    rcases Candidate.machine_step hstep with ⟨o, hact⟩
    exact Candidate.singleWriter_step hone hact
  · intro ho
    have hone : o.writes ≤ 1 := by
      refine ho.invariant ?_ ?_
      · rintro _ ⟨name, rfl⟩
        exact Nat.zero_le 1
      · intro o a o' ih hok hstep
        rcases Option.map_eq_some_iff.mp hstep with ⟨⟨d, out⟩, hact, rfl⟩
        exact (Observer.singleWriter_step ih hact).mpr hok
    refine ⟨hone, ?_⟩
    intro a o' hstep
    rcases Option.map_eq_some_iff.mp hstep with ⟨⟨d, out⟩, hact, rfl⟩
    exact Observer.singleWriter_step hone hact

/-- A node of the election without a name. -/
def rival (n : UInt8) : KeyValue := { key := [47, n], createRevision := 1 }

/-- A candidate watches one predecessor, until it has a response with the watch in it. -/
def watchRival (n : UInt8) (id : Nat) : List Candidate.Act :=
  let resp : RangeResponse := { revision := 2, kvs := [rival n] }
  [.answerRange Candidate.firstQuery resp,
    .complete (.rangeRequest Candidate.firstQuery (some resp) true {}),
    .complete (.watchCreate (rival n).key 2 true),
    .complete (.watchRead (rival n).key 2 true { watchId := id, created := true })]

/-- The predecessor goes away, and the candidate asks for the next. -/
def loseRival (n : UInt8) (id : Nat) : Candidate.Act :=
  .complete (.watchRead (rival n).key 2 true
    { watchId := id, events := [{ type := .delete, prevKv := rival n }] })

/-- A candidate with one predecessor resigns, and an observer is shut down: each writes its one
cancel request. -/
theorem one_write_cancelled :
    (∃ c, Candidate.machine.Reachable Candidate.SingleWriter c ∧
      .resignCancels {0} ∈ c.calls ∧ c.writes ≤ 1) ∧
    ∃ c, Observer.machine.Reachable Observer.SingleWriter c ∧
      .watchCancel 0 ∈ c.pending ∧ c.writes ≤ 1 := by
  constructor
  · rcases reachable_of_execIf Candidate.machine (fun c a => decide (c.SingleWriter a))
      (Candidate.init [] 1 []) (Candidate.campaignTrace ++ watchRival 1 0 ++ [.resign])
      (fun c => decide (.resignCancels {0} ∈ c.calls))
      (fun _ _ => of_decide_eq_true) ⟨_, _, _, rfl⟩ (by decide) with ⟨c, hreach, hcheck⟩
    exact ⟨c, hreach, of_decide_eq_true hcheck, ((one_write c (.init [])).1 hreach).1⟩
  · let c := Observer.init []
    rcases reachable_of_execIf Observer.machine (fun c a => decide (c.SingleWriter a))
      c [.startup, .streamCreated true, .answerRange c.discoverRequest { revision := 1 },
        .complete (.range c.discoverRequest (some { revision := 1 }) true {}),
        .complete (.watchCreate (c.watcherRequest 1) true), .shutdown]
      (fun c => decide (.watchCancel 0 ∈ c.pending))
      (fun _ _ => of_decide_eq_true) ⟨_, rfl⟩ (by decide) with ⟨c, hreach, hcheck⟩
    exact ⟨c, hreach, of_decide_eq_true hcheck, ((one_write (.init [] 1 []) c).2 hreach).1⟩

/-- A candidate that has had two predecessors knows of two watches when it resigns, and writes
two cancel requests at once. -/
theorem two_cancel_writes : ∃ c, Candidate.machine.Reachable Any c ∧
    .resignCancels {1, 0} ∈ c.calls ∧ c.writes = 2 := by
  rcases reachable_of_exec Candidate.machine (Candidate.init [] 1 [])
    (Candidate.campaignTrace ++ watchRival 1 0 ++ [loseRival 1 0] ++ watchRival 2 1 ++ [.resign])
    (fun c => decide (.resignCancels {1, 0} ∈ c.calls) && decide (c.writes = 2))
    ⟨_, _, _, rfl⟩ (by decide) with ⟨c, hreach, hcheck⟩
  simp only [Bool.and_eq_true, decide_eq_true_eq] at hcheck
  exact ⟨c, hreach, hcheck.1, hcheck.2⟩

end GeeH
