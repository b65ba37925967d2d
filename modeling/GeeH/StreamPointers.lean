import GeeH.Candidate.Accounting
import GeeH.Observer.Accounting
import GeeH.Session.Steps
import GeeH.Streams

/-!
# GeeH.StreamPointers — `*watcher_stream_` and `*ka_stream_`

The stream of an object is created by `startup()`, `campaign()` or the
constructor, each of which may fail before the pointer is set or after. What
the object issues on the stream later dereferences the pointer, mostly without
a look at it: a handler relies on the operation that it completes, which nobody
posts before the stream is there.

Each class is given the steps with which an exception ends the call that creates
the stream (`throwing`), and a record of what is issued and whether the pointer
was set (`recorder`).
-/

namespace GeeH

open Etcd Machine

/-- What the completion queue takes a stream for. -/
inductive StreamCall where
  | asyncWrite
  | asyncRead
  | asyncWritesDone
  | asyncFinish
  | tryCancelOn
deriving DecidableEq, Repr

/-- An operation that is issued, and whether the pointer to its stream is set. -/
structure StreamUse where
  call : StreamCall
  present : Bool
deriving DecidableEq, Repr

/-- The uses that the operations issued in one step make of one pointer. -/
def uses (present : Bool) (calls : List StreamCall) : List StreamUse :=
  calls.map fun call => { call, present }

theorem present_of_mem {present : Bool} {calls : List StreamCall} {u : StreamUse}
    (hu : u ∈ uses present calls) : u.present = present ∧ calls ≠ [] := by
  rcases List.mem_map.mp hu with ⟨call, hcall, rfl⟩
  exact ⟨rfl, List.ne_nil_of_mem hcall⟩

/-- Nothing is issued without a stream. -/
theorem uses_present {present : Bool} {calls : List StreamCall} :
    (∀ u ∈ uses present calls, u.present = true) ↔ (calls ≠ [] → present = true) := by
  constructor
  · intro h hcalls
    rcases List.exists_mem_of_ne_nil calls hcalls with ⟨call, hcall⟩
    exact h { call, present } (List.mem_map_of_mem hcall)
  · intro h u hu
    rcases present_of_mem hu with ⟨hpresent, hcalls⟩
    exact hpresent.trans (h hcalls)

/-! ## The observer -/

namespace Observer

variable {c c' : Observer} {a : Act} {o : Outcome}

/-- What can happen to an observer, exceptions out of `startup()` included. -/
inductive Move where
  | act (a : Act)
  /-- An exception ends `startup()` once the stream is there, before or after `ops_` counts the
  Range. One before that leaves what a stream leaves that is not created. -/
  | startupThrows (counted : Bool)
deriving DecidableEq

/-- `startup()` ends after `create_watcher_stream()`, with nothing posted. -/
def startupThrows (c : Observer) (counted : Bool) : Observer :=
  let c := { c with
    ops := c.ops.asyncOpDone
    calls := c.calls.erase .createWatcherStream
    watcherStream := true }
  if counted then { c with ops := c.ops.asyncOpStart } else c

def throwing : Machine Observer Move where
  Init c := ∃ name, c = init name
  step c
    | .act a => machine.step c a
    | .startupThrows counted =>
      if .createWatcherStream ∈ c.calls then some (c.startupThrows counted) else none

/-- What a handler issues when `ops_` grants it. -/
def Completion.streamCalls : Completion → List StreamCall
  | .range _ _ true _ => [.asyncWrite]
  | .watchCreate _ true => [.asyncRead]
  | .watchRead true resp =>
    if resp.canceled || resp.compactRevision ≠ 0 then [] else [.asyncRead]
  | _ => []

/-- What a step issues on `*watcher_stream_`. -/
def streamCalls (c : Observer) : Move → List StreamCall
  | .act .shutdown => if c.watcherStream && !c.ops.shutdown then [.asyncWrite] else []
  -- `cleanup()` does not look at the pointer
  | .act .destroy => [.tryCancelOn]
  | .act (.complete k) => if c.ops.shutdown then [] else k.streamCalls
  | _ => []

/-- The observer, with the record of what it issued. -/
def recorder : Machine (Observer × List StreamUse) Move :=
  throwing.recorded fun c m => uses c.watcherStream (c.streamCalls m)

/-- What the destructor needs: the stream is there. -/
def Opened (c : Observer) : Move → Prop
  | .act .destroy => c.watcherStream = true
  | _ => True

instance (c : Observer) : DecidablePred c.Opened
  | .act .destroy => inferInstanceAs (Decidable (_ = _))
  | .act .startup | .act (.streamCreated _) | .act .subscribe | .act (.subscriberDone _ _ _)
  | .act (.unsubscribe _) | .act .shutdown | .act (.answerRange _ _) | .act (.complete _)
  | .act .opsDrained | .startupThrows _ => inferInstanceAs (Decidable True)

/-- The operation that an outstanding one is for the completion queue. -/
def Op.streamCall : Op → Option StreamCall
  | .range _ _ => none
  | .watchCreate _ => some .asyncWrite
  | .watchCancel _ => some .asyncWrite
  | .watchRead => some .asyncRead

theorem streamCalls_next (c : Observer) (k : Completion) :
    (k.next c).filterMap Op.streamCall = k.streamCalls := by
  cases k with
  | range req resp ok status => cases ok <;> rfl
  | watchCreate req ok => cases ok <;> rfl
  | watchCancel id ok => rfl
  | watchRead ok resp =>
    cases ok with
    | false => rfl
    | true =>
      simp only [Completion.next, Completion.streamCalls]
      split <;> rfl

/-- Of what is posted, that on the stream is what is issued; a cancellation is not posted. -/
theorem streamCalls_posted (c : Observer) (a : Act) :
    (c.posted a).filterMap Op.streamCall =
      ((c.streamCalls (.act a)).filter (· ≠ .tryCancelOn) : List StreamCall) := by
  cases a with
  | streamCreated ok =>
    cases ok with
    | false => rfl
    | true =>
      simp only [posted]
      split <;> rfl
  | shutdown =>
    simp only [posted, streamCalls]
    split <;> rfl
  | complete k =>
    simp only [posted, streamCalls]
    split
    · rfl
    · rw [streamCalls_next]
      cases k with
      | range req resp ok status => cases ok <;> rfl
      | watchCreate req ok => cases ok <;> rfl
      | watchCancel id ok => rfl
      | watchRead ok resp =>
        cases ok with
        | false => rfl
        | true =>
          simp only [Completion.streamCalls]
          split <;> rfl
  | _ => rfl

/-- Whatever is posted is posted with a stream. -/
def Ready (c : Observer) : Prop := c.pending ≠ 0 → c.watcherStream = true

theorem Ready.of_mem (h : Ready c) {op : Op} (hmem : op ∈ c.pending) : c.watcherStream = true :=
  h fun hzero => Multiset.notMem_zero op (hzero ▸ hmem)

theorem Ready.act (h : Ready c) (hact : c.act a = some (c', o)) : Ready c' := by
  cases a with
  | startup =>
    obtain ⟨-, rfl⟩ := of_guard_not hact
    simp only [startup]
    split <;> exact h
  | streamCreated ok =>
    obtain ⟨-, rfl⟩ := of_guard hact
    cases ok with
    | false => exact h
    | true =>
      intro _
      exact (balanced_discover { c with
        ops := c.ops.asyncOpDone
        calls := c.calls.erase .createWatcherStream
        watcherStream := true }).stream
  | subscribe =>
    obtain ⟨-, rfl⟩ := of_guard_not hact
    unfold subscribe
    split <;> exact h
  | subscriberDone key value throws =>
    obtain ⟨-, rfl⟩ := of_guard hact
    unfold onSubscriberDone
    cases throws <;> exact h
  | shutdown =>
    obtain ⟨-, rfl⟩ := of_guard_not hact
    cases hstream : c.watcherStream with
    | false => simpa [shutdown, hstream] using h
    | true =>
      intro _
      have hkept : (c.shutdown).1.watcherStream = c.watcherStream := by
        simpa [shutdown, hstream] using (balanced_cancelWatcher c).stream
      exact hkept.trans hstream
  | unsubscribe token =>
    obtain ⟨-, rfl⟩ := of_guard_not hact
    exact h
  | destroy =>
    obtain ⟨-, rfl⟩ := of_guard_not hact
    exact h
  | answerRange req resp =>
    obtain ⟨hmem, rfl⟩ := of_guard hact
    exact fun _ => h.of_mem hmem
  | complete k =>
    rcases act_complete hact with ⟨hmem, _, rfl⟩
    intro _
    exact (balanced_body (c.enter k).asyncOpDone k).stream.trans (h.of_mem hmem)
  | opsDrained =>
    obtain ⟨-, rfl⟩ := of_guard hact
    exact h

theorem Ready.step (h : Ready c) {m : Move} (hstep : throwing.step c m = some c') : Ready c' := by
  cases m with
  | act a =>
    rcases Option.map_eq_some_iff.mp hstep with ⟨⟨d, o⟩, hact, rfl⟩
    exact h.act hact
  | startupThrows counted =>
    rcases Option.ite_none_right_eq_some.mp hstep with ⟨_, heq⟩
    obtain rfl := Option.some.inj heq
    intro _
    cases counted <;> rfl

/-- A step issues something without a stream if and only if it is the destructor's. -/
theorem Ready.opened (h : Ready c) {m : Move} (hstep : throwing.step c m = some c') :
    (c.streamCalls m ≠ [] → c.watcherStream = true) ↔ c.Opened m := by
  cases m with
  | startupThrows counted => simp [streamCalls, Opened]
  | act a =>
    cases a with
    | destroy => simp [streamCalls, Opened]
    | shutdown =>
      simp only [streamCalls, Opened, iff_true]
      intro hcalls
      split at hcalls
      · rename_i hguard
        exact (Bool.and_eq_true_iff.mp hguard).1
      · exact absurd rfl hcalls
    | complete k =>
      rcases Option.map_eq_some_iff.mp hstep with ⟨⟨d, o⟩, hact, rfl⟩
      rcases act_complete hact with ⟨hmem, _, _⟩
      exact iff_of_true (fun _ => h.of_mem hmem) trivial
    | _ => simp [streamCalls, Opened]

theorem reachable_ready (hc : throwing.Reachable Any c) : Ready c := by
  refine hc.invariant ?_ ?_
  · rintro _ ⟨name, rfl⟩ hne
    exact absurd rfl hne
  · intro c m c' ih _ hstep
    exact ih.step hstep

/-- What an observer issues is issued on a stream, as long as it is destroyed with one. -/
theorem recorder_present {s : Observer × List StreamUse} (hs : recorder.Reachable Any s) :
    (∀ u ∈ s.2, u.present = true) ↔ recorder.Reachable (fun s m => s.1.Opened m) s := by
  refine (Reachable.all_recorded hs).trans (Reachable.congr ?_)
  intro s m t hs hstep
  have hready : Ready s.1 := reachable_ready (Reachable.of_recorded hs)
  exact uses_present.trans (hready.opened (recorded_step hstep).1)

end Observer

/-! ## The candidate -/

namespace Candidate

variable {c c' : Candidate} {a : Act} {o : Outcome}

/-- What can happen to a candidate, exceptions out of `campaign()` included. -/
inductive Move where
  | act (a : Act)
  /-- The last Txn of a `campaign()` completes, and an exception ends `query_predecessor()`,
  before or after `ops_` counts the query. One before that leaves what a stream leaves that is
  not created, or a Txn that fails. -/
  | campaignThrows (call : Call) (ok : Bool) (status : Status) (counted : Bool)
deriving DecidableEq

/-- `campaign()` ends after `create_node()`, with no query posted. -/
def campaignThrows (c : Candidate) (call : Call) (ok : Bool) (status : Status)
    (counted : Bool) : Option Candidate :=
  match c.onTxn call ok status with
  | some (d, .returned) =>
    some { d with
      pending := c.pending
      campaigned := c.campaigned
      ops := if counted then d.ops else c.ops.asyncOpDone }
  | _ => none

def throwing : Machine Candidate Move where
  Init c := ∃ name leaseId value, c = init name leaseId value
  step c
    | .act a => machine.step c a
    | .campaignThrows call ok status counted =>
      if call ∈ c.calls ∧ call.isCampaign then c.campaignThrows call ok status counted else none

/-- What a handler issues. -/
def Completion.streamCalls (c : Candidate) : Completion → List StreamCall
  | .rangeRequest request response ok status =>
    .replicate ((Completion.rangeRequest request response ok status).requested c) .asyncWrite
  | .watchCreate _ _ true => if c.reads.shutdown then [] else [.asyncRead]
  | .watchRead _ _ true resp =>
    if resp.canceled || resp.compactRevision ≠ 0 then []
    else if (c.recordEvents resp).watchedKeys = ∅ then []
    else if c.reads.shutdown then [] else [.asyncRead]
  | _ => []

/-- What a step issues on `*watcher_stream_`. -/
def streamCalls (c : Candidate) : Move → List StreamCall
  | .act .resign => .replicate (c.issued .resign) .asyncWrite
  | .act .cancelsDone => [.tryCancelOn]
  | .act .readsDone => [.asyncWritesDone]
  | .act (.writesDone true) => [.asyncFinish]
  | .act .destroy => if c.watcherStream then [.tryCancelOn] else []
  | .act (.complete k) => k.streamCalls c
  | _ => []

/-- The writes among them are those that the step issues. -/
theorem count_asyncWrite (c : Candidate) (a : Act) :
    (c.streamCalls (.act a)).count .asyncWrite = c.issued a := by
  cases a with
  | resign => exact List.count_replicate_self
  | writesDone ok => cases ok <;> rfl
  | destroy =>
    simp only [streamCalls]
    split <;> rfl
  | complete k =>
    cases k with
    | rangeRequest req resp ok status => exact List.count_replicate_self
    | watchCreate wkey wrevision ok =>
      cases ok with
      | false => rfl
      | true =>
        simp only [streamCalls, Completion.streamCalls]
        split <;> rfl
    | watchRead wkey wrevision ok resp =>
      cases ok with
      | false => rfl
      | true =>
        simp only [streamCalls, Completion.streamCalls]
        split
        · rfl
        · split
          · rfl
          · split <;> rfl
  | _ => rfl

theorem reading_createWatches (rev : Int) (c : Candidate) (kvs : List KeyValue) :
    reading (createWatches rev c kvs).1.pending = reading c.pending := by
  induction kvs generalizing c with
  | nil => rfl
  | cons kv kvs ih =>
    unfold createWatches
    split
    · rfl
    · rw [ih]
      exact reading_watchCreate _ _ _

theorem reading_body (c : Candidate) (k : Completion) :
    reading (c.body k).1.pending =
      reading c.pending + (k.streamCalls c).count .asyncRead := by
  have hquery : ∀ d : Candidate, reading d.queryPredecessor.pending = reading d.pending := by
    intro d
    unfold queryPredecessor
    split
    · rfl
    · exact reading_queryPredecessor _ _ _
  cases k with
  | rangeRequest req resp ok status =>
    have hnone : (Completion.streamCalls c (.rangeRequest req resp ok status)).count .asyncRead = 0 :=
      List.count_eq_zero_of_not_mem fun h => by cases List.eq_of_mem_replicate h
    rw [hnone]
    rcases onRangeRequest_cases c ok status (resp.getD {}) with
      ⟨_, heq⟩ | ⟨_, _, heq⟩ | ⟨_, _, _, heq⟩ | ⟨_, _, _, heq⟩
    · rw [show (c.body (.rangeRequest req resp ok status)).1 = _ from heq]
      rfl
    · rw [show (c.body (.rangeRequest req resp ok status)).1 = _ from heq]
      rfl
    · rw [show (c.body (.rangeRequest req resp ok status)).1 = _ from heq]
      unfold checkElectionOverMaybe
      split <;> rfl
    · rw [show (c.body (.rangeRequest req resp ok status)).1 = _ from heq]
      exact reading_createWatches _ _ _
  | watchCreate wkey wrevision ok =>
    cases ok with
    | false => rfl
    | true =>
      simp only [body, onWatchCreate, Completion.streamCalls, Bool.not_true, Bool.false_eq_true,
        if_false]
      split
      · rfl
      · exact reading_watchRead _ _ _
  | watchRead wkey wrevision ok resp =>
    cases ok with
    | false => rfl
    | true =>
      simp only [body, onWatchRead, Completion.streamCalls, Bool.not_true, Bool.false_eq_true,
        if_false]
      split
      · exact hquery _
      · split
        · exact hquery _
        · split
          · rename_i hshutdown
            rw [show c.reads.shutdown = true from hshutdown]
            rfl
          · rename_i hopen
            rw [show c.reads.shutdown = false from Bool.eq_false_iff.mpr hopen]
            exact reading_watchRead _ _ _

/-- The read that a step ends. -/
def Act.readEnded : Act → Nat
  | .complete k => k.isRead.toNat
  | _ => 0

/-- A step posts the reads that it issues, and ends the one that it completes. -/
theorem reads_act (hact : c.act a = some (c', o)) :
    reading c'.pending + a.readEnded =
      reading c.pending + (c.streamCalls (.act a)).count .asyncRead := by
  by_cases hk : ∃ k, a = .complete k
  · rcases hk with ⟨k, rfl⟩
    rcases completed_of_act hact with ⟨hmem, _, rfl⟩
    -- `async_op_done` leaves the flags alone that the body looks at
    have hsame : k.streamCalls ((c.enter k).asyncOpDone k) = k.streamCalls c := by
      cases k with
      | rangeRequest req resp ok status =>
        simp only [Completion.streamCalls, requested_settled]
      | _ => rfl
    have hbody := reading_body ((c.enter k).asyncOpDone k) k
    have herase := reading_erase hmem
    rw [hsame, asyncOpDone_pending] at hbody
    simp only [handle, streamCalls, Act.readEnded, Completion.isRead]
    rw [hbody, ← herase]
    simp only [enter]
    omega
  · have hnot : ∀ k, a ≠ .complete k := fun k heq => hk ⟨k, heq⟩
    have hsame : reading c'.pending = reading c.pending :=
      countP_act (fun op => op.isRead) (by simp [Op.isRead]) hact hnot
    have hnone : (c.streamCalls (.act a)).count .asyncRead = 0 ∧ a.readEnded = 0 := by
      cases a with
      | complete k => exact absurd rfl (hnot k)
      | resign =>
        refine ⟨List.count_eq_zero_of_not_mem ?_, rfl⟩
        intro h
        cases List.eq_of_mem_replicate h
      | writesDone ok => cases ok <;> exact ⟨rfl, rfl⟩
      | destroy =>
        simp only [streamCalls]
        split <;> exact ⟨rfl, rfl⟩
      | _ => exact ⟨rfl, rfl⟩
    omega

/-- The candidate, with the record of what it issued. -/
def recorder : Machine (Candidate × List StreamUse) Move :=
  throwing.recorded fun c m => uses c.watcherStream (c.streamCalls m)

/-- The calls that go on with a stream. -/
def Call.onStream : Call → Bool
  | .createWatchStream => false
  | .proclaim _ _ _ => false
  | .cleanupOps => false
  | .cleanupReads => false
  | _ => true

/-- Without a stream nothing is posted, and no call is past its creation. -/
structure Ready (c : Candidate) : Prop where
  pending : c.pending ≠ 0 → c.watcherStream = true
  calls : ∀ call ∈ c.calls, call.onStream = true → c.watcherStream = true

theorem Ready.of_stream (h : c.watcherStream = true) : Ready c where
  pending _ := h
  calls _ _ _ := h

theorem Ready.of_mem (h : Ready c) {op : Op} (hmem : op ∈ c.pending) : c.watcherStream = true :=
  h.pending fun hzero => Multiset.notMem_zero op (hzero ▸ hmem)

/-- A call that does not go on with a stream begins, or moves on. -/
theorem Ready.move (h : Ready c) (call : Call) (hcall : call.onStream = false)
    (hpending : c'.pending = c.pending) (hstream : c'.watcherStream = c.watcherStream)
    (hcalls : ∀ call' ∈ c'.calls, call' = call ∨ call' ∈ c.calls) : Ready c' where
  pending := by
    rw [hpending, hstream]
    exact h.pending
  calls call' hmem hon := by
    rw [hstream]
    rcases hcalls call' hmem with rfl | hold
    · exact absurd (hcall.symm.trans hon) (by simp)
    · exact h.calls call' hold hon

theorem Ready.mono (h : Ready c) (hpending : c'.pending = c.pending)
    (hstream : c'.watcherStream = c.watcherStream) (hcalls : c'.calls ≤ c.calls) : Ready c' :=
  h.move .createWatchStream rfl hpending hstream
    fun _ hmem => .inr (Multiset.mem_of_le hcalls hmem)

/-- The stream is never given up. -/
theorem stream_act (hact : c.act a = some (c', o)) (hstream : c.watcherStream = true) :
    c'.watcherStream = true := by
  have hquery : ∀ d : Candidate, d.queryPredecessor.watcherStream = d.watcherStream :=
    fun d => congrArg CallView.watcherStream (callView_queryPredecessor d)
  cases act_cases hact with
  | quiet _ h => exact h.stream hstream
  | answeredTxn call call' resp hmem hans heq =>
    rw [heq]
    exact hstream
  | created req resp ok status hmem heq =>
    rcases onNodeCreated_cases (c.unblock (.createNode req (some resp))) resp with
      ⟨_, h⟩ | ⟨kv, _, h⟩ | ⟨kv, _, req', _, h⟩ | h
    · rw [heq, h]
      exact (hquery _).trans hstream
    · rw [heq, h]
      exact (hquery _).trans hstream
    · rw [heq, h]
      exact hstream
    · rw [heq, h]
      exact hstream
  | republished req resp ok status hmem hsucc heq =>
    rw [heq]
    exact (hquery _).trans hstream
  | finished hmem heq =>
    rw [heq]
    exact hstream
  | answeredRange req resp hmem heq =>
    rw [heq]
    exact hstream
  | completed k hmem hwf heq =>
    rw [heq]
    exact (congrArg CallView.watcherStream (callView_handle c k)).trans hstream

/-- A Txn of a call that needs no stream is that of a `proclaim()`. -/
theorem Ready.onTxn (h : Ready c) {call : Call} {ok : Bool} {status : Status}
    (hcall : call.onStream = false) (htxn : c.onTxn call ok status = some (c', o)) : Ready c' := by
  have hunblock : Ready (c.unblock call) := h.mono rfl rfl (Multiset.erase_le _ _)
  cases call with
  | proclaim value req resp =>
    simp only [Candidate.onTxn] at htxn
    split at htxn
    · exact fst_of_some htxn ▸ hunblock
    · cases resp with
      | none => cases htxn
      | some resp =>
        rw [fst_of_some htxn]
        unfold onProclaimed
        split
        · exact ⟨hunblock.pending, hunblock.calls⟩
        · exact hunblock
  | createNode req resp => cases hcall
  | republish req resp => cases hcall
  | _ => cases htxn

/-- The steps that a stream is needed for: what was issued on it completes. -/
def Act.onStream : Act → Bool
  | .answerRange _ _ => true
  | .complete _ => true
  | .cancelWritten _ _ => true
  | .cancelsDone => true
  | .readsDone => true
  | .writesDone _ => true
  | .finished _ => true
  | _ => false

theorem Ready.of_act (h : Ready c) (ha : a.onStream = true) (hact : c.act a = some (c', o)) :
    c.watcherStream = true := by
  cases a with
  | answerRange req resp =>
    obtain ⟨hmem, -⟩ := of_guard hact
    exact h.of_mem hmem
  | complete k =>
    obtain ⟨⟨hmem, -⟩, -⟩ := of_guard hact
    exact h.of_mem hmem
  | cancelWritten writes w =>
    obtain ⟨⟨hmem, -⟩, -⟩ := of_guard hact
    exact h.calls _ hmem rfl
  | cancelsDone =>
    obtain ⟨hmem, -⟩ := of_guard hact
    exact h.calls _ hmem rfl
  | readsDone =>
    obtain ⟨⟨hmem, -⟩, -⟩ := of_guard hact
    exact h.calls _ hmem rfl
  | writesDone ok =>
    obtain ⟨hmem, -⟩ := of_guard hact
    exact h.calls _ hmem rfl
  | finished ok =>
    obtain ⟨hmem, -⟩ := of_guard hact
    exact h.calls _ hmem rfl
  | _ => cases ha

/-- The server answers a Txn, and the call that waits for it stays where it is. -/
theorem Ready.answered (h : Ready c) {call call' : Call} {resp : TxnResponse}
    (hmem : call ∈ c.calls) (hans : call.answered resp = some call') :
    Ready (c.moveCall call call') := by
  have hcalls : ∀ old ∈ c.calls.erase call, old.onStream = true → c.watcherStream = true :=
    fun old hold => h.calls old (Multiset.mem_of_mem_erase hold)
  have hsame : call'.onStream = call.onStream := by
    cases call with
    | createNode req old | republish req old | proclaim value req old =>
      cases old with
      | none =>
        obtain rfl := Option.some.inj hans
        rfl
      | some old => cases hans
    | _ => cases hans
  refine ⟨h.pending, ?_⟩
  intro old hold hon
  rcases Multiset.mem_cons.mp hold with rfl | hold
  · exact h.calls call hmem (hsame ▸ hon)
  · exact hcalls old hold hon

theorem Ready.act (h : Ready c) (hact : c.act a = some (c', o)) : Ready c' := by
  cases a with
  | campaign =>
    obtain ⟨-, rfl⟩ := of_guard_not hact
    unfold campaign
    split
    · exact h
    · split
      · exact h
      · exact h.move .createWatchStream rfl rfl rfl fun _ => Multiset.mem_cons.mp
  | proclaim value =>
    obtain ⟨-, rfl⟩ := of_guard_not hact
    unfold proclaim
    split
    · exact h
    · exact h.move (.proclaim value (c.publishRequest value none) none) rfl rfl rfl
        fun _ => Multiset.mem_cons.mp
  | resign =>
    cases hstream : c.watcherStream with
    | true => exact .of_stream (stream_act hact hstream)
    | false =>
      obtain ⟨-, rfl⟩ := of_guard_not hact
      unfold resign
      split
      · exact h
      · simp only [hstream, Bool.not_false, if_true]
        exact h.mono rfl hstream.symm le_rfl
  | destroy =>
    obtain ⟨-, rfl⟩ := of_guard_not hact
    exact h.move .cleanupOps rfl rfl rfl fun _ => Multiset.mem_cons.mp
  | answerTxn call resp =>
    rcases Option.ite_none_right_eq_some.mp hact with ⟨hmem, hans⟩
    rcases Option.map_eq_some_iff.mp hans with ⟨call', hans', heq⟩
    obtain rfl := (Prod.mk.inj heq).1.symm
    exact h.answered hmem hans'
  | streamCreated ok =>
    obtain ⟨-, rfl⟩ := of_guard hact
    cases ok with
    | false => exact h.mono rfl rfl (Multiset.erase_le _ _)
    | true =>
      refine .of_stream ?_
      simp only [onStreamCreated, Bool.not_true, Bool.false_eq_true, if_false, createNode]
      split <;> rfl
  | txnDone call ok status =>
    rcases Option.ite_none_right_eq_some.mp hact with ⟨hmem, htxn⟩
    cases hon : call.onStream with
    | true => exact .of_stream (stream_act hact (h.calls call hmem hon))
    | false => exact h.onTxn hon htxn
  | opsDrained =>
    obtain ⟨-, rfl⟩ := of_guard hact
    refine h.move .cleanupReads rfl rfl rfl ?_
    intro call hmem
    rcases Multiset.mem_cons.mp hmem with rfl | hold
    · exact .inl rfl
    · exact .inr (Multiset.mem_of_mem_erase hold)
  | readsDrained =>
    obtain ⟨-, rfl⟩ := of_guard hact
    exact h.mono rfl rfl (Multiset.erase_le _ _)
  | _ => exact .of_stream (stream_act hact (h.of_act rfl hact))

theorem Ready.step (h : Ready c) {m : Move} (hstep : throwing.step c m = some c') : Ready c' := by
  cases m with
  | act a =>
    rcases Option.map_eq_some_iff.mp hstep with ⟨⟨d, o⟩, hact, rfl⟩
    exact h.act hact
  | campaignThrows call ok status counted =>
    rcases Option.ite_none_right_eq_some.mp hstep with ⟨⟨hmem, hcamp⟩, hthrow⟩
    unfold campaignThrows at hthrow
    split at hthrow
    · rename_i d htxn
      obtain rfl := Option.some.inj hthrow
      refine .of_stream ?_
      have hstream : c.watcherStream = true := by
        refine h.calls call hmem ?_
        cases call with
        | createWatchStream => cases htxn
        | createNode req resp => rfl
        | republish req resp => rfl
        | _ => cases hcamp
      have hact : c.act (.txnDone call ok status) = some (d, .returned) :=
        (if_pos hmem).trans htxn
      have hd : d.watcherStream = true := stream_act hact hstream
      exact hd
    · cases hthrow

/-- Whatever a candidate issues, it has a stream. -/
theorem Ready.present (h : Ready c) {m : Move} (hstep : throwing.step c m = some c')
    (hcalls : c.streamCalls m ≠ []) : c.watcherStream = true := by
  cases m with
  | campaignThrows call ok status counted => exact absurd rfl hcalls
  | act a =>
    rcases Option.map_eq_some_iff.mp hstep with ⟨⟨d, o⟩, hact, rfl⟩
    cases a with
    | resign =>
      by_contra hnone
      simp [streamCalls, issued, hnone] at hcalls
    | destroy =>
      by_contra hnone
      simp [streamCalls, hnone] at hcalls
    | cancelsDone => exact h.of_act rfl hact
    | readsDone => exact h.of_act rfl hact
    | writesDone ok => exact h.of_act rfl hact
    | complete k => exact h.of_act rfl hact
    | _ => exact absurd rfl hcalls

theorem reachable_ready (hc : throwing.Reachable Any c) : Ready c := by
  refine hc.invariant ?_ ?_
  · rintro _ ⟨name, leaseId, value, rfl⟩
    exact ⟨fun hne => absurd rfl hne, fun call hmem => absurd hmem (Multiset.notMem_zero call)⟩
  · intro c m c' ih _ hstep
    exact ih.step hstep

/-- What a candidate issues is issued on a stream. -/
theorem recorder_present {s : Candidate × List StreamUse} (hs : recorder.Reachable Any s) :
    ∀ u ∈ s.2, u.present = true := by
  refine (Reachable.all_recorded hs).mpr (hs.mono_of ?_)
  intro s m t hs hstep _
  have hready : Ready s.1 := reachable_ready (Reachable.of_recorded hs)
  exact uses_present.mpr (hready.present (recorded_step hstep).1)

end Candidate

/-! ## The session -/

namespace Session

variable {c c' : Session} {a : Act} {o : Outcome}

/-- What can happen to a session, exceptions out of its constructor included. -/
inductive Move where
  | act (a : Act)
  /-- The lease is granted, and an exception ends `set_timer()`, before or after `ops_` counts the
  timer. One before that leaves what a stream leaves that is not created, or a LeaseGrant that
  fails. -/
  | preambleThrows (request : LeaseGrantRequest) (response : LeaseGrantResponse) (counted : Bool)
      (exn : Exn)
deriving DecidableEq

/-- `preamble()` ends in `set_timer()`: its tracers are destroyed, and `shutdown()` is called. -/
def preambleThrows (c : Session) (request : LeaseGrantRequest) (resp : LeaseGrantResponse)
    (counted : Bool) (exn : Exn) : Session :=
  let c := { c with calls := c.calls.erase (.leaseGrant request) }.granted resp
  let c := if counted then { c with ops := c.ops.asyncOpStart } else c
  ({ c with ops := c.ops.asyncOpDone.asyncOpDone }.shutdown (some exn)).1

def throwing : Machine Session Move where
  Init c := ∃ desiredTtl leaseId, c = init desiredTtl leaseId
  step c
    | .act a => machine.step c a
    | .preambleThrows request response counted exn =>
      if .leaseGrant request ∈ c.calls ∧ response.error = [] then
        some (c.preambleThrows request response counted exn)
      else none

/-- What `shutdown()` issues. -/
def shutdownCalls (c : Session) : List StreamCall :=
  if c.ops.shutdown then [] else if c.kaStream then [.tryCancelOn] else []

/-- What a handler issues. -/
def Completion.streamCalls (c : Session) : Completion → List StreamCall
  | .timer _ _ _ ok => if !ok || c.ops.shutdown then [] else [.asyncWrite]
  | .write _ ok => if !ok || c.reads.shutdown then [] else [.asyncRead]
  | .read _ _ => []

/-- What a step issues on `*ka_stream_`. -/
def streamCalls (c : Session) : Move → List StreamCall
  | .act (.streamCreated ok) => if ok then [] else c.shutdownCalls
  | .act (.leaseGranted _ ok status resp) =>
    if ok && status.ok && resp.error = [] then [] else c.shutdownCalls
  | .act .revokeReadsDrained => [.asyncWritesDone]
  | .act (.writesDone ok) => if ok then [.asyncFinish] else []
  | .act .destroy => c.shutdownCalls
  | .act (.complete k) => k.streamCalls c
  | .preambleThrows _ _ _ _ => c.shutdownCalls
  | _ => []

/-- The session, with the record of what it issued. -/
def recorder : Machine (Session × List StreamUse) Move :=
  throwing.recorded fun c m => uses c.kaStream (c.streamCalls m)

/-- The operation that is issued. -/
def StreamOp.call : StreamOp → StreamCall
  | .write _ => .asyncWrite
  | .read => .asyncRead
  | .writesDone => .asyncWritesDone
  | .finish => .asyncFinish
  | .tryCancel => .tryCancelOn

/-- What is issued over a step; and the stream is not given up. -/
structure Issues (c c' : Session) (calls : List StreamCall) : Prop where
  stream : c'.stream.map StreamOp.call = c.stream.map StreamOp.call ++ calls
  present : c.kaStream = true → c'.kaStream = true

theorem issues_none (hstream : c'.stream = c.stream) (hka : c'.kaStream = c.kaStream) :
    Issues c c' [] where
  stream := by rw [hstream, List.append_nil]
  present := hka.trans

theorem kaStream_shutdown (c : Session) (exn : Option Exn) :
    (c.shutdown exn).1.kaStream = c.kaStream := by
  rcases cancelTimer_keeps c with ⟨_, _, _, _, _, _, hka⟩
  unfold shutdown
  split
  · rfl
  · exact hka

/-- `shutdown()`, from a state that differs from `c` neither in the stream nor in the flag. -/
theorem issues_shutdown {d : Session} (exn : Option Exn) (hstream : d.stream = c.stream)
    (hka : d.kaStream = c.kaStream) (hops : d.ops.shutdown = c.ops.shutdown) :
    Issues c (d.shutdown exn).1 c.shutdownCalls where
  stream := by
    rcases cancelTimer_keeps d with ⟨_, _, _, hcancel, _, _, hka'⟩
    unfold shutdown shutdownCalls
    rw [hops]
    split
    · rw [hstream, List.append_nil]
    · simp only [hcancel, hka', hka, hstream]
      split
      · exact List.map_append
      · rw [List.append_nil]
  present := by
    rw [kaStream_shutdown, hka]
    exact id

theorem setTimer_keeps (c : Session) :
    c.setTimer.stream = c.stream ∧ c.setTimer.kaStream = c.kaStream := by
  unfold setTimer
  split <;> exact ⟨rfl, rfl⟩

theorem issues_onLeaseGranted (c : Session) (req : LeaseGrantRequest) (ok : Bool)
    (status : Status) (resp : LeaseGrantResponse) :
    Issues c (c.onLeaseGranted req ok status resp).1
      (c.streamCalls (.act (.leaseGranted req ok status resp))) := by
  cases hfut : futureError "async rpc cancelled" "session/preamble/lease_grant" ok status with
  | some e =>
    have hbad : (ok && status.ok) = false := by
      by_contra hgood
      have hboth : ok = true ∧ status.ok = true := by simpa using hgood
      rw [futureError_eq_none.mpr hboth] at hfut
      cases hfut
    simp only [onLeaseGranted, hfut, streamCalls, hbad, Bool.false_and, Bool.false_eq_true,
      if_false]
    exact issues_shutdown _ rfl rfl rfl
  | none =>
    rcases futureError_eq_none.mp hfut with ⟨hok, hst⟩
    by_cases herr : resp.error = []
    · have hcalls : c.streamCalls (.act (.leaseGranted req ok status resp)) = [] := by
        simp [streamCalls, hok, hst, herr]
      rw [hcalls]
      simp only [onLeaseGranted, hfut, herr, ne_eq, not_true_eq_false, if_false]
      exact issues_none (setTimer_keeps _).1 (setTimer_keeps _).2
    · simp only [onLeaseGranted, hfut, streamCalls, herr, ne_eq, not_false_eq_true, if_true,
        decide_false, Bool.and_false, Bool.false_eq_true, if_false]
      exact issues_shutdown _ rfl rfl rfl

theorem issues_revoke (c : Session) : Issues c c.revoke.1 [] := by
  rcases cancelTimer_keeps c with ⟨_, _, _, hstream, _, _, hka⟩
  unfold revoke
  split
  · exact issues_none rfl rfl
  · exact issues_none hstream hka

/-- The last wait of `revoke()`, from a state that differs from `c` in the counters and calls. -/
theorem issues_drainOps {d : Session} (hstream : d.stream = c.stream)
    (hka : d.kaStream = c.kaStream) : Issues c d.drainOps.1 [] := by
  rcases d.drainOps_keeps with ⟨hstream', hka', _⟩
  exact issues_none (hstream'.trans hstream) (hka'.trans hka)

theorem issues_onLeaseRevoked (c : Session) (id : UInt64) (ok : Bool) (status : Status) :
    Issues c (c.onLeaseRevoked id ok status).1 [] := by
  simp only [onLeaseRevoked]
  split
  · exact issues_none rfl rfl
  · split
    · exact issues_none rfl rfl
    · exact issues_drainOps rfl rfl

theorem issues_onFinished (c : Session) (ok : Bool) (status : Status) :
    Issues c (c.onFinished ok status).1 [] := by
  simp only [onFinished]
  split
  · exact issues_none rfl rfl
  · split
    · exact issues_none rfl rfl
    · exact issues_drainOps rfl rfl

theorem issues_body (c : Session) (k : Completion) : Issues c (c.body k) (k.streamCalls c) := by
  cases k with
  | timer i delay state ok =>
    simp only [body, onTimeout, Completion.streamCalls]
    split
    · exact issues_none rfl rfl
    · exact ⟨List.map_append, id⟩
  | write leaseId ok =>
    simp only [body, onWrite, Completion.streamCalls]
    split
    · exact issues_none rfl rfl
    · exact ⟨List.map_append, id⟩
  | read ok ttl =>
    simp only [body, onRead, Completion.streamCalls]
    split
    · exact issues_none rfl rfl
    · rcases setTimer_keeps { c with actualTtl := ttl * 1000, lastTtl := some ttl } with
        ⟨hstream, hka⟩
      exact issues_none hstream hka

theorem issues_handle (c : Session) (k : Completion) :
    Issues c (c.handle k) (k.streamCalls c) := by
  -- `async_op_done` leaves the stream alone, and the flags that the body looks at
  have hkept : ((c.enter k).asyncOpDone k).stream = c.stream ∧
      ((c.enter k).asyncOpDone k).kaStream = c.kaStream ∧
      k.streamCalls ((c.enter k).asyncOpDone k) = k.streamCalls c := by
    cases k <;> exact ⟨rfl, rfl, rfl⟩
  rcases hkept with ⟨hstream, hka, hcalls⟩
  rcases issues_body ((c.enter k).asyncOpDone k) k with ⟨hbody, hpresent⟩
  rw [hstream, hcalls] at hbody
  rw [hka] at hpresent
  exact ⟨hbody, hpresent⟩

/-- A step issues on the stream what it issues. -/
theorem issues_act (hact : c.act a = some (c', o)) : Issues c c' (c.streamCalls (.act a)) := by
  cases a with
  | streamCreated ok =>
    obtain ⟨-, rfl⟩ := of_guard hact
    cases ok with
    | false => exact issues_shutdown _ rfl rfl rfl
    | true => exact ⟨(List.append_nil _).symm, fun _ => rfl⟩
  | leaseGranted req ok status resp =>
    obtain ⟨-, rfl⟩ := of_guard hact
    exact issues_onLeaseGranted c req ok status resp
  | revoke =>
    obtain ⟨-, rfl⟩ := of_guard hact
    exact issues_revoke c
  | revokeLease =>
    obtain ⟨-, rfl⟩ := of_guard hact
    exact issues_none rfl rfl
  | leaseRevoked id ok status =>
    obtain ⟨-, rfl⟩ := of_guard hact
    exact issues_onLeaseRevoked c id ok status
  | revokeReadsDrained =>
    obtain ⟨-, rfl⟩ := of_guard hact
    exact ⟨List.map_append, id⟩
  | writesDone ok =>
    obtain ⟨-, rfl⟩ := of_guard hact
    cases ok with
    | false => exact issues_none rfl rfl
    | true => exact ⟨List.map_append, id⟩
  | finished ok status =>
    obtain ⟨-, rfl⟩ := of_guard hact
    exact issues_onFinished c ok status
  | destroy =>
    obtain ⟨-, rfl⟩ := of_guard hact
    exact issues_shutdown _ rfl rfl rfl
  | complete k =>
    obtain ⟨-, rfl⟩ := of_guard hact
    exact issues_handle c k
  | revokeOpsDrained =>
    obtain ⟨-, rfl⟩ := of_guard hact
    exact issues_none rfl rfl
  | shutdownReadsDrained exn =>
    obtain ⟨-, rfl⟩ := of_guard hact
    exact issues_none rfl rfl
  | shutdownOpsDrained exn =>
    obtain ⟨-, rfl⟩ := of_guard hact
    exact issues_none rfl rfl
  | timerFires id delay =>
    obtain ⟨-, rfl⟩ := of_guard hact
    exact issues_none rfl rfl

/-- The calls that go on with a stream. -/
def Call.onStream : Call → Bool
  | .createStream => false
  | .shutdownReads _ => false
  | .shutdownOps _ => false
  | _ => true

/-- Without a stream nothing is posted, nobody has the object, and no call is past the creation
of the stream but the `shutdown()` of a constructor that failed. -/
structure Ready (c : Session) : Prop where
  pending : c.pending ≠ 0 → c.kaStream = true
  constructed : c.constructed = true → c.kaStream = true
  calls : ∀ call ∈ c.calls, call.onStream = true → c.kaStream = true

theorem Ready.of_stream (h : c.kaStream = true) : Ready c where
  pending _ := h
  constructed _ := h
  calls _ _ _ := h

theorem Ready.of_mem (h : Ready c) {op : Op} (hmem : op ∈ c.pending) : c.kaStream = true :=
  h.pending fun hzero => Multiset.notMem_zero op (hzero ▸ hmem)

/-- A call that does not go on with a stream begins, or moves on. -/
theorem Ready.move (h : Ready c) (call : Call) (hcall : call.onStream = false)
    (hpending : c'.pending = c.pending) (hstream : c'.kaStream = c.kaStream)
    (hcon : c'.constructed = c.constructed)
    (hcalls : ∀ call' ∈ c'.calls, call' = call ∨ call' ∈ c.calls) : Ready c' where
  pending := by
    rw [hpending, hstream]
    exact h.pending
  constructed := by
    rw [hcon, hstream]
    exact h.constructed
  calls call' hmem hon := by
    rw [hstream]
    rcases hcalls call' hmem with rfl | hold
    · exact absurd (hcall.symm.trans hon) (by simp)
    · exact h.calls call' hold hon

theorem Ready.shutdown (h : Ready c) (exn : Option Exn) : Ready (c.shutdown exn).1 := by
  have hcancel : Ready c.cancelTimer := by
    rcases cancelTimer_keeps c with ⟨_, _, hcalls, _, _, hcon, hka⟩
    refine ⟨?_, ?_, ?_⟩
    · intro hne
      rw [hka]
      refine h.pending fun hzero => hne ?_
      unfold cancelTimer
      split
      · exact hzero
      · simp [hzero]
    · rw [hcon, hka]
      exact h.constructed
    · rw [hcalls, hka]
      exact h.calls
  unfold Session.shutdown
  split
  · exact h
  · exact hcancel.move (.shutdownReads exn) rfl rfl rfl rfl fun _ => Multiset.mem_cons.mp

/-- The steps that a stream is needed for: all but those of a constructor that is not past the
creation of the stream. -/
def Act.onStream : Act → Bool
  | .streamCreated _ => false
  | .shutdownReadsDrained _ => false
  | .shutdownOpsDrained _ => false
  | _ => true

theorem Ready.of_act (h : Ready c) (ha : a.onStream = true) (hact : c.act a = some (c', o)) :
    c.kaStream = true := by
  cases a with
  | leaseGranted req ok status resp =>
    obtain ⟨hmem, -⟩ := of_guard hact
    exact h.calls _ hmem rfl
  | revoke =>
    obtain ⟨⟨hcon, -⟩, -⟩ := of_guard hact
    exact h.constructed hcon
  | revokeLease =>
    obtain ⟨hmem, -⟩ := of_guard hact
    exact h.calls _ hmem rfl
  | leaseRevoked id ok status =>
    obtain ⟨hmem, -⟩ := of_guard hact
    exact h.calls _ hmem rfl
  | revokeReadsDrained =>
    obtain ⟨⟨hmem, -⟩, -⟩ := of_guard hact
    exact h.calls _ hmem rfl
  | writesDone ok =>
    obtain ⟨hmem, -⟩ := of_guard hact
    exact h.calls _ hmem rfl
  | finished ok status =>
    obtain ⟨hmem, -⟩ := of_guard hact
    exact h.calls _ hmem rfl
  | revokeOpsDrained =>
    obtain ⟨⟨hmem, -⟩, -⟩ := of_guard hact
    exact h.calls _ hmem rfl
  | destroy =>
    obtain ⟨⟨hcon, -⟩, -⟩ := of_guard hact
    exact h.constructed hcon
  | timerFires id delay =>
    obtain ⟨hmem, -⟩ := of_guard hact
    exact h.of_mem hmem
  | complete k =>
    obtain ⟨⟨hmem, -⟩, -⟩ := of_guard hact
    exact h.of_mem hmem
  | _ => cases ha

theorem Ready.act (h : Ready c) (hact : c.act a = some (c', o)) : Ready c' := by
  cases a with
  | streamCreated ok =>
    obtain ⟨-, rfl⟩ := of_guard hact
    cases ok with
    | false =>
      refine Ready.shutdown ?_ _
      refine h.move .createStream rfl rfl rfl rfl ?_
      exact fun _ hmem => .inr (Multiset.mem_of_mem_erase hmem)
    | true => exact .of_stream rfl
  | shutdownReadsDrained exn =>
    obtain ⟨-, rfl⟩ := of_guard hact
    refine h.move (.shutdownOps exn) rfl rfl rfl rfl ?_
    intro call hmem
    rcases Multiset.mem_cons.mp hmem with rfl | hold
    · exact .inl rfl
    · exact .inr (Multiset.mem_of_mem_erase hold)
  | shutdownOpsDrained exn =>
    obtain ⟨-, rfl⟩ := of_guard hact
    refine h.move (.shutdownOps exn) rfl rfl rfl rfl ?_
    exact fun _ hmem => .inr (Multiset.mem_of_mem_erase hmem)
  | _ => exact .of_stream ((issues_act hact).present (h.of_act rfl hact))

theorem Ready.step (h : Ready c) {m : Move} (hstep : throwing.step c m = some c') : Ready c' := by
  cases m with
  | act a =>
    rcases Option.map_eq_some_iff.mp hstep with ⟨⟨d, o⟩, hact, rfl⟩
    exact h.act hact
  | preambleThrows req resp counted exn =>
    rcases Option.ite_none_right_eq_some.mp hstep with ⟨⟨hmem, _⟩, heq⟩
    obtain rfl := Option.some.inj heq
    refine .of_stream ?_
    have hstream : c.kaStream = true := h.calls _ hmem rfl
    unfold preambleThrows
    rw [kaStream_shutdown]
    cases counted <;> exact hstream

/-- Whatever a session issues, it has a stream. -/
theorem Ready.present (h : Ready c) {m : Move} (hstep : throwing.step c m = some c')
    (hcalls : c.streamCalls m ≠ []) : c.kaStream = true := by
  have hshutdown : c.shutdownCalls ≠ [] → c.kaStream = true := by
    intro hne
    by_contra hnone
    simp [shutdownCalls, hnone] at hne
  cases m with
  | preambleThrows req resp counted exn => exact hshutdown hcalls
  | act a =>
    rcases Option.map_eq_some_iff.mp hstep with ⟨⟨d, o⟩, hact, rfl⟩
    cases a with
    | streamCreated ok =>
      cases ok with
      | false => exact hshutdown hcalls
      | true => exact absurd rfl hcalls
    | leaseGranted req ok status resp => exact h.of_act rfl hact
    | revokeReadsDrained => exact h.of_act rfl hact
    | writesDone ok => exact h.of_act rfl hact
    | destroy => exact h.of_act rfl hact
    | complete k => exact h.of_act rfl hact
    | _ => exact absurd rfl hcalls

theorem reachable_ready (hc : throwing.Reachable Any c) : Ready c := by
  refine hc.invariant ?_ ?_
  · rintro _ ⟨desiredTtl, leaseId, rfl⟩
    refine ⟨fun hne => absurd rfl hne, ?_, ?_⟩
    · intro hcon
      cases hcon
    · intro call hmem hon
      rw [Multiset.mem_singleton.mp hmem] at hon
      cases hon
  · intro c m c' ih _ hstep
    exact ih.step hstep

/-- What a session issues is issued on a stream. -/
theorem recorder_present {s : Session × List StreamUse} (hs : recorder.Reachable Any s) :
    ∀ u ∈ s.2, u.present = true := by
  refine (Reachable.all_recorded hs).mpr (hs.mono_of ?_)
  intro s m t hs hstep _
  have hready : Ready s.1 := reachable_ready (Reachable.of_recorded hs)
  exact uses_present.mpr (hready.present (recorded_step hstep).1)

end Session

/-! ## No operation on an absent stream -/

/-- Whatever a candidate or a session issues, it issues on a stream that is there; an observer
does so exactly in the runs that destroy it only with a stream. -/
theorem stream_present (o : Observer × List StreamUse) (c : Candidate × List StreamUse)
    (s : Session × List StreamUse) :
    (Observer.recorder.Reachable Any o → ((∀ u ∈ o.2, u.present = true) ↔
      Observer.recorder.Reachable (fun o m => o.1.Opened m) o)) ∧
    (Candidate.recorder.Reachable Any c → ∀ u ∈ c.2, u.present = true) ∧
    (Session.recorder.Reachable Any s → ∀ u ∈ s.2, u.present = true) :=
  ⟨Observer.recorder_present, Candidate.recorder_present, Session.recorder_present⟩

/-- An observer is shut down and destroyed; a candidate resigns and is destroyed; the
constructor of a session is ended by an exception once its stream is there. -/
theorem stream_present_destroyed :
    (∃ o, Observer.recorder.Reachable Any o ∧ (∀ u ∈ o.2, u.present = true) ∧
      o.2.map StreamUse.call = [.asyncWrite, .asyncRead, .asyncWrite, .tryCancelOn]) ∧
    (∃ c, Candidate.recorder.Reachable Any c ∧ (∀ u ∈ c.2, u.present = true) ∧
      c.2.map StreamUse.call = [.asyncWrite, .asyncRead, .asyncRead, .asyncWrite, .tryCancelOn,
        .asyncWritesDone, .asyncFinish, .tryCancelOn]) ∧
    ∃ s, Session.recorder.Reachable Any s ∧ (∀ u ∈ s.2, u.present = true) ∧
      s.2.map StreamUse.call = [.tryCancelOn] := by
  let noObserver : Observer × List StreamUse := (Observer.init [], [])
  let noCandidate : Candidate × List StreamUse := (Candidate.init [] 1 [], [])
  let noSession : Session × List StreamUse := (Session.init 5000 0, [])
  refine ⟨?_, ?_, ?_⟩
  · let c := Observer.init []
    let acts : List Observer.Act :=
      [.startup, .streamCreated true, .answerRange c.discoverRequest { revision := 1 },
        .complete (.range c.discoverRequest (some { revision := 1 }) true {}),
        .complete (.watchCreate (c.watcherRequest 1) true), .shutdown, .destroy]
    rcases reachable_of_execIf Observer.recorder (fun o m => decide (o.1.Opened m)) noObserver
      (acts.map .act) (fun o => decide (o.2.map StreamUse.call =
        [.asyncWrite, .asyncRead, .asyncWrite, .tryCancelOn]))
      (fun _ _ => of_decide_eq_true) ⟨⟨_, rfl⟩, rfl⟩ (by decide) with ⟨o, hreach, hcheck⟩
    have hany := hreach.mono fun _ _ _ => trivial
    exact ⟨o, hany, ((stream_present o noCandidate noSession).1 hany).mpr hreach,
      of_decide_eq_true hcheck⟩
  · let acts : List Candidate.Act := Candidate.campaignTrace ++ watchRival 1 0 ++
      [.resign, .cancelWritten {0} 0, .cancelsDone,
        .complete (.watchRead (rival 1).key 2 false {}), .readsDone, .writesDone true,
        .finished true, .destroy]
    rcases reachable_of_exec Candidate.recorder noCandidate (acts.map .act)
      (fun c => decide (c.2.map StreamUse.call = [.asyncWrite, .asyncRead, .asyncRead,
        .asyncWrite, .tryCancelOn, .asyncWritesDone, .asyncFinish, .tryCancelOn]))
      ⟨⟨_, _, _, rfl⟩, rfl⟩ (by decide) with ⟨c, hreach, hcheck⟩
    exact ⟨c, hreach, (stream_present noObserver c noSession).2.1 hreach,
      of_decide_eq_true hcheck⟩
  · rcases reachable_of_exec Session.recorder noSession
      [.act (.streamCreated true),
        .preambleThrows { ttl := 5, id := 0 } { id := 1000, ttl := 5 } true .application]
      (fun s => decide (s.2.map StreamUse.call = [.tryCancelOn])) ⟨⟨_, _, rfl⟩, rfl⟩ (by decide)
      with ⟨s, hreach, hcheck⟩
    exact ⟨s, hreach, (stream_present noObserver noCandidate s).2.2 hreach,
      of_decide_eq_true hcheck⟩

/-- An observer that was not started, and one whose `startup()` failed, are destroyed: each
destructor cancels operations on a stream that is not there. -/
theorem absent_stream_cancelled :
    (∃ o, Observer.recorder.Reachable Any o ∧ o.1.started = false ∧
      o.2 = [{ call := .tryCancelOn, present := false }]) ∧
    ∃ o, Observer.recorder.Reachable Any o ∧ o.1.started = true ∧
      o.2 = [{ call := .tryCancelOn, present := false }] := by
  constructor
  · rcases reachable_of_exec Observer.recorder (Observer.init [], []) [.act .destroy]
      (fun o => !o.1.started && decide (o.2 = [{ call := .tryCancelOn, present := false }]))
      ⟨⟨_, rfl⟩, rfl⟩ (by decide) with ⟨o, hreach, hcheck⟩
    simp only [Bool.and_eq_true, Bool.not_eq_true', decide_eq_true_eq] at hcheck
    exact ⟨o, hreach, hcheck.1, hcheck.2⟩
  · rcases reachable_of_exec Observer.recorder (Observer.init [], [])
      [.act .startup, .act (.streamCreated false), .act .destroy]
      (fun o => o.1.started && decide (o.2 = [{ call := .tryCancelOn, present := false }]))
      ⟨⟨_, rfl⟩, rfl⟩ (by decide) with ⟨o, hreach, hcheck⟩
    simp only [Bool.and_eq_true, decide_eq_true_eq] at hcheck
    exact ⟨o, hreach, hcheck.1, hcheck.2⟩

end GeeH
