import GeeH.Observer.Impl
import Mathlib.Data.Multiset.Filter

/-!
# GeeH.Observer.Steps — what one step of an observer can do

`act_cases` says it once. Most steps are quiet: they leave alone what the
observer knows about the election, and at most replace the stream that
`startup()` waits for by the Range that discovers the leader. The others
answer that Range, handle its completion, or handle a watch response.
-/

namespace GeeH.Observer

open Etcd

variable {c c' : Observer} {a : Act} {o : Outcome}

/-- The steps that the completion queue takes. -/
def Act.isQueue : Act → Bool
  | .complete _ => true
  | _ => false

/-- The Range of the discovery. -/
def Op.isRange : Op → Bool
  | .range _ _ => true
  | _ => false

/-- The part of `startup()` that leads to the discovery. -/
def Call.isStream : Call → Bool
  | .createWatcherStream => true
  | _ => false

/-- The Ranges among the operations. -/
def ranges (s : Multiset Op) : Multiset Op := s.filter fun op => op.isRange

/-- The calls that wait for a stream. -/
def streams (s : Multiset Call) : Multiset Call := s.filter fun call => call.isStream

/-- How many discoveries were begun and not given up. -/
def inquiries (c : Observer) : Nat :=
  (streams c.calls).card + (ranges c.pending).card + c.discovered.isSome.toNat

/-- What the observer knows of the election. -/
structure View where
  electionName : Bytes
  participants : Participants
  requests : List WatchCreateRequest
  discovered : Option RangeResponse

/-- What the observer knows of the election. -/
def view (c : Observer) : View where
  electionName := c.electionName
  participants := c.participants
  requests := c.requests
  discovered := c.discovered

/-- A step that leaves that alone. The only Range it can post is the one of the discovery,
and only in the place of a stream that was waited for, or on the first `startup()`. -/
structure Quiet (c c' : Observer) : Prop where
  view : c'.view = c.view
  ranges : ∀ op ∈ ranges c'.pending,
    op ∈ ranges c.pending ∨ op = .range c.discoverRequest none
  once : c'.inquiries + c.started.toNat ≤ c.inquiries + c'.started.toNat

/-- The effects that a step can have. -/
inductive Effect (c c' : Observer) : Act → Prop where
  | quiet (a : Act) (h : Quiet c c') : Effect c c' a
  | startedAgain (hst : c.started = true) : Effect c c' .startup
  | answered (req : RangeRequest) (resp : RangeResponse) (hmem : .range req none ∈ c.pending)
      (heq : c' = c.answerRange req resp) : Effect c c' (.answerRange req resp)
  | ranged (req : RangeRequest) (resp : Option RangeResponse) (ok : Bool) (status : Status)
      (hmem : .range req resp ∈ c.pending)
      (hwf : (Completion.range req resp ok status).WellFormed)
      (heq : c' = (c.handle (.range req resp ok status)).1) :
      Effect c c' (.complete (.range req resp ok status))
  | read (ok : Bool) (resp : WatchResponse) (hmem : .watchRead ∈ c.pending)
      (heq : c' = (c.handle (.watchRead ok resp)).1) :
      Effect c c' (.complete (.watchRead ok resp))

/-! ## Pools -/

theorem ranges_cons {op : Op} (h : op.isRange = false) (s : Multiset Op) :
    ranges (op ::ₘ s) = ranges s :=
  Multiset.filter_cons_of_neg (p := fun op : Op => op.isRange) s (by simp [h])

theorem ranges_range (req : RangeRequest) (resp : Option RangeResponse) (s : Multiset Op) :
    ranges (.range req resp ::ₘ s) = .range req resp ::ₘ ranges s :=
  Multiset.filter_cons_of_pos (p := fun op : Op => op.isRange) s rfl

theorem ranges_erase_le (op : Op) (s : Multiset Op) : ranges (s.erase op) ≤ ranges s :=
  Multiset.filter_le_filter _ (Multiset.erase_le op s)

theorem ranges_erase_range {req : RangeRequest} {resp : Option RangeResponse} {s : Multiset Op}
    (h : .range req resp ∈ s) : (ranges (s.erase (.range req resp))).card + 1 = (ranges s).card := by
  have hs := congrArg (fun t => (ranges t).card) (Multiset.cons_erase h)
  simpa [ranges_range] using hs

theorem mem_ranges {op : Op} {s : Multiset Op} : op ∈ ranges s ↔ op ∈ s ∧ op.isRange = true :=
  Multiset.mem_filter

theorem streams_cons {call : Call} (h : call.isStream = false) (s : Multiset Call) :
    streams (call ::ₘ s) = streams s :=
  Multiset.filter_cons_of_neg (p := fun call : Call => call.isStream) s (by simp [h])

theorem streams_stream (s : Multiset Call) :
    streams (.createWatcherStream ::ₘ s) = .createWatcherStream ::ₘ streams s :=
  Multiset.filter_cons_of_pos (p := fun call : Call => call.isStream) s rfl

theorem streams_erase_le (call : Call) (s : Multiset Call) : streams (s.erase call) ≤ streams s :=
  Multiset.filter_le_filter _ (Multiset.erase_le call s)

/-! ## Quiet steps -/

/-- A step that adds no Range and no stream. -/
theorem quiet_of (hview : c'.view = c.view) (hst : c'.started = c.started)
    (hcalls : streams c'.calls ≤ streams c.calls)
    (hpend : ranges c'.pending ≤ ranges c.pending) : Quiet c c' where
  view := hview
  ranges op hop := Or.inl (Multiset.mem_of_le hpend hop)
  once := by
    have hdisc : c'.discovered = c.discovered := congrArg View.discovered hview
    have h₁ := Multiset.card_le_card hcalls
    have h₂ := Multiset.card_le_card hpend
    unfold inquiries
    rw [hdisc, hst]
    omega

theorem quiet_postRead (c : Observer) : Quiet c c.postRead := by
  unfold postRead
  split
  · exact quiet_of rfl rfl le_rfl le_rfl
  · exact quiet_of rfl rfl le_rfl (le_of_eq (ranges_cons rfl _))

/-- The observer with an operation taken out, as a handler finds it. -/
def taken (c : Observer) (op : Op) : Observer :=
  { c with pending := c.pending.erase op, ops := c.ops.asyncOpDone }

theorem Quiet.erase (op : Op) (h : Quiet (c.taken op) c') : Quiet c c' where
  view := h.view
  ranges op' hop' := by
    rcases h.ranges op' hop' with hmem | hnew
    · exact Or.inl (Multiset.mem_of_le (ranges_erase_le op c.pending) hmem)
    · exact Or.inr hnew
  once := by
    have hle := Multiset.card_le_card (ranges_erase_le op c.pending)
    have htaken : (c.taken op).inquiries ≤ c.inquiries := by
      show (streams c.calls).card + (Observer.ranges (c.pending.erase op)).card +
        c.discovered.isSome.toNat ≤ (streams c.calls).card + (Observer.ranges c.pending).card +
        c.discovered.isSome.toNat
      omega
    have honce : c'.inquiries + c.started.toNat ≤ (c.taken op).inquiries + c'.started.toNat :=
      h.once
    omega

theorem quiet_onStreamCreated {ok : Bool} (hmem : .createWatcherStream ∈ c.calls) :
    Quiet c (c.onStreamCreated ok).1 := by
  have hcount : (streams (c.calls.erase .createWatcherStream)).card + 1 = (streams c.calls).card := by
    have hs := congrArg (fun t => (streams t).card) (Multiset.cons_erase hmem)
    simpa [streams_stream] using hs
  unfold onStreamCreated
  cases ok with
  | false => exact quiet_of rfl rfl (streams_erase_le _ _) le_rfl
  | true =>
    simp only [Bool.not_true, Bool.false_eq_true, if_false, discover]
    split
    · exact quiet_of rfl rfl (streams_erase_le _ _) le_rfl
    -- the stream becomes the Range
    · constructor
      · rfl
      · intro op hop
        have hop' : op ∈ ranges (.range c.discoverRequest none ::ₘ c.pending) := hop
        rw [ranges_range] at hop'
        rcases Multiset.mem_cons.mp hop' with hnew | hold
        · exact Or.inr hnew
        · exact Or.inl hold
      · show (streams (c.calls.erase .createWatcherStream)).card +
            (ranges (.range c.discoverRequest none ::ₘ c.pending)).card +
            c.discovered.isSome.toNat + c.started.toNat ≤
          (streams c.calls).card + (ranges c.pending).card + c.discovered.isSome.toNat +
            c.started.toNat
        rw [ranges_range, Multiset.card_cons]
        omega

theorem effect_startup : Effect c c.startup.1 .startup := by
  cases hst : c.started with
  | true => exact .startedAgain hst
  | false =>
    refine .quiet _ ?_
    simp only [startup]
    split
    · constructor
      · rfl
      · intro op hop
        exact Or.inl hop
      · show c.inquiries + c.started.toNat ≤ c.inquiries + 1
        rw [hst]
        simp
    · constructor
      · rfl
      · intro op hop
        exact Or.inl hop
      -- the first discovery
      · show (streams (.createWatcherStream ::ₘ c.calls)).card + (ranges c.pending).card +
            c.discovered.isSome.toNat + c.started.toNat ≤
          (streams c.calls).card + (ranges c.pending).card + c.discovered.isSome.toNat + 1
        rw [streams_stream, Multiset.card_cons, hst, Bool.toNat_false]
        omega

theorem effect_complete {k : Completion} (hmem : k.op ∈ c.pending) (hwf : k.WellFormed) :
    Effect c (c.handle k).1 (.complete k) := by
  cases k with
  | range req resp ok status => exact .ranged req resp ok status hmem hwf rfl
  | watchRead ok resp => exact .read ok resp hmem rfl
  | watchCreate req ok =>
    refine .quiet _ (Quiet.erase (.watchCreate req) ?_)
    simp only [handle, body, onWatchCreate]
    split
    · exact quiet_of rfl rfl le_rfl le_rfl
    · exact quiet_postRead _
  | watchCancel id ok =>
    exact .quiet _ (Quiet.erase (.watchCancel id) (quiet_of rfl rfl le_rfl le_rfl))

theorem quiet_register (c : Observer) : Quiet c c.register := quiet_of rfl rfl le_rfl le_rfl

theorem quiet_subscribe (c : Observer) : Quiet c c.subscribe.1 := by
  unfold subscribe
  split
  · exact quiet_of rfl rfl (le_of_eq (streams_cons rfl _)) le_rfl
  · exact quiet_register c

theorem quiet_onSubscriberDone (c : Observer) (key value : Bytes) (throws : Bool) :
    Quiet c (c.onSubscriberDone key value throws).1 := by
  unfold onSubscriberDone
  cases throws with
  | true => exact quiet_of rfl rfl (streams_erase_le _ _) le_rfl
  | false => exact quiet_of rfl rfl (streams_erase_le _ _) le_rfl

theorem quiet_shutdown (c : Observer) : Quiet c c.shutdown.1 := by
  unfold shutdown
  split
  · exact quiet_of rfl rfl le_rfl le_rfl
  · unfold cancelWatcher
    split
    · exact quiet_of rfl rfl le_rfl le_rfl
    · exact quiet_of rfl rfl le_rfl (le_of_eq (ranges_cons rfl _))

/-- The completion queue runs the handler of an operation that is outstanding. -/
theorem act_complete {k : Completion} (h : c.act (.complete k) = some (c', o)) :
    k.op ∈ c.pending ∧ k.WellFormed ∧ c' = (c.handle k).1 := by
  obtain ⟨hk, rfl⟩ := of_guard h
  exact ⟨hk.1, hk.2, rfl⟩

/-- What one step can do. -/
theorem act_cases (h : c.act a = some (c', o)) : Effect c c' a := by
  cases a with
  | startup =>
    obtain ⟨-, rfl⟩ := of_guard_not h
    exact effect_startup
  | streamCreated ok =>
    obtain ⟨hmem, rfl⟩ := of_guard h
    exact .quiet _ (quiet_onStreamCreated hmem)
  | subscribe =>
    obtain ⟨-, rfl⟩ := of_guard_not h
    exact .quiet _ (quiet_subscribe c)
  | subscriberDone key value throws =>
    obtain ⟨-, rfl⟩ := of_guard h
    exact .quiet _ (quiet_onSubscriberDone c key value throws)
  | unsubscribe token =>
    obtain ⟨-, rfl⟩ := of_guard_not h
    exact .quiet _ (quiet_of rfl rfl le_rfl le_rfl)
  | shutdown =>
    obtain ⟨-, rfl⟩ := of_guard_not h
    exact .quiet _ (quiet_shutdown c)
  | destroy =>
    obtain ⟨-, rfl⟩ := of_guard_not h
    exact .quiet _ (quiet_of rfl rfl (le_of_eq (streams_cons rfl _)) le_rfl)
  | answerRange req resp =>
    obtain ⟨hmem, heq⟩ := of_guard h
    exact .answered req resp hmem heq
  | complete k =>
    rcases act_complete h with ⟨hmem, hwf, rfl⟩
    exact effect_complete hmem hwf
  | opsDrained =>
    obtain ⟨-, rfl⟩ := of_guard h
    exact .quiet _ (quiet_of rfl rfl (streams_erase_le _ _) le_rfl)

/-! ## Operations posted and ended -/

/-- What the body of a handler posts when `ops_` grants it. -/
def Completion.next (c : Observer) : Completion → Multiset Op
  | .range _ resp true status =>
    let resp := if status.ok then resp.getD {} else {}
    let rev := match resp.kvs with
      | [] => resp.revision
      | kv :: _ => kv.createRevision
    {.watchCreate (c.watcherRequest rev)}
  | .watchCreate _ true => {.watchRead}
  | .watchRead true resp =>
    if resp.canceled || resp.compactRevision ≠ 0 then 0 else {.watchRead}
  | _ => 0

/-- The operations that a step posts. -/
def posted (c : Observer) : Act → Multiset Op
  | .streamCreated true => if c.ops.shutdown then 0 else {.range c.discoverRequest none}
  | .shutdown => if c.watcherStream && !c.ops.shutdown then {.watchCancel c.watchId} else 0
  | .answerRange request response => {.range request (some response)}
  | .complete k => if c.ops.shutdown then 0 else k.next c
  | _ => 0

/-- The operation that a step ends. -/
def Act.ended : Act → Multiset Op
  | .answerRange request _ => {.range request none}
  | .complete k => {k.op}
  | _ => 0

@[simp] theorem pending_reportElectionLeader (c : Observer) (kv : KeyValue) :
    (c.reportElectionLeader kv).pending = c.pending := by
  simp only [reportElectionLeader]
  split <;> rfl

theorem pending_createWatcher (c : Observer) (rev : Int) :
    (c.createWatcher rev).pending =
      (if c.ops.shutdown then 0 else {.watchCreate (c.watcherRequest rev)}) + c.pending := by
  unfold createWatcher
  split <;> simp

theorem pending_postRead (c : Observer) :
    c.postRead.pending = (if c.ops.shutdown then 0 else {.watchRead}) + c.pending := by
  unfold postRead
  split <;> simp

theorem pending_body (c : Observer) (k : Completion) :
    (c.body k).1.pending = (if c.ops.shutdown then 0 else k.next c) + c.pending := by
  cases k with
  | range req resp ok status =>
    cases ok with
    | false => simp [body, onRangeRequest, Completion.next]
    | true =>
      simp only [body, onRangeRequest, Completion.next, Bool.not_true, Bool.false_eq_true, if_false]
      cases hkvs : (if status.ok = true then resp.getD {} else {}).kvs with
      | nil =>
        simp only [pending_createWatcher]
        rfl
      | cons kv rest =>
        by_cases hrest : rest = []
        · simp only [hrest, ne_eq, not_true_eq_false, if_false, pending_reportElectionLeader,
            pending_createWatcher]
          rfl
        · simp only [hrest, ne_eq, not_false_eq_true, if_true, pending_createWatcher]
          rfl
  | watchCreate req ok =>
    cases ok with
    | false => simp [body, onWatchCreate, Completion.next]
    | true => exact pending_postRead c
  | watchCancel id ok => simp [body, Completion.next]
  | watchRead ok resp =>
    cases ok with
    | false => simp [body, onWatchRead, Completion.next]
    | true =>
      simp only [body, onWatchRead, Completion.next, Bool.not_true, Bool.false_eq_true, if_false]
      split
      · simp
      · rw [pending_postRead]
        split <;> rfl

/-- A step other than a completion or an answer ends nothing. -/
theorem pending_of_posted (hend : a.ended = 0) (h : c'.pending = c.posted a + c.pending) :
    a.ended ≤ c.pending ∧ c'.pending = c.posted a + (c.pending - a.ended) := by
  rw [hend, Multiset.sub_zero]
  exact ⟨Multiset.zero_le _, h⟩

/-- A step posts what it posts, and ends what it ends. -/
theorem pending_act (h : c.act a = some (c', o)) :
    a.ended ≤ c.pending ∧ c'.pending = c.posted a + (c.pending - a.ended) := by
  cases a with
  | startup =>
    obtain ⟨-, rfl⟩ := of_guard_not h
    refine pending_of_posted rfl ?_
    simp only [startup]
    split <;> simp [posted]
  | streamCreated ok =>
    obtain ⟨-, rfl⟩ := of_guard h
    refine pending_of_posted rfl ?_
    unfold onStreamCreated
    cases ok with
    | false => simp [posted]
    | true =>
      simp only [Bool.not_true, Bool.false_eq_true, if_false, discover, posted]
      cases hops : c.ops.shutdown <;> simp [AsyncOpCounter.asyncOpDone, hops, discoverRequest]
  | subscribe =>
    obtain ⟨-, rfl⟩ := of_guard_not h
    refine pending_of_posted rfl ?_
    unfold subscribe
    split <;> simp [posted, register]
  | subscriberDone key value throws =>
    obtain ⟨-, rfl⟩ := of_guard h
    refine pending_of_posted rfl ?_
    unfold onSubscriberDone
    cases throws <;> simp [posted, register]
  | unsubscribe token =>
    obtain ⟨-, rfl⟩ := of_guard_not h
    refine pending_of_posted rfl ?_
    simp [posted, unsubscribe]
  | shutdown =>
    obtain ⟨-, rfl⟩ := of_guard_not h
    refine pending_of_posted rfl ?_
    unfold shutdown cancelWatcher
    cases hstream : c.watcherStream <;> cases hops : c.ops.shutdown <;>
      simp [posted, hstream, hops]
  | destroy =>
    obtain ⟨-, rfl⟩ := of_guard_not h
    exact pending_of_posted rfl (Multiset.zero_add _).symm
  | answerRange req resp =>
    obtain ⟨hmem, rfl⟩ := of_guard h
    refine ⟨Multiset.singleton_le.mpr hmem, ?_⟩
    simp [posted, Act.ended, answerRange]
  | complete k =>
    rcases act_complete h with ⟨hmem, _, rfl⟩
    refine ⟨Multiset.singleton_le.mpr hmem, ?_⟩
    unfold handle
    rw [pending_body]
    simp only [posted, Act.ended, enter, asyncOpDone, Multiset.sub_singleton]
    rfl
  | opsDrained =>
    obtain ⟨-, rfl⟩ := of_guard h
    exact pending_of_posted rfl (Multiset.zero_add _).symm

/-- How many operations of a kind are outstanding after a step. -/
theorem countP_act (p : Op → Prop) [DecidablePred p] (h : c.act a = some (c', o)) :
    c'.pending.countP p + a.ended.countP p = (c.posted a).countP p + c.pending.countP p := by
  rcases pending_act h with ⟨hle, hpend⟩
  have hsub : (c.pending - a.ended).countP p + a.ended.countP p = c.pending.countP p := by
    rw [← Multiset.countP_add, Multiset.sub_add_cancel hle]
  rw [hpend, Multiset.countP_add]
  omega

end GeeH.Observer
