import GeeH.Observer.Accounting

/-!
# GeeH.Observer.Listening — whether changes can still reach an observer

The Range leads to the request for the watch, the request to a read, and a read
to the next one. As long as one of them is outstanding, a change of leader can
still reach the observer. The one link that is missing is in `on_watch_read()`:
a response that cancels the watch, as a compaction makes etcd send one, is not
followed by anything.
-/

namespace GeeH.Observer

open Etcd Machine

variable {c c' : Observer} {a : Act} {o : Outcome}

/-- The operations whose completion goes on with the watch. -/
def Op.listens : Op → Bool
  | .range _ _ => true
  | .watchCreate _ => true
  | .watchRead => true
  | .watchCancel _ => false

def listening (s : Multiset Op) : Nat := s.countP fun op => op.listens

/-- How many of them are outstanding. -/
def listeners (c : Observer) : Nat := listening c.pending

/-- Every completion is ok, with OK status. -/
def Act.AllOk : Act → Prop
  | .complete (.range _ _ ok status) => ok = true ∧ status.ok = true
  | .complete (.watchCreate _ ok) => ok = true
  | .complete (.watchCancel _ ok) => ok = true
  | .complete (.watchRead ok _) => ok = true
  | _ => True

instance (a : Act) : Decidable a.AllOk :=
  match a with
  | .complete (.range _ _ _ _) => inferInstanceAs (Decidable (_ ∧ _))
  | .complete (.watchCreate _ _) | .complete (.watchCancel _ _) | .complete (.watchRead _ _) =>
    inferInstanceAs (Decidable (_ = _))
  | .startup | .streamCreated _ | .subscribe | .subscriberDone _ _ _ | .unsubscribe _
  | .shutdown | .destroy | .answerRange _ _ | .opsDrained => inferInstanceAs (Decidable True)

/-- The response ends the watch. -/
def ends (resp : WatchResponse) : Bool := resp.canceled || decide (resp.compactRevision ≠ 0)

/-- A watch that the observer depends on is not cancelled by the server. -/
def Uncancelled (c : Observer) : Act → Prop
  | .complete (.watchRead true resp) => ends resp = true → 2 ≤ c.listeners
  | _ => True

instance (c : Observer) (a : Act) : Decidable (c.Uncancelled a) :=
  match a with
  | .complete (.watchRead true _) => inferInstanceAs (Decidable (_ → _))
  | .complete (.watchRead false _) | .complete (.range _ _ _ _) | .complete (.watchCreate _ _)
  | .complete (.watchCancel _ _) | .startup | .streamCreated _ | .subscribe
  | .subscriberDone _ _ _ | .unsubscribe _ | .shutdown | .destroy | .answerRange _ _
  | .opsDrained => inferInstanceAs (Decidable True)

theorem listeners_act (hact : c.act a = some (c', o)) :
    c'.listeners + listening a.ended = listening (c.posted a) + c.listeners := by
  unfold listeners listening
  exact countP_act (fun op => op.listens) hact

/-- Only `startup()` sets the stream, and only the destructor is entered for good. -/
theorem watcherStream_act (hact : c.act a = some (c', o)) :
    (c'.watcherStream = true → c.watcherStream = true ∨ a = .streamCreated true) ∧
    (c'.destroyed = false → c.destroyed = false) := by
  cases a with
  | startup =>
    obtain ⟨-, rfl⟩ := of_guard_not hact
    simp only [startup]
    split <;> exact ⟨.inl, id⟩
  | streamCreated ok =>
    obtain ⟨-, rfl⟩ := of_guard hact
    cases ok with
    | false => exact ⟨.inl, id⟩
    | true =>
      refine ⟨fun _ => .inr rfl, ?_⟩
      have hdisc := balanced_discover { c with
        ops := c.ops.asyncOpDone
        calls := c.calls.erase .createWatcherStream
        watcherStream := true }
      exact fun hd => hdisc.destroyed.symm.trans hd
  | subscribe =>
    obtain ⟨-, rfl⟩ := of_guard_not hact
    unfold subscribe
    split <;> exact ⟨.inl, id⟩
  | subscriberDone key value throws =>
    obtain ⟨-, rfl⟩ := of_guard hact
    unfold onSubscriberDone
    cases throws <;> exact ⟨.inl, id⟩
  | unsubscribe token =>
    obtain ⟨-, rfl⟩ := of_guard_not hact
    exact ⟨.inl, id⟩
  | shutdown =>
    obtain ⟨-, rfl⟩ := of_guard_not hact
    unfold shutdown
    split
    · exact ⟨.inl, id⟩
    · have hcancel := balanced_cancelWatcher c
      exact ⟨fun h => .inl (hcancel.stream.symm.trans h), hcancel.destroyed.symm.trans⟩
  | destroy =>
    obtain ⟨-, rfl⟩ := of_guard_not hact
    exact ⟨.inl, fun hd => by cases hd⟩
  | answerRange req resp =>
    obtain ⟨-, rfl⟩ := of_guard hact
    exact ⟨.inl, id⟩
  | complete k =>
    rcases act_complete hact with ⟨_, _, rfl⟩
    have hbody := balanced_body (c.enter k).asyncOpDone k
    exact ⟨fun h => .inl (hbody.stream.symm.trans h), hbody.destroyed.symm.trans⟩
  | opsDrained =>
    obtain ⟨-, rfl⟩ := of_guard hact
    exact ⟨.inl, id⟩

/-! ## One link leads to the next -/

/-- Where nothing refuses it, an ok completion goes on with the watch, unless it ends it. -/
theorem listening_next (c : Observer) {k : Completion} (hok : (Act.complete k).AllOk) :
    listening (k.next c) = listening {k.op} ∨
    ∃ resp, k = .watchRead true resp ∧ ends resp = true ∧ listening (k.next c) = 0 := by
  cases k with
  | range req resp ok status =>
    cases hok.1
    exact .inl rfl
  | watchCreate req ok =>
    cases show ok = true from hok
    exact .inl rfl
  | watchCancel id ok => exact .inl rfl
  | watchRead ok resp =>
    cases show ok = true from hok
    simp only [Completion.next]
    split
    · rename_i hends
      exact .inr ⟨resp, rfl, hends, rfl⟩
    · exact .inl rfl

/-- After `startup()`, something is outstanding that goes on with the watch. -/
def Listens (c : Observer) : Prop := c.watcherStream = true → c.destroyed = false → 1 ≤ c.listeners

/-- An ok step of a live observer keeps it listening if and only if it does not end the only
watch. -/
theorem listens_step (hs : Stage c) (h : c.Listens) (hok : a.AllOk)
    (hact : c.act a = some (c', o)) (hstream : c'.watcherStream = true)
    (hd : c'.destroyed = false) : 1 ≤ c'.listeners ↔ c.Uncancelled a := by
  rcases watcherStream_act hact with ⟨hwas, hlive⟩
  have hops : c.ops.shutdown = false := hs.open_of_live (hlive hd)
  have hcount := listeners_act hact
  cases a with
  | streamCreated ok =>
    refine iff_of_true ?_ trivial
    have hnone : listening (Act.streamCreated ok).ended = 0 := rfl
    cases ok with
    | false =>
      rcases hwas hstream with hwas | hnew
      · have hpos := h hwas (hlive hd)
        omega
      · cases hnew
    | true =>
      -- the stream is followed by the Range
      have hone : listening (c.posted (.streamCreated true)) = 1 := by
        simp only [posted, hops]
        rfl
      omega
  | complete k =>
    have hpos : 1 ≤ c.listeners := by
      rcases hwas hstream with hwas | hnew
      · exact h hwas (hlive hd)
      · cases hnew
    have hposted : c.posted (.complete k) = k.next c := by simp [posted, hops]
    have hended : (Act.complete k).ended = {k.op} := rfl
    rw [hposted, hended] at hcount
    rcases listening_next c hok with hsame | ⟨resp, rfl, hends, hzero⟩
    · refine iff_of_true (by omega) ?_
      unfold Uncancelled
      split
      · rename_i resp heq
        cases heq
        intro hends
        have hzero : Completion.next c (.watchRead true resp) = 0 := if_pos hends
        rw [hzero] at hsame
        cases hsame
      · trivial
    · have hone : listening {(Completion.watchRead true resp).op} = 1 := rfl
      simp only [Uncancelled, hends, true_imp_iff]
      omega
  | answerRange req resp =>
    refine iff_of_true ?_ trivial
    have hone : listening (c.posted (.answerRange req resp)) = 1 := rfl
    have hone' : listening (Act.answerRange req resp).ended = 1 := rfl
    rcases hwas hstream with hwas | hnew
    · have hpos := h hwas (hlive hd)
      omega
    · cases hnew
  | _ =>
    refine iff_of_true ?_ trivial
    rcases hwas hstream with hwas | hnew
    · have hpos := h hwas (hlive hd)
      simp only [Act.ended] at hcount
      have hnone : listening 0 = 0 := rfl
      omega
    · cases hnew

/-! ## Whole runs -/

/-- In runs in which every completion is ok and the server does not cancel a watch that the
observer depends on, an observer that was started is listening until it is destroyed. A step
that is ok ends that if and only if it cancels such a watch. -/
theorem never_deaf (c : Observer)
    (hc : machine.Reachable (fun c a => a.AllOk ∧ c.Uncancelled a) c) :
    (c.watcherStream = true → c.destroyed = false → 1 ≤ c.listeners) ∧
    ∀ c' a, a.AllOk → machine.step c a = some c' → c'.watcherStream = true →
      c'.destroyed = false → (1 ≤ c'.listeners ↔ c.Uncancelled a) := by
  have hlistens : c.Listens := by
    refine hc.invariant_of (fun _ h => (reachable_accounted h).1) ?_ ?_
    · rintro _ ⟨name, rfl⟩ hstream
      cases hstream
    · intro c a c' hs ih hok hstep hstream hd
      rcases Option.map_eq_some_iff.mp hstep with ⟨⟨d, o⟩, hact, rfl⟩
      exact (listens_step hs ih hok.1 hact hstream hd).mpr hok.2
  refine ⟨hlistens, ?_⟩
  intro c' a hok hstep hstream hd
  rcases Option.map_eq_some_iff.mp hstep with ⟨⟨d, o⟩, hact, rfl⟩
  exact listens_step (reachable_accounted hc).1 hlistens hok hact hstream hd

/-- The Range of an observer of an election without a name, answered with a leader that was
elected at revision 2. -/
def watchTrace : List Act :=
  let c := init []
  let resp : RangeResponse := { revision := 10, kvs := [{ key := [47, 1], createRevision := 2 }] }
  [.startup, .streamCreated true, .answerRange c.discoverRequest resp,
    .complete (.range c.discoverRequest (some resp) true {}),
    .complete (.watchCreate (c.watcherRequest 2) true)]

/-- The observer reads a response, and goes on reading. -/
theorem never_deaf_reading : ∃ c, machine.Reachable (fun c a => a.AllOk ∧ c.Uncancelled a) c ∧
    c.watchId = 1 ∧ 1 ≤ c.listeners := by
  rcases reachable_of_execIf machine (fun c a => decide (a.AllOk ∧ c.Uncancelled a)) (init [])
    (watchTrace ++ [.complete (.watchRead true { watchId := 1, created := true })])
    (fun c => decide (c.watchId = 1) && c.watcherStream && !c.destroyed)
    (fun _ _ => of_decide_eq_true) ⟨_, rfl⟩ (by decide) with ⟨c, hreach, hcheck⟩
  simp only [Bool.and_eq_true, decide_eq_true_eq, Bool.not_eq_true'] at hcheck
  rcases hcheck with ⟨⟨hid, hstream⟩, hd⟩
  exact ⟨c, hreach, hid, (never_deaf c hreach).1 hstream hd⟩

/-- etcd has compacted its history up to revision 5, and cancels the watch from revision 2: the
observer has a leader and no way to learn of another. -/
theorem compaction_deafens : ∃ c, machine.Reachable (fun _ a => a.AllOk) c ∧
    c.watcherStream = true ∧ c.destroyed = false ∧ c.hasLeader = true ∧ c.pending = 0 := by
  rcases reachable_of_execIf machine (fun _ a => decide a.AllOk) (init [])
    (watchTrace ++ [.complete (.watchRead true { canceled := true, compactRevision := 5 })])
    (fun c => c.watcherStream && !c.destroyed && c.hasLeader && decide (c.pending = 0))
    (fun _ _ => of_decide_eq_true) ⟨_, rfl⟩ (by decide) with ⟨c, hreach, hcheck⟩
  simp only [Bool.and_eq_true, decide_eq_true_eq, Bool.not_eq_true'] at hcheck
  rcases hcheck with ⟨⟨⟨hstream, hd⟩, hleader⟩, hpend⟩
  exact ⟨c, hreach, hstream, hd, hleader, hpend⟩

end GeeH.Observer
