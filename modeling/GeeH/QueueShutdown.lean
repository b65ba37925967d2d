import GeeH.CompletionQueue
import GeeH.Fairness
import Mathlib.Data.Finset.Card

/-!
# GeeH.QueueShutdown — what `shutdown()` leaves for the threads to do

Once `shutdown_` is set, a thread in `run()` finishes what it is at, and leaves
at the next test of the flag. It starts one more callback at most, and only if
it was in `AsyncNext()` or had a tag already. What nobody was told about stays
in `pending_ops_`: the destructor of the queue logs it, and calls nothing.
-/

namespace GeeH.CompletionQueue

open Machine

namespace Thread

/-- After `shutdown()`, it may still start a callback. -/
def due : Thread → Bool
  | .waiting | .fetched _ _ _ | .found _ _ => true
  | .outside | .looping | .calling _ => false

/-- After `shutdown()`, it leaves `run()` within that many of its steps. -/
def rank : Thread → Nat
  | .outside => 0
  | .looping => 1
  | .calling _ => 2
  | .found _ _ => 3
  | .fetched _ _ _ => 4
  | .waiting => 5

theorem rank_eq_zero {th : Thread} : th.rank = 0 ↔ th = .outside := by
  cases th <;> simp [rank]

end Thread

variable {ι : Type} {s s' t u : CompletionQueue ι} {w : ι}

/-- The thread whose execution of `run()` takes the step. -/
def Act.runner : Act ι → Option ι
  | .loop w | .nextShutdown w | .nextTimeout w | .nextEvent w _ _ | .nextSpurious w _ _
  | .lookup w | .call w | .returned w | .threw w => some w
  | .createOp _ | .registerOp _ | .post _ | .release _ | .shutdown | .run _ => none

variable [DecidableEq ι]

/-- What a step can do once the queue is shut down. -/
inductive Late (s : CompletionQueue ι) : Act ι → CompletionQueue ι → Prop where
  /-- No thread moves. -/
  | others (a : Act ι) (s' : CompletionQueue ι) (hrunner : a.runner = none)
      (hthreads : s'.threads = s.threads) (hinvoked : s'.invoked = s.invoked)
      (hdown : s.shutdown = true → s'.shutdown = true) : Late s a s'
  | enters (w : ι) (s' : CompletionQueue ι) (hw : s.threads w = .outside)
      (hthreads : s'.threads = Function.update s.threads w .looping)
      (hinvoked : s'.invoked = s.invoked) (hdown : s'.shutdown = s.shutdown) : Late s (.run w) s'
  /-- A thread comes closer to its end. -/
  | closer (a : Act ι) (w : ι) (th : Thread) (s' : CompletionQueue ι) (hrunner : a.runner = some w)
      (hthreads : s'.threads = Function.update s.threads w th)
      (hrank : th.rank < (s.threads w).rank) (hdue : th.due = true → (s.threads w).due = true)
      (hinvoked : s'.invoked = s.invoked) (hdown : s'.shutdown = s.shutdown) : Late s a s'
  | calls (w : ι) (i : Nat) (ok : Bool) (s' : CompletionQueue ι) (hw : s.threads w = .found i ok)
      (hthreads : s'.threads = Function.update s.threads w (.calling i))
      (hinvoked : s'.invoked = s.invoked ++ [(i, ok)]) (hdown : s'.shutdown = s.shutdown) :
      Late s (.call w) s'

theorem late_dispatch {tag : Tag} {ok : Bool} {source : Option Nat}
    (hw : s.threads w = .fetched tag ok source) : s.Late (.lookup w) (s.dispatch w tag ok) := by
  unfold CompletionQueue.dispatch unregisterOp
  split
  · exact .closer _ w .looping _ rfl rfl (by simp [hw, Thread.rank]) (by simp [Thread.due]) rfl rfl
  · cases s.pendingOps tag with
    | none =>
      exact .closer _ w .looping _ rfl rfl (by simp [hw, Thread.rank]) (by simp [Thread.due]) rfl
        rfl
    | some i =>
      exact .closer _ w (.found i ok) _ rfl rfl (by simp [hw, Thread.rank])
        (by simp [hw, Thread.due]) rfl rfl

theorem step_late {a : Act ι} (hdown : s.shutdown = true) (hstep : s.step a = some s') :
    s.Late a s' := by
  cases a with
  | createOp address =>
    rcases Option.ite_none_left_eq_some.mp hstep with ⟨_, ⟨⟩⟩
    exact .others _ _ rfl rfl rfl id
  | registerOp i =>
    rcases Option.ite_none_right_eq_some.mp hstep with ⟨_, ⟨⟩⟩
    simp only [CompletionQueue.registerOp]
    split
    · exact .others _ _ rfl rfl rfl id
    · exact .others _ _ rfl rfl rfl id
  | post i =>
    rcases Option.ite_none_right_eq_some.mp hstep with ⟨_, ⟨⟩⟩
    exact .others _ _ rfl rfl rfl id
  | release i =>
    rcases Option.ite_none_right_eq_some.mp hstep with ⟨_, ⟨⟩⟩
    exact .others _ _ rfl rfl rfl id
  | shutdown =>
    cases hstep
    exact .others _ _ rfl rfl rfl (fun _ => rfl)
  | run w =>
    rcases Option.ite_none_right_eq_some.mp hstep with ⟨hw, ⟨⟩⟩
    exact .enters w _ hw rfl rfl rfl
  | loop w =>
    rcases Option.ite_none_right_eq_some.mp hstep with ⟨hw, ⟨⟩⟩
    -- the flag is set: it does not wait again
    rw [if_pos hdown]
    exact .closer _ w .outside _ rfl rfl (by simp [hw, Thread.rank]) (by simp [Thread.due]) rfl rfl
  | nextShutdown w =>
    rcases Option.ite_none_right_eq_some.mp hstep with ⟨⟨hw, _⟩, ⟨⟩⟩
    exact .closer _ w .outside _ rfl rfl (by simp [hw, Thread.rank]) (by simp [Thread.due]) rfl rfl
  | nextTimeout w =>
    rcases Option.ite_none_right_eq_some.mp hstep with ⟨hw, ⟨⟩⟩
    exact .closer _ w .looping _ rfl rfl (by simp [hw, Thread.rank]) (by simp [Thread.due]) rfl rfl
  | nextEvent w i ok =>
    rcases Option.ite_none_right_eq_some.mp hstep with ⟨⟨hw, _⟩, ⟨⟩⟩
    exact .closer _ w _ _ rfl rfl (by simp [hw, Thread.rank]) (by simp [hw, Thread.due]) rfl rfl
  | nextSpurious w tag ok =>
    rcases Option.ite_none_right_eq_some.mp hstep with ⟨hw, ⟨⟩⟩
    exact .closer _ w _ _ rfl rfl (by simp [hw, Thread.rank]) (by simp [hw, Thread.due]) rfl rfl
  | lookup w =>
    simp only [step] at hstep
    split at hstep
    · rename_i tag ok source hw
      cases hstep
      exact late_dispatch hw
    all_goals cases hstep
  | call w =>
    simp only [step] at hstep
    split at hstep
    · rename_i i ok hw
      cases hstep
      exact .calls w i ok _ hw rfl rfl rfl
    all_goals cases hstep
  | returned w =>
    simp only [step] at hstep
    split at hstep
    · rename_i i hw
      cases hstep
      exact .closer _ w .looping _ rfl rfl (by simp [hw, Thread.rank]) (by simp [Thread.due]) rfl
        rfl
    all_goals cases hstep
  | threw w =>
    simp only [step] at hstep
    split at hstep
    · rename_i i hw
      cases hstep
      exact .closer _ w .outside _ rfl rfl (by simp [hw, Thread.rank]) (by simp [Thread.due]) rfl
        rfl
    all_goals cases hstep

theorem Late.shutdown {a : Act ι} (h : s.Late a s') (hdown : s.shutdown = true) :
    s'.shutdown = true := by
  cases h with
  | others a s' _ _ _ hkept => exact hkept hdown
  | enters _ _ _ _ _ hkept => exact hkept.trans hdown
  | closer _ _ _ _ _ _ _ _ _ hkept => exact hkept.trans hdown
  | calls _ _ _ _ _ _ _ hkept => exact hkept.trans hdown

/-! ## No more callbacks than threads -/

section Due

variable [Fintype ι]

/-- How many callbacks may still start after `shutdown()`. -/
def due (s : CompletionQueue ι) : Nat :=
  (Finset.univ.filter fun w => (s.threads w).due = true).card

theorem due_update {th : Thread} (hthreads : s'.threads = Function.update s.threads w th)
    (hdue : th.due = true → (s.threads w).due = true) : s'.due ≤ s.due := by
  apply Finset.card_le_card
  intro v hv
  simp only [Finset.mem_filter, Finset.mem_univ, true_and, hthreads] at hv ⊢
  by_cases hvw : v = w
  · subst hvw
    rw [Function.update_self] at hv
    exact hdue hv
  · rwa [Function.update_of_ne hvw] at hv

theorem due_update_lt {th : Thread} (hthreads : s'.threads = Function.update s.threads w th)
    (hw : (s.threads w).due = true) (hth : th.due = false) : s'.due < s.due := by
  apply Finset.card_lt_card
  rw [Finset.ssubset_iff_of_subset]
  · refine ⟨w, by simpa using hw, ?_⟩
    simp [hthreads, hth]
  · intro v hv
    simp only [Finset.mem_filter, Finset.mem_univ, true_and, hthreads] at hv ⊢
    by_cases hvw : v = w
    · subst hvw
      exact hw
    · rwa [Function.update_of_ne hvw] at hv

/-- A callback that starts is one of those that were due. -/
theorem Late.due {a : Act ι} (h : s.Late a s') :
    ∃ late, s'.invoked = s.invoked ++ late ∧ late.length + s'.due ≤ s.due := by
  cases h with
  | others a s' _ hthreads hinvoked _ =>
    refine ⟨[], by rw [hinvoked, List.append_nil], ?_⟩
    simp [CompletionQueue.due, hthreads]
  | enters w s' hw hthreads hinvoked _ =>
    refine ⟨[], by rw [hinvoked, List.append_nil], ?_⟩
    simpa using due_update hthreads (by simp [Thread.due])
  | closer a w th s' _ hthreads _ hdue hinvoked _ =>
    refine ⟨[], by rw [hinvoked, List.append_nil], ?_⟩
    simpa using due_update hthreads hdue
  | calls w i ok s' hw hthreads hinvoked _ =>
    refine ⟨[(i, ok)], hinvoked, ?_⟩
    have hlt := due_update_lt hthreads (by rw [hw]; rfl) rfl
    rw [List.length_singleton]
    omega

theorem run_due {allowed : CompletionQueue ι → Act ι → Prop}
    (hrun : (machine ι).Run allowed s t) (hdown : s.shutdown = true) :
    t.shutdown = true ∧
      ∃ late, t.invoked = s.invoked ++ late ∧ late.length + t.due ≤ s.due := by
  induction hrun with
  | refl => exact ⟨hdown, [], (List.append_nil _).symm, by simp⟩
  | tail a _ _ hstep ih =>
    rcases ih with ⟨hdown', late, hinvoked, hle⟩
    have hlate := step_late hdown' hstep
    rcases hlate.due with ⟨late', hinvoked', hle'⟩
    refine ⟨hlate.shutdown hdown', late ++ late', ?_, ?_⟩
    · rw [hinvoked', hinvoked, List.append_assoc]
    · rw [List.length_append]
      omega

omit [DecidableEq ι] in
theorem due_eq_zero : s.due = 0 ↔ ∀ w, (s.threads w).due = false := by
  simp [due, Finset.filter_eq_empty_iff]

omit [DecidableEq ι] [Fintype ι] in
/-- When no thread has anything for an operation, `pending_ops_` holds those that were not called. -/
theorem Inv.leftover (h : s.Inv) (hdue : ∀ w, (s.threads w).due = false) (i : Nat) :
    (∃ tag, s.pendingOps tag = some i) ↔ (s.ops i).registered = true ∧ s.calls i = [] := by
  rcases h.stage i with ⟨st, hst⟩
  -- no thread has a task: the operation is not on its way
  have htask : st.task (s.ops i).address = none := by
    rw [Option.eq_none_iff_forall_ne_some]
    rintro ⟨w, k⟩ hwk
    have hw := (hst.tasks w k).mpr hwk
    have hno := hdue w
    cases hth : s.threads w <;> simp_all [Thread.task, Thread.due]
  rw [hst.registered, hst.calls]
  simp only [hst.pending]
  cases st <;> simp_all [Stage.task, Stage.isPending, Stage.isRegistered, Stage.calls]

/-- After `shutdown()`, no more callbacks are started than there are threads that wait for a tag
or have one, each of them for an operation that was not called before, and with the flag that was
reported for it. When no such thread is left, no callback is started any more, whatever is posted,
and `pending_ops_` holds the operations that were registered and never called: the destructor's
message lists them. -/
theorem callbacks_after_shutdown (s t : CompletionQueue ι)
    (hs : (machine ι).Reachable Assumed s) (hdown : s.shutdown = true)
    (hrun : (machine ι).Run Assumed s t) :
    (∃ late, t.invoked = s.invoked ++ late ∧ late.length ≤ s.due ∧
      ∀ i ok, (i, ok) ∈ late →
        s.calls i = [] ∧ t.calls i = [ok] ∧ (t.ops i).reported = some ok) ∧
    (t.due = 0 → ∀ u, (machine ι).Run Assumed t u → u.invoked = t.invoked ∧
      ∀ i, (∃ tag, u.pendingOps tag = some i) ↔
        (u.ops i).registered = true ∧ u.calls i = []) := by
  have ht := hs.run hrun
  rcases run_due hrun hdown with ⟨hdown', late, hinvoked, hle⟩
  constructor
  · refine ⟨late, hinvoked, by omega, ?_⟩
    intro i ok hmem
    -- what was invoked later was invoked once only
    have hcalls : t.calls i = s.calls i ++ (late.filter (·.1 = i)).map (·.2) := by
      rw [calls, calls, hinvoked, List.filter_append, List.map_append]
    have hlate : ok ∈ (late.filter (·.1 = i)).map (·.2) := by simpa using hmem
    rcases (inv_of_reachable ht).stage i with ⟨st, hst⟩
    have honce := hst.calls
    rw [hcalls] at honce ⊢
    cases st with
    | called ok' =>
      simp only [Stage.calls, List.append_eq_singleton_iff] at honce
      rcases honce with ⟨hs', hone⟩ | ⟨_, hnone⟩
      · rw [hone, List.mem_singleton] at hlate
        refine ⟨hs', ?_, ?_⟩
        · rw [hs', hone, hlate, List.nil_append]
        · rw [hst.reported, hlate]
          rfl
      · simp [hnone] at hlate
    | _ =>
      simp only [Stage.calls, List.append_eq_nil_iff] at honce
      simp [honce.2] at hlate
  · intro hdue u hrun'
    rcases run_due hrun' hdown' with ⟨_, later, hinvoked', hle'⟩
    have hnil : later = [] := List.eq_nil_of_length_eq_zero (by omega)
    have hdue' : u.due = 0 := by omega
    refine ⟨by rw [hinvoked', hnil, List.append_nil], ?_⟩
    exact (inv_of_reachable (ht.run hrun')).leftover (due_eq_zero.mp hdue')

/-- The queue is shut down when a thread has the tag of the first of two operations. -/
def shutdownAmidst : List (Act Bool) :=
  [.createOp 16, .registerOp 0, .post 0, .createOp 32, .registerOp 1, .post 1, .run true,
    .run false, .loop true, .loop false, .nextEvent true 0 true, .shutdown]

/-- The first operation is called, and both threads leave. -/
def leaves : List (Act Bool) :=
  [.nextShutdown false, .lookup true, .call true, .returned true, .loop true]

/-- The one thread starts its callback, the other waited for nothing. -/
theorem callbacks_after_shutdown_one : ∃ s t : CompletionQueue Bool,
    s.due = 2 ∧ s.invoked = [] ∧ t.invoked = [(0, true)] ∧
    (t.ops 0).reported = some true ∧
    ∃ late, t.invoked = s.invoked ++ late ∧ late.length ≤ s.due ∧
      ∀ i, (∃ tag, t.pendingOps tag = some i) ↔ (t.ops i).registered = true ∧ t.calls i = [] := by
  rcases run_of_execIf_execIf (machine Bool) (fun s a => decide (s.Assumed a)) {} shutdownAmidst
    leaves (fun s t => decide (s.shutdown = true ∧ s.due = 2 ∧ s.invoked = [] ∧
      t.invoked = [(0, true)] ∧ t.due = 0)) (fun _ _ => of_decide_eq_true) rfl (by decide) with
    ⟨s, t, hs, hrun, hcheck⟩
  rcases of_decide_eq_true hcheck with ⟨hdown, hdue, hbefore, hafter, hnone⟩
  rcases callbacks_after_shutdown s t hs hdown hrun with ⟨⟨late, hlate, hle, honce⟩, hleft⟩
  have hmem : (0, true) ∈ late := by
    rw [hbefore, hafter, List.nil_append] at hlate
    simp [← hlate]
  exact ⟨s, t, hdue, hbefore, hafter, (honce 0 true hmem).2.2, late, hlate, hle,
    (hleft hnone t (.refl t)).2⟩

end Due

/-! ## Every thread leaves `run()` -/

/-- Nobody calls `run()` after `shutdown()`. -/
def Joining (s : CompletionQueue ι) (a : Act ι) : Prop :=
  s.shutdown = true → ∀ w, a ≠ .run w

/-- The thread goes on. -/
def Runs (w : ι) (_ : CompletionQueue ι) (a : Act ι) : Prop := a.runner = some w

theorem Late.rank {a : Act ι} (h : s.Late a s') (hrun : a ≠ .run w) :
    (s'.threads w).rank < (s.threads w).rank ∨
      s'.threads w = s.threads w ∧ a.runner ≠ some w := by
  cases h with
  | others a s' hrunner hthreads _ _ =>
    refine .inr ⟨congrFun hthreads w, ?_⟩
    simp [hrunner]
  | enters v s' _ hthreads _ _ =>
    have hvw : w ≠ v := fun heq => hrun (heq ▸ rfl)
    refine .inr ⟨?_, by simp [Act.runner]⟩
    rw [hthreads, Function.update_of_ne hvw]
  | closer a v th s' hrunner hthreads hrank _ _ _ =>
    by_cases hvw : w = v
    · subst hvw
      rw [hthreads, Function.update_self]
      exact .inl hrank
    · refine .inr ⟨?_, ?_⟩
      · rw [hthreads, Function.update_of_ne hvw]
      · rw [hrunner]
        exact fun heq => hvw (Option.some.inj heq).symm
  | calls v i ok s' hv hthreads _ _ =>
    by_cases hvw : w = v
    · subst hvw
      rw [hthreads, Function.update_self, hv]
      exact .inl (by simp [Thread.rank])
    · refine .inr ⟨?_, ?_⟩
      · rw [hthreads, Function.update_of_ne hvw]
      · exact fun heq => hvw (Option.some.inj heq).symm

/-- A thread in `run()` can always go on. -/
theorem runs_enabled (hw : s.threads w ≠ .outside) :
    Behavior.Enabled (machine ι) Joining (Runs w) s := by
  cases hth : s.threads w with
  | outside => exact absurd hth hw
  | looping => exact ⟨.loop w, rfl, (fun _ _ h => by cases h), by simp [machine, step, hth]⟩
  | waiting => exact ⟨.nextTimeout w, rfl, (fun _ _ h => by cases h), by simp [machine, step, hth]⟩
  | fetched tag ok source =>
    exact ⟨.lookup w, rfl, (fun _ _ h => by cases h), by simp [machine, step, hth]⟩
  | found i ok => exact ⟨.call w, rfl, (fun _ _ h => by cases h), by simp [machine, step, hth]⟩
  | calling i => exact ⟨.returned w, rfl, (fun _ _ h => by cases h), by simp [machine, step, hth]⟩

/-- A thread that has left `run()` does not go on. -/
theorem runs_disabled (hw : s.threads w = .outside) :
    ¬ Behavior.Enabled (machine ι) Joining (Runs w) s := by
  rintro ⟨a, hruns, _, hsome⟩
  cases a with
  | createOp => cases hruns
  | registerOp => cases hruns
  | post => cases hruns
  | release => cases hruns
  | shutdown => cases hruns
  | run => cases hruns
  | _ =>
    obtain rfl := Option.some.inj hruns
    simp [machine, step, hw] at hsome

instance [Fintype ι] (s : CompletionQueue ι) (a : Act ι) : Decidable (Joining s a) :=
  inferInstanceAs (Decidable (_ → _))

section Join

variable {b : Behavior (machine ι) Joining}

/-- The queue is shut down, and the thread is not in `run()`. -/
def Left (w : ι) (s : CompletionQueue ι) : Prop := s.shutdown = true ∧ s.threads w = .outside

theorem leaves_in_the_end (hfair : b.Fair (Runs w)) :
    b.LeadsTo (fun s => s.shutdown = true) (Left w) := by
  refine .descend (fun s => (s.threads w).rank) hfair ?_ ?_
  · intro s a s' _ hdown hok hstep
    have hlate := step_late hdown hstep
    refine .inr ⟨hlate.shutdown hdown, ?_⟩
    rcases hlate.rank (hok hdown w) with hlt | ⟨heq, hother⟩
    · exact .inl hlt
    · exact .inr ⟨congrArg Thread.rank heq, hother⟩
  · intro s _ hdown
    by_cases hout : s.threads w = .outside
    · exact .inl ⟨hdown, hout⟩
    · exact .inr (runs_enabled hout)

theorem Left.stays {a : Act ι} (h : Left w s) (hok : Joining s a) (hstep : s.step a = some s') :
    Left w s' := by
  rcases h with ⟨hdown, hout⟩
  have hlate := step_late hdown hstep
  have hzero : (s.threads w).rank = 0 := Thread.rank_eq_zero.mpr hout
  refine ⟨hlate.shutdown hdown, Thread.rank_eq_zero.mp ?_⟩
  rcases hlate.rank (hok hdown w) with hlt | ⟨heq, _⟩
  · omega
  · rw [heq, hzero]

/-- `shutdown()` ends every `run()`: if no thread stops for ever inside it, and nobody calls it
again, then all threads leave it for good, whatever operations are pending, posted, or reported
later. So the destructor of an active queue, which joins its thread after that, returns. -/
theorem shutdown_joins [Finite ι] (b : Behavior (machine ι) Joining)
    (hfair : ∀ w, b.Fair (Runs w)) (n : Nat) (hdown : (b.state n).shutdown = true) :
    ∃ m, n ≤ m ∧ ∀ k, m ≤ k → ∀ w, (b.state k).threads w = .outside := by
  have hall : ∃ m, n ≤ m ∧ ∀ k, m ≤ k → ∀ w, Left w (b.state k) := by
    refine Behavior.eventually_all (p := Left) ?_
    intro w
    rcases leaves_in_the_end (hfair w) n hdown with ⟨m, hm, h⟩
    refine ⟨m, hm, fun k hk => ?_⟩
    exact b.stays (fun s a s' _ h hok hstep => h.stays hok hstep) hk h
  rcases hall with ⟨m, hm, hall⟩
  exact ⟨m, hm, fun k hk w => (hall k hk w).2⟩

/-- The two threads of the run above. -/
theorem shutdown_joins_both : ∃ b : Behavior (machine Bool) Joining,
    (b.state 0).due = 2 ∧ (b.state 0).shutdown = true ∧
    ∃ m, ∀ k, m ≤ k → ∀ w, (b.state k).threads w = .outside := by
  have hok : ∀ (s : CompletionQueue Bool) a, decide (Joining s a) = true → Joining s a := by
    intro s a h
    exact of_decide_eq_true h
  have hrun : (((machine Bool).execIf (fun s a => decide (Joining s a)) {} shutdownAmidst).any fun s =>
      decide (s.shutdown = true ∧ s.due = 2) &&
        ((machine Bool).execIf (fun s a => decide (Joining s a)) s leaves).any fun t =>
          decide (∀ w, t.threads w = .outside)) = true := by decide
  rcases (Option.any_eq_true _ _).mp hrun with ⟨s, hexec, hcheck⟩
  simp only [Bool.and_eq_true, decide_eq_true_eq] at hcheck
  rcases hcheck with ⟨⟨hdown, hdue⟩, hrest⟩
  rcases (Option.any_eq_true _ _).mp hrest with ⟨t, hexec', hout⟩
  have hs : (machine Bool).Reachable Joining s := ⟨_, rfl, run_of_execIf hok hexec⟩
  rcases Behavior.exists_of_execIf hok hs hexec' with ⟨b, rfl, _, _, hfair⟩
  rcases shutdown_joins b (fun w => hfair _ (runs_disabled (of_decide_eq_true hout w))) 0 hdown with
    ⟨m, _, hall⟩
  exact ⟨b, hdue, hdown, m, hall⟩

end Join

end GeeH.CompletionQueue
