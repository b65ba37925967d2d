import GeeH.AsyncOps
import GeeH.CompletionQueue

/-!
# GeeH.Futures — `gh/completion_queue.hpp` with `gh::use_future`

Some calls return a future and leave its promise to the callback of their
operation: the overloads with `gh::use_future`, and `etcd_client::grant_lease()`
through `client_async_op`. The promise goes with the last `shared_ptr` to the
operation. If nothing was stored in it until then, its future is broken.

What an operation is for, and what gRPC puts into it before it reports its tag,
are functions of the number of the operation here.
-/

namespace GeeH

open Machine CompletionQueue

namespace Futures

/-- A call that returns a future. -/
inductive Call where
  | asyncRpc (name : String)
  | asyncCreateRdwrStream (name : String)
  | asyncWritesDone
  | asyncFinish
  /-- `client_async_op::start()`. -/
  | clientAsyncOp
deriving DecidableEq

/-- What gRPC puts into an operation. -/
structure Reply (ρ : Type) where
  status : Status := {}
  response : ρ

/-- What a future delivers. -/
inductive Value (ρ : Type) where
  | response (r : ρ)
  | stream
  | done
  | status (s : Status)
  | exception (e : Exn)
deriving DecidableEq

variable {ρ : Type}

/-- What the callback of the operation stores in the promise. -/
def Call.callback (c : Call) (ok : Bool) (reply : Reply ρ) : Option (Value ρ) :=
  match c with
  | .asyncRpc name =>
    if ¬ ok then some (.exception (.runtimeError "async rpc cancelled"))
    else if ¬ reply.status.ok then some (.exception (.grpcError name reply.status))
    else some (.response reply.response)
  | .asyncCreateRdwrStream name =>
    if ¬ ok then
      some (.exception (.runtimeError ("async create_rdwr_stream cancelled for " ++ name)))
    else some .stream
  | .asyncWritesDone =>
    if ¬ ok then some (.exception (.runtimeError "async writes done cancelled")) else some .done
  | .asyncFinish =>
    if ¬ ok then some (.exception (.runtimeError "async finished cancelled"))
    else some (.status reply.status)
  | .clientAsyncOp =>
    if ¬ ok then some (.exception (.runtimeError "aborted rpc"))
    else if reply.status.ok then some (.response reply.response)
    -- the other statuses are forgotten
    else none

/-- Only `client_async_op` forgets its promise. -/
theorem Call.callback_eq_none {c : Call} {ok : Bool} {reply : Reply ρ} :
    c.callback ok reply = none ↔
      c = .clientAsyncOp ∧ ok = true ∧ reply.status.ok = false := by
  cases c <;> cases ok <;> cases h : reply.status.ok <;> simp [callback, h]

/-- A future, as its holder sees it. -/
inductive Future (ρ : Type) where
  | pending
  | ready (v : Value ρ)
  /-- `broken_promise`. -/
  | broken
deriving DecidableEq

end Futures

/-- A queue with the futures of its operations. -/
structure Futures (ι ρ : Type) where
  queue : CompletionQueue ι := {}
  /-- What was stored in the promise of an operation. -/
  stored : Nat → Option (Futures.Value ρ) := fun _ => none
  /-- A callback found its promise satisfied. -/
  satisfiedTwice : Bool := false
  /-- `~base_completion_queue()` is done. -/
  destroyed : Bool := false

namespace Futures

variable {ι ρ : Type}

/-- A step of the queue, or its destruction. -/
inductive Act (ι : Type) where
  | queue (a : CompletionQueue.Act ι)
  | destroy
deriving DecidableEq

section Steps

variable [DecidableEq ι] [Fintype ι] (calls : Nat → Option Call) (replies : Nat → Reply ρ)
  (s : Futures ι ρ)

/-- The callback of an operation: that of the application has no promise. -/
def invoke (i : Nat) (ok : Bool) : Futures ι ρ :=
  match (calls i).bind (·.callback ok (replies i)), s.stored i with
  | none, _ => s
  | some v, none => { s with stored := Function.update s.stored i (some v) }
  | some _, some _ => { s with satisfiedTwice := true }

/-- What a step of the queue does to the futures. -/
def callback : CompletionQueue.Act ι → Futures ι ρ
  | .call w =>
    match s.queue.threads w with
    | .found i ok => s.invoke calls replies i ok
    | .outside | .looping | .waiting | .fetched _ _ _ | .calling _ => s
  | .createOp _ | .registerOp _ | .post _ | .release _ | .shutdown | .run _ | .loop _
  | .nextShutdown _ | .nextTimeout _ | .nextEvent _ _ _ | .nextSpurious _ _ _ | .lookup _
  | .returned _ | .threw _ => s

/-- When the queue is gone, operations can only be let go. -/
def possible : CompletionQueue.Act ι → Bool
  | .release _ => true
  | _ => !s.destroyed

/-- One step. A thread in `run()` has a `shared_ptr` to the queue. -/
def step : Act ι → Option (Futures ι ρ)
  | .queue a =>
    if s.possible a then
      (s.queue.step a).map fun q => { s.callback calls replies a with queue := q }
    else none
  | .destroy =>
    if s.destroyed = false ∧ ∀ w, s.queue.threads w = .outside then
      some { s with
        queue := { s.queue with pendingOps := fun _ => none }
        destroyed := true }
    else none

/-- Any calls, any replies. -/
def machine (ι : Type) [DecidableEq ι] [Fintype ι] (calls : Nat → Option Call)
    (replies : Nat → Reply ρ) : Machine (Futures ι ρ) (Act ι) where
  Init s := s = {}
  step := step calls replies

/-- What is assumed of the steps of the queue. -/
def Assumed : Act ι → Prop
  | .queue a => s.queue.Assumed a
  | .destroy => True

instance (s : Futures ι ρ) : DecidablePred s.Assumed
  | .queue a => inferInstanceAs (Decidable (s.queue.Assumed a))
  | .destroy => inferInstanceAs (Decidable True)

/-- The future of an operation: its promise lives as long as the operation. -/
def future (i : Nat) : Future ρ :=
  match s.stored i with
  | some v => .ready v
  | none => if s.queue.Live i then .pending else .broken

end Steps

/-! ## What is stored -/

section Queue

variable {q q' : CompletionQueue ι} {i : Nat}

theorem called_of_inv (h : q.Inv) (i : Nat) :
    q.calls i = [] ∨ ∃ ok, (q.ops i).reported = some ok ∧ q.calls i = [ok] := by
  rcases h.stage i with ⟨st, hst⟩
  rw [hst.calls, hst.reported]
  cases st with
  | called ok => exact .inr ⟨ok, rfl, rfl⟩
  | _ => exact .inl rfl

/-- The callback of an operation that a thread has found was not invoked yet. -/
theorem calls_found {w : ι} {ok : Bool} (h : q.Inv) (hw : q.threads w = .found i ok) :
    q.calls i = [] := by
  rcases h.stage i with ⟨st, hst⟩
  have htask := (hst.tasks w (.found ok)).mp (by rw [hw]; rfl)
  rw [hst.calls]
  cases st <;> simp_all [Stage.task, Stage.calls]

variable [DecidableEq ι] {a : CompletionQueue.Act ι}

/-- Only `call` invokes a callback. -/
theorem invoked_step (hne : ∀ w, a ≠ .call w) (hstep : q.step a = some q') :
    q'.invoked = q.invoked := by
  cases step_effect hstep with
  | register i _ _ =>
    simp only [registerOp]
    split <;> rfl
  | lookup w tag ok source _ =>
    simp only [CompletionQueue.dispatch, unregisterOp]
    split
    · rfl
    · cases q.pendingOps tag <;> rfl
  | call w i ok _ => exact absurd rfl (hne w)
  | _ => rfl

theorem call_step {w : ι} (hstep : q.step (.call w) = some q') : ∃ i ok,
    q.threads w = .found i ok ∧
      q' = { q.setThread w (.calling i) with invoked := q.invoked ++ [(i, ok)] } := by
  simp only [CompletionQueue.step] at hstep
  split at hstep
  · rename_i i ok hw
    cases hstep
    exact ⟨i, ok, hw, rfl⟩
  all_goals cases hstep

/-- No step makes an operation live again, and none is forgotten. -/
theorem live_step (h : q.Inv) (hok : q.Assumed a) (hstep : q.step a = some q')
    (hi : i < q.made) : i < q'.made ∧ (q'.Live i → q.Live i) := by
  rcases h.live_step hok (step_effect hstep) with ⟨address, _, _, rfl⟩ | ⟨hk, hkept⟩
  · have hold : (q.createOp address).ops i = q.ops i :=
      Function.update_of_ne (Nat.ne_of_lt hi) _ _
    refine ⟨Nat.lt_succ_of_lt hi, ?_⟩
    rintro ⟨_, hlive⟩
    rw [hold] at hlive
    exact ⟨hi, hlive⟩
  · exact ⟨hk.1.symm ▸ hi, hkept i⟩

/-- A callback that a step invokes was not invoked before, and its operation is live. -/
theorem calls_step (h : q.Inv) (hstep : q.step a = some q') (i : Nat) :
    q'.calls i = q.calls i ∨ q.calls i = [] ∧ q.Live i := by
  by_cases hcall : ∃ w, a = .call w
  · rcases hcall with ⟨w, rfl⟩
    rcases call_step hstep with ⟨j, ok, hw, rfl⟩
    by_cases hj : j = i
    · subst hj
      exact .inr ⟨calls_found h hw, h.live_found hw⟩
    · left
      rw [calls_append rfl, if_neg hj, List.append_nil]
  · left
    rw [CompletionQueue.calls, invoked_step (fun w heq => hcall ⟨w, heq⟩) hstep]
    rfl

end Queue

section Invariant

variable [DecidableEq ι] [Fintype ι] {calls : Nat → Option Call} {replies : Nat → Reply ρ}
  {s s' t : Futures ι ρ} {i : Nat}

/-- A promise has what its callback stores in it, once. -/
structure Inv (calls : Nat → Option Call) (replies : Nat → Reply ρ) (s : Futures ι ρ) : Prop where
  queue : s.destroyed = false → s.queue.Inv
  called : ∀ i, s.queue.calls i = [] ∨
    ∃ ok, (s.queue.ops i).reported = some ok ∧ s.queue.calls i = [ok]
  made : ∀ i, (s.queue.ops i).registered = true → i < s.queue.made
  stored : ∀ i, s.stored i =
    (s.queue.calls i).head?.bind fun ok => (calls i).bind (·.callback ok (replies i))
  once : s.satisfiedTwice = false

omit [DecidableEq ι] [Fintype ι] in
theorem inv_init : Inv calls replies ({} : Futures ι ρ) where
  queue _ := CompletionQueue.inv_init
  called i := .inl rfl
  made i hreg := by cases hreg
  stored i := rfl
  once := rfl

omit [DecidableEq ι] [Fintype ι] in
theorem callback_of_ne {a : CompletionQueue.Act ι} (hne : ∀ w, a ≠ .call w) :
    s.callback calls replies a = s := by
  cases a with
  | call w => exact absurd rfl (hne w)
  | _ => rfl

omit [DecidableEq ι] [Fintype ι] in
/-- The first callback of an operation finds its promise empty. -/
theorem invoke_first {ok : Bool} (hstored : s.stored i = none) :
    s.invoke calls replies i ok = { s with
      stored := Function.update s.stored i ((calls i).bind (·.callback ok (replies i))) } := by
  unfold invoke
  cases h : (calls i).bind (·.callback ok (replies i)) with
  | none =>
    have hsame : Function.update s.stored i none = s.stored := by
      rw [← hstored, Function.update_eq_self]
    rw [hsame]
  | some v => rw [hstored]

/-- While the queue is there, every step is one of the queue. -/
theorem Inv.queue_step {a : CompletionQueue.Act ι} {q : CompletionQueue ι}
    (h : Inv calls replies s) (hthere : s.destroyed = false) (hok : s.queue.Assumed a)
    (hstep : s.queue.step a = some q) :
    Inv calls replies { s.callback calls replies a with queue := q } := by
  have hinv := h.queue hthere
  have hinv' := hinv.step hok hstep
  by_cases hcall : ∃ w, a = .call w
  · rcases hcall with ⟨w, rfl⟩
    rcases call_step hstep with ⟨i, ok, hw, rfl⟩
    have hfirst := calls_found hinv hw
    have hstored : s.stored i = none := by rw [h.stored, hfirst]; rfl
    have heq : s.callback calls replies (.call w) = { s with
        stored := Function.update s.stored i ((calls i).bind (·.callback ok (replies i))) } := by
      rw [← invoke_first hstored, callback, hw]
    rw [heq]
    refine ⟨fun _ => hinv', called_of_inv hinv', fun _ => hinv'.lt_of_registered, ?_, h.once⟩
    intro j
    rw [calls_append rfl]
    by_cases hj : j = i
    · subst hj
      simp [hfirst]
    · simp [Function.update_of_ne hj, Ne.symm hj, h.stored j]
  · have hne : ∀ w, a ≠ .call w := fun w heq => hcall ⟨w, heq⟩
    have hcalls : q.calls = s.queue.calls := by
      funext j
      rw [CompletionQueue.calls, invoked_step hne hstep, CompletionQueue.calls]
    rw [callback_of_ne hne]
    refine ⟨fun _ => hinv', called_of_inv hinv', fun _ => hinv'.lt_of_registered, ?_, h.once⟩
    intro j
    rw [hcalls]
    exact h.stored j

omit [Fintype ι] in
/-- Letting go of an operation changes nothing else. -/
theorem Inv.release {q : CompletionQueue ι} (h : Inv calls replies s) (hgone : s.destroyed = true)
    (hstep : s.queue.step (.release i) = some q) :
    Inv calls replies { s with queue := q } := by
  rcases Option.ite_none_right_eq_some.mp hstep with ⟨_, ⟨⟩⟩
  have hops : ∀ j, (Function.update s.queue.ops i { s.queue.ops i with held := false } j).reported =
      (s.queue.ops j).reported ∧
      (Function.update s.queue.ops i { s.queue.ops i with held := false } j).registered =
        (s.queue.ops j).registered := by
    intro j
    by_cases hj : j = i
    · subst hj
      simp
    · simp [Function.update_of_ne hj]
  refine ⟨fun hthere => ?_, fun j => ?_, fun j hreg => ?_, h.stored, h.once⟩
  · rw [hgone] at hthere
    cases hthere
  · rcases h.called j with hnone | ⟨ok, hreported, hcalls⟩
    · exact .inl hnone
    · exact .inr ⟨ok, (hops j).1.trans hreported, hcalls⟩
  · exact h.made j ((hops j).2.symm.trans hreg)

/-- What a step is: one of the queue while it is there, the release of an operation after that,
or the destruction of the queue. -/
theorem step_cases {a : Act ι} (hstep : step calls replies s a = some s') :
    (∃ a' q, a = .queue a' ∧ s.destroyed = false ∧ s.queue.step a' = some q ∧
      s' = { s.callback calls replies a' with queue := q }) ∨
    (∃ i q, a = .queue (.release i) ∧ s.destroyed = true ∧ s.queue.step (.release i) = some q ∧
      s' = { s with queue := q }) ∨
    a = .destroy ∧ s.destroyed = false ∧ (∀ w, s.queue.threads w = .outside) ∧
      s' = { s with
        queue := { s.queue with pendingOps := fun _ => none }
        destroyed := true } := by
  cases a with
  | destroy =>
    rcases Option.ite_none_right_eq_some.mp hstep with ⟨⟨hthere, hout⟩, ⟨⟩⟩
    exact .inr (.inr ⟨rfl, hthere, hout, rfl⟩)
  | queue a =>
    rcases Option.ite_none_right_eq_some.mp hstep with ⟨hpossible, hmap⟩
    rcases Option.map_eq_some_iff.mp hmap with ⟨q, hq, rfl⟩
    by_cases hthere : s.destroyed = false
    · exact .inl ⟨a, q, rfl, hthere, hq, rfl⟩
    · have hgone := Bool.eq_true_of_not_eq_false hthere
      cases a with
      | release i => exact .inr (.inl ⟨i, q, rfl, hgone, hq, rfl⟩)
      | _ => simp [possible, hgone] at hpossible

theorem Inv.step {a : Act ι} (h : Inv calls replies s) (hok : s.Assumed a)
    (hstep : Futures.step calls replies s a = some s') : Inv calls replies s' := by
  rcases step_cases hstep with ⟨a, q, rfl, hthere, hq, rfl⟩ | ⟨i, q, rfl, hgone, hq, rfl⟩ |
    ⟨rfl, _, _, rfl⟩
  · exact h.queue_step hthere hok hq
  · exact h.release hgone hq
  · exact ⟨nofun, h.called, h.made, h.stored, h.once⟩

theorem inv_of_reachable (hs : (machine ι calls replies).Reachable Assumed s) :
    Inv calls replies s := by
  refine hs.invariant ?_ ?_
  · rintro s rfl
    exact inv_init
  · intro s a s' h hok hstep
    exact h.step hok hstep

/-! ## What a future comes to -/

/-- `live_step`, for any step. -/
theorem live_of_step {a : Act ι} (h : Inv calls replies s) (hok : s.Assumed a)
    (hstep : Futures.step calls replies s a = some s') (hi : i < s.queue.made) :
    i < s'.queue.made ∧ (s'.queue.Live i → s.queue.Live i) := by
  rcases step_cases hstep with ⟨a, q, rfl, hthere, hq, rfl⟩ | ⟨j, q, rfl, _, hq, rfl⟩ |
    ⟨rfl, _, _, rfl⟩
  · exact live_step (h.queue hthere) hok hq hi
  · rcases Option.ite_none_right_eq_some.mp hq with ⟨hheld, ⟨⟩⟩
    refine ⟨hi, ?_⟩
    rintro ⟨_, hlive⟩
    refine ⟨hi, ?_⟩
    by_cases hij : i = j
    · subst hij
      exact .inl hheld
    · simpa [setOp, Function.update_of_ne hij] using hlive
  · refine ⟨hi, ?_⟩
    rintro ⟨_, hheld | hpend | hth⟩
    · exact ⟨hi, .inl hheld⟩
    · cases hpend
    · exact ⟨hi, .inr (.inr hth)⟩

/-- `calls_step`, for any step. -/
theorem calls_of_step {a : Act ι} (h : Inv calls replies s)
    (hstep : Futures.step calls replies s a = some s') (i : Nat) :
    s'.queue.calls i = s.queue.calls i ∨ s.queue.calls i = [] ∧ s.queue.Live i := by
  rcases step_cases hstep with ⟨a, q, rfl, hthere, hq, rfl⟩ | ⟨j, q, rfl, _, hq, rfl⟩ |
    ⟨rfl, _, _, rfl⟩
  · exact calls_step (h.queue hthere) hq i
  · rcases Option.ite_none_right_eq_some.mp hq with ⟨_, ⟨⟩⟩
    exact .inl rfl
  · exact .inl rfl

omit [DecidableEq ι] in
theorem future_eq_ready {v : Value ρ} : s.future i = .ready v ↔ s.stored i = some v := by
  unfold future
  cases s.stored i with
  | some v' => simp
  | none => by_cases hlive : s.queue.Live i <;> simp [hlive]

omit [DecidableEq ι] in
theorem future_eq_broken : s.future i = .broken ↔ s.stored i = none ∧ ¬ s.queue.Live i := by
  unfold future
  cases s.stored i with
  | some v => simp
  | none => by_cases hlive : s.queue.Live i <;> simp [hlive]

/-- A future that is decided stays so. -/
theorem future_step {a : Act ι} (h : Inv calls replies s) (hok : s.Assumed a)
    (hstep : Futures.step calls replies s a = some s') (hi : i < s.queue.made)
    (hdecided : s.future i ≠ .pending) : s'.future i = s.future i := by
  have h' := h.step hok hstep
  have hstored : s'.stored i = s.stored i := by
    rcases calls_of_step h hstep i with hsame | ⟨hnone, hlive⟩
    · rw [h'.stored, h.stored, hsame]
    -- the promise of a live operation that was not called is empty
    · refine absurd ?_ hdecided
      simp [future, h.stored, hnone, hlive]
  cases hv : s.stored i with
  | some v => simp [future, hstored, hv]
  | none =>
    have hdead : ¬ s.queue.Live i := by
      intro hlive
      simp [future, hv, hlive] at hdecided
    have hdead' : ¬ s'.queue.Live i := fun hlive => hdead ((live_of_step h hok hstep hi).2 hlive)
    simp [future, hstored, hv, hdead, hdead']

theorem future_run (hs : (machine ι calls replies).Reachable Assumed s)
    (hrun : (machine ι calls replies).Run Assumed s t) (hi : i < s.queue.made)
    (hdecided : s.future i ≠ .pending) : i < t.queue.made ∧ t.future i = s.future i := by
  induction hrun with
  | refl => exact ⟨hi, rfl⟩
  | tail a hrun' hok hstep ih =>
    have h := inv_of_reachable (hs.run hrun')
    rcases ih with ⟨hlt, heq⟩
    refine ⟨(live_of_step h hok hstep hlt).1, ?_⟩
    rw [← heq]
    exact future_step h hok hstep hlt (heq ▸ hdecided)

omit [DecidableEq ι] [Fintype ι] in
/-- A registered operation has a shared pointer somewhere until its callback was invoked, or its
queue is gone. -/
theorem Inv.live (h : Inv calls replies s) (hthere : s.destroyed = false)
    (hreg : (s.queue.ops i).registered = true) (hcalls : s.queue.calls i = []) :
    s.queue.Live i := by
  rcases (h.queue hthere).stage i with ⟨st, hst⟩
  have hlt := h.made i hreg
  rw [hst.registered] at hreg
  rw [hst.calls] at hcalls
  cases st with
  | created => cases hreg
  | pending => exact ⟨hlt, .inr (.inl ((hst.pending _).mpr ⟨rfl, rfl⟩))⟩
  | fetched w ok => exact ⟨hlt, .inr (.inl ((hst.pending _).mpr ⟨rfl, rfl⟩))⟩
  | found w ok =>
    have hw := Thread.task_eq_found.mp ((hst.tasks w (.found ok)).mpr rfl)
    exact ⟨hlt, .inr (.inr ⟨w, by rw [hw]; rfl⟩)⟩
  | called ok => cases hcalls

/-- The future of a registered operation is ready exactly when its callback was invoked and had
something to store, and with that. It is broken exactly when the operation is gone and the queue
was destroyed before it called it, or the RPC of a `client_async_op` completed with a status that
is not `OK`. No promise is set twice, and a future that is ready or broken stays as it is. -/
theorem future_decided (s : Futures ι ρ) (hs : (machine ι calls replies).Reachable Assumed s)
    (i : Nat) (c : Call) (hc : calls i = some c) (hreg : (s.queue.ops i).registered = true) :
    (∀ v, s.future i = .ready v ↔ ∃ ok, (s.queue.ops i).reported = some ok ∧
      s.queue.calls i = [ok] ∧ c.callback ok (replies i) = some v) ∧
    (s.future i = .broken ↔ ¬ s.queue.Live i ∧
      (s.destroyed = true ∧ s.queue.calls i = [] ∨
        s.queue.calls i = [true] ∧ c = .clientAsyncOp ∧ (replies i).status.ok = false)) ∧
    s.satisfiedTwice = false ∧
    (s.future i ≠ .pending → ∀ t, (machine ι calls replies).Run Assumed s t →
      t.future i = s.future i) := by
  have h := inv_of_reachable hs
  have hstored := h.stored i
  simp only [hc, Option.bind_some] at hstored
  refine ⟨?_, ?_, h.once, fun hdecided t hrun => (future_run hs hrun (h.made i hreg) hdecided).2⟩
  · intro v
    rw [future_eq_ready, hstored]
    rcases h.called i with hnone | ⟨ok, hreported, hone⟩
    · simp [hnone]
    · simp [hone, hreported]
  · rw [future_eq_broken, hstored, and_comm]
    refine and_congr_right fun hdead => ?_
    rcases h.called i with hnone | ⟨ok, _, hone⟩
    · have hgone : s.destroyed = true := by
        refine Bool.eq_true_of_not_eq_false fun hthere => ?_
        exact hdead (h.live hthere hreg hnone)
      simp [hnone, hgone]
    · simp [hone, Call.callback_eq_none, and_left_comm]

end Invariant

/-! ## Three futures -/

/-- An RPC, the grant of a lease, and the end of a stream. -/
def threeCalls : Nat → Option Call
  | 0 => some (.asyncRpc "")
  | 1 => some .clientAsyncOp
  | 2 => some .asyncFinish
  | _ => none

/-- The second of them is refused. -/
def threeReplies : Nat → Reply Nat
  | 1 => { status := { errorCode := 14 }, response := 0 }
  | _ => { response := 5 }

/-- They are started, and those who started them let go of their operations. -/
def startThree : List (Act Bool) :=
  [16, 32, 48].zipIdx.flatMap fun p => [.queue (.createOp p.1), .queue (.registerOp p.2),
    .queue (.post p.2), .queue (.release p.2)]

/-- The event loop takes an operation, and is done with it. -/
def dispatched (i : Nat) : List (Act Bool) :=
  [.loop true, .nextEvent true i true, .lookup true, .call true, .returned true].map .queue

/-- The first RPC succeeds, the second fails, and the stream is still open when the queue is
destroyed: its future and the second are broken, and stay so. -/
theorem future_decided_three : ∃ s : Futures Bool Nat,
    s.future 0 = .ready (.response 5) ∧ s.future 1 = .broken ∧ s.future 2 = .broken ∧
    ∀ t, (machine Bool threeCalls threeReplies).Run Assumed s t → t.future 1 = .broken := by
  rcases reachable_of_execIf (machine Bool threeCalls threeReplies)
    (fun s a => decide (s.Assumed a)) {}
    (startThree ++ [.queue (.run true)] ++ dispatched 0 ++ dispatched 1 ++
      [.queue .shutdown, .queue (.loop true), .destroy])
    (fun s => decide (∀ i : Nat, i < 3 → (s.queue.ops i).registered = true ∧ ¬ s.queue.Live i) &&
      decide (s.destroyed = true ∧ (s.queue.ops 0).reported = some true) &&
      decide (s.queue.calls 0 = [true] ∧ s.queue.calls 1 = [true] ∧ s.queue.calls 2 = []))
    (fun _ _ => of_decide_eq_true) rfl (by decide) with ⟨s, hs, hcheck⟩
  simp only [Bool.and_eq_true, decide_eq_true_eq] at hcheck
  rcases hcheck with ⟨⟨hops, hgone, hreported⟩, h₀, h₁, h₂⟩
  rcases future_decided s hs 0 (.asyncRpc "") rfl (hops 0 (by decide)).1 with ⟨hready, _⟩
  rcases future_decided s hs 1 .clientAsyncOp rfl (hops 1 (by decide)).1 with ⟨_, hone, _, hstay⟩
  rcases future_decided s hs 2 .asyncFinish rfl (hops 2 (by decide)).1 with ⟨_, htwo, _, _⟩
  have hbroken : s.future 1 = .broken :=
    hone.mpr ⟨(hops 1 (by decide)).2, .inr ⟨h₁, rfl, by decide⟩⟩
  refine ⟨s, (hready _).mpr ⟨true, hreported, h₀, rfl⟩, hbroken,
    htwo.mpr ⟨(hops 2 (by decide)).2, .inl ⟨hgone, h₂⟩⟩, fun t hrun => ?_⟩
  rw [hstay (by simp [hbroken]) t hrun, hbroken]

end Futures

end GeeH
