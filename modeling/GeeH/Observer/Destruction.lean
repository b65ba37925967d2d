import GeeH.Fairness
import GeeH.Observer.Accounting

/-!
# GeeH.Observer.Destruction — the destructor returns

The destructor waits for `ops_`. It returns in the end if the operations that
are pending complete, in whatever order and with whatever result: what their
handlers would start is refused.
-/

namespace GeeH.Observer

open Etcd Machine

variable {c c' : Observer} {a : Act} {o : Outcome}

/-- A completion, or the wake-up of the destructor. -/
def Resumes (_ : Observer) : Act → Prop
  | .complete _ | .opsDrained => True
  | _ => False

/-- The completion of an operation that was cancelled. -/
def Op.cancelled : Op → Completion
  | .range request response => .range request response false {}
  | .watchCreate request => .watchCreate request false
  | .watchCancel watchId => .watchCancel watchId false
  | .watchRead => .watchRead false {}

theorem Op.cancelled_op (op : Op) : op.cancelled.op = op := by
  cases op <;> rfl

theorem Op.cancelled_wellFormed (op : Op) : op.cancelled.WellFormed := by
  cases op with
  | range _ _ => exact fun h => absurd h Bool.false_ne_true
  | _ => trivial

/-- The destructor has returned. -/
def Gone (c : Observer) : Prop := c.destroyed = true ∧ c.calls = 0

theorem Accounted.gone_pending (h : Accounted c) (hgone : Gone c) : c.pending = 0 :=
  pending_of_idle (h.idle_of_gone hgone.1 hgone.2)

/-- While the destructor waits, operations only end. -/
theorem Accounted.destroyed_step (h : Accounted c) (hd : c.destroyed = true)
    (hact : c.act a = some (c', o)) :
    Gone c' ∨ c'.destroyed = true ∧ (c'.pending.card < c.pending.card ∨
      c'.pending.card = c.pending.card ∧ ¬ Resumes c a) := by
  rcases h with ⟨hs, hexact⟩
  cases hs with
  | live hd' => exact absurd (hd.symm.trans hd') (by simp)
  | gone _ hops hcalls hpend =>
    have hstuck := Accounted.stuck ⟨.gone hd hops hcalls hpend, hexact⟩ hd hcalls a
    exact absurd (hstuck.symm.trans hact) (by simp)
  | cleanup _ hops hcalls =>
    rcases pending_act hact with ⟨hended, hpend⟩
    have hcard := congrArg Multiset.card hpend
    rw [Multiset.card_add, Multiset.card_sub hended] at hcard
    cases a with
    | startup | subscribe | unsubscribe | shutdown =>
      exact absurd hd (of_guard_not hact).1
    | destroy => exact absurd (.inl hd) (of_guard_not hact).1
    | streamCreated ok =>
      have hmem := (of_guard hact).1
      rw [hcalls, Multiset.mem_singleton] at hmem
      cases hmem
    | subscriberDone key value throws =>
      have hmem := (of_guard hact).1
      rw [hcalls, Multiset.mem_singleton] at hmem
      cases hmem
    | answerRange req resp =>
      rcases of_guard hact with ⟨hmem, heq⟩
      have hpos := Multiset.card_pos_iff_exists_mem.mpr ⟨_, hmem⟩
      simp only [posted, Act.ended, Multiset.card_singleton] at hcard
      exact .inr ⟨by rw [heq]; exact hd, .inr ⟨by omega, id⟩⟩
    | complete k =>
      rcases act_complete hact with ⟨hmem, _, rfl⟩
      have hpos := Multiset.card_pos_iff_exists_mem.mpr ⟨_, hmem⟩
      -- `ops_` is shut down: the handler posts nothing
      simp only [posted, Act.ended, hops, if_true, Multiset.card_zero, Multiset.card_singleton]
        at hcard
      exact .inr ⟨(balanced_body _ k).destroyed.trans hd, .inl (by omega)⟩
    | opsDrained =>
      obtain ⟨_, rfl⟩ := of_guard hact
      exact .inl ⟨hd, by simp [hcalls]⟩

/-- Something can go on until it returns. -/
theorem Accounted.resumes_enabled (h : Accounted c) (hd : c.destroyed = true) :
    Gone c ∨ Behavior.Enabled machine Any Resumes c := by
  rcases h with ⟨hs, hexact⟩
  cases hs with
  | live hd' => exact absurd (hd.symm.trans hd') (by simp)
  | gone _ _ hcalls _ => exact .inl ⟨hd, hcalls⟩
  | cleanup _ _ hcalls =>
    right
    by_cases hpend : c.pending = 0
    · have hzero : c.ops.pending = 0 := by
        rw [hexact]
        simp [outstanding, hpend, hcalls, Call.tracers]
      exact ⟨.opsDrained, trivial, trivial, by simp [machine, act, hcalls, hzero]⟩
    · rcases Multiset.exists_mem_of_ne_zero hpend with ⟨op, hop⟩
      have hready : op.cancelled.op ∈ c.pending ∧ op.cancelled.WellFormed :=
        ⟨op.cancelled_op.symm ▸ hop, op.cancelled_wellFormed⟩
      exact ⟨.complete op.cancelled, trivial, trivial, by simp [machine, act, hready]⟩

/-- The destructor of an observer returns: if completions do not stay away for ever, and the thread
that waits is woken, then from some time on nothing runs and nothing is outstanding. -/
theorem destructor_returns (b : Behavior machine Any) (hfair : b.Fair Resumes) (n : Nat)
    (hd : (b.state n).destroyed = true) :
    ∃ m, n ≤ m ∧ ∀ k, m ≤ k → (b.state k).calls = 0 ∧ (b.state k).pending = 0 := by
  have hleads : b.LeadsTo (fun c => c.destroyed = true) Gone := by
    refine .descend (fun c => c.pending.card) hfair ?_ ?_
    · intro c a c' hc hd _ hstep
      rcases Option.map_eq_some_iff.mp hstep with ⟨⟨_, o⟩, hact, rfl⟩
      exact (reachable_accounted hc).destroyed_step hd hact
    · intro c hc hd
      exact (reachable_accounted hc).resumes_enabled hd
  rcases hleads n hd with ⟨m, hm, hgone⟩
  refine ⟨m, hm, fun k hk => ?_⟩
  have hk' : Gone (b.state k) := by
    refine b.stays ?_ hk hgone
    intro c a c' hc hgone _ hstep
    rcases Option.map_eq_some_iff.mp hstep with ⟨⟨_, o⟩, hact, rfl⟩
    have hstuck := (reachable_accounted hc).stuck hgone.1 hgone.2 a
    exact absurd (hstuck.symm.trans hact) (by simp)
  exact ⟨hk'.2, (reachable_accounted (b.reachable k)).gone_pending hk'⟩

/-- The destructor is entered while a read is pending. -/
def destroyedReading : List Act :=
  let c := Observer.init []
  [.startup, .streamCreated true, .answerRange c.discoverRequest { revision := 1 },
    .complete (.range c.discoverRequest (some { revision := 1 }) true {}),
    .complete (.watchCreate (c.watcherRequest 1) true), .destroy]

theorem destructor_returns_reading : ∃ b : Behavior machine Any,
    (b.state 0).destroyed = true ∧ (b.state 0).pending = {.watchRead} ∧
    ∃ m, ∀ k, m ≤ k → (b.state k).calls = 0 ∧ (b.state k).pending = 0 := by
  have hrun : ((machine.exec (init []) destroyedReading).any fun c =>
      decide (c.destroyed = true ∧ c.pending = {.watchRead}) &&
        (machine.exec c [.complete (.watchRead true {}), .opsDrained]).any fun d =>
          decide (d.calls = 0 ∧ d.pending = 0)) = true := by decide
  rcases (Option.any_eq_true _ _).mp hrun with ⟨c, hexec, hcheck⟩
  simp only [Bool.and_eq_true, decide_eq_true_eq] at hcheck
  rcases hcheck with ⟨⟨hd, hread⟩, hrest⟩
  rcases (Option.any_eq_true _ _).mp hrest with ⟨d, hexec', hend⟩
  rcases of_decide_eq_true hend with ⟨hcalls, hpend⟩
  have hc : machine.Reachable Any c := ⟨_, ⟨_, rfl⟩, run_of_exec hexec⟩
  rcases Behavior.exists_of_execIf (fun _ _ _ => trivial) hc hexec' with ⟨b, rfl, _, _, hfair⟩
  have hrests : ¬ Behavior.Enabled machine Any Resumes d := by
    rintro ⟨a, hresumes, _, hsome⟩
    cases a with
    | complete k => simp [machine, act, hpend] at hsome
    | opsDrained => simp [machine, act, hcalls] at hsome
    | _ => exact hresumes
  rcases destructor_returns b (hfair _ hrests) 0 hd with ⟨m, _, hall⟩
  exact ⟨b, hd, hread, m, hall⟩

end GeeH.Observer
