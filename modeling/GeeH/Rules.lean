import Mathlib.Logic.Basic
import Mathlib.Tactic.Common

/-!
# GeeH.Rules — machines, runs and the rules about them

A machine is a set of initial states and a partial step function labelled by
actions: `step s a = none` says that `a` is not enabled in `s`. Everything
below is stated for runs whose steps all satisfy a predicate `allowed` of the
state before the step and the action taken, so that one rule serves both the
unrestricted runs (`Any`) and the runs a result is conditioned on.
-/

namespace GeeH

universe u v w x

/-- A labelled transition system with a partial, deterministic step. -/
structure Machine (σ : Type u) (α : Type v) where
  Init : σ → Prop
  step : σ → α → Option σ

namespace Machine

variable {σ : Type u} {α : Type v} {τ : Type w} {β : Type x}

/-- The predicate that allows every step. -/
def Any (_ : σ) (_ : α) : Prop := True

instance (s : σ) (a : α) : Decidable (Any s a) := inferInstanceAs (Decidable True)

/-- A finite run from one state to another, every step of it allowed. -/
inductive Run (M : Machine σ α) (allowed : σ → α → Prop) : σ → σ → Prop where
  | refl (s : σ) : Run M allowed s s
  | tail {s t t' : σ} (a : α) : Run M allowed s t → allowed t a →
      M.step t a = some t' → Run M allowed s t'

/-- The states that the allowed runs reach from an initial state. -/
def Reachable (M : Machine σ α) (allowed : σ → α → Prop) (s : σ) : Prop :=
  ∃ s₀, M.Init s₀ ∧ M.Run allowed s₀ s

/-! ## Runs -/

section Runs

variable {M : Machine σ α} {allowed allowed' : σ → α → Prop}

theorem Run.trans {s t r : σ} (h₁ : M.Run allowed s t) (h₂ : M.Run allowed t r) :
    M.Run allowed s r := by
  induction h₂ with
  | refl => exact h₁
  | tail a _ hok hstep ih => exact .tail a ih hok hstep

theorem Run.single {s t : σ} (a : α) (hok : allowed s a) (hstep : M.step s a = some t) :
    M.Run allowed s t :=
  .tail a (.refl s) hok hstep

/-- A run that meets a stronger condition meets a weaker one. -/
theorem Run.mono (h : ∀ s a, allowed s a → allowed' s a) {s t : σ}
    (hrun : M.Run allowed s t) : M.Run allowed' s t := by
  induction hrun with
  | refl => exact .refl _
  | tail a _ hok hstep ih => exact .tail a ih (h _ a hok) hstep

theorem Reachable.run {s t : σ} (hs : M.Reachable allowed s) (hrun : M.Run allowed s t) :
    M.Reachable allowed t := by
  obtain ⟨s₀, hinit, h₀⟩ := hs
  exact ⟨s₀, hinit, h₀.trans hrun⟩

theorem Reachable.mono (h : ∀ s a, allowed s a → allowed' s a) {s : σ}
    (hs : M.Reachable allowed s) : M.Reachable allowed' s := by
  obtain ⟨s₀, hinit, h₀⟩ := hs
  exact ⟨s₀, hinit, h₀.mono h⟩

/-- Inductive invariance along one run. -/
@[elab_as_elim]
theorem Run.invariant {inv : σ → Prop}
    (hstep : ∀ s a s', inv s → allowed s a → M.step s a = some s' → inv s')
    {s t : σ} (hrun : M.Run allowed s t) (hs : inv s) : inv t := by
  induction hrun with
  | refl => exact hs
  | tail a _ hok hst ih => exact hstep _ a _ ih hok hst

/-- Inductive invariance: an invariant of the initial states that every allowed
step preserves holds in every reachable state. -/
@[elab_as_elim]
theorem Reachable.invariant {inv : σ → Prop} (hinit : ∀ s, M.Init s → inv s)
    (hstep : ∀ s a s', inv s → allowed s a → M.step s a = some s' → inv s')
    {s : σ} (hs : M.Reachable allowed s) : inv s := by
  obtain ⟨s₀, h₀, hrun⟩ := hs
  exact hrun.invariant hstep (hinit s₀ h₀)

/-- Inductive invariance along a run from a reachable state, relative to an invariant already
established for the same runs. -/
theorem Run.invariant_of {inv₀ inv : σ → Prop}
    (h₀ : ∀ s, M.Reachable allowed s → inv₀ s)
    (hstep : ∀ s a s', inv₀ s → inv s → allowed s a → M.step s a = some s' → inv s')
    {s t : σ} (hrun : M.Run allowed s t) (hreach : M.Reachable allowed s) (hs : inv s) : inv t := by
  induction hrun with
  | refl => exact hs
  | tail a hrun' hok hst ih => exact hstep _ a _ (h₀ _ (hreach.run hrun')) ih hok hst

/-- Inductive invariance relative to an invariant already established for the
same runs. -/
theorem Reachable.invariant_of {inv₀ inv : σ → Prop}
    (h₀ : ∀ s, M.Reachable allowed s → inv₀ s) (hinit : ∀ s, M.Init s → inv s)
    (hstep : ∀ s a s', inv₀ s → inv s → allowed s a → M.step s a = some s' → inv s')
    {s : σ} (hs : M.Reachable allowed s) : inv s := by
  obtain ⟨s₀, hi, hrun⟩ := hs
  exact hrun.invariant_of h₀ hstep ⟨s₀, hi, .refl s₀⟩ (hinit s₀ hi)

end Runs

/-! ## Executable runs -/

/-- Execute a list of actions; `none` as soon as one is not enabled or does not
pass the check `ok`. -/
def execIf (M : Machine σ α) (ok : σ → α → Bool) : σ → List α → Option σ
  | s, [] => some s
  | s, a :: as =>
    if ok s a then
      match M.step s a with
      | none => none
      | some t => M.execIf ok t as
    else none

/-- Execute a list of actions. -/
def exec (M : Machine σ α) (s : σ) (as : List α) : Option σ :=
  M.execIf (fun _ _ => true) s as

theorem exec_cons (M : Machine σ α) (s : σ) (a : α) (as : List α) :
    M.exec s (a :: as) = (M.step s a).bind fun t => M.exec t as := by
  simp only [exec, execIf, if_true]
  cases M.step s a with
  | none => rfl
  | some t => rfl

theorem exec_append (M : Machine σ α) (s : σ) (as bs : List α) :
    M.exec s (as ++ bs) = (M.exec s as).bind fun t => M.exec t bs := by
  induction as generalizing s with
  | nil => rfl
  | cons a as ih =>
    rw [List.cons_append, exec_cons, exec_cons]
    cases M.step s a with
    | none => rfl
    | some t => exact ih t

/-- What an execution computes is a run. -/
theorem run_of_execIf {M : Machine σ α} {ok : σ → α → Bool} {allowed : σ → α → Prop}
    (hok : ∀ s a, ok s a = true → allowed s a) {s t : σ} {as : List α}
    (h : M.execIf ok s as = some t) : M.Run allowed s t := by
  induction as generalizing s with
  | nil =>
    obtain rfl : s = t := by simpa [execIf] using h
    exact .refl s
  | cons a as ih =>
    unfold execIf at h
    split at h
    · rename_i hs
      split at h
      · cases h
      · rename_i t' hst
        exact (Run.single a (hok s a hs) hst).trans (ih h)
    · cases h

theorem run_of_exec {M : Machine σ α} {s t : σ} {as : List α}
    (h : M.exec s as = some t) : M.Run Any s t :=
  run_of_execIf (fun _ _ _ => trivial) h

/-- An execution of allowed steps that passes a check at its end gives a reachable
state that does. -/
theorem reachable_of_execIf (M : Machine σ α) (ok : σ → α → Bool) {allowed : σ → α → Prop}
    (s : σ) (as : List α) (check : σ → Bool) (hok : ∀ s a, ok s a = true → allowed s a)
    (hinit : M.Init s) (h : (M.execIf ok s as).any check = true) :
    ∃ t, M.Reachable allowed t ∧ check t = true := by
  rcases Option.any_eq_true_iff_get check (M.execIf ok s as) |>.mp h with ⟨hsome, hcheck⟩
  exact ⟨_, ⟨s, hinit, run_of_execIf hok (Option.some_get hsome).symm⟩, hcheck⟩

theorem reachable_of_exec (M : Machine σ α) (s : σ) (as : List α) (check : σ → Bool)
    (hinit : M.Init s) (h : (M.exec s as).any check = true) :
    ∃ t, M.Reachable Any t ∧ check t = true :=
  M.reachable_of_execIf (fun _ _ => true) s as check (fun _ _ _ => trivial) hinit h

/-- The same for a run that goes on from a state that it has reached. -/
theorem run_of_execIf_execIf (M : Machine σ α) (ok : σ → α → Bool) {allowed : σ → α → Prop}
    (s : σ) (as bs : List α) (check : σ → σ → Bool) (hok : ∀ s a, ok s a = true → allowed s a)
    (hinit : M.Init s)
    (h : (M.execIf ok s as).any (fun t => (M.execIf ok t bs).any (check t)) = true) :
    ∃ t u, M.Reachable allowed t ∧ M.Run allowed t u ∧ check t u = true := by
  rcases Option.any_eq_true_iff_get _ _ |>.mp h with ⟨hsome, hrest⟩
  rcases Option.any_eq_true_iff_get _ _ |>.mp hrest with ⟨hsome', hcheck⟩
  exact ⟨_, _, ⟨s, hinit, run_of_execIf hok (Option.some_get hsome).symm⟩,
    run_of_execIf hok (Option.some_get hsome').symm, hcheck⟩

/-! ## Simulation -/

/-- Where every step of `M` is, under `f`, a run of `N`, every run of `M` is one. -/
theorem Run.simulates {M : Machine σ α} {N : Machine τ β} {allowed : σ → α → Prop}
    {allowed' : τ → β → Prop} (f : σ → τ)
    (hstep : ∀ s a s', allowed s a → M.step s a = some s' → N.Run allowed' (f s) (f s'))
    {s t : σ} (hrun : M.Run allowed s t) : N.Run allowed' (f s) (f t) := by
  induction hrun with
  | refl => exact .refl _
  | tail a _ hok hst ih => exact ih.trans (hstep _ a _ hok hst)

/-- Where an initial state is one under `f`, and every step from a reachable state is a run, the
states that `M` reaches are reachable ones of `N`. -/
theorem Reachable.simulates {M : Machine σ α} {N : Machine τ β} {allowed : σ → α → Prop}
    {allowed' : τ → β → Prop} (f : σ → τ) (hinit : ∀ s, M.Init s → N.Init (f s))
    (hstep : ∀ s a s', M.Reachable allowed s → N.Reachable allowed' (f s) → allowed s a →
      M.step s a = some s' → N.Run allowed' (f s) (f s'))
    {s : σ} (hs : M.Reachable allowed s) : N.Reachable allowed' (f s) := by
  rcases hs with ⟨s₀, hi, hrun⟩
  induction hrun with
  | refl => exact ⟨f s₀, hinit s₀ hi, .refl _⟩
  | tail a hrun' hok hst ih => exact ih.run (hstep _ a _ ⟨s₀, hi, hrun'⟩ ih hok hst)

/-! ## Conditions on steps -/

/-- A condition that implies another one on the steps of reachable states. -/
theorem Reachable.mono_of {M : Machine σ α} {allowed allowed' : σ → α → Prop}
    (h : ∀ s a t, M.Reachable Any s → M.step s a = some t → allowed s a → allowed' s a) {s : σ}
    (hs : M.Reachable allowed s) : M.Reachable allowed' s := by
  rcases hs with ⟨s₀, hinit, hrun⟩
  refine ⟨s₀, hinit, ?_⟩
  induction hrun with
  | refl => exact .refl _
  | tail a hrun hok hst ih =>
    have hany : M.Reachable Any _ := ⟨s₀, hinit, hrun.mono fun _ _ _ => trivial⟩
    exact ih.tail a (h _ a _ hany hst hok) hst

/-- Two conditions that agree on the steps of reachable states allow the same runs. -/
theorem Reachable.congr {M : Machine σ α} {allowed allowed' : σ → α → Prop}
    (h : ∀ s a t, M.Reachable Any s → M.step s a = some t → (allowed s a ↔ allowed' s a)) {s : σ} :
    M.Reachable allowed s ↔ M.Reachable allowed' s := by
  constructor
  · exact Reachable.mono_of fun s a t hs hst => (h s a t hs hst).mp
  · exact Reachable.mono_of fun s a t hs hst => (h s a t hs hst).mpr

/-! ## Steps that lose something -/

/-- Where every step takes off a balance what it loses, a run that starts from zero is at zero
exactly if none of its steps lost anything. -/
theorem Reachable.balance {M : Machine σ α} {d : σ → Int} {lost : σ → α → Nat}
    (hinit : ∀ s, M.Init s → d s = 0)
    (hstep : ∀ s a t, M.step s a = some t → d t + lost s a = d s) {s : σ}
    (hs : M.Reachable Any s) : d s = 0 ↔ M.Reachable (fun s a => lost s a = 0) s := by
  have hle : ∀ s, M.Reachable Any s → d s ≤ 0 := by
    intro s hs
    refine hs.invariant (fun s h => Int.le_of_eq (hinit s h)) ?_
    intro s a t ih _ hst
    have hbalance := hstep s a t hst
    omega
  constructor
  · rcases hs with ⟨s₀, h₀, hrun⟩
    intro hzero
    refine ⟨s₀, h₀, ?_⟩
    induction hrun with
    | refl => exact .refl _
    | tail a hrun _ hst ih =>
      -- the balance never rises, so it was zero before the step
      have hbefore := hle _ ⟨s₀, h₀, hrun⟩
      have hbalance := hstep _ a _ hst
      refine (ih (by omega)).tail a ?_ hst
      show lost _ a = 0
      omega
  · intro hs
    refine hs.invariant hinit ?_
    intro s a t ih hlost hst
    have hbalance := hstep s a t hst
    omega

/-! ## Recorded machines -/

/-- A machine with a record of what its steps emit. -/
def recorded (M : Machine σ α) (emits : σ → α → List β) : Machine (σ × List β) α where
  Init s := M.Init s.1 ∧ s.2 = []
  step s a := (M.step s.1 a).map fun t => (t, s.2 ++ emits s.1 a)

section Recorded

variable {M : Machine σ α} {emits : σ → α → List β}

theorem recorded_step {s s' : σ × List β} {a : α} (h : (M.recorded emits).step s a = some s') :
    M.step s.1 a = some s'.1 ∧ s'.2 = s.2 ++ emits s.1 a := by
  rcases Option.map_eq_some_iff.mp h with ⟨t, ht, rfl⟩
  exact ⟨ht, rfl⟩

/-- A run stays one when its record is forgotten. -/
theorem Reachable.of_recorded {allowed : σ → α → Prop} {s : σ × List β}
    (hs : (M.recorded emits).Reachable (fun s a => allowed s.1 a) s) :
    M.Reachable allowed s.1 := by
  rcases hs with ⟨s₀, hinit, hrun⟩
  refine ⟨s₀.1, hinit.1, ?_⟩
  induction hrun with
  | refl => exact .refl _
  | tail a _ hok hst ih => exact ih.tail a hok (recorded_step hst).1

/-- All of the record has a property exactly if the run took only steps that emit such. -/
theorem Reachable.all_recorded {p : β → Prop} {s : σ × List β}
    (hs : (M.recorded emits).Reachable Any s) :
    (∀ e ∈ s.2, p e) ↔
      (M.recorded emits).Reachable (fun s a => ∀ e ∈ emits s.1 a, p e) s := by
  constructor
  · rcases hs with ⟨s₀, hinit, hrun⟩
    intro hall
    refine ⟨s₀, hinit, ?_⟩
    induction hrun with
    | refl => exact .refl _
    | tail a _ _ hst ih =>
      -- the record only grows, so what the run emitted earlier is still in it
      have happ := (recorded_step hst).2
      rw [happ] at hall
      refine (ih ?_).tail a ?_ hst
      · exact fun e he => hall e (List.mem_append_left _ he)
      · exact fun e he => hall e (List.mem_append_right _ he)
  · intro hs
    refine hs.invariant ?_ ?_
    · rintro ⟨s₀, log⟩ ⟨_, rfl⟩ e he
      cases he
    · intro s a s' ih hok hst e he
      rw [(recorded_step hst).2] at he
      rcases List.mem_append.mp he with he | he
      · exact ih e he
      · exact hok e he

end Recorded

end Machine

/-! ## Guarded steps -/

section Guards

variable {σ : Type u} {ω : Type v} {p : Prop} [Decidable p] {x : σ × ω} {s : σ} {o : ω}

theorem fst_of_some (h : some x = some (s, o)) : s = x.1 := by
  rw [Option.some.inj h]

/-- A step that is taken under a guard has its guard, and ends where the guard leads. -/
theorem of_guard (h : (if p then some x else none) = some (s, o)) : p ∧ s = x.1 := by
  split at h
  · rename_i hp
    exact ⟨hp, fst_of_some h⟩
  · cases h

/-- It ends in the outcome that the guard leads to. -/
theorem outcome_of_guard (h : (if p then some x else none) = some (s, o)) : o = x.2 := by
  split at h
  · rw [Option.some.inj h]
  · cases h

/-- The same of a step that the guard forbids. -/
theorem of_guard_not (h : (if p then none else some x) = some (s, o)) : ¬ p ∧ s = x.1 := by
  split at h
  · cases h
  · rename_i hp
    exact ⟨hp, fst_of_some h⟩

end Guards

end GeeH
