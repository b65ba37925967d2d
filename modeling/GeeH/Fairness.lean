import GeeH.Rules
import Mathlib.Order.Filter.AtTopBot.Basic
import Mathlib.Order.Filter.Finite

/-!
# GeeH.Fairness — endless behaviors of a machine

A behavior goes on for ever: at each moment a step is taken, or nothing
happens. `Fair` says of a kind of steps that it does not stay possible for ever
without being taken. The rules below derive what a behavior leads to: one
helpful step (`wf1`), several of them in a row (`LeadsTo.trans`), or as many as
a natural number counts down (`LeadsTo.countdown`, `LeadsTo.descend`).
-/

namespace GeeH.Machine

universe u v w x

variable {σ : Type u} {α : Type v}

/-- An endless behavior from a reachable state on. -/
structure Behavior (M : Machine σ α) (allowed : σ → α → Prop) where
  state : Nat → σ
  action : Nat → Option α
  start : M.Reachable allowed (state 0)
  next : ∀ n, match action n with
    | none => state (n + 1) = state n
    | some a => allowed (state n) a ∧ M.step (state n) a = some (state (n + 1))

namespace Behavior

variable {M : Machine σ α} {allowed : σ → α → Prop}

/-- A step of that kind is possible. -/
def Enabled (M : Machine σ α) (allowed helpful : σ → α → Prop) (s : σ) : Prop :=
  ∃ a, helpful s a ∧ allowed s a ∧ (M.step s a).isSome

/-- Steps of that kind that stay possible are taken. -/
def Fair (b : Behavior M allowed) (helpful : σ → α → Prop) : Prop :=
  ∀ n, (∀ m, n ≤ m → Enabled M allowed helpful (b.state m)) →
    ∃ m a, n ≤ m ∧ b.action m = some a ∧ helpful (b.state m) a

/-- Whenever `p` holds, `q` holds then or later. -/
def LeadsTo (b : Behavior M allowed) (p q : σ → Prop) : Prop :=
  ∀ n, p (b.state n) → ∃ m, n ≤ m ∧ q (b.state m)

variable {b : Behavior M allowed} {p q r : σ → Prop}

/-- A moment of a behavior: nothing happens, or an allowed step. -/
theorem step_cases (b : Behavior M allowed) (n : Nat) :
    (b.action n = none ∧ b.state (n + 1) = b.state n) ∨
    ∃ a, b.action n = some a ∧ allowed (b.state n) a ∧
      M.step (b.state n) a = some (b.state (n + 1)) := by
  have h := b.next n
  cases ha : b.action n with
  | none =>
    rw [ha] at h
    exact .inl ⟨rfl, h⟩
  | some a =>
    rw [ha] at h
    exact .inr ⟨a, rfl, h⟩

/-- A behavior passes through runs. -/
theorem run (b : Behavior M allowed) {n m : Nat} (h : n ≤ m) :
    M.Run allowed (b.state n) (b.state m) := by
  induction h with
  | refl => exact .refl _
  | @step m _ ih =>
    rcases b.step_cases m with ⟨_, heq⟩ | ⟨a, _, hok, hstep⟩
    · rw [Nat.succ_eq_add_one, heq]
      exact ih
    · exact ih.tail a hok hstep

theorem reachable (b : Behavior M allowed) (n : Nat) : M.Reachable allowed (b.state n) :=
  b.start.run (b.run (Nat.zero_le n))

/-! ## Rules -/

theorem LeadsTo.of_imp (h : ∀ s, M.Reachable allowed s → p s → q s) : b.LeadsTo p q :=
  fun n hp => ⟨n, Nat.le_refl n, h _ (b.reachable n) hp⟩

theorem LeadsTo.trans (h₁ : b.LeadsTo p q) (h₂ : b.LeadsTo q r) : b.LeadsTo p r := by
  intro n hp
  rcases h₁ n hp with ⟨m, hm, hq⟩
  rcases h₂ m hq with ⟨k, hk, hr⟩
  exact ⟨k, Nat.le_trans hm hk, hr⟩

theorem LeadsTo.or (h₁ : b.LeadsTo p r) (h₂ : b.LeadsTo q r) :
    b.LeadsTo (fun s => p s ∨ q s) r := by
  intro n h
  exact h.elim (h₁ n) (h₂ n)

/-- What counts down to `q` leads to `q`. -/
theorem LeadsTo.countdown {p : Nat → σ → Prop}
    (h : ∀ d, b.LeadsTo (p d) fun s => q s ∨ ∃ d' < d, p d' s) :
    b.LeadsTo (fun s => ∃ d, p d s) q := by
  rintro n ⟨d, hp⟩
  induction d using Nat.strongRecOn generalizing n with
  | ind d ih =>
    rcases h d n hp with ⟨m, hm, hq | ⟨d', hlt, hp'⟩⟩
    · exact ⟨m, hm, hq⟩
    · rcases ih d' hlt m hp' with ⟨k, hk, hq⟩
      exact ⟨k, Nat.le_trans hm hk, hq⟩

/-- One helpful step: while `p` holds it is possible, it leads to `q`, and no other step ends `p`
in another way. -/
theorem LeadsTo.wf1 {helpful : σ → α → Prop} (hfair : b.Fair helpful)
    (hkeep : ∀ s a s', M.Reachable allowed s → p s → allowed s a → M.step s a = some s' →
      p s' ∨ q s')
    (hhelp : ∀ s a s', M.Reachable allowed s → p s → helpful s a → allowed s a →
      M.step s a = some s' → q s')
    (hable : ∀ s, M.Reachable allowed s → p s → Enabled M allowed helpful s) :
    b.LeadsTo p q := by
  intro n hp
  by_contra hnever
  have hno : ∀ m, n ≤ m → ¬ q (b.state m) := fun m hm hq => hnever ⟨m, hm, hq⟩
  -- without `q`, nothing ends `p`
  have hall : ∀ m, n ≤ m → p (b.state m) := by
    intro m hm
    induction hm with
    | refl => exact hp
    | @step m hm ih =>
      rcases b.step_cases m with ⟨_, heq⟩ | ⟨a, _, hok, hstep⟩
      · rw [Nat.succ_eq_add_one, heq]
        exact ih
      · exact (hkeep _ a _ (b.reachable m) ih hok hstep).resolve_right
          (hno _ (Nat.le_succ_of_le hm))
  -- so the helpful step stays possible, and is taken
  rcases hfair n fun m hm => hable _ (b.reachable m) (hall m hm) with ⟨m, a, hm, ha, hhelpful⟩
  rcases b.step_cases m with ⟨hnone, _⟩ | ⟨a', ha', hok, hstep⟩
  · rw [hnone] at ha
    cases ha
  · obtain rfl : a' = a := Option.some.inj (ha'.symm.trans ha)
    exact hno _ (Nat.le_succ_of_le hm)
      (hhelp _ a' _ (b.reachable m) (hall m hm) hhelpful hok hstep)

/-- A rank that no step raises and every helpful step lowers: while a helpful step is possible, this
leads to `q`. -/
theorem LeadsTo.descend {helpful : σ → α → Prop} (rank : σ → Nat) (hfair : b.Fair helpful)
    (hstep : ∀ s a s', M.Reachable allowed s → p s → allowed s a → M.step s a = some s' →
      q s' ∨ p s' ∧ (rank s' < rank s ∨ rank s' = rank s ∧ ¬ helpful s a))
    (hable : ∀ s, M.Reachable allowed s → p s → q s ∨ Enabled M allowed helpful s) :
    b.LeadsTo p q := by
  have hlevel : ∀ d, b.LeadsTo (fun s => p s ∧ rank s = d)
      fun s => q s ∨ ∃ d' < d, p s ∧ rank s = d' := by
    intro d
    have hdone : b.LeadsTo (fun s => q s) fun s => q s ∨ ∃ d' < d, p s ∧ rank s = d' :=
      .of_imp fun s _ hq => .inl hq
    -- at one rank, a helpful step leads to `q` or below
    have hlower : b.LeadsTo (fun s => (p s ∧ rank s = d) ∧ ¬ q s)
        fun s => q s ∨ ∃ d' < d, p s ∧ rank s = d' := by
      refine .wf1 hfair ?_ ?_ ?_
      · rintro s a s' hs ⟨⟨hp, hrank⟩, _⟩ hok hst
        rcases hstep s a s' hs hp hok hst with hq | ⟨hp', hlt | ⟨heq, _⟩⟩
        · exact .inr (.inl hq)
        · exact .inr (.inr ⟨_, hrank ▸ hlt, hp', rfl⟩)
        · by_cases hq : q s'
          · exact .inr (.inl hq)
          · exact .inl ⟨⟨hp', heq.trans hrank⟩, hq⟩
      · rintro s a s' hs ⟨⟨hp, hrank⟩, _⟩ hhelp hok hst
        rcases hstep s a s' hs hp hok hst with hq | ⟨hp', hlt | ⟨_, hno⟩⟩
        · exact .inl hq
        · exact .inr ⟨_, hrank ▸ hlt, hp', rfl⟩
        · exact absurd hhelp hno
      · rintro s hs ⟨⟨hp, _⟩, hno⟩
        exact (hable s hs hp).resolve_left hno
    intro n hp
    by_cases hq : q (b.state n)
    · exact hdone n hq
    · exact hlower n ⟨hp, hq⟩
  intro n hp
  exact LeadsTo.countdown hlevel n ⟨_, hp, rfl⟩

/-! ## What stays -/

theorem stays (h : ∀ s a s', M.Reachable allowed s → p s → allowed s a → M.step s a = some s' →
    p s') {n m : Nat} (hm : n ≤ m) (hp : p (b.state n)) : p (b.state m) :=
  (b.run hm).invariant_of (fun _ hs => hs) h (b.reachable n) hp

/-- What finitely many predicates come to, and keep, they come to together. -/
theorem eventually_all {ι : Type*} [Finite ι] {p : ι → σ → Prop} {n : Nat}
    (h : ∀ i, ∃ m, n ≤ m ∧ ∀ k, m ≤ k → p i (b.state k)) :
    ∃ m, n ≤ m ∧ ∀ k, m ≤ k → ∀ i, p i (b.state k) := by
  have hall : ∀ᶠ k in Filter.atTop, ∀ i, p i (b.state k) := by
    rw [Filter.eventually_all]
    intro i
    rcases h i with ⟨m, _, hi⟩
    exact Filter.eventually_atTop.mpr ⟨m, hi⟩
  rcases Filter.eventually_atTop.mp hall with ⟨m, hm⟩
  exact ⟨max n m, Nat.le_max_left n m, fun k hk => hm k (Nat.le_trans (Nat.le_max_right n m) hk)⟩

/-- A behavior whose steps meet a stronger condition. -/
def restrict (b : Behavior M allowed) {allowed' : σ → α → Prop}
    (h₀ : M.Reachable allowed' (b.state 0))
    (h : ∀ n a, b.action n = some a → allowed' (b.state n) a) : Behavior M allowed' where
  state := b.state
  action := b.action
  start := h₀
  next n := by
    have hn := b.next n
    cases ha : b.action n with
    | none => rwa [ha] at hn
    | some a =>
      rw [ha] at hn
      exact ⟨h n a ha, hn.2⟩

theorem fair_restrict {allowed' : σ → α → Prop} {h₀ : M.Reachable allowed' (b.state 0)}
    {h : ∀ n a, b.action n = some a → allowed' (b.state n) a}
    (hmono : ∀ s a, allowed' s a → allowed s a) {helpful : σ → α → Prop} (hfair : b.Fair helpful) :
    (b.restrict h₀ h).Fair helpful := by
  intro n hall
  refine hfair n fun m hm => ?_
  rcases hall m hm with ⟨a, hhelp, hok, hsome⟩
  exact ⟨a, hhelp, hmono _ a hok, hsome⟩

theorem fair_of_disabled {helpful : σ → α → Prop}
    (h : ∀ n, ∃ m, n ≤ m ∧ ¬ Enabled M allowed helpful (b.state m)) : b.Fair helpful := by
  intro n hall
  rcases h n with ⟨m, hm, hno⟩
  exact absurd (hall m hm) hno

/-- A number that every moment raises, or keeps while a rank falls, has no bound. -/
theorem unbounded (value : σ → Int) (rank : σ → Nat)
    (h : ∀ n, value (b.state n) < value (b.state (n + 1)) ∨
      value (b.state n) = value (b.state (n + 1)) ∧ rank (b.state (n + 1)) < rank (b.state n))
    (t : Int) : ∃ n, t ≤ value (b.state n) := by
  have hraised : ∀ d n, rank (b.state n) = d → ∃ m, value (b.state n) < value (b.state m) := by
    intro d
    induction d using Nat.strongRecOn with
    | ind d ih =>
      intro n hd
      rcases h n with hlt | ⟨heq, hfall⟩
      · exact ⟨n + 1, hlt⟩
      · rcases ih _ (hd ▸ hfall) (n + 1) rfl with ⟨m, hm⟩
        exact ⟨m, heq ▸ hm⟩
  have hall : ∀ k : Nat, ∃ n, value (b.state 0) + k ≤ value (b.state n) := by
    intro k
    induction k with
    | zero => exact ⟨0, by omega⟩
    | succ k ih =>
      rcases ih with ⟨n, hn⟩
      rcases hraised _ n rfl with ⟨m, hm⟩
      exact ⟨m, by omega⟩
  rcases hall (t - value (b.state 0)).toNat with ⟨n, hn⟩
  exact ⟨n, by omega⟩

/-! ## Behaviors seen through a function -/

section Project

variable {τ : Type w} {β : Type x} {N : Machine τ β} {allowed' : τ → β → Prop}

/-- A moment at which nothing happens, or a step. -/
def Moment (N : Machine τ β) (allowed' : τ → β → Prop) (t : τ) : Option β → τ → Prop
  | none, t' => t' = t
  | some a, t' => allowed' t a ∧ N.step t a = some t'

/-- A behavior of which each step is, under `f`, one of `N` or none. -/
def project (b : Behavior M allowed) (f : σ → τ) (g : α → Option β)
    (h₀ : N.Reachable allowed' (f (b.state 0)))
    (h : ∀ s a s', allowed s a → M.step s a = some s' → Moment N allowed' (f s) (g a) (f s')) :
    Behavior N allowed' where
  state n := f (b.state n)
  action n := (b.action n).bind g
  start := h₀
  next n := by
    rcases b.step_cases n with ⟨hnone, heq⟩ | ⟨a, ha, hok, hstep⟩
    · rw [hnone, heq]
      rfl
    · have hnext := h _ a _ hok hstep
      rw [ha, Option.bind_some]
      cases hg : g a with
      | none =>
        rw [hg] at hnext
        exact hnext
      | some a' =>
        rw [hg] at hnext
        exact hnext

theorem fair_project {f : σ → τ} {g : α → Option β} {h₀ : N.Reachable allowed' (f (b.state 0))}
    {h : ∀ s a s', allowed s a → M.step s a = some s' → Moment N allowed' (f s) (g a) (f s')}
    {helpful : σ → α → Prop} {helpful' : τ → β → Prop} (hfair : b.Fair helpful)
    (hable : ∀ s, Enabled N allowed' helpful' (f s) → Enabled M allowed helpful s)
    (hhelp : ∀ s a, helpful s a → ∃ a', g a = some a' ∧ helpful' (f s) a') :
    (b.project f g h₀ h).Fair helpful' := by
  intro n hall
  rcases hfair n fun m hm => hable _ (hall m hm) with ⟨m, a, hm, ha, hdoes⟩
  rcases hhelp _ a hdoes with ⟨a', hg, hdoes'⟩
  refine ⟨m, a', hm, ?_, hdoes'⟩
  show (b.action m).bind g = some a'
  rw [ha]
  exact hg

end Project

/-! ## Behaviors that come to rest -/

/-- Nothing happens any more. -/
def rest {s : σ} (hs : M.Reachable allowed s) : Behavior M allowed where
  state _ := s
  action _ := none
  start := hs
  next _ := rfl

/-- A step first. -/
def cons {s : σ} (a : α) (b : Behavior M allowed) (hs : M.Reachable allowed s) (hok : allowed s a)
    (hstep : M.step s a = some (b.state 0)) : Behavior M allowed where
  state
    | 0 => s
    | n + 1 => b.state n
  action
    | 0 => some a
    | n + 1 => b.action n
  start := hs
  next
    | 0 => ⟨hok, hstep⟩
    | n + 1 => b.next n

theorem fair_rest {s : σ} (hs : M.Reachable allowed s) {helpful : σ → α → Prop}
    (h : ¬ Enabled M allowed helpful s) : (rest hs).Fair helpful :=
  fun n hall => absurd (hall n (Nat.le_refl n)) h

theorem fair_cons {s : σ} {a : α} {hs : M.Reachable allowed s} {hok : allowed s a}
    {hstep : M.step s a = some (b.state 0)} {helpful : σ → α → Prop} (h : b.Fair helpful) :
    (cons a b hs hok hstep).Fair helpful := by
  intro n hall
  rcases h n fun m hm => hall (m + 1) (Nat.le_succ_of_le hm) with ⟨m, a', hm, ha, hhelp⟩
  exact ⟨m + 1, a', Nat.le_succ_of_le hm, ha, hhelp⟩

/-- Some steps first. -/
theorem exists_after_execIf {ok : σ → α → Bool} (hok : ∀ s a, ok s a = true → allowed s a)
    {as : List α} {s : σ} (hs : M.Reachable allowed s) (b : Behavior M allowed)
    (h : M.execIf ok s as = some (b.state 0)) :
    ∃ b' : Behavior M allowed, b'.state 0 = s ∧
      (∃ m, ∀ n, b'.state (m + n) = b.state n ∧ b'.action (m + n) = b.action n) ∧
      ∀ helpful, b.Fair helpful → b'.Fair helpful := by
  induction as generalizing s with
  | nil =>
    obtain rfl : s = b.state 0 := by simpa [execIf] using h
    exact ⟨b, rfl, ⟨0, fun n => by rw [Nat.zero_add]; exact ⟨rfl, rfl⟩⟩, fun _ hfair => hfair⟩
  | cons a as ih =>
    unfold execIf at h
    split at h
    · rename_i ha
      split at h
      · cases h
      · rename_i s' hstep
        rcases ih (hs.run (.single a (hok s a ha) hstep)) h with ⟨b', rfl, ⟨m, hm⟩, hfair⟩
        refine ⟨cons a b' hs (hok s a ha) hstep, rfl, ⟨m + 1, fun n => ?_⟩,
          fun helpful hb => fair_cons (hfair helpful hb)⟩
        rw [Nat.succ_add]
        exact hm n
    · cases h

/-- A behavior that takes some steps and then rests. It is fair, if nothing helpful is possible
where it ends. -/
theorem exists_of_execIf {ok : σ → α → Bool} (hok : ∀ s a, ok s a = true → allowed s a)
    {as : List α} {s t : σ} (hs : M.Reachable allowed s) (h : M.execIf ok s as = some t) :
    ∃ b : Behavior M allowed, b.state 0 = s ∧ (∃ m, b.state m = t) ∧
      (∀ m, ∃ bs ∈ as.inits, M.execIf ok s bs = some (b.state m)) ∧
      ∀ helpful, ¬ Enabled M allowed helpful t → b.Fair helpful := by
  induction as generalizing s with
  | nil =>
    obtain rfl : s = t := by simpa [execIf] using h
    exact ⟨rest hs, rfl, ⟨0, rfl⟩, fun m => ⟨[], by simp, rfl⟩, fun _ hno => fair_rest hs hno⟩
  | cons a as ih =>
    unfold execIf at h
    split at h
    · rename_i ha
      split at h
      · cases h
      · rename_i s' hstep
        rcases ih (hs.run (.single a (hok s a ha) hstep)) h with ⟨b, rfl, ⟨m, hm⟩, hall, hfair⟩
        refine ⟨cons a b hs (hok s a ha) hstep, rfl, ⟨m + 1, hm⟩, fun k => ?_,
          fun helpful hno => fair_cons (hfair helpful hno)⟩
        cases k with
        | zero => exact ⟨[], by simp, rfl⟩
        | succ k =>
          rcases hall k with ⟨bs, hbs, hexec⟩
          refine ⟨a :: bs, ?_, ?_⟩
          · simp [List.mem_inits] at hbs ⊢
            exact hbs
          · simp only [execIf, ha, hstep, if_true]
            exact hexec
    · cases h

/-! ## Behaviors that never rest -/

/-- Where a step of some kind is always possible and keeps `p`, there is a behavior of such steps
alone. -/
theorem exists_of_steps {r : σ → α → Prop}
    (h : ∀ s, M.Reachable allowed s → p s →
      ∃ a s', r s a ∧ allowed s a ∧ M.step s a = some s' ∧ p s')
    {s : σ} (hs : M.Reachable allowed s) (hp : p s) :
    ∃ b : Behavior M allowed, b.state 0 = s ∧ ∀ n, ∃ a, b.action n = some a ∧ r (b.state n) a := by
  choose act nxt hact hok hstep hnext using fun x : {s // M.Reachable allowed s ∧ p s} =>
    h x.1 x.2.1 x.2.2
  let follow (x : {s // M.Reachable allowed s ∧ p s}) : {s // M.Reachable allowed s ∧ p s} :=
    ⟨nxt x, x.2.1.run (.single (act x) (hok x) (hstep x)), hnext x⟩
  let path : Nat → {s // M.Reachable allowed s ∧ p s} := fun n => follow^[n] ⟨s, hs, hp⟩
  have hpath : ∀ n, path (n + 1) = follow (path n) := fun n =>
    Function.iterate_succ_apply' follow n _
  refine ⟨⟨fun n => (path n).1, fun n => some (act (path n)), hs, fun n => ⟨hok _, ?_⟩⟩, rfl,
    fun n => ⟨_, rfl, hact _⟩⟩
  rw [hstep (path n), hpath n]

/-- A behavior in which such a step is taken every time is fair to them. -/
theorem fair_of_steps {r helpful : σ → α → Prop}
    (h : ∀ n, ∃ a, b.action n = some a ∧ r (b.state n) a) (himp : ∀ s a, r s a → helpful s a) :
    b.Fair helpful := by
  intro n _
  rcases h n with ⟨a, ha, hr⟩
  exact ⟨n, a, Nat.le_refl n, ha, himp _ a hr⟩

end Behavior

end GeeH.Machine
