import Mathlib.Tactic.Common
import Mathlib.Tactic.Ring

/-!
# GeeH.Policies — `gh/detail/rpc_policies.cpp`

`exponential_backoff`, with its delays as the signed 64-bit counts of
milliseconds that they are. A multiplication that overflows is undefined in
C++; here it wraps, and `Overflows` says that it happens.
-/

namespace GeeH

/-- `exponential_backoff`; the delays are in milliseconds. -/
structure ExponentialBackoff where
  minDelay : Int64
  maxDelay : Int64
  currentDelay : Int64
deriving DecidableEq

namespace ExponentialBackoff

variable (p : ExponentialBackoff)

/-- `validate_arguments()`: the text of the `std::invalid_argument`. -/
def invalidArgument : Option String :=
  if p.minDelay > p.maxDelay then
    some ("exponential_backoff() - min_delay (" ++ toString p.minDelay.toInt ++
      "ms) should be <= max_delay (" ++ toString p.maxDelay.toInt ++ "ms)")
  else none

/-- The constructor. -/
def init (minDelay maxDelay : Int64) : Except String ExponentialBackoff :=
  let p : ExponentialBackoff :=
    { minDelay := minDelay
      maxDelay := maxDelay
      currentDelay := minDelay }
  match p.invalidArgument with
  | some what => .error what
  | none => .ok p

/-- `on_failure()`: the delay that it returns, and the policy after it. -/
def onFailure : Int64 × ExponentialBackoff :=
  let doubled := 2 * p.currentDelay
  (p.currentDelay,
    { p with currentDelay := if doubled > p.maxDelay then p.maxDelay else doubled })

/-- The doubling in `on_failure()` overflows. -/
def Overflows : Prop := 2 * p.currentDelay.toInt < -2 ^ 63 ∨ 2 ^ 63 ≤ 2 * p.currentDelay.toInt

instance : Decidable p.Overflows := inferInstanceAs (Decidable (_ ∨ _))

/-- The policy after `n` calls. -/
def after : Nat → ExponentialBackoff
  | 0 => p
  | n + 1 => (after n).onFailure.2

/-- What the next call returns after `n` calls. -/
def delay (n : Nat) : Int64 := (p.after n).onFailure.1

/-- What is expected of a policy. -/
structure InBounds : Prop where
  within : ∀ n, p.minDelay ≤ p.delay n ∧ p.delay n ≤ p.maxDelay
  monotone : ∀ n, p.delay n ≤ p.delay (n + 1)
  exactly : 0 ≤ p.minDelay → ∀ n,
    (p.delay n).toInt = min (p.minDelay.toInt * 2 ^ n) p.maxDelay.toInt
  noOverflow : ∀ n, ¬ (p.after n).Overflows

/-! ## One call -/

variable {p} {minDelay maxDelay : Int64}

theorem init_ok (h : init minDelay maxDelay = .ok p) :
    p.minDelay = minDelay ∧ p.maxDelay = maxDelay ∧ p.currentDelay = p.minDelay ∧
    p.minDelay.toInt ≤ p.maxDelay.toInt := by
  unfold init invalidArgument at h
  by_cases hgt : minDelay > maxDelay
  · simp [hgt] at h
  · simp only [hgt, if_false, Except.ok.injEq] at h
    rw [gt_iff_lt, Int64.lt_iff_toInt_lt] at hgt
    rw [← h]
    exact ⟨rfl, rfl, rfl, Int.not_lt.mp hgt⟩

theorem currentDelay_after (n : Nat) : (p.after n).currentDelay = p.delay n := rfl

theorem after_bounds (n : Nat) :
    (p.after n).minDelay = p.minDelay ∧ (p.after n).maxDelay = p.maxDelay := by
  induction n with
  | zero => exact ⟨rfl, rfl⟩
  | succ n ih => exact ih

/-- Where it does not overflow, `on_failure()` doubles the delay, up to the maximum. -/
theorem onFailure_toInt (h : ¬ p.Overflows) :
    p.onFailure.2.currentDelay.toInt = min (2 * p.currentDelay.toInt) p.maxDelay.toInt := by
  have htwo : (2 : Int64).toInt = 2 := rfl
  -- where the product fits, the wrapping one is the exact one
  have hdouble : (2 * p.currentDelay).toInt = 2 * p.currentDelay.toInt := by
    unfold Overflows at h
    rw [Int64.toInt_mul, htwo]
    exact Int.bmod_eq_of_le (by omega) (by omega)
  unfold onFailure
  dsimp only
  split
  · rename_i hgt
    rw [gt_iff_lt, Int64.lt_iff_toInt_lt, hdouble] at hgt
    omega
  · rename_i hle
    rw [gt_iff_lt, Int64.lt_iff_toInt_lt, hdouble] at hle
    rw [hdouble]
    omega

theorem delay_succ (n : Nat) (h : ¬ (p.after n).Overflows) :
    (p.delay (n + 1)).toInt = min (2 * (p.delay n).toInt) p.maxDelay.toInt := by
  have hstep := onFailure_toInt h
  rw [(after_bounds n).2] at hstep
  exact hstep

/-! ## All calls -/

/-- The maximum can be doubled, or nothing ever is. -/
def Doubles (p : ExponentialBackoff) : Prop :=
  0 ≤ p.minDelay.toInt ∧ (p.minDelay.toInt = 0 ∨ p.maxDelay.toInt < 2 ^ 62)

/-- Then the delays have a closed form. -/
theorem delay_eq (hle : p.minDelay.toInt ≤ p.maxDelay.toInt)
    (hcur : p.currentDelay = p.minDelay) (hd : p.Doubles) (n : Nat) :
    (p.delay n).toInt = min (p.minDelay.toInt * 2 ^ n) p.maxDelay.toInt ∧
    p.minDelay.toInt ≤ p.minDelay.toInt * 2 ^ n ∧ ¬ (p.after n).Overflows := by
  rcases hd with ⟨hpos, hmax⟩
  -- a delay in closed form is at most the maximum, and that can be doubled
  have hcalm : ∀ n, (p.delay n).toInt = min (p.minDelay.toInt * 2 ^ n) p.maxDelay.toInt →
      p.minDelay.toInt ≤ p.minDelay.toInt * 2 ^ n → ¬ (p.after n).Overflows := by
    intro n hn hlow hover
    unfold Overflows at hover
    rw [currentDelay_after] at hover
    rcases hmax with hzero | hsmall
    · rw [hzero, Int.zero_mul] at hn
      omega
    · omega
  induction n with
  | zero =>
    have hfirst : (p.delay 0).toInt = p.minDelay.toInt := congrArg Int64.toInt hcur
    have hclosed : (p.delay 0).toInt = min (p.minDelay.toInt * 2 ^ 0) p.maxDelay.toInt := by
      omega
    have hlow : p.minDelay.toInt ≤ p.minDelay.toInt * 2 ^ 0 := by omega
    exact ⟨hclosed, hlow, hcalm 0 hclosed hlow⟩
  | succ n ih =>
    rcases ih with ⟨hn, hlow, hover⟩
    have hdouble : p.minDelay.toInt * 2 ^ (n + 1) = 2 * (p.minDelay.toInt * 2 ^ n) := by ring
    have hclosed : (p.delay (n + 1)).toInt =
        min (p.minDelay.toInt * 2 ^ (n + 1)) p.maxDelay.toInt := by
      rw [delay_succ n hover, hn, hdouble]
      omega
    have hlow' : p.minDelay.toInt ≤ p.minDelay.toInt * 2 ^ (n + 1) := by omega
    exact ⟨hclosed, hlow', hcalm (n + 1) hclosed hlow'⟩

theorem inBounds_of_doubles (hle : p.minDelay.toInt ≤ p.maxDelay.toInt)
    (hcur : p.currentDelay = p.minDelay) (hd : p.Doubles) : p.InBounds where
  within n := by
    rcases delay_eq hle hcur hd n with ⟨hn, hlow, _⟩
    rw [Int64.le_iff_toInt_le, Int64.le_iff_toInt_le]
    omega
  monotone n := by
    rcases delay_eq hle hcur hd n with ⟨hn, hlow, hover⟩
    have hpos := hd.1
    rw [Int64.le_iff_toInt_le, delay_succ n hover]
    omega
  exactly _ n := (delay_eq hle hcur hd n).1
  noOverflow n := (delay_eq hle hcur hd n).2.2

/-- A negative minimum gets smaller with the second call; a positive one gets to where
doubling overflows, if the maximum does not stop it before. -/
theorem InBounds.doubles (h : p.InBounds) (hle : p.minDelay.toInt ≤ p.maxDelay.toInt)
    (hcur : p.currentDelay = p.minDelay) : p.Doubles := by
  have hfirst : (p.delay 0).toInt = p.minDelay.toInt := congrArg Int64.toInt hcur
  have hsecond := delay_succ 0 (h.noOverflow 0)
  have hlow := (h.within 1).1
  rw [Int64.le_iff_toInt_le] at hlow
  -- the second delay of a negative minimum is below it
  have hpos : 0 ≤ p.minDelay.toInt := by
    by_contra hneg
    rw [Nat.zero_add] at hsecond
    omega
  refine ⟨hpos, ?_⟩
  by_contra hbig
  have hzero : (0 : Int64).toInt = 0 := rfl
  -- by the 62nd doubling a positive minimum is past 2^62, as the maximum is
  have hlate := h.exactly (by rw [Int64.le_iff_toInt_le, hzero]; exact hpos) 62
  refine h.noOverflow 62 (Or.inr ?_)
  rw [currentDelay_after]
  omega

/-- The backoff stays in bounds exactly with the minimum zero, or with a positive minimum and
a maximum that can be doubled. -/
theorem backoff_in_bounds_iff (minDelay maxDelay : Int64) (p : ExponentialBackoff)
    (h : init minDelay maxDelay = .ok p) :
    p.InBounds ↔ minDelay = 0 ∨ 0 < minDelay ∧ maxDelay.toInt < 2 ^ 62 := by
  obtain ⟨rfl, rfl, hcur, hle⟩ := init_ok h
  have hzero : (0 : Int64).toInt = 0 := rfl
  have hcond : (p.minDelay = 0 ∨ 0 < p.minDelay ∧ p.maxDelay.toInt < 2 ^ 62) ↔ p.Doubles := by
    unfold Doubles
    rw [Int64.lt_iff_toInt_lt, ← Int64.toInt_inj, hzero]
    omega
  rw [hcond]
  exact ⟨fun hb => hb.doubles hle hcur, inBounds_of_doubles hle hcur⟩

/-- The delays of the unit test. -/
theorem backoff_in_bounds_test : ∃ p, init 10 50 = .ok p ∧ p.InBounds ∧
    (List.range 5).map p.delay = [10, 20, 40, 50, 50] :=
  ⟨_, rfl, (backoff_in_bounds_iff 10 50 _ rfl).mpr
    (Or.inr ⟨by decide, by decide⟩), by decide⟩

/-- A negative minimum is admitted, and the second delay is below it; with the largest maximum
a doubling overflows, here the third from 2^60 ms on. -/
theorem backoff_out_of_bounds :
    (∃ p, init (-1) 1 = .ok p ∧ p.delay 1 = -2 ∧ ¬ p.InBounds) ∧
    ∃ p, init (Int64.ofNat (2 ^ 60)) Int64.maxValue = .ok p ∧ (p.after 2).Overflows ∧
      p.delay 3 < 0 ∧ ¬ p.InBounds := by
  refine ⟨⟨_, rfl, by decide, ?_⟩, ⟨_, rfl, by decide, by decide, ?_⟩⟩
  · intro hb
    exact absurd (hb.within 1).1 (by decide)
  · intro hb
    exact hb.noOverflow 2 (by decide)

end ExponentialBackoff

end GeeH
