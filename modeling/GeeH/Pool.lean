import Mathlib.Algebra.BigOperators.Group.Multiset.Basic
import Mathlib.Data.Multiset.Filter

/-!
# GeeH.Pool — counting in pools of operations

Outstanding operations and running calls are kept in multisets: a step takes
one element out, and puts others in. The lemmas here count the elements of a
kind over such a step, and add up what each element weighs.
-/

namespace GeeH.Pool

variable {α : Type*} [DecidableEq α] (p : α → Prop) [DecidablePred p] {a b : α}
  {s : Multiset α}

/-- Taking out an element of the kind takes one off the count. -/
theorem countP_erase_of_pos (ha : a ∈ s) (hp : p a) : (s.erase a).countP p + 1 = s.countP p := by
  have h := congrArg (Multiset.countP p) (Multiset.cons_erase ha)
  rwa [Multiset.countP_cons_of_pos _ hp] at h

/-- Taking out an element of another kind does not change the count. -/
theorem countP_erase_of_neg (hp : ¬ p a) : (s.erase a).countP p = s.countP p := by
  by_cases ha : a ∈ s
  · have h := congrArg (Multiset.countP p) (Multiset.cons_erase ha)
    rwa [Multiset.countP_cons_of_neg _ hp] at h
  · rw [Multiset.erase_of_notMem ha]

theorem countP_erase_le : (s.erase a).countP p ≤ s.countP p :=
  Multiset.countP_le_of_le p (Multiset.erase_le a s)

/-! ## Weights -/

/-- What the elements of a pool weigh together. -/
def total (w : α → Nat) (s : Multiset α) : Nat := (s.map w).sum

variable (w : α → Nat)

omit [DecidableEq α] in
@[simp] theorem total_zero : total w 0 = 0 := rfl

omit [DecidableEq α] in
@[simp] theorem total_cons (a : α) (s : Multiset α) : total w (a ::ₘ s) = w a + total w s := by
  simp [total]

omit [DecidableEq α] in
@[simp] theorem total_singleton (a : α) : total w {a} = w a := by
  simp [total]

/-- What is taken out takes its weight with it. -/
theorem total_erase (ha : a ∈ s) : w a + total w (s.erase a) = total w s := by
  have h := congrArg (total w) (Multiset.cons_erase ha)
  rwa [total_cons] at h

theorem total_erase_of_zero (ha : w a = 0) : total w (s.erase a) = total w s := by
  by_cases hmem : a ∈ s
  · have h := total_erase w hmem
    omega
  · rw [Multiset.erase_of_notMem hmem]

omit [DecidableEq α] in
theorem total_eq_zero : total w s = 0 ↔ ∀ a ∈ s, w a = 0 := by
  induction s using Multiset.induction_on with
  | empty => simp
  | cons a s ih =>
    rw [total_cons, Nat.add_eq_zero_iff, ih]
    simp

end GeeH.Pool
