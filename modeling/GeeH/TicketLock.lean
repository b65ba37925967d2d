import GeeH.Rules
import Mathlib.Data.Set.Insert
import Mathlib.Order.Basic

/-!
# GeeH.TicketLock — a lock that is granted in the order of tickets

Whoever wants the lock draws a ticket, larger than all tickets before it, and
waits. The lock is granted to the oldest ticket that is still there, when nobody
has it. A ticket may be given up at any time, by its owner or for it, whether it
waits or holds; many may go at once.

The state is abstract: tickets are elements of a linear order with an arbitrary
mark, the waiting ones a set. The results are for every lock and every run: who
holds is the oldest, and nobody is overtaken.
-/

namespace GeeH

universe u v

/-- A ticket lock: who waits (the holder included), who holds, and the last ticket drawn. -/
@[ext]
structure TicketLock (τ : Type u) (κ : Type v) where
  waiting : Set (τ × κ)
  held : Set (τ × κ)
  drawn : τ

namespace TicketLock

open Machine

variable {τ : Type u} {κ : Type v} [LinearOrder τ] {l l' : TicketLock τ κ} {x y : τ × κ}

inductive Act (τ : Type u) (κ : Type v) where
  | draw (t : τ) (k : κ)
  /-- Tickets up to this one are drawn by nobody. -/
  | pass (t : τ)
  | leave (gone : Set (τ × κ))
  | grant (x : τ × κ)
  | release (x : τ × κ)

open Classical in
noncomputable def step (l : TicketLock τ κ) : Act τ κ → Option (TicketLock τ κ)
  | .draw t k =>
    if l.drawn < t then some { l with waiting := insert (t, k) l.waiting, drawn := t } else none
  | .pass t => if l.drawn ≤ t then some { l with drawn := t } else none
  | .leave gone => some { l with waiting := l.waiting \ gone, held := l.held \ gone }
  | .grant x =>
    if x ∈ l.waiting ∧ (∀ y ∈ l.waiting, x.1 ≤ y.1) ∧ l.held = ∅ then some { l with held := {x} }
    else none
  | .release x => some { l with held := l.held \ {x} }

noncomputable def machine (τ : Type u) (κ : Type v) [LinearOrder τ] :
    Machine (TicketLock τ κ) (Act τ κ) where
  Init l := l.waiting = ∅ ∧ l.held = ∅
  step := step

/-! ## Steps -/

theorem run_draw {t : τ} {k : κ} (h : l.drawn < t) :
    (machine τ κ).Run Any l { l with waiting := insert (t, k) l.waiting, drawn := t } :=
  .single (.draw t k) trivial (if_pos h)

theorem run_pass {t : τ} (h : l.drawn ≤ t) : (machine τ κ).Run Any l { l with drawn := t } :=
  .single (.pass t) trivial (if_pos h)

theorem run_leave (gone : Set (τ × κ)) :
    (machine τ κ).Run Any l { l with waiting := l.waiting \ gone, held := l.held \ gone } :=
  .single (.leave gone) trivial rfl

theorem run_grant (hmem : x ∈ l.waiting) (hold : ∀ y ∈ l.waiting, x.1 ≤ y.1) (hfree : l.held = ∅) :
    (machine τ κ).Run Any l { l with held := {x} } :=
  .single (.grant x) trivial (if_pos ⟨hmem, hold, hfree⟩)

theorem run_release (x : τ × κ) : (machine τ κ).Run Any l { l with held := l.held \ {x} } :=
  .single (.release x) trivial rfl

/-! ## The invariant -/

structure Inv (l : TicketLock τ κ) : Prop where
  drawn : ∀ x ∈ l.waiting, x.1 ≤ l.drawn
  distinct : ∀ x ∈ l.waiting, ∀ y ∈ l.waiting, x.1 = y.1 → x = y
  waits : ∀ x ∈ l.held, x ∈ l.waiting
  oldest : ∀ x ∈ l.held, ∀ y ∈ l.waiting, x.1 ≤ y.1

theorem Inv.step {a : Act τ κ} (h : Inv l) (hstep : (machine τ κ).step l a = some l') : Inv l' := by
  cases a with
  | draw t k =>
    rcases Option.ite_none_right_eq_some.mp hstep with ⟨hlt, ⟨⟩⟩
    -- the new ticket is younger than all that wait
    have hyounger : ∀ x ∈ l.waiting, x.1 < t := fun x hx => (h.drawn x hx).trans_lt hlt
    constructor
    · rintro x (rfl | hx)
      · exact le_rfl
      · exact (hyounger x hx).le
    · rintro x (rfl | hx) y (rfl | hy) heq
      · rfl
      · exact absurd heq (hyounger y hy).ne'
      · exact absurd heq (hyounger x hx).ne
      · exact h.distinct x hx y hy heq
    · exact fun x hx => .inr (h.waits x hx)
    · rintro x hx y (rfl | hy)
      · exact (hyounger x (h.waits x hx)).le
      · exact h.oldest x hx y hy
  | pass t =>
    rcases Option.ite_none_right_eq_some.mp hstep with ⟨hle, ⟨⟩⟩
    exact ⟨fun x hx => (h.drawn x hx).trans hle, h.distinct, h.waits, h.oldest⟩
  | leave gone =>
    cases hstep
    constructor
    · exact fun x hx => h.drawn x hx.1
    · exact fun x hx y hy => h.distinct x hx.1 y hy.1
    · exact fun x hx => ⟨h.waits x hx.1, hx.2⟩
    · exact fun x hx y hy => h.oldest x hx.1 y hy.1
  | grant x =>
    rcases Option.ite_none_right_eq_some.mp hstep with ⟨⟨hmem, hold, _⟩, ⟨⟩⟩
    refine ⟨h.drawn, h.distinct, ?_, ?_⟩
    · rintro _ rfl
      exact hmem
    · rintro _ rfl
      exact hold
  | release x =>
    cases hstep
    exact ⟨h.drawn, h.distinct, fun y hy => h.waits y hy.1, fun y hy => h.oldest y hy.1⟩

theorem reachable_inv (h : (machine τ κ).Reachable Any l) : Inv l := by
  refine h.invariant ?_ ?_
  · rintro l ⟨hw, hh⟩
    constructor <;> simp [hw, hh]
  · intro l a l' ih _ hstep
    exact ih.step hstep

/-! ## Runs -/

/-- Whoever waits later waited before, or has drawn a ticket since. -/
theorem run_waiting (hrun : (machine τ κ).Run Any l l') :
    l.drawn ≤ l'.drawn ∧ ∀ y ∈ l'.waiting, y ∈ l.waiting ∨ l.drawn < y.1 := by
  refine hrun.invariant ?_ ⟨le_rfl, fun y hy => .inl hy⟩
  rintro m a m' ⟨hle, hall⟩ _ hstep
  cases a with
  | draw t k =>
    rcases Option.ite_none_right_eq_some.mp hstep with ⟨hlt, ⟨⟩⟩
    refine ⟨hle.trans hlt.le, ?_⟩
    rintro y (rfl | hy)
    · exact .inr (hle.trans_lt hlt)
    · exact hall y hy
  | pass t =>
    rcases Option.ite_none_right_eq_some.mp hstep with ⟨hle', ⟨⟩⟩
    exact ⟨hle.trans hle', hall⟩
  | leave gone =>
    cases hstep
    exact ⟨hle, fun y hy => hall y hy.1⟩
  | grant x =>
    rcases Option.ite_none_right_eq_some.mp hstep with ⟨_, ⟨⟩⟩
    exact ⟨hle, hall⟩
  | release x =>
    cases hstep
    exact ⟨hle, hall⟩

/-- Nobody is overtaken: when a ticket is granted that was drawn later, the earlier one is gone. -/
theorem not_overtaken (hl : (machine τ κ).Reachable Any l) (hrun : (machine τ κ).Run Any l l')
    (hx : x ∈ l.waiting) (hy : y ∉ l.waiting) (hheld : y ∈ l'.held) : x ∉ l'.waiting := by
  have hinv := reachable_inv hl
  have hinv' := reachable_inv (hl.run hrun)
  intro hx'
  have hyounger : l.drawn < y.1 :=
    ((run_waiting hrun).2 y (hinv'.waits y hheld)).resolve_left hy
  have hle := hinv'.oldest y hheld x hx'
  exact absurd ((hinv.drawn x hx).trans_lt hyounger) (not_lt_of_ge hle)

end TicketLock

end GeeH
