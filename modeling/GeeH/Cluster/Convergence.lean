import GeeH.Cluster.Refresh
import GeeH.Fairness
import GeeH.Pool

/-!
# GeeH.Cluster.Convergence — a cluster membership follows its cluster

A membership that was started and is not shut down has one operation outstanding
at any time: the timer, or the question to one of its members. So one refresh
comes after the other, and once the members that answer agree, and in every
round one of them answers, the URLs are what they say.
-/

namespace GeeH

open Cluster Machine
open Session (TimerState)

namespace ClusterMembership

variable {c c' : ClusterMembership} {a : Act}

/-- `startup()` is called once, and `shutdown()` is not. -/
def Attended (c : ClusterMembership) (a : Act) : Prop := c.Single a ∧ a ≠ .shutdown

/-- A timer expires, or an operation completes. -/
def Serves (_ : ClusterMembership) : Act → Prop
  | .timerFires _ _ | .complete _ => True
  | _ => False

/-- An operation that leads to the next one. -/
def Ready : Op → Prop
  | .timer _ _ state => state ≠ .canceled
  | .memberList _ _ => True

/-- How many operations, that one included, may come before the next timer is set, if `n` members
are known. -/
def rank (n : Nat) : Op → Nat
  | .timer _ _ .armed => n + 3
  | .timer _ _ _ => n + 2
  | .memberList urls i => urls.length - i + 1

/-- Nothing is outstanding before `startup()`, and from then on one operation that goes on. -/
structure Running (c : ClusterMembership) : Prop where
  idle : c.timers = 0 → c.pending = 0
  one : 0 < c.timers → ∃ op, c.pending = {op} ∧ Ready op

/-- What a step can do after `startup()`. -/
inductive Move (c : ClusterMembership) (op : Op) (a : Act) (c' : ClusterMembership) : Prop where
  | asks (op' : Op) (hpend : c'.pending = {op'}) (hready : Ready op')
      (hrank : rank c'.currentUrls.length op' < rank c.currentUrls.length op)
      (htimers : c'.timers = c.timers) (hurls : c'.memberUrls = c.memberUrls)
      (hfail : c'.failures = c.failures)
  | fails (op' : Op) (hpend : c'.pending = {op'}) (hready : Ready op')
      (htimers : c'.timers = c.timers + 1) (hurls : c'.memberUrls = c.memberUrls)
      (hfail : c'.failures = c.failures + 1)
  | learns (op' : Op) (urls : List Bytes) (i : Nat) (r : Reply) (hpend : c'.pending = {op'})
      (hready : Ready op') (ha : a = .complete (.memberList urls i r)) (hgood : r.Good)
      (htimers : c'.timers = c.timers + 1) (hurls : c'.memberUrls = r.response.newUrls)
      (hfail : c'.failures = c.failures)

/-- The next member is asked, or none is left. -/
theorem move_tryQuery {op : Op} {d : ClusterMembership} (urls : List Bytes) (i : Nat)
    (hnone : d.pending = 0) (htimers : d.timers = c.timers) (hurls : d.memberUrls = c.memberUrls)
    (hfail : d.failures = c.failures) (hrank : urls.length - i + 1 < rank c.currentUrls.length op) :
    Move c op a (d.tryQueryClusterMembership urls i) := by
  unfold tryQueryClusterMembership
  split
  · refine .fails (.timer d.timers d.refreshInterval .armed) ?_ nofun (congrArg (· + 1) htimers)
      hurls (congrArg (· + 1) hfail)
    simp [resetRefreshTimer, hnone]
  · refine .asks (.memberList urls i) ?_ trivial hrank htimers hurls hfail
    simp [hnone]

theorem Running.move (h : Running c) (hpos : 0 < c.timers) (hok : c.Attended a)
    (hstep : machine.step c a = some c') :
    Serves c a ∧ ∃ op, c.pending = {op} ∧ Move c op a c' := by
  rcases h.one hpos with ⟨op, hpend, hready⟩
  rcases hok with ⟨hsingle, hdown⟩
  cases a with
  | startup => exact absurd (show c.timers = 0 from hsingle) (by omega)
  | shutdown => exact absurd rfl hdown
  | timerFires id delay =>
    simp only [machine, ClusterMembership.act] at hstep
    split at hstep
    · rename_i hmem
      cases hstep
      obtain rfl := Multiset.mem_singleton.mp (hpend ▸ hmem)
      refine ⟨trivial, _, hpend, ?_⟩
      refine .asks (.timer id delay .fired) ?_ (fun h => by cases h) ?_ rfl rfl rfl
      · simp [timerFires, hpend]
      · exact Nat.lt_succ_self _
    · cases hstep
  | complete k =>
    simp only [machine, ClusterMembership.act] at hstep
    split at hstep
    · rename_i hen
      cases hstep
      have hop : k.op = op := Multiset.mem_singleton.mp (hpend ▸ hen.1)
      have hnone : c.pending.erase k.op = 0 := by rw [hpend, hop, Multiset.erase_singleton]
      refine ⟨trivial, op, hpend, ?_⟩
      cases k with
      | timer id delay st ok =>
        obtain rfl : ok = true := hsingle
        refine move_tryQuery c.currentUrls 0 hnone rfl rfl rfl ?_
        rw [← hop]
        cases st <;> simp [rank, Completion.op]
      | memberList urls i r =>
        show Move c op _ (onMemberListResponse _ urls i r)
        by_cases hgood : r.Good
        · rw [onMemberListResponse_good hgood]
          refine .learns (.timer c.timers c.refreshInterval .armed) urls i r ?_
            (fun h => by cases h) rfl hgood rfl rfl rfl
          simp [resetRefreshTimer, hnone]
        · rw [onMemberListResponse_bad hgood, ← hop]
          -- the next member, or the timer: closer to the end of the round
          by_cases hi : i < urls.length
          · refine move_tryQuery urls (i + 1) hnone rfl rfl rfl ?_
            simp only [rank, Completion.op]
            omega
          · unfold tryQueryClusterMembership
            rw [List.getElem?_eq_none (by omega)]
            refine .fails (.timer c.timers c.refreshInterval .armed) ?_
              (fun h => by cases h) rfl rfl rfl
            simp [resetRefreshTimer, hnone]
    · cases hstep

theorem Move.timers {op : Op} (h : Move c op a c') : c.timers ≤ c'.timers := by
  cases h with
  | asks _ _ _ _ htimers => exact htimers.ge
  | fails _ _ _ htimers => omega
  | learns _ _ _ _ _ _ _ _ htimers => omega

theorem Running.step (h : Running c) (hok : c.Attended a) (hstep : machine.step c a = some c') :
    Running c' := by
  rcases Nat.eq_zero_or_pos c.timers with hzero | hpos
  · have hnone := h.idle hzero
    have hstarted : Running c.startup := by
      refine ⟨fun h => absurd h (Nat.succ_ne_zero _), fun _ => ?_⟩
      refine ⟨.timer c.timers c.refreshInterval .armed, ?_, nofun⟩
      simp [startup, resetRefreshTimer, hnone]
    cases a with
    | startup =>
      cases hstep
      exact hstarted
    | shutdown => exact absurd rfl hok.2
    | timerFires id delay => simp [machine, ClusterMembership.act, hnone] at hstep
    | complete k => simp [machine, ClusterMembership.act, hnone] at hstep
  · rcases h.move hpos hok hstep with ⟨_, op, hpend, hmove⟩
    have hpos' : 0 < c'.timers := Nat.lt_of_lt_of_le hpos hmove.timers
    refine ⟨fun hzero => absurd hzero (by omega), fun _ => ?_⟩
    cases hmove with
    | asks op' hpend' hready => exact ⟨op', hpend', hready⟩
    | fails op' hpend' hready => exact ⟨op', hpend', hready⟩
    | learns op' _ _ _ hpend' hready => exact ⟨op', hpend', hready⟩

theorem reachable_running (h : machine.Reachable Attended c) : Running c := by
  refine h.invariant ?_ fun _ _ _ ih hok hstep => ih.step hok hstep
  rintro c ⟨urls, interval, hinit⟩
  unfold Cluster.init at hinit
  simp only at hinit
  split at hinit
  · cases hinit
  · cases hinit
    exact ⟨fun _ => rfl, fun hpos => absurd hpos (Nat.lt_irrefl 0)⟩

/-! ## Round after round -/

/-- What is outstanding can always go on. -/
theorem Running.enabled (h : Running c) (hpos : 0 < c.timers) :
    Behavior.Enabled machine Attended Serves c := by
  rcases h.one hpos with ⟨op, hpend, hready⟩
  cases op with
  | timer id delay st =>
    refine ⟨.complete (.timer id delay st true), trivial, ⟨rfl, (fun h => by cases h)⟩, ?_⟩
    have hwf : (Completion.timer id delay st true).WellFormed := hready
    simp [machine, ClusterMembership.act, hpend, Completion.op, hwf]
  | memberList urls i =>
    refine ⟨.complete (.memberList urls i { ok := false }), trivial,
      ⟨trivial, (fun h => by cases h)⟩, ?_⟩
    have hwf : (Completion.memberList urls i { ok := false }).WellFormed := trivial
    simp [machine, ClusterMembership.act, hpend, Completion.op, hwf]

section Behaviors

variable {b : Behavior machine Attended}

/-- How far the outstanding operation is from the end of its round. -/
def left (c : ClusterMembership) : Nat := Pool.total (rank c.currentUrls.length) c.pending

/-- Every round ends, and sets the next timer. -/
theorem round_ends (hfair : b.Fair Serves) (n : Nat) :
    b.LeadsTo (fun c => 0 < c.timers ∧ n ≤ c.timers) (fun c => n < c.timers) := by
  refine .descend left hfair ?_ ?_
  · rintro c a c' hc ⟨hpos, hn⟩ hok hstep
    rcases (reachable_running hc).move hpos hok hstep with ⟨_, op, hpend, hmove⟩
    cases hmove with
    | asks op' hpend' _ hrank htimers =>
      refine .inr ⟨⟨by omega, by omega⟩, .inl ?_⟩
      simpa [left, hpend, hpend'] using hrank
    | fails _ _ _ htimers => exact .inl (by omega)
    | learns _ _ _ _ _ _ _ _ htimers => exact .inl (by omega)
  · rintro c hc ⟨hpos, _⟩
    exact .inr ((reachable_running hc).enabled hpos)

theorem timers_unbounded (hfair : b.Fair Serves) {n : Nat} (hpos : 0 < (b.state n).timers)
    (d : Nat) : ∃ m, n ≤ m ∧ d < (b.state m).timers := by
  induction d with
  | zero => exact ⟨n, Nat.le_refl n, hpos⟩
  | succ d ih =>
    rcases ih with ⟨m, hm, hd⟩
    rcases round_ends hfair (d + 1) m ⟨by omega, hd⟩ with ⟨k, hk, hd'⟩
    exact ⟨k, hm.trans hk, hd'⟩

theorem timers_mono {n m : Nat} (hm : n ≤ m) : (b.state n).timers ≤ (b.state m).timers := by
  induction hm with
  | refl => exact Nat.le_refl _
  | @step k _ ih =>
    rcases b.step_cases k with ⟨_, heq⟩ | ⟨a, _, hok, hstep⟩
    · rw [Nat.succ_eq_add_one, heq]
      exact ih
    · refine ih.trans ?_
      rcases Nat.eq_zero_or_pos (b.state k).timers with hzero | hpos
      · omega
      · rcases (reachable_running (b.reachable k)).move hpos hok hstep with ⟨_, op, _, hmove⟩
        exact hmove.timers

/-- While no round fails and the good replies agree, the first round that ends brings what they
say. -/
theorem learned {urls : UrlSet} {n m : Nat} (hm : n ≤ m) (hpos : 0 < (b.state n).timers)
    (hfail : ∀ k, n ≤ k → (b.state k).failures = (b.state n).failures)
    (hagree : ∀ k, n ≤ k → ∀ asked i r, b.action k = some (.complete (.memberList asked i r)) →
      r.Good → r.response.newUrls = urls) :
    (b.state m).timers = (b.state n).timers ∨ (b.state m).memberUrls = urls := by
  induction hm with
  | refl => exact .inl rfl
  | @step k hk ih =>
    rcases b.step_cases k with ⟨_, heq⟩ | ⟨a, ha, hok, hstep⟩
    · rw [Nat.succ_eq_add_one, heq]
      exact ih
    · have hpos' := Nat.lt_of_lt_of_le hpos (timers_mono (b := b) hk)
      rcases (reachable_running (b.reachable k)).move hpos' hok hstep with ⟨_, op, _, hmove⟩
      cases hmove with
      | asks _ _ _ _ htimers hurls => exact ih.imp htimers.trans hurls.trans
      | fails _ _ _ _ _ hfail' =>
        have hnow := hfail k hk
        have hnext := hfail (k + 1) (Nat.le_succ_of_le hk)
        omega
      | learns _ asked i r _ _ hreply hgood _ hurls =>
        exact .inr (hurls.trans (hagree k hk asked i r (hreply ▸ ha) hgood))

end Behaviors

/-- A membership that was started and is attended refreshes for ever: it sets one timer after the
other, without end, if timers expire and requests complete. And if from some time on no round fails
and all replies with URLs name the same ones, then from some time on the current URLs are these. -/
theorem membership_converges (b : Behavior machine Attended) (hfair : b.Fair Serves) (n : Nat)
    (hstarted : 0 < (b.state n).timers) :
    (∀ d, ∃ m, n ≤ m ∧ d < (b.state m).timers) ∧
    ∀ urls : UrlSet,
      (∀ k, n ≤ k → (b.state k).failures = (b.state n).failures) →
      (∀ k, n ≤ k → ∀ asked i r, b.action k = some (.complete (.memberList asked i r)) →
        r.Good → r.response.newUrls = urls) →
      ∃ m, n ≤ m ∧ ∀ k, m ≤ k → (b.state k).currentUrls = urls.keys := by
  refine ⟨timers_unbounded hfair hstarted, fun urls hfail hagree => ?_⟩
  rcases timers_unbounded hfair hstarted (b.state n).timers with ⟨m, hm, hlater⟩
  refine ⟨m, hm, fun k hk => ?_⟩
  have hmono := timers_mono (b := b) hk
  rcases learned (hm.trans hk) hstarted hfail hagree with hsame | hurls
  · omega
  · rw [currentUrls, hurls]

/-- The reply of a cluster with one member. -/
def soleReply : Reply where
  ok := true
  response := { members := [{ clientUrls := [[3]] }] }

/-- Timers expire, and whoever is asked gives that reply. -/
def Replies (c : ClusterMembership) (a : Act) : Prop :=
  ((∃ id delay st, a = .complete (.timer id delay st true)) ∨
    ∃ urls i, a = .complete (.memberList urls i soleReply)) ∧
  ∀ c', machine.step c a = some c' → c'.failures = c.failures

theorem replies_step (h : Running c) (hpos : 0 < c.timers) (hurls : c.currentUrls ≠ []) :
    ∃ a c', Replies c a ∧ c.Attended a ∧ machine.step c a = some c' ∧ 0 < c'.timers ∧
      c'.currentUrls ≠ [] := by
  rcases h.one hpos with ⟨op, hpend, hready⟩
  cases op with
  | timer id delay st =>
    have hwf : (Completion.timer id delay st true).WellFormed := hready
    have hstep : machine.step c (.complete (.timer id delay st true)) =
        some (c.handle (.timer id delay st true)) := by
      simp [machine, ClusterMembership.act, hpend, Completion.op, hwf]
    rcases List.exists_cons_of_ne_nil hurls with ⟨url, rest, hcons⟩
    have hask : (c.handle (.timer id delay st true)).timers = c.timers ∧
        (c.handle (.timer id delay st true)).memberUrls = c.memberUrls ∧
        (c.handle (.timer id delay st true)).failures = c.failures := by
      have hkeys : c.memberUrls.keys = url :: rest := hcons
      simp [handle, body, onRefreshExpired, tryQueryClusterMembership, currentUrls, hkeys]
    refine ⟨_, _, ⟨.inl ⟨id, delay, st, rfl⟩, ?_⟩, ⟨rfl, (fun h => by cases h)⟩, hstep, ?_, ?_⟩
    · intro c' hc'
      obtain rfl := Option.some.inj (hstep.symm.trans hc')
      exact hask.2.2
    · rwa [hask.1]
    · rwa [currentUrls, hask.2.1]
  | memberList urls i =>
    have hstep : machine.step c (.complete (.memberList urls i soleReply)) =
        some (c.handle (.memberList urls i soleReply)) := by
      have hwf : (Completion.memberList urls i soleReply).WellFormed := trivial
      simp [machine, ClusterMembership.act, hpend, Completion.op, hwf]
    have hgood : soleReply.Good := by decide
    have hlearn : c.handle (.memberList urls i soleReply) =
        { c with
          pending := c.pending.erase (.memberList urls i)
          memberUrls := soleReply.response.newUrls }.resetRefreshTimer :=
      onMemberListResponse_good hgood urls i
    refine ⟨_, _, ⟨.inr ⟨urls, i, rfl⟩, ?_⟩, ⟨trivial, (fun h => by cases h)⟩, hstep, ?_, ?_⟩
    · intro c' hc'
      obtain rfl := Option.some.inj (hstep.symm.trans hc')
      rw [hlearn]
      rfl
    · rw [hlearn]
      exact Nat.succ_pos _
    · rw [hlearn]
      exact hgood.2.2

/-- A membership of two URLs comes to know the one member that there is. -/
theorem membership_converges_sole : ∃ b : Behavior machine Attended,
    (b.state 0).currentUrls = [[1], [2]] ∧
    ∃ m, ∀ k, m ≤ k → (b.state k).currentUrls = [[3]] := by
  have hinit : machine.Init twoUrls := ⟨[[1], [2]], 6000000, rfl⟩
  have hreach : machine.Reachable Attended twoUrls.startup :=
    ⟨twoUrls, hinit, .single .startup ⟨rfl, nofun⟩ rfl⟩
  rcases Behavior.exists_of_steps (p := fun c => 0 < c.timers ∧ c.currentUrls ≠ [])
    (fun c hc hp => replies_step (reachable_running hc) hp.1 hp.2) hreach (by decide) with
    ⟨b, hstart, hall⟩
  have hfair : b.Fair Serves := by
    refine Behavior.fair_of_steps hall ?_
    rintro c a ⟨⟨_, _, _, rfl⟩ | ⟨_, _, rfl⟩, _⟩
    · trivial
    · trivial
  have hpos : 0 < (b.state 0).timers := by
    rw [hstart]
    decide
  have hfail : ∀ k, 0 ≤ k → (b.state k).failures = (b.state 0).failures := by
    intro k _
    induction k with
    | zero => rfl
    | succ k ih =>
      rcases hall k with ⟨a, ha, hreplies⟩
      rcases b.step_cases k with ⟨hnone, _⟩ | ⟨a', ha', _, hstep⟩
      · exact absurd (hnone.symm.trans ha) (by simp)
      · obtain rfl : a' = a := Option.some.inj (ha'.symm.trans ha)
        exact (hreplies.2 _ hstep).trans (ih (Nat.zero_le k))
  have hagree : ∀ k, 0 ≤ k → ∀ asked i r, b.action k = some (.complete (.memberList asked i r)) →
      r.Good → r.response.newUrls = soleReply.response.newUrls := by
    intro k _ asked i r ha _
    rcases hall k with ⟨a, ha', hreplies⟩
    obtain rfl : a = .complete (.memberList asked i r) := Option.some.inj (ha'.symm.trans ha)
    rcases hreplies.1 with ⟨_, _, _, heq⟩ | ⟨_, _, heq⟩
    · cases heq
    · cases heq
      rfl
  rcases (membership_converges b hfair 0 hpos).2 _ hfail hagree with ⟨m, _, hm⟩
  refine ⟨b, ?_, m, fun k hk => (hm k hk).trans (by decide)⟩
  rw [hstart]
  decide

end ClusterMembership

end GeeH
