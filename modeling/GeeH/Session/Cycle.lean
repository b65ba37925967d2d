import GeeH.Session.Steps

/-!
# GeeH.Session.Cycle — the keep-alive cycle and `is_active()`

A timer, a Write, a Read, the next timer: the constructor starts the cycle, and
at most one operation of it is outstanding (`Inv`). `is_active()` looks at
`current_timer_`, which is set by every turn of the cycle and reset only by
`revoke()` and `shutdown()`. So it stays true when the cycle ends by a failed
operation, and when the server reports an expired lease; where that does not
happen, `is_active()` is truthful.
-/

namespace GeeH.Session

open Machine

variable {c c' : Session} {a : Act} {o : Outcome}

def Op.isRead : Op → Bool
  | .read => true
  | _ => false

/-- What holds in every reachable state. -/
structure Inv (c : Session) : Prop where
  cycle : building c + c.pending.card ≤ 1
  built : c.constructed = true → building c = 0
  revoking : ∀ call ∈ c.calls, call.isRevoke = true → c.constructed = true
  waiting : .revokeReads ∈ c.calls → c.reads.shutdown = true
  reads : c.reads.pending = c.pending.countP fun op => op.isRead

theorem init_inv (desiredTtl : Int) (leaseId : UInt64) : Inv (init desiredTtl leaseId) where
  cycle := le_refl 1
  built h := by cases h
  revoking call hmem hrev := by
    rw [show call = .createStream from Multiset.mem_singleton.mp hmem] at hrev
    cases hrev
  waiting hmem := by
    have heq : Call.revokeReads = .createStream := Multiset.mem_singleton.mp hmem
    cases heq
  reads := rfl

/-! ## Cancelling the timer -/

theorem cancel_isRead (id : Nat) (op : Op) : (Op.cancel id op).isRead = op.isRead := by
  unfold Op.cancel
  split
  · split <;> rfl
  · rfl

theorem cancelTimer_pending (c : Session) :
    c.cancelTimer.pending.card = c.pending.card ∧
    (c.cancelTimer.pending.countP fun op => op.isRead) = c.pending.countP fun op => op.isRead := by
  unfold cancelTimer
  split
  · exact ⟨rfl, rfl⟩
  · refine ⟨Multiset.card_map _ _, ?_⟩
    rw [Multiset.countP_map, Multiset.countP_eq_card_filter]
    simp only [cancel_isRead]

theorem Inv.cancelTimer (h : Inv c) : Inv c.cancelTimer := by
  rcases cancelTimer_keeps c with ⟨_, hr, hc, _, _, hcon, _⟩
  have hb : building c.cancelTimer = building c := by
    unfold building
    rw [hc]
  rcases cancelTimer_pending c with ⟨hcard, hcount⟩
  constructor
  · rw [hb, hcard]
    exact h.cycle
  · rw [hb, hcon]
    exact h.built
  · rw [hc, hcon]
    exact h.revoking
  · rw [hc, hr]
    exact h.waiting
  · rw [hr, hcount]
    exact h.reads

/-! ## Steps -/

theorem Inv.calls (h : Inv c) (hcalls : Calls c c') : Inv c' where
  cycle := by
    rw [hcalls.pending]
    have := h.cycle
    have := hcalls.building
    omega
  built hcon := by
    rw [hcalls.constructed] at hcon
    have := h.built hcon
    have := hcalls.building
    omega
  revoking call hmem hrev := by
    rw [hcalls.constructed]
    rcases hcalls.frames call hmem hrev with hcon | ⟨old, hold, hrev'⟩
    · exact hcon
    · exact h.revoking old hold hrev'
  waiting hmem := by
    rcases hcalls.waiting hmem with hold | hshut
    · exact hcalls.refused (h.waiting hold)
    · exact hshut
  reads := by
    rw [hcalls.reads, hcalls.pending]
    exact h.reads

theorem setTimer_spec (c : Session) :
    c.setTimer.calls = c.calls ∧ c.setTimer.reads = c.reads ∧ c.setTimer.stream = c.stream ∧
    c.setTimer.lastTtl = c.lastTtl ∧ c.setTimer.ops.shutdown = c.ops.shutdown ∧
    c.setTimer.pending =
      (if c.ops.shutdown then c.pending
       else .timer c.timers (c.actualTtl.tdiv keepAlivesPerTtl) .armed ::ₘ c.pending) ∧
    c.setTimer.currentTimer = (if c.ops.shutdown then c.currentTimer else some c.timers) := by
  unfold setTimer
  by_cases hs : c.ops.shutdown = true
  · simp [hs]
  · simp [hs]

/-- The constructor returns: it starts the cycle, unless `ops_` is in shutdown. -/
theorem onLeaseGranted_spec (c : Session) (req : LeaseGrantRequest) {ok : Bool} {status : Status}
    {resp : LeaseGrantResponse} (hok : ok = true) (hst : status.ok = true)
    (hnone : resp.error = []) :
    (c.onLeaseGranted req ok status resp).1.calls = c.calls.erase (.leaseGrant req) ∧
    (c.onLeaseGranted req ok status resp).1.reads = c.reads ∧
    (c.onLeaseGranted req ok status resp).1.stream = c.stream ∧
    (c.onLeaseGranted req ok status resp).1.lastTtl = some resp.ttl ∧
    (c.onLeaseGranted req ok status resp).1.ops.shutdown = c.ops.shutdown ∧
    (c.onLeaseGranted req ok status resp).1.pending =
      (if c.ops.shutdown then c.pending
       else .timer c.timers ((resp.ttl * 1000).tdiv keepAlivesPerTtl) .armed ::ₘ c.pending) ∧
    (c.onLeaseGranted req ok status resp).1.currentTimer =
      (if c.ops.shutdown then c.currentTimer else some c.timers) ∧
    (c.onLeaseGranted req ok status resp).1.constructed = true := by
  have hfut := futureError_eq_none (c := "async rpc cancelled")
    (l := "session/preamble/lease_grant").mpr ⟨hok, hst⟩
  rcases setTimer_spec ({ c with calls := c.calls.erase (.leaseGrant req) }.granted resp) with
    ⟨hcalls, hreads, hstream, httl, hops, hpend, htimer⟩
  simp only [onLeaseGranted, hfut, hnone, ne_eq, not_true, if_false]
  exact ⟨hcalls, hreads, hstream, httl, hops, hpend, htimer, trivial⟩

theorem Inv.granted {req : LeaseGrantRequest} {ok : Bool} {status : Status}
    {resp : LeaseGrantResponse} (h : Inv c) (hmem : .leaseGrant req ∈ c.calls) (hok : ok = true)
    (hst : status.ok = true) (hnone : resp.error = []) :
    Inv (c.onLeaseGranted req ok status resp).1 := by
  rcases onLeaseGranted_spec c req hok hst hnone with ⟨hcalls, hreads, _, _, _, hpend, _, hcon⟩
  generalize (c.onLeaseGranted req ok status resp).1 = d at *
  have hcount := Pool.countP_erase_of_pos (fun call : Call => call.isPreamble) hmem rfl
  have hb : building d + 1 = building c := by
    unfold building
    rw [hcalls]
    exact hcount
  have hcycle := h.cycle
  have hidle : c.pending = 0 := by
    apply Multiset.card_eq_zero.mp
    omega
  have hrevoke : ∀ call ∈ d.calls, call ∈ c.calls := by
    intro call hcall
    rw [hcalls] at hcall
    exact Multiset.mem_of_mem_erase hcall
  constructor
  · rw [hpend, hidle]
    split
    · simp only [Multiset.card_zero]
      omega
    · simp only [Multiset.card_cons, Multiset.card_zero]
      omega
  · intro _
    omega
  · intro call hcall hrev
    exact hcon
  · intro hwait
    rw [hreads]
    exact h.waiting (hrevoke _ hwait)
  · have hr := h.reads
    rw [hreads, hpend, hr, hidle]
    split <;> rfl

theorem building_onRevokeReads (c : Session) : building c.onRevokeReads ≤ building c := by
  show Multiset.countP _ (.writesDone ::ₘ c.calls.erase .revokeReads) ≤ _
  rw [Multiset.countP_cons_of_neg _ (by decide)]
  exact Pool.countP_erase_le _

theorem Inv.barrier (h : Inv c) (hmem : .revokeReads ∈ c.calls) : Inv c.onRevokeReads := by
  have hframe : ∀ call ∈ c.onRevokeReads.calls, call = .writesDone ∨ call ∈ c.calls := by
    intro call hcall
    rcases Multiset.mem_cons.mp hcall with heq | hold
    · exact Or.inl heq
    · exact Or.inr (Multiset.mem_of_mem_erase hold)
  have hb := building_onRevokeReads c
  constructor
  · have hcycle := h.cycle
    show building c.onRevokeReads + c.pending.card ≤ 1
    omega
  · intro hcon
    have hbuilt := h.built hcon
    omega
  · intro call hcall hrev
    rcases hframe call hcall with rfl | hold
    · exact h.revoking _ hmem rfl
    · exact h.revoking call hold hrev
  · intro _
    exact h.waiting hmem
  · exact h.reads

theorem Inv.fires {id : Nat} {delay : Int} (h : Inv c)
    (hmem : .timer id delay .armed ∈ c.pending) : Inv (c.timerFires id delay) := by
  constructor
  · have hcycle := h.cycle
    have hcard := Multiset.card_erase_add_one hmem
    show building c + (.timer id delay .fired ::ₘ c.pending.erase (.timer id delay .armed)).card ≤ 1
    rw [Multiset.card_cons]
    omega
  · exact h.built
  · exact h.revoking
  · exact h.waiting
  · show c.reads.pending = ((.timer id delay .fired ::ₘ
      c.pending.erase (.timer id delay .armed)).countP fun op => op.isRead : Nat)
    rw [Multiset.countP_cons_of_neg _ (by simp [Op.isRead]),
      Pool.countP_erase_of_neg _ (by simp [Op.isRead])]
    exact h.reads

/-- How many Reads a completion takes out, and puts in. -/
theorem handle_countP {k : Completion} (hmem : k.op ∈ c.pending)
    (h : c.reads.pending = c.pending.countP fun op => op.isRead) :
    (c.handle k).reads.pending = (c.handle k).pending.countP fun op => op.isRead := by
  rw [handle_reads]
  cases hend : k.ends c with
  | true =>
    rw [(handle_ends hend).1]
    cases k with
    | timer id delay state ok =>
      rw [Pool.countP_erase_of_neg _ (by simp [Completion.op, Op.isRead])]
      exact h
    | write id ok =>
      rw [Pool.countP_erase_of_neg _ (by simp [Completion.op, Op.isRead])]
      simpa [hend] using h
    | read ok ttl =>
      have hcount := Pool.countP_erase_of_pos (fun op : Op => op.isRead) hmem rfl
      show c.reads.pending - 1 = _
      omega
  | false =>
    rw [(handle_goes hend).1]
    cases k with
    | timer id delay state ok =>
      rw [Multiset.countP_cons_of_neg _ (by simp [Completion.next, Op.isRead]),
        Pool.countP_erase_of_neg _ (by simp [Completion.op, Op.isRead])]
      exact h
    | write id ok =>
      rw [Multiset.countP_cons_of_pos _ (by simp [Completion.next, Op.isRead]),
        Pool.countP_erase_of_neg _ (by simp [Completion.op, Op.isRead])]
      simp [h]
    | read ok ttl =>
      have hcount := Pool.countP_erase_of_pos (fun op : Op => op.isRead) hmem rfl
      rw [Multiset.countP_cons_of_neg _ (by simp [Completion.next, Op.isRead])]
      show c.reads.pending - 1 = _
      omega

theorem Inv.handled {k : Completion} (h : Inv c) (hmem : k.op ∈ c.pending) : Inv (c.handle k) := by
  have hcard := Multiset.card_erase_add_one hmem
  have hcycle := h.cycle
  obtain ⟨hle, hshut, hcalls, hcon⟩ : (c.handle k).pending.card ≤ c.pending.card ∧
      (c.handle k).reads.shutdown = c.reads.shutdown ∧ (c.handle k).calls = c.calls ∧
      (c.handle k).constructed = c.constructed := by
    cases hend : k.ends c with
    | true =>
      rcases handle_ends hend with ⟨hpend, _, _, _, _, hshut, hcalls, hcon⟩
      refine ⟨?_, hshut, hcalls, hcon⟩
      rw [hpend]
      omega
    | false =>
      rcases handle_goes hend with ⟨hpend, _, _, _, _, hshut, hcalls, hcon⟩
      refine ⟨?_, hshut, hcalls, hcon⟩
      rw [hpend, Multiset.card_cons]
      omega
  have hb : building (c.handle k) = building c := by
    unfold building
    rw [hcalls]
  constructor
  · rw [hb]
    omega
  · rw [hb, hcon]
    exact h.built
  · rw [hcalls, hcon]
    exact h.revoking
  · rw [hcalls, hshut]
    exact h.waiting
  · exact handle_countP hmem h.reads

theorem Inv.step (h : Inv c) (hact : c.act a = some (c', o)) : Inv c' := by
  cases act_cases hact with
  | calls _ hcalls => exact h.calls hcalls
  | stopped _ hcalls => exact h.cancelTimer.calls hcalls
  | granted req ok status resp hmem hok hst hnone heq =>
    subst heq
    exact h.granted hmem hok hst hnone
  | barrier hmem _ heq =>
    subst heq
    exact h.barrier hmem
  | fires id delay hmem heq =>
    subst heq
    exact h.fires hmem
  | handled k hmem _ heq =>
    subst heq
    exact h.handled hmem

theorem inv {allowed : Session → Act → Prop} (h : machine.Reachable allowed c) : Inv c := by
  refine h.invariant ?_ ?_
  · rintro _ ⟨desiredTtl, leaseId, rfl⟩
    exact init_inv desiredTtl leaseId
  · intro c a c' ih _ hstep
    rcases Option.map_eq_some_iff.mp hstep with ⟨⟨d, o⟩, hact, rfl⟩
    exact ih.step hact

/-! ## `is_active()` -/

/-- An active session has one operation of the cycle outstanding, and the last TTL that it
got is positive. -/
def Truthful (c : Session) : Prop :=
  c.isActive = true → c.pending.card = 1 ∧ ∃ ttl, c.lastTtl = some ttl ∧ 0 < ttl

/-- `revoke()` or `shutdown()` has reset `current_timer_`, and no timer was set since; or `ops_`
is in shutdown. -/
def MayEnd (c : Session) : Prop := c.currentTimer = none ∨ c.ops.shutdown = true

instance (c : Session) : Decidable (MayEnd c) := inferInstanceAs (Decidable (_ ∨ _))

/-- The cycle ends only where it may end, and the TTLs are positive unless `ops_` is in
shutdown. -/
def Sound (c : Session) : Act → Prop
  | .complete (.read ok ttl) =>
    ((Completion.read ok ttl).ends c = true → MayEnd c) ∧
    (ok = true → c.ops.shutdown = false → 0 < ttl)
  | .complete k => k.ends c = true → MayEnd c
  | .leaseGranted _ ok status resp =>
    ok = true → status.ok = true → resp.error = [] → c.ops.shutdown = false → 0 < resp.ttl
  | _ => True

instance (c : Session) (a : Act) : Decidable (c.Sound a) := by
  unfold Sound
  split <;> infer_instance

theorem sound_complete {k : Completion} :
    c.Sound (.complete k) ↔ (k.ends c = true → MayEnd c) ∧
      ∀ ttl, k = .read true ttl → c.ops.shutdown = false → 0 < ttl := by
  cases k with
  | timer id delay state ok => simp [Sound]
  | write id ok => simp [Sound]
  | read ok ttl =>
    cases ok with
    | false => simp [Sound]
    | true => simp [Sound]

/-- Where the cycle may end, the session is not active. -/
theorem mayEnd_iff : MayEnd c ↔ c.isActive = false := by
  unfold MayEnd isActive
  cases c.currentTimer <;> cases c.ops.shutdown <;> simp

/-- A session is not active with less. -/
theorem isActive_mono (htimer : c'.currentTimer = c.currentTimer)
    (hops : c.ops.shutdown = true → c'.ops.shutdown = true) (h : c'.isActive = true) :
    c.isActive = true := by
  unfold isActive at h ⊢
  rw [htimer] at h
  cases hs : c.ops.shutdown with
  | false => simp_all
  | true => simp [hops hs] at h

theorem Truthful.calls (h : Truthful c) (hcalls : Calls c c') : Truthful c' := by
  intro hactive
  rw [hcalls.pending, hcalls.ttl]
  exact h (isActive_mono hcalls.timer hcalls.ops hactive)

/-- Without a timer the session is not active. -/
theorem truthful_of_stopped (hcalls : Calls c.cancelTimer c') : Truthful c' := by
  intro hactive
  simp [isActive, hcalls.timer] at hactive

theorem truthful_granted {req : LeaseGrantRequest} {ok : Bool} {status : Status}
    {resp : LeaseGrantResponse} (hinv : Inv c) (hmem : .leaseGrant req ∈ c.calls)
    (hok : ok = true) (hst : status.ok = true) (hnone : resp.error = []) :
    Truthful (c.onLeaseGranted req ok status resp).1 ↔
      (c.ops.shutdown = false → 0 < resp.ttl) := by
  have hcount := Pool.countP_erase_of_pos (fun call : Call => call.isPreamble) hmem rfl
  have hcycle := hinv.cycle
  have hidle : c.pending = 0 := by
    apply Multiset.card_eq_zero.mp
    unfold building at hcycle
    omega
  rcases onLeaseGranted_spec c req hok hst hnone with ⟨_, _, _, httl, hops, hpend, htimer, _⟩
  unfold Truthful isActive
  rw [httl, hops, hpend, htimer, hidle]
  cases c.ops.shutdown with
  | true => simp
  | false => simp

theorem truthful_handled {k : Completion} (hinv : Inv c) (h : Truthful c)
    (hmem : k.op ∈ c.pending) : Truthful (c.handle k) ↔ c.Sound (.complete k) := by
  rw [sound_complete]
  have hcard := Multiset.card_erase_add_one hmem
  have hcycle := hinv.cycle
  have hlast : (c.pending.erase k.op).card = 0 := by omega
  cases hend : k.ends c with
  | true =>
    rcases handle_ends hend with ⟨hpend, _, htimer, _, hops, _⟩
    have hactive : (c.handle k).isActive = c.isActive := by
      unfold isActive
      rw [htimer, hops]
    constructor
    · intro htrue
      refine ⟨fun _ => mayEnd_iff.mpr ?_, ?_⟩
      -- nothing is outstanding after the last operation of the cycle
      · cases hact : c.isActive with
        | false => rfl
        | true =>
          have hone := (htrue (hactive.trans hact)).1
          rw [hpend, hlast] at hone
          cases hone
      · rintro ttl rfl hs
        simp [Completion.ends, hs] at hend
    · rintro ⟨hmay, _⟩ hact
      rw [hactive, mayEnd_iff.mp (hmay rfl)] at hact
      cases hact
  | false =>
    rcases handle_goes hend with ⟨hpend, _, htimer, httl, hops, _⟩
    have hone : (c.handle k).pending.card = 1 := by
      rw [hpend, Multiset.card_cons, hlast]
    constructor
    · intro htrue
      refine ⟨fun hcontra => (by cases hcontra), ?_⟩
      rintro ttl rfl hs
      have hact : (c.handle (.read true ttl)).isActive = true := by
        unfold isActive
        rw [htimer, hops, hs]
        rfl
      rcases (htrue hact).2 with ⟨ttl', hlastTtl, hpos⟩
      rw [httl] at hlastTtl
      cases hlastTtl
      exact hpos
    · rintro ⟨_, hpos⟩ hact
      refine ⟨hone, ?_⟩
      cases k with
      | timer id delay state ok =>
        rw [httl]
        exact (h (isActive_mono htimer (fun hs => hops.trans hs) hact)).2
      | write id ok =>
        rw [httl]
        exact (h (isActive_mono htimer (fun hs => hops.trans hs) hact)).2
      | read ok ttl =>
        cases ok with
        | false => simp [Completion.ends] at hend
        | true =>
          have hs : c.ops.shutdown = false := by simpa [Completion.ends] using hend
          exact ⟨ttl, httl, hpos ttl rfl hs⟩

/-- The other steps keep `is_active()` truthful. -/
theorem Truthful.effect (h : Truthful c) (heff : Effect c c' a) (hk : ∀ k, a ≠ .complete k)
    (hgrant : ∀ req ok status resp, a = .leaseGranted req ok status resp →
      ¬ (ok = true ∧ status.ok = true ∧ resp.error = [])) : Truthful c' := by
  cases heff with
  | calls _ hcalls => exact h.calls hcalls
  | stopped _ hcalls => exact truthful_of_stopped hcalls
  | granted req ok status resp _ hok hst hnone =>
    exact absurd ⟨hok, hst, hnone⟩ (hgrant req ok status resp rfl)
  | barrier _ _ heq =>
    subst heq
    intro hact
    refine h (isActive_mono ?_ ?_ hact)
    · rfl
    · intro hs
      exact (AsyncOpCounter.asyncOpStart_shutdown _).trans hs
  | fires id delay hmem heq =>
    subst heq
    intro hact
    rcases h hact with ⟨hone, httl⟩
    refine ⟨?_, httl⟩
    show (.timer id delay .fired ::ₘ c.pending.erase (.timer id delay .armed)).card = 1
    rw [Multiset.card_cons, Multiset.card_erase_add_one hmem]
    exact hone
  | handled k => exact absurd rfl (hk k)

/-- One step keeps `is_active()` truthful if and only if it is sound. -/
theorem truthful_step (hinv : Inv c) (h : Truthful c) (hact : c.act a = some (c', o)) :
    Truthful c' ↔ c.Sound a := by
  have hother : (∀ k, a ≠ .complete k) → (∀ req ok status resp,
      a ≠ .leaseGranted req ok status resp) → (Truthful c' ↔ True) := by
    intro hk hgrant
    refine iff_true_intro (h.effect (act_cases hact) hk ?_)
    intro req ok status resp heq
    exact absurd heq (hgrant req ok status resp)
  cases a with
  | complete k =>
    obtain ⟨hmem, rfl⟩ := of_guard hact
    exact truthful_handled hinv h hmem.1
  | leaseGranted req ok status resp =>
    by_cases hall : ok = true ∧ status.ok = true ∧ resp.error = []
    · rcases hall with ⟨hok, hst, hnone⟩
      obtain ⟨hmem, rfl⟩ := of_guard hact
      rw [truthful_granted hinv hmem hok hst hnone]
      simp [Sound, hok, hst, hnone]
    -- a LeaseGrant that fails
    · refine ⟨fun _ hok hst hnone => absurd ⟨hok, hst, hnone⟩ hall, fun _ => ?_⟩
      refine h.effect (act_cases hact) (by simp) ?_
      rintro req' ok' status' resp' heq
      cases heq
      exact hall
  | streamCreated | revoke | revokeLease | leaseRevoked | revokeReadsDrained | writesDone |
    finished | revokeOpsDrained | destroy | shutdownReadsDrained | shutdownOpsDrained |
    timerFires =>
    exact hother (by simp) (by simp)

/-- In sound runs `is_active()` is truthful, and a step from there keeps it so if and only
if it is sound. -/
theorem is_active_truthful (c : Session) (hc : machine.Reachable Sound c) : Truthful c ∧
    ∀ c' a, machine.step c a = some c' → (Truthful c' ↔ c.Sound a) := by
  have htrue : Truthful c := by
    refine hc.invariant_of (fun c => inv) ?_ ?_
    · rintro _ ⟨desiredTtl, leaseId, rfl⟩ hactive
      cases hactive
    · intro c a c' hinv ih hsound hstep
      rcases Option.map_eq_some_iff.mp hstep with ⟨⟨d, o⟩, hact, rfl⟩
      exact (truthful_step hinv ih hact).mpr hsound
  refine ⟨htrue, ?_⟩
  intro c' a hstep
  rcases Option.map_eq_some_iff.mp hstep with ⟨⟨d, o⟩, hact, rfl⟩
  exact truthful_step (inv hc) htrue hact

/-- The constructor of a session that asks for a lease of five seconds. -/
def constructActs (ttl : Int) : List Act :=
  [.streamCreated true, .leaseGranted { ttl := 5, id := 0 } true {} { id := 1000, ttl := ttl }]

/-- One turn of the cycle, with the first timer. -/
def turnActs (ttl : Int) : List Act :=
  let delay := (ttl * 1000).tdiv keepAlivesPerTtl
  [.timerFires 0 delay, .complete (.timer 0 delay .fired true), .complete (.write 1000 true),
    .complete (.read true ttl)]

/-- After a turn of the cycle the session is active, and it is refreshing its lease. -/
theorem is_active_truthful_turn :
    (∃ c, machine.Reachable Sound c ∧ c.isActive = true ∧ c.pending.card = 1 ∧
      c.lastTtl = some 5) ∧
    ∃ c c', machine.Reachable Sound c ∧
      machine.step c (.complete (.timer 0 1000 .fired true)) = some c' ∧ Truthful c' := by
  constructor
  · rcases reachable_of_execIf machine (fun c a => decide (c.Sound a)) (init 5000 0)
      (constructActs 5 ++ turnActs 5) (fun c => c.isActive && decide (c.lastTtl = some 5))
      (fun _ _ => of_decide_eq_true) ⟨_, _, rfl⟩ (by decide) with ⟨c, hreach, hcheck⟩
    simp only [Bool.and_eq_true, decide_eq_true_eq] at hcheck
    rcases hcheck with ⟨hactive, httl⟩
    exact ⟨c, hreach, hactive, ((is_active_truthful c hreach).1 hactive).1, httl⟩
  · rcases reachable_of_execIf machine (fun c a => decide (c.Sound a)) (init 5000 0)
      (constructActs 5 ++ [.timerFires 0 1000])
      (fun c => decide (c.Sound (.complete (.timer 0 1000 .fired true))) &&
        (machine.step c (.complete (.timer 0 1000 .fired true))).isSome)
      (fun _ _ => of_decide_eq_true) ⟨_, _, rfl⟩ (by decide) with ⟨c, hreach, hcheck⟩
    simp only [Bool.and_eq_true, decide_eq_true_eq] at hcheck
    rcases Option.isSome_iff_exists.mp hcheck.2 with ⟨c', hstep⟩
    exact ⟨c, c', hreach, hstep, ((is_active_truthful c hreach).2 c' _ hstep).mpr hcheck.1⟩

/-- The Write of a KeepAlive fails: nothing refreshes the lease any more, and the session
calls itself active. -/
theorem active_without_cycle : ∃ c, machine.Reachable Any c ∧ c.isActive = true ∧
    c.pending = 0 ∧ ¬ Truthful c := by
  rcases reachable_of_exec machine (init 5000 0)
    (constructActs 5 ++ [.timerFires 0 1000, .complete (.timer 0 1000 .fired true),
      .complete (.write 1000 false)])
    (fun c => c.isActive && decide (c.pending = 0))
    ⟨_, _, rfl⟩ (by decide) with ⟨c, hreach, hcheck⟩
  simp only [Bool.and_eq_true, decide_eq_true_eq] at hcheck
  rcases hcheck with ⟨hactive, hpend⟩
  refine ⟨c, hreach, hactive, hpend, ?_⟩
  intro htrue
  have hone := (htrue hactive).1
  rw [hpend] at hone
  cases hone

/-! ## One operation at a time -/

/-- Every completion is ok, and neither `revoke()` nor the destructor is called. -/
def Undisturbed (_ : Session) : Act → Prop
  | .complete (.timer _ _ _ ok) => ok = true
  | .complete (.write _ ok) => ok = true
  | .complete (.read ok _) => ok = true
  | .revoke => False
  | .destroy => False
  | _ => True

instance (c : Session) : DecidablePred c.Undisturbed
  | .complete (.timer _ _ _ ok) => inferInstanceAs (Decidable (ok = true))
  | .complete (.write _ ok) => inferInstanceAs (Decidable (ok = true))
  | .complete (.read ok _) => inferInstanceAs (Decidable (ok = true))
  | .revoke | .destroy => inferInstanceAs (Decidable False)
  | .streamCreated _ | .leaseGranted _ _ _ _ | .revokeLease | .leaseRevoked _ _ _
  | .revokeReadsDrained | .writesDone _ | .finished _ _ | .revokeOpsDrained
  | .shutdownReadsDrained _ | .shutdownOpsDrained _ | .timerFires _ _ =>
    inferInstanceAs (Decidable True)

/-- A constructor that may succeed is alone with its object; when it has succeeded, the cycle
turns. -/
structure Turning (c : Session) : Prop where
  alone : ∀ call ∈ c.calls, call.isPreamble = true →
    c.calls = {call} ∧ c.ops.shutdown = false ∧ c.reads.shutdown = false
  turns : c.constructed = true →
    c.calls = 0 ∧ c.ops.shutdown = false ∧ c.reads.shutdown = false ∧ c.pending.card = 1

theorem init_turning (desiredTtl : Int) (leaseId : UInt64) : Turning (init desiredTtl leaseId) where
  alone call hmem _ := by
    rw [show call = .createStream from Multiset.mem_singleton.mp hmem]
    exact ⟨rfl, rfl, rfl⟩
  turns h := by cases h

/-- A constructor that fails, or an object that was never constructed, has no cycle. -/
theorem turning_of_failed (hcon : c.constructed = false)
    (hcalls : ∀ call ∈ c.calls, call.isPreamble = false) : Turning c where
  alone call hmem hpre := absurd ((hcalls call hmem).symm.trans hpre) (by simp)
  turns h := absurd (hcon.symm.trans h) (by simp)

/-- The constructor is at work, so nothing is pending, and the object is not constructed. -/
theorem Inv.preamble (hinv : Inv c) {call : Call} (hmem : call ∈ c.calls)
    (hpre : call.isPreamble = true) : c.constructed = false ∧ c.pending = 0 := by
  have hpos : 0 < building c := Multiset.countP_pos.mpr ⟨call, hmem, hpre⟩
  have hcycle := hinv.cycle
  refine ⟨?_, Multiset.card_eq_zero.mp (by omega)⟩
  by_contra hcon
  have hzero := hinv.built (by simpa using hcon)
  omega

theorem turning_shutdown {d : Session} (exn : Option Exn) (hcalls : d.calls = 0)
    (hcon : d.constructed = false) : Turning (d.shutdown exn).1 := by
  unfold shutdown
  split
  · refine turning_of_failed hcon ?_
    intro call hmem
    have hmem' : call ∈ d.calls := hmem
    rw [hcalls] at hmem'
    exact absurd hmem' (Multiset.notMem_zero _)
  · rcases cancelTimer_keeps d with ⟨_, _, hc, _, _, hcon', _⟩
    refine turning_of_failed (hcon'.trans hcon) ?_
    intro call hmem
    have hmem' : call ∈ Call.shutdownReads exn ::ₘ d.cancelTimer.calls := hmem
    rw [hc, hcalls] at hmem'
    rcases Multiset.mem_cons.mp hmem' with rfl | hold
    · rfl
    · exact absurd hold (Multiset.notMem_zero _)

theorem Turning.streamCreated (h : Turning c) (hinv : Inv c) (hmem : .createStream ∈ c.calls)
    (ok : Bool) : Turning (c.onStreamCreated ok).1 := by
  rcases h.alone _ hmem rfl with ⟨hcalls, hops, hreads⟩
  rcases hinv.preamble hmem rfl with ⟨hcon, _⟩
  have herase : c.calls.erase .createStream = 0 := by simp [hcalls]
  cases ok with
  | false => exact turning_shutdown _ herase hcon
  | true =>
    refine ⟨?_, fun hc => absurd (hcon.symm.trans hc) (by simp)⟩
    intro call hcall _
    have hcall' : call ∈ Call.leaseGrant c.grantRequest ::ₘ c.calls.erase .createStream := hcall
    rw [herase] at hcall'
    refine ⟨?_, (AsyncOpCounter.asyncOpStart_shutdown _).trans hops, hreads⟩
    rw [show call = .leaseGrant c.grantRequest from Multiset.mem_singleton.mp hcall']
    show Call.leaseGrant c.grantRequest ::ₘ c.calls.erase .createStream = _
    rw [herase]
    rfl

theorem Turning.leaseGranted (h : Turning c) (hinv : Inv c) {req : LeaseGrantRequest}
    (hmem : .leaseGrant req ∈ c.calls) (ok : Bool) (status : Status) (resp : LeaseGrantResponse) :
    Turning (c.onLeaseGranted req ok status resp).1 := by
  rcases h.alone _ hmem rfl with ⟨hcalls, hops, hreads⟩
  rcases hinv.preamble hmem rfl with ⟨hcon, hpend⟩
  have herase : c.calls.erase (.leaseGrant req) = 0 := by simp [hcalls]
  cases hfut : futureError "async rpc cancelled" "session/preamble/lease_grant" ok status with
  | some e =>
    simp only [onLeaseGranted, hfut]
    exact turning_shutdown _ herase hcon
  | none =>
    by_cases herr : resp.error = []
    · rcases futureError_eq_none.mp hfut with ⟨hok, hst⟩
      rcases onLeaseGranted_spec c req hok hst herr with ⟨hc, hr, _, _, ho, hp, _, _⟩
      rw [herase] at hc
      refine ⟨?_, ?_⟩
      · intro call hcall
        rw [hc] at hcall
        exact absurd hcall (Multiset.notMem_zero _)
      · intro _
        refine ⟨hc, ho.trans hops, by rw [hr]; exact hreads, ?_⟩
        rw [hp, hops, hpend]
        rfl
    · simp only [onLeaseGranted, hfut, ne_eq, herr, not_false_eq_true, if_true]
      exact turning_shutdown _ herase hcon

/-- The next operation of the cycle follows. -/
theorem Turning.handled (h : Turning c) {k : Completion} (hmem : k.op ∈ c.pending)
    (hok : c.Undisturbed (.complete k)) : Turning (c.handle k) := by
  have hkeep : (c.handle k).ops.shutdown = c.ops.shutdown ∧
      (c.handle k).reads.shutdown = c.reads.shutdown ∧ (c.handle k).calls = c.calls ∧
      (c.handle k).constructed = c.constructed := by
    cases hend : k.ends c with
    | true =>
      rcases handle_ends hend with ⟨_, _, _, _, ho, hr, hc, hcon⟩
      exact ⟨ho, hr, hc, hcon⟩
    | false =>
      rcases handle_goes hend with ⟨_, _, _, _, ho, hr, hc, hcon⟩
      exact ⟨ho, hr, hc, hcon⟩
  rcases hkeep with ⟨ho, hr, hc, hcon⟩
  refine ⟨?_, ?_⟩
  · rw [hc, ho, hr]
    exact h.alone
  · rw [hc, ho, hr, hcon]
    intro hbuilt
    rcases h.turns hbuilt with ⟨hcalls, hops, hreads, hcard⟩
    have hend : k.ends c = false := by
      cases k with
      | timer id delay state ok =>
        have hok' : ok = true := hok
        simp [Completion.ends, hok', hops]
      | write id ok =>
        have hok' : ok = true := hok
        simp [Completion.ends, hok', hreads]
      | read ok ttl =>
        have hok' : ok = true := hok
        simp [Completion.ends, hok', hops]
    refine ⟨hcalls, hops, hreads, ?_⟩
    rw [(handle_goes hend).1, Multiset.card_cons, Multiset.card_erase_add_one hmem]
    exact hcard

/-- A call of `revoke()`: there is none. -/
theorem Turning.no_revoke (h : Turning c) (hinv : Inv c) {call : Call} (hmem : call ∈ c.calls)
    (hrev : call.isRevoke = true) : False := by
  have hcalls := (h.turns (hinv.revoking call hmem hrev)).1
  rw [hcalls] at hmem
  exact Multiset.notMem_zero _ hmem

/-- `shutdown()` goes on after a constructor that failed. -/
theorem Turning.shutdown (h : Turning c) {call : Call} (hmem : call ∈ c.calls)
    (hcall : call.isPreamble = false) (hcon : c'.constructed = c.constructed)
    (hnew : ∀ call ∈ c'.calls, call ∈ c.calls ∨ call.isPreamble = false) : Turning c' := by
  refine turning_of_failed ?_ ?_
  · rw [hcon]
    by_contra hbuilt
    have hcalls := (h.turns (by simpa using hbuilt)).1
    rw [hcalls] at hmem
    exact Multiset.notMem_zero _ hmem
  · intro call' hmem'
    rcases hnew call' hmem' with hold | hpre
    · by_contra hpre
      have hcalls := (h.alone call' hold (by simpa using hpre)).1
      rw [hcalls, Multiset.mem_singleton] at hmem
      rw [hmem] at hcall
      exact hpre hcall
    · exact hpre

theorem Turning.step (h : Turning c) (hinv : Inv c) (hok : c.Undisturbed a)
    (hact : c.act a = some (c', o)) : Turning c' := by
  cases a with
  | streamCreated ok =>
    obtain ⟨hmem, rfl⟩ := of_guard hact
    exact h.streamCreated hinv hmem ok
  | leaseGranted req ok status resp =>
    obtain ⟨hmem, rfl⟩ := of_guard hact
    exact h.leaseGranted hinv hmem ok status resp
  | revoke => exact hok.elim
  | revokeLease =>
    obtain ⟨hmem, -⟩ := of_guard hact
    exact (h.no_revoke hinv hmem rfl).elim
  | leaseRevoked id ok status =>
    obtain ⟨hmem, -⟩ := of_guard hact
    exact (h.no_revoke hinv hmem rfl).elim
  | revokeReadsDrained =>
    rcases act_revokeReadsDrained hact with ⟨hmem, _, _⟩
    exact (h.no_revoke hinv hmem rfl).elim
  | writesDone ok =>
    obtain ⟨hmem, -⟩ := of_guard hact
    exact (h.no_revoke hinv hmem rfl).elim
  | finished ok status =>
    obtain ⟨hmem, -⟩ := of_guard hact
    exact (h.no_revoke hinv hmem rfl).elim
  | revokeOpsDrained =>
    obtain ⟨hcond, -⟩ := of_guard hact
    exact (h.no_revoke hinv hcond.1 rfl).elim
  | destroy => exact hok.elim
  | shutdownReadsDrained exn =>
    obtain ⟨hcond, rfl⟩ := of_guard hact
    refine h.shutdown hcond.1 rfl rfl ?_
    intro call hmem
    have hmem' : call ∈ Call.shutdownOps exn ::ₘ c.calls.erase (.shutdownReads exn) := hmem
    rcases Multiset.mem_cons.mp hmem' with rfl | hold
    · exact Or.inr rfl
    · exact Or.inl (Multiset.mem_of_mem_erase hold)
  | shutdownOpsDrained exn =>
    obtain ⟨hcond, rfl⟩ := of_guard hact
    refine h.shutdown hcond.1 rfl rfl ?_
    intro call hmem
    exact Or.inl (Multiset.mem_of_mem_erase hmem)
  | timerFires id delay =>
    obtain ⟨hmem, rfl⟩ := of_guard hact
    refine ⟨h.alone, ?_⟩
    intro hcon
    rcases h.turns hcon with ⟨hcalls, hops, hreads, hcard⟩
    refine ⟨hcalls, hops, hreads, ?_⟩
    show (_ ::ₘ c.pending.erase _).card = 1
    rw [Multiset.card_cons, Multiset.card_erase_add_one hmem]
    exact hcard
  | complete k =>
    rcases act_complete hact with ⟨hmem, _, rfl⟩
    exact h.handled hmem hok

/-- At most one operation of the keep-alive cycle is outstanding; and exactly one is, from the
end of the constructor on, as long as every completion is ok and the session is neither
revoked nor destroyed. -/
theorem one_keep_alive :
    (∀ c, machine.Reachable Any c → c.pending.card ≤ 1) ∧
    ∀ c, machine.Reachable Undisturbed c → c.constructed = true → c.pending.card = 1 := by
  constructor
  · intro c hc
    have hcycle := (inv hc).cycle
    omega
  · intro c hc hcon
    have hturning : Turning c := by
      refine hc.invariant_of (fun c => inv) ?_ ?_
      · rintro _ ⟨desiredTtl, leaseId, rfl⟩
        exact init_turning desiredTtl leaseId
      · intro c a c' hinv ih hok hstep
        rcases Option.map_eq_some_iff.mp hstep with ⟨⟨d, o⟩, hact, rfl⟩
        exact ih.step hinv hok hact
    exact (hturning.turns hcon).2.2.2

/-- After one turn of the cycle the next timer is the one operation outstanding. -/
theorem one_keep_alive_turn : ∃ c, machine.Reachable Undisturbed c ∧ c.constructed = true ∧
    c.timers = 2 ∧ c.pending.card = 1 := by
  rcases reachable_of_execIf machine (fun c a => decide (c.Undisturbed a)) (init 5000 0)
    (constructActs 5 ++ turnActs 5) (fun c => c.constructed && decide (c.timers = 2))
    (fun _ _ => of_decide_eq_true) ⟨_, _, rfl⟩ (by decide) with ⟨c, hreach, hcheck⟩
  simp only [Bool.and_eq_true, decide_eq_true_eq] at hcheck
  exact ⟨c, hreach, hcheck.1, hcheck.2, one_keep_alive.2 c hreach hcheck.1⟩

end GeeH.Session
