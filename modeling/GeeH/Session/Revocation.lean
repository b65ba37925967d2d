import GeeH.Session.Cycle

/-!
# GeeH.Session.Revocation — Writes after WritesDone

`revoke()` cancels the timer, waits for the reads and then closes the stream for
writing. `ops_` goes into shutdown only at the end, so a timer that is still
going to expire at that point writes once more, on the closed stream. If there
is none, the cycle is over (`Over`) and nothing is written any more.
-/

namespace GeeH.Session

open Machine

variable {c c' : Session} {a : Act} {o : Outcome}

/-- No Write is issued after a WritesDone. -/
def NoLateWrite (l : List StreamOp) : Prop :=
  l.Pairwise fun a b => a = .writesDone → ∀ id, b ≠ .write id

/-- A timer that was not canceled. -/
def Op.isLive : Op → Bool
  | .timer _ _ .canceled => false
  | .timer _ _ _ => true
  | _ => false

/-- No timer can start a Write any more. -/
def Silenced (c : Session) : Prop := c.ops.shutdown = true ∨ ∀ op ∈ c.pending, op.isLive = false

instance (c : Session) : Decidable (Silenced c) := inferInstanceAs (Decidable (_ ∨ _))

/-- WritesDone is issued only when no timer can start a Write any more. -/
def Ordered (c : Session) : Act → Prop
  | .revokeReadsDrained => Silenced c
  | _ => True

instance (c : Session) (a : Act) : Decidable (c.Ordered a) := by
  unfold Ordered
  split <;> infer_instance

/-- The keep-alive cycle is over. -/
structure Over (c : Session) : Prop where
  refused : c.reads.shutdown = true
  noReads : ∀ op ∈ c.pending, op.isRead = false
  built : building c = 0
  silenced : Silenced c

/-- What was issued in between holds no Write. -/
def Writeless (c c' : Session) : Prop := ∃ l, c'.stream = c.stream ++ l ∧ ∀ id, .write id ∉ l

theorem Writeless.trans {c₁ c₂ c₃ : Session} (h : Writeless c₁ c₂) (h' : Writeless c₂ c₃) :
    Writeless c₁ c₃ := by
  rcases h with ⟨l, hl, hno⟩
  rcases h' with ⟨l', hl', hno'⟩
  refine ⟨l ++ l', by rw [hl', hl, List.append_assoc], ?_⟩
  intro id hmem
  rcases List.mem_append.mp hmem with h₁ | h₂
  · exact hno id h₁
  · exact hno' id h₂

theorem NoLateWrite.append {l l' : List StreamOp} (h : NoLateWrite l)
    (hno : ∀ id, .write id ∉ l') : NoLateWrite (l ++ l') := by
  refine List.pairwise_append.mpr ⟨h, ?_, ?_⟩
  · refine List.pairwise_of_forall_mem_list ?_
    intro a _ b hb _ id heq
    exact hno id (heq ▸ hb)
  · intro a _ b hb _ id heq
    exact hno id (heq ▸ hb)

/-! ## After the end of the cycle -/

theorem cancel_isLive {id : Nat} {op : Op} (h : op.isLive = false) :
    (Op.cancel id op).isLive = false := by
  unfold Op.cancel
  split
  · cases h
  · exact h

theorem Over.cancelTimer (h : Over c) : Over c.cancelTimer := by
  rcases cancelTimer_keeps c with ⟨ho, hr, hc, _⟩
  have hpend : ∀ op ∈ c.cancelTimer.pending, op ∈ c.pending ∨
      ∃ id, ∃ old ∈ c.pending, op = Op.cancel id old := by
    intro op hop
    unfold Session.cancelTimer at hop
    split at hop
    · exact Or.inl hop
    · rename_i id _
      rcases Multiset.mem_map.mp hop with ⟨old, hold, rfl⟩
      exact Or.inr ⟨id, old, hold, rfl⟩
  constructor
  · rw [hr]
    exact h.refused
  · intro op hop
    rcases hpend op hop with hold | ⟨id, old, hold, rfl⟩
    · exact h.noReads op hold
    · rw [cancel_isRead]
      exact h.noReads old hold
  · unfold building
    rw [hc]
    exact h.built
  · unfold Silenced
    rw [ho]
    rcases h.silenced with hs | hs
    · exact Or.inl hs
    · right
      intro op hop
      rcases hpend op hop with hold | ⟨id, old, hold, rfl⟩
      · exact hs op hold
      · exact cancel_isLive (hs old hold)

theorem Over.calls (h : Over c) (hcalls : Calls c c') : Over c' ∧ Writeless c c' := by
  refine ⟨⟨hcalls.refused h.refused, ?_, ?_, ?_⟩, ?_⟩
  · rw [hcalls.pending]
    exact h.noReads
  · have hle := hcalls.building
    have hbuilt := h.built
    omega
  · unfold Silenced
    rw [hcalls.pending]
    rcases h.silenced with hs | hs
    · exact Or.inl (hcalls.ops hs)
    · exact Or.inr hs
  · rcases hcalls.stream with ⟨l, hl, hno, _⟩
    exact ⟨l, hl, hno⟩

/-- The operation of the cycle that is still outstanding completes. -/
theorem Over.handled {k : Completion} (h : Over c) (hmem : k.op ∈ c.pending) (hwf : k.WellFormed) :
    Over (c.handle k) ∧ Writeless c (c.handle k) := by
  have hend : k.ends c = true := by
    cases k with
    | timer id delay state ok =>
      cases ok with
      | false => rfl
      | true =>
        rcases h.silenced with hs | hs
        · exact hs
        -- it was canceled, and then it is not ok
        · have hlive := hs _ hmem
          cases state with
          | canceled => exact absurd rfl hwf
          | armed => cases hlive
          | fired => cases hlive
    | write id ok => simp [Completion.ends, h.refused]
    | read ok ttl =>
      have hread := h.noReads _ hmem
      cases hread
  rcases handle_ends hend with ⟨hpend, hstream, _, _, hops, hrefused, hcalls, _⟩
  have hsub : ∀ op ∈ (c.handle k).pending, op ∈ c.pending := by
    intro op hop
    rw [hpend] at hop
    exact Multiset.mem_of_mem_erase hop
  refine ⟨⟨?_, ?_, ?_, ?_⟩, [], by simp [hstream], by simp⟩
  · rw [hrefused]
    exact h.refused
  · intro op hop
    exact h.noReads op (hsub op hop)
  · unfold building
    rw [hcalls]
    exact h.built
  · unfold Silenced
    rw [hops]
    rcases h.silenced with hs | hs
    · exact Or.inl hs
    · exact Or.inr fun op hop => hs op (hsub op hop)

theorem Over.step (h : Over c) (hact : c.act a = some (c', o)) : Over c' ∧ Writeless c c' := by
  cases act_cases hact with
  | calls _ hcalls => exact h.calls hcalls
  | stopped _ hcalls =>
    rcases h.cancelTimer.calls hcalls with ⟨hover, l, hl, hno⟩
    refine ⟨hover, l, ?_, hno⟩
    rw [hl, (cancelTimer_keeps c).2.2.2.1]
  | granted req ok status resp hmem =>
    have hpos : 0 < building c := Multiset.countP_pos.mpr ⟨_, hmem, rfl⟩
    have hbuilt := h.built
    omega
  | barrier hmem hnone heq =>
    subst heq
    refine ⟨⟨h.refused, h.noReads, ?_, ?_⟩, [.writesDone], rfl, by simp⟩
    · have hle := building_onRevokeReads c
      have hbuilt := h.built
      omega
    · rcases h.silenced with hs | hs
      · exact Or.inl ((AsyncOpCounter.asyncOpStart_shutdown _).trans hs)
      · exact Or.inr hs
  | fires id delay hmem heq =>
    subst heq
    have hs : c.ops.shutdown = true := by
      rcases h.silenced with hs | hs
      · exact hs
      · have hlive := hs _ hmem
        cases hlive
    refine ⟨⟨h.refused, ?_, h.built, Or.inl hs⟩, [], by simp [timerFires], by simp⟩
    intro op hop
    rcases Multiset.mem_cons.mp hop with rfl | hold
    · rfl
    · exact h.noReads op (Multiset.mem_of_mem_erase hold)
  | handled k hmem hwf heq =>
    subst heq
    exact h.handled hmem hwf

theorem Over.run {allowed : Session → Act → Prop} (h : Over c) (hrun : machine.Run allowed c c') :
    Over c' ∧ Writeless c c' := by
  refine hrun.invariant ?_ ⟨h, [], by simp, by simp⟩
  rintro s a s' ⟨hs, hbefore⟩ _ hstep
  rcases Option.map_eq_some_iff.mp hstep with ⟨⟨d, o⟩, hact, rfl⟩
  rcases hs.step hact with ⟨hover, hno⟩
  exact ⟨hover, hbefore.trans hno⟩

/-! ## WritesDone -/

/-- When WritesDone is issued, the reads are over; only a timer could keep the cycle going. -/
theorem over_onRevokeReads (hinv : Inv c) (hmem : .revokeReads ∈ c.calls)
    (hnone : c.reads.pending = 0) (hs : Silenced c) : Over c.onRevokeReads := by
  constructor
  · exact hinv.waiting hmem
  · have hcount := hinv.reads
    have hzero : (c.pending.countP fun op => op.isRead) = 0 := by omega
    intro op hop
    simpa using Multiset.countP_eq_zero.mp hzero op hop
  · have hbuilt := hinv.built (hinv.revoking _ hmem rfl)
    have hle := building_onRevokeReads c
    omega
  · rcases hs with hs | hs
    · exact Or.inl ((AsyncOpCounter.asyncOpStart_shutdown _).trans hs)
    · exact Or.inr hs

/-- Only `revoke()` issues WritesDone, and only here. -/
theorem stream_step (hact : c.act a = some (c', o)) (ha : a ≠ .revokeReadsDrained) :
    ∃ l, c'.stream = c.stream ++ l ∧ .writesDone ∉ l := by
  cases act_cases hact with
  | calls _ hcalls =>
    rcases hcalls.stream with ⟨l, hl, _, hno⟩
    exact ⟨l, hl, hno⟩
  | stopped _ hcalls =>
    rcases hcalls.stream with ⟨l, hl, _, hno⟩
    refine ⟨l, ?_, hno⟩
    rw [hl, (cancelTimer_keeps c).2.2.2.1]
  | granted req ok status resp _ hok hst hnone heq =>
    rcases onLeaseGranted_spec c req hok hst hnone with ⟨_, _, hstream, _⟩
    exact ⟨[], by rw [heq, hstream, List.append_nil], by simp⟩
  | barrier => exact absurd rfl ha
  | fires id delay _ heq => exact ⟨[], by simp [heq, timerFires], by simp⟩
  | handled k _ _ heq =>
    subst heq
    cases hend : k.ends c with
    | true => exact ⟨[], by rw [(handle_ends hend).2.1, List.append_nil], by simp⟩
    | false =>
      refine ⟨k.issued c, (handle_goes hend).2.1, ?_⟩
      cases k <;> simp [Completion.issued]

/-- A stream that was not closed for writing has no late Write. -/
theorem noLateWrite_of_open {l : List StreamOp} (h : .writesDone ∉ l) : NoLateWrite l := by
  refine List.pairwise_of_forall_mem_list ?_
  intro a ha b _ heq
  exact absurd (heq ▸ ha) h

/-- Where WritesDone is issued with no timer left, there is no late Write, and the cycle is
over once it is issued. -/
def Closed (c : Session) : Prop := NoLateWrite c.stream ∧ (.writesDone ∈ c.stream → Over c)

theorem Closed.step (h : Closed c) (hinv : Inv c) (hord : c.Ordered a)
    (hact : c.act a = some (c', o)) : Closed c' := by
  by_cases hdone : .writesDone ∈ c.stream
  · rcases (h.2 hdone).step hact with ⟨hover, l, hl, hno⟩
    refine ⟨?_, fun _ => hover⟩
    rw [hl]
    exact h.1.append hno
  · by_cases ha : a = .revokeReadsDrained
    · subst ha
      rcases act_revokeReadsDrained hact with ⟨hmem, hnone, rfl⟩
      exact ⟨h.1.append (by simp), fun _ => over_onRevokeReads hinv hmem hnone hord⟩
    · rcases stream_step hact ha with ⟨l, hl, hno⟩
      have hopen : .writesDone ∉ c'.stream := by
        rw [hl, List.mem_append]
        simp [hdone, hno]
      exact ⟨noLateWrite_of_open hopen, fun hmem => absurd hmem hopen⟩

/-- A timer that was not canceled can expire, and then it writes. -/
theorem writes_of_live (h : ¬ Silenced c) : ∃ c', machine.Run Any c c' ∧ ¬ Writeless c c' := by
  rcases not_or.mp h with ⟨hopen, hlive⟩
  obtain ⟨op, hmem, hop⟩ : ∃ op ∈ c.pending, op.isLive = true := by
    by_contra hnone
    refine hlive fun op hmem => ?_
    by_contra hop
    exact hnone ⟨op, hmem, by simpa using hop⟩
  obtain ⟨id, delay, state, rfl, hstate⟩ : ∃ id delay state,
      op = .timer id delay state ∧ state ≠ .canceled := by
    cases op with
    | timer id delay state =>
      refine ⟨id, delay, state, rfl, ?_⟩
      rintro rfl
      cases hop
    | write id => cases hop
    | read => cases hop
  let k : Completion := .timer id delay state true
  have hwf : k.WellFormed := hstate
  have hstep : machine.step c (.complete k) = some (c.handle k) := by
    show (c.act (.complete k)).map Prod.fst = _
    simp only [act, if_pos (show k.op ∈ c.pending ∧ k.WellFormed from ⟨hmem, hwf⟩)]
    rfl
  refine ⟨c.handle k, .single (.complete k) trivial hstep, ?_⟩
  rintro ⟨l, hl, hno⟩
  have hend : k.ends c = false := by simpa [k, Completion.ends] using hopen
  rw [(handle_goes hend).2.1, List.append_cancel_left_eq] at hl
  exact hno c.leaseId (hl ▸ List.mem_singleton.mpr rfl)

/-- In runs in which WritesDone is issued only when no timer can start a Write any more, no
Write is issued after it. Wherever WritesDone is issued, no Write follows in any run if
and only if this is so. -/
theorem revoke_barrier (c : Session) :
    (machine.Reachable Ordered c → NoLateWrite c.stream) ∧
    ∀ c', machine.Reachable Any c → machine.step c .revokeReadsDrained = some c' →
      ((∀ d, machine.Run Any c' d → Writeless c' d) ↔ Silenced c) := by
  constructor
  · intro hc
    have hclosed : Closed c := by
      refine hc.invariant_of (fun c => inv) ?_ ?_
      · rintro _ ⟨desiredTtl, leaseId, rfl⟩
        exact ⟨List.Pairwise.nil, fun hmem => by cases hmem⟩
      · intro c a c' hinv ih hord hstep
        rcases Option.map_eq_some_iff.mp hstep with ⟨⟨d, o⟩, hact, rfl⟩
        exact ih.step hinv hord hact
    exact hclosed.1
  · intro c' hc hstep
    rcases Option.map_eq_some_iff.mp hstep with ⟨⟨d, o⟩, hact, rfl⟩
    rcases act_revokeReadsDrained hact with ⟨hmem, hnone, rfl⟩
    constructor
    · intro hall
      by_contra hs
      have hs' : ¬ Silenced c.onRevokeReads := by
        unfold Silenced
        rw [show c.onRevokeReads.ops.shutdown = c.ops.shutdown from
          AsyncOpCounter.asyncOpStart_shutdown _]
        exact hs
      rcases writes_of_live hs' with ⟨d, hrun, hwrites⟩
      exact hwrites (hall d hrun)
    · intro hs d hrun
      exact ((over_onRevokeReads (inv hc) hmem hnone hs).run hrun).2

/-- `revoke()`, up to WritesDone. -/
def revokeActs : List Act :=
  [.revoke, .revokeLease, .leaseRevoked 1000 true {}, .revokeReadsDrained]

/-- The timer is canceled in time: the stream is closed, and nothing can be written. -/
theorem revoke_barrier_canceled :
    (∃ c, machine.Reachable Ordered c ∧ .writesDone ∈ c.stream ∧ NoLateWrite c.stream) ∧
    ∃ c c', machine.Reachable Any c ∧ machine.step c .revokeReadsDrained = some c' ∧
      ∀ d, machine.Run Any c' d → Writeless c' d := by
  constructor
  · rcases reachable_of_execIf machine (fun c a => decide (c.Ordered a)) (init 5000 0)
      (constructActs 5 ++ revokeActs) (fun c => decide (.writesDone ∈ c.stream))
      (fun _ _ => of_decide_eq_true) ⟨_, _, rfl⟩ (by decide) with ⟨c, hreach, hcheck⟩
    exact ⟨c, hreach, of_decide_eq_true hcheck, (revoke_barrier c).1 hreach⟩
  · rcases reachable_of_exec machine (init 5000 0)
      (constructActs 5 ++ [.revoke, .revokeLease, .leaseRevoked 1000 true {}])
      (fun c => decide (Silenced c) && (machine.step c .revokeReadsDrained).isSome)
      ⟨_, _, rfl⟩ (by decide) with ⟨c, hreach, hcheck⟩
    simp only [Bool.and_eq_true, decide_eq_true_eq] at hcheck
    rcases Option.isSome_iff_exists.mp hcheck.2 with ⟨c', hstep⟩
    exact ⟨c, c', hreach, hstep, ((revoke_barrier c).2 c' hreach hstep).mpr hcheck.1⟩

/-- The timer has expired when `revoke()` cancels it, and its handler runs only after
WritesDone was issued. -/
theorem write_after_writesDone : ∃ c, machine.Reachable Any c ∧
    c.stream = [.writesDone, .write 1000] ∧ ¬ NoLateWrite c.stream := by
  rcases reachable_of_exec machine (init 5000 0)
    (constructActs 5 ++ [.timerFires 0 1000] ++ revokeActs ++
      [.complete (.timer 0 1000 .fired true)])
    (fun c => decide (c.stream = [.writesDone, .write 1000]))
    ⟨_, _, rfl⟩ (by decide) with ⟨c, hreach, hcheck⟩
  have hstream := of_decide_eq_true hcheck
  refine ⟨c, hreach, hstream, ?_⟩
  rw [hstream]
  intro hno
  exact (List.pairwise_cons.mp hno).1 (.write 1000) (by simp) rfl 1000 rfl

end GeeH.Session
