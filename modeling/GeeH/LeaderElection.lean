import GeeH.Candidate.Progress
import GeeH.Session.Steps

/-!
# GeeH.LeaderElection — `gh/leader_election.hpp`

A `leader_election` owns a session and a candidate. Its `resign()` first calls
that of the candidate and then `revoke()` on the session, so that whatever the
first one throws keeps the second from being called.

The machine starts when the constructors have returned. The calls of `revoke()`
are only those of `resign()`, and the destructor is not part of it: no call is
running when it is entered.
-/

namespace GeeH

open Machine

/-- `leader_election`. -/
structure LeaderElection where
  session : Session
  candidate : Candidate
  /-- Ghost: the leases for which LeaseRevoke was requested. -/
  revokes : List UInt64 := []
  /-- Ghost: the calls of `resign()` that have come to `revoke()`, and whether they had found a
  watch stream. -/
  revoking : Multiset Bool := 0
deriving DecidableEq

namespace LeaderElection

variable (s : LeaderElection)

/-- The steps of `revoke()`. -/
def isRevoke : Session.Act → Bool
  | .revokeLease | .leaseRevoked _ _ _ | .revokeReadsDrained | .writesDone _ | .finished _ _
  | .revokeOpsDrained => true
  | .streamCreated _ | .leaseGranted _ _ _ _ | .revoke | .destroy | .shutdownReadsDrained _
  | .shutdownOpsDrained _ | .timerFires _ _ | .complete _ => false

/-- What can happen to a leader election. -/
inductive Act where
  | resign
  /-- A step of the candidate, other than a call of its `resign()`. -/
  | candidate (a : Candidate.Act)
  /-- A step of the session that is not one of `revoke()`. -/
  | session (a : Session.Act)
  /-- A step of `revoke()`. -/
  | revoke (found : Bool) (a : Session.Act)
deriving DecidableEq

/-- `resign()`, after the candidate has resigned: `session_->revoke()`. -/
def revoke (found : Bool) : LeaderElection × Outcome :=
  match s.session.revoke with
  | (session, .running) =>
    ({ s with session := session, revoking := found ::ₘ s.revoking }, .running)
  | (session, o) => ({ s with session := session }, o)

/-- `resign()`, up to its first blocking point. -/
def resign : LeaderElection × Outcome :=
  match s.candidate.resign with
  | (c, .returned) => { s with candidate := c }.revoke false
  | (c, o) => ({ s with candidate := c }, o)

/-- A step of the candidate. Where its `resign()` returns, `revoke()` comes next. -/
def onCandidate (a : Candidate.Act) (r : Candidate × Outcome) : LeaderElection × Outcome :=
  match a, r with
  | .finished _, (c, .returned) => { s with candidate := c }.revoke true
  | _, (c, o) => ({ s with candidate := c }, o)

/-- One step of a leader election. -/
def act : Act → Option (LeaderElection × Outcome)
  | .resign => some s.resign
  | .candidate a =>
    if a = .resign ∨ a = .destroy then none else (s.candidate.act a).map (s.onCandidate a)
  | .session a =>
    if a = .revoke ∨ a = .destroy ∨ isRevoke a then none
    else (s.session.act a).map fun r => ({ s with session := r.1 }, r.2)
  | .revoke found a =>
    if isRevoke a ∧ found ∈ s.revoking then
      (s.session.act a).map fun r =>
        ({ s with
          session := r.1
          revokes := if a = .revokeLease then s.revokes ++ [s.session.leaseId] else s.revokes
          revoking := if r.2 = .running then s.revoking else s.revoking.erase found }, r.2)
    else none

/-- A leader election whose constructor has returned. -/
def machine : Machine LeaderElection Act where
  Init s := Session.machine.Reachable Any s.session ∧ s.session.constructed = true ∧
    s.session.ops.shutdown = false ∧ s.session.calls = 0 ∧
    (∃ name value, s.candidate = .init name s.session.leaseId value) ∧
    s.revokes = [] ∧ s.revoking = 0
  step s a := (s.act a).map Prod.fst

/-- The step ends a call of `resign()`, normally or by an exception. -/
def Act.EndsResign (o : Outcome) : Act → Prop
  | .resign | .candidate (.writesDone _) | .candidate (.finished _) | .revoke _ _ => o ≠ .running
  | _ => False

/-- The future of the campaign is resolved, and LeaseRevoke was requested. -/
def Released : Prop :=
  s.candidate.promise.value ≠ none ∧ s.session.leaseId ∈ s.revokes

/-- The call of `resign()` found a watch stream, and the candidate's part of it got through. -/
def Act.Orderly : Act → Prop
  | .candidate (.finished ok) => ok = true
  | .revoke found _ => found = true
  | _ => False

end LeaderElection

/-! ## What the parts keep -/

namespace Candidate

theorem startCampaign_value {c : Candidate} (h : c.startCampaign.1.promise.value = none) :
    c.promise.value = none :=
  queryPredecessor_value h

/-- The future of a campaign keeps its value. -/
theorem act_value {c c' : Candidate} {a : Act} {o : Outcome} (h : c.act a = some (c', o))
    (hv : c'.promise.value = none) : c.promise.value = none := by
  cases act_cases h with
  | quiet _ hq => exact (congrArg CampaignView.value hq.view).symm.trans hv
  | answeredTxn call call' resp _ _ heq =>
    subst heq
    exact hv
  | created req resp ok status _ heq =>
    subst heq
    rcases onNodeCreated_cases (c.unblock (.createNode req (some resp))) resp with
      ⟨_, h⟩ | ⟨kv, _, h⟩ | ⟨kv, _, req', _, h⟩ | h
    · rw [h] at hv
      have hold := startCampaign_value hv
      exact hold
    · rw [h] at hv
      have hold := startCampaign_value hv
      exact hold
    · rw [h] at hv
      exact hv
    · rw [h] at hv
      exact hv
  | republished req resp ok status _ _ heq =>
    subst heq
    have hold := startCampaign_value hv
    exact hold
  | finished _ heq =>
    subst heq
    exact absurd hv (electionResult_value _ _)
  | answeredRange req resp _ heq =>
    subst heq
    exact hv
  | completed k _ _ heq =>
    subst heq
    exact handle_value hv

/-- `Finish` resolves the future, unless it is cancelled. -/
theorem act_finished {c c' : Candidate} {ok : Bool} {o : Outcome}
    (h : c.act (.finished ok) = some (c', o)) :
    (ok = true ∧ o = .returned ∧ c'.promise.value = c.promise.value.or (some false)) ∨
    (ok = false ∧ o ≠ .returned ∧ c'.promise = c.promise) := by
  obtain ⟨-, hres⟩ := Option.ite_none_right_eq_some.mp h
  cases ok with
  | true =>
    cases hres
    exact Or.inl ⟨rfl, rfl, rfl⟩
  | false =>
    cases hres
    exact Or.inr ⟨rfl, by simp, rfl⟩

theorem act_writesDone {c c' : Candidate} {ok : Bool} {o : Outcome}
    (h : c.act (.writesDone ok) = some (c', o)) : c'.promise = c.promise := by
  obtain ⟨-, rfl⟩ := of_guard h
  cases ok <;> rfl

end Candidate

namespace Session

variable {c c' : Session} {a : Act} {o : Outcome}

theorem setTimer_leaseId (c : Session) : c.setTimer.leaseId = c.leaseId := by
  unfold setTimer
  split <;> rfl

theorem handle_leaseId (c : Session) (k : Completion) : (c.handle k).leaseId = c.leaseId := by
  cases k with
  | timer id delay state ok =>
    simp only [handle, body, onTimeout]
    split <;> rfl
  | write leaseId ok =>
    simp only [handle, body, onWrite]
    split <;> rfl
  | read ok ttl =>
    simp only [handle, body, onRead]
    split
    · rfl
    · exact setTimer_leaseId _

theorem handle_calls (c : Session) (k : Completion) :
    (c.handle k).calls = c.calls ∧ (c.handle k).ops.shutdown = c.ops.shutdown := by
  cases hends : k.ends c with
  | true =>
    obtain ⟨-, -, -, -, hops, -, hcalls, -⟩ := handle_ends hends
    exact ⟨hcalls, hops⟩
  | false =>
    obtain ⟨-, -, -, -, hops, -, hcalls, -⟩ := handle_goes hends
    exact ⟨hcalls, hops⟩

/-- A call of `revoke()` has come to LeaseRevoke, while no other call is running. -/
def Begun (c : Session) : Prop := c.ops.shutdown = true ∨ ∃ call ∈ c.calls, call ≠ .revoking

/-- What there is of calls of `revoke()`, while no other call is running. -/
structure Revoking (c c' : Session) : Prop where
  leaseId : c'.leaseId = c.leaseId
  calls : ∀ call ∈ c'.calls, call.isRevoke = true
  begun : Begun c' → Begun c

theorem revoking_of_frame {call : Call} (hmem : call ∈ c.calls) (hne : call ≠ .revoking)
    (hid : c'.leaseId = c.leaseId) (hold : ∀ call ∈ c.calls, call.isRevoke = true)
    (hcalls : ∀ call ∈ c'.calls, call.isRevoke = true ∨ call ∈ c.calls) : Revoking c c' where
  leaseId := hid
  calls call hcall := (hcalls call hcall).elim id (hold call)
  begun _ := Or.inr ⟨call, hmem, hne⟩

theorem isRevoke_replace {call call' call'' : Call} (hcall : call.isRevoke = true)
    (hmem : call' ∈ call ::ₘ c.calls.erase call'') : call'.isRevoke = true ∨ call' ∈ c.calls := by
  rcases Multiset.mem_cons.mp hmem with rfl | hmem
  · exact Or.inl hcall
  · exact Or.inr (Multiset.mem_of_mem_erase hmem)

/-- The last wait of `revoke()` begins, and the call waits or is over. -/
theorem drainOps_frame (c : Session) :
    c.drainOps.1.leaseId = c.leaseId ∧
    ∀ call ∈ c.drainOps.1.calls, call.isRevoke = true ∨ call ∈ c.calls := by
  rcases c.drainOps_cases with ⟨_, heq⟩ | ⟨_, heq⟩
  · rw [heq]
    exact ⟨rfl, fun call hcall => Or.inr hcall⟩
  · rw [heq]
    refine ⟨rfl, fun call hcall => ?_⟩
    rcases Multiset.mem_cons.mp hcall with rfl | hold
    · exact Or.inl rfl
    · exact Or.inr hold

/-- Where the only calls are those of `revoke()`, a step other than a call keeps it so. -/
theorem act_revoking (h : c.act a = some (c', o)) (hrev : a ≠ .revoke) (hlease : a ≠ .revokeLease)
    (hdes : a ≠ .destroy) (hcalls : ∀ call ∈ c.calls, call.isRevoke = true) : Revoking c c' := by
  cases a with
  | streamCreated ok =>
    obtain ⟨hmem, -⟩ := of_guard h
    cases hcalls _ hmem
  | leaseGranted request ok status response =>
    obtain ⟨hmem, -⟩ := of_guard h
    cases hcalls _ hmem
  | revoke => exact absurd rfl hrev
  | revokeLease => exact absurd rfl hlease
  | leaseRevoked leaseId ok status =>
    obtain ⟨hmem, rfl⟩ := of_guard h
    have hdrain := drainOps_frame
      { c with ops := c.ops.asyncOpDone, calls := c.calls.erase (.leaseRevoke leaseId) }
    refine revoking_of_frame hmem (by simp) ?_ hcalls ?_
    · simp only [onLeaseRevoked]
      split
      · rfl
      · split
        · rfl
        · exact hdrain.1
    · intro call hcall
      simp only [onLeaseRevoked] at hcall
      split at hcall
      · exact Or.inr (Multiset.mem_of_mem_erase hcall)
      · split at hcall
        · exact isRevoke_replace rfl hcall
        · exact (hdrain.2 call hcall).imp id Multiset.mem_of_mem_erase
  | revokeReadsDrained =>
    obtain ⟨⟨hmem, -⟩, rfl⟩ := of_guard h
    exact revoking_of_frame hmem (by simp) rfl hcalls fun call hcall => isRevoke_replace rfl hcall
  | writesDone ok =>
    obtain ⟨hmem, rfl⟩ := of_guard h
    refine revoking_of_frame hmem (by simp) ?_ hcalls ?_
    · simp only [onWritesDone]
      split <;> rfl
    · intro call hcall
      simp only [onWritesDone] at hcall
      split at hcall
      · exact Or.inr (Multiset.mem_of_mem_erase hcall)
      · exact isRevoke_replace rfl hcall
  | finished ok status =>
    obtain ⟨hmem, rfl⟩ := of_guard h
    have hdrain := drainOps_frame
      { c with ops := c.ops.asyncOpDone.asyncOpDone, calls := c.calls.erase .finish }
    refine revoking_of_frame hmem (by simp) ?_ hcalls ?_
    · simp only [onFinished]
      split
      · rfl
      · split
        · rfl
        · exact hdrain.1
    · intro call hcall
      simp only [onFinished] at hcall
      split at hcall
      · exact Or.inr (Multiset.mem_of_mem_erase hcall)
      · split at hcall
        · exact Or.inr (Multiset.mem_of_mem_erase hcall)
        · exact (hdrain.2 call hcall).imp id Multiset.mem_of_mem_erase
  | revokeOpsDrained =>
    obtain ⟨⟨hmem, -⟩, rfl⟩ := of_guard h
    exact revoking_of_frame hmem (by simp) rfl hcalls fun call hcall =>
      Or.inr (Multiset.mem_of_mem_erase hcall)
  | destroy => exact absurd rfl hdes
  | shutdownReadsDrained exn =>
    obtain ⟨⟨hmem, -⟩, -⟩ := of_guard h
    cases hcalls _ hmem
  | shutdownOpsDrained exn =>
    obtain ⟨⟨hmem, -⟩, -⟩ := of_guard h
    cases hcalls _ hmem
  | timerFires id delay =>
    obtain ⟨-, rfl⟩ := of_guard h
    exact ⟨rfl, hcalls, fun hbegun => hbegun⟩
  | complete k =>
    obtain ⟨-, rfl⟩ := of_guard h
    obtain ⟨heq, hops⟩ := handle_calls c k
    refine ⟨handle_leaseId c k, ?_, ?_⟩
    · rwa [heq]
    · unfold Begun
      rw [heq, hops]
      exact id

end Session

namespace LeaderElection

variable {s s' : LeaderElection} {a : Act} {o : Outcome}

/-- A step of `revoke()` from LeaseRevoke on needs a call of it that has come there. -/
theorem begun_of_isRevoke {c c' : Session} {b : Session.Act} (hb : isRevoke b = true)
    (hlease : b ≠ .revokeLease) (h : c.act b = some (c', o)) : c.Begun := by
  have hframe : ∃ call ∈ c.calls, call ≠ .revoking := by
    cases b with
    | revokeLease => exact absurd rfl hlease
    | leaseRevoked leaseId ok status => exact ⟨_, (of_guard h).1, by simp⟩
    | revokeReadsDrained => exact ⟨_, (of_guard h).1.1, by simp⟩
    | writesDone ok => exact ⟨_, (of_guard h).1, by simp⟩
    | finished ok status => exact ⟨_, (of_guard h).1, by simp⟩
    | revokeOpsDrained => exact ⟨_, (of_guard h).1.1, by simp⟩
    | _ => cases hb
  exact Or.inr hframe

/-- LeaseRevoke was requested before a `revoke()` can be past it or be over, and a call of
`resign()` that found a stream has resolved the future when it comes to `revoke()`. -/
structure Inv (s : LeaderElection) : Prop where
  candidate : s.candidate.Inv
  calls : ∀ call ∈ s.session.calls, call.isRevoke = true
  requested : s.session.Begun → s.session.leaseId ∈ s.revokes
  resolved : true ∈ s.revoking → s.candidate.promise.value ≠ none

/-! ## Steps -/

/-- `revoke()` returns at once where the session is shut down, and otherwise goes on to
LeaseRevoke. -/
theorem revoke_cases (s : LeaderElection) (found : Bool) :
    (s.session.ops.shutdown = true ∧ s.revoke found = (s, .returned)) ∨
    ∃ session : Session, s.revoke found =
        ({ s with session := session, revoking := found ::ₘ s.revoking }, .running) ∧
      session.leaseId = s.session.leaseId ∧ session.ops = s.session.ops ∧
      session.calls = .revoking ::ₘ s.session.calls := by
  cases hops : s.session.ops.shutdown with
  | true =>
    left
    simp [revoke, Session.revoke, hops]
  | false =>
    right
    obtain ⟨hkeep, -, hcalls, -⟩ := s.session.cancelTimer_keeps
    have hid : s.session.cancelTimer.leaseId = s.session.leaseId := by
      unfold Session.cancelTimer
      split <;> rfl
    refine ⟨s.session.revoke.1, ?_, ?_, ?_, ?_⟩
    · simp [revoke, Session.revoke, hops]
    · simp [Session.revoke, hops, hid]
    · simp [Session.revoke, hops, hkeep]
    · simp [Session.revoke, hops, hcalls]

theorem onCandidate_cases (s : LeaderElection) (b : Candidate.Act) (r : Candidate × Outcome) :
    ((∃ ok, b = .finished ok) ∧ r.2 = .returned ∧
      s.onCandidate b r = { s with candidate := r.1 }.revoke true) ∨
    (s.onCandidate b r = ({ s with candidate := r.1 }, r.2) ∧
      ∀ ok, b = .finished ok → r.2 ≠ .returned) := by
  obtain ⟨c, o⟩ := r
  cases b with
  | finished ok =>
    cases o with
    | returned => exact Or.inl ⟨⟨ok, rfl⟩, rfl, rfl⟩
    | running => exact Or.inr ⟨rfl, fun _ _ => by simp⟩
    | threw x => exact Or.inr ⟨rfl, fun _ _ => by simp⟩
  | _ => exact Or.inr ⟨rfl, fun _ hb => by cases hb⟩

/-- The candidate's part of `resign()` leaves the promise alone before it blocks. -/
theorem resign_cases (s : LeaderElection) :
    ∃ c, Candidate.Quiet s.candidate c ∧ c.promise = s.candidate.promise ∧
      (s.resign = { s with candidate := c }.revoke false ∨
        ∃ o, s.resign = ({ s with candidate := c }, o)) := by
  have hpromise : s.candidate.resign.1.promise = s.candidate.promise := by
    unfold Candidate.resign
    split
    · rfl
    · dsimp only
      split <;> rfl
  have hquiet : Candidate.Quiet s.candidate s.candidate.resign.1 := Candidate.quiet_resign
  unfold resign
  generalize s.candidate.resign = r at hpromise hquiet ⊢
  obtain ⟨c, o⟩ := r
  refine ⟨c, hquiet, hpromise, ?_⟩
  cases o with
  | returned => exact Or.inl rfl
  | running => exact Or.inr ⟨_, rfl⟩
  | threw x => exact Or.inr ⟨_, rfl⟩

section Preserved

variable (h : s.Inv)
include h

theorem Inv.withCandidate {c : Candidate} (hc : c.Inv)
    (hvalue : c.promise.value = none → s.candidate.promise.value = none) :
    Inv { s with candidate := c } where
  candidate := hc
  calls := h.calls
  requested := h.requested
  resolved hmem := mt hvalue (h.resolved hmem)

theorem Inv.revoke {found : Bool} (hfound : found = true → s.candidate.promise.value ≠ none) :
    Inv (s.revoke found).1 := by
  rcases s.revoke_cases found with ⟨-, heq⟩ | ⟨session, heq, hid, hops, hcalls⟩
  · rw [heq]
    exact h
  · rw [heq]
    refine ⟨h.candidate, ?_, ?_, ?_⟩
    · intro call hcall
      simp only [hcalls] at hcall
      rcases Multiset.mem_cons.mp hcall with rfl | hcall
      · rfl
      · exact h.calls call hcall
    · rintro (hshut | ⟨call, hcall, hne⟩)
      · rw [hid]
        exact h.requested (Or.inl (hops ▸ hshut))
      · rw [hid]
        rw [hcalls] at hcall
        rcases Multiset.mem_cons.mp hcall with heq' | hold
        · exact absurd heq' hne
        · exact h.requested (Or.inr ⟨call, hold, hne⟩)
    · intro hmem
      rcases Multiset.mem_cons.mp hmem with heq' | hmem
      · exact hfound heq'.symm
      · exact h.resolved hmem

theorem Inv.resign : Inv s.resign.1 := by
  obtain ⟨c, hquiet, hpromise, hres⟩ := s.resign_cases
  have hc : Inv { s with candidate := c } :=
    h.withCandidate (hquiet.inv h.candidate) (by simp [hpromise])
  rcases hres with heq | ⟨o, heq⟩
  · rw [heq]
    exact hc.revoke (by simp)
  · rw [heq]
    exact hc

theorem Inv.session {b : Session.Act} {c : Session}
    (hb : b ≠ .revoke ∧ b ≠ .revokeLease ∧ b ≠ .destroy)
    (hact : s.session.act b = some (c, o)) {tags : Multiset Bool} (htags : tags ≤ s.revoking) :
    Inv { s with session := c, revoking := tags } := by
  have hrev := Session.act_revoking hact hb.1 hb.2.1 hb.2.2 h.calls
  refine ⟨h.candidate, hrev.calls, ?_, ?_⟩
  · intro hbegun
    rw [hrev.leaseId]
    exact h.requested (hrev.begun hbegun)
  · intro hmem
    exact h.resolved (Multiset.mem_of_le htags hmem)

/-- `revoke()` requests LeaseRevoke. -/
theorem Inv.revokeLease : Inv { s with
    session := s.session.revokeLease
    revokes := s.revokes ++ [s.session.leaseId] } where
  candidate := h.candidate
  calls call hcall := (Session.isRevoke_replace rfl hcall).elim id (h.calls call)
  requested _ := by simp [Session.revokeLease]
  resolved := h.resolved

theorem Inv.step (hact : s.act a = some (s', o)) : Inv s' := by
  cases a with
  | resign =>
    have heq : s' = s.resign.1 := by rw [Option.some.inj hact]
    rw [heq]
    exact h.resign
  | candidate b =>
    obtain ⟨-, hmap⟩ := Option.ite_none_left_eq_some.mp hact
    obtain ⟨⟨c, o'⟩, hb, heq⟩ := Option.map_eq_some_iff.mp hmap
    have hc : Inv { s with candidate := c } :=
      h.withCandidate (Candidate.step_inv hb h.candidate) (Candidate.act_value hb)
    rcases s.onCandidate_cases b (c, o') with ⟨⟨ok, rfl⟩, hret, heq'⟩ | ⟨heq', -⟩
    · rw [heq'] at heq
      have hs' : s' = ({ s with candidate := c }.revoke true).1 := by rw [heq]
      rw [hs']
      -- the candidate's part has resolved the future before it returns
      refine hc.revoke fun _ => ?_
      rcases Candidate.act_finished hb with ⟨-, -, hvalue⟩ | ⟨-, hne, -⟩
      · simp [hvalue]
      · exact absurd hret hne
    · rw [heq'] at heq
      cases heq
      exact hc
  | session b =>
    obtain ⟨hb, hmap⟩ := Option.ite_none_left_eq_some.mp hact
    obtain ⟨⟨c, o'⟩, hb', heq⟩ := Option.map_eq_some_iff.mp hmap
    cases heq
    refine h.session ⟨fun h' => hb (Or.inl h'), ?_, fun h' => hb (Or.inr (Or.inl h'))⟩ hb' le_rfl
    rintro rfl
    exact hb (Or.inr (Or.inr rfl))
  | revoke found b =>
    obtain ⟨⟨hb, -⟩, hmap⟩ := Option.ite_none_right_eq_some.mp hact
    obtain ⟨⟨c, o'⟩, hb', heq⟩ := Option.map_eq_some_iff.mp hmap
    cases heq
    by_cases hlease : b = .revokeLease
    · subst hlease
      obtain ⟨-, hres⟩ := Option.ite_none_right_eq_some.mp hb'
      cases hres
      simpa using h.revokeLease
    · rw [if_neg hlease]
      refine h.session ⟨?_, hlease, ?_⟩ hb' ?_
      · rintro rfl
        cases hb
      · rintro rfl
        cases hb
      · split
        · exact le_rfl
        · exact Multiset.erase_le _ _

end Preserved

theorem inv_of_reachable (hs : machine.Reachable Any s) : Inv s := by
  refine hs.invariant ?_ ?_
  · rintro s ⟨-, -, hops, hcalls, ⟨name, value, hc⟩, -, hrevoking⟩
    refine ⟨?_, by simp [hcalls], by simp [Session.Begun, hops, hcalls], by simp [hrevoking]⟩
    rw [hc]
    exact Candidate.init_inv _ _ _
  · intro s a s' h _ hstep
    obtain ⟨⟨t, o⟩, hact, rfl⟩ := Option.map_eq_some_iff.mp hstep
    exact h.step hact

/-! ## The end of `resign()` -/

/-- A step that changes neither the future nor the requests releases nothing. -/
theorem released_congr (hvalue : s'.candidate.promise = s.candidate.promise)
    (hid : s'.session.leaseId = s.session.leaseId) (hrevokes : s'.revokes = s.revokes) :
    s'.Released ↔ s.Released := by
  rw [Released, Released, hvalue, hid, hrevokes]

/-- What the end of a call of `resign()` does: it releases everything if the call was orderly, and
otherwise nothing. -/
def Ends (s s' : LeaderElection) (a : Act) : Prop :=
  (s'.Released ↔ a.Orderly ∨ s.Released) ∧
  (s'.candidate.promise.value = s.candidate.promise.value ∨
    s'.candidate.promise.value = s.candidate.promise.value.or (some false))

theorem ends_nothing (ha : ¬ a.Orderly) (hpromise : s'.candidate.promise = s.candidate.promise)
    (hid : s'.session.leaseId = s.session.leaseId) (hrevokes : s'.revokes = s.revokes) :
    Ends s s' a := by
  refine ⟨?_, Or.inl (congrArg Promise.value hpromise)⟩
  rw [or_iff_right ha]
  exact released_congr hpromise hid hrevokes

/-- There is no watch stream, and the session is shut down. -/
theorem ends_resign (hact : s.act .resign = some (s', o)) (ho : o ≠ .running) :
    Ends s s' .resign := by
  -- a call without a stream goes on to `revoke()`, or the candidate's part throws
  obtain ⟨c, -, hpromise, hres⟩ := s.resign_cases
  have hs' : some s.resign = some (s', o) := hact
  rcases hres with heq | ⟨o', heq⟩
  · rcases revoke_cases { s with candidate := c } false with ⟨-, heq'⟩ | ⟨session, heq', -⟩
    · rw [heq, heq'] at hs'
      cases hs'
      exact ends_nothing id hpromise rfl rfl
    · rw [heq, heq'] at hs'
      cases hs'
      exact absurd rfl ho
  · rw [heq] at hs'
    cases hs'
    exact ends_nothing id hpromise rfl rfl

/-- The candidate's part throws, or it is over and the session is shut down. -/
theorem Inv.ends_candidate {b : Candidate.Act} (h : s.Inv)
    (hact : s.act (.candidate b) = some (s', o)) (hend : (Act.candidate b).EndsResign o) :
    Ends s s' (.candidate b) := by
  obtain ⟨-, hmap⟩ := Option.ite_none_left_eq_some.mp hact
  obtain ⟨⟨c, o'⟩, hb, heq⟩ := Option.map_eq_some_iff.mp hmap
  rcases s.onCandidate_cases b (c, o') with ⟨⟨ok, rfl⟩, hret, heq'⟩ | ⟨heq', hne⟩
  · rcases Candidate.act_finished hb with ⟨rfl, -, hvalue⟩ | ⟨-, hne, -⟩
    · rw [heq'] at heq
      rcases revoke_cases { s with candidate := c } true with ⟨hops, heq''⟩ | ⟨session, heq'', -⟩
      · -- the lease was revoked before
        rw [heq''] at heq
        cases heq
        have hrel : Released { s with candidate := c } :=
          ⟨by simp [hvalue], h.requested (Or.inl hops)⟩
        exact ⟨iff_of_true hrel (Or.inl rfl), Or.inr hvalue⟩
      · rw [heq''] at heq
        cases heq
        exact absurd rfl hend
    · exact absurd hret hne
  · rw [heq'] at heq
    cases heq
    cases b with
    | writesDone ok => exact ends_nothing id (Candidate.act_writesDone hb) rfl rfl
    | finished ok =>
      rcases Candidate.act_finished hb with ⟨rfl, hret, -⟩ | ⟨rfl, -, hsame⟩
      -- `Finish` was not ok: the candidate throws before it comes to the future
      · exact absurd hret (hne true rfl)
      · exact ends_nothing (by simp [Act.Orderly]) hsame rfl rfl
    | _ => cases hend

/-- `revoke()` ends, which has requested LeaseRevoke. -/
theorem Inv.ends_revoke {found : Bool} {b : Session.Act} (h : s.Inv)
    (hact : s.act (.revoke found b) = some (s', o)) (hend : o ≠ .running) :
    Ends s s' (.revoke found b) := by
  obtain ⟨⟨hb, hmem⟩, hmap⟩ := Option.ite_none_right_eq_some.mp hact
  obtain ⟨⟨c, o'⟩, hb', heq⟩ := Option.map_eq_some_iff.mp hmap
  cases heq
  -- the request itself ends nothing
  have hlease : b ≠ .revokeLease := by
    rintro rfl
    obtain ⟨-, hres⟩ := Option.ite_none_right_eq_some.mp hb'
    cases hres
    exact hend rfl
  -- no step of `revoke()` changes the lease
  have hid : c.leaseId = s.session.leaseId := by
    refine (Session.act_revoking hb' ?_ hlease ?_ h.calls).leaseId
    · rintro rfl
      cases hb
    · rintro rfl
      cases hb
  rw [if_neg hlease]
  cases found with
  -- without a stream nothing was resolved on the way here
  | false => exact ends_nothing (by simp [Act.Orderly]) rfl hid rfl
  | true =>
    refine ⟨iff_of_true ⟨h.resolved hmem, ?_⟩ (Or.inl rfl), Or.inl rfl⟩
    dsimp only
    rw [hid]
    exact h.requested (begun_of_isRevoke hb hlease hb')

/-- When a call of `resign()` ends, the future is resolved and LeaseRevoke was requested if and only
if the call found a watch stream and got through the candidate's part, or both were so before. The
call resolves the future to false or not at all, and one that is made once `campaign()` has
returned finds a stream. -/
theorem resign_releases_iff (s s' : LeaderElection) (a : Act) (o : Outcome)
    (hs : machine.Reachable Any s) (hact : s.act a = some (s', o)) (hend : a.EndsResign o) :
    (s'.Released ↔ a.Orderly ∨ s.Released) ∧
    (s'.candidate.promise.value = s.candidate.promise.value ∨
      s'.candidate.promise.value = s.candidate.promise.value.or (some false)) ∧
    (s.candidate.campaigned = true → s.candidate.watcherStream = true) := by
  have h := inv_of_reachable hs
  have hends : Ends s s' a := by
    cases a with
    | resign => exact ends_resign hact hend
    | candidate b => exact h.ends_candidate hact hend
    | session b => cases hend
    | revoke found b => exact h.ends_revoke hact hend
  exact ⟨hends.1, hends.2, h.candidate.stream⟩

/-- A session of lease 1 that was just constructed. -/
def grantedSession : Session :=
  (Session.machine.exec (.init 5000 0) [.streamCreated true,
    .leaseGranted { ttl := 5, id := 0 } true {} { id := 1, ttl := 5 }]).getD (.init 5000 0)

theorem grantedSession_reachable : Session.machine.Reachable Any grantedSession := by
  have hexec : Session.machine.exec (.init 5000 0) [.streamCreated true,
      .leaseGranted { ttl := 5, id := 0 } true {} { id := 1, ttl := 5 }] =
      some grantedSession := by decide
  exact ⟨_, ⟨_, _, rfl⟩, run_of_exec hexec⟩

/-- A leader election with that session. -/
def granted : LeaderElection where
  session := grantedSession
  candidate := .init [] 1 []

theorem granted_init : machine.Init granted :=
  ⟨grantedSession_reachable, by decide, by decide, by decide, ⟨_, _, rfl⟩, rfl, rfl⟩

/-- A campaign that waits for its query, and a call of `resign()` in `WritesDone`. -/
def resigning : List Act :=
  Candidate.campaignTrace.map .candidate ++
    [.resign, .candidate .cancelsDone, .candidate .readsDone]

/-- The lease cannot be revoked: `resign()` throws, and everything was released. -/
theorem resign_releases_unrevoked : ∃ s s' x, machine.Reachable Any s ∧
    s.act (.revoke true (.leaseRevoked 1 true { errorCode := 14 })) = some (s', .threw x) ∧
    s'.Released := by
  let a : Act := .revoke true (.leaseRevoked 1 true { errorCode := 14 })
  let x : Exn := .grpcError "session/revoke/lease_revoke" { errorCode := 14 }
  rcases reachable_of_exec machine granted
    (resigning ++ [.candidate (.writesDone true), .candidate (.finished true),
      .revoke true .revokeLease])
    (fun s => (s.act a).any fun r : LeaderElection × Outcome => decide (r.2 = .threw x))
    granted_init (by decide) with ⟨s, hreach, hcheck⟩
  obtain ⟨⟨s', o⟩, hact, ho⟩ := Option.any_eq_true _ _ |>.mp hcheck
  obtain rfl : o = .threw x := of_decide_eq_true ho
  refine ⟨s, s', x, hreach, hact, ?_⟩
  exact (resign_releases_iff s s' a _ hreach hact (by simp [Act.EndsResign, a])).1.mpr (Or.inl rfl)

/-- `WritesDone` is cancelled: `resign()` throws, the future of the campaign is not resolved, and
the lease is kept. -/
theorem resign_keeps_lease : ∃ s s' x, machine.Reachable Any s ∧ s.candidate.campaigned = true ∧
    s.act (.candidate (.writesDone false)) = some (s', .threw x) ∧
    s'.candidate.promise.value = none ∧ s'.revokes = [] := by
  let x : Exn := .runtimeError "async writes done cancelled"
  rcases reachable_of_exec machine granted resigning
    (fun s => s.candidate.campaigned && (s.act (.candidate (.writesDone false))).any
      fun r : LeaderElection × Outcome =>
      decide (r.2 = .threw x ∧ r.1.candidate.promise.value = none ∧ r.1.revokes = []))
    granted_init (by decide) with ⟨s, hreach, hcheck⟩
  obtain ⟨hcampaigned, hany⟩ := (Bool.and_eq_true _ _).mp hcheck
  obtain ⟨⟨s', o⟩, hact, ho⟩ := Option.any_eq_true _ _ |>.mp hany
  obtain ⟨rfl, hvalue, hrevokes⟩ := of_decide_eq_true ho
  exact ⟨s, s', x, hreach, hcampaigned, hact, hvalue, hrevokes⟩

end LeaderElection

end GeeH
