import GeeH.Session.Cycle

/-!
# GeeH.Session.Lease — the session and the lease that it refreshes

The server keeps a lease until its TTL has passed since it last served the
session: it granted the lease, or it read a keep-alive. The session waits a fifth
of the TTL between the response to a keep-alive and the next one. The time is in
milliseconds; a timer does not expire early, and everything may come late.

How late is a matter of three bounds (`Delays`): from the deadline of the timer to
the Write, from the Write to the server, and from the server back to the end of
the Read. The lease holds in every run that keeps these bounds exactly if they add
up to less than the four fifths of the TTL that are left.
-/

namespace GeeH.Session

open Machine

/-- A lease of the server; the TTL is in seconds. -/
structure Lease where
  id : UInt64
  ttl : Int
  /-- When it expires, unless it is refreshed. -/
  expires : Int
deriving DecidableEq

/-- The lease that is granted, or refreshed, at a time. -/
def Lease.from (id : UInt64) (ttl now : Int) : Lease where
  id := id
  ttl := ttl
  expires := now + ttl * 1000

/-- A session, the server's side of its lease and the KeepAlive stream between them. -/
structure Leased where
  session : Session
  now : Int := 0
  lease : Option Lease := none
  /-- How the server has answered LeaseGrant. -/
  answer : Option LeaseGrantResponse := none
  /-- The keep-alives that the server has not read yet. -/
  requests : List UInt64 := []
  /-- The TTLs that the session has not read yet. -/
  responses : List Int := []
  /-- Ghost: when the last timer was set. -/
  setAt : Int := 0
  /-- Ghost: when the last keep-alive was written. -/
  writtenAt : Int := 0
  /-- Ghost: when the server granted or refreshed the lease, or refused to. -/
  servedAt : Int := 0
deriving DecidableEq

namespace Leased

variable (s : Leased)

/-- Time passes. -/
def advance (n : Nat) : Leased := { s with now := s.now + n }

/-- The server grants the lease, or reports an error. -/
def serveGrant (resp : LeaseGrantResponse) : Leased :=
  { s with
    answer := some resp
    lease := if resp.error = [] then some (.from resp.id resp.ttl s.now) else s.lease
    servedAt := s.now }

/-- The lease that a keep-alive refreshes: one that has not expired. -/
def refreshable (id : UInt64) : Option Lease :=
  s.lease.filter fun l => decide (l.id = id ∧ s.now < l.expires)

/-- The server reads a keep-alive and answers it with the TTL, or with 0. -/
def serveKeepAlive (id : UInt64) : Leased :=
  match s.refreshable id with
  | some l =>
    { s with
      requests := s.requests.tail
      lease := some (.from l.id l.ttl s.now)
      responses := s.responses ++ [l.ttl]
      servedAt := s.now }
  | none =>
    { s with
      requests := s.requests.tail
      responses := s.responses ++ [0]
      servedAt := s.now }

/-- The keep-alive that was written, if one was. -/
def keepAlive : StreamOp → Option UInt64
  | .write id => some id
  | _ => none

/-- The keep-alives that a step of the session wrote. -/
def written (c c' : Session) : List UInt64 := (c'.stream.drop c.stream.length).filterMap keepAlive

/-- What a step of the session has read. -/
def unread : Session.Act → List Int → List Int
  | .complete (.read true _), l => l.tail
  | _, l => l

/-- A step of the session, to `c'`. -/
def after (a : Session.Act) (c' : Session) : Leased :=
  { s with
    session := c'
    requests := s.requests ++ written s.session c'
    responses := unread a s.responses
    setAt := if c'.timers = s.session.timers then s.setAt else s.now
    writtenAt := if written s.session c' = [] then s.writtenAt else s.now }

/-- The steps that a session can take: a timer expires at its deadline or later, and what is
received was sent. -/
def Ready : Session.Act → Prop
  | .leaseGranted _ ok status resp => ok = true → status.ok = true → s.answer = some resp
  | .timerFires _ delay => s.setAt + delay ≤ s.now
  | .complete (.timer _ delay _ ok) => ok = true → s.setAt + delay ≤ s.now
  | .complete (.read ok ttl) => ok = true → s.responses.head? = some ttl
  | _ => True

instance : DecidablePred s.Ready
  | .leaseGranted _ ok status resp =>
    inferInstanceAs (Decidable (ok = true → status.ok = true → s.answer = some resp))
  | .timerFires _ delay => inferInstanceAs (Decidable (s.setAt + delay ≤ s.now))
  | .complete (.timer _ delay _ ok) =>
    inferInstanceAs (Decidable (ok = true → s.setAt + delay ≤ s.now))
  | .complete (.read ok ttl) =>
    inferInstanceAs (Decidable (ok = true → s.responses.head? = some ttl))
  | .complete (.write _ _) | .streamCreated _ | .revoke | .revokeLease | .leaseRevoked _ _ _
  | .revokeReadsDrained | .writesDone _ | .finished _ _ | .revokeOpsDrained | .destroy
  | .shutdownReadsDrained _ | .shutdownOpsDrained _ => .isTrue trivial

inductive Act where
  | advance (n : Nat)
  | serveGrant (request : LeaseGrantRequest) (response : LeaseGrantResponse)
  | serveKeepAlive
  /-- The lease expires, and the server deletes what is attached to it. -/
  | expire
  | session (a : Session.Act)
deriving DecidableEq

/-- One step of the session, the server or the time. -/
def act : Act → Option Leased
  | .advance n => some (s.advance n)
  | .serveGrant request response =>
    if .leaseGrant request ∈ s.session.calls ∧ s.answer = none then some (s.serveGrant response)
    else none
  | .serveKeepAlive =>
    match s.requests with
    | [] => none
    | id :: _ => some (s.serveKeepAlive id)
  | .expire =>
    if s.lease.any fun l => decide (l.expires ≤ s.now) then some { s with lease := none } else none
  | .session a =>
    if s.Ready a then (s.session.act a).map fun r => s.after a r.1 else none

/-- The machine of a session and its lease. -/
def machine : Machine Leased Act where
  Init s := ∃ desiredTtl leaseId, s = { session := Session.init desiredTtl leaseId }
  step := act

/-- What a step does. -/
inductive Step (s : Leased) : Act → Leased → Prop where
  | advance (n : Nat) : Step s (.advance n) (s.advance n)
  | serveGrant (request : LeaseGrantRequest) (response : LeaseGrantResponse)
      (hmem : .leaseGrant request ∈ s.session.calls) (hnone : s.answer = none) :
      Step s (.serveGrant request response) (s.serveGrant response)
  | serveKeepAlive (id : UInt64) (rest : List UInt64) (hreq : s.requests = id :: rest) :
      Step s .serveKeepAlive (s.serveKeepAlive id)
  | expire (l : Lease) (hlease : s.lease = some l) (hexp : l.expires ≤ s.now) :
      Step s .expire { s with lease := none }
  | session (a : Session.Act) (c' : Session) (o : Outcome) (hready : s.Ready a)
      (hact : s.session.act a = some (c', o)) : Step s (.session a) (s.after a c')

theorem step_cases {s s' : Leased} {a : Act} (h : s.act a = some s') : Step s a s' := by
  cases a with
  | advance n =>
    cases h
    exact .advance n
  | serveGrant request response =>
    simp only [act] at h
    split at h
    · rename_i hcond
      cases h
      exact .serveGrant request response hcond.1 hcond.2
    · cases h
  | serveKeepAlive =>
    simp only [act] at h
    split at h
    · cases h
    · rename_i id rest hreq
      cases h
      exact .serveKeepAlive id rest hreq
  | expire =>
    simp only [act] at h
    split at h
    · rename_i hany
      cases h
      rcases (Option.any_eq_true _ _).mp hany with ⟨l, hl, hexp⟩
      exact .expire l hl (of_decide_eq_true hexp)
    · cases h
  | session a =>
    simp only [act] at h
    split at h
    · rename_i hready
      rcases Option.map_eq_some_iff.mp h with ⟨⟨c', o⟩, hact, rfl⟩
      exact .session a c' o hready hact
    · cases h

/-! ## Delays -/

/-- How late things come, at most. -/
structure Delays where
  /-- From the deadline of the timer to the Write. -/
  timer : Nat
  /-- From the Write to the server. -/
  request : Nat
  /-- From the server to the end of the Read, or of LeaseGrant. -/
  response : Nat

/-- The timer has not been due for too long, at the time `t`. -/
def Due (d : Delays) (t : Int) : Op → Prop
  | .timer _ delay _ => t ≤ s.setAt + delay + d.timer
  | _ => True

instance (d : Delays) (t : Int) : DecidablePred (s.Due d t)
  | .timer _ delay _ => inferInstanceAs (Decidable (t ≤ s.setAt + delay + d.timer))
  | .write _ | .read => inferInstanceAs (Decidable True)

/-- Nothing is late, at the time `t`. -/
structure OnTime (d : Delays) (t : Int) : Prop where
  grant : s.answer.isSome = true → (∃ call ∈ s.session.calls, call.isPreamble = true) →
    t ≤ s.servedAt + d.response
  timer : ∀ op ∈ s.session.pending, s.Due d t op
  request : s.requests ≠ [] → t ≤ s.writtenAt + d.request
  response : s.responses ≠ [] → t ≤ s.servedAt + d.response

instance (d : Delays) (t : Int) : Decidable (s.OnTime d t) :=
  have : Decidable (∃ call ∈ s.session.calls, call.isPreamble = true) :=
    Multiset.decidableExistsMultiset
  have : Decidable (∀ op ∈ s.session.pending, s.Due d t op) :=
    Multiset.decidableForallMultiset
  decidable_of_iff ((s.answer.isSome = true →
      (∃ call ∈ s.session.calls, call.isPreamble = true) → t ≤ s.servedAt + d.response) ∧
    (∀ op ∈ s.session.pending, s.Due d t op) ∧
    (s.requests ≠ [] → t ≤ s.writtenAt + d.request) ∧
    (s.responses ≠ [] → t ≤ s.servedAt + d.response))
    ⟨fun ⟨h₁, h₂, h₃, h₄⟩ => ⟨h₁, h₂, h₃, h₄⟩, fun h => ⟨h.grant, h.timer, h.request, h.response⟩⟩

/-- The steps of a session that is served in time, and neither revoked nor destroyed, with a
lease of the TTL `ttl`. -/
def InTime (d : Delays) (ttl : Int) (s : Leased) : Act → Prop
  | .advance n => s.OnTime d (s.now + n)
  | .serveGrant _ response => response.error = [] → response.ttl = ttl
  | .session a => s.session.Undisturbed a
  | _ => True

instance (d : Delays) (ttl : Int) (s : Leased) : DecidablePred (s.InTime d ttl)
  | .advance n => inferInstanceAs (Decidable (s.OnTime d (s.now + n)))
  | .serveGrant _ response => inferInstanceAs (Decidable (response.error = [] → response.ttl = ttl))
  | .session a => inferInstanceAs (Decidable (s.session.Undisturbed a))
  | .serveKeepAlive | .expire => inferInstanceAs (Decidable True)

/-- The session holds its lease. -/
structure Holds : Prop where
  active : s.session.isActive = true
  lease : ∃ l, s.lease = some l ∧ l.id = s.session.leaseId ∧ s.now < l.expires

theorem serveKeepAlive_keeps (id : UInt64) : (s.serveKeepAlive id).session = s.session ∧
    (s.serveKeepAlive id).now = s.now ∧ (s.serveKeepAlive id).requests = s.requests.tail := by
  unfold serveKeepAlive
  split <;> exact ⟨rfl, rfl, rfl⟩

/-! ## What a step of the session sends -/

theorem written_of_stream {c c' : Session} {l : List StreamOp} (h : c'.stream = c.stream ++ l) :
    written c c' = l.filterMap keepAlive := by
  rw [written, h, List.drop_left]

theorem written_nothing {c c' : Session} (h : c'.stream = c.stream) : written c c' = [] :=
  written_of_stream (l := []) (by rw [h, List.append_nil])

/-- `shutdown()` of a session that waits for nothing. -/
theorem shutdown_silent {c : Session} (exn : Option Exn) (hpend : c.pending = 0)
    (hcalls : c.calls = 0) :
    (c.shutdown exn).1.constructed = c.constructed ∧ (c.shutdown exn).1.pending = 0 ∧
    written c (c.shutdown exn).1 = [] ∧
    ∀ call ∈ (c.shutdown exn).1.calls, call.isPreamble = false := by
  have htimer : c.cancelTimer.pending = 0 := by
    unfold cancelTimer
    split <;> simp [hpend]
  rcases cancelTimer_keeps c with ⟨_, _, hcalls', hstream, _, hcon, hka⟩
  unfold Session.shutdown
  split
  · exact ⟨rfl, hpend, written_nothing rfl, by simp [hcalls]⟩
  · refine ⟨hcon, htimer, ?_, ?_⟩
    · cases hstreams : c.cancelTimer.kaStream with
      | false => exact written_nothing (by simp [hstreams, hstream])
      | true => exact written_of_stream (l := [.tryCancel]) (by simp [hstreams, hstream])
    · intro call hmem
      have hmem' : call ∈ Call.shutdownReads exn ::ₘ c.cancelTimer.calls := hmem
      rw [hcalls', hcalls] at hmem'
      rw [Multiset.mem_singleton.mp hmem']
      rfl

/-- A session that turns undisturbed waits for its timers, Writes and Reads only. -/
theorem turning_act {c c' : Session} {a : Session.Act} {o : Outcome} (hturn : Turning c)
    (hcon : c.constructed = true) (hok : c.Undisturbed a) (hact : c.act a = some (c', o)) :
    (∃ id delay, a = .timerFires id delay ∧ .timer id delay .armed ∈ c.pending ∧
      c' = c.timerFires id delay) ∨
    ∃ k : Completion, a = .complete k ∧ k.op ∈ c.pending ∧ k.WellFormed ∧ c' = c.handle k := by
  have hcalls := (hturn.turns hcon).1
  cases a with
  | timerFires id delay =>
    obtain ⟨hmem, rfl⟩ := of_guard hact
    exact .inl ⟨id, delay, rfl, hmem, rfl⟩
  | complete k =>
    rcases act_complete hact with ⟨hmem, hwf, rfl⟩
    exact .inr ⟨k, rfl, hmem, hwf, rfl⟩
  | revoke => exact hok.elim
  | destroy => exact hok.elim
  | _ => simp [Session.act, hcalls] at hact

/-! ## The phases of the cycle -/

variable {s}
variable {s' : Leased} {a : Act} {d : Delays} {ttl : Int}

/-- No lease was granted to a call that waits for one. -/
def Ungranted (answer : Option LeaseGrantResponse) : Call → Prop
  | .createStream => answer = none
  | .leaseGrant _ => ∀ resp, answer = some resp → resp.error ≠ []
  | _ => True

theorem ungranted_of_later {answer : Option LeaseGrantResponse} {call : Call}
    (h : call.isPreamble = false) : Ungranted answer call := by
  cases call with
  | createStream => cases h
  | leaseGrant req => cases h
  | _ => trivial

/-- The lease of a session that was constructed, as the server knows it. -/
structure Tenant (ttl : Int) (s : Leased) : Prop where
  built : s.session.constructed = true
  timer : s.session.currentTimer.isSome = true
  lease : s.lease = some (.from s.session.leaseId ttl s.servedAt)

/-- Where the keep-alive cycle stands, and how late it is. -/
inductive Cycle (d : Delays) (ttl : Int) (s : Leased) : Prop where
  /-- The timer is set. -/
  | waiting (id : Nat) (state : TimerState) (hstate : state ≠ .canceled)
      (hpend : s.session.pending = {.timer id (ttl * 200) state})
      (hreq : s.requests = []) (hresp : s.responses = [])
      (hset : s.setAt ≤ s.servedAt + d.response)
      (hnow : s.now ≤ s.setAt + ttl * 200 + d.timer)
  /-- A keep-alive is on its way. -/
  | asking (op : Op) (hpend : s.session.pending = {op})
      (hop : op = .write s.session.leaseId ∨ op = .read)
      (hreq : s.requests = [s.session.leaseId]) (hresp : s.responses = [])
      (hwritten : s.writtenAt ≤ s.servedAt + d.response + ttl * 200 + d.timer)
      (hnow : s.now ≤ s.writtenAt + d.request)
  /-- The response is on its way. -/
  | answered (op : Op) (hpend : s.session.pending = {op})
      (hop : op = .write s.session.leaseId ∨ op = .read)
      (hreq : s.requests = []) (hresp : s.responses = [ttl])
      (hnow : s.now ≤ s.servedAt + d.response)

/-- Where a session that is served in time stands. -/
inductive Phase (d : Delays) (ttl : Int) (s : Leased) : Prop where
  /-- Nothing was granted yet, or the constructor failed. -/
  | outside (hcon : s.session.constructed = false) (hpend : s.session.pending = 0)
      (hcalls : ∀ call ∈ s.session.calls, Ungranted s.answer call)
      (hreq : s.requests = []) (hresp : s.responses = [])
  /-- The response to LeaseGrant is on its way. -/
  | granted (req : LeaseGrantRequest) (resp : LeaseGrantResponse)
      (hmem : .leaseGrant req ∈ s.session.calls) (hans : s.answer = some resp)
      (hnone : resp.error = []) (hlease : s.lease = some (.from resp.id ttl s.servedAt))
      (httl : resp.ttl = ttl) (hreq : s.requests = []) (hresp : s.responses = [])
      (hnow : s.now ≤ s.servedAt + d.response)
  | turning (h : Tenant ttl s) (hcycle : Cycle d ttl s)

/-- The delays leave room for the next refresh. -/
def Roomy (d : Delays) (ttl : Int) : Prop :=
  (d.timer + d.request + d.response : Int) < ttl * 1000 - (ttl * 1000).tdiv keepAlivesPerTtl

instance (d : Delays) (ttl : Int) : Decidable (Roomy d ttl) := inferInstanceAs (Decidable (_ < _))

theorem delay_eq (ttl : Int) : (ttl * 1000).tdiv keepAlivesPerTtl = ttl * 200 := by
  rw [show ttl * 1000 = ttl * 200 * keepAlivesPerTtl by rw [keepAlivesPerTtl]; omega]
  exact Int.mul_tdiv_cancel _ (by decide)

theorem roomy_iff : Roomy d ttl ↔ (d.timer + d.request + d.response : Int) < ttl * 800 := by
  rw [Roomy, delay_eq]
  constructor <;> intro h <;> omega

theorem Tenant.holds (h : Tenant ttl s) (hturn : Turning s.session)
    (hnow : s.now < s.servedAt + ttl * 1000) : s.Holds where
  active := by
    rw [isActive, h.timer, (hturn.turns h.built).2.1]
    rfl
  lease := ⟨_, h.lease, rfl, hnow⟩

theorem Cycle.before (h : Cycle d ttl s) (hroom : Roomy d ttl) :
    s.now < s.servedAt + ttl * 1000 := by
  rw [roomy_iff] at hroom
  cases h with
  | waiting _ _ _ _ _ _ hset hnow => omega
  | asking _ _ _ _ _ hwritten hnow => omega
  | answered _ _ _ _ _ hnow => omega

theorem Phase.tenant (h : Phase d ttl s) (hturn : Turning s.session)
    (hcon : s.session.constructed = true) : Tenant ttl s ∧ Cycle d ttl s := by
  cases h with
  | outside hcon' => cases hcon.symm.trans hcon'
  | granted req resp hmem =>
    rw [(hturn.turns hcon).1] at hmem
    exact absurd hmem (Multiset.notMem_zero _)
  | turning h hcycle => exact ⟨h, hcycle⟩

theorem Phase.holds (h : Phase d ttl s) (hturn : Turning s.session) (hroom : Roomy d ttl)
    (hcon : s.session.constructed = true) : s.Holds := by
  rcases h.tenant hturn hcon with ⟨htenant, hcycle⟩
  exact htenant.holds hturn (hcycle.before hroom)

/-! ## Steps before the constructor returns -/

/-- A step of a session after which its constructor has not returned, or never will. -/
theorem Phase.of_unconstructed {a : Session.Act} {c' : Session} (hcon : c'.constructed = false)
    (hpend : c'.pending = 0) (hwritten : written s.session c' = [])
    (hread : ∀ ttl, a ≠ .complete (.read true ttl))
    (hcalls : ∀ call ∈ c'.calls, Ungranted s.answer call)
    (hreq : s.requests = []) (hresp : s.responses = []) : Phase d ttl (s.after a c') := by
  refine .outside hcon hpend hcalls ?_ ?_
  · simp [after, hreq, hwritten]
  · have hunread : unread a s.responses = s.responses := by
      unfold unread
      split
      · exact absurd rfl (hread _)
      · rfl
    exact hunread.trans hresp

theorem failed_phase {a : Session.Act} {c : Session} (exn : Option Exn) (hcalls : c.calls = 0)
    (hcon : c.constructed = false) (hpend : c.pending = 0) (hstream : c.stream = s.session.stream)
    (hread : ∀ ttl, a ≠ .complete (.read true ttl))
    (hreq : s.requests = []) (hresp : s.responses = []) :
    Phase d ttl (s.after a (c.shutdown exn).1) := by
  rcases shutdown_silent exn hpend hcalls with ⟨hcon', hpend', hwritten, hlater⟩
  refine .of_unconstructed (hcon'.trans hcon) hpend' ?_ hread ?_ hreq hresp
  · rw [written, ← hstream]
    exact hwritten
  · exact fun call hmem => ungranted_of_later (hlater call hmem)

theorem Phase.streamCreated (hcalls : s.session.calls = {.createStream})
    (hcon : s.session.constructed = false) (hpend : s.session.pending = 0)
    (hans : s.answer = none) (hreq : s.requests = []) (hresp : s.responses = []) (ok : Bool) :
    Phase d ttl (s.after (.streamCreated ok) (s.session.onStreamCreated ok).1) := by
  have herase : s.session.calls.erase .createStream = 0 := by simp [hcalls]
  cases ok with
  | false => exact failed_phase _ herase hcon hpend rfl nofun hreq hresp
  | true =>
    refine .of_unconstructed hcon hpend (written_nothing rfl) nofun ?_ hreq hresp
    intro call hmem
    have hmem' : call ∈ Call.leaseGrant s.session.grantRequest ::ₘ
      s.session.calls.erase .createStream := hmem
    rw [herase] at hmem'
    rw [Multiset.mem_singleton.mp hmem']
    simp [Ungranted, hans]

/-- The constructor returns, with a timer set. -/
theorem Phase.constructed {req : LeaseGrantRequest} {status : Status} {resp : LeaseGrantResponse}
    (hroom : Roomy d ttl) (hturn : Turning s.session) (hinv : Inv s.session)
    (hmem : .leaseGrant req ∈ s.session.calls) (hst : status.ok = true)
    (hnone : resp.error = []) (hlease : s.lease = some (.from resp.id ttl s.servedAt))
    (httl : resp.ttl = ttl) (hreq : s.requests = []) (hresp : s.responses = [])
    (hnow : s.now ≤ s.servedAt + d.response) :
    Phase d ttl (s.after (.leaseGranted req true status resp)
      (s.session.onLeaseGranted req true status resp).1) := by
  rcases hturn.alone _ hmem rfl with ⟨_, hops, _⟩
  rcases hinv.preamble hmem rfl with ⟨_, hpend⟩
  have hfut : futureError "async rpc cancelled" "session/preamble/lease_grant" true status = none :=
    futureError_eq_none.mpr ⟨rfl, hst⟩
  have hset : (s.session.onLeaseGranted req true status resp).1.pending =
      {.timer s.session.timers (ttl * 200) .armed} ∧
      (s.session.onLeaseGranted req true status resp).1.constructed = true ∧
      (s.session.onLeaseGranted req true status resp).1.currentTimer.isSome = true ∧
      (s.session.onLeaseGranted req true status resp).1.leaseId = resp.id ∧
      (s.session.onLeaseGranted req true status resp).1.timers = s.session.timers + 1 ∧
      (s.session.onLeaseGranted req true status resp).1.stream = s.session.stream := by
    simp [onLeaseGranted, hfut, hnone, Session.granted, setTimer, hops, hpend, httl, delay_eq]
  rcases hset with ⟨hpend', hcon', htimer', hid, htimers, hstream⟩
  have hwritten := written_nothing hstream
  rw [← hid] at hlease
  refine .turning ⟨hcon', htimer', hlease⟩
    (.waiting s.session.timers .armed (by decide) hpend' ?_ hresp ?_ ?_)
  · simp [after, hreq, hwritten]
  · simpa [after, htimers] using hnow
  · have hsetAt : (s.after (.leaseGranted req true status resp)
        (s.session.onLeaseGranted req true status resp).1).setAt = s.now := by
      simp [after, htimers]
    rw [roomy_iff] at hroom
    rw [hsetAt]
    show s.now ≤ _
    omega

theorem Phase.leaseGranted {req : LeaseGrantRequest} {ok : Bool} {status : Status}
    {resp : LeaseGrantResponse} (h : Phase d ttl s) (hroom : Roomy d ttl)
    (hturn : Turning s.session) (hinv : Inv s.session) (hmem : .leaseGrant req ∈ s.session.calls)
    (hready : s.Ready (.leaseGranted req ok status resp)) :
    Phase d ttl (s.after (.leaseGranted req ok status resp)
      (s.session.onLeaseGranted req ok status resp).1) := by
  rcases hturn.alone _ hmem rfl with ⟨hcalls, _, _⟩
  rcases hinv.preamble hmem rfl with ⟨hcon, hpend⟩
  have herase : s.session.calls.erase (.leaseGrant req) = 0 := by simp [hcalls]
  have hread : ∀ value,
      Session.Act.leaseGranted req ok status resp ≠ .complete (.read true value) := by
    intro value h
    cases h
  have hempty : s.requests = [] ∧ s.responses = [] := by
    cases h with
    | outside _ _ _ hreq hresp => exact ⟨hreq, hresp⟩
    | granted _ _ _ _ _ _ _ hreq hresp => exact ⟨hreq, hresp⟩
    | turning h => cases hcon.symm.trans h.built
  rcases hempty with ⟨hreq, hresp⟩
  cases hfut : futureError "async rpc cancelled" "session/preamble/lease_grant" ok status with
  | some e =>
    simp only [onLeaseGranted, hfut]
    exact failed_phase _ herase hcon hpend rfl hread hreq hresp
  | none =>
    rcases futureError_eq_none.mp hfut with ⟨rfl, hst⟩
    have hans : s.answer = some resp := hready rfl hst
    by_cases hnone : resp.error = []
    · cases h with
      | outside _ _ hungranted => exact absurd hnone (hungranted _ hmem resp hans)
      | granted req' resp' hmem' hans' hnone' hlease httl _ _ hnow =>
        obtain rfl : resp' = resp := Option.some.inj (hans'.symm.trans hans)
        exact .constructed hroom hturn hinv hmem hst hnone hlease httl hreq hresp hnow
      | turning h => cases hcon.symm.trans h.built
    · simp only [onLeaseGranted, hfut, ne_eq, hnone, not_false_eq_true, if_true]
      exact failed_phase _ herase hcon hpend rfl hread hreq hresp

/-! ## Steps of the cycle -/

theorem Cycle.timerFires {id : Nat} {delay : Int} (h : Cycle d ttl s)
    (hmem : .timer id delay .armed ∈ s.session.pending) :
    Cycle d ttl (s.after (.timerFires id delay) (s.session.timerFires id delay)) := by
  have hwritten : written s.session (s.session.timerFires id delay) = [] := written_nothing rfl
  cases h with
  | waiting id' state hstate hpend hreq hresp hset hnow =>
    rw [hpend] at hmem
    cases Multiset.mem_singleton.mp hmem
    refine .waiting id .fired (by decide) ?_ ?_ hresp ?_ ?_
    · simp [after, Session.timerFires, hpend]
    · simp [after, hreq, hwritten]
    · simpa [after, Session.timerFires] using hset
    · simpa [after, Session.timerFires] using hnow
  | asking op hpend hop =>
    rw [hpend] at hmem
    rcases hop with rfl | rfl <;> simp at hmem
  | answered op hpend hop =>
    rw [hpend] at hmem
    rcases hop with rfl | rfl <;> simp at hmem

theorem handle_frame {c : Session} {k : Completion} (hend : k.ends c = false) :
    (c.handle k).leaseId = c.leaseId ∧
    (c.handle k).timers = c.timers + k.op.isRead.toNat := by
  cases k with
  | timer id delay state ok =>
    simp only [Completion.ends, Bool.or_eq_false_iff, Bool.not_eq_false'] at hend
    simp [handle, enter, asyncOpDone, body, onTimeout, hend, Completion.op, Op.isRead]
  | write id ok =>
    simp only [Completion.ends, Bool.or_eq_false_iff, Bool.not_eq_false'] at hend
    simp [handle, enter, asyncOpDone, body, onWrite, hend, Completion.op, Op.isRead]
  | read ok ttl =>
    simp only [Completion.ends, Bool.or_eq_false_iff, Bool.not_eq_false'] at hend
    simp [handle, enter, asyncOpDone, body, onRead, setTimer, hend, Completion.op, Op.isRead]

theorem Undisturbed.goes {c : Session} {k : Completion} (hok : c.Undisturbed (.complete k))
    (hturn : Turning c) (hcon : c.constructed = true) : k.ends c = false := by
  rcases hturn.turns hcon with ⟨_, hops, hreads, _⟩
  cases k with
  | timer id delay state ok => simp [Completion.ends, show ok = true from hok, hops]
  | write id ok => simp [Completion.ends, show ok = true from hok, hreads]
  | read ok ttl => simp [Completion.ends, show ok = true from hok, hops]

theorem Tenant.handled {k : Completion} (h : Tenant ttl s) (hend : k.ends s.session = false) :
    Tenant ttl (s.after (.complete k) (s.session.handle k)) := by
  rcases handle_goes hend with ⟨_, _, htimer, _, _, _, _, hcon⟩
  refine ⟨hcon.trans h.built, ?_, ?_⟩
  · show (s.session.handle k).currentTimer.isSome = true
    rw [htimer]
    cases k with
    | read ok ttl => rfl
    | _ => exact h.timer
  · show s.lease = some (.from (s.session.handle k).leaseId ttl s.servedAt)
    rw [(handle_frame hend).1]
    exact h.lease

/-- The timer has expired: a keep-alive is written. -/
theorem Cycle.expired {id : Nat} {delay : Int} {state : TimerState} {ok : Bool}
    (h : Cycle d ttl s) (hend : Completion.ends s.session (.timer id delay state ok) = false)
    (hmem : .timer id delay state ∈ s.session.pending) :
    Cycle d ttl (s.after (.complete (.timer id delay state ok))
      (s.session.handle (.timer id delay state ok))) := by
  rcases handle_goes hend with ⟨hpend', hstream', _⟩
  have hid := (handle_frame hend).1
  have hwritten : written s.session (s.session.handle (.timer id delay state ok)) =
      [s.session.leaseId] := written_of_stream hstream'
  cases h with
  | waiting id' state' hstate hpend hreq hresp hset hnow =>
    rw [hpend] at hmem
    cases Multiset.mem_singleton.mp hmem
    refine .asking (.write s.session.leaseId) ?_ ?_ ?_ hresp ?_ ?_
    · simp [after, hpend', hpend, Completion.op, Completion.next]
    · simp [after, hid]
    · simp [after, hid, hreq, hwritten]
    · simp only [after, hwritten, List.cons_ne_self, if_false]
      omega
    · simp [after, hwritten]
  | asking op hpend hop =>
    rw [hpend] at hmem
    rcases hop with rfl | rfl <;> simp at hmem
  | answered op hpend hop =>
    rw [hpend] at hmem
    rcases hop with rfl | rfl <;> simp at hmem

/-- The Write has completed: the response is awaited, if it was not sent already. -/
theorem Cycle.wrote {id : UInt64} {ok : Bool} (h : Cycle d ttl s)
    (hend : Completion.ends s.session (.write id ok) = false)
    (hmem : .write id ∈ s.session.pending) :
    Cycle d ttl (s.after (.complete (.write id ok)) (s.session.handle (.write id ok))) := by
  rcases handle_goes hend with ⟨hpend', hstream', _⟩
  have hid := (handle_frame hend).1
  have hwritten : written s.session (s.session.handle (.write id ok)) = [] :=
    written_of_stream hstream'
  cases h with
  | waiting id' state' hstate hpend =>
    rw [hpend] at hmem
    simp at hmem
  | asking op hpend hop hreq hresp hw hnow =>
    rw [hpend] at hmem
    cases Multiset.mem_singleton.mp hmem
    refine .asking .read ?_ (.inr rfl) ?_ hresp ?_ ?_
    · simp [after, hpend', hpend, Completion.op, Completion.next]
    · simp [after, hid, hreq, hwritten]
    · simpa [after, hwritten] using hw
    · simpa [after, hwritten] using hnow
  | answered op hpend hop hreq hresp hnow =>
    rw [hpend] at hmem
    cases Multiset.mem_singleton.mp hmem
    refine .answered .read ?_ (.inr rfl) ?_ hresp hnow
    · simp [after, hpend', hpend, Completion.op, Completion.next]
    · simp [after, hreq, hwritten]

/-- The response was read: the next timer is set. -/
theorem Cycle.received {ok : Bool} {value : Int} (h : Cycle d ttl s) (hroom : Roomy d ttl)
    (hend : Completion.ends s.session (.read ok value) = false)
    (hmem : .read ∈ s.session.pending) (hready : s.Ready (.complete (.read ok value))) :
    Cycle d ttl (s.after (.complete (.read ok value)) (s.session.handle (.read ok value))) := by
  rcases handle_goes hend with ⟨hpend', hstream', _⟩
  have htimers : (s.session.handle (.read ok value)).timers = s.session.timers + 1 :=
    (handle_frame hend).2
  have hwritten : written s.session (s.session.handle (.read ok value)) = [] :=
    written_of_stream hstream'
  have hok : ok = true := by simp_all [Completion.ends]
  have hhead : s.responses.head? = some value := hready hok
  subst hok
  cases h with
  | waiting id' state' hstate hpend =>
    rw [hpend] at hmem
    simp at hmem
  | asking op hpend hop hreq hresp hw hnow => simp [hresp] at hhead
  | answered op hpend hop hreq hresp hnow =>
    rw [hpend] at hmem
    cases Multiset.mem_singleton.mp hmem
    obtain rfl : ttl = value := by simpa [hresp] using hhead
    rw [roomy_iff] at hroom
    refine .waiting s.session.timers .armed (by decide) ?_ ?_ ?_ ?_ ?_
    · simp [after, hpend', hpend, Completion.op, Completion.next, delay_eq]
    · simp [after, hreq, hwritten]
    · simp [after, hresp, unread]
    · simpa [after, htimers] using hnow
    · simp [after, htimers]
      omega

theorem Cycle.handled {k : Completion} (h : Cycle d ttl s) (hroom : Roomy d ttl)
    (hend : k.ends s.session = false) (hmem : k.op ∈ s.session.pending)
    (hready : s.Ready (.complete k)) :
    Cycle d ttl (s.after (.complete k) (s.session.handle k)) := by
  cases k with
  | timer id delay state ok => exact h.expired hend hmem
  | write id ok => exact h.wrote hend hmem
  | read ok value => exact h.received hroom hend hmem hready

/-! ## Whole runs -/

/-- What holds of a session that is served in time. -/
structure Served (d : Delays) (ttl : Int) (s : Leased) : Prop where
  inv : Inv s.session
  turning : Turning s.session
  phase : Phase d ttl s

theorem init_served (d : Delays) (ttl desiredTtl : Int) (leaseId : UInt64) :
    Served d ttl { session := Session.init desiredTtl leaseId } where
  inv := init_inv desiredTtl leaseId
  turning := init_turning desiredTtl leaseId
  phase := by
    refine .outside rfl rfl ?_ rfl rfl
    intro call hmem
    rw [Multiset.mem_singleton.mp hmem]
    rfl

/-- Time passes, and nothing gets late. -/
theorem Phase.advance (h : Phase d ttl s) {n : Nat} (hok : s.OnTime d (s.now + n)) :
    Phase d ttl (s.advance n) := by
  cases h with
  | outside hcon hpend hcalls hreq hresp => exact .outside hcon hpend hcalls hreq hresp
  | granted req resp hmem hans hnone hlease httl hreq hresp _ =>
    refine .granted req resp hmem hans hnone hlease httl hreq hresp ?_
    exact hok.grant (by simp [hans]) ⟨_, hmem, rfl⟩
  | turning h hcycle =>
    refine .turning ⟨h.built, h.timer, h.lease⟩ ?_
    cases hcycle with
    | waiting id state hstate hpend hreq hresp hset _ =>
      refine .waiting id state hstate hpend hreq hresp hset ?_
      exact hok.timer (.timer id (ttl * 200) state) (by simp [hpend])
    | asking op hpend hop hreq hresp hwritten _ =>
      refine .asking op hpend hop hreq hresp hwritten ?_
      exact hok.request (by simp [hreq])
    | answered op hpend hop hreq hresp _ =>
      refine .answered op hpend hop hreq hresp ?_
      exact hok.response (by simp [hresp])

/-- The server answers LeaseGrant. -/
theorem Served.grant (h : Served d ttl s) {req : LeaseGrantRequest} {resp : LeaseGrantResponse}
    (hmem : .leaseGrant req ∈ s.session.calls) (hans : s.answer = none)
    (httl : resp.error = [] → resp.ttl = ttl) : Phase d ttl (s.serveGrant resp) := by
  rcases h.turning.alone _ hmem rfl with ⟨hcalls, _, _⟩
  rcases h.inv.preamble hmem rfl with ⟨hcon, hpend⟩
  cases h.phase with
  | outside _ _ _ hreq hresp =>
    by_cases hnone : resp.error = []
    · refine .granted req resp hmem rfl hnone ?_ (httl hnone) hreq hresp ?_
      · simp [serveGrant, hnone, httl hnone]
      · show s.now ≤ s.now + (d.response : Int)
        omega
    · refine .outside hcon hpend ?_ hreq hresp
      intro call hcall
      have hcall' : call ∈ s.session.calls := hcall
      rw [hcalls, Multiset.mem_singleton] at hcall'
      subst hcall'
      rintro resp' hresp'
      obtain rfl : resp = resp' := Option.some.inj hresp'
      exact hnone
  | granted _ _ _ hans' => cases hans.symm.trans hans'
  | turning h => cases hcon.symm.trans h.built

/-- The server reads a keep-alive: the lease is refreshed. -/
theorem Phase.keepAlive (h : Phase d ttl s) (hroom : Roomy d ttl) {id : UInt64} {l : List UInt64}
    (hreq : s.requests = id :: l) : Phase d ttl (s.serveKeepAlive id) := by
  cases h with
  | outside _ _ _ hreq' => cases hreq.symm.trans hreq'
  | granted _ _ _ _ _ _ _ hreq' => cases hreq.symm.trans hreq'
  | turning h hcycle =>
    have hbefore := hcycle.before hroom
    cases hcycle with
    | waiting _ _ _ _ hreq' => cases hreq.symm.trans hreq'
    | answered _ _ _ hreq' => cases hreq.symm.trans hreq'
    | asking op hpend hop hreq' hresp hwritten hnow =>
      cases hreq.symm.trans hreq'
      have hrefresh : s.refreshable s.session.leaseId =
          some (.from s.session.leaseId ttl s.servedAt) := by
        simp [refreshable, h.lease, Lease.from, hbefore]
      have hserve : s.serveKeepAlive s.session.leaseId =
          { s with
            requests := s.requests.tail
            lease := some (.from s.session.leaseId ttl s.now)
            responses := s.responses ++ [ttl]
            servedAt := s.now } := by
        simp [serveKeepAlive, hrefresh, Lease.from]
      rw [hserve]
      refine .turning ⟨h.built, h.timer, rfl⟩ (.answered op hpend hop ?_ ?_ ?_)
      · simp [hreq']
      · simp [hresp]
      · show s.now ≤ s.now + (d.response : Int)
        omega

/-- The lease does not expire before it is refreshed. -/
theorem Served.expire {l : Lease} (h : Served d ttl s) (hroom : Roomy d ttl)
    (hlease : s.lease = some l) (hexp : l.expires ≤ s.now) :
    Phase d ttl { s with lease := none } := by
  cases h.phase with
  | outside hcon hpend hcalls hreq hresp => exact .outside hcon hpend hcalls hreq hresp
  | granted req resp _ _ _ hgranted _ _ _ hnow =>
    rw [roomy_iff] at hroom
    obtain rfl := Option.some.inj (hgranted.symm.trans hlease)
    simp only [Lease.from] at hexp
    omega
  | turning htenant hcycle =>
    have hbefore := hcycle.before hroom
    obtain rfl := Option.some.inj (htenant.lease.symm.trans hlease)
    simp only [Lease.from] at hexp
    omega

/-- `shutdown()` goes on after a constructor that failed. -/
theorem Served.failing (h : Served d ttl s) {a : Session.Act} {c' : Session}
    (hcon : s.session.constructed = false) {old : Call} (hmem : old ∈ s.session.calls)
    (hlater : old.isPreamble = false) (hcon' : c'.constructed = s.session.constructed)
    (hpend : c'.pending = s.session.pending) (hstream : c'.stream = s.session.stream)
    (hread : ∀ ttl, a ≠ .complete (.read true ttl))
    (hcalls : ∀ call ∈ c'.calls, call ∈ s.session.calls ∨ call.isPreamble = false) :
    Phase d ttl (s.after a c') := by
  cases h.phase with
  | outside _ hnone hungranted hreq hresp =>
    refine .of_unconstructed (hcon'.trans hcon) (hpend.trans hnone) (written_nothing hstream)
      hread ?_ hreq hresp
    intro call hcall
    rcases hcalls call hcall with hold | hnew
    · exact hungranted call hold
    · exact ungranted_of_later hnew
  | granted req _ hgrant =>
    rcases h.turning.alone _ hgrant rfl with ⟨halone, _, _⟩
    rw [halone, Multiset.mem_singleton] at hmem
    rw [hmem] at hlater
    cases hlater
  | turning htenant => cases hcon.symm.trans htenant.built

/-- Before the constructor has returned nothing is pending. -/
theorem Served.idle (h : Served d ttl s) (hcon : s.session.constructed = false) :
    s.session.pending = 0 := by
  cases h.phase with
  | outside _ hpend => exact hpend
  | granted _ _ hmem => exact (h.inv.preamble hmem rfl).2
  | turning htenant => cases hcon.symm.trans htenant.built

theorem Served.preamble (h : Served d ttl s) (hroom : Roomy d ttl) {a : Session.Act}
    {c' : Session} {o : Outcome} (hcon : s.session.constructed = false) (hready : s.Ready a)
    (hok : s.session.Undisturbed a) (hact : s.session.act a = some (c', o)) :
    Phase d ttl (s.after a c') := by
  have hidle := h.idle hcon
  have hrevoke : ∀ {call : Call} {P : Prop}, call ∈ s.session.calls → call.isRevoke = true → P :=
    fun hmem hrev => (h.turning.no_revoke h.inv hmem hrev).elim
  cases a with
  | streamCreated ok =>
    obtain ⟨hmem, rfl⟩ := of_guard hact
    rcases h.turning.alone _ hmem rfl with ⟨hcalls, _, _⟩
    cases h.phase with
    | outside _ _ hungranted hreq hresp =>
      exact .streamCreated hcalls hcon hidle (hungranted _ hmem) hreq hresp ok
    | granted req _ hgrant => simp [hcalls] at hgrant
    | turning htenant => cases hcon.symm.trans htenant.built
  | leaseGranted req ok status resp =>
    obtain ⟨hmem, rfl⟩ := of_guard hact
    exact h.phase.leaseGranted hroom h.turning h.inv hmem hready
  | revoke => exact hok.elim
  | destroy => exact hok.elim
  | revokeLease =>
    obtain ⟨hmem, -⟩ := of_guard hact
    exact hrevoke hmem rfl
  | leaseRevoked id ok status =>
    obtain ⟨hmem, -⟩ := of_guard hact
    exact hrevoke hmem rfl
  | revokeReadsDrained =>
    rcases act_revokeReadsDrained hact with ⟨hmem, _, _⟩
    exact hrevoke hmem rfl
  | writesDone ok =>
    obtain ⟨hmem, -⟩ := of_guard hact
    exact hrevoke hmem rfl
  | finished ok status =>
    obtain ⟨hmem, -⟩ := of_guard hact
    exact hrevoke hmem rfl
  | revokeOpsDrained =>
    obtain ⟨hcond, -⟩ := of_guard hact
    exact hrevoke hcond.1 rfl
  | shutdownReadsDrained exn =>
    obtain ⟨hcond, rfl⟩ := of_guard hact
    refine h.failing hcon hcond.1 rfl rfl rfl rfl nofun ?_
    intro call hmem
    have hmem' : call ∈ Call.shutdownOps exn ::ₘ s.session.calls.erase (.shutdownReads exn) := hmem
    rcases Multiset.mem_cons.mp hmem' with rfl | hold
    · exact .inr rfl
    · exact .inl (Multiset.mem_of_mem_erase hold)
  | shutdownOpsDrained exn =>
    obtain ⟨hcond, rfl⟩ := of_guard hact
    exact h.failing hcon hcond.1 rfl rfl rfl rfl nofun
      fun call hmem => .inl (Multiset.mem_of_mem_erase hmem)
  | timerFires id delay =>
    obtain ⟨hmem, -⟩ := of_guard hact
    simp [hidle] at hmem
  | complete k =>
    rcases act_complete hact with ⟨hmem, _, _⟩
    simp [hidle] at hmem

/-- A step of the session. -/
theorem Served.after (h : Served d ttl s) (hroom : Roomy d ttl) {a : Session.Act}
    {c' : Session} {o : Outcome} (hready : s.Ready a) (hok : s.session.Undisturbed a)
    (hact : s.session.act a = some (c', o)) : Phase d ttl (s.after a c') := by
  cases hcon : s.session.constructed with
  | false => exact h.preamble hroom hcon hready hok hact
  | true =>
    rcases h.phase.tenant h.turning hcon with ⟨htenant, hcycle⟩
    rcases turning_act h.turning hcon hok hact with
      ⟨id, delay, rfl, hmem, rfl⟩ | ⟨k, rfl, hmem, _, rfl⟩
    · exact .turning ⟨hcon, htenant.timer, htenant.lease⟩ (hcycle.timerFires hmem)
    · have hend := Undisturbed.goes hok h.turning hcon
      exact .turning (htenant.handled hend) (hcycle.handled hroom hend hmem hready)

theorem Served.step (h : Served d ttl s) (hroom : Roomy d ttl) (hok : InTime d ttl s a)
    (hact : s.act a = some s') : Served d ttl s' := by
  cases step_cases hact with
  | advance n => exact ⟨h.inv, h.turning, h.phase.advance hok⟩
  | serveGrant req resp hmem hnone => exact ⟨h.inv, h.turning, h.grant hmem hnone hok⟩
  | serveKeepAlive id rest hreq =>
    have hsession := (serveKeepAlive_keeps s id).1
    exact ⟨hsession ▸ h.inv, hsession ▸ h.turning, h.phase.keepAlive hroom hreq⟩
  | expire l hlease hexp => exact ⟨h.inv, h.turning, h.expire hroom hlease hexp⟩
  | session a c' o hready hstep =>
    exact ⟨h.inv.step hstep, h.turning.step h.inv hok hstep, h.after hroom hready hok hstep⟩

/-- Once the constructor has returned, it has. -/
theorem Served.built (h : Served d ttl s) (hok : InTime d ttl s a) (hact : s.act a = some s')
    (hcon : s.session.constructed = true) : s'.session.constructed = true := by
  cases step_cases hact with
  | advance n => exact hcon
  | serveGrant req resp hmem hnone => exact hcon
  | serveKeepAlive id rest hreq =>
    rw [(serveKeepAlive_keeps s id).1]
    exact hcon
  | expire l hlease hexp => exact hcon
  | session a c' o hready hstep =>
    rcases turning_act h.turning hcon hok hstep with
      ⟨id, delay, rfl, _, rfl⟩ | ⟨k, rfl, _, _, rfl⟩
    · exact hcon
    · rcases handle_goes (Undisturbed.goes hok h.turning hcon) with ⟨_, _, _, _, _, _, _, hcon'⟩
      exact hcon'.trans hcon

theorem reachable_served (hroom : Roomy d ttl) (h : machine.Reachable (InTime d ttl) s) :
    Served d ttl s := by
  refine h.invariant ?_ ?_
  · rintro _ ⟨desiredTtl, leaseId, rfl⟩
    exact init_served d ttl desiredTtl leaseId
  · exact fun s a s' h hok hstep => h.step hroom hok hstep

/-! ## The cycle goes on -/

/-- How many steps an operation is away from the next wait. -/
def left (s : Leased) : Op → Nat
  | .timer _ delay .armed => if s.setAt + delay ≤ s.now then 7 else 0
  | .timer _ _ _ => 6
  | .write _ => 4 + s.requests.length
  | .read => 2 + s.requests.length

/-- The same of the session. -/
def rank (s : Leased) : Nat := Pool.total s.left s.session.pending

theorem rank_of_pending {op : Op} (h : s.session.pending = {op}) : s.rank = s.left op := by
  rw [rank, h, Pool.total_singleton]

/-- A step of the session, or the server reads a keep-alive. -/
def Act.isCycle : Act → Bool
  | .session _ | .serveKeepAlive => true
  | _ => false

/-- The session moves on at once. -/
structure Moves (d : Delays) (ttl : Int) (s : Leased) (a : Act) (s' : Leased) : Prop where
  cycle : a.isCycle = true
  inTime : InTime d ttl s a
  step : s.act a = some s'
  now : s'.now = s.now
  rank : s'.rank < s.rank

theorem moves_session {a : Session.Act} {c' : Session} {o : Outcome} {op : Op}
    (hready : s.Ready a) (hok : s.session.Undisturbed a) (hact : s.session.act a = some (c', o))
    (hpend : c'.pending = {op}) (hrank : (s.after a c').left op < s.rank) :
    Moves d ttl s (.session a) (s.after a c') where
  cycle := rfl
  inTime := hok
  step := by simp only [act, hready, if_true, hact, Option.map_some]
  now := rfl
  rank := by
    rw [rank_of_pending (s := s.after a c') hpend]
    exact hrank

theorem moves_complete {k : Completion} (hturn : Turning s.session)
    (hcon : s.session.constructed = true) (hpend : s.session.pending = {k.op})
    (hwf : k.WellFormed) (hready : s.Ready (.complete k))
    (hok : s.session.Undisturbed (.complete k))
    (hrank : (s.after (.complete k) (s.session.handle k)).left (k.next s.session) < s.rank) :
    ∃ a s', Moves d ttl s a s' := by
  have hact : s.session.act (.complete k) = some (s.session.handle k, .returned) :=
    if_pos ⟨by rw [hpend]; exact Multiset.mem_singleton_self _, hwf⟩
  have hnext := (handle_goes (Undisturbed.goes hok hturn hcon)).1
  rw [hpend, Multiset.erase_singleton, Multiset.cons_zero] at hnext
  exact ⟨_, _, moves_session hready hok hact hnext hrank⟩

/-- Where the session waits for its deadline, time can pass; otherwise the session moves on at
once. -/
theorem Served.goes_on (h : Served d ttl s) (hroom : Roomy d ttl)
    (hcon : s.session.constructed = true) :
    (∃ n : Nat, 0 < n ∧ s.OnTime d (s.now + n)) ∨ ∃ a s', Moves d ttl s a s' := by
  have hpos : 0 < ttl := by
    rw [roomy_iff] at hroom
    omega
  have hcalls := (h.turning.turns hcon).1
  rcases h.phase.tenant h.turning hcon with ⟨htenant, hcycle⟩
  cases hcycle with
  | waiting id state hstate hpend hreq hresp hset hnow =>
    by_cases hdue : s.setAt + ttl * 200 ≤ s.now
    · right
      cases state with
      | armed =>
        have hact : s.session.act (.timerFires id (ttl * 200)) =
            some (s.session.timerFires id (ttl * 200), .running) :=
          if_pos (by rw [hpend]; exact Multiset.mem_singleton_self _)
        have hfired : (s.session.timerFires id (ttl * 200)).pending =
            {.timer id (ttl * 200) .fired} := by
          rw [Session.timerFires, hpend, Multiset.erase_singleton, Multiset.cons_zero]
        have hready : s.Ready (.timerFires id (ttl * 200)) := hdue
        refine ⟨_, _, moves_session hready trivial hact hfired ?_⟩
        rw [rank_of_pending hpend]
        simp [left, hdue]
      | fired =>
        refine moves_complete (k := .timer id (ttl * 200) .fired true) h.turning hcon hpend hstate
          (fun _ => hdue) rfl ?_
        have hwritten : written s.session (s.session.handle (.timer id (ttl * 200) .fired true)) =
            [s.session.leaseId] := by
          have hok : s.session.Undisturbed (.complete (.timer id (ttl * 200) .fired true)) := rfl
          exact written_of_stream (handle_goes (Undisturbed.goes hok h.turning hcon)).2.1
        rw [rank_of_pending hpend]
        simp [left, Leased.after, Completion.next, hreq, hwritten]
      | canceled => exact absurd rfl hstate
    · left
      have hn : ((s.setAt + ttl * 200 - s.now).toNat : Int) = s.setAt + ttl * 200 - s.now :=
        Int.toNat_of_nonneg (by omega)
      refine ⟨(s.setAt + ttl * 200 - s.now).toNat, by omega, ?_, ?_, absurd hreq, absurd hresp⟩
      · rintro _ ⟨call, hmem, _⟩
        rw [hcalls] at hmem
        exact absurd hmem (Multiset.notMem_zero _)
      · intro op hmem
        rw [hpend] at hmem
        rw [Multiset.mem_singleton.mp hmem]
        show s.now + _ ≤ s.setAt + ttl * 200 + (d.timer : Int)
        omega
  | asking op hpend hop hreq hresp hwritten hnow =>
    rcases serveKeepAlive_keeps s s.session.leaseId with ⟨hsession, hkept, hrest⟩
    rw [hreq, List.tail_cons] at hrest
    refine .inr ⟨.serveKeepAlive, _, rfl, trivial, by simp only [act, hreq], hkept, ?_⟩
    rw [rank_of_pending hpend, rank_of_pending (hsession ▸ hpend)]
    rcases hop with rfl | rfl <;> simp [left, hreq, hrest]
  | answered op hpend hop hreq hresp hnow =>
    right
    rcases hop with rfl | rfl
    · have hok : s.session.Undisturbed (.complete (.write s.session.leaseId true)) := rfl
      have hwritten : written s.session (s.session.handle (.write s.session.leaseId true)) = [] :=
        written_of_stream (handle_goes (Undisturbed.goes hok h.turning hcon)).2.1
      refine moves_complete (k := .write s.session.leaseId true) h.turning hcon hpend trivial
        trivial hok ?_
      rw [rank_of_pending hpend]
      simp [left, Leased.after, Completion.next, hreq, hwritten]
    · have hok : s.session.Undisturbed (.complete (.read true ttl)) := rfl
      have htimers : (s.session.handle (.read true ttl)).timers = s.session.timers + 1 :=
        (handle_frame (Undisturbed.goes hok h.turning hcon)).2
      have hready : s.Ready (.complete (.read true ttl)) := fun _ => by rw [hresp]; rfl
      -- the next deadline is still to come
      have hlater : ¬ ttl * 200 ≤ 0 := by omega
      refine moves_complete (k := .read true ttl) h.turning hcon hpend trivial hready hok ?_
      rw [rank_of_pending hpend]
      simp [left, Leased.after, Completion.next, delay_eq, htimers, hlater]

/-! ## Without room -/

/-- A session whose response to LeaseGrant came as late as it may. -/
def opened (d : Delays) (ttl : Int) : Leased :=
  let c := ((Session.init 0 1).onStreamCreated true).1
  let resp : LeaseGrantResponse := { id := 1, ttl := ttl }
  { session := (c.onLeaseGranted c.grantRequest true {} resp).1
    now := d.response
    lease := some (.from 1 ttl 0)
    answer := some resp
    setAt := d.response }

theorem opened_session (d : Delays) (ttl : Int) :
    (opened d ttl).session.constructed = true ∧ (opened d ttl).session.calls = 0 ∧
    (opened d ttl).session.pending = {.timer 0 (ttl * 200) .armed} ∧
    (opened d ttl).session.ops.shutdown = false := by
  refine ⟨rfl, rfl, ?_, rfl⟩
  show Op.timer 0 ((ttl * 1000).tdiv keepAlivesPerTtl) .armed ::ₘ 0 = _
  rw [delay_eq]
  rfl

theorem opened_reachable (d : Delays) (ttl : Int) :
    machine.Reachable (InTime d ttl) (opened d ttl) := by
  let c := ((Session.init 0 1).onStreamCreated true).1
  let resp : LeaseGrantResponse := { id := 1, ttl := ttl }
  let s₀ : Leased := { session := Session.init 0 1 }
  let s₁ : Leased := { session := c }
  let s₂ : Leased := { s₁ with lease := some (.from 1 ttl 0), answer := some resp }
  let s₃ : Leased := { s₂ with now := d.response }
  have h₁ : machine.Run (InTime d ttl) s₀ s₁ := .single (.session (.streamCreated true)) trivial rfl
  have h₂ : machine.Run (InTime d ttl) s₁ s₂ :=
    .single (.serveGrant c.grantRequest resp) (fun _ => rfl) rfl
  have h₃ : machine.Run (InTime d ttl) s₂ s₃ := by
    refine .single (.advance d.response) ⟨?_, ?_, nofun, nofun⟩ ?_
    · exact fun _ _ => Int.le_refl _
    · exact fun op hmem => absurd hmem (Multiset.notMem_zero _)
    · simp [machine, act, advance, s₃, s₂, s₁]
  have h₄ : machine.Run (InTime d ttl) s₃ (opened d ttl) := by
    refine .single (.session (.leaseGranted c.grantRequest true {} resp)) trivial ?_
    have hready : s₃.Ready (.leaseGranted c.grantRequest true {} resp) := fun _ _ => rfl
    have hstep : s₃.session.act (.leaseGranted c.grantRequest true {} resp) =
        some (c.onLeaseGranted c.grantRequest true {} resp) := rfl
    simp only [machine, act, hready, if_true, hstep]
    rfl
  exact ⟨s₀, ⟨0, 1, rfl⟩, ((h₁.trans h₂).trans h₃).trans h₄⟩

/-- The timer, the keep-alive and the server are as late as they may be. -/
theorem late_reachable (d : Delays) (hpos : 0 < ttl) :
    ∃ s, machine.Reachable (InTime d ttl) s ∧ s.session.constructed = true ∧
      s.lease = some (.from 1 ttl 0) ∧
      s.now = d.response + ttl * 200 + d.timer + d.request := by
  rcases opened_session d ttl with ⟨hcon, hcalls, hpend, hops⟩
  let k : Completion := .timer 0 (ttl * 200) .armed true
  let wait := (ttl * 200 + d.timer).toNat
  have hwait : (wait : Int) = ttl * 200 + d.timer := Int.toNat_of_nonneg (by omega)
  let s₁ : Leased := { opened d ttl with now := (opened d ttl).now + wait }
  let s₂ := s₁.after (.complete k) (s₁.session.handle k)
  let s₃ : Leased := { s₂ with now := s₂.now + d.request }
  have hend : k.ends s₁.session = false := by simp [k, Completion.ends, s₁, hops]
  rcases handle_goes hend with ⟨hpend', hstream', _, _, _, _, hcalls', hcon'⟩
  have hwritten : written s₁.session (s₁.session.handle k) = [s₁.session.leaseId] :=
    written_of_stream hstream'
  have h₁ : machine.Run (InTime d ttl) (opened d ttl) s₁ := by
    refine .single (.advance wait) ⟨?_, ?_, absurd rfl, absurd rfl⟩ rfl
    · rw [hcalls]
      rintro _ ⟨call, hmem, _⟩
      exact absurd hmem (Multiset.notMem_zero _)
    · rw [hpend]
      intro op hmem
      rw [Multiset.mem_singleton.mp hmem]
      show (d.response : Int) + wait ≤ d.response + ttl * 200 + d.timer
      omega
  have h₂ : machine.Run (InTime d ttl) s₁ s₂ := by
    refine .single (.session (.complete k)) rfl ?_
    have hready : s₁.Ready (.complete k) := by
      intro _
      show (d.response : Int) + ttl * 200 ≤ d.response + wait
      omega
    have hstep : s₁.session.act (.complete k) = some (s₁.session.handle k, .returned) := by
      simp [Session.act, s₁, k, hpend, Completion.op, Completion.WellFormed]
    simp only [machine, act, hready, if_true, hstep]
    rfl
  have h₃ : machine.Run (InTime d ttl) s₂ s₃ := by
    refine .single (.advance d.request) ⟨?_, ?_, ?_, absurd rfl⟩ rfl
    · rintro _ ⟨call, hmem, _⟩
      have hmem' : call ∈ (s₁.session.handle k).calls := hmem
      rw [hcalls', show s₁.session.calls = 0 from hcalls] at hmem'
      exact absurd hmem' (Multiset.notMem_zero _)
    · intro op hmem
      have hmem' : op ∈ (s₁.session.handle k).pending := hmem
      rw [hpend', show s₁.session.pending = {k.op} from hpend] at hmem'
      obtain rfl : op = .write s₁.session.leaseId := by simpa [k, Completion.next] using hmem'
      trivial
    · intro _
      have hat : s₂.writtenAt = s₁.now := by simp [s₂, after, hwritten]
      rw [hat]
      exact Int.le_refl _
  refine ⟨s₃, (opened_reachable d ttl).run ((h₁.trans h₂).trans h₃), hcon'.trans hcon, rfl, ?_⟩
  show (d.response : Int) + wait + d.request = _
  omega

/-- The session holds its lease in every run in which it is served in time, exactly if the
delays add up to less than what is left of the TTL when the timer expires. -/
theorem lease_held_iff (d : Delays) (ttl : Int) :
    (∀ s, machine.Reachable (InTime d ttl) s → s.session.constructed = true → s.Holds) ↔
    (d.timer + d.request + d.response : Int) < ttl * 1000 - (ttl * 1000).tdiv keepAlivesPerTtl := by
  constructor
  · intro hall
    by_contra hroom
    rw [← Roomy, roomy_iff] at hroom
    have hexpired : ∃ s, machine.Reachable (InTime d ttl) s ∧ s.session.constructed = true ∧
        s.lease = some (.from 1 ttl 0) ∧ ttl * 1000 ≤ s.now := by
      rcases lt_or_ge 0 ttl with hpos | hneg
      · rcases late_reachable d hpos with ⟨s, hs, hcon, hlease, hnow⟩
        exact ⟨s, hs, hcon, hlease, by omega⟩
      · refine ⟨_, opened_reachable d ttl, (opened_session d ttl).1, rfl, ?_⟩
        show ttl * 1000 ≤ (d.response : Int)
        omega
    rcases hexpired with ⟨s, hs, hcon, hlease, hnow⟩
    rcases (hall s hs hcon).lease with ⟨l, hl, _, hlt⟩
    obtain rfl := Option.some.inj (hlease.symm.trans hl)
    simp only [Lease.from] at hlt
    omega
  · intro hroom s hs hcon
    have h := reachable_served hroom hs
    exact h.phase.holds h.turning hroom hcon

end Leased

end GeeH.Session
