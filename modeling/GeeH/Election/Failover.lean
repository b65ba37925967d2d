import GeeH.Election.Leases
import GeeH.Election.Liveness

/-!
# GeeH.Election.Failover — who waits takes over

A process that is gone does not resign, and neither does one that is cut off from
the server. But the server reads no keep-alives of its session any more, so that
in the end it ends the lease and deletes the node. The candidate that waits behind
it, and whose session is served in time, is elected then, and leads for good.

That needs a clock which does not stop, and a server which, some time later, does
what it has to do when a lease has expired.
-/

namespace GeeH.Session.Leased

open Machine

variable {s s' : Leased} {a : Act}

theorem act_now (hact : s.act a = some s') (ha : ∀ n, a ≠ .advance n) : s'.now = s.now := by
  cases step_cases hact with
  | advance n => exact absurd rfl (ha n)
  | serveGrant req resp hmem hnone => rfl
  | serveKeepAlive id rest hreq => exact (serveKeepAlive_keeps s id).2.1
  | expire l hlease hexp => rfl
  | session a c' o hready hstep => rfl

/-- Without a keep-alive that the server reads, the lease that was granted can only end. -/
theorem act_unread (hact : s.act a = some s') (ha : a ≠ .serveKeepAlive)
    (hans : s.answer.isSome = true) :
    s'.answer = s.answer ∧ (s'.lease = s.lease ∨ s'.lease = none) := by
  cases step_cases hact with
  | advance n => exact ⟨rfl, .inl rfl⟩
  | serveGrant req resp hmem hnone => simp [hnone] at hans
  | serveKeepAlive id rest hreq => exact absurd rfl ha
  | expire l hlease hexp => exact ⟨rfl, .inr rfl⟩
  | session a c' o hready hstep => exact ⟨rfl, .inl rfl⟩

end GeeH.Session.Leased

namespace GeeH.Election.Timed

open Etcd Machine Candidate

universe u

variable {ι : Type u} [DecidableEq ι] {s s' : Timed ι} {i j : ι}

/-! ## Steps of the sessions -/

/-- What a step does to one session. -/
theorem session_step {a : Act ι} (hstep : s.step a = some s') (j : ι) :
    (∃ n, a = .advance n ∧ s'.session j = (s.session j).advance n) ∨
    (∃ b, a = .lease j b ∧ (∀ n, b ≠ .advance n) ∧ (s.session j).act b = some (s'.session j)) ∨
    (∀ n, a ≠ .advance n) ∧ s'.session j = s.session j := by
  cases a with
  | advance n =>
    cases hstep
    exact .inl ⟨n, rfl, rfl⟩
  | lease k b =>
    rcases lease_cases hstep with ⟨hb, l, hact, rfl⟩
    by_cases hjk : j = k
    · subst hjk
      refine .inr (.inl ⟨b, rfl, hb, ?_⟩)
      simpa using hact
    · exact .inr (.inr ⟨(fun _ h => by cases h), Function.update_of_ne hjk ..⟩)
  | election e =>
    rcases election_cases hstep with ⟨_, t, _, rfl⟩
    exact .inr (.inr ⟨(fun _ h => by cases h), rfl⟩)

/-- Time passes for all sessions alike. -/
theorem clocks_agree {allowed : Timed ι → Act ι → Prop} (h : machine.Reachable allowed s)
    (i j : ι) : (s.session i).now = (s.session j).now := by
  refine h.invariant ?_ ?_
  · rintro s ⟨_, hsession⟩
    rcases hsession i with ⟨_, _, hi⟩
    rcases hsession j with ⟨_, _, hj⟩
    rw [hi, hj]
  · intro s a s' heq _ hstep
    have hclock : ∀ k, (∀ n, a ≠ .advance n) → (s'.session k).now = (s.session k).now := by
      intro k ha
      rcases session_step hstep k with ⟨n, rfl, _⟩ | ⟨b, _, hb, hact⟩ | ⟨_, hsame⟩
      · exact absurd rfl (ha n)
      · exact Session.Leased.act_now hact hb
      · rw [hsame]
    by_cases ha : ∃ n, a = .advance n
    · rcases ha with ⟨n, rfl⟩
      cases hstep
      exact congrArg (· + (n : Int)) heq
    · have hno : ∀ n, a ≠ .advance n := fun n h => ha ⟨n, h⟩
      rw [hclock i hno, hclock j hno, heq]

theorem now_mono {a : Act ι} (hstep : s.step a = some s') (j : ι) :
    (s.session j).now ≤ (s'.session j).now := by
  rcases session_step hstep j with ⟨n, _, hnext⟩ | ⟨b, _, hb, hact⟩ | ⟨_, hsame⟩
  · rw [hnext]
    exact Int.le_add_of_nonneg_right (Int.natCast_nonneg n)
  · exact (Session.Leased.act_now hact hb).ge
  · rw [hsame]

theorem expire_lease (hstep : s.step (.lease j .expire) = some s') :
    (s'.session j).lease = none := by
  rcases lease_cases hstep with ⟨_, l, hact, rfl⟩
  cases Session.Leased.step_cases hact
  simp

/-! ## Behaviors -/

/-- The candidate does not resign, and its session is served in time; no operation of a candidate
fails, and no watch is canceled. -/
structure Attended (i : ι) (d : Session.Leased.Delays) (ttl : Int) (s : Timed ι) (a : Act ι) :
    Prop where
  inTime : s.InTime {i} d ttl a
  committed : ∀ e, a = .election e → System.Committed i s.system e

/-- The server ends a lease that has expired. -/
def Expires (j : ι) (_ : Timed ι) (a : Act ι) : Prop := a = .lease j .expire

/-- The server deletes the node of a lease that has ended. -/
def Removes (j : ι) (s : Timed ι) (a : Act ι) : Prop :=
  ((s.session j).lease = none ∧
    ∃ kv ∈ s.system.etcd.kvs, kv.key = (s.system.cand j).key) ∧
  a = .election (.write [.deleteRange (s.system.cand j).key])

/-- A step of the election, of that kind. -/
def OfElection (helpful : System ι → Election.Act ι → Prop) (s : Timed ι) (a : Act ι) : Prop :=
  ∃ e, a = .election e ∧ helpful s.system e

/-- What a step is to the election. -/
def Act.election? : Act ι → Option (Election.Act ι)
  | .election e => some e
  | _ => none

variable {d : Session.Leased.Delays} {ttl : Int}

theorem election_step {a : Act ι} (hok : Attended i d ttl s a) (hstep : s.step a = some s') :
    Behavior.Moment System.machine (System.Committed i) s.system a.election? s'.system := by
  cases a with
  | advance n =>
    cases hstep
    rfl
  | lease k b =>
    rcases lease_cases hstep with ⟨_, l, _, rfl⟩
    rfl
  | election e =>
    rcases election_cases hstep with ⟨_, t, hact, rfl⟩
    exact ⟨hok.committed e rfl, hact⟩

/-- What the election can do for it, the candidate of a session can do as well. -/
theorem enabled_election {helpful : System ι → Election.Act ι → Prop}
    (h : Behavior.Enabled machine (Attended i d ttl) (OfElection helpful) s) :
    Behavior.Enabled System.machine (System.Committed i) helpful s.system := by
  rcases h with ⟨_, ⟨e, rfl, hdoes⟩, hok, hsome⟩
  rcases Option.isSome_iff_exists.mp hsome with ⟨s', hstep⟩
  have hnext : System.Committed i s.system e ∧ System.machine.step s.system e = some s'.system :=
    election_step hok hstep
  exact ⟨e, hdoes, hnext.1, by rw [hnext.2]; rfl⟩

theorem reachable_election (h : machine.Reachable (Attended i d ttl) s) :
    System.machine.Reachable (System.Committed i) s.system := by
  refine h.simulates system ?_ ?_
  · intro s hs
    exact hs.1
  · intro s a s' _ _ hok hstep
    have hnext := election_step hok hstep
    cases he : a.election? with
    | none =>
      rw [he] at hnext
      rw [show s'.system = s.system from hnext]
      exact .refl _
    | some e =>
      rw [he] at hnext
      exact .single e hnext.1 hnext.2

section Behaviors

variable (b : Behavior machine (Attended i d ttl))

/-- The election of a behavior. -/
def election : Behavior System.machine (System.Committed i) :=
  b.project system Act.election? (reachable_election b.start) fun _ _ _ => election_step

variable {b}

theorem fair_election {helpful : System ι → Election.Act ι → Prop}
    (hfair : b.Fair (OfElection helpful))
    (hserver : ∀ s e, helpful s e → (∀ j, e ≠ .client j .campaign) ∧ ∀ ops, e ≠ .write ops) :
    (election b).Fair helpful := by
  refine Behavior.fair_project hfair ?_ ?_
  · rintro s ⟨e, hdoes, hok, hsome⟩
    rcases hserver _ e hdoes with ⟨hcampaign, hwrite⟩
    have hready : s.Ready e := by
      unfold Ready
      split
      · exact absurd rfl (hcampaign _)
      · trivial
    have hintime : s.InTime {i} d ttl (.election e) := by
      cases e with
      | write ops => exact absurd rfl (hwrite ops)
      | _ => trivial
    refine ⟨.election e, ⟨e, rfl, hdoes⟩, ⟨hintime, ?_⟩, ?_⟩
    · intro e' he
      cases he
      exact hok
    · rcases Option.isSome_iff_exists.mp hsome with ⟨t, ht⟩
      have hact : s.system.step e = some t := ht
      simp [machine, step, hready, hact]
  · rintro s a ⟨e, rfl, hdoes⟩
    exact ⟨e, rfl, hdoes⟩

/-! ## A session that the server does not hear -/

/-- The lease of the session was granted, and the server reads no keep-alive of it any more. -/
def Silent (b : Behavior machine (Attended i d ttl)) (j : ι) (n : Nat) : Prop :=
  ((b.state n).session j).answer.isSome = true ∧
    ∀ m, n ≤ m → b.action m ≠ some (.lease j .serveKeepAlive)

/-- Its lease stays as it is, or ends. -/
theorem Silent.kept {n m : Nat} (h : Silent b j n) (hm : n ≤ m) :
    ((b.state m).session j).answer.isSome = true ∧
    (((b.state m).session j).lease = ((b.state n).session j).lease ∨
      ((b.state m).session j).lease = none) := by
  induction hm with
  | refl => exact ⟨h.1, .inl rfl⟩
  | @step m hm ih =>
    rcases ih with ⟨hans, hlease⟩
    rcases b.step_cases m with ⟨_, heq⟩ | ⟨a, ha, _, hstep⟩
    · rw [Nat.succ_eq_add_one, heq]
      exact ⟨hans, hlease⟩
    · rcases session_step hstep j with ⟨n', _, hnext⟩ | ⟨c, rfl, _, hact⟩ | ⟨_, hsame⟩
      · rw [Nat.succ_eq_add_one, hnext]
        exact ⟨hans, hlease⟩
      · have hread : c ≠ .serveKeepAlive := by
          rintro rfl
          exact h.2 m hm ha
        rcases Session.Leased.act_unread hact hread hans with ⟨hans', hkept | hnone⟩
        · exact ⟨by rw [hans']; exact hans, by rw [hkept]; exact hlease⟩
        · exact ⟨by rw [hans']; exact hans, .inr hnone⟩
      · rw [Nat.succ_eq_add_one, hsame]
        exact ⟨hans, hlease⟩

theorem Silent.later {n m : Nat} (h : Silent b j n) (hm : n ≤ m) : Silent b j m :=
  ⟨(h.kept hm).1, fun k hk => h.2 k (hm.trans hk)⟩

/-- Once the lease of a session that is not heard has ended, it has for good. -/
theorem Silent.ended {n m : Nat} (h : Silent b j n) (hm : n ≤ m)
    (hnone : ((b.state n).session j).lease = none) : ((b.state m).session j).lease = none := by
  rcases (h.kept hm).2 with hkept | hended
  · exact hkept.trans hnone
  · exact hended

/-- The lease expires, and the server ends it. -/
theorem lease_ends (hexpires : b.Fair (Expires j))
    (hclock : ∀ t, ∃ n, t ≤ ((b.state n).session j).now) {n : Nat} (h : Silent b j n) :
    ∃ m, n ≤ m ∧ ∀ k, m ≤ k → ((b.state k).session j).lease = none := by
  cases hl : ((b.state n).session j).lease with
  | none => exact ⟨n, Nat.le_refl n, fun k hk => h.ended hk hl⟩
  | some l =>
    rcases hclock l.expires with ⟨m₀, hm₀⟩
    have hlate : ∀ k, m₀ ≤ k → l.expires ≤ ((b.state k).session j).now := by
      intro k hk
      refine b.stays (p := fun s => l.expires ≤ (s.session j).now) ?_ hk hm₀
      intro s a s' _ hle _ hstep
      exact hle.trans (now_mono hstep j)
    by_cases hnever : ∀ k, max n m₀ ≤ k → ((b.state k).session j).lease = some l
    -- it has expired and is still there: the server can end it, and does
    · have hable : ∀ k, max n m₀ ≤ k →
          Behavior.Enabled machine (Attended i d ttl) (Expires j) (b.state k) := by
        intro k hk
        refine ⟨.lease j .expire, rfl, ⟨fun _ => trivial, fun e he => by cases he⟩, ?_⟩
        have hexpired := hlate k ((Nat.le_max_right n m₀).trans hk)
        simp [machine, step, Session.Leased.act, hnever k hk, hexpired]
      rcases hexpires _ hable with ⟨k, a, hk, ha, rfl⟩
      rcases b.step_cases k with ⟨hnone, _⟩ | ⟨a', ha', _, hstep⟩
      · rw [hnone] at ha
        cases ha
      · obtain rfl : a' = .lease j .expire := Option.some.inj (ha'.symm.trans ha)
        have hgone := expire_lease hstep
        rw [hnever (k + 1) (by omega)] at hgone
        cases hgone
    · simp only [not_forall] at hnever
      rcases hnever with ⟨k, hk, hne⟩
      have hnk : n ≤ k := (Nat.le_max_left n m₀).trans hk
      refine ⟨k, hnk, fun k' hk' => (h.later hnk).ended hk' ?_⟩
      rcases (h.kept hnk).2 with hkept | hended
      · exact absurd (hkept.trans hl) hne
      · exact hended

/-! ## The node of such a session -/

theorem key_kept {n m : Nat} (hm : n ≤ m) (j : ι) :
    ((b.state m).system.cand j).key = ((b.state n).system.cand j).key :=
  System.run_key ((election b).run hm) j

theorem write_etcd {t t' : System ι} {ops : List RequestOp}
    (h : t.step (.write ops) = some t') : t'.etcd = t.etcd.commit ops := by
  cases System.step_cases h
  rfl

/-- The node goes when the lease has ended. -/
theorem node_goes (hij : j ≠ i) (hremoves : b.Fair (Removes j)) {m : Nat}
    (hnone : ∀ k, m ≤ k → ((b.state k).session j).lease = none) (r : Int) :
    ∃ k, m ≤ k ∧ ¬ (b.state k).system.etcd.HasNode ((b.state m).system.cand j).key r := by
  by_contra hnever
  have hnode : ∀ k, m ≤ k →
      (b.state k).system.etcd.HasNode ((b.state k).system.cand j).key r := by
    intro k hk
    rw [key_kept hk]
    by_contra hno
    exact hnever ⟨k, hk, hno⟩
  have hable : ∀ k, m ≤ k →
      Behavior.Enabled machine (Attended i d ttl) (Removes j) (b.state k) := by
    intro k hk
    have hc := System.reachable_consistent_of ((election b).reachable k)
    rcases hnode k hk with ⟨kv, hkv, hkey, _⟩
    refine ⟨_, ⟨⟨hnone k hk, kv, hkv, hkey⟩, rfl⟩, ⟨?_, ?_⟩, ?_⟩
    · intro i' hi' _ hmem
      rw [Set.mem_singleton_iff.mp hi'] at hmem
      have hsame : ((b.state k).system.cand i).key = ((b.state k).system.cand j).key := by
        simpa using hmem
      exact hij (hc.key_inj hsame).symm
    · intro e he
      cases he
      exact ⟨trivial, (fun h => by cases h), (fun h => by cases h)⟩
    · simp [machine, step, Ready, System.step, SinglePut, RequestOp.isPut]
  rcases hremoves m hable with ⟨k, a, hk, ha, ⟨_, rfl⟩⟩
  rcases b.step_cases k with ⟨hrest, _⟩ | ⟨a', ha', hok, hstep⟩
  · rw [hrest] at ha
    cases ha
  · obtain rfl := Option.some.inj (ha'.symm.trans ha)
    have hnext := election_step hok hstep
    rcases hnode (k + 1) (by omega) with ⟨kv, hkv, hkey, _⟩
    rw [key_kept (Nat.le_succ k)] at hkey
    have hwrite : (b.state k).system.step
        (.write [.deleteRange ((b.state k).system.cand j).key]) =
          some (b.state (k + 1)).system := hnext.2
    rw [write_etcd hwrite] at hkv
    exact Store.key_of_delete hkv hkey

/-- A candidate whose session is served in time leads in the end, and for good, if each older
node goes at some time or is that of a session which the server does not hear any more. -/
theorem takes_over (hroom : Session.Leased.Roomy d ttl) (b : Behavior machine (Attended i d ttl))
    (hserves : b.Fair (OfElection (System.Serves i)))
    (hdelivers : ∀ id, b.Fair (OfElection (System.Delivers i id)))
    (hserver : ∀ j, j ≠ i → b.Fair (Expires j) ∧ b.Fair (Removes j))
    (hclock : ∀ t, ∃ n, t ≤ ((b.state n).session i).now) (n : Nat)
    (hc : ((b.state n).system.cand i).Campaigning)
    (hgo : ∀ kv ∈ (b.state n).system.etcd.kvs,
      InElection ((b.state n).system.cand i).electionName kv.key →
      kv.createRevision < ((b.state n).system.cand i).creationRevision →
        (∃ m, n ≤ m ∧ ¬ (b.state m).system.etcd.HasNode kv.key kv.createRevision) ∨
        ∃ j, j ≠ i ∧ kv.key = ((b.state n).system.cand j).key ∧ ∃ m, n ≤ m ∧ Silent b j m) :
    ∃ m, n ≤ m ∧ ∀ k, m ≤ k → (b.state k).system.Leads i ∧
      ∀ j, (b.state k).system.Leads j → j = i := by
  have hclocks : ∀ j t, ∃ n, t ≤ ((b.state n).session j).now := by
    intro j t
    rcases hclock t with ⟨n, hn⟩
    exact ⟨n, (clocks_agree (b.reachable n) i j) ▸ hn⟩
  -- every older node goes
  have hgone : ∀ kv ∈ ((election b).state n).etcd.kvs,
      InElection ((b.state n).system.cand i).electionName kv.key →
      kv.createRevision < ((b.state n).system.cand i).creationRevision →
        ∃ m, n ≤ m ∧ System.Gone kv ((election b).state m) := by
    intro kv hkv hel hlt
    rcases hgo kv hkv hel hlt with hgoes | ⟨j, hij, hkey, m, hm, hsilent⟩
    · exact hgoes
    · rcases hserver j hij with ⟨hexpires, hremoves⟩
      rcases lease_ends hexpires (hclocks j) hsilent with ⟨m', hm', hnone⟩
      rcases node_goes hij hremoves hnone kv.createRevision with ⟨k, hk, hno⟩
      rw [key_kept (hm.trans hm'), ← hkey] at hno
      exact ⟨k, hm.trans (hm'.trans hk), hno⟩
  have hserves' : (election b).Fair (System.Serves i) := by
    refine fair_election hserves ?_
    rintro s e hdoes
    exact ⟨(fun j h => by subst h; exact hdoes), (fun ops h => by subst h; exact hdoes)⟩
  have hdelivers' : ∀ id, (election b).Fair (System.Delivers i id) := by
    intro id
    refine fair_election (hdelivers id) ?_
    rintro s e hdoes
    exact ⟨(fun j h => by subst h; exact hdoes), (fun ops h => by subst h; exact hdoes)⟩
  rcases System.eligible_of_gone ⟨hc, rfl, rfl⟩ hgone with ⟨m, hm, helig⟩
  rcases System.eligible_elected (election b) hserves' hdelivers' m helig with ⟨m', hm', hall⟩
  refine ⟨m', hm.trans hm', fun k hk => ?_⟩
  -- its own lease is refreshed in time, so that its node is there
  have hreach : machine.Reachable (InTime {i} d ttl) (b.state k) :=
    (b.reachable k).mono fun _ _ hok => hok.inTime
  have hheld := reachable_held hroom hreach rfl
  have hleads := hheld.rooted.leads hheld.consistent (hall k hk)
  exact ⟨hleads, fun j hj => hheld.consistent.leads_unique hj hleads⟩

end Behaviors

/-! ## A failover -/

/-- A check of `Attended`, for the second of two candidates. -/
def attended (d : Session.Leased.Delays) (ttl : Int) (s : Timed Bool) : Act Bool → Bool
  | .advance n => decide ((s.session true).OnTime d ((s.session true).now + n))
  | .lease i a => decide (i = true → (s.session true).InTime d ttl a)
  | .election (.write ops) => decide ((s.session true).lease.isSome = true →
      .deleteRange (s.system.cand true).key ∉ ops) && System.committed s.system (.write ops)
  | .election e => System.committed s.system e

theorem attended_sound {d : Session.Leased.Delays} {ttl : Int} (s : Timed Bool) (a : Act Bool)
    (h : attended d ttl s a = true) : Attended true d ttl s a := by
  cases a with
  | advance n =>
    refine ⟨?_, fun e he => by cases he⟩
    intro i hi
    rw [Set.mem_singleton_iff.mp hi]
    exact of_decide_eq_true h
  | lease i a =>
    refine ⟨?_, fun e he => by cases he⟩
    intro hi
    obtain rfl := Set.mem_singleton_iff.mp hi
    exact of_decide_eq_true h rfl
  | election e =>
    cases e with
    | write ops =>
      rcases Bool.and_eq_true_iff.mp h with ⟨hkeep, hcommitted⟩
      refine ⟨?_, ?_⟩
      · intro i hi
        rw [Set.mem_singleton_iff.mp hi]
        exact of_decide_eq_true hkeep
      · intro e he
        cases he
        exact System.committed_sound true _ _ hcommitted
    | _ =>
      refine ⟨trivial, ?_⟩
      intro e he
      cases he
      exact System.committed_sound true _ _ h

/-- Two processes open their sessions, the second one nine seconds later, and campaign. -/
def bothOpen : List (Act Bool) :=
  openSession false ++ [.advance 9000] ++ openSession true ++ System.bothCampaign.map .election

/-- The lease of the first one expires, and the second one is told. -/
def firstGone : List (Act Bool) :=
  [.advance 1000, .lease false .expire] ++ System.secondServed.map .election

/-- What stays, when the second of two candidates is elected and the first one has gone. -/
structure TakenOver (t : System Bool) (d : Session.Leased.Delays) (ttl : Int) (s : Timed Bool) :
    Prop where
  system : s.system = t
  served : Session.Leased.Served d ttl (s.session true)
  constructed : (s.session true).session.constructed = true
  ended : (s.session false).lease = none
  answered : (s.session false).answer.isSome = true

/-- Time passes, or the session of the second one moves on. -/
def GoesOn (d : Session.Leased.Delays) (ttl : Int) (s : Timed Bool) (a : Act Bool) : Prop :=
  (∃ n : Nat, 0 < n ∧ a = .advance n) ∨
  ∃ b l, a = .lease true b ∧ Session.Leased.Moves d ttl (s.session true) b l

theorem lease_step {d : Session.Leased.Delays} {ttl : Int} {s : Timed Bool} {i : Bool}
    {b : Session.Leased.Act} {l : Session.Leased}
    (h : Session.Leased.Moves d ttl (s.session i) b l) :
    machine.step s (.lease i b) = some { s with session := Function.update s.session i l } := by
  have hact := h.step
  have hcycle := h.cycle
  cases b with
  | advance n => cases hcycle
  | _ =>
    show Option.map _ _ = _
    rw [hact]
    rfl

theorem TakenOver.goes_on {t : System Bool} {d : Session.Leased.Delays} {ttl : Int} {s : Timed Bool}
    (h : TakenOver t d ttl s) (hroom : Session.Leased.Roomy d ttl) :
    ∃ a s', (TakenOver t d ttl s ∧ GoesOn d ttl s a) ∧ Attended true d ttl s a ∧
      machine.step s a = some s' ∧ TakenOver t d ttl s' := by
  rcases h.served.goes_on hroom h.constructed with ⟨n, hpos, htime⟩ | ⟨b, l, hmoves⟩
  · have hok : Attended true d ttl s (.advance n) := by
      refine ⟨?_, fun e he => by cases he⟩
      intro i hi
      rw [Set.mem_singleton_iff.mp hi]
      exact htime
    refine ⟨.advance n, _, ⟨h, .inl ⟨n, hpos, rfl⟩⟩, hok, rfl, ?_⟩
    have hserved := h.served.step (a := .advance n) hroom htime rfl
    exact ⟨h.system, hserved, h.constructed, h.ended, h.answered⟩
  · have hok : Attended true d ttl s (.lease true b) :=
      ⟨fun _ => hmoves.inTime, fun e he => by cases he⟩
    refine ⟨_, _, ⟨h, .inr ⟨b, l, rfl, hmoves⟩⟩, hok, lease_step hmoves, ?_⟩
    refine ⟨h.system, ?_, ?_, h.ended, h.answered⟩
    · simpa using h.served.step hroom hmoves.inTime hmoves.step
    · simpa using h.served.built hmoves.inTime hmoves.step h.constructed

/-- From then on time passes without end, while the session of the second one is served in time. -/
theorem TakenOver.goes_on_forever {t : System Bool} {d : Session.Leased.Delays} {ttl : Int}
    {s : Timed Bool} (h : TakenOver t d ttl s) (hroom : Session.Leased.Roomy d ttl)
    (hs : machine.Reachable (Attended true d ttl) s) :
    ∃ b : Behavior machine (Attended true d ttl), b.state 0 = s ∧
      (∀ n, TakenOver t d ttl (b.state n)) ∧
      (∀ n, ∃ a, b.action n = some a ∧ GoesOn d ttl (b.state n) a) ∧
      ∀ u, ∃ n, u ≤ ((b.state n).session true).now := by
  rcases Behavior.exists_of_steps (fun _ _ hp => hp.goes_on hroom) hs h with ⟨b, hzero, hall⟩
  refine ⟨b, hzero, ?_, ?_, ?_⟩
  · intro n
    rcases hall n with ⟨_, _, hp, _⟩
    exact hp
  · intro n
    rcases hall n with ⟨a, ha, _, hgo⟩
    exact ⟨a, ha, hgo⟩
  · refine b.unbounded (fun s => (s.session true).now) (fun s => (s.session true).rank) ?_
    intro n
    rcases hall n with ⟨a, ha, _, hgo⟩
    rcases b.step_cases n with ⟨hnone, _⟩ | ⟨a', ha', _, hstep⟩
    · rw [hnone] at ha
      cases ha
    · obtain rfl := Option.some.inj (ha'.symm.trans ha)
      rcases hgo with ⟨k, hpos, rfl⟩ | ⟨c, l, rfl, hmoves⟩
      · left
        rw [← Option.some.inj hstep]
        show _ < _ + (k : Int)
        omega
      · right
        have hnext := Option.some.inj ((lease_step hmoves).symm.trans hstep)
        rw [← hnext]
        simpa using ⟨hmoves.now.symm, hmoves.rank⟩

section Rest

variable {t : System Bool} {d : Session.Leased.Delays} {ttl : Int}
  {b : Behavior machine (Attended true d ttl)} (hall : ∀ n, TakenOver t d ttl (b.state n))

include hall

/-- Nothing is left to do for a candidate that has nothing outstanding. -/
theorem fair_idle {helpful : System Bool → Election.Act Bool → Prop}
    (hidle : ¬ Behavior.Enabled System.machine (System.Committed true) helpful t) :
    b.Fair (OfElection helpful) := by
  refine Behavior.fair_of_disabled fun n => ⟨n, Nat.le_refl n, fun hable => ?_⟩
  have hable' := enabled_election hable
  rw [(hall n).system] at hable'
  exact hidle hable'

theorem fair_expires : b.Fair (Expires false) := by
  refine Behavior.fair_of_disabled fun n => ⟨n, Nat.le_refl n, ?_⟩
  rintro ⟨_, rfl, _, hsome⟩
  simp [machine, step, Session.Leased.act, (hall n).ended] at hsome

theorem fair_removes (hnode : ∀ kv ∈ t.etcd.kvs, kv.key ≠ (t.cand false).key) :
    b.Fair (Removes false) := by
  refine Behavior.fair_of_disabled fun n => ⟨n, Nat.le_refl n, ?_⟩
  rintro ⟨_, ⟨⟨_, kv, hkv, hkey⟩, _⟩, _⟩
  rw [(hall n).system] at hkv hkey
  exact hnode kv hkv hkey

end Rest

/-- A behavior in which the second of two candidates takes over, when the first one is gone and
its lease has expired. -/
theorem takes_over_second : ∃ b : Behavior machine (Attended (ι := Bool) true ⟨100, 100, 100⟩ 10),
    (b.state 0).system.Leads false ∧ ((b.state 0).system.cand true).Campaigning ∧
    ∃ m, ∀ k, m ≤ k → (b.state k).system.Leads true ∧
      ∀ j, (b.state k).system.Leads j → j = true := by
  let d : Session.Leased.Delays := ⟨100, 100, 100⟩
  have hroom : Session.Leased.Roomy d 10 := by decide
  let s₀ : Timed Bool :=
    { system := .init [] System.twoLeases (fun _ => []) 1 (by decide)
      session := fun i => { session := Session.init 10000 (System.twoLeases i) } }
  have hrun : ((machine.execIf (attended d 10) s₀ bothOpen).any fun s =>
      decide (s.system.Leads false ∧ (s.system.cand true).Campaigning ∧
        ∀ kv ∈ s.system.etcd.kvs,
          kv.createRevision < (s.system.cand true).creationRevision →
            kv.key = (s.system.cand false).key) &&
      (machine.execIf (attended d 10) s firstGone).any fun t =>
        decide ((t.system.cand true).pending = 0 ∧ (t.session false).lease = none ∧
          (t.session false).answer.isSome = true ∧
          (t.session true).session.constructed = true ∧
          ∀ kv ∈ t.system.etcd.kvs, kv.key ≠ (t.system.cand false).key)) = true := by decide
  rcases (Option.any_eq_true _ _).mp hrun with ⟨s, hexec, hcheck⟩
  simp only [Bool.and_eq_true, decide_eq_true_eq] at hcheck
  rcases hcheck with ⟨⟨hleads, hc, holder⟩, hrest⟩
  rcases (Option.any_eq_true _ _).mp hrest with ⟨t, hexec', hend⟩
  rcases of_decide_eq_true hend with ⟨hidle, hended, hanswered, hcon, hnode⟩
  have hs : machine.Reachable (Attended true d 10) s :=
    ⟨_, ⟨⟨_, _, _, _, _, by decide, rfl⟩, fun i => ⟨_, _, rfl⟩⟩, run_of_execIf attended_sound hexec⟩
  have ht : machine.Reachable (Attended true d 10) t :=
    hs.run (run_of_execIf attended_sound hexec')
  have hserved : Session.Leased.Served d 10 (t.session true) :=
    (reachable_held (T := {true}) hroom (ht.mono fun _ _ hok => hok.inTime) rfl).served
  have htaken : TakenOver t.system d 10 t := ⟨rfl, hserved, hcon, hended, hanswered⟩
  rcases htaken.goes_on_forever hroom ht with ⟨b, hzero, hall, hgo, hclock⟩
  rcases Behavior.exists_after_execIf attended_sound hs b (hzero ▸ hexec') with
    ⟨b', rfl, ⟨m, hafter⟩, hfair⟩
  rcases System.idle_disabled (i := true) hidle with ⟨hserves, hdelivers⟩
  have hsilent : Silent b' false m := by
    refine ⟨?_, fun k hk hread => ?_⟩
    · rw [show b'.state m = b.state 0 from (hafter 0).1]
      exact (hall 0).answered
    · obtain ⟨n, rfl⟩ := Nat.exists_eq_add_of_le hk
      rw [(hafter n).2] at hread
      rcases hgo n with ⟨a, ha, ⟨_, _, rfl⟩ | ⟨_, _, rfl, _⟩⟩
      · rw [ha] at hread
        cases hread
      · rw [ha] at hread
        cases hread
  have hclock' : ∀ u, ∃ n, u ≤ ((b'.state n).session true).now := by
    intro u
    rcases hclock u with ⟨n, hn⟩
    exact ⟨m + n, by rw [(hafter n).1]; exact hn⟩
  have hserver : ∀ j, j ≠ true → b'.Fair (Expires j) ∧ b'.Fair (Removes j) := by
    intro j hj
    obtain rfl : j = false := by simpa using hj
    exact ⟨hfair _ (fair_expires hall), hfair _ (fair_removes hall hnode)⟩
  rcases takes_over hroom b' (hfair _ (fair_idle hall hserves))
    (fun id => hfair _ (fair_idle hall (hdelivers id))) hserver hclock' 0 hc
    (fun kv hkv _ hlt => .inr ⟨false, by decide, holder kv hkv hlt, m, Nat.zero_le m, hsilent⟩)
    with ⟨k, _, hlast⟩
  exact ⟨b', hleads, hc, k, hlast⟩

end GeeH.Election.Timed
