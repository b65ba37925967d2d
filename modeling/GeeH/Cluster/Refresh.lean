import GeeH.Cluster.Impl
import GeeH.Pool

/-!
# GeeH.Cluster.Refresh — the refresh cycle of a cluster membership

A refresh is one chain of operations: the timer, a MemberList to one URL after
the other, and the next timer. `exec_asking` follows it through any sequence of
replies, from any state. Along a run with one `startup()` the chain is all there
is, until a timer fails (`Cycling`).
-/

namespace GeeH

open Cluster Machine
open Session (TimerState)

/-! ## Replies -/

namespace Cluster

theorem mem_keys_foldl_insert (urls : List Bytes) (s : UrlSet) (u : Bytes) :
    u ∈ (urls.foldl (fun s url => s.insert url ()) s).keys ↔ u ∈ urls ∨ u ∈ s.keys := by
  induction urls generalizing s with
  | nil => simp
  | cons url urls ih =>
    rw [List.foldl_cons, ih, OrdMap.mem_keys_insert, List.mem_cons, or_left_comm, or_assoc]

/-- `new_urls` is the union of what the members have. -/
theorem mem_newUrls (resp : MemberListResponse) (u : Bytes) :
    u ∈ resp.newUrls.keys ↔ ∃ member ∈ resp.members, u ∈ member.clientUrls := by
  have hfold : ∀ (members : List Member) (s : UrlSet),
      u ∈ (members.foldl (fun urls member =>
        member.clientUrls.foldl (fun urls url => urls.insert url ()) urls) s).keys ↔
      (∃ member ∈ members, u ∈ member.clientUrls) ∨ u ∈ s.keys := by
    intro members
    induction members with
    | nil => simp
    | cons member members ih =>
      intro s
      rw [List.foldl_cons, ih, mem_keys_foldl_insert]
      simp only [List.mem_cons, exists_eq_or_imp]
      rw [or_left_comm, or_assoc]
  have hempty : u ∉ (∅ : UrlSet).keys := by
    intro h
    cases h
  rw [MemberListResponse.newUrls, hfold]
  simp [hempty]

/-- A reply that ends the refresh: it is ok, has OK status and names a URL. -/
def Reply.Good (r : Reply) : Prop :=
  r.ok = true ∧ r.status.ok = true ∧ r.response.newUrls.keys ≠ []

instance : DecidablePred Reply.Good := fun _ => inferInstanceAs (Decidable (_ ∧ _ ∧ _))

end Cluster

namespace ClusterMembership

variable {c c' : ClusterMembership}

theorem onMemberListResponse_good {r : Reply} (h : r.Good) (urls : List Bytes) (i : Nat) :
    c.onMemberListResponse urls i r =
      { c with memberUrls := r.response.newUrls }.resetRefreshTimer := by
  rcases h with ⟨hok, hst, hne⟩
  simp only [onMemberListResponse, hok, hst, Bool.not_true, Bool.or_self, Bool.false_eq_true,
    if_false]
  exact if_neg hne

theorem onMemberListResponse_bad {r : Reply} (h : ¬ r.Good) (urls : List Bytes) (i : Nat) :
    c.onMemberListResponse urls i r = c.tryQueryClusterMembership urls (i + 1) := by
  unfold onMemberListResponse
  split
  · rfl
  · rename_i hst
    refine if_pos ?_
    by_contra hne
    simp only [Bool.or_eq_true, Bool.not_eq_eq_eq_not, Bool.not_true, not_or,
      Bool.not_eq_false] at hst
    exact h ⟨hst.1, hst.2, hne⟩

/-! ## One refresh -/

/-- The steps of a refresh: the timer expires, and the first `n` URLs reply. -/
def cycle (c : ClusterMembership) (id : Nat) (delay : Int) (st : TimerState) (reply : Nat → Reply)
    (n : Nat) : List Act :=
  .complete (.timer id delay st true) ::
    (List.range n).map fun i => .complete (.memberList c.currentUrls i (reply i))

/-- The refresh that a timer has started in `c` is asking the URL at `i`. -/
def asking (c : ClusterMembership) (timer : Op) (i : Nat) : ClusterMembership :=
  { c with
    refreshTimer := none
    queried := c.queried ++ c.currentUrls.take (i + 1)
    pending := .memberList c.currentUrls i ::ₘ c.pending.erase timer }

/-- The refresh has ended with the `n`-th reply, and the timer is armed again. -/
def asked (c : ClusterMembership) (timer : Op) (n : Nat) : ClusterMembership :=
  { c with
    refreshTimer := some c.timers
    timers := c.timers + 1
    queried := c.queried ++ c.currentUrls.take n
    pending := .timer c.timers c.refreshInterval .armed ::ₘ c.pending.erase timer }

/-- The URL at `i` is asked, or there is none and the refresh has failed. -/
theorem tryQuery_eq (c : ClusterMembership) (timer : Op) (i : Nat) :
    tryQueryClusterMembership
      { c with
        refreshTimer := none
        queried := c.queried ++ c.currentUrls.take i
        pending := c.pending.erase timer } c.currentUrls i =
      if i < c.currentUrls.length then c.asking timer i
      else { c.asked timer i with failures := c.failures + 1 } := by
  unfold tryQueryClusterMembership
  split
  · rename_i hnone
    rw [if_neg (Nat.not_lt.mpr (List.getElem?_eq_none_iff.mp hnone))]
    rfl
  · rename_i url hurl
    rcases List.getElem?_eq_some_iff.mp hurl with ⟨hlt, heq⟩
    rw [if_pos hlt, asking, List.append_assoc, ← heq, List.take_append_getElem hlt]

/-- The timer has expired: the first URL is asked. -/
theorem act_expired {id : Nat} {delay : Int} {st : TimerState}
    (hmem : .timer id delay st ∈ c.pending) (hst : st ≠ .canceled) :
    machine.step c (.complete (.timer id delay st true)) =
      some (if 0 < c.currentUrls.length then c.asking (.timer id delay st) 0
        else { c.asked (.timer id delay st) 0 with failures := c.failures + 1 }) := by
  have hen : (Completion.timer id delay st true).op ∈ c.pending ∧
      (Completion.timer id delay st true).WellFormed := ⟨hmem, hst⟩
  refine (if_pos hen).trans (congrArg some ?_)
  rw [← tryQuery_eq, List.take_zero, List.append_nil]
  rfl

/-- A reply to the URL at `i`. -/
theorem act_reply (c : ClusterMembership) (timer : Op) (i : Nat) (r : Reply) :
    machine.step (c.asking timer i) (.complete (.memberList c.currentUrls i r)) =
      some (if r.Good then { c.asked timer (i + 1) with memberUrls := r.response.newUrls }
        else if i + 1 < c.currentUrls.length then c.asking timer (i + 1)
        else { c.asked timer (i + 1) with failures := c.failures + 1 }) := by
  have hen : (Completion.memberList c.currentUrls i r).op ∈ (c.asking timer i).pending ∧
      (Completion.memberList c.currentUrls i r).WellFormed :=
    ⟨Multiset.mem_cons_self _ _, trivial⟩
  refine (if_pos hen).trans (congrArg some ?_)
  have herase : (c.asking timer i).pending.erase (.memberList c.currentUrls i) =
      c.pending.erase timer := Multiset.erase_cons_head _ _
  show onMemberListResponse { c.asking timer i with
    pending := (c.asking timer i).pending.erase (.memberList c.currentUrls i) } _ _ _ = _
  rw [herase]
  split
  · rename_i hgood
    exact onMemberListResponse_good hgood _ _
  · rename_i hbad
    rw [onMemberListResponse_bad hbad, ← tryQuery_eq]
    rfl

/-- One more reply. -/
theorem exec_cycle_succ (c : ClusterMembership) (id : Nat) (delay : Int) (st : TimerState)
    (reply : Nat → Reply) (n : Nat) :
    machine.exec c (c.cycle id delay st reply (n + 1)) =
      (machine.exec c (c.cycle id delay st reply n)).bind fun d =>
        machine.step d (.complete (.memberList c.currentUrls n (reply n))) := by
  simp only [cycle]
  rw [List.range_succ, List.map_append, ← List.cons_append, exec_append]
  congr 1
  funext d
  rw [List.map_singleton, exec_cons]
  cases machine.step d (.complete (.memberList c.currentUrls n (reply n))) with
  | none => rfl
  | some d' => rfl

/-- While the replies are bad, one URL after the other is asked. -/
theorem exec_asking {id : Nat} {delay : Int} {st : TimerState}
    (hmem : .timer id delay st ∈ c.pending) (hst : st ≠ .canceled) (reply : Nat → Reply) (n : Nat)
    (hn : n < c.currentUrls.length) (hbad : ∀ i < n, ¬ (reply i).Good) :
    machine.exec c (c.cycle id delay st reply n) = some (c.asking (.timer id delay st) n) := by
  induction n with
  | zero =>
    rw [cycle, exec_cons, act_expired hmem hst, if_pos hn]
    rfl
  | succ n ih =>
    have hprev := ih (by omega) (fun i hi => hbad i (by omega))
    rw [exec_cycle_succ, hprev, Option.bind_some, act_reply, if_neg (hbad n (by omega)),
      if_pos hn]

/-- The first good reply ends the refresh. -/
theorem exec_good {id : Nat} {delay : Int} {st : TimerState}
    (hmem : .timer id delay st ∈ c.pending) (hst : st ≠ .canceled) (reply : Nat → Reply) (n : Nat)
    (hn : n < c.currentUrls.length) (hbad : ∀ i < n, ¬ (reply i).Good) (hgood : (reply n).Good) :
    machine.exec c (c.cycle id delay st reply (n + 1)) =
      some { c.asked (.timer id delay st) (n + 1) with
        memberUrls := (reply n).response.newUrls } := by
  rw [exec_cycle_succ, exec_asking hmem hst reply n hn hbad, Option.bind_some, act_reply,
    if_pos hgood]

/-- Without a good reply, it ends after the last URL. -/
theorem exec_exhausted {id : Nat} {delay : Int} {st : TimerState}
    (hmem : .timer id delay st ∈ c.pending) (hst : st ≠ .canceled) (reply : Nat → Reply)
    (hbad : ∀ i < c.currentUrls.length, ¬ (reply i).Good) :
    machine.exec c (c.cycle id delay st reply c.currentUrls.length) =
      some { c.asked (.timer id delay st) c.currentUrls.length with
        failures := c.failures + 1 } := by
  cases hlen : c.currentUrls.length with
  | zero =>
    rw [cycle, exec_cons, act_expired hmem hst, if_neg (by omega)]
    rfl
  | succ n =>
    rw [exec_cycle_succ, exec_asking hmem hst reply n (by omega) (fun i hi => hbad i (by omega)),
      Option.bind_some, act_reply, if_neg (hbad n (by omega)), if_neg (by omega)]

/-! ## One `startup()` -/

/-- `startup()` is called once, and every timer expires. -/
def Single (c : ClusterMembership) : Act → Prop
  | .startup => c.timers = 0
  | .complete (.timer _ _ _ ok) => ok = true
  | _ => True

/-- What `refresh_timer_` is while an operation is outstanding. -/
def current : Op → Option Nat
  | .timer id _ _ => some id
  | .memberList _ _ => none

theorem current_cancel (id : Nat) (op : Op) : current (cancel id op) = current op := by
  cases op with
  | timer i delay st =>
    cases st with
    | armed =>
      simp only [cancel]
      split
      · rfl
      · rfl
    | fired => rfl
    | canceled => rfl
  | memberList urls i => rfl

/-- Nothing is outstanding before `startup()`, and one operation from then on. -/
structure Cycling (c : ClusterMembership) : Prop where
  urls : c.currentUrls ≠ []
  idle : c.timers = 0 → c.pending = 0
  one : 0 < c.timers → ∃ op, c.pending = {op} ∧ c.refreshTimer = current op

/-- An operation that is outstanding is the only one. -/
theorem Cycling.only {op : Op} (h : Cycling c) (hmem : op ∈ c.pending) :
    0 < c.timers ∧ c.pending = {op} ∧ c.refreshTimer = current op := by
  have hpos : 0 < c.timers := by
    by_contra hzero
    rw [h.idle (by omega)] at hmem
    exact Multiset.notMem_zero _ hmem
  rcases h.one hpos with ⟨op', hpend, hcur⟩
  rw [hpend] at hmem
  obtain rfl := Multiset.mem_singleton.mp hmem
  exact ⟨hpos, hpend, hcur⟩

/-- The one operation is replaced by another. -/
theorem Cycling.of_one (op : Op) (hurls : c.currentUrls ≠ []) (hpos : 0 < c.timers)
    (hpend : c.pending = {op}) (hcur : c.refreshTimer = current op) : Cycling c where
  urls := hurls
  idle h := absurd h (by omega)
  one _ := ⟨op, hpend, hcur⟩

theorem cycling_resetRefreshTimer (hurls : c.currentUrls ≠ []) (hnone : c.pending = 0) :
    Cycling c.resetRefreshTimer := by
  refine .of_one (.timer c.timers c.refreshInterval .armed) hurls (Nat.succ_pos _) ?_ rfl
  rw [resetRefreshTimer, hnone]
  rfl

theorem cycling_tryQuery (hurls : c.currentUrls ≠ []) (hpos : 0 < c.timers) (hnone : c.pending = 0)
    (hcur : c.refreshTimer = none) (urls : List Bytes) (i : Nat) :
    Cycling (c.tryQueryClusterMembership urls i) := by
  unfold tryQueryClusterMembership
  split
  · exact cycling_resetRefreshTimer hurls hnone
  · refine .of_one (.memberList urls i) hurls hpos ?_ hcur
    rw [hnone]
    rfl

theorem Cycling.act {a : Act} (h : Cycling c) (hok : c.Single a)
    (hstep : machine.step c a = some c') : Cycling c' := by
  cases a with
  | startup =>
    cases hstep
    exact cycling_resetRefreshTimer h.urls (h.idle hok)
  | shutdown =>
    cases hstep
    unfold shutdown
    split
    · exact h
    · rename_i id hid
      refine ⟨h.urls, ?_, ?_⟩
      · intro hzero
        show c.pending.map (cancel id) = 0
        rw [h.idle hzero]
        rfl
      · intro hpos
        rcases h.one hpos with ⟨op, hpend, hcur⟩
        refine ⟨cancel id op, ?_, hcur.trans (current_cancel id op).symm⟩
        show c.pending.map (cancel id) = _
        rw [hpend]
        rfl
  | timerFires id delay =>
    simp only [machine, ClusterMembership.act] at hstep
    split at hstep
    · rename_i hmem
      cases hstep
      rcases h.only hmem with ⟨hpos, hpend, hcur⟩
      refine .of_one (.timer id delay .fired) h.urls hpos ?_ hcur
      rw [timerFires, hpend, Multiset.erase_singleton]
      rfl
    · cases hstep
  | complete k =>
    simp only [machine, ClusterMembership.act] at hstep
    split at hstep
    · rename_i hen
      cases hstep
      rcases h.only hen.1 with ⟨hpos, hpend, hcur⟩
      have hnone : c.pending.erase k.op = 0 := by rw [hpend, Multiset.erase_singleton]
      cases k with
      | timer id delay st ok =>
        obtain rfl : ok = true := hok
        exact cycling_tryQuery (c := { c with
          refreshTimer := none
          pending := c.pending.erase (.timer id delay st) }) h.urls hpos hnone rfl c.currentUrls 0
      | memberList urls i r =>
        by_cases hgood : r.Good
        · show Cycling (onMemberListResponse _ urls i r)
          rw [onMemberListResponse_good hgood]
          exact cycling_resetRefreshTimer hgood.2.2 hnone
        · show Cycling (onMemberListResponse _ urls i r)
          rw [onMemberListResponse_bad hgood]
          exact cycling_tryQuery (c := { c with
            pending := c.pending.erase (.memberList urls i) }) h.urls hpos hnone hcur urls (i + 1)
    · cases hstep

theorem init_cycling (hinit : machine.Init c) (hurls : c.currentUrls ≠ []) : Cycling c := by
  rcases hinit with ⟨urls, refreshInterval, hc⟩
  simp only [Cluster.init] at hc
  split at hc
  · cases hc
  · cases hc
    exact ⟨hurls, fun _ => rfl, fun hpos => absurd hpos (lt_irrefl 0)⟩

/-- The refresh cycle. From any state, a timer that expires starts a refresh: it asks the URLs in
order, each once, until a reply is good; that one's URLs become the members. Without a good reply
they stay, and the backoff policy hears of it. Either way one timer is armed. After one
`startup()`, and while no timer fails, there is always one operation, and never no URL; a
`shutdown()` during the queries does nothing. -/
theorem refresh_cycle :
    (∀ (c : ClusterMembership) (id : Nat) (delay : Int) (st : TimerState) (reply : Nat → Reply),
      .timer id delay st ∈ c.pending → st ≠ .canceled →
      c.currentUrls.Nodup ∧
      (∀ n < c.currentUrls.length, (∀ i < n, ¬ (reply i).Good) →
        machine.exec c (c.cycle id delay st reply n) = some (c.asking (.timer id delay st) n)) ∧
      (∀ n < c.currentUrls.length, (∀ i < n, ¬ (reply i).Good) → (reply n).Good →
        machine.exec c (c.cycle id delay st reply (n + 1)) =
          some { c.asked (.timer id delay st) (n + 1) with
            memberUrls := (reply n).response.newUrls }) ∧
      ((∀ i < c.currentUrls.length, ¬ (reply i).Good) →
        machine.exec c (c.cycle id delay st reply c.currentUrls.length) =
          some { c.asked (.timer id delay st) c.currentUrls.length with
            failures := c.failures + 1 })) ∧
    (∀ (resp : MemberListResponse) (u : Bytes),
      u ∈ resp.newUrls.keys ↔ ∃ member ∈ resp.members, u ∈ member.clientUrls) ∧
    ∀ c₀ c : ClusterMembership, machine.Init c₀ → c₀.currentUrls ≠ [] →
      machine.Run Single c₀ c →
      c.currentUrls ≠ [] ∧ (0 < c.timers → c.pending.card = 1) ∧
      ∀ urls i, .memberList urls i ∈ c.pending → c.shutdown = c := by
  refine ⟨?_, mem_newUrls, ?_⟩
  · intro c id delay st reply hmem hst
    refine ⟨c.memberUrls.keys_nodup, ?_, ?_, ?_⟩
    · intro n hn hbad
      exact exec_asking hmem hst reply n hn hbad
    · intro n hn hbad hgood
      exact exec_good hmem hst reply n hn hbad hgood
    · intro hbad
      exact exec_exhausted hmem hst reply hbad
  · intro c₀ c hinit hurls hrun
    have hcyc : Cycling c :=
      hrun.invariant (fun _ _ _ h hok hstep => h.act hok hstep) (init_cycling hinit hurls)
    refine ⟨hcyc.urls, ?_, ?_⟩
    · intro hpos
      rcases hcyc.one hpos with ⟨op, hpend, _⟩
      rw [hpend]
      rfl
    · intro urls i hmem
      rw [shutdown, (hcyc.only hmem).2.2]
      rfl

/-- Two URLs, and a refresh interval of six seconds. -/
def twoUrls : ClusterMembership where
  memberUrls := ((∅ : UrlSet).insert [1] ()).insert [2] ()
  refreshInterval := 6000000

/-- The RPC to the first URL fails, the second has one member. -/
def secondReplies (i : Nat) : Reply :=
  if i = 0 then { ok := false }
  else
    { ok := true
      response := { members := [{ clientUrls := [[3]] }] } }

theorem refresh_cycle_second :
    machine.exec twoUrls.startup (twoUrls.startup.cycle 0 6000000 .armed secondReplies 2) =
      some
        { twoUrls with
          memberUrls := (∅ : UrlSet).insert [3] ()
          refreshTimer := some 1
          timers := 2
          queried := [[1], [2]]
          pending := {.timer 1 6000000 .armed} } ∧
    twoUrls.startup.currentUrls ≠ [] ∧ twoUrls.startup.pending.card = 1 := by
  constructor
  · refine ((refresh_cycle.1 twoUrls.startup 0 6000000 .armed secondReplies (by decide)
      (by decide)).2.2.1 1 (by decide) (by decide) (by decide)).trans ?_
    rfl
  · have hrun : machine.Run Single twoUrls twoUrls.startup := .single .startup rfl rfl
    rcases refresh_cycle.2.2 twoUrls twoUrls.startup ⟨[[1], [2]], 6000000, rfl⟩ (by decide) hrun
      with ⟨hurls, hone, _⟩
    exact ⟨hurls, hone (by decide)⟩

/-! ## `shutdown()` -/

/-- `startup()` is not called again. -/
def Unattended (_ : ClusterMembership) : Act → Prop
  | .startup => False
  | _ => True

/-- The timers that `shutdown()` finds canceled, or cancels: the current one, if it has not
expired. It stops nothing else. -/
def Stoppable (c : ClusterMembership) : Op → Prop
  | .timer id _ .armed => c.refreshTimer = some id
  | .timer _ _ .canceled => True
  | _ => False

/-- Nothing is left but canceled timers, and nothing new has been started since `c`. -/
structure Stopped (c d : ClusterMembership) : Prop where
  timers : d.timers = c.timers
  queried : d.queried = c.queried
  canceled : ∀ op ∈ d.pending, ∃ id delay, op = .timer id delay .canceled

theorem cancel_canceled (id : Nat) {op : Op} (h : ∃ i delay, op = .timer i delay .canceled) :
    cancel id op = op := by
  rcases h with ⟨i, delay, rfl⟩
  rfl

/-- `shutdown()` leaves canceled timers where it can stop everything. -/
theorem stopped_shutdown (h : ∀ op ∈ c.pending, c.Stoppable op) : Stopped c c.shutdown := by
  have hcancel : ∀ op ∈ c.pending, (∃ i delay, op = .timer i delay .canceled) ∨
      ∃ i delay, op = .timer i delay .armed ∧ c.refreshTimer = some i := by
    intro op hmem
    have hop := h op hmem
    cases op with
    | timer i delay st =>
      cases st with
      | armed => exact .inr ⟨i, delay, rfl, hop⟩
      | fired => cases hop
      | canceled => exact .inl ⟨i, delay, rfl⟩
    | memberList urls i => cases hop
  unfold shutdown
  split
  · rename_i hnone
    refine ⟨rfl, rfl, ?_⟩
    intro op hmem
    rcases hcancel op hmem with hcan | ⟨i, delay, _, hcur⟩
    · exact hcan
    · cases hnone.symm.trans hcur
  · rename_i id hid
    refine ⟨rfl, rfl, ?_⟩
    intro op hmem
    rcases Multiset.mem_map.mp hmem with ⟨op', hmem', rfl⟩
    rcases hcancel op' hmem' with hcan | ⟨i, delay, rfl, hcur⟩
    · rw [cancel_canceled id hcan]
      exact hcan
    · cases hid.symm.trans hcur
      exact ⟨_, _, if_pos rfl⟩

/-- From there on only canceled timers complete. -/
theorem Stopped.act {d d' : ClusterMembership} {a : Act} (h : Stopped c d) (hok : Unattended d a)
    (hstep : machine.step d a = some d') : Stopped c d' := by
  cases a with
  | startup => cases hok
  | shutdown =>
    cases hstep
    unfold shutdown
    split
    · exact h
    · refine ⟨h.timers, h.queried, ?_⟩
      intro op hmem
      rcases Multiset.mem_map.mp hmem with ⟨op', hmem', rfl⟩
      rw [cancel_canceled _ (h.canceled op' hmem')]
      exact h.canceled op' hmem'
  | timerFires id delay =>
    simp only [machine, ClusterMembership.act] at hstep
    split at hstep
    · rename_i hmem
      rcases h.canceled _ hmem with ⟨_, _, heq⟩
      cases heq
    · cases hstep
  | complete k =>
    simp only [machine, ClusterMembership.act] at hstep
    split at hstep
    · rename_i hen
      cases hstep
      rcases h.canceled _ hen.1 with ⟨id, delay, heq⟩
      cases k with
      | timer i delay' st ok =>
        cases heq
        cases ok with
        | true => exact absurd rfl hen.2
        | false =>
          refine ⟨h.timers, h.queried, ?_⟩
          intro op hmem
          exact h.canceled op (Multiset.mem_of_mem_erase hmem)
      | memberList urls i r => cases heq
    · cases hstep

/-- A query starts something: an RPC, or a timer. -/
theorem tryQuery_starts (c : ClusterMembership) (urls : List Bytes) (i : Nat) :
    ¬ ((c.tryQueryClusterMembership urls i).timers = c.timers ∧
      (c.tryQueryClusterMembership urls i).queried = c.queried) := by
  rintro ⟨htimers, hqueried⟩
  unfold tryQueryClusterMembership at htimers hqueried
  split at htimers
  · exact absurd htimers (Nat.succ_ne_self _)
  · rename_i url hurl
    rw [hurl] at hqueried
    simp at hqueried

theorem mem_shutdown_of_cancel {op : Op} (hmem : op ∈ c.pending)
    (h : ∀ id, c.refreshTimer = some id → cancel id op = op) : op ∈ c.shutdown.pending := by
  unfold shutdown
  split
  · exact hmem
  · rename_i id hid
    exact Multiset.mem_map.mpr ⟨op, hmem, h id hid⟩

theorem shutdown_timers (c : ClusterMembership) :
    c.shutdown.timers = c.timers ∧ c.shutdown.queried = c.queried := by
  unfold shutdown
  split
  · exact ⟨rfl, rfl⟩
  · exact ⟨rfl, rfl⟩

/-- A completion that goes on with a query starts something after `shutdown()`. -/
theorem starts_of_query {k : Completion} (hmem : k.op ∈ c.shutdown.pending) (hwf : k.WellFormed)
    (hquery : ∃ (d : ClusterMembership) (urls : List Bytes) (i : Nat),
      c.shutdown.handle k = d.tryQueryClusterMembership urls i ∧
      d.timers = c.shutdown.timers ∧ d.queried = c.shutdown.queried) :
    ∃ t, machine.Run Unattended c.shutdown t ∧
      ¬ (t.timers = c.timers ∧ t.queried = c.queried) := by
  rcases hquery with ⟨d, urls, i, heq, htimers, hqueried⟩
  refine ⟨c.shutdown.handle k, .single (.complete k) trivial (if_pos ⟨hmem, hwf⟩), ?_⟩
  rw [heq, ← (shutdown_timers c).1, ← (shutdown_timers c).2, ← htimers, ← hqueried]
  exact tryQuery_starts d urls i

/-- `shutdown()` stops the refresh exactly when all that is outstanding are timers that it can
cancel, or that were canceled before. During a query, or when the timer has expired already, the
refresh goes on: RPCs are sent and timers set for ever. -/
theorem shutdown_stops_iff (c : ClusterMembership) :
    (∀ t, machine.Run Unattended c.shutdown t → t.timers = c.timers ∧ t.queried = c.queried) ↔
      ∀ op ∈ c.pending, c.Stoppable op := by
  constructor
  · intro hstops op hmem
    by_contra hop
    have hstart : ∃ t, machine.Run Unattended c.shutdown t ∧
        ¬ (t.timers = c.timers ∧ t.queried = c.queried) := by
      cases op with
      | timer id delay st =>
        have hst : st ≠ .canceled := by
          rintro rfl
          exact hop trivial
        have hcancel : ∀ id', c.refreshTimer = some id' →
            cancel id' (.timer id delay st) = .timer id delay st := by
          intro id' hid
          cases st with
          | armed =>
            refine if_neg ?_
            rintro rfl
            exact hop hid
          | fired => rfl
          | canceled => rfl
        exact starts_of_query (k := .timer id delay st true) (mem_shutdown_of_cancel hmem hcancel)
          hst ⟨_, _, _, rfl, rfl, rfl⟩
      | memberList urls i =>
        refine starts_of_query (k := .memberList urls i { ok := false })
          (mem_shutdown_of_cancel hmem (fun _ _ => rfl)) trivial ?_
        exact ⟨_, _, _, rfl, rfl, rfl⟩
    rcases hstart with ⟨t, hrun, hno⟩
    exact hno (hstops t hrun)
  · intro h t hrun
    have hstopped : Stopped c t :=
      hrun.invariant (fun _ _ _ hs hok hstep => hs.act hok hstep) (stopped_shutdown h)
    exact ⟨hstopped.timers, hstopped.queried⟩

/-- A timer that has not expired is stopped. -/
theorem shutdown_stops_armed : (∀ op ∈ twoUrls.startup.pending, twoUrls.startup.Stoppable op) ∧
    ∀ t, machine.Run Unattended twoUrls.startup.shutdown t → t.timers = 1 ∧ t.queried = [] := by
  have hstop : ∀ op ∈ twoUrls.startup.pending, twoUrls.startup.Stoppable op := by
    intro op hmem
    rw [Multiset.mem_singleton.mp hmem]
    rfl
  exact ⟨hstop, (shutdown_stops_iff twoUrls.startup).mpr hstop⟩

/-- The first URL is asked. -/
def askingFirst : List Act := [.startup, .complete (.timer 0 6000000 .armed true)]

/-- `shutdown()` is called while the first URL is asked. It answers, and the timer is set again. -/
theorem refresh_survives_shutdown : ∃ c t : ClusterMembership, machine.Reachable Any c ∧
    machine.Run Unattended c.shutdown t ∧ t.timers = c.timers + 1 := by
  let c := twoUrls.startup.asking (.timer 0 6000000 .armed) 0
  have hrun : machine.exec twoUrls askingFirst = some c := rfl
  refine ⟨c, c.shutdown.handle (.memberList [[1], [2]] 0 (secondReplies 1)),
    ⟨twoUrls, ⟨[[1], [2]], 6000000, rfl⟩, run_of_exec hrun⟩, ?_, rfl⟩
  exact .single (.complete (.memberList [[1], [2]] 0 (secondReplies 1))) trivial rfl

end ClusterMembership

end GeeH
