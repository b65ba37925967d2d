import GeeH.Election.Fencing
import GeeH.Election.Succession
import GeeH.Fairness

/-!
# GeeH.Election.Liveness — the oldest candidate is elected in the end

Endless behaviors in which operations complete with ok and OK status, no watch
is canceled, and one candidate neither resigns nor is destroyed. If the server
and the completion queue serve it fairly, and no node is older than its own, it
will be elected, whatever the other candidates do and whoever writes to etcd.

The proof follows the phases of `GeeH.Election.Succession` backwards: a query
that is not answered yet names nobody (`asking`), a read reports the deletion
of the former predecessor (`reading`), a watch on it is created (`creating`),
and a query that was answered earlier may still name it (`named`).
-/

namespace GeeH.Election

open Etcd Machine Candidate

universe u

/-- No write makes an older node. -/
theorem NoOlder.extends {e e' : Store} {c : Candidate} (h : NoOlder e c)
    (hr : Issued e c.creationRevision) (hext : e.Extends e') : NoOlder e' c := by
  intro kv hkv hel
  rcases hext.hasNode ⟨kv, hkv, rfl, rfl⟩ with ⟨old, hold, hkey, hrev⟩ | hnew
  · rw [← hrev]
    exact h old hold (hkey ▸ hel)
  · have := hr.2
    omega

theorem not_predecessor {e : Store} {c : Candidate} {k : Bytes} (h : NoOlder e c) :
    ¬ Predecessor e c k := by
  rintro ⟨kv, hkv, hkey, hel, hlt, _⟩
  have hle := h kv hkv (hkey ▸ hel)
  omega

namespace System

variable {ι : Type u} [DecidableEq ι] {i : ι} {s s' : System ι}

/-- Nothing fails, and the campaign of the candidate goes on. -/
def Committed (i : ι) (s : System ι) (a : Act ι) : Prop :=
  s.Healthy a ∧ a ≠ .client i .resign ∧ a ≠ .client i .destroy

/-- The server answers the query of the candidate, or an operation of it completes. -/
def Serves (i : ι) (_ : System ι) : Act ι → Prop
  | .serveRange j _ => j = i
  | .client j (.complete _) => j = i
  | _ => False

/-- A read reports something of a watch of the candidate. -/
def Delivers (i : ι) (id : Nat) (_ : System ι) : Act ι → Prop
  | .deliver j _ _ id' n _ _ => j = i ∧ id' = id ∧ 0 < n
  | _ => False

/-- No watch is canceled. -/
theorem live_watches (h : machine.Reachable Healthy s) (i : ι) (id : Nat) :
    (s.watch i id).canceled = false := by
  refine h.invariant ?_ ?_
  · rintro s ⟨name, lease, value, revision, hrev, hinj, rfl⟩
    rfl
  · intro s a s' ih hok hstep
    cases step_cases hstep with
    | deliver j wkey wrevision id' n canceled compactRevision req c' o hreq hlive hn hact =>
      rcases hok with ⟨rfl, rfl⟩
      show (Function.update s.watch j _ i id).canceled = false
      by_cases hj : i = j
      · subst hj
        rw [Function.update_self]
        by_cases hid : id = id'
        · subst hid
          rw [Function.update_self]
          rfl
        · rw [Function.update_of_ne hid]
          exact ih
      · rw [Function.update_of_ne hj]
        exact ih
    | client => exact ih
    | range => exact ih
    | txn => exact ih
    | write => exact ih

/-! ## The steps of one candidate -/

/-- What a step does for the campaign of one candidate. -/
inductive Own (i : ι) (s : System ι) : Act ι → System ι → Prop where
  /-- Others move, and the store may grow. -/
  | others (a : Act ι) (s' : System ι) (hc : (s'.cand i).Campaigning)
      (hcore : (s'.cand i).core = (s.cand i).core) (hwatch : s'.watch i = s.watch i)
      (hlog : ∃ new, s'.etcd.log = s.etcd.log ++ new)
      (hserves : ¬ Serves i s a) (hdelivers : ∀ id, ¬ Delivers i id s a) : Own i s a s'
  | answered (req : RangeRequest) (hmem : .queryPredecessor req none ∈ (s.cand i).pending) :
      Own i s (.serveRange i req)
        { s with
          cand := Function.update s.cand i ((s.cand i).answerRange req (s.etcd.range req)) }
  | completed (k : Completion) (hcl : isClient (.complete k) = true)
      (hmem : k.op ∈ (s.cand i).pending) (hwf : k.WellFormed) (hok : Act.Ok (.complete k)) :
      Own i s (.client i (.complete k))
        { s with cand := Function.update s.cand i ((s.cand i).handle k).1 }
  | delivered (wkey : Bytes) (wrevision : Int) (id n : Nat) (req : WatchCreateRequest)
      (hmem : .watchRead wkey wrevision ∈ (s.cand i).pending)
      (hreq : (s.cand i).requests[id]? = some req)
      (hn : n ≤ ((s.watch i id).undelivered req s.etcd.log).length) :
      Own i s (.deliver i wkey wrevision id n false 0)
        { s with
          cand := Function.update s.cand i ((s.cand i).handle (.watchRead wkey wrevision true
            (watchResponse (s.watch i id) req s.etcd.log id n false 0))).1
          watch := Function.update s.watch i (Function.update (s.watch i) id
            (watchSent (s.watch i id) n false 0)) }

theorem own_step {a : Act ι} (hs : Consistent s) (hc : (s.cand i).Campaigning)
    (hok : Committed i s a) (hstep : s.step a = some s') : Own i s a s' := by
  have hi := (hs.tied i).inv
  rcases hok with ⟨hhealthy, hresign, hdestroy⟩
  -- a step of the candidate that is no part of the loop leaves the campaign alone
  have hsame : ∀ {b : Candidate.Act} {c' : Candidate} {o : Outcome},
      (s.cand i).act b = some (c', o) → b ≠ .resign → b ≠ .destroy →
      (∀ k, b ≠ .complete k) → (∀ req resp, b ≠ .answerRange req resp) →
      c'.Campaigning ∧ c'.core = (s.cand i).core := by
    intro b c' o hact hr hd hk hans
    have hc' := campaigning_act hi hact hc hr hd
    refine ⟨hc', ?_⟩
    cases progress_cases hi hact hc' with
    | same _ _ hcore => exact hcore
    | started _ hno _ => exact absurd (hno.symm.trans hc.1) (by simp)
    | answered req resp _ _ _ => exact absurd rfl (hans req resp)
    | completed k _ _ _ _ => exact absurd rfl (hk k)
  -- nor does a step of another candidate
  have hother : ∀ {j : ι} (c' : Candidate), j ≠ i →
      (Function.update s.cand j c' i).Campaigning ∧
        (Function.update s.cand j c' i).core = (s.cand i).core := by
    intro j c' hj
    rw [Function.update_of_ne (Ne.symm hj)]
    exact ⟨hc, rfl⟩
  cases step_cases hstep with
  | client j b c' o hcl hact =>
    by_cases hb : j = i ∧ ∃ k, b = .complete k
    · rcases hb with ⟨rfl, k, rfl⟩
      rcases completed_of_act hact with ⟨hmem, hwf, rfl⟩
      exact .completed k hcl hmem hwf hhealthy
    · have hkept : (Function.update s.cand j c' i).Campaigning ∧
          (Function.update s.cand j c' i).core = (s.cand i).core := by
        by_cases hj : j = i
        · subst hj
          rw [Function.update_self]
          refine hsame hact (fun h => hresign (by rw [h])) (fun h => hdestroy (by rw [h]))
            (fun k h => hb ⟨rfl, k, h⟩) ?_
          rintro req resp rfl
          cases hcl
        · exact hother c' hj
      refine .others _ _ hkept.1 hkept.2 rfl ⟨[], by simp⟩ ?_ (fun _ => id)
      intro hserves
      cases b with
      | complete k => exact hb ⟨hserves, k, rfl⟩
      | _ => exact hserves
  | range j req c' o hact =>
    by_cases hj : j = i
    · subst hj
      rcases of_guard hact with ⟨hmem, rfl⟩
      exact .answered req hmem
    · exact .others _ _ (hother c' hj).1 (hother c' hj).2 rfl ⟨[], by simp⟩ hj (fun _ => id)
  | txn j call req c' o hreq hact =>
    have hkept : (Function.update s.cand j c' i).Campaigning ∧
        (Function.update s.cand j c' i).core = (s.cand i).core := by
      by_cases hj : j = i
      · subst hj
        rw [Function.update_self]
        exact hsame hact (by simp) (by simp) (by simp) (by simp)
      · exact hother c' hj
    exact .others _ _ hkept.1 hkept.2 rfl ⟨_, Store.commit_log _ _⟩ (fun h => h) (fun _ => id)
  | deliver j wkey wrevision id n canceled compactRevision req c' o hreq hlive hn hact =>
    rcases hhealthy with ⟨rfl, rfl⟩
    by_cases hj : j = i
    · subst hj
      rcases completed_of_act hact with ⟨hmem, _, rfl⟩
      exact .delivered wkey wrevision id n req hmem hreq hn
    · refine .others _ _ (hother c' hj).1 (hother c' hj).2 ?_ ⟨[], by simp⟩ (fun h => h)
        (fun _ h => hj h.1)
      exact Function.update_of_ne (Ne.symm hj) _ _
  | write ops hops =>
    exact .others _ _ hc rfl rfl ⟨_, Store.commit_log _ _⟩ (fun h => h) (fun _ => id)

/-- The campaign goes on, with the same node. -/
theorem campaign_kept {a : Act ι} (hs : Consistent s) (hc : (s.cand i).Campaigning)
    (hok : Committed i s a) (hstep : s.step a = some s') :
    (s'.cand i).Campaigning ∧ (s'.cand i).electionName = (s.cand i).electionName ∧
      (s'.cand i).creationRevision = (s.cand i).creationRevision := by
  have hhandle : ∀ k, ((s.cand i).handle k).1.Campaigning ∧
      ((s.cand i).handle k).1.electionName = (s.cand i).electionName ∧
      ((s.cand i).handle k).1.creationRevision = (s.cand i).creationRevision := by
    intro k
    have hview := callView_handle (s.cand i) k
    exact ⟨(campaigning_handle _ k).mpr hc, congrArg CallView.electionName hview,
      congrArg CallView.creationRevision hview⟩
  cases own_step hs hc hok hstep with
  | others _ _ hc' hcore _ _ _ _ =>
    exact ⟨hc', congrArg Core.electionName hcore, congrArg Core.creationRevision hcore⟩
  | answered req hmem =>
    simp only [Function.update_self]
    exact ⟨hc, rfl, rfl⟩
  | completed k hcl hmem hwf hok =>
    simp only [Function.update_self]
    exact hhandle k
  | delivered wkey wrevision id n req hmem hreq hn =>
    simp only [Function.update_self]
    exact hhandle _

/-- The candidate campaigns, and no node is older than its own. -/
def Eligible (i : ι) (s : System ι) : Prop :=
  (s.cand i).Campaigning ∧ NoOlder s.etcd (s.cand i)

theorem Eligible.step {a : Act ι} (hs : Consistent s) (h : Eligible i s)
    (hok : Committed i s a) (hstep : s.step a = some s') : Eligible i s' := by
  have hno := h.2.extends ((hs.tied i).created h.1.1) (step_extends hstep)
  rcases campaign_kept hs h.1 hok hstep with ⟨hc, hname, hrev⟩
  exact ⟨hc, hno.congr hname hrev⟩

/-! ## The phases, from the last to the first -/

/-- The query is out, or its answer. -/
def Asks (i : ι) (resp : Option RangeResponse) (s : System ι) : Prop :=
  Eligible i s ∧ (s.cand i).watchedKeys = ∅ ∧
    (s.cand i).pending = .queryPredecessor (s.cand i).predecessorRequest resp ::ₘ 0

/-- The watch is being created. -/
def Creates (i : ι) (s : System ι) : Prop :=
  Eligible i s ∧ ∃ k rev, (s.cand i).pending = .watchCreate k rev ::ₘ 0

/-- The read is out, and `d` events of a watch come before the deletion that it waits for. -/
def Reads (i : ι) (id d : Nat) (s : System ι) : Prop :=
  Eligible i s ∧ ∃ wkey wrevision k req ev,
    (s.cand i).pending = .watchRead wkey wrevision ::ₘ 0 ∧ (s.cand i).watchedKeys = {k} ∧
    (s.cand i).requests[id]? = some req ∧
    ((s.watch i id).undelivered req s.etcd.log)[d]? = some ev ∧ Deletes k ev

section Phases

variable {b : Behavior machine (Committed i)}

theorem reachable_healthy (hs : machine.Reachable (Committed i) s) :
    machine.Reachable Healthy s :=
  hs.mono fun _ _ hok => hok.1

theorem reachable_consistent_of (hs : machine.Reachable (Committed i) s) : Consistent s :=
  reachable_consistent (hs.mono fun _ _ _ => trivial)

/-- `LeadsTo.wf1`, in terms of what a step does for the candidate. -/
theorem own_wf1 {p q : System ι → Prop} {helpful : System ι → Act ι → Prop}
    (hfair : b.Fair helpful) (helig : ∀ s, p s → Eligible i s)
    (hown : ∀ s a s', machine.Reachable (Committed i) s → machine.Reachable (Committed i) s' →
      p s → Eligible i s' → Own i s a s' → (p s' ∧ ¬ helpful s a) ∨ q s')
    (hable : ∀ s, machine.Reachable (Committed i) s → p s →
      Behavior.Enabled machine (Committed i) helpful s) : b.LeadsTo p q := by
  have hcases : ∀ s a s', machine.Reachable (Committed i) s → p s → Committed i s a →
      machine.step s a = some s' → (p s' ∧ ¬ helpful s a) ∨ q s' := by
    intro s a s' hs hp hok hstep
    have hc := reachable_consistent_of hs
    exact hown s a s' hs (hs.run (.single a hok hstep)) hp ((helig s hp).step hc hok hstep)
      (own_step hc (helig s hp).1 hok hstep)
  refine .wf1 hfair ?_ ?_ hable
  · intro s a s' hs hp hok hstep
    exact (hcases s a s' hs hp hok hstep).imp_left And.left
  · intro s a s' hs hp hhelp hok hstep
    exact (hcases s a s' hs hp hok hstep).resolve_left fun h => h.2 hhelp

theorem enabled_complete {k : Completion} (hcl : isClient (.complete k) = true)
    (hmem : k.op ∈ (s.cand i).pending) (hwf : k.WellFormed) (hok : Act.Ok (.complete k)) :
    Behavior.Enabled machine (Committed i) (Serves i) s := by
  refine ⟨.client i (.complete k), rfl, ⟨hok, by simp, by simp⟩, ?_⟩
  simp [machine, step, hcl, Candidate.act, hmem, hwf]

theorem mem_single {op op' : Op} {m : Multiset Op} (h : m = op ::ₘ 0) (hmem : op' ∈ m) :
    op' = op := by
  rw [h] at hmem
  simpa using hmem

omit [DecidableEq ι] in
theorem Asks.others {resp : Option RangeResponse} (h : Asks i resp s) (helig : Eligible i s')
    (hcore : (s'.cand i).core = (s.cand i).core) : Asks i resp s' := by
  refine ⟨helig, (congrArg Core.watchedKeys hcore).trans h.2.1, ?_⟩
  rw [predecessorRequest_congr (congrArg Core.electionName hcore)
    (congrArg Core.creationRevision hcore)]
  exact (congrArg Core.pending hcore).trans h.2.2

/-- The answer names nobody: the candidate is elected. -/
theorem unnamed_leads (hfair : b.Fair (Serves i)) :
    b.LeadsTo (fun s => ∃ resp, resp.kvs = [] ∧ Asks i (some resp) s)
      (fun s => (s.cand i).elected = true) := by
  refine own_wf1 hfair (fun s ⟨_, _, h⟩ => h.1) ?_ ?_
  · rintro s a s' _ _ ⟨resp, hnil, hasks⟩ helig' hown
    have ⟨_, hw, hpend⟩ := hasks
    cases hown with
    | others _ _ hc hcore hwatch hlog hserves hdelivers =>
      exact .inl ⟨⟨resp, hnil, hasks.others helig' hcore⟩, hserves⟩
    | answered req hmem => cases mem_single hpend hmem
    | completed k hcl hmem hwf hok =>
      right
      have hop := mem_single hpend hmem
      cases k with
      | rangeRequest req resp' ok status =>
        cases hop
        rcases hok with ⟨rfl, hst⟩
        have hcore := core_rangeEmpty (s.cand i) (s.cand i).predecessorRequest hst hnil
        rw [if_pos hw] at hcore
        simp only [Function.update_self]
        exact congrArg Core.elected hcore
      | watchCreate => cases hop
      | watchRead => cases hop
    | delivered wkey wrevision id n req hmem hreq hn => cases mem_single hpend hmem
  · rintro s _ ⟨resp, hnil, helig, hw, hpend⟩
    refine enabled_complete (k := .rangeRequest (s.cand i).predecessorRequest (some resp) true {})
      rfl ?_ (fun _ _ => rfl) ⟨rfl, rfl⟩
    rw [hpend]
    exact Multiset.mem_cons_self _ _

/-- The server answers the query, and there is nobody to name. -/
theorem asking_leads (hfair : b.Fair (Serves i)) :
    b.LeadsTo (Asks i none) (fun s => ∃ resp, resp.kvs = [] ∧ Asks i (some resp) s) := by
  refine own_wf1 hfair (fun s h => h.1) ?_ ?_
  · rintro s a s' hs _ hasks helig' hown
    have ⟨helig, hw, hpend⟩ := hasks
    cases hown with
    | others _ _ hc hcore hwatch hlog hserves hdelivers =>
      exact .inl ⟨hasks.others helig' hcore, hserves⟩
    | answered req hmem =>
      cases mem_single hpend hmem
      have hr := ((reachable_consistent_of hs).tied i).created helig.1.1
      refine .inr ⟨s.etcd.range (s.cand i).predecessorRequest, ?_, helig', ?_⟩
      · rcases range_predecessor (e := s.etcd) hr.1 with ⟨hnil, _⟩ | ⟨kv, _, hpred⟩
        · exact hnil
        · exact absurd hpred (not_predecessor helig.2)
      · simp only [Function.update_self]
        refine ⟨hw, ?_⟩
        show _ ::ₘ (s.cand i).pending.erase _ = _
        rw [hpend, Multiset.erase_cons_head]
        rfl
    | completed k hcl hmem hwf hok =>
      -- the query has no answer yet, so it does not complete
      have hop := mem_single hpend hmem
      cases k with
      | rangeRequest req resp ok status =>
        cases hop
        cases hwf hok.1 hok.2
      | watchCreate => cases hop
      | watchRead => cases hop
    | delivered wkey wrevision id n req hmem hreq hn => cases mem_single hpend hmem
  · rintro s _ ⟨helig, hw, hpend⟩
    have hmem : .queryPredecessor (s.cand i).predecessorRequest none ∈ (s.cand i).pending := by
      rw [hpend]
      exact Multiset.mem_cons_self _ _
    refine ⟨.serveRange i (s.cand i).predecessorRequest, rfl, ⟨trivial, by simp, by simp⟩, ?_⟩
    simp [machine, step, Candidate.act, hmem]

/-- The answer names a node that is gone: a watch on it is created. -/
theorem named_leads (hfair : b.Fair (Serves i)) :
    b.LeadsTo (fun s => ∃ resp kv, resp.kvs = [kv] ∧ Asks i (some resp) s) (Creates i) := by
  refine own_wf1 hfair (fun s ⟨_, _, _, h⟩ => h.1) ?_ ?_
  · rintro s a s' hs _ ⟨resp, kv, hkv, hasks⟩ helig' hown
    have ⟨helig, hw, hpend⟩ := hasks
    cases hown with
    | others _ _ hc hcore hwatch hlog hserves hdelivers =>
      exact .inl ⟨⟨resp, kv, hkv, hasks.others helig' hcore⟩, hserves⟩
    | answered req hmem => cases mem_single hpend hmem
    | completed k hcl hmem hwf hok =>
      have hop := mem_single hpend hmem
      cases k with
      | rangeRequest req resp' ok status =>
        cases hop
        rcases hok with ⟨rfl, hst⟩
        have hops := (((reachable_consistent_of hs).tied i).inv.granting helig.1).1
        have hcore := core_rangeNamed (s.cand i) (s.cand i).predecessorRequest hops hst hkv
        rw [hpend, Multiset.erase_cons_head] at hcore
        refine .inr ⟨helig', kv.key, resp.revision, ?_⟩
        simp only [Function.update_self]
        exact congrArg Core.pending hcore
      | watchCreate => cases hop
      | watchRead => cases hop
    | delivered wkey wrevision id n req hmem hreq hn => cases mem_single hpend hmem
  · rintro s _ ⟨resp, kv, hkv, helig, hw, hpend⟩
    refine enabled_complete (k := .rangeRequest (s.cand i).predecessorRequest (some resp) true {})
      rfl ?_ (fun _ _ => rfl) ⟨rfl, rfl⟩
    rw [hpend]
    exact Multiset.mem_cons_self _ _

/-- While a read is out, a watch has the deletion to report: the predecessor is gone. -/
theorem reads_of_pending (hs : machine.Reachable (Committed i) s) (helig : Eligible i s)
    {wkey : Bytes} {wrevision : Int} (hpend : (s.cand i).pending = .watchRead wkey wrevision ::ₘ 0) :
    ∃ id d, Reads i id d s := by
  have hphase := reachable_inPhase (reachable_healthy hs) i helig.1
  have hmem : .watchRead wkey wrevision ∈ (s.cand i).pending := by
    rw [hpend]
    exact Multiset.mem_cons_self _ _
  rcases hphase.of_stream hmem rfl with ⟨k, _, hw, _, id, rev, hreq, _, hpred | ⟨ev, hev, hdel⟩⟩
  · exact absurd hpred (not_predecessor helig.2)
  · rcases List.getElem?_of_mem hev with ⟨d, hd⟩
    exact ⟨id, d, helig, wkey, wrevision, k, _, ev, hpend, hw, hreq, hd, hdel⟩

theorem creating_leads (hfair : b.Fair (Serves i)) :
    b.LeadsTo (Creates i) (fun s => ∃ id d, Reads i id d s) := by
  refine own_wf1 hfair (fun s h => h.1) ?_ ?_
  · rintro s a s' hs hs' ⟨helig, k, rev, hpend⟩ helig' hown
    cases hown with
    | others _ _ hc hcore hwatch hlog hserves hdelivers =>
      exact .inl ⟨⟨helig', k, rev, (congrArg Core.pending hcore).trans hpend⟩, hserves⟩
    | answered req hmem => cases mem_single hpend hmem
    | completed c hcl hmem hwf hok =>
      have hop := mem_single hpend hmem
      cases c with
      | watchCreate wkey wrevision ok =>
        cases hop
        obtain rfl : ok = true := hok
        have hreads := (((reachable_consistent_of hs).tied i).inv.granting helig.1).2
        have hcore := core_watchCreate (s.cand i) k rev hreads
        rw [hpend, Multiset.erase_cons_head] at hcore
        have hpend' : (Function.update s.cand i ((s.cand i).handle (.watchCreate k rev true)).1
            i).pending = .watchRead k rev ::ₘ 0 := by
          rw [Function.update_self]
          exact congrArg Core.pending hcore
        exact .inr (reads_of_pending hs' helig' hpend')
      | rangeRequest => cases hop
      | watchRead => cases hop
    | delivered wkey wrevision id n req hmem hreq hn => cases mem_single hpend hmem
  · rintro s _ ⟨helig, k, rev, hpend⟩
    refine enabled_complete (k := .watchCreate k rev true) rfl ?_ trivial rfl
    rw [hpend]
    exact Multiset.mem_cons_self _ _

/-- What is undelivered comes in the same order when the store has grown. -/
theorem undelivered_getElem {w : WatchState} {req : WatchCreateRequest} {l new : List Event}
    {d : Nat} {ev : Event} (hsent : w.sent ≤ (req.events l).length)
    (h : (w.undelivered req l)[d]? = some ev) : (w.undelivered req (l ++ new))[d]? = some ev := by
  rw [undelivered_append hsent,
    List.getElem?_append_left (List.getElem?_eq_some_iff.mp h).1]
  exact h

/-- What a response leaves undelivered comes that much earlier. -/
theorem undelivered_sent {w : WatchState} {req : WatchCreateRequest} {l : List Event} {d n : Nat}
    {ev : Event} (hn : n ≤ d) (h : (w.undelivered req l)[d]? = some ev) :
    ((watchSent w n false 0).undelivered req l)[d - n]? = some ev := by
  have hindex : w.sent + n + (d - n) = w.sent + d := by omega
  simp only [WatchState.undelivered, List.getElem?_drop] at h ⊢
  show (req.events l)[w.sent + n + (d - n)]? = some ev
  rw [hindex]
  exact h

/-- A response of the watch brings the deletion closer, or reports it. -/
theorem reading_counts (id d : Nat) (hfair : b.Fair (Delivers i id)) :
    b.LeadsTo (Reads i id d) (fun s => Asks i none s ∨ ∃ d' < d, Reads i id d' s) := by
  refine own_wf1 hfair (fun s h => h.1) ?_ ?_
  · rintro s a s' hs hs' ⟨helig, wkey, wrevision, k, req, ev, hpend, hw, hreq, hev, hdel⟩ helig' hown
    have hwatches := (reachable_watching hs).watches i
    cases hown with
    | others _ _ hc hcore hwatch hlog hserves hdelivers =>
      rcases hlog with ⟨new, hlog⟩
      have hreq' : (s'.cand i).requests[id]? = some req := by
        rw [show (s'.cand i).requests = (s.cand i).requests from congrArg Core.requests hcore]
        exact hreq
      refine .inl ⟨⟨helig', wkey, wrevision, k, req, ev, (congrArg Core.pending hcore).trans hpend,
        (congrArg Core.watchedKeys hcore).trans hw, hreq', ?_, hdel⟩, hdelivers id⟩
      rw [hwatch, hlog]
      exact undelivered_getElem (hwatches.sent id req hreq) hev
    | answered req' hmem => cases mem_single hpend hmem
    | completed c hcl hmem hwf hok =>
      have hop := mem_single hpend hmem
      cases c with
      | watchRead wkey' wrevision' ok resp =>
        obtain rfl : ok = true := hok
        cases hcl
      | rangeRequest => cases hop
      | watchCreate => cases hop
    | delivered wkey' wrevision' id' n req' hmem hreq' hn =>
      cases mem_single hpend hmem
      rcases ((reachable_consistent_of hs).tied i).inv.granting helig.1 with ⟨hops, hreads⟩
      set resp := watchResponse (s.watch i id') req' s.etcd.log id' n false 0 with hresp
      have hcore := core_watchRead (s.cand i) wkey wrevision resp hops hreads
      rw [hpend, Multiset.erase_cons_head, stillWatched_singleton hw] at hcore
      have hreqs : ((s.cand i).handle (.watchRead wkey wrevision true resp)).1.requests =
          (s.cand i).requests := congrArg Core.requests hcore
      by_cases hk : k ∈ deletedKeys resp.events
      -- the deletion is reported: ask again
      · rw [if_pos hk, if_pos (Or.inr (Or.inr rfl))] at hcore
        refine .inr (.inl ⟨helig', ?_⟩)
        simp only [Function.update_self]
        refine ⟨congrArg Core.watchedKeys hcore, (congrArg Core.pending hcore).trans ?_⟩
        exact congrArg (Op.queryPredecessor · none ::ₘ 0) (predecessorRequest_congr
          (congrArg Core.electionName hcore) (congrArg Core.creationRevision hcore)).symm
      · rw [if_neg hk, if_neg (by simp [hresp, watchResponse])] at hcore
        have hreads' : ∀ d', ((Function.update (s.watch i) id' (watchSent (s.watch i id') n false 0)
            id).undelivered req s.etcd.log)[d']? = some ev →
            Reads i id d'
              { s with
                cand := Function.update s.cand i ((s.cand i).handle
                  (.watchRead wkey wrevision true resp)).1
                watch := Function.update s.watch i (Function.update (s.watch i) id'
                  (watchSent (s.watch i id') n false 0)) } := by
          intro d' hd'
          refine ⟨helig', wkey, wrevision, k, req, ev, ?_⟩
          simp only [Function.update_self]
          exact ⟨congrArg Core.pending hcore, congrArg Core.watchedKeys hcore, hreqs ▸ hreq, hd',
            hdel⟩
        by_cases hid : id = id'
        · subst hid
          obtain rfl : req' = req := Option.some.inj (hreq'.symm.trans hreq)
          -- the deletion comes after what was reported
          have hle : n ≤ d := by
            by_contra hlt
            refine hk (mem_deletedKeys (List.mem_of_getElem? (i := d) ?_) hdel)
            show (((s.watch i id).undelivered req' s.etcd.log).take n)[d]? = some ev
            rw [List.getElem?_take_of_lt (by omega)]
            exact hev
          have hnext := hreads' (d - n) (by
            rw [Function.update_self]
            exact undelivered_sent hle hev)
          by_cases hzero : n = 0
          · subst hzero
            exact .inl ⟨hnext, fun h => Nat.lt_irrefl 0 h.2.2⟩
          · exact .inr (.inr ⟨d - n, by omega, hnext⟩)
        · refine .inl ⟨hreads' d ?_, fun h => hid h.2.1.symm⟩
          rw [Function.update_of_ne hid]
          exact hev
  · rintro s hs ⟨helig, wkey, wrevision, k, req, ev, hpend, hw, hreq, hev, hdel⟩
    have hmem : .watchRead wkey wrevision ∈ (s.cand i).pending := by
      rw [hpend]
      exact Multiset.mem_cons_self _ _
    have hlive := live_watches (reachable_healthy hs) i id
    have hlen : 1 ≤ ((s.watch i id).undelivered req s.etcd.log).length := by
      have := (List.getElem?_eq_some_iff.mp hev).1
      omega
    refine ⟨.deliver i wkey wrevision id 1 false 0, ⟨rfl, rfl, Nat.one_pos⟩,
      ⟨⟨rfl, rfl⟩, by simp, by simp⟩, ?_⟩
    simp [machine, step, hreq, hlive, Nat.not_lt.mpr hlen, Candidate.act, Completion.op, hmem,
      Completion.WellFormed]

/-- An eligible candidate is in one of these phases, or elected. -/
theorem eligible_phase (hs : machine.Reachable (Committed i) s) (h : Eligible i s) :
    (s.cand i).elected = true ∨ Asks i none s ∨
    (∃ resp, resp.kvs = [] ∧ Asks i (some resp) s) ∨
    (∃ resp kv, resp.kvs = [kv] ∧ Asks i (some resp) s) ∨
    Creates i s ∨ ∃ id d, Reads i id d s := by
  cases reachable_inPhase (reachable_healthy hs) i h.1 with
  | asking resp hpend hw hel htells =>
    cases resp with
    | none => exact .inr (.inl ⟨h, hw, hpend⟩)
    | some resp =>
      rcases (htells resp rfl).2 with ⟨hnil, _⟩ | ⟨kv, hkv, _⟩
      · exact .inr (.inr (.inl ⟨resp, hnil, h, hw, hpend⟩))
      · exact .inr (.inr (.inr (.inl ⟨resp, kv, hkv, h, hw, hpend⟩)))
  | waiting op k hop hpend hw hel hguard =>
    cases op with
    | queryPredecessor => cases hop
    | watchCreate wkey wrevision => exact .inr (.inr (.inr (.inr (.inl ⟨h, wkey, wrevision, hpend⟩))))
    | watchRead wkey wrevision =>
      exact .inr (.inr (.inr (.inr (.inr (reads_of_pending hs h hpend)))))
  | leading hpend hw hel hold => exact .inl hel

/-- The candidate campaigns, is the oldest, and is elected. -/
def Reigns (i : ι) (s : System ι) : Prop := Eligible i s ∧ (s.cand i).elected = true

/-- A candidate that is elected stays so. -/
theorem Reigns.step {a : Act ι} (hs : machine.Reachable (Committed i) s)
    (h : Reigns i s) (hok : Committed i s a) (hstep : s.step a = some s') : Reigns i s' := by
  have hc := reachable_consistent_of hs
  refine ⟨h.1.step hc hok hstep, ?_⟩
  have hnone : (s.cand i).pending = 0 := by
    cases reachable_inPhase (reachable_healthy hs) i h.1.1 with
    | asking resp hpend hw hel htells => exact absurd (h.2.symm.trans hel) (by simp)
    | waiting op k hop hpend hw hel hguard => exact absurd (h.2.symm.trans hel) (by simp)
    | leading hpend hw hel hold => exact hpend
  cases own_step hc h.1.1 hok hstep with
  | others _ _ _ hcore _ _ _ _ => exact (congrArg Core.elected hcore).trans h.2
  | answered req hmem => simp [hnone] at hmem
  | completed k hcl hmem hwf hok => simp [hnone] at hmem
  | delivered wkey wrevision id n req hmem hreq hn => simp [hnone] at hmem

/-- Once no node is older than that of the candidate, it will be elected, and stays so. -/
theorem eligible_elected (b : Behavior machine (Committed i)) (hserves : b.Fair (Serves i))
    (hdelivers : ∀ id, b.Fair (Delivers i id)) (n : Nat) (h : Eligible i (b.state n)) :
    ∃ m, n ≤ m ∧ ∀ k, m ≤ k → ((b.state k).cand i).elected = true := by
  have hunnamed := unnamed_leads hserves
  have hasking := (asking_leads hserves).trans hunnamed
  have hreading : b.LeadsTo (fun s => ∃ id d, Reads i id d s)
      (fun s => (s.cand i).elected = true) := by
    rintro n ⟨id, hd⟩
    exact ((Behavior.LeadsTo.countdown fun d => reading_counts id d (hdelivers id)).trans hasking)
      n hd
  have hcreating := (creating_leads hserves).trans hreading
  have hnamed := (named_leads hserves).trans hcreating
  have hphases := Behavior.LeadsTo.of_imp (b := b) (q := fun s => (s.cand i).elected = true)
    fun _ _ hel => hel
  have hall := hphases.or (hasking.or (hunnamed.or (hnamed.or (hcreating.or hreading))))
  rcases hall n (eligible_phase (b.reachable n) h) with ⟨m, hm, hel⟩
  have helig : Eligible i (b.state m) := by
    refine b.stays ?_ hm h
    intro s a s' hs helig hok hstep
    exact helig.step (reachable_consistent_of hs) hok hstep
  have hreigns : Reigns i (b.state m) := ⟨helig, hel⟩
  refine ⟨m, hm, fun k hk => ?_⟩
  have hkept : Reigns i (b.state k) := by
    refine b.stays ?_ hk hreigns
    intro s a s' hs hkept hok hstep
    exact hkept.step hs hok hstep
  exact hkept.2

/-- The campaign of the candidate goes on, with the node of that create revision. -/
def Campaigns (i : ι) (name : Bytes) (r : Int) (s : System ι) : Prop :=
  (s.cand i).Campaigning ∧ (s.cand i).electionName = name ∧ (s.cand i).creationRevision = r

/-- A node that is gone does not come back. -/
theorem gone_stays {k : Bytes} {r : Int} {n m : Nat} (hnm : n ≤ m)
    (hr : r ≤ (b.state n).etcd.revision) (hgone : ¬ (b.state n).etcd.HasNode k r) :
    ¬ (b.state m).etcd.HasNode k r := by
  intro hnode
  rcases (run_extends (b.run hnm)).hasNode hnode with hold | hnew
  · exact hgone hold
  · omega

/-- A node is not there any more. -/
def Gone (kv : KeyValue) (s : System ι) : Prop := ¬ s.etcd.HasNode kv.key kv.createRevision

/-- When each node before it has gone, a candidate is eligible. -/
theorem eligible_of_gone {name : Bytes} {r : Int} {n : Nat} (hc : Campaigns i name r (b.state n))
    (hgo : ∀ kv ∈ (b.state n).etcd.kvs, InElection name kv.key → kv.createRevision < r →
      ∃ m, n ≤ m ∧ Gone kv (b.state m)) :
    ∃ m, n ≤ m ∧ Eligible i (b.state m) := by
  let Older := { kv : KeyValue // kv ∈ (b.state n).etcd.kvs ∧ InElection name kv.key ∧
    kv.createRevision < r }
  have : Finite Older := (List.finite_toSet (b.state n).etcd.kvs).subset fun _ h => h.1
  have hall : ∃ m, n ≤ m ∧ ∀ k, m ≤ k → ∀ kv : Older, Gone kv.1 (b.state k) := by
    refine Behavior.eventually_all (p := fun kv : Older => Gone kv.1) ?_
    rintro ⟨kv, hkv, hel, hlt⟩
    rcases hgo kv hkv hel hlt with ⟨m, hm, hgone⟩
    have hr : kv.createRevision ≤ (b.state m).etcd.revision := by
      have hbound := (b.state n).etcd.kvs_bounded kv hkv
      have hext := (run_extends (b.run hm)).revision
      omega
    exact ⟨m, hm, fun k hk => gone_stays hk hr hgone⟩
  rcases hall with ⟨m, hm, hall⟩
  have hkept : Campaigns i name r (b.state m) := by
    refine b.stays (p := Campaigns i name r) ?_ hm hc
    rintro s a s' hs ⟨hc, hname, hrev⟩ hok hstep
    rcases campaign_kept (reachable_consistent_of hs) hc hok hstep with ⟨hc', hname', hrev'⟩
    exact ⟨hc', hname'.trans hname, hrev'.trans hrev⟩
  refine ⟨m, hm, hkept.1, ?_⟩
  intro kv hkv hel
  rw [hkept.2.1] at hel
  rw [hkept.2.2]
  by_contra hlt
  -- an older node was there before, since its revision was
  rcases (run_extends (b.run hm)).hasNode ⟨kv, hkv, rfl, rfl⟩ with ⟨old, hold, hkey, hrev⟩ | hnew
  · refine hall m (Nat.le_refl m) ⟨old, hold, hkey ▸ hel, by omega⟩ ?_
    exact ⟨kv, hkv, hkey.symm, hrev.symm⟩
  · have hissued := ((reachable_consistent_of (b.reachable n)).tied i).created hc.1.1
    rw [hc.2.2] at hissued
    have := hissued.2
    omega

/-- Nobody starves: in a behavior that is fair to a candidate, once it campaigns and if every
older node of the election goes at some time, the candidate will be elected, and stays so for as
long as it does not resign, whatever the others do and whoever else joins. -/
theorem campaign_elected (b : Behavior machine (Committed i)) (hserves : b.Fair (Serves i))
    (hdelivers : ∀ id, b.Fair (Delivers i id)) (n : Nat)
    (hc : ((b.state n).cand i).Campaigning)
    (hgo : ∀ kv ∈ (b.state n).etcd.kvs, InElection ((b.state n).cand i).electionName kv.key →
      kv.createRevision < ((b.state n).cand i).creationRevision →
        ∃ m, n ≤ m ∧ ¬ (b.state m).etcd.HasNode kv.key kv.createRevision) :
    ∃ m, n ≤ m ∧ ∀ k, m ≤ k → ((b.state k).cand i).elected = true := by
  rcases eligible_of_gone ⟨hc, rfl, rfl⟩ hgo with ⟨m, hm, helig⟩
  rcases eligible_elected b hserves hdelivers m helig with ⟨m', hm', hall⟩
  exact ⟨m', hm.trans hm', hall⟩

end Phases

/-- Nothing can be done for a candidate that has nothing outstanding. -/
theorem idle_disabled (h : (s.cand i).pending = 0) :
    ¬ Behavior.Enabled machine (Committed i) (Serves i) s ∧
    ∀ id, ¬ Behavior.Enabled machine (Committed i) (Delivers i id) s := by
  constructor
  · rintro ⟨a, hserves, _, hsome⟩
    rcases Option.isSome_iff_exists.mp hsome with ⟨s', hstep⟩
    cases step_cases hstep with
    | client j b c' o hcl hact =>
      cases b with
      | complete k =>
        cases hserves
        have hmem := (completed_of_act hact).1
        simp [h] at hmem
      | _ => exact hserves
    | range j req c' o hact =>
      cases hserves
      have hmem := (of_guard hact).1
      simp [h] at hmem
    | _ => exact hserves
  · rintro id ⟨a, hdelivers, _, hsome⟩
    rcases Option.isSome_iff_exists.mp hsome with ⟨s', hstep⟩
    cases step_cases hstep with
    | deliver j wkey wrevision id' n canceled compactRevision req c' o hreq hlive hn hact =>
      obtain ⟨rfl, _, _⟩ := hdelivers
      have hmem := (completed_of_act hact).1
      simp [h, Completion.op] at hmem
    | _ => exact hdelivers

instance (s : System ι) : Decidable (Eligible i s) :=
  have : Decidable (NoOlder s.etcd (s.cand i)) :=
    inferInstanceAs (Decidable (∀ kv ∈ s.etcd.kvs, _ → _))
  inferInstanceAs (Decidable (_ ∧ _))

/-- A check of `Committed` that lets nobody resign. -/
def committed (s : System ι) : Act ι → Bool
  | .client _ .resign => false
  | .client _ .destroy => false
  | a => decide (s.Healthy a)

omit [DecidableEq ι] in
theorem committed_sound (i : ι) (s : System ι) (a : Act ι) (h : committed s a = true) :
    Committed i s a := by
  unfold committed at h
  split at h
  · cases h
  · cases h
  · rename_i hresign hdestroy
    exact ⟨of_decide_eq_true h, hresign i, hdestroy i⟩

/-- The first of two candidates loses its node. The second creates its watch on it, is told,
asks again, and gets its answer. -/
def secondServed : List (Act Bool) :=
  let c₁ := Candidate.init [] 1 []
  let query := predecessorRequest { Candidate.init [] 2 [] with creationRevision := 3 }
  [.write [.deleteRange c₁.key], .client true (.complete (.watchCreate c₁.key 3 true)),
    .deliver true c₁.key 3 0 1 false 0, .serveRange true query,
    .client true (.complete (.rangeRequest query (some { revision := 4 }) true {}))]

/-- A behavior in which the second of two candidates takes over from the first. -/
theorem campaign_elected_second : ∃ b : Behavior machine (Committed (ι := Bool) true),
    (b.state 0).Leads false ∧ ((b.state 0).cand true).Campaigning ∧
    ∃ m, ∀ k, m ≤ k → ((b.state k).cand true).elected = true := by
  have hrun : ((machine.execIf committed (init [] twoLeases (fun _ => []) 1 le_rfl)
      bothCampaign).any fun s =>
        decide (s.Leads false ∧ (s.cand true).Campaigning) &&
          (machine.execIf committed s secondServed).any fun t =>
            decide ((t.cand true).pending = 0 ∧ ∀ kv ∈ s.etcd.kvs,
              kv.createRevision < (s.cand true).creationRevision →
                ¬ t.etcd.HasNode kv.key kv.createRevision)) = true := by decide
  rcases (Option.any_eq_true _ _).mp hrun with ⟨s, hexec, hcheck⟩
  simp only [Bool.and_eq_true, decide_eq_true_eq] at hcheck
  rcases hcheck with ⟨⟨hleads, hc⟩, hrest⟩
  rcases (Option.any_eq_true _ _).mp hrest with ⟨t, hexec', hend⟩
  rcases of_decide_eq_true hend with ⟨hidle, hgone⟩
  have hs : machine.Reachable (Committed true) s :=
    ⟨_, ⟨_, _, _, _, _, by decide, rfl⟩, run_of_execIf (committed_sound true) hexec⟩
  rcases Behavior.exists_of_execIf (committed_sound true) hs hexec' with
    ⟨b, rfl, ⟨last, rfl⟩, _, hfair⟩
  rcases idle_disabled (i := true) hidle with ⟨hserves, hdelivers⟩
  rcases campaign_elected b (hfair _ hserves) (fun id => hfair _ (hdelivers id)) 0 hc
    (fun kv hkv _ hlt => ⟨last, Nat.zero_le last, hgone kv hkv hlt⟩) with ⟨m, _, hall⟩
  exact ⟨b, hleads, hc, m, hall⟩

end System

end GeeH.Election
