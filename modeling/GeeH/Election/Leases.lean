import GeeH.Election.Fencing
import GeeH.Election.Published
import GeeH.Session.Lease

/-!
# GeeH.Election.Leases — leaders that keep their leases

The candidates of an election, each with the session that keeps its lease, on one
clock. A candidate belongs to a `leader_election`, which has made the session
before, and whose lease the candidate has. The server deletes the node of a
candidate when the lease has expired, and nobody else does.

As long as its session is served in time, an elected candidate has its node, so
that no other candidate leads: `elected()` alone tells who the leader is.
-/

namespace GeeH.Election

open Etcd Machine Candidate

universe u

variable {e : Store} {c c' : Candidate}

/-! ## The Txns of a candidate -/

/-- The Txn of a call is one of those of `create_node()` and `publish_value()`. -/
def Shaped (c : Candidate) : Call → Prop
  | .createNode req _ => ∃ value, req = createNodeRequest { c with candidateValue := value }
  | .republish req _ => ∃ value, req = c.publishRequest value (some (.deleteRange c.key))
  | .proclaim value req _ =>
    ∃ rev, req = publishRequest { c with creationRevision := rev } value none
  | _ => True

theorem Shaped.congr {call : Call} (h : Shaped c call) (hlease : c'.leaseId = c.leaseId)
    (hname : c'.electionName = c.electionName)
    (hrev : call.isCampaign = true → c'.creationRevision = c.creationRevision) :
    Shaped c' call := by
  cases call with
  | createNode req resp =>
    rcases h with ⟨value, rfl⟩
    exact ⟨value, by simp [createNodeRequest, key, hlease, hname]⟩
  | republish req resp =>
    rcases h with ⟨value, rfl⟩
    exact ⟨value, by simp [publishRequest, key, hlease, hname, hrev rfl]⟩
  | proclaim value req resp =>
    rcases h with ⟨rev, rfl⟩
    exact ⟨rev, by simp [publishRequest, key, hlease, hname]⟩
  | _ => trivial

theorem Shaped.answered {call call' : Call} {resp : TxnResponse} (h : Shaped c call)
    (hans : call.answered resp = some call') : Shaped c call' := by
  cases call with
  | createNode req r =>
    cases r <;> cases hans
    exact h
  | republish req r =>
    cases r <;> cases hans
    exact h
  | proclaim value req r =>
    cases r <;> cases hans
    exact h
  | _ => cases hans

/-- All Txns of a candidate are. -/
def AllShaped (c : Candidate) : Prop := ∀ call ∈ c.txns, Shaped c call

theorem AllShaped.of_le (h : AllShaped c) (hlease : c'.leaseId = c.leaseId)
    (hname : c'.electionName = c.electionName) (htxns : c'.txns ≤ c.txns)
    (hrev : ∀ call ∈ c'.txns, call.isCampaign = true → c'.creationRevision = c.creationRevision) :
    AllShaped c' :=
  fun call hmem => (h call (Multiset.mem_of_le htxns hmem)).congr hlease hname (hrev call hmem)

theorem AllShaped.cons {call : Call} {s : Multiset Call} (h : AllShaped c)
    (hlease : c'.leaseId = c.leaseId) (hname : c'.electionName = c.electionName)
    (htxns : c'.txns = call ::ₘ s) (hs : s ≤ c.txns) (hcall : Shaped c' call)
    (hrev : ∀ call ∈ s, call.isCampaign = true → c'.creationRevision = c.creationRevision) :
    AllShaped c' := by
  intro call' hmem
  rw [htxns] at hmem
  rcases Multiset.mem_cons.mp hmem with rfl | hold
  · exact hcall
  · exact (h call' (Multiset.mem_of_le hs hold)).congr hlease hname (hrev call' hold)

theorem shaped_act {a : Candidate.Act} {o : Outcome} (h : AllShaped c) (hinv : Inv c)
    (hact : c.act a = some (c', o)) : AllShaped c' := by
  rcases act_identity hact with ⟨hlease, hname⟩
  cases txn_cases hact with
  | other a hview htxns =>
    exact h.of_le hlease hname htxns.le fun _ _ _ => congrArg NodeView.creationRevision hview
  | created hmem hview htxns =>
    have hrev := congrArg NodeView.creationRevision hview
    refine h.cons hlease hname htxns le_rfl ⟨c.candidateValue, ?_⟩ fun _ _ _ => hrev
    simp [createNodeRequest, key, hlease, hname]
  | proclaimed value hview htxns =>
    have hrev := congrArg NodeView.creationRevision hview
    refine h.cons hlease hname htxns le_rfl ⟨c.creationRevision, ?_⟩ fun _ _ _ => hrev
    simp [publishRequest, key, hlease, hname]
  | answered call call' resp hmem hans hview htxns =>
    have hrev := congrArg NodeView.creationRevision hview
    refine h.cons hlease hname htxns (Multiset.erase_le _ _) ?_ fun _ _ _ => hrev
    exact ((h call hmem).answered hans).congr hlease hname fun _ => hrev
  | done call ok status o hmem heq =>
    have herase : (c.unblock call).txns ≤ c.txns := by
      rw [show (c.unblock call).txns = _ from txnCalls_erase (mem_txnCalls.mp hmem).2 _]
      exact Multiset.erase_le _ _
    -- no other call of a campaign is running
    have hothers : call.isCampaign = true →
        ∀ call' ∈ (c.unblock call).txns, call'.isCampaign = true →
          c'.creationRevision = c.creationRevision := by
      intro hcall call' hmem' hcall'
      have hzero := (hinv.campaign_frame (mem_txnCalls.mp hmem).1 hcall).2.2
      exact absurd hcall'
        (Multiset.countP_eq_zero.mp hzero call' (mem_txnCalls.mp hmem').1)
    rcases onTxn_cases heq with ⟨_, rfl⟩ | ⟨req, resp, rfl, rfl⟩ | ⟨req, resp, rfl, rfl⟩ |
      ⟨value, req, resp, rfl, rfl⟩
    · exact h.of_le hlease hname herase fun _ _ _ => rfl
    · rcases onNodeCreated_txns (c.unblock (.createNode req (some resp))) resp with
        ⟨d, rfl, ⟨hd, _⟩ | ⟨hd, _⟩ | ⟨hd, _, _⟩⟩
      · rw [hd] at hlease hname hothers ⊢
        have htxns := (nodeView_startCampaign
          { c.unblock (.createNode req (some resp)) with creationRevision := learned resp }).2
        refine h.of_le hlease hname (htxns.le.trans herase) ?_
        rw [htxns]
        exact hothers rfl
      · rw [hd] at hlease hname hothers ⊢
        refine h.cons hlease hname (txnCalls_cons rfl _) herase ?_ (hothers rfl)
        exact ⟨c.candidateValue, rfl⟩
      · rw [hd] at hlease hname hothers ⊢
        exact h.of_le hlease hname herase (hothers rfl)
    · have hview : ((c.unblock (.republish req (some resp))).onRepublished resp).1.txns =
          (c.unblock (.republish req (some resp))).txns := by
        unfold onRepublished
        split
        · exact (nodeView_startCampaign _).2
        · rfl
      refine h.of_le hlease hname (hview.le.trans herase) ?_
      rw [hview]
      exact hothers rfl
    · have hsame : ((c.unblock (.proclaim value req (some resp))).onProclaimed value resp).1.txns =
          (c.unblock (.proclaim value req (some resp))).txns ∧
          ((c.unblock (.proclaim value req (some resp))).onProclaimed value resp).1.creationRevision
            = c.creationRevision := by
        unfold onProclaimed
        split <;> exact ⟨rfl, rfl⟩
      exact h.of_le hlease hname (hsame.1.le.trans herase) fun _ _ _ => hsame.2

/-! ## Nodes that stay -/

theorem mem_branch {req : TxnRequest} {op : RequestOp} (h : op ∈ e.branch req) :
    op ∈ req.success ++ req.failure := by
  unfold Store.branch at h
  split at h
  · exact List.mem_append_left _ h
  · exact List.mem_append_right _ h

/-- A Txn deletes nothing but the node of its candidate. -/
theorem Shaped.deletes {call : Call} {req : TxnRequest} {k : Bytes} (h : Shaped c call)
    (hreq : request call = some req) (hmem : .deleteRange k ∈ e.branch req) :
    k = c.key ∧ e.succeeds req = false ∧ ∃ resp, call = .republish req resp := by
  cases call with
  | createNode req' resp =>
    cases hreq
    rcases h with ⟨value, rfl⟩
    simpa [createNodeRequest] using mem_branch hmem
  | republish req' resp =>
    cases hreq
    rcases h with ⟨value, rfl⟩
    unfold Store.branch at hmem
    split at hmem
    · simp [publishRequest] at hmem
    · rename_i hfails
      exact ⟨by simpa [publishRequest] using hmem, by simpa using hfails, resp, rfl⟩
  | proclaim value req' resp =>
    cases hreq
    rcases h with ⟨rev, rfl⟩
    simpa [publishRequest] using mem_branch hmem
  | _ => cases hreq

/-- The Txns of other candidates leave a node. -/
theorem Shaped.keeps_other {call : Call} {req : TxnRequest} {k : Bytes} {r : Int}
    (h : Shaped c call) (hreq : request call = some req) (hk : k ≠ c.key)
    (hnode : e.HasNode k r) : (e.txn req).HasNode k r :=
  hnode.commit fun hmem => hk (h.deletes hreq hmem).1

/-- So do those of its own candidate, as long as a republication knows its revision. -/
theorem Shaped.keeps_own {call : Call} {req : TxnRequest} {r : Int} (h : Shaped c call)
    (hreq : request call = some req) (hnode : e.HasNode c.key r)
    (hrev : ∀ resp, call = .republish req resp → c.creationRevision = r) :
    (e.txn req).HasNode c.key r := by
  refine hnode.commit fun hmem => ?_
  rcases h.deletes hreq hmem with ⟨_, hfails, resp, rfl⟩
  rcases h with ⟨value, rfl⟩
  rcases hnode with ⟨kv, hkv, hkey, hcreate⟩
  have hsucc : e.succeeds (c.publishRequest value (some (.deleteRange c.key))) = true := by
    rw [succeeds_iff rfl, Store.get?_kvs hkv hkey, hrev resp rfl]
    exact hcreate
  exact absurd (hsucc.symm.trans hfails) (by simp)

/-! ## The start of a campaign -/

/-- Only `campaign()` takes the future. -/
theorem retrieved_act {a : Candidate.Act} {o : Outcome} (ha : a ≠ .campaign)
    (h : c.act a = some (c', o)) : c'.promise.retrieved = c.promise.retrieved := by
  cases a with
  | campaign => exact absurd rfl ha
  | proclaim value =>
    obtain ⟨-, rfl⟩ := of_guard_not h
    unfold proclaim
    split <;> rfl
  | resign =>
    obtain ⟨-, rfl⟩ := of_guard_not h
    unfold resign
    split
    · rfl
    · cases c.watcherStream <;> rfl
  | destroy =>
    obtain ⟨-, rfl⟩ := of_guard_not h
    rfl
  | answerTxn call resp =>
    simp only [Candidate.act] at h
    split at h
    · rcases Option.map_eq_some_iff.mp h with ⟨call', _, heq⟩
      rw [← show _ = c' from congrArg Prod.fst heq]
      rfl
    · cases h
  | complete k =>
    rcases completed_of_act h with ⟨_, _, rfl⟩
    exact congrArg CallView.retrieved (callView_handle c k)
  | streamCreated ok =>
    obtain ⟨-, rfl⟩ := of_guard h
    cases ok with
    | false => rfl
    | true =>
      simp only [onStreamCreated, Bool.not_true, Bool.false_eq_true, if_false, createNode]
      split <;> rfl
  | txnDone call ok status =>
    simp only [Candidate.act] at h
    split at h
    · have hstart : ∀ d : Candidate, d.startCampaign.1.promise.retrieved = d.promise.retrieved :=
        fun d => congrArg CallView.retrieved (callView_queryPredecessor d)
      rcases onTxn_cases h with ⟨_, rfl⟩ | ⟨req, resp, rfl, rfl⟩ | ⟨req, resp, rfl, rfl⟩ |
        ⟨value, req, resp, rfl, rfl⟩
      · rfl
      · rcases onNodeCreated_txns (c.unblock (.createNode req (some resp))) resp with
          ⟨d, rfl, ⟨hd, _⟩ | ⟨hd, _⟩ | ⟨hd, _, _⟩⟩
        · rw [hd, hstart]
          rfl
        · rw [hd]
          rfl
        · rw [hd]
          rfl
      · unfold onRepublished
        split
        · rw [hstart]
          rfl
        · rfl
      · unfold onProclaimed
        split <;> rfl
    · cases h
  | finished ok =>
    obtain ⟨-, rfl⟩ := of_guard h
    cases ok <;> rfl
  | writesDone ok =>
    obtain ⟨-, rfl⟩ := of_guard h
    cases ok <;> rfl
  | _ =>
    obtain ⟨-, rfl⟩ := of_guard h
    rfl

/-- A candidate that knows its node, or will know it, has started its campaign. -/
theorem Learned.retrieved {r : Int} (h : Learned r c) (hinv : Inv c) :
    c.promise.retrieved = true := by
  have hframe : ∀ {call : Call}, call ∈ c.txns → call.isCampaign = true →
      c.promise.retrieved = true := by
    intro call hmem hcall
    have hroom := (hinv.campaign_frame (mem_txnCalls.mp hmem).1 hcall).2.1
    cases hret : c.promise.retrieved with
    | false => simp [hret] at hroom
    | true => rfl
  cases h with
  | answered req resp hmem => exact hframe hmem rfl
  | adopted req resp hmem => exact hframe hmem rfl
  | campaigned hcamp =>
    have honce := hinv.once
    cases hret : c.promise.retrieved with
    | false => simp [hret, hcamp] at honce
    | true => rfl
  | failed hret => exact hret

/-! ## The node of one candidate -/

namespace System

variable {ι : Type u} {s s' : System ι} {i : ι}

/-- The server has the node that the candidate knows, or will know. -/
def Rooted (i : ι) (s : System ι) : Prop :=
  Unserved (s.cand i) ∨
    ∃ r, Learned r (s.cand i) ∧ s.etcd.HasNode (s.cand i).key r

/-- An elected candidate that has its node leads. -/
theorem Rooted.leads (h : Rooted i s) (hc : Consistent s) (hel : (s.cand i).elected = true) :
    s.Leads i := by
  have hcamp := campaigned_of_elected hc hel
  rcases h with ⟨_, hno⟩ | ⟨r, hlearned, hnode⟩
  · exact absurd (hcamp.symm.trans hno) (by simp)
  · refine ⟨hel, ?_⟩
    rw [hlearned.known (hc.tied i).inv hcamp]
    exact hnode

variable [DecidableEq ι]

/-- The server executes the first Txn of `create_node()`. -/
theorem rooted_createNode {req : TxnRequest} (hc : Consistent s)
    (hstep : s.step (.serveTxn i (.createNode req none)) = some s') : Rooted i s' := by
  cases step_cases hstep with
  | txn _ _ req' c' o hreq hact =>
    cases hreq
    simp only [Candidate.act] at hact
    split at hact
    · rename_i hmem
      rcases (hc.tied i).inv.sound _ hmem with ⟨⟨value, hbuilt⟩, _⟩
      rcases served_createNode s.etcd { s.cand i with candidateValue := value } with
        ⟨kv, hget, hlearned, _⟩
      rw [← hbuilt] at hget hlearned
      rcases get?_some hget with ⟨hkv, hkey⟩
      have hcand : Function.update s.cand i c' i = (s.cand i).moveCall (.createNode req none)
          (.createNode req (some (s.etcd.txnResponse req))) := by
        rw [Function.update_self]
        exact (congrArg Prod.fst (Option.some.inj hact)).symm
      refine .inr ⟨kv.createRevision, ?_, ?_⟩
      · show Learned _ (Function.update s.cand i c' i)
        rw [hcand]
        exact .answered req _ (mem_txnCalls.mpr ⟨Multiset.mem_cons_self _ _, rfl⟩) hlearned
      · show (s.etcd.txn req).HasNode (Function.update s.cand i c' i).key _
        rw [hcand]
        exact ⟨kv, hkv, hkey, rfl⟩
    · cases hact

theorem step_shaped {a : Act ι} (h : ∀ j, AllShaped (s.cand j)) (hc : Consistent s)
    (hstep : s.step a = some s') (j : ι) : AllShaped (s'.cand j) := by
  rcases cand_step hstep j with heq | ⟨b, o, hact, _⟩
  · rw [heq]
    exact h j
  · exact shaped_act (h j) (hc.tied j).inv hact

/-- A step other than `campaign()` does not start a campaign. -/
theorem retrieved_step {a : Act ι} (ha : a ≠ .client i .campaign) (hstep : s.step a = some s') :
    (s'.cand i).promise.retrieved = (s.cand i).promise.retrieved := by
  have hupdate : ∀ {j : ι} {c' : Candidate} {b : Candidate.Act} {o : Outcome},
      (s.cand j).act b = some (c', o) → (j = i → b ≠ .campaign) →
      (Function.update s.cand j c' i).promise.retrieved = (s.cand i).promise.retrieved := by
    intro j c' b o hact hb
    by_cases hij : i = j
    · subst hij
      rw [Function.update_self]
      exact retrieved_act (hb rfl) hact
    · rw [Function.update_of_ne hij]
  cases step_cases hstep with
  | client j b c' o hcl hact =>
    refine hupdate hact ?_
    rintro rfl rfl
    exact ha rfl
  | range j req c' o hact => exact hupdate hact fun _ => nofun
  | txn j call req c' o hreq hact => exact hupdate hact fun _ => nofun
  | deliver j wkey wrevision id n canceled compactRevision req c' o hreq hlive hn hact =>
    exact hupdate hact fun _ => nofun
  | write ops hops => rfl

/-- The node of a candidate stays where nobody deletes it. -/
theorem Rooted.step {a : Act ι} (h : Rooted i s) (hc : Consistent s)
    (hshaped : ∀ j, AllShaped (s.cand j))
    (hkeep : ∀ ops, a = .write ops → (s.cand i).promise.retrieved = true →
      .deleteRange (s.cand i).key ∉ ops)
    (hstep : s.step a = some s') : Rooted i s' := by
  rcases h with hun | ⟨r, hlearned, hnode⟩
  · by_cases ha : ∃ req, a = .serveTxn i (.createNode req none)
    · rcases ha with ⟨req, rfl⟩
      exact rooted_createNode hc hstep
    · rcases cand_step hstep i with heq | ⟨b, o, hact, hans⟩
      · refine .inl ?_
        rw [heq]
        exact hun
      · refine .inl (hun.act hact ?_)
        rintro req resp rfl
        exact ha ⟨req, hans _ resp rfl⟩
  · have hinv := (hc.tied i).inv
    have hcand : Learned r (s'.cand i) ∧ (s'.cand i).key = (s.cand i).key := by
      rcases cand_step hstep i with heq | ⟨b, o, hact, _⟩
      · rw [heq]
        exact ⟨hlearned, rfl⟩
      · rcases act_identity hact with ⟨hl, hn⟩
        exact ⟨hlearned.act hinv hact, by rw [key, key, hl, hn]⟩
    refine .inr ⟨r, hcand.1, ?_⟩
    rw [hcand.2]
    cases step_cases hstep with
    | client j b c' o hcl hact => exact hnode
    | range j req c' o hact => exact hnode
    | deliver j wkey wrevision id n canceled compactRevision req c' o hreq hlive hn hact =>
      exact hnode
    | write ops hops => exact hnode.commit (hkeep ops rfl (hlearned.retrieved hinv))
    | txn j call req c' o hreq hact =>
      have hmem : call ∈ (s.cand j).txns := by
        simp only [Candidate.act] at hact
        split at hact
        · rename_i hmem
          refine mem_txnCalls.mpr ⟨hmem, ?_⟩
          cases call with
          | createNode _ _ => rfl
          | republish _ _ => rfl
          | proclaim _ _ _ => rfl
          | _ => cases hreq
        · cases hact
      by_cases hij : j = i
      · subst hij
        refine (hshaped j call hmem).keeps_own hreq hnode ?_
        rintro resp rfl
        rcases hlearned.of_call hinv (mem_txnCalls.mp hmem).1 rfl with
          ⟨_, _, heq, _⟩ | ⟨_, _, _, hrev⟩
        · cases heq
        · exact hrev
      · exact (hshaped j call hmem).keeps_other hreq (fun hkey => hij (hc.key_inj hkey).symm) hnode

end System

/-! ## The election and the sessions -/

/-- The candidates of an election, and the sessions of their `leader_election`s. -/
structure Timed (ι : Type u) where
  system : System ι
  session : ι → Session.Leased

namespace Timed

inductive Act (ι : Type u) where
  /-- Time passes. -/
  | advance (n : Nat)
  /-- A session, or the server for its lease. -/
  | lease (i : ι) (a : Session.Leased.Act)
  /-- A candidate, or the server for it, or somebody else. -/
  | election (a : Election.Act ι)

variable {ι : Type u}

/-- A candidate campaigns after its session was constructed, with the lease of the session. -/
def Ready (s : Timed ι) : Election.Act ι → Prop
  | .client i .campaign => (s.session i).session.constructed = true ∧
    (s.session i).session.leaseId = (s.system.cand i).leaseId
  | _ => True

instance (s : Timed ι) (a : Election.Act ι) : Decidable (s.Ready a) := by
  unfold Ready
  split <;> infer_instance

variable [DecidableEq ι]

/-- One step; time passes for all sessions at once. -/
def step (s : Timed ι) : Act ι → Option (Timed ι)
  | .advance n => some { s with session := fun i => (s.session i).advance n }
  | .lease _ (.advance _) => none
  | .lease i a => ((s.session i).act a).map fun l =>
    { s with session := Function.update s.session i l }
  | .election a =>
    if s.Ready a then (s.system.step a).map fun t => { s with system := t } else none

/-- The machine of the candidates and their sessions. -/
def machine : Machine (Timed ι) (Act ι) where
  Init s := System.machine.Init s.system ∧ ∀ i, Session.Leased.machine.Init (s.session i)
  step := step

/-- The sessions of the candidates in `T` are served in time and neither revoked nor destroyed,
and nobody deletes the node of such a candidate while the server has its lease. -/
def InTime (T : Set ι) (d : Session.Leased.Delays) (ttl : Int) (s : Timed ι) : Act ι → Prop
  | .advance n => ∀ i ∈ T, (s.session i).OnTime d ((s.session i).now + n)
  | .lease i a => i ∈ T → (s.session i).InTime d ttl a
  | .election (.write ops) => ∀ i ∈ T, (s.session i).lease.isSome = true →
    .deleteRange (s.system.cand i).key ∉ ops
  | .election _ => True

variable {T : Set ι} {d : Session.Leased.Delays} {ttl : Int} {s s' : Timed ι} {i : ι}

/-! ## Steps -/

theorem lease_cases {a : Session.Leased.Act} (hstep : s.step (.lease i a) = some s') :
    (∀ n, a ≠ .advance n) ∧ ∃ l, (s.session i).act a = some l ∧
      s' = { s with session := Function.update s.session i l } := by
  cases a with
  | advance n => cases hstep
  | _ =>
    rcases Option.map_eq_some_iff.mp hstep with ⟨l, hact, rfl⟩
    exact ⟨(fun _ h => by cases h), l, hact, rfl⟩

theorem election_cases {a : Election.Act ι} (hstep : s.step (.election a) = some s') :
    s.Ready a ∧ ∃ t, s.system.step a = some t ∧ s' = { s with system := t } := by
  simp only [step] at hstep
  split at hstep
  · rename_i hready
    rcases Option.map_eq_some_iff.mp hstep with ⟨t, hact, rfl⟩
    exact ⟨hready, t, hact, rfl⟩
  · cases hstep

/-! ## A session that is served in time -/

open Session.Leased (Roomy Served)

/-- What holds of a candidate whose session is served in time. -/
structure Held (i : ι) (d : Session.Leased.Delays) (ttl : Int) (s : Timed ι) : Prop where
  consistent : System.Consistent s.system
  shaped : ∀ j, AllShaped (s.system.cand j)
  served : Served d ttl (s.session i)
  /-- The session was constructed before the campaign. -/
  started : (s.system.cand i).promise.retrieved = true →
    (s.session i).session.constructed = true
  rooted : System.Rooted i s.system

theorem init_held (h : machine.Init s) (i : ι) (d : Session.Leased.Delays) (ttl : Int) :
    Held i d ttl s := by
  rcases s with ⟨system, session⟩
  rcases h with ⟨⟨name, lease, value, revision, hrev, hinj, rfl⟩, hsession⟩
  rcases hsession i with ⟨desiredTtl, leaseId, hi⟩
  refine ⟨System.init_consistent hinj, ?_, ?_, nofun, .inl ⟨?_, rfl⟩⟩
  · exact fun j call hmem => absurd hmem (Multiset.notMem_zero _)
  · exact hi ▸ Session.Leased.init_served d ttl desiredTtl leaseId
  · exact fun call hmem => absurd hmem (Multiset.notMem_zero _)

theorem Held.step {a : Act ι} (h : Held i d ttl s) (hi : i ∈ T) (hroom : Roomy d ttl)
    (hok : s.InTime T d ttl a) (hstep : s.step a = some s') : Held i d ttl s' := by
  cases a with
  | advance n =>
    cases hstep
    have hserved := h.served.step (a := .advance n) hroom (hok i hi) rfl
    exact ⟨h.consistent, h.shaped, hserved, h.started, h.rooted⟩
  | lease j a =>
    rcases lease_cases hstep with ⟨_, l, hact, rfl⟩
    by_cases hij : i = j
    · subst hij
      refine ⟨h.consistent, h.shaped, ?_, fun hret => ?_, h.rooted⟩
      · simpa using h.served.step hroom (hok hi) hact
      · simpa using h.served.built (hok hi) hact (h.started hret)
    · refine ⟨h.consistent, h.shaped, ?_, ?_, h.rooted⟩
      · simpa [Function.update_of_ne hij] using h.served
      · simpa [Function.update_of_ne hij] using h.started
  | election a =>
    rcases election_cases hstep with ⟨hready, t, hact, rfl⟩
    refine ⟨System.step_consistent h.consistent hact,
      System.step_shaped h.shaped h.consistent hact, h.served, ?_, ?_⟩
    · by_cases ha : a = .client i .campaign
      · subst ha
        exact fun _ => hready.1
      · rw [show (t.cand i).promise.retrieved = _ from System.retrieved_step ha hact]
        exact h.started
    · refine h.rooted.step h.consistent h.shaped ?_ hact
      -- the lease that the session holds keeps the node
      rintro ops rfl hret
      have hholds := h.served.phase.holds h.served.turning hroom (h.started hret)
      rcases hholds.lease with ⟨l, hl, _⟩
      exact hok i hi (by rw [hl]; rfl)

theorem reachable_held (hroom : Roomy d ttl) (h : machine.Reachable (InTime T d ttl) s)
    (hi : i ∈ T) : Held i d ttl s :=
  h.invariant (fun _ hs => init_held hs i d ttl) fun _ _ _ hs hok hstep =>
    hs.step hi hroom hok hstep

/-- A candidate that is elected, and whose session is served in time, leads: its node is there, the
oldest of the election. So nobody else leads, and no other candidate whose session is served in time
is elected. -/
theorem elected_leads (hroom : Roomy d ttl) (h : machine.Reachable (InTime T d ttl) s)
    (hi : i ∈ T) (hel : (s.system.cand i).elected = true) :
    s.system.Leads i ∧
    (∀ kv ∈ s.system.etcd.kvs, InElection (s.system.cand i).electionName kv.key →
      kv.key ≠ (s.system.cand i).key →
      (s.system.cand i).creationRevision < kv.createRevision) ∧
    ∀ j, (s.system.Leads j ∨ j ∈ T ∧ (s.system.cand j).elected = true) → j = i := by
  have hheld := reachable_held hroom h hi
  have hleads := hheld.rooted.leads hheld.consistent hel
  refine ⟨hleads, fun kv => hheld.consistent.oldest hleads, ?_⟩
  rintro j (hj | ⟨hj, hel'⟩)
  · exact hheld.consistent.leads_unique hj hleads
  · have hheld' := reachable_held hroom h hj
    exact hheld.consistent.leads_unique (hheld'.rooted.leads hheld'.consistent hel') hleads

/-- The steps of `InTime`, without those of others. -/
def inTime (d : Session.Leased.Delays) (ttl : Int) (s : Timed Bool) : Act Bool → Bool
  | .advance n => decide (∀ i, (s.session i).OnTime d ((s.session i).now + n))
  | .lease i a => decide ((s.session i).InTime d ttl a)
  | .election (.write _) => false
  | .election _ => true

theorem inTime_sound {d : Session.Leased.Delays} {ttl : Int} (s : Timed Bool) (a : Act Bool)
    (h : inTime d ttl s a = true) : s.InTime Set.univ d ttl a := by
  cases a with
  | advance n => exact fun i _ => of_decide_eq_true h i
  | lease i a => exact fun _ => of_decide_eq_true h
  | election a =>
    cases a with
    | write ops => cases h
    | _ => trivial

/-- A session is opened, with a TTL of ten seconds. -/
def openSession (i : Bool) : List (Act Bool) :=
  let req : Session.LeaseGrantRequest := { ttl := 10, id := System.twoLeases i }
  let resp : Session.LeaseGrantResponse := { id := System.twoLeases i, ttl := 10 }
  [.lease i (.session (.streamCreated true)), .lease i (.serveGrant req resp),
    .lease i (.session (.leaseGranted req true {} resp))]

/-- Two candidates campaign; the lease of the first one is refreshed. -/
def bothInTime : List (Act Bool) :=
  openSession false ++ openSession true ++ System.bothCampaign.map .election ++
    [.advance 2000, .lease false (.session (.timerFires 0 2000)),
      .lease false (.session (.complete (.timer 0 2000 .fired true))), .advance 90,
      .lease false .serveKeepAlive]

/-- Both candidates have campaigned, and the first one leads. -/
theorem elected_leads_two : ∃ s : Timed Bool,
    machine.Reachable (InTime Set.univ ⟨100, 100, 100⟩ 10) s ∧
    (s.session false).servedAt = 2090 ∧ (s.system.cand true).campaigned = true ∧
    s.system.Leads false ∧
    (∀ kv ∈ s.system.etcd.kvs, InElection [] kv.key → kv.key ≠ (s.system.cand false).key →
      2 < kv.createRevision) ∧
    ∀ j, (s.system.cand j).elected = true → j = false := by
  let s₀ : Timed Bool :=
    { system := .init [] System.twoLeases (fun _ => []) 1 (by decide)
      session := fun i => { session := Session.init 10000 (System.twoLeases i) } }
  rcases reachable_of_execIf machine (inTime ⟨100, 100, 100⟩ 10) s₀ bothInTime
    (fun s => decide ((s.session false).servedAt = 2090 ∧ (s.system.cand true).campaigned = true ∧
      (s.system.cand false).elected = true ∧ (s.system.cand false).electionName = [] ∧
      (s.system.cand false).creationRevision = 2)) inTime_sound
    ⟨⟨_, _, _, _, _, by decide, rfl⟩, fun i => ⟨_, _, rfl⟩⟩ (by decide) with ⟨s, hs, hcheck⟩
  rcases of_decide_eq_true hcheck with ⟨hserved, hcamp, hel, hname, hrev⟩
  rcases elected_leads (i := false) (by decide) hs trivial hel with ⟨hleads, holdest, hunique⟩
  rw [hname, hrev] at holdest
  exact ⟨s, hs, hserved, hcamp, hleads, holdest, fun j hj => hunique j (.inr ⟨trivial, hj⟩)⟩

end Timed

end GeeH.Election
