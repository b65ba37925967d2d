import GeeH.Candidate.Txns
import GeeH.Election.MutualExclusion

/-!
# GeeH.Election.Published — what a candidate has published

`create_node()` creates the node of a candidate or adopts the one it finds, and
publishes its value there a second time when the values differ; `proclaim()`
replaces the value. Each of these is a Txn whose guard is the create revision of
the node. The invariant follows the one Txn that is outstanding (`Call.Agreed`);
when none is, the node, if it is still there, has the value of the candidate.
-/

namespace GeeH.Election

open Etcd Machine Candidate

variable {e : Store} {c c' : Candidate}

/-! ## The Txns on the store -/

/-- The guard of a Txn with one compare. -/
theorem succeeds_iff {req : TxnRequest} {k : Bytes} {r : Int}
    (hreq : req.compare = [{ key := k, createRevision := r }]) :
    e.succeeds req = true ↔ ((get? e.kvs k).map (·.createRevision)).getD 0 = r := by
  simp only [Store.succeeds, hreq, List.all_cons, List.all_nil, Bool.and_true]
  exact decide_eq_true_iff

/-- The first Txn of `create_node()` leaves a node, and its answer tells the create revision: it
has created the node with the value of the candidate, or it fetches the node. -/
theorem served_createNode (e : Store) (c : Candidate) :
    ∃ kv, get? (e.txn c.createNodeRequest).kvs c.key = some kv ∧
      learned (e.txnResponse c.createNodeRequest) = kv.createRevision ∧
      (((e.txnResponse c.createNodeRequest).succeeded = true ∧ kv.value = c.candidateValue ∧
          get? e.kvs c.key = none ∧ kv.createRevision = (e.txn c.createNodeRequest).revision) ∨
        ((e.txnResponse c.createNodeRequest).succeeded = false ∧
          (e.txnResponse c.createNodeRequest).responses = [.range [kv]] ∧
          get? e.kvs c.key = some kv)) := by
  have hsucc : e.succeeds c.createNodeRequest = true ↔ _ := succeeds_iff rfl
  cases hget : get? e.kvs c.key with
  | none =>
    -- the node is created, at the revision of the Txn
    have hs : e.succeeds c.createNodeRequest = true := by
      rw [hsucc, hget]
      rfl
    have hbranch : e.branch c.createNodeRequest = [.put c.key c.candidateValue c.leaseId] :=
      if_pos hs
    have hkvs : (e.txn c.createNodeRequest).kvs = without e.kvs c.key ++ [{
        key := c.key
        value := c.candidateValue
        createRevision := e.revision + 1
        modRevision := e.revision + 1
        lease := c.leaseId }] := by
      rw [Store.txn, hbranch, Store.kvs_commit_put, hget]
      rfl
    have hrev : (e.txn c.createNodeRequest).revision = e.revision + 1 := by
      rcases e.commit_revision (e.branch c.createNodeRequest) with ⟨_, hnil⟩ | ⟨hrev, _⟩
      · rw [hbranch] at hnil
        cases hnil
      · exact hrev
    have hmem := List.mem_append_right (without e.kvs c.key) (List.mem_singleton_self
      ({ key := c.key
         value := c.candidateValue
         createRevision := e.revision + 1
         modRevision := e.revision + 1
         lease := c.leaseId } : KeyValue))
    rw [← hkvs] at hmem
    exact ⟨_, get?_of_mem (Store.kvs_nodup _) hmem, (if_pos hs).trans hrev,
      .inl ⟨hs, rfl, rfl, hrev.symm⟩⟩
  | some kv =>
    have hs : e.succeeds c.createNodeRequest = false := by
      have hpos := (e.kvs_bounded kv (get?_some hget).1).1
      rw [← Bool.not_eq_true, hsucc, hget]
      simp only [Option.map_some, Option.getD_some]
      omega
    have hbranch : e.branch c.createNodeRequest = [.range c.key] := by
      rw [Store.branch, hs]
      rfl
    have htxn : e.txn c.createNodeRequest = e := by
      rw [Store.txn, hbranch]
      exact Store.commit_of_no_event rfl
    have hresp : (e.txnResponse c.createNodeRequest).responses = [.range [kv]] := by
      show e.responses (e.branch c.createNodeRequest) = _
      rw [hbranch]
      simp [Store.responses, runOps, runOp, hget]
    have hno : (e.txnResponse c.createNodeRequest).succeeded = false := hs
    refine ⟨kv, ?_, ?_, .inr ⟨hno, hresp, rfl⟩⟩
    · rw [htxn]
      exact hget
    · simp only [learned, hno, hresp]
      rfl

/-- A Txn of `publish_value()` stores its value where its guard holds. Where it does not, the
node that the candidate knows is not there, and is not put there. -/
theorem served_publish (e : Store) (c : Candidate) (value : Bytes) (failureOp : Option RequestOp)
    (hfail : ∀ op ∈ failureOp, op.isPut = false) :
    ((e.txnResponse (c.publishRequest value failureOp)).succeeded = true →
      (e.txn (c.publishRequest value failureOp)).Stored c.key c.creationRevision value) ∧
    ((e.txnResponse (c.publishRequest value failureOp)).succeeded = false →
      ∀ v, (e.txn (c.publishRequest value failureOp)).Stored c.key c.creationRevision v) := by
  constructor
  · intro hs
    have hbranch : e.branch (c.publishRequest value failureOp) = [.put c.key value c.leaseId] :=
      if_pos hs
    rw [Store.txn, hbranch]
    exact e.stored_put _ _ _ _
  · intro hs v
    have hbranch : e.branch (c.publishRequest value failureOp) = failureOp.toList := by
      rw [Store.branch, show e.succeeds _ = false from hs]
      rfl
    have hold : e.Stored c.key c.creationRevision v := by
      intro kv hkv hk hr
      have hget := get?_of_mem e.kvs_nodup hkv
      rw [hk] at hget
      have hyes : e.succeeds (c.publishRequest value failureOp) = true := by
        rw [succeeds_iff rfl, hget]
        exact hr
      exact absurd (hyes.symm.trans hs) (by simp)
    rw [Store.txn, hbranch]
    refine hold.commit ?_
    intro v' l hmem
    have hop := hfail _ (Option.mem_toList.mp hmem)
    cases hop

/-! ## The Txn that is outstanding -/

/-- What is known while a Txn is outstanding. -/
def Agrees (e : Store) (c : Candidate) : Call → Prop
  | .createNode req none => c.campaigned = false ∧ req = c.createNodeRequest
  | .createNode _ (some resp) => c.campaigned = false ∧
    ((resp.succeeded = true ∧ e.Stored c.key (learned resp) c.candidateValue) ∨
      (resp.succeeded = false ∧ ∃ kv, resp.responses = [.range [kv]] ∧
        e.Stored c.key (learned resp) kv.value))
  | .republish req none => c.campaigned = false ∧ req = c.republishRequest
  | .republish _ (some _) => c.campaigned = false ∧
    e.Stored c.key c.creationRevision c.candidateValue
  | .proclaim value req none => c.campaigned = true ∧ req = c.publishRequest value none
  | .proclaim value _ (some resp) => c.campaigned = true ∧
    e.Stored c.key c.creationRevision (if resp.succeeded then value else c.candidateValue)
  | _ => True

/-- One Txn at a time, and the value of the candidate is in the store when there is none. -/
structure Agreed (e : Store) (c : Candidate) : Prop where
  single : c.txns.card ≤ 1
  call : ∀ call ∈ c.txns, Agrees e c call
  value : c.txns = 0 → e.Stored c.key c.creationRevision c.candidateValue

theorem Agrees.congr {call : Call} (h : Agrees e c call) (hview : c'.nodeView = c.nodeView) :
    Agrees e c' call := by
  rcases requests_congr hview with ⟨hk, hcreate, hpublish⟩
  have hv : c'.candidateValue = c.candidateValue := congrArg NodeView.candidateValue hview
  have hr : c'.creationRevision = c.creationRevision := congrArg NodeView.creationRevision hview
  have hcamp : c'.campaigned = c.campaigned := congrArg NodeView.campaigned hview
  have hre : c'.republishRequest = c.republishRequest := by
    rw [republishRequest, republishRequest, hpublish, hv, hk]
  cases call with
  | createNode req resp =>
    cases resp <;> simpa only [Agrees, hk, hv, hr, hcamp, hcreate] using h
  | republish req resp =>
    cases resp <;> simpa only [Agrees, hk, hv, hr, hcamp, hre] using h
  | proclaim value req resp =>
    cases resp <;> simpa only [Agrees, hk, hv, hr, hcamp, hpublish] using h
  | _ => trivial

/-- A commit that puts nothing on the key of the candidate does not matter. -/
theorem Agrees.commit {call : Call} {ops : List RequestOp} (h : Agrees e c call)
    (hno : ∀ v l, .put c.key v l ∉ ops) : Agrees (e.commit ops) c call := by
  cases call with
  | createNode req resp =>
    cases resp with
    | none => exact h
    | some resp =>
      rcases h with ⟨hcamp, ⟨hs, hst⟩ | ⟨hs, kv, hresp, hst⟩⟩
      · exact ⟨hcamp, .inl ⟨hs, hst.commit hno⟩⟩
      · exact ⟨hcamp, .inr ⟨hs, kv, hresp, hst.commit hno⟩⟩
  | republish req resp =>
    cases resp with
    | none => exact h
    | some resp => exact ⟨h.1, h.2.commit hno⟩
  | proclaim value req resp =>
    cases resp with
    | none => exact h
    | some resp => exact ⟨h.1, h.2.commit hno⟩
  | _ => trivial

theorem Agreed.commit {ops : List RequestOp} (h : Agreed e c)
    (hno : ∀ v l, .put c.key v l ∉ ops) : Agreed (e.commit ops) c where
  single := h.single
  call call hmem := (h.call call hmem).commit hno
  value hnone := (h.value hnone).commit hno

/-- Before `campaign()` has returned, no `proclaim()` is running. -/
theorem Agreed.no_txns (h : Agreed e c) (hcamp : c.campaigned = false)
    (hno : ∀ call ∈ c.txns, call.isCampaign = false) : c.txns = 0 := by
  refine Multiset.eq_zero_of_forall_notMem ?_
  intro call hmem
  have hagrees := h.call call hmem
  have hcall := hno call hmem
  cases call with
  | proclaim value req resp =>
    cases resp with
    | none => exact absurd (hcamp.symm.trans hagrees.1) (by simp)
    | some resp => exact absurd (hcamp.symm.trans hagrees.1) (by simp)
  | createNode req resp => cases hcall
  | republish req resp => cases hcall
  | _ => cases (mem_txnCalls.mp hmem).2

/-- Where no Txn is outstanding, the value of the candidate is what there is to know. -/
theorem Agreed.of_value (hnone : c.txns = 0)
    (hst : e.Stored c.key c.creationRevision c.candidateValue) : Agreed e c where
  single := by
    rw [hnone]
    exact Nat.zero_le 1
  call call hmem := by
    rw [hnone] at hmem
    exact absurd hmem (Multiset.notMem_zero _)
  value _ := hst

/-- Every node has a create revision. -/
theorem stored_zero (e : Store) (k v : Bytes) : e.Stored k 0 v := by
  intro kv hkv _ hr
  have hpos := (e.kvs_bounded kv hkv).1
  omega

/-- Before `campaign()` is called, the store does not matter. -/
theorem Agreed.of_fresh {e' : Store} (h : Agreed e c) (hinv : Inv c) (hfresh : Fresh c)
    (hret : c.promise.retrieved = false) : Agreed e' c := by
  have honce := hinv.once
  rw [hret, Bool.toNat_false] at honce
  have hcamp : c.campaigned = false := by
    cases hc : c.campaigned with
    | false => rfl
    | true =>
      rw [hc, Bool.toNat_true] at honce
      omega
  have hnone : c.txns = 0 := by
    refine h.no_txns hcamp ?_
    intro call hmem
    have hzero : c.campaigns = 0 := by omega
    simpa using Multiset.countP_eq_zero.mp hzero call (mem_txnCalls.mp hmem).1
  refine .of_value hnone ?_
  rw [hfresh hret]
  exact stored_zero e' c.key c.candidateValue

/-! ## Steps of the candidate -/

/-- The application calls `proclaim()` after `campaign()` has returned, one call at a time, and
every Txn that is done has OK status. -/
def Proper (c : Candidate) : Candidate.Act → Prop
  | .proclaim _ => c.campaigned = true ∧ c.txns = 0
  | .txnDone _ ok status => ok = true ∧ status.ok = true
  | _ => True

theorem Agreed.of_same (h : Agreed e c) (hview : c'.nodeView = c.nodeView)
    (htxns : c'.txns = c.txns) : Agreed e c' := by
  have hk := (requests_congr hview).1
  have hv : c'.candidateValue = c.candidateValue := congrArg NodeView.candidateValue hview
  have hr : c'.creationRevision = c.creationRevision := congrArg NodeView.creationRevision hview
  refine ⟨htxns ▸ h.single, ?_, ?_⟩
  · intro call hmem
    rw [htxns] at hmem
    exact (h.call call hmem).congr hview
  · intro hnone
    rw [hk, hr, hv]
    exact h.value (htxns ▸ hnone)

/-- A call that waits for its Txn is the only one. -/
theorem Agreed.of_call {call : Call} (hview : c'.nodeView = c.nodeView)
    (htxns : c'.txns = {call}) (hagrees : Agrees e c call) : Agreed e c' where
  single := by
    rw [htxns]
    exact le_rfl
  call call' hmem := by
    rw [htxns] at hmem
    rw [Multiset.mem_singleton.mp hmem]
    exact hagrees.congr hview
  value hnone := absurd (htxns.symm.trans hnone) (Multiset.singleton_ne_zero _)

theorem Agreed.erase (h : Agreed e c) {call : Call} (hmem : call ∈ c.txns) :
    c.txns.erase call = 0 := by
  have hcard := Multiset.card_erase_add_one hmem
  have hone := h.single
  exact Multiset.card_eq_zero.mp (by omega)

/-- The stream of a campaign comes before its Txns. -/
theorem Agreed.no_txns_of_stream (h : Agreed e c) (hinv : Inv c)
    (hmem : .createWatchStream ∈ c.calls) : c.campaigned = false ∧ c.txns = 0 := by
  rcases hinv.campaign_frame hmem rfl with ⟨hcamp, _, hzero⟩
  refine ⟨hcamp, h.no_txns hcamp ?_⟩
  intro call hcall
  rcases mem_txnCalls.mp hcall with ⟨hcalls, htxn⟩
  have hne : call ≠ .createWatchStream := by
    rintro rfl
    cases htxn
  have hrest : call ∈ (c.unblock .createWatchStream).calls :=
    (Multiset.mem_erase_of_ne hne).mpr hcalls
  simpa using Multiset.countP_eq_zero.mp hzero call hrest

/-- The campaign is started, with the value in the store. -/
theorem agreed_startCampaign {d : Candidate} (hnone : d.txns = 0)
    (hst : e.Stored d.key d.creationRevision d.candidateValue) : Agreed e d.startCampaign.1 := by
  rcases nodeView_startCampaign d with ⟨hview, htxns⟩
  have hl : d.startCampaign.1.leaseId = d.leaseId := congrArg NodeView.leaseId hview
  have hn : d.startCampaign.1.electionName = d.electionName := congrArg NodeView.electionName hview
  have hv : d.startCampaign.1.candidateValue = d.candidateValue :=
    congrArg NodeView.candidateValue hview
  have hr : d.startCampaign.1.creationRevision = d.creationRevision :=
    congrArg NodeView.creationRevision hview
  refine .of_value (htxns.trans hnone) ?_
  rw [key, hl, hn, hr, hv]
  exact hst

/-- A Txn is done. -/
theorem Agreed.done {call : Call} {status : Status} {o : Outcome} (h : Agreed e c)
    (hmem : call ∈ c.txns) (hst : status.ok = true)
    (heq : c.onTxn call true status = some (c', o)) : Agreed e c' := by
  have hagrees := h.call call hmem
  have htxns : (c.unblock call).txns = 0 :=
    (txnCalls_erase (mem_txnCalls.mp hmem).2 _).trans (h.erase hmem)
  rcases onTxn_cases heq with ⟨hno, _⟩ | ⟨req, resp, rfl, rfl⟩ | ⟨req, resp, rfl, rfl⟩ |
    ⟨value, req, resp, rfl, rfl⟩
  · exact absurd ⟨rfl, hst⟩ hno
  · rcases hagrees with ⟨hcamp, hnode⟩
    rcases onNodeCreated_txns (c.unblock (.createNode req (some resp))) resp with
      ⟨d, rfl, ⟨hd, hval⟩ | ⟨hd, _⟩ | ⟨_, hfail, hshape⟩⟩
    · rw [hd]
      refine agreed_startCampaign htxns ?_
      rcases hnode with ⟨_, hstored⟩ | ⟨hs, kv, hresp, hstored⟩
      · exact hstored
      · rw [hval hs kv hresp] at hstored
        exact hstored
    -- the node has another value, which is replaced
    · rw [hd]
      exact .of_call rfl ((txnCalls_cons rfl _).trans (congrArg _ htxns)) ⟨hcamp, rfl⟩
    -- an answer without the node is not what etcd gives
    · rcases hnode with ⟨hs, _⟩ | ⟨_, kv, hresp, _⟩
      · exact absurd (hs.symm.trans hfail) (by simp)
      · exact absurd hresp (hshape kv)
  · rcases hagrees with ⟨_, hstored⟩
    unfold onRepublished
    split
    · exact agreed_startCampaign htxns hstored
    · exact .of_value htxns hstored
  · rcases hagrees with ⟨hcamp, hstored⟩
    unfold onProclaimed
    split
    · rename_i hs
      rw [if_pos hs] at hstored
      exact .of_value htxns hstored
    · rename_i hs
      rw [if_neg hs] at hstored
      exact .of_value htxns hstored

/-- A step of the candidate that is not the answer to a Txn. -/
theorem Agreed.act {a : Candidate.Act} {o : Outcome} (h : Agreed e c) (hinv : Inv c)
    (hok : Proper c a) (ha : ∀ call resp, a ≠ .answerTxn call resp)
    (hact : c.act a = some (c', o)) : Agreed e c' := by
  cases txn_cases hact with
  | other a hview htxns => exact h.of_same hview htxns
  | created hmem hview htxns =>
    rcases h.no_txns_of_stream hinv hmem with ⟨hcamp, hnone⟩
    rw [hnone] at htxns
    exact .of_call hview htxns ⟨hcamp, rfl⟩
  | proclaimed value hview htxns =>
    rw [hok.2] at htxns
    exact .of_call hview htxns ⟨hok.1, rfl⟩
  | answered call call' resp hmem hans hview htxns => exact absurd rfl (ha call resp)
  | done call ok status o hmem heq =>
    cases hok.1
    exact h.done hmem hok.2 heq

/-! ## Txns that the server executes -/

theorem stored_of_get? {k : Bytes} {kv : KeyValue} (h : get? e.kvs k = some kv) (r : Int) :
    e.Stored k r kv.value := by
  intro kv' hkv hk _
  have hsame := get?_of_mem e.kvs_nodup hkv
  rw [hk, h] at hsame
  rw [Option.some.inj hsame]

/-- The server executes the Txn of the candidate. -/
theorem Agreed.served {call call' : Call} {req : TxnRequest} (h : Agreed e c)
    (hmem : call ∈ c.txns) (hreq : request call = some req)
    (hans : call.answered (e.txnResponse req) = some call') (hview : c'.nodeView = c.nodeView)
    (htxns : c'.txns = call' ::ₘ c.txns.erase call) : Agreed (e.txn req) c' := by
  have hagrees := h.call call hmem
  rw [h.erase hmem] at htxns
  refine .of_call hview htxns ?_
  cases call with
  | createNode req' resp =>
    cases resp with
    | some resp => cases hans
    | none =>
      cases hans
      cases hreq
      rcases hagrees with ⟨hcamp, rfl⟩
      refine ⟨hcamp, ?_⟩
      rcases served_createNode e c with ⟨kv, hget, _, ⟨hs, hv, _⟩ | ⟨hs, hresp, _⟩⟩
      · refine .inl ⟨hs, ?_⟩
        rw [← hv]
        exact stored_of_get? hget _
      · exact .inr ⟨hs, kv, hresp, stored_of_get? hget _⟩
  | republish req' resp =>
    cases resp with
    | some resp => cases hans
    | none =>
      cases hans
      cases hreq
      rcases hagrees with ⟨hcamp, rfl⟩
      refine ⟨hcamp, ?_⟩
      rcases served_publish e c c.candidateValue (some (.deleteRange c.key))
        (by simp [RequestOp.isPut]) with ⟨hyes, hno⟩
      cases hs : (e.txnResponse c.republishRequest).succeeded with
      | true => exact hyes hs
      | false => exact hno hs c.candidateValue
  | proclaim value req' resp =>
    cases resp with
    | some resp => cases hans
    | none =>
      cases hans
      cases hreq
      rcases hagrees with ⟨hcamp, rfl⟩
      refine ⟨hcamp, ?_⟩
      rcases served_publish e c value none (by simp) with ⟨hyes, hno⟩
      split
      · rename_i hs
        exact hyes hs
      · rename_i hs
        exact hno (by simpa using hs) _
  | _ => cases hans

/-- The Txns of a candidate put nothing but its own node. -/
def Owned (c : Candidate) : Prop :=
  ∀ call ∈ c.txns, ∀ req, request call = some req →
    ∀ k v l, .put k v l ∈ req.success ++ req.failure → k = c.key

theorem Owned.of_le (h : Owned c) (hkey : c'.key = c.key) (hle : c'.txns ≤ c.txns) :
    Owned c' := by
  intro call hmem req hreq k v l hput
  rw [hkey]
  exact h call (Multiset.mem_of_le hle hmem) req hreq k v l hput

/-- Another Txn of the candidate. -/
theorem Owned.cons {call : Call} {req : TxnRequest} {s : Multiset Call} (h : Owned c)
    (hkey : c'.key = c.key) (htxns : c'.txns = call ::ₘ s) (hle : s ≤ c.txns)
    (hreq : request call = some req)
    (hput : ∀ k v l, .put k v l ∈ req.success ++ req.failure → k = c.key) : Owned c' := by
  intro call' hmem req' hreq' k v l hmem'
  rw [hkey]
  rw [htxns] at hmem
  rcases Multiset.mem_cons.mp hmem with rfl | hold
  · cases hreq.symm.trans hreq'
    exact hput k v l hmem'
  · exact h call' (Multiset.mem_of_le hle hold) req' hreq' k v l hmem'

theorem request_answered {call call' : Call} {resp : TxnResponse}
    (h : call.answered resp = some call') : request call' = request call := by
  cases call with
  | createNode req r =>
    cases r <;> cases h
    rfl
  | republish req r =>
    cases r <;> cases h
    rfl
  | proclaim value req r =>
    cases r <;> cases h
    rfl
  | _ => cases h

theorem publishRequest_owned (c : Candidate) (value : Bytes) (failureOp : Option RequestOp)
    (hfail : ∀ op ∈ failureOp, op.isPut = false) (k v : Bytes) (l : UInt64)
    (h : .put k v l ∈ (c.publishRequest value failureOp).success ++
      (c.publishRequest value failureOp).failure) : k = c.key := by
  rcases List.mem_append.mp h with hmem | hmem
  · cases List.mem_singleton.mp hmem
    rfl
  · cases hfail _ (Option.mem_toList.mp hmem)

theorem owned_act {a : Candidate.Act} {o : Outcome} (h : Owned c)
    (hact : c.act a = some (c', o)) : Owned c' := by
  have hkey : c'.key = c.key := by
    rcases act_identity hact with ⟨hl, hn⟩
    rw [key, key, hl, hn]
  cases txn_cases hact with
  | other a hview htxns => exact h.of_le hkey htxns.le
  | created hmem hview htxns =>
    refine h.cons hkey htxns le_rfl rfl ?_
    intro k v l hput
    simp only [createNodeRequest, List.singleton_append, List.mem_cons, RequestOp.put.injEq,
      List.not_mem_nil, or_false, reduceCtorEq] at hput
    exact hput.1
  | proclaimed value hview htxns =>
    exact h.cons hkey htxns le_rfl rfl (publishRequest_owned c value none (by simp))
  | answered call call' resp hmem hans hview htxns =>
    cases hreq : request call with
    | none =>
      cases call with
      | createNode _ _ => cases hreq
      | republish _ _ => cases hreq
      | proclaim _ _ _ => cases hreq
      | _ => cases hans
    | some req =>
      exact h.cons hkey htxns (Multiset.erase_le _ _) ((request_answered hans).trans hreq)
        (h call hmem req hreq)
  | done call ok status o hmem heq =>
    have herase : (c.unblock call).txns ≤ c.txns := by
      rw [show (c.unblock call).txns = _ from txnCalls_erase (mem_txnCalls.mp hmem).2 _]
      exact Multiset.erase_le _ _
    rcases onTxn_cases heq with ⟨_, rfl⟩ | ⟨req, resp, rfl, rfl⟩ | ⟨req, resp, rfl, rfl⟩ |
      ⟨value, req, resp, rfl, rfl⟩
    · exact h.of_le hkey herase
    · rcases onNodeCreated_txns (c.unblock (.createNode req (some resp))) resp with
        ⟨d, rfl, ⟨hd, _⟩ | ⟨hd, _⟩ | ⟨hd, _, _⟩⟩
      · rw [hd] at hkey ⊢
        exact h.of_le hkey ((nodeView_startCampaign _).2.le.trans herase)
      · rw [hd] at hkey ⊢
        exact h.cons hkey (txnCalls_cons rfl _) herase rfl
          (publishRequest_owned _ _ _ (by simp [RequestOp.isPut]))
      · rw [hd] at hkey ⊢
        exact h.of_le hkey herase
    · unfold onRepublished at hkey ⊢
      split
      · rename_i hs
        rw [if_pos hs] at hkey
        exact h.of_le hkey ((nodeView_startCampaign _).2.le.trans herase)
      · exact h.of_le rfl herase
    · unfold onProclaimed
      split
      · exact h.of_le rfl herase
      · exact h.of_le rfl herase

/-! ## What `create_node()` has learned -/

/-- The calls of one campaign are one after the other. -/
theorem campaign_unique {call call' : Call} (hinv : Inv c) (hmem : call ∈ c.calls)
    (hmem' : call' ∈ c.calls) (hcall : call.isCampaign = true) (hcall' : call'.isCampaign = true) :
    call' = call := by
  by_contra hne
  have hrest : call' ∈ (c.unblock call).calls := (Multiset.mem_erase_of_ne hne).mpr hmem'
  exact Multiset.countP_eq_zero.mp (hinv.campaign_frame hmem hcall).2.2 call' hrest hcall'

/-- The server has executed the first Txn of `create_node()`, and the candidate knows the create
revision `r` of its node, or will know it, unless `campaign()` has failed. -/
inductive Learned (r : Int) (c : Candidate) : Prop where
  | answered (req : TxnRequest) (resp : TxnResponse) (hmem : .createNode req (some resp) ∈ c.txns)
      (hr : learned resp = r)
  | adopted (req : TxnRequest) (resp : Option TxnResponse) (hmem : .republish req resp ∈ c.txns)
      (hr : c.creationRevision = r)
  | campaigned (hcamp : c.campaigned = true) (hr : c.creationRevision = r)
  | failed (hret : c.promise.retrieved = true) (hnone : c.campaigns = 0)
      (hcamp : c.campaigned = false)

/-- `campaign()` ends with an exception. -/
theorem learned_failed {call : Call} {r : Int} (hinv : Inv c) (hmem : call ∈ c.calls)
    (hcall : call.isCampaign = true) (hcalls : c'.calls = c.calls.erase call)
    (hret : c'.promise = c.promise) (hcamp : c'.campaigned = c.campaigned) : Learned r c' := by
  rcases hinv.campaign_frame hmem hcall with ⟨hno, honce, hzero⟩
  refine .failed ?_ ?_ (hcamp.trans hno)
  · rw [hret]
    cases hr : c.promise.retrieved with
    | true => rfl
    | false =>
      rw [hr, Bool.toNat_false] at honce
      omega
  · rw [campaigns, hcalls]
    exact hzero

theorem learned_startCampaign {r : Int} {d : Candidate} (hr : d.creationRevision = r) :
    Learned r d.startCampaign.1 := by
  have hview := (nodeView_startCampaign d).1
  exact .campaigned (congrArg NodeView.campaigned hview)
    ((congrArg NodeView.creationRevision hview).trans hr)

/-- A call that is not part of the campaign goes. -/
theorem Learned.erase {call : Call} {r : Int} (h : Learned r c) (hcall : call.isCampaign = false)
    (hcalls : c'.calls = c.calls.erase call) (hret : c'.promise = c.promise)
    (hrev : c'.creationRevision = c.creationRevision) (hcamp : c'.campaigned = c.campaigned) :
    Learned r c' := by
  have hkeep : ∀ {call' : Call}, call'.isCampaign = true → call' ∈ c.txns → call' ∈ c'.txns := by
    intro call' hcall' hmem
    rcases mem_txnCalls.mp hmem with ⟨hmem, htxn⟩
    have hne : call' ≠ call := by
      rintro rfl
      exact absurd (hcall'.symm.trans hcall) (by simp)
    refine mem_txnCalls.mpr ⟨?_, htxn⟩
    rw [hcalls]
    exact (Multiset.mem_erase_of_ne hne).mpr hmem
  cases h with
  | answered req resp hmem hr => exact .answered req resp (hkeep rfl hmem) hr
  | adopted req resp hmem hr => exact .adopted req resp (hkeep rfl hmem) (hrev.trans hr)
  | campaigned h hr => exact .campaigned (hcamp.trans h) (hrev.trans hr)
  | failed h hnone hno =>
    refine .failed (hret ▸ h) ?_ (hcamp.trans hno)
    rw [campaigns, hcalls, Pool.countP_erase_of_neg _ (by simp [hcall])]
    exact hnone

/-- A call of the campaign is running, so it has not ended. -/
theorem Learned.of_call {call : Call} {r : Int} (h : Learned r c) (hinv : Inv c)
    (hmem : call ∈ c.calls) (hcall : call.isCampaign = true) :
    (∃ req resp, call = .createNode req (some resp) ∧ learned resp = r) ∨
    ∃ req resp, call = .republish req resp ∧ c.creationRevision = r := by
  cases h with
  | answered req resp hmem' hr =>
    exact .inl ⟨req, resp, (campaign_unique hinv hmem (mem_txnCalls.mp hmem').1 hcall rfl).symm, hr⟩
  | adopted req resp hmem' hr =>
    exact .inr ⟨req, resp, (campaign_unique hinv hmem (mem_txnCalls.mp hmem').1 hcall rfl).symm, hr⟩
  | campaigned h hr =>
    exact absurd ((hinv.campaign_frame hmem hcall).1.symm.trans h) (by simp)
  | failed h hnone hno => exact absurd hcall (Multiset.countP_eq_zero.mp hnone call hmem)

theorem Learned.done {call : Call} {ok : Bool} {status : Status} {o : Outcome} {r : Int}
    (h : Learned r c) (hinv : Inv c) (hmem : call ∈ c.txns)
    (heq : c.onTxn call ok status = some (c', o)) : Learned r c' := by
  have hcalls := (mem_txnCalls.mp hmem).1
  rcases onTxn_cases heq with ⟨_, rfl⟩ | ⟨req, resp, rfl, rfl⟩ | ⟨req, resp, rfl, rfl⟩ |
    ⟨value, req, resp, rfl, rfl⟩
  · cases hcall : call.isCampaign with
    | true => exact learned_failed hinv hcalls hcall rfl rfl rfl
    | false => exact h.erase hcall rfl rfl rfl rfl
  · rcases h.of_call hinv hcalls rfl with ⟨_, _, heq', hr⟩ | ⟨_, _, heq', _⟩
    · cases heq'
      rcases onNodeCreated_txns (c.unblock (.createNode req (some resp))) resp with
        ⟨d, rfl, ⟨hd, _⟩ | ⟨hd, _⟩ | ⟨hd, _, _⟩⟩
      · rw [hd]
        exact learned_startCampaign hr
      · rw [hd]
        exact .adopted _ none (mem_txnCalls.mpr ⟨Multiset.mem_cons_self _ _, rfl⟩) hr
      · rw [hd]
        exact learned_failed hinv hcalls rfl rfl rfl rfl
    · cases heq'
  · rcases h.of_call hinv hcalls rfl with ⟨_, _, heq', _⟩ | ⟨_, _, heq', hr⟩
    · cases heq'
    · unfold onRepublished
      split
      · exact learned_startCampaign hr
      · exact learned_failed hinv hcalls rfl rfl rfl rfl
  · unfold onProclaimed
    split
    · exact h.erase rfl rfl rfl rfl rfl
    · exact h.erase rfl rfl rfl rfl rfl

/-- After `campaign()` has failed, it cannot be called again. -/
theorem failed_act {a : Candidate.Act} {o : Outcome} (hret : c.promise.retrieved = true)
    (hnone : c.campaigns = 0) (hcamp : c.campaigned = false) (hact : c.act a = some (c', o)) :
    c'.promise.retrieved = true ∧ c'.campaigns = 0 ∧ c'.campaigned = false := by
  have hno : ∀ call ∈ c.calls, call.isCampaign = true → False :=
    fun call hmem => Multiset.countP_eq_zero.mp hnone call hmem
  cases act_cases hact with
  | quiet _ h =>
    have honce := h.once
    rw [hret, hnone, Bool.toNat_true] at honce
    have hle : c'.promise.retrieved.toNat ≤ 1 := Bool.toNat_le _
    refine ⟨?_, by omega, (congrArg CampaignView.campaigned h.view).trans hcamp⟩
    cases hr : c'.promise.retrieved with
    | true => rfl
    | false =>
      rw [hr, Bool.toNat_false] at honce
      omega
  | answeredTxn call call' resp hmem hans heq =>
    subst heq
    refine ⟨hret, ?_, hcamp⟩
    have hcall' : call'.isCampaign = false := by
      rw [answered_isCampaign hans]
      simpa using hno call hmem
    rw [campaigns, moveCall, Multiset.countP_cons_of_neg _ (by simp [hcall'])]
    exact Nat.le_zero.mp (hnone ▸ Pool.countP_erase_le _)
  | created req resp ok status hmem heq => exact absurd rfl (hno _ hmem)
  | republished req resp ok status hmem hsucc heq => exact absurd rfl (hno _ hmem)
  | finished hmem heq =>
    subst heq
    refine ⟨hret, ?_, hcamp⟩
    exact Nat.le_zero.mp (hnone ▸ Pool.countP_erase_le _)
  | answeredRange req resp hmem heq =>
    subst heq
    exact ⟨hret, hnone, hcamp⟩
  | completed k hmem hwf heq =>
    subst heq
    have hview := callView_handle c k
    refine ⟨(congrArg CallView.retrieved hview).trans hret, ?_,
      (congrArg CallView.campaigned hview).trans hcamp⟩
    rw [campaigns, show (c.handle k).1.calls = c.calls from congrArg CallView.calls hview]
    exact hnone

/-- The Txns of the campaign stay, and what the candidate knows does not change. -/
theorem Learned.keep {a : Candidate.Act} {o : Outcome} {r : Int} (h : Learned r c)
    (hact : c.act a = some (c', o)) (hview : c'.nodeView = c.nodeView)
    (hcreate : ∀ req resp, .createNode req (some resp) ∈ c.txns →
      .createNode req (some resp) ∈ c'.txns)
    (hrepublish : ∀ req resp, .republish req resp ∈ c.txns →
      ∃ resp', .republish req resp' ∈ c'.txns) : Learned r c' := by
  have hrev : c'.creationRevision = c.creationRevision :=
    congrArg NodeView.creationRevision hview
  cases h with
  | answered req resp hmem hr => exact .answered req resp (hcreate req resp hmem) hr
  | adopted req resp hmem hr =>
    rcases hrepublish req resp hmem with ⟨resp', hmem'⟩
    exact .adopted req resp' hmem' (hrev.trans hr)
  | campaigned hcamp hr =>
    exact .campaigned ((congrArg NodeView.campaigned hview).trans hcamp) (hrev.trans hr)
  | failed hret hnone hcamp =>
    rcases failed_act hret hnone hcamp hact with ⟨hret', hnone', hcamp'⟩
    exact .failed hret' hnone' hcamp'

theorem Learned.act {a : Candidate.Act} {o : Outcome} {r : Int} (h : Learned r c) (hinv : Inv c)
    (hact : c.act a = some (c', o)) : Learned r c' := by
  cases txn_cases hact with
  | other a hview htxns =>
    refine h.keep hact hview ?_ ?_
    · intro req resp hmem
      rw [htxns]
      exact hmem
    · intro req resp hmem
      rw [htxns]
      exact ⟨resp, hmem⟩
  | created hmem hview htxns =>
    rcases h.of_call hinv hmem rfl with ⟨_, _, heq, _⟩ | ⟨_, _, heq, _⟩
    · cases heq
    · cases heq
  | proclaimed value hview htxns =>
    refine h.keep hact hview ?_ ?_
    · intro req resp hmem
      rw [htxns]
      exact Multiset.mem_cons_of_mem hmem
    · intro req resp hmem
      rw [htxns]
      exact ⟨resp, Multiset.mem_cons_of_mem hmem⟩
  | answered call call' resp hmem hans hview htxns =>
    refine h.keep hact hview ?_ ?_
    · intro req resp' hmem'
      rw [htxns]
      refine Multiset.mem_cons_of_mem ((Multiset.mem_erase_of_ne ?_).mpr hmem')
      rintro rfl
      cases hans
    · intro req resp' hmem'
      rw [htxns]
      by_cases hsame : .republish req resp' = call
      -- it is this one that is answered
      · subst hsame
        cases resp' <;> cases hans
        exact ⟨some resp, Multiset.mem_cons_self _ _⟩
      · exact ⟨resp', Multiset.mem_cons_of_mem ((Multiset.mem_erase_of_ne hsame).mpr hmem')⟩
  | done call ok status o hmem heq => exact h.done hinv hmem heq

/-- The calls that come after the first Txn of `create_node()` was executed. -/
def isServed : Call → Bool
  | .createNode _ (some _) => true
  | .republish _ _ => true
  | _ => false

/-- The server has not executed the first Txn of `create_node()`. -/
def Unserved (c : Candidate) : Prop :=
  (∀ call ∈ c.txns, isServed call = false) ∧ c.campaigned = false

theorem Unserved.of_mem (h : Unserved c) (hcamp : c'.campaigned = c.campaigned)
    (hmem : ∀ call ∈ c'.txns, call ∈ c.txns ∨ isServed call = false) : Unserved c' := by
  refine ⟨?_, hcamp.trans h.2⟩
  intro call hcall
  rcases hmem call hcall with hold | hnew
  · exact h.1 call hold
  · exact hnew

/-- Until the server executes it, that stays so. -/
theorem Unserved.act {a : Candidate.Act} {o : Outcome} (h : Unserved c)
    (hact : c.act a = some (c', o)) (ha : ∀ req resp, a ≠ .answerTxn (.createNode req none) resp) :
    Unserved c' := by
  cases txn_cases hact with
  | other a hview htxns =>
    refine h.of_mem (congrArg NodeView.campaigned hview) ?_
    intro call hmem
    exact .inl (htxns ▸ hmem)
  | created hmem hview htxns =>
    refine h.of_mem (congrArg NodeView.campaigned hview) ?_
    intro call hcall
    rw [htxns] at hcall
    rcases Multiset.mem_cons.mp hcall with rfl | hold
    · exact .inr rfl
    · exact .inl hold
  | proclaimed value hview htxns =>
    refine h.of_mem (congrArg NodeView.campaigned hview) ?_
    intro call hcall
    rw [htxns] at hcall
    rcases Multiset.mem_cons.mp hcall with rfl | hold
    · exact .inr rfl
    · exact .inl hold
  | answered call call' resp hmem hans hview htxns =>
    refine h.of_mem (congrArg NodeView.campaigned hview) ?_
    intro call'' hcall
    rw [htxns] at hcall
    rcases Multiset.mem_cons.mp hcall with rfl | hold
    · cases call with
      | createNode req r =>
        cases r with
        | none => exact absurd rfl (ha req resp)
        | some r => cases hans
      | republish req r => cases h.1 _ hmem
      | proclaim value req r =>
        cases r <;> cases hans
        exact .inr rfl
      | _ => cases hans
    · exact .inl (Multiset.mem_of_mem_erase hold)
  | done call ok status o hmem heq =>
    have herase : ∀ call' ∈ (c.unblock call).txns, call' ∈ c.txns ∨ isServed call' = false := by
      intro call' hcall'
      rcases mem_txnCalls.mp hcall' with ⟨hcalls, htxn⟩
      exact .inl (mem_txnCalls.mpr ⟨Multiset.mem_of_mem_erase hcalls, htxn⟩)
    rcases onTxn_cases heq with ⟨_, rfl⟩ | ⟨req, resp, rfl, rfl⟩ | ⟨req, resp, rfl, rfl⟩ |
      ⟨value, req, resp, rfl, rfl⟩
    · exact h.of_mem rfl herase
    · cases h.1 _ hmem
    · cases h.1 _ hmem
    · unfold onProclaimed
      split
      · exact h.of_mem rfl herase
      · exact h.of_mem rfl herase

/-- Where `campaign()` has returned, the candidate knows the create revision of the node. -/
theorem Learned.known {r : Int} {c : Candidate} (h : Learned r c) (hinv : Inv c)
    (hcamp : c.campaigned = true) : c.creationRevision = r := by
  cases h with
  | answered req resp hmem _ =>
    have hno := (hinv.campaign_frame (mem_txnCalls.mp hmem).1 rfl).1
    exact absurd (hcamp.symm.trans hno) (by simp)
  | adopted _ _ _ hr => exact hr
  | campaigned _ hr => exact hr
  | failed _ _ hno => exact absurd (hcamp.symm.trans hno) (by simp)

/-! ## The system -/

namespace System

variable {ι : Type u} {i : ι} {s s' t : System ι}

theorem Consistent.key_inj (h : Consistent s) {i j : ι} (hij : (s.cand i).key = (s.cand j).key) :
    i = j := by
  refine h.leases (candidateKey_lease_inj (s.cand i).electionName ?_)
  rw [key, key, ← h.election i j] at hij
  exact hij

/-- The candidate makes its calls in order, every Txn of it that is done has OK status, and from
its `campaign()` on nobody else puts its node. Others may delete it, as the end of its lease does. -/
def Exclusive (i : ι) (s : System ι) : Act ι → Prop
  | .client j a => j = i → Proper (s.cand i) a
  | .write ops => (s.cand i).promise.retrieved = false ∨ ∀ v l, .put (s.cand i).key v l ∉ ops
  | _ => True

/-- What the candidate has published, and that no other candidate puts its node. -/
structure Published (i : ι) (s : System ι) : Prop where
  owned : ∀ j, Owned (s.cand j)
  fresh : Fresh (s.cand i)
  agreed : Agreed s.etcd (s.cand i)

/-- No Txn of another candidate puts the node. -/
theorem Published.no_put {j : ι} {call : Call} {req : TxnRequest} (h : Published i s)
    (hc : Consistent s) (hij : j ≠ i) (hmem : call ∈ (s.cand j).txns)
    (hreq : request call = some req) (v : Bytes) (l : UInt64) :
    .put (s.cand i).key v l ∉ s.etcd.branch req := by
  intro hput
  have hin : .put (s.cand i).key v l ∈ req.success ++ req.failure := by
    unfold Store.branch at hput
    split at hput
    · exact List.mem_append_left _ hput
    · exact List.mem_append_right _ hput
  exact hij (hc.key_inj (h.owned j call hmem req hreq _ v l hin).symm)

variable [DecidableEq ι]

/-- A candidate takes a step, and the store another. -/
theorem Published.update {e' : Store} {watch' : ι → Nat → WatchState} {j : ι} {c' : Candidate}
    {a : Candidate.Act} {o : Outcome} (h : Published i s) (hinv : Inv (s.cand i))
    (hact : (s.cand j).act a = some (c', o))
    (hself : j = i → Agreed e' c') (hother : j ≠ i → Agreed e' (s.cand i)) :
    Published i { etcd := e', cand := Function.update s.cand j c', watch := watch' } where
  owned k := by
    by_cases hk : k = j
    · subst hk
      simpa using owned_act (h.owned k) hact
    · simpa [hk] using h.owned k
  fresh := by
    by_cases hij : j = i
    · subst hij
      simpa using fresh_act h.fresh hinv hact
    · simpa [Ne.symm hij] using h.fresh
  agreed := by
    by_cases hij : j = i
    · subst hij
      simpa using hself rfl
    · simpa [Ne.symm hij] using hother hij

theorem Published.step {a : Act ι} (h : Published i s) (hc : Consistent s)
    (hok : Exclusive i s a) (hstep : s.step a = some s') : Published i s' := by
  have hinv : Inv (s.cand i) := (hc.tied i).inv
  cases step_cases hstep with
  | client j a c' o hcl hact =>
    refine h.update hinv hact ?_ (fun _ => h.agreed)
    rintro rfl
    refine h.agreed.act hinv (hok rfl) ?_ hact
    rintro call resp rfl
    cases hcl
  | range j req c' o hact =>
    refine h.update hinv hact ?_ (fun _ => h.agreed)
    rintro rfl
    refine h.agreed.act hinv ?_ ?_ hact
    · trivial
    · simp
  | txn j call req c' o hreq hact =>
    have htxn : call ∈ (s.cand j).txns ∧ ∃ call', call.answered (s.etcd.txnResponse req) =
        some call' ∧ c'.nodeView = (s.cand j).nodeView ∧
        c'.txns = call' ::ₘ (s.cand j).txns.erase call := by
      simp only [Candidate.act] at hact
      split at hact
      · rename_i hmem
        rcases Option.map_eq_some_iff.mp hact with ⟨call', hans, heq⟩
        rcases answered_isTxn hans with ⟨hcall, hcall'⟩
        obtain rfl : _ = c' := congrArg Prod.fst heq
        refine ⟨mem_txnCalls.mpr ⟨hmem, hcall⟩, call', hans, rfl, ?_⟩
        exact (txnCalls_cons hcall' _).trans (congrArg _ (txnCalls_erase hcall _))
      · cases hact
    rcases htxn with ⟨hmem, call', hans, hview, htxns⟩
    refine h.update hinv hact ?_ ?_
    · rintro rfl
      exact h.agreed.served hmem hreq hans hview htxns
    · intro hij
      exact h.agreed.commit (h.no_put hc hij hmem hreq)
  | deliver j wkey wrevision id n canceled compactRevision req c' o hreq hlive hn hact =>
    refine h.update hinv hact ?_ (fun _ => h.agreed)
    rintro rfl
    refine h.agreed.act hinv ?_ ?_ hact
    · trivial
    · simp
  | write ops hops =>
    refine ⟨h.owned, h.fresh, ?_⟩
    rcases hok with hret | hno
    · exact h.agreed.of_fresh hinv h.fresh hret
    · exact h.agreed.commit hno

theorem reachable_published (h : machine.Reachable (Exclusive i) s) : Published i s := by
  refine h.invariant_of (fun s hs => reachable_consistent (hs.mono fun _ _ _ => trivial)) ?_ ?_
  · rintro s ⟨name, lease, value, revision, hrev, hinj, rfl⟩
    refine ⟨fun j call hmem => ?_, fun _ => rfl, .of_value rfl (stored_zero _ _ _)⟩
    exact absurd hmem (Multiset.notMem_zero _)
  · intro s a s' hc hp hok hstep
    exact hp.step hc hok hstep

/-! ## The node of a candidate -/

/-- A step of the system is a step of the candidate, or leaves it alone. It is answered a Txn
only when the server executes it. -/
theorem cand_step {a : Act ι} (hstep : s.step a = some s') (i : ι) :
    s'.cand i = s.cand i ∨ ∃ b o, (s.cand i).act b = some (s'.cand i, o) ∧
      ∀ call resp, b = .answerTxn call resp → a = .serveTxn i call := by
  have hupdate : ∀ {j : ι} {c' : Candidate} {b : Candidate.Act} {o : Outcome},
      (s.cand j).act b = some (c', o) →
      (∀ call resp, b = .answerTxn call resp → a = .serveTxn j call) →
      Function.update s.cand j c' i = s.cand i ∨
        ∃ b o, (s.cand i).act b = some (Function.update s.cand j c' i, o) ∧
          ∀ call resp, b = .answerTxn call resp → a = .serveTxn i call := by
    intro j c' b o hact hans
    by_cases hij : i = j
    · subst hij
      rw [Function.update_self]
      exact .inr ⟨b, o, hact, hans⟩
    · exact .inl (Function.update_of_ne hij _ _)
  cases step_cases hstep with
  | client j b c' o hcl hact =>
    refine hupdate hact ?_
    rintro call resp rfl
    cases hcl
  | range j req c' o hact => exact hupdate hact (by simp)
  | txn j call req c' o hreq hact =>
    refine hupdate hact ?_
    rintro call' resp heq
    cases heq
    rfl
  | deliver j wkey wrevision id n canceled compactRevision req c' o hreq hlive hn hact =>
    exact hupdate hact (by simp)
  | write ops hops => exact .inl rfl

/-- The server executes the first Txn of `create_node()`: it creates the node, or finds it. -/
structure NodeTxn (i : ι) (u u' : System ι) (kv : KeyValue) : Prop where
  step : u.step (.serveTxn i (.createNode (u.cand i).createNodeRequest none)) = some u'
  node : get? u'.etcd.kvs (u.cand i).key = some kv
  made : (get? u.etcd.kvs (u.cand i).key = none ∧ kv.createRevision = u'.etcd.revision) ∨
    get? u.etcd.kvs (u.cand i).key = some kv

/-- The Txn that is executed is the one of the candidate, and it leaves a node. -/
theorem nodeTxn_of_step {req : TxnRequest} (hp : Published i s)
    (hstep : s.step (.serveTxn i (.createNode req none)) = some s') :
    ∃ kv, NodeTxn i s s' kv := by
  cases step_cases hstep with
  | txn _ _ req' c' o hreq hact =>
    cases hreq
    have hmem : .createNode req none ∈ (s.cand i).txns := by
      simp only [Candidate.act] at hact
      split at hact
      · rename_i hmem
        exact mem_txnCalls.mpr ⟨hmem, rfl⟩
      · cases hact
    obtain ⟨_, rfl⟩ := hp.agreed.call _ hmem
    rcases served_createNode s.etcd (s.cand i) with
      ⟨kv, hnode, _, ⟨_, _, hnone, hrev⟩ | ⟨_, _, hsome⟩⟩
    · exact ⟨kv, hstep, hnode, .inl ⟨hnone, hrev⟩⟩
    · exact ⟨kv, hstep, hnode, .inr hsome⟩

/-- From there on the candidate knows the node, or will know it. -/
theorem NodeTxn.learned {kv : KeyValue} (h : NodeTxn i s s' kv) :
    Learned kv.createRevision (s'.cand i) := by
  rcases served_createNode s.etcd (s.cand i) with ⟨kv', hnode, hlearned, _⟩
  cases step_cases h.step with
  | txn _ _ req c' o hreq hact =>
    cases hreq
    have hsame : kv' = kv := Option.some.inj (hnode.symm.trans h.node)
    rw [hsame] at hlearned
    refine .answered (s.cand i).createNodeRequest _ ?_ hlearned
    simp only [Candidate.act] at hact
    split at hact
    · rw [← show _ = c' from congrArg Prod.fst (Option.some.inj hact)]
      simp only [Function.update_self]
      exact mem_txnCalls.mpr ⟨Multiset.mem_cons_self _ _, rfl⟩
    · cases hact

theorem learned_run {r : Int} {allowed : System ι → Act ι → Prop}
    (hs : machine.Reachable Any s) (hrun : machine.Run allowed s t) (h : Learned r (s.cand i)) :
    Learned r (t.cand i) := by
  have hall : Consistent t ∧ Learned r (t.cand i) := by
    refine hrun.invariant ?_ ⟨reachable_consistent hs, h⟩
    rintro u a u' ⟨hc, hl⟩ _ hstep
    refine ⟨step_consistent hc hstep, ?_⟩
    rcases cand_step hstep i with heq | ⟨b, o, hact, _⟩
    · rw [heq]
      exact hl
    · exact hl.act (hc.tied i).inv hact
  exact hall.2

/-- The Txn has not been executed, or it was, on the way to here. -/
def Traced (i : ι) (s : System ι) : Prop :=
  Unserved (s.cand i) ∨ ∃ u u' kv, machine.Reachable (Exclusive i) u ∧ NodeTxn i u u' kv ∧
    machine.Run (Exclusive i) u' s

theorem reachable_traced (h : machine.Reachable (Exclusive i) s) : Traced i s := by
  refine h.invariant_of (fun s hs => hs) ?_ ?_
  · rintro s ⟨name, lease, value, revision, hrev, hinj, rfl⟩
    refine .inl ⟨fun call hmem => ?_, rfl⟩
    exact absurd hmem (Multiset.notMem_zero _)
  · rintro s a s' hs hprev hok hstep
    rcases hprev with hun | ⟨u, u', kv, hu, hnode, hrun⟩
    · by_cases ha : ∃ req, a = .serveTxn i (.createNode req none)
      · rcases ha with ⟨req, rfl⟩
        rcases nodeTxn_of_step (reachable_published hs) hstep with ⟨kv, hnode⟩
        exact .inr ⟨s, s', kv, hs, hnode, .refl _⟩
      · rcases cand_step hstep i with heq | ⟨b, o, hact, hans⟩
        · refine .inl ?_
          rw [heq]
          exact hun
        · refine .inl (hun.act hact ?_)
          rintro req resp rfl
          exact ha ⟨req, hans _ resp rfl⟩
    · exact .inr ⟨u, u', kv, hu, hnode, hrun.tail a hok hstep⟩

/-- Once `campaign()` has returned, the creation revision is the one of the node that
`create_node()` has created or found; and whenever no Txn is outstanding, that node, if it is still
there, has the value of the candidate. -/
theorem value_agrees (h : machine.Reachable (Exclusive i) s) :
    ((s.cand i).campaigned = true →
      (∃ u u' kv, machine.Reachable (Exclusive i) u ∧ NodeTxn i u u' kv ∧
        machine.Run (Exclusive i) u' s) ∧
      ∀ u u' kv, machine.Reachable (Exclusive i) u → NodeTxn i u u' kv →
        machine.Run (Exclusive i) u' s → (s.cand i).creationRevision = kv.createRevision) ∧
    ((s.cand i).txns = 0 → ∀ kv, get? s.etcd.kvs (s.cand i).key = some kv →
      kv.createRevision = (s.cand i).creationRevision → kv.value = (s.cand i).candidateValue) := by
  refine ⟨fun hcamp => ⟨?_, ?_⟩, ?_⟩
  · rcases reachable_traced h with ⟨_, hno⟩ | htraced
    · exact absurd (hcamp.symm.trans hno) (by simp)
    · exact htraced
  · intro u u' kv hu hnode hrun
    have hany : ∀ (s : System ι) (a : Act ι), Exclusive i s a → Any s a := fun _ _ _ => trivial
    have hu' : machine.Reachable Any u' :=
      (hu.mono hany).run
        (.single (.serveTxn i (.createNode (u.cand i).createNodeRequest none)) trivial hnode.step)
    have hinv : Inv (s.cand i) := ((reachable_consistent (h.mono hany)).tied i).inv
    exact (learned_run hu' hrun hnode.learned).known hinv hcamp
  · intro hnone kv hget hr
    rcases get?_some hget with ⟨hmem, hk⟩
    exact (reachable_published h).agreed.value hnone kv hmem hk hr

/-- A check of `Exclusive` that allows no write once `campaign()` is called. -/
def exclusive (i : ι) (s : System ι) : Act ι → Bool
  | .client j (.proclaim _) => j ≠ i || ((s.cand i).campaigned && (s.cand i).txns = 0)
  | .client j (.txnDone _ ok status) => j ≠ i || (ok && status.ok)
  | .write _ => !(s.cand i).promise.retrieved
  | _ => true

theorem exclusive_sound (i : ι) (s : System ι) (a : Act ι) (h : exclusive i s a = true) :
    Exclusive i s a := by
  cases a with
  | client j b =>
    rintro rfl
    cases b with
    | proclaim value => simpa [exclusive, Proper] using h
    | txnDone call ok status => simpa [exclusive, Proper] using h
    | _ => trivial
  | write ops => exact .inl (by simpa [exclusive] using h)
  | _ => trivial

/-- A candidate that finds its node with another value, and takes its place. -/
def late : Candidate := .init [] 1 [7]

/-- What that candidate knows once it has adopted the node. -/
def lateAdopted : Candidate := { late with creationRevision := 2 }

/-- The node of an earlier instance is adopted, its value replaced, and replaced again by
`proclaim()`. -/
def adoptAndProclaim : List (Act Unit) :=
  let found : TxnResponse :=
    { revision := 2
      succeeded := false
      responses := [.range [{ key := late.key, createRevision := 2, modRevision := 2, lease := 1 }]] }
  let published (r : Int) : TxnResponse :=
    { revision := r
      succeeded := true
      responses := [.put] }
  let proclaimed := lateAdopted.publishRequest [8] none
  [.write [.put late.key [] 1], .client () .campaign, .client () (.streamCreated true),
    .serveTxn () (.createNode late.createNodeRequest none),
    .client () (.txnDone (.createNode late.createNodeRequest (some found)) true {}),
    .serveTxn () (.republish lateAdopted.republishRequest none),
    .client () (.txnDone (.republish lateAdopted.republishRequest (some (published 3))) true {}),
    .client () (.proclaim [8]), .serveTxn () (.proclaim [8] proclaimed none),
    .client () (.txnDone (.proclaim [8] proclaimed (some (published 4))) true {})]

/-- The node of that candidate, with the value it proclaimed. -/
def lateNode : KeyValue where
  key := late.key
  value := [8]
  createRevision := 2
  modRevision := 4
  lease := 1

theorem value_agrees_adopted : ∃ s : System Unit, machine.Reachable (Exclusive ()) s ∧
    (s.cand ()).campaigned = true ∧ (s.cand ()).txns = 0 ∧
    get? s.etcd.kvs (s.cand ()).key = some lateNode ∧ (s.cand ()).creationRevision = 2 ∧
    lateNode.value = (s.cand ()).candidateValue := by
  rcases reachable_of_execIf machine (exclusive ())
    (init [] (fun _ => 1) (fun _ => [7]) 1 le_rfl) adoptAndProclaim
    (fun s => (s.cand ()).campaigned && decide ((s.cand ()).txns = 0) &&
      decide (get? s.etcd.kvs (s.cand ()).key = some lateNode) &&
      decide ((s.cand ()).creationRevision = 2))
    (exclusive_sound ()) ⟨_, _, _, _, _, fun _ _ _ => rfl, rfl⟩ (by decide) with
    ⟨s, hreach, hcheck⟩
  simp only [Bool.and_eq_true, decide_eq_true_eq] at hcheck
  rcases hcheck with ⟨⟨⟨hcamp, hnone⟩, hget⟩, hr⟩
  exact ⟨s, hreach, hcamp, hnone, hget, hr,
    (value_agrees hreach).2 hnone lateNode hget hr.symm⟩

end System

end GeeH.Election
