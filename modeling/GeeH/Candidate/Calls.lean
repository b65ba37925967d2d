import GeeH.Candidate.Invariants
import GeeH.Candidate.Txns

/-!
# GeeH.Candidate.Calls — what `proclaim()` and a failed `campaign()` leave behind

`proclaim()` writes under the condition that the node has the create revision
which the candidate knows. Before `create_node()` has run that revision is 0, and
to etcd a create revision of 0 says that there is no such key.

`campaign()` takes the future out of the promise before it does anything that can
fail, and a promise gives its future away once.
-/

namespace GeeH.Candidate

open Etcd Machine

/-! ## `proclaim()` -/

/-- `proclaim(v)` was called in `c`, its Txn was executed on `e`, and its response is delivered in
`d`: the RPC completes with OK status, any other delivers none. Anything can happen to the candidate
in between. -/
structure Proclaimed (c : Candidate) (v : Bytes) (e : Store) (d d' : Candidate) (o : Outcome) :
    Prop where
  reachable : machine.Reachable Any c
  called : ∃ c₁, c.act (.proclaim v) = some (c₁, .running) ∧ machine.Run Any c₁ d
  delivered : ∃ status : Status, status.ok = true ∧
    d.act (.txnDone (.proclaim v (c.publishRequest v none)
      (some (e.txnResponse (c.publishRequest v none)))) true status) = some (d', o)

/-- If it returns, only the value and the modification revision of the candidate's own node have
changed, and if it throws, nothing has. -/
def OnlyRewrites (c : Candidate) (v : Bytes) (e : Store) (d d' : Candidate) (o : Outcome) : Prop :=
  let e' := e.txn (c.publishRequest v none)
  (o = .returned →
    (∃ kv ∈ e.kvs, kv.key = c.key ∧ kv.createRevision = c.creationRevision ∧
      ∀ kv', kv' ∈ e'.kvs ↔ kv' ∈ e.kvs ∧ kv'.key ≠ c.key ∨
        kv' = { kv with value := v, modRevision := e'.revision }) ∧
    d'.candidateValue = v) ∧
  ∀ x, o = .threw x → e' = e ∧ d'.candidateValue = d.candidateValue

variable {c d d' : Candidate} {v : Bytes} {e : Store} {o : Outcome}

theorem succeeds_publishRequest (c : Candidate) (v : Bytes) (e : Store) :
    e.succeeds (c.publishRequest v none) = true ↔
      ((get? e.kvs c.key).map (·.createRevision)).getD 0 = c.creationRevision := by
  simp only [Store.succeeds, publishRequest, List.all_cons, List.all_nil, Bool.and_true]
  exact decide_eq_true_iff

/-- `proclaim()` returns where the Txn succeeds. -/
theorem Proclaimed.cases (h : Proclaimed c v e d d' o) :
    (e.succeeds (c.publishRequest v none) = true ∧ o = .returned ∧ d'.candidateValue = v ∧
      e.txn (c.publishRequest v none) = e.commit [.put c.key v c.leaseId]) ∨
    (e.succeeds (c.publishRequest v none) = false ∧ (∃ x, o = .threw x) ∧
      d'.candidateValue = d.candidateValue ∧ e.txn (c.publishRequest v none) = e) := by
  obtain ⟨status, hok, hact⟩ := h.delivered
  have hnone : futureError "async rpc cancelled" "election_candidate/publish_value" true status =
      none := futureError_eq_none.mpr ⟨rfl, hok⟩
  obtain ⟨-, hact⟩ := Option.ite_none_right_eq_some.mp hact
  simp only [onTxn, hnone, Option.map_some, Option.some.injEq] at hact
  cases hs : e.succeeds (c.publishRequest v none) with
  | true =>
    simp only [onProclaimed, Store.txnResponse, hs, if_true, Prod.mk.injEq] at hact
    obtain ⟨rfl, rfl⟩ := hact
    refine Or.inl ⟨rfl, rfl, rfl, ?_⟩
    rw [Store.txn, Store.branch, if_pos hs]
    rfl
  | false =>
    simp only [onProclaimed, Store.txnResponse, hs, Bool.false_eq_true, if_false,
      Prod.mk.injEq] at hact
    obtain ⟨rfl, rfl⟩ := hact
    refine Or.inr ⟨rfl, ⟨_, rfl⟩, rfl, ?_⟩
    -- there is no operation for the failure
    rw [Store.txn, Store.branch, hs]
    exact Store.commit_of_no_event rfl

/-- The node that a put leaves where there was one. -/
theorem mem_commit_put {k : Bytes} {l : UInt64} {kv : KeyValue} (hget : get? e.kvs k = some kv)
    (kv' : KeyValue) :
    kv' ∈ (e.commit [.put k v l]).kvs ↔ kv' ∈ e.kvs ∧ kv'.key ≠ k ∨
      kv' = { kv with
        value := v
        modRevision := (e.commit [.put k v l]).revision
        lease := l } := by
  have hrev : (e.commit [.put k v l]).revision = e.revision + 1 := by
    rcases e.commit_revision [.put k v l] with ⟨_, hnone⟩ | ⟨hrev, _⟩
    · cases hnone
    · exact hrev
  rw [Store.kvs_commit_put, List.mem_append, mem_without, List.mem_singleton, hget, hrev,
    (get?_some hget).2.symm]
  rfl

/-- `proclaim()` rewrites the candidate's own node and nothing else if and only if it does not find
the key absent while the candidate knows no revision yet, and the node has the candidate's lease. -/
theorem proclaim_rewrites_iff (c : Candidate) (v : Bytes) (e : Store) (d d' : Candidate)
    (o : Outcome) (h : Proclaimed c v e d d' o) :
    OnlyRewrites c v e d d' o ↔
      (c.creationRevision = 0 → ∃ kv ∈ e.kvs, kv.key = c.key) ∧
      ∀ kv ∈ e.kvs, kv.key = c.key → kv.createRevision = c.creationRevision →
        kv.lease = c.leaseId := by
  rcases h.cases with ⟨hs, rfl, hval, htxn⟩ | ⟨hs, ⟨x, rfl⟩, hval, htxn⟩
  · have hcmp := (succeeds_publishRequest c v e).mp hs
    cases hget : get? e.kvs c.key with
    | none =>
      -- the Txn creates the node
      have habsent := get?_none.mp hget
      have hzero : c.creationRevision = 0 := by rw [← hcmp, hget]; rfl
      refine iff_of_false ?_ ?_
      · rintro ⟨hret, -⟩
        obtain ⟨⟨kv, hkv, hkey, -⟩, -⟩ := hret rfl
        exact habsent kv hkv hkey
      · rintro ⟨hpresent, -⟩
        obtain ⟨kv, hkv, hkey⟩ := hpresent hzero
        exact habsent kv hkv hkey
    | some kv =>
      obtain ⟨hkv, hkey⟩ := get?_some hget
      have hcreate : kv.createRevision = c.creationRevision := by rw [← hcmp, hget]; rfl
      have hmem := mem_commit_put (v := v) (l := c.leaseId) hget
      constructor
      · rintro ⟨hret, -⟩
        obtain ⟨⟨kv₁, hkv₁, hkey₁, -, hiff⟩, -⟩ := hret rfl
        obtain rfl : kv₁ = kv := Option.some.inj ((Store.get?_kvs hkv₁ hkey₁).symm.trans hget)
        rw [htxn] at hiff
        rcases (hmem _).mp ((hiff _).mpr (Or.inr rfl)) with ⟨-, hne⟩ | heq
        · exact absurd hkey₁ hne
        have hlease : kv₁.lease = c.leaseId := congrArg KeyValue.lease heq
        refine ⟨fun _ => ⟨kv₁, hkv₁, hkey₁⟩, ?_⟩
        intro kv₂ hkv₂ hkey₂ _
        rwa [Option.some.inj ((Store.get?_kvs hkv₂ hkey₂).symm.trans hget)]
      · rintro ⟨-, hlease⟩
        refine ⟨fun _ => ⟨⟨kv, hkv, hkey, hcreate, ?_⟩, hval⟩, by simp⟩
        rw [htxn]
        intro kv'
        rw [hmem kv', ← hlease kv hkv hkey hcreate]
  · have hcmp := mt (succeeds_publishRequest c v e).mpr (by simp [hs])
    refine iff_of_true ⟨by simp, fun _ _ => ⟨htxn, hval⟩⟩ ⟨?_, ?_⟩
    · intro hzero
      by_contra hno
      have hget : get? e.kvs c.key = none := get?_none.mpr fun kv hkv hkey => hno ⟨kv, hkv, hkey⟩
      exact hcmp (by rw [hget, hzero]; rfl)
    · intro kv hkv hkey hcreate
      exact absurd (by rw [Store.get?_kvs hkv hkey]; exact hcreate) hcmp

/-- A candidate that waits for the answer to its query. -/
def campaigning : Candidate :=
  { init [] 1 [] with
    creationRevision := 2
    promise := { retrieved := true }
    ops := { pending := 1 }
    watcherStream := true
    pending := {.queryPredecessor firstQuery none}
    campaigned := true }

theorem campaigning_reachable : machine.Reachable Any campaigning := by
  have hexec : machine.exec (init [] 1 []) campaignTrace = some campaigning := by decide
  exact ⟨_, ⟨_, _, _, rfl⟩, run_of_exec hexec⟩

/-- The proclamation of a value whose Txn was answered, while nothing else happened. -/
def proclaiming (c : Candidate) (v : Bytes) (resp : TxnResponse) : Candidate :=
  c.block (.proclaim v (c.publishRequest v none) (some resp))

theorem run_proclaiming (c : Candidate) (v : Bytes) (resp : TxnResponse) :
    machine.Run Any (c.block (.proclaim v (c.publishRequest v none) none))
      (c.proclaiming v resp) := by
  refine Run.single (.answerTxn (.proclaim v (c.publishRequest v none) none) resp) trivial ?_
  simp [machine, act, block, Call.answered, moveCall, proclaiming]

/-- A candidate with a node of its own proclaims a value. -/
theorem proclaim_rewrites_campaigned : ∃ c e d d', Proclaimed c [1] e d d' .returned ∧
    OnlyRewrites c [1] e d d' .returned := by
  let c := campaigning
  let e := (Store.empty 1 le_rfl).commit [.put c.key [] 1]
  let resp := e.txnResponse (c.publishRequest [1] none)
  have hdone : Proclaimed c [1] e (c.proclaiming [1] resp) { c with candidateValue := [1] }
      .returned :=
    ⟨campaigning_reachable, ⟨_, by decide, run_proclaiming c [1] resp⟩, {}, rfl, by decide⟩
  exact ⟨c, e, _, _, hdone, (proclaim_rewrites_iff c [1] e _ _ _ hdone).mpr (by decide)⟩

/-- Nobody has campaigned, and `proclaim()` creates the node. -/
theorem proclaim_creates_node : ∃ c e d d', Proclaimed c [1] e d d' .returned ∧ e.kvs = [] ∧
    (e.txn (c.publishRequest [1] none)).kvs.map (·.key) = [c.key] ∧
    ¬ OnlyRewrites c [1] e d d' .returned := by
  let c := init [] 1 []
  let e := Store.empty 1 le_rfl
  let resp := e.txnResponse (c.publishRequest [1] none)
  have hdone : Proclaimed c [1] e (c.proclaiming [1] resp) { c with candidateValue := [1] }
      .returned :=
    ⟨⟨c, ⟨_, _, _, rfl⟩, .refl c⟩, ⟨_, by decide, run_proclaiming c [1] resp⟩, {}, rfl, by decide⟩
  refine ⟨c, e, _, _, hdone, by decide, by decide, ?_⟩
  rintro ⟨hret, -⟩
  obtain ⟨⟨kv, hkv, -⟩, -⟩ := hret rfl
  exact absurd hkv List.not_mem_nil

/-! ## A failed `campaign()` -/

/-- The steps in which `campaign()` goes on after it has blocked. -/
def Act.OfCampaign : Act → Prop
  | .streamCreated _ => True
  | .txnDone call _ _ => call.isCampaign = true
  | _ => False

/-- What an application finds in a candidate that has not campaigned: it is not elected, nothing
is outstanding, and `campaign()` gets as far as its first RPC. -/
structure NotCampaigned (c : Candidate) : Prop where
  elected : c.elected = false
  idle : c.pending = 0
  starts : ∃ c', c.campaign = (c', .running)

theorem init_notCampaigned (name : Bytes) (leaseId : UInt64) (value : Bytes) :
    NotCampaigned (init name leaseId value) :=
  ⟨rfl, rfl, _, rfl⟩

theorem retrieved_run (h : c.promise.retrieved = true) (hrun : machine.Run Any c d) :
    d.promise.retrieved = true := by
  refine hrun.invariant ?_ h
  intro s a s' hs _ hstep
  obtain ⟨o, hact⟩ := machine_step hstep
  exact keepsFuture_act hact hs

/-- Once the future was taken, `campaign()` throws. -/
theorem campaign_retrieved (h : c.promise.retrieved = true) : ∃ x, c.campaign = (c, .threw x) := by
  unfold campaign
  rw [if_pos h]
  split
  · exact ⟨_, rfl⟩
  · exact ⟨_, rfl⟩

/-- A `campaign()` that goes on has taken the future. -/
theorem retrieved_of_campaign {a : Act} (hi : Inv c) (ha : a.OfCampaign)
    (hact : c.act a = some (d, o)) : c.promise.retrieved = true := by
  have hframe : ∃ call ∈ c.calls, call.isCampaign = true := by
    cases a with
    | streamCreated ok =>
      obtain ⟨hmem, -⟩ := Option.ite_none_right_eq_some.mp hact
      exact ⟨_, hmem, rfl⟩
    | txnDone call ok status =>
      obtain ⟨hmem, -⟩ := Option.ite_none_right_eq_some.mp hact
      exact ⟨call, hmem, ha⟩
    | _ => cases ha
  obtain ⟨call, hmem, hcall⟩ := hframe
  -- `campaign()` takes the future before it blocks
  have hroom := (hi.campaign_frame hmem hcall).2.1
  cases hret : c.promise.retrieved with
  | false =>
    rw [hret] at hroom
    simp at hroom
  | true => rfl

/-- However `campaign()` fails, the candidate is not one that has not campaigned: every later
`campaign()` throws, before it makes an RPC. -/
theorem failed_campaign_final (c c' : Candidate) (a : Act) (x : Exn)
    (hreach : machine.Reachable Any c) (ha : a.OfCampaign)
    (hact : c.act a = some (c', .threw x)) :
    ¬ c'.NotCampaigned ∧ ∀ d, machine.Run Any c' d → ∃ y, d.campaign = (d, .threw y) := by
  have hret : c'.promise.retrieved = true :=
    keepsFuture_act hact (retrieved_of_campaign (reachable_inv hreach) ha hact)
  refine ⟨?_, ?_⟩
  · intro hnot
    -- it would have to get as far as its first RPC
    obtain ⟨y, hy⟩ := campaign_retrieved hret
    obtain ⟨c'', hc''⟩ := hnot.starts
    rw [hy] at hc''
    cases hc''
  · intro d hrun
    exact campaign_retrieved (retrieved_run hret hrun)

/-- etcd is not available: the Txn of `create_node()` fails with that status. -/
theorem failed_campaign_unavailable : ∃ c c' x, machine.Reachable Any c ∧
    c.act (.txnDone (.createNode (createNodeRequest (init [] 1 [])) none) true { errorCode := 14 }) =
      some (c', .threw x) ∧ ∀ d, machine.Run Any c' d → ∃ y, d.campaign = (d, .threw y) := by
  let c := ((init [] 1 []).campaign.1.onStreamCreated true).1
  let a : Act := .txnDone (.createNode (createNodeRequest (init [] 1 [])) none) true
    { errorCode := 14 }
  have hexec : machine.exec (init [] 1 []) [.campaign, .streamCreated true] = some c := by decide
  have hreach : machine.Reachable Any c := ⟨_, ⟨_, _, _, rfl⟩, run_of_exec hexec⟩
  have hact : c.act a = some (c.unblock (.createNode (createNodeRequest (init [] 1 [])) none),
      .threw (.grpcError "election_candidate/create_node" { errorCode := 14 })) := by decide
  exact ⟨c, _, _, hreach, hact, (failed_campaign_final c _ a _ hreach rfl hact).2⟩

/-- The stream is not created, and the next `campaign()` throws. -/
theorem campaign_not_retried : ∃ c c' x, machine.Reachable Any c ∧
    c.act (.streamCreated false) = some (c', .threw x) ∧
    c'.campaign = (c', .threw .futureAlreadyRetrieved) ∧ ¬ c'.NotCampaigned := by
  let c := (init [] 1 []).campaign.1
  have hexec : machine.exec (init [] 1 []) [.campaign] = some c := by decide
  have hact : c.act (.streamCreated false) = some ((c.onStreamCreated false).1, .threw
      (.runtimeError "async create_rdwr_stream cancelled for election_candidate/watch")) := by
    decide
  have hthrew : (c.onStreamCreated false).1.campaign =
      ((c.onStreamCreated false).1, .threw .futureAlreadyRetrieved) := by decide
  refine ⟨c, _, _, ⟨_, ⟨_, _, _, rfl⟩, run_of_exec hexec⟩, hact, hthrew, ?_⟩
  intro hnot
  obtain ⟨c'', hc''⟩ := hnot.starts
  rw [hthrew] at hc''
  cases hc''

end GeeH.Candidate
