import GeeH.Candidate.Invariants

/-!
# GeeH.Candidate.Txns — the transactions of a candidate

A call of the application that waits for a Txn is a frame of `calls`. What one
step does to these frames, and to what a candidate knows of its own node, is
said once (`txn_cases`): a frame is put there by `create_node()`, its
republication or `proclaim()`, is answered by the server, and goes when its
Txn is done.
-/

namespace GeeH.Candidate

open Etcd

variable {c c' : Candidate} {a : Act} {o : Outcome}

/-- The calls that wait for a Txn. -/
def Call.isTxn : Call → Bool
  | .createNode _ _ => true
  | .republish _ _ => true
  | .proclaim _ _ _ => true
  | _ => false

def txnCalls (s : Multiset Call) : Multiset Call := s.filter fun call => call.isTxn

/-- The Txns that are outstanding. -/
def txns (c : Candidate) : Multiset Call := txnCalls c.calls

theorem mem_txnCalls {call : Call} {s : Multiset Call} :
    call ∈ txnCalls s ↔ call ∈ s ∧ call.isTxn = true := Multiset.mem_filter

@[simp] theorem txnCalls_cons {call : Call} (h : call.isTxn = true) (s : Multiset Call) :
    txnCalls (call ::ₘ s) = call ::ₘ txnCalls s :=
  Multiset.filter_cons_of_pos _ h

@[simp] theorem txnCalls_cons_of_not {call : Call} (h : call.isTxn = false) (s : Multiset Call) :
    txnCalls (call ::ₘ s) = txnCalls s :=
  Multiset.filter_cons_of_neg _ (by simp [h])

theorem txnCalls_erase {call : Call} (h : call.isTxn = true) (s : Multiset Call) :
    txnCalls (s.erase call) = (txnCalls s).erase call := by
  have hone : txnCalls {call} = {call} := by simp [txnCalls, Multiset.filter_singleton, h]
  rw [← Multiset.sub_singleton, ← Multiset.sub_singleton, txnCalls, Multiset.filter_sub]
  exact congrArg _ hone

theorem txnCalls_erase_of_not {call : Call} (h : call.isTxn = false) (s : Multiset Call) :
    txnCalls (s.erase call) = txnCalls s := by
  have hnone : txnCalls {call} = 0 := by simp [txnCalls, Multiset.filter_singleton, h]
  rw [← Multiset.sub_singleton, txnCalls, Multiset.filter_sub]
  exact (congrArg _ hnone).trans (Multiset.sub_zero _)

/-- What a candidate knows of its own node. -/
structure NodeView where
  leaseId : UInt64
  electionName : Bytes
  candidateValue : Bytes
  creationRevision : Int
  campaigned : Bool

/-- What a candidate knows of its own node. -/
def nodeView (c : Candidate) : NodeView where
  leaseId := c.leaseId
  electionName := c.electionName
  candidateValue := c.candidateValue
  creationRevision := c.creationRevision
  campaigned := c.campaigned

/-- The requests of a candidate are made of what it knows. -/
theorem requests_congr (h : c'.nodeView = c.nodeView) :
    c'.key = c.key ∧ c'.createNodeRequest = c.createNodeRequest ∧
    ∀ value op, c'.publishRequest value op = c.publishRequest value op := by
  have hl : c'.leaseId = c.leaseId := congrArg NodeView.leaseId h
  have hn : c'.electionName = c.electionName := congrArg NodeView.electionName h
  have hv : c'.candidateValue = c.candidateValue := congrArg NodeView.candidateValue h
  have hr : c'.creationRevision = c.creationRevision := congrArg NodeView.creationRevision h
  have hk : c'.key = c.key := by rw [key, key, hl, hn]
  refine ⟨hk, ?_, ?_⟩
  · rw [createNodeRequest, createNodeRequest, hk, hl, hv]
  · intro value op
    rw [publishRequest, publishRequest, hk, hl, hr]

/-- The future of the campaign stays retrieved. -/
def KeepsFuture (c c' : Candidate) : Prop :=
  c.promise.retrieved = true → c'.promise.retrieved = true

/-- What one step does to the Txns. -/
inductive TxnEffect (c c' : Candidate) : Act → Prop where
  | other (a : Act) (hview : c'.nodeView = c.nodeView) (htxns : c'.txns = c.txns)
      (hfut : KeepsFuture c c' := by exact id) : TxnEffect c c' a
  | created (hmem : .createWatchStream ∈ c.calls) (hview : c'.nodeView = c.nodeView)
      (htxns : c'.txns = .createNode c.createNodeRequest none ::ₘ c.txns)
      (hfut : KeepsFuture c c' := by exact id) : TxnEffect c c' (.streamCreated true)
  | proclaimed (value : Bytes) (hview : c'.nodeView = c.nodeView)
      (htxns : c'.txns = .proclaim value (c.publishRequest value none) none ::ₘ c.txns)
      (hfut : KeepsFuture c c' := by exact id) : TxnEffect c c' (.proclaim value)
  | answered (call call' : Call) (resp : TxnResponse) (hmem : call ∈ c.txns)
      (hans : call.answered resp = some call') (hview : c'.nodeView = c.nodeView)
      (htxns : c'.txns = call' ::ₘ c.txns.erase call)
      (hfut : KeepsFuture c c' := by exact id) : TxnEffect c c' (.answerTxn call resp)
  | done (call : Call) (ok : Bool) (status : Status) (o : Outcome) (hmem : call ∈ c.txns)
      (heq : c.onTxn call ok status = some (c', o)) :
      TxnEffect c c' (.txnDone call ok status)

theorem nodeView_of_callView (h : c'.callView = c.callView) :
    c'.nodeView = c.nodeView ∧ c'.txns = c.txns := by
  constructor
  · simp only [nodeView, NodeView.mk.injEq]
    exact ⟨congrArg CallView.leaseId h, congrArg CallView.electionName h,
      congrArg CallView.candidateValue h, congrArg CallView.creationRevision h,
      congrArg CallView.campaigned h⟩
  · rw [txns, txns, show c'.calls = c.calls from congrArg CallView.calls h]

theorem answered_isTxn {call call' : Call} {resp : TxnResponse}
    (h : call.answered resp = some call') : call.isTxn = true ∧ call'.isTxn = true := by
  cases call with
  | createNode req r =>
    cases r <;> cases h
    exact ⟨rfl, rfl⟩
  | republish req r =>
    cases r <;> cases h
    exact ⟨rfl, rfl⟩
  | proclaim value req r =>
    cases r <;> cases h
    exact ⟨rfl, rfl⟩
  | _ => cases h

theorem onTxn_isTxn {call : Call} {ok : Bool} {status : Status}
    (h : c.onTxn call ok status = some (c', o)) : call.isTxn = true := by
  cases call with
  | createNode _ _ => rfl
  | republish _ _ => rfl
  | proclaim _ _ _ => rfl
  | _ => cases h

/-- What one step does to the Txns. -/
theorem txn_cases (h : c.act a = some (c', o)) : TxnEffect c c' a := by
  cases a with
  | campaign =>
    obtain ⟨-, rfl⟩ := of_guard_not h
    unfold campaign
    split
    · exact .other _ rfl rfl
    · split
      · exact .other _ rfl rfl
      · exact .other _ rfl (txnCalls_cons_of_not rfl _) (fun _ => rfl)
  | proclaim value =>
    obtain ⟨-, rfl⟩ := of_guard_not h
    unfold proclaim
    split
    · exact .other _ rfl rfl
    · exact .proclaimed value rfl (txnCalls_cons rfl _)
  | resign =>
    obtain ⟨-, rfl⟩ := of_guard_not h
    unfold resign
    split
    · exact .other _ rfl rfl
    · cases hstream : c.watcherStream with
      | false => exact .other _ rfl rfl
      | true => exact .other _ rfl (txnCalls_cons_of_not rfl _)
  | destroy =>
    obtain ⟨-, rfl⟩ := of_guard_not h
    exact .other _ rfl (txnCalls_cons_of_not rfl _)
  | answerRange req resp =>
    obtain ⟨-, rfl⟩ := of_guard h
    exact .other _ rfl rfl
  | answerTxn call resp =>
    simp only [act] at h
    split at h
    · rename_i hmem
      rcases Option.map_eq_some_iff.mp h with ⟨call', hans, heq⟩
      rcases answered_isTxn hans with ⟨htxn, htxn'⟩
      rw [← show _ = c' from congrArg Prod.fst heq]
      refine .answered call call' resp (mem_txnCalls.mpr ⟨hmem, htxn⟩) hans rfl ?_
      show txnCalls (call' ::ₘ c.calls.erase call) = _
      rw [txnCalls_cons htxn', txnCalls_erase htxn]
      rfl
    · cases h
  | complete k =>
    rcases completed_of_act h with ⟨_, _, rfl⟩
    have hcall := callView_handle c k
    rcases nodeView_of_callView hcall with ⟨hview, htxns⟩
    exact .other _ hview htxns (congrArg CallView.retrieved hcall).trans
  | streamCreated ok =>
    obtain ⟨hmem, rfl⟩ := of_guard h
    have hleft : txnCalls (c.calls.erase .createWatchStream) = c.txns :=
      txnCalls_erase_of_not rfl _
    unfold onStreamCreated
    cases ok with
    | false => exact .other _ rfl hleft
    | true =>
      simp only [Bool.not_true, Bool.false_eq_true, if_false, createNode]
      split
      · exact .other _ rfl hleft
      · refine .created hmem rfl ?_
        rw [← hleft]
        exact txnCalls_cons rfl _
  | txnDone call ok status =>
    simp only [act] at h
    split at h
    · rename_i hmem
      exact .done call ok status o (mem_txnCalls.mpr ⟨hmem, onTxn_isTxn h⟩) h
    · cases h
  | cancelWritten writes w =>
    obtain ⟨-, rfl⟩ := of_guard h
    refine .other _ rfl ?_
    exact (txnCalls_cons_of_not rfl _).trans (txnCalls_erase_of_not rfl _)
  | cancelsDone =>
    obtain ⟨-, rfl⟩ := of_guard h
    refine .other _ rfl ?_
    exact (txnCalls_cons_of_not rfl _).trans (txnCalls_erase_of_not rfl _)
  | readsDone =>
    obtain ⟨-, rfl⟩ := of_guard h
    refine .other _ rfl ?_
    exact (txnCalls_cons_of_not rfl _).trans (txnCalls_erase_of_not rfl _)
  | writesDone ok =>
    obtain ⟨-, rfl⟩ := of_guard h
    unfold onWritesDone
    cases ok with
    | false => exact .other _ rfl (txnCalls_erase_of_not rfl _)
    | true =>
      refine .other _ rfl ?_
      exact (txnCalls_cons_of_not rfl _).trans (txnCalls_erase_of_not rfl _)
  | finished ok =>
    obtain ⟨-, rfl⟩ := of_guard h
    cases ok with
    | false => exact .other _ rfl (txnCalls_erase_of_not rfl _)
    | true => exact .other _ rfl (txnCalls_erase_of_not rfl _)
  | opsDrained =>
    obtain ⟨-, rfl⟩ := of_guard h
    refine .other _ rfl ?_
    exact (txnCalls_cons_of_not rfl _).trans (txnCalls_erase_of_not rfl _)
  | readsDrained =>
    obtain ⟨-, rfl⟩ := of_guard h
    exact .other _ rfl (txnCalls_erase_of_not rfl _)

/-! ## When a Txn is done -/

/-- How a call goes on after its Txn: with an exception, or with the response. -/
theorem onTxn_cases {call : Call} {ok : Bool} {status : Status}
    (h : c.onTxn call ok status = some (c', o)) :
    (¬ (ok = true ∧ status.ok = true) ∧ c' = c.unblock call) ∨
    (∃ req resp, call = .createNode req (some resp) ∧
      c' = ((c.unblock call).onNodeCreated resp).1) ∨
    (∃ req resp, call = .republish req (some resp) ∧
      c' = ((c.unblock call).onRepublished resp).1) ∨
    ∃ value req resp, call = .proclaim value req (some resp) ∧
      c' = ((c.unblock call).onProclaimed value resp).1 := by
  have hthrown : ∀ {s l : String} {x}, futureError s l ok status = some x →
      ¬ (ok = true ∧ status.ok = true) := by
    intro s l x hx hok
    rw [futureError_eq_none.mpr hok] at hx
    cases hx
  cases call with
  | createNode req resp =>
    simp only [onTxn] at h
    split at h
    · rename_i hx
      exact .inl ⟨hthrown hx, fst_of_some h⟩
    · rcases Option.map_eq_some_iff.mp h with ⟨resp, rfl, heq⟩
      exact .inr (.inl ⟨req, resp, rfl, (congrArg Prod.fst heq).symm⟩)
  | republish req resp =>
    simp only [onTxn] at h
    split at h
    · rename_i hx
      exact .inl ⟨hthrown hx, fst_of_some h⟩
    · rcases Option.map_eq_some_iff.mp h with ⟨resp, rfl, heq⟩
      exact .inr (.inr (.inl ⟨req, resp, rfl, (congrArg Prod.fst heq).symm⟩))
  | proclaim value req resp =>
    simp only [onTxn] at h
    split at h
    · rename_i hx
      exact .inl ⟨hthrown hx, fst_of_some h⟩
    · rcases Option.map_eq_some_iff.mp h with ⟨resp, rfl, heq⟩
      exact .inr (.inr (.inr ⟨value, req, resp, rfl, (congrArg Prod.fst heq).symm⟩))
  | _ => cases h

theorem nodeView_startCampaign (c : Candidate) :
    c.startCampaign.1.nodeView = { c.nodeView with campaigned := true } ∧
    c.startCampaign.1.txns = c.txns := by
  rcases nodeView_of_callView (callView_queryPredecessor c) with ⟨hview, htxns⟩
  refine ⟨?_, htxns⟩
  show { c.queryPredecessor.nodeView with campaigned := true } = _
  rw [hview]

/-- The creation revision that `create_node()` takes from its first answer. -/
def learned (resp : TxnResponse) : Int :=
  if resp.succeeded then resp.revision
  else match resp.responses with
    | [r] =>
      match responseRangeKvs r with
      | [kv] => kv.createRevision
      | _ => resp.revision
    | _ => resp.revision

/-- The second Txn of `create_node()`. -/
def republishRequest (c : Candidate) : TxnRequest :=
  c.publishRequest c.candidateValue (some (.deleteRange c.key))

/-- `create_node()` goes on with what it has learned: it starts the campaign, publishes its value
on an adopted node, or throws. -/
theorem onNodeCreated_txns (c : Candidate) (resp : TxnResponse) :
    ∃ d : Candidate, d = { c with creationRevision := learned resp } ∧
      (((c.onNodeCreated resp).1 = d.startCampaign.1 ∧
          (resp.succeeded = false → ∀ kv, resp.responses = [.range [kv]] →
            kv.value = c.candidateValue)) ∨
        ((c.onNodeCreated resp).1 = d.block (.republish d.republishRequest none) ∧
          resp.succeeded = false) ∨
        ((c.onNodeCreated resp).1 = d ∧ resp.succeeded = false ∧
          ∀ kv, resp.responses ≠ [.range [kv]])) := by
  refine ⟨_, rfl, ?_⟩
  simp only [onNodeCreated, learned]
  cases hsucc : resp.succeeded with
  | true =>
    refine .inl ⟨by simp, ?_⟩
    intro h
    cases h
  | false =>
    simp only [Bool.false_eq_true, if_false]
    rcases resp.responses with _ | ⟨r, _ | ⟨_, _⟩⟩
    · exact .inr (.inr ⟨rfl, trivial, by simp⟩)
    · cases r with
      | put => exact .inr (.inr ⟨rfl, trivial, by simp⟩)
      | deleteRange _ => exact .inr (.inr ⟨rfl, trivial, by simp⟩)
      | range kvs =>
        rcases kvs with _ | ⟨kv, _ | ⟨_, _⟩⟩
        · exact .inr (.inr ⟨rfl, trivial, by simp⟩)
        · by_cases hv : kv.value = c.candidateValue
          · refine .inl ⟨by simp [responseRangeKvs, hv], ?_⟩
            intro _ kv' h
            cases h
            exact hv
          · refine .inr (.inl ⟨?_, trivial⟩)
            simp only [responseRangeKvs, hv, ne_eq, not_false_eq_true, if_true]
            rfl
        · exact .inr (.inr ⟨rfl, trivial, by simp⟩)
    · exact .inr (.inr ⟨rfl, trivial, by simp⟩)

/-! ## Before `campaign()` -/

theorem keepsFuture_startCampaign (d : Candidate) : KeepsFuture d d.startCampaign.1 :=
  (congrArg CallView.retrieved (callView_queryPredecessor d)).trans

theorem keepsFuture_act (h : c.act a = some (c', o)) : KeepsFuture c c' := by
  cases txn_cases h with
  | other _ _ _ hfut => exact hfut
  | created _ _ _ hfut => exact hfut
  | proclaimed _ _ _ hfut => exact hfut
  | answered _ _ _ _ _ _ _ hfut => exact hfut
  | done call ok status o hmem heq =>
    intro hret
    rcases onTxn_cases heq with ⟨_, rfl⟩ | ⟨req, resp, rfl, rfl⟩ | ⟨req, resp, rfl, rfl⟩ |
      ⟨value, req, resp, rfl, rfl⟩
    · exact hret
    · rcases onNodeCreated_txns (c.unblock (.createNode req (some resp))) resp with
        ⟨d, rfl, ⟨hd, _⟩ | ⟨hd, _⟩ | ⟨hd, _, _⟩⟩
      · rw [hd]
        exact keepsFuture_startCampaign _ hret
      · rw [hd]
        exact hret
      · rw [hd]
        exact hret
    · unfold onRepublished
      split
      · exact keepsFuture_startCampaign _ hret
      · exact hret
    · unfold onProclaimed
      split
      · exact hret
      · exact hret

/-- Before `campaign()` is called, a candidate knows no revision. -/
def Fresh (c : Candidate) : Prop := c.promise.retrieved = false → c.creationRevision = 0

theorem fresh_act (h : Fresh c) (hinv : Inv c) (hact : c.act a = some (c', o)) : Fresh c' := by
  intro hret'
  have hret : c.promise.retrieved = false := by
    cases hr : c.promise.retrieved with
    | false => rfl
    | true => exact (keepsFuture_act hact hr).symm.trans hret'
  have hview : c'.nodeView = c.nodeView → c'.creationRevision = 0 :=
    fun hv => (congrArg NodeView.creationRevision hv).trans (h hret)
  cases txn_cases hact with
  | other _ hv => exact hview hv
  | created _ hv => exact hview hv
  | proclaimed _ hv => exact hview hv
  | answered _ _ _ _ _ hv => exact hview hv
  | done call ok status o hmem heq =>
    -- no frame of `campaign()` is there to go on
    have hno : call.isCampaign = false := by
      cases hcall : call.isCampaign with
      | false => rfl
      | true =>
        have honce := (hinv.campaign_frame (mem_txnCalls.mp hmem).1 hcall).2.1
        rw [hret, Bool.toNat_false] at honce
        omega
    rcases onTxn_cases heq with ⟨_, rfl⟩ | ⟨req, resp, rfl, rfl⟩ | ⟨req, resp, rfl, rfl⟩ |
      ⟨value, req, resp, rfl, rfl⟩
    · exact h hret
    · cases hno
    · cases hno
    · unfold onProclaimed
      split
      · exact h hret
      · exact h hret

end GeeH.Candidate
