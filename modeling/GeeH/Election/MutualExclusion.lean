import GeeH.Election.System

/-!
# GeeH.Election.MutualExclusion — at most one leader

A candidate is elected by a Range that found no node of the election older
than its own. Nodes never get older, and a new node is younger than all that
were there before, so the answer stays true for as long as the candidate's
creation revision does (`NoOlder`), however late it arrives. The invariant
`Tied` ties what a candidate holds to the contents of the store; two elected
candidates with nodes would each be the oldest.
-/

namespace GeeH.Election

open Etcd Machine Candidate

universe u

variable {e : Store} {c c' : Candidate}

/-! ## Revisions that the server has given out -/

/-- A create revision that the store has reached. -/
def Issued (e : Store) (r : Int) : Prop := 2 ≤ r ∧ r ≤ e.revision

theorem Issued.commit {r : Int} (h : Issued e r) (ops : List RequestOp) :
    Issued (e.commit ops) r :=
  ⟨h.1, h.2.trans (e.le_commit_revision ops)⟩

/-- No node of the candidate's election is older than its creation revision. -/
def NoOlder (e : Store) (c : Candidate) : Prop :=
  ∀ kv ∈ e.kvs, InElection c.electionName kv.key → c.creationRevision ≤ kv.createRevision

theorem NoOlder.congr (h : NoOlder e c) (hname : c'.electionName = c.electionName)
    (hrev : c'.creationRevision = c.creationRevision) : NoOlder e c' := by
  unfold NoOlder
  rw [hname, hrev]
  exact h

/-- New nodes are younger than every revision given out before. -/
theorem NoOlder.commit (h : NoOlder e c) (hr : Issued e c.creationRevision)
    (ops : List RequestOp) : NoOlder (e.commit ops) c := by
  intro kv hkv hel
  have hnode : (e.commit ops).HasNode kv.key kv.createRevision := ⟨kv, hkv, rfl, rfl⟩
  rcases Store.hasNode_of_commit hnode with ⟨old, hold, hkey, hcr⟩ | hnew
  · rw [← hcr]
    exact h old hold (hkey ▸ hel)
  · have := hr.2
    omega

/-- An empty answer to the query of a candidate. -/
theorem noOlder_of_range (h : (e.range c.predecessorRequest).kvs = []) : NoOlder e c := by
  rcases answer_limit_one c.predecessorRequest rfl e.kvs with
    ⟨_, hnone⟩ | ⟨kv, hans, _⟩
  · intro kv hkv hel
    by_contra hlt
    refine hnone kv hkv ⟨hel, Or.inr ?_⟩
    show kv.createRevision ≤ c.creationRevision - 1
    omega
  · have hans' : (e.range c.predecessorRequest).kvs = [kv] := hans
    rw [h] at hans'
    cases hans'

/-! ## The answer to the first Txn -/

/-- The revisions in an answer to `create_node()` are revisions of the store. -/
structure NodeAnswer (e : Store) (resp : TxnResponse) : Prop where
  fresh : resp.succeeded = true → Issued e resp.revision
  adopted : ∀ kv, resp.responses = [.range [kv]] → Issued e kv.createRevision

theorem NodeAnswer.commit {resp : TxnResponse} (h : NodeAnswer e resp) (ops : List RequestOp) :
    NodeAnswer (e.commit ops) resp :=
  ⟨fun hs => (h.fresh hs).commit ops, fun kv hkv => (h.adopted kv hkv).commit ops⟩

theorem nodeAnswer_txn (e : Store) (c : Candidate) :
    NodeAnswer (e.txn c.createNodeRequest) (e.txnResponse c.createNodeRequest) := by
  by_cases hs : e.succeeds c.createNodeRequest = true
  -- the node was put: the Txn took a revision
  · have hbranch : e.branch c.createNodeRequest = [.put c.key c.candidateValue c.leaseId] :=
      if_pos hs
    have hnew : e.newEvents (e.branch c.createNodeRequest) ≠ [] := by
      rw [hbranch]
      simp [Store.newEvents, runOps, runOp]
    have hrev : (e.txn c.createNodeRequest).revision = e.revision + 1 := by
      rcases e.commit_revision (e.branch c.createNodeRequest) with ⟨_, hnil⟩ | ⟨hrev, _⟩
      · exact absurd hnil hnew
      · exact hrev
    constructor
    · intro _
      have hpos := e.revision_pos
      have hresp : (e.txnResponse c.createNodeRequest).revision = e.revision + 1 := hrev
      exact ⟨by omega, by omega⟩
    · intro kv hkv
      have hput : (e.txnResponse c.createNodeRequest).responses = [.put] := by
        show e.responses (e.branch c.createNodeRequest) = _
        rw [hbranch]
        rfl
      rw [hput] at hkv
      cases hkv
  -- the node was there, and has a create revision of its own
  · have hbranch : e.branch c.createNodeRequest = [.range c.key] := if_neg hs
    constructor
    · intro hs'
      exact absurd hs' hs
    · intro kv hkv
      have hrange : e.responses (e.branch c.createNodeRequest) = [.range [kv]] := hkv
      have hget : get? e.kvs c.key = some kv := by
        rw [hbranch] at hrange
        simpa [Store.responses, runOps, runOp] using hrange
      have hb := e.kvs_bounded kv (get?_some hget).1
      have hissued : Issued e kv.createRevision := ⟨hb.1, by omega⟩
      exact hissued.commit _

/-! ## The invariant -/

/-- What a candidate holds, tied to the contents of the store. -/
structure Tied (e : Store) (c : Candidate) : Prop where
  inv : Inv c
  created : c.campaigned = true → Issued e c.creationRevision
  adopted : ∀ req resp, .republish req resp ∈ c.calls → Issued e c.creationRevision
  answered : ∀ req resp, .createNode req (some resp) ∈ c.calls → NodeAnswer e resp
  empty : ∀ req resp, .queryPredecessor req (some resp) ∈ c.pending → resp.kvs = [] →
    NoOlder e c
  elected : c.elected = true → NoOlder e c

/-- Before `campaign()` has returned, only its frames hold anything. -/
theorem Tied.of_idle (h : Inv c) (hno : c.campaigned = false)
    (hadopted : ∀ req resp, .republish req resp ∈ c.calls → Issued e c.creationRevision)
    (hanswered : ∀ req resp, .createNode req (some resp) ∈ c.calls → NodeAnswer e resp) :
    Tied e c where
  inv := h
  created hc := by
    rw [hno] at hc
    cases hc
  adopted := hadopted
  answered := hanswered
  empty req resp hmem := by
    rw [(h.idle hno).1] at hmem
    simp at hmem
  elected hel := by
    rw [(h.idle hno).2.1] at hel
    cases hel

theorem Tied.init (e : Store) (name : Bytes) (leaseId : UInt64) (value : Bytes) :
    Tied e (Candidate.init name leaseId value) := by
  refine .of_idle (init_inv name leaseId value) rfl ?_ ?_
  · intro req resp hmem
    simp [Candidate.init] at hmem
  · intro req resp hmem
    simp [Candidate.init] at hmem

/-- A write by anybody keeps every candidate tied. -/
theorem Tied.commit (h : Tied e c) (ops : List RequestOp) : Tied (e.commit ops) c where
  inv := h.inv
  created hc := (h.created hc).commit ops
  adopted req resp hmem := (h.adopted req resp hmem).commit ops
  answered req resp hmem := (h.answered req resp hmem).commit ops
  empty req resp hmem hkvs :=
    (h.empty req resp hmem hkvs).commit (h.created (h.inv.campaigned_of_pending hmem)) ops
  elected hel := by
    cases hc : c.campaigned with
    | true => exact (h.elected hel).commit (h.created hc) ops
    | false =>
      rw [(h.inv.idle hc).2.1] at hel
      cases hel

/-- What the server answers to a candidate, evaluated on the store it leaves. -/
def Answers (e : Store) : Candidate.Act → Prop
  | .answerRange req resp => resp = e.range req
  | .answerTxn call resp => ∃ (e₀ : Store) (req : TxnRequest), request call = some req ∧
      resp = e₀.txnResponse req ∧ e = e₀.txn req
  | _ => True

/-- The end of `campaign()`: nothing is known yet but the creation revision. -/
theorem tied_startCampaign (h : Inv c) (hno : c.campaigned = false) (hframes : c.campaigns = 0)
    (hinv : Inv c.startCampaign.1) (hr : Issued e c.creationRevision) :
    Tied e c.startCampaign.1 := by
  have hview := callView_queryPredecessor c
  have hcalls : c.startCampaign.1.calls = c.calls := congrArg CallView.calls hview
  have hnone : ∀ call ∈ c.startCampaign.1.calls, ¬ call.isCampaign = true := by
    rw [hcalls]
    exact Multiset.countP_eq_zero.mp hframes
  refine ⟨hinv, ?_, ?_, ?_, ?_, ?_⟩
  · intro _
    have hrev : c.startCampaign.1.creationRevision = c.creationRevision :=
      congrArg CallView.creationRevision hview
    rw [hrev]
    exact hr
  · intro req resp hmem
    exact absurd rfl (hnone _ hmem)
  · intro req resp hmem
    exact absurd rfl (hnone _ hmem)
  · intro req resp hmem
    rcases posts_queryPredecessor c with ⟨extra, hp⟩
    have hmem' : .queryPredecessor req (some resp) ∈ c.queryPredecessor.pending := hmem
    rw [hp.pending, (h.idle hno).1, add_zero] at hmem'
    cases hp.query _ hmem' rfl
  · intro hel
    have hold := queryPredecessor_elected c hel
    rw [(h.idle hno).2.1] at hold
    cases hold

theorem Tied.created_node {req : TxnRequest} {resp : TxnResponse} (h : Tied e c)
    (hmem : .createNode req (some resp) ∈ c.calls) :
    Tied e ((c.unblock (.createNode req (some resp))).onNodeCreated resp).1 := by
  have hinv := inv_created h.inv hmem
  have hans := h.answered req resp hmem
  rcases h.inv.campaign_frame hmem rfl with ⟨hno, _, hframes⟩
  have hnone := Multiset.countP_eq_zero.mp hframes
  have hun := (quiet_unblock (.createNode req (some resp))).inv h.inv
  rcases onNodeCreated_cases (c.unblock (.createNode req (some resp))) resp with
    ⟨hs, heq⟩ | ⟨kv, hkv, heq⟩ | ⟨kv, hkv, req', hreq', heq⟩ | heq
  · rw [heq] at hinv ⊢
    exact tied_startCampaign (inv_creationRevision hun hno _) hno hframes hinv (hans.fresh hs)
  · rw [heq] at hinv ⊢
    exact tied_startCampaign (inv_creationRevision hun hno _) hno hframes hinv
      (hans.adopted kv hkv)
  -- an adopted node, whose value is published before the campaign starts
  · rw [heq] at hinv ⊢
    refine .of_idle hinv hno (fun _ _ _ => hans.adopted kv hkv) ?_
    intro req'' resp'' hmem''
    rcases Multiset.mem_cons.mp hmem'' with hcons | hmem''
    · cases hcons
    · exact absurd rfl (hnone _ hmem'')
  · rw [heq] at hinv ⊢
    refine .of_idle hinv hno ?_ ?_
    · intro req'' resp'' hmem''
      exact absurd rfl (hnone _ hmem'')
    · intro req'' resp'' hmem''
      exact absurd rfl (hnone _ hmem'')

/-! ## Steps of a candidate -/

theorem Tied.of_quiet (h : Tied e c) (hq : Quiet c c') : Tied e c' := by
  have hname : c'.electionName = c.electionName := congrArg CampaignView.electionName hq.view
  have hrev : c'.creationRevision = c.creationRevision :=
    congrArg CampaignView.creationRevision hq.view
  have hpend : c'.pending = c.pending := congrArg CampaignView.pending hq.view
  refine ⟨hq.inv h.inv, ?_, ?_, ?_, ?_, ?_⟩
  · intro hc
    rw [hrev]
    exact h.created ((congrArg CampaignView.campaigned hq.view).symm.trans hc)
  -- a quiet step starts no second Txn
  · intro req resp hmem
    rw [hrev]
    rcases hq.frames _ hmem rfl with hold | hcall | hcall
    · exact h.adopted req resp hold
    · cases hcall
    · cases hcall
  · intro req resp hmem
    rcases hq.frames _ hmem rfl with hold | hcall | hcall
    · exact h.answered req resp hold
    · cases hcall
    · cases hcall
  · intro req resp hmem hkvs
    exact (h.empty req resp (hpend ▸ hmem) hkvs).congr hname hrev
  · intro hel
    have hold : c.elected = true := (congrArg CampaignView.elected hq.view).symm.trans hel
    exact (h.elected hold).congr hname hrev

theorem Tied.answeredTxn {call call' : Call} {resp : TxnResponse} {e₀ : Store}
    {req : TxnRequest} (h : Tied (e₀.txn req) c) (hmem : call ∈ c.calls)
    (hans : call.answered resp = some call') (hreq : request call = some req)
    (hresp : resp = e₀.txnResponse req) : Tied (e₀.txn req) (c.moveCall call call') := by
  refine ⟨inv_answeredTxn h.inv hmem hans, h.created, ?_, ?_, h.empty, h.elected⟩
  · intro req' resp' hcall
    rcases Multiset.mem_cons.mp hcall with heq | hold
    -- the frame that was answered is a republication too
    · cases call with
      | republish req₀ resp₀ => exact h.adopted req₀ resp₀ hmem
      | createNode req₀ resp₀ => cases resp₀ <;> simp [Call.answered, ← heq] at hans
      | proclaim value req₀ resp₀ => cases resp₀ <;> simp [Call.answered, ← heq] at hans
      | _ => cases hans
    · exact h.adopted req' resp' (Multiset.mem_of_mem_erase hold)
  · intro req' resp' hcall
    rcases Multiset.mem_cons.mp hcall with heq | hold
    · cases call with
      | createNode req₀ resp₀ =>
        rcases h.inv.sound _ hmem with ⟨⟨value, hbuilt⟩, _⟩
        have hreq' : req₀ = req := Option.some.inj hreq
        have hresp' : resp' = resp := by
          cases resp₀ <;> simp [Call.answered, ← heq] at hans
          exact hans.2.symm
        rw [hresp', hresp, ← hreq', hbuilt]
        exact nodeAnswer_txn e₀ { c with candidateValue := value }
      | republish req₀ resp₀ => cases resp₀ <;> simp [Call.answered, ← heq] at hans
      | proclaim value req₀ resp₀ => cases resp₀ <;> simp [Call.answered, ← heq] at hans
      | _ => cases hans
    · exact h.answered req' resp' (Multiset.mem_of_mem_erase hold)

theorem Tied.of_handle {k : Completion} (h : Tied e c) (hmem : k.op ∈ c.pending)
    (hwf : k.WellFormed) : Tied e (c.handle k).1 := by
  have hview := callView_handle c k
  have hname : (c.handle k).1.electionName = c.electionName :=
    congrArg CallView.electionName hview
  have hrev : (c.handle k).1.creationRevision = c.creationRevision :=
    congrArg CallView.creationRevision hview
  have hcalls : (c.handle k).1.calls = c.calls := congrArg CallView.calls hview
  rcases posts_handle h.inv hmem with ⟨extra, hpend, hquery, _, _⟩
  refine ⟨inv_handle h.inv hmem, ?_, ?_, ?_, ?_, ?_⟩
  · intro hc
    rw [hrev]
    exact h.created ((congrArg CallView.campaigned hview).symm.trans hc)
  · intro req resp hcall
    rw [hrev]
    exact h.adopted req resp (hcalls ▸ hcall)
  · intro req resp hcall
    exact h.answered req resp (hcalls ▸ hcall)
  -- what a handler posts is not answered yet
  · intro req resp hop hkvs
    rw [hpend] at hop
    rcases Multiset.mem_add.mp hop with hnew | hold
    · cases hquery _ hnew rfl
    · exact (h.empty req resp (Multiset.mem_of_mem_erase hold) hkvs).congr hname hrev
  · intro hel
    rcases handle_elected hel with hold | ⟨hempty, _⟩
    · exact (h.elected hold).congr hname hrev
    · cases k with
      | rangeRequest req resp ok status =>
        rcases hempty with ⟨hok, hst, hkvs⟩
        rcases Option.isSome_iff_exists.mp (hwf hok hst) with ⟨resp', rfl⟩
        exact (h.empty req resp' hmem hkvs).congr hname hrev
      | watchCreate wkey wrevision ok => cases hempty
      | watchRead wkey wrevision ok resp => cases hempty

/-- One step of a candidate keeps it tied, when the answers are the server's. -/
theorem Tied.act {a : Candidate.Act} {o : Outcome} (h : Tied e c) (hans : Answers e a)
    (hact : c.act a = some (c', o)) : Tied e c' := by
  have hinv := step_inv hact h.inv
  cases act_cases hact with
  | quiet _ hq => exact h.of_quiet hq
  | answeredTxn call call' resp hmem hcall heq =>
    rcases hans with ⟨e₀, req, hreq, hresp, rfl⟩
    rw [heq]
    exact h.answeredTxn hmem hcall hreq hresp
  | created req resp ok status hmem heq =>
    rw [heq]
    exact h.created_node hmem
  | republished req resp ok status hmem _ heq =>
    rcases h.inv.campaign_frame hmem rfl with ⟨hno, _, hframes⟩
    rw [heq] at hinv ⊢
    exact tied_startCampaign ((quiet_unblock _).inv h.inv) hno hframes hinv
      (h.adopted req _ hmem)
  | finished hmem heq =>
    subst heq
    refine ⟨hinv, h.created, ?_, ?_, h.empty, ?_⟩
    · intro req resp hcall
      exact h.adopted req resp (Multiset.mem_of_mem_erase hcall)
    · intro req resp hcall
      exact h.answered req resp (Multiset.mem_of_mem_erase hcall)
    · intro hel
      cases hel
  | answeredRange req resp hmem heq =>
    subst heq
    refine ⟨hinv, h.created, h.adopted, h.answered, ?_, h.elected⟩
    intro req' resp' hop hkvs
    rcases Multiset.mem_cons.mp hop with hnew | hold
    -- the answer that has just come in
    · injection hnew with hreq hresp
      have hbuilt : req = c.predecessorRequest := by
        rcases h.inv.query _ hmem rfl with ⟨_, hq⟩
        injection hq
      have hrange : resp = e.range req := hans
      rw [Option.some.inj hresp, hrange, hbuilt] at hkvs
      exact noOlder_of_range hkvs
    · exact h.empty req' resp' (Multiset.mem_of_mem_erase hold) hkvs
  | completed k hmem hwf heq =>
    rw [heq]
    exact h.of_handle hmem hwf

/-! ## The system -/

theorem request_singlePut {call : Call} {req : TxnRequest} (h : Inv c) (hmem : call ∈ c.calls)
    (hreq : request call = some req) : req.SinglePut := by
  have hs := h.sound call hmem
  cases call with
  | createNode req' resp =>
    rcases hs with ⟨⟨value, rfl⟩, _⟩
    rw [← Option.some.inj hreq]
    exact createNodeRequest_singlePut _
  | republish req' resp =>
    rw [← Option.some.inj hreq]
    exact hs.1
  | proclaim value req' resp =>
    rw [← Option.some.inj hreq]
    exact hs
  | _ => cases hreq

theorem answers_of_isClient {a : Candidate.Act} (h : isClient a = true) : Answers e a := by
  cases a with
  | answerRange req resp => cases h
  | answerTxn call resp => cases h
  | _ => trivial

namespace System

variable {ι : Type u} {s s' : System ι}

/-- The invariant of the system. -/
structure Consistent (s : System ι) : Prop where
  tied : ∀ i, Tied s.etcd (s.cand i)
  onePut : OnePut s.etcd.log
  election : ∀ i j, (s.cand i).electionName = (s.cand j).electionName
  leases : Function.Injective fun i => (s.cand i).leaseId

theorem init_consistent {name : Bytes} {lease : ι → UInt64} {value : ι → Bytes} {revision : Int}
    {h : 1 ≤ revision} (hinj : Function.Injective lease) :
    Consistent (init name lease value revision h) where
  tied _ := Tied.init _ _ _ _
  onePut := List.Pairwise.nil
  election _ _ := rfl
  leases := hinj

/-! ## At most one leader -/

/-- A candidate that reports itself elected while its node is present. -/
def Leads (s : System ι) (i : ι) : Prop :=
  (s.cand i).elected = true ∧ s.etcd.HasNode (s.cand i).key (s.cand i).creationRevision

instance (s : System ι) (i : ι) : Decidable (s.Leads i) := inferInstanceAs (Decidable (_ ∧ _))

/-- The node of a candidate is a node of its election. -/
theorem key_inElection (c : Candidate) : InElection c.electionName c.key :=
  candidateKey_inElection _ _

/-- The node of a leader is older than any other of its election. -/
theorem Consistent.oldest (h : Consistent s) {i : ι} (hi : s.Leads i) {kv : KeyValue}
    (hkv : kv ∈ s.etcd.kvs) (hel : InElection (s.cand i).electionName kv.key)
    (hne : kv.key ≠ (s.cand i).key) : (s.cand i).creationRevision < kv.createRevision := by
  have hle := (h.tied i).elected hi.1 kv hkv hel
  rcases lt_or_eq_of_le hle with hlt | heq
  · exact hlt
  -- an equal create revision belongs to the same key
  · have hnode : s.etcd.HasNode kv.key (s.cand i).creationRevision := ⟨kv, hkv, rfl, heq.symm⟩
    exact absurd (Store.create_determines_key h.onePut hnode hi.2) hne

theorem Consistent.leads_unique (h : Consistent s) {i j : ι} (hi : s.Leads i) (hj : s.Leads j) :
    i = j := by
  have hkey : (s.cand i).key = (s.cand j).key := by
    by_contra hne
    rcases hi.2 with ⟨ki, hki, hkeyi, hcri⟩
    rcases hj.2 with ⟨kj, hkj, hkeyj, hcrj⟩
    have hij := h.oldest hi hkj (by rw [hkeyj, h.election i j]; exact key_inElection _)
      (by rw [hkeyj]; exact fun heq => hne heq.symm)
    have hji := h.oldest hj hki (by rw [hkeyi, h.election j i]; exact key_inElection _)
      (by rw [hkeyi]; exact hne)
    omega
  refine h.leases (candidateKey_lease_inj (s.cand i).electionName ?_)
  have hkey' : candidateKey (s.cand i).electionName (s.cand i).leaseId =
      candidateKey (s.cand j).electionName (s.cand j).leaseId := hkey
  rw [h.election j i] at hkey'
  exact hkey'

/-! ## Every reachable state -/

variable [DecidableEq ι]

/-- A candidate takes a step; the others keep what they have. -/
theorem Consistent.update {e' : Store} {watch' : ι → Nat → WatchState} {i : ι} {c' : Candidate}
    {a : Candidate.Act} {o : Outcome} (h : Consistent s) (htied : ∀ j, Tied e' (s.cand j))
    (hput : OnePut e'.log) (hact : (s.cand i).act a = some (c', o)) (hans : Answers e' a) :
    Consistent { etcd := e', cand := Function.update s.cand i c', watch := watch' } := by
  rcases act_identity hact with ⟨hlease, hname⟩
  have hleases : ∀ j, (Function.update s.cand i c' j).leaseId = (s.cand j).leaseId := by
    intro j
    by_cases hj : j = i
    · subst hj
      rw [Function.update_self, hlease]
    · rw [Function.update_of_ne hj]
  have hnames : ∀ j, (Function.update s.cand i c' j).electionName = (s.cand j).electionName := by
    intro j
    by_cases hj : j = i
    · subst hj
      rw [Function.update_self, hname]
    · rw [Function.update_of_ne hj]
  refine ⟨?_, hput, ?_, ?_⟩
  · intro j
    by_cases hj : j = i
    · subst hj
      show Tied e' (Function.update s.cand j c' j)
      rw [Function.update_self]
      exact (htied j).act hans hact
    · show Tied e' (Function.update s.cand i c' j)
      rw [Function.update_of_ne hj]
      exact htied j
  · intro j k
    show (Function.update s.cand i c' j).electionName = (Function.update s.cand i c' k).electionName
    rw [hnames, hnames]
    exact h.election j k
  · intro j k hjk
    have hjk' : (Function.update s.cand i c' j).leaseId = (Function.update s.cand i c' k).leaseId :=
      hjk
    rw [hleases, hleases] at hjk'
    exact h.leases hjk'

theorem step_consistent {a : Act ι} (h : Consistent s) (hstep : s.step a = some s') :
    Consistent s' := by
  cases step_cases hstep with
  | client i a c' o hcl hact =>
    exact h.update h.tied h.onePut hact (answers_of_isClient hcl)
  | range i req c' o hact => exact h.update h.tied h.onePut hact rfl
  | txn i call req c' o hreq hact =>
    have hmem : call ∈ (s.cand i).calls := by
      by_contra hno
      simp [Candidate.act, hno] at hact
    refine h.update (fun j => (h.tied j).commit _) ?_ hact ⟨s.etcd, req, hreq, rfl, rfl⟩
    exact Store.onePut_txn h.onePut (request_singlePut (h.tied i).inv hmem hreq)
  | deliver i wkey wrevision id n canceled compactRevision req c' o _ _ _ hact =>
    exact h.update h.tied h.onePut hact trivial
  | write ops hops =>
    exact ⟨fun i => (h.tied i).commit ops, Store.onePut_commit h.onePut hops, h.election, h.leases⟩

theorem reachable_consistent (h : machine.Reachable Any s) : Consistent s := by
  refine h.invariant ?_ ?_
  · rintro s ⟨name, lease, value, revision, h, hinj, rfl⟩
    exact init_consistent hinj
  · intro s a s' hs _ hstep
    exact step_consistent hs hstep

/-- Mutual exclusion: in every reachable state at most one candidate is elected while
its node is present, and that node is the oldest of the election. -/
theorem mutual_exclusion (h : machine.Reachable Any s) :
    (∀ i j, s.Leads i → s.Leads j → i = j) ∧
    ∀ i, s.Leads i → ∀ kv ∈ s.etcd.kvs, InElection (s.cand i).electionName kv.key →
      kv.key ≠ (s.cand i).key → (s.cand i).creationRevision < kv.createRevision := by
  have hc := reachable_consistent h
  constructor
  · intro i j hi hj
    exact hc.leads_unique hi hj
  · intro i hi kv hkv hel hne
    exact hc.oldest hi hkv hel hne

/-- Two candidates, with the leases 1 and 2. -/
def twoLeases (i : Bool) : UInt64 := if i then 2 else 1

/-- Both campaign, one after the other. -/
def bothCampaign : List (Act Bool) :=
  let c₁ := Candidate.init [] 1 []
  let c₂ := Candidate.init [] 2 []
  campaignActs false c₁ 2 [] ++ campaignActs true c₂ 3
    [{ key := c₁.key, createRevision := 2, modRevision := 2, lease := 1 }]

/-- The first of two candidates leads, and the other does not. -/
theorem mutual_exclusion_two : ∃ s : System Bool, machine.Reachable Any s ∧ s.Leads false ∧
    (s.cand true).campaigned = true ∧ ¬ s.Leads true := by
  rcases reachable_of_exec machine (init [] twoLeases (fun _ => []) 1 le_rfl) bothCampaign
    (fun s => decide (s.Leads false) && (s.cand true).campaigned)
    ⟨_, _, _, _, _, by decide, rfl⟩ (by decide) with ⟨s, hreach, hcheck⟩
  simp only [Bool.and_eq_true, decide_eq_true_eq] at hcheck
  refine ⟨s, hreach, hcheck.1, hcheck.2, fun htrue => ?_⟩
  have := (mutual_exclusion hreach).1 false true hcheck.1 htrue
  cases this

end System

end GeeH.Election
