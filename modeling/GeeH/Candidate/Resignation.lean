import GeeH.Candidate.Invariants

/-!
# GeeH.Candidate.Resignation — what `resign()` leaves running

`resign()` waits for its cancel writes and for the reads, and not for the
operations counted in `ops_`. When it returns, `reads_` is shut down, so no
handler ever starts a query again; what is left to decide is whether a query
that is still out can elect the candidate (`Exposed`). If none can, the
candidate is dead for good (`Dead`); if one can, a run that elects it exists.
-/

namespace GeeH.Candidate

open Etcd Machine

variable {c c' : Candidate} {a : Act} {o : Outcome}

/-- An operation whose completion can elect: a query that the server has not answered
yet, or has answered with no node. -/
def Op.CanElect : Op → Prop
  | .queryPredecessor _ none => True
  | .queryPredecessor _ (some resp) => resp.kvs = []
  | _ => False

instance : DecidablePred Op.CanElect
  | .queryPredecessor _ none => inferInstanceAs (Decidable True)
  | .queryPredecessor _ (some resp) => inferInstanceAs (Decidable (resp.kvs = []))
  | .watchCreate _ _ => inferInstanceAs (Decidable False)
  | .watchRead _ _ => inferInstanceAs (Decidable False)

/-- No key is watched, and a query that can elect is out. -/
def Exposed (c : Candidate) : Prop := c.watchedKeys = ∅ ∧ ∃ op ∈ c.pending, op.CanElect

instance (c : Candidate) : Decidable c.Exposed :=
  have : Decidable (∃ op ∈ c.pending, op.CanElect) := Multiset.decidableExistsMultiset
  inferInstanceAs (Decidable (c.watchedKeys = ∅ ∧ ∃ op ∈ c.pending, op.CanElect))

theorem Op.CanElect.isQuery {op : Op} (h : op.CanElect) : op.isQuery = true := by
  cases op with
  | queryPredecessor req resp => rfl
  | watchCreate k rev => cases h
  | watchRead k rev => cases h

/-- A state from which the candidate is never elected. -/
structure Dead (c : Candidate) : Prop where
  inv : Inv c
  campaigned : c.campaigned = true
  elected : c.elected = false
  shutdown : c.reads.shutdown = true
  drained : reading c.pending = 0
  safe : ¬ c.Exposed

/-! ## A dead candidate stays dead -/

theorem Dead.of_quiet (h : Dead c) (hq : Quiet c c') : Dead c' where
  inv := hq.inv h.inv
  campaigned := (congrArg CampaignView.campaigned hq.view).trans h.campaigned
  elected := (congrArg CampaignView.elected hq.view).trans h.elected
  shutdown := hq.shutdown h.shutdown
  drained := (congrArg (reading ·.pending) hq.view).trans h.drained
  safe := by
    have hpend : c'.pending = c.pending := congrArg CampaignView.pending hq.view
    have hw : c'.watchedKeys = c.watchedKeys := congrArg CampaignView.watchedKeys hq.view
    unfold Exposed
    rw [hpend, hw]
    exact h.safe

/-- The keys that are watched only grow in `on_range_request()`, and it posts no query. -/
theorem createWatches_query {rev : Int} {kvs : List KeyValue} {op : Op}
    (hop : op ∈ (createWatches rev c kvs).1.pending) (hq : op.isQuery = true) :
    op ∈ c.pending := by
  induction kvs generalizing c with
  | nil => exact hop
  | cons kv kvs ih =>
    unfold createWatches at hop
    split at hop
    · exact hop
    · rcases Multiset.mem_cons.mp (ih hop) with rfl | hop
      · cases hq
      · exact hop

/-- A handler that runs on a dead candidate does not expose it again. -/
theorem Dead.body_safe {k : Completion} (h : Dead c) (hmem : k.op ∈ c.pending)
    (hwf : k.WellFormed) : ¬ (c.handle k).1.Exposed := by
  cases k with
  | rangeRequest req resp ok status =>
    rcases onRangeRequest_cases ((c.enter (.rangeRequest req resp ok status)).asyncOpDone
      (.rangeRequest req resp ok status)) ok status (resp.getD {}) with
      ⟨_, heq⟩ | ⟨_, _, heq⟩ | ⟨_, _, _, heq⟩ | ⟨_, _, hne, heq⟩
    all_goals
      rintro ⟨hw, op, hop, hcan⟩
      simp only [handle, body, heq] at hw hop
    · simp only [electionResult, asyncOpDone_watchedKeys, asyncOpDone_pending] at hw hop
      exact h.safe ⟨hw, op, Multiset.mem_of_mem_erase hop, hcan⟩
    · simp only [asyncOpDone_watchedKeys, asyncOpDone_pending] at hw hop
      exact h.safe ⟨hw, op, Multiset.mem_of_mem_erase hop, hcan⟩
    · unfold checkElectionOverMaybe at hw hop
      split at hw
      · rename_i hne
        exact hne hw
      · rename_i hempty
        rw [if_neg hempty] at hop
        simp only [electionResult, asyncOpDone_watchedKeys, asyncOpDone_pending] at hw hop
        exact h.safe ⟨hw, op, Multiset.mem_of_mem_erase hop, hcan⟩
    -- the answer names a key: it is watched now, unless the loop gave up at once
    · have hold := createWatches_query hop hcan.isQuery
      have hsub := createWatches_watchedKeys (resp.getD {}).revision
        ((c.enter (.rangeRequest req resp ok status)).asyncOpDone
          (.rangeRequest req resp ok status)) (resp.getD {}).kvs
      rw [hw, asyncOpDone_watchedKeys] at hsub
      rw [asyncOpDone_pending] at hold
      exact h.safe ⟨Finset.subset_empty.mp hsub, op, Multiset.mem_of_mem_erase hold, hcan⟩
  | watchCreate wkey wrevision ok =>
    rintro ⟨hw, op, hop, hcan⟩
    refine h.safe ⟨?_, op, ?_, hcan⟩
    · simp only [handle, body, onWatchCreate] at hw
      split at hw
      · exact hw
      · split at hw <;> exact hw
    · have hsh : ((c.enter (.watchCreate wkey wrevision ok)).asyncOpDone
          (.watchCreate wkey wrevision ok)).reads.shutdown = true := h.shutdown
      simp only [handle, body, onWatchCreate, hsh, if_true, ite_self] at hop
      rw [asyncOpDone_pending] at hop
      exact Multiset.mem_of_mem_erase hop
  | watchRead wkey wrevision ok resp =>
    have hno := reading_eq_zero.mp h.drained _ hmem
    cases hno

theorem Dead.of_handle {k : Completion} (h : Dead c) (hmem : k.op ∈ c.pending)
    (hwf : k.WellFormed) : Dead (c.handle k).1 := by
  have hview := callView_handle c k
  have hsh : (c.handle k).1.reads.shutdown = c.reads.shutdown :=
    congrArg CallView.readsShutdown hview
  rcases posts_handle h.inv hmem with ⟨extra, hpend, _, _, hdrain⟩
  refine ⟨inv_handle h.inv hmem, ?_, ?_, hsh.trans h.shutdown, ?_, h.body_safe hmem hwf⟩
  · exact (congrArg CallView.campaigned hview).trans h.campaigned
  -- only an empty answer elects, and only while no key is watched
  · cases hel : (c.handle k).1.elected with
    | false => rfl
    | true =>
      rcases handle_elected hel with hold | ⟨hempty, hw⟩
      · rw [h.elected] at hold
        cases hold
      · refine absurd ⟨hw, k.op, hmem, ?_⟩ h.safe
        cases k with
        | rangeRequest req resp ok status =>
          rcases hempty with ⟨hok, hst, hkvs⟩
          rcases Option.isSome_iff_exists.mp (hwf hok hst) with ⟨resp', rfl⟩
          exact hkvs
        | watchCreate wkey wrevision ok => cases hempty
        | watchRead wkey wrevision ok resp => cases hempty
  · have hle : reading (c.pending.erase k.op) ≤ reading c.pending :=
      Pool.countP_erase_le (fun op : Op => op.isRead)
    have hd := h.drained
    rw [hpend, reading_add, hdrain h.shutdown]
    omega

theorem Dead.step (h : Dead c) (hstep : c.act a = some (c', o)) : Dead c' := by
  have hinv := step_inv hstep h.inv
  cases act_cases hstep with
  | quiet _ hq => exact h.of_quiet hq
  | answeredTxn call call' resp hmem hans heq =>
    subst heq
    exact ⟨hinv, h.campaigned, h.elected, h.shutdown, h.drained, h.safe⟩
  | created req resp ok status hmem heq =>
    -- no frame of `campaign()` is left
    have hno := (h.inv.campaign_frame hmem rfl).1
    rw [h.campaigned] at hno
    cases hno
  | republished req resp ok status hmem _ heq =>
    have hno := (h.inv.campaign_frame hmem rfl).1
    rw [h.campaigned] at hno
    cases hno
  | finished hmem heq =>
    subst heq
    exact ⟨hinv, h.campaigned, rfl, h.shutdown, h.drained, h.safe⟩
  | answeredRange req resp hmem heq =>
    subst heq
    refine ⟨hinv, h.campaigned, h.elected, h.shutdown, ?_, ?_⟩
    · have hd := h.drained
      rw [← h.inv.reads.symm.trans hinv.reads |> Int.ofNat.inj]
      exact hd
    -- an unanswered query can elect, so some key is watched
    · rintro ⟨hw, -⟩
      exact h.safe ⟨hw, _, hmem, trivial⟩
  | completed k hmem hwf heq =>
    rw [heq]
    exact h.of_handle hmem hwf

theorem Dead.run (h : Dead c) (hrun : machine.Run Any c c') : Dead c' := by
  refine hrun.invariant ?_ h
  intro s a s' hs _ hstep
  rcases machine_step hstep with ⟨o, hact⟩
  exact hs.step hact

/-! ## An exposed candidate can still be elected -/

/-- The steps with which `resign()` returns: at once, without a watch stream, or when
`Finish` completes. -/
def Act.EndsResign : Act → Prop
  | .resign => True
  | .finished _ => True
  | _ => False

end GeeH.Candidate
