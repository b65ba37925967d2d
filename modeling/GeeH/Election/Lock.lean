import GeeH.Election.Fencing
import GeeH.TicketLock

/-!
# GeeH.Election.Lock — an election is a ticket lock

The tickets are the create revisions that etcd gives to the nodes of the
election. Who has a node waits; the node of a candidate that reports itself
elected holds. Whatever the candidates, the server and other writers do, the
lock takes legal steps: nodes are drawn and given up, and the lock is granted to
the oldest node, when no candidate holds it.
-/

namespace GeeH.Election

open Etcd Machine Candidate

universe u

namespace System

variable {ι : Type u} {s t : System ι} {i j : ι} {name : Bytes}

/-- The lock that an election is. -/
def lock (name : Bytes) (s : System ι) : TicketLock Int Bytes where
  waiting := {x | s.etcd.HasNode x.2 x.1 ∧ InElection name x.2}
  held := {x | ∃ i, s.Leads i ∧ x = ((s.cand i).creationRevision, (s.cand i).key)}
  drawn := s.etcd.revision

/-- All candidates take part in the election of that name. -/
def OfElection (name : Bytes) (s : System ι) : Prop := ∀ i, (s.cand i).electionName = name

/-! ## Writes -/

/-- A commit brings no node that a candidate already leads with. -/
theorem leads_commit {ops : List RequestOp} (h : Consistent s) (i : ι) :
    Leads { s with etcd := s.etcd.commit ops } i ↔
      s.Leads i ∧ (s.etcd.commit ops).HasNode (s.cand i).key (s.cand i).creationRevision := by
  constructor
  · rintro ⟨hel, hnode⟩
    refine ⟨⟨hel, ?_⟩, hnode⟩
    rcases Store.hasNode_of_commit hnode with hold | hnew
    · exact hold
    · have hissued := (h.tied i).created (campaigned_of_elected h hel)
      have hlate : (s.cand i).creationRevision = s.etcd.revision + 1 := hnew
      exact absurd hissued.2 (by omega)
  · rintro ⟨⟨hel, _⟩, hnode⟩
    exact ⟨hel, hnode⟩

/-- A commit takes nodes away, and then creates one or none. -/
theorem lock_commit {ops : List RequestOp} (h : Consistent s)
    (hput : OnePut (s.etcd.commit ops).log) :
    (TicketLock.machine Int Bytes).Run Any (s.lock name)
      (lock name { s with etcd := s.etcd.commit ops }) := by
  let e' := s.etcd.commit ops
  let gone : Set (Int × Bytes) := {x | ¬ e'.HasNode x.2 x.1}
  let l : TicketLock Int Bytes := { s.lock name with
    waiting := (s.lock name).waiting \ gone
    held := (s.lock name).held \ gone }
  have hleave : (TicketLock.machine Int Bytes).Run Any (s.lock name) l := TicketLock.run_leave gone
  have hheld : (lock name { s with etcd := e' }).held = l.held := by
    ext x
    constructor
    · rintro ⟨i, hleads, rfl⟩
      rcases (leads_commit h i).mp hleads with ⟨hold, hnode⟩
      exact ⟨⟨i, hold, rfl⟩, not_not_intro hnode⟩
    · rintro ⟨⟨i, hold, rfl⟩, hnode⟩
      exact ⟨i, (leads_commit h i).mpr ⟨hold, not_not.mp hnode⟩, rfl⟩
  by_cases hnew : ∃ k, e'.HasNode k (s.etcd.revision + 1) ∧ InElection name k
  · rcases hnew with ⟨k, hnode, hk⟩
    have hrev : e'.revision = s.etcd.revision + 1 := by
      have hle : s.etcd.revision + 1 ≤ e'.revision := hnode.bounded.2
      rcases s.etcd.commit_revision ops with ⟨heq, _⟩ | ⟨heq, _⟩
      · have hsame : e'.revision = s.etcd.revision := heq
        omega
      · exact heq
    have hdraw : lock name { s with etcd := e' } = { l with
        waiting := insert (s.etcd.revision + 1, k) l.waiting
        drawn := s.etcd.revision + 1 } := by
      refine TicketLock.ext ?_ hheld hrev
      ext x
      constructor
      · rintro ⟨hx, hxk⟩
        rcases Store.hasNode_of_commit hx with hold | hold
        · exact .inr ⟨⟨hold, hxk⟩, not_not_intro hx⟩
        · -- one put for each revision: it is the same node
          have hx' : e'.HasNode x.2 (s.etcd.revision + 1) := hold ▸ hx
          exact .inl (Prod.ext hold (Store.create_determines_key hput hx' hnode))
      · rintro (rfl | ⟨⟨_, hxk⟩, hx⟩)
        · exact ⟨hnode, hk⟩
        · exact ⟨not_not.mp hx, hxk⟩
    rw [hdraw]
    exact hleave.trans (TicketLock.run_draw (show l.drawn < s.etcd.revision + 1 from Int.lt_succ _))
  · have hpass : lock name { s with etcd := e' } = { l with drawn := e'.revision } := by
      refine TicketLock.ext ?_ hheld rfl
      ext x
      constructor
      · rintro ⟨hx, hxk⟩
        rcases Store.hasNode_of_commit hx with hold | hold
        · exact ⟨⟨hold, hxk⟩, not_not_intro hx⟩
        · exact absurd ⟨x.2, hold ▸ hx, hxk⟩ hnew
      · rintro ⟨⟨_, hxk⟩, hx⟩
        exact ⟨not_not.mp hx, hxk⟩
    rw [hpass]
    exact hleave.trans (TicketLock.run_pass (s.etcd.le_commit_revision ops))

/-! ## Steps of the candidates -/

variable [DecidableEq ι]

/-- A step of one candidate alone: the lock is granted to it, or released, or stays as it is. -/
theorem lock_candidate {a : Act ι} (hs : machine.Reachable Any s) (hname : OfElection name s)
    (hstep : s.step a = some t) (hetcd : t.etcd = s.etcd)
    (hothers : ∀ j, j ≠ i → t.cand j = s.cand j) :
    (TicketLock.machine Int Bytes).Run Any (s.lock name) (t.lock name) := by
  have hrun : machine.Run Any s t := .single a trivial hstep
  have hc := reachable_consistent hs
  have hc' := reachable_consistent (hs.run hrun)
  have hleads : ∀ j, j ≠ i → (t.Leads j ↔ s.Leads j) := by
    intro j hj
    unfold Leads
    rw [hothers j hj, hetcd]
  have hwaiting : (t.lock name).waiting = (s.lock name).waiting := by
    simp only [lock, hetcd]
  have hdrawn : (t.lock name).drawn = (s.lock name).drawn := congrArg Store.revision hetcd
  by_cases hi : s.Leads i
  · by_cases hi' : t.Leads i
    · -- it has led before, with the same node
      have hsame : t.lock name = s.lock name := by
        refine TicketLock.ext hwaiting ?_ hdrawn
        ext x
        constructor
        · rintro ⟨j, hj, rfl⟩
          obtain rfl : j = i := hc'.leads_unique hj hi'
          exact ⟨j, hi, by rw [revision_kept hs hrun hi.1 hi'.1, run_key hrun]⟩
        · rintro ⟨j, hj, rfl⟩
          obtain rfl : j = i := hc.leads_unique hj hi
          exact ⟨j, hi', by rw [revision_kept hs hrun hi.1 hi'.1, run_key hrun]⟩
      rw [hsame]
      exact .refl _
    · -- it has resigned
      have hrelease : t.lock name = { s.lock name with
          held := (s.lock name).held \ {((s.cand i).creationRevision, (s.cand i).key)} } := by
        refine TicketLock.ext hwaiting ?_ hdrawn
        ext x
        constructor
        · rintro ⟨j, hj, rfl⟩
          have hne : j ≠ i := fun heq => hi' (heq ▸ hj)
          exact absurd (hc.leads_unique ((hleads j hne).mp hj) hi) hne
        · rintro ⟨⟨j, hj, rfl⟩, hne⟩
          obtain rfl : j = i := hc.leads_unique hj hi
          exact absurd rfl hne
      rw [hrelease]
      exact TicketLock.run_release _
  · by_cases hi' : t.Leads i
    · -- it is elected
      have hgrant : t.lock name = { s.lock name with
          held := {((t.cand i).creationRevision, (t.cand i).key)} } := by
        refine TicketLock.ext hwaiting ?_ hdrawn
        ext x
        constructor
        · rintro ⟨j, hj, rfl⟩
          obtain rfl : j = i := hc'.leads_unique hj hi'
          rfl
        · rintro rfl
          exact ⟨i, hi', rfl⟩
      rw [hgrant]
      refine TicketLock.run_grant ?_ ?_ ?_
      · rw [← hwaiting]
        refine ⟨hi'.2, ?_⟩
        rw [← hname i, ← (run_identity hrun i).2]
        exact key_inElection (t.cand i)
      · rintro ⟨r, k⟩ ⟨⟨kv, hkv, hk, hr⟩, hin⟩
        have hold := (hc'.tied i).elected hi'.1 kv (hetcd ▸ hkv)
        rw [(run_identity hrun i).2, hname i, hk, hr] at hold
        exact hold hin
      · rw [Set.eq_empty_iff_forall_notMem]
        rintro x ⟨j, hj, _⟩
        have hne : j ≠ i := fun heq => hi (heq ▸ hj)
        exact hne (hc'.leads_unique ((hleads j hne).mpr hj) hi')
    · have hsame : t.lock name = s.lock name := by
        refine TicketLock.ext hwaiting ?_ hdrawn
        ext x
        constructor
        · rintro ⟨j, hj, rfl⟩
          have hne : j ≠ i := fun heq => hi' (heq ▸ hj)
          exact ⟨j, (hleads j hne).mp hj, by rw [hothers j hne]⟩
        · rintro ⟨j, hj, rfl⟩
          have hne : j ≠ i := fun heq => hi (heq ▸ hj)
          exact ⟨j, (hleads j hne).mpr hj, by rw [hothers j hne]⟩
      rw [hsame]
      exact .refl _

/-- What a step does is a run of the lock. -/
theorem lock_step {a : Act ι} (hs : machine.Reachable Any s) (hname : OfElection name s)
    (hstep : s.step a = some t) :
    (TicketLock.machine Int Bytes).Run Any (s.lock name) (t.lock name) := by
  have hothers : ∀ (i : ι) (c : Candidate) j, j ≠ i → Function.update s.cand i c j = s.cand j :=
    fun i c j hj => Function.update_of_ne hj c s.cand
  have hc' := reachable_consistent (hs.run (.single a trivial hstep))
  cases step_cases hstep with
  | client i a c' o hcl hact => exact lock_candidate hs hname hstep rfl (hothers i c')
  | range i req c' o hact => exact lock_candidate hs hname hstep rfl (hothers i c')
  | txn i call req c' o hreq hact =>
    have hcommit : (TicketLock.machine Int Bytes).Run Any (s.lock name)
        (lock name { s with etcd := s.etcd.txn req }) :=
      lock_commit (reachable_consistent hs) hc'.onePut
    -- the answer is filled in, which does not change what the candidate reports
    have hsame : lock name { s with
        etcd := s.etcd.txn req, cand := Function.update s.cand i c' } =
        lock name { s with etcd := s.etcd.txn req } := by
      have hview : c'.elected = (s.cand i).elected ∧
          c'.creationRevision = (s.cand i).creationRevision ∧ c'.key = (s.cand i).key := by
        simp only [act] at hact
        split at hact
        · rcases Option.map_eq_some_iff.mp hact with ⟨call', _, ⟨⟩⟩
          exact ⟨rfl, rfl, rfl⟩
        · cases hact
      have hcand : ∀ j, (Function.update s.cand i c' j).elected = (s.cand j).elected ∧
          (Function.update s.cand i c' j).creationRevision = (s.cand j).creationRevision ∧
          (Function.update s.cand i c' j).key = (s.cand j).key := by
        intro j
        by_cases hj : j = i
        · subst hj
          rw [Function.update_self]
          exact hview
        · rw [hothers i c' j hj]
          exact ⟨rfl, rfl, rfl⟩
      simp only [lock, Leads, hcand]
    rw [hsame]
    exact hcommit
  | deliver i wkey wrevision id n canceled compactRevision req c' o hreq hlive hn hact =>
    exact lock_candidate hs hname hstep rfl (hothers i c')
  | write ops hops => exact lock_commit (reachable_consistent hs) hc'.onePut

theorem OfElection.run (hname : OfElection name s) (hrun : machine.Run Any s t) :
    OfElection name t :=
  fun i => (run_identity hrun i).2.trans (hname i)

theorem lock_run (hs : machine.Reachable Any s) (hname : OfElection name s)
    (hrun : machine.Run Any s t) :
    (TicketLock.machine Int Bytes).Run Any (s.lock name) (t.lock name) := by
  induction hrun with
  | refl => exact .refl _
  | tail a hrun _ hstep ih => exact ih.trans (lock_step (hs.run hrun) (hname.run hrun) hstep)

theorem lock_reachable (hs : machine.Reachable Any s) (hname : OfElection name s) :
    (TicketLock.machine Int Bytes).Reachable Any (s.lock name) := by
  rcases hs with ⟨s₀, hinit, hrun⟩
  have hname₀ : OfElection name s₀ := fun i => (run_identity hrun i).2.symm.trans (hname i)
  refine ⟨s₀.lock name, ?_, lock_run ⟨s₀, hinit, .refl s₀⟩ hname₀ hrun⟩
  rcases hinit with ⟨_, lease, value, revision, h, _, rfl⟩
  have hnone : ∀ k r, ¬ (Store.empty revision h).HasNode k r := by
    rintro k r ⟨kv, hkv, _⟩
    cases hkv
  constructor
  · rw [Set.eq_empty_iff_forall_notMem]
    rintro x ⟨hx, _⟩
    exact hnone _ _ hx
  · rw [Set.eq_empty_iff_forall_notMem]
    rintro x ⟨i, hleads, _⟩
    exact hnone _ _ hleads.2

/-! ## The refinement -/

/-- An election is a ticket lock: every state that its candidates, the server and other writers can
reach is a reachable state of the lock, and what they do from there is a run of the lock. -/
theorem refines_lock (hs : machine.Reachable Any s) (hname : OfElection name s) :
    (TicketLock.machine Int Bytes).Reachable Any (s.lock name) ∧
    ∀ t, machine.Run Any s t →
      (TicketLock.machine Int Bytes).Run Any (s.lock name) (t.lock name) :=
  ⟨lock_reachable hs hname, fun _ hrun => lock_run hs hname hrun⟩

/-- The lock passes from the first candidate to the second. -/
theorem refines_lock_two : ∃ s t : System Bool, machine.Reachable Any s ∧
    (2, (s.cand false).key) ∈ (s.lock []).held ∧ (3, (t.cand true).key) ∈ (t.lock []).held ∧
    (TicketLock.machine Int Bytes).Run Any (s.lock []) (t.lock []) := by
  rcases run_of_execIf_execIf machine (fun _ _ => true)
    (init [] twoLeases (fun _ => []) 1 le_rfl) bothCampaign secondSucceeds
    (fun s t => decide (s.Leads false ∧ (s.cand false).creationRevision = 2) &&
      decide (t.Leads true ∧ (t.cand true).creationRevision = 3) &&
      decide (∀ i, (s.cand i).electionName = []))
    (fun _ _ _ => trivial) ⟨_, _, _, _, _, by decide, rfl⟩ (by decide) with ⟨s, t, hs, hrun, hcheck⟩
  simp only [Bool.and_eq_true, decide_eq_true_eq] at hcheck
  rcases hcheck with ⟨⟨⟨hfirst, hrev⟩, hsecond, hrev'⟩, hname⟩
  exact ⟨s, t, hs, ⟨false, hfirst, by rw [hrev]⟩, ⟨true, hsecond, by rw [hrev']⟩,
    (refines_lock hs hname).2 t hrun⟩

/-- First come, first served: when a candidate leads with a node that was created later, the node
that was there before is gone. -/
theorem no_overtaking (hs : machine.Reachable Any s) (hname : OfElection name s)
    (hrun : machine.Run Any s t) {k : Bytes} {r : Int} (hnode : s.etcd.HasNode k r)
    (hk : InElection name k) (hj : t.Leads j)
    (hlater : ¬ s.etcd.HasNode (t.cand j).key (t.cand j).creationRevision) :
    ¬ t.etcd.HasNode k r := by
  intro hstays
  have hwaits : (r, k) ∈ (s.lock name).waiting := ⟨hnode, hk⟩
  have hlate : ((t.cand j).creationRevision, (t.cand j).key) ∉ (s.lock name).waiting :=
    fun h => hlater h.1
  exact TicketLock.not_overtaken (lock_reachable hs hname) (lock_run hs hname hrun) hwaits hlate
    ⟨j, hj, rfl⟩ ⟨hstays, hk⟩

/-- The second candidate comes when the first has its node, and leads when that is gone. -/
theorem no_overtaking_two : ∃ s t : System Bool, machine.Reachable Any s ∧ machine.Run Any s t ∧
    s.etcd.HasNode (s.cand false).key 2 ∧ t.Leads true ∧ ¬ t.etcd.HasNode (s.cand false).key 2 := by
  rcases run_of_execIf_execIf machine (fun _ _ => true)
    (init [] twoLeases (fun _ => []) 1 le_rfl) (bothCampaign.take 6)
    (bothCampaign.drop 6 ++ secondSucceeds)
    (fun s t => decide (s.etcd.HasNode (s.cand false).key 2 ∧ InElection [] (s.cand false).key) &&
      decide (t.Leads true) &&
      decide (¬ s.etcd.HasNode (t.cand true).key (t.cand true).creationRevision) &&
      decide (∀ i, (s.cand i).electionName = []))
    (fun _ _ _ => trivial) ⟨_, _, _, _, _, by decide, rfl⟩ (by decide) with ⟨s, t, hs, hrun, hcheck⟩
  simp only [Bool.and_eq_true, decide_eq_true_eq] at hcheck
  rcases hcheck with ⟨⟨⟨⟨hnode, hin⟩, hleads⟩, hlater⟩, hname⟩
  exact ⟨s, t, hs, hrun, hnode, hleads, no_overtaking hs hname hrun hnode hin hleads hlater⟩

end System

end GeeH.Election
