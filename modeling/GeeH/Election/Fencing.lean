import GeeH.Election.Published

/-!
# GeeH.Election.Fencing — leadership passes in the order of the nodes

The create revision of a candidate's node is what fences a former leader off:
whoever leads after it has a larger one. So the elections of one name have an
order, the one in which the candidates created their nodes, and a leader that
has been succeeded does not lead again.
-/

namespace GeeH.Election

open Etcd Machine Candidate

universe u

namespace System

variable {ι : Type u} {s t : System ι} {i j : ι}

/-- A candidate that reports itself elected has returned from `campaign()`. -/
theorem campaigned_of_elected (h : Consistent s) (hel : (s.cand i).elected = true) :
    (s.cand i).campaigned = true := by
  cases hcamp : (s.cand i).campaigned with
  | true => rfl
  | false => exact absurd (hel.symm.trans ((h.tied i).inv.idle hcamp).2.1) (by simp)

variable [DecidableEq ι]

/-- The store only grows. -/
theorem step_extends {a : Act ι} (hstep : s.step a = some t) : s.etcd.Extends t.etcd := by
  cases step_cases hstep with
  | txn j call req c' o hreq hact => exact Store.Extends.commit _ _
  | write ops hops => exact Store.Extends.commit _ _
  | client => exact Store.Extends.refl _
  | range => exact Store.Extends.refl _
  | deliver => exact Store.Extends.refl _

theorem run_extends {allowed : System ι → Act ι → Prop} (hrun : machine.Run allowed s t) :
    s.etcd.Extends t.etcd := by
  induction hrun with
  | refl => exact Store.Extends.refl _
  | tail a _ _ hstep ih => exact ih.trans (step_extends hstep)

theorem run_identity {allowed : System ι → Act ι → Prop} (hrun : machine.Run allowed s t) (i : ι) :
    (t.cand i).leaseId = (s.cand i).leaseId ∧
      (t.cand i).electionName = (s.cand i).electionName := by
  induction hrun with
  | refl => exact ⟨rfl, rfl⟩
  | tail a _ _ hstep ih =>
    rcases cand_step hstep i with heq | ⟨b, o, hact, _⟩
    · rw [heq]
      exact ih
    · rcases act_identity hact with ⟨hlease, hname⟩
      exact ⟨hlease.trans ih.1, hname.trans ih.2⟩

theorem run_key {allowed : System ι → Act ι → Prop} (hrun : machine.Run allowed s t) (i : ι) :
    (t.cand i).key = (s.cand i).key := by
  rcases run_identity hrun i with ⟨hlease, hname⟩
  rw [key, key, hlease, hname]

/-- Once elected, a candidate keeps its create revision for as long as it is. -/
theorem revision_kept (hs : machine.Reachable Any s) (hrun : machine.Run Any s t)
    (hi : (s.cand i).elected = true) (hi' : (t.cand i).elected = true) :
    (t.cand i).creationRevision = (s.cand i).creationRevision := by
  have hc := reachable_consistent hs
  have hc' := reachable_consistent (hs.run hrun)
  have hlearned : Learned (s.cand i).creationRevision (t.cand i) :=
    learned_run hs hrun (.campaigned (campaigned_of_elected hc hi) rfl)
  exact hlearned.known (hc'.tied i).inv (campaigned_of_elected hc' hi')

/-- A leader has an older node than any other that leads later. -/
theorem revision_lt (hs : machine.Reachable Any s) (hrun : machine.Run Any s t) (hij : i ≠ j)
    (hi : s.Leads i) (hj : t.Leads j) :
    (s.cand i).creationRevision < (t.cand j).creationRevision := by
  have hc := reachable_consistent hs
  have hext := run_extends hrun
  rcases hext.hasNode hj.2 with hold | hnew
  -- the node of the later leader is there already: it is not the oldest
  · rw [run_key hrun j] at hold
    rcases hold with ⟨kv, hkv, hkey, hr⟩
    rw [← hr]
    refine hc.oldest hi hkv ?_ ?_
    · rw [hkey, hc.election i j]
      exact key_inElection _
    · rw [hkey]
      exact fun heq => hij (hc.key_inj heq).symm
  -- or it is created after the one of the earlier leader
  · exact lt_of_le_of_lt hi.2.bounded.2 hnew

/-- Leadership passes in the order in which the nodes were created: along every run the create
revisions of the leaders do not decrease, they stay the same only while the leader does, and a
leader that was succeeded never leads again. -/
theorem leaders_in_order (hs : machine.Reachable Any s) (hrun : machine.Run Any s t)
    (hi : s.Leads i) (hj : t.Leads j) :
    (s.cand i).creationRevision ≤ (t.cand j).creationRevision ∧
    ((s.cand i).creationRevision = (t.cand j).creationRevision ↔ i = j) ∧
    (i ≠ j → ∀ u, machine.Run Any t u → ¬ u.Leads i) := by
  by_cases hij : i = j
  · subst hij
    have hkept := revision_kept hs hrun hi.1 hj.1
    exact ⟨le_of_eq hkept.symm, iff_of_true hkept.symm rfl, fun hne => absurd rfl hne⟩
  · have hlt := revision_lt hs hrun hij hi hj
    refine ⟨le_of_lt hlt, iff_of_false (ne_of_lt hlt) hij, ?_⟩
    intro _ u hrun' hu
    -- it would still have its first create revision
    have hback := revision_lt (hs.run hrun) hrun' (Ne.symm hij) hj hu
    have hkept := revision_kept hs (hrun.trans hrun') hi.1 hu.1
    omega

/-- The first of two candidates loses its node, and the second is told. -/
def secondSucceeds : List (Act Bool) :=
  let c₁ := Candidate.init [] 1 []
  let query := predecessorRequest { Candidate.init [] 2 [] with creationRevision := 3 }
  [.client true (.complete (.watchCreate c₁.key 3 true)), .write [.deleteRange c₁.key],
    .deliver true c₁.key 3 0 1 false 0, .serveRange true query,
    .client true (.complete (.rangeRequest query (some { revision := 4 }) true {}))]

/-- The second of two candidates leads after the first, with a larger create revision. -/
theorem leaders_in_order_two : ∃ s t : System Bool, machine.Reachable Any s ∧ s.Leads false ∧
    t.Leads true ∧ (s.cand false).creationRevision < (t.cand true).creationRevision ∧
    ∀ u, machine.Run Any t u → ¬ u.Leads false := by
  rcases run_of_execIf_execIf machine (fun _ _ => true)
    (init [] twoLeases (fun _ => []) 1 le_rfl) bothCampaign secondSucceeds
    (fun s t => decide (s.Leads false) && decide (t.Leads true)) (fun _ _ _ => trivial)
    ⟨_, _, _, _, _, by decide, rfl⟩ (by decide) with ⟨s, t, hs, hrun, hcheck⟩
  simp only [Bool.and_eq_true, decide_eq_true_eq] at hcheck
  rcases leaders_in_order hs hrun hcheck.1 hcheck.2 with ⟨hle, hiff, hnever⟩
  refine ⟨s, t, hs, hcheck.1, hcheck.2, lt_of_le_of_ne hle ?_, hnever (by decide)⟩
  intro heq
  cases hiff.mp heq

end System

end GeeH.Election
