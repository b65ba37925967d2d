import GeeH.Election.Fencing
import GeeH.Observer.Discovery
import GeeH.Observer.Refinement

/-!
# GeeH.Election.Audience — an election and those who watch it

The candidates of an election, any number of observers of it, and the etcd that
they share. `GeeH.Election.System` and `GeeH.Observer.Observed` are two views of
it: for the candidates, the observers do nothing; for an observer, the Txns of
the candidates are writes like all others. What is known of either holds here,
and the two together say what an observer reports of a candidate.
-/

namespace GeeH.Election

open Etcd Machine Observer

universe u v

/-- The candidates with their etcd, the observers, and what the server keeps of their watches. -/
structure Audience (ι : Type u) (κ : Type v) where
  system : System ι
  obs : κ → Observer
  watch : κ → Nat → WatchState

namespace Audience

/-- What can happen: a step of the election, or one of an observer with its watch. -/
inductive Act (ι : Type u) (κ : Type v) where
  | election (a : Election.Act ι)
  | observer (k : κ) (a : Observed.Act)

variable {ι : Type u} {κ : Type v}

/-- What one of the observers has to do with. -/
def observed (s : Audience ι κ) (k : κ) : Observed where
  etcd := s.system.etcd
  obs := s.obs k
  watch := s.watch k

/-- Writes are steps of the election. -/
def isWrite : Observed.Act → Bool
  | .write _ => true
  | _ => false

variable [DecidableEq ι] [DecidableEq κ]

/-- One step. -/
def step (s : Audience ι κ) : Act ι κ → Option (Audience ι κ)
  | .election a => (s.system.step a).map fun system => { s with system := system }
  | .observer k a =>
    if isWrite a then none
    else ((s.observed k).step a).map fun r =>
      { s with
        obs := Function.update s.obs k r.obs
        watch := Function.update s.watch k r.watch }

/-- Fresh candidates and fresh observers of one election. -/
def init (name : Bytes) (lease : ι → UInt64) (value : ι → Bytes) (revision : Int)
    (h : 1 ≤ revision) : Audience ι κ where
  system := .init name lease value revision h
  obs _ := .init name
  watch _ _ := {}

/-- The machine of an election with its audience. -/
def machine : Machine (Audience ι κ) (Act ι κ) where
  Init s := ∃ name lease value revision h, Function.Injective lease ∧
    s = init name lease value revision h
  step := step

/-- What one step can be. -/
inductive Step (s : Audience ι κ) : Act ι κ → Audience ι κ → Prop where
  | election (a : Election.Act ι) (system : System ι) (h : s.system.step a = some system) :
      Step s (.election a) { s with system := system }
  | observer (k : κ) (a : Observed.Act) (r : Observed) (hwrite : isWrite a = false)
      (h : (s.observed k).step a = some r) :
      Step s (.observer k a)
        { s with
          obs := Function.update s.obs k r.obs
          watch := Function.update s.watch k r.watch }

theorem step_cases {s s' : Audience ι κ} {a : Act ι κ} (h : s.step a = some s') : Step s a s' := by
  cases a with
  | election a =>
    rcases Option.map_eq_some_iff.mp h with ⟨system, hstep, rfl⟩
    exact .election a system hstep
  | observer k a =>
    simp only [step] at h
    split at h
    · cases h
    · rename_i hwrite
      rcases Option.map_eq_some_iff.mp h with ⟨r, hstep, rfl⟩
      exact .observer k a r (by simpa using hwrite) hstep

/-- The observers are not disturbed: each is started once, its Range succeeds, and its watch is not
canceled. The candidates do what they want. -/
def Undisturbed (s : Audience ι κ) : Act ι κ → Prop
  | .election _ => True
  | .observer k a => (s.observed k).Undisturbed a

instance (s : Audience ι κ) : DecidablePred s.Undisturbed
  | .election _ => inferInstanceAs (Decidable True)
  | .observer k a => inferInstanceAs (Decidable ((s.observed k).Undisturbed a))

end Audience

/-! ## The two views -/

/-- Only a write moves the store of an observer. -/
theorem observed_etcd {s s' : Observed} {a : Observed.Act} (ha : Audience.isWrite a = false)
    (h : s.step a = some s') : s'.etcd = s.etcd := by
  cases Observed.step_cases h with
  | write => cases ha
  | client => rfl
  | range => rfl
  | deliver => rfl

/-- An observer keeps the name of its election. -/
theorem observer_name {c c' : Observer} {a : Observer.Act} {o : Outcome}
    (h : c.act a = some (c', o)) : c'.electionName = c.electionName := by
  cases act_cases h with
  | quiet _ hq => exact congrArg View.electionName hq.view
  | startedAgain hst =>
    rw [fst_of_some (Option.ite_none_left_eq_some.mp h).2]
    simp only [startup]
    split <;> rfl
  | answered req resp hmem heq => rw [heq]; rfl
  | ranged req resp ok status hmem hwf heq =>
    rw [heq]
    exact handle_range_name c req resp ok status
  | read ok resp hmem heq =>
    rw [heq]
    cases ok with
    | false => rfl
    | true =>
      rcases handle_read_view c resp with ⟨p, hview⟩
      exact congrArg View.electionName hview

theorem observed_name {s s' : Observed} {a : Observed.Act} (h : s.step a = some s') :
    s'.obs.electionName = s.obs.electionName := by
  cases Observed.step_cases h with
  | write => rfl
  | client a c' o hcl hact => exact observer_name hact
  | range req c' o hact => exact observer_name hact
  | deliver id n canceled compactRevision req c' o hreq hlive hn hact => exact observer_name hact

namespace System

variable {ι : Type u} [DecidableEq ι] {s s' : System ι}

/-- What a step of the candidates is for others: nothing, or a write. -/
theorem etcd_step {a : Act ι} (h : Consistent s) (hstep : s.step a = some s') :
    s'.etcd = s.etcd ∨ ∃ ops, SinglePut ops ∧ s'.etcd = s.etcd.commit ops := by
  cases step_cases hstep with
  | txn i call req c' o hreq hact =>
    have hmem : call ∈ (s.cand i).calls := by
      by_contra hno
      simp [Candidate.act, hno] at hact
    have hsingle := request_singlePut (h.tied i).inv hmem hreq
    refine .inr ⟨s.etcd.branch req, ?_, rfl⟩
    unfold Store.branch
    split
    · exact hsingle.1
    · exact hsingle.2
  | write ops hops => exact .inr ⟨ops, hops, rfl⟩
  | client => exact .inl rfl
  | range => exact .inl rfl
  | deliver => exact .inl rfl

end System

namespace Audience

variable {ι : Type u} {κ : Type v} [DecidableEq ι] [DecidableEq κ] {s t : Audience ι κ}

/-- The candidates, seen alone. -/
theorem system_run {allowed : Audience ι κ → Act ι κ → Prop}
    {allowed' : System ι → Election.Act ι → Prop}
    (hok : ∀ s a, allowed s (.election a) → allowed' s.system a)
    (hrun : machine.Run allowed s t) : System.machine.Run allowed' s.system t.system := by
  refine hrun.simulates (fun s => s.system) ?_
  intro s a s' ha hstep
  cases step_cases hstep with
  | election a system h => exact .single a (hok s a ha) h
  | observer k a r hwrite h => exact .refl _

theorem system_reachable {allowed : Audience ι κ → Act ι κ → Prop}
    {allowed' : System ι → Election.Act ι → Prop}
    (hok : ∀ s a, allowed s (.election a) → allowed' s.system a)
    (hs : machine.Reachable allowed s) : System.machine.Reachable allowed' s.system := by
  rcases hs with ⟨_, ⟨name, lease, value, revision, h, hinj, rfl⟩, hrun⟩
  exact ⟨_, ⟨name, lease, value, revision, h, hinj, rfl⟩, system_run hok hrun⟩

/-- The candidates of a reachable state are those of a run on their own. -/
theorem system_any (hs : machine.Reachable Undisturbed s) :
    System.machine.Reachable Any s.system :=
  system_reachable (fun _ _ _ => trivial) hs

omit [DecidableEq ι] in
theorem observed_update (s : Audience ι κ) (k j : κ) (r : Observed) (h : r.etcd = s.system.etcd) :
    observed { s with
      obs := Function.update s.obs k r.obs
      watch := Function.update s.watch k r.watch } j = if j = k then r else s.observed j := by
  by_cases hj : j = k
  · subst hj
    rw [if_pos rfl]
    simp only [observed, Function.update_self, ← h]
  · rw [if_neg hj]
    simp only [observed, Function.update_of_ne hj]

/-- An observer, seen alone: what the candidates do to the store is written by somebody. -/
theorem observed_reachable (hs : machine.Reachable Undisturbed s) (k : κ) :
    Observed.machine.Reachable Observed.Orderly (s.observed k) := by
  refine hs.simulates (fun s => s.observed k) ?_ ?_
  · rintro s ⟨name, lease, value, revision, h, hinj, rfl⟩
    exact ⟨name, revision, h, rfl⟩
  · intro s a s' hreach _ hok hstep
    cases step_cases hstep with
    | election a system h =>
      have hetcd := System.etcd_step (System.reachable_consistent (system_any hreach)) h
      rcases hetcd with heq | ⟨ops, hops, heq⟩
      · have hsame : observed { s with system := system } k = s.observed k := by
          simp only [observed, heq]
        rw [hsame]
        exact .refl _
      · refine .single (.write ops) ⟨trivial, hops⟩ ?_
        simp only [Observed.machine, Observed.step, observed, heq]
    | observer j a r hwrite h =>
      have hetcd := observed_etcd hwrite h
      rw [observed_update s j k r hetcd]
      by_cases hk : k = j
      · subst hk
        rw [if_pos rfl]
        refine .single a ⟨hok, ?_⟩ h
        cases a with
        | write => cases hwrite
        | _ => trivial
      · rw [if_neg hk]
        exact .refl _

theorem run_name {allowed : Audience ι κ → Act ι κ → Prop} (hrun : machine.Run allowed s t)
    (k : κ) : (t.obs k).electionName = (s.obs k).electionName := by
  induction hrun with
  | refl => rfl
  | @tail u t a _ _ hstep ih =>
    cases step_cases hstep with
    | election a system h => exact ih
    | observer j a r hwrite h =>
      refine Eq.trans ?_ ih
      show (Function.update u.obs j r.obs k).electionName = (u.obs k).electionName
      by_cases hk : k = j
      · subst hk
        rw [Function.update_self]
        exact observed_name h
      · rw [Function.update_of_ne hk]

/-- Everybody is in one election. -/
theorem one_election (hs : machine.Reachable Undisturbed s) :
    ∃ name, (∀ i, (s.system.cand i).electionName = name) ∧
      ∀ k, (s.obs k).electionName = name := by
  rcases hs with ⟨_, ⟨name, lease, value, revision, h, hinj, rfl⟩, hrun⟩
  have hsystem : System.machine.Run Any _ _ := system_run (fun _ _ _ => trivial) hrun
  exact ⟨name, fun i => (System.run_identity hsystem i).2, run_name hrun⟩

/-! ## Two candidates and two observers -/

/-- Two candidates and two observers of the election without a name. -/
def two : Audience Bool Bool :=
  init [] System.twoLeases (fun i => if i then [9] else [7]) 1 (Int.le_refl 1)

/-- The first of the candidates. -/
def first : Candidate := .init [] 1 [7]

/-- Its node, as it is at a revision. -/
def firstNode (value : Bytes) (rev : Int) : KeyValue where
  key := first.key
  value := value
  createRevision := 2
  modRevision := rev
  lease := 1

/-- An observer starts, with that answer to its Range, and reads `n` events. -/
def observes (k : Bool) (resp : RangeResponse) (n : Nat) : List (Act Bool Bool) :=
  let c := Observer.init []
  let acts : List Observed.Act :=
    Observed.startupActs c.discoverRequest resp (c.watcherRequest (startRevision resp)) ++
      [.deliver 0 n false 0]
  acts.map (.observer k)

/-- The second candidate waits for the first, and the first loses its node. -/
def firstLeaves : List (Act Bool Bool) :=
  let acts : List (Election.Act Bool) :=
    System.campaignActs true (Candidate.init [] 2 [9]) 3 [firstNode [7] 2] ++
      [.write [.deleteRange first.key]]
  acts.map .election

/-! ## What an observer reports -/

/-- The observer has the answer to its Range, and it has processed the events from there on up to
a revision. -/
def UpToDate (s : Audience ι κ) (k : κ) (rev : Int) : Prop :=
  (∃ resp, (s.obs k).discovered = some resp ∧ resp.revision ≤ rev) ∧ (s.observed k).Processed rev

instance (s : Audience ι κ) (k : κ) (rev : Int) : Decidable (s.UpToDate k rev) :=
  decidable_of_iff
    (((s.obs k).discovered.any fun (resp : RangeResponse) => decide (resp.revision ≤ rev)) = true ∧
      (s.observed k).Processed rev) (by simp [UpToDate, Option.any_eq_true])

/-- The leader that it reports is the oldest node of the election at that revision. -/
theorem leader_iff {k : κ} {rev : Int} (hs : machine.Reachable Undisturbed s)
    (hk : s.UpToDate k rev) (kv : KeyValue) :
    (s.obs k).leader = some kv ↔ (s.observed k).Leads rev kv := by
  rcases hk with ⟨⟨resp, hresp, hle⟩, hp⟩
  exact Observed.processed_leader (observed_reachable hs k) hresp hle hp kv

theorem run_extends {allowed : Audience ι κ → Act ι κ → Prop} (hrun : machine.Run allowed s t) :
    s.system.etcd.Extends t.system.etcd := by
  have hsystem : System.machine.Run Any s.system t.system :=
    system_run (fun _ _ _ => trivial) hrun
  exact System.run_extends hsystem

/-- The node of a leader, and that it is the oldest one, for whoever looks at that revision. -/
theorem leads_at {i : ι} {k : κ} (hs : machine.Reachable Undisturbed s)
    (hrun : machine.Run Undisturbed s t) (hi : s.system.Leads i) :
    ∃ kv, get? s.system.etcd.kvs (s.system.cand i).key = some kv ∧
      kv.createRevision = (s.system.cand i).creationRevision ∧
      (t.observed k).Leads s.system.etcd.revision kv := by
  rcases one_election hs with ⟨name, hcand, hobs⟩
  have hc := System.reachable_consistent (system_any hs)
  have hname : (t.obs k).electionName = (s.system.cand i).electionName := by
    rw [run_name hrun k, hobs, hcand]
  have hpast := (run_extends hrun).kvsAt_revision
  rcases hi.2 with ⟨kv, hkv, hkey, hr⟩
  refine ⟨kv, Store.get?_kvs hkv hkey, hr, ⟨?_, ?_⟩, ?_⟩
  · show kv ∈ t.system.etcd.kvsAt _
    rw [hpast]
    exact hkv
  · show InElection (t.obs k).electionName kv.key
    rw [hname, hkey]
    exact System.key_inElection _
  · rintro other ⟨hmem, hel⟩
    have hmem' : other ∈ t.system.etcd.kvsAt s.system.etcd.revision := hmem
    have hel' : InElection (t.obs k).electionName other.key := hel
    rw [hpast] at hmem'
    rw [hname] at hel'
    rw [hr]
    exact (hc.tied i).elected hi.1 other hmem' hel'

/-- So that node is the leader that an observer reports. -/
theorem leader_node {i : ι} {k : κ} (hs : machine.Reachable Undisturbed s)
    (hrun : machine.Run Undisturbed s t) (hi : s.system.Leads i)
    (hk : t.UpToDate k s.system.etcd.revision) :
    ∃ kv, get? s.system.etcd.kvs (s.system.cand i).key = some kv ∧
      kv.createRevision = (s.system.cand i).creationRevision ∧ (t.obs k).leader = some kv := by
  rcases leads_at (k := k) hs hrun hi with ⟨kv, hget, hr, hleads⟩
  exact ⟨kv, hget, hr, (leader_iff (hs.run hrun) hk kv).mpr hleads⟩

theorem current_of_leader {c : Observer} {kv : KeyValue} (h : c.leader = some kv) :
    c.hasLeader = true ∧ c.currentKey = .ok kv.key ∧ c.currentValue = .ok kv.value := by
  simp [hasLeader, currentKey, currentValue, h]

/-- Observers see who leads: once an observer has processed the events up to a revision at which a
candidate led, it reports that candidate's node and the value it had. -/
theorem leader_reported {i : ι} {k : κ} (hs : machine.Reachable Undisturbed s)
    (hrun : machine.Run Undisturbed s t) (hi : s.system.Leads i)
    (hk : t.UpToDate k s.system.etcd.revision) :
    (t.obs k).hasLeader = true ∧ (t.obs k).currentKey = .ok (s.system.cand i).key ∧
    ∃ kv, get? s.system.etcd.kvs (s.system.cand i).key = some kv ∧
      kv.createRevision = (s.system.cand i).creationRevision ∧
      (t.obs k).currentValue = .ok kv.value := by
  rcases leader_node hs hrun hi hk with ⟨kv, hget, hr, hleader⟩
  rcases current_of_leader hleader with ⟨hhas, hkey, hvalue⟩
  exact ⟨hhas, (get?_some hget).2 ▸ hkey, kv, hget, hr, hvalue⟩

/-- An observer that has seen the first leader reports it, also when that has left since. -/
theorem leader_reported_late : ∃ s t : Audience Bool Bool, machine.Reachable Undisturbed s ∧
    s.system.Leads false ∧ ¬ t.system.Leads false ∧
    (t.obs true).currentKey = .ok (s.system.cand false).key := by
  rcases run_of_execIf_execIf machine (fun s a => decide (s.Undisturbed a)) two
    ((System.campaignActs false first 2 []).map .election)
    (observes true { revision := 2, kvs := [firstNode [7] 2] } 1 ++ firstLeaves)
    (fun s t => decide (s.system.Leads false) && decide (¬ t.system.Leads false) &&
      decide (t.UpToDate true s.system.etcd.revision))
    (fun _ _ => of_decide_eq_true) ⟨_, _, _, _, _, by decide, rfl⟩ (by decide) with
    ⟨s, t, hs, hrun, hcheck⟩
  simp only [Bool.and_eq_true, decide_eq_true_eq] at hcheck
  rcases hcheck with ⟨⟨hi, hleft⟩, hk⟩
  exact ⟨s, t, hs, hi, hleft, (leader_reported hs hrun hi hk).2.1⟩

/-- All observers see one history: what one of them has seen up to a revision, no observer goes
behind later. The create revisions of the leaders that they report do not decrease with the
revisions that they have processed, and at one revision they report the same leader. -/
theorem observers_agree {k k' : κ} {rev rev' : Int} (hs : machine.Reachable Undisturbed s)
    (hrun : machine.Run Undisturbed s t) (hk : s.UpToDate k rev) (hk' : t.UpToDate k' rev')
    (hpast : rev ≤ s.system.etcd.revision) (hle : rev ≤ rev') :
    (∀ kv kv', (s.obs k).leader = some kv → (t.obs k').leader = some kv' →
      kv.createRevision ≤ kv'.createRevision) ∧
    (rev = rev' → (t.obs k').leader = (s.obs k).leader) := by
  rcases one_election hs with ⟨name, _, hobs⟩
  have hname : (t.obs k').electionName = (s.obs k).electionName := by
    rw [run_name hrun k', hobs, hobs]
  have hkept := (run_extends hrun).past rev hpast
  constructor
  · intro kv kv' hkv hkv'
    rcases (leader_iff hs hk kv).mp hkv with ⟨⟨hmem, _⟩, hmin⟩
    rcases (leader_iff (hs.run hrun) hk' kv').mp hkv' with ⟨⟨hmem', hel'⟩, _⟩
    rcases Store.node_kvsAt hle kv' hmem' with ⟨old, hold, hkey, hr⟩ | hnew
    -- the later leader was there already, behind the earlier one
    · rw [← hr]
      refine hmin old ⟨hkept ▸ hold, ?_⟩
      have hel : InElection (t.obs k').electionName kv'.key := hel'
      rw [hname, ← hkey] at hel
      exact hel
    -- or it is younger than all that was there
    · have := s.system.etcd.kvsAt_bounded rev kv hmem
      omega
  · rintro rfl
    refine Option.ext fun kv => ?_
    rw [leader_iff hs hk, leader_iff (hs.run hrun) hk']
    unfold Observed.Leads Observed.Present
    simp only [observed, hkept, hname]

/-- One observer sees the first leader, and later the other one sees the second. -/
theorem observers_agree_two : ∃ s t : Audience Bool Bool, machine.Reachable Undisturbed s ∧
    ∃ kv kv', (s.obs true).leader = some kv ∧ (t.obs false).leader = some kv' ∧
      kv.key ≠ kv'.key ∧ kv.createRevision ≤ kv'.createRevision := by
  let secondNode : KeyValue :=
    { key := (Candidate.init [] 2 [9]).key
      value := [9]
      createRevision := 3
      modRevision := 3
      lease := 2 }
  rcases run_of_execIf_execIf machine (fun s a => decide (s.Undisturbed a)) two
    ((System.campaignActs false first 2 []).map .election ++
      observes true { revision := 2, kvs := [firstNode [7] 2] } 1)
    (firstLeaves ++ observes false { revision := 4, kvs := [secondNode] } 2)
    (fun s t => decide (s.UpToDate true 2) && decide (t.UpToDate false 4) &&
      decide (2 ≤ s.system.etcd.revision) && decide ((s.obs true).leader = some (firstNode [7] 2)) &&
      decide ((t.obs false).leader = some secondNode))
    (fun _ _ => of_decide_eq_true) ⟨_, _, _, _, _, by decide, rfl⟩ (by decide) with
    ⟨s, t, hs, hrun, hcheck⟩
  simp only [Bool.and_eq_true, decide_eq_true_eq] at hcheck
  rcases hcheck with ⟨⟨⟨⟨hk, hk'⟩, hpast⟩, hkv⟩, hkv'⟩
  exact ⟨s, t, hs, _, _, hkv, hkv', by decide,
    (observers_agree hs hrun hk hk' hpast (by decide)).1 _ _ hkv hkv'⟩

/-- Nobody disturbs the observers. The candidate makes its calls in order, every Txn of it that is
done has OK status, and from its `campaign()` on nobody else puts its node. -/
def Calm (i : ι) (s : Audience ι κ) (a : Act ι κ) : Prop :=
  s.Undisturbed a ∧ ∀ b, a = .election b → System.Exclusive i s.system b

/-- What the leader has published is what the observers report: from `campaign()` or `proclaim()`
through the store and the watch to `current_value()`. A `proclaim()` whose RPC fails may have been
executed all the same, so that `value()` and the node differ; hence `Calm`. -/
theorem value_reported {i : ι} {k : κ} (hs : machine.Reachable (Calm i) s)
    (hrun : machine.Run Undisturbed s t) (hi : s.system.Leads i)
    (hnone : (s.system.cand i).txns = 0) (hk : t.UpToDate k s.system.etcd.revision) :
    (t.obs k).currentKey = .ok (s.system.cand i).key ∧
    (t.obs k).currentValue = .ok (s.system.cand i).candidateValue := by
  have hexclusive : System.machine.Reachable (System.Exclusive i) s.system :=
    system_reachable (fun _ b hok => hok.2 b rfl) hs
  rcases leader_node (hs.mono fun _ _ hok => hok.1) hrun hi hk with ⟨kv, hget, hr, hleader⟩
  rcases current_of_leader hleader with ⟨_, hkey, hvalue⟩
  rcases get?_some hget with ⟨hmem, hk'⟩
  refine ⟨hk' ▸ hkey, ?_⟩
  rw [hvalue, (System.reachable_published hexclusive).agreed.value hnone kv hmem hk' hr]

/-- A check of `Calm` that allows no foreign write. -/
def calm (i : Bool) (s : Audience Bool Bool) : Act Bool Bool → Bool
  | .election a => System.exclusive i s.system a
  | .observer k a => decide ((s.observed k).Undisturbed a)

theorem calm_sound (i : Bool) (s : Audience Bool Bool) (a : Act Bool Bool)
    (h : calm i s a = true) : Calm i s a := by
  cases a with
  | election a =>
    refine ⟨trivial, ?_⟩
    rintro _ ⟨rfl⟩
    exact System.exclusive_sound i s.system a h
  | observer k a => exact ⟨of_decide_eq_true h, by simp⟩

/-- The first candidate is elected, and publishes another value. -/
def firstProclaims : List (Act Bool Bool) :=
  let request := Candidate.publishRequest { first with creationRevision := 2 } [8] none
  let response : TxnResponse :=
    { revision := 3
      succeeded := true
      responses := [.put] }
  let acts : List (Election.Act Bool) :=
    System.campaignActs false first 2 [] ++
      [.client false (.proclaim [8]), .serveTxn false (.proclaim [8] request none),
        .client false (.txnDone (.proclaim [8] request (some response)) true {})]
  acts.map .election

/-- The first candidate publishes a value, and an observer that starts afterwards reports it. -/
theorem value_reported_proclaimed : ∃ s t : Audience Bool Bool,
    machine.Reachable (Calm false) s ∧ machine.Run Undisturbed s t ∧
    (t.obs true).currentKey = .ok first.key ∧ (t.obs true).currentValue = .ok [8] := by
  rcases run_of_execIf_execIf machine (calm false) two firstProclaims
    (observes true { revision := 3, kvs := [firstNode [8] 3] } 2)
    (fun s t => decide (s.system.Leads false) && decide ((s.system.cand false).txns = 0) &&
      decide ((s.system.cand false).key = first.key) &&
      decide ((s.system.cand false).candidateValue = [8]) &&
      decide (t.UpToDate true s.system.etcd.revision))
    (calm_sound false) ⟨_, _, _, _, _, by decide, rfl⟩ (by decide) with
    ⟨s, t, hs, hrun, hcheck⟩
  simp only [Bool.and_eq_true, decide_eq_true_eq] at hcheck
  rcases hcheck with ⟨⟨⟨⟨hi, hnone⟩, hkey⟩, hvalue⟩, hk⟩
  have hrun' : machine.Run Undisturbed s t := hrun.mono fun _ _ hok => hok.1
  rcases value_reported hs hrun' hi hnone hk with ⟨hk', hv'⟩
  exact ⟨s, t, hs, hrun', hkey ▸ hk', hvalue ▸ hv'⟩

end Audience

end GeeH.Election
