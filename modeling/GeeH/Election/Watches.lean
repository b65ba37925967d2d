import GeeH.Election.MutualExclusion

/-!
# GeeH.Election.Watches — the watches of the candidates

What the server keeps of a watch fits the request behind it: a watch that was
not asked for yet is fresh, and one that was has been told at most the events
that there are. The results about runs without cancellations (`Succession`) and
about runs with them (`Cancellation`) both start here.
-/

namespace GeeH.Election

open Etcd Machine Candidate

universe u

variable {e : Store} {c c' : Candidate} {w : Nat → WatchState}

/-- What the server keeps of the watches of a candidate fits its requests. -/
structure Watches (e : Store) (w : Nat → WatchState) (c : Candidate) : Prop where
  fresh : ∀ id, c.requests.length ≤ id → w id = {}
  sent : ∀ id req, c.requests[id]? = some req → (w id).sent ≤ (req.events e.log).length

theorem Watches.init (e : Store) (name : Bytes) (leaseId : UInt64) (value : Bytes) :
    Watches e (fun _ => {}) (Candidate.init name leaseId value) where
  fresh _ _ := rfl
  sent _ _ _ := Nat.zero_le _

theorem Watches.commit (h : Watches e w c) (ops : List RequestOp) :
    Watches (e.commit ops) w c where
  fresh := h.fresh
  sent id req hreq := by
    rw [Store.commit_log, events_append, List.length_append]
    exact (h.sent id req hreq).trans (Nat.le_add_right _ _)

/-- New requests are for fresh watches. -/
theorem Watches.grow (h : Watches e w c) (hpre : c.requests <+: c'.requests) :
    Watches e w c' where
  fresh id hid := h.fresh id (hpre.length_le.trans hid)
  sent id req hreq := by
    by_cases hid : id < c.requests.length
    · refine h.sent id req ?_
      rcases hpre with ⟨new, hnew⟩
      rw [← hnew, List.getElem?_append_left hid] at hreq
      exact hreq
    · rw [h.fresh id (Nat.le_of_not_lt hid)]
      exact Nat.zero_le _

theorem Watches.deliver {id n : Nat} {req : WatchCreateRequest} {canceled : Bool}
    {compactRevision : Int} (h : Watches e w c) (hreq : c.requests[id]? = some req)
    (hn : n ≤ ((w id).undelivered req e.log).length) :
    Watches e (Function.update w id (watchSent (w id) n canceled compactRevision)) c where
  fresh id' hid' := by
    have hne : id' ≠ id := by
      intro heq
      rw [heq] at hid'
      rw [List.getElem?_eq_none hid'] at hreq
      cases hreq
    rw [Function.update_of_ne hne]
    exact h.fresh id' hid'
  sent id' req' hreq' := by
    by_cases heq : id' = id
    · subst heq
      rw [hreq] at hreq'
      rw [Function.update_self, ← Option.some.inj hreq']
      have hsent := h.sent id' req hreq
      rw [WatchState.undelivered, List.length_drop] at hn
      show (w id').sent + n ≤ _
      omega
    · rw [Function.update_of_ne heq]
      exact h.sent id' req' hreq'

namespace System

variable {ι : Type u} [DecidableEq ι] {s s' : System ι}

/-- The invariant of the system, with the watches. -/
structure Watching (s : System ι) : Prop where
  consistent : Consistent s
  watches : ∀ i, Watches s.etcd (s.watch i) (s.cand i)

theorem watches_update {e' : Store} {i : ι} {a : Candidate.Act} {o : Outcome}
    (h : ∀ j, Watches e' (s.watch j) (s.cand j)) (hact : (s.cand i).act a = some (c', o)) :
    ∀ j, Watches e' (s.watch j) (Function.update s.cand i c' j) := by
  intro j
  by_cases hj : j = i
  · subst hj
    rw [Function.update_self]
    exact (h j).grow (act_requests hact)
  · rw [Function.update_of_ne hj]
    exact h j

theorem step_watching {a : Act ι} (h : Watching s) (hstep : s.step a = some s') :
    Watching s' := by
  refine ⟨step_consistent h.consistent hstep, ?_⟩
  cases step_cases hstep with
  | client i a c' o hcl hact => exact watches_update h.watches hact
  | range i req c' o hact => exact watches_update h.watches hact
  | txn i call req c' o hreq hact =>
    exact watches_update (fun j => (h.watches j).commit _) hact
  | deliver i wkey wrevision id n canceled compactRevision req c' o hreq _ hn hact =>
    intro j
    have hup := watches_update h.watches hact j
    by_cases hj : j = i
    · subst hj
      show Watches s.etcd (Function.update s.watch j _ j) (Function.update s.cand j c' j)
      rw [Function.update_self]
      have hreq' : c'.requests[id]? = some req := by
        rcases act_requests hact with ⟨new, hnew⟩
        rw [← hnew, List.getElem?_append_left (List.getElem?_eq_some_iff.mp hreq).1]
        exact hreq
      rw [Function.update_self] at hup ⊢
      exact hup.deliver hreq' hn
    · show Watches s.etcd (Function.update s.watch i _ j) _
      rw [Function.update_of_ne hj]
      exact hup
  | write ops hops => exact fun j => (h.watches j).commit ops

theorem reachable_watching {allowed : System ι → Act ι → Prop}
    (h : machine.Reachable allowed s) : Watching s := by
  refine h.invariant ?_ ?_
  · rintro s ⟨name, lease, value, revision, h, hinj, rfl⟩
    exact ⟨init_consistent hinj, fun i => Watches.init _ _ _ _⟩
  · intro s a s' hs _ hstep
    exact step_watching hs hstep

end System

end GeeH.Election
