import GeeH.Observer.Refinement

/-!
# GeeH.Observer.Covering — what a replay brings into a view

Whatever the view was, replaying the history of the election from a revision on
brings every node into it that was created since (`covers_replayed`). So it does
not matter where a watch starts, as long as no node that is still there is older
(`Since`).

A view has one entry for each create revision. Two nodes of the election with the
same one would share it, and the deletion of either would remove it; `OneCreated`
leaves that out.
-/

namespace GeeH.Observer

open Etcd Machine

variable {e : Store} {name : Bytes} {start : Int} {p : Participants}

/-! ## Nodes that are created alone -/

/-- A put that creates its node. -/
def Creates (ev : Event) : Prop := ev.type = .put ∧ ev.kv.createRevision = ev.revision

instance (ev : Event) : Decidable (Creates ev) := inferInstanceAs (Decidable (_ ∧ _))

/-- No two nodes of the election are created at one revision. -/
def OneCreated (name : Bytes) (log : List Event) : Prop :=
  ∀ a ∈ log, ∀ b ∈ log, Creates a → Creates b → a.revision = b.revision →
    InElection name a.kv.key → InElection name b.kv.key → a.kv.key = b.kv.key

instance (name : Bytes) (log : List Event) : Decidable (OneCreated name log) :=
  inferInstanceAs (Decidable (∀ a ∈ log, ∀ b ∈ log, _ → _ → _ → _ → _ → _))

/-- Then a create revision belongs to one key of the election. -/
theorem OneCreated.key {log : List Event} (h : OneCreated name log) {k k' : Bytes} {r : Int}
    (hel : InElection name k) (hel' : InElection name k') (hk : CreatedIn log k r)
    (hk' : CreatedIn log k' r) : k = k' := by
  rcases hk with ⟨a, ha, hput, rfl, hrev, hcr⟩
  rcases hk' with ⟨b, hb, hput', rfl, hrev', hcr'⟩
  exact h a ha b hb ⟨hput, hcr.trans hrev.symm⟩ ⟨hput', hcr'.trans hrev'.symm⟩
    (hrev.trans hrev'.symm) hel hel'

theorem OneCreated.mono {log log' : List Event} (hsub : log ⊆ log') (h : OneCreated name log') :
    OneCreated name log :=
  fun a ha b hb => h a (hsub ha) b (hsub hb)

theorem OneCreated.commit {ops : List RequestOp} (h : OneCreated name e.log)
    (hops : OneCreated name (e.newEvents ops)) : OneCreated name (e.commit ops).log := by
  -- a commit has a revision of its own
  have hlate : ∀ a ∈ e.log, ∀ b ∈ e.newEvents ops, a.revision ≠ b.revision := by
    intro a ha b hb
    have hold := (e.bounded a ha).2
    have hnew := e.newEvents_revision ops b hb
    omega
  rw [Store.commit_log]
  intro a ha b hb hca hcb hrev
  rcases List.mem_append.mp ha with ha | ha
  · rcases List.mem_append.mp hb with hb | hb
    · exact h a ha b hb hca hcb hrev
    · exact absurd hrev (hlate a ha b hb)
  · rcases List.mem_append.mp hb with hb | hb
    · exact absurd hrev.symm (hlate b hb a ha)
    · exact hops a ha b hb hca hcb hrev

/-! ## Views that cover the election -/

/-- The view has every node of the election that was created since a revision. -/
def Covers (name : Bytes) (start : Int) (p : Participants) (kvs : List KeyValue) : Prop :=
  ∀ kv ∈ kvs, InElection name kv.key → start ≤ kv.createRevision →
    p.find? kv.createRevision = some kv

/-- The next event of the election keeps the view up to date. -/
theorem Covers.event {log : List Event} {ev : Event} (h : Covers name start p (replay log))
    (hl : Legal [] (log ++ [ev])) (hone : OneCreated name (log ++ [ev]))
    (hel : InElection name ev.kv.key) :
    Covers name start (handleEvent p ev).1 (replay (log ++ [ev])) := by
  intro kv hkv hkvel hstart
  have hcreated := created_of_mem_replay hl kv hkv
  rw [replay_concat, mem_applyEvent] at hkv
  rw [handleEvent_find?]
  by_cases hnode : ev.node = kv.createRevision
  -- the event is about this node: it must be its last put
  · rw [if_pos hnode]
    have hevent := created_of_mem hl (List.mem_append_right log List.mem_cons_self)
    rw [hnode] at hevent
    rcases hkv with ⟨_, hother⟩ | ⟨hput, rfl⟩
    -- a node of another key with this create revision
    · exact absurd (hone.key hkvel hel hcreated hevent) hother
    · simp [Event.left, hput]
  · rw [if_neg hnode]
    rcases hkv with ⟨hold, _⟩ | ⟨hput, rfl⟩
    · exact h kv hold hkvel hstart
    · exact absurd (by simp [Event.node, hput]) hnode

/-- An event about another key does not matter. -/
theorem Covers.other {log : List Event} {ev : Event} (h : Covers name start p (replay log))
    (hel : ¬ InElection name ev.kv.key) : Covers name start p (replay (log ++ [ev])) := by
  intro kv hkv hkvel hstart
  rw [replay_concat, mem_applyEvent] at hkv
  rcases hkv with ⟨hold, _⟩ | ⟨_, rfl⟩
  · exact h kv hold hkvel hstart
  · exact absurd hkvel hel

theorem Covers.observe {log since : List Event} (h : Covers name start p (replay log))
    (hl : Legal [] (log ++ since)) (hone : OneCreated name (log ++ since)) :
    Covers name start (observe p (since.filter fun ev => InElection name ev.kv.key))
      (replay (log ++ since)) := by
  -- by induction on the later events, from their end
  induction since using List.reverseRecOn with
  | nil => simpa [Observer.observe] using h
  | append_singleton since ev ih =>
    rw [← List.append_assoc] at hl hone ⊢
    have hbefore := ih (legal_append.mp hl).1 (hone.mono (List.subset_append_left _ _))
    rw [List.filter_append, observe_append, List.filter_singleton]
    by_cases hel : InElection name ev.kv.key
    · simp only [hel, decide_true, cond_true]
      exact hbefore.event hl hone hel
    · simp only [hel, decide_false, cond_false]
      exact hbefore.other hel

/-- Whatever the view was, replaying the history from a revision on brings the nodes into it
that were created since. -/
theorem covers_replayed (hone : OneCreated name e.log) (p : Participants) (start : Int) :
    Covers name start (observe p (replayed e name start e.revision)) e.kvs := by
  have hsplit := split_at_revision e.ordered (start - 1)
  -- of the nodes before the start none was created since, so there is nothing to cover
  have hbase : Covers name start p (e.kvsAt (start - 1)) := by
    intro kv hkv _ hstart
    have := e.kvsAt_bounded (start - 1) kv hkv
    omega
  have hlegal := e.legal
  rw [hsplit] at hlegal hone
  have hcovers := hbase.observe hlegal hone
  rw [← hsplit] at hcovers
  have hevents : ((e.log.filter fun ev => start - 1 < ev.revision).filter
      fun ev => InElection name ev.kv.key) = replayed e name start e.revision := by
    rw [List.filter_filter, replayed, e.logAt_revision]
    refine List.filter_congr fun ev _ => ?_
    rw [Bool.decide_and]
    simp only [Int.sub_one_lt_iff]
  rw [hevents] at hcovers
  exact hcovers

/-- All nodes of the election were created from a revision on. -/
structure Since (e : Store) (name : Bytes) (start : Int) : Prop where
  bound : start ≤ e.revision + 1
  nodes : ∀ kv ∈ e.kvs, InElection name kv.key → start ≤ kv.createRevision

theorem Since.commit (h : Since e name start) (ops : List RequestOp) :
    Since (e.commit ops) name start where
  bound := by
    have := h.bound
    have := e.le_commit_revision ops
    omega
  nodes kv hkv hel := by
    rcases Store.hasNode_of_commit ⟨kv, hkv, rfl, rfl⟩ with ⟨old, hold, hkey, hcr⟩ | hnew
    · rw [← hcr]
      exact h.nodes old hold (hkey ▸ hel)
    · have := h.bound
      omega

/-- An answer to the Range is the oldest node, and the watch starts there. -/
theorem Found.since {resp : RangeResponse} (h : Found e name resp) :
    Since e name (startRevision resp) where
  bound := by
    rcases h.kvs with ⟨hnil, _⟩ | ⟨first, hone, hmem, _⟩
    · have := h.revision
      simp only [startRevision, hnil]
      omega
    · have := e.kvsAt_bounded resp.revision first hmem
      have := h.revision
      simp only [startRevision, hone]
      omega
  nodes kv hkv hel := by
    rw [← e.kvsAt_revision] at hkv
    exact h.start_le h.revision kv hkv hel

theorem Found.start_pos {resp : RangeResponse} (h : Found e name resp) (hpos : 0 < resp.revision) :
    0 < startRevision resp := by
  rcases h.kvs with ⟨hnil, _⟩ | ⟨first, hone, hmem, _⟩
  · simpa [startRevision, hnil] using hpos
  · have := e.kvsAt_bounded resp.revision first hmem
    simp only [startRevision, hone]
    omega

end GeeH.Observer
