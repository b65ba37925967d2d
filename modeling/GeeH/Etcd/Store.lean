import GeeH.Bytes

/-!
# GeeH.Etcd.Store — the multi-version store behind the elections

etcd as a linearizable store. Every committed write takes the next revision
and appends its events to the history; the content at a revision is what the
events up to it leave behind (`replay`). A key's `create_revision` is the
revision of the put that created it, and an update keeps it.

The history is the state: `Store` bundles it with the facts that make it one
(each event is what an operation produces on the content before it, revisions
never go back), so that no other history can be built.
-/

namespace GeeH.Etcd

/-- `mvccpb::KeyValue`; `version` is left out, nothing here reads it. -/
structure KeyValue where
  key : Bytes := []
  value : Bytes := []
  createRevision : Int := 0
  modRevision : Int := 0
  lease : UInt64 := 0
deriving DecidableEq, Repr

inductive EventType where
  | put | delete
deriving DecidableEq, Repr

/-- `mvccpb::Event`. The `kv` of a deletion has only the key and the revision. -/
structure Event where
  type : EventType
  kv : KeyValue := {}
  prevKv : KeyValue := {}
deriving DecidableEq, Repr

/-- The revision an event belongs to. -/
def Event.revision (ev : Event) : Int := ev.kv.modRevision

/-! ## Content -/

/-- The node at a key, if it is present. -/
def get? (kvs : List KeyValue) (k : Bytes) : Option KeyValue :=
  kvs.find? fun kv => kv.key = k

/-- The content without the node at a key. -/
def without (kvs : List KeyValue) (k : Bytes) : List KeyValue :=
  kvs.filter fun kv => kv.key ≠ k

@[simp] theorem mem_without {kvs : List KeyValue} {k : Bytes} {kv : KeyValue} :
    kv ∈ without kvs k ↔ kv ∈ kvs ∧ kv.key ≠ k := by
  simp [without]

theorem get?_some {kvs : List KeyValue} {k : Bytes} {kv : KeyValue}
    (h : get? kvs k = some kv) : kv ∈ kvs ∧ kv.key = k := by
  have hk := List.find?_some h
  exact ⟨List.mem_of_find?_eq_some h, by simpa using hk⟩

theorem get?_none {kvs : List KeyValue} {k : Bytes} :
    get? kvs k = none ↔ ∀ kv ∈ kvs, kv.key ≠ k := by
  simp [get?]

/-- What one event does to the content. -/
def applyEvent (kvs : List KeyValue) (ev : Event) : List KeyValue :=
  match ev.type with
  | .put => without kvs ev.kv.key ++ [ev.kv]
  | .delete => without kvs ev.kv.key

/-- The content that a list of events leaves behind. -/
def replay (log : List Event) : List KeyValue := log.foldl applyEvent []

theorem replay_concat (log : List Event) (ev : Event) :
    replay (log ++ [ev]) = applyEvent (replay log) ev := by
  simp [replay, List.foldl_append]

/-- An event is legal where it is what a put or a deletion produces: a put keeps
the create revision of the node it updates, a deletion carries the node it
removes. -/
def LegalEvent (kvs : List KeyValue) (ev : Event) : Prop :=
  match ev.type with
  | .put =>
      ev.kv.createRevision = ((get? kvs ev.kv.key).map (·.createRevision)).getD ev.revision ∧
      ev.prevKv = (get? kvs ev.kv.key).getD {}
  | .delete => get? kvs ev.kv.key = some ev.prevKv

/-- Each event of the list is legal on the content its predecessors leave. -/
def Legal : List KeyValue → List Event → Prop
  | _, [] => True
  | kvs, ev :: evs => LegalEvent kvs ev ∧ Legal (applyEvent kvs ev) evs

theorem legal_append {kvs : List KeyValue} {l₁ l₂ : List Event} :
    Legal kvs (l₁ ++ l₂) ↔ Legal kvs l₁ ∧ Legal (l₁.foldl applyEvent kvs) l₂ := by
  induction l₁ generalizing kvs with
  | nil => simp [Legal]
  | cons ev l₁ ih => simp [Legal, ih, and_assoc]

/-- Invariants of the content: what every legal event preserves holds after any
legal list of events. -/
theorem content_invariant {P : List KeyValue → Prop} {log : List Event}
    (hstep : ∀ kvs, ∀ ev ∈ log, P kvs → LegalEvent kvs ev → P (applyEvent kvs ev))
    {kvs : List KeyValue} (hl : Legal kvs log) (h : P kvs) : P (log.foldl applyEvent kvs) := by
  induction log generalizing kvs with
  | nil => exact h
  | cons ev log ih =>
    have hnext := hstep kvs ev (by simp) h hl.1
    exact ih (fun kvs' ev' hev' => hstep kvs' ev' (by simp [hev'])) hl.2 hnext

/-- What an event leaves is either the node it wrote or an older one at another key. -/
theorem mem_applyEvent {kvs : List KeyValue} {ev : Event} {kv : KeyValue} :
    kv ∈ applyEvent kvs ev ↔
      (kv ∈ kvs ∧ kv.key ≠ ev.kv.key) ∨ (ev.type = .put ∧ kv = ev.kv) := by
  unfold applyEvent
  split <;> rename_i ht <;> simp [ht]

/-! ## Operations -/

/-- `etcdserverpb::RequestOp`, for one key. -/
inductive RequestOp where
  | range (key : Bytes)
  | put (key value : Bytes) (lease : UInt64)
  | deleteRange (key : Bytes)
deriving DecidableEq, Repr

/-- `etcdserverpb::ResponseOp`. -/
inductive ResponseOp where
  | range (kvs : List KeyValue)
  | put
  | deleteRange (deleted : Nat)
deriving DecidableEq, Repr

/-- The events of one operation executed at revision `rev`, and its response. -/
def runOp (rev : Int) (kvs : List KeyValue) : RequestOp → List Event × ResponseOp
  | .range k => ([], .range (get? kvs k).toList)
  | .put k v l =>
      let kv : KeyValue :=
        { key := k, value := v, modRevision := rev, lease := l
          createRevision := ((get? kvs k).map (·.createRevision)).getD rev }
      ([{ type := .put, kv := kv, prevKv := (get? kvs k).getD {} }], .put)
  | .deleteRange k =>
      match get? kvs k with
      | none => ([], .deleteRange 0)
      | some old =>
          ([{ type := .delete, kv := { key := k, modRevision := rev }, prevKv := old }],
            .deleteRange 1)

/-- The operations of one transaction, all at revision `rev`. -/
def runOps (rev : Int) : List KeyValue → List RequestOp → List Event × List ResponseOp
  | _, [] => ([], [])
  | kvs, op :: ops =>
      let r := runOp rev kvs op
      let rs := runOps rev (r.1.foldl applyEvent kvs) ops
      (r.1 ++ rs.1, r.2 :: rs.2)

theorem runOp_legal (rev : Int) (kvs : List KeyValue) (op : RequestOp) :
    Legal kvs (runOp rev kvs op).1 := by
  cases op with
  | range k => trivial
  | put k v l => simp [runOp, Legal, LegalEvent, Event.revision]
  | deleteRange k =>
    cases hget : get? kvs k with
    | none => simp [runOp, Legal, hget]
    | some old => simp [runOp, Legal, LegalEvent, hget]

theorem runOp_revision (rev : Int) (kvs : List KeyValue) (op : RequestOp) :
    ∀ ev ∈ (runOp rev kvs op).1, ev.revision = rev := by
  cases op with
  | range k => simp [runOp]
  | put k v l => simp [runOp, Event.revision]
  | deleteRange k =>
    cases hget : get? kvs k <;> simp [runOp, Event.revision, hget]

theorem runOps_legal (rev : Int) (kvs : List KeyValue) (ops : List RequestOp) :
    Legal kvs (runOps rev kvs ops).1 := by
  induction ops generalizing kvs with
  | nil => trivial
  | cons op ops ih => exact legal_append.mpr ⟨runOp_legal rev kvs op, ih _⟩

theorem runOps_revision (rev : Int) (kvs : List KeyValue) (ops : List RequestOp) :
    ∀ ev ∈ (runOps rev kvs ops).1, ev.revision = rev := by
  induction ops generalizing kvs with
  | nil => simp [runOps]
  | cons op ops ih =>
    intro ev hev
    rcases List.mem_append.mp hev with h | h
    · exact runOp_revision rev kvs op ev h
    · exact ih _ ev h

/-! ## The store -/

/-- The state of etcd: its revision and its history. -/
structure Store where
  revision : Int
  log : List Event
  revision_pos : 1 ≤ revision
  legal : Legal [] log
  ordered : log.Pairwise fun a b => a.revision ≤ b.revision
  bounded : ∀ ev ∈ log, 2 ≤ ev.revision ∧ ev.revision ≤ revision

namespace Store

/-- An etcd without any key; its first write gets revision 2 or a later one. -/
def empty (revision : Int) (h : 1 ≤ revision) : Store where
  revision := revision
  log := []
  revision_pos := h
  legal := trivial
  ordered := List.Pairwise.nil
  bounded := by simp

/-- The nodes present now. -/
def kvs (e : Store) : List KeyValue := replay e.log

/-- The nodes present at an earlier revision. -/
def kvsAt (e : Store) (rev : Int) : List KeyValue :=
  replay (e.log.filter fun ev => ev.revision ≤ rev)

/-- Append the events of one write at the next revision. -/
def append (e : Store) (evs : List Event) (hl : Legal e.kvs evs)
    (hr : ∀ ev ∈ evs, ev.revision = e.revision + 1) : Store where
  revision := e.revision + 1
  log := e.log ++ evs
  revision_pos := by have := e.revision_pos; omega
  legal := legal_append.mpr ⟨e.legal, hl⟩
  ordered := by
    refine List.pairwise_append.mpr ⟨e.ordered, ?_, ?_⟩
    · refine List.pairwise_of_forall_mem_list ?_
      intro a ha b hb
      rw [hr a ha, hr b hb]
    · intro a ha b hb
      rw [hr b hb]
      have := (e.bounded a ha).2
      omega
  bounded := by
    intro ev hev
    have hpos := e.revision_pos
    rcases List.mem_append.mp hev with h | h
    · have := e.bounded ev h
      omega
    · have := hr ev h
      omega

/-- Commit the operations of one transaction. Only what changes the content takes
a revision. -/
def commit (e : Store) (ops : List RequestOp) : Store :=
  if (runOps (e.revision + 1) e.kvs ops).1 = [] then e
  else e.append (runOps (e.revision + 1) e.kvs ops).1 (runOps_legal _ _ _)
    (runOps_revision _ _ _)

/-- The responses of the operations of one transaction. -/
def responses (e : Store) (ops : List RequestOp) : List ResponseOp :=
  (runOps (e.revision + 1) e.kvs ops).2

/-- The events that a commit adds to the history. -/
def newEvents (e : Store) (ops : List RequestOp) : List Event :=
  (runOps (e.revision + 1) e.kvs ops).1

/-! ## What a commit does -/

variable (e : Store) (ops : List RequestOp)

theorem commit_log : (e.commit ops).log = e.log ++ e.newEvents ops := by
  unfold commit newEvents
  split
  · rename_i h
    rw [h, List.append_nil]
  · rfl

theorem commit_revision :
    (e.commit ops).revision = e.revision ∧ e.newEvents ops = [] ∨
    (e.commit ops).revision = e.revision + 1 ∧ e.newEvents ops ≠ [] := by
  unfold commit newEvents
  split
  · rename_i h
    exact Or.inl ⟨rfl, h⟩
  · rename_i h
    exact Or.inr ⟨rfl, h⟩

theorem le_commit_revision : e.revision ≤ (e.commit ops).revision := by
  rcases e.commit_revision ops with h | h <;> omega

theorem newEvents_legal : Legal e.kvs (e.newEvents ops) := runOps_legal _ _ _

theorem newEvents_revision : ∀ ev ∈ e.newEvents ops, ev.revision = e.revision + 1 :=
  runOps_revision _ _ _

theorem commit_kvs : (e.commit ops).kvs = (e.newEvents ops).foldl applyEvent e.kvs := by
  unfold kvs replay
  rw [commit_log, List.foldl_append]

/-- A new event belongs to the new revision. -/
theorem newEvents_revision_eq {ev : Event} (h : ev ∈ e.newEvents ops) :
    ev.revision = (e.commit ops).revision := by
  have hr := e.newEvents_revision ops ev h
  rcases e.commit_revision ops with ⟨_, hnil⟩ | ⟨heq, _⟩
  · rw [hnil] at h
    cases h
  · rw [hr, heq]

end Store

/-! ## The nodes -/

theorem nodup_applyEvent {kvs : List KeyValue} {ev : Event}
    (hnd : (kvs.map (·.key)).Nodup) : ((applyEvent kvs ev).map (·.key)).Nodup := by
  have hwo : ((without kvs ev.kv.key).map (·.key)).Nodup :=
    hnd.sublist (List.Sublist.map _ List.filter_sublist)
  unfold applyEvent
  split
  · rw [List.map_append, List.nodup_append]
    refine ⟨hwo, by simp, ?_⟩
    intro a ha b hb hab
    obtain ⟨kv, hkv, rfl⟩ := List.mem_map.mp ha
    have hb' : b = ev.kv.key := by simpa using hb
    exact (mem_without.mp hkv).2 (hab.trans hb')
  · exact hwo

/-- At most one node per key. -/
theorem keys_nodup {log : List Event} (hl : Legal [] log) :
    ((replay log).map (·.key)).Nodup :=
  content_invariant (P := fun kvs => (kvs.map (·.key)).Nodup)
    (fun _ _ _ hnd _ => nodup_applyEvent hnd) hl (by simp)

theorem get?_of_mem {kvs : List KeyValue} (hnd : (kvs.map (·.key)).Nodup) {kv : KeyValue}
    (h : kv ∈ kvs) : get? kvs kv.key = some kv := by
  cases hget : get? kvs kv.key with
  | none => exact absurd rfl (get?_none.mp hget kv h)
  | some kv' =>
    obtain ⟨hmem, hkey⟩ := get?_some hget
    rw [List.inj_on_of_nodup_map hnd hmem h hkey]

/-- Create and mod revisions are ordered, and bounded by the revision reached. -/
theorem revisions_bounded {log : List Event} {rev : Int} {kvs : List KeyValue}
    (hl : Legal kvs log)
    (hord : log.Pairwise fun a b => a.revision ≤ b.revision)
    (hb : ∀ ev ∈ log, 2 ≤ ev.revision ∧ ev.revision ≤ rev)
    (hkvs : ∀ kv ∈ kvs, 2 ≤ kv.createRevision ∧ kv.createRevision ≤ kv.modRevision ∧
      kv.modRevision ≤ rev ∧ ∀ ev ∈ log, kv.modRevision ≤ ev.revision) :
    ∀ kv ∈ log.foldl applyEvent kvs, 2 ≤ kv.createRevision ∧
      kv.createRevision ≤ kv.modRevision ∧ kv.modRevision ≤ rev := by
  induction log generalizing kvs with
  | nil =>
    intro kv hkv
    have := hkvs kv hkv
    exact ⟨this.1, this.2.1, this.2.2.1⟩
  | cons ev log ih =>
    rw [List.pairwise_cons] at hord
    refine ih hl.2 hord.2 (fun ev' h => hb ev' (by simp [h])) ?_
    intro kv hkv
    rcases mem_applyEvent.mp hkv with ⟨hmem, _⟩ | ⟨hput, rfl⟩
    · obtain ⟨h1, h2, h3, h4⟩ := hkvs kv hmem
      exact ⟨h1, h2, h3, fun ev' h => h4 ev' (by simp [h])⟩
    -- the node just written: its create revision is old, or the event's own
    · have hev := hb ev (by simp)
      have hleg : ev.kv.createRevision =
          ((get? kvs ev.kv.key).map (·.createRevision)).getD ev.revision := by
        have h := hl.1
        simp only [LegalEvent, hput] at h
        exact h.1
      have hcr : 2 ≤ ev.kv.createRevision ∧ ev.kv.createRevision ≤ ev.revision := by
        rw [hleg]
        cases hget : get? kvs ev.kv.key with
        | none => exact ⟨hev.1, by simp⟩
        | some old =>
          obtain ⟨h1, h2, _, h4⟩ := hkvs old (get?_some hget).1
          have h5 := h4 ev (by simp)
          simp only [Option.map_some, Option.getD_some]
          omega
      exact ⟨hcr.1, hcr.2, hev.2, hord.1⟩

namespace Store

theorem kvs_nodup (e : Store) : (e.kvs.map (·.key)).Nodup := keys_nodup e.legal

theorem get?_kvs {e : Store} {k : Bytes} {kv : KeyValue} (h : kv ∈ e.kvs) (hk : kv.key = k) :
    get? e.kvs k = some kv :=
  hk ▸ get?_of_mem e.kvs_nodup h

theorem kvs_bounded (e : Store) : ∀ kv ∈ e.kvs, 2 ≤ kv.createRevision ∧
    kv.createRevision ≤ kv.modRevision ∧ kv.modRevision ≤ e.revision :=
  revisions_bounded e.legal e.ordered e.bounded (by simp)

/-- A node is a key together with the revision of its creation. -/
def HasNode (e : Store) (k : Bytes) (r : Int) : Prop :=
  ∃ kv ∈ e.kvs, kv.key = k ∧ kv.createRevision = r

instance (e : Store) (k : Bytes) (r : Int) : Decidable (e.HasNode k r) :=
  inferInstanceAs (Decidable (∃ kv ∈ e.kvs, kv.key = k ∧ kv.createRevision = r))

theorem HasNode.bounded {e : Store} {k : Bytes} {r : Int} (h : e.HasNode k r) :
    2 ≤ r ∧ r ≤ e.revision := by
  obtain ⟨kv, hkv, -, rfl⟩ := h
  have := e.kvs_bounded kv hkv
  omega

end Store

/-- One legal event: a node of the new content was there before, or the event
created it. -/
theorem node_applyEvent {kvs : List KeyValue} {ev : Event} (hl : LegalEvent kvs ev)
    {kv : KeyValue} (h : kv ∈ applyEvent kvs ev) :
    (∃ old ∈ kvs, old.key = kv.key ∧ old.createRevision = kv.createRevision) ∨
    kv.createRevision = ev.revision := by
  rcases mem_applyEvent.mp h with ⟨hmem, _⟩ | ⟨hput, rfl⟩
  · exact Or.inl ⟨kv, hmem, rfl, rfl⟩
  · simp only [LegalEvent, hput] at hl
    cases hget : get? kvs ev.kv.key with
    | none =>
      right
      rw [hl.1, hget]
      rfl
    | some old =>
      left
      obtain ⟨hmem, hkey⟩ := get?_some hget
      refine ⟨old, hmem, hkey, ?_⟩
      rw [hl.1, hget]
      rfl

/-- One legal event: a node is still there afterwards, or the event deleted it. -/
theorem node_survives {kvs : List KeyValue} {ev : Event} (hl : LegalEvent kvs ev)
    {kv : KeyValue} (hnd : (kvs.map (·.key)).Nodup) (h : kv ∈ kvs) :
    (∃ new ∈ applyEvent kvs ev, new.key = kv.key ∧ new.createRevision = kv.createRevision) ∨
    (ev.type = .delete ∧ ev.kv.key = kv.key ∧ ev.prevKv = kv) := by
  by_cases hk : kv.key = ev.kv.key
  · have hget : get? kvs ev.kv.key = some kv := hk ▸ get?_of_mem hnd h
    cases ht : ev.type with
    | put =>
      left
      refine ⟨ev.kv, mem_applyEvent.mpr (Or.inr ⟨ht, rfl⟩), hk.symm, ?_⟩
      simp only [LegalEvent, ht, hget] at hl
      exact hl.1
    | delete =>
      right
      simp only [LegalEvent, ht, hget, Option.some.injEq] at hl
      exact ⟨rfl, hk.symm, hl.symm⟩
  · exact Or.inl ⟨kv, mem_applyEvent.mpr (Or.inl ⟨h, hk⟩), rfl, rfl⟩

namespace Store

variable {e : Store} {ops : List RequestOp}

/-- A node present after a commit was present before it, or is new and has the
new revision as its create revision. -/
theorem hasNode_of_commit {k : Bytes} {r : Int} (h : (e.commit ops).HasNode k r) :
    e.HasNode k r ∨ r = e.revision + 1 := by
  have key : ∀ kv ∈ (e.commit ops).kvs,
      e.HasNode kv.key kv.createRevision ∨ kv.createRevision = e.revision + 1 := by
    rw [commit_kvs]
    refine content_invariant (P := fun kvs => ∀ kv ∈ kvs,
      e.HasNode kv.key kv.createRevision ∨ kv.createRevision = e.revision + 1) ?_
      (e.newEvents_legal ops) (fun kv hkv => Or.inl ⟨kv, hkv, rfl, rfl⟩)
    intro kvs ev hev ih hl kv hkv
    rcases node_applyEvent hl hkv with ⟨old, hold, hk, hr⟩ | hr
    · rw [← hk, ← hr]
      exact ih old hold
    · exact Or.inr (hr.trans (e.newEvents_revision ops ev hev))
  obtain ⟨kv, hkv, rfl, rfl⟩ := h
  exact key kv hkv

/-- A node is still present after a commit, or the commit logged its deletion. -/
theorem hasNode_commit_or_deleted (ops : List RequestOp) {k : Bytes} {r : Int}
    (h : e.HasNode k r) :
    (e.commit ops).HasNode k r ∨
    ∃ ev ∈ e.newEvents ops, ev.type = .delete ∧ ev.kv.key = k ∧ ev.prevKv.key = k := by
  have key : ((((e.newEvents ops).foldl applyEvent e.kvs).map (·.key)).Nodup ∧
      ((∃ kv ∈ (e.newEvents ops).foldl applyEvent e.kvs,
        kv.key = k ∧ kv.createRevision = r) ∨
      ∃ ev ∈ e.newEvents ops, ev.type = .delete ∧ ev.kv.key = k ∧ ev.prevKv.key = k)) := by
    refine content_invariant (P := fun kvs => (kvs.map (·.key)).Nodup ∧
      ((∃ kv ∈ kvs, kv.key = k ∧ kv.createRevision = r) ∨
      ∃ ev ∈ e.newEvents ops, ev.type = .delete ∧ ev.kv.key = k ∧ ev.prevKv.key = k)) ?_
      (e.newEvents_legal ops) ⟨e.kvs_nodup, Or.inl h⟩
    rintro kvs ev hev ⟨hnd, ih⟩ hl
    refine ⟨nodup_applyEvent hnd, ?_⟩
    rcases ih with ⟨kv, hkv, hk, hr⟩ | hdel
    · rcases node_survives hl hnd hkv with ⟨new, hnew, hk', hr'⟩ | ⟨ht, hkey, hprev⟩
      · exact Or.inl ⟨new, hnew, hk'.trans hk, hr'.trans hr⟩
      · exact Or.inr ⟨ev, hev, ht, hkey.trans hk, by rw [hprev, hk]⟩
    · exact Or.inr hdel
  rcases key.2 with hnode | hdel
  · left
    unfold HasNode
    rw [commit_kvs]
    exact hnode
  · exact Or.inr hdel

end Store

/-! ## The values of the nodes -/

/-- A put event comes from a put. -/
theorem runOps_put {rev : Int} {kvs : List KeyValue} {ops : List RequestOp} {ev : Event}
    (hev : ev ∈ (runOps rev kvs ops).1) (hput : ev.type = .put) :
    ∃ v l, .put ev.kv.key v l ∈ ops := by
  induction ops generalizing kvs with
  | nil => cases hev
  | cons op ops ih =>
    rcases List.mem_append.mp hev with hop | hrest
    · cases op with
      | range k => cases hop
      | put k v l =>
        rw [List.mem_singleton.mp hop]
        exact ⟨v, l, List.mem_cons_self⟩
      | deleteRange k =>
        simp only [runOp] at hop
        split at hop
        · cases hop
        · rw [List.mem_singleton.mp hop] at hput
          cases hput
    · rcases ih hrest with ⟨v, l, hmem⟩
      exact ⟨v, l, List.mem_cons_of_mem _ hmem⟩

/-- A DELETE event comes from a deletion of its key. -/
theorem runOps_delete {rev : Int} {kvs : List KeyValue} {ops : List RequestOp} {ev : Event}
    (hev : ev ∈ (runOps rev kvs ops).1) (hdel : ev.type = .delete) :
    .deleteRange ev.kv.key ∈ ops := by
  induction ops generalizing kvs with
  | nil => cases hev
  | cons op ops ih =>
    rcases List.mem_append.mp hev with hop | hrest
    · cases op with
      | range k => cases hop
      | put k v l =>
        rw [List.mem_singleton.mp hop] at hdel
        cases hdel
      | deleteRange k =>
        simp only [runOp] at hop
        split at hop
        · cases hop
        · rw [List.mem_singleton.mp hop]
          exact List.mem_cons_self
    · exact List.mem_cons_of_mem _ (ih hrest)

namespace Store

variable {e : Store} {ops : List RequestOp}

/-- A node stays where its key is not deleted. -/
theorem HasNode.commit {k : Bytes} {r : Int} (h : e.HasNode k r) (hno : .deleteRange k ∉ ops) :
    (e.commit ops).HasNode k r := by
  rcases hasNode_commit_or_deleted ops h with hkept | ⟨ev, hev, hdel, hkey, _⟩
  · exact hkept
  · have hmem := runOps_delete hev hdel
    rw [hkey] at hmem
    exact absurd hmem hno

/-- A key that a transaction deletes, and does nothing else, is gone. -/
theorem key_of_delete {k : Bytes} {kv : KeyValue} (h : kv ∈ (e.commit [.deleteRange k]).kvs) :
    kv.key ≠ k := by
  rw [commit_kvs, newEvents] at h
  cases hget : get? e.kvs k with
  | none =>
    rw [show runOps (e.revision + 1) e.kvs [.deleteRange k] = ([], [.deleteRange 0]) by
      simp [runOps, runOp, hget]] at h
    exact get?_none.mp hget kv h
  | some old =>
    simp only [runOps, runOp, hget, List.append_nil, List.foldl_cons, List.foldl_nil] at h
    rcases mem_applyEvent.mp h with ⟨_, hne⟩ | ⟨hput, _⟩
    · exact hne
    · cases hput

/-- The node with that key and create revision, if there is one, has that value. -/
def Stored (e : Store) (k : Bytes) (r : Int) (v : Bytes) : Prop :=
  ∀ kv ∈ e.kvs, kv.key = k → kv.createRevision = r → kv.value = v

/-- Without a put on a key, its node stays as it is, or goes. -/
theorem mem_kvs_of_commit {k : Bytes} (hno : ∀ v l, .put k v l ∉ ops) {kv : KeyValue}
    (hkv : kv ∈ (e.commit ops).kvs) (hk : kv.key = k) : kv ∈ e.kvs := by
  rw [commit_kvs] at hkv
  have hall : ∀ kv ∈ (e.newEvents ops).foldl applyEvent e.kvs, kv.key = k → kv ∈ e.kvs := by
    refine content_invariant (P := fun kvs => ∀ kv ∈ kvs, kv.key = k → kv ∈ e.kvs) ?_
      (e.newEvents_legal ops) (fun _ h _ => h)
    intro kvs ev hev ih _ kv hkv hk
    rcases mem_applyEvent.mp hkv with ⟨hold, _⟩ | ⟨hput, rfl⟩
    · exact ih kv hold hk
    · rcases runOps_put hev hput with ⟨v, l, hmem⟩
      exact absurd (hk ▸ hmem) (hno v l)
  exact hall kv hkv hk

theorem Stored.commit {k : Bytes} {r : Int} {v : Bytes} (h : e.Stored k r v)
    (hno : ∀ v l, .put k v l ∉ ops) : (e.commit ops).Stored k r v := by
  intro kv hkv hk hr
  exact h kv (mem_kvs_of_commit hno hkv hk) hk hr

/-- The node that a put leaves. -/
theorem kvs_commit_put (e : Store) (k v : Bytes) (l : UInt64) :
    (e.commit [.put k v l]).kvs = without e.kvs k ++ [{
      key := k
      value := v
      createRevision := ((get? e.kvs k).map (·.createRevision)).getD (e.revision + 1)
      modRevision := e.revision + 1
      lease := l }] := by
  rw [commit_kvs]
  rfl

/-- A put stores its value, whatever the create revision. -/
theorem stored_put (e : Store) (k v : Bytes) (l : UInt64) (r : Int) :
    (e.commit [.put k v l]).Stored k r v := by
  intro kv hkv hk _
  rw [kvs_commit_put] at hkv
  rcases List.mem_append.mp hkv with hold | hnew
  · exact absurd hk (mem_without.mp hold).2
  · rw [List.mem_singleton.mp hnew]

/-- A commit that makes no event leaves the store alone. -/
theorem commit_of_no_event (h : e.newEvents ops = []) : e.commit ops = e := if_pos h

end Store

end GeeH.Etcd
