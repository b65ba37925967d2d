import GeeH.Etcd.Service

/-!
# GeeH.Etcd.History — facts about whole histories

Where every transaction puts at most one key, a create revision belongs to one
key for ever: the node behind it was created by the one put of that revision
(`create_determines_key`). Elections order their nodes by create revision, so
this is what makes the order strict.
-/

namespace GeeH.Etcd

/-! ## The put that created a node -/

/-- The put in the history that created a node. -/
def CreatedIn (log : List Event) (k : Bytes) (r : Int) : Prop :=
  ∃ ev ∈ log, ev.type = .put ∧ ev.kv.key = k ∧ ev.revision = r ∧ ev.kv.createRevision = r

theorem CreatedIn.mono {log log' : List Event} (hsub : log ⊆ log') {k : Bytes} {r : Int}
    (h : CreatedIn log k r) : CreatedIn log' k r := by
  obtain ⟨ev, hev, hrest⟩ := h
  exact ⟨ev, hsub hev, hrest⟩

/-- Every node that a legal history leaves behind was created by one of its puts. -/
theorem created_of_mem_replay {log : List Event} (hl : Legal [] log) :
    ∀ kv ∈ replay log, CreatedIn log kv.key kv.createRevision := by
  refine content_invariant (P := fun kvs => ∀ kv ∈ kvs, CreatedIn log kv.key kv.createRevision)
    ?_ hl (by simp)
  intro kvs ev hev ih hleg kv hkv
  rcases mem_applyEvent.mp hkv with ⟨hmem, _⟩ | ⟨hput, rfl⟩
  · exact ih kv hmem
  · rcases node_applyEvent hleg hkv with ⟨old, hold, hkey, hcr⟩ | hcr
    · rw [← hkey, ← hcr]
      exact ih old hold
    · exact ⟨ev, hev, hput, rfl, hcr.symm, rfl⟩

/-! ## One put for each revision -/

/-- No revision has two puts. -/
def OnePut (log : List Event) : Prop :=
  log.Pairwise fun a b => a.type = .put → b.type = .put → a.revision ≠ b.revision

/-- The requests that change or create a node. -/
def RequestOp.isPut : RequestOp → Bool
  | .put _ _ _ => true
  | _ => false

/-- Operations of one transaction that put at most one key. -/
def SinglePut (ops : List RequestOp) : Prop := (ops.countP fun op => op.isPut) ≤ 1

instance (ops : List RequestOp) : Decidable (SinglePut ops) :=
  inferInstanceAs (Decidable (_ ≤ _))

/-- Both branches of a Txn put at most one key. -/
def TxnRequest.SinglePut (req : TxnRequest) : Prop :=
  Etcd.SinglePut req.success ∧ Etcd.SinglePut req.failure

theorem runOp_puts (rev : Int) (kvs : List KeyValue) (op : RequestOp) :
    ((runOp rev kvs op).1.countP fun ev => ev.type = .put) ≤ op.isPut.toNat := by
  cases op with
  | range k => simp [runOp]
  | put k v l => simp [runOp, RequestOp.isPut]
  | deleteRange k => cases hget : get? kvs k <;> simp [runOp, hget]

theorem runOps_puts (rev : Int) (kvs : List KeyValue) (ops : List RequestOp) :
    ((runOps rev kvs ops).1.countP fun ev => ev.type = .put) ≤
      ops.countP fun op => op.isPut := by
  induction ops generalizing kvs with
  | nil => simp [runOps]
  | cons op ops ih =>
    have hop := runOp_puts rev kvs op
    have hops := ih ((runOp rev kvs op).1.foldl applyEvent kvs)
    simp only [runOps, List.countP_append, List.countP_cons]
    cases hput : op.isPut <;> simp only [hput, Bool.toNat_true, Bool.toNat_false] at hop ⊢ <;>
      simp <;> omega

/-- A list with at most one put has no two puts. -/
theorem onePut_of_countP {log : List Event}
    (h : (log.countP fun ev => ev.type = .put) ≤ 1) : OnePut log := by
  induction log with
  | nil => exact List.Pairwise.nil
  | cons ev log ih =>
    simp only [List.countP_cons] at h
    refine List.pairwise_cons.mpr ⟨?_, ih (by omega)⟩
    intro b hb hev hbput
    have hpos : 0 < log.countP fun ev => ev.type = .put :=
      List.countP_pos_iff.mpr ⟨b, hb, by simpa using hbput⟩
    simp only [hev, decide_true, if_true] at h
    omega

namespace Store

variable {e : Store} {ops : List RequestOp}

theorem onePut_commit (h : OnePut e.log) (hops : SinglePut ops) : OnePut (e.commit ops).log := by
  rw [commit_log]
  have hnew : OnePut (e.newEvents ops) := onePut_of_countP ((runOps_puts _ _ _).trans hops)
  refine List.pairwise_append.mpr ⟨h, hnew, ?_⟩
  intro a ha b hb _ _
  have hle := (e.bounded a ha).2
  have hb := e.newEvents_revision ops b hb
  omega

theorem onePut_txn {req : TxnRequest} (h : OnePut e.log) (hreq : req.SinglePut) :
    OnePut (e.txn req).log := by
  refine onePut_commit h ?_
  unfold branch
  split
  · exact hreq.1
  · exact hreq.2

end Store

/-- With one put for each revision, a create revision belongs to one key. -/
theorem createdIn_key {log : List Event} (h : OnePut log) {k k' : Bytes} {r : Int}
    (hk : CreatedIn log k r) (hk' : CreatedIn log k' r) : k = k' := by
  rcases hk with ⟨p, hp, hput, hkey, hrev, -⟩
  rcases hk' with ⟨q, hq, hput', hkey', hrev', -⟩
  by_cases hpq : p = q
  · rw [← hkey, ← hkey', hpq]
  -- two different puts of one revision
  · have hsymm : Std.Symm fun a b : Event =>
        a.type = .put → b.type = .put → a.revision ≠ b.revision :=
      ⟨fun a b hab hb ha => (hab ha hb).symm⟩
    have hne := List.Pairwise.forall h hp hq hpq hput hput'
    exact absurd (hrev.trans hrev'.symm) hne

theorem Store.create_determines_key {e : Store} (h : OnePut e.log) {k k' : Bytes} {r : Int}
    (hk : e.HasNode k r) (hk' : e.HasNode k' r) : k = k' := by
  rcases hk with ⟨kv, hkv, rfl, rfl⟩
  rcases hk' with ⟨kv', hkv', rfl, hr⟩
  have hcr := created_of_mem_replay e.legal kv hkv
  have hcr' := created_of_mem_replay e.legal kv' hkv'
  rw [hr] at hcr'
  exact createdIn_key h hcr hcr'

/-! ## The last event of a node -/

/-- The create revision of the node that an event is about. -/
def Event.node (ev : Event) : Int :=
  match ev.type with
  | .put => ev.kv.createRevision
  | .delete => ev.prevKv.createRevision

/-- What an event leaves of its node. -/
def Event.left (ev : Event) : Option KeyValue :=
  match ev.type with
  | .put => some ev.kv
  | .delete => none

theorem left_some {ev : Event} {kv : KeyValue} (h : ev.left = some kv) :
    ev.type = .put ∧ ev.kv = kv := by
  unfold Event.left at h
  split at h
  · exact ⟨‹_›, Option.some.inj h⟩
  · cases h

/-- The last event about the node created at revision `r`. -/
def lastFor (r : Int) (log : List Event) : Option Event :=
  log.reverse.find? fun ev => ev.node = r

@[simp] theorem lastFor_nil (r : Int) : lastFor r [] = none := rfl

theorem lastFor_concat (r : Int) (log : List Event) (ev : Event) :
    lastFor r (log ++ [ev]) = if ev.node = r then some ev else lastFor r log := by
  unfold lastFor
  by_cases h : ev.node = r <;> simp [h]

theorem lastFor_some {r : Int} {log : List Event} {ev : Event} (h : lastFor r log = some ev) :
    ev ∈ log ∧ ev.node = r := by
  constructor
  · exact List.mem_reverse.mp (List.mem_of_find?_eq_some h)
  · simpa using List.find?_some h

theorem lastFor_none {r : Int} {log : List Event} :
    lastFor r log = none ↔ ∀ ev ∈ log, ev.node ≠ r := by
  simp [lastFor]

/-- The last event of a node is still the last one after leaving out others. -/
theorem lastFor_filter {r : Int} {log : List Event} {ev : Event} (p : Event → Bool)
    (h : lastFor r log = some ev) (hp : p ev = true) : lastFor r (log.filter p) = some ev := by
  induction log using List.reverseRecOn with
  | nil => cases h
  | append_singleton log x ih =>
    rw [lastFor_concat] at h
    rw [List.filter_append]
    by_cases hx : x.node = r
    · rw [if_pos hx] at h
      cases h
      rw [List.filter_singleton, hp, cond_true, lastFor_concat, if_pos hx]
    · rw [if_neg hx] at h
      rw [List.filter_singleton]
      cases p x with
      | true => rw [cond_true, lastFor_concat, if_neg hx, ih h]
      | false => rw [cond_false, List.append_nil, ih h]

/-- No event of a node is later than the last one. -/
theorem revision_le_lastFor {log : List Event}
    (hord : log.Pairwise fun a b => a.revision ≤ b.revision) {ev : Event} (hev : ev ∈ log) :
    ∃ last, lastFor ev.node log = some last ∧ ev.revision ≤ last.revision := by
  induction log using List.reverseRecOn with
  | nil => cases hev
  | append_singleton log x ih =>
    rw [lastFor_concat]
    rcases List.pairwise_append.mp hord with ⟨hlog, _, hlast⟩
    rcases List.mem_append.mp hev with hold | hx
    · by_cases hnode : x.node = ev.node
      · rw [if_pos hnode]
        exact ⟨x, rfl, hlast ev hold x (by simp)⟩
      · rw [if_neg hnode]
        exact ih hlog hold
    · rw [List.mem_singleton.mp hx, if_pos rfl]
      exact ⟨x, rfl, le_refl _⟩

/-- In a legal history an event is what an operation does to the content before it. -/
theorem legal_at {l₁ l₂ : List Event} {ev : Event} (h : Legal [] (l₁ ++ ev :: l₂)) :
    LegalEvent (replay l₁) ev := (legal_append.mp h).2.1

/-- The node that an event is about was created by a put of the history. -/
theorem created_of_mem {log : List Event} (hl : Legal [] log) {ev : Event} (hev : ev ∈ log) :
    CreatedIn log ev.kv.key ev.node := by
  rcases List.append_of_mem hev with ⟨l₁, l₂, rfl⟩
  have hleg := legal_at hl
  have hl₁ : Legal [] l₁ := (legal_append.mp hl).1
  have hsub : l₁ ⊆ l₁ ++ ev :: l₂ := List.subset_append_left _ _
  cases ht : ev.type with
  | put =>
    have hnode : ev.node = ev.kv.createRevision := by simp [Event.node, ht]
    have hmem : ev.kv ∈ applyEvent (replay l₁) ev := mem_applyEvent.mpr (Or.inr ⟨ht, rfl⟩)
    rw [hnode]
    rcases node_applyEvent hleg hmem with ⟨old, hold, hkey, hcr⟩ | hcr
    -- an update: the node is older
    · rw [← hkey, ← hcr]
      exact (created_of_mem_replay hl₁ old hold).mono hsub
    · exact ⟨ev, hev, ht, rfl, hcr.symm, rfl⟩
  | delete =>
    have hnode : ev.node = ev.prevKv.createRevision := by simp [Event.node, ht]
    have hget : get? (replay l₁) ev.kv.key = some ev.prevKv := by simpa [LegalEvent, ht] using hleg
    rcases get?_some hget with ⟨hmem, hkey⟩
    rw [hnode, ← hkey]
    exact (created_of_mem_replay hl₁ ev.prevKv hmem).mono hsub

/-- The content is what the last events of the nodes leave. -/
def LeftByLast (log : List Event) : Prop :=
  ∀ kv, kv ∈ replay log ↔
    ∃ ev, lastFor kv.createRevision log = some ev ∧ ev.type = .put ∧ ev.kv = kv

/-- Then two nodes with one create revision are one node. -/
theorem LeftByLast.unique {log : List Event} (h : LeftByLast log) {a b : KeyValue}
    (ha : a ∈ replay log) (hb : b ∈ replay log) (hab : a.createRevision = b.createRevision) :
    a = b := by
  rcases (h a).mp ha with ⟨ea, hea, _, rfl⟩
  rcases (h b).mp hb with ⟨eb, heb, _, rfl⟩
  rw [hab, heb] at hea
  rw [Option.some.inj hea]

/-- A node of the content with the create revision of a put is the one it updates. -/
theorem LeftByLast.key_of_put {log : List Event} {ev : Event} (h : LeftByLast log)
    (hl : Legal [] (log ++ [ev])) (hone : OnePut (log ++ [ev])) (ht : ev.type = .put)
    {kv : KeyValue} (hkv : kv ∈ replay log) (hcr : kv.createRevision = ev.kv.createRevision) :
    kv.key = ev.kv.key := by
  have hmem : ev.kv ∈ applyEvent (replay log) ev := mem_applyEvent.mpr (Or.inr ⟨ht, rfl⟩)
  rcases node_applyEvent (legal_at hl) hmem with ⟨old, hold, hkey, hcr'⟩ | hfresh
  · rw [h.unique hkv hold (hcr.trans hcr'.symm), hkey]
  · rcases created_of_mem_replay (legal_append.mp hl).1 kv hkv with ⟨p, hp, hput, _, hrev, _⟩
    have hne := (List.pairwise_append.mp hone).2.2 p hp ev List.mem_cons_self hput ht
    exact absurd (hrev.trans (hcr.trans hfresh)) hne

/-- The node of an event is the one that its key had before it. -/
theorem node_of_key {log : List Event} {ev : Event} {kv : KeyValue}
    (hl : Legal [] (log ++ [ev])) (hkv : kv ∈ replay log) (hkey : kv.key = ev.kv.key) :
    ev.node = kv.createRevision := by
  have hleg : LegalEvent (replay log) ev := legal_at hl
  have hget : get? (replay log) ev.kv.key = some kv :=
    hkey ▸ get?_of_mem (keys_nodup (legal_append.mp hl).1) hkv
  cases ht : ev.type with
  | put =>
    -- a put on the key of a node keeps its create revision
    simp only [LegalEvent, ht, hget] at hleg
    simpa [Event.node, ht] using hleg.1
  | delete =>
    have hprev : get? (replay log) ev.kv.key = some ev.prevKv := by
      simpa [LegalEvent, ht] using hleg
    rw [hget] at hprev
    simp [Event.node, ht, Option.some.inj hprev]

/-- An event changes its node. -/
theorem LeftByLast.mem_of_node {log : List Event} {ev : Event} {kv : KeyValue}
    (h : LeftByLast log) (hl : Legal [] (log ++ [ev])) (hone : OnePut (log ++ [ev]))
    (hnode : ev.node = kv.createRevision) :
    kv ∈ applyEvent (replay log) ev ↔ ev.type = .put ∧ ev.kv = kv := by
  rw [mem_applyEvent]
  cases ht : ev.type with
  | put =>
    have hcr : ev.kv.createRevision = kv.createRevision := by simpa [Event.node, ht] using hnode
    constructor
    · rintro (⟨hmem, hne⟩ | ⟨_, rfl⟩)
      · exact absurd (h.key_of_put hl hone ht hmem hcr.symm) hne
      · exact ⟨rfl, rfl⟩
    · rintro ⟨_, rfl⟩
      exact Or.inr ⟨rfl, rfl⟩
  | delete =>
    have hcr : ev.prevKv.createRevision = kv.createRevision := by
      simpa [Event.node, ht] using hnode
    have hleg : LegalEvent (replay log) ev := legal_at hl
    rcases get?_some (by simpa [LegalEvent, ht] using hleg) with ⟨hprev, hkeyprev⟩
    constructor
    · rintro (⟨hmem, hne⟩ | ⟨hput, _⟩)
      · rw [h.unique hmem hprev hcr.symm] at hne
        exact absurd hkeyprev hne
      · cases hput
    · rintro ⟨hput, _⟩
      cases hput

/-- And it leaves the other nodes alone. -/
theorem mem_of_other_node {log : List Event} {ev : Event} {kv : KeyValue}
    (hl : Legal [] (log ++ [ev])) (hnode : ev.node ≠ kv.createRevision) :
    kv ∈ applyEvent (replay log) ev ↔ kv ∈ replay log := by
  rw [mem_applyEvent]
  constructor
  · rintro (⟨hmem, _⟩ | ⟨hput, rfl⟩)
    · exact hmem
    · exact absurd (by simp [Event.node, hput]) hnode
  · intro hmem
    exact Or.inl ⟨hmem, fun hkey => hnode (node_of_key hl hmem hkey)⟩

theorem leftByLast {log : List Event} (hl : Legal [] log) (h : OnePut log) :
    LeftByLast log := by
  -- by induction on the history, from its end
  induction log using List.reverseRecOn with
  | nil =>
    intro kv
    simp [replay]
  | append_singleton log ev ih =>
    intro kv
    have hlog : LeftByLast log := ih (legal_append.mp hl).1 (List.pairwise_append.mp h).1
    rw [replay_concat, lastFor_concat]
    by_cases hnode : ev.node = kv.createRevision
    · rw [if_pos hnode, hlog.mem_of_node hl h hnode]
      simp
    · rw [if_neg hnode, mem_of_other_node hl hnode]
      exact hlog kv

/-! ## Earlier revisions -/

/-- The events up to a revision come first. -/
theorem split_at_revision {log : List Event}
    (hord : log.Pairwise fun a b => a.revision ≤ b.revision) (rev : Int) :
    log = (log.filter fun ev => ev.revision ≤ rev) ++ log.filter fun ev => rev < ev.revision := by
  induction log with
  | nil => rfl
  | cons ev log ih =>
    rcases List.pairwise_cons.mp hord with ⟨hfirst, hrest⟩
    by_cases hle : ev.revision ≤ rev
    · have hlt : ¬ rev < ev.revision := by omega
      rw [List.filter_cons_of_pos (by simpa using hle), List.filter_cons_of_neg (by simpa using hlt),
        List.cons_append, ← ih hrest]
    -- from here on every event is later
    · have hnone : (log.filter fun ev' => ev'.revision ≤ rev) = [] := by
        rw [List.filter_eq_nil_iff]
        intro ev' hev'
        have := hfirst ev' hev'
        simp only [decide_eq_true_eq]
        omega
      have hall : (log.filter fun ev' => rev < ev'.revision) = log := by
        rw [List.filter_eq_self]
        intro ev' hev'
        have := hfirst ev' hev'
        simp only [decide_eq_true_eq]
        omega
      rw [List.filter_cons_of_neg (by simpa using hle),
        List.filter_cons_of_pos (by simpa using not_le.mp hle), hnone, hall, List.nil_append]

/-- The first events, as many as there are up to a revision, are those. -/
theorem take_at_revision {log : List Event}
    (hord : log.Pairwise fun a b => a.revision ≤ b.revision) (rev : Int) :
    log.take (log.filter fun ev => ev.revision ≤ rev).length =
      log.filter fun ev => ev.revision ≤ rev := by
  have hsplit := split_at_revision hord rev
  calc log.take (log.filter fun ev => ev.revision ≤ rev).length
      = ((log.filter fun ev => ev.revision ≤ rev) ++ log.filter fun ev => rev < ev.revision).take
          (log.filter fun ev => ev.revision ≤ rev).length := by rw [← hsplit]
    _ = log.filter fun ev => ev.revision ≤ rev := List.take_left

namespace Store

variable {e : Store} {ops : List RequestOp}

/-- The history up to a revision. -/
def logAt (e : Store) (rev : Int) : List Event := e.log.filter fun ev => ev.revision ≤ rev

theorem logAt_legal (e : Store) (rev : Int) : Legal [] (e.logAt rev) := by
  have hlegal := e.legal
  rw [split_at_revision e.ordered rev] at hlegal
  exact (legal_append.mp hlegal).1

theorem logAt_onePut (h : OnePut e.log) (rev : Int) : OnePut (e.logAt rev) :=
  h.sublist List.filter_sublist

theorem logAt_revision (e : Store) : e.logAt e.revision = e.log := by
  refine List.filter_eq_self.mpr ?_
  intro ev hev
  simpa using (e.bounded ev hev).2

theorem kvsAt_revision (e : Store) : e.kvsAt e.revision = e.kvs :=
  congrArg replay e.logAt_revision

theorem kvsAt_bounded (e : Store) (rev : Int) : ∀ kv ∈ e.kvsAt rev, 2 ≤ kv.createRevision ∧
    kv.createRevision ≤ kv.modRevision ∧ kv.modRevision ≤ rev := by
  refine revisions_bounded (e.logAt_legal rev) (e.ordered.sublist List.filter_sublist) ?_ (by simp)
  intro ev hev
  rcases List.mem_filter.mp hev with ⟨hmem, hle⟩
  exact ⟨(e.bounded ev hmem).1, by simpa using hle⟩

/-- A node of an earlier revision was created by a put of the history up to a later one. -/
theorem createdIn_of_kvsAt {rev rev' : Int} (hle : rev ≤ rev') {kv : KeyValue}
    (h : kv ∈ e.kvsAt rev) : CreatedIn (e.logAt rev') kv.key kv.createRevision := by
  refine (created_of_mem_replay (e.logAt_legal rev) kv h).mono ?_
  intro ev hev
  rcases List.mem_filter.mp hev with ⟨hmem, hrev⟩
  refine List.mem_filter.mpr ⟨hmem, ?_⟩
  simp only [decide_eq_true_eq] at hrev ⊢
  omega

/-- A write does not change the past. -/
theorem kvsAt_commit {rev : Int} (h : rev ≤ e.revision) :
    (e.commit ops).kvsAt rev = e.kvsAt rev := by
  unfold kvsAt
  rw [commit_log, List.filter_append]
  have hnone : ((e.newEvents ops).filter fun ev => ev.revision ≤ rev) = [] := by
    rw [List.filter_eq_nil_iff]
    intro ev hev
    have := e.newEvents_revision ops ev hev
    simp only [decide_eq_true_eq]
    omega
  rw [hnone, List.append_nil]

/-- A node present at a revision was there at an earlier one, or was created since. -/
theorem node_kvsAt {rev rev' : Int} (hle : rev ≤ rev') :
    ∀ kv ∈ e.kvsAt rev',
      (∃ old ∈ e.kvsAt rev, old.key = kv.key ∧ old.createRevision = kv.createRevision) ∨
      rev < kv.createRevision := by
  have hearly : (e.logAt rev').filter (fun ev => ev.revision ≤ rev) = e.logAt rev := by
    unfold logAt
    rw [List.filter_filter]
    refine List.filter_congr fun ev _ => ?_
    by_cases h : ev.revision ≤ rev
    · have h' : ev.revision ≤ rev' := by omega
      simp [h, h']
    · simp [h]
  have hsplit := split_at_revision (e.ordered.sublist (List.filter_sublist (p := fun ev =>
    ev.revision ≤ rev'))) rev
  have hsplit' : e.logAt rev' =
      e.logAt rev ++ (e.logAt rev').filter fun ev => rev < ev.revision := by
    rw [← hearly]
    exact hsplit
  have hlegal := e.logAt_legal rev'
  rw [hsplit'] at hlegal
  have hfold : e.kvsAt rev' =
      ((e.logAt rev').filter fun ev => rev < ev.revision).foldl applyEvent (e.kvsAt rev) := by
    show replay (e.logAt rev') = _
    conv_lhs => rw [hsplit']
    rw [replay, List.foldl_append]
    rfl
  rw [hfold]
  refine content_invariant (P := fun kvs => ∀ kv ∈ kvs,
    (∃ old ∈ e.kvsAt rev, old.key = kv.key ∧ old.createRevision = kv.createRevision) ∨
      rev < kv.createRevision) ?_ (legal_append.mp hlegal).2 ?_
  · intro kvs ev hev ih hleg kv hkv
    rcases node_applyEvent hleg hkv with ⟨old, hold, hkey, hcr⟩ | hcr
    · rw [← hkey, ← hcr]
      exact ih old hold
    · right
      have hlater : rev < ev.revision := by simpa using (List.mem_filter.mp hev).2
      omega
  · intro kv hkv
    exact Or.inl ⟨kv, hkv, rfl, rfl⟩

/-- A later state of a store: it remembers what the earlier one held, at every revision. -/
structure Extends (e e' : Store) : Prop where
  revision : e.revision ≤ e'.revision
  past : ∀ rev ≤ e.revision, e'.kvsAt rev = e.kvsAt rev

namespace Extends

variable {e' e'' : Store}

theorem refl (e : Store) : e.Extends e where
  revision := le_rfl
  past _ _ := rfl

theorem trans (h : e.Extends e') (h' : e'.Extends e'') : e.Extends e'' where
  revision := h.revision.trans h'.revision
  past rev hle := (h'.past rev (hle.trans h.revision)).trans (h.past rev hle)

theorem commit (e : Store) (ops : List RequestOp) : e.Extends (e.commit ops) where
  revision := e.le_commit_revision ops
  past _ hle := kvsAt_commit hle

/-- What a store holds now is what a later one held then. -/
theorem kvsAt_revision (h : e.Extends e') : e'.kvsAt e.revision = e.kvs :=
  (h.past e.revision le_rfl).trans e.kvsAt_revision

/-- A node that is present later is present already, or it is created in between. -/
theorem hasNode (h : e.Extends e') {k : Bytes} {r : Int} (hnode : e'.HasNode k r) :
    e.HasNode k r ∨ e.revision < r := by
  rcases hnode with ⟨kv, hkv, rfl, rfl⟩
  rw [← e'.kvsAt_revision] at hkv
  rcases node_kvsAt h.revision kv hkv with ⟨old, hold, hkey, hr⟩ | hnew
  · rw [h.kvsAt_revision] at hold
    exact .inl ⟨old, hold, hkey, hr⟩
  · exact .inr hnew

end Extends

end Store

end GeeH.Etcd
