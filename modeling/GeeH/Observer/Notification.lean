import GeeH.Observer.Rounds
import GeeH.Observer.System

/-!
# GeeH.Observer.Notification — when a round takes place, and whom it reaches

`on_watch_read()` handles all the events of a response before it calls the
subscribers, once, if one of the events changed the leader. What it has to tell
is the first entry of `participants_`, or that there is none (`front`).

A round is a loop over `subscriptions_` without the lock. `Recorded` writes down
who was registered when the lock was released, and who was called since then.
-/

namespace GeeH.Observer

open Etcd Machine

/-! ## Changes at the front -/

/-- The key and the value of the first entry, if there is one. -/
def front (p : Participants) : Option (Bytes × Bytes) :=
  p.first?.map fun entry => (entry.2.key, entry.2.value)

theorem report_eq_front (p : Participants) : report p = (front p).getD ([], []) := by
  unfold report front
  cases p.first? <;> rfl

/-- Distinct entries have distinct keys. -/
def DistinctKeys (p : Participants) : Prop := (p.entries.map fun entry => entry.2.key).Nodup

instance (p : Participants) : Decidable (DistinctKeys p) :=
  inferInstanceAs (Decidable (List.Nodup _))

/-- The events are consistent with the map: a create revision belongs to one key, and distinct
entries have distinct keys after each event. -/
def ConsistentEvents : Participants → List Event → Prop
  | _, [] => True
  | p, ev :: events =>
    (ev.type = .put → ∀ old ∈ p.find? ev.kv.createRevision, old.key = ev.kv.key) ∧
    DistinctKeys (handleEvent p ev).1 ∧ ConsistentEvents (handleEvent p ev).1 events

instance decidableConsistentEvents :
    ∀ (p : Participants) (events : List Event), Decidable (ConsistentEvents p events)
  | _, [] => inferInstanceAs (Decidable True)
  | p, ev :: events =>
    have := decidableConsistentEvents (handleEvent p ev).1 events
    inferInstanceAs (Decidable ((_ → _) ∧ DistinctKeys _ ∧ _))

variable {p : Participants}

theorem DistinctKeys.eq {r r' : Int} {kv kv' : KeyValue} (h : DistinctKeys p)
    (hr : p.find? r = some kv) (hr' : p.find? r' = some kv') (hkey : kv.key = kv'.key) : r = r' := by
  have hmem : (r, kv) ∈ p.entries := (OrdMap.lookup_eq_some p.sorted).mp hr
  have hmem' : (r', kv') ∈ p.entries := (OrdMap.lookup_eq_some p.sorted).mp hr'
  exact congrArg Prod.fst (List.inj_on_of_nodup_map h hmem hmem' hkey)

/-- A put reports a change if and only if it changes the front. -/
theorem handleNodePut_front {kv : KeyValue}
    (hkey : ∀ old ∈ p.find? kv.createRevision, old.key = kv.key)
    (hd : DistinctKeys (handleNodePut p kv).1) :
    (handleNodePut p kv).2 = true ↔ front (handleNodePut p kv).1 ≠ front p := by
  rw [handleNodePut_fst] at hd ⊢
  have hfirst' := p.first?_insert kv.createRevision kv
  cases hfirst : p.first? with
  | none =>
    -- the first node of all
    have hfind := OrdMap.first?_eq_none.mp hfirst kv.createRevision
    rw [hfirst] at hfirst'
    simp [handleNodePut, hfind, isFirst, front, hfirst, hfirst']
  | some entry =>
    rcases entry with ⟨r, first⟩
    obtain ⟨hfound, hleast⟩ := OrdMap.first?_eq_some.mp hfirst
    rw [hfirst] at hfirst'
    by_cases hle : kv.createRevision ≤ r
    · simp only [if_pos hle] at hfirst'
      cases hfind : p.find? kv.createRevision with
      | none =>
        -- a node in front of the leader, with another key
        have hne : r ≠ kv.createRevision := by
          rintro rfl
          rw [hfound] at hfind
          cases hfind
        have hnew : (p.insert kv.createRevision kv).find? kv.createRevision = some kv := by
          rw [OrdMap.find?_insert, if_pos rfl]
        have hold : (p.insert kv.createRevision kv).find? r = some first := by
          rw [OrdMap.find?_insert, if_neg hne, hfound]
        have hkeys : kv.key ≠ first.key := fun heq => hne (hd.eq hnew hold heq).symm
        simp [handleNodePut, hfind, isFirst, front, hfirst, hfirst', hkeys]
      | some old =>
        -- the leader itself
        obtain rfl : r = kv.createRevision := le_antisymm (hleast _ _ hfind) hle
        rw [hfound] at hfind
        cases hfind
        have hsame : first.key = kv.key := hkey first hfound
        simp [handleNodePut, hfound, isFirst, front, hfirst, hfirst', hsame]
    · simp only [if_neg hle] at hfirst'
      have hnot : isFirst (p.insert kv.createRevision kv) kv.createRevision = false := by
        simp only [isFirst, hfirst', Option.map_some, Option.some.injEq, decide_eq_false_iff_not]
        intro heq
        exact hle (le_of_eq heq.symm)
      have hflag : (handleNodePut p kv).2 = false := by
        unfold handleNodePut
        cases p.find? kv.createRevision <;> simp [hnot]
      simp [hflag, front, hfirst, hfirst']

/-- So does a deletion. -/
theorem handleNodeDelete_front {kv : KeyValue} (hd : DistinctKeys p) :
    (handleNodeDelete p kv).2 = true ↔ front (handleNodeDelete p kv).1 ≠ front p := by
  unfold handleNodeDelete
  cases hfind : p.find? kv.createRevision with
  | none => simp
  | some old =>
    cases hfirst : p.first? with
    | none =>
      rw [OrdMap.first?_eq_none.mp hfirst] at hfind
      cases hfind
    | some entry =>
      rcases entry with ⟨r, first⟩
      by_cases hr : r = kv.createRevision
      · subst hr
        refine iff_of_true (by simp [isFirst, hfirst]) ?_
        cases hfirst' : (p.erase kv.createRevision).first? with
        | none => simp [front, hfirst, hfirst']
        | some entry' =>
          -- the next in line has another key
          rcases entry' with ⟨r', next⟩
          have hnext := (OrdMap.first?_eq_some.mp hfirst').1
          rw [OrdMap.find?_erase] at hnext
          split at hnext
          · cases hnext
          · rename_i hne
            have hkeys : next.key ≠ first.key := fun heq =>
              hne (hd.eq hnext (OrdMap.first?_eq_some.mp hfirst).1 heq)
            simp [front, hfirst, hfirst', hkeys]
      · have hsame := OrdMap.first?_erase hfirst hr
        simp [isFirst, front, hfirst, hsame, hr]

theorem handleEvent_front {ev : Event}
    (hkey : ev.type = .put → ∀ old ∈ p.find? ev.kv.createRevision, old.key = ev.kv.key)
    (hd : DistinctKeys p) (hd' : DistinctKeys (handleEvent p ev).1) :
    (handleEvent p ev).2 = true ↔ front (handleEvent p ev).1 ≠ front p := by
  unfold handleEvent at hd' ⊢
  split at hd'
  · exact handleNodePut_front (hkey ‹_›) hd'
  · exact handleNodeDelete_front hd

/-! ## A response -/

/-- One of the events changes the front. -/
def Changes (p : Participants) (events : List Event) : Prop :=
  ∃ l₁ ev l₂, events = l₁ ++ ev :: l₂ ∧ front (observe p (l₁ ++ [ev])) ≠ front (observe p l₁)

theorem changes_cons (p : Participants) (ev : Event) (events : List Event) :
    Changes p (ev :: events) ↔
      front (handleEvent p ev).1 ≠ front p ∨ Changes (handleEvent p ev).1 events := by
  constructor
  · rintro ⟨l₁, ev', l₂, heq, hne⟩
    cases l₁ with
    | nil =>
      cases heq
      exact Or.inl hne
    | cons ev₁ l₁ =>
      cases heq
      exact Or.inr ⟨l₁, ev', l₂, rfl, hne⟩
  · rintro (hne | ⟨l₁, ev', l₂, rfl, hne⟩)
    · exact ⟨[], ev, events, rfl, hne⟩
    · exact ⟨ev :: l₁, ev', l₂, rfl, hne⟩

/-- Where no event changes the front, it is the same in the end. -/
theorem front_of_not_changes {events : List Event} (h : ¬ Changes p events) :
    front (observe p events) = front p := by
  induction events generalizing p with
  | nil => rfl
  | cons ev events ih =>
    rw [changes_cons, not_or] at h
    exact (ih h.2).trans (not_not.mp h.1)

theorem handleEvents_cons (p : Participants) (ev : Event) (events : List Event) :
    (handleEvents p (ev :: events)).2 =
      ((handleEvents (handleEvent p ev).1 events).2 || (handleEvent p ev).2) := by
  -- the flag so far is only ever added to
  have hfold : ∀ (events : List Event) (p : Participants) (flag : Bool),
      (events.foldl (fun st ev => ((handleEvent st.1 ev).1, (handleEvent st.1 ev).2 || st.2))
        (p, flag)).2 = ((handleEvents p events).2 || flag) := by
    intro events
    induction events with
    | nil =>
      intro p flag
      simp [handleEvents]
    | cons ev events ih =>
      intro p flag
      have hflag := ih (handleEvent p ev).1 ((handleEvent p ev).2 || flag)
      have hfalse := ih (handleEvent p ev).1 ((handleEvent p ev).2 || false)
      simp only [handleEvents, List.foldl_cons] at hflag hfalse ⊢
      rw [hflag, hfalse, Bool.or_false, Bool.or_assoc]
  calc (handleEvents p (ev :: events)).2
      = ((handleEvents (handleEvent p ev).1 events).2 || ((handleEvent p ev).2 || false)) :=
        hfold events _ _
    _ = ((handleEvents (handleEvent p ev).1 events).2 || (handleEvent p ev).2) := by
        rw [Bool.or_false]

/-- `leader_changed`, after the loop. -/
theorem handleEvents_changes {events : List Event} (hd : DistinctKeys p)
    (hev : ConsistentEvents p events) :
    (handleEvents p events).2 = true ↔ Changes p events := by
  induction events generalizing p with
  | nil =>
    refine iff_of_false (by simp [handleEvents]) ?_
    rintro ⟨l₁, ev, l₂, heq, -⟩
    simp at heq
  | cons ev events ih =>
    obtain ⟨hkey, hd', hrest⟩ := hev
    rw [handleEvents_cons, changes_cons, Bool.or_eq_true, ih hd' hrest, or_comm,
      handleEvent_front hkey hd hd']

@[simp] theorem postRead_rounds (c : Observer) : c.postRead.rounds = c.rounds := by
  unfold postRead
  split <;> rfl

/-- A response that is no cancellation calls the subscribers once if one of its events changes the
front, with the front after the last of them, and otherwise not at all. So it does if the front is
another one in the end. -/
theorem notification_exact (c : Observer) (resp : WatchResponse)
    (hactive : resp.canceled = false ∧ resp.compactRevision = 0)
    (hd : DistinctKeys c.participants) (hev : ConsistentEvents c.participants resp.events) :
    (c.onWatchRead true resp).participants = observe c.participants resp.events ∧
    (Changes c.participants resp.events →
      (c.onWatchRead true resp).rounds = c.rounds ++ [{
        tokens := c.subscriptions
        key := ((front (observe c.participants resp.events)).getD ([], [])).1
        value := ((front (observe c.participants resp.events)).getD ([], [])).2 }]) ∧
    (¬ Changes c.participants resp.events →
      (c.onWatchRead true resp).rounds = c.rounds) ∧
    (front (observe c.participants resp.events) ≠ front c.participants →
      Changes c.participants resp.events) := by
  have hiff := handleEvents_changes hd hev
  have hobserve := handleEvents_fst c.participants resp.events
  have hgoes : ¬ (resp.canceled || decide (resp.compactRevision ≠ 0)) = true := by
    simp [hactive.1, hactive.2]
  simp only [onWatchRead, Bool.not_true, Bool.false_eq_true, if_false, if_neg hgoes]
  refine ⟨?_, ?_, ?_, fun hne => not_not.mp (mt front_of_not_changes hne)⟩
  · rw [(postRead_keeps _).1, ← hobserve]
    split <;> rfl
  · intro hchanges
    let d := { c with
      watchId := resp.watchId
      participants := (handleEvents c.participants resp.events).1 }
    have hrep : ((d.leader.getD {}).key, (d.leader.getD {}).value) =
        (front (observe c.participants resp.events)).getD ([], []) := by
      rw [Notifier.report_leader, report_eq_front, ← hobserve]
    rw [if_pos (hiff.mpr hchanges), postRead_rounds, ← hrep]
    rfl
  · intro hno
    rw [if_neg (mt hiff.mp hno), postRead_rounds]

/-- The leader is deleted and another node takes its place, whose value is then updated. A third
one behind it does not matter. -/
theorem notification_exact_succession : ∃ (c : Observer) (resp : WatchResponse),
    c.subscriptions = {1} ∧ Changes c.participants resp.events ∧
    (c.onWatchRead true resp).rounds = [{ tokens := {1}, key := [2], value := [9] }] := by
  let n : KeyValue := { key := [1], value := [1], createRevision := 2 }
  let n' : KeyValue := { key := [2], value := [2], createRevision := 3 }
  let c : Observer := { Observer.init [] with
    subscriptions := {1}
    participants := (OrdMap.insert ∅ 2 n).insert 3 n' }
  let resp : WatchResponse := { events := [
    { type := .put, kv := { key := [3], createRevision := 4 } },
    { type := .delete, prevKv := n },
    { type := .put, kv := { n' with value := [9] } }] }
  have hexact := notification_exact c resp ⟨rfl, rfl⟩ (by decide) (by decide)
  have hchanges : Changes c.participants resp.events := hexact.2.2.2 (by decide)
  exact ⟨c, resp, rfl, hchanges, hexact.2.1 hchanges⟩

/-! ## A round -/

namespace Notifier

variable {n n' : Notifier}

/-- The application does not start a round. -/
theorem application_round (h : n.round = none) (b : Observer.Act) (c' : Observer) :
    (n.application b c').round = none := by
  unfold application
  cases registers n.obs b with
  | some told => simp [register, h]
  | none =>
    cases removes b with
    | some token => simp [unregister, h]
    | none => exact h

/-- A round starts with those who are registered. -/
theorem enter_round {k : Completion} {r : Visiting} (h : n.round = none)
    (hr : (n.enter k).round = some r) :
    r.undefined = false ∧ r.todo = (n.enter k).obs.subscriptions := by
  unfold enter at hr ⊢
  rcases hu : untilRound (n.obs.enter k).asyncOpDone k with ⟨c, _ | thenRead⟩
  · rw [hu] at hr
    exact absurd (h.symm.trans hr) (by simp)
  · rw [hu] at hr
    cases hr
    exact ⟨rfl, rfl⟩

theorem step_visit {token : Nat} (h : n.step (.visit token) = some n') :
    ∃ r, n.round = some r ∧ (token ∈ r.todo ∨ r.undefined = true) ∧ n'.obs = n.obs ∧
      n'.round = some { r with todo := r.todo.erase token, current := some token } := by
  simp only [Notifier.step] at h
  split at h
  · cases h
  · rename_i r hr
    obtain ⟨⟨-, htoken⟩, ⟨⟩⟩ := Option.ite_none_right_eq_some.mp h
    exact ⟨r, hr, htoken, rfl, rfl⟩

/-- A round that is not undefined ends when everybody was called. -/
theorem step_roundDone (h : n.step .roundDone = some n') :
    ∃ r, n.round = some r ∧ (r.todo = ∅ ∨ r.undefined = true) ∧ n'.round = none := by
  simp only [Notifier.step] at h
  split at h
  · cases h
  · rename_i r hr
    obtain ⟨hend, ⟨⟩⟩ := Option.ite_none_right_eq_some.mp h
    exact ⟨r, hr, hend, rfl⟩

end Notifier

/-- An observer whose rounds take time, with a record of the current round. -/
structure Recorded where
  notifier : Notifier
  /-- Ghost: who was registered when the lock was released. -/
  snapshot : Finset Nat := ∅
  /-- Ghost: who was called since then, and with what. -/
  called : List (Nat × Bytes × Bytes) := []

namespace Recorded

/-- The handler has run up to its round, if there is one. -/
def enter (s : Recorded) (n : Notifier) : Recorded :=
  if n.round.isSome then
    { notifier := n
      snapshot := n.obs.subscriptions }
  else { s with notifier := n }

/-- A subscriber is called. -/
def visit (s : Recorded) (n : Notifier) (token : Nat) : Recorded :=
  { s with
    notifier := n
    called := s.called ++ (s.notifier.round.map fun r => (token, r.key, r.value)).toList }

/-- One step of the notifier, written down. -/
def step (s : Recorded) : Notifier.Act → Option Recorded
  | .complete k => (s.notifier.step (.complete k)).map s.enter
  | .visit token => (s.notifier.step (.visit token)).map fun n => s.visit n token
  | .app a => (s.notifier.step (.app a)).map fun n => { s with notifier := n }
  | .roundDone => (s.notifier.step .roundDone).map fun n => { s with notifier := n }

/-- The machine. -/
def machine : Machine Recorded Notifier.Act where
  Init s := ∃ name, s = { notifier := .init name }
  step := step

/-- During a round nobody is registered, and only those are removed that were called and whose call
is over. -/
def Kind (s : Recorded) : Notifier.Act → Prop
  | .app a => ∀ r ∈ s.notifier.round, registers s.notifier.obs a = none ∧
      ∀ token ∈ removes a, token ∉ r.todo ∧ r.current ≠ some token
  | .complete _ | .visit _ | .roundDone => True

instance (s : Recorded) : DecidablePred s.Kind
  | .app _ => inferInstanceAs (Decidable (∀ r ∈ s.notifier.round, _ ∧ _))
  | .complete _ | .visit _ | .roundDone => inferInstanceAs (Decidable True)

variable {s s' : Recorded} {a : Notifier.Act}

/-- Whoever was registered has been called once or is still to be called. -/
structure Visited (s : Recorded) (r : Visiting) : Prop where
  defined : r.undefined = false
  once : (s.called.map Prod.fst).Nodup
  split : ∀ token, token ∈ s.snapshot ↔ token ∈ s.called.map Prod.fst ∨ token ∈ r.todo
  disjoint : ∀ token ∈ s.called.map Prod.fst, token ∉ r.todo
  same : ∀ entry ∈ s.called, entry.2 = (r.key, r.value)
  registered : r.todo ⊆ s.notifier.obs.subscriptions

/-- A step of the application that is kind to the round leaves it as it is. -/
theorem Visited.application {r : Visiting} {b : Observer.Act} {c' : Observer} {o : Outcome}
    (h : Visited s r) (hround : s.notifier.round = some r) (hkind : s.Kind (.app b))
    (happ : isApplication b = true) (hact : s.notifier.obs.act b = some (c', o)) :
    (s.notifier.application b c').round = some r ∧
      Visited { s with notifier := s.notifier.application b c' } r := by
  obtain ⟨hreg, hrem⟩ := hkind r hround
  have hsubs := (application_keeps happ hact).2
  rw [hreg] at hsubs
  unfold Notifier.application
  rw [hreg]
  cases ht : removes b with
  | none =>
    rw [ht] at hsubs
    refine ⟨hround, h.defined, h.once, h.split, h.disjoint, h.same, ?_⟩
    show r.todo ⊆ c'.subscriptions
    rw [hsubs]
    exact h.registered
  | some token =>
    rw [ht] at hsubs
    obtain ⟨htodo, hcur⟩ := hrem token ht
    refine ⟨?_, h.defined, h.once, h.split, h.disjoint, h.same, ?_⟩
    -- a token that is not to be called any more
    · simp only [Notifier.unregister, hround, Option.map_some, Finset.erase_eq_of_notMem htodo,
        hcur, decide_false, Bool.or_false]
    · show r.todo ⊆ c'.subscriptions
      rw [hsubs]
      exact Finset.subset_erase.mpr ⟨h.registered, htodo⟩

/-- The next subscriber is called. -/
theorem Visited.visit {r : Visiting} {token : Nat} {n : Notifier} (h : Visited s r)
    (hround : s.notifier.round = some r) (htoken : token ∈ r.todo)
    (hobs : n.obs = s.notifier.obs) :
    Visited (s.visit n token) { r with todo := r.todo.erase token, current := some token } := by
  have hcalled : (s.visit n token).called = s.called ++ [(token, r.key, r.value)] := by
    simp [Recorded.visit, hround]
  -- the one who is visited is among the called from now on
  have hmem : ∀ t, t ∈ (s.visit n token).called.map Prod.fst ↔
      t ∈ s.called.map Prod.fst ∨ t = token := by
    intro t
    rw [hcalled, List.map_append, List.mem_append]
    simp
  refine ⟨h.defined, ?_, ?_, ?_, ?_, ?_⟩
  · rw [hcalled, List.map_append]
    refine List.nodup_append.mpr ⟨h.once, by simp, ?_⟩
    rintro t ht _ ht' rfl
    obtain rfl : t = token := by simpa using ht'
    exact h.disjoint t ht htoken
  · intro t
    rw [hmem, Finset.mem_erase]
    refine (h.split t).trans ?_
    by_cases ht : t = token
    · simp [ht, htoken]
    · simp [ht]
  · intro t ht
    rw [Finset.mem_erase, not_and]
    rcases (hmem t).mp ht with ht | ht
    · exact fun _ => h.disjoint t ht
    · exact fun hne => absurd ht hne
  · intro entry hentry
    rw [hcalled] at hentry
    rcases List.mem_append.mp hentry with hold | hnew
    · exact h.same entry hold
    · rw [List.mem_singleton.mp hnew]
  · show r.todo.erase token ⊆ n.obs.subscriptions
    rw [hobs]
    exact (Finset.erase_subset _ _).trans h.registered

/-- A round is recorded from its first moment. -/
def Inv (s : Recorded) : Prop := ∀ r, s.notifier.round = some r → Visited s r

theorem Inv.step (h : s.Inv) (hkind : s.Kind a) (hstep : s.step a = some s') : s'.Inv := by
  intro r' hr'
  cases a with
  | app b =>
    obtain ⟨n, hn, rfl⟩ := Option.map_eq_some_iff.mp hstep
    obtain ⟨happ, hmap⟩ := Option.ite_none_right_eq_some.mp hn
    obtain ⟨⟨c', o⟩, hact, rfl⟩ := Option.map_eq_some_iff.mp hmap
    cases hround : s.notifier.round with
    | none =>
      have hnone := Notifier.application_round hround b c'
      exact absurd (hnone.symm.trans hr') (by simp)
    | some r =>
      obtain ⟨hsame, hvisited⟩ := (h r hround).application hround hkind happ hact
      cases hsame.symm.trans hr'
      exact hvisited
  | complete k =>
    obtain ⟨n, hn, rfl⟩ := Option.map_eq_some_iff.mp hstep
    obtain ⟨⟨hround, -⟩, ⟨⟩⟩ := Option.ite_none_right_eq_some.mp hn
    -- a round that is there after the handler has just begun
    have hnew : (s.notifier.enter k).round = some r' := by
      unfold Recorded.enter at hr'
      split at hr' <;> exact hr'
    obtain ⟨hdef, htodo⟩ := Notifier.enter_round hround hnew
    have hs' : s.enter (s.notifier.enter k) =
        { notifier := s.notifier.enter k
          snapshot := (s.notifier.enter k).obs.subscriptions } := by
      rw [Recorded.enter, hnew]
      rfl
    rw [hs']
    exact ⟨hdef, by simp, by simp [htodo], by simp, by simp, htodo.subset⟩
  | visit token =>
    obtain ⟨n, hn, rfl⟩ := Option.map_eq_some_iff.mp hstep
    obtain ⟨r, hround, htoken, hobs, hr⟩ := Notifier.step_visit hn
    have hvisited := h r hround
    -- the iteration is still defined, so it comes to those who are left
    have htodo : token ∈ r.todo := htoken.resolve_right (by simp [hvisited.defined])
    cases hr.symm.trans hr'
    exact hvisited.visit hround htodo hobs
  | roundDone =>
    obtain ⟨n, hn, rfl⟩ := Option.map_eq_some_iff.mp hstep
    obtain ⟨r, -, -, hnone⟩ := Notifier.step_roundDone hn
    exact absurd (hnone.symm.trans hr') (by simp)

theorem inv_of_reachable (hs : machine.Reachable Kind s) : s.Inv := by
  refine hs.invariant ?_ ?_
  · rintro _ ⟨name, rfl⟩ r hr
    cases hr
  · intro s a s' h hkind hstep
    exact h.step hkind hstep

/-- In kind runs, a round calls nobody who was not registered when it released the lock, nobody
twice, and everybody with the same key and value; it can always call those who are left, and when
it ends, everybody who was registered was called. -/
theorem round_snapshot (s : Recorded) (r : Visiting) (hs : machine.Reachable Kind s)
    (hround : s.notifier.round = some r) :
    (s.called.map Prod.fst).Nodup ∧ (∀ token ∈ s.called.map Prod.fst, token ∈ s.snapshot) ∧
    (∀ entry ∈ s.called, entry.2 = (r.key, r.value)) ∧
    (∀ token ∈ s.snapshot, token ∉ s.called.map Prod.fst → (s.step (.visit token)).isSome) ∧
    ∀ s', s.step .roundDone = some s' → ∀ token ∈ s.snapshot, token ∈ s'.called.map Prod.fst := by
  have h := inv_of_reachable hs r hround
  refine ⟨h.once, fun token ht => (h.split token).mpr (Or.inl ht), h.same, ?_, ?_⟩
  · intro token hmem hnot
    have htodo : token ∈ r.todo := ((h.split token).mp hmem).resolve_left hnot
    simp [Recorded.step, Notifier.step, hround, htodo, h.registered htodo]
  · intro s' hstep token hmem
    obtain ⟨n, hn, rfl⟩ := Option.map_eq_some_iff.mp hstep
    obtain ⟨r', hr', hend, -⟩ := Notifier.step_roundDone hn
    cases hround.symm.trans hr'
    -- and it ends only when nobody is left
    have hempty : r.todo = ∅ := hend.resolve_right (by simp [h.defined])
    -- everybody of the snapshot was called or is left
    rcases (h.split token).mp hmem with hcalled | htodo
    · exact hcalled
    · rw [hempty] at htodo
      exact absurd htodo (Finset.notMem_empty _)

/-- Two subscribers, and the round that tells them that the leader is gone. -/
def twoSubscribers : List Notifier.Act :=
  Notifier.findsNode ++
    [.app .subscribe, .app (.subscriberDone Notifier.node.key Notifier.node.value false),
      .app .subscribe, .app (.subscriberDone Notifier.node.key Notifier.node.value false),
      .complete Notifier.nodeLeaves]

/-- A subscriber that was called is removed before the round ends. -/
theorem round_snapshot_removed : ∃ s s' r, machine.Reachable Kind s ∧
    s.notifier.round = some r ∧ s.snapshot = {1, 2} ∧ s.notifier.obs.subscriptions = {2} ∧
    s.step .roundDone = some s' ∧ ∀ token ∈ s.snapshot, token ∈ s'.called.map Prod.fst := by
  rcases reachable_of_execIf machine (fun s a => decide (s.Kind a)) { notifier := .init [] }
    (twoSubscribers ++ [.visit 1, .visit 2, .app (.unsubscribe 1)])
    (fun s => s.notifier.round.isSome && (s.step .roundDone).isSome &&
      decide (s.snapshot = {1, 2} ∧ s.notifier.obs.subscriptions = {2}))
    (fun _ _ => of_decide_eq_true) ⟨_, rfl⟩ (by decide) with ⟨s, hreach, hcheck⟩
  simp only [Bool.and_eq_true, decide_eq_true_eq] at hcheck
  obtain ⟨⟨hround, hdone⟩, hsnapshot, hsubs⟩ := hcheck
  obtain ⟨r, hr⟩ := Option.isSome_iff_exists.mp hround
  obtain ⟨s', hs'⟩ := Option.isSome_iff_exists.mp hdone
  exact ⟨s, s', r, hreach, hr, hsnapshot, hsubs, hs',
    (round_snapshot s r hreach hr).2.2.2.2 s' hs'⟩

/-- The callback of the first subscriber removes the second one, which is not called any more.
And a subscriber that is registered during a round may be called. -/
theorem round_follows_subscriptions :
    (∃ s s' r, machine.Reachable Any s ∧ s.notifier.round = some r ∧ 2 ∈ s.snapshot ∧
      s.step .roundDone = some s' ∧ 2 ∉ s'.called.map Prod.fst) ∧
    ∃ s r, machine.Reachable Any s ∧ s.notifier.round = some r ∧ 3 ∉ s.snapshot ∧
      3 ∈ s.called.map Prod.fst := by
  constructor
  · rcases reachable_of_exec machine { notifier := .init [] }
      (twoSubscribers ++ [.visit 1, .app (.unsubscribe 2)])
      (fun s => s.notifier.round.isSome && decide (2 ∈ s.snapshot) &&
        (s.step .roundDone).any fun s' : Recorded => decide (2 ∉ s'.called.map Prod.fst))
      ⟨_, rfl⟩ (by decide) with ⟨s, hreach, hcheck⟩
    simp only [Bool.and_eq_true, decide_eq_true_eq] at hcheck
    obtain ⟨⟨hround, hmem⟩, hdone⟩ := hcheck
    obtain ⟨r, hr⟩ := Option.isSome_iff_exists.mp hround
    obtain ⟨s', hs', hnot⟩ := Option.any_eq_true _ _ |>.mp hdone
    exact ⟨s, s', r, hreach, hr, hmem, hs', of_decide_eq_true hnot⟩
  · rcases reachable_of_exec machine { notifier := .init [] }
      (twoSubscribers ++ [.visit 1, .app .subscribe, .visit 3])
      (fun s => s.notifier.round.isSome && decide (3 ∉ s.snapshot) &&
        decide (3 ∈ s.called.map Prod.fst))
      ⟨_, rfl⟩ (by decide) with ⟨s, hreach, hcheck⟩
    simp only [Bool.and_eq_true, decide_eq_true_eq] at hcheck
    obtain ⟨⟨hround, hnot⟩, hmem⟩ := hcheck
    obtain ⟨r, hr⟩ := Option.isSome_iff_exists.mp hround
    exact ⟨s, r, hreach, hr, hnot, hmem⟩

end Recorded

end GeeH.Observer
