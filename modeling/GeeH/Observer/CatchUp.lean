import GeeH.Fairness
import GeeH.Observer.Accounting
import GeeH.Observer.Refinement

/-!
# GeeH.Observer.CatchUp — an observer that is served catches up

Endless behaviors in which the observer is attended: nothing disturbs it, no
operation of it fails, nobody shuts it down, and a transaction puts at most one
key. `startup()` leads to the
Range, its answer to the request for the watch, that to a read, and each read
to the next one (`Phase`). If the server and the completion queue go on with
what is outstanding, the observer processes every event of its election, and
when nobody writes there any more, it reports the leader that the store has.
-/

namespace GeeH.Observer

open Etcd Machine

variable {c c' : Observer} {o : Outcome}

/-- Only the destructor is entered for good, and only `startup()` starts. -/
theorem started_act {a : Act} (hact : c.act a = some (c', o)) (hne : a ≠ .destroy) :
    c'.destroyed = c.destroyed ∧ (c.started = true → c'.started = true) := by
  cases a with
  | startup =>
    obtain ⟨-, rfl⟩ := of_guard_not hact
    simp only [startup]
    split <;> exact ⟨rfl, fun _ => rfl⟩
  | streamCreated ok =>
    obtain ⟨-, rfl⟩ := of_guard hact
    unfold onStreamCreated discover
    cases ok with
    | false => exact ⟨rfl, id⟩
    | true =>
      simp only [Bool.not_true, Bool.false_eq_true, if_false]
      split <;> exact ⟨rfl, id⟩
  | subscribe =>
    obtain ⟨-, rfl⟩ := of_guard_not hact
    unfold subscribe
    split <;> exact ⟨rfl, id⟩
  | subscriberDone key value throws =>
    obtain ⟨-, rfl⟩ := of_guard hact
    unfold onSubscriberDone
    cases throws <;> exact ⟨rfl, id⟩
  | unsubscribe token =>
    obtain ⟨-, rfl⟩ := of_guard_not hact
    exact ⟨rfl, id⟩
  | shutdown =>
    obtain ⟨-, rfl⟩ := of_guard_not hact
    unfold shutdown cancelWatcher
    split
    · exact ⟨rfl, id⟩
    · simp only
      split <;> exact ⟨rfl, id⟩
  | destroy => exact absurd rfl hne
  | answerRange req resp =>
    obtain ⟨-, rfl⟩ := of_guard hact
    exact ⟨rfl, id⟩
  | complete k =>
    rcases act_complete hact with ⟨_, _, rfl⟩
    refine ⟨(balanced_body (c.enter k).asyncOpDone k).destroyed, fun hst => ?_⟩
    cases k with
    | range req resp ok status =>
      exact (onRangeRequest_frame ((c.enter (.range req resp ok status)).asyncOpDone) ok _).2.2.trans
        hst
    | watchCreate req ok =>
      unfold handle body onWatchCreate postRead
      cases ok with
      | false => exact hst
      | true =>
        simp only [Bool.not_true, Bool.false_eq_true, if_false]
        split <;> exact hst
    | watchCancel => exact hst
    | watchRead ok resp =>
      exact (onWatchRead_frame ((c.enter (.watchRead ok resp)).asyncOpDone) ok resp).2.2.trans hst
  | opsDrained =>
    obtain ⟨-, rfl⟩ := of_guard hact
    exact ⟨rfl, id⟩

namespace Observed

variable {s s' : Observed} {d : Nat}

/-- Nothing disturbs the observer, no operation fails, and nobody shuts it down; a transaction puts
at most one key. -/
def Attended (s : Observed) (a : Act) : Prop :=
  s.Orderly a ∧
  match a with
  | .client (.streamCreated ok) => ok = true
  | .client (.complete (.watchCreate _ ok)) => ok = true
  | .client (.complete (.watchRead _ _)) => False
  | .client .shutdown | .client .destroy => False
  | _ => True

/-- The stream is created, the server answers the Range, or an operation completes. -/
def Serves (_ : Observed) : Act → Prop
  | .client (.streamCreated _) => True
  | .client (.complete _) => True
  | .serveRange _ => True
  | _ => False

/-- A read reports some events. -/
def Delivers (_ : Observed) : Act → Prop
  | .deliver _ n _ _ => 0 < n
  | _ => False

/-- What is outstanding of an observer that has been started; the number counts what has to happen
before it reads. -/
inductive Phase (s : Observed) : Nat → Prop where
  | creating (hcall : .createWatcherStream ∈ s.obs.calls) (hpend : s.obs.pending = 0) : Phase s 4
  | asking (hpend : s.obs.pending = {.range s.obs.discoverRequest none}) : Phase s 3
  | answered (resp : RangeResponse)
      (hpend : s.obs.pending = {.range s.obs.discoverRequest (some resp)}) : Phase s 2
  | watching (req : WatchCreateRequest) (hpend : s.obs.pending = {.watchCreate req})
      (hreqs : s.obs.requests ≠ []) : Phase s 1
  | reading (hpend : s.obs.pending = {.watchRead}) (hreqs : s.obs.requests ≠ []) : Phase s 0

/-- A step that leaves alone what is outstanding. -/
theorem Phase.congr (h : Phase s d) (hpend : s'.obs.pending = s.obs.pending)
    (hname : s'.obs.electionName = s.obs.electionName)
    (hreqs : s'.obs.requests = s.obs.requests)
    (hcalls : .createWatcherStream ∈ s.obs.calls → .createWatcherStream ∈ s'.obs.calls) :
    Phase s' d := by
  cases h with
  | creating hcall hp => exact .creating (hcalls hcall) (hpend.trans hp)
  | asking hp => exact .asking (by rw [hpend, hp, discoverRequest_congr hname])
  | answered resp hp => exact .answered resp (by rw [hpend, hp, discoverRequest_congr hname])
  | watching req hp hr => exact .watching req (hpend.trans hp) (hreqs ▸ hr)
  | reading hp hr => exact .reading (hpend.trans hp) (hreqs ▸ hr)

/-! ## What a step can do -/

/-- What a step does to an observer in a phase. -/
inductive Move (s : Observed) (d : Nat) (a : Act) (s' : Observed) : Prop where
  | waits (hphase : Phase s' d) (hserves : ¬ s.Serves a) (hdelivers : ¬ s.Delivers a)
      (hreqs : s'.obs.requests = s.obs.requests) (hwatch : s'.watch = s.watch)
      (hlog : ∃ new, s'.etcd.log = s.etcd.log ++ new)
  | advances (d' : Nat) (hlt : d' < d) (hphase : Phase s' d')
  /-- A read reports the next events of the watch. -/
  | told (n : Nat) (hd : d = 0) (ha : a = .deliver 0 n false 0) (hphase : Phase s' 0)
      (hreqs : s'.obs.requests = s.obs.requests)
      (hsent : (s'.watch 0).sent = (s.watch 0).sent + n) (hlog : s'.etcd.log = s.etcd.log)

theorem reachable_obs {allowed : Observed → Act → Prop} (hs : machine.Reachable allowed s) :
    Accounted s.obs := by
  refine hs.invariant ?_ ?_
  · rintro _ ⟨name, revision, h, rfl⟩
    exact ⟨.live rfl rfl (Multiset.notMem_zero _), rfl⟩
  · intro s a s' ih _ hstep
    cases step_cases hstep with
    | client a c' o _ hact => exact ih.step hact
    | range req c' o hact => exact ih.step hact
    | deliver id n canceled compactRevision req c' o _ _ _ hact => exact ih.step hact
    | write ops => exact ih

theorem reachable_live (hs : machine.Reachable Attended s) : s.obs.destroyed = false := by
  refine hs.invariant ?_ ?_
  · rintro _ ⟨name, revision, h, rfl⟩
    rfl
  · intro s a s' ih hok hstep
    cases step_cases hstep with
    | client a c' o _ hact =>
      refine (started_act hact ?_).1.trans ih
      rintro rfl
      exact hok.2
    | range req c' o hact => exact (started_act hact (by simp)).1.trans ih
    | deliver id n canceled compactRevision req c' o _ _ _ hact =>
      exact (started_act hact (by simp)).1.trans ih
    | write ops => exact ih

/-- In every phase, one discovery was begun. -/
theorem Phase.begun (h : Phase s d) (ht : Tracks s) :
    s.obs.started = true ∧ (d < 4 → .createWatcherStream ∉ s.obs.calls) := by
  have honce := ht.once
  have hstart := Bool.toNat_le s.obs.started
  have hstream : .createWatcherStream ∈ s.obs.calls → 1 ≤ (streams s.obs.calls).card := by
    intro hmem
    exact Multiset.card_pos_iff_exists_mem.mpr ⟨_, Multiset.mem_filter.mpr ⟨hmem, rfl⟩⟩
  -- the Range is out, or it was answered
  have hknown : d < 4 → 1 ≤ (ranges s.obs.pending).card + s.obs.discovered.isSome.toNat := by
    intro hlt
    have hdisc : s.obs.requests ≠ [] → s.obs.discovered.isSome.toNat = 1 := by
      intro hne
      cases hd : s.obs.discovered with
      | none => exact absurd (ht.before hd).2 hne
      | some resp => rfl
    cases h with
    | creating => omega
    | asking hp => simp [hp, ranges, Op.isRange, Multiset.filter_singleton]
    | answered resp hp => simp [hp, ranges, Op.isRange, Multiset.filter_singleton]
    | watching req hp hr => rw [hdisc hr]; omega
    | reading hp hr => rw [hdisc hr]; omega
  unfold inquiries at honce
  constructor
  · cases hst : s.obs.started with
    | true => rfl
    | false =>
      rw [hst, Bool.toNat_false] at honce
      cases h with
      | creating hcall _ => have := hstream hcall; omega
      | asking => have := hknown (by omega); omega
      | answered => have := hknown (by omega); omega
      | watching => have := hknown (by omega); omega
      | reading => have := hknown (by omega); omega
  · intro hlt hmem
    have h₁ := hknown hlt
    have h₂ := hstream hmem
    omega

/-- A call of the application that posts nothing. -/
theorem Phase.call {a : Observer.Act} {c' : Observer} {o : Outcome} (h : Phase s d)
    (hact : s.obs.act a = some (c', o)) (hposted : s.obs.posted a = 0) (hended : a.ended = 0)
    (hserves : ¬ s.Serves (.client a)) (hview : c'.view = s.obs.view)
    (hcalls : .createWatcherStream ∈ s.obs.calls → .createWatcherStream ∈ c'.calls) :
    Move s d (.client a) { s with obs := c' } := by
  have hpend := (pending_act hact).2
  rw [hposted, hended, zero_add, Multiset.sub_zero] at hpend
  exact .waits (h.congr hpend (congrArg View.electionName hview) (congrArg View.requests hview)
    hcalls) hserves id (congrArg View.requests hview) rfl ⟨[], by simp⟩

/-- What follows the completion of the only operation outstanding. -/
theorem pending_next {k : Completion} {c' : Observer} {o : Outcome}
    (hact : s.obs.act (.complete k) = some (c', o)) (hopen : s.obs.ops.shutdown = false)
    (hpend : s.obs.pending = {k.op}) : c'.pending = k.next s.obs := by
  have h := (pending_act hact).2
  rw [posted, if_neg (by simp [hopen]), hpend] at h
  simpa [Act.ended] using h

/-- The Range is answered, and `on_range_request()` asks for the watch. -/
theorem Phase.found {req : RangeRequest} {resp : Option RangeResponse} {ok : Bool} {status : Status}
    {c' : Observer} {o : Outcome} (h : Phase s d) (ht : Tracks s)
    (hopen : s.obs.ops.shutdown = false) (hok : ok = true) (hst : status.ok = true)
    (hact : s.obs.act (.complete (.range req resp ok status)) = some (c', o)) :
    ∃ d' < d, Phase { s with obs := c' } d' := by
  subst hok
  rcases act_complete hact with ⟨hmem, hwf, heq⟩
  rcases Option.isSome_iff_exists.mp (hwf rfl hst) with ⟨r, rfl⟩
  have hview := ht.ranged_view hmem hst
  rw [← heq] at hview
  have hreqs : c'.requests ≠ [] := by
    rw [show c'.requests = _ from congrArg View.requests hview]
    simp [requested, hopen]
  cases h with
  | answered r' hp =>
    have hop : Completion.op (.range req (some r) true status) =
        .range s.obs.discoverRequest (some r') := by simpa [hp] using hmem
    exact ⟨1, by omega, .watching _ (pending_next hact hopen (hp.trans (by rw [hop]))) hreqs⟩
  | creating hcall hp => simp [hp] at hmem
  | asking hp => simp [hp, Completion.op] at hmem
  | watching req' hp hr => simp [hp, Completion.op] at hmem
  | reading hp hr => simp [hp, Completion.op] at hmem

theorem Phase.client {a : Observer.Act} {c' : Observer} {o : Outcome} (h : Phase s d)
    (ht : Tracks s) (hopen : s.obs.ops.shutdown = false) (hcalls : .cleanupOps ∉ s.obs.calls)
    (hok : Attended s (.client a)) (hcl : isClient a = true)
    (hact : s.obs.act a = some (c', o)) : Move s d (.client a) { s with obs := c' } := by
  cases a with
  | startup =>
    have hst : s.obs.started = false := hok.1.1
    rw [(h.begun ht).1] at hst
    cases hst
  | streamCreated ok =>
    obtain rfl : ok = true := hok.2
    obtain ⟨hmem, rfl⟩ := of_guard hact
    have hpend := (pending_act hact).2
    cases h with
    | creating hcall hp =>
      refine .advances 3 (by omega) (.asking ?_)
      have hquiet : Quiet _ (s.obs.onStreamCreated true).1 := quiet_onStreamCreated hmem
      have hname := congrArg View.electionName hquiet.view
      rw [hpend, hp, discoverRequest_congr hname]
      simp [posted, hopen, Act.ended]
    | asking hp => exact absurd hmem (((Phase.asking hp).begun ht).2 (by omega))
    | answered r hp => exact absurd hmem (((Phase.answered r hp).begun ht).2 (by omega))
    | watching req hp hr => exact absurd hmem (((Phase.watching req hp hr).begun ht).2 (by omega))
    | reading hp hr => exact absurd hmem (((Phase.reading hp hr).begun ht).2 (by omega))
  | subscribe =>
    obtain ⟨-, rfl⟩ := of_guard_not hact
    refine h.call hact rfl rfl id (quiet_subscribe s.obs).view fun hmem => ?_
    unfold subscribe
    split
    · exact Multiset.mem_cons_of_mem hmem
    · exact hmem
  | subscriberDone key value throws =>
    obtain ⟨-, rfl⟩ := of_guard hact
    refine h.call hact rfl rfl id (quiet_onSubscriberDone s.obs key value throws).view fun hmem => ?_
    have hkept : .createWatcherStream ∈ s.obs.calls.erase (.subscribing key value) :=
      (Multiset.mem_erase_of_ne (by simp)).mpr hmem
    unfold onSubscriberDone
    cases throws with
    | false => exact hkept
    | true => exact hkept
  | unsubscribe token =>
    obtain ⟨-, rfl⟩ := of_guard_not hact
    exact h.call hact rfl rfl id rfl id
  | shutdown => exact absurd hok.2 id
  | destroy => exact absurd hok.2 id
  | answerRange => cases hcl
  | opsDrained =>
    obtain ⟨hmem, -⟩ := of_guard hact
    exact absurd hmem.1 hcalls
  | complete k =>
    rcases act_complete hact with ⟨hmem, _, _⟩
    cases k with
    | range req resp ok status =>
      obtain ⟨hok', hst⟩ : ok = true ∧ status.ok = true := hok.1.1
      rcases h.found ht hopen hok' hst hact with ⟨d', hlt, hphase⟩
      exact .advances d' hlt hphase
    | watchCreate req ok =>
      obtain rfl : ok = true := hok.2
      cases h with
      | watching req' hp hr =>
        have hop : Completion.op (.watchCreate req true) = .watchCreate req' := by
          simpa [hp] using hmem
        refine .advances 0 (by omega) (.reading ?_ ?_)
        · exact pending_next hact hopen (hp.trans (by rw [hop]))
        · have hview : c'.view = s.obs.view := by
            cases act_cases hact with
            | quiet _ hq => exact hq.view
          rw [show c'.requests = s.obs.requests from congrArg View.requests hview]
          exact hr
      | creating hcall hp => simp [hp] at hmem
      | asking hp => simp [hp, Completion.op] at hmem
      | answered r hp => simp [hp, Completion.op] at hmem
      | reading hp hr => simp [hp, Completion.op] at hmem
    | watchCancel id ok => cases h <;> simp_all [Completion.op]
    | watchRead => exact absurd hok.2 id

theorem move_of_step {a : Act} (hs : machine.Reachable Attended s) (h : Phase s d)
    (hok : Attended s a) (hstep : s.step a = some s') : Move s d a s' := by
  have ht : Tracks s := tracks (hs.mono fun _ _ hok => hok.1.1)
  have hlive := reachable_live hs
  have hopen := (reachable_obs hs).1.open_of_live hlive
  cases step_cases hstep with
  | write ops =>
    exact .waits (h.congr rfl rfl rfl id) id id rfl rfl ⟨_, Store.commit_log _ _⟩
  | client a c' o hcl hact =>
    exact h.client ht hopen ((reachable_obs hs).1.calls_of_live hlive) hok hcl hact
  | range req c' o hact =>
    obtain ⟨hmem, rfl⟩ := of_guard hact
    cases h with
    | asking hp =>
      obtain rfl : req = s.obs.discoverRequest := by simpa [hp] using hmem
      refine .advances 2 (by omega) (.answered (s.etcd.range s.obs.discoverRequest) ?_)
      show _ ::ₘ s.obs.pending.erase _ = _
      simp [hp, discoverRequest, answerRange]
    | creating hcall hp => simp [hp] at hmem
    | answered r hp => simp [hp] at hmem
    | watching req' hp hr => simp [hp] at hmem
    | reading hp hr => simp [hp] at hmem
  | deliver id n canceled compactRevision req c' o hreq _ hn hact =>
    obtain ⟨rfl, rfl⟩ : canceled = false ∧ compactRevision = 0 := hok.1.1
    rcases act_complete hact with ⟨hmem, _, rfl⟩
    cases h with
    | reading hp hr =>
      obtain ⟨rfl, _⟩ := ht.request hreq
      have hreqs := congrArg View.requests (handle_watchRead_view s.obs
        (watchResponse (s.watch 0) req s.etcd.log 0 n false 0) rfl rfl)
      refine .told n rfl rfl (.reading (pending_next hact hopen hp) ?_) hreqs ?_ rfl
      · exact fun hnil => hr (hreqs.symm.trans hnil)
      · simp [watchSent]
    | creating hcall hp => simp [hp] at hmem
    | asking hp => simp [hp, Completion.op] at hmem
    | answered r hp => simp [hp, Completion.op] at hmem
    | watching req' hp hr => simp [hp, Completion.op] at hmem

/-! ## The observer comes to read, and reads on -/

section Behaviors

variable {b : Behavior machine Attended}

theorem reachable_tracks (hs : machine.Reachable Attended s) : Tracks s :=
  tracks (hs.mono fun _ _ hok => hok.1.1)

/-- What is outstanding can go on. -/
theorem Phase.enabled (h : Phase s (d + 1)) : Behavior.Enabled machine Attended Serves s := by
  cases h with
  | creating hcall hp =>
    exact ⟨.client (.streamCreated true), trivial, ⟨⟨trivial, trivial⟩, rfl⟩,
      by simp [machine, step, isClient, act, hcall]⟩
  | asking hp =>
    exact ⟨.serveRange s.obs.discoverRequest, trivial, ⟨⟨trivial, trivial⟩, trivial⟩,
      by simp [machine, step, act, hp]⟩
  | answered r hp =>
    exact ⟨.client (.complete (.range s.obs.discoverRequest (some r) true {})), trivial,
      ⟨⟨⟨rfl, rfl⟩, trivial⟩, trivial⟩,
      by simp [machine, step, isClient, act, hp, Completion.op, Completion.WellFormed]⟩
  | watching req hp hr =>
    exact ⟨.client (.complete (.watchCreate req true)), trivial, ⟨⟨trivial, trivial⟩, rfl⟩,
      by simp [machine, step, isClient, act, hp, Completion.op, Completion.WellFormed]⟩

/-- An observer that was started comes to read. -/
theorem reads_in_the_end (hfair : b.Fair Serves) :
    b.LeadsTo (fun s => ∃ d, Phase s d) (fun s => Phase s 0) := by
  refine Behavior.LeadsTo.countdown fun d => ?_
  cases d with
  | zero => exact .of_imp fun s _ h => .inl h
  | succ d =>
    refine .wf1 hfair ?_ ?_ fun s _ h => h.enabled
    · intro s a s' hs h hok hstep
      cases move_of_step hs h hok hstep with
      | waits hphase => exact .inl hphase
      | advances d' hlt hphase => exact .inr (.inr ⟨d', hlt, hphase⟩)
      | told n hd => cases hd
    · intro s a s' hs h hserves hok hstep
      cases move_of_step hs h hok hstep with
      | waits _ hno => exact absurd hserves hno
      | advances d' hlt hphase => exact .inr ⟨d', hlt, hphase⟩
      | told n hd => cases hd

/-- The observer reads, its watch has that many events to report, and it was told of some. -/
def Reading (req : WatchCreateRequest) (total left : Nat) (s : Observed) : Prop :=
  Phase s 0 ∧ s.obs.requests = [req] ∧ total ≤ (req.events s.etcd.log).length ∧
    total - (s.watch 0).sent = left

theorem Reading.step {req : WatchCreateRequest} {total left : Nat} {a : Act}
    (hs : machine.Reachable Attended s) (h : Reading req total left s) (hok : Attended s a)
    (hstep : s.step a = some s') :
    (Reading req total left s' ∧ ¬ s.Delivers a) ∨
    ∃ n, a = .deliver 0 n false 0 ∧ Reading req total (left - n) s' := by
  rcases h with ⟨hphase, hreq, htotal, hleft⟩
  cases move_of_step hs hphase hok hstep with
  | waits hphase' _ hdelivers hreqs hwatch hlog =>
    rcases hlog with ⟨new, hlog⟩
    refine .inl ⟨⟨hphase', hreqs.trans hreq, ?_, by rw [hwatch, hleft]⟩, hdelivers⟩
    rw [hlog, events_append, List.length_append]
    omega
  | advances d' hlt => omega
  | told n _ ha hphase' hreqs hsent hlog =>
    refine .inr ⟨n, ha, hphase', hreqs.trans hreq, by rw [hlog]; exact htotal, ?_⟩
    omega

/-- While the watch has something to report, a read can report it. -/
theorem Reading.enabled {req : WatchCreateRequest} {total left : Nat}
    (hs : machine.Reachable Attended s) (h : Reading req total (left + 1) s) :
    Behavior.Enabled machine Attended Delivers s := by
  rcases h with ⟨hphase, hreq, htotal, hleft⟩
  cases hphase with
  | reading hp _ =>
    have hone : s.obs.requests[0]? = some req := by rw [hreq]; rfl
    refine ⟨.deliver 0 1 false 0, Nat.one_pos, ⟨⟨⟨rfl, rfl⟩, trivial⟩, trivial⟩, ?_⟩
    rw [show machine.step s = s.step from rfl,
      step_deliver 0 1 false 0 (by simp [hp]) hone (reachable_tracks hs).live]
    · rfl
    · rw [WatchState.undelivered, List.length_drop]
      omega

/-- An observer that reads is told of every event. -/
theorem told_in_the_end (hfair : b.Fair Delivers) (req : WatchCreateRequest) (total : Nat) :
    b.LeadsTo (fun s => ∃ left, Reading req total left s) (Reading req total 0) := by
  refine Behavior.LeadsTo.countdown fun left => ?_
  cases left with
  | zero => exact .of_imp fun s _ h => .inl h
  | succ left =>
    refine .wf1 hfair ?_ ?_ fun s hs h => h.enabled hs
    · intro s a s' hs h hok hstep
      rcases h.step hs hok hstep with ⟨h', _⟩ | ⟨n, rfl, h'⟩
      · exact .inl h'
      · cases n with
        | zero => exact .inl h'
        | succ n => exact .inr (.inr ⟨_, by omega, h'⟩)
    · intro s a s' hs h hdelivers hok hstep
      rcases h.step hs hok hstep with ⟨_, hno⟩ | ⟨n, rfl, h'⟩
      · exact absurd hdelivers hno
      · have hn : 0 < n := hdelivers
        exact .inr ⟨_, by omega, h'⟩

end Behaviors

/-! ## Started observers -/

/-- Nothing is outstanding yet, or the observer is in one of the phases. -/
def Begun (s : Observed) : Prop :=
  (s.obs.started = false ∧ s.obs.pending = 0) ∨ ∃ d, Phase s d

/-- Before `startup()`, only that begins something. -/
theorem begun_of_fresh {a : Act} (ht : Tracks s) (hopen : s.obs.ops.shutdown = false)
    (hst : s.obs.started = false) (hpend : s.obs.pending = 0) (hok : Attended s a)
    (hstep : s.step a = some s') : Begun s' := by
  have hstreams : .createWatcherStream ∉ s.obs.calls := by
    intro hmem
    have hpos : 1 ≤ (streams s.obs.calls).card :=
      Multiset.card_pos_iff_exists_mem.mpr ⟨_, Multiset.mem_filter.mpr ⟨hmem, rfl⟩⟩
    have honce := ht.once
    rw [hst, Bool.toNat_false] at honce
    unfold inquiries at honce
    omega
  cases step_cases hstep with
  | write ops => exact .inl ⟨hst, hpend⟩
  | range req c' o hact =>
    obtain ⟨hmem, -⟩ := of_guard hact
    simp [hpend] at hmem
  | deliver id n canceled compactRevision req c' o _ _ _ hact =>
    rcases act_complete hact with ⟨hmem, _, _⟩
    simp [hpend] at hmem
  | client a c' o hcl hact =>
    cases a with
    | startup =>
      obtain ⟨-, rfl⟩ := of_guard_not hact
      refine .inr ⟨4, .creating ?_ ?_⟩
      · simp [startup, hopen]
      · simp [startup, hopen, hpend]
    | streamCreated ok =>
      obtain ⟨hmem, -⟩ := of_guard hact
      exact absurd hmem hstreams
    | subscribe =>
      obtain ⟨-, rfl⟩ := of_guard_not hact
      left
      unfold subscribe
      split <;> exact ⟨hst, hpend⟩
    | subscriberDone key value throws =>
      obtain ⟨-, rfl⟩ := of_guard hact
      left
      unfold onSubscriberDone
      cases throws <;> exact ⟨hst, hpend⟩
    | unsubscribe token =>
      obtain ⟨-, rfl⟩ := of_guard_not hact
      exact .inl ⟨hst, hpend⟩
    | shutdown => exact absurd hok.2 id
    | destroy => exact absurd hok.2 id
    | answerRange => cases hcl
    | complete k =>
      rcases act_complete hact with ⟨hmem, _, _⟩
      simp [hpend] at hmem
    | opsDrained =>
      obtain ⟨-, rfl⟩ := of_guard hact
      exact .inl ⟨hst, hpend⟩

theorem reachable_begun (hs : machine.Reachable Attended s) : Begun s := by
  refine hs.invariant_of (fun s hs => hs) ?_ ?_
  · rintro _ ⟨name, revision, h, rfl⟩
    exact .inl ⟨rfl, rfl⟩
  · intro s a s' hs ih hok hstep
    rcases ih with ⟨hst, hpend⟩ | ⟨d, hphase⟩
    · have hopen := (reachable_obs hs).1.open_of_live (reachable_live hs)
      exact begun_of_fresh (reachable_tracks hs) hopen hst hpend hok hstep
    · cases move_of_step hs hphase hok hstep with
      | waits hphase' => exact .inr ⟨_, hphase'⟩
      | advances d' _ hphase' => exact .inr ⟨_, hphase'⟩
      | told n _ _ hphase' => exact .inr ⟨_, hphase'⟩

/-! ## Catching up -/

/-- The events of the observed election. -/
def electionLog (s : Observed) : List Event :=
  s.etcd.log.filter fun ev => InElection s.obs.electionName ev.kv.key

/-- They are what its watch reports, from its start on. -/
theorem events_electionLog {req : WatchCreateRequest} (ht : Tracks s)
    (hreq : s.obs.requests = [req]) : req.events s.etcd.log =
      s.electionLog.filter fun ev => req.startRevision ≤ ev.revision := by
  have hfirst : s.obs.requests[0]? = some req := by
    rw [hreq]
    rfl
  rcases ht.request hfirst with ⟨_, resp, _, rfl, _⟩
  rw [follow_events, electionLog, List.filter_filter]
  refine List.filter_congr fun ev _ => ?_
  rw [Bool.decide_and, Bool.and_comm]
  rfl

theorem run_log {allowed : Observed → Act → Prop} (hrun : machine.Run allowed s s') :
    s.etcd.log <+: s'.etcd.log := by
  induction hrun with
  | refl => exact List.prefix_rfl
  | tail a _ _ hstep ih =>
    cases step_cases hstep with
    | client => exact ih
    | range => exact ih
    | deliver => exact ih
    | write ops =>
      refine ih.trans ?_
      rw [Store.commit_log]
      exact List.prefix_append _ _

/-- An observer that reads, and has been told of all there is, reports the leader there is. -/
theorem Reading.leader {req : WatchCreateRequest} {total : Nat} (hs : machine.Reachable Attended s)
    (h : Reading req total 0 s) (hall : (req.events s.etcd.log).length = total) (kv : KeyValue) :
    s.obs.leader = some kv ↔ s.Leads s.etcd.revision kv := by
  rcases h with ⟨_, hreq, _, hleft⟩
  have ht := reachable_tracks hs
  have hfirst : s.obs.requests[0]? = some req := by
    rw [hreq]
    rfl
  rcases ht.request hfirst with ⟨_, resp, hresp, hfollow, hone, hsent, _⟩
  rw [← hfollow] at hsent
  refine processed_leader (hs.mono fun _ _ hok => hok.1) hresp (ht.found resp hresp).revision ?_ kv
  have hbound : (req.events s.etcd.log).filter (fun ev => ev.revision ≤ s.etcd.revision) =
      req.events s.etcd.log := by
    rw [hfollow, follow_events, List.filter_eq_self]
    intro ev hev
    exact decide_eq_true (s.etcd.bounded ev (List.mem_of_mem_filter hev)).2
  unfold Processed
  rw [hreq]
  show (s.watch 0).sent = _
  rw [hbound]
  omega

section CatchUp

variable {b : Behavior machine Attended}

/-- An observer that was started is told of all the events there are at some time after it has
begun to read. -/
theorem reading_in_the_end (hserves : b.Fair Serves) (hdelivers : b.Fair Delivers) {n : Nat}
    (hstart : (b.state n).obs.started = true) :
    ∃ m₁ m₂ req, n ≤ m₁ ∧ m₁ ≤ m₂ ∧ (b.state m₁).obs.requests = [req] ∧ ∀ k, m₂ ≤ k →
      Reading req (req.events (b.state m₁).etcd.log).length 0 (b.state k) := by
  have hbegun : ∃ d, Phase (b.state n) d := by
    rcases reachable_begun (b.reachable n) with ⟨hst, _⟩ | hphase
    · rw [hst] at hstart
      cases hstart
    · exact hphase
  rcases reads_in_the_end hserves n hbegun with ⟨m₁, hm₁, hphase⟩
  have ht := reachable_tracks (b.reachable m₁)
  obtain ⟨req, hreq⟩ : ∃ req, (b.state m₁).obs.requests = [req] := by
    cases hphase with
    | reading _ hne =>
      rcases List.exists_mem_of_ne_nil _ hne with ⟨req, hmem⟩
      rcases List.getElem?_of_mem hmem with ⟨id, hid⟩
      rcases ht.request hid with ⟨_, _, _, _, hone, _⟩
      exact ⟨_, hone⟩
  let total := (req.events (b.state m₁).etcd.log).length
  rcases told_in_the_end hdelivers req total m₁ ⟨_, hphase, hreq, le_rfl, rfl⟩ with ⟨m₂, hm₂, hread⟩
  refine ⟨m₁, m₂, req, hm₁, hm₂, hreq, fun k hk => ?_⟩
  refine b.stays (p := Reading req total 0) ?_ hk hread
  intro s a s' hs h hok hstep
  rcases h.step hs hok hstep with ⟨h', _⟩ | ⟨n, _, h'⟩
  · exact h'
  · rwa [Nat.zero_sub] at h'

/-- An observer that is attended and served catches up: after `startup()`, at some time it has been
told of every event that its election had by now, and if nobody writes to the election any more,
then from some time on `has_leader()`, `current_key()` and `current_value()` are those of the
oldest node that the store has. -/
theorem catches_up (b : Behavior machine Attended) (hserves : b.Fair Serves)
    (hdelivers : b.Fair Delivers) (n : Nat) (hstart : (b.state n).obs.started = true) :
    (∃ m req, n ≤ m ∧ ∀ k, m ≤ k → (b.state k).obs.requests = [req] ∧
      (req.events (b.state n).etcd.log).length ≤ ((b.state k).watch 0).sent) ∧
    ((∀ m, n ≤ m → electionLog (b.state m) = electionLog (b.state n)) →
      ∃ m, n ≤ m ∧ ∀ k, m ≤ k →
        ((b.state k).obs.hasLeader = true ↔
          ∃ kv, (b.state k).Leads (b.state k).etcd.revision kv) ∧
        ∀ kv, (b.state k).Leads (b.state k).etcd.revision kv →
          (b.state k).obs.currentKey = .ok kv.key ∧
            (b.state k).obs.currentValue = .ok kv.value) := by
  rcases reading_in_the_end hserves hdelivers hstart with
    ⟨m₁, m₂, req, hm₁, hm₂, hreq₁, hread⟩
  constructor
  · refine ⟨m₂, req, hm₁.trans hm₂, fun k hk => ?_⟩
    rcases hread k hk with ⟨_, hreq, _, hleft⟩
    rcases run_log (b.run hm₁) with ⟨new, hlog⟩
    rw [← hlog, events_append, List.length_append] at hleft
    exact ⟨hreq, by omega⟩
  · intro hquiet
    refine ⟨m₂, hm₁.trans hm₂, fun k hk => ?_⟩
    have hall : (req.events (b.state k).etcd.log).length =
        (req.events (b.state m₁).etcd.log).length := by
      rw [events_electionLog (reachable_tracks (b.reachable k)) (hread k hk).2.1,
        hquiet k (hm₁.trans (hm₂.trans hk)), ← hquiet m₁ hm₁, ← events_electionLog
          (reachable_tracks (b.reachable m₁)) hreq₁]
    have hleader := (hread k hk).leader (b.reachable k) hall
    constructor
    · unfold hasLeader
      rw [Option.isSome_iff_exists]
      exact exists_congr hleader
    · intro kv hkv
      simp [currentKey, currentValue, (hleader kv).mpr hkv]

end CatchUp

/-! ## An observer that starts late -/

/-- Nothing more can be done for an observer that reads and has been told of everything. -/
theorem idle_disabled {req : WatchCreateRequest} (hcalls : s.obs.calls = 0)
    (hpend : s.obs.pending = {.watchRead}) (hreq : s.obs.requests = [req])
    (hnone : (s.watch 0).undelivered req s.etcd.log = []) :
    ¬ Behavior.Enabled machine Attended Serves s ∧
      ¬ Behavior.Enabled machine Attended Delivers s := by
  constructor
  · rintro ⟨a, hserves, hok, hsome⟩
    rcases Option.isSome_iff_exists.mp hsome with ⟨s', hstep⟩
    cases step_cases hstep with
    | range req c' o hact =>
      have hmem := (of_guard hact).1
      simp [hpend] at hmem
    | client a c' o hcl hact =>
      cases a with
      | streamCreated ok =>
        have hmem := (of_guard hact).1
        simp [hcalls] at hmem
      | complete k =>
        rcases act_complete hact with ⟨hmem, _, _⟩
        cases k with
        | watchRead => exact hok.2
        | _ => simp [hpend, Completion.op] at hmem
      | _ => exact hserves
    | _ => exact hserves
  · rintro ⟨a, hdelivers, hok, hsome⟩
    rcases Option.isSome_iff_exists.mp hsome with ⟨s', hstep⟩
    cases step_cases hstep with
    | deliver id n canceled compactRevision req' c' o hreq' _ hn hact =>
      have hpos : 0 < n := hdelivers
      rw [hreq] at hreq'
      rcases List.getElem?_eq_some_iff.mp hreq' with ⟨hlt, rfl⟩
      obtain rfl : id = 0 := by simpa using hlt
      simp only [List.getElem_cons_zero, hnone, List.length_nil] at hn
      omega
    | _ => exact hdelivers

instance (s : Observed) (a : Act) : Decidable (s.Attended a) :=
  have : Decidable (match a with
    | .client (.streamCreated ok) => ok = true
    | .client (.complete (.watchCreate _ ok)) => ok = true
    | .client (.complete (.watchRead _ _)) => False
    | .client .shutdown | .client .destroy => False
    | _ => True) := by split <;> infer_instance
  inferInstanceAs (Decidable (_ ∧ _))

/-- The node of the second of two candidates. -/
def latter : KeyValue where
  key := [0x2F, 0x62]
  value := [3]
  createRevision := 3
  modRevision := 3

/-- There were two candidates, and the first has left, when the observer starts. -/
def startsLate : List Act :=
  [.write [.put [0x2F, 0x61] [1] 0], .write [.put [0x2F, 0x62] [3] 0],
    .write [.deleteRange [0x2F, 0x61]], .client .startup]

/-- Its Range is answered with the second, and it reads the events since then, one by one. -/
def readsOn : List Act :=
  let c := Observer.init []
  (startupActs c.discoverRequest { revision := 4, kvs := [latter] } (c.watcherRequest 3)).tail ++
    [.deliver 0 1 false 0, .deliver 0 1 false 0]

/-- Nothing changes in the store, where the second candidate is alone. -/
def Alone (s u : Observed) : Prop :=
  u.electionLog = s.electionLog ∧ u.etcd.kvs = [latter] ∧ u.obs.electionName = []

instance (s u : Observed) : Decidable (Alone s u) := inferInstanceAs (Decidable (_ ∧ _))

theorem Alone.leads {u : Observed} (h : Alone s u) : u.Leads u.etcd.revision latter := by
  have hkvs : u.etcd.kvsAt u.etcd.revision = [latter] := u.etcd.kvsAt_revision.trans h.2.1
  refine ⟨⟨by rw [hkvs]; exact List.mem_singleton_self _, by rw [h.2.2]; decide⟩, ?_⟩
  rintro kv ⟨hmem, _⟩
  rw [hkvs, List.mem_singleton] at hmem
  rw [hmem]

/-- The observer comes to report the second candidate. -/
theorem catches_up_late : ∃ b : Behavior machine Attended,
    (b.state 0).obs.hasLeader = false ∧
    ∃ m, ∀ k, m ≤ k → (b.state k).obs.currentValue = .ok [3] := by
  let ok := fun (s : Observed) a => decide (s.Attended a)
  have hok : ∀ s a, ok s a = true → Attended s a := fun _ _ => of_decide_eq_true
  have hrun : ((machine.execIf ok (init [] 1 le_rfl) startsLate).any fun s =>
      decide (s.obs.started = true ∧ s.obs.hasLeader = false) &&
        (readsOn.inits.all fun bs => (machine.execIf ok s bs).all fun u => decide (Alone s u)) &&
        (machine.execIf ok s readsOn).any fun t => decide (t.obs.calls = 0 ∧
          t.obs.pending = {.watchRead} ∧ t.obs.requests = [(Observer.init []).watcherRequest 3] ∧
          (t.watch 0).undelivered ((Observer.init []).watcherRequest 3) t.etcd.log = [])) = true := by
    decide
  rcases (Option.any_eq_true _ _).mp hrun with ⟨s, hexec, hcheck⟩
  simp only [Bool.and_eq_true, decide_eq_true_eq, List.all_eq_true] at hcheck
  rcases hcheck with ⟨⟨⟨hstart, hnone⟩, halone⟩, hrest⟩
  rcases (Option.any_eq_true _ _).mp hrest with ⟨t, hexec', hend⟩
  rcases of_decide_eq_true hend with ⟨hcalls, hpend, hreq, hdone⟩
  have hs : machine.Reachable Attended s := ⟨_, ⟨_, _, _, rfl⟩, run_of_execIf hok hexec⟩
  rcases Behavior.exists_of_execIf hok hs hexec' with ⟨b, rfl, _, hstates, hfair⟩
  rcases idle_disabled hcalls hpend hreq hdone with ⟨hserves, hdelivers⟩
  have hall : ∀ m, Alone (b.state 0) (b.state m) := by
    intro m
    rcases hstates m with ⟨bs, hbs, hm⟩
    have hcheck := halone bs hbs
    rw [hm] at hcheck
    exact of_decide_eq_true hcheck
  rcases (catches_up b (hfair _ hserves) (hfair _ hdelivers) 0 hstart).2 fun m _ => (hall m).1 with
    ⟨m, _, hreports⟩
  exact ⟨b, hnone, m, fun k hk => ((hreports k hk).2 latter (hall k).leads).2⟩

end Observed

end GeeH.Observer
