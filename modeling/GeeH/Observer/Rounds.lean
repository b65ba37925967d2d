import GeeH.Observer.Impl
import Mathlib.Logic.Function.Basic

/-!
# GeeH.Observer.Rounds — rounds of notifications that take time

In `GeeH.Observer.Impl` a handler runs to its end in one step. Here
`call_subscribers()` takes one step for each subscriber it calls, with the
lock released, and the application can subscribe and unsubscribe in between.

`call_subscribers()` makes a copy of `subscriptions_` and then iterates over
`subscriptions_` itself. Erasing an element does not disturb the iteration,
unless it is the one that the iteration is at. After an insertion, which may
rehash the table, or after erasing that one, the rest of the iteration is
undefined: here it then calls whom it likes, and stops when it likes.
-/

namespace GeeH.Observer

open Etcd Machine

/-! ## The report -/

/-- What is to be told about a view: the leader's key and value, or two empty strings. -/
def report (p : Participants) : Bytes × Bytes :=
  match p.first? with
  | none => ([], [])
  | some (_, kv) => (kv.key, kv.value)

/-- A put that leaves the value of the leader as it is leaves its key as it is, too. Two keys
have one create revision only if one transaction put both. -/
def KeepsKey (p : Participants) (kv : KeyValue) : Prop :=
  ∀ first ∈ p.first?, first.1 = kv.createRevision → first.2.value = kv.value → first.2.key = kv.key

instance (p : Participants) (kv : KeyValue) : Decidable (KeepsKey p kv) :=
  inferInstanceAs (Decidable (∀ first ∈ p.first?, _))

/-- All the puts of a watch response do. -/
def KeepKeys : Participants → List Event → Prop
  | _, [] => True
  | p, ev :: events =>
    (ev.type = .put → KeepsKey p ev.kv) ∧ KeepKeys (handleEvent p ev).1 events

instance decidableKeepKeys : ∀ (p : Participants) (events : List Event), Decidable (KeepKeys p events)
  | _, [] => inferInstanceAs (Decidable True)
  | p, ev :: events =>
    have := decidableKeepKeys (handleEvent p ev).1 events
    inferInstanceAs (Decidable (_ ∧ _))

/-- All the puts that a completion brings do. -/
def Completion.KeepKeys (p : Participants) : Completion → Prop
  | .range _ response _ status =>
    ∀ kv ∈ (if status.ok then response.getD {} else {}).kvs, KeepsKey p kv
  | .watchRead _ resp => Observer.KeepKeys p resp.events
  | _ => True

instance (p : Participants) (k : Completion) : Decidable (k.KeepKeys p) := by
  unfold Completion.KeepKeys
  cases k <;> infer_instance

/-- A put that does not report a change leaves the report as it was. -/
theorem handleNodePut_report {p : Participants} {kv : KeyValue} (hkey : KeepsKey p kv)
    (h : (handleNodePut p kv).2 = false) : report (handleNodePut p kv).1 = report p := by
  have hfst : (handleNodePut p kv).1.first? = (p.insert kv.createRevision kv).first? := by
    unfold handleNodePut
    cases p.find? kv.createRevision <;> rfl
  unfold report
  rw [hfst, OrdMap.first?_insert]
  cases hfirst : p.first? with
  | none =>
    -- the first node of all is a new leader
    exfalso
    have hfind := OrdMap.first?_eq_none.mp hfirst kv.createRevision
    simp [handleNodePut, hfind, isFirst, OrdMap.first?_insert, hfirst] at h
  | some entry =>
    rcases entry with ⟨r₀, old⟩
    by_cases hle : kv.createRevision ≤ r₀
    · have hisFirst : isFirst (p.insert kv.createRevision kv) kv.createRevision = true := by
        simp [isFirst, OrdMap.first?_insert, hfirst, hle]
      rcases OrdMap.first?_eq_some.mp hfirst with ⟨hfound, hleast⟩
      cases hfind : p.find? kv.createRevision with
      | none => simp [handleNodePut, hfind, hisFirst] at h
      | some old' =>
        -- the leader itself is put
        have hr : r₀ = kv.createRevision := le_antisymm (hleast _ _ hfind) hle
        subst hr
        rw [hfound] at hfind
        cases hfind
        have hvalue : kv.value = old.value := by
          simpa [handleNodePut, hfound, hisFirst] using h
        have hsame : old.key = kv.key := hkey (kv.createRevision, old) hfirst rfl hvalue.symm
        simp [hsame, hvalue]
    · simp [hle]

/-- A deletion that does not report a change leaves the report as it was. -/
theorem handleNodeDelete_report {p : Participants} {kv : KeyValue}
    (h : (handleNodeDelete p kv).2 = false) : report (handleNodeDelete p kv).1 = report p := by
  unfold handleNodeDelete at h ⊢
  cases hfind : p.find? kv.createRevision with
  | none => rfl
  | some old =>
    rw [hfind] at h
    show report (p.erase kv.createRevision) = report p
    cases hfirst : p.first? with
    | none =>
      rw [OrdMap.first?_eq_none.mp hfirst] at hfind
      cases hfind
    | some entry =>
      rcases entry with ⟨r₀, first⟩
      have hne : r₀ ≠ kv.createRevision := by
        simpa [isFirst, hfirst] using h
      unfold report
      rw [hfirst, OrdMap.first?_erase hfirst hne]

theorem handleEvent_report {p : Participants} {ev : Event}
    (hkey : ev.type = .put → KeepsKey p ev.kv) (h : (handleEvent p ev).2 = false) :
    report (handleEvent p ev).1 = report p := by
  unfold handleEvent at h ⊢
  split at h
  · exact handleNodePut_report (hkey ‹_›) h
  · exact handleNodeDelete_report h

/-- The flag of the loop of `on_watch_read()`. -/
theorem handleEvents_report {p : Participants} {events : List Event} (hkeys : KeepKeys p events)
    (h : (handleEvents p events).2 = false) : report (handleEvents p events).1 = report p := by
  -- generalized over the flag so far, which only ever gets set
  have hfold : ∀ (events : List Event) (p : Participants) (flag : Bool), KeepKeys p events →
      (events.foldl (fun st ev => ((handleEvent st.1 ev).1, (handleEvent st.1 ev).2 || st.2))
        (p, flag)).2 = false →
      flag = false ∧ report (events.foldl (fun st ev =>
        ((handleEvent st.1 ev).1, (handleEvent st.1 ev).2 || st.2)) (p, flag)).1 = report p := by
    intro events
    induction events with
    | nil =>
      intro p flag _ hflag
      exact ⟨hflag, rfl⟩
    | cons ev events ih =>
      intro p flag hkeys hflag
      rcases ih _ _ hkeys.2 hflag with ⟨hor, hrep⟩
      rcases Bool.or_eq_false_iff.mp hor with ⟨hev, hflag'⟩
      exact ⟨hflag', hrep.trans (handleEvent_report hkeys.1 hev)⟩
  exact (hfold events p false hkeys h).2

/-! ## The machine -/

/-- A round in progress. -/
structure Visiting where
  key : Bytes
  value : Bytes
  /-- The subscribers still to be called. -/
  todo : Finset Nat
  /-- The one that the iteration is at. -/
  current : Option Nat := none
  /-- `subscriptions_` was modified in a way that leaves the iteration undefined. -/
  undefined : Bool := false
  /-- `on_watch_read()` posts a read after the round. -/
  thenRead : Bool
deriving DecidableEq

/-- An observer whose rounds take time. -/
structure Notifier where
  obs : Observer
  round : Option Visiting := none
  /-- Ghost: the last call that a subscriber received. -/
  last : Nat → Bytes × Bytes := fun _ => ([], [])

/-- A handler up to its round; with the round, whether a read follows it. -/
def untilRound (c : Observer) : Completion → Observer × Option Bool
  | .range _ response ok status =>
    let resp := if status.ok then response.getD {} else {}
    if !ok then (c, none)
    else
      let c := { c with discovered := some resp }
      match resp.kvs with
      | [] => (c.createWatcher resp.revision, none)
      | kv :: rest =>
        let c := c.createWatcher kv.createRevision
        if rest ≠ [] then (c, none)
        else
          let r := handleNodePut c.participants kv
          ({ c with participants := r.1 }, if r.2 then some false else none)
  | .watchRead ok resp =>
    if !ok then (c, none)
    else if resp.canceled || resp.compactRevision ≠ 0 then (c, none)
    else
      let r := handleEvents c.participants resp.events
      let c := { c with watchId := resp.watchId, participants := r.1 }
      if r.2 then (c, some true) else (c.postRead, none)
  | k => ((c.body k).1, none)

/-- The rest of a handler, once its round has ended. -/
def afterRound (c : Observer) (thenRead : Bool) : Observer := if thenRead then c.postRead else c

/-- What a step of the application tells the subscriber that it registers. -/
def registers (c : Observer) : Act → Option (Bytes × Bytes)
  | .subscribe => if c.leader = none then some ([], []) else none
  | .subscriberDone key value false => some (key, value)
  | _ => none

/-- The subscriber that a step of the application removes. -/
def removes : Act → Option Nat
  | .unsubscribe token => some token
  | _ => none

/-- The steps that no completion handler takes. -/
def isApplication : Act → Bool
  | .complete _ => false
  | _ => true

namespace Notifier

/-- What can happen to an observer whose rounds take time. -/
inductive Act where
  /-- The application, or the server. -/
  | app (a : Observer.Act)
  /-- The completion thread runs a handler, up to its round. -/
  | complete (k : Completion)
  /-- It calls a subscriber. -/
  | visit (token : Nat)
  | roundDone
deriving DecidableEq

/-- A subscriber is inserted, with what it was told. -/
def register (s : Notifier) (c' : Observer) (told : Bytes × Bytes) : Notifier where
  obs := c'
  last := Function.update s.last c'.tokenGen told
  round := s.round.map fun r => { r with undefined := true }

/-- A subscriber is erased. -/
def unregister (s : Notifier) (c' : Observer) (token : Nat) : Notifier where
  obs := c'
  last := s.last
  round := s.round.map fun r =>
    { r with
      todo := r.todo.erase token
      undefined := r.undefined || decide (r.current = some token) }

/-- A step of the application. -/
def application (s : Notifier) (a : Observer.Act) (c' : Observer) : Notifier :=
  match registers s.obs a with
  | some told => s.register c' told
  | none =>
    match removes a with
    | some token => s.unregister c' token
    | none => { s with obs := c' }

/-- A handler, up to its round. -/
def enter (s : Notifier) (k : Completion) : Notifier :=
  match untilRound (s.obs.enter k).asyncOpDone k with
  | (c, none) => { s with obs := c }
  | (c, some thenRead) =>
    let kv := c.leader.getD {}
    { s with
      obs := c.callSubscribers
      round := some
        { key := kv.key
          value := kv.value
          todo := c.subscriptions
          thenRead := thenRead } }

/-- One step. -/
def step (s : Notifier) : Act → Option Notifier
  | .app a =>
    if isApplication a then (s.obs.act a).map fun r => s.application a r.1 else none
  | .complete k =>
    if s.round = none ∧ k.op ∈ s.obs.pending ∧ k.WellFormed then some (s.enter k) else none
  | .visit token =>
    match s.round with
    | none => none
    | some r =>
      if token ∈ s.obs.subscriptions ∧ (token ∈ r.todo ∨ r.undefined = true) then
        some
          { s with
            last := Function.update s.last token (r.key, r.value)
            round := some { r with todo := r.todo.erase token, current := some token } }
      else none
  | .roundDone =>
    match s.round with
    | none => none
    | some r =>
      if r.todo = ∅ ∨ r.undefined = true then
        some { s with obs := s.obs.afterRound r.thenRead, round := none }
      else none

/-- A fresh observer. -/
def init (name : Bytes) : Notifier where
  obs := .init name

/-- The machine. -/
def machine : Machine Notifier Act where
  Init s := ∃ name, s = init name
  step := step

/-- The subscribers that are registered were told what there is to tell. -/
def Informed (s : Notifier) : Prop :=
  ∀ token ∈ s.obs.subscriptions, s.last token = report s.obs.participants

/-- A subscriber is registered with the leader that it was told, while no round is in
progress; a round is not disturbed; and puts keep the key of the leader. -/
def Calm (s : Notifier) : Act → Prop
  | .app a =>
    (∀ told ∈ registers s.obs a, s.round = none ∧ told = report s.obs.participants) ∧
    ∀ token ∈ removes a, ∀ r ∈ s.round, r.current ≠ some token
  | .complete k => k.KeepKeys s.obs.participants
  | _ => True

instance (s : Notifier) (a : Act) : Decidable (s.Calm a) := by
  unfold Calm
  cases a <;> infer_instance

end Notifier

/-! ## A handler with its round -/

/-- With its round, a handler is what it is in one step. -/
theorem handle_eq_rounds (c : Observer) (k : Completion) :
    (c.handle k).1 =
      match untilRound (c.enter k).asyncOpDone k with
      | (c', none) => c'
      | (c', some thenRead) => c'.callSubscribers.afterRound thenRead := by
  unfold handle
  generalize (c.enter k).asyncOpDone = d
  cases k with
  | watchCreate req ok => rfl
  | watchCancel id ok => rfl
  | range req response ok status =>
    simp only [body, onRangeRequest, untilRound]
    generalize (if status.ok = true then response.getD {} else {}) = resp
    cases ok with
    | false => rfl
    | true =>
      simp only [Bool.not_true, Bool.false_eq_true, if_false]
      cases resp.kvs with
      | nil => rfl
      | cons kv rest =>
        by_cases hrest : rest = []
        · simp only [hrest, ne_eq, not_true, if_false, reportElectionLeader]
          split <;> simp_all [afterRound]
        · simp [hrest]
  | watchRead ok resp =>
    simp only [body, onWatchRead, untilRound]
    cases ok with
    | false => rfl
    | true =>
      simp only [Bool.not_true, Bool.false_eq_true, if_false]
      by_cases hcan : (resp.canceled || decide (resp.compactRevision ≠ 0)) = true
      · simp only [hcan, if_true]
      · simp only [hcan, Bool.false_eq_true, if_false]
        cases (handleEvents d.participants resp.events).2 <;> rfl

theorem createWatcher_keeps (c : Observer) (rev : Int) :
    (c.createWatcher rev).participants = c.participants ∧
    (c.createWatcher rev).subscriptions = c.subscriptions := by
  unfold createWatcher
  split <;> exact ⟨rfl, rfl⟩

theorem postRead_keeps (c : Observer) :
    c.postRead.participants = c.participants ∧ c.postRead.subscriptions = c.subscriptions := by
  unfold postRead
  split <;> exact ⟨rfl, rfl⟩

/-- A handler keeps the subscriptions. -/
theorem untilRound_subscriptions (c : Observer) (k : Completion) :
    (untilRound c k).1.subscriptions = c.subscriptions := by
  cases k with
  | watchCancel id ok => rfl
  | watchCreate req ok =>
    simp only [untilRound, body, onWatchCreate]
    split
    · rfl
    · exact (postRead_keeps c).2
  | range req response ok status =>
    simp only [untilRound]
    split
    · rfl
    · split
      · exact (createWatcher_keeps _ _).2
      · split
        · exact (createWatcher_keeps _ _).2
        · exact (createWatcher_keeps _ _).2
  | watchRead ok resp =>
    simp only [untilRound]
    split
    · rfl
    · split
      · rfl
      · split
        · rfl
        · exact (postRead_keeps _).2

/-- A handler without a round keeps the report. -/
theorem untilRound_report {c : Observer} {k : Completion} (hkeys : k.KeepKeys c.participants)
    (h : (untilRound c k).2 = none) :
    report (untilRound c k).1.participants = report c.participants := by
  cases k with
  | watchCancel id ok => rfl
  | watchCreate req ok =>
    simp only [untilRound, body, onWatchCreate]
    split
    · rfl
    · rw [(postRead_keeps c).1]
  | range req response ok status =>
    simp only [untilRound, Completion.KeepKeys] at h hkeys ⊢
    generalize (if status.ok = true then response.getD {} else {}) = resp at h hkeys ⊢
    cases ok with
    | false => rfl
    | true =>
      simp only [Bool.not_true, Bool.false_eq_true, if_false] at h ⊢
      cases hkvs : resp.kvs with
      | nil => rw [(createWatcher_keeps _ _).1]
      | cons kv rest =>
        have hkey := hkeys kv (by simp [hkvs])
        simp only [hkvs] at h ⊢
        by_cases hrest : rest = []
        · simp only [hrest, ne_eq, not_true, if_false] at h ⊢
          rw [(createWatcher_keeps _ _).1] at h ⊢
          refine handleNodePut_report hkey ?_
          by_contra hflag
          simp [hflag] at h
        · simp only [hrest, ne_eq, not_false_eq_true, if_true]
          rw [(createWatcher_keeps _ _).1]
  | watchRead ok resp =>
    simp only [untilRound, Completion.KeepKeys] at h hkeys ⊢
    split at h
    · rename_i hok
      simp only [hok, if_true]
    · rename_i hok
      split at h
      · rename_i hcan
        simp only [hok, hcan, if_true, if_false, Bool.false_eq_true]
      · rename_i hcan
        split at h
        · cases h
        · rename_i hflag
          simp only [hok, hcan, hflag, if_false, Bool.false_eq_true]
          rw [(postRead_keeps _).1]
          exact handleEvents_report hkeys (by simpa using hflag)

theorem startup_keeps (c : Observer) :
    c.startup.1.participants = c.participants ∧ c.startup.1.subscriptions = c.subscriptions := by
  simp only [startup]
  split <;> exact ⟨rfl, rfl⟩

theorem onStreamCreated_keeps (c : Observer) (ok : Bool) :
    (c.onStreamCreated ok).1.participants = c.participants ∧
    (c.onStreamCreated ok).1.subscriptions = c.subscriptions := by
  unfold onStreamCreated
  cases ok with
  | false => exact ⟨rfl, rfl⟩
  | true =>
    simp only [Bool.not_true, Bool.false_eq_true, if_false, discover]
    split <;> exact ⟨rfl, rfl⟩

theorem shutdown_keeps (c : Observer) :
    c.shutdown.1.participants = c.participants ∧ c.shutdown.1.subscriptions = c.subscriptions := by
  unfold shutdown
  split
  · exact ⟨rfl, rfl⟩
  · unfold cancelWatcher
    split <;> exact ⟨rfl, rfl⟩

/-- What a step of the application does to the subscriptions. -/
theorem application_keeps {c c' : Observer} {a : Act} {o : Outcome} (happ : isApplication a = true)
    (h : c.act a = some (c', o)) :
    c'.participants = c.participants ∧
    c'.subscriptions =
      match registers c a with
      | some _ => insert c'.tokenGen c.subscriptions
      | none =>
        match removes a with
        | some token => c.subscriptions.erase token
        | none => c.subscriptions := by
  cases a with
  | complete k => cases happ
  | startup =>
    obtain ⟨-, rfl⟩ := of_guard_not h
    exact startup_keeps c
  | streamCreated ok =>
    obtain ⟨-, rfl⟩ := of_guard h
    exact onStreamCreated_keeps c ok
  | subscribe =>
    obtain ⟨-, rfl⟩ := of_guard_not h
    unfold subscribe registers
    cases c.leader with
    | none => exact ⟨rfl, rfl⟩
    | some kv => exact ⟨rfl, rfl⟩
  | subscriberDone key value throws =>
    obtain ⟨-, rfl⟩ := of_guard h
    cases throws with
    | true => exact ⟨rfl, rfl⟩
    | false => exact ⟨rfl, rfl⟩
  | unsubscribe token =>
    obtain ⟨-, rfl⟩ := of_guard_not h
    exact ⟨rfl, rfl⟩
  | shutdown =>
    obtain ⟨-, rfl⟩ := of_guard_not h
    exact shutdown_keeps c
  | destroy =>
    obtain ⟨-, rfl⟩ := of_guard_not h
    exact ⟨rfl, rfl⟩
  | answerRange req resp =>
    obtain ⟨-, rfl⟩ := of_guard h
    exact ⟨rfl, rfl⟩
  | opsDrained =>
    obtain ⟨-, rfl⟩ := of_guard h
    exact ⟨rfl, rfl⟩

/-! ## The invariant -/

namespace Notifier

variable {s s' : Notifier} {a : Act}

/-- During a round, whoever was not told yet is still to be called. -/
structure Consistent (s : Notifier) : Prop where
  idle : s.round = none → s.Informed
  busy : ∀ r, s.round = some r → r.undefined = false ∧
    (r.key, r.value) = report s.obs.participants ∧
    ∀ token ∈ s.obs.subscriptions, s.last token = report s.obs.participants ∨ token ∈ r.todo

theorem consistent_init (name : Bytes) : Consistent (init name) where
  idle _ token htoken := by simp [init, Observer.init] at htoken
  busy r hr := by simp [init] at hr

theorem Consistent.application {a : Observer.Act} {c' : Observer} {o : Outcome} (h : Consistent s)
    (hcalm : s.Calm (.app a)) (happ : isApplication a = true) (hact : s.obs.act a = some (c', o)) :
    Consistent (s.application a c') := by
  rcases hcalm with ⟨hreg, hrem⟩
  rcases application_keeps happ hact with ⟨hpart, hsubs⟩
  unfold Notifier.application
  cases hr : registers s.obs a with
  | some told =>
    rcases hreg told hr with ⟨hround, htold⟩
    have hsubs' : c'.subscriptions = insert c'.tokenGen s.obs.subscriptions := by
      rw [hsubs, hr]
    constructor
    · intro _ token htoken
      show Function.update s.last c'.tokenGen told token = report c'.participants
      rw [hpart]
      by_cases heq : token = c'.tokenGen
      · rw [heq, Function.update_self, htold]
      · rw [Function.update_of_ne heq]
        refine h.idle hround token ?_
        rw [show (s.register c' told).obs.subscriptions = _ from hsubs', Finset.mem_insert] at htoken
        exact htoken.resolve_left heq
    · intro r hr'
      simp [register, hround] at hr'
  | none =>
    cases ht : removes a with
    | some token =>
      have hsubs' : c'.subscriptions = s.obs.subscriptions.erase token := by
        rw [hsubs, hr, ht]
      have hof : ∀ t ∈ c'.subscriptions, t ≠ token ∧ t ∈ s.obs.subscriptions := by
        intro t hmem
        rw [hsubs'] at hmem
        exact Finset.mem_erase.mp hmem
      constructor
      · intro hround t hmem
        have hround' : s.round = none := by simpa [unregister] using hround
        show s.last t = report c'.participants
        rw [hpart]
        exact h.idle hround' t (hof t hmem).2
      · intro r hr'
        obtain ⟨r₀, hr₀, rfl⟩ : ∃ r₀, s.round = some r₀ ∧
            { r₀ with
              todo := r₀.todo.erase token
              undefined := r₀.undefined || decide (r₀.current = some token) } = r := by
          simpa [unregister] using hr'
        rcases h.busy r₀ hr₀ with ⟨hdef, hkv, htodo⟩
        have hcur : r₀.current ≠ some token := hrem token ht r₀ hr₀
        refine ⟨by simp [hdef, hcur], ?_, ?_⟩
        · show (r₀.key, r₀.value) = report c'.participants
          rw [hpart]
          exact hkv
        · intro t hmem
          show s.last t = report c'.participants ∨ t ∈ r₀.todo.erase token
          rw [hpart]
          rcases hof t hmem with ⟨hne, hold⟩
          rcases htodo t hold with htold | hin
          · exact Or.inl htold
          · exact Or.inr (Finset.mem_erase.mpr ⟨hne, hin⟩)
    | none =>
      have hsubs' : c'.subscriptions = s.obs.subscriptions := by
        rw [hsubs, hr, ht]
      constructor
      · intro hround
        show ∀ token ∈ c'.subscriptions, s.last token = report c'.participants
        rw [hsubs', hpart]
        exact h.idle hround
      · intro r hr'
        show r.undefined = false ∧ (r.key, r.value) = report c'.participants ∧
          ∀ token ∈ c'.subscriptions, s.last token = report c'.participants ∨ token ∈ r.todo
        rw [hsubs', hpart]
        exact h.busy r hr'

/-- The report of a round is about the leader of the observer. -/
theorem report_leader (c : Observer) :
    ((c.leader.getD {}).key, (c.leader.getD {}).value) = report c.participants := by
  unfold leader report
  cases c.participants.first? <;> rfl

theorem Consistent.enter {k : Completion} (h : Consistent s) (hround : s.round = none)
    (hkeys : k.KeepKeys s.obs.participants) : Consistent (s.enter k) := by
  set d := (s.obs.enter k).asyncOpDone with hd
  have hsubs : (untilRound d k).1.subscriptions = s.obs.subscriptions :=
    untilRound_subscriptions d k
  unfold Notifier.enter
  rw [← hd]
  cases hu : untilRound d k with
  | mk c thenRead =>
    rw [hu] at hsubs
    cases thenRead with
    | none =>
      -- nothing to report
      have hrep : report (untilRound d k).1.participants = report s.obs.participants :=
        untilRound_report (c := d) hkeys (by rw [hu])
      rw [hu] at hrep
      constructor
      · intro _
        show ∀ token ∈ c.subscriptions, s.last token = report c.participants
        rw [show c.subscriptions = _ from hsubs, show report c.participants = _ from hrep]
        exact h.idle hround
      · intro r hr
        rw [show s.round = some r from hr] at hround
        cases hround
    | some thenRead =>
      constructor
      · intro hnone
        cases hnone
      · intro r hr
        cases hr
        refine ⟨rfl, report_leader c, ?_⟩
        intro token htoken
        exact Or.inr htoken

theorem Consistent.step (h : Consistent s) (hcalm : s.Calm a) (hstep : s.step a = some s') :
    Consistent s' := by
  cases a with
  | app a =>
    simp only [Notifier.step] at hstep
    split at hstep
    · rename_i happ
      rcases Option.map_eq_some_iff.mp hstep with ⟨⟨c', o⟩, hact, rfl⟩
      exact h.application hcalm happ hact
    · cases hstep
  | complete k =>
    simp only [Notifier.step] at hstep
    split at hstep
    · rename_i hk
      cases hstep
      exact h.enter hk.1 hcalm
    · cases hstep
  | visit token =>
    simp only [Notifier.step] at hstep
    split at hstep
    · cases hstep
    · rename_i r hr
      split at hstep
      · cases hstep
        rcases h.busy r hr with ⟨hdef, hkv, htodo⟩
        constructor
        · intro hnone
          cases hnone
        · intro r' hr'
          cases hr'
          refine ⟨hdef, hkv, ?_⟩
          intro t ht
          show Function.update s.last token (r.key, r.value) t = _ ∨ t ∈ r.todo.erase token
          by_cases heq : t = token
          · left
            rw [heq, Function.update_self, hkv]
          · rw [Function.update_of_ne heq]
            rcases htodo t ht with htold | hin
            · exact Or.inl htold
            · exact Or.inr (Finset.mem_erase.mpr ⟨heq, hin⟩)
      · cases hstep
  | roundDone =>
    simp only [Notifier.step] at hstep
    split at hstep
    · cases hstep
    · rename_i r hr
      split at hstep
      · rename_i hend
        cases hstep
        rcases h.busy r hr with ⟨hdef, _, htodo⟩
        have hempty : r.todo = ∅ := by simpa [hdef] using hend
        have hkeep : (s.obs.afterRound r.thenRead).participants = s.obs.participants ∧
            (s.obs.afterRound r.thenRead).subscriptions = s.obs.subscriptions := by
          unfold afterRound
          split
          · exact postRead_keeps s.obs
          · exact ⟨rfl, rfl⟩
        constructor
        · intro _
          show ∀ token ∈ (s.obs.afterRound r.thenRead).subscriptions,
            s.last token = report (s.obs.afterRound r.thenRead).participants
          rw [hkeep.1, hkeep.2]
          intro token htoken
          rcases htodo token htoken with htold | hin
          · exact htold
          · rw [hempty] at hin
            simp at hin
        · intro r' hr'
          cases hr'
      · cases hstep

theorem consistent (h : machine.Reachable Calm s) : Consistent s := by
  refine h.invariant ?_ ?_
  · rintro _ ⟨name, rfl⟩
    exact consistent_init name
  · intro s a s' ih hcalm hstep
    exact ih.step hcalm hstep

/-! ## Who was told -/

/-- In calm runs, outside of a round every subscriber was told the current leader last. A
subscriber that is registered outside of a round keeps that so if and only if it was told
the current leader. -/
theorem subscribers_informed (s : Notifier) (hs : machine.Reachable Calm s)
    (hround : s.round = none) : s.Informed ∧
    ∀ s' key value, s.step (.app (.subscriberDone key value false)) = some s' →
      (s'.Informed ↔ (key, value) = report s.obs.participants) := by
  constructor
  · exact (consistent hs).idle hround
  · intro s' key value hstep
    constructor
    -- the new subscriber is one of those who have to be told
    · intro hinf
      rcases Option.map_eq_some_iff.mp hstep with ⟨⟨c', o⟩, hact, rfl⟩
      rcases application_keeps (a := .subscriberDone key value false) rfl hact with ⟨hpart, hsubs⟩
      have hmem : c'.tokenGen ∈ c'.subscriptions := by
        rw [show c'.subscriptions = insert c'.tokenGen s.obs.subscriptions from hsubs]
        exact Finset.mem_insert_self _ _
      have htold : Function.update s.last c'.tokenGen (key, value) c'.tokenGen =
          report c'.participants := hinf c'.tokenGen hmem
      rw [Function.update_self, hpart] at htold
      exact htold
    · intro heq
      have hcalm : s.Calm (.app (.subscriberDone key value false)) := by
        constructor
        · intro told htold
          cases htold
          exact ⟨hround, heq⟩
        · intro token htoken
          cases htoken
      have hround' : s'.round = none := by
        rcases Option.map_eq_some_iff.mp hstep with ⟨r, _, rfl⟩
        show s.round.map _ = none
        rw [hround]
        rfl
      exact ((consistent hs).step hcalm hstep).idle hround'

/-- The node of a candidate. -/
def node : KeyValue where
  key := [0x2F, 0x61]
  value := [1]
  createRevision := 2
  modRevision := 2

/-- An observer that starts and finds that node; it has no subscriber yet. -/
def findsNode : List Act :=
  let c := Observer.init []
  let resp : RangeResponse := { revision := 2, kvs := [node] }
  [.app .startup, .app (.streamCreated true), .app (.answerRange c.discoverRequest resp),
    .complete (.range c.discoverRequest (some resp) true {}), .roundDone,
    .complete (.watchCreate (c.watcherRequest 2) true)]

/-- The node is created, as the watch replays it, and deleted. -/
def nodeLeaves : Completion :=
  .watchRead true
    { events := [{ type := .put, kv := node },
        { type := .delete, kv := { key := node.key, modRevision := 3 }, prevKv := node }] }

/-- A subscriber that is registered before the node is deleted is told that it is. -/
theorem subscribers_informed_registered :
    (∃ s, machine.Reachable Calm s ∧ s.round = none ∧ 1 ∈ s.obs.subscriptions ∧
      report s.obs.participants = ([], []) ∧ s.Informed) ∧
    ∃ s s', machine.Reachable Calm s ∧ s.round = none ∧
      s.step (.app (.subscriberDone node.key node.value false)) = some s' ∧ s'.Informed := by
  constructor
  · rcases reachable_of_execIf machine (fun s a => decide (s.Calm a)) (init [])
      (findsNode ++ [.app .subscribe, .app (.subscriberDone node.key node.value false),
        .complete nodeLeaves, .visit 1, .roundDone])
      (fun s => decide (s.round = none) && decide (1 ∈ s.obs.subscriptions) &&
        decide (report s.obs.participants = ([], [])))
      (fun _ _ => of_decide_eq_true) ⟨_, rfl⟩ (by decide) with ⟨s, hreach, hcheck⟩
    simp only [Bool.and_eq_true, decide_eq_true_eq] at hcheck
    rcases hcheck with ⟨⟨hround, hmem⟩, hrep⟩
    exact ⟨s, hreach, hround, hmem, hrep, (subscribers_informed s hreach hround).1⟩
  · rcases reachable_of_execIf machine (fun s a => decide (s.Calm a)) (init [])
      (findsNode ++ [.app .subscribe])
      (fun s => decide (s.round = none) &&
        decide (report s.obs.participants = (node.key, node.value)) &&
        (s.step (.app (.subscriberDone node.key node.value false))).isSome)
      (fun _ _ => of_decide_eq_true) ⟨_, rfl⟩ (by decide) with ⟨s, hreach, hcheck⟩
    simp only [Bool.and_eq_true, decide_eq_true_eq] at hcheck
    rcases hcheck with ⟨⟨hround, hrep⟩, hsome⟩
    rcases Option.isSome_iff_exists.mp hsome with ⟨s', hstep⟩
    refine ⟨s, s', hreach, hround, hstep, ?_⟩
    exact ((subscribers_informed s hreach hround).2 s' node.key node.value hstep).mpr hrep.symm

/-- The leader goes between the two critical sections of `subscribe()`: the subscriber is
told the leader that was, and is not told that there is none. -/
theorem subscriber_misses_change : ∃ s, machine.Reachable Any s ∧ s.round = none ∧
    s.obs.calls = 0 ∧ 1 ∈ s.obs.subscriptions ∧ s.last 1 = (node.key, node.value) ∧
    report s.obs.participants = ([], []) ∧ ¬ s.Informed := by
  rcases reachable_of_exec machine (init [])
    (findsNode ++ [.app .subscribe, .complete nodeLeaves, .roundDone,
      .app (.subscriberDone node.key node.value false)])
    (fun s => decide (s.round = none) && decide (s.obs.calls = 0) &&
      decide (1 ∈ s.obs.subscriptions) && decide (s.last 1 = (node.key, node.value)) &&
      decide (report s.obs.participants = ([], [])))
    ⟨_, rfl⟩ (by decide) with ⟨s, hreach, hcheck⟩
  simp only [Bool.and_eq_true, decide_eq_true_eq] at hcheck
  rcases hcheck with ⟨⟨⟨⟨hround, hcalls⟩, hmem⟩, hlast⟩, hrep⟩
  refine ⟨s, hreach, hround, hcalls, hmem, hlast, hrep, ?_⟩
  intro hinf
  have htold := hinf 1 hmem
  rw [hlast, hrep] at htold
  cases htold

end Notifier

end GeeH.Observer
