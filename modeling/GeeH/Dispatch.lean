import GeeH.Candidate.Invariants
import GeeH.Observer.Steps
import GeeH.Session.Steps

/-!
# GeeH.Dispatch — `gh/detail/base_completion_queue.cpp`

`run()` takes one completion after the other and calls its handler. It catches
nothing: an exception that leaves a handler leaves the loop. The calls of the
application run on threads of their own, and what they throw stays there.
-/

namespace GeeH

open Machine Etcd

/-- The object whose handlers a loop calls, and the exception with which the loop ended. -/
structure Loop (σ : Type) where
  obj : σ
  uncaught : Option Exn := none
deriving DecidableEq

namespace Loop

variable {σ α : Type}

/-- What leaves a handler. -/
def escaping : Outcome → Option Exn
  | .threw e => some e
  | _ => none

/-- One turn of `run()`, or one step of a call. -/
def step (act : σ → α → Option (σ × Outcome)) (isQueue : α → Bool) (s : Loop σ) (a : α) :
    Option (Loop σ) :=
  if isQueue a then
    match s.uncaught with
    | some _ => none
    | none => (act s.obj a).map fun r => { obj := r.1, uncaught := escaping r.2 }
  else (act s.obj a).map fun r => { s with obj := r.1 }

/-- `run()` on an object. -/
def run (init : σ → Prop) (act : σ → α → Option (σ × Outcome)) (isQueue : α → Bool) :
    Machine (Loop σ) α where
  Init s := init s.obj ∧ s.uncaught = none
  step := step act isQueue

section Survives

variable {init : σ → Prop} {act : σ → α → Option (σ × Outcome)} {isQueue : α → Bool}
  {ok : α → Prop} {s s' : Loop σ} {a : α}
  (hcall : ∀ a, isQueue a = false → ok a)
  (hthrow : ∀ c a c' o, act c a = some (c', o) → isQueue a = true → (escaping o = none ↔ ok a))
include hcall hthrow

/-- Where the handlers return exactly in the steps that are `ok`, such a step leaves the loop
running, and no other does. -/
theorem step_iff (hs : s.uncaught = none) (hstep : (run init act isQueue).step s a = some s') :
    s'.uncaught = none ↔ ok a := by
  simp only [run, step] at hstep
  split at hstep
  · rename_i hq
    rw [hs] at hstep
    rcases Option.map_eq_some_iff.mp hstep with ⟨⟨c', o⟩, hact, rfl⟩
    exact hthrow _ a c' o hact hq
  · rename_i hq
    rcases Option.map_eq_some_iff.mp hstep with ⟨⟨c', o⟩, hact, rfl⟩
    exact iff_of_true hs (hcall a (by simpa using hq))

theorem uncaught_of_ok (hs : (run init act isQueue).Reachable (fun _ a => ok a) s) :
    s.uncaught = none := by
  refine hs.invariant ?_ ?_
  · rintro s ⟨_, hnone⟩
    exact hnone
  · intro s a s' ih hok hstep
    exact (step_iff hcall hthrow ih hstep).mpr hok

end Survives

end Loop

/-! ## The handlers -/

namespace Session

/-- `run()` on a session. -/
def loop : Machine (Loop Session) Act := Loop.run machine.Init act Act.isQueue

/-- The handlers of a session return. -/
theorem handlers_return {c c' : Session} {a : Act} {o : Outcome} (hact : c.act a = some (c', o))
    (hq : a.isQueue = true) : Loop.escaping o = none := by
  cases a with
  | complete k =>
    simp only [act] at hact
    split at hact
    · cases hact
      rfl
    · cases hact
  | _ => cases hq

end Session

namespace Candidate

/-- `run()` on a candidate. -/
def loop : Machine (Loop Candidate) Act := Loop.run machine.Init act Act.isQueue

/-- No query is completed with a status that is not OK. -/
def Act.Harmless : Act → Prop
  | .complete (.rangeRequest _ _ true status) => status.ok = true
  | _ => True

instance : DecidablePred Act.Harmless
  | .complete (.rangeRequest _ _ true status) => inferInstanceAs (Decidable (status.ok = true))
  | .resign
  | .campaign | .proclaim _ | .destroy | .answerRange _ _ | .answerTxn _ _
  | .complete (.rangeRequest _ _ false _) | .complete (.watchCreate _ _ _)
  | .complete (.watchRead _ _ _ _) | .streamCreated _ | .txnDone _ _ _ | .cancelWritten _ _
  | .cancelsDone | .readsDone | .writesDone _ | .finished _ | .opsDrained | .readsDrained =>
    inferInstanceAs (Decidable True)

/-- A handler of a candidate returns, unless it is `on_range_request()` and checks the status. -/
theorem body_returns (c : Candidate) (k : Completion) :
    Loop.escaping (c.body k).2 = none ↔ (Act.complete k).Harmless := by
  cases k with
  | rangeRequest req resp ok status =>
    cases ok with
    | false => exact iff_of_true rfl trivial
    | true =>
      cases hst : status.ok with
      | false => simp [body, onRangeRequest, Act.Harmless, hst, Loop.escaping]
      | true =>
        refine iff_of_true ?_ hst
        simp only [body, onRangeRequest, hst, Bool.not_true, Bool.false_eq_true, if_false]
        split <;> rfl
  | watchCreate wkey wrevision ok => exact iff_of_true rfl trivial
  | watchRead wkey wrevision ok resp => exact iff_of_true rfl trivial

theorem handlers_return {c c' : Candidate} {a : Act} {o : Outcome}
    (hact : c.act a = some (c', o)) (hq : a.isQueue = true) :
    Loop.escaping o = none ↔ a.Harmless := by
  cases a with
  | complete k =>
    simp only [act] at hact
    split at hact
    · have ho : o = (c.handle k).2 := by rw [Option.some.inj hact]
      rw [ho]
      exact body_returns _ k
    · cases hact
  | cancelWritten writes w =>
    simp only [act] at hact
    split at hact
    · cases hact
      exact iff_of_true rfl trivial
    · cases hact
  | _ => cases hq

end Candidate

namespace Observer

/-- `run()` on an observer. -/
def loop : Machine (Loop Observer) Act := Loop.run machine.Init act Act.isQueue

/-- No Range is answered with more nodes than it asked for. -/
def Act.Harmless : Act → Prop
  | .complete (.range _ resp true status) => status.ok = true → (resp.getD {}).kvs.length ≤ 1
  | _ => True

/-- A handler of an observer returns, unless it is `on_range_request()` and checks the number
of nodes. What subscribers throw is caught. -/
theorem body_returns (c : Observer) (k : Completion) :
    Loop.escaping (c.body k).2 = none ↔ (Act.complete k).Harmless := by
  cases k with
  | range req resp ok status =>
    cases ok with
    | false => exact iff_of_true rfl trivial
    | true =>
      simp only [body, onRangeRequest, Act.Harmless, Bool.not_true, Bool.false_eq_true, if_false]
      cases hst : status.ok with
      | false => simp [Loop.escaping]
      | true =>
        simp only [if_true, true_imp_iff]
        split
        · rename_i hkvs
          simp [Loop.escaping, hkvs]
        · rename_i kv rest hkvs
          cases rest with
          | nil => simp [Loop.escaping, hkvs]
          | cons kv' rest => simp [Loop.escaping, hkvs]
  | watchCreate req ok => exact iff_of_true rfl trivial
  | watchCancel id ok => exact iff_of_true rfl trivial
  | watchRead ok resp => exact iff_of_true rfl trivial

theorem handlers_return {c c' : Observer} {a : Act} {o : Outcome}
    (hact : c.act a = some (c', o)) (hq : a.isQueue = true) :
    Loop.escaping o = none ↔ a.Harmless := by
  cases a with
  | complete k =>
    simp only [act] at hact
    split at hact
    · have ho : o = (c.handle k).2 := by rw [Option.some.inj hact]
      rw [ho]
      exact body_returns _ k
    · cases hact
  | _ => cases hq

end Observer

/-! ## The loop -/

/-- Nothing that a session is told ends the loop. A candidate ends it if and only if a query
completes with a bad status, an observer if and only if a Range is answered with several nodes. -/
theorem loop_survives (s : Loop Session) (c : Loop Candidate) (o : Loop Observer) :
    (Session.loop.Reachable Any s → s.uncaught = none) ∧
    (Candidate.loop.Reachable (fun _ a => a.Harmless) c → c.uncaught = none ∧
      ∀ a c', Candidate.loop.step c a = some c' → (c'.uncaught = none ↔ a.Harmless)) ∧
    (Observer.loop.Reachable (fun _ a => a.Harmless) o → o.uncaught = none ∧
      ∀ a o', Observer.loop.step o a = some o' → (o'.uncaught = none ↔ a.Harmless)) := by
  have hcandidate : ∀ a : Candidate.Act, a.isQueue = false → a.Harmless := by
    intro a hq
    cases a with
    | complete k => cases hq
    | _ => trivial
  have hobserver : ∀ a : Observer.Act, a.isQueue = false → a.Harmless := by
    intro a hq
    cases a with
    | complete k => cases hq
    | _ => trivial
  refine ⟨?_, ?_, ?_⟩
  · intro hs
    refine Loop.uncaught_of_ok (fun _ _ => trivial) ?_ hs
    intro c a c' o hact hq
    exact iff_of_true (Session.handlers_return hact hq) trivial
  · intro hc
    have hnone : c.uncaught = none :=
      Loop.uncaught_of_ok hcandidate (fun _ _ _ _ => Candidate.handlers_return) hc
    refine ⟨hnone, ?_⟩
    intro a c' hstep
    exact Loop.step_iff hcandidate (fun _ _ _ _ => Candidate.handlers_return) hnone hstep
  · intro ho
    have hnone : o.uncaught = none :=
      Loop.uncaught_of_ok hobserver (fun _ _ _ _ => Observer.handlers_return) ho
    refine ⟨hnone, ?_⟩
    intro a o' hstep
    exact Loop.step_iff hobserver (fun _ _ _ _ => Observer.handlers_return) hnone hstep

/-- A candidate is elected, by an answer with OK status. -/
theorem loop_survives_elected : ∃ s, Candidate.loop.Reachable (fun _ a => a.Harmless) s ∧
    s.obj.elected = true ∧ s.uncaught = none := by
  rcases reachable_of_execIf Candidate.loop (fun _ a => decide a.Harmless)
    { obj := Candidate.init [] 1 [] }
    (Candidate.campaignTrace ++ [.answerRange Candidate.firstQuery { revision := 2 },
      .complete (.rangeRequest Candidate.firstQuery (some { revision := 2 }) true {})])
    (fun s => s.obj.elected) (fun _ _ => of_decide_eq_true) ⟨⟨_, _, _, rfl⟩, rfl⟩ (by decide) with
    ⟨s, hreach, hel⟩
  have hsurvives := (loop_survives { obj := .init 5000 0 } s { obj := .init [] }).2.1 hreach
  exact ⟨s, hreach, hel, hsurvives.1⟩

/-- etcd is not available: the query completes with that status, and `on_range_request()` throws
into the loop. So does the handler of an observer that is told of two nodes. -/
theorem server_ends_loop :
    (∃ s, Candidate.loop.Reachable Any s ∧
      s.uncaught = some (.grpcError "on_range_request()" { errorCode := 14 })) ∧
    ∃ s, Observer.loop.Reachable Any s ∧
      s.uncaught = some (.assertThrow "op.response.kvs().size() == 1UL") := by
  constructor
  · rcases reachable_of_exec Candidate.loop { obj := Candidate.init [] 1 [] }
      (Candidate.campaignTrace ++
        [.complete (.rangeRequest Candidate.firstQuery none true { errorCode := 14 })])
      (fun s => decide
        (s.uncaught = some (.grpcError "on_range_request()" { errorCode := 14 })))
      ⟨⟨_, _, _, rfl⟩, rfl⟩ (by decide) with ⟨s, hreach, hcheck⟩
    exact ⟨s, hreach, of_decide_eq_true hcheck⟩
  · let c := Observer.init []
    let resp : RangeResponse := { revision := 3, kvs := [{ key := [47, 1] }, { key := [47, 2] }] }
    rcases reachable_of_exec Observer.loop { obj := c }
      [.startup, .streamCreated true, .answerRange c.discoverRequest resp,
        .complete (.range c.discoverRequest (some resp) true {})]
      (fun s => decide
        (s.uncaught = some (.assertThrow "op.response.kvs().size() == 1UL")))
      ⟨⟨_, rfl⟩, rfl⟩ (by decide) with ⟨s, hreach, hcheck⟩
    exact ⟨s, hreach, of_decide_eq_true hcheck⟩

end GeeH
