import GeeH.Rules
import Mathlib.Data.Fintype.Basic
import Mathlib.Logic.Function.Basic
import Mathlib.Tactic.Common

/-!
# GeeH.Log — `gh/log.hpp`, `gh/log.cpp` and `gh/log_severity.hpp`

The log, and the statements `GH_LOG(level) << …;` that any number of threads
execute. Such a statement is a loop that runs at most once: the logger decides
whether its expression is evaluated at all, and then `write_to()` passes what was
streamed on to the sinks, one after the other, without a lock.

`write_to()` adds function, file and line to the stream that the expression has
used, in the state that the expression has left it in: after a `std::hex` the
line is hexadecimal, and a stream that is not good takes nothing. An expression
may leave any such state (`Format`); it writes at the end of the stream, in the
classic locale.

So two statements may reach two sinks in different orders. What a sink gets is
still in the order of the calls of `write()`, as far as these did not overlap.
The list of the sinks has no lock around its use in `write()`; it must not change
while somebody writes.
-/

namespace GeeH

open Machine

universe u v

/-- `gh::severity`. -/
inductive Severity where
  | trace | debug | info | notice | warning | error | critical | alert | fatal
deriving DecidableEq, Repr

namespace Severity

/-- The value of the enumerator. -/
def toNat : Severity → Nat
  | .trace => 0
  | .debug => 1
  | .info => 2
  | .notice => 3
  | .warning => 4
  | .error => 5
  | .critical => 6
  | .alert => 7
  | .fatal => 8

instance : LT Severity := ⟨fun a b => a.toNat < b.toNat⟩

instance (a b : Severity) : Decidable (a < b) := inferInstanceAs (Decidable (a.toNat < b.toNat))

/-- `operator<<`. -/
def name : Severity → String
  | .trace => "trace"
  | .debug => "debug"
  | .info => "info"
  | .notice => "notice"
  | .warning => "warning"
  | .error => "error"
  | .critical => "critical"
  | .alert => "alert"
  | .fatal => "fatal"

/-- `GH_MIN_SEVERITY`. -/
def ghMinSeverity : Severity := .info

end Severity

/-- `level_compile_time_disabled()`. -/
def levelCompileTimeDisabled (lvl : Severity) : Bool := decide (lvl < Severity.ghMinSeverity)

namespace Log

/-- What `GH_LOG()` knows of its statement. -/
structure Site where
  severity : Severity
  function : String
  filename : String
  lineno : Nat

/-! ## Streams -/

/-- `std::ios_base::basefield`; what is neither octal nor hexadecimal is decimal. -/
inductive Base where
  | dec | oct | hex
deriving DecidableEq, Repr

/-- What formatted output depends on in a stream. -/
structure Format where
  base : Base := .dec
  showbase : Bool := false
  showpos : Bool := false
  uppercase : Bool := false
  /-- `std::left`; strings are padded on the left otherwise. -/
  left : Bool := false
  width : Nat := 0
  fill : Char := ' '
  good : Bool := true
deriving DecidableEq

/-- A string, padded to the width. -/
def Format.pad (f : Format) (str : String) : String :=
  let padding := "".pushn f.fill (f.width - str.length)
  if f.left then str ++ padding else padding ++ str

/-- A number. There are signs in decimal only, and zero has no prefix. -/
def Format.number (f : Format) (n : Nat) : String :=
  match f.base with
  | .dec => (if f.showpos then "+" else "") ++ toString n
  | .oct => (if f.showbase && n ≠ 0 then "0" else "") ++ .ofList (Nat.toDigits 8 n)
  | .hex =>
    if f.uppercase then
      (if f.showbase && n ≠ 0 then "0X" else "") ++ .ofList ((Nat.toDigits 16 n).map Char.toUpper)
    else (if f.showbase && n ≠ 0 then "0x" else "") ++ .ofList (Nat.toDigits 16 n)

/-- `std::ostringstream`. -/
structure OStream where
  text : String := ""
  format : Format := {}
deriving DecidableEq

namespace OStream

variable (os : OStream)

/-- `<<` of a string, which resets the width. -/
def put (str : String) : OStream :=
  if os.format.good then
    { text := os.text ++ os.format.pad str, format := { os.format with width := 0 } }
  else os

/-- `<<` of a number, when no width is set. -/
def putNumber (n : Nat) : OStream :=
  if os.format.good then { os with text := os.text ++ os.format.number n } else os

end OStream

/-- What the stream of a logger starts with. -/
def Site.header (site : Site) : String := "[" ++ site.severity.name ++ "] "

/-- The stream of a logger at the end of `write_to()`. -/
def Site.finish (site : Site) (os : OStream) : OStream :=
  let os := (os.put " in ").put site.function
  let os := (os.put " (").put site.filename
  let os := (os.put ":").putNumber site.lineno
  os.put ")"

/-- What `write_to()` adds to a stream in that state. -/
def Site.trailer (site : Site) (f : Format) : String :=
  if f.good then
    f.pad " in " ++ site.function ++ " (" ++ site.filename ++ ":" ++ f.number site.lineno ++ ")"
  else ""

@[simp] theorem Format.pad_zero (f : Format) (h : f.width = 0) (str : String) :
    f.pad str = str := by
  unfold Format.pad
  simp only [h, Nat.zero_sub]
  split
  · exact String.append_empty
  · exact String.empty_append

theorem Site.finish_text (site : Site) (os : OStream) :
    (site.finish os).text = os.text ++ site.trailer os.format := by
  cases hgood : os.format.good with
  | false => simp [finish, OStream.put, OStream.putNumber, trailer, hgood]
  | true =>
    -- the first string takes the width, and the rest is as it is
    simp only [finish, OStream.put, OStream.putNumber, trailer, hgood, if_true, Format.pad_zero,
      String.append_assoc]
    rfl

/-- How far a statement has come. -/
inductive Logger where
  | unreached
  /-- The logger is not `closed`, and the expression is evaluated. -/
  | streaming (os : OStream)
  /-- The loop of `log::write()`, and how many sinks have got the message. -/
  | writing (msg : String) (n : Nat)
  | finished
deriving DecidableEq

/-- Whether its `write()` is at the sinks. -/
def Logger.writes : Logger → Bool
  | .writing _ _ => true
  | _ => false

/-- A call of `log_sink::log()`, and the statement that it is for. -/
structure Message (ι : Type u) where
  statement : ι
  severity : Severity
  text : String
deriving DecidableEq

end Log

open Log

/-- `gh::log`, the statements and what the sinks got. -/
structure Log (ι : Type u) (κ : Type v) where
  minSeverity : Severity := .trace
  sinks : List κ := []
  logger : ι → Logger := fun _ => .unreached
  received : κ → List (Message ι) := fun _ => []
  /-- Ghost: the sinks when `write()` was entered. -/
  targets : ι → List κ := fun _ => []
  /-- Ghost: the statements whose `write()` has returned. -/
  returned : List ι := []
  /-- Ghost: those for which it had, when `write()` was entered. -/
  earlier : ι → List ι := fun _ => []
  /-- Ghost: the stream as the expression has left it. -/
  streamed : ι → OStream := fun _ => {}

namespace Log

variable {ι : Type u} {κ : Type v} [DecidableEq ι] [DecidableEq κ]

section Steps

variable (site : ι → Site) (s : Log ι κ)

/-- A statement moves on. -/
def setLogger (i : ι) (l : Logger) : Log ι κ :=
  { s with logger := Function.update s.logger i l }

/-- The constructor of the logger, and the condition of the loop. -/
def construct (i : ι) : Log ι κ :=
  -- `logger<true>` is always closed
  if levelCompileTimeDisabled (site i).severity ∨ (site i).severity < s.minSeverity then
    s.setLogger i .finished
  else s.setLogger i (.streaming { text := (site i).header })

/-- `log::write()`, up to its loop; `os` is what the message was made from. -/
def write (i : ι) (os : OStream) (msg : String) : Log ι κ :=
  if s.sinks = [] ∨ (site i).severity < s.minSeverity then s.setLogger i .finished
  else
    { s.setLogger i (.writing msg 0) with
      targets := Function.update s.targets i s.sinks
      earlier := Function.update s.earlier i s.returned
      streamed := Function.update s.streamed i os }

/-- `write_to()`. -/
def writeTo (i : ι) (os : OStream) : Log ι κ := s.write site i os ((site i).finish os).text

/-- What a sink is called with. -/
def message (i : ι) (msg : String) : Message ι where
  statement := i
  severity := (site i).severity
  text := msg

/-- The next sink gets the message. -/
def deliver (i : ι) (msg : String) (n : Nat) (k : κ) : Log ι κ :=
  { s.setLogger i (.writing msg (n + 1)) with
    received := Function.update s.received k (s.received k ++ [message site i msg]) }

inductive Act (ι : Type u) (κ : Type v) where
  | construct (i : ι)
  /-- A `<<` of the expression, and the state in which it leaves the stream. -/
  | stream (i : ι) (text : String) (format : Format)
  /-- The expression throws, or `write_to()` does before it comes to the sinks. -/
  | throws (i : ι)
  /-- `write_to()`. -/
  | writeTo (i : ι)
  | deliver (i : ι)
  /-- The next sink throws. -/
  | sinkThrows (i : ι)
  | returns (i : ι)
  | addSink (k : κ)
  | clearSinks
  | minSeverity (sev : Severity)

/-- One step. -/
def act : Act ι κ → Option (Log ι κ)
  | .construct i =>
    match s.logger i with
    | .unreached => some (s.construct site i)
    | _ => none
  | .stream i text format =>
    match s.logger i with
    | .streaming os =>
      some (s.setLogger i (.streaming { text := os.text ++ text, format := format }))
    | _ => none
  | .throws i =>
    match s.logger i with
    | .streaming _ => some (s.setLogger i .finished)
    | _ => none
  | .writeTo i =>
    match s.logger i with
    | .streaming os => some (s.writeTo site i os)
    | _ => none
  | .deliver i =>
    match s.logger i with
    | .writing msg n => s.sinks[n]?.map fun k => s.deliver site i msg n k
    | _ => none
  | .sinkThrows i =>
    match s.logger i with
    | .writing _ n => s.sinks[n]?.map fun _ => s.setLogger i .finished
    | _ => none
  | .returns i =>
    match s.logger i with
    | .writing _ n =>
      if s.sinks.length ≤ n then some { s.setLogger i .finished with returned := i :: s.returned }
      else none
    | _ => none
  | .addSink k => some { s with sinks := s.sinks ++ [k] }
  | .clearSinks => some { s with sinks := [] }
  | .minSeverity sev => some { s with minSeverity := sev }

/-- The machine of the log. -/
def machine : Machine (Log ι κ) (Act ι κ) where
  Init s := s = {}
  step := act site

/-- The sinks do not change while somebody writes. -/
def Quiet (s : Log ι κ) : Act ι κ → Prop
  | .addSink _ | .clearSinks => ∀ i, (s.logger i).writes = false
  | _ => True

instance [Fintype ι] (s : Log ι κ) : (a : Act ι κ) → Decidable (s.Quiet a)
  | .addSink _ | .clearSinks => inferInstanceAs (Decidable (∀ i, (s.logger i).writes = false))
  | .construct _ | .stream _ _ _ | .throws _ | .writeTo _ | .deliver _ | .sinkThrows _
  | .returns _ | .minSeverity _ => inferInstanceAs (Decidable True)

end Steps

/-! ## What the sinks have got of a statement -/

variable {site : ι → Site} {s s' : Log ι κ} {i j : ι} {k : κ}

/-- How often a sink was called for a statement. -/
def got (s : Log ι κ) (k : κ) (i : ι) : Nat := (s.received k).countP fun m => m.statement = i

/-- What holds of a statement that has come that far. -/
def Sound (s : Log ι κ) (i : ι) : Logger → Prop
  | .unreached | .streaming _ => i ∉ s.returned ∧ ∀ k, s.got k i = 0
  | .writing msg n => i ∉ s.returned ∧ s.targets i = s.sinks ∧
    (∀ k, s.got k i = (s.sinks.take n).count k) ∧
    ∀ k, ∀ m ∈ s.received k, m.statement = i → m.text = msg
  | .finished => i ∈ s.returned → ∀ k, s.got k i = (s.targets i).count k

/-- A step of another statement. -/
theorem Sound.frame {l : Logger} (h : Sound s i l) (hreceived : ∀ k, s'.received k = s.received k ∨
      ∃ m, m.statement ≠ i ∧ s'.received k = s.received k ++ [m])
    (htargets : s'.targets i = s.targets i) (hreturned : i ∈ s'.returned ↔ i ∈ s.returned)
    (hsinks : (∃ msg n, l = .writing msg n) → s'.sinks = s.sinks) : Sound s' i l := by
  have hgot : ∀ k, s'.got k i = s.got k i := by
    intro k
    rcases hreceived k with heq | ⟨m, hm, heq⟩
    · rw [got, heq, got]
    · rw [got, heq, List.countP_append, got]
      simp [hm]
  cases l with
  | unreached => exact ⟨mt hreturned.mp h.1, fun k => (hgot k).trans (h.2 k)⟩
  | streaming os => exact ⟨mt hreturned.mp h.1, fun k => (hgot k).trans (h.2 k)⟩
  | finished =>
    intro hmem k
    rw [hgot, htargets]
    exact h (hreturned.mp hmem) k
  | writing msg n =>
    rcases h with ⟨hno, htg, hcount, htext⟩
    have hs := hsinks ⟨msg, n, rfl⟩
    refine ⟨mt hreturned.mp hno, by rw [htargets, hs, htg], ?_, ?_⟩
    · intro k
      rw [hgot, hs]
      exact hcount k
    · intro k m hm hi
      rcases hreceived k with heq | ⟨m', hm', heq⟩
      · exact htext k m (heq ▸ hm) hi
      · rw [heq] at hm
        rcases List.mem_append.mp hm with hold | hnew
        · exact htext k m hold hi
        · rw [List.mem_singleton.mp hnew] at hi
          exact absurd hi hm'

/-! ## Steps -/

/-- What the expression of an enabled statement has streamed. -/
def Begun (site : Site) (os : OStream) : Prop :=
  levelCompileTimeDisabled site.severity = false ∧ ∃ body, os.text = site.header ++ body

/-- The message of a statement whose expression has left the stream like that. -/
def Told (site : Site) (os : OStream) (msg : String) : Prop :=
  Begun site os ∧ msg = os.text ++ site.trailer os.format

/-- What a statement has streamed whose expression is evaluated, or was and left `streamed`. -/
def Shaped (site : Site) (streamed : OStream) : Logger → Prop
  | .streaming os => Begun site os
  | .writing msg _ => Told site streamed msg
  | _ => True

/-- What one step can be. -/
inductive Step (site : ι → Site) (s : Log ι κ) : Log ι κ → Prop where
  /-- The statement is skipped, or left by an exception. -/
  | leaves (i : ι) (hl : s.logger i ≠ .finished) : Step site s (s.setLogger i .finished)
  | streams (i : ι) (os : OStream)
      (hl : s.logger i = .unreached ∨ ∃ os', s.logger i = .streaming os')
      (hos : Begun (site i) os) : Step site s (s.setLogger i (.streaming os))
  | enters (i : ι) (os : OStream) (msg : String) (hl : s.logger i = .streaming os)
      (hmsg : Told (site i) os msg) :
      Step site s { s.setLogger i (.writing msg 0) with
        targets := Function.update s.targets i s.sinks
        earlier := Function.update s.earlier i s.returned
        streamed := Function.update s.streamed i os }
  | delivers (i : ι) (msg : String) (n : Nat) (k : κ) (hl : s.logger i = .writing msg n)
      (hk : s.sinks[n]? = some k) : Step site s (s.deliver site i msg n k)
  | returns (i : ι) (msg : String) (n : Nat) (hl : s.logger i = .writing msg n)
      (hn : s.sinks.length ≤ n) :
      Step site s { s.setLogger i .finished with returned := i :: s.returned }
  | sinks (l : List κ) (hquiet : ∀ i, (s.logger i).writes = false) :
      Step site s { s with sinks := l }
  | severity (sev : Severity) : Step site s { s with minSeverity := sev }

theorem step_cases {a : Act ι κ} (hshaped : ∀ i, Shaped (site i) (s.streamed i) (s.logger i))
    (hok : s.Quiet a) (hact : s.act site a = some s') : Step site s s' := by
  cases a with
  | construct i =>
    simp only [act] at hact
    split at hact
    · rename_i hl
      cases hact
      unfold construct
      split
      · exact .leaves i (by simp [hl])
      · rename_i hcond
        refine .streams i _ (.inl hl) ⟨by simpa using (not_or.mp hcond).1, "", ?_⟩
        rw [String.append_empty]
    · cases hact
  | stream i text format =>
    simp only [act] at hact
    split at hact
    · rename_i os hl
      cases hact
      rcases hl ▸ hshaped i with ⟨hon, body, hbody⟩
      refine .streams i _ (.inr ⟨_, hl⟩) ⟨hon, body ++ text, ?_⟩
      rw [hbody, String.append_assoc]
    · cases hact
  | throws i =>
    simp only [act] at hact
    split at hact
    · rename_i os hl
      cases hact
      exact .leaves i (by simp [hl])
    · cases hact
  | writeTo i =>
    simp only [act] at hact
    split at hact
    · rename_i os hl
      cases hact
      unfold writeTo write
      split
      · exact .leaves i (by simp [hl])
      · have hbegun : Shaped (site i) (s.streamed i) (.streaming os) := hl ▸ hshaped i
        exact .enters i os _ hl ⟨hbegun, (site i).finish_text os⟩
    · cases hact
  | deliver i =>
    simp only [act] at hact
    split at hact
    · rename_i msg n hl
      rcases Option.map_eq_some_iff.mp hact with ⟨k, hk, rfl⟩
      exact .delivers i msg n k hl hk
    · cases hact
  | sinkThrows i =>
    simp only [act] at hact
    split at hact
    · rename_i msg n hl
      rcases Option.map_eq_some_iff.mp hact with ⟨k, hk, rfl⟩
      exact .leaves i (by simp [hl])
    · cases hact
  | returns i =>
    simp only [act] at hact
    split at hact
    · rename_i msg n hl
      split at hact
      · rename_i hn
        cases hact
        exact .returns i msg n hl hn
      · cases hact
    · cases hact
  | addSink k =>
    cases hact
    exact .sinks _ hok
  | clearSinks =>
    cases hact
    exact .sinks _ hok
  | minSeverity sev =>
    cases hact
    exact .severity sev

/-! ## The invariant -/

/-- What holds in every run. -/
structure Inv (site : ι → Site) (s : Log ι κ) : Prop where
  shaped : ∀ i, Shaped (site i) (s.streamed i) (s.logger i)
  sound : ∀ i, s.Sound i (s.logger i)
  earlier : ∀ i, s.earlier i ⊆ s.returned
  order : ∀ k, (s.received k).Pairwise fun a b => b.statement ∉ s.earlier a.statement
  /-- The sinks get the same of a statement. -/
  same : ∀ k k', ∀ m ∈ s.received k, ∀ m' ∈ s.received k', m.statement = m'.statement → m = m'
  severity : ∀ k, ∀ m ∈ s.received k, m.severity = (site m.statement).severity
  text : ∀ k, ∀ m ∈ s.received k, Told (site m.statement) (s.streamed m.statement) m.text

theorem init_inv (site : ι → Site) : Inv site ({} : Log ι κ) where
  shaped _ := trivial
  sound _ := ⟨List.not_mem_nil, fun _ => rfl⟩
  earlier _ := List.Subset.refl _
  order _ := List.Pairwise.nil
  same := nofun
  severity := nofun
  text := nofun

omit [DecidableEq κ] in
@[simp] theorem setLogger_self (s : Log ι κ) (i : ι) (l : Logger) :
    (s.setLogger i l).logger i = l := by
  simp only [Log.setLogger, Function.update_self]

omit [DecidableEq κ] in
theorem setLogger_of_ne (h : j ≠ i) (s : Log ι κ) (l : Logger) :
    (s.setLogger i l).logger j = s.logger j := by
  simp only [Log.setLogger, Function.update_of_ne h]

omit [DecidableEq κ] in
theorem shaped_setLogger (h : ∀ j, Shaped (site j) (s.streamed j) (s.logger j)) {l : Logger}
    (hl : Shaped (site i) (s.streamed i) l) (j : ι) :
    Shaped (site j) (s.streamed j) ((s.setLogger i l).logger j) := by
  by_cases hji : j = i
  · subst hji
    rw [setLogger_self]
    exact hl
  · rw [setLogger_of_ne hji]
    exact h j

/-- A statement whose `write()` has returned is over. -/
theorem Inv.not_returned (h : Inv site s) (hl : s.logger i ≠ .finished) : i ∉ s.returned := by
  have hsound := h.sound i
  cases hlog : s.logger i with
  | finished => exact absurd hlog hl
  | _ =>
    rw [hlog] at hsound
    exact hsound.1

/-- A step that sets the logger of one statement only. -/
theorem Inv.setLogger (h : Inv site s) {l : Logger} (hsound : s.Sound i l)
    (hshaped : Shaped (site i) (s.streamed i) l) : Inv site (s.setLogger i l) where
  shaped := shaped_setLogger h.shaped hshaped
  sound j := by
    by_cases hji : j = i
    · subst hji
      rw [setLogger_self]
      exact hsound
    · rw [setLogger_of_ne hji]
      exact (h.sound j).frame (fun _ => .inl rfl) rfl Iff.rfl fun _ => rfl
  earlier := h.earlier
  order := h.order
  same := h.same
  severity := h.severity
  text := h.text

/-- No sink knows of a statement that is not in `write()` yet. -/
theorem Sound.not_mem {os : OStream} (h : Sound s i (.streaming os)) {m : Message ι}
    (hm : m ∈ s.received k) : m.statement ≠ i := by
  intro hi
  have hzero := h.2 k
  rw [got, List.countP_eq_zero] at hzero
  exact hzero m hm (by simpa using hi)

/-- `write()` begins: what has returned by now was earlier. -/
theorem Inv.enters (h : Inv site s) {os : OStream} {msg : String}
    (hl : s.logger i = .streaming os) (hmsg : Told (site i) os msg) :
    Inv site { s.setLogger i (.writing msg 0) with
      targets := Function.update s.targets i s.sinks
      earlier := Function.update s.earlier i s.returned
      streamed := Function.update s.streamed i os } := by
  have hi : Sound s i (.streaming os) := hl ▸ h.sound i
  refine { h with shaped := ?_, sound := ?_, earlier := ?_, order := ?_, text := ?_ }
  · intro j
    by_cases hji : j = i
    · subst hji
      rw [show (s.setLogger j (.writing msg 0)).logger j = .writing msg 0 from setLogger_self ..]
      simp only [Function.update_self]
      exact hmsg
    · rw [show (s.setLogger i (.writing msg 0)).logger j = s.logger j from setLogger_of_ne hji ..]
      simp only [Function.update_of_ne hji]
      exact h.shaped j
  · intro j
    by_cases hji : j = i
    · subst hji
      rw [show (s.setLogger j (.writing msg 0)).logger j = .writing msg 0 from setLogger_self ..]
      refine ⟨hi.1, Function.update_self .., ?_, ?_⟩
      · intro k
        rw [List.take_zero]
        exact hi.2 k
      · intro k m hm hst
        exact absurd hst (hi.not_mem hm)
    · rw [show (s.setLogger i (.writing msg 0)).logger j = s.logger j from setLogger_of_ne hji ..]
      exact (h.sound j).frame (fun _ => .inl rfl) (Function.update_of_ne hji ..) Iff.rfl
        fun _ => rfl
  · intro j
    by_cases hji : j = i
    · subst hji
      simp only [Function.update_self]
      exact List.Subset.refl _
    · simp only [Function.update_of_ne hji]
      exact h.earlier j
  · intro k
    refine (h.order k).imp_of_mem ?_
    intro a b ha _ hab
    simp only [Function.update_of_ne (hi.not_mem ha)]
    exact hab
  · intro k m hm
    simp only [Function.update_of_ne (hi.not_mem hm)]
    exact h.text k m hm

/-- What is new at the sinks. -/
theorem mem_deliver {msg : String} {n : Nat} {k' : κ} {m : Message ι}
    (hm : m ∈ (s.deliver site i msg n k).received k') :
    m ∈ s.received k' ∨ m = message site i msg := by
  by_cases hk : k' = k
  · subst hk
    simp only [deliver, Function.update_self] at hm
    rcases List.mem_append.mp hm with hold | hnew
    · exact .inl hold
    · exact .inr (List.mem_singleton.mp hnew)
  · simp only [deliver, Function.update_of_ne hk] at hm
    exact .inl hm

/-- The next sink has got one more. -/
theorem got_deliver (s : Log ι κ) (i : ι) (msg : String) (n : Nat) (k k' : κ) :
    (s.deliver site i msg n k).got k' i = s.got k' i + if k = k' then 1 else 0 := by
  by_cases hk : k' = k
  · subst hk
    simp [got, deliver, message, List.countP_append]
  · simp [got, deliver, Function.update_of_ne hk, Ne.symm hk]

/-- What an earlier delivery of the statement was. -/
theorem Inv.message (h : Inv site s) {msg : String} {n : Nat} (hl : s.logger i = .writing msg n)
    {m : Message ι} (hm : m ∈ s.received k) (hst : m.statement = i) : m = message site i msg := by
  have hi : Sound s i (.writing msg n) := hl ▸ h.sound i
  have hsev := h.severity k m hm
  have htext := hi.2.2.2 k m hm hst
  cases m
  simp only at hst hsev htext
  subst hst
  rw [hsev, htext, Log.message]

theorem Inv.delivers (h : Inv site s) {msg : String} {n : Nat} (hl : s.logger i = .writing msg n)
    (hk : s.sinks[n]? = some k) : Inv site (s.deliver site i msg n k) := by
  have hi : Sound s i (.writing msg n) := hl ▸ h.sound i
  have hmsg : Told (site i) (s.streamed i) msg :=
    show Shaped (site i) (s.streamed i) (.writing msg n) from hl ▸ h.shaped i
  refine { shaped := shaped_setLogger h.shaped hmsg, sound := ?_, earlier := h.earlier,
           order := ?_, same := ?_, severity := ?_, text := ?_ }
  · intro j
    by_cases hji : j = i
    · subst hji
      rw [show (s.deliver site j msg n k).logger j = .writing msg (n + 1) from setLogger_self ..]
      refine ⟨hi.1, hi.2.1, ?_, ?_⟩
      · intro k'
        rw [got_deliver, hi.2.2.1 k', show (s.deliver site j msg n k).sinks = s.sinks from rfl,
          List.take_add_one, hk, List.count_append]
        simp [List.count_singleton]
      · intro k' m hm hst
        rcases mem_deliver hm with hold | rfl
        · exact hi.2.2.2 k' m hold hst
        · rfl
    · rw [show (s.deliver site i msg n k).logger j = s.logger j from setLogger_of_ne hji ..]
      refine (h.sound j).frame ?_ rfl Iff.rfl fun _ => rfl
      intro k'
      by_cases hk' : k' = k
      · subst hk'
        exact .inr ⟨Log.message site i msg, Ne.symm hji, Function.update_self ..⟩
      · exact .inl (Function.update_of_ne hk' ..)
  · intro k'
    by_cases hk' : k' = k
    · subst hk'
      rw [show (s.deliver site i msg n k').received k' =
        s.received k' ++ [Log.message site i msg] from Function.update_self ..]
      refine List.pairwise_append.mpr ⟨h.order k', List.pairwise_singleton .., ?_⟩
      -- the writer is still there, and so it is earlier than nobody
      intro a _ b hb hearlier
      rw [List.mem_singleton.mp hb] at hearlier
      exact hi.1 (h.earlier a.statement hearlier)
    · rw [show (s.deliver site i msg n k).received k' = s.received k' from
        Function.update_of_ne hk' ..]
      exact h.order k'
  · intro k₁ k₂ m₁ hm₁ m₂ hm₂ hst
    rcases mem_deliver hm₁ with hold₁ | rfl <;> rcases mem_deliver hm₂ with hold₂ | rfl
    · exact h.same k₁ k₂ m₁ hold₁ m₂ hold₂ hst
    · exact h.message hl hold₁ hst
    · exact (h.message hl hold₂ hst.symm).symm
    · rfl
  · intro k' m hm
    rcases mem_deliver hm with hold | rfl
    · exact h.severity k' m hold
    · rfl
  · intro k' m hm
    rcases mem_deliver hm with hold | rfl
    · exact h.text k' m hold
    · exact hmsg

theorem Inv.returns (h : Inv site s) {msg : String} {n : Nat} (hl : s.logger i = .writing msg n)
    (hn : s.sinks.length ≤ n) :
    Inv site { s.setLogger i .finished with returned := i :: s.returned } := by
  have hi : Sound s i (.writing msg n) := hl ▸ h.sound i
  refine { h with shaped := shaped_setLogger h.shaped trivial, sound := ?_, earlier := ?_ }
  · intro j
    by_cases hji : j = i
    · subst hji
      rw [show (s.setLogger j .finished).logger j = .finished from setLogger_self ..]
      intro _ k
      have hgot := hi.2.2.1 k
      rw [List.take_of_length_le hn, ← hi.2.1] at hgot
      exact hgot
    · rw [show (s.setLogger i .finished).logger j = s.logger j from setLogger_of_ne hji ..]
      exact (h.sound j).frame (fun _ => .inl rfl) rfl (by simp [hji]) fun _ => rfl
  · intro j
    exact List.subset_cons_of_subset i (h.earlier j)

theorem Inv.step (h : Inv site s) (hstep : Step site s s') : Inv site s' := by
  cases hstep with
  | leaves i hl => exact h.setLogger (fun hmem => absurd hmem (h.not_returned hl)) trivial
  | streams i os hl hos =>
    refine h.setLogger ?_ hos
    have hsound := h.sound i
    rcases hl with hl | ⟨os', hl⟩ <;> rw [hl] at hsound <;> exact hsound
  | enters i os msg hl hmsg => exact h.enters hl hmsg
  | delivers i msg n k hl hk => exact h.delivers hl hk
  | returns i msg n hl hn => exact h.returns hl hn
  | sinks l hquiet =>
    refine { h with sound := fun j => (h.sound j).frame (fun _ => .inl rfl) rfl Iff.rfl ?_ }
    rintro ⟨msg, n, hl⟩
    have hno := hquiet j
    rw [hl] at hno
    cases hno
  | severity sev =>
    have hsound := fun j => (h.sound j).frame (fun _ => .inl rfl) rfl Iff.rfl fun _ => rfl
    exact { h with sound := hsound }

theorem reachable_inv (h : (machine site).Reachable Quiet s) : Inv site s := by
  refine h.invariant ?_ ?_
  · rintro s rfl
    exact init_inv site
  · intro s a s' hinv hok hstep
    exact hinv.step (step_cases hinv.shaped hok hstep)

/-! ## What the sinks get -/

end Log

end GeeH
