import Filament.Tracker.Module

/-!
# Lifecycle commands and the reaper

`Signal` pauses, resumes or cancels a run: it plans from a run state its caller has read, moves the
row in one conditional update, and publishes a fact. The reaper judges runs without progress and
publishes `run.failed`; it writes nothing itself.

* `signalCommands`, `planSignal`, `signal`, `signalFact` : package `runs`;
* `dead`, `judge` : package `reaper`;
* `signal_moves` : what a command does to the row.
-/

namespace Filament

/-- The ordinal of a status. -/
def RunStatus.code : RunStatus → ℕ
  | .runRequested => 0
  | .runRunning => 1
  | .runCompleted => 2
  | .runFailed => 3
  | .runCanceled => 4
  | .runPaused => 5
  | .runPartial => 6
  | .runScheduled => 7

/-- A command for a run. -/
inductive Signal where
  | signalPause
  | signalResume
  | signalCancel
  deriving DecidableEq, Repr

/-- The ordinal of a signal. -/
def Signal.code : Signal → ℕ
  | .signalPause => 0
  | .signalResume => 1
  | .signalCancel => 2

namespace Runs

open Tracker (Fact Envelope Data)

/-- Why a command failed before its fact was published. -/
inductive SignalError where
  | errSignalTransition (text : String)
  | store (error : StoreError)
  deriving DecidableEq, Repr

/-- The command is not admitted from the run's status. -/
def signalTransitionError (detail : String) : SignalError :=
  .errSignalTransition ("run signal is not valid from the current status: " ++ detail)

/-- What a signal does from one status. -/
structure SignalCommand where
  source : List RunStatus := []
  target : RunStatus := .runRequested
  resetExecution : Bool := false
  ended : Bool := false
  publish : Bool := false
  transition : Bool := false
  worker : Bool := false
  deriving DecidableEq, Repr

/-- The commands that are admitted. -/
def signalCommands : Signal → RunStatus → Option SignalCommand
  | .signalPause, .runRequested =>
    some { source := [.runRequested], target := .runPaused, transition := true, publish := true }
  | .signalPause, .runPaused => some {}
  | .signalPause, .runRunning => some { publish := true, worker := true }
  | .signalResume, .runRequested => some { publish := true }
  | .signalResume, .runPaused | .signalResume, .runPartial =>
    some { source := [.runPaused, .runPartial], target := .runRequested, resetExecution := true,
           transition := true, publish := true }
  | .signalCancel, .runRequested | .signalCancel, .runPaused | .signalCancel, .runPartial =>
    some { source := [.runRequested, .runPaused, .runPartial], target := .runCanceled,
           transition := true, ended := true, publish := true }
  | .signalCancel, .runCanceled => some {}
  | .signalCancel, .runRunning => some { publish := true, worker := true }
  | _, _ => none

/-- Looks the command up. -/
def planSignal (status : RunStatus) (signal : Signal) : Except SignalError SignalCommand :=
  match signalCommands signal status with
  | some command => .ok command
  | none =>
    .error (signalTransitionError
      ("signal " ++ toString signal.code ++ " from status " ++ toString status.code))

/-- The fact a command publishes. -/
def signalFact (state : RunState) (signal : Signal) (worker : Bool) (now : ℕ) : Fact where
  env := ⟨state.tenant, state.run, "", now⟩
  data :=
    match signal with
    | .signalPause => if worker then .runPauseRequested else .runPaused false
    | .signalResume => .runRequested
    | .signalCancel => if worker then .runCancelRequested else .runCanceled

/-- What remains to be done after a command is published. -/
structure SignalResult where
  workerAcknowledgement : Bool
  deriving DecidableEq, Repr

/-- The fact a command leaves to publish, if any. -/
def SignalCommand.fact (command : SignalCommand) (state : RunState) (signal : Signal) (now : ℕ) :
    Option Fact :=
  if command.publish then some (signalFact state signal command.worker now) else none

/-- Plans and executes one command on a run state read before, up to the fact that is left to
publish. -/
def signal (s : Store) (state : RunState) (signal : Signal) (now : ℕ) :
    Except SignalError (Store × Option Fact × SignalResult) :=
  match planSignal state.status signal with
  | .error e => .error e
  | .ok command =>
    let coverage := checkpointCoverageFor state.request.resources state.request.ingestionTypes
    if command.worker ∧ signal = .signalPause ∧ coverage = .coverageSome then
      .error (signalTransitionError
        "pause requires either all or no resources to be checkpointable")
    else if command.transition then
      let preserveProgress := command.resetExecution && decide (state.status = .runPaused) &&
        decide (coverage = .coverageAll)
      match s.transitionRun state.tenant state.run command.source command.target
          ⟨command.resetExecution, preserveProgress, command.ended⟩ now with
      | .error e => .error (.store e)
      | .ok s' => .ok (s', command.fact state signal now, ⟨command.worker⟩)
    else .ok (s, command.fact state signal now, ⟨command.worker⟩)

/-- The statuses a command moves a run out of are open ones. -/
theorem source_of_planSignal {status st : RunStatus} {signal : Signal} {command : SignalCommand}
    (h : planSignal status signal = .ok command) (hst : st ∈ command.source) :
    st = .runRequested ∨ st = .runPaused ∨ st = .runPartial := by
  unfold planSignal at h
  split at h
  · rename_i command' hcommand
    cases h
    unfold signalCommands at hcommand
    split at hcommand <;> cases hcommand <;> simp_all
  · cases h

/-- A command leaves the store or moves one row by the planned transition. -/
theorem signal_moves {s s' : Store} {state : RunState} {sig : Signal} {now : ℕ}
    {res : Option Fact × SignalResult} (h : signal s state sig now = .ok (s', res)) :
    s' = s ∨ ∃ command opts r, planSignal state.status sig = .ok command ∧
      command.transition = true ∧ s.runs state.run = some r ∧ r.status ∈ command.source ∧
      s' = s.setRun state.run
        (RunState.transition command.target opts now { r with run := state.run }) := by
  unfold signal at h
  cases hplan : planSignal state.status sig with
  | error e =>
    simp only [hplan] at h
    cases h
  | ok command =>
    simp only [hplan] at h
    split_ifs at h with hcoverage htransition
    · split at h
      · cases h
      · rename_i s₁ hs₁
        cases h
        unfold Store.transitionRun at hs₁
        split at hs₁
        · cases hs₁
        · rename_i r hr
          split_ifs at hs₁ with hsource
          cases hs₁
          obtain ⟨row, hrow, -, rfl⟩ := Store.loadRun_eq_ok.1 hr
          exact .inr ⟨command, _, row, rfl, htransition, hrow, hsource, rfl⟩
    · cases h
      exact .inl rfl

end Runs

namespace Reaper

open Tracker (Fact Envelope Data)

/-- What the dispatcher can prove about a run's worker. -/
inductive Workload where
  | workloadAbsent
  | workloadActive
  | workloadFinished
  deriving DecidableEq, Repr

/-- The workload evidence warrants the kill. -/
def dead (status : RunStatus) (workload : Workload) : Bool :=
  match status with
  | .runRunning => workload ≠ .workloadActive
  | .runRequested => workload = .workloadFinished
  | _ => false

/-- The statuses a sweep looks at; a requested run is judged only with a probe. -/
def statuses (probed : Bool) : List RunStatus :=
  if probed then [.runRunning, .runRequested] else [.runRunning]

/-- What a sweep publishes about a run state it has listed as stale. The probe is `none` without a
dispatcher, and an inner `none` is a probe that failed. -/
def judge (probe : Option (Option Workload)) (state : RunState) (updatedAt : String) (now : ℕ) :
    Option Fact :=
  if state.status ∉ statuses probe.isSome then none
  else if state.request.options.execution.normalize = .continuous then none
  else
    match probe.getD (some .workloadAbsent) with
    | none => none
    | some workload =>
      if dead state.status workload then
        some ⟨⟨state.tenant, state.run, "", now⟩,
          .runFailed ("reaped: no progress since " ++ updatedAt)⟩
      else none

end Reaper

end Filament
