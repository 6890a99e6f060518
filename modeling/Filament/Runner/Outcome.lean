import Filament.Lib.History
import Filament.Runner.RunOne

/-!
# What a bounded run may end with

* `standing` : the command in force after a history, a cancel before a pause;
* `Fits` : the decisions a terminal fact may follow;
* `Works` : the moves of the pipeline, which record work only and leave the control alone;
* `Inv.step`, `inv_run` : along every run there is one terminal fact at most, the control is read
  as it stands, and the terminal fact fits that decision;
* `returns_of_run` : a run that was announced can always be brought to its end.
-/

namespace Filament.RunOne

open List Bool Phase State

/-! ### Reading a history -/

variable (log : List Fact) {facts : List Fact}

/-- The terminal facts of a history. -/
def terminals (log : List Fact) : List Terminal :=
  log.filterMap fun
    | .terminal outcome => some outcome
    | _ => none

/-- The signals read for the outcome. -/
def decisions (log : List Fact) : List Signal :=
  log.filterMap fun
    | .decided signal => some signal
    | _ => none

/-- The command in force after a history. -/
def standing (log : List Fact) : Signal :=
  if .requested .cancel ∈ log then .cancel
  else if .requested .pause ∈ log then .pause
  else .none

/-- A fact that neither settles the outcome nor asks for one. -/
def Fact.quiet : Fact → Bool
  | .extracted _ => true
  | .refused _ => true
  | .applied _ => true
  | .committed => true
  | .aborted => true
  | _ => false

theorem terminals_append (facts : List Fact) :
    terminals (log ++ facts) = terminals log ++ terminals facts :=
  filterMap_append

theorem decisions_append (facts : List Fact) :
    decisions (log ++ facts) = decisions log ++ decisions facts :=
  filterMap_append

theorem terminals_append_quiet (log : List Fact) (h : ∀ fact ∈ facts, fact.quiet) :
    terminals (log ++ facts) = terminals log := by
  rw [terminals_append, append_right_eq_self, terminals, filterMap_eq_nil_iff]
  intro fact hfact
  have := h fact hfact
  cases fact <;> simp_all [Fact.quiet]

theorem decisions_append_quiet (log : List Fact) (h : ∀ fact ∈ facts, fact.quiet) :
    decisions (log ++ facts) = decisions log := by
  rw [decisions_append, append_right_eq_self, decisions, filterMap_eq_nil_iff]
  intro fact hfact
  have := h fact hfact
  cases fact <;> simp_all [Fact.quiet]

theorem standing_append {log : List Fact} (h : ∀ signal, .requested signal ∉ facts) :
    standing (log ++ facts) = standing log := by
  simp [standing, h]

/-- The control's rule: a cancel always wins, a pause counts when nothing stands. -/
theorem standing_request (signal : Signal) :
    standing (log ++ [.requested signal]) =
      match signal with
      | .cancel => .cancel
      | .pause => if standing log = .none then .pause else standing log
      | .none => standing log := by
  cases signal <;> simp only [standing, mem_append, mem_singleton]
  · simp
  · split_ifs <;> simp_all
  · simp

/-! ### Terminal facts and decisions -/

variable {s : State}

/-- The decisions that a terminal fact may follow: a failed run may have been settled by nothing,
or by a command whose `Commit` then failed, but never by a cancel. -/
def Fits : Terminal → List Signal → Prop
  | .completed, ds => ds = [.none]
  | .failed, ds => .cancel ∉ ds
  | .resumable, ds => ds = []
  | .paused _, ds => ds = [.pause]
  | .canceled, ds => ds = [.cancel]

/-- The terminal facts that are still to be published. -/
def Phase.emits : Phase → List Terminal
  | .ending rest => rest.filterMap fun
    | .emit outcome => some outcome
    | .abort => none
  | _ => []

/-- The terminal facts that a run in this phase has published or will. -/
def Phase.ends : Phase → Nat
  | .ending _ => 1
  | _ => 0

/-- The phases before `run.started`, and the one that never gets there. -/
def Phase.early : Phase → Bool
  | .validating => true
  | .preparing => true
  | .admitting => true
  | .rejected => true
  | _ => false

/-- What the decisions made so far allow a run in this phase to end with. -/
def Phase.Allows (phase : Phase) (ds : List Signal) : Prop :=
  match phase with
  | .committing outcome => Fits outcome ds ∧ .cancel ∉ ds
  | .ending _ => ∀ outcome ∈ phase.emits, Fits outcome ds
  | _ => ds = []

/-- What justifies a fact of the history. -/
def Warranted (before : List Fact) : Fact → Prop
  | .started => terminals before = []
  | .decided signal => signal = standing before
  | _ => True

/-- What holds along every run. -/
structure Inv (s : State) : Prop where
  signal : s.signal = standing s.log
  count : (terminals s.log).length + s.phase.emits.length = s.phase.ends
  allows : s.phase.Allows (decisions s.log)
  stopped : s.phase = .sealing true → s.signal ≠ .none
  fits : ∀ outcome ∈ terminals s.log, Fits outcome (decisions s.log)
  early : s.phase.early = true → .started ∉ s.log
  warranted : History.Justified Warranted s.log

theorem Inv.fresh : Inv fresh where
  early := by simp [RunOne.fresh]
  signal := rfl
  count := rfl
  allows := rfl
  stopped := by simp [RunOne.fresh]
  fits := by simp [RunOne.fresh, terminals]
  warranted := History.justified_nil _

theorem Inv.terminals_eq_nil (h : Inv s) (hends : s.phase.ends = 0) : terminals s.log = [] := by
  have := h.count
  exact eq_nil_of_length_eq_zero (by omega)

/-! ### The moves of the pipeline -/

variable {t u : State} (cfg : Config)

/-- From `s` to `t` only quiet facts were recorded, in one phase and under one command. -/
structure Works (s t : State) : Prop where
  phase : t.phase = s.phase
  signal : t.signal = s.signal
  log : ∃ facts, t.log = s.log ++ facts ∧ ∀ fact ∈ facts, fact.quiet

theorem Works.refl (s : State) : Works s s :=
  ⟨rfl, rfl, [], by simp, by simp⟩

theorem Works.trans (hst : Works s t) (htu : Works t u) : Works s u := by
  obtain ⟨facts, hfacts, hquiet⟩ := hst.log
  obtain ⟨more, hmore, hquiet'⟩ := htu.log
  refine ⟨htu.phase.trans hst.phase, htu.signal.trans hst.signal, facts ++ more,
    by rw [hmore, hfacts, append_assoc], ?_⟩
  intro fact hfact
  exact (mem_append.1 hfact).elim (hquiet fact) (hquiet' fact)

theorem Works.silent (hphase : t.phase = s.phase) (hsignal : t.signal = s.signal)
    (hlog : t.log = s.log) : Works s t :=
  ⟨hphase, hsignal, [], by rw [hlog, append_nil], by simp⟩

theorem Works.record {fact : Fact} (hphase : t.phase = s.phase) (hsignal : t.signal = s.signal)
    (hlog : t.log = s.log ++ [fact]) (hquiet : fact.quiet) : Works s t :=
  ⟨hphase, hsignal, [fact], hlog, by simpa using hquiet⟩

theorem Inv.works (h : Inv s) (ht : Works s t) : Inv t := by
  obtain ⟨facts, hlog, hquiet⟩ := ht.log
  have hterminals : terminals t.log = terminals s.log := hlog ▸ terminals_append_quiet _ hquiet
  have hdecisions : decisions t.log = decisions s.log := hlog ▸ decisions_append_quiet _ hquiet
  refine ⟨?_, by rw [hterminals, ht.phase, h.count], by rw [ht.phase, hdecisions]; exact h.allows,
    by rw [ht.phase, ht.signal]; exact h.stopped, by rw [hterminals, hdecisions]; exact h.fits,
    fun hearly hmem => ?_, ?_⟩
  · rw [ht.signal, h.signal, hlog, standing_append]
    intro signal hmem
    simpa [Fact.quiet] using hquiet _ hmem
  · rw [hlog, mem_append] at hmem
    rcases hmem with hmem | hmem
    · exact h.early (ht.phase ▸ hearly) hmem
    · simpa [Fact.quiet] using hquiet _ hmem
  · rw [hlog]
    refine History.justified_extend h.warranted fun before fact hmem => ?_
    have := hquiet fact hmem
    cases fact <;> simp_all [Fact.quiet, Warranted]

theorem setErr_works (s : State) (message : String) : Works s (setErr s message) :=
  .silent rfl rfl rfl

theorem queue_works (s : State) (batch : BatchID) (take : Bool) :
    Works s (queue cfg s batch take) := by
  unfold queue
  split_ifs <;> exact .record rfl rfl rfl rfl

theorem flush_works (batches : List (BatchID × Bool)) (s : State) :
    Works s (flush cfg s batches) := by
  induction batches generalizing s with
  | nil => exact .refl s
  | cons b batches ih => exact (queue_works cfg s b.1 b.2).trans (ih _)

theorem closeIngest_works (s : State) (result : Option Failure) (batches : List (BatchID × Bool)) :
    Works s (closeIngest cfg s result batches) := by
  cases result with
  | some err => exact .silent rfl rfl rfl
  | none =>
    have hflush : Works s { flush cfg s batches with extractErr := some none } :=
      (flush_works cfg batches s).trans (.silent rfl rfl rfl)
    simp only [closeIngest]
    split
    · exact hflush
    · exact hflush.trans (setErr_works ..)

theorem takeTransform_works (s : State) : Works s (takeTransform s) := by
  unfold takeTransform
  split
  · exact .refl s
  · split_ifs <;> exact .silent rfl rfl rfl

theorem transformed_works (s : State) (batch : BatchID) (result : Option String) (take : Bool) :
    Works s (transformed s batch result take) := by
  unfold transformed
  split_ifs
  · cases result with
    | some message => exact .silent rfl rfl rfl
    | none =>
      dsimp only
      split_ifs <;> exact .silent rfl rfl rfl
  · exact .refl s

theorem takeWrite_works (s : State) : Works s (takeWrite s) := by
  unfold takeWrite
  split
  · exact .refl s
  · split_ifs <;> exact .silent rfl rfl rfl

theorem written_works (s : State) (batch : BatchID) (result : Option String) :
    Works s (written s batch result) := by
  unfold written
  split_ifs
  · cases result with
    | some message => exact .silent rfl rfl rfl
    | none => exact .record rfl rfl rfl rfl
  · exact .refl s

/-! ### The moves of `RunOne` -/

/-- A command changes the control and nothing else. -/
theorem Inv.request (h : Inv s) (signal : Signal) : Inv (request s signal) := by
  unfold RunOne.request
  split
  · exact h
  have hterminals : terminals (s.log ++ [.requested signal]) = terminals s.log := by
    simp [terminals]
  have hdecisions : decisions (s.log ++ [.requested signal]) = decisions s.log := by
    simp [decisions]
  refine ⟨?_, by simpa only [record, hterminals] using h.count,
    by simpa only [record, hdecisions] using h.allows, ?_,
    by simpa only [record, hterminals, hdecisions] using h.fits,
    fun hearly => by simpa [record] using h.early hearly,
    History.justified_append h.warranted trivial⟩
  · have hstands := standing_request s.log signal
    rw [← h.signal] at hstands
    refine Eq.trans ?_ hstands.symm
    cases signal <;> rfl
  · intro hphase
    have hne := h.stopped hphase
    cases signal with
    | none => exact hne
    | cancel => exact Signal.noConfusion
    | pause => simpa only [record, if_neg hne] using hne

variable {phase : Phase} {signal : Signal}

theorem Inv.move (h : Inv s) (hends : s.phase.ends = 0)
    (hcount : phase.emits.length = phase.ends) (hallows : phase.Allows (decisions s.log))
    (hstopped : phase = .sealing true → s.signal ≠ .none)
    (hearly : phase.early = true → s.phase.early = true) : Inv { s with phase := phase } := by
  have hnil := h.terminals_eq_nil hends
  refine ⟨h.signal, ?_, hallows, hstopped, h.fits, fun he => h.early (hearly he), h.warranted⟩
  simpa [hnil] using hcount

/-- The phases in which the outcome is open. -/
def Phase.pending : Phase → Bool
  | .committing _ => false
  | .ending _ => false
  | _ => true

theorem Phase.pending_spec (h : phase.pending = true) :
    phase.ends = 0 ∧ phase.emits = [] ∧ ∀ ds, ds = [] → phase.Allows ds := by
  cases phase <;> simp_all [pending, ends, emits, Phase.Allows]

theorem emits_leave (call : Call) (outcome : Terminal) :
    (ending (leave call outcome)).emits = [outcome] := by
  unfold leave
  cases call.aborts <;> rfl

theorem controlled_fits (h : signal ≠ .none) : Fits (controlled signal) [signal] := by
  cases signal with
  | none => exact absurd rfl h
  | pause => rfl
  | cancel => rfl

theorem stoppedByControl_signal {err : Option Failure} (h : stoppedByControl s err = true) :
    s.signal ≠ .none := by
  simp only [stoppedByControl, and_eq_true, bne_iff_ne] at h
  exact h.1.2

theorem finishControlled_allows (h : signal ≠ .none) :
    (finishControlled cfg signal).Allows [signal] ∧
      (finishControlled cfg signal).emits.length = (finishControlled cfg signal).ends := by
  cases signal with
  | none => exact absurd rfl h
  | cancel => simp [finishControlled, Phase.Allows, emits, ends, Fits]
  | pause =>
    unfold finishControlled
    split_ifs <;> simp [Phase.Allows, emits, ends, Fits]

theorem finishControlled_settles (signal : Signal) :
    finishControlled cfg signal ≠ .sealing true ∧
      (finishControlled cfg signal).early = false := by
  unfold finishControlled
  split
  · simp [early]
  · split_ifs <;> simp [early]

section

variable (h : Inv s) {rest : List Action} {outcome : Terminal}
include h

section

variable (hs : s.phase.pending = true)
include hs

theorem Inv.decisions_eq_nil : decisions s.log = [] := by
  have hallows := h.allows
  cases hphase : s.phase <;> simp_all [pending, Phase.Allows]

theorem Inv.goOn (hphase : phase.pending = true)
    (hstopped : phase = .sealing true → s.signal ≠ .none)
    (hearly : phase.early = true → s.phase.early = true) : Inv { s with phase := phase } := by
  obtain ⟨hends, hemits, hallows⟩ := pending_spec hphase
  exact h.move (pending_spec hs).1 (by rw [hemits, hends]; rfl)
    (hallows _ (h.decisions_eq_nil hs)) hstopped hearly

theorem Inv.breakOff (hemits : (ending rest).emits = [outcome]) (hfits : Fits outcome []) :
    Inv { s with phase := .ending rest } := by
  refine h.move (pending_spec hs).1 (by rw [hemits]; rfl) ?_ nofun nofun
  simp only [Phase.Allows, hemits, mem_singleton, forall_eq, h.decisions_eq_nil hs]
  exact hfits

end

theorem Inv.decide (isSealed : Bool) (hs : s.phase.pending = true)
    (hcount : phase.emits.length = phase.ends) (hallows : phase.Allows [s.signal])
    (hstopped : phase ≠ .sealing true) (hearly : phase.early = false) :
    Inv ({ s with sealed := isSealed, phase := phase }.record (.decided s.signal)) := by
  have hterminals : terminals (s.log ++ [.decided s.signal]) = [] := by
    simpa [terminals] using h.terminals_eq_nil (pending_spec hs).1
  have hdecisions : decisions (s.log ++ [.decided s.signal]) = [s.signal] := by
    simpa [decisions] using h.decisions_eq_nil hs
  refine ⟨h.signal.trans (standing_append (by simp)).symm, ?_,
    by simpa only [record, hdecisions] using hallows, fun hphase => absurd hphase hstopped,
    by simp [record, hterminals], fun he => absurd he (eq_false_iff.1 hearly),
    History.justified_append h.warranted h.signal⟩
  simpa [record, hterminals] using hcount

/-- One action of an ending run. -/
theorem Inv.act {action : Action} (hphase : s.phase = .ending (action :: rest)) :
    Inv (act s rest action) := by
  have hcount := h.count
  have hallows := h.allows
  rw [hphase] at hcount hallows
  cases action with
  | abort =>
    have hnext : Inv { s with phase := .ending rest } :=
      ⟨h.signal, hcount, hallows, nofun, h.fits, nofun, h.warranted⟩
    exact hnext.works (.record rfl rfl rfl rfl)
  | emit outcome =>
    have hterminals : terminals (s.log ++ [.terminal outcome]) = terminals s.log ++ [outcome] :=
      terminals_append ..
    have hdecisions : decisions (s.log ++ [.terminal outcome]) = decisions s.log := by
      simp [decisions]
    have hemits : (ending (.emit outcome :: rest)).emits =
        outcome :: (ending rest).emits := rfl
    simp only [hemits, length_cons] at hcount
    refine ⟨h.signal.trans (standing_append (by simp)).symm, ?_, ?_, nofun, ?_, nofun,
      History.justified_append h.warranted trivial⟩
    · simp only [RunOne.act, record, hterminals, length_append, length_singleton]
      simp only [ends] at hcount ⊢
      omega
    · simp only [RunOne.act, record, hdecisions]
      exact fun other hother => hallows other (hemits ▸ mem_cons_of_mem _ hother)
    · simp only [RunOne.act, record, hterminals, hdecisions, mem_append, mem_singleton]
      rintro other (hother | rfl)
      · exact h.fits other hother
      · exact hallows other (hemits ▸ mem_cons_self)

theorem Inv.returns {call : Call} {rest : List Call} (hphase : s.phase = .setup call rest)
    (result : Option Failure) :
    Inv (returns s call rest result) := by
  have hs : s.phase.pending = true := by rw [hphase]; rfl
  cases result with
  | none =>
    cases rest with
    | nil | cons next rest => exact h.goOn hs rfl nofun nofun
  | some err =>
    simp only [RunOne.returns]
    split_ifs with hstop
    · refine h.decide s.sealed hs (by rw [emits_leave]; rfl) ?_ nofun rfl
      simp only [Phase.Allows, emits_leave, mem_singleton, forall_eq]
      exact controlled_fits (stoppedByControl_signal (and_eq_true_iff.1 hstop).2)
    · exact h.breakOff hs (emits_leave call .failed) not_mem_nil

theorem Inv.concludes (hphase : s.phase = .extracting) (extractErr : Option Failure) :
    Inv (concludes cfg s extractErr) := by
  have hs : s.phase.pending = true := by rw [hphase]; rfl
  unfold RunOne.concludes
  split_ifs with hstop hfailed hresumable
  · exact h.goOn hs rfl (fun _ => stoppedByControl_signal (and_eq_true_iff.1 hstop).2) nofun
  · exact h.breakOff hs rfl rfl
  · exact h.breakOff hs rfl not_mem_nil
  · exact h.goOn hs rfl nofun nofun

theorem Inv.sealControl {stopped : Bool} (hphase : s.phase = .sealing stopped) :
    Inv (sealControl cfg s stopped) := by
  have hs : s.phase.pending = true := by rw [hphase]; rfl
  unfold RunOne.sealControl
  by_cases hnone : s.signal = .none
  · have hstopped : stopped = false := by
      rw [eq_false_iff]
      rintro rfl
      exact h.stopped hphase hnone
    have hnext : ¬(stopped || s.signal != .none) = true := by simp [hstopped, hnone]
    rw [if_neg hnext]
    exact h.decide true hs rfl (by simp [Phase.Allows, Fits, hnone]) nofun rfl
  · have hnext : (stopped || s.signal != .none) = true := by simp [hnone]
    rw [if_pos hnext]
    obtain ⟨hallows, hcount⟩ := finishControlled_allows cfg hnone
    obtain ⟨hsealing, hearly⟩ := finishControlled_settles cfg s.signal
    exact h.decide true hs hcount hallows hsealing hearly

theorem Inv.commits (hphase : s.phase = .committing outcome) (ok : Bool) :
    Inv (commits s outcome ok) := by
  have hends : s.phase.ends = 0 := by rw [hphase]; rfl
  have hallows := h.allows
  rw [hphase] at hallows
  cases ok with
  | true =>
    have hnext : Inv { s with phase := .ending [.emit outcome] } :=
      h.move hends rfl (by simpa [Phase.Allows, emits] using hallows.1) nofun nofun
    exact hnext.works (.record rfl rfl rfl rfl)
  | false =>
    exact h.move hends rfl (by simpa [Phase.Allows, emits, Fits] using hallows.2) nofun nofun

theorem Inv.admits (hphase : s.phase = .admitting) :
    Inv ({ s with phase := proceed cfg.calls }.record .started) := by
  have hs : s.phase.pending = true := by rw [hphase]; rfl
  have hnil := h.terminals_eq_nil (pending_spec hs).1
  have hterminals : terminals (s.log ++ [.started]) = [] := by simpa [terminals] using hnil
  have hdecisions : decisions (s.log ++ [.started]) = [] := by
    simpa [decisions] using h.decisions_eq_nil hs
  refine ⟨h.signal.trans (standing_append (by simp)).symm, ?_, hdecisions, nofun, ?_, nofun,
    History.justified_append h.warranted hnil⟩
  · simp only [record, hterminals]
    rfl
  · simp [record, hterminals]

/-- **Every event keeps what holds along a run.** -/
theorem Inv.step (event : Event) : Inv (step cfg s event) := by
  cases event with
  | validates ok =>
    simp only [RunOne.step]
    split
    · next hphase =>
      have hs : s.phase.pending = true := by rw [hphase]; rfl
      cases ok <;> exact h.goOn hs rfl nofun fun _ => by rw [hphase]; rfl
    · exact h
  | prepares ok =>
    simp only [RunOne.step]
    split
    · next hphase =>
      have hs : s.phase.pending = true := by rw [hphase]; rfl
      cases ok
      · exact h.breakOff hs rfl not_mem_nil
      · exact h.goOn hs rfl nofun fun _ => by rw [hphase]; rfl
    · exact h
  | admits ok =>
    simp only [RunOne.step]
    split
    · next hphase =>
      cases ok
      · exact h.goOn (by rw [hphase]; rfl) rfl nofun fun _ => by rw [hphase]; rfl
      · exact h.admits cfg hphase
    · exact h
  | returns result =>
    simp only [RunOne.step]
    split
    · next hphase => exact h.returns hphase result
    · exact h
  | signals signal => exact h.request signal
  | cancels => exact { h with }
  | shuts => exact Trace.guarded h fun _ => { h with }
  | extracts batch take => exact Trace.guarded h fun _ => h.works (queue_works cfg s batch take)
  | extracted result batches =>
    exact Trace.guarded h fun _ => h.works (closeIngest_works cfg s result batches)
  | takesTransform => exact h.works (takeTransform_works s)
  | transforms batch result take => exact h.works (transformed_works s batch result take)
  | takesWrite => exact h.works (takeWrite_works s)
  | writes batch result => exact h.works (written_works s batch result)
  | waited =>
    simp only [RunOne.step]
    split
    · next hphase _ =>
      split_ifs
      · exact h.concludes cfg hphase _
      · exact h
    · exact h
  | seals =>
    simp only [RunOne.step]
    split
    · next hphase => exact h.sealControl cfg hphase
    · exact h
  | commits ok =>
    simp only [RunOne.step]
    split
    · next hphase => exact h.commits hphase ok
    · exact h
  | acts =>
    simp only [RunOne.step]
    split
    · next hphase => exact h.act hphase
    · exact h

end

theorem inv_run (events : List Event) : Inv (Trace.run (step cfg) fresh events) :=
  Trace.inv_run (fun _ event h => h.step cfg event) Inv.fresh events

end Filament.RunOne
