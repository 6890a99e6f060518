import Mathlib.Algebra.Order.Ring.Nat
import Filament.Runner.Outcome

/-!
# The terminal fact of a bounded run

* `Account` : the books of the pipeline, from the batches it accepted to the ones the sink applied;
* `Backed` : what stands behind `run.completed` and behind a committed pause;
* `returns_of_run` : a run that was announced can always be brought to its end;
* `terminal_outcome` : a run ends with one terminal fact, and with a truthful one.

A transformer that finds the pipeline's context done and no error gives its batch up without a word
(`transformed` with `take` false).  The books are kept along the runs in which no transformer sends
in such a state, `Steady`.
-/

namespace Filament.RunOne

open List State Trace

/-! ### The books of the pipeline -/

variable {outcome : Terminal} {log : List Fact} {fact : Fact}

/-- The copies of a batch that the pipeline holds. -/
def State.inFlight (s : State) (b : BatchID) : Nat :=
  s.transformCh.count b + s.transforming.count b + s.batchCh.count b + s.writing.count b

/-- The outcomes that claim a committed sink. -/
def Terminal.commits (outcome : Terminal) : Prop :=
  outcome = .completed ∨ outcome = .paused true

/-- Behind an outcome that claims a committed sink stands a `Commit`, before which every extracted
batch was applied; and a completed run refused none. -/
def Backed (log : List Fact) (outcome : Terminal) : Prop :=
  outcome.commits →
    (∃ before after, log = before ++ .committed :: after ∧
      ∀ b, log.count (.extracted b) = before.count (.applied b)) ∧
    (outcome = .completed → ∀ b, .refused b ∉ log)

/-- Every terminal fact is backed by the history before it. -/
def Proven (before : List Fact) : Fact → Prop
  | .terminal outcome => Backed before outcome
  | _ => True

/-- The phases between the pipeline's end and the sink's. -/
def Phase.settling : Phase → Bool
  | .sealing _ => true
  | .committing _ => true
  | _ => false

/-- The phases that lead to `run.completed`. -/
def Phase.clean : Phase → Bool
  | .sealing false => true
  | .committing .completed => true
  | _ => false

/-- The books of a run whose transformers give nothing up in silence. -/
structure Account (s : State) : Prop where
  tally : s.err = none →
    ∀ b, s.log.count (.extracted b) = s.log.count (.applied b) + s.inFlight b
  broken : ∀ b, .refused b ∈ s.log → s.builderErr ≠ none
  closed : s.extractErr = some none → s.builderErr ≠ none → s.err ≠ none
  settled : s.phase.settling = true → s.err = none ∧ s.drained = true
  clean : s.phase.clean = true → s.extractErr = some none
  backed : ∀ outcome ∈ s.phase.emits, Backed s.log outcome
  proven : History.Justified Proven s.log

theorem Account.fresh : Account fresh where
  tally := by simp [RunOne.fresh, inFlight]
  broken := by simp [RunOne.fresh]
  closed := by simp [RunOne.fresh]
  settled := by simp [RunOne.fresh, Phase.settling]
  clean := by simp [RunOne.fresh, Phase.clean]
  backed := by simp [RunOne.fresh, Phase.emits]
  proven := History.justified_nil _

/-- A backed outcome stays backed when no batch is handed over any more. -/
theorem Backed.append (h : Backed log outcome) (hextracted : ∀ b, fact ≠ .extracted b)
    (hrefused : ∀ b, fact ≠ .refused b) : Backed (log ++ [fact]) outcome := by
  intro hcommits
  obtain ⟨⟨before, after, hlog, hcount⟩, hclean⟩ := h hcommits
  refine ⟨⟨before, after ++ [fact], by simp [hlog], fun b => ?_⟩, fun hcompleted b hmem => ?_⟩
  · have hzero : [fact].count (.extracted b) = 0 :=
      count_eq_zero_of_not_mem (by simpa using (hextracted b).symm)
    rw [count_append, hcount b, hzero, Nat.add_zero]
  · rcases mem_append.1 hmem with hmem | hmem
    · exact hclean hcompleted b hmem
    · exact hrefused b (mem_singleton.1 hmem).symm

theorem Backed.of_not (h : ¬ outcome.commits) : Backed log outcome :=
  fun hcommits => absurd hcommits h

/-- The transformer's condition: no send in a pipeline whose context is done without an error. -/
def Steady (s : State) : Event → Prop
  | .transforms _ _ _ => s.done = true → s.err ≠ none
  | _ => True

/-! ### The moves of the transformers and the writers -/

variable {s t : State} {held : List BatchID}

/-- From `s` to `t` a transformer or a writer moved. -/
structure Drains (s t : State) : Prop where
  phase : t.phase = s.phase
  extractErr : t.extractErr = s.extractErr
  builderErr : t.builderErr = s.builderErr
  err : t.err = none → s.err = none
  log : t.log = s.log ∨ ∃ b, t.log = s.log ++ [.applied b]
  tally : t.err = none → ∀ b, t.log.count (.applied b) + t.inFlight b =
    s.log.count (.applied b) + s.inFlight b
  idle : s.drained = true → t = s

theorem Drains.refl (s : State) : Drains s s :=
  ⟨rfl, rfl, rfl, id, .inl rfl, fun _ _ => rfl, fun _ => rfl⟩

theorem Account.drains (h : Account s) (ht : Drains s t) : Account t := by
  by_cases hidle : s.drained = true
  · rw [ht.idle hidle]
    exact h
  have hbroken : ∀ b, .refused b ∈ t.log → .refused b ∈ s.log := by
    intro b hmem
    rcases ht.log with hlog | ⟨b', hlog⟩
    · rwa [hlog] at hmem
    · simpa [hlog] using hmem
  have hextracted : ∀ b, t.log.count (.extracted b) = s.log.count (.extracted b) := by
    intro b
    rcases ht.log with hlog | ⟨b', hlog⟩
    · rw [hlog]
    · simp [hlog]
  refine ⟨fun herr b => ?_, fun b hmem => ?_, fun hextract hbuilder herr => ?_, ?_, ?_, ?_, ?_⟩
  · have := ht.tally herr b
    have := h.tally (ht.err herr) b
    rw [hextracted b]
    omega
  · exact ht.builderErr ▸ h.broken b (hbroken b hmem)
  · rw [ht.extractErr] at hextract
    rw [ht.builderErr] at hbuilder
    exact h.closed hextract hbuilder (ht.err herr)
  · intro hsettling
    exact absurd (h.settled (ht.phase ▸ hsettling)).2 hidle
  · rw [ht.phase, ht.extractErr]
    exact h.clean
  · intro outcome hmem
    rw [ht.phase] at hmem
    rcases ht.log with hlog | ⟨b, hlog⟩
    · rw [hlog]
      exact h.backed outcome hmem
    · rw [hlog]
      exact (h.backed outcome hmem).append nofun nofun
  · rcases ht.log with hlog | ⟨b, hlog⟩
    · rw [hlog]
      exact h.proven
    · rw [hlog]
      exact History.justified_append h.proven trivial

theorem State.drained_iff (s : State) : s.drained = true ↔
    s.transformCh = [] ∧ s.transforming = [] ∧ s.batchCh = [] ∧ s.writing = [] := by
  simp [drained, and_assoc]

/-- Taking a batch out of a channel. -/
theorem take_drains (s : State) : Drains s (takeTransform s) ∧ Drains s (takeWrite s) := by
  unfold takeTransform takeWrite
  constructor <;> split <;> [exact .refl s; skip; exact .refl s; skip]
  all_goals
    rename_i b rest hch
    have hidle : s.drained = true → False := by simp [drained_iff, hch]
    split_ifs with herr
    · refine ⟨rfl, rfl, rfl, id, .inl rfl, fun hnone => ?_, fun h => absurd h hidle⟩
      exact absurd hnone (Option.isSome_iff_ne_none.1 herr)
    · refine ⟨rfl, rfl, rfl, id, .inl rfl, fun _ b' => ?_, fun h => absurd h hidle⟩
      simp only [inFlight, hch, count_cons]
      omega

theorem count_erase_add {b : BatchID} (h : b ∈ held) (b' : BatchID) :
    (held.erase b).count b' + (if b = b' then 1 else 0) = held.count b' := by
  have hpos := count_pos_iff.2 h
  rw [count_erase]
  by_cases hb : b = b'
  · subst hb
    simp only [beq_self_eq_true, if_true]
    omega
  · simp [hb]

theorem transformed_drains (hsteady : s.done = true → s.err ≠ none) (batch : BatchID)
    (result : Option String) (take : Bool) : Drains s (transformed s batch result take) := by
  unfold transformed
  split_ifs with hmem
  · have hidle : s.drained = true → False := by
      intro h
      rw [((drained_iff s).1 h).2.1] at hmem
      exact not_mem_nil hmem
    cases result with
    | some message => exact ⟨rfl, rfl, rfl, nofun, .inl rfl, nofun, fun h => absurd h hidle⟩
    | none =>
      dsimp only
      split_ifs with hgive
      · refine ⟨rfl, rfl, rfl, id, .inl rfl, fun h => ?_, fun h => absurd h hidle⟩
        exact absurd h (hsteady (Bool.and_eq_true_iff.1 hgive).1)
      · refine ⟨rfl, rfl, rfl, id, .inl rfl, fun _ b' => ?_, fun h => absurd h hidle⟩
        have := count_erase_add hmem b'
        simp only [inFlight, count_append, count_singleton, beq_iff_eq]
        omega
  · exact .refl s

theorem written_drains (s : State) (batch : BatchID) (result : Option String) :
    Drains s (written s batch result) := by
  unfold written
  split_ifs with hmem
  · have hidle : s.drained = true → False := by
      intro h
      rw [((drained_iff s).1 h).2.2.2] at hmem
      exact not_mem_nil hmem
    cases result with
    | some message => exact ⟨rfl, rfl, rfl, nofun, .inl rfl, nofun, fun h => absurd h hidle⟩
    | none =>
      refine ⟨rfl, rfl, rfl, id, .inr ⟨batch, rfl⟩, fun _ b' => ?_, fun h => absurd h hidle⟩
      have := count_erase_add hmem b'
      simp only [record, inFlight, count_append, count_singleton, beq_iff_eq,
        Fact.applied.injEq]
      omega
  · exact .refl s

/-! ### The moves of the extractor -/

variable (cfg : Config) {extractErr : Option Failure} {rest : List Action} {stopped : Bool}

theorem queue_frame (s : State) (batch : BatchID) (take : Bool) :
    (queue cfg s batch take).phase = s.phase ∧
      (queue cfg s batch take).extractErr = s.extractErr := by
  unfold queue
  split_ifs <;> exact ⟨rfl, rfl⟩

/-- While the source is read the books do not speak of the run's end. -/
theorem Account.of_extracting (hphase : s.phase = .extracting)
    (htally : s.err = none →
      ∀ b, s.log.count (.extracted b) = s.log.count (.applied b) + s.inFlight b)
    (hbroken : ∀ b, .refused b ∈ s.log → s.builderErr ≠ none)
    (hclosed : s.extractErr = some none → s.builderErr ≠ none → s.err ≠ none)
    (hproven : History.Justified Proven s.log) : Account s :=
  ⟨htally, hbroken, hclosed, by simp [hphase, Phase.settling], by simp [hphase, Phase.clean],
    by simp [hphase, Phase.emits], hproven⟩

/-- A batch that is handed over is either in flight or refused. -/
theorem Account.queue (h : Account s) (hphase : s.phase = .extracting)
    (hopen : s.extractErr = none) (batch : BatchID) (take : Bool) :
    Account (queue cfg s batch take) := by
  have hclosed : s.extractErr = some none → False := by simp [hopen]
  unfold RunOne.queue
  split_ifs
  · refine .of_extracting hphase (fun herr b => ?_) (fun b _ => by simp [record])
      (fun he => (hclosed he).elim) (History.justified_append h.proven trivial)
    simpa [record, inFlight] using h.tally herr b
  -- it waits for the transformer or for a writer
  all_goals
    refine .of_extracting hphase (fun herr b => ?_) (fun b hmem => ?_)
      (fun he => (hclosed he).elim) (History.justified_append h.proven trivial)
    · have := h.tally herr b
      simp only [inFlight] at this
      simp only [record, inFlight, count_append, count_singleton, beq_iff_eq,
        Fact.extracted.injEq, reduceCtorEq, if_false]
      omega
    · exact h.broken b (by simpa [record] using hmem)

theorem Account.flush (batches : List (BatchID × Bool)) (h : Account s)
    (hphase : s.phase = .extracting) (hopen : s.extractErr = none) :
    Account (flush cfg s batches) ∧ (flush cfg s batches).phase = .extracting := by
  induction batches generalizing s with
  | nil => exact ⟨h, hphase⟩
  | cons b batches ih =>
    obtain ⟨hp, he⟩ := queue_frame cfg s b.1 b.2
    exact ih (h.queue cfg hphase hopen b.1 b.2) (hp.trans hphase) (he.trans hopen)

/-- An extraction that ends cleanly leaves no refused batch behind without an error. -/
theorem Account.closeIngest (h : Account s) (hphase : s.phase = .extracting)
    (hopen : s.extractErr = none) (result : Option Failure) (batches : List (BatchID × Bool)) :
    Account (closeIngest cfg s result batches) := by
  cases result with
  | some err =>
    refine { h with closed := fun he => by simp [RunOne.closeIngest] at he, clean := ?_ }
    intro hclean
    simp [RunOne.closeIngest, hphase, Phase.clean] at hclean
  | none =>
    obtain ⟨hflush, hflushed⟩ := h.flush cfg batches hphase hopen
    simp only [RunOne.closeIngest]
    split
    · next hbuilder =>
      exact .of_extracting hflushed hflush.tally hflush.broken (fun _ hne => absurd hbuilder hne)
        hflush.proven
    · exact .of_extracting hflushed (fun h => by cases h) hflush.broken (fun _ _ h => by cases h)
        hflush.proven

/-! ### The moves of `RunOne` -/

theorem Account.move (h : Account s) (phase : Phase)
    (hsettled : phase.settling = true → s.err = none ∧ s.drained = true)
    (hclean : phase.clean = true → s.extractErr = some none)
    (hemits : ∀ outcome ∈ phase.emits, ¬ outcome.commits) : Account { s with phase := phase } :=
  ⟨h.tally, h.broken, h.closed, hsettled, hclean, fun outcome hmem => .of_not (hemits outcome hmem),
    h.proven⟩

/-- A fact about the run itself, and not about its batches or its end. -/
def Fact.plain : Fact → Bool
  | .started => true
  | .requested _ => true
  | .decided _ => true
  | .aborted => true
  | _ => false

theorem controlled_not_commits (signal : Signal) : ¬ (controlled signal).commits := by
  cases signal <;> simp [controlled, Terminal.commits]

/-- The control's command never leads to `run.completed`. -/
theorem finishControlled_claims (signal : Signal) :
    (finishControlled cfg signal).clean = false ∧
      ∀ outcome ∈ (finishControlled cfg signal).emits, ¬ outcome.commits := by
  unfold finishControlled
  split
  · simp [Phase.clean, Phase.emits, Terminal.commits]
  · split_ifs <;> simp [Phase.clean, Phase.emits, Terminal.commits]

section

variable (h : Account s)
include h

/-- A fact that is not about a batch. -/
theorem Account.note (hextracted : ∀ b, .extracted b ≠ fact) (happlied : ∀ b, .applied b ≠ fact)
    (hrefused : ∀ b, .refused b ≠ fact) (hproven : Proven s.log fact) :
    Account (s.record fact) := by
  refine ⟨fun herr b => ?_, fun b hmem => h.broken b ?_, h.closed, h.settled, h.clean,
    fun outcome hmem => (h.backed outcome hmem).append (hextracted · |>.symm) (hrefused · |>.symm),
    History.justified_append h.proven hproven⟩
  · simpa [record, inFlight, count_singleton, (hextracted b).symm, (happlied b).symm]
      using h.tally herr b
  · simpa [record, hrefused b] using hmem

theorem Account.record (hplain : fact.plain) : Account (s.record fact) := by
  apply h.note <;> cases fact <;> simp_all [Fact.plain, Proven]

theorem Account.request (signal : Signal) : Account (request s signal) := by
  unfold RunOne.request
  split
  · exact h
  · exact Account.record (s := { s with signal := _, extractCanceled := true }) { h with } rfl

theorem Account.moveOn (phase : Phase) (hsettled : phase.settling = false)
    (hclean : phase.clean = false) (hemits : ∀ outcome ∈ phase.emits, ¬ outcome.commits) :
    Account { s with phase := phase } :=
  h.move phase (by simp [hsettled]) (by simp [hclean]) hemits

theorem Account.returns (call : Call) (rest : List Call) (result : Option Failure) :
    Account (returns s call rest result) := by
  cases result with
  | none =>
    cases rest with
    | nil =>
      exact h.moveOn .extracting rfl rfl (by simp [Phase.emits])
    | cons next rest =>
      exact h.moveOn (.setup next rest) rfl rfl (by simp [Phase.emits])
  | some err =>
    simp only [RunOne.returns]
    split_ifs
    · refine Account.record (h.move _ (by simp [Phase.settling]) (by simp [Phase.clean]) ?_) rfl
      simpa [emits_leave] using controlled_not_commits s.signal
    · refine h.moveOn _ rfl rfl ?_
      simp [emits_leave, Terminal.commits]

theorem Account.concludes (hextract : s.extractErr = some extractErr) (hdrained : s.drained = true) :
    Account (concludes cfg s extractErr) := by
  unfold RunOne.concludes
  split_ifs with hstop hfailed hresumable
  · have herr := Option.isNone_iff_eq_none.1 (Bool.and_eq_true_iff.1 hstop).1
    exact h.move _ (fun _ => ⟨herr, hdrained⟩) nofun nofun
  · exact h.move _ nofun nofun nofun
  · exact h.move _ nofun nofun nofun
  · obtain ⟨herr, hnone⟩ : s.err = none ∧ extractErr = none := by simpa using hfailed
    exact h.move _ (fun _ => ⟨herr, hdrained⟩) (fun _ => by rw [hextract, hnone]) nofun

theorem Account.sealControl (hphase : s.phase = .sealing stopped) :
    Account (sealControl cfg s stopped) := by
  have hsettled := h.settled (by rw [hphase]; rfl)
  refine Account.record ?_ rfl
  split_ifs with hnext
  · obtain ⟨hclean, hemits⟩ := finishControlled_claims cfg s.signal
    have hmove := h.move (finishControlled cfg s.signal) (fun _ => hsettled)
      (fun h => absurd h (Bool.eq_false_iff.1 hclean)) hemits
    exact { hmove with }
  have hstopped : stopped = false := by
    simp only [Bool.or_eq_true, not_or, Bool.not_eq_true] at hnext
    exact hnext.1
  have hclean := h.clean (by rw [hphase, hstopped]; rfl)
  have hmove := h.move (.committing .completed) (fun _ => hsettled) (fun _ => hclean) nofun
  exact { hmove with }

/-- **A successful `Commit` backs the outcome**: the pipeline was drained without an error. -/
theorem Account.backed_commit (hphase : s.phase = .committing outcome) :
    Backed (s.log ++ [.committed]) outcome := by
  obtain ⟨herr, hdrained⟩ := h.settled (by rw [hphase]; rfl)
  refine fun _ => ⟨⟨s.log, [], rfl, fun b => ?_⟩, ?_⟩
  · have htally := h.tally herr b
    obtain ⟨htransform, htransforming, hbatch, hwriting⟩ := (drained_iff s).1 hdrained
    simpa [inFlight, htransform, htransforming, hbatch, hwriting] using htally
  · rintro rfl b hmem
    have hextract := h.clean (by rw [hphase]; rfl)
    exact h.closed hextract (h.broken b (by simpa using hmem)) herr

theorem Account.commits (hphase : s.phase = .committing outcome) (ok : Bool) :
    Account (commits s outcome ok) := by
  cases ok with
  | false =>
    exact h.move _ nofun nofun nofun
  | true =>
    have hcommitted : Account (s.record .committed) := h.note nofun nofun nofun trivial
    refine { hcommitted with settled := nofun, clean := nofun, backed := fun other hmem => ?_ }
    cases mem_singleton.1 hmem
    exact h.backed_commit hphase

theorem Account.act {action : Action} (hphase : s.phase = .ending (action :: rest)) :
    Account (act s rest action) := by
  have hbacked := h.backed
  rw [hphase] at hbacked
  cases action with
  | abort =>
    refine Account.record ?_ rfl
    exact { h with settled := nofun, clean := nofun, backed := hbacked }
  | emit outcome =>
    have hended : Account (s.record (.terminal outcome)) :=
      h.note nofun nofun nofun (hbacked outcome (.head _))
    exact { hended with
      settled := nofun, clean := nofun
      backed := fun other hmem => (hbacked other (.tail _ hmem)).append nofun nofun }

/-- **Every steady event keeps the books.** -/
theorem Account.step (event : Event) (hsteady : Steady s event) :
    Account (step cfg s event) := by
  cases event with
  | validates ok | prepares ok =>
    simp only [RunOne.step]
    split
    · cases ok <;> exact h.moveOn _ rfl rfl (by simp [Phase.emits, Terminal.commits])
    · exact h
  | admits ok =>
    simp only [RunOne.step]
    split
    · cases ok
      · exact h.moveOn .rejected rfl rfl (by simp [Phase.emits])
      · refine Account.record (h.move (proceed cfg.calls) ?_ ?_ ?_) rfl
        · simp [Config.calls, proceed, Phase.settling]
        · simp [Config.calls, proceed, Phase.clean]
        · simp [Config.calls, proceed, Phase.emits]
    · exact h
  | returns result =>
    simp only [RunOne.step]
    split
    · exact h.returns _ _ result
    · exact h
  | signals signal => exact h.request signal
  | cancels => exact { h with }
  | shuts => exact guarded h fun _ => { h with }
  | extracts batch take => exact guarded h fun hopen => h.queue cfg hopen.1 hopen.2 batch take
  | extracted result batches =>
    exact guarded h fun hopen => h.closeIngest cfg hopen.1 hopen.2 result batches
  | takesTransform => exact h.drains (take_drains s).1
  | transforms batch result take => exact h.drains (transformed_drains hsteady batch result take)
  | takesWrite => exact h.drains (take_drains s).2
  | writes batch result => exact h.drains (written_drains s batch result)
  | waited =>
    simp only [RunOne.step]
    split
    · next _ hextract =>
      split_ifs with hdrained
      · exact h.concludes cfg hextract hdrained
      · exact h
    · exact h
  | seals =>
    simp only [RunOne.step]
    split
    · next hphase => exact h.sealControl cfg hphase
    · exact h
  | commits ok =>
    simp only [RunOne.step]
    split
    · next hphase => exact h.commits hphase ok
    · exact h
  | acts =>
    simp only [RunOne.step]
    split
    · next hphase => exact h.act hphase
    · exact h

end

theorem account_run {events : List Event} (hsteady : Trace.Along (step cfg) Steady fresh events) :
    Account (run (step cfg) fresh events) :=
  inv_run_of_along (fun _ event h hs => h.step cfg event hs) Account.fresh hsteady

/-! ### A run can be brought to its end -/

variable {P Q : State → Prop}

/-- Some events lead from `s` to a state with `P`. -/
def Leads (cfg : Config) (s : State) (P : State → Prop) : Prop :=
  ∃ events, P (Trace.run (step cfg) s events)

theorem Leads.refl {cfg : Config} (h : P s) : Leads cfg s P :=
  ⟨[], h⟩

theorem Leads.event {cfg : Config} (event : Event) (h : Leads cfg (step cfg s event) P) :
    Leads cfg s P := by
  obtain ⟨events, h⟩ := h
  exact ⟨event :: events, h⟩

theorem Leads.trans {cfg : Config} (h : Leads cfg s P) (hPQ : ∀ t, P t → Leads cfg t Q) :
    Leads cfg s Q := by
  obtain ⟨events, h⟩ := h
  obtain ⟨more, hQ⟩ := hPQ _ h
  exact ⟨events ++ more, by rwa [run_append]⟩

/-- `RunOne` has returned. -/
def State.returned (s : State) : Prop := s.phase = .ending []

theorem returned_of_ending (hphase : s.phase = .ending rest) : Leads cfg s returned := by
  induction rest generalizing s with
  | nil => exact .refl hphase
  | cons action rest ih =>
    refine .event .acts (ih ?_)
    simp only [step, hphase]
    cases action <;> rfl

theorem returned_of_committing (hphase : s.phase = .committing outcome) :
    Leads cfg s returned := by
  have hstep : (step cfg s (.commits true)).phase = .ending [.emit outcome] := by
    simp only [step, hphase]
    rfl
  exact .event (.commits true) (returned_of_ending cfg hstep)

theorem returned_of_sealing (hphase : s.phase = .sealing stopped) : Leads cfg s returned := by
  refine .event .seals ?_
  have hstep : (step cfg s .seals).phase =
      if stopped || s.signal != .none then finishControlled cfg s.signal
      else .committing .completed := by
    simp only [step, hphase]
    rfl
  by_cases hnext : (stopped || s.signal != .none) = true
  · rw [if_pos hnext] at hstep
    unfold finishControlled at hstep
    split at hstep
    · exact returned_of_ending cfg hstep
    · split_ifs at hstep
      · exact returned_of_committing cfg hstep
      · exact returned_of_ending cfg hstep
  · rw [if_neg hnext] at hstep
    exact returned_of_committing cfg hstep

/-- What the pipeline has left to do. -/
def State.load (s : State) : ℕ :=
  4 * s.transformCh.length + 3 * s.transforming.length + 2 * s.batchCh.length + s.writing.length

/-- The channels are emptied one after the other, and the batches that are held fail. -/
theorem drains (s : State) : Leads cfg s fun t =>
    t.phase = s.phase ∧ t.extractErr = s.extractErr ∧ t.drained = true := by
  induction hload : s.load using Nat.strongRecOn generalizing s with
  | _ n ih =>
    have hnext : ∀ event {t}, step cfg s event = t → t.phase = s.phase →
        t.extractErr = s.extractErr → t.load < s.load → Leads cfg s fun t =>
          t.phase = s.phase ∧ t.extractErr = s.extractErr ∧ t.drained = true := by
      rintro event t rfl hp he hlt
      have hrest := ih _ (hload ▸ hlt) _ rfl
      rw [hp, he] at hrest
      exact .event event hrest
    rcases htc : s.transformCh with _ | ⟨b, rest⟩
    · rcases htr : s.transforming with _ | ⟨b, rest⟩
      · rcases hb : s.batchCh with _ | ⟨b, rest⟩
        · rcases hw : s.writing with _ | ⟨b, rest⟩
          · exact .refl ⟨rfl, rfl, (drained_iff s).2 ⟨htc, htr, hb, hw⟩⟩
          · exact hnext (.writes b (some "closed")) (t := setErr { s with writing := rest } "closed")
              (by simp [step, written, hw]) rfl rfl (by simp [setErr, load, hw])
        · by_cases herr : s.err.isSome = true
          · exact hnext .takesWrite (t := { s with batchCh := rest })
              (by simp [step, takeWrite, hb, herr]) rfl rfl (by simp [load, hb])
          · exact hnext .takesWrite (t := { s with batchCh := rest, writing := b :: s.writing })
              (by simp [step, takeWrite, hb, herr]) rfl rfl (by simp [load, hb]; omega)
      · exact hnext (.transforms b (some "closed") true)
          (t := setErr { s with transforming := rest } "closed")
          (by simp [step, transformed, htr]) rfl rfl (by simp [setErr, load, htr])
    · by_cases herr : s.err.isSome = true
      · exact hnext .takesTransform (t := { s with transformCh := rest })
          (by simp [step, takeTransform, htc, herr]) rfl rfl (by simp [load, htc])
      · exact hnext .takesTransform
          (t := { s with transformCh := rest, transforming := b :: s.transforming })
          (by simp [step, takeTransform, htc, herr]) rfl rfl (by simp [load, htc]; omega)

theorem returned_of_extracted (hphase : s.phase = .extracting)
    (hextract : s.extractErr = some extractErr) : Leads cfg s returned := by
  refine (drains cfg s).trans fun t ⟨hp, he, hd⟩ => .event .waited ?_
  rw [hphase] at hp
  rw [hextract] at he
  have hstep : step cfg t .waited = concludes cfg t extractErr := by
    simp [step, hp, he, hd]
  rw [hstep]
  unfold concludes
  split_ifs
  · exact returned_of_sealing cfg rfl
  · exact returned_of_ending cfg rfl
  · exact returned_of_ending cfg rfl
  · exact returned_of_sealing cfg rfl

theorem returned_of_extracting (hphase : s.phase = .extracting) : Leads cfg s returned := by
  cases hextract : s.extractErr with
  | some extractErr => exact returned_of_extracted cfg hphase hextract
  | none =>
    refine .event (.extracted (some (.other "closed")) []) ?_
    have hstep : step cfg s (.extracted (some (.other "closed")) []) =
        { s with extractErr := some (some (.other "closed")) } := by
      simp [step, hphase, hextract, closeIngest]
    rw [hstep]
    exact returned_of_extracted cfg hphase rfl

theorem returned_of_setup {call : Call} {rest : List Call} (hphase : s.phase = .setup call rest) :
    Leads cfg s returned := by
  refine .event (.returns (some (.other "closed"))) ?_
  have hstep : step cfg s (.returns (some (.other "closed"))) =
      { s with phase := .ending (leave call .failed) } := by
    simp [step, hphase, returns, stoppedByControl]
  rw [hstep]
  exact returned_of_ending cfg rfl

/-- A run that was announced can always be brought to its end. -/
theorem returns_of_run (h : Inv s) (hstarted : .started ∈ s.log) : Leads cfg s returned := by
  have hearly : s.phase.early ≠ true := fun he => h.early he hstarted
  cases hphase : s.phase with
  | validating | preparing | admitting | rejected => simp [hphase, Phase.early] at hearly
  | setup call rest => exact returned_of_setup cfg hphase
  | extracting => exact returned_of_extracting cfg hphase
  | sealing stopped => exact returned_of_sealing cfg hphase
  | committing outcome => exact returned_of_committing cfg hphase
  | ending rest => exact returned_of_ending cfg hphase

/-! ### The terminal fact -/

theorem mem_terminals : outcome ∈ terminals log ↔ .terminal outcome ∈ log := by
  simp only [terminals, mem_filterMap]
  constructor
  · rintro ⟨fact, hmem, hfact⟩
    cases fact <;> simp_all
  · intro hmem
    exact ⟨.terminal outcome, hmem, rfl⟩

theorem Inv.one_terminal (h : Inv s) (hstarted : .started ∈ s.log) (hreturned : s.returned) :
    ∃ before outcome after, s.log = before ++ .terminal outcome :: after ∧ .started ∈ before ∧
      terminals before = [] ∧ terminals after = [] := by
  have hcount : (terminals s.log).length = 1 := by
    have hcount := h.count
    rw [hreturned] at hcount
    exact hcount
  obtain ⟨outcome, houtcome⟩ := length_eq_one_iff.1 hcount
  have hmem : .terminal outcome ∈ s.log := mem_terminals.1 (by simp [houtcome])
  obtain ⟨before, after, hlog⟩ := append_of_mem hmem
  have hsplit : terminals s.log = terminals before ++ outcome :: terminals after := by
    rw [hlog, terminals_append]
    rfl
  rw [hsplit, length_append, length_cons] at hcount
  refine ⟨before, outcome, after, hlog, ?_, eq_nil_of_length_eq_zero (by omega),
    eq_nil_of_length_eq_zero (by omega)⟩
  -- An announcement after the terminal fact would stand after a terminal fact.
  rw [hlog, mem_append, mem_cons] at hstarted
  rcases hstarted with hbefore | heq | hafter
  · exact hbefore
  · exact Fact.noConfusion heq
  · obtain ⟨between, rest, hrest⟩ := append_of_mem hafter
    have hwarranted := h.warranted (before ++ .terminal outcome :: between) .started rest
      (by rw [hlog, hrest, append_assoc, cons_append])
    have hnil : terminals (before ++ .terminal outcome :: between) = [] := hwarranted
    have : outcome ∈ terminals (before ++ .terminal outcome :: between) :=
      mem_terminals.2 (by simp)
    rw [hnil] at this
    exact absurd this not_mem_nil

/-- A decision taken while a cancel stood leaves no other outcome. -/
theorem Inv.canceled (h : Inv s) {before after : List Fact} {signal : Signal}
    (hlog : s.log = before ++ .decided signal :: after) (hcancel : .requested .cancel ∈ before)
    (houtcome : .terminal outcome ∈ s.log) : outcome = .canceled := by
  have hsignal : signal = .cancel := by
    have hstanding : signal = standing before := h.warranted before _ after hlog
    rw [hstanding, standing, if_pos hcancel]
  have hmem : Signal.cancel ∈ decisions s.log := by
    rw [hlog, decisions_append, hsignal]
    exact mem_append_right _ (.head _)
  have hfits := h.fits outcome (mem_terminals.2 houtcome)
  cases outcome with
  | canceled => rfl
  | failed => exact absurd hmem hfits
  | completed =>
    have hds : decisions s.log = [.none] := hfits
    simp [hds] at hmem
  | resumable =>
    have hds : decisions s.log = [] := hfits
    simp [hds] at hmem
  | paused committed =>
    have hds : decisions s.log = [.pause] := hfits
    simp [hds] at hmem

/-- A run settled without a look at the control has failed. -/
theorem Inv.undecided (h : Inv s) (hds : decisions s.log = [])
    (houtcome : .terminal outcome ∈ s.log) : outcome = .failed ∨ outcome = .resumable := by
  have hfits := h.fits outcome (mem_terminals.2 houtcome)
  cases outcome <;> simp_all [Fits]

/-- **A bounded run ends with one truthful terminal fact.**  At every moment of every run: once
announced, it can be brought to its end, where one terminal fact stands after the announcement;
there is never a second one; a command that finds the control sealed changes nothing; the control
is read as it stands, so that a cancel read together with a pause leaves the outcome cancel only; a
run settled without reading the control has failed; and, unless a transformer gave a batch up in
silence, `run.completed` and a committed pause follow a `Commit` that every extracted batch was
applied before. -/
theorem terminal_outcome (cfg : Config) (events : List Event) :
    let s := Trace.run (step cfg) fresh events
    (.started ∈ s.log →
      (∃ more, (Trace.run (step cfg) s more).phase = .ending []) ∧
      (s.phase = .ending [] → ∃ before outcome after,
        s.log = before ++ .terminal outcome :: after ∧ .started ∈ before ∧
          terminals before = [] ∧ terminals after = [])) ∧
    (terminals s.log).length ≤ 1 ∧
    (s.sealed = true → ∀ signal, step cfg s (.signals signal) = s) ∧
    (∀ before signal after, s.log = before ++ .decided signal :: after →
      signal = standing before ∧
      (.requested .cancel ∈ before → .requested .pause ∈ before →
        ∀ outcome, .terminal outcome ∈ s.log → outcome = .canceled)) ∧
    (decisions s.log = [] → ∀ outcome, .terminal outcome ∈ s.log →
      outcome = .failed ∨ outcome = .resumable) ∧
    (Trace.Along (step cfg) Steady fresh events →
      ∀ before outcome after, s.log = before ++ .terminal outcome :: after →
        outcome = .completed ∨ outcome = .paused true →
        (∃ l₁ l₂, before = l₁ ++ .committed :: l₂ ∧
          ∀ b, before.count (.extracted b) = l₁.count (.applied b)) ∧
        (outcome = .completed → ∀ b, .refused b ∉ before)) := by
  intro s
  have h : Inv s := inv_run cfg events
  refine ⟨fun hstarted => ⟨returns_of_run cfg h hstarted, h.one_terminal hstarted⟩, ?_, ?_, ?_,
    fun hds outcome => h.undecided hds, ?_⟩
  · have hcount := h.count
    have hends : s.phase.ends ≤ 1 := by cases s.phase <;> simp [Phase.ends]
    omega
  · intro hsealed signal
    simp [step, request, hsealed]
  · intro before signal after hlog
    exact ⟨h.warranted before _ after hlog, fun hcancel _ outcome => h.canceled hlog hcancel⟩
  · intro hsteady before outcome after hlog hcommits
    exact (account_run cfg hsteady).proven before _ after hlog hcommits

/-! ### A run that is written, and a failed write that takes precedence -/

namespace Demo

def config : Config where
  streamed := false
  resync := []
  transform := false
  transforms := fun _ => false
  requiresCDC := false
  coversAll := false
  resumable := false

def transforming : Config := { config with transform := true, transforms := fun _ => true }

def batch : BatchID := ⟨"users", 0, 1⟩

/-- A batch is transformed and written, and the sink commits. -/
def written : List Event :=
  [.validates true, .prepares true, .admits true] ++
  List.replicate 16 (.returns none) ++
  [.extracts batch true, .takesTransform, .transforms batch none true, .takesWrite,
    .writes batch none, .extracted none [], .waited, .seals, .commits true, .acts]

/-- A batch is being written when a pause and a cancel arrive, and the sink fails. -/
def events : List Event :=
  [.validates true, .prepares true, .admits true] ++
  List.replicate 15 (.returns none) ++
  [.extracts batch true, .takesWrite, .signals .pause, .signals .cancel,
    .writes batch (some "disk full"), .extracted (some .canceled) [], .waited, .acts, .acts]

end Demo

/-- The transformer sends in an open pipeline, and the run completes after the sink's commit. -/
theorem written_run_completes :
    let s := Trace.run (step Demo.transforming) fresh Demo.written
    Trace.Along (step Demo.transforming) Steady fresh Demo.written ∧ s.phase = .ending [] ∧
      ∃ before, s.log = before ++ [.terminal .completed] ∧ .applied Demo.batch ∈ before ∧
        ∃ l₁ l₂, before = l₁ ++ .committed :: l₂ ∧
          ∀ b, before.count (.extracted b) = l₁.count (.applied b) := by
  have hsteady : Trace.Along (step Demo.transforming) Steady fresh Demo.written := by
    simp only [Demo.written, List.replicate, along_append, along_cons, along_nil, Steady, true_and,
      and_true]
    decide
  have hlog : (Trace.run (step Demo.transforming) fresh Demo.written).log =
      [.started, .extracted Demo.batch, .applied Demo.batch, .decided .none, .committed] ++
        [.terminal .completed] := by
    decide
  obtain ⟨-, -, -, -, -, hbacked⟩ := terminal_outcome Demo.transforming Demo.written
  exact ⟨hsteady, by decide, _, hlog, by simp, (hbacked hsteady _ _ _ hlog (.inl rfl)).1⟩

/-- Both commands are in force before the control is ever sealed, and the run ends failed: the
error of the sink takes precedence. -/
theorem failed_despite_cancel :
    let s := Trace.run (step Demo.config) fresh Demo.events
    s.log = [.started, .extracted Demo.batch, .requested .pause, .requested .cancel,
        .terminal .failed, .aborted] ∧
      s.phase = .ending [] ∧ s.sealed = false ∧ standing s.log = .cancel := by
  decide

end Filament.RunOne
