import Mathlib.Algebra.Order.BigOperators.Group.List
import Mathlib.Data.List.DropRight
import Filament.Lib.History
import Filament.Pipeline.Moves

/-!
# The accounts of the pipeline

Every row that was ended in an epoch has been applied, or is queued or buffered, until the pipeline
fails; and it is not buffered or queued once a barrier has returned.

* `since`, `endedRows`, `appliedBatches` : what happened in the epoch, from the log;
* `Complete`, `Warranted` : what a proof, and any other fact, says of the log before it;
* `Basis`, `Shape`, `Account`, `Inv` : the invariant of the pipeline;
* `Inv.append`, `Inv.endRow`, … : the writers and the barriers keep it.
-/

namespace Filament.Pipeline

open Streams History List Option State StreamWriter

variable {cfg : Config} {s s' s₁ : State} {i seq : ℕ} {w w' : StreamWriter} {log epoch : List Fact}
  {fact : Fact} {ws : List StreamWriter} {c : Control}

/-! ### The epoch in the log -/

def Fact.ref : Fact → Option EpochRef
  | .bound ref => some ref
  | _ => none

def Fact.endedRow : Fact → Option (String × Row)
  | .ended resource row => some (resource, row)
  | _ => none

def Fact.appliedBatch : Fact → Option (Batch × WriteReceipt)
  | .applied b receipt => some (b, receipt)
  | _ => none

def Fact.control : Fact → Option Control
  | .accepted c => some c
  | _ => none

/-- The facts since the last epoch was bound. -/
def since (log : List Fact) : List Fact := log.rtakeWhile fun fact => fact.ref.isNone

/-- The epoch that was bound last. -/
def lastBound (log : List Fact) : Option EpochRef := (log.filterMap Fact.ref).getLast?

def endedRows (log : List Fact) : List (String × Row) := log.filterMap Fact.endedRow

def appliedBatches (log : List Fact) : List (Batch × WriteReceipt) := log.filterMap Fact.appliedBatch

/-- The transactions that the accepted controls have left open. -/
def openTransactions (log : List Fact) : Transactions :=
  (log.filterMap Fact.control).foldl acceptControl ∅

def totalRows (l : List (Batch × WriteReceipt)) : ℤ := (l.map fun a => (a.1.numRows : ℤ)).sum

def totalBytes (l : List (Batch × WriteReceipt)) : ℤ := (l.map fun a => a.2.bytes).sum

def ofResource (resource : String) (l : List (Batch × WriteReceipt)) : List (Batch × WriteReceipt) :=
  l.filter fun a => a.1.resource = resource

theorem since_append_bound (log : List Fact) (ref : EpochRef) : since (log ++ [.bound ref]) = [] :=
  rtakeWhile_concat_neg _ _ _ nofun

theorem since_append (h : fact.ref = none) : since (log ++ [fact]) = since log ++ [fact] :=
  rtakeWhile_concat_pos _ _ _ (by simp [h])

theorem endedRows_append (h : fact.endedRow = none) :
    endedRows (log ++ [fact]) = endedRows log := by
  simp [endedRows, filterMap_append, filterMap_cons_none h]

theorem endedRows_since (href : fact.ref = none) (h : fact.endedRow = none) :
    endedRows (since (log ++ [fact])) = endedRows (since log) := by
  rw [since_append href, endedRows_append h]

theorem appliedBatches_since (href : fact.ref = none) (h : fact.appliedBatch = none) :
    appliedBatches (since (log ++ [fact])) = appliedBatches (since log) := by
  rw [since_append href]
  simp [appliedBatches, filterMap_append, filterMap_cons_none h]

theorem openTransactions_since (href : fact.ref = none) (h : fact.control = none) :
    openTransactions (since (log ++ [fact])) = openTransactions (since log) := by
  rw [since_append href]
  simp [openTransactions, filterMap_append, filterMap_cons_none h]

theorem lastBound_append_bound (log : List Fact) (ref : EpochRef) :
    lastBound (log ++ [.bound ref]) = some ref := by
  simp [lastBound, Fact.ref]

theorem lastBound_append (h : fact.ref = none) : lastBound (log ++ [fact]) = lastBound log := by
  simp [lastBound, filterMap_append, h]

/-! ### What a proof says -/

/-- A control with which a domain is complete: it ends a transaction or is a boundary, and no transaction
of any domain is open after it. -/
def Safe (before : List Fact) (c : Control) : Prop :=
  (c.kind = .txnEnd ∨ c.kind = .progressBoundary) ∧ openTransactions (before ++ [.accepted c]) = ∅

/-- The domain has a safe control at the position, after the last row. -/
def Covered (epoch : List Fact) (domain : DomainKey) (position : Position) : Prop :=
  ∃ c before after, epoch = before ++ .accepted c :: after ∧ c.domain = domain ∧
    c.position = position ∧ Safe before c ∧ endedRows after = []

/-- The proof accounts for the rows of the epoch: each of them has been applied, with a receipt for the
rows and the checksum of its batch; the covered domains have a safe control after the last row; no
transaction is open; the totals are those of the batches. -/
structure Complete (cfg : Config) (epoch : List Fact) (proof : EpochCompletion) : Prop where
  rows : (endedRows epoch).Perm
    ((appliedBatches epoch).flatMap fun a => a.1.rows.map fun row => (a.1.resource, row))
  receipts : ∀ a ∈ appliedBatches epoch, a.2.rows = a.1.numRows ∧ a.2.writeCRC = cfg.integrityCRC a.1
  closed : openTransactions epoch = ∅
  covers : proof.positions ≠ []
  covered : ∀ e ∈ proof.positions, Covered epoch e.1 e.2
  totalRows : proof.rows = totalRows (appliedBatches epoch)
  totalBytes : proof.bytes = totalBytes (appliedBatches epoch)
  resources : ∀ resource total, (resource, total) ∈ proof.resources ↔
    ofResource resource (appliedBatches epoch) ≠ [] ∧
    total = (Pipeline.totalRows (ofResource resource (appliedBatches epoch)),
      Pipeline.totalBytes (ofResource resource (appliedBatches epoch)))

/-- What the facts before a fact must say.  An epoch is bound first, before any row, or after its
predecessor of the same attempt was sealed; no row is ended in a sealed epoch; a proof is complete. -/
def Warranted (cfg : Config) (before : List Fact) : Fact → Prop
  | .bound ref => (lastBound before = none → endedRows before = []) ∧
    ∀ last ∈ lastBound before, (∃ proof, .sealed proof ∈ since before) ∧
      ref.attempt = last.attempt ∧ ref.epoch = last.epoch + 1
  | .ended _ _ => ∀ proof, .sealed proof ∉ since before
  | .sealed proof => lastBound before = some proof.binding ∧
    (∀ earlier, .sealed earlier ∉ since before) ∧ Complete cfg (since before) proof
  | .applied _ _ | .accepted _ => True

/-! ### The invariant -/

/-- Between rows there are no cells; a closed writer holds nothing; a writer that was replaced is
closed. -/
structure StreamWriter.Tidy (w : StreamWriter) : Prop where
  between : w.inRow = false → w.builder.cells = []
  closed : w.closed = true → w.Still
  unlisted : w.listed = false → w.closed = true

def Item.IsBatch : Item → Prop
  | .batch _ _ => True
  | .control _ _ => False

/-- No row is open, buffered or queued. -/
def State.Quiet (s : State) : Prop := s.line = [] ∧ ∀ w ∈ s.writers, w.Still

/-- A barrier's control is queued behind every batch, or it has been received. -/
def State.Queued (s : State) : Prop :=
  match s.waiting with
  | none => ∀ item ∈ s.line, item.IsBatch
  | some (c, seq) => (∀ w ∈ s.writers, w.Still) ∧
    (s.sealed = false ∧ s.touched = true ∧ seq = s.sequence) ∧
    ((seq ∈ s.receipts ∧ s.line = []) ∨
      (seq ∉ s.receipts ∧ ∃ before, s.line = before ++ [.control c seq] ∧ ∀ item ∈ before, item.IsBatch))

theorem State.queued_of_none (h : s.waiting = none) : s.Queued ↔ ∀ item ∈ s.line, item.IsBatch := by
  rw [State.Queued, h]

/-- With no barrier waiting only the line matters. -/
theorem State.Queued.of_line (h : s.Queued) (hwaiting : s.waiting = none) (hwaiting' : s'.waiting = none)
    (hline : s'.line = s.line := by rfl) : s'.Queued := by
  rw [queued_of_none hwaiting] at h
  rwa [queued_of_none hwaiting', hline]

/-- Nothing was written since the last safe control, the seal, or the start. -/
def State.Idle (s : State) : Prop :=
  s.completed.keys ≠ [] ∨ s.sealed = true ∨ s.touched = false

/-- The totals of the epoch are those of the batches applied in it. -/
def State.Totals (s : State) (applied : List (Batch × WriteReceipt)) : Prop :=
  s.epochRows = totalRows applied ∧ s.epochBytes = totalBytes applied ∧
    ∀ resource, s.epochResources.lookup resource =
      if ofResource resource applied = [] then none
      else some (totalRows (ofResource resource applied), totalBytes (ofResource resource applied))

/-- What the log says of the state, also after a failure. -/
structure Basis (cfg : Config) (s : State) : Prop where
  stopped : s.err ≠ none → s.done = true
  epoch : s.epoch = lastBound s.log
  sealed : s.sealed = true ↔ ∃ proof, .sealed proof ∈ since s.log
  justified : Justified (Warranted cfg) s.log

/-- The shape of a pipeline that has not failed. -/
structure Shape (cfg : Config) (s : State) : Prop where
  tidy : ∀ w ∈ s.writers, w.Tidy
  routed : cfg.transform = none → s.transformCh = []
  stamped : ∀ b epoch, .batch b epoch ∈ s.line → epoch = s.epoch
  numbered : ∀ n ∈ s.receipts, n ≤ s.sequence
  queued : s.Queued
  quiet : s.waiting = none → s.Idle → s.Quiet
  receipts : s.epoch ≠ none → ∀ a ∈ appliedBatches (since s.log),
    a.2.rows = a.1.numRows ∧ a.2.writeCRC = cfg.integrityCRC a.1
  totals : s.epoch ≠ none → s.Totals (appliedBatches (since s.log))
  transactions : s.transactions = openTransactions (since s.log)
  covered : ∀ d p, s.completed.lookup d = some p → Covered (since s.log) d p
  sealed : s.sealed = true → s.transactions = ∅
  untouched : s.touched = false → endedRows s.log = [] ∧ s.transactions = ∅

/-- How often a row is in the batches applied since the epoch was bound. -/
def appliedTally (log : List Fact) (x : String × Row) : ℕ :=
  ((appliedBatches (since log)).map fun a => a.1.tally x).sum

theorem appliedTally_append {x : String × Row} (href : fact.ref = none)
    (happlied : fact.appliedBatch = none) : appliedTally (log ++ [fact]) x = appliedTally log x := by
  rw [appliedTally, appliedBatches_since href happlied, appliedTally]

/-- Every row that was ended is applied, queued or buffered. -/
def Account (s : State) : Prop :=
  ∀ x, (endedRows (since s.log)).count x = appliedTally s.log x + s.held x

theorem Account.record (h : Account s) (href : fact.ref = none)
    (hended : fact.endedRow = none) (happlied : fact.appliedBatch = none) : Account (s.record fact) := by
  intro x
  have hx := h x
  rw [← endedRows_since href hended, ← appliedTally_append href happlied] at hx
  exact hx

/-- The invariant. -/
structure Inv (cfg : Config) (s : State) : Prop where
  basis : Basis cfg s
  shape : s.done = false → Shape cfg s
  account : s.done = false → Account s

theorem inv_fresh (cfg : Config) : Inv cfg (.fresh cfg) where
  basis := ⟨by simp [fresh], rfl, by simp [fresh, since], justified_nil _⟩
  shape _ := by
    refine ⟨by simp [fresh], fun _ => rfl, by simp [fresh, line],
      by simp [fresh], by simp [fresh, State.Queued, line], fun _ _ => ⟨rfl, ?_⟩,
      by simp [fresh], by simp [fresh], rfl, ?_, fun _ => rfl, fun _ => ⟨rfl, rfl⟩⟩
    · simp [fresh]
    · intro d p h
      cases h
  account _ x := by
    simp [fresh, held, line, appliedTally, endedRows, appliedBatches, since]

/-- A pipeline that has failed keeps what its log says. -/
theorem Inv.fails (h : Inv cfg s) (hf : Fails s s') : Inv cfg s' where
  basis := by
    refine ⟨fun _ => hf.done, ?_, ?_, hf.log ▸ h.basis.justified⟩
    · rw [hf.epoch, hf.log]
      exact h.basis.epoch
    · rw [hf.sealed, hf.log]
      exact h.basis.sealed
  shape hdone := Bool.noConfusion (hf.done.symm.trans hdone)
  account hdone := Bool.noConfusion (hf.done.symm.trans hdone)

/-! ### Builders and writers -/

theorem Shifts.eq (h : Shifts cfg s s') : ∃ writers transformCh batchCh,
    s' = { s with writers := writers, transformCh := transformCh, batchCh := batchCh } :=
  ⟨s'.writers, s'.transformCh, s'.batchCh, by rw [← h.same]⟩

theorem StreamWriter.Drains.tidy (hd : w.Drains w') (h : w.Tidy) : w'.Tidy where
  between hin := hd.cells.trans (h.between (hd.inRow ▸ hin))
  closed hclosed := hd.still (h.closed (hd.closed ▸ hclosed))
  unlisted hlisted := hd.closed.trans (h.unlisted (hd.listed ▸ hlisted))

theorem Shifts.quiet (h : Shifts cfg s s') (hs : s.Quiet) : s'.Quiet := by
  have hstill : ∀ w ∈ s'.writers, w.Still := by
    intro w' hw'
    obtain ⟨w, hw, hd⟩ := h.writers.exists_of_mem_right hw'
    exact hd.still (hs.2 w hw)
  refine ⟨?_, hstill⟩
  obtain ⟨direct, routed, hdirect, hrouted, -, hitems⟩ := h.sent
  obtain ⟨hbatch, htransform⟩ := append_eq_nil_iff.1 hs.1
  have hline : s'.line = direct ++ routed := by
    rw [State.line, hdirect, hrouted, hbatch, htransform, nil_append, nil_append]
  -- an item would hold a row that nothing held before
  rw [hline, eq_nil_iff_forall_not_mem]
  intro item hitem
  obtain ⟨b, rfl, hrows⟩ := hitems item hitem
  obtain ⟨row, hrow⟩ := exists_mem_of_ne_nil _ hrows
  have hpos : 0 < b.tally (b.resource, row) :=
    count_pos_iff.2 (mem_map_of_mem hrow)
  have hle : b.tally (b.resource, row) ≤ (s'.line.map (Item.tally (b.resource, row))).sum :=
    le_sum_of_mem (mem_map.2 ⟨_, hline ▸ hitem, rfl⟩)
  have hheld := h.held (b.resource, row)
  simp only [State.held, hs.1, sum_tally_eq_zero hs.2, map_nil, sum_nil] at hheld
  omega

theorem Shifts.shape (h : Shifts cfg s s') (hs : Shape cfg s) (hwaiting : s.waiting = none) :
    Shape cfg s' := by
  have hquiet := h.quiet
  have hsent := h.sent
  have hwriters := h.writers
  obtain ⟨writers, transformCh, batchCh, rfl⟩ := h.eq
  obtain ⟨direct, routed, hdirect, hrouted, hnone, hitems⟩ := hsent
  simp only at hdirect hrouted hwriters
  have hmem : ∀ item ∈ batchCh ++ transformCh, item ∈ s.line ∨ ∃ b, item = .batch b s.epoch := by
    intro item hitem
    rw [hdirect, hrouted] at hitem
    simp only [mem_append] at hitem
    have hnew := hitems item
    simp only [mem_append] at hnew
    rcases hitem with (hold | hmem) | (hold | hmem)
    · exact .inl (mem_append_left _ hold)
    · exact .inr ((hnew (.inl hmem)).imp fun _ hb => hb.1)
    · exact .inl (mem_append_right _ hold)
    · exact .inr ((hnew (.inr hmem)).imp fun _ hb => hb.1)
  have hqueued := (queued_of_none hwaiting).1 hs.queued
  refine { hs with
      tidy := fun w' hw' => ?_, routed := fun hcfg => ?_, stamped := fun b epoch hb => ?_
      queued := ?_, quiet := fun hw hidle => hquiet (hs.quiet hw hidle) }
  · obtain ⟨w, hw, hd⟩ := hwriters.exists_of_mem_right hw'
    exact hd.tidy (hs.tidy w hw)
  · rw [hrouted, hs.routed hcfg, hnone hcfg]
    rfl
  · rcases hmem _ hb with hold | ⟨b', heq⟩
    · exact hs.stamped b epoch hold
    · exact (Item.batch.inj heq).2
  · rw [queued_of_none (by exact hwaiting)]
    intro item hitem
    rcases hmem item hitem with hold | ⟨b, rfl⟩
    · exact hqueued item hold
    · trivial

theorem Inv.shifts (h : Inv cfg s) (hs : Shifts cfg s s') (hwaiting : s.waiting = none) : Inv cfg s' := by
  have hheld := hs.held
  have hshape := hs.shape
  obtain ⟨writers, transformCh, batchCh, rfl⟩ := hs.eq
  refine ⟨{ h.basis with },
    fun hdone => hshape (h.shape hdone) hwaiting, fun hdone x => ?_⟩
  rw [hheld x]
  exact h.account hdone x

/-- The writers are rewritten.  What they hold and what is open in them may change only in a pipeline that
is not idle. -/
theorem Shape.rewrite (h : Shape cfg s) (htidy : ∀ w ∈ ws, w.Tidy)
    (hstill : (s.waiting = none ∧ ¬ s.Idle) ∨ ((∀ w ∈ s.writers, w.Still) → ∀ w ∈ ws, w.Still)) :
    Shape cfg { s with writers := ws } := by
  refine { h with tidy := htidy, queued := ?_, quiet := fun hwaiting hidle => ?_ }
  · have hq := h.queued
    unfold State.Queued at hq ⊢
    cases hwaiting : s.waiting with
    | none =>
      rw [hwaiting] at hq
      exact hq
    | some pending =>
      rw [hwaiting] at hq
      rcases hstill with ⟨hnone, -⟩ | hall
      · exact absurd (hwaiting.symm.trans hnone) (some_ne_none pending)
      · exact ⟨hall hq.1, hq.2⟩
  · rcases hstill with ⟨-, hnot⟩ | hall
    · exact absurd hidle hnot
    · exact ⟨(h.quiet hwaiting hidle).1, hall (h.quiet hwaiting hidle).2⟩

theorem Inv.rewrite (h : Inv cfg s) (hshape : s.done = false → Shape cfg { s with writers := ws })
    (hsum : s.done = false → ∀ x, (ws.map (tally x)).sum =
      (s.writers.map (tally x)).sum) : Inv cfg { s with writers := ws } where
  basis := { h.basis with }
  shape := hshape
  account hdone x := by
    have haccount := h.account hdone x
    simp only [held, line, hsum hdone x] at haccount ⊢
    exact haccount

theorem Shape.setWriter (h : Shape cfg s) (hw : s.writers[i]? = some w) (htidy : w'.Tidy)
    (hstill : (s.waiting = none ∧ ¬ s.Idle) ∨ (w.Still → w'.Still)) :
    Shape cfg (s.setWriter i w') := by
  refine h.rewrite (forall_mem_set h.tidy htidy) (hstill.imp id fun himp hs => ?_)
  exact forall_mem_set hs (himp (hs w (mem_of_getElem? hw)))

theorem Inv.setWriter (h : Inv cfg s) (hw : s.writers[i]? = some w)
    (htidy : s.done = false → w'.Tidy) (hresource : w'.resource = w.resource)
    (hrows : w'.builder.rows = w.builder.rows)
    (hstill : s.done = false → (s.waiting = none ∧ ¬ s.Idle) ∨ (w.Still → w'.Still)) :
    Inv cfg (s.setWriter i w') := by
  refine h.rewrite (fun hdone => (h.shape hdone).setWriter hw (htidy hdone) (hstill hdone)) fun _ x => ?_
  have hsum := sum_map_set (f := tally x) (b := w') hw
  have htally : w'.tally x = w.tally x := by simp only [tally, hrows, hresource]
  omega

theorem Inv.aside (h : Inv cfg s) (closed cancelled epochWritten : Bool) (active : Option ℕ)
    (messageSchemas : Option (AList fun _ : String => MessageLayout)) :
    Inv cfg { s with
      closed := closed, cancelled := cancelled, epochWritten := epochWritten, active := active
      messageSchemas := messageSchemas } where
  basis := { h.basis with }
  shape hdone := by
    have hs := h.shape hdone
    exact { hs with }
  account := h.account

theorem not_idle_written (hsealed : s.sealed = false) : ¬ s.written.Idle := by
  rintro (hkeys | hseal | htouched)
  · exact hkeys rfl
  · exact Bool.noConfusion (hsealed.symm.trans hseal)
  · exact Bool.noConfusion htouched

/-- A row begins in an epoch that is not sealed. -/
theorem Inv.written (h : Inv cfg s) (hwaiting : s.waiting = none) (hsealed : s.sealed = false) :
    Inv cfg s.written where
  basis := { h.basis with }
  shape hdone := by
    have hs := h.shape hdone
    refine { hs with
        queued := hs.queued.of_line hwaiting hwaiting
        quiet := fun _ hidle => absurd hidle (not_idle_written hsealed)
        covered := fun d p hd => ?_, untouched := nofun }
    exact absurd hd nofun
  account := h.account

variable (s i w) in
/-- A writer of an open epoch is in a row. -/
structure State.Writing : Prop where
  live : s.done = false
  unsealed : s.sealed = false
  idle : s.waiting = none ∧ ¬ s.Idle
  writer : s.writers[i]? = some w
  inRow : w.inRow = true
  closed : w.closed = false

theorem StreamWriter.Tidy.inRow (h : w.Tidy) (hinRow : w'.inRow = true)
    (hclosed : w'.closed = w.closed) (hlisted : w'.listed = w.listed) (hopen : w.closed = false) :
    w'.Tidy where
  between hin := Bool.noConfusion (hinRow.symm.trans hin)
  closed hc := Bool.noConfusion (hopen.symm.trans (hclosed.symm.trans hc))
  unlisted hl := hclosed.trans (h.unlisted (hlisted.symm.trans hl))

/-- `beforeWrite` refuses, or the writer is in a row. -/
theorem Inv.beforeWrite (h : Inv cfg s) (hwaiting : s.waiting = none) (i : ℕ) (take : Bool) :
    (∃ s', s.beforeWrite cfg i take = (s', false) ∧ Inv cfg s') ∨
    ∃ s' w, s.beforeWrite cfg i take = (s', true) ∧ Inv cfg s' ∧ s'.Writing i w := by
  rcases beforeWrite_spec cfg i take h.basis.stopped with ⟨s', heq, hfails⟩ | ⟨hsealed, heq⟩ |
    ⟨hsealed, hready, s₁, heq, hshifts, w, hw, hclosed⟩
  · exact .inl ⟨s', heq, h.fails hfails⟩
  · exact .inl ⟨s.written, heq, h.written hwaiting hsealed⟩
  · obtain ⟨-, -, hdone⟩ := ready_eq_none hready
    have h₁ : Inv cfg s₁ := (h.written hwaiting hsealed).shifts hshifts hwaiting
    obtain ⟨writers, transformCh, batchCh, rfl⟩ := hshifts.eq
    have hidle : ¬ State.Idle { s.written with
      writers := writers, transformCh := transformCh, batchCh := batchCh } := not_idle_written hsealed
    have hactive := h₁.aside s.closed s.cancelled true (some i) s.messageSchemas
    have htidy := (h₁.shape hdone).tidy w (mem_of_getElem? hw)
    refine .inr ⟨_, { w with inRow := true }, heq, ?_, ?_⟩
    · simp only [enter, modifyWriter, hw]
      exact hactive.setWriter hw (fun _ => htidy.inRow rfl rfl rfl hclosed) rfl rfl
        fun _ => .inl ⟨hwaiting, hidle⟩
    · simp only [enter, modifyWriter, hw]
      obtain ⟨hi, -⟩ := List.getElem?_eq_some_iff.1 hw
      exact ⟨hdone, hsealed, ⟨hwaiting, hidle⟩, getElem?_set_self hi, rfl, hclosed⟩

theorem Inv.append (h : Inv cfg s) (hwaiting : s.waiting = none) (i : ℕ) (v : Value) (take : Bool) :
    Inv cfg (s.append cfg i v take) := by
  unfold State.append
  rcases h.beforeWrite hwaiting i take with ⟨s', heq, h'⟩ | ⟨s', w, heq, h', hwriting⟩
  · rw [heq]
    exact h'
  · rw [heq]
    simp only [State.modifyWriter, hwriting.writer]
    refine h'.setWriter hwriting.writer (fun hdone => ?_) rfl (by simp) fun _ => .inl hwriting.idle
    exact ((h'.shape hdone).tidy w (mem_of_getElem? hwriting.writer)).inRow hwriting.inRow rfl rfl
      hwriting.closed

/-- A control covers its domain until a row is ended. -/
theorem Covered.append {d : DomainKey} {p : Position} (h : Covered epoch d p)
    (hfact : fact.endedRow = none) : Covered (epoch ++ [fact]) d p := by
  obtain ⟨c, before, after, rfl, hd, hp, hsafe, hended⟩ := h
  refine ⟨c, before, after ++ [fact], by simp, hd, hp, hsafe, ?_⟩
  simp only [endedRows, filterMap_append] at hended ⊢
  simp [hended, hfact]

/-- A fact that is not of a batch or a control is recorded; a row is not recorded while a domain is
covered. -/
theorem Shape.record (h : Shape cfg s) (fact : Fact) (href : fact.ref = none)
    (happlied : fact.appliedBatch = none) (hcontrol : fact.control = none)
    (hended : fact.endedRow = none ∨ s.completed = ∅ ∧ s.touched = true) :
    Shape cfg (s.record fact) := by
  have hsince : since (s.record fact).log = since s.log ++ [fact] := since_append href
  have hbatches : appliedBatches (since (s.record fact).log) = appliedBatches (since s.log) :=
    appliedBatches_since href happlied
  have htransactions : openTransactions (since (s.record fact).log) = openTransactions (since s.log) :=
    openTransactions_since href hcontrol
  refine ⟨h.tidy, h.routed, h.stamped, h.numbered, h.queued, h.quiet, ?_, ?_, ?_, fun d p hd => ?_,
    h.sealed, fun htouched => ?_⟩
  · rw [hbatches]
    exact h.receipts
  · rw [hbatches]
    exact h.totals
  · rw [htransactions]
    exact h.transactions
  · rw [hsince]
    rcases hended with hnone | ⟨hcompleted, -⟩
    · exact (h.covered d p hd).append hnone
    · have hd' : s.completed.lookup d = some p := hd
      rw [hcompleted] at hd'
      exact absurd hd' nofun
  · rcases hended with hnone | ⟨-, htouched'⟩
    · obtain ⟨hrows, htransactions⟩ := h.untouched htouched
      exact ⟨(endedRows_append hnone).trans hrows, htransactions⟩
    · exact Bool.noConfusion (htouched'.symm.trans htouched)

theorem Basis.record (h : Basis cfg s) (fact : Fact) (href : fact.ref = none)
    (hsealed : ∀ proof, fact ≠ .sealed proof) (hfact : Warranted cfg s.log fact) :
    Basis cfg (s.record fact) := by
  refine ⟨h.stopped, h.epoch.trans (lastBound_append href).symm, ?_, justified_append h.justified hfact⟩
  have hsince : since (s.record fact).log = since s.log ++ [fact] := since_append href
  rw [hsince]
  refine h.sealed.trans ⟨fun ⟨proof, hmem⟩ => ⟨proof, mem_append_left _ hmem⟩, ?_⟩
  rintro ⟨proof, hmem⟩
  rcases mem_append.1 hmem with hold | hlast
  · exact ⟨proof, hold⟩
  · exact absurd (mem_singleton.1 hlast).symm (hsealed proof)

/-- An ended row is in its builder. -/
theorem Inv.endedRow (h : Inv cfg s) (hwriting : s.Writing i w) {row : Row} (w' : StreamWriter)
    (hinRow : w'.inRow = true) (hclosed : w'.closed = w.closed) (hlisted : w'.listed = w.listed)
    (hresource : w'.resource = w.resource) (hrows : w'.builder.rows = w.builder.rows ++ [row])
    (hcells : w'.builder.cells = []) (hshifts : Shifts cfg (s.setWriter i w') s₁) :
    Inv cfg ((s₁.modifyWriter i fun w => { w with inRow := false }).record (.ended w.resource row)) := by
  obtain ⟨hi, -⟩ := List.getElem?_eq_some_iff.1 hwriting.writer
  have hshape := h.shape hwriting.live
  have htidy := hshape.tidy w (mem_of_getElem? hwriting.writer)
  have hw' : (s.setWriter i w').writers[i]? = some w' := getElem?_set_self hi
  have hshape₁ : Shape cfg s₁ := hshifts.shape
    (hshape.setWriter hwriting.writer (htidy.inRow hinRow hclosed hlisted hwriting.closed)
      (.inl hwriting.idle)) hwriting.idle.1
  obtain ⟨w₁, hw₁, hd⟩ := hshifts.writers.getElem?_left hw'
  have hheld := hshifts.held
  obtain ⟨writers, transformCh, batchCh, rfl⟩ := hshifts.eq
  have hopen : w₁.closed = false := hd.closed.trans (hclosed.trans hwriting.closed)
  have htidy₁ : StreamWriter.Tidy { w₁ with inRow := false } :=
    ⟨fun _ => hd.cells.trans hcells, fun hc => Bool.noConfusion (hopen.symm.trans hc),
      fun hl => (hshape₁.tidy w₁ (mem_of_getElem? hw₁)).unlisted hl⟩
  have hidle : s.completed.keys = [] ∧ s.touched = true := by
    have := hwriting.idle.2
    simpa [State.Idle, hwriting.unsealed] using this
  simp only [State.modifyWriter, hw₁]
  refine ⟨?_, fun _ => ?_, fun _ x => ?_⟩
  · have hbasis := h.basis.record (.ended w.resource row) rfl (fun _ => Fact.noConfusion)
      fun proof hmem => Bool.noConfusion
        (hwriting.unsealed.symm.trans (h.basis.sealed.2 ⟨proof, hmem⟩))
    exact { hbasis with }
  · exact (hshape₁.setWriter hw₁ htidy₁ (.inl hwriting.idle)).record
      (.ended w.resource row) rfl rfl rfl (.inr ⟨AList.keys_eq_nil.1 hidle.1, hidle.2⟩)
  · have haccount := h.account hwriting.live x
    have hsum := sum_map_set (f := tally x) (b := w') hwriting.writer
    have hsum₁ := sum_map_set (f := tally x) (b := { w₁ with inRow := false }) hw₁
    have hx := hheld x
    have htally : w'.tally x = w.tally x + [(w.resource, row)].count x := by
      simp [tally, hrows, hresource, map_append, count_append]
    have htally₁ : tally x { w₁ with inRow := false } = w₁.tally x := rfl
    have hended : (endedRows (since (s.log ++ [.ended w.resource row]))).count x =
        (endedRows (since s.log)).count x + [(w.resource, row)].count x := by
      rw [since_append rfl]
      simp [endedRows, filterMap_append, Fact.endedRow, count_append]
    have happlied : appliedTally (s.log ++ [.ended w.resource row]) x = appliedTally s.log x :=
      appliedTally_append rfl rfl
    simp only [State.record, State.held, State.setWriter, State.line, hended, happlied]
      at haccount hx hsum hsum₁ ⊢
    omega

theorem Inv.endRow (h : Inv cfg s) (hwaiting : s.waiting = none) (i : ℕ) (info : Meta) (take : Bool) :
    Inv cfg (s.endRow cfg i info take).1 := by
  unfold State.endRow
  rcases h.beforeWrite hwaiting i take with ⟨s', heq, h'⟩ | ⟨s', w, heq, h', hwriting⟩
  · rw [heq]
    exact h'
  obtain ⟨hi, -⟩ := List.getElem?_eq_some_iff.1 hwriting.writer
  rw [heq]
  simp only [hwriting.writer]
  set full := w.builder.appends (cfg.audit.elim [] fun a => a.cells info) with hfull
  set w' : StreamWriter := { w with builder := (full.endRow info).1 } with hw'
  have hspares : Spares s' (s'.setWriter i w') := ⟨rfl, rfl, rfl⟩
  split
  · exact h'.fails (hspares.fail _)
  · next hok =>
    obtain ⟨hrows, hcells⟩ := Builder.endRow_of_ok hok
    have hrows' : w'.builder.rows = w.builder.rows ++ [⟨full.cells, info⟩] := by
      rw [hw', hrows, hfull, Builder.appends_rows]
    have hget : (s'.setWriter i w').writers[i]? = some w' := getElem?_set_self hi
    split_ifs with hdue
    · rcases handOver_spec cfg take hget with ⟨s'', hhand, hshifts, -⟩ | ⟨s'', e, hhand, hspares'⟩
      · rw [hhand]
        exact h'.endedRow hwriting w' hwriting.inRow rfl rfl rfl hrows' hcells hshifts
      · rw [hhand]
        have hs'' : Spares s' s'' := { hspares' with }
        exact h'.fails (hs''.fail e)
    · exact h'.endedRow hwriting w' hwriting.inRow rfl rfl rfl hrows' hcells (.refl cfg _)

/-! ### Opening, flushing and closing writers -/

theorem StreamWriter.Still.close (h : w.Still) :
    StreamWriter.Still { w with closed := true, builder := w.builder.close } := by
  unfold Builder.close
  split_ifs
  · exact { h with }
  · exact ⟨rfl, rfl, h.inRow⟩

theorem StreamWriter.Still.tidy (h : w.Still) (hclosed : w.closed = true) : w.Tidy :=
  ⟨fun _ => h.cells, fun _ => h, fun _ => hclosed⟩

theorem Inv.openBuilder (h : Inv cfg s) (resource : String) (model : Schema) :
    Inv cfg (s.openBuilder cfg resource model).1 := by
  unfold State.openBuilder
  split
  · exact h
  split_ifs
  · exact h
  split
  · exact h
  set v : StreamWriter :=
    { resource := resource, model := model, builder := { schema := cfg.arrow model } } with hv
  have hstill : v.Still := ⟨rfl, rfl, rfl⟩
  refine h.rewrite (fun hdone => (h.shape hdone).rewrite (fun w hw => ?_) (.inr fun hs w hw => ?_))
    fun _ x => by simp [hstill.tally x]
  · rcases mem_concat.1 hw with hold | rfl
    · exact (h.shape hdone).tidy w hold
    · exact ⟨fun _ => rfl, nofun, nofun⟩
  · rcases mem_append.1 hw with hold | hlast
    · exact hs w hold
    · exact mem_singleton.1 hlast ▸ hstill

theorem Inv.setMessageSchema (h : Inv cfg s) (resource : String) (layout : MessageLayout) :
    Inv cfg (s.setMessageSchema resource layout) :=
  h.aside s.closed s.cancelled s.epochWritten s.active _

section

variable (h : Inv cfg s) (hwaiting : s.waiting = none)
include h hwaiting

theorem Inv.flushWriter (hw : s.writers[i]? = some w) (take : Bool) :
    Inv cfg (s.flushWriter cfg i w take).1 := by
  rcases flushWriter_spec cfg take h.basis.stopped hw with ⟨s', heq, hshifts, -⟩ | ⟨s', e, heq, hfails⟩
  · rw [heq]
    exact h.shifts hshifts hwaiting
  · rw [heq]
    exact h.fails hfails

/-- `streamWriter.Close` leaves a closed writer, or the pipeline has failed. -/
theorem Inv.closeWriter (hw : s.writers[i]? = some w) (take : Bool) :
    Inv cfg (s.closeWriter cfg i take).1 ∧
      ((s.closeWriter cfg i take).2 = none → (s.closeWriter cfg i take).1.waiting = none ∧
        ∃ w', (s.closeWriter cfg i take).1.writers[i]? = some w' ∧ w'.closed = true) := by
  unfold State.closeWriter
  simp only [hw]
  split_ifs with hclosed
  · exact ⟨h, fun _ => ⟨hwaiting, w, hw, hclosed⟩⟩
  rcases flushWriter_spec cfg take h.basis.stopped hw with ⟨s', heq, hshifts, -, w', hw', hd, hstill⟩ |
    ⟨s', e, heq, hfails⟩
  · have hwaiting' : s'.waiting = none := (congrArg State.waiting hshifts.same : _).trans hwaiting
    obtain ⟨hi, -⟩ := List.getElem?_eq_some_iff.1 hw'
    have h' := (h.shifts hshifts hwaiting).aside s'.closed s'.cancelled s'.epochWritten
      (s'.active.filter (· ≠ i)) s'.messageSchemas
    have hrows : w'.builder.close.rows = w'.builder.rows := hstill.close.rows.trans hstill.rows.symm
    simp only [heq, State.modifyWriter, hw']
    refine ⟨?_, fun _ => ⟨hwaiting', _, getElem?_set_self hi, rfl⟩⟩
    exact h'.setWriter hw' (fun _ => hstill.close.tidy rfl) rfl hrows fun _ => .inr fun _ => hstill.close
  · rw [heq]
    refine ⟨h.fails ?_, fun hnone => absurd hnone (some_ne_none e)⟩
    unfold State.modifyWriter
    split <;> exact { hfails with }

/-- The builder of a message source is opened, kept, or replaced. -/
theorem Inv.messageBuilder (resource : String) (model : Schema) (layout : MessageLayout)
    (take : Bool) :
    Inv cfg (s.messageBuilder cfg resource model layout take).1 := by
  unfold State.messageBuilder
  split
  · exact h
  split_ifs
  · exact h
  split
  · exact h
  split
  · have hopen := h.openBuilder resource model
    split <;> next heq => rw [heq] at hopen; first | exact hopen | exact hopen.setMessageSchema ..
  · next i _ =>
    cases hw : s.writers[i]? with
    | none => exact h
    | some w =>
      simp only
      split_ifs
      · exact h.setMessageSchema resource layout
      obtain ⟨hclose, hclosed⟩ := h.closeWriter hwaiting hw take
      split
      · next heq =>
        rw [heq] at hclose
        exact hclose
      · next s' heq =>
        rw [heq] at hclose hclosed
        obtain ⟨-, w', hw', hc⟩ := hclosed rfl
        have hunlisted : Inv cfg (s'.modifyWriter i fun w => { w with listed := false }) := by
          simp only [State.modifyWriter, hw']
          refine hclose.setWriter hw' (fun hdone => ?_) rfl rfl fun _ => .inr fun hs => ⟨hs.1, hs.2, hs.3⟩
          have hstill := ((hclose.shape hdone).tidy w' (mem_of_getElem? hw')).closed hc
          exact StreamWriter.Still.tidy { hstill with } hc
        have hopen := hunlisted.openBuilder resource model
        split <;> next heq => rw [heq] at hopen; first | exact hopen | exact hopen.setMessageSchema ..

end

/-! ### Barriers -/

theorem still_of_stillAt (htidy : ∀ w ∈ s.writers, w.Tidy)
    (h : StillAt s (List.range s.writers.length)) : ∀ w ∈ s.writers, w.Still := by
  intro w hw
  obtain ⟨i, hi⟩ := mem_iff_getElem?.mp hw
  have hlt := (List.getElem?_eq_some_iff.1 hi).1
  by_cases hclosed : w.closed = true
  · exact (htidy w hw).closed hclosed
  have hlisted : w.listed = true := by
    by_contra hnot
    exact hclosed ((htidy w hw).unlisted (by simpa using hnot))
  exact h i (mem_range.2 hlt) w hi hlisted (by simpa using hclosed)

theorem Shape.received (h : Shape cfg s) (hwaiting : s.waiting = some (c, seq))
    (hseq : seq ∈ s.receipts) : s.Quiet ∧ s.sealed = false ∧ s.touched = true := by
  have hq := h.queued
  rw [State.Queued, hwaiting] at hq
  obtain ⟨hstill, ⟨hsealed, htouched, -⟩, hline | hline⟩ := hq
  · exact ⟨⟨hline.2, hstill⟩, hsealed, htouched⟩
  · exact absurd hseq hline.1

theorem Inv.received (h : Inv cfg s) (hwaiting : s.waiting = some (c, seq))
    (hseq : seq ∈ s.receipts) : Inv cfg { s with waiting := none } where
  basis := { h.basis with }
  shape hdone := by
    have hs := h.shape hdone
    obtain ⟨hquiet, -, -⟩ := hs.received hwaiting hseq
    refine { hs with queued := ?_, quiet := fun _ _ => hquiet }
    intro item hitem
    have hitem' : item ∈ s.line := hitem
    rw [hquiet.1] at hitem'
    simp at hitem'
  account := h.account

section

variable (h : Inv cfg s) (hwaiting : s.waiting = none)
include h hwaiting

theorem Inv.touch : Inv cfg { s with touched := true } where
  basis := { h.basis with }
  shape hdone := by
    have hs := h.shape hdone
    refine { hs with
        queued := hs.queued.of_line hwaiting hwaiting, quiet := fun _ hidle => ?_
        untouched := nofun }
    rcases hidle with hkeys | hsealed | htouched
    · exact hs.quiet hwaiting (.inl hkeys)
    · exact hs.quiet hwaiting (.inr (.inl hsealed))
    · exact Bool.noConfusion htouched
  account := h.account

/-- A control is queued behind everything, from builders that hold nothing. -/
theorem Inv.queue (hsealed : s.sealed = false) (htouched : s.touched = true)
    (hstill : s.done = false → ∀ w ∈ s.writers, w.Still) (c : Control)
    {batchCh transformCh : List Item}
    (hline : s.done = false → batchCh ++ transformCh = s.line ++ [.control c (s.sequence + 1)])
    (hrouted : s.done = false → cfg.transform = none → transformCh = []) :
    Inv cfg { s with
      sequence := s.sequence + 1, batchCh := batchCh, transformCh := transformCh
      waiting := some (c, s.sequence + 1) } where
  basis := { h.basis with }
  shape hdone := by
    have hs := h.shape hdone
    have hqueued := (queued_of_none hwaiting).1 hs.queued
    refine { hs with
        routed := hrouted hdone, stamped := fun b epoch hb => ?_
        numbered := fun n hn => (hs.numbered n hn).trans (Nat.le_succ _)
        queued := ⟨hstill hdone, ⟨hsealed, htouched, rfl⟩, .inr ⟨fun hmem => ?_, s.line, hline hdone, hqueued⟩⟩
        quiet := fun hnone => absurd hnone (some_ne_none _) }
    · have hb' : .batch b epoch ∈ batchCh ++ transformCh := hb
      rw [hline hdone] at hb'
      rcases mem_append.1 hb' with hold | hlast
      · exact hs.stamped b epoch hold
      · exact Item.noConfusion (mem_singleton.1 hlast)
    · exact Nat.not_succ_le_self _ (hs.numbered _ hmem)
  account hdone x := by
    have haccount := h.account hdone x
    have hl := congrArg (fun l => (l.map (Item.tally x)).sum) (hline hdone)
    simp only [held, line, map_append, sum_append, map_cons, map_nil,
      sum_cons, sum_nil, Item.tally] at haccount hl ⊢
    omega

theorem Inv.barrier (c : Control) (context : Option String) (take : Bool) :
    Inv cfg (s.barrier cfg c context take).1 := by
  have htouch := h.touch hwaiting
  have hfail : ∀ s' e, Spares s s' → Inv cfg (s'.fail e).1 := fun s' e hs => h.fails (hs.fail e)
  unfold State.barrier
  split_ifs with hsealed
  · exact h
  simp only
  split
  · exact htouch
  split
  · exact hfail _ _ ⟨rfl, rfl, rfl⟩
  split
  · exact hfail _ _ ⟨rfl, rfl, rfl⟩
  rcases flush_spec cfg take (range s.writers.length) htouch.basis.stopped with
    ⟨s', heq, hshifts, hstill⟩ | ⟨s', e, heq, hfails⟩
  · rw [heq]
    have h' : Inv cfg s' := htouch.shifts hshifts hwaiting
    have hall : s'.done = false → ∀ w ∈ s'.writers, w.Still := fun hdone =>
      still_of_stillAt (h'.shape hdone).tidy (by rwa [← hshifts.writers.length_eq])
    have hwaiting' : s'.waiting = none := (congrArg State.waiting hshifts.same : _).trans hwaiting
    have hsealed' : s'.sealed = false :=
      (congrArg State.sealed hshifts.same : _).trans (by simpa using hsealed)
    have htouched' : s'.touched = true := (congrArg State.touched hshifts.same : _)
    simp only
    rcases send_cases { s' with sequence := s'.sequence + 1 } cfg.transform.isSome take
      (.control c (s'.sequence + 1)) with ⟨hdone, e, hsend⟩ | ⟨htransform, hsend⟩ | ⟨htransform, hsend⟩
    · rw [hsend]
      exact h'.fails ⟨hdone, rfl, rfl, rfl⟩
    · rw [hsend]
      refine h'.queue hwaiting' hsealed' htouched' hall c (fun _ => ?_) fun _ hnone => ?_
      · simp [State.line]
      · simp [hnone] at htransform
    · rw [hsend]
      have hnone : cfg.transform = none := by simpa using htransform
      refine h'.queue hwaiting' hsealed' htouched' hall c (fun hdone => ?_) fun hdone _ => ?_
      · simp [State.line, (h'.shape hdone).routed hnone]
      · exact (h'.shape hdone).routed hnone
  · rw [heq]
    exact hfail s' e { hfails with }

/-- A control is accepted in a quiet pipeline. -/
theorem Inv.accept (hquiet : s.Quiet) (hsealed : s.sealed = false) (htouched : s.touched = true)
    (c : Control) (completed : AList fun _ : DomainKey => Position)
    (hcompleted : ∀ d p, completed.lookup d = some p → s.completed.lookup d = some p ∨
      (c.domain = d ∧ c.position = p ∧ (c.kind = .txnEnd ∨ c.kind = .progressBoundary) ∧
        acceptControl s.transactions c = ∅)) :
    Inv cfg ({ s with
      transactions := acceptControl s.transactions c, completed := completed }.record (.accepted c)) := by
  have hbasis := h.basis.record (.accepted c) rfl (fun _ => Fact.noConfusion) trivial
  have hsince : since (s.log ++ [.accepted c]) = since s.log ++ [.accepted c] := since_append rfl
  have hbatches : appliedBatches (since (s.log ++ [.accepted c])) = appliedBatches (since s.log) :=
    appliedBatches_since rfl rfl
  refine ⟨{ hbasis with }, fun hdone => ?_,
    fun hdone => Account.record (s := { s with
      transactions := acceptControl s.transactions c, completed := completed })
      (h.account hdone) rfl rfl rfl⟩
  · have hs := h.shape hdone
    have htransactions : acceptControl s.transactions c =
        openTransactions (since s.log ++ [.accepted c]) := by
      rw [hs.transactions]
      simp [openTransactions, filterMap_append, foldl_append, Fact.control]
    refine { hs with
        queued := hs.queued.of_line hwaiting hwaiting, quiet := fun _ _ => hquiet
        receipts := hbatches ▸ hs.receipts, totals := hbatches ▸ hs.totals
        transactions := htransactions.trans (congrArg openTransactions hsince).symm
        covered := fun d p hd => ?_
        sealed := fun hseal => Bool.noConfusion (hsealed.symm.trans hseal)
        untouched := fun hun => Bool.noConfusion (htouched.symm.trans hun) }
    change Covered (since (s.log ++ [.accepted c])) d p
    rw [hsince]
    rcases hcompleted d p hd with hold | ⟨hdomain, hposition, hkind, hempty⟩
    · exact (hs.covered d p hold).append rfl
    · exact ⟨c, since s.log, [], rfl, hdomain, hposition, ⟨hkind, htransactions ▸ hempty⟩, rfl⟩

end

theorem Inv.receive (h : Inv cfg s) (context : Option String) (seesDone : Bool) :
    Inv cfg (s.receive context seesDone).1 := by
  unfold State.receive
  cases hwaiting : s.waiting with
  | none => exact h
  | some pending =>
    obtain ⟨c, seq⟩ := pending
    simp only
    by_cases hseq : seq ∈ s.receipts ∧ ¬ (s.done ∧ seesDone)
    · rw [if_pos hseq]
      have hreceived := h.received hwaiting hseq.1
      split
      · exact hreceived.fails (Spares.fail ⟨rfl, rfl, rfl⟩ _)
      split
      · exact hreceived
      · next hready =>
        obtain ⟨-, -, hlive⟩ := ready_eq_none hready
        obtain ⟨hquiet, hsealed, htouched⟩ := (h.shape hlive).received hwaiting hseq.1
        split_ifs with hcovers
        · obtain ⟨-, hempty, hkind⟩ := hcovers
          refine hreceived.accept rfl hquiet hsealed htouched c
            (s.completed.insert c.domain c.position) fun d p hd => ?_
          by_cases hdomain : d = c.domain
          · obtain rfl := hdomain
            rw [AList.lookup_insert] at hd
            exact .inr ⟨rfl, Option.some.inj hd, hkind, AList.keys_eq_nil.1 hempty⟩
          · rw [AList.lookup_insert_ne hdomain] at hd
            exact .inl hd
        · exact hreceived.accept rfl hquiet hsealed htouched c s.completed fun d p hd => .inl hd
    · rw [if_neg hseq]
      split_ifs with hdone
      · exact h.fails ⟨hdone, rfl, rfl, rfl⟩
      · exact h

end Filament.Pipeline
