import Filament.Lib.Trace
import Filament.Tracker.Agreement

/-!
# Restarts of the tracker

A restart empties the memory. The cursors that were accumulated and not yet persisted are lost with
it; what the store still holds is loaded again by the next batch. The run with restarts is compared
with the same facts and no restart.

* `Resumes`, `Recoverable` : at every restart, what is lost of a resource is made up for by its next
  batch or its completion;
* `Sim`, `run_sim` : the two runs keep the same store;
* `restarts_transparent` : under that condition the store ends up the same, and holds the last cursor
  of every resource.
-/

namespace Filament.Tracker

open Checkpoint List AList Function

variable (unmarshal : String → Option (List String)) {s s' : Store} (tenant : TenantID)
  (run : RunID) (request : RunRequest) {held : CkKey → Bool} {m m' n n' : Module} {f : Fact}
  {r : RunState} {o : Option CheckpointData} {seq : ℕ} {as : List Step}

/-- A step of one incremental or change-stream run: a restart, or a fact of the run whose resource is
read that way and whose cursor is the resource's. -/
def OfRun : Step → Prop
  | .restart => True
  | .deliver ⟨none, _⟩ _ => False
  | .deliver ⟨some f, _⟩ fails =>
    fails = noFailure ∧ f.env.tenant = tenant ∧ f.env.run = run ∧
      (∀ d ∈ f.data.cursor, d.resourceName = f.env.resource) ∧
      (f.data.movesCursor = true → request.crossRun f.env.resource = true)

/-- The message is not a redelivery: its sequence is past the run's mark. -/
def Fresh (w : World) : Step → Prop
  | .restart => True
  | .deliver msg _ => ∀ last ∈ w.store.marks (tenant, run), last < msg.seq

/-- The next fact about the resource's cursor, before the run ends, makes the same of the stored cursor
as of the accumulated one. -/
def Resumes (stored acc : Option CheckpointData) (resource : String) : List Step → Prop
  | [] => True
  | .deliver ⟨some f, _⟩ _ :: as =>
    if f.data.terminal then False
    else if f.data.movesCursor = true ∧ f.env.resource = resource then
      ∃ merged, f.data.makes unmarshal stored = some merged ∧
        f.data.makes unmarshal acc = some merged
    else Resumes stored acc resource as
  | _ :: as => Resumes stored acc resource as

/-- What a restart loses of a resource is made up for: no acks of a bitmap shard are counted, and an
accumulated cursor is resumed. -/
def Recovers (w : World) (resource : String) (as : List Step) : Prop :=
  w.mem.bm ⟨run, resource⟩ = none ∧ ∀ acc, w.mem.cp.lookup ⟨run, resource⟩ = some acc →
    Resumes unmarshal (loadCheckpoint noFailure w.store tenant run resource) acc resource as

/-- Every restart finds a memory whose loss is made up for. -/
def Recoverable : World → List Step → Prop
  | _, [] => True
  | w, .restart :: as =>
    (∀ resource, Recovers unmarshal tenant run w resource as) ∧
      Recoverable (step unmarshal w .restart) as
  | w, a :: as => Recoverable (step unmarshal w a) as

/-- The step is not a restart. -/
def Step.delivers : Step → Bool
  | .deliver _ _ => true
  | .restart => false

/-! ### The simulation -/

variable {unmarshal tenant run request} {resource x : String} {stored acc : Option CheckpointData}
  {fails : Call → Bool}

/-- The fact moves the cursor of the resource. -/
def Touches (f : Fact) (resource : String) : Prop :=
  f.data.movesCursor = true ∧ f.env.resource = resource

theorem resumes_of_makes {merged : CheckpointData} (hf : Touches f resource)
    (hstored : f.data.makes unmarshal stored = some merged)
    (hacc : f.data.makes unmarshal acc = some merged) :
    Resumes unmarshal stored acc resource (.deliver ⟨some f, seq⟩ fails :: as) := by
  have hterm : f.data.terminal = false := by
    cases hd : f.data <;> simp_all [Data.makes, Data.terminal]
  unfold Touches at hf
  unfold Resumes
  rw [hterm, if_neg Bool.false_ne_true, if_pos hf]
  exact ⟨merged, hstored, hacc⟩

/-- For a change stream: a batch follows whose sequence number is not below the stored nor below the
accumulated one. -/
theorem resumes_of_stream {d : CheckpointData} {p : String × ℕ} (hf : Touches f resource)
    (hd : f.data.batchCursor = some d) (hdelta : decodeDelta d = .stream p.1 p.2)
    (hstored : ∀ q ∈ parseStream stored, q.2 ≤ p.2) (hacc : ∀ q ∈ parseStream acc, q.2 ≤ p.2) :
    Resumes unmarshal stored acc resource (.deliver ⟨some f, seq⟩ fails :: as) := by
  have hmakes : ∀ base, (∀ q ∈ parseStream base, q.2 ≤ p.2) →
      f.data.makes unmarshal base = some (newStreamDelta d.resourceName p.1 p.2) := by
    intro base hle
    obtain ⟨env, data⟩ := f
    cases data with
    | batchWritten records bytes cp policy =>
      obtain rfl : cp = some d := hd
      simp [Data.makes, mergeDelta, hdelta,
        mergeStream_moved (parseStream_of_decodeDelta hdelta) hle]
    | _ => cases hd
  exact resumes_of_makes hf (hmakes stored hstored) (hmakes acc hacc)

/-- For a backfill, each of whose batches is stored: the resource completes. -/
theorem resumes_of_completed {records bytes : ℤ} {promoted : CheckpointData}
    (hf : f.data = .resourceCompleted records bytes) (hresource : f.env.resource = resource)
    (hstored : stored = acc) (hpromoted : promoteIncrementalBackfill unmarshal acc = some promoted) :
    Resumes unmarshal stored acc resource (.deliver ⟨some f, seq⟩ fails :: as) := by
  subst hstored
  have hmakes : f.data.makes unmarshal stored = some promoted := by rw [hf]; exact hpromoted
  exact resumes_of_makes ⟨by rw [hf]; rfl, hresource⟩ hmakes hmakes

section

variable (h : Resumes unmarshal stored acc resource (.deliver ⟨some f, seq⟩ fails :: as))
include h

theorem Resumes.untouched (hf : ¬ Touches f resource) :
    f.data.terminal = false ∧ Resumes unmarshal stored acc resource as := by
  unfold Resumes at h
  split_ifs at h with hterm htouch
  · exact absurd htouch hf
  · exact ⟨Bool.eq_false_iff.2 hterm, h⟩

theorem Resumes.touched (hf : Touches f resource) :
    ∃ merged, f.data.makes unmarshal stored = some merged ∧
      f.data.makes unmarshal acc = some merged := by
  unfold Resumes at h
  split_ifs at h with hterm htouch
  · exact h
  · exact absurd hf htouch

end

section

variable (unmarshal tenant run request)

/-- Two trackers over one store, which differ by lost entries of the run. -/
structure Paired (held : CkKey → Bool) (s : Store) (m m' : Module) : Prop where
  agree : Agree run held m m'
  known : ∃ r, r.request = request ∧ Holds tenant run ⟨s, m⟩ r ∧ Holds tenant run ⟨s, m'⟩ r
  named : Named request run m'

/-- Two trackers over one store, before the steps `as`, which make up for the lost entries. -/
structure Sim (as : List Step) (held : CkKey → Bool) (s : Store) (m m' : Module) : Prop
    extends Paired tenant run request held s m m' where
  owed : ∀ x, held ⟨run, x⟩ = false → ∃ acc, m'.cp.lookup ⟨run, x⟩ = some acc ∧
    Resumes unmarshal (loadCheckpoint noFailure s tenant run x) acc x as

/-- Two trackers with the same store, which the steps `as` bring together. -/
def Alike (as : List Step) (w w' : World) : Prop :=
  w'.store = w.store ∧ ∃ held, Sim unmarshal tenant run request as held w.store w.mem w'.mem

end

theorem rowFolded_row (hrow : Row s f.env.tenant f.env.run r) :
    ∃ r', r'.request = r.request ∧ Row (rowFolded f s r) f.env.tenant f.env.run r' := by
  unfold rowFolded
  split_ifs
  · refine ⟨(update f.env f.data r).upsert (some r), update_request ..,
      Store.setRun_runs_self .., ?_, ?_⟩
    · exact (update_run _ _ r).trans hrow.run
    · exact (update_tenant _ _ r).trans hrow.tenant
  · exact ⟨r, rfl, hrow⟩

theorem rowFolded_frame :
    (rowFolded f s r).checkpoints = s.checkpoints ∧
      (rowFolded f s r).resourceCheckpoints = s.resourceCheckpoints := by
  unfold rowFolded
  split_ifs <;> exact ⟨rfl, rfl⟩

/-- What a fact leaves of a resource it does not touch. -/
theorem untouched_frame (hnamed : Named request run m) (hf : FactOf run request f)
    (hx : ¬ Touches f x) :
    (handOn unmarshal f s m).2.cp.lookup ⟨run, x⟩ = m.cp.lookup ⟨run, x⟩ ∧
      (persistHanded (handOn unmarshal f s m).2 s f.env (handOn unmarshal f s m).1).checkpoints
        (run, x) = s.checkpoints (run, x) := by
  cases hmoves : f.data.movesCursor with
  | false =>
    obtain ⟨hnone, hcp⟩ := @handOn_of_not_moves unmarshal s m f hmoves
    rw [hnone, hcp]
    exact ⟨rfl, rfl⟩
  | true =>
    have hne : x ≠ f.env.resource := fun heq => hx ⟨hmoves, heq.symm⟩
    refine ⟨handOn_frame.2 _ fun hkey => hne (congrArg CkKey.resource hkey), ?_⟩
    have hnames := (@handOn_named unmarshal s run request m f hnamed hf).1
    rw [← hf.run]
    exact persistHanded_other (fun cp hcp => (hnames cp hcp).1) hne

/-- Both trackers after a fact: an entry that is still lost is one the fact does not touch. -/
theorem handOn_sim
    (hsim : Sim unmarshal f.env.tenant f.env.run request (.deliver ⟨some f, seq⟩ fails :: as) held s
      m m')
    (hload : ∀ x, loadCheckpoint noFailure s' f.env.tenant f.env.run x =
      loadCheckpoint noFailure s f.env.tenant f.env.run x) :
    ∃ held', Agree f.env.run held' (handOn unmarshal f s' m).2 (handOn unmarshal f s' m').2 ∧
      Handed (handOn unmarshal f s' m).1 (handOn unmarshal f s' m').1 ∧
      ∀ x, held' ⟨f.env.run, x⟩ = false → held ⟨f.env.run, x⟩ = false ∧ ¬ Touches f x := by
  by_cases hlost : f.data.movesCursor = true ∧ held f.env.key = false
  · obtain ⟨hmoves, hk⟩ := hlost
    obtain ⟨acc, hacc, hresumes⟩ := hsim.owed f.env.resource hk
    obtain ⟨merged, hstored, hmerged⟩ := hresumes.touched ⟨hmoves, rfl⟩
    rw [← hload] at hstored
    obtain ⟨hag, hand⟩ := @handOn_resume unmarshal _ f.env.run held m m' f hsim.agree hk acc hacc
      merged hstored hmerged
    refine ⟨_, hag, hand, fun x hx => ?_⟩
    have hne : (⟨f.env.run, x⟩ : CkKey) ≠ f.env.key := by
      intro heq
      rw [heq, update_self] at hx
      cases hx
    rw [update_of_ne hne] at hx
    refine ⟨hx, fun htouch => hne ?_⟩
    rw [← htouch.2]
    rfl
  · obtain ⟨hag, hand⟩ := @handOn_agree unmarshal s' f.env.run held m m' f
      hsim.agree rfl fun hmoves => Bool.not_eq_false _ |>.mp fun hk => hlost ⟨hmoves, hk⟩
    refine ⟨held, hag, hand, fun x hx => ⟨hx, fun htouch => hlost ⟨htouch.1, ?_⟩⟩⟩
    rw [← htouch.2] at hx
    exact hx

theorem apply_sim
    (hsim : Sim unmarshal tenant run request (.deliver ⟨some f, seq⟩ fails :: as) held s m m')
    (htenant : f.env.tenant = tenant) (hf : FactOf run request f)
    (hterm : f.data.terminal = false) :
    Alike unmarshal tenant run request as (apply unmarshal noFailure f ⟨s, m⟩).1
      (apply unmarshal noFailure f ⟨s, m'⟩).1 := by
  obtain ⟨r, rfl, hm, hm'⟩ := hsim.known
  obtain rfl := hf.run
  subst htenant
  obtain ⟨r', hrequest, hrow⟩ := rowFolded_row hm.row
  have hload : ∀ x, loadCheckpoint noFailure (rowFolded f s r) f.env.tenant f.env.run x =
      loadCheckpoint noFailure s f.env.tenant f.env.run x := fun x =>
    loadCheckpoint_congr hm.row hrow hrequest (by rw [rowFolded_frame.1]) rowFolded_frame.2
  obtain ⟨held', hag, hand, hheld⟩ := @handOn_sim unmarshal s _ r.request held m m' f seq as fails
    hsim hload
  obtain ⟨hnames, -⟩ := @handOn_named unmarshal (rowFolded f s r) f.env.run r.request m f
    (hsim.agree.named hsim.named) hf
  obtain ⟨hnames', hnamed'⟩ := @handOn_named unmarshal (rowFolded f s r) f.env.run r.request m' f
    hsim.named hf
  have hcross : ∀ {o : Option CheckpointData}, (∀ cp ∈ o, cp.resourceName = f.env.resource ∧
      r.request.crossRun f.env.resource = true) →
      ∀ cp ∈ o, r'.request.crossRun cp.resourceName = true := by
    intro o ho cp hcp
    rw [hrequest, (ho cp hcp).1]
    exact (ho cp hcp).2
  have hstore := @persistHanded_eq _ f.env (handOn unmarshal f (rowFolded f s r) m).2
    (handOn unmarshal f (rowFolded f s r) m').2 r' _ _ hrow hand (hcross hnames) (hcross hnames')
  have hrow' := hrow.of_runs (@persistHanded_frame _ f.env
    (handOn unmarshal f (rowFolded f s r) m).2 (handOn unmarshal f (rowFolded f s r) m).1).1
  rw [apply_eq hm.row hterm, apply_eq hm'.row hterm]
  refine ⟨hstore.symm, held', ⟨hag, ⟨r', hrequest, ⟨hrow', ?_⟩, hrow', ?_⟩, hnamed'⟩, fun x hx => ?_⟩
  · rw [hrequest, handOn_frame.1]
    exact hm.mode
  · rw [hrequest, handOn_frame.1]
    exact hm'.mode
  · obtain ⟨hlost, huntouched⟩ := hheld x hx
    obtain ⟨acc, hacc, hresumes⟩ := hsim.owed x hlost
    refine ⟨acc, (untouched_frame hsim.named hf huntouched).1.trans hacc, ?_⟩
    rw [loadCheckpoint_congr hrow hrow' rfl
      (untouched_frame (hsim.agree.named hsim.named) hf huntouched).2 persistHanded_frame.2, hload]
    exact (hresumes.untouched huntouched).2

/-- The simulation only reads the cursors and the acks, the row, and the stored cursors. -/
theorem Sim.of_same (h : Sim unmarshal tenant run request as held s m m')
    (hknown : ∃ r, r.request = request ∧ Holds tenant run ⟨s', n⟩ r ∧ Holds tenant run ⟨s', n'⟩ r)
    (hcps : s'.checkpoints = s.checkpoints)
    (hres : s'.resourceCheckpoints = s.resourceCheckpoints) (hcp : n.cp = m.cp) (hbm : n.bm = m.bm)
    (hcp' : n'.cp = m'.cp) (hbm' : n'.bm = m'.bm) :
    Sim unmarshal tenant run request as held s' n n' := by
  refine ⟨⟨h.agree.of_same hcp hbm hcp' hbm', hknown, ?_⟩, fun x hx => ?_⟩
  · intro x cp hlook
    exact h.named x cp (by rw [← hcp']; exact hlook)
  · obtain ⟨r, hr, hm, -⟩ := h.known
    obtain ⟨r', hr', hn, -⟩ := hknown
    obtain ⟨acc, hacc, hresumes⟩ := h.owed x hx
    refine ⟨acc, by rw [hcp']; exact hacc, ?_⟩
    rw [loadCheckpoint_congr hm.row hn.row (hr'.trans hr.symm) (by rw [hcps]) hres]
    exact hresumes

section

variable (h : Sim unmarshal tenant run request (.deliver ⟨some f, seq⟩ fails :: as) held s m m')
include h

theorem Sim.skip (hf : ∀ x, ¬ Touches f x) : Sim unmarshal tenant run request as held s m m' := by
  refine { h with owed := fun x hx => ?_ }
  obtain ⟨acc, hacc, hresumes⟩ := h.owed x hx
  exact ⟨acc, hacc, (hresumes.untouched (hf x)).2⟩

theorem Sim.held_of_terminal (hterm : f.data.terminal = true) (x : String) :
    held ⟨run, x⟩ = true := by
  cases hx : held ⟨run, x⟩ with
  | true => rfl
  | false =>
    obtain ⟨acc, -, hresumes⟩ := h.owed x hx
    unfold Resumes at hresumes
    rw [if_pos hterm] at hresumes
    exact hresumes.elim

end

variable (unmarshal) in
theorem apply_terminal (hterm : f.data.terminal = true) :
    ∃ promote, ∀ w, apply unmarshal noFailure f w =
      terminal noFailure f.env promote (update f.env f.data) w := by
  obtain ⟨env, d⟩ := f
  cases d with
  | runCompleted records bytes => exact ⟨true, fun _ => rfl⟩
  | runPaused committed => exact ⟨committed, fun _ => rfl⟩
  | runFailed error | runPartial error | runCanceled => exact ⟨false, fun _ => rfl⟩
  | _ => cases hterm

theorem fold_terminal_sim
    (hsim : Sim unmarshal tenant run request (.deliver ⟨some f, seq⟩ fails :: as) held s m m')
    (htenant : f.env.tenant = tenant) (hrun : f.env.run = run) (hterm : f.data.terminal = true) :
    Alike unmarshal tenant run request as (fold unmarshal noFailure f seq ⟨s, m⟩).1
      (fold unmarshal noFailure f seq ⟨s, m'⟩).1 := by
  obtain ⟨r, rfl, hm, hm'⟩ := hsim.known
  have hheld := hsim.held_of_terminal hterm
  subst htenant hrun
  obtain ⟨promote, happly⟩ := apply_terminal unmarshal hterm
  obtain ⟨s₁, n, n', res, r', hn, hn', hag, hshrink, hshrink', hrow, hrequest⟩ :=
    terminal_agree hsim.agree hheld hm.row hsim.named promote f.data
  have hknown : ∀ {s₂ : Store}, s₂.runs = s₁.runs →
      Sim unmarshal f.env.tenant f.env.run r.request as held s₂ n n' := by
    intro s₂ hruns
    refine ⟨⟨hag, ⟨r', hrequest, ⟨hrow.of_runs hruns, ?_⟩, hrow.of_runs hruns, ?_⟩,
      hshrink'.named hsim.named⟩, fun x hx => ?_⟩
    · rw [hrequest]
      exact fun mode hmode => hm.mode mode (hshrink.modes _ _ hmode)
    · rw [hrequest]
      exact fun mode hmode => hm'.mode mode (hshrink'.modes _ _ hmode)
    · rw [hheld x] at hx
      cases hx
  unfold fold
  rw [if_pos hterm, if_pos hterm, happly, happly, hn, hn']
  cases res with
  | error e => exact ⟨rfl, held, hknown rfl⟩
  | ok u =>
    simp only [attempt_noFailure]
    cases hd : s₁.dedupSeen f.env.tenant f.env.run seq with
    | error e => exact ⟨rfl, held, hknown rfl⟩
    | ok seen => exact ⟨rfl, held, hknown (Store.dedupSeen_runs hd)⟩

variable (unmarshal) in
/-- One delivery, handled by both trackers. -/
theorem onFact_sim
    (hsim : Sim unmarshal tenant run request (.deliver ⟨some f, seq⟩ fails :: as) held s m m')
    (hbounded : request.options.execution.normalize ≠ .continuous)
    (htenant : f.env.tenant = tenant) (hf : FactOf run request f)
    (hfresh : ∀ last ∈ s.marks (tenant, run), last < seq) :
    Alike unmarshal tenant run request as (onFact unmarshal noFailure ⟨some f, seq⟩ ⟨s, m⟩).1
      (onFact unmarshal noFailure ⟨some f, seq⟩ ⟨s, m'⟩).1 := by
  by_cases hnotify : f.data = .notifierAttempted
  · simp only [onFact, hnotify, if_true]
    refine ⟨rfl, held, hsim.skip fun x htouch => ?_⟩
    rw [Touches, hnotify] at htouch
    cases htouch.1
  obtain ⟨r, rfl, hm, hm'⟩ := hsim.known
  obtain ⟨n, hn, hcp, hbm, heq⟩ := onFact_fold unmarshal seq htenant hf.run hbounded hm hnotify
  obtain ⟨n', hn', hcp', hbm', heq'⟩ := onFact_fold unmarshal seq htenant hf.run hbounded hm' hnotify
  rw [heq, heq']
  cases hterm : f.data.terminal with
  | true =>
    exact fold_terminal_sim (hsim.of_same ⟨r, rfl, hn, hn'⟩ rfl rfl hcp hbm hcp' hbm') htenant hf.run
      hterm
  | false =>
    rw [fold_fresh htenant hf.run hn.row hterm hfresh, fold_fresh htenant hf.run hn.row hterm hfresh]
    refine apply_sim (hsim.of_same ⟨r, rfl, hn.of_frame rfl rfl, hn'.of_frame rfl rfl⟩ rfl rfl hcp
      hbm hcp' hbm') htenant hf hterm

/-- A restart of the first tracker loses its entries. -/
theorem restart_sim (hsim : Sim unmarshal tenant run request (.restart :: as) held s m m')
    (hrecovers : ∀ x, Recovers unmarshal tenant run ⟨s, m⟩ x as) :
    ∃ held', Sim unmarshal tenant run request as held' s .new m' := by
  obtain ⟨r, hr, hm, hm'⟩ := hsim.known
  refine ⟨fun k => !(m'.cp.lookup k).isSome, ⟨⟨?_, fun x => ?_⟩, ⟨r, hr, ⟨hm.row, nofun⟩, hm'⟩,
    hsim.named⟩, fun x hx => ?_⟩
  · apply ext
    symm
    refine filter_eq_nil_iff.2 fun e he => ?_
    have hlook : m'.cp.lookup e.1 = some e.2 := mem_lookup_iff.2 he
    simp only [hlook, Option.isSome_some, Bool.not_true, Bool.false_eq_true, not_false_eq_true]
  · rw [← hsim.agree.bm, (hrecovers x).1]
    rfl
  · -- an entry is lost by this restart or by an earlier one
    cases hk : held ⟨run, x⟩ with
    | false =>
      obtain ⟨acc, hacc, hresumes⟩ := hsim.owed x hk
      exact ⟨acc, hacc, hresumes⟩
    | true =>
      cases hlook : m'.cp.lookup ⟨run, x⟩ with
      | none =>
        rw [hlook] at hx
        cases hx
      | some acc => exact ⟨acc, rfl, (hrecovers x).2 acc (by rw [← hlook]; exact hsim.agree.lookup hk)⟩

/-- Whole runs: the tracker with restarts and the one without end with the same store, and the
messages are as fresh for the second as for the first. -/
theorem run_sim (hbounded : request.options.execution.normalize ≠ .continuous) {w w' : World}
    (h : Alike unmarshal tenant run request as w w') (hof : ∀ a ∈ as, OfRun tenant run request a)
    (hfresh : Trace.Along (step unmarshal) (Fresh tenant run) w as)
    (hrec : Recoverable unmarshal tenant run w as) :
    (Trace.run (step unmarshal) w as).store =
        (Trace.run (step unmarshal) w' (as.filter Step.delivers)).store ∧
      Trace.Along (step unmarshal) (Fresh tenant run) w' (as.filter Step.delivers) := by
  induction as generalizing w w' with
  | nil => exact ⟨h.1.symm, trivial⟩
  | cons a as ih =>
    obtain ⟨s', m'⟩ := w'
    obtain ⟨rfl, held, hsim⟩ := h
    obtain ⟨ha, hofs⟩ := forall_mem_cons.1 hof
    match a with
    | .restart =>
      obtain ⟨held', hsim'⟩ := restart_sim hsim hrec.1
      exact ih ⟨rfl, held', hsim'⟩ hofs hfresh.2 hrec.2
    | .deliver ⟨none, seq⟩ fails => exact ha.elim
    | .deliver ⟨some f, seq⟩ fails =>
      obtain ⟨rfl, htenant, hrun, hnames, hcross⟩ := ha
      have hstep := onFact_sim unmarshal hsim hbounded htenant ⟨hrun, hnames, hcross⟩ hfresh.1
      obtain ⟨hstore, hfresh'⟩ := ih hstep hofs hfresh.2 hrec
      exact ⟨hstore, hfresh.1, hfresh'⟩

/-! ### The last cursor of a resource -/

variable {env : Envelope}

variable {key : ResourceCheckpointKey} {cp merged d : CheckpointData} {w : World} {x : String}

variable (tenant run request) in
/-- The tracker follows the run: its row is there, and its cursors are named after their resources. -/
def Steady (w : World) : Prop :=
  Paired tenant run request (fun _ => true) w.store w.mem w.mem

theorem Sim.steady (h : Sim unmarshal tenant run request as held s m m) :
    Steady tenant run request ⟨s, m⟩ := by
  refine ⟨⟨ext ?_, fun _ => rfl⟩, h.known, h.named⟩
  exact (filter_eq_self.2 fun _ _ => rfl).symm

theorem steady_new (hrow : Row s tenant run r) : Steady tenant run r.request ⟨s, .new⟩ :=
  ⟨⟨rfl, fun _ => rfl⟩, ⟨r, rfl, ⟨hrow, nofun⟩, hrow, nofun⟩, nofun⟩

theorem Steady.sim (h : Steady tenant run request w) (as : List Step) :
    Sim unmarshal tenant run request as (fun _ => true) w.store w.mem w.mem :=
  { h with owed := nofun }

variable (tenant run request) in
/-- A new fact of the bounded run reaches a tracker that follows it. -/
structure Arrives (w : World) (f : Fact) (seq : ℕ) : Prop where
  steady : Steady tenant run request w
  bounded : request.options.execution.normalize ≠ .continuous
  ofTenant : f.env.tenant = tenant
  ofRun : FactOf run request f
  fresh : ∀ last ∈ w.store.marks (tenant, run), last < seq

theorem Arrives.deliver (h : Arrives tenant run request w f seq) :
    Steady tenant run request (onFact unmarshal noFailure ⟨some f, seq⟩ w).1 := by
  obtain ⟨-, held', hsim'⟩ := onFact_sim unmarshal (h.steady.sim [.deliver ⟨some f, seq⟩ noFailure])
    h.bounded h.ofTenant h.ofRun h.fresh
  exact hsim'.steady

variable (unmarshal) in
theorem Arrives.folds (h : Arrives tenant run request w f seq) (hterm : f.data.terminal = false)
    (hnotify : f.data ≠ .notifierAttempted) :
    ∃ s₂ n r r', Row w.store tenant run r ∧ Row s₂ tenant run r' ∧ r.request = request ∧
      r'.request = request ∧ s₂.checkpoints = w.store.checkpoints ∧
      s₂.resourceCheckpoints = w.store.resourceCheckpoints ∧ n.cp = w.mem.cp ∧
      (onFact unmarshal noFailure ⟨some f, seq⟩ w).1 =
        ⟨persistHanded (handOn unmarshal f s₂ n).2 s₂ f.env (handOn unmarshal f s₂ n).1,
          (handOn unmarshal f s₂ n).2⟩ := by
  obtain ⟨⟨-, ⟨r, rfl, hm, -⟩, -⟩, hbounded, rfl, ⟨rfl, -⟩, hfresh⟩ := h
  obtain ⟨n, hn, hcp, -, heq⟩ := onFact_fold unmarshal seq rfl rfl hbounded hm hnotify
  have hmarked : Row (marked w.store f.env.tenant f.env.run seq) f.env.tenant f.env.run r :=
    hm.row.of_runs rfl
  obtain ⟨r', hrequest, hrow⟩ := rowFolded_row hmarked
  refine ⟨rowFolded f (marked w.store f.env.tenant f.env.run seq) r, n, r, r', hm.row, hrow,
    rfl, hrequest, rowFolded_frame.1, rowFolded_frame.2, hcp, ?_⟩
  rw [heq, fold_fresh rfl rfl hm.row hterm hfresh, apply_eq hmarked hterm]

variable (unmarshal) in
theorem Arrives.effect (h : Arrives tenant run request w f seq) (hterm : f.data.terminal = false)
    (hnotify : f.data ≠ .notifierAttempted) :
    ∃ s₂ n, n.cp = w.mem.cp ∧
      (∀ x, loadCheckpoint noFailure s₂ tenant run x =
        loadCheckpoint noFailure w.store tenant run x) ∧
      (onFact unmarshal noFailure ⟨some f, seq⟩ w).1.mem = (handOn unmarshal f s₂ n).2 ∧
      (onFact unmarshal noFailure ⟨some f, seq⟩ w).1.store.resourceCheckpoints =
        w.store.resourceCheckpoints := by
  obtain ⟨s₂, n, r, r', hrow, hrow', hr, hr', hrunScope, hpipeline, hcp, heq⟩ :=
    h.folds unmarshal hterm hnotify
  refine ⟨s₂, n, hcp, fun x => ?_, congrArg World.mem heq, ?_⟩
  · exact loadCheckpoint_congr hrow hrow' (hr'.trans hr.symm) (congrFun hrunScope _) hpipeline
  · rw [heq]
    exact persistHanded_frame.2.trans hpipeline

variable (unmarshal run resource cp) in
/-- The memory holds the cursor for the resource, or the watermark it was promoted to. -/
def HoldsCursor (m : Module) : Prop :=
  ∃ final, (final = cp ∨ promoteIncrementalBackfill unmarshal (some cp) = some final) ∧
    m.cp.lookup ⟨run, resource⟩ = some (some final)

theorem accumulated_fst :
    (accumulated fails env w).1 = (w.mem.cp.lookup env.key).getD
      (loadCheckpoint fails w.store env.tenant env.run env.resource) := by
  unfold accumulated
  cases w.mem.cp.lookup env.key <;> rfl

theorem foldCursor_lookup (h : mergeDelta (accumulated noFailure env w).1 d = some merged) :
    (foldCursor noFailure env (some d) w).2.cp.lookup env.key = some (some merged) := by
  rcases foldCursor_cases d with ⟨hnone, -⟩ | heq
  · cases (hnone _).symm.trans h
  · simp only [heq, foldDelta, h]
    exact countBatch_spec.2

/-- A batch leaves its cursor merged into the accumulated one. -/
theorem batch_lookup (h : Arrives tenant run request w f seq) (hd : f.data.batchCursor = some d)
    (hmerged : mergeDelta (accumulated noFailure f.env w).1 d = some merged) :
    (onFact unmarshal noFailure ⟨some f, seq⟩ w).1.mem.cp.lookup ⟨run, f.env.resource⟩ =
      some (some merged) := by
  obtain ⟨env, data⟩ := f
  cases data with
  | batchWritten records bytes c policy =>
    obtain rfl : c = some d := hd
    obtain ⟨s₂, n, hcp, hload, hmem, -⟩ := h.effect unmarshal rfl nofun
    obtain ⟨-, -, rfl, ⟨rfl, -⟩, -⟩ := h
    rw [hmem]
    refine foldCursor_lookup ?_
    rw [accumulated_fst] at hmerged ⊢
    rw [rememberBoundary_cp, hcp, hload]
    exact hmerged
  | _ => cases hd

/-- A fact that neither ends the run nor brings a batch cursor of the resource. -/
def Quiet (resource : String) : Step → Prop
  | .deliver ⟨some f, _⟩ _ =>
    f.data.terminal = false ∧ (f.data.batchCursor ≠ none → f.env.resource ≠ resource)
  | _ => True

theorem handOn_holdsCursor (hnamed : Named request run m) (hf : FactOf run request f)
    (hquiet : f.data.batchCursor ≠ none → f.env.resource ≠ x)
    (h : HoldsCursor unmarshal run x merged m) :
    HoldsCursor unmarshal run x merged (handOn unmarshal f s m).2 := by
  obtain ⟨final, hfinal, hlook⟩ := h
  by_cases htouch : Touches f x
  · obtain ⟨env, data⟩ := f
    obtain ⟨hmoves, rfl⟩ := htouch
    obtain rfl : env.run = run := hf.run
    cases data with
    | batchWritten records bytes c policy =>
      cases c with
      | none => cases hmoves
      | some d => exact absurd rfl (hquiet nofun)
    | checkpointSaved c => exact ⟨final, hfinal, hlook⟩
    | resourceCompleted records bytes =>
      have hcursor : resourceCursor noFailure env ⟨s, m⟩ = some final := by
        simp only [resourceCursor]
        rw [show env.key = ⟨env.run, env.resource⟩ from rfl, hlook]
        rfl
      simp only [handOn, hcursor]
      split
      · rename_i promoted hpromote
        -- a watermark is not promoted again
        rcases hfinal with rfl | hfinal
        · exact ⟨promoted, .inr hpromote, lookup_insert _⟩
        obtain ⟨-, -, -, -, hmode⟩ := promoteIncrementalBackfill_spec hfinal
        obtain ⟨c, hc, hbackfill, -⟩ := promoteIncrementalBackfill_spec hpromote
        rw [← Option.some.inj hc, hmode] at hbackfill
        cases hbackfill
      · exact ⟨final, hfinal, hlook⟩
    | _ => cases hmoves
  · exact ⟨final, hfinal, (untouched_frame hnamed hf htouch).1.trans hlook⟩

theorem quiet_holdsCursor (harrives : Arrives tenant run request w f seq)
    (hquiet : Quiet x (.deliver ⟨some f, seq⟩ noFailure))
    (h : HoldsCursor unmarshal run x merged w.mem) :
    HoldsCursor unmarshal run x merged (onFact unmarshal noFailure ⟨some f, seq⟩ w).1.mem := by
  by_cases hnotify : f.data = .notifierAttempted
  · simp only [onFact, hnotify, if_true]
    exact h
  obtain ⟨s₂, n, hcp, -, hmem, -⟩ := harrives.effect unmarshal hquiet.1 hnotify
  rw [hmem]
  refine handOn_holdsCursor (fun y c hlook => ?_) harrives.ofRun hquiet.2 ?_
  · exact harrives.steady.named y c (by rw [← hcp]; exact hlook)
  · obtain ⟨final, hfinal, hlook⟩ := h
    exact ⟨final, hfinal, by rw [hcp]; exact hlook⟩

/-! ### The cursors of a completed run -/

variable {promote : Bool}

variable (tenant key) in
/-- The pipeline-scoped cursor belongs to the tenant. -/
def Owns (s : Store) : Prop :=
  ∀ old ∈ s.resourceCheckpoints key.row, old.tenant = tenant

/-- After the commit, the cursor of a resource goes to the pipeline. -/
theorem persistCheckpoint_promoted {site : String} (hrow : Row s tenant run r)
    (hcross : r.request.crossRun cp.resourceName = true)
    (hkey : r.request.resourceCheckpointKey cp.resourceName = some key)
    (howns : Owns tenant key s) :
    persistCheckpoint noFailure m s tenant run site cp true =
      .ok (true, s.setResourceCheckpoint key.row ⟨tenant, run, cp.cursor⟩) := by
  have hsave : s.saveResourceCheckpoint tenant key run cp =
      .ok (s.setResourceCheckpoint key.row ⟨tenant, run, cp.cursor⟩) := by
    have hname : ¬ cp.resourceName ≠ key.resource :=
      not_not.2 (RunRequest.resourceCheckpointKey_resource hkey).symm
    rw [Store.saveResourceCheckpoint, if_neg hname]
    exact if_pos howns
  unfold persistCheckpoint
  simp only [Bool.not_true, Bool.false_and, Bool.and_false, Bool.false_eq_true, if_false,
    attempt_noFailure, hrow.loadRun, hcross, hkey, hsave]
  rfl

section

variable (h : Written m tenant run cp promote s s')
include h

/-- Persisting a cursor writes at most the pipeline's cursor of its resource. -/
theorem Written.pipeline_cases :
    s'.resourceCheckpoints = s.resourceCheckpoints ∨ ∃ key : ResourceCheckpointKey,
      key.resource = cp.resourceName ∧ s'.resourceCheckpoints =
        Function.update s.resourceCheckpoints key.row (some ⟨tenant, run, cp.cursor⟩) := by
  cases h with
  | kept => exact .inl rfl
  | replay _ _ h | runScope _ _ _ _ h => exact .inl (by rw [Store.saveCheckpoint_eq_ok h]; rfl)
  | pipeline _ _ hkey h =>
    refine .inr ⟨_, RunRequest.resourceCheckpointKey_resource hkey, ?_⟩
    rw [Store.saveResourceCheckpoint_eq_ok h]
    rfl

theorem Written.owns (howns : Owns tenant key s) :
    Owns tenant key s' := by
  unfold Owns
  rcases h.pipeline_cases with heq | ⟨other, -, heq⟩ <;> rw [heq]
  · exact howns
  · intro old hold
    simp only [update_apply] at hold
    split_ifs at hold
    · rw [← Option.some.inj hold]
    · exact howns old hold

theorem Written.other (hkey : key.resource ≠ cp.resourceName) :
    s'.resourceCheckpoints key.row = s.resourceCheckpoints key.row := by
  rcases h.pipeline_cases with heq | ⟨other, hother, heq⟩ <;> rw [heq]
  refine update_of_ne (fun hrow => hkey ?_) ..
  exact (congrArg CheckpointRow.resource hrow).trans hother

end

/-- Flushing after the commit stores the pending cursor of the resource. -/
theorem persistAll_stored {pending : List (String × CheckpointData)} (hrow : Row s tenant run r)
    (hkey : r.request.resourceCheckpointKey x = some key) (howns : Owns tenant key s)
    (hpending : ∀ e ∈ pending, e.2.resourceName = e.1 ∧ r.request.crossRun e.1 = true ∧
      (e.1 = x → e.2 = cp))
    (h : (∃ e ∈ pending, e.1 = x) ∨
      s.resourceCheckpoints key.row = some ⟨tenant, run, cp.cursor⟩) :
    (persistAll noFailure m tenant run true s pending).1.resourceCheckpoints key.row =
      some ⟨tenant, run, cp.cursor⟩ := by
  induction pending generalizing s with
  | nil => exact h.resolve_left (by simp)
  | cons e pending ih =>
    obtain ⟨y, c⟩ := e
    obtain ⟨hname, hcross, hcp⟩ := hpending _ (.head _)
    have hrest : ∀ e ∈ pending, e.2.resourceName = e.1 ∧ r.request.crossRun e.1 = true ∧
        (e.1 = x → e.2 = cp) := fun e he => hpending e (.tail _ he)
    simp only [persistAll]
    by_cases hy : y = x
    · obtain rfl := hcp hy
      subst hy
      rw [persistCheckpoint_promoted hrow (by rw [hname]; exact hcross) (by rw [hname]; exact hkey)
        howns]
      refine ih (hrow.of_runs rfl) ?_ hrest (.inr (update_self ..))
      intro old hold
      simp only [Store.setResourceCheckpoint, update_self, Option.mem_some_iff] at hold
      rw [← hold]
    · have htail : (∃ e ∈ pending, e.1 = x) ∨
          s.resourceCheckpoints key.row = some ⟨tenant, run, cp.cursor⟩ := by
        refine h.imp_left ?_
        rintro ⟨e, he, hex⟩
        rcases mem_cons.1 he with rfl | he
        · exact absurd hex hy
        · exact ⟨e, he, hex⟩
      cases hp : persistCheckpoint noFailure m s tenant run y c true with
      | error e => exact ih hrow howns hrest htail
      | ok res =>
        have hw := persistCheckpoint_written hp
        refine ih (hrow.of_runs hw.frame.1) (hw.owns howns) hrest ?_
        rw [hw.other]
        · exact htail
        · rw [RunRequest.resourceCheckpointKey_resource hkey, hname]
          exact Ne.symm hy

theorem persistAll_owns {pending : List (String × CheckpointData)} (h : Owns tenant key s) :
    Owns tenant key (persistAll noFailure m tenant run promote s pending).1 := by
  induction pending generalizing s with
  | nil => exact h
  | cons e pending ih =>
    obtain ⟨y, c⟩ := e
    simp only [persistAll]
    cases hp : persistCheckpoint noFailure m s tenant run y c promote with
    | error e => exact ih h
    | ok res => exact ih ((persistCheckpoint_written hp).owns h)

/-- Of a terminal fact, only the flush reaches the pipeline's cursors. -/
theorem terminal_pipeline (hrow : Row s env.tenant env.run r) (promote : Bool) (d : Data) :
    (terminal noFailure env promote (update env d) ⟨s, m⟩).1.store.resourceCheckpoints =
      (persistAll noFailure (settled env.run m) env.tenant env.run promote s
        (m.pending env.run)).1.resourceCheckpoints := by
  rw [terminal_eq hrow promote d rfl]
  split_ifs <;> rfl

theorem fold_terminal_pipeline (hterm : f.data.terminal = true) :
    (fold unmarshal noFailure f seq w).1.store.resourceCheckpoints =
      (apply unmarshal noFailure f w).1.store.resourceCheckpoints := by
  unfold fold
  rw [if_pos hterm]
  generalize apply unmarshal noFailure f w = res
  obtain ⟨w', result⟩ := res
  cases result with
  | error e => rfl
  | ok u =>
    simp only [attempt_noFailure]
    cases hd : w'.store.dedupSeen f.env.tenant f.env.run seq with
    | error e => rfl
    | ok res =>
      obtain ⟨seen, s'⟩ := res
      rcases Store.dedupSeen_eq_ok hd with ⟨-, rfl, -⟩ | ⟨-, -, rfl⟩ <;> rfl

theorem Arrives.owns (h : Arrives tenant run request w f seq) (howns : Owns tenant key w.store) :
    Owns tenant key (onFact unmarshal noFailure ⟨some f, seq⟩ w).1.store := by
  by_cases hnotify : f.data = .notifierAttempted
  · simp only [onFact, hnotify, if_true]
    exact howns
  cases hterm : f.data.terminal with
  | false =>
    obtain ⟨-, -, -, -, -, hsame⟩ := h.effect unmarshal hterm hnotify
    unfold Owns
    rw [hsame]
    exact howns
  | true =>
    obtain ⟨⟨-, ⟨r, rfl, hm, -⟩, -⟩, hbounded, rfl, ⟨rfl, -⟩, -⟩ := h
    obtain ⟨n, hn, -, -, heq⟩ := onFact_fold unmarshal seq rfl rfl hbounded hm hnotify
    obtain ⟨promote, happly⟩ := apply_terminal unmarshal hterm
    unfold Owns
    rw [heq, fold_terminal_pipeline hterm, happly, terminal_pipeline hn.row]
    exact persistAll_owns howns

variable (unmarshal tenant run key cp) in
/-- The pipeline holds the cursor for the resource, or the watermark it was promoted to. -/
def StoresCursor (s : Store) : Prop :=
  ∃ final, (final = cp ∨ promoteIncrementalBackfill unmarshal (some cp) = some final) ∧
    s.resourceCheckpoints key.row = some ⟨tenant, run, final.cursor⟩

/-- A completed run promotes the accumulated cursor of a resource. -/
theorem completed_storesCursor {records bytes : ℤ} (h : Arrives tenant run request w f seq)
    (hd : f.data = .runCompleted records bytes)
    (hkey : request.resourceCheckpointKey x = some key) (howns : Owns tenant key w.store)
    (hcursor : HoldsCursor unmarshal run x merged w.mem) :
    StoresCursor unmarshal tenant run key merged
      (onFact unmarshal noFailure ⟨some f, seq⟩ w).1.store := by
  obtain ⟨⟨-, ⟨r, rfl, hm, -⟩, hnames⟩, hbounded, rfl, ⟨rfl, -⟩, -⟩ := h
  obtain ⟨n, hn, hcp, -, heq⟩ := onFact_fold unmarshal seq rfl rfl hbounded hm (by rw [hd]; nofun)
  obtain ⟨final, hfinal, hlook⟩ := hcursor
  refine ⟨final, hfinal, ?_⟩
  obtain ⟨env, data⟩ := f
  subst hd
  have hnamed : Named r.request env.run n := fun y c hy => hnames y c (by rw [← hcp]; exact hy)
  have hlook' : n.cp.lookup ⟨env.run, x⟩ = some (some final) := by rw [hcp]; exact hlook
  have hpending : ∀ e ∈ n.pending env.run, e.2.resourceName = e.1 ∧
      r.request.crossRun e.1 = true ∧ (e.1 = x → e.2 = final) := by
    rintro ⟨y, c⟩ he
    have hy := mem_pending he
    obtain ⟨hname, hcross⟩ := hnamed y c hy
    refine ⟨hname, hcross, ?_⟩
    rintro rfl
    rw [hlook'] at hy
    exact (Option.some.inj (Option.some.inj hy)).symm
  have hmem : ∃ e ∈ n.pending env.run, e.1 = x := by
    refine ⟨(x, final), mem_filterMap.2 ⟨⟨⟨env.run, x⟩, some final⟩, ?_, ?_⟩, rfl⟩
    · exact mem_lookup_iff.1 hlook'
    · exact if_pos rfl
  have hstored := @persistAll_stored w.store env.tenant env.run (settled env.run n) r key final x _
    hn.row hkey howns hpending (.inl hmem)
  rw [heq, fold_terminal_pipeline rfl]
  exact (congrFun (terminal_pipeline hn.row true _) key.row).trans hstored

/-! ### Whole runs -/

variable (tenant run request) in
/-- The step delivers a new fact of the run. -/
structure Follows (w : World) (a : Step) : Prop where
  ofRun : OfRun tenant run request a
  delivers : a.delivers = true
  fresh : Fresh tenant run w a

theorem Follows.cases {a : Step} (h : Follows tenant run request w a)
    (hbounded : request.options.execution.normalize ≠ .continuous)
    (hsteady : Steady tenant run request w) :
    ∃ f seq, a = .deliver ⟨some f, seq⟩ noFailure ∧ Arrives tenant run request w f seq := by
  obtain ⟨hof, hdelivers, hfresh⟩ := h
  match a with
  | .restart => cases hdelivers
  | .deliver ⟨none, seq⟩ fails => exact hof.elim
  | .deliver ⟨some f, seq⟩ fails =>
    obtain ⟨rfl, htenant, hrun, hnames, hcross⟩ := hof
    exact ⟨f, seq, rfl, hsteady, hbounded, htenant, ⟨hrun, hnames, hcross⟩, hfresh⟩

theorem follows_along (hof : ∀ a ∈ as, OfRun tenant run request a)
    (hdelivers : ∀ a ∈ as, a.delivers = true)
    (hfresh : Trace.Along (step unmarshal) (Fresh tenant run) w as) :
    Trace.Along (step unmarshal) (Follows tenant run request) w as := by
  refine (((Trace.along_of_forall hof w).and (Trace.along_of_forall hdelivers w)).and hfresh).mono ?_
  rintro w a ⟨⟨hof, hdelivers⟩, hfresh⟩
  exact ⟨hof, hdelivers, hfresh⟩

section

variable (hbounded : request.options.execution.normalize ≠ .continuous) (hsteady : Steady tenant run request w)
include hbounded hsteady

theorem steady_run (howns : Owns tenant key w.store)
    (h : Trace.Along (step unmarshal) (Follows tenant run request) w as) :
    Steady tenant run request (Trace.run (step unmarshal) w as) ∧
      Owns tenant key (Trace.run (step unmarshal) w as).store := by
  have hstep : ∀ w a, (Steady tenant run request w ∧ Owns tenant key w.store) →
      Follows tenant run request w a → Steady tenant run request (step unmarshal w a) ∧
        Owns tenant key (step unmarshal w a).store := by
    intro w a hinv ha
    obtain ⟨f, seq, rfl, harrives⟩ := ha.cases hbounded hinv.1
    exact ⟨harrives.deliver, harrives.owns hinv.2⟩
  exact Trace.inv_run_of_along hstep ⟨hsteady, howns⟩ h

/-- Facts without a batch cursor of the resource leave what was accumulated last. -/
theorem holdsCursor_run (hcursor : HoldsCursor unmarshal run x merged w.mem)
    (h : Trace.Along (step unmarshal) (Follows tenant run request) w as)
    (hquiet : ∀ a ∈ as, Quiet x a) :
    HoldsCursor unmarshal run x merged (Trace.run (step unmarshal) w as).mem := by
  have hstep : ∀ w a, (Steady tenant run request w ∧ HoldsCursor unmarshal run x merged w.mem) →
      (Follows tenant run request w a ∧ Quiet x a) →
      Steady tenant run request (step unmarshal w a) ∧
        HoldsCursor unmarshal run x merged (step unmarshal w a).mem := by
    intro w a hinv ha
    obtain ⟨f, seq, rfl, harrives⟩ := ha.1.cases hbounded hinv.1
    exact ⟨harrives.deliver, quiet_holdsCursor harrives ha.2 hinv.2⟩
  exact (Trace.inv_run_of_along hstep ⟨hsteady, hcursor⟩ (h.and (Trace.along_of_forall hquiet w))).2

end

/-- **Restarts are transparent to cross-run cursors.** For the facts of an incremental or change-stream
run that completes, with every restart finding a memory whose loss is made up for, the store ends up
as without the restarts. The pipeline then holds, for every resource, the cursor its last batch was
merged into. -/
theorem restarts_transparent {body : List Step} {ended : Fact} {records bytes : ℤ}
    (hrow : Row s tenant run r)
    (hbounded : r.request.options.execution.normalize ≠ .continuous)
    (howns : ∀ x key, r.request.resourceCheckpointKey x = some key → Owns tenant key s)
    (hended : ended.data = .runCompleted records bytes)
    (hof : ∀ a ∈ body ++ [.deliver ⟨some ended, seq⟩ noFailure], OfRun tenant run r.request a)
    (hfresh : Trace.Along (step unmarshal) (Fresh tenant run) ⟨s, .new⟩
      (body ++ [.deliver ⟨some ended, seq⟩ noFailure]))
    (hrec : Recoverable unmarshal tenant run ⟨s, .new⟩
      (body ++ [.deliver ⟨some ended, seq⟩ noFailure])) :
    (Trace.run (step unmarshal) ⟨s, .new⟩ (body ++ [.deliver ⟨some ended, seq⟩ noFailure])).store =
      (Trace.run (step unmarshal) ⟨s, .new⟩
        (body.filter Step.delivers ++ [.deliver ⟨some ended, seq⟩ noFailure])).store ∧
    ∀ pre post f seq' d merged key,
      body.filter Step.delivers = pre ++ .deliver ⟨some f, seq'⟩ noFailure :: post →
      f.data.batchCursor = some d → (∀ a ∈ post, Quiet f.env.resource a) →
      mergeDelta (accumulated noFailure f.env (Trace.run (step unmarshal) ⟨s, .new⟩ pre)).1 d =
        some merged →
      r.request.resourceCheckpointKey f.env.resource = some key →
      StoresCursor unmarshal tenant run key merged (Trace.run (step unmarshal) ⟨s, .new⟩
        (body ++ [.deliver ⟨some ended, seq⟩ noFailure])).store := by
  obtain ⟨hstore, hfresh'⟩ := run_sim hbounded ⟨rfl, _, (steady_new hrow).sim _⟩ hof hfresh hrec
  rw [filter_append, filter_cons_of_pos rfl, filter_nil] at hstore hfresh'
  refine ⟨hstore, ?_⟩
  intro pre post f seq' d merged key hsplit hd hquiet hmerged hkey
  rw [hstore]
  have hall : Trace.Along (step unmarshal) (Follows tenant run r.request) ⟨s, .new⟩
      (body.filter Step.delivers ++ [.deliver ⟨some ended, seq⟩ noFailure]) := by
    refine follows_along (fun a ha => hof a ?_) (fun a ha => ?_) hfresh'
    · exact (filter_sublist.append_right _).subset ha
    · rcases mem_append.1 ha with ha | ha
      · exact (mem_filter.1 ha).2
      · rw [mem_singleton.1 ha]
        rfl
  rw [hsplit] at hall ⊢
  -- the batch leaves its cursor, the facts after it keep it, and the completion stores it
  obtain ⟨hbody, hend, -⟩ := Trace.along_append.1 hall
  obtain ⟨hpre, hbatch, hpost⟩ := Trace.along_append.1 hbody
  have hsteady : Steady tenant run r.request ⟨s, .new⟩ := steady_new hrow
  obtain ⟨hsteady₁, -⟩ := steady_run hbounded hsteady (howns _ _ hkey) hpre
  obtain ⟨_, _, heq, harrives⟩ := hbatch.cases hbounded hsteady₁
  cases heq
  have hcursor := holdsCursor_run hbounded harrives.deliver ⟨_, .inl rfl, batch_lookup harrives hd hmerged⟩
    hpost hquiet
  obtain ⟨hsteady₂, howns₂⟩ := steady_run hbounded hsteady (howns _ _ hkey) hbody
  obtain ⟨_, _, heq, harrives'⟩ := hend.cases hbounded hsteady₂
  cases heq
  rw [Trace.run_append]
  refine completed_storesCursor harrives' hended hkey howns₂ ?_
  rw [Trace.run_append]
  exact hcursor

/-! ### A change-stream run with a restart -/

/-- A run that follows the changes of `orders`. -/
def syncRun : RunState :=
  { RunState.fresh "sync" "acme" with
    status := .runRunning
    request := { RunRequest.zero with
      pipelineID := "shop"
      pipelineVersionID := "v1"
      checkpointRoute := "warehouse"
      ingestionTypes := [("orders", .cdcMerge)] } }

/-- The key of its progress. -/
def ordersKey : ResourceCheckpointKey := ⟨"shop", "v1", "warehouse", "orders", ""⟩

/-- A store with that run only. -/
def syncStore : Store where
  runs := fun id => if id = "sync" then some syncRun else none
  marks := fun _ => none
  checkpoints := fun _ => none
  resourceCheckpoints := fun _ => none

/-- A batch up to a position of the change stream. -/
def changesWritten (seq : ℕ) (lsn : String) (position : ℕ) : Step :=
  .deliver ⟨some ⟨⟨"acme", "sync", "orders", seq⟩, .batchWritten 1 10
    (some (newStreamDelta "orders" lsn position)) .checkpointAfterCommit⟩, seq⟩ noFailure

/-- The run completes. -/
def syncCompleted (seq : ℕ) : Fact := ⟨⟨"acme", "sync", "", seq⟩, .runCompleted 2 20⟩

theorem syncStore_row : Row syncStore "acme" "sync" syncRun := ⟨rfl, rfl, rfl⟩

theorem changesWritten_ofRun (seq : ℕ) (lsn : String) (position : ℕ) :
    OfRun "acme" "sync" syncRun.request (changesWritten seq lsn position) := by
  refine ⟨rfl, rfl, rfl, fun d hd => ?_, fun _ => rfl⟩
  cases hd
  rfl

theorem syncCompleted_ofRun (seq : ℕ) : OfRun "acme" "sync" syncRun.request
    (.deliver ⟨some (syncCompleted seq), seq⟩ noFailure) :=
  ⟨rfl, rfl, rfl, nofun, nofun⟩

/-- The batch after a restart makes up for the batch before it. -/
theorem changesWritten_recovers (x : String) :
    Recovers (fun _ => none) "acme" "sync" (step (fun _ => none) ⟨syncStore, .new⟩ (changesWritten 1 "0/10" 5)) x
      [changesWritten 2 "0/20" 9, .deliver ⟨some (syncCompleted 3), 3⟩ noFailure] := by
  refine ⟨rfl, fun acc hacc => ?_⟩
  by_cases hx : x = "orders"
  · subst hx
    cases hacc
    exact @resumes_of_stream _ _ _ _ _ _ _ _ _ ("0/20", 9) ⟨rfl, rfl⟩ rfl rfl (by rintro q ⟨⟩)
      (by rintro q ⟨⟩; decide)
  have hcp : (step (fun _ => none) ⟨syncStore, .new⟩ (changesWritten 1 "0/10" 5)).mem.cp =
      singleton (CkKey.mk "sync" "orders")
        (some (newStreamDelta "orders" "0/10" 5)) := rfl
  have hmem : (⟨"sync", x⟩ : CkKey) ∈ (step (fun _ => none) ⟨syncStore, .new⟩
      (changesWritten 1 "0/10" 5)).mem.cp := by
    rw [← lookup_isSome, hacc]
    rfl
  rw [hcp, AList.mem_keys, AList.keys_singleton, mem_singleton] at hmem
  exact absurd (congrArg CkKey.resource hmem) hx

/-- A restart between two batches: the second makes up for the first, and its position is stored. -/
theorem restart_before_last_batch :
    StoresCursor (fun _ => none) "acme" "sync" ordersKey (newStreamDelta "orders" "0/20" 9)
      (Trace.run (step fun _ => none) ⟨syncStore, .new⟩
        ([changesWritten 1 "0/10" 5, .restart, changesWritten 2 "0/20" 9] ++
          [.deliver ⟨some (syncCompleted 3), 3⟩ noFailure])).store := by
  refine (@restarts_transparent _ _ _ _ _ _ _ (syncCompleted 3) 2 20 syncStore_row nofun
    (fun _ _ _ => nofun) rfl ?_ ?_ ?_).2 [changesWritten 1 "0/10" 5] [] _ 2
    (newStreamDelta "orders" "0/20" 9) _ _ rfl rfl nofun rfl rfl
  · exact forall_mem_cons.2 ⟨changesWritten_ofRun 1 "0/10" 5, forall_mem_cons.2
      ⟨trivial, forall_mem_cons.2 ⟨changesWritten_ofRun 2 "0/20" 9,
        forall_mem_singleton.2 (syncCompleted_ofRun 3)⟩⟩⟩
  · refine ⟨nofun, trivial, fun last hlast => ?_, fun last hlast => ?_, trivial⟩
    · cases hlast
      decide
    · cases hlast
      decide
  · exact ⟨changesWritten_recovers, trivial⟩

/-- After the last batch, a restart loses its position: the completed run stores no cursor. -/
theorem restart_after_last_batch :
    (∀ a ∈ [changesWritten 1 "0/10" 5, .restart, .deliver ⟨some (syncCompleted 2), 2⟩ noFailure],
      OfRun "acme" "sync" syncRun.request a) ∧
    Trace.Along (step fun _ => none) (Fresh "acme" "sync") ⟨syncStore, .new⟩
      [changesWritten 1 "0/10" 5, .restart, .deliver ⟨some (syncCompleted 2), 2⟩ noFailure] ∧
    (Trace.run (step fun _ => none) ⟨syncStore, .new⟩
      [changesWritten 1 "0/10" 5, .restart,
        .deliver ⟨some (syncCompleted 2), 2⟩ noFailure]).store.resourceCheckpoints ordersKey.row =
      none ∧
    (Trace.run (step fun _ => none) ⟨syncStore, .new⟩
      [changesWritten 1 "0/10" 5,
        .deliver ⟨some (syncCompleted 2), 2⟩ noFailure]).store.resourceCheckpoints ordersKey.row =
      some ⟨"acme", "sync", (newStreamDelta "orders" "0/10" 5).cursor⟩ := by
  refine ⟨?_, ⟨nofun, trivial, ?_, trivial⟩, rfl, rfl⟩
  · exact forall_mem_cons.2 ⟨changesWritten_ofRun 1 "0/10" 5, forall_mem_cons.2
      ⟨trivial, forall_mem_singleton.2 (syncCompleted_ofRun 2)⟩⟩
  · intro last hlast
    cases hlast
    decide

end Filament.Tracker
