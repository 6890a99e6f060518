import Mathlib.Tactic.IntervalCases
import Filament.Stream.Tables

/-!
# The retry budget of the stream supervisor

The supervisor keeps a budget of failures for each stream, which it updates from the snapshots that its
passes happen to load.  Calls and snapshots are listed newest first.

* `retryPolicy` : a call, in its phases `adopt`, `noteEpoch`, `noteEnd` and `answer`;
* `failed` : the attempts seen to fail since the last reset, from the snapshots alone;
* **`Snapshots.counts`** : the budget of every stream counts them.
-/

namespace Filament.Supervisor

open Streams List

/-- An attempt as its stream shows it: the reason it ended for, once it has. -/
structure Attempt where
  token : ℕ
  run : RunID
  revision : ℕ
  ended : Option String

/-- A snapshot of a stream.  Its last epoch is zero while there is none; its attempt is of its run, and
was started under a revision up to its own. -/
structure StreamState where
  id : String
  desired : StreamDesiredState
  run : RunID
  revision : ℕ
  lastEpoch : ℕ
  attempt : Option Attempt
  own : ∀ a ∈ attempt, 0 < a.token ∧ a.run = run ∧ a.revision ≤ revision

structure RetryState where
  run : RunID
  revision : ℕ
  epoch : ℕ
  endedToken : ℕ
  failures : ℕ

def maxRetries : ℕ := 5

def attemptReasonUpgrade : String := "yielded for upgrade"

/-- The reasons that do not count as failures. -/
abbrev Clean (reason : String) : Prop := reason = "" ∨ reason = attemptReasonUpgrade

/-- The budget of the snapshot's run and revision: a new one unless `r` is of both. -/
def adopt (x : StreamState) (r : Option RetryState) : RetryState :=
  match r.filter fun r => r.run = x.run ∧ r.revision = x.revision with
  | some r => r
  | none =>
    -- an attempt from before a change of intent does not consume a retry
    let old := x.attempt.filter fun a => a.revision ≠ x.revision
    ⟨x.run, x.revision, 0, old.elim 0 Attempt.token, 0⟩

def noteEpoch (x : StreamState) (r : RetryState) : RetryState :=
  if x.lastEpoch ≠ 0 ∧ x.lastEpoch ≠ r.epoch then { r with epoch := x.lastEpoch, failures := 0 } else r

def noteEnd (x : StreamState) (r : RetryState) : RetryState :=
  match x.attempt with
  | some ⟨token, _, _, some reason⟩ =>
    if token ≠ r.endedToken then
      { r with endedToken := token, failures := if Clean reason then 0 else r.failures + 1 }
    else r
  | _ => r

/-- The attempt shown has yielded for an upgrade. -/
def StreamState.yielded (x : StreamState) : Bool :=
  x.attempt.bind Attempt.ended == some attemptReasonUpgrade

def second : Int64 := 1000000000

/-- The delay before the next attempt, and whether the budget is exhausted. -/
def answer (yielded : Bool) (failures : ℕ) : Int64 × Bool :=
  if failures > maxRetries then (0, true)
  else if yielded ∧ failures < 1 then (0, false)
  else if failures < 1 then (5 * second, false)
  else (5 * second * Int64.ofNat ((1 : ℕ) <<< (failures - 1)), false)

def retryPolicy (retries : String → Option RetryState) (x : StreamState) :
    (String → Option RetryState) × Int64 × Bool :=
  if x.desired ≠ .enabled then (Function.update retries x.id none, 5 * second, false)
  else
    let r := noteEnd x (noteEpoch x (adopt x (retries x.id)))
    (Function.update retries x.id (some r), answer x.yielded r.failures)

/-- The budgets after calls of `retryPolicy`. -/
def after : List StreamState → String → Option RetryState
  | [] => fun _ => none
  | x :: before => (retryPolicy (after before) x).1

/-! ### Snapshots of streams -/

/-- The token of the attempt shown, if any. -/
def StreamState.latest (x : StreamState) : ℕ := x.attempt.elim 0 Attempt.token

/-- What a later snapshot `y` of the stream of `x` may show.  Revisions only grow, and under one
revision so do tokens and epochs, and the run stays.  An attempt keeps its revision,
which is the one that it was started under. -/
structure Follows (x y : StreamState) : Prop where
  revision : x.revision ≤ y.revision
  run : x.revision = y.revision → x.run = y.run
  epoch : x.revision = y.revision → x.lastEpoch ≤ y.lastEpoch
  latest : x.revision = y.revision → x.latest ≤ y.latest
  started : x.revision = y.revision → x.latest < y.latest → ∀ b ∈ y.attempt, b.revision = y.revision
  same : ∀ a ∈ x.attempt, ∀ b ∈ y.attempt, a.token = b.token → a.revision = b.revision

/-- Calls on snapshots of enabled streams. -/
structure Snapshots (calls : List StreamState) : Prop where
  enabled : ∀ x ∈ calls, x.desired = .enabled
  follows : calls.Pairwise fun y x => x.id = y.id → Follows x y

/-- The attempt is not of the revision of `x`, or was already shown ended. -/
abbrev Known (shown : List StreamState) (x : StreamState) (a : Attempt) : Prop :=
  a.revision ≠ x.revision ∨ ∃ y ∈ shown, ∃ b ∈ y.attempt, b.token = a.token ∧ b.ended ≠ none

/-- The attempt of its revision that `x` is the first to show ended. -/
def newEnd (before : List StreamState) (x : StreamState) : Option Attempt :=
  x.attempt.filter fun a => a.ended ≠ none ∧ ¬ Known before x a

/-- The snapshot is the first one, or of another run, revision or last epoch than the one before. -/
abbrev Fresh (before : List StreamState) (x : StreamState) : Prop :=
  ∀ y ∈ before.head?, y.run ≠ x.run ∨ y.revision ≠ x.revision ∨ y.lastEpoch ≠ x.lastEpoch

/-- The attempts seen to fail since the last reset. -/
def failed : List StreamState → List Attempt
  | [] => []
  | x :: before =>
    let since := if Fresh before x then [] else failed before
    match newEnd before x with
    | some a => if Clean (a.ended.getD "") then [] else a :: since
    | none => since

variable {before calls : List StreamState} {x : StreamState} {a : Attempt} {r : RetryState}
  {budget : Option RetryState}

theorem newEnd_eq_some : newEnd before x = some a ↔
    x.attempt = some a ∧ a.ended ≠ none ∧ ¬ Known before x a := by
  simp [newEnd, Option.filter_eq_some_iff]

theorem mem_failed (h : a ∈ failed (x :: before)) :
    newEnd before x = some a ∧ ¬ Clean (a.ended.getD "") ∨ ¬ Fresh before x ∧ a ∈ failed before := by
  simp only [failed] at h
  cases hn : newEnd before x <;> grind

/-- A counted attempt has failed and is shown by one of the snapshots. -/
theorem failed_shown (h : a ∈ failed calls) :
    (∃ reason, a.ended = some reason ∧ ¬ Clean reason) ∧ ∃ y ∈ calls, y.attempt = some a := by
  induction calls with
  | nil => cases h
  | cons x before ih =>
    rcases mem_failed h with ⟨hnew, hc⟩ | ⟨-, h⟩
    · obtain ⟨hx, he, -⟩ := newEnd_eq_some.1 hnew
      obtain ⟨reason, hreason⟩ := Option.ne_none_iff_exists'.1 he
      exact ⟨⟨reason, hreason, by simpa [hreason] using hc⟩, x, .head _, hx⟩
    · obtain ⟨hreason, y, hy, ha⟩ := ih h
      exact ⟨hreason, y, .tail _ hy, ha⟩

/-- It belongs to the run and revision of the latest snapshot. -/
theorem failed_own (h : a ∈ failed calls) (hx : x ∈ calls.head?) :
    a.run = x.run ∧ a.revision = x.revision := by
  induction calls generalizing x with
  | nil => cases h
  | cons z before ih =>
    cases hx
    rcases mem_failed h with ⟨hnew, -⟩ | ⟨hnew, h⟩
    · obtain ⟨hx, -, hk⟩ := newEnd_eq_some.1 hnew
      exact ⟨(z.own a hx).2.1, not_not.1 (not_or.1 hk).1⟩
    · simp only [Fresh, not_forall, not_or, not_not] at hnew
      obtain ⟨y, hy, hrun, hrev, -⟩ := hnew
      exact hrun ▸ hrev ▸ ih h hy

/-- No attempt is counted twice: a new end was not shown before. -/
theorem nodup_failed (calls : List StreamState) : ((failed calls).map Attempt.token).Nodup := by
  induction calls with
  | nil => exact .nil
  | cons x before ih =>
    simp only [failed]
    cases hn : newEnd before x with
    | none => split_ifs <;> simp [ih]
    | some a =>
      have hnew : a.token ∉ (failed before).map Attempt.token := by
        intro hmem
        obtain ⟨b, hb, hbt⟩ := mem_map.1 hmem
        obtain ⟨⟨reason, hreason, -⟩, y, hy, hyb⟩ := failed_shown hb
        exact (newEnd_eq_some.1 hn).2.2 (.inr ⟨y, hy, b, hyb, hbt, by simp [hreason]⟩)
      simp only
      split_ifs <;> simp_all

/-! ### The count -/

/-- The budget is of the run and revision of `x` and has counted `count`; of what `x` shows, its
`endedToken` marks what is known from `shown`. -/
structure Tracks (shown : List StreamState) (count : List Attempt) (x : StreamState)
    (r : RetryState) : Prop where
  run : r.run = x.run
  revision : r.revision = x.revision
  epoch : r.epoch = x.lastEpoch
  failures : r.failures = count.length
  mark : ∀ a ∈ x.attempt, a.token = r.endedToken ↔ Known shown x a
  le : r.endedToken ≤ x.latest

theorem latest_eq (h : a ∈ x.attempt) : x.latest = a.token := by
  rw [StreamState.latest, h, Option.elim_some]

theorem known_cons (hx : x.attempt = some a) :
    Known (x :: before) x a ↔ a.ended ≠ none ∨ Known before x a := by
  simp [Known, hx, or_left_comm]

variable (before x r) in
/-- The budget adopted for `x`, before the end that it may show is noted. -/
abbrev Adopted : Prop :=
  Tracks before (if Fresh before x then [] else failed before) x r

/-- Noting the end that `x` shows counts it if it is a new failure. -/
theorem Tracks.noteEnd (h : Adopted before x r) :
    Tracks (x :: before) (failed (x :: before)) x (noteEnd x r) := by
  have hsame (hend : ∀ a ∈ x.attempt, a.ended ≠ none → Known before x a) :
      Tracks (x :: before) (failed (x :: before)) x r := by
    have hn : newEnd before x = none := by
      refine Option.eq_none_iff_forall_ne_some.2 fun a ha => ?_
      obtain ⟨hx, he, hk⟩ := newEnd_eq_some.1 ha
      exact hk (hend a hx he)
    refine { h with failures := by simpa [failed, hn] using h.failures, mark := fun a ha => ?_ }
    rw [h.mark a ha, known_cons ha, or_iff_right_of_imp (hend a ha)]
  unfold Supervisor.noteEnd
  split
  next token run revision reason hx =>
    have hm := h.mark _ hx
    by_cases ht : token = r.endedToken
    · rw [if_neg (not_not.2 ht)]
      refine hsame fun a ha _ => ?_
      cases hx.symm.trans ha
      exact hm.1 ht
    have hn := newEnd_eq_some.2 ⟨hx, by simp, mt hm.2 ht⟩
    rw [if_pos ht]
    refine { h with failures := ?_, mark := fun a ha => ?_, le := (latest_eq hx).ge }
    · simp only [failed, hn, Option.getD_some, h.failures]
      split_ifs <;> rfl
    · cases hx.symm.trans ha
      simp [known_cons ha]
  next hx =>
    refine hsame fun ⟨token, run, revision, ended⟩ ha he => ?_
    obtain ⟨reason, rfl⟩ := Option.ne_none_iff_exists'.1 he
    exact absurd ha (hx token run revision reason)

/-- The budget of a stream counts what its snapshots show. -/
def Counts : List StreamState → Option RetryState → Prop
  | [], budget => budget = none
  | x :: before, budget =>
    ∃ r, budget = some r ∧ Tracks (x :: before) (failed (x :: before)) x r

theorem Counts.failures (h : Counts calls budget) :
    budget.elim 0 RetryState.failures = (failed calls).length := by
  cases calls with
  | nil => cases h; rfl
  | cons x before =>
    obtain ⟨r, rfl, hr⟩ := h
    exact hr.failures

theorem noteEpoch_eq (h : x.lastEpoch = 0 → r.epoch = 0) : noteEpoch x r = { r with
    epoch := x.lastEpoch, failures := if x.lastEpoch = r.epoch then r.failures else 0 } := by
  unfold noteEpoch
  by_cases he : x.lastEpoch = r.epoch
  · simp [he]
  · simp [he, show x.lastEpoch ≠ 0 from fun h0 => he (h0.trans (h h0).symm)]

/-- A new budget knows nothing but the attempt of an older revision that `x` may show. -/
theorem tracks_new (hnew : Fresh before x) (hlt : ∀ y ∈ before, y.revision < x.revision)
    (hf : ∀ y ∈ before, Follows y x)
    (hr : (budget.filter fun r => r.run = x.run ∧ r.revision = x.revision) = none) :
    Adopted before x (noteEpoch x (adopt x budget)) := by
  have hknown {a} (ha : a ∈ x.attempt) : Known before x a ↔ a.revision ≠ x.revision := by
    refine or_iff_left_of_imp ?_
    rintro ⟨y, hy, b, hb, ht, -⟩
    have := (y.own b hb).2.2
    have := (hf y hy).same b hb a ha ht
    have := hlt y hy
    omega
  simp only [Adopted, if_pos hnew, adopt, hr]
  rw [noteEpoch_eq fun _ => rfl]
  refine ⟨rfl, rfl, rfl, by simp, fun a ha => ?_, ?_⟩
  · have := (x.own a ha).1
    rw [hknown ha, ha]
    by_cases hrev : a.revision = x.revision <;> simp [hrev, Option.filter]
    omega
  · unfold StreamState.latest
    cases x.attempt with
    | none => simp
    | some a => by_cases hrev : a.revision = x.revision <;> simp [hrev, Option.filter]

theorem Counts.adopted (hf : (x :: before).Pairwise fun y x => Follows x y)
    (h : Counts before budget) : Adopted before x (noteEpoch x (adopt x budget)) := by
  obtain ⟨hf, hrest⟩ := pairwise_cons.1 hf
  cases before with
  | nil =>
    cases h
    exact tracks_new nofun nofun nofun rfl
  | cons y rest =>
    obtain ⟨r, rfl, hr⟩ := h
    have hfy := hf y (.head _)
    have hmono (z) (hz : z ∈ y :: rest) :
        z.revision ≤ y.revision ∧ (z.revision = y.revision → z.latest ≤ y.latest) := by
      rcases mem_cons.1 hz with rfl | hz
      · exact ⟨le_rfl, fun _ => le_rfl⟩
      · have hzy := rel_of_pairwise_cons hrest hz
        exact ⟨hzy.revision, hzy.latest⟩
    by_cases hs : r.run = x.run ∧ r.revision = x.revision
    · have hrev : y.revision = x.revision := hr.revision.symm.trans hs.2
      have hrun : y.run = x.run := hr.run.symm.trans hs.1
      have hepoch : x.lastEpoch = 0 → r.epoch = 0 := fun h0 =>
        hr.epoch.trans (Nat.le_zero.1 (h0 ▸ hfy.epoch hrev))
      rw [show adopt x (some r) = r by simp [adopt, Option.filter, hs], noteEpoch_eq hepoch]
      refine ⟨hs.1, hs.2, rfl, ?_, fun a ha => ?_, hr.le.trans (hfy.latest hrev)⟩
      · by_cases he : y.lastEpoch = x.lastEpoch
        · simp [hr.epoch, he, hr.failures, Fresh, hrev, hrun]
        · simp [hr.epoch, he, Ne.symm he, Fresh]
      · rcases (latest_eq ha ▸ hfy.latest hrev).eq_or_lt with heq | hlt
        · -- the attempt of the snapshot before
          obtain ⟨c, hc⟩ : ∃ c, y.attempt = some c := by
            refine Option.ne_none_iff_exists'.1 fun hy => ?_
            rw [StreamState.latest, hy, Option.elim_none] at heq
            exact (x.own a ha).1.ne heq
          have hct := (latest_eq hc).symm.trans heq
          rw [← hct, hr.mark c hc]
          simp [Known, hct, hfy.same c hc a ha hct, hrev]
        · -- a later one, of this revision, that no snapshot has shown
          have har := hfy.started hrev (latest_eq ha ▸ hlt) a ha
          refine iff_of_false (hr.le.trans_lt hlt).ne' ?_
          rintro (hold | ⟨z, hz, c, hc, hct, -⟩)
          · exact hold har
          have := hmono z hz
          have := latest_eq hc
          have := (z.own c hc).2.2
          have := (hf z hz).same c hc a ha hct
          omega
    · have hlt : y.revision < x.revision := by
        refine lt_of_le_of_ne hfy.revision fun he => hs ?_
        rw [hr.run, hr.revision]
        exact ⟨hfy.run he, he⟩
      refine tracks_new ?_ (fun z hz => (hmono z hz).1.trans_lt hlt) hf
        (by simpa [Option.filter] using hs)
      simp [Fresh, hlt.ne]

/-! ### The calls -/

theorem after_cons (hx : x.desired = .enabled) (id : String) : after (x :: before) id =
    if id = x.id then some (noteEnd x (noteEpoch x (adopt x (after before x.id))))
    else after before id := by
  simp [after, retryPolicy, hx, Function.update_apply]

/-- **After every call the budget of every stream counts what the snapshots of the stream show.** -/
theorem Snapshots.counts (h : Snapshots calls) (id : String) :
    Counts (calls.filter fun x => x.id = id) (after calls id) := by
  induction calls with
  | nil => rfl
  | cons x before ih =>
    have ih := ih ⟨fun y hy => h.enabled y (.tail _ hy), (pairwise_cons.1 h.follows).2⟩
    rw [after_cons (h.enabled x (.head _))]
    by_cases hid : x.id = id
    · subst hid
      have hf := h.follows.filter fun y => y.id = x.id
      rw [filter_cons_of_pos (by simp)] at hf ⊢
      rw [if_pos rfl]
      refine ⟨_, rfl, (ih.adopted (hf.imp_of_mem fun hy hz hyz => hyz ?_)).noteEnd⟩
      have hsame : ∀ y ∈ x :: before.filter fun y => y.id = x.id, y.id = x.id := by simp
      rw [hsame _ hy, hsame _ hz]
    · rw [filter_cons_of_neg (by simpa using hid), if_neg (Ne.symm hid)]
      exact ih

theorem answer_spec (yielded : Bool) (n : ℕ) : ((answer yielded n).2 = true ↔ 5 < n) ∧
    ((answer yielded n).2 = false → (answer yielded n).1.toInt =
      if yielded ∧ n = 0 then 0 else 5000000000 * 2 ^ (n - 1)) := by
  rcases Nat.lt_or_ge 5 n with hn | hn
  · simp [answer, maxRetries, hn]
  · interval_cases n <;> cases yielded <;> decide

/-- The budget of every stream counts the distinct attempts seen to fail since the last reset, all of
the run and revision of its latest snapshot.  A call reports exhaustion beyond five failures, and up to
five the delay is five seconds, doubled per further failure, or none after an attempt that yielded for
an upgrade. -/
theorem retry_budget_counted (h : Snapshots (x :: before)) :
    (∀ id, let shown := (x :: before).filter fun x => x.id = id
      (after (x :: before) id).elim 0 RetryState.failures = (failed shown).length ∧
      ((failed shown).map Attempt.token).Nodup ∧
      ∀ a ∈ failed shown, (∀ y ∈ shown.head?, a.run = y.run ∧ a.revision = y.revision) ∧
        (∃ reason, a.ended = some reason ∧ ¬ Clean reason) ∧ ∃ y ∈ shown, y.attempt = some a) ∧
    let count := (failed ((x :: before).filter fun y => y.id = x.id)).length
    let call := (retryPolicy (after before) x).2
    (call.2 = true ↔ 5 < count) ∧ (call.2 = false → call.1.toInt =
      if x.yielded ∧ count = 0 then 0 else 5000000000 * 2 ^ (count - 1)) := by
  constructor
  · intro id shown
    exact ⟨(h.counts id).failures, nodup_failed shown, fun a ha =>
      ⟨fun y => failed_own ha, failed_shown ha⟩⟩
  · have hx := h.enabled x (.head _)
    have hcount := (h.counts x.id).failures
    rw [after_cons hx, if_pos rfl, Option.elim_some] at hcount
    simp only [retryPolicy, hx, ne_eq, not_true, if_false, ← hcount]
    exact answer_spec ..

/-- A snapshot of a stream with its first attempt. -/
def firstAttempt (ended : Option String) : StreamState :=
  ⟨"s", .enabled, "r", 1, 0, some ⟨1, "r", 1, ended⟩, by simp⟩

/-- Two passes over a stream whose first attempt fails between them. -/
theorem retry_budget_counted_twice : let live := firstAttempt none
    let ended := firstAttempt (some "timeout")
    Snapshots [ended, live] ∧ ((retryPolicy (after [live]) ended).2.2 = true ↔
      5 < (failed ([ended, live].filter fun y => y.id = ended.id)).length) := by
  intro live ended
  have h : Snapshots [ended, live] := ⟨by simp [live, ended, firstAttempt], by
    simpa [live, ended, firstAttempt] using
      ⟨by simp, by simp, by simp, by simp [StreamState.latest], by simp [StreamState.latest], by simp⟩⟩
  exact ⟨h, (retry_budget_counted h).2.1⟩

/-- An attempt that yielded for an upgrade is followed at once, not after five seconds. -/
theorem yielded_restarts_at_once : let x := firstAttempt (some attemptReasonUpgrade)
    Snapshots [x] ∧ failed [x] = [] ∧ (retryPolicy (after []) x).2 = (0, false) ∧
      (0 : Int64) ≠ 5 * second :=
  ⟨⟨by simp [firstAttempt], by simp⟩, by decide, by decide, by decide⟩

end Filament.Supervisor
