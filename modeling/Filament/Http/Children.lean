import Filament.Http.WholeList
import Filament.Lib.Trace

/-!
# Reading children after an interruption

A top-level resource captures parents while its pages are read, and its child resources are read
afterwards, once for every captured parent.  A resource with `for_each_config` is read once for each
value of the configuration.  The captures are in memory only.  An attempt that is
interrupted leaves at most a position of the parent's pages, and the next attempt starts there.

* `FanOut`: a parent resource, its children, and the fixed answers of the server;
* `World`, `Event`, `step`: attempts, their requests in any order, and their interruptions;
* `scopes`: the captures a resource is read with;
* `Delivered`: every record of every child of every parent has been emitted;
* `Inv`, `Inv.step`: what the attempts that start from the first page keep;
* `children_delivered`: the children after a completed attempt.
-/

namespace Filament.Http.Children

open Pagination List

/-- A parent resource with its children, and what the server answers. `capture` gives the fields that
the children's requests need, and `addressable` says that none of a child's path parameters is
empty. `forEachConfig` has the key of a resource (`none` is the parent) with the configured values, split
and trimmed, and `put` sets a field of a capture. -/
structure FanOut (ρ κ ι : Type) where
  parseLinkHeader : String → String → String
  noCapture : κ
  put : String → String → κ → κ
  forEachConfig : Option ι → Option (String × List String)
  parent : ReadSpec
  parentPages : κ → State → Except String (Page ρ)
  capture : κ → ρ → Option κ
  children : List ι
  child : ι → ReadSpec
  childPages : ι → κ → State → Except String (Page ρ)
  addressable : ι → κ → Bool

/-- The read of one child of one parent; `outcome` is set when it has ended. -/
structure Task (ρ κ ι : Type) where
  child : ι
  parent : κ
  loop : Loop ρ
  outcome : Option (Except String Unit)

/-- An attempt: the scopes of the parent that are left, the first one being read, the records of those
before, and then the tasks of the children. Every scope starts with `start`. -/
structure Attempt (ρ κ ι : Type) where
  start : Loop ρ
  scopes : List κ
  loop : Loop ρ := start
  read : List (κ × Emitted ρ) := []
  failed : Bool := false
  tasks : Option (List (Task ρ κ ι)) := none

/-- The durable position of the parent's pages, the attempt in progress, the child records of all
attempts, and whether an attempt has completed. -/
structure World (ρ κ ι : Type) where
  durable : State
  attempt : Option (Attempt ρ κ ι)
  emitted : List (ι × κ × ρ)
  completed : Bool

/-- What can happen. An interruption makes the position of one of the parent's records durable, or
none. -/
inductive Event where
  | starts
  | readsParent
  | readsChild (i : ℕ)
  | completes
  | interrupts (record : Option ℕ)
  deriving DecidableEq, Repr

variable {ρ κ ι : Type} (m : FanOut ρ κ ι)

/-- What `readResource` reads a resource with: each distinct value of its `for_each_config` once. -/
def scopes (resource : Option ι) (q : κ) : List κ :=
  match m.forEachConfig resource with
  | none => [q]
  | some (key, values) => (values.filter (· ≠ "")).eraseDups.map fun value => m.put key value q

/-- The loop of the parent at the start of an attempt. -/
def parentLoop (durable : State) : Loop ρ :=
  initialPaginationState m.parent (if m.parent.restartOnResume then {} else durable) ""

/-- The loop of a child; children always start from scratch. -/
def childLoop (c : ι) : Loop ρ := initialPaginationState (m.child c) {} ""

/-- The tasks of the captured parents. -/
def tasks (captured : List κ) : List (Task ρ κ ι) :=
  m.children.flatMap fun c =>
    ((captured.filter (m.addressable c)).flatMap (scopes m (some c))).map fun q =>
      ⟨c, q, childLoop m c, none⟩

/-- The captures of the parent's records. -/
def captures (read : List (κ × Emitted ρ)) : List κ :=
  read.filterMap fun (scope, e) => m.capture scope e.record

/-- One request of the parent's loop; after the last scope, the children are next. -/
def readsParent (a : Attempt ρ κ ι) : Attempt ρ κ ι :=
  if a.failed || a.tasks.isSome then a
  else
    match a.scopes with
    | [] => { a with tasks := some (tasks m (captures m a.read)) }
    | scope :: rest =>
      match Http.step m.parseLinkHeader m.parent (m.parentPages scope) a.loop with
      | .inl loop => { a with loop := loop }
      | .inr o =>
        let a := { a with loop := a.start, scopes := rest, read := a.read ++ o.emitted.map (scope, ·) }
        match o.result with
        | .ok _ => a
        | .error _ => { a with failed := true }

/-- One request of a child's loop, and the records it emits. -/
def readTask (t : Task ρ κ ι) : Task ρ κ ι × List ρ :=
  match Http.step m.parseLinkHeader (m.child t.child) (m.childPages t.child t.parent) t.loop with
  | .inl loop =>
    ({ t with loop := loop }, (loop.emitted.drop t.loop.emitted.length).map Emitted.record)
  | .inr o =>
    ({ t with outcome := some o.result },
      (o.emitted.drop t.loop.emitted.length).map Emitted.record)

/-- A request of the task with index `i`, if it has not ended. -/
def readsChild (i : ℕ) (a : Attempt ρ κ ι) (w : World ρ κ ι) : World ρ κ ι :=
  match a.tasks with
  | none => w
  | some ts =>
    match ts[i]? with
    | none => w
    | some t =>
      if t.outcome.isSome then w
      else
        let (t', records) := readTask m t
        { w with
          attempt := some { a with tasks := some (ts.set i t') }
          emitted := w.emitted ++ records.map fun record => (t.child, t.parent, record) }

/-- Every task of the attempt has ended without an error. -/
def Attempt.isDone (a : Attempt ρ κ ι) : Bool :=
  match a.tasks with
  | none => false
  | some ts => ts.all fun t => match t.outcome with
    | some (.ok _) => true
    | _ => false

/-- One event; an event that does not apply changes nothing. -/
def step (w : World ρ κ ι) : Event → World ρ κ ι
  | .starts =>
    if w.attempt.isNone && !w.completed then
      { w with attempt := some { start := parentLoop m w.durable, scopes := scopes m none m.noCapture } }
    else w
  | .readsParent => { w with attempt := w.attempt.map (readsParent m) }
  | .readsChild i =>
    match w.attempt with
    | none => w
    | some a => readsChild m i a w
  | .completes =>
    match w.attempt with
    | none => w
    | some a => if a.isDone then { w with attempt := none, completed := true } else w
  | .interrupts record =>
    match w.attempt with
    | none => w
    | some a =>
      let emitted := a.read.map Prod.snd ++ a.loop.emitted
      let position := record.bind fun i => emitted[i]?.bind Emitted.key
      { w with attempt := none, durable := position.getD w.durable }

/-- The world before the first attempt. -/
def World.start : World ρ κ ι := ⟨{}, none, [], false⟩

/-- The server returns a parent for which the child is read with `q`. -/
def Owed (c : ι) (q : κ) : Prop :=
  ∃ scope ∈ scopes m none m.noCapture, ∃ fuel o, paginate m.parseLinkHeader m.parent
      (m.parentPages scope) fuel (parentLoop m {}) = some o ∧
    ∃ e ∈ o.emitted, ∃ captured ∈ m.capture scope e.record,
      c ∈ m.children ∧ m.addressable c captured = true ∧ q ∈ scopes m (some c) captured

/-- **Every record of every child of every parent the server returns has been emitted.** -/
def Delivered (emitted : List (ι × κ × ρ)) : Prop :=
  ∀ c q, Owed m c q → ∀ fuel o,
    paginate m.parseLinkHeader (m.child c) (m.childPages c q) fuel (childLoop m c) = some o →
      ∀ e ∈ o.emitted, (c, q, e.record) ∈ emitted

/-- The attempt about to start reads the parent from its first page. -/
def FromFirstPage (w : World ρ κ ι) : Event → Prop
  | .starts => (parentLoop m w.durable).state = (parentLoop m {}).state
  | _ => True

/-! ### Loops in progress -/

variable {m} {w : World ρ κ ι} {a : Attempt ρ κ ι} {t : Task ρ κ ι}
  {parseLinkHeader : String → String → String} {res : ReadSpec}
  {pages : State → Except String (Page ρ)}

variable (parseLinkHeader res pages) in
/-- What the loop returns, the read from `first` returns. -/
def Continues (first loop : Loop ρ) : Prop :=
  ∀ fuel o, paginate parseLinkHeader res pages fuel loop = some o →
    ∃ fuel', paginate parseLinkHeader res pages fuel' first = some o

theorem Continues.next {first loop next : Loop ρ}
    (h : Continues parseLinkHeader res pages first loop)
    (hstep : Http.step parseLinkHeader res pages loop = .inl next) :
    Continues parseLinkHeader res pages first next := by
  intro fuel o ho
  exact h (fuel + 1) o ((paginate_of_next hstep fuel).trans ho)

theorem Continues.returns {first loop : Loop ρ} {o : Outcome ρ}
    (h : Continues parseLinkHeader res pages first loop)
    (hstep : Http.step parseLinkHeader res pages loop = .inr o) :
    ∃ fuel, paginate parseLinkHeader res pages fuel first = some o :=
  h 1 o (paginate_of_outcome hstep 0)

/-- An attempt that starts from the first page reads the parent as a fresh one does. -/
theorem continues_parentLoop {durable : State}
    (h : (parentLoop m durable).state = (parentLoop m {}).state) (scope : κ) :
    Continues m.parseLinkHeader m.parent (m.parentPages scope) (parentLoop m {})
      (parentLoop m durable) := by
  intro fuel o ho
  have heq : parentLoop m durable =
      { parentLoop m {} with resumed := (parentLoop m durable).resumed } := by
    simp only [← h]
    rfl
  rw [heq] at ho
  refine paginate_of_resumed ?_ ?_ ho
  · simp [parentLoop, initialPaginationState]
  · intro pag hpag hstrict
    have htoken : m.parent.tokenMode = false := by
      simp only [ReadSpec.strictCursor, Bool.or_eq_false_iff] at hstrict
      exact hstrict.1
    simp [parentLoop, initialPaginationState, hpag, htoken]

/-! ### The invariant -/

variable {emitted emitted' : List (ι × κ × ρ)}

variable (m emitted) in
/-- What is known of a task: it reads its child from scratch, and its records have been emitted. -/
structure TaskInv (t : Task ρ κ ι) : Prop where
  sent : t.outcome = none → ∀ e ∈ t.loop.emitted, (t.child, t.parent, e.record) ∈ emitted
  continues : t.outcome = none → Continues m.parseLinkHeader (m.child t.child)
    (m.childPages t.child t.parent) (childLoop m t.child) t.loop
  ended : t.outcome = some (.ok ()) → ∃ fuel o, paginate m.parseLinkHeader (m.child t.child)
    (m.childPages t.child t.parent) fuel (childLoop m t.child) = some o ∧
    ∀ e ∈ o.emitted, (t.child, t.parent, e.record) ∈ emitted

theorem TaskInv.mono (h : TaskInv m emitted t) (hsub : emitted ⊆ emitted') :
    TaskInv m emitted' t where
  sent hnone e he := hsub (h.sent hnone e he)
  continues := h.continues
  ended hok := by
    obtain ⟨fuel, o, ho, hsent⟩ := h.ended hok
    exact ⟨fuel, o, ho, fun e he => hsub (hsent e he)⟩

variable (m emitted) in
/-- What is known of an attempt: it reads the parent from its first page in every scope, and it has a
task for every captured parent. -/
structure AttemptInv (a : Attempt ρ κ ι) : Prop where
  start : ∀ scope,
    Continues m.parseLinkHeader m.parent (m.parentPages scope) (parentLoop m {}) a.start
  continues : a.tasks = none → a.failed = false → ∀ scope ∈ a.scopes.head?,
    Continues m.parseLinkHeader m.parent (m.parentPages scope) (parentLoop m {}) a.loop
  read : a.failed = false → ∀ scope ∈ scopes m none m.noCapture, scope ∉ a.scopes → ∀ fuel o,
    paginate m.parseLinkHeader m.parent (m.parentPages scope) fuel (parentLoop m {}) = some o →
      ∀ e ∈ o.emitted, (scope, e) ∈ a.read
  covers : ∀ ts, a.tasks = some ts → ∀ c q, Owed m c q → ∃ t ∈ ts, t.child = c ∧ t.parent = q
  tasks : ∀ ts, a.tasks = some ts → ∀ t ∈ ts, TaskInv m emitted t

variable (m w) in
/-- The attempt in progress is as it should be, and a completed one has delivered everything. -/
structure Inv : Prop where
  attempt : ∀ a, w.attempt = some a → AttemptInv m w.emitted a
  completed : w.completed = true → Delivered m w.emitted

theorem inv_start : Inv m (World.start : World ρ κ ι) := ⟨nofun, nofun⟩

theorem taskInv_of_mem_tasks {captured : List κ} (h : t ∈ tasks m captured) :
    TaskInv m emitted t := by
  obtain ⟨c, -, ht⟩ := mem_flatMap.1 h
  obtain ⟨q, -, rfl⟩ := mem_map.1 ht
  exact ⟨fun _ => nofun, fun _ fuel o ho => ⟨fuel, ho⟩, nofun⟩

theorem mem_tasks {c : ι} {q captured : κ} {all : List κ} (hc : c ∈ m.children)
    (hcaptured : captured ∈ all) (haddr : m.addressable c captured = true)
    (hq : q ∈ scopes m (some c) captured) : ⟨c, q, childLoop m c, none⟩ ∈ tasks m all :=
  mem_flatMap.2 ⟨c, hc, mem_map_of_mem
    (mem_flatMap.2 ⟨captured, mem_filter.2 ⟨hcaptured, haddr⟩, hq⟩)⟩

theorem AttemptInv.readsParent (h : AttemptInv m emitted a) :
    AttemptInv m emitted (readsParent m a) := by
  unfold Children.readsParent
  split_ifs with hskip
  · exact h
  simp only [Bool.or_eq_true, Option.isSome_iff_ne_none, not_or, Bool.not_eq_true, not_not] at hskip
  have hcontinues := h.continues hskip.2 hskip.1
  have hread := h.read hskip.1
  cases hscopes : a.scopes with
  | nil =>
    rw [hscopes] at hread
    refine ⟨h.start, nofun, fun _ => hread, fun ts hts c q howed => ?_, fun ts hts => ?_⟩
    · cases hts
      obtain ⟨scope, hscope, fuel, o, ho, e, he, captured, hcap, hc, haddr, hq⟩ := howed
      have hmem := hread scope hscope not_mem_nil fuel o ho e he
      exact ⟨_, mem_tasks hc (mem_filterMap.2 ⟨_, hmem, hcap⟩) haddr hq, rfl, rfl⟩
    · cases hts
      exact fun t ht => taskInv_of_mem_tasks ht
  | cons scope rest =>
    rw [hscopes] at hcontinues hread
    have hcontinues := hcontinues scope rfl
    simp only
    cases hstep : Http.step m.parseLinkHeader m.parent (m.parentPages scope) a.loop with
    | inl next =>
      refine ⟨h.start, fun _ _ scope' hscope' => ?_, fun _ => hread, h.covers, h.tasks⟩
      obtain rfl := Option.some.inj hscope'
      exact hcontinues.next hstep
    | inr o =>
      obtain ⟨fuel, ho⟩ := hcontinues.returns hstep
      simp only
      cases o.result with
      | error e => exact ⟨h.start, nofun, nofun, h.covers, h.tasks⟩
      | ok u =>
        refine ⟨h.start, fun _ _ scope' _ => h.start scope', fun _ scope' hscope' hrest => ?_,
          h.covers, h.tasks⟩
        intro fuel' o' ho' e he
        by_cases heq : scope' = scope
        · subst heq
          obtain rfl := paginate_det ho ho'
          exact mem_append_right _ (mem_map_of_mem he)
        · exact mem_append_left _ (hread scope' hscope' (by simp [heq, hrest]) fuel' o' ho' e he)

theorem mem_emitted {c : ι} {q : κ} {old new : List (Emitted ρ)} {e : Emitted ρ}
    (hsent : old <+: new) (hold : ∀ e ∈ old, (c, q, e.record) ∈ emitted) (he : e ∈ new) :
    (c, q, e.record) ∈ emitted ++
      ((new.drop old.length).map Emitted.record).map fun record => (c, q, record) := by
  obtain ⟨rest, rfl⟩ := hsent
  rw [drop_left]
  rcases mem_append.1 he with he | he
  · exact mem_append_left _ (hold e he)
  · exact mem_append_right _ (mem_map.2 ⟨e.record, mem_map_of_mem he, rfl⟩)

theorem TaskInv.readTask (h : TaskInv m emitted t) (hnone : t.outcome = none) :
    TaskInv m (emitted ++ (readTask m t).2.map fun record => (t.child, t.parent, record))
      (readTask m t).1 := by
  have hafter := @step_after ρ m.parseLinkHeader (m.child t.child) (m.childPages t.child t.parent)
    t.loop
  unfold Children.readTask
  cases hstep : Http.step m.parseLinkHeader (m.child t.child) (m.childPages t.child t.parent)
      t.loop with
  | inl next =>
    rw [hstep] at hafter
    refine ⟨fun _ e he => ?_, fun _ => (h.continues hnone).next hstep, fun hok => ?_⟩
    · exact mem_emitted hafter (h.sent hnone) he
    · rw [hnone] at hok
      cases hok
  | inr o =>
    rw [hstep] at hafter
    refine ⟨nofun, nofun, fun _ => ?_⟩
    obtain ⟨fuel, ho⟩ := (h.continues hnone).returns hstep
    exact ⟨fuel, o, ho, fun e he => mem_emitted hafter (h.sent hnone) he⟩

theorem readTask_names (t : Task ρ κ ι) :
    (readTask m t).1.child = t.child ∧ (readTask m t).1.parent = t.parent := by
  unfold readTask
  split <;> exact ⟨rfl, rfl⟩

theorem Inv.readsChild (h : Inv m w) (ha : w.attempt = some a) (i : ℕ) :
    Inv m (readsChild m i a w) := by
  obtain ⟨hstart, -, hread, hcovers, htasks⟩ := h.attempt a ha
  unfold Children.readsChild
  cases hts : a.tasks with
  | none => exact h
  | some ts =>
    simp only
    cases hi : ts[i]? with
    | none => exact h
    | some t =>
      simp only
      split_ifs with hended
      · exact h
      have hnone : t.outcome = none := Option.not_isSome_iff_eq_none.1 hended
      have ht := htasks ts hts t (mem_of_getElem? hi)
      have hsub : w.emitted ⊆ w.emitted ++ (readTask m t).2.map fun record =>
          (t.child, t.parent, record) := subset_append_left ..
      refine ⟨fun a' ha' => ?_, fun hdone => ?_⟩
      · cases ha'
        refine ⟨hstart, nofun, hread, fun ts' hts' c q howed => ?_, fun ts' hts' t' ht' => ?_⟩
        · cases hts'
          obtain ⟨t₀, ht₀, rfl, rfl⟩ := hcovers ts hts c q howed
          obtain ⟨j, hj⟩ := mem_iff_getElem?.mp ht₀
          by_cases hij : i = j
          · subst hij
            obtain rfl := Option.mem_unique hi hj
            have hlt := (List.getElem?_eq_some_iff.1 hi).1
            exact ⟨(readTask m t).1, mem_set hlt _, readTask_names t⟩
          · exact ⟨t₀, mem_iff_getElem?.mpr ⟨j, by rw [getElem?_set_ne hij, hj]⟩, rfl, rfl⟩
        · cases hts'
          rcases mem_or_eq_of_mem_set ht' with hold | rfl
          · exact (htasks ts hts t' hold).mono hsub
          · exact ht.readTask hnone
      · exact fun c q howed fuel o ho e he => hsub (h.completed hdone c q howed fuel o ho e he)

theorem AttemptInv.delivered (h : AttemptInv m emitted a) (hdone : a.isDone = true) :
    Delivered m emitted := by
  cases hts : a.tasks with
  | none => simp [Attempt.isDone, hts] at hdone
  | some ts =>
    intro c q howed fuel o ho e he
    obtain ⟨t, ht, rfl, rfl⟩ := h.covers ts hts c q howed
    have hok : t.outcome = some (.ok ()) := by
      simp only [Attempt.isDone, hts, all_eq_true] at hdone
      have := hdone t ht
      split at this
      · assumption
      · cases this
    obtain ⟨fuel₁, o₁, ho₁, hsent⟩ := (h.tasks ts hts t ht).ended hok
    obtain rfl := paginate_det ho ho₁
    exact hsent e he

/-- **One event keeps the invariant, if attempts start from the first page.** -/
theorem Inv.step (h : Inv m w) {e : Event} (he : FromFirstPage m w e) : Inv m (step m w e) := by
  cases e with
  | starts =>
    simp only [Children.step]
    split_ifs
    · refine ⟨fun a ha => ?_, h.completed⟩
      cases ha
      exact ⟨continues_parentLoop he, fun _ _ scope _ => continues_parentLoop he scope,
        fun _ _ hscope hnot => absurd hscope hnot, nofun, nofun⟩
    · exact h
  | readsParent =>
    refine ⟨fun a ha => ?_, h.completed⟩
    obtain ⟨a₀, ha₀, rfl⟩ := Option.map_eq_some_iff.1 ha
    exact (h.attempt a₀ ha₀).readsParent
  | readsChild i =>
    simp only [Children.step]
    cases ha : w.attempt with
    | none => exact h
    | some a => exact h.readsChild ha i
  | completes =>
    simp only [Children.step]
    cases ha : w.attempt with
    | none => exact h
    | some a =>
      exact Trace.guarded h fun hdone => ⟨nofun, fun _ => (h.attempt a ha).delivered hdone⟩
  | interrupts record =>
    simp only [Children.step]
    cases ha : w.attempt with
    | none => exact h
    | some a => exact ⟨nofun, h.completed⟩

/-- **A completed read has delivered every child, if every attempt reads the parent from its first
page.**  Over any number of attempts, any order of the children's requests and any interruptions. -/
theorem children_delivered (m : FanOut ρ κ ι) (events : List Event)
    (h : Trace.Along (step m) (FromFirstPage m) World.start events)
    (hcompleted : (Trace.run (step m) World.start events).completed = true) :
    Delivered m (Trace.run (step m) World.start events).emitted := by
  have hinv : Inv m (Trace.run (step m) World.start events) :=
    Trace.inv_run_of_along (fun _ _ hinv he => hinv.step he) inv_start h
  exact hinv.completed hcompleted

section Witness

/-- Pages of one item. -/
private def oneByOne : Numbered := .page ⟨1, "", "", by decide⟩

/-- Two parents with one child record each. -/
private def teams : FanOut ℕ ℕ Unit where
  parseLinkHeader := fun _ _ => ""
  noCapture := 0
  put := fun _ _ q => q
  forEachConfig := fun _ => none
  parent := listRead oneByOne "teams"
  parentPages := fun _ => listServer oneByOne false [.object 1, .object 2]
  capture := fun _ => some
  children := [()]
  child := fun _ => listRead oneByOne "members"
  childPages := fun _ q => listServer oneByOne false [.object (10 * q)]
  addressable := fun _ _ => true

/-- The first attempt is interrupted with no durable position, and the second completes. -/
private def fromTheStart : List Event :=
  [.starts, .readsParent, .interrupts none, .starts, .readsParent, .readsParent, .readsParent,
   .readsParent, .readsChild 0, .readsChild 1, .readsChild 0, .readsChild 1, .completes]

/-- The first attempt is interrupted on the second page, whose position is durable. -/
private def fromSecondPage : List Event :=
  [.starts, .readsParent, .readsParent, .interrupts (some 1), .starts, .readsParent, .readsParent,
   .readsParent, .readsChild 0, .readsChild 0, .completes]

/-- An attempt that starts over delivers the members of both teams. -/
theorem restarted_read_delivers :
    (Trace.run (step teams) World.start fromTheStart).completed = true ∧
      Delivered teams (Trace.run (step teams) World.start fromTheStart).emitted := by
  have hcompleted : (Trace.run (step teams) World.start fromTheStart).completed = true := by
    decide
  refine ⟨hcompleted, children_delivered teams fromTheStart ?_ hcompleted⟩
  exact ⟨rfl, trivial, trivial, rfl, trivial, trivial, trivial, trivial, trivial, trivial, trivial,
    trivial, trivial, trivial⟩

/-- The attempt resumed on the second page captures only the second team: the members of the first are
never read. -/
theorem resumed_read_loses_children :
    (Trace.run (step teams) World.start fromSecondPage).completed = true ∧
      (Trace.run (step teams) World.start fromSecondPage).emitted = [((), 2, 20)] ∧
      ¬ Delivered teams (Trace.run (step teams) World.start fromSecondPage).emitted := by
  refine ⟨by decide, by decide, fun hdelivered => ?_⟩
  have howed : Owed teams () 1 := ⟨0, mem_cons_self, 3, _, rfl, ⟨1, some { page := 1 }⟩, mem_cons_self,
    1, rfl, mem_cons_self, rfl, mem_cons_self⟩
  have hmember := hdelivered () 1 howed 2 _ rfl ⟨10, some { page := 1 }⟩ mem_cons_self
  revert hmember
  decide

end Witness

end Filament.Http.Children
