import Mathlib.Order.Lattice
import Filament.Lib.Lists
import Filament.Lib.Trace

/-!
# The watermark of an incremental read

An incremental resource is read by one request sequence, or by one for every parent.  Each sequence
has its own tracker and its own read guard; the rows of all of them pass one reducer, which replaces
the key of a row by the maximum seen so far.  The key of the last row is what a commit stores.  With
`commit_on_complete` the rows carry no key, and only the end of the read gives one.

* `Scan`: a resource, the watermark it starts from, and the records of its request sequences;
* `Guard`, `World`, `Event`, `step`: the sequences in any interleaving, the row limit, the commits;
* `Covers`: no record below a committed watermark is missing;
* `Inv`, `Inv.step`: what the guards, the reducer and the emitted records have to do with each
  other;
* `committed_watermark_covers`: the committed watermarks.
-/

namespace Filament.Http.Watermark

open List

variable {ρ κ : Type} [LinearOrder κ]

/-- The incremental read of a resource. `seed` is the watermark the run starts from, `lower` the bound
it requests, and `sequences` the records the server returns, one list for each request sequence; a
record may lack a cursor, or be disabled.  `primaryKey` is set when a repeated key is an error.
A resource with `commit_on_complete` has no parent. -/
structure Scan (ρ κ : Type) [LinearOrder κ] where
  cursor : ρ → Option κ
  enabled : ρ → Bool
  primaryKey : Option (ρ → String)
  seed : Option κ
  lower : Option κ
  commitOnComplete : Bool
  limit : ℕ
  sequences : List (List ρ)
  ordered : ∀ s ∈ sequences, s.Pairwise fun r r' => ∀ v ∈ cursor r, ∀ v' ∈ cursor r', v ≤ v'
  topLevel : commitOnComplete = true → sequences.length = 1

/-- How far a request sequence is. -/
inductive Phase where
  | reading
  | complete
  | limited
  | failed
  deriving DecidableEq, Repr

/-- A request sequence with its tracker and its read guard. `sent` are the records it has taken, of
which the enabled ones have been pushed, and `rest` those it has not. -/
structure Guard (ρ κ : Type) where
  sent : List ρ
  rest : List ρ
  tracker : Option κ
  key : Option κ
  count : ℕ
  phase : Phase

/-- A watermark that has been committed, with the records emitted until then. -/
structure Commit (ρ κ : Type) where
  watermark : κ
  emitted : List ρ

/-- A run: the sequences, the mark of the reducer, the emitted records, the key that the next commit
stores, and the commits. -/
structure World (ρ κ : Type) where
  guards : List (Guard ρ κ)
  mark : Option κ
  emitted : List ρ
  key : Option κ
  commits : List (Commit ρ κ)

/-- What can happen: a sequence pushes its next record or finds its end, and a commit. -/
inductive Event where
  | pushes (i : ℕ)
  | ends (i : ℕ)
  | commits
  deriving DecidableEq, Repr

/-- `Watermark.Observe`: the larger of the value and the current one. -/
def observe (current : Option κ) (v : κ) : Option κ :=
  match current with
  | none => some v
  | some c => if c < v then some v else some c

/-- `Tracker.Below`: the value is below the requested bound. -/
def below (lower : Option κ) (v : κ) : Bool :=
  match lower with
  | none => false
  | some l => decide (v < l)

/-- `incrementalRecordReducer.record`: the key of the row raises the mark. -/
def reduce (mark key : Option κ) : Option κ :=
  match key with
  | none => mark
  | some v => observe mark v

variable (m : Scan ρ κ)

/-- `readGuard.Push` has seen the primary key of the record. -/
def Guard.repeats (g : Guard ρ κ) (r : ρ) : Bool :=
  match m.primaryKey with
  | none => false
  | some key => decide (key r ∈ (g.sent.filter m.enabled).map key)

/-- `readGuard.Push` and the tracker on the next record. -/
def Guard.push (g : Guard ρ κ) (r : ρ) (v : κ) (rest : List ρ) : Guard ρ κ :=
  let tracker := observe g.tracker v
  { sent := g.sent ++ [r]
    rest := rest
    tracker := tracker
    key := tracker
    count := g.count + 1
    phase := if m.limit > 0 ∧ g.count + 1 ≥ m.limit then .limited else .reading }

/-- The next record of the sequence with index `i`: a disabled one is left out, one without a cursor
or below the bound of a complete read, or with a repeated key, fails the sequence. -/
def pushes (i : ℕ) (w : World ρ κ) : World ρ κ :=
  match w.guards[i]? with
  | none => w
  | some g =>
    let failed := { w with guards := w.guards.set i { g with phase := .failed } }
    match g.phase, g.rest with
    | .reading, r :: rest =>
      if m.enabled r = false then
        { w with guards := w.guards.set i { g with sent := g.sent ++ [r], rest := rest } }
      else
        match m.cursor r with
        | none => failed
        | some v =>
          if (m.commitOnComplete && below m.lower v) || g.repeats m r then failed
          else
            let g' := g.push m r v rest
            let w := { w with guards := w.guards.set i g', emitted := w.emitted ++ [r] }
            if m.commitOnComplete then w
            else
              let mark := reduce w.mark g'.key
              { w with mark := mark, key := mark }
    | _, _ => w

/-- The end of the sequence with index `i`; with `commit_on_complete` it drains the key. -/
def ends (i : ℕ) (w : World ρ κ) : World ρ κ :=
  match w.guards[i]? with
  | none => w
  | some g =>
    match g.phase, g.rest with
    | .reading, [] =>
      let w := { w with guards := w.guards.set i { g with phase := .complete } }
      if m.commitOnComplete && decide (g.count > 0) then { w with key := g.key.or w.key } else w
    | _, _ => w

/-- One event; an event that does not apply changes nothing. -/
def step (w : World ρ κ) : Event → World ρ κ
  | .pushes i => pushes m i w
  | .ends i => ends m i w
  | .commits =>
    match w.key with
    | none => w
    | some v => { w with commits := w.commits ++ [⟨v, w.emitted⟩] }

/-- The start of a run. -/
def World.start : World ρ κ where
  guards := m.sequences.map fun s => ⟨[], s, m.seed, none, 0, .reading⟩
  mark := m.seed
  emitted := []
  key := none
  commits := []

/-- **Every enabled record of the server's result whose cursor is below the watermark had been
emitted.** -/
def Covers (c : Commit ρ κ) : Prop :=
  ∀ s ∈ m.sequences, ∀ r ∈ s, m.enabled r = true → ∀ v ∈ m.cursor r, v < c.watermark →
    r ∈ c.emitted

/-- A commit may take the key: the end of the read gave it, or every sequence has been read to its
end, or the resource is one sequence without records below the watermark the run starts from. -/
def Committable (w : World ρ κ) : Event → Prop
  | .commits =>
    m.commitOnComplete = true ∨ (∀ g ∈ w.guards, g.phase = .complete) ∨
      m.sequences.length = 1 ∧
        ∀ s ∈ m.sequences, ∀ r ∈ s, ∀ v ∈ m.seed, ∀ v' ∈ m.cursor r, v ≤ v'
  | _ => True

/-! ### Values of a mark -/

variable {m} {w : World ρ κ} {i : ℕ} {g : Guard ρ κ} {r : ρ} {rest emitted emitted' : List ρ}
variable {mark key : Option κ} {v : κ}

variable (m emitted mark) in
/-- The mark is the watermark the run starts from, or the cursor of an emitted record. -/
def Seen : Prop :=
  ∀ v ∈ mark, v ∈ m.seed ∨ ∃ r ∈ emitted, m.cursor r = some v

theorem Seen.none : Seen m emitted none := nofun

section

variable (h : Seen m emitted mark)
include h

theorem Seen.mono (hsub : emitted ⊆ emitted') : Seen m emitted' mark := by
  intro v hv
  refine (h v hv).imp_right ?_
  rintro ⟨r, hr, hv⟩
  exact ⟨r, hsub hr, hv⟩

theorem Seen.observe (hv : Seen m emitted (some v)) :
    Seen m emitted (observe mark v) := by
  cases mark with
  | none => exact hv
  | some c =>
    simp only [Watermark.observe]
    split
    · exact hv
    · exact h

theorem Seen.reduce (hkey : Seen m emitted key) :
    Seen m emitted (reduce mark key) := by
  cases key with
  | none => exact h
  | some v => exact h.observe hkey

end

theorem Seen.cursor (hr : r ∈ emitted) (hv : m.cursor r = some v) : Seen m emitted (some v) := by
  rintro v ⟨⟩
  exact .inr ⟨r, hr, hv⟩

/-! ### What an event does -/

/-- The sequence goes on or stops, with no record more and none less. -/
structure Keeps (m : Scan ρ κ) (g g' : Guard ρ κ) : Prop where
  records : g'.sent ++ g'.rest = g.sent ++ g.rest
  sent : ∀ r, m.enabled r = true → (r ∈ g'.sent ↔ r ∈ g.sent)
  tracker : g'.tracker = g.tracker
  rest : g.rest = [] → g'.rest = []
  complete : g'.phase = .complete → g'.rest = []

theorem Keeps.stop {phase : Phase} (hphase : phase = .complete → g.rest = []) :
    Keeps m g { g with phase := phase } :=
  ⟨rfl, fun _ _ => .rfl, rfl, id, hphase⟩

/-- A push does nothing, or keeps the records of the sequence, or emits its next record. -/
theorem pushes_cases (m : Scan ρ κ) (i : ℕ) (w : World ρ κ) :
    pushes m i w = w ∨ ∃ g, w.guards[i]? = some g ∧
      ((∃ g', pushes m i w = { w with guards := w.guards.set i g' } ∧ Keeps m g g') ∨
        ∃ r v rest mark key, g.rest = r :: rest ∧ m.enabled r = true ∧ m.cursor r = some v ∧
          pushes m i w =
            ⟨w.guards.set i (g.push m r v rest), mark, w.emitted ++ [r], key, w.commits⟩ ∧
          (m.commitOnComplete = true ∧ mark = w.mark ∧ key = w.key ∨
            m.commitOnComplete = false ∧ mark = reduce w.mark (g.push m r v rest).key ∧
              key = mark)) := by
  unfold pushes
  split
  · exact .inl rfl
  rename_i g hg
  dsimp only
  split
  · rename_i r rest hphase hrest
    refine .inr ⟨g, hg, ?_⟩
    cases hon : m.enabled r with
    | false =>
      refine .inl ⟨_, rfl, by simp [hrest], fun r' hr' => ?_, rfl, by simp [hrest], ?_⟩
      · have hne : r' ≠ r := by
          rintro rfl
          simp [hon] at hr'
        simp [hne]
      · simp [hphase]
    | true =>
      cases hv : m.cursor r with
      | none => exact .inl ⟨_, rfl, .stop nofun⟩
      | some v =>
        by_cases hfails : (m.commitOnComplete && below m.lower v || g.repeats m r) = true
        · exact .inl ⟨_, if_pos hfails, .stop nofun⟩
        · simp only [if_neg hfails]
          cases hc : m.commitOnComplete with
          | true => exact .inr ⟨r, v, rest, _, _, hrest, hon, hv, rfl, .inl ⟨rfl, rfl, rfl⟩⟩
          | false => exact .inr ⟨r, v, rest, _, _, hrest, hon, hv, rfl, .inr ⟨rfl, rfl, rfl⟩⟩
  · exact .inl rfl

/-- The end of a sequence does nothing, or completes the sequence and possibly drains its key. -/
theorem ends_cases (m : Scan ρ κ) (i : ℕ) (w : World ρ κ) :
    ends m i w = w ∨ ∃ g key, w.guards[i]? = some g ∧ g.rest = [] ∧
      ends m i w =
        { w with guards := w.guards.set i { g with phase := .complete }, key := key } ∧
      (key = w.key ∨ m.commitOnComplete = true) := by
  unfold ends
  split
  · exact .inl rfl
  rename_i g hg
  split
  · rename_i hphase hrest
    refine .inr ?_
    split_ifs with hc
    · exact ⟨g, _, hg, hrest, rfl, .inr (Bool.and_eq_true_iff.1 hc).1⟩
    · exact ⟨g, w.key, hg, hrest, rfl, .inl rfl⟩
  · exact .inl rfl

/-! ### The invariant -/

variable (m w) in
/-- What holds in every state of a run. -/
structure Inv : Prop where
  records : w.guards.map (fun g => g.sent ++ g.rest) = m.sequences
  emitted : ∀ r, r ∈ w.emitted ↔ m.enabled r = true ∧ ∃ g ∈ w.guards, r ∈ g.sent
  complete : ∀ g ∈ w.guards, g.phase = .complete → g.rest = []
  trackers : ∀ g ∈ w.guards, Seen m w.emitted g.tracker
  mark : Seen m w.emitted w.mark
  key : m.commitOnComplete = false → Seen m w.emitted w.key
  drained : m.commitOnComplete = true → w.key ≠ none → ∀ g ∈ w.guards, g.rest = []
  commits : ∀ c ∈ w.commits, Covers m c

theorem Inv.start (m : Scan ρ κ) : Inv m (.start m) where
  records := by simp [World.start, Function.comp_def]
  emitted := by simp [World.start]
  complete := by simp [World.start]
  trackers := by
    simp only [World.start, mem_map]
    rintro _ ⟨s, hs, rfl⟩ v hv
    exact .inl hv
  mark := fun v hv => .inl hv
  key := fun _ => .none
  drained := fun _ h => absurd rfl h
  commits := nofun

section

variable (h : Inv m w) (hg : w.guards[i]? = some g)
include h hg

theorem Inv.keeps {g' : Guard ρ κ} (hk : Keeps m g g') :
    Inv m { w with guards := w.guards.set i g' } where
  records := (map_set_of_eq hg hk.records).trans h.records
  emitted := by
    intro r
    rw [h.emitted r]
    refine and_congr_right fun hr => ?_
    constructor
    · rintro ⟨x, hx, hmem⟩
      by_cases hxg : x = g
      · exact ⟨g', List.mem_set (List.getElem?_eq_some_iff.1 hg).1 _, (hk.sent r hr).2 (hxg ▸ hmem)⟩
      · exact ⟨x, mem_set_of_mem_of_ne hg hx hxg, hmem⟩
    · rintro ⟨x, hx, hmem⟩
      rcases mem_or_eq_of_mem_set hx with hx | rfl
      · exact ⟨x, hx, hmem⟩
      · exact ⟨g, mem_of_getElem? hg, (hk.sent r hr).1 hmem⟩
  complete := forall_mem_set h.complete hk.complete
  trackers := forall_mem_set h.trackers (hk.tracker ▸ h.trackers g (mem_of_getElem? hg))
  mark := h.mark
  key := h.key
  drained hc hkey := forall_mem_set (h.drained hc hkey)
    (hk.rest (h.drained hc hkey g (mem_of_getElem? hg)))
  commits := h.commits

theorem Inv.push (hrest : g.rest = r :: rest) (hon : m.enabled r = true)
    (hv : m.cursor r = some v)
    (hmark : m.commitOnComplete = true ∧ mark = w.mark ∧ key = w.key ∨
      m.commitOnComplete = false ∧ mark = reduce w.mark (g.push m r v rest).key ∧ key = mark) :
    Inv m ⟨w.guards.set i (g.push m r v rest), mark, w.emitted ++ [r], key, w.commits⟩ := by
  have hmem := mem_of_getElem? hg
  have hsub : w.emitted ⊆ w.emitted ++ [r] := subset_append_left ..
  have hnew : g.push m r v rest ∈ w.guards.set i (g.push m r v rest) :=
    List.mem_set (List.getElem?_eq_some_iff.1 hg).1 _
  have htracker : Seen m (w.emitted ++ [r]) (g.push m r v rest).tracker :=
    ((h.trackers g hmem).mono hsub).observe (.cursor (mem_append_right _ (.head _)) hv)
  have hmark' : Seen m (w.emitted ++ [r]) mark := by
    rcases hmark with ⟨-, rfl, -⟩ | ⟨-, rfl, -⟩
    · exact h.mark.mono hsub
    · exact (h.mark.mono hsub).reduce htracker
  refine ⟨?_, ?_, ?_, ?_, hmark', ?_, ?_, h.commits⟩
  · refine (map_set_of_eq hg ?_).trans h.records
    simp [Guard.push, hrest]
  · intro r'
    rw [mem_append, mem_singleton, h.emitted r']
    constructor
    · rintro (⟨hon', x, hx, hr'⟩ | rfl)
      · by_cases hxg : x = g
        · subst hxg
          exact ⟨hon', _, hnew, mem_append_left _ hr'⟩
        · exact ⟨hon', x, mem_set_of_mem_of_ne hg hx hxg, hr'⟩
      · exact ⟨hon, _, hnew, mem_append_right _ (.head _)⟩
    · rintro ⟨hon', x, hx, hr'⟩
      rcases mem_or_eq_of_mem_set hx with hx | rfl
      · exact .inl ⟨hon', x, hx, hr'⟩
      · rcases mem_append.1 hr' with hr' | hr'
        · exact .inl ⟨hon', g, hmem, hr'⟩
        · exact .inr (mem_singleton.1 hr')
  · refine forall_mem_set h.complete fun hc => ?_
    simp only [Guard.push] at hc
    split at hc <;> cases hc
  · exact forall_mem_set (fun x hx => (h.trackers x hx).mono hsub) htracker
  · intro hc
    rcases hmark with ⟨hc', -, -⟩ | ⟨-, -, rfl⟩
    · exact absurd (hc.symm.trans hc') nofun
    · exact hmark'
  · -- a key has been drained only when no record is left, and here one is
    intro hc hk
    rcases hmark with ⟨-, -, rfl⟩ | ⟨hc', -, -⟩
    · exact absurd (hrest.symm.trans (h.drained hc hk g hmem)) nofun
    · exact absurd (hc.symm.trans hc') nofun

/-- With `commit_on_complete` there is one sequence, and it has no record left when it ends. -/
theorem Inv.drain (hrest : g.rest = []) (hc : m.commitOnComplete = true) (key : Option κ) :
    Inv m { w with guards := w.guards.set i { g with phase := .complete }, key := key } := by
  have hstop : Inv m { w with guards := w.guards.set i { g with phase := .complete } } :=
    h.keeps hg (.stop fun _ => hrest)
  refine { hstop with key := fun hc' => absurd (hc.symm.trans hc') nofun, drained := ?_ }
  intro _ _ x hx
  have hlen : w.guards.length = 1 := by
    rw [← m.topLevel hc, ← h.records, length_map]
  obtain ⟨y, hy⟩ := length_eq_one_iff.1 hlen
  obtain rfl : i = 0 := by
    have hi := (List.getElem?_eq_some_iff.1 hg).1
    omega
  simp only [hy, set_cons_zero, mem_singleton] at hx
  subst hx
  exact hrest

end

/-! ### Commits -/

theorem Inv.covers_of_rest (h : Inv m w) (hrest : ∀ g ∈ w.guards, g.rest = []) (v : κ) :
    Covers m ⟨v, w.emitted⟩ := by
  intro s hs r hr hon _ _ _
  rw [← h.records, mem_map] at hs
  obtain ⟨g, hg, rfl⟩ := hs
  rw [hrest g hg, append_nil] at hr
  exact (h.emitted r).2 ⟨hon, g, hg, hr⟩

/-- In a single sequence the records left are not below those sent. -/
theorem Inv.covers_of_single (h : Inv m w) (hlen : m.sequences.length = 1)
    (hseed : ∀ s ∈ m.sequences, ∀ r ∈ s, ∀ v ∈ m.seed, ∀ v' ∈ m.cursor r, v ≤ v')
    (hkey : Seen m w.emitted (some v)) : Covers m ⟨v, w.emitted⟩ := by
  obtain ⟨g, hg⟩ : ∃ g, w.guards = [g] :=
    length_eq_one_iff.1 (by rw [← hlen, ← h.records, length_map])
  have hseqs : m.sequences = [g.sent ++ g.rest] := by rw [← h.records, hg]; rfl
  have hemitted : ∀ r, r ∈ w.emitted ↔ m.enabled r = true ∧ r ∈ g.sent := by
    intro r
    rw [h.emitted r, hg]
    simp
  intro s hs r hr hon v' hv' hlt
  obtain rfl : s = g.sent ++ g.rest := by simpa [hseqs] using hs
  rcases mem_append.1 hr with hsent | hleft
  · exact (hemitted r).2 ⟨hon, hsent⟩
  rcases hkey v rfl with hv | ⟨r', hr', hv⟩
  · exact absurd hlt (not_lt.2 (hseed _ hs r hr v hv v' hv'))
  · have hordered := m.ordered _ hs
    have hle := (pairwise_append.1 hordered).2.2 r' ((hemitted r').1 hr').2 r hleft v hv v' hv'
    exact absurd hlt (not_lt.2 hle)

theorem Inv.covers (h : Inv m w) (hok : Committable m w .commits) (hkey : w.key = some v) :
    Covers m ⟨v, w.emitted⟩ := by
  cases hc : m.commitOnComplete with
  | true => exact h.covers_of_rest (h.drained hc (by simp [hkey])) v
  | false =>
    rcases hok with hok | hall | ⟨hlen, hseed⟩
    · exact absurd (hc.symm.trans hok) nofun
    · exact h.covers_of_rest (fun g hg => h.complete g hg (hall g hg)) v
    · exact h.covers_of_single hlen hseed (hkey ▸ h.key hc)

theorem Inv.step (w : World ρ κ) (e : Event) (h : Inv m w) (hok : Committable m w e) :
    Inv m (step m w e) := by
  cases e with
  | pushes i =>
    change Inv m (pushes m i w)
    rcases pushes_cases m i w with
      heq | ⟨g, hg, ⟨g', heq, hk⟩ | ⟨r, v, rest, mark, key, hrest, hon, hv, heq, hm⟩⟩
    · rw [heq]
      exact h
    · rw [heq]
      exact h.keeps hg hk
    · rw [heq]
      exact h.push hg hrest hon hv hm
  | ends i =>
    change Inv m (ends m i w)
    rcases ends_cases m i w with heq | ⟨g, key, hg, hrest, heq, rfl | hc⟩
    · rw [heq]
      exact h
    · rw [heq]
      exact h.keeps hg (.stop fun _ => hrest)
    · rw [heq]
      exact h.drain hg hrest hc key
  | commits =>
    simp only [Watermark.step]
    split
    · exact h
    · rename_i v hv
      refine { h with commits := ?_ }
      intro c hc'
      rcases mem_append.1 hc' with hc' | hc'
      · exact h.commits c hc'
      · exact mem_singleton.1 hc' ▸ h.covers hok hv

/-- **In every run whose commits may take the key, every enabled record whose cursor is below a
committed watermark has been emitted when it is committed.** -/
theorem committed_watermark_covers (m : Scan ρ κ) (es : List Event)
    (hok : Trace.Along (step m) (Committable m) (.start m) es) :
    ∀ c ∈ (Trace.run (step m) (.start m) es).commits,
      ∀ s ∈ m.sequences, ∀ r ∈ s, m.enabled r = true → ∀ v ∈ m.cursor r, v < c.watermark →
        r ∈ c.emitted := by
  have hinv : Inv m (Trace.run (step m) (.start m) es) :=
    Trace.inv_run_of_along Inv.step (Inv.start m) hok
  exact hinv.commits

/-- Two parents with a record each; the records are their cursors. -/
def twoParents : Scan ℕ ℕ where
  cursor := some
  enabled _ := true
  primaryKey := none
  seed := none
  lower := none
  commitOnComplete := false
  limit := 0
  sequences := [[100], [5]]
  ordered := by decide
  topLevel := by decide

/-- Both parents are read to their end before the commit. -/
theorem both_parents_read_before_commit :
    (Trace.run (step twoParents) (.start twoParents)
        [.pushes 0, .pushes 1, .ends 0, .ends 1, .commits]).commits.map Commit.watermark = [100] ∧
      ∀ c ∈ (Trace.run (step twoParents) (.start twoParents)
          [.pushes 0, .pushes 1, .ends 0, .ends 1, .commits]).commits,
        ∀ s ∈ twoParents.sequences, ∀ r ∈ s, twoParents.enabled r = true →
          ∀ v ∈ twoParents.cursor r, v < c.watermark → r ∈ c.emitted :=
  ⟨by decide, committed_watermark_covers twoParents _
    ⟨trivial, trivial, trivial, trivial, .inr (.inl (by decide)), trivial⟩⟩

/-- A pause after the first parent's record commits its cursor; the second parent's record is below
it and has not been emitted. -/
theorem pause_between_parents_skips_record :
    ∃ c ∈ (Trace.run (step twoParents) (.start twoParents) [.pushes 0, .commits]).commits,
      ∃ s ∈ twoParents.sequences, ∃ r ∈ s, twoParents.enabled r = true ∧
        ∃ v ∈ twoParents.cursor r, v < c.watermark ∧ r ∉ c.emitted :=
  ⟨⟨100, [100]⟩, .head _, [5], by decide, 5, .head _, rfl, 5, rfl, by decide, by decide⟩

end Filament.Http.Watermark
