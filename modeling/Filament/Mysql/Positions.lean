import Mathlib.Data.Prod.Lex
import Mathlib.Data.String.Basic
import Filament.Lib.Decimal
import Filament.Mysql.Stream

/-!
# The order of binlog positions

The server numbers the files of the log and prints the number with at least six digits.  The source
compares the names as text.

* `Position.key`, `posCmp_eq_lt`, `posCmp_eq_gt` : the order of the source;
* `fileName`, `Aligned`, `posCmp_position_iff` : where it is the order of the server;
* **`positions_ordered`** : with files whose numbers are aligned, the stream starts at or before every
  floor, and no event after a floor and before the watermark is skipped;
* `millionth_file_sorts_first` : the file after number 999999.
-/

namespace Filament.Mysql

open List Position

/-! ### The order of the source -/

variable {a b : Position}

/-- What positions are compared by. -/
def Position.key (p : Position) : String ×ₗ ℕ := toLex (p.name, p.pos)

theorem key_lt_iff : a.key < b.key ↔ a.name < b.name ∨ a.name = b.name ∧ a.pos < b.pos :=
  Prod.Lex.toLex_lt_toLex

theorem posCmp_eq : posCmp a b = cmp a.key b.key := by
  unfold posCmp compareOfLessAndEq cmp cmpUsing
  simp only [key_lt_iff]
  by_cases hname : a.name = b.name
  · simp [hname]
  · rcases lt_or_gt_of_ne hname with hlt | hlt
    · simp [hname, hlt]
    · simp [hname, hlt, not_lt_of_gt hlt]

theorem posCmp_eq_lt : posCmp a b = .lt ↔ a.key < b.key := by rw [posCmp_eq, cmp_eq_lt_iff]

theorem posCmp_eq_gt : posCmp a b = .gt ↔ b.key < a.key := by rw [posCmp_eq, cmp_eq_gt_iff]

/-! ### The order of the server -/

variable {n m : ℕ} {base : String} {p q : ℕ × ℕ}

/-- How many digits the number of a file is printed with. -/
def width (n : ℕ) : ℕ := max 6 (Nat.toDigits 10 n).length

/-- The name of a file: the base name, and the number with at least six digits. -/
def fileName (base : String) (n : ℕ) : String :=
  base ++ "." ++ String.ofList ((Nat.toDigits 10 n).leftpad 6 '0')

/-- A position of the server: the number of a file and an offset. -/
def position (base : String) (p : ℕ × ℕ) : Position := ⟨fileName base p.1, p.2⟩

/-- Two numbers compare as their texts do: when one is printed with fewer digits, it is at most the
other cut to as many. -/
def Aligned (n m : ℕ) : Prop :=
  (width n < width m → n ≤ m / 10 ^ (width m - width n)) ∧
    (width m < width n → m ≤ n / 10 ^ (width n - width m))

instance (n m : ℕ) : Decidable (Aligned n m) := inferInstanceAs (Decidable (_ ∧ _))

/-- Any two of the numbers are aligned. -/
def AllAligned (ns : List ℕ) : Prop := ∀ n ∈ ns, ∀ m ∈ ns, Aligned n m

instance instDecidableAllAligned (ns : List ℕ) : Decidable (AllAligned ns) :=
  inferInstanceAs (Decidable (∀ n ∈ ns, ∀ m ∈ ns, Aligned n m))

theorem Aligned.refl (n : ℕ) : Aligned n n :=
  ⟨fun h => absurd h (lt_irrefl _), fun h => absurd h (lt_irrefl _)⟩

theorem Aligned.symm (h : Aligned n m) : Aligned m n := ⟨h.2, h.1⟩

theorem lt_pow_width (n : ℕ) : n < 10 ^ width n :=
  (Decimal.lt_pow_length_toDigits n).trans_le (Nat.pow_le_pow_right (by decide) (le_max_right ..))

theorem lt_of_width_lt (h : width n < width m) : n < m := by
  by_contra hle
  have hm : m < 10 ^ width n := (Nat.not_lt.1 hle).trans_lt (lt_pow_width n)
  have hlength : (Nat.toDigits 10 m).length ≤ width n :=
    (Nat.length_toDigits_le_iff (by decide) (lt_of_lt_of_le (by decide) (le_max_left ..))).2 hm
  have hsix : 6 ≤ width n := le_max_left ..
  exact absurd h (Nat.not_lt.2 (max_le hsix hlength))

theorem toList_fileName (base : String) (n : ℕ) :
    (fileName base n).toList = (base ++ ".").toList ++ Decimal.digits (width n) n := by
  rw [fileName, String.toList_append, String.toList_ofList, Decimal.leftpad_toDigits]
  rfl

theorem fileName_inj : fileName base n = fileName base m ↔ n = m := by
  refine ⟨fun heq => ?_, fun heq => by rw [heq]⟩
  have hlist := congrArg String.toList heq
  rw [toList_fileName, toList_fileName] at hlist
  have hdigits := append_cancel_left hlist
  have hwidth : width n = width m := by simpa using congrArg length hdigits
  rw [hwidth] at hdigits
  exact (Decimal.digits_inj (hwidth ▸ lt_pow_width n) (lt_pow_width m)).1 hdigits

theorem position_inj (h : position base p = position base q) : p = q :=
  Prod.ext (fileName_inj.1 (congrArg Position.name h)) (congrArg Position.pos h)

/-- Names of files are in the order of their numbers where these are aligned. -/
theorem fileName_lt_iff (h : n < m) : fileName base n < fileName base m ↔ Aligned n m := by
  have hwidth : width n ≤ width m := by
    by_contra hlt
    exact absurd (lt_of_width_lt (Nat.not_le.1 hlt)) (Nat.not_lt.2 h.le)
  rw [String.lt_iff_toList_lt, toList_fileName, toList_fileName, Decimal.append_lt_append_left_iff]
  rcases hwidth.eq_or_lt with heq | hlt
  · rw [heq, Decimal.digits_lt_iff (heq ▸ lt_pow_width n) (lt_pow_width m)]
    simp [Aligned, heq, h]
  obtain ⟨k, hk⟩ := Nat.exists_eq_add_of_lt hlt
  have hm : m < 10 ^ (width n + (k + 1)) := by
    have := lt_pow_width m
    rwa [hk] at this
  rw [hk, Nat.add_assoc, Decimal.digits_lt_digits_add_iff (Nat.succ_pos k) (lt_pow_width n) hm]
  have hcut : width m - width n = k + 1 := by omega
  simp [Aligned, hlt, hcut, not_lt_of_gt hlt]

theorem key_position_lt_iff (h : p.1 < q.1) :
    (position base p).key < (position base q).key ↔ Aligned p.1 q.1 := by
  have hne : fileName base p.1 ≠ fileName base q.1 := fun heq => h.ne (fileName_inj.1 heq)
  rw [key_lt_iff, ← fileName_lt_iff h]
  exact ⟨fun hor => hor.resolve_right fun hand => hne hand.1, .inl⟩

/-- **The source orders two positions as the server does exactly when the numbers of their files are
aligned.** -/
theorem posCmp_position_iff :
    posCmp (position base p) (position base q) = cmp (toLex p) (toLex q) ↔ Aligned p.1 q.1 := by
  have hlt : ∀ {p q : ℕ × ℕ}, p.1 < q.1 → toLex p < toLex q :=
    fun h => Prod.Lex.toLex_lt_toLex.2 (.inl h)
  rcases lt_trichotomy p.1 q.1 with h | h | h
  · rw [(cmp_eq_lt_iff ..).2 (hlt h), posCmp_eq_lt, key_position_lt_iff h]
  · -- within one file both compare the offsets
    rw [h]
    refine iff_of_true ?_ (Aligned.refl q.1)
    obtain ⟨n, a⟩ := p
    obtain ⟨m, b⟩ := q
    obtain rfl : n = m := h
    have hoffset : ∀ {a b : ℕ}, a < b → toLex (n, a) < toLex (n, b) ∧
        (position base (n, a)).key < (position base (n, b)).key := fun hab =>
      ⟨Prod.Lex.toLex_lt_toLex.2 (.inr ⟨rfl, hab⟩), key_lt_iff.2 (.inr ⟨rfl, hab⟩)⟩
    rcases lt_trichotomy a b with hab | rfl | hab
    · rw [(cmp_eq_lt_iff ..).2 (hoffset hab).1, posCmp_eq_lt.2 (hoffset hab).2]
    · rw [posCmp_eq, cmp_self_eq_eq, cmp_self_eq_eq]
    · rw [(cmp_eq_gt_iff ..).2 (hoffset hab).1, posCmp_eq_gt.2 (hoffset hab).2]
  · rw [(cmp_eq_gt_iff ..).2 (hlt h), posCmp_eq_gt, key_position_lt_iff h]
    exact ⟨Aligned.symm, Aligned.symm⟩

/-! ### The lowest floor -/

variable {floors : List (String × Position)} {start out : Position}

theorem foldl_oldest (h : floors.foldl (fun out floor =>
      match out with
      | none => some floor.2
      | some out => if posCmp floor.2 out = .lt then some floor.2 else some out) (some out) =
        some start) :
    start.key ≤ out.key ∧ (start = out ∨ start ∈ floors.map Prod.snd) ∧
      ∀ f ∈ floors, start.key ≤ f.2.key := by
  induction floors generalizing out with
  | nil =>
    obtain rfl : out = start := by simpa using h
    simp
  | cons f floors ih =>
    rw [foldl_cons] at h
    dsimp only at h
    split_ifs at h with hlower
    · obtain ⟨hle, hmem, hall⟩ := ih h
      refine ⟨hle.trans (posCmp_eq_lt.1 hlower).le, .inr ?_, forall_mem_cons.2 ⟨hle, hall⟩⟩
      rcases hmem with rfl | hmem
      · exact .head _
      · exact .tail _ hmem
    · obtain ⟨hle, hmem, hall⟩ := ih h
      have hle' : out.key ≤ f.2.key := not_lt.1 fun hlt => hlower (posCmp_eq_lt.2 hlt)
      exact ⟨hle, hmem.imp_right (.tail _), forall_mem_cons.2 ⟨hle.trans hle', hall⟩⟩

/-- The stream starts at a floor that no floor is before, as the source orders them. -/
theorem oldestPosition_le (h : oldestPosition floors = some start) :
    start ∈ floors.map Prod.snd ∧ ∀ f ∈ floors, start.key ≤ f.2.key := by
  cases floors with
  | nil => cases h
  | cons f floors =>
    obtain ⟨hle, hmem, hall⟩ := foldl_oldest h
    refine ⟨?_, forall_mem_cons.2 ⟨hle, hall⟩⟩
    rcases hmem with rfl | hmem
    · exact .head _
    · exact .tail _ hmem

theorem exists_oldestPosition (h : floors ≠ []) :
    ∃ start, oldestPosition floors = some start := by
  have hsome : ∀ (floors : List (String × Position)) (out : Position), ∃ start,
      floors.foldl (fun out floor =>
        match out with
        | none => some floor.2
        | some out => if posCmp floor.2 out = .lt then some floor.2 else some out) (some out) =
          some start := by
    intro floors
    induction floors with
    | nil => exact fun out => ⟨out, rfl⟩
    | cons f floors ih =>
      intro out
      rw [foldl_cons]
      dsimp only
      split_ifs
      · exact ih f.2
      · exact ih out
  obtain ⟨f, floors, rfl⟩ := exists_cons_of_ne_nil h
  exact hsome floors f.2

/-! ### The stream -/

variable {ρ : Type}

/-- What the server logs; a file ends with a rotation to the next. -/
inductive Logged (ρ : Type) where
  | rotate (p : ℕ × ℕ)
  | rows (e : RowsEvent ρ)
  | other (logPos : ℕ)

/-- What the stream delivers of it. -/
def Logged.event (base : String) : Logged ρ → Position.Event ρ
  | .rotate p => .rotate (fileName base p.1) p.2
  | .rows e => .rows e
  | .other logPos => .other logPos

/-- The place after an event of a file. -/
def advanced (p : ℕ × ℕ) (logPos : ℕ) : ℕ × ℕ := if 0 < logPos then (p.1, logPos) else p

theorem advanced_fst (p : ℕ × ℕ) (logPos : ℕ) : (advanced p logPos).1 = p.1 := by
  unfold advanced
  split_ifs <;> rfl

/-- Where the log is after an event. -/
def Logged.next (p : ℕ × ℕ) : Logged ρ → ℕ × ℕ
  | .rotate p => p
  | .rows e => advanced p e.logPos
  | .other logPos => advanced p logPos

/-- Where the log is after some events. -/
def place (start : ℕ × ℕ) (events : List (Logged ρ)) : ℕ × ℕ := events.foldl Logged.next start

/-- The file that a rotation opens. -/
def Logged.file : Logged ρ → Option ℕ
  | .rotate p => some p.1
  | _ => none

/-- The numbers of the files that a cycle compares: of the watermark, the floors and the log. -/
def numbers (floors : List (String × (ℕ × ℕ))) (watermark : ℕ × ℕ) (log : List (Logged ρ)) : List ℕ :=
  watermark.1 :: floors.map (·.2.1) ++ log.filterMap Logged.file

theorem next_file (event : Logged ρ) (p : ℕ × ℕ) :
    (event.next p).1 = p.1 ∨ event.file = some (event.next p).1 := by
  cases event with
  | rotate q => exact .inr rfl
  | rows | other => exact .inl (advanced_fst ..)

/-- Floors under the names of their files. -/
def named (base : String) (floors : List (String × (ℕ × ℕ))) : List (String × Position) :=
  floors.map fun f => (f.1, position base f.2)

theorem lookup_named {floors : List (String × (ℕ × ℕ))} {resource : String} :
    (named base floors).lookup resource = (floors.lookup resource).map (position base) := by
  induction floors with
  | nil => rfl
  | cons f floors ih =>
    rw [named, map_cons, lookup_cons, lookup_cons]
    split <;> simp_all [named]

theorem advance_position {logPos : ℕ} :
    (position base p).advance logPos = position base (advanced p logPos) := by
  unfold advance advanced
  split_ifs <;> rfl

section Follow

variable {st : Setup ρ} {floors : List (String × Position)} {watermark : Position}

variable {r r' : Run ρ Position} {events rest : List (Position.Event ρ)}

theorem pushRowsEvent_marks {skip : String → Bool} {e : RowsEvent ρ} {cursor : Position} :
    (pushRowsEvent st skip e cursor r).1.marks = r.marks := by
  unfold pushRowsEvent
  split_ifs <;> rfl

theorem limit_pos_of_limited {skip : String → Bool} {e : RowsEvent ρ} {cursor : Position}
    (h : (pushRowsEvent st skip e cursor r).2 = true) : 0 < st.limit := by
  unfold pushRowsEvent at h
  split_ifs at h
  exact (of_decide_eq_true h).1

/-- An event before the watermark: the loop goes on after it, or the event has reached the limit and
the resources are marked at its place. -/
theorem follow_step {event : Logged ρ} (h : (position base (event.next p)).key < watermark.key) :
    (∃ r', r'.marks = r.marks ∧
      follow st floors watermark (position base p) r (event.event base :: rest) =
        follow st floors watermark (position base (event.next p)) r' rest) ∨
    0 < st.limit ∧ ∃ r', r'.marks = r.marks ∧
      follow st floors watermark (position base p) r (event.event base :: rest) =
        pushStreamMarks st (mark floors (position base (event.next p))) r' := by
  have hnot := not_not.2 (posCmp_eq_lt.2 h)
  cases event with
  | rotate q => exact .inl ⟨r, rfl, rfl⟩
  | other logPos =>
    refine .inl ⟨r, rfl, ?_⟩
    rw [Logged.event, follow, advance_position]
    exact if_neg hnot
  | rows e =>
    rw [Logged.event, follow, advance_position]
    dsimp only
    split_ifs with hend
    · have hlimited := hend.resolve_right hnot
      exact .inr ⟨limit_pos_of_limited hlimited, _, pushRowsEvent_marks, rfl⟩
    · exact .inl ⟨_, pushRowsEvent_marks, rfl⟩

/-- A cycle that has not come to its watermark goes on from where the log is, or has reached its limit
and marks the resources at a place before. -/
theorem follow_append {before : List (Logged ρ)}
    (hreach : ∀ pre, pre <+: before → (position base (place p pre)).key < watermark.key) :
    (∃ r', r'.marks = r.marks ∧
      follow st floors watermark (position base p) r (before.map (Logged.event base) ++ rest) =
        follow st floors watermark (position base (place p before)) r' rest) ∨
    0 < st.limit ∧ ∃ pre r', pre <+: before ∧ r'.marks = r.marks ∧
      follow st floors watermark (position base p) r (before.map (Logged.event base) ++ rest) =
        pushStreamMarks st (mark floors (position base (place p pre))) r' := by
  induction before generalizing p r with
  | nil => exact .inl ⟨r, rfl, rfl⟩
  | cons event before ih =>
    rw [map_cons, cons_append]
    rcases follow_step (hreach [event] ⟨before, rfl⟩) with ⟨q, hq, hstep⟩ | ⟨hlimit, q, hq, hstep⟩
    · rw [hstep]
      rcases ih (fun pre hpre => hreach (event :: pre) ((prefix_cons_inj event).2 hpre)) with
        ⟨r', hmarks, hfollow⟩ | ⟨hlimit, pre, r', hpre, hmarks, hfollow⟩
      · exact .inl ⟨r', hmarks.trans hq, hfollow⟩
      · exact .inr ⟨hlimit, event :: pre, r', (prefix_cons_inj event).2 hpre, hmarks.trans hq,
          hfollow⟩
    · exact .inr ⟨hlimit, [event], q, ⟨before, rfl⟩, hq, hstep⟩

theorem pushed_subset_follow {p : Position} :
    r.pushed ⊆ (follow st floors watermark p r events).run.pushed := by
  induction events generalizing p r with
  | nil => exact Subset.refl _
  | cons event events ih =>
    cases event with
    | failed => exact Subset.refl _
    | rotate name pos => exact ih
    | other logPos =>
      rw [follow]
      split_ifs
      · exact Subset.refl _
      · exact ih
    | rows e =>
      rw [follow]
      dsimp only
      have hpush : ∀ {skip : String → Bool} {cursor : Position},
          r.pushed ⊆ (pushRowsEvent st skip e cursor r).1.pushed := by
        intro skip cursor
        unfold pushRowsEvent
        split_ifs
        · exact Subset.refl _
        · exact subset_append_left ..
      split_ifs
      · exact hpush
      · exact Subset.trans hpush ih

theorem pushed_of_posCmp {p : Position} {e : RowsEvent ρ} (htracks : st.tracks e = true)
    (hafter : posCmp (p.advance e.logPos) (floor floors e.table) = .gt) :
    (e, p.advance e.logPos) ∈
      (follow st floors watermark p r (.rows e :: events)).run.pushed := by
  rw [follow]
  dsimp only
  have hpush : (e, p.advance e.logPos) ∈ (pushRowsEvent st
      (fun resource => decide (posCmp (p.advance e.logPos) (floor floors resource) ≠ .gt))
      e (p.advance e.logPos) r).1.pushed := by
    simp [pushRowsEvent, htracks, hafter]
  split_ifs
  · exact hpush
  · exact pushed_subset_follow hpush

end Follow

/-! ### Nothing is skipped -/

/-- The numbers of the files of two places are aligned. -/
theorem key_lt_position_iff (h : Aligned p.1 q.1) :
    (position base p).key < (position base q).key ↔ toLex p < toLex q := by
  rw [← posCmp_eq_lt, posCmp_position_iff.2 h]
  exact cmp_eq_lt_iff ..

theorem place_append {start : ℕ × ℕ} {before : List (Logged ρ)} {event : Logged ρ} :
    place start (before ++ [event]) = event.next (place start before) := by
  simp [place]

/-- The log is in the file it started in, or in one it has come to. -/
theorem place_file (start : ℕ × ℕ) (events : List (Logged ρ)) :
    (place start events).1 = start.1 ∨ (place start events).1 ∈ events.filterMap Logged.file := by
  induction events using List.reverseRecOn with
  | nil => exact .inl rfl
  | append_singleton events event ih =>
    rw [place_append, filterMap_append]
    rcases next_file event (place start events) with hsame | hnew
    · rw [hsame]
      exact ih.imp_right (mem_append_left _)
    · exact .inr (mem_append_right _ (mem_filterMap.2 ⟨event, mem_singleton_self _, hnew⟩))

section Files

variable {floors : List (String × (ℕ × ℕ))} {watermark g : ℕ × ℕ} {log : List (Logged ρ)}

theorem mem_of_lookup {resource : String} {f : ℕ × ℕ} (h : floors.lookup resource = some f) :
    (resource, f) ∈ floors := by
  obtain ⟨l, l', rfl, -⟩ := lookup_eq_some_iff.1 h
  simp

theorem mem_numbers_watermark : watermark.1 ∈ numbers floors watermark log := by
  simp [numbers]

theorem mem_numbers_floor {f : String × (ℕ × ℕ)} (h : f ∈ floors) :
    f.2.1 ∈ numbers floors watermark log :=
  mem_append_left _ (.tail _ (mem_map.2 ⟨f, h, rfl⟩))

theorem mem_numbers_place {f : String × (ℕ × ℕ)} (h : f ∈ floors) {pre : List (Logged ρ)}
    (hpre : pre <+: log) : (place f.2 pre).1 ∈ numbers floors watermark log := by
  rcases place_file f.2 pre with hstart | hmem
  · rw [hstart]
    exact mem_numbers_floor h
  · exact mem_append_right _ ((hpre.sublist.filterMap _).subset hmem)

/-- The stream starts at the place of a floor, and at or before every other as the source orders
them. -/
theorem exists_start (hsome : floors ≠ []) : ∃ g ∈ floors,
    oldestPosition (named base floors) = some (position base g.2) ∧
      ∀ f ∈ floors, (position base g.2).key ≤ (position base f.2).key := by
  have hnamed : named base floors ≠ [] := by simpa [named] using hsome
  obtain ⟨oldest, holdest⟩ := exists_oldestPosition hnamed
  obtain ⟨hmem, hle⟩ := oldestPosition_le holdest
  obtain ⟨g, hg, rfl⟩ : ∃ g ∈ floors, position base g.2 = oldest := by
    simpa [named] using hmem
  exact ⟨g, hg, holdest, fun f hf => hle _ (mem_map_of_mem hf)⟩

end Files

theorem key_le_position_iff (h : Aligned p.1 q.1) :
    (position base p).key ≤ (position base q).key ↔ toLex p ≤ toLex q := by
  rw [← not_lt, ← not_lt, key_lt_position_iff h.symm]

/-- A mark is at the place where the stream is, or at the floor of its resource. -/
theorem mark_position {floors : List (String × (ℕ × ℕ))} {resource : String} {f : ℕ × ℕ}
    (h : floors.lookup resource = some f) (q : ℕ × ℕ) :
    mark (named base floors) (position base q) resource = position base q ∨
      mark (named base floors) (position base q) resource = position base f := by
  rw [mark, floor, lookup_named, h, Option.map_some, Option.getD_some, laterPosition]
  split_ifs
  · exact .inr rfl
  · exact .inl rfl

/-- **Positions are ordered as the server writes them, where the numbers of the files are aligned.**
The source's comparison is that of the numbers and the offsets exactly when the numbers are aligned.
When those of all floors are, the stream starts at a floor that is at or before every other.  When those
of the floors, the watermark and the log are, an event that the log has before it comes to the watermark
and that ends after the floor of its resource is pushed; or the cycle has reached its limit before, and
the mark it leaves the resource is before the event. -/
theorem positions_ordered (base : String) (floors : List (String × (ℕ × ℕ))) (hsome : floors ≠ []) :
    (∀ p q, posCmp (position base p) (position base q) = cmp (toLex p) (toLex q) ↔
        Aligned p.1 q.1) ∧
      ((∀ f ∈ floors, ∀ g ∈ floors, Aligned f.2.1 g.2.1) →
        ∃ start, oldestPosition (named base floors) = some (position base start) ∧
          (∀ f ∈ floors, toLex start ≤ toLex f.2) ∧
          ∀ (st : Setup ρ) watermark before e after f,
            AllAligned (numbers floors watermark before) →
            (∀ pre, pre <+: before → toLex (place start pre) < toLex watermark ∧
              toLex (place start pre) < toLex (place start (before ++ [Logged.rows e]))) →
            st.tracks e = true → floors.lookup e.table = some f →
            toLex f < toLex (place start (before ++ [Logged.rows e])) →
            (e, position base (place start (before ++ [Logged.rows e]))) ∈
                (extractChanges st (named base floors) (position base watermark)
                  ((before ++ Logged.rows e :: after).map (Logged.event base))).run.pushed ∨
              0 < st.limit ∧ ∃ r, extractChanges st (named base floors) (position base watermark)
                  ((before ++ Logged.rows e :: after).map (Logged.event base)) = .returned r ∧
                ∀ m, (e.table, m) ∈ r.marks → ∃ q, m = position base q ∧
                  toLex q < toLex (place start (before ++ [Logged.rows e]))) := by
  refine ⟨fun p q => posCmp_position_iff, fun haligned => ?_⟩
  obtain ⟨g, hg, holdest, hle⟩ := @exists_start base _ hsome
  refine ⟨g.2, holdest, fun f hf => (key_le_position_iff (haligned g hg f hf)).1 (hle f hf), ?_⟩
  intro st watermark before e after f hfiles hbefore htracks hfloor hlt
  have hf := mem_of_lookup hfloor
  have hreach : ∀ pre, pre <+: before →
      (position base (place g.2 pre)).key < (position base watermark).key := fun pre hpre =>
    (key_lt_position_iff (hfiles _ (mem_numbers_place hg hpre) _ mem_numbers_watermark)).2
      (hbefore pre hpre).1
  have hstart := not_not.2 (posCmp_eq_lt.2 (hreach [] nil_prefix))
  have hplace : place g.2 (before ++ [Logged.rows e]) = advanced (place g.2 before) e.logPos :=
    place_append
  rw [extractChanges, holdest]
  dsimp only [place, foldl_nil] at hstart ⊢
  rw [if_neg hstart, map_append, map_cons]
  rcases follow_append hreach with ⟨r', -, hfollow⟩ | ⟨hlimit, pre, r', hpre, hmarks, hfollow⟩
  · left
    rw [hfollow]
    change (e, position base (place g.2 (before ++ [Logged.rows e]))) ∈ _
    rw [hplace, ← advance_position]
    refine pushed_of_posCmp htracks ?_
    have hfile : Aligned f.1 (advanced (place g.2 before) e.logPos).1 := by
      rw [advanced_fst]
      exact hfiles _ (mem_numbers_floor hf) _ (mem_numbers_place hg (prefix_refl before))
    rw [floor, lookup_named, hfloor, Option.map_some, Option.getD_some, advance_position,
      posCmp_eq_gt, key_lt_position_iff hfile, ← hplace]
    exact hlt
  · right
    rw [hfollow]
    refine ⟨hlimit, _, rfl, fun m hm => ?_⟩
    rw [hmarks] at hm
    obtain ⟨_, -, rfl, rfl⟩ : ∃ r ∈ st.resources, r = e.table ∧
        mark (named base floors) (position base (place g.2 pre)) r = m := by
      simpa [Run.empty] using hm
    rcases mark_position hfloor (place g.2 pre) with hmark | hmark
    · exact ⟨_, hmark, (hbefore pre hpre).2⟩
    · exact ⟨_, hmark, hlt⟩

section Witness

private def orders : Setup Unit := ⟨"shop", ["orders"], 0, fun _ => 1⟩

private def cursors : List (String × (ℕ × ℕ)) := [("orders", (999998, 500)), ("items", (999999, 4))]

private theorem cursors_aligned : ∀ f ∈ cursors, ∀ g ∈ cursors, Aligned f.2.1 g.2.1 := by
  decide +kernel

private def newOrder : RowsEvent Unit := ⟨"shop", "orders", 600, [()]⟩

/-- Two floors in the last files before the millionth; the order logged after the rotation between them
is pushed. -/
theorem six_digits_ordered : ∃ start,
    oldestPosition (named "binlog" cursors) = some (position "binlog" start) ∧
      (newOrder, position "binlog" (999999, 600)) ∈
        (extractChanges orders (named "binlog" cursors) (position "binlog" (999999, 900))
          ([.rotate (999999, 4), .rows newOrder].map (Logged.event "binlog"))).run.pushed := by
  obtain ⟨start, hstart, -, hpush⟩ :=
    (@positions_ordered Unit "binlog" cursors (by decide)).2 cursors_aligned
  have holdest : oldestPosition (named "binlog" cursors) = some (position "binlog" (999998, 500)) := by
    decide +kernel
  obtain rfl : (999998, 500) = start := position_inj (Option.some.inj (holdest.symm.trans hstart))
  refine ⟨_, holdest, ?_⟩
  have hbefore : ∀ pre : List (Logged Unit), pre <+: [Logged.rotate (999999, 4)] →
      toLex (place (999998, 500) pre) < toLex (999999, 900) ∧
        toLex (place (999998, 500) pre) <
          toLex (place (999998, 500) [.rotate (999999, 4), .rows newOrder]) := by
    intro pre hpre
    rcases prefix_cons_iff.1 hpre with rfl | ⟨t, rfl, ht⟩
    · decide
    · obtain rfl := prefix_nil.1 ht
      decide
  exact (hpush orders (999999, 900) [.rotate (999999, 4)] newOrder [] (999998, 500)
    (by decide +kernel) hbefore (by decide) (by decide) (by decide)).resolve_right
      fun hlimit => absurd hlimit.1 (by decide)

/-- The file after number 999999 comes first as text: a cycle whose floor is in the file before and
whose watermark is in the new one takes its watermark for reached and never reads an event. -/
theorem millionth_file_sorts_first :
    posCmp (position "binlog" (999999, 500)) (position "binlog" (1000000, 300)) = .gt ∧
      toLex ((999999, 500) : ℕ × ℕ) < toLex (1000000, 300) ∧
      ∀ events, extractChanges orders (named "binlog" [("orders", (999999, 500))])
          (position "binlog" (1000000, 300)) events =
        .returned ⟨[], [("orders", position "binlog" (999999, 500))], 0⟩ := by
  have hnot : ¬Aligned 999999 1000000 := by decide +kernel
  have hkey : (position "binlog" (1000000, 300)).key < (position "binlog" (999999, 500)).key := by
    refine lt_of_le_of_ne (not_lt.1 (mt (key_position_lt_iff (by decide)).1 hnot)) fun heq => ?_
    have hpos : (300 : ℕ) = 500 := congrArg (fun k => (ofLex k).2) heq
    omega
  have hgt := posCmp_eq_gt.2 hkey
  refine ⟨hgt, Prod.Lex.toLex_lt_toLex.2 (.inl (by decide)), fun events => ?_⟩
  have hlater : posCmp (position "binlog" (999999, 500)) (position "binlog" (1000000, 300)) ≠ .lt := by
    decide
  have hmark : laterPosition (position "binlog" (1000000, 300)) (position "binlog" (999999, 500)) =
      position "binlog" (999999, 500) := if_pos hgt
  simp [extractChanges, named, oldestPosition, hlater, pushStreamMarks, mark,
    floor, hmark, Run.empty, orders]

end Witness

end Filament.Mysql
