import Mathlib.Algebra.Order.Floor.Div
import Mathlib.Data.Int.ConditionallyCompleteOrder
import Mathlib.Tactic.Ring
import Filament.Http.Paginate

/-!
# Offset and page pagination over a list

A server answers the page at an offset, or with a number, with the next items of a fixed list: as many
as the page size, and fewer only at the end.  The paginators stop at a page with fewer *records* than
the page size, and the items that are not objects are no records.

* `pageAt`, `Numbered`: the pages of the list, and the two strategies;
* `listServer`: the server;
* `keyed`: what a complete read emits from a page on;
* `paginate_from`, `paginate_stops`: the loop from any page on;
* `reads_whole_list_iff`: when the whole list is read, also with an interruption.
-/

namespace Filament.Http

open Pagination List Function Nat Item

variable {ρ : Type}

/-! ### Pages of a list -/

/-- The page with index `k`. -/
def pageAt (items : List (Item ρ)) (size k : ℕ) : List (Item ρ) := (items.drop (k * size)).take size

/-- The records of the objects among the items. -/
def objects (items : List (Item ρ)) : List ρ := items.filterMap Item.object?

theorem drop_eq_pageAt_append (items : List (Item ρ)) (size k : ℕ) :
    items.drop (k * size) = pageAt items size k ++ items.drop ((k + 1) * size) := by
  unfold pageAt
  rw [succ_mul, ← drop_drop, take_append_drop]

variable {items : List (Item ρ)}

theorem pageAt_eq_nil {size k : ℕ} (h : items.length ≤ k * size) :
    pageAt items size k = [] := by
  unfold pageAt
  rw [drop_eq_nil_of_le h, take_nil]

theorem length_le_of_short {size k : ℕ}
    (h : (pageAt items size k).length < size) : items.length ≤ (k + 1) * size := by
  unfold pageAt at h
  rw [length_take, length_drop] at h
  rw [succ_mul]
  omega

theorem objects_append (xs ys : List (Item ρ)) : objects (xs ++ ys) = objects xs ++ objects ys :=
  filterMap_append

theorem length_objects_le (items : List (Item ρ)) : (objects items).length ≤ items.length :=
  length_filterMap_le ..

theorem other_mem_of_length_lt (h : (objects items).length < items.length) :
    other ∈ items := by
  induction items with
  | nil => cases h
  | cons item items ih =>
    cases item with
    | other => exact (.head _)
    | object record =>
      refine mem_cons_of_mem _ (ih ?_)
      simpa [objects, object?] using h

theorem length_lt_of_other_mem (h : other ∈ items) :
    (objects items).length < items.length := by
  induction items with
  | nil => cases h
  | cons item items ih =>
    cases item with
    | other => exact lt_succ_of_le (length_objects_le items)
    | object record =>
      have hrest := ih ((mem_cons.1 h).resolve_left nofun)
      simpa [objects, object?] using hrest

/-! ### The server -/

/-- The strategies that count pages or items. -/
inductive Numbered where
  | offset (p : OffsetPaginator)
  | page (p : PagePaginator)

namespace Numbered

/-- The strategy as a paginator. -/
def paginator : Numbered → Paginator
  | .offset p => .offset p
  | .page p => .page p

def pageSize : Numbered → ℕ
  | .offset p => p.pageSize
  | .page p => p.pageSize

def hasMorePath : Numbered → String
  | .offset p => p.hasMorePath
  | .page p => p.hasMorePath

theorem pageSize_pos : ∀ s : Numbered, 0 < s.pageSize
  | .offset p => p.pageSize_pos
  | .page p => p.pageSize_pos

/-- The state of the page with index `k`. -/
def stateAt : Numbered → ℕ → State
  | .offset p, k => { offset := p.start + k * p.pageSize }
  | .page _, k => { page := if (k : ℤ) < maxInt then k + 1 else -maxInt - 1 }

/-- The position in the list that a state asks for; pages are numbered from 1. -/
def positionOf : Numbered → State → Option ℕ
  | .offset p, state => some (state.offset - p.start).toNat
  | .page p, state => if 0 < state.page then some ((state.page - 1).toNat * p.pageSize) else none

/-- The offset of the page leaves room for another page, or its number is an `int`. -/
def Fits : Numbered → ℕ → Prop
  | .offset p, k => p.start + k * p.pageSize ≤ maxInt - p.pageSize
  | .page _, k => k < maxInt

/-- The page is the last of the total the server reports. -/
def LastOfTotal (items : List (Item ρ)) : Numbered → ℕ → Prop
  | .offset _, _ => False
  | .page p, k => p.totalPagesPath ≠ "" ∧ items.length ⌈/⌉ p.pageSize ≤ k + 1

instance (s : Numbered) (k : ℕ) : Decidable (s.Fits k) :=
  match s with
  | .offset _ => inferInstanceAs (Decidable (_ ≤ _))
  | .page _ => inferInstanceAs (Decidable (_ < _))

instance (items : List (Item ρ)) (s : Numbered) (k : ℕ) : Decidable (s.LastOfTotal items k) :=
  match s with
  | .offset _ => .isFalse id
  | .page _ => inferInstanceAs (Decidable (_ ∧ _))

end Numbered

/-- What the paginators read of a response: only the total number of pages. -/
def totalResponse (total : ℕ) : Response where
  link := []
  asString := fun _ => .error (.missing "")
  asStringStrict := fun _ => .error (.missing "")
  int := fun _ => .ok total
  bool := fun _ => .error (.missing "")

/-- The server of a list. -/
def listServer (s : Numbered) (strictRecords : Bool) (items : List (Item ρ)) (state : State) :
    Except String (Page ρ) :=
  match s.positionOf state with
  | none => .error "page out of range"
  | some position =>
    .ok { status := 200
          empty := false
          apiError := none
          envelope := none
          records := records strictRecords ((items.drop position).take s.pageSize)
          response := totalResponse (items.length ⌈/⌉ s.pageSize) }

/-- A read of the list that keeps positions. -/
def listRead (s : Numbered) (name : String) : ReadSpec where
  name := name
  tokenMode := false
  strict := false
  restartOnResume := false
  pag := some s.paginator

/-! ### One request -/

variable {parseLinkHeader : String → String → String} {s : Numbered} {name : String}
  {strictRecords : Bool} {items page : List (Item ρ)} {k n m i : ℕ} {loop : Loop ρ} {o : Outcome ρ}

theorem positionOf_stateAt (hfits : s.Fits k) :
    s.positionOf (s.stateAt k) = some (k * s.pageSize) := by
  cases s with
  | offset p =>
    simp only [Numbered.positionOf, Numbered.stateAt, Numbered.pageSize]
    congr 1
    omega
  | page p =>
    rw [Numbered.Fits] at hfits
    simp only [Numbered.positionOf, Numbered.stateAt, Numbered.pageSize, hfits, if_true]
    rw [if_pos (by omega), Int.add_sub_cancel, Int.toNat_natCast]

theorem next_eq (hmore : s.hasMorePath = "") (hfits : s.Fits k) (n : ℕ) :
    s.paginator.next parseLinkHeader (s.stateAt k)
        (totalResponse (items.length ⌈/⌉ s.pageSize)) n =
      if n < s.pageSize ∨ s.LastOfTotal items k then .ok .ended
      else .ok (s.stateAt (k + 1)) := by
  cases s with
  | offset p =>
    have hnext : (p.start + k * p.pageSize : ℤ) + p.pageSize = p.start + (k + 1 : ℕ) * p.pageSize := by
      push_cast
      ring
    rw [Numbered.Fits, ← not_lt] at hfits
    simp only [Numbered.paginator, Paginator.next, OffsetPaginator.next_plain hmore,
      Numbered.stateAt, Numbered.LastOfTotal, Numbered.pageSize, hfits, if_false, or_false, hnext]
  | page p =>
    rw [Numbered.Fits] at hfits
    have hlast : (((items.length ⌈/⌉ p.pageSize : ℕ) : ℤ) ≤ (k : ℤ) + 1) ↔
        items.length ⌈/⌉ p.pageSize ≤ k + 1 := by
      omega
    have hafter : pageAfter ((k : ℤ) + 1) =
        if ((k + 1 : ℕ) : ℤ) < maxInt then ((k + 1 : ℕ) : ℤ) + 1 else -maxInt - 1 := by
      unfold pageAfter
      split_ifs <;> omega
    simp only [Numbered.paginator, Paginator.next, Numbered.stateAt, Numbered.LastOfTotal,
      Numbered.pageSize, PagePaginator.next_plain hmore
        (show (totalResponse (items.length ⌈/⌉ p.pageSize)).int p.totalPagesPath = .ok _ from rfl),
      hfits, if_true, hlast, hafter]
    by_cases hshort : n < p.pageSize
    · simp [hshort]
    · simp only [hshort, if_false, false_or]

/-- The loop after the records of a page. -/
def sent (s : Numbered) (loop : Loop ρ) (k : ℕ) (rs : List ρ) : Loop ρ :=
  { loop with
    emitted := loop.emitted ++ rs.map fun record => ⟨record, some (s.stateAt k)⟩
    pageCount := loop.pageCount + 1 }

theorem step_page (hmore : s.hasMorePath = "") (hfits : s.Fits k) (hstate : loop.state = s.stateAt k) :
    step parseLinkHeader (listRead s name) (listServer s strictRecords items) loop =
      match records strictRecords (pageAt items s.pageSize k) with
      | .error e =>
        .inr ⟨loop.emitted, loop.pageCount, none, .error ("decode " ++ name ++ ": " ++ e)⟩
      | .ok rs =>
        if rs.length < s.pageSize ∨ s.LastOfTotal items k then
          .inr ⟨(sent s loop k rs).emitted, loop.pageCount + 1, none, .ok ()⟩
        else .inl { sent s loop k rs with state := s.stateAt (k + 1) } := by
  have hdone : (s.stateAt (k + 1)).done = false := by cases s <;> rfl
  obtain ⟨state, resumed, seen, pageCount, emitted⟩ := loop
  obtain rfl : state = s.stateAt k := hstate
  simp only [step, listServer, positionOf_stateAt hfits]
  simp only [listRead, ReadSpec.strictCursor, Bool.or_self, Bool.not_false, Bool.and_false,
    Bool.false_eq_true, if_false, readPage, reduceEqDiff, decide_false]
  rw [show (items.drop (k * s.pageSize)).take s.pageSize = pageAt items s.pageSize k from rfl]
  cases records strictRecords (pageAt items s.pageSize k) with
  | error e => rfl
  | ok rs =>
    simp only [advance, ReadSpec.strictCursor, Bool.or_self, Bool.false_eq_true, if_false,
      next_eq hmore hfits]
    split_ifs with hend
    · rfl
    · simp only [hdone]
      rfl

/-- A page that does not fit fails the read. -/
theorem step_not_fits (hfits : ¬ s.Fits k) (hstate : loop.state = s.stateAt k)
    (hfresh : loop.resumed = false) :
    ∃ o, step parseLinkHeader (listRead s name) (listServer s strictRecords items) loop = .inr o ∧
      o.result ≠ .ok () := by
  cases s with
  | offset p =>
    have hoffset : maxInt - p.pageSize < loop.state.offset := by
      rw [hstate]
      exact not_le.1 hfits
    simp only [step, listServer, Numbered.positionOf, listRead, ReadSpec.strictCursor, Bool.or_self,
      Bool.not_false, Bool.and_false, Bool.false_eq_true, if_false, readPage, reduceEqDiff,
      decide_false]
    cases records strictRecords _ with
    | error e => exact ⟨_, rfl, by simp⟩
    | ok rs =>
      simp [advance, ReadSpec.strictCursor, Numbered.paginator, Paginator.next, OffsetPaginator.next,
        hoffset]
  | page p =>
    have hpage : ¬ 0 < loop.state.page := by
      rw [Numbered.Fits] at hfits
      have hmax := two_lt_maxInt
      simp only [hstate, Numbered.stateAt, hfits, if_false]
      omega
    have hnone : (Numbered.page p).positionOf loop.state = none := if_neg hpage
    simp [step, listServer, hnone, hfresh, listRead]

/-! ### Whole reads -/

variable (s items k) in
/-- The records of a page with its position. -/
def keyed : List (Emitted ρ) :=
  (objects (pageAt items s.pageSize k)).map fun record => ⟨record, some (s.stateAt k)⟩

variable (s items k) in
/-- The records of the pages from `k` on. -/
def keyedFrom : List (Emitted ρ) :=
  (List.range' k (items.length / s.pageSize + 1 - k)).flatMap (keyed s items)

theorem keyedFrom_cons (hk : k * s.pageSize ≤ items.length) :
    keyedFrom s items k = keyed s items k ++ keyedFrom s items (k + 1) := by
  have hle : k ≤ items.length / s.pageSize := (le_div_iff_mul_le s.pageSize_pos).2 hk
  unfold keyedFrom
  rw [show items.length / s.pageSize + 1 - k = items.length / s.pageSize + 1 - (k + 1) + 1 by omega,
    range'_succ, flatMap_cons]

theorem keyedFrom_of_past (hk : items.length < k * s.pageSize) : keyedFrom s items k = [] := by
  have hlt : items.length / s.pageSize < k := (div_lt_iff_lt_mul s.pageSize_pos).2 hk
  unfold keyedFrom
  rw [show items.length / s.pageSize + 1 - k = 0 by omega]
  rfl

theorem map_record_keyed : (keyed s items k).map Emitted.record =
    objects (pageAt items s.pageSize k) := by
  simp [keyed, comp_def]

theorem map_record_keyedFrom (s : Numbered) (items : List (Item ρ)) (k : ℕ) :
    (keyedFrom s items k).map Emitted.record = objects (items.drop (k * s.pageSize)) := by
  -- on the number of pages left
  induction hm : items.length / s.pageSize + 1 - k generalizing k with
  | zero =>
    have hlt : items.length < k * s.pageSize :=
      (div_lt_iff_lt_mul s.pageSize_pos).1 (by omega)
    rw [keyedFrom_of_past hlt, drop_eq_nil_of_le hlt.le]
    rfl
  | succ m ih =>
    have hle : k * s.pageSize ≤ items.length :=
      (le_div_iff_mul_le s.pageSize_pos).1 (by omega)
    rw [keyedFrom_cons hle, map_append, map_record_keyed, ih (k + 1) (by omega),
      drop_eq_pageAt_append items s.pageSize k, objects_append]

theorem keyedFrom_eq_nil (h : objects (items.drop (k * s.pageSize)) = []) :
    keyedFrom s items k = [] := by
  rw [← map_record_keyedFrom] at h
  exact map_eq_nil_iff.1 h

variable (s strictRecords items k) in
/-- A page after which the pages end, if all is well, has no objects after it. -/
def Ends : Prop :=
  Item.other ∈ pageAt items s.pageSize k →
    strictRecords = false ∧ objects (items.drop ((k + 1) * s.pageSize)) = []

variable (s items k) in
/-- The pages before `k` are full of objects, and none of them is the last of the total. -/
def Reached : Prop :=
  ∀ j < k, (objects (pageAt items s.pageSize j)).length = s.pageSize ∧ ¬ s.LastOfTotal items j

theorem reached_zero : Reached s items 0 := fun _ hj => absurd hj (not_lt_zero _)

theorem length_pageAt_le (items : List (Item ρ)) (size k : ℕ) :
    (pageAt items size k).length ≤ size := by
  unfold pageAt
  rw [length_take]
  exact min_le_left ..

theorem length_objects_pageAt_le (items : List (Item ρ)) (size k : ℕ) :
    (objects (pageAt items size k)).length ≤ size :=
  (length_objects_le _).trans (length_pageAt_le items size k)

theorem Reached.succ (h : Reached s items k)
    (hfull : s.pageSize ≤ (objects (pageAt items s.pageSize k)).length)
    (hlast : ¬ s.LastOfTotal items k) : Reached s items (k + 1) := by
  intro j hj
  rcases Nat.lt_succ_iff_lt_or_eq.1 hj with hj | rfl
  · exact h j hj
  · exact ⟨le_antisymm (length_objects_pageAt_le items s.pageSize j) hfull, hlast⟩

theorem le_length_of_full (h : s.pageSize ≤ (objects (pageAt items s.pageSize k)).length) :
    (k + 1) * s.pageSize ≤ items.length := by
  have hlen := h.trans (length_objects_le _)
  have hpos := s.pageSize_pos
  unfold pageAt at hlen
  rw [length_take, length_drop] at hlen
  rw [succ_mul]
  omega

theorem length_le_of_lastOfTotal (h : s.LastOfTotal items k) :
    items.length ≤ (k + 1) * s.pageSize := by
  cases s with
  | offset p => exact h.elim
  | page p =>
    have hle := (ceilDiv_le_iff_le_mul p.pageSize_pos).1 h.2
    rw [mul_comm] at hle
    exact hle

theorem records_eq_ok {rs : List ρ} (h : records strictRecords page = .ok rs) :
    rs = objects page ∧ (other ∈ page → strictRecords = false) := by
  by_cases hother : strictRecords = true → other ∉ page
  · rw [records_of_objects hother] at h
    cases h
    exact ⟨rfl, fun hmem => Bool.eq_false_iff.2 fun hstrict => hother hstrict hmem⟩
  · obtain ⟨rfl, hmem⟩ := Classical.not_imp.1 hother
    rw [records_strict (not_not.1 hmem)] at h
    cases h

theorem records_pageAt (h : Ends s strictRecords items k) :
    records strictRecords (pageAt items s.pageSize k) =
      .ok (objects (pageAt items s.pageSize k)) := by
  refine records_of_objects fun hstrict hother => ?_
  rw [(h hother).1] at hstrict
  cases hstrict

theorem objects_drop_eq_nil (h : items.length ≤ m) : objects (items.drop m) = [] := by
  rw [drop_eq_nil_of_le h]
  rfl

/-- After a page with too few objects, or the last of the total, no object is left. -/
theorem objects_after_eq_nil (hends : Ends s strictRecords items k)
    (h : (objects (pageAt items s.pageSize k)).length < s.pageSize ∨ s.LastOfTotal items k) :
    objects (items.drop ((k + 1) * s.pageSize)) = [] := by
  rcases h with hshort | hlast
  · by_cases hother : other ∈ pageAt items s.pageSize k
    · exact (hends hother).2
    · have hlen : (pageAt items s.pageSize k).length < s.pageSize :=
        (not_lt.1 fun hlt => hother (other_mem_of_length_lt hlt)).trans_lt hshort
      exact objects_drop_eq_nil (length_le_of_short hlen)
  · exact objects_drop_eq_nil (length_le_of_lastOfTotal hlast)

/-- **The loop from a page on reads everything from there.** -/
theorem paginate_from (hmore : s.hasMorePath = "") (hfits : ∀ j, Reached s items j → s.Fits j)
    (hends : ∀ j, Ends s strictRecords items j) (hk : k * s.pageSize ≤ items.length)
    (hreach : Reached s items k) (hstate : loop.state = s.stateAt k) :
    ∃ fuel o, paginate parseLinkHeader (listRead s name) (listServer s strictRecords items) fuel
      loop = some o ∧ o.result = .ok () ∧ o.emitted = loop.emitted ++ keyedFrom s items k := by
  -- on the number of pages left
  induction hm : items.length / s.pageSize - k using Nat.strong_induction_on generalizing k loop with
  | _ m ih =>
    have hstep := @step_page ρ parseLinkHeader s name strictRecords items k loop hmore
      (hfits k hreach) hstate
    rw [records_pageAt (hends k)] at hstep
    dsimp only at hstep
    rw [keyedFrom_cons hk]
    by_cases hend : (objects (pageAt items s.pageSize k)).length < s.pageSize ∨
        s.LastOfTotal items k
    · rw [if_pos hend] at hstep
      refine ⟨1, _, paginate_of_outcome hstep 0, rfl, ?_⟩
      rw [keyedFrom_eq_nil (objects_after_eq_nil (hends k) hend), append_nil]
      rfl
    rw [if_neg hend] at hstep
    obtain ⟨hfull, hnotLast⟩ := not_or.1 hend
    have hnext := le_length_of_full (Nat.not_lt.1 hfull)
    have hmore' := (Nat.le_div_iff_mul_le s.pageSize_pos).2 hnext
    obtain ⟨fuel, o, ho, hresult, hemitted⟩ := ih _ (by omega) hnext
      (hreach.succ (Nat.not_lt.1 hfull) hnotLast)
      (show ({ sent s loop k (objects (pageAt items s.pageSize k)) with
        state := s.stateAt (k + 1) } : Loop ρ).state = s.stateAt (k + 1) from rfl) rfl
    refine ⟨fuel + 1, o, (paginate_of_next hstep fuel).trans ho, hresult, ?_⟩
    rw [hemitted, ← append_assoc]
    rfl

/-! ### What a whole read shows -/

variable (parseLinkHeader s name strictRecords items o) in
/-- The read has come to the page with index `k`, with the objects before it. -/
def Visits (k : ℕ) : Prop :=
  ∃ fuel loop, loop.state = s.stateAt k ∧ loop.resumed = false ∧
    loop.emitted.map Emitted.record = objects (items.take (k * s.pageSize)) ∧
    paginate parseLinkHeader (listRead s name) (listServer s strictRecords items) fuel loop = some o

theorem objects_take_succ (items : List (Item ρ)) (size k : ℕ) :
    objects (items.take ((k + 1) * size)) =
      objects (items.take (k * size)) ++ objects (pageAt items size k) := by
  rw [succ_mul, take_add, objects_append]
  rfl

theorem objects_eq_append (items : List (Item ρ)) (m : ℕ) :
    objects items = objects (items.take m) ++ objects (items.drop m) := by
  rw [← objects_append, take_append_drop]

section

variable (hmore : s.hasMorePath = "") (hok : o.result = .ok ())
  (hemitted : o.emitted.map Emitted.record = objects items)
include hmore hok hemitted

/-- A page that a whole read visits fits and ends the objects if it has to; a full page is followed by
the next. -/
theorem visit_page (hvisit : Visits parseLinkHeader s name strictRecords items o k) :
    s.Fits k ∧ Ends s strictRecords items k ∧
      ((objects (pageAt items s.pageSize k)).length = s.pageSize → ¬ s.LastOfTotal items k →
        Visits parseLinkHeader s name strictRecords items o (k + 1)) := by
  obtain ⟨fuel, loop, hstate, hfresh, hloop, hpag⟩ := hvisit
  cases fuel with
  | zero => cases hpag
  | succ fuel =>
    by_cases hfits : s.Fits k
    · have hstep := @step_page ρ parseLinkHeader s name strictRecords items k loop hmore hfits hstate
      refine ⟨hfits, ?_⟩
      cases hrec : records strictRecords (pageAt items s.pageSize k) with
      | error e =>
        rw [hrec] at hstep
        rw [paginate_of_outcome hstep] at hpag
        cases hpag
        cases hok
      | ok rs =>
        obtain ⟨rfl, hlenient⟩ := records_eq_ok hrec
        rw [hrec] at hstep
        have hsent : (sent s loop k (objects (pageAt items s.pageSize k))).emitted.map
            Emitted.record = objects (items.take ((k + 1) * s.pageSize)) := by
          rw [objects_take_succ, ← hloop]
          simp [sent, comp_def]
        dsimp only at hstep
        split_ifs at hstep with hend
        · rw [paginate_of_outcome hstep] at hpag
          cases hpag
          refine ⟨fun hother => ⟨hlenient hother, ?_⟩, fun hfull hlast => ?_⟩
          · rw [objects_eq_append items ((k + 1) * s.pageSize)] at hemitted
            exact self_eq_append_right.1 (hsent.symm.trans hemitted)
          · exact absurd hend (not_or.2 ⟨hfull.ge.not_gt, hlast⟩)
        · rw [paginate_of_next hstep] at hpag
          refine ⟨fun hother => ?_, fun _ _ =>
            ⟨fuel, { sent s loop k _ with state := s.stateAt (k + 1) }, rfl, hfresh, hsent, hpag⟩⟩
          have hlt := length_lt_of_other_mem hother
          have hle := length_pageAt_le items s.pageSize k
          exact absurd (.inl (hlt.trans_le hle)) hend
    · obtain ⟨o', hstep, hfails⟩ := @step_not_fits ρ parseLinkHeader s name strictRecords items k loop
        hfits hstate hfresh
      rw [paginate_of_outcome hstep] at hpag
      cases hpag
      exact absurd hok hfails

theorem visits_of_reached (hfirst : Visits parseLinkHeader s name strictRecords items o 0)
    (hreach : Reached s items k) :
    Visits parseLinkHeader s name strictRecords items o k := by
  induction k with
  | zero => exact hfirst
  | succ k ih =>
    obtain ⟨hfull, hlast⟩ := hreach k (lt_succ_self k)
    have hvisit := ih fun j hj => hreach j (lt_succ_of_lt hj)
    exact (visit_page hmore hok hemitted hvisit).2.2 hfull hlast

end

theorem objects_eq_nil_of_not_reached (hends : ∀ j, Reached s items j → Ends s strictRecords items j)
    (h : ¬ Reached s items k) :
    objects (items.drop (k * s.pageSize)) = [] ∧
      (other ∈ pageAt items s.pageSize k → strictRecords = false) := by
  -- the first page before `k` that stops the read
  obtain ⟨j, hj⟩ := Classical.not_forall.1 h
  have hex : ∃ j, j < k ∧ ¬ ((objects (pageAt items s.pageSize j)).length = s.pageSize ∧
      ¬ s.LastOfTotal items j) := ⟨j, Classical.not_imp.1 hj⟩
  obtain ⟨hlt, hstops⟩ := Nat.find_spec hex
  set j := Nat.find hex
  have hreach : Reached s items j := fun i hi => by
    by_contra hnot
    exact Nat.find_min hex hi ⟨hi.trans hlt, hnot⟩
  have hle : (j + 1) * s.pageSize ≤ k * s.pageSize := Nat.mul_le_mul_right _ hlt
  have hstop : (objects (pageAt items s.pageSize j)).length < s.pageSize ∨
      s.LastOfTotal items j := by
    by_contra hcontra
    obtain ⟨hfull, hlast⟩ := not_or.1 hcontra
    exact hstops ⟨le_antisymm (length_objects_pageAt_le ..) (Nat.not_lt.1 hfull), hlast⟩
  refine ⟨?_, fun hother => ?_⟩
  · have hnil := objects_after_eq_nil (hends j hreach) hstop
    obtain ⟨m, hm⟩ := Nat.exists_eq_add_of_le hle
    rw [objects_eq_append (items.drop ((j + 1) * s.pageSize)) m, append_eq_nil_iff,
      drop_drop, ← hm] at hnil
    exact hnil.2
  · by_cases hmem : other ∈ pageAt items s.pageSize j
    · exact (hends j hreach hmem).1
    have hshort : items.length ≤ (j + 1) * s.pageSize := by
      rcases hstop with hshort | hlast
      · refine length_le_of_short (lt_of_le_of_lt ?_ hshort)
        exact Nat.not_lt.1 fun hlt => hmem (other_mem_of_length_lt hlt)
      · exact length_le_of_lastOfTotal hlast
    rw [pageAt_eq_nil (hshort.trans hle)] at hother
    cases hother

theorem reached_of_object (hends : ∀ j, Ends s strictRecords items j)
    (h : objects (pageAt items s.pageSize k) ≠ []) : Reached s items k := by
  by_contra hnot
  have hnil := (objects_eq_nil_of_not_reached (fun j _ => hends j) hnot).1
  rw [drop_eq_pageAt_append, objects_append, append_eq_nil_iff] at hnil
  exact h hnil.1

/-! ### The whole list -/

theorem initial_state (s : Numbered) (name : String) :
    (initialPaginationState (listRead s name) {} "" : Loop ρ).state = s.stateAt 0 := by
  cases s <;> simp [initialPaginationState, listRead, Numbered.paginator, Paginator.initial,
    Numbered.stateAt, two_lt_maxInt.trans' two_pos]

/-- A saved position is taken up; the empty one is that of the first page. -/
theorem resumed_state (s : Numbered) (name : String) (k : ℕ) :
    (initialPaginationState (listRead s name) (s.stateAt k) "" : Loop ρ).state = s.stateAt k := by
  by_cases hempty : s.stateAt k = {}
  · rw [hempty, initial_state]
    cases s with
    | offset p =>
      have hzero : (p.start : ℤ) + k * p.pageSize = 0 := congrArg State.offset hempty
      have hstart : (p.start : ℤ) = 0 := by
        have := Int.natCast_nonneg (k * p.pageSize)
        omega
      simp [Numbered.stateAt, hstart]
    | page p =>
      have hpage := congrArg State.page hempty
      simp only [Numbered.stateAt] at hpage
      have hmax := two_lt_maxInt
      split_ifs at hpage <;> omega
  · simp [initialPaginationState, listRead, hempty]

theorem initial_emitted (s : Numbered) (name : String) (state : State) :
    (initialPaginationState (listRead s name) state "" : Loop ρ).emitted = [] := rfl

/-- A record of a read carries the position of its page, and the read from there on is the rest. -/
theorem keyedFrom_getElem? {e : Emitted ρ} (h : (keyedFrom s items k)[i]? = some e) :
    ∃ j m, e.key = some (s.stateAt j) ∧ objects (pageAt items s.pageSize j) ≠ [] ∧
      j * s.pageSize ≤ items.length ∧ m ≤ i ∧
      keyedFrom s items k = (keyedFrom s items k).take m ++ keyedFrom s items j := by
  induction hn : items.length / s.pageSize + 1 - k generalizing k i with
  | zero =>
    have hlt : items.length < k * s.pageSize :=
      (div_lt_iff_lt_mul s.pageSize_pos).1 (by omega)
    rw [keyedFrom_of_past hlt] at h
    cases h
  | succ n ih =>
    have hle : k * s.pageSize ≤ items.length :=
      (le_div_iff_mul_le s.pageSize_pos).1 (by omega)
    by_cases hi : i < (keyed s items k).length
    · have hmem : e ∈ keyed s items k := by
        rw [keyedFrom_cons hle, getElem?_append_left hi] at h
        exact mem_of_getElem? h
      obtain ⟨record, hrecord, rfl⟩ := mem_map.1 hmem
      exact ⟨k, 0, rfl, ne_nil_of_mem hrecord, hle, zero_le _, rfl⟩
    · rw [keyedFrom_cons hle, getElem?_append_right (not_lt.1 hi)] at h
      obtain ⟨j, m, hkey, hobjects, hj, hm, hsplit⟩ := ih h (by omega)
      refine ⟨j, (keyed s items k).length + m, hkey, hobjects, hj, by omega, ?_⟩
      rw [keyedFrom_cons hle, take_length_add_append, append_assoc, ← hsplit]

/-- **Offset and page pagination read the whole list exactly when a page with an item that is not an
object has no object after it.**  A read then emits every object once and in order, and a second
attempt from the position of any emitted record emits the rest from that record's page on.  For strict
decoding all items have to be objects, and the offset or the number of a page that is read must not
overflow. -/
theorem reads_whole_list_iff (parseLinkHeader : String → String → String) (s : Numbered)
    (hmore : s.hasMorePath = "") (name : String) (strictRecords : Bool) (items : List (Item ρ)) :
    (∃ fuel o, paginate parseLinkHeader (listRead s name) (listServer s strictRecords items) fuel
        (initialPaginationState (listRead s name) {} "") = some o ∧ o.result = .ok () ∧
      o.emitted.map Emitted.record = objects items ∧
      ∀ (i : ℕ) (e : Emitted ρ), o.emitted[i]? = some e → ∃ state fuel' o' m, e.key = some state ∧
        paginate parseLinkHeader (listRead s name) (listServer s strictRecords items) fuel'
          (initialPaginationState (listRead s name) state "") = some o' ∧ o'.result = .ok () ∧
        m ≤ i ∧ o.emitted = o.emitted.take m ++ o'.emitted) ↔
      (∀ k, Reached s items k → s.Fits k) ∧ ∀ k, Ends s strictRecords items k := by
  constructor
  · rintro ⟨fuel, o, hpag, hok, hemitted, -⟩
    have hfirst : Visits parseLinkHeader s name strictRecords items o 0 := by
      refine ⟨fuel, _, initial_state s name, rfl, ?_, hpag⟩
      rw [initial_emitted, zero_mul]
      rfl
    have hvisits := fun k (hreach : Reached s items k) =>
      visit_page hmore hok hemitted (visits_of_reached hmore hok hemitted hfirst hreach)
    refine ⟨fun k hreach => (hvisits k hreach).1, fun k => ?_⟩
    by_cases hreach : Reached s items k
    · exact (hvisits k hreach).2.1
    obtain ⟨hnil, hlenient⟩ :=
      objects_eq_nil_of_not_reached (fun j hj => (hvisits j hj).2.1) hreach
    rw [drop_eq_pageAt_append, objects_append, append_eq_nil_iff] at hnil
    exact fun hother => ⟨hlenient hother, hnil.2⟩
  · rintro ⟨hfits, hends⟩
    obtain ⟨fuel, o, hpag, hok, hemitted⟩ := @paginate_from ρ parseLinkHeader s name strictRecords
      items 0 _ hmore hfits hends (by rw [zero_mul]; exact zero_le _) reached_zero
      (initial_state s name)
    rw [initial_emitted, nil_append] at hemitted
    refine ⟨fuel, o, hpag, hok, ?_, fun i e hi => ?_⟩
    · rw [hemitted, map_record_keyedFrom, zero_mul, drop_zero]
    · rw [hemitted] at hi ⊢
      obtain ⟨j, m, hkey, hobjects, hj, hm, hsplit⟩ := keyedFrom_getElem? hi
      obtain ⟨fuel', o', hpag', hok', hemitted'⟩ := @paginate_from ρ parseLinkHeader s name
        strictRecords items j _ hmore hfits hends hj (reached_of_object hends hobjects)
        (resumed_state s name j)
      exact ⟨_, fuel', o', m, hkey, hpag', hok', hm, by rw [hemitted']; exact hsplit⟩

section Witness

/-- Pages of two items. -/
private def byPage : Numbered := .page ⟨2, "", "", by decide⟩

private def byOffset : Numbered := .offset ⟨0, 2, "", by decide⟩

private def noLinks (_ _ : String) : String := ""

/-- Two objects, and a null on the last page. -/
private def nullLast : List (Item ℕ) := [.object 1, .object 2, .other]

/-- A null on the first page. -/
private def nullFirst : List (Item ℕ) := [.other, .object 1, .object 2]

private theorem nullLast_ends (k : ℕ) : Ends byPage false nullLast k := by
  match k with
  | 0 => exact fun hother => absurd hother (by decide)
  | 1 => exact fun _ => ⟨rfl, rfl⟩
  | k + 2 =>
    have hpast : nullLast.length ≤ (k + 2) * byPage.pageSize := by
      change 3 ≤ (k + 2) * 2
      omega
    intro hother
    rw [pageAt_eq_nil hpast] at hother
    cases hother

private theorem nullLast_fits (k : ℕ) (h : Reached byPage nullLast k) : byPage.Fits k := by
  have hk : k < 2 := by
    by_contra hge
    exact absurd (h 1 (by omega)).1 (by decide)
  have hmax := two_lt_maxInt
  change (k : ℤ) < maxInt
  omega

/-- A list whose last item is null is read as a whole. -/
theorem null_on_last_page_read :
    byPage.hasMorePath = "" ∧ ∃ fuel o, paginate noLinks (listRead byPage "users")
        (listServer byPage false nullLast) fuel
        (initialPaginationState (listRead byPage "users") {} "") = some o ∧
      o.result = .ok () ∧ o.emitted.map Emitted.record = [1, 2] := by
  obtain ⟨fuel, o, hpag, hok, hemitted, -⟩ :=
    (reads_whole_list_iff noLinks byPage rfl "users" false nullLast).2
      ⟨nullLast_fits, nullLast_ends⟩
  exact ⟨rfl, fuel, o, hpag, hok, hemitted⟩

/-- A null on the first page makes it look short: the second page is never read. -/
theorem null_on_first_page_stops :
    (paginate noLinks (listRead byOffset "users") (listServer byOffset false nullFirst) 5
        (initialPaginationState (listRead byOffset "users") {} "")).map
          (fun o => o.emitted.map Emitted.record) = some [1] ∧
      objects nullFirst = [1, 2] :=
  ⟨rfl, rfl⟩

end Witness

end Filament.Http
