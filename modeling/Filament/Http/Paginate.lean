import Mathlib.Data.List.Basic
import Filament.Http.Pagination

/-!
# The page loop of the HTTP connector

`paginate` fetches a page, decodes its records, sends them with the position of the page, and asks the
paginator for the next position.  A resource with strict cursors takes the next position from the
response itself.

* `Item`, `records`: decoding the items of a page; those that are not objects are skipped or rejected;
* `Page`: what the loop reads of a response;
* `Loop`, `Outcome`, `step`, `paginate`: the loop, with a bound on the number of requests.
-/

namespace Filament.Http

open Pagination List

/-- An item of a page: an object, or something else such as null. -/
inductive Item (ρ : Type) where
  | object (record : ρ)
  | other
  deriving DecidableEq, Repr

/-- The record of an object. -/
def Item.object? {ρ : Type} : Item ρ → Option ρ
  | .object record => some record
  | .other => none

/-- Decodes the items of a page. -/
def records {ρ : Type} (strictRecords : Bool) : List (Item ρ) → Except String (List ρ)
  | [] => .ok []
  | .object record :: items => (records strictRecords items).map (record :: ·)
  | .other :: items =>
    if strictRecords then .error "response: record is not an object" else records strictRecords items

/-- What the loop reads of a response: its status, whether it matches the rule for empty responses,
the error it wraps, the token and the continuation flag of a valid strict envelope, its decoded
records, and what the paginators read. -/
structure Page (ρ : Type) where
  status : ℕ
  empty : Bool
  apiError : Option String
  envelope : Option (String × Bool)
  records : Except String (List ρ)
  response : Response

/-- The settings of a resource that the loop reads. `tokenMode` is an incremental read by response
cursors. -/
structure ReadSpec where
  name : String
  tokenMode : Bool
  strict : Bool
  restartOnResume : Bool
  pag : Option Paginator

/-- The next position comes from the response envelope. -/
def ReadSpec.strictCursor (res : ReadSpec) : Bool := res.tokenMode || res.strict

/-- A record with the position attached to it. -/
structure Emitted (ρ : Type) where
  record : ρ
  key : Option State
  deriving DecidableEq, Repr

/-- Where the loop stands. `resumed` says that it starts from a saved position. -/
structure Loop (ρ : Type) where
  state : State
  resumed : Bool
  seen : List String
  pageCount : ℕ
  emitted : List (Emitted ρ)

/-- What the loop returns. `checkpoint` is the token that a read by response cursors commits. -/
structure Outcome (ρ : Type) where
  emitted : List (Emitted ρ)
  pageCount : ℕ
  checkpoint : Option String
  result : Except String Unit

section Loop

variable {ρ : Type} (parseLinkHeader : String → String → String) (res : ReadSpec)
  (fetchPage : State → Except String (Page ρ))

/-- The position of the first request: the saved one unless it is empty. `cursor` is the saved token of
a read by response cursors. -/
def initialPaginationState (resumeState : State) (cursor : String) : Loop ρ :=
  let state := match res.pag with
    | none => {}
    | some pag => if resumeState = {} then pag.initial else resumeState
  { state := if res.tokenMode then { state with cursor := cursor } else state
    resumed := resumeState ≠ {}
    seen := if res.tokenMode && cursor ≠ "" then [cursor] else []
    pageCount := 0
    emitted := [] }

/-- The strict cursor of a response; a token that continues must not have been seen. -/
def responseCursor (seen : List String) (page : Page ρ) : Except String (String × Bool) :=
  match page.envelope with
  | none => .error ("invalid response cursor envelope for " ++ res.name)
  | some (token, more) =>
    if more ∧ token ∈ seen then .error ("response cursor cycle for " ++ res.name)
    else .ok (token, more)

/-- The records with the position of their page, where the read keeps positions. -/
def sendRecords (state : State) (records : List ρ) : List (Emitted ρ) :=
  let key := if res.pag.isSome && !res.tokenMode && !res.restartOnResume then some state else none
  records.map fun record => ⟨record, key⟩

/-- What follows a page whose records have been sent. `cursor` is the token and the flag of a strict
response. -/
def advance (loop : Loop ρ) (page : Page ρ) (recordCount : ℕ) (cursor : String × Bool) :
    Loop ρ ⊕ Outcome ρ :=
  if res.strictCursor then
    if cursor.2 then
      .inl { loop with state := { cursor := cursor.1 }, seen := cursor.1 :: loop.seen }
    else
      .inr ⟨loop.emitted, loop.pageCount, if res.tokenMode then some cursor.1 else none, .ok ()⟩
  else
    match res.pag with
    | none => .inr ⟨loop.emitted, loop.pageCount, none, .ok ()⟩
    | some pag =>
      match pag.next parseLinkHeader loop.state page.response recordCount with
      | .error e =>
        .inr ⟨loop.emitted, loop.pageCount, none,
          .error ("paginator next on " ++ res.name ++ ": " ++ e)⟩
      | .ok state =>
        if state.done then .inr ⟨loop.emitted, loop.pageCount, none, .ok ()⟩
        else .inl { loop with state := state }

/-- Decodes and sends the records of a page. -/
def readPage (loop : Loop ρ) (page : Page ρ) (cursor : String × Bool) : Loop ρ ⊕ Outcome ρ :=
  match page.records with
  | .error e =>
    .inr ⟨loop.emitted, loop.pageCount, none, .error ("decode " ++ res.name ++ ": " ++ e)⟩
  | .ok records =>
    advance parseLinkHeader res
      { loop with
        emitted := loop.emitted ++ sendRecords res loop.state records
        pageCount := loop.pageCount + 1 }
      page records.length cursor

/-- One request of the loop. A saved position whose first request fails is given up. -/
def step (loop : Loop ρ) : Loop ρ ⊕ Outcome ρ :=
  match fetchPage loop.state with
  | .error e =>
    match res.pag with
    | some pag =>
      if !res.strictCursor && loop.resumed && loop.pageCount = 0 then
        .inl { loop with state := pag.initial, resumed := false }
      else .inr ⟨loop.emitted, loop.pageCount, none, .error e⟩
    | none => .inr ⟨loop.emitted, loop.pageCount, none, .error e⟩
  | .ok page =>
    if !res.strictCursor && page.empty then .inr ⟨loop.emitted, loop.pageCount + 1, none, .ok ()⟩
    else
      match page.apiError with
      | some e =>
        .inr ⟨loop.emitted, loop.pageCount, none,
          .error ("response error on " ++ res.name ++ ": " ++ e)⟩
      | none =>
        if !res.strictCursor && page.status = 204 then
          .inr ⟨loop.emitted, loop.pageCount + 1, none, .ok ()⟩
        else if res.strictCursor then
          match responseCursor res loop.seen page with
          | .error e => .inr ⟨loop.emitted, loop.pageCount, none, .error e⟩
          | .ok cursor => readPage parseLinkHeader res loop page cursor
        else readPage parseLinkHeader res loop page ("", false)

/-- The loop, within a number of requests. -/
def paginate : ℕ → Loop ρ → Option (Outcome ρ)
  | 0, _ => none
  | fuel + 1, loop =>
    match step parseLinkHeader res fetchPage loop with
    | .inl next => paginate fuel next
    | .inr outcome => some outcome

variable {parseLinkHeader res fetchPage}

variable {loop : Loop ρ}

theorem paginate_of_outcome {outcome : Outcome ρ}
    (h : step parseLinkHeader res fetchPage loop = .inr outcome) (fuel : ℕ) :
    paginate parseLinkHeader res fetchPage (fuel + 1) loop = some outcome := by
  simp only [paginate, h]

variable {next : Loop ρ}

theorem paginate_det {fuel fuel' : ℕ} {o o' : Outcome ρ}
    (h : paginate parseLinkHeader res fetchPage fuel loop = some o)
    (h' : paginate parseLinkHeader res fetchPage fuel' loop = some o') : o = o' := by
  induction fuel generalizing fuel' loop with
  | zero => cases h
  | succ fuel ih =>
    cases fuel' with
    | zero => cases h'
    | succ fuel' =>
      simp only [paginate] at h h'
      split at h <;> rename_i heq <;> simp only [heq] at h'
      · exact ih h h'
      · exact Option.mem_unique h h'

theorem advance_resumed (loop : Loop ρ) (b : Bool) (page : Page ρ) (recordCount : ℕ)
    (cursor : String × Bool) :
    advance parseLinkHeader res { loop with resumed := b } page recordCount cursor =
      (advance parseLinkHeader res loop page recordCount cursor).map
        (fun next => { next with resumed := b }) id := by
  unfold advance
  cases res.strictCursor with
  | true =>
    cases cursor.2 <;> rfl
  | false =>
    cases res.pag with
    | none => rfl
    | some pag =>
      simp only
      cases pag.next parseLinkHeader loop.state page.response recordCount with
      | error e => rfl
      | ok state =>
        simp only
        cases state.done <;> rfl

theorem readPage_resumed (loop : Loop ρ) (b : Bool) (page : Page ρ) (cursor : String × Bool) :
    readPage parseLinkHeader res { loop with resumed := b } page cursor =
      (readPage parseLinkHeader res loop page cursor).map (fun next => { next with resumed := b })
        id := by
  unfold readPage
  cases page.records with
  | error e => rfl
  | ok records =>
    exact advance_resumed { loop with
        emitted := loop.emitted ++ sendRecords res loop.state records
        pageCount := loop.pageCount + 1 } b page records.length cursor

/-- Whether a loop was resumed only matters for its first request, if that fails. -/
theorem step_resumed (h : 0 < loop.pageCount ∨ ∃ page, fetchPage loop.state = .ok page) (b : Bool) :
    step parseLinkHeader res fetchPage { loop with resumed := b } =
      (step parseLinkHeader res fetchPage loop).map (fun next => { next with resumed := b }) id := by
  unfold step
  cases hfetch : fetchPage loop.state with
  | error e =>
    have hpos : loop.pageCount ≠ 0 := by
      rcases h with h | ⟨page, hpage⟩
      · exact Nat.pos_iff_ne_zero.1 h
      · rw [hpage] at hfetch
        cases hfetch
    cases res.pag <;> simp [hpos]
  | ok page =>
    simp only
    cases page.apiError with
    | some e =>
      split_ifs <;> rfl
    | none =>
      simp only
      split_ifs
      · rfl
      · rfl
      · simp only [readPage_resumed]
        cases responseCursor res loop.seen page <;> rfl
      · exact readPage_resumed loop b page _

theorem readPage_pageCount {page : Page ρ} {cursor : String × Bool}
    (h : readPage parseLinkHeader res loop page cursor = .inl next) : 0 < next.pageCount := by
  unfold readPage advance at h
  grind

section

variable (h : step parseLinkHeader res fetchPage loop = .inl next)
include h

theorem paginate_of_next (fuel : ℕ) :
    paginate parseLinkHeader res fetchPage (fuel + 1) loop =
      paginate parseLinkHeader res fetchPage fuel next := by
  simp only [paginate, h]

/-- The loop has read a page before its second request, unless it has given up its position. -/
theorem step_pageCount (hfetch : 0 < loop.pageCount ∨ ∃ page, fetchPage loop.state = .ok page) :
    0 < next.pageCount := by
  unfold step at h
  grind [readPage_pageCount]

end

theorem paginate_resumed (hpos : 0 < loop.pageCount) (b : Bool) (fuel : ℕ) :
    paginate parseLinkHeader res fetchPage fuel { loop with resumed := b } =
      paginate parseLinkHeader res fetchPage fuel loop := by
  induction fuel generalizing loop with
  | zero => rfl
  | succ fuel ih =>
    have hstep := @step_resumed _ parseLinkHeader res fetchPage loop (.inl hpos) b
    cases hnext : step parseLinkHeader res fetchPage loop with
    | inl next =>
      rw [hnext] at hstep
      rw [paginate_of_next hstep, paginate_of_next hnext]
      exact ih (step_pageCount hnext (.inl hpos))
    | inr o =>
      rw [hnext] at hstep
      rw [paginate_of_outcome hstep, paginate_of_outcome hnext]
      rfl

/-- A loop that is resumed at the first page is a fresh loop. -/
theorem paginate_of_resumed {b : Bool} {fuel : ℕ} {o : Outcome ρ} (hfresh : loop.resumed = false)
    (hstate : ∀ pag, res.pag = some pag → res.strictCursor = false → loop.state = pag.initial)
    (h : paginate parseLinkHeader res fetchPage fuel { loop with resumed := b } = some o) :
    ∃ fuel', paginate parseLinkHeader res fetchPage fuel' loop = some o := by
  cases fuel with
  | zero => cases h
  | succ fuel =>
    cases hfetch : fetchPage loop.state with
    | ok page =>
      have hstep := @step_resumed _ parseLinkHeader res fetchPage loop (.inr ⟨page, hfetch⟩) b
      cases hnext : step parseLinkHeader res fetchPage loop with
      | inl next =>
        rw [hnext] at hstep
        rw [paginate_of_next hstep] at h
        have hpos := step_pageCount hnext (.inr ⟨page, hfetch⟩)
        exact ⟨fuel + 1, by rw [paginate_of_next hnext, ← h, ← paginate_resumed hpos b]⟩
      | inr o' =>
        rw [hnext] at hstep
        rw [paginate_of_outcome hstep] at h
        exact ⟨1, by rw [paginate_of_outcome hnext, ← h]; rfl⟩
    | error e =>
      cases hpag : res.pag with
      | none =>
        have hstep : ∀ b, step parseLinkHeader res fetchPage { loop with resumed := b } =
            .inr ⟨loop.emitted, loop.pageCount, none, .error e⟩ := by
          intro b
          simp only [step, hfetch, hpag]
        rw [paginate_of_outcome (hstep b)] at h
        exact ⟨1, by rw [← h, ← paginate_of_outcome (hstep loop.resumed) 0]⟩
      | some pag =>
        by_cases hgivesUp : (!res.strictCursor && b && decide (loop.pageCount = 0)) = true
        · -- the position is given up for the one it is
          have hstep : step parseLinkHeader res fetchPage { loop with resumed := b } =
              .inl { loop with state := pag.initial, resumed := false } := by
            simp only [step, hfetch, hpag, hgivesUp, if_true]
          have hstrict : res.strictCursor = false := by
            simp only [Bool.and_eq_true, Bool.not_eq_true'] at hgivesUp
            exact hgivesUp.1.1
          rw [paginate_of_next hstep, ← hstate pag hpag hstrict, ← hfresh] at h
          exact ⟨fuel, h⟩
        · have hstep : step parseLinkHeader res fetchPage { loop with resumed := b } =
              .inr ⟨loop.emitted, loop.pageCount, none, .error e⟩ := by
            simp only [step, hfetch, hpag, hgivesUp, if_false, Bool.false_eq_true]
          have hstep' : step parseLinkHeader res fetchPage loop =
              .inr ⟨loop.emitted, loop.pageCount, none, .error e⟩ := by
            simp only [step, hfetch, hpag, hfresh, Bool.and_false, Bool.false_and,
              Bool.false_eq_true, if_false]
          rw [paginate_of_outcome hstep] at h
          exact ⟨1, by rw [← h, paginate_of_outcome hstep']⟩

/-- What a request leaves: the loop goes on, or it returns. -/
def after : Loop ρ ⊕ Outcome ρ → List (Emitted ρ)
  | .inl next => next.emitted
  | .inr o => o.emitted

theorem advance_after (loop : Loop ρ) (page : Page ρ) (recordCount : ℕ) (cursor : String × Bool) :
    after (advance parseLinkHeader res loop page recordCount cursor) = loop.emitted := by
  unfold advance
  grind [after]

theorem readPage_after (loop : Loop ρ) (page : Page ρ) (cursor : String × Bool) :
    loop.emitted <+: after (readPage parseLinkHeader res loop page cursor) := by
  unfold readPage
  cases page.records with
  | error e => exact prefix_rfl
  | ok records =>
    simp only [advance_after]
    exact prefix_append ..

theorem step_after (loop : Loop ρ) :
    loop.emitted <+: after (step parseLinkHeader res fetchPage loop) := by
  have hread := @readPage_after ρ parseLinkHeader res loop
  unfold step
  grind [after]

end Loop

variable {items : List (Item ρ)} {ρ : Type}

/-- With objects only, all are decoded; without strict decoding, the other items are skipped. -/
theorem records_of_objects {strictRecords : Bool} (h : strictRecords = true → Item.other ∉ items) :
    records strictRecords items = .ok (items.filterMap Item.object?) := by
  induction items with
  | nil => rfl
  | cons item items ih =>
    have hrest := ih fun hstrict hmem => h hstrict (.tail _ hmem)
    cases item with
    | object record =>
      simp only [records, hrest, filterMap_cons, Item.object?]
      rfl
    | other =>
      cases strictRecords with
      | true => exact absurd (.head _) (h rfl)
      | false =>
        simp only [records, hrest, filterMap_cons, Item.object?]
        rfl

theorem records_strict (h : Item.other ∈ items) :
    records true items = .error "response: record is not an object" := by
  induction items with
  | nil => cases h
  | cons item items ih =>
    cases item with
    | object record =>
      have hrest := ih ((mem_cons.1 h).resolve_left nofun)
      simp only [records, hrest]
      rfl
    | other => rfl

end Filament.Http
