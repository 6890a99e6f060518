import Mathlib.Algebra.Group.Int.Defs

/-!
# Pagination strategies of the HTTP connector

A paginator turns a response into the position of the next request.  It reads the response body by
paths, the `Link` headers, and the number of records decoded from the page.

* `State`: a position, empty for a fresh read;
* `Response`: what a paginator reads of a response;
* `Paginator`, `Paginator.initial`, `Paginator.next`: the strategies.
-/

namespace Filament.Http.Pagination

/-- The largest machine integer. -/
def maxInt : ℤ := 2 ^ 63 - 1

theorem two_lt_maxInt : 2 < maxInt := by
  unfold maxInt
  omega

/-- The progress of pagination between requests; a strategy leaves the other fields empty. -/
structure State where
  cursor : String := ""
  nextURL : String := ""
  page : ℤ := 0
  offset : ℤ := 0
  done : Bool := false
  deriving DecidableEq, Repr

/-- How a lookup by path fails. -/
inductive PathError where
  | missing (text : String)
  | null (text : String)
  | type (text : String)
  deriving DecidableEq, Repr

/-- The text of an error. -/
def PathError.text : PathError → String
  | .missing text | .null text | .type text => text

/-- What the paginators read of a response: the `Link` headers, and lookups in its body. -/
structure Response where
  link : List String
  asString : String → Except PathError String
  asStringStrict : String → Except PathError String
  int : String → Except PathError ℤ
  bool : String → Except PathError Bool

/-- A missing or null signal counts as false. -/
def hasMore (resp : Response) (path : String) : Except PathError Bool :=
  match resp.bool path with
  | .error (.missing _) | .error (.null _) => .ok false
  | r => r

/-- Opaque cursors of the response body. -/
structure CursorPaginator where
  cursorPath : String
  hasMorePath : String
  allowNullTerminates : Bool

/-- Offsets that grow by the page size. -/
structure OffsetPaginator where
  start : ℕ
  pageSize : ℕ
  hasMorePath : String
  pageSize_pos : 0 < pageSize

/-- Page numbers from 1. -/
structure PagePaginator where
  pageSize : ℕ
  totalPagesPath : String
  hasMorePath : String
  pageSize_pos : 0 < pageSize

/-- The strategies. `linkHeader` has the wanted relation, `nextURL` the path of the URL. -/
inductive Paginator where
  | cursor (p : CursorPaginator)
  | offset (p : OffsetPaginator)
  | page (p : PagePaginator)
  | linkHeader (rel : String)
  | nextURL (path : String)

/-- The state before the first request. -/
def Paginator.initial : Paginator → State
  | .offset p => { offset := p.start }
  | .page _ => { page := 1 }
  | _ => {}

/-- The end of the pages. -/
def State.ended : State := { done := true }

/-- The next cursor: a missing or empty one ends the pages, a null one only where allowed. -/
def CursorPaginator.next (p : CursorPaginator) (resp : Response) : Except String State := do
  if p.hasMorePath ≠ "" then
    match hasMore resp p.hasMorePath with
    | .error e =>
      .error ("cursor pagination: has_more_path " ++ p.hasMorePath.quote ++ ": " ++ e.text)
    | .ok false => return .ended
    | .ok true => pure ()
  match resp.asStringStrict p.cursorPath with
  | .error (.missing _) => .ok .ended
  | .error (.null text) =>
    if p.allowNullTerminates then .ok .ended
    else .error ("cursor pagination: cursor_path " ++ p.cursorPath.quote ++
      " resolved to null (set allow_null_terminates: true to opt in): " ++ text)
  | .error (.type text) =>
    .error ("cursor pagination: cursor_path " ++ p.cursorPath.quote ++ ": " ++ text)
  | .ok cursor => if cursor = "" then .ok .ended else .ok { cursor := cursor }

/-- The next offset after the one last applied; a short page ends the pages. The overflow is checked
first, also on the last page. -/
def OffsetPaginator.next (p : OffsetPaginator) (lastOffset : ℤ) (resp : Response)
    (recordCount : ℕ) : Except String State :=
  if maxInt - p.pageSize < lastOffset then .error "offset pagination overflow"
  else if p.hasMorePath ≠ "" then
    match hasMore resp p.hasMorePath with
    | .error e =>
      .error ("offset pagination: has_more_path " ++ p.hasMorePath.quote ++ ": " ++ e.text)
    | .ok false => .ok .ended
    | .ok true => .ok { offset := lastOffset + p.pageSize }
  else if recordCount < p.pageSize then .ok .ended
  else .ok { offset := lastOffset + p.pageSize }

theorem OffsetPaginator.next_plain {p : OffsetPaginator} (hmore : p.hasMorePath = "")
    (lastOffset : ℤ) (resp : Response) (recordCount : ℕ) :
    p.next lastOffset resp recordCount =
      if maxInt - p.pageSize < lastOffset then .error "offset pagination overflow"
      else if recordCount < p.pageSize then .ok .ended
      else .ok { offset := lastOffset + p.pageSize } := by
  simp [OffsetPaginator.next, hmore]

/-- The number after a page number, which is an `int`. -/
def pageAfter (page : ℤ) : ℤ := if page = maxInt then -maxInt - 1 else page + 1

/-- The next page number after the one last applied; a short page or the last of the total ends the
pages. -/
def PagePaginator.next (p : PagePaginator) (lastPage : ℤ) (resp : Response)
    (recordCount : ℕ) : Except String State :=
  if p.hasMorePath ≠ "" then
    match hasMore resp p.hasMorePath with
    | .error e =>
      .error ("page pagination: has_more_path " ++ p.hasMorePath.quote ++ ": " ++ e.text)
    | .ok false => .ok .ended
    | .ok true => .ok { page := pageAfter lastPage }
  else if recordCount = 0 ∨ recordCount < p.pageSize then .ok .ended
  else if p.totalPagesPath ≠ "" then
    match resp.int p.totalPagesPath with
    | .error (.missing _) | .error (.null _) =>
      .error ("page pagination: total_pages_path " ++ p.totalPagesPath.quote ++
        " not present in response (would loop forever)")
    | .error (.type text) =>
      .error ("page pagination: total_pages_path " ++ p.totalPagesPath.quote ++ ": " ++ text)
    | .ok total => if total ≤ lastPage then .ok .ended else .ok { page := pageAfter lastPage }
  else .ok { page := pageAfter lastPage }

theorem PagePaginator.next_plain {p : PagePaginator} (hmore : p.hasMorePath = "") {total : ℤ}
    {resp : Response} (htotal : resp.int p.totalPagesPath = .ok total) (lastPage : ℤ)
    (recordCount : ℕ) :
    p.next lastPage resp recordCount =
      if recordCount < p.pageSize then .ok .ended
      else if p.totalPagesPath ≠ "" ∧ total ≤ lastPage then .ok .ended
      else .ok { page := pageAfter lastPage } := by
  have hpos := p.pageSize_pos
  have hshort : (recordCount = 0 ∨ recordCount < p.pageSize) ↔ recordCount < p.pageSize := by
    constructor
    · rintro (rfl | h)
      · exact hpos
      · exact h
    · exact .inr
  by_cases hpath : p.totalPagesPath = "" <;>
    simp [PagePaginator.next, hmore, htotal, hshort, hpath]

/-- The URL at a path of the body; `AsString` gives a missing or null one as empty. -/
def nextURLNext (path : String) (resp : Response) : Except String State :=
  match resp.asString path with
  | .error (.missing _) | .error (.null _) => .ok .ended
  | .error (.type text) => .error ("next_url: next_url_path " ++ path.quote ++ ": " ++ text)
  | .ok next => if next = "" then .ok .ended else .ok { nextURL := next }

section LinkHeader

variable (parseLinkHeader : String → String → String)

/-- The first link with the relation; `parseLinkHeader` reads one header. -/
def linkHeaderNext (rel : String) (resp : Response) : Except String State :=
  match resp.link.find? fun link => parseLinkHeader link rel ≠ "" with
  | some link => .ok { nextURL := parseLinkHeader link rel }
  | none => .ok .ended

/-- The state after a response to the request at `applied`. -/
def Paginator.next (pag : Paginator) (applied : State) (resp : Response) (recordCount : ℕ) :
    Except String State :=
  match pag with
  | .cursor p => p.next resp
  | .offset p => p.next applied.offset resp recordCount
  | .page p => p.next applied.page resp recordCount
  | .linkHeader rel => linkHeaderNext parseLinkHeader rel resp
  | .nextURL path => nextURLNext path resp

end LinkHeader

end Filament.Http.Pagination
