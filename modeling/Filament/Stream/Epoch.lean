import Mathlib.Data.List.Lex
import Mathlib.Data.List.Sort
import Filament.Lib.Except
import Filament.Lib.Json
import Filament.RowModel
import Filament.Run

/-!
# Epochs

The certificate of an epoch and the progress it covers (`epoch.go`, `epoch_commit.go` and
`rowmodel/progress.go`).

* `canonicalPosition`, `comparePositions` : positions under the codecs that own them;
* `Coverage.canonicalize`, `EpochCertificate.canonicalBytes` : the normal form of a certificate, which
  is what is stored and compared;
* `EpochCommit.validateCompletion` : a certificate matches what the pipeline completed.

A Go map is the list of its entries.  The bytes of a canonical certificate are the JSON text of its
normal form, so that two byte strings are equal when the normal forms are; the normal form itself
stands for them.
-/

namespace Filament.Streams

open Except

/-- Why an operation on a stream failed: the categories callers tell apart, a violated constraint, and
the other errors with their texts. -/
inductive StreamError where
  | errNotFound
  | errFenced
  | errVersionConflict
  | errTakeoverBlocked
  | errRunOverlap
  | errLeaseExpired
  | errEpochConflict
  | errPositionRegression
  | errPositionIncomparable
  | errIncompleteCoverage
  | errMembershipChanged
  | constraint (name : String)
  | other (message : String)
  deriving DecidableEq, Repr

/-! ### Positions -/

/-- A source ordering domain within a stable source incarnation. -/
structure DomainKey where
  incarnation : String
  domain : String
  deriving DecidableEq, Repr

/-- Both identifiers are there. -/
def DomainKey.Valid (d : DomainKey) : Prop := d.incarnation ≠ "" ∧ d.domain ≠ ""

instance (d : DomainKey) : Decidable d.Valid := inferInstanceAs (Decidable (_ ∧ _))

/-- A codec-encoded source bookmark; a value may be absent. -/
structure Position where
  codec : String
  version : ℤ
  value : Option (List UInt8)
  deriving DecidableEq, Repr

/-- The codec is named and its version is not negative. -/
def Position.Valid (p : Position) : Prop := p.codec ≠ "" ∧ 0 ≤ p.version

instance (p : Position) : Decidable p.Valid := inferInstanceAs (Decidable (_ ∧ _))

/-- How two positions compare. -/
inductive PositionOrder where
  | positionIncomparable
  | positionEqual
  | positionBefore
  | positionAfter
  deriving DecidableEq, Repr

/-- One source position format. -/
structure PositionCodec where
  validate : Position → Except StreamError Unit
  compare : Position → Position → Except StreamError PositionOrder
  canonicalize : Position → Except StreamError Position

/-- Finds a codec by identifier and version. -/
abbrev CodecResolver := String → ℤ → Except StreamError PositionCodec

/-- Validates a position and brings it to the normal form of its codec. -/
def canonicalPosition (r : CodecResolver) (p : Position) : Except StreamError Position := do
  require p.Valid (.other "progress: missing codec or negative version")
  let codec ← r p.codec p.version
  codec.validate p
  let out ← codec.canonicalize p
  require (out.codec = p.codec ∧ out.version = p.version)
    (.other "progress: canonicalization changed codec identity")
  codec.validate out
  return out

/-- Compares two positions of one domain and codec; anything else is incomparable. -/
def comparePositions (r : CodecResolver) (aDomain : DomainKey) (a : Position) (bDomain : DomainKey)
    (b : Position) : Except StreamError PositionOrder := do
  require (aDomain.Valid ∧ bDomain.Valid ∧ aDomain = bDomain ∧ a.codec = b.codec ∧
    a.version = b.version) .errPositionIncomparable
  let a ← canonicalPosition r a
  let b ← canonicalPosition r b
  let codec ← r a.codec a.version
  let order ← codec.compare a b
  require (order ≠ .positionIncomparable) .errPositionIncomparable
  return order

abbrev DomainPositions := List (DomainKey × Position)

/-- The order of the entries on the wire. -/
def DomainKey.le (a b : DomainKey × Position) : Prop :=
  a.1.incarnation < b.1.incarnation ∨
    (a.1.incarnation = b.1.incarnation ∧ a.1.domain ≤ b.1.domain)

instance : DecidableRel DomainKey.le := fun _ _ => inferInstanceAs (Decidable (_ ∨ _))

/-! ### Certificates -/

/-- A stream worker and its admitted ownership token. -/
structure AttemptRef where
  runID : RunID
  executionID : String
  streamID : String
  generation : ℕ
  token : ℕ
  deriving DecidableEq, Repr

/-- Complete identity, and a positive generation and token. -/
def AttemptRef.Valid (a : AttemptRef) : Prop :=
  a.runID ≠ "" ∧ a.executionID ≠ "" ∧ a.streamID ≠ "" ∧ 0 < a.generation ∧ 0 < a.token

instance (a : AttemptRef) : Decidable a.Valid := inferInstanceAs (Decidable (_ ∧ _))

/-- `AttemptRef.Validate` -/
def AttemptRef.validate (a : AttemptRef) : Except StreamError Unit :=
  require a.Valid (.other "epoch: incomplete attempt identity")

/-- A commit cycle and a membership revision bound to an admitted attempt. -/
structure EpochRef where
  attempt : AttemptRef
  epoch : ℕ
  membershipRevision : ℕ
  deriving DecidableEq, Repr

/-- Checks epoch identity. -/
def EpochRef.validate (e : EpochRef) : Except StreamError Unit := do
  e.attempt.validate
  require (0 < e.epoch ∧ 0 < e.membershipRevision)
    (.other "epoch: invalid epoch or membership revision")

/-- `EpochRef.Binding`: the JSON text. -/
def EpochRef.binding (e : EpochRef) : List Char :=
  let number n := Nat.toDigits 10 n
  '\x7b' :: Json.member "Attempt" ('\x7b' :: Json.member "RunID" (Json.quote e.attempt.runID)
      (',' :: Json.member "ExecutionID" (Json.quote e.attempt.executionID)
        (',' :: Json.member "StreamID" (Json.quote e.attempt.streamID)
          (',' :: Json.member "Generation" (number e.attempt.generation)
            (',' :: Json.member "Token" (number e.attempt.token) ['\x7d'])))))
    (',' :: Json.member "Epoch" (number e.epoch)
      (',' :: Json.member "MembershipRevision" (number e.membershipRevision) ['\x7d']))

/-- References with one text are the same. -/
theorem EpochRef.binding_inj {e e' : EpochRef} : e.binding = e'.binding ↔ e = e' := by
  obtain ⟨⟨run, execution, stream, generation, token⟩, epoch, revision⟩ := e
  obtain ⟨⟨run', execution', stream', generation', token'⟩, epoch', revision'⟩ := e'
  have hcomma := @Text.toDigits_cut ',' (by decide)
  have hbrace := @Text.toDigits_cut '\x7d' (by decide)
  simp only [binding, Json.member, List.cons_append, List.nil_append, List.append_assoc, List.cons.injEq,
    true_and, and_true, Json.quote_cut, hcomma, hbrace, EpochRef.mk.injEq, AttemptRef.mk.injEq, and_assoc]

/-- An exact claim on an inbox row. -/
structure InboxClaimRef where
  rowID : String
  owner : String
  token : ℕ
  deriving DecidableEq, Repr

/-- Candidate domain progress or exact inbox claims, never both. -/
structure Coverage where
  positions : DomainPositions
  claims : List InboxClaimRef
  activated : List String
  deriving DecidableEq, Repr

/-- Checks the representation of a coverage. -/
def Coverage.validateRepresentation (c : Coverage) : Except StreamError Unit := do
  require (¬ (c.positions = [] ↔ c.claims = [])) .errIncompleteCoverage
  require (∀ e ∈ c.positions, e.1.Valid) (.other "progress: missing incarnation or domain")
  require (∀ e ∈ c.positions, e.2.Valid) (.other "progress: missing codec or negative version")
  require ((∀ claim ∈ c.claims, claim.rowID ≠ "" ∧ claim.owner ≠ "" ∧ 0 < claim.token) ∧
    (c.claims.map InboxClaimRef.rowID).Nodup) .errIncompleteCoverage

/-- The normal form of a coverage: every position canonical, entries, claims and names sorted. -/
def Coverage.canonicalize (r : CodecResolver) (c : Coverage) : Except StreamError Coverage := do
  c.validateRepresentation
  let positions ← c.positions.mapM fun e => do
    let p ← canonicalPosition r e.2
    return (e.1, p)
  return {
    positions := positions.insertionSort DomainKey.le
    claims := c.claims.insertionSort fun a b => a.rowID ≤ b.rowID
    activated := (c.activated.insertionSort (· ≤ ·)).dedup }

/-- What one destination resource received in an epoch, with the evidence of the destination. -/
structure EpochReceipt where
  resource : String
  rows : ℤ
  bytes : ℤ
  writeCRC : UInt32
  evidence : Option (String × ℤ × Option (List UInt8))
  deriving DecidableEq, Repr

/-- A present evidence names its format and has a version that is not negative. -/
def EpochReceipt.Evident (receipt : EpochReceipt) : Prop :=
  ∀ e ∈ receipt.evidence, e.1 ≠ "" ∧ 0 ≤ e.2.1

instance (receipt : EpochReceipt) : Decidable receipt.Evident :=
  inferInstanceAs (Decidable (∀ e ∈ receipt.evidence, _))

/-- The input layout of a resource's messages. -/
structure MessageLayout where
  raw : Bool
  fields : List Field
  deriving DecidableEq, Repr

/-- The immutable content of an epoch. -/
structure EpochCertificate where
  formatVersion : ℤ
  tenant : TenantID
  ref : EpochRef
  pipelineVersionID : String
  coverage : Coverage
  receipts : List EpochReceipt
  records : ℤ
  bytes : ℤ
  messageSchemas : Option (List (String × MessageLayout))
  deriving DecidableEq, Repr

/-- What certificates rest on outside the store: the position codecs, the checks of message layouts,
and the byte order of encoded receipts. -/
structure Codecs where
  lookup : CodecResolver
  validateLayout : MessageLayout → Except StreamError Unit
  checkMessageChange : String → MessageLayout → MessageLayout → Except StreamError Unit
  marshal : EpochReceipt → List ℕ

/-- Rejects lost resources and incompatible changes of layouts between committed epochs. -/
def checkMessageLayouts (codecs : Codecs) (before after : List (String × MessageLayout)) :
    Except StreamError Unit := do
  for (resource, layout) in after do
    require (resource ≠ "") (.other "message layout requires a resource")
    codecs.validateLayout layout
  for (resource, old) in before do
    let next ← ofOption (.other "accepted message layout is missing") (after.lookup resource)
    codecs.checkMessageChange resource old next

/-- The first format carries no layouts; the second carries one for every resource written. -/
def EpochCertificate.validateMessageSchemas (codecs : Codecs) (c : EpochCertificate) :
    Except StreamError Unit :=
  if c.formatVersion = 1 then
    require (c.messageSchemas = none) (.other "epoch: v1 cannot carry message layouts")
  else if c.formatVersion = 2 then do
    let layouts := c.messageSchemas.getD []
    require (layouts ≠ []) (.other "epoch: v2 requires message layouts")
    checkMessageLayouts codecs [] layouts
    require (∀ receipt ∈ c.receipts, (layouts.lookup receipt.resource).isSome)
      (.other "epoch: receipt has no message layout")
  else .error (.other "epoch: unsupported certificate format")

/-- The normal form of a certificate. -/
def EpochCertificate.canonicalBytes (codecs : Codecs) (c : EpochCertificate) :
    Except StreamError EpochCertificate := do
  require (c.tenant ≠ "" ∧ c.pipelineVersionID ≠ "" ∧ 0 ≤ c.records ∧ 0 ≤ c.bytes)
    (.other "epoch: invalid certificate")
  c.validateMessageSchemas codecs
  c.ref.validate
  let coverage ← c.coverage.canonicalize codecs.lookup
  require (∀ receipt ∈ c.receipts, receipt.resource ≠ "" ∧ 0 ≤ receipt.rows ∧ 0 ≤ receipt.bytes)
    (.other "epoch: invalid receipt")
  require (∀ receipt ∈ c.receipts, receipt.Evident) (.other "epoch: invalid receipt evidence")
  return { c with
    coverage := coverage
    receipts := c.receipts.insertionSort fun a b => codecs.marshal a ≤ codecs.marshal b }

/-! ### Completion -/

/-- Process-local evidence of a sealed pipeline: the epoch whose text it is bound to, the boundary
positions it accepted and the totals that were applied. -/
structure EpochCompletion where
  messageSchemas : Option (List (String × MessageLayout))
  binding : EpochRef
  positions : DomainPositions
  rows : ℤ
  bytes : ℤ
  resources : List (String × ℤ × ℤ)
  deriving DecidableEq, Repr

/-- A certificate with the completion it is certified by. -/
structure EpochCommit where
  certificate : EpochCertificate
  completion : EpochCompletion
  deriving DecidableEq, Repr

/-- The largest value of a signed counter. -/
def maxInt64 : ℤ := 2 ^ 63 - 1

/-- The rows and bytes of a list of receipts. -/
def receiptTotals (receipts : List EpochReceipt) : ℤ × ℤ :=
  ((receipts.map EpochReceipt.rows).sum, (receipts.map EpochReceipt.bytes).sum)

/-- Adds up receipts, failing before a counter overflows. -/
def sumReceipts : List EpochReceipt → ℤ × ℤ → Except StreamError (ℤ × ℤ)
  | [], total => .ok total
  | receipt :: receipts, total => do
    require (0 ≤ receipt.rows ∧ 0 ≤ receipt.bytes ∧ receipt.rows ≤ maxInt64 - total.1 ∧
      receipt.bytes ≤ maxInt64 - total.2) .errIncompleteCoverage
    sumReceipts receipts (total.1 + receipt.rows, total.2 + receipt.bytes)

/-- The rows and bytes that receipts name for a resource. -/
def resourceTotals (receipts : List EpochReceipt) (resource : String) : ℤ × ℤ :=
  receiptTotals (receipts.filter fun receipt => receipt.resource = resource)

/-- Checks exact canonical coverage and completed totals. -/
def EpochCommit.validateCompletion (codecs : Codecs) (c : EpochCommit) : Except StreamError Unit := do
  let cert := c.certificate
  require (cert.messageSchemas = c.completion.messageSchemas) .errIncompleteCoverage
  cert.ref.validate
  require (cert.coverage.claims = [] ∧ c.completion.binding.binding = cert.ref.binding) .errIncompleteCoverage
  let covered ← cert.coverage.canonicalize codecs.lookup
  let completed ← Coverage.canonicalize codecs.lookup
    ⟨c.completion.positions, [], cert.coverage.activated⟩
  require (covered = completed) .errIncompleteCoverage
  require (cert.records = c.completion.rows ∧ cert.bytes = c.completion.bytes) .errIncompleteCoverage
  let total ← sumReceipts cert.receipts (0, 0)
  let actual := (cert.receipts.map EpochReceipt.resource).dedup
  require (actual.length = c.completion.resources.length) .errIncompleteCoverage
  require (∀ e ∈ c.completion.resources, e.1 ∈ actual ∧ resourceTotals cert.receipts e.1 = e.2)
    .errIncompleteCoverage
  require (total.1 = c.completion.rows ∧ total.2 = c.completion.bytes) .errIncompleteCoverage

theorem sumReceipts_eq_ok {receipts : List EpochReceipt} {total result : ℤ × ℤ}
    (h : sumReceipts receipts total = .ok result) :
    result.1 = total.1 + (receiptTotals receipts).1 ∧
      result.2 = total.2 + (receiptTotals receipts).2 := by
  induction receipts generalizing total with
  | nil =>
    obtain rfl : total = result := by simpa [sumReceipts] using h
    simp [receiptTotals]
  | cons receipt receipts ih =>
    rw [sumReceipts, require_bind_eq_ok] at h
    obtain ⟨hrows, hbytes⟩ := ih h.2
    simp only [receiptTotals, List.map_cons, List.sum_cons] at hrows hbytes ⊢
    omega

/-- A certificate that its completion certifies carries the totals of its receipts. -/
theorem EpochCommit.totals_of_validateCompletion {codecs : Codecs} {c : EpochCommit} {u : Unit}
    (h : c.validateCompletion codecs = .ok u) :
    (c.certificate.records, c.certificate.bytes) = receiptTotals c.certificate.receipts := by
  simp only [validateCompletion, bind_eq_ok, require_eq_ok, exists_const] at h
  obtain ⟨-, _, -, -, _, -, _, -, -, ⟨hrecords, hbytes⟩, total, hsum, -, -, hrows, hbytes'⟩ := h
  obtain ⟨h₁, h₂⟩ := sumReceipts_eq_ok hsum
  refine Prod.ext ?_ ?_ <;> simp only <;> omega

end Filament.Streams
