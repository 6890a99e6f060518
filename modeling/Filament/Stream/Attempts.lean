import Filament.Stream.Control

/-!
# Attempts and epochs

The worker side of the stream store (`stream_attempts.go`, `stream_control.go` and
`stream_epochs.go`).

* `startAttempt`, `claimStreamAttempt`, `renewLease`, `yieldAttempt`, `endAttempt`,
  `retireUnclaimedAttempt` : the life of an attempt;
* `currentAttempt` : the authority every write of a worker rests on;
* `validateProgress` : the progress of all domains after an epoch;
* `commitEpoch` : the certified commit.
-/

namespace Filament.Streams

open Except Table

/-- The generation a lease is for. -/
def requestOf (lease : LeaseToken) : StreamStateRequest :=
  ⟨lease.tenant, lease.attempt.streamID, lease.attempt.generation⟩

/-- A lease lasts between one microsecond and a day. -/
def ValidTTL (ttl : ℕ) : Prop := 1 ≤ ttl ∧ ttl ≤ 24 * 60 * 60 * 1000000

instance (ttl : ℕ) : Decidable (ValidTTL ttl) := inferInstanceAs (Decidable (_ ∧ _))

/-- The identity and the expected state of an attempt. -/
structure StartAttemptRequest where
  tenant : TenantID
  stream : StreamRef
  run : RunID
  executionID : String
  pipelineVersionID : String
  route : String
  dispatchVersion : String
  expectedRevision : ℕ
  ttl : ℕ
  deriving DecidableEq, Repr

/-- Admits an attempt.  An admitted execution is returned as it is, without renewal; a new one needs
an enabled stream whose route was left cleanly. -/
def startAttempt (t : Tables) (req : StartAttemptRequest) (stamp : ℕ) :
    Except StreamError (StreamAttempt × Tables) := do
  require (ValidTTL req.ttl ∧ req.executionID ≠ "")
    (.other "stream: execution ID and whole-microsecond TTL in [1us,24h] required")
  let stream ← lockRuntime t ⟨req.tenant, req.stream⟩
  let activation ← ofOption .errNotFound (t.getStreamExecution stream.id stream.tenantID)
  require (req.run = activation.runID ∧ req.pipelineVersionID = activation.pipelineVersionID ∧
    req.route = stream.routeKey) .errVersionConflict
  match t.getStreamAttemptByExecutionID stream.tenantID req.executionID with
  | some existing => do
    require (existing.streamID = stream.id ∧ existing.desiredRevision = req.expectedRevision ∧
      existing.requestTtl = req.ttl) .errVersionConflict
    return (existing, t)
  | none => do
    require (stream.status = .active) .errFenced
    require (activation.desiredState = .enabled ∧ activation.revision = req.expectedRevision)
      .errVersionConflict
    require (∀ previous ∈ t.getLatestRouteAttempt stream.pipelineID stream.routeKey stream.tenantID,
      previous.Clean) .errTakeoverBlocked
    return t.createStreamAttempt stream.id stream.tenantID req.executionID req.expectedRevision
      req.ttl req.dispatchVersion stamp

variable (t : Tables) (stream : ReplicationStream)

/-- The lease is of the latest attempt of the route, which belongs to this stream and its current run
and has not ended; with `requireLive` it has not expired either. -/
def currentAttempt (lease : LeaseToken) (requireLive : Bool)
    (now : ℕ) : Except StreamError Unit := do
  lease.attempt.validate
  let row ← ofOption .errNotFound
    (t.getLatestRouteAttempt stream.pipelineID stream.routeKey stream.tenantID)
  let activation ← ofOption .errNotFound (t.getStreamExecution stream.id stream.tenantID)
  require (row.token = lease.attempt.token ∧ row.streamID = stream.id ∧
    row.executionID = lease.attempt.executionID ∧ activation.runID = lease.attempt.runID) .errFenced
  require (row.ended = none) .errFenced
  require (requireLive = true → now < row.expiresAt) .errLeaseExpired

/-- Extends a live lease. -/
def renewLease (lease : LeaseToken) (ttl : ℕ) (clock : Clock) : Except StreamError Tables := do
  require (ValidTTL ttl) (.other "stream: invalid lease TTL")
  let stream ← lockRuntime t (requestOf lease)
  require (stream.status = .active) .errFenced
  currentAttempt t stream lease true clock.now
  require ((t.renewStreamAttempt lease.attempt.token stream.tenantID ttl clock.stamp).1 = 1)
    .errLeaseExpired
  return (t.renewStreamAttempt lease.attempt.token stream.tenantID ttl clock.stamp).2

/-- Asks the owner to drain and end. -/
def yieldAttempt (lease : LeaseToken) (stamp : ℕ) : Except StreamError Tables := do
  lease.attempt.validate
  return t.yieldStreamAttempt lease.attempt.token lease.tenant stamp

/-- Records the termination of the latest attempt of the route. -/
def endAttempt (lease : LeaseToken) (termination : AttemptTermination) (reason : String)
    (clock : Clock) : Except StreamError Tables := do
  let stream ← lockRuntime t (requestOf lease)
  currentAttempt t stream lease (termination = .clean) clock.now
  require ((t.endStreamAttempt lease.attempt.token stream.tenantID termination reason
    (termination = .clean) clock.stamp).1 = 1) .errLeaseExpired
  settleStoppedStream (t.endStreamAttempt lease.attempt.token stream.tenantID termination reason
    (termination = .clean) clock.stamp).2 stream.id stream.tenantID clock.stamp

/-- Claims an attempt for a worker, once. -/
def claimStreamAttempt (lease : LeaseToken) (clock : Clock) : Except StreamError Tables := do
  lease.attempt.validate
  let stream ← lockRuntime t (requestOf lease)
  currentAttempt t stream lease true clock.now
  require ((t.claimStreamAttempt lease.attempt.token lease.tenant lease.attempt.executionID
    lease.attempt.runID clock.stamp).1 = 1) .errFenced
  (t.claimStreamAttempt lease.attempt.token lease.tenant lease.attempt.executionID
    lease.attempt.runID clock.stamp).2.markContinuousRunStarted lease.attempt.runID lease.tenant
    clock.stamp

/-- Ends an unclaimed attempt after expiry or disabled intent. -/
def retireUnclaimedAttempt (lease : LeaseToken) (stamp : ℕ) : Except StreamError Tables := do
  let _ ← lockRuntime t (requestOf lease)
  settleStoppedStream (t.retireUnclaimedAttempt lease.attempt.token lease.tenant stamp)
    lease.attempt.streamID lease.tenant stamp

/-! ### Epochs -/

/-- Admits the pending members whose baseline an epoch certifies. -/
def activateEpochMembers (activated : List String) (stamp : ℕ) : Tables :=
  if activated = [] then t
  else
    let result := t.activateStreamMembers stream.id stream.tenantID activated stamp
    if result.1 = 0 then result.2
    else result.2.bumpReplicationStreamMembershipRevision stream.id stream.tenantID

/-- Every resource an epoch names, and every resource the stream selects, is an active member. -/
def validateEpochResources
    (activation : Tables.StreamExecution) (cert : EpochCertificate) : Except StreamError Unit := do
  let active := ((t.listReplicationStreamResources stream.id).filter fun m => m.status = .active).map
    Member.resourceName
  let spec ← ofOption (.other "unexpected end of JSON input") activation.runSpec
  require (∀ resource ∈ spec.request.resources, resource ∈ active) .errMembershipChanged
  require (∀ receipt ∈ cert.receipts, receipt.resource ∈ active) .errMembershipChanged
  require (∀ e ∈ cert.messageSchemas.getD [], e.1 ∈ active) .errMembershipChanged

/-- Fences an epoch certified under stale membership, then admits the members whose baseline it
carries. -/
def validateEpochMembership
    (activation : Tables.StreamExecution) (cert : EpochCertificate) (stamp : ℕ) :
    Except StreamError Tables := do
  require (cert.ref.membershipRevision = stream.membershipRevision) .errMembershipChanged
  let t := activateEpochMembers t stream cert.coverage.activated stamp
  validateEpochResources t stream activation cert
  return t

/-- The layouts of an epoch extend those of the epoch before it. -/
def validateEpochMessageSchemas (codecs : Codecs) (t : Tables) (stream : ReplicationStream)
    (activation : Tables.StreamExecution) (cert : EpochCertificate) : Except StreamError Unit :=
  if activation.lastEpoch = 0 then .ok ()
  else do
    let row ← ofOption (.other "no rows in result set")
      (t.getStreamEpoch stream.id stream.tenantID activation.lastEpoch)
    let previous := row.certificate
    previous.validateMessageSchemas codecs
    require (previous.messageSchemas.isNone ↔ cert.messageSchemas.isNone) .errEpochConflict
    require (cert.messageSchemas ≠ none → previous.pipelineVersionID = cert.pipelineVersionID)
      .errEpochConflict
    checkMessageLayouts codecs (previous.messageSchemas.getD []) (cert.messageSchemas.getD [])

/-- The entries without a domain key. -/
def DomainPositions.erase (positions : DomainPositions) (d : DomainKey) : DomainPositions :=
  positions.filter fun e => e.1 ≠ d

/-- The entries with another position of a domain key. -/
def DomainPositions.insert (positions : DomainPositions) (d : DomainKey) (p : Position) :
    DomainPositions :=
  positions.erase d ++ [(d, p)]

/-- Merges covered positions into a snapshot, one domain after the other.  A domain that the snapshot
knows may only stay or advance. -/
def mergePositions (codecs : Codecs) (byDomain : List (String × DomainKey)) :
    DomainPositions → List String → DomainPositions → Except StreamError DomainPositions
  | snapshot, _, [] => .ok snapshot
  | snapshot, seen, (d, p) :: rest => do
    require (d.domain ∉ seen) .errPositionIncomparable
    match byDomain.lookup d.domain with
    | some oldKey => do
      let old := (snapshot.lookup oldKey).getD ⟨"", 0, none⟩
      match ← comparePositions codecs.lookup oldKey old d p with
      | .positionEqual | .positionBefore =>
        mergePositions codecs byDomain ((snapshot.erase oldKey).insert d p) (d.domain :: seen) rest
      | .positionAfter => .error .errPositionRegression
      | .positionIncomparable => .error .errPositionIncomparable
    | none => mergePositions codecs byDomain (snapshot.insert d p) (d.domain :: seen) rest

/-- Checks the new coverage against the last snapshot and returns the snapshot to store; domains not
covered keep their position. -/
def validateProgress (codecs : Codecs) (t : Tables) (stream : ReplicationStream)
    (activation : Tables.StreamExecution) (positions : DomainPositions) :
    Except StreamError DomainPositions :=
  let snapshot := if 0 < activation.lastEpoch then t.latestStreamPositions stream else []
  mergePositions codecs (snapshot.map fun e => (e.1.domain, e.1)) snapshot [] positions

/-- The lease a certificate was produced under. -/
def EpochCertificate.lease (cert : EpochCertificate) : LeaseToken := ⟨cert.tenant, cert.ref.attempt⟩

/-- The checks and the writes of a new epoch. -/
def insertEpoch (codecs : Codecs) (t : Tables) (stream : ReplicationStream) (request : EpochCommit)
    (cert : EpochCertificate) (clock : Clock) : Except StreamError Tables := do
  require (stream.status = .active) .errFenced
  request.validateCompletion codecs
  let activation ← ofOption .errNotFound (t.getStreamExecution stream.id stream.tenantID)
  require (activation.pipelineVersionID = cert.pipelineVersionID ∧
    (activation.lastEpoch : ℤ) ≠ maxInt64 ∧ cert.ref.epoch = activation.lastEpoch + 1)
    .errEpochConflict
  let t ← validateEpochMembership t stream activation cert clock.stamp
  validateEpochMessageSchemas codecs t stream activation cert
  let snapshot ← validateProgress codecs t stream activation cert.coverage.positions
  currentAttempt t stream cert.lease true clock.now
  let t ← t.createStreamEpoch ⟨stream.id, stream.tenantID, cert.ref.epoch, cert.ref.attempt.token,
    cert, snapshot, clock.stamp⟩ cert.ref.attempt.runID
  require ((t.advanceStreamEpoch stream.id stream.tenantID cert.ref.epoch activation.lastEpoch).1 = 1)
    .errEpochConflict
  return (t.advanceStreamEpoch stream.id stream.tenantID cert.ref.epoch activation.lastEpoch).2

/-- Stores a certificate and its progress.  A stored epoch is returned to a retry with the same
certificate, whatever the present authority. -/
def commitEpoch (codecs : Codecs) (t : Tables) (request : EpochCommit) (clock : Clock) :
    Except StreamError (EpochCertificate × Tables) := do
  let cert ← request.certificate.canonicalBytes codecs
  require (cert.coverage.claims = []) .errIncompleteCoverage
  let stream ← lockRuntime t (requestOf cert.lease)
  match t.getStreamEpoch stream.id stream.tenantID cert.ref.epoch with
  | some old => do
    require (old.certificate = cert) .errEpochConflict
    return (old.certificate, t)
  | none => do
    let t ← insertEpoch codecs t stream request cert clock
    return (cert, t)

end Filament.Streams
