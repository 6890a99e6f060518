import Filament.Cron.Fields
import Filament.CursorProgress
import Filament.Http.Children
import Filament.Http.Watermark
import Filament.Incremental.Watermark
import Filament.Intake.Accepted
import Filament.Intake.Occurrences
import Filament.Intake.Reconcile
import Filament.Lifecycle.Final
import Filament.Lifecycle.Resume
import Filament.Mysql.RowChanges
import Filament.Pipeline.Sealed
import Filament.Postgres.CtidDelivery
import Filament.Postgres.FullRead
import Filament.Postgres.RowDecoding
import Filament.Runner.Certified
import Filament.Runner.SlotSafety
import Filament.Runner.Terminal
import Filament.Sink.IcebergFold
import Filament.Sink.PostgresMerge
import Filament.Sink.WriteIdentity
import Filament.Stream.Completion
import Filament.Stream.Stops
import Filament.Streamkit.Headers
import Filament.Supervisor.Retries
import Filament.Tracker.Coarse
import Filament.Tracker.CommitGate
import Filament.Tracker.StreamCursor
import Filament.Transform.Keys
