import RevisionLog.Json.Writer
import RevisionLog.Proofs.Plain
import RevisionLog.Session.Play
import RevisionLog.Settings.Reader
import RevisionLog.Proofs.Questions
import RevisionLog.Proofs.Writing
import RevisionLog.Proofs.Chain
import RevisionLog.Proofs.Forgetting
import RevisionLog.Proofs.Heads
import RevisionLog.Proofs.Operation
import RevisionLog.Proofs.Replay
import RevisionLog.Proofs.Continuity
import RevisionLog.Proofs.Race
import RevisionLog.Proofs.History
import RevisionLog.Proofs.Interleaving
import RevisionLog.Proofs.Tracking
import RevisionLog.Proofs.Delivery
import RevisionLog.Proofs.Remains
import RevisionLog.Proofs.Density
import RevisionLog.Proofs.Succession
import RevisionLog.Proofs.Listing
import RevisionLog.Proofs.Agreement
import RevisionLog.Proofs.Erasure
import RevisionLog.Proofs.Chronicle
import RevisionLog.Proofs.Rebuilding
import RevisionLog.Proofs.Batches
import RevisionLog.Proofs.Migrated
import RevisionLog.Proofs.Atomicity
import RevisionLog.Proofs.MigrationScript
import RevisionLog.Proofs.Openings
import RevisionLog.Proofs.Selection
import RevisionLog.Proofs.Padding
import RevisionLog.Proofs.Retention
import RevisionLog.Proofs.Passing
import RevisionLog.Proofs.Reads
import RevisionLog.Proofs.Overreaching
import RevisionLog.Proofs.Flags
import RevisionLog.Proofs.Stepping
import RevisionLog.Proofs.Collation
import RevisionLog.Proofs.Patience
import RevisionLog.Proofs.Returning
import RevisionLog.Proofs.Suspicion
import RevisionLog.Proofs.Strides
import RevisionLog.Proofs.Wildcards
import RevisionLog.Proofs.Derivation
import RevisionLog.Proofs.Connections
import RevisionLog.Proofs.Turns
import RevisionLog.Proofs.Attempts
import RevisionLog.Proofs.Discipline
