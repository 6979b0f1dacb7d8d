import LogTail.Json.Message
import LogTail.Channel
import LogTail.Consumer
import LogTail.Proofs.Framing
import LogTail.Proofs.Reading
import LogTail.Proofs.Batches
import LogTail.Proofs.Text
import LogTail.Proofs.Words
import LogTail.Proofs.WordEnds
import LogTail.Proofs.Grammar
import LogTail.Proofs.Cuts
import LogTail.Proofs.Decimals
import LogTail.Proofs.Numerals
import LogTail.Proofs.Members
import LogTail.Proofs.Values
import LogTail.Proofs.Checkpoints
import LogTail.Proofs.Stores
import LogTail.Proofs.Counts
import LogTail.Proofs.Streams
import LogTail.Proofs.Loading
import LogTail.Proofs.Places
import LogTail.Proofs.Changes
import LogTail.Proofs.Reopening
import LogTail.Proofs.Replacing
import LogTail.Proofs.Durability
import LogTail.Proofs.LastSave
import LogTail.Proofs.Polls
import LogTail.Proofs.Ledger
import LogTail.Proofs.Sessions
import LogTail.Proofs.Tracking
import LogTail.Proofs.ExactlyOnce
import LogTail.Proofs.InMemory
import LogTail.Proofs.AtLeastOnce
import LogTail.Proofs.Resumption
import LogTail.Proofs.Recency
import LogTail.Proofs.Lines
import LogTail.Proofs.Schedule
import LogTail.Proofs.Openings
import LogTail.Proofs.Unchanged
import LogTail.Proofs.Emissions
import LogTail.Proofs.Rotation
import LogTail.Proofs.Continuations
import LogTail.Proofs.Contents
import LogTail.Proofs.Truncation
import LogTail.Proofs.Handles
import LogTail.Proofs.Lifecycle
import LogTail.Proofs.OldContent
import LogTail.Proofs.NewFiles
import LogTail.Proofs.Trackers
import LogTail.Proofs.Restoring
import LogTail.Proofs.Fates
import LogTail.Proofs.Deferral
import LogTail.Proofs.Spans
import LogTail.Proofs.Characters
import LogTail.Proofs.Copies
import LogTail.Proofs.History
import LogTail.Proofs.Extensions
import LogTail.Proofs.Rollback
import LogTail.Proofs.Selection
import LogTail.Proofs.Restarts
import LogTail.Proofs.Calendar
import LogTail.Proofs.Stamps
import LogTail.Proofs.Written
import LogTail.Proofs.Items
import LogTail.Proofs.Layouts
import LogTail.Proofs.Growth
import LogTail.Proofs.Blocks
import LogTail.Proofs.PathOrder
import LogTail.Proofs.Relisting
import LogTail.Proofs.Selectors
import LogTail.Proofs.Parts
import LogTail.Proofs.Matching
import LogTail.Proofs.Coverage
import LogTail.Proofs.PatternReading
import LogTail.Proofs.Acceptance
import LogTail.Proofs.Presence
import LogTail.Proofs.Expansion
import LogTail.Proofs.Exclusion
import LogTail.Proofs.ConcurrentRuns
import LogTail.Proofs.Supervision
