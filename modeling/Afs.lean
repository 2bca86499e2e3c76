import Afs.Core.Prog
import Afs.Core.Guards
import Afs.Core.Steps
import Afs.Core.Runs
import Afs.Core.Pool
import Afs.Core.Versions
import Afs.Core.Bytes
import Afs.Core.Disk
import Afs.Core.Syscall
import Afs.Core.Names
import Afs.Core.Frames
import Afs.Core.Shown
import Afs.Core.Contents
import Afs.Core.Sealed
import Afs.Core.Faults
import Afs.Core.Resolve
import Afs.Core.Widths
import Afs.Core.Strings
import Afs.Model.Common
import Afs.Model.Messages
import Afs.Model.Server
import Afs.Model.Client
import Afs.Model.Machine
import Afs.Model.System
import Afs.Table.Lookup
import Afs.Table.Database
import Afs.Ops.Parts
import Afs.Ops.Layout
import Afs.Ops.ServerOps
import Afs.Ops.Calm
import Afs.Ops.Attempts
import Afs.Ops.Retrying
import Afs.Ops.Events
import Afs.Ops.Confined
import Afs.Ops.Sends
import Afs.Ops.Spares
import Afs.Ops.ClientOps
import Afs.Ops.Writing
import Afs.Ops.Opening
import Afs.Ops.Filling
import Afs.Ops.Tearing
import Afs.Ops.Replies
import Afs.Ops.Copies
import Afs.Ops.View
import Afs.Ops.Boot
import Afs.Ops.Depth
import Afs.Ops.Starting
import Afs.Ops.Sharing
import Afs.Ops.Script
import Afs.Consistency.Freshness
import Afs.Consistency.LastClose
import Afs.Consistency.Solo
import Afs.Consistency.Versions
import Afs.Consistency.Subdirectories
import Afs.Consistency.Truncation
import Afs.Concurrency.Handlers
import Afs.Concurrency.Refinement
import Afs.Concurrency.Exchange
import Afs.Concurrency.Mixing
import Afs.Concurrency.Release
import Afs.Concurrency.LostWrite
import Afs.Concurrency.Reading
import Afs.Concurrency.Counters
import Afs.Failures.Resurface
import Afs.Failures.Restart
import Afs.Failures.Retries
import Afs.Failures.Opens
import Afs.Failures.Reports
import Afs.Failures.Undone
import Afs.Consistency.Creation
import Afs.Failures.Writes
import Afs.Failures.Crash
import Afs.Failures.Unset
import Afs.Failures.Sentinels
import Afs.Isolation.Entries
import Afs.Isolation.Files
import Afs.Isolation.Root
import Afs.Bounds.Attributes
import Afs.Bounds.Buffers
import Afs.Bounds.Counts
import Afs.Consistency.Attributes
import Afs.Consistency.Unchanged
import Afs.Core.Linked
import Afs.Core.Tracks
import Afs.Core.Descriptors
import Afs.Model.Chains
import Afs.Table.Chains
import Afs.Table.Torn
import Afs.Failures.Descriptors
import Afs.Failures.Leaks
import Afs.Failures.Stores
import Afs.Concurrency.Service
import Afs.Consistency.Reordering
import Afs.Consistency.Catalog
import Afs.Consistency.Listing
import Afs.Consistency.Handover
import Afs.Failures.Provenance
import Afs.Failures.Once
import Afs.Failures.Outages
import Afs.Table.Texts
import Afs.Table.Collisions
import Afs.Failures.Causes
import Afs.Concurrency.Threads
