import CS537.Foundation.Machine
import CS537.Foundation.Threads
import CS537.Foundation.History
import CS537.Foundation.CString
import CS537.Foundation.Grouping
import CS537.Foundation.Linearization
import CS537.Foundation.LinkedList
import CS537.Foundation.Resolution
import CS537.Foundation.Triples
import CS537.Foundation.Tokens
import CS537.Foundation.Loops
import CS537.Foundation.Numerals
import CS537.Foundation.Ranges
import CS537.Foundation.Accesses
import CS537.Foundation.Streams
import CS537.Foundation.LineBuffers
import CS537.Foundation.RedoLog
import CS537.Foundation.Completion
import CS537.Foundation.Allocation
import CS537.Foundation.RingBuffer
import CS537.Foundation.Ownership
import CS537.Foundation.Endings
import CS537.Foundation.Clients
import CS537.Kalloc.Layout
import CS537.Kalloc.FreeList
import CS537.Kalloc.SafeKalloc
import CS537.Kalloc.SafeRuns
import CS537.Kalloc.Atomicity
import CS537.Kalloc.Exhaustion
import CS537.Kalloc.GuardFrames
import CS537.Kalloc.TableBounds
import CS537.Kalloc.Dump
import CS537.Kalloc.DumpRuns
import CS537.MapReduce.Partition
import CS537.MapReduce.MapPhase
import CS537.MapReduce.ReduceController
import CS537.MapReduce.SortPartition
import CS537.MapReduce.Cursors
import CS537.MapReduce.SortedPartition
import CS537.MapReduce.MrRun
import CS537.MapReduce.ReduceOutcome
import CS537.MapReduce.ReducePhase
import CS537.MapReduce.LaterRuns
import CS537.Shell.Parse
import CS537.Shell.Grammar
import CS537.Shell.Lines
import CS537.Shell.CommandLines
import CS537.Shell.Jobs
import CS537.Shell.JobRuns
import CS537.Shell.JobNumbers
import CS537.Shell.Cleanup
import CS537.Shell.TokenArray
import CS537.Shell.Modes
import CS537.Shell.BatchRuns
import CS537.Shell.SameLines
import CS537.UnixUtilities.MyDiff
import CS537.UnixUtilities.Patch
import CS537.UnixUtilities.RoundTrip
import CS537.UnixUtilities.Buffers
import CS537.Scheduler.Model
import CS537.Scheduler.Queue
import CS537.Scheduler.Fifo
import CS537.Scheduler.Refresh
import CS537.Scheduler.Pass
import CS537.Scheduler.Sections
import CS537.Scheduler.Effects
import CS537.Scheduler.Runs
import CS537.Scheduler.Law
import CS537.Scheduler.Slices
import CS537.Scheduler.Setpri
import CS537.Scheduler.Pool
import CS537.FileSystem.Inodes
import CS537.FileSystem.Directories
import CS537.FileSystem.Names
import CS537.FileSystem.Walk
import CS537.FileSystem.Resolve
import CS537.FileSystem.Balance
import CS537.FileSystem.Iterations
import CS537.FileSystem.Termination
import CS537.FileSystem.Calls
import CS537.FileSystem.Open
import CS537.FileSystem.Parents
import CS537.FileSystem.OpenCreate
import CS537.FileSystem.Entries
import CS537.FileSystem.Creation
import CS537.FileSystem.Returns
import CS537.FileSystem.Symlink
import CS537.FsCheck.Image
import CS537.FsCheck.Checker
import CS537.FsCheck.Effects
import CS537.FsCheck.Comparisons
import CS537.FsCheck.Layout
import CS537.FsCheck.Recorded
import CS537.FsCheck.Bitmap
import CS537.FsCheck.References
import CS537.FsCheck.Sizes
import CS537.FsCheck.Faults
import CS537.FsCheck.Acceptance
import CS537.Mkfs.Program
import CS537.Mkfs.Sectors
import CS537.Mkfs.Blocks
import CS537.Mkfs.Append
import CS537.Mkfs.Volume
import CS537.Mkfs.Runs
import CS537.Mkfs.Image
import CS537.Mkfs.Checked
import CS537.Mkfs.LogBlocks
import CS537.Log.Model
import CS537.Log.Buffers
import CS537.Log.Disk
import CS537.Log.Invariant
import CS537.Log.Runs
import CS537.Log.Crash
import CS537.Channels.Pipe
import CS537.Channels.PipeRuns
import CS537.Channels.PipeSleep
import CS537.Channels.PipeFiles
import CS537.Channels.Console
import CS537.Channels.ConsoleLines
import CS537.Channels.ConsoleRuns
import CS537.Storage.Model
import CS537.Storage.Allocator
import CS537.Storage.Slots
import CS537.Storage.Bmap
import CS537.Storage.Contents
import CS537.Storage.Writes
import CS537.Storage.Inodes
import CS537.Storage.Truncate
import CS537.Storage.Lifetime
import CS537.Storage.Calls
import CS537.Storage.Refinement
import CS537.Storage.Boot
import CS537.Storage.Runs
import CS537.Storage.OpenFiles
import CS537.Storage.Logging
import CS537.Storage.Journal
import CS537.Storage.Crashes
import CS537.Storage.CrashRuns
import CS537.BufferCache.Blocks
import CS537.BufferCache.LogBuffers
import CS537.BufferCache.Contents
