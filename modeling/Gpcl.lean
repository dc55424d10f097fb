import Gpcl.Lib.Memory
import Gpcl.Lib.Chain
import Gpcl.Lib.Runs
import Gpcl.Storage.Basic
import Gpcl.Storage.Spec
import Gpcl.Storage.Use
import Gpcl.Storage.Safety
import Gpcl.Storage.Order
import Gpcl.Storage.Count
import Gpcl.Storage.Search
import Gpcl.Pool.Basic
import Gpcl.Pool.Use
import Gpcl.Pool.Destroy
import Gpcl.Pool.Reach
import Gpcl.Pool.Arrays
import Gpcl.Pool.Requests
import Gpcl.Pool.IsFrom
import Gpcl.Pool.Covers
import Gpcl.Pmr.Monotonic
import Gpcl.Pmr.MonotonicUse
import Gpcl.Pmr.Window
import Gpcl.Lib.Objects
import Gpcl.Dynarray.Basic
import Gpcl.Dynarray.Spec
import Gpcl.Dynarray.Reserve
import Gpcl.Dynarray.Guarantee
import Gpcl.Dynarray.Assign
import Gpcl.Dynarray.Lifetime
import Gpcl.Lib.Parties
import Gpcl.SharedPtr.Basic
import Gpcl.SharedPtr.Counts
import Gpcl.Json.Value
import Gpcl.Json.Text
import Gpcl.Json.Parser
import Gpcl.Json.RoundTrip
import Gpcl.Sync.FutexMutex
import Gpcl.Sync.FutexCondvar
import Gpcl.Sync.LockTwo
import Gpcl.Sync.Future
import Gpcl.Sync.AddressMutex
import Gpcl.Sync.Syncbuf
import Gpcl.Lib.Rings
import Gpcl.Lists.Intrusive
import Gpcl.Lists.Basic
import Gpcl.Lists.Spec
import Gpcl.Lists.Refine
import Gpcl.Lists.Splice
import Gpcl.Lib.Owners
import Gpcl.Variant.Basic
import Gpcl.Variant.Lifetime
import Gpcl.Json.Cow
import Gpcl.Json.CowSpec
import Gpcl.Json.CowPlaces
import Gpcl.Json.CowRuns
import Gpcl.Buffers.FlatBuffer
import Gpcl.Lib.Forests
import Gpcl.Lib.Slots
import Gpcl.Optional.Basic
import Gpcl.Optional.Lifetime
import Gpcl.Expected.Basic
import Gpcl.Expected.Lifetime
import Gpcl.Getopt.Basic
import Gpcl.Getopt.RoundTrip
import Gpcl.Pmr.Returned
import Gpcl.Pmr.Room
import Gpcl.Sync.AtomicWait
import Gpcl.Json.Lexemes
import Gpcl.Json.Rejects
import Gpcl.Json.Grammar
import Gpcl.Json.Fits
import Gpcl.Json.Accepts
import Gpcl.Pmr.ResourcePool
import Gpcl.Pmr.Synchronised
import Gpcl.Pmr.Books
import Gpcl.Pmr.PoolArrays
import Gpcl.Pmr.Alignment
import Gpcl.Dynarray.Values
import Gpcl.Dynarray.Refine
import Gpcl.OffsetPtr.Basic
import Gpcl.OffsetPtr.Refine
import Gpcl.Lib.TwoWay
import Gpcl.ObjectPool.Basic
import Gpcl.ObjectPool.Use
import Gpcl.ObjectPool.Failures
import Gpcl.Lists.Places
import Gpcl.Lib.StableSort
import Gpcl.Lists.Sort
import Gpcl.Lists.Insert
import Gpcl.Lists.Swap
import Gpcl.Dynarray.OwnElement
import Gpcl.Json.EndOfText
import Gpcl.Lib.Checked
import Gpcl.Pmr.Assertions
import Gpcl.Pmr.Failures
import Gpcl.Dynarray.Ends
import Gpcl.Lib.Bitmap
import Gpcl.Tlsf.Basic
import Gpcl.Tlsf.FreeLists
import Gpcl.Tlsf.Blocks
import Gpcl.Tlsf.Calls
import Gpcl.Tlsf.Interface
import Gpcl.Pmr.TlsfResource
import Gpcl.Pmr.TlsfLoop
import Gpcl.Lib.Occurrences
import Gpcl.StringUtils.Basic
import Gpcl.StringUtils.Split
import Gpcl.StringUtils.Trim
import Gpcl.Json.Endless
import Gpcl.Json.Tokens
import Gpcl.Getopt.Turns
import Gpcl.Getopt.Progress
import Gpcl.Time.Duration
import Gpcl.Time.Units
import Gpcl.Lib.IntTypes
import Gpcl.Numbers.NarrowCast
import Gpcl.OffsetPtr.Compare
import Gpcl.Buffers.FlatBufferPrepare
import Gpcl.Streams.Spanbuf
import Gpcl.Variant.Visit
import Gpcl.Variant.Valueless
import Gpcl.OffsetPtr.Differences
import Gpcl.Spans.Subspan
import Gpcl.Meta.Lists
import Gpcl.Optional.Compare
import Gpcl.Variant.FindIndex
import Gpcl.Variant.VisitTypes
import Gpcl.Sync.AddressTable
import Gpcl.Sync.LockMany
import Gpcl.Expected.Throws
import Gpcl.SharedPtr.Create
import Gpcl.Any.Basic
import Gpcl.Any.Lifetime
import Gpcl.Tlsf.Coalesce
import Gpcl.Tlsf.Effects
import Gpcl.Tlsf.Serve
import Gpcl.Tlsf.Heap
import Gpcl.Tlsf.Fit
import Gpcl.Tlsf.Check
import Gpcl.Tlsf.Words
import Gpcl.Lib.NullLists
import Gpcl.Tlsf.Links
import Gpcl.Tlsf.Stores
import Gpcl.Tlsf.Steps
import Gpcl.Tlsf.Simulation
import Gpcl.Tlsf.InMemory
import Gpcl.Tlsf.Machine
import Gpcl.SharedPtr.Handles
import Gpcl.Lib.Tokens
import Gpcl.SharedPtr.Dues
import Gpcl.SharedPtr.Accounts
import Gpcl.SharedPtr.Tasks
import Gpcl.SharedPtr.Operations
import Gpcl.Lib.Ownership
import Gpcl.SharedPtr.Reach
import Gpcl.Json.Meaning
import Gpcl.Any.Objects
import Gpcl.Any.Inside
