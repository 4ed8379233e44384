import Coucal.Library.Outcome
import Coucal.Library.Transition
import Coucal.Library.Bytes
import Coucal.Library.Eviction
import Coucal.Library.Slots
import Coucal.Library.Words
import Coucal.Library.Decimal
import Coucal.Library.Recorded
import Coucal.Library.Ledger
import Coucal.Construction.Data
import Coucal.Construction.Pool
import Coucal.Construction.Table
import Coucal.Construction.System
import Coucal.Construction.Hash
import Coucal.Construction.Wrappers
import Coucal.Construction.Harness
import Coucal.Construction.Bench
import Coucal.Construction.Client
import Coucal.Construction.Programs
import Coucal.Construction.Backends
import Coucal.Construction.Statistics
import Coucal.Construction.MurmurOriginal
import Coucal.Proof.Murmur
import Coucal.Proof.Live
import Coucal.Proof.Stash
import Coucal.Proof.Strings
import Coucal.Proof.Entries
import Coucal.Proof.Search
import Coucal.Proof.Cursor
import Coucal.Proof.Relocation
import Coucal.Proof.Rearrangement
import Coucal.Proof.Keys
import Coucal.Proof.Insertion
import Coucal.Proof.Addition
import Coucal.Proof.Reshuffle
import Coucal.Proof.Invariant
import Coucal.Proof.Updates
import Coucal.Proof.Writing
import Coucal.Proof.Calls
import Coucal.Proof.Handlers
import Coucal.Proof.Addresses
import Coucal.Proof.Ownership
import Coucal.Abstract.Contents
import Coucal.Abstract.FiniteMap
import Coucal.Abstract.Views
import Coucal.Abstract.Client
import Coucal.Result.MapRefinement
import Coucal.Result.Representation
import Coucal.Result.PoolLayout
import Coucal.Result.Assertions
import Coucal.Result.StrandedEntries
import Coucal.Result.StashUse
import Coucal.Result.HandlerCalls
import Coucal.Result.Enumeration
import Coucal.Result.Enumerators
import Coucal.Result.Capacity
import Coucal.Result.Conservation
import Coucal.Result.Doubling
import Coucal.Result.NullDuplicates
import Coucal.Result.Counters
import Coucal.Result.PoolGrowth
import Coucal.Result.SecondHash
import Coucal.Result.AliasedKeys
import Coucal.Proof.Harness
import Coucal.Result.Differential
import Coucal.Result.Benchmark
import Coucal.Result.Pointers
import Coucal.Result.Equivalence
import Coucal.Result.Emptying
import Coucal.Result.Sample
import Coucal.Result.Fnv
import Coucal.Result.Digests
import Coucal.Proof.Statistics
import Coucal.Result.Statistics
import Coucal.Result.PoolCost
import Coucal.Result.Blocks
import Coucal.Result.Sizes
import Coucal.Result.MurmurPort
import Coucal.Result.Separation
