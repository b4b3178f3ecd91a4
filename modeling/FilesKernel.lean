import FilesKernel.Lib.Exec
import FilesKernel.FileSystem.Model
import FilesKernel.FileSystem.Blocks
import FilesKernel.FileSystem.Contents
import FilesKernel.FileSystem.Tree
import FilesKernel.FileSystem.Ownership
import FilesKernel.FileSystem.Paths
import FilesKernel.Lib.RedBlack
import FilesKernel.RbTree.Model
import FilesKernel.RbTree.Repr
import FilesKernel.RbTree.Rotate
import FilesKernel.RbTree.Insert
import FilesKernel.RbTree.Walk
import FilesKernel.RbTree.EraseFix
import FilesKernel.RbTree.Erase
import FilesKernel.RbTree.Runs
import FilesKernel.Lib.Ring
import FilesKernel.LinkedList.Model
import FilesKernel.LinkedList.Rings
import FilesKernel.RbTree.Order
import FilesKernel.Balloc.Model
import FilesKernel.Balloc.Pool
import FilesKernel.Balloc.Joins
import FilesKernel.Balloc.AddRange
import FilesKernel.Balloc.Union
import FilesKernel.Balloc.RemoveRange
import FilesKernel.Balloc.ParseMmap
import FilesKernel.Kmap.Layout
import FilesKernel.Kmap.Moves
import FilesKernel.Kmap.Ranges
import FilesKernel.Kmap.Runs
import FilesKernel.Threads.Model
import FilesKernel.Threads.Queues
import FilesKernel.Threads.Invariant
import FilesKernel.Threads.Lists
import FilesKernel.Threads.Refine
import FilesKernel.Threads.Runs
import FilesKernel.Threads.Sleeping
import FilesKernel.Threads.Mutex
import FilesKernel.Threads.Condition
import FilesKernel.Initramfs.Model
import FilesKernel.Threads.Scheduler
import FilesKernel.Initramfs.Archive
import FilesKernel.Lib.Radix
import FilesKernel.Paging.Model
import FilesKernel.Paging.MapPages
import FilesKernel.Paging.SinglePage
import FilesKernel.Kmap.Mapping
import FilesKernel.Boot.Modules
import FilesKernel.Kmap.Space
import FilesKernel.FileSystem.Listing
import FilesKernel.FileSystem.Bounds
import FilesKernel.FileSystem.Lookup
import FilesKernel.FileSystem.Kinds
import FilesKernel.FileSystem.Capacity
import FilesKernel.Lib.Cycles
import FilesKernel.Initramfs.Loading
import FilesKernel.Initramfs.Bounds
import FilesKernel.Buddy.Model
import FilesKernel.Lib.Dyadic
import FilesKernel.Buddy.Zones
import FilesKernel.Buddy.Blocks
import FilesKernel.Buddy.Moves
import FilesKernel.Buddy.Alloc
import FilesKernel.Buddy.Free
import FilesKernel.Buddy.Runs
import FilesKernel.Balloc.Alloc
import FilesKernel.Balloc.Bootstrap
import FilesKernel.Buddy.Carve
import FilesKernel.Slab.Layout
import FilesKernel.Paging.Attributes
import FilesKernel.Paging.Counting
import FilesKernel.Lib.Numerals
import FilesKernel.Stdlib.NumberText
import FilesKernel.Output.Model
import FilesKernel.Output.Conversions
import FilesKernel.Output.Faithful
import FilesKernel.Output.Bounded
import FilesKernel.Output.Names
import FilesKernel.Buddy.Callers
import FilesKernel.Slab.Bitmap
import FilesKernel.Slab.Model
import FilesKernel.Slab.Pools
import FilesKernel.Slab.Invariant
import FilesKernel.Stdlib.Contract
import FilesKernel.Stdlib.RoundTrip
import FilesKernel.Debug.Backtrace
import FilesKernel.LinkedList.Sequences
import FilesKernel.RbTree.Iteration
import FilesKernel.Slab.Slots
import FilesKernel.Balloc.Tracked
import FilesKernel.Balloc.Nodes
import FilesKernel.Buddy.Indices
import FilesKernel.Buddy.Setup
import FilesKernel.Buddy.Handover
import FilesKernel.Buddy.Descriptors
import FilesKernel.Buddy.Unfragmented
import FilesKernel.Slab.Caches
import FilesKernel.Slab.Growth
import FilesKernel.Slab.Shrink
import FilesKernel.Slab.CacheRuns
import FilesKernel.Slab.Release
import FilesKernel.Kmap.DirectMap
import FilesKernel.Slab.General
import FilesKernel.Slab.MemRuns
import FilesKernel.Slab.BootHeap
import FilesKernel.RbTree.Shallow
import FilesKernel.Balloc.Searches
