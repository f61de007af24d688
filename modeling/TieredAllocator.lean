import TieredAllocator.Config.Search
import TieredAllocator.PageHeap.Maximal
import TieredAllocator.PageHeap.Areas
import TieredAllocator.PageHeap.BestFit
import TieredAllocator.CentralFreeList.Release
import TieredAllocator.CentralFreeList.Supply
import TieredAllocator.CentralFreeList.Lifo
import TieredAllocator.Allocator.Alignment
import TieredAllocator.Allocator.Requests
import TieredAllocator.Allocator.Agreement
import TieredAllocator.Allocator.Isolation
import TieredAllocator.Caches.Family
import TieredAllocator.Caches.Transfers
import TieredAllocator.Caches.Batches
import TieredAllocator.Rseq.Threads
import TieredAllocator.Allocator.Progress
import TieredAllocator.Allocator.Contents
import TieredAllocator.Allocator.Reuse
import TieredAllocator.Allocator.Growth
import TieredAllocator.Allocator.Teardown
import TieredAllocator.Locks.Pieces
import TieredAllocator.Locks.Order
import TieredAllocator.Old.Search
import TieredAllocator.Old.Destroy
import TieredAllocator.Old.Regions
import TieredAllocator.Old.Contents
