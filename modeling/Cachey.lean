import Cachey.BTree.Balanced
import Cachey.HotStuff.Aggregation
import Cachey.HotStuff.Late
import Cachey.HotStuff.Locking
import Cachey.HotStuff.Opening
import Cachey.HotStuff.Rebuild
import Cachey.HotStuff.Signing
import Cachey.HotStuff.Suspicion
import Cachey.HotStuff.Waiting
import Cachey.HotStuff.Wire
import Cachey.Raft.Compaction
import Cachey.Raft.Membership
import Cachey.Raft.Refusal
import Cachey.Raft.Sharing
import Cachey.Store.Expiration
import Cachey.Store.Logged
import Cachey.Store.Mirror
import Cachey.Store.Overlap
import Cachey.Wal.Reentry
