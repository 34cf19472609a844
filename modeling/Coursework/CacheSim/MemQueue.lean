import Coursework.CacheSim.Cache
import Coursework.Ring.Buffer

/-!
# Requests and the queues between the caches

`Request` (`mem-sim.h`) and `memQueue` (`memQueue.C`): a queue of requests in a circular
array, with the cycle at which each request is ready, that merges requests for one block.
-/

namespace CacheSim

structure Request where
  addr : BitVec 32
  pc : BitVec 32
  load : Bool
  fromCPU : Bool
  issuedAt : BitVec 32
  hitL1 : Bool
  hitL2 : Bool
  deriving DecidableEq, Repr

/-- One slot: `_queue[i]`, `_readyTime[i]`, `_tags[i]` and `_indexes[i]`. -/
structure Entry where
  request : Request
  readyTime : BitVec 32
  tag : BitVec 32
  index : BitVec 32
  deriving DecidableEq, Repr

/-- A slot after `calloc`. -/
def Entry.zero : Entry := ⟨⟨0, 0, false, false, 0, false, false⟩, 0, 0, 0⟩

structure MemQueue where
  latency : BitVec 32
  pipelined : Bool
  write : Bool
  ring : RingBuffer Entry

namespace MemQueue

/-- The constructor. -/
def new (capacity : Nat) (latency : BitVec 32) (pipelined write : Bool) : MemQueue :=
  ⟨latency, pipelined, write, ⟨capacity, 0, 0, 0, fun _ => .zero⟩⟩

/-- The place of the last request for this block. -/
def findDup (q : MemQueue) (tag index : BitVec 32) : Option Nat :=
  q.ring.findLast fun e => e.tag == tag && e.index == index

/-- The cycle at which a request that is added now will be ready. -/
def readyAt (q : MemQueue) (cycle : BitVec 32) : BitVec 32 :=
  if q.pipelined || q.ring.size == 0 then cycle + q.latency
  else q.latency + (q.ring.slots (q.ring.retreat q.ring.rear)).readyTime

/-- The request goes to the rear of the queue. -/
def enqueue (q : MemQueue) (req : Request) (tag index cycle : BitVec 32) : MemQueue :=
  { q with ring := q.ring.push ⟨req, q.readyAt cycle, tag, index⟩ }

/-- Adds a request, unless the queue is full. `source` is the cache that the requests come
    from; its geometry says which requests are for one block. -/
def add (q : MemQueue) (source : Cache) (req : Request) (cycle : BitVec 32) : Bool × MemQueue :=
  if q.ring.size = q.ring.capacity then (false, q)
  else
    let index := source.getIndex req.addr
    let tag := source.getTag req.addr
    match q.findDup tag index with
    | none => (true, q.enqueue req tag index cycle)
    | some dupLoc =>
      let dup := q.ring.slots dupLoc
      if dup.request.fromCPU then (true, q.enqueue req tag index cycle)
      else if req.fromCPU then
        -- a request of the CPU replaces the one of the prefetcher
        (true, { q with ring := q.ring.set dupLoc { dup with request := req } })
      else (true, q)

def remove (q : MemQueue) : Bool × MemQueue :=
  if q.ring.size = 0 then (false, q)
  else (true, { q with ring := q.ring.pop })

def getSize (q : MemQueue) : Nat := q.ring.size

def frontReady (q : MemQueue) (cycle : BitVec 32) : Bool :=
  decide (0 < q.ring.size) && decide ((q.ring.slots q.ring.front).readyTime ≤ cycle)

def getFront (q : MemQueue) : Request := (q.ring.slots q.ring.front).request

end MemQueue

end CacheSim
