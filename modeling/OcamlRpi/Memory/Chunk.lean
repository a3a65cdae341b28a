import OcamlRpi.DList

namespace OcamlRpi.Memory

open Support DList Function

def NUM_SIZES : ℤ := 32

def ALIGN : ℕ := 4

def MIN_SIZE : ℕ := 8

/-- The offset of `data`, and of `free`, which share their place in a chunk. -/
def HEADER_SIZE : ℕ := 12

/-- `sizeof(Chunk)` -/
def CHUNK_SIZE : ℕ := 20

/-- The offset of the flag `used`. The links `all` are at offset 0. -/
def USED : ℕ := 8

/-- The static variables of the allocator, with the memory it works on. -/
structure Heap where
  mem : Mem
  freeChunk : ℤ → ℕ
  memFree : ℕ
  memUsed : ℕ
  memMeta : ℕ
  first : ℕ
  last : ℕ

/-- Static variables start out zeroed; memory holds anything. -/
def Heap.boot (m : Mem) : Heap := ⟨m, fun _ ↦ 0, 0, 0, 0, 0, 0⟩

/-- Sums of addresses and sizes are taken in 32 bits. -/
def wrap (x : ℕ) : ℕ := x % 2 ^ 32

/-- `x & ~(ALIGN - 1)` -/
def alignDown (x : ℕ) : ℕ := x - x % ALIGN

def memoryChunkInit (m : Mem) (chunk : ℕ) : Mem :=
  let m := dlistInit m chunk
  let m := m.store (chunk + USED) 0
  dlistInit m (chunk + HEADER_SIZE)

def memoryChunkSize (m : Mem) (chunk : ℕ) : ℕ :=
  sub32 (sub32 (next m chunk) chunk) HEADER_SIZE

def slotLoop (n : ℤ) (size : ℕ) : ℤ :=
  if 0 < size then slotLoop (n + 1) (size / 2) else n
termination_by size
decreasing_by omega

def memoryChunkSlot (size : ℕ) : ℤ := slotLoop (-1) size

/-- The static array is indexed by a C `int`; entries outside `0 .. 31` stand
for whatever lies next to it. -/
def pushSlot (h : Heap) (n : ℤ) (chunk : ℕ) : Heap :=
  let (m, head) := DLIST_PUSH HEADER_SIZE h.mem (h.freeChunk n) chunk
  { h with mem := m, freeChunk := update h.freeChunk n head }

def memoryInit (h : Heap) (mem size : ℕ) : Heap :=
  let first := alignDown (wrap (mem + ALIGN - 1))
  let last := sub32 (alignDown (wrap (mem + size))) CHUNK_SIZE
  let second := first + CHUNK_SIZE
  let m := memoryChunkInit h.mem first
  let m := memoryChunkInit m second
  let m := memoryChunkInit m last
  let m := dlistInsertAfter m first second
  let m := dlistInsertAfter m second last
  let m := m.store (first + USED) 1
  let m := m.store (last + USED) 1
  let len := memoryChunkSize m second
  let n := memoryChunkSlot len
  let h := pushSlot { h with mem := m, first := first, last := last } n second
  { h with memFree := sub32 len HEADER_SIZE, memMeta := CHUNK_SIZE * 2 + HEADER_SIZE }

/-- `while(!free_chunk[n]) { ++n; if (n >= NUM_SIZES) return NULL; }` -/
def findSlot (freeChunk : ℤ → ℕ) (n : ℤ) : Option ℤ :=
  if freeChunk n = 0 then
    if n + 1 ≥ NUM_SIZES then none else findSlot freeChunk (n + 1)
  else some n
termination_by (NUM_SIZES - n).toNat
decreasing_by omega

/-- The request after rounding up to `ALIGN` and raising to `MIN_SIZE`. -/
def roundRequest (size : ℕ) : ℕ :=
  let size := alignDown (wrap (size + ALIGN - 1))
  if size < MIN_SIZE then MIN_SIZE else size

/-- Cut a new free chunk off `chunk`, whose payload shrinks to `size`, and
return the payload of the new chunk. -/
def splitChunk (h : Heap) (chunk size : ℕ) : Heap × ℕ :=
  let chunk2 := wrap (chunk + HEADER_SIZE + size)
  let m := memoryChunkInit h.mem chunk2
  let m := dlistInsertAfter m chunk chunk2
  let len := memoryChunkSize m chunk2
  let n := memoryChunkSlot len
  let h := pushSlot { h with mem := m } n chunk2
  ({ h with
      memMeta := wrap (h.memMeta + HEADER_SIZE)
      memFree := wrap (h.memFree + sub32 len HEADER_SIZE) }, len)

/-- The part of `malloc` after the search has stopped at slot `n`. -/
def takeChunk (h : Heap) (n : ℤ) (size : ℕ) : Heap × ℕ :=
  let (m, head, chunk) := DLIST_POP HEADER_SIZE h.mem (h.freeChunk n)
  let h := { h with mem := m, freeChunk := update h.freeChunk n head }
  let size2 := memoryChunkSize h.mem chunk
  let (h, len) := if wrap (size + CHUNK_SIZE) ≤ size2 then splitChunk h chunk size else (h, 0)
  ({ h with
      mem := h.mem.store (chunk + USED) 1
      memFree := sub32 h.memFree size2
      memUsed := wrap (h.memUsed + sub32 (sub32 size2 len) HEADER_SIZE) },
    chunk + HEADER_SIZE)

/-- The new heap and the pointer returned, 0 for `NULL`. -/
def malloc (h : Heap) (size : ℕ) : Heap × ℕ :=
  let size := roundRequest size
  let n := memoryChunkSlot (size - 1) + 1
  if n ≥ NUM_SIZES then (h, 0)
  else match findSlot h.freeChunk n with
    | none => (h, 0)
    | some n => takeChunk h n size

def removeFree (h : Heap) (chunk : ℕ) : Heap :=
  let len := memoryChunkSize h.mem chunk
  let n := memoryChunkSlot len
  let (m, head) := DLIST_REMOVE_FROM HEADER_SIZE h.mem (h.freeChunk n) chunk
  { h with
    mem := m
    freeChunk := update h.freeChunk n head
    memFree := sub32 h.memFree (sub32 len HEADER_SIZE) }

def pushFree (h : Heap) (chunk : ℕ) : Heap :=
  let len := memoryChunkSize h.mem chunk
  let n := memoryChunkSlot len
  let h := pushSlot h n chunk
  { h with memFree := wrap (h.memFree + sub32 len HEADER_SIZE) }

def mergeNext (h : Heap) (next : ℕ) : Heap :=
  let h := removeFree h next
  { h with
    mem := dlistRemove h.mem next
    memMeta := sub32 h.memMeta HEADER_SIZE
    memFree := wrap (h.memFree + HEADER_SIZE) }

/-- Merge `chunk` to the free chunk `prev`. -/
def mergePrev (h : Heap) (chunk prev : ℕ) : Heap :=
  let h := removeFree h prev
  let h := { h with mem := dlistRemove h.mem chunk }
  let h := pushFree h prev
  { h with
    memMeta := sub32 h.memMeta HEADER_SIZE
    memFree := wrap (h.memFree + HEADER_SIZE) }

def markFree (h : Heap) (chunk : ℕ) : Heap :=
  let m := h.mem.store (chunk + USED) 0
  let m := dlistInit m (chunk + HEADER_SIZE)
  pushFree { h with mem := m } chunk

def freeNext (h : Heap) (chunk : ℕ) : Heap :=
  let next := CONTAINER 0 (next h.mem chunk)
  let h := { h with memUsed := sub32 h.memUsed (memoryChunkSize h.mem chunk) }
  if h.mem.load (next + USED) = 0 then mergeNext h next else h

def freePrev (h : Heap) (chunk prev : ℕ) : Heap :=
  if h.mem.load (prev + USED) = 0 then mergePrev h chunk prev else markFree h chunk

def free (h : Heap) (mem : ℕ) : Heap :=
  if mem = 0 then h
  else
    let chunk := sub32 mem HEADER_SIZE
    let prev := CONTAINER 0 (prev h.mem chunk)
    freePrev (freeNext h chunk) chunk prev

end OcamlRpi.Memory
