/- `mm.c` and `memlib.c`: a segregated-fit allocator with boundary tags. -/

import ComputerSystems.Malloc.ListC

set_option autoImplicit false
set_option relaxedAutoImplicit false

namespace ComputerSystems.Malloc.Mm

open ComputerSystems.Memory.Bytes
open ComputerSystems.Malloc.Machine
open ComputerSystems.Malloc.ListC

def WSIZE : Nat := 4
def MIN_BLOCK_SIZE_WORDS : Nat := 8
def CHUNKSIZE : Nat := 2 ^ 5
def FREE_LISTS_SIZE : Nat := 10
def SMALL_CLASS_SIZE : Nat := 5
def LIMIT : Nat := 5

def ranges : List Nat := [8, 24, 32, 40, 120, 616, 3360, 5792, 41704, 153704]

/-! A `struct boundary_tag` is one word: `int inuse : 1` is its lowest bit and `int size : 31` the
rest, both signed. -/

def tagInuse (w : Nat) : Bool := w % 2 = 1

def tagSize (w : Nat) : Int := ((w / 2 : Nat) + 2 ^ 30 : Int) % 2 ^ 31 - 2 ^ 30

def withInuse (w : Nat) (inuse : Int) : Nat := w / 2 * 2 + (inuse % 2).toNat

def withSize (w : Nat) (size : Int) : Nat := w % 2 + 2 * (size % 2 ^ 31).toNat

def FENCE : Nat := withSize (withInuse 0 (-1)) 0

/-- `offsetof (struct block, payload)` and `offsetof (struct free_block, elem)`. -/
def PAYLOAD : Nat := 4
def ELEM : Nat := 8

def align (size : Nat) : Nat := add64 size (ALIGNMENT - 1) / ALIGNMENT * ALIGNMENT

section Memlib

variable (L : Layout)

/-- `memlib.c`: the break moves up by `incr` bytes; NULL when the simulated heap has no room. -/
def memSbrk (incr : Int) : Prog Nat := do
  let oldBrk := (← get).memBrk
  if incr < 0 ∨ (L.memMaxAddr : Int) < oldBrk + incr then
    return 0
  else
    modify fun s => { s with memBrk := oldBrk + incr.toNat }
    return oldBrk

end Memlib

/-- `&free_lists[i].list`; a `struct free_list` takes 40 bytes. -/
def freeList (L : Layout) (i : Nat) : Nat := L.freeLists + 40 * i

variable (L : Layout)

def prevBlkFooter (blk : Nat) : Nat := sub64 blk WSIZE

def blkFree (blk : Nat) : Prog Bool := do
  return !tagInuse (← readWord blk WSIZE)

def blkSize (blk : Nat) : Prog Nat := do
  return ofInt (tagSize (← readWord blk WSIZE))

def prevBlk (blk : Nat) : Prog Nat := do
  let size := tagSize (← readWord (prevBlkFooter blk) WSIZE)
  assert L (size ≠ 0)
  return sub64 blk (mul64 WSIZE (ofInt size))

def nextBlk (blk : Nat) : Prog Nat := do
  assert L ((← blkSize blk) ≠ 0)
  return add64 blk (mul64 WSIZE (← blkSize blk))

def getFooter (blk : Nat) : Prog Nat := do
  return sub64 (add64 blk (mul64 WSIZE (← blkSize blk))) WSIZE

def setHeaderAndFooter (blk : Nat) (size inuse : Int) : Prog Unit := do
  writeWord blk WSIZE (withInuse (← readWord blk WSIZE) inuse)
  writeWord blk WSIZE (withSize (← readWord blk WSIZE) size)
  writeWord (← getFooter blk) WSIZE (← readWord blk WSIZE)

def markBlockUsed (blk size : Nat) : Prog Unit := setHeaderAndFooter blk (toInt size) 1

def markBlockFree (blk size : Nat) : Prog Unit := setHeaderAndFooter blk (toInt size) 0

/-- `some i` is the index `i`; `none` is the result -1. -/
def findFitIndex (words : Nat) : Option Nat :=
  if words = 8 then some 0
  else if words = 24 then some 1
  else if words = 32 then some 2
  else if words = 40 then some 3
  else if words = 120 then some 4
  else if words < MIN_BLOCK_SIZE_WORDS then none
  else
    match (List.range' SMALL_CLASS_SIZE (FREE_LISTS_SIZE - SMALL_CLASS_SIZE)).find?
        (fun i => words < ranges.getD i 0) with
    | some i => some i
    | none => some (FREE_LISTS_SIZE - 1)

def insertFreeBlock (blk : Nat) : Prog Bool := do
  record (Call.insert · blk)
  let i := findFitIndex (← blkSize blk)
  assert L i.isSome
  match i with
  | none => return false
  | some i =>
    let size ← blkSize blk
    let mid := (← get).mid i
    if size < mid then
      listPushFront L (freeList L i) (blk + ELEM)
      return true
    else
      listPushBack L (freeList L i) (blk + ELEM)
      return true

def removeFreeBlock (blk : Nat) : Prog Unit := do
  record (Call.remove · blk)
  let _ ← listRemove L (blk + ELEM)

/-- `mm_init`: the loop over the free lists. -/
def initLists : List Nat → Prog Unit
  | [] => return ()
  | i :: is => do
    listInit L (freeList L i)
    modify fun s => { s with mid := Function.update s.mid i (ranges.getD i 0 / 2) }
    initLists is

/-- The result is the function's: 0, or -1 when the heap has no room for the two fences. -/
def mmInit : Prog Int := do
  let initial ← memSbrk L (4 * WSIZE)
  if initial = 0 then
    return -1
  else
    writeWord (initial + 2 * WSIZE) WSIZE FENCE
    modify fun s => { s with heapListp := initial + 3 * WSIZE }
    writeWord (initial + 3 * WSIZE) WSIZE FENCE
    initLists L (List.range FREE_LISTS_SIZE)
    return 0

def coalesce (bp : Nat) : Prog Nat := do
  let prevAlloc := tagInuse (← readWord (prevBlkFooter bp) WSIZE)
  let nextAlloc := !(← blkFree (← nextBlk L bp))
  let size ← blkSize bp
  if prevAlloc && nextAlloc then
    let inserted ← insertFreeBlock L bp
    assert L inserted
    return bp
  else
    let bp ← (
      if prevAlloc && !nextAlloc then do
        removeFreeBlock L (← nextBlk L bp)
        markBlockFree bp (add64 size (← blkSize (← nextBlk L bp)))
        return bp
      else if !prevAlloc && nextAlloc then do
        removeFreeBlock L (← prevBlk L bp)
        let bp ← prevBlk L bp
        markBlockFree bp (add64 size (← blkSize bp))
        return bp
      else do
        removeFreeBlock L (← nextBlk L bp)
        removeFreeBlock L (← prevBlk L bp)
        let next ← blkSize (← nextBlk L bp)
        let prev ← blkSize (← prevBlk L bp)
        markBlockFree (← prevBlk L bp) (add64 (add64 size next) prev)
        prevBlk L bp)
    let inserted ← insertFreeBlock L bp
    assert L inserted
    return bp

def extendHeap (words : Nat) : Prog Nat := do
  let bp ← memSbrk L (toInt (mul64 words WSIZE))
  if bp = 0 then
    return 0
  else
    let blk := bp - WSIZE
    markBlockFree blk words
    writeWord (← nextBlk L blk) WSIZE FENCE
    coalesce L blk

def place (bp asize : Nat) : Prog Unit := do
  let csize ← blkSize bp
  if MIN_BLOCK_SIZE_WORDS ≤ sub64 csize asize then
    markBlockUsed bp asize
    removeFreeBlock L bp
    let bp ← nextBlk L bp
    markBlockFree bp (sub64 csize asize)
    let inserted ← insertFreeBlock L bp
    assert L inserted
  else
    markBlockUsed bp csize
    removeFreeBlock L bp

/-- The first-fit loops of `find_fit`: `step` is `list_next` or `list_prev`, `stop` the sentinel
that ends the loop, and the fuel counts from `LIMIT` down. -/
def firstFit (step : Nat → Prog Nat) (stop asize : Nat) : Nat → Nat → Prog Nat
  | 0, _ => return 0
  | fuel + 1, e => do
    if e = stop then
      return 0
    else
      let currentBlock := e - ELEM
      if asize ≤ (← blkSize currentBlock) then
        return currentBlock
      else
        firstFit step stop asize fuel (← step e)

/-- The loop of `find_fit` over the higher size classes. -/
def firstFitHigher (asize : Nat) : List Nat → Prog Nat
  | [] => return 0
  | i :: is => do
    let found ← firstFit (listNext L) (← listEnd L (freeList L i)) asize LIMIT
      (← listBegin L (freeList L i))
    if found ≠ 0 then return found else firstFitHigher asize is

def findFit (asize : Nat) : Prog Nat := do
  let fitIndex := findFitIndex asize
  assert L fitIndex.isSome
  match fitIndex with
  | none => return 0
  | some i =>
    let list := freeList L i
    let mid := (← get).mid i
    let found ← (
      if asize < mid then do
        firstFit (listNext L) (← listEnd L list) asize LIMIT (← listBegin L list)
      else do
        firstFit (listPrev L) (← listRend L list) asize LIMIT (← listRbegin L list))
    if found ≠ 0 then
      return found
    else
      firstFitHigher L asize (List.range' (i + 1) (FREE_LISTS_SIZE - (i + 1)))

def mmMalloc (size : Nat) : Prog Nat := do
  if size = 0 then
    return 0
  else
    let bsize := align (add64 size (2 * WSIZE))
    if bsize < size then
      return 0
    else
      let awords := max MIN_BLOCK_SIZE_WORDS (bsize / WSIZE)
      let bp ← findFit L awords
      if bp ≠ 0 then
        place L bp awords
        return bp + PAYLOAD
      else
        let extendwords := max awords CHUNKSIZE
        let bp ← extendHeap L extendwords
        if bp = 0 then
          return 0
        else
          place L bp awords
          return bp + PAYLOAD

def mmFree (bp : Nat) : Prog Unit := do
  assert L ((← get).heapListp ≠ 0)
  if bp = 0 then
    return ()
  else
    let blk := bp - PAYLOAD
    markBlockFree blk (← blkSize blk)
    let _ ← coalesce L blk

/-- `mm_realloc`, case 5: the block is the last one and the heap grows by the difference. -/
def reallocAtEnd (oldblock oldblocksize newblocksize : Nat) : Prog Nat := do
  let freeBlock ← extendHeap L (sub64 newblocksize oldblocksize)
  if freeBlock = 0 then
    return 0
  else
    removeFreeBlock L (← nextBlk L oldblock)
    markBlockUsed oldblock newblocksize
    return oldblock + PAYLOAD

/-- `mm_realloc`, case 4: allocate, copy and free. -/
def reallocByCopy (ptr newrequestedsize : Nat) : Prog Nat := do
  let newptr ← mmMalloc L newrequestedsize
  if newptr = 0 then
    return 0
  else
    let oldpayloadsize := sub64 (mul64 (← blkSize (ptr - PAYLOAD)) WSIZE) (2 * WSIZE)
    let oldpayloadsize :=
      if newrequestedsize < oldpayloadsize then newrequestedsize else oldpayloadsize
    memmove newptr ptr oldpayloadsize
    mmFree L ptr
    return newptr

/-- `mm_realloc` where the block is too small: cases 1 to 5. -/
def reallocGrow (ptr newrequestedsize oldblocksize newblocksize : Nat)
    (prevAlloc nextAlloc : Bool) : Prog Nat := do
  let oldblock := ptr - PAYLOAD
  let payloadsize := sub64 (mul64 oldblocksize WSIZE) (2 * WSIZE)
  -- each sum is computed only where the chain of `&&` gets to it
  let withNext ← (
    if prevAlloc && !nextAlloc then do
      return add64 oldblocksize (← blkSize (← nextBlk L oldblock))
    else pure 0)
  let withPrev ← (
    if !prevAlloc && nextAlloc then do
      return add64 (← blkSize (← prevBlk L oldblock)) oldblocksize
    else pure 0)
  let withBoth ← (
    if !prevAlloc && !nextAlloc then do
      let prev ← blkSize (← prevBlk L oldblock)
      return add64 (add64 prev oldblocksize) (← blkSize (← nextBlk L oldblock))
    else pure 0)
  if prevAlloc && !nextAlloc && newblocksize ≤ withNext then
    removeFreeBlock L (← nextBlk L oldblock)
    markBlockUsed oldblock withNext
    return oldblock + PAYLOAD
  else if !prevAlloc && nextAlloc && newblocksize ≤ withPrev then
    removeFreeBlock L (← prevBlk L oldblock)
    let oldblock ← prevBlk L oldblock
    markBlockUsed oldblock withPrev
    memmove (oldblock + PAYLOAD) ptr payloadsize
    return oldblock + PAYLOAD
  else if !prevAlloc && !nextAlloc && newblocksize ≤ withBoth then
    removeFreeBlock L (← prevBlk L oldblock)
    removeFreeBlock L (← nextBlk L oldblock)
    let oldblock ← prevBlk L oldblock
    markBlockUsed oldblock withBoth
    memmove (oldblock + PAYLOAD) ptr payloadsize
    return oldblock + PAYLOAD
  else if (← blkSize (← nextBlk L oldblock)) = 0 then
    reallocAtEnd L oldblock oldblocksize newblocksize
  else
    reallocByCopy L ptr newrequestedsize

def mmRealloc (ptr newrequestedsize : Nat) : Prog Nat := do
  if newrequestedsize = 0 then
    mmFree L ptr
    return 0
  else if ptr = 0 then
    mmMalloc L newrequestedsize
  else
    let oldblock := ptr - PAYLOAD
    let oldblocksize ← blkSize oldblock
    let newblocksize := align (add64 newrequestedsize (2 * WSIZE))
    if newblocksize < newrequestedsize then
      return 0
    else
      let newblocksize := max MIN_BLOCK_SIZE_WORDS (newblocksize / WSIZE)
      let prevAlloc := tagInuse (← readWord (prevBlkFooter oldblock) WSIZE)
      let nextAlloc := !(← blkFree (← nextBlk L oldblock))
      if newblocksize ≤ oldblocksize then
        return ptr
      else
        reallocGrow L ptr newrequestedsize oldblocksize newblocksize prevAlloc nextAlloc

end ComputerSystems.Malloc.Mm
