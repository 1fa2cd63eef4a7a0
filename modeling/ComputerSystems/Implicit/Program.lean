/- `mm-gback-implicit.c`: a first-fit allocator whose blocks are its only list. -/

import ComputerSystems.Malloc.Mm

set_option autoImplicit false
set_option relaxedAutoImplicit false

namespace ComputerSystems.Implicit.Program

open ComputerSystems.Malloc.Machine
open ComputerSystems.Malloc.Mm (WSIZE PAYLOAD FENCE align memSbrk prevBlkFooter blkFree blkSize
  prevBlk nextBlk markBlockUsed markBlockFree tagInuse)

/-! The boundary tags and the functions on single blocks are those of `mm.c`, word for word. -/

def MIN_BLOCK_SIZE_WORDS : Nat := 4
def CHUNKSIZE : Nat := 2 ^ 10

variable (L : Layout)

def coalesce (bp : Nat) : Prog Nat := do
  let prevAlloc := tagInuse (← readWord (prevBlkFooter bp) WSIZE)
  let nextAlloc := !(← blkFree (← nextBlk L bp))
  let size ← blkSize bp
  if prevAlloc && nextAlloc then
    return bp
  else if prevAlloc && !nextAlloc then
    let next ← blkSize (← nextBlk L bp)
    markBlockFree bp (add64 size next)
    return bp
  else if !prevAlloc && nextAlloc then
    let bp ← prevBlk L bp
    markBlockFree bp (add64 size (← blkSize bp))
    return bp
  else
    let next ← blkSize (← nextBlk L bp)
    let prev ← blkSize (← prevBlk L bp)
    markBlockFree (← prevBlk L bp) (add64 (add64 size next) prev)
    prevBlk L bp

def extendHeap (words : Nat) : Prog Nat := do
  let bp ← memSbrk L (toInt (mul64 words WSIZE))
  if bp = 0 then
    return 0
  else
    let blk := bp - WSIZE
    markBlockFree blk words
    writeWord (← nextBlk L blk) WSIZE FENCE
    coalesce L blk

def mmInit : Prog Int := do
  let initial ← memSbrk L (4 * WSIZE)
  if initial = 0 then
    return -1
  else
    writeWord (initial + 2 * WSIZE) WSIZE FENCE
    modify fun s => { s with heapListp := initial + 3 * WSIZE }
    writeWord (initial + 3 * WSIZE) WSIZE FENCE
    if (← extendHeap L CHUNKSIZE) = 0 then
      return -1
    else
      return 0

def place (bp asize : Nat) : Prog Unit := do
  let csize ← blkSize bp
  if MIN_BLOCK_SIZE_WORDS ≤ sub64 csize asize then
    markBlockUsed bp asize
    let bp ← nextBlk L bp
    markBlockFree bp (sub64 csize asize)
  else
    markBlockUsed bp csize

/-- The loop of `find_fit` from the block `bp` on, for at most as many rounds as the fuel has; `none`
when these do not suffice. -/
def findFitFrom (asize : Nat) : Nat → Nat → Prog (Option Nat)
  | 0, _ => return none
  | fuel + 1, bp => do
    if (← blkSize bp) = 0 then
      return some 0
    else if (← blkFree bp) && asize ≤ (← blkSize bp) then
      return some bp
    else
      findFitFrom asize fuel (← nextBlk L bp)

def findFit (fuel asize : Nat) : Prog (Option Nat) := do
  findFitFrom L asize fuel (← get).heapListp

/-- `none` when the fuel of `find_fit` does not suffice. -/
def mmMalloc (fuel size : Nat) : Prog (Option Nat) := do
  if size = 0 then
    return some 0
  else
    let bsize := align (add64 size (2 * WSIZE))
    if bsize < size then
      return some 0
    else
      let awords := max MIN_BLOCK_SIZE_WORDS (bsize / WSIZE)
      match ← findFit L fuel awords with
      | none => return none
      | some bp =>
        if bp ≠ 0 then
          place L bp awords
          return some (bp + PAYLOAD)
        else
          let extendwords := max awords CHUNKSIZE
          let bp ← extendHeap L extendwords
          if bp = 0 then
            return some 0
          else
            place L bp awords
            return some (bp + PAYLOAD)

def mmFree (bp : Nat) : Prog Unit := do
  assert L ((← get).heapListp ≠ 0)
  if bp = 0 then
    return ()
  else
    let blk := bp - PAYLOAD
    markBlockFree blk (← blkSize blk)
    let _ ← coalesce L blk

def mmRealloc (fuel ptr size : Nat) : Prog (Option Nat) := do
  if size = 0 then
    mmFree L ptr
    return some 0
  else if ptr = 0 then
    mmMalloc L fuel size
  else
    match ← mmMalloc L fuel size with
    | none => return none
    | some newptr =>
      if newptr = 0 then
        return some 0
      else
        let oldpayloadsize := sub64 (mul64 (← blkSize (ptr - PAYLOAD)) WSIZE) (2 * WSIZE)
        let oldpayloadsize := if size < oldpayloadsize then size else oldpayloadsize
        -- the two blocks are apart, so `memcpy` copies like `memmove`
        memmove newptr ptr oldpayloadsize
        mmFree L ptr
        return some newptr

end ComputerSystems.Implicit.Program
