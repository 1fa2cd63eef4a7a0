/- `mdriver.c`: the driver that replays a trace of requests on a malloc package and checks it. -/

import ComputerSystems.Malloc.Machine

set_option autoImplicit false
set_option relaxedAutoImplicit false

namespace ComputerSystems.Mdriver.Program

open ComputerSystems.Memory.Bytes
open ComputerSystems.Malloc.Machine (ALIGNMENT Layout State)

/-- A malloc package over the memory of `memlib.c`. `ε` is what can stop it. -/
structure Package (ε : Type) where
  mmInit : StateT State (Except ε) Int
  mmMalloc : Nat → StateT State (Except ε) Nat
  mmFree : Nat → StateT State (Except ε) Unit
  mmRealloc : Nat → Nat → StateT State (Except ε) Nat

inductive RequestType where
  | ALLOC
  | FREE
  | REALLOC
  deriving DecidableEq, Repr

structure Traceop where
  type : RequestType
  index : Nat
  size : Int
  deriving DecidableEq, Repr

/-- The payload of a block, from `lo` up to `hi`. -/
structure Range where
  lo : Nat
  hi : Nat
  deriving DecidableEq, Repr

/-- The messages of `malloc_error`. -/
inductive Message where
  | initFailed
  | mallocFailed
  | reallocFailed
  | notAligned
  | outsideHeap
  | overlaps
  | notPreserved
  deriving DecidableEq, Repr

/-- Why a run ends early: an error is reported for the request `opnum`, `app_error` leaves the driver, an
assertion of the driver fails, or the package stops. -/
inductive Stop (ε : Type) where
  | error (opnum : Nat) (msg : Message)
  | exit
  | assertion
  | package (e : ε)
  deriving DecidableEq, Repr

/-- The memory, the range list, and the blocks and the block sizes of the trace. -/
structure Trial where
  state : State
  ranges : List Range
  blocks : Nat → Nat
  blockSizes : Nat → Nat

abbrev Check (ε : Type) := StateT Trial (Except (Stop ε))

section Driver

variable {ε α : Type}

def package (x : StateT State (Except ε) α) : Check ε α := do
  let self ← get
  match x self.state with
  | .ok (a, state) =>
    set { self with state := state }
    return a
  | .error e => throw (.package e)

def mallocError (opnum : Nat) (msg : Message) : Check ε α := throw (.error opnum msg)

variable (L : Layout) (checkHeapBounds : Bool)

/-- `mem_heap_lo` and `mem_heap_hi`. -/
def memHeapLo : Nat := L.memStartBrk
def memHeapHi (s : State) : Nat := s.memBrk - 1

def Range.overlapped (lo hi : Nat) (p : Range) : Bool :=
  (p.lo ≤ lo && lo ≤ p.hi) || (p.lo ≤ hi && hi ≤ p.hi)

def Range.outside (lo hi : Nat) (s : State) : Bool :=
  lo < memHeapLo L || memHeapHi s < lo || hi < memHeapLo L || memHeapHi s < hi

def addRange (lo size opnum : Nat) : Check ε Unit := do
  let hi := lo + size - 1
  let self ← get
  if !L.ndebug && size = 0 then
    throw .assertion
  else if lo % ALIGNMENT ≠ 0 then
    mallocError opnum .notAligned
  else if checkHeapBounds && Range.outside L lo hi self.state then
    mallocError opnum .outsideHeap
  else if self.ranges.any (Range.overlapped lo hi) then
    mallocError opnum .overlaps
  else
    set { self with ranges := ⟨lo, hi⟩ :: self.ranges }

/-- The first record of a block that starts at `lo` is freed. -/
def removeRange (lo : Nat) : Check ε Unit :=
  modify fun self => { self with ranges := self.ranges.eraseP fun p => p.lo = lo }

def clearRanges : Check ε Unit := modify fun self => { self with ranges := [] }

/-- `memset (p, c, size)`. -/
def fill (m : Mem) (p : Nat) (c : UInt8) (size : Nat) : Mem := fun x =>
  if p ≤ x ∧ x < p + size then c else m x

/-- The payload is filled with the low byte of the index, and the block is remembered. -/
def Trial.remember (self : Trial) (index p size : Nat) : Trial where
  state := { self.state with mem := fill self.state.mem p (UInt8.ofNat (index % 256)) size }
  ranges := self.ranges
  blocks := Function.update self.blocks index p
  blockSizes := Function.update self.blockSizes index size

def remember (index p size : Nat) : Check ε Unit := modify fun self => self.remember index p size

/-- A `char` as an `int`. -/
def charValue (c : UInt8) : Int := if c.toNat < 128 then c.toNat else c.toNat - 256

/-- The first `oldsize` bytes compare equal with `index & 0xFF`. -/
def holdsData (m : Mem) (newp index oldsize : Nat) : Bool :=
  (List.range oldsize).all fun j => charValue (m (newp + j)) = (index % 256 : Nat)

/-- The size that is asked for; `scale` stands for the multiplication by `trace->multiplier`. -/
def requested (scale : Int → Int) (op : Traceop) : Nat := (max 0 (scale op.size)).toNat

variable (mm : Package ε) (scale : Int → Int)

def evalOp (i : Nat) (op : Traceop) : Check ε Unit := do
  let index := op.index
  let size := requested scale op
  match op.type with
  | .ALLOC =>
    let p ← package (mm.mmMalloc size)
    if p = 0 then
      mallocError i .mallocFailed
    else
      addRange L checkHeapBounds p size i
      remember index p size
  | .REALLOC =>
    let oldp := (← get).blocks index
    let newp ← package (mm.mmRealloc oldp size)
    if newp = 0 then
      mallocError i .reallocFailed
    else
      removeRange oldp
      addRange L checkHeapBounds newp size i
      let self ← get
      let oldsize := self.blockSizes index
      let oldsize := if size < oldsize then size else oldsize
      if holdsData self.state.mem newp index oldsize then
        remember index newp size
      else
        mallocError i .notPreserved
  | .FREE =>
    let p := (← get).blocks index
    removeRange p
    package (mm.mmFree p)

/-- The requests from number `i` on. -/
def evalFrom : Nat → List Traceop → Check ε Unit
  | _, [] => return ()
  | i, op :: ops => do
    evalOp L checkHeapBounds mm scale i op
    evalFrom (i + 1) ops

def evalMmValidInner (ops : List Traceop) : Check ε Unit := do
  clearRanges
  evalFrom L checkHeapBounds mm scale 0 ops

def resetHeap : Check ε Unit := do
  modify fun self => { self with state := { self.state with memBrk := L.memStartBrk } }
  if (← package mm.mmInit) < 0 then
    mallocError 0 .initFailed
  else
    return ()

def evalMmValid (ops : List Traceop) : Check ε Unit := do
  resetHeap L mm
  evalMmValidInner L checkHeapBounds mm scale ops

def Trial.keep (self : Trial) (index p size : Nat) : Trial where
  state := self.state
  ranges := self.ranges
  blocks := Function.update self.blocks index p
  blockSizes := Function.update self.blockSizes index size

def keep (index p size : Nat) : Check ε Unit := modify fun self => self.keep index p size

/-- The arithmetic of an `int`. -/
def int (z : Int) : Int := Int.bmod z (2 ^ 32)

/-- The loop of `eval_mm_util`. -/
def evalUtilFrom (totalSize maxTotalSize : Int) : List Traceop → Check ε Int
  | [] => return maxTotalSize
  | op :: ops => do
    let index := op.index
    match op.type with
    | .ALLOC =>
      let size := requested scale op
      let p ← package (mm.mmMalloc size)
      if p = 0 then
        throw .exit
      else
        keep index p size
        let totalSize := int (totalSize + size)
        evalUtilFrom totalSize (if totalSize > maxTotalSize then totalSize else maxTotalSize) ops
    | .REALLOC =>
      let newsize := requested scale op
      let oldsize := (← get).blockSizes index
      let newp ← package (mm.mmRealloc ((← get).blocks index) newsize)
      if newp = 0 then
        throw .exit
      else
        keep index newp newsize
        let totalSize := int (totalSize + int (newsize - oldsize))
        evalUtilFrom totalSize (if totalSize > maxTotalSize then totalSize else maxTotalSize) ops
    | .FREE =>
      let size := (← get).blockSizes index
      package (mm.mmFree ((← get).blocks index))
      evalUtilFrom (int (totalSize - size)) maxTotalSize ops

def evalMmUtil (ops : List Traceop) : Check ε Int := do
  modify fun self => { self with state := { self.state with memBrk := L.memStartBrk } }
  if (← package mm.mmInit) < 0 then
    throw .exit
  else
    evalUtilFrom mm scale 0 0 ops

end Driver

end ComputerSystems.Mdriver.Program
