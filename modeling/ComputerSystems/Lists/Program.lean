/- `list.c` at the level of the two link fields of every `struct list_elem`. -/

import ComputerSystems.Lists.DoublyLinked
import ComputerSystems.Systems.Computations

set_option autoImplicit false
set_option relaxedAutoImplicit false

namespace ComputerSystems.Lists.Program

open ComputerSystems.Lists.DoublyLinked
open ComputerSystems.Systems.Computations

/-- Elements are addresses; address 0 is NULL. -/
abbrev Heap := Links Nat

/-- A failed assertion, an access through NULL, or a loop that the given fuel is too short for. -/
inductive Fault where
  | assertion
  | nullPointer
  | fuel
  deriving DecidableEq, Repr

abbrev Prog := StateT Heap (Except Fault)

/-- `list_less_func`, together with its auxiliary data. -/
abbrev Less := Nat → Nat → Bool

def assert (c : Bool) : Prog Unit := if c then pure () else throw .assertion

def access (e : Nat) : Prog Unit := if e = 0 then throw .nullPointer else pure ()

def getPrev (e : Nat) : Prog Nat := do
  access e
  return (← get).prev e

def getNext (e : Nat) : Prog Nat := do
  access e
  return (← get).next e

def setPrev (e v : Nat) : Prog Unit := do
  access e
  modify fun H => { H with prev := Function.update H.prev e v }

def setNext (e v : Nat) : Prog Unit := do
  access e
  modify fun H => { H with next := Function.update H.next e v }

/-- `struct list`: the element `head` at offset 0, the element `tail` at offset 16. -/
def headOf (list : Nat) : Nat := list

def tailOf (list : Nat) : Nat := list + 16

def isHead (H : Heap) (elem : Nat) : Bool := elem ≠ 0 && H.prev elem = 0 && H.next elem ≠ 0

def isInterior (H : Heap) (elem : Nat) : Bool := elem ≠ 0 && H.prev elem ≠ 0 && H.next elem ≠ 0

def isTail (H : Heap) (elem : Nat) : Bool := elem ≠ 0 && H.prev elem ≠ 0 && H.next elem = 0

def listInit (list : Nat) : Prog Unit := do
  assert (list ≠ 0)
  setPrev (headOf list) 0
  setNext (headOf list) (tailOf list)
  setPrev (tailOf list) (headOf list)
  setNext (tailOf list) 0

def listBegin (list : Nat) : Prog Nat := do
  assert (list ≠ 0)
  getNext (headOf list)

def listNext (elem : Nat) : Prog Nat := do
  let H ← get
  assert (isHead H elem || isInterior H elem)
  getNext elem

def listEnd (list : Nat) : Prog Nat := do
  assert (list ≠ 0)
  return tailOf list

def listRbegin (list : Nat) : Prog Nat := do
  assert (list ≠ 0)
  getPrev (tailOf list)

def listPrev (elem : Nat) : Prog Nat := do
  let H ← get
  assert (isInterior H elem || isTail H elem)
  getPrev elem

def listRend (list : Nat) : Prog Nat := do
  assert (list ≠ 0)
  return headOf list

def listHead (list : Nat) : Prog Nat := do
  assert (list ≠ 0)
  return headOf list

def listTail (list : Nat) : Prog Nat := do
  assert (list ≠ 0)
  return tailOf list

def listInsert (before elem : Nat) : Prog Unit := do
  let H ← get
  assert (isInterior H before || isTail H before)
  assert (elem ≠ 0)
  setPrev elem (← getPrev before)
  setNext elem before
  setNext (← getPrev before) elem
  setPrev before elem

def listSplice (before first last : Nat) : Prog Unit := do
  let H ← get
  assert (isInterior H before || isTail H before)
  if first = last then return
  let last ← listPrev last
  assert (isInterior H first)
  assert (isInterior H last)
  setNext (← getPrev first) (← getNext last)
  setPrev (← getNext last) (← getPrev first)
  setPrev first (← getPrev before)
  setNext last before
  setNext (← getPrev before) first
  setPrev before last

def listPushFront (list elem : Nat) : Prog Unit := do
  listInsert (← listBegin list) elem

def listPushBack (list elem : Nat) : Prog Unit := do
  listInsert (← listEnd list) elem

def listRemove (elem : Nat) : Prog Nat := do
  let H ← get
  assert (isInterior H elem)
  setNext (← getPrev elem) (← getNext elem)
  setPrev (← getNext elem) (← getPrev elem)
  getNext elem

def listEmpty (list : Nat) : Prog Bool := do
  let first ← listBegin list
  return first = (← listEnd list)

def listFront (list : Nat) : Prog Nat := do
  let empty ← listEmpty list
  assert !empty
  getNext (headOf list)

def listBack (list : Nat) : Prog Nat := do
  let empty ← listEmpty list
  assert !empty
  getPrev (tailOf list)

def listPopFront (list : Nat) : Prog Nat := do
  let front ← listFront list
  let _ ← listRemove front
  return front

def listPopBack (list : Nat) : Prog Nat := do
  let back ← listBack list
  let _ ← listRemove back
  return back

/-- The loop of `list_size`. The first argument bounds the iterations. -/
def sizeLoop (list : Nat) : Nat → Nat → Nat → Prog Nat
  | 0, _, _ => throw .fuel
  | n + 1, e, cnt => do
    if e ≠ (← listEnd list) then sizeLoop list n (← listNext e) (cnt + 1)
    else return cnt

def listSize (n list : Nat) : Prog Nat := do
  sizeLoop list n (← listBegin list) 0

/-- `swap (&e->prev, &e->next)`. -/
def swapLinks (e : Nat) : Prog Unit := do
  let t ← getPrev e
  setPrev e (← getNext e)
  setNext e t

/-- `swap (&x->next, &y->prev)`. -/
def swapNextPrev (x y : Nat) : Prog Unit := do
  let t ← getNext x
  setNext x (← getPrev y)
  setPrev y t

/-- `swap (&x->prev, &y->next)`. -/
def swapPrevNext (x y : Nat) : Prog Unit := do
  let t ← getPrev x
  setPrev x (← getNext y)
  setNext y t

def reverseLoop (list : Nat) : Nat → Nat → Prog Unit
  | 0, _ => throw .fuel
  | n + 1, e => do
    if e ≠ (← listEnd list) then
      swapLinks e
      reverseLoop list n (← getPrev e)

def listReverse (n list : Nat) : Prog Unit := do
  if !(← listEmpty list) then
    reverseLoop list n (← listBegin list)
    swapNextPrev (headOf list) (tailOf list)
    swapPrevNext (← getNext (headOf list)) (← getPrev (tailOf list))

section Ordered

variable (less : Less)

def isSortedLoop (b : Nat) : Nat → Nat → Prog Bool
  | 0, _ => throw .fuel
  | n + 1, a => do
    let a ← listNext a
    if a ≠ b then
      if less a (← listPrev a) then return false
      else isSortedLoop b n a
    else return true

def isSorted (n a b : Nat) : Prog Bool :=
  if a ≠ b then isSortedLoop less b n a else return true

def endOfRunLoop (b : Nat) : Nat → Nat → Prog Nat
  | 0, _ => throw .fuel
  | n + 1, a => do
    let a ← listNext a
    if a ≠ b then
      if less a (← listPrev a) then return a
      else endOfRunLoop b n a
    else return a

def findEndOfRun (n a b : Nat) : Prog Nat := do
  assert (a ≠ 0)
  assert (b ≠ 0)
  assert (a ≠ b)
  endOfRunLoop less b n a

def mergeLoop (b1 : Nat) : Nat → Nat → Nat → Prog Unit
  | 0, _, _ => throw .fuel
  | n + 1, a0, a1b0 => do
    if a0 ≠ a1b0 ∧ a1b0 ≠ b1 then
      if !less a1b0 a0 then mergeLoop b1 n (← listNext a0) a1b0
      else
        let a1b0 ← listNext a1b0
        listSplice a0 (← listPrev a1b0) a1b0
        mergeLoop b1 n a0 a1b0

def inplaceMerge (n a0 a1b0 b1 : Nat) : Prog Unit := do
  assert (a0 ≠ 0)
  assert (a1b0 ≠ 0)
  assert (b1 ≠ 0)
  assert (← isSorted less n a0 a1b0)
  assert (← isSorted less n a1b0 b1)
  mergeLoop less b1 n a0 a1b0

/-- The `for` loop of `list_sort`. It returns `output_run_cnt`. -/
def passLoop (n list : Nat) : Nat → Nat → Nat → Prog Nat
  | 0, _, _ => throw .fuel
  | k + 1, a0, cnt => do
    if a0 ≠ (← listEnd list) then
      let a1b0 ← findEndOfRun less n a0 (← listEnd list)
      if a1b0 = (← listEnd list) then return cnt + 1
      else
        let b1 ← findEndOfRun less n a1b0 (← listEnd list)
        inplaceMerge less n a0 a1b0 b1
        passLoop n list k b1 (cnt + 1)
    else return cnt

/-- The `do` loop of `list_sort`: `p` bounds the passes, `n` the iterations of every inner loop. -/
def sortLoop (n list : Nat) : Nat → Prog Unit
  | 0 => throw .fuel
  | p + 1 => do
    let outputRunCnt ← passLoop less n list n (← listBegin list) 0
    if outputRunCnt > 1 then sortLoop n list p

def listSort (p n list : Nat) : Prog Unit := do
  assert (list ≠ 0)
  sortLoop less n list p
  assert (← isSorted less n (← listBegin list) (← listEnd list))

def insertOrderedLoop (list elem : Nat) : Nat → Nat → Prog Nat
  | 0, _ => throw .fuel
  | n + 1, e => do
    if e ≠ (← listEnd list) then
      if less elem e then return e
      else insertOrderedLoop list elem n (← listNext e)
    else return e

def listInsertOrdered (n list elem : Nat) : Prog Unit := do
  assert (list ≠ 0)
  assert (elem ≠ 0)
  listInsert (← insertOrderedLoop less list elem n (← listBegin list)) elem

/-- `duplicates` is 0 when the caller does not want them. -/
def uniqueLoop (list duplicates : Nat) : Nat → Nat → Prog Unit
  | 0, _ => throw .fuel
  | n + 1, elem => do
    let next ← listNext elem
    if next ≠ (← listEnd list) then
      if !less elem next && !less next elem then
        let _ ← listRemove next
        if duplicates ≠ 0 then listPushBack duplicates next
        uniqueLoop list duplicates n elem
      else uniqueLoop list duplicates n next

def listUnique (n list duplicates : Nat) : Prog Unit := do
  assert (list ≠ 0)
  if !(← listEmpty list) then uniqueLoop less list duplicates n (← listBegin list)

/-- The loop of `list_max` and of `list_min`: `better m e` says that `e` takes the place of `m`. -/
def bestLoop (better : Less) (list : Nat) : Nat → Nat → Nat → Prog Nat
  | 0, _, _ => throw .fuel
  | n + 1, m, e => do
    if e ≠ (← listEnd list) then
      bestLoop better list n (if better m e then e else m) (← listNext e)
    else return m

def listBest (better : Less) (n list : Nat) : Prog Nat := do
  let m ← listBegin list
  if m ≠ (← listEnd list) then bestLoop better list n m (← listNext m)
  else return m

def listMax (n list : Nat) : Prog Nat := listBest less n list

def listMin (n list : Nat) : Prog Nat := listBest (fun m e => less e m) n list

end Ordered

end ComputerSystems.Lists.Program
