/- `list.c`: doubly linked lists whose elements lie in the heap and whose ends are static. -/

import ComputerSystems.Malloc.Machine

set_option autoImplicit false
set_option relaxedAutoImplicit false

namespace ComputerSystems.Malloc.ListC

open ComputerSystems.Memory.Bytes
open ComputerSystems.Systems.Computations (bind_ok)
open ComputerSystems.Malloc.Machine

/-- `struct list_elem`: `prev` at offset 0, `next` at offset 8. -/
def prevOf (m : Mem) (e : Nat) : Nat := load m e 8

def nextOf (m : Mem) (e : Nat) : Nat := load m (e + 8) 8

def setPrev (e v : Nat) : Prog Unit := writeWord e 8 v

def setNext (e v : Nat) : Prog Unit := do
  access e
  writeWord (e + 8) 8 v

theorem setPrev_ok {s : State} {e : Nat} (v : Nat) (h : e ≠ 0) :
    setPrev e v s = .ok ((), { s with mem := store s.mem e 8 v }) := writeWord_ok _ _ h

theorem setNext_ok {s : State} {e : Nat} (v : Nat) (h : e ≠ 0) :
    setNext e v s = .ok ((), { s with mem := store s.mem (e + 8) 8 v }) := by
  rw [setNext, bind_ok (access_ok h), writeWord_ok _ _ (by omega)]

/-- `struct list`: the element `head` at offset 0, the element `tail` at offset 16. -/
def listHead (list : Nat) : Nat := list

def listTail (list : Nat) : Nat := list + 16

def isHead (m : Mem) (elem : Nat) : Bool :=
  elem ≠ 0 && prevOf m elem = 0 && nextOf m elem ≠ 0

def isInterior (m : Mem) (elem : Nat) : Bool :=
  elem ≠ 0 && prevOf m elem ≠ 0 && nextOf m elem ≠ 0

def isTail (m : Mem) (elem : Nat) : Bool :=
  elem ≠ 0 && prevOf m elem ≠ 0 && nextOf m elem = 0

variable (L : Layout)

def listInit (list : Nat) : Prog Unit := do
  assert L (list ≠ 0)
  setPrev (listHead list) 0
  setNext (listHead list) (listTail list)
  setPrev (listTail list) (listHead list)
  setNext (listTail list) 0

def listBegin (list : Nat) : Prog Nat := do
  assert L (list ≠ 0)
  access list
  return nextOf (← get).mem (listHead list)

def listNext (elem : Nat) : Prog Nat := do
  let m := (← get).mem
  assert L (isHead m elem || isInterior m elem)
  access elem
  return nextOf m elem

def listEnd (list : Nat) : Prog Nat := do
  assert L (list ≠ 0)
  return listTail list

def listRbegin (list : Nat) : Prog Nat := do
  assert L (list ≠ 0)
  access list
  return prevOf (← get).mem (listTail list)

def listPrev (elem : Nat) : Prog Nat := do
  let m := (← get).mem
  assert L (isInterior m elem || isTail m elem)
  access elem
  return prevOf m elem

def listRend (list : Nat) : Prog Nat := do
  assert L (list ≠ 0)
  return listHead list

def listInsert (before elem : Nat) : Prog Unit := do
  let m := (← get).mem
  assert L (isInterior m before || isTail m before)
  assert L (elem ≠ 0)
  access before
  setPrev elem (prevOf m before)
  setNext elem before
  setNext (prevOf (← get).mem before) elem
  setPrev before elem

def listPushFront (list elem : Nat) : Prog Unit := do
  listInsert L (← listBegin L list) elem

def listPushBack (list elem : Nat) : Prog Unit := do
  listInsert L (← listEnd L list) elem

def listRemove (elem : Nat) : Prog Nat := do
  let m := (← get).mem
  assert L (isInterior m elem)
  access elem
  setNext (prevOf m elem) (nextOf m elem)
  let m := (← get).mem
  setPrev (nextOf m elem) (prevOf m elem)
  return nextOf (← get).mem elem

end ComputerSystems.Malloc.ListC
