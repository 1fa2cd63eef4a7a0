/- What every function of `mm.c` leaves alone, whatever the heap looks like. -/

import ComputerSystems.Malloc.Mm

set_option autoImplicit false
set_option relaxedAutoImplicit false

namespace ComputerSystems.Malloc.Frames

open ComputerSystems.Systems.Computations (bind_ok get_ok)
open ComputerSystems.Malloc.Machine
open ComputerSystems.Malloc.ListC
open ComputerSystems.Malloc.Mm

variable {L : Layout}

section Reads

theorem readOnly_blkFree (a : Nat) : ReadOnly (blkFree a) :=
  (readOnly_readWord a WSIZE).bind fun _ => readOnly_pure _

theorem readOnly_blkSize (a : Nat) : ReadOnly (blkSize a) :=
  (readOnly_readWord a WSIZE).bind fun _ => readOnly_pure _

theorem readOnly_prevBlk (a : Nat) : ReadOnly (prevBlk L a) :=
  (readOnly_readWord _ WSIZE).bind fun _ => (readOnly_assert _).bind fun _ => readOnly_pure _

theorem readOnly_nextBlk (a : Nat) : ReadOnly (nextBlk L a) :=
  (readOnly_blkSize a).bind fun _ => (readOnly_assert _).bind fun _ =>
    (readOnly_blkSize a).bind fun _ => readOnly_pure _

theorem readOnly_getFooter (a : Nat) : ReadOnly (getFooter a) :=
  (readOnly_blkSize a).bind fun _ => readOnly_pure _

theorem readOnly_listBegin (list : Nat) : ReadOnly (listBegin L list) :=
  (readOnly_assert _).bind fun _ => (readOnly_access list).bind fun _ =>
    readOnly_get.bind fun _ => readOnly_pure _

theorem readOnly_listRbegin (list : Nat) : ReadOnly (listRbegin L list) :=
  (readOnly_assert _).bind fun _ => (readOnly_access list).bind fun _ =>
    readOnly_get.bind fun _ => readOnly_pure _

theorem readOnly_listEnd (list : Nat) : ReadOnly (listEnd L list) :=
  (readOnly_assert _).bind fun _ => readOnly_pure _

theorem readOnly_listRend (list : Nat) : ReadOnly (listRend L list) :=
  (readOnly_assert _).bind fun _ => readOnly_pure _

theorem readOnly_listNext (e : Nat) : ReadOnly (listNext L e) :=
  readOnly_get.bind fun _ => (readOnly_assert _).bind fun _ =>
    (readOnly_access e).bind fun _ => readOnly_pure _

theorem readOnly_listPrev (e : Nat) : ReadOnly (listPrev L e) :=
  readOnly_get.bind fun _ => (readOnly_assert _).bind fun _ =>
    (readOnly_access e).bind fun _ => readOnly_pure _

theorem readOnly_firstFit {step : Nat → Prog Nat} (hstep : ∀ e, ReadOnly (step e))
    (stop asize fuel e : Nat) : ReadOnly (firstFit step stop asize fuel e) := by
  induction fuel generalizing e with
  | zero => exact readOnly_pure 0
  | succ fuel ih =>
    rw [firstFit]
    apply ensures_ite
    · exact readOnly_pure 0
    · refine (readOnly_blkSize _).bind fun n => ?_
      apply ensures_ite
      · exact readOnly_pure _
      · exact (hstep e).bind ih

theorem readOnly_firstFitHigher (asize : Nat) (is : List Nat) :
    ReadOnly (firstFitHigher L asize is) := by
  induction is with
  | nil => exact readOnly_pure 0
  | cons i is ih =>
    refine (readOnly_listEnd _).bind fun stop => (readOnly_listBegin _).bind fun first =>
      (readOnly_firstFit readOnly_listNext stop asize LIMIT first).bind fun found => ?_
    apply ensures_ite
    · exact readOnly_pure found
    · exact ih

theorem readOnly_findFit (asize : Nat) : ReadOnly (findFit L asize) := by
  refine (readOnly_assert _).bind fun _ => ?_
  cases findFitIndex asize with
  | none => exact readOnly_pure 0
  | some i =>
    refine readOnly_get.bind fun s => ReadOnly.bind ?_ fun found => ?_
    · apply ensures_ite
      · exact (readOnly_listEnd _).bind fun stop => (readOnly_listBegin _).bind fun first =>
          readOnly_firstFit readOnly_listNext stop asize LIMIT first
      · exact (readOnly_listRend _).bind fun stop => (readOnly_listRbegin _).bind fun first =>
          readOnly_firstFit readOnly_listPrev stop asize LIMIT first
    · apply ensures_ite
      · exact readOnly_pure found
      · exact readOnly_firstFitHigher asize _

end Reads

section Writes

variable {R : State → State → Prop} (hR : Stable R)

include hR

theorem ensures_setNext (e v : Nat) : Ensures R (setNext e v) :=
  hR.bind (hR.readOnly (readOnly_access e)) fun _ => hR.writeWord _ _ _

theorem ensures_listInsert (before e : Nat) : Ensures R (listInsert L before e) :=
  hR.bind (hR.readOnly readOnly_get) fun _ => hR.bind (hR.readOnly (readOnly_assert _)) fun _ =>
    hR.bind (hR.readOnly (readOnly_assert _)) fun _ =>
      hR.bind (hR.readOnly (readOnly_access _)) fun _ => hR.bind (hR.writeWord _ _ _) fun _ =>
        hR.bind (ensures_setNext hR _ _) fun _ => hR.bind (hR.readOnly readOnly_get) fun _ =>
          hR.bind (ensures_setNext hR _ _) fun _ => hR.writeWord _ _ _

theorem ensures_listRemove (e : Nat) : Ensures R (listRemove L e) :=
  hR.bind (hR.readOnly readOnly_get) fun _ => hR.bind (hR.readOnly (readOnly_assert _)) fun _ =>
    hR.bind (hR.readOnly (readOnly_access e)) fun _ => hR.bind (ensures_setNext hR _ _) fun _ =>
      hR.bind (hR.readOnly readOnly_get) fun _ => hR.bind (hR.writeWord _ _ _) fun _ =>
        hR.bind (hR.readOnly readOnly_get) fun _ => hR.readOnly (readOnly_pure _)

theorem ensures_setHeaderAndFooter (a : Nat) (size inuse : Int) :
    Ensures R (setHeaderAndFooter a size inuse) :=
  hR.bind (hR.readOnly (readOnly_readWord _ _)) fun _ => hR.bind (hR.writeWord _ _ _) fun _ =>
    hR.bind (hR.readOnly (readOnly_readWord _ _)) fun _ => hR.bind (hR.writeWord _ _ _) fun _ =>
      hR.bind (hR.readOnly (readOnly_getFooter a)) fun _ =>
        hR.bind (hR.readOnly (readOnly_readWord _ _)) fun _ => hR.writeWord _ _ _

theorem ensures_insertFreeBlock (a : Nat) : Ensures R (insertFreeBlock L a) := by
  refine hR.bind (hR.recordCall _) fun _ => hR.bind (hR.readOnly (readOnly_blkSize a)) fun n =>
    hR.bind (hR.readOnly (readOnly_assert _)) fun _ => ?_
  cases findFitIndex n with
  | none => exact hR.readOnly (readOnly_pure false)
  | some i =>
    refine hR.bind (hR.readOnly (readOnly_blkSize a)) fun size =>
      hR.bind (hR.readOnly readOnly_get) fun s => ?_
    apply ensures_ite
    · refine hR.bind ?_ fun _ => hR.readOnly (readOnly_pure true)
      exact hR.bind (hR.readOnly (readOnly_listBegin _)) fun _ => ensures_listInsert hR _ _
    · refine hR.bind ?_ fun _ => hR.readOnly (readOnly_pure true)
      exact hR.bind (hR.readOnly (readOnly_listEnd _)) fun _ => ensures_listInsert hR _ _

theorem ensures_removeFreeBlock (a : Nat) : Ensures R (removeFreeBlock L a) :=
  hR.bind (hR.recordCall _) fun _ => hR.bind (ensures_listRemove hR _) fun _ =>
    hR.readOnly (readOnly_pure ())

theorem ensures_coalesce (a : Nat) : Ensures R (coalesce L a) := by
  have hpure : ∀ n : Nat, Ensures R (pure n : Prog Nat) := fun n => hR.readOnly (readOnly_pure n)
  have hinsert : ∀ n, Ensures R (do
      let inserted ← insertFreeBlock L n
      assert L inserted
      return n : Prog Nat) := fun n =>
    hR.bind (ensures_insertFreeBlock hR n) fun _ => hR.bind (hR.readOnly (readOnly_assert _))
      fun _ => hpure n
  refine hR.bind (hR.readOnly (readOnly_readWord _ _)) fun prev =>
    hR.bind (hR.readOnly (readOnly_nextBlk a)) fun next =>
      hR.bind (hR.readOnly (readOnly_blkFree next)) fun free =>
        hR.bind (hR.readOnly (readOnly_blkSize a)) fun size => ?_
  apply ensures_ite
  · exact hinsert a
  · refine hR.bind ?_ hinsert
    apply ensures_ite
    · exact hR.bind (hR.readOnly (readOnly_nextBlk a)) fun _ =>
        hR.bind (ensures_removeFreeBlock hR _) fun _ =>
          hR.bind (hR.readOnly (readOnly_nextBlk a)) fun _ =>
            hR.bind (hR.readOnly (readOnly_blkSize _)) fun _ =>
              hR.bind (ensures_setHeaderAndFooter hR _ _ _) fun _ => hpure _
    apply ensures_ite
    · exact hR.bind (hR.readOnly (readOnly_prevBlk a)) fun _ =>
        hR.bind (ensures_removeFreeBlock hR _) fun _ =>
          hR.bind (hR.readOnly (readOnly_prevBlk a)) fun _ =>
            hR.bind (hR.readOnly (readOnly_blkSize _)) fun _ =>
              hR.bind (ensures_setHeaderAndFooter hR _ _ _) fun _ => hpure _
    · exact hR.bind (hR.readOnly (readOnly_nextBlk a)) fun _ =>
        hR.bind (ensures_removeFreeBlock hR _) fun _ =>
          hR.bind (hR.readOnly (readOnly_prevBlk a)) fun _ =>
            hR.bind (ensures_removeFreeBlock hR _) fun _ =>
              hR.bind (hR.readOnly (readOnly_nextBlk a)) fun _ =>
                hR.bind (hR.readOnly (readOnly_blkSize _)) fun _ =>
                  hR.bind (hR.readOnly (readOnly_prevBlk a)) fun _ =>
                    hR.bind (hR.readOnly (readOnly_blkSize _)) fun _ =>
                      hR.bind (hR.readOnly (readOnly_prevBlk a)) fun _ =>
                        hR.bind (ensures_setHeaderAndFooter hR _ _ _) fun _ =>
                          hR.readOnly (readOnly_prevBlk a)

theorem ensures_memSbrk (incr : Int) : Ensures R (memSbrk L incr) := by
  intro s a s' h
  rw [memSbrk, bind_ok get_ok] at h
  split at h
  · cases h
    exact hR.refl s
  · cases h
    exact hR.sbrk s _

theorem ensures_extendHeap (words : Nat) : Ensures R (extendHeap L words) := by
  refine hR.bind (ensures_memSbrk hR _) fun bp => ?_
  apply ensures_ite
  · exact hR.readOnly (readOnly_pure 0)
  · exact hR.bind (ensures_setHeaderAndFooter hR _ _ _) fun _ =>
      hR.bind (hR.readOnly (readOnly_nextBlk _)) fun _ => hR.bind (hR.writeWord _ _ _) fun _ =>
        ensures_coalesce hR _

theorem ensures_place (bp asize : Nat) : Ensures R (place L bp asize) := by
  refine hR.bind (hR.readOnly (readOnly_blkSize bp)) fun csize => ?_
  apply ensures_ite
  · exact hR.bind (ensures_setHeaderAndFooter hR _ _ _) fun _ =>
      hR.bind (ensures_removeFreeBlock hR _) fun _ =>
        hR.bind (hR.readOnly (readOnly_nextBlk bp)) fun _ =>
          hR.bind (ensures_setHeaderAndFooter hR _ _ _) fun _ =>
            hR.bind (ensures_insertFreeBlock hR _) fun _ => hR.readOnly (readOnly_assert _)
  · exact hR.bind (ensures_setHeaderAndFooter hR _ _ _) fun _ => ensures_removeFreeBlock hR _

theorem ensures_mmMalloc (size : Nat) : Ensures R (mmMalloc L size) := by
  have hpure : ∀ n : Nat, Ensures R (pure n : Prog Nat) := fun n => hR.readOnly (readOnly_pure n)
  have hplace : ∀ bp asize, Ensures R (do place L bp asize; return bp + PAYLOAD : Prog Nat) :=
    fun bp asize => hR.bind (ensures_place hR bp asize) fun _ => hpure _
  apply ensures_ite
  · exact hpure 0
  apply ensures_ite
  · exact hpure 0
  refine hR.bind (hR.readOnly (readOnly_findFit _)) fun bp => ?_
  apply ensures_ite
  · exact hplace bp _
  refine hR.bind (ensures_extendHeap hR _) fun bp => ?_
  apply ensures_ite
  · exact hpure 0
  · exact hplace bp _

theorem ensures_mmFree (bp : Nat) : Ensures R (mmFree L bp) := by
  refine hR.bind (hR.readOnly readOnly_get) fun _ =>
    hR.bind (hR.readOnly (readOnly_assert _)) fun _ => ?_
  apply ensures_ite
  · exact hR.readOnly (readOnly_pure ())
  · exact hR.bind (hR.readOnly (readOnly_blkSize _)) fun _ =>
      hR.bind (ensures_setHeaderAndFooter hR _ _ _) fun _ =>
        hR.bind (ensures_coalesce hR _) fun _ => hR.readOnly (readOnly_pure ())

theorem ensures_reallocAtEnd (oldblock oldblocksize newblocksize : Nat) :
    Ensures R (reallocAtEnd L oldblock oldblocksize newblocksize) := by
  refine hR.bind (ensures_extendHeap hR _) fun bp => ?_
  apply ensures_ite
  · exact hR.readOnly (readOnly_pure 0)
  · exact hR.bind (hR.readOnly (readOnly_nextBlk _)) fun _ =>
      hR.bind (ensures_removeFreeBlock hR _) fun _ =>
        hR.bind (ensures_setHeaderAndFooter hR _ _ _) fun _ => hR.readOnly (readOnly_pure _)

theorem ensures_reallocByCopy (ptr size : Nat) : Ensures R (reallocByCopy L ptr size) := by
  refine hR.bind (ensures_mmMalloc hR size) fun newptr => ?_
  apply ensures_ite
  · exact hR.readOnly (readOnly_pure 0)
  · exact hR.bind (hR.readOnly (readOnly_blkSize _)) fun _ => hR.bind (hR.memmove _ _ _) fun _ =>
      hR.bind (ensures_mmFree hR ptr) fun _ => hR.readOnly (readOnly_pure newptr)

theorem ensures_reallocGrow (ptr size oldblocksize newblocksize : Nat) (prevAlloc nextAlloc : Bool) :
    Ensures R (reallocGrow L ptr size oldblocksize newblocksize prevAlloc nextAlloc) := by
  have hpure : ∀ n : Nat, Ensures R (pure n : Prog Nat) := fun n => hR.readOnly (readOnly_pure n)
  have hnext := fun a => hR.readOnly (readOnly_nextBlk (L := L) a)
  have hprev := fun a => hR.readOnly (readOnly_prevBlk (L := L) a)
  have hsize := fun a => hR.readOnly (readOnly_blkSize a)
  have hslide : ∀ withPrev, Ensures R (do
      let oldblock ← prevBlk L (ptr - PAYLOAD)
      markBlockUsed oldblock withPrev
      memmove (oldblock + PAYLOAD) ptr (sub64 (mul64 oldblocksize WSIZE) (2 * WSIZE))
      return oldblock + PAYLOAD : Prog Nat) := fun withPrev =>
    hR.bind (hprev _) fun _ => hR.bind (ensures_setHeaderAndFooter hR _ _ _) fun _ =>
      hR.bind (hR.memmove _ _ _) fun _ => hpure _
  refine hR.bind ?_ fun withNext => hR.bind ?_ fun withPrev => hR.bind ?_ fun withBoth => ?_
  · apply ensures_ite
    · exact hR.bind (hnext _) fun _ => hR.bind (hsize _) fun _ => hpure _
    · exact hpure 0
  · apply ensures_ite
    · exact hR.bind (hprev _) fun _ => hR.bind (hsize _) fun _ => hpure _
    · exact hpure 0
  · apply ensures_ite
    · exact hR.bind (hprev _) fun _ => hR.bind (hsize _) fun _ => hR.bind (hnext _) fun _ =>
        hR.bind (hsize _) fun _ => hpure _
    · exact hpure 0
  apply ensures_ite
  · exact hR.bind (hnext _) fun _ => hR.bind (ensures_removeFreeBlock hR _) fun _ =>
      hR.bind (ensures_setHeaderAndFooter hR _ _ _) fun _ => hpure _
  apply ensures_ite
  · exact hR.bind (hprev _) fun _ => hR.bind (ensures_removeFreeBlock hR _) fun _ => hslide withPrev
  apply ensures_ite
  · exact hR.bind (hprev _) fun _ => hR.bind (ensures_removeFreeBlock hR _) fun _ =>
      hR.bind (hnext _) fun _ => hR.bind (ensures_removeFreeBlock hR _) fun _ => hslide withBoth
  refine hR.bind (hnext _) fun _ => hR.bind (hsize _) fun _ => ?_
  apply ensures_ite
  · exact ensures_reallocAtEnd hR _ _ _
  · exact ensures_reallocByCopy hR ptr size

theorem ensures_mmRealloc (ptr size : Nat) : Ensures R (mmRealloc L ptr size) := by
  have hpure : ∀ n : Nat, Ensures R (pure n : Prog Nat) := fun n => hR.readOnly (readOnly_pure n)
  apply ensures_ite
  · exact hR.bind (ensures_mmFree hR ptr) fun _ => hpure 0
  apply ensures_ite
  · exact ensures_mmMalloc hR size
  refine hR.bind (hR.readOnly (readOnly_blkSize _)) fun oldblocksize => ?_
  apply ensures_ite
  · exact hpure 0
  refine hR.bind (hR.readOnly (readOnly_readWord _ _)) fun _ =>
    hR.bind (hR.readOnly (readOnly_nextBlk _)) fun _ =>
      hR.bind (hR.readOnly (readOnly_blkFree _)) fun _ => ?_
  apply ensures_ite
  · exact hpure ptr
  · exact ensures_reallocGrow hR _ _ _ _ _ _

end Writes

end ComputerSystems.Malloc.Frames
