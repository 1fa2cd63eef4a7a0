/- How memory holds a tiling and its lists, and what the block primitives of `mm.c` do to it. -/

import ComputerSystems.Malloc.FreeLists

set_option autoImplicit false
set_option relaxedAutoImplicit false

namespace ComputerSystems.Malloc.Representation

open ComputerSystems.Memory.Bytes
open ComputerSystems.Memory.Tiling
open ComputerSystems.Lists.DoublyLinked
open ComputerSystems.Systems.Computations (bind_ok pure_ok get_ok)
open ComputerSystems.Malloc.Machine
open ComputerSystems.Malloc.ListC
open ComputerSystems.Malloc.Mm
open ComputerSystems.Malloc.Blocks
open ComputerSystems.Malloc.FreeLists

/-- The first block starts behind the padding and the prologue fence, at 12 modulo 16. -/
def base (L : Layout) : Nat := L.memStartBrk + 3 * WSIZE

theorem located_ne_zero {L : Layout} {bs : List Blk} {c : Nat} {b : Blk}
    (hc : (c, b) ∈ located Blk.bytes (base L) bs) : c ≠ 0 := by
  have hin := (located_within hc).1
  unfold base WSIZE at hin
  omega

def tagOf (b : Blk) : Nat := 2 * b.size + if b.used then 1 else 0

/-- The boundary tags of the block `b` at `c`. -/
structure Marked (m : Mem) (c : Nat) (b : Blk) : Prop where
  header : load m c WSIZE = tagOf b
  footer : load m (c + b.bytes - WSIZE) WSIZE = tagOf b

theorem tagOf_injective {b x : Blk} (h : tagOf b = tagOf x) : b = x := by
  obtain ⟨m, u⟩ := b
  obtain ⟨n, v⟩ := x
  unfold tagOf at h
  cases u with
  | false =>
    cases v with
    | false => simpa using h
    | true =>
      simp only [Bool.false_eq_true, if_false, if_true] at h
      omega
  | true =>
    cases v with
    | false =>
      simp only [Bool.false_eq_true, if_false, if_true] at h
      omega
    | true => simpa using h

theorem Marked.unique {m : Mem} {c : Nat} {b x : Blk} (hb : Marked m c b) (hx : Marked m c x) :
    b = x :=
  tagOf_injective (hb.header.symm.trans hx.header)

/-- The contract of the free-list routines: only whole blocks go in, only listed ones come out. -/
def Call.Ok (L : Layout) : Call → Prop
  | .insert m blk => (MIN_BLOCK_SIZE_WORDS : Int) ≤ tagSize (load m blk WSIZE)
  | .remove m blk => ∃ i < FREE_LISTS_SIZE, ∃ xs,
      DList (linksOf m) (listHead (freeList L i)) xs (listTail (freeList L i)) ∧ blk + ELEM ∈ xs

/-- The memory carries the tags of the blocks `ps` between two fences, and the free lists. -/
structure Represents (L : Layout) (s : State) (ps : List (Nat × Blk)) (lists : Lists) :
    Prop where
  prologue : load s.mem (base L - WSIZE) WSIZE = FENCE
  tags : ∀ c b, (c, b) ∈ ps → Marked s.mem c b
  epilogue : load s.mem (s.memBrk - WSIZE) WSIZE = FENCE
  listed : Listed L s.mem lists
  mids : ∀ i < FREE_LISTS_SIZE, s.mid i = ranges.getD i 0 / 2
  started : s.heapListp = base L
  room : s.memBrk ≤ L.memMaxAddr
  calls : ∀ call ∈ s.calls, Call.Ok L call

/-- The blocks `ps` start where blocks of the tiling start and are no longer than those. -/
def Fits (L : Layout) (ps : List (Nat × Blk)) (bs : List Blk) : Prop :=
  ∀ c b, (c, b) ∈ ps → MIN_BLOCK_SIZE_WORDS ≤ b.size ∧
    ∃ x, (c, x) ∈ located Blk.bytes (base L) bs ∧ b.size ≤ x.size

theorem fits_sizes {L : Layout} {bs bs' : List Blk} {lists : Lists}
    (ho : Ok (base L) bs lists) (h : bs'.map Blk.size = bs.map Blk.size) :
    Fits L (located Blk.bytes (base L) bs') bs := by
  have hstart : ∀ (a : Nat) (c : Nat) (b : Blk), (c, b) ∈ located Blk.bytes a bs' →
      ∃ x, (c, x) ∈ located Blk.bytes a bs ∧ x.size = b.size := by
    clear ho
    induction bs' generalizing bs with
    | nil => intro a c b hb; simp at hb
    | cons y bs' ih =>
      cases bs with
      | nil => simp at h
      | cons x bs =>
        simp only [List.map_cons, List.cons.injEq] at h
        intro a c b hb
        simp only [located_cons, List.mem_cons, Prod.mk.injEq] at hb ⊢
        rcases hb with ⟨rfl, rfl⟩ | hb
        · exact ⟨x, Or.inl ⟨rfl, rfl⟩, h.1.symm⟩
        · have hbytes : y.bytes = x.bytes := congrArg (WSIZE * ·) h.1
          obtain ⟨z, hz, hsize⟩ := ih h.2 _ c b hb
          exact ⟨z, Or.inr (hbytes ▸ hz), hsize⟩
  intro c b hb
  obtain ⟨x, hx, hsize⟩ := hstart _ c b hb
  exact ⟨hsize ▸ (ho.sizes x (mem_of_located hx)).1, x, hx, hsize.ge⟩

/-- The payload of each block in `live` holds the same bytes. -/
def Kept (live : Nat → Nat → Prop) (m m' : Mem) : Prop :=
  ∀ d n, live d n → Agree m m' (d + WSIZE) (d + WSIZE * n - WSIZE)

theorem Kept.trans {live : Nat → Nat → Prop} {m m' m'' : Mem} (h : Kept live m m')
    (h' : Kept live m' m'') : Kept live m m'' := fun d n hd => (h d n hd).trans (h' d n hd)

theorem Kept.mono {live live' : Nat → Nat → Prop} {m m' : Mem} (h : Kept live m m')
    (hsub : ∀ d n, live' d n → live d n) : Kept live' m m' := fun d n hd => h d n (hsub d n hd)

section Tags

theorem tagSize_tagOf {b : Blk} (h : b.size < 2 ^ 30) : tagSize (tagOf b) = b.size := by
  unfold tagSize tagOf
  split <;> omega

theorem tagInuse_tagOf (b : Blk) : tagInuse (tagOf b) = b.used := by
  unfold tagInuse tagOf
  cases b.used
  · simp
  · simp only [if_true, decide_eq_true_eq]
    omega

theorem tagOf_lt {b : Blk} (h : b.size < 2 ^ 30) : tagOf b < 256 ^ WSIZE := by
  unfold tagOf WSIZE
  split <;> omega

theorem with_eq_tagOf {b : Blk} (w : Nat) (h : b.size < 2 ^ 30) :
    withSize (withInuse w (if b.used then 1 else 0)) b.size = tagOf b := by
  unfold withSize withInuse tagOf
  cases b.used
  · simp only [Bool.false_eq_true, if_false]
    omega
  · simp only [if_true]
    omega

variable {s : State} {c : Nat} {b : Blk}

theorem blkSize_ok (h : load s.mem c WSIZE = tagOf b) (hsize : b.size < 2 ^ 30)
    (hc : c ≠ 0 := by omega) : blkSize c s = .ok (b.size, s) := by
  rw [blkSize, bind_ok (readWord_ok _ hc), h, tagSize_tagOf hsize, ofInt_natCast (by omega),
    pure_ok]

theorem nextBlk_ok {L : Layout} (h : load s.mem c WSIZE = tagOf b) (hpos : 0 < b.size)
    (hsize : b.size < 2 ^ 30) (hc : c < 2 ^ 63) (hc' : c ≠ 0 := by omega) :
    nextBlk L c s = .ok (c + b.bytes, s) := by
  have hmul : mul64 WSIZE b.size = b.bytes := mul64_eq (by unfold WSIZE; omega)
  have hadd : add64 c b.bytes = c + b.bytes := add64_eq (by unfold Blk.bytes WSIZE; omega)
  rw [nextBlk, bind_ok (blkSize_ok h hsize), bind_ok (assert_ok (by simp; omega)),
    bind_ok (blkSize_ok h hsize), hmul, hadd, pure_ok]

theorem prevBlk_ok {L : Layout} {d : Nat} (h : load s.mem (c - WSIZE) WSIZE = tagOf b)
    (hd : d + b.bytes = c) (hpos : 0 < b.size) (hsize : b.size < 2 ^ 30) (hc : c < 2 ^ 63)
    (hd' : d ≠ 0 := by omega) : prevBlk L c s = .ok (d, s) := by
  have hle : WSIZE ≤ c := by unfold Blk.bytes at hd; unfold WSIZE at *; omega
  have hfooter : prevBlkFooter c = c - WSIZE := sub64_eq hle (by omega)
  have hmul : mul64 WSIZE b.size = b.bytes := mul64_eq (by unfold WSIZE; omega)
  have hsub : sub64 c b.bytes = d := by
    rw [sub64_eq (by omega) (by omega)]
    omega
  rw [prevBlk, hfooter, bind_ok (readWord_ok _ (by unfold Blk.bytes at hd; unfold WSIZE at *; omega)), h, tagSize_tagOf hsize,
    bind_ok (assert_ok (by simp; omega)), ofInt_natCast (by omega), hmul, hsub, pure_ok]

def setTags (m : Mem) (c : Nat) (b : Blk) : Mem :=
  store (store m c WSIZE (tagOf b)) (c + b.bytes - WSIZE) WSIZE (tagOf b)

private theorem store_store_same (m : Mem) (a k v w : Nat) :
    store (store m a k v) a k w = store m a k w := by
  funext x
  unfold store
  split <;> rfl

theorem setHeaderAndFooter_ok (hpos : 0 < b.size) (hsize : b.size < 2 ^ 30) (hc : c < 2 ^ 63)
    (hc' : c ≠ 0 := by omega) :
    setHeaderAndFooter c b.size (if b.used then 1 else 0) s =
      .ok ((), { s with mem := setTags s.mem c b }) := by
  have hload : load (store s.mem c WSIZE (tagOf b)) c WSIZE = tagOf b :=
    load_store_same (tagOf_lt hsize)
  have hfooter : sub64 (add64 c (mul64 WSIZE b.size)) WSIZE = c + b.bytes - WSIZE := by
    have hmul : mul64 WSIZE b.size = b.bytes := mul64_eq (by unfold WSIZE; omega)
    have hadd : add64 c b.bytes = c + b.bytes := add64_eq (by unfold Blk.bytes WSIZE; omega)
    have hbytes : WSIZE ≤ b.bytes := by unfold Blk.bytes WSIZE; omega
    rw [hmul, hadd, sub64_eq (by omega) (by unfold Blk.bytes WSIZE; omega)]
  have hfoot : c + b.bytes - WSIZE ≠ 0 := by unfold Blk.bytes WSIZE; omega
  rw [setHeaderAndFooter, bind_ok (readWord_ok _ hc'), bind_ok (writeWord_ok _ _ hc'),
    bind_ok (readWord_ok _ hc'), bind_ok (writeWord_ok _ _ hc')]
  dsimp only
  rw [store_store_same]
  have hinuse : withInuse (load s.mem c WSIZE) (if b.used then 1 else 0) < 256 ^ WSIZE := by
    have hlt := load_lt s.mem c WSIZE
    unfold withInuse
    unfold WSIZE at *
    split <;> omega
  rw [load_store_same hinuse, with_eq_tagOf _ hsize]
  have hread : ∀ t : State, t = { s with mem := store s.mem c WSIZE (tagOf b) } →
      getFooter c t = .ok (c + b.bytes - WSIZE, t) := by
    rintro t rfl
    rw [getFooter, bind_ok (blkSize_ok (b := b) hload hsize), hfooter, pure_ok]
  rw [bind_ok (hread _ rfl), bind_ok (readWord_ok _ hc'), hload, writeWord_ok _ _ hfoot]
  rfl

theorem setTags_outside (hb : WSIZE ≤ b.bytes) {m : Mem} {y : Nat}
    (hy : y < c ∨ c + WSIZE ≤ y) (hy' : y < c + b.bytes - WSIZE ∨ c + b.bytes ≤ y) :
    setTags m c b y = m y := by
  unfold setTags
  rw [store_outside (by omega), store_outside hy]

theorem setTags_marked {m : Mem} (hsize : b.size < 2 ^ 30) (hpos : 2 ≤ b.size) :
    Marked (setTags m c b) c b := by
  have hlt := tagOf_lt hsize
  have hbytes : 2 * WSIZE ≤ b.bytes := by unfold Blk.bytes WSIZE; omega
  refine ⟨?_, ?_⟩
  · unfold setTags
    rw [load_store_disjoint (by omega), load_store_same hlt]
  · exact load_store_same hlt

end Tags

section FreeListCalls

variable {L : Layout} {s : State} {ps : List (Nat × Blk)} {bs : List Blk} {lists : Lists}
  {c : Nat}

/-- The elements that linking or unlinking the block at `c` may write to. -/
def Touched (L : Layout) (bs : List Blk) (c x : Nat) : Prop :=
  (∃ i < FREE_LISTS_SIZE, x = listHead (freeList L i) ∨ x = listTail (freeList L i)) ∨
    (∃ d n, (d, ⟨n, false⟩) ∈ located Blk.bytes (base L) bs ∧ x = d + ELEM) ∨ x = c + ELEM

structure Within (L : Layout) (s : State) (bs : List Blk) : Prop where
  end_le : base L + span Blk.bytes bs + WSIZE ≤ s.memBrk
  brk_le : s.memBrk ≤ L.memMaxAddr

theorem Within.block (hw : Within L s bs) {d : Nat} {b : Blk}
    (hd : (d, b) ∈ located Blk.bytes (base L) bs) :
    base L ≤ d ∧ d + b.bytes + WSIZE ≤ s.memBrk ∧ s.memBrk ≤ L.memMaxAddr ∧
      b.size < 2 ^ 28 ∧ s.memBrk < 2 ^ 63 := by
  have hin := located_within hd
  have hend := hw.end_le
  have hbrk := hw.brk_le
  have hheap := L.heapSize_le
  have hstart := L.start_below
  unfold Layout.memMaxAddr MAX_HEAP base Blk.bytes WSIZE at *
  refine ⟨hin.1, by omega, hbrk, by omega, by omega⟩

theorem static_bounds {i x : Nat} (hi : i < FREE_LISTS_SIZE)
    (hx : x = listHead (freeList L i) ∨ x = listTail (freeList L i)) :
    L.freeLists ≤ x ∧ x + 16 ≤ L.freeLists + 400 := by
  unfold listHead listTail freeList FREE_LISTS_SIZE at *
  omega

theorem Touched.cases (ho : Ok (base L) bs lists) {b : Blk}
    (hc : (c, b) ∈ located Blk.bytes (base L) bs) {x : Nat} (hx : Touched L bs c x) :
    (∃ i < FREE_LISTS_SIZE, x = listHead (freeList L i) ∨ x = listTail (freeList L i)) ∨
      ∃ d y, (d, y) ∈ located Blk.bytes (base L) bs ∧ (y.used = false ∨ d = c) ∧
        x = d + ELEM ∧ x + 16 + 8 ≤ d + y.bytes := by
  rcases hx with hx | ⟨d, n, hd, rfl⟩ | rfl
  · exact Or.inl hx
  · have hsize := (ho.sizes _ (mem_of_located hd)).1
    refine Or.inr ⟨d, _, hd, Or.inl rfl, rfl, ?_⟩
    unfold MIN_BLOCK_SIZE_WORDS ELEM Blk.bytes WSIZE at *
    simp only at hsize ⊢
    omega
  · have hsize := (ho.sizes _ (mem_of_located hc)).1
    refine Or.inr ⟨c, b, hc, Or.inr rfl, rfl, ?_⟩
    unfold MIN_BLOCK_SIZE_WORDS ELEM Blk.bytes WSIZE at *
    omega

theorem touched_spread (ho : Ok (base L) bs lists) (hw : Within L s bs) {b : Blk}
    (hc : (c, b) ∈ located Blk.bytes (base L) bs) : Spread (Touched L bs c) := by
  have hlists := L.lists_apart
  have hbelow := L.lists_below
  have hpos := L.lists_pos
  refine ⟨?_, ?_⟩
  · intro x y hx hy
    rcases hx.cases ho hc with ⟨i, hi, hx⟩ | ⟨d, u, hd, -, rfl, hdx⟩ <;>
      rcases hy.cases ho hc with ⟨j, hj, hy⟩ | ⟨e, v, he, -, rfl, hey⟩
    · unfold Apart
      unfold listHead listTail freeList at *
      omega
    · have hstatic := static_bounds hi hx
      have hblock := hw.block he
      refine Or.inr ?_
      unfold Apart
      unfold ELEM base WSIZE Layout.memMaxAddr at *
      omega
    · have hstatic := static_bounds hj hy
      have hblock := hw.block hd
      refine Or.inr ?_
      unfold Apart
      unfold ELEM base WSIZE Layout.memMaxAddr at *
      omega
    · rcases located_apart hd he with ⟨rfl, -⟩ | h | h
      · exact Or.inl rfl
      · exact Or.inr (Or.inl (by unfold ELEM at *; omega))
      · exact Or.inr (Or.inr (by unfold ELEM at *; omega))
  · intro x hx
    rcases hx.cases ho hc with ⟨i, hi, hx⟩ | ⟨d, u, hd, -, rfl, hdx⟩
    · have hstatic := static_bounds hi hx
      omega
    · have hblock := hw.block hd
      unfold ELEM at *
      omega

theorem tags_kept (ho : Ok (base L) bs lists) (hw : Within L s bs) (hf : Fits L ps bs) {b : Blk}
    (hc : (c, b) ∈ located Blk.bytes (base L) bs) {m' : Mem}
    (hframe : ∀ y, (∀ x, Touched L bs c x → y < x ∨ x + 16 ≤ y) → m' y = s.mem y) :
    (∀ d x, (d, x) ∈ ps → Marked s.mem d x → Marked m' d x) ∧
      Agree s.mem m' (base L - WSIZE) (base L) ∧
      Agree s.mem m' (s.memBrk - WSIZE) s.memBrk := by
  have hlists := L.lists_apart
  have houter : ∀ y, (L.freeLists + 400 ≤ y ∨ y < L.freeLists) →
      (∀ d u, (d, u) ∈ located Blk.bytes (base L) bs →
        y < d + ELEM ∨ d + ELEM + 16 ≤ y) → m' y = s.mem y := by
    intro y hstatic hblocks
    refine hframe y fun x hx => ?_
    rcases hx.cases ho hc with ⟨i, hi, hx⟩ | ⟨d, u, hd, -, rfl, hdx⟩
    · have hbounds := static_bounds hi hx
      omega
    · exact hblocks d u hd
  have hbase : base L ≤ s.memBrk ∧ s.memBrk ≤ L.memMaxAddr := by
    have h := hw.end_le
    exact ⟨by omega, hw.brk_le⟩
  have hstatic : ∀ y, base L - WSIZE ≤ y → y < s.memBrk →
      (L.freeLists + 400 ≤ y ∨ y < L.freeLists) := by
    unfold base WSIZE Layout.memMaxAddr at *
    omega
  refine ⟨?_, ?_, ?_⟩
  · intro d x hdx hmarked
    obtain ⟨hmin, u, hu, hle⟩ := hf d x hdx
    have hblock := hw.block hu
    have htag : ∀ y, d ≤ y → (y < d + WSIZE ∨ d + x.bytes - WSIZE ≤ y) → y < d + x.bytes →
        m' y = s.mem y := by
      intro y hy hy' hend
      have hbytes : x.bytes ≤ u.bytes := by unfold Blk.bytes WSIZE; omega
      refine houter y (hstatic y (by omega) (by omega)) fun e v he => ?_
      unfold MIN_BLOCK_SIZE_WORDS at hmin
      have hev := (ho.sizes _ (mem_of_located he)).1
      unfold MIN_BLOCK_SIZE_WORDS at hev
      rcases located_apart hu he with ⟨rfl, -⟩ | h | h
      · unfold ELEM
        unfold Blk.bytes WSIZE at *
        omega
      · unfold ELEM
        omega
      · unfold ELEM
        unfold Blk.bytes WSIZE at *
        omega
    have hpos : 2 * WSIZE ≤ x.bytes := by
      unfold MIN_BLOCK_SIZE_WORDS at hmin
      unfold Blk.bytes WSIZE
      omega
    refine ⟨?_, ?_⟩
    · rw [← hmarked.header]
      exact load_congr fun y hy hy' => htag y hy (Or.inl hy') (by omega)
    · rw [← hmarked.footer]
      exact load_congr fun y hy hy' => htag y (by omega) (Or.inr hy) (by omega)
  · intro y hy hy'
    have hend := hw.end_le
    refine houter y (hstatic y hy (by omega)) fun e v he => ?_
    have hin := located_within he
    unfold ELEM
    omega
  · intro y hy hy'
    have hend := hw.end_le
    refine houter y (hstatic y (by omega) hy') fun e v he => ?_
    have hin := located_within he
    have hsize := (ho.sizes _ (mem_of_located he)).1
    unfold MIN_BLOCK_SIZE_WORDS at hsize
    unfold ELEM
    unfold Blk.bytes WSIZE at *
    omega

theorem elems_touched (ho : Ok (base L) bs lists) (c : Nat) {j x : Nat}
    (hj : j < FREE_LISTS_SIZE) (hx : x ∈ elemsOf L lists j) : Touched L bs c x := by
  simp only [elemsOf, List.mem_cons, List.mem_append, List.mem_map, List.not_mem_nil,
    or_false] at hx
  rcases hx with rfl | ⟨d, hd, rfl⟩ | rfl
  · exact Or.inl ⟨j, hj, Or.inl rfl⟩
  · obtain ⟨n, hn, -⟩ := (ho.listed j hj d).mp hd
    exact Or.inr (Or.inl ⟨d, n, hn, rfl⟩)
  · exact Or.inl ⟨j, hj, Or.inr rfl⟩

theorem elem_not_static (hw : Within L s bs) {d : Nat} {b : Blk}
    (hd : (d, b) ∈ located Blk.bytes (base L) bs) (hmin : MIN_BLOCK_SIZE_WORDS ≤ b.size)
    {i : Nat} (hi : i < FREE_LISTS_SIZE) :
    d + ELEM ≠ listHead (freeList L i) ∧ d + ELEM ≠ listTail (freeList L i) := by
  have hblock := hw.block hd
  have hlists := L.lists_apart
  have hhead := static_bounds (L := L) hi (Or.inl rfl)
  have htail := static_bounds (L := L) hi (Or.inr rfl)
  unfold MIN_BLOCK_SIZE_WORDS at hmin
  unfold ELEM base Blk.bytes WSIZE Layout.memMaxAddr at *
  omega

theorem lists_disjoint (ho : Ok (base L) bs lists) (hw : Within L s bs) : Disjoint L lists := by
  intro i hi j hj x hx hx'
  have helem : ∀ k < FREE_LISTS_SIZE, ∀ d ∈ lists k, ∃ n,
      (d, ⟨n, false⟩) ∈ located Blk.bytes (base L) bs ∧ findFitIndex n = some k :=
    fun k hk d hd => (ho.listed k hk d).mp hd
  have hstatic : ∀ k < FREE_LISTS_SIZE, ∀ d ∈ lists k, ∀ l < FREE_LISTS_SIZE,
      d + ELEM ≠ listHead (freeList L l) ∧ d + ELEM ≠ listTail (freeList L l) := by
    intro k hk d hd l hl
    obtain ⟨n, hn, -⟩ := helem k hk d hd
    exact elem_not_static hw hn (ho.sizes _ (mem_of_located hn)).1 hl
  simp only [elemsOf, List.mem_cons, List.mem_append, List.mem_map, List.not_mem_nil,
    or_false] at hx hx'
  rcases hx with rfl | ⟨d, hd, rfl⟩ | rfl <;> rcases hx' with hx' | ⟨e, he, hx'⟩ | hx'
  · unfold listHead freeList at hx'
    omega
  · exact absurd hx' (hstatic j hj e he i hi).1
  · unfold listHead listTail freeList at hx'
    omega
  · exact absurd hx' (hstatic i hi d hd j hj).1
  · have hde : e = d := Nat.add_right_cancel hx'
    subst hde
    obtain ⟨n, hn, hni⟩ := helem i hi e hd
    obtain ⟨m, hm, hmj⟩ := helem j hj e he
    have hnm := located_unique ho.pos hn hm
    simp only [Blk.mk.injEq, and_true] at hnm
    subst hnm
    exact Option.some.inj (hni.symm.trans hmj)
  · exact absurd hx' (hstatic i hi d hd j hj).2
  · unfold listHead listTail freeList at hx'
    omega
  · exact absurd hx' (hstatic j hj e he i hi).2
  · unfold listTail freeList at hx'
    omega

theorem payloads_kept (ho : Ok (base L) bs lists) (hw : Within L s bs) {b : Blk}
    (hc : (c, b) ∈ located Blk.bytes (base L) bs) {m' : Mem}
    (hframe : ∀ y, (∀ x, Touched L bs c x → y < x ∨ x + 16 ≤ y) → m' y = s.mem y) :
    Kept (fun d n => (d, ⟨n, true⟩) ∈ located Blk.bytes (base L) bs ∧ d ≠ c) s.mem m' := by
  rintro d n ⟨hd, hdc⟩ y hy hy'
  have hblock := hw.block hd
  have hlists := L.lists_apart
  rw [bytes_eq] at hblock
  refine hframe y fun x hx => ?_
  unfold base WSIZE Layout.memMaxAddr at *
  rcases hx.cases ho hc with ⟨i, hi, hx⟩ | ⟨e, u, he, hu, rfl, hend⟩
  · have hbounds := static_bounds hi hx
    omega
  · have hlower : ELEM = 8 := rfl
    rcases located_apart hd he with ⟨rfl, heq⟩ | h | h
    · rcases hu with hu | rfl
      · rw [← heq] at hu
        cases hu
      · exact absurd rfl hdc
    · rw [bytes_eq] at h
      omega
    · omega

theorem removeFreeBlock_ok (hr : Represents L s ps lists) (ho : Ok (base L) bs lists)
    (hw : Within L s bs) (hf : Fits L ps bs) {n : Nat}
    (hc : (c, ⟨n, false⟩) ∈ located Blk.bytes (base L) bs) :
    ∃ s', removeFreeBlock L c s = .ok ((), s') ∧ Represents L s' ps (lists.drop c) ∧
      s'.memBrk = s.memBrk ∧
      Kept (fun d m => (d, ⟨m, true⟩) ∈ located Blk.bytes (base L) bs) s.mem s'.mem := by
  obtain ⟨i, hfit, hi⟩ := findFitIndex_isSome (ho.sizes _ (mem_of_located hc)).1
  have hlisted : c ∈ lists i := (ho.listed i hi c).mpr ⟨n, hc, hfit⟩
  set calls := s.calls ++ [Call.remove s.mem c] with hcalls
  obtain ⟨m', v, hrun, hl, hframe⟩ := listRemove_listed (L := L)
    (s := { s with calls := calls }) hr.listed (lists_disjoint ho hw)
    (touched_spread ho hw hc) hi hlisted (fun j hj x hx => elems_touched ho c hj hx)
  obtain ⟨htags, hpro, hepi⟩ := tags_kept ho hw hf hc hframe
  have hbase : WSIZE ≤ base L := by unfold base WSIZE; omega
  have hbrk : WSIZE ≤ s.memBrk := by
    have hend := hw.end_le
    omega
  refine ⟨{ s with mem := m', calls := calls }, ?_, ?_, rfl, ?_⟩
  · rw [removeFreeBlock, bind_ok (record_ok _), bind_ok hrun, pure_ok]
  · refine ⟨?_, fun d x hd => htags d x hd (hr.tags d x hd), ?_, hl, hr.mids, hr.started,
      hr.room, ?_⟩
    · rw [← hr.prologue]
      exact load_congr (hpro.mono le_rfl (by omega))
    · rw [← hr.epilogue]
      exact load_congr (hepi.mono le_rfl (by simp only; omega))
    · intro call hcall
      simp only [hcalls, List.mem_append, List.mem_singleton] at hcall
      rcases hcall with hcall | rfl
      · exact hr.calls call hcall
      · exact ⟨i, hi, _, hr.listed i hi, List.mem_map_of_mem hlisted⟩
  · refine (payloads_kept ho hw hc hframe).mono fun d m hd => ⟨hd, ?_⟩
    rintro rfl
    have heq := located_unique ho.pos hd hc
    cases heq

/-- `insert_free_block` on a tagged block that is on no list yet. -/
theorem insertFreeBlock_ok (hr : Represents L s ps lists) (ho : Ok (base L) bs lists)
    (hw : Within L s bs) (hf : Fits L ps bs) {n m : Nat} {u : Bool} (hp : (c, ⟨n, u⟩) ∈ ps)
    (hc : (c, ⟨m, true⟩) ∈ located Blk.bytes (base L) bs) :
    ∃ s', insertFreeBlock L c s = .ok (true, s') ∧ Represents L s' ps (lists.push c n) ∧
      s'.memBrk = s.memBrk ∧
      Kept (fun d k => (d, ⟨k, true⟩) ∈ located Blk.bytes (base L) bs ∧ d ≠ c)
        s.mem s'.mem := by
  obtain ⟨hmin, x, hx, hle⟩ := hf c _ hp
  have hsize : n < 2 ^ 30 := by
    have hblock := hw.block hx
    simp only at hle
    omega
  obtain ⟨i, hfit, hi⟩ := findFitIndex_isSome hmin
  simp only at hfit
  have hheader := (hr.tags _ _ hp).header
  set calls := s.calls ++ [Call.insert s.mem c] with hcalls
  have hfresh : ∀ j < FREE_LISTS_SIZE, c + ELEM ∉ elemsOf L lists j := by
    intro j hj hmem
    simp only [elemsOf, List.mem_cons, List.mem_append, List.mem_map, List.not_mem_nil,
      or_false] at hmem
    have hstatic := elem_not_static hw hc (ho.sizes _ (mem_of_located hc)).1 hj
    rcases hmem with hmem | ⟨d, hd, hmem⟩ | hmem
    · exact hstatic.1 hmem
    · exact ho.not_listed hc rfl hj ((Nat.add_right_cancel hmem : d = c) ▸ hd)
    · exact hstatic.2 hmem
  have hmid : s.mid i = ranges.getD i 0 / 2 := hr.mids i hi
  have hpush : ∃ m', (if n < s.mid i then listPushFront L (freeList L i) (c + ELEM)
        else listPushBack L (freeList L i) (c + ELEM)) { s with calls := calls } =
          .ok ((), { s with mem := m', calls := calls }) ∧
      Listed L m' (lists.push c n) ∧
      ∀ y, (∀ x, Touched L bs c x → y < x ∨ x + 16 ≤ y) → m' y = s.mem y := by
    have hspread := touched_spread ho hw hc
    have hsub : ∀ j < FREE_LISTS_SIZE, ∀ x ∈ elemsOf L lists j, Touched L bs c x :=
      fun j hj x hx => elems_touched ho c hj hx
    have hself : Touched L bs c (c + ELEM) := Or.inr (Or.inr rfl)
    simp only [Lists.push, hfit, hmid]
    split
    · exact listPushFront_ok (s := { s with calls := calls }) hr.listed
        (lists_disjoint ho hw) hspread hi hself hsub hfresh
    · exact listPushBack_ok (s := { s with calls := calls }) hr.listed
        (lists_disjoint ho hw) hspread hi hself hsub hfresh
  obtain ⟨m', hrun, hl, hframe⟩ := hpush
  obtain ⟨htags, hpro, hepi⟩ := tags_kept ho hw hf hc hframe
  have hbase : WSIZE ≤ base L := by unfold base WSIZE; omega
  have hbrk : WSIZE ≤ s.memBrk := by
    have hend := hw.end_le
    omega
  refine ⟨{ s with mem := m', calls := calls }, ?_, ?_, rfl, payloads_kept ho hw hc hframe⟩
  · have hblk : blkSize c { s with calls := calls } = .ok (n, { s with calls := calls }) :=
      blkSize_ok (b := ⟨n, u⟩) hheader hsize (located_ne_zero hc)
    rw [insertFreeBlock, bind_ok (record_ok _), bind_ok hblk]
    dsimp only
    rw [hfit, bind_ok (assert_ok (c := (some i).isSome) rfl)]
    dsimp only
    rw [bind_ok hblk, bind_ok get_ok]
    split at hrun
    · rw [if_pos ‹_›, bind_ok hrun, pure_ok]
    · rw [if_neg ‹_›, bind_ok hrun, pure_ok]
  · refine ⟨?_, fun d x hd => htags d x hd (hr.tags d x hd), ?_, hl, hr.mids, hr.started,
      hr.room, ?_⟩
    · rw [← hr.prologue]
      exact load_congr (hpro.mono le_rfl (by omega))
    · rw [← hr.epilogue]
      exact load_congr (hepi.mono le_rfl (by simp only; omega))
    · intro call hcall
      simp only [hcalls, List.mem_append, List.mem_singleton] at hcall
      rcases hcall with hcall | rfl
      · exact hr.calls call hcall
      · change (MIN_BLOCK_SIZE_WORDS : Int) ≤ tagSize (load s.mem c WSIZE)
        rw [hheader, tagSize_tagOf hsize]
        exact Int.ofNat_le.mpr hmin

end FreeListCalls

end ComputerSystems.Malloc.Representation
