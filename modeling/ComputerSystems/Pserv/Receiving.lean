/- What the reads of `bufio.c` find in a stream, however `recv` splits it. -/

import ComputerSystems.Pserv.Input
import ComputerSystems.Systems.Computations

set_option autoImplicit false
set_option relaxedAutoImplicit false

namespace ComputerSystems.Pserv.Receiving

open ComputerSystems.Memory.CStrings
open ComputerSystems.Systems.Computations
open ComputerSystems.Pserv.Strings
open ComputerSystems.Pserv.Buffers
open ComputerSystems.Pserv.Input

/-- A call of `recv` with this many bytes in the buffer finds no `int` for the new capacity. -/
def LIMIT : Nat := 1342173184

def Capacity (cap : Int) : Prop := ∃ k ≤ 17, cap = 10240 * 2 ^ k - 2048

/-- The capacities that a buffer comes to for a stream; those of a truncated one are bounded for a
short stream. -/
def Capacious (stream : Bytes) (cap : Int) : Prop :=
  Capacity cap ∨ stream.length < 2 ^ 29 ∧ 8192 ≤ cap ∧ cap ≤ 2 ^ 30 + 2 ^ 14

def received (s : Bufio) : Nat := s.buf.len.toNat

def pending (s : Bufio) : Bytes := (s.input.map Chunk.bytes).flatten

/-- The buffer holds what has come of the stream, unchanged from offset `lo` on; `J` says what is
known about the chunks that are still to come. -/
structure Inv (J : Nat → List Chunk → Prop) (stream : Bytes) (lo : Nat) (s : Bufio) : Prop where
  len : s.buf.len = received s
  fits : (received s : Int) < s.buf.cap
  capacity : Capacious stream s.buf.cap
  lo_le : lo ≤ s.bufpos
  bufpos_le : s.bufpos ≤ received s
  received_le : received s ≤ stream.length
  holds : ∀ i, lo ≤ i → i < received s → stream[i]? = some (s.buf.buf i)
  pending : pending s = stream.drop (received s)
  delivery : J (received s) s.input

structure Later (s s' : Bufio) : Prop where
  received : received s ≤ received s'
  cap : s.buf.cap ≤ s'.buf.cap
  ending : s'.ending = s.ending
  before : ∀ i, i < Receiving.received s → s'.buf.buf i = s.buf.buf i
  beyond : ∀ i, Receiving.received s' ≤ i → s'.buf.buf i = s.buf.buf i

/-- What is known about the chunks stays known when one is received below the limit. -/
def Steady (J : Nat → List Chunk → Prop) : Prop :=
  ∀ r c input, J r (c :: input) → r < LIMIT → J (r + c.bytes.length) input

/-- `recv` was called at or above the limit when less than `n` bytes had come. -/
def Late (J : Nat → List Chunk → Prop) (n : Nat) : Prop :=
  ∃ r input, J r input ∧ LIMIT ≤ r ∧ r < n

/-- `n` bytes have come; or the end of the stream, which is counted as a byte, below the limit. -/
def Reached (J : Nat → List Chunk → Prop) (n : Nat) (atEnd : Bool) : Prop :=
  if atEnd then n ≤ LIMIT else ∃ r input, J r input ∧ n ≤ r

variable {J : Nat → List Chunk → Prop} {E : Stop → Prop} {stream : Bytes} {lo n : Nat}
variable {s s' s'' : Bufio}

theorem Later.refl : Later s s :=
  ⟨Nat.le_refl _, Int.le_refl _, rfl, fun _ _ => rfl, fun _ _ => rfl⟩

theorem Later.trans (h : Later s s') (h' : Later s' s'') : Later s s'' where
  received := Nat.le_trans h.received h'.received
  cap := Int.le_trans h.cap h'.cap
  ending := h'.ending.trans h.ending
  before i hi := (h'.before i (Nat.lt_of_lt_of_le hi h.received)).trans (h.before i hi)
  beyond i hi := (h'.beyond i hi).trans (h.beyond i (Nat.le_trans h'.received hi))

theorem Late.mono {m : Nat} (h : Late J n) (hle : n ≤ m) : Late J m := by
  obtain ⟨r, input, hJ, hr, hn⟩ := h
  exact ⟨r, input, hJ, hr, by omega⟩

section Capacities

variable {b : Buffer} {r : Nat}

theorem Capacity.cases {cap : Int} (h : Capacity cap) :
    cap = LIMIT + READSIZE ∨
      8192 ≤ cap ∧ 2 * cap + READSIZE ≤ LIMIT + READSIZE ∧ Capacity (2 * cap + READSIZE) := by
  obtain ⟨k, hk, rfl⟩ := h
  have hpos : (1 : Int) ≤ 2 ^ k := by exact_mod_cast Nat.one_le_two_pow
  rcases Nat.lt_or_ge k 17 with hlt | hge
  · have hpow : (2 : Int) ^ (k + 1) ≤ 2 ^ 17 := by
      exact_mod_cast Nat.pow_le_pow_right (by decide) (by omega : k + 1 ≤ 17)
    rw [Int.pow_succ] at hpow
    refine Or.inr ⟨by omega, ?_, k + 1, by omega, ?_⟩
    · rw [LIMIT, READSIZE]
      omega
    · rw [Int.pow_succ, READSIZE]
      omega
  · obtain rfl : k = 17 := by omega
    exact Or.inl rfl

theorem Capacity.small {cap : Int} (h : Capacity cap) : 8192 ≤ cap ∧ cap < 2 ^ 31 - 1 := by
  have hlimit : LIMIT = 1342173184 := rfl
  have hread : READSIZE = 2048 := rfl
  rcases h.cases with rfl | ⟨hmin, hdouble, -⟩ <;> omega

theorem Capacious.small {cap : Int} (h : Capacious stream cap) : 8192 ≤ cap ∧ cap < 2 ^ 31 - 1 := by
  rcases h with h | ⟨-, hmin, hmax⟩
  · exact h.small
  · exact ⟨hmin, by omega⟩

theorem Capacious.double {cap : Int} (h : Capacious stream cap) (hr : r < LIMIT)
    (hstream : r ≤ stream.length) (hfull : cap ≤ (r : Int) + READSIZE) :
    8192 ≤ cap ∧ 2 * cap + READSIZE ≤ LIMIT + READSIZE ∧
      Capacious stream (2 * cap + READSIZE) := by
  have hlimit : LIMIT = 1342173184 := rfl
  have hread : READSIZE = 2048 := rfl
  rcases h with h | ⟨hshort, hmin, hmax⟩
  · rcases h.cases with hmax | ⟨hmin, hdouble, hcap⟩
    · omega
    · exact ⟨hmin, hdouble, Or.inl hcap⟩
  · exact ⟨hmin, by omega, Or.inr ⟨hshort, by omega, by omega⟩⟩

theorem ensureCapacity_ok (hlen : b.len = r) (hr : r < LIMIT) (hfits : (r : Int) ≤ b.cap)
    (hcap : Capacious stream b.cap) (hstream : r ≤ stream.length) :
    ∃ cap, bufferEnsureCapacity b READSIZE = .ok { b with cap := cap } ∧ Capacious stream cap ∧
      b.cap ≤ cap ∧ (r : Int) + READSIZE < cap := by
  have hlimit : LIMIT = 1342173184 := rfl
  have hread : READSIZE = 2048 := rfl
  have hsum : int (b.len + READSIZE) = r + READSIZE := by
    rw [hlen]
    exact int_eq (by omega)
  rw [bufferEnsureCapacity, hsum]
  by_cases hge : (r : Int) + READSIZE ≥ b.cap
  · obtain ⟨hmin, hdouble, hcap'⟩ := hcap.double hr hstream hge
    have hnew : int (int (b.cap * 2) + READSIZE) = 2 * b.cap + READSIZE := by
      rw [int_eq (z := b.cap * 2) (by omega), int_eq (by omega)]
      omega
    rw [if_pos hge, hnew]
    refine ⟨2 * b.cap + READSIZE, if_neg (by omega), hcap', by omega, by omega⟩
  · rw [if_neg hge]
    exact ⟨b.cap, rfl, hcap, Int.le_refl _, by omega⟩

theorem ensureCapacity_exit (hlen : b.len = r) (hr : LIMIT ≤ r) (hfits : (r : Int) ≤ b.cap)
    (hcap : Capacious stream b.cap) (hstream : r ≤ stream.length) :
    bufferEnsureCapacity b READSIZE = .error .exit := by
  have hlimit : LIMIT = 1342173184 := rfl
  have hread : READSIZE = 2048 := rfl
  have hcap := hcap.resolve_right fun hshort =>
    absurd (Nat.lt_of_le_of_lt hstream hshort.1) (by omega)
  rcases hcap.cases with hmax | ⟨hmin, hdouble, -⟩
  · have hsum : int (b.len + READSIZE) = r + READSIZE := by
      rw [hlen]
      exact int_eq (by omega)
    have hnew : int (int (b.cap * 2) + READSIZE) ≤ 0 := by
      have hbig : int (b.cap * 2) = -1610616832 := by
        rw [hmax, hlimit, hread]
        decide
      rw [hbig, int_eq (by omega)]
      omega
    rw [bufferEnsureCapacity, hsum, if_pos (by omega), if_pos hnew]
  · omega

end Capacities

section Runs

/-- The computation ends as `Q` says, or stops as `E` says, or stops in a call of `recv` above the
limit, when less than `n` bytes have come. -/
def Runs {α : Type} (J : Nat → List Chunk → Prop) (E : Stop → Prop) (n : Nat) (x : Io α)
    (s : Bufio) (Q : α → Bufio → Prop) : Prop :=
  x s = .error .exit ∧ Late J n ∨ (∃ e, x s = .error e ∧ E e) ∨ ∃ a s', x s = .ok (a, s') ∧ Q a s'

variable {α β : Type} {m : Nat} {x : Io α} {f : α → Io β} {Q : α → Bufio → Prop}
  {R : β → Bufio → Prop}

theorem Runs.ok {a : α} (h : x s = .ok (a, s')) (hQ : Q a s') : Runs J E n x s Q :=
  Or.inr (Or.inr ⟨a, s', h, hQ⟩)

theorem Runs.mono {Q' : α → Bufio → Prop} (h : Runs J E n x s Q) (hle : n ≤ m)
    (hsub : ∀ a s', Q a s' → Q' a s') : Runs J E m x s Q' := by
  rcases h with ⟨hexit, hlate⟩ | hstop | ⟨a, s', hok, hQ⟩
  · exact Or.inl ⟨hexit, hlate.mono hle⟩
  · exact Or.inr (Or.inl hstop)
  · exact Runs.ok hok (hsub a s' hQ)

theorem Runs.bind (h : Runs J E n x s Q) (hle : n ≤ m)
    (hf : ∀ a s', Q a s' → Runs J E m (f a) s' R) : Runs J E m (x >>= f) s R := by
  rcases h with ⟨hexit, hlate⟩ | ⟨e, hstop, he⟩ | ⟨a, s', hok, hQ⟩
  · exact Or.inl ⟨bind_error hexit, hlate.mono hle⟩
  · exact Or.inr (Or.inl ⟨e, bind_error hstop, he⟩)
  · have hrest := hf a s' hQ
    unfold Runs at hrest ⊢
    rwa [bind_ok hok]

theorem Runs.after {a : α} (h : x s = .ok (a, s')) (hf : Runs J E n (f a) s' R) :
    Runs J E n (x >>= f) s R := by
  unfold Runs at hf ⊢
  rwa [bind_ok h]

end Runs

section Reads

theorem readMore_ok (h : Inv J stream lo s) (hJ : Steady J) (hr : received s < LIMIT) :
    ∃ rc s', readMore s = .ok (rc, s') ∧ Inv J stream lo s' ∧ Later s s' ∧ s'.bufpos = s.bufpos ∧
      (rc = s.ending.rc ∧ received s = stream.length ∧ received s' = received s ∧
          s'.input = s.input ∨
        ∃ c input, s.input = c :: input ∧ s'.input = input ∧ rc = c.bytes.length ∧
          received s' = received s + c.bytes.length) := by
  obtain ⟨cap, hensure, hcap, hle, hroom⟩ :=
    ensureCapacity_ok h.len hr (Int.le_of_lt h.fits) h.capacity h.received_le
  cases hinput : s.input with
  | nil =>
    have hend : received s = stream.length := by
      have hpending := h.pending
      rw [pending, hinput] at hpending
      have hlen := congrArg List.length hpending
      simp only [List.map_nil, List.flatten_nil, List.length_nil, List.length_drop] at hlen
      have hle := h.received_le
      omega
    refine ⟨s.ending.rc, { s with buf := { s.buf with cap := cap } }, ?_, ?_, ?_, rfl,
      Or.inl ⟨rfl, hend, rfl, hinput⟩⟩
    · rw [readMore, bind_ok get_ok, bind_ok (lift_ok hensure), hinput]
      rfl
    · exact ⟨h.len, Int.lt_of_lt_of_le h.fits hle, hcap, h.lo_le, h.bufpos_le, h.received_le, h.holds,
        h.pending, h.delivery⟩
    · exact ⟨Nat.le_refl _, hle, rfl, fun _ _ => rfl, fun _ _ => rfl⟩
  | cons c input =>
    have hfits := c.fits
    have hlen := h.len
    have hcapacity := hcap.small
    have hsum : int (s.buf.len + c.bytes.length) = s.buf.len + c.bytes.length := int_eq (by omega)
    let buf : Buffer :=
      ⟨overlay s.buf.buf (received s) c.bytes, s.buf.len + c.bytes.length, cap⟩
    let s' : Bufio := { s with buf := buf, input := input }
    have hreceived : received s' = received s + c.bytes.length := by
      show (s.buf.len + c.bytes.length).toNat = _
      omega
    have hstream : stream.drop (received s) = c.bytes ++ pending s' := by
      rw [← h.pending, pending, hinput]
      rfl
    have hbound : received s + c.bytes.length ≤ stream.length := by
      have hcount := congrArg List.length hstream
      simp only [List.length_drop, List.length_append] at hcount
      have hle := h.received_le
      omega
    refine ⟨c.bytes.length, s', ?_, ?_, ?_, rfl, Or.inr ⟨c, input, rfl, rfl, rfl, hreceived⟩⟩
    · have hstore : ({ s.buf with cap := cap } : Buffer).storeAll s.buf.len c.bytes =
          .ok { s.buf with cap := cap, buf := overlay s.buf.buf (received s) c.bytes } := by
        rw [hlen]
        exact storeAll_ok (by show (received s : Int) + _ ≤ cap; omega)
      rw [readMore, bind_ok get_ok, bind_ok (lift_ok hensure), hinput]
      dsimp only
      rw [bind_ok (lift_ok hstore), hsum]
      rfl
    · constructor
      · show s.buf.len + c.bytes.length = (received s' : Int)
        omega
      · show (received s' : Int) < cap
        omega
      · exact hcap
      · exact h.lo_le
      · have hpos := h.bufpos_le
        show s.bufpos ≤ received s'
        omega
      · omega
      · intro i hi hlt
        show stream[i]? = some (overlay s.buf.buf (received s) c.bytes i)
        rcases Nat.lt_or_ge i (received s) with hbefore | hafter
        · rw [overlay_outside (Or.inl hbefore)]
          exact h.holds i hi hbefore
        · obtain ⟨k, rfl⟩ : ∃ k, i = received s + k := ⟨i - received s, by omega⟩
          have hk : k < c.bytes.length := by omega
          rw [overlay_inside (List.getElem?_eq_getElem hk), ← List.getElem?_drop, hstream,
            List.getElem?_append_left hk, List.getElem?_eq_getElem hk]
      · rw [hreceived, ← List.drop_drop, hstream, List.drop_left]
      · rw [hreceived]
        exact hJ _ c input (hinput ▸ h.delivery) hr
    · refine ⟨by omega, hle, rfl, fun i hi => overlay_outside (Or.inl hi), fun i hi => ?_⟩
      exact overlay_outside (Or.inr (by omega))

theorem readMore_exit (h : Inv J stream lo s) (hr : LIMIT ≤ received s) :
    readMore s = .error .exit := by
  rw [readMore, bind_ok get_ok,
    bind_error (lift_error (ensureCapacity_exit h.len hr (Int.le_of_lt h.fits) h.capacity h.received_le))]

/-- `s'` comes from `s` by reading up to the offset `pos` of the stream. -/
structure Advanced (J : Nat → List Chunk → Prop) (stream : Bytes) (lo pos : Nat) (s s' : Bufio) :
    Prop where
  inv : Inv J stream lo s'
  later : Later s s'
  bufpos : s'.bufpos = pos

theorem nextByte_ok (h : Inv J stream lo s) (hlt : s.bufpos < received s) :
    ∃ c, stream[s.bufpos]? = some c ∧
      nextByte s = .ok (c, { s with bufpos := s.bufpos + 1 }) := by
  have hfits := h.fits
  refine ⟨s.buf.buf s.bufpos, h.holds _ h.lo_le hlt, ?_⟩
  rw [nextByte, bind_ok get_ok, if_pos (by omega)]
  rfl

theorem Inv.skip {pos : Nat} (h : Inv J stream lo s) (hlo : lo ≤ pos) (hpos : pos ≤ received s) :
    Advanced J stream lo pos s { s with bufpos := pos } where
  inv := ⟨h.len, h.fits, h.capacity, hlo, hpos, h.received_le, h.holds, h.pending, h.delivery⟩
  later := ⟨Nat.le_refl _, Int.le_refl _, rfl, fun _ _ => rfl, fun _ _ => rfl⟩
  bufpos := rfl

theorem Inv.buffered (h : Inv J stream lo s) : bytesBuffered s = received s - s.bufpos := by
  have hfits := h.fits
  have hsmall := h.capacity.small
  have hpos := h.bufpos_le
  rw [bytesBuffered, h.len, Int.bmod_def]
  omega

theorem readMore_runs (h : Inv J stream lo s) (hJ : Steady J) (hn : received s < n) :
    Runs J E n readMore s fun rc s' => Advanced J stream lo s.bufpos s s' ∧
      (rc = s.ending.rc ∧ received s = stream.length ∧ received s < LIMIT ∨
        0 < rc ∧ received s < received s') := by
  rcases Nat.lt_or_ge (received s) LIMIT with hlt | hge
  · obtain ⟨rc, s', hok, hinv, hlater, hpos, hcases⟩ := readMore_ok h hJ hlt
    refine Runs.ok hok ⟨⟨hinv, hlater, hpos⟩, ?_⟩
    rcases hcases with ⟨hrc, hend, -⟩ | ⟨c, input, -, -, hrc, hreceived⟩
    · exact Or.inl ⟨hrc, hend, hlt⟩
    · have hpos := List.length_pos_iff.mpr c.nonempty
      exact Or.inr ⟨by omega, by omega⟩
  · exact Or.inl ⟨readMore_exit h hge, received s, s.input, h.delivery, hge, hn⟩

theorem Advanced.trans {lo pos pos' : Nat} (h : Advanced J stream lo pos s s')
    (h' : Advanced J stream lo pos' s' s'') : Advanced J stream lo pos' s s'' :=
  ⟨h'.inv, h.later.trans h'.later, h'.bufpos⟩

theorem readbyte_take {rc : Int} (h : Inv J stream lo s) (hlt : s.bufpos < received s)
    (hrc : 0 < rc) :
    Runs J E n (if rc ≤ 0 then return (rc, 0) else do let out ← nextByte; return (1, out)) s
      fun r s' => r.1 = 1 ∧ stream[s.bufpos]? = some r.2 ∧
        Advanced J stream lo (s.bufpos + 1) s s' := by
  obtain ⟨c, hc, hok⟩ := nextByte_ok h hlt
  rw [if_neg (by omega)]
  exact Runs.after hok (Runs.ok (pure_ok _) ⟨rfl, hc, h.skip (Nat.le_succ_of_le h.lo_le) hlt⟩)

theorem readbyte_next (h : Inv J stream lo s) (hJ : Steady J) (hlt : s.bufpos < stream.length) :
    Runs J E (s.bufpos + 1) bufioReadbyte s fun r s' =>
      r.1 = 1 ∧ stream[s.bufpos]? = some r.2 ∧ Advanced J stream lo (s.bufpos + 1) s s' := by
  have hbuffered := h.buffered
  have hpos := h.bufpos_le
  refine Runs.after get_ok ?_
  by_cases hempty : bytesBuffered s = 0
  · rw [if_pos hempty]
    refine (readMore_runs h hJ (by omega)).bind (Nat.le_refl _) fun rc s' ⟨hadv, hcases⟩ => ?_
    rcases hcases with ⟨-, hend, -⟩ | ⟨hrc, hmore⟩
    · omega
    · have hbufpos := hadv.bufpos
      refine (readbyte_take hadv.inv (by omega) hrc).mono (Nat.le_refl _) fun r s'' hr => ?_
      rw [hbufpos] at hr
      exact ⟨hr.1, hr.2.1, hadv.trans hr.2.2⟩
  · rw [if_neg hempty]
    exact Runs.after (pure_ok _) (readbyte_take h (by omega) (by decide))

theorem readbyte_end (h : Inv J stream lo s) (hJ : Steady J) (hend : s.bufpos = stream.length) :
    Runs J E (s.bufpos + 1) bufioReadbyte s fun r s' =>
      r.1 = s.ending.rc ∧ stream.length < LIMIT ∧ Advanced J stream lo s.bufpos s s' := by
  have hbuffered := h.buffered
  have hpos := h.bufpos_le
  have hbound := h.received_le
  refine Runs.after get_ok ?_
  rw [if_pos (by omega)]
  refine (readMore_runs h hJ (by omega)).bind (Nat.le_refl _) fun rc s' ⟨hadv, hcases⟩ => ?_
  rcases hcases with ⟨hrc, heq, hlt⟩ | ⟨-, hmore⟩
  · have hle : rc ≤ 0 := by
      rw [hrc]
      cases s.ending <;> decide
    dsimp only
    rw [if_pos hle]
    exact Runs.ok (pure_ok _) ⟨hrc, heq ▸ hlt, hadv⟩
  · have hbound' := hadv.inv.received_le
    omega

theorem drop_bound {l : Bytes} {c : UInt8} {k : Nat} (h : stream.drop k = c :: l) :
    k < stream.length ∧ stream[k]? = some c ∧ stream.drop (k + 1) = l := by
  refine ⟨?_, ?_, ?_⟩
  · by_contra hge
    rw [List.drop_eq_nil_of_le (by omega)] at h
    cases h
  · rw [← List.head?_drop, h]
    rfl
  · rw [← List.tail_drop, h]
    rfl

theorem readlineLoop_byte {l : Bytes} {c p : UInt8} {off steps : Nat}
    {R : Int → Bufio → Prop} (hJ : Steady J) (h : Inv J stream lo s)
    (hdrop : stream.drop s.bufpos = c :: l) (hp : p ≠ LF) (hn : s.bufpos + 1 ≤ n)
    (hrest : ∀ s', Advanced J stream lo (s.bufpos + 1) s s' → stream.drop s'.bufpos = l →
      Runs J E n (readlineLoop off steps c) s' R) :
    Runs J E n (readlineLoop off (steps + 1) p) s R := by
  obtain ⟨hlt, hc, hl⟩ := drop_bound hdrop
  rw [readlineLoop, if_neg hp]
  refine (readbyte_next h hJ hlt).bind hn fun r s' ⟨hrc, hbyte, hadv⟩ => ?_
  obtain ⟨rc, out⟩ := r
  obtain rfl : rc = 1 := hrc
  obtain rfl : c = out := Option.some.inj (hc.symm.trans hbyte)
  exact hrest s' hadv (by rw [hadv.bufpos, hl])

theorem readlineLoop_line {l rest : Bytes} (off : Nat) {steps : Nat} {p : UInt8} (hJ : Steady J)
    (h : Inv J stream lo s) (hline : stream.drop s.bufpos = l ++ LF :: rest) (hl : LF ∉ l)
    (hp : p ≠ LF) (hsteps : l.length + 1 < steps) :
    Runs J E (s.bufpos + l.length + 1) (readlineLoop off steps p) s fun len s' =>
      len = (s.bufpos + l.length + 1 : Nat) - off ∧
        Advanced J stream lo (s.bufpos + l.length + 1) s s' := by
  obtain ⟨steps, rfl⟩ : ∃ k, steps = k + 1 := ⟨steps - 1, by omega⟩
  induction l generalizing s steps p with
  | nil =>
    refine readlineLoop_byte hJ h hline hp (by simp) fun s' hadv _ => ?_
    obtain ⟨steps, rfl⟩ : ∃ k, steps = k + 1 := ⟨steps - 1, by simp at hsteps; omega⟩
    rw [readlineLoop, if_pos rfl]
    refine Runs.after get_ok (Runs.ok (pure_ok _) ⟨?_, hadv⟩)
    rw [hadv.bufpos]
    rfl
  | cons c l ih =>
    refine readlineLoop_byte hJ h hline hp (by simp) fun s' hadv hdrop => ?_
    have hpos := hadv.bufpos
    have hc : c ≠ LF := fun heq => hl (heq ▸ List.mem_cons_self)
    simp only [List.length_cons] at hsteps
    obtain ⟨steps, rfl⟩ : ∃ k, steps = k + 1 := ⟨steps - 1, by omega⟩
    have hrest := ih hadv.inv hdrop (fun hmem => hl (List.mem_cons_of_mem c hmem)) hc steps (by omega)
    have hlen : s'.bufpos + l.length + 1 = s.bufpos + (c :: l).length + 1 := by
      simp only [List.length_cons]
      omega
    rw [hlen] at hrest
    exact hrest.mono (Nat.le_refl _) fun len s'' ⟨hval, hadv'⟩ => ⟨hval, hadv.trans hadv'⟩

/-- The loop of `bufio_readline` comes to the end of the stream. -/
theorem readlineLoop_end {l : Bytes} (off : Nat) {steps : Nat} {p : UInt8} (hJ : Steady J)
    (h : Inv J stream lo s) (hline : stream.drop s.bufpos = l) (hl : LF ∉ l)
    (hp : p ≠ LF) (hsteps : l.length < steps) :
    Runs J E (stream.length + 1) (readlineLoop off steps p) s fun len s' =>
      len = (if s.ending = .eof then (stream.length : Int) - off else -1) ∧
        stream.length < LIMIT ∧ Advanced J stream lo stream.length s s' := by
  obtain ⟨steps, rfl⟩ : ∃ k, steps = k + 1 := ⟨steps - 1, by omega⟩
  induction l generalizing s steps p with
  | nil =>
    have hend : s.bufpos = stream.length := by
      have hle := List.drop_eq_nil_iff.mp hline
      have hpos := h.bufpos_le
      have hbound := h.received_le
      omega
    rw [readlineLoop, if_neg hp]
    refine (readbyte_end h hJ hend).bind (by omega) fun r s' ⟨hrc, hlimit, hadv⟩ => ?_
    rw [hend] at hadv
    obtain ⟨rc, out⟩ := r
    dsimp only at hrc ⊢
    cases hending : s.ending with
    | eof =>
      rw [hending] at hrc
      rw [hrc, if_neg (by decide), if_pos rfl]
      refine Runs.after get_ok (Runs.ok (pure_ok _) ⟨?_, hlimit, hadv⟩)
      rw [hadv.bufpos]
    | error =>
      rw [hending] at hrc
      rw [hrc, if_pos (by decide)]
      exact Runs.ok (pure_ok _) ⟨rfl, hlimit, hadv⟩
  | cons c l ih =>
    obtain ⟨hlt, -, -⟩ := drop_bound hline
    refine readlineLoop_byte hJ h hline hp (by omega) fun s' hadv hdrop => ?_
    have hc : c ≠ LF := fun heq => hl (heq ▸ List.mem_cons_self)
    simp only [List.length_cons] at hsteps
    obtain ⟨steps, rfl⟩ : ∃ k, steps = k + 1 := ⟨steps - 1, by omega⟩
    have hrest := ih hadv.inv hdrop (fun hmem => hl (List.mem_cons_of_mem c hmem)) hc steps (by omega)
    rw [hadv.later.ending] at hrest
    exact hrest.mono (Nat.le_refl _) fun len s'' ⟨hval, hlimit, hadv'⟩ =>
      ⟨hval, hlimit, hadv.trans hadv'⟩

theorem Inv.unread (h : Inv J stream lo s) : unread s = stream.length - s.bufpos := by
  have hsum : (s.input.map fun c => c.bytes.length).sum =
      (Receiving.pending s).length := by
    rw [Receiving.pending, List.length_flatten, List.map_map]
    rfl
  have hpos := h.bufpos_le
  have hbound := h.received_le
  rw [Input.unread, h.buffered, hsum, h.pending, List.length_drop]
  omega

theorem readline_line {l rest : Bytes} (hJ : Steady J) (h : Inv J stream lo s)
    (hline : stream.drop s.bufpos = l ++ LF :: rest) (hl : LF ∉ l) :
    Runs J E (s.bufpos + l.length + 1) bufioReadline s fun r s' =>
      r = (((l.length + 1 : Nat) : Int), s.bufpos) ∧
        Advanced J stream lo (s.bufpos + l.length + 1) s s' := by
  have hlength := congrArg List.length hline
  simp only [List.length_drop, List.length_append, List.length_cons] at hlength
  refine Runs.after get_ok ?_
  refine (readlineLoop_line s.bufpos hJ h hline hl (by decide) ?_).bind (Nat.le_refl _) ?_
  · rw [h.unread]
    omega
  · intro len s' ⟨hlen, hadv⟩
    refine Runs.ok (pure_ok _) ⟨?_, hadv⟩
    rw [hlen]
    congr 1
    omega

/-- `bufio_readline` returns what is left of the stream, if it has no end of line. -/
theorem readline_end {l : Bytes} (hJ : Steady J) (h : Inv J stream lo s)
    (hline : stream.drop s.bufpos = l) (hl : LF ∉ l) :
    Runs J E (stream.length + 1) bufioReadline s fun r s' =>
      r = (if s.ending = .eof then (l.length : Int) else -1, s.bufpos) ∧
        stream.length < LIMIT ∧ Advanced J stream lo stream.length s s' := by
  have hlength := congrArg List.length hline
  simp only [List.length_drop] at hlength
  have hpos := h.bufpos_le
  have hbound := h.received_le
  refine Runs.after get_ok ?_
  refine (readlineLoop_end s.bufpos hJ h hline hl (by decide) ?_).bind (Nat.le_refl _) ?_
  · rw [h.unread]
    omega
  · intro len s' ⟨hlen, hlimit, hadv⟩
    refine Runs.ok (pure_ok _) ⟨?_, hlimit, hadv⟩
    rw [hlen]
    congr 1
    split
    · omega
    · rfl

/-- The loop of `bufio_read` receives what it needs, or comes to the end of the stream. -/
theorem readLoop_runs {count steps : Nat} (hJ : Steady J) (h : Inv J stream lo s)
    (hsteps : s.input.length + 1 < steps) :
    Runs J E (min (s.bufpos + count) (stream.length + 1)) (readLoop count steps) s fun rc s' =>
      Advanced J stream lo s.bufpos s s' ∧
        (rc = 0 ∧ s.bufpos + count ≤ received s' ∨
          rc = s.ending.rc ∧ received s' = stream.length ∧ stream.length < LIMIT ∧
            stream.length < s.bufpos + count) := by
  obtain ⟨steps, rfl⟩ : ∃ k, steps = k + 1 := ⟨steps - 1, by omega⟩
  induction steps generalizing s with
  | zero => omega
  | succ steps ih =>
    have hbuffered := h.buffered
    have hpos := h.bufpos_le
    have hbound := h.received_le
    rw [readLoop]
    refine Runs.after get_ok ?_
    by_cases hneeds : bytesBuffered s < count
    · rw [if_pos hneeds]
      rcases Nat.lt_or_ge (received s) LIMIT with hlt | hge
      · obtain ⟨rc, s', hok, hinv, hlater, hbufpos, hcases⟩ := readMore_ok h hJ hlt
        have hadv : Advanced J stream lo s.bufpos s s' := ⟨hinv, hlater, hbufpos⟩
        refine Runs.after hok ?_
        rcases hcases with ⟨hrc, hend, hsame, -⟩ | ⟨c, input, hinput, hinput', hrc, hmore⟩
        · have hle : rc ≤ 0 := by
            rw [hrc]
            cases s.ending <;> decide
          rw [if_pos hle]
          exact Runs.ok (pure_ok _) ⟨hadv, Or.inr ⟨hrc, by omega, by omega, by omega⟩⟩
        · have hnonempty := List.length_pos_iff.mpr c.nonempty
          rw [if_neg (by omega)]
          have hrest := ih hinv (by
            rw [hinput, List.length_cons] at hsteps
            rw [hinput']
            omega)
          rw [hbufpos, hlater.ending] at hrest
          exact hrest.mono (Nat.le_refl _) fun rc' s'' ⟨hadv', hr⟩ => ⟨hadv.trans hadv', hr⟩
      · exact Or.inl ⟨bind_error (readMore_exit h hge), received s, s.input, h.delivery, hge,
          by omega⟩
    · rw [if_neg hneeds]
      refine Runs.ok (pure_ok _) ⟨⟨h, Later.refl, rfl⟩, Or.inl ⟨rfl, by omega⟩⟩

/-- `bufio_read` returns the next bytes of the stream, or less than asked for. -/
theorem read_runs (count : Nat) (hJ : Steady J) (h : Inv J stream lo s) :
    Runs J E (min (s.bufpos + count) (stream.length + 1)) (bufioRead count) s fun r s' =>
      r.2 = s.bufpos ∧
        (r.1 = count ∧ s.bufpos + count ≤ stream.length ∧
            Advanced J stream lo (s.bufpos + count) s s' ∨
          r.1 ≠ count ∧ stream.length < LIMIT ∧ stream.length < s.bufpos + count) := by
  refine Runs.after get_ok (Runs.after get_ok ?_)
  refine (readLoop_runs hJ h (by omega)).bind (Nat.le_refl _) fun rc s' ⟨hadv, hcases⟩ => ?_
  have hbuffered := hadv.inv.buffered
  have hpos := hadv.bufpos
  have hbound := hadv.inv.received_le
  have hbehind := hadv.inv.bufpos_le
  have hfits := hadv.inv.fits
  have hsmall := hadv.inv.capacity.small
  rcases hcases with ⟨hrc, hmore⟩ | ⟨hrc, hend, hlimit, hshort⟩
  · rw [if_neg (by omega)]
    refine Runs.after get_ok (Runs.after set_ok (Runs.ok (pure_ok _) ⟨rfl, Or.inl ?_⟩))
    have hmin : min (int (bytesBuffered s')) (int count) = count := by
      rw [int_eq (by omega), int_eq (by omega)]
      omega
    have hplace : (((s.bufpos : Int) + count) % 2 ^ 64).toNat = s.bufpos + count := by omega
    have hlo := h.lo_le
    rw [hmin, hpos, hplace]
    exact ⟨rfl, by omega, hadv.trans (hadv.inv.skip (by omega) hmore)⟩
  · by_cases hnegative : rc < 0
    · rw [if_pos hnegative]
      exact Runs.ok (pure_ok _) ⟨rfl, Or.inr ⟨by show rc ≠ count; omega, hlimit, hshort⟩⟩
    · rw [if_neg hnegative]
      have hless : min (int (bytesBuffered s')) (int count) ≠ count := by
        have hfew : bytesBuffered s' < count := by omega
        have hsame : int (bytesBuffered s') = bytesBuffered s' := int_eq ⟨by omega, by omega⟩
        have hle := Int.min_le_left (int (bytesBuffered s')) (int count)
        rw [hsame] at hle
        rw [hsame]
        exact Int.ne_of_lt (Int.lt_of_le_of_lt hle hfew)
      exact Runs.after get_ok (Runs.after set_ok
        (Runs.ok (pure_ok _) ⟨rfl, Or.inr ⟨hless, hlimit, hshort⟩⟩))

end Reads

section Tight

/-- Every byte has been read as soon as it came, and they come one by one. -/
def Tight (s : Bufio) : Prop :=
  received s = s.bufpos ∧ ∀ c ∈ s.input, c.bytes.length = 1

theorem readbyte_tight {r : Int × UInt8} (hJ : Steady J) (h : Inv J stream lo s) (ht : Tight s)
    (hok : bufioReadbyte s = .ok (r, s')) : Tight s' ∧ Inv J stream lo s' := by
  have hempty : bytesBuffered s = 0 := by
    rw [h.buffered, ht.1]
    omega
  rw [bufioReadbyte, bind_ok get_ok, if_pos hempty] at hok
  rcases Nat.lt_or_ge (received s) LIMIT with hlt | hge
  · obtain ⟨rc, s₁, hmore, hinv, -, hbufpos, hcases⟩ := readMore_ok h hJ hlt
    rw [bind_ok hmore] at hok
    dsimp only at hok
    rcases hcases with ⟨hrc, -, hsame, hinput⟩ | ⟨c, input, hinput, hinput', hrc, hreceived⟩
    · have hle : rc ≤ 0 := by
        rw [hrc]
        cases s.ending <;> decide
      rw [if_pos hle] at hok
      cases hok
      exact ⟨⟨by rw [hsame, hbufpos, ht.1], by rw [hinput]; exact ht.2⟩, hinv⟩
    · have hc : c.bytes.length = 1 := ht.2 c (by rw [hinput]; exact List.mem_cons_self)
      have hone := ht.1
      have hlo := h.lo_le
      obtain ⟨out, -, hnext⟩ := nextByte_ok hinv (by omega)
      rw [if_neg (by omega), bind_ok hnext] at hok
      cases hok
      refine ⟨⟨?_, fun d hd => ht.2 d ?_⟩, (hinv.skip (by omega) (by omega)).inv⟩
      · show received s₁ = s₁.bufpos + 1
        omega
      · rw [hinput]
        exact List.mem_cons_of_mem c (hinput' ▸ hd)
  · rw [bind_error (readMore_exit h hge)] at hok
    cases hok

theorem readlineLoop_tight {off steps : Nat} {p : UInt8} {len : Int} (hJ : Steady J)
    (h : Inv J stream lo s) (ht : Tight s) (hok : readlineLoop off steps p s = .ok (len, s')) :
    Tight s' := by
  induction steps generalizing s p with
  | zero => cases hok
  | succ steps ih =>
    rw [readlineLoop] at hok
    split at hok
    · cases hok
      exact ht
    · obtain ⟨⟨rc, out⟩, s₁, hbyte, hrest⟩ := bind_inv hok
      obtain ⟨ht₁, h₁⟩ := readbyte_tight hJ h ht hbyte
      dsimp only at hrest
      split at hrest
      · cases hrest
        exact ht₁
      · split at hrest
        · cases hrest
          exact ht₁
        · exact ih h₁ ht₁ hrest

theorem readline_tight {r : Int × Nat} (hJ : Steady J) (h : Inv J stream lo s) (ht : Tight s)
    (hok : bufioReadline s = .ok (r, s')) : Tight s' := by
  rw [bufioReadline, bind_ok get_ok] at hok
  obtain ⟨len, s₁, hloop, hrest⟩ := bind_inv hok
  cases hrest
  exact readlineLoop_tight hJ h ht hloop

end Tight

end ComputerSystems.Pserv.Receiving
