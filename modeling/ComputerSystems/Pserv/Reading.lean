/- What `read_more`, `bufio_readbyte` and `bufio_readline` keep of a buffer. -/

import ComputerSystems.Pserv.Receiving

set_option autoImplicit false
set_option relaxedAutoImplicit false

namespace ComputerSystems.Pserv.Reading

open ComputerSystems.Memory.CStrings
open ComputerSystems.Systems.Computations
open ComputerSystems.Pserv.Strings
open ComputerSystems.Pserv.Buffers
open ComputerSystems.Pserv.Input
open ComputerSystems.Pserv.Receiving (received pending)

/-- The buffer has been read on and keeps `I`. -/
structure Onward (I : Bufio → Prop) (s s' : Bufio) : Prop where
  kept : I s'
  received : received s ≤ received s'
  bufpos : s.bufpos ≤ s'.bufpos

/-- Nor have the bytes before the position changed. -/
structure Fetched (I : Bufio → Prop) (s s' : Bufio) : Prop extends Onward I s s' where
  before : ∀ i, i < s.bufpos → s'.buf.buf i = s.buf.buf i

/-- What an invariant must say for reads to keep it: the position is inside of what has been
received, and no length is too large for an `int`. -/
structure Readable (I : Bufio → Prop) : Prop where
  bufpos_le {s : Bufio} : I s → (s.bufpos : Int) ≤ s.buf.len
  len {s : Bufio} : I s → s.buf.len < 2 ^ 31
  grown {s s' : Bufio} {rc : Int} : I s → readMore s = .ok (rc, s') → I s' ∧ s.buf.len ≤ s'.buf.len ∧
    (0 < rc → s.buf.len < s'.buf.len)
  taken {s : Bufio} : I s → (s.bufpos : Int) < s.buf.len → I { s with bufpos := s.bufpos + 1 }

section Reads

variable {I : Bufio → Prop} {s s' s'' : Bufio} {rc : Int} {c : UInt8} {n off : Nat} {len : Int}

theorem Onward.refl (h : I s) : Onward I s s := ⟨h, Nat.le_refl _, Nat.le_refl _⟩

theorem Onward.trans (h : Onward I s s') (h' : Onward I s' s'') : Onward I s s'' :=
  ⟨h'.kept, Nat.le_trans h.received h'.received, Nat.le_trans h.bufpos h'.bufpos⟩

theorem Fetched.refl (h : I s) : Fetched I s s := ⟨Onward.refl h, fun _ _ => rfl⟩

theorem Fetched.trans (h : Fetched I s s') (h' : Fetched I s' s'') : Fetched I s s'' where
  toOnward := h.toOnward.trans h'.toOnward
  before i hi := (h'.before i (Nat.lt_of_lt_of_le hi h.bufpos)).trans (h.before i hi)

theorem ending_nonpos (e : Ending) : ¬ 0 < e.rc := by
  cases e <;> decide

/-- A receive comes to the end of the input, or puts a chunk behind what is in the buffer. -/
theorem readMore_inv (hlen : 0 ≤ s.buf.len) (hok : readMore s = .ok (rc, s')) :
    ∃ cap, (s.buf.cap < 2 ^ 31 → cap < 2 ^ 31) ∧
      (s.input = [] ∧ rc = s.ending.rc ∧ s' = { s with buf := { s.buf with cap := cap } } ∨
        ∃ c input, s.input = c :: input ∧ rc = c.bytes.length ∧
          s.buf.len + c.bytes.length ≤ cap ∧
            s' = { s with
              buf := ⟨overlay s.buf.buf s.buf.len.toNat c.bytes, int (s.buf.len + c.bytes.length), cap⟩
              input := input }) := by
  obtain ⟨b, hb, hok⟩ := lift_bind_inv (get_bind_inv hok)
  obtain ⟨cap, rfl, hcap⟩ := ensureCapacity_cap hb
  refine ⟨cap, hcap, ?_⟩
  cases hinput : s.input with
  | nil =>
    rw [hinput] at hok
    cases hok
    exact Or.inl ⟨rfl, rfl, rfl⟩
  | cons chunk input =>
    rw [hinput] at hok
    obtain ⟨b, hstore, hok⟩ := lift_bind_inv hok
    cases hok
    obtain ⟨rfl, hroom⟩ := storeAll_inv (show 0 ≤ s.buf.len from hlen) hstore
    exact Or.inr ⟨chunk, input, rfl, rfl, hroom.resolve_left chunk.nonempty, rfl⟩

theorem readMore_fetched (hI : Readable I) (h : I s) (hok : readMore s = .ok (rc, s')) :
    Fetched I s s' ∧ s'.bufpos = s.bufpos ∧ (0 < rc → received s < received s') := by
  have hpos := hI.bufpos_le h
  obtain ⟨hkept, hle, hlt⟩ := hI.grown h hok
  have hreceived : received s ≤ received s' := Int.toNat_le_toNat hle
  have hmore : 0 < rc → received s < received s' := by
    intro hrc
    have hlonger := hlt hrc
    rw [received, received]
    omega
  obtain ⟨cap, -, ⟨-, -, rfl⟩ | ⟨c, input, -, -, -, rfl⟩⟩ := readMore_inv (by omega) hok
  · exact ⟨⟨⟨hkept, hreceived, Nat.le_refl _⟩, fun _ _ => rfl⟩, rfl, hmore⟩
  · exact ⟨⟨⟨hkept, hreceived, Nat.le_refl _⟩, fun i hi => overlay_outside (Or.inl (by omega))⟩, rfl,
      hmore⟩

theorem nextByte_fetched (hI : Readable I) (h : I s) (hpos : (s.bufpos : Int) < s.buf.len)
    (hok : nextByte s = .ok (c, s')) :
    Fetched I s s' ∧ s'.bufpos = s.bufpos + 1 ∧ s'.buf.buf s.bufpos = c := by
  rw [nextByte, bind_ok get_ok] at hok
  split at hok
  · cases hok
    exact ⟨⟨⟨hI.taken h hpos, Nat.le_refl _, Nat.le_succ _⟩, fun _ _ => rfl⟩, rfl, rfl⟩
  · cases hok

theorem readbyte_fetched (hI : Readable I) (h : I s) (hok : bufioReadbyte s = .ok ((rc, c), s')) :
    Fetched I s s' ∧ (0 < rc → s'.bufpos = s.bufpos + 1 ∧ s'.buf.buf s.bufpos = c) ∧
      (rc ≤ 0 → s'.bufpos = s.bufpos) := by
  have hpos := hI.bufpos_le h
  have hsmall := hI.len h
  obtain ⟨rc₁, s₁, ⟨hfetched, hbufpos, hroom⟩, hok⟩ : ∃ rc₁ s₁,
      (Fetched I s s₁ ∧ s₁.bufpos = s.bufpos ∧ (0 < rc₁ → (s.bufpos : Int) < s₁.buf.len)) ∧
      (if rc₁ ≤ 0 then return (rc₁, 0)
        else do
          let out ← nextByte
          return (1, out) : Io (Int × UInt8)) s₁ = .ok ((rc, c), s') := by
    have hread := get_bind_inv hok
    split at hread
    · obtain ⟨rc₁, s₁, hmore, hread⟩ := bind_inv hread
      obtain ⟨hfetched, hbufpos, hreceived⟩ := readMore_fetched hI h hmore
      refine ⟨rc₁, s₁, ⟨hfetched, hbufpos, fun hrc => ?_⟩, hread⟩
      have hlonger := hreceived hrc
      rw [received, received] at hlonger
      omega
    · rename_i hbuffered
      rw [bytesBuffered, Int.bmod_def] at hbuffered
      exact ⟨1, s, ⟨Fetched.refl h, rfl, fun _ => by omega⟩, hread⟩
  by_cases hrc : rc₁ ≤ 0
  · rw [if_pos hrc] at hok
    cases hok
    exact ⟨hfetched, fun hpos => absurd hpos (by omega), fun _ => hbufpos⟩
  · rw [if_neg hrc] at hok
    obtain ⟨out, s₂, hnext, hok⟩ := bind_inv hok
    cases hok
    have hlt := hroom (by omega)
    obtain ⟨hfetched', hbufpos', hbyte⟩ := nextByte_fetched hI hfetched.kept (by omega) hnext
    rw [hbufpos] at hbufpos' hbyte
    exact ⟨hfetched.trans hfetched', fun _ => ⟨hbufpos', hbyte⟩, fun hle => absurd hle (by decide)⟩

/-- The loop of `bufio_readline` stops behind the first end of a line. -/
theorem readlineLoop_fetched (hI : Readable I) (h : I s) (hok : readlineLoop off n c s = .ok (len, s')) :
    Fetched I s s' ∧ (0 ≤ len → len = s'.bufpos - off) ∧ (c = LF → s'.bufpos = s.bufpos) ∧
      (c ≠ LF → ∀ i, s.bufpos ≤ i → i + 1 < s'.bufpos → s'.buf.buf i ≠ LF) := by
  induction n generalizing s c with
  | zero => cases hok
  | succ n ih =>
    rw [readlineLoop] at hok
    by_cases hc : c = LF
    · rw [if_pos hc] at hok
      cases hok
      exact ⟨Fetched.refl h, fun _ => rfl, fun _ => rfl, fun hne => absurd hc hne⟩
    · rw [if_neg hc] at hok
      obtain ⟨⟨rc, out⟩, s₁, hread, hok⟩ := bind_inv hok
      obtain ⟨hfetched, hbyte, hstay⟩ := readbyte_fetched hI h hread
      dsimp only at hok
      by_cases hneg : rc < 0
      · rw [if_pos hneg] at hok
        cases hok
        have hsame := hstay (by omega)
        exact ⟨hfetched, fun hle => absurd hle (by omega), fun heq => absurd heq hc,
          fun _ i hi hlt => absurd hlt (by omega)⟩
      · rw [if_neg hneg] at hok
        by_cases hzero : rc = 0
        · rw [if_pos hzero] at hok
          cases hok
          have hsame := hstay (by omega)
          exact ⟨hfetched, fun _ => rfl, fun heq => absurd heq hc,
            fun _ i hi hlt => absurd hlt (by omega)⟩
        · rw [if_neg hzero] at hok
          obtain ⟨hnext, hbyte⟩ := hbyte (by omega)
          obtain ⟨hfetched', hlen, hend, hline⟩ := ih hfetched.kept hok
          refine ⟨hfetched.trans hfetched', hlen, fun heq => absurd heq hc, fun _ i hi hlt => ?_⟩
          by_cases hout : out = LF
          · have hsame := hend hout
            omega
          · rcases Nat.eq_or_lt_of_le hi with rfl | hafter
            · rw [hfetched'.before _ (by omega), hbyte]
              exact hout
            · exact hline hout i (by omega) hlt

end Reads

end ComputerSystems.Pserv.Reading
