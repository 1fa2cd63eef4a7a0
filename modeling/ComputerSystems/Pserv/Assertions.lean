/- No input makes an assertion on an offset into the buffer fail. -/

import ComputerSystems.Pserv.Framing
import ComputerSystems.Pserv.Reading
import Mathlib.Logic.Relation

set_option autoImplicit false
set_option relaxedAutoImplicit false

namespace ComputerSystems.Pserv.Assertions

open ComputerSystems.Memory.CStrings
open ComputerSystems.Systems.Computations
open ComputerSystems.Pserv.Strings
open ComputerSystems.Pserv.Buffers
open ComputerSystems.Pserv.Input
open ComputerSystems.Pserv.Receiving (received pending)
open ComputerSystems.Pserv.Reading
open ComputerSystems.Pserv.Requests
open ComputerSystems.Pserv.Parsing
open ComputerSystems.Pserv.Boundaries (streamOf)
open ComputerSystems.Pserv.Responses
open ComputerSystems.Pserv.Transactions

/-- The position is inside of what has been received, and the lengths are small. -/
structure Balanced (s : Bufio) : Prop where
  len : s.buf.len = received s
  bufpos_le : s.bufpos ≤ received s
  total : received s + (pending s).length < 2 ^ 29

abbrev Sure {α : Type} (x : Io α) (s : Bufio) (Q : α → Bufio → Prop) : Prop :=
  Ends .assertion x s Q

section Buffers

variable {b b' : Buffer} {n p : Int} {l mem key value text : Bytes} {size : Nat}

theorem ensureCapacity_sure : bufferEnsureCapacity b n ≠ .error .assertion := by
  rw [bufferEnsureCapacity]
  dsimp only
  split
  · split
    · exact error_ne (by decide)
    · exact ok_ne
  · exact ok_ne

theorem store_sure {c : UInt8} : b.store p c ≠ .error .assertion := by
  rw [Buffer.store]
  split
  · exact ok_ne
  · exact error_ne (by decide)

theorem storeAll_sure : b.storeAll p l ≠ .error .assertion := by
  induction l generalizing b p with
  | nil => exact ok_ne
  | cons c l ih => exact except_bind_ne store_sure fun b' _ => ih

theorem bufferAppend_sure : bufferAppend b mem ≠ .error .assertion :=
  except_bind_ne ensureCapacity_sure fun _ _ => except_bind_ne storeAll_sure fun _ _ => ok_ne

theorem bufferPrint_sure : bufferPrint b size text ≠ .error .assertion := by
  refine except_bind_ne ensureCapacity_sure fun b₁ _ => ?_
  split
  · exact error_ne (by decide)
  · exact except_bind_ne storeAll_sure fun _ _ => ok_ne

theorem httpAddHeader_sure : httpAddHeader b key value ≠ .error .assertion :=
  except_bind_ne bufferAppend_sure fun _ _ => except_bind_ne bufferAppend_sure fun _ _ =>
    except_bind_ne bufferPrint_sure fun _ _ => bufferAppend_sure

theorem startResponse_sure {fresh : Nat → UInt8} {ta : Transaction} {status : Option ResponseStatus} :
    startResponse fresh ta status ≠ .error .assertion :=
  except_bind_ne bufferAppend_sure fun _ _ => except_bind_ne bufferAppend_sure fun _ _ =>
    bufferAppend_sure

end Buffers

section Reads

variable {s s' s'' : Bufio}

theorem Balanced.buffered (h : Balanced s) : bytesBuffered s = (received s - s.bufpos : Nat) := by
  have hpos := h.bufpos_le
  have htotal := h.total
  rw [bytesBuffered, h.len, Int.bmod_def]
  omega

theorem balanced_grown {rc : Int} (h : Balanced s) (hok : readMore s = .ok (rc, s')) :
    Balanced s' ∧ s.buf.len ≤ s'.buf.len ∧ (0 < rc → s.buf.len < s'.buf.len) := by
  have hlen := h.len
  have hpos := h.bufpos_le
  have htotal := h.total
  obtain ⟨cap, -, ⟨hinput, rfl, rfl⟩ | ⟨c, input, hinput, rfl, -, rfl⟩⟩ := readMore_inv (by omega) hok
  · exact ⟨⟨hlen, hpos, htotal⟩, Int.le_refl _, fun hrc => absurd hrc (ending_nonpos _)⟩
  · have hnonempty := List.length_pos_iff.mpr c.nonempty
    have hpending : (pending s).length = c.bytes.length +
        ((input.map Chunk.bytes).flatten).length := by
      rw [pending, hinput, List.map_cons, List.flatten_cons, List.length_append]
    have hsum : int (s.buf.len + c.bytes.length) = (received s + c.bytes.length : Nat) := by
      rw [hlen, int_eq ⟨by omega, by omega⟩]
      exact (Int.natCast_add _ _).symm
    rw [hsum]
    refine ⟨⟨rfl, ?_, ?_⟩, ?_, fun _ => ?_⟩
    · show s.bufpos ≤ received s + c.bytes.length
      omega
    · show received s + c.bytes.length + ((input.map Chunk.bytes).flatten).length < 2 ^ 29
      omega
    · show s.buf.len ≤ (received s + c.bytes.length : Nat)
      omega
    · show s.buf.len < (received s + c.bytes.length : Nat)
      omega

theorem readable_balanced : Readable Balanced where
  bufpos_le h := h.len ▸ Int.ofNat_le.mpr h.bufpos_le
  len h := by
    have hlen := h.len
    have htotal := h.total
    omega
  grown := balanced_grown
  taken {s} h hpos := by
    have hlen := h.len
    have hnext : s.bufpos + 1 ≤ received s := by omega
    exact ⟨hlen, hnext, h.total⟩

theorem readMore_stops : Sure readMore s fun _ _ => True := by
  refine Ends.after get_ok (Ends.lift_bind ensureCapacity_sure fun b _ => ?_)
  cases s.input with
  | nil => exact Ends.after set_ok (Ends.pure trivial)
  | cons c input =>
    exact Ends.lift_bind storeAll_sure fun _ _ => Ends.after set_ok (Ends.pure trivial)

theorem nextByte_stops : Sure nextByte s fun _ _ => True := by
  refine Ends.after get_ok ?_
  split
  · exact Ends.after set_ok (Ends.pure trivial)
  · exact Ends.stop rfl (by decide)

theorem readbyte_stops : Sure bufioReadbyte s fun _ _ => True := by
  have htake : ∀ {rc : Int} {s' : Bufio},
      Sure (if rc ≤ 0 then return (rc, 0) else do let out ← nextByte; return (1, out)) s'
        fun _ _ => True := by
    intro rc s'
    split
    · exact Ends.pure trivial
    · exact nextByte_stops.bind fun _ _ _ => Ends.pure trivial
  refine Ends.after get_ok ?_
  split
  · exact readMore_stops.bind fun _ _ _ => htake
  · exact Ends.after (pure_ok 1) htake

theorem readlineLoop_stops {off steps : Nat} {p : UInt8} :
    Sure (readlineLoop off steps p) s fun _ _ => True := by
  induction steps generalizing s p with
  | zero => exact Ends.stop rfl (by decide)
  | succ steps ih =>
    rw [readlineLoop]
    split
    · exact Ends.after get_ok (Ends.pure trivial)
    · refine readbyte_stops.bind ?_
      rintro ⟨rc, out⟩ s₁ -
      dsimp only
      split
      · exact Ends.pure trivial
      · split
        · exact Ends.after get_ok (Ends.pure trivial)
        · exact ih

theorem readMore_sure (h : Balanced s) : Sure readMore s fun rc s' =>
    Onward Balanced s s' ∧ s'.bufpos = s.bufpos ∧ (0 < rc → received s < received s') := by
  refine ⟨readMore_stops.1, fun rc s' hok => ?_⟩
  obtain ⟨hfetched, hrest⟩ := readMore_fetched readable_balanced h hok
  exact ⟨hfetched.toOnward, hrest⟩

theorem readlineLoop_sure {off steps : Nat} {p : UInt8} (h : Balanced s) (hoff : off ≤ s.bufpos) :
    Sure (readlineLoop off steps p) s fun len s' =>
      Onward Balanced s s' ∧ len ≤ (s'.bufpos : Int) - off := by
  refine ⟨readlineLoop_stops.1, fun len s' hok => ?_⟩
  obtain ⟨hfetched, hlen, -⟩ := readlineLoop_fetched readable_balanced h hok
  have hpos := hfetched.bufpos
  refine ⟨hfetched.toOnward, ?_⟩
  by_cases hread : 0 ≤ len
  · rw [hlen hread]
  · omega

theorem readline_sure (h : Balanced s) : Sure bufioReadline s fun r s' =>
    Onward Balanced s s' ∧ r.2 = s.bufpos ∧ r.1 ≤ (s'.bufpos : Int) - s.bufpos := by
  refine Ends.after get_ok ((readlineLoop_sure h (Nat.le_refl _)).bind ?_)
  rintro len s' ⟨honward, hlen⟩
  exact Ends.pure ⟨honward, rfl, hlen⟩

theorem readLoop_sure {count steps : Nat} (h : Balanced s) :
    Sure (readLoop count steps) s fun _ s' => Onward Balanced s s' ∧ s'.bufpos = s.bufpos := by
  induction steps generalizing s with
  | zero => exact Ends.stop rfl (by decide)
  | succ steps ih =>
    rw [readLoop]
    refine Ends.after get_ok ?_
    split
    · refine (readMore_sure h).bind ?_
      rintro rc s₁ ⟨honward, hbufpos, -⟩
      split
      · exact Ends.pure ⟨honward, hbufpos⟩
      · exact (ih honward.kept).mono fun rc' s₂ hs₂ =>
          ⟨honward.trans hs₂.1, hs₂.2.trans hbufpos⟩
    · exact Ends.pure ⟨Onward.refl h, rfl⟩

theorem read_sure {count : Nat} (h : Balanced s) (hcount : count < 2 ^ 31) :
    Sure (bufioRead count) s fun r s' =>
      Onward Balanced s s' ∧ r.2 = s.bufpos ∧ r.1 ≤ (s'.bufpos : Int) - s.bufpos := by
  refine Ends.after get_ok (Ends.after get_ok ((readLoop_sure h).bind ?_))
  rintro rc s₁ ⟨honward, hbufpos⟩
  have hbalanced := honward.kept
  have hpos := hbalanced.bufpos_le
  have htotal := hbalanced.total
  split
  · exact Ends.pure ⟨honward, rfl, by dsimp only; omega⟩
  · refine Ends.after get_ok (Ends.after set_ok (Ends.pure ?_))
    have hbuffered := hbalanced.buffered
    have hmin : ∃ n : Nat, min (int (bytesBuffered s₁)) (int count) = n ∧
        n ≤ received s₁ - s₁.bufpos := by
      rw [hbuffered, int_eq (z := (received s₁ - s₁.bufpos : Nat)) ⟨by omega, by omega⟩,
        int_eq (z := count) ⟨by omega, by omega⟩]
      exact ⟨min (received s₁ - s₁.bufpos) count, by omega, by omega⟩
    obtain ⟨n, hn, hle⟩ := hmin
    rw [hn]
    clear hn
    have hplace : (((s₁.bufpos : Int) + n) % 2 ^ 64).toNat = s₁.bufpos + n := by omega
    rw [hplace]
    refine ⟨⟨⟨hbalanced.len, ?_, htotal⟩, honward.received, ?_⟩, rfl, ?_⟩
    · show s₁.bufpos + n ≤ received s₁
      omega
    · show s.bufpos ≤ s₁.bufpos + n
      omega
    · show (n : Int) ≤ ((s₁.bufpos + n : Nat) : Int) - s.bufpos
      omega

end Reads

section Strings

variable {s s' s'' : Bufio} {p q : Nat} {delim : Bytes}

def Rewritten (s s' : Bufio) : Prop := s' = { s with buf := { s.buf with buf := s'.buf.buf } }

theorem Rewritten.onward (h : Rewritten s s') (hs : Balanced s) : Onward Balanced s s' := by
  have hreceived : received s' = received s := by
    rw [h]
    rfl
  have hpending : pending s' = pending s := by
    rw [h]
    rfl
  have hbufpos : s'.bufpos = s.bufpos := by
    rw [h]
  refine ⟨⟨?_, ?_, ?_⟩, Nat.le_of_eq hreceived.symm, Nat.le_of_eq hbufpos.symm⟩
  · rw [hreceived, h]
    exact hs.len
  · rw [hreceived, hbufpos]
    exact hs.bufpos_le
  · rw [hreceived, hpending]
    exact hs.total

theorem offset_sure {offset : Nat} (h : Balanced s) (hlt : offset < received s) :
    bufioOffset2ptr offset s = .ok (offset, s) :=
  bufioOffset2ptr_ok (by rw [h.len]; exact Int.ofNat_lt.mpr hlt)

theorem inBuffer_sure {α : Type} {x : Option α} {Q : α → Bufio → Prop} (h : ∀ a, x = some a → Q a s) :
    Sure (inBuffer x) s Q := by
  cases x with
  | none => exact Ends.stop rfl (show Stop.outOfBounds ≠ .assertion by decide)
  | some a => exact Ends.ok rfl (h a rfl)

theorem strtokR_sure : Sure (strtokR delim p) s fun _ s' => Rewritten s s' := by
  refine Ends.after get_ok ((inBuffer_sure (Q := fun _ s' => s' = s) fun _ _ => rfl).bind ?_)
  rintro ⟨token, endptr, b⟩ s₁ rfl
  exact Ends.after set_ok (Ends.pure rfl)

theorem stringAt_sure : Sure (stringAt p) s fun _ s' => s' = s :=
  Ends.after get_ok (inBuffer_sure fun _ _ => rfl)

theorem skipBlanks_sure : Sure (skipBlanks p) s fun _ s' => s' = s :=
  Ends.after get_ok (inBuffer_sure fun _ _ => rfl)

theorem signedInt_lt (negative : Bool) (n : Nat) : signedInt negative n < 2 ^ 31 := by
  rw [signedInt, Int.bmod_def]
  omega

theorem atoi_sure : Sure (atoi p) s fun z s' => z < 2 ^ 31 ∧ s' = s := by
  refine Ends.after get_ok (inBuffer_sure fun z hz => ⟨?_, rfl⟩)
  simp only [Storage.atoi, Option.bind_eq_bind, Option.bind_eq_some_iff] at hz
  obtain ⟨_, _, _, _, hz⟩ := hz
  cases hz
  exact signedInt_lt _ _

theorem putNul_sure {z : Int} : Sure (putNul z) s fun _ s' =>
    Rewritten s s' ∧ ∃ q : Nat, z = q ∧ q < s'.buf.storage.size ∧ s'.buf.buf q = NUL := by
  rw [putNul]
  refine Ends.after get_ok (Ends.lift_bind store_sure fun b hb => Ends.ok set_ok ?_)
  rw [Buffer.store] at hb
  split at hb
  · rename_i hinside
    cases hb
    refine ⟨rfl, z.toNat, by omega, ?_, Function.update_self ..⟩
    show z.toNat < s.buf.cap.toNat
    omega
  · cases hb

end Strings

section Requests

variable {s s' : Bufio} {ta : Transaction} {p : Nat}

theorem Patched.rewritten {q : Nat} (h : Patched p q s s') : Rewritten s s' := h.rest

theorem parseRequestLine_sure {q : Nat} (h : Balanced s) (hpq : p ≤ q) (hq : q < received s)
    (hsize : q < s.buf.storage.size) (hnul : s.buf.buf q = NUL) :
    Sure (parseRequestLine ta p) s fun r s' => Onward Balanced s s' ∧
      ∀ ta' ∈ r, ta'.reqPath < received s' ∧ ta'.reqBody = ta.reqBody ∧
        ta'.reqContentLen = ta.reqContentLen := by
  have hlen := h.len
  obtain ⟨text, after, hholds, htext, hle⟩ := Storage.exists_text (b := s.buf.storage) hnul hpq hsize
  obtain ⟨s', hpatched, hparse⟩ := parseRequestLine_spec ta hholds htext (by omega)
  have honward := (Patched.rewritten hpatched).onward h
  cases hline : requestLine text with
  | none =>
    rw [hline] at hparse
    exact Ends.ok hparse ⟨honward, fun ta' hta' => absurd hta' (Option.not_mem_none ta')⟩
  | some r =>
    rw [hline] at hparse
    obtain ⟨offset, hok, -, -, hbound, -⟩ := hparse
    refine Ends.ok hok ⟨honward, ?_⟩
    rintro ta' ⟨⟩
    have hreceived := honward.received
    exact ⟨by show offset < received s'; omega, rfl, rfl⟩

theorem parseRequest_sure (h : Balanced s) : Sure (httpParseRequest ta) s fun r s' => Onward Balanced s s' ∧
    ∀ ta' ∈ r, ta'.reqPath < received s' ∧ ta'.reqBody = ta.reqBody ∧
      ta'.reqContentLen = ta.reqContentLen := by
  refine (readline_sure h).bind ?_
  rintro ⟨len, offset⟩ s₁ ⟨honward, rfl, hlen⟩
  have hpos := honward.kept.bufpos_le
  dsimp only at hlen ⊢
  split
  · exact Ends.pure ⟨honward, fun ta' hta' => absurd hta' (Option.not_mem_none ta')⟩
  · rename_i hlong
    refine Ends.after (offset_sure honward.kept (by omega)) (putNul_sure.bind ?_)
    rintro _ s₂ ⟨hwritten, q, hq, hsize, hnul⟩
    have honward₂ := hwritten.onward honward.kept
    have hreceived := honward₂.received
    refine (parseRequestLine_sure honward₂.kept (by omega) (by omega) hsize hnul).mono ?_
    rintro r s₃ ⟨honward₃, hr⟩
    exact ⟨(honward.trans honward₂).trans honward₃, hr⟩

theorem processHeader_sure (h : Balanced s) (hta : ta.reqContentLen < 2 ^ 31) :
    Sure (processHeader ta p) s fun r s' => Onward Balanced s s' ∧
      ∀ ta' ∈ r, ta'.reqPath = ta.reqPath ∧ ta'.reqBody = ta.reqBody ∧
        ta'.reqContentLen < 2 ^ 31 := by
  refine strtokR_sure.bind ?_
  rintro ⟨fieldName, endptr⟩ s₁ hwritten
  have honward := hwritten.onward h
  cases fieldName with
  | none => exact Ends.pure ⟨honward, fun ta' hta' => absurd hta' (Option.not_mem_none ta')⟩
  | some fieldName =>
    refine skipBlanks_sure.bind ?_
    rintro fieldValue _ rfl
    refine stringAt_sure.bind ?_
    rintro name _ rfl
    split
    · refine atoi_sure.bind ?_
      rintro z _ ⟨hz, rfl⟩
      refine Ends.pure ⟨honward, ?_⟩
      rintro ta' ⟨⟩
      exact ⟨rfl, rfl, hz⟩
    · refine Ends.pure ⟨honward, ?_⟩
      rintro ta' ⟨⟩
      exact ⟨rfl, rfl, hta⟩

theorem headersLoop_sure {steps : Nat} (h : Balanced s) (hta : ta.reqContentLen < 2 ^ 31) :
    Sure (headersLoop steps ta) s fun r s' => Onward Balanced s s' ∧
      ∀ ta' ∈ r, ta'.reqPath = ta.reqPath ∧ ta'.reqBody = ta.reqBody ∧
        ta'.reqContentLen < 2 ^ 31 := by
  induction steps generalizing s ta with
  | zero => exact Ends.stop rfl (by decide)
  | succ steps ih =>
    refine (readline_sure h).bind ?_
    rintro ⟨len, offset⟩ s₁ ⟨honward, rfl, hlen⟩
    have hpos := honward.kept.bufpos_le
    dsimp only at hlen ⊢
    rw [headerTurn]
    split
    · exact Ends.pure ⟨honward, fun ta' hta' => absurd hta' (Option.not_mem_none ta')⟩
    · rename_i hsome
      refine Ends.after (offset_sure honward.kept (by omega)) ?_
      refine Ends.after Outcomes.startsCrlf_ok ?_
      split
      · refine Ends.pure ⟨honward, ?_⟩
        rintro ta' ⟨⟩
        exact ⟨rfl, rfl, hta⟩
      · refine putNul_sure.bind ?_
        rintro _ s₂ ⟨hwritten, -⟩
        have honward₂ := honward.trans (hwritten.onward honward.kept)
        refine (processHeader_sure honward₂.kept hta).bind ?_
        rintro r s₃ ⟨honward₃, hr⟩
        have honward₃ := honward₂.trans honward₃
        cases r with
        | none => exact Ends.pure ⟨honward₃, fun ta' hta' => absurd hta' (Option.not_mem_none ta')⟩
        | some ta₁ =>
          obtain ⟨hpath, hbody, hsmall⟩ := hr ta₁ rfl
          refine (ih honward₃.kept hsmall).mono ?_
          rintro r s₄ ⟨honward₄, hr⟩
          refine ⟨honward₃.trans honward₄, fun ta' hta' => ?_⟩
          obtain ⟨hpath', hbody', hsmall'⟩ := hr ta' hta'
          exact ⟨hpath'.trans hpath, hbody'.trans hbody, hsmall'⟩

theorem readRequest_sure (h : Balanced s) : Sure readRequest s fun r s' => Onward Balanced s s' ∧
    ∀ ta ∈ r, ta.reqPath < received s' ∧ ta.reqBody < received s' := by
  refine (parseRequest_sure h).bind ?_
  rintro r s₁ ⟨honward₁, hr⟩
  cases r with
  | none => exact Ends.pure ⟨honward₁, fun ta hta => absurd hta (Option.not_mem_none ta)⟩
  | some ta₁ =>
    obtain ⟨hpath₁, hbody₁, hlength₁⟩ := hr ta₁ rfl
    have hheaders : Sure (httpProcessHeaders ta₁) s₁ fun r s' => Onward Balanced s₁ s' ∧
        ∀ ta' ∈ r, ta'.reqPath = ta₁.reqPath ∧ ta'.reqBody = ta₁.reqBody ∧
          ta'.reqContentLen < 2 ^ 31 := by
      refine Ends.after get_ok (headersLoop_sure honward₁.kept ?_)
      rw [hlength₁]
      decide
    refine hheaders.bind ?_
    rintro r s₂ ⟨honward₂, hr⟩
    have honward := honward₁.trans honward₂
    cases r with
    | none => exact Ends.pure ⟨honward, fun ta hta => absurd hta (Option.not_mem_none ta)⟩
    | some ta₂ =>
      obtain ⟨hpath₂, hbody₂, hlength₂⟩ := hr ta₂ rfl
      have hreceived₂ := honward₂.received
      have hbody : ta₂.reqBody = 0 := hbody₂.trans hbody₁
      show Sure (readBody ta₂) s₂ _
      rw [readBody]
      split
      · rename_i hpositive
        refine (read_sure honward₂.kept (by omega)).bind ?_
        rintro ⟨rc, offset⟩ s₃ ⟨honward₃, rfl, hrc⟩
        have hpos₃ := honward₃.kept.bufpos_le
        have hreceived₃ := honward₃.received
        have honward' := honward.trans honward₃
        dsimp only at hrc ⊢
        split
        · exact Ends.pure ⟨honward', fun ta hta => absurd hta (Option.not_mem_none ta)⟩
        · refine Ends.after (offset_sure honward₃.kept (by omega)) (Ends.pure ⟨honward', ?_⟩)
          rintro ta ⟨⟩
          exact ⟨by show ta₂.reqPath < received s₃; omega, by show s₂.bufpos < received s₃; omega⟩
      · refine Ends.pure ⟨honward, ?_⟩
        rintro ta ⟨⟩
        omega

end Requests

section Handlers

variable {env : Environment} {ta : Transaction} {fresh : Nat → UInt8} {bufio : Bufio} {st : Sending}
  {key value reqPath : Bytes}

abbrev Quiet {α : Type} (x : Send α) : Prop := ∀ st, Ends .assertion x st fun _ _ => True

theorem Quiet.bind {α β : Type} {x : Send α} {f : α → Send β} (h : Quiet x) (hf : ∀ a, Quiet (f a)) :
    Quiet (x >>= f) :=
  fun st => (h st).bind fun a st' _ => hf a st'

theorem quiet_pure {α : Type} (a : α) : Quiet (pure a) := fun _ => Ends.pure trivial

theorem addHeader_quiet : Quiet (addHeader key value) := fun _ =>
  Ends.after get_ok (Ends.lift_bind httpAddHeader_sure fun _ _ => Ends.ok set_ok trivial)

theorem endHeaders_quiet : Quiet endHeaders := fun _ =>
  Ends.after get_ok (Ends.lift_bind bufferAppend_sure fun _ _ => Ends.ok set_ok trivial)

theorem appendBody_quiet : Quiet (appendBody value) := fun _ =>
  Ends.after get_ok (Ends.lift_bind bufferAppend_sure fun _ _ => Ends.ok set_ok trivial)

theorem setStatus_quiet {status : ResponseStatus} : Quiet (setStatus status) :=
  fun _ => Ends.ok rfl trivial

theorem bufioSendbuffers_quiet {resp : List Buffer} : Quiet (bufioSendbuffers resp) :=
  fun _ => Ends.ok rfl trivial

theorem sendResponseHeader_quiet : Quiet (sendResponseHeader fresh ta) := fun st =>
  Ends.after get_ok (Ends.lift_bind startResponse_sure fun _ _ =>
    endHeaders_quiet.bind (fun _ st' => Ends.after get_ok
      (bufioSendbuffers_quiet.bind (fun _ => quiet_pure _) st')) st)

theorem sendResponse_quiet : Quiet (sendResponse fresh ta) := by
  intro st
  refine Ends.after get_ok (addHeader_quiet.bind (fun _ => endHeaders_quiet.bind fun _ st₁ => ?_) st)
  refine Ends.after get_ok (Ends.lift_bind startResponse_sure fun response _ => ?_)
  exact Ends.after get_ok (bufioSendbuffers_quiet.bind (fun _ => quiet_pure _) st₁)

theorem sendError_quiet {status : ResponseStatus} : Quiet (sendError fresh ta status value) := by
  intro st
  refine Ends.after get_ok (Ends.lift_bind bufferPrint_sure fun b _ => Ends.after set_ok ?_)
  exact setStatus_quiet.bind (fun _ => addHeader_quiet.bind fun _ => sendResponse_quiet) _

theorem offset_quiet {offset : Nat} (h : Balanced bufio) (hlt : offset < received bufio) :
    Quiet (liftM (bufioOffset2ptr offset bufio) : Send (Nat × Bufio)) := by
  rw [offset_sure h hlt]
  exact fun _ => Ends.lift ok_ne fun _ _ => trivial

theorem sendNotFound_quiet (h : Balanced bufio) (hpath : ta.reqPath < received bufio) :
    Quiet (Responses.sendNotFound fresh ta reqPath bufio) :=
  (offset_quiet h hpath).bind fun _ => sendError_quiet

theorem sendToken_quiet : Quiet (sendToken env ta) := by
  rw [sendToken]
  split
  · exact sendError_quiet
  · split
    · exact sendError_quiet
    · split
      · exact sendError_quiet
      · exact setStatus_quiet.bind fun _ => addHeader_quiet.bind fun _ => addHeader_quiet.bind fun _ =>
          appendBody_quiet.bind fun _ => sendResponse_quiet

theorem login_quiet (h : Balanced bufio) (hbody : ta.reqBody < received bufio) :
    Quiet (login env ta bufio) := by
  rw [login]
  split
  · refine (offset_quiet h hbody).bind ?_
    rintro ⟨body, _⟩
    dsimp only
    split
    · exact sendError_quiet
    · split
      · exact sendError_quiet
      · exact sendToken_quiet
  · exact setStatus_quiet.bind fun _ => appendBody_quiet.bind fun _ => sendResponse_quiet
  · exact sendError_quiet

theorem handleApi_quiet (h : Balanced bufio) (hbody : ta.reqBody < received bufio) :
    Quiet (handleApi env ta reqPath bufio) := by
  rw [handleApi]
  split
  · exact login_quiet h hbody
  · exact sendError_quiet

theorem handleStaticAsset_quiet (h : Balanced bufio) (hpath : ta.reqPath < received bufio) :
    Quiet (handleStaticAsset env ta reqPath bufio) := by
  rw [handleStaticAsset]
  split
  · exact fun _ => Ends.stop rfl (show Stop.noBaseDirectory ≠ .assertion by decide)
  · refine (offset_quiet h hpath).bind fun _ => ?_
    dsimp only
    split
    · exact sendNotFound_quiet h hpath
    · split
      · exact sendError_quiet
      · exact sendNotFound_quiet h hpath
      · refine addHeader_quiet.bind fun _ => ?_
        split
        · exact sendError_quiet
        · split
          · refine setStatus_quiet.bind fun _ => addHeader_quiet.bind fun _ =>
              addHeader_quiet.bind fun _ => sendResponseHeader_quiet.bind fun success => ?_
            split
            · exact fun _ => Ends.after get_ok (Ends.after set_ok (Ends.pure trivial))
            · exact quiet_pure false
          · exact sendNotFound_quiet h hpath

theorem respond_quiet (h : Balanced bufio) (hpath : ta.reqPath < received bufio)
    (hbody : ta.reqBody < received bufio) : Quiet (respond env ta reqPath bufio) := by
  refine addHeader_quiet.bind fun _ => Quiet.bind ?_ fun _ => quiet_pure _
  rw [handle]
  split
  · exact handleApi_quiet h hbody
  · exact quiet_pure false
  · exact handleStaticAsset_quiet h hpath

end Handlers

section Connections

variable {conn conn' : Connection} {input : List Chunk} {ending : Ending} {fresh : Nat → UInt8}
  {socket : Socket}

/-- A transaction on a connection, whatever it returns. -/
def Served (conn conn' : Connection) : Prop :=
  ∃ env rc, httpHandleTransaction env conn = .ok (rc, conn')

theorem transaction_sure (env : Environment) (h : Balanced conn.bufio) :
    Ends .assertion (httpHandleTransaction env) conn fun _ conn' => Balanced conn'.bufio := by
  obtain ⟨hread, hreads⟩ := readRequest_sure h
  refine Ends.after get_ok (Ends.lift_bind hread ?_)
  rintro ⟨request, bufio⟩ hok
  obtain ⟨honward, hrequest⟩ := hreads request bufio hok
  refine Ends.after set_ok ?_
  cases request with
  | none => exact Ends.pure honward.kept
  | some ta =>
    obtain ⟨hpath, hbody⟩ := hrequest ta rfl
    have hstring : Sure (do stringAt (← bufioOffset2ptr ta.reqPath)) bufio fun _ s' => s' = bufio :=
      Ends.after (offset_sure honward.kept hpath) stringAt_sure
    refine Ends.lift_bind hstring.1 ?_
    rintro ⟨reqPath, bufio'⟩ hok'
    obtain rfl := hstring.2 reqPath bufio' hok'
    have hquiet : Quiet (respond env ta reqPath bufio') := respond_quiet honward.kept hpath hbody
    have hrespond := hquiet ⟨initResponse env, conn.socket⟩
    exact Ends.lift_bind hrespond.1 fun sending _ => Ends.after set_ok (Ends.pure honward.kept)

theorem balanced_create (hshort : (streamOf input).length < 2 ^ 29) :
    Balanced (bufioCreate fresh input ending) :=
  ⟨rfl, Nat.le_refl 0, by show 0 + (streamOf input).length < 2 ^ 29; omega⟩

/-- After any number of transactions, no assertion on an offset fails in the next one. -/
theorem assertions_hold (hshort : (streamOf input).length < 2 ^ 29)
    (hserved : Relation.ReflTransGen Served ⟨bufioCreate fresh input ending, socket⟩ conn)
    (env : Environment) : httpHandleTransaction env conn ≠ .error .assertion := by
  have hbalanced : Balanced conn.bufio := by
    induction hserved with
    | refl => exact balanced_create hshort
    | tail _ hstep ih =>
      obtain ⟨env, rc, hrun⟩ := hstep
      exact (transaction_sure env ih).2 rc _ hrun
  exact (transaction_sure env hbalanced).1

/-- A first header line that is a LF alone, after a request that was served. -/
theorem assertions_hold_sample : ∃ conn,
    Relation.ReflTransGen Served ⟨bufioCreate (fun _ => 0) [⟨ascii "GET / HTTP/1.1\r\n\r\n",
      by decide, by decide⟩, ⟨ascii "GET / HTTP/1.1\r\n\n", by decide, by decide⟩] .eof, ⟨[.all], []⟩⟩ conn ∧
      httpHandleTransaction KeepAlive.site conn ≠ .error .assertion := by
  have hrun : (httpHandleTransaction KeepAlive.site
      ⟨bufioCreate (fun _ => 0) [⟨ascii "GET / HTTP/1.1\r\n\r\n", by decide, by decide⟩,
        ⟨ascii "GET / HTTP/1.1\r\n\n", by decide, by decide⟩] .eof, ⟨[.all], []⟩⟩).map Prod.fst =
      .ok true := by
    decide +kernel
  cases hresult : httpHandleTransaction KeepAlive.site
      ⟨bufioCreate (fun _ => 0) [⟨ascii "GET / HTTP/1.1\r\n\r\n", by decide, by decide⟩,
        ⟨ascii "GET / HTTP/1.1\r\n\n", by decide, by decide⟩] .eof, ⟨[.all], []⟩⟩ with
  | error e =>
    rw [hresult] at hrun
    cases hrun
  | ok r =>
    obtain ⟨rc, conn⟩ := r
    have hserved := Relation.ReflTransGen.single (r := Served) ⟨KeepAlive.site, rc, hresult⟩
    exact ⟨conn, hserved, assertions_hold (by decide) hserved KeepAlive.site⟩

end Connections

end ComputerSystems.Pserv.Assertions
