/- Buffered reads give the stream piece by piece, wherever the buffer is truncated. -/

import ComputerSystems.Pserv.Boundaries
import ComputerSystems.Pserv.Growth

set_option autoImplicit false
set_option relaxedAutoImplicit false

namespace ComputerSystems.Pserv.Reads

open ComputerSystems.Memory.CStrings
open ComputerSystems.Systems.Computations
open ComputerSystems.Pserv.Strings
open ComputerSystems.Pserv.Buffers
open ComputerSystems.Pserv.Input
open ComputerSystems.Pserv.Receiving
open ComputerSystems.Pserv.Outcomes
open ComputerSystems.Pserv.Boundaries

/-- A call on the input; the new storage of a truncated buffer is as `malloc` finds it. -/
inductive Call where
  | readbyte
  | readline
  | read (count : Nat)
  | truncate (fresh : Nat → UInt8)

structure Reply where
  value : Int
  bytes : Bytes

/-- The bytes in the buffer at the offset and with the length that a read returns. -/
def taken (len : Int) (offset : Nat) : Io Reply := do
  let self ← get
  if (offset : Int) + len ≤ self.buf.len then
    return ⟨len, self.buf.storage.slice offset len.toNat⟩
  else throw .outOfBounds

def Call.run : Call → Io (List Reply)
  | .readbyte => do
    let (rc, out) ← bufioReadbyte
    return [⟨rc, if rc = 1 then [out] else []⟩]
  | .readline => do
    let (len, lineOffset) ← bufioReadline
    return [← taken len lineOffset]
  | .read count => do
    let (bytesRead, bufOffset) ← bufioRead count
    return [← taken bytesRead bufOffset]
  | .truncate fresh => do
    bufioTruncate fresh
    return []

def runAll : List Call → Io (List Reply)
  | [] => return []
  | c :: cs => do
    let replies ← c.run
    return replies ++ (← runAll cs)

/-- The reply to a read is what it should be, when this is left of the stream. -/
def Answers (rest : Bytes) : Call → Reply → Prop
  | .readbyte, r => rest = [] ∧ r = ⟨0, []⟩ ∨ ∃ c l, rest = c :: l ∧ r = ⟨1, [c]⟩
  | .readline, r => r.value = r.bytes.length ∧ r.bytes <+: rest ∧
      ((∃ l, r.bytes = l ++ [LF] ∧ LF ∉ l) ∨ LF ∉ rest ∧ r.bytes = rest)
  | .read count, r => r.value = (min count rest.length : Nat) ∧ r.bytes = rest.take count
  | .truncate _, _ => False

/-- The reads are answered one after the other with what comes next in the stream. -/
def Served : Bytes → List Call → List Reply → Prop
  | _, [], rs => rs = []
  | rest, .truncate _ :: cs, rs => Served rest cs rs
  | rest, c :: cs, rs =>
    ∃ r rs', rs = r :: rs' ∧ Answers rest c r ∧ Served (rest.drop r.bytes.length) cs rs'

def Call.isRead : Call → Bool
  | .truncate _ => false
  | _ => true

/-- The reads neither lose nor repeat bytes of the stream, and it makes no difference where the
buffer is truncated. -/
def Faithful (fresh : Nat → UInt8) (input : List Chunk) (cs : List Call) : Prop :=
  ∃ rs s', runAll cs (bufioCreate fresh input .eof) = .ok (rs, s') ∧
    Served (streamOf input) cs rs ∧ rs.flatMap Reply.bytes <+: streamOf input ∧
    ∀ cs', cs'.filter Call.isRead = cs.filter Call.isRead →
      ∃ s'', runAll cs' (bufioCreate fresh input .eof) = .ok (rs, s'')

def firstLine (rest : Bytes) : Bytes :=
  rest.takeWhile (· != LF) ++ (rest.dropWhile (· != LF)).take 1

def Call.consumes (rest : Bytes) : Call → Nat
  | .readbyte => 1
  | .readline => (firstLine rest).length
  | .read count => count
  | .truncate _ => 0

/-- A count is an `int`, or becomes one that is enough for what is left. -/
def Countable (rest : Bytes) (c : Call) : Prop :=
  match c with
  | .read count => count < 2 ^ 31 ∨ (rest.length : Int) ≤ int count
  | _ => True

/-- Every count in the sequence is, when it is asked for. -/
def Counted : Bytes → List Call → Prop
  | _, [] => True
  | rest, c :: cs => Countable rest c ∧ Counted (rest.drop (c.consumes rest)) cs

def Call.replies (rest : Bytes) : Call → List Reply
  | .readbyte => [⟨(rest.take 1).length, rest.take 1⟩]
  | .readline => [⟨(firstLine rest).length, firstLine rest⟩]
  | .read count => [⟨(rest.take count).length, rest.take count⟩]
  | .truncate _ => []

def repliesAll : Bytes → List Call → List Reply
  | _, [] => []
  | rest, c :: cs => c.replies rest ++ repliesAll (rest.drop (c.consumes rest)) cs

/-- The bytes that will be read next are `rest`. Before them in the buffer is what has been read
since it was truncated. -/
def Ahead (rest : Bytes) (s : Bufio) : Prop :=
  s.ending = .eof ∧ ∃ stream, Inv AnyChunks stream s.bufpos s ∧ stream.length < 2 ^ 29 ∧
    stream.drop s.bufpos = rest

section Calls

variable {stream rest : Bytes} {s s' : Bufio} {lo p n : Nat}

theorem Runs.done {α : Type} {x : Io α} {Q : α → Bufio → Prop}
    (h : Runs AnyChunks (fun _ => False) n x s Q) (hn : n ≤ LIMIT) :
    ∃ a s', x s = .ok (a, s') ∧ Q a s' := by
  rcases h with ⟨-, hlate⟩ | ⟨_, -, hfalse⟩ | hok
  · exact absurd hlate (not_late_of_le hn)
  · exact hfalse.elim
  · exact hok

theorem slice_received (h : Inv AnyChunks stream lo s) (hp : lo ≤ p) (hn : p + n ≤ received s) :
    s.buf.storage.slice p n = (stream.drop p).take n := by
  have hbound := h.received_le
  apply List.ext_getElem?
  intro i
  rcases Nat.lt_or_ge i n with hlt | hge
  · rw [Storage.getElem?_slice hlt, List.getElem?_take_of_lt hlt, List.getElem?_drop]
    exact (h.holds (p + i) (by omega) (by omega)).symm
  · rw [List.getElem?_eq_none (by rwa [Storage.length_slice]), List.getElem?_eq_none]
    exact Nat.le_trans (List.length_take_le ..) hge

theorem taken_ok (h : Inv AnyChunks stream lo s) (hp : lo ≤ p) (hn : p + n ≤ received s) :
    taken n p s = .ok (⟨n, (stream.drop p).take n⟩, s) := by
  have hlen := h.len
  rw [taken, bind_ok get_ok, if_pos (by omega), Int.toNat_natCast, slice_received h hp hn]
  rfl

theorem read_taken {x : Io (Int × Nat)} (hok : x s = .ok ((n, s.bufpos), s'))
    (hadv : Advanced AnyChunks stream s.bufpos (s.bufpos + n) s s') :
    (do
      let (len, offset) ← x
      return [← taken len offset] : Io (List Reply)) s =
        .ok ([⟨n, (stream.drop s.bufpos).take n⟩], s') := by
  have hbehind := hadv.inv.bufpos_le
  rw [hadv.bufpos] at hbehind
  rw [bind_ok hok]
  exact bind_ok (taken_ok hadv.inv (Nat.le_refl _) hbehind)

theorem Advanced.ahead (heof : s.ending = .eof) (hshort : stream.length < 2 ^ 29)
    (hadv : Advanced AnyChunks stream s.bufpos (s.bufpos + n) s s') :
    Ahead ((stream.drop s.bufpos).drop n) s' := by
  have hpos := hadv.bufpos
  refine ⟨hadv.later.ending.trans heof, stream, ?_, hshort, ?_⟩
  · exact Inv.mono hadv.inv (by omega) (Nat.le_refl _)
  · rw [hpos, List.drop_drop]

theorem int_max_lt : 2 ^ 29 < LIMIT := by decide

theorem readbyte_step (h : Ahead rest s) : ∃ s', Call.readbyte.run s =
    .ok (Call.readbyte.replies rest, s') ∧ Ahead (rest.drop 1) s' := by
  obtain ⟨heof, stream, hinv, hshort, rfl⟩ := h
  have hlimit := int_max_lt
  have hpos := hinv.bufpos_le
  have hbound := hinv.received_le
  rcases Nat.lt_or_ge s.bufpos stream.length with hlt | hge
  · obtain ⟨⟨rc, out⟩, s', hok, hrc, hout, hadv⟩ :=
      Runs.done (readbyte_next hinv steady_anyChunks hlt) (by omega)
    obtain rfl : rc = 1 := hrc
    have hbyte : (stream.drop s.bufpos).take 1 = [out] := by
      rw [List.drop_eq_getElem_cons hlt]
      have hget := List.getElem?_eq_getElem hlt
      rw [hout] at hget
      rw [← Option.some.inj hget]
      rfl
    refine ⟨s', ?_, Advanced.ahead heof hshort hadv⟩
    rw [Call.run, bind_ok hok, Call.replies, hbyte]
    rfl
  · obtain ⟨⟨rc, out⟩, s', hok, hrc, -, hadv⟩ :=
      Runs.done (readbyte_end hinv steady_anyChunks (by omega)) (by omega)
    obtain rfl : rc = 0 := by rw [heof] at hrc; exact hrc
    have hnone : stream.drop s.bufpos = [] := List.drop_eq_nil_of_le hge
    refine ⟨s', ?_, ?_⟩
    · rw [Call.run, bind_ok hok, Call.replies, hnone]
      rfl
    · have hahead := Advanced.ahead (n := 0) heof hshort hadv
      rw [hnone] at hahead ⊢
      exact hahead

theorem firstLine_cases (rest : Bytes) : LF ∉ rest ∧ firstLine rest = rest ∨
    ∃ l after, rest = l ++ LF :: after ∧ LF ∉ l ∧ firstLine rest = l ++ [LF] := by
  have hsplit := List.takeWhile_append_dropWhile (p := (· != LF)) (l := rest)
  have hfront : LF ∉ rest.takeWhile (· != LF) := by
    intro hmem
    have hne := List.mem_takeWhile_imp hmem
    simp at hne
  cases hdrop : rest.dropWhile (· != LF) with
  | nil =>
    rw [hdrop, List.append_nil] at hsplit
    rw [hsplit] at hfront
    refine Or.inl ⟨hfront, ?_⟩
    rw [firstLine, hdrop, hsplit]
    exact List.append_nil rest
  | cons c after =>
    have hc : c = LF := by
      have hhead := List.head_dropWhile_not (· != LF) (l := rest)
        (by rw [hdrop]; exact List.cons_ne_nil _ _)
      simpa [hdrop] using hhead
    subst hc
    refine Or.inr ⟨_, after, ?_, hfront, ?_⟩
    · rw [← hdrop, hsplit]
    · rw [firstLine, hdrop]
      rfl

theorem readline_step (h : Ahead rest s) : ∃ s', Call.readline.run s =
    .ok (Call.readline.replies rest, s') ∧ Ahead (rest.drop (firstLine rest).length) s' := by
  obtain ⟨heof, stream, hinv, hshort, rfl⟩ := h
  have hlimit := int_max_lt
  have hpos := hinv.bufpos_le
  have hbound := hinv.received_le
  rcases firstLine_cases (stream.drop s.bufpos) with ⟨hnone, hfirst⟩ | ⟨l, after, hline, hl, hfirst⟩
  · have hlength : s.bufpos + (stream.drop s.bufpos).length = stream.length := by
      rw [List.length_drop]
      omega
    obtain ⟨r, s', hok, rfl, -, hadv⟩ :=
      Runs.done (readline_end steady_anyChunks hinv rfl hnone) (by omega)
    rw [← hlength] at hadv
    rw [if_pos heof] at hok
    have hreplies := read_taken hok hadv
    rw [List.take_length] at hreplies
    refine ⟨s', ?_, ?_⟩
    · rw [Call.replies, hfirst]
      exact hreplies
    · rw [hfirst]
      exact Advanced.ahead heof hshort hadv
  · have hlength := congrArg List.length hline
    simp only [List.length_drop, List.length_append, List.length_cons] at hlength
    obtain ⟨r, s', hok, rfl, hadv⟩ :=
      Runs.done (readline_line steady_anyChunks hinv hline hl) (by omega)
    rw [Nat.add_assoc] at hadv
    have hlen : (l ++ [LF]).length = l.length + 1 := by simp
    have htake : (stream.drop s.bufpos).take (l.length + 1) = l ++ [LF] := by
      rw [hline, List.append_cons, ← hlen, List.take_left]
    have hreplies := read_taken hok hadv
    rw [htake] at hreplies
    refine ⟨s', ?_, ?_⟩
    · rw [Call.replies, hfirst, hlen]
      exact hreplies
    · rw [hfirst, hlen]
      exact Advanced.ahead heof hshort hadv

/-- `bufio_read` returns the smaller of what is left and the count as an `int`. -/
theorem bufioRead_returns (heof : s.ending = .eof) (hinv : Inv AnyChunks stream s.bufpos s)
    (hshort : stream.length < 2 ^ 29) (count : Nat) :
    ∃ s', bufioRead count s = .ok ((min ((stream.drop s.bufpos).length : Int) (int count), s.bufpos), s') ∧
      ∀ n : Nat, min ((stream.drop s.bufpos).length : Int) (int count) = n →
        Advanced AnyChunks stream s.bufpos (s.bufpos + n) s s' := by
  obtain ⟨rc, s₁, hok, hadv, hcases⟩ :=
    Runs.done (@readLoop_runs _ _ _ _ _ count _ steady_anyChunks hinv (Nat.lt_succ_self _))
      (Nat.le_trans (Nat.min_le_right ..) (Nat.lt_trans hshort int_max_lt))
  -- either all that was asked for has come, or all that is left
  obtain ⟨hrc, hcome⟩ : rc = 0 ∧ (s.bufpos + count ≤ received s₁ ∨ received s₁ = stream.length) := by
    rcases hcases with ⟨hrc, hmore⟩ | ⟨hrc, hend, -⟩
    · exact ⟨hrc, Or.inl hmore⟩
    · rw [heof] at hrc
      exact ⟨hrc, Or.inr hend⟩
  clear hcases
  have hpos := hadv.bufpos
  have hbound := hadv.inv.received_le
  have hbehind := hadv.inv.bufpos_le
  have hbuffered : bytesBuffered s₁ = (received s₁ - s.bufpos : Nat) := by
    rw [hadv.inv.buffered, hpos]
    omega
  have hsame : int (received s₁ - s.bufpos : Nat) = (received s₁ - s.bufpos : Nat) :=
    int_eq ⟨by omega, by omega⟩
  have hmin : min (int (bytesBuffered s₁)) (int count) =
      min ((stream.drop s.bufpos).length : Int) (int count) := by
    rw [hbuffered, hsame, List.length_drop]
    rcases hcome with hmore | hend
    · have hcount : int count = count := int_eq ⟨by omega, by omega⟩
      rw [hcount]
      omega
    · rw [hend]
  refine ⟨{ s₁ with bufpos := ((s₁.bufpos + min (int (bytesBuffered s₁)) (int count)) % 2 ^ 64).toNat },
    ?_, fun n hn => ?_⟩
  · rw [bufioRead, bind_ok get_ok, bind_ok get_ok, bind_ok hok, hrc, if_neg (by decide),
      bind_ok get_ok, bind_ok set_ok, hmin]
    rfl
  · have hle : (n : Int) ≤ (received s₁ - s.bufpos : Nat) := by
      rw [← hn, ← hmin, hbuffered, hsame]
      exact Int.min_le_left ..
    rw [hmin, hn]
    clear hmin hn
    have hplace : (((s.bufpos : Int) + n) % 2 ^ 64).toNat = s.bufpos + n := by omega
    rw [hpos, hplace]
    exact hadv.trans (hadv.inv.skip (by omega) (by omega))

theorem min_countable {count : Nat} (hrest : rest.length < 2 ^ 31) :
    Countable rest (.read count) ↔
      min (rest.length : Int) (int count) = (min count rest.length : Nat) := by
  rw [Countable]
  rcases Nat.lt_or_ge count (2 ^ 31) with hlt | hge
  · rw [int_eq (by omega)]
    omega
  · omega

theorem read_step {count : Nat} (h : Ahead rest s) (hcount : Countable rest (.read count)) :
    ∃ s', (Call.read count).run s = .ok ((Call.read count).replies rest, s') ∧
      Ahead (rest.drop count) s' := by
  obtain ⟨heof, stream, hinv, hshort, rfl⟩ := h
  have hlength : (stream.drop s.bufpos).length < 2 ^ 29 := by
    rw [List.length_drop]
    omega
  obtain ⟨s', hok, hadv⟩ := bufioRead_returns heof hinv hshort count
  have hmin := (min_countable (by omega)).mp hcount
  rw [hmin] at hok
  have hadv := hadv _ hmin
  have htake : (stream.drop s.bufpos).take (min count (stream.drop s.bufpos).length) =
      (stream.drop s.bufpos).take count := List.take_eq_take_min.symm
  have hreplies := read_taken hok hadv
  refine ⟨s', ?_, ?_⟩
  · rw [Call.replies, List.length_take, ← htake]
    exact hreplies
  · have hahead := Advanced.ahead heof hshort hadv
    have hdrop : (stream.drop s.bufpos).drop (min count (stream.drop s.bufpos).length) =
        (stream.drop s.bufpos).drop count := by
      rcases Nat.le_total count (stream.drop s.bufpos).length with hle | hge
      · rw [Nat.min_eq_left hle]
      · rw [Nat.min_eq_right hge, List.drop_length, List.drop_eq_nil_of_le hge]
    rwa [hdrop] at hahead

theorem bufioTruncate_short {fresh : Nat → UInt8} (h : ¬ s.buf.len > TRUNCATE_THRESHOLD) :
    bufioTruncate fresh s = .ok ((), s) := by
  rw [bufioTruncate, bind_ok get_ok, if_neg h]
  rfl

theorem bufioTruncate_reset {fresh : Nat → UInt8} (hlong : s.buf.len > TRUNCATE_THRESHOLD)
    (hunread : int (bytesBuffered s) = 0) :
    bufioTruncate fresh s = .ok ((), { s with buf := bufferReset s.buf BUFSIZE, bufpos := 0 }) := by
  rw [bufioTruncate, bind_ok get_ok, if_pos hlong]
  rw [hunread, if_neg (by decide), if_pos rfl]
  rfl

theorem bufioTruncate_move {fresh : Nat → UInt8} {b : Buffer}
    (hlong : s.buf.len > TRUNCATE_THRESHOLD) (hunread : int (bytesBuffered s) = n) (hn : 0 < n)
    (hb : bufferAppend (bufferInit fresh BUFSIZE) (s.buf.storage.slice s.bufpos n) = .ok b) :
    bufioTruncate fresh s = .ok ((), { s with buf := b, bufpos := 0 }) := by
  rw [bufioTruncate, bind_ok get_ok, if_pos hlong]
  rw [hunread, if_neg (by omega), if_neg (by omega), Int.toNat_natCast, bind_ok (lift_ok hb)]
  rfl

theorem moved_buffer (fresh : Nat → UInt8) {l : Bytes} (hpos : 0 < l.length)
    (hshort : l.length < 2 ^ 29) :
    ∃ b, bufferAppend (bufferInit fresh BUFSIZE) l = .ok b ∧ b.len = l.length ∧
      (l.length : Int) < b.cap ∧ 8192 ≤ b.cap ∧ b.cap ≤ 2 ^ 30 + 2 ^ 14 ∧
      ∀ i, i < l.length → l[i]? = some (b.buf i) := by
  have hmax := Growth.int_max
  have hsize : BUFSIZE = 8192 := rfl
  have hcap : BUFSIZE ≤ Growth.INT_MAX := by decide
  have hmeasures := Growth.measures_init fresh hcap
  have hallowed : (Growth.Call.append l).Allowed 0 := by
    rintro n ⟨⟩
    exact ⟨hpos, by omega, Nat.le_refl _⟩
  have hgrows : ∀ n ∈ (Growth.Call.append l).request, Growth.Grows 0 BUFSIZE n := by
    rintro n ⟨⟩
    exact Or.inr (by omega)
  obtain ⟨b, hok, hb⟩ := Growth.run_ok hmeasures hallowed hgrows
  obtain ⟨-, hcontents⟩ := bufferAppend_inv hmeasures.sound hok
  have hlen : b.len = l.length := by
    rw [hb.len]
    exact congrArg Nat.cast (Nat.zero_add l.length)
  have hcap : b.cap = ((if 0 + l.length < BUFSIZE then BUFSIZE else 2 * BUFSIZE + l.length : Nat) : Int) :=
    hb.cap
  have hslice : b.storage.slice 0 l.length = l := by
    rw [Buffer.contents, hlen, Int.toNat_natCast] at hcontents
    exact hcontents
  refine ⟨b, hok, hlen, ?_, ?_, ?_, fun i hi => ?_⟩
  · rw [hcap]
    split <;> omega
  · rw [hcap]
    split <;> omega
  · rw [hcap]
    split <;> omega
  · have hget := Storage.getElem?_slice (b := b.storage) (p := 0) hi
    rw [hslice, Nat.zero_add] at hget
    exact hget

theorem truncate_step {fresh : Nat → UInt8} (h : Ahead rest s) :
    ∃ s', (Call.truncate fresh).run s = .ok ([], s') ∧ Ahead rest s' := by
  obtain ⟨heof, stream, hinv, hshort, rfl⟩ := h
  have hpos := hinv.bufpos_le
  have hbound := hinv.received_le
  have hlength : (stream.drop s.bufpos).length = stream.length - s.bufpos := List.length_drop
  have hunread : int (bytesBuffered s) = (received s - s.bufpos : Nat) := by
    rw [hinv.buffered, int_eq ⟨by omega, by omega⟩]
    omega
  have hpending : pending s = (stream.drop s.bufpos).drop (received s - s.bufpos) := by
    rw [hinv.pending, List.drop_drop, Nat.add_sub_cancel' hpos]
  have hdelivery : AnyChunks (received s - s.bufpos) s.input :=
    Nat.lt_of_le_of_lt (Nat.sub_le ..) hinv.delivery
  by_cases hlong : s.buf.len > TRUNCATE_THRESHOLD
  · rcases Nat.eq_zero_or_pos (received s - s.bufpos) with hnone | hsome
    · rw [hnone] at hunread hpending hdelivery
      refine ⟨{ s with buf := bufferReset s.buf BUFSIZE, bufpos := 0 }, ?_, heof,
        stream.drop s.bufpos, ?_, by omega, rfl⟩
      · rw [Call.run, bind_ok (bufioTruncate_reset hlong hunread)]
        rfl
      · have hcap : (bufferReset s.buf BUFSIZE).cap = 8192 := by
          have hsmall := hinv.capacity.small
          show (if s.buf.cap > (BUFSIZE : Int) then (BUFSIZE : Int) else s.buf.cap) = 8192
          have hsize : BUFSIZE = 8192 := rfl
          split <;> omega
        have hfits : (0 : Int) < (bufferReset s.buf BUFSIZE).cap := by
          rw [hcap]
          decide
        exact ⟨rfl, hfits, Or.inl ⟨0, by decide, hcap⟩, Nat.le_refl _, Nat.zero_le _,
          Nat.zero_le _, fun i _ hi => absurd hi (Nat.not_lt_zero i), hpending, hdelivery⟩
    · have hslice := slice_received hinv (Nat.le_refl _) (show s.bufpos + (received s - s.bufpos) ≤ _ by omega)
      have hmoved : ((stream.drop s.bufpos).take (received s - s.bufpos)).length =
          received s - s.bufpos := by
        rw [List.length_take]
        omega
      obtain ⟨b, hb, hlen, hfits, hmin, hmax, hbytes⟩ := moved_buffer fresh
        (l := (stream.drop s.bufpos).take (received s - s.bufpos)) (by omega) (by omega)
      rw [hmoved] at hlen hfits hbytes
      rw [← hslice] at hb
      have hreceived : received { s with buf := b, bufpos := 0 } = received s - s.bufpos := by
        show b.len.toNat = _
        omega
      refine ⟨{ s with buf := b, bufpos := 0 }, ?_, heof, stream.drop s.bufpos, ?_, by omega, rfl⟩
      · rw [Call.run, bind_ok (bufioTruncate_move hlong hunread hsome hb)]
        rfl
      · constructor
        · rw [hreceived]
          exact hlen
        · rw [hreceived]
          exact hfits
        · exact Or.inr ⟨by omega, hmin, hmax⟩
        · exact Nat.le_refl _
        · exact Nat.zero_le _
        · omega
        · intro i _ hi
          rw [hreceived] at hi
          rw [← hbytes i hi, List.getElem?_take_of_lt hi]
        · rw [hreceived]
          exact hpending
        · rw [hreceived]
          exact hdelivery
  · refine ⟨s, ?_, heof, stream, hinv, hshort, rfl⟩
    rw [Call.run, bind_ok (bufioTruncate_short hlong)]
    rfl

theorem call_step {c : Call} (h : Ahead rest s) (hc : Countable rest c) :
    ∃ s', c.run s = .ok (c.replies rest, s') ∧ Ahead (rest.drop (c.consumes rest)) s' := by
  cases c with
  | readbyte => exact readbyte_step h
  | readline => exact readline_step h
  | read count => exact read_step h hc
  | truncate fresh => exact truncate_step h

theorem read_wrong {count : Nat} {rs : List Reply} (h : Ahead rest s)
    (hc : ¬ Countable rest (.read count)) (hok : (Call.read count).run s = .ok (rs, s')) :
    ∃ r, rs = [r] ∧ ¬ Answers rest (.read count) r := by
  obtain ⟨heof, stream, hinv, hshort, rfl⟩ := h
  have hlength : (stream.drop s.bufpos).length < 2 ^ 31 := by
    rw [List.length_drop]
    omega
  have hwrong := mt (min_countable hlength).mpr hc
  obtain ⟨s₁, hread, -⟩ := bufioRead_returns heof hinv hshort count
  generalize min ((stream.drop s.bufpos).length : Int) (int count) = m at hwrong hread
  rw [Call.run, bind_ok hread] at hok
  obtain ⟨r, s₂, htaken, hrest⟩ := bind_inv hok
  cases hrest
  refine ⟨r, rfl, fun hr => hwrong ?_⟩
  rw [taken] at htaken
  have htaken := get_bind_inv htaken
  split at htaken
  · cases htaken
    exact hr.1
  · cases htaken

end Calls

section Sequences

variable {rest : Bytes} {s s' : Bufio} {c : Call} {cs cs' : List Call} {rs : List Reply}
  {fresh : Nat → UInt8} {input : List Chunk}

theorem runAll_ok (h : Ahead rest s) (hcs : Counted rest cs) :
    ∃ s', runAll cs s = .ok (repliesAll rest cs, s') := by
  induction cs generalizing rest s with
  | nil => exact ⟨s, rfl⟩
  | cons c cs ih =>
    obtain ⟨s₁, hcall, hahead⟩ := call_step h hcs.1
    obtain ⟨s', hrest⟩ := ih hahead hcs.2
    refine ⟨s', ?_⟩
    rw [runAll, bind_ok hcall, bind_ok hrest]
    rfl

theorem truncate_or_read (c : Call) : (∃ fresh, c = .truncate fresh) ∨ c.isRead = true := by
  cases c with
  | truncate fresh => exact Or.inl ⟨fresh, rfl⟩
  | readbyte => exact Or.inr rfl
  | readline => exact Or.inr rfl
  | read count => exact Or.inr rfl

theorem served_read (hc : c.isRead = true) : Served rest (c :: cs) rs ↔
    ∃ r rs', rs = r :: rs' ∧ Answers rest c r ∧ Served (rest.drop r.bytes.length) cs rs' := by
  cases c with
  | truncate fresh => cases hc
  | readbyte => exact Iff.rfl
  | readline => exact Iff.rfl
  | read count => exact Iff.rfl

theorem replies_read (rest : Bytes) (hc : c.isRead = true) : ∃ r, c.replies rest = [r] ∧
    Answers rest c r ∧ rest.drop r.bytes.length = rest.drop (c.consumes rest) := by
  cases c with
  | truncate fresh => cases hc
  | readbyte =>
    refine ⟨_, rfl, ?_⟩
    cases rest with
    | nil => exact ⟨Or.inl ⟨rfl, rfl⟩, rfl⟩
    | cons c l => exact ⟨Or.inr ⟨c, l, rfl, rfl⟩, rfl⟩
  | readline =>
    refine ⟨_, rfl, ⟨rfl, ?_⟩, rfl⟩
    rcases firstLine_cases rest with ⟨hnone, hfirst⟩ | ⟨l, after, hline, hl, hfirst⟩
    · rw [hfirst]
      exact ⟨List.prefix_rfl, Or.inr ⟨hnone, rfl⟩⟩
    · rw [hfirst]
      refine ⟨⟨after, ?_⟩, Or.inl ⟨l, rfl, hl⟩⟩
      rw [hline, List.append_assoc]
      rfl
  | read count =>
    refine ⟨_, rfl, ⟨congrArg Nat.cast List.length_take, rfl⟩, ?_⟩
    show rest.drop (rest.take count).length = rest.drop count
    rw [List.length_take]
    rcases Nat.le_total count rest.length with hle | hge
    · rw [Nat.min_eq_left hle]
    · rw [Nat.min_eq_right hge, List.drop_length, List.drop_eq_nil_of_le hge]

theorem served_replies : Served rest cs (repliesAll rest cs) := by
  induction cs generalizing rest with
  | nil => rfl
  | cons c cs ih =>
    rcases truncate_or_read c with ⟨fresh, rfl⟩ | hc
    · exact ih
    · obtain ⟨r, hreplies, hr, hdrop⟩ := replies_read rest hc
      refine (served_read hc).mpr ⟨r, repliesAll (rest.drop (c.consumes rest)) cs, ?_, hr, ?_⟩
      · rw [repliesAll, hreplies]
        rfl
      · rw [hdrop]
        exact ih

theorem Answers.prefix {r : Reply} (h : Answers rest c r) : r.bytes <+: rest := by
  cases c with
  | truncate fresh => exact h.elim
  | readbyte =>
    rcases h with ⟨-, rfl⟩ | ⟨c, l, rfl, rfl⟩
    · exact List.nil_prefix
    · exact ⟨l, rfl⟩
  | readline => exact h.2.1
  | read count =>
    rw [h.2]
    exact List.take_prefix count rest

theorem Served.prefix (h : Served rest cs rs) : rs.flatMap Reply.bytes <+: rest := by
  induction cs generalizing rest rs with
  | nil =>
    rw [show rs = [] from h]
    exact List.nil_prefix
  | cons c cs ih =>
    rcases truncate_or_read c with ⟨fresh, rfl⟩ | hc
    · exact ih h
    · obtain ⟨r, rs', rfl, hr, hrest⟩ := (served_read hc).mp h
      obtain ⟨after, rfl⟩ := hr.prefix
      rw [List.drop_left] at hrest
      obtain ⟨l, hl⟩ := ih hrest
      refine ⟨l, ?_⟩
      rw [List.flatMap_cons, List.append_assoc, hl]

theorem repliesAll_reads : repliesAll rest cs = repliesAll rest (cs.filter Call.isRead) := by
  induction cs generalizing rest with
  | nil => rfl
  | cons c cs ih =>
    rcases truncate_or_read c with ⟨fresh, rfl⟩ | hc
    · exact ih
    · rw [List.filter_cons_of_pos hc, repliesAll, repliesAll, ih]

theorem counted_reads : Counted rest cs ↔ Counted rest (cs.filter Call.isRead) := by
  induction cs generalizing rest with
  | nil => exact Iff.rfl
  | cons c cs ih =>
    rcases truncate_or_read c with ⟨fresh, rfl⟩ | hc
    · exact (and_iff_right trivial).trans ih
    · rw [List.filter_cons_of_pos hc, Counted, Counted, ih]

theorem counted_of_served (h : Ahead rest s) (hok : runAll cs s = .ok (rs, s'))
    (hserved : Served rest cs rs) : Counted rest cs := by
  induction cs generalizing rest s rs with
  | nil => trivial
  | cons c cs ih =>
    obtain ⟨replies, s₁, hcall, hok⟩ := bind_inv hok
    obtain ⟨rs', s₂, hrest, hok⟩ := bind_inv hok
    cases hok
    by_cases hcountable : Countable rest c
    · obtain ⟨s₃, hcall', hahead⟩ := call_step h hcountable
      rw [hcall] at hcall'
      cases hcall'
      refine ⟨hcountable, ih hahead hrest ?_⟩
      rcases truncate_or_read c with ⟨fresh, rfl⟩ | hc
      · exact hserved
      · obtain ⟨r, hreplies, -, hdrop⟩ := replies_read rest hc
        obtain ⟨r', rs₁, heq, -, hserved⟩ := (served_read hc).mp hserved
        rw [hreplies] at heq
        obtain ⟨rfl, rfl⟩ := List.cons.inj heq
        rwa [hdrop] at hserved
    · cases c with
      | read count =>
        obtain ⟨r, rfl, hr⟩ := read_wrong h hcountable hcall
        obtain ⟨r', rs₁, heq, hr', -⟩ := hserved
        obtain ⟨rfl, rfl⟩ := List.cons.inj heq
        exact absurd hr' hr
      | readbyte => exact absurd trivial hcountable
      | readline => exact absurd trivial hcountable
      | truncate fresh => exact absurd trivial hcountable

theorem ahead_create (fresh : Nat → UInt8) (hshort : (streamOf input).length < 2 ^ 29) :
    Ahead (streamOf input) (bufioCreate fresh input .eof) :=
  ⟨rfl, streamOf input, inv_create fresh .eof (show 0 < LIMIT + READSIZE by decide), hshort, rfl⟩

/-- Buffered reads neither lose nor repeat bytes in exactly those sequences whose counts are, when
they are asked for, an `int` or an `int` that is enough for what is left. -/
theorem faithful_iff (fresh : Nat → UInt8) (input : List Chunk) (cs : List Call)
    (hshort : (streamOf input).length < 2 ^ 29) :
    Faithful fresh input cs ↔ Counted (streamOf input) cs := by
  have hahead := ahead_create fresh hshort
  constructor
  · rintro ⟨rs, s', hok, hserved, -⟩
    exact counted_of_served hahead hok hserved
  · intro hcounted
    obtain ⟨s', hok⟩ := runAll_ok hahead hcounted
    refine ⟨_, s', hok, served_replies, served_replies.prefix, fun cs' hreads => ?_⟩
    have hcounted' : Counted (streamOf input) cs' := by
      rw [counted_reads, hreads, ← counted_reads]
      exact hcounted
    obtain ⟨s'', hok'⟩ := runAll_ok hahead hcounted'
    rw [repliesAll_reads, hreads, ← repliesAll_reads] at hok'
    exact ⟨s'', hok'⟩

theorem faithful_sample :
    Faithful (fun _ => 0) [⟨ascii "ab\n", by decide, by decide⟩, ⟨ascii "cd", by decide, by decide⟩]
        [.readbyte, .readline, .truncate fun _ => 0, .read 1, .readline, .readbyte] ↔
      Counted (ascii "ab\ncd")
        [.readbyte, .readline, .truncate fun _ => 0, .read 1, .readline, .readbyte] :=
  faithful_iff _ [⟨ascii "ab\n", by decide, by decide⟩, ⟨ascii "cd", by decide, by decide⟩] _
    (by decide)

/-- A count of 2^31 becomes a negative `int`. -/
theorem read_unfaithful : ¬ ∀ (fresh : Nat → UInt8) (input : List Chunk) (cs : List Call),
    (streamOf input).length < 2 ^ 29 → Faithful fresh input cs := by
  intro hfaithful
  obtain ⟨rs, s', hok, hserved, -⟩ :=
    hfaithful (fun _ => 0) [⟨ascii "a", by decide, by decide⟩] [.read (2 ^ 31)] (by decide)
  have hcounted := counted_of_served (ahead_create (fun _ => 0) (by decide)) hok hserved
  rcases hcounted.1 with hlt | hle
  · exact absurd hlt (by decide)
  · exact absurd hle (by decide)

end Sequences

end ComputerSystems.Pserv.Reads
