/- The server reads the request that the stream asks for. -/

import ComputerSystems.Pserv.Streams

set_option autoImplicit false
set_option relaxedAutoImplicit false

namespace ComputerSystems.Pserv.Outcomes

open ComputerSystems.Memory.CStrings
open ComputerSystems.Systems.Computations
open ComputerSystems.Pserv.Strings
open ComputerSystems.Pserv.Buffers
open ComputerSystems.Pserv.Input
open ComputerSystems.Pserv.Receiving
open ComputerSystems.Pserv.Requests
open ComputerSystems.Pserv.Parsing
open ComputerSystems.Pserv.Streams

/-- `s'` comes from `s` by reading on; what lies before the position in `s` is as it was. -/
structure Since (s s' : Bufio) : Prop where
  received : received s ≤ received s'
  cap : s.buf.cap ≤ s'.buf.cap
  ending : s'.ending = s.ending
  bufpos : s.bufpos ≤ s'.bufpos
  before : ∀ i, i < s.bufpos → s'.buf.buf i = s.buf.buf i
  beyond : ∀ i, Receiving.received s' ≤ i → s'.buf.buf i = s.buf.buf i
  tight : Tight s → Tight s'

/-- The stream has been read up to `pos`. -/
structure At (J : Nat → List Chunk → Prop) (stream : Bytes) (pos : Nat) (s s' : Bufio) : Prop where
  inv : Inv J stream pos s'
  bufpos : s'.bufpos = pos
  since : Since s s'

variable {J : Nat → List Chunk → Prop} {E : Stop → Prop} {stream line rest : Bytes} {lo p q n : Nat}
variable {s s' s'' : Bufio} {ta : Transaction}

theorem Since.refl : Since s s :=
  ⟨Nat.le_refl _, Int.le_refl _, rfl, Nat.le_refl _, fun _ _ => rfl, fun _ _ => rfl, fun h => h⟩

theorem Since.trans (h : Since s s') (h' : Since s' s'') : Since s s'' where
  received := Nat.le_trans h.received h'.received
  cap := Int.le_trans h.cap h'.cap
  ending := h'.ending.trans h.ending
  bufpos := Nat.le_trans h.bufpos h'.bufpos
  before i hi := (h'.before i (Nat.lt_of_lt_of_le hi h.bufpos)).trans (h.before i hi)
  beyond i hi := (h'.beyond i hi).trans (h.beyond i (Nat.le_trans h'.received hi))
  tight ht := h'.tight (h.tight ht)

theorem At.trans (h : At J stream p s s') (h' : At J stream q s' s'') : At J stream q s s'' :=
  ⟨h'.inv, h'.bufpos, h.since.trans h'.since⟩

theorem Since.holdsText {l : Bytes} (h : Since s s') (hl : HoldsText s p l)
    (hp : p + l.length < s.bufpos) : HoldsText s' p l := by
  refine hl.congr (Int.toNat_le_toNat h.cap) fun i _ hi => h.before i ?_
  simp only [List.length_append, List.length_cons, List.length_nil] at hi
  omega

theorem Inv.mono (h : Inv J stream lo s) (hp : lo ≤ p) (hpos : p ≤ s.bufpos) :
    Inv J stream p s :=
  ⟨h.len, h.fits, h.capacity, hpos, h.bufpos_le, h.received_le,
    fun i hi hlt => h.holds i (Nat.le_trans hp hi) hlt, h.pending, h.delivery⟩

theorem Inv.patched (h : Inv J stream lo s) (hpatched : Patched p q s s') (hq : q ≤ s.bufpos) :
    Inv J stream s.bufpos s' := by
  have hreceived := hpatched.received
  have hlo := h.lo_le
  constructor
  · rw [hreceived, hpatched.rest]
    exact h.len
  · rw [hreceived, hpatched.cap]
    exact h.fits
  · rw [hpatched.cap]
    exact h.capacity
  · rw [hpatched.bufpos]
  · rw [hreceived, hpatched.bufpos]
    exact h.bufpos_le
  · rw [hreceived]
    exact h.received_le
  · intro i hi hlt
    rw [hreceived] at hlt
    rw [hpatched.frame i (Or.inr (Nat.le_trans hq hi))]
    exact h.holds i (Nat.le_trans hlo hi) hlt
  · rw [hreceived, ← h.pending, hpatched.rest]
    rfl
  · rw [hreceived, hpatched.rest]
    exact h.delivery

theorem Inv.holdsLine (h : Inv J stream p s) (hbufpos : s.bufpos = p + line.length)
    (hline : stream.drop p = line ++ rest) : s.buf.storage.Holds p line := by
  have hfits := h.fits
  have hpos := h.bufpos_le
  refine Storage.holds_of_getElem (fun i hi => ?_) (by show _ ≤ s.buf.cap.toNat; omega)
  have hsame : (line ++ rest)[i]? = _ := List.getElem?_append_left hi
  rw [← hsame, ← hline, List.getElem?_drop]
  exact h.holds (p + i) (by omega) (by omega)

theorem takeWhile_nul (front : Bytes) (c : UInt8) :
    ∃ after, front ++ [0, c] = front.takeWhile (· != NUL) ++ 0 :: after := by
  induction front with
  | nil => exact ⟨[c], rfl⟩
  | cons x front ih =>
    obtain ⟨after, hafter⟩ := ih
    by_cases hx : x = 0
    · subst hx
      exact ⟨front ++ [0, c], rfl⟩
    · refine ⟨after, ?_⟩
      have htake : (x :: front).takeWhile (· != NUL) = x :: front.takeWhile (· != NUL) := by
        rw [List.takeWhile_cons, if_pos (by simpa [NUL] using hx)]
      rw [htake, List.cons_append, hafter]
      rfl

theorem lineText_nul (line : Bytes) : 0 ∉ lineText line := by
  intro h
  have hne := List.mem_takeWhile_imp h
  simp [NUL] at hne

theorem lineText_length (hlength : 2 ≤ line.length) : (lineText line).length + 2 ≤ line.length := by
  have hle := (List.takeWhile_prefix (l := line.take (line.length - 2)) (· != NUL)).length_le
  rw [List.length_take] at hle
  rw [lineText]
  omega

theorem putNul_line (hholds : s.buf.storage.Holds p line) (hlength : 2 ≤ line.length) :
    ∃ s' after, putNul (p + line.length - 2) s = .ok ((), s') ∧
      Patched p (p + line.length) s s' ∧
      s'.buf.storage.Holds p (lineText line ++ 0 :: after) := by
  have hfits : p + line.length ≤ s.buf.cap.toNat := hholds.2
  obtain ⟨front, a, b, rfl⟩ : ∃ front a b, line = front ++ [a, b] := by
    rcases List.eq_nil_or_concat' line with rfl | ⟨init, b, rfl⟩
    · simp at hlength
    · rcases List.eq_nil_or_concat' init with rfl | ⟨front, a, rfl⟩
      · simp at hlength
      · exact ⟨front, a, b, by simp⟩
  have hfront : (front ++ [a, b]).take ((front ++ [a, b]).length - 2) = front := by
    simp
  obtain ⟨after, hafter⟩ := takeWhile_nul front b
  have hindex : ((p : Int) + (front ++ [a, b]).length - 2) = ((p + front.length : Nat) : Int) := by
    simp
    omega
  simp only [List.length_append, List.length_cons, List.length_nil] at hfits
  let s' : Bufio :=
    { s with buf := { s.buf with buf := Function.update s.buf.buf (p + front.length) 0 } }
  have hset : ∀ i, i ≠ p + front.length → s'.buf.buf i = s.buf.buf i :=
    fun i hi => Function.update_of_ne hi ..
  refine ⟨s', after, ?_, ⟨rfl, fun i hi => hset i ?_⟩, ?_⟩
  · rw [putNul, bind_ok get_ok, hindex, bind_ok (lift_ok (store_ok (by omega)))]
    rfl
  · simp only [List.length_append, List.length_cons, List.length_nil] at hi
    omega
  · rw [lineText, hfront, ← hafter]
    obtain ⟨hleft, hright⟩ := Storage.holds_append.mp hholds
    obtain ⟨-, hright⟩ := Storage.holds_cons.mp hright
    refine Storage.holds_append.mpr ⟨?_, Storage.holds_cons.mpr ⟨?_, ?_⟩⟩
    · exact hleft.congr (Nat.le_refl _) fun i _ hi => hset i (by omega)
    · exact Function.update_self ..
    · exact hright.congr (Nat.le_refl _) fun i hi _ => hset i (by omega)

/-- What is known after `bufio_readline`, before the line is changed. -/
structure LineRead (J : Nat → List Chunk → Prop) (stream : Bytes) (p pos : Nat) (s s' : Bufio) :
    Prop where
  inv : Inv J stream p s'
  bufpos : s'.bufpos = pos
  since : Since s s'

theorem Runs.lineRead {Q : Int × Nat → Prop} (hJ : Steady J) (h : Inv J stream p s)
    (hbufpos : s.bufpos = p) (hle : p ≤ q)
    (hread : Runs J E n bufioReadline s fun r s' => Q r ∧ Advanced J stream p q s s') :
    Runs J E n bufioReadline s fun r s' => Q r ∧ LineRead J stream p q s s' := by
  rcases hread with hexit | hstop | ⟨r, s', hok, hQ, hadv⟩
  · exact Or.inl hexit
  · exact Or.inr (Or.inl hstop)
  · refine Runs.ok hok ⟨hQ, hadv.inv, hadv.bufpos, ?_⟩
    have hpos := h.bufpos_le
    refine ⟨hadv.later.received, hadv.later.cap, hadv.later.ending, ?_, fun i hi => ?_,
      hadv.later.beyond, fun ht => readline_tight hJ h ht hok⟩
    · rw [hadv.bufpos]
      omega
    · exact hadv.later.before i (by omega)

theorem readline_at {l rest : Bytes} (hJ : Steady J) (h : Inv J stream p s)
    (hbufpos : s.bufpos = p) (hline : stream.drop p = l ++ LF :: rest) (hl : LF ∉ l) :
    Runs J E (p + (l ++ [LF]).length) bufioReadline s fun r s' =>
      r = (((l ++ [LF]).length : Int), p) ∧
        LineRead J stream p (p + (l ++ [LF]).length) s s' := by
  have hread := readline_line (E := E) hJ h (by rw [hbufpos, hline]) hl
  rw [hbufpos, Nat.add_assoc] at hread
  have hlen : (l ++ [LF]).length = l.length + 1 := List.length_append
  rw [hlen]
  exact Runs.lineRead hJ h hbufpos (by omega) hread

theorem readline_at_end {l : Bytes} (hJ : Steady J) (h : Inv J stream p s)
    (hbufpos : s.bufpos = p) (hline : stream.drop p = l) (hl : LF ∉ l) :
    Runs J E (stream.length + 1) bufioReadline s fun r s' =>
      (r = (if s.ending = .eof then (l.length : Int) else -1, p) ∧ stream.length < LIMIT) ∧
        LineRead J stream p stream.length s s' := by
  have hread := readline_end (E := E) hJ h (by rw [hbufpos, hline]) hl
  have hpos := h.bufpos_le
  have hbound := h.received_le
  rw [hbufpos] at hread
  refine Runs.lineRead hJ h hbufpos (by omega) (hread.mono (Nat.le_refl _) ?_)
  exact fun r s' ⟨hr, hlimit, hadv⟩ => ⟨⟨hr, hlimit⟩, hadv⟩

theorem LineRead.at (h : LineRead J stream p q s s') (hbufpos : s.bufpos = p)
    (hpatched : Patched p q s' s'') : At J stream q s s'' := by
  have hbufpos' := h.bufpos
  have hinv := Inv.patched h.inv hpatched (Nat.le_of_eq hbufpos'.symm)
  have hreceived := hpatched.received
  rw [hbufpos'] at hinv
  have hsince := h.since
  have hpos := h.inv.bufpos_le
  refine ⟨hinv, hpatched.bufpos.trans hbufpos', ⟨?_, ?_, ?_, ?_, fun i hi => ?_, fun i hi => ?_,
    fun ht => ?_⟩⟩
  · rw [hreceived]
    exact hsince.received
  · rw [hpatched.cap]
    exact hsince.cap
  · rw [hpatched.rest]
    exact hsince.ending
  · rw [hpatched.bufpos]
    exact hsince.bufpos
  · rw [hpatched.frame i (Or.inl (by omega))]
    exact hsince.before i hi
  · rw [hreceived] at hi
    rw [hpatched.frame i (Or.inr (by omega))]
    exact hsince.beyond i hi
  · obtain ⟨hone, hinput⟩ := hsince.tight ht
    refine ⟨by rw [hreceived, hpatched.bufpos, hone], ?_⟩
    rw [hpatched.rest]
    exact hinput

/-- A request line in the buffer, with the transaction that the server makes of it. -/
def Parsed (s : Bufio) (ta ta' : Transaction) (bound : Nat) (method : Method) (path : Bytes)
    (version : Version) : Prop :=
  ∃ i, ta' = { ta with reqMethod := method, reqPath := i, reqVersion := version } ∧
    HoldsText s i path ∧ i + path.length < bound ∧ 0 ∉ path

/-- What `http_parse_request` makes of a line. -/
def RequestParsed (J : Nat → List Chunk → Prop) (stream line : Bytes) (p : Nat) (s : Bufio)
    (ta : Transaction) (r : Option Transaction) (s' : Bufio) : Prop :=
  At J stream (p + line.length) s s' ∧
    match requestLine (lineText line) with
    | none => r = none
    | some (method, path, version) => ∃ ta', r = some ta' ∧
        Parsed s' ta ta' (p + line.length) method path version

/-- The part of `http_parse_request` after `bufio_readline`. -/
def parseLine (ta : Transaction) (len : Int) (reqOffset : Nat) : Io (Option Transaction) := do
  let request ← bufioOffset2ptr reqOffset
  putNul (request + len - 2)
  parseRequestLine ta request

theorem parseLine_ok (ta : Transaction) (hholds : s.buf.storage.Holds p line)
    (hlength : 2 ≤ line.length) (hinside : (p : Int) + line.length ≤ s.buf.len) :
    ∃ s', Patched p (p + line.length) s s' ∧
      match requestLine (lineText line) with
      | none => parseLine ta line.length p s = .ok (none, s')
      | some (method, path, version) => ∃ ta', parseLine ta line.length p s = .ok (some ta', s') ∧
          Parsed s' ta ta' (p + line.length) method path version := by
  obtain ⟨s₁, after, hput, hpatched, hholds₁⟩ := putNul_line hholds hlength
  have htext := lineText_length hlength
  have hlen : s₁.buf.len = s.buf.len := by
    rw [hpatched.rest]
  obtain ⟨s', hpatched', hparse⟩ :=
    parseRequestLine_spec ta hholds₁ (lineText_nul _) (by rw [hlen]; omega)
  have hrun : parseLine ta line.length p s = parseRequestLine ta p s₁ := by
    rw [parseLine, bind_ok (bufioOffset2ptr_ok (by omega)), bind_ok hput]
  refine ⟨s', hpatched.trans (hpatched'.mono (Nat.le_refl _) (by omega)), ?_⟩
  rw [hrun]
  cases hrequest : requestLine (lineText line) with
  | none =>
    rw [hrequest] at hparse
    exact hparse
  | some r =>
    obtain ⟨method, path, version⟩ := r
    rw [hrequest] at hparse
    obtain ⟨i, hok, hpath, -, hbound, hpath0⟩ := hparse
    exact ⟨_, hok, i, rfl, hpath, by omega, hpath0⟩

theorem parseLine_runs (hread : LineRead J stream p (p + line.length) s s') (hbufpos : s.bufpos = p)
    (hline : stream.drop p = line ++ rest) (hlength : 2 ≤ line.length) :
    Runs J E n (parseLine ta line.length p) s' (RequestParsed J stream line p s ta) := by
  have hinside : (p : Int) + line.length ≤ s'.buf.len := by
    have hpos := hread.inv.bufpos_le
    have hbufpos' := hread.bufpos
    rw [hread.inv.len]
    omega
  obtain ⟨s₂, hpatched, hparse⟩ :=
    parseLine_ok ta (Inv.holdsLine hread.inv hread.bufpos hline) hlength hinside
  have hat := hread.at hbufpos hpatched
  cases hrequest : requestLine (lineText line) with
  | none =>
    rw [hrequest] at hparse
    exact Runs.ok hparse ⟨hat, by rw [hrequest]⟩
  | some r =>
    obtain ⟨method, path, version⟩ := r
    rw [hrequest] at hparse
    obtain ⟨ta', hok, hparsed⟩ := hparse
    refine Runs.ok hok ⟨hat, ?_⟩
    rw [hrequest]
    exact ⟨ta', rfl, hparsed⟩

theorem drop_length {l : Bytes} (hpos : p ≤ stream.length) (hline : stream.drop p = l) :
    p + l.length = stream.length := by
  have hlength := congrArg List.length hline
  rw [List.length_drop] at hlength
  omega

theorem parseRequest_runs {l : Bytes} (hJ : Steady J) (h : Inv J stream p s)
    (hbufpos : s.bufpos = p) (hline : stream.drop p = l ++ LF :: rest) (hl : LF ∉ l) :
    Runs J E (p + (l ++ [LF]).length) (httpParseRequest ta) s
      (RequestParsed J stream (l ++ [LF]) p s ta) := by
  refine (readline_at hJ h hbufpos hline hl).bind (Nat.le_refl _) fun r s₁ ⟨hr, hread⟩ => ?_
  subst hr
  dsimp only
  by_cases hlength : (l ++ [LF]).length < 2
  · rw [if_pos (by omega)]
    refine Runs.ok (pure_ok _) ⟨hread.at hbufpos Patched.refl, ?_⟩
    obtain rfl : l = [] := by
      simp only [List.length_append, List.length_cons, List.length_nil] at hlength
      exact List.length_eq_zero_iff.mp (by omega)
    rfl
  · have hline' : stream.drop p = (l ++ [LF]) ++ rest := by
      rw [hline]
      simp
    rw [if_neg (by omega)]
    exact parseLine_runs hread hbufpos hline' (Nat.le_of_not_lt hlength)

theorem At.reached (h : At J stream p s s') : Reached J p false :=
  ⟨received s', s'.input, h.inv.delivery, h.bufpos ▸ h.inv.bufpos_le⟩

/-- `http_parse_request` when the stream ends in the request line. -/
theorem parseRequest_end {l : Bytes} (hJ : Steady J) (h : Inv J stream p s)
    (hbufpos : s.bufpos = p) (hline : stream.drop p = l) (hl : LF ∉ l) :
    Runs J E (stream.length + 1) (httpParseRequest ta) s fun _ s' =>
      stream.length < LIMIT ∧ At J stream stream.length s s' := by
  have hlength := drop_length (by rw [← hbufpos]; exact Nat.le_trans h.bufpos_le h.received_le) hline
  refine (readline_at_end hJ h hbufpos hline hl).bind (Nat.le_refl _)
    fun r s₁ ⟨⟨hr, hlimit⟩, hread⟩ => ?_
  subst hr
  dsimp only
  have hat := hread.at hbufpos Patched.refl
  cases hending : s.ending with
  | error =>
    rw [if_neg (show ¬ Ending.error = Ending.eof by decide), if_pos (by decide)]
    exact Runs.ok (pure_ok _) ⟨hlimit, hat⟩
  | eof =>
    rw [if_pos rfl]
    by_cases hshort : l.length < 2
    · rw [if_pos (by omega)]
      exact Runs.ok (pure_ok _) ⟨hlimit, hat⟩
    · have hline' : stream.drop p = l ++ [] := by rw [hline, List.append_nil]
      rw [← hlength] at hread
      rw [if_neg (by omega)]
      refine (parseLine_runs hread hbufpos hline' (by omega)).mono
        (Nat.le_refl _) fun r s' hparsed => ?_
      rw [← hlength] at hlimit ⊢
      exact ⟨hlimit, hparsed.1⟩

theorem toLower_eq {c d : UInt8} (h : toLower c = d) (hd : d < 65) : c = d := by
  unfold toLower at h
  split at h
  · rename_i hc
    rw [UInt8.le_iff_toNat_le, UInt8.le_iff_toNat_le] at hc
    rw [← h, UInt8.lt_iff_toNat_lt, UInt8.toNat_add] at hd
    simp at hc hd
    omega
  · exact h

theorem sameText_crlf : sameText line [CR, LF] = true ↔ line = [CR, LF] := by
  constructor
  · intro h
    have hmap : line.map toLower = [CR, LF] := eq_of_beq h
    obtain ⟨a, l, rfl, ha, hl⟩ := List.map_eq_cons_iff.mp hmap
    obtain ⟨b, l, rfl, hb, hl⟩ := List.map_eq_cons_iff.mp hl
    rw [List.map_eq_nil_iff.mp hl, toLower_eq ha (by decide), toLower_eq hb (by decide)]
  · rintro rfl
    rfl

theorem startsCrlf_ok : startsCrlf p s = .ok (sameText (s.buf.storage.slice p 2) [CR, LF], s) :=
  rfl

section Turns

variable {next : Transaction → Io (Option Transaction)} {R : Option Transaction → Bufio → Prop}

theorem turn_empty (hread : LineRead J stream p (p + 2) s s') (hbufpos : s.bufpos = p)
    (hline : stream.drop p = [CR, LF] ++ rest) :
    Runs J E n (headerTurn next ta 2 p) s' fun r s'' =>
      r = some ta ∧ At J stream (p + 2) s s'' := by
  have hholds : s'.buf.storage.Holds p [CR, LF] := Inv.holdsLine hread.inv hread.bufpos hline
  have hpos := hread.inv.bufpos_le
  have hbufpos' := hread.bufpos
  have hlen := hread.inv.len
  rw [headerTurn, if_neg (by decide)]
  refine Runs.after (bufioOffset2ptr_ok (by omega)) (Runs.after startsCrlf_ok ?_)
  have hslice : s'.buf.storage.slice p 2 = [CR, LF] := hholds.1
  rw [hslice, if_pos (by decide)]
  exact Runs.ok (pure_ok _) ⟨rfl, hread.at hbufpos Patched.refl⟩

theorem turn_header (hread : LineRead J stream p (p + line.length) s s') (hbufpos : s.bufpos = p)
    (hline : stream.drop p = line ++ rest) (hlength : 2 ≤ line.length) (hne : line ≠ [CR, LF])
    (hnone : headerLine ta.reqContentLen (lineText line) = none →
      ∀ s'', At J stream (p + line.length) s s'' → R none s'')
    (hsome : ∀ m, headerLine ta.reqContentLen (lineText line) = some m →
      ∀ s'', At J stream (p + line.length) s s'' →
        Runs J E n (next { ta with reqContentLen := m }) s'' R) :
    Runs J E n (headerTurn next ta line.length p) s' R := by
  have hholds := Inv.holdsLine hread.inv hread.bufpos hline
  have hpos := hread.inv.bufpos_le
  have hbufpos' := hread.bufpos
  have hlen := hread.inv.len
  obtain ⟨s₁, after, hput, hpatched, hholds'⟩ := putNul_line hholds hlength
  obtain ⟨s₂, hpatched', hprocess⟩ :=
    processHeader_spec ta hholds' (lineText_nul line)
  have htext := lineText_length hlength
  have hat := hread.at hbufpos (hpatched.trans (hpatched'.mono (Nat.le_refl _) (by omega)))
  have hcrlf : ¬ (decide ((line.length : Int) = 2) && sameText (s'.buf.storage.slice p 2) [CR, LF]) = true := by
    simp only [Bool.and_eq_true, decide_eq_true_eq, not_and]
    intro htwo
    have htwo : line.length = 2 := by omega
    rw [← htwo, hholds.1, sameText_crlf]
    exact hne
  rw [headerTurn, if_neg (by omega)]
  refine Runs.after (bufioOffset2ptr_ok (by omega)) (Runs.after startsCrlf_ok ?_)
  rw [if_neg hcrlf]
  refine Runs.after hput (Runs.after hprocess ?_)
  cases hheader : headerLine ta.reqContentLen (lineText line) with
  | none => exact Runs.ok (pure_ok _) (hnone hheader s₂ hat)
  | some m => exact hsome m hheader s₂ hat

end Turns

theorem headersLoop_nothing {k : Nat} (hJ : Steady J) (h : Inv J stream p s)
    (hbufpos : s.bufpos = p) (hend : p = stream.length) :
    Runs J E (stream.length + 1) (headersLoop (k + 1) ta) s fun r _ =>
      r = none ∧ stream.length < LIMIT := by
  have hline : stream.drop p = [] := List.drop_eq_nil_of_le (Nat.le_of_eq hend.symm)
  refine (readline_at_end hJ h hbufpos hline List.not_mem_nil).bind (Nat.le_refl _)
    fun r s₁ ⟨⟨hr, hlimit⟩, hread⟩ => ?_
  subst hr
  dsimp only
  rw [headerTurn, if_pos]
  · exact Runs.ok (pure_ok _) ⟨rfl, hlimit⟩
  · split <;> decide

theorem putNul_short (h : Inv J stream lo s) (hp : 0 < p) (hpos : p ≤ s.bufpos) :
    ∃ s', putNul ((p : Int) + 1 - 2) s = .ok ((), s') ∧ Patched (p - 1) p s s' := by
  have hfits := h.fits
  have hle := h.bufpos_le
  have hindex : (p : Int) + 1 - 2 = ((p - 1 : Nat) : Int) := by omega
  refine ⟨{ s with buf := { s.buf with buf := Function.update s.buf.buf (p - 1) 0 } }, ?_, rfl,
    fun i hi => Function.update_of_ne (by omega) ..⟩
  rw [putNul, bind_ok get_ok, hindex, bind_ok (lift_ok (store_ok (by omega)))]
  rfl

theorem turn_short (next : Transaction → Io (Option Transaction)) (ta : Transaction)
    (h : Inv J stream p s) (hbufpos : s.bufpos = p + 1) (hp : 0 < p) :
    ∃ s', Patched (p - 1) p s s' ∧ headerTurn next ta 1 p s = (do
      match ← processHeader ta p with
      | none => return none
      | some ta => next ta : Io (Option Transaction)) s' := by
  have hlen := h.len
  have hle := h.bufpos_le
  obtain ⟨s', hput, hpatched⟩ := putNul_short h hp (by omega)
  refine ⟨s', hpatched, ?_⟩
  rw [headerTurn, if_neg (by decide), bind_ok (bufioOffset2ptr_ok (by omega)), bind_ok startsCrlf_ok,
    if_neg (by simp)]
  exact bind_ok hput

theorem turn_nul {next : Transaction → Io (Option Transaction)} (hread : LineRead J stream p q s s')
    (hq : q = p + 1) (hline : stream.drop p = [NUL]) (hp : 0 < p) :
    Runs J E n (headerTurn next ta 1 p) s' fun r _ => r = none := by
  subst hq
  have hholds : s'.buf.storage.Holds p ([] ++ 0 :: []) :=
    Inv.holdsLine hread.inv hread.bufpos (show stream.drop p = [NUL] ++ [] from hline)
  obtain ⟨s₁, hpatched, hturn⟩ := turn_short next ta hread.inv hread.bufpos hp
  obtain ⟨s₂, -, hprocess⟩ :=
    processHeader_spec ta (hpatched.holds (Or.inr (Nat.le_refl _)) hholds) List.not_mem_nil
  unfold Runs
  rw [hturn, bind_ok hprocess]
  exact Or.inr (Or.inr ⟨_, _, pure_ok _, rfl⟩)

theorem headersLoop_end {l : Bytes} {k : Nat} (hJ : Steady J) (h : Inv J stream p s)
    (hbufpos : s.bufpos = p) (hline : stream.drop p = l) (hl : LF ∉ l) (hk : 1 < k) (hp : 0 < p)
    (hshort : s.ending = .eof → ∀ c, l = [c] → c = NUL) :
    Runs J E (stream.length + 1) (headersLoop k ta) s fun r _ =>
      r = none ∧ stream.length < LIMIT := by
  have hlength := drop_length (by rw [← hbufpos]; exact Nat.le_trans h.bufpos_le h.received_le) hline
  obtain ⟨k, rfl⟩ : ∃ m, k = m + 2 := ⟨k - 2, by omega⟩
  refine (readline_at_end hJ h hbufpos hline hl).bind (Nat.le_refl _)
    fun r s₁ ⟨⟨hr, hlimit⟩, hread⟩ => ?_
  subst hr
  dsimp only
  cases hending : s.ending with
  | error =>
    rw [if_neg (show ¬ Ending.error = Ending.eof by decide), headerTurn, if_pos (by decide)]
    exact Runs.ok (pure_ok _) ⟨rfl, hlimit⟩
  | eof =>
    rw [if_pos rfl]
    match l, hline, hl, hlength, hshort hending with
    | [], hline, hl, hlength, _ =>
      rw [headerTurn, if_pos (by decide)]
      exact Runs.ok (pure_ok _) ⟨rfl, hlimit⟩
    | [c], hline, hl, hlength, hc =>
      rw [hc c rfl] at hline
      exact (turn_nul hread hlength.symm hline hp).mono (Nat.le_refl _) fun r _ hr => ⟨hr, hlimit⟩
    | c :: d :: l, hline, hl, hlength, _ =>
      have hline' : stream.drop p = (c :: d :: l) ++ [] := by rw [hline, List.append_nil]
      rw [← hlength] at hread
      refine turn_header hread hbufpos hline' (by simp) ?_ (fun _ s'' _ => ⟨rfl, hlimit⟩)
        fun m _ s'' hat => ?_
      · intro heq
        rw [heq] at hl
        exact hl (by simp)
      · exact headersLoop_nothing hJ hat.inv hat.bufpos hlength

/-- Before a header line of a single byte: at a LF, or at the last byte of the stream. -/
def BeforeShort {α : Type} (stream : Bytes) (ending : Ending) (q : Nat) (d : Decision α) : Prop :=
  (∃ rest, stream.drop q = LF :: rest ∧ d.used = q + 1 ∧ d.atEnd = false) ∨
    ∃ c, stream.drop q = [c] ∧ c ≠ LF ∧ c ≠ NUL ∧ ending = .eof ∧ d.used = q + 2 ∧ d.atEnd = true

theorem BeforeShort.later {α : Type} {d : Decision α} (hshort : BeforeShort stream s.ending q d)
    (h : Since s s') : BeforeShort stream s'.ending q d := by
  rw [h.ending]
  exact hshort

def HeadersDecided (J : Nat → List Chunk → Prop) (E : Stop → Prop) (stream : Bytes) (s : Bufio)
    (ta : Transaction) (R : Option Transaction → Bufio → Prop) (N : Nat) (d : Decision Int) : Prop :=
  match d.verdict with
  | .accepted m => ∀ s', At J stream d.used s s' → R (some { ta with reqContentLen := m }) s'
  | .rejected => Reached J d.used d.atEnd → ∀ s', R none s'
  | .runsOn => ∀ k m q s', At J stream q s s' → BeforeShort stream s.ending q d →
      Runs J E N (headersLoop (k + 1) { ta with reqContentLen := m }) s' R

theorem HeadersDecided.since {R : Option Transaction → Bufio → Prop} {N : Nat} {d : Decision Int}
    {m : Int} (hat : At J stream p s s') (h : HeadersDecided J E stream s ta R N d) :
    HeadersDecided J E stream s' { ta with reqContentLen := m } R N d := by
  rw [HeadersDecided] at h ⊢
  cases hverdict : d.verdict with
  | accepted n =>
    rw [hverdict] at h
    exact fun s'' hat' => h s'' (hat.trans hat')
  | rejected =>
    rw [hverdict] at h
    exact h
  | runsOn =>
    rw [hverdict] at h
    intro k n q s'' hat' hshort
    rw [hat.since.ending] at hshort
    exact h k n q s'' (hat.trans hat') hshort

/-- The loop of `http_process_headers` on the lines of the stream. -/
theorem headersLoop_runs {ls : List Bytes} {tail : Bytes} {k N : Nat}
    {R : Option Transaction → Bufio → Prop} (hJ : Steady J) (h : Inv J stream p s)
    (hbufpos : s.bufpos = p) (hp : 0 < p) (hlines : lines (stream.drop p) = (ls, tail))
    (hk : ls.length + 1 < k)
    (hN : (headers s.ending tail ls p ta.reqContentLen).used ≤ N)
    (hR : HeadersDecided J E stream s ta R N (headers s.ending tail ls p ta.reqContentLen)) :
    Runs J E N (headersLoop k ta) s R := by
  have hself : At J stream p s s := ⟨h, hbufpos, Since.refl⟩
  obtain ⟨k, rfl⟩ : ∃ m, k = m + 1 := ⟨k - 1, by omega⟩
  induction ls generalizing p s k ta with
  | nil =>
    obtain ⟨hline, hl⟩ := lines_nil hlines
    rw [hline] at hl
    have hlength := drop_length (by rw [← hbufpos]; exact Nat.le_trans h.bufpos_le h.received_le) hline
    have hused : (headers s.ending tail [] p ta.reqContentLen).used = stream.length + 1 := by
      rw [← hlength]
      rfl
    by_cases hshort : (s.ending = .eof && alone tail) = true
    · have hverdict : (headers s.ending tail [] p ta.reqContentLen).verdict = .runsOn :=
        if_pos hshort
      simp only [Bool.and_eq_true, decide_eq_true_eq, alone_iff] at hshort
      obtain ⟨heof, c, rfl, hc⟩ := hshort
      rw [HeadersDecided, hverdict] at hR
      refine hR k ta.reqContentLen p s hself (Or.inr ⟨c, hline, ?_, hc, heof, rfl, rfl⟩)
      rintro rfl
      exact hl List.mem_cons_self
    · have hverdict : (headers s.ending tail [] p ta.reqContentLen).verdict = .rejected :=
        if_neg hshort
      simp only [Bool.and_eq_true, decide_eq_true_eq, alone_iff] at hshort
      rw [HeadersDecided, hverdict] at hR
      rw [hused] at hN hR
      refine (headersLoop_end hJ h hbufpos hline hl hk hp ?_).mono hN ?_
      · intro heof c hc
        by_contra hne
        exact hshort ⟨heof, c, hc, hne⟩
      · rintro r s' ⟨hr, hlimit⟩
        subst hr
        exact hR hlimit s'
  | cons l ls ih =>
    obtain ⟨l', rest, rfl, hl', hline, hlines'⟩ := lines_cons hlines
    have hline' : stream.drop p = (l' ++ [LF]) ++ rest := by
      rw [hline]
      simp
    by_cases hempty : l' ++ [LF] = [CR, LF]
    · have hheaders : headers s.ending tail ((l' ++ [LF]) :: ls) p ta.reqContentLen =
          ⟨.accepted ta.reqContentLen, p + (l' ++ [LF]).length, false⟩ := by
        rw [headers, if_pos hempty]
      rw [hheaders] at hR hN
      refine (readline_at hJ h hbufpos hline hl').bind hN ?_
      rintro r s₁ ⟨hr, hread⟩
      subst hr
      rw [hempty] at hread hline' hR ⊢
      refine (turn_empty hread hbufpos hline').mono (Nat.le_refl _) ?_
      rintro r s₂ ⟨hr, hat⟩
      subst hr
      exact hR s₂ hat
    · by_cases hshort : (l' ++ [LF]).length = 1
      · have hheaders : headers s.ending tail ((l' ++ [LF]) :: ls) p ta.reqContentLen =
            ⟨.runsOn, p + (l' ++ [LF]).length, false⟩ := by
          rw [headers, if_neg hempty, if_pos hshort]
        rw [hheaders] at hR
        obtain rfl : l' = [] := by
          simp only [List.length_append, List.length_cons, List.length_nil] at hshort
          exact List.length_eq_zero_iff.mp (by omega)
        exact hR k ta.reqContentLen p s hself (Or.inl ⟨rest, hline, rfl, rfl⟩)
      · have hlength : 2 ≤ (l' ++ [LF]).length := by
          simp only [List.length_append, List.length_cons, List.length_nil] at hshort ⊢
          omega
        have hread := readline_at (E := E) hJ h hbufpos hline hl'
        cases hheader : headerLine ta.reqContentLen (lineText (l' ++ [LF])) with
        | none =>
          have hheaders : headers s.ending tail ((l' ++ [LF]) :: ls) p ta.reqContentLen =
              ⟨.rejected, p + (l' ++ [LF]).length, false⟩ := by
            rw [headers, if_neg hempty, if_neg hshort, hheader]
          rw [hheaders] at hR hN
          refine hread.bind hN ?_
          rintro r s₁ ⟨hr, hread⟩
          subst hr
          refine turn_header hread hbufpos hline' hlength hempty (fun _ s'' hat => hR hat.reached s'') ?_
          intro m hm
          rw [hheader] at hm
          cases hm
        | some m =>
          have hheaders : headers s.ending tail ((l' ++ [LF]) :: ls) p ta.reqContentLen =
              headers s.ending tail ls (p + (l' ++ [LF]).length) m := by
            rw [headers, if_neg hempty, if_neg hshort, hheader]
          rw [hheaders] at hR hN
          refine hread.bind (Nat.le_trans le_headers_used hN) ?_
          rintro r s₁ ⟨hr, hread⟩
          subst hr
          refine turn_header hread hbufpos hline' hlength hempty ?_ fun m' hm s'' hat => ?_
          · intro hnone
            rw [hheader] at hnone
            cases hnone
          · rw [hheader] at hm
            cases hm
            have hrest : stream.drop (p + (l' ++ [LF]).length) = rest := by
              rw [← List.drop_drop, hline', List.drop_left]
            rw [List.length_cons] at hk
            obtain ⟨k, rfl⟩ : ∃ i, k = i + 1 := ⟨k - 1, by omega⟩
            have hnext := @ih _ s'' { ta with reqContentLen := m } hat.inv hat.bufpos
              (by omega) (by rw [hrest, hlines']) (by rw [hat.since.ending]; exact hN)
              (by rw [hat.since.ending]; exact hR.since hat) ⟨hat.inv, hat.bufpos, Since.refl⟩ k
              (by omega)
            exact hnext

/-- The server holds the request, its body apart, in its transaction and its buffer. -/
structure HeadUnderstood (s : Bufio) (ta : Transaction) (r : Request) : Prop where
  method : ta.reqMethod = r.method
  version : ta.reqVersion = r.version
  path : HoldsText s ta.reqPath r.path
  path_nul : 0 ∉ r.path
  inside : ta.reqPath + r.path.length < received s
  contentLen : ta.reqContentLen = r.contentLen

structure Understood (s : Bufio) (ta : Transaction) (r : Request) : Prop
    extends HeadUnderstood s ta r where
  length : r.body.length = r.contentLen.toNat
  body : 0 < r.contentLen → s.buf.storage.Holds ta.reqBody r.body

/-- The stream has been read up to `pos`, and the server holds the request. -/
structure Accepted (J : Nat → List Chunk → Prop) (stream : Bytes) (pos : Nat) (s : Bufio)
    (ta : Transaction) (r : Request) (s' : Bufio) : Prop where
  inv : Inv J stream pos s'
  bufpos : s'.bufpos = pos
  ending : s'.ending = s.ending
  understood : Understood s' ta r

def BodyDecided (J : Nat → List Chunk → Prop) (stream : Bytes) (s : Bufio)
    (R : Option Transaction → Bufio → Prop) (d : Decision Request) : Prop :=
  match d.verdict with
  | .accepted r => ∀ ta s', Accepted J stream d.used s ta r s' → R (some ta) s'
  | .rejected => Reached J d.used d.atEnd → ∀ s', R none s'
  | .runsOn => True

theorem readBody_runs {r : Request} {R : Option Transaction → Bufio → Prop} (hJ : Steady J)
    (h : Inv J stream p s) (hbufpos : s.bufpos = p) (hr : HeadUnderstood s ta r)
    (hbody : r.body = []) (hR : BodyDecided J stream s R (bodyAt stream r p)) :
    Runs J E (bodyAt stream r p).used (readBody ta) s R := by
  rw [readBody, hr.contentLen]
  by_cases hnone : r.contentLen ≤ 0
  · have hd : bodyAt stream r p = ⟨.accepted r, p, false⟩ := if_pos hnone
    rw [hd] at hR ⊢
    rw [if_neg (by omega)]
    refine Runs.ok (pure_ok _) (hR ta s ⟨h, hbufpos, rfl, hr, ?_, fun hpos => ?_⟩)
    · rw [hbody, List.length_nil]
      omega
    · omega
  · obtain ⟨count, hcount⟩ : ∃ m : Nat, r.contentLen = m := ⟨r.contentLen.toNat, by omega⟩
    have hread := read_runs (E := E) count hJ h
    rw [hbufpos] at hread
    rw [if_pos (by omega), hcount, Int.toNat_natCast]
    by_cases hroom : p + count ≤ stream.length
    · have hd : bodyAt stream r p =
          ⟨.accepted { r with body := (stream.drop p).take count }, p + count, false⟩ := by
        rw [bodyAt, if_neg hnone, hcount, Int.toNat_natCast, if_pos hroom]
      rw [hd] at hR ⊢
      have hlength : ((stream.drop p).take count).length = count := by
        rw [List.length_take, List.length_drop]
        omega
      refine hread.bind (Nat.min_le_left ..) ?_
      rintro x s₁ ⟨hoff, hcases⟩
      obtain ⟨rc, off⟩ := x
      dsimp only at hoff hcases ⊢
      obtain rfl : p = off := hoff.symm
      rcases hcases with ⟨hrc, -, hadv⟩ | ⟨-, -, hshort⟩
      · have hpos := hadv.bufpos
        have hle := hadv.inv.bufpos_le
        have hlen := hadv.inv.len
        rw [if_neg (by omega)]
        refine Runs.after (bufioOffset2ptr_ok (by omega)) (Runs.ok (pure_ok _) (hR _ s₁ ?_))
        refine ⟨Inv.mono hadv.inv (Nat.le_add_right p count) (Nat.le_of_eq hpos.symm), hpos,
          hadv.later.ending, ?_⟩
        refine ⟨⟨hr.method, hr.version, ?_, hr.path_nul, ?_, hcount.symm⟩, ?_, fun _ => ?_⟩
        · refine hr.path.congr (Int.toNat_le_toNat hadv.later.cap) fun i _ hi => ?_
          have hinside := hr.inside
          simp only [List.length_append, List.length_cons, List.length_nil] at hi
          exact hadv.later.before i (by omega)
        · exact Nat.lt_of_lt_of_le hr.inside hadv.later.received
        · rw [hlength, hcount, Int.toNat_natCast]
        · have hline : stream.drop p = (stream.drop p).take count ++ (stream.drop p).drop count :=
            (List.take_append_drop count _).symm
          exact Inv.holdsLine hadv.inv (by rw [hlength, hpos]) hline
      · omega
    · have hd : bodyAt stream r p = ⟨.rejected, stream.length + 1, true⟩ := by
        rw [bodyAt, if_neg hnone, hcount, Int.toNat_natCast, if_neg hroom]
      rw [hd] at hR ⊢
      refine hread.bind (Nat.min_le_right ..) ?_
      rintro x s₁ ⟨hoff, hcases⟩
      obtain ⟨rc, off⟩ := x
      dsimp only at hcases ⊢
      rcases hcases with ⟨-, hle, -⟩ | ⟨hrc, hlimit, -⟩
      · exact absurd hle hroom
      · rw [if_pos hrc]
        exact Runs.ok (pure_ok _) (hR hlimit s₁)

/-- The end of `readRequest`. -/
def afterHeaders : Option Transaction → Io (Option Transaction)
  | none => return none
  | some ta => readBody ta

def RequestDecided (J : Nat → List Chunk → Prop) (E : Stop → Prop) (stream : Bytes) (s : Bufio)
    (R : Option Transaction → Bufio → Prop) (N : Nat) (d : Decision Request) : Prop :=
  match d.verdict with
  | .accepted r => ∀ ta s', Accepted J stream d.used s ta r s' → R (some ta) s'
  | .rejected => Reached J d.used d.atEnd → ∀ s', R none s'
  | .runsOn => ∀ k ta q s', At J stream q s s' → 0 < q → BeforeShort stream s.ending q d →
      Runs J E N (headersLoop (k + 1) ta) s' fun r s'' => Runs J E N (afterHeaders r) s'' R

theorem headersDecided_of_request {R : Option Transaction → Bufio → Prop} {N i : Nat}
    {method : Method} {path : Bytes} {version : Version} {d : Decision Int}
    (hat : At J stream p s s') (hpath : HoldsText s' i path) (hinside : i + path.length < p)
    (hnul : 0 ∉ path) (hp : 0 < p) (hJ : Steady J)
    (hN : (ofHeaders stream method path version d).used ≤ N)
    (hR : RequestDecided J E stream s R N (ofHeaders stream method path version d)) :
    HeadersDecided J E stream s' { reqMethod := method, reqVersion := version, reqPath := i }
      (fun r s'' => Runs J E N (afterHeaders r) s'' R) N d := by
  rw [ofHeaders] at hR hN
  rw [HeadersDecided]
  cases hverdict : d.verdict with
  | accepted m =>
    rw [hverdict] at hR hN
    dsimp only at hR hN ⊢
    intro s₂ hat'
    have hpos := hat'.since.bufpos
    have hbufpos := hat.bufpos
    have hhead : HeadUnderstood s₂
        { reqMethod := method, reqVersion := version, reqPath := i, reqContentLen := m }
        ⟨method, path, version, m, []⟩ := by
      have hbefore : i + path.length < s'.bufpos := by omega
      refine ⟨rfl, rfl, hat'.since.holdsText hpath hbefore, hnul, ?_, rfl⟩
      have hreceived := hat'.inv.bufpos_le
      show i + path.length < received s₂
      omega
    refine (readBody_runs hJ hat'.inv hat'.bufpos hhead rfl ?_).mono hN fun r s₃ hr => hr
    rw [BodyDecided]
    rw [RequestDecided] at hR
    have hending : s₂.ending = s.ending := (hat.trans hat').since.ending
    cases hbody : (bodyAt stream ⟨method, path, version, m, []⟩ d.used).verdict with
    | accepted r =>
      rw [hbody] at hR
      exact fun ta s₃ h => hR ta s₃ ⟨h.inv, h.bufpos, h.ending.trans hending, h.understood⟩
    | rejected =>
      rw [hbody] at hR
      exact hR
    | runsOn => trivial
  | rejected =>
    rw [hverdict] at hR
    exact fun hreached s₂ => Runs.ok (pure_ok _) (hR hreached s₂)
  | runsOn =>
    rw [hverdict] at hR
    intro k m q s₂ hat' hshort
    have hpos := hat'.since.bufpos
    have hbufpos := hat.bufpos
    have hbufpos' := hat'.bufpos
    rw [hat.since.ending] at hshort
    exact hR k _ q s₂ (hat.trans hat') (by omega) hshort

theorem readRequest_runs {R : Option Transaction → Bufio → Prop} {N : Nat} (hJ : Steady J)
    (h : Inv J stream p s) (hbufpos : s.bufpos = p)
    (hN : (requestAt s.ending stream p).used ≤ N)
    (hR : RequestDecided J E stream s R N (requestAt s.ending stream p)) :
    Runs J E N readRequest s R := by
  rw [readRequest]
  rw [requestAt] at hR hN
  cases hlines : lines (stream.drop p) with
  | mk ls tail =>
    rw [hlines] at hR hN
    cases ls with
    | nil =>
      obtain ⟨hline, hl⟩ := lines_nil hlines
      rw [hline] at hl
      refine (parseRequest_end hJ h hbufpos hline hl).bind hN ?_
      rintro r s₁ ⟨hlimit, hat⟩
      cases r with
      | none => exact Runs.ok (pure_ok _) (hR hlimit s₁)
      | some ta =>
        have hheaders : Runs J E (stream.length + 1) (httpProcessHeaders ta) s₁
            fun r _ => r = none ∧ stream.length < LIMIT :=
          Runs.after get_ok (headersLoop_nothing hJ hat.inv hat.bufpos rfl)
        refine hheaders.bind hN ?_
        rintro r s₂ ⟨hr, _⟩
        subst hr
        exact Runs.ok (pure_ok _) (hR hlimit s₂)
    | cons l ls =>
      obtain ⟨l', rest, rfl, hl', hline, hlines'⟩ := lines_cons hlines
      have hline' : stream.drop p = (l' ++ [LF]) ++ rest := by
        rw [hline]
        simp
      have hrest : stream.drop (p + (l' ++ [LF]).length) = rest := by
        rw [← List.drop_drop, hline', List.drop_left]
      dsimp only at hR hN
      cases hrequest : requestLine (lineText (l' ++ [LF])) with
      | none =>
        rw [hrequest] at hR hN
        refine (parseRequest_runs hJ h hbufpos hline hl').bind hN ?_
        rintro r s₁ ⟨hat, hr⟩
        rw [hrequest] at hr
        subst hr
        exact Runs.ok (pure_ok _) (hR hat.reached s₁)
      | some x =>
        obtain ⟨method, path, version⟩ := x
        rw [hrequest] at hR hN
        dsimp only at hR hN
        have hlength := lines_length hlines'
        have hbound : p + (l' ++ [LF]).length + rest.length = stream.length := by
          refine drop_length ?_ hrest
          have hcount := congrArg List.length hline'
          rw [List.length_append, List.length_drop] at hcount
          have hpos : 0 < (l' ++ [LF]).length := by simp
          omega
        have hlater : 0 < p + (l' ++ [LF]).length := by
          rw [List.length_append, List.length_singleton]
          omega
        have hused : (headers s.ending tail ls (p + (l' ++ [LF]).length) 0).used ≤ N := by
          have hle := @headers_used_le s.ending tail ls (p + (l' ++ [LF]).length) 0
          exact Nat.le_trans (le_ofHeaders_used (by omega)) hN
        refine (parseRequest_runs hJ h hbufpos hline hl').bind
          (Nat.le_trans le_headers_used hused) ?_
        rintro r s₁ ⟨hat, hr⟩
        rw [hrequest] at hr
        obtain ⟨ta, rfl, i, hta, hpath, hinside, hnul⟩ := hr
        have hheaders : Runs J E N (httpProcessHeaders ta) s₁
            fun r s₂ => Runs J E N (afterHeaders r) s₂ R := by
          refine Runs.after get_ok (headersLoop_runs hJ hat.inv hat.bufpos hlater
            (by rw [hrest, hlines']) ?_ ?_ ?_)
          · rw [hat.inv.unread, hat.bufpos]
            omega
          · rw [hat.since.ending, hta]
            exact hused
          · rw [hat.since.ending, hta]
            exact headersDecided_of_request hat hpath hinside hnul hlater hJ hN hR
        exact hheaders.bind (Nat.le_refl _) fun r s₂ hr => hr

end ComputerSystems.Pserv.Outcomes
