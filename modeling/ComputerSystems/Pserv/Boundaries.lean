/- What the server reads depends on the stream alone, unless a header line is a single byte. -/

import ComputerSystems.Pserv.Outcomes

set_option autoImplicit false
set_option relaxedAutoImplicit false

namespace ComputerSystems.Pserv.Boundaries

open ComputerSystems.Memory.CStrings
open ComputerSystems.Systems.Computations
open ComputerSystems.Pserv.Strings
open ComputerSystems.Pserv.Buffers
open ComputerSystems.Pserv.Input
open ComputerSystems.Pserv.Receiving
open ComputerSystems.Pserv.Requests
open ComputerSystems.Pserv.Parsing
open ComputerSystems.Pserv.Streams
open ComputerSystems.Pserv.Outcomes

/-- What the rest of the transaction finds at `req_path` and `req_body`. -/
def view : Option Transaction → Io (Option Request)
  | none => return none
  | some ta => do
    let path ← stringAt (← bufioOffset2ptr ta.reqPath)
    let self ← get
    let body := self.buf.storage.slice ta.reqBody ta.reqContentLen.toNat
    return some ⟨ta.reqMethod, path, ta.reqVersion, ta.reqContentLen, body⟩

def requestRead : Io (Option Request) := do
  view (← readRequest)

/-- The request that is read from a new connection: a rejected one is `none`. -/
def outcome (fresh : Nat → UInt8) (input : List Chunk) (ending : Ending) :
    Except Stop (Option Request) :=
  (requestRead (bufioCreate fresh input ending)).map Prod.fst

/-- The stream that `recv` splits into chunks. -/
def streamOf (input : List Chunk) : Bytes := (input.map Chunk.bytes).flatten

/-- The outcome is the same for any two ways of splitting the stream, and any two contents of the
storage. -/
def Independent (ending : Ending) (stream : Bytes) : Prop :=
  ∀ fresh fresh' input input', streamOf input = stream → streamOf input' = stream →
    outcome fresh input ending = outcome fresh' input' ending

def reach (atEnd : Bool) : Nat := if atEnd then LIMIT else LIMIT + READSIZE - 1

/-- No header line of a single byte is met, and the request fits below the limit; or it is so long
that it is never read. -/
def Settled (ending : Ending) (stream : Bytes) : Prop :=
  (requestAt ending stream 0).verdict ≠ .runsOn ∧ (requestAt ending stream 0).used ≤ LIMIT ∨
    reach (requestAt ending stream 0).atEnd < (requestAt ending stream 0).used

variable {J : Nat → List Chunk → Prop} {E : Stop → Prop} {stream : Bytes} {p q : Nat}
variable {s s' : Bufio} {fresh : Nat → UInt8} {input : List Chunk} {ending : Ending}

theorem inv_create (fresh : Nat → UInt8) (ending : Ending) (h : J 0 input) :
    Inv J (streamOf input) 0 (bufioCreate fresh input ending) where
  len := rfl
  fits := by show ((0 : Nat) : Int) < (8192 : Nat); decide
  capacity := Or.inl ⟨0, by decide, rfl⟩
  lo_le := Nat.le_refl _
  bufpos_le := Nat.le_refl _
  received_le := Nat.zero_le _
  holds := fun i _ hi => absurd hi (Nat.not_lt_zero i)
  pending := rfl
  delivery := h

theorem view_ok {ta : Transaction} {r : Request} (h : Understood s ta r)
    (hlen : s.buf.len = received s) : view (some ta) s = .ok (some r, s) := by
  have hinside := h.inside
  have hslice : s.buf.storage.slice ta.reqBody r.contentLen.toNat = r.body := by
    have hlength := h.length
    rcases Int.lt_or_le 0 r.contentLen with hpos | hnone
    · rw [← hlength]
      exact (h.body hpos).1
    · rw [Int.toNat_of_nonpos hnone] at hlength ⊢
      exact (List.length_eq_zero_iff.mp hlength).symm
  rw [view, bind_ok (bufioOffset2ptr_ok (by omega)),
    bind_ok (stringAt_ok h.path h.path_nul), bind_ok get_ok, h.method, h.version, h.contentLen, hslice]
  rfl

def answer : Verdict Request → Option Request
  | .accepted r => some r
  | _ => none

theorem requestRead_answer (hJ : Steady J) (h : Inv J stream 0 s) (hbufpos : s.bufpos = 0)
    (hverdict : (requestAt s.ending stream 0).verdict ≠ .runsOn) :
    Runs J E (requestAt s.ending stream 0).used requestRead s fun r _ =>
      r = answer (requestAt s.ending stream 0).verdict := by
  have hread : Runs J E (requestAt s.ending stream 0).used readRequest s fun r s' =>
      view r s' = .ok (answer (requestAt s.ending stream 0).verdict, s') := by
    refine readRequest_runs hJ h hbufpos (Nat.le_refl _) ?_
    rw [RequestDecided]
    cases hd : (requestAt s.ending stream 0).verdict with
    | accepted r => exact fun ta s' hacc => view_ok hacc.understood hacc.inv.len
    | rejected => exact fun _ s' => rfl
    | runsOn => exact absurd hd hverdict
  refine hread.bind (Nat.le_refl _) fun r s' hr => Runs.ok hr rfl

theorem readline_short {α : Type} {d : Decision α} (hJ : Steady J) (h : Inv J stream q s)
    (hbufpos : s.bufpos = q) (hshort : BeforeShort stream s.ending q d) :
    Runs J E d.used bufioReadline s fun r s' => r = (1, q) ∧ Reached J d.used d.atEnd ∧
      LineRead J stream q (q + 1) s s' := by
  rcases hshort with ⟨rest, hline, hused, hatEnd⟩ | ⟨c, hline, hc, -, heof, hused, hatEnd⟩
  · rw [hused, hatEnd]
    have hread := readline_at (E := E) (l := []) hJ h hbufpos hline List.not_mem_nil
    refine hread.mono (Nat.le_refl _) fun r s' ⟨hr, hread⟩ => ⟨hr, ?_, hread⟩
    exact (hread.at hbufpos Patched.refl).reached
  · have hlength : q + 1 = stream.length := by
      refine drop_length ?_ hline
      rw [← hbufpos]
      exact Nat.le_trans h.bufpos_le h.received_le
    rw [hused, hatEnd]
    have hread := readline_at_end (E := E) hJ h hbufpos hline (by simpa using Ne.symm hc)
    rw [← hlength, if_pos heof] at hread
    exact hread.mono (Nat.le_refl _) fun r s' ⟨⟨hr, hlimit⟩, hread⟩ => ⟨hr, hlimit, hread⟩

theorem Runs.known {α : Type} {P : Prop} {n : Nat} (x : Io α) (h : P) :
    Runs J (fun _ => P) n x s fun _ _ => P := by
  cases hx : x s with
  | error e => exact Or.inr (Or.inl ⟨e, hx, h⟩)
  | ok r => exact Runs.ok (show x s = .ok (r.1, r.2) from hx) h

theorem requestRead_reached (hJ : Steady J) (h : Inv J stream 0 s) (hbufpos : s.bufpos = 0) :
    Runs J (fun _ => Reached J (requestAt s.ending stream 0).used (requestAt s.ending stream 0).atEnd)
      (requestAt s.ending stream 0).used requestRead s fun _ _ =>
        Reached J (requestAt s.ending stream 0).used (requestAt s.ending stream 0).atEnd := by
  have hread : Runs J
      (fun _ => Reached J (requestAt s.ending stream 0).used (requestAt s.ending stream 0).atEnd)
      (requestAt s.ending stream 0).used readRequest s fun _ _ =>
        Reached J (requestAt s.ending stream 0).used (requestAt s.ending stream 0).atEnd := by
    refine readRequest_runs hJ h hbufpos (Nat.le_refl _) ?_
    rw [RequestDecided]
    cases hd : (requestAt s.ending stream 0).verdict with
    | accepted r =>
      intro ta s' hacc
      have hpos := hacc.bufpos
      have hle := hacc.inv.bufpos_le
      rw [requestAt_atEnd hd]
      exact ⟨received s', s'.input, hacc.inv.delivery, by omega⟩
    | rejected => exact fun hreached _ => hreached
    | runsOn =>
      intro k ta q s' hat _ hshort
      refine (readline_short hJ hat.inv hat.bufpos (hshort.later hat.since)).bind (Nat.le_refl _) ?_
      rintro r s'' ⟨-, hreached, -⟩
      refine (Runs.known _ hreached).mono (Nat.le_refl _) fun r s₃ _ => ?_
      exact Runs.known _ hreached
  refine hread.bind (Nat.le_refl _) fun r s' hr => Runs.known _ hr

section Overrun

theorem processHeader_overrun {ta : Transaction} (hfirst : s.buf.buf q ≠ 0)
    (hone : ∀ i, q < i → s.buf.buf i = 1) : processHeader ta q s = .error .outOfBounds := by
  have hstrtok : s.buf.storage.strtok [COLON] q = none := by
    refine Storage.strtok_overrun (fun i hi _ => ?_) fun i hi _ => ?_
    · rcases Nat.eq_or_lt_of_le hi with rfl | hlt
      · exact hfirst
      · show s.buf.buf i ≠ 0
        rw [hone i hlt]
        decide
    · show s.buf.buf i ∉ [COLON]
      rw [hone i hi]
      decide
  have herror : strtokR [COLON] q s = .error .outOfBounds := by
    rw [strtokR, bind_ok get_ok, hstrtok]
    rfl
  rw [processHeader, bind_error herror]

theorem turn_overrun {next : Transaction → Io (Option Transaction)} {ta : Transaction}
    (h : Inv J stream q s) (hbufpos : s.bufpos = q + 1) (hq : 0 < q)
    (hfirst : s.buf.buf q ≠ 0) (hone : ∀ i, q < i → s.buf.buf i = 1) :
    headerTurn next ta 1 q s = .error .outOfBounds := by
  obtain ⟨s', hpatched, hturn⟩ := turn_short next ta h hbufpos hq
  have hsame : ∀ i, q ≤ i → s'.buf.buf i = s.buf.buf i := fun i hi => hpatched.frame i (Or.inr hi)
  rw [hturn, bind_error (processHeader_overrun ?_ fun i hi => ?_)]
  · rw [hsame q (Nat.le_refl _)]
    exact hfirst
  · rw [hsame i (Nat.le_of_lt hi)]
    exact hone i hi

theorem requestRead_overrun (hJ : Steady J) (h : Inv J stream 0 s) (hbufpos : s.bufpos = 0)
    (hverdict : (requestAt s.ending stream 0).verdict = .runsOn) (hone : ∀ i, s.buf.buf i = 1)
    (hall : ∀ s', At J stream (requestAt s.ending stream 0).used s s' →
      received s' = (requestAt s.ending stream 0).used) :
    Runs J (· = .outOfBounds) (requestAt s.ending stream 0).used requestRead s fun _ _ => False := by
  have hread : Runs J (· = .outOfBounds) (requestAt s.ending stream 0).used readRequest s
      fun _ _ => False := by
    refine readRequest_runs hJ h hbufpos (Nat.le_refl _) ?_
    rw [RequestDecided, hverdict]
    intro k ta q s₁ hat hq hshort
    refine (readline_short hJ hat.inv hat.bufpos (hshort.later hat.since)).bind (Nat.le_refl _) ?_
    rintro r s₂ ⟨rfl, -, hread⟩
    have hat₂ : At J stream (q + 1) s s₂ := hat.trans (hread.at hat.bufpos Patched.refl)
    have hpos := hread.inv.bufpos_le
    have hbufpos₂ := hread.bufpos
    have hreceived : received s₂ = q + 1 := by
      rcases hshort with ⟨rest, -, hused, -⟩ | ⟨c, hline, -, -, -, hused, -⟩
      · rw [hused] at hall
        exact hall s₂ hat₂
      · have hle := hread.inv.received_le
        have hlength := congrArg List.length hline
        rw [List.length_drop, List.length_singleton] at hlength
        omega
    have hbyte := hread.inv.holds q (Nat.le_refl _) (by omega)
    have hfirst : s₂.buf.buf q ≠ 0 := by
      have hhead : stream[q]? = (stream.drop q).head? := List.head?_drop.symm
      rw [hbyte] at hhead
      rcases hshort with ⟨rest, hline, -⟩ | ⟨c, hline, -, hc, -⟩
      · rw [hline] at hhead
        rw [Option.some.inj hhead]
        decide
      · rw [hline] at hhead
        rw [Option.some.inj hhead]
        exact hc
    have hrest : ∀ i, q < i → s₂.buf.buf i = 1 := by
      intro i hi
      rw [hat₂.since.beyond i (by omega)]
      exact hone i
    exact Or.inr (Or.inl ⟨_, turn_overrun hread.inv hbufpos₂ hq hfirst hrest, rfl⟩)
  refine hread.bind (Nat.le_refl _) fun r s' hr => hr.elim

end Overrun

section Quiet

/-- The stream has been read up to `p`, no more has come, and NULs follow. -/
structure Quiet (J : Nat → List Chunk → Prop) (stream : Bytes) (p : Nat) (s : Bufio) : Prop where
  inv : Inv J stream p s
  bufpos : s.bufpos = p
  tight : Tight s
  zero : ∀ i, received s ≤ i → s.buf.buf i = 0

theorem Quiet.later (h : Quiet J stream p s) (hat : At J stream q s s') : Quiet J stream q s' where
  inv := hat.inv
  bufpos := hat.bufpos
  tight := hat.since.tight h.tight
  zero i hi := by
    rw [hat.since.beyond i hi]
    exact h.zero i (Nat.le_trans hat.since.received hi)

abbrev Inside {α : Type} (J : Nat → List Chunk → Prop) (stream : Bytes) (x : Io α) (s : Bufio)
    (Q : α → Bufio → Prop) : Prop :=
  Runs J (· ≠ .outOfBounds) (stream.length + 1) x s Q

theorem Inside.throw {α : Type} {x : Io α} {Q : α → Bufio → Prop} {e : Stop}
    (h : x s = .error e) (he : e ≠ .outOfBounds) : Inside J stream x s Q :=
  Or.inr (Or.inl ⟨e, h, he⟩)

theorem turn_short_quiet {next : Transaction → Io (Option Transaction)} {ta : Transaction}
    {Q : Option Transaction → Bufio → Prop} (h : Quiet J stream (p + 1) s) (hinv : Inv J stream p s)
    (hp : 0 < p) (hnone : ∀ s', Quiet J stream (p + 1) s' → Q none s')
    (hnext : ∀ ta s', Quiet J stream (p + 1) s' → Inside J stream (next ta) s' Q) :
    Inside J stream (headerTurn next ta 1 p) s Q := by
  have hbufpos := h.bufpos
  have hpos := h.inv.bufpos_le
  obtain ⟨s₁, hpatched₁, hturn⟩ := turn_short next ta hinv hbufpos hp
  have hreceived₁ := hpatched₁.received
  have htight := h.tight.1
  have hzero : s₁.buf.buf (p + 1) = 0 := by
    rw [hpatched₁.frame _ (Or.inr (Nat.le_succ p))]
    exact h.zero _ (by omega)
  have hfits := h.inv.fits
  have hcap := hpatched₁.cap
  obtain ⟨l, after, hholds, hl, hlen⟩ := Storage.exists_text (b := s₁.buf.storage) hzero
    (Nat.le_succ p) (by show _ < s₁.buf.cap.toNat; omega)
  obtain ⟨s₂, hpatched₂, hprocess⟩ := processHeader_spec ta hholds hl
  have hpatched := (hpatched₁.mono (Nat.le_refl _) (Nat.le_succ p)).trans
    (hpatched₂.mono (Nat.sub_le p 1) hlen)
  have hquiet : Quiet J stream (p + 1) s₂ := by
    have hinv₂ := Inv.patched h.inv hpatched (Nat.le_of_eq hbufpos.symm)
    rw [hbufpos] at hinv₂
    refine ⟨hinv₂, hpatched.bufpos.trans hbufpos, ⟨?_, ?_⟩, fun i hi => ?_⟩
    · rw [hpatched.received, hpatched.bufpos, htight]
    · rw [hpatched.rest]
      exact h.tight.2
    rw [hpatched.received] at hi
    rw [hpatched.frame i (Or.inr (by omega))]
    exact h.zero i hi
  unfold Inside Runs
  rw [hturn, bind_ok hprocess]
  cases headerLine ta.reqContentLen l with
  | none => exact Runs.ok (pure_ok _) (hnone s₂ hquiet)
  | some m => exact hnext _ s₂ hquiet

theorem turn_quiet {next : Transaction → Io (Option Transaction)} {ta : Transaction}
    {Q : Option Transaction → Bufio → Prop} {line rest : Bytes} (h : Quiet J stream p s)
    (hp : 0 < p) (hline : stream.drop p = line ++ rest)
    (hread : LineRead J stream p (p + line.length) s s')
    (hnone : ∀ r q s', Quiet J stream q s' → Q r s')
    (hnext : ∀ ta q s', 0 < q → Quiet J stream q s' → Inside J stream (next ta) s' Q) :
    Inside J stream (headerTurn next ta line.length p) s' Q := by
  have hquiet : Quiet J stream (p + line.length) s' := h.later (hread.at h.bufpos Patched.refl)
  match line, hline, hread, hquiet with
  | [], _, _, hquiet =>
    rw [headerTurn, if_pos (by simp)]
    exact Runs.ok (pure_ok _) (hnone _ _ _ hquiet)
  | [c], _, hread, hquiet =>
    refine turn_short_quiet hquiet hread.inv hp (hnone none _) fun ta s'' => ?_
    exact hnext ta _ s'' (Nat.succ_pos p)
  | c :: d :: l, hline, hread, _ =>
    by_cases hempty : c :: d :: l = [CR, LF]
    · rw [hempty] at hread hline ⊢
      refine (turn_empty hread h.bufpos hline).mono (Nat.le_refl _) ?_
      rintro r s'' ⟨-, hat⟩
      exact hnone _ _ _ (h.later hat)
    · refine turn_header hread h.bufpos hline (by simp) hempty ?_ fun m _ s'' hat => ?_
      · exact fun _ s'' hat => hnone _ _ _ (h.later hat)
      · exact hnext _ _ _ (by omega) (h.later hat)

theorem headersLoop_quiet {k : Nat} {ta : Transaction} (hJ : Steady J) (h : Quiet J stream p s)
    (hp : 0 < p) : Inside J stream (headersLoop k ta) s fun _ s' => ∃ q, Quiet J stream q s' := by
  induction k generalizing p s ta with
  | zero => exact Inside.throw rfl (by decide)
  | succ k ih =>
    cases hlines : lines (stream.drop p) with
    | mk ls tail =>
      cases ls with
      | nil =>
        obtain ⟨hline, hl⟩ := lines_nil hlines
        rw [hline] at hl
        have hlength : p + tail.length = stream.length := by
          refine drop_length ?_ hline
          rw [← h.bufpos]
          exact Nat.le_trans h.inv.bufpos_le h.inv.received_le
        refine (readline_at_end hJ h.inv h.bufpos hline hl).bind (Nat.le_refl _) ?_
        rintro r s₁ ⟨⟨rfl, -⟩, hread⟩
        dsimp only
        split
        · rw [← hlength] at hread
          have hall : stream.drop p = tail ++ [] := by rw [hline, List.append_nil]
          refine turn_quiet h hp hall hread ?_ ?_
          · exact fun _ q _ hquiet => ⟨q, hquiet⟩
          · exact fun _ q _ hq hquiet => ih hquiet hq
        · rw [headerTurn, if_pos (by decide)]
          exact Runs.ok (pure_ok _) ⟨_, h.later (hread.at h.bufpos Patched.refl)⟩
      | cons l ls =>
        obtain ⟨l', rest, rfl, hl', hline, -⟩ := lines_cons hlines
        have hline' : stream.drop p = (l' ++ [LF]) ++ rest := by
          rw [hline]
          simp
        have hlength := congrArg List.length hline'
        rw [List.length_drop, List.length_append] at hlength
        have hpos : 0 < (l' ++ [LF]).length := by simp
        refine (readline_at hJ h.inv h.bufpos hline hl').bind (by omega) ?_
        rintro r s₁ ⟨rfl, hread⟩
        refine turn_quiet h hp hline' hread ?_ ?_
        · exact fun _ q _ hquiet => ⟨q, hquiet⟩
        · exact fun _ q _ hq hquiet => ih hquiet hq

theorem bufioOffset2ptr_inside {offset : Nat} :
    Inside J stream (bufioOffset2ptr offset) s fun r s' =>
      (r = offset ∧ s' = s) ∧ (offset : Int) < s.buf.len := by
  by_cases hlt : (offset : Int) < s.buf.len
  · exact Runs.ok (bufioOffset2ptr_ok hlt) ⟨⟨rfl, rfl⟩, hlt⟩
  · refine Inside.throw (e := .assertion) ?_ (by decide)
    have hassert : assertInside offset s = .error .assertion := by
      rw [assertInside, bind_ok get_ok, if_neg hlt]
      rfl
    rw [bufioOffset2ptr, bind_error hassert]

structure Padded (J : Nat → List Chunk → Prop) (stream : Bytes) (s : Bufio) : Prop where
  inv : ∃ lo, Inv J stream lo s
  zero : ∀ i, received s ≤ i → s.buf.buf i = 0

theorem Quiet.padded (h : Quiet J stream p s) : Padded J stream s :=
  ⟨⟨p, h.inv⟩, h.zero⟩

theorem readBody_quiet {ta : Transaction} (hJ : Steady J) (h : Quiet J stream p s) :
    Inside J stream (readBody ta) s fun r s' => r = none ∨ Padded J stream s' := by
  rw [readBody]
  split
  · refine (read_runs ta.reqContentLen.toNat hJ h.inv).bind (Nat.min_le_right ..) ?_
    rintro ⟨rc, off⟩ s₁ ⟨hoff, hcases⟩
    dsimp only at hoff hcases ⊢
    subst hoff
    split
    · exact Runs.ok (pure_ok _) (Or.inl rfl)
    · rcases hcases with ⟨-, -, hadv⟩ | ⟨hrc, -⟩
      · refine bufioOffset2ptr_inside.bind (Nat.le_refl _) ?_
        rintro r s₂ ⟨⟨-, rfl⟩, -⟩
        refine Runs.ok (pure_ok _) (Or.inr ⟨⟨p, hadv.inv⟩, fun i hi => ?_⟩)
        rw [hadv.later.beyond i hi]
        exact h.zero i (Nat.le_trans hadv.later.received hi)
      · omega
  · exact Runs.ok (pure_ok _) (Or.inr h.padded)

theorem view_inside {r : Option Transaction} (h : r = none ∨ Padded J stream s) :
    Inside J stream (view r) s fun _ _ => True := by
  cases r with
  | none => exact Runs.ok (pure_ok _) trivial
  | some ta =>
    obtain ⟨⟨lo, hinv⟩, hzero⟩ := h.resolve_left (Option.some_ne_none ta)
    refine bufioOffset2ptr_inside.bind (Nat.le_refl _) ?_
    rintro r s₁ ⟨⟨rfl, rfl⟩, hlt⟩
    have hlen := hinv.len
    have hfits := hinv.fits
    obtain ⟨l, after, hholds, hl, -⟩ := Storage.exists_text (b := s₁.buf.storage)
      (p := ta.reqPath) (hzero _ (Nat.le_refl _)) (by omega) (by show _ < s₁.buf.cap.toNat; omega)
    exact Runs.after (stringAt_ok hholds hl) (Runs.after get_ok (Runs.ok (pure_ok _) trivial))

theorem requestRead_quiet (hJ : Steady J) (h : Quiet J stream 0 s) :
    Inside J stream requestRead s fun _ _ => True := by
  have hread : Inside J stream readRequest s fun r s' => r = none ∨ Padded J stream s' := by
    rw [readRequest]
    cases hlines : lines (stream.drop 0) with
    | mk ls tail =>
      cases ls with
      | nil =>
        obtain ⟨hline, hl⟩ := lines_nil hlines
        rw [hline] at hl
        refine (parseRequest_end hJ h.inv h.bufpos hline hl).bind (Nat.le_refl _) ?_
        rintro r s₁ ⟨-, hat⟩
        cases r with
        | none => exact Runs.ok (pure_ok _) (Or.inl rfl)
        | some ta =>
          have hheaders : Inside J stream (httpProcessHeaders ta) s₁
              fun r _ => r = none ∧ stream.length < LIMIT :=
            Runs.after get_ok (headersLoop_nothing hJ hat.inv hat.bufpos rfl)
          refine hheaders.bind (Nat.le_refl _) ?_
          rintro r s₂ ⟨rfl, -⟩
          exact Runs.ok (pure_ok _) (Or.inl rfl)
      | cons l ls =>
        obtain ⟨l', rest, rfl, hl', hline, -⟩ := lines_cons hlines
        have hlength := congrArg List.length hline
        simp only [List.length_drop, List.length_append, List.length_cons] at hlength
        refine (parseRequest_runs hJ h.inv h.bufpos hline hl').bind (by simp; omega) ?_
        rintro r s₁ ⟨hat, -⟩
        cases r with
        | none => exact Runs.ok (pure_ok _) (Or.inl rfl)
        | some ta =>
          have hheaders : Inside J stream (httpProcessHeaders ta) s₁
              fun _ s' => ∃ q, Quiet J stream q s' :=
            Runs.after get_ok (headersLoop_quiet hJ (h.later hat) (by simp))
          refine hheaders.bind (Nat.le_refl _) ?_
          rintro r s₂ ⟨q, hquiet⟩
          cases r with
          | none => exact Runs.ok (pure_ok _) (Or.inl rfl)
          | some ta => exact readBody_quiet hJ hquiet
  exact hread.bind (Nat.le_refl _) fun r s' hr => view_inside hr

end Quiet

section Splits

def singles (l : Bytes) : List Chunk :=
  l.map fun c => ⟨[c], List.cons_ne_nil c [], Nat.le_of_ble_eq_true rfl⟩

theorem streamOf_singles {l : Bytes} : streamOf (singles l) = l := by
  induction l with
  | nil => rfl
  | cons c l ih => exact congrArg (c :: ·) ih

theorem streamOf_append {input input' : List Chunk} :
    streamOf (input ++ input') = streamOf input ++ streamOf input' := by
  simp [streamOf]

theorem length_single {l : Bytes} {c : Chunk} (h : c ∈ singles l) : c.bytes.length = 1 := by
  obtain ⟨x, -, rfl⟩ := List.mem_map.mp h
  rfl

def OneByOne (r : Nat) (input : List Chunk) : Prop :=
  r ≤ LIMIT ∧ ∀ c ∈ input, c.bytes.length = 1

theorem steady_oneByOne : Steady OneByOne := by
  intro r c input ⟨_, hinput⟩ hlt
  have hc := hinput c List.mem_cons_self
  exact ⟨by omega, fun d hd => hinput d (List.mem_cons_of_mem c hd)⟩

/-- Bytes come one by one up to `cut`, and then those of a chunk. -/
def Leaping (stream : Bytes) (cut : Nat) (c : Chunk) (rest : List Chunk) (r : Nat)
    (input : List Chunk) : Prop :=
  r ≤ cut ∧ input = singles ((stream.take cut).drop r) ++ c :: rest ∨ r = cut + c.bytes.length

theorem steady_leaping {cut : Nat} {c : Chunk} {rest : List Chunk} (hcut : cut ≤ stream.length)
    (hlimit : LIMIT ≤ cut + c.bytes.length) : Steady (Leaping stream cut c rest) := by
  rintro r d input (⟨hle, hinput⟩ | rfl) hlt
  · have hlength : (stream.take cut).length = cut := by
      rw [List.length_take]
      omega
    rcases Nat.eq_or_lt_of_le hle with rfl | hless
    · rw [List.drop_eq_nil_of_le (by omega)] at hinput
      obtain ⟨rfl, -⟩ := List.cons.inj hinput
      exact Or.inr rfl
    · rw [List.drop_eq_getElem_cons (by omega)] at hinput
      obtain ⟨rfl, rfl⟩ := List.cons.inj hinput
      exact Or.inl ⟨hless, rfl⟩
  · omega

theorem exists_leap {cut used : Nat} (hcut : cut < used) (hused : used ≤ stream.length)
    (hfits : used ≤ cut + READSIZE) :
    ∃ c rest, cut + c.bytes.length = used ∧
      streamOf (singles (stream.take cut) ++ c :: rest) = stream := by
  have hlength : ((stream.drop cut).take (used - cut)).length = used - cut := by
    rw [List.length_take, List.length_drop]
    omega
  have hnonempty : (stream.drop cut).take (used - cut) ≠ [] := by
    rw [← List.length_pos_iff, hlength]
    omega
  refine ⟨⟨(stream.drop cut).take (used - cut), hnonempty, by omega⟩, singles (stream.drop used), ?_, ?_⟩
  · show cut + ((stream.drop cut).take (used - cut)).length = used
    omega
  · have hdrop : stream.drop used = (stream.drop cut).drop (used - cut) := by
      rw [List.drop_drop, Nat.add_sub_cancel' (Nat.le_of_lt hcut)]
    rw [streamOf_append, streamOf_singles]
    show stream.take cut ++ ((stream.drop cut).take (used - cut) ++
      streamOf (singles (stream.drop used))) = stream
    rw [streamOf_singles, hdrop, List.take_append_drop, List.take_append_drop]

def AnyChunks (r : Nat) (_ : List Chunk) : Prop := r < LIMIT + READSIZE

theorem steady_anyChunks : Steady AnyChunks := by
  intro r c _ _ hlt
  have hfits := c.fits
  show r + c.bytes.length < LIMIT + READSIZE
  omega

end Splits

section Outcome

theorem outcome_ok {r : Option Request} (h : requestRead (bufioCreate fresh input ending) = .ok (r, s)) :
    outcome fresh input ending = .ok r := by
  rw [outcome, h]
  rfl

theorem outcome_error {e : Stop} (h : requestRead (bufioCreate fresh input ending) = .error e) :
    outcome fresh input ending = .error e := by
  rw [outcome, h]
  rfl

theorem outcome_exit (hJ : Steady J) (h : J 0 input)
    (hnot : ¬ Reached J (requestAt ending (streamOf input) 0).used
      (requestAt ending (streamOf input) 0).atEnd) : outcome fresh input ending = .error .exit := by
  rcases requestRead_reached hJ (inv_create fresh ending h) rfl with
    ⟨hexit, -⟩ | ⟨_, -, hreached⟩ | ⟨_, _, -, hreached⟩
  · exact outcome_error hexit
  · exact absurd hreached hnot
  · exact absurd hreached hnot

theorem outcome_answer (hJ : Steady J) (h : J 0 input)
    (hverdict : (requestAt ending (streamOf input) 0).verdict ≠ .runsOn)
    (hlate : ¬ Late J (requestAt ending (streamOf input) 0).used) :
    outcome fresh input ending = .ok (answer (requestAt ending (streamOf input) 0).verdict) := by
  rcases requestRead_answer (E := fun _ => False) hJ
      (inv_create fresh ending h) rfl hverdict with
    ⟨-, hexit⟩ | ⟨_, -, hstop⟩ | ⟨r, _, hok, rfl⟩
  · exact absurd hexit hlate
  · exact hstop.elim
  · exact outcome_ok hok

theorem not_late_of_le {n : Nat} (h : n ≤ LIMIT) : ¬ Late J n := by
  rintro ⟨r, input, -, hr, hlt⟩
  omega

theorem outcome_settled (h : Settled ending (streamOf input)) :
    outcome fresh input ending = if (requestAt ending (streamOf input) 0).used ≤ LIMIT then
      .ok (answer (requestAt ending (streamOf input) 0).verdict) else .error .exit := by
  have hJ : AnyChunks 0 input := by
    show 0 < LIMIT + READSIZE
    decide
  rcases h with ⟨hverdict, hused⟩ | hlong
  · rw [if_pos hused]
    exact outcome_answer steady_anyChunks hJ hverdict (not_late_of_le hused)
  · have hread : READSIZE = 2048 := rfl
    cases hatEnd : (requestAt ending (streamOf input) 0).atEnd with
    | true =>
      rw [hatEnd, reach, if_pos rfl] at hlong
      rw [if_neg (by omega)]
      refine outcome_exit steady_anyChunks hJ fun hreached => ?_
      rw [hatEnd, Reached, if_pos rfl] at hreached
      omega
    | false =>
      rw [hatEnd, reach, if_neg Bool.false_ne_true] at hlong
      rw [if_neg (by omega)]
      refine outcome_exit steady_anyChunks hJ fun hreached => ?_
      rw [hatEnd, Reached, if_neg Bool.false_ne_true] at hreached
      obtain ⟨r, _, hr, hle⟩ := hreached
      have hbound : r < LIMIT + READSIZE := hr
      omega

end Outcome

section Runs

theorem not_independent_of_runsOn (hverdict : (requestAt ending stream 0).verdict = .runsOn)
    (hused : (requestAt ending stream 0).used ≤ LIMIT) : ¬ Independent ending stream := by
  intro hindependent
  have hsame := hindependent (fun _ => 0) (fun _ => 1) (singles stream) (singles stream)
    streamOf_singles streamOf_singles
  have hstart : OneByOne 0 (singles stream) := ⟨Nat.zero_le _, fun c hc => length_single hc⟩
  have htight : ∀ fresh, Tight (bufioCreate fresh (singles stream) ending) :=
    fun fresh => ⟨rfl, fun c hc => length_single hc⟩
  have hinv : ∀ fresh, Inv OneByOne stream 0 (bufioCreate fresh (singles stream) ending) := by
    intro fresh
    have hcreate := inv_create fresh ending hstart
    rwa [streamOf_singles] at hcreate
  have hones : outcome (fun _ => 1) (singles stream) ending = .error .outOfBounds := by
    rcases requestRead_overrun steady_oneByOne (hinv _) rfl hverdict (fun _ => rfl)
        (fun s' hat => (hat.since.tight (htight _)).1.trans hat.bufpos) with
      ⟨-, hlate⟩ | ⟨e, herror, rfl⟩ | ⟨_, _, -, hfalse⟩
    · exact absurd hlate (not_late_of_le hused)
    · exact outcome_error herror
    · exact hfalse.elim
  have hzeros : outcome (fun _ => 0) (singles stream) ending ≠ .error .outOfBounds := by
    rcases requestRead_quiet steady_oneByOne ⟨hinv _, rfl, htight _, fun _ _ => rfl⟩ with
      ⟨hexit, -⟩ | ⟨e, herror, hne⟩ | ⟨r, _, hok, -⟩
    · rw [outcome_error hexit]
      exact fun h => nomatch h
    · rw [outcome_error herror]
      intro h
      cases h
      exact hne rfl
    · rw [outcome_ok hok]
      exact fun h => nomatch h
  exact hzeros (hsame.trans hones)

theorem not_independent_of_window (hatEnd : (requestAt ending stream 0).atEnd = false)
    (hlimit : LIMIT < (requestAt ending stream 0).used)
    (hreach : (requestAt ending stream 0).used < LIMIT + READSIZE) :
    ¬ Independent ending stream := by
  intro hindependent
  have hused : (requestAt ending stream 0).used ≤ stream.length :=
    requestAt_used_le (Nat.zero_le _) hatEnd
  obtain ⟨cut, hcut⟩ : ∃ cut, LIMIT = cut + 1 := ⟨LIMIT - 1, rfl⟩
  obtain ⟨c, rest, hend, hstream⟩ := exists_leap
    (show cut < (requestAt ending stream 0).used by omega) hused (by omega)
  have hsame := hindependent (fun _ => 1) (fun _ => 1) _ _ hstream streamOf_singles
  have hexit : outcome (fun _ => 1) (singles stream) ending = .error .exit := by
    refine outcome_exit steady_oneByOne ⟨Nat.zero_le _, fun c hc => length_single hc⟩ ?_
    rw [streamOf_singles, hatEnd, Reached, if_neg Bool.false_ne_true]
    rintro ⟨r, _, hr, hle⟩
    have hbound := hr.1
    omega
  have hsteady : Steady (Leaping stream cut c rest) := steady_leaping (by omega) (by omega)
  have hstart : Leaping stream cut c rest 0 (singles (stream.take cut) ++ c :: rest) :=
    Or.inl ⟨Nat.zero_le _, rfl⟩
  have hlate : ¬ Late (Leaping stream cut c rest) (requestAt ending stream 0).used := by
    rintro ⟨r, _, ⟨hle, -⟩ | rfl, hr, hlt⟩
    · omega
    · omega
  rw [hexit] at hsame
  by_cases hverdict : (requestAt ending stream 0).verdict = .runsOn
  · have hcreate := inv_create (fun _ => 1) ending hstart
    rw [hstream] at hcreate
    have hall : ∀ s', At (Leaping stream cut c rest) stream (requestAt ending stream 0).used
        (bufioCreate (fun _ => 1) (singles (stream.take cut) ++ c :: rest) ending) s' →
          received s' = (requestAt ending stream 0).used := by
      intro s' hat
      have hpos := hat.inv.bufpos_le
      have hbufpos := hat.bufpos
      rcases hat.inv.delivery with ⟨hle, -⟩ | hreceived
      · omega
      · exact hreceived.trans hend
    rcases requestRead_overrun hsteady hcreate rfl hverdict (fun _ => rfl) hall with
      ⟨-, hlate'⟩ | ⟨e, herror, rfl⟩ | ⟨_, _, -, hfalse⟩
    · exact hlate hlate'
    · rw [outcome_error herror] at hsame
      cases hsame
    · exact hfalse
  · rw [outcome_answer hsteady hstart (by rwa [hstream]) (by rwa [hstream])] at hsame
    cases hsame

/-- The parser is independent of chunks and storage on the settled streams alone. -/
theorem independent_iff (ending : Ending) (stream : Bytes) :
    Independent ending stream ↔ Settled ending stream := by
  constructor
  · intro hindependent
    by_contra hsettled
    rw [Settled, not_or, not_and, Nat.not_lt, Nat.not_le] at hsettled
    obtain ⟨hshort, hreach⟩ := hsettled
    rcases Nat.lt_or_ge LIMIT (requestAt ending stream 0).used with hlimit | hused
    · cases hatEnd : (requestAt ending stream 0).atEnd with
      | true =>
        rw [hatEnd, reach, if_pos rfl] at hreach
        omega
      | false =>
        rw [hatEnd, reach, if_neg Bool.false_ne_true] at hreach
        have hread : 0 < READSIZE := by decide
        exact not_independent_of_window hatEnd hlimit (by omega) hindependent
    · have hverdict : (requestAt ending stream 0).verdict = .runsOn := by
        by_contra hne
        exact absurd (hshort hne) (by omega)
      exact not_independent_of_runsOn hverdict hused hindependent
  · rintro hsettled fresh fresh' input input' rfl hinput'
    rw [outcome_settled hsettled, outcome_settled (by rwa [hinput']), hinput']

def bareLine : Bytes := ascii "GET / HTTP/1.1\r\n\nContent-Length: 3\r\n\r\nabc"

/-- In one chunk, the content length is taken for a part of the line before it. -/
theorem bareLine_dependent : ¬ Independent .eof bareLine := by
  intro hindependent
  have hapart : outcome (fun _ => 0) (singles bareLine) .eof =
      .ok (some ⟨.HTTP_GET, ascii "/", .HTTP_1_1, 3, ascii "abc"⟩) := by
    decide +kernel
  have htogether : outcome (fun _ => 0) [⟨bareLine, by decide, by decide⟩] .eof =
      .ok (some ⟨.HTTP_GET, ascii "/", .HTTP_1_1, 0, []⟩) := by
    decide +kernel
  have hsame := hindependent (fun _ => 0) (fun _ => 0) (singles bareLine)
    [⟨bareLine, by decide, by decide⟩] streamOf_singles rfl
  rw [hapart, htogether] at hsame
  cases hsame

end Runs

end ComputerSystems.Pserv.Boundaries
