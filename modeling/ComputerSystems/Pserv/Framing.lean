/- On a kept connection every request is read as it was sent, and none is out of step. -/

import ComputerSystems.Pserv.Boundaries
import ComputerSystems.Pserv.KeepAlive

set_option autoImplicit false
set_option relaxedAutoImplicit false

namespace ComputerSystems.Pserv.Framing

open ComputerSystems.Memory.CStrings
open ComputerSystems.Systems.Computations
open ComputerSystems.Pserv.Strings
open ComputerSystems.Pserv.Buffers
open ComputerSystems.Pserv.Input
open ComputerSystems.Pserv.Receiving
open ComputerSystems.Pserv.Requests
open ComputerSystems.Pserv.Parsing
open ComputerSystems.Pserv.Streams
open ComputerSystems.Pserv.Outcomes
open ComputerSystems.Pserv.Boundaries
open ComputerSystems.Pserv.Responses
open ComputerSystems.Pserv.Messages
open ComputerSystems.Pserv.Transactions
open ComputerSystems.Pserv.KeepAlive

def IsWord (w : Bytes) : Prop := w ≠ [] ∧ SP ∉ w ∧ NUL ∉ w ∧ LF ∉ w

structure Field where
  name : Bytes
  value : Bytes
  name_ne : name ≠ []
  name_text : COLON ∉ name ∧ NUL ∉ name ∧ LF ∉ name
  value_text : NUL ∉ value ∧ LF ∉ value

def Field.isLength (f : Field) : Bool := sameText f.name (ascii "Content-Length")

def Field.line (f : Field) : Bytes := f.name ++ COLON :: f.value

/-- The headers tell the length of a body: at most one of them is a content length, and without one
there is no body. -/
def Tells (fields : List Field) (n : Nat) : Prop :=
  match fields.filter Field.isLength with
  | [] => n = 0
  | [f] => ∃ blanks digits, f.value = blanks ++ digits ∧ (∀ c ∈ blanks, isBlank c = true) ∧
      Spells digits n
  | _ => False

/-- A well-formed request. -/
structure Sent where
  method : Bytes
  path : Bytes
  version : Version
  fields : List Field
  body : Bytes
  method_word : IsWord method
  path_word : IsWord path
  tells : Tells fields body.length

def nameOf : Version → Bytes
  | .HTTP_1_0 => ascii "HTTP/1.0"
  | .HTTP_1_1 => ascii "HTTP/1.1"

def Sent.first (r : Sent) : Bytes := r.method ++ SP :: (r.path ++ SP :: nameOf r.version)

def Sent.bytes (r : Sent) : Bytes :=
  block (r.first :: r.fields.map Field.line) ++ r.body

def Sent.request (r : Sent) : Request :=
  ⟨methodOf r.method, r.path, r.version, r.body.length, r.body⟩

section Lines

variable {l rest text : Bytes} {stream : Bytes} {ending : Ending} {p : Nat}

theorem lines_line (h : LF ∉ l) :
    lines (l ++ CR :: LF :: rest) = ((l ++ [CR, LF]) :: (lines rest).1, (lines rest).2) := by
  induction l with
  | nil => simp [lines, CR, LF]
  | cons c l ih =>
    rw [List.mem_cons, not_or] at h
    rw [List.cons_append, lines, if_neg (Ne.symm h.1), ih h.2]
    rfl

theorem lineText_line (h : NUL ∉ text) : lineText (text ++ [CR, LF]) = text := by
  have htake : (text ++ [CR, LF]).take ((text ++ [CR, LF]).length - 2) = text := by
    rw [List.length_append]
    exact List.take_left
  rw [lineText, htake, List.takeWhile_eq_self_iff]
  intro c hc
  rw [bne_iff_ne]
  rintro rfl
  exact h hc

theorem token_first {c : UInt8} {w : Bytes} (hne : w ≠ []) (hw : c ∉ w) :
    token [c] (w ++ c :: rest) = some (w, rest) := by
  obtain ⟨d, w, rfl⟩ := List.exists_cons_of_ne_nil hne
  rw [List.mem_cons, not_or] at hw
  have hall : ∀ x ∈ w, (!([c].contains x)) = true := by
    intro x hx
    have hxc : x ≠ c := by
      rintro rfl
      exact hw.2 hx
    simpa using hxc
  have hd : [c].contains d = false := by simpa using Ne.symm hw.1
  rw [token, List.cons_append, List.dropWhile_cons_of_neg (by simp [Ne.symm hw.1])]
  dsimp only
  rw [List.takeWhile_cons_of_pos (by rw [hd]; rfl), List.dropWhile_cons_of_pos (by rw [hd]; rfl),
    List.takeWhile_append_of_pos hall, List.dropWhile_append_of_pos hall,
    List.takeWhile_cons_of_neg (by simp), List.dropWhile_cons_of_neg (by simp), List.append_nil]
  rfl

theorem token_whole {c : UInt8} {w : Bytes} (hne : w ≠ []) (hw : c ∉ w) :
    token [c] w = some (w, []) := by
  obtain ⟨d, w, rfl⟩ := List.exists_cons_of_ne_nil hne
  rw [List.mem_cons, not_or] at hw
  have hall : ∀ x ∈ d :: w, (!([c].contains x)) = true := by
    intro x hx
    have hxc : x ≠ c := by
      rintro rfl
      exact (List.mem_cons.mp hx).elim hw.1 hw.2
    simpa using hxc
  rw [token, List.dropWhile_cons_of_neg (by simp [Ne.symm hw.1])]
  dsimp only
  rw [List.takeWhile_eq_self_iff.mpr hall, List.dropWhile_eq_nil_iff.mpr hall]
  rfl

end Lines

section Requests

variable {r : Sent} {rest stream : Bytes} {ending : Ending} {p : Nat} {fields : List Field}

theorem requestLine_first (r : Sent) :
    requestLine (lineText (r.first ++ [CR, LF])) = some (methodOf r.method, r.path, r.version) := by
  obtain ⟨hmethod, hmethodSp, hmethodNul, -⟩ := r.method_word
  obtain ⟨hpath, hpathSp, hpathNul, -⟩ := r.path_word
  have hnul : NUL ∉ r.first := by
    simp only [Sent.first, List.mem_append, List.mem_cons, not_or]
    refine ⟨hmethodNul, by decide, hpathNul, by decide, ?_⟩
    cases r.version <;> decide
  have hversion : token [CR] (nameOf r.version) = some (nameOf r.version, []) := by
    cases r.version <;> exact token_whole (by decide) (by decide)
  rw [lineText_line hnul, requestLine, Sent.first, token_first hmethod hmethodSp]
  simp only [Option.bind_eq_bind, Option.bind_some, token_first hpath hpathSp, hversion]
  cases r.version <;> rfl

theorem headerLine_field (f : Field) (contentLen : Int) :
    headerLine contentLen (lineText (f.line ++ [CR, LF])) =
      some (if f.isLength then textToInt (f.value.dropWhile isBlank) else contentLen) := by
  have hnul : NUL ∉ f.line := by
    simp only [Field.line, List.mem_append, List.mem_cons, not_or]
    exact ⟨f.name_text.2.1, by decide, f.value_text.1⟩
  rw [lineText_line hnul, headerLine, Field.line, token_first f.name_ne f.name_text.1]
  rfl

theorem textToInt_value {value blanks digits : Bytes} {n : Nat} (hvalue : value = blanks ++ digits)
    (hblanks : ∀ c ∈ blanks, isBlank c = true) (hdigits : Spells digits n) (hn : n < 2 ^ 31) :
    textToInt (value.dropWhile isBlank) = n := by
  have hdecimal := hdigits.2.2
  rw [hvalue, List.dropWhile_append_of_pos hblanks, hdigits.dropBlanks,
    textToInt_digits hdigits.2.1 (by omega), hdecimal]

def lengthAfter (contentLen : Int) (fields : List Field) : Int :=
  fields.foldl (fun n f => if f.isLength then textToInt (f.value.dropWhile isBlank) else n) contentLen

theorem lengthAfter_cons {f : Field} {contentLen : Int} :
    lengthAfter contentLen (f :: fields) = lengthAfter
      (if f.isLength then textToInt (f.value.dropWhile isBlank) else contentLen) fields :=
  rfl

theorem lengthAfter_filter {contentLen : Int} :
    lengthAfter contentLen fields = lengthAfter contentLen (fields.filter Field.isLength) := by
  induction fields generalizing contentLen with
  | nil => rfl
  | cons f fields ih =>
    by_cases hf : f.isLength = true
    · rw [List.filter_cons_of_pos hf, lengthAfter_cons, lengthAfter_cons, ih]
    · rw [List.filter_cons_of_neg hf, lengthAfter_cons, if_neg hf, ih]

theorem lengthAfter_tells {n : Nat} (h : Tells fields n) (hn : n < 2 ^ 31) :
    lengthAfter 0 fields = n := by
  rw [lengthAfter_filter]
  rw [Tells] at h
  have hall : ∀ f ∈ fields.filter Field.isLength, f.isLength = true :=
    fun f hf => (List.mem_filter.mp hf).2
  split at h
  · rename_i hnone
    rw [hnone, h]
    rfl
  · rename_i f hone
    obtain ⟨blanks, digits, hvalue, hblanks, hdigits⟩ := h
    rw [hone] at hall ⊢
    rw [lengthAfter_cons, if_pos (hall f List.mem_cons_self),
      textToInt_value hvalue hblanks hdigits hn]
    rfl
  · exact h.elim

theorem headers_fields {tail : Bytes} {ls : List Bytes} (contentLen : Int) :
    headers ending tail (fields.map (fun f => f.line ++ [CR, LF]) ++ [CR, LF] :: ls) p contentLen =
      ⟨.accepted (lengthAfter contentLen fields),
        p + (block (fields.map Field.line)).length, false⟩ := by
  induction fields generalizing p contentLen with
  | nil => rfl
  | cons f fields ih =>
    have hlength : 3 ≤ (f.line ++ [CR, LF]).length := by
      simp only [Field.line, List.length_append, List.length_cons, List.length_nil]
      omega
    have hne : f.line ++ [CR, LF] ≠ [CR, LF] := by
      intro h
      rw [h] at hlength
      exact absurd hlength (by decide)
    rw [List.map_cons, List.cons_append, headers, if_neg hne, if_neg (by omega), headerLine_field]
    dsimp only
    rw [ih, lengthAfter_cons, List.map_cons, block_cons]
    simp only [List.length_append, List.length_cons, List.length_nil, Decision.mk.injEq, true_and,
      and_true]
    omega

theorem lines_block {ls : List Bytes} (h : ∀ l ∈ ls, LF ∉ l) :
    lines (block ls ++ rest) = (ls.map (· ++ [CR, LF]) ++ [CR, LF] :: (lines rest).1,
      (lines rest).2) := by
  induction ls with
  | nil => exact lines_line List.not_mem_nil
  | cons l ls ih =>
    rw [block_cons, List.append_assoc]
    show lines (l ++ CR :: LF :: (block ls ++ rest)) = _
    rw [lines_line (h l List.mem_cons_self), ih fun k hk => h k (List.mem_cons_of_mem l hk)]
    rfl

theorem requestAt_sent (hp : p ≤ stream.length) (hstream : stream.drop p = r.bytes ++ rest)
    (hshort : r.bytes.length < 2 ^ 31) :
    requestAt ending stream p = ⟨.accepted r.request, p + r.bytes.length, false⟩ := by
  have hlf : ∀ l ∈ r.first :: r.fields.map Field.line, LF ∉ l := by
    intro l hl
    rcases List.mem_cons.mp hl with rfl | hl
    · simp only [Sent.first, List.mem_append, List.mem_cons, not_or]
      refine ⟨r.method_word.2.2.2, by decide, r.path_word.2.2.2, by decide, ?_⟩
      cases r.version <;> decide
    · obtain ⟨f, -, rfl⟩ := List.mem_map.mp hl
      simp only [Field.line, List.mem_append, List.mem_cons, not_or]
      exact ⟨f.name_text.2.2, by decide, f.value_text.2⟩
  have hlines : lines (stream.drop p) = ((r.first ++ [CR, LF]) ::
      (r.fields.map (fun f => f.line ++ [CR, LF]) ++ [CR, LF] :: (lines (r.body ++ rest)).1),
        (lines (r.body ++ rest)).2) := by
    rw [hstream, Sent.bytes, List.append_assoc, lines_block hlf, List.map_cons, List.map_map]
    rfl
  have hbytes : r.bytes.length = (r.first ++ [CR, LF]).length +
      (block (r.fields.map Field.line)).length + r.body.length := by
    simp only [Sent.bytes, block_cons, List.length_append, List.length_cons, List.length_nil]
    omega
  have hbody : lengthAfter 0 r.fields = r.body.length := lengthAfter_tells r.tells (by omega)
  rw [requestAt, hlines]
  dsimp only
  rw [requestLine_first]
  dsimp only
  rw [headers_fields, ofHeaders, hbody]
  dsimp only
  have hdrop : stream.drop (p + (r.first ++ [CR, LF]).length +
      (block (r.fields.map Field.line)).length) = r.body ++ rest := by
    have hhead : r.bytes = ((r.first ++ [CR, LF]) ++ block (r.fields.map Field.line)) ++ r.body := by
      simp [Sent.bytes, block_cons]
    rw [Nat.add_assoc, ← List.drop_drop, hstream, hhead, List.append_assoc, ← List.length_append,
      List.drop_left]
  have hlength := congrArg List.length hstream
  rw [List.length_drop, List.length_append] at hlength
  rw [bodyAt, Sent.request]
  by_cases hnone : r.body = []
  · rw [hnone, if_pos (by simp), hbytes, hnone, List.length_nil, Nat.add_zero, Nat.add_assoc]
  · have hpos := List.length_pos_iff.mpr hnone
    dsimp only
    rw [if_neg (by omega), Int.toNat_natCast, if_pos (by omega), hdrop, List.take_left, hbytes]
    simp only [Decision.mk.injEq, true_and, and_true]
    omega

end Requests

section Connections

variable {stream : Bytes} {p q : Nat} {s : Bufio} {conn conn' : Connection} {env : Environment}
variable {rs : List Sent}

/-- The connection stands at the offset `p` of the stream. -/
structure Stands (stream : Bytes) (p : Nat) (s : Bufio) : Prop where
  inv : Inv AnyChunks stream p s
  bufpos : s.bufpos = p

theorem readRequest_accepted {r : Request} (h : Stands stream p s)
    (hrequest : requestAt s.ending stream p = ⟨.accepted r, q, false⟩) (hq : q ≤ LIMIT) :
    ∃ ta s', readRequest s = .ok (some ta, s') ∧ Understood s' ta r ∧ Stands stream q s' ∧
      s'.ending = s.ending := by
  have hread : Runs AnyChunks (fun _ => False) q readRequest s fun x s' =>
      ∃ ta, x = some ta ∧ Accepted AnyChunks stream q s ta r s' := by
    refine readRequest_runs steady_anyChunks h.inv h.bufpos (by rw [hrequest]) ?_
    rw [hrequest]
    exact fun ta s' hacc => ⟨ta, rfl, hacc⟩
  rcases hread with ⟨-, hlate⟩ | ⟨_, -, hfalse⟩ | ⟨_, s', hok, ta, rfl, hacc⟩
  · exact absurd hlate (not_late_of_le hq)
  · exact hfalse.elim
  · exact ⟨ta, s', hok, hacc.understood, ⟨hacc.inv, hacc.bufpos⟩, hacc.ending⟩

theorem path_same {offset : Nat} {s' : Bufio} {l : Bytes}
    (h : (do stringAt (← bufioOffset2ptr offset) : Io Bytes) s = .ok (l, s')) : s' = s := by
  by_cases hinside : (offset : Int) < s.buf.len
  · rw [bind_ok (bufioOffset2ptr_ok hinside), stringAt, bind_ok get_ok] at h
    cases htext : s.buf.storage.text offset with
    | none =>
      rw [htext] at h
      cases h
    | some text =>
      rw [htext] at h
      cases h
      rfl
  · have hassert : assertInside offset s = .error .assertion := by
      rw [assertInside, bind_ok get_ok, if_neg hinside]
      rfl
    rw [bufioOffset2ptr, bind_error (bind_error hassert)] at h
    cases h

/-- After `k` transactions on a connection, all of which returned `true`. -/
inductive Kept : Nat → Connection → Connection → Prop where
  | start (conn : Connection) : Kept 0 conn conn
  | next {k : Nat} {conn conn' conn'' : Connection} (env : Environment) :
      Kept k conn conn' → httpHandleTransaction env conn' = .ok (true, conn'') →
      Kept (k + 1) conn conn''

theorem transaction_bufio {ta : Transaction} {rc : Bool} {s' : Bufio}
    (hread : readRequest conn.bufio = .ok (some ta, s'))
    (hrun : httpHandleTransaction env conn = .ok (rc, conn')) : conn'.bufio = s' := by
  obtain ⟨⟨request, bufio⟩, hread', hrun⟩ := lift_bind_inv (get_bind_inv hrun)
  rw [hread] at hread'
  cases hread'
  obtain ⟨⟨reqPath, bufio'⟩, hpath, hrun⟩ := lift_bind_inv (set_bind_inv hrun)
  obtain ⟨_, -, hrun⟩ := lift_bind_inv hrun
  cases hrun
  exact path_same hpath

/-- The handlers run on the request that was read, with its path at `req_path`. -/
theorem transaction_responds {ta : Transaction} {s' : Bufio} {r : Request}
    (hread : readRequest conn.bufio = .ok (some ta, s'))
    (hview : view (some ta) s' = .ok (some r, s')) :
    httpHandleTransaction env conn =
      (respond env ta r.path s' ⟨initResponse env, conn.socket⟩).map fun p =>
        (p.1, ⟨s', p.2.socket⟩) := by
  have hpath : (do stringAt (← bufioOffset2ptr ta.reqPath) : Io Bytes) s' = .ok (r.path, s') := by
    obtain ⟨p, s₁, hptr, hrest⟩ := bind_inv hview
    obtain ⟨path, s₂, htext, hrest⟩ := bind_inv hrest
    cases hrest
    exact (bind_ok hptr).trans htext
  rw [httpHandleTransaction, bind_ok get_ok, bind_ok (lift_ok hread)]
  dsimp only
  rw [bind_ok set_ok, bind_ok (lift_ok hpath)]
  dsimp only
  cases hrespond : respond env ta r.path s' ⟨initResponse env, conn.socket⟩ with
  | error e => exact bind_error (lift_error rfl)
  | ok p => exact bind_ok (lift_ok rfl)

def offset (rs : List Sent) (k : Nat) : Nat := ((rs.take k).flatMap Sent.bytes).length

theorem offset_succ {k : Nat} {r : Sent} (hr : rs[k]? = some r) :
    offset rs (k + 1) = offset rs k + r.bytes.length := by
  obtain ⟨hk, rfl⟩ := List.getElem?_eq_some_iff.mp hr
  rw [offset, offset, List.take_succ_eq_append_getElem hk, List.flatMap_append, List.length_append]
  simp

theorem offset_le {k : Nat} : offset rs k ≤ (rs.flatMap Sent.bytes).length := by
  conv_rhs => rw [← List.take_append_drop k rs, List.flatMap_append, List.length_append]
  exact Nat.le_add_right ..

theorem drop_offset {k : Nat} {r : Sent} (hr : rs[k]? = some r) :
    (rs.flatMap Sent.bytes).drop (offset rs k) =
      r.bytes ++ (rs.drop (k + 1)).flatMap Sent.bytes := by
  obtain ⟨hk, rfl⟩ := List.getElem?_eq_some_iff.mp hr
  have hsplit : rs.flatMap Sent.bytes =
      (rs.take k).flatMap Sent.bytes ++ (rs.drop k).flatMap Sent.bytes := by
    rw [← List.flatMap_append, List.take_append_drop]
  rw [hsplit, offset, List.drop_left, List.drop_eq_getElem_cons hk, List.flatMap_cons]

theorem Stands.reads {k : Nat} {r : Sent} (h : Stands (rs.flatMap Sent.bytes) (offset rs k) s)
    (hshort : (rs.flatMap Sent.bytes).length < 2 ^ 29) (hr : rs[k]? = some r) :
    ∃ ta s', readRequest s = .ok (some ta, s') ∧ Understood s' ta r.request ∧
      Stands (rs.flatMap Sent.bytes) (offset rs (k + 1)) s' := by
  have hnext := offset_succ hr
  have hbound := @offset_le rs (k + 1)
  have hlimit : LIMIT = 1342173184 := rfl
  have hrequest : requestAt s.ending (rs.flatMap Sent.bytes) (offset rs k) =
      ⟨.accepted r.request, offset rs (k + 1), false⟩ := by
    rw [hnext]
    exact requestAt_sent offset_le (drop_offset hr) (by omega)
  obtain ⟨ta, s', hok, hunderstood, hstands, -⟩ := readRequest_accepted h hrequest (by omega)
  exact ⟨ta, s', hok, hunderstood, hstands⟩

theorem Kept.stands {k : Nat} (h : Kept k conn conn') (hk : k ≤ rs.length)
    (hshort : (rs.flatMap Sent.bytes).length < 2 ^ 29)
    (hstart : Stands (rs.flatMap Sent.bytes) 0 conn.bufio) :
    Stands (rs.flatMap Sent.bytes) (offset rs k) conn'.bufio := by
  induction h with
  | start conn => exact hstart
  | @next k _ conn₁ conn₂ env _ hrun ih =>
    obtain ⟨ta, s', hread, -, hstands⟩ :=
      (ih (Nat.le_of_succ_le hk) hstart).reads hshort (List.getElem?_eq_getElem hk)
    rw [transaction_bufio hread hrun]
    exact hstands

/-- The transaction after `k` successful ones reads the request `k` and hands it to the handlers, and
leaves the connection at the first byte of the next one. -/
theorem request_read {fresh : Nat → UInt8} {input : List Chunk} {ending : Ending} {socket : Socket}
    {k : Nat} {r : Sent} (hstream : streamOf input = rs.flatMap Sent.bytes)
    (hshort : (rs.flatMap Sent.bytes).length < 2 ^ 29)
    (hkept : Kept k ⟨bufioCreate fresh input ending, socket⟩ conn) (hr : rs[k]? = some r) :
    ∃ ta s', readRequest conn.bufio = .ok (some ta, s') ∧
      view (some ta) s' = .ok (some r.request, s') ∧
      s'.bufpos = ((rs.take (k + 1)).flatMap Sent.bytes).length ∧
      (∀ env, httpHandleTransaction env conn =
        (respond env ta r.request.path s' ⟨initResponse env, conn.socket⟩).map fun p =>
          (p.1, ⟨s', p.2.socket⟩)) ∧
      ∀ env rc conn', httpHandleTransaction env conn = .ok (rc, conn') → conn'.bufio = s' := by
  have hstart : Stands (rs.flatMap Sent.bytes) 0 (bufioCreate fresh input ending) := by
    rw [← hstream]
    exact ⟨inv_create _ _ (show 0 < LIMIT + READSIZE by decide), rfl⟩
  have hk : k ≤ rs.length := Nat.le_of_lt (List.getElem?_eq_some_iff.mp hr).1
  obtain ⟨ta, s', hread, hunderstood, hstands⟩ := (hkept.stands hk hshort hstart).reads hshort hr
  have hview := view_ok hunderstood hstands.inv.len
  exact ⟨ta, s', hread, hview, hstands.bufpos, fun _ => transaction_responds hread hview,
    fun _ _ _ hrun => transaction_bufio hread hrun⟩

def posted : Sent where
  method := ascii "POST"
  path := ascii "/a"
  version := .HTTP_1_1
  fields := [⟨ascii "Content-Length", ascii " 2", by decide, by decide, by decide⟩]
  body := ascii "xy"
  method_word := ⟨by decide, by decide, by decide, by decide⟩
  path_word := ⟨by decide, by decide, by decide, by decide⟩
  tells := ⟨[SP], ascii "2", rfl, List.all_eq_true.mp rfl, by decide, List.all_eq_true.mp rfl,
    by decide⟩

/-- The same request comes twice in one chunk, and is read a second time. -/
theorem request_read_sample : ∃ conn ta s',
    Kept 1 ⟨bufioCreate (fun _ => 0) [⟨posted.bytes ++ posted.bytes, by decide, by decide⟩] .eof,
      ⟨[.all, .all], []⟩⟩ conn ∧
    readRequest conn.bufio = .ok (some ta, s') ∧
    view (some ta) s' = .ok (some posted.request, s') := by
  have hrun : (httpHandleTransaction site
      ⟨bufioCreate (fun _ => 0) [⟨posted.bytes ++ posted.bytes, by decide, by decide⟩] .eof,
        ⟨[.all, .all], []⟩⟩).map Prod.fst = .ok true := by
    decide +kernel
  cases hresult : httpHandleTransaction site
      ⟨bufioCreate (fun _ => 0) [⟨posted.bytes ++ posted.bytes, by decide, by decide⟩] .eof,
        ⟨[.all, .all], []⟩⟩ with
  | error e =>
    rw [hresult] at hrun
    cases hrun
  | ok r =>
    obtain ⟨rc, conn⟩ := r
    rw [hresult] at hrun
    obtain rfl : rc = true := Except.ok.inj hrun
    have hkept := Kept.next site (Kept.start _) hresult
    have hget : [posted, posted][1]? = some posted := rfl
    obtain ⟨ta, s', hread, hview, -⟩ := request_read rfl (by decide) hkept hget
    exact ⟨conn, ta, s', hkept, hread, hview⟩

end Connections

end ComputerSystems.Pserv.Framing
