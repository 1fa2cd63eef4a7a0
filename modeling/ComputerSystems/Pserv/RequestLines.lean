/- The lines that `http_parse_request` accepts, and what it finds in them. -/

import ComputerSystems.Pserv.Framing
import ComputerSystems.Pserv.Reading

set_option autoImplicit false
set_option relaxedAutoImplicit false

namespace ComputerSystems.Pserv.RequestLines

open ComputerSystems.Memory.CStrings
open ComputerSystems.Systems.Computations
open ComputerSystems.Pserv.Strings
open ComputerSystems.Pserv.Buffers
open ComputerSystems.Pserv.Input
open ComputerSystems.Pserv.Receiving (received)
open ComputerSystems.Pserv.Reading
open ComputerSystems.Pserv.Requests
open ComputerSystems.Pserv.Parsing
open ComputerSystems.Pserv.Streams (lineText)
open ComputerSystems.Pserv.Outcomes
open ComputerSystems.Pserv.Responses (CRLF)
open ComputerSystems.Pserv.Framing (IsWord nameOf token_first token_whole)

/-- What stands in a request line, and how much there is around it: `lead` blanks before the method,
`gap` more before the path, `crs` carriage returns before the version, and `rest` behind it. -/
structure Shape where
  lead : Nat
  method : Bytes
  gap : Nat
  path : Bytes
  crs : Nat
  version : Version
  rest : Bytes
  method_word : IsWord method
  path_word : IsWord path

def Shape.tail (x : Shape) : Bytes := List.replicate x.crs CR ++ (nameOf x.version ++ x.rest)

def Shape.line (x : Shape) : Bytes :=
  List.replicate x.lead SP ++ (x.method ++ SP ::
    (List.replicate x.gap SP ++ (x.path ++ SP :: x.tail)))

/-- The version has nothing around it but the end of the line. -/
def Shape.Exact (x : Shape) : Prop := x.crs = 0 ∧ x.rest = CRLF

/-- Behind the version are two bytes, with nothing before them or what begins with a CR or a NUL. -/
def Shape.Loose (x : Shape) : Prop :=
  ∃ skipped last, x.rest = skipped ++ last ∧ last.length = 2 ∧
    ∀ c ∈ skipped.head?, c = CR ∨ c = NUL

/-- A well-formed request line. -/
def WellFormed (x : Shape) (line : Bytes) : Prop := x.Exact ∧ line = x.line

structure Taken (s : Bufio) (ta : Transaction) (x : Shape) : Prop where
  method : ta.reqMethod = methodOf x.method
  path : HoldsText s ta.reqPath x.path
  version : ta.reqVersion = x.version

/-- `http_parse_request` accepts the line if and only if it is well-formed, and then takes from it
what stands in it. -/
def Strict (ta : Transaction) (s : Bufio) (line : Bytes) : Prop :=
  ∃ r s', httpParseRequest ta s = .ok (r, s') ∧ (r.isSome = true ↔ ∃ x, WellFormed x line) ∧
    ∀ ta' ∈ r, ∀ x, WellFormed x line → Taken s' ta' x

/-- The line looks like a request line to `http_parse_request`, but is none. -/
def Deceptive (line : Bytes) : Prop := ∃ x : Shape, x.Loose ∧ ¬ x.Exact ∧ line = x.line

/-- The position is inside of what is in the buffer, whose length and capacity are `int`s. -/
structure Sane (s : Bufio) : Prop where
  bufpos_le : s.bufpos ≤ s.buf.len
  len : s.buf.len < 2 ^ 31
  cap : s.buf.cap < 2 ^ 31

/-- `bufio_readline` returns the line, which then lies in the buffer. -/
structure Returned (s : Bufio) (line : Bytes) (off : Nat) (s' : Bufio) : Prop where
  result : bufioReadline s = .ok ((line.length, off), s')
  holds : s'.buf.storage.Holds off line

section Shapes

variable {text rest line w : Bytes} {c : UInt8} {n : Nat} {x y : Shape} {v v' : Version}

theorem token_skip : token [c] (List.replicate n c ++ text) = token [c] text := by
  induction n with
  | zero => rfl
  | succ n ih =>
    rw [List.replicate_succ, List.cons_append]
    unfold token at ih ⊢
    rw [List.dropWhile_cons_of_pos (by simp)]
    exact ih

theorem token_word (hne : w ≠ []) (hw : c ∉ w) :
    token [c] (List.replicate n c ++ (w ++ c :: rest)) = some (w, rest) :=
  token_skip.trans (token_first hne hw)

theorem replicate_of_all {l : Bytes} (h : ∀ b ∈ l, b ∈ [c]) : l = List.replicate l.length c :=
  List.eq_replicate_of_mem fun b hb => List.mem_singleton.mp (h b hb)

theorem token_split (h : token [c] text = some (w, rest)) (hrest : rest ≠ []) :
    ∃ n, text = List.replicate n c ++ (w ++ c :: rest) ∧ w ≠ [] ∧ c ∉ w := by
  obtain ⟨lead, tail, rfl, rfl, hne, hlead, hw, htail⟩ := token_some h
  cases tail with
  | nil => exact absurd rfl hrest
  | cons d tail =>
    obtain rfl : d = c := List.mem_singleton.mp (htail d rfl)
    refine ⟨lead.length, ?_, hne, fun hc => hw d hc List.mem_cons_self⟩
    rw [← replicate_of_all hlead]
    rfl

theorem versionOf_nameOf : versionOf (nameOf v) = some v := by
  cases v <;> decide

theorem nameOf_of_versionOf (h : versionOf w = some v) : w = nameOf v := by
  rw [versionOf] at h
  split at h
  · rename_i heq
    cases h
    exact heq
  · split at h
    · rename_i heq
      cases h
      exact heq
    · cases h

theorem nameOf_word (v : Version) : nameOf v ≠ [] ∧ CR ∉ nameOf v ∧ NUL ∉ nameOf v := by
  cases v <;> decide

theorem length_nameOf (v : Version) : (nameOf v).length = 8 := by
  cases v <;> rfl

theorem nameOf_injective (h : nameOf v = nameOf v') : v = v' := by
  have hsame := congrArg versionOf h
  rw [versionOf_nameOf, versionOf_nameOf] at hsame
  exact Option.some.inj hsame

theorem line_unique (h : x.line = y.line) :
    x.method = y.method ∧ x.path = y.path ∧ x.tail = y.tail := by
  have hmethod := congrArg (token [SP]) h
  rw [Shape.line, Shape.line, token_word x.method_word.1 x.method_word.2.1,
    token_word y.method_word.1 y.method_word.2.1] at hmethod
  obtain ⟨hsame, hrest⟩ := Prod.mk.inj (Option.some.inj hmethod)
  have hpath := congrArg (token [SP]) hrest
  rw [token_word x.path_word.1 x.path_word.2.1, token_word y.path_word.1 y.path_word.2.1] at hpath
  obtain ⟨hsame', htail⟩ := Prod.mk.inj (Option.some.inj hpath)
  exact ⟨hsame, hsame', htail⟩

theorem exact_of_tail (hx : x.Exact) (h : x.tail = y.tail) : y.Exact ∧ x.version = y.version := by
  obtain ⟨hcrs, hrest⟩ := hx
  rw [Shape.tail, Shape.tail, hcrs, hrest] at h
  have hnone : y.crs = 0 := by
    by_contra hsome
    obtain ⟨n, hn⟩ := Nat.exists_eq_succ_of_ne_zero hsome
    obtain ⟨c, l, hname⟩ := List.exists_cons_of_ne_nil (nameOf_word x.version).1
    rw [hn, List.replicate_succ, List.replicate_zero, hname] at h
    have hc : c = CR := (List.cons.inj h).1
    exact (nameOf_word x.version).2.1 (hname ▸ hc ▸ List.mem_cons_self)
  rw [hnone, List.replicate_zero, List.nil_append, List.nil_append] at h
  obtain ⟨hname, htail⟩ := List.append_inj h
    ((length_nameOf x.version).trans (length_nameOf y.version).symm)
  exact ⟨⟨hnone, htail.symm⟩, nameOf_injective hname⟩

def Shape.front (x : Shape) : Bytes :=
  List.replicate x.lead SP ++ (x.method ++ SP ::
    (List.replicate x.gap SP ++ (x.path ++ SP :: (List.replicate x.crs CR ++ nameOf x.version))))

theorem line_front : x.line = x.front ++ x.rest := by
  simp only [Shape.line, Shape.tail, Shape.front, List.append_assoc, List.cons_append]

theorem front_nul : NUL ∉ x.front := by
  simp only [Shape.front, List.mem_append, List.mem_cons, List.mem_replicate, not_or, not_and]
  exact ⟨fun _ => by decide, x.method_word.2.2.1, by decide, fun _ => by decide, x.path_word.2.2.1,
    by decide, fun _ => by decide, (nameOf_word x.version).2.2⟩

theorem requestLine_line (hrest : ∀ c ∈ x.rest.head?, c = CR) :
    requestLine x.line = some (methodOf x.method, x.path, x.version) := by
  obtain ⟨hne, hcr, -⟩ := nameOf_word x.version
  have hversion : ∃ after, token [CR] x.tail = some (nameOf x.version, after) := by
    rw [Shape.tail, token_skip]
    cases hcut : x.rest with
    | nil => exact ⟨[], by rw [List.append_nil, token_whole hne hcr]⟩
    | cons c rest =>
      obtain rfl : c = CR := hrest c (by rw [hcut]; rfl)
      exact ⟨rest, token_first hne hcr⟩
  obtain ⟨after, hversion⟩ := hversion
  rw [requestLine, Shape.line, token_word x.method_word.1 x.method_word.2.1, Option.bind_eq_bind,
    Option.bind_some]
  dsimp only
  rw [token_word x.path_word.1 x.path_word.2.1, Option.bind_some]
  dsimp only
  rw [hversion, Option.bind_some]
  dsimp only
  rw [versionOf_nameOf]
  rfl

theorem requestLine_loose (hx : x.Loose) :
    requestLine (lineText x.line) = some (methodOf x.method, x.path, x.version) := by
  obtain ⟨skipped, last, hrest, hlast, hhead⟩ := hx
  have htext : lineText x.line = x.front ++ skipped.takeWhile (· != NUL) := by
    have htake : x.line.take (x.line.length - 2) = x.front ++ skipped := by
      rw [line_front, hrest, ← List.append_assoc, List.length_append, hlast, Nat.add_sub_cancel,
        List.take_left]
    rw [lineText, htake, List.takeWhile_append_of_pos]
    intro c hc
    rw [bne_iff_ne]
    rintro rfl
    exact front_nul hc
  have hcut : ∀ c ∈ (skipped.takeWhile (· != NUL)).head?, c = CR := by
    cases skipped with
    | nil => exact fun c hc => absurd hc (by simp)
    | cons d skipped =>
      rcases hhead d rfl with rfl | rfl
      · simp [NUL, CR]
      · simp
  let cut : Shape := { x with rest := skipped.takeWhile (· != NUL) }
  have hline : requestLine cut.line = some (methodOf x.method, x.path, x.version) :=
    requestLine_line hcut
  rw [line_front] at hline
  rw [htext]
  exact hline

theorem loose_of_requestLine {method : Method} {path : Bytes} (hlength : 2 ≤ line.length)
    (hlf : LF ∉ line.dropLast) (h : requestLine (lineText line) = some (method, path, v)) :
    ∃ x : Shape, x.Loose ∧ line = x.line ∧ method = methodOf x.method ∧ path = x.path ∧
      v = x.version := by
  simp only [requestLine, Option.bind_eq_bind, Option.bind_eq_some_iff] at h
  obtain ⟨⟨m, rest₁⟩, hmethod, ⟨p, rest₂⟩, hpath, ⟨w, rest₃⟩, hversion, _, hu, hresult⟩ := h
  dsimp only at hpath hversion hu
  cases hresult
  obtain ⟨crs, tail, htail, -, -, hcrs, -, hhead⟩ := token_some hversion
  have hrest₂ : rest₂ ≠ [] := by
    rintro rfl
    cases hversion
  have hrest₁ : rest₁ ≠ [] := by
    rintro rfl
    cases hpath
  obtain ⟨gap, hgap, hp, hpsp⟩ := token_split hpath hrest₂
  obtain ⟨lead, hlead, hm, hmsp⟩ := token_split hmethod hrest₁
  have hsplit : line = lineText line ++ ((line.take (line.length - 2)).dropWhile (· != NUL) ++
      line.drop (line.length - 2)) := by
    rw [lineText, ← List.append_assoc, List.takeWhile_append_dropWhile, List.take_append_drop]
  have hclean : ∀ c ∈ lineText line, c ≠ NUL ∧ c ≠ LF := by
    intro c hc
    refine ⟨?_, ?_⟩
    · rintro rfl
      exact lineText_nul line hc
    · rintro rfl
      refine hlf ?_
      have hprefix : line.take (line.length - 2) <+: line.dropLast := by
        rw [List.dropLast_eq_take]
        exact List.take_prefix_take_left (by omega)
      exact hprefix.subset ((List.takeWhile_prefix _).subset hc)
  have hsubset : m ⊆ lineText line ∧ p ⊆ lineText line :=
    ⟨(token_subset hmethod).1, List.Subset.trans (token_subset hpath).1 (token_subset hmethod).2⟩
  have hw := nameOf_of_versionOf hu
  refine ⟨⟨lead, m, gap, p, crs.length, v, tail ++ ((line.take (line.length - 2)).dropWhile (· != NUL) ++
    line.drop (line.length - 2)), ⟨hm, hmsp, fun h0 => (hclean _ (hsubset.1 h0)).1 rfl,
    fun h0 => (hclean _ (hsubset.1 h0)).2 rfl⟩, ⟨hp, hpsp, fun h0 => (hclean _ (hsubset.2 h0)).1 rfl,
    fun h0 => (hclean _ (hsubset.2 h0)).2 rfl⟩⟩, ⟨tail ++ (line.take (line.length - 2)).dropWhile
    (· != NUL), line.drop (line.length - 2), ?_, ?_, ?_⟩, ?_, rfl, rfl, rfl⟩
  · exact (List.append_assoc ..).symm
  · rw [List.length_drop]
    omega
  · intro c hc
    cases tail with
    | nil =>
      have hnul := List.head?_dropWhile_not (· != NUL) (line.take (line.length - 2))
      rw [List.nil_append] at hc
      rw [Option.mem_def.mp hc] at hnul
      exact Or.inr (by simpa using hnul)
    | cons d tail =>
      obtain rfl : d = c := Option.some.inj hc
      exact Or.inl (List.mem_singleton.mp (hhead d rfl))
  · conv_lhs => rw [hsplit, hlead, hgap, htail, replicate_of_all hcrs, hw]
    simp only [Shape.line, Shape.tail, List.append_assoc, List.cons_append]

end Shapes

section Reads

variable {s s' s'' : Bufio} {rc : Int} {c : UInt8} {n off : Nat} {line : Bytes} {len : Int}

theorem sane_grown (h : Sane s) (hok : readMore s = .ok (rc, s')) :
    Sane s' ∧ s.buf.len ≤ s'.buf.len ∧ (0 < rc → s.buf.len < s'.buf.len) := by
  have hpos := h.bufpos_le
  obtain ⟨cap, hcap, ⟨-, rfl, rfl⟩ | ⟨chunk, input, -, rfl, hfits, rfl⟩⟩ := readMore_inv (by omega) hok
  · exact ⟨⟨hpos, h.len, hcap h.cap⟩, Int.le_refl _, fun hrc => absurd hrc (ending_nonpos _)⟩
  · have hcap := hcap h.cap
    have hnonempty := List.length_pos_iff.mpr chunk.nonempty
    rw [int_eq (z := s.buf.len + chunk.bytes.length) (by omega)]
    refine ⟨⟨?_, ?_, hcap⟩, ?_, fun _ => ?_⟩
    · show (s.bufpos : Int) ≤ s.buf.len + chunk.bytes.length
      omega
    · show s.buf.len + chunk.bytes.length < 2 ^ 31
      omega
    · show s.buf.len ≤ s.buf.len + chunk.bytes.length
      omega
    · show s.buf.len < s.buf.len + chunk.bytes.length
      omega

theorem readable_sane : Readable Sane where
  bufpos_le := Sane.bufpos_le
  len := Sane.len
  grown := sane_grown
  taken {s} h hpos := by
    have hnext : ((s.bufpos + 1 : Nat) : Int) ≤ s.buf.len := by omega
    exact ⟨hnext, h.len, h.cap⟩

theorem Returned.inv (h : Sane s) (hline : Returned s line off s') :
    (off : Int) + line.length ≤ s'.buf.len ∧ LF ∉ line.dropLast := by
  obtain ⟨len, s₁, hloop, hok⟩ := bind_inv (get_bind_inv hline.result)
  obtain ⟨⟨hlen, rfl⟩, rfl⟩ : (len = line.length ∧ s.bufpos = off) ∧ s₁ = s' := by
    cases hok
    exact ⟨⟨rfl, rfl⟩, rfl⟩
  obtain ⟨honward, hlength, -, hbytes⟩ := readlineLoop_fetched readable_sane h hloop
  have hend := hlength (by omega)
  have hpos := honward.kept.bufpos_le
  refine ⟨by omega, fun hmem => ?_⟩
  obtain ⟨i, hi, hget⟩ := List.mem_iff_getElem.mp hmem
  rw [List.length_dropLast] at hi
  have hbyte : (line : Bytes)[i]? = some (s₁.buf.buf (s.bufpos + i)) := by
    have hslice := Storage.getElem?_slice (b := s₁.buf.storage) (p := s.bufpos) (show i < line.length by omega)
    rw [hline.holds.1] at hslice
    exact hslice
  rw [List.getElem_dropLast, ← Option.some_inj, ← List.getElem?_eq_getElem, hbyte] at hget
  exact hbytes (by decide) (s.bufpos + i) (by omega) (by omega) (Option.some.inj hget)

end Reads

section Lines

variable {s s₁ : Bufio} {ta : Transaction} {off : Nat} {line : Bytes} {x : Shape}

theorem Shape.Exact.loose (h : x.Exact) : x.Loose :=
  ⟨[], CRLF, h.2, rfl, fun _ hc => absurd hc (by simp)⟩

theorem Shape.Loose.length (h : x.Loose) : 2 ≤ x.line.length := by
  obtain ⟨skipped, last, hrest, hlast, -⟩ := h
  rw [line_front, hrest, List.length_append, List.length_append]
  omega

/-- `http_parse_request` accepts the lines that look like a request line. -/
theorem parse_spec (ta : Transaction) (h : Sane s) (hline : Returned s line off s₁) :
    ∃ r s', httpParseRequest ta s = .ok (r, s') ∧
      (∀ x : Shape, x.Loose → line = x.line → ∃ ta', r = some ta' ∧ Taken s' ta' x) ∧
      (r.isSome = true → ∃ x : Shape, x.Loose ∧ line = x.line) := by
  obtain ⟨hinside, hlf⟩ := hline.inv h
  by_cases hshort : line.length < 2
  · refine ⟨none, s₁, ?_, fun x hx heq => ?_, fun hsome => ?_⟩
    · rw [httpParseRequest, bind_ok hline.result]
      dsimp only
      rw [if_pos (by omega)]
      exact pure_ok none
    · have hlength := hx.length
      rw [← heq] at hlength
      omega
    · cases hsome
  · have hlength : 2 ≤ line.length := by omega
    obtain ⟨s', -, hparse⟩ := parseLine_ok ta hline.holds hlength hinside
    have hrun : httpParseRequest ta s = parseLine ta line.length off s₁ := by
      rw [httpParseRequest, bind_ok hline.result]
      dsimp only
      rw [if_neg (by omega)]
      rfl
    rw [hrun]
    cases hrequest : requestLine (lineText line) with
    | none =>
      rw [hrequest] at hparse
      refine ⟨none, s', hparse, fun x hx heq => ?_, fun hsome => ?_⟩
      · rw [heq, requestLine_loose hx] at hrequest
        cases hrequest
      · cases hsome
    | some found =>
      obtain ⟨method, path, version⟩ := found
      rw [hrequest] at hparse
      obtain ⟨ta', hok, i, rfl, hpath, -⟩ := hparse
      refine ⟨_, s', hok, fun x hx heq => ⟨_, rfl, ?_⟩, fun _ => ?_⟩
      · rw [heq, requestLine_loose hx] at hrequest
        cases hrequest
        exact ⟨rfl, hpath, rfl⟩
      · obtain ⟨x, hloose, heq, -⟩ := loose_of_requestLine hlength hlf hrequest
        exact ⟨x, hloose, heq⟩

/-- Request lines are accepted exactly when they are well-formed, but for the lines that only look
like one. -/
theorem strict_iff (ta : Transaction) (h : Sane s) (hline : Returned s line off s₁) :
    Strict ta s line ↔ ¬ Deceptive line := by
  obtain ⟨r, s', hok, htaken, hloose⟩ := parse_spec ta h hline
  constructor
  · rintro ⟨r', s'', hok', hiff, -⟩ ⟨x, hx, hinexact, hxline⟩
    rw [hok] at hok'
    cases hok'
    obtain ⟨ta', rfl, -⟩ := htaken x hx hxline
    obtain ⟨y, hy, hyline⟩ := hiff.mp rfl
    exact hinexact (exact_of_tail hy (line_unique (hyline.symm.trans hxline)).2.2).1
  · intro hhonest
    refine ⟨r, s', hok, ⟨fun hsome => ?_, ?_⟩, ?_⟩
    · obtain ⟨x, hx, hxline⟩ := hloose hsome
      exact ⟨x, by_contra fun hinexact => hhonest ⟨x, hx, hinexact, hxline⟩, hxline⟩
    · rintro ⟨x, hx, hxline⟩
      obtain ⟨ta', rfl, -⟩ := htaken x hx.loose hxline
      rfl
    · rintro ta' hta' x ⟨hx, hxline⟩
      obtain ⟨ta'', rfl, hfound⟩ := htaken x hx.loose hxline
      cases hta'
      exact hfound

theorem sane_of_inv {J : Nat → List Chunk → Prop} {stream : Bytes} {lo : Nat}
    (h : Receiving.Inv J stream lo s) : Sane s := by
  have hpos := h.bufpos_le
  have hlen := h.len
  have hfits := h.fits
  have hcap := h.capacity.small
  exact ⟨by omega, by omega, by omega⟩

theorem returned_of_run (hrun : (bufioReadline s).map (fun r => (r.1, r.2.buf.storage.slice 0 line.length,
    decide (line.length ≤ r.2.buf.cap.toNat))) = .ok ((line.length, 0), line, true)) :
    ∃ s₁, Returned s line 0 s₁ := by
  cases hresult : bufioReadline s with
  | error e =>
    rw [hresult] at hrun
    cases hrun
  | ok found =>
    obtain ⟨result, s₁⟩ := found
    rw [hresult] at hrun
    obtain ⟨rfl, hrest⟩ := Prod.mk.inj (Except.ok.inj hrun)
    obtain ⟨hslice, hfits⟩ := Prod.mk.inj hrest
    refine ⟨s₁, hresult, hslice, ?_⟩
    rw [Nat.zero_add]
    exact of_decide_eq_true hfits

def plainLine : Bytes := ascii "GET /a HTTP/1.1\r\n"

def plainClient : Bufio := bufioCreate (fun _ => 0) [⟨plainLine, by decide, by decide⟩] .eof

theorem strict_sample : ∃ s₁, Returned plainClient plainLine 0 s₁ ∧
    (Strict {} plainClient plainLine ↔ ¬ Deceptive plainLine) := by
  obtain ⟨s₁, hline⟩ : ∃ s₁, Returned plainClient plainLine 0 s₁ :=
    returned_of_run (by decide +kernel)
  have hinv : Receiving.Inv (fun _ _ => True) _ 0 plainClient :=
    Boundaries.inv_create (fun _ => 0) .eof trivial
  exact ⟨s₁, hline, strict_iff {} (sane_of_inv hinv) hline⟩

theorem get_word : IsWord (ascii "GET") := ⟨by decide, by decide, by decide, by decide⟩

theorem short_word : IsWord (ascii "/a") := ⟨by decide, by decide, by decide, by decide⟩

def brokenShape : Shape where
  lead := 0
  method := ascii "GET"
  gap := 0
  path := ascii "/a"
  crs := 0
  version := .HTTP_1_1
  rest := ascii "X\n"
  method_word := get_word
  path_word := short_word

def brokenClient : Bufio := bufioCreate (fun _ => 0) [⟨brokenShape.line, by decide, by decide⟩] .eof

/-- The byte before the LF is overwritten, whatever it is. -/
theorem broken_accepted : ¬ ∀ ta s line off s₁, Sane s → Returned s line off s₁ → Strict ta s line := by
  intro hstrict
  obtain ⟨s₁, hline⟩ : ∃ s₁, Returned brokenClient brokenShape.line 0 s₁ :=
    returned_of_run (by decide +kernel)
  have hsane : Sane brokenClient := ⟨Int.le_refl 0, by decide, by decide⟩
  have hloose : brokenShape.Loose := ⟨[], ascii "X\n", rfl, rfl, fun _ hc => absurd hc (by simp)⟩
  have hinexact : ¬ brokenShape.Exact := fun hexact => absurd hexact.2 (by decide)
  exact (strict_iff {} hsane hline).mp (hstrict {} brokenClient _ 0 s₁ hsane hline)
    ⟨brokenShape, hloose, hinexact, rfl⟩

end Lines

end ComputerSystems.Pserv.RequestLines
