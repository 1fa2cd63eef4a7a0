/- A whole connection: every request is answered once, in its turn, and the client can tell the
answers apart. -/

import ComputerSystems.Pserv.Answers
import ComputerSystems.Pserv.Assertions
import ComputerSystems.Pserv.Framing

set_option autoImplicit false
set_option relaxedAutoImplicit false

namespace ComputerSystems.Pserv.Serving

open ComputerSystems.Systems.Computations
open ComputerSystems.Pserv.Strings
open ComputerSystems.Pserv.Buffers
open ComputerSystems.Pserv.Input
open ComputerSystems.Pserv.Receiving
open ComputerSystems.Pserv.Requests
open ComputerSystems.Pserv.Parsing
open ComputerSystems.Pserv.Streams
open ComputerSystems.Pserv.Outcomes
open ComputerSystems.Pserv.Responses
open ComputerSystems.Pserv.Messages
open ComputerSystems.Pserv.Transactions
open ComputerSystems.Pserv.Building
open ComputerSystems.Pserv.KeepAlive
open ComputerSystems.Pserv.Logins (ample_initResponse)
open ComputerSystems.Pserv.Boundaries (streamOf inv_create view_ok)
open ComputerSystems.Pserv.Framing
open ComputerSystems.Pserv.Assertions
open ComputerSystems.Pserv.Answers

/-- The loop of `connection_handler`; the transaction `k` finds the files and the clock of `envs k`. -/
def connectionHandler (envs : Nat → Environment) : Nat → Nat → StateT Connection (Except Stop) PUnit
  | 0, _ => throw .steps
  | fuel + 1, k => do
    let online ← httpHandleTransaction (envs k)
    if online then connectionHandler envs fuel (k + 1) else pure ⟨⟩

/-- The answers to requests: to all up to the first that is HTTP/1.0, or that asks for a private
path. -/
def replies (envs : Nat → Environment) (basedir : Bytes) : Nat → List Request → List Message
  | _, [] => []
  | k, r :: rs =>
    match replyTo (envs k) basedir r with
    | none => []
    | some m => m :: if r.version = .HTTP_1_1 then replies envs basedir (k + 1) rs else []

section Messages

variable {m m' : Message} {ms ms' : List Message} {x y : Bytes}

theorem complete_split (h : Complete m) (h' : Complete m') (heq : m.bytes ++ x = m'.bytes ++ y) :
    m = m' ∧ x = y := by
  rw [Message.bytes, Message.bytes, List.append_assoc, List.append_assoc] at heq
  obtain ⟨hlines, hbody⟩ := block_unique h.lines h'.lines heq
  obtain ⟨hstatus, hheaders⟩ := List.cons.inj hlines
  obtain ⟨l, hl, -, -, hlength⟩ := h.length
  obtain ⟨l', hl', -, -, hlength'⟩ := h'.length
  rw [hheaders, hl'] at hl
  cases hl
  obtain ⟨hbodies, hrest⟩ := List.append_inj hbody (hlength.symm.trans hlength')
  cases m
  cases m'
  exact ⟨by simp_all, hrest⟩

theorem complete_unique (h : ∀ m ∈ ms, Complete m) (h' : ∀ m ∈ ms', Complete m)
    (heq : ms.flatMap Message.bytes = ms'.flatMap Message.bytes) : ms = ms' := by
  have hnonempty : ∀ m : Message, m.bytes ≠ [] := fun m => by simp [Message.bytes, block, CRLF]
  induction ms generalizing ms' with
  | nil =>
    cases ms' with
    | nil => rfl
    | cons m' ms' =>
      rw [List.flatMap_nil, List.flatMap_cons] at heq
      exact absurd (List.append_eq_nil_iff.mp heq.symm).1 (hnonempty m')
  | cons m ms ih =>
    cases ms' with
    | nil =>
      rw [List.flatMap_nil, List.flatMap_cons] at heq
      exact absurd (List.append_eq_nil_iff.mp heq).1 (hnonempty m)
    | cons m' ms' =>
      rw [List.flatMap_cons, List.flatMap_cons] at heq
      obtain ⟨rfl, hrest⟩ := complete_split (h m List.mem_cons_self) (h' m' List.mem_cons_self) heq
      rw [ih (fun k hk => h k (List.mem_cons_of_mem _ hk)) (fun k hk => h' k (List.mem_cons_of_mem _ hk)) hrest]

end Messages

section Sockets

variable {socket : Socket} {head rest : Bytes} {k : Nat}

/-- The next `k` calls that write to the socket take everything. -/
def Takes (socket : Socket) (k : Nat) : Prop :=
  ∃ results, socket.results = List.replicate k .all ++ results

theorem sendFile_done {sent : Bytes} {results : List Result} :
    sendFile 0 rest sent results = (true, ⟨results, sent⟩) := by
  cases results <;> rfl

theorem deliver_takes (h : Takes socket (k + 2)) :
    ∃ socket', deliver head rest socket = (true, socket') ∧ Takes socket' k ∧
      socket'.sent = socket.sent ++ head ++ rest := by
  obtain ⟨results, hresults⟩ := h
  rw [List.replicate_succ, List.cons_append] at hresults
  have hoffer : socket.offer head =
      ((head.length : Int), ⟨List.replicate (k + 1) .all ++ results, socket.sent ++ head⟩) := by
    unfold Socket.offer
    rw [hresults]
    dsimp only [Result.count]
    rw [List.take_length]
  rw [deliver, hoffer]
  dsimp only
  rw [if_neg (by omega)]
  by_cases hrest : rest.length = 0
  · obtain rfl := List.length_eq_zero_iff.mp hrest
    rw [List.replicate_succ, List.cons_append, sendFile, if_pos hrest]
    refine ⟨⟨List.replicate (k + 1) .all ++ results, _⟩, rfl, ⟨.all :: results, ?_⟩, (List.append_nil _).symm⟩
    show List.replicate (k + 1) Result.all ++ results = _
    rw [List.replicate_succ', List.append_assoc, List.singleton_append]
  · rw [List.replicate_succ, List.cons_append, sendFile, if_neg hrest]
    simp only [Result.count, List.take_length, if_neg hrest, Nat.sub_self]
    exact ⟨_, sendFile_done, ⟨results, rfl⟩, rfl⟩

end Sockets

section Connections

variable {envs : Nat → Environment} {env : Environment} {basedir : Bytes} {rs : List Sent} {conn : Connection}
  {bufio : Bufio} {ta : Transaction} {r : Request} {stream : Bytes} {p k : Nat}

theorem balanced_of_stands (h : Stands stream p bufio) (hshort : stream.length < 2 ^ 29) : Balanced bufio := by
  have hreceived := h.inv.received_le
  refine ⟨h.inv.len, h.inv.bufpos_le, ?_⟩
  rw [h.inv.pending, List.length_drop]
  omega

theorem readRequest_end (h : Stands stream stream.length bufio) (hshort : stream.length < 2 ^ 29) :
    ∃ s', readRequest bufio = .ok (none, s') := by
  have hrequest : requestAt bufio.ending stream stream.length = ⟨.rejected, stream.length + 1, true⟩ := by
    rw [requestAt, List.drop_length]
    rfl
  have hread : Runs Boundaries.AnyChunks (fun _ => False) (stream.length + 1) readRequest bufio
      fun x _ => x = none := by
    refine readRequest_runs Boundaries.steady_anyChunks h.inv h.bufpos (by rw [hrequest]) ?_
    rw [hrequest]
    exact fun _ _ => rfl
  rcases hread with ⟨-, hlate⟩ | ⟨_, -, hfalse⟩ | ⟨x, s', hok, rfl⟩
  · refine absurd hlate (Boundaries.not_late_of_le ?_)
    have hlimit : LIMIT = 1342173184 := rfl
    omega
  · exact hfalse.elim
  · exact ⟨s', hok⟩

/-- What a transaction returns, and what the client has been sent. -/
def Answered (env : Environment) (basedir : Bytes) (r : Request) (socket : Socket) (rc : Bool)
    (socket' : Socket) : Prop :=
  match replyTo env basedir r with
  | none => rc = false ∧ socket'.sent = socket.sent
  | some m => rc = decide (r.version = .HTTP_1_1) ∧ Complete m ∧ socket'.sent = socket.sent ++ m.bytes

theorem respond_sends {socket : Socket} (henv : Reasonable env) (hroot : env.serverRoot = some basedir)
    (hr : Present bufio ta r) (htakes : Takes socket (k + 2)) :
    ∃ rc st', respond env ta r.path bufio ⟨initResponse env, socket⟩ = .ok (rc, st') ∧
      Takes st'.socket k ∧ Answered env basedir r socket rc st'.socket := by
  obtain ⟨hheaders, hbody⟩ := ample_initResponse env
  have hstart : Ready ⟨initResponse env, socket⟩ socket [] 0 :=
    ⟨⟨none, built_init env⟩, ⟨fun _ hl => absurd hl List.not_mem_nil, Nat.zero_le _⟩, hheaders, hbody, rfl⟩
  obtain ⟨_, st₁, hadd, h₁, -⟩ := addHeader_ready hstart (Nat.zero_le 2)
    (show 0 < (ascii "Server").length ∧ _ by decide)
    (show (ascii "CS3214-Personal-Server").length ≤ Growth.INT_MAX by decide) plain_server
  have hhandle := handle_sends henv hroot hr h₁
  rw [respond, bind_ok hadd]
  unfold Answered
  cases hreply : replyTo env basedir r with
  | none =>
    rw [hreply] at hhandle
    obtain ⟨_, hbuilt⟩ := h₁.built
    rw [bind_ok hhandle, Bool.and_false]
    refine ⟨false, st₁, pure_ok _, ?_, rfl, ?_⟩
    · rw [hbuilt.socket]
      obtain ⟨results, hresults⟩ := htakes
      refine ⟨.all :: .all :: results, ?_⟩
      rw [hresults, List.replicate_add, List.append_assoc]
      rfl
    · rw [hbuilt.socket]
  | some m =>
    rw [hreply] at hhandle
    obtain ⟨file, hcomplete, hbody, rc, st₂, hok, hdelivered⟩ := hhandle
    obtain ⟨socket₂, hdone, hrest, hsent⟩ := deliver_takes htakes
    rw [hdone] at hdelivered
    obtain ⟨rfl, hsocket⟩ := Prod.mk.inj hdelivered
    rw [bind_ok hok, Bool.and_true, hr.version]
    refine ⟨_, st₂, pure_ok _, ?_, rfl, hcomplete, ?_⟩
    · rw [hsocket]
      exact hrest
    · rw [hsocket, hsent, List.append_assoc, headOf_append hbody]

theorem transaction_sends {n : Nat} {r : Sent} (henv : Reasonable env) (hroot : env.serverRoot = some basedir)
    (hshort : (rs.flatMap Sent.bytes).length < 2 ^ 29) (hr : rs[n]? = some r)
    (hstands : Stands (rs.flatMap Sent.bytes) (offset rs n) conn.bufio) (htakes : Takes conn.socket (k + 2)) :
    ∃ rc conn', httpHandleTransaction env conn = .ok (rc, conn') ∧
      Stands (rs.flatMap Sent.bytes) (offset rs (n + 1)) conn'.bufio ∧ Takes conn'.socket k ∧
      Answered env basedir r.request conn.socket rc conn'.socket := by
  obtain ⟨ta, s', hread, hunderstood, hnext⟩ := hstands.reads hshort hr
  have hsure := (readRequest_sure (balanced_of_stands hstands hshort)).2 (some ta) s' hread
  have hbalanced := balanced_of_stands hnext hshort
  have hbody : r.body.length ≤ (rs.flatMap Sent.bytes).length := by
    have hbytes := congrArg List.length (drop_offset hr)
    rw [List.length_drop, List.length_append, Sent.bytes, List.length_append] at hbytes
    omega
  have htotal := hbalanced.total
  have hpresent : Present s' ta r.request :=
    ⟨hunderstood, hbalanced.len, (hsure.2 ta rfl).2, by omega, by
      show r.body.length < 2 ^ 31
      omega, rfl⟩
  obtain ⟨rc, st', hrespond, hrest, hanswered⟩ := respond_sends henv hroot hpresent htakes
  refine ⟨rc, ⟨s', st'.socket⟩, ?_, hnext, hrest, hanswered⟩
  rw [transaction_responds hread (view_ok hunderstood hbalanced.len), hrespond]
  rfl

theorem connection_from {n fuel : Nat} {rest : List Sent} (henvs : ∀ j, Reasonable (envs j))
    (hroot : ∀ j, (envs j).serverRoot = some basedir) (hshort : (rs.flatMap Sent.bytes).length < 2 ^ 29)
    (hrest : rs.drop n = rest) (hfuel : rest.length < fuel) (htakes : Takes conn.socket (2 * rest.length))
    (hstands : Stands (rs.flatMap Sent.bytes) (offset rs n) conn.bufio) :
    ∃ conn', connectionHandler envs fuel n conn = .ok (⟨⟩, conn') ∧
      conn'.socket.sent = conn.socket.sent ++
        (replies envs basedir n (rest.map Sent.request)).flatMap Message.bytes ∧
      ∀ m ∈ replies envs basedir n (rest.map Sent.request), Complete m := by
  induction rest generalizing n fuel conn with
  | nil =>
    obtain ⟨fuel, rfl⟩ := Nat.exists_eq_add_one_of_ne_zero (Nat.ne_of_gt hfuel)
    have hend : offset rs n = (rs.flatMap Sent.bytes).length := by
      rw [offset, List.take_of_length_le (List.drop_eq_nil_iff.mp hrest)]
    rw [hend] at hstands
    obtain ⟨s', hread⟩ := readRequest_end hstands hshort
    refine ⟨⟨s', conn.socket⟩, ?_, (List.append_nil _).symm, fun m hm => absurd hm List.not_mem_nil⟩
    have hclosed : httpHandleTransaction (envs n) conn = .ok (false, ⟨s', conn.socket⟩) := by
      rw [httpHandleTransaction, bind_ok get_ok, bind_ok (lift_ok hread)]
      rfl
    rw [connectionHandler, bind_ok hclosed]
    rfl
  | cons r rest ih =>
    obtain ⟨fuel, rfl⟩ := Nat.exists_eq_add_one_of_ne_zero (Nat.ne_zero_of_lt hfuel)
    have hr : rs[n]? = some r := by
      rw [← List.head?_drop, hrest, List.head?_cons]
    have hnext : rs.drop (n + 1) = rest := by
      rw [← List.drop_drop, hrest, List.drop_one, List.tail_cons]
    obtain ⟨rc, conn₁, hrun, hstands₁, htakes₁, hanswered⟩ :=
      transaction_sends (henvs n) (hroot n) hshort hr hstands htakes
    rw [connectionHandler, bind_ok hrun, List.map_cons, replies]
    rw [Answered] at hanswered
    cases hreply : replyTo (envs n) basedir r.request with
    | none =>
      rw [hreply] at hanswered
      obtain ⟨rfl, hsent⟩ := hanswered
      refine ⟨conn₁, rfl, ?_, fun m hm => absurd hm List.not_mem_nil⟩
      rw [hsent]
      exact (List.append_nil _).symm
    | some m =>
      rw [hreply] at hanswered
      obtain ⟨rfl, hcomplete, hsent⟩ := hanswered
      dsimp only
      rw [List.flatMap_cons]
      by_cases hversion : r.request.version = .HTTP_1_1
      · simp only [hversion, decide_true, if_true]
        obtain ⟨conn₂, hrun₂, hsent₂, hall⟩ := ih hnext (Nat.lt_of_succ_lt_succ hfuel) htakes₁ hstands₁
        refine ⟨conn₂, hrun₂, ?_, ?_⟩
        · rw [hsent₂, hsent, List.append_assoc]
        · intro m' hm'
          rcases List.mem_cons.mp hm' with rfl | hm'
          · exact hcomplete
          · exact hall m' hm'
      · simp only [hversion, decide_false, if_false]
        refine ⟨conn₁, rfl, ?_, ?_⟩
        · rw [hsent, List.flatMap_nil, List.append_nil]
        · intro m' hm'
          obtain rfl := List.mem_singleton.mp hm'
          exact hcomplete

theorem reasonable_site : Reasonable site where
  toDocumented := documented_site
  credentials _ _ _ _ := rfl
  token_short _ _ h := nomatch h
  grants_short _ _ h := nomatch h
  expiration := ⟨by decide, by decide⟩

end Connections

end ComputerSystems.Pserv.Serving
