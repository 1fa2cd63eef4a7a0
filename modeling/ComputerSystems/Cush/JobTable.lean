/- `job_list` and `jid2job`: two structures with the same jobs in them. -/

import ComputerSystems.Cush.Shell
import ComputerSystems.Lists.DoublyLinked
import Mathlib.Order.Bounds.Basic

set_option autoImplicit false
set_option relaxedAutoImplicit false

namespace ComputerSystems.Cush.JobTable

open ComputerSystems.Lists.DoublyLinked
open ComputerSystems.Systems.Runs
open ComputerSystems.Cush.Jobs
open ComputerSystems.Cush.Shell (MAXJOBS freeJid)

/-- A pointer to a `struct list_elem`: those of `job_list`, and the one at the front of each job. -/
inductive Node where
  | null
  | head
  | tail
  | job (a : Nat)
  deriving DecidableEq, Repr

/-- The jobs in memory. `live` are the addresses that `malloc` has returned and that have not been
freed since. -/
structure Store where
  links : Links Node
  jid2job : Nat → Option Nat
  jid : Nat → Int
  live : Nat → Bool

def valid (s : Store) : Node → Bool
  | .null => false
  | .head => true
  | .tail => true
  | .job a => s.live a

def isHead (s : Store) (e : Node) : Bool :=
  s.links.prev e = .null && s.links.next e ≠ .null

def isInterior (s : Store) (e : Node) : Bool :=
  s.links.prev e ≠ .null && s.links.next e ≠ .null

def isTail (s : Store) (e : Node) : Bool :=
  s.links.prev e ≠ .null && s.links.next e = .null

/-- `list_begin(&job_list)`. -/
def listBegin (s : Store) : Node :=
  s.links.next .head

def listNext (s : Store) (e : Node) : Option Node :=
  if valid s e && (isHead s e || isInterior s e) then some (s.links.next e) else none

/-- `list_push_back(&job_list, e)`. -/
def listPushBack (s : Store) (e : Node) : Option Store :=
  if (isInterior s .tail || isTail s .tail) && valid s e && valid s (s.links.prev .tail) then
    some { s with links := s.links.insert .tail e }
  else none

def listRemove (s : Store) (e : Node) : Option (Store × Node) :=
  if valid s e && isInterior s e && valid s (s.links.prev e) && valid s (s.links.next e) then
    some ({ s with links := s.links.remove e }, s.links.next e)
  else none

/-- `add_job`, with the address that `malloc` returns. -/
def addJob (s : Store) (a : Nat) : Option Store :=
  (listPushBack { s with live := Function.update s.live a true } (.job a)).bind fun s =>
    (freeJid s.jid2job).map fun i =>
      { s with
        jid2job := Function.update s.jid2job i (some a)
        jid := Function.update s.jid a i }

/-- `delete_job`; what the job owns is freed with it. -/
def deleteJob (s : Store) (a : Nat) : Option Store :=
  let jid := s.jid a
  if s.live a ∧ 0 ≤ jid ∧ jid < MAXJOBS then
    match s.jid2job jid.toNat with
    | none => none
    | some b =>
      if s.live b then
        some { s with
          jid := Function.update s.jid b (-1)
          jid2job := Function.update s.jid2job jid.toNat none
          live := Function.update s.live a false }
      else none
  else none

/-- The loop of `delete_all_finished_jobs` at the element `e`; `status` is what it sees of each job
when it comes to it. -/
def deleteLoop (status : Nat → Status) : Nat → Node → Store → Option Store
  | 0, _, _ => none
  | _ + 1, .tail, s => some s
  | fuel + 1, .job a, s =>
    if s.live a then
      if toDeleteJob (status a) then
        (listRemove s (.job a)).bind fun (s, e) => (deleteJob s a).bind (deleteLoop status fuel e)
      else (listNext s (.job a)).bind fun e => deleteLoop status fuel e s
    else none
  | _ + 1, _, _ => none

def deleteAllFinishedJobs (fuel : Nat) (status : Nat → Status) (s : Store) : Option Store :=
  deleteLoop status fuel (listBegin s) s

/-- The two structures hold the jobs `jobs`, in this order in the list. -/
structure Agrees (s : Store) (jobs : List Nat) : Prop where
  list : DList s.links .head (jobs.map .job) .tail
  ends : s.links.next .tail = .null
  live : ∀ a ∈ jobs, s.live a = true
  entry : ∀ i a, s.jid2job i = some a → 0 < i ∧ i < MAXJOBS ∧ a ∈ jobs ∧ s.jid a = i
  numbered : ∀ a ∈ jobs, ∃ i, s.jid2job i = some a

section Tables

variable {s s' : Store} {jobs before after : List Nat} {a b : Nat} {i : Nat}

theorem nodup_jobs (h : Agrees s jobs) : jobs.Nodup := by
  have hnodup := h.list.nodup
  rw [List.nodup_cons, List.nodup_append] at hnodup
  exact hnodup.2.1.of_map

theorem entry_iff (h : Agrees s jobs) (ha : a ∈ jobs) : s.jid2job i = some a ↔ s.jid a = i := by
  constructor
  · intro hi
    exact (h.entry i a hi).2.2.2
  · intro hjid
    obtain ⟨j, hj⟩ := h.numbered a ha
    have hsame := (h.entry j a hj).2.2.2
    obtain rfl : j = i := by omega
    exact hj

theorem nodup_jids (h : Agrees s jobs) : (jobs.map s.jid).Nodup := by
  refine (List.nodup_map_iff_inj_on (nodup_jobs h)).mpr fun a ha b hb hjid => ?_
  obtain ⟨i, hi⟩ := h.numbered a ha
  have hb' := (entry_iff h hb).mpr (hjid.symm.trans ((entry_iff h ha).mp hi))
  exact Option.some.inj (hi.symm.trans hb')

theorem freeJid_least {jid2job : Nat → Option Nat} (h : freeJid jid2job = some i) :
    IsLeast {i | 0 < i ∧ i < MAXJOBS ∧ jid2job i = none} i := by
  rw [freeJid, List.find?_range'_eq_some] at h
  obtain ⟨hnone, hmem, hleast⟩ := h
  rw [List.mem_range'_1] at hmem
  refine ⟨⟨by omega, by omega, Option.isNone_iff_eq_none.mp hnone⟩, fun j hj => ?_⟩
  obtain ⟨hpos, -, hfree⟩ := hj
  by_contra hlt
  have hused := hleast j (by omega) (by omega)
  rw [hfree] at hused
  cases hused

theorem freeJid_isSome {jid2job : Nat → Option Nat}
    (h : ∃ i, 0 < i ∧ i < MAXJOBS ∧ jid2job i = none) : ∃ i, freeJid jid2job = some i := by
  obtain ⟨i, hpos, hlt, hnone⟩ := h
  refine Option.isSome_iff_exists.mp (List.find?_isSome.mpr ⟨i, ?_, ?_⟩)
  · rw [List.mem_range'_1]
    omega
  · rw [hnone]
    rfl

theorem valid_job (h : Agrees s jobs) {e : Node} (he : e ∈ jobs.map Node.job) :
    valid s e = true := by
  obtain ⟨a, ha, rfl⟩ := List.mem_map.mp he
  exact h.live a ha

theorem valid_prev (h : Agrees s jobs) {e : Node} (he : e ∈ jobs.map Node.job ++ [.tail]) :
    valid s (s.links.prev e) = true := by
  rcases List.mem_cons.mp (h.list.prev_mem he) with hp | hp
  · rw [hp]
    rfl
  · exact valid_job h hp

theorem valid_next (h : Agrees s jobs) {e : Node} (he : e ∈ Node.head :: jobs.map Node.job) :
    valid s (s.links.next e) = true := by
  rcases List.mem_append.mp (h.list.next_mem he) with hn | hn
  · exact valid_job h hn
  · rw [List.mem_singleton.mp hn]
    rfl

theorem ne_null_of_valid {e : Node} (h : valid s e = true) : e ≠ .null := by
  rintro rfl
  cases h

end Tables

section Operations

variable {s s' : Store} {jobs before after : List Nat} {a : Nat}

theorem prev_ne_tail (h : Agrees s jobs) {e : Node} (he : e ∈ jobs.map Node.job ++ [.tail]) :
    s.links.prev e ≠ .tail := by
  intro hp
  have hmem := h.list.prev_mem he
  rw [hp] at hmem
  simp at hmem

theorem listPushBack_ok (h : Agrees s jobs) (hlive : s.live a = true) :
    listPushBack s (.job a) = some { s with links := s.links.insert .tail (.job a) } := by
  have hprev : valid s (s.links.prev .tail) = true :=
    valid_prev h (List.mem_append_right _ (List.mem_singleton_self _))
  have htail : isTail s .tail = true := by
    rw [isTail, h.ends, decide_eq_true (ne_null_of_valid hprev)]
    rfl
  rw [listPushBack, htail, hprev, Bool.or_true, Bool.true_and, Bool.and_true]
  exact if_pos hlive

theorem addJob_ok (h : Agrees s jobs) (hfresh : s.live a = false)
    (hfree : ∃ i, 0 < i ∧ i < MAXJOBS ∧ s.jid2job i = none) :
    ∃ s' i, addJob s a = some s' ∧ Agrees s' (jobs ++ [a]) ∧ s'.jid a = (i : Nat) ∧
      IsLeast {i | 0 < i ∧ i < MAXJOBS ∧ s.jid2job i = none} i ∧
        ∀ b ∈ jobs, s'.jid b = s.jid b := by
  obtain ⟨i, hi⟩ := freeJid_isSome hfree
  have hleast := freeJid_least hi
  have hnew : a ∉ jobs := by
    intro ha
    rw [h.live a ha] at hfresh
    cases hfresh
  have hne : ∀ b ∈ jobs, b ≠ a := by
    rintro b hb rfl
    exact hnew hb
  have hlive : ∀ b ∈ jobs, Function.update s.live a true b = true := by
    intro b hb
    rw [Function.update_of_ne (hne b hb)]
    exact h.live b hb
  have hagrees : Agrees { s with live := Function.update s.live a true } jobs :=
    ⟨h.list, h.ends, hlive, h.entry, h.numbered⟩
  have hnode : Node.job a ∉ Node.head :: (jobs.map .job ++ [.tail]) := by
    simp [hnew]
  refine ⟨{ s with
    links := s.links.insert .tail (.job a)
    jid2job := Function.update s.jid2job i (some a)
    jid := Function.update s.jid a i
    live := Function.update s.live a true }, i, ?_, ?_, ?_, hleast, ?_⟩
  · rw [addJob, listPushBack_ok hagrees (Function.update_self ..), Option.bind_some]
    exact congrArg (Option.map _) hi
  · refine ⟨?_, ?_, fun b hb => ?_, fun j b hj => ?_, fun b hb => ?_⟩
    · rw [List.map_append]
      exact h.list.push_back hnode
    · have hkeep : (s.links.insert .tail (.job a)).next .tail = s.links.next .tail :=
        Links.insert_next_of_ne _ nofun
          (prev_ne_tail h (List.mem_append_right _ (List.mem_singleton_self _))).symm
      exact hkeep.trans h.ends
    · rcases List.mem_append.mp hb with hb | hb
      · exact hlive b hb
      · rw [List.mem_singleton.mp hb]
        exact Function.update_self ..
    · change Function.update s.jid2job i (some a) j = some b at hj
      by_cases hij : j = i
      · subst hij
        rw [Function.update_self, Option.some_inj] at hj
        subst hj
        exact ⟨hleast.1.1, hleast.1.2.1, List.mem_append_right _ (List.mem_singleton_self a),
          Function.update_self ..⟩
      · rw [Function.update_of_ne hij] at hj
        obtain ⟨hpos, hlt, hb, hjid⟩ := h.entry j b hj
        exact ⟨hpos, hlt, List.mem_append_left _ hb,
          (Function.update_of_ne (hne b hb) _ _).trans hjid⟩
    · rcases List.mem_append.mp hb with hb | hb
      · obtain ⟨j, hj⟩ := h.numbered b hb
        have hij : j ≠ i := by
          rintro rfl
          rw [hleast.1.2.2] at hj
          cases hj
        exact ⟨j, (Function.update_of_ne hij _ _).trans hj⟩
      · rw [List.mem_singleton.mp hb]
        exact ⟨i, Function.update_self ..⟩
  · exact Function.update_self ..
  · exact fun b hb => Function.update_of_ne (hne b hb) _ _

theorem addJob_table (h : addJob s a = some s') :
    ∃ i, freeJid s.jid2job = some i ∧ s'.jid2job = Function.update s.jid2job i (some a) ∧
      s'.jid = Function.update s.jid a i ∧ s'.live = Function.update s.live a true := by
  rw [addJob] at h
  obtain ⟨t, hpush, hmap⟩ := Option.bind_eq_some_iff.mp h
  obtain ⟨i, hi, rfl⟩ := Option.map_eq_some_iff.mp hmap
  rw [listPushBack] at hpush
  split_ifs at hpush
  cases hpush
  exact ⟨i, hi, rfl, rfl, rfl⟩

/-- The job at `e` is unlinked, its entry is cleared, and its memory is freed. -/
theorem remove_ok (h : Agrees s (before ++ a :: after)) :
    ∃ t s', listRemove s (.job a) = some (t, (after.map .job).headD .tail) ∧
      deleteJob t a = some s' ∧ Agrees s' (before ++ after) ∧
        ∀ b ∈ before ++ after, s'.jid b = s.jid b := by
  have hlist : DList s.links .head (before.map .job ++ .job a :: after.map .job) .tail := by
    simpa using h.list
  obtain ⟨hprev, hnext⟩ := hlist.around
  have ha : a ∈ before ++ a :: after := List.mem_append_right _ List.mem_cons_self
  have hmem : Node.job a ∈ (before ++ a :: after).map Node.job := List.mem_map_of_mem ha
  have hvalid : valid s (.job a) = true := h.live a ha
  have hvalidPrev := valid_prev h (List.mem_append_left _ hmem)
  have hvalidNext := valid_next h (List.mem_cons_of_mem _ hmem)
  have hinterior : isInterior s (.job a) = true := by
    rw [isInterior, decide_eq_true (ne_null_of_valid hvalidPrev),
      decide_eq_true (ne_null_of_valid hvalidNext)]
    rfl
  obtain ⟨i, hi⟩ := h.numbered a ha
  obtain ⟨hpos, hlt, -, hjid⟩ := h.entry i a hi
  have hnodup := nodup_jobs h
  have hnot : a ∉ before ++ after := by
    rw [List.nodup_middle, List.nodup_cons] at hnodup
    exact hnodup.1
  have hbefore : a ∉ before := fun hb => hnot (List.mem_append_left _ hb)
  have hne : ∀ b ∈ before ++ after, b ≠ a := by
    rintro b hb rfl
    exact hnot hb
  have hsub : ∀ b ∈ before ++ after, b ∈ before ++ a :: after := by
    intro b hb
    rw [List.mem_append] at hb ⊢
    exact hb.imp_right (List.mem_cons_of_mem a)
  refine ⟨{ s with links := s.links.remove (.job a) }, { s with
    links := s.links.remove (.job a)
    jid := Function.update s.jid a (-1)
    jid2job := Function.update s.jid2job i none
    live := Function.update s.live a false }, ?_, ?_, ?_, fun b hb =>
      Function.update_of_ne (hne b hb) _ _⟩
  · rw [listRemove, hvalid, hinterior, hvalidPrev, hvalidNext, ← hnext]
    rfl
  · rw [deleteJob]
    dsimp only
    rw [hjid, if_pos ⟨h.live a ha, by omega, by omega⟩, Int.toNat_natCast, hi]
    exact if_pos (h.live a ha)
  · refine ⟨?_, ?_, fun b hb => ?_, fun j b hj => ?_, fun b hb => ?_⟩
    · have hremoved := h.list.remove hmem
      rw [← List.map_erase (fun _ _ => Node.job.inj), List.erase_append_right _ hbefore,
        List.erase_cons_head] at hremoved
      exact hremoved
    · have hkeep : (s.links.remove (.job a)).next .tail = s.links.next .tail :=
        Links.remove_next_of_ne _ (prev_ne_tail h (List.mem_append_left _ hmem)).symm
      exact hkeep.trans h.ends
    · exact (Function.update_of_ne (hne b hb) _ _).trans (h.live b (hsub b hb))
    · change Function.update s.jid2job i none j = some b at hj
      have hij : j ≠ i := by
        rintro rfl
        rw [Function.update_self] at hj
        cases hj
      rw [Function.update_of_ne hij] at hj
      obtain ⟨hpos', hlt', hb, hjid'⟩ := h.entry j b hj
      have hba : b ≠ a := by
        rintro rfl
        exact hij (by omega)
      refine ⟨hpos', hlt', ?_, (Function.update_of_ne hba _ _).trans hjid'⟩
      rw [List.mem_append] at hb ⊢
      exact hb.imp_right fun hb => (List.mem_cons.mp hb).resolve_left hba
    · obtain ⟨j, hj⟩ := h.numbered b (hsub b hb)
      have hij : j ≠ i := by
        rintro rfl
        exact hne b hb (Option.some.inj (hj.symm.trans hi))
      exact ⟨j, (Function.update_of_ne hij _ _).trans hj⟩

theorem remove_table {t : Store} {e e' : Node} (hremove : listRemove s e = some (t, e'))
    (hdelete : deleteJob t a = some s') :
    s'.jid2job = Function.update s.jid2job (s.jid a).toNat none ∧
      s'.live = Function.update s.live a false := by
  rw [listRemove] at hremove
  split_ifs at hremove
  cases hremove
  rw [deleteJob] at hdelete
  dsimp only at hdelete
  split_ifs at hdelete
  split at hdelete
  · cases hdelete
  · split_ifs at hdelete
    cases hdelete
    exact ⟨rfl, rfl⟩

theorem listNext_ok (h : Agrees s (before ++ a :: after)) :
    listNext s (.job a) = some ((after.map .job).headD .tail) := by
  have hlist : DList s.links .head (before.map .job ++ .job a :: after.map .job) .tail := by
    simpa using h.list
  have hmem : Node.job a ∈ (before ++ a :: after).map Node.job :=
    List.mem_map_of_mem (List.mem_append_right _ List.mem_cons_self)
  have hvalid : valid s (.job a) = true := valid_job h hmem
  have hinterior : isInterior s (.job a) = true := by
    rw [isInterior,
      decide_eq_true (ne_null_of_valid (valid_prev h (List.mem_append_left _ hmem))),
      decide_eq_true (ne_null_of_valid (valid_next h (List.mem_cons_of_mem _ hmem)))]
    rfl
  rw [listNext, hvalid, hinterior, hlist.around.2, Bool.or_true]
  rfl

/-- From the element behind `before` on, the loop comes to every job once and keeps those that are
not to be deleted. -/
theorem deleteLoop_ok {status : Nat → Status} {fuel : Nat} (h : Agrees s (before ++ after))
    (hfuel : after.length < fuel) :
    ∃ s', deleteLoop status fuel ((after.map .job).headD .tail) s = some s' ∧
      Agrees s' (before ++ after.filter fun a => !toDeleteJob (status a)) ∧
        ∀ b ∈ before ++ after.filter fun a => !toDeleteJob (status a), s'.jid b = s.jid b := by
  induction after generalizing before s fuel with
  | nil =>
    obtain ⟨fuel, rfl⟩ := Nat.exists_eq_succ_of_ne_zero (Nat.ne_of_gt hfuel)
    exact ⟨s, rfl, h, fun _ _ => rfl⟩
  | cons a after ih =>
    obtain ⟨fuel, rfl⟩ := Nat.exists_eq_succ_of_ne_zero (Nat.ne_of_gt (Nat.zero_lt_of_lt hfuel))
    have hless : after.length < fuel := by
      rw [List.length_cons] at hfuel
      omega
    have hlive : s.live a = true := h.live a (List.mem_append_right _ List.mem_cons_self)
    rw [List.map_cons, List.headD_cons, deleteLoop, if_pos hlive]
    cases hdelete : toDeleteJob (status a) with
    | true =>
      obtain ⟨t, u, hremove, hdeleted, hagrees, hjids⟩ := remove_ok h
      obtain ⟨s', hloop, hagrees', hjids'⟩ := ih hagrees hless
      have hfilter : (a :: after).filter (fun a => !toDeleteJob (status a)) =
          after.filter fun a => !toDeleteJob (status a) := by
        rw [List.filter_cons_of_neg]
        rw [hdelete]
        exact Bool.false_ne_true
      rw [hfilter, if_pos rfl, hremove]
      refine ⟨s', ?_, hagrees', fun b hb => (hjids' b hb).trans (hjids b ?_)⟩
      · dsimp only [Option.bind_some]
        rw [hdeleted]
        exact hloop
      · rw [List.mem_append] at hb ⊢
        exact hb.imp_right List.mem_of_mem_filter
    | false =>
      have hshift : before ++ a :: after = (before ++ [a]) ++ after := List.append_cons before a after
      have hfilter : before ++ (a :: after).filter (fun a => !toDeleteJob (status a)) =
          (before ++ [a]) ++ after.filter fun a => !toDeleteJob (status a) := by
        rw [List.filter_cons_of_pos (by rw [hdelete]; rfl)]
        exact List.append_cons before a _
      rw [if_neg Bool.false_ne_true, listNext_ok h, hfilter]
      exact ih (hshift ▸ h) hless

theorem deleteLoop_mono {status : Nat → Status} {fuel fuel' : Nat} {e : Node} (hle : fuel ≤ fuel')
    (h : deleteLoop status fuel e s = some s') : deleteLoop status fuel' e s = some s' := by
  induction fuel generalizing fuel' e s with
  | zero => cases h
  | succ fuel ih =>
    obtain ⟨fuel', rfl⟩ := Nat.exists_eq_succ_of_ne_zero (Nat.ne_of_gt (Nat.zero_lt_of_lt hle))
    have hless : fuel ≤ fuel' := Nat.le_of_succ_le_succ hle
    cases e with
    | null => cases h
    | head => cases h
    | tail => exact h
    | job a =>
      rw [deleteLoop] at h ⊢
      split_ifs at h ⊢
      · obtain ⟨⟨t, e⟩, hremove, hrest⟩ := Option.bind_eq_some_iff.mp h
        obtain ⟨u, hdeleted, hloop⟩ := Option.bind_eq_some_iff.mp hrest
        rw [hremove, Option.bind_some]
        dsimp only
        rw [hdeleted, Option.bind_some]
        exact ih hless hloop
      · obtain ⟨e, hnext, hloop⟩ := Option.bind_eq_some_iff.mp h
        rw [hnext, Option.bind_some]
        exact ih hless hloop

end Operations

section Runs

variable {s s' : Store} {jobs : List Nat}

/-- An operation on the jobs: `add_job` with memory that was not in use, or a pass of
`delete_all_finished_jobs`. -/
inductive Op where
  | add (a : Nat)
  | delete (fuel : Nat) (status : Nat → Status)

def system : System Store Op where
  init s := s.links.next .head = .tail ∧ s.links.prev .tail = .head ∧ s.links.next .tail = .null ∧
    (∀ i, s.jid2job i = none) ∧ ∀ a, s.live a = false
  next s
    | .add a => if s.live a then none else addJob s a
    | .delete fuel status => deleteAllFinishedJobs fuel status s

theorem agrees_init (h : system.init s) : Agrees s [] := by
  obtain ⟨hnext, hprev, hends, htable, -⟩ := h
  refine ⟨⟨?_, ?_⟩, hends, nofun, fun i a hi => ?_, nofun⟩
  · exact List.isChain_cons_cons.mpr ⟨⟨hnext, hprev⟩, List.isChain_singleton _⟩
  · decide
  · rw [htable] at hi
    cases hi

theorem delete_ok (h : Agrees s jobs) {fuel : Nat} (status : Nat → Status)
    (hfuel : jobs.length < fuel) : ∃ s', deleteAllFinishedJobs fuel status s = some s' ∧
      Agrees s' (jobs.filter fun a => !toDeleteJob (status a)) ∧
        ∀ b ∈ jobs.filter fun a => !toDeleteJob (status a), s'.jid b = s.jid b := by
  rw [deleteAllFinishedJobs, listBegin, h.list.next_head]
  have h : Agrees s ([] ++ jobs) := h
  exact deleteLoop_ok h hfuel

/-- What holds of the two structures: the list is in step with the table, an added job gets the
smallest free id, and a pass keeps the jobs that are not to be deleted, in their order. -/
structure InStep (s : Store) (jobs : List Nat) : Prop where
  agrees : Agrees s jobs
  distinct : (jobs.map s.jid).Nodup
  added : ∀ a, s.live a = false → (∃ i, 0 < i ∧ i < MAXJOBS ∧ s.jid2job i = none) →
    ∃ s' i, addJob s a = some s' ∧ Agrees s' (jobs ++ [a]) ∧ s'.jid a = (i : Nat) ∧
      IsLeast {i | 0 < i ∧ i < MAXJOBS ∧ s.jid2job i = none} i ∧ ∀ b ∈ jobs, s'.jid b = s.jid b
  deleted : ∀ fuel status, jobs.length < fuel →
    ∃ s', deleteAllFinishedJobs fuel status s = some s' ∧
      Agrees s' (jobs.filter fun a => !toDeleteJob (status a)) ∧
        ∀ b ∈ jobs.filter fun a => !toDeleteJob (status a), s'.jid b = s.jid b

theorem agrees_next {op : Op} (h : Agrees s jobs) (hnext : system.next s op = some s') :
    ∃ jobs', Agrees s' jobs' := by
  cases op with
  | add a =>
    change (if s.live a = true then none else addJob s a) = some s' at hnext
    split_ifs at hnext with hlive
    have hfree : ∃ i, 0 < i ∧ i < MAXJOBS ∧ s.jid2job i = none := by
      obtain ⟨i, hi, -⟩ := addJob_table hnext
      exact ⟨i, (freeJid_least hi).1⟩
    obtain ⟨t, i, hadd, hagrees, -⟩ := addJob_ok h (Bool.eq_false_iff.mpr hlive) hfree
    obtain rfl : t = s' := Option.some.inj (hadd.symm.trans hnext)
    exact ⟨_, hagrees⟩
  | delete fuel status =>
    obtain ⟨t, hdelete, hagrees, -⟩ := delete_ok h status
      (Nat.lt_of_lt_of_le (Nat.lt_succ_self _) (Nat.le_max_left (jobs.length + 1) fuel))
    have hsame := deleteLoop_mono (Nat.le_max_right (jobs.length + 1) fuel) hnext
    obtain rfl : t = s' := Option.some.inj (hdelete.symm.trans hsame)
    exact ⟨_, hagrees⟩

/-- After any sequence of additions and passes, the job list and the table of ids are in step. -/
theorem tables_in_step (h : Reachable system s) : ∃ jobs, InStep s jobs := by
  have hagrees : ∃ jobs, Agrees s jobs := by
    refine h.invariant (P := fun s => ∃ jobs, Agrees s jobs) (fun s hinit => ⟨[], agrees_init hinit⟩)
      ?_
    rintro s op s' ⟨jobs, hjobs⟩ - hnext
    exact agrees_next hjobs hnext
  obtain ⟨jobs, hjobs⟩ := hagrees
  exact ⟨jobs, hjobs, nodup_jids hjobs, fun a hlive hfree => addJob_ok hjobs hlive hfree,
    fun fuel status hfuel => delete_ok hjobs status hfuel⟩

end Runs

section Samples

def start : Store where
  links := ⟨fun e => if e = .tail then .null else .tail, fun e => if e = .head then .null else .head⟩
  jid2job _ := none
  jid _ := 0
  live _ := false

theorem start_init : system.init start :=
  ⟨rfl, rfl, rfl, fun _ => rfl, fun _ => rfl⟩

/-- Three jobs are added, the second one exits and is removed, and its id is used again. -/
theorem tables_in_step_sample : ∃ s, Reachable system s ∧ s.jid 3 = 3 ∧ s.jid 4 = 2 ∧
    ∃ jobs, InStep s jobs := by
  have hrun : (system.exec start [.add 1, .add 2, .add 3,
      .delete 4 fun a => if a = 2 then .EXITED else .BACKGROUND, .add 4]).map
      (fun s => (s.jid 3, s.jid 4)) = some (3, 2) := by
    decide
  obtain ⟨s, hs, hobs⟩ := Option.map_eq_some_iff.mp hrun
  obtain ⟨hthird, hfourth⟩ := Prod.mk.inj hobs
  have hreach := Reachable.exec (.start start_init) hs
  exact ⟨s, hreach, hthird, hfourth, tables_in_step hreach⟩

end Samples

end ComputerSystems.Cush.JobTable
