/- Every section of the pool is a run of operations on its locks and lists. -/

import ComputerSystems.Threadpool.Locks
import ComputerSystems.Threadpool.Progress

set_option autoImplicit false
set_option relaxedAutoImplicit false

namespace ComputerSystems.Threadpool.Sections

open ComputerSystems.Systems.Runs
open ComputerSystems.Systems.Mutexes
open ComputerSystems.Threadpool.Programs
open ComputerSystems.Threadpool.Locks (Mutex EmptyPc SubmitPc listLock owned transfer op loopOp
  loopStep emptyOp emptyStep submitOp submitStep getOp getStep getBranch)
open ComputerSystems.Threadpool.Turns (Sound sound_of_init sound_of_reachable)
open ComputerSystems.Threadpool.Wakeups (Section section_of_next)
open ComputerSystems.Threadpool.Progress (section_thread)

section Places

variable {Task Val Code : Type}

def placeLoop : Pool.LoopPc → Locks.LoopPc
  | .start => .start
  | .arrive => .arrive
  | .barrier => .barrier
  | .head => .enter
  | .wait => .waiting
  | .scan e => .scan e
  | .finish f stolen => .finish f stolen
  | .exit => .exit

def placeGet : Pool.GetPc → Locks.GetPc
  | .enter => .lock
  | .finish => .finish
  | .result => .done

/-- Where a thread stands between two sections. -/
def place : Pool.Control Val Code → Locks.Control Task Val Code
  | .loop pc => .loop (placeLoop pc)
  | .code c => .code c
  | .get asked f k pc => .get asked f k (placeGet pc)
  | .done => .done

def caller : Pool.Caller Val Code → Locks.Caller Val Code
  | .loop f stolen => .loop f stolen
  | .get asked f k => .get asked f k

def free : Mutex → Option Nat := fun _ => none

def held (t : Nat) (m : Mutex) : Mutex → Option Nat := Function.update free m (some t)

/-- The pool between two sections, when nobody owns a mutex. -/
def lift (s : Pool.State Task Val Code) (entries : Nat → List (Mutex → Bool)) :
    Locks.State Task Val Code where
  owner := free
  isShutdown := s.isShutdown
  tasks := s.tasks
  workers := s.workers
  arrived := s.arrived
  submitted := s.submitted
  future := s.future
  thread t := ⟨place (s.thread t).control, (s.thread t).callers.map caller⟩
  entries := entries

/-- The pool inside a section, with the thread `t` at `c`. -/
def mid (s : Pool.State Task Val Code) (entries : Nat → List (Mutex → Bool))
    (owner : Mutex → Option Nat) (t : Nat) (c : Locks.Control Task Val Code) :
    Locks.State Task Val Code :=
  { lift s entries with
    owner := owner
    thread := Function.update (lift s entries).thread t ⟨c, (s.thread t).callers.map caller⟩ }

/-- The task of `f` has been taken from its list. -/
def running (s : Pool.State Task Val Code) (f : Nat) : Pool.State Task Val Code :=
  { s with future := Function.update s.future f { s.future f with state := .RUNNING } }

variable {P : Program Task Val Code} {t : Nat} {s : Pool.State Task Val Code}
variable {entries : Nat → List (Mutex → Bool)} {owner : Mutex → Option Nat}
variable {c c' : Locks.Control Task Val Code} {m : Mutex}

@[simp] theorem caller_future {k : Pool.Caller Val Code} : (caller k).future = k.future := by
  cases k <;> rfl

@[simp] theorem caller_resume {k : Pool.Caller Val Code} :
    ((caller k).resume : Locks.Control Task Val Code) = place k.resume := by
  cases k <;> rfl

@[simp] theorem mid_control : ((mid s entries owner t c).thread t).control = c := by
  simp [mid]

@[simp] theorem mid_callers :
    ((mid s entries owner t c).thread t).callers = (s.thread t).callers.map caller := by
  simp [mid]

theorem lift_mid : lift s entries = mid s entries free t (place (s.thread t).control) := by
  simp [mid, lift]

theorem mid_go : (mid s entries owner t c).go t c' = mid s entries owner t c' := by
  simp [mid, Locks.State.go, Locks.State.setThread]

theorem mid_call : (mid s entries owner t c).call t c' =
    mid s (Function.update entries t (owned (mid s entries owner t c) t :: entries t)) owner t
      c' := by
  rw [Locks.State.call, mid_go]
  rfl

theorem mid_leave : (mid s entries owner t c).leave t c' =
    mid s (Function.update entries t (entries t).tail) owner t c' := by
  rw [Locks.State.leave, mid_go]
  rfl

theorem lift_setControl {d : Pool.Control Val Code} :
    lift (s.setControl t d) entries = mid s entries free t (place d) := by
  have hthread : (lift (s.setControl t d) entries).thread =
      (mid s entries free t (place d)).thread := by
    funext u
    by_cases hu : u = t
    · subst hu
      simp [mid, lift, Pool.State.setControl]
    · simp [mid, lift, Pool.State.setControl, hu]
  exact congrArg (fun th => { lift s entries with thread := th }) hthread

/-- A section ends with the call of a task function. -/
theorem lift_callTask {k : Pool.Caller Val Code} :
    { Locks.callTask P (mid (running s k.future) entries owner t c) t (caller k) with
        owner := free } = lift (Pool.callTask P s t k) entries := by
  have hthread :
      (Locks.callTask P (mid (running s k.future) entries owner t c) t (caller k)).thread =
        (lift (Pool.callTask P s t k) entries).thread := by
    funext u
    by_cases hu : u = t
    · subst hu
      simp [Locks.callTask, Locks.State.setThread, mid, lift, Pool.callTask, running, place]
    · simp [Locks.callTask, Locks.State.setThread, mid, lift, Pool.callTask, running, hu]
  exact congrArg (fun th => { lift (Pool.callTask P s t k) entries with thread := th }) hthread

theorem lift_returnTask {value : Val} :
    Locks.returnTask (mid s entries free t c) t value =
      lift (Pool.returnTask s t value) entries := by
  rw [Locks.returnTask, Pool.returnTask, mid_callers]
  cases (s.thread t).callers with
  | nil =>
    change (mid s entries free t c).go t .done = lift (s.setControl t .done) entries
    rw [mid_go, lift_setControl]
    rfl
  | cons k callers =>
    let s' : Pool.State Task Val Code :=
      { s with
        future := Function.update s.future k.future { s.future k.future with result := value }
        thread := Function.update s.thread t ⟨k.resume, callers⟩
        returned := Function.update s.returned k.future (some value) }
    have hthread : Function.update (mid s entries free t c).thread t
        ⟨(caller k).resume, callers.map caller⟩ = (lift s' entries).thread := by
      funext u
      by_cases hu : u = t
      · subst hu
        simp [lift, s']
      · simp [mid, lift, s', hu]
    have hfuture : Function.update s.future (caller k).future
        { s.future (caller k).future with result := value } = s'.future := by
      rw [caller_future]
    exact congrArg₂ (fun th fs => { lift s' entries with thread := th, future := fs })
      hthread hfuture

theorem release : Function.update (held t m) m none = free := by
  funext k
  by_cases hk : k = m
  · subst hk
    simp [free]
  · simp [held, hk]

theorem perform_lock : perform free t (.lock m) = some (held t m) := by
  rw [perform]
  exact if_pos rfl

theorem perform_unlock : perform (held t m) t (.unlock m) = some free :=
  congrArg some release

theorem perform_wait : perform (held t m) t (.wait m) = some free :=
  congrArg some release

end Places

section Paths

variable {Task Val Code : Type} {P : Program Task Val Code} {n t w : Nat}
variable {s s' : Pool.State Task Val Code} {entries : Nat → List (Mutex → Bool)}
variable {owner owner' : Mutex → Option Nat} {c c' : Locks.Control Task Val Code} {m : Mutex}
variable {σ σ' : Locks.State Task Val Code} {q : Option Nat} {b : Bool}

/-- Runs of operations on the locks and lists. -/
abbrev Path (P : Program Task Val Code) (n : Nat) :
    Locks.State Task Val Code → Locks.State Task Val Code → Prop :=
  After (Locks.system P n) fun _ _ => True

/-- Some run of operations ends at the pool `s`. -/
def Ends (P : Program Task Val Code) (n : Nat) (σ : Locks.State Task Val Code)
    (s : Pool.State Task Val Code) : Prop :=
  ∃ entries, Path P n σ (lift s entries)

theorem Ends.of_path (h : Path P n σ (lift s entries)) : Ends P n σ s :=
  ⟨entries, h⟩

theorem Ends.of_setControl {d : Pool.Control Val Code}
    (h : Path P n σ (mid s entries free t (place d))) : Ends P n σ (s.setControl t d) :=
  ⟨entries, lift_setControl ▸ h⟩

theorem Ends.after (hends : Ends P n σ' s) (h : Path P n σ σ') : Ends P n σ s :=
  hends.imp fun _ hrest => h.trans hrest

theorem path_step
    (hperform : perform owner t (op n (mid s entries owner t c) t).action = some owner')
    (htransfer : transfer P n (mid s entries owner t c) t b = some σ) :
    Path P n (mid s entries owner t c) { σ with owner := owner' } := by
  refine After.refl.step (i := .run t b) trivial ?_
  change ((perform owner t (op n (mid s entries owner t c) t).action).bind fun o =>
    (transfer P n (mid s entries owner t c) t b).bind fun σ => some { σ with owner := o }) = _
  rw [hperform, Option.bind_some, htransfer, Option.bind_some]

theorem path_go
    (hperform : perform owner t (op n (mid s entries owner t c) t).action = some owner')
    (htransfer : transfer P n (mid s entries owner t c) t b =
      some ((mid s' entries owner t c).go t c')) :
    Path P n (mid s entries owner t c) (mid s' entries owner' t c') := by
  rw [mid_go] at htransfer
  exact path_step hperform htransfer

/-- A function of the pool is entered. -/
theorem path_call
    (hperform : perform owner t (op n (mid s entries owner t c) t).action = some owner)
    (htransfer : transfer P n (mid s entries owner t c) t b =
      some ((mid s entries owner t c).call t c')) :
    ∃ entries', Path P n (mid s entries owner t c) (mid s entries' owner t c') := by
  rw [mid_call] at htransfer
  exact ⟨_, path_step hperform htransfer⟩

theorem path_leave
    (hperform : perform owner t (op n (mid s entries owner t c) t).action = some owner)
    (htransfer : transfer P n (mid s entries owner t c) t b =
      some ((mid s entries owner t c).leave t c')) :
    ∃ entries', Path P n (mid s entries owner t c) (mid s entries' owner t c') := by
  rw [mid_leave] at htransfer
  exact ⟨_, path_step hperform htransfer⟩

theorem loop_path {pc : Locks.LoopPc}
    (hperform : perform owner t (loopOp (mid s entries owner t (.loop pc)) pc).action = some owner')
    (hstep : loopStep P n (mid s entries owner t (.loop pc)) t pc =
      some ((mid s' entries owner t (.loop pc)).go t c')) :
    Path P n (mid s entries owner t (.loop pc)) (mid s' entries owner' t c') := by
  refine path_go (b := false) ?_ ?_
  · rw [op, mid_control]
    exact hperform
  · rw [transfer, mid_control]
    exact hstep

theorem empty_path {pc : EmptyPc}
    (hperform : perform owner t (emptyOp pc).action = some owner')
    (hstep : emptyStep (mid s entries owner t (.empty pc)) t b pc =
      (mid s' entries owner t (.empty pc)).go t c') :
    Path P n (mid s entries owner t (.empty pc)) (mid s' entries owner' t c') := by
  refine path_go (b := b) ?_ ?_
  · rw [op, mid_control]
    exact hperform
  · rw [transfer, mid_control]
    exact congrArg some hstep

theorem submit_path {task : Task} {data : Val} {k : Nat → Code} {pc : SubmitPc}
    (hperform : perform owner t
      (submitOp n (mid s entries owner t (.submit task data k pc)) t pc).action = some owner')
    (hstep : submitStep n (mid s entries owner t (.submit task data k pc)) t task data k pc =
      (mid s' entries owner t (.submit task data k pc)).go t c') :
    Path P n (mid s entries owner t (.submit task data k pc)) (mid s' entries owner' t c') := by
  refine path_go (b := false) ?_ ?_
  · rw [op, mid_control]
    exact hperform
  · rw [transfer, mid_control]
    exact congrArg some hstep

theorem get_path {asked f : Nat} {k : Val → Code} {pc : Locks.GetPc}
    (hperform : perform owner t
      (getOp (mid s entries owner t (.get asked f k pc)) f pc).action = some owner')
    (hstep : getStep P (mid s entries owner t (.get asked f k pc)) t asked f k pc =
      some ((mid s' entries owner t (.get asked f k pc)).go t c')) :
    Path P n (mid s entries owner t (.get asked f k pc)) (mid s' entries owner' t c') := by
  refine path_go (b := false) ?_ ?_
  · rw [op, mid_control]
    exact hperform
  · rw [transfer, mid_control]
    exact hstep

/-- The last operation of a section calls a task function. -/
theorem call_ends {k : Pool.Caller Val Code}
    (hperform : perform owner t
      (op n (mid (running s k.future) entries owner t c) t).action = some free)
    (htransfer : transfer P n (mid (running s k.future) entries owner t c) t b =
      some (Locks.callTask P (mid (running s k.future) entries owner t c) t (caller k))) :
    Ends P n (mid (running s k.future) entries owner t c) (Pool.callTask P s t k) := by
  have hstep := path_step hperform htransfer
  rw [lift_callTask] at hstep
  exact .of_path hstep

end Paths

section Worker

variable {Task Val Code : Type} {P : Program Task Val Code} {n t w : Nat}
variable {s s' : Pool.State Task Val Code} {entries : Nat → List (Mutex → Bool)}
variable {q : Option Nat} {b : Bool}

theorem start_path : Path P n (mid s entries free t (.loop .start))
    (mid { s with workers := t :: s.workers } entries free t (.loop .arrive)) := by
  have hlock : Path P n (mid s entries free t (.loop .start))
      (mid s entries (held t .globalLock) t (.loop .register)) := loop_path perform_lock rfl
  have hregister : Path P n (mid s entries (held t .globalLock) t (.loop .register))
      (mid { s with workers := t :: s.workers } entries (held t .globalLock) t
        (.loop .registered)) := loop_path rfl rfl
  exact (hlock.trans hregister).trans (loop_path perform_unlock rfl)

theorem pop_ends (h : s.tasks q ≠ []) :
    Ends P n (mid s entries (held t (listLock q)) t (.loop (.pop q)))
      (Pool.callTask P (s.setTasks q (s.tasks q).dropLast) t
        (.loop ((s.tasks q).getLast h) q)) := by
  have hpop : Path P n (mid s entries (held t (listLock q)) t (.loop (.pop q)))
      (mid (running (s.setTasks q (s.tasks q).dropLast) ((s.tasks q).getLast h)) entries
        (held t (listLock q)) t (.loop (.popped ((s.tasks q).getLast h) q))) :=
    loop_path rfl (dif_pos h)
  refine Ends.after (call_ends (b := false) ?_ ?_) hpop
  · rw [op, mid_control]
    exact perform_unlock
  · rw [transfer, mid_control]
    rfl

/-- From the second test of the inner loop on. -/
theorem check_ends : Ends P n (mid s entries (held t .globalLock) t (.loop .check))
    (if h : s.tasks none ≠ [] ∧ s.isShutdown = false then
      Pool.callTask P (s.setTasks none (s.tasks none).dropLast) t
        (.loop ((s.tasks none).getLast h.1) none)
      else s.setControl t (.loop (.scan s.workers.head?))) := by
  have htest : ∀ {pc : Locks.LoopPc},
      (if (!(s.tasks none).isEmpty && !s.isShutdown) = true then Locks.LoopPc.pop none
        else .search) = pc →
      Path P n (mid s entries (held t .globalLock) t (.loop .check))
        (mid s entries (held t .globalLock) t (.loop pc)) := by
    rintro pc rfl
    exact loop_path rfl rfl
  split
  · rename_i h
    exact (pop_ends h.1).after (htest (if_pos (by simp [h.1, h.2])))
  · rename_i h
    have hsearch : Path P n (mid s entries (held t .globalLock) t (.loop .search))
        (mid s entries free t (.loop (.scan s.workers.head?))) := loop_path perform_unlock rfl
    exact .of_setControl ((htest (if_neg (by simpa using h))).trans hsearch)

theorem listNext_split {l r : List Nat} (h : (l ++ w :: r).Nodup) :
    listNext (l ++ w :: r) w = r.head? := by
  induction l with
  | nil => exact if_pos rfl
  | cons x l ih =>
    rw [List.cons_append, List.nodup_cons] at h
    have hne : x ≠ w := fun heq => h.1 (heq ▸ List.mem_append_right l List.mem_cons_self)
    rw [List.cons_append, listNext, if_neg hne, ih h.2]

theorem listNext_none {l : List Nat} (h : w ∉ l) : listNext l w = none := by
  induction l with
  | nil => rfl
  | cons x l ih =>
    rw [listNext, if_neg (List.ne_of_not_mem_cons h).symm, ih (List.not_mem_of_not_mem_cons h)]

theorem local_free :
    Function.update (held t .globalLock) (.localLock w) none = held t .globalLock := by
  funext k
  by_cases hk : k = .localLock w
  · subst hk
    simp [held, free]
  · rw [Function.update_of_ne hk]

/-- `workers_lists_empty` looks into the list of a worker. -/
theorem look_path : Path P n (mid s entries (held t .globalLock) t (.empty (.scan (some w))))
    (mid s entries (held t .globalLock) t (.empty (.scan (listNext s.workers w)))) := by
  let both : Mutex → Option Nat := Function.update (held t .globalLock) (.localLock w) (some t)
  have hscan : Path P n (mid s entries (held t .globalLock) t (.empty (.scan (some w))))
      (mid s entries (held t .globalLock) t (.empty (.lock w))) := empty_path (b := false) rfl rfl
  have hlock : Path P n (mid s entries (held t .globalLock) t (.empty (.lock w)))
      (mid s entries both t (.empty (.check w))) := empty_path (b := false) rfl rfl
  have hunlocked : Function.update both (.localLock w) none = held t .globalLock := by
    rw [Function.update_idem, local_free]
  have hcheck : ∀ {pc : EmptyPc},
      (if (s.tasks (some w)).isEmpty = true then EmptyPc.unlock w else .early w) = pc →
      Path P n (mid s entries both t (.empty (.check w))) (mid s entries both t (.empty pc)) := by
    rintro pc rfl
    exact empty_path (b := false) rfl rfl
  have hunlock : ∀ o : Mutex → Option Nat,
      Function.update o (.localLock w) none = held t .globalLock →
      Path P n (mid s entries o t (.empty (.unlock w)))
        (mid s entries (held t .globalLock) t (.empty (.scan (listNext s.workers w)))) :=
    fun o ho => empty_path (b := false) (congrArg some ho) rfl
  refine (hscan.trans hlock).trans ?_
  by_cases hempty : (s.tasks (some w)).isEmpty = true
  · exact (hcheck (if_pos hempty)).trans (hunlock both hunlocked)
  · have hearly : Path P n (mid s entries both t (.empty (.early w)))
        (mid s entries (held t .globalLock) t (.empty (.unlock w))) :=
      empty_path (b := false) (congrArg some hunlocked) rfl
    exact ((hcheck (if_neg hempty)).trans hearly).trans (hunlock _ local_free)

theorem scan_path {l r : List Nat} (hnodup : s.workers.Nodup) (h : s.workers = l ++ r) :
    Path P n (mid s entries (held t .globalLock) t (.empty (.scan r.head?)))
      (mid s entries (held t .globalLock) t (.empty (.scan none))) := by
  induction r generalizing l with
  | nil => exact .refl
  | cons w r ih =>
    have hnext : listNext s.workers w = r.head? := by
      rw [h, listNext_split (h ▸ hnodup)]
    have hlook : Path P n (mid s entries (held t .globalLock) t (.empty (.scan (some w))))
        (mid s entries (held t .globalLock) t (.empty (.scan r.head?))) := hnext ▸ look_path
    exact hlook.trans (ih (l := l ++ [w]) (by rw [h, List.append_assoc]; rfl))

/-- `workers_lists_empty`, whatever it returns. -/
theorem listsEmpty_path (b : Bool) (hnodup : s.workers.Nodup)
    (hinner : (!s.isShutdown && (s.tasks none).isEmpty) = true) : ∃ entries',
    Path P n (mid s entries (held t .globalLock) t (.loop .inner))
      (mid s entries' (held t .globalLock) t (.loop (.tested b))) := by
  obtain ⟨entries₁, hcall⟩ : ∃ entries₁,
      Path P n (mid s entries (held t .globalLock) t (.loop .inner))
        (mid s entries₁ (held t .globalLock) t (.empty (.scan (some t)))) := by
    refine path_call (b := b) ?_ ?_
    · rw [op, mid_control]
      dsimp only [loopOp]
      split <;> rfl
    · rw [transfer, mid_control]
      exact if_pos hinner
  have hscan : Path P n (mid s entries₁ (held t .globalLock) t (.empty (.scan (some t))))
      (mid s entries₁ (held t .globalLock) t (.empty (.scan none))) := by
    by_cases ht : t ∈ s.workers
    · obtain ⟨l, r, h⟩ := List.append_of_mem ht
      exact scan_path (r := t :: r) hnodup h
    · have hnext : listNext s.workers t = none := listNext_none ht
      exact hnext ▸ look_path
  obtain ⟨entries₂, hleave⟩ : ∃ entries₂,
      Path P n (mid s entries₁ (held t .globalLock) t (.empty (.scan none)))
        (mid s entries₂ (held t .globalLock) t (.loop (.tested b))) := by
    refine path_leave (b := b) ?_ ?_
    · rw [op, mid_control]
      rfl
    · rw [transfer, mid_control]
      rfl
  exact ⟨entries₂, hcall.trans (hscan.trans hleave)⟩

/-- From the first test of the inner loop on. -/
theorem search_ends (hnodup : s.workers.Nodup) :
    Ends P n (mid s entries (held t .globalLock) t (.loop .inner)) (Pool.search P b s t) := by
  by_cases hinner : (!s.isShutdown && (s.tasks none).isEmpty) = true
  · obtain ⟨entries', hempty⟩ := listsEmpty_path (P := P) (n := n) (t := t) b hnodup hinner
    refine Ends.after ?_ hempty
    rw [Pool.search, hinner]
    have htested : Path P n (mid s entries' (held t .globalLock) t (.loop (.tested b)))
        (mid s entries' (held t .globalLock) t (.loop (if b then .wait else .check))) :=
      loop_path rfl rfl
    cases b with
    | true => exact .of_setControl (htested.trans (loop_path perform_wait rfl))
    | false => exact Ends.after check_ends htested
  · have hcheck : Path P n (mid s entries (held t .globalLock) t (.loop .inner))
        (mid s entries (held t .globalLock) t (.loop .check)) := by
      refine loop_path ?_ (if_neg hinner)
      dsimp only [loopOp]
      split <;> rfl
    rw [Pool.search, Bool.eq_false_iff.mpr hinner, Bool.false_and, if_neg Bool.false_ne_true]
    exact Ends.after check_ends hcheck

theorem loopHead_ends (hnodup : s.workers.Nodup) :
    Ends P n (mid s entries (held t .globalLock) t (.loop .outer)) (Pool.loopHead P b s t) := by
  have houter : ∀ {pc : Locks.LoopPc},
      (if s.isShutdown = true then Locks.LoopPc.closing else .inner) = pc →
      Path P n (mid s entries (held t .globalLock) t (.loop .outer))
        (mid s entries (held t .globalLock) t (.loop pc)) := by
    rintro pc rfl
    exact loop_path rfl rfl
  rw [Pool.loopHead]
  by_cases hshutdown : s.isShutdown = true
  · rw [if_pos hshutdown]
    exact .of_setControl ((houter (if_pos hshutdown)).trans (loop_path perform_unlock rfl))
  · rw [if_neg hshutdown]
    exact (search_ends hnodup).after (houter (if_neg hshutdown))

theorem visit_ends :
    Ends P n (mid s entries free t (.loop (.scan (some w)))) (Pool.visit P s t w) := by
  have hscan : Path P n (mid s entries free t (.loop (.scan (some w))))
      (mid s entries free t (.loop (.visit w))) := loop_path rfl rfl
  have hlock : Path P n (mid s entries free t (.loop (.visit w)))
      (mid s entries (held t (.localLock w)) t (.loop (.visited w))) := loop_path perform_lock rfl
  have hvisited : ∀ {pc : Locks.LoopPc},
      (if (s.tasks (some w)).isEmpty = true then Locks.LoopPc.skip w else .pop (some w)) = pc →
      Path P n (mid s entries (held t (.localLock w)) t (.loop (.visited w)))
        (mid s entries (held t (.localLock w)) t (.loop pc)) := by
    rintro pc rfl
    exact loop_path rfl rfl
  refine Ends.after ?_ (hscan.trans hlock)
  rw [Pool.visit]
  split
  · rename_i h
    exact (pop_ends h).after (hvisited (if_neg (by simpa using h)))
  · rename_i h
    exact .of_setControl
      ((hvisited (if_pos (by simpa using h))).trans (loop_path perform_unlock rfl))

theorem threadFunction_ends {pc : Pool.LoopPc} (hnodup : s.workers.Nodup)
    (h : Pool.threadFunction P n b s t pc = some s') :
    Ends P n (mid s entries free t (.loop (placeLoop pc))) s' := by
  have henter : Path P n (mid s entries free t (.loop .enter))
      (mid s entries (held t .globalLock) t (.loop .outer)) := loop_path perform_lock rfl
  cases pc with
  | start =>
    cases h
    exact .of_setControl start_path
  | arrive =>
    cases h
    exact .of_setControl (loop_path rfl rfl)
  | barrier =>
    rw [Pool.threadFunction] at h
    split_ifs at h with harrived
    cases h
    exact .of_setControl (loop_path rfl (if_pos harrived))
  | head =>
    cases h
    exact (loopHead_ends hnodup).after henter
  | wait =>
    cases h
    have hlock : Path P n (mid s entries free t (.loop .waiting))
        (mid s entries (held t .globalLock) t (.loop .inner)) := loop_path perform_lock rfl
    exact (search_ends hnodup).after hlock
  | scan e =>
    cases e with
    | none =>
      cases h
      have hscan : Path P n (mid s entries free t (.loop (.scan none)))
          (mid s entries free t (.loop .enter)) := loop_path rfl rfl
      exact (loopHead_ends hnodup).after (hscan.trans henter)
    | some w =>
      cases h
      exact visit_ends
  | finish f stolen =>
    have hlock : Path P n (mid s entries free t (.loop (.finish f stolen)))
        (mid s entries (held t (listLock stolen)) t (.loop (.finished f stolen))) :=
      loop_path perform_lock rfl
    cases stolen with
    | none =>
      cases h
      have hfinished : Path P n (mid s entries (held t .globalLock) t (.loop (.finished f none)))
          (mid (Pool.finishTask s f) entries (held t .globalLock) t (.loop .outer)) :=
        loop_path rfl rfl
      exact (loopHead_ends (s := Pool.finishTask s f) hnodup).after (hlock.trans hfinished)
    | some w =>
      cases h
      have hfinished :
          Path P n (mid s entries (held t (.localLock w)) t (.loop (.finished f (some w))))
            (mid (Pool.finishTask s f) entries (held t (.localLock w)) t (.loop (.leave w))) :=
        loop_path rfl rfl
      exact .of_setControl ((hlock.trans hfinished).trans (loop_path perform_unlock rfl))
  | exit => cases h

end Worker

section Calls

variable {Task Val Code : Type} {P : Program Task Val Code} {n t w f asked : Nat}
variable {s s' : Pool.State Task Val Code} {entries : Nat → List (Mutex → Bool)}
variable {k : Val → Code}

/-- Every task is in the list that it was submitted to. -/
def Queued (s : Pool.State Task Val Code) : Prop :=
  ∀ q f, f ∈ s.tasks q → (s.future f).worker = q

theorem queued_of_sound (h : Sound s) : Queued s :=
  fun _ _ hf => (h.inv.of_queued hf).2.2.1

theorem Queued.erase (hqueued : Queued s) (hworker : (s.future f).worker = some w) :
    (fun q => (s.tasks q).erase f) =
      Function.update s.tasks (some w) ((s.tasks (some w)).erase f) := by
  funext q
  by_cases hq : q = some w
  · subst hq
    rw [Function.update_self]
  · have hmem : f ∉ s.tasks q := fun hmem => hq ((hqueued q f hmem).symm.trans hworker)
    rw [Function.update_of_ne hq, List.erase_of_not_mem hmem]

/-- `future_get` gives its mutex back and calls the task function of `f`. -/
theorem running_ends : Ends P n
    (mid (running s f) entries (held t (listLock (s.future f).worker)) t (.get asked f k .running))
    (Pool.callTask P s t (.get asked f k)) := by
  have hworker : ((running s f).future f).worker = (s.future f).worker := by
    simp [running]
  refine call_ends (k := .get asked f k) (b := false) ?_ ?_
  · rw [op, mid_control]
    change perform (held t (listLock (s.future f).worker)) t
      (.unlock (listLock ((running s f).future f).worker)) = _
    rw [hworker]
    exact perform_unlock
  · rw [transfer, mid_control]
    rfl

/-- `future_get` has its mutex and looks at the future. -/
theorem branch_path {pc : Locks.GetPc}
    (hbranch : getBranch (lift s entries) f = pc) :
    Path P n (mid s entries free t (.get asked f k .lock))
      (mid s entries (held t (listLock (s.future f).worker)) t (.get asked f k pc)) := by
  subst hbranch
  have hlock : Path P n (mid s entries free t (.get asked f k .lock))
      (mid s entries (held t (listLock (s.future f).worker)) t (.get asked f k .branch)) :=
    get_path perform_lock rfl
  exact hlock.trans (get_path rfl rfl)

/-- `future_get` finds the value. -/
theorem finished_ends (hstate : (s.future f).state = .FINISHED) :
    Ends P n (mid s entries free t (.get asked f k .lock))
      (s.setControl t (.get asked f k .result)) := by
  have hbranch : Path P n (mid s entries free t (.get asked f k .lock))
      (mid s entries (held t (listLock (s.future f).worker)) t (.get asked f k .await)) := by
    refine branch_path ?_
    cases hworker : (s.future f).worker <;> simp [getBranch, lift, hworker, hstate]
  have hawait : Path P n
      (mid s entries (held t (listLock (s.future f).worker)) t (.get asked f k .await))
      (mid s entries (held t (listLock (s.future f).worker)) t (.get asked f k
        (if (s.future f).state = .FINISHED then .unlock else .wait))) := get_path rfl rfl
  rw [if_pos hstate] at hawait
  exact .of_setControl ((hbranch.trans hawait).trans (get_path perform_unlock rfl))

theorem getLocal_ends (hqueued : Queued s) (hworker : (s.future f).worker = some w) :
    Ends P n (mid s entries free t (.get asked f k .lock)) (Pool.getLocal P s t asked f w k) := by
  rw [Pool.getLocal]
  cases hstate : (s.future f).state with
  | WAITING =>
    have hbranch : Path P n (mid s entries free t (.get asked f k .lock))
        (mid s entries (held t (listLock (s.future f).worker)) t (.get asked f k .remove)) :=
      branch_path (by simp [getBranch, lift, hworker, hstate])
    have hremove : Path P n
        (mid s entries (held t (listLock (s.future f).worker)) t (.get asked f k .remove))
        (mid (running (s.setTasks (some w) ((s.tasks (some w)).erase f)) f) entries
          (held t (listLock (s.future f).worker)) t (.get asked f k .running)) := by
      refine get_path rfl ?_
      rw [Pool.State.setTasks, ← hqueued.erase hworker]
      rfl
    exact running_ends.after (hbranch.trans hremove)
  | RUNNING =>
    have hbranch : Path P n (mid s entries free t (.get asked f k .lock))
        (mid s entries (held t (listLock (s.future f).worker)) t (.get asked f k .check)) :=
      branch_path (by simp [getBranch, lift, hworker, hstate])
    have hcheck : Path P n
        (mid s entries (held t (listLock (s.future f).worker)) t (.get asked f k .check))
        (mid s entries (held t (listLock (s.future f).worker)) t (.get asked f k
          (if (s.tasks (s.future f).worker).isEmpty then .unlock else .pop))) := get_path rfl rfl
    rw [hworker] at hbranch hcheck
    dsimp only
    cases htasks : s.tasks (some w) with
    | nil =>
      rw [htasks] at hcheck
      refine .of_setControl ((hbranch.trans hcheck).trans (get_path ?_ rfl))
      change perform (held t (listLock (some w))) t (.unlock (listLock (s.future f).worker)) = _
      rw [hworker]
      exact perform_unlock
    | cons g rest =>
      rw [htasks] at hcheck
      have hg : (s.future g).worker = some w := hqueued _ g (htasks ▸ List.mem_cons_self)
      have hpop : Path P n (mid s entries (held t (listLock (some w))) t (.get asked f k .pop))
          (mid (running (s.setTasks (some w) rest) g) entries (held t (listLock (some w))) t
            (.get asked g k .running)) := by
        refine get_path rfl ?_
        have hlist : ((mid s entries (held t (listLock (some w))) t
            (.get asked f k .pop)).future f).worker = some w := hworker
        have htake : (mid s entries (held t (listLock (some w))) t
            (.get asked f k .pop)).tasks (some w) = g :: rest := htasks
        rw [getStep, hlist, htake]
        rfl
      have hcall : Ends P n
          (mid (running (s.setTasks (some w) rest) g) entries
            (held t (listLock (s.future g).worker)) t (.get asked g k .running))
          (Pool.callTask P (s.setTasks (some w) rest) t (.get asked g k)) := running_ends
      rw [hg] at hcall
      exact hcall.after ((hbranch.trans hcheck).trans hpop)
  | FINISHED => exact finished_ends hstate

/-- The end of `future_get` after a task function. -/
theorem finish_ends : Ends P n (mid s entries free t (.get asked f k .finish))
    ((Pool.finishTask s f).setControl t (.get asked f k .result)) := by
  have hworker : ((Pool.finishTask s f).future f).worker = (s.future f).worker := by
    simp [Pool.finishTask]
  have hlock : Path P n (mid s entries free t (.get asked f k .finish))
      (mid s entries (held t (listLock (s.future f).worker)) t (.get asked f k .finished)) :=
    get_path perform_lock rfl
  have hfinished : Path P n
      (mid s entries (held t (listLock (s.future f).worker)) t (.get asked f k .finished))
      (mid (Pool.finishTask s f) entries (held t (listLock (s.future f).worker)) t
        (.get asked f k .unlock)) := get_path rfl rfl
  refine .of_setControl ((hlock.trans hfinished).trans (get_path ?_ rfl))
  change perform (held t (listLock (s.future f).worker)) t
    (.unlock (listLock ((Pool.finishTask s f).future f).worker)) = _
  rw [hworker]
  exact perform_unlock

theorem futureGet_ends {pc : Pool.GetPc} (hqueued : Queued s) :
    Ends P n (mid s entries free t (.get asked f k (placeGet pc)))
      (Pool.futureGet P s t asked f k pc) := by
  cases pc with
  | enter =>
    rw [Pool.futureGet]
    cases hworker : (s.future f).worker with
    | none =>
      dsimp only
      rw [Pool.getGlobal]
      split_ifs with hfinished
      · exact finished_ends hfinished
      · exact .of_setControl .refl
    | some w => exact getLocal_ends hqueued hworker
  | finish => exact finish_ends
  | result =>
    obtain ⟨entries', hleave⟩ : ∃ entries',
        Path P n (mid s entries free t (.get asked f k .done))
          (mid s entries' free t (.code (k (s.future f).result))) := by
      refine path_leave (b := false) ?_ ?_
      · rw [op, mid_control]
        rfl
      · rw [transfer, mid_control]
        rfl
    exact .of_setControl hleave

theorem code_call {c : Code} {d : Locks.Control Task Val Code}
    (hexec : Locks.execInstr (mid s entries free t (.code c)) t (P.instr c) =
      some ((mid s entries free t (.code c)).call t d)) :
    ∃ entries', Path P n (mid s entries free t (.code c)) (mid s entries' free t d) := by
  refine path_call (b := false) ?_ ?_
  · rw [op, mid_control]
    rfl
  · rw [transfer, mid_control]
    exact hexec

theorem submit_ends {task : Task} {data : Val} {k : Nat → Code} {c : Code}
    (hinstr : P.instr c = .submit task data k) :
    Ends P n (mid s entries free t (.code c)) (Pool.threadPoolSubmit n s t task data k) := by
  let s₁ : Pool.State Task Val Code :=
    { s.setTasks (currWorker n t) (s.submitted :: s.tasks (currWorker n t)) with
      submitted := s.submitted + 1
      future := Function.update s.future s.submitted
        { s.future s.submitted with
          task := task, args := data, worker := currWorker n t, state := .WAITING } }
  have hworker : (s₁.future s.submitted).worker = currWorker n t := by
    simp [s₁]
  have hmutex : (if t < n then listLock (s₁.future s.submitted).worker else .globalLock) =
      listLock (currWorker n t) := by
    rw [hworker]
    split_ifs with ht
    · rfl
    · rw [currWorker, if_neg ht]
      rfl
  obtain ⟨entries₁, hcall⟩ : ∃ entries₁, Path P n (mid s entries free t (.code c))
      (mid s entries₁ free t (.submit task data k .lock)) := by
    refine code_call ?_
    rw [hinstr]
    rfl
  have hlock : Path P n (mid s entries₁ free t (.submit task data k .lock))
      (mid s entries₁ (held t (listLock (currWorker n t))) t (.submit task data k .push)) :=
    submit_path perform_lock rfl
  have hpush : Path P n
      (mid s entries₁ (held t (listLock (currWorker n t))) t (.submit task data k .push))
      (mid s₁ entries₁ (held t (listLock (currWorker n t))) t
        (.submit task data k (.unlock s.submitted))) := submit_path rfl rfl
  have hunlock : Path P n
      (mid s₁ entries₁ (held t (listLock (currWorker n t))) t
        (.submit task data k (.unlock s.submitted)))
      (mid s₁ entries₁ free t (.submit task data k (.done s.submitted))) := by
    refine submit_path ?_ rfl
    change perform (held t (listLock (currWorker n t))) t
      (.unlock (if t < n then listLock (s₁.future s.submitted).worker else .globalLock)) = _
    rw [hmutex]
    exact perform_unlock
  obtain ⟨entries₂, hleave⟩ : ∃ entries₂,
      Path P n (mid s₁ entries₁ free t (.submit task data k (.done s.submitted)))
        (mid s₁ entries₂ free t (.code (k s.submitted))) := by
    refine path_leave (b := false) ?_ ?_
    · rw [op, mid_control]
      rfl
    · rw [transfer, mid_control]
      rfl
  exact Ends.of_setControl (s := s₁)
    ((((hcall.trans hlock).trans hpush).trans hunlock).trans hleave)

theorem return_ends {value : Val} {c : Code} (hinstr : P.instr c = .ret value) :
    Ends P n (mid s entries free t (.code c)) (Pool.returnTask s t value) := by
  have hreturn : transfer P n (mid s entries free t (.code c)) t false =
      some (lift (Pool.returnTask s t value) entries) := by
    rw [transfer, mid_control, ← lift_returnTask (c := .code c)]
    dsimp only
    rw [hinstr]
    rfl
  have hperform : perform free t (op n (mid s entries free t (.code c)) t).action = some free := by
    rw [op, mid_control]
    rfl
  exact .of_path (path_step hperform hreturn)

theorem execInstr_ends {c : Code} (hexec : Pool.execInstr n s t (P.instr c) = some s') :
    Ends P n (mid s entries free t (.code c)) s' := by
  cases hinstr : P.instr c with
  | ret value =>
    rw [hinstr] at hexec
    cases hexec
    exact return_ends hinstr
  | read k =>
    rw [hinstr] at hexec
    cases hexec
  | submit task data k =>
    rw [hinstr] at hexec
    cases hexec
    exact submit_ends hinstr
  | get f k =>
    rw [hinstr, Pool.execInstr] at hexec
    split_ifs at hexec with hf
    cases hexec
    obtain ⟨entries', hcall⟩ : ∃ entries', Path P n (mid s entries free t (.code c))
        (mid s entries' free t (.get f f k .lock)) := by
      refine code_call ?_
      rw [hinstr]
      exact if_pos hf
    exact .of_setControl hcall

end Calls

section Runs

variable {Task Val Code : Type} {P : Program Task Val Code} {n t : Nat}
variable {s s' : Pool.State Task Val Code} {entries : Nat → List (Mutex → Bool)}

/-- A worker enters itself in the list of workers once. -/
structure Registered (s : Pool.State Task Val Code) : Prop where
  nodup : s.workers.Nodup
  starting : ∀ t, (s.thread t).control = .loop .start → t ∉ s.workers

theorem section_registers (h : Section P n s t s') :
    ((s.thread t).control = .loop .start ∧ s'.workers = t :: s.workers) ∨
      s'.workers = s.workers := by
  cases h with
  | register hpc => exact .inl ⟨hpc, rfl⟩
  | ret c value hpc hinstr =>
    refine .inr ?_
    unfold Pool.returnTask
    split <;> rfl
  | _ => simp [Pool.State.setControl, Pool.callTask, Pool.State.setTasks, Pool.threadPoolSubmit]

theorem section_started (h : Section P n s t s') : (s'.thread t).control ≠ .loop .start := by
  cases h with
  | ret c value hpc hinstr =>
    unfold Pool.returnTask
    split
    · simp [Pool.State.setControl]
    · rename_i k callers hcallers
      cases k <;> simp [Pool.Caller.resume]
  | walk pc pc' hpc hearly hpc' =>
    rcases hpc' with rfl | ⟨e, rfl⟩ <;> simp [Pool.State.setControl]
  | _ => simp [Pool.State.setControl, Pool.callTask, Pool.State.setTasks, Pool.threadPoolSubmit]

theorem Registered.next (h : Registered s) (hsection : Section P n s t s') : Registered s' := by
  have hstarting : ∀ u, (s'.thread u).control = .loop .start → u ≠ t ∧ u ∉ s.workers := by
    intro u hu
    have hne : u ≠ t := by
      rintro rfl
      exact section_started hsection hu
    rw [section_thread hsection hne] at hu
    exact ⟨hne, h.starting u hu⟩
  rcases section_registers hsection with ⟨hpc, hworkers⟩ | hworkers
  · refine ⟨?_, fun u hu => ?_⟩
    · rw [hworkers]
      exact List.nodup_cons.mpr ⟨h.starting t hpc, h.nodup⟩
    · rw [hworkers]
      exact List.not_mem_cons_of_ne_of_not_mem (hstarting u hu).1 (hstarting u hu).2
  · refine ⟨?_, fun u hu => ?_⟩
    · rw [hworkers]
      exact h.nodup
    · rw [hworkers]
      exact (hstarting u hu).2

theorem registered_of_reachable (h : Reachable (Pool.system P n) s) : Registered s := by
  have hsound : Sound s ∧ Registered s := by
    refine h.invariant (P := fun s => Sound s ∧ Registered s) (fun s hs => ?_) ?_
    · have hworkers : s.workers = [] := hs.2.2.1
      refine ⟨sound_of_init hs, hworkers ▸ List.nodup_nil, fun t _ => ?_⟩
      rw [hworkers]
      exact List.not_mem_nil
    · intro s i s' hs _ hnext
      refine ⟨hs.1.next hnext, ?_⟩
      cases hi : i.thread with
      | some t => exact hs.2.next (section_of_next hs.1 hi hnext)
      | none =>
        cases i with
        | shutdown =>
          cases hnext
          exact ⟨hs.2.nodup, hs.2.starting⟩
        | run t listsEmpty => cases hi
        | read t value => cases hi
  exact hsound.2

/-- Every section of the pool is a run of operations. -/
theorem next_ends {i : Label Val} (hqueued : Queued s) (hnodup : s.workers.Nodup)
    (hnext : Pool.next P n s i = some s') : Ends P n (lift s entries) s' := by
  cases i with
  | run t listsEmpty =>
    rw [lift_mid (t := t)]
    rw [Pool.next] at hnext
    cases hcontrol : (s.thread t).control with
    | loop pc =>
      rw [hcontrol] at hnext
      exact threadFunction_ends hnodup hnext
    | code c =>
      rw [hcontrol] at hnext
      exact execInstr_ends hnext
    | get asked f k pc =>
      rw [hcontrol] at hnext
      cases hnext
      exact futureGet_ends hqueued
    | done =>
      rw [hcontrol] at hnext
      cases hnext
  | read t value =>
    rw [lift_mid (t := t)]
    rw [Pool.next] at hnext
    split at hnext
    · rename_i c hcontrol
      split at hnext
      · rename_i k hinstr
        cases hnext
        rw [hcontrol]
        have hread : Locks.next P n (mid s entries free t (.code c)) (.read t value) =
            some (mid s entries free t (.code (k value))) := by
          rw [Locks.next, mid_control]
          dsimp only
          rw [hinstr]
          dsimp only
          rw [mid_go]
        have hpath : Path P n (mid s entries free t (.code c))
            (mid s entries free t (.code (k value))) :=
          After.refl.step (i := .read t value) trivial hread
        exact .of_setControl hpath
      · cases hnext
    · cases hnext
  | shutdown =>
    cases hnext
    exact .of_path (After.refl.step (i := .shutdown) trivial rfl)

theorem lift_init (h : (Pool.system P n).init s) :
    ∃ entries, (Locks.system P n).init (lift s entries) := by
  obtain ⟨hshutdown, htasks, hworkers, harrived, hsubmitted, hthread, -, -⟩ := h
  refine ⟨fun t => if t < n then [fun _ => false] else [], fun _ => rfl, hshutdown, htasks,
    hworkers, harrived, hsubmitted, fun t => ?_, fun _ => rfl⟩
  change (⟨place (s.thread t).control, (s.thread t).callers.map caller⟩ :
    Locks.Thread Task Val Code) = _
  rw [hthread]
  split_ifs <;> rfl

/-- The pool of sections and the pool of operations have the same runs between sections. -/
theorem reachable_lift (h : Reachable (Pool.system P n) s) :
    ∃ entries, Reachable (Locks.system P n) (lift s entries) := by
  have hsim : ∃ σ, Reachable (Locks.system P n) σ ∧ ∃ entries, σ = lift s entries := by
    refine h.simulated (R := fun s σ => ∃ entries, σ = lift s entries) (fun s hs => ?_)
      fun s i s' σ hs hnext hσ => ?_
    · obtain ⟨entries, hinit⟩ := lift_init hs
      exact ⟨_, hinit, entries, rfl⟩
    · obtain ⟨entries, rfl⟩ := hσ
      obtain ⟨entries', hpath⟩ := next_ends (queued_of_sound (sound_of_reachable hs))
        (registered_of_reachable hs).nodup hnext
      exact ⟨_, hpath, entries', rfl⟩
  obtain ⟨_, hreach, entries, rfl⟩ := hsim
  exact ⟨entries, hreach⟩

end Runs

end ComputerSystems.Threadpool.Sections
