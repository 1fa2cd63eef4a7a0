/- `thread_pool_shutdown_and_destroy` beside the threads of the pool: who still uses a freed worker. -/

import ComputerSystems.Threadpool.Discipline

set_option autoImplicit false
set_option relaxedAutoImplicit false

namespace ComputerSystems.Threadpool.Shutdown

open ComputerSystems.Systems.Runs
open ComputerSystems.Systems.Mutexes
open ComputerSystems.Threadpool.Programs
open ComputerSystems.Threadpool.Locks (Mutex LoopPc EmptyPc SubmitPc GetPc Control Caller Thread
  listLock submitLock getLock op transfer)
open ComputerSystems.Threadpool.Discipline (Listed Env Grows)

/-- The points of `thread_pool_shutdown_and_destroy`. -/
inductive Phase where
  | idle
  | flag
  | test
  | unlock (w : Nat)
  | join (w : Nat)
  | lock (w : Nat)
  | pop (w : Nat)
  | free (w : Nat)
  | finish
  | done
  deriving DecidableEq, Repr

def Phase.action : Phase → Action Mutex
  | .idle => .lock .globalLock
  | .unlock _ => .unlock .globalLock
  | .lock _ => .lock .globalLock
  | .finish => .unlock .globalLock
  | _ => .none

/-- The pool, how far thread `n` is in the shutdown, and the workers that it has freed. -/
structure State (Task Val Code : Type) where
  pool : Locks.State Task Val Code
  phase : Phase
  freed : Nat → Bool

section Model

variable {Task Val Code : Type}

/-- `thread_function` has returned. -/
def exited : Control Task Val Code → Bool
  | .loop .exit => true
  | _ => false

def ended : Control Task Val Code → Bool
  | .done => true
  | _ => false

/-- `thread_pool_shutdown_and_destroy`, apart from the mutex. -/
def shutdownStep (n : Nat) (s : State Task Val Code) : Phase → Option (State Task Val Code)
  | .idle => if ended (s.pool.thread n).control then some { s with phase := .flag } else none
  | .flag => some { s with pool := { s.pool with isShutdown := true }, phase := .test }
  | .test =>
    some { s with
      phase := match s.pool.workers.getLast? with
        | none => .finish
        | some w => .unlock w }
  | .unlock w => some { s with phase := .join w }
  | .join w =>
    if exited (s.pool.thread w).control then some { s with phase := .lock w } else none
  | .lock w => some { s with phase := .pop w }
  | .pop w =>
    some { s with pool := { s.pool with workers := s.pool.workers.dropLast }, phase := .free w }
  | .free w => some { s with freed := Function.update s.freed w true, phase := .test }
  | .finish => some { s with phase := .done }
  | .done => none

/-- A step of a thread of the pool or outside, or the next step of the shutdown. -/
def next (P : Program Task Val Code) (n : Nat) (s : State Task Val Code) :
    Label Val → Option (State Task Val Code)
  | .shutdown => do
    let owner ← perform s.pool.owner n s.phase.action
    let s' ← shutdownStep n s s.phase
    return { s' with pool := { s'.pool with owner := owner } }
  | i => (Locks.next P n s.pool i).map fun p => { s with pool := p }

/-- `thread_pool_new` with `n` workers; thread `n` will shut the pool down. -/
def system (P : Program Task Val Code) (n : Nat) : System (State Task Val Code) (Label Val) where
  init s := (Locks.system P n).init s.pool ∧ s.phase = .idle ∧ ∀ w, s.freed w = false
  next := next P n

/-- The worker whose lock, list of tasks or list element an operation is on. -/
def touches (s : Locks.State Task Val Code) : Locks.Op → Option Nat
  | .lock (.localLock w) => some w
  | .unlock (.localLock w) => some w
  | .wait (.localLock w) => some w
  | .access q => q
  | .remove f => (s.future f).worker
  | _ => none

def follows : Control Task Val Code → Option Nat
  | .loop (.skip w) => some w
  | .empty (.scan e) => e
  | .empty (.unlock w) => some w
  | _ => none

def Uses (n : Nat) (s : Locks.State Task Val Code) (t w : Nat) : Prop :=
  touches s (op n s t) = some w ∨ follows (s.thread t).control = some w

/-- No thread is about to use a freed worker. -/
def Unused (n : Nat) (s : State Task Val Code) : Prop :=
  ∀ t w, s.freed w = true → ¬ Uses n s.pool t w

def loopWorker : LoopPc → Option Nat
  | .pop q => q
  | .popped _ q => q
  | .finish _ q => q
  | .finished _ q => q
  | .scan e => e
  | .visit w => some w
  | .visited w => some w
  | .leave w => some w
  | .skip w => some w
  | _ => none

def emptyWorker : EmptyPc → Option Nat
  | .scan e => e
  | .lock w => some w
  | .check w => some w
  | .early w => some w
  | .unlock w => some w

/-- The worker that a thread is at: in a traversal, in a section of its lock, or before one. -/
def position (n : Nat) (worker : Nat → Option Nat) (t : Nat) : Control Task Val Code → Option Nat
  | .loop pc => loopWorker pc
  | .empty pc => emptyWorker pc
  | .submit _ _ _ (.unlock f) => if t < n then worker f else none
  | .submit _ _ _ (.done _) => none
  | .submit _ _ _ _ => currWorker n t
  | .get _ _ _ .done => none
  | .get _ f _ _ => worker f
  | _ => none

/-- The worker to whose lock a thread will come back when the task it runs returns. -/
def callerWorker (worker : Nat → Option Nat) : Caller Val Code → Option Nat
  | .loop _ q => q
  | .get _ f _ => worker f

def workerOf (s : Locks.State Task Val Code) (f : Nat) : Option Nat := (s.future f).worker

/-- The thread is at the worker, or will come back to it. -/
def Holds (n : Nat) (s : Locks.State Task Val Code) (t w : Nat) : Prop :=
  position n (workerOf s) t (s.thread t).control = some w ∨
    ∃ caller ∈ (s.thread t).callers, callerWorker (workerOf s) caller = some w

/-- A task is about to call `future_get` on a future of the worker. -/
def Asks (P : Program Task Val Code) (s : Locks.State Task Val Code) (t w : Nat) : Prop :=
  ∃ c f k, (s.thread t).control = .code c ∧ P.instr c = .get f k ∧ workerOf s f = some w

/-- A worker is freed when no thread is at it or will come back to it, and no `future_get` is called
later on a future of its list. -/
def Careful (P : Program Task Val Code) (n : Nat) (s : State Task Val Code) : Label Val → Prop
  | .shutdown => ∀ w, s.phase = .free w → ∀ t, ¬ Holds n s.pool t w
  | .run t _ => ∀ w, Asks P s.pool t w → s.freed w = false
  | .read _ _ => True

end Model

section Steps

variable {Task Val Code : Type} {P : Program Task Val Code} {n t u w : Nat}
variable {s s₁ s' : Locks.State Task Val Code}

def Starting (c : Control Task Val Code) : Prop :=
  c = .loop .start ∨ c = .loop .register

structure Rest (s s₁ : Locks.State Task Val Code) : Prop where
  thread : s₁.thread = s.thread
  submitted : s₁.submitted = s.submitted
  worker : workerOf s₁ = workerOf s
  tasks : ∀ q, s₁.tasks q ⊆ s.tasks q
  workers : s₁.workers = s.workers

/-- What a step of thread `u` does. -/
structure Moves (P : Program Task Val Code) (n : Nat) (s s' : Locks.State Task Val Code) (u : Nat) :
    Prop where
  others : ∀ t, t ≠ u → s'.thread t = s.thread t
  fresh : ∀ f, workerOf s' f = workerOf s f ∨ workerOf s' f = currWorker n u
  listed : Listed s → Listed s'
  workers : s'.workers = s.workers ∨
    (s.thread u).control = .loop .register ∧ s'.workers = u :: s.workers
  starting : Starting (s'.thread u).control →
    Starting (s.thread u).control ∧ s'.workers = s.workers
  holds : Listed s → ∀ w, Holds n s' u w → Holds n s u w ∨ w ∈ s.workers ∨ w = u ∨ Asks P s u w

theorem Rest.refl : Rest s s := ⟨rfl, rfl, rfl, fun _ => List.Subset.refl _, rfl⟩

theorem Rest.setFuture (h : Rest s s₁) (f : Nat) {x : Future Task Val}
    (hx : x.worker = workerOf s₁ f) :
    Rest s { s₁ with future := Function.update s₁.future f x } := by
  refine ⟨h.thread, h.submitted, ?_, h.tasks, h.workers⟩
  rw [← h.worker]
  funext g
  by_cases heq : g = f
  · subst heq
    simpa [workerOf] using hx
  · simp [workerOf, heq]

theorem Rest.setStatus (h : Rest s s₁) (f : Nat) (x : Status) : Rest s (s₁.setStatus f x) :=
  h.setFuture f rfl

theorem Rest.setTasks (h : Rest s s₁) {q : Option Nat} {l : List Nat} (hl : l ⊆ s₁.tasks q) :
    Rest s (s₁.setTasks q l) := by
  refine ⟨h.thread, h.submitted, h.worker, fun r => ?_, h.workers⟩
  by_cases heq : r = q
  · subst heq
    simpa [Locks.State.setTasks] using List.Subset.trans hl (h.tasks r)
  · simpa [Locks.State.setTasks, heq] using h.tasks r

theorem Rest.listed (h : Rest s s₁) (hs : Listed s) : Listed s₁ := by
  intro q f hf
  rw [h.submitted, show (s₁.future f).worker = (s.future f).worker from congrFun h.worker f]
  exact hs q f (h.tasks q hf)

theorem Rest.moves (h : Rest s s₁) (th : Thread Task Val Code)
    (hstart : Starting th.control → Starting (s.thread u).control)
    (hholds : Listed s → ∀ w, position n (workerOf s) u th.control = some w ∨
      (∃ caller ∈ th.callers, callerWorker (workerOf s) caller = some w) →
      Holds n s u w ∨ w ∈ s.workers ∨ w = u ∨ Asks P s u w) :
    Moves P n s (s₁.setThread u th) u := by
  constructor
  · intro t ht
    simp [Locks.State.setThread, ht, h.thread]
  · exact fun f => Or.inl (congrFun h.worker f)
  · exact fun hs => h.listed hs
  · exact Or.inl h.workers
  · intro hbegins
    simp only [Locks.State.setThread, Function.update_self] at hbegins
    exact ⟨hstart hbegins, h.workers⟩
  · intro hs w hw
    have hworker : workerOf (s₁.setThread u th) = workerOf s := h.worker
    unfold Holds at hw
    rw [hworker] at hw
    simp only [Locks.State.setThread, Function.update_self] at hw
    exact hholds hs w hw

theorem Rest.go (h : Rest s s₁) {c : Control Task Val Code}
    (hstart : Starting c → Starting (s.thread u).control)
    (hholds : Listed s → ∀ w, position n (workerOf s) u c = some w →
      position n (workerOf s) u (s.thread u).control = some w ∨ w ∈ s.workers ∨ w = u ∨
        Asks P s u w) :
    Moves P n s (s₁.go u c) u := by
  refine h.moves ⟨c, (s₁.thread u).callers⟩ hstart fun hs w hw => ?_
  rcases hw with hw | ⟨caller, hcaller, hw⟩
  · rcases hholds hs w hw with hw | hw
    · exact Or.inl (Or.inl hw)
    · exact Or.inr hw
  · rw [h.thread] at hcaller
    exact Or.inl (Or.inr ⟨caller, hcaller, hw⟩)

theorem Moves.entries (h : Moves P n s s' u) (es : Nat → List (Mutex → Bool)) :
    Moves P n s { s' with entries := es } u :=
  ⟨h.others, h.fresh, h.listed, h.workers, h.starting, h.holds⟩

theorem Moves.owner (h : Moves P n s s' u) (owner : Mutex → Option Nat) :
    Moves P n s { s' with owner := owner } u :=
  ⟨h.others, h.fresh, h.listed, h.workers, h.starting, h.holds⟩

theorem listNext_mem {l : List Nat} {v : Nat} (h : listNext l w = some v) : v ∈ l := by
  induction l with
  | nil => cases h
  | cons x l ih =>
    rw [listNext] at h
    split at h
    · exact List.mem_cons_of_mem x (List.mem_of_mem_head? h)
    · exact List.mem_cons_of_mem x (ih h)

theorem callTask_moves {caller : Caller Val Code}
    (hcaller : callerWorker (workerOf s) caller =
      position n (workerOf s) u (s.thread u).control) :
    Moves P n s (Locks.callTask P s u caller) u := by
  refine Rest.refl.moves _ (by simp [Starting]) fun _ w hw => Or.inl ?_
  rcases hw with hw | ⟨x, hx, hw⟩
  · cases hw
  · rcases List.mem_cons.mp hx with rfl | hx
    · exact Or.inl (hcaller ▸ hw)
    · exact Or.inr ⟨x, hx, hw⟩

theorem resume_position (caller : Caller Val Code) (worker : Nat → Option Nat) :
    position n worker u (caller.resume : Control Task Val Code) = callerWorker worker caller := by
  cases caller <;> rfl

theorem returnTask_moves (value : Val) : Moves P n s (Locks.returnTask s u value) u := by
  unfold Locks.returnTask
  cases hcallers : (s.thread u).callers with
  | nil => exact Rest.refl.go (by simp [Starting]) fun _ w hw => by cases hw
  | cons caller callers =>
    have hrest : Rest s { s with
        future := Function.update s.future caller.future
          { s.future caller.future with result := value } } := Rest.refl.setFuture _ rfl
    refine hrest.moves _ ?_ fun _ w hw => Or.inl (Or.inr ?_)
    · cases caller <;> simp [Starting, Locks.Caller.resume]
    · rcases hw with hw | ⟨x, hx, hw⟩
      · exact ⟨caller, by simp [hcallers], by rwa [resume_position] at hw⟩
      · exact ⟨x, by simp [hcallers, hx], hw⟩

theorem popBack_moves {q : Option Nat} (hpc : (s.thread u).control = .loop (.pop q))
    (hnext : Locks.popBack s u q = some s') : Moves P n s s' u := by
  unfold Locks.popBack at hnext
  split at hnext
  · cases hnext
    refine ((Rest.refl.setTasks (List.dropLast_subset _)).setStatus _ _).go (by simp [Starting]) ?_
    intro _ w hw
    rw [hpc]
    exact Or.inl hw
  · cases hnext

/-- A worker goes on in `thread_function`, at no worker, at the one it was at, or at a listed one. -/
theorem Rest.goLoop (h : Rest s s₁) {pc pc' : LoopPc} (hpc : (s.thread u).control = .loop pc)
    (hstart : pc' ≠ .start) (hregister : pc' ≠ .register)
    (hworker : ∀ w, loopWorker pc' = some w → loopWorker pc = some w ∨ w ∈ s.workers) :
    Moves P n s (s₁.go u (.loop pc')) u := by
  refine h.go (by simp [Starting, hstart, hregister]) fun _ w hw => ?_
  rw [hpc]
  rcases hworker w hw with hw | hw
  · exact Or.inl hw
  · exact Or.inr (Or.inl hw)

theorem register_moves (hpc : (s.thread u).control = .loop .register) :
    Moves P n s (Locks.State.go { s with workers := u :: s.workers } u (.loop .registered)) u := by
  constructor
  · intro t ht
    simp [Locks.State.go, Locks.State.setThread, ht]
  · exact fun f => Or.inl rfl
  · exact fun hs => hs
  · exact Or.inr ⟨hpc, rfl⟩
  · intro hstart
    simp [Starting, Locks.State.go, Locks.State.setThread] at hstart
  · intro _ w hw
    rcases hw with hw | ⟨caller, hcaller, hw⟩
    · simp [Locks.State.go, Locks.State.setThread, position, loopWorker] at hw
    · simp only [Locks.State.go, Locks.State.setThread, Function.update_self] at hcaller
      exact Or.inl (Or.inr ⟨caller, hcaller, hw⟩)

theorem loopStep_moves {pc : LoopPc} (hpc : (s.thread u).control = .loop pc)
    (hnext : Locks.loopStep P n s u pc = some s') : Moves P n s s' u := by
  cases pc with
  | start =>
    cases hnext
    refine Rest.refl.go (fun _ => ?_) fun _ w hw => ?_
    · exact Or.inl hpc
    · cases hw
  | register =>
    cases hnext
    exact register_moves hpc
  | arrive =>
    cases hnext
    have hrest : Rest s { s with arrived := s.arrived + 1 } :=
      ⟨rfl, rfl, rfl, fun _ => List.Subset.refl _, rfl⟩
    exact hrest.goLoop hpc (by simp) (by simp) fun w hw => by cases hw
  | inner =>
    rw [Locks.loopStep] at hnext
    split at hnext
    · cases hnext
      refine Moves.entries (Rest.refl.go (by simp [Starting]) fun _ w hw => ?_) _
      cases hw
      exact Or.inr (Or.inr (Or.inl rfl))
    · cases hnext
      exact Rest.refl.goLoop hpc (by simp) (by simp) fun w hw => by cases hw
  | pop q => exact popBack_moves hpc hnext
  | popped f q =>
    cases hnext
    exact callTask_moves (by rw [hpc]; rfl)
  | finished f q =>
    have hrest : Rest s (s.setStatus f .FINISHED) := Rest.refl.setStatus f .FINISHED
    cases q with
    | none =>
      cases hnext
      exact hrest.goLoop hpc (by simp) (by simp) fun w hw => by cases hw
    | some v =>
      cases hnext
      exact hrest.goLoop hpc (by simp) (by simp) fun w hw => Or.inl hw
  | exit => cases hnext
  | barrier =>
    rw [Locks.loopStep] at hnext
    split at hnext
    · cases hnext
      exact Rest.refl.goLoop hpc (by simp) (by simp) fun w hw => by cases hw
    · cases hnext
  | outer =>
    cases hnext
    refine Rest.refl.goLoop hpc (by split <;> simp) (by split <;> simp) fun w hw => ?_
    split at hw <;> cases hw
  | tested listsEmpty =>
    cases hnext
    refine Rest.refl.goLoop hpc (by split <;> simp) (by split <;> simp) fun w hw => ?_
    split at hw <;> cases hw
  | check =>
    cases hnext
    refine Rest.refl.goLoop hpc (by split <;> simp) (by split <;> simp) fun w hw => ?_
    split at hw <;> cases hw
  | search =>
    cases hnext
    exact Rest.refl.goLoop hpc (by simp) (by simp) fun w hw => Or.inr (List.mem_of_mem_head? hw)
  | scan e =>
    cases e with
    | none =>
      cases hnext
      exact Rest.refl.goLoop hpc (by simp) (by simp) fun w hw => by cases hw
    | some v =>
      cases hnext
      exact Rest.refl.goLoop hpc (by simp) (by simp) fun w hw => Or.inl hw
  | visited v =>
    cases hnext
    refine Rest.refl.goLoop hpc (by split <;> simp) (by split <;> simp) fun w hw => Or.inl ?_
    split at hw <;> exact hw
  | skip v =>
    cases hnext
    exact Rest.refl.goLoop hpc (by simp) (by simp) fun w hw => Or.inr (listNext_mem hw)
  | finish f q =>
    cases hnext
    exact Rest.refl.goLoop hpc (by simp) (by simp) fun w hw => Or.inl hw
  | visit v =>
    cases hnext
    exact Rest.refl.goLoop hpc (by simp) (by simp) fun w hw => Or.inl hw
  | _ =>
    cases hnext
    exact Rest.refl.goLoop hpc (by simp) (by simp) fun w hw => by cases hw

theorem emptyStep_moves {pc : EmptyPc} {listsEmpty : Bool}
    (hpc : (s.thread u).control = .empty pc) :
    Moves P n s (Locks.emptyStep s u listsEmpty pc) u := by
  -- a traversal of the list goes on to a listed worker, or stays where it is
  have hgo : ∀ {pc' : EmptyPc},
      (∀ w, emptyWorker pc' = some w → emptyWorker pc = some w ∨ w ∈ s.workers) →
      Moves P n s (s.go u (.empty pc')) u := by
    intro pc' hworker
    refine Rest.refl.go (by simp [Starting]) fun _ w hw => ?_
    rw [hpc]
    rcases hworker w hw with hw | hw
    · exact Or.inl hw
    · exact Or.inr (Or.inl hw)
  cases pc with
  | scan e =>
    cases e with
    | none => exact Moves.entries (Rest.refl.go (by simp [Starting]) fun _ w hw => by cases hw) _
    | some v => exact hgo fun w hw => Or.inl hw
  | lock v => exact hgo fun w hw => Or.inl hw
  | check v =>
    refine hgo fun w hw => Or.inl ?_
    split at hw <;> exact hw
  | early v => exact hgo fun w hw => Or.inl hw
  | unlock v => exact hgo fun w hw => Or.inr (listNext_mem hw)

theorem push_moves {task : Task} {data : Val} {k : Nat → Code} :
    Moves P n s (Locks.submitStep n s u task data k .push) u := by
  have hfresh : ∀ f, workerOf (Locks.submitStep n s u task data k .push) f = workerOf s f ∨
      workerOf (Locks.submitStep n s u task data k .push) f = currWorker n u := by
    intro f
    by_cases heq : f = s.submitted
    · subst heq
      exact Or.inr (by simp [workerOf, Locks.submitStep, Locks.State.go, Locks.State.setThread])
    · exact Or.inl (by simp [workerOf, Locks.submitStep, Locks.State.go, Locks.State.setThread, heq])
  have hown : ∀ {w : Nat}, currWorker n u = some w → w = u := by
    intro w hw
    rw [currWorker] at hw
    split at hw
    · exact (Option.some.inj hw).symm
    · cases hw
  constructor
  · intro t ht
    simp [Locks.submitStep, Locks.State.go, Locks.State.setThread, Locks.State.setTasks, ht]
  · exact hfresh
  · intro hs
    have henv : Env s s := ⟨rfl, rfl, rfl, Grows.refl, hs⟩
    exact (henv.push { s.future s.submitted with
      task := task, args := data, worker := currWorker n u, state := .WAITING }).listed
  · exact Or.inl rfl
  · intro hstart
    simp [Starting, Locks.submitStep, Locks.State.go, Locks.State.setThread] at hstart
  · intro _ w hw
    have hfuture : ∀ {f : Nat}, workerOf (Locks.submitStep n s u task data k .push) f = some w →
        workerOf s f = some w ∨ w = u := by
      intro f hf
      rcases hfresh f with heq | heq
      · exact Or.inl (heq ▸ hf)
      · exact Or.inr (hown (heq ▸ hf))
    rcases hw with hw | ⟨caller, hcaller, hw⟩
    · have hcontrol : ((Locks.submitStep n s u task data k .push).thread u).control =
          .submit task data k (.unlock s.submitted) := by
        simp [Locks.submitStep, Locks.State.go, Locks.State.setThread]
      have hnew : workerOf (Locks.submitStep n s u task data k .push) s.submitted =
          currWorker n u := by
        simp [workerOf, Locks.submitStep, Locks.State.go, Locks.State.setThread]
      rw [hcontrol, position] at hw
      split at hw
      · exact Or.inr (Or.inr (Or.inl (hown (hnew ▸ hw))))
      · cases hw
    · have hcallers : ((Locks.submitStep n s u task data k .push).thread u).callers =
          (s.thread u).callers := by
        simp [Locks.submitStep, Locks.State.go, Locks.State.setThread, Locks.State.setTasks]
      rw [hcallers] at hcaller
      cases caller with
      | loop f q => exact Or.inl (Or.inr ⟨_, hcaller, hw⟩)
      | get asked f k' =>
        rcases hfuture hw with hw | hw
        · exact Or.inl (Or.inr ⟨_, hcaller, hw⟩)
        · exact Or.inr (Or.inr (Or.inl hw))

theorem submitStep_moves {task : Task} {data : Val} {k : Nat → Code} {pc : SubmitPc}
    (hpc : (s.thread u).control = .submit task data k pc) :
    Moves P n s (Locks.submitStep n s u task data k pc) u := by
  cases pc with
  | lock =>
    refine Rest.refl.go (by simp [Starting]) fun _ w hw => Or.inl ?_
    rwa [hpc]
  | push => exact push_moves
  | unlock f =>
    refine Rest.refl.go (by simp [Starting]) fun _ w hw => ?_
    cases hw
  | done f => exact Moves.entries (Rest.refl.go (by simp [Starting]) fun _ w hw => by cases hw) _

theorem getStep_moves {asked f : Nat} {k : Val → Code} {pc : GetPc}
    (hpc : (s.thread u).control = .get asked f k pc)
    (hnext : Locks.getStep P s u asked f k pc = some s') : Moves P n s s' u := by
  -- it stays with the worker of its future, until the call is done
  have hgo : ∀ {s₁ : Locks.State Task Val Code} {pc' : GetPc}, Rest s s₁ → pc ≠ .done →
      Moves P n s (s₁.go u (.get asked f k pc')) u := by
    intro s₁ pc' hrest hdone
    refine hrest.go (by simp [Starting]) fun _ w hw => Or.inl ?_
    have hw : workerOf s f = some w := by
      cases pc' with
      | done => cases hw
      | _ => exact hw
    rw [hpc]
    cases pc with
    | done => exact absurd rfl hdone
    | _ => exact hw
  cases pc with
  | remove =>
    cases hnext
    have hrest : Rest s { s with tasks := fun q => (s.tasks q).erase f } :=
      ⟨rfl, rfl, rfl, fun q => List.erase_subset, rfl⟩
    exact hgo (hrest.setStatus f .RUNNING) (by simp)
  | pop =>
    rw [Locks.getStep] at hnext
    split at hnext
    · cases hnext
    · rename_i g rest htasks
      cases hnext
      have hsub : rest ⊆ s.tasks (s.future f).worker := by
        rw [htasks]
        exact List.subset_cons_self g rest
      refine ((Rest.refl.setTasks hsub).setStatus g .RUNNING).go (by simp [Starting]) ?_
      intro hs w hw
      have hg := (hs (s.future f).worker g (by rw [htasks]; exact List.mem_cons_self)).2
      rw [hpc]
      exact Or.inl (hg.symm.trans hw)
  | running =>
    cases hnext
    exact callTask_moves (by rw [hpc]; rfl)
  | finished =>
    cases hnext
    exact hgo (Rest.refl.setStatus f .FINISHED) (by simp)
  | done =>
    cases hnext
    exact Moves.entries (Rest.refl.go (by simp [Starting]) fun _ w hw => by cases hw) _
  | _ =>
    cases hnext
    exact hgo Rest.refl (by simp)

theorem execInstr_moves {c : Code} (hpc : (s.thread u).control = .code c)
    (hnext : Locks.execInstr s u (P.instr c) = some s') : Moves P n s s' u := by
  cases hinstr : P.instr c with
  | ret value =>
    rw [hinstr] at hnext
    cases hnext
    exact returnTask_moves value
  | read k =>
    rw [hinstr] at hnext
    cases hnext
  | submit task data k =>
    rw [hinstr] at hnext
    cases hnext
    refine Moves.entries (Rest.refl.go (by simp [Starting]) fun _ w hw => ?_) _
    have hw : currWorker n u = some w := hw
    rw [currWorker] at hw
    split at hw
    · exact Or.inr (Or.inr (Or.inl (Option.some.inj hw).symm))
    · cases hw
  | get f k =>
    rw [hinstr, Locks.execInstr] at hnext
    split at hnext
    · cases hnext
      refine Moves.entries (Rest.refl.go (by simp [Starting]) fun _ w hw => ?_) _
      exact Or.inr (Or.inr (Or.inr ⟨c, f, k, hpc, hinstr, hw⟩))
    · cases hnext

theorem transfer_moves {listsEmpty : Bool} (hnext : transfer P n s u listsEmpty = some s') :
    Moves P n s s' u := by
  rw [transfer] at hnext
  cases hpc : (s.thread u).control with
  | loop pc =>
    rw [hpc] at hnext
    exact loopStep_moves hpc hnext
  | empty pc =>
    rw [hpc] at hnext
    cases hnext
    exact emptyStep_moves hpc
  | code c =>
    rw [hpc] at hnext
    exact execInstr_moves hpc hnext
  | submit task data k pc =>
    rw [hpc] at hnext
    cases hnext
    exact submitStep_moves hpc
  | get asked f k pc =>
    rw [hpc] at hnext
    exact getStep_moves hpc hnext
  | done =>
    rw [hpc] at hnext
    cases hnext

theorem read_moves {value : Val} (hnext : Locks.next P n s (.read u value) = some s') :
    Moves P n s s' u := by
  rw [Locks.next] at hnext
  split at hnext
  · split at hnext
    · cases hnext
      exact Rest.refl.go (by simp [Starting]) fun _ w hw => by cases hw
    · cases hnext
  · cases hnext

theorem Holds.back {t : Nat} (hmoves : Moves P n s s' u) (hne : t ≠ u) (hw : currWorker n u ≠ some w)
    (h : Holds n s' t w) : Holds n s t w := by
  have hfuture : ∀ {f : Nat}, workerOf s' f = some w → workerOf s f = some w := by
    intro f hf
    rcases hmoves.fresh f with heq | heq
    · rwa [heq] at hf
    · exact absurd (heq ▸ hf) hw
  unfold Holds at h ⊢
  rw [hmoves.others t hne] at h
  rcases h with h | ⟨caller, hcaller, h⟩
  · refine Or.inl ?_
    cases hpc : (s.thread t).control with
    | submit task data k pc =>
      rw [hpc] at h
      cases pc with
      | unlock f =>
        rw [position] at h ⊢
        split at h
        · rw [if_pos ‹_›]
          exact hfuture h
        · cases h
      | _ => exact h
    | get asked f k pc =>
      rw [hpc] at h
      cases pc with
      | done => cases h
      | _ => exact hfuture h
    | _ =>
      rw [hpc] at h
      exact h
  · refine Or.inr ⟨caller, hcaller, ?_⟩
    cases caller with
    | loop f q => exact h
    | get asked f k => exact hfuture h

theorem touches_listLock {q : Option Nat} (h : touches s (.lock (listLock q)) = some w ∨
    touches s (.unlock (listLock q)) = some w ∨ touches s (.wait (listLock q)) = some w) :
    q = some w := by
  cases q with
  | none => rcases h with h | h | h <;> cases h
  | some v => rcases h with h | h | h <;> exact h

theorem Uses.position_eq {t : Nat} (h : Uses n s t w) :
    position n (workerOf s) t (s.thread t).control = some w := by
  unfold Uses op at h
  cases hpc : (s.thread t).control with
  | loop pc =>
    rw [hpc] at h
    rcases h with h | h
    · cases pc with
      | popped f q => exact touches_listLock (Or.inr (Or.inl h))
      | finish f q => exact touches_listLock (Or.inl h)
      | inner =>
        have h : touches s (if s.isShutdown then .step else .access none) = some w := h
        split at h <;> cases h
      | _ => first | exact h | cases h
    · cases pc with
      | skip v => exact h
      | _ => cases h
  | empty pc =>
    rw [hpc] at h
    rcases h with h | h
    · cases pc with
      | scan e => cases h
      | _ => exact h
    · cases pc with
      | scan e => exact h
      | unlock v => exact h
      | _ => cases h
  | submit task data k pc =>
    rw [hpc] at h
    rcases h with h | h
    · cases pc with
      | lock => exact touches_listLock (Or.inl h)
      | push => exact h
      | unlock f =>
        have h : touches s (.unlock (if t < n then getLock s f else .globalLock)) = some w := h
        rw [position]
        split at h
        · rw [if_pos ‹_›]
          exact touches_listLock (Or.inr (Or.inl h))
        · cases h
      | done f => cases h
    · cases h
  | get asked f k pc =>
    rw [hpc] at h
    rcases h with h | h
    · cases pc with
      | lock => exact touches_listLock (Or.inl h)
      | wait => exact touches_listLock (Or.inr (Or.inr h))
      | waiting => exact touches_listLock (Or.inl h)
      | remove => exact h
      | check => exact h
      | pop => exact h
      | running => exact touches_listLock (Or.inr (Or.inl h))
      | finish => exact touches_listLock (Or.inl h)
      | unlock => exact touches_listLock (Or.inr (Or.inl h))
      | _ => cases h
    · cases h
  | code c =>
    rw [hpc] at h
    rcases h with h | h <;> cases h
  | done =>
    rw [hpc] at h
    rcases h with h | h <;> cases h

end Steps

section Invariant

variable {Task Val Code : Type} {P : Program Task Val Code} {n u w : Nat}
variable {p p' : Locks.State Task Val Code} {s s' : State Task Val Code}

def PhaseFine (p : Locks.State Task Val Code) : Phase → Prop
  | .unlock w | .join w => p.workers.getLast? = some w
  | .lock w | .pop w => p.workers.getLast? = some w ∧ exited (p.thread w).control = true
  | .free w => w ∉ p.workers ∧ exited (p.thread w).control = true
  | _ => True

structure Inv (n : Nat) (s : State Task Val Code) : Prop where
  listed : Listed s.pool
  nodup : s.pool.workers.Nodup
  starting : ∀ t, Starting (s.pool.thread t).control → t ∉ s.pool.workers
  phase : PhaseFine s.pool s.phase
  freed : ∀ w, s.freed w = true →
    w ∉ s.pool.workers ∧ exited (s.pool.thread w).control = true ∧ ∀ t, ¬ Holds n s.pool t w

theorem transfer_exited {listsEmpty : Bool} (hnext : transfer P n p u listsEmpty = some p') :
    exited (p.thread u).control = false := by
  rw [transfer] at hnext
  cases hpc : (p.thread u).control with
  | loop pc =>
    rw [hpc] at hnext
    cases pc with
    | exit => cases hnext
    | _ => rfl
  | _ => rfl

theorem read_exited {value : Val} (hnext : Locks.next P n p (.read u value) = some p') :
    exited (p.thread u).control = false ∧ ¬ Asks P p u w := by
  rw [Locks.next] at hnext
  split at hnext
  · rename_i c hpc
    split at hnext
    · rename_i k hinstr
      refine ⟨by rw [hpc]; rfl, ?_⟩
      rintro ⟨c', f, k', hc', hget, -⟩
      rw [hpc] at hc'
      cases hc'
      rw [hinstr] at hget
      cases hget
    · cases hnext
  · cases hnext

theorem PhaseFine.moves {phase : Phase} (h : PhaseFine p phase) (hmoves : Moves P n p p' u)
    (hrunning : exited (p.thread u).control = false) : PhaseFine p' phase := by
  have hlast : ∀ {w : Nat}, p.workers.getLast? = some w → p'.workers.getLast? = some w := by
    intro w hw
    rcases hmoves.workers with heq | ⟨-, heq⟩
    · rwa [heq]
    · rw [heq, List.getLast?_cons, hw]
      rfl
  have hexited : ∀ {w : Nat}, exited (p.thread w).control = true →
      w ≠ u ∧ exited (p'.thread w).control = true := by
    intro w hw
    have hne : w ≠ u := by
      rintro rfl
      rw [hw] at hrunning
      cases hrunning
    exact ⟨hne, by rwa [hmoves.others w hne]⟩
  cases phase with
  | unlock w => exact hlast h
  | join w => exact hlast h
  | lock w => exact ⟨hlast h.1, (hexited h.2).2⟩
  | pop w => exact ⟨hlast h.1, (hexited h.2).2⟩
  | free w =>
    obtain ⟨hne, hw⟩ := hexited h.2
    refine ⟨fun hmem => h.1 ?_, hw⟩
    rcases hmoves.workers with heq | ⟨-, heq⟩
    · rwa [heq] at hmem
    · rw [heq] at hmem
      exact (List.mem_cons.mp hmem).resolve_left hne
  | _ => trivial

theorem Inv.moves (h : Inv n s) (hmoves : Moves P n s.pool p' u)
    (hrunning : exited (s.pool.thread u).control = false)
    (hasks : ∀ w, Asks P s.pool u w → s.freed w = false) : Inv n { s with pool := p' } := by
  constructor
  · exact hmoves.listed h.listed
  · show p'.workers.Nodup
    rcases hmoves.workers with heq | ⟨hpc, heq⟩
    · rw [heq]
      exact h.nodup
    · rw [heq]
      exact List.nodup_cons.mpr ⟨h.starting u (Or.inr hpc), h.nodup⟩
  · intro t hstart
    by_cases heq : t = u
    · subst heq
      obtain ⟨hbefore, hworkers⟩ := hmoves.starting hstart
      show t ∉ p'.workers
      rw [hworkers]
      exact h.starting t hbefore
    · have hbefore : Starting (s.pool.thread t).control := by
        rw [← hmoves.others t heq]
        exact hstart
      show t ∉ p'.workers
      rcases hmoves.workers with hworkers | ⟨-, hworkers⟩
      · rw [hworkers]
        exact h.starting t hbefore
      · rw [hworkers, List.mem_cons, not_or]
        exact ⟨heq, h.starting t hbefore⟩
  · exact h.phase.moves hmoves hrunning
  · intro w hw
    obtain ⟨hmem, hexited, hholds⟩ := h.freed w hw
    have hne : w ≠ u := by
      rintro rfl
      rw [hexited] at hrunning
      cases hrunning
    refine ⟨?_, ?_, fun t ht => ?_⟩
    · show w ∉ p'.workers
      rcases hmoves.workers with hworkers | ⟨-, hworkers⟩
      · rwa [hworkers]
      · rw [hworkers, List.mem_cons, not_or]
        exact ⟨hne, hmem⟩
    · show exited (p'.thread w).control = true
      rwa [hmoves.others w hne]
    · by_cases heq : t = u
      · subst heq
        rcases hmoves.holds h.listed w ht with ht | ht | ht | ht
        · exact hholds t ht
        · exact hmem ht
        · exact hne ht
        · rw [hasks w ht] at hw
          cases hw
      · refine hholds t (Holds.back hmoves heq (fun hown => hne ?_) ht)
        rw [currWorker] at hown
        split at hown
        · exact (Option.some.inj hown).symm
        · cases hown

theorem pop_fine {l : List Nat} (hnodup : l.Nodup) (hlast : l.getLast? = some w) :
    w ∉ l.dropLast := by
  obtain ⟨front, rfl⟩ := List.getLast?_eq_some_iff.mp hlast
  rw [List.dropLast_concat]
  intro hmem
  exact (List.disjoint_of_nodup_append hnodup) hmem (List.mem_singleton.mpr rfl)

theorem shutdownStep_inv (h : Inv n s) (hcareful : Careful P n s .shutdown)
    (hnext : shutdownStep n s s.phase = some s') : Inv n s' := by
  have hphase := h.phase
  cases hs : s.phase with
  | idle =>
    rw [hs, shutdownStep] at hnext
    split at hnext
    · cases hnext
      exact ⟨h.listed, h.nodup, h.starting, trivial, h.freed⟩
    · cases hnext
  | flag =>
    rw [hs] at hnext
    cases hnext
    exact ⟨h.listed, h.nodup, h.starting, trivial, h.freed⟩
  | test =>
    rw [hs] at hnext
    cases hnext
    refine ⟨h.listed, h.nodup, h.starting, ?_, h.freed⟩
    show PhaseFine s.pool (match s.pool.workers.getLast? with
      | none => .finish
      | some w => .unlock w)
    cases hlast : s.pool.workers.getLast? with
    | none => trivial
    | some w => exact hlast
  | unlock w =>
    rw [hs] at hnext hphase
    cases hnext
    exact ⟨h.listed, h.nodup, h.starting, hphase, h.freed⟩
  | join w =>
    rw [hs] at hphase
    rw [hs, shutdownStep] at hnext
    split at hnext
    · rename_i hexited
      cases hnext
      exact ⟨h.listed, h.nodup, h.starting, ⟨hphase, hexited⟩, h.freed⟩
    · cases hnext
  | lock w =>
    rw [hs] at hnext hphase
    cases hnext
    exact ⟨h.listed, h.nodup, h.starting, hphase, h.freed⟩
  | pop w =>
    rw [hs] at hnext hphase
    cases hnext
    have hsub : ∀ {t : Nat}, t ∉ s.pool.workers → t ∉ s.pool.workers.dropLast :=
      fun ht hmem => ht (List.dropLast_subset _ hmem)
    refine ⟨h.listed, ?_, fun t ht => hsub (h.starting t ht), ?_, fun v hv => ?_⟩
    · exact h.nodup.sublist (List.dropLast_sublist _)
    · exact ⟨pop_fine h.nodup hphase.1, hphase.2⟩
    · obtain ⟨hmem, hexited, hholds⟩ := h.freed v hv
      exact ⟨hsub hmem, hexited, hholds⟩
  | free w =>
    rw [hs] at hnext hphase
    cases hnext
    refine ⟨h.listed, h.nodup, h.starting, trivial, fun v hv => ?_⟩
    by_cases heq : v = w
    · subst heq
      exact ⟨hphase.1, hphase.2, hcareful v hs⟩
    · exact h.freed v (by simpa [heq] using hv)
  | finish =>
    rw [hs] at hnext
    cases hnext
    exact ⟨h.listed, h.nodup, h.starting, trivial, h.freed⟩
  | done =>
    rw [hs] at hnext
    cases hnext

theorem Inv.owner (h : Inv n s) (owner : Mutex → Option Nat) :
    Inv n { s with pool := { s.pool with owner := owner } } :=
  ⟨h.listed, h.nodup, h.starting, h.phase, h.freed⟩

theorem next_inv {i : Label Val} (h : Inv n s) (hcareful : Careful P n s i)
    (hnext : next P n s i = some s') : Inv n s' := by
  cases i with
  | run u listsEmpty =>
    obtain ⟨p, hp, rfl⟩ := Option.map_eq_some_iff.mp hnext
    obtain ⟨owner, howner, hp⟩ := Option.bind_eq_some_iff.mp hp
    obtain ⟨p', hp', heq⟩ := Option.bind_eq_some_iff.mp hp
    cases heq
    exact (h.moves (transfer_moves hp') (transfer_exited hp') hcareful).owner owner
  | read u value =>
    obtain ⟨p, hp, rfl⟩ := Option.map_eq_some_iff.mp hnext
    refine h.moves (read_moves hp) (read_exited (w := 0) hp).1 fun w hw => ?_
    exact absurd hw (read_exited hp).2
  | shutdown =>
    obtain ⟨owner, howner, hnext⟩ := Option.bind_eq_some_iff.mp hnext
    obtain ⟨s₁, hs₁, heq⟩ := Option.bind_eq_some_iff.mp hnext
    cases heq
    exact (shutdownStep_inv h hcareful hs₁).owner owner

theorem init_inv (h : (system P n).init s) : Inv n s := by
  obtain ⟨⟨-, -, htasks, hworkers, -⟩, hphase, hfreed⟩ := h
  refine ⟨fun q f hf => ?_, ?_, fun t _ ht => ?_, ?_, fun w hw => ?_⟩
  · rw [htasks q] at hf
    cases hf
  · rw [hworkers]
    exact List.nodup_nil
  · rw [hworkers] at ht
    cases ht
  · rw [hphase]
    trivial
  · rw [hfreed w] at hw
    cases hw

theorem shutdownStep_thread {phase : Phase} (hnext : shutdownStep n s phase = some s') :
    s'.pool.thread = s.pool.thread := by
  cases phase with
  | idle =>
    rw [shutdownStep] at hnext
    split at hnext <;> cases hnext
    rfl
  | join w =>
    rw [shutdownStep] at hnext
    split at hnext <;> cases hnext
    rfl
  | done => cases hnext
  | _ =>
    cases hnext
    rfl

theorem next_thread {i : Label Val} {t : Nat} (hnext : next P n s i = some s')
    (hi : i.thread ≠ some t) : s'.pool.thread t = s.pool.thread t := by
  cases i with
  | run u listsEmpty =>
    obtain ⟨p, hp, rfl⟩ := Option.map_eq_some_iff.mp hnext
    obtain ⟨owner, howner, hp⟩ := Option.bind_eq_some_iff.mp hp
    obtain ⟨p', hp', heq⟩ := Option.bind_eq_some_iff.mp hp
    cases heq
    exact (transfer_moves hp').others t fun heq => hi (congrArg some heq.symm)
  | read u value =>
    obtain ⟨p, hp, rfl⟩ := Option.map_eq_some_iff.mp hnext
    exact (read_moves hp).others t fun heq => hi (congrArg some heq.symm)
  | shutdown =>
    obtain ⟨owner, howner, hnext⟩ := Option.bind_eq_some_iff.mp hnext
    obtain ⟨s₁, hs₁, heq⟩ := Option.bind_eq_some_iff.mp hnext
    cases heq
    exact congrFun (shutdownStep_thread hs₁) t

theorem exec_thread {is : List (Label Val)} {t : Nat} (hrun : (system P n).exec s is = some s')
    (his : ∀ i ∈ is, i.thread ≠ some t) : s'.pool.thread t = s.pool.thread t := by
  induction is generalizing s with
  | nil =>
    cases hrun
    rfl
  | cons i is ih =>
    obtain ⟨s₁, hs₁, hrest⟩ := Option.bind_eq_some_iff.mp hrun
    rw [ih hrest fun j hj => his j (List.mem_cons_of_mem i hj)]
    exact next_thread hs₁ (his i List.mem_cons_self)

end Invariant

section Sample

/-- Nothing is submitted; the thread outside the pool returns at once. -/
def sampleProgram : Program Unit Nat Unit where
  instr _ := .ret 0
  body _ _ := ()
  main _ := ()

def sampleStart (n : Nat) : State Unit Nat Unit where
  pool := {
    owner := fun _ => none
    isShutdown := false
    tasks := fun _ => []
    workers := []
    arrived := 0
    submitted := 0
    future := fun _ => ⟨(), 0, none, 0, .WAITING⟩
    thread := fun t => ⟨if t < n then .loop .start else .code (), []⟩
    entries := fun t => if t < n then [fun _ => false] else [] }
  phase := .idle
  freed _ := false

theorem sampleStart_init (n : Nat) : (system sampleProgram n).init (sampleStart n) :=
  ⟨⟨fun _ => rfl, rfl, fun _ => rfl, rfl, rfl, rfl, fun _ => rfl, fun _ => rfl⟩, rfl, fun _ => rfl⟩

/-- The shutdown sets the flag before the worker comes to its loop, and joins it. -/
def joinedLabels : List (Label Nat) :=
  .run 1 true :: List.replicate 5 (.run 0 true) ++ List.replicate 4 .shutdown ++
    List.replicate 3 (.run 0 true) ++ List.replicate 3 .shutdown

/-- Worker 0 looks for tasks; the shutdown frees worker 1, and worker 0 comes to its lock. -/
def freedLabels : List (Label Nat) :=
  .run 2 true :: List.replicate 4 (.run 1 true) ++ List.replicate 19 (.run 0 true) ++
    List.replicate 4 .shutdown ++ List.replicate 9 (.run 0 true) ++
    List.replicate 4 (.run 1 true) ++ List.replicate 4 .shutdown

def Early (s : State Unit Nat Unit) : Label Nat → Prop
  | .shutdown => (match s.phase with | .free _ => true | _ => false) = false
  | _ => True

instance (s : State Unit Nat Unit) : (i : Label Nat) → Decidable (Early s i)
  | .shutdown => inferInstanceAs (Decidable (_ = _))
  | .run _ _ => isTrue trivial
  | .read _ _ => isTrue trivial

theorem Early.careful {n : Nat} {s : State Unit Nat Unit} {i : Label Nat} (h : Early s i) :
    Careful sampleProgram n s i := by
  cases i with
  | shutdown =>
    intro w hw
    rw [Early, hw] at h
    cases h
  | run t listsEmpty =>
    rintro w ⟨c, f, k, -, hget, -⟩
    cases hget
  | read t value => trivial

theorem not_holds {n t w : Nat} {p : Locks.State Unit Nat Unit}
    (hcontrol : position n (workerOf p) t (p.thread t).control = none)
    (hcallers : (p.thread t).callers = []) : ¬ Holds n p t w := by
  rintro (hw | ⟨caller, hcaller, -⟩)
  · rw [hcontrol] at hw
    cases hw
  · rw [hcallers] at hcaller
    cases hcaller

end Sample

end ComputerSystems.Threadpool.Shutdown
