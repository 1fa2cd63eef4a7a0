/- The lock discipline of the pool: what each thread owns at each point of its functions. -/

import ComputerSystems.Threadpool.Locks

set_option autoImplicit false
set_option relaxedAutoImplicit false

namespace ComputerSystems.Threadpool.Discipline

open ComputerSystems.Systems.Runs
open ComputerSystems.Systems.Mutexes
open ComputerSystems.Threadpool.Programs
open ComputerSystems.Threadpool.Locks

variable {Task Val Code : Type}

/-- The mutexes a worker owns in `thread_function`. -/
def loopHeld : LoopPc → List Mutex
  | .register | .registered | .outer | .inner | .tested _ | .wait | .check | .search | .closing =>
    [.globalLock]
  | .pop q | .popped _ q | .finished _ q => [listLock q]
  | .visited w | .leave w | .skip w => [.localLock w]
  | _ => []

/-- `workers_lists_empty` takes the lists of the workers inside `global_lock`. -/
def emptyHeld : EmptyPc → List Mutex
  | .scan _ | .lock _ => [.globalLock]
  | .check w | .early w | .unlock w => [.localLock w, .globalLock]

def submitHeld (n t : Nat) : SubmitPc → List Mutex
  | .push | .unlock _ => [submitLock n t]
  | .lock | .done _ => []

def getHeld (s : State Task Val Code) (f : Nat) : GetPc → List Mutex
  | .lock | .waiting | .finish | .done => []
  | _ => [getLock s f]

def held (n : Nat) (s : State Task Val Code) (t : Nat) : Control Task Val Code → List Mutex
  | .loop pc => loopHeld pc
  | .empty pc => emptyHeld pc
  | .code _ => []
  | .submit _ _ _ pc => submitHeld n t pc
  | .get _ f _ pc => getHeld s f pc
  | .done => []

/-- What was owned at the start of the calls a thread is in, the calls of task functions apart. -/
def started : Control Task Val Code → List (Mutex → Bool)
  | .loop _ => [fun _ => false]
  | .empty _ => [fun m => m = .globalLock, fun _ => false]
  | .code _ => []
  | .submit _ _ _ _ => [fun _ => false]
  | .get _ _ _ _ => [fun _ => false]
  | .done => []

def expected (th : Thread Task Val Code) : List (Mutex → Bool) :=
  started th.control ++ List.replicate th.callers.length fun _ => false

/-- The futures that a thread uses are known, and it is not in the branch that unlocks too early. -/
def Fine (n : Nat) (s : State Task Val Code) (t : Nat) : Control Task Val Code → Prop
  | .empty (.early _) => False
  | .submit _ _ _ (.unlock f) => f < s.submitted ∧ (s.future f).worker = currWorker n t
  | .get _ f _ _ => f < s.submitted
  | _ => True

/-- The futures of a list are known, and belong to the worker of the list. -/
def Listed (s : State Task Val Code) : Prop :=
  ∀ q f, f ∈ s.tasks q → f < s.submitted ∧ (s.future f).worker = q

structure Inv (n : Nat) (s : State Task Val Code) : Prop where
  owns : ∀ t, OwnsExactly s.owner t (held n s t (s.thread t).control)
  entries : ∀ t, s.entries t = expected (s.thread t)
  fine : ∀ t, Fine n s t (s.thread t).control
  callers : ∀ t asked f k, Caller.get asked f k ∈ (s.thread t).callers → f < s.submitted
  listed : Listed s

def Grows (s s' : State Task Val Code) : Prop :=
  s.submitted ≤ s'.submitted ∧
    ∀ f, f < s.submitted → (s'.future f).worker = (s.future f).worker

/-- What a thread does between two states, when it acts on a mutex as `a` says. -/
structure Moved (n : Nat) (s s' : State Task Val Code) (t : Nat) (a : Action Mutex) : Prop where
  owner : s'.owner = s.owner
  thread : ∀ u, u ≠ t → s'.thread u = s.thread u ∧ s'.entries u = s.entries u
  entries : s'.entries t = expected (s'.thread t)
  follows : Follows a (held n s t (s.thread t).control) (held n s' t (s'.thread t).control)
  fine : Fine n s' t (s'.thread t).control
  callers : ∀ asked f k, Caller.get asked f k ∈ (s'.thread t).callers → f < s'.submitted
  grows : Grows s s'
  listed : Listed s'

section Invariant

variable {n t : Nat} {s s' : State Task Val Code}

theorem held_grows {c : Control Task Val Code} (hfine : Fine n s t c) (hgrows : Grows s s') :
    held n s' t c = held n s t c := by
  cases c with
  | get asked f k pc => simp only [held, getHeld, getLock, hgrows.2 f hfine]
  | _ => rfl

theorem Fine.grows {c : Control Task Val Code} (hfine : Fine n s t c) (hgrows : Grows s s') :
    Fine n s' t c := by
  cases c with
  | get asked f k pc => exact Nat.lt_of_lt_of_le hfine hgrows.1
  | submit task data k pc =>
    cases pc with
    | unlock f =>
      obtain ⟨hlt, hworker⟩ := hfine
      exact ⟨Nat.lt_of_lt_of_le hlt hgrows.1, (hgrows.2 f hlt).trans hworker⟩
    | _ => trivial
  | empty pc =>
    cases pc with
    | early w => exact hfine
    | _ => trivial
  | _ => trivial

theorem Inv.step {a : Action Mutex} {owner : Mutex → Option Nat} (h : Inv n s)
    (hmoved : Moved n s s' t a) (hperform : perform s.owner t a = some owner) :
    Inv n { s' with owner := owner } := by
  have hreleases := (h.owns t).releases hmoved.follows
  refine ⟨fun u => ?_, fun u => ?_, fun u => ?_, fun u asked f k hu => ?_, hmoved.listed⟩
  · by_cases heq : u = t
    · subst heq
      exact (h.owns u).perform hmoved.follows hperform
    · have hu := (h.owns u).other heq hreleases hperform
      rw [← held_grows (h.fine u) hmoved.grows, ← (hmoved.thread u heq).1] at hu
      exact hu
  · by_cases heq : u = t
    · subst heq
      exact hmoved.entries
    · show s'.entries u = expected (s'.thread u)
      rw [(hmoved.thread u heq).1, (hmoved.thread u heq).2, h.entries u]
  · by_cases heq : u = t
    · subst heq
      exact hmoved.fine
    · have hu := (h.fine u).grows hmoved.grows
      rw [← (hmoved.thread u heq).1] at hu
      exact hu
  · by_cases heq : u = t
    · subst heq
      exact hmoved.callers asked f k hu
    · have hu : Caller.get asked f k ∈ (s.thread u).callers := (hmoved.thread u heq).1 ▸ hu
      exact Nat.lt_of_lt_of_le (h.callers u asked f k hu) hmoved.grows.1

end Invariant

section Moves

variable {P : Program Task Val Code} {n t : Nat} {s s₁ s' : State Task Val Code}
variable {a : Action Mutex}

structure Env (s s₁ : State Task Val Code) : Prop where
  owner : s₁.owner = s.owner
  thread : s₁.thread = s.thread
  entries : s₁.entries = s.entries
  grows : Grows s s₁
  listed : Listed s₁

theorem Grows.refl : Grows s s :=
  ⟨Nat.le_refl _, fun _ _ => rfl⟩

theorem Inv.env (h : Inv n s) : Env s s :=
  ⟨rfl, rfl, rfl, Grows.refl, h.listed⟩

theorem Env.setFuture (he : Env s s₁) (f : Nat) {x : Future Task Val}
    (hx : x.worker = (s₁.future f).worker) :
    Env s { s₁ with future := Function.update s₁.future f x } := by
  have hworker : ∀ g, (Function.update s₁.future f x g).worker = (s₁.future g).worker :=
    fun g => by
      by_cases heq : g = f
      · rw [heq, Function.update_self, hx]
      · rw [Function.update_of_ne heq]
  refine ⟨he.owner, he.thread, he.entries, ⟨he.grows.1, fun g hg => ?_⟩, fun q g hg => ?_⟩
  · exact (hworker g).trans (he.grows.2 g hg)
  · obtain ⟨hlt, hq⟩ := he.listed q g hg
    exact ⟨hlt, (hworker g).trans hq⟩

theorem Env.setStatus (he : Env s s₁) (f : Nat) (x : Status) : Env s (s₁.setStatus f x) :=
  he.setFuture f rfl

theorem Env.tasks (he : Env s s₁) {l : Option Nat → List Nat} (hl : ∀ q, l q ⊆ s₁.tasks q) :
    Env s { s₁ with tasks := l } :=
  ⟨he.owner, he.thread, he.entries, he.grows, fun q g hg => he.listed q g (hl q hg)⟩

theorem Env.setTasks (he : Env s s₁) {q : Option Nat} {l : List Nat} (hl : l ⊆ s₁.tasks q) :
    Env s (s₁.setTasks q l) := by
  refine he.tasks fun r => ?_
  by_cases heq : r = q
  · subst heq
    rwa [Function.update_self]
  · rw [Function.update_of_ne heq]
    exact List.Subset.refl _

theorem Env.push (he : Env s s) (x : Future Task Val) :
    Env s { s.setTasks x.worker (s.submitted :: s.tasks x.worker) with
      submitted := s.submitted + 1
      future := Function.update s.future s.submitted x } := by
  have hold : ∀ f, f < s.submitted → Function.update s.future s.submitted x f = s.future f :=
    fun f hf => Function.update_of_ne (by omega) ..
  refine ⟨rfl, rfl, rfl, ⟨Nat.le_succ _, fun f hf => congrArg Future.worker (hold f hf)⟩,
    fun q f hf => ?_⟩
  have hcases : (q = x.worker ∧ f = s.submitted) ∨ f ∈ s.tasks q := by
    by_cases heq : q = x.worker
    · subst heq
      simpa [State.setTasks] using hf
    · exact Or.inr (by simpa [State.setTasks, heq] using hf)
  rcases hcases with ⟨rfl, rfl⟩ | hf
  · exact ⟨Nat.lt_succ_self _, by simp⟩
  · obtain ⟨hlt, hq⟩ := he.listed q f hf
    exact ⟨Nat.lt_succ_of_lt hlt, (congrArg Future.worker (hold f hlt)).trans hq⟩

theorem Env.moved (he : Env s s₁) (th : Thread Task Val Code) (es : List (Mutex → Bool))
    (hentries : es = expected th)
    (hfollows : Follows a (held n s t (s.thread t).control) (held n s₁ t th.control))
    (hfine : Fine n s₁ t th.control)
    (hcallers : ∀ asked f k, Caller.get asked f k ∈ th.callers → f < s₁.submitted) :
    Moved n s { s₁ with
      thread := Function.update s₁.thread t th
      entries := Function.update s₁.entries t es } t a := by
  have hgrows : Grows s₁ { s₁ with
      thread := Function.update s₁.thread t th
      entries := Function.update s₁.entries t es } := ⟨Nat.le_refl _, fun _ _ => rfl⟩
  refine ⟨he.owner, fun u hu => ?_, ?_, ?_, ?_, ?_, ⟨he.grows.1, he.grows.2⟩, he.listed⟩
  · simp [hu, he.thread, he.entries]
  · simp only [Function.update_self]
    exact hentries
  · simp only [Function.update_self]
    rw [held_grows hfine hgrows]
    exact hfollows
  · simp only [Function.update_self]
    exact hfine.grows hgrows
  · simp only [Function.update_self]
    exact hcallers

theorem Inv.go (h : Inv n s) (he : Env s s₁) {c : Control Task Val Code}
    (hstarted : started c = started (s.thread t).control)
    (hfollows : Follows a (held n s t (s.thread t).control) (held n s₁ t c))
    (hfine : Fine n s₁ t c) : Moved n s (s₁.go t c) t a := by
  have hmoved := he.moved ⟨c, (s₁.thread t).callers⟩ (s₁.entries t) ?_ hfollows hfine ?_
  · rw [Function.update_eq_self] at hmoved
    exact hmoved
  · rw [he.entries, h.entries t, expected, expected, he.thread, hstarted]
  · intro asked f k hf
    rw [he.thread] at hf
    exact Nat.lt_of_lt_of_le (h.callers t asked f k hf) he.grows.1

theorem Inv.goLoop (h : Inv n s) (he : Env s s₁) {pc pc' : LoopPc}
    (hpc : (s.thread t).control = .loop pc) (hfollows : Follows a (loopHeld pc) (loopHeld pc')) :
    Moved n s (s₁.go t (.loop pc')) t a :=
  h.go he (by rw [hpc]; rfl) (by rw [hpc]; exact hfollows) trivial

theorem Inv.goEmpty (h : Inv n s) {pc pc' : EmptyPc} (hpc : (s.thread t).control = .empty pc)
    (hfollows : Follows a (emptyHeld pc) (emptyHeld pc')) (hfine : ∀ w, pc' ≠ .early w) :
    Moved n s (s.go t (.empty pc')) t a := by
  refine h.go h.env (by rw [hpc]; rfl) (by rw [hpc]; exact hfollows) ?_
  cases pc' with
  | early w => exact absurd rfl (hfine w)
  | _ => trivial

theorem Inv.goGet (h : Inv n s) (he : Env s s₁) {asked f g : Nat} {k : Val → Code}
    {pc pc' : GetPc} (hpc : (s.thread t).control = .get asked f k pc)
    (hfollows : Follows a (getHeld s f pc) (getHeld s₁ g pc')) (hg : g < s₁.submitted) :
    Moved n s (s₁.go t (.get asked g k pc')) t a :=
  h.go he (by rw [hpc]; rfl) (by rw [hpc]; exact hfollows) hg

theorem Inv.call (h : Inv n s) {c : Control Task Val Code}
    (hstarted : started c = owned s t :: started (s.thread t).control)
    (hheld : held n s t c = held n s t (s.thread t).control) (hfine : Fine n s t c) :
    Moved n s (s.call t c) t .none := by
  refine h.env.moved ⟨c, (s.thread t).callers⟩ _ ?_ hheld hfine (h.callers t)
  rw [h.entries t, expected, expected, hstarted]
  rfl

theorem Inv.leave (h : Inv n s) {c : Control Task Val Code}
    (hstarted : started c = (started (s.thread t).control).tail)
    (hcalled : started (s.thread t).control ≠ [])
    (hheld : held n s t c = held n s t (s.thread t).control) (hfine : Fine n s t c) :
    Moved n s (s.leave t c) t .none := by
  refine h.env.moved ⟨c, (s.thread t).callers⟩ _ ?_ hheld hfine (h.callers t)
  rw [h.entries t, expected, expected, hstarted, List.tail_append_of_ne_nil hcalled]

theorem Inv.callTask (h : Inv n s) {caller : Caller Val Code}
    (hstarted : started (s.thread t).control = [fun _ => false])
    (hfollows : Follows a (held n s t (s.thread t).control) [])
    (hcaller : ∀ asked f k, caller = .get asked f k → f < s.submitted) :
    Moved n s (callTask P s t caller) t a := by
  have hmoved := h.env.moved ⟨.code (P.body (s.future caller.future).task
    (s.future caller.future).args), caller :: (s.thread t).callers⟩ (s.entries t) ?_ hfollows
    trivial fun asked f k hf => ?_
  · rw [Function.update_eq_self] at hmoved
    exact hmoved
  · rw [h.entries t, expected, expected, hstarted]
    rfl
  · rcases List.mem_cons.mp hf with hf | hf
    · exact hcaller asked f k hf.symm
    · exact h.callers t asked f k hf

theorem Inv.returnTask (h : Inv n s) {c : Code} (hpc : (s.thread t).control = .code c)
    (value : Val) : Moved n s (returnTask s t value) t .none := by
  unfold Locks.returnTask
  cases hcallers : (s.thread t).callers with
  | nil => exact h.go h.env (by rw [hpc]; rfl) (by rw [hpc]; rfl) trivial
  | cons caller callers =>
    have hknown := h.callers t
    rw [hcallers] at hknown
    let x := { s.future caller.future with result := value }
    have henv := h.env.setFuture caller.future (x := x) rfl
    have hmoved := henv.moved ⟨caller.resume, callers⟩ (s.entries t) (a := .none) (n := n) (t := t) ?_ ?_ ?_
      fun asked f k hf => hknown asked f k (List.mem_cons_of_mem _ hf)
    · rw [Function.update_eq_self] at hmoved
      exact hmoved
    · rw [h.entries t, expected, expected, hcallers, hpc]
      cases caller <;> rfl
    · rw [hpc]
      cases caller <;> rfl
    · cases caller with
      | loop f q => trivial
      | get asked f k => exact hknown asked f k List.mem_cons_self

end Moves

section Steps

variable {P : Program Task Val Code} {n t : Nat} {s s' : State Task Val Code}

/-- A visit of `workers_lists_empty` finds tasks in the list of a worker. -/
def findsTasks (s : State Task Val Code) (t : Nat) : Bool :=
  match (s.thread t).control with
  | .empty (.check w) => !(s.tasks (some w)).isEmpty
  | _ => false

theorem popBack_moved (h : Inv n s) {q : Option Nat}
    (hpc : (s.thread t).control = .loop (.pop q)) (hnext : popBack s t q = some s') :
    Moved n s s' t .none := by
  unfold popBack at hnext
  split at hnext
  · cases hnext
    have henv := h.env.setTasks (List.dropLast_subset (s.tasks q))
    exact h.goLoop (henv.setStatus _ .RUNNING) hpc rfl
  · cases hnext

theorem loopStep_moved (h : Inv n s) {pc : LoopPc} (hpc : (s.thread t).control = .loop pc)
    (hnext : loopStep P n s t pc = some s') : Moved n s s' t (loopOp s pc).action := by
  cases pc with
  | start =>
    cases hnext
    exact h.goLoop h.env hpc rfl
  | register =>
    cases hnext
    have henv : Env s { s with workers := t :: s.workers } :=
      ⟨rfl, rfl, rfl, ⟨Nat.le_refl _, fun _ _ => rfl⟩, h.listed⟩
    exact h.goLoop henv hpc rfl
  | registered =>
    cases hnext
    exact h.goLoop h.env hpc rfl
  | arrive =>
    cases hnext
    have henv : Env s { s with arrived := s.arrived + 1 } :=
      ⟨rfl, rfl, rfl, ⟨Nat.le_refl _, fun _ _ => rfl⟩, h.listed⟩
    exact h.goLoop henv hpc rfl
  | barrier =>
    rw [loopStep] at hnext
    split at hnext
    · cases hnext
      exact h.goLoop h.env hpc rfl
    · cases hnext
  | enter =>
    cases hnext
    exact h.goLoop h.env hpc rfl
  | outer =>
    cases hnext
    refine h.goLoop h.env hpc ?_
    split <;> rfl
  | inner =>
    have hop : (loopOp s .inner).action = .none := by
      rw [loopOp]
      split <;> rfl
    rw [hop]
    rw [loopStep] at hnext
    split at hnext
    · cases hnext
      refine h.call ?_ (by rw [hpc]; rfl) trivial
      have howns := h.owns t
      rw [hpc] at howns ⊢
      refine congrArg (· :: _) (funext fun m => ?_)
      simp only [owned, howns.2 m, held, loopHeld, List.mem_singleton]
    · cases hnext
      exact h.goLoop h.env hpc rfl
  | tested listsEmpty =>
    cases hnext
    refine h.goLoop h.env hpc ?_
    split <;> rfl
  | wait =>
    cases hnext
    exact h.goLoop h.env hpc rfl
  | waiting =>
    cases hnext
    exact h.goLoop h.env hpc rfl
  | check =>
    cases hnext
    refine h.goLoop h.env hpc ?_
    split <;> rfl
  | pop q => exact popBack_moved h hpc hnext
  | popped f q =>
    cases hnext
    exact h.callTask (by rw [hpc]; rfl) (by rw [hpc]; rfl) nofun
  | finish f q =>
    cases hnext
    exact h.goLoop h.env hpc rfl
  | finished f q =>
    cases q with
    | none =>
      cases hnext
      exact h.goLoop (h.env.setStatus f .FINISHED) hpc rfl
    | some w =>
      cases hnext
      exact h.goLoop (h.env.setStatus f .FINISHED) hpc rfl
  | search =>
    cases hnext
    exact h.goLoop h.env hpc rfl
  | scan e =>
    cases e with
    | none =>
      cases hnext
      exact h.goLoop h.env hpc rfl
    | some w =>
      cases hnext
      exact h.goLoop h.env hpc rfl
  | visit w =>
    cases hnext
    exact h.goLoop h.env hpc rfl
  | visited w =>
    cases hnext
    refine h.goLoop h.env hpc ?_
    split <;> rfl
  | leave w =>
    cases hnext
    exact h.goLoop h.env hpc rfl
  | skip w =>
    cases hnext
    exact h.goLoop h.env hpc rfl
  | closing =>
    cases hnext
    exact h.goLoop h.env hpc rfl
  | exit => cases hnext

theorem emptyStep_moved (h : Inv n s) {pc : EmptyPc} (hpc : (s.thread t).control = .empty pc)
    (hfinds : findsTasks s t = false) (listsEmpty : Bool) :
    Moved n s (emptyStep s t listsEmpty pc) t (emptyOp pc).action := by
  cases pc with
  | scan e =>
    cases e with
    | none => exact h.leave (by rw [hpc]; rfl) (by rw [hpc]; simp [started]) (by rw [hpc]; rfl) trivial
    | some w => exact h.goEmpty hpc rfl nofun
  | lock w => exact h.goEmpty hpc rfl nofun
  | check w =>
    simp only [findsTasks, hpc, Bool.not_eq_false'] at hfinds
    rw [emptyStep, if_pos hfinds]
    exact h.goEmpty hpc rfl nofun
  | early w =>
    have hfine := h.fine t
    rw [hpc] at hfine
    exact hfine.elim
  | unlock w => exact h.goEmpty hpc rfl nofun

theorem currWorker_lock :
    (if t < n then listLock (currWorker n t) else .globalLock) = submitLock n t := by
  rw [submitLock, currWorker]
  split <;> rfl

theorem submitStep_moved (h : Inv n s) {task : Task} {data : Val} {k : Nat → Code}
    {pc : SubmitPc} (hpc : (s.thread t).control = .submit task data k pc) :
    Moved n s (submitStep n s t task data k pc) t (submitOp n s t pc).action := by
  cases pc with
  | lock => exact h.go h.env (by rw [hpc]; rfl) (by rw [hpc]; rfl) trivial
  | push =>
    let x := { s.future s.submitted with
      task := task, args := data, worker := currWorker n t, state := .WAITING }
    exact h.go (h.env.push x) (by rw [hpc]; rfl) (by rw [hpc]; rfl)
      ⟨Nat.lt_succ_self _, by simp [x]⟩
  | unlock f =>
    have hfine := h.fine t
    rw [hpc] at hfine
    refine h.go h.env (by rw [hpc]; rfl) ?_ trivial
    rw [hpc, submitOp, getLock, hfine.2, currWorker_lock]
    rfl
  | done f =>
    exact h.leave (by rw [hpc]; rfl) (by rw [hpc]; simp [started]) (by rw [hpc]; rfl) trivial

theorem getStep_moved (h : Inv n s) {asked f : Nat} {k : Val → Code} {pc : GetPc}
    (hpc : (s.thread t).control = .get asked f k pc)
    (hnext : getStep P s t asked f k pc = some s') :
    Moved n s s' t (getOp s f pc).action := by
  have hf : f < s.submitted := by
    have hfine := h.fine t
    rw [hpc] at hfine
    exact hfine
  cases pc with
  | lock =>
    cases hnext
    exact h.goGet h.env hpc rfl hf
  | branch =>
    cases hnext
    refine h.goGet h.env hpc ?_ hf
    unfold getBranch
    split <;> rfl
  | await =>
    cases hnext
    refine h.goGet h.env hpc ?_ hf
    split <;> rfl
  | wait =>
    cases hnext
    exact h.goGet h.env hpc rfl hf
  | waiting =>
    cases hnext
    exact h.goGet h.env hpc rfl hf
  | remove =>
    cases hnext
    have henv := h.env.tasks (fun q => List.erase_subset (a := f) (l := s.tasks q))
    refine h.goGet (henv.setStatus f .RUNNING) hpc ?_ hf
    simp [Op.action, getOp, Follows, getHeld, getLock, State.setStatus]
  | check =>
    cases hnext
    refine h.goGet h.env hpc ?_ hf
    split <;> rfl
  | pop =>
    rw [getStep] at hnext
    split at hnext
    · cases hnext
    · rename_i g rest htasks
      cases hnext
      have hg := h.listed (s.future f).worker g (by rw [htasks]; exact List.mem_cons_self)
      have hrest : rest ⊆ s.tasks (s.future f).worker := by
        rw [htasks]
        exact List.subset_cons_self g rest
      have henv := h.env.setTasks hrest
      refine h.goGet (henv.setStatus g .RUNNING) hpc ?_ hg.1
      simp [Op.action, getOp, Follows, getHeld, getLock, State.setStatus, State.setTasks, hg.2]
  | running =>
    cases hnext
    refine h.callTask (by rw [hpc]; rfl) (by rw [hpc]; rfl) fun asked' g k' hg => ?_
    cases hg
    exact hf
  | finish =>
    cases hnext
    exact h.goGet h.env hpc rfl hf
  | finished =>
    cases hnext
    refine h.goGet (h.env.setStatus f .FINISHED) hpc ?_ hf
    simp [Op.action, getOp, Follows, getHeld, getLock, State.setStatus]
  | unlock =>
    cases hnext
    exact h.goGet h.env hpc rfl hf
  | done =>
    cases hnext
    exact h.leave (by rw [hpc]; rfl) (by rw [hpc]; simp [started]) (by rw [hpc]; rfl) trivial

theorem execInstr_moved (h : Inv n s) {c : Code} (hpc : (s.thread t).control = .code c)
    {instr : Instr Task Val Code} (hnext : execInstr s t instr = some s') :
    Moved n s s' t .none := by
  have howned : owned s t = fun _ => false := by
    have howns := h.owns t
    rw [hpc] at howns
    ext m
    simp [owned, howns.2 m, held]
  cases instr with
  | ret value =>
    cases hnext
    exact h.returnTask hpc value
  | read k => cases hnext
  | submit task data k =>
    cases hnext
    exact h.call (by rw [hpc, howned]; rfl) (by rw [hpc]; rfl) trivial
  | get f k =>
    rw [execInstr] at hnext
    split at hnext
    · rename_i hf
      cases hnext
      exact h.call (by rw [hpc, howned]; rfl) (by rw [hpc]; rfl) hf
    · cases hnext

theorem transfer_moved (h : Inv n s) {listsEmpty : Bool} (hfinds : findsTasks s t = false)
    (hnext : transfer P n s t listsEmpty = some s') : Moved n s s' t (op n s t).action := by
  unfold op
  rw [transfer] at hnext
  cases hpc : (s.thread t).control with
  | loop pc =>
    rw [hpc] at hnext
    exact loopStep_moved h hpc hnext
  | empty pc =>
    rw [hpc] at hnext
    cases hnext
    exact emptyStep_moved h hpc hfinds listsEmpty
  | code c =>
    rw [hpc] at hnext
    exact execInstr_moved h hpc hnext
  | submit task data k pc =>
    rw [hpc] at hnext
    cases hnext
    exact submitStep_moved h hpc
  | get asked f k pc =>
    rw [hpc] at hnext
    exact getStep_moved h hpc hnext
  | done =>
    rw [hpc] at hnext
    cases hnext

end Steps

section Runs

variable {P : Program Task Val Code} {n : Nat} {s s' : State Task Val Code}

/-- The step is no visit of `workers_lists_empty` to a list with tasks. -/
def Orderly (s : State Task Val Code) (i : Label Val) : Prop :=
  ∀ t ∈ i.thread, findsTasks s t = false

instance (s : State Task Val Code) (i : Label Val) : Decidable (Orderly s i) :=
  inferInstanceAs (Decidable (∀ t ∈ i.thread, findsTasks s t = false))

/-- A thread that is about to do `o` owns the mutex that it gives back, or that guards the list it
looks at. -/
def Guarded (s : State Task Val Code) (t : Nat) : Op → Prop
  | .unlock m => s.owner m = some t
  | .wait m => s.owner m = some t
  | .access q => s.owner (listLock q) = some t
  | .remove f => ∀ q, (s.future f).worker = q ∨ f ∈ s.tasks q → s.owner (listLock q) = some t
  | _ => True

def leaving : Control Task Val Code → Bool
  | .loop .exit => true
  | .empty (.scan none) => true
  | .submit _ _ _ (.done _) => true
  | .get _ _ _ .done => true
  | _ => false

/-- The lock discipline of the pool. -/
structure Disciplined (n : Nat) (s : State Task Val Code) : Prop where
  guarded : ∀ t, Guarded s t (op n s t)
  balanced : ∀ t, leaving (s.thread t).control → (s.entries t).head? = some (owned s t)

theorem inv_of_init (h : (system P n).init s) : Inv n s := by
  obtain ⟨howner, -, htasks, -, -, -, hthread, hentries⟩ := h
  refine ⟨fun t => ?_, fun t => ?_, fun t => ?_, fun t asked f k hf => ?_, fun q f hf => ?_⟩
  · have hheld : held n s t (s.thread t).control = [] := by
      rw [hthread]
      by_cases ht : t < n
      · rw [if_pos ht]
        rfl
      · rw [if_neg ht]
        rfl
    rw [hheld]
    exact ⟨List.nodup_nil, fun m => by simp [howner]⟩
  · rw [hentries, hthread]
    by_cases ht : t < n
    · rw [if_pos ht, if_pos ht]
      rfl
    · rw [if_neg ht, if_neg ht]
      rfl
  · rw [hthread]
    by_cases ht : t < n
    · rw [if_pos ht]
      trivial
    · rw [if_neg ht]
      trivial
  · rw [hthread] at hf
    cases hf
  · rw [htasks] at hf
    cases hf

theorem Inv.next {i : Label Val} (h : Inv n s) (horderly : Orderly s i)
    (hnext : Locks.next P n s i = some s') : Inv n s' := by
  cases i with
  | run t listsEmpty =>
    obtain ⟨owner, hperform, hnext⟩ := Option.bind_eq_some_iff.mp hnext
    obtain ⟨s₁, htransfer, hs'⟩ := Option.bind_eq_some_iff.mp hnext
    cases hs'
    exact h.step (transfer_moved h (horderly t rfl) htransfer) hperform
  | read t value =>
    rw [Locks.next] at hnext
    split at hnext
    · rename_i c hpc
      split at hnext
      · rename_i k hinstr
        cases hnext
        have hmoved : Moved n s (s.go t (.code (k value))) t .none :=
          h.go h.env (by rw [hpc]; rfl) (by rw [hpc]; rfl) trivial
        exact h.step hmoved rfl
      · cases hnext
    · cases hnext
  | shutdown =>
    rw [Locks.next] at hnext
    split at hnext
    · cases hnext
      have hgrows : Grows s { s with isShutdown := true } := ⟨Nat.le_refl _, fun _ _ => rfl⟩
      refine ⟨fun t => ?_, h.entries, fun t => (h.fine t).grows hgrows, h.callers, h.listed⟩
      rw [held_grows (h.fine t) hgrows]
      exact h.owns t
    · cases hnext

theorem loop_guarded {t : Nat} {pc : LoopPc}
    (howns : ∀ m ∈ loopHeld pc, s.owner m = some t) : Guarded s t (loopOp s pc) := by
  cases pc with
  | registered => exact howns _ List.mem_cons_self
  | inner =>
    rw [loopOp]
    split
    · trivial
    · exact howns _ List.mem_cons_self
  | wait => exact howns _ List.mem_cons_self
  | check => exact howns _ List.mem_cons_self
  | pop q => exact howns _ List.mem_cons_self
  | popped f q => exact howns _ List.mem_cons_self
  | search => exact howns _ List.mem_cons_self
  | visited w => exact howns _ List.mem_cons_self
  | leave w => exact howns _ List.mem_cons_self
  | skip w => exact howns _ List.mem_cons_self
  | closing => exact howns _ List.mem_cons_self
  | _ => trivial

theorem get_guarded {t f : Nat} {pc : GetPc} (hlisted : Listed s)
    (howns : ∀ m ∈ getHeld s f pc, s.owner m = some t) : Guarded s t (getOp s f pc) := by
  cases pc with
  | wait => exact howns _ List.mem_cons_self
  | remove =>
    rintro q (rfl | hf)
    · exact howns _ List.mem_cons_self
    · rw [← (hlisted q f hf).2]
      exact howns _ List.mem_cons_self
  | check => exact howns _ List.mem_cons_self
  | pop => exact howns _ List.mem_cons_self
  | running => exact howns _ List.mem_cons_self
  | unlock => exact howns _ List.mem_cons_self
  | _ => trivial

theorem Inv.guarded (h : Inv n s) (t : Nat) : Guarded s t (op n s t) := by
  have howns : ∀ m ∈ held n s t (s.thread t).control, s.owner m = some t :=
    fun m hm => ((h.owns t).2 m).mpr hm
  have hfine := h.fine t
  unfold op
  cases hpc : (s.thread t).control with
  | loop pc =>
    rw [hpc] at howns
    exact loop_guarded howns
  | empty pc =>
    rw [hpc] at howns
    cases pc with
    | check w => exact howns _ List.mem_cons_self
    | early w => exact howns _ List.mem_cons_self
    | unlock w => exact howns _ List.mem_cons_self
    | _ => trivial
  | code c => trivial
  | submit task data k pc =>
    rw [hpc] at howns hfine
    cases pc with
    | push => exact howns _ List.mem_cons_self
    | unlock f =>
      show Guarded s t (.unlock (if t < n then getLock s f else .globalLock))
      rw [getLock, hfine.2, currWorker_lock]
      exact howns _ List.mem_cons_self
    | _ => trivial
  | get asked f k pc =>
    rw [hpc] at howns
    exact get_guarded h.listed howns
  | done => trivial

theorem Inv.balanced (h : Inv n s) {t : Nat} (hleaving : leaving (s.thread t).control) :
    (s.entries t).head? = some (owned s t) := by
  have howned : owned s t = fun m => decide (m ∈ held n s t (s.thread t).control) := by
    ext m
    simp [owned, (h.owns t).2 m]
  rw [h.entries t, howned, expected]
  cases hpc : (s.thread t).control with
  | loop pc =>
    rw [hpc] at hleaving
    cases pc with
    | exit => rfl
    | _ => cases hleaving
  | empty pc =>
    rw [hpc] at hleaving
    cases pc with
    | scan e =>
      refine congrArg some (funext fun m => ?_)
      simp [held, emptyHeld]
    | _ => cases hleaving
  | code c =>
    rw [hpc] at hleaving
    cases hleaving
  | submit task data k pc =>
    rw [hpc] at hleaving
    cases pc with
    | done f => rfl
    | _ => cases hleaving
  | get asked f k pc =>
    rw [hpc] at hleaving
    cases pc with
    | done => rfl
    | _ => cases hleaving
  | done =>
    rw [hpc] at hleaving
    cases hleaving

/-- Where no visit of `workers_lists_empty` finds tasks, the pool keeps its lock discipline. -/
theorem lock_discipline (h : ReachableBy (system P n) Orderly s) : Disciplined n s := by
  have hinv : Inv n s := h.invariant (fun _ => inv_of_init)
    fun _ _ _ hs horderly hnext => hs.next horderly hnext
  exact ⟨hinv.guarded, fun _ => hinv.balanced⟩

end Runs

section Sample

inductive SampleCode where
  | main
  | spawn
  | value

def sampleProgram : Program Bool Nat SampleCode where
  instr
    | .main => .submit true 0 fun _ => .value
    | .spawn => .submit false 0 fun _ => .value
    | .value => .ret 0
  body task _ := if task then .spawn else .value
  main _ := .main

def sampleStart (n : Nat) : State Bool Nat SampleCode where
  owner _ := none
  isShutdown := false
  tasks _ := []
  workers := []
  arrived := 0
  submitted := 0
  future _ := ⟨false, 0, none, 0, .WAITING⟩
  thread t := ⟨if t < n then .loop .start else .code .main, []⟩
  entries t := if t < n then [fun _ => false] else []

theorem sampleStart_init (n : Nat) : (system sampleProgram n).init (sampleStart n) :=
  ⟨fun _ => rfl, rfl, fun _ => rfl, rfl, rfl, rfl, fun _ => rfl, fun _ => rfl⟩

def sampleLabels (steps : List Nat) : List (Label Nat) :=
  steps.map fun t => .run t true

def pushSteps : List Nat := List.replicate 3 1

/-- Worker 0 runs the first task, and looks for tasks when it comes back to its loop. -/
def spawnSteps : List Nat := pushSteps ++ 1 :: List.replicate 25 0

theorem lock_discipline_sample : ∃ s, ReachableBy (system sampleProgram 1) Orderly s ∧
    op 1 s 1 = .unlock .globalLock ∧ Disciplined 1 s := by
  have hrun : (((system sampleProgram 1).restrict Orderly).exec (sampleStart 1)
      (sampleLabels pushSteps)).map (fun s => op 1 s 1) = some (.unlock .globalLock) := by
    decide
  obtain ⟨s, hs, hobs⟩ := Option.map_eq_some_iff.mp hrun
  have hinit : ((system sampleProgram 1).restrict Orderly).init (sampleStart 1) :=
    sampleStart_init 1
  have hreach := ReachableBy.of_restrict (Reachable.exec (.start hinit) hs)
  exact ⟨s, hreach, hobs, lock_discipline hreach⟩

/-- A worker that finds tasks in `workers_lists_empty` unlocks the list a second time. -/
theorem lists_empty_unlocks_twice :
    ¬ ∀ s, Reachable (system sampleProgram 1) s → Disciplined 1 s := by
  intro hall
  have hrun : ((system sampleProgram 1).exec (sampleStart 1) (sampleLabels spawnSteps)).map
      (fun s => (op 1 s 0, s.owner (.localLock 0))) = some (.unlock (.localLock 0), none) := by
    decide
  obtain ⟨s, hs, hobs⟩ := Option.map_eq_some_iff.mp hrun
  simp only [Prod.mk.injEq] at hobs
  have hguarded := (hall s (Reachable.exec (.start (sampleStart_init 1)) hs)).guarded 0
  rw [hobs.1] at hguarded
  have howner : s.owner (.localLock 0) = some 0 := hguarded
  rw [hobs.2] at howner
  cases howner

end Sample

end ComputerSystems.Threadpool.Discipline
