/- No wakeup of the pool is missed: a wait ends, and a task that is pending finds a worker. -/

import ComputerSystems.Threadpool.Wakeups
import Mathlib.Data.Finset.Card
import Mathlib.Data.Finset.Range

set_option autoImplicit false
set_option relaxedAutoImplicit false

namespace ComputerSystems.Threadpool.Progress

open ComputerSystems.Systems.Runs
open ComputerSystems.Threadpool.Programs
open ComputerSystems.Threadpool.Pool hiding next system
open ComputerSystems.Threadpool.Ledger
open ComputerSystems.Threadpool.Turns
open ComputerSystems.Threadpool.Wakeups

variable {Task Val Code : Type}

/-- Below the task functions that a worker is in there is its loop; other threads have none. -/
def Above (n t : Nat) : List (Caller Val Code) → Prop
  | [] => n ≤ t
  | .loop _ _ :: rest => t < n ∧ rest = []
  | .get _ _ _ :: rest => Above n t rest

/-- Only workers are in `thread_function`, and they never leave it for good. -/
def Placed (n t : Nat) (th : Thread Val Code) : Prop :=
  match th.control with
  | .loop _ => t < n ∧ th.callers = []
  | .done => n ≤ t ∧ th.callers = []
  | _ => Above n t th.callers

/-- `future_get` calls the task functions of futures that workers have submitted, and no other. -/
structure Owned (s : State Task Val Code) (th : Thread Val Code) : Prop where
  callers : ∀ asked g k, Caller.get asked g k ∈ th.callers →
    g < s.submitted ∧ (s.future g).worker ≠ none
  finish : ∀ asked g k, th.control = .get asked g k .finish →
    g < s.submitted ∧ (s.future g).worker ≠ none

def isEarly (s : State Task Val Code) (t : Nat) : Bool :=
  match (s.thread t).control with
  | .loop pc => LoopPc.early pc
  | _ => false

def early (n : Nat) (s : State Task Val Code) : Finset Nat :=
  (Finset.range n).filter fun t => isEarly s t

structure Roles (n : Nat) (s : State Task Val Code) : Prop where
  sound : Sound s
  placed : ∀ t, Placed n t (s.thread t)
  owned : ∀ t, Owned s (s.thread t)
  exits : ∀ t, (s.thread t).control = .loop .exit → s.isShutdown = true
  arrived : s.arrived + (early n s).card = n

section Sections

variable {P : Program Task Val Code} {n t u f : Nat} {s s' : State Task Val Code}

theorem section_thread (h : Section P n s t s') (hne : u ≠ t) : s'.thread u = s.thread u := by
  cases h with
  | ret c value hpc hinstr =>
    unfold returnTask
    split <;> simp [State.setControl, hne]
  | _ => simp [State.setControl, callTask, State.setTasks, threadPoolSubmit, hne]

theorem section_shutdown (h : Section P n s t s') : s'.isShutdown = s.isShutdown := by
  cases h with
  | ret c value hpc hinstr =>
    unfold returnTask
    split <;> rfl
  | _ => simp [State.setControl, callTask, State.setTasks, threadPoolSubmit]

theorem section_submitted (h : Section P n s t s') : s.submitted ≤ s'.submitted := by
  cases h with
  | ret c value hpc hinstr =>
    unfold returnTask
    split <;> exact Nat.le_refl _
  | _ => simp [State.setControl, callTask, State.setTasks, threadPoolSubmit]

theorem section_worker (h : Section P n s t s') (hf : f < s.submitted) :
    (s'.future f).worker = (s.future f).worker := by
  have hupdate : ∀ (future : Nat → Future Task Val) (g : Nat) (x : Future Task Val),
      x.worker = (future g).worker → (Function.update future g x f).worker = (future f).worker := by
    intro future g x hx
    by_cases heq : f = g
    · rw [heq, Function.update_self, hx]
    · rw [Function.update_of_ne heq]
  cases h with
  | take pc g q l hpc hearly hl =>
    have hcalled := hupdate (settled s t).future g
      { (settled s t).future g with state := .RUNNING } rfl
    exact hcalled.trans (settled_worker f)
  | help asked f' g w k l hpc hl =>
    exact hupdate s.future g _ rfl
  | submit c task data k hpc hinstr =>
    simp only [threadPoolSubmit, State.setControl, State.setTasks]
    rw [Function.update_of_ne (Nat.ne_of_lt hf)]
  | ret c value hpc hinstr =>
    unfold returnTask
    split
    · rfl
    · exact hupdate _ _ _ rfl
  | _ => simp [State.setControl]

/-- A future becomes `FINISHED` only in a section that broadcasts. -/
theorem section_finished (h : Section P n s t s') (hquiet : broadcasts s t = false)
    (hf : (s'.future f).state = .FINISHED) : (s.future f).state = .FINISHED := by
  have hsettled : settled s t = s := by
    apply settled_of_none
    rw [broadcasts] at hquiet
    exact Option.not_isSome_iff_eq_none.mp (by rw [hquiet]; exact Bool.false_ne_true)
  have hupdate : ∀ (g : Nat) (x : Future Task Val), x.state ≠ .FINISHED →
      (Function.update s.future g x f).state = .FINISHED → (s.future f).state = .FINISHED := by
    intro g x hx hfinished
    by_cases heq : f = g
    · rw [heq, Function.update_self] at hfinished
      exact absurd hfinished hx
    · rwa [Function.update_of_ne heq] at hfinished
  cases h with
  | take pc g q l hpc hearly hl =>
    rw [hsettled] at hf
    exact hupdate _ _ (by simp) hf
  | help asked f' g w k l hpc hl => exact hupdate _ _ (by simp) hf
  | submit c task data k hpc hinstr => exact hupdate _ _ (by simp) hf
  | ret c value hpc hinstr =>
    unfold returnTask at hf
    split at hf
    · exact hf
    · rename_i caller callers hcallers
      by_cases heq : f = caller.future
      · subst heq
        simpa using hf
      · simpa [heq] using hf
  | exit | wait | walk | result =>
    rw [hsettled] at hf
    exact hf
  | _ => exact hf

theorem section_global (h : Section P n s t s') (hf : f ∈ s'.tasks none) :
    f ∈ s.tasks none ∨ (t, f) ∈ signalsDue P s t := by
  cases h with
  | take pc g q l hpc hearly hl =>
    refine Or.inl ?_
    cases q with
    | none =>
      have hmem : f ∈ l := by simpa [callTask, State.setTasks] using hf
      exact hl.symm.subset (List.mem_cons_of_mem _ hmem)
    | some w => simpa [callTask, State.setTasks] using hf
  | help asked f' g w k l hpc hl => exact Or.inl (by simpa [callTask, State.setTasks] using hf)
  | submit c task data k hpc hinstr =>
    cases hworker : currWorker n t with
    | none =>
      have hmem : f = s.submitted ∨ f ∈ s.tasks none := by
        simpa [threadPoolSubmit, State.setControl, State.setTasks, hworker] using hf
      rcases hmem with rfl | hmem
      · exact Or.inr (by simp [signalsDue, hpc, hinstr])
      · exact Or.inl hmem
    | some w =>
      exact Or.inl (by
        simpa [threadPoolSubmit, State.setControl, State.setTasks, hworker] using hf)
  | ret c value hpc hinstr =>
    unfold returnTask at hf
    split at hf <;> exact Or.inl hf
  | _ => exact Or.inl (by simpa [State.setControl] using hf)

theorem signalsDue_submitted (hmem : (u, f) ∈ signalsDue P s t) : u = t ∧ f = s.submitted := by
  unfold signalsDue at hmem
  split at hmem
  · split at hmem
    · simpa using hmem
    · cases hmem
  · cases hmem

theorem section_due (h : Section P n s t s') (hmem : (u, f) ∈ signalsDue P s t) :
    f < s'.submitted := by
  obtain ⟨-, rfl⟩ := signalsDue_submitted hmem
  cases h with
  | submit c task data k hpc hinstr => exact Nat.lt_succ_self _
  | read c k value hpc hinstr | ret c value hpc hinstr | ask c f k hpc hinstr =>
    simp [signalsDue, hpc, hinstr] at hmem
  | register hpc | arrive hpc | exit pc hpc | wait pc hpc | walk pc pc' hpc | take pc f q l hpc
  | again asked f k hpc | help asked f g w k l hpc | result asked f k pc hpc
  | got asked f k c hpc => simp [signalsDue, hpc] at hmem

theorem section_waits (h : Section P n s t s') (hwaits : waits s s' t = true) :
    ((s'.thread t).control = .loop .wait ∧ s'.tasks none = []) ∨
      ∃ asked f k, (s.thread t).control = .get asked f k .enter ∧
        s' = s.setControl t (.get asked f k .enter) ∧ (s.future f).worker = none ∧
        (s.future f).state ≠ .FINISHED := by
  cases h with
  | wait pc hpc hearly hempty =>
    exact Or.inl ⟨by simp [State.setControl], by simpa [State.setControl] using hempty⟩
  | again asked f k hpc hworker hstate => exact Or.inr ⟨asked, f, k, hpc, rfl, hworker, hstate⟩
  | register hpc | arrive hpc | exit pc hpc | read c k value hpc | ask c f k hpc
  | result asked f k pc hpc | got asked f k c hpc =>
    simp [waits, State.setControl, hpc] at hwaits
  | walk pc pc' hpc hearly hnext =>
    rcases hnext with rfl | ⟨e, rfl⟩ <;> simp [waits, State.setControl, hpc] at hwaits
  | take pc f q l hpc | help asked f g w k l hpc =>
    simp [waits, callTask, State.setTasks, hpc] at hwaits
  | submit c task data k hpc =>
    simp [waits, threadPoolSubmit, State.setControl, hpc] at hwaits
  | ret c value hpc =>
    unfold returnTask at hwaits
    split at hwaits
    · simp [waits, State.setControl, hpc] at hwaits
    · rename_i caller callers hcallers
      cases caller <;> simp [waits, Caller.resume, hpc] at hwaits

theorem placed_section (h : Section P n s t s') (hplaced : Placed n t (s.thread t)) :
    Placed n t (s'.thread t) := by
  unfold Placed at hplaced
  cases h with
  | register hpc | arrive hpc | exit pc hpc | wait pc hpc | walk pc pc' hpc =>
    simp only [hpc] at hplaced
    simpa [Placed, State.setControl] using hplaced
  | take pc f q l hpc =>
    simp only [hpc] at hplaced
    simpa [Placed, callTask, State.setTasks, Above] using hplaced
  | help asked f g w k l hpc =>
    simp only [hpc] at hplaced
    simpa [Placed, callTask, State.setTasks, Above] using hplaced
  | submit c task data k hpc =>
    simp only [hpc] at hplaced
    simpa [Placed, threadPoolSubmit, State.setControl, State.setTasks] using hplaced
  | read c k value hpc | ask c f k hpc | again asked f k hpc | result asked f k pc hpc
  | got asked f k c hpc =>
    simp only [hpc] at hplaced
    simpa [Placed, State.setControl] using hplaced
  | ret c value hpc =>
    simp only [hpc] at hplaced
    unfold returnTask
    split
    · rename_i hcallers
      rw [hcallers] at hplaced
      simpa [Placed, State.setControl, Above, hcallers] using hplaced
    · rename_i caller callers hcallers
      rw [hcallers] at hplaced
      cases caller with
      | loop f q => simpa [Placed, Caller.resume, Above] using hplaced
      | get asked f k => simpa [Placed, Caller.resume, Above] using hplaced

theorem Owned.mono {th : Thread Val Code} (h : Owned s th) (hsec : Section P n s t s') :
    Owned s' th := by
  have hkept : ∀ g, g < s.submitted ∧ (s.future g).worker ≠ none →
      g < s'.submitted ∧ (s'.future g).worker ≠ none := by
    intro g hg
    rw [section_worker hsec hg.1]
    exact ⟨Nat.lt_of_lt_of_le hg.1 (section_submitted hsec), hg.2⟩
  exact ⟨fun asked g k hmem => hkept g (h.callers asked g k hmem),
    fun asked g k hpc => hkept g (h.finish asked g k hpc)⟩

theorem owned_section (hs : Sound s) (hsec : Section P n s t s') (h : Owned s (s.thread t)) :
    Owned s' (s'.thread t) := by
  have hkept := h.mono hsec
  obtain ⟨hcallers, -⟩ := hkept
  cases hsec with
  | take pc f q l hpc =>
    refine ⟨fun asked g k hmem => hcallers asked g k ?_, fun asked g k hcontrol => ?_⟩
    · simpa [callTask, State.setTasks] using hmem
    · simp [callTask] at hcontrol
  | help asked f g w k l hpc hl =>
    have hqueued := hs.inv.of_queued (f := g) (q := some w) (hl.symm.subset List.mem_cons_self)
    refine ⟨fun asked' g' k' hmem => ?_, fun asked' g' k' hcontrol => ?_⟩
    · simp only [callTask, State.setTasks, Function.update_self, List.mem_cons] at hmem
      rcases hmem with heq | hmem
      · cases heq
        refine ⟨hqueued.1, ?_⟩
        simp [callTask, State.setTasks, Caller.future, hqueued.2.2.1]
      · exact hcallers asked' g' k' hmem
    · simp [callTask] at hcontrol
  | ret c value hpc hinstr =>
    unfold returnTask at hcallers ⊢
    split at hcallers
    · refine ⟨fun asked g k hmem => hcallers asked g k ?_, fun asked g k hcontrol => ?_⟩
      · simpa [State.setControl] using hmem
      · simp [State.setControl] at hcontrol
    · rename_i caller callers hstack
      rw [hstack] at hcallers
      refine ⟨fun asked g k hmem => hcallers asked g k ?_, fun asked g k hcontrol => ?_⟩
      · exact List.mem_cons_of_mem _ (by simpa using hmem)
      · refine hcallers asked g k ?_
        cases caller with
        | loop f q => simp [Caller.resume] at hcontrol
        | get asked' f k' =>
          simp only [Caller.resume, Function.update_self, Control.get.injEq] at hcontrol
          obtain ⟨rfl, rfl, rfl, -⟩ := hcontrol
          exact List.mem_cons_self
  | register | arrive | exit | wait | walk | read | submit | ask | again | result | got =>
    refine ⟨fun asked g k hmem => hcallers asked g k ?_, fun asked g k hcontrol => ?_⟩
    · simpa [State.setControl, threadPoolSubmit, State.setTasks] using hmem
    · simp [State.setControl, threadPoolSubmit] at hcontrol

theorem exits_section (h : Section P n s t s')
    (hexits : ∀ u, (s.thread u).control = .loop .exit → s.isShutdown = true)
    (hexit : (s'.thread u).control = .loop .exit) : s'.isShutdown = true := by
  rw [section_shutdown h]
  by_cases heq : u = t
  · subst heq
    cases h with
    | exit pc hpc hearly hshutdown => exact hshutdown
    | walk pc pc' hpc hearly hnext =>
      rcases hnext with rfl | ⟨e, rfl⟩ <;> simp [State.setControl] at hexit
    | ret c value hpc hinstr =>
      unfold returnTask at hexit
      split at hexit
      · simp [State.setControl] at hexit
      · rename_i caller callers hcallers
        cases caller <;> simp [Caller.resume] at hexit
    | take | help => simp [callTask] at hexit
    | submit => simp [threadPoolSubmit, State.setControl] at hexit
    | register | arrive | wait | read | ask | again | result | got =>
      simp [State.setControl] at hexit
  · rw [section_thread h heq] at hexit
    exact hexits u hexit

theorem isEarly_loop {pc : LoopPc} (hpc : (s.thread t).control = .loop pc) :
    isEarly s t = LoopPc.early pc := by
  rw [isEarly, hpc]

theorem early_section (h : Section P n s t s') :
    (isEarly s' t = isEarly s t ∧ s'.arrived = s.arrived) ∨
      (isEarly s t = true ∧ isEarly s' t = false ∧ s'.arrived = s.arrived + 1) := by
  cases h with
  | arrive hpc =>
    refine Or.inr ⟨by simp [isEarly, hpc, LoopPc.early], ?_, rfl⟩
    simp [isEarly, State.setControl, LoopPc.early]
  | register hpc => exact Or.inl ⟨by simp [isEarly, State.setControl, hpc, LoopPc.early], rfl⟩
  | exit pc hpc hearly | wait pc hpc hearly =>
    refine Or.inl ⟨?_, settled_arrived⟩
    rw [isEarly_loop hpc, hearly]
    simp [isEarly, State.setControl, LoopPc.early]
  | walk pc pc' hpc hearly hnext =>
    refine Or.inl ⟨?_, settled_arrived⟩
    rw [isEarly_loop hpc, hearly]
    rcases hnext with rfl | ⟨e, rfl⟩ <;> simp [isEarly, State.setControl, LoopPc.early]
  | take pc f q l hpc hearly =>
    exact Or.inl ⟨by simp [isEarly, callTask, hpc, hearly], settled_arrived⟩
  | help asked f g w k l hpc => exact Or.inl ⟨by simp [isEarly, callTask, hpc], rfl⟩
  | submit c task data k hpc =>
    exact Or.inl ⟨by simp [isEarly, threadPoolSubmit, State.setControl, hpc], rfl⟩
  | result asked f k pc hpc =>
    exact Or.inl ⟨by simp [isEarly, State.setControl, hpc], settled_arrived⟩
  | read c k value hpc | ask c f k hpc | again asked f k hpc | got asked f k c hpc =>
    exact Or.inl ⟨by simp [isEarly, State.setControl, hpc], rfl⟩
  | ret c value hpc hinstr =>
    refine Or.inl ?_
    unfold returnTask
    split
    · exact ⟨by simp [isEarly, State.setControl, hpc], rfl⟩
    · rename_i caller callers hcallers
      refine ⟨?_, rfl⟩
      cases caller <;> simp [isEarly, Caller.resume, hpc, LoopPc.early]

theorem arrived_section (h : Section P n s t s') (hplaced : Placed n t (s.thread t))
    (harrived : s.arrived + (early n s).card = n) : s'.arrived + (early n s').card = n := by
  have hother : ∀ v, v ≠ t → isEarly s' v = isEarly s v := fun v hne => by
    rw [isEarly, isEarly, section_thread h hne]
  rcases early_section h with ⟨hsame, hcount⟩ | ⟨hbefore, hafter, hcount⟩
  · have hearly : early n s' = early n s := by
      apply Finset.filter_congr
      intro v _
      by_cases heq : v = t
      · rw [heq, hsame]
      · rw [hother v heq]
    rw [hcount, hearly, harrived]
  · have hmem : t ∈ early n s := by
      refine Finset.mem_filter.mpr ⟨Finset.mem_range.mpr ?_, hbefore⟩
      unfold isEarly at hbefore
      unfold Placed at hplaced
      split at hbefore
      · rename_i pc hpc
        simp only [hpc] at hplaced
        exact hplaced.1
      · cases hbefore
    have hearly : early n s' = (early n s).erase t := by
      ext v
      by_cases heq : v = t
      · simp [early, heq, hafter]
      · simp [early, heq, hother v heq]
    have hcard := Finset.card_erase_add_one hmem
    rw [hcount, hearly]
    omega

theorem Roles.of_section (h : Roles n s) (hsec : Section P n s t s') (hs' : Sound s') :
    Roles n s' := by
  refine ⟨hs', fun u => ?_, fun u => ?_, fun u => exits_section hsec h.exits,
    arrived_section hsec (h.placed t) h.arrived⟩
  · by_cases heq : u = t
    · subst heq
      exact placed_section hsec (h.placed u)
    · rw [section_thread hsec heq]
      exact h.placed u
  · by_cases heq : u = t
    · subst heq
      exact owned_section h.sound hsec (h.owned u)
    · rw [section_thread hsec heq]
      exact (h.owned u).mono hsec

theorem Roles.next {i : Label Val} (h : Roles n s) (hnext : Pool.next P n s i = some s') :
    Roles n s' := by
  have hs' := h.sound.next hnext
  cases hi : i.thread with
  | some t => exact h.of_section (section_of_next h.sound hi hnext) hs'
  | none =>
    cases i with
    | run | read => cases hi
    | shutdown =>
      cases hnext
      exact ⟨hs', h.placed, fun u => ⟨(h.owned u).callers, (h.owned u).finish⟩,
        fun _ _ => rfl, h.arrived⟩

theorem roles_of_init (h : (Pool.system P n).init s) : Roles n s := by
  have hs := sound_of_init h
  obtain ⟨-, -, -, harrived, -, hthread, -⟩ := h
  refine ⟨hs, fun t => ?_, fun t => ⟨fun asked g k hmem => ?_, fun asked g k hpc => ?_⟩,
    fun t hexit => ?_, ?_⟩
  · rw [hthread]
    by_cases hlt : t < n
    · rw [if_pos hlt]
      exact ⟨hlt, rfl⟩
    · rw [if_neg hlt]
      exact Nat.not_lt.mp hlt
  · simp [hthread] at hmem
  · rw [hthread] at hpc
    split at hpc <;> cases hpc
  · rw [hthread] at hexit
    split at hexit <;> cases hexit
  · have hall : early n s = Finset.range n := by
      apply Finset.filter_true_of_mem
      intro t ht
      simp [isEarly, hthread, Finset.mem_range.mp ht, LoopPc.early]
    rw [harrived, hall, Finset.card_range, Nat.zero_add]

/-- `future_get` has not called the task of a future of the global list, so a worker's loop has. -/
theorem worker_of_called {callers : List (Caller Val Code)} (habove : Above n t callers)
    (howned : ∀ asked g k, Caller.get asked g k ∈ callers → (s.future g).worker ≠ none)
    (hf : f ∈ callers.map Caller.future) (hworker : (s.future f).worker = none) : t < n := by
  induction callers with
  | nil => cases hf
  | cons caller rest ih =>
    cases caller with
    | loop g q => exact habove.1
    | get asked g k =>
      rcases List.mem_cons.mp hf with heq | hf
      · have hlocal := howned asked g k List.mem_cons_self
        rw [← show f = g from heq] at hlocal
        exact absurd hworker hlocal
      · exact ih habove (fun asked g k hg => howned asked g k (List.mem_cons_of_mem _ hg)) hf

theorem Roles.running (h : Roles n s) (hmem : f ∈ holds s (.thread t))
    (hworker : (s.future f).worker = none) :
    t < n ∧ (s.thread t).control ≠ .loop .wait := by
  have hplaced := h.placed t
  unfold Placed at hplaced
  have howned : ∀ asked g k, Caller.get asked g k ∈ (s.thread t).callers →
      (s.future g).worker ≠ none :=
    fun asked g k hg => ((h.owned t).callers asked g k hg).2
  simp only [holds, executing, List.mem_append, Option.mem_toList] at hmem
  cases hcontrol : (s.thread t).control with
  | loop pc =>
    simp only [hcontrol] at hplaced
    refine ⟨hplaced.1, fun hwait => ?_⟩
    cases hwait
    simp [hcontrol, hplaced.2, finishing] at hmem
  | done =>
    simp only [hcontrol] at hplaced
    simp [hcontrol, hplaced.2, finishing] at hmem
  | code c =>
    simp only [hcontrol] at hplaced
    refine ⟨worker_of_called hplaced howned ?_ hworker, by simp⟩
    simpa [hcontrol, finishing] using hmem
  | get asked g k pc =>
    simp only [hcontrol] at hplaced
    refine ⟨?_, by simp⟩
    rcases hmem with hmem | hmem
    · cases pc with
      | finish =>
        simp only [hcontrol, finishing, Option.some.injEq] at hmem
        exact absurd hworker (by rw [← hmem]; exact ((h.owned t).finish asked g k hcontrol).2)
      | _ => simp [hcontrol, finishing] at hmem
    · exact worker_of_called hplaced howned hmem hworker

end Sections

section Runs

variable {P : Program Task Val Code} {n : Nat} {s s' : Sleepers Task Val Code}

def asksFor (P : Program Task Val Code) (s : State Task Val Code) (t : Nat) : Option Nat :=
  match (s.thread t).control with
  | .code c =>
    match P.instr c with
    | .get f _ => some f
    | _ => none
  | _ => none

/-- No thread asks for a future whose `thread_pool_submit` has not returned, and no worker asks for
a future of the global list. -/
def Proper (P : Program Task Val Code) (n : Nat) (s : Sleepers Task Val Code) :
    Event Val → Prop
  | .act i => ∀ t ∈ i.thread, ∀ f ∈ asksFor P s.pool t,
      f ∉ s.signals.map Prod.snd ∧ (t < n → (s.pool.future f).worker ≠ none)
  | _ => True

instance (s : Sleepers Task Val Code) (e : Event Val) : Decidable (Proper P n s e) :=
  match e with
  | .act i => inferInstanceAs (Decidable (∀ t ∈ i.thread, ∀ f ∈ asksFor P s.pool t,
      f ∉ s.signals.map Prod.snd ∧ (t < n → (s.pool.future f).worker ≠ none)))
  | .signal _ _ _ => .isTrue trivial
  | .wakeup _ => .isTrue trivial

/-- The future that a thread in `future_get` is about to look at. -/
def waitsFor (s : State Task Val Code) (t : Nat) : Option Nat :=
  match (s.thread t).control with
  | .get _ f _ .enter => some f
  | _ => none

/-- A thread sleeps at the head of its loop, or until a future of the global list is `FINISHED`. -/
def Waiting (s : State Task Val Code) (t : Nat) : Prop :=
  (s.thread t).control = .loop .wait ∨
    ∃ f, waitsFor s t = some f ∧ (s.future f).worker = none ∧ (s.future f).state ≠ .FINISHED

/-- What is known of a future that a thread looks at in `future_get`. -/
def Published (n : Nat) (s : Sleepers Task Val Code) (t : Nat) : Prop :=
  ∀ f, waitsFor s.pool t = some f →
    f ∉ s.signals.map Prod.snd ∧ (t < n → (s.pool.future f).worker ≠ none)

structure Inv (n : Nat) (s : Sleepers Task Val Code) : Prop where
  roles : Roles n s.pool
  due : ∀ t f, (t, f) ∈ s.signals → f < s.pool.submitted
  published : ∀ t, Published n s t
  sleeps : ∀ t ∈ s.asleep, Waiting s.pool t
  pending : s.pool.isShutdown = false → ∀ f ∈ s.pool.tasks none, f ∉ s.signals.map Prod.snd →
    ∃ u < n, u ∉ s.asleep

theorem waitsFor_known {t f : Nat} (hs : Sound s.pool) (h : waitsFor s.pool t = some f) :
    f < s.pool.submitted := by
  unfold waitsFor at h
  split at h
  · rename_i asked g k hcontrol
    cases h
    exact (hs.known t asked _ k hcontrol).2
  · cases h

theorem Inv.worker_awake {t : Nat} (h : Inv n s) (hrunning : s.pool.isShutdown = false)
    (ht : t ∈ s.asleep) (hout : n ≤ t) : ∃ u < n, u ∉ s.asleep := by
  rcases h.sleeps t ht with hwait | ⟨f, hf, hworker, hstate⟩
  · have hplaced := h.roles.placed t
    simp only [Placed, hwait] at hplaced
    exact absurd hplaced.1 (Nat.not_lt.mpr hout)
  · have hsituation := h.roles.sound.inv.situation f (waitsFor_known h.roles.sound hf)
    unfold Situation at hsituation
    cases hfuture : (s.pool.future f).state with
    | WAITING =>
      rw [hfuture, hworker] at hsituation
      exact h.pending hrunning f hsituation.1.mem (h.published t f hf).1
    | RUNNING =>
      -- The worker that runs the task is in no wait of its own.
      rw [hfuture] at hsituation
      obtain ⟨⟨u, hu⟩, -⟩ := hsituation
      obtain ⟨hlt, hnot⟩ := h.roles.running hu.mem hworker
      refine ⟨u, hlt, fun hasleep => ?_⟩
      rcases h.sleeps u hasleep with hwait | ⟨g, hg, hglobal, -⟩
      · exact hnot hwait
      · exact (h.published u g hg).2 hlt hglobal
    | FINISHED => exact absurd hfuture hstate

theorem section_waitsFor {t f : Nat} {p p' : State Task Val Code} (h : Section P n p t p')
    (hwaits : waitsFor p' t = some f) :
    (asksFor P p t = some f ∧ f < p.submitted) ∨ waitsFor p t = some f := by
  cases h with
  | ask c g k hpc hinstr hlt =>
    simp only [waitsFor, State.setControl, Function.update_self, Option.some.injEq] at hwaits
    subst hwaits
    exact Or.inl ⟨by simp [asksFor, hpc, hinstr], hlt⟩
  | again asked g k hpc =>
    simp only [waitsFor, State.setControl, Function.update_self, Option.some.injEq] at hwaits
    subst hwaits
    exact Or.inr (by simp [waitsFor, hpc])
  | ret c value hpc hinstr =>
    unfold returnTask at hwaits
    split at hwaits
    · simp [waitsFor, State.setControl] at hwaits
    · rename_i caller callers hcallers
      cases caller <;> simp [waitsFor, Caller.resume] at hwaits
  | take | help => simp [waitsFor, callTask] at hwaits
  | submit => simp [waitsFor, threadPoolSubmit, State.setControl] at hwaits
  | register | arrive | exit | wait | walk | read | result | got =>
    simp [waitsFor, State.setControl] at hwaits

theorem waitsFor_congr {t : Nat} {p p' : State Task Val Code} (h : p'.thread t = p.thread t) :
    waitsFor p' t = waitsFor p t := by
  rw [waitsFor, waitsFor, h]

/-- A thread comes to a future of `future_get` by asking for it. -/
theorem Inv.act_published {t u : Nat} {pool : State Task Val Code} (h : Inv n s)
    (hsec : Section P n s.pool t pool)
    (hproper : ∀ f ∈ asksFor P s.pool t,
      f ∉ s.signals.map Prod.snd ∧ (t < n → (s.pool.future f).worker ≠ none)) :
    Published n (act P s t pool) u := by
  intro f hf
  have hold : f < s.pool.submitted ∧
      f ∉ s.signals.map Prod.snd ∧ (u < n → (s.pool.future f).worker ≠ none) := by
    by_cases heq : u = t
    · subst heq
      rcases section_waitsFor hsec hf with ⟨hasks, hlt⟩ | hwaits
      · exact ⟨hlt, hproper f hasks⟩
      · exact ⟨waitsFor_known h.roles.sound hwaits, h.published u f hwaits⟩
    · have hwaits : waitsFor s.pool u = some f :=
        (waitsFor_congr (section_thread hsec heq)).symm.trans hf
      exact ⟨waitsFor_known h.roles.sound hwaits, h.published u f hwaits⟩
  obtain ⟨hlt, hsent, hlocal⟩ := hold
  refine ⟨fun hmem => ?_, ?_⟩
  · obtain ⟨⟨v, g⟩, hpair, rfl⟩ := List.mem_map.mp hmem
    rcases List.mem_append.mp hpair with hpair | hpair
    · exact Nat.ne_of_lt hlt (signalsDue_submitted hpair).2
    · exact hsent (List.mem_map.mpr ⟨_, hpair, rfl⟩)
  · show u < n → (pool.future f).worker ≠ none
    rw [section_worker hsec hlt]
    exact hlocal

theorem mem_sleeping {t u : Nat} {pool : State Task Val Code} (hu : u ∈ sleeping s t pool) :
    (u = t ∧ waits s.pool pool t = true) ∨ (broadcasts s.pool t = false ∧ u ∈ s.asleep) := by
  rcases List.mem_append.mp hu with hu | hu
  · split at hu
    · rename_i hwaits
      exact Or.inl ⟨List.mem_singleton.mp hu, hwaits⟩
    · cases hu
  · split at hu
    · cases hu
    · rename_i hquiet
      exact Or.inr ⟨Bool.eq_false_iff.mpr hquiet, hu⟩

theorem Inv.act_sleeps {t u : Nat} {pool : State Task Val Code} (h : Inv n s) (hbusy : ¬ Busy s t)
    (hsec : Section P n s.pool t pool) (hu : u ∈ sleeping s t pool) : Waiting pool u := by
  rcases mem_sleeping hu with ⟨rfl, hwaits⟩ | ⟨hquiet, hasleep⟩
  · rcases section_waits hsec hwaits with ⟨hwait, -⟩ | ⟨asked, f, k, -, rfl, hworker, hstate⟩
    · exact Or.inl hwait
    · exact Or.inr ⟨f, by simp [waitsFor, State.setControl], hworker, hstate⟩
  · have hne : u ≠ t := by
      rintro rfl
      exact hbusy (Or.inl hasleep)
    have hthread := section_thread hsec hne
    rcases h.sleeps u hasleep with hwait | ⟨f, hf, hworker, hstate⟩
    · exact Or.inl ((congrArg Thread.control hthread).trans hwait)
    · have hlt := waitsFor_known h.roles.sound hf
      exact Or.inr ⟨f, (waitsFor_congr hthread).trans hf, (section_worker hsec hlt).trans hworker,
        fun hfinished => hstate (section_finished hsec hquiet hfinished)⟩

theorem Inv.act_pending {t f : Nat} {pool : State Task Val Code} (h : Inv n s)
    (hsec : Section P n s.pool t pool) (hrunning : pool.isShutdown = false)
    (hf : f ∈ pool.tasks none) (hquiet : f ∉ (act P s t pool).signals.map Prod.snd) :
    ∃ u < n, u ∉ sleeping s t pool := by
  have hbefore : s.pool.isShutdown = false := (section_shutdown hsec).symm.trans hrunning
  have hsent : f ∉ s.signals.map Prod.snd := fun hmem => hquiet (by
    obtain ⟨pair, hpair, rfl⟩ := List.mem_map.mp hmem
    exact List.mem_map.mpr ⟨pair, List.mem_append_right _ hpair, rfl⟩)
  have hglobal : f ∈ s.pool.tasks none := by
    rcases section_global hsec hf with hmem | hdue
    · exact hmem
    · exact absurd (List.mem_map.mpr ⟨_, List.mem_append_left _ hdue, rfl⟩) hquiet
  obtain ⟨u, hlt, hawake⟩ := h.pending hbefore f hglobal hsent
  refine ⟨u, hlt, fun hu => ?_⟩
  rcases mem_sleeping hu with ⟨rfl, hwaits⟩ | ⟨-, hasleep⟩
  · -- The worker has found the list empty, or it waits for a future of its own.
    rcases section_waits hsec hwaits with ⟨-, hempty⟩ | ⟨asked, g, k, hpc, -, hworker, -⟩
    · have hnil : f ∈ ([] : List Nat) := hempty ▸ hf
      cases hnil
    · exact (h.published u g (by simp [waitsFor, hpc])).2 hlt hworker
  · exact hawake hasleep

theorem Inv.act {t : Nat} {pool : State Task Val Code} (h : Inv n s) (hbusy : ¬ Busy s t)
    (hsec : Section P n s.pool t pool) (hroles : Roles n pool)
    (hproper : ∀ f ∈ asksFor P s.pool t,
      f ∉ s.signals.map Prod.snd ∧ (t < n → (s.pool.future f).worker ≠ none)) :
    Inv n (act P s t pool) := by
  refine ⟨hroles, fun u f hmem => ?_, fun u => h.act_published hsec hproper,
    fun u => h.act_sleeps hbusy hsec, fun hrunning f => h.act_pending hsec hrunning⟩
  rcases List.mem_append.mp hmem with hmem | hmem
  · exact section_due hsec hmem
  · exact Nat.lt_of_lt_of_le (h.due u f hmem) (section_submitted hsec)

theorem Inv.next {e : Event Val} (hn : 0 < n) (h : Inv n s) (hproper : Proper P n s e)
    (hnext : next P n s e = some s') : Inv n s' := by
  cases e with
  | act i =>
    rw [Wakeups.next] at hnext
    split at hnext
    · rename_i hi
      obtain ⟨pool, hpool, rfl⟩ := Option.map_eq_some_iff.mp hnext
      have hroles := h.roles.next hpool
      cases i with
      | run | read => cases hi
      | shutdown =>
        cases hpool
        refine ⟨hroles, h.due, h.published, fun u hu => ?_, fun hrunning => ?_⟩
        · cases hu
        · cases hrunning
    · rename_i t hi
      split at hnext
      · cases hnext
      · rename_i hbusy
        obtain ⟨pool, hpool, rfl⟩ := Option.map_eq_some_iff.mp hnext
        exact h.act hbusy (section_of_next h.roles.sound hi hpool) (h.roles.next hpool)
          (hproper t hi)
  | signal t f woken =>
    rw [Wakeups.next] at hnext
    split at hnext
    · rename_i hguard
      cases hnext
      have hsub : ∀ pair, pair ∈ s.signals.erase (t, f) → pair ∈ s.signals :=
        fun pair => List.mem_of_mem_erase
      refine ⟨h.roles, fun u g hmem => h.due u g (hsub _ hmem), fun u g hg => ?_,
        fun u hu => h.sleeps u (List.mem_filter.mp hu).1, fun hrunning g hg hquiet => ?_⟩
      · obtain ⟨hsent, hlocal⟩ := h.published u g hg
        refine ⟨fun hmem => hsent ?_, hlocal⟩
        obtain ⟨pair, hpair, rfl⟩ := List.mem_map.mp hmem
        exact List.mem_map.mpr ⟨pair, hsub _ hpair, rfl⟩
      · -- Whoever is woken, a worker is awake: the one woken, or the one a waiting thread relies on.
        cases woken with
        | none =>
          refine ⟨0, hn, fun hmem => ?_⟩
          have hempty : s.asleep = [] := hguard.2
          simp [hempty] at hmem
        | some u =>
          by_cases hlt : u < n
          · exact ⟨u, hlt, fun hmem => by simp at hmem⟩
          · obtain ⟨v, hv, hawake⟩ := h.worker_awake hrunning hguard.2 (Nat.not_lt.mp hlt)
            exact ⟨v, hv, fun hmem => hawake (List.mem_filter.mp hmem).1⟩
    · cases hnext
  | wakeup t =>
    rw [Wakeups.next] at hnext
    split at hnext
    · cases hnext
      refine ⟨h.roles, h.due, h.published, fun u hu => h.sleeps u (List.mem_filter.mp hu).1,
        fun hrunning g hg hquiet => ?_⟩
      obtain ⟨u, hlt, hawake⟩ := h.pending hrunning g hg hquiet
      exact ⟨u, hlt, fun hmem => hawake (List.mem_filter.mp hmem).1⟩
    · cases hnext

theorem inv_of_init (h : (system P n).init s) : Inv n s := by
  obtain ⟨hpool, hasleep, hsignals⟩ := h
  obtain ⟨-, htasks, -, -, -, hthread, -⟩ := id hpool
  refine ⟨roles_of_init hpool, fun t f hmem => ?_, fun t f hf => ?_, fun t ht => ?_,
    fun _ f hf => ?_⟩
  · rw [hsignals] at hmem
    cases hmem
  · rw [waitsFor, hthread] at hf
    split at hf
    · rename_i hcontrol
      split at hcontrol <;> cases hcontrol
    · cases hf
  · rw [hasleep] at ht
    cases ht
  · rw [htasks] at hf
    cases hf

theorem inv_of_reachable (hn : 0 < n) (h : ReachableBy (system P n) (Proper P n) s) : Inv n s :=
  h.invariant (fun _ => inv_of_init) fun _ _ _ hs hproper hnext => hs.next hn hproper hnext

/-- A thread can take its next step, without a wakeup that nobody has asked for. -/
def CanStep (P : Program Task Val Code) (n : Nat) (s : Sleepers Task Val Code) (t : Nat) : Prop :=
  ∃ e s', e.thread = some t ∧ next P n s e = some s'

theorem signal_canStep {t : Nat} (h : t ∈ s.signals.map Prod.fst) : CanStep P n s t := by
  obtain ⟨⟨v, f⟩, hmem, rfl⟩ := List.mem_map.mp h
  have hwakes : Wakes s.asleep s.asleep.head? := by
    cases hasleep : s.asleep with
    | nil => rfl
    | cons u rest => exact List.mem_cons_self
  exact ⟨.signal v f s.asleep.head?, _, rfl, by rw [next, if_pos ⟨hmem, hwakes⟩]⟩

theorem section_canStep {t : Nat} {i : Label Val} {pool : State Task Val Code}
    (hbusy : ¬ Busy s t) (hi : i.thread = some t) (hpool : Pool.next P n s.pool i = some pool) :
    CanStep P n s t := by
  refine ⟨.act i, Wakeups.act P s t pool, hi, ?_⟩
  simp [next, hi, hbusy, hpool]

theorem awake_canStep {t : Nat} (h : Inv n s) (hrunning : s.pool.isShutdown = false)
    (hknown : ∀ f, asksFor P s.pool t = some f → f < s.pool.submitted) (hlt : t < n)
    (hawake : t ∉ s.asleep) :
    CanStep P n s t ∨ ((s.pool.thread t).control = .loop .barrier ∧ s.pool.arrived ≠ n) := by
  by_cases hsignal : t ∈ s.signals.map Prod.fst
  · exact Or.inl (signal_canStep hsignal)
  · have hbusy : ¬ Busy s t := fun hbusy => hbusy.elim hawake hsignal
    have hrun : ∀ pool, Pool.next P n s.pool (.run t false) = some pool → CanStep P n s t :=
      fun pool => section_canStep hbusy rfl
    cases hcontrol : (s.pool.thread t).control with
    | loop pc =>
      cases pc with
      | barrier =>
        by_cases harrived : s.pool.arrived = n
        · exact Or.inl (hrun _ (by simp [Pool.next, hcontrol, threadFunction, harrived]; rfl))
        · exact Or.inr ⟨rfl, harrived⟩
      | exit =>
        have hshutdown := h.roles.exits t hcontrol
        rw [hrunning] at hshutdown
        cases hshutdown
      | start | arrive | head | wait =>
        exact Or.inl (hrun _ (by simp only [Pool.next, hcontrol, threadFunction]; rfl))
      | scan e =>
        cases e <;>
          exact Or.inl (hrun _ (by simp only [Pool.next, hcontrol, threadFunction]; rfl))
      | finish f q =>
        cases q <;>
          exact Or.inl (hrun _ (by simp only [Pool.next, hcontrol, threadFunction]; rfl))
    | code c =>
      refine Or.inl ?_
      cases hinstr : P.instr c with
      | ret value => exact hrun _ (by simp only [Pool.next, hcontrol, hinstr, execInstr]; rfl)
      | read k =>
        have hread : Pool.next P n s.pool (.read t (s.pool.future 0).result) =
            some (s.pool.setControl t (.code (k (s.pool.future 0).result))) := by
          simp only [Pool.next, hcontrol, hinstr]
        exact section_canStep hbusy rfl hread
      | submit task data k =>
        exact hrun _ (by simp only [Pool.next, hcontrol, hinstr, execInstr]; rfl)
      | get f k =>
        have hf := hknown f (by simp [asksFor, hcontrol, hinstr])
        exact hrun _ (by simp only [Pool.next, hcontrol, hinstr, execInstr, if_pos hf]; rfl)
    | get asked f k pc => exact Or.inl (hrun _ (by simp only [Pool.next, hcontrol]; rfl))
    | done =>
      have hplaced := h.roles.placed t
      simp only [Placed, hcontrol] at hplaced
      exact absurd hlt (Nat.not_lt.mpr hplaced.1)

theorem worker_canStep (h : Inv n s) (hrunning : s.pool.isShutdown = false)
    (hknown : ∀ t < n, ∀ f, asksFor P s.pool t = some f → f < s.pool.submitted)
    (hawake : ∃ u < n, u ∉ s.asleep) : ∃ u < n, CanStep P n s u := by
  obtain ⟨u, hlt, hu⟩ := hawake
  rcases awake_canStep h hrunning (hknown u hlt) hlt hu with hstep | ⟨-, harrived⟩
  · exact ⟨u, hlt, hstep⟩
  · -- Not all workers have arrived, and one that has not does not sleep.
    have hcount := h.roles.arrived
    obtain ⟨v, hv⟩ := Finset.card_pos.mp (show 0 < (early n s.pool).card by omega)
    obtain ⟨hrange, hearly⟩ := Finset.mem_filter.mp hv
    have hvlt := Finset.mem_range.mp hrange
    have hnot : (s.pool.thread v).control ≠ .loop .barrier := fun hbarrier => by
      simp [isEarly, hbarrier, LoopPc.early] at hearly
    have hvawake : v ∉ s.asleep := fun hasleep => by
      rcases h.sleeps v hasleep with hwait | ⟨f, hf, -⟩
      · simp [isEarly, hwait, LoopPc.early] at hearly
      · unfold waitsFor at hf
        split at hf
        · rename_i hcontrol
          simp [isEarly, hcontrol] at hearly
        · cases hf
    rcases awake_canStep h hrunning (hknown v hvlt) hvlt hvawake with hstep | ⟨hbarrier, -⟩
    · exact ⟨v, hvlt, hstep⟩
    · exact absurd hbarrier hnot

/-- No broadcast is missed: a thread that sleeps in `future_get` waits for an unfinished future. No
signal is missed: while a thread outside the pool sleeps there, a worker can go on, and while a task
is in the global list, a worker can or the thread that is to signal the task. -/
theorem waits_end (hn : 0 < n) (h : ReachableBy (system P n) (Proper P n) s)
    (hrunning : s.pool.isShutdown = false)
    (hknown : ∀ t < n, ∀ f, asksFor P s.pool t = some f → f < s.pool.submitted) :
    (∀ t ∈ s.asleep, ∀ f, waitsFor s.pool t = some f → (s.pool.future f).state ≠ .FINISHED) ∧
      (∀ t ∈ s.asleep, n ≤ t → ∃ u < n, CanStep P n s u) ∧
      ∀ f ∈ s.pool.tasks none,
        (∃ u < n, CanStep P n s u) ∨ ∃ t, (t, f) ∈ s.signals ∧ CanStep P n s t := by
  have hinv := inv_of_reachable hn h
  refine ⟨fun t ht f hf => ?_, fun t ht hout => ?_, fun f hf => ?_⟩
  · rcases hinv.sleeps t ht with hwait | ⟨g, hg, -, hstate⟩
    · simp [waitsFor, hwait] at hf
    · rw [hf] at hg
      cases hg
      exact hstate
  · exact worker_canStep hinv hrunning hknown (hinv.worker_awake hrunning ht hout)
  · by_cases hdue : f ∈ s.signals.map Prod.snd
    · obtain ⟨⟨t, g⟩, hmem, rfl⟩ := List.mem_map.mp hdue
      exact Or.inr ⟨t, hmem, signal_canStep (List.mem_map.mpr ⟨_, hmem, rfl⟩)⟩
    · exact Or.inl (worker_canStep hinv hrunning hknown (hinv.pending hrunning f hf hdue))

end Runs

section Sample

inductive SampleCode where
  | main
  | second
  | ask (f : Nat)
  | value (v : Nat)

inductive SampleTask where
  | asker
  | adder

/-- A thread outside the pool submits two tasks and waits for the first one, which asks for the
second one. -/
def sampleProgram : Program SampleTask Nat SampleCode where
  instr
    | .main => .submit .asker 0 fun _ => .second
    | .second => .submit .adder 2 fun _ => .ask 0
    | .ask f => .get f .value
    | .value v => .ret v
  body
    | .asker, _ => .ask 1
    | .adder, a => .value (a + 4)
  main _ := .main

def sampleStart : Sleepers SampleTask Nat SampleCode where
  pool :=
    { isShutdown := false
      tasks := fun _ => []
      workers := []
      arrived := 0
      submitted := 0
      future := fun _ => ⟨.asker, 0, none, 0, .WAITING⟩
      thread := fun t => ⟨if t < 1 then .loop .start else .code .main, []⟩
      invoked := fun _ => 0
      returned := fun _ => none }
  asleep := []
  signals := []

theorem sampleStart_init : (system sampleProgram 1).init sampleStart :=
  ⟨⟨rfl, fun _ => rfl, rfl, rfl, rfl, fun _ => rfl, fun _ => rfl, fun _ => rfl⟩, rfl, rfl⟩

def runs (steps : List Nat) : List (Event Nat) :=
  steps.map fun t => .act (.run t true)

/-- The worker falls asleep, and is woken by the signal of the first task; the thread outside the
pool goes on until it sleeps. -/
def waitSteps : List (Event Nat) :=
  runs [0, 0, 0, 0, 1] ++ .signal 1 0 (some 0) :: runs [1] ++ .signal 1 1 none :: runs [1, 1]

theorem waits_end_sample : ∃ s, ReachableBy (system sampleProgram 1) (Proper sampleProgram 1) s ∧
    s.asleep = [1] ∧ ∃ u < 1, CanStep sampleProgram 1 s u := by
  have hrun : (((system sampleProgram 1).restrict (Proper sampleProgram 1)).exec sampleStart
      waitSteps).map (fun s => (s.asleep, s.pool.isShutdown, asksFor sampleProgram s.pool 0)) =
      some ([1], false, none) := by
    rfl
  obtain ⟨s, hs, hobs⟩ := Option.map_eq_some_iff.mp hrun
  simp only [Prod.mk.injEq] at hobs
  obtain ⟨hasleep, hrunning, hasks⟩ := hobs
  have hinit : ((system sampleProgram 1).restrict (Proper sampleProgram 1)).init sampleStart :=
    sampleStart_init
  have hreach := ReachableBy.of_restrict (Reachable.exec (.start hinit) hs)
  have hserved := waits_end Nat.one_pos hreach hrunning fun t ht f hf => by
    obtain rfl : t = 0 := Nat.lt_one_iff.mp ht
    rw [hasks] at hf
    cases hf
  exact ⟨s, hreach, hasleep, hserved.2.1 1 (by rw [hasleep]; exact List.mem_singleton_self 1)
    (Nat.le_refl 1)⟩

end Sample

end ComputerSystems.Threadpool.Progress
