/- Which queue or thread each future is with, and how a step of the pool moves it. -/

import Mathlib.Logic.Relation
import ComputerSystems.Systems.Tokens
import ComputerSystems.Threadpool.Pool

set_option autoImplicit false
set_option relaxedAutoImplicit false

namespace ComputerSystems.Threadpool.Ledger

open ComputerSystems.Systems.Runs
open ComputerSystems.Systems.Tokens
open ComputerSystems.Threadpool.Programs
open ComputerSystems.Threadpool.Pool

variable {Task Val Code : Type}

inductive Place where
  | tasks (q : Option Nat)
  | thread (t : Nat)
  deriving DecidableEq

/-- The future whose task function has returned to the thread, when it is not yet `FINISHED`. -/
def finishing : Control Val Code → Option Nat
  | .loop (.finish f _) => some f
  | .get _ f _ .finish => some f
  | _ => none

/-- The futures a thread has marked `RUNNING` and not yet `FINISHED`. -/
def executing (th : Thread Val Code) : List Nat :=
  (finishing th.control).toList ++ th.callers.map Caller.future

def holds (s : State Task Val Code) : Place → List Nat
  | .tasks q => s.tasks q
  | .thread t => executing (s.thread t)

/-- Where a submitted future is, and how often its task function has been called. -/
def Situation (s : State Task Val Code) (f : Nat) : Prop :=
  match (s.future f).state with
  | .WAITING => At (holds s) f (.tasks (s.future f).worker) ∧ s.invoked f = 0
  | .RUNNING => (∃ t, At (holds s) f (.thread t)) ∧ s.invoked f = 1
  | .FINISHED =>
    Nowhere (holds s) f ∧ s.invoked f = 1 ∧ s.returned f = some (s.future f).result

structure Inv (s : State Task Val Code) : Prop where
  situation : ∀ f, f < s.submitted → Situation s f
  fresh : ∀ f, s.submitted ≤ f → Nowhere (holds s) f ∧ s.invoked f = 0
  returned : ∀ t f, finishing (s.thread t).control = some f →
    s.returned f = some (s.future f).result

inductive Change (s s' : State Task Val Code) : Prop where
  | idle (submitted : s'.submitted = s.submitted) (future : s'.future = s.future)
      (invoked : s'.invoked = s.invoked) (returned : s'.returned = s.returned)
      (kept : ∀ p, holds s' p = holds s p)
      (same : ∀ t, finishing (s'.thread t).control = finishing (s.thread t).control)
  | submit (x : Future Task Val) (waiting : x.state = .WAITING)
      (submitted : s'.submitted = s.submitted + 1)
      (future : s'.future = Function.update s.future s.submitted x)
      (invoked : s'.invoked = s.invoked) (returned : s'.returned = s.returned)
      (moves : Moves (holds s) (holds s') s.submitted none (some (.tasks x.worker)))
      (same : ∀ t, finishing (s'.thread t).control = finishing (s.thread t).control)
  | call (f t : Nat) (q : Option Nat) (mem : f ∈ holds s (.tasks q))
      (submitted : s'.submitted = s.submitted)
      (future : s'.future = Function.update s.future f { s.future f with state := .RUNNING })
      (invoked : s'.invoked = Function.update s.invoked f (s.invoked f + 1))
      (returned : s'.returned = s.returned)
      (moves : Moves (holds s) (holds s') f (some (.tasks q)) (some (.thread t)))
      (same : ∀ t, finishing (s'.thread t).control = finishing (s.thread t).control)
  | ret (f t : Nat) (value : Val) (mem : f ∈ holds s (.thread t))
      (submitted : s'.submitted = s.submitted)
      (future : s'.future = Function.update s.future f { s.future f with result := value })
      (invoked : s'.invoked = s.invoked)
      (returned : s'.returned = Function.update s.returned f (some value))
      (kept : ∀ p, holds s' p = holds s p)
      (same : ∀ u g, finishing (s'.thread u).control = some g →
        g = f ∨ finishing (s.thread u).control = some g)
  | finish (f t : Nat) (mem : finishing (s.thread t).control = some f)
      (submitted : s'.submitted = s.submitted)
      (future : s'.future = Function.update s.future f { s.future f with state := .FINISHED })
      (invoked : s'.invoked = s.invoked) (returned : s'.returned = s.returned)
      (moves : Moves (holds s) (holds s') f (some (.thread t)) none)
      (same : ∀ u g, finishing (s'.thread u).control = some g →
        finishing (s.thread u).control = some g)

section Changes

variable {s s' : State Task Val Code} {f : Nat}

theorem Situation.transport (h : Situation s f) (hfuture : s'.future f = s.future f)
    (hinvoked : s'.invoked f = s.invoked f) (hreturned : s'.returned f = s.returned f)
    (hcount : ∀ p, (holds s' p).count f = (holds s p).count f) : Situation s' f := by
  simpa only [Situation, At, Nowhere, hfuture, hinvoked, hreturned, hcount] using h

theorem Inv.of_queued (h : Inv s) {q : Option Nat} (hq : f ∈ holds s (.tasks q)) :
    f < s.submitted ∧ (s.future f).state = .WAITING ∧ (s.future f).worker = q ∧
      At (holds s) f (.tasks q) ∧ s.invoked f = 0 := by
  have hlt : f < s.submitted := by
    by_contra hge
    exact (h.fresh f (by omega)).1.notMem hq
  have hsit := h.situation f hlt
  refine ⟨hlt, ?_⟩
  unfold Situation at hsit
  cases hstate : (s.future f).state with
  | WAITING =>
    rw [hstate] at hsit
    cases hsit.1.unique hq
    exact ⟨rfl, rfl, hsit⟩
  | RUNNING =>
    rw [hstate] at hsit
    obtain ⟨⟨t, ht⟩, -⟩ := hsit
    cases ht.unique hq
  | FINISHED =>
    rw [hstate] at hsit
    exact absurd hq hsit.1.notMem

theorem Inv.of_executing (h : Inv s) {t : Nat} (ht : f ∈ holds s (.thread t)) :
    f < s.submitted ∧ (s.future f).state = .RUNNING ∧ At (holds s) f (.thread t) ∧
      s.invoked f = 1 := by
  have hlt : f < s.submitted := by
    by_contra hge
    exact (h.fresh f (by omega)).1.notMem ht
  have hsit := h.situation f hlt
  refine ⟨hlt, ?_⟩
  unfold Situation at hsit
  cases hstate : (s.future f).state with
  | WAITING =>
    rw [hstate] at hsit
    cases hsit.1.unique ht
  | RUNNING =>
    rw [hstate] at hsit
    obtain ⟨⟨u, hu⟩, hinvoked⟩ := hsit
    cases hu.unique ht
    exact ⟨rfl, hu, hinvoked⟩
  | FINISHED =>
    rw [hstate] at hsit
    exact absurd ht hsit.1.notMem

theorem mem_holds_of_finishing {t : Nat} (h : finishing (s.thread t).control = some f) :
    f ∈ holds s (.thread t) := by
  simp [holds, executing, h]

theorem Change.inv (h : Inv s) (c : Change s s') : Inv s' := by
  cases c with
  | idle hsubmitted hfuture hinvoked hreturned hkept hsame =>
    refine ⟨fun f hf => ?_, fun f hf => ?_, fun t f hf => ?_⟩
    · rw [hsubmitted] at hf
      exact (h.situation f hf).transport (by rw [hfuture]) (by rw [hinvoked]) (by rw [hreturned])
        fun p => by rw [hkept]
    · rw [hsubmitted] at hf
      obtain ⟨hnowhere, hzero⟩ := h.fresh f hf
      refine ⟨fun p => ?_, by rw [hinvoked, hzero]⟩
      rw [hkept]
      exact hnowhere p
    · rw [hsame] at hf
      rw [hreturned, hfuture]
      exact h.returned t f hf
  | submit x hwaiting hsubmitted hfuture hinvoked hreturned hmoves hsame =>
    obtain ⟨hnowhere, hzero⟩ := h.fresh s.submitted (Nat.le_refl _)
    refine ⟨fun f hf => ?_, fun f hf => ?_, fun t f hf => ?_⟩
    · by_cases heq : f = s.submitted
      · subst heq
        simp only [Situation, hfuture, Function.update_self, hwaiting]
        exact ⟨hmoves.enter hnowhere, by rw [hinvoked, hzero]⟩
      · have hlt : f < s.submitted := by omega
        exact (h.situation f hlt).transport (by rw [hfuture, Function.update_of_ne heq])
          (by rw [hinvoked]) (by rw [hreturned]) (hmoves.count_of_ne heq)
    · have hne : f ≠ s.submitted := by omega
      obtain ⟨hf, hzero⟩ := h.fresh f (by omega)
      exact ⟨hmoves.nowhere_of_ne hne hf, by rw [hinvoked, hzero]⟩
    · rw [hsame] at hf
      have hlt := (h.of_executing (mem_holds_of_finishing hf)).1
      rw [hreturned, hfuture, Function.update_of_ne (by omega)]
      exact h.returned t f hf
  | call g t q hmem hsubmitted hfuture hinvoked hreturned hmoves hsame =>
    obtain ⟨hlt, hstate, -, hat, hzero⟩ := h.of_queued hmem
    refine ⟨fun f hf => ?_, fun f hf => ?_, fun u f hf => ?_⟩
    · rw [hsubmitted] at hf
      by_cases heq : f = g
      · subst heq
        simp only [Situation, hfuture, hinvoked, Function.update_self, hzero]
        exact ⟨⟨t, hmoves.to hat⟩, trivial⟩
      · exact (h.situation f hf).transport (by rw [hfuture, Function.update_of_ne heq])
          (by rw [hinvoked, Function.update_of_ne heq]) (by rw [hreturned])
          (hmoves.count_of_ne heq)
    · have hne : f ≠ g := by omega
      obtain ⟨hf, hzero⟩ := h.fresh f (by omega)
      exact ⟨hmoves.nowhere_of_ne hne hf, by rw [hinvoked, Function.update_of_ne hne, hzero]⟩
    · rw [hsame] at hf
      have hrunning := (h.of_executing (mem_holds_of_finishing hf)).2.1
      have hne : f ≠ g := by
        rintro rfl
        rw [hstate] at hrunning
        cases hrunning
      rw [hreturned, hfuture, Function.update_of_ne hne]
      exact h.returned u f hf
  | ret g t value hmem hsubmitted hfuture hinvoked hreturned hkept hsame =>
    obtain ⟨hlt, hstate, hat, hone⟩ := h.of_executing hmem
    have hcount : ∀ f p, (holds s' p).count f = (holds s p).count f := fun f p => by rw [hkept]
    refine ⟨fun f hf => ?_, fun f hf => ?_, fun u f hf => ?_⟩
    · rw [hsubmitted] at hf
      by_cases heq : f = g
      · subst heq
        simp only [Situation, hfuture, hinvoked, Function.update_self, hstate]
        exact ⟨⟨t, fun p => (hcount f p).trans (hat p)⟩, hone⟩
      · exact (h.situation f hf).transport (by rw [hfuture, Function.update_of_ne heq])
          (by rw [hinvoked]) (by rw [hreturned, Function.update_of_ne heq]) (hcount f)
    · obtain ⟨hnowhere, hzero⟩ := h.fresh f (by omega)
      exact ⟨fun p => (hcount f p).trans (hnowhere p), by rw [hinvoked, hzero]⟩
    · rcases hsame u f hf with rfl | hf
      · rw [hreturned, hfuture, Function.update_self, Function.update_self]
      · by_cases heq : f = g
        · rw [hreturned, hfuture, heq, Function.update_self, Function.update_self]
        · rw [hreturned, hfuture, Function.update_of_ne heq, Function.update_of_ne heq]
          exact h.returned u f hf
  | finish g t hmem hsubmitted hfuture hinvoked hreturned hmoves hsame =>
    obtain ⟨hlt, -, hat, hone⟩ := h.of_executing (mem_holds_of_finishing hmem)
    refine ⟨fun f hf => ?_, fun f hf => ?_, fun u f hf => ?_⟩
    · rw [hsubmitted] at hf
      by_cases heq : f = g
      · subst heq
        simp only [Situation, hfuture, hinvoked, hreturned, Function.update_self]
        exact ⟨hmoves.leave hat, hone, h.returned t f hmem⟩
      · exact (h.situation f hf).transport (by rw [hfuture, Function.update_of_ne heq])
          (by rw [hinvoked]) (by rw [hreturned]) (hmoves.count_of_ne heq)
    · have hne : f ≠ g := by omega
      obtain ⟨hf, hzero⟩ := h.fresh f (by omega)
      exact ⟨hmoves.nowhere_of_ne hne hf, by rw [hinvoked, hzero]⟩
    · have hf := hsame u f hf
      rw [hreturned, hfuture, h.returned u f hf]
      by_cases heq : f = g
      · rw [heq, Function.update_self]
      · rw [Function.update_of_ne heq]

theorem Change.finished (h : Inv s) (c : Change s s') (hf : (s.future f).state = .FINISHED)
    (hlt : f < s.submitted) : (s'.future f).state = .FINISHED := by
  cases c with
  | idle _ hfuture => rw [hfuture, hf]
  | submit x _ _ hfuture => rw [hfuture, Function.update_of_ne (by omega), hf]
  | call g t q hmem _ hfuture =>
    have hne : f ≠ g := by
      rintro rfl
      rw [(h.of_queued hmem).2.1] at hf
      cases hf
    rw [hfuture, Function.update_of_ne hne, hf]
  | ret g t value hmem _ hfuture =>
    rw [hfuture]
    by_cases heq : f = g
    · rw [heq, Function.update_self, ← heq, hf]
    · rw [Function.update_of_ne heq, hf]
  | finish g t _ _ hfuture =>
    rw [hfuture]
    by_cases heq : f = g
    · rw [heq, Function.update_self]
    · rw [Function.update_of_ne heq, hf]

theorem Change.submitted_le (c : Change s s') : s.submitted ≤ s'.submitted := by
  cases c with
  | idle hsubmitted => exact Nat.le_of_eq hsubmitted.symm
  | submit x _ hsubmitted => omega
  | call f t q _ hsubmitted => exact Nat.le_of_eq hsubmitted.symm
  | ret f t value _ hsubmitted => exact Nat.le_of_eq hsubmitted.symm
  | finish f t _ hsubmitted => exact Nat.le_of_eq hsubmitted.symm

/-- A section is one change, or two where a worker goes on to the next task. -/
abbrev Changes : State Task Val Code → State Task Val Code → Prop :=
  Relation.ReflTransGen Change

theorem Changes.submitted_le (c : Changes s s') : s.submitted ≤ s'.submitted := by
  induction c with
  | refl => exact Nat.le_refl _
  | tail _ hstep ih => exact Nat.le_trans ih hstep.submitted_le

theorem Changes.inv (h : Inv s) (c : Changes s s') : Inv s' := by
  induction c with
  | refl => exact h
  | tail _ hstep ih => exact hstep.inv ih

theorem Changes.finished (h : Inv s) (c : Changes s s') (hlt : f < s.submitted)
    (hf : (s.future f).state = .FINISHED) : (s'.future f).state = .FINISHED := by
  induction c with
  | refl => exact hf
  | tail hsteps hstep ih =>
    exact hstep.finished (Changes.inv h hsteps) ih
      (Nat.lt_of_lt_of_le hlt (Changes.submitted_le hsteps))

end Changes

section Steps

variable {P : Program Task Val Code} {n t f : Nat} {s s' : State Task Val Code}

@[simp] theorem finishing_code (c : Code) : finishing (.code c : Control Val Code) = none := rfl

@[simp] theorem finishing_resume (caller : Caller Val Code) :
    finishing caller.resume = some caller.future := by
  cases caller <;> rfl

theorem finishing_update {th : Nat → Thread Val Code} {x : Thread Val Code}
    (h : finishing x.control = finishing (th t).control) (u : Nat) :
    finishing (Function.update th t x u).control = finishing (th u).control := by
  by_cases heq : u = t
  · rw [heq, Function.update_self, h]
  · rw [Function.update_of_ne heq]

theorem setControl_change {c : Control Val Code}
    (h : finishing c = finishing (s.thread t).control) : Change s (s.setControl t c) := by
  refine .idle rfl rfl rfl rfl (fun p => ?_) (finishing_update h)
  cases p with
  | tasks q => rfl
  | thread u =>
    by_cases heq : u = t
    · subst heq
      simp [holds, executing, State.setControl, h]
    · simp [holds, executing, State.setControl, heq]

theorem callTask_change {q : Option Nat} {l : List Nat} {caller : Caller Val Code}
    (hl : (s.tasks q).Perm (caller.future :: l)) (h : finishing (s.thread t).control = none) :
    Change s (callTask P (s.setTasks q l) t caller) := by
  have hmem : caller.future ∈ s.tasks q := hl.symm.subset List.mem_cons_self
  refine .call caller.future t q hmem rfl rfl rfl rfl (fun j p => ?_) (finishing_update h.symm)
  cases p with
  | tasks r =>
    by_cases heq : r = q
    · subst heq
      have hcount := hl.count_eq j
      simp [holds, callTask, State.setTasks, hcount, List.count_cons, eq_comm (b := j)]
    · simp [holds, callTask, State.setTasks, heq, Ne.symm heq]
  | thread u =>
    by_cases heq : u = t
    · subst heq
      simp [holds, executing, callTask, State.setTasks, h, List.count_cons, eq_comm (b := j)]
    · simp [holds, executing, callTask, State.setTasks, heq, Ne.symm heq]

theorem returnTask_change (h : finishing (s.thread t).control = none) (value : Val) :
    Change s (returnTask s t value) := by
  unfold returnTask
  cases hcallers : (s.thread t).callers with
  | nil => exact setControl_change h.symm
  | cons caller callers =>
    have hmem : caller.future ∈ holds s (.thread t) := by
      simp [holds, executing, hcallers]
    refine .ret caller.future t value hmem rfl rfl rfl rfl (fun p => ?_) fun u g hu => ?_
    · cases p with
      | tasks q => rfl
      | thread u =>
        by_cases heq : u = t
        · subst heq
          simp [holds, executing, hcallers, h, finishing_resume]
        · simp [holds, executing, heq]
    · by_cases heq : u = t
      · subst heq
        simp only [Function.update_self, finishing_resume, Option.some.injEq] at hu
        exact Or.inl hu.symm
      · exact Or.inr (by simpa [heq] using hu)

theorem finishTask_change {c : Control Val Code} (h : finishing (s.thread t).control = some f)
    (hc : finishing c = none) : Change s ((finishTask s f).setControl t c) := by
  refine .finish f t h rfl rfl rfl rfl (fun j p => ?_) fun u g hu => ?_
  · cases p with
    | tasks q => simp [holds, finishTask, State.setControl]
    | thread u =>
      by_cases heq : u = t
      · subst heq
        simp [holds, executing, finishTask, State.setControl, h, hc, List.count_cons,
          eq_comm (b := j)]
      · simp [holds, executing, finishTask, State.setControl, heq, Ne.symm heq]
  · by_cases heq : u = t
    · subst heq
      simp [State.setControl, hc] at hu
    · simpa [State.setControl, finishTask, heq] using hu

theorem threadPoolSubmit_change {task : Task} {data : Val} {k : Nat → Code}
    (h : finishing (s.thread t).control = none) :
    Change s (threadPoolSubmit n s t task data k) := by
  refine .submit _ rfl rfl rfl rfl rfl (fun j p => ?_) (finishing_update h.symm)
  cases p with
  | tasks q =>
    by_cases heq : q = currWorker n t
    · subst heq
      simp [holds, threadPoolSubmit, State.setTasks, State.setControl, List.count_cons,
        eq_comm (b := j)]
    · simp [holds, threadPoolSubmit, State.setTasks, State.setControl, heq, Ne.symm heq]
  | thread u =>
    by_cases heq : u = t
    · subst heq
      simp [holds, executing, threadPoolSubmit, State.setControl, State.setTasks, h]
    · simp [holds, executing, threadPoolSubmit, State.setControl, State.setTasks, heq]

theorem dropLast_perm {l : List Nat} (h : l ≠ []) : l.Perm (l.getLast h :: l.dropLast) := by
  conv_lhs => rw [← List.dropLast_append_getLast h]
  exact List.perm_append_singleton _ _

theorem search_change {listsEmpty : Bool} (h : finishing (s.thread t).control = none) :
    Change s (search P listsEmpty s t) := by
  unfold search
  split
  · exact setControl_change h.symm
  · split
    · rename_i hne
      exact callTask_change (dropLast_perm hne.1) h
    · exact setControl_change h.symm

theorem loopHead_change {listsEmpty : Bool} (h : finishing (s.thread t).control = none) :
    Change s (loopHead P listsEmpty s t) := by
  unfold loopHead
  split
  · exact setControl_change h.symm
  · exact search_change h

theorem visit_change {w : Nat} (h : finishing (s.thread t).control = none) :
    Change s (visit P s t w) := by
  unfold visit
  split
  · rename_i hne
    exact callTask_change (dropLast_perm hne) h
  · exact setControl_change h.symm

theorem loopHead_setControl {listsEmpty : Bool} {c : Control Val Code} :
    loopHead P listsEmpty (s.setControl t c) t = loopHead P listsEmpty s t := by
  simp [loopHead, search, callTask, State.setControl, State.setTasks]

theorem setControl_changes {s₁ : State Task Val Code} {c : Control Val Code} (hs : Change s s₁)
    (hthread : s₁.thread = s.thread) (h : finishing c = finishing (s.thread t).control) :
    Changes s (s₁.setControl t c) :=
  .tail (.single hs) (setControl_change (by rw [hthread, h]))

theorem threadFunction_changes {listsEmpty : Bool} {pc : LoopPc}
    (hpc : (s.thread t).control = .loop pc)
    (hnext : threadFunction P n listsEmpty s t pc = some s') : Changes s s' := by
  have hfin : finishing (s.thread t).control = finishing (.loop pc : Control Val Code) := by
    rw [hpc]
  cases pc with
  | start =>
    cases hnext
    exact setControl_changes (.idle rfl rfl rfl rfl (fun _ => rfl) fun _ => rfl) rfl hfin.symm
  | arrive =>
    cases hnext
    exact setControl_changes (.idle rfl rfl rfl rfl (fun _ => rfl) fun _ => rfl) rfl hfin.symm
  | barrier =>
    rw [threadFunction] at hnext
    split at hnext
    · cases hnext
      exact .single (setControl_change hfin.symm)
    · cases hnext
  | head =>
    cases hnext
    exact .single (loopHead_change hfin)
  | wait =>
    cases hnext
    exact .single (search_change hfin)
  | scan e =>
    cases e with
    | none =>
      cases hnext
      exact .single (loopHead_change hfin)
    | some w =>
      cases hnext
      exact .single (visit_change hfin)
  | finish f stolen =>
    cases stolen with
    | none =>
      cases hnext
      rw [← loopHead_setControl (c := .loop .head)]
      refine .tail (.single (finishTask_change hfin rfl)) (loopHead_change ?_)
      simp [State.setControl, finishing]
    | some w =>
      cases hnext
      exact .single (finishTask_change hfin rfl)
  | exit => cases hnext

theorem getLocal_change {asked w : Nat} {k : Val → Code} (h : Inv s)
    (hfin : finishing (s.thread t).control = none) (hworker : (s.future f).worker = some w)
    (hf : f < s.submitted) : Change s (getLocal P s t asked f w k) := by
  unfold getLocal
  cases hstate : (s.future f).state with
  | WAITING =>
    have hsit := h.situation f hf
    simp only [Situation, hstate, hworker] at hsit
    exact callTask_change (List.perm_cons_erase hsit.1.mem) hfin
  | RUNNING =>
    cases htasks : s.tasks (some w) with
    | nil => exact setControl_change hfin.symm
    | cons g rest =>
      apply callTask_change _ hfin
      rw [htasks]
      exact List.Perm.refl _
  | FINISHED => exact setControl_change hfin.symm

theorem futureGet_change {asked : Nat} {k : Val → Code} {pc : GetPc} (h : Inv s)
    (hpc : (s.thread t).control = .get asked f k pc)
    (hf : pc = .enter → f < s.submitted) : Change s (futureGet P s t asked f k pc) := by
  have hfin : finishing (s.thread t).control =
      finishing (.get asked f k pc : Control Val Code) := by
    rw [hpc]
  cases pc with
  | enter =>
    rw [futureGet]
    cases hworker : (s.future f).worker with
    | none =>
      show Change s (getGlobal s t asked f k)
      unfold getGlobal
      split
      · exact setControl_change hfin.symm
      · exact setControl_change hfin.symm
    | some w => exact getLocal_change h hfin hworker (hf rfl)
  | finish => exact finishTask_change hfin rfl
  | result => exact setControl_change hfin.symm

theorem execInstr_change {instr : Instr Task Val Code}
    (hfin : finishing (s.thread t).control = none)
    (hnext : execInstr n s t instr = some s') : Change s s' := by
  cases instr with
  | ret value =>
    cases hnext
    exact returnTask_change hfin value
  | read k => cases hnext
  | submit task data k =>
    cases hnext
    exact threadPoolSubmit_change hfin
  | get f k =>
    rw [execInstr] at hnext
    split at hnext
    · cases hnext
      exact setControl_change hfin.symm
    · cases hnext

end Steps

end ComputerSystems.Threadpool.Ledger
