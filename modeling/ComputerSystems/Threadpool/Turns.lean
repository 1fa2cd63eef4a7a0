/- What a step of the pool does to the thread that takes it. -/

import ComputerSystems.Threadpool.Ledger

set_option autoImplicit false
set_option relaxedAutoImplicit false

namespace ComputerSystems.Threadpool.Turns

open ComputerSystems.Systems.Runs
open ComputerSystems.Threadpool.Programs
open ComputerSystems.Threadpool.Pool
open ComputerSystems.Threadpool.Ledger

variable {Task Val Code : Type}

/-- A call of `future_get` finds a future of a worker that another thread is running. -/
def findsRunning (s : State Task Val Code) (t : Nat) : Bool :=
  match (s.thread t).control with
  | .get _ f _ .enter => (s.future f).worker.isSome && (s.future f).state == .RUNNING
  | _ => false

/-- What thread `t` executes after a step from `s` to `s'`. -/
inductive Turn (s s' : State Task Val Code) (t : Nat) : Thread Val Code → Prop where
  | loop (pc : LoopPc) : Turn s s' t ⟨.loop pc, (s.thread t).callers⟩
  | code (c : Code) : Turn s s' t ⟨.code c, (s.thread t).callers⟩
  | done : Turn s s' t ⟨.done, (s.thread t).callers⟩
  | loopCall (f : Nat) (stolen : Option Nat) (c : Code) :
      Turn s s' t ⟨.code c, .loop f stolen :: (s.thread t).callers⟩
  | getCall (asked f g : Nat) (k : Val → Code) (c : Code) :
      (s.thread t).control = .get asked f k .enter → g = f ∨ findsRunning s t →
      Turn s s' t ⟨.code c, .get asked g k :: (s.thread t).callers⟩
  | ret (caller : Caller Val Code) (callers : List (Caller Val Code)) :
      (s.thread t).callers = caller :: callers → Turn s s' t ⟨caller.resume, callers⟩
  | enter (f : Nat) (k : Val → Code) : f < s.submitted →
      Turn s s' t ⟨.get f f k .enter, (s.thread t).callers⟩
  | again (asked f : Nat) (k : Val → Code) : (s.thread t).control = .get asked f k .enter →
      Turn s s' t ⟨.get asked f k .enter, (s.thread t).callers⟩
  | result (asked f : Nat) (k : Val → Code) (pc : GetPc) :
      (s.thread t).control = .get asked f k pc →
      (s'.future f).state = .FINISHED ∨ findsRunning s t →
      Turn s s' t ⟨.get asked f k .result, (s.thread t).callers⟩

/-- Thread `t` takes a step from `s` to `s'`, and no other thread does. -/
def Advances (s s' : State Task Val Code) (t : Nat) : Prop :=
  ∃ th, Turn s s' t th ∧ s'.thread = Function.update s.thread t th

section Steps

variable {P : Program Task Val Code} {n t : Nat} {s s₁ s' : State Task Val Code}

theorem setLoop_advances (h : s₁.thread = s.thread) {pc : LoopPc} :
    Advances s (s₁.setControl t (.loop pc)) t :=
  ⟨_, .loop pc, by rw [State.setControl, h]⟩

theorem search_advances (h : s₁.thread = s.thread) {listsEmpty : Bool} :
    Advances s (search P listsEmpty s₁ t) t := by
  unfold search
  split
  · exact setLoop_advances h
  · split
    · exact ⟨_, .loopCall _ none _, by rw [← h]; rfl⟩
    · exact setLoop_advances h

theorem loopHead_advances (h : s₁.thread = s.thread) {listsEmpty : Bool} :
    Advances s (loopHead P listsEmpty s₁ t) t := by
  unfold loopHead
  split
  · exact setLoop_advances h
  · exact search_advances h

theorem visit_advances {w : Nat} : Advances s (visit P s t w) t := by
  unfold visit
  split
  · exact ⟨_, .loopCall _ (some w) _, rfl⟩
  · exact setLoop_advances rfl

theorem threadFunction_advances {listsEmpty : Bool} {pc : LoopPc}
    (hnext : threadFunction P n listsEmpty s t pc = some s') : Advances s s' t := by
  cases pc with
  | start =>
    cases hnext
    exact setLoop_advances (by rfl)
  | arrive =>
    cases hnext
    exact setLoop_advances (by rfl)
  | barrier =>
    rw [threadFunction] at hnext
    split at hnext
    · cases hnext
      exact setLoop_advances rfl
    · cases hnext
  | head =>
    cases hnext
    exact loopHead_advances rfl
  | wait =>
    cases hnext
    exact search_advances rfl
  | scan e =>
    cases e with
    | none =>
      cases hnext
      exact loopHead_advances rfl
    | some w =>
      cases hnext
      exact visit_advances
  | finish f stolen =>
    cases stolen with
    | none =>
      cases hnext
      exact loopHead_advances (by rfl)
    | some w =>
      cases hnext
      exact setLoop_advances (by rfl)
  | exit => cases hnext

theorem getLocal_advances {asked f w : Nat} {k : Val → Code}
    (hpc : (s.thread t).control = .get asked f k .enter) (hworker : (s.future f).worker = some w) :
    Advances s (getLocal P s t asked f w k) t := by
  unfold getLocal
  cases hstate : (s.future f).state with
  | WAITING => exact ⟨_, .getCall asked f f k _ hpc (Or.inl rfl), rfl⟩
  | RUNNING =>
    have hfinds : findsRunning s t := by simp [findsRunning, hpc, hworker, hstate]
    cases s.tasks (some w) with
    | nil => exact ⟨_, .result asked f k .enter hpc (Or.inr hfinds), rfl⟩
    | cons g rest => exact ⟨_, .getCall asked f g k _ hpc (Or.inr hfinds), rfl⟩
  | FINISHED => exact ⟨_, .result asked f k .enter hpc (Or.inl hstate), rfl⟩

theorem futureGet_advances {asked f : Nat} {k : Val → Code} {pc : GetPc}
    (hpc : (s.thread t).control = .get asked f k pc) :
    Advances s (futureGet P s t asked f k pc) t := by
  cases pc with
  | enter =>
    rw [futureGet]
    cases hworker : (s.future f).worker with
    | none =>
      show Advances s (getGlobal s t asked f k) t
      unfold getGlobal
      split
      · rename_i hstate
        exact ⟨_, .result asked f k .enter hpc (Or.inl hstate), rfl⟩
      · exact ⟨_, .again asked f k hpc, rfl⟩
    | some w => exact getLocal_advances hpc hworker
  | finish =>
    refine ⟨_, .result asked f k .finish hpc (Or.inl ?_), rfl⟩
    simp [futureGet, finishTask, State.setControl]
  | result => exact ⟨_, .code (k (s.future f).result), rfl⟩

theorem execInstr_advances {instr : Instr Task Val Code}
    (hnext : execInstr n s t instr = some s') : Advances s s' t := by
  cases instr with
  | ret value =>
    cases hnext
    unfold returnTask
    cases hcallers : (s.thread t).callers with
    | nil => exact ⟨_, .done, rfl⟩
    | cons caller callers => exact ⟨_, .ret caller callers hcallers, rfl⟩
  | read k => cases hnext
  | submit task data k =>
    cases hnext
    exact ⟨_, .code (k s.submitted), rfl⟩
  | get f k =>
    rw [execInstr] at hnext
    split at hnext
    · rename_i hf
      cases hnext
      exact ⟨_, .enter f k hf, rfl⟩
    · cases hnext

theorem next_advances {i : Label Val} (hnext : next P n s i = some s') :
    (∃ t, i.thread = some t ∧ Advances s s' t) ∨ s'.thread = s.thread := by
  cases i with
  | run t listsEmpty =>
    refine Or.inl ⟨t, rfl, ?_⟩
    rw [next] at hnext
    cases hcontrol : (s.thread t).control with
    | loop pc =>
      rw [hcontrol] at hnext
      exact threadFunction_advances hnext
    | code c =>
      rw [hcontrol] at hnext
      exact execInstr_advances hnext
    | get asked f k pc =>
      rw [hcontrol] at hnext
      cases hnext
      exact futureGet_advances hcontrol
    | done =>
      rw [hcontrol] at hnext
      cases hnext
  | read t value =>
    refine Or.inl ⟨t, rfl, ?_⟩
    rw [next] at hnext
    split at hnext
    · split at hnext
      · cases hnext
        exact ⟨_, .code _, rfl⟩
      · cases hnext
    · cases hnext
  | shutdown =>
    cases hnext
    exact Or.inr rfl

end Steps

section Runs

variable {P : Program Task Val Code} {n : Nat} {s s' : State Task Val Code}

/-- A call of `future_get` starts with the future it was asked for. -/
def Known (s : State Task Val Code) : Prop :=
  ∀ t asked f k, (s.thread t).control = .get asked f k .enter → f = asked ∧ f < s.submitted

theorem next_changes {i : Label Val} (h : Inv s) (hknown : Known s)
    (hnext : next P n s i = some s') : Changes s s' := by
  cases i with
  | run t listsEmpty =>
    rw [next] at hnext
    cases hcontrol : (s.thread t).control with
    | loop pc =>
      rw [hcontrol] at hnext
      exact threadFunction_changes hcontrol hnext
    | code c =>
      rw [hcontrol] at hnext
      have hfin : finishing (s.thread t).control = none := by rw [hcontrol]; rfl
      exact .single (execInstr_change hfin hnext)
    | get asked f k pc =>
      rw [hcontrol] at hnext
      cases hnext
      refine .single (futureGet_change h hcontrol fun hpc => ?_)
      subst hpc
      exact (hknown t asked f k hcontrol).2
    | done =>
      rw [hcontrol] at hnext
      cases hnext
  | read t value =>
    rw [next] at hnext
    split at hnext
    · rename_i hcontrol
      split at hnext
      · cases hnext
        exact .single (setControl_change (by rw [hcontrol]; rfl))
      · cases hnext
    · cases hnext
  | shutdown =>
    cases hnext
    exact .single (.idle rfl rfl rfl rfl (fun _ => rfl) fun _ => rfl)

theorem Known.advances {t : Nat} (hknown : Known s) (hle : s.submitted ≤ s'.submitted)
    (hadv : Advances s s' t) : Known s' := by
  obtain ⟨th, hturn, hthread⟩ := hadv
  intro u asked f k hu
  rw [hthread] at hu
  by_cases heq : u = t
  · subst heq
    rw [Function.update_self] at hu
    cases hturn with
    | loop => cases hu
    | code => cases hu
    | done => cases hu
    | loopCall => cases hu
    | getCall => cases hu
    | ret caller callers => cases caller <;> cases hu
    | enter g k' hg =>
      cases hu
      exact ⟨rfl, Nat.lt_of_lt_of_le hg hle⟩
    | again a g k' hentered =>
      cases hu
      obtain ⟨hsame, hlt⟩ := hknown u asked f k hentered
      exact ⟨hsame, Nat.lt_of_lt_of_le hlt hle⟩
    | result => cases hu
  · rw [Function.update_of_ne heq] at hu
    obtain ⟨hsame, hlt⟩ := hknown u asked f k hu
    exact ⟨hsame, Nat.lt_of_lt_of_le hlt hle⟩

structure Sound (s : State Task Val Code) : Prop where
  inv : Inv s
  known : Known s

theorem sound_of_init (h : (system P n).init s) : Sound s := by
  obtain ⟨-, htasks, -, -, hsubmitted, hthread, hinvoked, -⟩ := h
  have hfin : ∀ t, finishing (s.thread t).control = none := fun t => by
    rw [hthread]
    split <;> rfl
  have hholds : ∀ p, holds s p = [] := by
    intro p
    cases p with
    | tasks q => exact htasks q
    | thread t =>
      rw [holds, executing, hfin, hthread]
      rfl
  refine ⟨⟨fun f hf => ?_, fun f _ => ⟨fun p => ?_, hinvoked f⟩, fun t f ht => ?_⟩,
    fun t asked f k ht => ?_⟩
  · omega
  · rw [hholds]
    rfl
  · rw [hfin] at ht
    cases ht
  · rw [hthread] at ht
    split at ht <;> cases ht

theorem Sound.next {i : Label Val} (h : Sound s) (hnext : next P n s i = some s') :
    Sound s' := by
  have hchanges := next_changes h.inv h.known hnext
  refine ⟨hchanges.inv h.inv, ?_⟩
  rcases next_advances hnext with ⟨t, -, hadv⟩ | hsame
  · exact h.known.advances hchanges.submitted_le hadv
  · intro t asked f k ht
    rw [hsame] at ht
    obtain ⟨heq, hlt⟩ := h.known t asked f k ht
    exact ⟨heq, Nat.lt_of_lt_of_le hlt hchanges.submitted_le⟩

theorem sound_of_reachable {ok : State Task Val Code → Label Val → Prop}
    (h : ReachableBy (system P n) ok s) : Sound s :=
  h.invariant (fun _ => sound_of_init) fun _ _ _ hs _ hnext => hs.next hnext

end Runs

end ComputerSystems.Threadpool.Turns
