/- What `fg`, `bg`, `stop` and `kill` do for the jobs that their arguments name. -/

import ComputerSystems.Cush.Finishing

set_option autoImplicit false
set_option relaxedAutoImplicit false

namespace ComputerSystems.Cush.Builtins

open ComputerSystems.Pserv.Strings (ascii)
open ComputerSystems.Systems.Runs
open ComputerSystems.Cush.Ast
open ComputerSystems.Cush.Jobs
open ComputerSystems.Cush.Shell
open ComputerSystems.Cush.Steps
open ComputerSystems.Cush.Views
open ComputerSystems.Cush.Deletion
open ComputerSystems.Cush.Finishing (bgLine)

def jobControl : List Word :=
  [ascii "fg", ascii "bg", ascii "stop", ascii "kill"]

def calling (s : State) : Option (List Word) :=
  match s.point, s.pipes with
  | .line, pipe :: _ => if jobControl.contains pipe.front.name then some pipe.front.argv else none
  | _, _ => none

/-- The argument is there, and names a job in the table that has an unreaped process. -/
def NamesLive (s : State) (argv : List Word) : Prop :=
  ∃ r, jobArgument s argv = some r ∧ 0 < unreaped s r

/-- A step of the shell itself, and not of its signal handler or of another process. -/
def own : Event → Bool
  | .handler _ _ => false
  | .terminal _ _ => false
  | _ => true

def target (s : State) : Event → Option Nat
  | .tcsetpgrp _ => (calling s).bind (jobArgument s)
  | .killpg _ =>
    match s.point with
    | .fg r => some r
    | .bg r => some r
    | _ => (calling s).bind (jobArgument s)
  | _ => none

/-- A command acts on a job that has an unreaped process, and does nothing where its argument does
not name one. -/
structure Careful (s : State) (e : Event) (s' : State) : Prop where
  live : ∀ r ∈ target s e, 0 < unreaped s r
  idle : ∀ argv ∈ calling s, own e = true → ¬ NamesLive s argv →
    s'.point = .line ∧ s'.job = s.job ∧ s'.tty = s.tty ∧ s'.owner = s.owner

/-- The argument of the command names a job with an unreaped process, which is still there when
`fg` and `bg` call `killpg`. -/
structure Named (s : State) (e : Event) : Prop where
  called : ∀ argv ∈ calling s, own e = true → NamesLive s argv
  signalled : ∀ r success, e = .killpg success → s.point = .fg r ∨ s.point = .bg r →
    0 < unreaped s r

section Steps

variable {s s' : State} {e : Event} {r : Nat} {argv : List Word}

theorem calling_eq_some (h : calling s = some argv) : ∃ pipe pipes, s.point = .line ∧
    s.pipes = pipe :: pipes ∧ pipe.front.name ∈ jobControl ∧ pipe.front.argv = argv := by
  unfold calling at h
  split at h
  · rename_i pipe pipes hpoint hpipes
    split_ifs at h with hname
    exact ⟨pipe, pipes, hpoint, hpipes, List.contains_iff_mem.mp hname, Option.some.inj h⟩
  · cases h

theorem isBuiltin_of_jobControl {command : Command} (h : command.name ∈ jobControl) :
    isBuiltin command = true := by
  refine decide_eq_true ?_
  simp only [jobControl, builtins, List.mem_cons, List.not_mem_nil, or_false] at h ⊢
  rcases h with hfg | hbg | hstop | hkill
  · exact Or.inr (Or.inl hfg)
  · exact Or.inr (Or.inr (Or.inl hbg))
  · exact Or.inr (Or.inr (Or.inr (Or.inr (Or.inr (Or.inl hstop)))))
  · exact Or.inr (Or.inr (Or.inr (Or.inl hkill)))

theorem next_own (hown : own e = true) : next s e = run s e := by
  cases e <;> first | rfl | cases hown

theorem run_call (hcalling : calling s = some argv) (hown : own e = true)
    (h : next s e = some s') : ∃ (pipe : Pipeline) (pipes : CommandLine),
      pipe.front.name ∈ jobControl ∧ pipe.front.argv = argv ∧
        handleBuiltin { s with pipes := pipes } pipe.front e = some s' := by
  obtain ⟨pipe, pipes, hpoint, hpipes, hname, hargv⟩ := calling_eq_some hcalling
  refine ⟨pipe, pipes, hname, hargv, ?_⟩
  rw [next_own hown] at h
  unfold run at h
  rw [hpoint] at h
  change handleCommandLine s e = _ at h
  unfold handleCommandLine at h
  rw [hpipes] at h
  dsimp only at h
  rwa [if_pos (isBuiltin_of_jobControl hname)] at h

theorem target_call {success : Bool} (hcalling : calling s = some argv)
    (hjob : jobArgument s argv = some r) : target s (.killpg success) = some r := by
  obtain ⟨pipe, pipes, hpoint, -⟩ := calling_eq_some hcalling
  unfold target
  rw [hpoint, hcalling]
  exact hjob

/-- What the first statement of a command does: without a job it uses a null pointer, and else it
writes the status or makes a call for the job, whatever has become of its processes. -/
theorem call_next (hcalling : calling s = some argv) (hown : own e = true)
    (h : next s e = some s') :
    jobArgument s argv = none ∧ s'.point = .halted .crash ∨
      ∃ r, jobArgument s argv = some r ∧ (target s e = some r ∨ s'.point = .bg r) := by
  obtain ⟨pipe, pipes, hname, hargv, hrun⟩ := run_call hcalling hown h
  have hsame : jobArgument { s with pipes := pipes } pipe.front.argv = jobArgument s argv := by
    rw [hargv]
    rfl
  unfold handleBuiltin at hrun
  split at hrun
  · unfold doFg at hrun
    rw [hsame] at hrun
    split at hrun
    · cases hrun
      exact Or.inl ⟨‹_›, rfl⟩
    · rename_i r hjob
      exact Or.inr ⟨r, hjob, Or.inl (by rw [target, hcalling]; exact hjob)⟩
    · rename_i r hjob
      exact Or.inr ⟨r, hjob, Or.inl (by rw [target, hcalling]; exact hjob)⟩
    · cases hrun
  · split at hrun
    · unfold doBg at hrun
      rw [hsame] at hrun
      split at hrun
      · cases hrun
        exact Or.inl ⟨‹_›, rfl⟩
      · rename_i r hjob
        cases hrun
        exact Or.inr ⟨r, hjob, Or.inr rfl⟩
      · cases hrun
    · split at hrun
      · rename_i hjobs
        rw [hjobs] at hname
        exact absurd hname (by decide)
      · split at hrun
        · unfold doStop at hrun
          rw [hsame] at hrun
          split at hrun
          · cases hrun
            exact Or.inl ⟨‹_›, rfl⟩
          · rename_i r success hjob
            exact Or.inr ⟨r, hjob, Or.inl (target_call hcalling hjob)⟩
          · cases hrun
        · rename_i hfg hbg _ hstop
          split at hrun
          · unfold doKill at hrun
            rw [hsame] at hrun
            split at hrun
            · cases hrun
              exact Or.inl ⟨‹_›, rfl⟩
            · rename_i r success hjob
              exact Or.inr ⟨r, hjob, Or.inl (target_call hcalling hjob)⟩
            · cases hrun
          · rename_i hkill
            simp only [jobControl, List.mem_cons, List.not_mem_nil, or_false] at hname
            tauto

/-- A command is careful exactly when its argument names a job with an unreaped process. -/
theorem careful_iff (h : next s e = some s') : Careful s e s' ↔ Named s e := by
  constructor
  · intro hcareful
    refine ⟨fun argv hcalling hown => ?_, fun r success he hpoint => ?_⟩
    · by_contra hnot
      obtain ⟨hline, -⟩ := hcareful.idle argv hcalling hown hnot
      rcases call_next hcalling hown h with ⟨-, hcrash⟩ | ⟨r, hjob, htarget | hbg⟩
      · rw [hcrash] at hline
        cases hline
      · exact hnot ⟨r, hjob, hcareful.live r htarget⟩
      · rw [hbg] at hline
        cases hline
    · subst he
      refine hcareful.live r ?_
      rcases hpoint with hpoint | hpoint <;> rw [target, hpoint] <;> rfl
  · intro hnamed
    refine ⟨fun r htarget => ?_, fun argv hcalling hown hnot => ?_⟩
    · have hcalled : ∀ {e}, own e = true → (∀ argv ∈ calling s, own e = true → NamesLive s argv) →
          (calling s).bind (jobArgument s) = some r → 0 < unreaped s r := by
        intro e hown hall hbind
        obtain ⟨argv, hcalling, hjob⟩ := Option.bind_eq_some_iff.mp hbind
        obtain ⟨q, hq, hpos⟩ := hall argv hcalling hown
        obtain rfl : q = r := Option.some.inj (hq.symm.trans hjob)
        exact hpos
      unfold target at htarget
      split at htarget
      · exact hcalled rfl hnamed.called htarget
      · split at htarget
        · cases htarget
          exact hnamed.signalled r _ rfl (Or.inl ‹_›)
        · cases htarget
          exact hnamed.signalled r _ rfl (Or.inr ‹_›)
        · exact hcalled rfl hnamed.called htarget
      · cases htarget
    · exact absurd (hnamed.called argv hcalling hown) hnot

end Steps

section Samples

/-- `bg 1` is about to resume `a &`. -/
theorem careful_iff_sample : ∃ s s', Reachable system s ∧ calling s = some [ascii "bg", ascii "1"] ∧
    next s .step = some s' ∧ (Careful s .step s' ↔ Named s .step) := by
  have hrun : (system.exec start (adding (words "a" [] true) ++ starting 0 ++
      [.step, .step, .step, .step, .readline [bgLine "1"]])).map
      (fun s => (calling s, (next s .step).isSome)) = some (some [ascii "bg", ascii "1"], true) := by
    decide
  obtain ⟨s, hs, hobs⟩ := Option.map_eq_some_iff.mp hrun
  obtain ⟨hcalling, hnext⟩ := Prod.mk.inj hobs
  obtain ⟨s', hs'⟩ := Option.isSome_iff_exists.mp hnext
  exact ⟨s, s', Reachable.exec (.start start_init) hs, hcalling, hs', careful_iff hs'⟩

/-- `bg 7` where there is no job. -/
theorem bg_crashes : ¬ ∀ s e s', Reachable system s → next s e = some s' → Careful s e s' := by
  intro hall
  have hrun : (system.exec start [.readline [bgLine "7"]]).map
      (fun s => (calling s, jobArgument s [ascii "bg", ascii "7"], (next s .step).map State.point)) =
      some (some [ascii "bg", ascii "7"], none, some (.halted .crash)) := by
    decide
  obtain ⟨s, hs, hobs⟩ := Option.map_eq_some_iff.mp hrun
  simp only [Prod.mk.injEq] at hobs
  obtain ⟨hcalling, hjob, hnext⟩ := hobs
  obtain ⟨s', hs', hpoint⟩ := Option.map_eq_some_iff.mp hnext
  have hcareful := hall s .step s' (Reachable.exec (.start start_init) hs) hs'
  have hnot : ¬ NamesLive s [ascii "bg", ascii "7"] := by
    rintro ⟨r, hr, -⟩
    rw [hjob] at hr
    cases hr
  obtain ⟨hline, -⟩ := hcareful.idle _ hcalling rfl hnot
  rw [hpoint] at hline
  cases hline

end Samples

end ComputerSystems.Cush.Builtins
