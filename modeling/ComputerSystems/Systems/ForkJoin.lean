/- Fork-join programs on a shared memory. Branches that share no place end, however they are
interleaved, as if they had run one after the other. -/

import Mathlib.Logic.Function.Basic
import Mathlib.Logic.Relation

set_option autoImplicit false
set_option relaxedAutoImplicit false

namespace ComputerSystems.Systems.ForkJoin

open Relation (ReflTransGen)

variable {π ν : Type}

/-- A program that reads and writes one place at a time. `fork` runs two programs at the same time
and goes on when both are done; `stuck` has no defined behaviour. -/
inductive Prog (π ν : Type) where
  | done
  | stuck
  | read (p : π) (next : ν → Prog π ν)
  | write (p : π) (v : ν) (next : Prog π ν)
  | fork (x y next : Prog π ν)

abbrev Memory (π ν : Type) := π → ν

inductive Access (π ν : Type) where
  | read (p : π) (v : ν)
  | write (p : π) (v : ν)
  | join

def Access.place : Access π ν → Option π
  | .read p _ => some p
  | .write p _ => some p
  | .join => none

/-- The value that is read is the one in the memory. -/
def Access.Allowed (m : Memory π ν) : Access π ν → Prop
  | .read p v => m p = v
  | .write _ _ => True
  | .join => True

def Access.apply [DecidableEq π] (m : Memory π ν) : Access π ν → Memory π ν
  | .read _ _ => m
  | .write p v => Function.update m p v
  | .join => m

namespace Prog

def andThen : Prog π ν → Prog π ν → Prog π ν
  | done, y => y
  | stuck, _ => stuck
  | read p next, y => read p fun v => (next v).andThen y
  | write p v next, y => write p v (next.andThen y)
  | fork a b next, y => fork a b (next.andThen y)

/-- The memory at the end, when the branches of a fork run one after the other. -/
def run [DecidableEq π] : Prog π ν → Memory π ν → Option (Memory π ν)
  | done, m => some m
  | stuck, _ => none
  | read p next, m => (next (m p)).run m
  | write p v next, m => next.run (Function.update m p v)
  | fork x y next, m => (x.run m).bind fun m => (y.run m).bind next.run

def Touches : Prog π ν → π → Prop
  | done, _ => False
  | stuck, _ => False
  | read q next, p => p = q ∨ ∃ v, (next v).Touches p
  | write q _ next, p => p = q ∨ next.Touches p
  | fork x y next, p => x.Touches p ∨ y.Touches p ∨ next.Touches p

def Separate : Prog π ν → Prop
  | done => True
  | stuck => True
  | read _ next => ∀ v, (next v).Separate
  | write _ _ next => next.Separate
  | fork x y next => (∀ p, x.Touches p → ¬ y.Touches p) ∧ x.Separate ∧ y.Separate ∧ next.Separate

end Prog

open Prog

inductive Step : Prog π ν → Access π ν → Prog π ν → Prop where
  | read {p : π} {next : ν → Prog π ν} (v : ν) : Step (.read p next) (.read p v) (next v)
  | write {p : π} {v : ν} {next : Prog π ν} : Step (.write p v next) (.write p v) next
  | left {x x' y next : Prog π ν} {l : Access π ν} : Step x l x' →
      Step (.fork x y next) l (.fork x' y next)
  | right {x y y' next : Prog π ν} {l : Access π ν} : Step y l y' →
      Step (.fork x y next) l (.fork x y' next)
  | join {next : Prog π ν} : Step (.fork .done .done next) .join next

/-- Two branches that may run at the same time. -/
inductive Beside : Prog π ν → Prog π ν → Prog π ν → Prop where
  | fork {x y next : Prog π ν} : Beside (.fork x y next) x y
  | left {x y next a b : Prog π ν} : Beside x a b → Beside (.fork x y next) a b
  | right {x y next a b : Prog π ν} : Beside y a b → Beside (.fork x y next) a b

section Semantics

variable [DecidableEq π]

def Next (c c' : Prog π ν × Memory π ν) : Prop :=
  ∃ l, Step c.1 l c'.1 ∧ l.Allowed c.2 ∧ c'.2 = l.apply c.2

/-- An interleaving. -/
abbrev Runs : Prog π ν × Memory π ν → Prog π ν × Memory π ν → Prop := ReflTransGen Next

/-- In some interleaving the place is read or written. -/
def Accessed (x : Prog π ν) (m : Memory π ν) (p : π) : Prop :=
  ∃ c l x', Runs (x, m) c ∧ Step c.1 l x' ∧ l.Allowed c.2 ∧ l.place = some p

/-- Every interleaving comes to an end, with the program done and a memory as `Q` says. -/
def Ends (x : Prog π ν) (m : Memory π ν) (Q : Memory π ν → Prop) : Prop :=
  Acc (fun c' c => Next c c') (x, m) ∧
    ∀ c, Runs (x, m) c → (∀ c', ¬ Next c c') → c.1 = .done ∧ Q c.2

end Semantics

section Sequences

variable {x y : Prog π ν} {p : π}

theorem run_andThen [DecidableEq π] {m : Memory π ν} : (x.andThen y).run m = (x.run m).bind y.run := by
  induction x generalizing m with
  | done => rfl
  | stuck => rfl
  | read p next ih => exact ih (m p)
  | write p v next ih => exact ih
  | fork a b next _ _ ih =>
    simp only [andThen, run, Option.bind_assoc]
    congr 1
    funext m
    congr 1
    funext m
    exact ih

theorem run_fork [DecidableEq π] {next : Prog π ν} :
    (Prog.fork x y next).run = (x.andThen (y.andThen next)).run := by
  funext m
  rw [run_andThen]
  exact congrArg (x.run m).bind (funext fun m => run_andThen.symm)

theorem run_fork_done [DecidableEq π] {m : Memory π ν} :
    (Prog.fork x y .done).run m = (x.andThen y).run m := by
  rw [run_fork, run_andThen, run_andThen]
  refine congrArg (x.run m).bind (funext fun m => ?_)
  rw [run_andThen]
  cases y.run m <;> rfl

theorem touches_andThen (h : (x.andThen y).Touches p) : x.Touches p ∨ y.Touches p := by
  induction x with
  | done => exact Or.inr h
  | stuck => exact Or.inl h
  | read q next ih =>
    rcases h with rfl | ⟨v, h⟩
    · exact Or.inl (Or.inl rfl)
    · exact (ih v h).imp_left fun h => Or.inr ⟨v, h⟩
  | write q v next ih =>
    rcases h with rfl | h
    · exact Or.inl (Or.inl rfl)
    · exact (ih h).imp_left Or.inr
  | fork a b next _ _ ih =>
    rcases h with h | h | h
    · exact Or.inl (Or.inl h)
    · exact Or.inl (Or.inr (Or.inl h))
    · exact (ih h).imp_left fun h => Or.inr (Or.inr h)

theorem separate_andThen (hx : x.Separate) (hy : y.Separate) : (x.andThen y).Separate := by
  induction x with
  | done => exact hy
  | stuck => trivial
  | read q next ih => exact fun v => ih v (hx v)
  | write q v next ih => exact ih hx
  | fork a b next _ _ ih => exact ⟨hx.1, hx.2.1, hx.2.2.1, ih hx.2.2.2⟩

end Sequences

section Steps

variable {x x' y z : Prog π ν} {l : Access π ν} {p : π}

theorem Step.touches (h : Step x l x') :
    (∀ p, l.place = some p → x.Touches p) ∧ ∀ p, x'.Touches p → x.Touches p := by
  induction h with
  | read v =>
    refine ⟨?_, fun p hp => Or.inr ⟨v, hp⟩⟩
    intro p hp
    cases hp
    exact Or.inl rfl
  | write =>
    refine ⟨?_, fun p hp => Or.inr hp⟩
    intro p hp
    cases hp
    exact Or.inl rfl
  | left _ ih => exact ⟨fun p hp => Or.inl (ih.1 p hp), fun p hp => hp.imp_left (ih.2 p)⟩
  | right _ ih =>
    exact ⟨fun p hp => Or.inr (Or.inl (ih.1 p hp)), fun p hp => hp.imp_right (Or.imp_left (ih.2 p))⟩
  | join =>
    refine ⟨?_, fun p hp => Or.inr (Or.inr hp)⟩
    intro p hp
    cases hp

theorem Step.separate (h : Step x l x') (hx : x.Separate) : x'.Separate := by
  induction h with
  | read v => exact hx v
  | write => exact hx
  | left hstep ih =>
    exact ⟨fun p hp => hx.1 p (hstep.touches.2 p hp), ih hx.2.1, hx.2.2.1, hx.2.2.2⟩
  | right hstep ih =>
    exact ⟨fun p hp hp' => hx.1 p hp (hstep.touches.2 p hp'), hx.2.1, ih hx.2.2.1, hx.2.2.2⟩
  | join => exact hx.2.2.2

theorem Prog.Separate.beside (hx : x.Separate) (h : Beside x y z) (hp : y.Touches p) : ¬ z.Touches p := by
  induction h with
  | fork => exact hx.1 p hp
  | left _ ih => exact ih hx.2.1 hp
  | right _ ih => exact ih hx.2.2.1 hp

theorem step_acc (x : Prog π ν) : Acc (fun x' x => ∃ l, Step x l x') x := by
  induction x with
  | done =>
    constructor
    rintro x' ⟨l, h⟩
    cases h
  | stuck =>
    constructor
    rintro x' ⟨l, h⟩
    cases h
  | read p next ih =>
    constructor
    rintro x' ⟨l, h⟩
    cases h with
    | read v => exact ih v
  | write p v next ih =>
    constructor
    rintro x' ⟨l, h⟩
    cases h with
    | write => exact ih
  | fork x y next ihx ihy ih =>
    induction ihx generalizing y with
    | intro x _ ihx =>
      induction ihy with
      | intro y hy ihy =>
        constructor
        rintro x' ⟨l, h⟩
        cases h with
        | left h => exact ihx _ ⟨l, h⟩ y ⟨y, hy⟩
        | right h => exact ihy _ ⟨l, h⟩
        | join => exact ih

end Steps

section Results

variable [DecidableEq π] {x x' y next : Prog π ν} {l : Access π ν} {p : π} {v : ν}
  {m m' n : Memory π ν} {Q : Memory π ν → Prop}

theorem run_update (h : ¬ x.Touches p) :
    x.run (Function.update m p v) = (x.run m).map fun n => Function.update n p v := by
  induction x generalizing m with
  | done => rfl
  | stuck => rfl
  | read q next ih =>
    obtain ⟨hpq, hnext⟩ := not_or.mp h
    rw [run, run, Function.update_of_ne (Ne.symm hpq)]
    exact ih (m q) fun hp => hnext ⟨m q, hp⟩
  | write q w next ih =>
    obtain ⟨hpq, hnext⟩ := not_or.mp h
    rw [run, run, Function.update_comm hpq]
    exact ih hnext
  | fork a b next iha ihb ih =>
    obtain ⟨ha, hrest⟩ := not_or.mp h
    obtain ⟨hb, hnext⟩ := not_or.mp hrest
    rw [run, run, iha ha]
    cases a.run m with
    | none => rfl
    | some m₁ =>
      simp only [Option.map_some, Option.bind_some]
      rw [ihb hb]
      cases b.run m₁ with
      | none => rfl
      | some m₂ => exact ih hnext

theorem run_outside (h : ¬ x.Touches p) (hrun : x.run m = some n) : n p = m p := by
  have hupdate := run_update (m := m) (v := m p) h
  rw [Function.update_eq_self, hrun, Option.map_some, Option.some.injEq] at hupdate
  rw [hupdate, Function.update_self]

theorem run_apply (h : ∀ p, l.place = some p → ¬ x.Touches p) :
    x.run (l.apply m) = (x.run m).map l.apply := by
  cases l with
  | read q v => exact Option.map_id'.symm
  | write q v => exact run_update (h q rfl)
  | join => exact Option.map_id'.symm

theorem Step.run (h : Step x l x') (hx : x.Separate) (hl : l.Allowed m) :
    x'.run (l.apply m) = x.run m := by
  induction h generalizing m with
  | read v =>
    rw [Prog.run, show m _ = v from hl]
    rfl
  | write => rfl
  | left _ ih => rw [Prog.run, Prog.run, ih hx.2.1 hl]
  | @right x y y' next l hstep ih =>
    -- the other branch touches neither what is read nor what is written
    have hother : ∀ p, l.place = some p → ¬ x.Touches p :=
      fun p hp hxp => hx.1 p hxp (hstep.touches.1 p hp)
    rw [Prog.run, Prog.run, run_apply hother, Option.bind_map]
    cases hrun : x.run m with
    | none => rfl
    | some m₁ =>
      have hl₁ : l.Allowed m₁ := by
        cases l with
        | read q v => exact (run_outside (hother q rfl) hrun).trans hl
        | write q v => trivial
        | join => trivial
      simp only [Option.bind_some, Function.comp_apply]
      rw [ih hx.2.2.1 hl₁]
  | join => rfl

theorem Runs.run (h : Runs (x, m) (x', m')) (hx : x.Separate) :
    x'.Separate ∧ x'.run m' = x.run m ∧ ∀ p, x'.Touches p → x.Touches p := by
  have hrun : ∀ c, Runs (x, m) c →
      c.1.Separate ∧ c.1.run c.2 = x.run m ∧ ∀ p, c.1.Touches p → x.Touches p := by
    intro c hc
    induction hc with
    | refl => exact ⟨hx, rfl, fun p hp => hp⟩
    | tail _ hnext ih =>
      obtain ⟨hsep, heq, htouches⟩ := ih
      obtain ⟨l, hstep, hl, hm⟩ := hnext
      rw [hm]
      exact ⟨hstep.separate hsep, (hstep.run hsep hl).trans heq,
        fun p hp => htouches p (hstep.touches.2 p hp)⟩
  exact hrun (x', m') h

theorem next_read {next : ν → Prog π ν} : Next (.read p next, m) (next (m p), m) :=
  ⟨.read p (m p), .read _, rfl, rfl⟩

theorem next_write : Next (.write p v next, m) (next, Function.update m p v) :=
  ⟨.write p v, .write, trivial, rfl⟩

theorem progress (h : x.run m = some n) : x = .done ∨ ∃ c, Next (x, m) c := by
  induction x generalizing m n with
  | done => exact Or.inl rfl
  | stuck => cases h
  | read p next _ => exact Or.inr ⟨_, next_read⟩
  | write p v next _ => exact Or.inr ⟨_, next_write⟩
  | fork a b next iha ihb _ =>
    refine Or.inr ?_
    obtain ⟨m₁, ha, hrest⟩ := Option.bind_eq_some_iff.mp h
    obtain ⟨m₂, hb, -⟩ := Option.bind_eq_some_iff.mp hrest
    rcases iha ha with rfl | ⟨c, l, hstep, hl, hm⟩
    · cases ha
      rcases ihb hb with rfl | ⟨c, l, hstep, hl, hm⟩
      · exact ⟨(next, m), .join, .join, trivial, rfl⟩
      · exact ⟨(.fork .done c.1 next, c.2), l, .right hstep, hl, hm⟩
    · exact ⟨(.fork c.1 b next, c.2), l, .left hstep, hl, hm⟩

theorem next_acc (c : Prog π ν × Memory π ν) : Acc (fun c' c => Next c c') c := by
  have hacc : Acc (InvImage (fun x' x => ∃ l, Step x l x') Prod.fst) c :=
    InvImage.accessible Prod.fst (step_acc c.1)
  refine Subrelation.accessible ?_ hacc
  rintro c' c'' ⟨l, hstep, -⟩
  exact ⟨l, hstep⟩

theorem exists_end (c : Prog π ν × Memory π ν) : ∃ c', Runs c c' ∧ ∀ c'', ¬ Next c' c'' := by
  induction next_acc c with
  | intro c _ ih =>
    by_cases hend : ∀ c', ¬ Next c c'
    · exact ⟨c, .refl, hend⟩
    · obtain ⟨c', hnext⟩ := not_forall_not.mp hend
      obtain ⟨c'', hruns, hend'⟩ := ih c' hnext
      exact ⟨c'', .head hnext hruns, hend'⟩

theorem ends_iff (hx : x.Separate) : Ends x m Q ↔ ∃ n, x.run m = some n ∧ Q n := by
  constructor
  · rintro ⟨-, hends⟩
    obtain ⟨⟨x', m'⟩, hruns, hend⟩ := exists_end (x, m)
    obtain ⟨rfl, hQ⟩ := hends _ hruns hend
    exact ⟨m', (Runs.run hruns hx).2.1.symm, hQ⟩
  · rintro ⟨n, hrun, hQ⟩
    refine ⟨next_acc _, ?_⟩
    rintro ⟨x', m'⟩ hruns hend
    have hsame := (Runs.run hruns hx).2.1
    rcases progress (hsame.trans hrun) with rfl | ⟨c', hnext⟩
    · rw [hrun] at hsame
      cases hsame
      exact ⟨rfl, hQ⟩
    · exact absurd hnext (hend c')

theorem Accessed.touches (hx : x.Separate) (h : Accessed x m p) : x.Touches p := by
  obtain ⟨c, l, x', hruns, hstep, -, hp⟩ := h
  exact (Runs.run hruns hx).2.2 p (hstep.touches.1 p hp)

theorem Runs.apart (h : Runs (x, m) (x', m')) (hx : x.Separate) {y z : Prog π ν}
    (hbeside : Beside x' y z) (hy : y.Touches p) : ¬ z.Touches p :=
  (Runs.run h hx).1.beside hbeside hy

theorem Runs.left (h : Runs (x, m) (x', m')) : Runs (.fork x y next, m) (.fork x' y next, m') := by
  refine ReflTransGen.lift (fun c : Prog π ν × Memory π ν => (Prog.fork c.1 y next, c.2)) ?_ _ _ h
  rintro c c' ⟨l, hstep, hl, hm⟩
  exact ⟨l, .left hstep, hl, hm⟩

theorem Runs.right (h : Runs (x, m) (x', m')) : Runs (.fork y x next, m) (.fork y x' next, m') := by
  refine ReflTransGen.lift (fun c : Prog π ν × Memory π ν => (Prog.fork y c.1 next, c.2)) ?_ _ _ h
  rintro c c' ⟨l, hstep, hl, hm⟩
  exact ⟨l, .right hstep, hl, hm⟩

theorem runs_andThen (h : x.run m = some n) : Runs (x.andThen y, m) (y, n) := by
  induction x generalizing y m n with
  | done =>
    cases h
    exact .refl
  | stuck => cases h
  | read p next ih =>
    exact .head next_read (ih (m p) h)
  | write p v next ih =>
    exact .head next_write (ih h)
  | fork a b next iha ihb ih =>
    obtain ⟨m₁, ha, hrest⟩ := Option.bind_eq_some_iff.mp h
    obtain ⟨m₂, hb, hnext⟩ := Option.bind_eq_some_iff.mp hrest
    have hdone : ∀ {z : Prog π ν}, z.andThen .done = z := by
      intro z
      induction z with
      | done => rfl
      | stuck => rfl
      | read p next ih => simp only [andThen, ih]
      | write p v next ih => simp only [andThen, ih]
      | fork a b next _ _ ih => simp only [andThen, ih]
    have hleft := iha (y := .done) ha
    have hright := ihb (y := .done) hb
    rw [hdone] at hleft hright
    refine (Runs.left hleft).trans ((Runs.right hright).trans (.head ?_ (ih hnext)))
    exact ⟨.join, .join, trivial, rfl⟩

theorem Accessed.andThen (h : x.run m = some n) (hy : Accessed y n p) : Accessed (x.andThen y) m p := by
  obtain ⟨c, l, x', hruns, hrest⟩ := hy
  exact ⟨c, l, x', (runs_andThen h).trans hruns, hrest⟩

theorem Accessed.read {next : ν → Prog π ν} (p : π) : Accessed (.read p next) m p :=
  ⟨(_, m), .read p (m p), _, .refl, .read _, rfl, rfl⟩

theorem Accessed.tail {next : ν → Prog π ν} {q : π} (h : Accessed (next (m q)) m p) :
    Accessed (.read q next) m p := by
  obtain ⟨c, l, x', hruns, hrest⟩ := h
  exact ⟨c, l, x', .head next_read hruns, hrest⟩

end Results

/-- No two branches share a place, and every place that is touched is in `R`. -/
structure Confined (x : Prog π ν) (R : π → Prop) : Prop where
  separate : x.Separate
  touches : ∀ p, x.Touches p → R p

namespace Confined

variable {x y next : Prog π ν} {R S : π → Prop} {p : π}

theorem mono (h : Confined x R) (hRS : ∀ p, R p → S p) : Confined x S :=
  ⟨h.separate, fun p hp => hRS p (h.touches p hp)⟩

theorem done : Confined (.done : Prog π ν) R := ⟨trivial, fun _ hp => hp.elim⟩

theorem stuck : Confined (.stuck : Prog π ν) R := ⟨trivial, fun _ hp => hp.elim⟩

theorem read {next : ν → Prog π ν} (hp : R p) (h : ∀ v, Confined (next v) R) :
    Confined (.read p next) R := by
  refine ⟨fun v => (h v).separate, ?_⟩
  rintro q (rfl | ⟨v, hq⟩)
  · exact hp
  · exact (h v).touches q hq

theorem write {v : ν} (hp : R p) (h : Confined next R) : Confined (.write p v next) R := by
  refine ⟨h.separate, ?_⟩
  rintro q (rfl | hq)
  · exact hp
  · exact h.touches q hq

theorem andThen (hx : Confined x R) (hy : Confined y R) : Confined (x.andThen y) R :=
  ⟨separate_andThen hx.separate hy.separate,
    fun p hp => (touches_andThen hp).elim (hx.touches p) (hy.touches p)⟩

theorem fork {A B : π → Prop} (hx : Confined x A) (hy : Confined y B) (hAB : ∀ p, A p → ¬ B p)
    (hA : ∀ p, A p → R p) (hB : ∀ p, B p → R p) (hnext : Confined next R) :
    Confined (.fork x y next) R := by
  have hapart : ∀ p, x.Touches p → ¬ y.Touches p :=
    fun p hxp hyp => hAB p (hx.touches p hxp) (hy.touches p hyp)
  refine ⟨⟨hapart, hx.separate, hy.separate, hnext.separate⟩, ?_⟩
  rintro p (hp | hp | hp)
  · exact hA p (hx.touches p hp)
  · exact hB p (hy.touches p hp)
  · exact hnext.touches p hp

theorem run_outside [DecidableEq π] {m n : Memory π ν} (h : Confined x R) (hp : ¬ R p)
    (hrun : x.run m = some n) : n p = m p :=
  ForkJoin.run_outside (fun htouch => hp (h.touches p htouch)) hrun

end Confined

end ComputerSystems.Systems.ForkJoin
