/- Computations with a state that can fail: what a sequence does when its first part is known. -/

set_option autoImplicit false
set_option relaxedAutoImplicit false

namespace ComputerSystems.Systems.Computations

variable {σ ε α β : Type} {s t : σ} {x : StateT σ (Except ε) α} {f : α → StateT σ (Except ε) β}

theorem bind_ok {a : α} (h : x s = .ok (a, t)) : (x >>= f) s = f a t := by
  change (x s).bind (fun p => f p.1 p.2) = _
  rw [h]
  rfl

theorem bind_error {e : ε} (h : x s = .error e) : (x >>= f) s = .error e := by
  change (x s).bind (fun p => f p.1 p.2) = _
  rw [h]
  rfl

theorem pure_ok (a : α) : (pure a : StateT σ (Except ε) α) s = .ok (a, s) := rfl

theorem get_ok : (get : StateT σ (Except ε) σ) s = .ok (s, s) := rfl

theorem set_ok : (set t : StateT σ (Except ε) PUnit) s = .ok (⟨⟩, t) := rfl

theorem lift_ok {r : Except ε α} {a : α} (h : r = .ok a) :
    (liftM r : StateT σ (Except ε) α) s = .ok (a, s) := by
  rw [h]
  rfl

theorem lift_error {r : Except ε α} {e : ε} (h : r = .error e) :
    (liftM r : StateT σ (Except ε) α) s = .error e := by
  rw [h]
  rfl

theorem bind_inv {b : β} (h : (x >>= f) s = .ok (b, t)) :
    ∃ a u, x s = .ok (a, u) ∧ f a u = .ok (b, t) := by
  change (x s).bind (fun p => f p.1 p.2) = _ at h
  cases hx : x s with
  | error e =>
    rw [hx] at h
    cases h
  | ok p =>
    rw [hx] at h
    exact ⟨p.1, p.2, rfl, h⟩

theorem get_bind_inv {f : σ → StateT σ (Except ε) β} {b : β} (h : (get >>= f) s = .ok (b, t)) :
    f s s = .ok (b, t) :=
  h

theorem set_bind_inv {u : σ} {f : PUnit → StateT σ (Except ε) β} {b : β}
    (h : (set u >>= f) s = .ok (b, t)) : f ⟨⟩ u = .ok (b, t) :=
  h

theorem lift_bind_inv {r : Except ε α} {b : β} (h : (liftM r >>= f) s = .ok (b, t)) :
    ∃ a, r = .ok a ∧ f a s = .ok (b, t) := by
  cases r with
  | error e => cases h
  | ok a => exact ⟨a, rfl, h⟩

theorem except_inv {x : Except ε α} {f : α → Except ε β} {b : β} (h : (x >>= f) = .ok b) :
    ∃ a, x = .ok a ∧ f a = .ok b := by
  cases hx : x with
  | error e =>
    rw [hx] at h
    cases h
  | ok a =>
    rw [hx] at h
    exact ⟨a, rfl, h⟩

section Ends

variable {e e' : ε} {a : α} {r : Except ε α} {Q Q' : α → σ → Prop} {R : β → σ → Prop}

/-- The computation does not fail with `e`, and if it ends, it ends as `Q` says. -/
def Ends (e : ε) (x : StateT σ (Except ε) α) (s : σ) (Q : α → σ → Prop) : Prop :=
  x s ≠ .error e ∧ ∀ a t, x s = .ok (a, t) → Q a t

theorem Ends.ok (h : x s = .ok (a, t)) (hQ : Q a t) : Ends e x s Q := by
  refine ⟨fun herror => ?_, fun b u hok => ?_⟩
  · rw [h] at herror
    cases herror
  · rw [h] at hok
    cases hok
    exact hQ

theorem Ends.stop (h : x s = .error e') (hne : e' ≠ e) : Ends e x s Q := by
  refine ⟨fun herror => ?_, fun b u hok => ?_⟩
  · rw [h] at herror
    cases herror
    exact hne rfl
  · rw [h] at hok
    cases hok

theorem Ends.mono (h : Ends e x s Q) (hsub : ∀ a t, Q a t → Q' a t) : Ends e x s Q' :=
  ⟨h.1, fun a t hok => hsub a t (h.2 a t hok)⟩

theorem Ends.bind (h : Ends e x s Q) (hf : ∀ a t, Q a t → Ends e (f a) t R) :
    Ends e (x >>= f) s R := by
  cases hx : x s with
  | error e₁ =>
    refine Ends.stop (bind_error hx) ?_
    rintro rfl
    exact h.1 hx
  | ok p =>
    have hrest := hf p.1 p.2 (h.2 p.1 p.2 hx)
    unfold Ends at hrest ⊢
    rwa [bind_ok hx]

theorem Ends.after (h : x s = .ok (a, t)) (hf : Ends e (f a) t R) : Ends e (x >>= f) s R := by
  unfold Ends at hf ⊢
  rwa [bind_ok h]

theorem Ends.pure (h : Q a s) : Ends e (Pure.pure a) s Q :=
  Ends.ok (pure_ok a) h

theorem Ends.lift (h : r ≠ .error e) (hQ : ∀ a, r = .ok a → Q a s) : Ends e (liftM r) s Q := by
  cases hr : r with
  | error e₁ =>
    refine Ends.stop (lift_error rfl) ?_
    rintro rfl
    exact h hr
  | ok a => exact Ends.ok (lift_ok rfl) (hQ a hr)

theorem Ends.lift_bind (h : r ≠ .error e) (hf : ∀ a, r = .ok a → Ends e (f a) s R) :
    Ends e (liftM r >>= f) s R := by
  refine Ends.bind (Q := fun a t => r = .ok a ∧ t = s) (Ends.lift h fun a ha => ⟨ha, rfl⟩) ?_
  rintro a t ⟨ha, rfl⟩
  exact hf a ha

theorem ok_ne : (.ok a : Except ε α) ≠ .error e := by
  intro h
  cases h

theorem error_ne (h : e' ≠ e) : (.error e' : Except ε α) ≠ .error e :=
  mt Except.error.inj h

theorem except_bind_ne {f : α → Except ε β} (h : r ≠ .error e)
    (hf : ∀ a, r = .ok a → f a ≠ .error e) : (r >>= f) ≠ .error e := by
  cases hr : r with
  | error e₁ =>
    intro herror
    cases herror
    exact h hr
  | ok a => exact hf a hr

end Ends

section Yields

variable {a : α} {r : Except ε α} {Q Q' : α → σ → Prop} {R : β → σ → Prop}

/-- The computation succeeds, and ends as `Q` says. -/
def Yields (x : StateT σ (Except ε) α) (s : σ) (Q : α → σ → Prop) : Prop :=
  ∃ a t, x s = .ok (a, t) ∧ Q a t

theorem Yields.ok (h : x s = .ok (a, t)) (hQ : Q a t) : Yields x s Q := ⟨a, t, h, hQ⟩

theorem Yields.mono (h : Yields x s Q) (hsub : ∀ a t, Q a t → Q' a t) : Yields x s Q' := by
  obtain ⟨a, t, hok, hQ⟩ := h
  exact ⟨a, t, hok, hsub a t hQ⟩

theorem Yields.bind (h : Yields x s Q) (hf : ∀ a t, Q a t → Yields (f a) t R) :
    Yields (x >>= f) s R := by
  obtain ⟨a, t, hok, hQ⟩ := h
  obtain ⟨b, u, hrest, hR⟩ := hf a t hQ
  exact ⟨b, u, (bind_ok hok).trans hrest, hR⟩

theorem Yields.after (h : x s = .ok (a, t)) (hf : Yields (f a) t R) : Yields (x >>= f) s R := by
  unfold Yields at hf ⊢
  rwa [bind_ok h]

theorem Yields.lift_bind (h : r = .ok a) (hf : Yields (f a) s R) : Yields (liftM r >>= f) s R :=
  Yields.after (lift_ok h) hf

end Yields

end ComputerSystems.Systems.Computations
