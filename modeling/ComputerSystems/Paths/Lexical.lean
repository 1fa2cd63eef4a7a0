/- Lexical resolution of path names, over any alphabet with a separator and a dot. -/

import Mathlib.Data.List.Basic

set_option autoImplicit false
set_option relaxedAutoImplicit false

namespace ComputerSystems.Paths.Lexical

variable {α : Type} [DecidableEq α] {sep dot : α}

/-- One component: an empty one and `.` stay, and `..` goes up, but not above the start. -/
def step (dot : α) (pos : List (List α)) (c : List α) : List (List α) :=
  if c = [] ∨ c = [dot] then pos else if c = [dot, dot] then pos.dropLast else pos ++ [c]

/-- The place that the components `l` lead to from `pos`. -/
def walk (dot : α) (pos l : List (List α)) : List (List α) :=
  l.foldl (step dot) pos

def resolve (sep dot : α) (p : List α) : List (List α) :=
  walk dot [] (p.splitOn sep)

def firstPart (sep : α) (p : List α) : List α :=
  (p.splitOn sep).headD []

def lastPart (sep : α) (p : List α) : List α :=
  (p.splitOn sep).getLastD []

def Level (dot : α) (l : List (List α)) : Prop :=
  ∀ c ∈ l.dropLast, c ≠ [dot, dot]

/-- The components are all passed over, up to a last one that goes up. -/
def Climbs (dot : α) (l : List (List α)) : Prop :=
  l.getLast? = some [dot, dot] ∧ ∀ c ∈ l, c = [] ∨ c = [dot] ∨ c = [dot, dot]

instance (dot : α) (l : List (List α)) : Decidable (Climbs dot l) :=
  inferInstanceAs (Decidable (_ ∧ _))

section Split

variable {p b : List α}

theorem splitOn_append (b p : List α) :
    (b ++ p).splitOn sep =
      (b.splitOn sep).dropLast ++ (lastPart sep b ++ firstPart sep p) :: (p.splitOn sep).tail := by
  induction b with
  | nil =>
    obtain ⟨h, t, ht⟩ := List.exists_cons_of_ne_nil (List.splitOn_ne_nil sep p)
    simp [lastPart, firstPart, ht]
  | cons x b ih =>
    obtain ⟨h, t, ht⟩ := List.exists_cons_of_ne_nil (List.splitOn_ne_nil sep b)
    rw [List.cons_append, List.splitOn_cons_eq_if_modifyHead, ih,
      List.splitOn_cons_eq_if_modifyHead x b]
    by_cases hx : x = sep
    · simp [hx, lastPart, ht, List.splitOn_cons_eq_if_modifyHead]
    · cases t with
      | nil => simp [hx, lastPart, ht, List.splitOn_cons_eq_if_modifyHead]
      | cons u t => simp [hx, lastPart, ht, List.splitOn_cons_eq_if_modifyHead]

theorem infix_of_mem_dropLast {c : List α} (h : c ∈ (p.splitOn sep).dropLast) :
    c ++ [sep] <:+: p := by
  have hjoin : ∀ l : List (List α), c ∈ l.dropLast → c ++ [sep] <:+: [sep].intercalate l := by
    intro l
    induction l with
    | nil => simp
    | cons a l ih =>
      cases l with
      | nil => simp
      | cons a' l =>
        intro hc
        rw [List.dropLast_cons_cons, List.mem_cons] at hc
        have hsplit : [sep].intercalate (a :: a' :: l) =
            (a ++ [sep]) ++ [sep].intercalate (a' :: l) := by
          simp [List.intercalate]
        rw [hsplit]
        rcases hc with rfl | hc
        · exact (List.prefix_append _ _).isInfix
        · exact (ih hc).trans (List.suffix_append _ _).isInfix
  have hinfix := hjoin _ h
  rwa [List.intercalate_splitOn] at hinfix

theorem level_of_not_infix (h : ¬ [dot, dot, sep] <:+: p) : Level dot (p.splitOn sep) := by
  rintro c hc rfl
  exact h (infix_of_mem_dropLast hc)

end Split

section Walk

variable {pos l : List (List α)} {c : List α}

theorem step_of_ne (h : c ≠ [dot, dot]) (pos : List (List α)) :
    step dot pos c = pos ++ step dot [] c := by
  unfold step
  split
  · exact (List.append_nil _).symm
  · rw [List.nil_append]

theorem step_eq_nil (h : c ≠ [dot, dot]) : step dot [] c = [] ↔ c = [] ∨ c = [dot] := by
  unfold step
  split
  · simp_all
  · simp_all

theorem walk_of_ne (h : ∀ c ∈ l, c ≠ [dot, dot]) (pos : List (List α)) :
    walk dot pos l = pos ++ walk dot [] l := by
  induction l generalizing pos with
  | nil => exact (List.append_nil _).symm
  | cons c l ih =>
    have hc := h c List.mem_cons_self
    have hl : ∀ c ∈ l, c ≠ [dot, dot] := fun b hb => h b (List.mem_cons_of_mem _ hb)
    calc
      walk dot pos (c :: l) = walk dot (pos ++ step dot [] c) l := by
        rw [← step_of_ne hc]
        rfl
      _ = pos ++ (step dot [] c ++ walk dot [] l) := by rw [ih hl, List.append_assoc]
      _ = pos ++ walk dot [] (c :: l) := by
        rw [← ih hl]
        rfl

theorem walk_eq_nil (h : ∀ c ∈ l, c ≠ [dot, dot]) :
    walk dot [] l = [] ↔ ∀ c ∈ l, c = [] ∨ c = [dot] := by
  induction l with
  | nil => simp [walk]
  | cons c l ih =>
    have hc := h c List.mem_cons_self
    have hl : ∀ c ∈ l, c ≠ [dot, dot] := fun b hb => h b (List.mem_cons_of_mem _ hb)
    have hwalk : walk dot [] (c :: l) = step dot [] c ++ walk dot [] l := by
      rw [← walk_of_ne hl]
      rfl
    rw [hwalk, List.append_eq_nil_iff, step_eq_nil hc, ih hl, List.forall_mem_cons]

omit [DecidableEq α] in
theorem Level.tail (h : Level dot (c :: l)) : Level dot l := by
  cases l with
  | nil => simp [Level]
  | cons a l =>
    intro b hb
    apply h b
    rw [List.dropLast_cons_cons]
    exact List.mem_cons_of_mem _ hb

theorem walk_of_level (h : Level dot l) (pos : List (List α)) :
    walk dot pos l = if Climbs dot l then pos.dropLast else pos ++ walk dot [] l := by
  rcases List.eq_nil_or_concat l with rfl | ⟨init, c, rfl⟩
  · simp [walk, Climbs]
  rw [List.concat_eq_append] at h ⊢
  have hinit : ∀ b ∈ init, b ≠ [dot, dot] := fun b hb => h b (by simpa using hb)
  have hlast : ∀ pos, walk dot pos (init ++ [c]) = step dot (pos ++ walk dot [] init) c := by
    intro pos
    rw [← walk_of_ne hinit]
    exact List.foldl_append
  rw [hlast, hlast, List.nil_append]
  by_cases hc : c = [dot, dot]
  · subst hc
    have hclimbs : Climbs dot (init ++ [[dot, dot]]) ↔ walk dot [] init = [] := by
      rw [walk_eq_nil hinit, Climbs]
      constructor
      · rintro ⟨-, hall⟩ b hb
        have hb' := hall b (by simp [hb])
        simpa [hinit b hb] using hb'
      · intro hall
        refine ⟨by simp, fun b hb => ?_⟩
        rcases List.mem_append.mp hb with hb | hb
        · rcases hall b hb with hb | hb
          · exact Or.inl hb
          · exact Or.inr (Or.inl hb)
        · exact Or.inr (Or.inr (List.mem_singleton.mp hb))
    have hup : ∀ pos : List (List α), step dot pos [dot, dot] = pos.dropLast := fun pos => by
      simp [step]
    rw [hup, hup]
    by_cases hnil : walk dot [] init = []
    · rw [if_pos (hclimbs.mpr hnil), hnil, List.append_nil]
    · rw [if_neg (mt hclimbs.mp hnil), List.dropLast_append_of_ne_nil hnil]
  · have hclimbs : ¬ Climbs dot (init ++ [c]) := by
      rintro ⟨hlast, -⟩
      simp at hlast
      exact hc hlast
    rw [if_neg hclimbs, step_of_ne hc, step_of_ne hc (walk dot [] init), List.append_assoc]

end Walk

section Join

variable {b p : List α} {w : List α}

def parent (sep dot : α) (b : List α) : List (List α) :=
  walk dot [] (b.splitOn sep).dropLast

/-- Where `b` and `p`, written one after the other, lead to `b` or to a place below it. -/
def Confined (sep dot : α) (b p : List α) : Prop :=
  resolve sep dot b = [] ∨
  if lastPart sep b = [] ∨ firstPart sep p = [] then ¬ Climbs dot (p.splitOn sep)
  else if lastPart sep b = [dot] then
    firstPart sep p ≠ [dot] ∨
      (walk dot [] (p.splitOn sep).tail).head? = (resolve sep dot b).getLast?
  else lastPart sep b = [dot, dot]

/-- Where `b` and `p`, written one after the other, lead to the entry `w` of `b` or below it. -/
def Enters (sep dot : α) (w b p : List α) : Prop :=
  if lastPart sep b = [] ∨ firstPart sep p = [] then
    (walk dot [] (p.splitOn sep)).head? = some w
  else if lastPart sep b = [dot] then
    firstPart sep p = [dot] ∧
      (parent sep dot b).getLast?.toList ++ [w] <+: walk dot [] (p.splitOn sep).tail
  else lastPart sep b = [dot, dot] ∧ (parent sep dot b).getLast? = some w

instance : Decidable (Confined sep dot b p) :=
  inferInstanceAs (Decidable (_ ∨ ite _ _ _))

theorem resolve_eq (b : List α) :
    resolve sep dot b = step dot (parent sep dot b) (lastPart sep b) := by
  have hne := List.splitOn_ne_nil sep b
  have hlast : lastPart sep b = (b.splitOn sep).getLast hne := by
    rw [lastPart, List.getLastD_eq_getLast?, List.getLast?_eq_some_getLast hne]
    rfl
  rw [resolve, parent, hlast]
  conv_lhs => rw [← List.dropLast_append_getLast hne]
  exact List.foldl_append

theorem resolve_append (b p : List α) :
    resolve sep dot (b ++ p) =
      walk dot (step dot (parent sep dot b) (lastPart sep b ++ firstPart sep p))
        (p.splitOn sep).tail := by
  rw [resolve, splitOn_append]
  exact List.foldl_append

theorem resolve_append_of_sep (h : lastPart sep b = [] ∨ firstPart sep p = []) :
    resolve sep dot (b ++ p) = walk dot (resolve sep dot b) (p.splitOn sep) := by
  obtain ⟨c, l, hp⟩ := List.exists_cons_of_ne_nil (List.splitOn_ne_nil sep p)
  have hfirst : firstPart sep p = c := by rw [firstPart, hp]; rfl
  rw [resolve_append, resolve_eq, hp, List.tail_cons, hfirst]
  rw [hfirst] at h
  rcases h with h | rfl
  · rw [h, List.nil_append]
    simp [walk, step]
  · rw [List.append_nil]
    simp [walk, step]

theorem step_of_name {c : List α} (h : c ≠ [] ∧ c ≠ [dot] ∧ c ≠ [dot, dot])
    (pos : List (List α)) : step dot pos c = pos ++ [c] := by
  rw [step, if_neg (by tauto), if_neg h.2.2]

theorem Climbs.walk_nil {l : List (List α)} (hl : Level dot l) (h : Climbs dot l) :
    walk dot [] l = [] := by
  rw [walk_of_level hl, if_pos h]
  rfl

theorem prefix_dropLast_iff {β : Type} {l : List β} : l <+: l.dropLast ↔ l = [] := by
  constructor
  · intro h
    have hle := h.length_le
    rw [List.length_dropLast] at hle
    exact List.eq_nil_of_length_eq_zero (by omega)
  · rintro rfl
    exact List.nil_prefix

theorem not_append_prefix_dropLast {β : Type} {l e : List β} (he : e ≠ []) :
    ¬ l ++ e <+: l.dropLast := by
  intro h
  have hle := h.length_le
  have hpos := List.length_pos_of_ne_nil he
  rw [List.length_append, List.length_dropLast] at hle
  omega

theorem singleton_prefix_iff {β : Type} {x : β} {l : List β} : [x] <+: l ↔ l.head? = some x := by
  cases l with
  | nil => simp
  | cons y l => simp [eq_comm]

theorem level_tail (h : Level dot (p.splitOn sep)) : Level dot (p.splitOn sep).tail := by
  obtain ⟨c, l, hp⟩ := List.exists_cons_of_ne_nil (List.splitOn_ne_nil sep p)
  rw [hp] at h ⊢
  exact h.tail

/-- From the entry `m` of a place, a level walk does not leave the place. -/
theorem walk_of_entry {l : List (List α)} (h : Level dot l) (pos : List (List α)) (m : List α) :
    ∃ e, walk dot (pos ++ [m]) l = pos ++ e ∧ ∀ x ∈ e.head?, x = m := by
  rw [walk_of_level h]
  split
  · exact ⟨[], by simp, by simp⟩
  · refine ⟨m :: walk dot [] l, by simp, by simp [eq_comm]⟩

/-- Where `b` ends in a name or in `..`, and `p` goes on with it, they lead to an entry next to
that name. -/
theorem resolve_append_of_entry (h : Level dot (p.splitOn sep))
    (hname : lastPart sep b ++ firstPart sep p ≠ [] ∧ lastPart sep b ++ firstPart sep p ≠ [dot] ∧
      lastPart sep b ++ firstPart sep p ≠ [dot, dot]) :
    ∃ e, resolve sep dot (b ++ p) = parent sep dot b ++ e ∧
      ∀ x ∈ e.head?, x = lastPart sep b ++ firstPart sep p := by
  rw [resolve_append, step_of_name hname]
  exact walk_of_entry (level_tail h) _ _

theorem resolve_append_of_dots (h : Level dot (p.splitOn sep)) (hlast : lastPart sep b = [dot])
    (hfirst : firstPart sep p = [dot]) :
    resolve sep dot (b ++ p) =
      if Climbs dot (p.splitOn sep).tail then (parent sep dot b).dropLast.dropLast
      else (parent sep dot b).dropLast ++ walk dot [] (p.splitOn sep).tail := by
  rw [resolve_append, hlast, hfirst, walk_of_level (level_tail h)]
  simp [step]

omit [DecidableEq α] in
theorem name_append {x y : List α} (hx : x ≠ []) (hdot : x ≠ [dot]) (hy : y ≠ []) :
    x ++ y ≠ [] ∧ x ++ y ≠ [dot] ∧ x ++ y ≠ [dot, dot] := by
  cases x with
  | nil => exact absurd rfl hx
  | cons a x =>
    cases y with
    | nil => exact absurd rfl hy
    | cons b y =>
      cases x with
      | nil =>
        refine ⟨by simp, by simp, fun heq => ?_⟩
        cases heq
        exact hdot rfl
      | cons => simp

section Dots

variable {pos l : List (List α)}

theorem dots_prefix_iff (h : Level dot l) (hroot : pos ≠ []) :
    (pos <+: if Climbs dot l then pos.dropLast.dropLast else pos.dropLast ++ walk dot [] l) ↔
      (walk dot [] l).head? = pos.getLast? := by
  rcases List.eq_nil_or_concat pos with rfl | ⟨init, x, rfl⟩
  · exact absurd rfl hroot
  split
  · rename_i hclimbs
    rw [hclimbs.walk_nil h]
    refine iff_of_false (fun hprefix => ?_) (by simp)
    have hle := hprefix.length_le
    simp only [List.concat_eq_append, List.length_append, List.length_singleton,
      List.length_dropLast] at hle
    omega
  · simp [singleton_prefix_iff]

theorem dots_enters_iff {w : List α} (h : Level dot l) :
    (pos ++ [w] <+: if Climbs dot l then pos.dropLast.dropLast else pos.dropLast ++ walk dot [] l) ↔
      pos.getLast?.toList ++ [w] <+: walk dot [] l := by
  split
  · rename_i hclimbs
    rw [hclimbs.walk_nil h]
    refine iff_of_false (fun hprefix => ?_) (by simp)
    have hle := hprefix.length_le
    simp only [List.length_append, List.length_singleton, List.length_dropLast] at hle
    omega
  · rcases List.eq_nil_or_concat pos with rfl | ⟨init, x, rfl⟩
    · simp
    · simp

end Dots

theorem confined_iff (h : Level dot (p.splitOn sep)) :
    resolve sep dot b <+: resolve sep dot (b ++ p) ↔ Confined sep dot b p := by
  unfold Confined
  by_cases hroot : resolve sep dot b = []
  · simp [hroot]
  rw [or_iff_right hroot]
  split
  · rename_i hsep
    rw [resolve_append_of_sep hsep, walk_of_level h]
    split
    · rename_i hclimbs
      rw [prefix_dropLast_iff]
      exact iff_of_false hroot (not_not_intro hclimbs)
    · rename_i hclimbs
      exact iff_of_true (List.prefix_append _ _) hclimbs
  rename_i hsep
  obtain ⟨hlast, hfirst⟩ := not_or.mp hsep
  have hresolve : resolve sep dot b = step dot (parent sep dot b) (lastPart sep b) := resolve_eq b
  split
  · rename_i hdot
    have hparent : resolve sep dot b = parent sep dot b := by rw [hresolve, hdot]; simp [step]
    by_cases hdots : firstPart sep p = [dot]
    · rw [resolve_append_of_dots h hdot hdots, hparent, or_iff_right (not_not_intro hdots)]
      rw [hparent] at hroot
      exact dots_prefix_iff (level_tail h) hroot
    · obtain ⟨e, he, -⟩ := resolve_append_of_entry (b := b) h (by simp [hdot, hfirst, hdots])
      rw [he, hparent]
      exact iff_of_true (List.prefix_append _ _) (Or.inl hdots)
  · rename_i hdot
    by_cases hup : lastPart sep b = [dot, dot]
    · have hparent : resolve sep dot b = (parent sep dot b).dropLast := by
        rw [hresolve, hup]
        simp [step]
      obtain ⟨e, he, -⟩ := resolve_append_of_entry (b := b) h (by simp [hup, hfirst])
      rw [he, hparent]
      exact iff_of_true ((List.dropLast_prefix _).trans (List.prefix_append _ _)) hup
    · rw [step_of_name ⟨hlast, hdot, hup⟩] at hresolve
      obtain ⟨e, he, hhead⟩ := resolve_append_of_entry (b := b) h (name_append hlast hdot hfirst)
      rw [he, hresolve, List.prefix_append_right_inj, singleton_prefix_iff]
      refine iff_of_false (fun hx => ?_) hup
      have hsame := hhead _ hx
      simp [hfirst] at hsame

theorem enters_iff (h : Level dot (p.splitOn sep)) (hw : w ≠ [] ∧ w.head? ≠ some dot) :
    resolve sep dot b ++ [w] <+: resolve sep dot (b ++ p) ↔ Enters sep dot w b p := by
  unfold Enters
  have hdotted : ∀ x : List α, w ≠ dot :: x := fun x hx => hw.2 (by rw [hx]; rfl)
  split
  · rename_i hsep
    rw [resolve_append_of_sep hsep, walk_of_level h]
    split
    · rename_i hclimbs
      rw [hclimbs.walk_nil h]
      exact iff_of_false (not_append_prefix_dropLast (by simp)) (by simp)
    · rw [List.prefix_append_right_inj, singleton_prefix_iff]
  rename_i hsep
  obtain ⟨hlast, hfirst⟩ := not_or.mp hsep
  have hresolve : resolve sep dot b = step dot (parent sep dot b) (lastPart sep b) := resolve_eq b
  split
  · rename_i hdot
    have hparent : resolve sep dot b = parent sep dot b := by rw [hresolve, hdot]; simp [step]
    by_cases hdots : firstPart sep p = [dot]
    · rw [resolve_append_of_dots h hdot hdots, hparent, and_iff_right hdots]
      exact dots_enters_iff (level_tail h)
    · obtain ⟨e, he, hhead⟩ :=
        resolve_append_of_entry (b := b) h (by simp [hdot, hfirst, hdots])
      rw [he, hparent, List.prefix_append_right_inj, singleton_prefix_iff]
      refine iff_of_false (fun hx => ?_) (fun hx => hdots hx.1)
      exact hdotted (firstPart sep p) (by simpa [hdot] using hhead _ hx)
  · rename_i hdot
    by_cases hup : lastPart sep b = [dot, dot]
    · have hparent : resolve sep dot b = (parent sep dot b).dropLast := by
        rw [hresolve, hup]
        simp [step]
      obtain ⟨e, he, hhead⟩ := resolve_append_of_entry (b := b) h (by simp [hup, hfirst])
      rw [he, hparent, and_iff_right hup]
      rcases List.eq_nil_or_concat (parent sep dot b) with hnil | ⟨init, x, hx⟩
      · rw [hnil]
        simp only [List.dropLast_nil, List.nil_append, singleton_prefix_iff, List.getLast?_nil,
          reduceCtorEq, iff_false]
        intro hx
        exact hdotted (dot :: firstPart sep p) (by simpa [hup] using hhead _ hx)
      · simp [hx, eq_comm]
    · rw [step_of_name ⟨hlast, hdot, hup⟩] at hresolve
      obtain ⟨e, he, hhead⟩ := resolve_append_of_entry (b := b) h (name_append hlast hdot hfirst)
      rw [he, hresolve, List.append_assoc, List.prefix_append_right_inj]
      refine iff_of_false (fun hx => ?_) (fun hx => hup hx.1)
      obtain ⟨e', he'⟩ := hx
      have hsame := hhead (lastPart sep b) (by rw [← he']; rfl)
      simp [hfirst] at hsame

end Join

end ComputerSystems.Paths.Lexical
