/- Tables from keys to values, and how many of their values have a property. -/

import Mathlib.Data.List.AList

set_option autoImplicit false
set_option relaxedAutoImplicit false

namespace ComputerSystems.Systems.Tables

abbrev Table (κ ω : Type) := AList fun _ : κ => ω

variable {κ ω : Type} [DecidableEq κ] {t : Table κ ω} {k : κ} {v : ω} {p : ω → Prop}
variable [DecidablePred p]

/-- The number of values with the property `p`. -/
def Table.count (t : Table κ ω) (p : ω → Prop) [DecidablePred p] : Nat :=
  t.entries.countP fun e => p e.2

omit [DecidableEq κ] in
@[simp] theorem count_empty : Table.count (∅ : Table κ ω) p = 0 := rfl

theorem count_insert (h : t.lookup k = none) :
    Table.count (t.insert k v) p = Table.count t p + if p v then 1 else 0 := by
  rw [AList.lookup_eq_none] at h
  rw [Table.count, AList.entries_insert_of_notMem h, List.countP_cons]
  simp only [decide_eq_true_eq, Table.count]

theorem count_erase (h : t.lookup k = some v) :
    Table.count (t.erase k) p + (if p v then 1 else 0) = Table.count t p := by
  have hkey : k ∈ t.entries.keys := AList.lookup_isSome.mp (by rw [h]; rfl)
  obtain ⟨v', before, after, hfresh, hentries, herase⟩ := List.exists_of_kerase hkey
  have hmem : (⟨k, v⟩ : Sigma fun _ : κ => ω) ∈ t.entries := AList.mem_lookup_iff.mp h
  have hmem' : (⟨k, v'⟩ : Sigma fun _ : κ => ω) ∈ t.entries := by
    rw [hentries]
    exact List.mem_append_right _ List.mem_cons_self
  obtain rfl : v = v' := eq_of_heq (Sigma.mk.inj (t.nodupKeys.eq_of_fst_eq hmem hmem' rfl)).2
  have herased : (t.erase k).entries = before ++ after := herase
  rw [Table.count, Table.count, herased, hentries, List.countP_append, List.countP_append,
    List.countP_cons]
  simp only [decide_eq_true_eq]
  omega

theorem count_pos_iff : 0 < Table.count t p ↔ ∃ k v, t.lookup k = some v ∧ p v := by
  rw [Table.count, List.countP_pos_iff]
  constructor
  · rintro ⟨⟨k, v⟩, hmem, hp⟩
    exact ⟨k, v, AList.mem_lookup_iff.mpr hmem, of_decide_eq_true hp⟩
  · rintro ⟨k, v, hlookup, hp⟩
    exact ⟨⟨k, v⟩, AList.mem_lookup_iff.mp hlookup, decide_eq_true hp⟩

theorem count_eq_zero_iff : Table.count t p = 0 ↔ ∀ k v, t.lookup k = some v → ¬ p v := by
  constructor
  · intro hzero k v hlookup hp
    have hpos := count_pos_iff.mpr ⟨k, v, hlookup, hp⟩
    omega
  · intro hnone
    by_contra hne
    obtain ⟨k, v, hlookup, hp⟩ := count_pos_iff.mp (Nat.pos_of_ne_zero hne)
    exact hnone k v hlookup hp

theorem count_pos (h : t.lookup k = some v) (hp : p v) : 0 < Table.count t p :=
  count_pos_iff.mpr ⟨k, v, h, hp⟩

theorem lookup_erase_eq_some {k' : κ} :
    (t.erase k').lookup k = some v ↔ k ≠ k' ∧ t.lookup k = some v := by
  by_cases hk : k = k'
  · subst hk
    simp
  · rw [AList.lookup_erase_ne hk]
    simp [hk]

theorem lookup_insert_eq_some {k' : κ} {v' : ω} :
    (t.insert k' v').lookup k = some v ↔ k = k' ∧ v' = v ∨ k ≠ k' ∧ t.lookup k = some v := by
  by_cases hk : k = k'
  · subst hk
    simp
  · rw [AList.lookup_insert_ne hk]
    simp [hk]

end ComputerSystems.Systems.Tables
