import Mathlib.Algebra.BigOperators.Group.Multiset.Basic
import Mathlib.Algebra.Order.BigOperators.Group.Multiset
import Mathlib.Data.Fintype.BigOperators

/-! Everything that the tasks of a system hold, as one multiset, and what it
becomes when one of them takes or drops something. -/

namespace Holdings

variable {T α : Type*} [Fintype T]

def total (f : T → List α) : Multiset α := ∑ t, (f t : Multiset α)

theorem mem_total {f : T → List α} {x : α} : x ∈ total f ↔ ∃ t, x ∈ f t := by
  simp [total, Multiset.mem_sum]

theorem total_empty : total (fun _ : T => ([] : List α)) = 0 := by
  simp [total]

variable [DecidableEq T]

theorem le_total {f : T → List α} (t : T) : (f t : Multiset α) ≤ total f := by
  rw [total, ← Finset.add_sum_erase Finset.univ _ (Finset.mem_univ t)]
  exact Multiset.le_add_right _ _

theorem add_le_total {f : T → List α} {t u : T} (h : u ≠ t) :
    (f t : Multiset α) + f u ≤ total f := by
  rw [total, ← Finset.add_sum_erase Finset.univ _ (Finset.mem_univ t),
    ← Finset.add_sum_erase (Finset.univ.erase t) _
      (Finset.mem_erase.mpr ⟨h, Finset.mem_univ u⟩), ← add_assoc]
  exact Multiset.le_add_right _ _

theorem total_add {f g : T → List α} (t : T) (h : ∀ u, u ≠ t → g u = f u) :
    total g + (f t : Multiset α) = total f + (g t : Multiset α) := by
  have hg := Finset.add_sum_erase Finset.univ (fun u => (g u : Multiset α)) (Finset.mem_univ t)
  have hf := Finset.add_sum_erase Finset.univ (fun u => (f u : Multiset α)) (Finset.mem_univ t)
  have he : ∑ u ∈ Finset.univ.erase t, (g u : Multiset α) = ∑ u ∈ Finset.univ.erase t,
    (f u : Multiset α) :=
    Finset.sum_congr rfl fun u hu => by rw [h u (Finset.ne_of_mem_erase hu)]
  rw [total, total, ← hg, ← hf, he]
  ac_rfl

theorem total_keep {f g : T → List α} (t : T) (h : ∀ u, u ≠ t → g u = f u) (ht : (g t).Perm (f t)) :
    total g = total f := by
  have hh := total_add t h
  rw [Multiset.coe_eq_coe.mpr ht] at hh
  exact add_right_cancel hh

theorem total_take {f g : T → List α} (t : T) (h : ∀ u, u ≠ t → g u = f u) {x : α}
    (ht : (g t).Perm (x :: f t)) : total g = x ::ₘ total f := by
  have hh := total_add t h
  rw [Multiset.coe_eq_coe.mpr ht, ← Multiset.cons_coe, Multiset.add_cons] at hh
  exact add_right_cancel (hh.trans (Multiset.cons_add _ _ _).symm)

theorem total_drop {f g : T → List α} (t : T) (h : ∀ u, u ≠ t → g u = f u) {x : α}
    (ht : (f t).Perm (x :: g t)) : total f = x ::ₘ total g :=
  total_take t (fun u hu => (h u hu).symm) ht

theorem sum_update {ι : Type*} [DecidableEq ι] {s : Finset ι} {i : ι} (hi : i ∈ s) (φ : α → Nat)
    (a : ι → α) (x : α) :
    ∑ j ∈ s, φ (Function.update a i x j) + φ (a i) = ∑ j ∈ s, φ (a j) + φ x := by
  have he : ∑ j ∈ s.erase i, φ (Function.update a i x j) = ∑ j ∈ s.erase i, φ (a j) :=
    Finset.sum_congr rfl fun j hj => by rw [Function.update_of_ne (Finset.ne_of_mem_erase hj)]
  rw [← Finset.add_sum_erase s _ hi, ← Finset.add_sum_erase s (fun j => φ (a j)) hi, he,
    Function.update_self]
  ac_rfl

end Holdings
