import Mathlib.Data.List.Basic

/-! Lists that are merged from several sources, with the source of each element. -/

namespace Merged

variable {ι α : Type*}

/-- The elements of a merged list that are from `i`. -/
def part [DecidableEq ι] (l : List (ι × α)) (i : ι) : List α :=
  (l.filter fun x => x.1 = i).map Prod.snd

def tagged (i : ι) (xs : List α) : List (ι × α) := xs.map fun x => (i, x)

theorem map_tagged (i : ι) (xs : List α) : (tagged i xs).map Prod.snd = xs := by
  rw [tagged, List.map_map]
  exact List.map_id xs

variable [DecidableEq ι]

theorem part_append (l l' : List (ι × α)) (i : ι) : part (l ++ l') i = part l i ++ part l' i := by
  rw [part, List.filter_append, List.map_append]
  rfl

theorem part_tagged (i : ι) (xs : List α) : part (tagged i xs) i = xs := by
  rw [part, List.filter_eq_self.mpr, map_tagged]
  simp [tagged]

theorem part_tagged_of_ne {i j : ι} (h : i ≠ j) (xs : List α) : part (tagged i xs) j = [] := by
  rw [part, List.filter_eq_nil_iff.mpr]
  · rfl
  · simp [tagged, h]

end Merged
