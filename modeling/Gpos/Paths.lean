import Mathlib.Data.List.Chain
import Mathlib.Logic.Relation

/-! Paths of a relation: the last visit to a vertex, and simple paths. -/

namespace Paths

open Relation

variable {V : Type*} {R : V → V → Prop}

/-- The edges of `R` that do not start in `v`. -/
def Avoiding (R : V → V → Prop) (v a b : V) : Prop := R a b ∧ a ≠ v

/-- A path either never leaves `v`, or it can be cut at its last visit to `v`. -/
theorem avoiding_or_through {a b : V} (v : V) (h : ReflTransGen R a b) :
    ReflTransGen (Avoiding R v) a b ∨ ∃ c, R v c ∧ ReflTransGen (Avoiding R v) c b := by
  induction h with
  | refl => exact .inl .refl
  | @tail m c _ hr ih =>
    by_cases hm : m = v
    · subst m
      exact .inr ⟨c, hr, .refl⟩
    · rcases ih with ih | ⟨d, hd, ih⟩
      · exact .inl (ih.tail ⟨hr, hm⟩)
      · exact .inr ⟨d, hd, ih.tail ⟨hr, hm⟩⟩

theorem reach_of_avoiding {v a b : V} (h : ReflTransGen (Avoiding R v) a b) : ReflTransGen R a b :=
  ReflTransGen.mono (fun _ _ hr => hr.1 : Avoiding R v ≤ R) _ _ h

/-- Every path can be shortened to one that visits no vertex twice. -/
theorem exists_simple {a b : V} (h : ReflTransGen R a b) :
    ∃ l : List V, (a :: l).Nodup ∧ (a :: l).IsChain R ∧ (a :: l).getLast (by simp) = b := by
  induction h using ReflTransGen.head_induction_on with
  | refl => exact ⟨[], by simp, by simp, rfl⟩
  | @head a c hr _ ih =>
    obtain ⟨l, hnd, hc, hl⟩ := ih
    by_cases ha : a ∈ c :: l
    · obtain ⟨pre, post, hs⟩ := List.append_of_mem ha
      refine ⟨post, ?_, ?_, ?_⟩
      · exact (hs ▸ hnd).sublist (List.sublist_append_right _ _)
      · exact (List.isChain_append.mp (hs ▸ hc)).2.1
      · simpa only [hs, List.getLast_append_of_ne_nil _ (List.cons_ne_nil a post)] using hl
    · exact ⟨c :: l, List.nodup_cons.mpr ⟨ha, hnd⟩, List.isChain_cons_cons.mpr ⟨hr, hc⟩,
        by simpa using hl⟩

end Paths
