import Gpos.Chain

/-! Queues in ascending sweeps. An element is put into the first gap behind the
head into which it fits, also where one sweep ends and the next one begins. -/

namespace Sweep

variable {α : Type*}

/-- The number of places at which an element is not before its successor. -/
def descents (lt : α → α → Bool) : List α → Nat
  | a :: b :: l => (if lt a b then 0 else 1) + descents lt (b :: l)
  | _ => 0

/-- The sweep that begins with `a`, behind `a`. -/
def sweep (lt : α → α → Bool) : α → List α → List α
  | _, [] => []
  | a, b :: l => if lt a b then b :: sweep lt b l else []

/-- The gap between `tmp` and `nx` is one for `r`. -/
def fits (lt : α → α → Bool) (r tmp nx : α) : Bool := (lt tmp r || !lt tmp nx) && lt r nx

/-- The elements for which `late` holds are behind the others. -/
def LateLast (late : α → Prop) (l : List α) : Prop := l.Pairwise fun x y => late x → late y

section

variable {lt : α → α → Bool} {a r : α} {l : List α}

theorem descents_cons_cons (b : α) :
    descents lt (a :: b :: l) = (if lt a b then 0 else 1) + descents lt (b :: l) := rfl

theorem descents_tail : descents lt l ≤ descents lt (a :: l) := by
  cases l with
  | nil => exact Nat.le_refl _
  | cons b l => exact Nat.le_add_left ..

theorem descents_congr {lt' : α → α → Bool} (hn : l.Nodup)
    (h : ∀ x ∈ l, ∀ y ∈ l, x ≠ y → lt' x y = lt x y) : descents lt' l = descents lt l := by
  induction l with
  | nil => rfl
  | cons a l ih =>
    have hl :=
      ih (List.nodup_cons.mp hn).2 fun x hx y hy =>
        h x (List.mem_cons_of_mem a hx) y (List.mem_cons_of_mem a hy)
    cases l with
    | nil => rfl
    | cons b l =>
      have hab : a ≠ b := fun e => (List.nodup_cons.mp hn).1 (by simp [e])
      rw [descents_cons_cons, descents_cons_cons, hl, h a (by simp) b (by simp) hab]

theorem mem_of_mem_sweep {x : α} (h : x ∈ sweep lt a l) : x ∈ l := by
  induction l generalizing a with
  | nil => exact h
  | cons b l ih =>
    rw [sweep] at h
    split at h
    · rcases List.mem_cons.mp h with rfl | h
      · exact List.mem_cons_self
      · exact List.mem_cons_of_mem b (ih h)
    · cases h

theorem sweep_congr {lt' : α → α → Bool} (h : ∀ x ∈ a :: l, ∀ y ∈ a :: l, lt' x y = lt x y) :
    sweep lt' a l = sweep lt a l := by
  induction l generalizing a with
  | nil => rfl
  | cons b l ih =>
    rw [sweep, sweep, h a (by simp) b (by simp)]
    split
    · rw [ih fun x hx y hy => h x (List.mem_cons_of_mem a hx) y (List.mem_cons_of_mem a hy)]
    · rfl

/-- An element behind `a` in a sweep goes into the same sweep. -/
theorem descents_place_sweep (ht : ∀ x ∈ l, lt x r ∨ lt r x) (hl : descents lt (a :: l) = 0)
    (ha : lt a r) : descents lt (a :: Chain.place (fits lt r) r a l) = 0 := by
  induction l generalizing a with
  | nil => simp [Chain.place, descents, ha]
  | cons b l ih =>
    simp only [descents_cons_cons, Nat.add_eq_zero_iff] at hl
    have hab : lt a b = true := by
      by_contra hne
      simp [hne] at hl
    rw [Chain.place]
    split
    next hf =>
      have hrb : lt r b = true := by simp [fits] at hf; exact hf.2
      simp [descents_cons_cons, ha, hrb, hl.2]
    next hf =>
      have hbr : lt b r = true :=
        (ht b (by simp)).resolve_right fun hrb => hf (by simp [fits, ha, hrb])
      rw [descents_cons_cons, if_pos hab,
        ih (fun x hx => ht x (List.mem_cons_of_mem b hx)) hl.2 hbr]

theorem descents_place (ht : ∀ x ∈ l, lt x r ∨ lt r x) (hl : descents lt (a :: l) ≤ 1) :
    descents lt (a :: Chain.place (fits lt r) r a l) ≤ 1 := by
  induction l generalizing a with
  | nil =>
    rw [Chain.place, descents_cons_cons]
    split <;> simp [descents]
  | cons b l ih =>
    rw [descents_cons_cons] at hl
    have htl : ∀ x ∈ l, lt x r ∨ lt r x := fun x hx => ht x (List.mem_cons_of_mem b hx)
    rw [Chain.place]
    split
    next hf =>
      simp only [fits, Bool.and_eq_true, Bool.or_eq_true, Bool.not_eq_true'] at hf
      rw [descents_cons_cons, descents_cons_cons, if_pos hf.2]
      rcases hf.1 with har | hab
      · rw [if_pos har]
        omega
      · rw [hab] at hl
        have hone : (if lt a r then 0 else 1) ≤ 1 := by split <;> omega
        rw [if_neg Bool.false_ne_true] at hl
        omega
    next hf =>
      rw [descents_cons_cons]
      by_cases hab : lt a b = true
      · rw [if_pos hab] at hl ⊢
        have hrest := ih (a := b) htl (by omega)
        omega
      · -- The first sweep ends here, and the element belongs to the second one.
        have hbr : lt b r = true :=
          (ht b (by simp)).resolve_right fun hrb => hf (by simp [fits, hab, hrb])
        rw [if_neg hab] at hl ⊢
        have hrest := descents_place_sweep htl (by omega) hbr
        omega

theorem pairwise_of_descents (htrans : ∀ x y z, lt x y → lt y z → lt x z) (h : descents lt l = 0) :
    l.Pairwise fun x y => lt x y := by
  induction l with
  | nil => exact List.Pairwise.nil
  | cons a l ih =>
    have htail : descents lt l = 0 := Nat.eq_zero_of_le_zero (h ▸ descents_tail)
    refine List.pairwise_cons.mpr ⟨fun x hx => ?_, ih htail⟩
    cases l with
    | nil => cases hx
    | cons b l =>
      have hab : lt a b = true := by
        by_contra hne
        simp [descents_cons_cons, hne] at h
      rcases List.mem_cons.mp hx with rfl | hx
      · exact hab
      · exact htrans a b x hab ((List.pairwise_cons.mp (ih htail)).1 x hx)

theorem two_sweeps (htrans : ∀ x y z, lt x y → lt y z → lt x z) (h : descents lt l ≤ 1) :
    ∃ l₁ l₂, l = l₁ ++ l₂ ∧ (l₁.Pairwise fun x y => lt x y) ∧ l₂.Pairwise fun x y => lt x y := by
  induction l with
  | nil => exact ⟨[], [], rfl, List.Pairwise.nil, List.Pairwise.nil⟩
  | cons a l ih =>
    cases l with
    | nil => exact ⟨[], [a], rfl, List.Pairwise.nil, List.pairwise_singleton _ _⟩
    | cons b l =>
      rw [descents_cons_cons] at h
      by_cases hab : lt a b = true
      · obtain ⟨l₁, l₂, he, h₁, h₂⟩ := ih (by rw [if_pos hab] at h; omega)
        cases l₁ with
        | nil =>
          refine ⟨[a], b :: l, rfl, List.pairwise_singleton _ _, ?_⟩
          rw [he]
          exact h₂
        | cons b' l₁ =>
          obtain ⟨rfl, rfl⟩ := List.cons.inj he
          refine ⟨a :: b :: l₁, l₂, rfl, List.pairwise_cons.mpr ⟨fun x hx => ?_, h₁⟩, h₂⟩
          rcases List.mem_cons.mp hx with rfl | hx
          · exact hab
          · exact htrans a b x hab ((List.pairwise_cons.mp h₁).1 x hx)
      · rw [if_neg hab] at h
        exact ⟨[a], b :: l, rfl, List.pairwise_singleton _ _,
          pairwise_of_descents htrans (by omega)⟩

end

section

variable {lt : α → α → Bool} {late : α → Prop} {a r : α} {l : List α}

theorem LateLast.tail (h : LateLast late (a :: l)) : LateLast late l := (List.pairwise_cons.mp h).2

/-- A late element is never put before one that is not late. -/
theorem LateLast.place_late (hlt : ∀ x y, lt x y → late x → late y) (hr : late r)
    (h : LateLast late l) : LateLast late (Chain.place (fits lt r) r a l) := by
  induction l generalizing a with
  | nil => exact List.pairwise_singleton _ _
  | cons b l ih =>
    rw [Chain.place]
    split
    next hf =>
      have hb : late b := hlt r b (by simp [fits] at hf; exact hf.2) hr
      refine List.pairwise_cons.mpr ⟨fun x hx _ => ?_, h⟩
      rcases List.mem_cons.mp hx with rfl | hx
      · exact hb
      · exact (List.pairwise_cons.mp h).1 x hx hb
    next =>
      refine List.pairwise_cons.mpr ⟨fun x hx hb => ?_, ih h.tail⟩
      rcases Chain.mem_place.mp hx with rfl | hx
      · exact hr
      · exact (List.pairwise_cons.mp h).1 x hx hb

/-- Unless a late element waits in the sweep of `a`, or behind a gap for `r`, an element
that is not late is put before all that are. -/
theorem LateLast.place (hlate : ∀ x, late x → lt r x) (ht : ∀ x ∈ l, lt x r ∨ lt r x)
    (h : LateLast late l) (hr : ¬ late r) (ha : lt a r ∨ ∀ x ∈ sweep lt a l, ¬ late x) :
    LateLast late (Chain.place (fits lt r) r a l) := by
  induction l generalizing a with
  | nil => exact List.pairwise_singleton _ _
  | cons b l ih =>
    rw [Chain.place]
    split
    next => exact List.pairwise_cons.mpr ⟨fun x _ hx => absurd hx hr, h⟩
    next hf =>
      have hgap : lt r b → lt a r = false ∧ lt a b = true := by
        intro hrb
        simpa [fits, hrb] using hf
      have hb : ¬ late b := by
        intro hb
        obtain ⟨har, hab⟩ := hgap (hlate b hb)
        refine ha.elim (by simp [har]) fun hs => hs b ?_ hb
        simp [sweep, hab]
      refine List.pairwise_cons.mpr ⟨fun x _ hx => absurd hx hb,
        ih (fun x hx => ht x (List.mem_cons_of_mem b hx)) h.tail ?_⟩
      rcases ht b (by simp) with hbr | hrb
      · exact Or.inl hbr
      · obtain ⟨har, hab⟩ := hgap hrb
        refine Or.inr fun x hx => ha.elim (by simp [har]) fun hs => hs x ?_
        rw [sweep, if_pos hab]
        exact List.mem_cons_of_mem b hx

/-- The other way round: behind a late element of the sweep of `a`, an element
that is before `a` finds no gap in time. -/
theorem not_lateLast_place (htrans : ∀ x y z, lt x y → lt y z → lt x z)
    (hasymm : ∀ x y, lt x y → lt y x = false) (hr : ¬ late r) (ha : lt r a) {w : α}
    (hw : w ∈ sweep lt a l) (hlate : late w) : ¬ LateLast late (Chain.place (fits lt r) r a l) := by
  induction l generalizing a with
  | nil => cases hw
  | cons b l ih =>
    rw [sweep] at hw
    split at hw
    next hab =>
      rw [Chain.place, if_neg (by simp [fits, hab, hasymm r a ha])]
      intro h
      rcases List.mem_cons.mp hw with rfl | hw
      · exact hr ((List.pairwise_cons.mp h).1 r (Chain.mem_place.mpr (Or.inl rfl)) hlate)
      · exact ih (htrans r a b ha hab) hw h.tail
    next => cases hw

end

end Sweep
