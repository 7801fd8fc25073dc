import Mathlib.Data.List.Chain
import Mathlib.Data.List.Nodup

/-! Circular doubly linked lists over arbitrary nodes. A list that ends in a
null pointer is the ring that also contains the null pointer as a node, so
unlinking and inserting are proved once for both shapes. -/

namespace Links

variable {N : Type*}

def Linked (nx pv : N → N) (l : List N) : Prop :=
  l.IsChain fun a b => nx a = b ∧ pv b = a

/-- Following `nx` from any node visits the list and comes back, and `pv` undoes it. -/
def Ring (nx pv : N → N) : List N → Prop
  | [] => True
  | x :: l => Linked nx pv (x :: l ++ [x])

theorem linked_pair {nx pv : N → N} {a b : N} : Linked nx pv [a, b] ↔ nx a = b ∧ pv b = a :=
  List.isChain_pair

theorem linked_append {nx pv : N → N} (l : List N) (x : N) (m : List N) :
    Linked nx pv (l ++ x :: m) ↔ Linked nx pv (l ++ [x]) ∧ Linked nx pv (x :: m) := by
  unfold Linked
  simp only [List.isChain_append]
  constructor
  · rintro ⟨hl, hm, hx⟩
    exact ⟨⟨hl, by simp, hx⟩, hm⟩
  · rintro ⟨⟨hl, -, hx⟩, hm⟩
    exact ⟨hl, hm, hx⟩

theorem Linked.congr {nx pv nx' pv' : N → N} {l : List N} (h : Linked nx pv l)
    (hl : ∀ a ∈ l, nx' a = nx a ∧ pv' a = pv a) : Linked nx' pv' l :=
  List.IsChain.imp_of_mem_imp
    (fun a b ha hb hab => ⟨(hl a ha).1.trans hab.1, (hl b hb).2.trans hab.2⟩) h

theorem Ring.rotate {nx pv : N → N} {x : N} {l : List N} (h : Ring nx pv (x :: l)) :
    Ring nx pv (l ++ [x]) := by
  cases l with
  | nil => exact h
  | cons y l =>
    have hh : (nx x = y ∧ pv y = x) ∧ Linked nx pv (y :: l ++ [x]) := List.isChain_cons_cons.mp h
    change Linked nx pv (y :: (l ++ [x]) ++ [y])
    rw [show y :: (l ++ [x]) ++ [y] = (y :: l) ++ x :: [y] by simp, linked_append]
    exact ⟨hh.2, linked_pair.mpr hh.1⟩

theorem Ring.append_comm {nx pv : N → N} (l m : List N) (h : Ring nx pv (l ++ m)) :
    Ring nx pv (m ++ l) := by
  induction l generalizing m with
  | nil => simpa using h
  | cons x l ih =>
    have hh := ih (m ++ [x]) (by simpa using h.rotate)
    simpa using hh

theorem Ring.congr {nx pv nx' pv' : N → N} {l : List N} (h : Ring nx pv l)
    (hl : ∀ a ∈ l, nx' a = nx a ∧ pv' a = pv a) : Ring nx' pv' l := by
  cases l with
  | nil => trivial
  | cons x l =>
    refine Linked.congr h fun a ha => hl a ?_
    simpa [or_comm, or_assoc] using ha

theorem Ring.turn {nx pv : N → N} {l : List N} {a : N} (h : Ring nx pv l) (ha : a ∈ l) :
    ∃ m, Ring nx pv (a :: m) ∧ (a :: m).Perm l := by
  obtain ⟨p, s, rfl⟩ := List.append_of_mem ha
  exact ⟨s ++ p, Ring.append_comm p (a :: s) h, @List.perm_append_comm N (a :: s) p⟩

theorem Ring.head_links {nx pv : N → N} {a : N} {l : List N} (h : Ring nx pv (a :: l)) :
    nx a ∈ a :: l ∧ pv a ∈ a :: l ∧ nx (pv a) = a ∧ pv (nx a) = a := by
  cases l using List.reverseRecOn with
  | nil =>
    have hh : nx a = a ∧ pv a = a := linked_pair.mp h
    simp [hh.1, hh.2]
  | append_singleton l z =>
    have hlast : nx z = a ∧ pv a = z := by
      have hz : Linked nx pv ((a :: l) ++ z :: [a]) := by simpa [Ring] using h
      exact linked_pair.mp ((linked_append (a :: l) z [a]).mp hz).2
    have hfirst : pv (nx a) = a ∧ nx a ∈ a :: (l ++ [z]) := by
      cases l with
      | nil =>
        have hh := (List.isChain_cons_cons.mp h).1
        exact ⟨by rw [hh.1, hh.2], by simp [hh.1]⟩
      | cons y l =>
        have hh := (List.isChain_cons_cons.mp h).1
        exact ⟨by rw [hh.1, hh.2], by simp [hh.1]⟩
    exact ⟨hfirst.2, by simp [hlast.2], by rw [hlast.2, hlast.1], hfirst.1⟩

theorem Ring.links {nx pv : N → N} {l : List N} {a : N} (h : Ring nx pv l) (ha : a ∈ l) :
    nx a ∈ l ∧ pv a ∈ l ∧ nx (pv a) = a ∧ pv (nx a) = a := by
  obtain ⟨m, hr, hp⟩ := h.turn ha
  have hh := hr.head_links
  exact ⟨hp.mem_iff.mp hh.1, hp.mem_iff.mp hh.2.1, hh.2.2⟩

theorem Ring.succ {nx pv : N → N} {l : List N} (h : Ring nx pv l) {i : Nat} {a b : N}
    (ha : l[i]? = some a) (hb : l[(i + 1) % l.length]? = some b) : nx a = b ∧ pv b = a := by
  cases l with
  | nil => simp at ha
  | cons x l =>
    obtain ⟨hi, rfl⟩ := List.getElem?_eq_some_iff.mp ha
    have hh := List.isChain_iff_getElem.mp h i (by simpa using hi)
    rw [List.getElem_append_left hi] at hh
    by_cases he : i + 1 < (x :: l).length
    · rw [Nat.mod_eq_of_lt he, List.getElem?_eq_getElem he, Option.some.injEq] at hb
      rwa [List.getElem_append_left he, hb] at hh
    · have hlast : i + 1 = (x :: l).length := by omega
      rw [List.getElem_append_right (Nat.le_of_eq hlast.symm), List.getElem_singleton] at hh
      obtain rfl : x = b := by simpa [hlast] using hb
      exact hh

variable [DecidableEq N]

/-- Making the two neighbours of `y` point to each other takes it out of the ring. -/
theorem Ring.unlink {nx pv : N → N} {y : N} {m : List N} (h : Ring nx pv (y :: m)) (hy : y ∉ m) :
    Ring (Function.update nx (pv y) (nx y)) (Function.update pv (nx y) (pv y)) m := by
  have hl := h.head_links
  cases m with
  | nil => trivial
  | cons x m =>
    have hh : (nx y = x ∧ pv x = y) ∧ Linked nx pv (x :: m ++ [y]) := List.isChain_cons_cons.mp h
    obtain ⟨k, z, hz⟩ : ∃ k z, x :: m = k ++ [z] :=
      ⟨_, _, (List.dropLast_append_getLast (List.cons_ne_nil x m)).symm⟩
    have hlast : pv y = z := by
      have hk : Linked nx pv (k ++ z :: [y]) := by simpa [hz] using hh.2
      exact (linked_pair.mp ((linked_append k z [y]).mp hk).2).2
    change Linked _ _ (x :: m ++ [x])
    rw [hz, List.append_assoc, List.singleton_append, linked_append k z [x], ← hz]
    constructor
    · -- a pair that an update touched would have `y` as its other end
      have hm : Linked nx pv (x :: m) := (List.isChain_append.mp hh.2).1
      refine List.IsChain.imp_of_mem_imp (fun a b ha hb hab => ?_) hm
      have ha' : a ≠ pv y := fun e => hy (by rwa [← hl.2.2.1, ← e, hab.1])
      have hb' : b ≠ nx y := fun e => hy (by rwa [← hl.2.2.2, ← e, hab.2])
      rwa [Function.update_of_ne ha', Function.update_of_ne hb']
    · refine linked_pair.mpr ⟨?_, ?_⟩
      · rw [← hlast, Function.update_self, hh.1.1]
      · rw [← hh.1.1, Function.update_self, hlast]

theorem Ring.erase {nx pv : N → N} {y : N} {p s : List N} (h : Ring nx pv (p ++ y :: s))
    (hnd : (p ++ y :: s).Nodup) :
    Ring (Function.update nx (pv y) (nx y)) (Function.update pv (nx y) (pv y)) (p ++ s) := by
  have hy : y ∉ s ++ p := by
    have hh := (List.nodup_middle.mp hnd)
    simpa [or_comm] using (List.nodup_cons.mp hh).1
  exact Ring.append_comm s p (Ring.unlink (Ring.append_comm p (y :: s) h) hy)

/-- Linking `y` between the last node and the first one appends it. -/
theorem Ring.insert {nx pv : N → N} {h y : N} {m : List N} (hr : Ring nx pv (h :: m))
    (hh : h ∉ m) (hy : y ∉ h :: m) :
    Ring (Function.update (Function.update nx y h) (pv h) y)
      (Function.update (Function.update pv y (pv h)) h y) (h :: m ++ [y]) := by
  obtain ⟨k, z, hz⟩ : ∃ k z, h :: m = k ++ [z] :=
    ⟨_, _, (List.dropLast_append_getLast (List.cons_ne_nil h m)).symm⟩
  have hlast : pv h = z := by
    have hk : Linked nx pv (k ++ z :: [h]) := by
      have : Linked nx pv (h :: m ++ [h]) := hr
      simpa [hz] using this
    exact (linked_pair.mp ((linked_append k z [h]).mp hk).2).2
  have hzm : z ∈ h :: m := by simp [hz]
  have hyz : y ≠ z := fun e => hy (e ▸ hzm)
  have hyh : y ≠ h := fun e => hy (by simp [e])
  change Linked _ _ (h :: m ++ [y] ++ [h])
  have hsplit : h :: m ++ [y] ++ [h] = k ++ z :: [y, h] := by
    rw [hz]
    simp
  rw [hsplit, linked_append k z [y, h], ← hz]
  constructor
  · have hm : Linked nx pv (h :: m) :=
      (List.isChain_append.mp (show Linked nx pv (h :: m ++ [h]) from hr)).1
    refine List.IsChain.imp_of_mem_tail_imp (fun a b ha hb hab => ?_) hm
    have hbh : b ≠ h := fun e => hh (e ▸ hb)
    have hby : b ≠ y := fun e => hy (e ▸ List.mem_cons_of_mem _ hb)
    have hay : a ≠ y := fun e => hy (e ▸ ha)
    have haz : a ≠ pv h := fun e => hbh (by rw [← hab.1, e, (hr.head_links).2.2.1])
    rwa [Function.update_of_ne haz, Function.update_of_ne hay, Function.update_of_ne hbh,
      Function.update_of_ne hby]
  · refine List.isChain_cons_cons.mpr ⟨⟨?_, ?_⟩, linked_pair.mpr ⟨?_, ?_⟩⟩
    · rw [hlast, Function.update_self]
    · rw [Function.update_of_ne hyh, Function.update_self, hlast]
    · rw [hlast, Function.update_of_ne hyz, Function.update_self]
    · rw [Function.update_self]

theorem Ring.insert_after {nx pv : N → N} {a y : N} {m : List N} (hr : Ring nx pv (a :: m))
    (hnd : (a :: m).Nodup) (hy : y ∉ a :: m) :
    Ring (Function.update (Function.update nx y (nx a)) a y)
      (Function.update (Function.update pv y a) (nx a) y) (a :: y :: m) := by
  cases m with
  | nil =>
    have hh := linked_pair.mp hr
    simpa only [hh.1, hh.2, List.singleton_append] using hr.insert (by simp) hy
  | cons h m =>
    have hnx : nx a = h ∧ pv h = a := (List.isChain_cons_cons.mp hr).1
    have hnd' := List.nodup_cons.mp hnd
    have hh : h ∉ m ++ [a] := by
      simp only [List.mem_append, List.mem_singleton, not_or]
      exact ⟨(List.nodup_cons.mp hnd'.2).1, fun e => hnd'.1 (by simp [e])⟩
    have hy' : y ∉ h :: (m ++ [a]) := by
      simp only [List.mem_cons, not_or] at hy
      simp [hy.1, hy.2.1, hy.2.2]
    have hi := hr.rotate.insert hh hy'
    have hcomm := Ring.append_comm (h :: m) [a, y] (by simpa using hi)
    simpa only [hnx.1, hnx.2, List.cons_append, List.nil_append] using hcomm

end Links
