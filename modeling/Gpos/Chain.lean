import Mathlib.Data.List.Nodup
import Mathlib.Logic.Function.Basic

/-! Singly linked lists over arbitrary nodes, from a head pointer to a null pointer. -/

namespace Chain

variable {N : Type*}

/-- Following `next` from `p` visits the nodes of the list and then ends. -/
def Visits (next : N → Option N) : Option N → List N → Prop
  | p, [] => p = none
  | p, a :: l => p = some a ∧ Visits next (next a) l

theorem Visits.unique {next : N → Option N} {p : Option N} {l m : List N} (hl : Visits next p l)
    (hm : Visits next p m) : l = m := by
  induction l generalizing p m with
  | nil =>
    cases m with
    | nil => rfl
    | cons b m => exact absurd (hl.symm.trans hm.1) nofun
  | cons a l ih =>
    cases m with
    | nil => exact absurd (hm.symm.trans hl.1) nofun
    | cons b m =>
      obtain rfl : a = b := Option.some.inj (hl.1.symm.trans hm.1)
      rw [ih hl.2 hm.2]

theorem Visits.tail_of_append {next : N → Option N} {p : Option N} {l : List N} {a : N} {m : List N}
    (h : Visits next p (l ++ a :: m)) : Visits next (next a) m := by
  induction l generalizing p with
  | nil => exact h.2
  | cons b l ih => exact ih h.2

theorem Visits.nodup {next : N → Option N} {p : Option N} {l : List N} (h : Visits next p l) :
    l.Nodup := by
  induction l generalizing p with
  | nil => exact List.nodup_nil
  | cons a l ih =>
    refine List.nodup_cons.mpr ⟨fun ha => ?_, ih h.2⟩
    obtain ⟨l₁, l₂, rfl⟩ := List.append_of_mem ha
    have he := h.2.unique (h.2.tail_of_append)
    have hlen := congrArg List.length he
    simp only [List.length_append, List.length_cons] at hlen
    omega

theorem Visits.congr {next next' : N → Option N} {p : Option N} {l : List N} (h : Visits next p l)
    (hl : ∀ a ∈ l, next' a = next a) : Visits next' p l := by
  induction l generalizing p with
  | nil => exact h
  | cons a l ih =>
    refine ⟨h.1, ?_⟩
    rw [hl a List.mem_cons_self]
    exact ih h.2 fun b hb => hl b (List.mem_cons_of_mem a hb)

theorem Visits.insert [DecidableEq N] {next : N → Option N} {p : Option N} {l m : List N} {a b : N}
    (h : Visits next p (l ++ a :: m)) (hb : b ∉ l ++ a :: m) :
    Visits (Function.update (Function.update next b (next a)) a (some b)) p (l ++ a :: b :: m) := by
  have hnd := h.nodup
  have hab : b ≠ a := fun e => hb (by simp [e])
  induction l generalizing p with
  | nil =>
    refine ⟨h.1, ?_⟩
    rw [Function.update_self]
    refine ⟨rfl, ?_⟩
    rw [Function.update_of_ne hab, Function.update_self]
    refine h.2.congr fun c hc => ?_
    have hca : c ≠ a := fun e => (List.nodup_cons.mp hnd).1 (e ▸ hc)
    have hcb : c ≠ b := fun e => hb (e ▸ List.mem_cons_of_mem a hc)
    rw [Function.update_of_ne hca, Function.update_of_ne hcb]
  | cons c l ih =>
    refine ⟨h.1, ?_⟩
    have hca : c ≠ a := fun e => (List.nodup_cons.mp hnd).1 (by simp [e])
    have hcb : c ≠ b := fun e => hb (by simp [e])
    rw [Function.update_of_ne hca, Function.update_of_ne hcb]
    exact ih h.2 (fun hm => hb (List.mem_cons_of_mem c hm)) (List.nodup_cons.mp hnd).2

/-- A loop over the list that stops at the last node, or before a node at which `stop` holds. -/
def walk (next : N → Option N) (stop : N → N → Bool) : Nat → N → Option N
  | 0, _ => none
  | fuel + 1, tmp =>
    match next tmp with
    | none => some tmp
    | some nx => if stop tmp nx then some tmp else walk next stop fuel nx

/-- The list behind `tmp` when `b` is put where the loop stops. -/
def place (stop : N → N → Bool) (b : N) : N → List N → List N
  | _, [] => [b]
  | tmp, nx :: l => if stop tmp nx then b :: nx :: l else nx :: place stop b nx l

theorem mem_place {stop : N → N → Bool} {b tmp x : N} {l : List N} :
    x ∈ place stop b tmp l ↔ x = b ∨ x ∈ l := by
  induction l generalizing tmp with
  | nil => simp [place]
  | cons nx l ih =>
    rw [place]
    split
    · exact List.mem_cons
    · rw [List.mem_cons, ih, List.mem_cons]
      exact or_left_comm

theorem walk_place {next : N → Option N} (stop : N → N → Bool) (b : N) {fuel : Nat} {a : N}
    {l : List N} (h : Visits next (some a) (a :: l)) (hf : l.length < fuel) :
      ∃ l₁ tmp l₂, walk next stop fuel a = some tmp ∧ a :: l = l₁ ++ tmp :: l₂ ∧
        a :: place stop b a l = l₁ ++ tmp :: b :: l₂ := by
  induction l generalizing fuel a with
  | nil =>
    cases fuel with
    | zero => simp at hf
    | succ fuel =>
      have hn : next a = none := h.2
      exact ⟨[], a, [], by rw [walk, hn], rfl, rfl⟩
  | cons nx l ih =>
    cases fuel with
    | zero => simp at hf
    | succ fuel =>
      have hn : next a = some nx := h.2.1
      rw [walk, hn, place]
      by_cases hs : stop a nx = true
      · exact ⟨[], a, nx :: l, by simp [hs], rfl, by simp [hs]⟩
      · have hrest : Visits next (some nx) (nx :: l) := hn ▸ h.2
        obtain ⟨l₁, tmp, l₂, hw, hl, hp⟩ := ih hrest (by simpa using hf)
        exact ⟨a :: l₁, tmp, l₂, by simp [hs, hw], by rw [hl, List.cons_append], by simp [hs, hp]⟩

end Chain
