import Mathlib.Data.List.Basic
import Mathlib.Logic.Function.Basic

/-! Descriptors that processes have for descriptions. A description has a number, so
that two descriptors are for the same one or for two that only look alike; slots are
where the descriptions that are in use are kept. -/

/-- The descriptors of each process, and the descriptions in the order they were made in. -/
structure Descriptors (P F D : Type*) where
  table : P → Option (F → Option Nat)
  made : List D

namespace Descriptors

variable {P F D S : Type*} {A : Descriptors P F D}

/-- There is a descriptor for the description `n`. -/
def Used (A : Descriptors P F D) (n : Nat) : Prop :=
  ∃ p t fd, A.table p = some t ∧ t fd = some n

section

variable [DecidableEq P]

def setTable (A : Descriptors P F D) (p : P) (t : F → Option Nat) : Descriptors P F D :=
  { A with table := Function.update A.table p (some t) }

/-- The process `p` has the descriptor `fd` for a description that is made for it. -/
def opened [DecidableEq F] (A : Descriptors P F D) (p : P) (t : F → Option Nat) (fd : F) (d : D) :
    Descriptors P F D :=
  { A.setTable p (Function.update t fd (some A.made.length)) with made := A.made ++ [d] }

theorem Used.of_setTable {p : P} {t : F → Option Nat} {n : Nat} (h : (A.setTable p t).Used n) :
    (∃ fd, t fd = some n) ∨ A.Used n := by
  obtain ⟨q, u, fd, hu, hn⟩ := h
  change Function.update A.table p (some t) q = some u at hu
  by_cases hq : q = p
  · rw [hq, Function.update_self] at hu
    cases hu
    exact .inl ⟨fd, hn⟩
  · rw [Function.update_of_ne hq] at hu
    exact .inr ⟨q, u, fd, hu, hn⟩

end

/-- Each description in use is in a slot of its own. -/
structure Backs (A : Descriptors P F D) (slot : Nat → S) (T : P → Option (F → Option S))
    (content : S → D) : Prop where
  tables : ∀ p, T p = (A.table p).map fun t fd => (t fd).map slot
  apart : ∀ m n, A.Used m → A.Used n → slot m = slot n → m = n
  made : ∀ n, A.Used n → A.made[n]? = some (content (slot n))

section

variable {slot : Nat → S} {T : P → Option (F → Option S)} {content : S → D}

theorem Backs.lt (h : Backs A slot T content) {n : Nat} (hn : A.Used n) : n < A.made.length :=
  (List.getElem?_eq_some_iff.mp (h.made n hn)).1

theorem Backs.table (h : Backs A slot T content) {p : P} {u : F → Option S} (hu : T p = some u) :
    ∃ t, A.table p = some t ∧ u = fun fd => (t fd).map slot := by
  obtain ⟨t, ht, he⟩ := Option.map_eq_some_iff.mp ((h.tables p).symm.trans hu)
  exact ⟨t, ht, he.symm⟩

theorem Backs.refers (h : Backs A slot T content) {n : Nat} (hn : A.Used n) :
    ∃ p u fd, T p = some u ∧ u fd = some (slot n) := by
  obtain ⟨p, t, fd, ht, hfd⟩ := hn
  refine ⟨p, fun fd => (t fd).map slot, fd, ?_, congrArg (Option.map slot) hfd⟩
  rw [h.tables, ht, Option.map_some]

theorem Backs.congr (h : Backs A slot T content) {T' : P → Option (F → Option S)}
    {content' : S → D} (hT : T' = T)
    (hc : ∀ p u fd f, T p = some u → u fd = some f → content' f = content f) :
    Backs A slot T' content' := by
  refine ⟨hT ▸ h.tables, h.apart, fun n hn => ?_⟩
  obtain ⟨p, u, fd, hu, hfd⟩ := h.refers hn
  rw [hc p u fd _ hu hfd]
  exact h.made n hn

variable [DecidableEq P]

/-- A process takes descriptors for descriptions that are in use. -/
theorem Backs.setTable (h : Backs A slot T content) (p : P) {t : F → Option Nat}
    (ht : ∀ fd n, t fd = some n → A.Used n) :
    Backs (A.setTable p t) slot (Function.update T p (some fun fd => (t fd).map slot)) content := by
  have hused : ∀ n, (A.setTable p t).Used n → A.Used n := by
    intro n hn
    obtain ⟨fd, hfd⟩ | hn := hn.of_setTable
    · exact ht fd n hfd
    · exact hn
  refine ⟨fun q => ?_, fun m n hm hn => h.apart m n (hused m hm) (hused n hn),
    fun n hn => h.made n (hused n hn)⟩
  show _ = (Function.update A.table p (some t) q).map _
  by_cases hq : q = p
  · rw [hq, Function.update_self, Function.update_self]
    rfl
  · rw [Function.update_of_ne hq, Function.update_of_ne hq]
    exact h.tables q

/-- A slot that nothing refers to takes the description that is made. -/
theorem Backs.opened [DecidableEq F] (h : Backs A slot T content) {p : P} {t : F → Option Nat}
    (ht : A.table p = some t) (fd : F) {f : S}
    (hf : ∀ q u e, T q = some u → u e ≠ some f) {content' : S → D}
    (hc : ∀ q u e g, T q = some u → u e = some g → content' g = content g) :
    Backs (A.opened p t fd (content' f)) (Function.update slot A.made.length f)
      (Function.update T p (some (Function.update (fun e => (t e).map slot) fd (some f))))
      content' := by
  have hslot : ∀ n, A.Used n → Function.update slot A.made.length f n = slot n := fun n hn =>
    Function.update_of_ne (Nat.ne_of_lt (h.lt hn)) f slot
  have hfree : ∀ n, A.Used n → f ≠ slot n := by
    intro n hn he
    obtain ⟨q, u, e, hu, hfd⟩ := h.refers hn
    exact hf q u e hu (hfd.trans (congrArg some he.symm))
  have hmap : ∀ q u, A.table q = some u →
      (fun e => (u e).map (Function.update slot A.made.length f)) = fun e => (u e).map slot := by
    intro q u hu
    funext e
    exact Option.map_congr fun n hn => hslot n ⟨q, u, e, hu, hn⟩
  have hused : ∀ n, (A.opened p t fd (content' f)).Used n → n = A.made.length ∨ A.Used n := by
    intro n hn
    obtain ⟨e, he⟩ | hn := Used.of_setTable (A := A) hn
    · by_cases hfd : e = fd
      · rw [hfd, Function.update_self] at he
        exact .inl (Option.some.inj he).symm
      · rw [Function.update_of_ne hfd] at he
        exact .inr ⟨p, t, e, ht, he⟩
    · exact .inr hn
  refine ⟨fun q => ?_, fun m n hm hn he => ?_, fun n hn => ?_⟩
  · show _ = (Function.update A.table p _ q).map _
    by_cases hq : q = p
    · rw [hq, Function.update_self, Function.update_self, Option.map_some]
      congr 1
      funext e
      by_cases he : e = fd
      · rw [he, Function.update_self, Function.update_self, Option.map_some, Function.update_self]
      · rw [Function.update_of_ne he, Function.update_of_ne he]
        exact congrFun (hmap p t ht).symm e
    · rw [Function.update_of_ne hq, Function.update_of_ne hq, h.tables q]
      exact Option.map_congr fun u hu => (hmap q u hu).symm
  · obtain rfl | hm := hused m hm
    · obtain rfl | hn := hused n hn
      · rfl
      · rw [Function.update_self, hslot n hn] at he
        exact absurd he (hfree n hn)
    · obtain rfl | hn := hused n hn
      · rw [Function.update_self, hslot m hm] at he
        exact absurd he.symm (hfree m hm)
      · rw [hslot m hm, hslot n hn] at he
        exact h.apart m n hm hn he
  · obtain rfl | hn := hused n hn
    · rw [Function.update_self]
      exact List.getElem?_concat_length
    · rw [hslot n hn]
      obtain ⟨q, u, e, hu, he⟩ := h.refers hn
      rw [hc q u e _ hu he]
      exact (List.getElem?_append_left (h.lt hn)).trans (h.made n hn)

end

end Descriptors
