import Gpos.Elevator
import Gpos.SweepRuns
import Mathlib.Algebra.BigOperators.Group.Finset.Basic
import Mathlib.Algebra.Order.BigOperators.Group.Finset

/-! How many requests are served while one waits in the queue of a device. -/

namespace Gpos.Requests

open Sweep (Op)

/-- What a request is for: `IN_ORDER` compares no more than this where the blocks differ. -/
structure Block where
  cmd : Cmd
  dev : Int
  nr : Nat
deriving DecidableEq

def Request.block (q : Request) : Block := ⟨q.cmd, q.dev, q.sector / 2⟩

def Block.before (a b : Block) : Bool :=
  (a.cmd = .read && b.cmd = .write) || (a.cmd = b.cmd &&
    (decide (a.dev < b.dev) || (a.dev = b.dev && decide (a.nr < b.nr))))

theorem Block.before_trans (a b c : Block) (h : a.before b) (h' : b.before c) : a.before c := by
  simp only [Block.before, Bool.or_eq_true, Bool.and_eq_true, decide_eq_true_eq] at h h' ⊢
  rcases h with ⟨h₁, h₂⟩ | ⟨h₁, h₂⟩ <;> rcases h' with ⟨h₃, h₄⟩ | ⟨h₃, h₄⟩
  · simp [h₂] at h₃
  · exact Or.inl ⟨h₁, h₃ ▸ h₂⟩
  · exact Or.inl ⟨h₁.trans h₃, h₄⟩
  · exact Or.inr ⟨h₁.trans h₃, by omega⟩

theorem inOrder_eq_before {p q : Request} (h : ¬ SameBlock p q) :
    inOrder p q = p.block.before q.block := by
  have hlt : p.dev = q.dev → (p.sector < q.sector ↔ p.sector / 2 < q.sector / 2) := fun hd => by
    have hs : p.sector / 2 ≠ q.sector / 2 := fun he => h ⟨hd, he⟩
    omega
  simp only [inOrder, Block.before, Request.block]
  by_cases hd : p.dev = q.dev
  · simp only [hd, hlt hd]
    rfl
  · simp only [hd]
    rfl

section

variable {T : Type*}

def ended : QueueAct → State T → List Block
  | .remove _, s => (s.currentRequest.map fun c => (s.request c).block).toList
  | _, _ => []

/-- The blocks of the requests that a run ends, in their order. -/
def served : List QueueAct → State T → List Block := Run.outputs queueStep ended

/-- What an action does to the elevator of the blocks. -/
def QueueAct.ops : QueueAct → List (Op Block)
  | .add _ q => [.put q.block]
  | .advance => []
  | .remove _ => [.pop]

/-- The elevator holds the blocks of the queue. -/
structure Elevator (s : State T) (l : List Nat) (bs : List Block) : Prop where
  line : Line s l
  drop : Sweep.descents (before s) l ≤ 1
  blocks : bs = l.map fun x => (s.request x).block

variable {s t : State T} {l l₁ l₂ : List Nat} {bs : List Block} {r w : Nat}

theorem Line.before_eq (h : Line s l) :
    ∀ x ∈ l, ∀ y ∈ l, x ≠ y → before s x y = (s.request x).block.before (s.request y).block :=
  fun x hx y hy hxy => inOrder_eq_before (h.apart x hx y hy hxy)

theorem Line.block_inj (h : Line s l) {x y : Nat} (hx : x ∈ l) (hy : y ∈ l)
    (he : (s.request x).block = (s.request y).block) : x = y := by
  by_contra hxy
  obtain ⟨-, hd, hn⟩ := Block.mk.inj he
  exact h.apart x hx y hy hxy ⟨hd, hn⟩

theorem Elevator.descents (h : Elevator s l bs) : Sweep.descents Block.before bs ≤ 1 := by
  have hcongr : Sweep.descents (fun x y => (s.request x).block.before (s.request y).block) l =
      Sweep.descents (before s) l :=
    Sweep.descents_congr h.line.chain.nodup fun x hx y hy hxy =>
      (h.line.before_eq x hx y hy hxy).symm
  rw [h.blocks, Sweep.descents_map, hcongr]
  exact h.drop

theorem Elevator.current (h : Elevator s l bs) :
    s.currentRequest.map (fun c => (s.request c).block) = bs.head? := by
  rw [h.blocks]
  cases l with
  | nil =>
    have hnone : s.currentRequest = none := h.line.chain
    rw [hnone]
    rfl
  | cons c l =>
    have hsome : s.currentRequest = some c := h.line.chain.1
    rw [hsome]
    rfl

theorem Elevator.head_ne (h : Elevator s l bs) (hw : w ∈ l) (hne : s.currentRequest ≠ some w) :
    bs.head? ≠ some (s.request w).block := by
  rw [← h.current]
  intro he
  obtain ⟨c, hc, hcw⟩ := Option.map_eq_some_iff.mp he
  have hcl : c ∈ l := by
    cases l with
    | nil => cases hw
    | cons d l =>
      obtain rfl : d = c := Option.some.inj (h.line.chain.1.symm.trans hc)
      exact List.mem_cons_self
  exact hne (h.line.block_inj hcl hw hcw ▸ hc)

theorem place_map {α β : Type*} {stop : α → α → Bool} {stop' : β → β → Bool} {f : α → β} {r a : α}
    {l : List α} (h : ∀ x ∈ a :: l, ∀ y ∈ l, x ≠ y → stop' (f x) (f y) = stop x y)
    (hn : (a :: l).Nodup) :
    (Chain.place stop r a l).map f = Chain.place stop' (f r) (f a) (l.map f) := by
  induction l generalizing a with
  | nil => rfl
  | cons b l ih =>
    have hab : a ≠ b := fun he => (List.nodup_cons.mp hn).1 (he ▸ List.mem_cons_self)
    have hrest := ih (a := b) (fun x hx y hy => h x (List.mem_cons_of_mem a hx) y
      (List.mem_cons_of_mem b hy)) (List.nodup_cons.mp hn).2
    rw [Chain.place, List.map_cons, Chain.place,
      h a List.mem_cons_self b List.mem_cons_self hab]
    split
    · rfl
    · rw [List.map_cons, hrest]

theorem queued_congr (h : before t = before s) (r : Nat) (l : List Nat) :
    queued t r l = queued s r l := by
  cases l with
  | nil => rfl
  | cons c l => rw [queued, queued, h]

/-- A new request gets the place in the queue that its block gets. -/
theorem Line.act_put (h : Line t (l₁ ++ r :: l₂)) (hp : l₁ ++ r :: l₂ = queued t r (l₁ ++ l₂)) :
    Sweep.act Block.before (.put (t.request r).block)
      ((l₁ ++ l₂).map fun x => (t.request x).block) =
        some ((l₁ ++ r :: l₂).map fun x => (t.request x).block) := by
  have hmem : ∀ x ∈ l₁ ++ l₂, x ∈ l₁ ++ r :: l₂ := fun x hx => by
    rw [List.mem_append] at hx ⊢
    exact hx.imp_right (List.mem_cons_of_mem r)
  have hr : r ∈ l₁ ++ r :: l₂ := by simp
  have hnd := List.nodup_middle.mp h.chain.nodup
  have hne : ∀ x ∈ l₁ ++ l₂, x ≠ r := fun x hx he => (List.nodup_cons.mp hnd).1 (he ▸ hx)
  rw [hp]
  generalize l₁ ++ l₂ = l at hmem hnd hne
  cases l with
  | nil => rfl
  | cons c l =>
    have hmap : (Chain.place (Sweep.fits (before t) r) r c l).map (fun x => (t.request x).block) =
        Chain.place (Sweep.fits Block.before (t.request r).block) (t.request r).block
          (t.request c).block (l.map fun x => (t.request x).block) := by
      refine place_map (fun x hx y hy hxy => ?_) (List.nodup_cons.mp hnd).2
      have hy' := List.mem_cons_of_mem c hy
      rw [Sweep.fits, Sweep.fits, h.before_eq x (hmem x hx) r hr (hne x hx),
        h.before_eq x (hmem x hx) y (hmem y hy') hxy,
        h.before_eq r hr y (hmem y hy') (hne y hy').symm]
    rw [queued, List.map_cons, List.map_cons, hmap]
    rfl

/-- One action of the queue is one of the elevator, or none. -/
theorem Elevator.step {a : QueueAct} (h : Elevator s l bs) (ha : Allowed s a)
    (hs : queueStep a s = some t) : ∃ l' bs', Elevator t l' bs' ∧
      Run.exec (Sweep.act Block.before) a.ops bs = some bs' ∧
      Run.Meets (Sweep.act Block.before) (Sweep.Fresh Block.before) a.ops bs ∧
      ∀ w ∈ l, s.currentRequest ≠ some w →
        w ∈ l' ∧ (t.request w).block = (s.request w).block := by
  obtain ⟨l', hl', hd'⟩ := descents_step h.line h.drop hs ha
  refine ⟨l', _, ⟨hl', hd', rfl⟩, ?_⟩
  have hbs := h.blocks
  cases a with
  | add r q =>
    obtain ⟨t', l₁, l₂, he, hl, hadd, hline⟩ := h.line.add ha
    obtain rfl := Option.some.inj (he.symm.trans hs)
    obtain rfl := hl'.unique hline.chain
    have hother : ∀ x ∈ l, (t'.request x).block = (s.request x).block := fun x hx => by
      rw [hadd.same, filled_of_ne (h.line.ne ha x hx)]
      rfl
    have hself : (t'.request r).block = q.block := by
      rw [hadd.same, filled_self]
      rfl
    have hbefore := before_congr hadd.same
    have hact := hline.act_put (queued_congr hbefore r _ ▸ hadd.place)
    rw [← hl, hself, List.map_congr_left hother, ← hbs] at hact
    have hmem : ∀ x ∈ l, x ∈ l₁ ++ r :: l₂ := fun x hx => by
      rw [hl, List.mem_append] at hx
      rw [List.mem_append]
      exact hx.imp_right (List.mem_cons_of_mem r)
    have hr : r ∈ l₁ ++ r :: l₂ := by simp
    refine ⟨by rw [QueueAct.ops, Run.exec_cons hact]; rfl, fun t _ => ⟨fun b hb => ?_, trivial⟩,
      fun w hw _ => ⟨hmem w hw, hother w hw⟩⟩
    rw [hbs] at hb
    obtain ⟨x, hx, rfl⟩ := List.mem_map.mp hb
    have hne := h.line.ne ha x hx
    rw [← hother x hx, ← hself, ← hline.before_eq x (hmem x hx) r hr hne,
      ← hline.before_eq r hr x (hmem x hx) hne.symm, hbefore]
    exact before_total h.line ha x hx
  | advance =>
    obtain ⟨hline, -⟩ := h.line.advance ha hs
    obtain rfl := hl'.unique hline.chain
    obtain ⟨c, hc, -, hreq⟩ := queueStep_advance hs
    have hblock : ∀ x ∈ l, (t.request x).block = (s.request x).block := fun x hx => by
      by_cases hx' : x = c
      · subst hx'
        have heven := ha x hc
        have hword := h.line.word x hx
        rw [hreq, Function.update_self, Request.block, Request.block, Block.mk.injEq]
        refine ⟨rfl, rfl, ?_⟩
        dsimp only
        omega
      · rw [hreq, Function.update_of_ne hx']
    rw [List.map_congr_left hblock, ← hbs]
    exact ⟨rfl, trivial, fun w hw _ => ⟨hw, hblock w hw⟩⟩
  | remove uptodate =>
    obtain ⟨hline, hreq⟩ := h.line.remove hs
    obtain rfl := hl'.unique hline.chain
    obtain ⟨c, hc, -, -⟩ := queueStep_remove hs
    cases l with
    | nil => exact absurd (hc.symm.trans h.line.chain) nofun
    | cons d l =>
      obtain rfl : d = c := Option.some.inj (h.line.chain.1.symm.trans hc)
      rw [List.map_congr_left fun x hx => congrArg Request.block (hreq x hx), hbs]
      refine ⟨rfl, fun _ _ => ⟨trivial, trivial⟩, fun w hw hne => ?_⟩
      have hwl : w ∈ l := (List.mem_cons.mp hw).resolve_left fun he => hne (he ▸ hc)
      exact ⟨hwl, congrArg Request.block (hreq w hwl)⟩

/-- While a request waits, the queue runs as the elevator does. -/
theorem Elevator.run {as : List QueueAct} (h : Elevator s l bs)
    (ha : Run.Meets queueStep Allowed as s) (hw : w ∈ l)
    (hne : Run.Always queueStep (fun s => s.currentRequest ≠ some w) as s) :
    ∃ ops, served as s = Sweep.popped Block.before ops bs ∧
      Run.Meets (Sweep.act Block.before) (Sweep.Fresh Block.before) ops bs ∧
      Run.Always (Sweep.act Block.before) (fun bs => bs.head? ≠ some (s.request w).block)
        ops bs := by
  induction as generalizing s l bs with
  | nil => exact ⟨[], rfl, trivial, h.head_ne hw hne⟩
  | cons a as ih =>
    have hhead := h.head_ne hw hne.head
    cases hs : queueStep a s with
    | none => exact ⟨[], Run.outputs_stuck hs, trivial, hhead⟩
    | some t =>
      obtain ⟨l', bs', h', hexec, hfresh, hkeep⟩ := h.step (ha t hs).1 hs
      obtain ⟨hw', hblock⟩ := hkeep w hw hne.head
      obtain ⟨ops, hserved, hmeets, halways⟩ := ih h' (ha t hs).2 hw' (hne.2 t hs)
      rw [hblock] at halways
      have hcons : ∀ op, a.ops = [op] → ∃ u, Sweep.act Block.before op bs = some u ∧ u = bs' ∧
          Run.Meets (Sweep.act Block.before) (Sweep.Fresh Block.before) (op :: ops) bs ∧
          Run.Always (Sweep.act Block.before) (fun bs => bs.head? ≠ some (s.request w).block)
            (op :: ops) bs := by
        intro op hop
        rw [hop] at hexec hfresh
        obtain ⟨u, hu, hrest⟩ := Option.bind_eq_some_iff.mp hexec
        obtain rfl : u = bs' := Option.some.inj hrest
        exact ⟨u, hu, rfl, .cons hu (hfresh u hu).1 hmeets, hhead,
          fun v hv => Option.some.inj (hu.symm.trans hv) ▸ halways⟩
      cases a with
      | add r q =>
        obtain ⟨u, hu, rfl, hm, hal⟩ := hcons _ rfl
        refine ⟨.put q.block :: ops, ?_, hm, hal⟩
        rw [served, Run.outputs_cons hs, Sweep.popped, Run.outputs_cons hu]
        exact hserved
      | advance =>
        obtain rfl : bs = bs' := Option.some.inj hexec
        refine ⟨ops, ?_, hmeets, halways⟩
        rw [served, Run.outputs_cons hs]
        exact hserved
      | remove uptodate =>
        obtain ⟨u, hu, rfl, hm, hal⟩ := hcons _ rfl
        refine ⟨.pop :: ops, ?_, hm, hal⟩
        rw [served, Run.outputs_cons hs, Sweep.popped, Run.outputs_cons hu, ended, h.current]
        cases bs with
        | nil => cases hu
        | cons b bs => exact congrArg (b :: ·) hserved

end

/-- The request of block 15 waits for that of block 10. -/
def waiting : State (Fin 2) :=
  (Run.exec queueStep [.add 0 (ask .read 10), .add 1 (ask .read 15)] quiet).getD quiet

end Gpos.Requests
