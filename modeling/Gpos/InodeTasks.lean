import Gpos.HeldSlots

/-! The tasks that use the inodes. A task is in a call or in none, and between two parts of
its call the others go on. -/

namespace Gpos.Sleeping

open Fs Cache WriteBack Thread

/-- The inode that the caller refers to. -/
def taken : WriteBack.Call → List Nat
  | .iput i | .freeInode i | .bmap i _ | .createBlock i _ | .truncate i | .addEntry i _ => [i]
  | _ => []

/-- A call, and in the end the inodes that the caller refers to. -/
def thread (disk : Cache.Disk) (rounds : Nat) : WriteBack.Call → Thread Fs (List Nat)
  | .iget dev nr => do
    let i ← iget disk rounds dev nr
    return [i]
  | .iput i => do
    iput disk rounds i
    return []
  | .newInode dev creds => do
    let o ← newInode disk rounds dev creds
    return o.toList
  | .freeInode i => do
    freeInode i
    return []
  | .getEmptyInode => do
    let i ← getEmptyInode disk rounds fun i => pure i
    return [i]
  | .bmap i block => do
    let _ ← bmapCreate disk false i block
    return [i]
  | .createBlock i block => do
    let _ ← bmapCreate disk true i block
    return [i]
  | .truncate i => do
    truncate disk i
    return [i]
  | .addEntry dir name => do
    let _ ← addEntry disk rounds dir name
    return [dir]
  | .openNamei t path flag mode => do
    match ← openNamei disk rounds t path flag mode with
    | .error _ => return []
    | .ok i => return [i]
  | .rest cache superBlock lastInode => do
    WriteBack.Call.run disk (.rest cache superBlock lastInode)
    return []

/-- `refs` are the references of the tasks, except for those that a call has taken over. -/
structure Kernel (T : Type) where
  fs : Fs
  thread : T → Option (Thread Fs (List Nat))
  refs : Multiset Nat

def start (T : Type) (cache : Cache) (superBlock : Nat → SuperBlock) : Kernel T :=
  ⟨boot cache superBlock, fun _ => none, 0⟩

section

variable {T : Type}

/-- What a call has taken over and taken. -/
def Holds : Option (Thread Fs (List Nat)) → Refs → Prop
  | none, r => r = 0
  | some x, r => Ensures Room Good x r fun is r' => r'.map Prod.fst = is

def unmarked (refs : Multiset Nat) : Refs := refs.map fun i => (i, false)

theorem map_unmarked (refs : Multiset Nat) : (unmarked refs).map Prod.fst = refs := by
  rw [unmarked, Multiset.map_map]
  exact Multiset.map_id refs

theorem notMem_unmarked (i : Nat) (refs : Multiset Nat) : (i, true) ∉ unmarked refs := by
  simp [unmarked]

/-- All the references that the slots count. -/
def Counted [Fintype T] (s : Kernel T) : Prop := ∃ held : T → Refs,
  Good (∑ τ, held τ + unmarked s.refs) s.fs ∧ ∀ τ, Holds (s.thread τ) (held τ)

variable {disk : Cache.Disk} {rounds : Nat} {r r' : Refs}

theorem uses_eq (r : Refs) (i : Nat) : uses r i = (r.map Prod.fst).count i := by
  rw [Multiset.count_map, uses, Multiset.countP_eq_card_filter]
  simp only [eq_comm]

/-- The slots do not count what is known of the devices. -/
theorem Good.remark {s : Fs} (h : Good r s) (hr : r'.map Prod.fst = r.map Prod.fst)
    (hd : ∀ i, (i, true) ∈ r' → (i, true) ∈ r ∨ (s.inodeTable i).iDev ≠ 0) : Good r' s := by
  refine ⟨h.backed, fun i => ?_, fun i hi => (hd i hi).elim (h.named i) id⟩
  rw [h.count i, uses_eq, uses_eq, hr]

theorem Ensures.returns {α : Type} {x : Thread Fs α} {Q : α → Refs → Prop}
    {f : α → List Nat} (hx : Ensures Room Good x r Q)
    (hf : ∀ a r', Q a r' → r'.map Prod.fst = f a) :
    Ensures Room Good (x >>= fun a => pure (f a)) r fun is r' => r'.map Prod.fst = is :=
  hx.bind fun a r' ha => .pure (hf a r' ha)

theorem Retains.returns {α : Type} {x : Thread Fs α} {i : Nat} (hx : Retains i x) :
    Ensures Room Good (x >>= fun _ => pure [i]) {(i, false)} fun is r' => r'.map Prod.fst = is := by
  refine Ensures.returns (hx false 0) fun _ r' h => ?_
  obtain ⟨b, -, rfl⟩ := h
  rfl

/-- `free_inode` gives up a slot with a device. -/
theorem part_freeInode {i : Nat} : Part Room Good {(i, true)} (freeInode i) fun _ r' => r' = 0 := by
  intro f s a t _ hs ht
  have hdev : (s.inodeTable i).iDev ≠ 0 :=
    hs.named i (Multiset.mem_add.mpr (.inl (Multiset.mem_singleton_self _)))
  have hcount : ¬ 1 < (s.inodeTable i).iCount := by
    intro hlt
    obtain ⟨n, s₀, hn, h⟩ := Program.bind_some.mp ht
    cases hn
    rw [if_neg hdev, if_pos hlt] at h
    cases h
  exact ⟨0, by simpa using Good.free (by simpa using hs) hcount (makes_freeInode i _ _ _ ht), rfl⟩

/-- What is known of the devices when a call begins. -/
def marked (c : WriteBack.Call) : Refs :=
  match c with
  | .freeInode i => {(i, true)}
  | c => (taken c : Multiset Nat).map fun i => (i, false)

theorem ensures_thread (c : WriteBack.Call) : Ensures Room Good (thread disk rounds c) (marked c)
    fun is r' => r'.map Prod.fst = is := by
  cases c with
  | iget dev nr =>
    refine Ensures.returns (take_iget dev nr) fun i r' h => ?_
    obtain ⟨b, rfl⟩ := h
    rfl
  | iput i =>
    refine Ensures.returns (r := {(i, false)}) (put_iput i false) fun _ r' h => ?_
    subst h
    rfl
  | newInode dev creds =>
    refine Ensures.returns (take_newInode dev creds) fun o r' h => ?_
    cases o <;> subst h <;> rfl
  | freeInode i =>
    refine Ensures.returns (.lift part_freeInode) fun _ r' h => ?_
    subst h
    rfl
  | getEmptyInode =>
    refine Ensures.returns take_getEmptyInode fun i r' h => ?_
    subst h
    rfl
  | bmap i block => exact (retains_bmapCreate false i block).returns
  | createBlock i block => exact (retains_bmapCreate true i block).returns
  | truncate i => exact (retains_truncate i).returns
  | addEntry dir name => exact (retains_addEntry dir name).returns
  | openNamei t path flag mode =>
    refine (opens_openNamei t path flag mode).bind fun x r' h => ?_
    cases x with
    | error e =>
      obtain rfl : r' = 0 := h
      exact .pure rfl
    | ok i =>
      obtain ⟨b, rfl⟩ := h
      exact .pure rfl
  | rest cache superBlock lastInode =>
    refine Ensures.returns (.lift (part_of_table ?_)) fun _ r' h => ?_
    · intro s a t h
      cases h
      rfl
    · subst h
      rfl

theorem holds_update [DecidableEq T] {thread : T → Option (Thread Fs (List Nat))}
    {held : T → Refs} {τ : T} {x : Option (Thread Fs (List Nat))}
    (h : ∀ σ, Holds (thread σ) (held σ)) (hx : Holds x r) (σ : T) :
    Holds (Function.update thread τ x σ) (Function.update held τ r σ) := by
  by_cases hσ : σ = τ
  · subst hσ
    rwa [Function.update_self, Function.update_self]
  · rw [Function.update_of_ne hσ, Function.update_of_ne hσ]
    exact h σ

variable [Fintype T]

theorem counted_start (cache : Cache) (superBlock : Nat → SuperBlock) :
    Counted (start T cache superBlock) := by
  refine ⟨fun _ => 0, ⟨backed_boot cache superBlock, fun i => ?_, fun i hi => ?_⟩, fun _ => rfl⟩
  · simp [start, boot, zeroInode, unmarked, uses]
  · simp [start, unmarked] at hi

theorem Counted.backed {s : Kernel T} (h : Counted s) : Backed s.fs := by
  obtain ⟨_, hgood, _⟩ := h
  exact hgood.backed

/-- A slot counts the references of the tasks and those of the calls. -/
theorem Counted.le {s : Kernel T} (h : Counted s) (i : Nat) :
    s.refs.count i ≤ (s.fs.inodeTable i).iCount.toNat := by
  obtain ⟨held, hgood, _⟩ := h
  rw [hgood.count i, uses_eq, Multiset.map_add, map_unmarked, Multiset.count_add]
  exact Nat.le_add_left _ _

theorem Counted.eq {s : Kernel T} (h : Counted s) (hidle : ∀ τ, s.thread τ = none) (i : Nat) :
    (s.fs.inodeTable i).iCount.toNat = s.refs.count i := by
  obtain ⟨held, hgood, hheld⟩ := h
  have hnone : ∑ τ, held τ = 0 := by
    refine Finset.sum_eq_zero fun τ _ => ?_
    have hτ := hheld τ
    rwa [hidle τ] at hτ
  rw [hgood.count i, uses_eq, hnone, zero_add, map_unmarked]

variable [DecidableEq T] {s s' : Kernel T}

/-- `free_inode` is called for an inode with a device. A part of a call runs while every inode
can get one more reference. -/
inductive Step : Kernel T → Kernel T → Prop
  | enter {s : Kernel T} {τ : T} {c : WriteBack.Call} {refs : Multiset Nat} (disk : Cache.Disk)
      (rounds : Nat) (hidle : s.thread τ = none) (hrefs : s.refs = taken c + refs)
      (hfree : ∀ i, c = .freeInode i → (s.fs.inodeTable i).iDev ≠ 0) :
      Step s { s with thread := Function.update s.thread τ (some (thread disk rounds c)), refs }
  | go {s : Kernel T} {τ : T} {β : Type} {x : Program Fs β} {k : β → Thread Fs (List Nat)} {b : β}
      {fs : Fs} (hat : s.thread τ = some (.step x k)) (hroom : Room s.fs)
      (hx : x s.fs = some (b, fs)) :
      Step s { s with fs, thread := Function.update s.thread τ (some (k b)) }
  | leave {s : Kernel T} {τ : T} {is : List Nat} (hat : s.thread τ = some (.done is)) :
      Step s { s with thread := Function.update s.thread τ none, refs := is + s.refs }
  | copy {s : Kernel T} {i : Nat} {fs : Fs} (hi : i ∈ s.refs) (hroom : Room s.fs)
      (hx : raiseCount i s.fs = some ((), fs)) : Step s { s with fs, refs := i ::ₘ s.refs }

/-- The rule for a task that takes over references, or gives them back. -/
theorem Counted.move (h : Counted s) {τ : T} {x : Option (Thread Fs (List Nat))}
    {refs : Multiset Nat} (hx : ∀ r, Holds (s.thread τ) r → ∃ r', Holds x r' ∧
      r'.map Prod.fst + refs = r.map Prod.fst + s.refs ∧
      ∀ i, (i, true) ∈ r' → (s.fs.inodeTable i).iDev ≠ 0) :
    Counted { s with thread := Function.update s.thread τ x, refs } := by
  obtain ⟨held, hgood, hheld⟩ := h
  obtain ⟨r', hr', hrefs, hdev⟩ := hx (held τ) (hheld τ)
  refine ⟨Function.update held τ r', hgood.remark ?_ fun i hi => ?_, fun σ => ?_⟩
  · rw [sum_at held τ, sum_update]
    simp only [Multiset.map_add, map_unmarked]
    rw [add_right_comm, hrefs, add_right_comm]
  · rw [sum_update, add_assoc, Multiset.mem_add] at hi
    rw [sum_at held τ]
    rcases hi with hi | hi
    · exact .inr (hdev i hi)
    · rw [Multiset.mem_add] at hi
      have hrest := hi.resolve_right (notMem_unmarked i refs)
      exact .inl (Multiset.mem_add.mpr (.inl (Multiset.mem_add.mpr (.inr hrest))))
  · exact holds_update hheld hr' σ

theorem map_marked (c : WriteBack.Call) : (marked c).map Prod.fst = taken c := by
  cases c <;> rfl

theorem dev_marked {c : WriteBack.Call} {fs : Fs}
    (hfree : ∀ i, c = .freeInode i → (fs.inodeTable i).iDev ≠ 0) (i : Nat)
    (hi : (i, true) ∈ marked c) : (fs.inodeTable i).iDev ≠ 0 := by
  cases c with
  | freeInode j =>
    obtain ⟨rfl, -⟩ := Prod.mk.inj (Multiset.mem_singleton.mp hi)
    exact hfree i rfl
  | _ => exact absurd hi (notMem_unmarked i _)

theorem Counted.step (h : Counted s) (hs : Step s s') : Counted s' := by
  cases hs with
  | @enter τ c refs disk rounds hidle hrefs hfree =>
    refine h.move fun r hr => ⟨marked c, ensures_thread c, ?_, dev_marked hfree⟩
    rw [hidle] at hr
    obtain rfl : r = 0 := hr
    rw [map_marked, hrefs, Multiset.map_zero, zero_add]
  | @go τ β x k b fs hat hroom hx =>
    obtain ⟨held, hgood, hheld⟩ := h
    have hpart := hheld τ
    rw [hat] at hpart
    obtain ⟨r', hr', hk⟩ := Part.among hpart hroom hgood hx
    exact ⟨Function.update held τ r', hr', holds_update hheld hk⟩
  | @leave τ is hat =>
    refine h.move fun r hr => ⟨0, rfl, ?_, fun i hi => absurd hi (Multiset.notMem_zero _)⟩
    rw [hat] at hr
    have hback : r.map Prod.fst = is := hr
    rw [hback, Multiset.map_zero, zero_add]
  | @copy i fs hi hroom hx =>
    obtain ⟨held, hgood, hheld⟩ := h
    refine ⟨held, ?_, hheld⟩
    have hrefs : unmarked (i ::ₘ s.refs) = (i, false) ::ₘ unmarked s.refs :=
      Multiset.map_cons _ _ _
    show Good (∑ τ, held τ + unmarked (i ::ₘ s.refs)) fs
    rw [hrefs, Multiset.add_cons]
    exact hgood.raise hroom hx

abbrev Reaches : Kernel T → Kernel T → Prop := Relation.ReflTransGen Step

theorem Counted.reaches (h : Counted s) (hs : Reaches s s') : Counted s' := by
  induction hs with
  | refl => exact h
  | tail _ hstep ih => exact ih.step hstep

/-- Wherever the calls of the tasks are cut, a slot counts at least the references that the tasks
have, and exactly these when no task is in a call. -/
theorem counts_eq_refs {cache : Cache} {superBlock : Nat → SuperBlock}
    (hs : Reaches (start T cache superBlock) s) :
    (∀ i, s.refs.count i ≤ (s.fs.inodeTable i).iCount.toNat) ∧
      ((∀ τ, s.thread τ = none) → ∀ i, (s.fs.inodeTable i).iCount.toNat = s.refs.count i) :=
  have hcounted := (counted_start cache superBlock).reaches hs
  ⟨hcounted.le, hcounted.eq⟩

end

def twoTasks : Kernel Bool := start Bool Cache.blank fun _ => Imap.mapSuper 0

theorem room_zero {s : Fs} (h : s.inodeTable = fun _ => zeroInode) : Room s := by
  intro i
  rw [h]
  exact (by decide : (0 : BitVec 16) ≠ BitVec.allOnes 16)

theorem room_three {s : Fs} (h : ∀ i < 3, (s.inodeTable i).iCount ≠ BitVec.allOnes 16)
    (hrest : ∀ i, (s.inodeTable (i + 3)).iCount = 0) : Room s := by
  intro i
  by_cases hi : i < 3
  · exact h i hi
  · obtain ⟨j, rfl⟩ := Nat.exists_eq_add_of_le' (not_lt.mp hi)
    rw [hrest j]
    decide

/-- Between the parts of one task's calls the other task gets an inode. -/
theorem counts_eq_refs_two : ∃ s t : Kernel Bool, Reaches twoTasks s ∧ Reaches twoTasks t ∧
    (s.refs = {1} ∧ (s.fs.inodeTable 1).iCount = 2 ∧
      s.refs.count 1 ≤ (s.fs.inodeTable 1).iCount.toNat) ∧
    t.refs = {2, 1} ∧ ∀ i, (t.fs.inodeTable i).iCount.toNat = t.refs.count i := by
  have henter : Reaches twoTasks _ :=
    .single (@Step.enter Bool _ _ false .getEmptyInode 0 noDisk 1 rfl (zero_add 0).symm nofun)
  have henter := henter.tail
    (@Step.enter Bool _ _ true .getEmptyInode 0 noDisk 1 rfl (zero_add 0).symm nofun)
  have hpick := henter.tail (.go (τ := false) rfl (room_zero rfl) rfl)
  have hpick := hpick.tail (.go (τ := true) rfl (room_zero rfl) rfl)
  have hwait := hpick.tail (.go (τ := false) rfl (room_zero rfl) rfl)
  have hwait := hwait.tail (.go (τ := true) rfl (room_zero rfl) rfl)
  have hclean := hwait.tail (.go (τ := false) rfl (room_zero rfl) rfl)
  have htake := hclean.tail (.go (τ := false) rfl (room_zero rfl) rfl)
  have hleave := htake.tail (.leave (τ := false) rfl)
  have hcopy := hleave.tail (.copy (i := 1) (Multiset.mem_singleton_self 1)
    (room_three (by decide) fun _ => rfl) rfl)
  have hclean := hcopy.tail (.go (τ := true) rfl (room_three (by decide) fun _ => rfl) rfl)
  have hput := hclean.tail (@Step.enter Bool _ _ false (.iput 1) {1} noDisk 1 rfl rfl nofun)
  have hput := hput.tail (.go (τ := false) rfl (room_three (by decide) fun _ => rfl) rfl)
  have htake := hput.tail (.go (τ := true) rfl (room_three (by decide) fun _ => rfl) rfl)
  have hread := htake.tail (.go (τ := false) rfl (room_three (by decide) fun _ => rfl) rfl)
  have hdrop := hread.tail (.go (τ := false) rfl (room_three (by decide) fun _ => rfl) rfl)
  have hleave := hdrop.tail (.leave (τ := false) rfl)
  have hleave := hleave.tail (.leave (τ := true) rfl)
  refine ⟨_, _, hput, hleave, ⟨rfl, rfl, (counts_eq_refs hput).1 1⟩, rfl, ?_⟩
  exact (counts_eq_refs hleave).2 (by decide)

end Gpos.Sleeping
