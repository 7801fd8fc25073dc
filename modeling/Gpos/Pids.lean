import Gpos.Fork

/-! The numbers of the tasks, from any `last_pid`. Of the struct of a task only the fields are
kept that `copy_process` gives the copy for itself. -/

namespace Gpos

namespace Pids

open Mm Fork

structure Task where
  state : BitVec 32
  counter : BitVec 32
  priority : BitVec 32
  pid : BitVec 32
  father : BitVec 32
  leader : BitVec 32

structure Table where
  task : Nat → Option Task
  lastPid : BitVec 32

/-- `if ((++last_pid)<0) last_pid=1` -/
def increment (lastPid : BitVec 32) : BitVec 32 := if (lastPid + 1).slt 0 then 1 else lastPid + 1

def Live (k : Table) (n : BitVec 32) : Prop := ∃ i t, i < nrTasks ∧ k.task i = some t ∧ t.pid = n

instance (k : Table) (n : BitVec 32) : Decidable (Live k n) :=
  decidable_of_iff (∃ i ∈ List.range nrTasks, ∃ t ∈ k.task i, t.pid = n) (by simp [Live])

/-- `repeat`, with the rounds it may still take. -/
def repeatPid (k : Table) : Nat → BitVec 32 → Option (BitVec 32)
  | 0, _ => none
  | rounds + 1, lastPid =>
    if Live k (increment lastPid) then repeatPid k rounds (increment lastPid)
      else some (increment lastPid)

def emptySlot (k : Table) : Option Nat :=
  (List.range' 1 (nrTasks - 1)).find? fun i => (k.task i).isNone

def findEmptyProcess (rounds : Nat) (k : Table) : Option (Int × Table) :=
  (repeatPid k rounds k.lastPid).map fun n => ((emptySlot k).elim (-eagain) Nat.cast,
    { k with lastPid := n })

/-- `current` is the struct of the parent, which may have left the table. `page` and `copied` say
whether `get_free_page` and `copy_mem` succeed. -/
def copyProcess (current : Task) (page copied : Bool) (nr : Nat) (k : Table) : Int × Table :=
  if !page then (-eagain, k) else
  let p :=
    { current with
      state := 2, pid := k.lastPid, father := current.pid, leader := 0,
      counter := current.priority }
  if !copied then (-eagain, { k with
    task := Function.update (Function.update k.task nr (some p)) nr none })
  else (k.lastPid.toInt, { k with task := Function.update k.task nr (some { p with state := 0 }) })

def sysFork (rounds : Nat) (current : Task) (page copied : Bool) (k : Table) :
    Option (Int × Table) :=
  (findEmptyProcess rounds k).map fun e => if e.1 < 0 then e
    else copyProcess current page copied e.1.toNat e.2

inductive Event
  | fork (current : Task) (page copied : Bool)
  | remove (nr : Nat)

def exec (rounds : Nat) (k : Table) : Event → Option Table
  | .fork current page copied => (sysFork rounds current page copied k).map Prod.snd
  | .remove nr => some { k with task := Function.update k.task nr none }

def run (rounds : Nat) (k : Table) (es : List Event) : Option Table := es.foldlM (exec rounds) k

/-! The numbers tried are those of `nextPid`, except that minus one is followed by zero. -/

theorem toNat_increment (v : BitVec 32) :
    (increment v).toNat = if v.toNat + 1 < 2 ^ 31 then v.toNat + 1
      else if v.toNat + 1 = 2 ^ 32 then 0 else 1 := by
  have hv := v.isLt
  have hsum : (v + 1).toNat = (v.toNat + 1) % 2 ^ 32 := by simp [BitVec.toNat_add]
  have hslt : (v + 1).slt 0 = true ↔ 2 ^ 31 ≤ (v + 1).toNat := by
    exact BitVec.slt_zero_iff_msb_cond.trans (by simp [BitVec.msb_eq_decide])
  unfold increment
  split
  next h =>
    have hge := hslt.mp h
    rw [if_neg (by omega), if_neg (by omega)]
    rfl
  next h =>
    have hlt : ¬ 2 ^ 31 ≤ (v + 1).toNat := fun hge => h (hslt.mpr hge)
    split
    · omega
    · split <;> omega

theorem toNat_increment_lt (v : BitVec 32) : (increment v).toNat < 2 ^ 31 := by
  rw [toNat_increment]
  split
  · assumption
  · split <;> omega

theorem toNat_iterate {v : BitVec 32} (hv : v.toNat < 2 ^ 31) (j : Nat) :
    (increment^[j] v).toNat = nextPid^[j] v.toNat ∧ (increment^[j] v).toNat < 2 ^ 31 := by
  induction j with
  | zero => exact ⟨rfl, hv⟩
  | succ j ih =>
    rw [Function.iterate_succ_apply', Function.iterate_succ_apply']
    refine ⟨?_, toNat_increment_lt _⟩
    have hlt := ih.2
    rw [ih.1] at hlt
    rw [toNat_increment, ih.1]
    generalize nextPid^[j] v.toNat = n at hlt
    unfold nextPid
    split
    · rfl
    · exact if_neg (by omega)

theorem live_of_repeatPid {k : Table} {rounds : Nat} {lastPid : BitVec 32}
    (h : repeatPid k rounds lastPid = none) :
    ∀ j, j < rounds → Live k (increment^[j + 1] lastPid) := by
  induction rounds generalizing lastPid with
  | zero => exact fun j hj => absurd hj (Nat.not_lt_zero j)
  | succ rounds ih =>
    rw [repeatPid] at h
    split at h
    next ht =>
      rintro (_ | j) hj
      · exact ht
      · rw [Function.iterate_succ_apply]
        exact ih h j (by omega)
    next => cases h

/-- After the first number the orbit is that of `nextPid`, and two of `NR_TASKS + 1` numbers of it
would be those of one task. -/
theorem repeatPid_isSome (k : Table) (lastPid : BitVec 32) {rounds : Nat}
    (hr : nrTasks + 1 < rounds) : ∃ n, repeatPid k rounds lastPid = some n := by
  cases hp : repeatPid k rounds lastPid with
  | some n => exact ⟨n, rfl⟩
  | none =>
    have hlive : ∀ j : Fin (nrTasks + 1), Live k (increment^[j.val + 1] (increment lastPid)) := by
      intro j
      have := live_of_repeatPid hp (j + 1) (by omega)
      rwa [Function.iterate_succ_apply] at this
    choose i t hi ht hpid using hlive
    obtain ⟨a, b, hab, heq⟩ :=
      Fintype.exists_ne_map_eq_of_card_lt (fun j => (⟨i j, hi j⟩ : Fin nrTasks))
        (by simp [Fintype.card_fin])
    have hsame : i a = i b := congrArg Fin.val heq
    have htask : t a = t b := Option.some.inj (by rw [← ht a, ← ht b, hsame])
    have hword : increment^[a.val + 1] (increment lastPid) =
      increment^[b.val + 1] (increment lastPid) := by
      rw [← hpid a, ← hpid b, htask]
    have hval := congrArg BitVec.toNat hword
    rw [(toNat_iterate (toNat_increment_lt lastPid) _).1,
      (toNat_iterate (toNat_increment_lt lastPid) _).1] at hval
    have ha : a.val < 9 := a.isLt
    have hb : b.val < 9 := b.isLt
    exact absurd (Fin.ext (nextPid_iterate_inj (by omega) (by omega) hval)) hab

theorem repeatPid_not_live {k : Table} {rounds : Nat} {lastPid n : BitVec 32}
    (h : repeatPid k rounds lastPid = some n) : ¬ Live k n := by
  induction rounds generalizing lastPid with
  | zero => cases h
  | succ rounds ih =>
    rw [repeatPid] at h
    split at h
    next => exact ih h
    next hl =>
      obtain rfl := Option.some.inj h
      exact hl

theorem repeatPid_pos {k : Table} {rounds : Nat} {lastPid n : BitVec 32}
    (h : repeatPid k rounds lastPid = some n) (hlast : lastPid ≠ -1 ∨ Live k 0) : 0 < n.toInt := by
  induction rounds generalizing lastPid with
  | zero => cases h
  | succ rounds ih =>
    rw [repeatPid] at h
    have hlt := toNat_increment_lt lastPid
    split at h
    next =>
      refine ih h (Or.inl fun he => ?_)
      rw [he] at hlt
      exact absurd hlt (by decide)
    next hl =>
      obtain rfl := Option.some.inj h
      have hne : (increment lastPid).toNat ≠ 0 := by
        intro hz
        rcases hlast with hlast | hlast
        · rw [toNat_increment] at hz
          split_ifs at hz with h1 h2
          exact hlast
            (BitVec.eq_of_toNat_eq (by rw [show (-1 : BitVec 32).toNat = 2 ^ 32 - 1 from rfl]; omega))
        · have hzero : increment lastPid = 0 := BitVec.eq_of_toNat_eq hz
          exact hl (hzero ▸ hlast)
      rw [BitVec.toInt_eq_toNat_of_lt (by omega)]
      omega

theorem emptySlot_eq_none {k : Table} :
    emptySlot k = none ↔ ∀ i, 1 ≤ i → i < nrTasks → k.task i ≠ none := by
  simp only [emptySlot, List.find?_eq_none, List.mem_range'_1, Option.isNone_iff_eq_none, nrTasks]
  constructor
  · exact fun h i hi hlt => h i ⟨hi, by omega⟩
  · exact fun h i hi => h i hi.1 (by omega)

theorem emptySlot_eq_some {k : Table} {i : Nat} (h : emptySlot k = some i) :
    1 ≤ i ∧ i < nrTasks ∧ k.task i = none := by
  have hmem := List.mem_range'_1.mp (List.mem_of_find?_eq_some h)
  have hnone := List.find?_some h
  simp only [nrTasks] at *
  exact ⟨hmem.1, by omega, by simpa using hnone⟩

structure Found (k : Table) (r : Int) (k' : Table) : Prop where
  task : k'.task = k.task
  fresh : ¬ Live k k'.lastPid
  pos : k.lastPid ≠ -1 ∨ Live k 0 → 0 < k'.lastPid.toInt
  slot : (∃ i : Nat, r = i ∧ 1 ≤ i ∧ i < nrTasks ∧ k.task i = none) ∨
    r = -eagain ∧ ∀ i, 1 ≤ i → i < nrTasks → k.task i ≠ none

theorem findEmptyProcess_spec (k : Table) {rounds : Nat} (hr : nrTasks + 1 < rounds) :
    ∃ r k', findEmptyProcess rounds k = some (r, k') ∧ Found k r k' := by
  obtain ⟨n, hn⟩ := repeatPid_isSome k k.lastPid hr
  have hfind : findEmptyProcess rounds k = some ((emptySlot k).elim (-eagain) Nat.cast,
    { k with lastPid := n }) := by
    rw [findEmptyProcess, hn, Option.map_some]
  refine ⟨_, _, hfind, rfl, repeatPid_not_live hn, repeatPid_pos hn, ?_⟩
  cases hs : emptySlot k with
  | none => exact Or.inr ⟨rfl, emptySlot_eq_none.mp hs⟩
  | some i => exact Or.inl ⟨i, rfl, emptySlot_eq_some hs⟩

/-! No two live tasks have one number. -/

def Distinct (k : Table) : Prop :=
  ∀ i j t u, i < nrTasks → j < nrTasks → k.task i = some t → k.task j = some u →
    t.pid = u.pid → i = j

theorem Distinct.congr {k k' : Table} (h : Distinct k) (ht : k'.task = k.task) : Distinct k' := by
  intro i j t u hi hj hti htj
  rw [ht] at hti htj
  exact h i j t u hi hj hti htj

theorem Distinct.erase {k : Table} (h : Distinct k) (nr : Nat) :
    Distinct { k with task := Function.update k.task nr none } := by
  have hold : ∀ i t, Function.update k.task nr none i = some t → k.task i = some t := by
    intro i t ht
    by_cases he : i = nr
    · subst he
      simp at ht
    · rwa [Function.update_of_ne he] at ht
  intro i j t u hi hj ht hu
  exact h i j t u hi hj (hold i t ht) (hold j u hu)

theorem Distinct.insert {k : Table} (h : Distinct k) (nr : Nat) {p : Task} (hp : ¬ Live k p.pid) :
    Distinct { k with task := Function.update k.task nr (some p) } := by
  have hslot : ∀ i t, Function.update k.task nr (some p) i = some t →
    i = nr ∧ t = p ∨ k.task i = some t := by
    intro i t ht
    by_cases he : i = nr
    · subst he
      rw [Function.update_self, Option.some.injEq] at ht
      exact Or.inl ⟨rfl, ht.symm⟩
    · rw [Function.update_of_ne he] at ht
      exact Or.inr ht
  intro i j t u hi hj ht hu hpid
  rcases hslot i t ht with ⟨rfl, rfl⟩ | ht'
  · rcases hslot j u hu with ⟨rfl, -⟩ | hu'
    · rfl
    · exact absurd ⟨j, u, hj, hu', hpid.symm⟩ hp
  · rcases hslot j u hu with ⟨rfl, rfl⟩ | hu'
    · exact absurd ⟨i, t, hi, ht', hpid⟩ hp
    · exact h i j t u hi hj ht' hu' hpid

theorem Distinct.copyProcess {k : Table} (h : Distinct k) (hfresh : ¬ Live k k.lastPid)
    (current : Task) (page copied : Bool) (nr : Nat) :
    Distinct (copyProcess current page copied nr k).2 := by
  unfold Pids.copyProcess
  split
  · exact h
  · simp only
    split
    · exact (h.insert nr hfresh).erase nr
    · exact h.insert nr hfresh

theorem exec_distinct {k : Table} (h : Distinct k) {rounds : Nat} (hr : nrTasks + 1 < rounds)
    (e : Event) : ∃ k', exec rounds k e = some k' ∧ Distinct k' := by
  cases e with
  | remove nr => exact ⟨_, rfl, h.erase nr⟩
  | fork current page copied =>
    obtain ⟨r, k', hf, hk'⟩ := findEmptyProcess_spec k hr
    have hd := h.congr hk'.task
    have hfresh : ¬ Live k' k'.lastPid := by
      have := hk'.fresh
      simpa only [Live, hk'.task] using this
    simp only [exec, sysFork, hf, Option.map_some]
    refine ⟨_, rfl, ?_⟩
    split
    · exact hd
    · exact hd.copyProcess hfresh current page copied r.toNat

theorem run_distinct {k : Table} (h : Distinct k) {rounds : Nat} (hr : nrTasks + 1 < rounds)
    (es : List Event) : ∃ k', run rounds k es = some k' ∧ Distinct k' := by
  induction es generalizing k with
  | nil => exact ⟨k, rfl, h⟩
  | cons e es ih =>
    obtain ⟨k₁, he, h₁⟩ := exec_distinct h hr e
    obtain ⟨k₂, hes, h₂⟩ := ih h₁
    refine ⟨k₂, ?_, h₂⟩
    rw [run, List.foldlM_cons, he]
    exact hes

/-- The search ends at a number that no live task has, and no run gives a number twice. -/
theorem pids_distinct (k : Table) {rounds : Nat} (hr : nrTasks + 1 < rounds) :
    (∃ r k', findEmptyProcess rounds k = some (r, k') ∧ Found k r k') ∧
    (Distinct k → ∀ es, ∃ k', run rounds k es = some k' ∧ Distinct k') :=
  ⟨findEmptyProcess_spec k hr, fun h es => run_distinct h hr es⟩

/-- The first task alone, and the last number before the wrap. -/
def worn : Table where
  task i := if i = 0 then some ⟨0, 15, 15, 0, -1, 0⟩ else none
  lastPid := 0x7fffffff

theorem distinct_worn : Distinct worn := by
  have hslot : ∀ i t, worn.task i = some t → i = 0 := by
    intro i t ht
    simp only [worn] at ht
    split at ht
    · assumption
    · cases ht
  intro i j t u _ _ ht hu _
  rw [hslot i t ht, hslot j u hu]

theorem pids_distinct_worn :
    (∃ r k', findEmptyProcess 10 worn = some (r, k') ∧ Found worn r k') ∧
    ∃ k', run 10 worn [.fork ⟨0, 15, 15, 0, -1, 0⟩ true true, .remove 1] = some k' ∧ Distinct k' :=
  ⟨(pids_distinct worn (by decide)).1, (pids_distinct worn (by decide)).2 distinct_worn _⟩

theorem zero_after_minus_one :
    ∃ k', findEmptyProcess 10 { task := fun _ => none, lastPid := -1 } = some (1, k') ∧
      ¬ 0 < k'.lastPid.toInt :=
  ⟨{ task := fun _ => none, lastPid := 0 }, rfl, by decide⟩

/-! The tasks of `Kernel` have their structs in memory. -/

def ofKernel (k : Kernel) : Table where
  task i := if k.task i = 0 then none else
    some ⟨field k.mm (k.task i) state, field k.mm (k.task i) counter,
      field k.mm (k.task i) priority, field k.mm (k.task i) pid, field k.mm (k.task i) father,
      field k.mm (k.task i) leader⟩
  lastPid := BitVec.ofNat 32 k.lastPid

theorem live_ofKernel (k : Kernel) (n : Nat) :
    Live (ofKernel k) (BitVec.ofNat 32 n) ↔ Taken k n := by
  constructor
  · rintro ⟨i, t, hi, ht, hpid⟩
    simp only [ofKernel] at ht
    split at ht
    next => cases ht
    next hz =>
      obtain rfl := Option.some.inj ht
      exact ⟨i, hi, hz, hpid⟩
  · rintro ⟨i, hi, hz, hpid⟩
    exact ⟨i, _, hi, if_neg hz, hpid⟩

theorem increment_ofNat {n : Nat} (hn : n < 2 ^ 31) :
    increment (BitVec.ofNat 32 n) = BitVec.ofNat 32 (nextPid n) := by
  apply BitVec.eq_of_toNat_eq
  rw [toNat_increment, BitVec.toNat_ofNat, Nat.mod_eq_of_lt (by omega), BitVec.toNat_ofNat]
  unfold nextPid
  split
  · omega
  · rw [if_neg (by omega)]

theorem repeatPid_ofKernel (k : Kernel) {lastPid : Nat} (hlast : lastPid < 2 ^ 31) (rounds : Nat) :
    repeatPid (ofKernel k) rounds (BitVec.ofNat 32 lastPid) =
      (pickPid k rounds lastPid).map (BitVec.ofNat 32) := by
  induction rounds generalizing lastPid with
  | zero => rfl
  | succ rounds ih =>
    have hnext : nextPid lastPid < 2 ^ 31 := by unfold nextPid; split <;> omega
    simp only [repeatPid, pickPid, increment_ofNat hlast, live_ofKernel]
    split
    · exact ih hnext
    · rfl

theorem emptySlot_ofKernel (k : Kernel) : emptySlot (ofKernel k) = findSlot k := by
  unfold emptySlot findSlot
  congr 1
  funext i
  by_cases hz : k.task i = 0 <;> simp [ofKernel, hz]

/-- The table of numbers is all that `find_empty_process` sees of a kernel. -/
theorem findEmptyProcess_ofKernel {k : Kernel} (hlast : k.lastPid < 2 ^ 31) :
    findEmptyProcess (nrTasks + 1) (ofKernel k) = (Fork.findEmptyProcess k).map fun e =>
      (e.1, ofKernel e.2) := by
  have hrepeat := repeatPid_ofKernel k hlast (nrTasks + 1)
  have hlastPid : (ofKernel k).lastPid = BitVec.ofNat 32 k.lastPid := rfl
  rw [findEmptyProcess, hlastPid, hrepeat, emptySlot_ofKernel, Fork.findEmptyProcess,
    Option.map_map, Option.map_map]
  rfl

end Pids

end Gpos
