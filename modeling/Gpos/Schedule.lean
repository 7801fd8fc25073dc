import Gpos.PageFaults

/-! `schedule` and `do_timer`: how long a task may run and which one is next. -/

namespace Gpos

namespace Schedule

open Mm

/-- A 32-bit `long` holds the remainder. -/
def long (x : Int) : Int := x.bmod (2 ^ 32)

theorem long_eq {x : Int} (hlo : -2 ^ 31 ≤ x) (hhi : x < 2 ^ 31) : long x = x :=
  Int.bmod_eq_of_le (by omega) (by omega)

def taskRunning : Int := 0

/-- The fields of `struct task_struct` that the scheduler reads. -/
structure Task where
  state : Int
  counter : Int
  priority : Int

/-- `task[]` with `NULL` as `none`, and the slot of the task that runs. -/
structure Kernel where
  task : Nat → Option Task
  current : Nat

/-- The comparison of one slot with the largest counter so far and its slot. -/
def consider (t : Option Task) (i : Nat) (best : Int × Nat) : Int × Nat :=
  match t with
  | none => best
  | some t => if t.state = taskRunning ∧ best.1 < t.counter then (t.counter, i) else best

/-- `while (--i >= 0)`, from the slots below `i`. -/
def scan (task : Nat → Option Task) : Nat → Int × Nat → Int × Nat
  | 0, best => best
  | i + 1, best => scan task i (consider (task i) i best)

def recalculate (t : Task) : Task := { t with counter := long ((t.counter >>> (1 : Nat)) + t.priority) }

def recalculated (k : Kernel) : Kernel := { k with task := fun i => (k.task i).map recalculate }

def switchTo (next : Nat) (k : Kernel) : Kernel := { k with current := next }

/-- `while (1)`, with the rounds it may still take. -/
def schedule : Nat → Kernel → Option Kernel
  | 0, _ => none
  | rounds + 1, k =>
    let best := scan k.task nrTasks (-1, 0)
    if 0 < best.1 then some (switchTo best.2 k) else schedule rounds (recalculated k)

def setCounter (c : Int) (k : Kernel) : Kernel :=
  { k with
    task := Function.update k.task k.current ((k.task k.current).map fun t =>
      { t with counter := c }) }

/-- A timer tick, in the kernel when `cpl` is zero. `none` without a current task, or when the
loop of `schedule` does not end within the rounds. -/
def doTimer (rounds : Nat) (cpl : Int) (k : Kernel) : Option Kernel :=
  (k.task k.current).bind fun t =>
    let k' := setCounter (long (t.counter - 1)) k
    if 0 < long (t.counter - 1) then some k' else
    if cpl = 0 then some (setCounter 0 k') else schedule rounds (setCounter 0 k')

/-! The slots above `i` are behind the scan. -/

def Running (k : Kernel) (i : Nat) (t : Task) : Prop :=
  i < nrTasks ∧ k.task i = some t ∧ t.state = taskRunning

structure Best (k : Kernel) (i : Nat) (best : Int × Nat) : Prop where
  le : ∀ j t, i ≤ j → Running k j t → t.counter ≤ best.1
  mem : best.1 = -1 ∨ ∃ t, Running k best.2 t ∧ t.counter = best.1

theorem Best.consider {k : Kernel} {i : Nat} {best : Int × Nat} (h : Best k (i + 1) best)
    (hi : i < nrTasks) : Best k i (consider (k.task i) i best) := by
  have hslot : ∀ j t, i ≤ j → Running k j t → j = i ∧ k.task i = some t ∨ i + 1 ≤ j := by
    intro j t hj ht
    rcases Nat.eq_or_lt_of_le hj with rfl | hlt
    · exact Or.inl ⟨rfl, ht.2.1⟩
    · exact Or.inr hlt
  cases ht : k.task i with
  | none =>
    refine ⟨fun j t hj hr => ?_, h.mem⟩
    rcases hslot j t hj hr with ⟨-, he⟩ | hj
    · simp [ht] at he
    · exact h.le j t hj hr
  | some u =>
    simp only [Schedule.consider]
    split
    next hu =>
      refine ⟨fun j t hj hr => ?_, Or.inr ⟨u, ⟨hi, ht, hu.1⟩, rfl⟩⟩
      rcases hslot j t hj hr with ⟨-, he⟩ | hj
      · rw [ht, Option.some.injEq] at he
        rw [he]
      · exact (h.le j t hj hr).trans hu.2.le
    next hu =>
      refine ⟨fun j t hj hr => ?_, h.mem⟩
      rcases hslot j t hj hr with ⟨-, he⟩ | hj
      · rw [ht, Option.some.injEq] at he
        subst he
        by_contra hlt
        exact hu ⟨hr.2.2, not_le.mp hlt⟩
      · exact h.le j t hj hr

theorem Best.scan {k : Kernel} {i : Nat} {best : Int × Nat} (h : Best k i best) (hi : i ≤ nrTasks) :
    Best k 0 (scan k.task i best) := by
  induction i generalizing best with
  | zero => exact h
  | succ i ih => exact ih (h.consider hi) (by omega)

theorem best_scan (k : Kernel) : Best k 0 (scan k.task nrTasks (-1, 0)) := by
  apply Best.scan _ le_rfl
  exact ⟨fun j t hj ht => absurd ht.1 (by omega), Or.inl rfl⟩

/-! The bound on the counters. A priority above 2^30 leaves no room for a counter of twice the
priority in a `long`. -/

structure Fair (t : Task) : Prop where
  one_le : 1 ≤ t.priority
  nonneg : 0 ≤ t.counter
  lt : t.counter < 2 * t.priority

def Bounded (k : Kernel) : Prop := ∀ i t, i < nrTasks → k.task i = some t → Fair t

def Modest (k : Kernel) : Prop := ∀ i t, i < nrTasks → k.task i = some t → t.priority ≤ 2 ^ 30

theorem counter_recalculate {t : Task} (h : Fair t) (hp : t.priority ≤ 2 ^ 30) :
    (recalculate t).counter = t.counter / 2 + t.priority := by
  have hshift : t.counter >>> (1 : Nat) = t.counter / 2 := by simp [Int.shiftRight_eq_div_pow]
  have h1 := h.one_le
  have h0 := h.nonneg
  have hlt := h.lt
  simp only [recalculate, hshift]
  exact long_eq (by omega) (by omega)

theorem Fair.recalculate {t : Task} (h : Fair t) (hp : t.priority ≤ 2 ^ 30) : Fair (recalculate t) := by
  have h1 := h.one_le
  have h0 := h.nonneg
  have hlt := h.lt
  have hc := counter_recalculate h hp
  refine ⟨h1, ?_, ?_⟩ <;> rw [hc]
  · omega
  · change _ < 2 * t.priority
    omega

theorem Bounded.recalculated {k : Kernel} (h : Bounded k) (hp : Modest k) : Bounded (recalculated k) := by
  intro i t hi ht
  obtain ⟨u, hu, rfl⟩ := Option.map_eq_some_iff.mp ht
  exact (h i u hi hu).recalculate (hp i u hi hu)

theorem Bounded.setCounter {k : Kernel} {c : Int} (h : Bounded k)
    (hc : ∀ t, k.task k.current = some t → 0 ≤ c ∧ c < 2 * t.priority) :
    Bounded (setCounter c k) := by
  intro i t hi ht
  by_cases he : i = k.current
  · subst he
    simp only [Schedule.setCounter, Function.update_self] at ht
    obtain ⟨u, hu, rfl⟩ := Option.map_eq_some_iff.mp ht
    exact ⟨(h _ u hi hu).one_le, (hc u hu).1, (hc u hu).2⟩
  · simp only [Schedule.setCounter, Function.update_of_ne he] at ht
    exact h i t hi ht

/-- The task that `schedule` leaves as the current one. -/
def Chosen (k : Kernel) : Prop :=
  ∃ t, Running k k.current t ∧ 0 < t.counter ∧ ∀ j u, Running k j u → u.counter ≤ t.counter

def Runnable (k : Kernel) : Prop := ∃ i t, Running k i t

/-- Every task that can run has used up its time. -/
def Spent (k : Kernel) : Prop := ∀ i t, Running k i t → t.counter = 0

theorem chosen_of_scan {k : Kernel} (h : 0 < (scan k.task nrTasks (-1, 0)).1) :
    Chosen (switchTo (scan k.task nrTasks (-1, 0)).2 k) := by
  have hb := best_scan k
  rcases hb.mem with he | ⟨t, ht, he⟩
  · omega
  · exact ⟨t, ht, by omega, fun j u hu => by
      rw [he]
      exact hb.le j u (Nat.zero_le j) hu⟩

theorem spent_of_scan {k : Kernel} (hk : Bounded k) (h : ¬ 0 < (scan k.task nrTasks (-1, 0)).1) :
    Spent k := by
  intro i t ht
  have hle := (best_scan k).le i t (Nat.zero_le i) ht
  have h0 := (hk i t ht.1 ht.2.1).nonneg
  omega

/-- The recalculation gives a task that can run its priority, so the next scan finds it. -/
theorem scan_recalculated {k : Kernel} (hk : Bounded k) (hp : Modest k) (hr : Runnable k) :
    0 < (scan (recalculated k).task nrTasks (-1, 0)).1 := by
  obtain ⟨i, t, ht⟩ := hr
  have hf := hk i t ht.1 ht.2.1
  have hrun : Running (recalculated k) i (recalculate t) := by
    refine ⟨ht.1, ?_, ht.2.2⟩
    simp [recalculated, ht.2.1]
  have hle := (best_scan (recalculated k)).le i _ (Nat.zero_le i) hrun
  have hc := counter_recalculate hf (hp i t ht.1 ht.2.1)
  have h1 := hf.one_le
  have h0 := hf.nonneg
  omega

theorem schedule_eq {k : Kernel} (hk : Bounded k) (hp : Modest k) (hr : Runnable k) {rounds : Nat}
    (h2 : 2 ≤ rounds) : schedule rounds k = schedule 2 k := by
  obtain ⟨n, rfl⟩ := Nat.exists_eq_add_of_le' h2
  simp only [schedule, if_pos (scan_recalculated hk hp hr)]

theorem schedule_spec {k : Kernel} (hk : Bounded k) (hp : Modest k) (hr : Runnable k) :
    ∃ k', schedule 2 k = some k' ∧ Chosen k' ∧ Bounded k' ∧
      (k'.task = k.task ∨ Spent k ∧ k'.task = (recalculated k).task) := by
  by_cases hc : 0 < (scan k.task nrTasks (-1, 0)).1
  · refine ⟨_, if_pos hc, chosen_of_scan hc, hk, Or.inl rfl⟩
  · have hn := scan_recalculated hk hp hr
    have hs : schedule 2 k = some (switchTo (scan (recalculated k).task nrTasks (-1, 0)).2 (recalculated k)) := by
      simp only [schedule, if_neg hc, if_pos hn]
    exact ⟨_, hs, chosen_of_scan hn, hk.recalculated hp, Or.inr ⟨spent_of_scan hk hc, rfl⟩⟩

theorem Modest.setCounter {k : Kernel} (h : Modest k) (c : Int) : Modest (setCounter c k) := by
  intro i t hi ht
  by_cases he : i = k.current
  · subst he
    simp only [Schedule.setCounter, Function.update_self] at ht
    obtain ⟨u, hu, rfl⟩ := Option.map_eq_some_iff.mp ht
    exact h _ u hi hu
  · simp only [Schedule.setCounter, Function.update_of_ne he] at ht
    exact h i t hi ht

theorem Runnable.setCounter {k : Kernel} (h : Runnable k) (c : Int) :
    Runnable (setCounter c k) := by
  obtain ⟨i, t, hi, ht, hs⟩ := h
  by_cases he : i = k.current
  · subst he
    exact ⟨k.current, { t with counter := c }, hi, by simp [Schedule.setCounter, ht], hs⟩
  · exact ⟨i, t, hi, by simp [Schedule.setCounter, he, ht], hs⟩

theorem doTimer_spec {k : Kernel} {t : Task} (hk : Bounded k) (hp : Modest k) (hr : Runnable k)
    (hi : k.current < nrTasks) (ht : k.task k.current = some t) {rounds : Nat} (h2 : 2 ≤ rounds)
    (cpl : Int) :
    ∃ k', doTimer rounds cpl k = some k' ∧ Bounded k' := by
  have hf := hk k.current t hi ht
  have h1 := hf.one_le
  have h0 := hf.nonneg
  have hlt := hf.lt
  have hlong : long (t.counter - 1) = t.counter - 1 :=
    long_eq (by omega) (by have := hp k.current t hi ht; omega)
  simp only [doTimer, ht, Option.bind_some, hlong]
  by_cases hpos : 0 < t.counter - 1
  · rw [if_pos hpos]
    refine ⟨_, rfl, hk.setCounter fun u hu => ?_⟩
    rw [ht, Option.some.injEq] at hu
    subst hu
    exact ⟨by omega, by omega⟩
  · rw [if_neg hpos]
    generalize hq : setCounter (t.counter - 1) k = q
    have hz : setCounter 0 q = setCounter 0 k := by
      simp only [← hq, setCounter, Function.update_self, Function.update_idem, Option.map_map]
      rfl
    have hb : Bounded (setCounter 0 k) := hk.setCounter fun u hu => by
      have := (hk k.current u hi hu).one_le
      exact ⟨le_rfl, by omega⟩
    rw [hz]
    split
    · exact ⟨_, rfl, hb⟩
    · rw [schedule_eq hb (hp.setCounter 0) (hr.setCounter 0) h2]
      obtain ⟨k', hs, -, hb', -⟩ := schedule_spec hb (hp.setCounter 0) (hr.setCounter 0)
      exact ⟨k', hs, hb'⟩

/-- The loop ends after at most one recalculation with the task that has the most time left, and
the bound on the counters outlives both functions. -/
theorem schedule_chooses {k : Kernel} (hk : Bounded k) (hp : Modest k) (hr : Runnable k)
    {rounds : Nat} (h2 : 2 ≤ rounds) : (∃ k', schedule rounds k = some k' ∧ Chosen k' ∧ Bounded k' ∧
      (k'.task = k.task ∨ Spent k ∧ k'.task = (recalculated k).task)) ∧
    ∀ cpl t, k.current < nrTasks → k.task k.current = some t →
      ∃ k', doTimer rounds cpl k = some k' ∧ Bounded k' := by
  constructor
  · rw [schedule_eq hk hp hr h2]
    exact schedule_spec hk hp hr
  · intro cpl t hi ht
    exact doTimer_spec hk hp hr hi ht h2 cpl

/-- Three tasks can run and have no time left, the last one sleeps. -/
def spentTasks : List Task := [⟨0, 0, 15⟩, ⟨0, 0, 20⟩, ⟨0, 0, 15⟩, ⟨1, 7, 25⟩]

def spent : Kernel := { task := fun i => spentTasks[i]?, current := 2 }

theorem bounded_spent : Bounded spent ∧ Modest spent ∧ Runnable spent := by
  have hall : ∀ t ∈ spentTasks, (1 ≤ t.priority ∧ 0 ≤ t.counter ∧ t.counter < 2 * t.priority) ∧
      t.priority ≤ 2 ^ 30 := by decide
  refine ⟨fun i t _ ht => ?_, fun i t _ ht => (hall t (List.mem_of_getElem? ht)).2, 0, ⟨0, 0, 15⟩,
    by decide, rfl, rfl⟩
  obtain ⟨h₁, h₂, h₃⟩ := (hall t (List.mem_of_getElem? ht)).1
  exact ⟨h₁, h₂, h₃⟩

/-- The counters are computed again, and the task with the highest priority is next. -/
theorem schedule_chooses_spent :
    (schedule 2 spent).map Kernel.current = some 1 ∧
    (∃ k', schedule 2 spent = some k' ∧ Chosen k' ∧ Bounded k' ∧
      (k'.task = spent.task ∨ Spent spent ∧ k'.task = (recalculated spent).task)) ∧
    ∃ k', doTimer 2 3 spent = some k' ∧ Bounded k' := by
  have h := schedule_chooses bounded_spent.1 bounded_spent.2.1 bounded_spent.2.2 (le_refl 2)
  exact ⟨by decide +kernel, h.1, h.2 3 ⟨0, 0, 15⟩ (by decide) rfl⟩

/-- A sleeping task with the largest priority and two ticks left, beside a task without time. -/
def crowded : Kernel where
  task i := if i = 0 then some ⟨0, 0, 15⟩ else if i = 1 then some ⟨1, 2, 2 ^ 31 - 1⟩ else none
  current := 0

theorem crowded_overflow :
    Bounded crowded ∧ Runnable crowded ∧ ∃ k', schedule 2 crowded = some k' ∧ ¬ Bounded k' := by
  refine ⟨?_, ⟨0, ⟨0, 0, 15⟩, by decide, rfl, rfl⟩, ?_⟩
  · intro i t _ ht
    simp only [crowded] at ht
    split_ifs at ht with h0 h1
    · obtain rfl := Option.some.inj ht
      exact ⟨by decide, by decide, by decide⟩
    · obtain rfl := Option.some.inj ht
      exact ⟨by decide, by decide, by decide⟩
  · refine ⟨switchTo 0 (recalculated crowded), rfl, fun h => ?_⟩
    have hn := (h 1 _ (by decide) rfl).nonneg
    revert hn
    decide

end Schedule

end Gpos
