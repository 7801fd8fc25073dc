import Gpos.Run
import Gpos.Schedule
import Mathlib.Algebra.BigOperators.Group.Finset.Piecewise
import Mathlib.Algebra.BigOperators.Ring.Finset
import Mathlib.Algebra.Order.BigOperators.Group.Finset

/-! How long a task that can run waits for the processor, whatever the others do. -/

namespace Gpos

namespace Schedule

open Mm

/-- A timer tick, `sleep_on` and `schedule` of the current task, and `wake_up`. -/
inductive Event
  | tick (cpl : Int)
  | block (state : Int)
  | yield
  | wake (i : Nat)

def setState (state : Int) (i : Nat) (k : Kernel) : Kernel :=
  { k with task := Function.update k.task i ((k.task i).map fun t => { t with state }) }

/-- Task 0 never sleeps: it stays in a loop of `sleep_on`. -/
def step (rounds : Nat) : Event → Kernel → Option Kernel
  | .tick cpl, k => doTimer rounds cpl k
  | .block state, k =>
    if k.current = 0 then none else schedule rounds (setState state k.current k)
  | .yield, k => schedule rounds k
  | .wake i, k => some (setState taskRunning i k)

/-- The ticks outside the kernel. -/
def userTicks (es : List Event) : Nat := es.countP fun
  | .tick cpl => cpl ≠ 0
  | _ => false

def counterAt (k : Kernel) (i : Nat) : Int := ((k.task i).map Task.counter).getD 0

def priorityAt (k : Kernel) (i : Nat) : Int := ((k.task i).map Task.priority).getD 0

def total (k : Kernel) : Int := ∑ i ∈ Finset.range nrTasks, counterAt k i

def priorities (k : Kernel) : Int := ∑ i ∈ Finset.range nrTasks, priorityAt k i

/-- The time until the counters are recalculated and task `i` has used up its counter. -/
def epoch (i : Nat) (k : Kernel) : Int :=
  total k + if counterAt k i = 0 then 2 * priorities k else 0

/-- A current task without time costs one more tick. -/
def potential (i : Nat) (k : Kernel) : Int :=
  2 * epoch i k + if counterAt k k.current = 0 then 1 else 0

/-- Task `i` can run, and there is a current task. -/
structure Waiting (i : Nat) (k : Kernel) : Prop where
  bounded : Bounded k
  modest : Modest k
  current : k.current < nrTasks ∧ (k.task k.current).isSome
  running : ∃ t, Running k i t

variable {i : Nat} {k k' : Kernel} {t : Task}

theorem counterAt_of_some (h : k.task i = some t) : counterAt k i = t.counter := by
  rw [counterAt, h]
  rfl

theorem counterAt_nonneg (hk : Bounded k) (hi : i < nrTasks) : 0 ≤ counterAt k i := by
  cases h : k.task i with
  | none => simp [counterAt, h]
  | some t => exact counterAt_of_some h ▸ (hk i t hi h).nonneg

theorem counterAt_setCounter (ht : k.task k.current = some t) (c : Int) :
    counterAt (setCounter c k) = Function.update (counterAt k) k.current c := by
  funext j
  by_cases hj : j = k.current
  · subst hj
    simp [counterAt, setCounter, ht]
  · simp [counterAt, setCounter, hj]

theorem priorityAt_setCounter (c : Int) : priorityAt (setCounter c k) = priorityAt k := by
  funext j
  by_cases hj : j = k.current
  · subst hj
    cases h : k.task k.current <;> simp [priorityAt, setCounter, h]
  · simp [priorityAt, setCounter, hj]

theorem priorities_setCounter (c : Int) : priorities (setCounter c k) = priorities k := by
  rw [priorities, priorityAt_setCounter, priorities]

theorem total_setCounter (hi : k.current < nrTasks) (ht : k.task k.current = some t) (c : Int) :
    total (setCounter c k) = total k - t.counter + c := by
  have hmem : k.current ∈ Finset.range nrTasks := Finset.mem_range.mpr hi
  rw [total, total, counterAt_setCounter ht, Finset.sum_update_of_mem hmem,
    Finset.sum_eq_add_sum_sdiff_singleton_of_mem hmem (counterAt k), counterAt_of_some ht]
  omega

/-- The other tasks' time is as before. -/
theorem epoch_setCounter (hne : k.current ≠ i) (hi : k.current < nrTasks)
    (ht : k.task k.current = some t) (c : Int) :
    epoch i (setCounter c k) = epoch i k - t.counter + c := by
  have hc : counterAt (setCounter c k) i = counterAt k i := by
    rw [counterAt_setCounter ht, Function.update_of_ne hne.symm]
  rw [epoch, epoch, hc, priorities_setCounter, total_setCounter hi ht]
  omega

theorem counterAt_setState (state : Int) (j : Nat) :
    counterAt (setState state j k) = counterAt k := by
  funext l
  by_cases hl : l = j
  · subst hl
    cases h : k.task l <;> simp [counterAt, setState, h]
  · simp [counterAt, setState, hl]

theorem priorityAt_setState (state : Int) (j : Nat) :
    priorityAt (setState state j k) = priorityAt k := by
  funext l
  by_cases hl : l = j
  · subst hl
    cases h : k.task l <;> simp [priorityAt, setState, h]
  · simp [priorityAt, setState, hl]

theorem epoch_setState (state : Int) (j : Nat) : epoch i (setState state j k) = epoch i k := by
  rw [epoch, epoch, total, total, priorities, priorities, counterAt_setState, priorityAt_setState]

theorem task_setState {state : Int} {j l : Nat} (h : (setState state j k).task l = some t) :
    ∃ u, k.task l = some u ∧ t.counter = u.counter ∧ t.priority = u.priority := by
  by_cases hl : l = j
  · subst hl
    simp only [setState, Function.update_self] at h
    obtain ⟨u, hu, rfl⟩ := Option.map_eq_some_iff.mp h
    exact ⟨u, hu, rfl, rfl⟩
  · simp only [setState, Function.update_of_ne hl] at h
    exact ⟨t, h, rfl, rfl⟩

theorem Bounded.setState (h : Bounded k) (state : Int) (j : Nat) :
    Bounded (setState state j k) := by
  intro l t hl ht
  obtain ⟨u, hu, hc, hp⟩ := task_setState ht
  have hf := h l u hl hu
  exact ⟨hp ▸ hf.one_le, hc ▸ hf.nonneg, by rw [hc, hp]; exact hf.lt⟩

theorem Modest.setState (h : Modest k) (state : Int) (j : Nat) : Modest (setState state j k) := by
  intro l t hl ht
  obtain ⟨u, hu, -, hp⟩ := task_setState ht
  exact hp ▸ h l u hl hu

theorem isSome_setState (state : Int) (j l : Nat) :
    ((setState state j k).task l).isSome = (k.task l).isSome := by
  by_cases hl : l = j
  · subst hl
    simp [setState]
  · simp [setState, hl]

theorem total_nonneg (hk : Bounded k) : 0 ≤ total k :=
  Finset.sum_nonneg fun _ hj => counterAt_nonneg hk (Finset.mem_range.mp hj)

/-- A recalculation leaves every counter below twice the priority. -/
theorem total_recalculated (hk : Bounded k) (hp : Modest k) :
    total (recalculated k) ≤ 2 * priorities k := by
  rw [total, priorities, Finset.mul_sum]
  refine Finset.sum_le_sum fun j hj => ?_
  have hj' : j < nrTasks := Finset.mem_range.mp hj
  cases h : k.task j with
  | none => simp [counterAt, priorityAt, recalculated, h]
  | some t =>
    have hf := hk j t hj' h
    have hc := counter_recalculate hf (hp j t hj' h)
    have hlt := hf.lt
    have hone := hf.one_le
    have hc' : counterAt (recalculated k) j = (recalculate t).counter :=
      counterAt_of_some (by simp [recalculated, h])
    have hp' : priorityAt k j = t.priority := by simp [priorityAt, h]
    rw [hc', hc, hp']
    omega

theorem epoch_recalculated (hk : Bounded k) (hp : Modest k) (hs : Spent k)
    (hi : Running k i t) : epoch i (recalculated k) ≤ epoch i k := by
  have hf := hk i t hi.1 hi.2.1
  have hzero : counterAt k i = 0 := by rw [counterAt_of_some hi.2.1, hs i t hi]
  have hpos : counterAt (recalculated k) i ≠ 0 := by
    have hc := counter_recalculate hf (hp i t hi.1 hi.2.1)
    have hone := hf.one_le
    have hnonneg := hf.nonneg
    rw [counterAt_of_some (t := recalculate t) (by simp [recalculated, hi.2.1]), hc]
    omega
  rw [epoch, epoch, if_neg hpos, if_pos hzero]
  have hle := total_recalculated hk hp
  have hnonneg := total_nonneg hk
  omega

theorem epoch_congr {q : Kernel} (h : k.task = q.task) : epoch i k = epoch i q := by
  obtain ⟨task, current⟩ := k
  obtain rfl : task = q.task := h
  rfl

theorem Modest.recalculated (hp : Modest k) : Modest (recalculated k) := by
  intro j t hj ht
  obtain ⟨u, hu, rfl⟩ := Option.map_eq_some_iff.mp ht
  exact hp j u hj hu

theorem schedule_waits (hk : Bounded k) (hp : Modest k) (hi : Running k i t) {rounds : Nat}
    (h2 : 2 ≤ rounds) (h : schedule rounds k = some k') :
    Waiting i k' ∧ potential i k' ≤ 2 * epoch i k := by
  have hr : Runnable k := ⟨i, t, hi⟩
  rw [schedule_eq hk hp hr h2] at h
  obtain ⟨u, hu, hchosen, hbounded, htask⟩ := schedule_spec hk hp hr
  rw [hu] at h
  cases h
  obtain ⟨v, hv, hpos, -⟩ := hchosen
  have hcurrent : counterAt k' k'.current ≠ 0 := by
    rw [counterAt_of_some hv.2.1]
    omega
  have hsome : k'.current < nrTasks ∧ (k'.task k'.current).isSome := ⟨hv.1, by simp [hv.2.1]⟩
  rw [potential, if_neg hcurrent]
  rcases htask with hq | ⟨hspent, hq⟩
  · refine ⟨⟨hbounded, fun j w hj hw => hp j w hj (hq ▸ hw), hsome, t, hi.1, ?_, hi.2.2⟩, ?_⟩
    · rw [hq]
      exact hi.2.1
    · rw [epoch_congr hq]
      omega
  · refine ⟨⟨hbounded, fun j w hj hw => hp.recalculated j w hj (hq ▸ hw), hsome, recalculate t,
      hi.1, ?_, hi.2.2⟩, ?_⟩
    · rw [hq]
      simp [recalculated, hi.2.1]
    · rw [epoch_congr hq]
      have hle := epoch_recalculated hk hp hspent hi
      omega

/-- One tick costs a unit of the time of the others, outside the kernel. -/
theorem doTimer_waits (hw : Waiting i k) (hne : k.current ≠ i) {rounds : Nat} (h2 : 2 ≤ rounds)
    {cpl : Int} (h : doTimer rounds cpl k = some k') :
    Waiting i k' ∧ potential i k' + (if cpl = 0 then 0 else 1) ≤ potential i k := by
  obtain ⟨hk, hp, ⟨hlt, hsome⟩, u, hu⟩ := hw
  obtain ⟨t, ht⟩ := Option.isSome_iff_exists.mp hsome
  have hf := hk k.current t hlt ht
  have hone := hf.one_le
  have hnonneg := hf.nonneg
  have hlow := hf.lt
  have hlong : long (t.counter - 1) = t.counter - 1 :=
    long_eq (by omega) (by have := hp k.current t hlt ht; omega)
  have hset (c : Int) : (setCounter c k).task k.current = some { t with counter := c } := by
    simp [setCounter, ht]
  have hwaits {c : Int} (hc : 0 ≤ c ∧ c < 2 * t.priority) : Waiting i (setCounter c k) := by
    refine ⟨hk.setCounter fun v hv => ?_, hp.setCounter c, ⟨hlt, ?_⟩, u, hu.1, ?_, hu.2.2⟩
    · rw [ht] at hv
      cases hv
      exact hc
    · show ((setCounter c k).task k.current).isSome
      rw [hset]
      rfl
    · simp [setCounter, hne.symm, hu.2.1]
  have hpot (c : Int) : potential i (setCounter c k) =
      2 * (epoch i k - t.counter + c) + if c = 0 then 1 else 0 := by
    have hc : counterAt (setCounter c k) (setCounter c k).current = c := counterAt_of_some (hset c)
    rw [potential, hc, epoch_setCounter hne hlt ht]
  have hcur : potential i k = 2 * epoch i k + if t.counter = 0 then 1 else 0 := by
    rw [potential, counterAt_of_some ht]
  have hidem : setCounter 0 (setCounter (t.counter - 1) k) = setCounter 0 k := by
    simp only [setCounter, Function.update_self, Function.update_idem, Option.map_map]
    rfl
  simp only [doTimer, ht, Option.bind_some, hlong, hidem] at h
  split at h
  next hpos =>
    cases h
    refine ⟨hwaits ⟨by omega, by omega⟩, ?_⟩
    rw [hpot, hcur]
    split <;> split <;> split <;> omega
  next hpos =>
    have hzero : Waiting i (setCounter 0 k) := hwaits ⟨le_rfl, by omega⟩
    split at h
    next =>
      cases h
      refine ⟨hzero, ?_⟩
      rw [hpot, hcur]
      split <;> split <;> omega
    next hcpl =>
      obtain ⟨v, hv⟩ := hzero.running
      obtain ⟨hw', hle⟩ := schedule_waits hzero.bounded hzero.modest hv h2 h
      refine ⟨hw', ?_⟩
      rw [epoch_setCounter hne hlt ht] at hle
      rw [hcur]
      split <;> omega

theorem step_waits (hw : Waiting i k) (hne : k.current ≠ i) {rounds : Nat} (h2 : 2 ≤ rounds)
    {e : Event} (h : step rounds e k = some k') :
    Waiting i k' ∧ potential i k' + userTicks [e] ≤ potential i k := by
  have hepoch : 2 * epoch i k ≤ potential i k := by
    rw [potential]
    split <;> omega
  cases e with
  | tick cpl =>
    obtain ⟨hw', hle⟩ := doTimer_waits hw hne h2 h
    refine ⟨hw', ?_⟩
    by_cases hcpl : cpl = 0 <;> simpa [userTicks, hcpl] using hle
  | block state =>
    simp only [step] at h
    split at h
    · cases h
    obtain ⟨u, hu⟩ := hw.running
    have hi : Running (setState state k.current k) i u := by
      refine ⟨hu.1, ?_, hu.2.2⟩
      simp [setState, hne.symm, hu.2.1]
    obtain ⟨hw', hle⟩ := schedule_waits (hw.bounded.setState _ _) (hw.modest.setState _ _) hi h2 h
    rw [epoch_setState] at hle
    exact ⟨hw', by simpa [userTicks] using hle.trans hepoch⟩
  | yield =>
    obtain ⟨u, hu⟩ := hw.running
    obtain ⟨hw', hle⟩ := schedule_waits hw.bounded hw.modest hu h2 h
    exact ⟨hw', by simpa [userTicks] using hle.trans hepoch⟩
  | wake j =>
    cases h
    obtain ⟨u, hu⟩ := hw.running
    refine ⟨⟨hw.bounded.setState _ _, hw.modest.setState _ _, ⟨hw.current.1, ?_⟩, ?_⟩, ?_⟩
    · exact (isSome_setState _ _ _).trans hw.current.2
    · by_cases hj : i = j
      · subst hj
        exact ⟨{ u with state := taskRunning }, hu.1, by simp [setState, hu.2.1], rfl⟩
      · exact ⟨u, hu.1, by simp [setState, hj, hu.2.1], hu.2.2⟩
    · have hcur : counterAt (setState taskRunning j k) (setState taskRunning j k).current =
          counterAt k k.current := by rw [counterAt_setState]; rfl
      rw [potential, potential, epoch_setState, hcur]
      simp [userTicks]

theorem userTicks_cons (e : Event) (es : List Event) :
    userTicks (e :: es) = userTicks [e] + userTicks es := by
  rw [userTicks, ← List.singleton_append, List.countP_append]
  rfl

theorem exec_waits {rounds : Nat} (h2 : 2 ≤ rounds) {es : List Event} (hw : Waiting i k)
    (hne : Run.Always (step rounds) (fun k => k.current ≠ i) es k)
    (he : Run.exec (step rounds) es k = some k') :
    Waiting i k' ∧ potential i k' + userTicks es ≤ potential i k := by
  induction es generalizing k with
  | nil =>
    cases he
    exact ⟨hw, by simp [userTicks]⟩
  | cons e es ih =>
    obtain ⟨q, hq, hrest⟩ := Option.bind_eq_some_iff.mp he
    obtain ⟨hwq, hle⟩ := step_waits hw hne.head h2 hq
    obtain ⟨hw', hle'⟩ := ih hwq (hne.2 q hq) hrest
    refine ⟨hw', ?_⟩
    rw [userTicks_cons]
    push_cast
    omega

theorem schedule_isSome (hw : Waiting i k) {rounds : Nat} (h2 : 2 ≤ rounds) :
    (schedule rounds k).isSome := by
  obtain ⟨u, hu⟩ := hw.running
  have hr : Runnable k := ⟨i, u, hu⟩
  obtain ⟨k', hk', -⟩ := schedule_spec hw.bounded hw.modest hr
  rw [schedule_eq hw.bounded hw.modest hr h2, hk']
  rfl

theorem step_isSome (hw : Waiting i k) (hne : k.current ≠ i) {rounds : Nat} (h2 : 2 ≤ rounds)
    {e : Event} (he : k.current ≠ 0 ∨ ∀ state, e ≠ .block state) : (step rounds e k).isSome := by
  cases e with
  | tick cpl =>
    obtain ⟨t, ht⟩ := Option.isSome_iff_exists.mp hw.current.2
    obtain ⟨u, hu⟩ := hw.running
    obtain ⟨k', hk', -⟩ :=
      doTimer_spec hw.bounded hw.modest ⟨i, u, hu⟩ hw.current.1 ht h2 cpl
    rw [step, hk']
    rfl
  | block state =>
    obtain ⟨u, hu⟩ := hw.running
    rw [step, if_neg (he.resolve_right fun h => h state rfl)]
    exact schedule_isSome ⟨hw.bounded.setState _ _, hw.modest.setState _ _,
      ⟨hw.current.1, (isSome_setState _ _ _).trans hw.current.2⟩, u, hu.1,
      by simp [setState, hne.symm, hu.2.1], hu.2.2⟩ h2
  | yield => exact schedule_isSome hw h2
  | wake j => rfl

theorem priorities_nonneg (hk : Bounded k) : 0 ≤ priorities k := by
  refine Finset.sum_nonneg fun j hj => ?_
  cases h : k.task j with
  | none => simp [priorityAt, h]
  | some t =>
    have hone := (hk j t (Finset.mem_range.mp hj) h).one_le
    have hp : priorityAt k j = t.priority := by simp [priorityAt, h]
    omega

theorem epoch_nonneg (hk : Bounded k) : 0 ≤ epoch i k := by
  have htotal := total_nonneg hk
  have hpriorities := priorities_nonneg hk
  rw [epoch]
  split <;> omega

/-- A task that can run waits for at most so many ticks outside the kernel, whatever the tasks
there are do meanwhile, and nothing but a sleeping task 0 stops them. -/
theorem waits_bounded {rounds : Nat} (h2 : 2 ≤ rounds) {es : List Event} (hk : Bounded k)
    (hp : Modest k) (hcur : k.current < nrTasks ∧ (k.task k.current).isSome)
    (hi : ∃ t, Running k i t) (hne : Run.Always (step rounds) (fun k => k.current ≠ i) es k)
    (he : Run.exec (step rounds) es k = some k') :
    (userTicks es : Int) ≤ 2 * (total k + 2 * priorities k) + 1 ∧
      ∀ e, (k'.current ≠ 0 ∨ ∀ state, e ≠ .block state) → (step rounds e k').isSome := by
  obtain ⟨hw, hle⟩ := exec_waits h2 ⟨hk, hp, hcur, hi⟩ hne he
  refine ⟨?_, fun e he' => step_isSome hw (hne.last he) h2 he'⟩
  have hend : 0 ≤ potential i k' := by
    have hepoch := epoch_nonneg (i := i) hw.bounded
    rw [potential]
    split <;> omega
  have hstart : potential i k ≤ 2 * (total k + 2 * priorities k) + 1 := by
    have hpriorities := priorities_nonneg hk
    rw [potential, epoch]
    split <;> split <;> omega
  omega

/-- Task 1 waits for task 0. -/
def pair : Kernel where
  task i := if i < 2 then some ⟨0, 15, 15⟩ else none
  current := 0

theorem waits_bounded_pair :
    ∃ k', Run.exec (step 2) [.tick 3, .tick 0, .wake 1, .tick 3] pair = some k' ∧
    (2 : Int) ≤ 2 * (total pair + 2 * priorities pair) + 1 ∧ (step 2 .yield k').isSome := by
  have htask : ∀ i t, pair.task i = some t → t = ⟨0, 15, 15⟩ := by
    intro i t ht
    simp only [pair] at ht
    split at ht
    · exact (Option.some.inj ht).symm
    · cases ht
  have hbounded : Bounded pair := fun i t _ ht => by
    rw [htask i t ht]
    exact ⟨by decide, by decide, by decide⟩
  have hmodest : Modest pair := fun i t _ ht => by
    rw [htask i t ht]
    decide
  have hne : Run.Always (step 2) (fun k => k.current ≠ 1)
      [.tick 3, .tick 0, .wake 1, .tick 3] pair := by
    refine ⟨by decide, fun t ht => ?_⟩
    obtain rfl := Option.some.inj ht
    refine ⟨by decide, fun t ht => ?_⟩
    obtain rfl := Option.some.inj ht
    refine ⟨by decide, fun t ht => ?_⟩
    obtain rfl := Option.some.inj ht
    refine ⟨by decide, fun t ht => ?_⟩
    obtain rfl := Option.some.inj ht
    exact (by decide : (0 : Nat) ≠ 1)
  obtain ⟨h, hstep⟩ := waits_bounded (i := 1) le_rfl hbounded hmodest ⟨by decide, rfl⟩
    ⟨_, by decide, rfl, rfl⟩ hne rfl
  exact ⟨_, rfl, h, hstep .yield (.inr nofun)⟩

end Schedule

end Gpos
