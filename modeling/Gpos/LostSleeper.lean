import Gpos.Paths
import Gpos.Run
import Gpos.WaitQueue

/-! Which sleepers a wait queue can still wake. The queue is a graph on tasks,
with an edge from every sleeper to its saved `tmp`; a resumption that writes
`tmp` back over a newer `*p` can cut sleepers off. -/

namespace Gpos.WaitQueue

open Relation Run

variable {T : Type*}

def Asleep (q : WaitQueue T) (t : T) : Prop := (q.frame t).isSome ∧ q.state t ≠ .running

/-- Woken, but not yet back from `schedule`. -/
def Woken (q : WaitQueue T) (t : T) : Prop := (q.frame t).isSome ∧ q.state t = .running

/-- `u` saved `v` in its `tmp`. -/
def Leads (q : WaitQueue T) (u v : T) : Prop := ∃ f, q.frame u = some f ∧ f.tmp = some v

def Root (q : WaitQueue T) (r : T) : Prop := q.head = some r ∨ q.Woken r

/-- Every sleeper is found from `*p` or from a woken sleeper along the `tmp` pointers. -/
def Kept (q : WaitQueue T) : Prop :=
  ∀ t, q.Asleep t → ∃ r, q.Root r ∧ ReflTransGen q.Leads r t

/-- The tasks that stay reachable when `t` is no longer a root and `*p` is forgotten. -/
def Held (q : WaitQueue T) (t : T) (tmp : Option T) (x : T) : Prop :=
  ∃ r, (tmp = some r ∨ q.Woken r ∧ r ≠ t) ∧ ReflTransGen q.Leads r x

/-- The resumption loses nobody. In `sleep_on`, a task that is still asleep in
`*p` is also found from `tmp` or from another woken sleeper; in
`interruptible_sleep_on`, a task that goes back to sleep because `*p` names
another one is found from that one or from another woken sleeper. -/
def Safe (q : WaitQueue T) : Action T → Prop
  | .resume t =>
    match q.frame t with
    | some ⟨.sleepOn, tmp⟩ => ∀ h, q.head = some h → q.Asleep h → q.Held t tmp h
    | some ⟨.interruptibleSleepOn, _⟩ => ∀ h, q.head = some h → h ≠ t → q.Held t (some h) t
    | none => True
  | _ => True

/-- Some later `wake_up`, and the resumptions that follow it, make every sleeper run. -/
def Revivable [DecidableEq T] (initTask : T) (q : WaitQueue T) : Prop :=
  ∀ t, q.Asleep t → ∃ (ts : List T) (q' : WaitQueue T),
    exec (step initTask) (.wakeUp :: ts.map .resume) q = some q' ∧ q'.state t = .running

theorem frame_of_path {q : WaitQueue T} {r t : T} (h : ReflTransGen q.Leads r t)
    (ht : (q.frame t).isSome) : (q.frame r).isSome := by
  cases ReflTransGen.cases_head h with
  | inl he => exact he ▸ ht
  | inr he =>
    obtain ⟨c, ⟨f, hf, _⟩, _⟩ := he
    simp [hf]

variable [DecidableEq T]

theorem leads_leave {q : WaitQueue T} {t : T} {tmp : Option T} :
    (q.leave t tmp).Leads = Paths.Avoiding q.Leads t := by
  funext u v
  by_cases hu : u = t
  · simp [Leads, Paths.Avoiding, hu]
  · simp [Leads, Paths.Avoiding, hu]

theorem leads_wakeUp (q : WaitQueue T) : q.wakeUp.Leads = q.Leads := by
  funext u v
  simp [Leads]

theorem asleep_enter {q : WaitQueue T} {fn : SleepFn} {st : TaskState} {t x : T} (hx : x ≠ t) :
    (q.enter fn st t).Asleep x ↔ q.Asleep x := by
  simp [Asleep, enter, Function.update_of_ne hx]

theorem leads_enter {q : WaitQueue T} {fn : SleepFn} {st : TaskState} {t u v : T}
    (ht : q.frame t = none) (h : q.Leads u v) : (q.enter fn st t).Leads u v := by
  obtain ⟨f, hf, hv⟩ := h
  have hu : u ≠ t := fun he => by simp [he, ht] at hf
  exact ⟨f, by simpa [enter, Function.update_of_ne hu] using hf, hv⟩

theorem Kept.enter {q : WaitQueue T} (h : q.Kept) (fn : SleepFn) (st : TaskState) {t : T}
    (ht : q.frame t = none) : (q.enter fn st t).Kept := by
  intro x hx
  by_cases he : x = t
  · subst x
    exact ⟨t, .inl rfl, .refl⟩
  · obtain ⟨r, hr, hp⟩ := h x ((asleep_enter he).mp hx)
    have hp' : ReflTransGen (q.enter fn st t).Leads r x :=
      ReflTransGen.mono (fun _ _ => leads_enter ht : q.Leads ≤ (q.enter fn st t).Leads) _ _ hp
    rcases hr with hr | hr
    · have hl : (q.enter fn st t).Leads t r :=
        ⟨⟨fn, q.head⟩, by simp [WaitQueue.enter], hr⟩
      exact ⟨t, .inl rfl, .head hl hp'⟩
    · have hrt : r ≠ t := fun e => by simp [Woken, e, ht] at hr
      refine ⟨r, .inr ?_, hp'⟩
      simpa [Woken, WaitQueue.enter, Function.update_of_ne hrt] using hr

theorem Kept.wakeUp {q : WaitQueue T} (h : q.Kept) : q.wakeUp.Kept := by
  intro x hx
  have hx' : q.Asleep x := by
    refine ⟨by simpa using hx.1, fun hs => hx.2 ?_⟩
    simp [wakeUp_state, hs]
  obtain ⟨r, hr, hp⟩ := h x hx'
  have hf := frame_of_path hp hx'.1
  have hs : q.wakeUp.state r = .running := by
    rcases hr with hr | hr
    · simp [wakeUp_state, hr]
    · simp [wakeUp_state, hr.2]
  exact ⟨r, .inr ⟨by simpa using hf, hs⟩, by rwa [leads_wakeUp]⟩

theorem held_of_root_leave {q : WaitQueue T} {t r x : T} {tmp : Option T}
    (hr : (q.leave t tmp).Root r) (hp : ReflTransGen (q.leave t tmp).Leads r x) :
    q.Held t tmp x := by
  rw [leads_leave] at hp
  refine ⟨r, ?_, Paths.reach_of_avoiding hp⟩
  rcases hr with hr | hr
  · exact .inl (by simpa using hr)
  · have hrt : r ≠ t := fun e => by simp [Woken, e] at hr
    by_cases he : tmp = some r
    · exact .inl he
    · refine .inr ⟨?_, hrt⟩
      simpa [Woken, leave_state, he, Function.update_of_ne hrt] using hr

theorem root_leave_of_held {q : WaitQueue T} {t x : T} {f : Sleeper T} (hf : q.frame t = some f)
    (h : q.Held t f.tmp x) :
    ∃ r, (q.leave t f.tmp).Root r ∧ ReflTransGen (q.leave t f.tmp).Leads r x := by
  obtain ⟨r, hr, hp⟩ := h
  rw [leads_leave]
  rcases Paths.avoiding_or_through t hp with hp | ⟨c, ⟨g, hg, hc⟩, hp⟩
  · refine ⟨r, ?_, hp⟩
    rcases hr with hr | hr
    · exact .inl (by simpa using hr)
    · refine .inr ⟨by simpa [Function.update_of_ne hr.2] using hr.1.1, ?_⟩
      simp [leave_state, hr.1.2]
  · -- the path visits `t`, and goes on from there to the new `*p`
    have hg' : g = f := Option.some.inj (hg.symm.trans hf)
    exact ⟨c, .inl (by simpa [hg'] using hc), hp⟩

/-- When `t` leaves the queue nobody is lost exactly when the task that `*p`
named, if it is still asleep, is found without `*p`. -/
theorem kept_leave_iff {q : WaitQueue T} {t : T} {f : Sleeper T} (h : q.Kept)
    (hf : q.frame t = some f) (ht : q.state t = .running) :
    (q.leave t f.tmp).Kept ↔ ∀ h, q.head = some h → q.Asleep h → q.Held t f.tmp h := by
  constructor
  · intro hk y hy ha
    by_cases he : f.tmp = some y
    · exact ⟨y, .inl he, .refl⟩
    · have hyt : y ≠ t := fun e => ha.2 (e ▸ ht)
      have ha' : (q.leave t f.tmp).Asleep y :=
        ⟨by simpa [Function.update_of_ne hyt] using ha.1, by simpa [leave_state, he] using ha.2⟩
      obtain ⟨r, hr, hp⟩ := hk y ha'
      exact held_of_root_leave hr hp
  · intro hc x hx
    have hxt : x ≠ t := fun e => by simp [Asleep, e] at hx
    have hx' : q.Asleep x := by
      refine ⟨by simpa [Function.update_of_ne hxt] using hx.1, fun hs => hx.2 ?_⟩
      simp [leave_state, hs]
    apply root_leave_of_held hf
    obtain ⟨r, hr, hp⟩ := h x hx'
    have hfr := frame_of_path hp hx'.1
    by_cases hrt : r = t
    · -- the path starts in `t` itself, whose successor is `tmp`
      subst r
      rcases ReflTransGen.cases_head hp with he | ⟨c, ⟨g, hg, hgc⟩, hp⟩
      · exact absurd he.symm hxt
      · have hg' : g = f := Option.some.inj (hg.symm.trans hf)
        exact ⟨c, .inl (hg' ▸ hgc), hp⟩
    · by_cases hs : q.state r = .running
      · exact ⟨r, .inr ⟨⟨hfr, hs⟩, hrt⟩, hp⟩
      · have hh : q.head = some r := hr.resolve_right fun hw => hs hw.2
        obtain ⟨r', hr', hp'⟩ := hc r hh ⟨hfr, hs⟩
        exact ⟨r', hr', hp'.trans hp⟩

/-- When `t` wakes the task in `*p` and sleeps again, nobody is lost exactly
when `t` itself is still found. -/
theorem kept_repeat_iff {q : WaitQueue T} {t h : T} (hk : q.Kept) (hq : q.head = some h)
    (hf : (q.frame t).isSome) :
    ((q.setState h .running).setState t .interruptible).Kept ↔ q.Held t (some h) t := by
  have hstate : ∀ x, ((q.setState h .running).setState t .interruptible).state x =
      if x = t then .interruptible else if x = h then .running else q.state x := by
    intro x
    simp only [setState, Function.update_apply]
  constructor
  · intro hk'
    obtain ⟨r, hr, hp⟩ := hk' t ⟨hf, by simp [hstate]⟩
    refine ⟨r, ?_, hp⟩
    rcases hr with hr | ⟨hfr, hs⟩
    · exact .inl (hq.symm.trans hr)
    · have hrt : r ≠ t := fun e => by simp [hstate, e] at hs
      by_cases hrh : r = h
      · exact .inl (by rw [hrh])
      · exact .inr ⟨⟨hfr, by simpa [hstate, hrt, hrh] using hs⟩, hrt⟩
  · intro hc x hx
    have hroot : ∀ r, (some h = some r ∨ q.Woken r ∧ r ≠ t) →
        ((q.setState h .running).setState t .interruptible).Root r := by
      rintro r (hr | ⟨⟨hfr, hs⟩, hrt⟩)
      · exact .inl (hq.trans hr)
      · exact .inr ⟨hfr, by simp [hstate, hrt, hs]⟩
    obtain ⟨r₀, hr₀, hp₀⟩ := hc
    by_cases hxt : x = t
    · exact ⟨r₀, hroot r₀ hr₀, hxt ▸ hp₀⟩
    · have hx' : q.Asleep x := by
        refine ⟨hx.1, fun hs => hx.2 ?_⟩
        simp [hstate, hxt, hs]
      obtain ⟨r, hr, hp⟩ := hk x hx'
      by_cases hrt : r = t
      · exact ⟨r₀, hroot r₀ hr₀, hp₀.trans (hrt ▸ hp)⟩
      · refine ⟨r, hroot r ?_, hp⟩
        exact hr.imp (fun hr => hq.symm.trans hr) (fun hr => ⟨hr, hrt⟩)

theorem kept_step_iff {initTask : T} {q q' : WaitQueue T} {a : Action T} (h : q.Kept)
    (he : step initTask a q = some q') : q'.Kept ↔ q.Safe a := by
  cases a with
  | sleepOn t =>
    simp only [step, Option.ite_none_right_eq_some, Option.some.injEq] at he
    obtain ⟨hc, rfl⟩ := he
    exact iff_of_true (h.enter _ _ (by simpa using hc.2.2)) trivial
  | interruptibleSleepOn t =>
    simp only [step, Option.ite_none_right_eq_some, Option.some.injEq] at he
    obtain ⟨hc, rfl⟩ := he
    exact iff_of_true (h.enter _ _ (by simpa using hc.2.2)) trivial
  | wakeUp =>
    cases he
    exact iff_of_true h.wakeUp trivial
  | resume t =>
    simp only [step, Option.ite_none_right_eq_some, Option.map_eq_some_iff] at he
    obtain ⟨ht, f, hf, rfl⟩ := he
    obtain ⟨fn, tmp⟩ := f
    rcases tail_cases t ⟨fn, tmp⟩ q with ⟨hl, hor⟩ | ⟨y, hfn, hy, hyt, hl⟩
    · rw [hl, kept_leave_iff h hf ht]
      cases fn with
      | sleepOn => simp only [Safe, hf]
      | interruptibleSleepOn =>
        have hhead : ∀ y, q.head = some y → y = t := by
          intro y hy
          rcases hor with hor | hor | hor
          · cases hor
          · simp [hor] at hy
          · exact Option.some.inj (hy.symm.trans hor)
        refine iff_of_true (fun y hy ha => ?_) ?_
        · exact absurd (hhead y hy ▸ ht) ha.2
        · simp only [Safe, hf]
          exact fun y hy hyt => absurd (hhead y hy) hyt
    · cases fn with
      | sleepOn => cases hfn
      | interruptibleSleepOn =>
        rw [hl, kept_repeat_iff h hy (by simp [hf])]
        simp only [Safe, hf]
        constructor
        · intro hh z hz _
          rwa [Option.some.inj (hz.symm.trans hy)]
        · exact fun hh => hh y hy hyt

/-- Resuming the tasks of a simple path one after the other wakes the last of them. -/
theorem exec_resume_path (initTask : T) (l : List T) (r : T) (q : WaitQueue T)
    (hhead : q.head = none ∨ q.head = some r) (hs : q.state r = .running)
    (hnd : (r :: l).Nodup) (hc : (r :: l).IsChain q.Leads) :
    ∃ q', exec (step initTask) ((r :: l).dropLast.map .resume) q = some q' ∧
      q'.state ((r :: l).getLast (by simp)) = .running := by
  induction l generalizing r q with
  | nil => exact ⟨q, rfl, hs⟩
  | cons c l ih =>
    obtain ⟨⟨f, hf, hfc⟩, hc'⟩ := List.isChain_cons_cons.mp hc
    have hnd' := List.nodup_cons.mp hnd
    have htail : q.tail r f = q.leave r (some c) := by
      rcases tail_cases r f q with ⟨hl, _⟩ | ⟨y, _, hy, hyr, _⟩
      · rw [hl, hfc]
      · rcases hhead with hh | hh
        · simp [hh] at hy
        · exact absurd (Option.some.inj (hy.symm.trans hh)) hyr
    have hstep : step initTask (.resume r) q = some (q.leave r (some c)) := by
      simp [step, hs, hf, htail]
    have hchain : (c :: l).IsChain (q.leave r (some c)).Leads := by
      rw [leads_leave]
      exact hc'.imp_of_mem_imp fun a b ha _ hab => ⟨hab, fun e => hnd'.1 (e ▸ ha)⟩
    obtain ⟨q', he, hr⟩ := ih c (q.leave r (some c)) (.inr (leave_head _ _ _))
      (by simp [leave_state]) hnd'.2 hchain
    refine ⟨q', ?_, by simpa using hr⟩
    simpa only [List.dropLast_cons_cons, List.map_cons, exec_cons hstep] using he

theorem Kept.revivable {q : WaitQueue T} (h : q.Kept) (initTask : T) : q.Revivable initTask := by
  intro t ht
  obtain ⟨r, hr, hp⟩ := h t ht
  obtain ⟨l, hnd, hc, hl⟩ := Paths.exists_simple hp
  have hs : q.wakeUp.state r = .running := by
    rcases hr with hr | hr
    · simp [wakeUp_state, hr]
    · simp [wakeUp_state, hr.2]
  obtain ⟨q', he, hq⟩ := exec_resume_path initTask l r q.wakeUp
    (.inl (wakeUp_head q)) hs hnd (by rwa [leads_wakeUp])
  exact ⟨(r :: l).dropLast, q', by rw [exec_cons rfl]; exact he, hl ▸ hq⟩

/-- Along every run from an empty queue, all sleepers can be woken in every
state exactly when every resumption of the run is safe. -/
theorem always_kept_iff (initTask : T) (state : T → TaskState) (as : List (Action T)) :
    Always (step initTask) (fun q => q.Kept ∧ q.Revivable initTask) as (empty state) ↔
      Meets (step initTask) Safe as (empty state) := by
  have hstart : (empty state).Kept := fun t ht => by simp [Asleep, empty] at ht
  refine Run.always_iff_meets (J := fun _ => True) ?_ trivial ⟨hstart, hstart.revivable initTask⟩
  intro q a q' _ hk he
  refine ⟨trivial, ?_⟩
  rw [← kept_step_iff hk.1 he]
  exact ⟨And.left, fun hh => ⟨hh, hh.revivable initTask⟩⟩

/-- Task 2 goes to sleep between the `wake_up` of task 1 and its resumption;
task 1 then writes its own `tmp` over it. -/
theorem newcomer_lost :
    ¬ Always (step (0 : Fin 3)) (fun q => q.Kept ∧ q.Revivable 0)
      [.sleepOn 1, .wakeUp, .sleepOn 2, .resume 1] (empty fun _ => .running) := by
  intro h
  have hk := (h.last rfl).1
  obtain ⟨r, hr, -⟩ := hk 2 ⟨rfl, by decide⟩
  rcases hr with hr | hr
  · cases hr
  · revert r
    unfold Woken
    decide

end Gpos.WaitQueue
