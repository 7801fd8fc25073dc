import Mathlib.Logic.Relation

/-! Runs of a partial step function. A property is followed along a run one
action at a time, so that what one step preserves lifts to every state that
the run visits. -/

namespace Run

variable {S A : Type*} {step : A → S → Option S}

/-- `P` holds in every state that the actions visit, the first one included. -/
def Always (step : A → S → Option S) (P : S → Prop) : List A → S → Prop
  | [], s => P s
  | a :: as, s => P s ∧ ∀ t, step a s = some t → Always step P as t

/-- Every action that is performed meets `C` in the state it starts from. -/
def Meets (step : A → S → Option S) (C : S → A → Prop) : List A → S → Prop
  | [], _ => True
  | a :: as, s => ∀ t, step a s = some t → C s a ∧ Meets step C as t

/-- The state after all the actions, if every one of them was enabled. -/
def exec (step : A → S → Option S) : List A → S → Option S
  | [], s => some s
  | a :: as, s => (step a s).bind (exec step as)

/-- How many of the actions that are performed `p` picks, each in the state it starts from. -/
def count (step : A → S → Option S) (p : S → A → Bool) : List A → S → Nat
  | [], _ => 0
  | a :: as, s => (if p s a then 1 else 0) + (step a s).elim 0 (count step p as)

theorem count_cons {p : S → A → Bool} {a : A} {as : List A} {s t : S} (h : step a s = some t) :
    count step p (a :: as) s = (if p s a then 1 else 0) + count step p as t := by
  rw [count, h, Option.elim_some]

theorem exec_cons {a : A} {as : List A} {s t : S} (h : step a s = some t) :
    exec step (a :: as) s = exec step as t := by
  simp only [exec, h, Option.bind_some]

theorem exec_append (as bs : List A) (s : S) :
    exec step (as ++ bs) s = (exec step as s).bind (exec step bs) := by
  induction as generalizing s with
  | nil => rfl
  | cons a as ih =>
    rw [List.cons_append, exec, exec, Option.bind_assoc]
    exact congrArg _ (funext ih)

theorem meets_cons {C : S → A → Prop} {a : A} {as : List A} {s t : S} (h : step a s = some t) :
    Meets step C (a :: as) s ↔ C s a ∧ Meets step C as t := by
  rw [Meets]
  exact ⟨fun hm => hm t h, fun hm u hu => Option.some.inj (h.symm.trans hu) ▸ hm⟩

instance Meets.decidable {C : S → A → Prop} [∀ s a, Decidable (C s a)] :
    ∀ as s, Decidable (Meets step C as s)
  | [], _ => isTrue trivial
  | a :: as, s =>
    match h : step a s with
    | none => isTrue fun _ ht => absurd (h.symm.trans ht) nofun
    | some t =>
      have := Meets.decidable (C := C) as t
      decidable_of_iff (C s a ∧ Meets step C as t) (meets_cons h).symm

theorem Meets.cons {C : S → A → Prop} {a : A} {as : List A} {s t : S} (hs : step a s = some t)
    (hc : C s a) (h : Meets step C as t) : Meets step C (a :: as) s := by
  intro u hu
  rw [hs] at hu
  cases hu
  exact ⟨hc, h⟩

theorem Meets.and {C D : S → A → Prop} {as : List A} {s : S} (hc : Meets step C as s)
    (hd : Meets step D as s) : Meets step (fun s a => C s a ∧ D s a) as s := by
  induction as generalizing s with
  | nil => trivial
  | cons a as ih => exact fun t ht => ⟨⟨(hc t ht).1, (hd t ht).1⟩, ih (hc t ht).2 (hd t ht).2⟩

/-- A step that does all that another one does has its runs. -/
theorem exec_mono {step' : A → S → Option S} (h : ∀ a s t, step a s = some t → step' a s = some t)
    {as : List A} {s t : S} (he : exec step as s = some t) : exec step' as s = some t := by
  induction as generalizing s with
  | nil => exact he
  | cons a as ih =>
    obtain ⟨m, hm, hr⟩ := Option.bind_eq_some_iff.mp he
    exact (exec_cons (h a s m hm)).trans (ih hr)

/-- The states of a run that two steps share meet the same conditions. -/
theorem Meets.along {step₁ step₂ : A → S → Option S} {C : S → A → Prop}
    (h₁ : ∀ a s t, step a s = some t → step₁ a s = some t)
    (h₂ : ∀ a s t, step a s = some t → step₂ a s = some t) {as : List A} {s t : S}
    (he : exec step as s = some t) (hm : Meets step₁ C as s) : Meets step₂ C as s := by
  induction as generalizing s with
  | nil => trivial
  | cons a as ih =>
    obtain ⟨m, hs, hr⟩ := Option.bind_eq_some_iff.mp he
    obtain ⟨hc, hm⟩ := hm m (h₁ a s m hs)
    exact .cons (h₂ a s m hs) hc (ih hr hm)

theorem Always.head {P : S → Prop} {as : List A} {s : S} (h : Always step P as s) : P s := by
  cases as with
  | nil => exact h
  | cons a as => exact h.1

theorem Always.last {P : S → Prop} {as : List A} {s t : S} (h : Always step P as s)
    (he : exec step as s = some t) : P t := by
  induction as generalizing s with
  | nil =>
    cases he
    exact h
  | cons a as ih =>
    obtain ⟨m, hm, hr⟩ := Option.bind_eq_some_iff.mp he
    exact ih (h.2 m hm) hr

theorem Always.mono {P Q : S → Prop} (hpq : ∀ s, P s → Q s) {as : List A} {s : S}
    (h : Always step P as s) : Always step Q as s := by
  induction as generalizing s with
  | nil => exact hpq s h
  | cons a as ih => exact ⟨hpq s h.1, fun t ht => ih (h.2 t ht)⟩

/-- An invariant that needs `P` at every step gives `Q` along the runs on which `P` always holds. -/
theorem Always.carry {J P Q : S → Prop} (hstep : ∀ s a t, J s → P s → step a s = some t → J t)
    (hq : ∀ s, J s → P s → Q s) {as : List A} {s : S} (h : Always step P as s) (hj : J s) :
    Always step Q as s := by
  induction as generalizing s with
  | nil => exact hq s hj h
  | cons a as ih => exact ⟨hq s hj h.1, fun t ht => ih (h.2 t ht) (hstep s a t hj h.1 ht)⟩

/-- A step that keeps `P` whenever it meets `C` keeps it along a whole run. -/
theorem always_of_meets {P : S → Prop} {C : S → A → Prop}
    (hstep : ∀ s a t, P s → step a s = some t → C s a → P t) {as : List A} {s : S}
    (h : P s) (hm : Meets step C as s) : Always step P as s := by
  induction as generalizing s with
  | nil => exact h
  | cons a as ih =>
    refine ⟨h, fun t ht => ?_⟩
    have hc := hm t ht
    exact ih (hstep s a t h ht hc.1) hc.2

theorem always_of_step {P : S → Prop} (hstep : ∀ s a t, P s → step a s = some t → P t)
    {as : List A} {s : S} (h : P s) : Always step P as s := by
  induction as generalizing s with
  | nil => exact h
  | cons a as ih => exact ⟨h, fun t ht => ih (hstep s a t h ht)⟩

/-- With an invariant `J` that every action in `D` keeps, and a condition that
decides step by step whether `P` survives, `P` holds all along a run of such
actions exactly when every one of them meets the condition. -/
theorem always_iff_meets_of {J P : S → Prop} {C D : S → A → Prop}
    (hstep : ∀ s a t, J s → P s → step a s = some t → D s a → J t ∧ (P t ↔ C s a))
    {as : List A} {s : S} (hj : J s) (h : P s) (hd : Meets step D as s) :
    Always step P as s ↔ Meets step C as s := by
  induction as generalizing s with
  | nil => exact iff_of_true h trivial
  | cons a as ih =>
    constructor
    · intro ha t ht
      have hs := hstep s a t hj h ht (hd t ht).1
      have hp : P t := (ha.2 t ht).head
      exact ⟨hs.2.mp hp, (ih hs.1 hp (hd t ht).2).mp (ha.2 t ht)⟩
    · intro hm
      refine ⟨h, fun t ht => ?_⟩
      have hs := hstep s a t hj h ht (hd t ht).1
      have hp : P t := hs.2.mpr (hm t ht).1
      exact (ih hs.1 hp (hd t ht).2).mpr (hm t ht).2

theorem meets_true (as : List A) (s : S) : Meets step (fun _ _ => True) as s := by
  induction as generalizing s with
  | nil => trivial
  | cons a as ih => exact fun t _ => ⟨trivial, ih t⟩

theorem always_iff_meets {J P : S → Prop} {C : S → A → Prop}
    (hstep : ∀ s a t, J s → P s → step a s = some t → J t ∧ (P t ↔ C s a))
    {as : List A} {s : S} (hj : J s) (h : P s) : Always step P as s ↔ Meets step C as s :=
  always_iff_meets_of (fun s a t hj h hs _ => hstep s a t hj h hs) hj h (meets_true as s)

/-- What every step keeps, every state reached has. -/
theorem invariant_reach {r : S → S → Prop} {P : S → Prop} (hstep : ∀ s t, P s → r s t → P t)
    {s t : S} (h : Relation.ReflTransGen r s t) (hs : P s) : P t := by
  induction h with
  | refl => exact hs
  | tail _ hr ih => exact hstep _ _ ih hr

section

variable {T : Type*}

/-- A run of the relation `r`, action by action. -/
inductive Traces (r : A → T → T → Prop) : List A → T → T → Prop
  | nil (t : T) : Traces r [] t t
  | cons {a : A} {as : List A} {t u v : T} (h : r a t u) (hr : Traces r as u v) :
      Traces r (a :: as) t v

theorem Traces.append {r : A → T → T → Prop} {as bs : List A} {t u v : T} (h : Traces r as t u)
    (h' : Traces r bs u v) : Traces r (as ++ bs) t v := by
  induction h with
  | nil => exact h'
  | cons ha _ ih => exact .cons ha (ih h')

theorem traces_concat {r : A → T → T → Prop} {as : List A} {a : A} {t v : T} :
    Traces r (as ++ [a]) t v ↔ ∃ u, Traces r as t u ∧ r a u v := by
  induction as generalizing t with
  | nil =>
    constructor
    · intro h
      cases h with
      | cons ha hr =>
        cases hr
        exact ⟨t, .nil t, ha⟩
    · rintro ⟨u, hu, ha⟩
      cases hu
      exact .cons ha (.nil v)
  | cons b as ih =>
    constructor
    · intro h
      cases h with
      | cons hb hr =>
        obtain ⟨u, hu, ha⟩ := ih.mp hr
        exact ⟨u, .cons hb hu, ha⟩
    · rintro ⟨u, hu, ha⟩
      cases hu with
      | cons hb hr => exact .cons hb (ih.mpr ⟨u, hr, ha⟩)

/-- When every step is enabled and is one of `r` seen through `f`, so is every run. -/
theorem exec_traces {r : A → T → T → Prop} {f : S → T} {J : S → Prop} {C : A → Prop}
    (hstep : ∀ a s, J s → C a → ∃ t, step a s = some t ∧ J t ∧ r a (f s) (f t)) {as : List A}
    {s : S} (hj : J s) (hc : ∀ a ∈ as, C a) :
    ∃ t, exec step as s = some t ∧ J t ∧ Traces r as (f s) (f t) := by
  induction as generalizing s with
  | nil => exact ⟨s, rfl, hj, .nil _⟩
  | cons a as ih =>
    obtain ⟨u, hu, hju, hr⟩ := hstep a s hj (hc a List.mem_cons_self)
    obtain ⟨t, ht, hjt, hrs⟩ := ih hju fun b hb => hc b (List.mem_cons_of_mem a hb)
    exact ⟨t, (exec_cons hu).trans ht, hjt, .cons hr hrs⟩

/-- When every step of `r` from related states is one of `r'`, so is every run. -/
theorem Traces.simulate {U : Type*} {r : A → T → T → Prop} {r' : A → U → U → Prop}
    {R : T → U → Prop} (hstep : ∀ a s t x, R s x → r a s t → ∃ y, r' a x y ∧ R t y) {as : List A}
    {s t : T} {x : U} (h : Traces r as s t) (hx : R s x) : ∃ y, Traces r' as x y ∧ R t y := by
  induction h generalizing x with
  | nil t => exact ⟨x, .nil x, hx⟩
  | cons ha _ ih =>
    obtain ⟨y, hxy, hy⟩ := hstep _ _ _ x hx ha
    obtain ⟨z, hyz, hz⟩ := ih hy
    exact ⟨z, .cons hxy hyz, hz⟩

end

end Run
