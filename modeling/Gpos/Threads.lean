import Gpos.Program
import Mathlib.Algebra.BigOperators.Group.Finset.Piecewise
import Mathlib.Data.Fintype.Defs
import Mathlib.Logic.Relation

/-! Programs that are cut into parts. Between two parts of one thread the other
threads run. -/

/-- `step` is one part, which is not interrupted; a part without an outcome waits. -/
inductive Thread (S α : Type) : Type 1
  | done (a : α)
  | step {β : Type} (x : Program S β) (k : β → Thread S α)

namespace Thread

variable {S α β : Type}

def bind : Thread S α → (α → Thread S β) → Thread S β
  | done a, f => f a
  | step x k, f => step x fun b => (k b).bind f

instance : Monad (Thread S) where
  pure := done
  bind := bind

instance : MonadLift (Program S) (Thread S) where
  monadLift x := step x done

/-! What the threads hold. `I` is about all that is held together. -/

section

variable {R : Type*} [AddCommMonoid R] (C : S → Prop) (I : R → S → Prop)

/-- From a state with `C` a part keeps `I`, whatever the others hold. -/
def Part (r : R) (x : Program S α) (Q : α → R → Prop) : Prop :=
  ∀ f s a t, C s → I (r + f) s → x s = some (a, t) → ∃ r', I (r' + f) t ∧ Q a r'

/-- All parts of a thread that holds `r` keep `I`, and in the end it holds what `Q` says. -/
def Ensures : Thread S α → R → (α → R → Prop) → Prop
  | done a, r, Q => Q a r
  | step x k, r, Q => Part C I r x fun b r' => Ensures (k b) r' Q

section

variable {C I} {r : R} {Q Q' : α → R → Prop} {P : β → R → Prop}

theorem Part.mono {x : Program S α} (h : Part C I r x Q) (hq : ∀ a r', Q a r' → Q' a r') :
    Part C I r x Q' := by
  intro f s a t hc hs ht
  obtain ⟨r', hr, ha⟩ := h f s a t hc hs ht
  exact ⟨r', hr, hq a r' ha⟩

theorem Part.failure : Part C I r (failure : Program S α) Q := fun _ _ _ _ _ _ h => nomatch h

theorem Part.pure {a : α} (h : Q a r) : Part C I r (pure a) Q := by
  intro f s b t _ hs ht
  cases ht
  exact ⟨r, hs, h⟩

/-- Only the first of two programs that are one part starts from a state with `C`. -/
theorem Part.bind {x : Program S β} {f : β → Program S α} (hx : Part C I r x P)
    (hf : ∀ b r', P b r' → Part (fun _ => True) I r' (f b) Q) : Part C I r (x >>= f) Q := by
  intro g s a t hc hs h
  obtain ⟨b, u, hb, hu⟩ := Program.bind_some.mp h
  obtain ⟨r', hr, hp⟩ := hx g s b u hc hs hb
  exact hf b r' hp g u a t trivial hr hu

theorem Part.andThen {x : Program S β} {f : β → Program S α} {r₁ : R}
    (hx : Part C I r x fun _ r' => r' = r₁) (hf : ∀ b, Part (fun _ => True) I r₁ (f b) Q) :
    Part C I r (x >>= f) Q := hx.bind fun b _ hr => hr ▸ hf b

/-- A program that only reads, in front of the rest of a part. -/
theorem Part.read {x : Program S β} {f : β → Program S α} (hx : ∀ s b t, x s = some (b, t) → t = s)
    (hf : ∀ b, Part C I r (f b) Q) : Part C I r (x >>= f) Q := by
  intro g s a t hc hs h
  obtain ⟨b, u, hb, hu⟩ := Program.bind_some.mp h
  cases hx s b u hb
  exact hf b g s a t hc hs hu

theorem Ensures.pure {a : α} (h : Q a r) : Ensures C I (pure a) r Q := h

theorem Ensures.lift {x : Program S α} (h : Part C I r x Q) : Ensures C I (liftM x) r Q := h

theorem Ensures.failure : Ensures C I (liftM (failure : Program S α)) r Q := .lift .failure

theorem Ensures.mono {x : Thread S α} (h : Ensures C I x r Q) (hq : ∀ a r', Q a r' → Q' a r') :
    Ensures C I x r Q' := by
  induction x generalizing r with
  | done a => exact hq a r h
  | step x k ih => exact Part.mono h fun b r' hb => ih b hb

theorem Ensures.bind {x : Thread S β} {f : β → Thread S α} (hx : Ensures C I x r P)
    (hf : ∀ b r', P b r' → Ensures C I (f b) r' Q) : Ensures C I (x >>= f) r Q := by
  induction x generalizing r with
  | done b => exact hf b r hx
  | step x k ih => exact Part.mono hx fun b r' hb => ih b hb

theorem Ensures.andThen {x : Thread S β} {f : β → Thread S α} {r₁ : R}
    (hx : Ensures C I x r fun _ r' => r' = r₁) (hf : ∀ b, Ensures C I (f b) r₁ Q) :
    Ensures C I (x >>= f) r Q := hx.bind fun b _ hr => hr ▸ hf b

theorem Ensures.ite {p : Prop} [Decidable p] {x y : Thread S α} (hx : p → Ensures C I x r Q)
    (hy : ¬ p → Ensures C I y r Q) : Ensures C I (if p then x else y) r Q := by
  split
  next h => exact hx h
  next h => exact hy h

theorem Part.ite {p : Prop} [Decidable p] {x y : Program S α} (hx : p → Part C I r x Q)
    (hy : ¬ p → Part C I r y Q) : Part C I r (if p then x else y) Q := by
  split
  next h => exact hx h
  next h => exact hy h

end

end

/-! The task `τ` goes on by one part, or it takes up something of `pool` or gives it back. -/

section

variable {T : Type*} [Fintype T] [DecidableEq T] {R : Type*} [AddCommMonoid R]

theorem sum_at (held : T → R) (τ : T) :
    ∑ σ, held σ = held τ + ∑ σ ∈ Finset.univ \ {τ}, held σ :=
  Finset.sum_eq_add_sum_sdiff_singleton_of_mem (Finset.mem_univ τ) held

theorem sum_update (held : T → R) (τ : T) (r : R) :
    ∑ σ, Function.update held τ r σ = r + ∑ σ ∈ Finset.univ \ {τ}, held σ :=
  Finset.sum_update_of_mem (Finset.mem_univ τ) held r

theorem Part.among {C : S → Prop} {I : R → S → Prop} {held : T → R} {τ : T} {x : Program S α}
    {Q : α → R → Prop} (h : Part C I (held τ) x Q) {pool : R} {s t : S} {a : α} (hc : C s)
    (hs : I (∑ σ, held σ + pool) s) (ht : x s = some (a, t)) :
    ∃ r, I (∑ σ, Function.update held τ r σ + pool) t ∧ Q a r := by
  rw [sum_at held τ, add_assoc] at hs
  obtain ⟨r, hr, hq⟩ := h _ s a t hc hs ht
  exact ⟨r, by rwa [sum_update, add_assoc], hq⟩

end

/-! A thread among others, whose steps are `E`. -/

section

variable {σ : Type*} (E : σ → σ → Prop) (get : σ → S) (put : S → σ → σ)

/-- From `s` the thread comes to the end with `a`, and then the others come to `s'`. -/
def Among : Thread S α → σ → α → σ → Prop
  | done a, s, b, s' => b = a ∧ Relation.ReflTransGen E s s'
  | step x k, s, b, s' => ∃ u c t, Relation.ReflTransGen E s u ∧ x (get u) = some (c, t) ∧
    Among (k c) (put t u) b s'

variable {E get put} {s s' u : σ} {b : β}

theorem Among.after {x : Thread S β} (he : Relation.ReflTransGen E s u)
    (h : Among E get put x u b s') : Among E get put x s b s' := by
  cases x with
  | done a => exact ⟨h.1, he.trans h.2⟩
  | step x k =>
    obtain ⟨v, c, t, hv, hx, hk⟩ := h
    exact ⟨v, c, t, he.trans hv, hx, hk⟩

theorem among_lift {x : Program S α} {f : α → Thread S β} :
    Among E get put (liftM x >>= f) s b s' ↔ ∃ u a t, Relation.ReflTransGen E s u ∧
      x (get u) = some (a, t) ∧ Among E get put (f a) (put t u) b s' := Iff.rfl

theorem among_bind {x : Thread S α} {f : α → Thread S β} :
    Among E get put (x >>= f) s b s' ↔
      ∃ a u, Among E get put x s a u ∧ Among E get put (f a) u b s' := by
  induction x generalizing s with
  | done a =>
    constructor
    · exact fun h => ⟨a, s, ⟨rfl, .refl⟩, h⟩
    · rintro ⟨_, u, ⟨rfl, he⟩, h⟩
      exact h.after he
  | step x k ih =>
    constructor
    · rintro ⟨v, c, t, hv, hx, hk⟩
      obtain ⟨a, u, ha, hf⟩ := (ih c).mp hk
      exact ⟨a, u, ⟨v, c, t, hv, hx, ha⟩, hf⟩
    · rintro ⟨a, u, ⟨v, c, t, hv, hx, ha⟩, hf⟩
      exact ⟨v, c, t, hv, hx, (ih c).mpr ⟨a, u, ha, hf⟩⟩

variable (E get put)

/-- From `P` the thread comes to `Q`. -/
def Leads (P : σ → Prop) (x : Thread S α) (Q : α → σ → Prop) : Prop :=
  ∀ s a s', P s → Among E get put x s a s' → Q a s'

/-- The others keep `P`. -/
def Stable (P : σ → Prop) : Prop := ∀ s s', P s → E s s' → P s'

variable {E get put} {P : σ → Prop} {Q : α → σ → Prop} {Z : β → σ → Prop}

theorem Stable.many (h : Stable E P) (hs : P s) (he : Relation.ReflTransGen E s s') : P s' := by
  induction he with
  | refl => exact hs
  | tail _ hstep ih => exact h _ _ ih hstep

theorem Leads.bind {x : Thread S α} {f : α → Thread S β} (hx : Leads E get put P x Q)
    (hf : ∀ a, Leads E get put (Q a) (f a) Z) : Leads E get put P (x >>= f) Z := by
  intro s b s' hs h
  obtain ⟨a, u, ha, hb⟩ := among_bind.mp h
  exact hf a u b s' (hx s a u hs ha) hb

theorem Leads.congr {x : Thread S α} {f g : α → Thread S β} (hx : Leads E get put P x Q)
    (hfg : ∀ a u, Q a u → (Among E get put (f a) u b s' ↔ Among E get put (g a) u b s'))
    (hs : P s) : Among E get put (x >>= f) s b s' ↔ Among E get put (x >>= g) s b s' := by
  rw [among_bind, among_bind]
  constructor
  · rintro ⟨a, u, ha, hf⟩
    exact ⟨a, u, ha, (hfg a u (hx s a u hs ha)).mp hf⟩
  · rintro ⟨a, u, ha, hg⟩
    exact ⟨a, u, ha, (hfg a u (hx s a u hs ha)).mpr hg⟩

theorem Leads.pure {a : α} (hq : Stable E (Q a)) : Leads E get put (Q a) (pure a) Q := by
  rintro s _ s' hs ⟨rfl, he⟩
  exact hq.many hs he

theorem Leads.lift {x : Program S α} (hp : Stable E P) (hq : ∀ a, Stable E (Q a))
    (hx : ∀ s a t, P s → x (get s) = some (a, t) → Q a (put t s)) :
    Leads E get put P (liftM x) Q := by
  rintro s b s' hs ⟨u, a, t, he, ht, hb, he'⟩
  cases hb
  exact (hq _).many (hx u _ t (hp.many hs he) ht) he'

theorem Leads.mono {P' : σ → Prop} {Q' : α → σ → Prop} {x : Thread S α}
    (h : Leads E get put P x Q) (hp : ∀ s, P' s → P s) (hq : ∀ a s, Q a s → Q' a s) :
    Leads E get put P' x Q' := fun s a s' hs ha => hq a s' (h s a s' (hp s hs) ha)

theorem Leads.ite {p : Prop} [Decidable p] {x y : Thread S α} (hx : p → Leads E get put P x Q)
    (hy : ¬ p → Leads E get put P y Q) : Leads E get put P (if p then x else y) Q := by
  split
  next h => exact hx h
  next h => exact hy h

end

end Thread
