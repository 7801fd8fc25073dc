import Mathlib.Algebra.Group.Basic
import Mathlib.Algebra.Group.Hom.Defs

/-! Programs over a state that may fail. A program has an outcome, a result
and a state, or none; what it adds to a quantity of the state is accounted for
along its text. -/

abbrev Program (S : Type) := StateT S Option

namespace Program

variable {S α β : Type} {A : Type*}

theorem bind_eq (x : Program S α) (f : α → Program S β) (s : S) :
    (x >>= f) s = (x s).bind fun r => f r.1 r.2 := rfl

theorem pure_eq (a : α) (s : S) : (pure a : Program S α) s = some (a, s) := rfl

theorem bind_some {x : Program S α} {f : α → Program S β} {s : S} {r : β × S} :
    (x >>= f) s = some r ↔ ∃ a t, x s = some (a, t) ∧ f a t = some r := by
  rw [bind_eq, Option.bind_eq_some_iff]
  constructor
  · rintro ⟨⟨a, t⟩, hx, hf⟩
    exact ⟨a, t, hx, hf⟩
  · rintro ⟨a, t, hx, hf⟩
    exact ⟨(a, t), hx, hf⟩

theorem bind_of_eq {x : Program S α} {f : α → Program S β} {s t : S} {a : α}
    (h : x s = some (a, t)) : (x >>= f) s = f a t := by
  rw [bind_eq, h]
  rfl

theorem bind_congr_left {x y : Program S α} {s t : S} (h : x s = y t) (f : α → Program S β) :
    (x >>= f) s = (y >>= f) t := by
  rw [bind_eq, bind_eq, h]

/-- From a state with `P` every outcome has `Q`. -/
def Ensures (P : S → Prop) (x : Program S α) (Q : α → S → Prop) : Prop :=
  ∀ s a t, P s → x s = some (a, t) → Q a t

section

variable {P : S → Prop} {Q : α → S → Prop} {R : β → S → Prop}

theorem Ensures.bind {x : Program S α} {f : α → Program S β} (hx : Ensures P x Q)
    (hf : ∀ a, Ensures (Q a) (f a) R) : Ensures P (x >>= f) R := by
  intro s b t hs h
  obtain ⟨a, u, hxu, hfu⟩ := bind_some.mp h
  exact hf a u b t (hx s a u hs hxu) hfu

theorem Ensures.bind_congr {x : Program S α} {f g : α → Program S β} (hx : Ensures P x Q)
    (hfg : ∀ a t, Q a t → f a t = g a t) {s : S} (hs : P s) : (x >>= f) s = (x >>= g) s := by
  rw [bind_eq, bind_eq]
  cases hxs : x s with
  | none => rfl
  | some r => exact hfg r.1 r.2 (hx s r.1 r.2 hs hxs)

theorem Ensures.pure {a : α} (h : ∀ s, P s → Q a s) : Ensures P (pure a : Program S α) Q := by
  intro s b t hs ht
  cases ht
  exact h _ hs

theorem Ensures.mono {P' : S → Prop} {Q' : α → S → Prop} {x : Program S α} (h : Ensures P x Q)
    (hP : ∀ s, P' s → P s) (hQ : ∀ a s, Q a s → Q' a s) : Ensures P' x Q' :=
  fun s a t hs ht => hQ a t (h s a t (hP s hs) ht)

/-- A part of the precondition that is about no state. -/
theorem Ensures.assume {x : Program S α} {p : Prop} (hx : p → Ensures P x Q) :
    Ensures (fun s => P s ∧ p) x Q :=
  fun s a t hs h => hx hs.2 s a t hs.1 h

theorem Ensures.failure : Ensures P (failure : Program S α) Q := fun _ _ _ _ h => nomatch h

theorem Ensures.ite {p : Prop} [Decidable p] {x y : Program S α} (hx : Ensures P x Q)
    (hy : Ensures P y Q) : Ensures P (if p then x else y) Q := by
  split
  · exact hx
  · exact hy

end

/-- From `s` the program comes to an outcome with `Q`, or it has none and `w` holds. -/
def Yields (w : Prop) (s : S) (x : Program S α) (Q : α → S → Prop) : Prop :=
  (∃ a t, x s = some (a, t) ∧ Q a t) ∨ x s = none ∧ w

section

variable {w w' : Prop} {s : S} {Q Q' : α → S → Prop} {R : β → S → Prop}

theorem Yields.of_eq {x : Program S α} {a : α} {t : S} (h : x s = some (a, t)) (hq : Q a t) :
    Yields w s x Q := Or.inl ⟨a, t, h, hq⟩

theorem Yields.mono {x : Program S α} (h : Yields w s x Q) (hw : w → w')
    (hq : ∀ a t, Q a t → Q' a t) : Yields w' s x Q' := by
  rcases h with ⟨a, t, hx, ha⟩ | ⟨hx, hw'⟩
  · exact Or.inl ⟨a, t, hx, hq a t ha⟩
  · exact Or.inr ⟨hx, hw hw'⟩

theorem Yields.self {x : Program S α} (h : Yields w s x Q) :
    Yields w s x fun a t => x s = some (a, t) ∧ Q a t := by
  rcases h with ⟨a, t, hx, ha⟩ | hx
  · exact Or.inl ⟨a, t, hx, hx, ha⟩
  · exact Or.inr hx

theorem Yields.bind {x : Program S α} {f : α → Program S β} (hx : Yields w s x Q)
    (hf : ∀ a t, Q a t → Yields w t (f a) R) : Yields w s (x >>= f) R := by
  rcases hx with ⟨a, t, hxs, ha⟩ | ⟨hxs, hw⟩
  · have h := hf a t ha
    rw [Yields, bind_of_eq hxs]
    exact h
  · refine Or.inr ⟨?_, hw⟩
    rw [bind_eq, hxs]
    rfl

theorem Yields.step {x : Program S α} {f : α → Program S β} {a : α} {t : S} (hx : x s = some (a, t))
    (hf : Yields w t (f a) R) : Yields w s (x >>= f) R := by
  rw [Yields, bind_of_eq hx]
  exact hf

end

/-- What the first program does the second one does, too. -/
def Within (x y : Program S α) : Prop := ∀ s r, x s = some r → y s = some r

section

variable {x y : Program S α}

theorem Within.refl (x : Program S α) : Within x x := fun _ _ h => h

theorem Within.failure : Within failure x := fun _ _ h => nomatch h

theorem Within.bind {f g : α → Program S β} (hx : Within x y) (hf : ∀ a, Within (f a) (g a)) :
    Within (x >>= f) (y >>= g) := by
  intro s r h
  obtain ⟨a, t, hxt, hft⟩ := bind_some.mp h
  exact bind_some.mpr ⟨a, t, hx s _ hxt, hf a t r hft⟩

theorem Within.ite {p : Prop} [Decidable p] {x' y' : Program S α} (hx : Within x y)
    (hy : Within x' y') : Within (if p then x else x') (if p then y else y') := by
  split
  · exact hx
  · exact hy

end

/-- Seen through `f`, the first program does what the second one does. From
states with `Q` it keeps `Q`, and its results have `P`. -/
def Follows {T : Type} (f : S → T) (Q : S → Prop) (P : α → Prop) (x : Program S α)
    (y : Program T α) : Prop :=
  ∀ s, Q s → (x s).map (fun r => (r.1, f r.2)) = y (f s) ∧ ∀ a t, x s = some (a, t) → Q t ∧ P a

section

variable {T : Type} {f : S → T} {Q : S → Prop} {P : α → Prop} {P' : β → Prop}

theorem Follows.pure {a : α} (h : P a) : Follows f Q P (pure a) (pure a) := by
  intro s hs
  refine ⟨rfl, fun b t ht => ?_⟩
  cases ht
  exact ⟨hs, h⟩

theorem Follows.failure : Follows f Q P (failure : Program S α) failure :=
  fun _ _ => ⟨rfl, fun _ _ h => nomatch h⟩

theorem Follows.bind {x : Program S α} {y : Program T α} {g : α → Program S β} {h : α → Program T β}
    (hx : Follows f Q P x y) (hg : ∀ a, P a → Follows f Q P' (g a) (h a)) :
    Follows f Q P' (x >>= g) (y >>= h) := by
  intro s hs
  obtain ⟨he, hk⟩ := hx s hs
  rw [bind_eq, bind_eq, ← he]
  cases hxs : x s with
  | none => exact ⟨rfl, fun _ _ h => nomatch h⟩
  | some r => exact hg r.1 (hk r.1 r.2 hxs).2 r.2 (hk r.1 r.2 hxs).1

theorem Follows.ite {p : Prop} [Decidable p] {x x' : Program S α} {y y' : Program T α}
    (hx : p → Follows f Q P x y) (hy : ¬ p → Follows f Q P x' y') :
    Follows f Q P (if p then x else x') (if p then y else y') := by
  split
  next h => exact hx h
  next h => exact hy h

theorem Follows.unseen {z : Program S β} {x : Program S α} {y : Program T α}
    (hz : ∀ s, Q s → ∃ b t, z s = some (b, t) ∧ f t = f s ∧ Q t) (hx : Follows f Q P x y) :
    Follows f Q P (z >>= fun _ => x) y := by
  intro s hs
  obtain ⟨b, t, hzs, hft, ht⟩ := hz s hs
  rw [bind_of_eq hzs, ← hft]
  exact hx t ht

theorem Follows.agree {x : Program S α} {y : Program T α} {g : α → Program S β}
    {h : α → Program T β} (hx : Follows f Q P x y)
    (hg : ∀ a t, P a → Q t → (g a t).map (fun r => (r.1, f r.2)) = h a (f t)) {s : S} (hs : Q s) :
    ((x >>= g) s).map (fun r => (r.1, f r.2)) = (y >>= h) (f s) := by
  obtain ⟨he, hk⟩ := hx s hs
  rw [bind_eq, bind_eq, ← he]
  cases hxs : x s with
  | none => rfl
  | some r => exact hg r.1 r.2 (hk r.1 r.2 hxs).2 (hk r.1 r.2 hxs).1

end

/-- The programs do the more the larger the number is. From a state with `P`
one of them has an outcome, and it has `Q`. -/
structure Returns (P : S → Prop) (x : Nat → Program S α) (Q : α → S → Prop) : Prop where
  grows : ∀ {k k' : Nat}, k ≤ k' → Within (x k) (x k')
  run : ∀ s, P s → ∃ k a t, x k s = some (a, t) ∧ Q a t

section

variable {P P' : S → Prop} {Q Q' : α → S → Prop} {R : β → S → Prop} {x y : Nat → Program S α}

theorem Returns.plain {x : Program S α} (h : ∀ s, P s → ∃ a t, x s = some (a, t) ∧ Q a t) :
    Returns P (fun _ => x) Q :=
  ⟨fun _ => .refl x, fun s hs => ⟨0, h s hs⟩⟩

theorem Returns.mono (h : Returns P x Q) (hP : ∀ s, P' s → P s) (hQ : ∀ a s, Q a s → Q' a s) :
    Returns P' x Q' := by
  refine ⟨h.grows, fun s hs => ?_⟩
  obtain ⟨k, a, t, hx, ht⟩ := h.run s (hP s hs)
  exact ⟨k, a, t, hx, hQ a t ht⟩

theorem Returns.bind {f : Nat → α → Program S β} (hx : Returns P x Q)
    (hf : ∀ a, Returns (Q a) (fun k => f k a) R) : Returns P (fun k => x k >>= f k) R := by
  refine ⟨fun hk => (hx.grows hk).bind fun a => (hf a).grows hk, fun s hs => ?_⟩
  obtain ⟨k, a, u, hxu, hu⟩ := hx.run s hs
  obtain ⟨l, b, t, hft, ht⟩ := (hf a).run u hu
  exact ⟨max k l, b, t, bind_some.mpr ⟨a, u, hx.grows (Nat.le_max_left k l) _ _ hxu,
    (hf a).grows (Nat.le_max_right k l) _ _ hft⟩, ht⟩

theorem Returns.ite {p : Prop} [Decidable p] (hx : Returns P x Q) (hy : Returns P y Q) :
    Returns P (fun k => if p then x k else y k) Q := by
  split
  · exact hx
  · exact hy

end

/-- Every outcome of the program adds `δ` of its result to the quantity `w`. -/
def Adds [AddCommGroup A] (w : S → A) (x : Program S α) (δ : α → A) : Prop :=
  ∀ s a t, x s = some (a, t) → w t = w s + δ a

/-- Every outcome of the program leaves the quantity as it was. -/
def Keeps (w : S → A) (x : Program S α) : Prop := ∀ s a t, x s = some (a, t) → w t = w s

section

variable {w : S → A} {x : Program S α} {f : α → Program S β}

theorem Keeps.bind (hx : Keeps w x) (hf : ∀ a, Keeps w (f a)) : Keeps w (x >>= f) := by
  intro s b t h
  obtain ⟨a, u, hxu, hfu⟩ := bind_some.mp h
  rw [hf a u b t hfu, hx s a u hxu]

theorem Keeps.pure (a : α) : Keeps w (pure a : Program S α) := by
  intro s b t h
  cases h
  rfl

theorem Keeps.failure : Keeps w (failure : Program S α) := fun _ _ _ h => nomatch h

theorem Keeps.read (g : S → α) : Keeps w (fun s => some (g s, s) : Program S α) := by
  intro s a t h
  cases h
  rfl

theorem Keeps.ite {p : Prop} [Decidable p] {x y : Program S α} (hx : Keeps w x) (hy : Keeps w y) :
    Keeps w (if p then x else y) := by
  split
  · exact hx
  · exact hy

theorem Keeps.map {B : Type*} (g : A → B) (hx : Keeps w x) : Keeps (fun s => g (w s)) x :=
  fun s a t h => congrArg g (hx s a t h)

/-- The quantity becomes `g` of what it was in every outcome. -/
def Makes (w : S → A) (x : Program S α) (g : A → A) : Prop :=
  ∀ s a t, x s = some (a, t) → w t = g (w s)

theorem Keeps.thenMakes {g : A → A} (hx : Keeps w x) (hf : ∀ a, Makes w (f a) g) :
    Makes w (x >>= f) g := by
  intro s b t h
  obtain ⟨a, u, hxu, hfu⟩ := bind_some.mp h
  rw [hf a u b t hfu, hx s a u hxu]

theorem Makes.failure {g : A → A} : Makes w (failure : Program S α) g := fun _ _ _ h => nomatch h

theorem Makes.ite {p : Prop} [Decidable p] {x y : Program S α} {g : A → A} (hx : Makes w x g)
    (hy : Makes w y g) : Makes w (if p then x else y) g := by
  split
  · exact hx
  · exact hy

variable [AddCommGroup A] {δ : α → A} {ε : β → A}

theorem Keeps.adds (h : Keeps w x) :
    Adds w x fun _ => 0 := fun s a t ht => by rw [h s a t ht, add_zero]

theorem Adds.keeps (h : Adds w x fun _ => 0) :
    Keeps w x := fun s a t ht => by rw [h s a t ht, add_zero]

theorem Adds.congr {δ' : α → A} (h : Adds w x δ) (he : ∀ a, δ a = δ' a) : Adds w x δ' :=
  fun s a t ht => he a ▸ h s a t ht

theorem Adds.bind (hx : Adds w x δ) (hf : ∀ a, Adds w (f a) fun b => ε b - δ a) :
    Adds w (x >>= f) ε := by
  intro s b t h
  obtain ⟨a, u, hxu, hfu⟩ := bind_some.mp h
  rw [hf a u b t hfu, hx s a u hxu, add_assoc, add_sub_cancel]

theorem Keeps.andThen (hx : Keeps w x) (hf : ∀ a, Adds w (f a) ε) : Adds w (x >>= f) ε :=
  hx.adds.bind fun a => (hf a).congr fun _ => (sub_zero _).symm

theorem Adds.pure {a : α} (h : δ a = 0) : Adds w (pure a : Program S α) δ := by
  intro s b t ht
  cases ht
  rw [h, add_zero]

theorem Adds.failure : Adds w (failure : Program S α) δ := fun _ _ _ h => nomatch h

/-- What the first part adds is taken away again in the second. -/
theorem Adds.borrow {γ : Type} {y : Program S (Option γ)} {r : γ → A} {g : Option γ → Program S α}
    (hy : Adds w y fun o => o.elim 0 r) (hn : Keeps w (g none))
    (hs : ∀ c, Adds w (g (some c)) fun _ => - r c) :
    Keeps w (y >>= g) := by
  refine Adds.keeps (hy.bind fun o => ?_)
  cases o with
  | none => exact hn.adds.congr fun _ => (sub_zero 0).symm
  | some c => exact (hs c).congr fun _ => (zero_sub _).symm

theorem Adds.giveBack {r : A} {y : Program S β} (hx : Adds w x fun _ => - r) (hy : Keeps w y) :
    Adds w (x >>= fun _ => y) fun _ => - r :=
  hx.bind fun _ => hy.adds.congr fun _ => (sub_self _).symm

theorem Adds.map {B : Type*} [AddCommGroup B] (g : A →+ B) (hx : Adds w x δ) :
    Adds (fun s => g (w s)) x fun a => g (δ a) :=
  fun s a t h => (congrArg g (hx s a t h)).trans (map_add g _ _)

theorem Adds.ite {p : Prop} [Decidable p] {x y : Program S α} (hx : Adds w x δ) (hy : Adds w y δ) :
    Adds w (if p then x else y) δ := by
  split
  · exact hx
  · exact hy

end

end Program
