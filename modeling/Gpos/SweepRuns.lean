import Gpos.Run
import Gpos.Sweep

/-! An elevator: a queue in ascending sweeps into which elements are put, and from whose head
they are taken. -/

namespace Run

variable {S A B : Type*} {step : A → S → Option S}

/-- What the actions put out, up to the first one that is not enabled. -/
def outputs (step : A → S → Option S) (out : A → S → List B) : List A → S → List B
  | [], _ => []
  | a :: as, s =>
    match step a s with
    | none => []
    | some t => out a s ++ outputs step out as t

theorem outputs_cons {out : A → S → List B} {a : A} {as : List A} {s t : S}
    (h : step a s = some t) : outputs step out (a :: as) s = out a s ++ outputs step out as t := by
  rw [outputs, h]

theorem outputs_stuck {out : A → S → List B} {a : A} {as : List A} {s : S}
    (h : step a s = none) : outputs step out (a :: as) s = [] := by
  rw [outputs, h]

instance Always.decidable {P : S → Prop} [DecidablePred P] : ∀ as s, Decidable (Always step P as s)
  | [], s => inferInstanceAs (Decidable (P s))
  | a :: as, s =>
    match h : step a s with
    | none => decidable_of_iff (P s) ⟨fun hs => ⟨hs, fun _ ht => absurd (h.symm.trans ht) nofun⟩,
        fun ha => ha.1⟩
    | some t =>
      have := Always.decidable (P := P) as t
      decidable_of_iff (P s ∧ Always step P as t) ⟨fun ha => ⟨ha.1, fun _ hu =>
        Option.some.inj (h.symm.trans hu) ▸ ha.2⟩, fun ha => ⟨ha.1, ha.2 t h⟩⟩

theorem Meets.append {C : S → A → Prop} {as bs : List A} {s t : S}
    (h : Meets step C (as ++ bs) s) (he : exec step as s = some t) :
    Meets step C as s ∧ Meets step C bs t := by
  induction as generalizing s with
  | nil =>
    cases he
    exact ⟨trivial, h⟩
  | cons a as ih =>
    obtain ⟨m, hm, hrest⟩ := Option.bind_eq_some_iff.mp he
    obtain ⟨hc, htail⟩ := h m hm
    obtain ⟨has, hbs⟩ := ih htail hrest
    exact ⟨.cons hm hc has, hbs⟩

end Run

namespace Sweep

variable {α : Type*}

inductive Op (α : Type*)
  | put (r : α)
  | pop

def act (lt : α → α → Bool) : Op α → List α → Option (List α)
  | .put r, [] => some [r]
  | .put r, a :: l => some (a :: Chain.place (fits lt r) r a l)
  | .pop, [] => none
  | .pop, _ :: l => some l

def taken : Op α → List α → List α
  | .pop, a :: _ => [a]
  | _, _ => []

abbrev popped (lt : α → α → Bool) : List (Op α) → List α → List α := Run.outputs (act lt) taken

/-- A new element is before or behind each of the others. -/
def Fresh (lt : α → α → Bool) (l : List α) : Op α → Prop
  | .put r => ∀ x ∈ l, lt x r ∨ lt r x
  | .pop => True

section

variable {lt : α → α → Bool} {a r w : α} {l : List α} {ops : List (Op α)}

theorem descents_map {β : Type*} {f : β → α} (l : List β) :
    descents lt (l.map f) = descents (fun x y => lt (f x) (f y)) l := by
  induction l with
  | nil => rfl
  | cons a l ih =>
    cases l with
    | nil => rfl
    | cons b l =>
      rw [descents_cons_cons, ← ih, List.map_cons, List.map_cons, descents_cons_cons]

end

end Sweep
