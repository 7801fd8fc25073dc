import Gpos.Answers
import Gpos.CookedLines

/-! The calls of `con_write` in which no character ends ESC Z. They go through
although an answer has no outcome; they empty the write queue and change nothing
else of the terminal. -/

namespace Gpos.Tty

open Program RingBuffer

section

variable {E : Type} {below : BitVec 8 → Bool} {write write' : Program (Dev E) Unit}

theorem feed_mono (h : write.Within write') (a : Option (BitVec 8)) (s t : Dev E)
    (hs : feed below write a s = some t) : feed below write' a s = some t := by
  cases a with
  | some c => exact hs
  | none =>
    obtain ⟨r, hr, rfl⟩ := Option.map_eq_some_iff.mp hs
    rw [feed, within_copyToCooked h (Nat.le_refl _) _ _ hr, Option.map_some]

/-- Where `tty->write` has no outcome, the characters are dropped. -/
def orDrop (write : Program (Dev E) Unit) : Program (Dev E) Unit := fun s =>
  some ((write s).getD ((),
    { s with tty := { s.tty with writeQ := { s.tty.writeQ with tail := s.tty.writeQ.head } } }))

theorem within_orDrop (write : Program (Dev E) Unit) : write.Within (orDrop write) := by
  intro s r hr
  rw [orDrop, hr, Option.getD_some]

theorem drains_orDrop (h : ∀ s s', write s = some ((), s') →
    s'.tty = { s.tty with writeQ := s'.tty.writeQ } ∧ s'.tty.writeQ.Empty) :
    Drains (orDrop write) := by
  have hall : ∀ s s', orDrop write s = some ((), s') →
      s'.tty = { s.tty with writeQ := s'.tty.writeQ } ∧ s'.tty.writeQ.Empty := fun s s' hs => by
    cases hw : write s with
    | some r =>
      rw [orDrop, hw, Option.getD_some] at hs
      exact h s s' (hw.trans hs)
    | none =>
      rw [orDrop, hw, Option.getD_none] at hs
      cases hs
      exact ⟨rfl, rfl⟩
  exact ⟨fun s => ⟨_, rfl⟩, fun s s' hs => (hall s s' hs).1, fun s s' hs => (hall s s' hs).2⟩

end

section

variable {g : Console.Geometry} {below : BitVec 8 → Bool}

theorem writeLoop_unasked {write : Program (Dev Screen) Unit} {nr : Nat} {s t : Dev Screen}
    (hn : s.tty.writeQ.size = nr) (h : writeLoop g below write 0 nr s = some ((), t)) :
    t.tty = { s.tty with writeQ := t.tty.writeQ } ∧ t.tty.writeQ.Empty := by
  induction nr generalizing s with
  | zero =>
    cases h
    exact ⟨rfl, (size_eq_zero _).mp hn⟩
  | succ nr ih =>
    rw [writeLoop_succ] at h
    split at h
    · obtain ⟨_, _, hc, -⟩ := bind_some.mp h
      exact nomatch hc
    · obtain ⟨htty, hempty⟩ := ih (size_shown g hn) h
      exact ⟨htty, hempty⟩

/-- To an answer there are no rounds left. -/
theorem conWrite_unasked {s t : Dev Screen} (h : conWrite g below 1 s = some ((), t)) :
    t.tty = { s.tty with writeQ := t.tty.writeQ } ∧ t.tty.writeQ.Empty := by
  obtain ⟨_, u, hu, hw⟩ := bind_some.mp h
  cases hu
  obtain ⟨_, u, hu, hl⟩ := bind_some.mp hw
  cases hu
  obtain ⟨htty, hempty⟩ := writeLoop_unasked (s := { s with
    rest := { s.rest with queued := s.rest.queued ++ fresh s, noted := s.tty.writeQ.head } }) rfl hl
  exact ⟨htty, hempty⟩

theorem drains_unasked (g : Console.Geometry) (below : BitVec 8 → Bool) :
    Drains (orDrop (conWrite g below 1)) := drains_orDrop fun _ _ => conWrite_unasked

theorem within_unasked (g : Console.Geometry) (below : BitVec 8 → Bool) (n : Nat) :
    Within (conWrite g below 1) (conWrite g below (n + 1)) :=
  within_conWrite (Nat.le_add_left 1 n)

/-- All of this is done without an answer to ESC Z. -/
def Unasked (g : Console.Geometry) (below : BitVec 8 → Bool) (as : List (Option (BitVec 8)))
    (s : Dev Screen) : Prop :=
  ∃ t, Run.exec (feed below (conWrite g below 1)) as s = some t

instance (as : List (Option (BitVec 8))) (s : Dev Screen) : Decidable (Unasked g below as s) :=
  decidable_of_iff _ Option.isSome_iff_exists

end

end Gpos.Tty
