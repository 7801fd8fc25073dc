import Gpos.ReadSuper

/-! `read_super` with its locks does what it does without them, as long as the
disk stays the same and nobody holds a lock. -/

namespace Gpos.Mounts

open Fs Cache Zones Program

section

variable {α : Type} {disk : Disk} {Q : (Nat → SuperRest) → Prop}

theorem follows_onFs (x : Program Fs α) :
    Follows Mounts.fs (fun s => Q s.rest) (fun _ => True) (onFs x) x := by
  intro s hs
  rw [onFs, Option.map_map]
  refine ⟨Option.map_id', fun a t h => ?_⟩
  obtain ⟨r, -, he⟩ := Option.map_eq_some_iff.mp h
  cases he
  exact ⟨hs, trivial⟩

theorem follows_bread (dev block : Nat) :
    Follows Mounts.fs (fun s => Q s.rest) (fun _ => True) (bread (fun _ => disk) dev block)
      (Fs.bread disk dev block) := by
  intro s hs
  rw [bread, Option.map_map]
  refine ⟨Option.map_id', fun a t h => ?_⟩
  obtain ⟨r, -, he⟩ := Option.map_eq_some_iff.mp h
  cases he
  exact ⟨hs, trivial⟩

theorem follows_readMap (setSlot : Nat → Option Nat → Program Fs Unit) (dev n i block : Nat) :
    Follows Mounts.fs (fun s => Q s.rest) (fun _ => True)
      (readMap (fun _ => disk) setSlot dev n i block) (Fs.readMap disk setSlot dev n i block) := by
  induction n generalizing i block with
  | zero => exact Follows.pure trivial
  | succ n ih =>
    refine Follows.ite (fun _ => Follows.failure) fun _ =>
      (follows_bread dev block).bind fun x _ => ?_
    refine (follows_onFs _).bind fun _ _ => ?_
    exact Follows.ite (fun _ => ih (i + 1) (block + 1)) fun _ => Follows.pure trivial

theorem follows_giveUp (k : Nat) :
    Follows Mounts.fs (fun _ => True) (fun _ => True) (giveUp k) (forgetSuper k) :=
  (follows_onFs (Q := fun _ => True) _).bind fun _ _ =>
    Follows.unseen (fun _ _ => ⟨(), _, rfl, rfl, trivial⟩) (Follows.pure trivial)

theorem follows_readMaps (k dev : Nat) :
    Follows Mounts.fs (fun _ => True) (fun _ => True) (readMaps (fun _ => disk) k dev)
      (Fs.readMaps disk k dev) := by
  have hfs {α : Type} (x : Program Fs α) := @follows_onFs α (fun _ => True) x
  refine (hfs _).bind fun _ _ => (hfs _).bind fun sb _ => ?_
  refine (@follows_readMap disk (fun _ => True) _ dev _ 0 2).bind fun block _ => ?_
  refine (@follows_readMap disk (fun _ => True) _ dev _ 0 block).bind fun block _ =>
    (hfs _).bind fun sb _ => Follows.ite (fun _ => ?_) fun _ => ?_
  · exact (hfs _).bind fun _ _ => (hfs _).bind fun _ _ => follows_giveUp k
  · refine (hfs _).bind fun _ _ => (hfs _).bind fun _ _ => ?_
    exact Follows.unseen (fun _ _ => ⟨(), _, rfl, rfl, trivial⟩) (Follows.pure trivial)

theorem fillSuper_fs {s : Mounts} {k : Nat} (hk : (s.rest k).sLock = false) (dev : Nat) :
    (fillSuper (fun _ => disk) k dev s).map (fun r => (r.1, r.2.fs)) = (do
      modifySuper k fun sb => { sb with sDev := dev, sIsup := none, sImount := none }
      match ← Fs.bread disk dev 1 with
      | none => forgetSuper k
      | some bh => do
        let b ← Fs.readBuf bh
        modifySuper k (readSuperAt b.bData)
        Fs.brelse bh
        if getBits b.bData 128 16 ≠ superMagic then forgetSuper k
          else Fs.readMaps disk k dev : Program Fs (Option Nat)) s.fs := by
  refine Follows.agree (@follows_onFs _ (fun ρ => (ρ k).sLock = false) _) (fun _ t _ ht => ?_) hk
  have hself : (Function.update t.rest k { t.rest k with
    sTime := 0, sRdOnly := false, sDirt := false } k).sLock = false := by
    rw [Function.update_self]
    exact ht
  have hlock := lockSuper_eq (s := { t with rest := _ }) hself
  rw [bind_of_eq rfl, bind_of_eq hlock]
  refine Follows.agree (@follows_bread disk (fun _ => True) dev 1) (fun x u _ _ => ?_) trivial
  cases x with
  | none => exact (follows_giveUp k u trivial).1
  | some bh =>
    refine Follows.agree (@follows_onFs _ (fun _ => True) (Fs.readBuf bh))
      (fun b u _ _ => ?_) trivial
    obtain ⟨v, hcopy, hfs, hmagic⟩ := copySuper_eq u k b.bData
    rw [bind_of_eq hcopy, bind_of_eq hfs]
    refine Follows.agree (@follows_onFs _ (fun ρ => (ρ k).sMagic = getBits b.bData 128 16)
      (Fs.brelse bh)) (fun _ w _ hw => ?_) hmagic
    rw [bind_of_eq rfl, hw]
    exact (Follows.ite (fun _ => follows_giveUp k) (fun _ => follows_readMaps k dev) w trivial).1

/-- With one disk and no lock held it is `read_super` without the locks. -/
theorem readSuper_fs {s : Mounts} (hs : ∀ k, k < nrSuper → (s.rest k).sLock = false) (dev : Nat) :
    (readSuper (fun _ => disk) dev s).map (fun r => (r.1, r.2.fs)) =
      Fs.readSuper disk dev s.fs := by
  unfold readSuper Fs.readSuper
  split
  next => rfl
  next =>
    obtain ⟨found, hget, hslot, -⟩ := getSuper_eq hs dev
    rw [Program.bind_of_eq hget, Program.bind_of_eq hslot]
    cases found with
    | some k => rfl
    | none =>
      obtain ⟨empty, hempty, hlt⟩ := slotOf_eq 0 s.fs
      dsimp only
      rw [Program.bind_of_eq (onFs_eq hempty), Program.bind_of_eq hempty]
      cases empty with
      | none => rfl
      | some k => exact fillSuper_fs (hs k (hlt k rfl).1) dev

end

end Gpos.Mounts
