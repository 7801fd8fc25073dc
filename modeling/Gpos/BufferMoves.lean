import Gpos.BufferRefs

/-! Every step of a task inside the buffer cache has one of the four effects
on the buffers and the references to them. -/

namespace Gpos.BufferTasks

open Cache Holdings

variable {T : Type*} [DecidableEq T]

def refsOf (s : St T) (t : T) : List Ref := (s.loc t).pending ++ s.held t

theorem goto_others (t : T) (l : Loc) (s : St T) (u : T) (hu : u ≠ t) :
    (goto t l s).loc u = s.loc u ∧ refsOf (goto t l s) u = refsOf s u := by
  simp only [goto, refsOf, Function.update_of_ne hu, and_self]

theorem refsOf_goto (t : T) (l : Loc) (s : St T) :
    refsOf (goto t l s) t = l.pending ++ s.held t := by
  simp only [goto, refsOf, Function.update_self]

@[simp] theorem goto_loc (t : T) (l : Loc) (s : St T) : (goto t l s).loc t = l := by
  simp only [goto, Function.update_self]

theorem ret_others (t : T) (r : Ref) (s : St T) (u : T) (hu : u ≠ t) :
    (ret t r s).loc u = s.loc u ∧ refsOf (ret t r s) u = refsOf s u := by
  simp only [ret, refsOf, Function.update_of_ne hu, and_self]

theorem refsOf_ret (t : T) (r : Ref) (s : St T) : refsOf (ret t r s) t = r :: s.held t := by
  simp only [ret, refsOf, Function.update_self, Loc.pending, List.nil_append]

@[simp] theorem ret_loc (t : T) (r : Ref) (s : St T) : (ret t r s).loc t = .idle := by
  simp only [ret, Function.update_self]

theorem found_cases (t : T) (op : Op) (r : Ref) (s : St T) :
    found t op r s = ret t r s ∨ found t op r s = goto t (.lockWait r) s ∨
      found t op r s = goto t (.ioWait r) s := by
  unfold found
  split
  · exact .inl rfl
  · exact .inl rfl
  · split_ifs
    · exact .inl rfl
    · exact .inr (.inl rfl)
    · exact .inr (.inr rfl)

theorem found_cache (t : T) (op : Op) (r : Ref) (s : St T) : (found t op r s).cache = s.cache := by
  rcases found_cases t op r s with h | h | h <;> rw [h] <;> rfl

theorem found_others (t : T) (op : Op) (r : Ref) (s : St T) (u : T) (hu : u ≠ t) :
    (found t op r s).loc u = s.loc u ∧ refsOf (found t op r s) u = refsOf s u := by
  rcases found_cases t op r s with h | h | h <;> rw [h]
  · exact ret_others t r s u hu
  · exact goto_others t _ s u hu
  · exact goto_others t _ s u hu

theorem refsOf_found (t : T) (op : Op) (r : Ref) (s : St T) :
    refsOf (found t op r s) t = r :: s.held t := by
  rcases found_cases t op r s with h | h | h <;> rw [h]
  · exact refsOf_ret t r s
  · exact refsOf_goto t _ s
  · exact refsOf_goto t _ s

theorem found_ok (t : T) (op : Op) (r : Ref) (s : St T) (n : Nat) :
    ((found t op r s).loc t).Ok n := by
  rcases found_cases t op r s with h | h | h <;> rw [h]
  · simp [Loc.Ok]
  · simp [Loc.Ok]
  · simp [Loc.Ok]

theorem sameShape_refl (c : Cache) : SameShape c c :=
  ⟨rfl, rfl, rfl, fun _ => ⟨rfl, rfl, rfl, rfl, rfl, rfl⟩⟩

variable [Fintype T]

def refs (s : St T) : Multiset Ref := total (refsOf s)

structure Inv (s : St T) : Prop where
  sound : Sound s.cache (refs s)
  loc : ∀ t, (s.loc t).Ok s.cache.nrBuffers

/-- Fewer than 256 references to any one buffer. -/
def RefsFit (s : St T) : Prop := ∀ b, countRefs b (refs s) < 256

structure Moves (s s' : St T) : Prop where
  effect : Effect s.cache (refs s) s'.cache (refs s')
  loc : ∀ t, (s'.loc t).Ok s.cache.nrBuffers

omit [DecidableEq T] in
theorem Moves.inv {s s' : St T} (h : Moves s s') (hi : Inv s) (hfit : RefsFit s) : Inv s' :=
  ⟨h.effect.sound hi.sound hfit, fun t => h.effect.nrBuffers.symm ▸ h.loc t⟩

theorem Inv.loc_of_others {s s' : St T} (hi : Inv s) {t : T} (ho : ∀ u, u ≠ t → s'.loc u = s.loc u)
    (ht : (s'.loc t).Ok s.cache.nrBuffers) (u : T) : (s'.loc u).Ok s.cache.nrBuffers := by
  by_cases hu : u = t
  · exact hu ▸ ht
  · exact ho u hu ▸ hi.loc u

section

variable {s s₁ : St T} {t : T} {op : Op} {r : Ref}

theorem moves_goto (hi : Inv s) (hl : s₁.loc = s.loc) (hh : s₁.held = s.held) {l : Loc}
    (hp : l.pending = (s.loc t).pending) (hok : l.Ok s.cache.nrBuffers)
    (hs : SameShape s.cache s₁.cache)
    (hc : ∀ i, (s₁.cache.buf i).bCount = (s.cache.buf i).bCount) : Moves s (goto t l s₁) := by
  have hr : refs (goto t l s₁) = refs s := total_keep t
    (fun u hu => by rw [(goto_others t l s₁ u hu).2, refsOf, refsOf, hl, hh])
    (by rw [refsOf_goto, refsOf, hp, hh])
  refine ⟨by rw [hr]; exact .keep hs hc, hi.loc_of_others (t := t) (fun u hu => ?_)
    (by rwa [goto_loc])⟩
  rw [(goto_others t l s₁ u hu).1, hl]

theorem moves_flags (hi : Inv s) (bh : Nat) (q : List Nat) {f : BufferHead → BufferHead}
    (hf : KeepsShape f) (hc : ∀ b, (f b).bCount = b.bCount) {l : Loc}
    (hp : l.pending = (s.loc t).pending) (hok : l.Ok s.cache.nrBuffers) :
    Moves s (goto t l (onBuffer bh f { s with requests := q })) := by
  apply moves_goto hi
  · rfl
  · rfl
  · exact hp
  · exact hok
  · exact sameShape_modify _ bh hf
  · exact count_modify _ bh hc

theorem moves_found (hi : Inv s) (hp : (s.loc t).pending = [r]) : Moves s (found t op r s) := by
  have hr : refs (found t op r s) = refs s :=
    total_keep t (fun u hu => (found_others t op r s u hu).2)
    (by rw [refsOf_found, refsOf, hp]; rfl)
  exact ⟨by rw [hr, found_cache]; exact .keep (sameShape_refl _) fun _ => rfl,
    hi.loc_of_others (fun u hu => (found_others t op r s u hu).1) (found_ok t op r s _)⟩

theorem moves_ret (hi : Inv s) (hp : (s.loc t).pending = [r]) : Moves s (ret t r s) :=
  show Moves s (found t .getblk r s) from moves_found hi hp

theorem moves_runLookup {dev block : Nat} (hi : Inv s) (hd : dev ≠ 0) (hp : (s.loc t).pending = [])
    (h : runLookup t op dev block s = some s₁) : Moves s s₁ := by
  have hkeep : ∀ l : Loc, l.pending = [] → l.Ok s.cache.nrBuffers → Moves s (goto t l s) :=
    fun l hl hok => moves_goto hi rfl rfl (hl.trans hp.symm) hok (sameShape_refl _) fun _ => rfl
  unfold runLookup at h
  rcases hi.sound.inv.findBuffer block hd with ⟨b, hb, hc⟩ | ⟨hn, -⟩
  · -- the reference is taken before the wait
    simp only [hb, Option.some.injEq] at h
    subst h
    have hr : refs (goto t (.hashWait op ⟨b, dev, block⟩) (onBuffer b incCount s)) =
      ⟨b, dev, block⟩ ::ₘ refs s :=
      total_take (f := refsOf s) t (fun u hu => (goto_others t _ (onBuffer b incCount s) u hu).2)
        (by rw [refsOf_goto, refsOf, hp]; rfl)
    refine ⟨by rw [hr]; exact .take ⟨b, dev, block⟩ hd hc, hi.loc_of_others
      (fun u hu => (goto_others t _ (onBuffer b incCount s) u hu).1) ?_⟩
    rw [goto_loc]
    trivial
  · obtain ⟨v, hv, hbest⟩ := hi.sound.inv.pickVictim
    simp only [hn, hv] at h
    split at h
    next => exact Option.some.inj h ▸ hkeep _ rfl trivial
    next =>
      cases v with
      | none => exact Option.some.inj h ▸ hkeep _ rfl hd
      | some v => exact Option.some.inj h ▸ hkeep _ rfl ⟨hd, List.mem_range.mp hbest.1⟩

theorem moves_drop (hi : Inv s) (hp : (s.loc t).pending = [r]) {l : Loc} (hl : l.pending = [])
    (hok : l.Ok s.cache.nrBuffers) : Moves s (goto t l (onBuffer r.bh decCount s)) := by
  have hr : refs s = r ::ₘ refs (goto t l (onBuffer r.bh decCount s)) :=
    total_drop (f := refsOf s) t (fun u hu => (goto_others t l (onBuffer r.bh decCount s) u hu).2)
      (by rw [refsOf_goto, refsOf, hp, hl]; rfl)
  exact ⟨.drop r hr, hi.loc_of_others (fun u hu =>
    (goto_others t l (onBuffer r.bh decCount s) u hu).1)
    (by rwa [goto_loc])⟩

theorem moves_runVictimWait (hi : Inv s) (hok : r.dev ≠ 0 ∧ r.bh < s.cache.nrBuffers)
    (hp : (s.loc t).pending = []) (h : runVictimWait t op r s = some s₁) : Moves s s₁ := by
  have hagain : Moves s (goto t (.lookup op r.dev r.block) s) :=
    moves_goto hi rfl rfl hp.symm hok.1 (sameShape_refl _) fun _ => rfl
  unfold runVictimWait at h
  split_ifs at h with hlock h0
  · exact Option.some.inj h ▸ hagain
  · rcases hi.sound.inv.findBuffer r.block hok.1 with ⟨b, hb, -⟩ | ⟨hn, hnew⟩
    · simp only [hb, Option.some.injEq] at h
      exact h ▸ hagain
    · obtain ⟨c, hc, hre⟩ := hi.sound.inv.retarget hok.2 hok.1 hnew
      simp only [hn, hc, Option.map_some, Option.some.injEq] at h
      subst h
      have hr : refs (found t op r { s with cache := c }) = r ::ₘ refs s :=
        total_take (f := refsOf s) t
          (fun u hu => (found_others t op r { s with cache := c } u hu).2)
          (by rw [refsOf_found, refsOf, hp]; rfl)
      refine ⟨?_, hi.loc_of_others (fun u hu => (found_others t op r { s with cache := c } u hu).1)
        (found_ok t op r _ _)⟩
      rw [hr, found_cache]
      exact .reuse r hok.1 hok.2 (not_not.mp h0) hre

end

theorem run_moves {s s' : St T} {t : T} (hi : Inv s) (h : run t s = some s') : Moves s s' := by
  have hok := hi.loc t
  unfold run at h
  split at h
  next => simp at h
  next op dev block hl => exact moves_runLookup hi (by rwa [hl] at hok) (by rw [hl]; rfl) h
  next op r hl =>
    have hp : (s.loc t).pending = [r] := by rw [hl]; rfl
    have hd := (hi.sound.ident r (mem_total.mpr ⟨t, by simp [refsOf, hp]⟩)).1
    unfold runHashWait at h
    split_ifs at h
    · exact Option.some.inj h ▸ moves_found hi hp
    · exact Option.some.inj h ▸ moves_drop hi hp rfl hd
  next op dev block hl =>
    exact Option.some.inj h ▸ moves_goto hi rfl rfl (by rw [hl]; rfl) (by rwa [hl] at hok)
      (sameShape_refl _)
      fun _ => rfl
  next op r hl => exact moves_runVictimWait hi (by rwa [hl] at hok) (by rw [hl]; rfl) h
  next r hl =>
    unfold runLockWait at h
    split_ifs at h
    · exact Option.some.inj h ▸ moves_goto hi rfl rfl (by rw [hl]; rfl) trivial
        (sameShape_refl _) fun _ => rfl
    · obtain rfl := Option.some.inj h
      exact moves_flags (l := .slotWait r) (f := lockHead) hi r.bh s.requests
        (fun _ => ⟨rfl, rfl, rfl, rfl, rfl, rfl⟩) (fun _ => rfl)
        (by rw [hl]; rfl) trivial
  next r hl =>
    unfold runSlotWait at h
    split_ifs at h
    obtain rfl := Option.some.inj h
    exact moves_flags (l := .ioWait r) (f := cleanHead) hi r.bh _
      (fun _ => ⟨rfl, rfl, rfl, rfl, rfl, rfl⟩) (fun _ => rfl)
      (by rw [hl]; rfl) trivial
  next r hl =>
    have hp : (s.loc t).pending = [r] := by rw [hl]; rfl
    unfold runIoWait at h
    split_ifs at h
    · exact Option.some.inj h ▸ moves_ret hi hp
    · exact Option.some.inj h ▸ moves_goto hi rfl rfl hp.symm trivial
        (sameShape_refl _) fun _ => rfl
  next r hl =>
    unfold runReleaseWait at h
    split_ifs at h
    exact Option.some.inj h ▸ moves_drop hi (by rw [hl]; rfl) rfl trivial

theorem step_moves {a : Action T} {s s' : St T} (hi : Inv s) (h : step a s = some s') :
    Moves s s' := by
  cases a with
  | call t op dev block =>
    simp only [step] at h
    split_ifs at h with hc
    exact Option.some.inj h ▸ moves_goto hi rfl rfl (by rw [hc.1]; rfl) (Nat.ne_of_gt hc.2.1)
      (sameShape_refl _)
      fun _ => rfl
  | brelse t r =>
    simp only [step] at h
    split_ifs at h with hc
    obtain rfl := Option.some.inj h
    -- the reference moves from the held ones to the pending one
    have hr :
      refs (goto t (.releaseWait r) { s with
        held := Function.update s.held t ((s.held t).erase r) }) = refs s := by
      refine total_keep (f := refsOf s) t (fun u hu => ?_) ?_
      · rw [(goto_others t _ _ u hu).2]
        simp only [refsOf, Function.update_of_ne hu]
      · rw [refsOf_goto, refsOf, hc.1]
        simp only [Function.update_self]
        exact (List.perm_cons_erase hc.2).symm
    refine ⟨by rw [hr]; exact .keep (sameShape_refl _) fun _ => rfl,
      hi.loc_of_others (fun u hu => (goto_others t (.releaseWait r) _ u hu).1) ?_⟩
    rw [goto_loc]
    trivial
  | store t r data =>
    simp only [step] at h
    split_ifs at h
    obtain rfl := Option.some.inj h
    exact ⟨Effect.flags (f := storeHead data) r.bh (fun _ => ⟨rfl, rfl, rfl, rfl, rfl, rfl⟩)
      (fun _ => rfl), hi.loc⟩
  | run t => exact run_moves hi h
  | endRequest bh data =>
    simp only [step, endRequest] at h
    split_ifs at h
    obtain rfl := Option.some.inj h
    exact ⟨Effect.flags (f := endHead data) bh (fun _ => ⟨rfl, rfl, rfl, rfl, rfl, rfl⟩)
      (fun _ => rfl), hi.loc⟩

end Gpos.BufferTasks
