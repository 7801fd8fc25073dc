import Gpos.PathWalk
import Gpos.StorageRuns
import Mathlib.Data.Finset.Card

/-! The directories of a volume over runs of opens with `O_CREAT`, as finite maps from names to
inodes. -/

namespace Gpos.Volume

open BlockMap Fs

section

variable {v v' : Volume} {d : Nat} {name : Name}

theorem getBits_lt (b : Block) (o l : Nat) : getBits b o l < 2 ^ l := (b.extractLsb' o l).isLt

theorem zoneAt_lt (v : Volume) (d : Nat) {k : Nat} (hk : 7 ≤ k) : v.zoneAt d k < 65536 := by
  have hentry : ∀ z j, v.disk.entryOf z j < 65536 := fun z j => by
    rw [Disk.entryOf]
    split
    · decide
    · exact getBits_lt _ _ 16
  rw [zoneAt, Place.ofBlock, if_neg (by omega)]
  split <;> exact hentry _ _

/-- The numbers of zones do not suffice for a file of all blocks. -/
theorem blocks_bound (hv : v.Ok) {m : Nat} (hm : m ≤ maxBlocks)
    (h : ∀ j < m, v.zoneAt d j ≠ 0) : m < maxBlocks := by
  refine lt_of_le_of_ne hm ?_
  rintro rfl
  have hcard := Finset.card_le_card_of_injOn (s := Finset.range (maxBlocks - 7))
    (t := Finset.range 65536) (fun j => v.zoneAt d (j + 7))
    (fun j _ => Finset.mem_coe.mpr (Finset.mem_range.mpr (zoneAt_lt v d (by omega)))) ?_
  · rw [Finset.card_range, Finset.card_range] at hcard
    exact absurd hcard (by decide)
  · intro j hj l hl heq
    have hj := Finset.mem_range.mp (Finset.mem_coe.mp hj)
    have hl := Finset.mem_range.mp (Finset.mem_coe.mp hl)
    have hplace := hv.trees.distinct d _ d _ (Place.ofBlock_ok (show j + 7 < maxBlocks by omega))
      (Place.ofBlock_ok (show l + 7 < maxBlocks by omega)) (h (j + 7) (by omega)) heq
    have hsame := Place.ofBlock_inj hplace.2
    omega

theorem NoHoles.room (hno : v.NoHoles d) (hv : v.Ok) :
    v.entries d / dirEntriesPerBlock < maxBlocks := by
  have h64 : dirEntriesPerBlock = 64 := rfl
  have hblock : ∀ j < v.entries d / dirEntriesPerBlock, j < maxBlocks ∧ v.zoneAt d j ≠ 0 := by
    intro j hj
    have hdiv : 64 * j / dirEntriesPerBlock = j := Nat.mul_div_cancel_left j (by decide)
    have hlt : j < v.entries d / 64 := hj
    have hz := hno.zone (show 64 * j < v.entries d by omega)
    rw [entryZone, hdiv] at hz
    exact hz
  refine blocks_bound hv ?_ fun j hj => (hblock j hj).2
  by_contra hbig
  exact Nat.lt_irrefl _ (hblock maxBlocks (Nat.not_le.mp hbig)).1

theorem createBlock_filled (he : v.disk.Exact) (hv : v.Fits) (i : Nat) {k : Nat}
    (hk : k < maxBlocks) : ∃ z v', BlockMap.createBlock ops i k v = some (z, v') ∧
      Created v i k z v' ∧ v'.disk.Exact ∧ (z = 0 → v'.disk.Full) := by
  obtain ⟨z, d', hd, hf⟩ := Disk.createBlock_filled he i hk
  have hsim := (simulates.bmapCreate true i k v hv).1
  obtain ⟨⟨z, v'⟩, hc, heq⟩ := Option.map_eq_some_iff.mp (hsim.trans hd)
  cases heq
  exact ⟨z, v', hc, createBlock_created ⟨he.trees, hv⟩ hc, hf.exact, hf.full⟩

/-- What the loop of `add_entry` leaves: an entry is taken, or the directory is full and there is no
zone for it to grow into. -/
inductive Claims (v : Volume) (d : Nat) (name : Name) : Option (Nat × Nat) → Volume → Prop
  | taken {f z : Nat} {v₁ : Volume} (hf : Found v d f z v₁) (he : v₁.disk.Exact) :
      Claims v d name (some (z, f % dirEntriesPerBlock))
        (v₁.claimed d name z (f % dirEntriesPerBlock) f)
  | noRoom {k : Nat} {v' : Volume} (hk : v.entries d = dirEntriesPerBlock * (k + 1))
      (hc : Created v d (k + 1) 0 v') (he : v'.disk.Exact) (hf : v'.disk.Full) :
      Claims v d name none v'

theorem scanFree_ends (he : v.disk.Exact) (hv : v.Fits) (hsize : (v.inodeTable d).iSize % 16 = 0)
    (hno : v.NoHoles d) (mounted : Option Nat) {rounds bh k de i : Nat}
    (hs : v.Scanning d k bh de i) (hde : de ≤ dirEntriesPerBlock)
    (hr : v.entries d < i + rounds) :
    ∃ r v', (dirOps mounted).scanFree d (min name.length nameLen) name rounds bh de i v =
      some (r, v') ∧ Claims v d name r v' := by
  have h64 : dirEntriesPerBlock = 64 := rfl
  induction rounds generalizing bh k de i with
  | zero =>
    have hbound := hs.bound
    omega
  | succ rounds ih =>
    rw [DirOps.scanFree]
    by_cases hlt : de < dirEntriesPerBlock
    · rw [if_pos hlt]
      rcases claimEntry_found hsize mounted name hs hlt with ⟨hc, hf, rfl⟩ | ⟨hc, hi, hused⟩
      · rw [Program.bind_of_eq hc, if_pos rfl]
        exact ⟨_, _, rfl, .taken hf he⟩
      · rw [Program.bind_of_eq hc]
        exact ih (hs.next hi hused) hlt (by omega)
    rw [if_neg hlt, Program.bind_of_eq (a := ()) (t := v) rfl]
    have hindex := hs.index
    have hbound := hs.bound
    have hdiv : i / dirEntriesPerBlock = k + 1 := show i / 64 = k + 1 by omega
    have hmod : i % dirEntriesPerBlock = 0 := show i % 64 = 0 by omega
    by_cases hend : i = v.entries d
    · -- the directory is full
      have hroom := hno.room ⟨he.trees, hv⟩
      rw [← hend] at hroom
      obtain ⟨z, v₁, hcreate, hc, he₁, hfull⟩ := createBlock_filled he hv d hroom
      have hcreate' : BlockMap.createBlock (dirOps mounted).toOps d (i / dirEntriesPerBlock) v =
        some (z, v₁) := hcreate
      rw [Program.bind_of_eq hcreate']
      by_cases hz : z = 0
      · rw [if_pos hz]
        rw [hz, hdiv] at hc
        have hk : v.entries d = 64 * (k + 1) := by omega
        exact ⟨none, v₁, rfl, .noRoom hk hc he₁ (hfull hz)⟩
      · have hgrow : (v₁.inodeTable d).iSize ≤ i * 16 := by
          rw [hc.iSize d, iSize_eq hsize, hend, Nat.mul_comm]
        rw [if_neg hz, Program.bind_of_eq (a := v₁.inodeTable d) (t := v₁) rfl,
          Program.bind_of_eq (a := some z) (t := v₁) rfl]
        dsimp only
        rw [Program.bind_of_eq (claimEntry_end mounted (by decide) hgrow), if_pos rfl]
        have hf : Found v d i z v₁ := ⟨hbound, hs.live, fun hlt => absurd hlt (by omega), hc.value,
          hz, hc.small, .inr ⟨hend, hmod, hc⟩⟩
        have htaken := @Claims.taken v d name i z v₁ hf he₁
        rw [hmod] at htaken
        exact ⟨_, _, rfl, htaken⟩
    · obtain ⟨hsmall, hzone⟩ := hno.zone (show i < v.entries d by omega)
      have hstill : BlockMap.createBlock (dirOps mounted).toOps d (i / dirEntriesPerBlock) v =
        some (v.entryZone d i, v) := bmapCreate_still hsmall fun _ => hzone
      have hs' : v.Scanning d (k + 1) (v.entryZone d i) 0 i :=
        ⟨by omega, hdiv ▸ hsmall, by rw [entryZone, hdiv], hzone, hbound, hs.live⟩
      rw [Program.bind_of_eq hstill, if_neg hzone,
        Program.bind_of_eq (a := v.inodeTable d) (t := v) rfl,
        Program.bind_of_eq (a := some (v.entryZone d i)) (t := v) rfl]
      dsimp only
      rcases claimEntry_found hsize mounted name hs' (by decide) with ⟨hc, hf, -⟩ | ⟨hc, hi, hused⟩
      · rw [Program.bind_of_eq hc, if_pos rfl]
        have htaken := @Claims.taken v d name i (v.entryZone d i) v hf he
        rw [hmod] at htaken
        exact ⟨_, _, rfl, htaken⟩
      · rw [Program.bind_of_eq hc]
        exact ih (hs'.next hi hused) (by decide) (by omega)

theorem entered_exact (d : Nat) (name : Name) (he : v.disk.Exact) {i k z : Nat} (hk : k < maxBlocks)
    (hz : v.zoneAt i k = z) (e f n : Nat) : (v.entered d name z e f n).disk.Exact := by
  obtain ⟨hbits, hfirst, hnzones⟩ := entered_map v d name z e f n
  have horder : (v.entered d name z e f n).order = v.order := by
    have hext : (v.extended d z e f).order = v.order := by
      rw [extended]
      split <;> rfl
    exact hext
  have hzone : (v.entered d name z e f n).disk.zone = v.disk.zone := by
    funext m j
    obtain ⟨t, t', b, hinode⟩ := entered_inode v d name z e f n m
    show ((v.entered d name z e f n).inodeTable m).iZone j = _
    rw [hinode]
    rfl
  have hwords : ∀ w ≠ z, (v.entered d name z e f n).disk.words w = v.disk.words w :=
    fun w hw => funext fun j => congrArg (getBits · (16 * j) 16) (entered_block e f n hw)
  exact he.congr hfirst hnzones horder hbits fun m p hp =>
    Disk.ref_written he.trees hk hz hzone hwords m hp

end

/-- What `open_namei` does with `O_CREAT` in a directory, for a new inode with number `n`. -/
def openName (mounted root : Option Nat) (d : Nat) (name : Name) (n : Nat) :
    Program Volume (Option Nat) := do
  match (← (dirOps mounted).findEntry root d name).2 with
  | some (bh, de) => return some (deInode (← (dirOps mounted).data bh) de)
  | none => do
    match ← (dirOps mounted).addEntry d name with
    | none => return none
    | some (bh, de) => do
      (dirOps mounted).setEntryInode bh de n
      return some n

/-- The inode that the first entry with a name leads to. -/
def listing (v : Volume) (d : Nat) (name : Name) : Option Nat :=
  (v.firstEntry d name).map (v.inodeOf d)

/-- A directory without holes, in which no name is twice. -/
structure Listed (v : Volume) (d : Nat) : Prop where
  holes : v.NoHoles d
  size : (v.inodeTable d).iSize % 16 = 0
  zone : v.zoneAt d 0 ≠ 0
  unique : ∀ i < v.entries d, ∀ j < v.entries d, v.inodeOf d i ≠ 0 → v.inodeOf d j ≠ 0 →
    v.nameOf d i = v.nameOf d j → i = j

/-- The entries of a directory are where they were, and as they were. -/
structure Untouched (v v' : Volume) (d : Nat) : Prop where
  size : (v'.inodeTable d).iSize = (v.inodeTable d).iSize
  zone : v'.zoneAt d 0 = v.zoneAt d 0
  same : ∀ i < v.entries d, v'.entryZone d i = v.entryZone d i ∧
    v'.block (v.entryZone d i) = v.block (v.entryZone d i)

section

variable {v v' : Volume} {d : Nat} {name : Name}

theorem firstEntry_eq_some {i : Nat} : v.firstEntry d name = some i ↔
    i < v.entries d ∧ v.Named d name i ∧ ∀ j < i, ¬ v.Named d name j := by
  rw [firstEntry, List.find?_range_eq_some]
  simp only [decide_eq_true_iff, List.mem_range, Bool.not_eq_eq_eq_not, Bool.not_true,
    decide_eq_false_iff_not]
  exact and_left_comm

theorem firstEntry_eq_none : v.firstEntry d name = none ↔
    ∀ i < v.entries d, ¬ v.Named d name i := by
  rw [firstEntry, List.find?_eq_none]
  simp only [decide_eq_true_iff, List.mem_range]

/-- The entries with the name are the same, and lead to the same inodes. -/
theorem listing_congr (hnamed : ∀ i, (i < v'.entries d ∧ v'.Named d name i) ↔
      (i < v.entries d ∧ v.Named d name i))
    (hinode : ∀ i < v.entries d, v.Named d name i → v'.inodeOf d i = v.inodeOf d i) :
    v'.listing d name = v.listing d name := by
  have hfirst : v'.firstEntry d name = v.firstEntry d name := by
    refine Option.ext fun i => ?_
    rw [firstEntry_eq_some, firstEntry_eq_some, ← and_assoc, ← and_assoc, hnamed i]
    refine and_congr_right fun hi => forall₂_congr fun j hj => not_congr ?_
    have hj' : j < v.entries d := hj.trans hi.1
    have hi' := ((hnamed i).mpr hi).1
    constructor
    · exact fun hn => ((hnamed j).mp ⟨hj.trans hi', hn⟩).2
    · exact fun hn => ((hnamed j).mpr ⟨hj', hn⟩).2
  rw [listing, listing, hfirst]
  cases h : v.firstEntry d name with
  | none => rfl
  | some i =>
    obtain ⟨hi, hn, -⟩ := firstEntry_eq_some.mp h
    exact congrArg some (hinode i hi hn)

theorem Untouched.entries (h : Untouched v v' d) : v'.entries d = v.entries d :=
  congrArg (· / 16) h.size

theorem Untouched.entry (h : Untouched v v' d) {i : Nat} (hi : i < v.entries d) :
    v'.inodeOf d i = v.inodeOf d i ∧ v'.nameOf d i = v.nameOf d i := by
  obtain ⟨hzone, hblock⟩ := h.same i hi
  rw [inodeOf, inodeOf, nameOf, nameOf, hzone, hblock]
  exact ⟨rfl, rfl⟩

theorem Untouched.listing (h : Untouched v v' d) (name : Name) :
    v'.listing d name = v.listing d name := by
  refine listing_congr (fun i => ?_) fun i hi _ => (h.entry hi).1
  rw [h.entries]
  refine and_congr_right fun hi => ?_
  rw [Named, Named, (h.entry hi).1, (h.entry hi).2]

theorem Untouched.listed (h : Untouched v v' d) (hl : Listed v d) : Listed v' d := by
  refine ⟨noHoles_of_zone fun i hi => ?_, h.size.symm ▸ hl.size, h.zone.symm ▸ hl.zone,
    fun i hi j hj hni hnj he => ?_⟩
  · rw [h.entries] at hi
    rw [(h.same i hi).1]
    exact hl.holes.zone hi
  · rw [h.entries] at hi hj
    rw [(h.entry hi).1] at hni
    rw [(h.entry hj).1] at hnj
    rw [(h.entry hi).2, (h.entry hj).2] at he
    exact hl.unique i hi j hj hni hnj he

theorem Created.untouched {m k z : Nat} (h : Created v m k z v') (hl : Listed v d)
    (hk : d = m → 0 < k ∧ v.entries d ≤ dirEntriesPerBlock * k) : Untouched v v' d := by
  refine ⟨h.iSize d, h.others d 0 (by decide) fun hc => ?_, fun i hi => ?_⟩
  · have hpos := (hk hc.1).1
    omega
  · obtain ⟨hsmall, hzone⟩ := hl.holes.zone hi
    refine ⟨h.others d _ hsmall fun hc => ?_, h.block d _ hsmall hzone⟩
    have hle := (hk hc.1).2
    have hdiv : i / 64 = k := hc.2
    have hle' : v.entries d ≤ 64 * k := hle
    omega

/-- The other directories are left alone when an entry is taken. -/
theorem Found.untouched {m f z n : Nat} {v₁ : Volume} (hf : Found v m f z v₁) (hv : v.Ok)
    (hno : v.NoHoles m) (hl : Listed v d) (hne : d ≠ m) :
    Untouched v (v₁.entered m name z (f % dirEntriesPerBlock) f n) d := by
  obtain ⟨hv₁, -, -, -⟩ := hf.same hv hno
  have h₁ : Untouched v v₁ d := by
    rcases hf.step with rfl | ⟨-, -, hc⟩
    · exact ⟨rfl, rfl, fun _ _ => ⟨rfl, rfl⟩⟩
    · exact hc.untouched hl fun he => absurd he hne
  obtain ⟨-, hzones⟩ := entered_ok m name hv₁ hf.small hf.zone (f % dirEntriesPerBlock) f n
  obtain ⟨t, t', b, hinode⟩ := entered_inode v₁ m name z (f % dirEntriesPerBlock) f n d
  refine ⟨?_, (hzones d 0 (by decide)).trans h₁.zone, fun i hi => ?_⟩
  · rw [hinode]
    show (if d = m ∧ (v₁.inodeTable m).iSize ≤ f * 16 then (f + 1) * 16
      else (v₁.inodeTable d).iSize) = _
    rw [if_neg fun hc => hne hc.1, h₁.size]
  · obtain ⟨hsmall, hpos⟩ := hl.holes.zone hi
    obtain ⟨hzone, hblock⟩ := h₁.same i hi
    refine ⟨(hzones d _ hsmall).trans hzone, ?_⟩
    rw [entered_block, hblock]
    intro he
    exact hne (hv₁.trees.distinct d _ m _ (Place.ofBlock_ok hsmall) (Place.ofBlock_ok hf.small)
      (fun h0 => hpos (hzone.symm.trans h0)) (hzone.trans (he.trans hf.zone.symm))).1

theorem Inserted.listed {f z n : Nat} (h : Inserted v d name f z n v') (hl : Listed v d)
    (habsent : ∀ i < v.entries d, ¬ v.Named d name i) : Listed v' d := by
  have hlt : ∀ i < v'.entries d, i ≠ f → i < v.entries d := fun i hi hne => by
    have hbound := h.bound
    rw [h.entries] at hi
    split at hi <;> omega
  have hnot : ∀ i < v'.entries d, i ≠ f → v'.inodeOf d i ≠ 0 →
      v'.nameOf d i ≠ name.take nameLen := fun i hi hne hused he => by
    obtain ⟨-, hin, hna⟩ := h.others i (hlt i hi hne) hne
    exact habsent i (hlt i hi hne) ⟨hin ▸ hused, hna ▸ he⟩
  refine ⟨h.noHoles, ?_, h.zone_ne, fun i hi j hj hni hnj he => ?_⟩
  · have hsize := hl.size
    rw [h.size]
    split <;> omega
  · by_cases hif : i = f
    · by_contra hne
      subst hif
      exact hnot j hj (Ne.symm hne) hnj (he.symm.trans h.name)
    by_cases hjf : j = f
    · subst hjf
      exact absurd (he.trans h.name) (hnot i hi hif hni)
    · obtain ⟨-, hin, hna⟩ := h.others i (hlt i hi hif) hif
      obtain ⟨-, hin', hna'⟩ := h.others j (hlt j hj hjf) hjf
      rw [hin] at hni
      rw [hin'] at hnj
      rw [hna, hna'] at he
      exact hl.unique i (hlt i hi hif) j (hlt j hj hjf) hni hnj he

theorem Inserted.listing {f z n : Nat} (h : Inserted v d name f z n v') (hn : n ≠ 0)
    (habsent : ∀ i < v.entries d, ¬ v.Named d name i) (c : Name) : v'.listing d c =
      if c.take nameLen = name.take nameLen then some n else v.listing d c := by
  have hbound := h.bound
  have hf : f < v'.entries d := by
    rw [h.entries]
    split <;> omega
  split
  next hc =>
    have hfirst : v'.firstEntry d c = some f := by
      refine firstEntry_eq_some.mpr ⟨hf, ⟨h.inode.symm ▸ hn, h.name.trans hc.symm⟩,
        fun j hj hnj => ?_⟩
      obtain ⟨-, hin, hna⟩ := h.others j (by omega) (by omega)
      rw [Named, hin, hna, hc] at hnj
      exact habsent j (by omega) hnj
    rw [Volume.listing, hfirst, Option.map_some, h.inode]
  next hc =>
    refine listing_congr (fun i => ⟨fun hi => (h.named hc hi.1).mp hi.2, fun hi => ?_⟩)
      fun i hi hni => (h.others i hi ?_).2.1
    · have hle : i < v'.entries d := by
        rw [h.entries]
        split <;> omega
      exact ⟨hle, (h.named hc hle).mpr hi⟩
    · rintro rfl
      exact hni.1 (h.free hi)

end

/-- An open with `O_CREAT` in a directory, for which `new_inode` has inode `n`. -/
structure OpenCall where
  dir : Nat
  name : Name
  n : Nat

/-- The names in the directories, and what the calls have returned. -/
structure Listing where
  entry : Nat → Name → Option Nat
  full : Prop
  replies : List (Option Nat)

namespace Listing

/-- Names are told apart by their first 14 characters. -/
def put (f : Listing) (c : OpenCall) (d : Nat) (name : Name) : Option Nat :=
  if d = c.dir ∧ name.take nameLen = c.name.take nameLen then some c.n else f.entry d name

inductive Step : OpenCall → Listing → Listing → Prop
  | found {c : OpenCall} {f : Listing} {m : Nat} (h : f.entry c.dir c.name = some m) :
      Step c f { f with replies := f.replies ++ [some m] }
  | created {c : OpenCall} {f g : Listing} (h : f.entry c.dir c.name = none)
      (hg : g.entry = f.put c) (hr : g.replies = f.replies ++ [some c.n]) : Step c f g
  | noRoom {c : OpenCall} {f g : Listing} (h : f.entry c.dir c.name = none) (hf : g.full)
      (hg : g.entry = f.entry) (hr : g.replies = f.replies ++ [none]) : Step c f g

end Listing

/-- A volume with what the calls have returned. -/
structure Session where
  volume : Volume
  replies : List (Option Nat)

namespace Session

def step (mounted root : Option Nat) (c : OpenCall) (s : Session) : Option Session :=
  (openName mounted root c.dir c.name c.n s.volume).map fun r => ⟨r.2, s.replies ++ [r.1]⟩

def listing (dirs : List Nat) (s : Session) : Listing where
  entry d name := if d ∈ dirs then s.volume.listing d name else none
  full := s.volume.disk.Full
  replies := s.replies

end Session

/-- The zone map agrees with the trees, and the directories are well formed. -/
structure Directories (dirs : List Nat) (v : Volume) : Prop where
  exact : v.disk.Exact
  fits : v.Fits
  listed : ∀ d ∈ dirs, Listed v d

/-- The name is not empty, and it is not `..`, for which `find_entry` may leave the directory. -/
structure OpenCall.Proper (dirs : List Nat) (c : OpenCall) : Prop where
  dir : c.dir ∈ dirs
  name : c.name ≠ []
  chars : ∀ x ∈ c.name, x ≠ 0
  up : ¬ Image.dotDot c.name
  pos : c.n ≠ 0
  lt : c.n < 65536

section

variable {v : Volume} {dirs : List Nat} {c : OpenCall}

/-- The three outcomes of an open. -/
inductive Opened (v : Volume) (dirs : List Nat) (c : OpenCall) : Option Nat → Volume → Prop
  | found {m : Nat} (h : v.listing c.dir c.name = some m) : Opened v dirs c (some m) v
  | created {v' : Volume} (h : v.listing c.dir c.name = none)
      (hl : ∀ d ∈ dirs, ∀ name, v'.listing d name =
        if d = c.dir ∧ name.take nameLen = c.name.take nameLen then some c.n
          else v.listing d name) : Opened v dirs c (some c.n) v'
  | noRoom {v' : Volume} (h : v.listing c.dir c.name = none) (hf : v'.disk.Full)
      (hl : ∀ d ∈ dirs, ∀ name, v'.listing d name = v.listing d name) : Opened v dirs c none v'

theorem openName_opened (h : Directories dirs v) (hc : c.Proper dirs) (mounted root : Option Nat) :
    ∃ r v', openName mounted root c.dir c.name c.n v = some (r, v') ∧ Directories dirs v' ∧
      Opened v dirs c r v' := by
  have hl := h.listed c.dir hc.dir
  have hok : v.Ok := ⟨h.exact.trees, h.fits⟩
  have hstays : v.Stays mounted root c.dir c.name := fun hdot => absurd hdot hc.up
  have hfind : (dirOps mounted).findEntry root c.dir c.name v = _ :=
    findEntry_firstEntry hl.holes hstays hc.chars hc.name
  rw [Image.searchName, if_neg fun hdot => hc.up hdot.1] at hfind
  rw [openName, Program.bind_of_eq hfind]
  cases hfirst : v.firstEntry c.dir c.name with
  | some i =>
    refine ⟨some (v.inodeOf c.dir i), v, rfl, h, .found ?_⟩
    rw [listing, hfirst, Option.map_some]
  | none =>
    have hnone : v.listing c.dir c.name = none := by rw [listing, hfirst, Option.map_none]
    have habsent := firstEntry_eq_none.mp hfirst
    have hlen : min c.name.length nameLen ≠ 0 := by
      have hpos := List.length_pos_iff.mpr hc.name
      have h14 : nameLen = 14 := rfl
      omega
    have hs : v.Scanning c.dir 0 ((v.inodeTable c.dir).iZone 0) 0 0 :=
      ⟨rfl, by decide, rfl, hl.zone, Nat.zero_le _, fun j hj => absurd hj (Nat.not_lt_zero j)⟩
    have hends := @scanFree_ends v c.dir c.name h.exact h.fits hl.size hl.holes mounted _ _ _ _ _ hs
      (Nat.zero_le _) (show v.entries c.dir < 0 + (v.entries c.dir + 2) by omega)
    rw [← addEntry_eq mounted hl.zone hlen] at hends
    obtain ⟨r, v', hrun, hclaims⟩ := hends
    show ∃ r v', ((dirOps mounted).addEntry c.dir c.name >>= _) v = some (r, v') ∧ _
    rw [Program.bind_of_eq hrun]
    cases hclaims with
    | @taken f z v₁ hf he =>
      obtain ⟨hok₁, -, -, -⟩ := hf.same hok hl.holes
      obtain ⟨hok₂, -⟩ :=
        entered_ok c.dir c.name hok₁ hf.small hf.zone (f % dirEntriesPerBlock) f c.n
      have hin := hf.inserted hok hl.holes hl.size hc.chars hc.lt
      have hother : ∀ d ∈ dirs, d ≠ c.dir → Untouched v
          (v₁.entered c.dir c.name z (f % dirEntriesPerBlock) f c.n) d := fun d hd hne =>
        hf.untouched hok hl.holes (h.listed d hd) hne
      refine ⟨some c.n, _, rfl, ⟨entered_exact _ _ he hf.small hf.zone _ _ _, hok₂.fits,
        fun d hd => ?_⟩, .created hnone fun d hd name => ?_⟩
      · by_cases hd' : d = c.dir
        · exact hd' ▸ hin.listed hl habsent
        · exact (hother d hd hd').listed (h.listed d hd)
      · by_cases hd' : d = c.dir
        · subst hd'
          simp only [true_and]
          exact hin.listing hc.pos habsent name
        · rw [if_neg fun hcond => hd' hcond.1]
          exact (hother d hd hd').listing name
    | noRoom hk hcreated he hfull =>
      have hother : ∀ d ∈ dirs, Untouched v v' d := fun d hd =>
        hcreated.untouched (h.listed d hd) fun heq => ⟨Nat.succ_pos _, heq ▸ hk.le⟩
      have hlisted : ∀ d ∈ dirs, Listed v' d := fun d hd => (hother d hd).listed (h.listed d hd)
      exact ⟨none, v', rfl, ⟨he, hcreated.ok.fits, hlisted⟩,
        .noRoom hnone hfull fun d hd => (hother d hd).listing⟩

/-- Whatever names are opened in whatever directories, the directories are finite maps: an open
returns what its name leads to, or enters its inode, or finds the volume full. -/
theorem opens_refine {s : Session} (h : Directories dirs s.volume) {calls : List OpenCall}
    (hc : ∀ c ∈ calls, c.Proper dirs) (mounted root : Option Nat) :
    ∃ t, Run.exec (Session.step mounted root) calls s = some t ∧ Directories dirs t.volume ∧
      Run.Traces Listing.Step calls (s.listing dirs) (t.listing dirs) := by
  refine Run.exec_traces (J := fun s : Session => Directories dirs s.volume)
    (fun c s hs hc => ?_) h hc
  obtain ⟨r, v', hrun, hdirs, ho⟩ := openName_opened hs hc mounted root
  refine ⟨⟨v', s.replies ++ [r]⟩, congrArg (Option.map _) hrun, hdirs, ?_⟩
  have hentry : (s.listing dirs).entry c.dir c.name = s.volume.listing c.dir c.name :=
    if_pos hc.dir
  cases ho with
  | found h => exact .found (hentry.trans h)
  | created h hl =>
    refine .created (hentry.trans h) (funext₂ fun d name => ?_) rfl
    show (if d ∈ dirs then _ else none) = if _ then some c.n else if d ∈ dirs then _ else none
    by_cases hd : d ∈ dirs
    · rw [if_pos hd, if_pos hd]
      exact hl d hd name
    · rw [if_neg hd, if_neg hd, if_neg]
      rintro ⟨rfl, -⟩
      exact hd hc.dir
  | noRoom h hf hl =>
    refine .noRoom (hentry.trans h) hf (funext₂ fun d name => ?_) rfl
    show (if d ∈ dirs then _ else none) = if d ∈ dirs then _ else none
    by_cases hd : d ∈ dirs
    · rw [if_pos hd, if_pos hd]
      exact hl d hd name
    · rw [if_neg hd, if_neg hd]

end

/-- A root directory with a block, but without entries, and two free zones. -/
def freshRoot : Volume := { bareRoot with order := [0, 1, 2, 3] }

theorem freshRoot_directories : Directories [0] freshRoot := by
  have href : ∀ n p, freshRoot.disk.ref n p = bareRoot.disk.ref n p :=
    Disk.ref_congr (d := bareRoot.disk) rfl rfl
  have hexact : freshRoot.disk.Exact := by
    refine ⟨bareRoot_ok.trees.congr rfl rfl fun n p _ => href n p, fun n p _ hne => ?_,
      fun w hlt hw => ?_, fun w hle hlt => ?_, by decide⟩
    · rw [href] at hne ⊢
      rw [(bareRoot_ref hne).2.2]
      decide
    · have hle : 5 ≤ w := hw.1
      have hbit : w + 1 - 5 ≤ 1 := of_decide_eq_true hw.2
      have hw : w = 5 := by omega
      exact ⟨0, .zone 0, (by decide : 0 < 9), hw.symm⟩
    · change 5 ≤ w at hle
      change w < 8 at hlt
      obtain rfl | rfl | rfl : w = 5 ∨ w = 6 ∨ w = 7 := by omega
      all_goals decide
  have hempty : freshRoot.entries 0 = 0 := rfl
  refine ⟨hexact, (by decide : 8 ≤ 65536), fun d hd => ?_⟩
  rw [List.mem_singleton.mp hd]
  refine ⟨noHoles_of_zone fun i hi => ?_, rfl, by decide, fun i hi => ?_⟩ <;>
    exact absurd (hempty ▸ hi) (Nat.not_lt_zero i)

theorem opens_refine_fresh :
    let calls := [⟨0, [97], 7⟩, ⟨0, [98], 8⟩, ⟨0, [97], 9⟩]
    ∃ t, Run.exec (Session.step none (some 0)) calls ⟨freshRoot, []⟩ = some t ∧
      Directories [0] t.volume ∧
        Run.Traces Listing.Step calls (Session.listing [0] ⟨freshRoot, []⟩) (t.listing [0]) := by
  refine opens_refine (s := ⟨freshRoot, []⟩) freshRoot_directories (fun c hc => ?_) none (some 0)
  simp only [List.mem_cons, List.not_mem_nil, or_false] at hc
  rcases hc with rfl | rfl | rfl <;>
    exact ⟨by decide, by decide, by decide, by decide, by decide, by decide⟩

end Gpos.Volume
