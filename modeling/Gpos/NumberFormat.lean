import Gpos.Vsprintf
import Mathlib.Data.List.GetD
import Mathlib.Data.Nat.Digits.Lemmas

/-! What `number` writes: fill, sign, mark of the base, zeros and digits. The counter of the fill
is used by three loops in a row, each of which leaves it one lower. -/

namespace Gpos.Vsprintf

theorem pad_eq (bound : BitVec 32) (c : BitVec 8) (size : BitVec 32) (str : List (BitVec 8)) :
    pad bound c size str = (str ++ List.replicate (size.toInt - bound.toInt).toNat c,
      if bound.slt size then bound - 1 else size - 1) := by
  fun_induction pad with
  | case1 size str h ih =>
    have hlt := BitVec.slt_iff_toInt_lt.mp h
    rw [ih, toInt_pred h, if_pos h]
    refine Prod.ext ?_ ?_
    · have hn : (size.toInt - bound.toInt).toNat = (size.toInt - 1 - bound.toInt).toNat + 1 := by omega
      rw [hn, List.replicate_succ, List.append_assoc, List.singleton_append]
    · dsimp only
      split
      · rfl
      next hnot =>
        have he : (size - 1).toInt = bound.toInt := by
          have := mt BitVec.slt_iff_toInt_lt.mpr hnot
          rw [toInt_pred h] at this ⊢
          omega
        rw [BitVec.eq_of_toInt_eq he]
  | case2 size str h =>
    have hge := mt BitVec.slt_iff_toInt_lt.mpr h
    rw [if_neg h, Int.toNat_of_nonpos (by omega), List.replicate_zero, List.append_nil]

theorem putTmp_eq (tmp : List (BitVec 8)) {i : Nat} (h : i ≤ tmp.length) (str : List (BitVec 8)) :
    putTmp tmp i str = str ++ (tmp.take i).reverse := by
  induction i generalizing str with
  | zero => simp [putTmp]
  | succ i ih =>
    have hi : i < tmp.length := h
    rw [putTmp, ih hi.le, List.take_succ_eq_append_getElem hi, List.reverse_append,
      List.getD_eq_getElem _ _ hi]
    simp

theorem divLoop_eq (digits : List (BitVec 8)) {base : BitVec 32} (hbase : 2 ≤ base.toNat)
    {room : Nat} {num : BitVec 32} (hnum : num.toNat < 2 ^ room) (tmp : List (BitVec 8)) :
    divLoop digits base room num tmp =
      some (tmp ++ (Nat.digits base.toNat num.toNat).map fun d => digits.getD d 0) := by
  induction room generalizing num tmp with
  | zero =>
    have hz : num = 0 := BitVec.eq_of_toNat_eq (by simpa using hnum)
    simp [divLoop, hz]
  | succ room ih =>
    rw [divLoop]
    split
    next hz => simp [hz]
    next hz =>
      have hpos : 0 < num.toNat := by
        refine Nat.pos_of_ne_zero fun h => hz (BitVec.eq_of_toNat_eq ?_)
        rw [h]
        rfl
      have hdiv : (num / base).toNat < 2 ^ room := by
        rw [BitVec.toNat_udiv]
        rw [pow_succ] at hnum
        exact Nat.div_lt_of_lt_mul (lt_of_lt_of_le hnum (by nlinarith [Nat.two_pow_pos room]))
      rw [ih hdiv, BitVec.toNat_udiv, BitVec.toNat_umod, Nat.digits_def' hbase hpos, List.map_cons,
        List.append_assoc, List.singleton_append]

theorem has_and_not {type flag other : BitVec 32} (h : ~~~other &&& flag = flag) :
    has (type &&& ~~~other) flag = has type flag := by
  rw [has, has, BitVec.and_assoc, h]

theorem has_cleared (type : BitVec 32) {flag : BitVec 32} (h : ~~~zeropad &&& flag = flag) :
    has (if has type left then type &&& ~~~zeropad else type) flag = has type flag := by
  split
  · exact has_and_not h
  · rfl

theorem has_or (type a b : BitVec 32) : has type (a ||| b) = (has type a || has type b) := by
  have hdist : type &&& (a ||| b) = type &&& a ||| type &&& b := BitVec.and_or_distrib_left
  rw [has, has, has, hdist, Bool.eq_iff_iff]
  simp only [bne_iff_ne, ne_eq, Bool.or_eq_true]
  rw [← not_and_or, not_iff_not]
  exact BitVec.or_eq_zero_iff

theorem toNat_neg_of_slt {num : BitVec 32} (h : num.slt 0) : (-num).toNat = num.toInt.natAbs := by
  have hneg : num.toInt < 0 := BitVec.slt_iff_toInt_lt.mp h
  have hlt := num.isLt
  rw [BitVec.toInt_eq_toNat_cond] at hneg ⊢
  rw [BitVec.toNat_neg]
  split at hneg <;> split <;> omega

theorem toNat_of_not_slt {num : BitVec 32} (h : num.slt 0 = false) :
    num.toNat = num.toInt.natAbs := by
  have hneg : ¬ num.toInt < 0 := fun hlt => by
    rw [BitVec.slt_iff_toInt_lt.mpr hlt] at h
    exact Bool.noConfusion h
  have hlt := num.isLt
  rw [BitVec.toInt_eq_toNat_cond] at hneg ⊢
  split at hneg <;> split <;> omega

/-! The parts of the text. -/

section

variable (num base type : BitVec 32)

def shownSign : List (BitVec 8) :=
  if has type signed && num.slt 0 then [chr '-'] else if has type plus then [chr '+']
  else if has type space then [chr ' '] else []

def baseMark : List (BitVec 8) :=
  if has type special then
    if base = 8 then text "0" else
    if base = 16 then if has type small then text "0x" else text "0X" else []
  else []

def magnitude : Nat := if has type signed then num.toInt.natAbs else num.toNat

def digitTable : List (BitVec 8) := if has type small then lowerDigits else upperDigits

def digitCount (v : Nat) : Nat := max 1 (Nat.digits base.toNat v).length

/-- The characters of the digits, the last one first. -/
def lastFirst (v : Nat) : List (BitVec 8) :=
  (if v = 0 then [0] else Nat.digits base.toNat v).map fun d => (digitTable type).getD d 0

end

/-- What a loop leaves of a counter of which nothing is left. -/
def after (size : BitVec 32) : BitVec 32 := if BitVec.slt 0 size then -1 else size - 1

theorem pad_zero_eq (c : BitVec 8) (size : BitVec 32) (str : List (BitVec 8)) :
    pad 0 c size str = (str ++ List.replicate size.toInt.toNat c, after size) := by
  have hzero : (0 : BitVec 32).toInt = 0 := rfl
  rw [pad_eq, hzero, sub_zero]
  rfl

theorem toInt_ofNat_small {d : Nat} (hd : d ≤ 32) : (BitVec.ofNat 32 d).toInt = d := by
  rw [BitVec.toInt_eq_toNat_cond, BitVec.toNat_ofNat, Nat.mod_eq_of_lt (by omega),
    if_pos (by omega)]

theorem pad_precision {d : Nat} (hd : d ≤ 32) (c : BitVec 8) (precision : BitVec 32)
    (str : List (BitVec 8)) :
    (pad (BitVec.ofNat 32 d) c (if precision.slt (BitVec.ofNat 32 d) then BitVec.ofNat 32 d
      else precision) str).1 = str ++ List.replicate (precision.toInt - d).toNat c := by
  have hi := toInt_ofNat_small hd
  rw [pad_eq, hi]
  split
  next h =>
    have hlt := BitVec.slt_iff_toInt_lt.mp h
    rw [hi] at hlt ⊢
    rw [sub_self, Int.toNat_of_nonpos (by omega : precision.toInt - d ≤ 0), Int.toNat_zero]
  next => rfl

/-- The counter of the fill. -/
def room (num base size precision type : BitVec 32) : BitVec 32 :=
  let d := BitVec.ofNat 32 (digitCount base (magnitude num type))
  size - BitVec.ofNat 32 (shownSign num type).length - BitVec.ofNat 32 (baseMark base type).length
    - if precision.slt d then d else precision

def blanks (size : BitVec 32) : List (BitVec 8) := List.replicate size.toInt.toNat (chr ' ')

def zeros (num base precision type : BitVec 32) : List (BitVec 8) :=
  List.replicate (precision.toInt - digitCount base (magnitude num type)).toNat (chr '0')

def digitsText (num base type : BitVec 32) : List (BitVec 8) :=
  (lastFirst base type (magnitude num type)).reverse

theorem magnitude_lt (num type : BitVec 32) : magnitude num type < 2 ^ 32 := by
  have hlt := num.isLt
  have hhi := BitVec.toInt_lt (x := num)
  have hlo := BitVec.le_toInt num
  unfold magnitude
  split <;> omega

theorem toNat_eq_magnitude (num type : BitVec 32) :
    (if has type signed && num.slt 0 then -num else num).toNat = magnitude num type := by
  unfold magnitude
  cases hs : has type signed with
  | false => simp
  | true =>
    cases hn : num.slt 0 with
    | false => simpa using toNat_of_not_slt hn
    | true => simpa using toNat_neg_of_slt hn

theorem length_lastFirst (base type : BitVec 32) (v : Nat) :
    (lastFirst base type v).length = digitCount base v := by
  rw [lastFirst, List.length_map, digitCount]
  split
  next h => rw [h, Nat.digits_zero, List.length_singleton, List.length_nil, Nat.max_zero]
  next h =>
    have hne : Nat.digits base.toNat v ≠ [] := fun hnil => h (Nat.digits_eq_nil_iff_eq_zero.mp hnil)
    exact (Nat.max_eq_right (List.length_pos_iff.mpr hne)).symm

theorem digitCount_le {base : BitVec 32} (hbase : 2 ≤ base.toNat) (num type : BitVec 32) :
    digitCount base (magnitude num type) ≤ 32 := by
  rw [digitCount, Nat.max_le, Nat.digits_length_le_iff hbase]
  exact ⟨by decide, (magnitude_lt num type).trans_le (Nat.pow_le_pow_left hbase 32)⟩

theorem tmp_eq {base : BitVec 32} (hbase : 2 ≤ base.toNat) (num type : BitVec 32) :
    (if num = 0 then some [chr '0'] else divLoop (digitTable type) base 36 num []) =
      some (lastFirst base type num.toNat) := by
  have hzero : (digitTable type).getD 0 0 = chr '0' := by
    unfold digitTable
    split <;> decide
  unfold lastFirst
  split
  next h =>
    rw [h, if_pos (by rfl), List.map_singleton, hzero]
  next h =>
    have hne : num.toNat ≠ 0 := fun hz => h (BitVec.eq_of_toNat_eq hz)
    rw [divLoop_eq _ hbase (num.isLt.trans (by decide)), if_neg hne, List.nil_append]

theorem shownSign_eq (num type : BitVec 32) :
    let sign := if has type signed && num.slt 0 then chr '-' else
      if has type plus then chr '+' else if has type space then chr ' ' else 0
    shownSign num type = if sign ≠ 0 then [sign] else [] := by
  unfold shownSign
  split
  · exact (if_pos (by decide)).symm
  split
  · exact (if_pos (by decide)).symm
  split
  · exact (if_pos (by decide)).symm
  · exact (if_neg (by decide)).symm

theorem sign_eq (num type : BitVec 32) (str : List (BitVec 8)) :
    let sign := if has type signed && num.slt 0 then chr '-' else
      if has type plus then chr '+' else if has type space then chr ' ' else 0
    (if sign ≠ 0 then str ++ [sign] else str) = str ++ shownSign num type := by
  intro sign
  rw [shownSign_eq]
  split
  · rfl
  · exact (List.append_nil str).symm

theorem size_sign (num type size : BitVec 32) :
    let sign := if has type signed && num.slt 0 then chr '-' else
      if has type plus then chr '+' else if has type space then chr ' ' else 0
    (if sign ≠ 0 then size - 1 else size) = size - BitVec.ofNat 32 (shownSign num type).length := by
  intro sign
  rw [shownSign_eq]
  split
  · rfl
  · exact (BitVec.sub_zero size).symm

theorem size_mark (base type size : BitVec 32) :
    (if has type special then if base = 16 then size - 2 else if base = 8 then size - 1 else size
      else size) = size - BitVec.ofNat 32 (baseMark base type).length := by
  unfold baseMark
  split
  · by_cases h8 : base = 8
    · simp [h8, text]
    · by_cases h16 : base = 16
      · have hlen : (if has type small then text "0x" else text "0X").length = 2 := by
          split <;> rfl
        rw [if_pos h16, if_neg h8, if_pos h16, hlen]
        rfl
      · rw [if_neg h16, if_neg h8, if_neg h8, if_neg h16]
        exact (BitVec.sub_zero size).symm
  · simp

theorem mark_eq (base type : BitVec 32) (str : List (BitVec 8)) :
    (if has type special then if base = 8 then str ++ [chr '0'] else
      if base = 16 then str ++ [chr '0', (digitTable type).getD 33 0] else str
      else str) = str ++ baseMark base type := by
  unfold baseMark digitTable
  split
  · split
    · rfl
    split
    · split <;> rfl
    · simp
  · simp

/-- The text with what is written when the counter wraps around. -/
def numberText (num base size precision type : BitVec 32) : List (BitVec 8) :=
  let z := room num base size precision type
  let shown := shownSign num type ++ baseMark base type
  let body := zeros num base precision type ++ digitsText num base type
  if has type left then shown ++ body ++ blanks z
  else if has type zeropad then
    shown ++ List.replicate z.toInt.toNat (chr '0') ++ body ++ blanks (after z)
  else blanks z ++ shown ++ blanks (after z) ++ body ++ blanks (after (after z))

theorem number_eq (str : List (BitVec 8)) (num size precision type : BitVec 32) {base : BitVec 32}
    (hlo : base.slt 2 = false) (hhi : (36#32).slt base = false) :
    number str num base size precision type =
      some (str ++ numberText num base size precision type) := by
  have hbase : 2 ≤ base.toNat := by
    have hge := mt BitVec.slt_iff_toInt_lt.mpr (Bool.not_eq_true _ ▸ hlo)
    have hle := mt BitVec.slt_iff_toInt_lt.mpr (Bool.not_eq_true _ ▸ hhi)
    have htwo : (2 : BitVec 32).toInt = 2 := rfl
    have hlt := base.isLt
    rw [htwo, BitVec.toInt_eq_toNat_cond] at hge
    split at hge <;> omega
  unfold number numberText
  extract_lets digits type' c negative sign num' size1 size2 rest start z shown body
  simp only [hlo, hhi, Bool.or_self, Bool.false_eq_true, if_false]
  have hsigned : has type' signed = has type signed := has_cleared type (by decide)
  have hplus : has type' plus = has type plus := has_cleared type (by decide)
  have hspace : has type' space = has type space := has_cleared type (by decide)
  have hspecial : has type' special = has type special := has_cleared type (by decide)
  have hneg : negative = (has type signed && num.slt 0) := congrArg (· && num.slt 0) hsigned
  have hsign : sign = if has type signed && num.slt 0 then chr '-' else
      if has type plus then chr '+' else if has type space then chr ' ' else 0 := by
    rw [← hneg, ← hplus, ← hspace]
  have hsize : size2 = size - BitVec.ofNat 32 (shownSign num type).length -
      BitVec.ofNat 32 (baseMark base type).length := by
    rw [← size_sign, ← size_mark, ← hsign, ← hspecial]
  have hnum : num'.toNat = magnitude num type := by
    rw [← toNat_eq_magnitude, ← hneg]
  have hput : ∀ s : List (BitVec 8), (if sign ≠ 0 then s ++ [sign] else s) =
      s ++ shownSign num type := fun s => by
    rw [← sign_eq, ← hsign]
  have hmark : ∀ s : List (BitVec 8), (if has type' special then
      if base = 8 then s ++ [chr '0'] else
        if base = 16 then s ++ [chr '0', digits.getD 33 0] else s
      else s) = s ++ baseMark base type := fun s => by
    rw [← mark_eq, ← hspecial, digitTable]
  have hstart : start () = rest (lastFirst base type (magnitude num type)) := by
    have htmp := tmp_eq hbase num' type
    rw [hnum] at htmp
    change (if num' = 0 then (some [chr '0']).bind rest
      else (divLoop digits base 36 num' []).bind rest) = _
    have hdigits : digits = digitTable type := rfl
    rw [← apply_ite (fun x => Option.bind x rest), hdigits, htmp]
    rfl
  have hlen := digitCount_le hbase num type
  rw [hstart]
  simp only [rest, hput, hmark, hsize]
  have hz : size - BitVec.ofNat 32 (shownSign num type).length -
      BitVec.ofNat 32 (baseMark base type).length -
      (if precision.slt (BitVec.ofNat 32 (digitCount base (magnitude num type))) then
        BitVec.ofNat 32 (digitCount base (magnitude num type)) else precision) = z := rfl
  have hdone : ∀ s : List (BitVec 8), putTmp (lastFirst base type (magnitude num type))
      (digitCount base (magnitude num type)) s = s ++ digitsText num base type := fun s => by
    rw [← length_lastFirst base type, putTmp_eq _ le_rfl, List.take_length, digitsText]
  have hor : has type' (zeropad + left) = (has type' zeropad || has type left) := by
    have hleft : has type' left = has type left := has_cleared type (by decide)
    rw [← hleft]
    exact has_or type' zeropad left
  simp only [hdone, length_lastFirst, hz, pad_precision hlen, pad_zero_eq, hor]
  cases hl : has type left with
  | true =>
    have hleft : has type' left := (has_cleared type (by decide)).trans hl
    simp [hleft, shown, body, zeros, blanks]
  | false =>
    have htype : type' = type := if_neg (by rw [hl]; decide)
    cases hp : has type zeropad with
    | true => simp [c, htype, hl, hp, shown, body, zeros, blanks, -List.replicate_append_replicate]
    | false => simp [c, htype, hl, hp, shown, body, zeros, blanks]

/-! The counter while it does not wrap around. -/

theorem toInt_sub_nat {x : BitVec 32} {n : Nat} (hn : n ≤ 32) (h : -2 ^ 31 ≤ x.toInt - n) :
    (x - BitVec.ofNat 32 n).toInt = x.toInt - n := by
  have hx := BitVec.toInt_lt (x := x)
  rw [BitVec.toInt_sub, toInt_ofNat_small hn, Int.bmod_eq_of_le (by omega) (by omega)]

theorem length_shownSign (num type : BitVec 32) : (shownSign num type).length ≤ 1 := by
  unfold shownSign
  split
  · rfl
  split
  · rfl
  split <;> decide

theorem length_baseMark (base type : BitVec 32) : (baseMark base type).length ≤ 2 := by
  unfold baseMark
  split
  · split
    · decide
    split
    · split <;> decide
    · decide
  · decide

/-- What the sign, the mark of the base and the digits take. -/
def width (num base precision type : BitVec 32) : Int :=
  (shownSign num type).length + (baseMark base type).length +
    max (digitCount base (magnitude num type) : Int) precision.toInt

theorem room_toInt {num base size precision type : BitVec 32} (hbase : 2 ≤ base.toNat)
    (h : -2 ^ 31 ≤ size.toInt - width num base precision type) :
    (room num base size precision type).toInt = size.toInt - width num base precision type := by
  have hs := length_shownSign num type
  have hp := length_baseMark base type
  have hd := digitCount_le hbase num type
  have hsize := BitVec.toInt_lt (x := size)
  rw [width] at h ⊢
  have h₁ : (size - BitVec.ofNat 32 (shownSign num type).length).toInt =
      size.toInt - (shownSign num type).length := toInt_sub_nat (by omega) (by omega)
  have h₂ : (size - BitVec.ofNat 32 (shownSign num type).length -
      BitVec.ofNat 32 (baseMark base type).length).toInt =
      size.toInt - (shownSign num type).length - (baseMark base type).length := by
    rw [toInt_sub_nat (by omega) (by rw [h₁]; omega), h₁]
  have hmax : (if precision.slt (BitVec.ofNat 32 (digitCount base (magnitude num type))) then
      BitVec.ofNat 32 (digitCount base (magnitude num type)) else precision).toInt =
      max (digitCount base (magnitude num type) : Int) precision.toInt := by
    rw [apply_ite BitVec.toInt, toInt_ofNat_small hd]
    split
    next hlt =>
      have := BitVec.slt_iff_toInt_lt.mp hlt
      rw [toInt_ofNat_small hd] at this
      exact (max_eq_left this.le).symm
    next hge =>
      have := mt BitVec.slt_iff_toInt_lt.mpr hge
      rw [toInt_ofNat_small hd, not_lt] at this
      exact (max_eq_right this).symm
  rw [room, BitVec.toInt_sub, h₂, hmax, Int.bmod_eq_of_le (by omega) (by omega)]
  omega

theorem after_toInt {z : BitVec 32} (h : -2 ^ 31 < z.toInt) :
    (after z).toInt = min (z.toInt - 1) (-1) := by
  have hz := BitVec.toInt_lt (x := z)
  have hone : (1 : BitVec 32).toInt = 1 := rfl
  unfold after
  by_cases hpos : 0 < z.toInt
  · rw [if_pos (zero_slt.mpr hpos), min_eq_right (by omega)]
    rfl
  · rw [if_neg (mt zero_slt.mp hpos), BitVec.toInt_sub, hone, Int.bmod_eq_of_le (by omega) (by omega),
      min_eq_left (by omega)]

theorem blanks_of_nonpos {z : BitVec 32} (h : z.toInt ≤ 0) : blanks z = [] := by
  rw [blanks, Int.toNat_of_nonpos h, List.replicate_zero]

/-! The digits read back. -/

def digitValue (c : BitVec 8) : Nat :=
  if isDigit c then c.toNat - (chr '0').toNat
  else if (chr 'a').sle c then c.toNat - (chr 'a').toNat + 10 else c.toNat - (chr 'A').toNat + 10

def readBack (base : Nat) (cs : List (BitVec 8)) : Nat :=
  cs.foldl (fun v c => base * v + digitValue c) 0

theorem digitValue_table (type : BitVec 32) {d : Nat} (hd : d < 36) :
    digitValue ((digitTable type).getD d 0) = d := by
  have hlower : ∀ d < 36, digitValue (lowerDigits.getD d 0) = d := by decide
  have hupper : ∀ d < 36, digitValue (upperDigits.getD d 0) = d := by decide
  unfold digitTable
  split
  · exact hlower d hd
  · exact hupper d hd

theorem readBack_reverse (base : Nat) (type : BitVec 32) {l : List Nat} (h : ∀ d ∈ l, d < 36) :
    readBack base (l.map fun d => (digitTable type).getD d 0).reverse = Nat.ofDigits base l := by
  induction l with
  | nil => rfl
  | cons d l ih =>
    have hl := ih fun e he => h e (List.mem_cons_of_mem d he)
    rw [readBack] at hl
    rw [List.map_cons, List.reverse_cons, readBack, List.foldl_append, hl, List.foldl_cons,
      List.foldl_nil, digitValue_table type (h d List.mem_cons_self), Nat.ofDigits_cons, add_comm]

/-- The digits of a value in a base. -/
structure Shows (base type : BitVec 32) (v : Nat) (ds : List (BitVec 8)) : Prop where
  chars : ∀ c ∈ ds, c ∈ (digitTable type).take base.toNat
  length : ds.length = digitCount base v
  value : readBack base.toNat ds = v

theorem shows_digitsText {base : BitVec 32} (hlo : 2 ≤ base.toNat) (hhi : base.toNat ≤ 36)
    (num type : BitVec 32) :
    Shows base type (magnitude num type) (digitsText num base type) := by
  have hlt : ∀ d ∈ if magnitude num type = 0 then [0] else
      Nat.digits base.toNat (magnitude num type), d < base.toNat := by
    intro d hd
    split at hd
    · rw [List.mem_singleton.mp hd]
      omega
    · exact Nat.digits_lt_base hlo hd
  refine ⟨fun c hc => ?_, ?_, ?_⟩
  · obtain ⟨d, hd, rfl⟩ := List.mem_map.mp (List.mem_reverse.mp hc)
    have htable : (digitTable type).length = 36 := by
      unfold digitTable
      split <;> rfl
    have hb := hlt d hd
    rw [List.getD_eq_getElem _ _ (by omega), List.mem_take_iff_getElem]
    exact ⟨d, by omega, rfl⟩
  · rw [digitsText, List.length_reverse, length_lastFirst]
  · rw [digitsText, lastFirst, readBack_reverse _ _ fun d hd => (hlt d hd).trans_le hhi]
    split
    next h => rw [h]; rfl
    next h => exact Nat.ofDigits_digits _ _

/-- `shown` is the sign with the mark of the base, and `body` are the digits with zeros in
front. -/
def field (type : BitVec 32) (fill : Nat) (shown body : List (BitVec 8)) : List (BitVec 8) :=
  if has type left then shown ++ body ++ List.replicate fill (chr ' ')
  else if has type zeropad then shown ++ List.replicate fill (chr '0') ++ body
  else List.replicate fill (chr ' ') ++ shown ++ body

theorem length_field (type : BitVec 32) (fill : Nat) (shown body : List (BitVec 8)) :
    (field type fill shown body).length = fill + shown.length + body.length := by
  unfold field
  split
  · simp
    omega
  split
  · simp
    omega
  · simp
    omega

def Formats (num base size precision type : BitVec 32) : Prop :=
  ∀ str, ∃ (ds : List (BitVec 8)) (zeros fill : Nat),
    Shows base type (magnitude num type) ds ∧
    (zeros + ds.length : Int) = max (ds.length : Int) precision.toInt ∧
    let out := field type fill (shownSign num type ++ baseMark base type)
      (List.replicate zeros (chr '0') ++ ds)
    number str num base size precision type = some (str ++ out) ∧
    (out.length : Int) = max size.toInt (width num base precision type)

/-- The loops that count `size` down before the last one. -/
def loopsBefore (type : BitVec 32) : Int :=
  if has type left then 0 else if has type zeropad then 1 else 2

theorem numberText_eq {num base size precision type : BitVec 32}
    (hroom : -2 ^ 31 + loopsBefore type ≤ (room num base size precision type).toInt) :
    numberText num base size precision type =
      field type (room num base size precision type).toInt.toNat
        (shownSign num type ++ baseMark base type)
        (zeros num base precision type ++ digitsText num base type) := by
  have ha := after_toInt (z := room num base size precision type)
  have hb := after_toInt (z := after (room num base size precision type))
  unfold loopsBefore at hroom
  unfold numberText field
  extract_lets z shown body
  split at hroom
  next hl => rw [if_pos hl, if_pos hl, blanks]
  next hl =>
    rw [if_neg hl, if_neg hl]
    have hz : (after z).toInt ≤ 0 := by
      rw [ha (by split at hroom <;> omega)]
      omega
    split at hroom
    next hp => rw [if_pos hp, if_pos hp, blanks_of_nonpos hz, List.append_nil]
    next hp =>
      have hz' : (after (after z)).toInt ≤ 0 := by
        rw [hb (by rw [ha (by omega)]; omega)]
        omega
      rw [if_neg hp, if_neg hp, blanks_of_nonpos hz, blanks_of_nonpos hz', List.append_nil,
        List.append_nil, blanks]

theorem loopsBefore_nonneg (type : BitVec 32) : 0 ≤ loopsBefore type := by
  unfold loopsBefore
  split
  · decide
  · split <;> decide

theorem number_formats (num type : BitVec 32) {base size precision : BitVec 32}
    (hbase : base = 8 ∨ base = 10 ∨ base = 16)
    (hroom : -2 ^ 31 + loopsBefore type ≤ size.toInt - width num base precision type) :
    Formats num base size precision type := by
  obtain ⟨hlo, hhi, hslt, hslt'⟩ : 2 ≤ base.toNat ∧ base.toNat ≤ 36 ∧ base.slt 2 = false ∧
      (36#32).slt base = false := by
    rcases hbase with rfl | rfl | rfl <;> decide
  have hshows := shows_digitsText hlo hhi num type
  have hloops := loopsBefore_nonneg type
  have hz := room_toInt hlo (by omega : -2 ^ 31 ≤ size.toInt - width num base precision type)
  intro str
  refine ⟨digitsText num base type,
    (precision.toInt - digitCount base (magnitude num type)).toNat,
    (room num base size precision type).toInt.toNat, hshows, ?_, ?_, ?_⟩
  · rw [hshows.length]
    omega
  · rw [number_eq str num size precision type hslt hslt', numberText_eq (hz ▸ hroom), zeros]
  · rw [length_field, List.length_append, List.length_append, List.length_replicate,
      hshows.length, hz, width]
    omega

theorem number_formats_min : Formats 0x80000000 10 12 0 (signed ||| zeropad) :=
  number_formats _ _ (by decide) (by decide)

/-- The counter, with sign and mark taken off, is one below the least `int`. -/
theorem number_wraps :
    |(-(2 ^ 30 - 1) : BitVec 32).toInt| < 2 ^ 30 ∧ |(2 ^ 30 - 1 : BitVec 32).toInt| < 2 ^ 30 ∧
      ¬ Formats 0 16 (-(2 ^ 30 - 1)) (2 ^ 30 - 1) (plus ||| special) := by
  refine ⟨by decide, by decide, fun h => ?_⟩
  obtain ⟨ds, zeros, fill, -, -, hnumber, hlength⟩ := h []
  rw [number_eq _ _ _ _ _ (by decide) (by decide), Option.some_inj, List.nil_append,
    List.nil_append] at hnumber
  rw [← hnumber] at hlength
  have hroom : (room 0 16 (-(2 ^ 30 - 1)) (2 ^ 30 - 1) (plus ||| special)).toInt = 2 ^ 31 - 1 := by
    decide
  have hwidth : width 0 16 (2 ^ 30 - 1) (plus ||| special) = 2 ^ 30 + 2 := by
    decide
  have hsize : (-(2 ^ 30 - 1) : BitVec 32).toInt = -(2 ^ 30 - 1) := by decide
  rw [hwidth, hsize, numberText, if_neg (by decide), if_neg (by decide)] at hlength
  simp only [List.length_append, blanks, List.length_replicate, hroom] at hlength
  omega

end Gpos.Vsprintf
