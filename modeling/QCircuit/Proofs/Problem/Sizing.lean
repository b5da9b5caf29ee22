import Mathlib.Order.Bounds.Basic
import QCircuit.Problem.Sizing
import QCircuit.Proofs.Words.Checked

/-!
# The width for an item count

A count of items has a width exactly if it is positive (`Sizing.forItems_cases`), and a number of qubits is
enough for that width exactly if it is two at least and numbers the items (`Sizing.forItems_le_iff`). All
that is said of widths follows from this one equivalence: a width is the least of its kind, one qubit less
does not do, and more items never take fewer qubits.

On words the bits of the greatest item number are sixty-four less the zeros in front of it. The zeros of
the number zero are sixty-four as well, so a single item has no bits and gets the least width
(`Sizing.wordForItems?_eq`).
-/

set_option autoImplicit false

namespace QCircuit

namespace Word

/-- The long word of a signed one that is not negative. -/
def ofSigned? (n : Int64) : Option UInt64 := if 0 ≤ n then some n.toUInt64 else none

/-- How many zeros stand in front of a long word. -/
def leadingZeros (n : UInt64) : UInt32 := UInt32.ofNat n.toBitVec.clz.toNat

theorem toNat_leadingZeros (n : UInt64) : (leadingZeros n).toNat = n.toBitVec.clz.toNat := by
  have hle : n.toBitVec.clz.toNat ≤ 64 := BitVec.clz_le (x := n.toBitVec)
  exact UInt32.toNat_ofNat_of_lt' (Nat.lt_of_le_of_lt hle (by decide))

theorem leadingZeros_le (n : UInt64) : (leadingZeros n).toNat ≤ 64 := by
  rw [toNat_leadingZeros]
  exact BitVec.clz_le (x := n.toBitVec)

end Word

namespace Sizing

/-! ## Bits -/

/-- The bits of a number are the least with a power of two above it. -/
theorem bitLength_le_iff {n k : Nat} : bitLength n ≤ k ↔ n < 2 ^ k := by
  unfold bitLength
  split
  · next hzero =>
      rw [hzero]
      exact iff_of_true (Nat.zero_le k) (Nat.two_pow_pos k)
  · next hne => rw [Nat.add_one_le_iff, Nat.log2_lt hne]

/-- The zeros in front of a long word leave room for its bits, and for no more. -/
theorem leadingZeros_add_bitLength (n : UInt64) :
    (Word.leadingZeros n).toNat + bitLength n.toNat = 64 := by
  have hzeros := Word.leadingZeros_le n
  have hupper : bitLength n.toNat ≤ 64 - (Word.leadingZeros n).toNat := by
    rw [bitLength_le_iff, Word.toNat_leadingZeros]
    exact BitVec.toNat_lt_two_pow_sub_clz (x := n.toBitVec)
  by_cases hzero : n.toBitVec = 0#64
  · -- a word of zeros only
    have hfull : n.toBitVec.clz = 64 := BitVec.clz_eq_iff_eq_zero.mpr hzero
    have hclz : (Word.leadingZeros n).toNat = 64 := by rw [Word.toNat_leadingZeros, hfull]; rfl
    omega
  · have hfirst := BitVec.two_pow_sub_clz_le_toNat_of_ne_zero (x := n.toBitVec) (by decide) hzero
    have hlower : ¬ bitLength n.toNat ≤ 63 - (Word.leadingZeros n).toNat := by
      rw [bitLength_le_iff, Word.toNat_leadingZeros]
      exact Nat.not_lt.mpr hfirst
    omega

/-! ## Widths -/

/-- Exactly the positive item counts have a width. -/
theorem forItems_cases (n : Int64) :
    (0 < n.toInt ∧ ∃ width, forItems n = .ok width) ∨
      (n.toInt ≤ 0 ∧ forItems n = .error (.itemsNotPositive n)) := by
  by_cases h : n.toInt ≤ 0
  · exact Or.inr ⟨h, if_pos h⟩
  · exact Or.inl ⟨Int.not_le.mp h, _, if_neg h⟩

variable {n : Int64} {width : Nat}

/-- So many qubits are enough exactly if there are two of them and a number for each item. -/
theorem forItems_le_iff (h : forItems n = .ok width) (r : Nat) :
    width ≤ r ↔ 2 ≤ r ∧ n.toInt ≤ 2 ^ r := by
  unfold forItems at h
  split at h
  · cases h
  · next hpos =>
      cases h
      -- the items are counted from zero
      have hcount : n.toInt = ((n.toInt.toNat - 1 + 1 : Nat) : Int) := by omega
      have hpow : ((2 ^ r : Nat) : Int) = 2 ^ r := Int.natCast_pow 2 r
      have hitems : n.toInt.toNat - 1 < 2 ^ r ↔ n.toInt ≤ 2 ^ r := by
        rw [← Nat.add_one_le_iff, ← Int.ofNat_le, ← hcount, hpow]
      rw [Nat.max_le, bitLength_le_iff, hitems]
      rfl

/-- The width is the least number of qubits that will do. -/
theorem isLeast_of_forItems (h : forItems n = .ok width) :
    IsLeast {r : Nat | 2 ≤ r ∧ n.toInt ≤ 2 ^ r} width :=
  ⟨(forItems_le_iff h width).mp (Nat.le_refl width), fun r hr => (forItems_le_iff h r).mpr hr⟩

/-- The width for an item count has a number for each item. -/
theorem le_two_pow_of_forItems (h : forItems n = .ok width) : n.toInt ≤ 2 ^ width :=
  (isLeast_of_forItems h).1.2

/-- One qubit less than the width has no number for the last item, unless it is less than two. -/
theorem two_pow_lt_of_forItems (h : forItems n = .ok width) (hwidth : 2 < width) :
    2 ^ (width - 1) < n.toInt := by
  have hless : ¬ width ≤ width - 1 := by omega
  rw [forItems_le_iff h] at hless
  exact Int.not_le.mp fun hle => hless ⟨by omega, hle⟩

/-- A positive item count takes from two to sixty-three qubits. -/
theorem forItems_of_pos (h : 0 < n.toInt) :
    ∃ width, forItems n = .ok width ∧ 2 ≤ width ∧ width ≤ 63 := by
  rcases forItems_cases n with ⟨-, width, hok⟩ | ⟨hnot, -⟩
  · have hmax : n.toInt ≤ 2 ^ 63 := Int.le_of_lt n.toInt_lt
    exact ⟨width, hok, (isLeast_of_forItems hok).1.1, (forItems_le_iff hok 63).mpr ⟨by decide, hmax⟩⟩
  · omega

/-- More items take as many qubits or more. -/
theorem forItems_mono {m : Int64} {wider : Nat} (hle : n ≤ m) (hn : forItems n = .ok width)
    (hm : forItems m = .ok wider) : width ≤ wider := by
  obtain ⟨htwo, hitems⟩ := (isLeast_of_forItems hm).1
  exact (forItems_le_iff hn wider).mpr ⟨htwo, Int.le_trans (Int64.le_iff_toInt_le.mp hle) hitems⟩

/-! ## Words -/

/-- The width for an item count, computed on words with every operation checked. -/
def wordForItems? (numItems : Int64) : Option (Except InputFault UInt32) :=
  match (Word.ofSigned? numItems).filter (0 < ·) with
  | none => some (.error (.itemsNotPositive numItems))
  | some count => do
      let last ← Word.subLong? count 1
      let bits ← Word.sub? 64 (Word.leadingZeros last)
      some (.ok (max bits 2))

/-- Exactly the positive item counts are counts on words. -/
theorem ofSigned?_filter (n : Int64) :
    (0 < n.toInt ∧ (Word.ofSigned? n).filter (0 < ·) = some n.toUInt64 ∧
      n.toUInt64.toNat = n.toInt.toNat) ∨
      (n.toInt ≤ 0 ∧ (Word.ofSigned? n).filter (0 < ·) = none) := by
  by_cases hsign : 0 ≤ n
  · have hnat : n.toUInt64.toNat = n.toInt.toNat := Int64.toNat_toUInt64_of_le hsign
    have hpos : (0 : UInt64) < n.toUInt64 ↔ 0 < n.toInt := by
      rw [UInt64.lt_iff_toNat_lt, hnat]
      exact Int.lt_toNat
    rw [Word.ofSigned?, if_pos hsign, Option.filter_some]
    by_cases h : 0 < n.toInt
    · exact Or.inl ⟨h, if_pos (decide_eq_true (hpos.mpr h)), hnat⟩
    · exact Or.inr ⟨Int.not_lt.mp h, if_neg fun hlt => h (hpos.mp (of_decide_eq_true hlt))⟩
  · refine Or.inr ⟨?_, by rw [Word.ofSigned?, if_neg hsign, Option.filter_none]⟩
    rw [Int64.le_iff_toInt_le] at hsign
    exact Int.le_of_lt (Int.not_le.mp hsign)

/-- No item count stops the computation on words, and it answers as the one on numbers. -/
theorem wordForItems?_eq (n : Int64) :
    (wordForItems? n).map (Except.map UInt32.toNat) = some (forItems n) := by
  rcases ofSigned?_filter n with ⟨hpos, hcount, hnat⟩ | ⟨hnot, hcount⟩
  · have hone : (1 : UInt64).toNat = 1 := rfl
    have htwo : (2 : UInt32).toNat = minQubits := rfl
    obtain ⟨last, hlast, hlast'⟩ := Word.exists_subLong? (a := n.toUInt64) (b := 1) (by omega)
    have hroom := leadingZeros_add_bitLength last
    have hzeros : (Word.leadingZeros last).toNat ≤ (64 : UInt32).toNat := Word.leadingZeros_le last
    obtain ⟨bits, hbits, hbits'⟩ := Word.exists_sub? hzeros
    have hlength : bits.toNat = bitLength (n.toInt.toNat - 1) := by
      rw [hbits', ← hnat, ← hone, ← hlast']
      exact Nat.sub_eq_of_eq_add' hroom.symm
    simp only [wordForItems?, hcount, hlast, hbits, Option.bind_eq_bind, Option.bind_some,
      Option.map_some, Except.map, Word.toNat_max, hlength, htwo]
    rw [forItems, if_neg (Int.not_le.mpr hpos), Nat.max_comm]
  · simp only [wordForItems?, hcount, Option.map_some, Except.map]
    rw [forItems, if_pos hnot]

/-! ## The answer -/

/-- An item count is refused exactly if it is not positive, and then for that. Any other has the least
width of two qubits or more that numbers the items: with one qubit less, if these are still two, the items
outnumber the numbers. Sixty-three qubits do for every count, and more items never take fewer qubits.
Taking the bits from the zeros in front of a word comes to the same at every count. -/
theorem forItems_answer (n : Int64) :
    (wordForItems? n).map (Except.map UInt32.toNat) = some (forItems n) ∧
    ((∃ fault, forItems n = .error fault) ↔ n.toInt ≤ 0) ∧
    (n.toInt ≤ 0 → forItems n = .error (.itemsNotPositive n)) ∧
    (0 < n.toInt → ∃ width, forItems n = .ok width ∧
      IsLeast {r : Nat | 2 ≤ r ∧ n.toInt ≤ 2 ^ r} width ∧
      (2 < width → 2 ^ (width - 1) < n.toInt) ∧ width ≤ 63 ∧
      ∀ m, n ≤ m → ∃ wider, forItems m = .ok wider ∧ width ≤ wider) := by
  refine ⟨wordForItems?_eq n, ?_, ?_, ?_⟩
  · rcases forItems_cases n with ⟨hpos, width, hok⟩ | ⟨hnot, herror⟩
    · refine iff_of_false ?_ (Int.not_le.mpr hpos)
      rintro ⟨fault, herror⟩
      rw [hok] at herror
      cases herror
    · exact iff_of_true ⟨_, herror⟩ hnot
  · intro hnot
    exact if_pos hnot
  · -- a count of items that is positive has a width, and a larger one has no smaller width
    intro hpos
    obtain ⟨width, hok, -, hmax⟩ := forItems_of_pos hpos
    refine ⟨width, hok, isLeast_of_forItems hok, two_pow_lt_of_forItems hok, hmax, ?_⟩
    intro m hle
    obtain ⟨wider, hwider, -⟩ := forItems_of_pos (Int.lt_of_lt_of_le hpos (Int64.le_iff_toInt_le.mp hle))
    exact ⟨wider, hwider, forItems_mono hle hok hwider⟩

/-- Control: twenty qubits number 2^20 items and one item more takes another qubit; the greatest count
takes no more than sixty-three, and the least count is refused. -/
theorem forItems_answer_bounds :
    forItems 1048576 = .ok 20 ∧ forItems 1048577 = .ok 21 ∧ (2 : Int) ^ 20 < 1048577 ∧
      (∃ width, forItems Int64.maxValue = .ok width ∧ 21 ≤ width ∧ width ≤ 63) ∧
      forItems Int64.minValue = .error (.itemsNotPositive Int64.minValue) := by
  have htwenty : forItems 1048576 = .ok 20 := rfl
  have hnext : forItems 1048577 = .ok 21 := rfl
  obtain ⟨-, -, -, hpos⟩ := forItems_answer 1048577
  obtain ⟨width, hok, -, hless, -, hmore⟩ := hpos (by decide)
  rw [hnext] at hok
  cases hok
  obtain ⟨wider, hwider, hle⟩ := hmore Int64.maxValue (by decide)
  obtain ⟨-, -, -, hgreatest⟩ := forItems_answer Int64.maxValue
  obtain ⟨width, hok, -, -, hmax, -⟩ := hgreatest (by decide)
  have hsame : width = wider := Except.ok.inj (hok.symm.trans hwider)
  obtain ⟨-, -, hnot, -⟩ := forItems_answer Int64.minValue
  exact ⟨htwenty, hnext, hless (by decide), ⟨wider, hwider, hle, hsame ▸ hmax⟩, hnot (by decide)⟩

end Sizing

end QCircuit
