import Mathlib.Data.List.Flatten
import QCircuit.Binary64

/-!
# Checked arithmetic on words

Sums, differences, products and remainders of words of 32 and 64 bits. There is a result exactly when the
number that it stands for is a word, and then it is that number (`Word.add?_eq_some_iff` and its like): a
sum past the last word, a difference below zero and a remainder by zero have none.

A loop up to a word runs through the words below it (`Word.below`).
-/

set_option autoImplicit false

namespace QCircuit.Word

/-- The sum of two words. -/
def add? (a b : UInt32) : Option UInt32 :=
  if a.toNat + b.toNat < 2 ^ 32 then some (a + b) else none

/-- The difference of two words. -/
def sub? (a b : UInt32) : Option UInt32 := if b ≤ a then some (a - b) else none

/-- The remainder of two words. -/
def mod? (a b : UInt32) : Option UInt32 := if b = 0 then none else some (a % b)

/-- The difference of two long words. -/
def subLong? (a b : UInt64) : Option UInt64 := if b ≤ a then some (a - b) else none

/-- The product of two long words. -/
def mul? (a b : UInt64) : Option UInt64 :=
  if a.toNat * b.toNat < 2 ^ 64 then some (a * b) else none

/-! ## Results -/

theorem add?_eq_some_iff {a b c : UInt32} : add? a b = some c ↔ a.toNat + b.toNat = c.toNat := by
  have hc := c.toNat_lt
  rw [add?, Option.ite_none_right_eq_some, Option.some.injEq, ← UInt32.toNat_inj, UInt32.toNat_add]
  constructor
  · rintro ⟨hlt, heq⟩
    rwa [Nat.mod_eq_of_lt hlt] at heq
  · intro heq
    rw [heq]
    exact ⟨hc, Nat.mod_eq_of_lt hc⟩

theorem sub?_eq_some_iff {a b c : UInt32} : sub? a b = some c ↔ a.toNat = b.toNat + c.toNat := by
  rw [sub?, Option.ite_none_right_eq_some, Option.some.injEq, ← UInt32.toNat_inj]
  constructor
  · rintro ⟨hle, heq⟩
    have hle' := UInt32.le_iff_toNat_le.mp hle
    rw [UInt32.toNat_sub_of_le a b hle] at heq
    omega
  · intro heq
    have hle : b ≤ a := UInt32.le_iff_toNat_le.mpr (by omega)
    refine ⟨hle, ?_⟩
    rw [UInt32.toNat_sub_of_le a b hle]
    omega

theorem mod?_eq_some_iff {a b c : UInt32} :
    mod? a b = some c ↔ b.toNat ≠ 0 ∧ a.toNat % b.toNat = c.toNat := by
  have hzero : b = 0 ↔ b.toNat = 0 := UInt32.toNat_inj.symm
  rw [mod?, Option.ite_none_left_eq_some, hzero, Option.some.injEq, ← UInt32.toNat_inj,
    UInt32.toNat_mod]

theorem mul?_eq_some_iff {a b c : UInt64} : mul? a b = some c ↔ a.toNat * b.toNat = c.toNat := by
  have hc := c.toNat_lt
  rw [mul?, Option.ite_none_right_eq_some, Option.some.injEq, ← UInt64.toNat_inj, UInt64.toNat_mul]
  constructor
  · rintro ⟨hlt, heq⟩
    rwa [Nat.mod_eq_of_lt hlt] at heq
  · intro heq
    rw [heq]
    exact ⟨hc, Nat.mod_eq_of_lt hc⟩

theorem exists_add? {a b : UInt32} (h : a.toNat + b.toNat < 2 ^ 32) :
    ∃ c, add? a b = some c ∧ c.toNat = a.toNat + b.toNat := by
  have hword : (UInt32.ofNat (a.toNat + b.toNat)).toNat = a.toNat + b.toNat :=
    UInt32.toNat_ofNat_of_lt' h
  exact ⟨_, add?_eq_some_iff.mpr hword.symm, hword⟩

theorem exists_sub? {a b : UInt32} (h : b.toNat ≤ a.toNat) :
    ∃ c, sub? a b = some c ∧ c.toNat = a.toNat - b.toNat := by
  have ha := a.toNat_lt
  have hword : (UInt32.ofNat (a.toNat - b.toNat)).toNat = a.toNat - b.toNat :=
    UInt32.toNat_ofNat_of_lt' (Nat.lt_of_le_of_lt (Nat.sub_le _ _) ha)
  exact ⟨_, sub?_eq_some_iff.mpr (by omega), hword⟩

theorem exists_subLong? {a b : UInt64} (h : b.toNat ≤ a.toNat) :
    ∃ c, subLong? a b = some c ∧ c.toNat = a.toNat - b.toNat := by
  have hle : b ≤ a := UInt64.le_iff_toNat_le.mpr h
  exact ⟨a - b, if_pos hle, UInt64.toNat_sub_of_le a b hle⟩

theorem exists_mod? {a b : UInt32} (h : b.toNat ≠ 0) :
    ∃ c, mod? a b = some c ∧ c.toNat = a.toNat % b.toNat := by
  have ha := a.toNat_lt
  have hword : (UInt32.ofNat (a.toNat % b.toNat)).toNat = a.toNat % b.toNat :=
    UInt32.toNat_ofNat_of_lt' (Nat.lt_of_le_of_lt (Nat.mod_le _ _) ha)
  exact ⟨_, mod?_eq_some_iff.mpr ⟨h, hword.symm⟩, hword⟩

theorem exists_mul? {a b : UInt64} (h : a.toNat * b.toNat < 2 ^ 64) :
    ∃ c, mul? a b = some c ∧ c.toNat = a.toNat * b.toNat := by
  have hword : (UInt64.ofNat (a.toNat * b.toNat)).toNat = a.toNat * b.toNat :=
    UInt64.toNat_ofNat_of_lt' h
  exact ⟨_, mul?_eq_some_iff.mpr hword.symm, hword⟩

theorem toNat_max (a b : UInt32) : (max a b).toNat = max a.toNat b.toNat := by
  have hmax : max a b = if a ≤ b then b else a := rfl
  rw [hmax]
  split
  · next hle => exact (Nat.max_eq_right (UInt32.le_iff_toNat_le.mp hle)).symm
  · next hle => exact (Nat.max_eq_left (Nat.le_of_not_le (mt UInt32.le_iff_toNat_le.mpr hle))).symm

/-! ## Loops -/

/-- The words below a word, in order. -/
def below (n : UInt32) : List UInt32 := (List.range n.toNat).map UInt32.ofNat

theorem map_toNat_below (n : UInt32) : (below n).map UInt32.toNat = List.range n.toNat := by
  rw [below, List.map_map]
  refine Eq.trans (List.map_congr_left fun i hi => ?_) (List.map_id _)
  exact UInt32.toNat_ofNat_of_lt' (Nat.lt_trans (List.mem_range.mp hi) n.toNat_lt)

theorem length_below (n : UInt32) : (below n).length = n.toNat := by
  rw [below, List.length_map, List.length_range]

end QCircuit.Word
