import Mathlib.Algebra.Group.Nat.Defs
import TickKernel.Stack

/-!
# Blocks and words

Sizes and addresses as natural numbers: what a request for a stack is rounded up to and
when that is no layout, and which words writing a row of words changes.
-/

namespace TickKernel

namespace Stack

/-- The least multiple of the alignment that is not below a number of bytes. -/
def roundUp (bytes : Nat) : Nat :=
  (bytes + 15) / 16 * 16

theorem toNat_alignDown (address : UInt64) :
    (alignDown address).toNat = address.toNat / 16 * 16 := by
  have hmask : (~~~(alignment - 1)).toNat = (2 ^ 60 - 1) <<< 4 := by decide
  have hshift : address.toNat / 16 * 16 = (address.toNat >>> 4) <<< 4 := by
    rw [Nat.shiftLeft_eq, Nat.shiftRight_eq_div_pow]
  rw [alignDown, UInt64.toNat_and, hmask, hshift]
  -- bit by bit: the lowest four are cleared, and the mask has all the others of a word
  apply Nat.eq_of_testBit_eq
  intro bit
  rw [Nat.testBit_and, Nat.testBit_shiftLeft, Nat.testBit_shiftLeft, Nat.testBit_shiftRight,
    Nat.testBit_two_pow_sub_one]
  by_cases hlow : 4 ≤ bit
  · rw [Nat.add_sub_cancel' hlow]
    by_cases hhigh : bit < 64
    · simp [hlow, show bit - 4 < 60 by omega]
    · have hzero : address.toNat.testBit bit = false :=
        Nat.testBit_lt_two_pow (Nat.lt_of_lt_of_le address.toNat_lt
          (Nat.pow_le_pow_right (by decide) (by omega)))
      simp [hzero]
  · simp [hlow]

theorem toNat_maxBlock : maxBlock.toNat = 2 ^ 63 - 16 :=
  rfl

/-- A request that can be rounded up within a word is rounded up exactly. -/
theorem toNat_rounded {bytes : UInt64} (hfits : bytes.toNat + 15 < UInt64.size) :
    (alignDown (bytes + (alignment - 1))).toNat = roundUp bytes.toNat := by
  have hsum : (bytes + (alignment - 1)).toNat = bytes.toNat + 15 := by
    rw [UInt64.toNat_add]
    exact Nat.mod_eq_of_lt hfits
  rw [toNat_alignDown, hsum]
  rfl

/-- Up to the largest block a request is granted the least multiple that holds it. -/
theorem blockSize_eq_ok (bytes : UInt64) (hpos : 0 < bytes.toNat)
    (hmax : roundUp bytes.toNat ≤ 2 ^ 63 - 16) :
    ∃ size, blockSize bytes = .ok size ∧ size.toNat = roundUp bytes.toNat := by
  have hround := hmax
  unfold roundUp at hround
  have hfits : bytes.toNat + 15 < UInt64.size := by
    have hsize : UInt64.size = 2 ^ 64 := rfl
    omega
  have hrounded := toNat_rounded hfits
  have hnone : ¬ UInt64.size ≤ bytes.toNat + (alignment - 1).toNat := Nat.not_le.2 hfits
  have hzero : ¬ alignDown (bytes + (alignment - 1)) = 0 := by
    intro h
    rw [h] at hrounded
    change 0 = (bytes.toNat + 15) / 16 * 16 at hrounded
    omega
  have hlarge : ¬ maxBlock < alignDown (bytes + (alignment - 1)) := by
    rw [UInt64.lt_iff_toNat_lt, toNat_maxBlock, hrounded]
    exact Nat.not_lt.2 hmax
  exact ⟨_, by simp only [blockSize, hnone, hzero, hlarge, if_false], hrounded⟩

theorem blockSize_eq_error {bytes size : UInt64} (hmax : 2 ^ 63 - 16 < roundUp bytes.toNat)
    (hsize : size.toNat =
      if roundUp bytes.toNat < UInt64.size then roundUp bytes.toNat else bytes.toNat) :
    blockSize bytes = .error (.invalidLayout size) := by
  have hround : roundUp bytes.toNat = (bytes.toNat + 15) / 16 * 16 := rfl
  have hword : UInt64.size = 2 ^ 64 := rfl
  by_cases hfits : bytes.toNat + 15 < UInt64.size
  · have hrounded := toNat_rounded hfits
    have hnone : ¬ UInt64.size ≤ bytes.toNat + (alignment - 1).toNat := Nat.not_le.2 hfits
    have hsame : size = alignDown (bytes + (alignment - 1)) := by
      apply UInt64.toNat_inj.1
      rw [hsize, if_pos (by omega), hrounded]
    have hzero : ¬ alignDown (bytes + (alignment - 1)) = 0 := by
      intro h
      rw [h] at hrounded
      change 0 = roundUp bytes.toNat at hrounded
      omega
    have hlarge : maxBlock < alignDown (bytes + (alignment - 1)) := by
      rw [UInt64.lt_iff_toNat_lt, toNat_maxBlock, hrounded]
      exact hmax
    simp only [blockSize, hnone, hzero, hlarge, if_false, if_true, hsame]
  · have hover : UInt64.size ≤ bytes.toNat + (alignment - 1).toNat := Nat.not_lt.1 hfits
    have hsame : size = bytes := by
      apply UInt64.toNat_inj.1
      rw [hsize, if_neg (by omega)]
    simp only [blockSize, hover, if_true, hsame]

theorem of_blockSize {bytes size : UInt64} (h : blockSize bytes = .ok size) :
    size.toNat % 16 = 0 ∧ bytes.toNat ≤ size.toNat := by
  by_cases hfits : bytes.toNat + 15 < UInt64.size
  · have hnone : ¬ UInt64.size ≤ bytes.toNat + (alignment - 1).toNat := Nat.not_le.2 hfits
    have hrounded := toNat_rounded hfits
    simp only [blockSize, hnone, if_false] at h
    split at h
    next => cases h
    next =>
        split at h
        next => cases h
        next =>
            obtain rfl := Except.ok.inj h
            rw [hrounded, roundUp]
            omega
  · have hover : UInt64.size ≤ bytes.toNat + (alignment - 1).toNat := Nat.not_lt.1 hfits
    simp only [blockSize, hover, if_true] at h
    cases h

end Stack

/-! ## Words -/

namespace Memory

variable {address other : UInt64} {values : List UInt64} {index : Nat}

theorem toNat_add_word (h : address.toNat + 8 * index < 2 ^ 64) :
    (address + 8 * UInt64.ofNat index).toNat = address.toNat + 8 * index := by
  have hindex : (UInt64.ofNat index).toNat = index := UInt64.toNat_ofNat_of_lt' (by
    have hword : UInt64.size = 2 ^ 64 := rfl
    omega)
  have height : (8 : UInt64).toNat = 8 := rfl
  rw [UInt64.toNat_add, UInt64.toNat_mul, hindex, height]
  omega

theorem toNat_next (h : address.toNat + 8 < 2 ^ 64) : (address + 8).toNat = address.toNat + 8 := by
  rw [UInt64.toNat_add]
  exact Nat.mod_eq_of_lt h

theorem word_writeWords_of_outside (memory : Memory)
    (hbound : address.toNat + 8 * values.length < 2 ^ 64)
    (houtside : other.toNat < address.toNat ∨ address.toNat + 8 * values.length ≤ other.toNat) :
    (memory.writeWords address values).word other = memory.word other := by
  induction values generalizing memory address with
  | nil => rfl
  | cons value rest ih =>
      rw [List.length_cons] at hbound houtside
      have hnext : (address + 8).toNat = address.toNat + 8 := toNat_next (by omega)
      have hne : other ≠ address := by
        rintro rfl
        omega
      rw [writeWords, ih _ (by omega) (by omega), word_write_of_ne memory value hne]

theorem wordAt_writeWords (memory : Memory)
    (hbound : address.toNat + 8 * values.length < 2 ^ 64) (hindex : index < values.length) :
    (memory.writeWords address values).wordAt address index = values[index] := by
  induction values generalizing memory address index with
  | nil => cases hindex
  | cons value rest ih =>
      rw [List.length_cons] at hbound
      have hnext : (address + 8).toNat = address.toNat + 8 := toNat_next (by omega)
      cases index with
      | zero =>
          have hself : address + 8 * UInt64.ofNat 0 = address := by simp
          rw [writeWords, wordAt, hself, word_writeWords_of_outside _ (by omega) (by omega),
            word_write_self]
          rfl
      | succ index =>
          rw [List.length_cons] at hindex
          have hshift : address + 8 * UInt64.ofNat (index + 1) =
              address + 8 + 8 * UInt64.ofNat index := by
            apply UInt64.toNat_inj.1
            have hhere : (address + 8 * UInt64.ofNat (index + 1)).toNat =
                address.toNat + 8 * (index + 1) := toNat_add_word (by omega)
            have hthere : (address + 8 + 8 * UInt64.ofNat index).toNat =
                (address + 8).toNat + 8 * index := toNat_add_word (by omega)
            omega
          have hlast : index < rest.length := Nat.lt_of_succ_lt_succ hindex
          have hrest : ((memory.write address value).writeWords (address + 8) rest).wordAt
              (address + 8) index = rest[index] := ih _ (by omega) hlast
          rw [wordAt, ← hshift] at hrest
          exact hrest

end Memory

end TickKernel
