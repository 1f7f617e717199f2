import Mathlib.Algebra.Ring.Nat
import Mathlib.Data.List.Basic

/-!
# Numbers in base 128

A number is written as groups of seven bits, the lowest group first, and every byte but the last
has its high bit set. A number is read up to the first byte without that bit.
-/

namespace Icegres.Base128

/-- The groups of a number. -/
def septets (number : Nat) : List UInt8 :=
  if number < 128 then [UInt8.ofNat number]
  else UInt8.ofNat (number % 128 + 128) :: septets (number / 128)
termination_by number
decreasing_by omega

/-- The bytes up to the first one that ends a number, and the bytes behind. -/
def splitNumber : List UInt8 → Option (List UInt8 × List UInt8)
  | [] => none
  | byte :: rest =>
    if byte.toNat < 128 then
      some ([byte], rest)
    else
      (splitNumber rest).map fun found => (byte :: found.1, found.2)

/-- The number that groups spell. -/
def spelled : List UInt8 → Nat
  | [] => 0
  | byte :: rest => byte.toNat % 128 + 128 * spelled rest

theorem toNat_ofNat_of_lt {value : Nat} (small : value < 256) :
    (UInt8.ofNat value).toNat = value := by
  rw [UInt8.toNat_ofNat']
  exact Nat.mod_eq_of_lt small

theorem septets_ne_nil (number : Nat) : septets number ≠ [] := by
  rw [septets]
  split <;> exact List.cons_ne_nil _ _

/-- The groups of a number spell it. -/
theorem spelled_septets (number : Nat) : spelled (septets number) = number := by
  induction number using Nat.strongRecOn with
  | ind number ih =>
      rw [septets]
      split
      · next small =>
        simp only [spelled, toNat_ofNat_of_lt (show number < 256 by omega)]
        omega
      · next large =>
        have byte := toNat_ofNat_of_lt (show number % 128 + 128 < 256 by omega)
        simp only [spelled, byte, ih (number / 128) (by omega)]
        omega

/-- A number is read as far as it was written. -/
theorem splitNumber_septets (number : Nat) (rest : List UInt8) :
    splitNumber (septets number ++ rest) = some (septets number, rest) := by
  induction number using Nat.strongRecOn with
  | ind number ih =>
      rw [septets]
      split
      · next small =>
        have byte := toNat_ofNat_of_lt (show number < 256 by omega)
        rw [List.singleton_append, splitNumber, byte, if_pos small]
      · next large =>
        have byte := toNat_ofNat_of_lt (show number % 128 + 128 < 256 by omega)
        have continues : ¬ number % 128 + 128 < 128 := by omega
        rw [List.cons_append, splitNumber, byte, if_neg continues,
          ih (number / 128) (by omega), Option.map_some]

/-- As many groups as the number needs. -/
theorem length_septets_le {number count : Nat} (some' : 0 < count) (fits : number < 128 ^ count) :
    (septets number).length ≤ count := by
  induction count generalizing number with
  | zero => omega
  | succ count ih =>
      rw [septets]
      split
      · exact some'
      · next large =>
        have quotient : number / 128 < 128 ^ count := by
          rw [Nat.div_lt_iff_lt_mul (by decide)]
          rwa [Nat.pow_succ] at fits
        have more : 0 < count := by
          rcases Nat.eq_zero_or_pos count with rfl | positive
          · simp only [Nat.pow_zero] at quotient
            omega
          · exact positive
        rw [List.length_cons]
        have rest := ih more quotient
        omega

/-- What is read are the bytes at the front. -/
theorem splitNumber_eq_some {bytes own rest : List UInt8}
    (splits : splitNumber bytes = some (own, rest)) : bytes = own ++ rest ∧ own ≠ [] := by
  induction bytes generalizing own with
  | nil => cases splits
  | cons byte later ih =>
      rw [splitNumber] at splits
      split at splits
      · cases splits
        exact ⟨rfl, List.cons_ne_nil _ _⟩
      · obtain ⟨⟨found, left⟩, isFound, same⟩ := Option.map_eq_some_iff.mp splits
        cases same
        obtain ⟨isLater, -⟩ := ih isFound
        exact ⟨by rw [isLater]; rfl, List.cons_ne_nil _ _⟩

end Icegres.Base128
