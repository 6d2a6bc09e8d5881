import Mathlib.Algebra.NeZero

/-!
# Numerals of finite types

The sizes of the tables are not zero, so that numerals name their entries. One
instance for each size keeps the terms small and the same in every module.
-/
namespace Zigmaos

instance (priority := high) neZero_two : @NeZero Nat Zero.ofOfNat0 2 :=
  ⟨Nat.succ_ne_zero 1⟩

instance (priority := high) neZero_three : @NeZero Nat Zero.ofOfNat0 3 :=
  ⟨Nat.succ_ne_zero 2⟩

instance (priority := high) neZero_ten : @NeZero Nat Zero.ofOfNat0 10 :=
  ⟨Nat.succ_ne_zero 9⟩

instance (priority := high) neZero_thirteen : @NeZero Nat Zero.ofOfNat0 13 :=
  ⟨Nat.succ_ne_zero 12⟩

instance (priority := high) neZero_sixteen : @NeZero Nat Zero.ofOfNat0 16 :=
  ⟨Nat.succ_ne_zero 15⟩

instance (priority := high) neZero_fifty : @NeZero Nat Zero.ofOfNat0 50 :=
  ⟨Nat.succ_ne_zero 49⟩

instance (priority := high) neZero_sixtyFour : @NeZero Nat Zero.ofOfNat0 64 :=
  ⟨Nat.succ_ne_zero 63⟩

instance (priority := high) neZero_hundred : @NeZero Nat Zero.ofOfNat0 100 :=
  ⟨Nat.succ_ne_zero 99⟩

instance (priority := high) neZero_fiveHundredTwelve : @NeZero Nat Zero.ofOfNat0 512 :=
  ⟨Nat.succ_ne_zero 511⟩

end Zigmaos
