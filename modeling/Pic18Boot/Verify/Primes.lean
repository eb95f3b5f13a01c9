import Mathlib.Tactic.NormNum.Prime
import Pic18Boot.Theory.Lucas

/-! # The two primes of secp256k1

The modulus of the coordinates and the order of the group are prime. Each is tested with the prime
factors of its predecessor, the large ones of which are tested in the same way. -/

namespace Pic18Boot

/-- The modulus of the coordinates, `2 ^ 256 - 2 ^ 32 - 977`. -/
def fieldP : ℕ := 0xFFFFFFFFFFFFFFFFFFFFFFFFFFFFFFFFFFFFFFFFFFFFFFFFFFFFFFFEFFFFFC2F

/-- The order of the group. -/
def orderN : ℕ := 0xFFFFFFFFFFFFFFFFFFFFFFFFFFFFFFFEBAAEDCE6AF48A03BBFD25E8CD0364141

/-- Up to `fieldP`, which is last. -/
def fieldChain : List Lucas.Certificate := [
  ⟨64, 173378833005251801, 6, [2, 2, 2, 5, 5, 2621, 24809, 13331831]⟩,
  ⟨80, 22149492674086928081353, 5, [2, 2, 2, 3, 5323, 173378833005251801]⟩,
  ⟨80, 132896956044521568488119, 6, [2, 3, 22149492674086928081353]⟩,
  ⟨128, 255515944373312847190720520512484175977, 3,
    [2, 2, 2, 7, 7, 11, 1627, 2657, 4423, 41201, 96557, 7240687, 107590001]⟩,
  ⟨240, 205115282021455665897114700593932402728804164701536103180137503955397371, 10,
    [2, 3, 5, 29, 29, 31, 7723, 132896956044521568488119,
      255515944373312847190720520512484175977]⟩,
  ⟨256, fieldP, 3,
    [2, 3, 7, 13441,
      205115282021455665897114700593932402728804164701536103180137503955397371]⟩]

/-- Up to `orderN`, which is last. -/
def orderChain : List Lucas.Certificate := [
  ⟨80, 174723607534414371449, 3, [2, 2, 2, 17, 59, 4051, 120233, 44706919]⟩,
  ⟨64, 107361793816595537, 3, [2, 2, 2, 2, 16699, 85831, 4681609]⟩,
  ⟨64, 297159362677, 2, [2, 2, 3, 3, 11, 461, 1627771]⟩,
  ⟨32, 545358713, 5, [2, 2, 2, 41, 59, 28181]⟩,
  ⟨96, 29047611873442575647497758179, 2, [2, 293, 305873, 545358713, 297159362677]⟩,
  ⟨112, 341948486974166000522343609283189, 2,
    [2, 2, 3, 3, 3, 109, 29047611873442575647497758179]⟩,
  ⟨256, orderN, 7,
    [2, 2, 2, 2, 2, 2, 3, 149, 631, 107361793816595537, 174723607534414371449,
      341948486974166000522343609283189]⟩]

theorem prime_fieldP : fieldP.Prime :=
  Lucas.prime_of_chain
    [2, 3, 5, 7, 11, 29, 31, 1627, 2621, 2657, 4423, 5323, 7723, 13441, 24809, 41201, 96557,
      7240687, 13331831, 107590001]
    fieldChain (by norm_num) (by decide +kernel) _ (List.mem_of_getElem? (i := 5) rfl)

theorem prime_orderN : orderN.Prime :=
  Lucas.prime_of_chain
    [2, 3, 11, 17, 41, 59, 109, 149, 293, 461, 631, 4051, 16699, 28181, 85831, 120233, 305873,
      1627771, 4681609, 44706919]
    orderChain (by norm_num) (by decide +kernel) _ (List.mem_of_getElem? (i := 6) rfl)

instance : Fact fieldP.Prime := ⟨prime_fieldP⟩

instance : Fact orderN.Prime := ⟨prime_orderN⟩

end Pic18Boot
