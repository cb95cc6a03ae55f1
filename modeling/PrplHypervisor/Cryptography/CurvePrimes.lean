import PrplHypervisor.Lib.Primality

/-!
# The primes of secp256k1

`fieldPrime` is the modulus of the coordinates, `groupOrder` the order of the base point.
-/

namespace PrplHypervisor.UEcc

open Primality

def fieldPrime : Nat := 2 ^ 256 - 2 ^ 32 - 977

def groupOrder : Nat := 0xFFFFFFFFFFFFFFFFFFFFFFFFFFFFFFFEBAAEDCE6AF48A03BBFD25E8CD0364141

def smallPrimes : List Nat :=
  [2, 3, 5, 7, 11, 17, 19, 29, 31, 41, 53, 59, 97, 109, 113, 149, 293, 461, 631, 797, 971, 1373,
   1627, 1871, 2011, 2621, 2657, 2731, 4051, 4423, 5323, 7723, 9349, 13441, 16699, 20113, 24809,
   28181, 41201, 85831, 96557]

/-- Every factor is small or has a certificate further up. -/
def certificates : List Certificate := [
  { p := 120233, root := 3, bits := 17,
    factors := [2, 2, 2, 7, 19, 113] },
  { p := 305873, root := 3, bits := 19,
    factors := [2, 2, 2, 2, 7, 2731] },
  { p := 1206781, root := 10, bits := 21,
    factors := [2, 2, 3, 5, 20113] },
  { p := 1627771, root := 3, bits := 21,
    factors := [2, 3, 5, 29, 1871] },
  { p := 4681609, root := 23, bits := 23,
    factors := [2, 2, 2, 3, 97, 2011] },
  { p := 7240687, root := 3, bits := 23,
    factors := [2, 3, 1206781] },
  { p := 13331831, root := 13, bits := 24,
    factors := [2, 5, 971, 1373] },
  { p := 44706919, root := 6, bits := 26,
    factors := [2, 3, 797, 9349] },
  { p := 107590001, root := 3, bits := 27,
    factors := [2, 2, 2, 2, 5, 5, 5, 5, 7, 29, 53] },
  { p := 545358713, root := 5, bits := 30,
    factors := [2, 2, 2, 41, 59, 28181] },
  { p := 297159362677, root := 2, bits := 39,
    factors := [2, 2, 3, 3, 11, 461, 1627771] },
  { p := 107361793816595537, root := 3, bits := 57,
    factors := [2, 2, 2, 2, 16699, 85831, 4681609] },
  { p := 173378833005251801, root := 6, bits := 58,
    factors := [2, 2, 2, 5, 5, 2621, 24809, 13331831] },
  { p := 174723607534414371449, root := 3, bits := 68,
    factors := [2, 2, 2, 17, 59, 4051, 120233, 44706919] },
  { p := 22149492674086928081353, root := 5, bits := 75,
    factors := [2, 2, 2, 3, 5323, 173378833005251801] },
  { p := 132896956044521568488119, root := 6, bits := 77,
    factors := [2, 3, 22149492674086928081353] },
  { p := 29047611873442575647497758179, root := 2, bits := 95,
    factors := [2, 293, 305873, 545358713, 297159362677] },
  { p := 341948486974166000522343609283189, root := 2, bits := 109,
    factors := [2, 2, 3, 3, 3, 109, 29047611873442575647497758179] },
  { p := 255515944373312847190720520512484175977, root := 3, bits := 128,
    factors := [2, 2, 2, 7, 7, 11, 1627, 2657, 4423, 41201, 96557, 7240687, 107590001] },
  { p := 205115282021455665897114700593932402728804164701536103180137503955397371,
    root := 10, bits := 237,
    factors := [2, 3, 5, 29, 29, 31, 7723, 132896956044521568488119,
      255515944373312847190720520512484175977] },
  { p := 115792089237316195423570985008687907852837564279074904382605163141518161494337,
    root := 7, bits := 256,
    factors := [2, 2, 2, 2, 2, 2, 3, 149, 631, 107361793816595537, 174723607534414371449,
      341948486974166000522343609283189] },
  { p := 115792089237316195423570985008687907853269984665640564039457584007908834671663,
    root := 3, bits := 256,
    factors := [2, 3, 7, 13441,
      205115282021455665897114700593932402728804164701536103180137503955397371] }]

theorem smallPrimes_prime : ∀ q ∈ smallPrimes, q.Prime := by
  simp only [smallPrimes, List.forall_mem_cons]
  norm_num

theorem curve_primes_mem :
    fieldPrime ∈ certificates.map Certificate.p ∧ groupOrder ∈ certificates.map Certificate.p := by
  decide +kernel

theorem certificates_certified : Certified smallPrimes certificates := by
  decide +kernel

theorem fieldPrime_prime : fieldPrime.Prime :=
  certificates_certified.prime smallPrimes_prime curve_primes_mem.1

theorem groupOrder_prime : groupOrder.Prime :=
  certificates_certified.prime smallPrimes_prime curve_primes_mem.2

instance : Fact fieldPrime.Prime := ⟨fieldPrime_prime⟩

instance : Fact groupOrder.Prime := ⟨groupOrder_prime⟩

end PrplHypervisor.UEcc
