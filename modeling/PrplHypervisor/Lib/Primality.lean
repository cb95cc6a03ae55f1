import Mathlib.Data.List.Prime
import Mathlib.NumberTheory.LucasPrimality
import Mathlib.Tactic.NormNum.Prime

/-!
# Large primes

A certificate names a primitive root of `p` and the prime factors of `p - 1`; the powers it has
to have are computed by squaring. `Certified known cs` is a chain of certificates whose factors
are known or certified before, `Certified.prime` says what it is good for.
-/

namespace PrplHypervisor.Primality

/-- `a ^ e % m`, for an `e` of at most `bits` bits. -/
def powMod (m a : Nat) : Nat → Nat → Nat
  | 0, _ => 1 % m
  | bits + 1, e => powMod m a bits (e / 2) ^ 2 * (if e % 2 = 1 then a else 1) % m

theorem powMod_eq {m a bits e : Nat} (he : e < 2 ^ bits) : powMod m a bits e = a ^ e % m := by
  induction bits generalizing e with
  | zero =>
    rw [Nat.lt_one_iff.mp he, Nat.pow_zero]
    rfl
  | succ bits ih =>
    rw [Nat.pow_succ] at he
    have hbit : (if e % 2 = 1 then a else 1) = a ^ (e % 2) := by
      obtain h | h := Nat.mod_two_eq_zero_or_one e
      · rw [h, Nat.pow_zero, if_neg Nat.zero_ne_one]
      · rw [h, Nat.pow_one, if_pos rfl]
    rw [powMod, ih (by omega), hbit, Nat.mul_mod, ← Nat.pow_mod, ← Nat.mul_mod, ← Nat.pow_mul,
      ← Nat.pow_add, Nat.mul_comm, Nat.div_add_mod]

/-- A primitive root of `p`, a number of `bits` bits, and the factors of `p - 1`. -/
structure Certificate where
  p : Nat
  root : Nat
  bits : Nat
  factors : List Nat

structure Certificate.Passes (c : Certificate) : Prop where
  lt : 1 < c.p ∧ c.p < 2 ^ c.bits
  prod : c.factors.prod = c.p - 1
  power : powMod c.p c.root c.bits (c.p - 1) = 1
  parts : ∀ q ∈ c.factors, powMod c.p c.root c.bits ((c.p - 1) / q) ≠ 1

instance (c : Certificate) : Decidable c.Passes :=
  decidable_of_iff ((1 < c.p ∧ c.p < 2 ^ c.bits) ∧ c.factors.prod = c.p - 1 ∧
      powMod c.p c.root c.bits (c.p - 1) = 1 ∧
      ∀ q ∈ c.factors, powMod c.p c.root c.bits ((c.p - 1) / q) ≠ 1)
    ⟨fun ⟨hlt, hprod, hpower, hparts⟩ => ⟨hlt, hprod, hpower, hparts⟩,
      fun ⟨hlt, hprod, hpower, hparts⟩ => ⟨hlt, hprod, hpower, hparts⟩⟩

theorem zmod_pow_eq_one_iff {p a e : Nat} (hp : 1 < p) :
    (a : ZMod p) ^ e = 1 ↔ a ^ e % p = 1 := by
  rw [← Nat.cast_pow, ← Nat.cast_one, ZMod.natCast_eq_natCast_iff', Nat.mod_eq_of_lt hp]

theorem Certificate.Passes.prime {c : Certificate} (h : c.Passes)
    (hfactors : ∀ q ∈ c.factors, q.Prime) : c.p.Prime := by
  obtain ⟨⟨hp, hbits⟩, hprod, hpower, hparts⟩ := h
  have hlt : c.p - 1 < 2 ^ c.bits := by omega
  refine lucas_primality c.p c.root ?_ fun q hq hdvd => ?_
  · rw [zmod_pow_eq_one_iff hp, ← powMod_eq hlt]
    exact hpower
  · rw [← hprod, hq.prime.dvd_prod_iff] at hdvd
    obtain ⟨r, hr, hqr⟩ := hdvd
    obtain rfl := (Nat.prime_dvd_prime_iff_eq hq (hfactors r hr)).mp hqr
    have hle := Nat.div_le_self (c.p - 1) q
    rw [Ne, zmod_pow_eq_one_iff hp, ← powMod_eq (Nat.lt_of_le_of_lt hle hlt)]
    exact hparts q hr

/-- Every certificate passes, and its factors are known by then. -/
def Certified : List Nat → List Certificate → Prop
  | _, [] => True
  | known, c :: cs => (∀ q ∈ c.factors, q ∈ known) ∧ c.Passes ∧ Certified (c.p :: known) cs

instance decidableCertified : (known : List Nat) → (cs : List Certificate) →
    Decidable (Certified known cs)
  | _, [] => isTrue trivial
  | known, c :: cs =>
    have := decidableCertified (c.p :: known) cs
    inferInstanceAs (Decidable ((∀ q ∈ c.factors, q ∈ known) ∧ c.Passes ∧ _))

theorem Certified.prime {known : List Nat} {cs : List Certificate} (h : Certified known cs)
    (hknown : ∀ q ∈ known, q.Prime) {p : Nat} (hp : p ∈ cs.map Certificate.p) : p.Prime := by
  induction cs generalizing known with
  | nil => cases hp
  | cons c cs ih =>
    obtain ⟨hfactors, hpasses, hrest⟩ := h
    have hprime := hpasses.prime fun q hq => hknown q (hfactors q hq)
    obtain rfl | hp := List.mem_cons.mp hp
    · exact hprime
    · exact ih hrest (List.forall_mem_cons.mpr ⟨hprime, hknown⟩) hp

end PrplHypervisor.Primality
