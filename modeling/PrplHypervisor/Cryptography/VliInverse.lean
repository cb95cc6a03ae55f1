import PrplHypervisor.Cryptography.VliMod
import PrplHypervisor.Lib.BinaryInverse
import PrplHypervisor.Lib.While

/-!
# Inverses of large integers (cryptography/uECC.c)

`uECC_vli_modInv` is the binary algorithm on words. `toState_body` says that one round of its
loop is a step of the algorithm on the numbers.

- `modInvLoop_ends`: the loop ends after at most as many rounds as the operands have bits.
- `vliModInv_quotient`: the result times the input is their greatest common divisor.
-/

namespace PrplHypervisor.UEcc

open Limbs BinaryInverse While

variable {w : Nat}

/-- `EVEN`. -/
def even (vli : Vli w) : Bool := vli.getD 0 0 &&& 1 == 0

/-- `vli_modInv_update`. -/
def modInvUpdate (uv mod : Vli w) : Vli w :=
  let add := vliAdd uv mod
  let carry := if even uv then 0 else add.2
  let uv := vliRshift1 (if even uv then uv else add.1)
  let last := mod.length - 1
  if carry ≠ 0 then uv.set last (uv.getD last 0 ||| (1 : BitVec w) <<< (w - 1)) else uv

/-- The variables of `uECC_vli_modInv`. -/
structure InvVars (w : Nat) where
  a : Vli w
  b : Vli w
  u : Vli w
  v : Vli w

/-- `u - v`, with `mod` added to a smaller `u`. -/
def invSub (u v mod : Vli w) : Vli w :=
  let u := if vliCmpUnsafe u v < 0 then (vliAdd u mod).1 else u
  (vliSub u v).1

/-- One round of the loop. -/
def invBody (mod : Vli w) (s : InvVars w) : InvVars w :=
  if even s.a then { s with a := vliRshift1 s.a, u := modInvUpdate s.u mod }
  else if even s.b then { s with b := vliRshift1 s.b, v := modInvUpdate s.v mod }
  else if vliCmpUnsafe s.a s.b > 0 then
    { s with
      a := vliRshift1 (vliSub s.a s.b).1
      u := modInvUpdate (invSub s.u s.v mod) mod }
  else
    { s with
      b := vliRshift1 (vliSub s.b s.a).1
      v := modInvUpdate (invSub s.v s.u mod) mod }

/-- The condition of the loop. -/
def invCond (s : InvVars w) : Bool := vliCmpUnsafe s.a s.b != 0

def invInit (input mod : Vli w) : InvVars w :=
  { a := input
    b := mod
    u := (vliClear w mod.length).set 0 1
    v := vliClear w mod.length }

/-- The loop of `uECC_vli_modInv`, at most `rounds` rounds of it. -/
def modInvLoop (rounds : Nat) (input mod : Vli w) : Option (InvVars w) :=
  whileLoop invCond (invBody mod) rounds (invInit input mod)

/-- `uECC_vli_modInv`; `modInvLoop_ends` says that the rounds are enough. -/
def vliModInv (input mod : Vli w) : Vli w :=
  if vliIsZero input then vliClear w mod.length
  else ((modInvLoop (2 * (w * mod.length)) input mod).map InvVars.u).getD []

/-! ## One round -/

theorem even_iff (hw : 0 < w) (vli : Vli w) : even vli = true ↔ value vli % 2 = 0 := by
  have hone : (1 : BitVec w).toNat = 1 := Nat.mod_eq_of_lt (Nat.one_lt_two_pow (Nat.ne_of_gt hw))
  have hmod := value_drop_mod_two hw vli 0
  rw [List.drop_zero] at hmod
  rw [even, beq_iff_eq, hmod, ← Nat.and_one_is_mod, ← hone, ← BitVec.toNat_and,
    ← toNat_zero (w := w)]
  exact BitVec.toNat_inj.symm

section Update

variable {n : Nat} {mod uv u v : Vli w}

theorem modInvUpdate_length (hmod : mod.length = n) (huv : uv.length = n) :
    (modInvUpdate uv mod).length = n := by
  have hadd := vliAdd_length (huv.trans hmod.symm)
  simp only [modInvUpdate]
  split_ifs <;> simp only [List.length_set, vliRshift1_length, hadd, huv]

/-- The carry of the addition comes back as the highest bit. -/
theorem modInvUpdate_value (hw : 0 < w) (hn : 0 < n) (hmod : mod.length = n)
    (huv : uv.length = n) : value (modInvUpdate uv mod) = half (value mod) (value uv) := by
  have hlen := huv.trans hmod.symm
  have hadd := vliAdd_length hlen
  have hspec := vliAdd_spec hlen
  have hbound := value_lt (vliAdd uv mod).1
  rw [hadd, huv] at hbound
  rw [huv, two_pow_words hw hn] at hspec
  simp only [modInvUpdate, hmod]
  by_cases heven : even uv = true
  · rw [if_pos heven, if_pos heven, if_neg (not_not.mpr rfl), vliRshift1_value hw, half,
      if_pos ((even_iff hw uv).mp heven)]
  · have hodd : half (value mod) (value uv) = (value uv + value mod) / 2 := by
      rw [half, if_neg ((even_iff hw uv).not.mp heven)]
    rw [if_neg heven, if_neg heven, hodd]
    by_cases hcarry : (vliAdd uv mod).2 = 0
    · rw [hcarry, toNat_zero, Nat.mul_zero, Nat.add_zero] at hspec
      rw [if_neg (not_not.mpr hcarry), vliRshift1_value hw, hspec]
    · have hle := vliAdd_carry_le hlen
      have hne : (vliAdd uv mod).2.toNat ≠ 0 := fun h =>
        hcarry (BitVec.eq_of_toNat_eq (h.trans toNat_zero.symm))
      have htop : ((1 : BitVec w) <<< (w - 1)).toNat = 2 ^ (w - 1) * 1 := by
        rw [toNat_shiftLeft_pred hw, toNat_one_of_ne hcarry]
      have hset := value_set_top hw hn ((vliRshift1_length _).trans (hadd.trans huv))
        (by rw [vliRshift1_value hw]; omega) htop
      rw [if_pos hcarry, hset, vliRshift1_value hw]
      rw [show (vliAdd uv mod).2.toNat = 1 by omega] at hspec
      omega

theorem invSub_length (hu : u.length = n) (hv : v.length = n) (hmod : mod.length = n) :
    (invSub u v mod).length = n := by
  have hadd := vliAdd_length (hu.trans hmod.symm)
  simp only [invSub]
  split_ifs
  · rw [vliSub_length (by rw [hadd, hu, hv]), hadd, hu]
  · rw [vliSub_length (by rw [hu, hv]), hu]

/-- The addition may wrap around, the subtraction then wraps back. -/
theorem invSub_value (hu : u.length = n) (hv : v.length = n) (hmod : mod.length = n)
    (hlt : value v < value mod) : value (invSub u v mod) = sub (value mod) (value u) (value v) := by
  have hlen := hu.trans hv.symm
  have hadd := vliAdd_length (hu.trans hmod.symm)
  have hbound := value_lt mod
  rw [hmod] at hbound
  simp only [invSub, sub, vliCmpUnsafe_neg_iff hlen]
  split_ifs with hcmp
  · have hvalue := vliAdd_value (hu.trans hmod.symm)
    rw [hu] at hvalue
    by_cases hover : value u + value mod < 2 ^ (w * n)
    · rw [Nat.mod_eq_of_lt hover] at hvalue
      rw [vliSub_value_of_le (by rw [hadd, hu, hv]) (by omega), hvalue]
    · rw [Nat.mod_eq_sub_mod (by omega), Nat.mod_eq_of_lt (by omega)] at hvalue
      rw [vliSub_value_of_lt (by rw [hadd, hu, hv]) (by omega), hvalue, hadd, hu]
      omega
  · exact vliSub_value_of_le hlen (by omega)

end Update

/-- The numbers of the variables. -/
def InvVars.toState (s : InvVars w) : State :=
  { a := value s.a, b := value s.b, u := value s.u, v := value s.v }

/-- All variables have the words of the modulus. -/
structure InvVars.Sized (n : Nat) (s : InvVars w) : Prop where
  a : s.a.length = n
  b : s.b.length = n
  u : s.u.length = n
  v : s.v.length = n

section Body

variable {n : Nat} {mod : Vli w} {s : InvVars w}

theorem sized_body (hmod : mod.length = n) (h : s.Sized n) : (invBody mod s).Sized n := by
  obtain ⟨ha, hb, hu, hv⟩ := h
  have hab := vliSub_length (ha.trans hb.symm)
  have hba := vliSub_length (hb.trans ha.symm)
  simp only [invBody]
  split_ifs
  · exact ⟨by rw [vliRshift1_length, ha], hb, modInvUpdate_length hmod hu, hv⟩
  · exact ⟨ha, by rw [vliRshift1_length, hb], hu, modInvUpdate_length hmod hv⟩
  · exact ⟨by rw [vliRshift1_length, hab, ha], hb,
      modInvUpdate_length hmod (invSub_length hu hv hmod), hv⟩
  · exact ⟨ha, by rw [vliRshift1_length, hba, hb], hu,
      modInvUpdate_length hmod (invSub_length hv hu hmod)⟩

/-- A round on the words is a step on the numbers. -/
theorem toState_body (hw : 0 < w) (hn : 0 < n) (hmod : mod.length = n) (h : s.Sized n)
    (hu : value s.u < value mod) (hv : value s.v < value mod) :
    (invBody mod s).toState = step (value mod) s.toState := by
  obtain ⟨ha, hb, hulen, hvlen⟩ := h
  have hab := ha.trans hb.symm
  by_cases hae : even s.a = true
  · have hae' : s.toState.a % 2 = 0 := (even_iff hw s.a).mp hae
    rw [invBody, if_pos hae, step, if_pos hae']
    simp only [InvVars.toState, vliRshift1_value hw, modInvUpdate_value hw hn hmod hulen]
  have hae' : ¬s.toState.a % 2 = 0 := (even_iff hw s.a).not.mp hae
  by_cases hbe : even s.b = true
  · have hbe' : s.toState.b % 2 = 0 := (even_iff hw s.b).mp hbe
    rw [invBody, if_neg hae, if_pos hbe, step, if_neg hae', if_pos hbe']
    simp only [InvVars.toState, vliRshift1_value hw, modInvUpdate_value hw hn hmod hvlen]
  have hbe' : ¬s.toState.b % 2 = 0 := (even_iff hw s.b).not.mp hbe
  by_cases hcmp : vliCmpUnsafe s.a s.b > 0
  · have hlt : s.toState.b < s.toState.a := (vliCmpUnsafe_pos_iff hab).mp hcmp
    rw [invBody, if_neg hae, if_neg hbe, if_pos hcmp, step, if_neg hae', if_neg hbe', if_pos hlt]
    simp only [InvVars.toState, vliRshift1_value hw, vliSub_value_of_le hab (Nat.le_of_lt hlt),
      modInvUpdate_value hw hn hmod (invSub_length hulen hvlen hmod),
      invSub_value hulen hvlen hmod hv]
  · have hle : ¬s.toState.b < s.toState.a := (vliCmpUnsafe_pos_iff hab).not.mp hcmp
    rw [invBody, if_neg hae, if_neg hbe, if_neg hcmp, step, if_neg hae', if_neg hbe', if_neg hle]
    simp only [InvVars.toState, vliRshift1_value hw,
      vliSub_value_of_le hab.symm (Nat.le_of_not_lt hle),
      modInvUpdate_value hw hn hmod (invSub_length hvlen hulen hmod),
      invSub_value hvlen hulen hmod hu]

end Body

/-! ## The loop -/

section Inverse

variable {input mod : Vli w}

/-- `u[0] = 1` in cleared words. -/
theorem value_one (hw : 0 < w) {n : Nat} (hn : 0 < n) : value ((vliClear w n).set 0 1) = 1 := by
  obtain ⟨m, rfl⟩ := Nat.exists_eq_succ_of_ne_zero (Nat.ne_of_gt hn)
  have hone : (1 : BitVec w).toNat = 1 := Nat.mod_eq_of_lt (Nat.one_lt_two_pow (Nat.ne_of_gt hw))
  rw [vliClear, List.replicate_succ, List.set_cons_zero, value_cons, value_replicate_zero, hone,
    Nat.mul_zero, Nat.add_zero]

theorem pos_of_lt_value {mod : Vli w} (h : 1 < value mod) : 0 < w ∧ 0 < mod.length := by
  have hlt := value_lt mod
  have hpos : 0 < w * mod.length := by
    refine Nat.pos_of_ne_zero fun hzero => ?_
    rw [hzero] at hlt
    omega
  exact ⟨Nat.pos_of_mul_pos_right hpos, Nat.pos_of_mul_pos_left hpos⟩

/-- What holds before a round when at most `k` rounds are left. -/
structure InvRounds (input mod : Vli w) (k : Nat) (s : InvVars w) : Prop where
  sized : s.Sized mod.length
  inv : Inv (value mod) (value input) s.toState
  rounds : bits s.toState ≤ k

theorem invCond_iff {s : InvVars w} {n : Nat} (h : s.Sized n) :
    invCond s = true ↔ s.toState.a ≠ s.toState.b := by
  have hlen := h.a.trans h.b.symm
  have hcmp := vliCmpUnsafe_eq_zero_iff hlen
  rw [invCond, bne_iff_ne, Ne, hcmp]
  exact not_congr ⟨congrArg value, value_inj hlen⟩

theorem InvRounds.step {k : Nat} {s : InvVars w} (hmod : 1 < value mod)
    (h : InvRounds input mod k s) (hcond : invCond s = true) :
    ∃ m < k, InvRounds input mod m (invBody mod s) := by
  obtain ⟨hw, hn⟩ := pos_of_lt_value hmod
  obtain ⟨hnext, hless⟩ := h.inv.step ((invCond_iff h.sized).mp hcond)
  rw [← toState_body hw hn rfl h.sized h.inv.left.1 h.inv.right.1] at hnext hless
  exact ⟨_, Nat.lt_of_lt_of_le hless h.rounds, sized_body rfl h.sized, hnext, Nat.le_refl _⟩

theorem invRounds_init (hlen : input.length = mod.length) (hodd : value mod % 2 = 1)
    (hmod : 1 < value mod) (hinput : value input ≠ 0) :
    InvRounds input mod (2 * (w * mod.length)) (invInit input mod) := by
  obtain ⟨hw, hn⟩ := pos_of_lt_value hmod
  have hzero : value (vliClear w mod.length) = 0 := value_replicate_zero _
  refine ⟨⟨hlen, rfl, ?_, ?_⟩, ?_, ?_⟩
  · rw [invInit, List.length_set, vliClear, List.length_replicate]
  · rw [invInit, vliClear, List.length_replicate]
  · rw [invInit, InvVars.toState, value_one hw hn, hzero]
    exact inv_init hodd hmod (Nat.pos_of_ne_zero hinput)
  · have ha := Nat.size_le.mpr (value_lt input)
    have hb := Nat.size_le.mpr (value_lt mod)
    rw [hlen] at ha
    simp only [bits, invInit, InvVars.toState]
    omega

/-- The loop ends, and `u` is what the algorithm promises. -/
theorem modInvLoop_ends (hlen : input.length = mod.length) (hodd : value mod % 2 = 1)
    (hmod : 1 < value mod) (hinput : value input ≠ 0) :
    ∃ s, modInvLoop (2 * (w * mod.length)) input mod = some s ∧ s.u.length = mod.length ∧
      Quotient (value mod) (value input) ((value input).gcd (value mod)) (value s.u) := by
  obtain ⟨k, s, hrun, h, hend⟩ := whileLoop_total (InvRounds input mod)
    (fun k s h hcond => h.step hmod hcond) (invRounds_init hlen hodd hmod hinput) (Nat.le_refl _)
  have heq : s.toState.a = s.toState.b := by
    have hne := (invCond_iff h.sized).not
    rw [hend] at hne
    exact not_not.mp (hne.mp (by decide))
  exact ⟨s, hrun, h.sized.u, h.inv.result heq⟩

theorem vliModInv_zero (hinput : value input = 0) :
    vliModInv input mod = vliClear w mod.length := by
  rw [vliModInv, if_pos ((vliIsZero_iff input).mpr hinput)]

theorem vliModInv_quotient (hlen : input.length = mod.length) (hodd : value mod % 2 = 1)
    (hmod : 1 < value mod) (hinput : value input ≠ 0) :
    (vliModInv input mod).length = mod.length ∧
      Quotient (value mod) (value input) ((value input).gcd (value mod))
        (value (vliModInv input mod)) := by
  obtain ⟨s, hrun, hulen, hquotient⟩ := modInvLoop_ends hlen hodd hmod hinput
  have hresult : vliModInv input mod = s.u := by
    rw [vliModInv, if_neg ((vliIsZero_iff input).not.mpr hinput), hrun]
    rfl
  rw [hresult]
  exact ⟨hulen, hquotient⟩

/-- The loop ends, and the result times the input is their greatest common divisor. -/
theorem vliModInv_inverse (hlen : input.length = mod.length) (hodd : value mod % 2 = 1)
    (hmod : 1 < value mod) (hinput : value input ≠ 0) :
    (modInvLoop (2 * (w * mod.length)) input mod).isSome ∧
      (vliModInv input mod).length = mod.length ∧
      value (vliModInv input mod) < value mod ∧
      value (vliModInv input mod) * value input ≡
        (value input).gcd (value mod) [MOD value mod] := by
  obtain ⟨s, hrun, -⟩ := modInvLoop_ends hlen hodd hmod hinput
  have hsome : (modInvLoop (2 * (w * mod.length)) input mod).isSome := by
    rw [hrun]
    rfl
  exact ⟨hsome, vliModInv_quotient hlen hodd hmod hinput⟩

theorem vliModInv_inverse_three :
    value (vliModInv ([3] : Vli 8) [7]) * 3 ≡ 1 [MOD 7] :=
  (@vliModInv_inverse 8 [3] [7] rfl rfl (by decide) (by decide)).2.2.2

end Inverse

end PrplHypervisor.UEcc
