import P4Ubpf.Bytes
import P4Ubpf.Slots

/-!
# The memory payload

`p4agent.c`, what `main` packs and encrypts in every round: the TCP threshold
in the upper half of a 64-bit word, the used bytes in the lower one. Neither is
cut to 32 bits, so used bytes from 4 GiB on run into the threshold's half.
-/

namespace P4Ubpf.Agent

def usedBytes (usedPages pagesize : UInt64) : UInt64 := usedPages * pagesize

def combined (threshold usedBytes : UInt64) : UInt64 := (threshold <<< 32) ||| usedBytes

/-- `data[7 - i] = (combined >> (i * 8)) & 0xFF;` -/
def payload (combined : UInt64) : List UInt8 :=
  (List.range 8).reverse.map fun i => ((combined >>> UInt64.ofNat (i * 8)) &&& 0xFF).toUInt8

section
variable (c : UInt64)

theorem payload_byte {i : ℕ} (hi : i < 8) :
    ((c >>> UInt64.ofNat (i * 8)) &&& 0xFF).toUInt8 = UInt8.ofNat (c.toNat / 256 ^ i) := by
  apply UInt8.toNat_inj.mp
  have hshift : (UInt64.ofNat (i * 8)).toNat % 64 = i * 8 := by
    rw [UInt64.toNat_ofNat']; omega
  have hmask : ∀ n : ℕ, n &&& 255 = n % 256 := fun n => Nat.and_two_pow_sub_one_eq_mod n 8
  simp only [UInt64.toNat_toUInt8, UInt64.toNat_and, UInt64.toNat_shiftRight, hshift, UInt8.toNat_ofNat']
  rw [show (255 : UInt64).toNat = 255 from rfl, hmask, Nat.shiftRight_eq_div_pow, Nat.mul_comm i 8, pow_mul]
  simp

theorem payload_eq : payload c = BigEndian.ofNat 8 c.toNat := by
  have hrange : ∀ k ≤ 8, ((List.range k).reverse.map fun i => ((c >>> UInt64.ofNat (i * 8)) &&& 0xFF).toUInt8) =
      BigEndian.ofNat k c.toNat := by
    intro k
    induction k with
    | zero => intro _; rfl
    | succ k ih =>
      intro hk
      rw [List.range_succ, List.reverse_append, List.reverse_singleton, List.singleton_append, List.map_cons,
        payload_byte c (by omega), ih (by omega)]; rfl
  exact hrange 8 le_rfl

theorem payload_halves : BigEndian.toNat ((payload c).take 4) = c.toNat / 2 ^ 32 ∧
    BigEndian.toNat ((payload c).drop 4) = c.toNat % 2 ^ 32 := by
  have hlt := c.toNat_lt
  rw [payload_eq, BigEndian.ofNat_add 4 4, List.take_left' (BigEndian.length_ofNat 4 _),
    List.drop_left' (BigEndian.length_ofNat 4 _), BigEndian.toNat_ofNat, BigEndian.toNat_ofNat]
  omega

end

theorem combined_halves (threshold used : UInt64) :
    (combined threshold used).toNat / 2 ^ 32 = threshold.toNat % 2 ^ 32 ||| used.toNat / 2 ^ 32 ∧
    (combined threshold used).toNat % 2 ^ 32 = used.toNat % 2 ^ 32 := by
  have hor : (combined threshold used).toNat = (threshold.toNat * 2 ^ 32 % 2 ^ 64) ||| used.toNat := by
    rw [combined, UInt64.toNat_or, UInt64.toNat_shiftLeft, Nat.shiftLeft_eq]; rfl
  rw [hor]
  constructor
  · rw [← Nat.shiftRight_eq_div_pow, Nat.shiftRight_or_distrib, Nat.shiftRight_eq_div_pow, Nat.shiftRight_eq_div_pow]
    congr 1
    omega
  · rw [Nat.or_mod_two_pow, show threshold.toNat * 2 ^ 32 % 2 ^ 64 % 2 ^ 32 = 0 by omega, Nat.zero_or]

/-- **The payload determines both numbers** exactly when each fits its half. -/
theorem payload_decodes_iff (threshold usedPages pagesize : UInt64) :
    (BigEndian.toNat ((payload (combined threshold (usedBytes usedPages pagesize))).take 4) = threshold.toNat ∧
      BigEndian.toNat ((payload (combined threshold (usedBytes usedPages pagesize))).drop 4) =
        usedPages.toNat * pagesize.toNat) ↔
    threshold.toNat < 2 ^ 32 ∧ usedPages.toNat * pagesize.toNat < 2 ^ 32 := by
  obtain ⟨hhi, hlo⟩ := payload_halves (combined threshold (usedBytes usedPages pagesize))
  obtain ⟨chi, clo⟩ := combined_halves threshold (usedBytes usedPages pagesize)
  have hused : (usedBytes usedPages pagesize).toNat = usedPages.toNat * pagesize.toNat % 2 ^ 64 := by
    rw [usedBytes, UInt64.toNat_mul]
  have hupper := (combined threshold (usedBytes usedPages pagesize)).toNat_lt
  rw [hhi, hlo, clo, hused]
  constructor
  · intro hx
    obtain ⟨ht, hu⟩ := hx
    omega
  · intro hx
    obtain ⟨ht, hu⟩ := hx
    rw [chi, hused, show usedPages.toNat * pagesize.toNat % 2 ^ 64 / 2 ^ 32 = 0 by omega, Nat.or_zero]
    omega

/-- 4 GiB of used memory read as a threshold of one page. -/
theorem payload_collides : usedBytes 1048576 4096 = 4294967296 ∧
    payload (combined 0 (usedBytes 1048576 4096)) = payload (combined 1 (usedBytes 0 4096)) ∧
    BigEndian.toNat ((payload (combined 0 (usedBytes 1048576 4096))).take 4) = 1 := by
  refine ⟨by decide, by decide, by decide⟩

end P4Ubpf.Agent
