import P4Ubpf.Scanf

/-!
# Numbers as text

How `printf` spells numbers in base ten, and that C's readers of numbers give
back what was spelled.
-/

namespace P4Ubpf

/-- The text of `%lu`, the last digit coming off the end. -/
def decimal (n : ℕ) : List UInt8 :=
  if n < 10 then [UInt8.ofNat (48 + n)] else decimal (n / 10) ++ [UInt8.ofNat (48 + n % 10)]
termination_by n

/-- The text of `%d`. -/
def decimalInt (z : Int) : List UInt8 := if z < 0 then 45 :: decimal z.natAbs else decimal z.natAbs

theorem digit_byte {d : ℕ} (hd : d < 10) : isdigit (UInt8.ofNat (48 + d)) = true ∧ (UInt8.ofNat (48 + d)).toNat - 48 = d := by
  have hval : (UInt8.ofNat (48 + d)).toNat = 48 + d := by
    rw [UInt8.toNat_ofNat']; omega
  refine ⟨?_, by omega⟩
  simp only [isdigit, Bool.and_eq_true, decide_eq_true_eq, UInt8.le_iff_toNat_le, hval]
  exact ⟨Nat.le_add_right _ _, by change 48 + d ≤ 57; omega⟩

theorem digits_concat {ds : List UInt8} {b : UInt8} (hd : ∀ c ∈ ds, isdigit c = true) (hb : isdigit b = true) :
    digits (ds ++ [b]) = 10 * digits ds + (b.toNat - 48) := by
  have hall : ∀ c ∈ ds ++ [b], isdigit c = true := List.forall_mem_append.mpr ⟨hd, by simpa using hb⟩
  rw [digits, digits, List.takeWhile_eq_self_iff.mpr hall, List.takeWhile_eq_self_iff.mpr hd, List.foldl_append]; rfl

theorem decimal_spec (n : ℕ) : decimal n ≠ [] ∧ (∀ b ∈ decimal n, isdigit b = true) ∧ digits (decimal n) = n := by
  induction n using Nat.strongRecOn with
  | ind n ih =>
    rw [decimal]
    by_cases hn : n < 10
    · rw [if_pos hn]
      obtain ⟨hb, hval⟩ := digit_byte hn
      refine ⟨List.cons_ne_nil _ _, by simpa using hb, ?_⟩
      have hone := @digits_concat [] _ (by simp) hb
      rw [List.nil_append] at hone
      rw [hone, hval]
      simp [digits]
    · rw [if_neg hn]
      obtain ⟨_, hall, hval⟩ := ih (n / 10) (by omega)
      obtain ⟨hb, hdigit⟩ := digit_byte (d := n % 10) (by omega)
      refine ⟨by simp, List.forall_mem_append.mpr ⟨hall, by simpa using hb⟩, ?_⟩
      rw [digits_concat hall hb, hval, hdigit]
      omega

section
variable (n : ℕ)

theorem decimal_ne_nil : decimal n ≠ [] := (decimal_spec n).1
theorem decimal_isdigit : ∀ b ∈ decimal n, isdigit b = true := (decimal_spec n).2.1
@[simp] theorem digits_decimal : digits (decimal n) = n := (decimal_spec n).2.2

theorem decimal_cons : ∃ b ds, decimal n = b :: ds ∧ isdigit b = true ∧ ∀ c ∈ ds, isdigit c = true := by
  obtain ⟨b, ds, hds⟩ := List.exists_cons_of_ne_nil (decimal_ne_nil n)
  have hall := decimal_isdigit n
  rw [hds] at hall
  exact ⟨b, ds, hds, (List.forall_mem_cons.mp hall).1, (List.forall_mem_cons.mp hall).2⟩

theorem decimal_numeral : Numeral (decimal n) := by
  obtain ⟨b, ds, hds, hb, hd⟩ := decimal_cons n
  rw [hds]
  exact @Numeral.spelled [] [] ds b (fun c hc => by cases hc) .none hb hd

end

theorem decimal_length {n k : ℕ} (h : n < 10 ^ (k + 1)) : (decimal n).length ≤ k + 1 := by
  induction k generalizing n with
  | zero =>
    rw [decimal, if_pos (by omega)]; rfl
  | succ k ih =>
    rw [decimal]
    split
    · simp
    · have hlt : n / 10 < 10 ^ (k + 1) := by
        rw [Nat.div_lt_iff_lt_mul (by decide), ← pow_succ]; exact h
      have hrest := ih hlt
      rw [List.length_append, List.length_singleton]
      omega

theorem isdigit_ne {b c : UInt8} (hb : isdigit b = true) (hc : isdigit c = false) : b ≠ c := by
  intro he
  subst he
  rw [hb] at hc
  cases hc

theorem dropWhile_digit {b : UInt8} (hb : isdigit b = true) (s : List UInt8) :
    (b :: s).dropWhile isspace = b :: s :=
  List.dropWhile_cons_of_neg (by rw [(isspace_digit hb).1]; exact Bool.false_ne_true)

theorem strtoull_spelled {n : ℕ} (hn : n < 2 ^ 64) : strtoull (decimal n) = UInt64.ofNat n := by
  obtain ⟨b, ds, hds, hb, _⟩ := decimal_cons n
  have hval := digits_decimal n
  rw [hds] at hval ⊢
  rw [strtoull_digit (dropWhile_digit hb ds) hb, hval, saturate, if_pos hn]

end P4Ubpf
