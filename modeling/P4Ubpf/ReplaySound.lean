import P4Ubpf.Agent
import Mathlib.Algebra.BigOperators.Fin

/-!
# What replayed counters can add up to

A triple is bound neither to its slot nor to its runtime, because the
additional data is empty. So every slot may count a runtime's largest counter
once more, and nothing else.
-/

namespace P4Ubpf.Agent

/-! ## The sum in natural numbers -/

def credit (decrypt : AesGcmDecrypt) (c : PacketCount) : ℕ :=
  if (decryptCounter decrypt c).1 = 0 then (decryptCounter decrypt c).2.toNat else 0

theorem sumExecutions_le (decrypt : AesGcmDecrypt) (t : Table) :
    (sumExecutions decrypt t).toNat ≤ ∑ i, credit decrypt (t i) := by
  have hfold : ∀ (is : List (Fin maxConnections)) (e : UInt64),
      (is.foldl (fun executions i => addCounter decrypt executions (t i)) e).toNat ≤
      e.toNat + (is.map fun i => credit decrypt (t i)).sum := by
    intro is
    induction is with
    | nil => intro e; simp
    | cons i is ih =>
      intro e
      rw [List.foldl_cons, List.map_cons, List.sum_cons]
      apply Nat.le_trans (ih _)
      simp only [credit, addCounter]
      split
      · have hadd : (e + (decryptCounter decrypt (t i)).2).toNat ≤ e.toNat + (decryptCounter decrypt (t i)).2.toNat := by
          rw [UInt64.toNat_add]; exact Nat.mod_le _ _
        omega
      · omega
  have hall := hfold (List.finRange maxConnections) 0
  rw [Fin.sum_univ_def]
  simpa [sumExecutions, Slots.all] using hall

/-! ## Sealed triples -/

section
variable {n : ℕ} (triples : Fin n → List (PacketCount × ℕ))

/-- Nothing authenticates but the triples the runtimes have sealed, each for
its own counter value. -/
def Ideal (decrypt : AesGcmDecrypt) : Prop := ∀ c, (decryptCounter decrypt c).1 = 0 →
  ∃ r, (c, (decryptCounter decrypt c).2.toNat) ∈ triples r

def SealedBy (r : Fin n) (c : PacketCount) : Prop := c ∈ (triples r).map Prod.fst

instance (r : Fin n) : DecidablePred (SealedBy triples r) := fun c =>
  inferInstanceAs (Decidable (c ∈ (triples r).map Prod.fst))

def largest (r : Fin n) : ℕ := ((triples r).map Prod.snd).foldr max 0

variable {triples}

theorem le_largest {r : Fin n} {c : PacketCount} {v : ℕ} (h : (c, v) ∈ triples r) : v ≤ largest triples r := by
  unfold largest
  have hv : v ∈ (triples r).map Prod.snd := List.mem_map.mpr ⟨(c, v), h, rfl⟩
  generalize (triples r).map Prod.snd = vs at hv
  induction vs with
  | nil => cases hv
  | cons u vs ih =>
    rw [List.foldr_cons]
    rcases List.mem_cons.mp hv with rfl | hv
    · exact Nat.le_max_left _ _
    · exact Nat.le_trans (ih hv) (Nat.le_max_right _ _)

theorem credit_le {decrypt : AesGcmDecrypt} (hideal : Ideal triples decrypt) (c : PacketCount) :
    credit decrypt c ≤ ∑ r, if SealedBy triples r c then largest triples r else 0 := by
  unfold credit
  split
  · rename_i hret
    obtain ⟨r, hr⟩ := hideal c hret
    have hsealed : SealedBy triples r c := List.mem_map.mpr ⟨_, hr, rfl⟩
    have hle := Finset.single_le_sum (f := fun r => if SealedBy triples r c then largest triples r else 0)
      (fun _ _ => Nat.zero_le _) (Finset.mem_univ r)
    simp only [hsealed, ite_true] at hle
    exact Nat.le_trans (le_largest hr) hle
  · exact Nat.zero_le _

/-- **Replays.** The total is at most every runtime's largest counter times
the slots that hold its triples; and at most the sum of the largest counters
when no runtime's triples sit in two slots. -/
theorem replay_bound {decrypt : AesGcmDecrypt} (hideal : Ideal triples decrypt) (t : Table) :
    (sumExecutions decrypt t).toNat ≤ ∑ r, Slots.count (SealedBy triples r) t * largest triples r ∧
    ((∀ r i j, SealedBy triples r (t i) → SealedBy triples r (t j) → i = j) →
      (sumExecutions decrypt t).toNat ≤ ∑ r, largest triples r) := by
  have hbound : (sumExecutions decrypt t).toNat ≤ ∑ r, Slots.count (SealedBy triples r) t * largest triples r := by
    calc (sumExecutions decrypt t).toNat
        ≤ ∑ i, credit decrypt (t i) := sumExecutions_le decrypt t
      _ ≤ ∑ i, ∑ r, (if SealedBy triples r (t i) then largest triples r else 0) :=
          Finset.sum_le_sum fun i _ => credit_le hideal (t i)
      _ = ∑ r, ∑ i, (if SealedBy triples r (t i) then largest triples r else 0) := Finset.sum_comm
      _ = ∑ r, Slots.count (SealedBy triples r) t * largest triples r := by
          apply Finset.sum_congr rfl; intro r _
          rw [Slots.count_eq_sum, Finset.sum_mul]
          apply Finset.sum_congr rfl; intro i _
          split
          · rw [Nat.one_mul]
          · rw [Nat.zero_mul]
  refine ⟨hbound, ?_⟩
  intro hone
  apply Nat.le_trans hbound
  apply Finset.sum_le_sum; intro r _
  have hcount : Slots.count (SealedBy triples r) t ≤ 1 := by
    rw [Slots.count, Finset.card_le_one]
    intro i hi j hj
    exact hone r i j (by simpa using hi) (by simpa using hj)
  calc Slots.count (SealedBy triples r) t * largest triples r
      ≤ 1 * largest triples r := Nat.mul_le_mul_right _ hcount
    _ = largest triples r := Nat.one_mul _

end

/-! ## One triple in two slots -/

def sealings : Fin 1 → List (PacketCount × ℕ) := fun _ => [(sealedCount, 100)]

theorem opens100_ideal : Ideal sealings opens100 := by
  intro c hret
  by_cases hc : c = sealedCount
  · subst hc
    exact ⟨0, by decide +kernel⟩
  · have hne : ¬ (⟨c.iv, c.cipherText, c.authTag⟩ : PacketCount) = sealedCount := hc
    simp only [decryptCounter, opens100, onlyOpens, if_neg hne] at hret
    cases hret

theorem replay_bound_demo :
    (sumExecutions opens100 (copies 2)).toNat ≤ ∑ r, Slots.count (SealedBy sealings r) (copies 2) * largest sealings r ∧
    (sumExecutions opens100 (copies 1)).toNat ≤ ∑ r, largest sealings r :=
  ⟨(replay_bound opens100_ideal (copies 2)).1, (replay_bound opens100_ideal (copies 1)).2 (by decide +kernel)⟩

theorem replay_counts_twice : Ideal sealings opens100 ∧
    (∀ r, ((sealings r).map Prod.snd).Pairwise (· ≤ ·)) ∧ ∑ r, largest sealings r < 2 ^ 64 ∧
    ∑ r, largest sealings r < (sumExecutions opens100 (copies 2)).toNat := by
  refine ⟨opens100_ideal, by decide, by decide, by decide +kernel⟩

end P4Ubpf.Agent
