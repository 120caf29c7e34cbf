import Mathlib.Data.Fintype.Card
import Mathlib.Data.List.FinRange
import Mathlib.Algebra.BigOperators.Fin
import Mathlib.Algebra.BigOperators.Group.Finset.Piecewise
import Mathlib.Combinatorics.Enumerative.DoubleCounting

/-!
# Tables of a fixed number of slots

A table is a function from slot numbers. A loop over it with an early return
is `first?`; how many slots satisfy a predicate is `count`.
-/

namespace Slots

variable {n : ℕ} {α β : Type} {t : Fin n → α} {i : Fin n}

def all (n : ℕ) : List (Fin n) := List.finRange n

@[simp] theorem mem_all (i : Fin n) : i ∈ all n := List.mem_finRange i

/-- The lowest slot whose content satisfies `p`. -/
def first? (p : α → Prop) [DecidablePred p] (t : Fin n → α) : Option (Fin n) :=
  (all n).find? fun i => p (t i)

section
variable {p : α → Prop} [DecidablePred p]

theorem first?_spec (h : first? p t = some i) : p (t i) := by
  simpa using List.find?_some h

theorem first?_least (h : first? p t = some i) {j : Fin n} (hj : p (t j)) : i ≤ j := by
  obtain ⟨_, as, bs, heq, hno⟩ := List.find?_eq_some_iff_append.mp h
  have hsorted : (as ++ i :: bs).Pairwise (· < ·) := heq ▸ List.pairwise_lt_finRange n
  have hmem : j ∈ as ++ i :: bs := heq ▸ mem_all j
  rcases List.mem_append.mp hmem with hbefore | hafter
  · have hnot := hno j hbefore
    simp [hj] at hnot
  · rcases List.mem_cons.mp hafter with rfl | hafter
    · exact le_rfl
    · exact (List.rel_of_pairwise_cons (List.pairwise_append.mp hsorted).2.1 hafter).le

theorem first?_eq_none : first? p t = none ↔ ∀ i, ¬ p (t i) := by
  simp [first?]

theorem exists_first? (h : p (t i)) : ∃ j, first? p t = some j := by
  cases hf : first? p t with
  | none => exact absurd h (first?_eq_none.mp hf i)
  | some j => exact ⟨j, rfl⟩

end

def count (p : α → Prop) [DecidablePred p] (t : Fin n → α) : ℕ :=
  (Finset.univ.filter fun i => p (t i)).card

section
variable (p : α → Prop) [DecidablePred p] (q : α → Prop) [DecidablePred q]

theorem count_eq_sum (t : Fin n → α) : count p t = ∑ i, if p (t i) then 1 else 0 :=
  Finset.card_filter _ _

/-- Writing one slot changes the count by what leaves and what enters it. -/
theorem count_update (t : Fin n → α) (i : Fin n) (a : α) :
    count p (Function.update t i a) + (if p (t i) then 1 else 0) = count p t + (if p a then 1 else 0) := by
  have hrest : ∀ f : Fin n → α, count p f =
      (if p (f i) then 1 else 0) + ∑ j ∈ Finset.univ.erase i, if p (f j) then 1 else 0 := fun f => by
    rw [count_eq_sum, Finset.add_sum_erase _ (fun j => if p (f j) then 1 else 0) (Finset.mem_univ i)]
  have hsame : (∑ j ∈ Finset.univ.erase i, if p (Function.update t i a j) then 1 else 0) =
      ∑ j ∈ Finset.univ.erase i, if p (t j) then 1 else 0 := by
    apply Finset.sum_congr rfl; intro j hj
    rw [Function.update_of_ne (Finset.ne_of_mem_erase hj)]
  rw [hrest, hrest t, hsame, Function.update_self]
  omega

theorem length_filter_all (t : Fin n → α) : ((all n).filter fun i => p (t i)).length = count p t := by
  rw [count_eq_sum, Fin.sum_univ_def, ← List.countP_eq_length_filter, all]
  induction List.finRange n with
  | nil => rfl
  | cons i is ih =>
    rw [List.countP_cons, ih, List.map_cons, List.sum_cons, Nat.add_comm]
    simp only [decide_eq_true_eq]

theorem count_add {r : α → Prop} [DecidablePred r] {t : Fin n → α} (h : ∀ i, r (t i) ↔ p (t i) ∨ q (t i))
    (hpq : ∀ i, p (t i) → ¬ q (t i)) : count r t = count p t + count q t := by
  rw [count, count, count, ← Finset.card_union_of_disjoint]
  · congr 1
    ext i
    simp [h i]
  · rw [Finset.disjoint_filter]
    intro i _ hp
    exact hpq i hp

theorem count_update_of_iff {i : Fin n} {a : α} (h : p (t i) ↔ p a) :
    count p (Function.update t i a) = count p t := by
  have hc := count_update p t i a
  by_cases ha : p a
  · simp only [h.mpr ha, ha, ite_true] at hc; omega
  · simp only [show ¬ p (t i) from fun hi => ha (h.mp hi), ha, ite_false] at hc; omega

theorem count_le (t : Fin n → α) : count p t ≤ n := by
  simpa [count] using Finset.card_filter_le (Finset.univ : Finset (Fin n)) fun i => p (t i)

variable {p q}

theorem count_mono {u : Fin n → β} {q : β → Prop} [DecidablePred q] (h : ∀ i, p (t i) → q (u i)) :
    count p t ≤ count q u :=
  Finset.card_le_card fun i hi => by simpa using h i (by simpa using hi)

theorem count_eq_zero : count p t = 0 ↔ ∀ i, ¬ p (t i) := by
  simp [count, Finset.filter_eq_empty_iff]

theorem count_eq_one : count p t = 1 ↔ ∃! i, p (t i) := by
  rw [count, Finset.card_eq_one_iff_existsUnique]
  simp

theorem count_pos : 0 < count p t ↔ ∃ i, p (t i) := by
  rw [count, Finset.card_pos]
  simp [Finset.Nonempty]

theorem count_lt_iff : count p t < n ↔ ∃ i, ¬ p (t i) := by
  constructor
  · intro hlt
    by_contra hall
    push Not at hall
    have : (Finset.univ.filter fun i => p (t i)) = Finset.univ := Finset.filter_true_of_mem fun i _ => hall i
    rw [count, this, Finset.card_univ, Fintype.card_fin] at hlt
    exact absurd hlt (lt_irrefl n)
  · intro hx
    obtain ⟨i, hi⟩ := hx
    have hmem : i ∉ Finset.univ.filter fun i => p (t i) := by simpa using hi
    simpa [count] using Finset.card_lt_univ_of_notMem hmem

theorem exists_of_count_lt {u : Fin n → β} {q : β → Prop} [DecidablePred q]
    (h : count p t < count q u) : ∃ i, q (u i) ∧ ¬ p (t i) := by
  by_contra hno
  push Not at hno
  exact absurd (count_mono fun i hi => hno i hi) (Nat.not_le.mpr h)

/-- If every `p` slot of `t` is named by a `q` slot of `u`, and no two `p`
slots can be named by one, then there are at least as many `q` slots. -/
theorem count_le_of_named {m : ℕ} {u : Fin m → β} {q : β → Prop} [DecidablePred q] (names : β → α → Prop)
    (hex : ∀ i, p (t i) → ∃ j, q (u j) ∧ names (u j) (t i))
    (hinj : ∀ b i i', p (t i) → p (t i') → names b (t i) → names b (t i') → i = i') :
    count p t ≤ count q u := by
  apply Finset.card_le_card_of_forall_subsingleton (fun i j => names (u j) (t i))
  · intro i hi
    obtain ⟨j, hq, hn⟩ := hex i (by simpa using hi)
    exact ⟨j, by simpa using hq, hn⟩
  · intro j _ i hi i' hi'
    simp only [Finset.mem_filter, Finset.mem_univ, true_and, Set.mem_ofPred_eq] at hi hi'
    exact hinj (u j) i i' hi.1 hi'.1 hi.2 hi'.2

end

end Slots
