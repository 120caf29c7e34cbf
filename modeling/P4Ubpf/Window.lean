import Mathlib.Algebra.BigOperators.Fin
import Mathlib.Algebra.BigOperators.Group.List.Basic
import Mathlib.Algebra.Group.Fin.Basic
import Mathlib.Algebra.Group.Units.Equiv
import Mathlib.Tactic.Abel

/-!
# Ring buffers and sliding windows

A ring of `n` cells is written cell after cell. Wherever the writing position
stands, the cells behind it hold the last entries since the ring was cleared,
newest first, and the cells never written since then hold the default.
-/

/-- `next` is the cell the next entry goes to. -/
structure RingBuffer (n : ℕ) (α : Type) where
  cells : Fin n → α
  next : Fin n

namespace RingBuffer

variable {n : ℕ} [NeZero n] {α : Type}

def push (r : RingBuffer n α) (a : α) : RingBuffer n α := ⟨Function.update r.cells r.next a, r.next + 1⟩

def clear (r : RingBuffer n α) (d : α) : RingBuffer n α := ⟨fun _ => d, r.next⟩

/-- The entries since the last clearing are `l`, newest first. -/
def Holds (r : RingBuffer n α) (d : α) (l : List α) : Prop := ∀ k : Fin n, r.cells (r.next - 1 - k) = l.getD k d

theorem holds_clear (r : RingBuffer n α) (d : α) : (r.clear d).Holds d [] := fun _ => rfl

theorem holds_push {r : RingBuffer n α} {d : α} {l : List α} (h : r.Holds d l) (a : α) : (r.push a).Holds d (a :: l) := by
  intro k
  simp only [push, add_sub_cancel_right]
  by_cases hk : k = 0
  · subst hk
    rw [sub_zero, Function.update_self]; rfl
  · have hne : r.next - k ≠ r.next := fun he => hk (by simpa using he)
    have hprev : r.next - k = r.next - 1 - (k - 1) := by abel
    have hval : (k : ℕ) = (k - 1 : Fin n) + 1 := by
      have hpos : 0 < (k : ℕ) := Nat.pos_of_ne_zero fun h0 => hk (Fin.ext h0)
      rw [Fin.val_sub_one_of_ne_zero hk]; omega
    rw [Function.update_of_ne hne, hprev, h (k - 1), hval, List.getD_cons_succ]

theorem sum_cells [AddCommMonoid α] {r : RingBuffer n α} {l : List α} (h : r.Holds 0 l) :
    ∑ i, r.cells i = (l.take n).sum := by
  have hback : ∑ i, r.cells i = ∑ k : Fin n, r.cells (r.next - 1 - k) :=
    (Equiv.sum_comp (Equiv.subLeft (r.next - 1)) r.cells).symm
  have hlist : ∀ (m : ℕ) (l : List α), ∑ k : Fin m, l.getD k 0 = (l.take m).sum := by
    intro m
    induction m with
    | zero => intro l; simp
    | succ m ih =>
      intro l
      rw [Fin.sum_univ_succ]
      cases l with
      | nil => simp
      | cons a l => simpa using congrArg (a + ·) (ih l)
  rw [hback, Finset.sum_congr rfl fun k _ => h k]
  exact hlist n l

/-- Summing up the first `f` cells only is enough when no entry but zeros
stands in the others. -/
theorem sum_first_cells {r : RingBuffer n ℕ} {l : List ℕ} (h : r.Holds 0 l) (f : ℕ) :
    ∑ i with i.val < f, r.cells i = (l.take n).sum ↔ ∀ k : Fin n, l.getD k 0 ≠ 0 → (r.next - 1 - k).val < f := by
  rw [← sum_cells h, ← Finset.sum_filter_add_sum_filter_not Finset.univ fun i : Fin n => i.val < f, eq_comm,
    Nat.add_eq_left, Finset.sum_eq_zero_iff]
  constructor
  · intro hzero k hk
    by_contra hlt
    rw [← h k] at hk
    exact hk (hzero _ (Finset.mem_filter.mpr ⟨Finset.mem_univ _, hlt⟩))
  · intro hin i hi
    by_contra hne
    have hback : r.next - 1 - (r.next - 1 - i) = i := sub_sub_cancel _ _
    have hlt := hin (r.next - 1 - i) (by rw [← h, hback]; exact hne)
    rw [hback] at hlt
    exact (Finset.mem_filter.mp hi).2 hlt

end RingBuffer
