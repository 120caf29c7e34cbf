import Mathlib.Data.List.TakeWhile

/-!
# Words

The words of a list are its longest runs without a separator. That splitting
at a separator splits the words is the one equation everything else about them
follows from.
-/

variable {α : Type}

def Words (p : α → Bool) (l : List α) : List (List α) := (l.splitOnP p).filter fun w => !w.isEmpty

namespace Words

variable {p : α → Bool}

theorem append_sep (l l' : List α) {d : α} (hd : p d = true) : Words p (l ++ d :: l') = Words p l ++ Words p l' := by
  rw [Words, List.splitOnP_append_cons l l' hd, List.filter_append]; rfl

@[simp] theorem words_nil : Words p [] = [] := by simp [Words]

theorem cons_sep (l : List α) {d : α} (hd : p d = true) : Words p (d :: l) = Words p l := by
  simpa using append_sep [] l hd

theorem unbroken {w : List α} (hne : w ≠ []) (h : ∀ a ∈ w, p a = false) : Words p w = [w] := by
  rw [Words, List.splitOnP_eq_singleton h]
  simp [hne]

theorem dropWhile_sep (l : List α) : Words p (l.dropWhile p) = Words p l := by
  induction l with
  | nil => rfl
  | cons d l ih =>
    by_cases hd : p d = true
    · rw [List.dropWhile_cons_of_pos hd, ih, cons_sep l hd]
    · rw [List.dropWhile_cons_of_neg hd]

theorem eq_nil {l : List α} (h : l.dropWhile p = []) : Words p l = [] := by
  rw [← dropWhile_sep, h, words_nil]

theorem eq_cons {l l' : List α} {a : α} (h : l.dropWhile p = a :: l') :
    Words p l = (a :: l').takeWhile (fun b => !p b) :: Words p ((a :: l').dropWhile fun b => !p b).tail := by
  have ha : p a = false := by
    have hhead := List.head?_dropWhile_not p l
    rw [h] at hhead
    simpa using hhead
  have hne : (a :: l').takeWhile (fun b => !p b) ≠ [] := by simp [ha]
  have hfree : ∀ b ∈ (a :: l').takeWhile (fun b => !p b), p b = false := fun b hb => by
    simpa using List.mem_takeWhile_imp hb
  rw [← dropWhile_sep, h]
  cases hrest : (a :: l').dropWhile fun b => !p b with
  | nil =>
    have hall := List.takeWhile_append_dropWhile (p := fun b => !p b) (l := a :: l')
    rw [hrest, List.append_nil] at hall
    rw [hall] at hne hfree
    rw [hall, unbroken hne hfree]; simp
  | cons d rest =>
    have hd : p d = true := by
      have hhead := List.head?_dropWhile_not (fun b => !p b) (a :: l')
      rw [hrest] at hhead
      simpa using hhead
    have hsplit := List.takeWhile_append_dropWhile (p := fun b => !p b) (l := a :: l')
    rw [hrest] at hsplit
    have hwords := append_sep ((a :: l').takeWhile fun b => !p b) rest hd
    rw [hsplit, unbroken hne hfree] at hwords
    exact hwords

end Words
