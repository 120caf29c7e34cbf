import Mathlib.Data.Set.Insert
import Mathlib.Logic.Function.Basic

/-!
# Leases

A pool of resources that are lent to holders, each to one at a time. A
resource may cease while it is lent, and its holder then keeps an empty lease
until it gives it back. Histories are lists of acts, newest first.
-/

structure Lease (ι ρ : Type) where
  alive : Set ρ
  holder : ι → Option ρ
  exclusive : ∀ i j r, holder i = some r → holder j = some r → i = j

namespace Lease

variable {ι ρ : Type} {s t u : Lease ι ρ} {i j : ι} {r : ρ}

inductive Act (ι ρ : Type)
  | create (r : ρ)
  | destroy (r : ρ)
  | grant (i : ι) (r : ρ)
  | giveBack (i : ι) (r : ρ)

def Held (s : Lease ι ρ) (r : ρ) : Prop := ∃ i, s.holder i = some r

def initial : Lease ι ρ := ⟨∅, fun _ => none, fun _ _ _ h => nomatch h⟩

section
variable [DecidableEq ι]

def lend (s : Lease ι ρ) (i : ι) (r : ρ) (h : ¬ s.Held r) : Lease ι ρ where
  alive := s.alive
  holder := Function.update s.holder i (some r)
  exclusive := by
    intro a b q ha hb
    by_cases hai : a = i
    · by_cases hbi : b = i
      · rw [hai, hbi]
      · rw [hai, Function.update_self] at ha
        rw [Function.update_of_ne hbi] at hb
        cases ha
        exact absurd ⟨b, hb⟩ h
    · rw [Function.update_of_ne hai] at ha
      by_cases hbi : b = i
      · rw [hbi, Function.update_self] at hb
        cases hb
        exact absurd ⟨a, ha⟩ h
      · rw [Function.update_of_ne hbi] at hb
        exact s.exclusive a b q ha hb

def release (s : Lease ι ρ) (i : ι) : Lease ι ρ where
  alive := s.alive
  holder := Function.update s.holder i none
  exclusive := by
    intro a b q ha hb
    have hai : a ≠ i := by intro he; rw [he, Function.update_self] at ha; cases ha
    have hbi : b ≠ i := by intro he; rw [he, Function.update_self] at hb; cases hb
    rw [Function.update_of_ne hai] at ha
    rw [Function.update_of_ne hbi] at hb
    exact s.exclusive a b q ha hb

inductive Step (s : Lease ι ρ) : Act ι ρ → Lease ι ρ → Prop
  | create {r : ρ} (hr : r ∉ s.alive) (hh : ¬ s.Held r) : Step s (.create r) { s with alive := insert r s.alive }
  | destroy {r : ρ} (hr : r ∈ s.alive) : Step s (.destroy r) { s with alive := s.alive \ {r} }
  | grant {i : ι} {r : ρ} (hi : s.holder i = none) (hr : r ∈ s.alive) (hh : ¬ s.Held r) :
      Step s (.grant i r) (s.lend i r hh)
  | giveBack {i : ι} {r : ρ} (hi : s.holder i = some r) : Step s (.giveBack i r) (s.release i)

inductive Run (s : Lease ι ρ) : List (Act ι ρ) → Lease ι ρ → Prop
  | nil : Run s [] s
  | cons {acts : List (Act ι ρ)} {t u : Lease ι ρ} {a : Act ι ρ} (h : Run s acts t) (hs : Step t a u) :
      Run s (a :: acts) u

variable {acts newer older : List (Act ι ρ)} {a : Act ι ρ}

theorem Run.split (h : Run s (newer ++ older) u) : ∃ t, Run s older t ∧ Run t newer u := by
  induction newer generalizing u with
  | nil => exact ⟨u, h, .nil⟩
  | cons a newer ih =>
    cases h with
    | cons h hs =>
      obtain ⟨t, ho, hn⟩ := ih h
      exact ⟨t, ho, .cons hn hs⟩

/-! ## What lasts -/

theorem held_step (hs : Step s a t) (hi : s.holder i = some r) (hne : a ≠ .giveBack i r) : t.holder i = some r := by
  cases hs with
  | create _ _ => exact hi
  | destroy _ => exact hi
  | @grant j q hj _ _ =>
    have hij : i ≠ j := by intro he; subst he; rw [hj] at hi; cases hi
    exact (Function.update_of_ne hij _ _).trans hi
  | @giveBack j q hj =>
    have hij : i ≠ j := by
      intro he
      subst he
      rw [hj] at hi
      cases hi
      exact hne rfl
    exact (Function.update_of_ne hij _ _).trans hi

theorem Run.held (h : Run s acts t) (hi : s.holder i = some r) (hno : .giveBack i r ∉ acts) : t.holder i = some r := by
  induction h with
  | nil => exact hi
  | @cons acts t u a _ hs ih =>
    rw [List.mem_cons, not_or] at hno
    exact held_step hs (ih hno.2) fun he => hno.1 he.symm

theorem dead_step (hs : Step s a t) (hr : r ∉ s.alive) (hne : a ≠ .create r) : r ∉ t.alive := by
  cases hs with
  | @create q _ _ =>
    intro hm
    rcases Set.mem_insert_iff.mp hm with rfl | hm
    · exact hne rfl
    · exact hr hm
  | destroy _ => exact fun hm => hr hm.1
  | grant _ _ _ => exact hr
  | giveBack _ => exact hr

/-- What has ceased stays away until it is created again. -/
theorem Run.dead (h : Run s acts t) (hr : r ∉ s.alive) (hno : .create r ∉ acts) : r ∉ t.alive := by
  induction h with
  | nil => exact hr
  | @cons acts t u a _ hs ih =>
    rw [List.mem_cons, not_or] at hno
    exact dead_step hs (ih hno.2) fun he => hno.1 he.symm

/-! ## Histories -/

/-- Between two grants of one resource, or to one holder, the first is given
back. -/
theorem Run.given_back {q : ρ} {mid : List (Act ι ρ)} (h : Run s (newer ++ .grant j q :: (mid ++ .grant i r :: older)) u)
    (hsame : q = r ∨ j = i) : .giveBack i r ∈ mid := by
  obtain ⟨v, hv, _⟩ := h.split
  cases hv with
  | cons hmid hgrant =>
    obtain ⟨t, ht, hmid⟩ := hmid.split
    cases ht with
    | cons _ hfirst =>
      by_contra hno
      have hheld : Lease.holder _ i = some r := hmid.held (by cases hfirst; exact Function.update_self ..) hno
      cases hgrant with
      | grant hj _ hh =>
        rcases hsame with rfl | rfl
        · exact hh ⟨i, hheld⟩
        · rw [hj] at hheld; cases hheld

/-- What is granted after it has ceased was created again in between. -/
theorem Run.created_again {mid : List (Act ι ρ)} (h : Run s (newer ++ .grant i r :: (mid ++ .destroy r :: older)) u) :
    .create r ∈ mid := by
  obtain ⟨v, hv, _⟩ := h.split
  cases hv with
  | cons hmid hgrant =>
    obtain ⟨t, ht, hmid⟩ := hmid.split
    cases ht with
    | cons _ hfirst =>
      by_contra hno
      have hdead : r ∉ Lease.alive _ := hmid.dead (by cases hfirst; exact fun hm => hm.2 rfl) hno
      cases hgrant with
      | grant _ hr _ => exact hdead hr

end

end Lease
