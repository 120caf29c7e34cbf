import P4Ubpf.TaskSound

/-!
# Adjusting in steps

`adjust_children` goes to its target one process at a time, and starts at the
first slot every time. A halt at a number on the way leaves everything as it is
without the halt, to the last call that is made.
-/

namespace P4Ubpf

open P4runtime

section
variable {E : Env} {u v w : World} {fuel fuel' : ℕ} {m n : Int}

/-! ## Growing -/

theorem spawnLoop_more (h : spawnLoop E n fuel w = some v) (k : ℕ) : spawnLoop E n (k + fuel) w = some v := by
  induction fuel generalizing w with
  | zero =>
    rw [spawnLoop] at h
    split at h
    · cases h
    · rename_i hfull
      cases k with
      | zero => rw [spawnLoop, if_neg hfull]; exact h
      | succ k => rw [Nat.add_zero, spawnLoop, if_neg hfull]; exact h
  | succ fuel ih =>
    rw [spawnLoop] at h
    rw [← Nat.add_assoc, spawnLoop]
    split at h
    · rename_i hroom
      rw [if_pos hroom]
      exact ih h
    · rename_i hfull
      rw [if_neg hfull]
      exact h

theorem spawnLoop_halt (hmn : m ≤ n) (hm : spawnLoop E m fuel w = some v) (hn : spawnLoop E n fuel' v = some u) :
    spawnLoop E n (fuel + fuel') w = some u := by
  induction fuel generalizing w with
  | zero =>
    rw [spawnLoop] at hm
    split at hm
    · cases hm
    · cases hm
      rw [Nat.zero_add]
      exact hn
  | succ fuel ih =>
    rw [spawnLoop] at hm
    split at hm
    · rename_i hroom
      rw [Nat.add_right_comm, spawnLoop, if_pos (by omega)]
      exact ih hm
    · cases hm
      exact spawnLoop_more hn (fuel + 1)

/-! ## Shrinking -/

theorem shrinkLoop_busy {i : Slot} (h : ¬ (w.runtimesTable i).Idle) (is : List Slot) :
    ¬ ((shrinkLoop E m is w).runtimesTable i).Idle := by
  induction is generalizing w with
  | nil => exact h
  | cons j is ih =>
    rw [shrinkLoop]
    split
    · split
      · apply ih
        rw [retire_table]
        by_cases hij : i = j
        · rw [hij, Function.update_self]
          exact fun he => absurd he.1 (by decide)
        · rw [Function.update_of_ne hij]
          exact h
      · exact ih h
    · exact h

theorem shrinkLoop_halt (hnm : n ≤ m) (is : List Slot) (w : World) :
    shrinkLoop E n is (shrinkLoop E m is w) = shrinkLoop E n is w := by
  induction is generalizing w with
  | nil => rfl
  | cons i is ih =>
    by_cases hmore : m < w.runtimes
    · have hnext : ∀ t : World, ¬ (t.runtimesTable i).Idle →
          shrinkLoop E n (i :: is) (shrinkLoop E m is t) = shrinkLoop E n is t := by
        intro t hbusy
        rw [shrinkLoop, if_neg (shrinkLoop_busy hbusy is)]
        split
        · exact ih t
        · rename_i hdone
          rw [← ih t, shrinkLoop_done hdone]
      have hm : shrinkLoop E m (i :: is) w = shrinkLoop E m is (if (w.runtimesTable i).Idle then retire E i w else w) := by
        rw [shrinkLoop, if_pos hmore]
      have hn : shrinkLoop E n (i :: is) w = shrinkLoop E n is (if (w.runtimesTable i).Idle then retire E i w else w) := by
        rw [shrinkLoop, if_pos (by omega)]
      rw [hm, hn]
      apply hnext
      split
      · rw [retire_table, Function.update_self]
        exact fun he => absurd he.1 (by decide)
      · assumption
    · rw [shrinkLoop_done hmore]

/-! ## Both -/

/-- The two branches of `adjust_children`, the target cut to the table. -/
theorem adjust_branches (h : w.runtimes ≤ maxConnections) (E : Env) (fuel : ℕ) (n : Int) :
    adjustChildren E fuel n w = if w.runtimes < min n maxConnections then spawnLoop E (min n maxConnections) fuel w
      else some (shrinkLoop E (min n maxConnections) (Slots.all _) w) := by
  have hclamp : (if (maxConnections : Int) < n then (maxConnections : Int) else n) = min n maxConnections := by
    split <;> omega
  have hmin : (if (maxConnections : Int) < min n maxConnections then (maxConnections : Int)
      else min n maxConnections) = min n maxConnections := if_neg (by omega)
  rw [adjustChildren]
  by_cases hsame : n = w.runtimes
  · rw [if_pos hsame, if_neg (by omega), shrinkLoop_done (by omega)]
  · rw [if_neg hsame]
    simp only [hclamp, startChildren, hmin]

end

/-- **Adjusting in steps** comes to the same as adjusting at once: where `m`
lies on the way to `n`, the state, the children and the calls are the same. -/
theorem adjust_in_steps {c : Config} (hr : Assumption.Reachable {} c) {m n : Int}
    (hway : c.world.runtimes ≤ m ∧ m ≤ n ∨ n ≤ m ∧ m ≤ c.world.runtimes) {E : Env} {fuel fuel' : ℕ} {v u : World}
    (hm : adjustChildren E fuel m c.world = some v) (hn : adjustChildren E fuel' n v = some u) :
    adjustChildren E (fuel + fuel') n c.world = some u := by
  have hacc := accounted_reachable hr
  have hle := runtimes_le hacc
  have hinUse := runtimes_eq hacc
  have hv := (adjust_returned hacc hm).runtimes
  rw [adjust_branches (by omega)] at hm hn ⊢
  rcases hway with ⟨hlo, hhi⟩ | ⟨hlo, hhi⟩
  · have hreached : v.runtimes = min m maxConnections := by omega
    by_cases hroom : v.runtimes < min n maxConnections
    · rw [if_pos hroom] at hn
      rw [if_pos (by omega)]
      by_cases hgrow : c.world.runtimes < min m maxConnections
      · rw [if_pos hgrow] at hm
        exact spawnLoop_halt (by omega) hm hn
      · rw [if_neg hgrow, shrinkLoop_done (by omega)] at hm
        cases hm
        exact spawnLoop_more hn fuel
    · -- no more than `m` can be reached
      have hsame : min n maxConnections = min m maxConnections := by omega
      rw [if_neg hroom, shrinkLoop_done (by omega)] at hn
      cases hn
      rw [hsame]
      split
      · rename_i hgrow
        rw [if_pos hgrow] at hm
        rw [Nat.add_comm]
        exact spawnLoop_more hm fuel'
      · rename_i hgrow
        rw [if_neg hgrow] at hm
        exact hm
  · rw [if_neg (by omega)] at hm hn ⊢
    cases hm
    rw [← hn, shrinkLoop_halt (by omega)]

theorem adjust_in_steps_demo : ∃ c v u, launcher.run launcher.init demoActs = some c ∧
    adjustChildren idealEnv 3 4 c.world = some v ∧ adjustChildren idealEnv 3 6 v = some u ∧
    adjustChildren idealEnv (3 + 3) 6 c.world = some u := by
  have hend : ∃ c, launcher.run launcher.init demoActs = some c ∧ c.world.runtimes ≤ 4 ∧
      ((adjustChildren idealEnv 3 4 c.world).bind (adjustChildren idealEnv 3 6)).isSome = true :=
    Lts.run_any (by decide +kernel)
  obtain ⟨c, hc, hfew, hsome⟩ := hend
  obtain ⟨u, hu⟩ := Option.isSome_iff_exists.mp hsome
  obtain ⟨v, hv, hu⟩ := Option.bind_eq_some_iff.mp hu
  have hr : Assumption.Reachable {} c := demo_reachable trivial (fun _ _ _ => trivial) hc
  exact ⟨c, v, u, hc, hv, hu, adjust_in_steps hr (.inl ⟨hfew, by decide⟩) hv hu⟩

end P4Ubpf
