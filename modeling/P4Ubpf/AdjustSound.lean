import P4Ubpf.PoolSound

/-!
# What `adjust_children` does

It stops on a number of runtimes or on the end of the table, whichever comes
first; with the counter exact, both are one closed form. Shrinking drops idle
entries from the lowest slot on, growing fills empty ones. The loop that grows
counts successful forks only, so it ends exactly when the kernel grants as many
as are missing; a kernel that refuses every fork from some point on keeps the
launcher in it for good.
-/

namespace P4Ubpf

open P4runtime Relation

def inUseCount (w : World) : ℕ := Slots.count (fun r : P4runtime => r.inUse = true) w.runtimesTable

def idleCount (w : World) : ℕ := Slots.count Idle w.runtimesTable

def idleSlots (w : World) : List Slot := (Slots.all _).filter fun i => (w.runtimesTable i).Idle

def lowestIdle (w : World) (k : Int) : List Slot := (idleSlots w).take k.toNat

section
variable {E : Env} {w w' : World} {fuel : ℕ} {n target : Int}

theorem runtimes_eq (h : Accounted w) : w.runtimes = inUseCount w + idleCount w := by
  have hsplit : Slots.count Present w.runtimesTable = inUseCount w + idleCount w := by
    apply Slots.count_add
    · intro i
      constructor
      · intro hp
        by_cases hu : (w.runtimesTable i).inUse = true
        · exact .inl hu
        · exact .inr ⟨hp, by simpa using hu⟩
      · intro ho
        rcases ho with hu | hi
        · exact h.inUse_present i hu
        · exact hi.1
    · intro i hu hi
      rw [hi.2] at hu; cases hu
  rw [h.counter, hsplit]; push_cast; rfl

theorem runtimes_le (h : Accounted w) : w.runtimes ≤ maxConnections := by
  have := h.counter
  have := Slots.count_le Present w.runtimesTable
  omega

theorem idleSlots_length (w : World) : (idleSlots w).length = idleCount w :=
  Slots.length_filter_all Idle w.runtimesTable

/-! ## Shrinking -/

theorem shrinkLoop_done (h : ¬ target < w.runtimes) (is : List Slot) : shrinkLoop E target is w = w := by
  cases is with
  | nil => rfl
  | cons i is => rw [shrinkLoop, if_neg h]

/-- From `w` to `w'` the entries of `is` are terminated, in this order. -/
structure Drops (is : List Slot) (w w' : World) : Prop where
  table : ∀ i, w'.runtimesTable i = if i ∈ is then .empty else w.runtimesTable i
  runtimes : w'.runtimes = w.runtimes - is.length
  killed : ∃ es, w'.trace = es ++ w.trace ∧ killedPids es = (is.map fun i => (w.runtimesTable i).pid).reverse

theorem drops_nil (w : World) : Drops [] w w where
  table := fun i => by simp
  runtimes := by simp
  killed := ⟨[], rfl, rfl⟩

theorem drops_cons {i : Slot} {is : List Slot} (hi : (w.runtimesTable i).Idle) (his : i ∉ is)
    (h : Drops is (retire E i w) w') : Drops (i :: is) w w' := by
  refine ⟨?_, ?_, ?_⟩
  · intro j
    rw [h.table, retire_table]
    by_cases hj : j = i
    · subst hj; simp
    · simp [hj]
  · rw [h.runtimes, retire_runtimes, List.length_cons]; push_cast; omega
  · obtain ⟨es, htr, hk⟩ := h.killed
    rw [retire_trace E i w hi.1] at htr
    refine ⟨es ++ [.waitpid (w.runtimesTable i).pid, .kill _ _], htr.trans (by rw [List.append_assoc]; rfl), ?_⟩
    have hpids : (is.map fun j => ((retire E i w).runtimesTable j).pid) = is.map fun j => (w.runtimesTable j).pid := by
      apply List.map_congr_left; intro j hj
      have hji : j ≠ i := by intro he; subst he; exact his hj
      rw [retire_table, Function.update_of_ne hji]
    rw [hpids] at hk
    rw [killedPids, List.filterMap_append, List.map_cons, List.reverse_cons, ← hk]; rfl

theorem shrinkLoop_drops : ∀ (is : List Slot) (w : World), is.Nodup →
    Drops ((is.filter fun i => (w.runtimesTable i).Idle).take (w.runtimes - target).toNat) w (shrinkLoop E target is w)
  | [], w, _ => by simpa [shrinkLoop] using drops_nil w
  | i :: is, w, hnodup => by
    obtain ⟨hi, his⟩ := List.nodup_cons.mp hnodup
    rw [shrinkLoop]
    by_cases hlt : target < w.runtimes
    · obtain ⟨n, hn⟩ : ∃ n, (w.runtimes - target).toNat = n + 1 := ⟨(w.runtimes - target).toNat - 1, by omega⟩
      rw [if_pos hlt, hn]
      by_cases hidle : (w.runtimesTable i).Idle
      · have hrest := shrinkLoop_drops is (retire E i w) his
        have hsame : (is.filter fun j => ((retire E i w).runtimesTable j).Idle) =
            is.filter fun j => (w.runtimesTable j).Idle := by
          apply List.filter_congr; intro j hj
          have hji : j ≠ i := by intro he; subst he; exact hi hj
          rw [retire_table, Function.update_of_ne hji]
        rw [hsame, retire_runtimes, show (w.runtimes - 1 - target).toNat = n by omega] at hrest
        rw [if_pos hidle, List.filter_cons_of_pos (by simpa using hidle), List.take_succ_cons]
        apply drops_cons hidle _ hrest
        intro hm
        exact hi (List.mem_of_mem_filter (List.mem_of_mem_take hm))
      · rw [if_neg hidle, List.filter_cons_of_neg (by simpa using hidle), ← hn]
        exact shrinkLoop_drops is w his
    · rw [if_neg hlt, show (w.runtimes - target).toNat = 0 by omega, List.take_zero]
      exact drops_nil w

/-! ## Growing -/

structure Grows (w w' : World) : Prop where
  kept : ∀ i, 0 < (w.runtimesTable i).pid → w'.runtimesTable i = w.runtimesTable i
  added : ∀ i, ¬ 0 < (w.runtimesTable i).pid → w'.runtimesTable i = w.runtimesTable i ∨ (w'.runtimesTable i).Idle
  killed : ∃ es, w'.trace = es ++ w.trace ∧ killedPids es = []

theorem grows_refl (w : World) : Grows w w := ⟨fun _ _ => rfl, fun _ _ => .inl rfl, [], rfl, rfl⟩

theorem Grows.trans {u v w : World} (h₁ : Grows u v) (h₂ : Grows v w) : Grows u w := by
  refine ⟨?_, ?_, ?_⟩
  · intro i hi
    have hv := h₁.kept i hi
    rw [h₂.kept i (by rw [hv]; exact hi), hv]
  · intro i hi
    rcases h₁.added i hi with hv | hv
    · rw [← hv] at hi ⊢
      exact h₂.added i hi
    · exact .inr (by rw [h₂.kept i hv.1]; exact hv)
  · obtain ⟨es, he, hes⟩ := h₁.killed
    obtain ⟨fs, hf, hfs⟩ := h₂.killed
    refine ⟨fs ++ es, by rw [hf, he, List.append_assoc], ?_⟩
    unfold killedPids at hes hfs ⊢
    rw [List.filterMap_append, hfs, hes]; rfl

theorem spawn_grows (h : Accounted w) (hroom : w.runtimes < maxConnections) (hf : E.ForkSucceeds) :
    Accounted (spawnRuntimeProcess E w) ∧ (spawnRuntimeProcess E w).runtimes = w.runtimes + 1 ∧
      Grows w (spawnRuntimeProcess E w) := by
  have hy : Accounted (w.yield E) :=
    (yield_pool E w).keep (fun _ _ hs hv => accounted_micro (.pool hs) hv) h
  have hroom' : (w.yield E).runtimes < maxConnections := by rw [World.yield_runtimes]; exact hroom
  have hpos := hf (w.yield E)
  have hacc : Accounted (spawnRuntimeProcess E w) := accounted_fork hy hroom' _
  refine ⟨hacc, ?_⟩
  unfold spawnRuntimeProcess
  simp only
  rcases fork_cases hy hroom' (E.fork (w.yield E)) with ⟨hle, _⟩ | ⟨_, j, hj, heq⟩
  · omega
  · rw [heq]
    rw [World.yield_table] at hj
    refine ⟨by simp only [World.yield_runtimes], ?_, ?_, ?_⟩
    · intro i hi
      have hij : i ≠ j := by intro he; subst he; omega
      simp only [Function.update_of_ne hij, World.yield_table]
    · intro i _
      by_cases hij : i = j
      · subst hij
        simp only [Function.update_self]
        exact .inr ⟨hpos, rfl⟩
      · apply Or.inl
        simp only [Function.update_of_ne hij, World.yield_table]
    · exact ⟨[.startedChild _ (some j), .fork _], by simp only [World.yield_trace]; rfl, rfl⟩

theorem spawnLoop_grows (hf : E.ForkSucceeds) (hnum : n ≤ maxConnections) : ∀ (fuel : ℕ) (w : World), Accounted w →
    n - w.runtimes ≤ fuel →
    ∃ w', spawnLoop E n fuel w = some w' ∧ w'.runtimes = max w.runtimes n ∧ Grows w w'
  | 0, w, _, hfuel => by
    refine ⟨w, ?_, by omega, grows_refl w⟩
    rw [spawnLoop, if_neg (by omega)]
  | fuel + 1, w, h, hfuel => by
    rw [spawnLoop]
    by_cases hlt : w.runtimes < n
    · obtain ⟨hacc, hrun, hgrow⟩ := spawn_grows h (by omega) hf
      obtain ⟨w', hw', hr, hg⟩ := spawnLoop_grows hf hnum fuel _ hacc (by omega)
      rw [if_pos hlt]
      exact ⟨w', hw', by omega, hgrow.trans hg⟩
    · rw [if_neg hlt]
      exact ⟨w, rfl, by omega, grows_refl w⟩

/-! ## Both together -/

/-- What `adjust_children(n)` has done to the pool between `w` and `w'`. -/
structure Adjusted (n : Int) (w w' : World) : Prop where
  runtimes : w'.runtimes = max (inUseCount w : Int) (min n maxConnections)
  inUse : ∀ i, (w.runtimesTable i).inUse = true → w'.runtimesTable i = w.runtimesTable i
  dropped : n ≤ w.runtimes → Drops (lowestIdle w (w.runtimes - w'.runtimes)) w w'
  grown : w.runtimes ≤ n → Grows w w'
  links : w'.links = w.links

theorem lowestIdle_idle {k : Int} {i : Slot} (h : i ∈ lowestIdle w k) : (w.runtimesTable i).Idle := by
  simpa using List.of_mem_filter (List.mem_of_mem_take h)

theorem adjust_adjusted (h : Accounted w) (hf : E.ForkSucceeds) (hfuel : min n maxConnections - w.runtimes ≤ fuel) :
    ∃ w', adjustChildren E fuel n w = some w' ∧ Adjusted n w w' := by
  have hle := runtimes_le h
  have heq := runtimes_eq h
  have hinUse : ∀ {w' : World}, Grows w w' → ∀ i, (w.runtimesTable i).inUse = true →
      w'.runtimesTable i = w.runtimesTable i := fun hg i hi => hg.kept i (h.inUse_present i hi)
  have hsame : Drops (lowestIdle w (w.runtimes - w.runtimes)) w w := by
    rw [show lowestIdle w (w.runtimes - w.runtimes) = [] by simp [lowestIdle]]
    exact drops_nil w
  unfold adjustChildren
  by_cases hnum : n = w.runtimes
  · rw [if_pos hnum]
    exact ⟨w, rfl, by omega, fun _ _ => rfl, fun _ => hsame, fun _ => grows_refl w, rfl⟩
  rw [if_neg hnum]
  have hclamp : (if (maxConnections : Int) < n then (maxConnections : Int) else n) = min n maxConnections := by
    split <;> omega
  simp only [hclamp]
  by_cases hgrow : w.runtimes < min n maxConnections
  · have hmin : (if (maxConnections : Int) < min n maxConnections then (maxConnections : Int)
        else min n maxConnections) = min n maxConnections := if_neg (by omega)
    obtain ⟨w', hw', hrun, hg⟩ := spawnLoop_grows hf (by omega) fuel w h hfuel
    rw [if_pos hgrow, startChildren, hmin]
    refine ⟨w', hw', by omega, hinUse hg, fun hn => by omega, fun _ => hg, ?_⟩
    exact pool_links (spawnLoop_pool (by omega) fuel w hw')
  · rw [if_neg hgrow]
    have hd : Drops (lowestIdle w (w.runtimes - min n maxConnections)) w
        (shrinkLoop E (min n maxConnections) (Slots.all _) w) :=
      shrinkLoop_drops (Slots.all _) w (List.nodup_finRange _)
    have hlen : (lowestIdle w (w.runtimes - min n maxConnections)).length =
        min (w.runtimes - min n maxConnections).toNat (idleCount w) := by
      rw [lowestIdle, List.length_take, idleSlots_length]
    have hrun : (shrinkLoop E (min n maxConnections) (Slots.all _) w).runtimes =
        max (inUseCount w : Int) (min n maxConnections) := by
      rw [hd.runtimes, hlen]; omega
    -- the table may run out of idle entries before the target is met
    have hlow : lowestIdle w (w.runtimes - min n maxConnections) =
        lowestIdle w (w.runtimes - (shrinkLoop E (min n maxConnections) (Slots.all _) w).runtimes) := by
      rw [hrun]
      by_cases hu : (inUseCount w : Int) ≤ min n maxConnections
      · rw [max_eq_right hu]
      · rw [max_eq_left (by omega), lowestIdle, lowestIdle, List.take_of_length_le (by rw [idleSlots_length]; omega),
          List.take_of_length_le (by rw [idleSlots_length]; omega)]
    refine ⟨_, rfl, hrun, ?_, fun _ => hlow ▸ hd, ?_, pool_links (shrinkLoop_pool _ _ _)⟩
    · intro i hi
      rw [hd.table, if_neg]
      intro hm
      rw [(lowestIdle_idle hm).2] at hi; cases hi
    · intro hn
      rw [shrinkLoop_done (by omega)]
      exact grows_refl w

theorem inUseCount_congr (h : ∀ i, (w'.runtimesTable i).inUse = true ↔ (w.runtimesTable i).inUse = true) :
    inUseCount w' = inUseCount w :=
  Nat.le_antisymm (Slots.count_mono fun i => (h i).mp) (Slots.count_mono fun i => (h i).mpr)

theorem Adjusted.inUse_iff (ha : Adjusted n w w') (i : Slot) :
    (w'.runtimesTable i).inUse = true ↔ (w.runtimesTable i).inUse = true := by
  constructor
  · intro hi
    by_contra hno
    rcases le_total n w.runtimes with hn | hn
    · rw [(ha.dropped hn).table] at hi
      split at hi
      · cases hi
      · exact hno hi
    · by_cases hp : 0 < (w.runtimesTable i).pid
      · rw [(ha.grown hn).kept i hp] at hi; exact hno hi
      · rcases (ha.grown hn).added i hp with he | he
        · rw [he] at hi; exact hno hi
        · rw [he.2] at hi; cases hi
  · intro hi
    rw [ha.inUse i hi]; exact hi

theorem Adjusted.inUseCount_eq (ha : Adjusted n w w') : inUseCount w' = inUseCount w := inUseCount_congr ha.inUse_iff

theorem accounted_adjust (h : Accounted w) (ha : adjustChildren E fuel n w = some w') : Accounted w' :=
  (adjust_pool ha).keep (fun _ _ hs hv => accounted_micro (.pool hs) hv) h

end

/-- **The effect of `adjust_children`** on the pool, for every number. -/
theorem adjust_exact {c : Config} (hr : Assumption.Reachable {} c) {E : Env} (hf : E.ForkSucceeds) {fuel : ℕ} {n : Int}
    (hfuel : min n maxConnections - c.world.runtimes ≤ fuel) :
    ∃ w', adjustChildren E fuel n c.world = some w' ∧ Adjusted n c.world w' ∧
      (E.OvsQuiet → w'.sessionTable = c.world.sessionTable) := by
  obtain ⟨w', hw', ha⟩ := adjust_adjusted (accounted_reachable hr) hf hfuel
  exact ⟨w', hw', ha, fun hq => pool_session hq (adjust_pool hw')⟩

theorem adjust_exact_demo : ∃ c w', launcher.run launcher.init demoActs = some c ∧
    adjustChildren idealEnv maxConnections 50 c.world = some w' ∧ Adjusted 50 c.world w' ∧
    (idealEnv.OvsQuiet → w'.sessionTable = c.world.sessionTable) := by
  obtain ⟨c, hc⟩ := demo_runs
  have hr : Assumption.Reachable {} c := demo_reachable trivial (fun _ _ _ => trivial) hc
  have hpos := (pool_accounting hr).2.1
  obtain ⟨w', hw'⟩ : ∃ w', adjustChildren idealEnv maxConnections 50 c.world = some w' ∧ Adjusted 50 c.world w' ∧ _ :=
    adjust_exact hr ideal_succeeds (by omega)
  exact ⟨c, w', hc, hw'⟩

/-! ## When `start_children` ends -/

def Event.isFork : Event → Bool
  | .fork _ => true
  | _ => false

def forkCalls (trace : List Event) : ℕ := trace.countP Event.isFork

/-- `E₀`, but the `k`-th call of `fork` made after state `w` returns `results k`. -/
def scriptedEnv (E₀ : Env) (w : World) (results : ℕ → Int) : Env :=
  { E₀ with fork := fun v => results (forkCalls v.trace - forkCalls w.trace) }

def successes (results : ℕ → Int) (n : ℕ) : ℕ := (List.range n).countP fun k => 0 < results k

theorem successes_succ (results : ℕ → Int) (n : ℕ) :
    successes results (n + 1) = successes results n + if 0 < results n then 1 else 0 := by
  unfold successes
  rw [List.range_succ, List.countP_append, List.countP_singleton]
  simp

theorem afterFork_runtimes (pid : Int) (v : World) :
    (afterFork pid v).runtimes = v.runtimes + if 0 < pid then 1 else 0 := by
  unfold afterFork
  split
  · rw [if_neg (by omega)]; simp
  split
  · rw [if_neg (by omega)]; simp
  · rw [if_pos (by omega)]

theorem afterFork_forkCalls (pid : Int) (v : World) : forkCalls (afterFork pid v).trace = forkCalls v.trace := by
  unfold afterFork
  split
  · rfl
  split
  · rfl
  · rfl

section
variable (E₀ : Env) (w : World) (results : ℕ → Int)

/-- `v` is where the loop stands after `k` forks. -/
structure AfterForks (v : World) (k : ℕ) : Prop where
  calls : forkCalls v.trace = forkCalls w.trace + k
  runtimes : v.runtimes = w.runtimes + successes results k

variable {w results}

theorem afterForks_spawn {v : World} {k : ℕ} (h : AfterForks w results v k) :
    AfterForks w results (spawnRuntimeProcess (scriptedEnv E₀ w results) v) (k + 1) := by
  have hres : (scriptedEnv E₀ w results).fork (v.yield (scriptedEnv E₀ w results)) = results k := by
    simp [scriptedEnv, h.calls]
  unfold spawnRuntimeProcess
  simp only [hres]
  refine ⟨?_, ?_⟩
  · rw [afterFork_forkCalls]
    simp only [World.log_trace, World.yield_trace, forkCalls, List.countP_cons, Event.isFork, ite_true]
    have := h.calls
    unfold forkCalls at this
    omega
  · rw [afterFork_runtimes, successes_succ]
    have := h.runtimes
    simp only [World.log_runtimes, World.yield_runtimes]
    split
    · simp_all; omega
    · simp_all

theorem spawnLoop_ends {num : Int} : ∀ (fuel : ℕ) (v : World) (k : ℕ), AfterForks w results v k →
    ((∃ w', spawnLoop (scriptedEnv E₀ w results) num fuel v = some w') ↔
      ∃ n ≤ fuel, num - w.runtimes ≤ successes results (k + n))
  | 0, v, k, h => by
    have hr := h.runtimes
    simp only [spawnLoop, Nat.le_zero, exists_eq_left, Nat.add_zero]
    split
    · simp; omega
    · simp; omega
  | fuel + 1, v, k, h => by
    have hr := h.runtimes
    simp only [spawnLoop]
    split
    · rename_i hlt
      rw [spawnLoop_ends fuel _ (k + 1) (afterForks_spawn E₀ h)]
      constructor
      · intro hx
        obtain ⟨n, hn, hle⟩ := hx
        exact ⟨n + 1, by omega, by rwa [show k + (n + 1) = k + 1 + n by omega]⟩
      · intro hx
        obtain ⟨n, hn, hle⟩ := hx
        cases n with
        | zero => rw [Nat.add_zero] at hle; omega
        | succ n => exact ⟨n, by omega, by rwa [show k + 1 + n = k + (n + 1) by omega]⟩
    · refine ⟨fun _ => ⟨0, Nat.zero_le _, by rw [Nat.add_zero]; omega⟩, fun _ => ⟨v, rfl⟩⟩

variable (w results)

theorem afterForks_zero : AfterForks w results w 0 := ⟨rfl, by simp [successes]⟩

/-- **The loop of `start_children` ends** after finitely many forks exactly
when some finite part of the kernel's results grants the missing runtimes. -/
theorem startChildren_ends_iff (num : Int) :
    (∃ fuel w', startChildren (scriptedEnv E₀ w results) fuel num w = some w') ↔
      ∃ n, min num maxConnections - w.runtimes ≤ successes results n := by
  have hmin : (if (maxConnections : Int) < num then (maxConnections : Int) else num) = min num maxConnections := by
    split <;> omega
  unfold startChildren
  rw [hmin]
  constructor
  · intro hx
    obtain ⟨fuel, hw⟩ := hx
    obtain ⟨n, _, hn⟩ := (spawnLoop_ends E₀ fuel w 0 (afterForks_zero w results)).mp hw
    exact ⟨n, by rwa [Nat.zero_add] at hn⟩
  · intro hx
    obtain ⟨n, hn⟩ := hx
    exact ⟨n, (spawnLoop_ends E₀ n w 0 (afterForks_zero w results)).mpr ⟨n, le_rfl, by rwa [Nat.zero_add]⟩⟩

end

/-- With every fork refused, the call in `main` never ends. -/
theorem startChildren_diverges : Assumption.Reachable {} launcher.init ∧
    ∀ fuel, startChildren (scriptedEnv idealEnv launcher.init.world fun _ => -1) fuel initClients
      launcher.init.world = none := by
  refine ⟨.init, ?_⟩
  intro fuel
  apply Option.eq_none_iff_forall_ne_some.mpr
  intro w' hw
  obtain ⟨n, _, hn⟩ := (spawnLoop_ends idealEnv fuel launcher.init.world 0 (afterForks_zero _ _)).mp ⟨w', hw⟩
  have hzero : successes (fun _ => -1) (0 + n) = 0 := by simp [successes]
  rw [hzero] at hn
  exact absurd hn (by decide)

end P4Ubpf
