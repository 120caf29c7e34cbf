import P4Ubpf.Assume

/-!
# Pool accounting

The counter equals the number of recorded runtimes, so `start_children` only
forks while the table has room, `add_runtime_entry` always finds a slot, and
every child ever forked is either still recorded or was terminated.
-/

namespace P4Ubpf

open P4runtime Relation

/-! ## Children in the trace -/

def Event.forked : Event → Option Int
  | .fork result => if 0 < result then some result else none
  | _ => none

def Event.killed : Event → Option Int
  | .kill pid _ => some pid
  | _ => none

def forkedPids (trace : List Event) : List Int := trace.filterMap Event.forked

def killedPids (trace : List Event) : List Int := trace.filterMap Event.killed

theorem note_forked {e : Event} (h : e.isNote = true) : e.forked = none := by
  cases e <;> first | rfl | simp [Event.isNote] at h

theorem note_killed {e : Event} (h : e.isNote = true) : e.killed = none := by
  cases e <;> first | rfl | simp [Event.isNote] at h

theorem note_not_started {e : Event} (h : e.isNote = true) (pid : Int) (slot : Option Slot) :
    e ≠ .startedChild pid slot := by
  intro he; subst he; simp [Event.isNote] at h

/-! ## The invariant -/

/-- The table is well formed and holds every child not yet terminated. -/
structure Entries (w : World) : Prop where
  pid_range : ∀ i, (w.runtimesTable i).pid = -1 ∨ 0 < (w.runtimesTable i).pid
  inUse_present : ∀ i, (w.runtimesTable i).inUse = true → 0 < (w.runtimesTable i).pid
  recorded : ∀ pid slot, .startedChild pid slot ∈ w.trace → slot ≠ none
  conserved : ∀ p, 0 < p → (forkedPids w.trace).count p =
    (killedPids w.trace).count p + Slots.count (fun r => r.pid = p) w.runtimesTable

structure Accounted (w : World) : Prop extends Entries w where
  counter : w.runtimes = Slots.count Present w.runtimesTable

section
variable {E : Env} {w w' : World}

theorem accounted_init : Accounted .init where
  pid_range := fun _ => .inl rfl
  inUse_present := fun _ h => by cases h
  recorded := fun _ _ h => by cases h
  conserved := fun p hp => by
    have h0 : Slots.count (fun r : P4runtime => r.pid = p) World.init.runtimesTable = 0 :=
      Slots.count_eq_zero.mpr fun _ h => by
        have : (-1 : Int) = p := h
        omega
    rw [h0]; rfl
  counter := by
    have h0 : Slots.count Present World.init.runtimesTable = 0 :=
      Slots.count_eq_zero.mpr fun _ h => by
        have : (0 : Int) < -1 := h
        omega
    rw [h0]; rfl

theorem entries_frame (h : Entries w) (ht : w'.runtimesTable = w.runtimesTable) (htr : w'.trace = w.trace) :
    Entries w' := by
  refine ⟨?_, ?_, ?_, ?_⟩
  · rw [ht]; exact h.pid_range
  · rw [ht]; exact h.inUse_present
  · rw [htr]; exact h.recorded
  · rw [ht, htr]; exact h.conserved

theorem entries_event (h : Entries w) {e : Event} (htr : w'.trace = e :: w.trace) (hf : e.forked = none)
    (hk : e.killed = none) (hs : ∀ pid slot, e ≠ .startedChild pid slot)
    (hp : ∀ i, (w'.runtimesTable i).pid = (w.runtimesTable i).pid)
    (hu : ∀ i, (w'.runtimesTable i).inUse = true → 0 < (w'.runtimesTable i).pid) : Entries w' := by
  refine ⟨fun i => by rw [hp]; exact h.pid_range i, hu, ?_, ?_⟩
  · intro pid slot hm
    rw [htr, List.mem_cons] at hm
    rcases hm with hm | hm
    · exact absurd hm.symm (hs pid slot)
    · exact h.recorded pid slot hm
  · intro p hpos
    have hc : Slots.count (fun r : P4runtime => r.pid = p) w'.runtimesTable =
        Slots.count (fun r : P4runtime => r.pid = p) w.runtimesTable :=
      Nat.le_antisymm (Slots.count_mono fun i hi => (hp i).symm.trans hi)
        (Slots.count_mono fun i hi => (hp i).trans hi)
    rw [htr, hc, forkedPids, killedPids, List.filterMap_cons_none hf, List.filterMap_cons_none hk]
    exact h.conserved p hpos

theorem entries_note (h : Entries w) {e : Event} (he : e.isNote = true) : Entries (w.log e) :=
  entries_event h rfl (note_forked he) (note_killed he) (note_not_started he) (fun _ => rfl) h.inUse_present

theorem entries_drop (h : Entries w) {i : Slot} (hi : 0 < (w.runtimesTable i).pid) : Entries (dropEntry E i w) := by
  have htr := drop_trace E i w hi
  refine ⟨?_, ?_, ?_, ?_⟩
  · intro j
    rw [drop_table]
    by_cases hj : j = i
    · subst hj; simp [P4runtime.empty]
    · simpa [hj] using h.pid_range j
  · intro j
    rw [drop_table]
    by_cases hj : j = i
    · subst hj; simp [P4runtime.empty]
    · simpa [hj] using h.inUse_present j
  · intro pid slot hm
    rw [htr] at hm
    simp only [List.mem_cons, reduceCtorEq, false_or] at hm
    exact h.recorded pid slot hm
  · intro p hp
    have hc := Slots.count_update (fun r : P4runtime => r.pid = p) w.runtimesTable i .empty
    have hne : ¬ (P4runtime.empty.pid = p) := by simp [P4runtime.empty]; omega
    simp only [hne, ite_false] at hc
    have hold := h.conserved p hp
    rw [htr, drop_table]
    simp only [forkedPids, killedPids, List.filterMap_cons, Event.forked, Event.killed, List.count_cons,
      beq_iff_eq] at hold ⊢
    omega

/-! ## `stop` -/

theorem stopLoop_table : ∀ (is : List Slot) (w : World) (j : Slot), (stopLoop E is w).runtimesTable j =
    if j ∈ is ∧ 0 < (w.runtimesTable j).pid then .empty else w.runtimesTable j
  | [], w, j => by simp [stopLoop]
  | i :: is, w, j => by
    simp only [stopLoop]
    rw [stopLoop_table is]
    by_cases hj : j = i
    · subst hj
      by_cases hp : 0 < (w.runtimesTable j).pid
      · simp [hp, P4runtime.empty]
      · simp [hp]
    · split
      · simp [hj]
      · simp [hj]

theorem stopLoop_links (is : List Slot) (w : World) : (stopLoop E is w).links = w.links :=
  stopLoop_induct (I := fun v => v.links = w.links) (fun v i _ hv => (drop_links E i v).trans hv) is w rfl

theorem stop_absent (E : Env) (w : World) (i : Slot) : ¬ 0 < ((stopAllChildren E w).runtimesTable i).pid := by
  rw [stopAllChildren, World.setRuntimes_table, stopLoop_table]
  split
  · simp [P4runtime.empty]
  · rename_i h; exact fun hp => h ⟨Slots.mem_all i, hp⟩

theorem stop_links (E : Env) (w : World) : (stopAllChildren E w).links = w.links := by
  rw [stopAllChildren, World.setRuntimes_links, stopLoop_links]

theorem accounted_stop (h : Entries w) : Accounted (stopAllChildren E w) := by
  refine ⟨?_, ?_⟩
  · have hloop : Entries (stopLoop E (Slots.all _) w) := stopLoop_induct (fun _ _ hi hv => entries_drop hv hi) _ w h
    exact entries_frame hloop (World.setRuntimes_table _ 0) (World.setRuntimes_trace _ 0)
  · have hzero : Slots.count Present (stopAllChildren E w).runtimesTable = 0 :=
      Slots.count_eq_zero.mpr (stop_absent E w)
    rw [hzero, stopAllChildren, World.setRuntimes_runtimes]; rfl

/-! ## Elementary steps -/

theorem count_lt_of_room (h : Accounted w) (hroom : w.runtimes < maxConnections) :
    Slots.count Present w.runtimesTable < maxConnections := by
  have := h.counter; omega

theorem exists_unused (h : Accounted w) (hroom : w.runtimes < maxConnections) :
    ∃ i, unusedIndex w = some i ∧ (w.runtimesTable i).pid = -1 := by
  obtain ⟨i, hi⟩ := Slots.count_lt_iff.mp (count_lt_of_room h hroom)
  have hpid : (w.runtimesTable i).pid = -1 := (h.pid_range i).resolve_right hi
  obtain ⟨j, hj⟩ := Slots.exists_first? (p := fun r : P4runtime => r.pid = -1) hpid
  exact ⟨j, hj, Slots.first?_spec hj⟩

theorem fork_cases (h : Accounted w) (hroom : w.runtimes < maxConnections) (pid : Int) :
    (pid ≤ 0 ∧ ∃ es, (∀ e ∈ es, e = .fork pid ∨ e = .forkFailure) ∧
      afterFork pid (w.log (.fork pid)) = { w with trace := es ++ w.trace }) ∨
    (0 < pid ∧ ∃ i, (w.runtimesTable i).pid = -1 ∧ afterFork pid (w.log (.fork pid)) =
      { w with
        runtimesTable := Function.update w.runtimesTable i ⟨pid, false⟩
        runtimes := w.runtimes + 1
        children := ⟨pid, false, false⟩ :: w.children
        trace := .startedChild pid (some i) :: .fork pid :: w.trace }) := by
  obtain ⟨i, hi, hpid⟩ := exists_unused h hroom
  have hi' : unusedIndex (w.log (.fork pid)) = some i := hi
  unfold afterFork
  by_cases hneg : pid < 0
  · rw [if_pos hneg]
    exact .inl ⟨by omega, [.forkFailure, .fork pid], by simp, rfl⟩
  by_cases hzero : pid = 0
  · rw [if_neg hneg, if_pos hzero]
    exact .inl ⟨by omega, [.fork pid], by simp, rfl⟩
  · refine .inr ⟨by omega, i, hpid, ?_⟩
    rw [if_neg hneg, if_neg hzero]
    simp only [addRuntimeEntry, hi']
    rfl

theorem accounted_fork (h : Accounted w) (hroom : w.runtimes < maxConnections) (pid : Int) :
    Accounted (afterFork pid (w.log (.fork pid))) := by
  rcases fork_cases h hroom pid with ⟨hle, es, hes, heq⟩ | ⟨hpos, i, hi, heq⟩
  · rw [heq]
    have hnone : ∀ e ∈ es, e.forked = none ∧ e.killed = none := fun e he => by
      rcases hes e he with rfl | rfl
      · simp [Event.forked, Event.killed, hle]
      · exact ⟨rfl, rfl⟩
    refine ⟨⟨h.pid_range, h.inUse_present, ?_, ?_⟩, h.counter⟩
    · intro p slot hm
      rcases List.mem_append.mp hm with hm | hm
      · rcases hes _ hm with he | he <;> cases he
      · exact h.recorded p slot hm
    · intro p hp
      have hf : es.filterMap Event.forked = [] := List.filterMap_eq_nil_iff.mpr fun e he => (hnone e he).1
      have hk : es.filterMap Event.killed = [] := List.filterMap_eq_nil_iff.mpr fun e he => (hnone e he).2
      simp only [forkedPids, killedPids, List.filterMap_append, hf, hk, List.nil_append]
      exact h.conserved p hp
  · rw [heq]
    refine ⟨⟨?_, ?_, ?_, ?_⟩, ?_⟩
    · intro j
      by_cases hj : j = i
      · subst hj; simpa using Or.inr hpos
      · simpa [hj] using h.pid_range j
    · intro j
      by_cases hj : j = i
      · subst hj; simp
      · simpa [hj] using h.inUse_present j
    · intro p slot hm
      simp only [List.mem_cons, Event.startedChild.injEq, reduceCtorEq, false_or] at hm
      rcases hm with ⟨_, rfl⟩ | hm
      · exact Option.some_ne_none i
      · exact h.recorded p slot hm
    · intro p hp
      have hc := Slots.count_update (fun r : P4runtime => r.pid = p) w.runtimesTable i ⟨pid, false⟩
      have hne : ¬ ((w.runtimesTable i).pid = p) := by omega
      simp only [hne, ite_false] at hc
      have hold := h.conserved p hp
      simp only [forkedPids, killedPids, List.filterMap_cons, Event.forked, Event.killed, hpos, ite_true,
        List.count_cons, beq_iff_eq] at hold ⊢
      omega
    · have hc := Slots.count_update Present w.runtimesTable i ⟨pid, false⟩
      have hne : ¬ Present (w.runtimesTable i) := by
        show ¬ 0 < (w.runtimesTable i).pid
        omega
      have hyes : Present ⟨pid, false⟩ := hpos
      simp only [hne, hyes, ite_true, ite_false] at hc
      have := h.counter
      show w.runtimes + 1 = (Slots.count Present (Function.update w.runtimesTable i ⟨pid, false⟩) : ℕ)
      omega

theorem accounted_event (h : Accounted w) {e : Event} (hf : e.forked = none) (hk : e.killed = none)
    (hs : ∀ pid slot, e ≠ .startedChild pid slot) : Accounted (w.log e) where
  toEntries := entries_event h.toEntries rfl hf hk hs (fun _ => rfl) h.inUse_present
  counter := h.counter

theorem accounted_retire (h : Accounted w) {i : Slot} (hi : (w.runtimesTable i).Idle) : Accounted (retire E i w) where
  toEntries := entries_frame (entries_drop h.toEntries hi.1) rfl rfl
  counter := by
    have hc := Slots.count_update Present w.runtimesTable i .empty
    have hyes : Present (w.runtimesTable i) := hi.1
    have hne : ¬ Present .empty := by show ¬ (0 : Int) < -1; omega
    simp only [hne, hyes, ite_true, ite_false] at hc
    have := h.counter
    rw [retire_table, retire_runtimes]
    omega

theorem accounted_setInUse (h : Accounted w) {i : Slot} {b : Bool} (hb : b = true → 0 < (w.runtimesTable i).pid)
    (ht : w'.runtimesTable = Function.update w.runtimesTable i ((w.runtimesTable i).setInUse b))
    (hr : w'.runtimes = w.runtimes) (htr : w'.trace = w.trace) : Accounted w' := by
  have hpid : ∀ j, (w'.runtimesTable j).pid = (w.runtimesTable j).pid := fun j => by
    rw [ht]
    by_cases hj : j = i
    · subst hj; simp
    · simp [hj]
  refine ⟨⟨fun j => by rw [hpid]; exact h.pid_range j, ?_, by rw [htr]; exact h.recorded, ?_⟩, ?_⟩
  · intro j hu
    rw [hpid]
    rw [ht] at hu
    by_cases hj : j = i
    · subst hj; exact hb (by simpa using hu)
    · exact h.inUse_present j (by simpa [hj] using hu)
  · intro p hp
    rw [ht, htr, Slots.count_update_of_iff (fun r : P4runtime => r.pid = p) (i := i) (by simp)]
    exact h.conserved p hp
  · rw [ht, hr, Slots.count_update_of_iff Present (i := i) (by simp [Present])]
    exact h.counter

theorem accounted_link (h : Accounted w) {j : Slot} (hj : (w.runtimesTable j).Idle) (idx : Slot) :
    Accounted (link j idx w) := by
  have hset : Accounted ((w.setRuntime j ((w.runtimesTable j).setInUse true)).setP4runtimeId idx
      (w.runtimesTable j).pid) := accounted_setInUse h (fun _ => hj.1) rfl rfl rfl
  exact accounted_event hset rfl rfl (fun _ _ => Event.noConfusion)

theorem accounted_unlink (h : Accounted w) (idx : Slot) : Accounted (unlink idx w) := by
  unfold unlink
  simp only
  split
  · exact accounted_setInUse h (fun hf => by cases hf) rfl rfl rfl
  · exact ⟨entries_frame h.toEntries rfl rfl, h.counter⟩

theorem accounted_env (h : Accounted w) (e : EnvStep) : Accounted (w.env e) where
  toEntries := entries_frame h.toEntries (by simp) (by simp)
  counter := by simpa using h.counter

theorem accounted_micro (hs : Micro E w w') (h : Accounted w) : Accounted w' := by
  cases hs with
  | pool hp =>
    cases hp with
    | env _ => exact accounted_env h _
    | fork hroom => exact accounted_fork h hroom _
    | retire hi => exact accounted_retire h hi
  | note he => exact ⟨entries_note h.toEntries he, h.counter⟩
  | link hj _ => exact accounted_link h hj _
  | unlink _ => exact accounted_unlink h _

end

theorem accounted_reachable {A : Assumption} {c : Config} (hr : A.Reachable c) : Accounted c.world :=
  hr.world_inv accounted_init (fun _ e _ h => accounted_env h e) (fun _ _ _ _ hs h => accounted_micro hs h)
    (fun _ _ _ _ _ h => accounted_stop h.toEntries)

/-- **Pool accounting.** -/
theorem pool_accounting {c : Config} (hr : Assumption.Reachable {} c) :
    c.world.runtimes = Slots.count Present c.world.runtimesTable ∧
    0 ≤ c.world.runtimes ∧ c.world.runtimes ≤ maxConnections ∧
    (∀ i, (c.world.runtimesTable i).pid = -1 ∨ 0 < (c.world.runtimesTable i).pid) ∧
    (∀ i, (c.world.runtimesTable i).inUse = true → 0 < (c.world.runtimesTable i).pid) ∧
    (∀ pid slot, .startedChild pid slot ∈ c.world.trace → slot ≠ none) ∧
    ∀ p, 0 < p → (forkedPids c.world.trace).count p =
      (killedPids c.world.trace).count p + Slots.count (fun r => r.pid = p) c.world.runtimesTable := by
  have h := accounted_reachable hr
  have hle := Slots.count_le Present c.world.runtimesTable
  have hcounter := h.counter
  exact ⟨hcounter, by omega, by omega, h.pid_range, h.inUse_present, h.recorded, h.conserved⟩

theorem pool_accounting_demo : ∃ c, launcher.run launcher.init demoActs = some c ∧
    c.world.runtimes = Slots.count Present c.world.runtimesTable ∧
    0 ≤ c.world.runtimes ∧ c.world.runtimes ≤ maxConnections ∧
    (∀ i, (c.world.runtimesTable i).pid = -1 ∨ 0 < (c.world.runtimesTable i).pid) ∧
    (∀ i, (c.world.runtimesTable i).inUse = true → 0 < (c.world.runtimesTable i).pid) ∧
    (∀ pid slot, .startedChild pid slot ∈ c.world.trace → slot ≠ none) ∧
    ∀ p, 0 < p → (forkedPids c.world.trace).count p =
      (killedPids c.world.trace).count p + Slots.count (fun r => r.pid = p) c.world.runtimesTable := by
  obtain ⟨c, hc⟩ := demo_runs
  exact ⟨c, hc, pool_accounting (demo_reachable trivial (fun _ _ _ => trivial) hc)⟩

end P4Ubpf
