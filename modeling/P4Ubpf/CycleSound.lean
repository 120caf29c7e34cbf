import P4Ubpf.ScanSound

/-!
# A session that comes and goes

`link_del` takes back what `link_add` has handed out, so only the two calls of
`adjust_children` matter. They cancel unless the table was full: then
`link_add` forks nothing and `link_del` still terminates one runtime.
-/

namespace P4Ubpf

open P4runtime Relation Tables

section
variable {E : Env} {v w w' : World} {fuel : ℕ} {j idx : Slot}

theorem unlink_link (h : Matched v) (hj : (v.runtimesTable j).Idle) :
    (unlink idx (link j idx v)).runtimesTable = v.runtimesTable := by
  have hlinked : ((link j idx v).sessionTable idx).p4runtimeId = (v.runtimesTable j).pid := by rw [link_self]
  have htable : (link j idx v).runtimesTable =
      Function.update v.runtimesTable j ((v.runtimesTable j).setInUse true) := rfl
  have hpid : ∀ i, ((link j idx v).runtimesTable i).pid = (v.runtimesTable i).pid :=
    fun i => setInUse_entry_pid (t := v.tables) j i true
  obtain ⟨i, hi⟩ := Slots.exists_first? (p := fun r : P4runtime => r.pid = ((link j idx v).sessionTable idx).p4runtimeId)
    ((hpid j).trans hlinked.symm)
  -- the pid leads back to the entry, since no other has it
  have hij : i = j := by
    have hsame : ((link j idx v).runtimesTable i).pid = ((link j idx v).sessionTable idx).p4runtimeId :=
      Slots.first?_spec hi
    rw [hpid, hlinked] at hsame
    exact h.named.distinct i j (lt_of_lt_of_eq hj.1 hsame.symm) hsame
  subst hij
  have hback : ((v.runtimesTable i).setInUse true).setInUse false = v.runtimesTable i := by
    have huse := hj.2
    cases hr : v.runtimesTable i with
    | mk pid inUse => rw [hr] at huse; simp only at huse; subst huse; rfl
  rw [unlink, hi, World.setP4runtimeId_table]
  simp only [World.setRuntime_table, htable, Function.update_self, Function.update_idem, hback, Function.update_eq_self]

theorem inUse_lt (h : Matched w) (hi : w.links idx < 0) : inUseCount w < maxConnections :=
  Nat.lt_of_le_of_lt (inUse_le_linked h) (Slots.count_lt_iff.mpr ⟨idx, by omega⟩)

/-- Slot `idx` was linked and unlinked between `w` and `w'`. -/
structure Cycled (idx : Slot) (w w' : World) : Prop where
  room : w.runtimes < maxConnections → w'.runtimes = w.runtimes ∧ idleCount w' = idleCount w
  full : w.runtimes = maxConnections → w'.runtimes = maxConnections - 1 ∧ idleCount w' + 1 = idleCount w
  inUse : inUseCount w' = inUseCount w
  served : ∀ k, (w.runtimesTable k).inUse = true → w'.runtimesTable k = w.runtimesTable k
  others : ∀ k, k ≠ idx → (w'.sessionTable k).p4runtimeId = (w.sessionTable k).p4runtimeId
  unlinked : (w'.sessionTable idx).p4runtimeId < 0

theorem link_cycle (h : Matched w) (hE : E.NewToTable) (hf : E.ForkSucceeds) (hfuel : 0 < fuel) (hi : w.links idx < 0) :
    ∃ v w', linkAdd E fuel idx w = some v ∧ linkDel E fuel idx v = some w' ∧ Cycled idx w w' := by
  have hle := runtimes_le h.toAccounted
  have heq := runtimes_eq h.toAccounted
  have hlt := inUse_lt h hi
  obtain ⟨u, hu, hup⟩ : ∃ u, adjustChildren E fuel (w.runtimes + 1) w = some u ∧ Adjusted (w.runtimes + 1) w u :=
    adjust_adjusted h.toAccounted hf (by omega)
  have hpool := (adjust_pool hu).trans (yield_pool E u)
  have hm : Matched (u.yield E) := matched_chain hE (pool_micro hpool) h
  have hlinks : (u.yield E).links = w.links := pool_links hpool
  have hsame : inUseCount (u.yield E) = inUseCount w := by
    rw [inUseCount, World.yield_table]; exact hup.inUseCount_eq
  have hrun : (u.yield E).runtimes = min (w.runtimes + 1) maxConnections := by
    have := hup.runtimes
    rw [World.yield_runtimes]; omega
  have hidle : 0 < idleCount (u.yield E) := by
    have := runtimes_eq hm.toAccounted
    omega
  obtain ⟨k, hk⟩ := Slots.count_pos.mp hidle
  obtain ⟨j, hj⟩ := Slots.exists_first? hk
  have hfind : findFreeRuntimeIndex (u.yield E) = some j := hj
  have hback : (unlink idx (link j idx (u.yield E))).runtimesTable = (u.yield E).runtimesTable :=
    unlink_link hm (findFree_idle hfind)
  have hmback : Matched (unlink idx (link j idx (u.yield E))) := by
    have hlink : Matched (link j idx (u.yield E)) :=
      matched_micro hE (.link (findFree_idle hfind) (by rw [hlinks]; exact hi)) hm
    apply matched_micro hE (.unlink _) hlink
    have hpos : (link j idx (u.yield E)).links idx = ((u.yield E).runtimesTable j).pid := by
      rw [World.links, link_self]
    rw [hpos]; exact (findFree_idle hfind).1
  obtain ⟨w', hw', hdown⟩ : ∃ w', adjustChildren E fuel (min (w.runtimes + 1) maxConnections - 1)
      (unlink idx (link j idx (u.yield E))) = some w' ∧
      Adjusted (min (w.runtimes + 1) maxConnections - 1) (unlink idx (link j idx (u.yield E))) w' :=
    adjust_adjusted hmback.toAccounted hf (by
      rw [unlink_runtimes, show (link j idx (u.yield E)).runtimes = (u.yield E).runtimes from rfl, hrun]; omega)
  have hinUse : inUseCount (unlink idx (link j idx (u.yield E))) = inUseCount w := by
    rw [inUseCount, hback]; exact hsame
  have hrun' := hdown.runtimes
  have heq' := runtimes_eq (accounted_adjust hmback.toAccounted hw')
  rw [hdown.inUseCount_eq, hinUse] at heq'
  rw [hinUse] at hrun'
  refine ⟨link j idx (u.yield E), w', ?_, ?_, ?_, ?_, hdown.inUseCount_eq.trans hinUse, ?_, ?_, ?_⟩
  · simp only [linkAdd, hu, Option.bind_eq_bind, Option.bind_some, hfind]
  · rw [linkDel, ← hw', show (link j idx (u.yield E)).runtimes = (u.yield E).runtimes from rfl, hrun]
  · intro hroom
    have hmin : min (w.runtimes + 1) (maxConnections : Int) - 1 = w.runtimes := by omega
    rw [hmin] at hrun'
    omega
  · intro hfull
    have hmin : min (w.runtimes + 1) (maxConnections : Int) - 1 = maxConnections - 1 := by omega
    rw [hmin] at hrun'
    omega
  · intro k hk
    have hkept : (u.yield E).runtimesTable k = w.runtimesTable k := by rw [World.yield_table]; exact hup.inUse k hk
    rw [hdown.inUse k (by rw [hback, hkept]; exact hk), hback, hkept]
  · intro k hk
    have hl : w'.links k = w.links k := by
      rw [hdown.links, unlink_links, Function.update_of_ne hk, link, World.log_links, World.setP4runtimeId_links,
        Function.update_of_ne hk, World.setRuntime_links, hlinks]
    exact hl
  · have hl : w'.links idx = -1 := by rw [hdown.links, unlink_links, Function.update_self]
    have hneg : w'.links idx < 0 := by omega
    exact hneg

end

/-- **Unlinking undoes linking**, and a full table loses one idle runtime. -/
theorem unlink_undoes_link {c : Config} (hr : unrecordedForks.Reachable c) {E : Env} (hE : E.NewToTable)
    (hf : E.ForkSucceeds) {fuel : ℕ} (hfuel : 0 < fuel) {idx : Slot} (hi : (c.world.sessionTable idx).p4runtimeId < 0) :
    ∃ v w', linkAdd E fuel idx c.world = some v ∧ linkDel E fuel idx v = some w' ∧ Cycled idx c.world w' :=
  link_cycle (matched_reachable hr) hE hf hfuel hi

theorem unlink_undoes_link_demo : ∃ c, launcher.run launcher.init demoActs = some c ∧
    ∃ v w', linkAdd idealEnv 1 1 c.world = some v ∧ linkDel idealEnv 1 1 v = some w' ∧ Cycled 1 c.world w' := by
  have hfree : ∃ c, launcher.run launcher.init demoActs = some c ∧ (c.world.sessionTable 1).p4runtimeId < 0 :=
    Lts.run_any (by decide +kernel)
  obtain ⟨c, hc, hi⟩ := hfree
  have hr : unrecordedForks.Reachable c :=
    demo_reachable (A := unrecordedForks) ideal_newToTable (fun _ _ _ => trivial) hc
  exact ⟨c, hc, unlink_undoes_link hr ideal_newToTable ideal_succeeds (by decide) hi⟩

def fullActs : List Act := [.start idealEnv 1, .client idealEnv 31 "update 32".toUTF8.data.toList]

theorem full_pool_shrinks : ∃ c, launcher.run launcher.init fullActs = some c ∧ unrecordedForks.Reachable c ∧
    (c.world.sessionTable 0).p4runtimeId < 0 ∧ c.world.runtimes = 32 ∧
    ∃ v w', linkAdd idealEnv 1 0 c.world = some v ∧ linkDel idealEnv 1 0 v = some w' ∧ w'.runtimes = 31 := by
  have hend : ∃ c, launcher.run launcher.init fullActs = some c ∧ (c.world.sessionTable 0).p4runtimeId < 0 ∧
      c.world.runtimes = 32 := Lts.run_any (by decide +kernel)
  obtain ⟨c, hc, hi, hfull⟩ := hend
  have hideal : ∀ a ∈ fullActs, a.Ideal :=
    List.forall_mem_cons.mpr ⟨ideal_start 1, List.forall_mem_singleton.mpr (ideal_client 31 (by decide))⟩
  have hr : unrecordedForks.Reachable c :=
    ideal_reachable (A := unrecordedForks) ideal_newToTable (fun _ _ _ => trivial) hideal hc
  obtain ⟨v, w', hv, hw', hcyc⟩ : ∃ v w', linkAdd idealEnv 1 0 c.world = some v ∧ linkDel idealEnv 1 0 v = some w' ∧
      Cycled 0 c.world w' := link_cycle (matched_reachable hr) ideal_newToTable ideal_succeeds (by decide) hi
  exact ⟨c, hc, hr, hi, hfull, v, w', hv, hw', (hcyc.full hfull).1⟩

end P4Ubpf
