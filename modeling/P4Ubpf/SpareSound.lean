import P4Ubpf.CycleSound
import P4Ubpf.TaskSound
import P4Ubpf.TraceSound

/-!
# The runtime in reserve

`link_add` forks one runtime and hands one out, `link_del` takes one back and
terminates one, so what is in reserve after `start_children(INIT_CLIENTS)` is
in reserve for good, and only the `update` command adds to it. With the kernel
free to refuse forks and processes to exit at any time, it never grows.
-/

namespace P4Ubpf

open P4runtime Relation Tables

/-! ## `adjust_children` and the kernel -/

theorem adjust_ends {w : World} (h : Accounted w) {n : Int} (hn : w.runtimes ≤ n) (E₀ : Env) (results : ℕ → Int) :
    (∃ fuel w', adjustChildren (scriptedEnv E₀ w results) fuel n w = some w') ↔
      ∃ k, min n maxConnections - w.runtimes ≤ successes results k := by
  have hle := runtimes_le h
  have hclamp : (if (maxConnections : Int) < n then (maxConnections : Int) else n) = min n maxConnections := by
    split <;> omega
  by_cases hgrow : w.runtimes < min n maxConnections
  · have hmin : (if (maxConnections : Int) < min n maxConnections then (maxConnections : Int)
        else min n maxConnections) = min n maxConnections := if_neg (by omega)
    have hcall : ∀ fuel, adjustChildren (scriptedEnv E₀ w results) fuel n w =
        spawnLoop (scriptedEnv E₀ w results) (min n maxConnections) fuel w := by
      intro fuel
      rw [adjustChildren, if_neg (by omega), hclamp]
      simp only [hgrow, if_true, startChildren, hmin]
    constructor
    · intro hx
      obtain ⟨fuel, w', hw⟩ := hx
      rw [hcall] at hw
      obtain ⟨k, _, hk⟩ := (spawnLoop_ends E₀ fuel w 0 (afterForks_zero w results)).mp ⟨w', hw⟩
      exact ⟨0 + k, hk⟩
    · intro hx
      obtain ⟨k, hk⟩ := hx
      obtain ⟨w', hw⟩ := (spawnLoop_ends E₀ k w 0 (afterForks_zero w results)).mpr
        ⟨k, le_rfl, by rwa [Nat.zero_add]⟩
      exact ⟨k, w', (hcall k).trans hw⟩
  · refine ⟨fun _ => ⟨0, by omega⟩, fun _ => ⟨0, w, ?_⟩⟩
    unfold adjustChildren
    rw [hclamp]
    simp only [hgrow, if_false]
    rw [shrinkLoop_done (by omega), ite_self]

/-- **`adjust_children` under any kernel** has its effect whenever it returns.
Where it has no child to wait for, it returns exactly when the kernel grants
the forks that are missing. -/
theorem adjust_settles {c : Config} (hr : Assumption.Reachable {} c) (n : Int) :
    (∀ E fuel w', adjustChildren E fuel n c.world = some w' →
      Adjusted n c.world w' ∧ (E.OvsQuiet → w'.sessionTable = c.world.sessionTable)) ∧
    (c.world.runtimes ≤ n → ∀ (E₀ : Env) (results : ℕ → Int),
      (∃ fuel w', adjustChildren (scriptedEnv E₀ c.world results) fuel n c.world = some w') ↔
        ∃ k, min n maxConnections - c.world.runtimes ≤ successes results k) := by
  have hacc := accounted_reachable hr
  refine ⟨fun E fuel w' hw => ?_, adjust_ends hacc⟩
  exact ⟨adjust_returned hacc hw, fun hq => pool_session hq (adjust_pool hw)⟩

theorem adjust_settles_demo : ∃ c, launcher.run launcher.init demoActs = some c ∧
    (∀ E fuel w', adjustChildren E fuel 50 c.world = some w' →
      Adjusted 50 c.world w' ∧ (E.OvsQuiet → w'.sessionTable = c.world.sessionTable)) ∧
    ∀ (E₀ : Env) (results : ℕ → Int),
      (∃ fuel w', adjustChildren (scriptedEnv E₀ c.world results) fuel 50 c.world = some w') ↔
        ∃ k, min 50 maxConnections - c.world.runtimes ≤ successes results k := by
  obtain ⟨c, hc⟩ := demo_runs
  have hr : Assumption.Reachable {} c := demo_reachable trivial (fun _ _ _ => trivial) hc
  have hle : c.world.runtimes ≤ 32 := runtimes_le (accounted_reachable hr)
  obtain ⟨heffect, hends⟩ := adjust_settles hr 50
  exact ⟨c, hc, heffect, hends (by omega)⟩

/-! ## Runtimes in use -/

section
variable {E : Env} {v w w' : World} {fuel : ℕ} {j idx : Slot}

theorem link_inUseCount (hj : (v.runtimesTable j).Idle) : inUseCount (link j idx v) = inUseCount v + 1 := by
  have hc := Slots.count_update (fun r : P4runtime => r.inUse = true)
    v.runtimesTable j ((v.runtimesTable j).setInUse true)
  simp only [hj.2, setInUse_inUse, Bool.false_eq_true, ite_false, ite_true] at hc
  exact hc

theorem unlink_inUseCount (idx : Slot) (w : World) :
    inUseCount (unlink idx w) ≤ inUseCount w ∧ inUseCount w ≤ inUseCount (unlink idx w) + 1 := by
  unfold inUseCount unlink
  rw [World.setP4runtimeId_table]
  split
  · rename_i i _
    have hc := Slots.count_update (fun r : P4runtime => r.inUse = true)
      w.runtimesTable i ((w.runtimesTable i).setInUse false)
    simp only [setInUse_inUse, Bool.false_eq_true, ite_false] at hc
    rw [World.setRuntime_table]
    split at hc
    · omega
    · omega
  · omega

theorem inUseCount_tables (h : w'.tables = w.tables) : inUseCount w' = inUseCount w := by
  have ht : w'.runtimesTable = w.runtimesTable := congrArg Tables.entries h
  rw [inUseCount, ht]; rfl

structure Added (w w' : World) : Prop where
  runtimes : w'.runtimes = max (inUseCount w : Int) (min (w.runtimes + 1) maxConnections)
  handed : inUseCount w' = inUseCount w + 1 ∨ inUseCount w' = inUseCount w ∧ w'.runtimes = inUseCount w
  kills : (killedPids w'.trace).length = (killedPids w.trace).length

theorem added (h : Accounted w) (hs : linkAdd E fuel idx w = some w') : Added w w' := by
  obtain ⟨v, hv, hcase⟩ := linkAdd_cases hs
  have hadj := adjust_returned h hv
  have hrun := hadj.runtimes
  have huse : inUseCount (v.yield E) = inUseCount w := by
    rw [inUseCount, World.yield_table]; exact hadj.inUseCount_eq
  have hle := runtimes_le h
  have hkills : (killedPids v.trace).length = (killedPids w.trace).length := by
    have hk := adjust_kills h hv
    have heq := runtimes_eq h
    omega
  rcases hcase with ⟨j, hj, rfl⟩ | ⟨hnone, rfl⟩
  · refine ⟨?_, .inl ((link_inUseCount (findFree_idle hj)).trans (by rw [huse])), ?_⟩
    · exact (World.yield_runtimes v E).trans hrun
    · rw [← hkills]
      unfold link
      rw [World.log_trace, World.setP4runtimeId_trace, World.setRuntime_trace, World.yield_trace]; rfl
  · refine ⟨(World.yield_runtimes v E).trans hrun, .inr ⟨huse, ?_⟩, ?_⟩
    · have hidle : idleCount v = 0 := by
        apply Slots.count_eq_zero.mpr
        have hall := Slots.first?_eq_none.mp hnone
        rw [World.yield_table] at hall
        exact hall
      have hsplit := runtimes_eq (accounted_adjust h hv)
      rw [hadj.inUseCount_eq, hidle] at hsplit
      rw [World.log_runtimes, World.yield_runtimes]; omega
    · rw [← hkills, World.log_trace, World.yield_trace]; rfl

structure Removed (idx : Slot) (w w' : World) : Prop where
  inUse : inUseCount w' = inUseCount (unlink idx w)
  runtimes : w'.runtimes = max (inUseCount w' : Int) (w.runtimes - 1)
  kills : (killedPids w'.trace).length ≤ (killedPids w.trace).length + 1

theorem removed (h : Accounted w) (hs : linkDel E fuel idx w = some w') : Removed idx w w' := by
  have hu : Accounted (unlink idx w) := accounted_unlink h idx
  have hadj := adjust_returned hu hs
  have hrun := hadj.runtimes
  have hle := runtimes_le h
  have heq := runtimes_eq h
  have huse := unlink_inUseCount idx w
  have hk := adjust_kills hu hs
  rw [unlink_runtimes, unlink_trace] at hk
  refine ⟨hadj.inUseCount_eq, ?_, ?_⟩
  · rw [hadj.inUseCount_eq]; omega
  · omega

end

/-! ## The reserve does not grow -/

def AsksAtMost (n : Int) (_ : Config) : Act → Prop
  | .client _ _ msg => ∀ arg, parseCommand (readBuffer msg) = .update arg → atoi arg ≤ n
  | _ => True

theorem reserve_task {n : ℕ} (hn : 1 ≤ n) {c c' : Config} {a : Act} (h : Accounted c.world) (ha : AsksAtMost n c a)
    (hs : Task a c.world c'.world) (hi : c.world.runtimes ≤ inUseCount c.world + n) :
    c'.world.runtimes ≤ inUseCount c'.world + n := by
  obtain ⟨ph, w⟩ := c
  obtain ⟨ph', w'⟩ := c'
  simp only at hs h hi ⊢
  cases hs with
  | start hs =>
    obtain ⟨_, hgrow, hrun⟩ := spawnLoop_any (by decide) h hs
    rw [hgrow.inUseCount_eq h]
    have hone : (if (maxConnections : Int) < initClients then (maxConnections : Int) else initClients) = 1 := rfl
    omega
  | quiet hq =>
    rw [hq.runtimes, inUseCount_tables hq.tables]; exact hi
  | add hidx hs =>
    have hadd := added (accounted_note h rfl) hs
    have hrun := hadd.runtimes
    rw [World.log_runtimes, inUseCount_log] at hrun
    rcases hadd.handed with hu | ⟨hu, hr⟩
    · rw [inUseCount_log] at hu; omega
    · omega
  | @del E fuel idx w w' hidx hs =>
    have hrem := removed (accounted_note h rfl) hs
    have hrun := hrem.runtimes
    have hless := (unlink_inUseCount idx (w.log (.foundLost (w.links idx) idx))).2
    rw [← hrem.inUse, inUseCount_log] at hless
    rw [World.log_runtimes] at hrun
    omega
  | update hp hs =>
    have hadj := adjust_returned (accounted_note h rfl) hs
    have hrun := hadj.runtimes
    have huse := hadj.inUseCount_eq
    have hask := ha _ hp
    rw [inUseCount_log] at hrun huse
    rw [World.log_runtimes, inUseCount_log]
    omega
  | @stop E fuel msg buffer w hp =>
    have hzero : (stopAllChildren E (w.log (.command buffer))).runtimes = 0 := by
      rw [stopAllChildren, World.setRuntimes_runtimes]
    rw [World.log_runtimes, hzero]
    omega

/-- **The reserve stays bounded** by the most that a client has asked for. -/
theorem reserve_bounded {n : ℕ} (hn : 1 ≤ n) {c : Config} (hr : launcher.Reachable (AsksAtMost n) c) :
    c.world.runtimes ≤ inUseCount c.world + n := by
  refine task_inv (I := fun c => c.world.runtimes ≤ inUseCount c.world + n) hr ?_ ?_
  · show (0 : Int) ≤ _
    omega
  · exact fun c a c' hr ha _ hs hi => reserve_task hn (accounted_any hr) ha hs hi

def fiveActs : List Act :=
  [.start idealEnv 1, .client idealEnv 4 "update 5".toUTF8.data.toList, .env (.ovsWrite 0 7)]

theorem reserve_bounded_demo : ∃ c, launcher.run launcher.init (fiveActs ++ scanActs idealEnv 1) = some c ∧
    inUseCount c.world = 1 ∧ c.world.runtimes = 6 ∧ c.world.runtimes ≤ inUseCount c.world + 5 := by
  have hend : ∃ c, launcher.run launcher.init (fiveActs ++ scanActs idealEnv 1) = some c ∧ inUseCount c.world = 1 ∧
      c.world.runtimes = 6 := Lts.run_any (by decide +kernel)
  obtain ⟨c, hc, huse, hrun⟩ := hend
  have hasks : ∀ s, ∀ a ∈ fiveActs ++ scanActs idealEnv 1, AsksAtMost (5 : ℕ) s a := by
    intro s a ha
    rcases List.mem_append.mp ha with ha | ha
    · rcases List.mem_cons.mp ha with rfl | ha
      · trivial
      rcases List.mem_cons.mp ha with rfl | ha
      · intro arg harg
        have hparse : parseCommand (readBuffer "update 5".toUTF8.data.toList) = .update [53] := by decide
        cases hparse.symm.trans harg
        decide
      · cases List.mem_singleton.mp ha
        trivial
    · rcases List.mem_cons.mp ha with rfl | ha
      · trivial
      · rw [List.eq_of_mem_replicate ha]
        trivial
  exact ⟨c, hc, huse, hrun, reserve_bounded (by decide) (Lts.run_reachable hasks .init hc)⟩

/-! ## The reserve stays -/

def Command.LeavesPool : Command → Prop
  | .update _ | .stop => False
  | _ => True

/-- Runtimes come and go with sessions only, and the table has room. -/
def Steady (c : Config) : Act → Prop
  | .test _ _ => c.world.runtimes < maxConnections
  | .client _ _ msg => (parseCommand (readBuffer msg)).LeavesPool
  | _ => True

/-- Entry `r` is the one in reserve, and the entries in use lie below it. -/
structure Reserve (w : World) (r : Slot) : Prop where
  idle : (w.runtimesTable r).Idle
  only : ∀ i, (w.runtimesTable i).Idle → i = r
  below : ∀ i, (w.runtimesTable i).inUse = true → i < r

section
variable {c c' : Config} {a : Act} {E : Env} {v w w' : World} {fuel : ℕ} {idx i j r : Slot}

theorem steady_unlinked (ha : Steady c a) : unlinkedStops.ok c a := by
  cases a with
  | client E fuel msg =>
    refine ⟨trivial, fun hstop => ?_⟩
    have hleaves : (parseCommand (readBuffer msg)).LeavesPool := ha
    rw [hstop] at hleaves
    exact hleaves.elim
  | _ => trivial

theorem Reserve.congr (h : Reserve w r) (ht : w'.runtimesTable = w.runtimesTable) : Reserve w' r :=
  ⟨ht ▸ h.idle, ht ▸ h.only, ht ▸ h.below⟩

theorem Reserve.one_idle (h : Reserve w r) : idleCount w = 1 := Slots.count_eq_one.mpr ⟨r, h.idle, h.only⟩

theorem link_idleCount (hj : (v.runtimesTable j).Idle) : idleCount (link j idx v) + 1 = idleCount v := by
  have hc := Slots.count_update Idle v.runtimesTable j ((v.runtimesTable j).setInUse true)
  rw [if_pos hj, if_neg fun hno => by cases hno.2] at hc
  exact hc

/-- The runtime handed out is the lowest idle one, be it the new one or the one in reserve. -/
theorem reserve_add (h : Accounted w) (hres : Reserve w r) (hroom : w.runtimes < maxConnections)
    (hs : linkAdd E fuel idx w = some w') : ∃ r', Reserve w' r' := by
  obtain ⟨v, hv, hcase⟩ := linkAdd_cases hs
  have hadj := adjust_returned h hv
  have hgrown := hadj.grown (by omega)
  have hkept : ((v.yield E).runtimesTable r).Idle := by
    rw [World.yield_table, hgrown.kept r hres.idle.1]; exact hres.idle
  rcases hcase with ⟨j, hj, rfl⟩ | ⟨hnone, _⟩
  · have htwo : idleCount (v.yield E) = 2 := by
      have hsame : idleCount (v.yield E) = idleCount v := by rw [idleCount, World.yield_table]; rfl
      have hrun := hadj.runtimes
      have hold := runtimes_eq h
      have hnew := runtimes_eq (accounted_adjust h hv)
      have hidle := hres.one_idle
      rw [hadj.inUseCount_eq] at hnew
      omega
    have hone : idleCount (link j idx (v.yield E)) = 1 := by
      have hlink : idleCount (link j idx (v.yield E)) + 1 = _ := link_idleCount (findFree_idle hj)
      omega
    have htable : (link j idx (v.yield E)).runtimesTable =
        Function.update (v.yield E).runtimesTable j (((v.yield E).runtimesTable j).setInUse true) := rfl
    obtain ⟨k, hk, honly⟩ := Slots.count_eq_one.mp hone
    have hkj : k ≠ j := by
      rintro rfl
      rw [htable, Function.update_self] at hk
      cases hk.2
    have hjk : j < k := by
      rw [htable, Function.update_of_ne hkj] at hk
      exact lt_of_le_of_ne (Slots.first?_least hj hk) (Ne.symm hkj)
    have hrk : r ≤ k := by
      by_cases hrj : r = j
      · rw [hrj]; exact hjk.le
      · apply (honly r ?_).le
        rw [htable, Function.update_of_ne hrj]
        exact hkept
    refine ⟨k, hk, honly, fun i hi => ?_⟩
    by_cases hij : i = j
    · rw [hij]; exact hjk
    · rw [htable, Function.update_of_ne hij, World.yield_table, hadj.inUse_iff] at hi
      exact lt_of_lt_of_le (hres.below i hi) hrk
  · exact absurd hkept (Slots.first?_eq_none.mp hnone r)

theorem lowest_first (w : World) : lowestIdle w 1 = (Slots.first? Idle w.runtimesTable).toList := by
  rw [lowestIdle, idleSlots, show (1 : Int).toNat = 1 from rfl, List.take_one, List.head?_filter]; rfl

theorem unlink_first (hi : Slots.first? (fun r : P4runtime => r.pid = (w.sessionTable idx).p4runtimeId) w.runtimesTable =
      some i) (hu : (w.runtimesTable i).inUse = true) :
    (unlink idx w).runtimesTable = Function.update w.runtimesTable i ((w.runtimesTable i).setInUse false) ∧
      inUseCount (unlink idx w) + 1 = inUseCount w := by
  have htable : (unlink idx w).runtimesTable =
      Function.update w.runtimesTable i ((w.runtimesTable i).setInUse false) := by
    rw [unlink, hi]; rfl
  have hc := Slots.count_update (fun r : P4runtime => r.inUse = true)
    w.runtimesTable i ((w.runtimesTable i).setInUse false)
  simp only [hu, setInUse_inUse, Bool.false_eq_true, ite_false, ite_true] at hc
  refine ⟨htable, ?_⟩
  rw [inUseCount, htable]
  exact hc

/-- The entry that a lost session gives back lies below the reserve, so it is
the one that is terminated. -/
theorem reserve_del (h : Accounted w) (hres : Reserve w r) (hj : (w.runtimesTable j).pid = w.links idx)
    (hu : (w.runtimesTable j).inUse = true) (hs : linkDel E fuel idx w = some w') : Reserve w' r := by
  obtain ⟨i, hi⟩ := Slots.exists_first? (p := fun r : P4runtime => r.pid = (w.sessionTable idx).p4runtimeId) hj
  have hij : i ≤ j := Slots.first?_least hi hj
  have hir : i < r := lt_of_le_of_lt hij (hres.below j hu)
  have hpid : (w.runtimesTable i).pid = (w.runtimesTable j).pid :=
    (Slots.first?_spec (p := fun r : P4runtime => r.pid = (w.sessionTable idx).p4runtimeId) hi).trans hj.symm
  have hpresent : 0 < (w.runtimesTable i).pid := lt_of_lt_of_eq (h.inUse_present j hu) hpid.symm
  have hin : (w.runtimesTable i).inUse = true := by
    by_contra hno
    exact absurd (hres.only i ⟨hpresent, by simpa using hno⟩) hir.ne
  obtain ⟨htable, hless⟩ := unlink_first hi hin
  have hacc := accounted_unlink h idx
  have hadj := adjust_returned hacc hs
  have hrun := hadj.runtimes
  have hle := runtimes_le h
  have hold := runtimes_eq h
  have hnew := runtimes_eq (accounted_adjust hacc hs)
  have hidle := hres.one_idle
  rw [hadj.inUseCount_eq] at hnew
  have hone : idleCount w' = 1 := by omega
  have hdrop := hadj.dropped (by rw [unlink_runtimes]; omega)
  have hturn : (unlink idx w).runtimes - w'.runtimes = 1 := by rw [unlink_runtimes]; omega
  rw [hturn, lowest_first] at hdrop
  have hback : ((unlink idx w).runtimesTable i).Idle := by
    rw [htable, Function.update_self]
    exact ⟨hpresent, rfl⟩
  have hkept : (w'.runtimesTable r).Idle := by
    rw [hdrop.table, if_neg, htable, Function.update_of_ne hir.ne']
    · exact hres.idle
    · intro hmem
      exact absurd (Slots.first?_least (Option.mem_toList.mp hmem) hback) (not_le.mpr hir)
  obtain ⟨k, _, honly⟩ := Slots.count_eq_one.mp hone
  refine ⟨hkept, fun x hx => (honly x hx).trans (honly r hkept).symm, fun x hx => ?_⟩
  rw [hadj.inUse_iff, htable] at hx
  by_cases hxi : x = i
  · rw [hxi]; exact hir
  · rw [Function.update_of_ne hxi] at hx
    exact hres.below x hx

theorem reserve_step (hr : launcher.Reachable Steady c) (ha : Steady c a) (hstart : ∀ E fuel, a ≠ .start E fuel)
    (hs : Task a c.world c'.world) (hi : ∃ r, Reserve c.world r) : ∃ r, Reserve c'.world r := by
  have hserved := served_reachable (hr.mono fun _ _ ha => steady_unlinked ha)
  have h := accounted_any hr
  obtain ⟨r, hres⟩ := hi
  obtain ⟨ph, w⟩ := c
  obtain ⟨ph', w'⟩ := c'
  simp only at hs h hserved hres ⊢
  cases hs with
  | start _ => exact absurd rfl (hstart _ _)
  | quiet hq => exact ⟨r, hres.congr (congrArg Tables.entries hq.tables)⟩
  | add _ hs => exact reserve_add (accounted_note h rfl) (hres.congr rfl) ha hs
  | del hidx hs =>
    obtain ⟨j, hj, hu⟩ := hserved.named hidx
    exact ⟨r, reserve_del (accounted_note h rfl) (hres.congr rfl) hj hu hs⟩
  | update hp _ =>
    have hleaves : (parseCommand (readBuffer _)).LeavesPool := ha
    rw [hp] at hleaves
    exact hleaves.elim
  | stop hp =>
    have hleaves : (parseCommand (readBuffer _)).LeavesPool := ha
    rw [hp] at hleaves
    exact hleaves.elim

theorem reserve_start (h : Accounted w) (hun : Untouched w) (hs : startChildren E fuel initClients w = some w') :
    ∃ r, Reserve w' r := by
  obtain ⟨hacc, hgrow, hrun⟩ := spawnLoop_any (by decide) h hs
  have hzero : inUseCount w' = 0 := by
    rw [hgrow.inUseCount_eq h]
    apply Slots.count_eq_zero.mpr
    intro i hu
    rw [show w.runtimesTable = fun _ => .empty from congrArg Tables.entries hun.tables] at hu
    cases hu
  have hone : w'.runtimes = 1 := by rw [hrun, hun.runtimes]; rfl
  have hsplit := runtimes_eq hacc
  obtain ⟨r, hidle, honly⟩ := Slots.count_eq_one.mp (show idleCount w' = 1 by omega)
  exact ⟨r, hidle, honly, fun i hi => absurd hi (Slots.count_eq_zero.mp hzero i)⟩

end

/-- **The reserve stays**: one runtime is idle after every action, as long as
sessions alone decide and the table has room for one more, whatever pids `fork`
returns. -/
theorem reserve_kept {c : Config} (hr : launcher.Reachable Steady c) (hph : c.phase ≠ .boot) :
    idleCount c.world = 1 := by
  have hall : c.phase ≠ .boot → ∃ r, Reserve c.world r := by
    refine task_inv (I := fun c => c.phase ≠ .boot → ∃ r, Reserve c.world r) hr (fun hne => absurd rfl hne) ?_
    intro c a c' hr ha hn hs hi hne
    by_cases hboot : c.phase = .boot
    · obtain ⟨E, fuel, rfl, hstart⟩ := (hn.of_boot hboot).resolve_right hne
      exact reserve_start (accounted_any hr) (untouched_boot hr hboot) hstart
    · refine reserve_step hr ha ?_ hs (hi hboot)
      intro E fuel he
      subst he
      exact hboot hn.start_boot
  obtain ⟨r, hres⟩ := hall hph
  exact hres.one_idle

/-- Two sessions come and the first of them leaves. -/
def comeAndGo (E : Env) : List Act := [.start E 1, .env (.ovsWrite 0 7)] ++ scanActs E 1 ++
  [.env (.ovsWrite 1 8)] ++ scanActs E 1 ++ [.env (.ovsWrite 0 (-1))] ++ scanActs E 1

theorem comeAndGo_clients {E E' : Env} {fuel : ℕ} {msg : List UInt8} : Act.client E' fuel msg ∉ comeAndGo E := by
  simp [comeAndGo, scanActs]

theorem comeAndGo_ideal : ∀ a ∈ comeAndGo idealEnv, a.Ideal :=
  List.forall_mem_append.mpr ⟨List.forall_mem_append.mpr ⟨List.forall_mem_append.mpr
    ⟨List.forall_mem_append.mpr ⟨demo_ideal, by simp⟩, scanActs_ideal⟩, by simp⟩, scanActs_ideal⟩

/-- Every child crashes at once, and `fork` returns its pid again. -/
def reuseEnv : Env := ⟨fun _ => 5, fun _ => [.crash 5, .sigchld], fun _ => 0⟩

theorem reserve_kept_demo : ∃ c, launcher.Reachable Steady c ∧ c.phase ≠ .boot ∧ inUseCount c.world = 1 ∧
    forkedPids c.world.trace = [5, 5, 5] ∧ idleCount c.world = 1 := by
  have hend : ∃ c, (launcher.guard fun c _ => c.world.runtimes < maxConnections).run launcher.init (comeAndGo reuseEnv) =
      some c ∧ c.phase ≠ .boot ∧ inUseCount c.world = 1 ∧ forkedPids c.world.trace = [5, 5, 5] :=
    Lts.run_any (by decide +kernel)
  obtain ⟨c, hc, hph, huse, hforks⟩ := hend
  have hr : launcher.Reachable Steady c := by
    refine Lts.guard_reachable ?_ .init hc
    intro s a ha hroom
    cases a with
    | test E fuel =>
      have hlt : s.world.runtimes < maxConnections := by simpa using hroom
      exact hlt
    | client E fuel msg => exact absurd ha comeAndGo_clients
    | _ => trivial
  exact ⟨c, hr, hph, huse, hforks, reserve_kept hr hph⟩

/-! ## Processes started and ended -/

def Event.isNew : Event → Bool
  | .foundNew .. => true
  | _ => false

def Event.isLost : Event → Bool
  | .foundLost .. => true
  | _ => false

def Event.Unfound (e : Event) : Prop := e.isNew = false ∧ e.isLost = false

theorem unfound_plain {e : Event} (he : e.isNote = false) : e.Unfound := by
  cases e <;> first | exact ⟨rfl, rfl⟩ | cases he

theorem unfound_talk {e : Event} (he : e.isTalk = true) : e.Unfound := by
  cases e <;> first | exact ⟨rfl, rfl⟩ | cases he

/-- Each session costs at most one `fork` when it comes and one `kill` when
it leaves. -/
structure Budget (w : World) : Prop where
  kills : (killedPids w.trace).length ≤ w.trace.countP Event.isLost
  pool : (killedPids w.trace).length + w.runtimes ≤ initClients + w.trace.countP Event.isNew

section
variable {E : Env} {w w' : World} {fuel : ℕ} {idx : Slot}

theorem linkAdd_unfound (h : linkAdd E fuel idx w = some w') : w.Adds Event.Unfound w' := by
  obtain ⟨v, hv, hcase⟩ := linkAdd_cases h
  have hpool : w.Adds Event.Unfound v := (pool_adds (adjust_pool hv)).mono fun _ => unfound_plain
  have hyield : w.Adds Event.Unfound (v.yield E) := hpool.trans (.same (World.yield_trace v E))
  rcases hcase with ⟨j, _, rfl⟩ | ⟨_, rfl⟩
  · exact hyield.trans (.one rfl ⟨rfl, rfl⟩)
  · exact hyield.trans (.one rfl ⟨rfl, rfl⟩)

theorem linkDel_unfound (h : linkDel E fuel idx w = some w') : w.Adds Event.Unfound w' := by
  have hpool : (unlink idx w).Adds Event.Unfound w' := (pool_adds (adjust_pool h)).mono fun _ => unfound_plain
  exact World.Adds.trans (.same (unlink_trace idx w)) hpool

theorem talk_killed {e : Event} (he : e.isTalk = true) : e.killed = none := by
  cases e <;> first | rfl | cases he

theorem quiet_kills (h : Quiet w w') : killedPids w'.trace = killedPids w.trace := by
  obtain ⟨es, htr, hes⟩ := h.lines
  have hnone : es.filterMap Event.killed = [] := List.filterMap_eq_nil_iff.mpr fun e he => talk_killed (hes e he)
  rw [htr, killedPids, List.filterMap_append, hnone]; rfl

theorem budget_start (hun : Untouched w) (h : Accounted w) (hs : startChildren E fuel initClients w = some w') :
    Budget w' := by
  obtain ⟨_, hgrow, hrun⟩ := spawnLoop_any (by decide) h hs
  obtain ⟨es, htr, hk⟩ := hgrow.killed
  have hnone : killedPids w'.trace = [] := by rw [htr, hun.trace, List.append_nil]; exact hk
  have hone : w'.runtimes = initClients := by rw [hrun, hun.runtimes]; rfl
  refine ⟨?_, ?_⟩
  · rw [hnone]; exact Nat.zero_le _
  · rw [hnone, hone, List.length_nil]; omega

theorem budget_add (h : Accounted w) (t : Int) (hs : linkAdd E fuel idx (w.log (.foundNew t idx)) = some w')
    (hb : Budget w) : Budget w' := by
  have hadd := added (accounted_note h rfl) hs
  have hrun := hadd.runtimes
  have hkills := hadd.kills
  have hadds := linkAdd_unfound hs
  have hnew := hadds.countP (p := Event.isNew) fun _ he => he.1
  have hlost := hadds.countP (p := Event.isLost) fun _ he => he.2
  have hk0 : (killedPids (w.log (.foundNew t idx)).trace).length = (killedPids w.trace).length := rfl
  have hnew0 : (w.log (.foundNew t idx)).trace.countP Event.isNew = w.trace.countP Event.isNew + 1 := by
    rw [World.log_trace, List.countP_cons]; rfl
  have hlost0 : (w.log (.foundNew t idx)).trace.countP Event.isLost = w.trace.countP Event.isLost := by
    rw [World.log_trace, List.countP_cons]; rfl
  have heq := runtimes_eq h
  rw [World.log_runtimes, inUseCount_log] at hrun
  have hbk := hb.kills
  have hbp := hb.pool
  refine ⟨?_, ?_⟩
  · omega
  · omega

theorem budget_del (h : Accounted w) (p : Int) (hs : linkDel E fuel idx (w.log (.foundLost p idx)) = some w')
    (hb : Budget w) : Budget w' := by
  have hu : Accounted (unlink idx (w.log (.foundLost p idx))) := accounted_unlink (accounted_note h rfl) idx
  have hk := adjust_kills hu hs
  rw [unlink_runtimes, unlink_trace] at hk
  have hrem := removed (accounted_note h rfl) hs
  have hrun := hrem.runtimes
  have hkills := hrem.kills
  have huse := (unlink_inUseCount idx (w.log (.foundLost p idx))).1
  rw [← hrem.inUse, inUseCount_log] at huse
  have hadds := linkDel_unfound hs
  have hnew := hadds.countP (p := Event.isNew) fun _ he => he.1
  have hlost := hadds.countP (p := Event.isLost) fun _ he => he.2
  have hk0 : (killedPids (w.log (.foundLost p idx)).trace).length = (killedPids w.trace).length := rfl
  have hnew0 : (w.log (.foundLost p idx)).trace.countP Event.isNew = w.trace.countP Event.isNew := by
    rw [World.log_trace, List.countP_cons]; rfl
  have hlost0 : (w.log (.foundLost p idx)).trace.countP Event.isLost = w.trace.countP Event.isLost + 1 := by
    rw [World.log_trace, List.countP_cons]; rfl
  have heq := runtimes_eq h
  rw [World.log_runtimes] at hrun hk
  have hbk := hb.kills
  have hbp := hb.pool
  refine ⟨?_, ?_⟩
  · omega
  · omega

theorem budget_quiet (h : Quiet w w') (hb : Budget w) : Budget w' := by
  have hadds := h.lines.mono fun _ => unfound_talk
  have hnew := hadds.countP (p := Event.isNew) fun _ he => he.1
  have hlost := hadds.countP (p := Event.isLost) fun _ he => he.2
  refine ⟨?_, ?_⟩
  · rw [quiet_kills h, hlost]; exact hb.kills
  · rw [quiet_kills h, hnew, h.runtimes]; exact hb.pool

end

def Act.LeavesPool : Act → Prop
  | .client _ _ msg => (parseCommand (readBuffer msg)).LeavesPool
  | _ => True

theorem budget_reachable {c : Config} (hr : launcher.Reachable (fun _ a => a.LeavesPool) c) :
    c.phase ≠ .boot → Budget c.world := by
  refine task_inv (I := fun c => c.phase ≠ .boot → Budget c.world) hr (fun hne => absurd rfl hne) ?_
  intro c a c' hr ha hn hs hi hne
  have h := accounted_any hr
  by_cases hboot : c.phase = .boot
  · obtain ⟨E, fuel, rfl, hstart⟩ := (hn.of_boot hboot).resolve_right hne
    exact budget_start (untouched_boot hr hboot) h hstart
  · have hb := hi hboot
    clear hi hne
    obtain ⟨ph, w⟩ := c
    obtain ⟨ph', w'⟩ := c'
    simp only at hs h hb ⊢
    cases hs with
    | start _ => exact absurd hn.start_boot hboot
    | quiet hq => exact budget_quiet hq hb
    | add _ hs => exact budget_add h _ hs hb
    | del _ hs => exact budget_del h _ hs hb
    | update hp _ =>
      simp only [Act.LeavesPool, hp, Command.LeavesPool] at ha
    | stop hp =>
      simp only [Act.LeavesPool, hp, Command.LeavesPool] at ha

/-- **What a session costs**: at most one process started when it comes and at
most one ended when it leaves. -/
theorem churn_bounded {c : Config} (hr : launcher.Reachable (fun _ a => a.LeavesPool) c) (hph : c.phase ≠ .boot) :
    (killedPids c.world.trace).length ≤ c.world.trace.countP Event.isLost ∧
      (forkedPids c.world.trace).length ≤ 1 + c.world.trace.countP Event.isNew := by
  have hb := budget_reachable hr hph
  have hforked := forked_length (accounted_any hr) (disciplined_reachable (hr.mono fun c a _ => any_ok c a))
  have hpool := hb.pool
  have hone : initClients = 1 := rfl
  exact ⟨hb.kills, by omega⟩

theorem churn_bounded_demo : ∃ c, launcher.run launcher.init (comeAndGo idealEnv) = some c ∧
    c.world.trace.countP Event.isNew = 2 ∧ c.world.trace.countP Event.isLost = 1 ∧
    (killedPids c.world.trace).length ≤ 1 ∧ (forkedPids c.world.trace).length ≤ 3 := by
  have hend : ∃ c, launcher.run launcher.init (comeAndGo idealEnv) = some c ∧ c.phase ≠ .boot ∧
      c.world.trace.countP Event.isNew = 2 ∧ c.world.trace.countP Event.isLost = 1 :=
    Lts.run_any (by decide +kernel)
  obtain ⟨c, hc, hph, hnew, hlost⟩ := hend
  have hleaves : ∀ s : Config, ∀ a ∈ comeAndGo idealEnv, a.LeavesPool := by
    intro s a ha
    cases a with
    | client E fuel msg => exact absurd ha comeAndGo_clients
    | _ => trivial
  obtain ⟨hkills, hforks⟩ := churn_bounded (Lts.run_reachable hleaves .init hc) hph
  exact ⟨c, hc, hnew, hlost, hlost ▸ hkills, by omega⟩

/-! ## A session is never turned away -/

theorem served_add {E : Env} {w w' : World} {fuel : ℕ} {idx : Slot} (h : Matched w) (hi : w.links idx < 0)
    (hs : linkAdd E fuel idx w = some w') :
    ∃ v j, adjustChildren E fuel (w.runtimes + 1) w = some v ∧ w' = link j idx (v.yield E) := by
  obtain ⟨v, hv, hcase⟩ := linkAdd_cases hs
  have hacc := h.toAccounted
  have hadj := adjust_returned hacc hv
  have hrun := hadj.runtimes
  have hlt := inUse_lt h hi
  have hsplit := runtimes_eq (accounted_adjust hacc hv)
  have heq := runtimes_eq hacc
  rw [hadj.inUseCount_eq] at hsplit
  have hidle : 0 < idleCount v := by omega
  rcases hcase with ⟨j, _, rfl⟩ | ⟨hnone, _⟩
  · exact ⟨v, j, hv, rfl⟩
  · obtain ⟨k, hk⟩ := Slots.count_pos.mp hidle
    have hno := Slots.first?_eq_none.mp hnone k
    rw [World.yield_table] at hno
    exact absurd hk hno

/-- **A session is never turned away**: the message that no runtime is free
after the fork is never written. -/
theorem always_free {c : Config} (hr : unrecordedForks.Reachable c) : .noFreeRuntime ∉ c.world.trace := by
  refine task_inv (I := fun c => .noFreeRuntime ∉ c.world.trace) hr (by intro h; cases h) ?_
  intro c a c' hr _ _ hs hi
  have hm := matched_reachable hr
  obtain ⟨ph, w⟩ := c
  obtain ⟨ph', w'⟩ := c'
  simp only at hs hi hm ⊢
  intro hmem
  cases hs with
  | start hs => exact hi ((pool_adds (spawnLoop_pool (by decide) _ _ hs)).mem (by decide) hmem)
  | quiet hq => exact hi (hq.lines.mem (by decide) hmem)
  | @add E fuel idx w w' hidx hs =>
    have hm' : Matched (w.log (.foundNew (w.sessionTable idx).ovsThreadId idx)) :=
      ⟨accounted_note hm.toAccounted rfl, hm.range, hm.named⟩
    obtain ⟨v, j, hv, rfl⟩ := served_add hm' hidx hs
    have hold : .noFreeRuntime ∈ v.trace := by simpa [link, World.setP4runtimeId, World.setRuntime] using hmem
    have hlog := (pool_adds (adjust_pool hv)).mem (by decide) hold
    exact hi (by simpa using hlog)
  | @del E fuel idx w w' _ hs =>
    have hlog := (pool_adds (adjust_pool hs)).mem (by decide) hmem
    rw [unlink_trace] at hlog
    exact hi (by simpa using hlog)
  | update _ hs =>
    rw [World.log_trace, List.mem_cons] at hmem
    have hlog := (pool_adds (adjust_pool hs)).mem (by decide) (hmem.resolve_left Event.noConfusion)
    exact hi (by simpa using hlog)
  | @stop E fuel msg buffer w _ =>
    rw [World.log_trace, List.mem_cons] at hmem
    have hlog := (stop_adds E (w.log (.command buffer))).mem (by decide) (hmem.resolve_left Event.noConfusion)
    exact hi (by simpa using hlog)

theorem always_free_demo : ∃ c, launcher.run launcher.init (comeAndGo idealEnv) = some c ∧
    .noFreeRuntime ∉ c.world.trace := by
  have hend : ∃ c, launcher.run launcher.init (comeAndGo idealEnv) = some c ∧ c.phase = .top :=
    Lts.run_any (by decide +kernel)
  obtain ⟨c, hc, _⟩ := hend
  exact ⟨c, hc, always_free
    (ideal_reachable (A := unrecordedForks) ideal_newToTable (fun _ _ _ => trivial) comeAndGo_ideal hc)⟩

end P4Ubpf
