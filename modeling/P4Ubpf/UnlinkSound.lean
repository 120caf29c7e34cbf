import P4Ubpf.ReapSound

/-!
# Unlinking one session

`link_del` looks its runtime up by pid and lets `adjust_children` terminate
the first idle runtime. No other session is harmed while every runtime has at
most one session, which needs forks that return no pid an earlier `stop` left
in the session table.
-/

namespace P4Ubpf

open P4runtime Relation Tables

/-! ## The kernel's promises -/

/-- `fork` returns the pid of no unreaped child, and no child exits by itself. -/
def kernelOnly : Assumption where
  env := fun E => E.NewToChildren ∧ E.NoCrash
  step := fun _ e => ∀ pid, e ≠ .crash pid

def unnamedForks : Assumption where
  env := fun E => kernelOnly.env E ∧ E.NewToSessions
  step := kernelOnly.step

def Obedient (cs : List Child) : Prop := ∀ c ∈ cs, c.exited = true → c.signalled = true

section
variable {E : Env} {w w' : World} {idx : Slot}

theorem obedient_env {e : EnvStep} (he : ∀ pid, e ≠ .crash pid) (h : Obedient w.children) :
    Gentle w e ∧ Obedient (w.env e).children := by
  refine ⟨fun _ => h, ?_⟩
  cases e with
  | ovsWrite i t => exact h
  | obey pid =>
    intro c hc hx
    obtain ⟨b, hb, rfl⟩ := List.mem_map.mp hc
    by_cases hs : (b.pid = pid && b.signalled) = true
    · rw [if_pos hs]; exact (Bool.and_eq_true _ _ ▸ hs).2
    · rw [if_neg hs] at hx ⊢; exact h b hb hx
  | crash pid => exact absurd rfl (he pid)
  | sigchld => exact fun c hc => h c (List.mem_of_mem_filter hc)

theorem unnamedForks_guards : Guards unnamedForks Obedient where
  newToChildren := fun hE => hE.1.1
  step := fun he hq => obedient_env he hq
  takes := fun hE ht hq => by
    obtain ⟨v, hv⟩ := ht.mem
    exact obedient_env (fun pid heq => hE.1.2 v pid (heq ▸ hv)) hq
  nil := fun c hc => by cases hc
  fork := fun hq c hc hx => by
    rcases List.mem_cons.mp hc with rfl | hc
    · cases hx
    · exact hq c hc hx
  kill := fun {w pid} hq c hc hx => by
    obtain ⟨b, hb, rfl⟩ := List.mem_map.mp hc
    by_cases hp : b.pid = pid
    · rw [if_pos hp]
    · rw [if_neg hp] at hx ⊢; exact hq b hb hx
  waitpid := fun hq c hc => hq c (List.mem_of_mem_filter hc)

/-! ## The invariant -/

structure Orderly (w : World) : Prop extends Accounted w, Tended Obedient w where
  exclusive : w.tables.Exclusive

theorem orderly_micro (hE : unnamedForks.env E) (hs : Micro E w w') (h : Orderly w) : Orderly w' := by
  refine ⟨accounted_micro hs h.toAccounted, tended_micro unnamedForks_guards hE hs h.toAccounted h.toTended, ?_⟩
  have hfresh : 0 < E.fork w → w.tables.NewEntry (E.fork w) ∧ w.tables.NewLink (E.fork w) := fun hp =>
    ⟨tended_newEntry unnamedForks_guards hE h.toTended hp, hE.2 w hp⟩
  rcases micro_move (F := fun t p => t.NewEntry p ∧ t.NewLink p) hs h.toAccounted hfresh with hsame | hm
  · rw [hsame]; exact h.exclusive
  · exact exclusive_move hm (fun _ hf => hf) h.exclusive

theorem orderly_reachable {c : Config} (hr : unnamedForks.Reachable c) : Orderly c.world := by
  refine hr.world_inv ⟨accounted_init, tended_init unnamedForks_guards, exclusive_initial⟩ ?_ ?_ ?_
  · intro w e he h
    have hsame : (w.env e).tables = w.tables := by simp [World.tables]
    exact ⟨accounted_env h.toAccounted e, tended_env (obedient_env he h.guard) h.toTended, hsame ▸ h.exclusive⟩
  · exact fun _ _ _ hE hs h => orderly_micro hE hs h
  · intro E w e hE _ h
    refine ⟨accounted_stop h.toEntries, tended_stop unnamedForks_guards hE h.toTended, ?_⟩
    rw [stop_tables h.toEntries]
    exact exclusive_clear _

/-! ## What `link_del` leaves alone -/

/-- From `w` to `v` the sessions other than `idx` keep their runtimes, and no
runtime they name is signalled. -/
structure Spares (idx : Slot) (w v : World) : Prop where
  links : ∀ j, j ≠ idx → v.links j = w.links j
  entries : ∀ j, j ≠ idx → ∀ k, (w.runtimesTable k).pid = w.links j → (w.runtimesTable k).inUse = true →
    v.runtimesTable k = w.runtimesTable k
  signals : w.Adds (fun e => ∀ pid own, e = .kill pid own → ∀ j, j ≠ idx → w.links j ≠ pid) v

theorem spares_unlink (h : Orderly w) : Spares idx w (unlink idx w) := by
  refine ⟨?_, ?_, .same (unlink_trace idx w)⟩
  · intro j hj
    rw [unlink_links, Function.update_of_ne hj]
  · intro j hj k hk huse
    unfold unlink
    simp only [World.setP4runtimeId_table]
    split
    · rename_i i hi
      have hpid : (w.runtimesTable i).pid = w.links idx :=
        Slots.first?_spec (p := fun r : P4runtime => r.pid = (w.sessionTable idx).p4runtimeId) hi
      -- a runtime in use has one session, so `j` does not name the freed one
      have hki : k ≠ i := by
        intro he
        subst he
        have hown := h.exclusive.unique (j := k) (h.inUse_present k huse) huse
        exact hj (hown.unique hk.symm hpid.symm)
      rw [World.setRuntime_table, Function.update_of_ne hki]
    · rfl

theorem spares_pool {v v' : World} (h : Orderly v) (hs : PoolStep E v v')
    (hinUse : ∀ k, (w.runtimesTable k).inUse = true → 0 < (w.runtimesTable k).pid) (hw : Spares idx w v) :
    Spares idx w v' := by
  refine ⟨fun j hj => (congrFun (poolStep_links hs) j).trans (hw.links j hj), ?_, ?_⟩
  · intro j hj k hk huse
    have hold := hw.entries j hj k hk huse
    cases hs with
    | env he => rw [World.env_table]; exact hold
    | fork hroom =>
      rcases fork_cases h.toAccounted hroom (E.fork v) with ⟨_, es, _, heq⟩ | ⟨_, i, hi, heq⟩
      · rw [heq]; exact hold
      · have hki : k ≠ i := by
          intro he
          subst he
          have hpos := hinUse k huse
          rw [← hold, hi] at hpos
          cases hpos
        rw [heq]
        simp only [Function.update_of_ne hki]
        exact hold
    | @retire i hi =>
      have hki : k ≠ i := by
        intro he
        subst he
        rw [← hold, hi.2] at huse
        cases huse
      rw [retire_table, Function.update_of_ne hki]
      exact hold
  · apply hw.signals.trans
    cases hs with
    | env _ => exact .same (World.env_trace _ _)
    | fork hroom =>
      rcases fork_cases h.toAccounted hroom (E.fork v) with ⟨_, es, hes, heq⟩ | ⟨_, i, _, heq⟩
      · refine ⟨es, by rw [heq], ?_⟩
        intro e he pid own hk
        rcases hes e he with rfl | rfl
        · cases hk
        · cases hk
      · refine ⟨[.startedChild (E.fork v) (some i), .fork (E.fork v)], by rw [heq]; rfl, ?_⟩
        intro e he pid own hk
        rw [hk] at he
        simp at he
    | @retire i hi =>
      refine ⟨[.waitpid _, .kill _ _], retire_trace E i v hi.1, ?_⟩
      intro e he pid own hk j hj
      rw [hk] at he
      simp only [List.mem_cons, reduceCtorEq, Event.kill.injEq, List.not_mem_nil, or_false, false_or] at he
      rw [he.1, ← hw.links j hj]
      exact h.exclusive.idle hi j

end

/-! ## Unlinking one session harms no other -/

theorem unlink_spares_others {E : Env} {fuel : ℕ} {idx : Slot} {w w' : World}
    (hr : unnamedForks.Reachable ⟨.lost idx, w⟩) (hE : unnamedForks.env E)
    (hovs : (w.sessionTable idx).ovsThreadId < 0) (hp4 : 0 < (w.sessionTable idx).p4runtimeId)
    (h : checkLost E fuel idx w = some w') :
    (∀ j, j ≠ idx → ∀ k, (w.runtimesTable k).pid = (w.sessionTable j).p4runtimeId →
      (w.runtimesTable k).inUse = true → w'.runtimesTable k = w.runtimesTable k) ∧
    (∀ j, j ≠ idx → (w'.sessionTable j).p4runtimeId = (w.sessionTable j).p4runtimeId) ∧
    (E.OvsQuiet → ∀ j, j ≠ idx → w'.sessionTable j = w.sessionTable j) ∧
    ∃ es, w'.trace = es ++ w.trace ∧
      ∀ pid own, .kill pid own ∈ es → ∀ j, j ≠ idx → (w.sessionTable j).p4runtimeId ≠ pid := by
  have hw : Orderly w := orderly_reachable hr
  have hlog : Orderly (w.log (.foundLost (w.sessionTable idx).p4runtimeId idx)) := orderly_micro hE (.note rfl) hw
  unfold checkLost at h
  rw [if_pos ⟨hovs, hp4⟩] at h
  generalize hlost : w.log (.foundLost (w.sessionTable idx).p4runtimeId idx) = u at h hlog
  have hspares : Spares idx u w' ∧ Orderly w' := by
    have hunlink : Orderly (unlink idx u) := orderly_micro hE (.unlink (by rw [← hlost]; exact hp4)) hlog
    refine (adjust_pool h).keep (I := fun v => Spares idx u v ∧ Orderly v) ?_ ⟨spares_unlink hlog, hunlink⟩
    intro v v' hs hv
    exact ⟨spares_pool hv.2 hs hlog.inUse_present hv.1, orderly_micro hE (.pool hs) hv.2⟩
  have hsession : E.OvsQuiet → ∀ j, j ≠ idx → w'.sessionTable j = w.sessionTable j := by
    intro hq j hj
    rw [pool_session hq (adjust_pool h), unlink_session idx u hj, ← hlost]; rfl
  subst hlost
  refine ⟨hspares.1.entries, hspares.1.links, hsession, ?_⟩
  obtain ⟨es, htr, hes⟩ := hspares.1.signals
  refine ⟨es ++ [.foundLost (w.sessionTable idx).p4runtimeId idx], by rw [htr, List.append_assoc]; rfl, ?_⟩
  intro pid own hm
  rcases List.mem_append.mp hm with hm | hm
  · exact hes _ hm pid own rfl
  · simp at hm

def lostActs : List Act :=
  [.start idealEnv 1, .env (.ovsWrite 0 7), .env (.ovsWrite 1 8)] ++ scanActs idealEnv 1 ++
    [.env (.ovsWrite 0 (-1)), .beginScan, .test idealEnv 1]

theorem lost_ideal : ∀ a ∈ lostActs, a.Ideal :=
  List.forall_mem_append.mpr ⟨List.forall_mem_append.mpr ⟨by simp, scanActs_ideal⟩, by simp⟩

theorem unlink_spares_others_demo : ∃ w w', launcher.run launcher.init lostActs = some ⟨.lost 0, w⟩ ∧
    checkLost idealEnv 1 0 w = some w' ∧
    (∀ j, j ≠ 0 → ∀ k, (w.runtimesTable k).pid = (w.sessionTable j).p4runtimeId →
      (w.runtimesTable k).inUse = true → w'.runtimesTable k = w.runtimesTable k) ∧
    (∀ j, j ≠ 0 → (w'.sessionTable j).p4runtimeId = (w.sessionTable j).p4runtimeId) ∧
    (idealEnv.OvsQuiet → ∀ j, j ≠ 0 → w'.sessionTable j = w.sessionTable j) ∧
    ∃ es, w'.trace = es ++ w.trace ∧
      ∀ pid own, .kill pid own ∈ es → ∀ j, j ≠ 0 → (w.sessionTable j).p4runtimeId ≠ pid := by
  have hend : ∃ c, launcher.run launcher.init lostActs = some c ∧ c.phase = .lost 0 ∧
      (c.world.sessionTable 0).ovsThreadId < 0 ∧ 0 < (c.world.sessionTable 0).p4runtimeId ∧
      (checkLost idealEnv 1 0 c.world).isSome = true := Lts.run_any (by decide +kernel)
  obtain ⟨⟨ph, w⟩, hc, rfl, hovs, hp4, hsome⟩ := hend
  obtain ⟨w', hw'⟩ := Option.isSome_iff_exists.mp hsome
  have hE : unnamedForks.env idealEnv := ⟨⟨ideal_newToChildren, ideal_noCrash⟩, ideal_newToSessions⟩
  have hr : unnamedForks.Reachable ⟨.lost 0, w⟩ :=
    ideal_reachable hE (fun _ _ _ _ => EnvStep.noConfusion) lost_ideal hc
  exact ⟨w, w', hc, hw', unlink_spares_others hr hE hovs hp4 hw'⟩

/-! ## A pid that comes back -/

/-- Every fork succeeds, with the pid of a process that has been reaped
whenever one is left. -/
def recyclingEnv : Env := ⟨fun w => (w.children.map fun c => c.pid.natAbs).sum + 1, fun _ => [], fun _ => 0⟩

theorem recycling_kernelOnly : kernelOnly.env recyclingEnv := by
  refine ⟨fun w _ c hc heq => ?_, fun _ _ => List.not_mem_nil⟩
  have hle : c.pid.natAbs ≤ (w.children.map fun c => c.pid.natAbs).sum :=
    List.le_sum_of_mem (List.mem_map.mpr ⟨c, hc, rfl⟩)
  have heq : c.pid = (w.children.map fun c => c.pid.natAbs).sum + 1 := heq
  omega

/-- Slot 0 is served, a client stops the runtimes, slot 1 is served, and then
slot 0 is lost. -/
def recycledActs : List Act :=
  [.start recyclingEnv 1, .env (.ovsWrite 0 7)] ++ scanActs recyclingEnv 1 ++
    [.client recyclingEnv 1 "stop".toUTF8.data.toList, .env (.ovsWrite 1 8)] ++ scanActs recyclingEnv 1 ++
    [.env (.ovsWrite 0 (-1)), .beginScan, .test recyclingEnv 1]

theorem recycled_reachable {c : Config} (h : launcher.run launcher.init recycledActs = some c) :
    kernelOnly.Reachable c := by
  refine Lts.run_reachable ?_ .init h
  intro s a ha
  simp only [recycledActs, scanActs, List.cons_append, List.nil_append, List.append_assoc, List.mem_cons,
    List.mem_append, List.mem_replicate, List.not_mem_nil, or_false] at ha
  rcases ha with rfl | rfl | rfl | ⟨_, rfl⟩ | rfl | rfl | rfl | ⟨_, rfl⟩ | rfl | rfl | rfl
  all_goals first
    | exact recycling_kernelOnly
    | exact fun _ => EnvStep.noConfusion
    | exact trivial
    | exact ⟨recycling_kernelOnly, fun _ => trivial⟩

theorem unlink_harms_other : ∃ w w', kernelOnly.Reachable ⟨.lost 0, w⟩ ∧
    (w.sessionTable 0).ovsThreadId < 0 ∧ 0 < (w.sessionTable 0).p4runtimeId ∧
    checkLost recyclingEnv 1 0 w = some w' ∧ 0 < (w.sessionTable 1).ovsThreadId ∧
    (∃ k, (w.runtimesTable k).pid = (w.sessionTable 1).p4runtimeId ∧ (w.runtimesTable k).inUse = true) ∧
    ∀ k, (w'.runtimesTable k).pid ≠ (w'.sessionTable 1).p4runtimeId := by
  have hend : ∃ c, launcher.run launcher.init recycledActs = some c ∧ c.phase = .lost 0 ∧
      (c.world.sessionTable 0).ovsThreadId < 0 ∧ 0 < (c.world.sessionTable 0).p4runtimeId ∧
      0 < (c.world.sessionTable 1).ovsThreadId ∧
      (∃ k, (c.world.runtimesTable k).pid = (c.world.sessionTable 1).p4runtimeId ∧
        (c.world.runtimesTable k).inUse = true) ∧
      (checkLost recyclingEnv 1 0 c.world).isSome = true ∧
      ∀ w' ∈ checkLost recyclingEnv 1 0 c.world, ∀ k, (w'.runtimesTable k).pid ≠ (w'.sessionTable 1).p4runtimeId :=
    Lts.run_any (by decide +kernel)
  obtain ⟨⟨ph, w⟩, hc, rfl, hovs, hp4, hother, hserved, hsome, hgone⟩ := hend
  obtain ⟨w', hw'⟩ := Option.isSome_iff_exists.mp hsome
  exact ⟨w, w', recycled_reachable hc, hovs, hp4, hw', hother, hserved, hgone w' hw'⟩

end P4Ubpf
