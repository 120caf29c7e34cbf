import P4Ubpf.Steps

/-!
# Assumptions about the environment

What `fork` may return and what other parties may do, as predicates on `Env`,
and one environment that meets all of them.
-/

namespace P4Ubpf

namespace Env

variable (E : Env)

def ForkSucceeds : Prop := ∀ w, 0 < E.fork w

def NewToTable : Prop := ∀ w, 0 < E.fork w → ∀ i, (w.runtimesTable i).pid ≠ E.fork w

def NewToSessions : Prop := ∀ w, 0 < E.fork w → ∀ i, (w.sessionTable i).p4runtimeId ≠ E.fork w

/-- `fork` returns no pid of a child that has not been waited for. -/
def NewToChildren : Prop := ∀ w, 0 < E.fork w → ∀ c ∈ w.children, c.pid ≠ E.fork w

/-- No child exits unless `terminate_child` has signalled it. -/
def NoCrash : Prop := ∀ w pid, EnvStep.crash pid ∉ E.interfere w

def OvsQuiet : Prop := ∀ w i t, EnvStep.ovsWrite i t ∉ E.interfere w

end Env

/-! ## The session table while OVS is quiet -/

section
variable {E : Env} {w w' : World}

theorem yield_session (hq : E.OvsQuiet) (w : World) : (w.yield E).sessionTable = w.sessionTable := by
  apply World.yield_induct w E (I := fun v => v.sessionTable = w.sessionTable)
  · intro v e he hv
    obtain ⟨u, hu⟩ := he.mem
    cases e with
    | ovsWrite i t => exact absurd hu (hq u i t)
    | obey pid => exact hv
    | crash pid => exact hv
    | sigchld => exact hv
  · rfl

theorem afterFork_session (pid : Int) (w : World) : (afterFork pid w).sessionTable = w.sessionTable := by
  unfold afterFork
  split
  · rfl
  split
  · rfl
  unfold addRuntimeEntry
  split
  · rfl
  · rfl

theorem terminate_session (hq : E.OvsQuiet) (pid : Int) (w : World) :
    (terminateChild E pid w).sessionTable = w.sessionTable := by
  unfold terminateChild
  split
  · rw [World.waitpid_session, yield_session hq, World.kill_session, yield_session hq]
  · rfl

theorem poolStep_session (hq : E.OvsQuiet) (h : PoolStep E w w') : w'.sessionTable = w.sessionTable := by
  cases h with
  | @env e he =>
    obtain ⟨u, hu⟩ := he.mem
    cases e with
    | ovsWrite i t => exact absurd hu (hq u i t)
    | obey pid => rfl
    | crash pid => rfl
    | sigchld => rfl
  | fork _ => exact afterFork_session _ _
  | @retire i _ => exact terminate_session hq (w.runtimesTable i).pid w

theorem pool_session (hq : E.OvsQuiet) (h : Relation.ReflTransGen (PoolStep E) w w') :
    w'.sessionTable = w.sessionTable :=
  h.keep (I := fun v => v.sessionTable = w.sessionTable) (fun _ _ hs hv => (poolStep_session hq hs).trans hv) rfl

end

/-! ## An environment that meets them -/

def unusedPid (w : World) : ℕ :=
  ((Slots.all maxConnections).map fun i => (w.runtimesTable i).pid.natAbs + (w.links i).natAbs).sum +
    (w.children.map fun c => c.pid.natAbs).sum + 1

def idealEnv : Env := ⟨fun w => unusedPid w, fun _ => [], fun _ => 0⟩

theorem natAbs_lt_unusedPid (w : World) (i : Slot) :
    (w.runtimesTable i).pid.natAbs + (w.links i).natAbs < unusedPid w := by
  have h : (w.runtimesTable i).pid.natAbs + (w.links i).natAbs ≤
      ((Slots.all maxConnections).map fun i => (w.runtimesTable i).pid.natAbs + (w.links i).natAbs).sum :=
    List.le_sum_of_mem (List.mem_map.mpr ⟨i, Slots.mem_all i, rfl⟩)
  unfold unusedPid; omega

theorem ideal_succeeds : idealEnv.ForkSucceeds := fun w => by
  show (0 : Int) < unusedPid w
  unfold unusedPid; omega

theorem ideal_newToTable : idealEnv.NewToTable := fun w _ i h => by
  have hlt := natAbs_lt_unusedPid w i
  have h : (w.runtimesTable i).pid = unusedPid w := h
  omega

theorem ideal_newToSessions : idealEnv.NewToSessions := fun w _ i h => by
  have hlt := natAbs_lt_unusedPid w i
  have h : w.links i = unusedPid w := h
  omega

theorem ideal_newToChildren : idealEnv.NewToChildren := fun w _ c hc h => by
  have hle : c.pid.natAbs ≤ (w.children.map fun c => c.pid.natAbs).sum :=
    List.le_sum_of_mem (List.mem_map.mpr ⟨c, hc, rfl⟩)
  have h : c.pid = unusedPid w := h
  unfold unusedPid at h; omega

theorem ideal_noCrash : idealEnv.NoCrash := fun _ _ => List.not_mem_nil
theorem ideal_ovsQuiet : idealEnv.OvsQuiet := fun _ _ _ => List.not_mem_nil

/-! ## A run -/

def scanActs (E : Env) (fuel : ℕ) : List Act := .beginScan :: List.replicate (2 * maxConnections) (.test E fuel)

/-- The launcher starts, OVS registers a thread on slot 0, and a scan serves it. -/
def demoActs : List Act := [.start idealEnv 1, .env (.ovsWrite 0 7)] ++ scanActs idealEnv 1

theorem demo_runs : ∃ c, launcher.run launcher.init demoActs = some c :=
  Option.isSome_iff_exists.mp (by decide +kernel)

/-- The launcher's own actions with the ideal environment, OVS's writes, and
client commands other than `stop`. -/
def Act.Ideal : Act → Prop
  | .start E _ | .test E _ => E = idealEnv
  | .env e => ∃ i t, e = .ovsWrite i t
  | .beginScan => True
  | .client E _ msg => E = idealEnv ∧ parseCommand (readBuffer msg) ≠ .stop

theorem ideal_reachable {A : Assumption} (hE : A.env idealEnv) (hs : ∀ w i t, A.step w (.ovsWrite i t))
    {as : List Act} (has : ∀ a ∈ as, a.Ideal) {c : Config} (h : launcher.run launcher.init as = some c) :
    A.Reachable c := by
  refine Lts.run_reachable ?_ .init h
  intro s a ha
  have hideal := has a ha
  cases a with
  | start E fuel => cases hideal; exact hE
  | env e => obtain ⟨i, t, rfl⟩ := hideal; exact hs _ i t
  | beginScan => exact trivial
  | test E fuel => cases hideal; exact hE
  | client E fuel msg =>
    obtain ⟨rfl, hne⟩ := hideal
    exact ⟨hE, fun hstop => absurd hstop hne⟩

@[simp] theorem ideal_start (fuel : ℕ) : (Act.start idealEnv fuel).Ideal := (rfl : idealEnv = idealEnv)
@[simp] theorem ideal_write (i : Slot) (t : Int) : (Act.env (.ovsWrite i t)).Ideal := ⟨i, t, rfl⟩
@[simp] theorem ideal_beginScan : Act.beginScan.Ideal := trivial
@[simp] theorem ideal_test (fuel : ℕ) : (Act.test idealEnv fuel).Ideal := (rfl : idealEnv = idealEnv)

theorem ideal_client (fuel : ℕ) {msg : List UInt8} (h : parseCommand (readBuffer msg) ≠ .stop) :
    (Act.client idealEnv fuel msg).Ideal := ⟨rfl, h⟩

theorem scanActs_ideal {fuel : ℕ} : ∀ a ∈ scanActs idealEnv fuel, a.Ideal := by
  intro a ha
  rcases List.mem_cons.mp ha with rfl | ha
  · exact ideal_beginScan
  · rw [List.eq_of_mem_replicate ha]; exact ideal_test fuel

theorem demo_ideal : ∀ a ∈ demoActs, a.Ideal :=
  List.forall_mem_append.mpr ⟨by simp, scanActs_ideal⟩

theorem demo_reachable {A : Assumption} (hE : A.env idealEnv) (hs : ∀ w i t, A.step w (.ovsWrite i t)) {c : Config}
    (h : launcher.run launcher.init demoActs = some c) : A.Reachable c :=
  ideal_reachable hE hs demo_ideal h

end P4Ubpf
