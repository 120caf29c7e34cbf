import P4Ubpf.PoolSound
import P4Ubpf.Tables

/-!
# Sessions and the runtimes they name

The launcher's steps are moves of the two tables, so the ownership invariants
hold of the code. Sessions name runtimes in use as long as `stop` finds no
session served: it clears the entries and leaves the sessions' links.
-/

namespace P4Ubpf

open P4runtime Relation Tables

def World.tables (w : World) : Tables := ⟨w.runtimesTable, w.links⟩

/-! ## The launcher moves the tables -/

section
variable {E : Env} {w w' : World} {F : Tables → Int → Prop}

theorem fork_move (h : Accounted w) (hroom : w.runtimes < maxConnections)
    (hf : 0 < E.fork w → F w.tables (E.fork w)) :
    (afterFork (E.fork w) (w.log (.fork (E.fork w)))).tables = w.tables ∨
      Move F w.tables (afterFork (E.fork w) (w.log (.fork (E.fork w)))).tables := by
  rcases fork_cases h hroom (E.fork w) with ⟨_, es, _, heq⟩ | ⟨hpos, i, hi, heq⟩
  · rw [heq]; exact .inl rfl
  · rw [heq]; exact .inr (.spawn (t := w.tables) hi hpos (hf hpos))

theorem unlink_move {idx : Slot} (hidx : 0 < w.links idx) : Move F w.tables (unlink idx w).tables := by
  unfold unlink
  simp only
  cases hs : Slots.first? (fun r : P4runtime => r.pid = (w.sessionTable idx).p4runtimeId) w.runtimesTable with
  | some i =>
    have hi : (w.tables.entries i).pid = w.tables.links idx :=
      Slots.first?_spec (p := fun r : P4runtime => r.pid = (w.sessionTable idx).p4runtimeId) hs
    have hm : Move F w.tables _ := .release hidx hi
    simpa [World.tables] using hm
  | none =>
    have hm : Move F w.tables _ := .forget hidx (Slots.first?_eq_none.mp hs)
    simpa [World.tables] using hm

theorem micro_move (hs : Micro E w w') (h : Accounted w) (hf : 0 < E.fork w → F w.tables (E.fork w)) :
    w'.tables = w.tables ∨ Move F w.tables w'.tables := by
  cases hs with
  | pool hp =>
    cases hp with
    | env _ => exact .inl (by simp [World.tables])
    | fork hroom => exact fork_move h hroom hf
    | @retire i hi =>
      have hm : Move F w.tables _ := .retire hi
      exact .inr (by simpa [World.tables] using hm)
  | note _ => exact .inl rfl
  | @link j idx hj hidx =>
    have hm : Move F w.tables _ := .assign hj hidx
    exact .inr (by simpa [World.tables, link] using hm)
  | unlink hidx => exact .inr (unlink_move hidx)

theorem stop_tables (h : Entries w) : (stopAllChildren E w).tables = w.tables.clear := by
  have hs : Accounted (stopAllChildren E w) := accounted_stop h
  have hentry : ∀ i, (stopAllChildren E w).runtimesTable i = .empty := by
    intro i
    have hpid := (hs.pid_range i).resolve_right (stop_absent E w i)
    have huse : ((stopAllChildren E w).runtimesTable i).inUse = false := by
      by_contra hu
      exact stop_absent E w i (hs.inUse_present i (by simpa using hu))
    cases hr : (stopAllChildren E w).runtimesTable i with
    | mk pid inUse =>
      rw [hr] at hpid huse
      simp only at hpid huse
      rw [hpid, huse]; rfl
  rw [World.tables, stop_links, funext hentry]; rfl

end

theorem Assumption.Reachable.tables_inv {A : Assumption} {F : Tables → Int → Prop} {I : Tables → Prop} {c : Config}
    (hr : A.Reachable c) (h0 : I .initial)
    (hfresh : ∀ E w, A.env E → 0 < E.fork w → F w.tables (E.fork w))
    (hmove : ∀ w t', Accounted w → Move F w.tables t' → I w.tables → I t')
    (hclear : ∀ w, A.stop w → I w.tables → I w.tables.clear) : I c.world.tables := by
  have hboth : Accounted c.world ∧ I c.world.tables := by
    refine hr.world_inv (I := fun w => Accounted w ∧ I w.tables) ⟨accounted_init, h0⟩ ?_ ?_ ?_
    · intro w e _ hw
      have hsame : (w.env e).tables = w.tables := by simp [World.tables]
      exact ⟨accounted_env hw.1 e, hsame ▸ hw.2⟩
    · intro E w w' hE hs hw
      refine ⟨accounted_micro hs hw.1, ?_⟩
      rcases micro_move hs hw.1 (hfresh E w hE) with hsame | hm
      · rw [hsame]; exact hw.2
      · exact hmove w _ hw.1 hm hw.2
    · intro E w e _ hstop hw
      refine ⟨accounted_stop hw.1.toEntries, ?_⟩
      rw [stop_tables hw.1.toEntries]
      exact hclear w hstop hw.2
  exact hboth.2

theorem linkRange_reachable {A : Assumption} {c : Config} (hr : A.Reachable c) : c.world.tables.LinkRange :=
  hr.tables_inv (F := fun _ _ => True) (fun _ => .inl rfl) (fun _ _ _ _ => trivial)
    (fun _ _ _ hm hi => linkRange_move hm hi) (fun _ _ hi => hi)

/-! ## No dangling session -/

/-- `stop` is handled only while no session is served. -/
def unlinkedStops : Assumption where
  stop := fun w => ∀ i, ¬ 0 < (w.sessionTable i).p4runtimeId

theorem served_reachable {c : Config} (hr : unlinkedStops.Reachable c) : c.world.tables.Served := by
  refine hr.tables_inv (F := fun _ _ => True) ?_ (fun _ _ _ _ => trivial) (fun _ _ _ hm hi => served_move hm hi) ?_
  · exact served_clear (t := .initial) fun _ h => by simp [Tables.initial] at h
  · exact fun w hstop _ => served_clear hstop

theorem no_dangling {c : Config} (hr : unlinkedStops.Reachable c) (i : Slot)
    (hi : 0 < (c.world.sessionTable i).p4runtimeId) :
    ∃ j, (c.world.runtimesTable j).pid = (c.world.sessionTable i).p4runtimeId ∧
      (c.world.runtimesTable j).inUse = true :=
  (served_reachable hr).named hi

theorem no_dangling_demo : ∃ c, launcher.run launcher.init demoActs = some c ∧
    ∃ j, (c.world.runtimesTable j).pid = (c.world.sessionTable 0).p4runtimeId ∧
      (c.world.runtimesTable j).inUse = true := by
  have hserved : ∃ c, launcher.run launcher.init demoActs = some c ∧ 0 < (c.world.sessionTable 0).p4runtimeId :=
    Lts.run_any (by decide +kernel)
  obtain ⟨c, hc, hpos⟩ := hserved
  exact ⟨c, hc, no_dangling (demo_reachable trivial (fun _ _ _ => trivial) hc) 0 hpos⟩

/-- The launcher serves slot 0, a client sends `stop`, and one more scan runs. -/
def stopActs : List Act :=
  demoActs ++ [.client idealEnv 1 "stop".toUTF8.data.toList] ++ scanActs idealEnv 1

theorem stop_dangles : ∃ c, launcher.run launcher.init stopActs = some c ∧ c.phase = .top ∧
    0 < (c.world.sessionTable 0).ovsThreadId ∧ 0 < (c.world.sessionTable 0).p4runtimeId ∧
    (c.world.sessionTable 0).p4runtimeId ∈ killedPids c.world.trace ∧
    ∀ j, (c.world.runtimesTable j).pid ≠ (c.world.sessionTable 0).p4runtimeId :=
  Lts.run_any (by decide +kernel)

/-! ## Exclusive ownership -/

def freshForks : Assumption where
  env := fun E => E.NewToTable ∧ E.NewToSessions

theorem exclusive_initial : Exclusive .initial := exclusive_clear .initial

theorem exclusive_reachable {c : Config} (hr : freshForks.Reachable c) : c.world.tables.Exclusive :=
  hr.tables_inv (F := fun t p => t.NewEntry p ∧ t.NewLink p) exclusive_initial
    (fun _ w hE hp => ⟨hE.1 w hp, hE.2 w hp⟩) (fun _ _ _ hm hi => exclusive_move hm (fun _ hf => hf) hi)
    (fun _ _ _ => exclusive_clear _)

theorem exclusive_ownership {c : Config} (hr : freshForks.Reachable c) :
    (∀ i j, 0 < (c.world.runtimesTable i).pid → (c.world.runtimesTable i).pid = (c.world.runtimesTable j).pid → i = j) ∧
    (∀ j, (c.world.runtimesTable j).inUse = true →
      ∃! i, (c.world.sessionTable i).p4runtimeId = (c.world.runtimesTable j).pid) ∧
    ∀ j, (c.world.runtimesTable j).Idle →
      ∀ i, (c.world.sessionTable i).p4runtimeId ≠ (c.world.runtimesTable j).pid := by
  have hx := exclusive_reachable hr
  have ha := accounted_reachable hr
  exact ⟨hx.distinct, fun j hj => hx.unique (ha.inUse_present j hj) hj, fun j hj => hx.idle hj⟩

theorem exclusive_ownership_demo : ∃ c, launcher.run launcher.init demoActs = some c ∧
    (∀ i j, 0 < (c.world.runtimesTable i).pid → (c.world.runtimesTable i).pid = (c.world.runtimesTable j).pid → i = j) ∧
    (∀ j, (c.world.runtimesTable j).inUse = true →
      ∃! i, (c.world.sessionTable i).p4runtimeId = (c.world.runtimesTable j).pid) ∧
    ∀ j, (c.world.runtimesTable j).Idle →
      ∀ i, (c.world.sessionTable i).p4runtimeId ≠ (c.world.runtimesTable j).pid := by
  obtain ⟨c, hc⟩ := demo_runs
  exact ⟨c, hc, exclusive_ownership
    (demo_reachable (A := freshForks) ⟨ideal_newToTable, ideal_newToSessions⟩ (fun _ _ _ => trivial) hc)⟩

end P4Ubpf
