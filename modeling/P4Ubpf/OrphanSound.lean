import Mathlib.Data.List.Perm.Subperm
import P4Ubpf.TaskSound
import P4Ubpf.TraceSound

/-!
# No runtime is left behind

The launcher knows its processes by the table only. That the table may name
processes that are gone has been seen; here it is that no process is there
that the table does not name, whatever forks return and children do.
-/

namespace P4Ubpf

open P4runtime Tables

/-- What the other parties cannot change of a child. -/
def Child.tag (c : Child) : Int × Bool := (c.pid, c.signalled)

def World.tags (w : World) : List (Int × Bool) := w.children.map Child.tag

/-- Every unreaped child is a runtime of the table, pid by pid, and has not
been signalled. -/
structure Kept (w : World) : Prop where
  counted : ∀ p, 0 < p → w.tags.countP (·.1 = p) ≤ Slots.count (fun r : P4runtime => r.pid = p) w.runtimesTable
  calm : ∀ t ∈ w.tags, 0 < t.1 ∧ t.2 = false

section
variable {E : Env} {w w' : World} {i : Slot}

/-! ## What becomes of the children -/

theorem env_tags (w : World) (e : EnvStep) : (w.env e).tags.Sublist w.tags := by
  have hexits : ∀ p : Child → Bool, (w.childExits p).tags = w.tags := by
    intro p
    rw [World.tags, World.childExits, List.map_map]
    apply List.map_congr_left
    intro c _
    rw [Function.comp_apply]
    split
    · rfl
    · rfl
  cases e with
  | ovsWrite idx t => exact List.Sublist.refl _
  | obey pid => exact (hexits _) ▸ List.Sublist.refl _
  | crash pid => exact (hexits _) ▸ List.Sublist.refl _
  | sigchld => exact List.filter_sublist.map _

theorem yield_tags (w : World) (E : Env) : (w.yield E).tags.Sublist w.tags :=
  World.yield_induct w E (I := fun v => v.tags.Sublist w.tags) (fun v e _ h => (env_tags v e).trans h) (.refl _)

theorem kill_tags (pid : Int) (w : World) : (w.kill pid).tags.filter (·.1 ≠ pid) = w.tags.filter (·.1 ≠ pid) := by
  have hkill : (w.kill pid).children =
      w.children.map fun c => if c.pid = pid then { c with signalled := true } else c := rfl
  rw [World.tags, World.tags, hkill]
  induction w.children with
  | nil => rfl
  | cons c cs ih =>
    by_cases hc : c.pid = pid
    · simp only [List.map_cons, Child.tag, if_pos hc]
      rw [List.filter_cons_of_neg (by simp [hc]), List.filter_cons_of_neg (by simp [hc])]
      exact ih
    · simp only [List.map_cons, if_neg hc]
      rw [List.filter_cons_of_pos (by exact decide_eq_true hc),
        List.filter_cons_of_pos (by exact decide_eq_true hc), ih]

theorem waitpid_tags (pid : Int) (w : World) : (w.waitpid pid).tags = w.tags.filter (·.1 ≠ pid) := by
  rw [World.tags, World.tags, List.filter_map]; rfl

theorem drop_tags (E : Env) (w : World) (hi : 0 < (w.runtimesTable i).pid) :
    (dropEntry E i w).tags.Sublist (w.tags.filter (·.1 ≠ (w.runtimesTable i).pid)) := by
  have hchildren : (dropEntry E i w).tags =
      ((((w.yield E).kill (w.runtimesTable i).pid).yield E).waitpid (w.runtimesTable i).pid).tags := by
    simp only [dropEntry, terminateChild, if_pos hi, World.tags, World.setRuntime_children]
  rw [hchildren, waitpid_tags]
  refine ((yield_tags _ E).filter _).trans ?_
  rw [kill_tags]
  exact (yield_tags w E).filter _

/-! ## The invariant -/

theorem kept_shrink (hsub : w'.tags.Sublist w.tags) (hpid : ∀ j, (w'.runtimesTable j).pid = (w.runtimesTable j).pid)
    (h : Kept w) : Kept w' where
  counted := fun p hp => by
    have hcount : Slots.count (fun r : P4runtime => r.pid = p) w'.runtimesTable =
        Slots.count (fun r : P4runtime => r.pid = p) w.runtimesTable :=
      Nat.le_antisymm (Slots.count_mono fun j hj => (hpid j).symm.trans hj)
        (Slots.count_mono fun j hj => (hpid j).trans hj)
    rw [hcount]
    exact hsub.countP_le.trans (h.counted p hp)
  calm := fun t ht => h.calm t (hsub.subset ht)

theorem kept_drop (hi : 0 < (w.runtimesTable i).pid) (h : Kept w) : Kept (dropEntry E i w) where
  counted := fun p hp => by
    have hupdate := Slots.count_update (fun r : P4runtime => r.pid = p) w.runtimesTable i .empty
    have hempty : P4runtime.empty.pid ≠ p := by
      change (-1 : Int) ≠ p
      omega
    rw [if_neg hempty] at hupdate
    rw [drop_table]
    refine ((drop_tags E w hi).countP_le).trans ?_
    rw [List.countP_filter]
    by_cases he : (w.runtimesTable i).pid = p
    · have hnone : w.tags.countP (fun t => decide (t.1 = p) && decide (t.1 ≠ (w.runtimesTable i).pid)) = 0 := by
        rw [List.countP_eq_zero]
        simp [he]
      rw [hnone]
      exact Nat.zero_le _
    · rw [if_neg he] at hupdate
      refine (List.countP_mono_left fun t _ ht => ?_).trans ((h.counted p hp).trans (by omega))
      exact (Bool.and_eq_true_iff.mp ht).1
  calm := fun t ht => h.calm t (List.mem_of_mem_filter ((drop_tags E w hi).subset ht))

theorem kept_fork (hacc : Accounted w) (hroom : w.runtimes < maxConnections) (pid : Int) (h : Kept w) :
    Kept (afterFork pid (w.log (.fork pid))) := by
  rcases fork_cases hacc hroom pid with ⟨_, _, _, heq⟩ | ⟨hpos, i, hi, heq⟩
  · rw [heq]
    exact ⟨h.counted, h.calm⟩
  · rw [heq]
    refine ⟨fun p hp => ?_, List.forall_mem_cons.mpr ⟨⟨hpos, rfl⟩, h.calm⟩⟩
    have hupdate := Slots.count_update (fun r : P4runtime => r.pid = p) w.runtimesTable i ⟨pid, false⟩
    have hold : (w.runtimesTable i).pid ≠ p := by omega
    have hcount := h.counted p hp
    rw [if_neg hold] at hupdate
    change (((pid, false) : Int × Bool) :: w.tags).countP (·.1 = p) ≤
      Slots.count (fun r : P4runtime => r.pid = p) (Function.update w.runtimesTable i ⟨pid, false⟩)
    rw [List.countP_cons]
    by_cases he : pid = p
    · simp only [he, decide_true, if_true] at hupdate ⊢
      omega
    · simp only [he, decide_false, Bool.false_eq_true, if_false] at hupdate ⊢
      omega

theorem kept_micro (hs : Micro E w w') (hacc : Accounted w) (h : Kept w) : Kept w' := by
  cases hs with
  | pool hp =>
    cases hp with
    | env _ => exact kept_shrink (env_tags w _) (fun j => by rw [World.env_table]) h
    | fork hroom => exact kept_fork hacc hroom _ h
    | @retire i hi => exact kept_shrink (w := dropEntry E i w) (.refl _) (fun _ => rfl) (kept_drop hi.1 h)
  | note _ => exact ⟨h.counted, h.calm⟩
  | @link j idx _ _ => exact kept_shrink (.refl w.tags) (fun k => setInUse_entry_pid (t := w.tables) j k true) h
  | @unlink idx _ =>
    unfold unlink
    simp only
    split
    · rename_i i _; exact kept_shrink (.refl w.tags) (fun k => setInUse_entry_pid (t := w.tables) i k false) h
    · exact ⟨h.counted, h.calm⟩

theorem kept_stop (h : Kept w) : Kept (stopAllChildren E w) := by
  have hloop : Kept (stopLoop E (Slots.all _) w) := stopLoop_induct (fun _ _ hi hv => kept_drop hi hv) _ w h
  refine kept_shrink ?_ ?_ hloop
  · rw [World.tags, stopAllChildren, World.setRuntimes_children]
    exact .refl _
  · intro j
    rw [stopAllChildren, World.setRuntimes_table]

theorem kept_reachable {A : Assumption} {c : Config} (hr : A.Reachable c) : Kept c.world := by
  have hboth : Accounted c.world ∧ Kept c.world := by
    refine hr.world_inv (I := fun w => Accounted w ∧ Kept w) ⟨accounted_init, ?_⟩ ?_ ?_ ?_
    · exact ⟨fun p _ => Nat.zero_le _, fun t ht => (by cases ht)⟩
    · exact fun w e _ hw => ⟨accounted_env hw.1 e,
        kept_shrink (env_tags w e) (fun j => by rw [World.env_table]) hw.2⟩
    · exact fun E w w' _ hs hw => ⟨accounted_micro hs hw.1, kept_micro hs hw.1 hw.2⟩
    · exact fun E w e _ _ hw => ⟨accounted_stop hw.1.toEntries, kept_stop hw.2⟩
  exact hboth.2

end

/-- **No process is left behind**: in every reachable state the children that
nobody has waited for are runtimes of the table, each for itself, so there are
no more of them than the counter says, and none is about to be ended. -/
theorem no_orphans {c : Config} (hr : Assumption.Reachable {} c) :
    (c.world.children.map Child.pid).Subperm (livePids c.world) ∧
    (c.world.children.length : Int) ≤ c.world.runtimes ∧
    ∀ child ∈ c.world.children, child.signalled = false := by
  have hkept := kept_reachable hr
  have htags : c.world.children.map Child.pid = c.world.tags.map Prod.fst := by
    rw [World.tags, List.map_map]; rfl
  have hsub : (c.world.children.map Child.pid).Subperm (livePids c.world) := by
    rw [List.subperm_ext_iff]
    intro p hp
    rw [htags] at hp ⊢
    obtain ⟨t, ht, rfl⟩ := List.mem_map.mp hp
    have hpos := (hkept.calm t ht).1
    rw [count_livePids c.world hpos, List.count_eq_countP, List.countP_map]
    exact hkept.counted t.1 hpos
  refine ⟨hsub, ?_, fun child hc => (hkept.calm child.tag (List.mem_map_of_mem hc)).2⟩
  have hlen := hsub.length_le
  have hlive : (livePids c.world).length = Slots.count Present c.world.runtimesTable := by
    rw [livePids, List.length_map, Slots.length_filter_all]
  rw [List.length_map, hlive] at hlen
  rw [(accounted_reachable hr).counter]
  exact_mod_cast hlen

theorem no_orphans_demo : ∃ c, launcher.run launcher.init demoActs = some c ∧
    (c.world.children.map Child.pid).Subperm (livePids c.world) ∧
    (c.world.children.length : Int) ≤ c.world.runtimes ∧
    ∀ child ∈ c.world.children, child.signalled = false := by
  obtain ⟨c, hc⟩ := demo_runs
  exact ⟨c, hc, no_orphans (demo_reachable trivial (fun _ _ _ => trivial) hc)⟩

end P4Ubpf
