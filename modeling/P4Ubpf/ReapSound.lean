import P4Ubpf.LinkSound

/-!
# The table names the launcher's own children

Children are reaped by the SIGCHLD handler and by `terminate_child`, and only
the callers of the latter clear the entry. So the table is right as long as
the handler finds no zombie but those `terminate_child` has signalled.
-/

namespace P4Ubpf

open P4runtime Relation Tables

/-! ## Children -/

/-- `p` is a child that `terminate_child` has not signalled. -/
def World.Live (w : World) (p : Int) : Prop := ∃ c ∈ w.children, c.pid = p ∧ c.signalled = false

/-- If the handler runs, all it reaps are children that have been signalled. -/
def Gentle (w : World) (e : EnvStep) : Prop :=
  e = .sigchld → ∀ c ∈ w.children, c.exited = true → c.signalled = true

section
variable {w : World} {p q : Int} {e : EnvStep}

theorem live_unreaped (h : w.Live p) : w.unreaped p = true := by
  obtain ⟨c, hc, hp, _⟩ := h
  exact List.any_eq_true.mpr ⟨c, hc, by simpa using hp⟩

theorem live_exits (f : Child → Bool) (h : w.Live p) : (w.childExits f).Live p := by
  obtain ⟨c, hc, hp, hs⟩ := h
  refine ⟨_, List.mem_map.mpr ⟨c, hc, rfl⟩, ?_⟩
  split
  · exact ⟨hp, hs⟩
  · exact ⟨hp, hs⟩

theorem live_env (hg : Gentle w e) (h : w.Live p) : (w.env e).Live p := by
  cases e with
  | ovsWrite idx t => exact h
  | obey pid => exact live_exits _ h
  | crash pid => exact live_exits _ h
  | sigchld =>
    obtain ⟨c, hc, hp, hs⟩ := h
    have hrun : c.exited = false := by
      cases hx : c.exited with
      | false => rfl
      | true => rw [hg rfl c hc hx] at hs; cases hs
    exact ⟨c, List.mem_filter.mpr ⟨hc, by simp [hrun]⟩, hp, hs⟩

theorem live_kill (hne : p ≠ q) (h : w.Live p) : (w.kill q).Live p := by
  obtain ⟨c, hc, hp, hs⟩ := h
  refine ⟨_, List.mem_map.mpr ⟨c, hc, rfl⟩, ?_⟩
  rw [if_neg (by rw [hp]; exact hne)]
  exact ⟨hp, hs⟩

theorem live_waitpid (hne : p ≠ q) (h : w.Live p) : (w.waitpid q).Live p := by
  obtain ⟨c, hc, hp, hs⟩ := h
  exact ⟨c, List.mem_filter.mpr ⟨hc, by simpa [hp] using hne⟩, hp, hs⟩

end

/-! ## What is assumed of the children -/

/-- `Q` holds of the children in every run under `A`, and in such states the
other parties are gentle. -/
structure Guards (A : Assumption) (Q : List Child → Prop) : Prop where
  newToChildren : ∀ {E}, A.env E → E.NewToChildren
  step : ∀ {w e}, A.step w e → Q w.children → Gentle w e ∧ Q (w.env e).children
  takes : ∀ {E w e}, A.env E → E.Takes w e → Q w.children → Gentle w e ∧ Q (w.env e).children
  nil : Q []
  fork : ∀ {cs pid}, Q cs → Q (⟨pid, false, false⟩ :: cs)
  kill : ∀ {w : World} {pid}, Q w.children → Q (w.kill pid).children
  waitpid : ∀ {w : World} {pid}, Q w.children → Q (w.waitpid pid).children

/-- A call about a process is made on a child. -/
def Event.own : Event → Bool
  | .kill _ own | .sessionCreated _ _ _ own => own
  | _ => true

theorem note_own {e : Event} (h : e.isNote = true) : e.own = true := by
  cases e <;> first | rfl | simp [Event.isNote] at h

structure Tended (Q : List Child → Prop) (w : World) : Prop where
  guard : Q w.children
  distinct : w.tables.Distinct
  live : ∀ i, 0 < (w.runtimesTable i).pid → w.Live (w.runtimesTable i).pid
  own : ∀ e ∈ w.trace, e.own = true

section
variable {A : Assumption} {Q : List Child → Prop} {E : Env} {w w' : World}

theorem tended_init (hA : Guards A Q) : Tended Q .init where
  guard := hA.nil
  distinct := distinct_clear .initial
  live := fun i hi => by simp [World.init, P4runtime.empty] at hi
  own := fun e he => by cases he

theorem tended_frame (h : Tended Q w) (hc : w'.children = w.children)
    (hp : ∀ i, (w'.runtimesTable i).pid = (w.runtimesTable i).pid) (htr : w'.trace = w.trace) : Tended Q w' := by
  refine ⟨hc ▸ h.guard, ?_, ?_, htr ▸ h.own⟩
  · intro i j hi hij
    have hi' : 0 < (w.runtimesTable i).pid := by rw [← hp i]; exact hi
    exact h.distinct i j hi' (((hp i).symm.trans hij).trans (hp j))
  · intro i hi
    rw [hp i] at hi ⊢
    obtain ⟨c, hcm, hcp⟩ := h.live i hi
    exact ⟨c, hc ▸ hcm, hcp⟩

theorem tended_log (h : Tended Q w) {e : Event} (he : e.own = true) : Tended Q (w.log e) := by
  refine ⟨h.guard, h.distinct, h.live, ?_⟩
  intro a ha
  rcases List.mem_cons.mp ha with heq | ha
  · rw [heq]; exact he
  · exact h.own a ha

theorem tended_env {e : EnvStep} (hg : Gentle w e ∧ Q (w.env e).children) (h : Tended Q w) : Tended Q (w.env e) := by
  refine ⟨hg.2, ?_, ?_, ?_⟩
  · rw [World.tables, World.env_table, World.env_links]; exact h.distinct
  · intro i hi
    rw [World.env_table] at hi ⊢
    exact live_env hg.1 (h.live i hi)
  · rw [World.env_trace]; exact h.own

theorem live_yield (hA : Guards A Q) (hE : A.env E) {P : Int → Prop} (hq : Q w.children) (h : ∀ p, P p → w.Live p) :
    Q (w.yield E).children ∧ ∀ p, P p → (w.yield E).Live p := by
  apply World.yield_induct w E (I := fun v => Q v.children ∧ ∀ p, P p → v.Live p)
  · intro v e hv hi
    have hg := hA.takes hE hv hi.1
    exact ⟨hg.2, fun p hp => live_env hg.1 (hi.2 p hp)⟩
  · exact ⟨hq, h⟩

theorem tended_drop (hA : Guards A Q) (hE : A.env E) (h : Tended Q w) {i : Slot} (hi : 0 < (w.runtimesTable i).pid) :
    Tended Q (dropEntry E i w) := by
  have hrec := live_yield hA hE (P := fun p => ∃ j, 0 < (w.runtimesTable j).pid ∧ (w.runtimesTable j).pid = p)
    h.guard (fun p ⟨j, hj, hp⟩ => hp ▸ h.live j hj)
  -- from the signal on, only the other entries are followed
  have hkill : ∀ p, (p ≠ (w.runtimesTable i).pid ∧ ∃ j, 0 < (w.runtimesTable j).pid ∧ (w.runtimesTable j).pid = p) →
      ((w.yield E).kill (w.runtimesTable i).pid).Live p := fun p hp => live_kill hp.1 (hrec.2 p hp.2)
  have hwait := live_yield hA hE (hA.kill hrec.1) hkill
  have hchildren : (dropEntry E i w).children =
      ((((w.yield E).kill (w.runtimesTable i).pid).yield E).waitpid (w.runtimesTable i).pid).children := by
    simp only [dropEntry, terminateChild, if_pos hi, World.setRuntime_children]
  have hentry : ∀ j, 0 < ((dropEntry E i w).runtimesTable j).pid →
      j ≠ i ∧ (dropEntry E i w).runtimesTable j = w.runtimesTable j := by
    intro j hj
    rw [drop_table] at hj ⊢
    by_cases hji : j = i
    · subst hji; simp [P4runtime.empty] at hj
    · exact ⟨hji, by simp [hji]⟩
  refine ⟨?_, ?_, ?_, ?_⟩
  · rw [hchildren]; exact hA.waitpid hwait.1
  · intro a b ha hab
    obtain ⟨_, hea⟩ := hentry a ha
    have hb : 0 < ((dropEntry E i w).runtimesTable b).pid := lt_of_lt_of_eq ha hab
    obtain ⟨_, heb⟩ := hentry b hb
    have ha' : 0 < (w.runtimesTable a).pid := by rw [← hea]; exact ha
    exact h.distinct a b ha' ((congrArg P4runtime.pid hea.symm).trans (hab.trans (congrArg P4runtime.pid heb)))
  · intro j hj
    obtain ⟨hji, hej⟩ := hentry j hj
    rw [hej] at hj ⊢
    have hne : (w.runtimesTable j).pid ≠ (w.runtimesTable i).pid := fun hp => hji (h.distinct j i hj hp)
    obtain ⟨c, hc, hcp⟩ := live_waitpid hne (hwait.2 _ ⟨hne, j, hj, rfl⟩)
    exact ⟨c, by rw [hchildren]; exact hc, hcp⟩
  · intro e he
    rw [drop_trace E i w hi] at he
    simp only [List.mem_cons] at he
    rcases he with rfl | rfl | he
    · rfl
    · exact live_unreaped (hrec.2 _ ⟨i, hi, rfl⟩)
    · exact h.own e he

theorem tended_newEntry (hA : Guards A Q) (hE : A.env E) (h : Tended Q w) (hpos : 0 < E.fork w) :
    w.tables.NewEntry (E.fork w) := by
  intro j hj
  have hpid : (w.runtimesTable j).pid = E.fork w := hj
  obtain ⟨c, hc, hcp, _⟩ := h.live j (by rw [hpid]; exact hpos)
  exact hA.newToChildren hE w hpos c hc (hcp.trans hpid)

theorem tended_fork (hA : Guards A Q) (hE : A.env E) (h : Tended Q w) (ha : Accounted w)
    (hroom : w.runtimes < maxConnections) : Tended Q (afterFork (E.fork w) (w.log (.fork (E.fork w)))) := by
  rcases fork_cases ha hroom (E.fork w) with ⟨_, es, hes, heq⟩ | ⟨hpos, i, hi, heq⟩
  · rw [heq]
    refine ⟨h.guard, h.distinct, h.live, ?_⟩
    intro e he
    rcases List.mem_append.mp he with he | he
    · rcases hes e he with rfl | rfl
      · rfl
      · rfl
    · exact h.own e he
  · have hnew : w.tables.NewEntry (E.fork w) := tended_newEntry hA hE h hpos
    have hm : Move NewEntry w.tables _ := .spawn hi hpos hnew
    have hd : Tables.Distinct ⟨Function.update w.runtimesTable i ⟨E.fork w, false⟩, w.links⟩ :=
      distinct_move hm (fun _ hf => hf) h.distinct
    rw [heq]
    refine ⟨hA.fork h.guard, hd, ?_, ?_⟩
    · intro j hj
      simp only at hj ⊢
      by_cases hji : j = i
      · subst hji
        exact ⟨_, List.mem_cons_self, by simp⟩
      · simp only [Function.update_of_ne hji] at hj ⊢
        obtain ⟨c, hc, hcp⟩ := h.live j hj
        exact ⟨c, List.mem_cons_of_mem _ hc, hcp⟩
    · intro e he
      simp only [List.mem_cons] at he
      rcases he with rfl | rfl | he
      · rfl
      · rfl
      · exact h.own e he

theorem tended_micro (hA : Guards A Q) (hE : A.env E) (hs : Micro E w w') (ha : Accounted w) (h : Tended Q w) :
    Tended Q w' := by
  have hpid : ∀ (j i : Slot) (b : Bool),
      (Function.update w.runtimesTable j ((w.runtimesTable j).setInUse b) i).pid = (w.runtimesTable i).pid :=
    fun j i b => setInUse_entry_pid (t := w.tables) j i b
  cases hs with
  | pool hp =>
    cases hp with
    | env he => exact tended_env (hA.takes hE he h.guard) h
    | fork hroom => exact tended_fork hA hE h ha hroom
    | retire hi => exact tended_frame (tended_drop hA hE h hi.1) rfl (fun _ => rfl) rfl
  | note he => exact tended_log h (note_own he)
  | @link j idx hj _ =>
    have hset : Tended Q ((w.setRuntime j ((w.runtimesTable j).setInUse true)).setP4runtimeId idx
        (w.runtimesTable j).pid) := tended_frame h rfl (fun i => hpid j i true) rfl
    exact tended_log hset (live_unreaped (h.live j hj.1))
  | @unlink idx _ =>
    unfold unlink
    simp only
    split
    · rename_i i _; exact tended_frame h rfl (fun k => hpid i k false) rfl
    · exact tended_frame h rfl (fun _ => rfl) rfl

theorem tended_stop (hA : Guards A Q) (hE : A.env E) (h : Tended Q w) : Tended Q (stopAllChildren E w) := by
  have hloop : Tended Q (stopLoop E (Slots.all _) w) := stopLoop_induct (fun _ _ hi hv => tended_drop hA hE hv hi) _ w h
  have hpid : ∀ i, ((stopAllChildren E w).runtimesTable i).pid = ((stopLoop E (Slots.all _) w).runtimesTable i).pid := by
    intro i
    rw [stopAllChildren, World.setRuntimes_table]
  exact tended_frame hloop (World.setRuntimes_children _ 0) hpid (World.setRuntimes_trace _ 0)

theorem tended_reachable (hA : Guards A Q) {c : Config} (hr : A.Reachable c) : Tended Q c.world := by
  have hboth : Accounted c.world ∧ Tended Q c.world := by
    refine hr.world_inv (I := fun w => Accounted w ∧ Tended Q w) ⟨accounted_init, tended_init hA⟩ ?_ ?_ ?_
    · intro w e he hw
      exact ⟨accounted_env hw.1 e, tended_env (hA.step he hw.2.guard) hw.2⟩
    · intro E w w' hE hs hw
      exact ⟨accounted_micro hs hw.1, tended_micro hA hE hs hw.1 hw.2⟩
    · intro E w e hE _ hw
      exact ⟨accounted_stop hw.1.toEntries, tended_stop hA hE hw.2⟩
  exact hboth.2

end

/-! ## The launcher's own children -/

/-- `fork` returns the pid of no unreaped child, and the handler reaps only
children that `terminate_child` has signalled. -/
def reapedOnCommand : Assumption where
  env := fun E => E.NewToChildren ∧ ∀ w e, E.Takes w e → Gentle w e
  step := Gentle

theorem reapedOnCommand_guards : Guards reapedOnCommand (fun _ => True) where
  newToChildren := fun hE => hE.1
  step := fun hg _ => ⟨hg, trivial⟩
  takes := fun hE ht _ => ⟨hE.2 _ _ ht, trivial⟩
  nil := trivial
  fork := fun _ => trivial
  kill := fun _ => trivial
  waitpid := fun _ => trivial

theorem table_names_children {c : Config} (hr : reapedOnCommand.Reachable c) :
    (∀ i, 0 < (c.world.runtimesTable i).pid → c.world.unreaped (c.world.runtimesTable i).pid = true) ∧
    (∀ pid own, .kill pid own ∈ c.world.trace → own = true) ∧
    ∀ ovs pid idx own, .sessionCreated ovs pid idx own ∈ c.world.trace → own = true := by
  have h := tended_reachable reapedOnCommand_guards hr
  refine ⟨fun i hi => live_unreaped (h.live i hi), ?_, ?_⟩
  · intro pid own he; exact h.own _ he
  · intro ovs pid idx own he; exact h.own _ he

theorem table_names_children_demo : ∃ c, launcher.run launcher.init demoActs = some c ∧
    (∀ i, 0 < (c.world.runtimesTable i).pid → c.world.unreaped (c.world.runtimesTable i).pid = true) ∧
    (∀ pid own, .kill pid own ∈ c.world.trace → own = true) ∧
    ∀ ovs pid idx own, .sessionCreated ovs pid idx own ∈ c.world.trace → own = true := by
  obtain ⟨c, hc⟩ := demo_runs
  have hquiet : ∀ w e, idealEnv.Takes w e → Gentle w e := by
    intro w e he
    obtain ⟨v, hv⟩ := he.mem
    cases hv
  have hr : reapedOnCommand.Reachable c :=
    demo_reachable (A := reapedOnCommand) ⟨ideal_newToChildren, hquiet⟩ (fun _ _ _ h => EnvStep.noConfusion h) hc
  exact ⟨c, hc, table_names_children hr⟩

/-- The first runtime crashes, the handler reaps it, and a scan begins. -/
def crashActs : List Act := [.start idealEnv 1, .env (.crash 65), .env .sigchld, .beginScan]

theorem crash_stays_recorded : ∃ c, launcher.run launcher.init crashActs = some c ∧ c.phase = .new 0 ∧
    (c.world.runtimesTable 0).pid = 65 ∧ c.world.unreaped 65 = false :=
  Lts.run_any (by decide +kernel)

end P4Ubpf
