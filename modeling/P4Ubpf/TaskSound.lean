import P4Ubpf.AdjustSound
import P4Ubpf.LinkSound

/-!
# What one action does

A whole action of the launcher, for results that hold between actions and not
at every elementary step. `adjust_children` has the same effect whatever `fork`
returns, since its loop repeats a fork that fails: it may only not return.
-/

namespace P4Ubpf

open P4runtime Relation

/-! ## `adjust_children` under any kernel -/

section
variable {E : Env} {w w' : World} {fuel : ℕ} {n : Int}

theorem spawn_any (h : Accounted w) (hroom : w.runtimes < maxConnections) :
    Accounted (spawnRuntimeProcess E w) ∧ Grows w (spawnRuntimeProcess E w) ∧
      ((spawnRuntimeProcess E w).runtimes = w.runtimes ∨ (spawnRuntimeProcess E w).runtimes = w.runtimes + 1) := by
  have hy : Accounted (w.yield E) := (yield_pool E w).keep (fun _ _ hs hv => accounted_micro (.pool hs) hv) h
  have hroom' : (w.yield E).runtimes < maxConnections := by rw [World.yield_runtimes]; exact hroom
  refine ⟨accounted_fork hy hroom' _, ?_⟩
  unfold spawnRuntimeProcess
  simp only
  rcases fork_cases hy hroom' (E.fork (w.yield E)) with ⟨_, es, hes, heq⟩ | ⟨hpos, j, hj, heq⟩
  · rw [heq]
    refine ⟨⟨?_, ?_, es, ?_, ?_⟩, .inl (World.yield_runtimes w E)⟩
    · intro i _
      rw [World.yield_table]
    · intro i _
      rw [World.yield_table]
      exact .inl rfl
    · rw [World.yield_trace]
    · apply List.filterMap_eq_nil_iff.mpr
      intro e he
      rcases hes e he with rfl | rfl
      · rfl
      · rfl
  · rw [heq]
    rw [World.yield_table] at hj
    refine ⟨⟨?_, ?_, [.startedChild (E.fork (w.yield E)) (some j), .fork (E.fork (w.yield E))], ?_, rfl⟩, .inr ?_⟩
    · intro i hi
      have hij : i ≠ j := by intro he; subst he; omega
      simp only [Function.update_of_ne hij, World.yield_table]
    · intro i _
      by_cases hij : i = j
      · subst hij
        simp only [Function.update_self]
        exact .inr ⟨hpos, rfl⟩
      · apply Or.inl
        simp only [Function.update_of_ne hij, World.yield_table]
    · simp only [World.yield_trace]; rfl
    · simp only [World.yield_runtimes]

theorem spawnLoop_any (hn : n ≤ maxConnections) (h : Accounted w) (hs : spawnLoop E n fuel w = some w') :
    Accounted w' ∧ Grows w w' ∧ w'.runtimes = max w.runtimes n := by
  induction fuel generalizing w with
  | zero =>
    rw [spawnLoop] at hs
    split at hs
    · cases hs
    · cases hs
      exact ⟨h, grows_refl w', by omega⟩
  | succ fuel ih =>
    rw [spawnLoop] at hs
    split at hs
    · obtain ⟨hacc, hgrow, hruns⟩ := spawn_any (E := E) h (by omega)
      obtain ⟨hacc', hgrow', hruns'⟩ := ih hacc hs
      exact ⟨hacc', hgrow.trans hgrow', by omega⟩
    · cases hs
      exact ⟨h, grows_refl w', by omega⟩

def Env.forking (E : Env) : Env := { E with fork := fun _ => 1 }

theorem shrinkLoop_forking (target : Int) (is : List Slot) (w : World) :
    shrinkLoop E.forking target is w = shrinkLoop E target is w := by
  induction is generalizing w with
  | nil => rfl
  | cons i is ih =>
    rw [shrinkLoop, shrinkLoop, ih]; rfl

/-- **Where `adjust_children` returns**, it has the effect it has under a
kernel that refuses no fork. -/
theorem adjust_returned (h : Accounted w) (ha : adjustChildren E fuel n w = some w') : Adjusted n w w' := by
  have hle := runtimes_le h
  have heq := runtimes_eq h
  have hclamp : (if (maxConnections : Int) < n then (maxConnections : Int) else n) = min n maxConnections := by
    split <;> omega
  by_cases hgrow : w.runtimes < min n maxConnections
  · have hmin : (if (maxConnections : Int) < min n maxConnections then (maxConnections : Int)
        else min n maxConnections) = min n maxConnections := if_neg (by omega)
    have hlinks := pool_links (adjust_pool ha)
    rw [adjustChildren, if_neg (by omega), hclamp] at ha
    simp only [hgrow, if_true, startChildren, hmin] at ha
    obtain ⟨_, hg, hruns⟩ := spawnLoop_any (by omega) h ha
    exact ⟨by omega, fun i hi => hg.kept i (h.inUse_present i hi), fun hn => by omega, fun _ => hg, hlinks⟩
  · obtain ⟨v, hv, hadj⟩ : ∃ v, adjustChildren E.forking fuel n w = some v ∧ Adjusted n w v :=
      adjust_adjusted h (fun _ => Int.one_pos) (by omega)
    rw [adjustChildren, hclamp] at ha hv
    simp only [hgrow, if_false, shrinkLoop_forking] at ha hv
    rw [ha] at hv
    exact Option.some.inj hv ▸ hadj

theorem Grows.inUseCount_eq (h : Accounted w) (hg : Grows w w') : inUseCount w' = inUseCount w := by
  apply inUseCount_congr
  intro i
  by_cases hi : 0 < (w.runtimesTable i).pid
  · rw [hg.kept i hi]
  · have hno : (w.runtimesTable i).inUse ≠ true := fun hu => hi (h.inUse_present i hu)
    rcases hg.added i hi with he | he
    · rw [he]
    · simp [hno, he.2]

theorem adjust_kills (h : Accounted w) (ha : adjustChildren E fuel n w = some w') :
    ((killedPids w'.trace).length : Int) = (killedPids w.trace).length + max 0 (w.runtimes - w'.runtimes) := by
  have hadj := adjust_returned h ha
  rcases le_total n w.runtimes with hn | hn
  · have hd := hadj.dropped hn
    obtain ⟨es, htr, hk⟩ := hd.killed
    have hlen := congrArg List.length hk
    have hruns := hd.runtimes
    rw [List.length_reverse, List.length_map] at hlen
    rw [htr, killedPids, List.filterMap_append, List.length_append]
    unfold killedPids at hlen ⊢
    omega
  · obtain ⟨es, htr, hk⟩ := (hadj.grown hn).killed
    have hruns := hadj.runtimes
    have heq := runtimes_eq h
    have hle := runtimes_le h
    rw [htr, killedPids, List.filterMap_append, List.length_append]
    unfold killedPids at hk ⊢
    rw [hk, List.length_nil]
    omega

end

/-! ## Actions -/

/-- A line about what a client said or was told. -/
def Event.isTalk : Event → Bool
  | .pkill | .command _ | .reply _ => true
  | _ => false

/-- The launcher has at most talked to a client. -/
structure Quiet (w w' : World) : Prop where
  tables : w'.tables = w.tables
  runtimes : w'.runtimes = w.runtimes
  lines : w.Adds (fun e => e.isTalk = true) w'

inductive Task : Act → World → World → Prop
  | start {E : Env} {fuel : ℕ} {w w' : World} (h : startChildren E fuel initClients w = some w') :
      Task (.start E fuel) w w'
  | quiet {a : Act} {w w' : World} (h : Quiet w w') : Task a w w'
  | add {E : Env} {fuel : ℕ} {idx : Slot} {w w' : World} (hidx : w.links idx < 0)
      (h : linkAdd E fuel idx (w.log (.foundNew (w.sessionTable idx).ovsThreadId idx)) = some w') :
      Task (.test E fuel) w w'
  | del {E : Env} {fuel : ℕ} {idx : Slot} {w w' : World} (hidx : 0 < w.links idx)
      (h : linkDel E fuel idx (w.log (.foundLost (w.links idx) idx)) = some w') : Task (.test E fuel) w w'
  | update {E : Env} {fuel : ℕ} {msg arg buffer : List UInt8} {w v : World}
      (hp : parseCommand (readBuffer msg) = .update arg)
      (h : adjustChildren E fuel (atoi arg) (w.log (.command buffer)) = some v) :
      Task (.client E fuel msg) w (v.log (.reply (.adjusted (atoi arg))))
  | stop {E : Env} {fuel : ℕ} {msg buffer : List UInt8} {w : World} (hp : parseCommand (readBuffer msg) = .stop) :
      Task (.client E fuel msg) w ((stopAllChildren E (w.log (.command buffer))).log (.reply .stopped))

section
variable {E : Env} {u v w w' : World} {fuel : ℕ}

theorem accounted_note (h : Accounted w) {e : Event} (he : e.isNote = true) : Accounted (w.log e) :=
  ⟨entries_note h.toEntries he, h.counter⟩

@[simp] theorem inUseCount_log (w : World) (e : Event) : inUseCount (w.log e) = inUseCount w := rfl

theorem quiet_refl (w : World) : Quiet w w := ⟨rfl, rfl, .same rfl⟩

theorem Quiet.trans (h₁ : Quiet u v) (h₂ : Quiet v w) : Quiet u w :=
  ⟨h₂.tables.trans h₁.tables, h₂.runtimes.trans h₁.runtimes, h₁.lines.trans h₂.lines⟩

theorem quiet_log {e : Event} (he : e.isTalk = true) (w : World) : Quiet w (w.log e) := ⟨rfl, rfl, .one rfl he⟩

theorem quiet_env (w : World) (e : EnvStep) : Quiet w (w.env e) :=
  ⟨by simp [World.tables], World.env_runtimes w e, .same (World.env_trace w e)⟩

theorem quiet_yield (E : Env) (w : World) : Quiet w (w.yield E) :=
  ⟨by simp [World.tables], World.yield_runtimes w E, .same (World.yield_trace w E)⟩

theorem statusLoop_quiet (is : List Slot) (reported : Int) (w : World) : Quiet w (statusLoop is reported w) := by
  induction is generalizing reported w with
  | nil => exact quiet_refl w
  | cons i is ih =>
    rw [statusLoop]
    split
    · split
      · exact (quiet_log rfl w).trans (ih _ _)
      · exact ih _ _
    · exact quiet_refl w

theorem task_client {msg : List UInt8} (h : handleClient E fuel msg w = some w') :
    Task (.client E fuel msg) w w' := by
  unfold handleClient at h
  simp only at h
  split at h
  · cases h
    exact .quiet (quiet_refl _)
  · have hcommand := quiet_log (e := .command ((readBuffer msg).takeWhile (· ≠ 0))) rfl w
    cases hp : parseCommand (readBuffer msg) with
    | start =>
      rw [hp] at h
      exact .quiet (Option.some.inj h ▸ hcommand.trans (quiet_log rfl _))
    | update arg =>
      rw [hp] at h
      simp only [handleCommand, handleUpdateCommand] at h
      cases ha : adjustChildren E fuel (atoi arg) (w.log (.command ((readBuffer msg).takeWhile (· ≠ 0)))) with
      | none => rw [ha] at h; cases h
      | some v =>
        rw [ha] at h
        exact Option.some.inj h ▸ .update hp ha
    | stop =>
      rw [hp] at h
      exact Option.some.inj h ▸ .stop hp
    | status =>
      rw [hp] at h
      exact .quiet (Option.some.inj h ▸ (hcommand.trans (quiet_log rfl _)).trans (statusLoop_quiet _ _ _))
    | shutdown =>
      rw [hp] at h
      have hkill := (hcommand.trans (quiet_log (e := .reply .shuttingDown) rfl _)).trans (quiet_log (e := .pkill) rfl _)
      exact .quiet (Option.some.inj h ▸ (hkill.trans (quiet_yield E _)).trans (quiet_log rfl _))
    | unknown =>
      rw [hp] at h
      exact .quiet (Option.some.inj h ▸ hcommand.trans (quiet_log rfl _))

theorem task_of_next {c c' : Config} {a : Act} (h : Next c a c') : Task a c.world c'.world := by
  cases h with
  | start hs => exact .start hs
  | env => exact .quiet (quiet_env _ _)
  | beginScan => exact .quiet (quiet_refl _)
  | new hs =>
    unfold checkNew at hs
    split at hs
    · rename_i hg
      exact .add hg.2 hs
    · cases hs
      exact .quiet (quiet_refl _)
  | lost hs =>
    unfold checkLost at hs
    split at hs
    · rename_i hg
      exact .del hg.2 hs
    · cases hs
      exact .quiet (quiet_refl _)
  | client hs => exact task_client hs

end

/-- **Invariants between actions.** -/
theorem task_inv {ok : Config → Act → Prop} {I : Config → Prop} {c : Config} (hr : launcher.Reachable ok c)
    (h0 : I launcher.init)
    (ht : ∀ c a c', launcher.Reachable ok c → ok c a → Next c a c' → Task a c.world c'.world → I c → I c') : I c :=
  Lts.Reachable.inv (M := launcher) h0
    (fun c a c' hr hi ha hn => ht c a c' hr ha (next_inv hn) (task_of_next (next_inv hn)) hi) hr

section
variable {ok : Config → Act → Prop} {c c' : Config}

theorem any_ok (c : Config) (a : Act) : Assumption.ok {} c a := by
  cases a with
  | client E fuel msg => exact ⟨trivial, fun _ => trivial⟩
  | _ => trivial

theorem accounted_any (hr : launcher.Reachable ok c) : Accounted c.world :=
  accounted_reachable (hr.mono fun c a _ => any_ok c a)

/-- Until `start_children` in `main` has returned, nothing has been done. -/
structure Untouched (w : World) : Prop where
  tables : w.tables = .initial
  runtimes : w.runtimes = 0
  trace : w.trace = []

theorem after_ne_boot (i : Slot) : Phase.after i ≠ .boot := by
  unfold Phase.after
  split
  · exact Phase.noConfusion
  · exact Phase.noConfusion

theorem untouched_boot (hr : launcher.Reachable ok c) : c.phase = .boot → Untouched c.world := by
  refine Lts.Reachable.inv (M := launcher) (I := fun c => c.phase = .boot → Untouched c.world)
    (fun _ => ⟨rfl, rfl, rfl⟩) ?_ hr
  intro c a c' _ hi _ hn hboot
  cases next_inv hn with
  | start _ => cases hboot
  | @env ph w e =>
    have hold := hi hboot
    exact ⟨(quiet_env w e).tables.trans hold.tables, (World.env_runtimes w e).trans hold.runtimes,
      (World.env_trace w e).trans hold.trace⟩
  | beginScan => cases hboot
  | new _ => cases hboot
  | @lost E fuel i w w' _ => exact absurd hboot (after_ne_boot i)
  | client _ => cases hboot

theorem Next.start_boot {E : Env} {fuel : ℕ} (hn : Next c (.start E fuel) c') : c.phase = .boot := by
  cases hn; rfl

theorem Next.of_boot {a : Act} (hn : Next c a c') (hb : c.phase = .boot) :
    (∃ E fuel, a = .start E fuel ∧ startChildren E fuel initClients c.world = some c'.world) ∨
      c'.phase = .boot := by
  cases hn with
  | start h => exact .inl ⟨_, _, rfl, h⟩
  | env => exact .inr hb
  | beginScan => cases hb
  | new _ => cases hb
  | lost _ => cases hb
  | client _ => cases hb

end

/-! ## Lines an action adds -/

section
variable {P Q : Event → Prop} {E : Env} {w w' : World}

theorem World.Adds.mono (h : w.Adds P w') (hp : ∀ e, P e → Q e) : w.Adds Q w' := by
  obtain ⟨es, htr, hes⟩ := h
  exact ⟨es, htr, fun e he => hp e (hes e he)⟩

theorem World.Adds.mem {e : Event} (h : w.Adds P w') (hp : ¬ P e) (he : e ∈ w'.trace) : e ∈ w.trace := by
  obtain ⟨es, htr, hes⟩ := h
  rw [htr] at he
  exact (List.mem_append.mp he).resolve_left fun hm => hp (hes e hm)

theorem World.Adds.countP {p : Event → Bool} (h : w.Adds P w') (hp : ∀ e, P e → p e = false) :
    w'.trace.countP p = w.trace.countP p := by
  obtain ⟨es, htr, hes⟩ := h
  have hnone : es.countP p = 0 := List.countP_eq_zero.mpr fun e he => by simp [hp e (hes e he)]
  rw [htr, List.countP_append, hnone, Nat.zero_add]

theorem drop_adds {i : Slot} (hi : 0 < (w.runtimesTable i).pid) :
    w.Adds (fun e => e.isNote = false) (dropEntry E i w) := by
  refine ⟨[.waitpid _, .kill _ _], drop_trace E i w hi, ?_⟩
  intro e he
  simp only [List.mem_cons, List.not_mem_nil, or_false] at he
  rcases he with rfl | rfl
  · rfl
  · rfl

theorem stop_adds (E : Env) (w : World) : w.Adds (fun e => e.isNote = false) (stopAllChildren E w) := by
  have hloop : w.Adds (fun e => e.isNote = false) (stopLoop E (Slots.all _) w) :=
    stopLoop_induct (I := fun v => w.Adds (fun e => e.isNote = false) v)
      (fun v i hi hv => hv.trans (drop_adds hi)) _ w
      (.same rfl)
  exact hloop.trans (.same (World.setRuntimes_trace _ 0))

end

end P4Ubpf
