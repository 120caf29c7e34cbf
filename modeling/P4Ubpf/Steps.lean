import P4Ubpf.System

/-!
# What one step can do

`Micro` lists the elementary steps of the launcher's functions, each with the
guard under which the code takes it. Every function runs a chain of them
(`next_cases`), except that `stop` clears the whole table at once, so an
invariant is proved step by step and never by unfolding the functions.
-/

namespace P4Ubpf

open P4runtime Relation

def World.links (w : World) : Slot → Int := fun i => (w.sessionTable i).p4runtimeId

/-! ## Fields after one operation -/

def World.trail : World → List EnvStep → List (World × EnvStep)
  | _, [] => []
  | w, e :: es => (w, e) :: trail (w.env e) es

/-- During the launcher's calls `E` takes step `e` in state `w`. -/
def Env.Takes (E : Env) (w : World) (e : EnvStep) : Prop := ∃ v : World, (w, e) ∈ v.trail (E.interfere v)

theorem Env.Takes.mem {E : Env} {w : World} {e : EnvStep} (h : E.Takes w e) : ∃ v, e ∈ E.interfere v := by
  obtain ⟨v, hv⟩ := h
  refine ⟨v, ?_⟩
  generalize E.interfere v = es at hv
  induction es generalizing v with
  | nil => cases hv
  | cons a es ih =>
    rcases List.mem_cons.mp hv with heq | hv
    · cases heq; exact List.mem_cons_self
    · exact List.mem_cons_of_mem _ (ih _ hv)

namespace World

/-- From `w` to `w'` the launcher writes nothing but lines that satisfy `P`. -/
def Adds (P : Event → Prop) (w w' : World) : Prop := ∃ es, w'.trace = es ++ w.trace ∧ ∀ e ∈ es, P e

section
variable {P : Event → Prop} {u v w : World} {e : Event}

theorem Adds.same (h : w.trace = v.trace) : v.Adds P w := ⟨[], h, fun e he => by cases he⟩

theorem Adds.one (h : w.trace = e :: v.trace) (he : P e) : v.Adds P w :=
  ⟨[e], h, fun _ ha => List.mem_singleton.mp ha ▸ he⟩

theorem Adds.trans (h₁ : u.Adds P v) (h₂ : v.Adds P w) : u.Adds P w := by
  obtain ⟨es, he, hes⟩ := h₁
  obtain ⟨fs, hf, hfs⟩ := h₂
  refine ⟨fs ++ es, by rw [hf, he, List.append_assoc], ?_⟩
  intro a ha
  rcases List.mem_append.mp ha with ha | ha
  · exact hfs a ha
  · exact hes a ha

end

variable (w : World) (e : Event) (i idx : Slot) (r : P4runtime) (pid t : Int)

@[simp] theorem log_table : (w.log e).runtimesTable = w.runtimesTable := rfl
@[simp] theorem log_runtimes : (w.log e).runtimes = w.runtimes := rfl
@[simp] theorem log_links : (w.log e).links = w.links := rfl
@[simp] theorem log_session : (w.log e).sessionTable = w.sessionTable := rfl
@[simp] theorem log_children : (w.log e).children = w.children := rfl
@[simp] theorem log_trace : (w.log e).trace = e :: w.trace := rfl

@[simp] theorem setRuntime_table : (w.setRuntime i r).runtimesTable = Function.update w.runtimesTable i r := rfl
@[simp] theorem setRuntime_runtimes : (w.setRuntime i r).runtimes = w.runtimes := rfl
@[simp] theorem setRuntime_links : (w.setRuntime i r).links = w.links := rfl
@[simp] theorem setRuntime_session : (w.setRuntime i r).sessionTable = w.sessionTable := rfl
@[simp] theorem setRuntime_children : (w.setRuntime i r).children = w.children := rfl
@[simp] theorem setRuntime_trace : (w.setRuntime i r).trace = w.trace := rfl

@[simp] theorem setRuntimes_table (n : Int) : (w.setRuntimes n).runtimesTable = w.runtimesTable := rfl
@[simp] theorem setRuntimes_runtimes (n : Int) : (w.setRuntimes n).runtimes = n := rfl
@[simp] theorem setRuntimes_links (n : Int) : (w.setRuntimes n).links = w.links := rfl
@[simp] theorem setRuntimes_session (n : Int) : (w.setRuntimes n).sessionTable = w.sessionTable := rfl
@[simp] theorem setRuntimes_children (n : Int) : (w.setRuntimes n).children = w.children := rfl
@[simp] theorem setRuntimes_trace (n : Int) : (w.setRuntimes n).trace = w.trace := rfl

@[simp] theorem setP4runtimeId_table : (w.setP4runtimeId idx pid).runtimesTable = w.runtimesTable := rfl
@[simp] theorem setP4runtimeId_runtimes : (w.setP4runtimeId idx pid).runtimes = w.runtimes := rfl
@[simp] theorem setP4runtimeId_children : (w.setP4runtimeId idx pid).children = w.children := rfl
@[simp] theorem setP4runtimeId_trace : (w.setP4runtimeId idx pid).trace = w.trace := rfl

@[simp] theorem setP4runtimeId_links : (w.setP4runtimeId idx pid).links = Function.update w.links idx pid := by
  funext j
  by_cases h : j = idx
  · subst h; simp [links, setP4runtimeId]
  · simp [links, setP4runtimeId, h]

theorem env_frame (e : EnvStep) : (w.env e).runtimesTable = w.runtimesTable ∧
    (w.env e).runtimes = w.runtimes ∧ (w.env e).trace = w.trace ∧ (w.env e).links = w.links := by
  cases e with
  | ovsWrite idx t =>
    refine ⟨rfl, rfl, rfl, ?_⟩
    funext j
    by_cases h : j = idx
    · subst h; simp [links, env, setOvsThreadId]
    · simp [links, env, setOvsThreadId, h]
  | obey pid => exact ⟨rfl, rfl, rfl, rfl⟩
  | crash pid => exact ⟨rfl, rfl, rfl, rfl⟩
  | sigchld => exact ⟨rfl, rfl, rfl, rfl⟩

@[simp] theorem env_table (e : EnvStep) : (w.env e).runtimesTable = w.runtimesTable := (env_frame w e).1
@[simp] theorem env_runtimes (e : EnvStep) : (w.env e).runtimes = w.runtimes := (env_frame w e).2.1
@[simp] theorem env_trace (e : EnvStep) : (w.env e).trace = w.trace := (env_frame w e).2.2.1
@[simp] theorem env_links (e : EnvStep) : (w.env e).links = w.links := (env_frame w e).2.2.2

variable (E : Env)

theorem yield_induct {I : World → Prop} (h : ∀ w e, E.Takes w e → I w → I (w.env e)) (hw : I w) : I (w.yield E) := by
  have key : ∀ (es : List EnvStep) (w : World), (∀ s ∈ trail w es, E.Takes s.1 s.2) → I w → I (es.foldl env w) := by
    intro es
    induction es with
    | nil => intro w _ hw; exact hw
    | cons e es ih =>
      intro w hes hw
      exact ih _ (fun s hs => hes s (List.mem_cons_of_mem _ hs)) (h w e (hes (w, e) List.mem_cons_self) hw)
  exact key _ w (fun s hs => ⟨w, hs⟩) hw

theorem yield_frame : (w.yield E).runtimesTable = w.runtimesTable ∧ (w.yield E).runtimes = w.runtimes ∧
    (w.yield E).trace = w.trace ∧ (w.yield E).links = w.links :=
  yield_induct w E (I := fun v => v.runtimesTable = w.runtimesTable ∧ v.runtimes = w.runtimes ∧
    v.trace = w.trace ∧ v.links = w.links) (fun v e _ hv => by simpa using hv) ⟨rfl, rfl, rfl, rfl⟩

@[simp] theorem yield_table : (w.yield E).runtimesTable = w.runtimesTable := (yield_frame w E).1
@[simp] theorem yield_runtimes : (w.yield E).runtimes = w.runtimes := (yield_frame w E).2.1
@[simp] theorem yield_trace : (w.yield E).trace = w.trace := (yield_frame w E).2.2.1
@[simp] theorem yield_links : (w.yield E).links = w.links := (yield_frame w E).2.2.2

@[simp] theorem kill_table : (w.kill pid).runtimesTable = w.runtimesTable := rfl
@[simp] theorem kill_runtimes : (w.kill pid).runtimes = w.runtimes := rfl
@[simp] theorem kill_links : (w.kill pid).links = w.links := rfl
@[simp] theorem kill_session : (w.kill pid).sessionTable = w.sessionTable := rfl
@[simp] theorem kill_trace : (w.kill pid).trace = .kill pid (w.unreaped pid) :: w.trace := rfl

@[simp] theorem waitpid_table : (w.waitpid pid).runtimesTable = w.runtimesTable := rfl
@[simp] theorem waitpid_runtimes : (w.waitpid pid).runtimes = w.runtimes := rfl
@[simp] theorem waitpid_links : (w.waitpid pid).links = w.links := rfl
@[simp] theorem waitpid_session : (w.waitpid pid).sessionTable = w.sessionTable := rfl
@[simp] theorem waitpid_trace : (w.waitpid pid).trace = .waitpid pid :: w.trace := rfl

end World

section
variable (E : Env) (i : Slot) (w : World)

@[simp] theorem terminate_table (pid : Int) : (terminateChild E pid w).runtimesTable = w.runtimesTable := by
  unfold terminateChild; split <;> simp

@[simp] theorem terminate_runtimes (pid : Int) : (terminateChild E pid w).runtimes = w.runtimes := by
  unfold terminateChild; split <;> simp

@[simp] theorem terminate_links (pid : Int) : (terminateChild E pid w).links = w.links := by
  unfold terminateChild; split <;> simp

theorem terminate_trace {pid : Int} (h : 0 < pid) : (terminateChild E pid w).trace =
    .waitpid pid :: .kill pid ((w.yield E).unreaped pid) :: w.trace := by
  unfold terminateChild; rw [if_pos h]; simp

@[simp] theorem drop_table : (dropEntry E i w).runtimesTable = Function.update w.runtimesTable i .empty := by
  simp [dropEntry]

@[simp] theorem drop_runtimes : (dropEntry E i w).runtimes = w.runtimes := by simp [dropEntry]
@[simp] theorem drop_links : (dropEntry E i w).links = w.links := by simp [dropEntry]

theorem drop_trace (h : 0 < (w.runtimesTable i).pid) : (dropEntry E i w).trace =
    .waitpid (w.runtimesTable i).pid ::
      .kill (w.runtimesTable i).pid ((w.yield E).unreaped (w.runtimesTable i).pid) :: w.trace := by
  simp [dropEntry, terminate_trace E w h]

@[simp] theorem retire_table : (retire E i w).runtimesTable = Function.update w.runtimesTable i .empty :=
  drop_table E i w

@[simp] theorem retire_runtimes : (retire E i w).runtimes = w.runtimes - 1 := rfl
@[simp] theorem retire_links : (retire E i w).links = w.links := drop_links E i w

theorem retire_trace (h : 0 < (w.runtimesTable i).pid) : (retire E i w).trace =
    .waitpid (w.runtimesTable i).pid ::
      .kill (w.runtimesTable i).pid ((w.yield E).unreaped (w.runtimesTable i).pid) :: w.trace :=
  drop_trace E i w h

end

section
variable (idx : Slot) (w : World)

@[simp] theorem unlink_links : (unlink idx w).links = Function.update w.links idx (-1) := by
  rw [unlink, World.setP4runtimeId_links]
  split
  · rfl
  · rfl

@[simp] theorem unlink_runtimes : (unlink idx w).runtimes = w.runtimes := by
  rw [unlink, World.setP4runtimeId_runtimes]
  split
  · rfl
  · rfl

@[simp] theorem unlink_trace : (unlink idx w).trace = w.trace := by
  rw [unlink, World.setP4runtimeId_trace]
  split
  · rfl
  · rfl

theorem unlink_session {j : Slot} (hj : j ≠ idx) : (unlink idx w).sessionTable j = w.sessionTable j := by
  simp only [unlink, World.setP4runtimeId, Function.update_of_ne hj]
  split
  · rfl
  · rfl

theorem unlink_self : (unlink idx w).sessionTable idx = ⟨(w.sessionTable idx).ovsThreadId, -1⟩ := by
  simp only [unlink, World.setP4runtimeId, Function.update_self]
  split
  · rfl
  · rfl

theorem link_session (j : Slot) {k : Slot} (hk : k ≠ idx) : (link j idx w).sessionTable k = w.sessionTable k := by
  simp [link, World.setP4runtimeId, hk]

theorem link_self (j : Slot) :
    (link j idx w).sessionTable idx = ⟨(w.sessionTable idx).ovsThreadId, (w.runtimesTable j).pid⟩ := by
  simp [link, World.setP4runtimeId]

end

theorem stopLoop_induct {E : Env} {I : World → Prop}
    (hdrop : ∀ w i, 0 < (w.runtimesTable i).pid → I w → I (dropEntry E i w)) :
    ∀ (is : List Slot) (w : World), I w → I (stopLoop E is w)
  | [], _, h => h
  | i :: is, w, h => by
    simp only [stopLoop]
    split
    · rename_i hi; exact stopLoop_induct hdrop is _ (hdrop w i hi h)
    · exact stopLoop_induct hdrop is w h

/-! ## The elementary steps -/

/-- A line the launcher writes that is neither about a fork nor about a
runtime it starts, ends or hands out. -/
def Event.isNote : Event → Bool
  | .pkill | .foundNew .. | .foundLost .. | .noFreeRuntime | .command _ | .reply _ => true
  | _ => false

/-- The steps of `start_children` and of the shrinking loop. -/
inductive PoolStep (E : Env) : World → World → Prop
  | env {w : World} {e : EnvStep} (h : E.Takes w e) : PoolStep E w (w.env e)
  | fork {w : World} (h : w.runtimes < maxConnections) :
      PoolStep E w (afterFork (E.fork w) (w.log (.fork (E.fork w))))
  | retire {w : World} {i : Slot} (h : (w.runtimesTable i).Idle) : PoolStep E w (retire E i w)

inductive Micro (E : Env) : World → World → Prop
  | pool {w w' : World} (h : PoolStep E w w') : Micro E w w'
  | note {w : World} {e : Event} (h : e.isNote = true) : Micro E w (w.log e)
  | link {w : World} {j idx : Slot} (h : (w.runtimesTable j).Idle) (hidx : w.links idx < 0) :
      Micro E w (link j idx w)
  | unlink {w : World} {idx : Slot} (hidx : 0 < w.links idx) : Micro E w (unlink idx w)

section
variable {E : Env} {w w' : World}

theorem yield_pool (E : Env) (w : World) : ReflTransGen (PoolStep E) w (w.yield E) :=
  World.yield_induct w E (I := ReflTransGen (PoolStep E) w) (fun _ _ he h => h.tail (.env he)) .refl

theorem afterFork_links (pid : Int) (w : World) : (afterFork pid w).links = w.links := by
  unfold afterFork
  split
  · rfl
  split
  · rfl
  unfold addRuntimeEntry
  split <;> rfl

theorem afterFork_adds (pid : Int) (w : World) : w.Adds (fun e => e.isNote = false) (afterFork pid w) := by
  unfold afterFork
  split
  · exact .one rfl rfl
  split
  · exact .same rfl
  · exact .one rfl rfl

theorem poolStep_adds (h : PoolStep E w w') : w.Adds (fun e => e.isNote = false) w' := by
  cases h with
  | env _ => exact .same (World.env_trace _ _)
  | fork _ => exact World.Adds.trans (.one rfl rfl) (afterFork_adds _ _)
  | @retire i h =>
    refine ⟨[.waitpid _, .kill _ _], retire_trace E i w h.1, ?_⟩
    intro e he
    simp only [List.mem_cons, List.not_mem_nil, or_false] at he
    rcases he with rfl | rfl
    · rfl
    · rfl

theorem poolStep_links (h : PoolStep E w w') : w'.links = w.links := by
  cases h with
  | env he => simp
  | fork h => rw [afterFork_links]; simp
  | retire h => simp

theorem pool_links (h : ReflTransGen (PoolStep E) w w') : w'.links = w.links :=
  h.keep (I := fun v => v.links = w.links) (fun _ _ hs hv => (poolStep_links hs).trans hv) rfl

theorem pool_adds (h : ReflTransGen (PoolStep E) w w') : w.Adds (fun e => e.isNote = false) w' :=
  h.keep (I := fun v => w.Adds _ v) (fun _ _ hs hv => hv.trans (poolStep_adds hs)) (.same rfl)

theorem pool_micro (h : ReflTransGen (PoolStep E) w w') : ReflTransGen (Micro E) w w' :=
  h.mono (fun _ _ h => .pool h) _ _

theorem spawn_pool (h : w.runtimes < maxConnections) : ReflTransGen (PoolStep E) w (spawnRuntimeProcess E w) :=
  (yield_pool E w).tail (.fork (by simpa using h))

theorem spawnLoop_pool {num : Int} (hnum : num ≤ maxConnections) : ∀ (fuel : ℕ) (w : World),
    spawnLoop E num fuel w = some w' → ReflTransGen (PoolStep E) w w'
  | 0, w, h => by
    simp only [spawnLoop] at h
    split at h
    · cases h
    · simp only [Option.some.injEq] at h; subst h; exact .refl
  | fuel + 1, w, h => by
    simp only [spawnLoop] at h
    split at h
    · rename_i hlt
      exact (spawn_pool (by omega)).trans (spawnLoop_pool hnum fuel _ h)
    · simp only [Option.some.injEq] at h; subst h; exact .refl

theorem shrinkLoop_pool (target : Int) : ∀ (is : List Slot) (w : World),
    ReflTransGen (PoolStep E) w (shrinkLoop E target is w)
  | [], w => .refl
  | i :: is, w => by
    simp only [shrinkLoop]
    split
    · split
      · rename_i hidle
        exact (ReflTransGen.single (.retire hidle)).trans (shrinkLoop_pool target is _)
      · exact shrinkLoop_pool target is w
    · exact .refl

theorem adjust_pool {fuel : ℕ} {target : Int} (h : adjustChildren E fuel target w = some w') :
    ReflTransGen (PoolStep E) w w' := by
  unfold adjustChildren at h
  by_cases heq : target = w.runtimes
  · simp only [heq, ite_true, Option.some.injEq] at h; subst h; exact .refl
  · simp only [heq, ite_false] at h
    generalize (if (maxConnections : Int) < target then (maxConnections : Int) else target) = t at h
    split at h
    · exact spawnLoop_pool (by split <;> omega) fuel w h
    · exact Option.some.inj h ▸ shrinkLoop_pool _ _ _

theorem findFree_idle {j : Slot} (h : findFreeRuntimeIndex w = some j) : (w.runtimesTable j).Idle :=
  Slots.first?_spec h

theorem linkAdd_cases {fuel : ℕ} {idx : Slot} (h : linkAdd E fuel idx w = some w') :
    ∃ v, adjustChildren E fuel (w.runtimes + 1) w = some v ∧
      ((∃ j, findFreeRuntimeIndex (v.yield E) = some j ∧ w' = link j idx (v.yield E)) ∨
        (findFreeRuntimeIndex (v.yield E) = none ∧ w' = (v.yield E).log .noFreeRuntime)) := by
  unfold linkAdd at h
  cases ha : adjustChildren E fuel (w.runtimes + 1) w with
  | none => simp [ha] at h
  | some v =>
    refine ⟨v, rfl, ?_⟩
    simp only [ha, Option.bind_eq_bind, Option.bind_some] at h
    cases hf : findFreeRuntimeIndex (v.yield E) with
    | some j => rw [hf] at h; exact .inl ⟨j, rfl, (Option.some.inj h).symm⟩
    | none => rw [hf] at h; exact .inr ⟨rfl, (Option.some.inj h).symm⟩

theorem linkAdd_micro {fuel : ℕ} {idx : Slot} (hidx : w.links idx < 0) (h : linkAdd E fuel idx w = some w') :
    ReflTransGen (Micro E) w w' := by
  obtain ⟨v, ha, hv⟩ := linkAdd_cases h
  have hpool := (adjust_pool ha).trans (yield_pool E v)
  apply (pool_micro hpool).tail
  rcases hv with ⟨j, hf, rfl⟩ | ⟨_, rfl⟩
  · exact .link (findFree_idle hf) (by rw [pool_links hpool]; exact hidx)
  · exact .note rfl

theorem linkDel_micro {fuel : ℕ} {idx : Slot} (hidx : 0 < w.links idx) (h : linkDel E fuel idx w = some w') :
    ReflTransGen (Micro E) w w' :=
  (ReflTransGen.single (.unlink hidx)).trans (pool_micro (adjust_pool h))

theorem checkNew_micro {fuel : ℕ} {i : Slot} (h : checkNew E fuel i w = some w') :
    ReflTransGen (Micro E) w w' := by
  unfold checkNew at h
  split at h
  · rename_i hg
    have hidx : (w.log (.foundNew (w.sessionTable i).ovsThreadId i)).links i < 0 := hg.2
    exact (linkAdd_micro hidx h).head (.note rfl)
  · simp only [Option.some.injEq] at h; subst h; exact .refl

theorem checkLost_micro {fuel : ℕ} {i : Slot} (h : checkLost E fuel i w = some w') :
    ReflTransGen (Micro E) w w' := by
  unfold checkLost at h
  split at h
  · rename_i hg
    have hidx : 0 < (w.log (.foundLost (w.sessionTable i).p4runtimeId i)).links i := hg.2
    exact (linkDel_micro hidx h).head (.note rfl)
  · simp only [Option.some.injEq] at h; subst h; exact .refl

theorem statusLoop_micro : ∀ (is : List Slot) (reported : Int) (w : World),
    ReflTransGen (Micro E) w (statusLoop is reported w)
  | [], _, w => .refl
  | i :: is, reported, w => by
    simp only [statusLoop]
    split
    · split
      · exact (ReflTransGen.single (.note rfl)).trans (statusLoop_micro is _ _)
      · exact statusLoop_micro is _ w
    · exact .refl

theorem handleCommand_micro {fuel : ℕ} {c : Command} (hc : c ≠ .stop) (h : handleCommand E fuel c w = some w') :
    ReflTransGen (Micro E) w w' := by
  cases c with
  | start => simp only [handleCommand, Option.some.injEq] at h; subst h; exact .single (.note rfl)
  | update arg =>
    simp only [handleCommand, handleUpdateCommand] at h
    cases ha : adjustChildren E fuel (atoi arg) w with
    | none => simp [ha] at h
    | some v =>
      simp only [ha, Option.bind_eq_bind, Option.bind_some, Option.some.injEq] at h
      subst h
      exact (pool_micro (adjust_pool ha)).tail (.note rfl)
  | stop => exact absurd rfl hc
  | status =>
    simp only [handleCommand, Option.some.injEq] at h; subst h
    exact (ReflTransGen.single (.note rfl)).trans (statusLoop_micro _ _ _)
  | shutdown =>
    simp only [handleCommand, Option.some.injEq] at h; subst h
    have h2 : ReflTransGen (Micro E) w ((dprintf .shuttingDown w).log .pkill) :=
      (ReflTransGen.single (.note rfl)).tail (.note rfl)
    exact (h2.trans (pool_micro (yield_pool E _))).tail (.note rfl)
  | unknown => simp only [handleCommand, Option.some.injEq] at h; subst h; exact .single (.note rfl)

theorem handleClient_cases {fuel : ℕ} {msg : List UInt8} (h : handleClient E fuel msg w = some w') :
    (∃ e, e.isNote = true ∧ parseCommand (readBuffer msg) = .stop ∧ w' = handleStopCommand E (w.log e)) ∨
      ReflTransGen (Micro E) w w' := by
  unfold handleClient at h
  simp only at h
  split at h
  · simp only [Option.some.injEq] at h; subst h; exact .inr .refl
  · by_cases hc : parseCommand (readBuffer msg) = .stop
    · rw [hc] at h
      exact .inl ⟨_, rfl, hc, (Option.some.inj h).symm⟩
    · exact .inr ((ReflTransGen.single (.note rfl)).trans (handleCommand_micro hc h))

end

inductive Next : Config → Act → Config → Prop
  | start {E : Env} {fuel : ℕ} {w w' : World} (h : startChildren E fuel initClients w = some w') :
      Next ⟨.boot, w⟩ (.start E fuel) ⟨.top, w'⟩
  | env {ph : Phase} {w : World} {e : EnvStep} : Next ⟨ph, w⟩ (.env e) ⟨ph, w.env e⟩
  | beginScan {w : World} : Next ⟨.top, w⟩ .beginScan ⟨.new 0, w⟩
  | new {E : Env} {fuel : ℕ} {i : Slot} {w w' : World} (h : checkNew E fuel i w = some w') :
      Next ⟨.new i, w⟩ (.test E fuel) ⟨.lost i, w'⟩
  | lost {E : Env} {fuel : ℕ} {i : Slot} {w w' : World} (h : checkLost E fuel i w = some w') :
      Next ⟨.lost i, w⟩ (.test E fuel) ⟨.after i, w'⟩
  | client {E : Env} {fuel : ℕ} {msg : List UInt8} {w w' : World} (h : handleClient E fuel msg w = some w') :
      Next ⟨.top, w⟩ (.client E fuel msg) ⟨.top, w'⟩

theorem next_inv {c c' : Config} {a : Act} (h : next c a = some c') : Next c a c' := by
  obtain ⟨ph, w⟩ := c
  cases a with
  | start E fuel =>
    cases ph with
    | boot =>
      simp only [next, Option.map_eq_some_iff] at h
      obtain ⟨w', hs, rfl⟩ := h
      exact .start hs
    | _ => simp [next] at h
  | env e =>
    simp only [next, Option.some.injEq] at h
    exact h ▸ .env
  | beginScan =>
    cases ph with
    | top => simp only [next, Option.some.injEq] at h; exact h ▸ .beginScan
    | _ => simp [next] at h
  | test E fuel =>
    cases ph with
    | new i =>
      simp only [next, Option.map_eq_some_iff] at h
      obtain ⟨w', hs, rfl⟩ := h
      exact .new hs
    | lost i =>
      simp only [next, Option.map_eq_some_iff] at h
      obtain ⟨w', hs, rfl⟩ := h
      exact .lost hs
    | _ => simp [next] at h
  | client E fuel msg =>
    cases ph with
    | top =>
      simp only [next, Option.map_eq_some_iff] at h
      obtain ⟨w', hs, rfl⟩ := h
      exact .client hs
    | _ => simp [next] at h

/-! ## The invariant rule -/

/-- **Invariants of the launcher.** A property of the world is kept by every
run under `A` when the elementary steps, the environment's steps and the
handling of `stop` keep it. -/
theorem Assumption.Reachable.world_inv {A : Assumption} {I : World → Prop} {c : Config} (hr : A.Reachable c)
    (h0 : I .init)
    (henv : ∀ w e, A.step w e → I w → I (w.env e))
    (hmicro : ∀ E w w', A.env E → Micro E w w' → I w → I w')
    (hstop : ∀ E w e, A.env E → A.stop w → I (w.log e) → I (stopAllChildren E (w.log e))) : I c.world := by
  have hchain : ∀ {E w w'}, A.env E → ReflTransGen (Micro E) w w' → I w → I w' := fun hE h hw =>
    h.keep (fun _ _ hs => hmicro _ _ _ hE hs) hw
  refine Lts.Reachable.inv (M := launcher) (I := fun c => I c.world) h0 ?_ hr
  intro c a c' _ hw ha hn
  cases next_inv hn with
  | start hs => exact hchain ha (pool_micro (spawnLoop_pool (by decide) _ _ hs)) hw
  | env => exact henv _ _ ha hw
  | beginScan => exact hw
  | new hs => exact hchain ha (checkNew_micro hs) hw
  | lost hs => exact hchain ha (checkLost_micro hs) hw
  | client hs =>
    rcases handleClient_cases hs with ⟨e, he, hp, rfl⟩ | h
    · have hlog : I (World.log e _) := hmicro _ _ _ ha.1 (.note he) hw
      exact hmicro _ _ _ ha.1 (.note rfl) (hstop _ _ e ha.1 (ha.2 hp) hlog)
    · exact hchain ha.1 h hw

end P4Ubpf
