import P4Ubpf.Machine
import P4Ubpf.MessageSound
import P4Ubpf.PoolSound
import P4Ubpf.RoundSound

/-!
# The programs keep out of each other's way

Whatever the order of their steps, the launcher finds in memory the session
table of its own model, the agent runs as if alone with parties that leave its
message alone, and the counters are what the P4 runtimes have stored.
-/

namespace P4Ubpf

open P4runtime Relation

/-! ## Regions -/

/-- No id of the session table has a byte at `a`. -/
def OffIds (a : ℕ) : Prop := ∀ i : Slot, a < connectionAddr i ∨ connectionAddr i + 12 ≤ a

/-- Neither the agent's message nor a sealed counter has a byte at `a`. -/
def OffOthers (a : ℕ) : Prop := messageSize ≤ a ∧ ∀ i : Slot, a < packetCountAddr i ∨ packetCountAddr i + 40 ≤ a

section
variable {m : Memory UInt8} {ps : Stores} {i j idx : Slot} {a n k : ℕ}

theorem messageSize_le (i : Slot) : messageSize ≤ connectionAddr i := by
  unfold messageSize connectionAddr metaArea
  omega

theorem offIds_message (h : a < messageSize) : OffIds a := fun i =>
  .inl (Nat.lt_of_lt_of_le h (messageSize_le i))

theorem offIds_packetCount (idx : Slot) (hk : k < 40) : OffIds (packetCountAddr idx + k) := by
  intro i
  unfold packetCountAddr connectionAddr sizeofConnection
  omega

theorem offOthers_ids (hlo : connectionAddr idx ≤ a) (hhi : a < connectionAddr idx + 12) : OffOthers a := by
  refine ⟨(messageSize_le idx).trans hlo, ?_⟩
  intro i
  unfold packetCountAddr connectionAddr sizeofConnection at *
  omega

theorem offOthers_locked : OffOthers tableLockedAddr := by
  refine ⟨?_, ?_⟩
  · unfold messageSize tableLockedAddr connectionAddr metaArea
    omega
  · intro i
    have hi := i.isLt
    unfold tableLockedAddr packetCountAddr connectionAddr sizeofConnection
    omega

theorem offIds_locked : OffIds tableLockedAddr := by
  intro i
  have hi := i.isLt
  unfold tableLockedAddr connectionAddr sizeofConnection
  omega

theorem load_write (h : ∀ p ∈ ps, p.1 < a ∨ a + n ≤ p.1) : (m.write ps).load a n = m.load a n := by
  apply Memory.load_congr
  intro x hx hlt
  apply Memory.write_frame
  intro p hp he
  have := h p hp
  omega

theorem loadConnection_write (h : ∀ p ∈ ps, OffIds p.1) (i : Slot) :
    loadConnection (m.write ps) i = loadConnection m i := by
  have hthread : (m.write ps).load (connectionAddr i) 8 = m.load (connectionAddr i) 8 := load_write fun p hp => by
    have := h p hp i
    omega
  have hruntime : (m.write ps).load (p4runtimeIdAddr i) 4 = m.load (p4runtimeIdAddr i) 4 :=
    load_write fun p hp => by
      have := h p hp i
      unfold p4runtimeIdAddr
      omega
  rw [loadConnection, hthread, hruntime]; rfl

theorem counter_write (h : ∀ p ∈ ps, OffOthers p.1) (i : Slot) :
    (m.write ps).load (packetCountAddr i) 40 = m.load (packetCountAddr i) 40 :=
  load_write fun p hp => (h p hp).2 i

/-! ## Ids as bytes -/

theorem load_ofInt (m : Memory UInt8) (a : ℕ) {z : Int} (h : LittleEndian.InRange k z) :
    LittleEndian.toInt ((m.store a (LittleEndian.ofInt k z)).load a k) = z := by
  have hload := Memory.load_store m a (LittleEndian.ofInt k z)
  rw [LittleEndian.length_ofInt] at hload
  rw [hload, LittleEndian.toInt_ofInt h]

theorem slots_apart (h : i ≠ j) :
    connectionAddr i + 56 ≤ connectionAddr j ∨ connectionAddr j + 56 ≤ connectionAddr i := by
  have hne : i.val ≠ j.val := fun he => h (Fin.ext he)
  unfold connectionAddr sizeofConnection
  omega

theorem loadConnection_threadId (m : Memory UInt8) (idx : Slot) {t : Int} (ht : LittleEndian.InRange 8 t)
    (i : Slot) :
    loadConnection (m.store (connectionAddr idx) (LittleEndian.ofInt 8 t)) i =
      if i = idx then ⟨t, (loadConnection m idx).p4runtimeId⟩ else loadConnection m i := by
  have hlen : (LittleEndian.ofInt 8 t).length = 8 := LittleEndian.length_ofInt 8 t
  have hruntime : (m.store (connectionAddr idx) (LittleEndian.ofInt 8 t)).load (p4runtimeIdAddr i) 4 =
      m.load (p4runtimeIdAddr i) 4 := Memory.load_frame m (by
    unfold p4runtimeIdAddr
    by_cases hi : i = idx
    · subst hi; omega
    · have := slots_apart hi
      omega)
  by_cases hi : i = idx
  · subst hi
    rw [if_pos rfl, loadConnection, load_ofInt m _ ht, hruntime]; rfl
  · have hthread : (m.store (connectionAddr idx) (LittleEndian.ofInt 8 t)).load (connectionAddr i) 8 =
        m.load (connectionAddr i) 8 := Memory.load_frame m (by
      have := slots_apart hi
      omega)
    rw [if_neg hi, loadConnection, hthread, hruntime]; rfl

theorem loadConnection_runtimeId (m : Memory UInt8) (idx : Slot) {pid : Int}
    (hp : LittleEndian.InRange 4 pid) (i : Slot) :
    loadConnection (m.store (p4runtimeIdAddr idx) (LittleEndian.ofInt 4 pid)) i =
      if i = idx then ⟨(loadConnection m idx).ovsThreadId, pid⟩ else loadConnection m i := by
  have hlen : (LittleEndian.ofInt 4 pid).length = 4 := LittleEndian.length_ofInt 4 pid
  have hthread : (m.store (p4runtimeIdAddr idx) (LittleEndian.ofInt 4 pid)).load (connectionAddr i) 8 =
      m.load (connectionAddr i) 8 := Memory.load_frame m (by
    unfold p4runtimeIdAddr
    by_cases hi : i = idx
    · subst hi; omega
    · have := slots_apart hi
      omega)
  by_cases hi : i = idx
  · subst hi
    rw [if_pos rfl, loadConnection, load_ofInt m _ hp, hthread]; rfl
  · have hruntime : (m.store (p4runtimeIdAddr idx) (LittleEndian.ofInt 4 pid)).load (p4runtimeIdAddr i) 4 =
        m.load (p4runtimeIdAddr i) 4 := Memory.load_frame m (by
      have := slots_apart hi
      unfold p4runtimeIdAddr
      omega)
    rw [if_neg hi, loadConnection, hthread, hruntime]; rfl

end

/-! ## What is stored where -/

section
variable {E : Env} {fuel : ℕ} {idx : Slot} {w : World} {p : ℕ × UInt8}

theorem envStores_off {e : EnvStep} (h : p ∈ e.stores) : OffOthers p.1 := by
  cases e with
  | ovsWrite idx t =>
    have hrange := Memory.cells_range h
    rw [LittleEndian.length_ofInt] at hrange
    exact offOthers_ids hrange.1 (by omega)
  | obey pid => cases h
  | crash pid => cases h
  | sigchld => cases h

theorem seenStores_off {s : Seen} (h : p ∈ seenStores s) : OffOthers p.1 := by
  obtain ⟨_, _, hp⟩ := List.mem_flatMap.mp h
  exact envStores_off hp

theorem runtimeIdStores_off {pid : Int} (h : p ∈ runtimeIdStores idx pid) : OffOthers p.1 := by
  have hrange := Memory.cells_range h
  rw [LittleEndian.length_ofInt] at hrange
  unfold p4runtimeIdAddr at hrange
  exact offOthers_ids (show connectionAddr idx ≤ p.1 by omega) (by omega)

theorem linkAddStores_off (h : p ∈ linkAddStores E fuel idx w) : OffOthers p.1 := by
  unfold linkAddStores at h
  split at h
  · cases h
  · rcases List.mem_append.mp h with h | h
    · rcases List.mem_append.mp h with h | h
      · exact seenStores_off h
      · exact seenStores_off h
    · split at h
      · exact runtimeIdStores_off h
      · cases h

theorem linkDelStores_off (h : p ∈ linkDelStores E fuel idx w) : OffOthers p.1 := by
  rcases List.mem_append.mp h with h | h
  · exact runtimeIdStores_off h
  · exact seenStores_off h

/-- **The launcher and OVS store ids only**: nothing of the agent's message
and nothing of a counter. -/
theorem stores_off {c : Config} {a : Act} (h : p ∈ stores c a) : OffOthers p.1 := by
  unfold stores at h
  split at h
  · exact seenStores_off h
  · exact envStores_off h
  · unfold checkNewStores at h
    split at h
    · exact linkAddStores_off h
    · cases h
  · unfold checkLostStores at h
    split at h
    · exact linkDelStores_off h
    · cases h
  · exact seenStores_off h
  · cases h

theorem initStores_off (h : p ∈ initStores) : OffOthers p.1 := by
  rcases List.mem_append.mp h with h | h
  · obtain ⟨i, _, hp⟩ := List.mem_flatMap.mp h
    rcases List.mem_append.mp hp with hp | hp
    · have hrange := Memory.cells_range hp
      rw [LittleEndian.length_ofInt] at hrange
      exact offOthers_ids hrange.1 (by omega)
    · exact runtimeIdStores_off hp
  · rw [List.mem_singleton.mp h]
    exact offOthers_locked

end

/-! ## Pids are ints -/

def Narrow (w : World) : Prop := ∀ i, 0 < (w.runtimesTable i).pid → LittleEndian.InRange 4 (w.runtimesTable i).pid

section
variable {E : Env} {w w' : World} {m : Memory UInt8} {fuel : ℕ} {idx : Slot}

theorem narrow_update {i : Slot} {r : P4runtime} (h : Narrow w)
    (ht : w'.runtimesTable = Function.update w.runtimesTable i r)
    (hr : 0 < r.pid → LittleEndian.InRange 4 r.pid) : Narrow w' := by
  intro j
  rw [ht]
  by_cases hj : j = i
  · rw [hj, Function.update_self]; exact hr
  · rw [Function.update_of_ne hj]; exact h j

theorem narrow_same (h : Narrow w) (ht : w'.runtimesTable = w.runtimesTable) : Narrow w' := by
  intro j
  rw [ht]; exact h j

theorem narrow_fork {pid : Int} (h : Narrow w) (hp : 0 < pid → LittleEndian.InRange 4 pid) :
    Narrow (afterFork pid w) := by
  unfold afterFork
  split
  · exact h
  split
  · exact h
  · have hentry : Narrow (addRuntimeEntry pid w) := by
      unfold addRuntimeEntry
      split
      · exact narrow_update h rfl hp
      · exact h
    exact hentry

theorem narrow_micro (hE : ranged.env E) (hs : Micro E w w') (h : Narrow w) : Narrow w' := by
  cases hs with
  | pool hp =>
    cases hp with
    | env _ => exact narrow_same h (World.env_table _ _)
    | fork _ => exact narrow_fork (narrow_same h rfl) (hE.1 w)
    | @retire i _ => exact narrow_update h (retire_table E i w) fun hpos => by cases hpos
  | note _ => exact h
  | @link j idx _ _ => exact narrow_update (i := j) h rfl (h j)
  | @unlink idx _ =>
    unfold unlink
    simp only
    split
    · rename_i i _
      exact narrow_update (i := i) h rfl (h i)
    · exact h

theorem narrow_stop (E : Env) (w : World) : Narrow (stopAllChildren E w) := by
  intro i hi
  exact absurd hi (stop_absent E w i)

theorem narrow_reachable {c : Config} (hr : ranged.Reachable c) : Narrow c.world :=
  hr.world_inv (fun _ h => by cases h) (fun _ _ _ h => narrow_same h (World.env_table _ _))
    (fun _ _ _ hE hs h => narrow_micro hE hs h) (fun E w e _ _ _ => narrow_stop E (w.log e))

theorem narrow_adjust (hE : ranged.env E) {n : Int}
    (ha : adjustChildren E fuel n w = some w') (h : Narrow w) : Narrow w' :=
  (adjust_pool ha).keep (fun _ _ hs hv => narrow_micro hE (.pool hs) hv) h

/-! ## The table in memory -/

theorem shows_write {ps : Stores} (h : ∀ p ∈ ps, OffIds p.1) (hs : Shows w m) : Shows w (m.write ps) := fun i =>
  (loadConnection_write h i).trans (hs i)

theorem shows_threadId {t : Int} (ht : LittleEndian.InRange 8 t) (hs : Shows w m) :
    Shows (w.setOvsThreadId idx t) (m.write (Memory.cells (connectionAddr idx) (LittleEndian.ofInt 8 t))) := by
  intro i
  refine (loadConnection_threadId m idx ht i).trans ?_
  rw [hs i, hs idx]
  simp only [World.setOvsThreadId]
  by_cases hi : i = idx
  · rw [hi, if_pos rfl, Function.update_self]
  · rw [if_neg hi, Function.update_of_ne hi]

theorem shows_runtimeId {pid : Int} (hp : LittleEndian.InRange 4 pid) (hs : Shows w m)
    (hw : w'.sessionTable = Function.update w.sessionTable idx { w.sessionTable idx with p4runtimeId := pid }) :
    Shows w' (m.write (runtimeIdStores idx pid)) := by
  intro i
  refine (loadConnection_runtimeId m idx hp i).trans ?_
  rw [hs i, hs idx, hw]
  by_cases hi : i = idx
  · rw [hi, if_pos rfl, Function.update_self]
  · rw [if_neg hi, Function.update_of_ne hi]

theorem shows_env {e : EnvStep} (he : e.Fits) (hs : Shows w m) : Shows (w.env e) (m.write e.stores) := by
  cases e with
  | ovsWrite idx t => exact shows_threadId he hs
  | obey pid => exact hs
  | crash pid => exact hs
  | sigchld => exact hs

theorem shows_records (hE : ranged.env E) (m : Memory UInt8) :
    Records E (fun ps s => ps ++ s.2.stores) (fun w ps => Shows w (m.write ps)) where
  env := fun w e ps he hs => by
    rw [Memory.write_append]
    exact shows_env (hE.2 w e he) hs
  same := fun w w' ps hs ht i => by rw [ht]; exact hs i

theorem foldl_stores (s : Seen) : s.foldl (fun ps s => ps ++ s.2.stores) [] = seenStores s := by
  rw [List.foldl_append_eq_append, List.nil_append, seenStores, List.flatMap_def]

theorem shows_adjust (hE : ranged.env E) {n : Int} (ha : adjustChildren E fuel n w = some w') (hs : Shows w m) :
    Shows w' (m.write (seenStores (adjustSeen E fuel n w))) := by
  rw [← foldl_stores]
  exact adjust_records (shows_records hE m) ha hs

theorem shows_yield (hE : ranged.env E) (hs : Shows w m) : Shows (w.yield E) (m.write (seenStores (w.seen E))) := by
  rw [← foldl_stores]
  exact seen_records (shows_records hE m) hs

theorem shows_linkAdd (hE : ranged.env E) (h : linkAdd E fuel idx w = some w') (hn : Narrow w) (hs : Shows w m) :
    Shows w' (m.write (linkAddStores E fuel idx w)) := by
  obtain ⟨v, hv, hcase⟩ := linkAdd_cases h
  have hyield := shows_yield hE (shows_adjust hE hv hs)
  rw [linkAddStores, hv]
  simp only
  rw [Memory.write_append, Memory.write_append]
  rcases hcase with ⟨j, hj, rfl⟩ | ⟨hnone, rfl⟩
  · have hpid := narrow_same (narrow_adjust hE hv hn) (World.yield_table v E) j (findFree_idle hj).1
    rw [hj]
    exact shows_runtimeId hpid hyield rfl
  · rw [hnone]; exact hyield

theorem shows_linkDel (hE : ranged.env E) (h : linkDel E fuel idx w = some w') (hs : Shows w m) :
    Shows w' (m.write (linkDelStores E fuel idx w)) := by
  rw [linkDelStores, Memory.write_append]
  have hunlink : (unlink idx w).sessionTable =
      Function.update w.sessionTable idx { w.sessionTable idx with p4runtimeId := -1 } := by
    funext k
    by_cases hk : k = idx
    · rw [hk, unlink_self, Function.update_self]
    · rw [unlink_session idx w hk, Function.update_of_ne hk]
  exact shows_adjust hE h (shows_runtimeId (by decide) hs hunlink)

theorem stores_env (ph : P4Ubpf.Phase) (w : World) (e : EnvStep) : stores ⟨ph, w⟩ (.env e) = e.stores := by
  cases ph with
  | boot => rfl
  | top => rfl
  | new i => rfl
  | lost i => rfl

/-- **One action, in the model and in memory.** -/
theorem shows_next {c c' : Config} {a : Act} (hn : Next c a c') (ha : ranged.ok c a) (hnar : Narrow c.world)
    (hs : Shows c.world m) : Shows c'.world (m.write (stores c a)) := by
  cases hn with
  | @start E fuel w w' h =>
    rw [stores, ← foldl_stores]
    exact spawnLoop_records (shows_records ha m) h hs
  | env =>
    rw [stores_env]
    exact shows_env ha hs
  | beginScan => exact hs
  | @new E fuel i w w' h =>
    rw [stores, checkNewStores]
    unfold checkNew at h
    split at h
    · rename_i hg
      rw [if_pos hg]
      exact shows_linkAdd ha h hnar hs
    · rename_i hg
      cases h
      rw [if_neg hg]
      exact hs
  | @lost E fuel i w w' h =>
    rw [stores, checkLostStores]
    unfold checkLost at h
    split at h
    · rename_i hg
      rw [if_pos hg]
      exact shows_linkDel ha h hs
    · rename_i hg
      cases h
      rw [if_neg hg]
      exact hs
  | @client E fuel msg w w' h =>
    rw [stores, ← foldl_stores]
    exact handleClient_records (shows_records ha.1 m) h hs

end

theorem loadConnection_init (is : List Slot) (m : Memory UInt8) (i : Slot) :
    loadConnection (m.write (is.flatMap initSlotStores)) i = if i ∈ is then ⟨-1, -1⟩ else loadConnection m i := by
  induction is generalizing m with
  | nil => rfl
  | cons j is ih =>
    have hslot : ∀ k, loadConnection (m.write (initSlotStores j)) k =
        if k = j then ⟨-1, -1⟩ else loadConnection m k := by
      intro k
      rw [initSlotStores, Memory.write_append]
      refine (loadConnection_runtimeId _ j (by decide) k).trans ?_
      have hthread := loadConnection_threadId m j (show LittleEndian.InRange 8 (-1) by decide)
      by_cases hk : k = j
      · rw [if_pos hk, if_pos hk]
        exact congrArg (fun c : Connection => (⟨c.ovsThreadId, -1⟩ : Connection)) ((hthread j).trans (if_pos rfl))
      · rw [if_neg hk, if_neg hk]
        exact (hthread k).trans (if_neg hk)
    rw [List.flatMap_cons, Memory.write_append, ih, hslot]
    by_cases hi : i ∈ is
    · rw [if_pos hi, if_pos (List.mem_cons_of_mem j hi)]
    · by_cases hij : i = j
      · rw [if_neg hi, if_pos hij, if_pos (hij ▸ List.mem_cons_self)]
      · rw [if_neg hi, if_neg hij, if_neg fun hm => (List.mem_cons.mp hm).elim hij hi]

/-- Whatever the memory held, `shm_initialize_table` leaves an empty table. -/
theorem shows_init (m : Memory UInt8) : Shows .init (m.write initStores) := by
  intro i
  rw [initStores, Memory.write_append, loadConnection_write (List.forall_mem_singleton.mpr offIds_locked),
    loadConnection_init, if_pos (Slots.mem_all i)]
  rfl

/-! ## The machine -/

section
variable {P : Agent.Platform} {m₀ : Memory UInt8} {g g' : Agent.Config} {ps : Stores}

/-- To the agent, what the launcher stores is stored by another party. -/
theorem write_run (g : Agent.Config) (ps : Stores) :
    (Agent.agent P m₀).run g (ps.map fun p => .other p.1 p.2) = some (g.write ps) := by
  induction ps generalizing g with
  | nil => rfl
  | cons p ps ih =>
    obtain ⟨ph, q⟩ := g
    have hn : (Agent.agent P m₀).next ⟨ph, q⟩ (.other p.1 p.2) = some (Agent.Config.write [p] ⟨ph, q⟩) := by
      cases ph <;> rfl
    exact (Lts.run_step hn _).trans (ih _)

theorem write_reachable (hps : ∀ p ∈ ps, messageSize ≤ p.1)
    (hr : (Agent.agent P m₀).Reachable (fun _ a => a.Apart) g) :
    (Agent.agent P m₀).Reachable (fun _ a => a.Apart) (g.write ps) := by
  refine Lts.run_reachable ?_ hr (write_run g ps)
  intro _ a ha
  obtain ⟨p, hp, rfl⟩ := List.mem_map.mp ha
  exact hps p hp

theorem agent_memory {a : Agent.Act} (hn : Agent.Next P g a g') (ha : ∀ x b, a ≠ .other x b)
    (harea : g.phase.InArea) :
    ∃ ps, g'.process.memory = g.process.memory.write ps ∧ ∀ p ∈ ps, p.1 < messageSize := by
  cases hn with
  | other => exact absurd rfl (ha _ _)
  | start h =>
    obtain ⟨_, _, _, _, rfl⟩ := Agent.startProcess_cases h
    exact ⟨[], rfl, fun p hp => by cases hp⟩
  | @publish p usedPages sockstat iv =>
    refine ⟨[], ?_, fun p hp => by cases hp⟩
    rcases Agent.publishRound_cases P usedPages sockstat iv p with ⟨_, _, heq⟩ | ⟨_, _, heq⟩
    · rw [heq]; rfl
    · rw [heq]; rfl
  | @store p a b stores => exact ⟨[(a, b)], rfl, List.forall_mem_singleton.mpr (harea (a, b) List.mem_cons_self)⟩
  | load _ _ => exact ⟨[], rfl, fun p hp => by cases hp⟩
  | count _ _ => exact ⟨[], rfl, fun p hp => by cases hp⟩
  | compare _ h =>
    obtain ⟨_, _, rfl⟩ := Agent.checkRound_cases h
    exact ⟨[], rfl, fun p hp => by cases hp⟩

/-- Without any assumption: the agent runs as if alone, and the counters are
what was stored. -/
structure Separate (P : Agent.Platform) (m₀ : Memory UInt8) (s : Machine) : Prop where
  agent : (Agent.agent P m₀).Reachable (fun _ a => a.Apart) s.agent
  counters : ∀ i : Slot, s.memory.load (packetCountAddr i) 40 = s.counters i

structure Composed (P : Agent.Platform) (m₀ : Memory UInt8) (s : Machine) : Prop extends Separate P m₀ s where
  launcher : ∀ c, s.launcher = some c → ranged.Reachable c ∧ Shows c.world s.memory

theorem separate_init : Separate P m₀ (machine P m₀).init := ⟨.init, fun _ => rfl⟩

theorem memory_write (l : Option Config) (g : Agent.Config) (ps : Stores) (cs : Slot → List UInt8) :
    Machine.memory ⟨l, g.write ps, cs⟩ = g.process.memory.write ps := rfl

theorem separate_write {l l' : Option Config} {cs : Slot → List UInt8} (hps : ∀ p ∈ ps, OffOthers p.1)
    (h : Separate P m₀ ⟨l, g, cs⟩) : Separate P m₀ ⟨l', g.write ps, cs⟩ where
  agent := write_reachable (fun p hp => (hps p hp).1) h.agent
  counters := fun i => (counter_write hps i).trans (h.counters i)

theorem agent_stores {l : Option Config} {cs : Slot → List UInt8} {a : Agent.Act} (ha : ∀ x b, a ≠ .other x b)
    (hn : Agent.next P g a = some g') (h : Separate P m₀ ⟨l, g, cs⟩) :
    ∃ ps, Machine.memory ⟨l, g', cs⟩ = (Machine.memory ⟨l, g, cs⟩).write ps ∧ ∀ p ∈ ps, p.1 < messageSize :=
  agent_memory (Agent.next_inv hn) ha (Agent.inArea_reachable h.agent)

theorem separate_agent {l : Option Config} {cs : Slot → List UInt8} {a : Agent.Act} (ha : ∀ x b, a ≠ .other x b)
    (hn : Agent.next P g a = some g') (h : Separate P m₀ ⟨l, g, cs⟩) : Separate P m₀ ⟨l, g', cs⟩ where
  agent := by
    refine .step h.agent (a := a) ?_ hn
    cases a with
    | other x b => exact absurd rfl (ha x b)
    | _ => trivial
  counters := fun i => by
    obtain ⟨ps, hmem, hrange⟩ := agent_stores ha hn h
    refine Eq.trans ?_ (h.counters i)
    rw [hmem]
    apply load_write
    intro p hp
    have hlt := hrange p hp
    have hle := messageSize_le i
    unfold packetCountAddr
    omega

theorem separate_runtime {l : Option Config} {cs : Slot → List UInt8} {idx : Slot} {k : ℕ} {b : UInt8} (hk : k < 40)
    (h : Separate P m₀ ⟨l, g, cs⟩) :
    Separate P m₀ ⟨l, g.write [(packetCountAddr idx + k, b)], Function.update cs idx ((cs idx).set k b)⟩ where
  agent := write_reachable (List.forall_mem_singleton.mpr (by
    have hle := messageSize_le idx
    unfold packetCountAddr
    omega)) h.agent
  counters := fun i => by
    have hold : g.process.memory.load (packetCountAddr i) 40 = cs i := h.counters i
    rw [memory_write]
    simp only
    by_cases hi : i = idx
    · subst hi
      rw [Function.update_self, ← hold]
      exact Memory.load_set _ b hk
    · rw [Function.update_of_ne hi, ← hold]
      apply load_write
      refine List.forall_mem_singleton.mpr ?_
      have hapart := slots_apart hi
      unfold packetCountAddr
      omega

theorem next_agent {l : Option Config} {cs : Slot → List UInt8} {a : Agent.Act} {s' : Machine}
    (hn : Machine.next P ⟨l, g, cs⟩ (.agent a) = some s') :
    (∀ x b, a ≠ .other x b) ∧ ∃ g', Agent.next P g a = some g' ∧ s' = ⟨l, g', cs⟩ := by
  have hown : ∀ x b, a ≠ .other x b := by
    intro x b he
    subst he
    cases l with
    | none => cases hn
    | some c => cases hn
  have hmap : Machine.next P ⟨l, g, cs⟩ (.agent a) = (Agent.next P g a).map (⟨l, ·, cs⟩) := by
    cases l <;> cases a <;> first | rfl | exact absurd rfl (hown _ _)
  rw [hmap] at hn
  obtain ⟨g', hg, rfl⟩ := Option.map_eq_some_iff.mp hn
  exact ⟨hown, g', hg, rfl⟩

inductive MachineNext (P : Agent.Platform) : Machine → MachineAct → Machine → Prop
  | initTable {g : Agent.Config} {cs : Slot → List UInt8} :
      MachineNext P ⟨none, g, cs⟩ .initTable ⟨some P4Ubpf.launcher.init, g.write initStores, cs⟩
  | launcher {c c' : Config} {g : Agent.Config} {cs : Slot → List UInt8} {a : Act} (h : next c a = some c') :
      MachineNext P ⟨some c, g, cs⟩ (.launcher a) ⟨some c', g.write (stores c a), cs⟩
  | agent {l : Option Config} {g g' : Agent.Config} {cs : Slot → List UInt8} {a : Agent.Act}
      (ha : ∀ x b, a ≠ .other x b) (h : Agent.next P g a = some g') :
      MachineNext P ⟨l, g, cs⟩ (.agent a) ⟨l, g', cs⟩
  | runtime {l : Option Config} {g : Agent.Config} {cs : Slot → List UInt8} {idx : Slot} {k : ℕ}
      {b : UInt8} (hk : k < 40) :
      MachineNext P ⟨l, g, cs⟩ (.runtime idx k b)
        ⟨l, g.write [(packetCountAddr idx + k, b)], Function.update cs idx ((cs idx).set k b)⟩

theorem machine_inv {s s' : Machine} {a : MachineAct} (hn : Machine.next P s a = some s') :
    MachineNext P s a s' := by
  obtain ⟨l, g, cs⟩ := s
  cases a with
  | initTable =>
    cases l with
    | none => cases hn; exact .initTable
    | some c => cases hn
  | launcher a =>
    cases l with
    | none => cases hn
    | some c =>
      simp only [Machine.next, Option.map_eq_some_iff] at hn
      obtain ⟨c', hc, rfl⟩ := hn
      exact .launcher hc
  | agent a =>
    obtain ⟨hown, g', hg, rfl⟩ := next_agent hn
    exact .agent hown hg
  | runtime idx k b =>
    simp only [Machine.next, Option.ite_none_right_eq_some, Option.some.injEq] at hn
    obtain ⟨hk, rfl⟩ := hn
    exact .runtime hk

theorem separate_next {s s' : Machine} {a : MachineAct} (hn : MachineNext P s a s')
    (h : Separate P m₀ s) : Separate P m₀ s' := by
  cases hn with
  | initTable => exact separate_write (fun p hp => initStores_off hp) h
  | launcher _ => exact separate_write (fun p hp => stores_off hp) h
  | agent ha hg => exact separate_agent ha hg h
  | runtime hk => exact separate_runtime hk h

theorem composed_next {s s' : Machine} {a : MachineAct} (ha : a.ok s) (hn : MachineNext P s a s')
    (h : Composed P m₀ s) :
    Composed P m₀ s' := by
  refine ⟨separate_next hn h.toSeparate, ?_⟩
  intro d hd
  cases hn with
  | @initTable g cs =>
    cases hd
    rw [memory_write]
    exact ⟨.init, shows_init g.process.memory⟩
  | @launcher c c' g cs a hc =>
    cases hd
    obtain ⟨hr, hs⟩ := h.launcher c rfl
    exact ⟨.step hr (ha c rfl) hc, shows_next (next_inv hc) (ha c rfl) (narrow_reachable hr) hs⟩
  | agent hown hg =>
    obtain ⟨hr, hs⟩ := h.launcher d hd
    obtain ⟨ps, hmem, hrange⟩ := agent_stores hown hg h.toSeparate
    exact ⟨hr, hmem ▸ shows_write (fun p hp => offIds_message (hrange p hp)) hs⟩
  | @runtime l g cs idx k b hk =>
    obtain ⟨hr, hs⟩ := h.launcher d hd
    exact ⟨hr, shows_write (List.forall_mem_singleton.mpr (offIds_packetCount idx hk)) hs⟩

end

/-- **One memory, three kinds of writers.** -/
theorem machine_composed {P : Agent.Platform} {m₀ : Memory UInt8} {s : Machine}
    (hr : (machine P m₀).Reachable (fun s a => a.ok s) s) :
    (∀ c, s.launcher = some c → ranged.Reachable c ∧ Shows c.world s.memory) ∧
    (Agent.agent P m₀).Reachable (fun _ a => a.Apart) s.agent ∧
    ∀ i : Slot, s.memory.load (packetCountAddr i) 40 = s.counters i := by
  have h : Composed P m₀ s := hr.inv ⟨separate_init, fun c hc => (by cases hc)⟩
    fun _ _ _ _ h ha hn => composed_next ha (machine_inv hn) h
  exact ⟨h.launcher, h.agent, h.counters⟩

/-- Forks succeed with pids from 4000 on, and nobody moves during a call. -/
def pidEnv : Env := ⟨fun w => (4000 + w.trace.length % 1000 : ℕ), fun _ => [], fun _ => 0⟩

theorem pidEnv_ranged : ranged.env pidEnv := by
  refine ⟨?_, ?_⟩
  · intro w _
    have hlt : w.trace.length % 1000 < 1000 := Nat.mod_lt _ (by decide)
    show -(256 ^ 4 : ℕ) ≤ ((4000 + w.trace.length % 1000 : ℕ) : Int) * 2 ∧
      ((4000 + w.trace.length % 1000 : ℕ) : Int) * 2 < (256 ^ 4 : ℕ)
    omega
  · intro w e he
    obtain ⟨v, hv⟩ := he.mem
    cases hv

/-- The agent starts, the launcher starts, OVS registers a thread, the
launcher serves it, and its runtime stores one byte. -/
def sharedActs : List MachineAct := [.agent (.start (some Agent.later.contents) Agent.tcpMem.contents), .initTable,
  .launcher (.start pidEnv 1), .launcher (.env (.ovsWrite 0 7)), .launcher .beginScan, .launcher (.test pidEnv 1),
  .runtime 0 3 9]

theorem machine_composed_demo : ∃ s, (machine Agent.clear Agent.zeros).run (machine Agent.clear Agent.zeros).init sharedActs =
      some s ∧ s.launcher.any (fun c => 0 < (c.world.sessionTable 0).p4runtimeId) = true ∧
    (∀ c, s.launcher = some c → ranged.Reachable c ∧ Shows c.world s.memory) ∧
    (Agent.agent Agent.clear Agent.zeros).Reachable (fun _ a => a.Apart) s.agent ∧
    ∀ i : Slot, s.memory.load (packetCountAddr i) 40 = s.counters i := by
  have hend : ∃ s, (machine Agent.clear Agent.zeros).run (machine Agent.clear Agent.zeros).init sharedActs = some s ∧
      s.launcher.any (fun c => 0 < (c.world.sessionTable 0).p4runtimeId) = true := Lts.run_any (by decide +kernel)
  obtain ⟨s, hs, hlinked⟩ := hend
  have hok : ∀ t : Machine, ∀ a ∈ sharedActs, a.ok t := by
    intro t a ha
    simp only [sharedActs, List.mem_cons, List.not_mem_nil, or_false] at ha
    rcases ha with rfl | rfl | rfl | rfl | rfl | rfl | rfl
    · trivial
    · trivial
    · exact fun _ _ => pidEnv_ranged
    · intro c _
      show LittleEndian.InRange 8 7
      decide
    · exact fun _ _ => trivial
    · exact fun _ _ => pidEnv_ranged
    · trivial
  exact ⟨s, hs, hlinked, machine_composed (Lts.run_reachable hok .init hs)⟩

end P4Ubpf
