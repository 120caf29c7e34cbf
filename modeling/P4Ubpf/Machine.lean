import P4Ubpf.AgentMain
import P4Ubpf.Seen

/-!
# Both programs on one memory

The launcher's session table lies in the device that the agent maps. Listed
here is what an action of the launcher makes be stored there, by itself or by
OVS during its calls, byte by byte and in order. The machine runs the launcher,
the agent and the P4 runtimes on the bytes they share. The stores of one action
of the launcher are one step of the machine: neither the agent nor the runtimes
touch these bytes.
-/

namespace P4Ubpf

abbrev Stores := List (ℕ × UInt8)

/-! ## What the launcher and OVS store -/

def EnvStep.stores : EnvStep → Stores
  | .ovsWrite idx t => Memory.cells (connectionAddr idx) (LittleEndian.ofInt 8 t)
  | _ => []

def seenStores (s : Seen) : Stores := s.flatMap fun m => m.2.stores

def runtimeIdStores (idx : Slot) (pid : Int) : Stores :=
  Memory.cells (p4runtimeIdAddr idx) (LittleEndian.ofInt 4 pid)

def initSlotStores (i : Slot) : Stores :=
  Memory.cells (connectionAddr i) (LittleEndian.ofInt 8 (-1)) ++ runtimeIdStores i (-1)

/-- `shm_initialize_table`. -/
def initStores : Stores := (Slots.all maxConnections).flatMap initSlotStores ++ [(tableLockedAddr, 0)]

def linkAddStores (E : Env) (fuel : ℕ) (idx : Slot) (w : World) : Stores :=
  match adjustChildren E fuel (w.runtimes + 1) w with
  | none => []
  | some v => seenStores (adjustSeen E fuel (w.runtimes + 1) w) ++ seenStores (v.seen E) ++
    match findFreeRuntimeIndex (v.yield E) with
    | some j => runtimeIdStores idx ((v.yield E).runtimesTable j).pid
    | none => []

def linkDelStores (E : Env) (fuel : ℕ) (idx : Slot) (w : World) : Stores :=
  runtimeIdStores idx (-1) ++ seenStores (adjustSeen E fuel (w.runtimes - 1) (unlink idx w))

def checkNewStores (E : Env) (fuel : ℕ) (i : Slot) (w : World) : Stores :=
  if 0 < (w.sessionTable i).ovsThreadId ∧ (w.sessionTable i).p4runtimeId < 0 then
    linkAddStores E fuel i (w.log (.foundNew (w.sessionTable i).ovsThreadId i))
  else []

def checkLostStores (E : Env) (fuel : ℕ) (i : Slot) (w : World) : Stores :=
  if (w.sessionTable i).ovsThreadId < 0 ∧ 0 < (w.sessionTable i).p4runtimeId then
    linkDelStores E fuel i (w.log (.foundLost (w.sessionTable i).p4runtimeId i))
  else []

def stores : Config → Act → Stores
  | ⟨.boot, w⟩, .start E fuel => seenStores (startSeen E fuel initClients w)
  | _, .env e => e.stores
  | ⟨.new i, w⟩, .test E fuel => checkNewStores E fuel i w
  | ⟨.lost i, w⟩, .test E fuel => checkLostStores E fuel i w
  | ⟨.top, w⟩, .client E fuel msg => seenStores (handleClientSeen E fuel msg w)
  | _, _ => []

/-! ## The machine -/

/-- Entry `i` of the session table as the launcher reads it from memory. -/
def loadConnection (m : Memory UInt8) (i : Slot) : Connection :=
  ⟨LittleEndian.toInt (m.load (connectionAddr i) 8), LittleEndian.toInt (m.load (p4runtimeIdAddr i) 4)⟩

def Shows (w : World) (m : Memory UInt8) : Prop := ∀ i, loadConnection m i = w.sessionTable i

structure Machine where
  /-- `none` until the launcher has set up the table -/
  launcher : Option Config
  /-- its memory is the shared one -/
  agent : Agent.Config
  /-- ghost: what the P4 runtimes have stored -/
  counters : Slot → List UInt8

inductive MachineAct
  /-- `shm_initialize_table` and `init_runtimes_table` -/
  | initTable
  | launcher (a : Act)
  | agent (a : Agent.Act)
  /-- a P4 runtime stores a byte of its sealed counter -/
  | runtime (idx : Slot) (k : ℕ) (b : UInt8)

def Agent.Config.write (ps : Stores) (g : Agent.Config) : Agent.Config :=
  ⟨g.phase, { g.process with memory := g.process.memory.write ps }⟩

def Machine.memory (s : Machine) : Memory UInt8 := s.agent.process.memory

def Machine.next (P : Agent.Platform) : Machine → MachineAct → Option Machine
  | ⟨none, g, cs⟩, .initTable => some ⟨some P4Ubpf.launcher.init, g.write initStores, cs⟩
  | ⟨some c, g, cs⟩, .launcher a => (P4Ubpf.next c a).map (⟨some ·, g.write (stores c a), cs⟩)
  | ⟨_, _, _⟩, .agent (.other _ _) => none
  | ⟨l, g, cs⟩, .agent a => (Agent.next P g a).map (⟨l, ·, cs⟩)
  | ⟨l, g, cs⟩, .runtime idx k b =>
    if k < 40 then
      some ⟨l, g.write [(packetCountAddr idx + k, b)], Function.update cs idx ((cs idx).set k b)⟩
    else none
  | _, _ => none

def machine (P : Agent.Platform) (m : Memory UInt8) : Lts Machine MachineAct where
  init := ⟨none, (Agent.agent P m).init, fun i => m.load (packetCountAddr i) 40⟩
  next := Machine.next P

def EnvStep.Fits : EnvStep → Prop
  | .ovsWrite _ t => LittleEndian.InRange 8 t
  | _ => True

/-- What the types of the C program allow: a pid is an `int`. -/
def ranged : Assumption where
  env := fun E => (∀ w, 0 < E.fork w → LittleEndian.InRange 4 (E.fork w)) ∧ ∀ w e, E.Takes w e → e.Fits
  step := fun _ e => e.Fits

def MachineAct.ok (s : Machine) : MachineAct → Prop
  | .launcher a => ∀ c, s.launcher = some c → ranged.ok c a
  | _ => True

end P4Ubpf
