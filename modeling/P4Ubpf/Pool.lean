import P4Ubpf.World

/-!
# The pool of runtimes and its sessions

`p4l_server.c`, `add_runtime_entry` to `check_ovs_sessions`. The loop of
`start_children` has no bound in the source; here it is given a number of
`fork` calls it may make and is `none` while it has not ended within them. The
two tests of the scan's loop body are separate definitions, because OVS may
write between them.
-/

namespace P4Ubpf

namespace P4runtime

def Present (r : P4runtime) : Prop := 0 < r.pid

/-- The entry holds a runtime that serves no session. -/
def Idle (r : P4runtime) : Prop := 0 < r.pid ∧ r.inUse = false

instance : DecidablePred Present := fun r => inferInstanceAs (Decidable (0 < r.pid))
instance : DecidablePred Idle := fun r => inferInstanceAs (Decidable (0 < r.pid ∧ r.inUse = false))

end P4runtime

open P4runtime

/-- The slot `add_runtime_entry` writes; `none` when its loop runs off the end. -/
def unusedIndex (w : World) : Option Slot := Slots.first? (fun r : P4runtime => r.pid = -1) w.runtimesTable

def addRuntimeEntry (pid : Int) (w : World) : World :=
  match unusedIndex w with
  | some i => w.setRuntime i ⟨pid, false⟩
  | none => w

def afterFork (pid : Int) (w : World) : World :=
  if pid < 0 then w.log .forkFailure
  else if pid = 0 then w -- the child's side: `execl` or `_exit`, never the launcher
  else
    { addRuntimeEntry pid w with
      runtimes := w.runtimes + 1
      children := ⟨pid, false, false⟩ :: w.children
      trace := .startedChild pid (unusedIndex w) :: w.trace }

def spawnRuntimeProcess (E : Env) (w : World) : World :=
  let w := w.yield E
  let pid := E.fork w
  afterFork pid (w.log (.fork pid))

/-- `while (runtimes < num) spawn_runtime_process();` within `fuel` forks. -/
def spawnLoop (E : Env) (num : Int) : ℕ → World → Option World
  | 0, w => if w.runtimes < num then none else some w
  | fuel + 1, w => if w.runtimes < num then spawnLoop E num fuel (spawnRuntimeProcess E w) else some w

def startChildren (E : Env) (fuel : ℕ) (num : Int) (w : World) : Option World :=
  spawnLoop E (if maxConnections < num then maxConnections else num) fuel w

def terminateChild (E : Env) (pid : Int) (w : World) : World :=
  if 0 < pid then (((w.yield E).kill pid).yield E).waitpid pid else w

def dropEntry (E : Env) (i : Slot) (w : World) : World :=
  (terminateChild E (w.runtimesTable i).pid w).setRuntime i .empty

def stopLoop (E : Env) : List Slot → World → World
  | [], w => w
  | i :: is, w => stopLoop E is (if 0 < (w.runtimesTable i).pid then dropEntry E i w else w)

def stopAllChildren (E : Env) (w : World) : World := (stopLoop E (Slots.all _) w).setRuntimes 0

/-- One turn of the shrinking loop that finds an idle runtime. -/
def retire (E : Env) (i : Slot) (w : World) : World := (dropEntry E i w).setRuntimes (w.runtimes - 1)

def shrinkLoop (E : Env) (target : Int) : List Slot → World → World
  | [], w => w
  | i :: is, w =>
    if target < w.runtimes then
      shrinkLoop E target is (if (w.runtimesTable i).Idle then retire E i w else w)
    else w

def adjustChildren (E : Env) (fuel : ℕ) (target : Int) (w : World) : Option World :=
  if target = w.runtimes then some w
  else
    let target := if maxConnections < target then (maxConnections : Int) else target
    if w.runtimes < target then startChildren E fuel target w
    else some (shrinkLoop E target (Slots.all _) w)

def findFreeRuntimeIndex (w : World) : Option Slot := Slots.first? Idle w.runtimesTable

/-! ## Sessions -/

/-- Hands the runtime of entry `j` to session `idx`. -/
def link (j idx : Slot) (w : World) : World :=
  let pid := (w.runtimesTable j).pid
  ((w.setRuntime j ((w.runtimesTable j).setInUse true)).setP4runtimeId idx pid).log
    (.sessionCreated (w.sessionTable idx).ovsThreadId pid idx (w.unreaped pid))

def linkAdd (E : Env) (fuel : ℕ) (idx : Slot) (w : World) : Option World := do
  let w ← adjustChildren E fuel (w.runtimes + 1) w
  let w := w.yield E -- `usleep(1000)`
  match findFreeRuntimeIndex w with
  | some j => some (link j idx w)
  | none => some (w.log .noFreeRuntime)

/-- Takes session `idx` off its runtime: the first entry with its pid. -/
def unlink (idx : Slot) (w : World) : World :=
  let pid := (w.sessionTable idx).p4runtimeId
  (match Slots.first? (fun r : P4runtime => r.pid = pid) w.runtimesTable with
    | some i => w.setRuntime i ((w.runtimesTable i).setInUse false)
    | none => w).setP4runtimeId idx (-1)

def linkDel (E : Env) (fuel : ℕ) (idx : Slot) (w : World) : Option World :=
  adjustChildren E fuel (w.runtimes - 1) (unlink idx w)

def checkNew (E : Env) (fuel : ℕ) (i : Slot) (w : World) : Option World :=
  if 0 < (w.sessionTable i).ovsThreadId ∧ (w.sessionTable i).p4runtimeId < 0 then
    linkAdd E fuel i (w.log (.foundNew (w.sessionTable i).ovsThreadId i))
  else some w

def checkLost (E : Env) (fuel : ℕ) (i : Slot) (w : World) : Option World :=
  if (w.sessionTable i).ovsThreadId < 0 ∧ 0 < (w.sessionTable i).p4runtimeId then
    linkDel E fuel i (w.log (.foundLost (w.sessionTable i).p4runtimeId i))
  else some w

def checkSlots (E : Env) (fuel : ℕ) : List Slot → World → Option World
  | [], w => some w
  | i :: is, w => do
    let w ← checkNew E fuel i (w.yield E)
    let w ← checkLost E fuel i (w.yield E)
    checkSlots E fuel is w

def checkOvsSessions (E : Env) (fuel : ℕ) (w : World) : Option World :=
  checkSlots E fuel (Slots.all _) w

end P4Ubpf
