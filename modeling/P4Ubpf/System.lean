import P4Ubpf.CText
import P4Ubpf.Lts
import P4Ubpf.Pool

/-!
# The launcher as a transition system

`p4l_server.c`, `handle_start_command` to `handle_client`, and `main`: the
initialisation, then scans and client commands in any order. A message is the
bytes the client has sent; the handler reads one buffer of them and compares
prefixes in a fixed order. A scan is one action for each of the two tests of
each slot, so that the steps of OVS and the kernel may fall between any two
tests. `Assumption` names what a result takes for granted about the environment
and the operator.
-/

namespace P4Ubpf

/-! ## Client commands -/

inductive Command
  | start
  | update (arg : List UInt8)
  | stop
  | status
  | shutdown
  | unknown
deriving DecidableEq

def parseCommand (buffer : List UInt8) : Command :=
  if strncmpEq buffer "start " then .start
  else if strncmpEq buffer "update " then .update (buffer.drop 7)
  else if strncmpEq buffer "stop" then .stop
  else if strncmpEq buffer "status" then .status
  else if strncmpEq buffer "shutdown" then .shutdown
  else .unknown

/-- A line to a client that is still there: to one that has closed its socket it
raises SIGPIPE, and the launcher's run ends here. -/
def dprintf (r : Reply) (w : World) : World := w.log (.reply r)

def handleStartCommand (w : World) : World := dprintf .alreadyRunning w

def handleUpdateCommand (E : Env) (fuel : ℕ) (arg : List UInt8) (w : World) : Option World := do
  let num := atoi arg
  let w ← adjustChildren E fuel num w
  some (dprintf (.adjusted num) w)

def handleStopCommand (E : Env) (w : World) : World := dprintf .stopped (stopAllChildren E w)

def statusLoop : List Slot → Int → World → World
  | [], _, w => w
  | i :: is, reported, w =>
    if reported < w.runtimes then
      if 0 < (w.runtimesTable i).pid then
        statusLoop is (reported + 1) (dprintf (.childPid (w.runtimesTable i).pid) w)
      else statusLoop is reported w
    else w

def handleStatusCommand (w : World) : World :=
  statusLoop (Slots.all _) 0 (dprintf (.childCount w.runtimes) w)

/-- `pkill` signals every process of the runtimes' name, so the children may
exit in the same way as on a crash; the tables are left as they are. -/
def handleShutdownCommand (E : Env) (w : World) : World :=
  let w := ((dprintf .shuttingDown w).log .pkill).yield E
  dprintf (.shutdownResult (E.system w)) w

def handleCommand (E : Env) (fuel : ℕ) (c : Command) (w : World) : Option World :=
  match c with
  | .start => some (handleStartCommand w)
  | .update arg => handleUpdateCommand E fuel arg w
  | .stop => some (handleStopCommand E w)
  | .status => some (handleStatusCommand w)
  | .shutdown => some (handleShutdownCommand E w)
  | .unknown => some (dprintf .unknownCommand w)

/-- What one `read` of `sizeof(buffer) - 1` bytes delivers. -/
def readBuffer (msg : List UInt8) : List UInt8 := msg.take (bufferSize - 1)

def handleClient (E : Env) (fuel : ℕ) (msg : List UInt8) (w : World) : Option World :=
  let buffer := readBuffer msg
  if buffer = [] then some w
  else handleCommand E fuel (parseCommand buffer) (w.log (.command (buffer.takeWhile (· ≠ 0))))

/-! ## The loop of `main` -/

inductive Phase
  | boot
  | top
  /-- in the scan, before the first test of slot `i` -/
  | new (i : Slot)
  /-- in the scan, before the second test of slot `i` -/
  | lost (i : Slot)
deriving DecidableEq

def Phase.after (i : Slot) : Phase :=
  if h : i.val + 1 < maxConnections then .new ⟨i.val + 1, h⟩ else .top

structure Config where
  phase : Phase
  world : World

inductive Act
  /-- `start_children(INIT_CLIENTS)` -/
  | start (E : Env) (fuel : ℕ)
  | env (e : EnvStep)
  | beginScan
  | test (E : Env) (fuel : ℕ)
  | client (E : Env) (fuel : ℕ) (msg : List UInt8)

/-- One action; `none` where it is not the launcher's next one, or does not
return within its `fork` calls. -/
def next : Config → Act → Option Config
  | ⟨.boot, w⟩, .start E fuel => (startChildren E fuel initClients w).map (⟨.top, ·⟩)
  | ⟨ph, w⟩, .env e => some ⟨ph, w.env e⟩
  | ⟨.top, w⟩, .beginScan => some ⟨.new 0, w⟩
  | ⟨.new i, w⟩, .test E fuel => (checkNew E fuel i w).map (⟨.lost i, ·⟩)
  | ⟨.lost i, w⟩, .test E fuel => (checkLost E fuel i w).map (⟨.after i, ·⟩)
  | ⟨.top, w⟩, .client E fuel msg => (handleClient E fuel msg w).map (⟨.top, ·⟩)
  | _, _ => none

def launcher : Lts Config Act := ⟨⟨.boot, .init⟩, next⟩

/-- What a result assumes of every run: the environments that serve the
launcher's calls, the steps other parties take between its actions and the
states they take them in, and the states in which a `stop` command is
handled. -/
structure Assumption where
  env : Env → Prop := fun _ => True
  step : World → EnvStep → Prop := fun _ _ => True
  stop : World → Prop := fun _ => True

def Assumption.ok (A : Assumption) (c : Config) : Act → Prop
  | .start E _ => A.env E
  | .env e => A.step c.world e
  | .beginScan => True
  | .test E _ => A.env E
  | .client E _ msg => A.env E ∧ (parseCommand (readBuffer msg) = .stop → A.stop c.world)

abbrev Assumption.Reachable (A : Assumption) (c : Config) : Prop := launcher.Reachable A.ok c

end P4Ubpf
