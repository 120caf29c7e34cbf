import P4Ubpf.Slots

/-!
# The launcher's memory and the kernel around it

The state of `p4l_server` (the shared session table, the runtimes table and
its counter), the kernel's record of the launcher's children, and what other
parties can do to either at any time: OVS stores a thread id, a child exits,
the SIGCHLD handler reaps. `Env` chooses the results of the system calls and
which of these steps fall before each call.
-/

namespace P4Ubpf

def maxConnections : ℕ := 32
def initClients : Int := 1
def bufferSize : ℕ := 256

abbrev Slot := Fin maxConnections

instance : NeZero maxConnections := ⟨by decide⟩

/-- A slot of the shared `session_table`, without the encrypted counter,
which the launcher never touches. -/
structure Connection where
  ovsThreadId : Int
  p4runtimeId : Int
deriving DecidableEq

structure P4runtime where
  pid : Int
  inUse : Bool
deriving DecidableEq

def P4runtime.empty : P4runtime := ⟨-1, false⟩

def P4runtime.setInUse (b : Bool) (r : P4runtime) : P4runtime := { r with inUse := b }

@[simp] theorem P4runtime.setInUse_pid (b : Bool) (r : P4runtime) : (r.setInUse b).pid = r.pid := rfl
@[simp] theorem P4runtime.setInUse_inUse (b : Bool) (r : P4runtime) : (r.setInUse b).inUse = b := rfl

/-- A child the launcher has forked and nobody has waited for. -/
structure Child where
  pid : Int
  /-- `terminate_child` has sent it SIGTERM -/
  signalled : Bool
  /-- it has exited and is a zombie -/
  exited : Bool
deriving DecidableEq

inductive Reply
  | alreadyRunning
  | adjusted (num : Int)
  | stopped
  | childCount (runtimes : Int)
  | childPid (pid : Int)
  | shuttingDown
  | shutdownResult (ret : Int)
  | unknownCommand
deriving DecidableEq

def Reply.text : Reply → String
  | .alreadyRunning => "すでに起動しています\n"
  | .adjusted num => "子プロセス数を " ++ toString num ++ " 個に調整しました\n"
  | .stopped => "子プロセスをすべて停止しました\n"
  | .childCount runtimes => "子プロセス数: " ++ toString runtimes ++ "\n"
  | .childPid pid => "  PID: " ++ toString pid ++ "\n"
  | .shuttingDown => "P4Launcherとすべての子プロセスを終了します\n"
  | .shutdownResult ret => toString ret
  | .unknownCommand => "不明なコマンド\n"

/-- System calls and log lines, in the order the launcher makes them. The
arguments after the source's own are ghosts: the slot `add_runtime_entry`
wrote, and whether the pid is an unreaped child of the launcher. -/
inductive Event
  | fork (result : Int)
  | kill (pid : Int) (own : Bool)
  | waitpid (pid : Int)
  | pkill
  | forkFailure
  | startedChild (pid : Int) (slot : Option Slot)
  | foundNew (ovsThreadId : Int) (idx : Slot)
  | foundLost (p4runtimeId : Int) (idx : Slot)
  | sessionCreated (ovsThreadId p4runtimeId : Int) (idx : Slot) (own : Bool)
  | noFreeRuntime
  | command (buffer : List UInt8)
  | reply (r : Reply)
deriving DecidableEq

structure World where
  sessionTable : Slot → Connection
  runtimesTable : Slot → P4runtime
  runtimes : Int
  children : List Child
  /-- newest first -/
  trace : List Event

inductive EnvStep
  | ovsWrite (idx : Slot) (ovsThreadId : Int)
  /-- a child exits on the SIGTERM that `terminate_child` sent it -/
  | obey (pid : Int)
  /-- a child exits for any other reason: a crash, a failed `execl`, another
  process's signal -/
  | crash (pid : Int)
  | sigchld
deriving DecidableEq

/-- `shm_initialize_table` and `init_runtimes_table`. -/
def World.init : World where
  sessionTable := fun _ => ⟨-1, -1⟩
  runtimesTable := fun _ => .empty
  runtimes := 0
  children := []
  trace := []

namespace World

def log (e : Event) (w : World) : World := { w with trace := e :: w.trace }

def unreaped (w : World) (pid : Int) : Bool := w.children.any fun c => c.pid = pid

def setOvsThreadId (idx : Slot) (t : Int) (w : World) : World :=
  { w with sessionTable := Function.update w.sessionTable idx { w.sessionTable idx with ovsThreadId := t } }

def setP4runtimeId (idx : Slot) (pid : Int) (w : World) : World :=
  { w with sessionTable := Function.update w.sessionTable idx { w.sessionTable idx with p4runtimeId := pid } }

def setRuntime (i : Slot) (r : P4runtime) (w : World) : World :=
  { w with runtimesTable := Function.update w.runtimesTable i r }

def setRuntimes (n : Int) (w : World) : World := { w with runtimes := n }

def childExits (p : Child → Bool) (w : World) : World :=
  { w with children := w.children.map fun c => if p c then { c with exited := true } else c }

/-- `while (waitpid(-1, NULL, WNOHANG) > 0) {}` reaps every zombie. -/
def sigchldHandler (w : World) : World :=
  { w with children := w.children.filter fun c => !c.exited }

def env (w : World) : EnvStep → World
  | .ovsWrite idx t => w.setOvsThreadId idx t
  | .obey pid => w.childExits fun c => c.pid = pid && c.signalled
  | .crash pid => w.childExits fun c => c.pid = pid
  | .sigchld => w.sigchldHandler

end World

/-- The kernel and the other parties. The choices may depend on the whole
state; the trace in it differs at every call, so any sequence of results and
any interleaving comes from some `Env`. -/
structure Env where
  fork : World → Int
  /-- what happens just before the launcher's next call or while it waits -/
  interfere : World → List EnvStep
  system : World → Int

namespace World

def yield (E : Env) (w : World) : World := (E.interfere w).foldl env w

def kill (pid : Int) (w : World) : World :=
  log (.kill pid (w.unreaped pid))
    { w with children := w.children.map fun c => if c.pid = pid then { c with signalled := true } else c }

/-- `waitpid(pid, NULL, 0)` when it has returned: `pid` has exited and is
reaped, by it or already by the handler. The call may block for good, and then
the launcher's run ends here. -/
def waitpid (pid : Int) (w : World) : World :=
  log (.waitpid pid) { w with children := w.children.filter fun c => c.pid ≠ pid }

end World

end P4Ubpf
