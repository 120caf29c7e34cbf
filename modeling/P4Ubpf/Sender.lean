import P4Ubpf.System

/-!
# The command line client

`p4l_client.c`. It joins its arguments in a buffer of the server's size, with
`snprintf` and `strncat` bounded by what is left of it, and tests the length
once, at the end. Truncation fills the buffer, so the test finds it.
-/

namespace P4Ubpf.Sender

/-- One turn of the loop over `argv[2..]`. -/
def appendArg (command : List UInt8) (arg : CString) : List UInt8 :=
  let command := strncat command [32] (bufferSize - command.length - 1)
  strncat command arg.val (bufferSize - command.length - 1)

def buildCommand (arg : CString) (args : List CString) : List UInt8 :=
  args.foldl appendArg (snprintf bufferSize arg.val)

structure Net where
  socket : Bool
  connect : Bool
  write : List UInt8 → Bool

inductive Outcome
  | usage
  | socketFailed
  | connectFailed
  | tooLong
  | writeFailed (buffer : List UInt8)
  | sent (buffer : List UInt8)
deriving DecidableEq

def Outcome.written : Outcome → Option (List UInt8)
  | .writeFailed buffer | .sent buffer => some buffer
  | _ => none

def Outcome.exitFailure : Outcome → Bool
  | .sent _ => false
  | _ => true

def main (net : Net) : List CString → Outcome
  | [] => .usage
  | arg :: args =>
    if !net.socket then .socketFailed
    else if !net.connect then .connectFailed
    else
      let command := buildCommand arg args
      if bufferSize - 1 ≤ command.length then .tooLong
      else if net.write command then .sent command
      else .writeFailed command

/-! ## The join of the arguments -/

def join (args : List CString) : List UInt8 := [32].intercalate (args.map Subtype.val)

theorem join_cons (arg : CString) (args : List CString) :
    join (arg :: args) = args.foldl (fun command a => command ++ (32 :: a.val)) arg.val := by
  have hfold : ∀ (args : List CString) (pre mid : List UInt8),
      args.foldl (fun command a => command ++ (32 :: a.val)) (pre ++ mid) =
        pre ++ args.foldl (fun command a => command ++ (32 :: a.val)) mid := by
    intro args
    induction args with
    | nil => intro pre mid; rfl
    | cons a args ih => intro pre mid; rw [List.foldl_cons, List.foldl_cons, List.append_assoc, ih]
  induction args generalizing arg with
  | nil => simp [join]
  | cons a args ih =>
    have hcons : join (arg :: a :: args) = (arg.val ++ [32]) ++ join (a :: args) := by
      simp [join, List.intercalate]
    rw [hcons, ih, List.foldl_cons, ← hfold, List.append_assoc]; rfl

theorem join_noTerminator (args : List CString) : 0 ∉ join args := by
  induction args with
  | nil => simp [join]
  | cons arg args ih =>
    cases args with
    | nil => simpa [join] using arg.property
    | cons a args =>
      have hcons : join (arg :: a :: args) = (arg.val ++ [32]) ++ join (a :: args) := by
        simp [join, List.intercalate]
      rw [hcons, List.mem_append, List.mem_append]
      intro hm
      rcases hm with (hm | hm) | hm
      · exact arg.property hm
      · exact absurd hm (by decide)
      · exact ih hm

theorem appendArg_take (l : List UInt8) (arg : CString) :
    appendArg (l.take (bufferSize - 1)) arg = (l ++ (32 :: arg.val)).take (bufferSize - 1) := by
  have hroom : ∀ n : ℕ, bufferSize - n - 1 = bufferSize - 1 - n := fun n => by omega
  simp only [appendArg, hroom, strncat_take, List.append_assoc, List.singleton_append]

theorem buildCommand_eq (arg : CString) (args : List CString) :
    buildCommand arg args = (join (arg :: args)).take (bufferSize - 1) := by
  rw [buildCommand, join_cons, snprintf]
  generalize arg.val = l
  induction args generalizing l with
  | nil => rfl
  | cons a args ih => rw [List.foldl_cons, List.foldl_cons, appendArg_take, ih]

/-- **No command is truncated.** -/
theorem client_sends_whole {net : Net} (hsocket : net.socket = true) (hconnect : net.connect = true) {args : List CString}
    (hargs : args ≠ []) :
    ((join args).length ≤ bufferSize - 2 → (main net args).written = some (join args) ∧
      readBuffer (join args) = join args ∧ cstring (readBuffer (join args)) = join args) ∧
    (bufferSize - 2 < (join args).length → (main net args).written = none ∧ (main net args).exitFailure = true) := by
  cases args with
  | nil => exact absurd rfl hargs
  | cons arg args =>
    have hlen : (buildCommand arg args).length = min (bufferSize - 1) (join (arg :: args)).length := by
      rw [buildCommand_eq, List.length_take]
    have hsize : bufferSize = 256 := rfl
    simp only [main, hsocket, hconnect, Bool.not_true, Bool.false_eq_true, ite_false]
    constructor
    · intro hfit
      have hread : readBuffer (join (arg :: args)) = join (arg :: args) := List.take_of_length_le (by omega)
      have hwhole : buildCommand arg args = join (arg :: args) := by rw [buildCommand_eq]; exact hread
      refine ⟨?_, hread, ?_⟩
      · rw [if_neg (by omega), hwhole]
        split
        · rfl
        · rfl
      · rw [hread]; exact cstring_eq (join_noTerminator _)
    · intro hlong
      rw [if_pos (by omega)]
      exact ⟨rfl, rfl⟩

def updateArgs : List CString := [⟨"update".toUTF8.data.toList, by decide⟩, ⟨"3".toUTF8.data.toList, by decide⟩]

theorem client_sends_whole_demo :
    ((join updateArgs).length ≤ bufferSize - 2 → (main ⟨true, true, fun _ => true⟩ updateArgs).written = some (join updateArgs) ∧
      readBuffer (join updateArgs) = join updateArgs ∧ cstring (readBuffer (join updateArgs)) = join updateArgs) ∧
    (bufferSize - 2 < (join updateArgs).length → (main ⟨true, true, fun _ => true⟩ updateArgs).written = none ∧
      (main ⟨true, true, fun _ => true⟩ updateArgs).exitFailure = true) :=
  client_sends_whole rfl rfl (by decide)

example : (main ⟨true, true, fun _ => true⟩ updateArgs).written = some "update 3".toUTF8.data.toList := by decide

end P4Ubpf.Sender
