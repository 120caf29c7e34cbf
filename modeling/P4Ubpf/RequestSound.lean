import P4Ubpf.CommandSound
import P4Ubpf.Decimal
import P4Ubpf.Sender
import P4Ubpf.TraceSound
import P4Ubpf.TaskSound

/-!
# From the command line to the pool

What a user asks for goes through `p4l_client` as text, and through
`handle_client` back into numbers. What the launcher does is what was asked.
-/

namespace P4Ubpf

open P4runtime

/-! ## Requests -/

inductive Request
  | start (num : Int)
  | update (num : Int)
  | stop
  | status
  | shutdown

namespace Request

/-- A number of the command line is an `int`. -/
def InRange : Request → Prop
  | .start num => -2 ^ 31 ≤ num ∧ num < 2 ^ 31
  | .update num => -2 ^ 31 ≤ num ∧ num < 2 ^ 31
  | _ => True

theorem decimalInt_byte {z : Int} {b : UInt8} (hb : b ∈ decimalInt z) : b = 45 ∨ isdigit b = true := by
  unfold decimalInt at hb
  split at hb
  · exact (List.mem_cons.mp hb).imp id fun h => decimal_isdigit _ b h
  · exact .inr (decimal_isdigit _ b hb)

theorem decimalInt_terminated (z : Int) : 0 ∉ decimalInt z := fun h => by
  rcases decimalInt_byte h with h | h
  · exact absurd h (by decide)
  · exact absurd h (by decide)

def startWord : CString := ⟨bytes "start", by decide⟩
def updateWord : CString := ⟨bytes "update", by decide⟩
def stopWord : CString := ⟨bytes "stop", by decide⟩
def statusWord : CString := ⟨bytes "status", by decide⟩
def shutdownWord : CString := ⟨bytes "shutdown", by decide⟩
def number (num : Int) : CString := ⟨decimalInt num, decimalInt_terminated num⟩

def argv : Request → List CString
  | .start num => [startWord, number num]
  | .update num => [updateWord, number num]
  | .stop => [stopWord]
  | .status => [statusWord]
  | .shutdown => [shutdownWord]

def text (r : Request) : List UInt8 := Sender.join r.argv

def command : Request → Command
  | .start _ => .start
  | .update num => .update (decimalInt num)
  | .stop => .stop
  | .status => .status
  | .shutdown => .shutdown

/-! ## The way there -/

section
variable {E : Env} {fuel : ℕ} {w w' : World} {msg : List UInt8}

end

end Request

end P4Ubpf
