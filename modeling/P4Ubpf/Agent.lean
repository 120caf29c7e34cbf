import P4Ubpf.Lts
import P4Ubpf.Slots

/-!
# The agent's bypass detector

`p4agent.c`, `decrypt_counter` and `check_p4_execution`. AES-GCM is
wolfSSL's, so `wc_AesGcmDecrypt` under the agent's key is a parameter. The
number of packets the VM has counted is an input: it is what `get_nic_stat`
left in `passed_packets`.
-/

namespace P4Ubpf.Agent

def maxConnections : ℕ := 32
def window : ℕ := 5
def threshold : ℕ := 3

instance : NeZero maxConnections := ⟨Nat.succ_ne_zero 31⟩
instance : NeZero window := ⟨Nat.succ_ne_zero 4⟩

structure PacketCount where
  iv : Vector UInt8 16
  cipherText : Vector UInt8 8
  authTag : Vector UInt8 16
deriving DecidableEq

/-- `wc_AesGcmDecrypt` of a ciphertext, an IV, a tag and additional data: the
return code and the plaintext. -/
abbrev AesGcmDecrypt :=
  Vector UInt8 8 → Vector UInt8 16 → Vector UInt8 16 → List UInt8 → Int × Vector UInt8 8

/-- The plaintext bytes as the agent reads its `long long` from them, and as
the bits that are added to `executions`. -/
def counterBits (plaintext : Vector UInt8 8) : UInt64 :=
  plaintext.toList.foldr (fun b n => b.toUInt64 + 256 * n) 0

def decryptCounter (decrypt : AesGcmDecrypt) (c : PacketCount) : Int × UInt64 :=
  let (ret, plaintext) := decrypt c.cipherText c.iv c.authTag []
  (ret, counterBits plaintext)

abbrev Table := Fin maxConnections → PacketCount

def addCounter (decrypt : AesGcmDecrypt) (executions : UInt64) (c : PacketCount) : UInt64 :=
  if (decryptCounter decrypt c).1 = 0 then executions + (decryptCounter decrypt c).2 else executions

def sumExecutions (decrypt : AesGcmDecrypt) (session : Table) : UInt64 :=
  (Slots.all maxConnections).foldl (fun executions i => addCounter decrypt executions (session i)) 0

structure Detector where
  prevExec : UInt64
  prevPass : UInt64
  history : Fin window → ℕ
  idx : Fin window
  filled : ℕ

def Detector.init : Detector := ⟨0, 0, fun _ => 0, 0, 0⟩

structure Record where
  p4Delta : UInt64
  vmDelta : UInt64
  detected : ℕ
  count : ℕ
  filled : ℕ
  warned : Bool
deriving DecidableEq

inductive Outcome
  /-- the first return: the sample is the baseline -/
  | baseline
  /-- the second return: the executions fell -/
  | resync
  | recorded (r : Record)
deriving DecidableEq

def Detector.follow (executions passed : UInt64) (d : Detector) : Detector :=
  { d with prevExec := executions, prevPass := passed }

/-- `for (i = 0; i < filled; i++) count += history[i];` -/
def sumHistory (history : Fin window → ℕ) (filled : ℕ) : ℕ :=
  ((Slots.all window).take filled).foldl (fun count i => count + history i) 0

/-- The body of `check_p4_execution` after the early returns. -/
def record (executions passed : UInt64) (d : Detector) : Record × Detector :=
  let p4Delta := executions - d.prevExec
  let vmDelta := passed - d.prevPass
  let detected := if p4Delta < vmDelta then 1 else 0
  let history := Function.update d.history d.idx detected
  let idx := d.idx + 1
  let filled := if d.filled < window then d.filled + 1 else d.filled
  let count := sumHistory history filled
  if filled = window ∧ threshold ≤ count then
    (⟨p4Delta, vmDelta, detected, count, filled, true⟩, ⟨executions, passed, fun _ => 0, idx, 0⟩)
  else (⟨p4Delta, vmDelta, detected, count, filled, false⟩, ⟨executions, passed, history, idx, filled⟩)

/-- `check_p4_execution` once the executions are summed up. -/
def compare (executions passed : UInt64) (d : Detector) : Outcome × Detector :=
  if d.prevExec = 0 ∧ d.prevPass = 0 then (.baseline, d.follow executions passed)
  else if executions < d.prevExec then (.resync, d.follow executions passed)
  else
    let (r, d) := record executions passed d
    (.recorded r, d)

def checkP4Execution (decrypt : AesGcmDecrypt) (session : Table) (passed : UInt64) (d : Detector) :
    Outcome × Detector :=
  compare (sumExecutions decrypt session) passed d

def Outcome.warned : Outcome → Bool
  | .recorded r => r.warned
  | _ => false

theorem compare_cases (executions passed : UInt64) (d : Detector) :
    (d.prevExec = 0 ∧ d.prevPass = 0 ∧ compare executions passed d = (.baseline, d.follow executions passed)) ∨
    (¬ (d.prevExec = 0 ∧ d.prevPass = 0) ∧ executions < d.prevExec ∧
      compare executions passed d = (.resync, d.follow executions passed)) ∨
    (¬ (d.prevExec = 0 ∧ d.prevPass = 0) ∧ ¬ executions < d.prevExec ∧
      compare executions passed d = (.recorded (record executions passed d).1, (record executions passed d).2)) := by
  unfold compare
  by_cases hbase : d.prevExec = 0 ∧ d.prevPass = 0
  · rw [if_pos hbase]; exact .inl ⟨hbase.1, hbase.2, rfl⟩
  by_cases hfall : executions < d.prevExec
  · rw [if_neg hbase, if_pos hfall]; exact .inr (.inl ⟨hbase, hfall, rfl⟩)
  · rw [if_neg hbase, if_neg hfall]; exact .inr (.inr ⟨hbase, hfall, rfl⟩)

theorem compare_recorded {d d' : Detector} {executions passed : UInt64} {r : Record}
    (h : compare executions passed d = (.recorded r, d')) : r = (record executions passed d).1 := by
  rcases compare_cases executions passed d with ⟨_, _, hc⟩ | ⟨_, _, hc⟩ | ⟨_, _, hc⟩
  · rw [h] at hc; cases hc
  · rw [h] at hc; cases hc
  · rw [h] at hc
    exact Outcome.recorded.inj (Prod.mk.inj hc).1

theorem record_deltas (executions passed : UInt64) (d : Detector) :
    (record executions passed d).1.p4Delta = executions - d.prevExec ∧
      (record executions passed d).1.vmDelta = passed - d.prevPass := by
  simp only [record, apply_ite Prod.fst, apply_ite Record.p4Delta, apply_ite Record.vmDelta, ite_self, and_self]

theorem record_prev (executions passed : UInt64) (d : Detector) :
    (record executions passed d).2.prevExec = executions ∧ (record executions passed d).2.prevPass = passed := by
  simp only [record, apply_ite Prod.snd, apply_ite Detector.prevExec, apply_ite Detector.prevPass, ite_self, and_self]

theorem record_entry (executions passed : UInt64) (d : Detector) :
    (record executions passed d).1.detected =
      (if executions - d.prevExec < passed - d.prevPass then 1 else 0) ∧
    (record executions passed d).1.count =
      sumHistory (Function.update d.history d.idx (record executions passed d).1.detected)
        (record executions passed d).1.filled ∧
    (record executions passed d).2.idx = d.idx + 1 := by
  simp only [record, apply_ite Prod.fst, apply_ite Prod.snd, apply_ite Record.detected, apply_ite Record.count,
    apply_ite Record.filled, apply_ite Detector.idx, ite_self, and_self]

/-! ## Call after call -/

/-- The detector and the outcomes of its calls, newest first. -/
structure Monitor where
  detector : Detector
  outcomes : List Outcome

def Monitor.call (m : Monitor) (executions passed : UInt64) : Monitor :=
  let (o, d) := compare executions passed m.detector
  ⟨d, o :: m.outcomes⟩

@[simp] theorem call_detector (m : Monitor) (executions passed : UInt64) :
    (m.call executions passed).detector = (compare executions passed m.detector).2 := rfl

@[simp] theorem call_outcomes (m : Monitor) (executions passed : UInt64) :
    (m.call executions passed).outcomes = (compare executions passed m.detector).1 :: m.outcomes := rfl

def monitor : Lts Monitor (UInt64 × UInt64) := ⟨⟨.init, []⟩, fun m s => some (m.call s.1 s.2)⟩

abbrev Monitor.Reachable (m : Monitor) : Prop := Lts.Reachable monitor (fun _ _ => True) m

/-- What holds of a fresh monitor and is kept by every call holds after every sequence of calls. -/
theorem Monitor.Reachable.call_inv {I : Monitor → Prop} {m : Monitor} (hr : m.Reachable) (h0 : I ⟨.init, []⟩)
    (hc : ∀ m executions passed, I m → I (m.call executions passed)) : I m := by
  apply hr.inv
  · exact h0
  · intro m s m' _ h _ hn
    obtain rfl : m.call s.1 s.2 = m' := Option.some.inj hn
    exact hc m s.1 s.2 h

def Monitor.check (decrypt : AesGcmDecrypt) (m : Monitor) (c : Table × UInt64) : Monitor :=
  let (o, d) := checkP4Execution decrypt c.1 c.2 m.detector
  ⟨d, o :: m.outcomes⟩

/-! ## One sealed counter -/

/-- An AES-GCM under which nothing but `c` authenticates; the error is
`AES_GCM_AUTH_E`. -/
def onlyOpens (c : PacketCount) (plaintext : Vector UInt8 8) : AesGcmDecrypt := fun cipherText iv authTag _ =>
  if (⟨iv, cipherText, authTag⟩ : PacketCount) = c then (0, plaintext) else (-180, cipherText)

def sealedCount : PacketCount := ⟨Vector.replicate 16 0, Vector.replicate 8 7, Vector.replicate 16 1⟩

def opens100 : AesGcmDecrypt := onlyOpens sealedCount #v[100, 0, 0, 0, 0, 0, 0, 0]

def junk : PacketCount := ⟨Vector.replicate 16 0, Vector.replicate 8 0, Vector.replicate 16 0⟩

/-- The sealed counter in the first `k` slots. -/
def copies (k : ℕ) : Table := fun i => if i.val < k then sealedCount else junk

end P4Ubpf.Agent
