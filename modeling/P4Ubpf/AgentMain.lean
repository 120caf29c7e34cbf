import P4Ubpf.Agent
import P4Ubpf.Bytes
import P4Ubpf.Lts
import P4Ubpf.ProcFiles
import P4Ubpf.World

/-!
# The agent as a transition system

`p4agent.c`, `encrypt_message`, `decrypt_counter` and `main`. In the mapped
device the agent's message lies at the beginning, and from `META_AREA` on the
session table, whose entries the compiler pads to 56 bytes, and behind it the
byte `table_locked`. A round publishes the memory in use and checks the packet
counts. Each byte that a `memcpy` stores there or copies from there is an
action of its own, in ascending order, so that the switch, the launcher and the
P4 runtimes may store to the shared memory between any two of them.
-/

namespace P4Ubpf

/-! ## The shared memory -/

def metaArea : ℕ := 2 * 1024 * 1024

/-- `sizeof(Connection)`: a `long long`, an `int`, 40 bytes, and padding. -/
def sizeofConnection : ℕ := 56

def connectionAddr (i : ℕ) : ℕ := metaArea + sizeofConnection * i
def p4runtimeIdAddr (i : ℕ) : ℕ := connectionAddr i + 8
def packetCountAddr (i : ℕ) : ℕ := connectionAddr i + 12
def tableLockedAddr : ℕ := connectionAddr maxConnections

/-- What `encrypt_message` writes: a length, an IV, the buffer of the ciphertext and a tag. -/
def messageSize : ℕ := 4 + 12 + 256 + 16

def loadVector (m : Memory UInt8) (a n : ℕ) : Vector UInt8 n := ⟨(m.load a n).toArray, by simp⟩

@[simp] theorem loadVector_toList (m : Memory UInt8) (a n : ℕ) : (loadVector m a n).toList = m.load a n := by
  simp [loadVector, Vector.toList]

def Agent.PacketCount.bytes (c : Agent.PacketCount) : List UInt8 := c.iv.toList ++ c.cipherText.toList ++ c.authTag.toList

def loadPacketCount (m : Memory UInt8) (ptr : ℕ) : Agent.PacketCount :=
  ⟨loadVector m ptr 16, loadVector m (ptr + 16) 8, loadVector m (ptr + 24) 16⟩

theorem loadPacketCount_bytes (m : Memory UInt8) (ptr : ℕ) : (loadPacketCount m ptr).bytes = m.load ptr 40 := by
  rw [show 40 = 16 + (8 + 16) by rfl, Memory.load_add, Memory.load_add]
  simp [Agent.PacketCount.bytes, loadPacketCount]

theorem loadPacketCount_congr {m m' : Memory UInt8} {a : ℕ} (h : m.load a 40 = m'.load a 40) :
    loadPacketCount m a = loadPacketCount m' a := by
  have hiv : m.load a 16 = m'.load a 16 := Memory.load_sub (i := 0) h (by omega)
  have hcipher : m.load (a + 16) 8 = m'.load (a + 16) 8 := Memory.load_sub h (by omega)
  have htag : m.load (a + 24) 16 = m'.load (a + 24) 16 := Memory.load_sub h (by omega)
  simp only [loadPacketCount, loadVector, hiv, hcipher, htag]

/-! ## The copies of `decrypt_counter` -/

namespace Agent

/-- An array of `n` bytes after a `memcpy` of the first of `bs`. -/
def toVector (n : ℕ) (bs : List UInt8) : Vector UInt8 n := .ofFn fun k => bs.getD k 0

/-- The locals of `decrypt_counter` once the bytes of a triple have been copied. -/
def PacketCount.ofBytes (bs : List UInt8) : PacketCount :=
  ⟨toVector 16 bs, toVector 8 (bs.drop 16), toVector 16 (bs.drop 24)⟩

theorem toVector_toList {n : ℕ} {bs : List UInt8} (h : n ≤ bs.length) : (toVector n bs).toList = bs.take n := by
  apply List.ext_getElem
  · rw [Vector.length_toList, List.length_take, min_eq_left h]
  · intro k hk hk'
    rw [List.length_take] at hk'
    have hlt : k < bs.length := by omega
    simp [toVector, hlt]

theorem ofBytes_bytes {bs : List UInt8} (h : bs.length = 40) : (PacketCount.ofBytes bs).bytes = bs := by
  have hcipher : 8 ≤ (bs.drop 16).length := by rw [List.length_drop, h]; decide
  have htag : (bs.drop 24).length = 16 := by rw [List.length_drop, h]
  have hrest : (bs.drop 16).take 8 ++ bs.drop 24 = bs.drop 16 := by
    rw [show bs.drop 24 = (bs.drop 16).drop 8 by rw [List.drop_drop], List.take_append_drop]
  rw [PacketCount.bytes, PacketCount.ofBytes, toVector_toList (by omega), toVector_toList hcipher,
    toVector_toList htag.ge, List.take_of_length_le htag.le, List.append_assoc, hrest, List.take_append_drop]

theorem length_bytes (c : PacketCount) : c.bytes.length = 40 := by
  simp [PacketCount.bytes]

theorem bytes_inj {c c' : PacketCount} (h : c.bytes = c'.bytes) : c = c' := by
  obtain ⟨iv, cipherText, authTag⟩ := c
  obtain ⟨iv', cipherText', authTag'⟩ := c'
  simp only [PacketCount.bytes] at h
  obtain ⟨hfirst, htag⟩ := List.append_inj h (by simp)
  obtain ⟨hiv, hcipher⟩ := List.append_inj hfirst (by simp)
  rw [Vector.toList_inj.mp hiv, Vector.toList_inj.mp hcipher, Vector.toList_inj.mp htag]

theorem ofBytes_load (m : Memory UInt8) (ptr : ℕ) : PacketCount.ofBytes (m.load ptr 40) = loadPacketCount m ptr :=
  bytes_inj ((ofBytes_bytes (Memory.length_load m ptr 40)).trans (loadPacketCount_bytes m ptr).symm)

end Agent

end P4Ubpf

namespace P4Ubpf.Agent

/-- `wc_AesGcmEncrypt` of a plaintext, an IV and additional data: the return
code, the ciphertext and the tag. -/
abbrev AesGcmEncrypt := Vector UInt8 8 → Vector UInt8 12 → List UInt8 → Int × Vector UInt8 8 × Vector UInt8 16

/-- What the agent uses of wolfSSL and the kernel. -/
structure Platform where
  encrypt : AesGcmEncrypt
  decrypt : AesGcmDecrypt
  pagesize : UInt64

/-! ## One message -/

structure Cipher where
  iv : Vector UInt8 12
  ciphertext : Vector UInt8 256
  authTag : Vector UInt8 16

def Cipher.init : Cipher := ⟨.replicate 12 0, .replicate 256 0, .replicate 16 0⟩

/-- A ciphertext is written over the beginning of its buffer. -/
def overwrite (out : Vector UInt8 8) (buffer : Vector UInt8 256) : Vector UInt8 256 := out ++ buffer.drop 8

/-- `wc_RNG_GenerateBlock`, which has drawn `iv`, and `wc_AesGcmEncrypt`. -/
def Cipher.encrypt (P : Platform) (plaintext : Vector UInt8 8) (iv : Vector UInt8 12) (c : Cipher) : Int × Cipher :=
  let (ret, out, tag) := P.encrypt plaintext iv []
  (ret, ⟨iv, overwrite out c.ciphertext, tag⟩)

/-- The calls of `memcpy`: where to, from the beginning of the shared memory, and what. -/
def Cipher.memcpys (len : ℕ) (c : Cipher) : List (ℕ × List UInt8) :=
  [(0, LittleEndian.ofNat 4 len), (0 + 4, c.iv.toList), (0 + 4 + 12, c.ciphertext.toList),
    (0 + 4 + 12 + 256, c.authTag.toList)]

def Cipher.stores (len : ℕ) (c : Cipher) : List (ℕ × UInt8) :=
  (c.memcpys len).flatMap fun p => Memory.cells p.1 p.2

/-- `data` of `main`. -/
def plaintext (combined : UInt64) : Vector UInt8 8 := ⟨(payload combined).toArray, by simp [payload]⟩

/-! ## The loop of `main` -/

structure Sealed where
  plaintext : Vector UInt8 8
  iv : Vector UInt8 12
  cipherText : Vector UInt8 8
  authTag : Vector UInt8 16
deriving DecidableEq

inductive Event
  | offsets (rx tx : UInt64)
  | gotThreshold (threshold : UInt64)
  | gotUsedBytes (usedBytes : UInt64)
  | encrypted (s : Sealed)
  | encryptionFailed (err : Int)
  /-- `check_p4_execution` on these sums, which logs its record if there is one -/
  | checked (executions passed : UInt64) (o : Outcome)
deriving DecidableEq

inductive Phase
  | boot
  | round
  /-- in the calls of `memcpy`, with what they still have to store -/
  | storing (stores : List (ℕ × UInt8))
  /-- in `check_p4_execution`, with the bytes of slot `i` copied so far -/
  | counting (i : ℕ) (copied : List UInt8) (executions : UInt64)

structure Process where
  threshold : UInt64
  cipher : Cipher
  nicStat : NicStat
  detector : Detector
  memory : Memory UInt8
  /-- newest first -/
  trace : List Event

def Process.init (memory : Memory UInt8) : Process := ⟨0, .init, .init, .init, memory, []⟩

structure Config where
  phase : Phase
  process : Process

inductive Act
  /-- up to the loop, with the contents of the two files -/
  | start (snmp : Option (List UInt8)) (tcpMem : List UInt8)
  /-- up to the encryption: what the local of `get_pages` holds, the contents
  of the file, and the random IV -/
  | publish (usedPages : UInt64) (sockstat : List UInt8) (iv : Vector UInt8 12)
  | store
  /-- `decrypt_counter` copies a byte -/
  | load
  /-- `decrypt_counter` of one slot after its copies -/
  | count
  /-- the rest of the round -/
  | compare (snmp : Option (List UInt8))
  /-- another party stores a byte -/
  | other (a : ℕ) (b : UInt8)

def Process.log (e : Event) (p : Process) : Process := { p with trace := e :: p.trace }

def startProcess (snmp : Option (List UInt8)) (tcpMem : List UInt8) (p : Process) : Option Process := do
  let nicStat ← initNicStat snmp p.nicStat
  let threshold ← getThreshold tcpMem
  some { p with
    threshold := threshold
    nicStat := nicStat
    trace := .gotThreshold threshold :: .offsets nicStat.rxOffset nicStat.txOffset :: p.trace }

def publishRound (P : Platform) (usedPages : UInt64) (sockstat : List UInt8) (iv : Vector UInt8 12) (p : Process) :
    Config :=
  let usedBytes := usedBytes (getPages usedPages sockstat) P.pagesize
  let data := plaintext (combined p.threshold usedBytes)
  let (ret, cipher) := p.cipher.encrypt P data iv
  let p := { p.log (.gotUsedBytes usedBytes) with cipher := cipher }
  if ret = 0 then
    ⟨.storing (cipher.stores 8), p.log (.encrypted ⟨data, iv, (P.encrypt data iv []).2.1, cipher.authTag⟩)⟩
  else ⟨.counting 0 [] 0, p.log (.encryptionFailed ret)⟩

def checkRound (executions : UInt64) (snmp : Option (List UInt8)) (p : Process) : Option Process := do
  let nicStat ← getNicStat snmp false p.nicStat
  let (o, detector) := Agent.compare executions nicStat.passed p.detector
  some { p with
    nicStat := nicStat
    detector := detector
    trace := .checked executions nicStat.passed o :: p.trace }

def next (P : Platform) : Config → Act → Option Config
  | ⟨ph, p⟩, .other a b => some ⟨ph, { p with memory := Function.update p.memory a b }⟩
  | ⟨.boot, p⟩, .start snmp tcpMem => (startProcess snmp tcpMem p).map (⟨.round, ·⟩)
  | ⟨.round, p⟩, .publish usedPages sockstat iv => some (publishRound P usedPages sockstat iv p)
  | ⟨.storing ((a, b) :: stores), p⟩, .store =>
    some ⟨if stores = [] then .counting 0 [] 0 else .storing stores, { p with memory := Function.update p.memory a b }⟩
  | ⟨.counting i copied executions, p⟩, .load =>
    if i < maxConnections ∧ copied.length < 40 then
      some ⟨.counting i (copied ++ [p.memory (packetCountAddr i + copied.length)]) executions, p⟩
    else none
  | ⟨.counting i copied executions, p⟩, .count =>
    if i < maxConnections ∧ copied.length = 40 then
      some ⟨.counting (i + 1) [] (addCounter P.decrypt executions (.ofBytes copied)), p⟩
    else none
  | ⟨.counting i _ executions, p⟩, .compare snmp =>
    if i < maxConnections then none else (checkRound executions snmp p).map (⟨.round, ·⟩)
  | _, _ => none

def agent (P : Platform) (memory : Memory UInt8) : Lts Config Act := ⟨⟨.boot, .init memory⟩, next P⟩

/-- The other parties leave the agent's message alone. -/
def Act.Apart : Act → Prop
  | .other a _ => messageSize ≤ a
  | _ => True

/-! ## What one action does -/

inductive Next (P : Platform) : Config → Act → Config → Prop
  | other {ph : Phase} {p : Process} {a : ℕ} {b : UInt8} :
      Next P ⟨ph, p⟩ (.other a b) ⟨ph, { p with memory := Function.update p.memory a b }⟩
  | start {p p' : Process} {snmp : Option (List UInt8)} {tcpMem : List UInt8} (h : startProcess snmp tcpMem p = some p') :
      Next P ⟨.boot, p⟩ (.start snmp tcpMem) ⟨.round, p'⟩
  | publish {p : Process} {usedPages : UInt64} {sockstat : List UInt8} {iv : Vector UInt8 12} :
      Next P ⟨.round, p⟩ (.publish usedPages sockstat iv) (publishRound P usedPages sockstat iv p)
  | store {p : Process} {a : ℕ} {b : UInt8} {stores : List (ℕ × UInt8)} :
      Next P ⟨.storing ((a, b) :: stores), p⟩ .store
        ⟨if stores = [] then .counting 0 [] 0 else .storing stores, { p with memory := Function.update p.memory a b }⟩
  | load {p : Process} {i : ℕ} {copied : List UInt8} {executions : UInt64} (hi : i < maxConnections)
      (hlen : copied.length < 40) : Next P ⟨.counting i copied executions, p⟩ .load
        ⟨.counting i (copied ++ [p.memory (packetCountAddr i + copied.length)]) executions, p⟩
  | count {p : Process} {i : ℕ} {copied : List UInt8} {executions : UInt64} (hi : i < maxConnections)
      (hlen : copied.length = 40) : Next P ⟨.counting i copied executions, p⟩ .count
        ⟨.counting (i + 1) [] (addCounter P.decrypt executions (.ofBytes copied)), p⟩
  | compare {p p' : Process} {i : ℕ} {copied : List UInt8} {executions : UInt64} {snmp : Option (List UInt8)}
      (hi : ¬ i < maxConnections) (h : checkRound executions snmp p = some p') :
      Next P ⟨.counting i copied executions, p⟩ (.compare snmp) ⟨.round, p'⟩

theorem next_inv {P : Platform} {c c' : Config} {a : Act} (h : next P c a = some c') : Next P c a c' := by
  obtain ⟨ph, p⟩ := c
  cases a with
  | other a b =>
    simp only [next, Option.some.injEq] at h
    exact h ▸ .other
  | start snmp tcpMem =>
    cases ph with
    | boot =>
      simp only [next, Option.map_eq_some_iff] at h
      obtain ⟨p', hs, rfl⟩ := h
      exact .start hs
    | _ => simp [next] at h
  | publish usedPages sockstat iv =>
    cases ph with
    | round => simp only [next, Option.some.injEq] at h; exact h ▸ .publish
    | _ => simp [next] at h
  | store =>
    cases ph with
    | storing stores =>
      cases stores with
      | nil => simp [next] at h
      | cons s stores => simp only [next, Option.some.injEq] at h; exact h ▸ .store
    | _ => simp [next] at h
  | load =>
    cases ph with
    | counting i copied executions =>
      simp only [next, Option.ite_none_right_eq_some, Option.some.injEq] at h
      exact h.2 ▸ .load h.1.1 h.1.2
    | _ => simp [next] at h
  | count =>
    cases ph with
    | counting i copied executions =>
      simp only [next, Option.ite_none_right_eq_some, Option.some.injEq] at h
      exact h.2 ▸ .count h.1.1 h.1.2
    | _ => simp [next] at h
  | compare snmp =>
    cases ph with
    | counting i copied executions =>
      simp only [next, Option.ite_none_left_eq_some, Option.map_eq_some_iff] at h
      obtain ⟨hi, p', hp, rfl⟩ := h
      exact .compare hi hp
    | _ => simp [next] at h

section
variable {P : Platform} {p p' : Process}

theorem startProcess_cases {snmp : Option (List UInt8)} {tcpMem : List UInt8}
    (h : startProcess snmp tcpMem p = some p') : ∃ nicStat threshold, initNicStat snmp p.nicStat = some nicStat ∧
      getThreshold tcpMem = some threshold ∧ p' = { p with
        threshold := threshold
        nicStat := nicStat
        trace := .gotThreshold threshold :: .offsets nicStat.rxOffset nicStat.txOffset :: p.trace } := by
  simp only [startProcess, Option.bind_eq_bind, Option.bind_eq_some_iff, Option.some.injEq] at h
  obtain ⟨nicStat, hn, threshold, ht, rfl⟩ := h
  exact ⟨nicStat, threshold, hn, ht, rfl⟩

theorem checkRound_cases {executions : UInt64} {snmp : Option (List UInt8)} (h : checkRound executions snmp p = some p') :
    ∃ nicStat, getNicStat snmp false p.nicStat = some nicStat ∧ p' = { p with
      nicStat := nicStat
      detector := (Agent.compare executions nicStat.passed p.detector).2
      trace := .checked executions nicStat.passed (Agent.compare executions nicStat.passed p.detector).1 :: p.trace } := by
  simp only [checkRound, Option.bind_eq_bind, Option.bind_eq_some_iff, Option.some.injEq] at h
  obtain ⟨nicStat, hn, rfl⟩ := h
  exact ⟨nicStat, hn, rfl⟩

def sealRound (P : Platform) (threshold usedPages : UInt64) (sockstat : List UInt8) (iv : Vector UInt8 12) : Option Sealed :=
  let data := plaintext (combined threshold (usedBytes (getPages usedPages sockstat) P.pagesize))
  let (ret, out, tag) := P.encrypt data iv []
  if ret = 0 then some ⟨data, iv, out, tag⟩ else none

/-- The globals after a round, whether its encryption succeeds or not. -/
def roundCipher (P : Platform) (usedPages : UInt64) (sockstat : List UInt8) (iv : Vector UInt8 12) (p : Process) : Cipher :=
  (p.cipher.encrypt P (plaintext (combined p.threshold (usedBytes (getPages usedPages sockstat) P.pagesize))) iv).2

theorem publishRound_cases (P : Platform) (usedPages : UInt64) (sockstat : List UInt8) (iv : Vector UInt8 12) (p : Process) :
    (∃ s, sealRound P p.threshold usedPages sockstat iv = some s ∧ publishRound P usedPages sockstat iv p =
      ⟨.storing ((roundCipher P usedPages sockstat iv p).stores 8), { p with
        cipher := roundCipher P usedPages sockstat iv p
        trace := .encrypted s :: .gotUsedBytes (usedBytes (getPages usedPages sockstat) P.pagesize) :: p.trace }⟩) ∨
    (∃ err, sealRound P p.threshold usedPages sockstat iv = none ∧ publishRound P usedPages sockstat iv p =
      ⟨.counting 0 [] 0, { p with
        cipher := roundCipher P usedPages sockstat iv p
        trace := .encryptionFailed err :: .gotUsedBytes (usedBytes (getPages usedPages sockstat) P.pagesize) :: p.trace }⟩) := by
  unfold publishRound sealRound roundCipher Cipher.encrypt
  simp only
  split
  · exact .inl ⟨_, rfl, rfl⟩
  · exact .inr ⟨_, rfl, rfl⟩

end

end P4Ubpf.Agent
