import P4Ubpf.CText
import P4Ubpf.Decimal
import P4Ubpf.Lts
import P4Ubpf.Payload
import P4Ubpf.Scanf

/-!
# The files the agent reads

`p4agent.c`, `get_threshold`, `get_pages` and `get_nic_stat`. The contents of
the files under `/proc` are inputs, and so is what the local `used_pages` of
`get_pages` holds before anything is assigned to it. Where `/proc/net/snmp`
does not open or `/proc/sys/net/ipv4/tcp_mem` has fewer than three numbers, the
agent exits, and there is no next state. That the other two files open is taken
for granted, as in the source.
-/

namespace P4Ubpf.Agent

/-! ## The packets the VM has counted -/

structure NicStat where
  rxOffset : UInt64
  txOffset : UInt64
  rx : UInt64
  tx : UInt64
  passed : UInt64
deriving DecidableEq

def NicStat.init : NicStat := ⟨0, 0, 0, 0, 0⟩

/-- `while (fgets(header, sizeof(header), fp))`, up to the line that begins
with `Ip:`. -/
def findIp (snmp : List UInt8) : Option (List UInt8 × List UInt8) :=
  match _ : fgets 1024 snmp with
  | none => none
  | some (header, rest) => if strncmpEq header "Ip:" then some (header, rest) else findIp rest
termination_by snmp.length
decreasing_by exact fgets_lt ‹_›

/-- `while (p && hc < 64)`: the first tokens of a line. -/
def tokens : ℕ → List UInt8 → List (List UInt8)
  | 0, _ => []
  | n + 1, s =>
    match strtok [32, 10] s with
    | none => []
    | some (p, s) => p :: tokens n s

/-- `h[i]` and `v[i]` for each `i` below `hc` and `vc`. -/
def columns (snmp : List UInt8) : List (List UInt8 × List UInt8) :=
  match findIp snmp with
  | none => []
  | some (header, rest) =>
    match fgets 1024 rest with
    | none => []
    | some (values, _) => (tokens 64 (cstring header)).zip (tokens 64 (cstring values))

def readColumn (found : UInt64 × UInt64) (column : List UInt8 × List UInt8) : UInt64 × UInt64 :=
  if strcmpEq column.1 "InReceives" then (strtoull column.2, found.2)
  else if strcmpEq column.1 "OutRequests" then (found.1, strtoull column.2)
  else found

def readStat (snmp : List UInt8) : UInt64 × UInt64 := (columns snmp).foldl readColumn (0, 0)

def getNicStat (snmp : Option (List UInt8)) (isInit : Bool) (s : NicStat) : Option NicStat :=
  match snmp with
  | none => none
  | some snmp =>
    let (inReceives, outRequests) := readStat snmp
    if isInit then some { s with rxOffset := inReceives, txOffset := outRequests }
    else
      let rx := inReceives - s.rxOffset
      let tx := outRequests - s.txOffset
      some { s with rx := rx, tx := tx, passed := rx + tx }

def initNicStat (snmp : Option (List UInt8)) (s : NicStat) : Option NicStat := getNicStat snmp true s

def nicStat : Lts NicStat (Bool × List UInt8) := ⟨.init, fun s c => getNicStat (some c.2) c.1 s⟩

abbrev NicStat.Reachable (s : NicStat) : Prop := Lts.Reachable nicStat (fun _ _ => True) s

theorem getNicStat_init (s : NicStat) (snmp : List UInt8) : getNicStat (some snmp) true s =
    some ⟨(readStat snmp).1, (readStat snmp).2, s.rx, s.tx, s.passed⟩ := rfl

theorem getNicStat_next (s : NicStat) (snmp : List UInt8) : getNicStat (some snmp) false s =
    some ⟨s.rxOffset, s.txOffset, (readStat snmp).1 - s.rxOffset, (readStat snmp).2 - s.txOffset,
      (readStat snmp).1 - s.rxOffset + ((readStat snmp).2 - s.txOffset)⟩ := rfl

/-! ## The memory in use -/

def tcpFormat : List Directive := directives (bytes "TCP: inuse %*d orphan %*d tw %*d alloc %*d mem %lu")

def getPages (usedPages : UInt64) (sockstat : List UInt8) : UInt64 :=
  match _ : fgets 256 sockstat with
  | none => usedPages
  | some (buf, rest) =>
    match sscanf tcpFormat (cstring buf) with
    | [mem] => mem
    | _ => getPages usedPages rest -- nothing has been assigned
termination_by sockstat.length
decreasing_by exact fgets_lt ‹_›

/-- The plaintext of one round of `main`. -/
def publish (threshold pagesize usedPages : UInt64) (sockstat : List UInt8) : List UInt8 :=
  payload (combined threshold (usedBytes (getPages usedPages sockstat) pagesize))

/-! ## The TCP threshold -/

def thresholdFormat : List Directive := directives (bytes "%lu %lu %lu")

def getThreshold (tcpMem : List UInt8) : Option UInt64 :=
  match sscanf thresholdFormat tcpMem with
  | [_, pressure, _] => some pressure
  | _ => none

theorem thresholdFormat_eq : thresholdFormat = [.readULong, .space, .readULong, .space, .readULong] := by decide

theorem getThreshold_iff {tcpMem : List UInt8} {n : UInt64} :
    getThreshold tcpMem = some n ↔ ∃ low high, Reads thresholdFormat tcpMem [low, n, high] := by
  simp only [reads_iff, getThreshold]
  constructor
  · intro h
    split at h
    · rename_i low pressure high hs
      cases h
      exact ⟨low, high, hs, by rw [thresholdFormat_eq]; rfl⟩
    · cases h
  · intro hx
    obtain ⟨low, high, hs, _⟩ := hx
    rw [hs]

theorem noDigit_gap {gap rest : List UInt8} (hne : gap ≠ []) (hgap : ∀ b ∈ gap, isspace b = true) :
    NoDigit (gap ++ rest) := by
  obtain ⟨b, gap, rfl⟩ := List.exists_cons_of_ne_nil hne
  intro c hc
  obtain rfl : b = c := by simpa using hc
  by_contra hd
  have hspace := (isspace_digit (by simpa using hd)).1
  rw [hgap b List.mem_cons_self] at hspace
  cases hspace

/-- Three numbers with white space between them. -/
structure TcpMem where
  low : ℕ
  pressure : ℕ
  high : ℕ
  gap : List UInt8
  gap' : List UInt8
  after : List UInt8
  fits : pressure < 2 ^ 64
  spaced : (gap ≠ [] ∧ ∀ b ∈ gap, isspace b = true) ∧ gap' ≠ [] ∧ ∀ b ∈ gap', isspace b = true
  ends : NoDigit after

def TcpMem.contents (t : TcpMem) : List UInt8 :=
  decimal t.low ++ (t.gap ++ (decimal t.pressure ++ (t.gap' ++ (decimal t.high ++ t.after))))

theorem TcpMem.threshold (t : TcpMem) : getThreshold t.contents = some (UInt64.ofNat t.pressure) := by
  obtain ⟨⟨hne, hgap⟩, hne', hgap'⟩ := t.spaced
  have hlast : Reads [.readULong] (decimal t.high ++ t.after) [strtoull (decimal t.high)] :=
    .readULong (decimal_numeral _) t.ends (.done rfl _)
  have hrest : Reads [.readULong, .space, .readULong]
      (decimal t.pressure ++ (t.gap' ++ (decimal t.high ++ t.after))) [UInt64.ofNat t.pressure, strtoull (decimal t.high)] := by
    rw [← strtoull_spelled t.fits]
    exact .readULong (decimal_numeral _) (noDigit_gap hne' hgap') (.space hgap' hlast)
  rw [getThreshold_iff]
  refine ⟨strtoull (decimal t.low), strtoull (decimal t.high), ?_⟩
  rw [thresholdFormat_eq]
  exact .readULong (decimal_numeral _) (noDigit_gap hne hgap) (.space hgap hrest)

end P4Ubpf.Agent
