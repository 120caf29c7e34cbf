import P4Ubpf.MessageSound
import P4Ubpf.NicStatSound

/-!
# A round that nobody disturbs

Byte by byte, a round ends whatever the files say, and has then published its
message and checked the table that `check_p4_execution` reads in one go.
-/

namespace P4Ubpf.Agent

def table (m : Memory UInt8) : Table := fun i => loadPacketCount m (packetCountAddr i)

theorem table_store {m : Memory UInt8} {xs : List UInt8} (h : xs.length ≤ metaArea) :
    table (m.store 0 xs) = table m := by
  funext i
  apply loadPacketCount_congr
  apply Memory.load_frame
  have hmeta : metaArea ≤ packetCountAddr i := by unfold packetCountAddr connectionAddr; omega
  omega

def storeActs : Option Sealed → List Act
  | none => []
  | some _ => List.replicate messageSize .store

def slotActs : List Act := List.replicate 40 .load ++ [.count]

def countActs : List Act := (List.replicate maxConnections slotActs).flatten

def roundActs (P : Platform) (threshold usedPages : UInt64) (sockstat : List UInt8) (iv : Vector UInt8 12)
    (snmp : List UInt8) : List Act :=
  .publish usedPages sockstat iv :: (storeActs (sealRound P threshold usedPages sockstat iv) ++
    (countActs ++ [.compare (some snmp)]))

theorem slots_cases {n : ℕ} {a : Act} (h : a ∈ (List.replicate n slotActs).flatten) : a = .load ∨ a = .count := by
  obtain ⟨as, has, ha⟩ := List.mem_flatten.mp h
  rw [List.eq_of_mem_replicate has, slotActs, List.mem_append, List.mem_singleton] at ha
  exact ha.imp List.eq_of_mem_replicate id

theorem afterActs_cases {o : Option Sealed} {snmp : List UInt8} {a : Act}
    (h : a ∈ storeActs o ++ (countActs ++ [.compare (some snmp)])) :
    a = .store ∨ a = .load ∨ a = .count ∨ a = .compare (some snmp) := by
  rw [List.mem_append, List.mem_append, List.mem_singleton] at h
  rcases h with h | h | h
  · cases o with
    | none => cases h
    | some s => exact .inl (List.eq_of_mem_replicate h)
  · exact .inr ((slots_cases h).imp id .inl)
  · exact .inr (.inr (.inr h))

theorem roundActs_cases {P : Platform} {threshold usedPages : UInt64} {sockstat snmp : List UInt8}
    {iv : Vector UInt8 12} {a : Act} (h : a ∈ roundActs P threshold usedPages sockstat iv snmp) :
    a = .publish usedPages sockstat iv ∨ a = .store ∨ a = .load ∨ a = .count ∨ a = .compare (some snmp) :=
  (List.mem_cons.mp h).imp id afterActs_cases

def stored (m : Memory UInt8) : Option Sealed → Memory UInt8
  | none => m
  | some s => m.store 0 s.message

section
variable {P : Platform} {m₀ : Memory UInt8} {p : Process}

theorem stores_run (P : Platform) (m₀ : Memory UInt8) (p : Process) (qs : List (ℕ × UInt8)) {ps : List (ℕ × UInt8)}
    (hne : ps ≠ []) : (agent P m₀).run ⟨.storing (ps ++ qs), p⟩ (List.replicate ps.length .store) =
      some ⟨if qs = [] then .counting 0 [] 0 else .storing qs, { p with memory := p.memory.write ps }⟩ := by
  induction ps generalizing p with
  | nil => exact absurd rfl hne
  | cons s ps ih =>
    obtain ⟨a, b⟩ := s
    have hn : (agent P m₀).next ⟨.storing ((a, b) :: (ps ++ qs)), p⟩ .store =
        some ⟨if ps ++ qs = [] then .counting 0 [] 0 else .storing (ps ++ qs),
          { p with memory := Function.update p.memory a b }⟩ := rfl
    rw [List.length_cons, List.replicate_succ, List.cons_append, Lts.run_step hn]
    by_cases hlast : ps = []
    · subst hlast
      rfl
    · have hmore : ps ++ qs ≠ [] := List.append_ne_nil_of_left_ne_nil hlast qs
      rw [if_neg hmore, ih _ hlast]; rfl

/-- `p'` is `p` after its encryption: the message is in memory if it succeeded. -/
structure Sent (s : Option Sealed) (p p' : Process) : Prop where
  threshold : p'.threshold = p.threshold
  nicStat : p'.nicStat = p.nicStat
  detector : p'.detector = p.detector
  padded : p'.cipher.Padded
  memory : p'.memory = stored p.memory s
  history : history p'.trace = s.toList ++ history p.trace

theorem publish_run (m₀ : Memory UInt8) (hp : p.cipher.Padded) (usedPages : UInt64) (sockstat : List UInt8)
    (iv : Vector UInt8 12) : ∃ q, (agent P m₀).run ⟨.round, p⟩ (.publish usedPages sockstat iv ::
        storeActs (sealRound P p.threshold usedPages sockstat iv)) = some ⟨.counting 0 [] 0, q⟩ ∧
      Sent (sealRound P p.threshold usedPages sockstat iv) p q := by
  have hpublish : (agent P m₀).next ⟨.round, p⟩ (.publish usedPages sockstat iv) =
      some (publishRound P usedPages sockstat iv p) := rfl
  rcases publishRound_cases P usedPages sockstat iv p with ⟨s, hs, heq⟩ | ⟨err, hs, heq⟩
  · have hlen : (Memory.cells 0 s.message).length = messageSize := by rw [Memory.length_cells, length_message]
    have hne : Memory.cells 0 s.message ≠ [] := by
      intro hnil
      rw [hnil] at hlen
      cases hlen
    rw [heq, round_stores hp hs] at hpublish
    have hstores := stores_run P m₀ { p with
      cipher := roundCipher P usedPages sockstat iv p
      trace := .encrypted s :: .gotUsedBytes (usedBytes (getPages usedPages sockstat) P.pagesize) :: p.trace } [] hne
    rw [hlen, List.append_nil, if_pos rfl] at hstores
    rw [hs, storeActs, Lts.run_step hpublish, hstores]
    exact ⟨_, rfl, rfl, rfl, rfl, padded_round hp, rfl, rfl⟩
  · rw [hs, storeActs, Lts.run_step (hpublish.trans (congrArg some heq))]
    exact ⟨_, rfl, rfl, rfl, rfl, padded_round hp, rfl, rfl⟩

theorem slots_drop {k : ℕ} (hk : k < maxConnections) :
    (Slots.all maxConnections).drop k = ⟨k, hk⟩ :: (Slots.all maxConnections).drop (k + 1) := by
  rw [List.drop_eq_getElem_cons (by rw [Slots.all, List.length_finRange]; exact hk)]
  simp [Slots.all]

theorem loads_run {k : ℕ} (hk : k < maxConnections) (executions : UInt64) : ∀ (n : ℕ) (copied : List UInt8),
    copied.length + n ≤ 40 → (agent P m₀).run ⟨.counting k copied executions, p⟩ (List.replicate n .load) =
      some ⟨.counting k (copied ++ p.memory.load (packetCountAddr k + copied.length) n) executions, p⟩
  | 0, copied, _ => by
    rw [Memory.load, List.append_nil]; rfl
  | n + 1, copied, hn => by
    have hstep : (agent P m₀).next ⟨.counting k copied executions, p⟩ .load = some ⟨.counting k
        (copied ++ [p.memory (packetCountAddr k + copied.length)]) executions, p⟩ := if_pos ⟨hk, by omega⟩
    have hlen : (copied ++ [p.memory (packetCountAddr k + copied.length)]).length = copied.length + 1 := by simp
    rw [List.replicate_succ, Lts.run_step hstep, loads_run hk executions n _ (by omega), hlen, List.append_assoc]
    rfl

theorem slot_run {k : ℕ} (hk : k < maxConnections) (executions : UInt64) :
    (agent P m₀).run ⟨.counting k [] executions, p⟩ slotActs =
      some ⟨.counting (k + 1) [] (addCounter P.decrypt executions (table p.memory ⟨k, hk⟩)), p⟩ := by
  have hcount : (agent P m₀).next ⟨.counting k (p.memory.load (packetCountAddr k) 40) executions, p⟩ .count = some
      ⟨.counting (k + 1) [] (addCounter P.decrypt executions (.ofBytes (p.memory.load (packetCountAddr k) 40))), p⟩ :=
    if_pos ⟨hk, Memory.length_load _ _ _⟩
  rw [ofBytes_load] at hcount
  rw [slotActs, Lts.run_append (loads_run hk executions 40 [] (by decide))]
  exact Lts.run_step hcount []

theorem counts_run : ∀ (n k : ℕ), k + n = maxConnections → ∀ executions,
    (agent P m₀).run ⟨.counting k [] executions, p⟩ (List.replicate n slotActs).flatten = some ⟨.counting maxConnections
      [] (((Slots.all maxConnections).drop k).foldl
        (fun e i => addCounter P.decrypt e (table p.memory i)) executions), p⟩
  | 0, k, hk, executions => by
    have hlen : (Slots.all maxConnections).length ≤ k := by rw [Slots.all, List.length_finRange]; omega
    obtain rfl : k = maxConnections := by omega
    rw [List.drop_of_length_le hlen]; rfl
  | n + 1, k, hk, executions => by
    have hlt : k < maxConnections := by omega
    rw [List.replicate_succ, List.flatten_cons, Lts.run_append (slot_run hlt executions),
      counts_run n (k + 1) (by omega), slots_drop hlt]; rfl

def afterCheck (P : Platform) (snmp : List UInt8) (p : Process) : Process :=
  let n : NicStat := ⟨p.nicStat.rxOffset, p.nicStat.txOffset, (readStat snmp).1 - p.nicStat.rxOffset,
    (readStat snmp).2 - p.nicStat.txOffset,
    (readStat snmp).1 - p.nicStat.rxOffset + ((readStat snmp).2 - p.nicStat.txOffset)⟩
  { p with
    nicStat := n
    detector := (checkP4Execution P.decrypt (table p.memory) n.passed p.detector).2
    trace := .checked (sumExecutions P.decrypt (table p.memory)) n.passed
      (checkP4Execution P.decrypt (table p.memory) n.passed p.detector).1 :: p.trace }

theorem check_run (P : Platform) (m₀ : Memory UInt8) (p : Process) (snmp : List UInt8) :
    (agent P m₀).run ⟨.counting 0 [] 0, p⟩ (countActs ++ [.compare (some snmp)]) =
      some ⟨.round, afterCheck P snmp p⟩ := by
  have hcheck : (agent P m₀).next
      ⟨.counting maxConnections [] (sumExecutions P.decrypt (table p.memory)), p⟩ (.compare (some snmp)) =
      (checkRound (sumExecutions P.decrypt (table p.memory)) (some snmp) p).map (⟨.round, ·⟩) := rfl
  simp only [checkRound, getNicStat_next, Option.bind_eq_bind, Option.bind_some, Option.map_some] at hcheck
  rw [countActs, Lts.run_append (counts_run maxConnections 0 (Nat.zero_add _) 0)]
  exact Lts.run_step hcheck []

theorem compare_run (P : Platform) (m₀ : Memory UInt8) (p : Process) (executions : UInt64) (snmp : List UInt8) :
    ∃ q, (agent P m₀).run ⟨.counting maxConnections [] executions, p⟩ [.compare (some snmp)] = some ⟨.round, q⟩ := by
  have hcompare : (agent P m₀).next ⟨.counting maxConnections [] executions, p⟩ (.compare (some snmp)) =
      (checkRound executions (some snmp) p).map (⟨.round, ·⟩) := rfl
  simp only [checkRound, getNicStat_next, Option.bind_eq_bind, Option.bind_some, Option.map_some] at hcompare
  exact ⟨_, Lts.run_step hcompare []⟩

theorem round_run (m₀ : Memory UInt8) (hp : p.cipher.Padded) (usedPages : UInt64) (sockstat snmp : List UInt8)
    (iv : Vector UInt8 12) :
    ∃ q, (agent P m₀).run ⟨.round, p⟩ (roundActs P p.threshold usedPages sockstat iv snmp) =
      some ⟨.round, afterCheck P snmp q⟩ ∧ Sent (sealRound P p.threshold usedPages sockstat iv) p q := by
  obtain ⟨q, hsend, hq⟩ := publish_run m₀ hp usedPages sockstat iv
  have hrun := Lts.run_append hsend (countActs ++ [.compare (some snmp)])
  rw [check_run, List.cons_append] at hrun
  exact ⟨q, hrun, hq⟩

/-- **An undisturbed round** is `encrypt_message` and `check_p4_execution` in
one go, whatever the files, the random IV and the detector are. -/
theorem round_in_one_go {ok : Config → Act → Prop} (hr : (agent P m₀).Reachable ok ⟨.round, p⟩) (usedPages : UInt64)
    (sockstat snmp : List UInt8) (iv : Vector UInt8 12) :
    ∃ p' n o, (agent P m₀).run ⟨.round, p⟩ (roundActs P p.threshold usedPages sockstat iv snmp) =
      some ⟨.round, p'⟩ ∧
      p'.memory = stored p.memory (sealRound P p.threshold usedPages sockstat iv) ∧
      history p'.trace = (sealRound P p.threshold usedPages sockstat iv).toList ++ history p.trace ∧
      getNicStat (some snmp) false p.nicStat = some n ∧ p'.nicStat = n ∧
      checkP4Execution P.decrypt (table p.memory) n.passed p.detector = (o, p'.detector) ∧
      p'.trace.head? = some (.checked (sumExecutions P.decrypt (table p.memory)) n.passed o) := by
  obtain ⟨q, hrun, hq⟩ := round_run m₀ (padded_reachable hr) usedPages sockstat snmp iv
  have hsame : table q.memory = table p.memory := by
    rw [hq.memory]
    cases sealRound P p.threshold usedPages sockstat iv with
    | none => rfl
    | some s => exact table_store (by rw [length_message]; decide)
  refine ⟨_, (afterCheck P snmp q).nicStat, (checkP4Execution P.decrypt (table q.memory)
    (afterCheck P snmp q).nicStat.passed q.detector).1, hrun, hq.memory, hq.history, ?_, rfl, ?_, ?_⟩
  · rw [← hq.nicStat]; rfl
  · rw [← hq.detector, ← hsame]; rfl
  · rw [← hsame]; rfl

/-! ## From the start on -/

def booted (m₀ : Memory UInt8) (f : Snmp) (t : TcpMem) : Process :=
  { Process.init m₀ with
    threshold := UInt64.ofNat t.pressure
    nicStat := ⟨UInt64.ofNat f.inReceives, UInt64.ofNat f.outRequests, 0, 0, 0⟩
    trace := [.gotThreshold (UInt64.ofNat t.pressure),
      .offsets (UInt64.ofNat f.inReceives) (UInt64.ofNat f.outRequests)] }

theorem boot_run (P : Platform) (m₀ : Memory UInt8) (f : Snmp) (t : TcpMem) :
    (agent P m₀).run (agent P m₀).init [.start (some f.contents) t.contents] = some ⟨.round, booted m₀ f t⟩ := by
  have hstart : (agent P m₀).next (agent P m₀).init (.start (some f.contents) t.contents) =
      (startProcess (some f.contents) t.contents (Process.init m₀)).map (⟨.round, ·⟩) := rfl
  simp only [startProcess, initNicStat, getNicStat_init, readStat_contents, t.threshold, Option.bind_eq_bind,
    Option.bind_some, Option.map_some] at hstart
  exact Lts.run_step hstart []

theorem first_round (P : Platform) (m₀ : Memory UInt8) (f : Snmp) (t : TcpMem) (usedPages : UInt64)
    (sockstat snmp : List UInt8) (iv : Vector UInt8 12) :
    ∃ q, (agent P m₀).run (agent P m₀).init (.start (some f.contents) t.contents ::
        roundActs P (UInt64.ofNat t.pressure) usedPages sockstat iv snmp) = some ⟨.round, afterCheck P snmp q⟩ ∧
      Sent (sealRound P (UInt64.ofNat t.pressure) usedPages sockstat iv) (booted m₀ f t) q := by
  obtain ⟨q, hrun, hq⟩ := round_run (p := booted m₀ f t) m₀ padded_init usedPages sockstat snmp iv
  exact ⟨q, (Lts.run_append (boot_run P m₀ f t) _).trans hrun, hq⟩

theorem rounds_run (m₀ : Memory UInt8) (usedPages : UInt64) (sockstat : List UInt8) (iv : Vector UInt8 12)
    (files : List (List UInt8)) (hp : p.cipher.Padded) : ∃ q, (agent P m₀).run ⟨.round, p⟩
      (files.flatMap (roundActs P p.threshold usedPages sockstat iv)) = some ⟨.round, q⟩ := by
  induction files generalizing p with
  | nil => exact ⟨p, rfl⟩
  | cons snmp files ih =>
    obtain ⟨q, hrun, hq⟩ := round_run m₀ hp usedPages sockstat snmp iv
    obtain ⟨r, hrest⟩ := ih (p := afterCheck P snmp q) hq.padded
    refine ⟨r, ?_⟩
    rw [List.flatMap_cons, Lts.run_append hrun, ← hrest,
      show p.threshold = (afterCheck P snmp q).threshold from hq.threshold.symm]

end

/-! ## A round after the start -/

/-- The encryption changes nothing, and the only counter is `sealedCount`. -/
def clear : Platform := ⟨fun plaintext _ _ => (0, plaintext, Vector.replicate 16 1), opens100, 4096⟩

def tcpMem : TcpMem where
  low := 190431
  pressure := 253909
  high := 380862
  gap := [9]
  gap' := [9]
  after := [10]
  fits := by decide
  spaced := ⟨⟨List.cons_ne_nil _ _, List.forall_mem_singleton.mpr rfl⟩,
    List.cons_ne_nil _ _, List.forall_mem_singleton.mpr rfl⟩
  ends := fun b hb => by rw [← Option.some.inj hb]; rfl

def zeros : Memory UInt8 := fun _ => 0

theorem reachable_booted (P : Platform) (m₀ : Memory UInt8) (f : Snmp) (t : TcpMem) :
    (agent P m₀).Reachable (fun _ a => a.Apart) ⟨.round, booted m₀ f t⟩ :=
  Lts.run_reachable (fun _ a ha => by rw [List.mem_singleton.mp ha]; trivial) .init (boot_run P m₀ f t)

theorem round_in_one_go_demo : ∃ (p' : Process) (n : NicStat) (o : Outcome),
    (agent clear zeros).run ⟨.round, booted zeros atStart tcpMem⟩
      (roundActs clear 253909 0 (bytes "TCP: inuse 5") (Vector.replicate 12 7) later.contents) = some ⟨.round, p'⟩ ∧
    p'.memory = stored zeros (sealRound clear 253909 0 (bytes "TCP: inuse 5") (Vector.replicate 12 7)) ∧
    checkP4Execution opens100 (table zeros) n.passed .init = (o, p'.detector) := by
  obtain ⟨p', n, o, hrun, hmem, _, _, _, hcheck, _⟩ :=
    round_in_one_go (reachable_booted clear zeros atStart tcpMem) 0
    (bytes "TCP: inuse 5") later.contents (Vector.replicate 12 7)
  exact ⟨p', n, o, hrun, hmem, hcheck⟩

end P4Ubpf.Agent
