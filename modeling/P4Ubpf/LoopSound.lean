import P4Ubpf.HonestSound
import P4Ubpf.RoundSound

/-!
# The loop of `main` and the detector

However the writes of the other parties fall between the steps of the agent,
its detector goes through the calls of `check_p4_execution`, and the files give
the packets of their samples.
-/

namespace P4Ubpf.Agent

/-! ## Samples -/

def Event.sample : Event → Option (UInt64 × UInt64)
  | .checked executions passed _ => some (executions, passed)
  | _ => none

def Event.outcome : Event → Option Outcome
  | .checked _ _ o => some o
  | _ => none

def Process.samples (p : Process) : List (UInt64 × UInt64) := (p.trace.filterMap Event.sample).reverse

def Process.monitor (p : Process) : Monitor := ⟨p.detector, p.trace.filterMap Event.outcome⟩

/-- The contents of `/proc/net/snmp` that an action reads. -/
def Act.file : Act → Option (List UInt8)
  | .start snmp _ => snmp
  | .compare snmp => snmp
  | _ => none

def packetsSince (rxOffset txOffset : UInt64) (snmp : List UInt8) : UInt64 :=
  (readStat snmp).1 - rxOffset + ((readStat snmp).2 - txOffset)

def passedCounts : List (List UInt8) → List UInt64
  | [] => []
  | first :: files => files.map (packetsSince (readStat first).1 (readStat first).2)

section
variable {P : Platform} {m₀ : Memory UInt8} {c c' : Config}

/-! ## One action -/

/-- An action that ends a check takes one sample, and the others take none. -/
theorem next_checks {a : Act} (hn : Next P c a c') :
    (∃ i copied executions snmp, c.phase = .counting i copied executions ∧ ¬ i < maxConnections ∧ a = .compare (some snmp) ∧
      c'.phase = .round ∧ c'.process.memory = c.process.memory ∧
      c'.process.samples = c.process.samples ++
        [(executions, packetsSince c.process.nicStat.rxOffset c.process.nicStat.txOffset snmp)] ∧
      c'.process.monitor = c.process.monitor.call executions
        (packetsSince c.process.nicStat.rxOffset c.process.nicStat.txOffset snmp) ∧
      c'.process.nicStat.rxOffset = c.process.nicStat.rxOffset ∧
      c'.process.nicStat.txOffset = c.process.nicStat.txOffset) ∨
    (∃ snmp tcpMem, c.phase = .boot ∧ a = .start (some snmp) tcpMem ∧ c'.phase = .round ∧
      c'.process.memory = c.process.memory ∧ c'.process.samples = c.process.samples ∧
      c'.process.monitor = c.process.monitor ∧ c'.process.nicStat.rxOffset = (readStat snmp).1 ∧
      c'.process.nicStat.txOffset = (readStat snmp).2) ∨
    (a.file = none ∧ (c'.phase = .boot ↔ c.phase = .boot) ∧ c'.process.samples = c.process.samples ∧
      c'.process.monitor = c.process.monitor ∧ c'.process.nicStat = c.process.nicStat) := by
  cases hn with
  | other => exact .inr (.inr ⟨rfl, Iff.rfl, rfl, rfl, rfl⟩)
  | @start p p' snmp tcpMem h =>
    obtain ⟨nicStat, threshold, hinit, _, rfl⟩ := startProcess_cases h
    cases snmp with
    | none => cases hinit
    | some snmp =>
      rw [initNicStat, getNicStat_init, Option.some.injEq] at hinit
      subst hinit
      exact .inr (.inl ⟨snmp, tcpMem, rfl, rfl, rfl, rfl, rfl, rfl, rfl, rfl⟩)
  | @publish p usedPages sockstat iv =>
    rcases publishRound_cases P usedPages sockstat iv p with ⟨s, _, heq⟩ | ⟨err, _, heq⟩
    · rw [heq]; exact .inr (.inr ⟨rfl, by simp, rfl, rfl, rfl⟩)
    · rw [heq]; exact .inr (.inr ⟨rfl, by simp, rfl, rfl, rfl⟩)
  | @store p a b stores =>
    refine .inr (.inr ⟨rfl, ?_, rfl, rfl, rfl⟩)
    by_cases hlast : stores = []
    · simp [hlast]
    · simp [hlast]
  | load _ _ => exact .inr (.inr ⟨rfl, by simp, rfl, rfl, rfl⟩)
  | count _ _ => exact .inr (.inr ⟨rfl, by simp, rfl, rfl, rfl⟩)
  | @compare p p' i copied executions snmp hi h =>
    obtain ⟨nicStat, hnext, rfl⟩ := checkRound_cases h
    cases snmp with
    | none => cases hnext
    | some snmp =>
      rw [getNicStat_next, Option.some.injEq] at hnext
      subst hnext
      refine .inl ⟨i, copied, executions, snmp, rfl, hi, rfl, rfl, rfl, ?_, rfl, rfl, rfl⟩
      simp [Process.samples, Event.sample, packetsSince]

/-! ## The run -/

/-- Before the loop no file has been read; in it the first one gave the
offsets, and each of the others a sample. -/
structure Sampled (as : List Act) (c : Config) : Prop where
  boot : c.phase = .boot → as.filterMap Act.file = [] ∧ c.process.samples = []
  loop : c.phase ≠ .boot → ∃ first files, as.filterMap Act.file = first :: files ∧
    c.process.nicStat.rxOffset = (readStat first).1 ∧ c.process.nicStat.txOffset = (readStat first).2 ∧
    c.process.samples.map Prod.snd = files.map (packetsSince (readStat first).1 (readStat first).2)
  monitor : c.process.monitor = (⟨.init, []⟩ : Monitor).calls c.process.samples

theorem sampled_next {as : List Act} {a : Act} (h : Sampled as c) (hn : Next P c a c') :
    Sampled (as ++ [a]) c' := by
  rcases next_checks hn with ⟨i, copied, executions, snmp, hcount, _, rfl, hph, _, hsamples, hmonitor, hrx, htx⟩ |
    ⟨snmp, tcpMem, hboot, rfl, hph, _, hsamples, hmonitor, hrx, htx⟩ | ⟨hfile, hph, hsamples, hmonitor, hnic⟩
  · obtain ⟨first, files, hfiles, hrx₀, htx₀, hcounts⟩ := h.loop (by rw [hcount]; simp)
    refine ⟨fun hb => absurd hb (by rw [hph]; simp),
      fun _ => ⟨first, files ++ [snmp], ?_, hrx.trans hrx₀, htx.trans htx₀, ?_⟩, ?_⟩
    · rw [List.filterMap_append, hfiles]; rfl
    · rw [hsamples, List.map_append, hcounts, hrx₀, htx₀, List.map_append]; rfl
    · rw [hmonitor, hsamples, calls_append, h.monitor]; rfl
  · obtain ⟨hnone, hempty⟩ := h.boot hboot
    refine ⟨fun hb => absurd hb (by rw [hph]; simp), fun _ => ⟨snmp, [], ?_, hrx, htx, ?_⟩, ?_⟩
    · rw [List.filterMap_append, hnone]; rfl
    · rw [hsamples, hempty]; rfl
    · rw [hmonitor, hsamples, h.monitor]
  · have hsame : (as ++ [a]).filterMap Act.file = as.filterMap Act.file := by
      rw [List.filterMap_append, List.filterMap_cons_none hfile, List.filterMap_nil, List.append_nil]
    refine ⟨fun hb => ?_, fun hl => ?_, ?_⟩
    · rw [hsame, hsamples]
      exact h.boot (hph.mp hb)
    · rw [hsame, hsamples, hnic]
      exact h.loop (mt hph.mpr hl)
    · rw [hmonitor, hsamples, h.monitor]

theorem sampled_run {as : List Act} (h : (agent P m₀).run (agent P m₀).init as = some c) : Sampled as c := by
  apply Lts.run_inv (I := Sampled) _ _ h
  · exact ⟨fun _ => ⟨rfl, rfl⟩, fun hl => absurd rfl hl, rfl⟩
  · exact fun _ _ _ _ _ hs hn => sampled_next hs (next_inv hn)

theorem loop_counts {as : List Act} {first : List UInt8} {files : List (List UInt8)} (h : Sampled as c)
    (hfiles : as.filterMap Act.file = first :: files) :
    c.process.samples.map Prod.snd = files.map (packetsSince (readStat first).1 (readStat first).2) := by
  by_cases hboot : c.phase = .boot
  · rw [(h.boot hboot).1] at hfiles
    cases hfiles
  · obtain ⟨first', files', heq, _, _, hcounts⟩ := h.loop hboot
    rw [hfiles] at heq
    cases heq
    exact hcounts

theorem samples_length {as : List Act} {first : List UInt8} {files : List (List UInt8)} (h : Sampled as c)
    (hfiles : as.filterMap Act.file = first :: files) : c.process.samples.length = files.length := by
  have hlen := congrArg List.length (loop_counts h hfiles)
  rwa [List.length_map, List.length_map] at hlen

/-- **The loop refines the detector**: in every run, the detector has made the
calls of `check_p4_execution` on the samples, and a file after the first gives
each of them the packets since the first. -/
theorem loop_refines_monitor {as : List Act} (h : (agent P m₀).run (agent P m₀).init as = some c) :
    c.process.monitor = (⟨.init, []⟩ : Monitor).calls c.process.samples ∧
      c.process.samples.map Prod.snd = passedCounts (as.filterMap Act.file) := by
  have hsampled := sampled_run h
  refine ⟨hsampled.monitor, ?_⟩
  by_cases hboot : c.phase = .boot
  · obtain ⟨hnone, hempty⟩ := hsampled.boot hboot
    rw [hnone, hempty]; rfl
  · obtain ⟨first, files, hfiles, _, _, hcounts⟩ := hsampled.loop hboot
    rw [hfiles, hcounts]; rfl

end

/-! ## What a warning costs -/

section
variable {P : Platform} {m₀ : Memory UInt8} {c : Config} {m : Monitor}

def warnings (os : List Outcome) : ℕ := os.countP Outcome.warned

/-- A call that warns spends the shortfalls and the records since the last warning. -/
theorem call_paid {s : UInt64 × UInt64} (hw : Windowed m.detector (sinceWarning m.outcomes))
    (hp : Follows m.detector s) (s' : UInt64 × UInt64) :
    threshold * warnings (m.call s'.1 s'.2).outcomes + (sinceWarning (m.call s'.1 s'.2).outcomes).count true ≤
      threshold * warnings m.outcomes + (sinceWarning m.outcomes).count true +
        [decide (s'.1 - s.1 < s'.2 - s.2)].count true ∧
    window * warnings (m.call s'.1 s'.2).outcomes + (sinceWarning (m.call s'.1 s'.2).outcomes).length ≤
      window * warnings m.outcomes + (sinceWarning m.outcomes).length + 1 := by
  rw [call_outcomes]
  rcases compare_cases s'.1 s'.2 m.detector with ⟨_, _, hc⟩ | ⟨_, _, hc⟩ | ⟨_, _, hc⟩
  · rw [hc]
    exact ⟨Nat.le_add_right _ _, Nat.le_add_right _ _⟩
  · rw [hc]
    exact ⟨Nat.le_add_right _ _, Nat.le_add_right _ _⟩
  · obtain ⟨halarm, _⟩ := record_spec hw s'.1 s'.2
    have hflag : (record s'.1 s'.2 m.detector).1.flag = decide (s'.1 - s.1 < s'.2 - s.2) := by
      rw [record_flag, hp.1, hp.2]
    rw [hc, ← hflag]
    simp only [warnings, sinceWarning, List.countP_cons, Outcome.warned]
    by_cases hr : (record s'.1 s'.2 m.detector).1.warned = true
    · obtain ⟨hlen, hcount⟩ := halarm.mp hr
      have hall := (List.take_sublist window ((record s'.1 s'.2 m.detector).1.flag :: sinceWarning m.outcomes)).count_le true
      rw [List.length_cons] at hlen
      rw [List.count_cons] at hall
      simp only [hr, if_true, List.count_nil, List.length_nil, List.count_singleton, Nat.mul_succ]
      omega
    · simp only [hr, Bool.false_eq_true, if_false, List.count_cons, List.count_nil, List.length_cons, Nat.add_zero]
      omega

theorem calls_paid : ∀ (ss : List (UInt64 × UInt64)) (m : Monitor) (s : UInt64 × UInt64),
    Windowed m.detector (sinceWarning m.outcomes) → Follows m.detector s →
    threshold * warnings (m.calls ss).outcomes ≤
      threshold * warnings m.outcomes + (sinceWarning m.outcomes).count true + (shortfalls (s :: ss)).count true ∧
    window * warnings (m.calls ss).outcomes ≤
      window * warnings m.outcomes + (sinceWarning m.outcomes).length + (shortfalls (s :: ss)).length
  | [], m, s, _, _ => ⟨by simp [Monitor.calls]; omega, by simp [Monitor.calls]; omega⟩
  | s' :: ss, m, s, hw, hp => by
    obtain ⟨hshort, hrounds⟩ := call_paid hw hp s'
    obtain ⟨hshort', hrounds'⟩ := calls_paid ss (m.call s'.1 s'.2) s' (windowed_call hw s'.1 s'.2) (call_follows m s')
    have hcalls : m.calls (s' :: ss) = (m.call s'.1 s'.2).calls ss := rfl
    rw [hcalls, shortfalls_cons, List.count_cons, List.length_cons]
    rw [List.count_singleton] at hshort
    constructor
    · omega
    · omega

/-- **Every warning is paid for**: by three rounds of its own that had fewer
executions than packets, and by five rounds of its own altogether. -/
theorem warnings_paid {as : List Act} (h : (agent P m₀).run (agent P m₀).init as = some c) :
    threshold * warnings c.process.monitor.outcomes ≤ (shortfalls c.process.samples).count true ∧
      window * warnings c.process.monitor.outcomes ≤ (shortfalls c.process.samples).length := by
  rw [(sampled_run h).monitor]
  cases c.process.samples with
  | nil => exact ⟨Nat.le_refl _, Nat.le_refl _⟩
  | cons s ss =>
    -- the first sample is the baseline, whatever it is
    have hfirst : ((⟨.init, []⟩ : Monitor).call s.1 s.2).outcomes = [.baseline] := rfl
    have hw : Windowed (⟨.init, []⟩ : Monitor).detector (sinceWarning []) :=
      ⟨RingBuffer.holds_clear ⟨fun _ => 0, 0⟩ 0, rfl⟩
    have hpaid := calls_paid ss _ s (windowed_call hw s.1 s.2) (call_follows _ s)
    rw [hfirst] at hpaid
    have hcalls : (⟨.init, []⟩ : Monitor).calls (s :: ss) = ((⟨.init, []⟩ : Monitor).call s.1 s.2).calls ss := rfl
    rw [hcalls]
    exact ⟨hpaid.1.trans (by simp [warnings, sinceWarning, Outcome.warned]),
      hpaid.2.trans (by simp [warnings, sinceWarning, Outcome.warned])⟩

end

/-! ## Six rounds over an empty table -/

theorem counting_files {as : List Act} (h : ∀ a ∈ as, a = .store ∨ a = .load ∨ a = .count) :
    as.filterMap Act.file = [] :=
  List.filterMap_eq_nil_iff.mpr fun a ha => by rcases h a ha with rfl | rfl | rfl <;> rfl

theorem storeActs_cases {o : Option Sealed} {a : Act} (h : a ∈ storeActs o) : a = .store := by
  cases o with
  | none => cases h
  | some s => exact List.eq_of_mem_replicate h

theorem roundActs_files (P : Platform) (threshold usedPages : UInt64) (sockstat snmp : List UInt8)
    (iv : Vector UInt8 12) :
    (roundActs P threshold usedPages sockstat iv snmp).filterMap Act.file = [snmp] := by
  have hstores : ∀ o, (storeActs o).filterMap Act.file = [] := fun o =>
    counting_files fun a ha => .inl (storeActs_cases ha)
  have hcounts : countActs.filterMap Act.file = [] := counting_files fun a ha => .inr (slots_cases ha)
  rw [roundActs, List.filterMap_cons_none (by rfl), List.filterMap_append, List.filterMap_append, hstores, hcounts]
  rfl

def digitHeader : List UInt8 := bytes "Ip: InReceives OutRequests"

def digitLine (d : Fin 10) : List UInt8 := bytes "Ip: " ++ [UInt8.ofNat (48 + d.val), 32, 48]

theorem digitHeader_words : lineWords digitHeader = [bytes "Ip:", bytes "InReceives", bytes "OutRequests"] := by
  decide

theorem digitHeader_fits : ∀ line ∈ [digitHeader], Fits line := List.forall_mem_singleton.mpr (by decide)

theorem nothing_before : ∀ line ∈ ([] : List (List UInt8)), strncmpEq line "Ip:" = false := by simp

theorem digitLine_words (d : Fin 10) :
    lineWords (digitLine d) = [bytes "Ip:", [UInt8.ofNat (48 + d.val)], [48]] := by
  revert d; decide

theorem digitLine_end (d : Fin 10) : 10 ∉ digitLine d := by
  revert d; decide

theorem digitLine_length (d : Fin 10) : (digitLine d).length = 7 := rfl

theorem digit_value (d : Fin 10) : Decimal [UInt8.ofNat (48 + d.val)] d.val := by
  revert d; decide

def ofDigit (d : Fin 10) : Snmp where
  before := []
  header := digitHeader
  values := digitLine d
  after := [10]
  inReceives := d.val
  outRequests := 0
  fits := digitHeader_fits
  others := nothing_before
  ip := by decide
  ends := ⟨digitLine_end d, fun b hb => (Option.some.inj hb).symm,
    by rw [List.length_append, digitLine_length]; decide⟩
  columns := by rw [digitHeader_words, digitLine_words]; rfl
  few := by decide
  received := ⟨by decide, _, by rw [digitHeader_words, digitLine_words]; exact .tail _ (.head _),
    rfl, digit_value d⟩
  sent := ⟨by decide, _, by rw [digitHeader_words, digitLine_words]; exact .tail _ (.tail _ (.head _)),
    by decide, by decide⟩

def sixFiles : List Snmp := [ofDigit 1, ofDigit 2, ofDigit 3, ofDigit 4, ofDigit 5, ofDigit 6]

def sixRounds : List Act :=
  (sixFiles.map Snmp.contents).flatMap (roundActs clear (UInt64.ofNat tcpMem.pressure) 0 [] (Vector.replicate 12 7))

theorem sixRounds_files : sixRounds.filterMap Act.file = sixFiles.map Snmp.contents := by
  simp only [sixRounds, List.filterMap_flatMap, roundActs_files, List.flatMap_singleton']

theorem sixRounds_run :
    ∃ q, (agent clear zeros).run ⟨.round, booted zeros (ofDigit 0) tcpMem⟩ sixRounds = some ⟨.round, q⟩ :=
  rounds_run (p := booted zeros (ofDigit 0) tcpMem) zeros 0 [] (Vector.replicate 12 7) (sixFiles.map Snmp.contents) padded_init

theorem loop_refines_monitor_demo : ∃ c, (agent clear zeros).run (agent clear zeros).init
      (.start (some (ofDigit 0).contents) tcpMem.contents :: sixRounds) = some c ∧
    c.process.monitor = (⟨.init, []⟩ : Monitor).calls c.process.samples ∧
    c.process.samples.map Prod.snd = [1, 2, 3, 4, 5, 6] := by
  obtain ⟨q, hrun⟩ := sixRounds_run
  have hall := (Lts.run_append (boot_run clear zeros (ofDigit 0) tcpMem) sixRounds).trans hrun
  obtain ⟨hmonitor, hcounts⟩ := loop_refines_monitor hall
  refine ⟨_, hall, hmonitor, hcounts.trans ?_⟩
  rw [List.filterMap_append, sixRounds_files]
  change (sixFiles.map Snmp.contents).map (packetsSince (readStat (ofDigit 0).contents).1 (readStat (ofDigit 0).contents).2) = _
  simp only [packetsSince, readStat_contents, sixFiles, List.map_cons, List.map_nil]
  decide

theorem warnings_paid_demo : ∃ c, (agent clear zeros).run (agent clear zeros).init
      (.start (some (ofDigit 0).contents) tcpMem.contents :: sixRounds) = some c ∧
    threshold * warnings c.process.monitor.outcomes ≤ (shortfalls c.process.samples).count true ∧
      window * warnings c.process.monitor.outcomes ≤ (shortfalls c.process.samples).length := by
  obtain ⟨q, hrun⟩ := sixRounds_run
  have hall := (Lts.run_append (boot_run clear zeros (ofDigit 0) tcpMem) sixRounds).trans hrun
  exact ⟨_, hall, warnings_paid hall⟩

end P4Ubpf.Agent
