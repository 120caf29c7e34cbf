import P4Ubpf.Agent
import P4Ubpf.Window

/-!
# The detector's ring buffer is a sliding window

The abstract detector keeps the list of the comparisons recorded since the
last warning. The ring holds the last of them wherever its position stands,
so once it is full its sum is the count over the window. A warning clears the
ring but leaves its position: the count then sums the first cells, while the
entries go to the cells from that position on, so until the window is full
again an entry may be missed.
-/

namespace P4Ubpf.Agent

def Record.flag (r : Record) : Bool := r.p4Delta < r.vmDelta

theorem record_flag (executions passed : UInt64) (d : Detector) : (record executions passed d).1.flag =
    decide (executions - d.prevExec < passed - d.prevPass) := by
  obtain ⟨hp4, hvm⟩ := record_deltas executions passed d
  rw [Record.flag, hp4, hvm]

/-- The comparisons recorded since the last warning, newest first. -/
def sinceWarning : List Outcome → List Bool
  | [] => []
  | .recorded r :: os => if r.warned then [] else r.flag :: sinceWarning os
  | .baseline :: os => sinceWarning os
  | .resync :: os => sinceWarning os

def Alarm (flags : List Bool) : Prop := window ≤ flags.length ∧ threshold ≤ (flags.take window).count true

structure Windowed (d : Detector) (flags : List Bool) : Prop where
  holds : RingBuffer.Holds ⟨d.history, d.idx⟩ 0 (flags.map Bool.toNat)
  filled : d.filled = min window flags.length

section
variable {d : Detector} {flags : List Bool}

theorem windowed_follow (h : Windowed d flags) (executions passed : UInt64) :
    Windowed (d.follow executions passed) flags := ⟨h.holds, h.filled⟩

theorem sumHistory_take (history : Fin window → ℕ) (filled : ℕ) :
    sumHistory history filled = ∑ i with i.val < filled, history i := by
  rw [← List.sum_take_ofFn, List.ofFn_eq_map, ← List.map_take, List.sum_eq_foldl, List.foldl_map]; rfl

theorem sum_toNat (flags : List Bool) : (flags.map Bool.toNat).sum = flags.count true := by
  induction flags with
  | nil => rfl
  | cons b flags ih =>
    cases b with
    | false => simpa using ih
    | true => simp [ih, Nat.add_comm]

theorem sum_flags (flags : List Bool) (n : ℕ) :
    ((flags.map Bool.toNat).take n).sum = (flags.take n).count true := by
  rw [← List.map_take, sum_toNat]

theorem sum_window (h : Windowed d flags) (hfull : d.filled = window) :
    sumHistory d.history d.filled = (flags.take window).count true := by
  have hall : ∀ i ∈ Finset.univ, (i : Fin window).val < window := fun i _ => i.isLt
  rw [hfull, sumHistory_take, Finset.filter_true_of_mem hall, ← sum_flags]
  exact RingBuffer.sum_cells h.holds

def written (executions passed : UInt64) (d : Detector) : Detector :=
  ⟨executions, passed,
    Function.update d.history d.idx (if executions - d.prevExec < passed - d.prevPass then 1 else 0),
    d.idx + 1, if d.filled < window then d.filled + 1 else d.filled⟩

theorem windowed_written (h : Windowed d flags) (executions passed : UInt64) :
    Windowed (written executions passed d) (decide (executions - d.prevExec < passed - d.prevPass) :: flags) := by
  refine ⟨?_, ?_⟩
  · have hpush := RingBuffer.holds_push h.holds (decide (executions - d.prevExec < passed - d.prevPass)).toNat
    by_cases hlt : executions - d.prevExec < passed - d.prevPass
    · simpa [RingBuffer.push, written, hlt] using hpush
    · simpa [RingBuffer.push, written, hlt] using hpush
  · simp only [written, List.length_cons]
    rw [h.filled]
    split <;> omega

theorem full_iff (h : Windowed d flags) : d.filled = window ↔ window ≤ flags.length := by
  rw [h.filled]; omega

theorem record_spec (h : Windowed d flags) (executions passed : UInt64) :
    ((record executions passed d).1.warned = true ↔ Alarm ((record executions passed d).1.flag :: flags)) ∧
    Windowed (record executions passed d).2
      (if (record executions passed d).1.warned then [] else (record executions passed d).1.flag :: flags) := by
  have hw := windowed_written h executions passed
  have hiff : ((written executions passed d).filled = window ∧
      threshold ≤ sumHistory (written executions passed d).history (written executions passed d).filled) ↔
      Alarm (decide (executions - d.prevExec < passed - d.prevPass) :: flags) := by
    constructor
    · intro hx
      obtain ⟨hf, hc⟩ := hx
      rw [sum_window hw hf] at hc
      exact ⟨(full_iff hw).mp hf, hc⟩
    · intro hx
      obtain ⟨hf, hc⟩ := hx
      have hfull := (full_iff hw).mpr hf
      rw [sum_window hw hfull]
      exact ⟨hfull, hc⟩
  by_cases hwarn : (written executions passed d).filled = window ∧
      threshold ≤ sumHistory (written executions passed d).history (written executions passed d).filled
  · have hrec : record executions passed d = (⟨executions - d.prevExec, passed - d.prevPass, _, _, _, true⟩,
        ⟨executions, passed, fun _ => 0, d.idx + 1, 0⟩) := if_pos hwarn
    rw [hrec]
    refine ⟨⟨fun _ => hiff.mp hwarn, fun _ => rfl⟩, ?_, ?_⟩
    · exact RingBuffer.holds_clear ⟨d.history, d.idx + 1⟩ 0
    · rfl
  · have hrec : record executions passed d = (⟨executions - d.prevExec, passed - d.prevPass, _, _, _, false⟩,
        written executions passed d) := if_neg hwarn
    rw [hrec]
    refine ⟨⟨fun hf => ?_, fun ha => absurd (hiff.mpr ha) hwarn⟩, hw⟩
    cases hf

end

theorem windowed_call {m : Monitor} (h : Windowed m.detector (sinceWarning m.outcomes)) (executions passed : UInt64) :
    Windowed (m.call executions passed).detector (sinceWarning (m.call executions passed).outcomes) := by
  rw [call_detector, call_outcomes]
  rcases compare_cases executions passed m.detector with ⟨_, _, hc⟩ | ⟨_, _, hc⟩ | ⟨_, _, hc⟩
  · rw [hc]; exact windowed_follow h executions passed
  · rw [hc]; exact windowed_follow h executions passed
  · rw [hc]; exact (record_spec h executions passed).2

theorem windowed_reachable {m : Monitor} (hr : m.Reachable) : Windowed m.detector (sinceWarning m.outcomes) := by
  apply hr.call_inv (I := fun m => Windowed m.detector (sinceWarning m.outcomes))
  · exact ⟨RingBuffer.holds_clear ⟨fun _ => 0, 0⟩ 0, rfl⟩
  · exact fun _ executions passed h => windowed_call h executions passed

theorem warning_iff_window {m : Monitor} (hr : m.Reachable) {executions passed : UInt64} {r : Record} {d : Detector}
    (h : compare executions passed m.detector = (.recorded r, d)) :
    r.flag = decide (executions - m.detector.prevExec < passed - m.detector.prevPass) ∧
    (r.warned = true ↔ window ≤ (r.flag :: sinceWarning m.outcomes).length ∧
      threshold ≤ ((r.flag :: sinceWarning m.outcomes).take window).count true) := by
  rw [compare_recorded h]
  exact ⟨record_flag executions passed m.detector, (record_spec (windowed_reachable hr) executions passed).1⟩

/-- A baseline and five calls in which packets pass and none is executed. -/
def bypassCalls : List (UInt64 × UInt64) := [(10, 10), (10, 11), (10, 12), (10, 13), (10, 14)]

theorem warning_iff_window_demo : ∃ m r d, monitor.run monitor.init bypassCalls = some m ∧
    compare 10 15 m.detector = (.recorded r, d) ∧ r.warned = true ∧
    r.flag = decide (10 - m.detector.prevExec < 15 - m.detector.prevPass) ∧
    (r.warned = true ↔ window ≤ (r.flag :: sinceWarning m.outcomes).length ∧
      threshold ≤ ((r.flag :: sinceWarning m.outcomes).take window).count true) := by
  have hlast : ∃ m, monitor.run monitor.init bypassCalls = some m ∧
      (compare 10 15 m.detector).1 = .recorded ⟨0, 1, 1, 5, 5, true⟩ := Lts.run_any (by decide +kernel)
  obtain ⟨m, hm, hcall⟩ := hlast
  have hr : m.Reachable := Lts.run_reachable (fun _ _ _ => trivial) .init hm
  have hrec : compare 10 15 m.detector = (.recorded ⟨0, 1, 1, 5, 5, true⟩, (compare 10 15 m.detector).2) :=
    Prod.ext hcall rfl
  exact ⟨m, _, _, hm, hrec, rfl, warning_iff_window hr hrec⟩

/-! ## The count before the window is full -/

def Outcome.isRecorded : Outcome → Bool
  | .recorded _ => true
  | _ => false

def recordedCalls (os : List Outcome) : ℕ := os.countP Outcome.isRecorded

/-- Recorded call `n`, counting from zero, made the newest of the comparisons
`flags`, and the calls before it the others. Each shortfall in the window went
to one of the first cells, of as many as the window has entries. -/
def InPlace (n : ℕ) (flags : List Bool) : Prop :=
  ∀ k < window, flags[k]? = some true → (n - k) % window < min window flags.length

/-- The pair that is logged says how many entries the window has, and how many
of them found a shortfall. -/
def Counted (r : Record) (flags : List Bool) : Prop :=
  r.filled = min window flags.length ∧ r.count = (flags.take r.filled).count true

/-! ## The position in the ring -/

theorem sinceWarning_le (os : List Outcome) : (sinceWarning os).length ≤ recordedCalls os := by
  induction os with
  | nil => exact Nat.le_refl _
  | cons o os ih =>
    cases o with
    | baseline => exact ih
    | resync => exact ih
    | recorded r =>
      rw [recordedCalls, List.countP_cons_of_pos rfl, sinceWarning]
      split
      · exact Nat.zero_le _
      · exact Nat.succ_le_succ ih

theorem idx_call {m : Monitor} (h : m.detector.idx = Fin.ofNat window (recordedCalls m.outcomes))
    (executions passed : UInt64) : (m.call executions passed).detector.idx =
      Fin.ofNat window (recordedCalls (m.call executions passed).outcomes) := by
  rw [call_detector, call_outcomes]
  rcases compare_cases executions passed m.detector with ⟨_, _, hc⟩ | ⟨_, _, hc⟩ | ⟨_, _, hc⟩
  · rw [hc]; exact h
  · rw [hc]; exact h
  · rw [hc, recordedCalls, List.countP_cons_of_pos rfl, ← recordedCalls]
    rw [(record_entry executions passed m.detector).2.2, h]
    apply Fin.ext
    simp [Fin.val_add]

theorem idx_reachable {m : Monitor} (hr : m.Reachable) :
    m.detector.idx = Fin.ofNat window (recordedCalls m.outcomes) := by
  apply hr.call_inv (I := fun m => m.detector.idx = Fin.ofNat window (recordedCalls m.outcomes))
  · rfl
  · exact fun _ executions passed h => idx_call h executions passed

theorem back_val {n : ℕ} {k : Fin window} (hk : k.val ≤ n) :
    (Fin.ofNat window n + 1 - 1 - k).val = (n - k.val) % window := by
  have hlt := k.isLt
  rw [add_sub_cancel_right, Fin.sub_def]
  change (window - k.val + n % window) % window = _
  unfold window at hlt ⊢
  omega

/-! ## The count -/

section
variable {d : Detector} {flags : List Bool}

theorem count_iff (h : Windowed d flags) {n : ℕ} (hidx : d.idx = Fin.ofNat window n + 1) (hn : flags.length ≤ n + 1) :
    sumHistory d.history d.filled = (flags.take d.filled).count true ↔ InPlace n flags := by
  have hwindow : (flags.take d.filled).count true = ((flags.map Bool.toNat).take window).sum := by
    rw [sum_flags, h.filled, ← List.take_take, List.take_length]
  have hcells := RingBuffer.sum_first_cells h.holds d.filled
  rw [sumHistory_take, hwindow, hcells, InPlace, ← h.filled]
  have hflag : ∀ k : ℕ, (flags.map Bool.toNat).getD k 0 ≠ 0 ↔ flags[k]? = some true := by
    intro k
    rw [List.getD_eq_getElem?_getD, List.getElem?_map]
    cases flags[k]? with
    | none => simp
    | some b => cases b <;> simp
  have hback : ∀ k : Fin window, flags[k.val]? = some true → (d.idx - 1 - k).val = (n - k.val) % window := by
    intro k hk
    have hlt := (List.getElem?_eq_some_iff.mp hk).1
    rw [hidx]
    exact back_val (by omega)
  constructor
  · intro hin k hk hf
    rw [← hback ⟨k, hk⟩ hf]
    exact hin ⟨k, hk⟩ ((hflag k).mpr hf)
  · intro hin k hf
    rw [hback k ((hflag k).mp hf)]
    exact hin k k.isLt ((hflag k).mp hf)

theorem record_filled (executions passed : UInt64) (d : Detector) :
    (record executions passed d).1.filled = (written executions passed d).filled := by
  simp only [record, written, apply_ite Prod.fst, apply_ite Record.filled, ite_self]

theorem record_counted (h : Windowed d flags) {n : ℕ} (hidx : d.idx = Fin.ofNat window n) (hn : flags.length ≤ n)
    (executions passed : UInt64) :
    Counted (record executions passed d).1 ((record executions passed d).1.flag :: flags) ↔
      InPlace n (decide (executions - d.prevExec < passed - d.prevPass) :: flags) := by
  obtain ⟨hentry, hcount, _⟩ := record_entry executions passed d
  rw [hentry] at hcount
  have hw := windowed_written h executions passed
  have hiff := count_iff hw (congrArg (· + 1) hidx) (Nat.succ_le_succ hn)
  rw [Counted, record_flag, hcount, record_filled, hw.filled, ← hw.filled]
  exact ⟨fun hc => hiff.mp hc.2, fun hin => ⟨rfl, hiff.mpr hin⟩⟩

theorem inPlace_full {n : ℕ} (h : window ≤ flags.length) : InPlace n flags := by
  intro k _ _
  rw [min_eq_left h]
  exact Nat.mod_lt _ (by decide)

theorem inPlace_aligned {n : ℕ} (hn : flags.length ≤ n + 1) (h : (n + 1 - flags.length) % window = 0) :
    InPlace n flags := by
  intro k _ hf
  have hlt := (List.getElem?_eq_some_iff.mp hf).1
  unfold window at h ⊢
  omega

end

section
variable {m : Monitor} {executions passed : UInt64} {r : Record} {d : Detector}

/-- The count is right once the window is full, and while the ring was last
cleared after a multiple of its length. -/
theorem counted_of_aligned (hr : m.Reachable) (h : compare executions passed m.detector = (.recorded r, d))
    (ha : window ≤ (sinceWarning m.outcomes).length + 1 ∨
      (recordedCalls m.outcomes - (sinceWarning m.outcomes).length) % window = 0) :
    Counted r (r.flag :: sinceWarning m.outcomes) := by
  have hle := sinceWarning_le m.outcomes
  rw [compare_recorded h, record_counted (windowed_reachable hr) (idx_reachable hr) hle]
  rcases ha with hfull | haligned
  · exact inPlace_full hfull
  · refine inPlace_aligned (Nat.succ_le_succ hle) ?_
    rw [List.length_cons, Nat.add_sub_add_right]
    exact haligned

/-- **The count that is logged is right** exactly when the shortfalls of the
window went to the first cells of the ring. -/
theorem running_count_iff (hr : m.Reachable) (h : compare executions passed m.detector = (.recorded r, d)) :
    Counted r (r.flag :: sinceWarning m.outcomes) ↔ InPlace (recordedCalls m.outcomes)
      (decide (executions - m.detector.prevExec < passed - m.detector.prevPass) :: sinceWarning m.outcomes) := by
  rw [compare_recorded h]
  exact record_counted (windowed_reachable hr) (idx_reachable hr) (sinceWarning_le m.outcomes) executions passed

end

/-- The sixth call that is recorded warns. -/
def sixthWarns : List (UInt64 × UInt64) := [(10, 10), (11, 11), (12, 12), (13, 13), (13, 14), (13, 15), (13, 16)]

theorem running_count_iff_demo : ∃ m r d, monitor.run monitor.init sixthWarns = some m ∧
    compare 14 17 m.detector = (.recorded r, d) ∧
    (Counted r (r.flag :: sinceWarning m.outcomes) ↔ InPlace (recordedCalls m.outcomes)
      (decide (14 - m.detector.prevExec < 17 - m.detector.prevPass) :: sinceWarning m.outcomes)) := by
  have hlast : ∃ m, monitor.run monitor.init sixthWarns = some m ∧
      (compare 14 17 m.detector).1 = .recorded ⟨1, 1, 0, 0, 1, false⟩ := Lts.run_any (by decide +kernel)
  obtain ⟨m, hm, hcall⟩ := hlast
  have hr : m.Reachable := Lts.run_reachable (fun _ _ _ => trivial) .init hm
  have hrec : compare 14 17 m.detector = (.recorded ⟨1, 1, 0, 0, 1, false⟩, (compare 14 17 m.detector).2) :=
    Prod.ext hcall rfl
  exact ⟨m, _, _, hm, hrec, running_count_iff hr hrec⟩

/-- The next one finds a shortfall, and the count that is logged is 0 of 1. -/
theorem shortfall_not_counted : ∃ m r d, monitor.run monitor.init sixthWarns = some m ∧ m.Reachable ∧
    compare 13 17 m.detector = (.recorded r, d) ∧ r.flag = true ∧ r.count = 0 ∧ r.filled = 1 ∧
    sinceWarning m.outcomes = [] ∧ ¬ Counted r (r.flag :: sinceWarning m.outcomes) := by
  have hlast : ∃ m, monitor.run monitor.init sixthWarns = some m ∧
      (compare 13 17 m.detector).1 = .recorded ⟨0, 1, 1, 0, 1, false⟩ ∧ sinceWarning m.outcomes = [] :=
    Lts.run_any (by decide +kernel)
  obtain ⟨m, hm, hcall, hsince⟩ := hlast
  have hr : m.Reachable := Lts.run_reachable (fun _ _ _ => trivial) .init hm
  refine ⟨m, _, _, hm, hr, Prod.ext hcall rfl, by decide, rfl, rfl, hsince, ?_⟩
  rw [hsince]
  intro hc
  exact absurd hc.2 (by decide)

end P4Ubpf.Agent
