import P4Ubpf.WindowSound

/-!
# When a bypass is detected

The detector has no flag for having been started: it takes the previous sample
for missing when both of its counts are zero, which an idle machine measures
as well. Every other sample is compared with the one before it, unless the
executions fell. A slot that does not authenticate counts as zero, so the total
can fall, which makes a call return early, and rise again, which looks like
executions. As long as the total does not fall, and rises at most twice by as
much as the passed packets, six calls suffice for a warning.
-/

namespace P4Ubpf.Agent

/-! ## Calls that are all recorded -/

/-- Whether each sample after the first shows fewer executions than packets. -/
def shortfalls (ss : List (UInt64 × UInt64)) : List Bool :=
  (ss.zip ss.tail).map fun p => decide (p.2.1 - p.1.1 < p.2.2 - p.1.2)

def Advances (s s' : UInt64 × UInt64) : Prop := s.1 ≤ s'.1 ∧ s.2 < s'.2

instance : DecidableRel Advances := fun s s' => inferInstanceAs (Decidable (s.1 ≤ s'.1 ∧ s.2 < s'.2))

def Follows (d : Detector) (s : UInt64 × UInt64) : Prop := d.prevExec = s.1 ∧ d.prevPass = s.2

def Monitor.calls (m : Monitor) (ss : List (UInt64 × UInt64)) : Monitor := ss.foldl (fun m s => m.call s.1 s.2) m

section
variable {m : Monitor} {s s' : UInt64 × UInt64}

theorem shortfalls_cons (s s' : UInt64 × UInt64) (ss : List (UInt64 × UInt64)) :
    shortfalls (s :: s' :: ss) = decide (s'.1 - s.1 < s'.2 - s.2) :: shortfalls (s' :: ss) := rfl

theorem call_follows (m : Monitor) (s : UInt64 × UInt64) : Follows (m.call s.1 s.2).detector s := by
  rw [call_detector]
  rcases compare_cases s.1 s.2 m.detector with ⟨_, _, hc⟩ | ⟨_, _, hc⟩ | ⟨_, _, hc⟩
  · rw [hc]; exact ⟨rfl, rfl⟩
  · rw [hc]; exact ⟨rfl, rfl⟩
  · rw [hc]; exact record_prev s.1 s.2 m.detector

theorem compare_follows {d : Detector} (hp : Follows d s) (hs : s ≠ (0, 0)) (hle : s.1 ≤ s'.1) :
    compare s'.1 s'.2 d = (.recorded (record s'.1 s'.2 d).1, (record s'.1 s'.2 d).2) := by
  rcases compare_cases s'.1 s'.2 d with ⟨he, hpass, _⟩ | ⟨_, hfall, _⟩ | ⟨_, _, hc⟩
  · exact absurd (Prod.ext (hp.1.symm.trans he) (hp.2.symm.trans hpass)) hs
  · rw [hp.1] at hfall
    exact absurd hle (UInt64.not_le.mpr hfall)
  · exact hc

theorem call_recorded (hw : Windowed m.detector (sinceWarning m.outcomes)) (hp : Follows m.detector s) (hs : s ≠ (0, 0))
    (hle : s.1 ≤ s'.1) :
    ∃ r, (m.call s'.1 s'.2).outcomes = .recorded r :: m.outcomes ∧ r.flag = decide (s'.1 - s.1 < s'.2 - s.2) ∧
      (r.warned = true ↔ Alarm (r.flag :: sinceWarning m.outcomes)) := by
  refine ⟨(record s'.1 s'.2 m.detector).1, ?_, ?_, (record_spec hw s'.1 s'.2).1⟩
  · rw [call_outcomes, compare_follows hp hs hle]
  · rw [record_flag, hp.1, hp.2]

/-- No warning is raised while `fs` is recorded on top of `flags`. -/
def Quiet (flags : List Bool) : List Bool → Prop
  | [] => True
  | f :: fs => ¬ Alarm (f :: flags) ∧ Quiet (f :: flags) fs

theorem quiet_iff (flags : List Bool) (fs : List Bool) :
    Quiet flags fs ↔ ∀ k < fs.length, ¬ Alarm ((fs.take (k + 1)).reverse ++ flags) := by
  induction fs generalizing flags with
  | nil => simp [Quiet]
  | cons f fs ih =>
    rw [Quiet, ih]
    constructor
    · intro hq k hk
      obtain ⟨hnow, hlater⟩ := hq
      cases k with
      | zero => simpa using hnow
      | succ k =>
        have hq := hlater k (by simpa using hk)
        rwa [List.take_succ_cons, List.reverse_cons, List.append_assoc]
    · intro hall
      refine ⟨by simpa using hall 0 (by simp), ?_⟩
      intro k hk
      have hq := hall (k + 1) (by simpa using hk)
      rwa [List.take_succ_cons, List.reverse_cons, List.append_assoc] at hq

def Follow (s s' : UInt64 × UInt64) : Prop := s.1 ≤ s'.1 ∧ s' ≠ (0, 0)

theorem calls_quiet : ∀ (ss : List (UInt64 × UInt64)) (m : Monitor) (s : UInt64 × UInt64),
    Windowed m.detector (sinceWarning m.outcomes) → Follows m.detector s → s ≠ (0, 0) → (s :: ss).IsChain Follow →
    ∃ os, os.length = ss.length ∧ (m.calls ss).outcomes = os ++ m.outcomes ∧
      ((∀ o ∈ os, o.warned = false) ↔ Quiet (sinceWarning m.outcomes) (shortfalls (s :: ss)))
  | [], m, s, _, _, _, _ => ⟨[], rfl, rfl, fun _ => trivial, fun _ _ ho => by cases ho⟩
  | s' :: ss, m, s, hw, hp, hs, hchain => by
    rw [List.isChain_cons_cons] at hchain
    obtain ⟨r, hout, hflag, hwarn⟩ := call_recorded hw hp hs hchain.1.1
    obtain ⟨os, hlen, happ, hquiet⟩ := calls_quiet ss (m.call s'.1 s'.2) s' (windowed_call hw s'.1 s'.2)
      (call_follows m s') hchain.1.2 hchain.2
    refine ⟨os ++ [.recorded r], by simp [hlen], ?_, ?_⟩
    · rw [List.append_assoc]
      exact happ.trans (by rw [hout]; rfl)
    rw [List.forall_mem_append, List.forall_mem_singleton, shortfalls_cons, ← hflag, Quiet, ← hwarn]
    change _ ∧ r.warned = false ↔ _
    cases hr : r.warned with
    | true => simp
    | false =>
      have hsince : sinceWarning (m.call s'.1 s'.2).outcomes = r.flag :: sinceWarning m.outcomes := by
        rw [hout, sinceWarning, hr]; rfl
      rw [hquiet, hsince]
      simp

end

/-! ## Six calls -/

def reading (decrypt : AesGcmDecrypt) (c : Table × UInt64) : UInt64 × UInt64 := (sumExecutions decrypt c.1, c.2)

theorem check_eq_calls (decrypt : AesGcmDecrypt) (m : Monitor) (cs : List (Table × UInt64)) :
    cs.foldl (Monitor.check decrypt) m = m.calls (cs.map (reading decrypt)) := by
  rw [Monitor.calls, List.foldl_map]; rfl

theorem advances_follow {ss : List (UInt64 × UInt64)} (h : ss.IsChain Advances) : ss.IsChain Follow := by
  apply h.imp
  intro s s' hadv
  refine ⟨hadv.1, fun h0 => ?_⟩
  have hlt : s.2 < s'.2 := hadv.2
  rw [h0] at hlt
  exact absurd hlt UInt64.not_lt_zero

theorem bypass_warned {m : Monitor} (hr : m.Reachable) {ss : List (UInt64 × UInt64)} (hlen : ss.length = window + 1)
    (hadv : ss.IsChain Advances) (hshort : threshold ≤ (shortfalls ss).count true) (hstart : ∀ s ∈ ss.head?, s ≠ (0, 0)) :
    ∃ o ∈ (m.calls ss).outcomes.take (window + 1), o.warned = true := by
  cases ss with
  | nil => cases hlen
  | cons s ss =>
    have hlen5 : ss.length = window := by simpa using hlen
    have hw := windowed_call (windowed_reachable hr) s.1 s.2
    obtain ⟨os, hos, happ, hquiet⟩ := calls_quiet ss (m.call s.1 s.2) s hw (call_follows m s) (hstart s rfl)
      (advances_follow hadv)
    have hcalls : m.calls (s :: ss) = (m.call s.1 s.2).calls ss := rfl
    have hwindow : (shortfalls (s :: ss)).length = window := by simp [shortfalls, hlen5]
    -- the last of the five calls finds all of them in the window
    have halarm : Alarm ((shortfalls (s :: ss)).reverse ++ sinceWarning (m.call s.1 s.2).outcomes) := by
      refine ⟨by rw [List.length_append, List.length_reverse, hwindow]; omega, ?_⟩
      rw [List.take_left' (by rw [List.length_reverse, hwindow]), List.count_reverse]
      exact hshort
    obtain ⟨o, ho, hwarned⟩ : ∃ o ∈ os, o.warned = true := by
      by_contra hnone
      have hsilent : ∀ o ∈ os, o.warned = false := fun o ho => by
        rw [← Bool.not_eq_true]
        exact fun hwarned => hnone ⟨o, ho, hwarned⟩
      have hno := (quiet_iff _ _).mp (hquiet.mp hsilent) 4 (by rw [hwindow]; decide)
      rw [List.take_of_length_le (by rw [hwindow]; decide)] at hno
      exact hno halarm
    refine ⟨o, ?_, hwarned⟩
    rw [hcalls, happ, List.take_append, List.take_of_length_le (by rw [hos, hlen5]; omega)]
    exact List.mem_append_left _ ho

/-- **A bypass is detected within six calls** over which the total of the
counters that authenticate does not fall and on at most two steps rises by the
growth of the passed packets. -/
theorem bypass_detected (decrypt : AesGcmDecrypt) {m : Monitor} (hr : m.Reachable) {cs : List (Table × UInt64)}
    (hlen : cs.length = 6) (hadv : (cs.map (reading decrypt)).IsChain Advances)
    (hshort : 3 ≤ (shortfalls (cs.map (reading decrypt))).count true)
    (hstart : ∀ c ∈ cs.head?, reading decrypt c ≠ (0, 0)) :
    ∃ o ∈ (cs.foldl (Monitor.check decrypt) m).outcomes.take 6, o.warned = true := by
  rw [check_eq_calls]
  apply bypass_warned hr (by rw [List.length_map, hlen]; rfl) hadv hshort
  intro s hs
  rw [List.head?_map, Option.mem_map] at hs
  obtain ⟨c, hc, rfl⟩ := hs
  exact hstart c hc

def readableCalls : List (Table × UInt64) :=
  [(copies 1, 1), (copies 1, 2), (copies 1, 3), (copies 1, 4), (copies 1, 5), (copies 1, 6)]

theorem bypass_detected_demo :
    ∃ o ∈ (readableCalls.foldl (Monitor.check opens100) ⟨.init, []⟩).outcomes.take 6, o.warned = true := by
  have hreadings : readableCalls.map (reading opens100) =
      [(100, 1), (100, 2), (100, 3), (100, 4), (100, 5), (100, 6)] := by decide +kernel
  apply bypass_detected opens100 .init rfl
  · rw [hreadings]; decide
  · rw [hreadings]; decide
  · intro c hc
    obtain rfl := Option.some.inj hc
    decide +kernel

/-- The counter of slot 0 is readable at every other call. -/
def flickerCalls : List (Table × UInt64) :=
  [(copies 1, 1), (copies 0, 2), (copies 1, 3), (copies 0, 4), (copies 1, 5), (copies 0, 6)]

/-- The counter of every slot is constant, packets pass, and no call warns. -/
theorem flicker_silent : flickerCalls.length = 6 ∧ (flickerCalls.map Prod.snd).IsChain (· < ·) ∧
    (∀ c ∈ flickerCalls, ∀ i, decryptCounter opens100 (c.1 i) = (0, 100) ∨
      (decryptCounter opens100 (c.1 i)).1 ≠ 0) ∧
    ∀ o ∈ (flickerCalls.foldl (Monitor.check opens100) ⟨.init, []⟩).outcomes, o.warned = false := by
  refine ⟨rfl, by decide, by decide +kernel, by decide +kernel⟩

/-! ## Which sample is taken for the baseline -/

/-- The call writes the entry `r.detected` of the window, and none other; a
warning clears the window afterwards. -/
structure Enters (d : Detector) (r : Record) (d' : Detector) : Prop where
  filled : r.filled = min window (d.filled + 1)
  count : r.count = sumHistory (Function.update d.history d.idx r.detected) r.filled
  idx : d'.idx = d.idx + 1
  history : d'.history = if r.warned then fun _ => 0 else Function.update d.history d.idx r.detected
  kept : d'.filled = if r.warned then 0 else r.filled

/-- The call with sample `s'` after sample `s` writes one entry of the window,
which says whether fewer packets were executed than passed in between. -/
def Compared (d : Detector) (s s' : UInt64 × UInt64) : Prop :=
  ∃ r d', compare s'.1 s'.2 d = (.recorded r, d') ∧
    r.detected = (if s'.1 - s.1 < s'.2 - s.2 then 1 else 0) ∧ Enters d r d'

theorem filled_le {m : Monitor} (hr : m.Reachable) : m.detector.filled ≤ window := by
  rw [(windowed_reachable hr).filled]
  exact Nat.min_le_left _ _

theorem record_enters {d : Detector} (hd : d.filled ≤ window) (executions passed : UInt64) :
    Enters d (record executions passed d).1 (record executions passed d).2 := by
  have hfilled : (written executions passed d).filled = min window (d.filled + 1) := by
    simp only [written]
    split <;> omega
  by_cases hwarn : (written executions passed d).filled = window ∧
      threshold ≤ sumHistory (written executions passed d).history (written executions passed d).filled
  · have hrec : record executions passed d = (⟨executions - d.prevExec, passed - d.prevPass, _, _, _, true⟩,
        ⟨executions, passed, fun _ => 0, d.idx + 1, 0⟩) := if_pos hwarn
    rw [hrec]
    exact ⟨hfilled, rfl, rfl, rfl, rfl⟩
  · have hrec : record executions passed d = (⟨executions - d.prevExec, passed - d.prevPass, _, _, _, false⟩,
        written executions passed d) := if_neg hwarn
    rw [hrec]
    exact ⟨hfilled, rfl, rfl, rfl, rfl⟩

/-- **A sample is compared** with the previous one exactly when that one was
not zero in both counts. -/
theorem compared_iff {m : Monitor} (hr : m.Reachable) {s s' : UInt64 × UInt64} (hle : s.1 ≤ s'.1) :
    Compared (m.call s.1 s.2).detector s s' ↔ s ≠ (0, 0) := by
  have hf := call_follows m s
  constructor
  · intro hc h0
    obtain ⟨r, d', hrec, _⟩ := hc
    rcases compare_cases s'.1 s'.2 (m.call s.1 s.2).detector with ⟨_, _, hb⟩ | ⟨hne, _, _⟩ | ⟨hne, _, _⟩
    · rw [hrec] at hb; cases hb
    · exact hne ⟨by rw [hf.1, h0], by rw [hf.2, h0]⟩
    · exact hne ⟨by rw [hf.1, h0], by rw [hf.2, h0]⟩
  · intro hne
    have hcall : (m.call s.1 s.2).Reachable := .step (a := s) hr trivial rfl
    have hentry := (record_entry s'.1 s'.2 (m.call s.1 s.2).detector).1
    rw [hf.1, hf.2] at hentry
    exact ⟨_, _, compare_follows hf hne hle, hentry, record_enters (filled_le hcall) s'.1 s'.2⟩

theorem compared_iff_demo : Compared ((⟨.init, []⟩ : Monitor).call 0 1).detector (0, 1) (0, 5) ↔
    ((0, 1) : UInt64 × UInt64) ≠ (0, 0) := by
  have hle : ((0, 1) : UInt64 × UInt64).1 ≤ ((0, 5) : UInt64 × UInt64).1 := by decide
  exact compared_iff .init hle

/-- The machine is idle at the first call, and five packets pass by the second. -/
theorem idle_not_compared : (0 : UInt64) ≤ 0 ∧
    (((⟨.init, []⟩ : Monitor).call 0 0).call 0 5).outcomes = [.baseline, .baseline] ∧
    ¬ Compared ((⟨.init, []⟩ : Monitor).call 0 0).detector (0, 0) (0, 5) := by
  refine ⟨by decide, by decide, ?_⟩
  intro hc
  obtain ⟨r, d', hrec, _⟩ := hc
  cases hrec

end P4Ubpf.Agent
