import Mathlib.Data.List.TakeWhile
import P4Ubpf.SilenceSound

/-!
# False alarms on an honest switch

The detector compares what happened since the previous call, so a backlog of
executed packets that drains looks like a shortage of executions. The runs
that warn are those in which it shrinks three times in five calls.
-/

namespace P4Ubpf.Agent

/-! ## Runs without a warning -/

def Sparse (fs : List Bool) : Prop :=
  ∀ k, k + window ≤ fs.length → ((fs.drop k).take window).count true < threshold

theorem quiet_iff_sparse (fs : List Bool) : Quiet [] fs ↔ Sparse fs := by
  have hlast : ∀ k, k + window ≤ fs.length →
      ((fs.take (k + window)).reverse.take window).count true = ((fs.drop k).take window).count true := by
    intro k hk
    rw [List.take_reverse, List.count_reverse, List.length_take, min_eq_left hk, List.drop_take,
      Nat.add_sub_cancel, Nat.add_sub_cancel_left]
  rw [quiet_iff]
  constructor
  · intro hq k hk
    have hno := hq (k + 4) (by have : window = 5 := rfl; omega)
    rw [List.append_nil, show k + 4 + 1 = k + window from rfl] at hno
    by_contra hc
    apply hno
    refine ⟨by rw [List.length_reverse, List.length_take]; omega, ?_⟩
    rw [hlast k hk]; omega
  · intro hs k hk ha
    obtain ⟨hlen, hcount⟩ := ha
    rw [List.append_nil] at hlen hcount
    rw [List.length_reverse, List.length_take] at hlen
    obtain ⟨j, rfl⟩ : ∃ j, k = j + 4 := ⟨k - 4, by have : window = 5 := rfl; omega⟩
    have hj : j + window ≤ fs.length := by have : window = 5 := rfl; omega
    rw [show j + 4 + 1 = j + window from rfl, hlast j hj] at hcount
    have hlt := hs j hj
    omega

def Monitor.Silent (m : Monitor) : Prop := ∀ o ∈ m.outcomes, o.warned = false

section
variable {m : Monitor} {s s' : UInt64 × UInt64}

theorem calls_silent_iff {ss : List (UInt64 × UInt64)} (hw : Windowed m.detector (sinceWarning m.outcomes))
    (hp : Follows m.detector s) (hs : s ≠ (0, 0)) (hchain : (s :: ss).IsChain Follow) :
    (m.calls ss).Silent ↔ m.Silent ∧ Quiet (sinceWarning m.outcomes) (shortfalls (s :: ss)) := by
  obtain ⟨os, _, happ, hquiet⟩ := calls_quiet ss m s hw hp hs hchain
  rw [Monitor.Silent, happ, List.forall_mem_append, hquiet, and_comm]; rfl

/-! ## Leading samples that read nothing -/

structure Untouched (m : Monitor) : Prop where
  silent : m.Silent
  empty : sinceWarning m.outcomes = []
  windowed : Windowed m.detector []

theorem untouched_init : Untouched ⟨.init, []⟩ :=
  ⟨fun _ ho => (List.not_mem_nil ho).elim, rfl, RingBuffer.holds_clear ⟨fun _ => 0, 0⟩ 0, rfl⟩

theorem untouched_baseline (h : Untouched m) (hp : Follows m.detector (0, 0)) (s : UInt64 × UInt64) :
    Untouched (m.call s.1 s.2) := by
  have hb : compare s.1 s.2 m.detector = (.baseline, m.detector.follow s.1 s.2) := if_pos hp
  have hout : (m.call s.1 s.2).outcomes = .baseline :: m.outcomes := by rw [call_outcomes, hb]
  refine ⟨?_, ?_, ?_⟩
  · rw [Monitor.Silent, hout, List.forall_mem_cons]
    exact ⟨rfl, h.silent⟩
  · rw [hout]; exact h.empty
  · rw [call_detector, hb]
    exact windowed_follow h.windowed s.1 s.2

theorem untouched_zeros {ss : List (UInt64 × UInt64)} (hss : ∀ s ∈ ss, s = (0, 0)) (h : Untouched m)
    (hp : Follows m.detector (0, 0)) : Untouched (m.calls ss) ∧ Follows (m.calls ss).detector (0, 0) := by
  induction ss generalizing m with
  | nil => exact ⟨h, hp⟩
  | cons s ss ih =>
    obtain rfl : s = (0, 0) := hss s List.mem_cons_self
    exact ih (fun s hs => hss s (List.mem_cons_of_mem _ hs)) (untouched_baseline h hp (0, 0)) (call_follows m (0, 0))

theorem calls_append (m : Monitor) (ss ss' : List (UInt64 × UInt64)) : m.calls (ss ++ ss') = (m.calls ss).calls ss' :=
  List.foldl_append

end

/-! ## Honest runs -/

/-- The executed packets that the VM has not counted yet. -/
def inFlight (s : UInt64 × UInt64) : ℕ := s.1.toNat - s.2.toNat

structure Honest (bound : ℕ) (ss : List (UInt64 × UInt64)) : Prop where
  monotone : ss.IsChain fun s s' => s.1 ≤ s'.1 ∧ s.2 ≤ s'.2
  executed : ∀ s ∈ ss, s.2 ≤ s.1
  bounded : ∀ s ∈ ss, s.1.toNat ≤ s.2.toNat + bound

/-- Whether each sample after the first one that reads something has fewer
packets in flight than the one before it. -/
def drains (ss : List (UInt64 × UInt64)) : List Bool :=
  ((ss.dropWhile (· = (0, 0))).zip (ss.dropWhile (· = (0, 0))).tail).map fun p =>
    decide (inFlight p.2 < inFlight p.1)

section
variable {s s' : UInt64 × UInt64} {ss : List (UInt64 × UInt64)} {bound : ℕ}

theorem shortfall_iff (h₁ : s.1 ≤ s'.1) (h₂ : s.2 ≤ s'.2) (hs : s.2 ≤ s.1) (hs' : s'.2 ≤ s'.1) :
    s'.1 - s.1 < s'.2 - s.2 ↔ inFlight s' < inFlight s := by
  rw [UInt64.lt_iff_toNat_lt, UInt64.toNat_sub_of_le _ _ h₁, UInt64.toNat_sub_of_le _ _ h₂]
  rw [UInt64.le_iff_toNat_le] at h₁ h₂ hs hs'
  unfold inFlight
  omega

theorem shortfalls_honest (h : Honest bound ss) : shortfalls ss =
    (ss.zip ss.tail).map fun p => decide (inFlight p.2 < inFlight p.1) := by
  induction ss with
  | nil => rfl
  | cons s ss ih =>
    cases ss with
    | nil => rfl
    | cons s' ss =>
      have hchain := List.isChain_cons_cons.mp h.monotone
      have htail : Honest bound (s' :: ss) :=
        ⟨hchain.2, fun a ha => h.executed a (List.mem_cons_of_mem _ ha),
          fun a ha => h.bounded a (List.mem_cons_of_mem _ ha)⟩
      rw [shortfalls_cons, ih htail]
      have hiff := shortfall_iff hchain.1.1 hchain.1.2 (h.executed s (by simp)) (h.executed s' (by simp))
      simp [hiff]

theorem Honest.drop (h : Honest bound ss) (p : UInt64 × UInt64 → Bool) : Honest bound (ss.dropWhile p) := by
  have hsub : ∀ s ∈ ss.dropWhile p, s ∈ ss := fun s hs => (List.dropWhile_suffix p).subset hs
  exact ⟨h.monotone.suffix (List.dropWhile_suffix p), fun s hs => h.executed s (hsub s hs),
    fun s hs => h.bounded s (hsub s hs)⟩

theorem follow_chain (h : Honest bound (s :: ss)) (hs : s ≠ (0, 0)) : (s :: ss).IsChain Follow := by
  induction ss generalizing s with
  | nil => exact List.isChain_singleton s
  | cons s' ss ih =>
    have hchain := List.isChain_cons_cons.mp h.monotone
    have hs' : s' ≠ (0, 0) := by
      intro h0
      obtain ⟨h₁, h₂⟩ := hchain.1
      rw [h0] at h₁ h₂
      exact hs (Prod.ext (UInt64.le_zero_iff.mp h₁) (UInt64.le_zero_iff.mp h₂))
    apply List.isChain_cons_cons.mpr
    refine ⟨⟨hchain.1.1, hs'⟩, ih ?_ hs'⟩
    exact ⟨hchain.2, fun a ha => h.executed a (List.mem_cons_of_mem _ ha),
      fun a ha => h.bounded a (List.mem_cons_of_mem _ ha)⟩

theorem honest_silent_iff (h : Honest bound ss) : ((⟨.init, []⟩ : Monitor).calls ss).Silent ↔ Sparse (drains ss) := by
  have hz : ∀ s ∈ ss.takeWhile (· = (0, 0)), s = (0, 0) := fun s hs => by simpa using List.mem_takeWhile_imp hs
  obtain ⟨huntouched, hfollows⟩ := untouched_zeros hz untouched_init ⟨rfl, rfl⟩
  have hsplit : ((⟨.init, []⟩ : Monitor).calls ss) =
      (((⟨.init, []⟩ : Monitor).calls (ss.takeWhile (· = (0, 0)))).calls (ss.dropWhile (· = (0, 0)))) := by
    rw [← calls_append, List.takeWhile_append_dropWhile]
  have hdrop := h.drop (· = (0, 0))
  have hdrains := shortfalls_honest hdrop
  rw [hsplit, drains, ← hdrains]
  generalize (⟨.init, []⟩ : Monitor).calls (ss.takeWhile (· = (0, 0))) = m at *
  cases hrest : ss.dropWhile (· = (0, 0)) with
  | nil =>
    refine ⟨fun _ k hk => ?_, fun _ => huntouched.silent⟩
    have hpos : 0 < window := by decide
    have hlen : (shortfalls []).length = 0 := rfl
    omega
  | cons s rest =>
    have hs : s ≠ (0, 0) := by
      intro h0
      have hhead := List.head?_dropWhile_not (· = ((0 : UInt64), (0 : UInt64))) ss
      rw [hrest] at hhead
      simp [h0] at hhead
    rw [hrest] at hdrop
    -- the first of these samples is the baseline
    have hfirst := untouched_baseline huntouched hfollows s
    have hcalls : m.calls (s :: rest) = (m.call s.1 s.2).calls rest := rfl
    have hw : Windowed (m.call s.1 s.2).detector (sinceWarning (m.call s.1 s.2).outcomes) := by
      rw [hfirst.empty]; exact hfirst.windowed
    rw [hcalls, calls_silent_iff hw (call_follows m s) hs (follow_chain hdrop hs), hfirst.empty, quiet_iff_sparse]
    exact ⟨fun hx => hx.2, fun hx => ⟨hfirst.silent, hx⟩⟩

theorem drains_zero (h : Honest 0 ss) : Sparse (drains ss) := by
  have hnone : ∀ b ∈ drains ss, b = false := by
    intro b hb
    obtain ⟨p, hp, rfl⟩ := List.mem_map.mp hb
    have hmem : p.1 ∈ ss := (List.dropWhile_suffix _).subset (List.of_mem_zip hp).1
    have hle := h.bounded p.1 hmem
    have hzero : inFlight p.1 = 0 := by unfold inFlight; omega
    simp [hzero]
  intro k _
  have hcount : (((drains ss).drop k).take window).count true = 0 := by
    apply List.count_eq_zero.mpr
    intro hmem
    cases hnone true (List.mem_of_mem_drop (List.mem_of_mem_take hmem))
  rw [hcount]
  decide

end

/-! ## The runs that warn -/

/-- **An honest run is silent** exactly when the packets in flight become fewer
at most twice in any five consecutive calls, counted from the first sample that
reads something. -/
theorem honest_run_silent_iff (decrypt : AesGcmDecrypt) {bound : ℕ} {cs : List (Table × UInt64)}
    (h : Honest bound (cs.map (reading decrypt))) :
    ((∀ o ∈ (cs.foldl (Monitor.check decrypt) ⟨.init, []⟩).outcomes, o.warned = false) ↔
      Sparse (drains (cs.map (reading decrypt)))) ∧
    (bound = 0 → ∀ o ∈ (cs.foldl (Monitor.check decrypt) ⟨.init, []⟩).outcomes, o.warned = false) := by
  have hiff := honest_silent_iff h
  rw [← check_eq_calls] at hiff
  refine ⟨hiff, ?_⟩
  intro hbound
  subst hbound
  exact hiff.mpr (drains_zero h)

/-- The counter 100, sealed for each slot with an IV of its own. -/
def slotCount : Table := fun i => ⟨Vector.replicate 16 (UInt8.ofNat i), Vector.replicate 8 7, Vector.replicate 16 1⟩

def opensSlots : AesGcmDecrypt := fun cipherText iv authTag _ =>
  if (Slots.all maxConnections).any fun i => (⟨iv, cipherText, authTag⟩ : PacketCount) = slotCount i then
    (0, (Vector.replicate 8 0).set! 0 100)
  else (-180, cipherText)

theorem opens_slots (i : Fin maxConnections) : decryptCounter opensSlots (slotCount i) = (0, 100) := by
  have hopen : opensSlots (slotCount i).cipherText (slotCount i).iv (slotCount i).authTag [] =
      (0, (Vector.replicate 8 0).set! 0 100) := if_pos (List.any_eq_true.mpr ⟨i, Slots.mem_all i, by simp⟩)
  rw [decryptCounter, hopen]
  decide

theorem sum_slots : sumExecutions opensSlots slotCount = 3200 := by
  have hadd : ∀ executions i, addCounter opensSlots executions (slotCount i) = executions + 100 := by
    intro executions i
    rw [addCounter, opens_slots]; rfl
  simp only [sumExecutions, hadd]
  decide +kernel

def slotCalls (passed : List UInt64) : List (Table × UInt64) := passed.map fun n => (slotCount, n)

theorem slot_readings (passed : List UInt64) :
    (slotCalls passed).map (reading opensSlots) = passed.map fun n => (3200, n) := by
  rw [slotCalls, List.map_map]
  apply List.map_congr_left
  intro n _
  simp [reading, sum_slots]

theorem slots_honest {bound : ℕ} {passed : List UInt64} (hchain : passed.IsChain (· ≤ ·))
    (hin : (passed.all fun n => n ≤ 3200 && (3200 : ℕ) ≤ n.toNat + bound) = true) :
    Honest bound ((slotCalls passed).map (reading opensSlots)) := by
  rw [slot_readings]
  simp only [List.all_eq_true, Bool.and_eq_true, decide_eq_true_eq] at hin
  refine ⟨?_, ?_, ?_⟩
  · rw [List.isChain_map]
    exact hchain.imp fun _ _ hle => ⟨UInt64.le_refl _, hle⟩
  · intro s hs
    obtain ⟨n, hn, rfl⟩ := List.mem_map.mp hs
    exact (hin n hn).1
  · intro s hs
    obtain ⟨n, hn, rfl⟩ := List.mem_map.mp hs
    exact (hin n hn).2

theorem honest_run_silent_iff_demo :
    ((slotCalls [3195, 3195, 3196, 3196, 3197, 3197]).foldl (Monitor.check opensSlots) ⟨.init, []⟩).Silent := by
  have hreadings := slot_readings [3195, 3195, 3196, 3196, 3197, 3197]
  have hhonest : Honest 5 ((slotCalls [3195, 3195, 3196, 3196, 3197, 3197]).map (reading opensSlots)) :=
    slots_honest (by decide) (by decide)
  apply (honest_run_silent_iff opensSlots hhonest).1.mpr
  rw [hreadings]
  intro k hk
  have hlen : (drains ([3195, 3195, 3196, 3196, 3197, 3197].map fun n => ((3200, n) : UInt64 × UInt64))).length =
      window := by decide
  obtain rfl : k = 0 := by omega
  decide

/-- 3200 packets were executed, five of them still in flight, and these are
counted one by one over the next five calls. -/
theorem draining_warned :
    (∀ c ∈ slotCalls [3195, 3196, 3197, 3198, 3199, 3200], ∀ i, (decryptCounter opensSlots (c.1 i)).1 = 0) ∧
    Honest 5 ((slotCalls [3195, 3196, 3197, 3198, 3199, 3200]).map (reading opensSlots)) ∧
    ∃ o ∈ ((slotCalls [3195, 3196, 3197, 3198, 3199, 3200]).foldl (Monitor.check opensSlots) ⟨.init, []⟩).outcomes,
      o.warned = true := by
  have hreadings := slot_readings [3195, 3196, 3197, 3198, 3199, 3200]
  refine ⟨?_, ?_, ?_⟩
  · intro c hc i
    obtain ⟨n, _, rfl⟩ := List.mem_map.mp hc
    rw [opens_slots]
  · exact slots_honest (by decide) (by decide)
  · rw [check_eq_calls, hreadings]; decide +kernel

end P4Ubpf.Agent
