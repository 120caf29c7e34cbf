import P4Ubpf.AdjustSound
import P4Ubpf.LinkSound

/-!
# One scan reconciles the tables

Every runtime in use is named by a session, so with all entries full and one
session waiting an idle runtime is left, and otherwise `adjust_children` has
room to fork one. So every new session of a scan gets its runtime and every
lost one gives it back, and the next scan finds nothing to do.
-/

namespace P4Ubpf

open P4runtime Relation Tables

/-! ## A scan is a run -/

def phaseAt (k : ℕ) : Phase := if h : k < maxConnections then .new ⟨k, h⟩ else .top

section
variable {A : Assumption} {E : Env} {w w' : World} {fuel : ℕ}

theorem yield_reachable (hstep : ∀ v e, E.Takes v e → A.step v e) {ph : Phase} (hr : A.Reachable ⟨ph, w⟩) :
    A.Reachable ⟨ph, w.yield E⟩ := by
  apply World.yield_induct w E (I := fun v => A.Reachable ⟨ph, v⟩)
  · intro v e he hv
    have hn : launcher.next ⟨ph, v⟩ (.env e) = some ⟨ph, v.env e⟩ := by simp only [launcher, next]
    exact .step hv (a := .env e) (hstep v e he) hn
  · exact hr

theorem checkSlots_reachable (hE : A.env E) (hstep : ∀ v e, E.Takes v e → A.step v e) :
    ∀ (n k : ℕ), k + n = maxConnections → ∀ w, A.Reachable ⟨phaseAt k, w⟩ →
      checkSlots E fuel ((Slots.all maxConnections).drop k) w = some w' → A.Reachable ⟨.top, w'⟩
  | 0, k, hk, w, hr, h => by
    have hlen : (Slots.all maxConnections).length ≤ k := by rw [Slots.all, List.length_finRange]; omega
    rw [List.drop_of_length_le hlen] at h
    simp only [checkSlots, Option.some.injEq] at h
    rw [phaseAt, dif_neg (by omega)] at hr
    exact h ▸ hr
  | n + 1, k, hk, w, hr, h => by
    have hlt : k < maxConnections := by omega
    have hdrop : (Slots.all maxConnections).drop k = ⟨k, hlt⟩ :: (Slots.all maxConnections).drop (k + 1) := by
      rw [List.drop_eq_getElem_cons (by rw [Slots.all, List.length_finRange]; exact hlt)]
      simp [Slots.all]
    rw [hdrop] at h
    simp only [checkSlots, Option.bind_eq_bind, Option.bind_eq_some_iff] at h
    obtain ⟨u, hu, v, hv, h⟩ := h
    rw [phaseAt, dif_pos hlt] at hr
    have hnew : A.Reachable ⟨.lost ⟨k, hlt⟩, u⟩ := by
      refine .step (yield_reachable hstep hr) (a := .test E fuel) hE ?_
      simp only [launcher, next, hu, Option.map_some]
    have hlost : A.Reachable ⟨phaseAt (k + 1), v⟩ := by
      refine .step (yield_reachable hstep hnew) (a := .test E fuel) hE ?_
      simp only [launcher, next, hv, Option.map_some]; rfl
    exact checkSlots_reachable hE hstep n (k + 1) (by omega) v hlost h

theorem scan_reachable (hE : A.env E) (hstep : ∀ v e, E.Takes v e → A.step v e) (hr : A.Reachable ⟨.top, w⟩)
    (h : checkOvsSessions E fuel w = some w') : A.Reachable ⟨.top, w'⟩ := by
  have hbegin : A.Reachable ⟨phaseAt 0, w⟩ := .step hr (a := .beginScan) trivial rfl
  exact checkSlots_reachable hE hstep maxConnections 0 (by simp) w hbegin h

end

/-! ## In-use runtimes never outnumber served sessions -/

def unrecordedForks : Assumption where
  env := Env.NewToTable

structure Matched (w : World) : Prop extends Accounted w where
  range : w.tables.LinkRange
  named : w.tables.Named

section
variable {E : Env} {w w' : World} {fuel : ℕ} {i : Slot}

theorem matched_micro (hE : E.NewToTable) (hs : Micro E w w') (h : Matched w) : Matched w' := by
  rcases micro_move (F := NewEntry) hs h.toAccounted (fun hp => hE w hp) with hsame | hm
  · exact ⟨accounted_micro hs h.toAccounted, hsame ▸ h.range, hsame ▸ h.named⟩
  · exact ⟨accounted_micro hs h.toAccounted, linkRange_move hm h.range,
      named_move hm (fun _ hf => hf) h.inUse_present h.named⟩

theorem matched_chain (hE : E.NewToTable) (hs : ReflTransGen (Micro E) w w') (h : Matched w) : Matched w' :=
  hs.keep (fun _ _ hm hv => matched_micro hE hm hv) h

theorem matched_reachable {c : Config} (hr : unrecordedForks.Reachable c) : Matched c.world := by
  have hnamed : c.world.tables.Named := hr.tables_inv (F := NewEntry) (named_clear .initial)
    (fun _ w hE hp => hE w hp) (fun w _ ha hm hn => named_move hm (fun _ hf => hf) ha.inUse_present hn)
    (fun _ _ _ => named_clear _)
  exact ⟨accounted_reachable hr, linkRange_reachable hr, hnamed⟩

theorem inUse_le_linked (h : Matched w) :
    Slots.count (fun r : P4runtime => r.inUse = true) w.runtimesTable ≤ Slots.count (0 < ·) w.links := by
  apply Slots.count_le_of_named (fun p r => p = r.pid)
  · intro j hj
    obtain ⟨s, hs⟩ := h.named.named j hj
    exact ⟨s, lt_of_lt_of_eq (h.inUse_present j hj) hs.symm, hs⟩
  · intro p j k hj _ hpj hpk
    exact h.named.distinct j k (h.inUse_present j hj) (hpj.symm.trans hpk)

theorem exists_idle (h : Matched w) (hfull : w.runtimes = maxConnections) (hi : w.links i < 0) :
    ∃ j, (w.runtimesTable j).Idle := by
  have hlinked : Slots.count (0 < ·) w.links < maxConnections := Slots.count_lt_iff.mpr ⟨i, by omega⟩
  have hpresent : Slots.count Present w.runtimesTable = maxConnections := by
    have := h.counter; omega
  have hlt : Slots.count (fun r : P4runtime => r.inUse = true) w.runtimesTable <
      Slots.count Present w.runtimesTable := by
    rw [hpresent]; exact Nat.lt_of_le_of_lt (inUse_le_linked h) hlinked
  obtain ⟨j, hj, huse⟩ := Slots.exists_of_count_lt hlt
  exact ⟨j, hj, by simpa using huse⟩

/-! ## `adjust_children` in a scan -/

theorem adjust_idle (h : Matched w) (hf : E.ForkSucceeds) (hfuel : 0 < fuel) (hi : w.links i < 0) :
    ∃ v, adjustChildren E fuel (w.runtimes + 1) w = some v ∧ ∃ j, (v.runtimesTable j).Idle := by
  obtain ⟨v, hv, ha⟩ : ∃ v, adjustChildren E fuel (w.runtimes + 1) w = some v ∧ Adjusted (w.runtimes + 1) w v :=
    adjust_adjusted h.toAccounted hf (by omega)
  refine ⟨v, hv, ?_⟩
  by_cases hfull : w.runtimes = maxConnections
  · obtain ⟨j, hj⟩ := exists_idle h hfull hi
    exact ⟨j, by rw [(ha.grown (by omega)).kept j hj.1]; exact hj⟩
  · have hle := runtimes_le h.toAccounted
    have heq := runtimes_eq h.toAccounted
    have heq' := runtimes_eq (accounted_adjust h.toAccounted hv)
    have hrun := ha.runtimes
    rw [ha.inUseCount_eq] at heq'
    exact Slots.count_pos.mp (show 0 < idleCount v by omega)

theorem adjust_down (E : Env) (fuel : ℕ) (w : World) : ∃ v, adjustChildren E fuel (w.runtimes - 1) w = some v := by
  rw [adjustChildren, if_neg (by omega)]
  refine ⟨shrinkLoop E (if (maxConnections : Int) < w.runtimes - 1 then maxConnections else w.runtimes - 1)
    (Slots.all _) w, ?_⟩
  simp only
  split
  · rw [if_neg (by omega)]
  · rw [if_neg (by omega)]

/-! ## The tests of one slot -/

def Settled (w : World) (i : Slot) : Prop :=
  (0 < (w.sessionTable i).ovsThreadId → 0 < (w.sessionTable i).p4runtimeId) ∧
  ((w.sessionTable i).ovsThreadId < 0 → (w.sessionTable i).p4runtimeId < 0)

/-- From `w` to `v` the scan works on slot `i` and finds its runtimes. -/
structure Works (i : Slot) (w v : World) : Prop where
  matched : Matched v
  ovs : (v.sessionTable i).ovsThreadId = (w.sessionTable i).ovsThreadId
  others : ∀ j, j ≠ i → v.sessionTable j = w.sessionTable j
  adds : w.Adds (· ≠ .noFreeRuntime) v

theorem Works.trans {u v w : World} (h₁ : Works i u v) (h₂ : Works i v w) : Works i u w :=
  ⟨h₂.matched, h₂.ovs.trans h₁.ovs, fun j hj => (h₂.others j hj).trans (h₁.others j hj), h₁.adds.trans h₂.adds⟩

theorem works_same (h : Matched w') (hs : w'.sessionTable = w.sessionTable) (ha : w.Adds (· ≠ .noFreeRuntime) w') :
    Works i w w' :=
  ⟨h, by rw [hs], fun j _ => by rw [hs], ha⟩

theorem works_pool (hE : E.NewToTable) (hq : E.OvsQuiet) (h : Matched w) (hs : ReflTransGen (PoolStep E) w w') :
    Works i w w' := by
  apply works_same (matched_chain hE (pool_micro hs) h) (pool_session hq hs)
  obtain ⟨es, htr, hes⟩ := pool_adds hs
  refine ⟨es, htr, ?_⟩
  intro e he hnone
  rw [hnone] at he
  cases hes _ he

theorem works_note (hE : E.NewToTable) (h : Matched w) {e : Event} (hn : e.isNote = true) (he : e ≠ .noFreeRuntime) :
    Works i w (w.log e) :=
  works_same (matched_micro hE (.note hn) h) rfl (.one rfl he)

theorem works_link (hE : E.NewToTable) (h : Matched w) {j : Slot} (hj : (w.runtimesTable j).Idle) (hi : w.links i < 0) :
    Works i w (link j i w) ∧ 0 < ((link j i w).sessionTable i).p4runtimeId := by
  refine ⟨⟨matched_micro hE (.link hj hi) h, ?_, fun k hk => link_session i w j hk, .one rfl Event.noConfusion⟩, ?_⟩
  · rw [link_self]
  · rw [link_self]
    exact hj.1

theorem works_unlink (hE : E.NewToTable) (h : Matched w) (hi : 0 < w.links i) : Works i w (unlink i w) := by
  refine ⟨matched_micro hE (.unlink hi) h, ?_, fun k hk => unlink_session i w hk, .same (unlink_trace i w)⟩
  rw [unlink_self]

theorem linkAdd_works (hE : E.NewToTable) (hf : E.ForkSucceeds) (hq : E.OvsQuiet) (hfuel : 0 < fuel) (h : Matched w)
    (hi : w.links i < 0) :
    ∃ v, linkAdd E fuel i w = some v ∧ Works i w v ∧ 0 < (v.sessionTable i).p4runtimeId := by
  obtain ⟨u, hu, k, hk⟩ := adjust_idle h hf hfuel hi
  have hpool := (adjust_pool hu).trans (yield_pool E u)
  have hworks : Works i w (u.yield E) := works_pool hE hq h hpool
  have hk' : ((u.yield E).runtimesTable k).Idle := by rw [World.yield_table]; exact hk
  obtain ⟨j, hj⟩ := Slots.exists_first? hk'
  have hfind : findFreeRuntimeIndex (u.yield E) = some j := hj
  obtain ⟨hlink, hpos⟩ := works_link hE hworks.matched (findFree_idle hfind)
    (by rw [pool_links hpool]; exact hi)
  refine ⟨link j i (u.yield E), ?_, hworks.trans hlink, hpos⟩
  simp only [linkAdd, hu, Option.bind_eq_bind, Option.bind_some, hfind]

theorem linkDel_works (hE : E.NewToTable) (hq : E.OvsQuiet) (fuel : ℕ) (h : Matched w) (hi : 0 < w.links i) :
    ∃ v, linkDel E fuel i w = some v ∧ Works i w v ∧ (v.sessionTable i).p4runtimeId < 0 := by
  obtain ⟨v, hv⟩ := adjust_down E fuel (unlink i w)
  rw [unlink_runtimes] at hv
  have hworks : Works i w (unlink i w) := works_unlink hE h hi
  have hlinks : v.links i = -1 := by rw [pool_links (adjust_pool hv), unlink_links, Function.update_self]
  refine ⟨v, hv, hworks.trans (works_pool hE hq hworks.matched (adjust_pool hv)), ?_⟩
  have hneg : v.links i < 0 := by omega
  exact hneg

theorem checkNew_works (hE : E.NewToTable) (hf : E.ForkSucceeds) (hq : E.OvsQuiet) (hfuel : 0 < fuel) (h : Matched w)
    (i : Slot) : ∃ v, checkNew E fuel i w = some v ∧ Works i w v ∧
      (0 < (v.sessionTable i).ovsThreadId → 0 < (v.sessionTable i).p4runtimeId) := by
  unfold checkNew
  by_cases hg : 0 < (w.sessionTable i).ovsThreadId ∧ (w.sessionTable i).p4runtimeId < 0
  · rw [if_pos hg]
    have hlog : Works i w (w.log (.foundNew (w.sessionTable i).ovsThreadId i)) :=
      works_note hE h rfl Event.noConfusion
    obtain ⟨v, hv, hw, hpos⟩ := linkAdd_works hE hf hq hfuel hlog.matched (i := i) hg.2
    exact ⟨v, hv, hlog.trans hw, fun _ => hpos⟩
  · rw [if_neg hg]
    refine ⟨w, rfl, works_same h rfl (.same rfl), ?_⟩
    intro hovs
    have hrange : (w.sessionTable i).p4runtimeId = -1 ∨ 0 < (w.sessionTable i).p4runtimeId := h.range i
    omega

theorem checkLost_works (hE : E.NewToTable) (hq : E.OvsQuiet) (fuel : ℕ) (h : Matched w) (i : Slot)
    (hnew : 0 < (w.sessionTable i).ovsThreadId → 0 < (w.sessionTable i).p4runtimeId) :
    ∃ v, checkLost E fuel i w = some v ∧ Works i w v ∧ Settled v i := by
  unfold checkLost
  by_cases hg : (w.sessionTable i).ovsThreadId < 0 ∧ 0 < (w.sessionTable i).p4runtimeId
  · rw [if_pos hg]
    have hlog : Works i w (w.log (.foundLost (w.sessionTable i).p4runtimeId i)) :=
      works_note hE h rfl Event.noConfusion
    obtain ⟨v, hv, hw, hneg⟩ := linkDel_works hE hq fuel hlog.matched (i := i) hg.2
    have hall := hlog.trans hw
    refine ⟨v, hv, hall, ?_, fun _ => hneg⟩
    intro hovs
    rw [hall.ovs] at hovs
    omega
  · rw [if_neg hg]
    refine ⟨w, rfl, works_same h rfl (.same rfl), hnew, ?_⟩
    intro hovs
    have hrange : (w.sessionTable i).p4runtimeId = -1 ∨ 0 < (w.sessionTable i).p4runtimeId := h.range i
    omega

/-! ## The whole scan -/

theorem checkSlots_settles (hE : E.NewToTable) (hf : E.ForkSucceeds) (hq : E.OvsQuiet) (hfuel : 0 < fuel) :
    ∀ (is : List Slot) (w : World), Matched w → ∃ v, checkSlots E fuel is w = some v ∧
      (∀ i ∈ is, Settled v i) ∧ (∀ i, i ∉ is → v.sessionTable i = w.sessionTable i) ∧
      (∀ i, (v.sessionTable i).ovsThreadId = (w.sessionTable i).ovsThreadId) ∧ w.Adds (· ≠ .noFreeRuntime) v
  | [], w, _ => ⟨w, rfl, fun _ h => (List.not_mem_nil h).elim, fun _ _ => rfl, fun _ => rfl, .same rfl⟩
  | i :: is, w, h => by
    have hy : Works i w (w.yield E) := works_pool hE hq h (yield_pool E w)
    obtain ⟨u, hu, hwu, hnew⟩ := checkNew_works hE hf hq hfuel hy.matched i
    have hyu : Works i u (u.yield E) := works_pool hE hq hwu.matched (yield_pool E u)
    obtain ⟨v, hv, hwv, hset⟩ := checkLost_works hE hq fuel hyu.matched i (by rw [yield_session hq]; exact hnew)
    have hslot : Works i w v := hy.trans (hwu.trans (hyu.trans hwv))
    obtain ⟨x, hx, hin, hout, hovs, hadds⟩ := checkSlots_settles hE hf hq hfuel is v hslot.matched
    refine ⟨x, ?_, ?_, ?_, ?_, hslot.adds.trans hadds⟩
    · simp only [checkSlots, hu, hv, hx, Option.bind_eq_bind, Option.bind_some]
    · intro j hj
      by_cases hjs : j ∈ is
      · exact hin j hjs
      · have hji : j = i := (List.mem_cons.mp hj).resolve_right hjs
        rw [Settled, hout j hjs, hji]
        exact hset
    · intro j hj
      rw [List.mem_cons, not_or] at hj
      rw [hout j hj.2, hslot.others j hj.1]
    · intro j
      rw [hovs j]
      by_cases hji : j = i
      · rw [hji, hslot.ovs]
      · rw [hslot.others j hji]

theorem checkSlots_quiet (hq : E.OvsQuiet) (fuel : ℕ) : ∀ (is : List Slot) (w : World), (∀ i, Settled w i) →
    ∃ v, checkSlots E fuel is w = some v ∧ v.trace = w.trace ∧ v.sessionTable = w.sessionTable ∧
      v.runtimesTable = w.runtimesTable ∧ v.runtimes = w.runtimes
  | [], w, _ => ⟨w, rfl, rfl, rfl, rfl, rfl⟩
  | i :: is, w, h => by
    have hy : (w.yield E).sessionTable = w.sessionTable := yield_session hq w
    have hyy : ((w.yield E).yield E).sessionTable = w.sessionTable := (yield_session hq _).trans hy
    have hsettled : ∀ j, Settled ((w.yield E).yield E) j := by
      intro j; rw [Settled, hyy]; exact h j
    have hnew : checkNew E fuel i (w.yield E) = some (w.yield E) := by
      rw [checkNew, if_neg (by have := (h i).1; rw [hy]; omega)]
    have hlost : checkLost E fuel i ((w.yield E).yield E) = some ((w.yield E).yield E) := by
      rw [checkLost, if_neg (by have := (h i).2; rw [hyy]; omega)]
    obtain ⟨v, hv, htr, hsess, htab, hrun⟩ := checkSlots_quiet hq fuel is _ hsettled
    refine ⟨v, ?_, ?_, ?_, ?_, ?_⟩
    · simp only [checkSlots, hnew, hlost, hv, Option.bind_eq_bind, Option.bind_some]
    · rw [htr]; simp
    · rw [hsess, hyy]
    · rw [htab]; simp
    · rw [hrun]; simp

end

/-- **Reconciliation converges in one scan.** -/
theorem scan_converges {E : Env} {fuel : ℕ} {w : World} (hr : unrecordedForks.Reachable ⟨.top, w⟩)
    (hE : E.NewToTable) (hf : E.ForkSucceeds) (hq : E.OvsQuiet) (hfuel : 0 < fuel) :
    ∃ w', checkOvsSessions E fuel w = some w' ∧
      (∃ es, w'.trace = es ++ w.trace ∧ .noFreeRuntime ∉ es) ∧
      (∀ i, (w'.sessionTable i).ovsThreadId = (w.sessionTable i).ovsThreadId) ∧
      (∀ i, (0 < (w'.sessionTable i).ovsThreadId → 0 < (w'.sessionTable i).p4runtimeId) ∧
        ((w'.sessionTable i).ovsThreadId < 0 → (w'.sessionTable i).p4runtimeId < 0)) ∧
      ∀ (E' : Env) (fuel' : ℕ), E'.OvsQuiet → ∃ w'', checkOvsSessions E' fuel' w' = some w'' ∧
        w''.trace = w'.trace ∧ w''.sessionTable = w'.sessionTable ∧ w''.runtimesTable = w'.runtimesTable ∧
        w''.runtimes = w'.runtimes := by
  have hm : Matched w := matched_reachable hr
  obtain ⟨w', hscan, hset, _, hovs, es, htr, hes⟩ := checkSlots_settles hE hf hq hfuel (Slots.all _) w hm
  have hsettled : ∀ i, Settled w' i := fun i => hset i (Slots.mem_all i)
  refine ⟨w', hscan, ⟨es, htr, fun he => hes _ he rfl⟩, hovs, hsettled, ?_⟩
  intro E' fuel' hq'
  exact checkSlots_quiet hq' fuel' (Slots.all _) w' hsettled

def churnActs : List Act := demoActs ++ [.env (.ovsWrite 0 (-1)), .env (.ovsWrite 1 8)]

theorem churn_ideal : ∀ a ∈ churnActs, a.Ideal :=
  List.forall_mem_append.mpr ⟨demo_ideal, by simp⟩

theorem scan_converges_demo : ∃ w, launcher.run launcher.init churnActs = some ⟨.top, w⟩ ∧
    ∃ w', checkOvsSessions idealEnv 1 w = some w' ∧
      (∃ es, w'.trace = es ++ w.trace ∧ .noFreeRuntime ∉ es) ∧
      (∀ i, (w'.sessionTable i).ovsThreadId = (w.sessionTable i).ovsThreadId) ∧
      (∀ i, (0 < (w'.sessionTable i).ovsThreadId → 0 < (w'.sessionTable i).p4runtimeId) ∧
        ((w'.sessionTable i).ovsThreadId < 0 → (w'.sessionTable i).p4runtimeId < 0)) ∧
      ∀ (E' : Env) (fuel' : ℕ), E'.OvsQuiet → ∃ w'', checkOvsSessions E' fuel' w' = some w'' ∧
        w''.trace = w'.trace ∧ w''.sessionTable = w'.sessionTable ∧ w''.runtimesTable = w'.runtimesTable ∧
        w''.runtimes = w'.runtimes := by
  have htop : ∃ c, launcher.run launcher.init churnActs = some c ∧ c.phase = .top := Lts.run_any (by decide +kernel)
  obtain ⟨⟨ph, w⟩, hc, rfl⟩ := htop
  have hr : unrecordedForks.Reachable ⟨.top, w⟩ :=
    ideal_reachable (A := unrecordedForks) ideal_newToTable (fun _ _ _ => trivial) churn_ideal hc
  exact ⟨w, hc, scan_converges hr ideal_newToTable ideal_succeeds ideal_ovsQuiet (by decide)⟩

end P4Ubpf
