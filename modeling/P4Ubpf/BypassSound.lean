import P4Ubpf.FrozenSound
import P4Ubpf.MachineSound

/-!
# The counts on the machine

To the agent, a run of the machine is a run of its own beside parties that
store bytes here and there. The launcher and OVS store no counts, so what the
agent adds up is what the P4 runtimes have stored, and nobody can hide from it
that they have stopped.
-/

namespace P4Ubpf

/-! ## What the agent sees of a run -/

def MachineAct.file : MachineAct → Option (List UInt8)
  | .agent a => a.file
  | _ => none

def MachineAct.counts : MachineAct → Bool
  | .runtime _ _ _ => true
  | _ => false

structure Sees (a : MachineAct) (bs : List Agent.Act) : Prop where
  files : bs.filterMap Agent.Act.file = a.file.toList
  spares : a.counts = false → ∀ b ∈ bs, b.SparesCounts

theorem sees_stores {a : MachineAct} {ps : Stores} (hfile : a.file = none)
    (h : a.counts = false → ∀ p ∈ ps, OffOthers p.1) : Sees a (ps.map fun p => .other p.1 p.2) where
  files := by
    rw [hfile]
    refine List.filterMap_eq_nil_iff.mpr fun b hb => ?_
    obtain ⟨p, _, rfl⟩ := List.mem_map.mp hb
    rfl
  spares := fun hc b hb => by
    obtain ⟨p, hp, rfl⟩ := List.mem_map.mp hb
    exact fun i hi => (h hc p hp).2 ⟨i, hi⟩

theorem sees_agent {a : Agent.Act} (h : ∀ x b, a ≠ .other x b) : Sees (.agent a) [a] where
  files := by
    show [a].filterMap Agent.Act.file = a.file.toList
    cases hf : a.file with
    | none => exact List.filterMap_cons_none hf
    | some f => exact List.filterMap_cons_some hf
  spares := fun _ => List.forall_mem_singleton.mpr (by
    cases a with
    | other x b => exact absurd rfl (h x b)
    | _ => trivial)

section
variable {P : Agent.Platform} {m₀ : Memory UInt8} {s s' : Machine} {as : List MachineAct}

theorem agent_sees (m₀ : Memory UInt8) (s : Machine) (a : MachineAct) (s' : Machine)
    (h : Machine.next P s a = some s') :
    ∃ bs, Sees a bs ∧ (Agent.agent P m₀).run s.agent bs = some s'.agent := by
  cases machine_inv h with
  | @initTable g cs => exact ⟨_, sees_stores rfl fun _ _ hp => initStores_off hp, write_run g initStores⟩
  | @launcher c c' g cs a _ => exact ⟨_, sees_stores rfl fun _ _ hp => stores_off hp, write_run g (stores c a)⟩
  | @agent l g g' cs a ha hg => exact ⟨[a], sees_agent ha, Lts.run_step hg []⟩
  | @runtime l g cs idx k b _ =>
    exact ⟨_, sees_stores rfl fun hc => (by cases hc), write_run g [(packetCountAddr idx + k, b)]⟩

theorem sees_all {bss : List (List Agent.Act)} (h : List.Forall₂ Sees as bss) :
    bss.flatten.filterMap Agent.Act.file = as.filterMap MachineAct.file ∧
    ((∀ a ∈ as, a.counts = false) → ∀ b ∈ bss.flatten, b.SparesCounts) := by
  induction h with
  | nil => exact ⟨rfl, fun _ b hb => (by cases hb)⟩
  | @cons a bs as bss hs _ ih =>
    refine ⟨?_, fun hc b hb => ?_⟩
    · rw [List.flatten_cons, List.filterMap_append, ih.1, hs.files]
      cases hf : a.file with
      | none => rw [List.filterMap_cons_none hf]; rfl
      | some f => rw [List.filterMap_cons_some hf]; rfl
    · obtain ⟨ha, has⟩ := List.forall_mem_cons.mp hc
      rcases List.mem_append.mp hb with hb | hb
      · exact hs.spares ha b hb
      · exact ih.2 has b hb

theorem machine_seen (h : (machine P m₀).run s as = some s') :
    ∃ bs, (Agent.agent P m₀).run s.agent bs = some s'.agent ∧
      bs.filterMap Agent.Act.file = as.filterMap MachineAct.file ∧
      ((∀ a ∈ as, a.counts = false) → ∀ b ∈ bs, b.SparesCounts) := by
  obtain ⟨bss, hall, hrun⟩ := Lts.run_matched Machine.agent (agent_sees m₀) h
  exact ⟨bss.flatten, hrun, sees_all hall⟩

/-! ## The executions of a sample -/

def MachineAct.publishes : MachineAct → Bool
  | .agent a => a.publishes
  | _ => false

def begun (as : List MachineAct) : ℕ := as.countP MachineAct.publishes

/-- When byte `n` of slot `j` was copied in round `k`, its runtime had stored `b` there. -/
def StoredAs (P : Agent.Platform) (m₀ : Memory UInt8) (as : List MachineAct) (k : ℕ) (j : Slot) (n : ℕ) (b : UInt8) :
    Prop :=
  ∃ pre post s copied executions, as = pre ++ .agent .load :: post ∧ begun pre = k ∧
    (machine P m₀).run (machine P m₀).init pre = some s ∧ s.agent.phase = .counting j copied executions ∧
    copied.length = n ∧ (s.counters j)[n]? = some b

theorem StoredAs.concat {k n : ℕ} {j : Slot} {b : UInt8} (h : StoredAs P m₀ as k j n b) (a : MachineAct) :
    StoredAs P m₀ (as ++ [a]) k j n b := by
  obtain ⟨pre, post, s, bs, e, rfl, hk, hrun, hph, hlen, hb⟩ := h
  exact ⟨pre, post ++ [a], s, bs, e, List.append_assoc _ _ _, hk, hrun, hph, hlen, hb⟩

theorem loading {g g' : Agent.Config} {j : ℕ} {bs : List UInt8} {e : UInt64} (hn : Agent.Next P g .load g')
    (hph : g.phase = .counting j bs e) : bs.length < 40 := by
  cases hn with
  | load _ hlen =>
    obtain ⟨_, rfl, _⟩ := Agent.Phase.counting.inj hph
    exact hlen

theorem separate_run (h : (machine P m₀).run (machine P m₀).init as = some s) : Separate P m₀ s := by
  have hr : (machine P m₀).Reachable (fun _ _ => True) s := Lts.run_reachable (fun _ _ _ => trivial) .init h
  exact hr.inv separate_init fun _ _ _ _ h _ hn => separate_next (machine_inv hn) h

theorem machine_summed (h : (machine P m₀).run (machine P m₀).init as = some s) :
    Agent.Summed P (StoredAs P m₀ as) (begun as) s.agent := by
  apply Lts.run_inv (I := fun as s => Agent.Summed P (StoredAs P m₀ as) (begun as) s.agent) ?_ ?_ h
  · exact Agent.summed_init _
  intro as s a s' hrun hs hn
  have hbegun : begun (as ++ [a]) = begun as + if a.publishes then 1 else 0 := by
    simp only [begun, List.countP_append, List.countP_singleton]
  have hold : Agent.Summed P (StoredAs P m₀ (as ++ [a])) (begun as) s.agent := hs.mono fun _ _ _ _ hb => hb.concat a
  rw [hbegun]
  cases machine_inv hn with
  | initTable => exact ⟨hold.rounds, hold.copied, hold.counting, hold.samples⟩
  | launcher _ => exact ⟨hold.rounds, hold.copied, hold.counting, hold.samples⟩
  | runtime _ => exact ⟨hold.rounds, hold.copied, hold.counting, hold.samples⟩
  | @agent l g g' cs a _ hg =>
    have hnext := Agent.next_inv hg
    apply Agent.summed_next hold ?_ hnext
    rintro rfl j bs e hph
    refine ⟨as, [], ⟨l, g, cs⟩, bs, e, rfl, rfl, hrun, hph, rfl, ?_⟩
    rw [← (separate_run hrun).counters j]
    exact Memory.getElem?_load g.process.memory (loading hnext hph)

/-- **What is reported is what was stored**: the executions of round `k` are
the sum over triples each of whose bytes is what the P4 runtime of the slot had
stored there when it was copied, whatever the launcher and OVS store before and
after. -/
theorem machine_samples (h : (machine P m₀).run (machine P m₀).init as = some s) {k : ℕ} {sample : UInt64 × UInt64}
    (hs : s.agent.process.samples[k]? = some sample) :
    ∃ t : Agent.Table, sample.1 = Agent.sumExecutions P.decrypt t ∧
      ∀ j n b, (t j).bytes[n]? = some b → StoredAs P m₀ as (k + 1) j n b :=
  (machine_summed h).samples k sample hs

/-! ## The warning -/

end

/-! ## One switch that bypasses -/

section
variable (P : Agent.Platform) (m₀ : Memory UInt8) (cs : Slot → List UInt8)

theorem launcher_alone (g : Agent.Config) {c c' : Config} {as : List Act} (h : launcher.run c as = some c') :
    ∃ ps, (machine P m₀).run ⟨some c, g, cs⟩ (as.map .launcher) = some ⟨some c', g.write ps, cs⟩ := by
  induction as generalizing c g with
  | nil => cases h; exact ⟨[], rfl⟩
  | cons a as ih =>
    simp only [Lts.run, Option.bind_eq_some_iff] at h
    obtain ⟨t, hn, h⟩ := h
    have hstep : (machine P m₀).next ⟨some c, g, cs⟩ (.launcher a) = some ⟨some t, g.write (stores c a), cs⟩ :=
      congrArg (Option.map fun t => (⟨some t, g.write (stores c a), cs⟩ : Machine)) hn
    obtain ⟨ps, hrun⟩ := ih (g.write (stores c a)) h
    refine ⟨stores c a ++ ps, (Lts.run_step hstep _).trans (hrun.trans ?_)⟩
    simp only [Agent.Config.write, Memory.write_append]

theorem agent_alone (l : Option Config) {g g' : Agent.Config} {as : List Agent.Act}
    (hown : ∀ a ∈ as, ∀ x b, a ≠ .other x b)
    (h : (Agent.agent P m₀).run g as = some g') :
    (machine P m₀).run ⟨l, g, cs⟩ (as.map .agent) = some ⟨l, g', cs⟩ := by
  induction as generalizing g with
  | nil => cases h; rfl
  | cons a as ih =>
    simp only [Lts.run, Option.bind_eq_some_iff] at h
    obtain ⟨t, hn, h⟩ := h
    obtain ⟨ha, has⟩ := List.forall_mem_cons.mp hown
    have hstep : (machine P m₀).next ⟨l, g, cs⟩ (.agent a) = some ⟨l, t, cs⟩ := by
      refine Eq.trans ?_ (congrArg (Option.map fun t => (⟨l, t, cs⟩ : Machine)) hn)
      cases l <;> cases a <;> first | rfl | exact absurd rfl (ha _ _)
    exact (Lts.run_step hstep _).trans (ih has h)

end

def servedActs : List Act := [.start pidEnv 1, .env (.ovsWrite 0 7), .beginScan, .test pidEnv 1]

def bothStarted (first : Agent.Snmp) : List MachineAct :=
  [.agent (.start (some first.contents) Agent.tcpMem.contents), .initTable] ++ servedActs.map .launcher

theorem bothStarted_run (first : Agent.Snmp) :
    ∃ s p, (machine Agent.clear Agent.zeros).run (machine Agent.clear Agent.zeros).init (bothStarted first) = some s ∧
    s.launcher.any (fun c => 0 < (c.world.sessionTable 0).p4runtimeId) = true ∧ s.agent = ⟨.round, p⟩ ∧
    p.cipher.Padded ∧ p.threshold = UInt64.ofNat Agent.tcpMem.pressure := by
  have hlauncher : ∃ c, launcher.run launcher.init servedActs = some c ∧ 0 < (c.world.sessionTable 0).p4runtimeId :=
    Lts.run_any (by decide +kernel)
  obtain ⟨c, hc, hlinked⟩ := hlauncher
  have hagent := agent_alone Agent.clear Agent.zeros (fun i => Agent.zeros.load (packetCountAddr i) 40) none
    (List.forall_mem_singleton.mpr fun _ _ h => by cases h)
    (Agent.boot_run Agent.clear Agent.zeros first Agent.tcpMem)
  obtain ⟨ps, hps⟩ := launcher_alone Agent.clear Agent.zeros (fun i => Agent.zeros.load (packetCountAddr i) 40)
    (Agent.Config.write initStores ⟨.round, Agent.booted Agent.zeros first Agent.tcpMem⟩) hc
  refine ⟨_, _, (Lts.run_append hagent _).trans ((Lts.run_step rfl _).trans hps), ?_, rfl, Agent.padded_init, rfl⟩
  simpa using hlinked

theorem runtime_step (l : Option Config) (ph : Agent.Phase) (p : Agent.Process) (cs : Slot → List UInt8) (idx : Slot)
    {k : ℕ} (hk : k < 40) (b : UInt8) (P : Agent.Platform) (m₀ : Memory UInt8) :
    (machine P m₀).next ⟨l, ⟨ph, p⟩, cs⟩ (.runtime idx k b) = some ⟨l, ⟨ph, { p with
      memory := Function.update p.memory (packetCountAddr idx + k) b }⟩, Function.update cs idx ((cs idx).set k b)⟩ := by
  cases l with
  | none => exact if_pos hk
  | some c => exact if_pos hk

theorem halves_alone : (∀ a ∈ Agent.halfRound, ∀ x b, a ≠ .other x b) ∧ ∀ a ∈ Agent.otherHalf, ∀ x b, a ≠ .other x b := by
  constructor
  · intro a ha x b he
    rcases List.mem_cons.mp ha with rfl | ha
    · cases he
    rcases List.mem_append.mp ha with ha | ha
    · cases (Agent.storeActs_cases ha).symm.trans he
    · cases (List.eq_of_mem_replicate ha).symm.trans he
  · intro a ha x b he
    rcases List.mem_append.mp ha with ha | ha
    · cases (List.eq_of_mem_replicate ha).symm.trans he
    rcases List.mem_cons.mp ha with rfl | ha
    · cases he
    rcases List.mem_append.mp ha with ha | ha
    · rcases Agent.slots_cases ha with rfl | rfl <;> cases he
    · cases (List.mem_singleton.mp ha).symm.trans he

/-- The runtime of slot 0 stores bytes 0 and 39 when the first 20 have been copied. -/
def tornMachineActs : List MachineAct := bothStarted Agent.atStart ++ (Agent.halfRound.map .agent ++
  (.runtime 0 0 9 :: .runtime 0 39 9 :: Agent.otherHalf.map .agent))

theorem tornMachine_files : tornMachineActs.filterMap MachineAct.file =
    [Agent.atStart.contents, Agent.later.contents] := by
  obtain ⟨hfirst, hsecond⟩ := Agent.halves_files
  have hagent : ∀ as : List Agent.Act, (as.map MachineAct.agent).filterMap MachineAct.file =
      as.filterMap Agent.Act.file := fun as => List.filterMap_map
  have hruntime : ∀ idx k b, MachineAct.file (.runtime idx k b) = none := fun _ _ _ => rfl
  rw [tornMachineActs, List.filterMap_append, List.filterMap_append, hagent, hfirst,
    List.filterMap_cons_none (hruntime _ _ _), List.filterMap_cons_none (hruntime _ _ _), hagent, hsecond]; rfl

theorem tornMachine_run : ∃ s,
    (machine Agent.clear Agent.zeros).run (machine Agent.clear Agent.zeros).init tornMachineActs = some s := by
  obtain ⟨⟨l, g, cs⟩, p, hpre, _, rfl, hpadded, hthreshold⟩ := bothStarted_run Agent.atStart
  obtain ⟨q, hhalf⟩ := Agent.halfRound_run Agent.zeros hpadded hthreshold
  obtain ⟨q', hrest⟩ := Agent.otherHalf_run Agent.zeros
    { q with memory := Function.update (Function.update q.memory (packetCountAddr 0) 9) (packetCountAddr 0 + 39) 9 }
    (Memory.length_load q.memory (packetCountAddr 0) 20)
  let cs₁ := Function.update cs 0 ((cs 0).set 0 9)
  let cs₂ := Function.update cs₁ 0 ((cs₁ 0).set 39 9)
  refine ⟨⟨l, ⟨.round, q'⟩, cs₂⟩, ?_⟩
  rw [tornMachineActs, Lts.run_append hpre, Lts.run_append (agent_alone _ _ cs l halves_alone.1 hhalf),
    Lts.run_step (runtime_step l _ q cs 0 (by decide) 9 _ _), Lts.run_step (runtime_step l _ _ cs₁ 0 (by decide) 9 _ _)]
  exact agent_alone _ _ cs₂ l halves_alone.2 hrest

theorem machine_samples_demo : ∃ s sample,
    (machine Agent.clear Agent.zeros).run (machine Agent.clear Agent.zeros).init tornMachineActs = some s ∧
    s.agent.process.samples[0]? = some sample ∧
    ∃ t : Agent.Table, sample.1 = Agent.sumExecutions Agent.opens100 t ∧ ∀ j n b, (t j).bytes[n]? = some b →
      StoredAs Agent.clear Agent.zeros tornMachineActs 1 j n b := by
  obtain ⟨s, hall⟩ := tornMachine_run
  obtain ⟨bs, hrun, hseen, _⟩ := machine_seen hall
  have hlength : s.agent.process.samples.length = 1 :=
    Agent.samples_length (Agent.sampled_run hrun) (hseen.trans tornMachine_files)
  obtain ⟨sample, hsample⟩ : ∃ sample, s.agent.process.samples[0]? = some sample :=
    ⟨_, List.getElem?_eq_getElem (by rw [hlength]; decide)⟩
  exact ⟨_, sample, hall, hsample, machine_samples hall hsample⟩

end P4Ubpf
