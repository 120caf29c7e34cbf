import P4Ubpf.LoopSound

/-!
# The samples of a bypassing switch

The agent copies one byte after the other, so the executions of a sample are
what the bytes of the slots were at different instants, and a slot that is
written meanwhile may be read as a triple that it never held. A switch that
bypasses the P4 programs leaves the counts as they are, and is reported.
-/

namespace P4Ubpf.Agent

/-! ## The instants of a sample -/

def sumFirst (decrypt : AesGcmDecrypt) (t : Table) (i : ℕ) : UInt64 :=
  ((Slots.all maxConnections).take i).foldl (fun executions j => addCounter decrypt executions (t j)) 0

def Act.publishes : Act → Bool
  | .publish _ _ _ => true
  | _ => false

def rounds (as : List Act) : ℕ := as.countP Act.publishes

/-- Whether a round has begun that has not ended. -/
def Phase.pending : Phase → ℕ
  | .boot => 0
  | .round => 0
  | .storing _ => 1
  | .counting _ _ _ => 1

/-- Every byte of `bs` has `R` at its position. -/
def Bytewise (R : ℕ → UInt8 → Prop) (bs : List UInt8) : Prop := ∀ n b, bs[n]? = some b → R n b

theorem Bytewise.nil {R : ℕ → UInt8 → Prop} : Bytewise R [] := fun _ _ h => by cases h

theorem Bytewise.concat {R : ℕ → UInt8 → Prop} {bs : List UInt8} {b : UInt8} (h : Bytewise R bs)
    (hb : R bs.length b) : Bytewise R (bs ++ [b]) := by
  intro n b' hn
  rw [List.getElem?_append] at hn
  split at hn
  · exact h n b' hn
  · rename_i hge
    obtain ⟨hlast, rfl⟩ : n - bs.length = 0 ∧ b = b' := by
      rwa [List.getElem?_singleton, Option.ite_none_right_eq_some, Option.some.injEq] at hn
    rwa [show n = bs.length by omega]

section
variable (P : Platform) (m₀ : Memory UInt8)

/-- The action that copied byte `n` of slot `j` in round `k` found `b` there. -/
def CopiedAs (as : List Act) (k : ℕ) (j : Fin maxConnections) (n : ℕ) (b : UInt8) : Prop :=
  ∃ pre post c copied executions, as = pre ++ .load :: post ∧ rounds pre = k ∧
    (agent P m₀).run (agent P m₀).init pre = some c ∧ c.phase = .counting j copied executions ∧ copied.length = n ∧
    c.process.memory (packetCountAddr j + n) = b

end

/-- `r` rounds have begun, and every sample is the sum over triples each of
whose bytes has been copied in its round, where `R k j n b` tells that `b` was
copied as byte `n` of slot `j` in round `k`. -/
structure Summed (P : Platform) (R : ℕ → Fin maxConnections → ℕ → UInt8 → Prop) (r : ℕ) (c : Config) : Prop where
  rounds : r = c.process.samples.length + c.phase.pending
  copied : ∀ (i : Fin maxConnections) bs executions, c.phase = .counting i bs executions →
    Bytewise (R (c.process.samples.length + 1) i) bs
  counting : ∀ i bs executions, c.phase = .counting i bs executions → ∃ t, executions = sumFirst P.decrypt t i ∧
    ∀ j : Fin maxConnections, j.val < i → Bytewise (R (c.process.samples.length + 1) j) (t j).bytes
  samples : ∀ k s, c.process.samples[k]? = some s → ∃ t, s.1 = sumExecutions P.decrypt t ∧
    ∀ j, Bytewise (R (k + 1) j) (t j).bytes

section
variable {P : Platform} {m₀ : Memory UInt8} {c c' : Config} {as : List Act} {a : Act}

theorem CopiedAs.concat {k n : ℕ} {j : Fin maxConnections} {b : UInt8} (h : CopiedAs P m₀ as k j n b) (a : Act) :
    CopiedAs P m₀ (as ++ [a]) k j n b := by
  obtain ⟨pre, post, c, bs, e, rfl, hk, hrun, hph, hlen, hb⟩ := h
  exact ⟨pre, post ++ [a], c, bs, e, List.append_assoc _ _ _, hk, hrun, hph, hlen, hb⟩

theorem sumFirst_congr {decrypt : AesGcmDecrypt} {t t' : Table} {i : ℕ}
    (h : ∀ j : Fin maxConnections, j.val < i → t j = t' j) : sumFirst decrypt t i = sumFirst decrypt t' i := by
  have hmem : ∀ j ∈ (Slots.all maxConnections).take i, t j = t' j := by
    intro j hj
    obtain ⟨n, hn, rfl⟩ := List.mem_iff_getElem.mp hj
    apply h
    rw [List.length_take] at hn
    simp only [List.getElem_take, Slots.all, List.getElem_finRange, Fin.val_cast]
    omega
  unfold sumFirst
  generalize (0 : UInt64) = e
  generalize (Slots.all maxConnections).take i = js at hmem
  induction js generalizing e with
  | nil => rfl
  | cons j js ih =>
    rw [List.foldl_cons, List.foldl_cons, hmem j List.mem_cons_self]
    exact ih _ fun k hk => hmem k (List.mem_cons_of_mem _ hk)

theorem sumFirst_succ (decrypt : AesGcmDecrypt) (t : Table) {i : ℕ} (hi : i < maxConnections) :
    sumFirst decrypt t (i + 1) = addCounter decrypt (sumFirst decrypt t i) (t ⟨i, hi⟩) := by
  have htake : (Slots.all maxConnections).take (i + 1) = (Slots.all maxConnections).take i ++ [⟨i, hi⟩] := by
    rw [List.take_succ_eq_append_getElem (by rw [Slots.all, List.length_finRange]; exact hi)]
    simp [Slots.all]
  rw [sumFirst, htake, List.foldl_append]; rfl

theorem sumFirst_all (decrypt : AesGcmDecrypt) (t : Table) {i : ℕ} (hi : ¬ i < maxConnections) :
    sumFirst decrypt t i = sumExecutions decrypt t := by
  rw [sumFirst, List.take_of_length_le (by rw [Slots.all, List.length_finRange]; omega)]; rfl

theorem summed_init (R : ℕ → Fin maxConnections → ℕ → UInt8 → Prop) : Summed P R 0 (agent P m₀).init where
  rounds := rfl
  copied := fun _ _ _ hph => by cases hph
  counting := fun _ _ _ hph => by cases hph
  samples := fun _ _ hs => by cases hs

section
variable {R R' : ℕ → Fin maxConnections → ℕ → UInt8 → Prop} {r : ℕ}

theorem Summed.mono (h : Summed P R r c) (hR : ∀ k j n b, R k j n b → R' k j n b) : Summed P R' r c where
  rounds := h.rounds
  copied := fun i bs e hph n b hb => hR _ _ _ _ (h.copied i bs e hph n b hb)
  counting := fun i bs e hph => by
    obtain ⟨t, ht, hread⟩ := h.counting i bs e hph
    exact ⟨t, ht, fun j hj n b hb => hR _ _ _ _ (hread j hj n b hb)⟩
  samples := fun k s hs => by
    obtain ⟨t, ht, hread⟩ := h.samples k s hs
    exact ⟨t, ht, fun j n b hb => hR _ _ _ _ (hread j n b hb)⟩

theorem summed_turn {p : Process} (hrounds : r = p.samples.length + 1)
    (hsamples : ∀ k s, p.samples[k]? = some s → ∃ t, s.1 = sumExecutions P.decrypt t ∧
      ∀ j, Bytewise (R (k + 1) j) (t j).bytes) : Summed P R r ⟨.counting 0 [] 0, p⟩ where
  rounds := hrounds
  copied := fun i bs e hph => by
    obtain ⟨_, rfl, _⟩ := Phase.counting.inj hph
    exact .nil
  counting := fun i bs e hph => by
    obtain ⟨rfl, _, rfl⟩ := Phase.counting.inj hph
    exact ⟨table p.memory, rfl, fun j hj => absurd hj (Nat.not_lt_zero _)⟩
  samples := hsamples

/-- One action: the byte whose turn it is is copied as it is. -/
theorem summed_next (h : Summed P R r c)
    (hread : a = .load → ∀ (j : Fin maxConnections) bs e, c.phase = .counting j bs e →
      R r j bs.length (c.process.memory (packetCountAddr j + bs.length)))
    (hn : Next P c a c') : Summed P R (r + if a.publishes then 1 else 0) c' := by
  obtain ⟨hrounds, hcopied, hcounting, hsamples⟩ := h
  cases hn with
  | other => exact ⟨hrounds, hcopied, hcounting, hsamples⟩
  | start hs =>
    obtain ⟨_, _, _, _, rfl⟩ := startProcess_cases hs
    exact ⟨hrounds, fun _ _ _ hph => (by cases hph), fun _ _ _ hph => (by cases hph), hsamples⟩
  | @publish p usedPages sockstat iv =>
    rcases publishRound_cases P usedPages sockstat iv p with ⟨s, _, heq⟩ | ⟨err, _, heq⟩
    · rw [heq]
      exact ⟨congrArg (· + 1) hrounds, fun _ _ _ hph => (by cases hph), fun _ _ _ hph => (by cases hph), hsamples⟩
    · rw [heq]
      exact summed_turn (congrArg (· + 1) hrounds) hsamples
  | @store p x b stores =>
    by_cases hlast : stores = []
    · simp only [if_pos hlast]
      exact summed_turn hrounds hsamples
    · simp only [if_neg hlast]
      exact ⟨hrounds, fun _ _ _ hph => (by cases hph), fun _ _ _ hph => (by cases hph), hsamples⟩
  | @load p i bs e hi hlen =>
    refine ⟨hrounds, fun j bs' e' hph => ?_, fun i' bs' e' hph => ?_, hsamples⟩
    · obtain ⟨hij, rfl, rfl⟩ := Phase.counting.inj hph
      subst hij
      have hbyte := hread rfl j bs e rfl
      rw [hrounds] at hbyte
      exact (hcopied j bs e rfl).concat hbyte
    · obtain ⟨rfl, rfl, rfl⟩ := Phase.counting.inj hph
      exact hcounting i bs e rfl
  | @count p i bs e hi hlen =>
    refine ⟨hrounds, fun j bs' e' hph => ?_, fun i' bs' e' hph => ?_, hsamples⟩
    · obtain ⟨_, rfl, _⟩ := Phase.counting.inj hph
      exact .nil
    obtain ⟨rfl, rfl, rfl⟩ := Phase.counting.inj hph
    obtain ⟨t, rfl, hold⟩ := hcounting i bs e rfl
    refine ⟨Function.update t ⟨i, hi⟩ (.ofBytes bs), ?_, ?_⟩
    · rw [sumFirst_succ _ _ hi, Function.update_self, sumFirst_congr]
      intro j hj
      exact (Function.update_of_ne (Fin.ne_of_val_ne (by simp only; omega)) _ _).symm
    · intro j hj
      by_cases hij : j = ⟨i, hi⟩
      · subst hij
        rw [Function.update_self, ofBytes_bytes hlen]
        exact hcopied ⟨i, hi⟩ bs _ rfl
      · rw [Function.update_of_ne hij]
        have hlt : j.val < i := by
          have hne : j.val ≠ i := fun he => hij (Fin.ext he)
          omega
        exact hold j hlt
  | @compare p p' i bs e snmp hi hc =>
    obtain ⟨n, _, rfl⟩ := checkRound_cases hc
    obtain ⟨t, rfl, hold⟩ := hcounting i bs e rfl
    have hnew : Process.samples { p with
        nicStat := n
        detector := (Agent.compare (sumFirst P.decrypt t i) n.passed p.detector).2
        trace := .checked (sumFirst P.decrypt t i) n.passed
          (Agent.compare (sumFirst P.decrypt t i) n.passed p.detector).1 :: p.trace } =
        p.samples ++ [(sumFirst P.decrypt t i, n.passed)] := by
      simp [Process.samples, Event.sample]
    refine ⟨?_, fun _ _ _ hph => by (cases hph), fun _ _ _ hph => by (cases hph), ?_⟩
    · rw [hrounds, hnew, List.length_append]; rfl
    · intro k s hs
      rw [hnew, List.getElem?_append] at hs
      split at hs
      · exact hsamples k s hs
      · rename_i hge
        obtain ⟨hk, rfl⟩ : k = p.samples.length ∧ (sumFirst P.decrypt t i, n.passed) = s := by
          rw [List.getElem?_singleton, Option.ite_none_right_eq_some, Option.some.injEq] at hs
          exact ⟨by omega, hs.2⟩
        subst hk
        exact ⟨t, sumFirst_all _ _ hi, fun j => hold j (by have := j.isLt; omega)⟩

end

theorem bytewise_run (h : (agent P m₀).run (agent P m₀).init as = some c) :
    Summed P (CopiedAs P m₀ as) (rounds as) c := by
  apply Lts.run_inv (I := fun as c => Summed P (CopiedAs P m₀ as) (rounds as) c) (summed_init _) ?_ h
  intro as c a c' hrun hs hn
  have hone : rounds (as ++ [a]) = rounds as + if a.publishes then 1 else 0 := by
    simp only [rounds, List.countP_append, List.countP_singleton]
  rw [hone]
  apply summed_next (hs.mono fun _ _ _ _ hb => hb.concat a) ?_ (next_inv hn)
  rintro rfl j bs e hph
  exact ⟨as, [], c, bs, e, rfl, rfl, hrun, hph, rfl, rfl⟩

/-- **Every sample is made of instants**: the executions that round `k` reports
are the sum over triples each of whose bytes is what the slot had there when it
was copied, whatever the other parties store before and after. -/
theorem sample_of_instants (h : (agent P m₀).run (agent P m₀).init as = some c) {k : ℕ} {s : UInt64 × UInt64}
    (hs : c.process.samples[k]? = some s) :
    ∃ t : Table, s.1 = sumExecutions P.decrypt t ∧ ∀ j n b, (t j).bytes[n]? = some b → CopiedAs P m₀ as (k + 1) j n b :=
  (bytewise_run h).samples k s hs

end

/-! ## A slot that is written while it is copied -/

/-- A round up to the middle of slot 0. -/
def halfRound : List Act := .publish 0 [] (Vector.replicate 12 7) ::
  (storeActs (sealRound clear (UInt64.ofNat tcpMem.pressure) 0 [] (Vector.replicate 12 7)) ++ List.replicate 20 .load)

def otherHalf : List Act :=
  List.replicate 20 .load ++ (.count :: ((List.replicate 31 slotActs).flatten ++ [.compare (some later.contents)]))

theorem halfRound_run (m₀ : Memory UInt8) {p : Process} (hp : p.cipher.Padded)
    (ht : p.threshold = UInt64.ofNat tcpMem.pressure) : ∃ q, (agent clear m₀).run ⟨.round, p⟩ halfRound =
      some ⟨.counting 0 (q.memory.load (packetCountAddr 0) 20) 0, q⟩ := by
  obtain ⟨q, hsend, _⟩ := publish_run (P := clear) m₀ hp 0 [] (Vector.replicate 12 7)
  rw [ht] at hsend
  exact ⟨q, (Lts.run_append hsend _).trans (loads_run (by decide) 0 20 [] (by decide))⟩

theorem otherHalf_run (m₀ : Memory UInt8) (p : Process) {copied : List UInt8} (hlen : copied.length = 20) :
    ∃ q, (agent clear m₀).run ⟨.counting 0 copied 0, p⟩ otherHalf = some ⟨.round, q⟩ := by
  have hloads : (agent clear m₀).run ⟨.counting 0 copied 0, p⟩ (List.replicate 20 .load) =
      some ⟨.counting 0 (copied ++ p.memory.load (packetCountAddr 0 + copied.length) 20) 0, p⟩ :=
    loads_run (by decide) 0 20 copied (by omega)
  have hcount : ∀ bs : List UInt8, bs.length = 40 → (agent clear m₀).next ⟨.counting 0 bs 0, p⟩ .count =
      some ⟨.counting 1 [] (addCounter clear.decrypt 0 (.ofBytes bs)), p⟩ := fun bs hbs => if_pos ⟨by decide, hbs⟩
  obtain ⟨q, hq⟩ := compare_run clear m₀ p _ later.contents
  refine ⟨q, ?_⟩
  rw [otherHalf, Lts.run_append hloads, Lts.run_step (hcount _ (by rw [List.length_append, hlen, Memory.length_load])),
    Lts.run_append (counts_run 31 1 rfl _)]
  exact hq

theorem other_run (P : Platform) (m₀ : Memory UInt8) (ph : Phase) (p : Process) (a : ℕ) (b : UInt8) (as : List Act) :
    (agent P m₀).run ⟨ph, p⟩ (.other a b :: as) =
      (agent P m₀).run ⟨ph, { p with memory := Function.update p.memory a b }⟩ as :=
  Lts.run_step rfl as

theorem halves_files : halfRound.filterMap Act.file = [] ∧ otherHalf.filterMap Act.file = [later.contents] := by
  have hloads : ∀ n, (List.replicate n Act.load).filterMap Act.file = [] := fun n =>
    counting_files fun a ha => .inr (.inl (List.eq_of_mem_replicate ha))
  constructor
  · have hstores : ∀ o, (storeActs o).filterMap Act.file = [] := fun o =>
      counting_files fun a ha => .inl (storeActs_cases ha)
    rw [halfRound, List.filterMap_cons_none (by rfl), List.filterMap_append, hstores, hloads]; rfl
  · have hslots : (List.replicate 31 slotActs).flatten.filterMap Act.file = [] :=
      counting_files fun a ha => .inr (slots_cases ha)
    rw [otherHalf, List.filterMap_append, hloads, List.filterMap_cons_none (by rfl), List.filterMap_append, hslots]; rfl

/-- Byte 0 of the slot is written too late to be copied, and byte 39 in time. -/
def tornActs : List Act := .start (some atStart.contents) tcpMem.contents ::
  (halfRound ++ (.other (packetCountAddr 0) 9 :: .other (packetCountAddr 0 + 39) 9 :: otherHalf))

theorem torn_files : tornActs.filterMap Act.file = [atStart.contents, later.contents] := by
  have hothers : ∀ a b, Act.file (.other a b) = none := fun _ _ => rfl
  rw [tornActs, ← List.singleton_append, List.filterMap_append, List.filterMap_append, halves_files.1,
    List.filterMap_cons_none (hothers _ _), List.filterMap_cons_none (hothers _ _), halves_files.2]; rfl

theorem torn_run : ∃ q, (agent clear zeros).run (agent clear zeros).init tornActs = some ⟨.round, q⟩ := by
  obtain ⟨q, hhalf⟩ := halfRound_run zeros (p := booted zeros atStart tcpMem) padded_init rfl
  obtain ⟨q', hrest⟩ := otherHalf_run zeros
    { q with memory := Function.update (Function.update q.memory (packetCountAddr 0) 9) (packetCountAddr 0 + 39) 9 }
    (Memory.length_load q.memory (packetCountAddr 0) 20)
  refine ⟨q', ?_⟩
  rw [tornActs, ← List.singleton_append, Lts.run_append (boot_run clear zeros atStart tcpMem), Lts.run_append hhalf,
    other_run, other_run]
  exact hrest

theorem sample_of_instants_demo : ∃ c s, (agent clear zeros).run (agent clear zeros).init tornActs = some c ∧
    c.process.samples[0]? = some s ∧
    ∃ t : Table, s.1 = sumExecutions opens100 t ∧ ∀ j n b, (t j).bytes[n]? = some b →
      CopiedAs clear zeros tornActs 1 j n b := by
  obtain ⟨q, hall⟩ := torn_run
  have hlength : q.samples.length = 1 := samples_length (sampled_run hall) torn_files
  obtain ⟨s, hs⟩ : ∃ s, q.samples[0]? = some s := ⟨_, List.getElem?_eq_getElem (by rw [hlength]; decide)⟩
  exact ⟨_, s, hall, hs, sample_of_instants hall hs⟩

/-! ## Rounds over a frozen table -/

def Act.SparesCounts : Act → Prop
  | .other a _ => ∀ i < maxConnections, a < packetCountAddr i ∨ packetCountAddr i + 40 ≤ a
  | _ => True

def Snmp.packets (f : Snmp) : ℕ := f.inReceives + f.outRequests

section
variable {P : Platform} {m₀ : Memory UInt8} {c c' : Config} {a : Act}

theorem table_update {m : Memory UInt8} {x : ℕ} {b : UInt8}
    (h : ∀ i < maxConnections, x < packetCountAddr i ∨ packetCountAddr i + 40 ≤ x) :
    table (Function.update m x b) = table m := by
  funext i
  exact loadPacketCount_congr (Memory.load_update m b (h i i.isLt))

theorem table_next (hn : Next P c a c') (hin : c.phase.InArea) (ha : a.SparesCounts) :
    table c'.process.memory = table c.process.memory := by
  cases hn with
  | other => exact table_update ha
  | start hs =>
    obtain ⟨_, _, _, _, rfl⟩ := startProcess_cases hs
    rfl
  | @publish p usedPages sockstat iv =>
    rcases publishRound_cases P usedPages sockstat iv p with ⟨s, _, heq⟩ | ⟨err, _, heq⟩
    · rw [heq]
    · rw [heq]
  | @store p x b stores =>
    apply table_update
    intro i _
    have hx : x < messageSize := hin (x, b) List.mem_cons_self
    have hmeta : messageSize < packetCountAddr i := by
      unfold packetCountAddr connectionAddr messageSize metaArea; omega
    exact .inl (by omega)
  | load _ _ => rfl
  | count _ _ => rfl
  | compare _ hc =>
    obtain ⟨_, _, rfl⟩ := checkRound_cases hc
    rfl

theorem table_run {as : List Act} (has : ∀ a ∈ as, a.SparesCounts) (hin : c.phase.InArea)
    (h : (agent P m₀).run c as = some c') : table c'.process.memory = table c.process.memory := by
  induction as generalizing c with
  | nil => cases h; rfl
  | cons a as ih =>
    simp only [Lts.run, Option.bind_eq_some_iff] at h
    obtain ⟨t, hn, h⟩ := h
    have ha := has a List.mem_cons_self
    rw [ih (fun b hb => has b (List.mem_cons_of_mem _ hb)) (inArea_next (next_inv hn) hin) h,
      table_next (next_inv hn) hin ha]

theorem packetsSince_contents (first f : Snmp) (h : first.packets ≤ f.packets) :
    (packetsSince (UInt64.ofNat first.inReceives) (UInt64.ofNat first.outRequests) f.contents).toNat =
      (f.packets - first.packets) % 2 ^ 64 := by
  unfold Snmp.packets at *
  rw [packetsSince, readStat_contents, UInt64.toNat_add, UInt64.toNat_sub, UInt64.toNat_sub, UInt64.toNat_ofNat',
    UInt64.toNat_ofNat', UInt64.toNat_ofNat', UInt64.toNat_ofNat']
  omega

theorem calls_reachable {m : Monitor} (hr : m.Reachable) (ss : List (UInt64 × UInt64)) :
    (m.calls ss).Reachable := by
  induction ss generalizing m with
  | nil => exact hr
  | cons s ss ih => exact ih (.step (a := s) hr trivial rfl)

end

section
variable {P : Platform} {m₀ : Memory UInt8} {c c' : Config} {pre post : List Act}

theorem rounds_append (as bs : List Act) : rounds (as ++ bs) = rounds as + rounds bs := List.countP_append

theorem byte_table (m : Memory UInt8) (j : Fin maxConnections) {n : ℕ} (hn : n < 40) :
    (table m j).bytes[n]? = some (m (packetCountAddr j + n)) := by
  rw [table, loadPacketCount_bytes, Memory.getElem?_load m hn]

theorem copied_frozen (hpre : (agent P m₀).run (agent P m₀).init pre = some c) (hspare : ∀ a ∈ post, a.SparesCounts)
    {k n : ℕ} {j : Fin maxConnections} {b : UInt8} (h : CopiedAs P m₀ (pre ++ post) k j n b) (hk : rounds pre < k)
    (hn : n < 40) : (table c.process.memory j).bytes[n]? = some b := by
  obtain ⟨pre', post', c₁, bs, e, happ, rfl, hrun, _, _, rfl⟩ := h
  rcases List.append_eq_append_iff.mp happ with ⟨as, rfl, rfl⟩ | ⟨bs, rfl, _⟩
  · have hr : (agent P m₀).Reachable (fun _ _ => True) c := Lts.run_reachable (fun _ _ _ => trivial) .init hpre
    rw [Lts.run_append hpre] at hrun
    rw [← table_run (fun a ha => hspare a (List.mem_append_left _ ha)) (inArea_reachable hr) hrun, byte_table _ _ hn]
  · rw [rounds_append] at hk
    omega

theorem read_frozen (hpre : (agent P m₀).run (agent P m₀).init pre = some c) (hspare : ∀ a ∈ post, a.SparesCounts)
    {k : ℕ} {j : Fin maxConnections} {x : PacketCount} (h : Bytewise (CopiedAs P m₀ (pre ++ post) k j) x.bytes)
    (hk : rounds pre < k) : x = table c.process.memory j := by
  apply bytes_inj
  apply List.ext_getElem?
  intro n
  by_cases hn : n < 40
  · obtain ⟨b, hb⟩ : ∃ b, x.bytes[n]? = some b := ⟨_, List.getElem?_eq_getElem (by rwa [length_bytes])⟩
    rw [hb, copied_frozen hpre hspare (h n _ hb) hk hn]
  · rw [List.getElem?_eq_none (by rw [length_bytes]; omega), List.getElem?_eq_none (by rw [length_bytes]; omega)]

theorem shortfalls_frozen : ∀ {ss : List (UInt64 × UInt64)} {e : UInt64}, (∀ s ∈ ss, s.1 = e) →
    ss.IsChain (fun s s' => s.2 < s'.2) → (shortfalls ss).count true = ss.length - 1
  | [], _, _, _ => rfl
  | [_], _, _, _ => rfl
  | s :: s' :: ss, e, hfrozen, hchain => by
    rw [List.isChain_cons_cons] at hchain
    have hrest := shortfalls_frozen (fun t ht => hfrozen t (List.mem_cons_of_mem _ ht)) hchain.2
    have hsame : s'.1 = s.1 := by rw [hfrozen s (by simp), hfrozen s' (by simp)]
    have hle : s.2 ≤ s'.2 := UInt64.le_of_lt hchain.1
    have hshort : s'.1 - s.1 < s'.2 - s.2 := by
      have hlt := hchain.1
      rw [UInt64.lt_iff_toNat_lt] at hlt
      rw [hsame, UInt64.sub_self, UInt64.lt_iff_toNat_lt, UInt64.toNat_sub_of_le _ _ hle, UInt64.toNat_zero]
      omega
    rw [shortfalls_cons, decide_eq_true hshort, List.count_cons_self, hrest]
    rfl

theorem counts_grow {first : Snmp} {files : List Snmp}
    (hgrow : (first :: files).IsChain fun f f' => f.packets < f'.packets)
    (hfit : ∀ f ∈ files, f.packets < first.packets + 2 ^ 64) :
    ((files.map Snmp.contents).map (packetsSince (readStat first.contents).1 (readStat first.contents).2)).Pairwise (· < ·) ∧
    ∀ n ∈ (files.map Snmp.contents).map (packetsSince (readStat first.contents).1 (readStat first.contents).2), n ≠ 0 := by
  have hpairs : ((first :: files).map Snmp.packets).Pairwise (· < ·) :=
    List.isChain_iff_pairwise.mp (List.isChain_map _ |>.mpr hgrow)
  rw [List.map_cons, List.pairwise_cons, List.pairwise_map] at hpairs
  have hmore : ∀ f ∈ files, first.packets < f.packets := fun f hf => hpairs.1 _ (List.mem_map_of_mem hf)
  have hcount : ∀ f ∈ files, (packetsSince (readStat first.contents).1 (readStat first.contents).2 f.contents).toNat =
      f.packets - first.packets := by
    intro f hf
    have hlt := hfit f hf
    rw [readStat_contents, packetsSince_contents first f (hmore f hf).le, Nat.mod_eq_of_lt (by omega)]
  rw [List.map_map, List.pairwise_map]
  constructor
  · apply hpairs.2.imp_of_mem
    intro f f' hf hf' hlt
    have := hmore f hf
    rw [Function.comp_apply, Function.comp_apply, UInt64.lt_iff_toNat_lt, hcount f hf, hcount f' hf']
    omega
  · intro n hn h0
    obtain ⟨f, hf, rfl⟩ := List.mem_map.mp hn
    have hpos := hmore f hf
    have hzero := hcount f hf
    rw [Function.comp_apply] at h0
    rw [h0, UInt64.toNat_zero] at hzero
    omega

theorem samples_frozen (hpre : (agent P m₀).run (agent P m₀).init pre = some c) (hround : c.phase = .round)
    (hpost : (agent P m₀).run c post = some c') (hspare : ∀ a ∈ post, a.SparesCounts) :
    ∀ s ∈ c'.process.samples.drop c.process.samples.length,
      s.1 = sumExecutions P.decrypt (table c.process.memory) := by
  have hrun : (agent P m₀).run (agent P m₀).init (pre ++ post) = some c' := by rw [Lts.run_append hpre, hpost]
  have hrounds : rounds pre = c.process.samples.length := by
    rw [(bytewise_run hpre).rounds, hround]; rfl
  intro s hs
  obtain ⟨i, hi⟩ := List.mem_iff_getElem?.mp hs
  rw [List.getElem?_drop] at hi
  obtain ⟨t, ht, hread⟩ := (bytewise_run hrun).samples _ s hi
  rw [ht, funext fun j => read_frozen hpre hspare (hread j) (by omega)]

/-- Six rounds that report the same executions and more and more packets. -/
theorem standstill_warned {as : List Act} {first : Snmp} {earlier : List (List UInt8)} {files : List Snmp}
    {e : UInt64}
    (h : (agent P m₀).run (agent P m₀).init as = some c)
    (hfiles : as.filterMap Act.file = first.contents :: (earlier ++ files.map Snmp.contents))
    (hlen : files.length = window + 1) (hgrow : (first :: files).IsChain fun f f' => f.packets < f'.packets)
    (hfit : ∀ f ∈ files, f.packets < first.packets + 2 ^ 64)
    (hsame : ∀ s ∈ c.process.samples.drop earlier.length, s.1 = e) :
    ∃ o ∈ c.process.monitor.outcomes.take (window + 1), o.warned = true := by
  have hcounts := loop_counts (sampled_run h) hfiles
  have hsnd : (c.process.samples.drop earlier.length).map Prod.snd =
      (files.map Snmp.contents).map (packetsSince (readStat first.contents).1 (readStat first.contents).2) := by
    rw [List.map_drop, hcounts, List.map_append, List.drop_left' (List.length_map _)]
  obtain ⟨hpairs, hpos⟩ := counts_grow hgrow hfit
  have hnew : (c.process.samples.drop earlier.length).length = window + 1 := by
    have hlen' := congrArg List.length hsnd
    rwa [List.length_map, List.length_map, List.length_map, hlen] at hlen'
  have hmonitor : c.process.monitor =
      ((⟨.init, []⟩ : Monitor).calls (c.process.samples.take earlier.length)).calls
        (c.process.samples.drop earlier.length) := by
    rw [← calls_append, List.take_append_drop, (sampled_run h).monitor]
  rw [← hsnd] at hpairs hpos
  generalize c.process.samples.drop earlier.length = ss at *
  rw [List.pairwise_map] at hpairs
  rw [hmonitor]
  apply bypass_warned (calls_reachable .init _) hnew
  · apply List.Pairwise.isChain
    apply hpairs.imp_of_mem
    exact fun hs hs' hlt => ⟨UInt64.le_of_eq ((hsame _ hs).trans (hsame _ hs').symm), hlt⟩
  · rw [shortfalls_frozen hsame hpairs.isChain, hnew]
    decide
  · intro s hs h0
    exact hpos s.2 (List.mem_map_of_mem (List.mem_of_mem_head? hs)) (by rw [h0])

/-- **A bypassing switch is reported within six rounds**: while the counts of
the session table stay as they are and every file has more packets than the
one before it, the sixth round has warned, or an earlier one of them. -/
theorem frozen_warned {first : Snmp} {earlier : List (List UInt8)} {files : List Snmp}
    (hpre : (agent P m₀).run (agent P m₀).init pre = some c) (hround : c.phase = .round)
    (hpost : (agent P m₀).run c post = some c') (hspare : ∀ a ∈ post, a.SparesCounts)
    (hfirst : pre.filterMap Act.file = first.contents :: earlier)
    (hfiles : post.filterMap Act.file = files.map Snmp.contents) (hlen : files.length = window + 1)
    (hgrow : (first :: files).IsChain fun f f' => f.packets < f'.packets)
    (hfit : ∀ f ∈ files, f.packets < first.packets + 2 ^ 64) :
    ∃ o ∈ c'.process.monitor.outcomes.take (window + 1), o.warned = true := by
  have hrun : (agent P m₀).run (agent P m₀).init (pre ++ post) = some c' := by rw [Lts.run_append hpre, hpost]
  have hall : (pre ++ post).filterMap Act.file = first.contents :: (earlier ++ files.map Snmp.contents) := by
    rw [List.filterMap_append, hfirst, hfiles, List.cons_append]
  apply standstill_warned hrun hall hlen hgrow hfit
  rw [← samples_length (sampled_run hpre) hfirst]
  exact samples_frozen hpre hround hpost hspare

end

theorem sixRounds_own : ∀ a ∈ sixRounds, a.SparesCounts := by
  intro a ha
  obtain ⟨snmp, _, ha⟩ := List.mem_flatMap.mp ha
  rcases roundActs_cases ha with rfl | rfl | rfl | rfl | rfl
  · trivial
  · trivial
  · trivial
  · trivial
  · trivial

theorem frozen_warned_demo : ∃ c, (agent clear zeros).run (agent clear zeros).init
      (.start (some (ofDigit 0).contents) tcpMem.contents :: sixRounds) = some c ∧
    ∃ o ∈ c.process.monitor.outcomes.take (window + 1), o.warned = true := by
  have hboot := boot_run clear zeros (ofDigit 0) tcpMem
  have hfirst : [Act.start (some (ofDigit 0).contents) tcpMem.contents].filterMap Act.file =
      (ofDigit 0).contents :: [] := rfl
  obtain ⟨q, hrun⟩ := sixRounds_run
  refine ⟨_, (Lts.run_append hboot sixRounds).trans hrun, ?_⟩
  exact frozen_warned hboot rfl hrun sixRounds_own hfirst sixRounds_files rfl (by decide) (by decide)

end P4Ubpf.Agent
