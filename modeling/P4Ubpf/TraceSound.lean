import P4Ubpf.LinkSound

/-!
# Every call at its time

What the launcher may do depends on what it has done: it forks only while fewer
than `MAX_CONNECTIONS` of its children have not been terminated, terminates and
hands out only such a child, and waits right after the signal. This holds at
every instant of the trace, whatever the kernel and the clients do.
-/

namespace P4Ubpf

open P4runtime Relation

/-! ## Calls and what came before them -/

/-- `pid` has been forked once more than it has been terminated. -/
def Outstanding (older : List Event) (pid : Int) : Prop :=
  0 < pid ∧ (killedPids older).count pid < (forkedPids older).count pid

/-- The call or line `e` is in order after the calls `older`, newest first. -/
def Lawful (older : List Event) : Event → Prop
  | .fork _ => (forkedPids older).length < (killedPids older).length + maxConnections
  | .startedChild pid slot => (∃ rest, older = .fork pid :: rest) ∧ 0 < pid ∧ slot ≠ none
  | .kill pid _ => Outstanding older pid
  | .waitpid pid => ∃ own rest, older = .kill pid own :: rest
  | .sessionCreated _ pid _ _ => Outstanding older pid
  | _ => True

inductive Disciplined : List Event → Prop
  | nil : Disciplined []
  | cons {e : Event} {older : List Event} (h : Lawful older e) (ho : Disciplined older) : Disciplined (e :: older)

theorem Disciplined.of_suffix {older trace : List Event} (h : Disciplined trace) (hs : older <:+ trace) :
    Disciplined older := by
  induction h with
  | nil => rw [List.suffix_nil.mp hs]; exact .nil
  | cons h ho ih =>
    rcases List.suffix_cons_iff.mp hs with rfl | hs
    · exact .cons h ho
    · exact ih hs

theorem Disciplined.killed {trace : List Event} (h : Disciplined trace) : ∀ p ∈ killedPids trace, 0 < p := by
  induction h with
  | nil => intro p hp; cases hp
  | @cons e older h ho ih =>
    intro p hp
    cases hk : e.killed with
    | none =>
      rw [killedPids, List.filterMap_cons_none hk] at hp
      exact ih p hp
    | some q =>
      rw [killedPids, List.filterMap_cons_some hk] at hp
      rcases List.mem_cons.mp hp with rfl | hp
      · cases e <;> simp only [Event.killed, Option.some.injEq, reduceCtorEq] at hk
        subst hk
        exact h.1
      · exact ih p hp

theorem forked_pos {trace : List Event} : ∀ p ∈ forkedPids trace, 0 < p := by
  intro p hp
  obtain ⟨e, _, he⟩ := List.mem_filterMap.mp hp
  cases e <;> simp only [Event.forked, Option.ite_none_right_eq_some, Option.some.injEq, reduceCtorEq] at he
  exact he.2 ▸ he.1

/-! ## The children not terminated are the ones in the table -/

def livePids (w : World) : List Int :=
  ((Slots.all _).filter fun i => (w.runtimesTable i).Present).map fun i => (w.runtimesTable i).pid

section
variable {E : Env} {w w' : World}

theorem count_livePids (w : World) {p : Int} (hp : 0 < p) :
    (livePids w).count p = Slots.count (fun r : P4runtime => r.pid = p) w.runtimesTable := by
  rw [livePids, List.count_eq_countP, List.countP_map, List.countP_filter, List.countP_eq_length_filter,
    ← Slots.length_filter_all]
  congr 1
  apply List.filter_congr
  intro i _
  by_cases he : (w.runtimesTable i).pid = p
  · simp [Present, he, hp]
  · simp [he]

theorem forked_perm (h : Accounted w) (hd : Disciplined w.trace) :
    (forkedPids w.trace).Perm (killedPids w.trace ++ livePids w) := by
  rw [List.perm_iff_count]
  intro p
  rw [List.count_append]
  by_cases hp : 0 < p
  · rw [h.conserved p hp, count_livePids w hp]
  · have hforked : (forkedPids w.trace).count p = 0 := List.count_eq_zero.mpr fun hm => hp (forked_pos p hm)
    have hkilled : (killedPids w.trace).count p = 0 := List.count_eq_zero.mpr fun hm => hp (hd.killed p hm)
    have hlive : (livePids w).count p = 0 := by
      apply List.count_eq_zero.mpr
      intro hm
      obtain ⟨i, hi, rfl⟩ := List.mem_map.mp hm
      have hpresent : (w.runtimesTable i).Present := by simpa using List.of_mem_filter hi
      exact hp hpresent
    omega

theorem forked_length (h : Accounted w) (hd : Disciplined w.trace) :
    ((forkedPids w.trace).length : Int) = (killedPids w.trace).length + w.runtimes := by
  have hlen := (forked_perm h hd).length_eq
  have hlive : (livePids w).length = Slots.count Present w.runtimesTable := by
    rw [livePids, List.length_map, Slots.length_filter_all]
  rw [List.length_append, hlive] at hlen
  rw [h.counter]
  exact_mod_cast hlen

theorem outstanding_entry (h : Entries w) {i : Slot} (hi : 0 < (w.runtimesTable i).pid) :
    Outstanding w.trace (w.runtimesTable i).pid := by
  have hpos : 0 < Slots.count (fun r : P4runtime => r.pid = (w.runtimesTable i).pid) w.runtimesTable :=
    Slots.count_pos.mpr ⟨i, rfl⟩
  have hcount := h.conserved _ hi
  exact ⟨hi, by omega⟩

/-! ## Elementary steps -/

theorem disciplined_note {e : Event} (he : e.isNote = true) (hd : Disciplined w.trace) :
    Disciplined (w.log e).trace := by
  apply Disciplined.cons _ hd
  cases e <;> trivial

theorem disciplined_drop (h : Entries w) {i : Slot} (hi : 0 < (w.runtimesTable i).pid) (hd : Disciplined w.trace) :
    Disciplined (dropEntry E i w).trace := by
  rw [drop_trace E i w hi]
  exact .cons ⟨_, _, rfl⟩ (.cons (outstanding_entry h hi) hd)

theorem disciplined_fork (h : Accounted w) (hroom : w.runtimes < maxConnections) (pid : Int)
    (hd : Disciplined w.trace) :
    Disciplined (afterFork pid (w.log (.fork pid))).trace := by
  have hlen := forked_length h hd
  have hfork : Disciplined (.fork pid :: w.trace) := by
    apply Disciplined.cons _ hd
    show (forkedPids w.trace).length < (killedPids w.trace).length + maxConnections
    omega
  obtain ⟨i, hi, _⟩ := exists_unused h hroom
  have hi' : unusedIndex (w.log (.fork pid)) = some i := hi
  unfold afterFork
  split
  · exact .cons trivial hfork
  split
  · exact hfork
  · rw [hi']
    exact .cons ⟨⟨_, rfl⟩, by omega, Option.some_ne_none i⟩ hfork

theorem disciplined_micro (hs : Micro E w w') (h : Accounted w) (hd : Disciplined w.trace) :
    Disciplined w'.trace := by
  cases hs with
  | pool hp =>
    cases hp with
    | env _ => rw [World.env_trace]; exact hd
    | fork hroom => exact disciplined_fork h hroom _ hd
    | retire hi => exact disciplined_drop h.toEntries hi.1 hd
  | note he => exact disciplined_note he hd
  | link hj _ => exact .cons (outstanding_entry h.toEntries hj.1) hd
  | unlink _ => rw [unlink_trace]; exact hd

theorem disciplined_stop (h : Entries w) (hd : Disciplined w.trace) : Disciplined (stopAllChildren E w).trace := by
  have hloop : Entries (stopLoop E (Slots.all _) w) ∧ Disciplined (stopLoop E (Slots.all _) w).trace :=
    stopLoop_induct (I := fun v => Entries v ∧ Disciplined v.trace)
      (fun _ _ hi hv => ⟨entries_drop hv.1 hi, disciplined_drop hv.1 hi hv.2⟩) _ w ⟨h, hd⟩
  rw [stopAllChildren, World.setRuntimes_trace]
  exact hloop.2

end

theorem disciplined_reachable {A : Assumption} {c : Config} (hr : A.Reachable c) : Disciplined c.world.trace := by
  have hboth : Accounted c.world ∧ Disciplined c.world.trace := by
    refine hr.world_inv (I := fun w => Accounted w ∧ Disciplined w.trace) ⟨accounted_init, .nil⟩ ?_ ?_ ?_
    · intro w e _ hw
      exact ⟨accounted_env hw.1 e, by rw [World.env_trace]; exact hw.2⟩
    · exact fun E w w' _ hs hw => ⟨accounted_micro hs hw.1, disciplined_micro hs hw.1 hw.2⟩
    · exact fun E w e _ _ hw => ⟨accounted_stop hw.1.toEntries, disciplined_stop hw.1.toEntries hw.2⟩
  exact hboth.2

/-- **Every call is in order** after the calls before it, in every run. -/
theorem calls_in_order {c : Config} (hr : Assumption.Reachable {} c) {e : Event} {older : List Event}
    (h : e :: older <:+ c.world.trace) : Lawful older e := by
  cases (disciplined_reachable hr).of_suffix h with
  | cons hlaw _ => exact hlaw

/-- The session of slot 0 leaves, and its runtime is terminated. -/
theorem calls_in_order_demo : ∃ c, launcher.run launcher.init
      (demoActs ++ [.env (.ovsWrite 0 (-1))] ++ scanActs idealEnv 1) = some c ∧
    .kill 65 true :: c.world.trace.drop 2 <:+ c.world.trace ∧ Outstanding (c.world.trace.drop 2) 65 := by
  have hkill : ∃ c,
      launcher.run launcher.init (demoActs ++ [.env (.ovsWrite 0 (-1))] ++ scanActs idealEnv 1) = some c ∧
      .kill 65 true :: c.world.trace.drop 2 <:+ c.world.trace := Lts.run_any (by decide +kernel)
  obtain ⟨c, hc, hsuffix⟩ := hkill
  have hideal : ∀ a ∈ demoActs ++ [.env (.ovsWrite 0 (-1))] ++ scanActs idealEnv 1, a.Ideal :=
    List.forall_mem_append.mpr ⟨List.forall_mem_append.mpr ⟨demo_ideal, by simp⟩, scanActs_ideal⟩
  have hr : Assumption.Reachable {} c := ideal_reachable trivial (fun _ _ _ => trivial) hideal hc
  exact ⟨c, hc, hsuffix, calls_in_order hr hsuffix⟩

end P4Ubpf
