import P4Ubpf.Lease
import P4Ubpf.TaskSound

/-!
# The launcher lends its runtimes

The launcher's log, read as acts on leases of processes to session slots, is a
history of the lease protocol that ends in what the two tables say. `stop`
ends processes that are lent, so a session may be left with an empty lease.
-/

namespace P4Ubpf

open P4runtime Relation Tables Function

def Event.act : Event → Option (Lease.Act Slot Int)
  | .startedChild pid _ => some (.create pid)
  | .kill pid _ => some (.destroy pid)
  | .sessionCreated _ pid idx _ => some (.grant idx pid)
  | .foundLost pid idx => some (.giveBack idx pid)
  | _ => none

structure Lends (t : Tables) (s : Lease Slot Int) : Prop where
  alive : ∀ p, p ∈ s.alive ↔ 0 < p ∧ ∃ j, (t.entries j).pid = p
  holder : ∀ i, s.holder i = if 0 < t.links i then some (t.links i) else none
  inUse : ∀ j, 0 < (t.entries j).pid → ((t.entries j).inUse = true ↔ s.Held (t.entries j).pid)
  distinct : t.Distinct

/-! ## Moves of the tables are steps of the lease -/

section
variable {t : Tables} {s : Lease Slot Int} {i j idx : Slot} {p : Int}

theorem lends_initial : Lends .initial .initial where
  alive := fun p => by
    constructor
    · intro h; cases h
    · intro h
      obtain ⟨hp, j, hj⟩ := h
      have hneg : (-1 : Int) = p := hj
      omega
  holder := fun _ => rfl
  inUse := fun _ h => by cases h
  distinct := distinct_clear .initial

theorem Lends.held (h : Lends t s) (hp : 0 < p) : s.Held p ↔ ∃ i, t.links i = p := by
  constructor
  · intro hx
    obtain ⟨i, hi⟩ := hx
    rw [h.holder] at hi
    split at hi
    · exact ⟨i, Option.some.inj hi⟩
    · cases hi
  · intro hx
    obtain ⟨i, rfl⟩ := hx
    exact ⟨i, by rw [h.holder, if_pos hp]⟩

theorem lends_spawn (h : Lends t s) (hi : (t.entries i).pid = -1) (hp : 0 < p) (hnew : t.NewEntry p) (hlink : t.NewLink p) :
    ∃ s', Lease.Step s (.create p) s' ∧ Lends ⟨update t.entries i ⟨p, false⟩, t.links⟩ s' := by
  have hheld : ¬ s.Held p := fun hx => by
    obtain ⟨k, hk⟩ := (h.held hp).mp hx
    exact hlink k hk
  have halive : p ∉ s.alive := fun hm => by
    obtain ⟨_, k, hk⟩ := (h.alive p).mp hm
    exact hnew k hk
  have hmove : Move NewEntry t ⟨update t.entries i ⟨p, false⟩, t.links⟩ := .spawn hi hp hnew
  refine ⟨_, .create halive hheld, ?_, h.holder, ?_, distinct_move hmove (fun _ h => h) h.distinct⟩
  · intro q
    simp only [Set.mem_insert_iff, h.alive]
    constructor
    · intro ho
      rcases ho with rfl | ⟨hq, k, hk⟩
      · exact ⟨hp, i, by rw [update_self]⟩
      · have hki : k ≠ i := by intro he; subst he; omega
        exact ⟨hq, k, by rw [update_of_ne hki]; exact hk⟩
    · intro hx
      obtain ⟨hq, k, hk⟩ := hx
      by_cases hki : k = i
      · rw [hki, update_self] at hk
        exact .inl hk.symm
      · rw [update_of_ne hki] at hk
        exact .inr ⟨hq, k, hk⟩
  · intro k hk
    simp only at hk ⊢
    by_cases hki : k = i
    · rw [hki, update_self]
      exact ⟨fun hf => (by cases hf), fun hx => absurd hx hheld⟩
    · rw [update_of_ne hki] at hk ⊢
      exact h.inUse k hk

theorem lends_drop (h : Lends t s) (hi : 0 < (t.entries i).pid) :
    ∃ s', Lease.Step s (.destroy (t.entries i).pid) s' ∧ Lends ⟨update t.entries i .empty, t.links⟩ s' := by
  refine ⟨_, .destroy ((h.alive _).mpr ⟨hi, i, rfl⟩), ?_, h.holder, ?_, ?_⟩
  · intro q
    simp only [Set.mem_sdiff, h.alive, Set.mem_singleton_iff]
    constructor
    · intro hx
      obtain ⟨⟨hq, k, hk⟩, hne⟩ := hx
      have hki : k ≠ i := by intro he; subst he; exact hne hk.symm
      exact ⟨hq, k, by rw [update_of_ne hki]; exact hk⟩
    · intro hx
      obtain ⟨hq, k, hk⟩ := hx
      have hki : k ≠ i := by
        intro he
        rw [he, update_self] at hk
        have hneg : (-1 : Int) = q := hk
        omega
      rw [update_of_ne hki] at hk
      exact ⟨⟨hq, k, hk⟩, fun he => hki (h.distinct k i (hk ▸ hq) (hk.trans he))⟩
  · intro k hk
    simp only at hk ⊢
    have hki : k ≠ i := by intro he; rw [he, update_self] at hk; cases hk
    rw [update_of_ne hki] at hk ⊢
    exact h.inUse k hk
  · intro a b ha hab
    simp only at ha hab
    have hai : a ≠ i := by intro he; rw [he, update_self] at ha; cases ha
    rw [update_of_ne hai] at ha hab
    have hbi : b ≠ i := by
      intro he
      rw [he, update_self] at hab
      have hneg : (t.entries a).pid = -1 := hab
      omega
    rw [update_of_ne hbi] at hab
    exact h.distinct a b ha hab

theorem lends_assign (h : Lends t s) (hj : (t.entries j).Idle) (hidx : t.links idx < 0) :
    ∃ s', Lease.Step s (.grant idx (t.entries j).pid) s' ∧
      Lends ⟨update t.entries j ((t.entries j).setInUse true), update t.links idx (t.entries j).pid⟩ s' := by
  have hfree : s.holder idx = none := by rw [h.holder, if_neg (by omega)]
  have hheld : ¬ s.Held (t.entries j).pid := fun hx => by
    have hu := (h.inUse j hj.1).mpr hx
    rw [hj.2] at hu; cases hu
  have hmove : Move NewEntry t ⟨update t.entries j ((t.entries j).setInUse true),
      update t.links idx (t.entries j).pid⟩ := .assign hj hidx
  refine ⟨_, .grant hfree ((h.alive _).mpr ⟨hj.1, j, rfl⟩) hheld, ?_, ?_, ?_, distinct_move hmove (fun _ h => h) h.distinct⟩
  · intro q
    simp only [setInUse_entry_pid]
    exact h.alive q
  · intro i
    simp only [Lease.lend]
    by_cases hi : i = idx
    · rw [hi, update_self, update_self, if_pos hj.1]
    · rw [update_of_ne hi, update_of_ne hi]
      exact h.holder i
  · intro k hk
    simp only [setInUse_entry_pid] at hk ⊢
    by_cases hkj : k = j
    · subst hkj
      simp only [update_self, setInUse_inUse, true_iff]
      exact ⟨idx, update_self ..⟩
    · rw [update_of_ne hkj, h.inUse k hk]
      have hne : (t.entries k).pid ≠ (t.entries j).pid := fun he => hkj (h.distinct k j hk he)
      constructor
      · intro hx
        obtain ⟨i, hi⟩ := hx
        have hii : i ≠ idx := by intro he; subst he; rw [hfree] at hi; cases hi
        exact ⟨i, (update_of_ne hii ..).trans hi⟩
      · intro hx
        obtain ⟨i, hi⟩ := hx
        by_cases hii : i = idx
        · simp only [hii, Lease.lend, update_self, Option.some.injEq] at hi
          exact absurd hi.symm hne
        · exact ⟨i, (update_of_ne hii ..).symm.trans hi⟩

/-- The entries of the process that session `idx` names are set idle. -/
theorem lends_giveBack (h : Lends t s) (hidx : 0 < t.links idx) {entries : Slot → P4runtime}
    (hpid : ∀ k, (entries k).pid = (t.entries k).pid)
    (hoff : ∀ k, (t.entries k).pid = t.links idx → (entries k).inUse = false)
    (hkept : ∀ k, (t.entries k).pid ≠ t.links idx → (entries k).inUse = (t.entries k).inUse) :
    ∃ s', Lease.Step s (.giveBack idx (t.links idx)) s' ∧ Lends ⟨entries, update t.links idx (-1)⟩ s' := by
  have hlent : s.holder idx = some (t.links idx) := by rw [h.holder, if_pos hidx]
  refine ⟨_, .giveBack hlent, ?_, ?_, ?_, ?_⟩
  · intro q
    simp only [hpid]
    exact h.alive q
  · intro i
    simp only [Lease.release]
    by_cases hi : i = idx
    · rw [hi, update_self, update_self]; rfl
    · rw [update_of_ne hi, update_of_ne hi]
      exact h.holder i
  · intro k hk
    simp only [hpid] at hk ⊢
    by_cases hki : (t.entries k).pid = t.links idx
    · rw [hoff k hki]
      constructor
      · intro hf; cases hf
      · intro hx
        obtain ⟨i, hi⟩ := hx
        have hii : i ≠ idx := by intro he; rw [he] at hi; simp [Lease.release] at hi
        have hold : s.holder i = some (t.entries k).pid := (update_of_ne hii ..).symm.trans hi
        exact absurd (s.exclusive i idx _ hold (by rw [hki]; exact hlent)) hii
    · rw [hkept k hki, h.inUse k hk]
      constructor
      · intro hx
        obtain ⟨i, hi⟩ := hx
        have hii : i ≠ idx := by
          intro he
          rw [he, hlent] at hi
          exact hki (Option.some.inj hi).symm
        exact ⟨i, (update_of_ne hii ..).trans hi⟩
      · intro hx
        obtain ⟨i, hi⟩ := hx
        have hii : i ≠ idx := by intro he; rw [he] at hi; simp [Lease.release] at hi
        exact ⟨i, (update_of_ne hii ..).symm.trans hi⟩
  · intro a b ha hab
    simp only [hpid] at ha hab
    exact h.distinct a b ha hab

end

/-! ## The log is a history of leases -/

def Logged (w : World) : Prop := ∃ s, Lease.Run .initial (w.trace.filterMap Event.act) s ∧ Lends w.tables s

section
variable {E : Env} {w w' : World} {fuel : ℕ} {idx : Slot}

theorem logged_same (h : Logged w) (ht : w'.tables = w.tables) (hadds : w.Adds (fun e => e.act = none) w') : Logged w' := by
  obtain ⟨s, hrun, hs⟩ := h
  obtain ⟨es, htr, hes⟩ := hadds
  refine ⟨s, ?_, ht ▸ hs⟩
  rw [htr, List.filterMap_append, List.filterMap_eq_nil_iff.mpr hes]
  exact hrun

theorem logged_step {a : Lease.Act Slot Int} (hlog : w'.trace.filterMap Event.act = a :: w.trace.filterMap Event.act)
    (hstep : ∀ s, Lends w.tables s → ∃ s', Lease.Step s a s' ∧ Lends w'.tables s') (h : Logged w) : Logged w' := by
  obtain ⟨s, hrun, hs⟩ := h
  obtain ⟨s', hs', hlends⟩ := hstep s hs
  exact ⟨s', by rw [hlog]; exact .cons hrun hs', hlends⟩

theorem logged_drop {i : Slot} (hi : 0 < (w.runtimesTable i).pid) (h : Logged w) : Logged (dropEntry E i w) := by
  apply logged_step (a := .destroy (w.runtimesTable i).pid) _ _ h
  · rw [drop_trace E i w hi]; rfl
  · intro s hs
    obtain ⟨s', hstep, hlends⟩ := lends_drop hs hi
    refine ⟨s', hstep, ?_⟩
    rw [World.tables, drop_table, drop_links]
    exact hlends

theorem logged_fork (h : Accounted w) (hroom : w.runtimes < maxConnections) (ht : E.NewToTable) (hl : E.NewToSessions)
    (hw : Logged w) : Logged (afterFork (E.fork w) (w.log (.fork (E.fork w)))) := by
  rcases fork_cases h hroom (E.fork w) with ⟨_, es, hes, heq⟩ | ⟨hpos, i, hi, heq⟩
  · rw [heq]
    refine logged_same hw rfl ⟨es, rfl, ?_⟩
    intro e he
    rcases hes e he with rfl | rfl
    · rfl
    · rfl
  · rw [heq]
    exact logged_step (a := .create (E.fork w)) rfl
      (fun s hs => lends_spawn hs hi hpos (fun k => ht w hpos k) (fun k => hl w hpos k)) hw

theorem logged_pool (hs : PoolStep E w w') (ht : E.NewToTable) (hl : E.NewToSessions) (h : Accounted w) (hw : Logged w) :
    Logged w' := by
  cases hs with
  | env _ => exact logged_same hw (by simp [World.tables]) (.same (World.env_trace _ _))
  | fork hroom => exact logged_fork h hroom ht hl hw
  | retire hi => exact logged_same (logged_drop hi.1 hw) rfl (.same rfl)

theorem logged_chain (hs : ReflTransGen (PoolStep E) w w') (ht : E.NewToTable) (hl : E.NewToSessions) (h : Accounted w)
    (hw : Logged w) : Logged w' := by
  have hboth : Accounted w' ∧ Logged w' := hs.keep (I := fun v => Accounted v ∧ Logged v)
    (fun _ _ hs hv => ⟨accounted_micro (.pool hs) hv.1, logged_pool hs ht hl hv.1 hv.2⟩) ⟨h, hw⟩
  exact hboth.2

theorem logged_link {j : Slot} (hj : (w.runtimesTable j).Idle) (hidx : w.links idx < 0) (hw : Logged w) :
    Logged (link j idx w) := by
  apply logged_step (a := .grant idx (w.runtimesTable j).pid) rfl _ hw
  intro s hs
  obtain ⟨s', hstep, hlends⟩ := lends_assign hs hj hidx
  refine ⟨s', hstep, ?_⟩
  rw [World.tables, link, World.log_table, World.log_links, World.setP4runtimeId_table, World.setP4runtimeId_links]
  exact hlends

theorem logged_unlink (hidx : 0 < w.links idx) (hw : Logged w) :
    Logged (unlink idx (w.log (.foundLost (w.links idx) idx))) := by
  apply logged_step (a := .giveBack idx (w.links idx)) _ _ hw
  · rw [unlink_trace]; rfl
  intro s hs
  have hlinks := unlink_links idx (w.log (.foundLost (w.links idx) idx))
  rw [World.tables, hlinks]
  unfold unlink
  rw [World.setP4runtimeId_table]
  cases hf : Slots.first? (fun r : P4runtime => r.pid = ((w.log (.foundLost (w.links idx) idx)).sessionTable idx).p4runtimeId)
      (w.log (.foundLost (w.links idx) idx)).runtimesTable with
  | none =>
    have hno := Slots.first?_eq_none.mp hf
    exact lends_giveBack hs hidx (fun _ => rfl) (fun k hk => absurd hk (hno k)) (fun _ _ => rfl)
  | some i =>
    have hi : (w.runtimesTable i).pid = w.links idx :=
      Slots.first?_spec (p := fun r : P4runtime => r.pid = (w.sessionTable idx).p4runtimeId) hf
    simp only [World.setRuntime_table, World.log_table, World.log_links]
    apply lends_giveBack hs hidx
    · exact fun k => setInUse_entry_pid (t := w.tables) i k false
    · intro k hk
      have hki : k = i := hs.distinct k i (lt_of_lt_of_eq hidx hk.symm) (hk.trans hi.symm)
      rw [hki, update_self]; rfl
    · intro k hk
      have hki : k ≠ i := by intro he; subst he; exact hk hi
      rw [update_of_ne hki]; rfl

theorem logged_stop (h : Logged w) : Logged (stopAllChildren E w) := by
  have hloop : Logged (stopLoop E (Slots.all _) w) :=
    stopLoop_induct (I := Logged) (fun _ _ hi hv => logged_drop hi hv) _ w h
  apply logged_same hloop
  · rw [World.tables, stopAllChildren, World.setRuntimes_table, World.setRuntimes_links]; rfl
  · exact .same (by rw [stopAllChildren, World.setRuntimes_trace])

theorem logged_task {c c' : Config} {a : Act} (ha : freshForks.ok c a) (h : Accounted c.world)
    (hs : Task a c.world c'.world) (hw : Logged c.world) : Logged c'.world := by
  obtain ⟨ph, w⟩ := c
  obtain ⟨ph', w'⟩ := c'
  simp only at hs h hw ⊢
  have hnote : ∀ {v : World} {e : Event}, e.act = none → Logged v → Logged (v.log e) := fun he hv =>
    logged_same hv rfl (.one rfl he)
  cases hs with
  | start hs => exact logged_chain (spawnLoop_pool (by decide) _ _ hs) ha.1 ha.2 h hw
  | quiet hq =>
    refine logged_same hw hq.tables (hq.lines.mono ?_)
    intro e he
    cases e <;> first | rfl | cases he
  | @add E fuel idx w w' hidx hs =>
    obtain ⟨v, hv, hcase⟩ := linkAdd_cases hs
    have hchain := (adjust_pool hv).trans (yield_pool E v)
    have hyield : Logged (v.yield E) := logged_chain hchain ha.1 ha.2 (accounted_note h rfl) (hnote rfl hw)
    rcases hcase with ⟨j, hj, rfl⟩ | ⟨_, rfl⟩
    · exact logged_link (findFree_idle hj) (by rw [pool_links hchain]; exact hidx) hyield
    · exact hnote rfl hyield
  | del hidx hs =>
    exact logged_chain (adjust_pool hs) ha.1 ha.2 (accounted_unlink (accounted_note h rfl) _) (logged_unlink hidx hw)
  | update _ hs =>
    exact hnote rfl (logged_chain (adjust_pool hs) ha.1.1 ha.1.2 (accounted_note h rfl) (hnote rfl hw))
  | stop _ => exact hnote rfl (logged_stop (hnote rfl hw))

theorem logged_reachable {c : Config} (hr : freshForks.Reachable c) : Logged c.world :=
  task_inv (I := fun c => Logged c.world) hr ⟨.initial, .nil, lends_initial⟩
    fun _ _ _ hr ha _ hs hw => logged_task ha (accounted_reachable hr) hs hw

end

/-- The session of slot 0 leaves and another comes, twice over. -/
def againActs : List Act := demoActs ++
  [.env (.ovsWrite 0 (-1))] ++ scanActs idealEnv 1 ++ [.env (.ovsWrite 0 9)] ++ scanActs idealEnv 1 ++
  [.env (.ovsWrite 0 (-1))] ++ scanActs idealEnv 1 ++ [.env (.ovsWrite 0 10)] ++ scanActs idealEnv 1

theorem againActs_ideal : ∀ a ∈ againActs, a.Ideal := by
  simp only [againActs, List.forall_mem_append, List.forall_mem_singleton]
  simp only [ideal_write, and_true]
  exact ⟨⟨⟨⟨demo_ideal, scanActs_ideal⟩, scanActs_ideal⟩, scanActs_ideal⟩, scanActs_ideal⟩

theorem again_reachable {c : Config} (h : launcher.run launcher.init againActs = some c) : freshForks.Reachable c :=
  ideal_reachable (A := freshForks) ⟨ideal_newToTable, ideal_newToSessions⟩ (fun _ _ _ => trivial) againActs_ideal h

section
variable {c : Config} {newer mid older : List Event} {t t' p p' : Int} {i i' : Slot} {own own' : Bool}

/-- **A runtime is handed on only after it was given back**, and a session
gets another one only after it has given back the first, where `fork` returns
no pid that either table has. -/
theorem handed_on (hr : freshForks.Reachable c)
    (htr : c.world.trace = newer ++ .sessionCreated t' p' i' own' :: (mid ++ .sessionCreated t p i own :: older))
    (hsame : p' = p ∨ i' = i) : .foundLost p i ∈ mid := by
  obtain ⟨s, hrun, _⟩ := logged_reachable hr
  rw [htr] at hrun
  simp only [List.filterMap_append, List.filterMap_cons, Event.act] at hrun
  obtain ⟨e, he, hact⟩ := List.mem_filterMap.mp (hrun.given_back hsame)
  cases e <;> simp only [Event.act, Option.some.injEq, reduceCtorEq, Lease.Act.giveBack.injEq] at hact
  obtain ⟨rfl, rfl⟩ := hact
  exact he

/-- **No process is handed out after it was ended**, unless the kernel has
given its pid to a new runtime, where `fork` returns no pid that either table
has. -/
theorem forked_again (hr : freshForks.Reachable c)
    (htr : c.world.trace = newer ++ .sessionCreated t p i own :: (mid ++ .kill p own' :: older)) :
    ∃ slot, .startedChild p slot ∈ mid := by
  obtain ⟨s, hrun, _⟩ := logged_reachable hr
  rw [htr] at hrun
  simp only [List.filterMap_append, List.filterMap_cons, Event.act] at hrun
  obtain ⟨e, he, hact⟩ := List.mem_filterMap.mp hrun.created_again
  cases e <;> simp only [Event.act, Option.some.injEq, reduceCtorEq, Lease.Act.create.injEq] at hact
  subst hact
  exact ⟨_, he⟩

end

theorem handed_on_demo : ∃ c, launcher.run launcher.init againActs = some c ∧
    .foundLost 452 0 ∈ (c.world.trace.drop 1).take 6 := by
  have hend : ∃ c, launcher.run launcher.init againActs = some c ∧ c.world.trace = [] ++ .sessionCreated 10 452 0 true ::
      ((c.world.trace.drop 1).take 6 ++ .sessionCreated 9 452 0 true :: c.world.trace.drop 8) :=
    Lts.run_any (by decide +kernel)
  obtain ⟨c, hc, htr⟩ := hend
  exact ⟨c, hc, handed_on (again_reachable hc) htr (.inl rfl)⟩

theorem forked_again_demo : ∃ c, launcher.run launcher.init againActs = some c ∧
    ∃ slot, .startedChild 452 slot ∈ (c.world.trace.drop 1).take 4 := by
  have hend : ∃ c, launcher.run launcher.init againActs = some c ∧ c.world.trace = [] ++ .sessionCreated 10 452 0 true ::
      ((c.world.trace.drop 1).take 4 ++ .kill 452 true :: c.world.trace.drop 6) := Lts.run_any (by decide +kernel)
  obtain ⟨c, hc, htr⟩ := hend
  exact ⟨c, hc, forked_again (again_reachable hc) htr⟩

end P4Ubpf
