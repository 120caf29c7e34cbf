import P4Ubpf.AdjustSound
import P4Ubpf.PoolSound

/-!
# What the client commands do

The dispatcher compares prefixes and `atoi` accepts anything, so a message
that merely begins like a command acts like it. The commands as they are meant
are stated here in terms of the words of a message. The loop of the status
command ends at the end of the table or once it has printed as many pids as the
counter says; the counter is the number of recorded runtimes, so whatever holes
the table has, no runtime stands behind the slot where the loop ends.
-/

namespace P4Ubpf

open P4runtime Relation

/-! ## Words -/

def word (m : List UInt8) : List UInt8 := (m.dropWhile (· = 32)).takeWhile (· ≠ 32)

def afterWord (m : List UInt8) : List UInt8 := (m.dropWhile (· = 32)).dropWhile (· ≠ 32)

def isDecimal (s : List UInt8) : Bool :=
  match s with
  | 45 :: s => s ≠ [] && s.all isdigit -- a minus sign
  | 43 :: s => s ≠ [] && s.all isdigit -- a plus sign
  | s => s ≠ [] && s.all isdigit

def IsUpdate (m : List UInt8) : Prop := word m = bytes "update" ∧ isDecimal (word (afterWord m)) = true
def IsStop (m : List UInt8) : Prop := word m = bytes "stop"
def IsShutdown (m : List UInt8) : Prop := word m = bytes "shutdown"

instance : DecidablePred IsUpdate := fun m =>
  inferInstanceAs (Decidable (word m = bytes "update" ∧ isDecimal (word (afterWord m)) = true))
instance : DecidablePred IsStop := fun m => inferInstanceAs (Decidable (word m = bytes "stop"))
instance : DecidablePred IsShutdown := fun m => inferInstanceAs (Decidable (word m = bytes "shutdown"))

/-- A command is meant by whatever the dispatcher takes for it. -/
structure Proper (m : List UInt8) : Prop where
  update : strncmpEq m "update " = true → IsUpdate m
  stop : strncmpEq m "stop" = true → IsStop m
  shutdown : strncmpEq m "shutdown" = true → IsShutdown m

def Event.isSignal : Event → Bool
  | .kill .. | .pkill => true
  | _ => false

/-- Message `m` leaves alone what only other messages may change. -/
structure Conforms (m : List UInt8) (w w' : World) : Prop where
  pool : ¬ IsUpdate m → ¬ IsStop m → w'.runtimesTable = w.runtimesTable ∧ w'.runtimes = w.runtimes
  signals : ¬ IsUpdate m → ¬ IsStop m → ¬ IsShutdown m → w.Adds (fun e => e.isSignal = false) w'
  others : ¬ IsUpdate m → ¬ IsStop m → ¬ IsShutdown m → w'.sessionTable = w.sessionTable ∧ w'.children = w.children


section
variable {m : List UInt8}

theorem strncmpEq_iff {s : String} : strncmpEq m s = true ↔ ∃ r, m = bytes s ++ r := by
  rw [strncmpEq, List.isPrefixOf_iff_prefix]
  constructor
  · intro h
    obtain ⟨r, hr⟩ := h
    exact ⟨r, hr.symm⟩
  · intro h
    obtain ⟨r, rfl⟩ := h
    exact List.prefix_append _ r

theorem strncmpEq_clash {s t : String} (h : strncmpEq m s = true) (hst : ¬ bytes s <+: bytes t)
    (hts : ¬ bytes t <+: bytes s) : ¬ strncmpEq m t = true := by
  intro ht
  have hs' : bytes s <+: m := List.isPrefixOf_iff_prefix.mp h
  have ht' : bytes t <+: m := List.isPrefixOf_iff_prefix.mp ht
  rcases List.prefix_or_prefix_of_prefix hs' ht' with hp | hp
  · exact hst hp
  · exact hts hp

theorem word_append {s r : List UInt8} (hne : s ≠ []) (hs : ∀ b ∈ s, b ≠ 32) :
    word (s ++ r) = s ++ r.takeWhile (· ≠ 32) := by
  cases s with
  | nil => exact absurd rfl hne
  | cons b s =>
    have hb : ¬ decide (b = 32) = true := by simpa using hs b List.mem_cons_self
    rw [word, List.cons_append, List.dropWhile_cons, if_neg hb, ← List.cons_append, List.takeWhile_append_of_pos]
    intro a ha
    simpa using hs a ha

theorem word_update (h : strncmpEq m "update " = true) : word m = bytes "update" := by
  obtain ⟨r, rfl⟩ := strncmpEq_iff.mp h
  have hsplit : bytes "update " = bytes "update" ++ [32] := by decide
  rw [hsplit, List.append_assoc, word_append (by decide +kernel) (by decide +kernel)]
  simp

theorem word_stop (h : strncmpEq m "stop" = true) : ∃ r, word m = bytes "stop" ++ r := by
  obtain ⟨r, rfl⟩ := strncmpEq_iff.mp h
  exact ⟨_, word_append (by decide +kernel) (by decide +kernel)⟩

theorem word_shutdown (h : strncmpEq m "shutdown" = true) : ∃ r, word m = bytes "shutdown" ++ r := by
  obtain ⟨r, rfl⟩ := strncmpEq_iff.mp h
  exact ⟨_, word_append (by decide +kernel) (by decide +kernel)⟩

theorem parse_update (h : strncmpEq m "update " = true) : parseCommand m = .update (m.drop 7) := by
  rw [parseCommand, if_neg (strncmpEq_clash h (by decide) (by decide)), if_pos h]

theorem parse_stop (h : strncmpEq m "stop" = true) : parseCommand m = .stop := by
  rw [parseCommand, if_neg (strncmpEq_clash h (by decide) (by decide)),
    if_neg (strncmpEq_clash h (by decide) (by decide)), if_pos h]

theorem parse_shutdown (h : strncmpEq m "shutdown" = true) : parseCommand m = .shutdown := by
  rw [parseCommand, if_neg (strncmpEq_clash h (by decide) (by decide)),
    if_neg (strncmpEq_clash h (by decide) (by decide)), if_neg (strncmpEq_clash h (by decide) (by decide)),
    if_neg (strncmpEq_clash h (by decide) (by decide)), if_pos h]

theorem strncmpEq_of_parse (m : List UInt8) :
    (∀ arg, parseCommand m = .update arg → strncmpEq m "update " = true) ∧
      (parseCommand m = .stop → strncmpEq m "stop" = true) ∧
      (parseCommand m = .shutdown → strncmpEq m "shutdown" = true) := by
  unfold parseCommand
  split
  · simp
  split
  · simp_all
  split
  · simp_all
  split
  · simp
  split
  · simp_all
  · simp

end

/-! ## Proper messages -/

section
variable {m msg : List UInt8} {E : Env} {w w' : World} {fuel : ℕ}

/-- What the handlers of the other commands write is lines, and nothing else. -/
structure Speaks (w w' : World) : Prop where
  table : w'.runtimesTable = w.runtimesTable
  runtimes : w'.runtimes = w.runtimes
  session : w'.sessionTable = w.sessionTable
  children : w'.children = w.children
  signals : w.Adds (fun e => e.isSignal = false) w'

theorem speaks_log {e : Event} (he : e.isSignal = false) : Speaks w (w.log e) := ⟨rfl, rfl, rfl, rfl, .one rfl he⟩

theorem Speaks.trans {u v w : World} (h₁ : Speaks u v) (h₂ : Speaks v w) : Speaks u w :=
  ⟨h₂.table.trans h₁.table, h₂.runtimes.trans h₁.runtimes, h₂.session.trans h₁.session,
    h₂.children.trans h₁.children, h₁.signals.trans h₂.signals⟩

theorem statusLoop_speaks : ∀ (is : List Slot) (reported : Int) (w : World), Speaks w (statusLoop is reported w)
  | [], _, w => ⟨rfl, rfl, rfl, rfl, .same rfl⟩
  | i :: is, reported, w => by
    rw [statusLoop]
    split
    · split
      · exact (speaks_log rfl).trans (statusLoop_speaks is _ _)
      · exact statusLoop_speaks is reported w
    · exact ⟨rfl, rfl, rfl, rfl, .same rfl⟩

theorem Speaks.conforms (h : Speaks w w') : Conforms m w w' :=
  ⟨fun _ _ => ⟨h.table, h.runtimes⟩, fun _ _ _ => h.signals, fun _ _ _ => ⟨h.session, h.children⟩⟩

theorem conforms_refl (m : List UInt8) (w : World) : Conforms m w w :=
  Speaks.conforms ⟨rfl, rfl, rfl, rfl, .same rfl⟩

theorem proper_conforms (hm : Proper (readBuffer msg)) (h : handleClient E fuel msg w = some w') :
    Conforms (readBuffer msg) w w' := by
  obtain ⟨hupdate, hstop, hshutdown⟩ := strncmpEq_of_parse (readBuffer msg)
  unfold handleClient at h
  simp only at h
  split at h
  · simp only [Option.some.injEq] at h; subst h; exact conforms_refl _ w
  have hlog : Speaks w (w.log (.command ((readBuffer msg).takeWhile (· ≠ 0)))) := speaks_log rfl
  cases hc : parseCommand (readBuffer msg) with
  | start =>
    simp only [hc, handleCommand, Option.some.injEq] at h; subst h
    exact (hlog.trans (speaks_log rfl)).conforms
  | update arg =>
    have hu := hm.update (hupdate arg hc)
    exact ⟨fun hn _ => absurd hu hn, fun hn _ _ => absurd hu hn, fun hn _ _ => absurd hu hn⟩
  | stop =>
    have hs := hm.stop (hstop hc)
    exact ⟨fun _ hn => absurd hs hn, fun _ hn _ => absurd hs hn, fun _ hn _ => absurd hs hn⟩
  | status =>
    simp only [hc, handleCommand, Option.some.injEq] at h; subst h
    exact (hlog.trans ((speaks_log rfl).trans (statusLoop_speaks _ _ _))).conforms
  | shutdown =>
    have hs := hm.shutdown (hshutdown hc)
    simp only [hc, handleCommand, Option.some.injEq] at h; subst h
    refine ⟨fun _ _ => ?_, fun _ _ hn => absurd hs hn, fun _ _ hn => absurd hs hn⟩
    simp [handleShutdownCommand, dprintf]
  | unknown =>
    simp only [hc, handleCommand, Option.some.injEq] at h; subst h
    exact (hlog.trans (speaks_log rfl)).conforms

end

/-! ## Improper messages -/

def runtimesActs (k : String) : List Act := [.start idealEnv 1, .client idealEnv 32 (bytes k)]

/-- Idle runtimes, but not as many as an `update` of `n` leaves. -/
theorem exists_pool (n : Int) : ∃ w, Assumption.Reachable {} ⟨.top, w⟩ ∧ 0 < w.runtimes ∧ inUseCount w = 0 ∧
    w.runtimes ≠ max 0 (min n maxConnections) := by
  have hmax : (maxConnections : Int) = 32 := rfl
  have hrun : ∀ {k c}, launcher.run launcher.init (runtimesActs k) = some c →
      parseCommand (readBuffer (bytes k)) ≠ .stop → Assumption.Reachable {} c := by
    intro k c hc hk
    exact ideal_reachable trivial (fun _ _ _ => trivial) (by simp [runtimesActs, ideal_client 32 hk]) hc
  by_cases hn : n = 1
  · have htwo : ∃ c, launcher.run launcher.init (runtimesActs "update 2") = some c ∧ c.phase = .top ∧
        c.world.runtimes = 2 ∧ inUseCount c.world = 0 := Lts.run_any (by decide +kernel)
    obtain ⟨⟨ph, w⟩, hc, rfl, hw, hu⟩ := htwo
    simp only at hw
    exact ⟨w, hrun hc (by decide), by omega, hu, by omega⟩
  · have hone : ∃ c, launcher.run launcher.init (runtimesActs "update 1") = some c ∧ c.phase = .top ∧
        c.world.runtimes = 1 ∧ inUseCount c.world = 0 := Lts.run_any (by decide +kernel)
    obtain ⟨⟨ph, w⟩, hc, rfl, hw, hu⟩ := hone
    simp only at hw
    exact ⟨w, hrun hc (by decide), by omega, hu, by omega⟩

section
variable {m msg : List UInt8}

theorem handleClient_command {s : String} (h : strncmpEq (readBuffer msg) s = true) (hs : bytes s ≠ []) (E : Env)
    (fuel : ℕ) (w : World) : handleClient E fuel msg w = handleCommand E fuel (parseCommand (readBuffer msg))
      (w.log (.command ((readBuffer msg).takeWhile (· ≠ 0)))) := by
  have hne : readBuffer msg ≠ [] := by
    obtain ⟨r, hr⟩ := strncmpEq_iff.mp h
    rw [hr]
    exact List.append_ne_nil_of_left_ne_nil hs r
  unfold handleClient
  exact if_neg hne

def Harmless (msg : List UInt8) : Prop := ∀ {w}, Assumption.Reachable {} ⟨.top, w⟩ → ∀ E fuel w',
  handleClient E fuel msg w = some w' → Conforms (readBuffer msg) w w'

theorem harmless_stop (hall : Harmless msg) (h : strncmpEq (readBuffer msg) "stop" = true) : IsStop (readBuffer msg) := by
  by_contra hno
  obtain ⟨w, hr, hpos, _, _⟩ := exists_pool 0
  have hclient := handleClient_command h (by decide) idealEnv 0 w
  rw [parse_stop h] at hclient
  have hupdate : ¬ IsUpdate (readBuffer msg) := by
    obtain ⟨r, hw⟩ := word_stop h
    intro hu
    rw [IsUpdate, hw] at hu
    exact absurd ⟨r, hu.1⟩ (show ¬ bytes "stop" <+: bytes "update" by decide)
  have hsame := ((hall hr idealEnv 0 _ hclient).pool hupdate hno).2
  have hzero : (handleStopCommand idealEnv (w.log (.command ((readBuffer msg).takeWhile (· ≠ 0))))).runtimes = 0 := rfl
  omega

theorem harmless_update (hall : Harmless msg) (h : strncmpEq (readBuffer msg) "update " = true) :
    IsUpdate (readBuffer msg) := by
  by_contra hno
  obtain ⟨w, hr, _, hidle, hne⟩ := exists_pool (atoi ((readBuffer msg).drop 7))
  have hclient := handleClient_command h (by decide) idealEnv maxConnections w
  rw [parse_update h] at hclient
  have hacc : Accounted (w.log (.command ((readBuffer msg).takeWhile (· ≠ 0)))) :=
    accounted_event (accounted_reachable hr) rfl rfl (fun _ _ => Event.noConfusion)
  have hpos : 0 ≤ w.runtimes := (pool_accounting hr).2.1
  obtain ⟨v, hv, ha⟩ : ∃ v, adjustChildren idealEnv maxConnections (atoi ((readBuffer msg).drop 7)) _ = some v ∧
      Adjusted (atoi ((readBuffer msg).drop 7)) _ v :=
    adjust_adjusted hacc ideal_succeeds (by rw [World.log_runtimes]; omega)
  have hstop : ¬ IsStop (readBuffer msg) := by
    rw [IsStop, word_update h]; decide
  have hdone : handleClient idealEnv maxConnections msg w =
      some (dprintf (.adjusted (atoi ((readBuffer msg).drop 7))) v) := by
    rw [hclient, handleCommand, handleUpdateCommand]
    simp only [hv, Option.bind_eq_bind, Option.bind_some]
  have hsame : v.runtimes = w.runtimes := ((hall hr _ _ _ hdone).pool hno hstop).2
  have hrun := ha.runtimes
  rw [inUseCount, World.log_table] at hrun
  unfold inUseCount at hidle
  omega

theorem harmless_shutdown (hall : Harmless msg) (h : strncmpEq (readBuffer msg) "shutdown" = true) :
    IsShutdown (readBuffer msg) := by
  by_contra hno
  obtain ⟨w, hr, _, _, _⟩ := exists_pool 0
  have hclient := handleClient_command h (by decide) idealEnv 0 w
  rw [parse_shutdown h] at hclient
  obtain ⟨r, hw⟩ := word_shutdown h
  have hupdate : ¬ IsUpdate (readBuffer msg) := by
    intro hu
    rw [IsUpdate, hw] at hu
    exact absurd ⟨r, hu.1⟩ (show ¬ bytes "shutdown" <+: bytes "update" by decide)
  have hstop : ¬ IsStop (readBuffer msg) := by
    intro hs
    rw [IsStop, hw] at hs
    exact absurd ⟨r, hs⟩ (show ¬ bytes "shutdown" <+: bytes "stop" by decide)
  obtain ⟨es, htr, hes⟩ := (hall hr idealEnv 0 _ hclient).signals hupdate hstop hno
  have hlines : (handleShutdownCommand idealEnv (w.log (.command ((readBuffer msg).takeWhile (· ≠ 0))))).trace =
      [.reply (.shutdownResult 0), .pkill, .reply .shuttingDown, .command ((readBuffer msg).takeWhile (· ≠ 0))] ++
        w.trace := rfl
  rw [hlines] at htr
  have hmem : Event.pkill ∈ es := by
    rw [← List.append_cancel_right htr]; simp
  cases hes _ hmem

end

/-- **A message is harmless** in every state if and only if it is proper. -/
theorem malformed_harmless_iff (msg : List UInt8) : Harmless msg ↔ Proper (readBuffer msg) := by
  constructor
  · intro hall
    exact ⟨harmless_update hall, harmless_stop hall, harmless_shutdown hall⟩
  · intro hm w _ E fuel w' h
    exact proper_conforms hm h

theorem stopwatch_stops : ∃ w w', Assumption.Reachable {} ⟨.top, w⟩ ∧
    handleClient idealEnv 0 (bytes "stopwatch") w = some w' ∧ word (bytes "stopwatch") ≠ bytes "stop" ∧
    word (bytes "stopwatch") ≠ bytes "update" ∧ 0 < w.runtimes ∧ w'.runtimes = 0 := by
  obtain ⟨w, hr, hpos, _, _⟩ := exists_pool 0
  exact ⟨w, handleStopCommand idealEnv (w.log (.command (bytes "stopwatch"))), hr, rfl, by decide, by decide, hpos, rfl⟩

/-! ## The status report -/

def presentSlots (w : World) : List Slot := (Slots.all _).filter fun i => (w.runtimesTable i).Present

/-- The pids of the runtimes in the slots `is` have been printed. -/
def printed (is : List Slot) (w : World) : World :=
  { w with trace := (is.map fun i => .reply (.childPid (w.runtimesTable i).pid)).reverse ++ w.trace }

section
variable {w : World}

theorem mem_presentSlots {i : Slot} : i ∈ presentSlots w ↔ 0 < (w.runtimesTable i).pid := by
  rw [presentSlots, List.mem_filter, decide_eq_true_eq]
  exact ⟨And.right, fun h => ⟨Slots.mem_all i, h⟩⟩

theorem presentSlots_sorted (w : World) : (presentSlots w).Pairwise (· < ·) :=
  (List.pairwise_lt_finRange _).filter _

theorem statusLoop_printed {is : List Slot} {reported : Int}
    (h : w.runtimes = reported + (is.filter fun i => (w.runtimesTable i).Present).length) :
    statusLoop is reported w = printed (is.filter fun i => (w.runtimesTable i).Present) w := by
  induction is generalizing reported w with
  | nil => rfl
  | cons i is ih =>
    rw [statusLoop]
    by_cases hi : (w.runtimesTable i).Present
    · have hpos : 0 < (w.runtimesTable i).pid := hi
      rw [List.filter_cons_of_pos (by simpa using hi)] at h ⊢
      rw [List.length_cons] at h
      have hrest : (dprintf (.childPid (w.runtimesTable i).pid) w).runtimes =
          reported + 1 + (is.filter fun j => (w.runtimesTable j).Present).length := by
        change w.runtimes = _; omega
      rw [if_pos (by omega), if_pos hpos, ih hrest, printed, printed, List.map_cons, List.reverse_cons,
        List.append_assoc]; rfl
    · have hpos : ¬ 0 < (w.runtimesTable i).pid := hi
      rw [List.filter_cons_of_neg (by simpa using hi)] at h ⊢
      rw [if_neg hpos]
      split
      · exact ih h
      · -- the counter is used up, and no runtime is left
        have hnone : (is.filter fun j => (w.runtimesTable j).Present) = [] :=
          List.eq_nil_of_length_eq_zero (by omega)
        rw [hnone]; rfl

end

/-- **Status reports the whole pool**: the counter, and the pids of as many
runtimes, which are the ones in the table, slot after slot. -/
theorem status_reports_pool {c : Config} (hr : Assumption.Reachable {} c) :
    ∃ is : List Slot, is.Pairwise (· < ·) ∧ (∀ i, i ∈ is ↔ 0 < (c.world.runtimesTable i).pid) ∧
      (is.length : Int) = c.world.runtimes ∧
      handleStatusCommand c.world = { c.world with
        trace := (is.map fun i => .reply (.childPid (c.world.runtimesTable i).pid)).reverse ++
          .reply (.childCount c.world.runtimes) :: c.world.trace } := by
  have hcount : ((presentSlots c.world).length : Int) = c.world.runtimes := by
    rw [(accounted_reachable hr).counter, presentSlots, Slots.length_filter_all]
  refine ⟨presentSlots c.world, presentSlots_sorted c.world, fun _ => mem_presentSlots, hcount, ?_⟩
  exact statusLoop_printed (w := dprintf (.childCount c.world.runtimes) c.world) (by rw [zero_add]; exact hcount.symm)

/-- The runtime of slot 0 is terminated, those of slots 1 and 2 stay. -/
def holeActs : List Act := [.start idealEnv 1, .client idealEnv 2 (bytes "update 3"), .client idealEnv 0 (bytes "update 2")]

theorem status_reports_pool_demo : ∃ c, launcher.run launcher.init holeActs = some c ∧ c.world.runtimes = 2 ∧
    (c.world.runtimesTable 0).pid = -1 ∧
    ∃ is : List Slot, is.Pairwise (· < ·) ∧ (∀ i, i ∈ is ↔ 0 < (c.world.runtimesTable i).pid) ∧
      (is.length : Int) = c.world.runtimes ∧
      handleStatusCommand c.world = { c.world with
        trace := (is.map fun i => .reply (.childPid (c.world.runtimesTable i).pid)).reverse ++
          .reply (.childCount c.world.runtimes) :: c.world.trace } := by
  have hend : ∃ c, launcher.run launcher.init holeActs = some c ∧ c.world.runtimes = 2 ∧
      (c.world.runtimesTable 0).pid = -1 := Lts.run_any (by decide +kernel)
  obtain ⟨c, hc, htwo, hhole⟩ := hend
  have hideal : ∀ a ∈ holeActs, a.Ideal := by
    refine List.forall_mem_cons.mpr ⟨ideal_start 1, List.forall_mem_cons.mpr ⟨?_, List.forall_mem_singleton.mpr ?_⟩⟩
    · exact ideal_client 2 (by decide)
    · exact ideal_client 0 (by decide)
  have hr : Assumption.Reachable {} c := ideal_reachable trivial (fun _ _ _ => trivial) hideal hc
  exact ⟨c, hc, htwo, hhole, status_reports_pool hr⟩

end P4Ubpf
