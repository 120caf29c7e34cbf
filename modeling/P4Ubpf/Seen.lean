import P4Ubpf.Assume

/-!
# What happens during a call

The launcher's functions let other parties move before their system calls.
These moves are listed here function by function, each with the state it is
made in, so that a record of them can be kept along a run. Between them the
functions leave the session table alone, except for the two writes of
`link_add` and `link_del`.
-/

namespace P4Ubpf

open P4runtime

abbrev Seen := List (World × EnvStep)

def World.seen (E : Env) (w : World) : Seen := w.trail (E.interfere w)

def spawnLoopSeen (E : Env) (num : Int) : ℕ → World → Seen
  | 0, _ => []
  | fuel + 1, w =>
    if w.runtimes < num then w.seen E ++ spawnLoopSeen E num fuel (spawnRuntimeProcess E w) else []

def startSeen (E : Env) (fuel : ℕ) (num : Int) (w : World) : Seen :=
  spawnLoopSeen E (if maxConnections < num then maxConnections else num) fuel w

def terminateSeen (E : Env) (pid : Int) (w : World) : Seen :=
  if 0 < pid then w.seen E ++ ((w.yield E).kill pid).seen E else []

def stopLoopSeen (E : Env) : List Slot → World → Seen
  | [], _ => []
  | i :: is, w =>
    if 0 < (w.runtimesTable i).pid then
      terminateSeen E (w.runtimesTable i).pid w ++ stopLoopSeen E is (dropEntry E i w)
    else stopLoopSeen E is w

def shrinkLoopSeen (E : Env) (target : Int) : List Slot → World → Seen
  | [], _ => []
  | i :: is, w =>
    if target < w.runtimes then
      if (w.runtimesTable i).Idle then
        terminateSeen E (w.runtimesTable i).pid w ++ shrinkLoopSeen E target is (retire E i w)
      else shrinkLoopSeen E target is w
    else []

def adjustSeen (E : Env) (fuel : ℕ) (target : Int) (w : World) : Seen :=
  if target = w.runtimes then []
  else
    let target := if maxConnections < target then (maxConnections : Int) else target
    if w.runtimes < target then startSeen E fuel target w else shrinkLoopSeen E target (Slots.all _) w

def handleCommandSeen (E : Env) (fuel : ℕ) (c : Command) (w : World) : Seen :=
  match c with
  | .update arg => adjustSeen E fuel (atoi arg) w
  | .stop => stopLoopSeen E (Slots.all _) w
  | .shutdown => ((dprintf .shuttingDown w).log .pkill).seen E
  | _ => []

def handleClientSeen (E : Env) (fuel : ℕ) (msg : List UInt8) (w : World) : Seen :=
  let buffer := readBuffer msg
  if buffer = [] then []
  else handleCommandSeen E fuel (parseCommand buffer) (w.log (.command (buffer.takeWhile (· ≠ 0))))

/-! ## Records of the moves -/

/-- What `K` says of a state and a record is kept by the moves `E` makes, as
`f` records them, and does not depend on more than the session table. -/
structure Records {η : Type} (E : Env) (f : η → World × EnvStep → η) (K : World → η → Prop) : Prop where
  env : ∀ w e h, E.Takes w e → K w h → K (w.env e) (f h (w, e))
  same : ∀ w w' h, K w h → w'.sessionTable = w.sessionTable → K w' h

section
variable {η : Type} {E : Env} {f : η → World × EnvStep → η} {K : World → η → Prop} {w w' : World} {h : η} {fuel : ℕ}

theorem seen_records (r : Records E f K) (hk : K w h) : K (w.yield E) ((w.seen E).foldl f h) := by
  have key : ∀ (es : List EnvStep) (w : World) (h : η), (∀ s ∈ w.trail es, E.Takes s.1 s.2) → K w h →
      K (es.foldl World.env w) ((w.trail es).foldl f h) := by
    intro es
    induction es with
    | nil => intro w h _ hk; exact hk
    | cons e es ih =>
      intro w h hes hk
      exact ih _ _ (fun s hs => hes s (List.mem_cons_of_mem _ hs)) (r.env w e h (hes (w, e) List.mem_cons_self) hk)
  exact key _ w h (fun s hs => ⟨w, hs⟩) hk

theorem spawn_records (r : Records E f K) (hk : K w h) : K (spawnRuntimeProcess E w) ((w.seen E).foldl f h) := by
  apply r.same _ _ _ (seen_records r hk)
  rw [spawnRuntimeProcess, afterFork_session, World.log_session]

theorem spawnLoop_records (r : Records E f K) {num : Int} (hs : spawnLoop E num fuel w = some w') (hk : K w h) :
    K w' ((spawnLoopSeen E num fuel w).foldl f h) := by
  induction fuel generalizing w h with
  | zero =>
    rw [spawnLoop] at hs
    split at hs
    · cases hs
    · cases hs; exact hk
  | succ fuel ih =>
    rw [spawnLoop] at hs
    rw [spawnLoopSeen]
    split at hs
    · rename_i hlt
      rw [if_pos hlt, List.foldl_append]
      exact ih hs (spawn_records r hk)
    · rename_i hlt
      cases hs
      rw [if_neg hlt]
      exact hk

theorem terminate_records (r : Records E f K) (pid : Int) (hk : K w h) :
    K (terminateChild E pid w) ((terminateSeen E pid w).foldl f h) := by
  unfold terminateChild terminateSeen
  split
  · rw [List.foldl_append]
    have hkill : K ((w.yield E).kill pid) ((w.seen E).foldl f h) := r.same _ _ _ (seen_records r hk) rfl
    exact r.same _ _ _ (seen_records r hkill) rfl
  · exact hk

theorem stopLoop_records (r : Records E f K) (is : List Slot) (hk : K w h) :
    K (stopLoop E is w) ((stopLoopSeen E is w).foldl f h) := by
  induction is generalizing w h with
  | nil => exact hk
  | cons i is ih =>
    rw [stopLoop, stopLoopSeen]
    split
    · rw [List.foldl_append]
      exact ih (r.same _ _ _ (terminate_records r _ hk) rfl)
    · exact ih hk

theorem shrinkLoop_records (r : Records E f K) (target : Int) (is : List Slot) (hk : K w h) :
    K (shrinkLoop E target is w) ((shrinkLoopSeen E target is w).foldl f h) := by
  induction is generalizing w h with
  | nil => exact hk
  | cons i is ih =>
    rw [shrinkLoop, shrinkLoopSeen]
    split
    · split
      · rw [List.foldl_append]
        exact ih (r.same _ _ _ (terminate_records r _ hk) rfl)
      · exact ih hk
    · exact hk

theorem adjust_records (r : Records E f K) {target : Int} (ha : adjustChildren E fuel target w = some w') (hk : K w h) :
    K w' ((adjustSeen E fuel target w).foldl f h) := by
  unfold adjustChildren at ha
  unfold adjustSeen
  by_cases heq : target = w.runtimes
  · rw [if_pos heq] at ha
    cases ha
    rw [if_pos heq]
    exact hk
  · simp only [heq, ite_false] at ha ⊢
    generalize (if (maxConnections : Int) < target then (maxConnections : Int) else target) = t at ha ⊢
    by_cases hlt : w.runtimes < t
    · rw [if_pos hlt] at ha ⊢
      exact spawnLoop_records r ha hk
    · rw [if_neg hlt] at ha ⊢
      exact Option.some.inj ha ▸ shrinkLoop_records r _ _ hk

theorem statusLoop_session (is : List Slot) (reported : Int) (w : World) :
    (statusLoop is reported w).sessionTable = w.sessionTable := by
  induction is generalizing reported w with
  | nil => rfl
  | cons i is ih =>
    rw [statusLoop]
    split
    · split
      · exact ih _ _
      · exact ih _ _
    · rfl

theorem handleCommand_records (r : Records E f K) {c : Command} (hc : handleCommand E fuel c w = some w') (hk : K w h) :
    K w' ((handleCommandSeen E fuel c w).foldl f h) := by
  cases c with
  | start => exact r.same _ _ _ hk (Option.some.inj hc ▸ rfl)
  | update arg =>
    simp only [handleCommand, handleUpdateCommand] at hc
    cases ha : adjustChildren E fuel (atoi arg) w with
    | none => simp [ha] at hc
    | some v =>
      simp only [ha, Option.bind_eq_bind, Option.bind_some] at hc
      exact r.same _ _ _ (adjust_records r ha hk) (Option.some.inj hc ▸ rfl)
  | stop =>
    have hstop : handleStopCommand E w = w' := Option.some.inj hc
    apply r.same _ _ _ (stopLoop_records r (Slots.all _) hk)
    rw [← hstop, handleStopCommand, dprintf, World.log_session, stopAllChildren, World.setRuntimes_session]
  | status => exact r.same _ _ _ hk (Option.some.inj hc ▸ statusLoop_session _ _ _)
  | shutdown =>
    have hkill : K ((dprintf .shuttingDown w).log .pkill) h := r.same _ _ _ hk rfl
    exact r.same _ _ _ (seen_records r hkill) (Option.some.inj hc ▸ rfl)
  | unknown => exact r.same _ _ _ hk (Option.some.inj hc ▸ rfl)

theorem handleClient_records (r : Records E f K) {msg : List UInt8} (hc : handleClient E fuel msg w = some w')
    (hk : K w h) : K w' ((handleClientSeen E fuel msg w).foldl f h) := by
  unfold handleClient at hc
  unfold handleClientSeen
  simp only at hc ⊢
  split at hc
  · rename_i hnil
    cases hc
    rw [if_pos hnil]
    exact hk
  · rename_i hnil
    rw [if_neg hnil]
    exact handleCommand_records r hc (r.same _ _ _ hk rfl)

end

end P4Ubpf
