import P4Ubpf.Seen

/-!
# Which registration a link belongs to

The launcher looks at the signs of a slot's two ids and does not remember which
thread it has linked a runtime for. A thread that leaves and one that comes
before the next visit look like one thread to it, so the second one inherits
the runtime of the first exactly when no visit has come between them.
-/

namespace P4Ubpf

open P4runtime

/-! ## The history of a slot -/

inductive Moment
  /-- OVS registers a thread while the slot names this runtime -/
  | opened (p4runtimeId : Int)
  | closed
  /-- the second test of the launcher's visit -/
  | tested
  | linked (pid : Int)
  | unlinked
deriving DecidableEq

-- Histories are newest first.

def registered : List Moment → Bool
  | [] => false
  | .opened _ :: _ => true
  | .closed :: _ => false
  | _ :: h => registered h

/-- Tested since OVS last wrote. -/
def seenSince : List Moment → Bool
  | [] => false
  | .opened _ :: _ => false
  | .closed :: _ => false
  | .tested :: _ => true
  | _ :: h => seenSince h

/-- When OVS last registered a thread, the slot named no runtime, or the
launcher had tested it since the thread before. -/
def fresh : List Moment → Bool
  | [] => false
  | .opened p :: h => p ≤ 0 || seenSince h
  | _ :: h => fresh h

/-- Linked to `pid` since OVS last registered a thread, and not unlinked. -/
def linkedSince (pid : Int) : List Moment → Bool
  | .linked p :: _ => p = pid
  | .closed :: h => linkedSince pid h
  | .tested :: h => linkedSince pid h
  | _ => false

/-! ## Keeping the history -/

def note (i : Slot) (h : List Moment) (s : World × EnvStep) : List Moment :=
  match s.2 with
  | .ovsWrite idx t =>
    if idx = i then (if 0 < t then .opened (s.1.sessionTable i).p4runtimeId else .closed) :: h else h
  | _ => h

def linkAddNotes (i : Slot) (E : Env) (fuel : ℕ) (idx : Slot) (w : World) (h : List Moment) : List Moment :=
  match adjustChildren E fuel (w.runtimes + 1) w with
  | none => h
  | some v =>
    let h := (v.seen E).foldl (note i) ((adjustSeen E fuel (w.runtimes + 1) w).foldl (note i) h)
    match findFreeRuntimeIndex (v.yield E) with
    | some j => if idx = i then .linked ((v.yield E).runtimesTable j).pid :: h else h
    | none => h

def linkDelNotes (i : Slot) (E : Env) (fuel : ℕ) (idx : Slot) (w : World) (h : List Moment) : List Moment :=
  (adjustSeen E fuel (w.runtimes - 1) (unlink idx w)).foldl (note i) (if idx = i then .unlinked :: h else h)

def checkNewNotes (i : Slot) (E : Env) (fuel : ℕ) (idx : Slot) (w : World) (h : List Moment) : List Moment :=
  if 0 < (w.sessionTable idx).ovsThreadId ∧ (w.sessionTable idx).p4runtimeId < 0 then
    linkAddNotes i E fuel idx (w.log (.foundNew (w.sessionTable idx).ovsThreadId idx)) h
  else h

def checkLostNotes (i : Slot) (E : Env) (fuel : ℕ) (idx : Slot) (w : World) (h : List Moment) : List Moment :=
  let h := if idx = i then .tested :: h else h
  if (w.sessionTable idx).ovsThreadId < 0 ∧ 0 < (w.sessionTable idx).p4runtimeId then
    linkDelNotes i E fuel idx (w.log (.foundLost (w.sessionTable idx).p4runtimeId idx)) h
  else h

def notes (i : Slot) : Config → Act → List Moment → List Moment
  | ⟨.boot, w⟩, .start E fuel, h => (startSeen E fuel initClients w).foldl (note i) h
  | ⟨_, w⟩, .env e, h => note i h (w, e)
  | ⟨.new idx, w⟩, .test E fuel, h => checkNewNotes i E fuel idx w h
  | ⟨.lost idx, w⟩, .test E fuel, h => checkLostNotes i E fuel idx w h
  | ⟨.top, w⟩, .client E fuel msg, h => (handleClientSeen E fuel msg w).foldl (note i) h
  | _, _, h => h

def watch (i : Slot) : Lts (Config × List Moment) Act := launcher.observe [] (notes i)

def Alternates (w : World) : EnvStep → Prop
  | .ovsWrite idx t =>
    ((w.sessionTable idx).ovsThreadId = -1 ∧ 0 < t) ∨ (0 < (w.sessionTable idx).ovsThreadId ∧ t = -1)
  | _ => True

instance (w : World) : DecidablePred (Alternates w)
  | .ovsWrite idx t => inferInstanceAs (Decidable (((w.sessionTable idx).ovsThreadId = -1 ∧ 0 < t) ∨
      (0 < (w.sessionTable idx).ovsThreadId ∧ t = -1)))
  | .obey _ => isTrue trivial
  | .crash _ => isTrue trivial
  | .sigchld => isTrue trivial

def alternating : Assumption where
  env := fun E => ∀ w e, E.Takes w e → Alternates w e
  step := Alternates

theorem watch_reachable {i : Slot} {c : Config} : alternating.Reachable c ↔
    ∃ h, (watch i).Reachable (fun s => alternating.ok s.1) (c, h) :=
  Lts.observe_reachable

/-! ## The invariant -/

structure Watched (i : Slot) (w : World) (h : List Moment) : Prop where
  sign : (w.sessionTable i).ovsThreadId = -1 ∨ 0 < (w.sessionTable i).ovsThreadId
  opened_iff : registered h = true ↔ 0 < (w.sessionTable i).ovsThreadId
  /-- a slot that was tested without a thread is not linked -/
  gap : registered h = false → seenSince h = true → ¬ 0 < (w.sessionTable i).p4runtimeId
  current : 0 < (w.sessionTable i).p4runtimeId → fresh h = true → linkedSince (w.sessionTable i).p4runtimeId h = true
  carried : registered h = true → fresh h = false →
    0 < (w.sessionTable i).p4runtimeId ∧ ∀ p, linkedSince p h = false

section
variable {E : Env} {i idx : Slot} {w w' : World} {h : List Moment} {fuel : ℕ}

theorem minus_one : ¬ (0 : Int) < -1 := by decide

theorem notes_env (i : Slot) (ph : Phase) (w : World) (e : EnvStep) (h : List Moment) :
    notes i ⟨ph, w⟩ (.env e) h = note i h (w, e) := by
  cases ph <;> rfl

theorem watched_same (hw : Watched i w h) (hs : w'.sessionTable i = w.sessionTable i) : Watched i w' h := by
  refine ⟨?_, ?_, ?_, ?_, ?_⟩
  · rw [hs]; exact hw.sign
  · rw [hs]; exact hw.opened_iff
  · rw [hs]; exact hw.gap
  · rw [hs]; exact hw.current
  · rw [hs]; exact hw.carried

theorem watched_env {e : EnvStep} (ha : Alternates w e) (hw : Watched i w h) : Watched i (w.env e) (note i h (w, e)) := by
  cases e with
  | obey pid => exact watched_same hw rfl
  | crash pid => exact watched_same hw rfl
  | sigchld => exact watched_same hw rfl
  | ovsWrite idx t =>
    by_cases hidx : idx = i
    · subst hidx
      have hslot : (w.env (.ovsWrite idx t)).sessionTable idx = ⟨t, (w.sessionTable idx).p4runtimeId⟩ := by
        simp [World.env, World.setOvsThreadId]
      rcases ha with ⟨hovs, ht⟩ | ⟨hovs, rfl⟩
      · have hnote : note idx h (w, .ovsWrite idx t) = .opened (w.sessionTable idx).p4runtimeId :: h := by
          simp [note, ht]
        have hreg : registered h = false := by
          rw [← Bool.not_eq_true, hw.opened_iff]; omega
        rw [hnote]
        refine ⟨by rw [hslot]; exact .inr ht, ?_, ?_, ?_, ?_⟩
        · rw [hslot]
          exact ⟨fun _ => ht, fun _ => rfl⟩
        · intro hno
          cases hno
        · -- a slot that still names a runtime has not been tested since the last thread
          rw [hslot]
          intro hp hfresh
          have hp : 0 < (w.sessionTable idx).p4runtimeId := hp
          simp only [fresh, Bool.or_eq_true, decide_eq_true_eq] at hfresh
          rcases hfresh with hneg | hseen
          · omega
          · exact absurd hp (hw.gap hreg hseen)
        · rw [hslot]
          intro _ hstale
          simp only [fresh, Bool.or_eq_false_iff, decide_eq_false_iff_not, Int.not_le] at hstale
          exact ⟨hstale.1, fun _ => rfl⟩
      · have hnote : note idx h (w, .ovsWrite idx (-1)) = .closed :: h := by simp [note]
        rw [hnote]
        refine ⟨by rw [hslot]; exact .inl rfl, ?_, ?_, ?_, ?_⟩
        · rw [hslot]
          exact ⟨Bool.noConfusion, fun hno => absurd hno minus_one⟩
        · intro _ hseen
          cases hseen
        · rw [hslot]
          exact hw.current
        · intro hreg
          cases hreg
    · have hnote : note i h (w, .ovsWrite idx t) = h := by simp [note, hidx]
      rw [hnote]
      apply watched_same hw
      simp [World.env, World.setOvsThreadId, Ne.symm hidx]

theorem watched_records (hE : alternating.env E) (i : Slot) : Records E (note i) (Watched i) :=
  ⟨fun w e _ he hw => watched_env (hE w e he) hw, fun _ _ _ hw hs => watched_same hw (by rw [hs])⟩

/-- Between the first test and the link: the slot is not linked, and not tested
since its thread was lost. -/
structure Linking (i : Slot) (w : World) (h : List Moment) : Prop extends Watched i w h where
  free : (w.sessionTable i).p4runtimeId < 0
  unseen : registered h = false → seenSince h = false

theorem linking_records (hE : alternating.env E) (i : Slot) : Records E (note i) (Linking i) := by
  refine ⟨?_, fun _ _ _ hw hs => ⟨watched_same hw.toWatched (by rw [hs]), by rw [hs]; exact hw.free, hw.unseen⟩⟩
  intro w e h he hw
  have hlinks : (w.env e).links i = w.links i := by rw [World.env_links]
  refine ⟨watched_env (hE w e he) hw.toWatched, hlinks.trans_lt hw.free, ?_⟩
  cases e with
  | ovsWrite idx t =>
    by_cases hidx : idx = i
    · by_cases ht : 0 < t
      · simp [note, hidx, ht, registered]
      · simp [note, hidx, ht, seenSince]
    · simpa [note, hidx] using hw.unseen
  | obey pid => exact hw.unseen
  | crash pid => exact hw.unseen
  | sigchld => exact hw.unseen

theorem watched_link (j : Slot) (hw : Linking i w h) :
    Watched i (link j i w) (.linked (w.runtimesTable j).pid :: h) := by
  have hslot := link_self i w j
  refine ⟨by rw [hslot]; exact hw.sign, by rw [hslot]; exact hw.opened_iff, ?_, ?_, ?_⟩
  · intro hreg hseen
    have hseen : seenSince h = true := hseen
    rw [hw.unseen hreg] at hseen
    cases hseen
  · rw [hslot]
    intro _ _
    exact decide_eq_true rfl
  · intro hreg hstale
    have hlinked := (hw.carried hreg hstale).1
    have hfree := hw.free
    omega

theorem linkAdd_watched (hE : alternating.env E) (ha : linkAdd E fuel idx w = some w') (hw : Watched i w h)
    (hlink : idx = i → Linking i w h) : Watched i w' (linkAddNotes i E fuel idx w h) := by
  obtain ⟨v, hv, hcase⟩ := linkAdd_cases ha
  have hkeep := seen_records (watched_records hE i) (adjust_records (watched_records hE i) hv hw)
  rw [linkAddNotes, hv]
  rcases hcase with ⟨j, hj, rfl⟩ | ⟨hnone, rfl⟩
  · simp only [hj]
    by_cases hidx : idx = i
    · subst hidx
      rw [if_pos rfl]
      apply watched_link j
      exact seen_records (linking_records hE idx) (adjust_records (linking_records hE idx) hv (hlink rfl))
    · rw [if_neg hidx]
      exact watched_same hkeep (link_session idx _ j (Ne.symm hidx))
  · simp only [hnone]
    exact watched_same hkeep rfl

theorem checkNew_watched (hE : alternating.env E) (hc : checkNew E fuel idx w = some w') (hw : Watched i w h) :
    Watched i w' (checkNewNotes i E fuel idx w h) := by
  unfold checkNew at hc
  unfold checkNewNotes
  split at hc
  · rename_i hg
    rw [if_pos hg]
    have hlog : Watched i (w.log (.foundNew (w.sessionTable idx).ovsThreadId idx)) h := watched_same hw rfl
    apply linkAdd_watched hE hc hlog
    intro hidx
    subst hidx
    refine ⟨hlog, hg.2, fun hreg => ?_⟩
    rw [hw.opened_iff.mpr hg.1] at hreg
    cases hreg
  · rename_i hg
    cases hc
    rw [if_neg hg]
    exact hw

theorem watched_tested (hw : Watched i w h)
    (hno : ¬ ((w.sessionTable i).ovsThreadId < 0 ∧ 0 < (w.sessionTable i).p4runtimeId)) : Watched i w (.tested :: h) := by
  refine ⟨hw.sign, hw.opened_iff, ?_, hw.current, hw.carried⟩
  intro hreg _ hp
  have hreg : registered h = false := hreg
  have hovs : ¬ 0 < (w.sessionTable i).ovsThreadId := by rw [← hw.opened_iff, hreg]; exact Bool.false_ne_true
  have hsign := hw.sign
  exact hno ⟨by omega, hp⟩

theorem watched_unlink (hw : Watched i w h) (hovs : (w.sessionTable i).ovsThreadId < 0) :
    Watched i (unlink i w) (.unlinked :: .tested :: h) := by
  have hslot := unlink_self i w
  refine ⟨by rw [hslot]; exact hw.sign, by rw [hslot]; exact hw.opened_iff, ?_, ?_, ?_⟩
  · rw [hslot]
    exact fun _ _ => minus_one
  · rw [hslot]
    exact fun hp => absurd hp minus_one
  · intro hreg
    have hopen := hw.opened_iff.mp hreg
    omega

theorem checkLost_watched (hE : alternating.env E) (hc : checkLost E fuel idx w = some w') (hw : Watched i w h) :
    Watched i w' (checkLostNotes i E fuel idx w h) := by
  unfold checkLost at hc
  unfold checkLostNotes
  simp only
  by_cases hg : (w.sessionTable idx).ovsThreadId < 0 ∧ 0 < (w.sessionTable idx).p4runtimeId
  · rw [if_pos hg] at hc ⊢
    apply adjust_records (watched_records hE i) hc
    have hlog : Watched i (w.log (.foundLost (w.sessionTable idx).p4runtimeId idx)) h := watched_same hw rfl
    by_cases hidx : idx = i
    · subst hidx
      rw [if_pos rfl, if_pos rfl]
      exact watched_unlink hlog hg.1
    · rw [if_neg hidx, if_neg hidx]
      exact watched_same hlog (unlink_session idx _ (Ne.symm hidx))
  · rw [if_neg hg] at hc ⊢
    cases hc
    by_cases hidx : idx = i
    · subst hidx
      rw [if_pos rfl]
      exact watched_tested hw hg
    · rw [if_neg hidx]
      exact hw

end

theorem watched_reachable {i : Slot} {s : Config × List Moment}
    (hr : (watch i).Reachable (fun s => alternating.ok s.1) s) : Watched i s.1.world s.2 := by
  apply hr.inv (I := fun s => Watched i s.1.world s.2)
  · exact ⟨.inl rfl, ⟨Bool.noConfusion, fun hno => absurd hno minus_one⟩, fun _ _ => minus_one,
      fun hp => absurd hp minus_one, Bool.noConfusion⟩
  · intro s a s' _ hw ha hn
    obtain ⟨c, h⟩ := s
    simp only [watch, Lts.observe, Option.map_eq_some_iff] at hn
    obtain ⟨c', hn, rfl⟩ := hn
    cases next_inv hn with
    | start hs => exact spawnLoop_records (watched_records ha i) hs hw
    | env => rw [notes_env]; exact watched_env ha hw
    | beginScan => exact hw
    | new hs => exact checkNew_watched ha hs hw
    | lost hs => exact checkLost_watched ha hs hw
    | client hs => exact handleClient_records (watched_records ha.1 i) hs hw

/-- **A link belongs to the current registration** exactly when the slot named
no runtime as the thread was registered, or the launcher had tested the slot
since the thread before. -/
theorem link_of_registration_iff {i : Slot} {s : Config × List Moment}
    (hr : (watch i).Reachable (fun s => alternating.ok s.1) s)
    (hovs : 0 < (s.1.world.sessionTable i).ovsThreadId) (hp : 0 < (s.1.world.sessionTable i).p4runtimeId) :
    linkedSince (s.1.world.sessionTable i).p4runtimeId s.2 = true ↔ fresh s.2 = true := by
  have hw := watched_reachable hr
  constructor
  · intro hlinked
    by_contra hstale
    rw [Bool.not_eq_true] at hstale
    rw [(hw.carried (hw.opened_iff.mpr hovs) hstale).2] at hlinked
    cases hlinked
  · exact hw.current hp

/-! ## Two runs -/

def Act.alternates (c : Config × List Moment) : Act → Bool
  | .env e => Alternates c.1.world e
  | _ => true

def watchGuarded (i : Slot) : Lts (Config × List Moment) Act := (watch i).guard fun s a => a.alternates s

theorem alternates_reachable {i : Slot} {as : List Act} (has : ∀ a ∈ as, a.Ideal) {s : Config × List Moment}
    (h : (watchGuarded i).run (watchGuarded i).init as = some s) :
    (watch i).Reachable (fun s => alternating.ok s.1) s := by
  refine Lts.guard_reachable ?_ .init h
  intro s a ha halt
  have hideal := has a ha
  have hnone : alternating.env idealEnv := by
    intro w e he
    obtain ⟨v, hv⟩ := he.mem
    cases hv
  cases a with
  | start E fuel => cases hideal; exact hnone
  | env e =>
    have hstep : Alternates s.1.world e := of_decide_eq_true halt
    exact hstep
  | beginScan => exact trivial
  | test E fuel => cases hideal; exact hnone
  | client E fuel msg =>
    obtain ⟨rfl, _⟩ := hideal
    exact ⟨hnone, fun _ => trivial⟩

/-- Thread 7 leaves slot 0 and thread 8 comes; the launcher does `between` in
the meantime and then visits the slot. -/
def twoThreads (between : List Act) : List Act := demoActs ++ [.env (.ovsWrite 0 (-1))] ++ between ++
  [.env (.ovsWrite 0 8), .beginScan, .test idealEnv 1, .test idealEnv 1]

theorem twoThreads_ideal {between : List Act} (hb : ∀ a ∈ between, a.Ideal) : ∀ a ∈ twoThreads between, a.Ideal := by
  have hlost : ∀ a ∈ demoActs ++ [.env (.ovsWrite 0 (-1))], a.Ideal :=
    List.forall_mem_append.mpr ⟨demo_ideal, by simp⟩
  exact List.forall_mem_append.mpr ⟨List.forall_mem_append.mpr ⟨hlost, hb⟩, by simp⟩

theorem link_of_registration_iff_demo : ∃ s,
    (watchGuarded 0).run (watchGuarded 0).init (twoThreads (scanActs idealEnv 1)) = some s ∧ fresh s.2 = true ∧
    (linkedSince (s.1.world.sessionTable 0).p4runtimeId s.2 = true ↔ fresh s.2 = true) := by
  have hend : ∃ s, (watchGuarded 0).run (watchGuarded 0).init (twoThreads (scanActs idealEnv 1)) = some s ∧
      0 < (s.1.world.sessionTable 0).ovsThreadId ∧ 0 < (s.1.world.sessionTable 0).p4runtimeId ∧ fresh s.2 = true :=
    Lts.run_any (by decide +kernel)
  obtain ⟨s, hs, hovs, hp, hfresh⟩ := hend
  exact ⟨s, hs, hfresh, link_of_registration_iff (alternates_reachable (twoThreads_ideal scanActs_ideal) hs) hovs hp⟩

/-- Thread 8 gets the runtime of thread 7, and the visit leaves it that way. -/
theorem runtime_carried_over : ∃ s, (watch 0).Reachable (fun s => alternating.ok s.1) s ∧ s.1.phase = .new 1 ∧
    (s.1.world.sessionTable 0).ovsThreadId = 8 ∧ (s.1.world.sessionTable 0).p4runtimeId = 65 ∧
    s.2 = [.tested, .opened 65, .closed, .tested, .linked 65, .opened (-1)] ∧ linkedSince 65 s.2 = false := by
  have hend : ∃ s, (watchGuarded 0).run (watchGuarded 0).init (twoThreads []) = some s ∧
      s.1.phase = .new 1 ∧ (s.1.world.sessionTable 0).ovsThreadId = 8 ∧ (s.1.world.sessionTable 0).p4runtimeId = 65 ∧
      s.2 = [.tested, .opened 65, .closed, .tested, .linked 65, .opened (-1)] ∧ linkedSince 65 s.2 = false :=
    Lts.run_any (by decide +kernel)
  obtain ⟨s, hs, hrest⟩ := hend
  exact ⟨s, alternates_reachable (twoThreads_ideal fun _ h => by cases h) hs, hrest⟩

end P4Ubpf
