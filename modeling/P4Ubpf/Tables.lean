import P4Ubpf.Pool

/-!
# The two tables

What the launcher's functions do to the pair of tables, with everything else
left out: which process each entry holds, and which process each session
names. `fresh` is what is known of the pid of a spawned runtime, in terms of
the tables alone. The invariants of ownership are proved here, once per move.
-/

namespace P4Ubpf

open P4runtime Function

structure Tables where
  entries : Slot → P4runtime
  links : Slot → Int

namespace Tables

def initial : Tables := ⟨fun _ => .empty, fun _ => -1⟩

def NewEntry (t : Tables) (p : Int) : Prop := ∀ i, (t.entries i).pid ≠ p

def NewLink (t : Tables) (p : Int) : Prop := ∀ i, t.links i ≠ p

inductive Move (fresh : Tables → Int → Prop) (t : Tables) : Tables → Prop
  | spawn {i : Slot} {p : Int} (hi : (t.entries i).pid = -1) (hp : 0 < p) (hf : fresh t p) :
      Move fresh t ⟨update t.entries i ⟨p, false⟩, t.links⟩
  | retire {i : Slot} (hi : (t.entries i).Idle) : Move fresh t ⟨update t.entries i .empty, t.links⟩
  | assign {j idx : Slot} (hj : (t.entries j).Idle) (hidx : t.links idx < 0) :
      Move fresh t ⟨update t.entries j ((t.entries j).setInUse true), update t.links idx (t.entries j).pid⟩
  | release {i idx : Slot} (hidx : 0 < t.links idx) (hi : (t.entries i).pid = t.links idx) :
      Move fresh t ⟨update t.entries i ((t.entries i).setInUse false), update t.links idx (-1)⟩
  /-- the session's runtime is not recorded any more -/
  | forget {idx : Slot} (hidx : 0 < t.links idx) (hno : ∀ i, (t.entries i).pid ≠ t.links idx) :
      Move fresh t ⟨t.entries, update t.links idx (-1)⟩

def clear (t : Tables) : Tables := ⟨fun _ => .empty, t.links⟩

def sessions (t : Tables) (p : Int) : ℕ := Slots.count (· = p) t.links

def serving (t : Tables) (p : Int) : ℕ :=
  Slots.count (fun r : P4runtime => r.pid = p ∧ r.inUse = true) t.entries

variable {fresh : Tables → Int → Prop} {t t' : Tables}

/-! ## Links -/

theorem sessions_update (entries : Slot → P4runtime) (idx : Slot) (q p : Int) :
    sessions ⟨entries, update t.links idx q⟩ p + (if t.links idx = p then 1 else 0) =
      t.sessions p + (if q = p then 1 else 0) :=
  Slots.count_update (· = p) t.links idx q

theorem serving_update (links : Slot → Int) (i : Slot) (r : P4runtime) (p : Int) :
    serving ⟨update t.entries i r, links⟩ p + (if (t.entries i).pid = p ∧ (t.entries i).inUse = true then 1 else 0) =
      t.serving p + (if r.pid = p ∧ r.inUse = true then 1 else 0) :=
  Slots.count_update (fun r : P4runtime => r.pid = p ∧ r.inUse = true) t.entries i r

def LinkRange (t : Tables) : Prop := ∀ i, t.links i = -1 ∨ 0 < t.links i

theorem linkRange_move (h : Move fresh t t') (hr : t.LinkRange) : t'.LinkRange := by
  have hset : ∀ (idx : Slot) (p : Int), (p = -1 ∨ 0 < p) → ∀ i, update t.links idx p i = -1 ∨ 0 < update t.links idx p i := by
    intro idx p hp i
    by_cases hi : i = idx
    · subst hi; simpa using hp
    · simpa [hi] using hr i
  cases h with
  | spawn _ _ _ => exact hr
  | retire _ => exact hr
  | assign hj _ => exact hset _ _ (.inr hj.1)
  | release _ _ => exact hset _ _ (.inl rfl)
  | forget _ _ => exact hset _ _ (.inl rfl)

/-! ## Sessions are served -/

/-- At least as many runtimes in use as sessions name, pid by pid. -/
def Served (t : Tables) : Prop := ∀ p, 0 < p → t.sessions p ≤ t.serving p

theorem served_move (h : Move fresh t t') (hs : t.Served) : t'.Served := by
  intro p hp
  have hold := hs p hp
  have hnone : ¬ (-1 : Int) = p := by omega
  cases h with
  | @spawn i q hi _ _ =>
    have hc := serving_update (t := t) t.links i ⟨q, false⟩ p
    rw [hi] at hc
    simp only [hnone, false_and, ite_false, Bool.false_eq_true, and_false] at hc
    exact Nat.le_trans hold (Nat.le_of_eq hc.symm)
  | @retire i hi =>
    have hc := serving_update (t := t) t.links i .empty p
    simp only [hi.2, P4runtime.empty, Bool.false_eq_true, and_false, ite_false] at hc
    exact Nat.le_trans hold (Nat.le_of_eq hc.symm)
  | @assign j idx hj hidx =>
    have hl := sessions_update (t := t) (update t.entries j ((t.entries j).setInUse true)) idx (t.entries j).pid p
    have hc := serving_update (t := t) (update t.links idx (t.entries j).pid) j ((t.entries j).setInUse true) p
    have hidx : ¬ t.links idx = p := by omega
    simp only [hidx, ite_false] at hl
    simp only [hj.2, Bool.false_eq_true, and_false, ite_false, setInUse_pid, setInUse_inUse, and_true] at hc
    omega
  | @release i idx hidx hi =>
    have hl := sessions_update (t := t) (update t.entries i ((t.entries i).setInUse false)) idx (-1) p
    have hc := serving_update (t := t) (update t.links idx (-1)) i ((t.entries i).setInUse false) p
    simp only [hnone, ite_false] at hl
    simp only [setInUse_inUse, Bool.false_eq_true, and_false, ite_false] at hc
    -- the entry leaves the count only together with the session that named it
    rw [hi] at hc
    by_cases hp : t.links idx = p
    · rw [if_pos hp] at hl
      split at hc <;> omega
    · rw [if_neg hp] at hl
      rw [if_neg fun h => hp h.1] at hc
      omega
  | @forget idx _ _ =>
    have hl := sessions_update (t := t) t.entries idx (-1) p
    simp only [hnone, ite_false] at hl
    have hsame : serving ⟨t.entries, update t.links idx (-1)⟩ p = t.serving p := rfl
    omega

theorem served_clear (h : ∀ i, ¬ 0 < t.links i) : t.clear.Served := by
  intro p hp
  have hzero : t.clear.sessions p = 0 := Slots.count_eq_zero.mpr fun i hi => h i (hi.symm ▸ hp)
  rw [hzero]
  exact Nat.zero_le _

theorem Served.named (hs : t.Served) {i : Slot} (hi : 0 < t.links i) :
    ∃ j, (t.entries j).pid = t.links i ∧ (t.entries j).inUse = true := by
  have hpos : 0 < t.sessions (t.links i) := Slots.count_pos.mpr ⟨i, rfl⟩
  exact Slots.count_pos.mp (Nat.lt_of_lt_of_le hpos (hs _ hi))

/-! ## Runtimes are owned -/

def Distinct (t : Tables) : Prop := ∀ i j, 0 < (t.entries i).pid → (t.entries i).pid = (t.entries j).pid → i = j

structure Named (t : Tables) : Prop where
  distinct : t.Distinct
  named : ∀ j, (t.entries j).inUse = true → ∃ i, t.links i = (t.entries j).pid

/-- No two entries hold one process, and a process is named by one session if
its entry is in use and by none otherwise. -/
structure Exclusive (t : Tables) : Prop where
  distinct : t.Distinct
  owners : ∀ j, 0 < (t.entries j).pid →
    t.sessions (t.entries j).pid = (t.entries j).inUse.toNat

theorem setInUse_entry_pid (i j : Slot) (b : Bool) :
    (update t.entries i ((t.entries i).setInUse b) j).pid = (t.entries j).pid := by
  by_cases hj : j = i
  · subst hj; simp
  · simp [hj]

theorem distinct_move (h : Move fresh t t') (hf : ∀ p, fresh t p → t.NewEntry p) (hd : t.Distinct) : t'.Distinct := by
  cases h with
  | @spawn i p _ _ hp =>
    have hnew := hf p hp
    intro a b ha hab
    simp only at ha hab
    by_cases hai : a = i
    · by_cases hbi : b = i
      · rw [hai, hbi]
      · subst hai
        rw [update_self, update_of_ne hbi] at hab
        exact absurd hab.symm (hnew b)
    · by_cases hbi : b = i
      · subst hbi
        rw [update_self, update_of_ne hai] at hab
        exact absurd hab (hnew a)
      · rw [update_of_ne hai] at ha hab
        rw [update_of_ne hbi] at hab
        exact hd a b ha hab
  | @retire i _ =>
    intro a b ha hab
    simp only at ha hab
    have hai : a ≠ i := by intro he; subst he; simp [P4runtime.empty] at ha
    have hbi : b ≠ i := by intro he; subst he; simp [P4runtime.empty, hai] at hab ha; omega
    rw [update_of_ne hai] at ha hab
    rw [update_of_ne hbi] at hab
    exact hd a b ha hab
  | @assign j _ _ _ => intro a b; simpa only [setInUse_entry_pid] using hd a b
  | @release i _ _ _ => intro a b; simpa only [setInUse_entry_pid] using hd a b
  | forget _ _ => exact hd

theorem named_move (h : Move fresh t t') (hf : ∀ p, fresh t p → t.NewEntry p)
    (hpos : ∀ j, (t.entries j).inUse = true → 0 < (t.entries j).pid) (hn : t.Named) : t'.Named := by
  refine ⟨distinct_move h hf hn.distinct, ?_⟩
  cases h with
  | @spawn i p _ _ _ =>
    intro j hj
    simp only at hj ⊢
    have hji : j ≠ i := by intro he; subst he; simp at hj
    rw [update_of_ne hji] at hj ⊢
    exact hn.named j hj
  | @retire i _ =>
    intro j hj
    simp only at hj ⊢
    have hji : j ≠ i := by intro he; subst he; simp [P4runtime.empty] at hj
    rw [update_of_ne hji] at hj ⊢
    exact hn.named j hj
  | @assign j idx hj hidx =>
    intro k hk
    simp only [setInUse_entry_pid] at hk ⊢
    by_cases hkj : k = j
    · exact ⟨idx, by rw [hkj, update_self]⟩
    · rw [update_of_ne hkj] at hk
      obtain ⟨s, hs⟩ := hn.named k hk
      have hsi : s ≠ idx := by have := hpos k hk; intro he; subst he; omega
      exact ⟨s, by rw [update_of_ne hsi]; exact hs⟩
  | @release i idx hidx hi =>
    intro k hk
    simp only [setInUse_entry_pid] at hk ⊢
    have hki : k ≠ i := by intro he; subst he; simp at hk
    rw [update_of_ne hki] at hk
    obtain ⟨s, hs⟩ := hn.named k hk
    have hsi : s ≠ idx := by
      intro he
      subst he
      exact hki (hn.distinct k i (hpos k hk) (by rw [hi, hs]))
    exact ⟨s, by rw [update_of_ne hsi]; exact hs⟩
  | @forget idx _ hno =>
    intro k hk
    obtain ⟨s, hs⟩ := hn.named k hk
    have hsi : s ≠ idx := by intro he; subst he; exact hno k hs.symm
    exact ⟨s, by simp only; rw [update_of_ne hsi]; exact hs⟩

theorem exclusive_move (h : Move fresh t t') (hf : ∀ p, fresh t p → t.NewEntry p ∧ t.NewLink p)
    (he : t.Exclusive) : t'.Exclusive := by
  refine ⟨distinct_move h (fun p hp => (hf p hp).1) he.distinct, ?_⟩
  cases h with
  | @spawn i p _ _ hp =>
    intro j hj
    simp only at hj ⊢
    by_cases hji : j = i
    · rw [hji, update_self]
      exact Slots.count_eq_zero.mpr (hf p hp).2
    · rw [update_of_ne hji] at hj ⊢
      exact he.owners j hj
  | @retire i _ =>
    intro j hj
    simp only at hj ⊢
    have hji : j ≠ i := by intro he; subst he; simp [P4runtime.empty] at hj
    rw [update_of_ne hji] at hj ⊢
    exact he.owners j hj
  | @assign j idx hj hidx =>
    intro k hk
    simp only [setInUse_entry_pid] at hk ⊢
    have hold := he.owners k hk
    have hl := sessions_update (t := t) (update t.entries j ((t.entries j).setInUse true)) idx (t.entries j).pid
      (t.entries k).pid
    have hidx : ¬ t.links idx = (t.entries k).pid := by omega
    simp only [hidx, ite_false] at hl
    by_cases hkj : k = j
    · subst hkj
      rw [hj.2] at hold
      simp only [update_self, setInUse_inUse, ite_true, Bool.toNat_false, Bool.toNat_true] at hl hold ⊢
      omega
    · have hne : ¬ (t.entries j).pid = (t.entries k).pid := fun hp => hkj (he.distinct k j hk hp.symm)
      simp only [hne, ite_false] at hl
      rw [update_of_ne hkj]
      omega
  | @release i idx hidx hi =>
    intro k hk
    simp only [setInUse_entry_pid] at hk ⊢
    have hold := he.owners k hk
    have hl := sessions_update (t := t) (update t.entries i ((t.entries i).setInUse false)) idx (-1) (t.entries k).pid
    have hne : ¬ (-1 : Int) = (t.entries k).pid := by omega
    simp only [hne, ite_false] at hl
    by_cases hki : k = i
    · -- the session counted towards the entry, so the entry was in use
      subst hki
      rw [if_pos hi.symm] at hl
      have hle := Bool.toNat_le (t.entries k).inUse
      rw [update_self, setInUse_inUse, Bool.toNat_false]
      omega
    · have hoff : ¬ t.links idx = (t.entries k).pid := fun hp => hki (he.distinct k i hk (by rw [hi, hp]))
      simp only [hoff, ite_false] at hl
      rw [update_of_ne hki]
      omega
  | @forget idx _ hno =>
    intro k hk
    simp only at hk ⊢
    have hold := he.owners k hk
    have hl := sessions_update (t := t) t.entries idx (-1) (t.entries k).pid
    have hne : ¬ (-1 : Int) = (t.entries k).pid := by omega
    have hoff : ¬ t.links idx = (t.entries k).pid := fun hp => hno k hp.symm
    simp only [hne, hoff, ite_false] at hl
    omega

theorem distinct_clear (t : Tables) : t.clear.Distinct := fun _ _ h => by simp [clear, P4runtime.empty] at h

theorem named_clear (t : Tables) : t.clear.Named :=
  ⟨distinct_clear t, fun _ h => by simp [clear, P4runtime.empty] at h⟩

theorem exclusive_clear (t : Tables) : t.clear.Exclusive :=
  ⟨distinct_clear t, fun _ h => by simp [clear, P4runtime.empty] at h⟩

theorem Exclusive.unique (h : t.Exclusive) {j : Slot} (hp : 0 < (t.entries j).pid) (hj : (t.entries j).inUse = true) :
    ∃! i, t.links i = (t.entries j).pid := by
  have hc := h.owners j hp
  rw [hj] at hc
  exact Slots.count_eq_one.mp hc

theorem Exclusive.idle (h : t.Exclusive) {j : Slot} (hj : (t.entries j).Idle) (i : Slot) :
    t.links i ≠ (t.entries j).pid := by
  have hc := h.owners j hj.1
  rw [hj.2] at hc
  exact Slots.count_eq_zero.mp hc i

end Tables

end P4Ubpf
