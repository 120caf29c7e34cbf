import Mathlib.Data.List.Forall2
import Mathlib.Data.List.Induction
import Mathlib.Logic.Relation

/-!
# Labelled transition systems with guarded runs

A system moves by a partial function of its state and an action. A run may be
restricted to actions a guard admits, so that an assumption on the
environment or on the operator is a guard, and a theorem about every run
under the assumption is a theorem about `Reachable ok`.
-/

structure Lts (σ α : Type) where
  init : σ
  next : σ → α → Option σ

namespace Lts

variable {σ α : Type} {M : Lts σ α}

/-- The states of the runs all of whose actions `ok` admits. -/
inductive Reachable (M : Lts σ α) (ok : σ → α → Prop) : σ → Prop
  | init : Reachable M ok M.init
  | step {s s' : σ} {a : α} : Reachable M ok s → ok s a → M.next s a = some s' → Reachable M ok s'

namespace Reachable

variable {ok : σ → α → Prop} {I : σ → Prop} {s s' : σ}

/-- **Invariant rule.** What holds at the start and is kept by every admitted
action, from states reached by admitted actions, holds in every such state. -/
theorem inv (h0 : I M.init)
    (hs : ∀ s a s', Reachable M ok s → I s → ok s a → M.next s a = some s' → I s')
    (hr : Reachable M ok s) : I s := by
  induction hr with
  | init => exact h0
  | step hr ha hn ih => exact hs _ _ _ hr ih ha hn

theorem mono {ok' : σ → α → Prop} (h : ∀ s a, ok s a → ok' s a) (hr : Reachable M ok s) : Reachable M ok' s := by
  induction hr with
  | init => exact .init
  | step _ ha hn ih => exact .step ih (h _ _ ha) hn

end Reachable

def run (M : Lts σ α) : σ → List α → Option σ
  | s, [] => some s
  | s, a :: as => (M.next s a).bind fun s' => run M s' as

theorem run_step {s s' : σ} {a : α} (h : M.next s a = some s') (as : List α) : M.run s (a :: as) = M.run s' as := by
  rw [run, h, Option.bind_some]

theorem run_append {s s' : σ} {as : List α} (h : M.run s as = some s') (bs : List α) :
    M.run s (as ++ bs) = M.run s' bs := by
  induction as generalizing s with
  | nil => cases h; rfl
  | cons a as ih =>
    rw [run] at h
    cases hn : M.next s a with
    | none => rw [hn] at h; cases h
    | some t =>
      rw [hn, Option.bind_some] at h
      rw [List.cons_append, run_step hn, ih h]

theorem run_concat {s s' : σ} {as : List α} {a : α} :
    M.run s (as ++ [a]) = some s' ↔ ∃ t, M.run s as = some t ∧ M.next t a = some s' := by
  constructor
  · intro h
    induction as generalizing s with
    | nil =>
      simp only [List.nil_append, run, Option.bind_eq_some_iff, Option.some.injEq] at h
      obtain ⟨t, hn, rfl⟩ := h
      exact ⟨s, rfl, hn⟩
    | cons b as ih =>
      simp only [List.cons_append, run, Option.bind_eq_some_iff] at h ⊢
      obtain ⟨t, hn, h⟩ := h
      obtain ⟨u, hu, ha⟩ := ih h
      exact ⟨u, ⟨t, hn, hu⟩, ha⟩
  · intro hx
    obtain ⟨t, ht, hn⟩ := hx
    rw [run_append ht, run_step hn]; rfl

/-- **Invariant rule** for a statement about a run and the state it ends in. -/
theorem run_inv {I : List α → σ → Prop} (h0 : I [] M.init)
    (hs : ∀ as s a s', M.run M.init as = some s → I as s → M.next s a = some s' → I (as ++ [a]) s')
    {as : List α} {s : σ} (h : M.run M.init as = some s) : I as s := by
  induction as using List.reverseRecOn generalizing s with
  | nil => cases h; exact h0
  | append_singleton as a ih =>
    obtain ⟨t, ht, hn⟩ := run_concat.mp h
    exact hs as t a s ht (ih ht) hn

/-- What every admitted action keeps is kept by a run of them. -/
theorem run_keep {ok : σ → α → Prop} {I : σ → Prop} (hs : ∀ s a s', I s → ok s a → M.next s a = some s' → I s')
    {as : List α} (hok : ∀ s, ∀ a ∈ as, ok s a) {s s' : σ} (h : M.run s as = some s') (hi : I s) : I s' := by
  induction as generalizing s with
  | nil => cases h; exact hi
  | cons a as ih =>
    rw [run] at h
    cases hn : M.next s a with
    | none => rw [hn] at h; cases h
    | some t =>
      rw [hn, Option.bind_some] at h
      exact ih (fun s b hb => hok s b (List.mem_cons_of_mem _ hb)) h (hs s a t hi (hok s a List.mem_cons_self) hn)

theorem run_reachable {ok : σ → α → Prop} {as : List α} (hok : ∀ s, ∀ a ∈ as, ok s a) {s s' : σ}
    (hr : Reachable M ok s) (h : M.run s as = some s') : Reachable M ok s' := by
  induction as generalizing s with
  | nil => simp only [run, Option.some.injEq] at h; subst h; exact hr
  | cons a as ih =>
    simp only [run] at h
    cases hn : M.next s a with
    | none => simp [hn] at h
    | some t =>
      rw [hn, Option.bind_some] at h
      exact ih (fun s b hb => hok s b (List.mem_cons_of_mem _ hb))
        (.step hr (hok s a List.mem_cons_self) hn) h

/-- **Matched runs.** Where another system matches every action by a run, it
matches every run. -/
theorem run_matched {τ β : Type} {N : Lts τ β} (view : σ → τ) {R : α → List β → Prop}
    (hs : ∀ s a s', M.next s a = some s' → ∃ bs, R a bs ∧ N.run (view s) bs = some (view s'))
    {as : List α} {s s' : σ} (h : M.run s as = some s') :
    ∃ bss, List.Forall₂ R as bss ∧ N.run (view s) bss.flatten = some (view s') := by
  induction as generalizing s with
  | nil => cases h; exact ⟨[], .nil, rfl⟩
  | cons a as ih =>
    simp only [run, Option.bind_eq_some_iff] at h
    obtain ⟨t, hn, h⟩ := h
    obtain ⟨bs, hR, hbs⟩ := hs s a t hn
    obtain ⟨bss, hall, hrun⟩ := ih h
    exact ⟨bs :: bss, .cons hR hall, (run_append hbs _).trans hrun⟩

theorem run_any {s : σ} {as : List α} {P : σ → Prop} [DecidablePred P] (h : (M.run s as).any (fun t => P t) = true) :
    ∃ t, M.run s as = some t ∧ P t := by
  cases hr : M.run s as with
  | none => rw [hr] at h; cases h
  | some t =>
    rw [hr] at h
    exact ⟨t, rfl, by simpa using h⟩

def guard (M : Lts σ α) (p : σ → α → Bool) : Lts σ α := ⟨M.init, fun s a => if p s a then M.next s a else none⟩

theorem guard_reachable {ok : σ → α → Prop} {p : σ → α → Bool} {as : List α} (hok : ∀ s, ∀ a ∈ as, p s a = true → ok s a)
    {s s' : σ} (hr : Reachable M ok s) (h : (M.guard p).run s as = some s') : Reachable M ok s' := by
  induction as generalizing s with
  | nil => cases h; exact hr
  | cons a as ih =>
    cases hp : p s a with
    | false => simp [run, guard, hp] at h
    | true =>
      cases hn : M.next s a with
      | none => simp [run, guard, hp, hn] at h
      | some t =>
        have hrest : (M.guard p).run t as = some s' := by simpa [run, guard, hp, hn] using h
        exact ih (fun s b hb => hok s b (List.mem_cons_of_mem _ hb)) (.step hr (hok s a List.mem_cons_self hp) hn) hrest

/-! ## Observed runs -/

variable {η : Type}

/-- The system with a record of its run, which does not influence it. -/
def observe (M : Lts σ α) (h₀ : η) (f : σ → α → η → η) : Lts (σ × η) α :=
  ⟨(M.init, h₀), fun s a => (M.next s.1 a).map (·, f s.1 a s.2)⟩

theorem observe_reachable {h₀ : η} {f : σ → α → η → η} {ok : σ → α → Prop} {s : σ} :
    Reachable M ok s ↔ ∃ h, Reachable (M.observe h₀ f) (fun s a => ok s.1 a) (s, h) := by
  constructor
  · intro hr
    induction hr with
    | init => exact ⟨h₀, .init⟩
    | @step s s' a _ ha hn ih =>
      obtain ⟨h, hr⟩ := ih
      refine ⟨f s a h, .step (a := a) hr ha ?_⟩
      simp [observe, hn]
  · intro hx
    obtain ⟨h, hr⟩ := hx
    have hall : ∀ t : σ × η, Reachable (M.observe h₀ f) (fun s a => ok s.1 a) t → Reachable M ok t.1 := by
      intro t ht
      induction ht with
      | init => exact .init
      | step _ ha hn ih =>
        simp only [observe, Option.map_eq_some_iff] at hn
        obtain ⟨s', hn, rfl⟩ := hn
        exact .step ih ha hn
    exact hall _ hr

end Lts

theorem Relation.ReflTransGen.keep {σ : Type} {r : σ → σ → Prop} {I : σ → Prop}
    (hs : ∀ a b, r a b → I a → I b) {a b : σ} (h : Relation.ReflTransGen r a b) (ha : I a) : I b := by
  induction h with
  | refl => exact ha
  | tail _ hbc ih => exact hs _ _ hbc ih
