import Mathlib.Algebra.Group.Nat.Defs
import Mathlib.Data.Nat.ModEq
import Mathlib.Logic.Function.Basic
import Mathlib.Order.Nat
import Mathlib.Tactic.Ring

/-!
# Bytes and memory

Numbers as bytes, in either order, and memories addressed cell by cell. A
memory is a function from addresses. A store is the writes of its cells one
after the other, so that it can be cut off anywhere; a load reads a region, and
a region is not changed by writes outside of it.
-/

/-! ## Big-endian bytes -/

namespace BigEndian

def toNat (bs : List UInt8) : ℕ := bs.foldl (fun n b => 256 * n + b.toNat) 0

def ofNat : ℕ → ℕ → List UInt8
  | 0, _ => []
  | k + 1, n => UInt8.ofNat (n / 256 ^ k) :: ofNat k n

theorem length_ofNat : ∀ k n, (ofNat k n).length = k
  | 0, _ => rfl
  | k + 1, n => congrArg (· + 1) (length_ofNat k n)

theorem toNat_cons (b : UInt8) (bs : List UInt8) : toNat (b :: bs) = b.toNat * 256 ^ bs.length + toNat bs := by
  have hfold : ∀ (bs : List UInt8) (n : ℕ), bs.foldl (fun n b => 256 * n + b.toNat) n = n * 256 ^ bs.length + toNat bs := by
    intro bs
    induction bs with
    | nil => intro n; simp [toNat]
    | cons b bs ih =>
      intro n
      rw [toNat, List.foldl_cons, List.foldl_cons, ih, ih, List.length_cons, pow_succ]
      ring
  rw [toNat, List.foldl_cons, hfold, Nat.mul_zero, Nat.zero_add]

theorem toNat_ofNat : ∀ k n, toNat (ofNat k n) = n % 256 ^ k
  | 0, n => by rw [pow_zero, Nat.mod_one]; rfl
  | k + 1, n => by
    have hbyte : (UInt8.ofNat (n / 256 ^ k)).toNat = n / 256 ^ k % 256 := by simp
    rw [ofNat, toNat_cons, length_ofNat, toNat_ofNat k n, hbyte, Nat.mod_pow_succ, Nat.mul_comm, Nat.add_comm]

theorem ofNat_add : ∀ j k n, ofNat (j + k) n = ofNat j (n / 256 ^ k) ++ ofNat k n
  | 0, k, n => by rw [Nat.zero_add]; rfl
  | j + 1, k, n => by
    have hdiv : n / 256 ^ (j + k) = n / 256 ^ k / 256 ^ j := by rw [Nat.div_div_eq_div_mul, ← pow_add, Nat.add_comm k j]
    rw [Nat.succ_add_eq_add_succ j k, show j + (k + 1) = (j + k) + 1 by omega, ofNat, hdiv, ofNat_add j k n]; rfl

end BigEndian

/-! ## Little-endian bytes -/

namespace LittleEndian

def ofNat (k n : ℕ) : List UInt8 := (BigEndian.ofNat k n).reverse

def toNat (bs : List UInt8) : ℕ := BigEndian.toNat bs.reverse

def ofInt (k : ℕ) (z : Int) : List UInt8 := ofNat k (z % (256 ^ k : ℕ)).toNat

def toInt (bs : List UInt8) : Int := (toNat bs : Int).bmod (256 ^ bs.length)

/-- `z` has a representation of `k` bytes. -/
def InRange (k : ℕ) (z : Int) : Prop := -(256 ^ k : ℕ) ≤ z * 2 ∧ z * 2 < (256 ^ k : ℕ)

instance (k : ℕ) : DecidablePred (InRange k) := fun z =>
  inferInstanceAs (Decidable (-(256 ^ k : ℕ) ≤ z * 2 ∧ z * 2 < (256 ^ k : ℕ)))

@[simp] theorem length_ofNat (k n : ℕ) : (ofNat k n).length = k := by
  rw [ofNat, List.length_reverse, BigEndian.length_ofNat]

@[simp] theorem length_ofInt (k : ℕ) (z : Int) : (ofInt k z).length = k := length_ofNat k _

theorem toNat_ofNat (k n : ℕ) : toNat (ofNat k n) = n % 256 ^ k := by
  rw [toNat, ofNat, List.reverse_reverse, BigEndian.toNat_ofNat]

theorem toInt_ofInt {k : ℕ} {z : Int} (h : InRange k z) : toInt (ofInt k z) = z := by
  have hpos : (0 : Int) < (256 ^ k : ℕ) := by exact_mod_cast Nat.pow_pos (show 0 < 256 by decide)
  have hlt : (z % (256 ^ k : ℕ)).toNat < 256 ^ k := by
    have := Int.emod_lt_of_pos z hpos
    omega
  have hcast : ((z % (256 ^ k : ℕ)).toNat : Int) = z % (256 ^ k : ℕ) := Int.toNat_of_nonneg (Int.emod_nonneg z (by omega))
  rw [toInt, length_ofInt, ofInt, toNat_ofNat, Nat.mod_eq_of_lt hlt, hcast, Int.emod_bmod]
  exact Int.bmod_eq_of_le_mul_two h.1 h.2

end LittleEndian

/-! ## Memories -/

abbrev Memory (α : Type) := ℕ → α

namespace Memory

variable {α : Type}

/-- The writes that put `xs` at address `a`, in ascending order. -/
def cells : ℕ → List α → List (ℕ × α)
  | _, [] => []
  | a, x :: xs => (a, x) :: cells (a + 1) xs

def write (m : Memory α) (ps : List (ℕ × α)) : Memory α := ps.foldl (fun m p => Function.update m p.1 p.2) m

def store (m : Memory α) (a : ℕ) (xs : List α) : Memory α := m.write (cells a xs)

def load (m : Memory α) : ℕ → ℕ → List α
  | _, 0 => []
  | a, n + 1 => m a :: load m (a + 1) n

@[simp] theorem cells_nil (a : ℕ) : cells a ([] : List α) = [] := rfl
@[simp] theorem write_nil (m : Memory α) : m.write [] = m := rfl
@[simp] theorem store_nil (m : Memory α) (a : ℕ) : m.store a [] = m := rfl

@[simp] theorem length_cells (a : ℕ) (xs : List α) : (cells a xs).length = xs.length := by
  induction xs generalizing a with
  | nil => rfl
  | cons x xs ih => simp [cells, ih]

theorem cells_append (a : ℕ) (xs ys : List α) : cells a (xs ++ ys) = cells a xs ++ cells (a + xs.length) ys := by
  induction xs generalizing a with
  | nil => rfl
  | cons x xs ih =>
    rw [List.cons_append, cells, ih, cells, List.cons_append, List.length_cons]
    rw [show a + 1 + xs.length = a + (xs.length + 1) by omega]

theorem cells_range {a : ℕ} {xs : List α} {p : ℕ × α} (h : p ∈ cells a xs) : a ≤ p.1 ∧ p.1 < a + xs.length := by
  induction xs generalizing a with
  | nil => cases h
  | cons x xs ih =>
    rcases List.mem_cons.mp h with rfl | h
    · simp
    · have := ih h
      rw [List.length_cons]
      omega

theorem write_append (m : Memory α) (ps qs : List (ℕ × α)) : m.write (ps ++ qs) = (m.write ps).write qs :=
  List.foldl_append

theorem store_append (m : Memory α) (a : ℕ) (xs ys : List α) :
    m.store a (xs ++ ys) = (m.store a xs).store (a + xs.length) ys := by
  rw [store, cells_append, write_append]; rfl

/-! ## Frames -/

theorem write_frame (m : Memory α) {ps : List (ℕ × α)} {x : ℕ} (h : ∀ p ∈ ps, p.1 ≠ x) : m.write ps x = m x := by
  induction ps generalizing m with
  | nil => rfl
  | cons p ps ih =>
    have hp := h p List.mem_cons_self
    have hrest := ih (Function.update m p.1 p.2) fun q hq => h q (List.mem_cons_of_mem _ hq)
    exact hrest.trans (Function.update_of_ne (Ne.symm hp) _ _)

theorem store_frame (m : Memory α) {a x : ℕ} {xs : List α} (h : x < a ∨ a + xs.length ≤ x) : m.store a xs x = m x := by
  apply write_frame
  intro p hp he
  have := cells_range hp
  omega

/-! ## Loads -/

variable {m m' : Memory α}

@[simp] theorem length_load (m : Memory α) (a n : ℕ) : (m.load a n).length = n := by
  induction n generalizing a with
  | zero => rfl
  | succ n ih => rw [load, List.length_cons, ih]

theorem getElem?_load (m : Memory α) {a n i : ℕ} (h : i < n) : (m.load a n)[i]? = some (m (a + i)) := by
  induction n generalizing a i with
  | zero => exact absurd h (Nat.not_lt_zero i)
  | succ n ih =>
    cases i with
    | zero => rfl
    | succ i => rw [load, List.getElem?_cons_succ, ih (by omega), show a + 1 + i = a + (i + 1) by omega]

theorem load_congr {a n : ℕ} (h : ∀ x, a ≤ x → x < a + n → m x = m' x) : m.load a n = m'.load a n := by
  induction n generalizing a with
  | zero => rfl
  | succ n ih =>
    rw [load, load, h a le_rfl (by omega), ih fun x hx hlt => h x (by omega) (by omega)]

theorem load_add (m : Memory α) (a j k : ℕ) : m.load a (j + k) = m.load a j ++ m.load (a + j) k := by
  induction j generalizing a with
  | zero => rw [Nat.zero_add]; rfl
  | succ j ih =>
    rw [show j + 1 + k = (j + k) + 1 by omega, load, ih, load, List.cons_append]
    rw [show a + 1 + j = a + (j + 1) by omega]

theorem load_drop (m : Memory α) (a j k : ℕ) : (m.load a (j + k)).drop j = m.load (a + j) k := by
  rw [load_add, List.drop_left' (length_load m a j)]

theorem load_take (m : Memory α) (a j k : ℕ) : (m.load a (j + k)).take j = m.load a j := by
  rw [load_add, List.take_left' (length_load m a j)]

theorem load_slice (m : Memory α) {a i k n : ℕ} (h : i + k ≤ n) : m.load (a + i) k = ((m.load a n).drop i).take k := by
  obtain ⟨r, rfl⟩ : ∃ r, n = i + (k + r) := ⟨n - (i + k), by omega⟩
  rw [load_drop, load_take]

theorem load_frame (m : Memory α) {a n b : ℕ} {xs : List α} (h : b + xs.length ≤ a ∨ a + n ≤ b) :
    (m.store b xs).load a n = m.load a n :=
  load_congr fun x hx hlt => store_frame m (by omega)

theorem load_update (m : Memory α) {a n b : ℕ} (x : α) (h : b < a ∨ a + n ≤ b) :
    Memory.load (Function.update m b x) a n = m.load a n :=
  load_congr fun y hy hlt => Function.update_of_ne (by omega) x m

theorem load_set (m : Memory α) {a n b : ℕ} (x : α) (hb : b < n) :
    Memory.load (Function.update m (a + b) x) a n = (m.load a n).set b x := by
  obtain ⟨r, rfl⟩ : ∃ r, n = b + (r + 1) := ⟨n - (b + 1), by omega⟩
  have hbefore : Memory.load (Function.update m (a + b) x) a b = m.load a b := load_update m x (.inr le_rfl)
  have hafter : Memory.load (Function.update m (a + b) x) (a + b + 1) r = m.load (a + b + 1) r :=
    load_update m x (.inl (Nat.lt_succ_self _))
  rw [load_add _ a b (r + 1), load_add m a b (r + 1), load, load, hbefore, hafter, Function.update_self,
    List.set_append_right _ _ (by rw [length_load]), length_load, Nat.sub_self, List.set_cons_zero]

theorem load_store (m : Memory α) (a : ℕ) (xs : List α) : (m.store a xs).load a xs.length = xs := by
  induction xs generalizing m a with
  | nil => rfl
  | cons x xs ih =>
    have hrest : m.store a (x :: xs) = (m.store a [x]).store (a + 1) xs := store_append m a [x] xs
    have hhead : m.store a (x :: xs) a = x := by
      rw [hrest, store_frame _ (.inl (Nat.lt_succ_self a))]
      exact Function.update_self a x m
    rw [List.length_cons, load, hhead, hrest, ih]

theorem load_sub {a n i k : ℕ} (h : m.load a n = m'.load a n) (hi : i + k ≤ n) : m.load (a + i) k = m'.load (a + i) k := by
  rw [load_slice m hi, load_slice m' hi, h]

end Memory
