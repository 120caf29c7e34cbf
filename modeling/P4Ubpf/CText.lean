import P4Ubpf.Slots
import Mathlib.Data.List.TakeWhile

/-!
# C's functions on text

Buffers and files are lists of bytes. A C string is what stands before the
terminator, so the terminator itself is not in the list.
-/

namespace P4Ubpf

def bytes (s : String) : List UInt8 := s.toUTF8.data.toList

/-- `strncmp(buffer, s, strlen(s)) == 0`, with a terminator after the buffer. -/
def strncmpEq (buffer : List UInt8) (s : String) : Bool := s.toUTF8.data.toList.isPrefixOf buffer

def isspace (b : UInt8) : Bool := b = 32 || (9 ≤ b && b ≤ 13)

def isdigit (b : UInt8) : Bool := 48 ≤ b && b ≤ 57

def digits (s : List UInt8) : ℕ := (s.takeWhile isdigit).foldl (fun n b => 10 * n + (b.toNat - 48)) 0

/-- `strtol(s, NULL, 10)`, saturating at the ends of `long`. -/
def strtol (s : List UInt8) : Int :=
  let n : Int := match s.dropWhile isspace with
    | 45 :: s => -digits s -- a minus sign
    | 43 :: s => digits s -- a plus sign
    | s => digits s
  max (-2 ^ 63) (min (2 ^ 63 - 1) n)

def atoi (s : List UInt8) : Int := (strtol s).bmod (2 ^ 32)

abbrev CString := { s : List UInt8 // 0 ∉ s }

/-- The C string in a buffer that is terminated at the latest by its end. -/
def cstring (buffer : List UInt8) : List UInt8 := buffer.takeWhile (· ≠ 0)

/-- What `snprintf(dest, size, "%s", s)` leaves in `dest`. -/
def snprintf (size : ℕ) (s : List UInt8) : List UInt8 := s.take (size - 1)

def strcmpEq (s : List UInt8) (t : String) : Bool := s = t.toUTF8.data.toList

/-- `strtok(s, delims)`: the token, and where the next call goes on. -/
def strtok (delims s : List UInt8) : Option (List UInt8 × List UInt8) :=
  match s.dropWhile (delims.contains ·) with
  | [] => none
  | b :: s => some ((b :: s).takeWhile (!delims.contains ·), ((b :: s).dropWhile (!delims.contains ·)).tail)

def saturate (n : ℕ) : UInt64 := if n < 2 ^ 64 then UInt64.ofNat n else UInt64.ofNat (2 ^ 64 - 1)

/-- `strtoull(s, NULL, 10)`, saturating at the end of `unsigned long long`;
a number that fits is negated after a minus sign. -/
def strtoull (s : List UInt8) : UInt64 :=
  match s.dropWhile isspace with
  | 45 :: s => if digits s < 2 ^ 64 then -UInt64.ofNat (digits s) else saturate (digits s)
  | 43 :: s => saturate (digits s)
  | s => saturate (digits s)

def readLine : ℕ → List UInt8 → List UInt8 × List UInt8
  | 0, file => ([], file)
  | _ + 1, [] => ([], [])
  | n + 1, b :: file =>
    if b = 10 then ([b], file)
    else
      let (line, rest) := readLine n file
      (b :: line, rest)

/-- `fgets(line, size, fp)`, null at the end of the file. -/
def fgets (size : ℕ) (file : List UInt8) : Option (List UInt8 × List UInt8) :=
  if file = [] then none else some (readLine (size - 1) file)

def strncat (dest s : List UInt8) (n : ℕ) : List UInt8 := dest ++ s.take n

theorem isspace_digit {b : UInt8} (h : isdigit b = true) : isspace b = false ∧ b ≠ 45 ∧ b ≠ 43 := by
  simp only [isdigit, Bool.and_eq_true, decide_eq_true_eq, UInt8.le_iff_toNat_le] at h
  refine ⟨?_, ?_, ?_⟩
  · simp [isspace, UInt8.le_iff_toNat_le, ← UInt8.toNat_inj] at h ⊢
    omega
  · intro he; subst he; simp at h
  · intro he; subst he; simp at h

theorem strtoull_digit {s t : List UInt8} {b : UInt8} (hs : s.dropWhile isspace = b :: t) (hb : isdigit b = true) :
    strtoull s = saturate (digits (b :: t)) := by
  obtain ⟨_, hminus, hplus⟩ := isspace_digit hb
  rw [strtoull, hs]
  split
  · rename_i he; cases he; exact absurd rfl hminus
  · rename_i he; cases he; exact absurd rfl hplus
  · rfl

theorem readLine_le (n : ℕ) (file : List UInt8) : (readLine n file).2.length ≤ file.length := by
  induction file generalizing n with
  | nil => cases n <;> exact Nat.le_refl _
  | cons b file ih =>
    cases n with
    | zero => exact Nat.le_refl _
    | succ n =>
      rw [readLine]
      split
      · exact Nat.le_succ _
      · exact Nat.le_succ_of_le (ih n)

theorem readLine_newline {n : ℕ} {line : List UInt8} (rest : List UInt8) (h : 10 ∉ line) (hn : line.length < n) :
    readLine n (line ++ 10 :: rest) = (line ++ [10], rest) := by
  induction line generalizing n with
  | nil =>
    obtain ⟨m, rfl⟩ := Nat.exists_eq_succ_of_ne_zero (Nat.ne_of_gt hn)
    rfl
  | cons b line ih =>
    obtain ⟨m, rfl⟩ := Nat.exists_eq_succ_of_ne_zero (Nat.ne_of_gt (Nat.zero_lt_of_lt hn))
    rw [List.mem_cons, not_or] at h
    rw [List.cons_append, readLine, if_neg (Ne.symm h.1), ih h.2 (Nat.lt_of_succ_lt_succ hn)]; rfl

theorem readLine_last {n : ℕ} {line : List UInt8} (h : 10 ∉ line) (hn : line.length ≤ n) :
    readLine n line = (line, []) := by
  induction line generalizing n with
  | nil => cases n <;> rfl
  | cons b line ih =>
    obtain ⟨m, rfl⟩ := Nat.exists_eq_succ_of_ne_zero (Nat.ne_of_gt (Nat.zero_lt_of_lt hn))
    rw [List.mem_cons, not_or] at h
    rw [readLine, if_neg (Ne.symm h.1), ih h.2 (Nat.le_of_succ_le_succ hn)]

theorem fgets_lt {n : ℕ} {file line rest : List UInt8} (h : fgets (n + 2) file = some (line, rest)) :
    rest.length < file.length := by
  cases file with
  | nil => cases h
  | cons b file =>
    have hread := Option.some.inj h
    have hle := readLine_le n file
    rw [show n + 2 - 1 = n + 1 from rfl, readLine] at hread
    split at hread
    · obtain rfl := congrArg Prod.snd hread
      exact Nat.lt_succ_self _
    · obtain rfl := congrArg Prod.snd hread
      exact Nat.lt_succ_of_le hle

theorem fgets_newline {size : ℕ} {line : List UInt8} (rest : List UInt8) (h : 10 ∉ line) (hsize : line.length + 1 < size) :
    fgets size (line ++ 10 :: rest) = some (line ++ [10], rest) := by
  rw [fgets, if_neg (by simp), readLine_newline rest h (by omega)]

theorem fgets_last {size : ℕ} {line : List UInt8} (hne : line ≠ []) (h : 10 ∉ line) (hsize : line.length < size) :
    fgets size line = some (line, []) := by
  rw [fgets, if_neg hne, readLine_last h (by omega)]

theorem cstring_eq {s : List UInt8} (h : 0 ∉ s) : cstring s = s := by
  apply List.takeWhile_eq_self_iff.mpr
  intro b hb
  have hne : b ≠ 0 := by intro he; subst he; exact h hb
  simpa using hne

/-- Filling up a buffer of `n` bytes truncates the whole, however much of it is
truncated already. -/
theorem strncat_take (n : ℕ) (dest s : List UInt8) :
    strncat (dest.take n) s (n - (dest.take n).length) = (dest ++ s).take n := by
  rw [strncat, List.take_append, List.length_take]
  by_cases hn : n ≤ dest.length
  · rw [min_eq_left hn, Nat.sub_self, show n - dest.length = 0 by omega]
  · rw [min_eq_right (by omega)]

end P4Ubpf
