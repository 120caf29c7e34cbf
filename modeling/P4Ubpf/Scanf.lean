import P4Ubpf.CText
import Mathlib.Data.List.DropRight

/-!
# Reading text by a format

`sscanf` works through its format from left to right and stops at the first
directive the text does not match. Which texts match is said by `Reads`,
without the scanner: white space in the format stands for any white space,
and a number for its longest spelling.
-/

namespace P4Ubpf

inductive Directive
  | space
  | literal (b : UInt8) (h : isspace b = false)
  /-- `%*d` -/
  | skipInt
  /-- `%lu` -/
  | readULong
deriving DecidableEq

def Directive.assigns : Directive → Bool
  | .readULong => true
  | _ => false

/-- The directives of a format without other conversions than these two. -/
def directives : List UInt8 → List Directive
  | [] => []
  | 37 :: 42 :: 100 :: format => .skipInt :: directives format
  | 37 :: 108 :: 117 :: format => .readULong :: directives format
  | b :: format =>
    if h : isspace b = true then .space :: directives format
    else .literal b (Bool.eq_false_iff.mpr h) :: directives format

def dropSign : List UInt8 → List UInt8
  | 45 :: s => s -- a minus sign
  | 43 :: s => s -- a plus sign
  | s => s

def skipNumber (s : List UInt8) : Option (List UInt8) :=
  match dropSign (s.dropWhile isspace) with
  | [] => none
  | b :: s => if isdigit b then some (s.dropWhile isdigit) else none

/-- The values a directive assigns, and the rest of the text. -/
def Directive.take : Directive → List UInt8 → Option (List UInt64 × List UInt8)
  | .space, s => some ([], s.dropWhile isspace)
  | .literal _ _, [] => none
  | .literal b _, c :: s => if c = b then some ([], s) else none
  | .skipInt, s => (skipNumber s).map ([], ·)
  | .readULong, s => (skipNumber s).map ([strtoull s], ·)

/-- The values `sscanf` assigns. It returns their number, or `EOF`. -/
def sscanf : List Directive → List UInt8 → List UInt64
  | [], _ => []
  | d :: ds, s =>
    match d.take s with
    | none => []
    | some (values, rest) => values ++ sscanf ds rest

/-! ## Numbers -/

inductive Sign : List UInt8 → Prop
  | none : Sign []
  | minus : Sign [45]
  | plus : Sign [43]

/-- The spelling of a number, with white space before it. -/
inductive Numeral : List UInt8 → Prop
  | spelled {gap sign ds : List UInt8} {b : UInt8} (hgap : ∀ c ∈ gap, isspace c = true) (hsign : Sign sign)
      (hb : isdigit b = true) (hd : ∀ c ∈ ds, isdigit c = true) : Numeral (gap ++ (sign ++ b :: ds))

def NoDigit (s : List UInt8) : Prop := ∀ b ∈ s.head?, isdigit b = false

section
variable {num s rest : List UInt8}

theorem dropSign_spec (s : List UInt8) : ∃ sign, Sign sign ∧ s = sign ++ dropSign s := by
  unfold dropSign
  split
  · exact ⟨[45], .minus, rfl⟩
  · exact ⟨[43], .plus, rfl⟩
  · exact ⟨[], .none, rfl⟩

theorem dropSign_digit {b : UInt8} (h : isdigit b = true) : dropSign (b :: s) = b :: s := by
  obtain ⟨_, hminus, hplus⟩ := isspace_digit h
  unfold dropSign
  split
  · rename_i he; cases he; exact absurd rfl hminus
  · rename_i he; cases he; exact absurd rfl hplus
  · rfl

theorem dropSign_append {sign : List UInt8} (hsign : Sign sign) {b : UInt8} (hb : isdigit b = true) :
    dropSign (sign ++ b :: s) = b :: s := by
  cases hsign with
  | none => exact dropSign_digit hb
  | minus => rfl
  | plus => rfl

theorem span_digits (hs : NoDigit s) {ds : List UInt8} (hd : ∀ b ∈ ds, isdigit b = true) :
    (ds ++ s).takeWhile isdigit = ds ∧ (ds ++ s).dropWhile isdigit = s := by
  rw [List.takeWhile_append_of_pos hd, List.dropWhile_append_of_pos hd]
  cases s with
  | nil => exact ⟨List.append_nil ds, rfl⟩
  | cons b s =>
    have hb : ¬ isdigit b = true := by rw [hs b rfl]; exact Bool.false_ne_true
    rw [List.takeWhile_cons_of_neg hb, List.dropWhile_cons_of_neg hb, List.append_nil]
    exact ⟨rfl, rfl⟩

theorem digits_append (hs : NoDigit s) {ds : List UInt8} (hd : ∀ b ∈ ds, isdigit b = true) :
    digits (ds ++ s) = digits ds := by
  have hnil : NoDigit [] := fun b hb => by cases hb
  have hds := (span_digits hnil hd).1
  rw [List.append_nil] at hds
  rw [digits, digits, (span_digits hs hd).1, hds]

theorem dropWhile_gap {gap sign : List UInt8} {b : UInt8} (hgap : ∀ c ∈ gap, isspace c = true) (hsign : Sign sign)
    (hb : isdigit b = true) (ds s : List UInt8) :
    (gap ++ (sign ++ b :: ds) ++ s).dropWhile isspace = sign ++ b :: (ds ++ s) := by
  rw [List.append_assoc, List.append_assoc, List.dropWhile_append_of_pos hgap]
  cases hsign with
  | none => exact List.dropWhile_cons_of_neg (by rw [(isspace_digit hb).1]; exact Bool.false_ne_true)
  | minus => rfl
  | plus => rfl

theorem skipNumber_append (h : Numeral num) (hs : NoDigit s) : skipNumber (num ++ s) = some s := by
  cases h with
  | spelled hgap hsign hb hd =>
    rw [skipNumber, dropWhile_gap hgap hsign hb, dropSign_append hsign hb]
    simp only [hb, if_true]
    rw [(span_digits hs hd).2]

theorem strtoull_append (h : Numeral num) (hs : NoDigit s) : strtoull (num ++ s) = strtoull num := by
  cases h with
  | @spelled gap sign ds b hgap hsign hb hd =>
    have hlong := dropWhile_gap hgap hsign hb ds s
    have hshort := dropWhile_gap hgap hsign hb ds []
    rw [List.append_nil, List.append_nil] at hshort
    have hdigits : digits (b :: (ds ++ s)) = digits (b :: ds) :=
      digits_append hs (List.forall_mem_cons.mpr ⟨hb, hd⟩)
    cases hsign with
    | none => rw [strtoull_digit hlong hb, strtoull_digit hshort hb, hdigits]
    | minus =>
      rw [strtoull, hlong, strtoull, hshort]
      simp only [List.cons_append, List.nil_append, hdigits]
    | plus =>
      rw [strtoull, hlong, strtoull, hshort]
      simp only [List.cons_append, List.nil_append, hdigits]

theorem skipNumber_spelled (h : skipNumber s = some rest) : ∃ num, s = num ++ rest ∧ Numeral num ∧ NoDigit rest := by
  obtain ⟨sign, hsign, hs⟩ := dropSign_spec (s.dropWhile isspace)
  rw [skipNumber] at h
  cases hd : dropSign (s.dropWhile isspace) with
  | nil => rw [hd] at h; cases h
  | cons b t =>
    rw [hd] at h hs
    simp only [Option.ite_none_right_eq_some, Option.some.injEq] at h
    obtain ⟨hb, rfl⟩ := h
    have hgap : ∀ c ∈ s.takeWhile isspace, isspace c = true := fun c hc => List.mem_takeWhile_imp hc
    have hdigits : ∀ c ∈ t.takeWhile isdigit, isdigit c = true := fun c hc => List.mem_takeWhile_imp hc
    refine ⟨_, ?_, .spelled hgap hsign hb hdigits, ?_⟩
    · rw [List.append_assoc, List.append_assoc, List.cons_append, List.takeWhile_append_dropWhile, ← hs,
        List.takeWhile_append_dropWhile]
    · intro c hc
      have hhead := List.head?_dropWhile_not isdigit t
      rw [Option.mem_def.mp hc] at hhead
      simpa using hhead

end

/-! ## What is read -/

/-- All values of the format are assigned: `values`. The text behind the last
one need not match. -/
inductive Reads : List Directive → List UInt8 → List UInt64 → Prop
  | done {ds : List Directive} (h : ds.all (!·.assigns)) (s : List UInt8) : Reads ds s []
  | space {ds : List Directive} {gap s : List UInt8} {values : List UInt64} (hgap : ∀ b ∈ gap, isspace b = true) :
      Reads ds s values → Reads (.space :: ds) (gap ++ s) values
  | literal {ds : List Directive} {b : UInt8} {h : isspace b = false} {s : List UInt8} {values : List UInt64} :
      Reads ds s values → Reads (.literal b h :: ds) (b :: s) values
  | skipInt {ds : List Directive} {num s : List UInt8} {values : List UInt64} (hnum : Numeral num) (hs : NoDigit s) :
      Reads ds s values → Reads (.skipInt :: ds) (num ++ s) values
  | readULong {ds : List Directive} {num s : List UInt8} {values : List UInt64} (hnum : Numeral num) (hs : NoDigit s) :
      Reads ds s values → Reads (.readULong :: ds) (num ++ s) (strtoull num :: values)

section
variable {ds : List Directive} {s : List UInt8} {values : List UInt64}

theorem take_length {d : Directive} {rest : List UInt8} (h : d.take s = some (values, rest)) :
    values.length = if d.assigns then 1 else 0 := by
  cases d with
  | space => cases h; rfl
  | literal b hb =>
    cases s with
    | nil => cases h
    | cons c s =>
      simp only [Directive.take, Option.ite_none_right_eq_some, Option.some.injEq, Prod.mk.injEq] at h
      obtain ⟨_, rfl, _⟩ := h
      rfl
  | skipInt =>
    simp only [Directive.take, Option.map_eq_some_iff, Prod.mk.injEq] at h
    obtain ⟨_, _, rfl, _⟩ := h
    rfl
  | readULong =>
    simp only [Directive.take, Option.map_eq_some_iff, Prod.mk.injEq] at h
    obtain ⟨_, _, rfl, _⟩ := h
    rfl

theorem sscanf_length_le (ds : List Directive) (s : List UInt8) : (sscanf ds s).length ≤ ds.countP Directive.assigns := by
  induction ds generalizing s with
  | nil => exact Nat.le_refl _
  | cons d ds ih =>
    rw [sscanf]
    split
    · exact Nat.zero_le _
    · rename_i values rest ht
      have hrest := ih rest
      rw [List.length_append, take_length ht, List.countP_cons]
      omega

theorem sscanf_none (h : ds.all (!·.assigns)) (s : List UInt8) : sscanf ds s = [] ∧ ds.countP Directive.assigns = 0 := by
  have hzero : ds.countP Directive.assigns = 0 := by
    rw [List.countP_eq_zero]
    intro d hd
    simpa using List.all_eq_true.mp h d hd
  have hle := sscanf_length_le ds s
  exact ⟨List.eq_nil_of_length_eq_zero (by omega), hzero⟩

theorem sscanf_space (ds : List Directive) (s : List UInt8) :
    sscanf (.space :: ds) s = sscanf ds (s.dropWhile isspace) := rfl

theorem sscanf_literal {b : UInt8} (h : isspace b = false) : sscanf (.literal b h :: ds) (b :: s) = sscanf ds s := by
  simp [sscanf, Directive.take]

theorem sscanf_skipInt {rest : List UInt8} (h : skipNumber s = some rest) :
    sscanf (.skipInt :: ds) s = sscanf ds rest := by
  simp [sscanf, Directive.take, h]

theorem sscanf_readULong {rest : List UInt8} (h : skipNumber s = some rest) :
    sscanf (.readULong :: ds) s = strtoull s :: sscanf ds rest := by
  simp [sscanf, Directive.take, h]

theorem number_dropSpace (s : List UInt8) :
    skipNumber (s.dropWhile isspace) = skipNumber s ∧ strtoull (s.dropWhile isspace) = strtoull s := by
  unfold skipNumber strtoull
  rw [List.dropWhile_idempotent]
  exact ⟨rfl, rfl⟩

/-- A text that matches does so without the white space before it. -/
theorem Reads.dropSpace (h : Reads ds s values) : sscanf ds (s.dropWhile isspace) = sscanf ds s := by
  cases h with
  | done h => rw [(sscanf_none h _).1, (sscanf_none h _).1]
  | space => rw [sscanf_space, sscanf_space, List.dropWhile_idempotent]
  | @literal _ _ hb => rw [List.dropWhile_cons_of_neg (by rw [hb]; exact Bool.false_ne_true)]
  | skipInt => simp only [sscanf, Directive.take, number_dropSpace]
  | readULong => simp only [sscanf, Directive.take, number_dropSpace]

theorem Reads.sscanf_eq (h : Reads ds s values) : sscanf ds s = values := by
  induction h with
  | done h s => exact (sscanf_none h s).1
  | space hgap hr ih => rw [sscanf_space, List.dropWhile_append_of_pos hgap, hr.dropSpace, ih]
  | literal _ ih => rw [sscanf_literal, ih]
  | skipInt hnum hs _ ih => rw [sscanf_skipInt (skipNumber_append hnum hs), ih]
  | readULong hnum hs _ ih => rw [sscanf_readULong (skipNumber_append hnum hs), strtoull_append hnum hs, ih]

theorem Reads.length (h : Reads ds s values) : values.length = ds.countP Directive.assigns := by
  induction h with
  | done h s => exact (sscanf_none h s).2.symm
  | space _ _ ih => exact ih
  | literal _ ih => exact ih
  | skipInt _ _ _ ih => exact ih
  | readULong _ _ _ ih => rw [List.length_cons, ih, List.countP_cons_of_pos rfl]

theorem reads_take {d : Directive} {rest : List UInt8} {v values : List UInt64} (h : d.take s = some (v, rest))
    (hr : Reads ds rest values) : Reads (d :: ds) s (v ++ values) := by
  cases d with
  | space =>
    cases h
    have hgap : ∀ b ∈ s.takeWhile isspace, isspace b = true := fun b hb => List.mem_takeWhile_imp hb
    have hspace := Reads.space hgap hr
    rwa [List.takeWhile_append_dropWhile] at hspace
  | literal b hb =>
    cases s with
    | nil => cases h
    | cons c s =>
      simp only [Directive.take, Option.ite_none_right_eq_some, Option.some.injEq, Prod.mk.injEq] at h
      obtain ⟨rfl, rfl, rfl⟩ := h
      exact .literal hr
  | skipInt =>
    simp only [Directive.take, Option.map_eq_some_iff, Prod.mk.injEq] at h
    obtain ⟨_, hskip, rfl, rfl⟩ := h
    obtain ⟨num, rfl, hnum, hs⟩ := skipNumber_spelled hskip
    exact .skipInt hnum hs hr
  | readULong =>
    simp only [Directive.take, Option.map_eq_some_iff, Prod.mk.injEq] at h
    obtain ⟨_, hskip, rfl, rfl⟩ := h
    obtain ⟨num, rfl, hnum, hs⟩ := skipNumber_spelled hskip
    rw [strtoull_append hnum hs]
    exact .readULong hnum hs hr

/-- **The scanner reads what matches**: it assigns all values of the format
exactly when the text reads as them. -/
theorem reads_iff : Reads ds s values ↔ sscanf ds s = values ∧ values.length = ds.countP Directive.assigns := by
  constructor
  · exact fun h => ⟨h.sscanf_eq, h.length⟩
  · intro hx
    obtain ⟨rfl, hlen⟩ := hx
    induction ds generalizing s with
    | nil => exact .done rfl s
    | cons d ds ih =>
      by_cases hnone : (d :: ds).all (!·.assigns)
      · rw [(sscanf_none hnone s).1]
        exact .done hnone s
      · cases ht : d.take s with
        | none =>
          have hnil : sscanf (d :: ds) s = [] := by rw [sscanf, ht]
          rw [hnil, List.length_nil, eq_comm, List.countP_eq_zero] at hlen
          exact absurd (List.all_eq_true.mpr fun e he => by simpa using hlen e he) hnone
        | some t =>
          obtain ⟨v, rest⟩ := t
          have hcons : sscanf (d :: ds) s = v ++ sscanf ds rest := by rw [sscanf, ht]
          rw [hcons] at hlen ⊢
          rw [List.length_append, take_length ht, List.countP_cons, Nat.add_comm, Nat.add_right_cancel_iff] at hlen
          exact reads_take ht (ih hlen)

end

/-! ## Formats with words -/

theorem noDigit_space {b : UInt8} {s : List UInt8} (h : isdigit b = false) : NoDigit (b :: s) := by
  intro c hc
  rw [← Option.some.inj hc]
  exact h

theorem directives_cons {b : UInt8} (h : b ≠ 37) (format : List UInt8) : directives (b :: format) =
    if h : isspace b = true then .space :: directives format
    else .literal b (Bool.eq_false_iff.mpr h) :: directives format := by
  rw [directives]
  · exact fun _ hb => absurd hb h
  · exact fun _ hb => absurd hb h

theorem Reads.text {text format s : List UInt8} {values : List UInt64} (ht : 37 ∉ text)
    (h : Reads (directives format) s values) : Reads (directives (text ++ format)) (text ++ s) values := by
  induction text with
  | nil => exact h
  | cons b text ih =>
    rw [List.mem_cons, not_or] at ht
    have hrest := ih ht.2
    rw [List.cons_append, List.cons_append, directives_cons (Ne.symm ht.1)]
    by_cases hb : isspace b = true
    · rw [dif_pos hb]
      exact @Reads.space _ [b] _ _ (by simpa using hb) hrest
    · rw [dif_neg hb]
      exact .literal hrest

end P4Ubpf
