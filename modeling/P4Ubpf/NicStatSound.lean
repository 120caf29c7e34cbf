import P4Ubpf.ProcFiles
import P4Ubpf.Words

/-!
# Which packets are counted

A statistics file has a header line that names the columns and a line with
their values. The agent finds both lines whatever stands before them, and in
them the two columns wherever they stand, so the counts of two files differ by
the packets that passed in between. A counter for which the file has no value is
taken for zero, and nothing tells this zero from one that was read. The counts
then wrap around by the offsets.
-/

namespace P4Ubpf.Agent

/-! ## Words and columns -/

/-- The words of a line that is read as a C string. -/
def lineWords (line : List UInt8) : List (List UInt8) := Words ([32, 10].contains ·) (cstring line)

theorem tokens_eq (n : ℕ) (s : List UInt8) : tokens n s = (Words ([32, 10].contains ·) s).take n := by
  induction n generalizing s with
  | zero => simp [tokens]
  | succ n ih =>
    cases hs : s.dropWhile ([32, 10].contains ·) with
    | nil =>
      have hnone : strtok [32, 10] s = none := by rw [strtok, hs]
      rw [tokens, hnone, Words.eq_nil hs]; rfl
    | cons b rest =>
      have hsome : strtok [32, 10] s = some ((b :: rest).takeWhile (!([32, 10] : List UInt8).contains ·),
          ((b :: rest).dropWhile (!([32, 10] : List UInt8).contains ·)).tail) := by rw [strtok, hs]
      rw [tokens, hsome, Words.eq_cons hs, List.take_succ_cons]
      exact congrArg (List.cons _) (ih _)

theorem lineWords_newline (line : List UInt8) : lineWords (line ++ [10]) = lineWords line := by
  unfold lineWords cstring
  rw [List.takeWhile_append]
  split
  · rename_i hall
    have hwhole : line.takeWhile (· ≠ 0) = line := (List.takeWhile_prefix _).eq_of_length hall
    rw [hwhole]
    change Words _ (line ++ [10]) = _
    rw [Words.append_sep line [] (by decide), Words.words_nil, List.append_nil]
  · rfl

/-- The value in the last column of that name. -/
def lookup (name : String) (cs : List (List UInt8 × List UInt8)) : Option UInt64 :=
  ((cs.filter fun c => strcmpEq c.1 name).getLast?).map fun c => strtoull c.2

theorem lookup_append (name : String) (cs : List (List UInt8 × List UInt8)) (c : List UInt8 × List UInt8) :
    lookup name (cs ++ [c]) = if strcmpEq c.1 name then some (strtoull c.2) else lookup name cs := by
  rw [lookup, List.filter_append]
  by_cases hc : strcmpEq c.1 name = true
  · simp [hc]
  · simp [hc, lookup]

theorem columns_distinct {w : List UInt8} (h : strcmpEq w "InReceives" = true) : strcmpEq w "OutRequests" = false := by
  obtain rfl := of_decide_eq_true h
  decide

theorem readStat_lookup (snmp : List UInt8) : readStat snmp =
    ((lookup "InReceives" (columns snmp)).getD 0, (lookup "OutRequests" (columns snmp)).getD 0) := by
  rw [readStat]
  induction columns snmp using List.reverseRecOn with
  | nil => rfl
  | append_singleton cs c ih =>
    rw [List.foldl_append, List.foldl_cons, List.foldl_nil, ih, lookup_append, lookup_append, readColumn]
    by_cases hin : strcmpEq c.1 "InReceives" = true
    · simp [hin, columns_distinct hin]
    · by_cases hout : strcmpEq c.1 "OutRequests" = true
      · simp [hin, hout]
      · simp [hin, hout]

/-! ## The statistics file -/

/-- A line of fewer than 1024 bytes with its newline. -/
def Fits (line : List UInt8) : Prop := 10 ∉ line ∧ line.length + 1 < 1024

def Decimal (w : List UInt8) (n : ℕ) : Prop := w ≠ [] ∧ w.all isdigit = true ∧ digits w = n ∧ n < 2 ^ 64

instance : DecidablePred Fits := fun line => inferInstanceAs (Decidable (10 ∉ line ∧ line.length + 1 < 1024))

instance (w : List UInt8) (n : ℕ) : Decidable (Decimal w n) :=
  inferInstanceAs (Decidable (w ≠ [] ∧ w.all isdigit = true ∧ digits w = n ∧ n < 2 ^ 64))

structure Column (names values : List (List UInt8)) (name : String) (n : ℕ) : Prop where
  once : names.countP (strcmpEq · name) = 1
  value : ∃ c ∈ names.zip values, strcmpEq c.1 name = true ∧ Decimal c.2 n

/-- The contents of `/proc/net/snmp`, as far as they are read. -/
structure Snmp where
  before : List (List UInt8)
  header : List UInt8
  values : List UInt8
  after : List UInt8
  inReceives : ℕ
  outRequests : ℕ
  fits : ∀ line ∈ before ++ [header], Fits line
  others : ∀ line ∈ before, strncmpEq line "Ip:" = false
  ip : strncmpEq header "Ip:" = true
  /-- the values line ends with a newline or with the file -/
  ends : 10 ∉ values ∧ (∀ b ∈ after.head?, b = 10) ∧ (values ++ after.take 1).length < 1024
  columns : (lineWords header).length = (lineWords values).length
  few : (lineWords header).length ≤ 64
  received : Column (lineWords header) (lineWords values) "InReceives" inReceives
  sent : Column (lineWords header) (lineWords values) "OutRequests" outRequests

def Snmp.contents (f : Snmp) : List UInt8 :=
  f.before.flatMap (· ++ [10]) ++ (f.header ++ 10 :: (f.values ++ f.after))

section
variable {f : Snmp}

theorem findIp_line {snmp line rest : List UInt8} (h : fgets 1024 snmp = some (line, rest)) :
    findIp snmp = if strncmpEq line "Ip:" then some (line, rest) else findIp rest := by
  rw [findIp]
  split
  · rename_i hnone
    rw [hnone] at h; cases h
  · rename_i hsome
    rw [hsome] at h; cases h; rfl

theorem findIp_header {header : List UInt8} (rest : List UInt8) (hf : Fits header) (h : strncmpEq header "Ip:" = true) :
    findIp (header ++ 10 :: rest) = some (header ++ [10], rest) := by
  have hip : strncmpEq (header ++ [10]) "Ip:" = true := by
    unfold strncmpEq at h ⊢
    rw [List.isPrefixOf_iff_prefix] at h ⊢
    exact h.trans (List.prefix_append _ _)
  rw [findIp_line (fgets_newline rest hf.1 hf.2), if_pos hip]

theorem strncmpEq_newline {line : List UInt8} (h : strncmpEq line "Ip:" = false) :
    strncmpEq (line ++ [10]) "Ip:" = false := by
  by_contra hc
  rw [Bool.not_eq_false] at hc
  unfold strncmpEq at h hc
  rw [List.isPrefixOf_iff_prefix] at hc
  -- the newline is no part of the three bytes
  rcases List.prefix_concat_iff.mp hc with he | hp
  · have hlast := congrArg List.getLast? he
    rw [List.getLast?_concat] at hlast
    revert hlast; decide
  · rw [List.isPrefixOf_iff_prefix.mpr hp] at h; cases h

theorem findIp_skip {line : List UInt8} (rest : List UInt8) (hf : Fits line) (h : strncmpEq line "Ip:" = false) :
    findIp (line ++ 10 :: rest) = findIp rest := by
  rw [findIp_line (fgets_newline rest hf.1 hf.2), strncmpEq_newline h]; rfl

theorem findIp_lines {before : List (List UInt8)} (rest : List UInt8) (hf : ∀ line ∈ before, Fits line)
    (h : ∀ line ∈ before, strncmpEq line "Ip:" = false) : findIp (before.flatMap (· ++ [10]) ++ rest) = findIp rest := by
  induction before with
  | nil => rfl
  | cons line before ih =>
    rw [List.flatMap_cons, List.append_assoc, List.append_assoc]
    apply (findIp_skip _ (hf line List.mem_cons_self) (h line List.mem_cons_self)).trans
    exact ih (fun l hl => hf l (List.mem_cons_of_mem _ hl)) (fun l hl => h l (List.mem_cons_of_mem _ hl))

theorem Snmp.values_ne_nil (f : Snmp) : f.values ≠ [] := by
  intro h0
  obtain ⟨c, hc, _⟩ := f.received.value
  have hnone : lineWords f.values = [] := by rw [h0, lineWords, cstring, List.takeWhile_nil, Words.words_nil]
  rw [hnone, List.zip_nil_right] at hc
  cases hc

theorem Snmp.fgets_values (f : Snmp) : ∃ line rest, fgets 1024 (f.values ++ f.after) = some (line, rest) ∧
    lineWords line = lineWords f.values := by
  obtain ⟨hline, hnext, hfits⟩ := f.ends
  cases hafter : f.after with
  | nil =>
    rw [hafter, List.take_nil, List.append_nil] at hfits
    rw [List.append_nil]
    exact ⟨f.values, [], fgets_last f.values_ne_nil hline hfits, rfl⟩
  | cons b rest =>
    rw [hafter] at hnext hfits
    obtain rfl : b = 10 := hnext b rfl
    rw [List.length_append] at hfits
    exact ⟨f.values ++ [10], rest, fgets_newline rest hline hfits, lineWords_newline f.values⟩

theorem Snmp.columns_eq (f : Snmp) :
    Agent.columns f.contents = (lineWords f.header).zip (lineWords f.values) := by
  have hfind : findIp f.contents = some (f.header ++ [10], f.values ++ f.after) := by
    rw [Snmp.contents, findIp_lines _ (fun l hl => f.fits l (by simp [hl])) f.others]
    exact findIp_header _ (f.fits f.header (by simp)) f.ip
  obtain ⟨line, rest, hget, hwords⟩ := f.fgets_values
  have hheader : tokens 64 (cstring (f.header ++ [10])) = lineWords f.header := by
    rw [tokens_eq, ← lineWords, lineWords_newline, List.take_of_length_le f.few]
  have hvalues : tokens 64 (cstring line) = lineWords f.values := by
    rw [tokens_eq, ← lineWords, hwords, List.take_of_length_le (f.columns ▸ f.few)]
  simp only [Agent.columns, hfind, hget, hheader, hvalues]

/-! ## The two columns -/

theorem strtoull_decimal {w : List UInt8} {n : ℕ} (h : Decimal w n) : strtoull w = UInt64.ofNat n := by
  obtain ⟨hne, hdigits, hn, hlt⟩ := h
  cases w with
  | nil => exact absurd rfl hne
  | cons b w =>
    have hb : isdigit b = true := List.all_eq_true.mp hdigits b List.mem_cons_self
    have hskip : (b :: w).dropWhile isspace = b :: w :=
      List.dropWhile_cons_of_neg (by rw [(isspace_digit hb).1]; exact Bool.false_ne_true)
    rw [strtoull_digit hskip hb, hn, saturate, if_pos hlt]

theorem lookup_column {names values : List (List UInt8)} {name : String} {n : ℕ} (hlen : names.length = values.length)
    (h : Column names values name n) : lookup name (names.zip values) = some (UInt64.ofNat n) := by
  obtain ⟨c, hc, hname, hdec⟩ := h.value
  have hfst : (names.zip values).map Prod.fst = names := List.map_fst_zip (Nat.le_of_eq hlen)
  have hone := h.once
  rw [← hfst, List.countP_map] at hone
  change (names.zip values).countP (fun c => strcmpEq c.1 name) = 1 at hone
  rw [List.countP_eq_length_filter] at hone
  obtain ⟨a, ha⟩ := List.length_eq_one_iff.mp hone
  have hmem : c ∈ (names.zip values).filter fun c => strcmpEq c.1 name := List.mem_filter.mpr ⟨hc, hname⟩
  rw [ha, List.mem_singleton] at hmem
  subst hmem
  rw [lookup, ha]
  exact congrArg some (strtoull_decimal hdec)

theorem readStat_contents (f : Snmp) :
    readStat f.contents = (UInt64.ofNat f.inReceives, UInt64.ofNat f.outRequests) := by
  rw [readStat_lookup, f.columns_eq, lookup_column f.columns f.received, lookup_column f.columns f.sent]; rfl

end

/-! ## Over a run -/

def polls (files : List Snmp) : List (Bool × List UInt8) := files.map fun f => (false, f.contents)

theorem polls_passed (between : List Snmp) (last : Snmp) (s : NicStat) :
    ∃ s', nicStat.run s (polls (between ++ [last])) = some s' ∧
      s'.passed = UInt64.ofNat last.inReceives - s.rxOffset + (UInt64.ofNat last.outRequests - s.txOffset) := by
  induction between generalizing s with
  | nil =>
    have hnext := getNicStat_next s last.contents
    rw [readStat_contents] at hnext
    exact ⟨_, congrArg (Option.bind · some) hnext, rfl⟩
  | cons f between ih =>
    obtain ⟨s', hrun, hpassed⟩ := ih _
    exact ⟨s', hrun, hpassed⟩

/-- **The packets since the start are counted** modulo `2^64`, whatever the
calls in between have read. -/
theorem packets_since_start (s : NicStat) (first last : Snmp) (between : List Snmp)
    (hr : first.inReceives ≤ last.inReceives) (ht : first.outRequests ≤ last.outRequests) :
    ∃ s', nicStat.run s ((true, first.contents) :: polls (between ++ [last])) = some s' ∧
      s'.passed.toNat = (last.inReceives - first.inReceives + (last.outRequests - first.outRequests)) % 2 ^ 64 := by
  obtain ⟨s', hrun, hpassed⟩ := polls_passed between last
    ⟨(readStat first.contents).1, (readStat first.contents).2, s.rx, s.tx, s.passed⟩
  refine ⟨s', hrun, ?_⟩
  rw [hpassed, readStat_contents, ← UInt64.ofNat_sub hr, ← UInt64.ofNat_sub ht, ← UInt64.ofNat_add,
    UInt64.toNat_ofNat']

def atStart : Snmp where
  before := [bytes "Version: 1"]
  header := bytes "Ip: Forwarding InReceives OutRequests"
  values := bytes "Ip: 1 100 50"
  after := []
  inReceives := 100
  outRequests := 50
  fits := by decide
  others := by decide
  ip := by decide
  ends := ⟨by decide, by simp, by decide⟩
  columns := by decide
  few := by decide
  received := ⟨by decide, (bytes "InReceives", bytes "100"), by decide, by decide, by decide⟩
  sent := ⟨by decide, (bytes "OutRequests", bytes "50"), by decide, by decide, by decide⟩

def later : Snmp where
  before := []
  header := bytes "Ip: OutRequests InReceives"
  values := bytes "Ip: 60 130"
  after := bytes "\nIcmp: InMsgs"
  inReceives := 130
  outRequests := 60
  fits := by decide
  others := by decide
  ip := by decide
  ends := ⟨by decide, fun b hb => (Option.some.inj hb).symm, by decide⟩
  columns := by decide
  few := by decide
  received := ⟨by decide, (bytes "InReceives", bytes "130"), by decide, by decide, by decide⟩
  sent := ⟨by decide, (bytes "OutRequests", bytes "60"), by decide, by decide, by decide⟩

theorem packets_since_start_demo :
    ∃ s, nicStat.run .init [(true, atStart.contents), (false, atStart.contents), (false, later.contents)] = some s ∧
      s.passed.toNat = (130 - 100 + (60 - 50)) % 2 ^ 64 :=
  packets_since_start .init atStart later [atStart] (by decide) (by decide)

/-! ## Statistics that cannot be read -/

/-- No value can be taken for the column of that name. -/
inductive Unread (name : String) (snmp : List UInt8) : Prop
  /-- no line begins with `Ip:` -/
  | noHeader (h : findIp snmp = none)
  /-- the file ends after the header -/
  | noValues {header rest : List UInt8} (h : findIp snmp = some (header, rest)) (hv : fgets 1024 rest = none)
  | absent {header rest : List UInt8} (h : findIp snmp = some (header, rest))
      (hno : ∀ w ∈ tokens 64 (cstring header), strcmpEq w name = false)
  /-- the values stop before the column -/
  | short {header rest values rest' : List UInt8} (h : findIp snmp = some (header, rest))
      (hv : fgets 1024 rest = some (values, rest'))
      (hno : ∀ i w, (tokens 64 (cstring header))[i]? = some w → strcmpEq w name = true →
        (tokens 64 (cstring values)).length ≤ i)

section
variable {name : String} {snmp : List UInt8}

theorem lookup_eq_none {cs : List (List UInt8 × List UInt8)} :
    lookup name cs = none ↔ ∀ c ∈ cs, strcmpEq c.1 name = false := by
  rw [lookup, Option.map_eq_none_iff, List.getLast?_eq_none_iff, List.filter_eq_nil_iff]
  simp only [Bool.not_eq_true]

theorem zip_unnamed {names values : List (List UInt8)} : (∀ c ∈ names.zip values, strcmpEq c.1 name = false) ↔
    ∀ i w, names[i]? = some w → strcmpEq w name = true → values.length ≤ i := by
  constructor
  · intro hno i w hi hw
    by_contra hlt
    obtain ⟨v, hv⟩ : ∃ v, values[i]? = some v := ⟨_, List.getElem?_eq_getElem (Nat.lt_of_not_le hlt)⟩
    have hmem : (w, v) ∈ names.zip values := List.mem_of_getElem? (List.getElem?_zip_eq_some.mpr ⟨hi, hv⟩)
    rw [hno _ hmem] at hw
    cases hw
  · intro hshort c hc
    obtain ⟨i, hi⟩ := List.mem_iff_getElem?.mp hc
    obtain ⟨hname, hv⟩ := List.getElem?_zip_eq_some.mp hi
    by_contra hw
    have hle := hshort i c.1 hname (by simpa using hw)
    rw [List.getElem?_eq_none hle] at hv
    cases hv

theorem unread_iff : Unread name snmp ↔ lookup name (columns snmp) = none := by
  rw [lookup_eq_none]
  constructor
  · intro hun
    cases hun with
    | noHeader h => simp [columns, h]
    | noValues h hv => simp [columns, h, hv]
    | absent h hno =>
      intro c hc
      rw [columns, h] at hc
      simp only at hc
      split at hc
      · cases hc
      · exact hno c.1 (List.of_mem_zip hc).1
    | short h hv hno =>
      simp only [columns, h, hv]
      exact zip_unnamed.mpr hno
  · intro hno
    cases h : findIp snmp with
    | none => exact .noHeader h
    | some line =>
      obtain ⟨header, rest⟩ := line
      cases hv : fgets 1024 rest with
      | none => exact .noValues h hv
      | some line' =>
        obtain ⟨values, rest'⟩ := line'
        simp only [columns, h, hv] at hno
        exact .short h hv (zip_unnamed.mp hno)

/-- The last value of a counter is what the contents say: zero where they do
not have the counter. -/
def Kept (name : String) (snmp : List UInt8) (last : UInt64) : Prop :=
  (Unread name snmp → last = 0) ∧ ∀ n, lookup name (columns snmp) = some n → last = n

theorem kept_iff {last : UInt64} : Kept name snmp last ↔ (lookup name (columns snmp)).getD 0 = last := by
  unfold Kept
  rw [unread_iff]
  cases lookup name (columns snmp) with
  | none => simp [eq_comm]
  | some n => simp [eq_comm]

end

theorem passed_sum {s : NicStat} (hr : s.Reachable) : s.passed = s.rx + s.tx := by
  apply hr.inv (I := fun s => s.passed = s.rx + s.tx)
  · rfl
  · intro s c s' _ h _ hn
    obtain ⟨isInit, snmp⟩ := c
    cases isInit with
    | true => cases hn; exact h
    | false => cases hn; rfl

/-- **A failed read keeps the counts** exactly when each counter that cannot be
read was zero at the last read, and one that can be read has not moved. -/
theorem failed_read_keeps_iff {s s' : NicStat} (hr : s.Reachable) {snmp : List UInt8}
    (h : getNicStat (some snmp) false s = some s') :
    (s'.rx = s.rx ∧ s'.tx = s.tx ∧ s'.passed = s.passed) ↔
      Kept "InReceives" snmp (s.rx + s.rxOffset) ∧ Kept "OutRequests" snmp (s.tx + s.txOffset) := by
  have hsum := passed_sum hr
  rw [kept_iff, kept_iff]
  rw [getNicStat_next, readStat_lookup] at h
  cases h
  constructor
  · intro hkeep
    obtain ⟨hrx, htx, _⟩ := hkeep
    exact ⟨UInt64.sub_eq_iff_eq_add.mp hrx, UInt64.sub_eq_iff_eq_add.mp htx⟩
  · intro hkeep
    obtain ⟨hrx, htx⟩ := hkeep
    simp only [hrx, htx, UInt64.add_sub_cancel, hsum, and_self]

def cutOff : List UInt8 := bytes "Ip: InReceives OutRequests" ++ [10]

theorem init_atStart : getNicStat (some atStart.contents) true .init = some ⟨100, 50, 0, 0, 0⟩ := by
  rw [getNicStat_init, readStat_contents]; rfl

theorem reachable_atStart : NicStat.Reachable ⟨100, 50, 0, 0, 0⟩ :=
  .step (a := (true, atStart.contents)) .init trivial init_atStart

theorem failed_read_keeps_iff_demo : ∃ s', getNicStat (some cutOff) false ⟨100, 50, 0, 0, 0⟩ = some s' ∧
    ((s'.rx = 0 ∧ s'.tx = 0 ∧ s'.passed = 0) ↔ Kept "InReceives" cutOff (0 + 100) ∧ Kept "OutRequests" cutOff (0 + 50)) :=
  ⟨_, rfl, failed_read_keeps_iff reachable_atStart rfl⟩

/-- No packet has passed since the start, and the count is just below `2^64`. -/
theorem failed_read_wraps : ∃ s s', getNicStat (some atStart.contents) true .init = some s ∧ s.Reachable ∧
    getNicStat (some cutOff) false s = some s' ∧ Unread "InReceives" cutOff ∧ Unread "OutRequests" cutOff ∧
    s.passed = 0 ∧ s'.passed.toNat = 2 ^ 64 - 150 := by
  have hfind : findIp cutOff = some (cutOff, []) := findIp_header [] (by decide) (by decide)
  have hread : readStat cutOff = (0, 0) := by rw [readStat, columns, hfind]; rfl
  have hnext := getNicStat_next ⟨100, 50, 0, 0, 0⟩ cutOff
  rw [hread] at hnext
  exact ⟨_, _, init_atStart, reachable_atStart, hnext, .noValues hfind rfl, .noValues hfind rfl, rfl, rfl⟩

end P4Ubpf.Agent
