import P4Ubpf.Decimal
import P4Ubpf.ProcFiles

/-!
# Whether the memory in use is known

The pages are those of the first piece of the file that has the TCP line's
form. In a file without such a piece the loop ends with nothing assigned, and
the agent publishes what happened to be in the local.
-/

namespace P4Ubpf.Agent

/-- The pieces of the file, each up to a newline and of at most 255 bytes. -/
def chunks (sockstat : List UInt8) : List (List UInt8) :=
  match _ : fgets 256 sockstat with
  | none => []
  | some (buf, rest) => buf :: chunks rest
termination_by sockstat.length
decreasing_by exact fgets_lt ‹_›

/-- The piece has the TCP line's form, with this number in its last field. -/
def TcpLine (buf : List UInt8) (mem : UInt64) : Prop := Reads tcpFormat (cstring buf) [mem]

def Matched (sockstat : List UInt8) : Prop := ∃ buf ∈ chunks sockstat, ∃ mem, TcpLine buf mem

def FirstMem (sockstat : List UInt8) (mem : UInt64) : Prop :=
  ∃ before buf after, chunks sockstat = before ++ buf :: after ∧ TcpLine buf mem ∧ ∀ b ∈ before, ∀ n, ¬ TcpLine b n

def memField (buf : List UInt8) : Option UInt64 :=
  match sscanf tcpFormat (cstring buf) with
  | [mem] => some mem
  | _ => none

section
variable {sockstat buf rest : List UInt8}

theorem chunks_cons (h : fgets 256 sockstat = some (buf, rest)) : chunks sockstat = buf :: chunks rest := by
  rw [chunks]
  split
  · rename_i hnone
    rw [hnone] at h; cases h
  · rename_i hsome
    rw [hsome] at h; cases h; rfl

theorem chunks_lines {lines : List (List UInt8)} (h : ∀ line ∈ lines, 10 ∉ line ∧ line.length + 1 < 256)
    (rest : List UInt8) : chunks (lines.flatMap (· ++ [10]) ++ rest) = lines.map (· ++ [10]) ++ chunks rest := by
  induction lines with
  | nil => rfl
  | cons line lines ih =>
    obtain ⟨hline, hlen⟩ := h line List.mem_cons_self
    rw [List.flatMap_cons, List.append_assoc, List.append_assoc, List.singleton_append,
      chunks_cons (fgets_newline _ hline hlen), ih fun l hl => h l (List.mem_cons_of_mem _ hl)]; rfl

theorem memField_eq_some {mem : UInt64} : memField buf = some mem ↔ TcpLine buf mem := by
  rw [TcpLine, reads_iff, memField]
  constructor
  · intro h
    split at h
    · rename_i hs
      rw [hs, ← Option.some.inj h]
      exact ⟨rfl, rfl⟩
    · cases h
  · intro h
    rw [h.1]

theorem memField_eq_none : memField buf = none ↔ ∀ mem, ¬ TcpLine buf mem := by
  rw [Option.eq_none_iff_forall_ne_some]
  simp only [ne_eq, memField_eq_some]

theorem getPages_cons (h : fgets 256 sockstat = some (buf, rest)) (usedPages : UInt64) :
    getPages usedPages sockstat = (memField buf).getD (getPages usedPages rest) := by
  rw [getPages, memField]
  split
  · rename_i hnone
    rw [hnone] at h; cases h
  · rename_i hsome
    rw [hsome] at h; cases h
    cases sscanf tcpFormat (cstring buf) with
    | nil => rfl
    | cons mem more => cases more <;> rfl

theorem getPages_eq (usedPages : UInt64) (sockstat : List UInt8) :
    getPages usedPages sockstat = ((chunks sockstat).findSome? memField).getD usedPages := by
  fun_induction chunks sockstat with
  | case1 sockstat hend =>
    rw [getPages]
    split
    · rfl
    · rename_i hsome
      rw [hend] at hsome; cases hsome
  | case2 sockstat buf rest hget ih =>
    rw [getPages_cons hget, List.findSome?_cons]
    cases memField buf with
    | none => exact ih
    | some mem => rfl

theorem matched_iff : Matched sockstat ↔ (chunks sockstat).findSome? memField ≠ none := by
  rw [Matched, ne_eq, List.findSome?_eq_none_iff]
  simp only [memField_eq_none]
  push Not
  rfl

theorem firstMem_iff {mem : UInt64} : FirstMem sockstat mem ↔ (chunks sockstat).findSome? memField = some mem := by
  rw [FirstMem, List.findSome?_eq_some_iff]
  simp only [memField_eq_some, memField_eq_none]

theorem getPages_unmatched (h : ¬ Matched sockstat) (usedPages : UInt64) : getPages usedPages sockstat = usedPages := by
  rw [matched_iff, not_not] at h
  rw [getPages_eq, h]; rfl

theorem getPages_first {mem : UInt64} (h : FirstMem sockstat mem) (usedPages : UInt64) :
    getPages usedPages sockstat = mem := by
  rw [getPages_eq, firstMem_iff.mp h]; rfl

theorem Matched.first (h : Matched sockstat) : ∃ mem, FirstMem sockstat mem := by
  obtain ⟨mem, hmem⟩ := Option.ne_none_iff_exists'.mp (matched_iff.mp h)
  exact ⟨mem, firstMem_iff.mpr hmem⟩

end

/-- In a file without a TCP line, what is published follows from the local. -/
theorem publish_unmatched {sockstat : List UInt8} (h : ¬ Matched sockstat) (threshold pagesize usedPages : UInt64) :
    BigEndian.toNat ((publish threshold pagesize usedPages sockstat).drop 4) =
      (usedBytes usedPages pagesize).toNat % 2 ^ 32 := by
  rw [publish, getPages_unmatched h, (payload_halves _).2, (combined_halves _ _).2]

/-- **The pages are determined by the file**, as those of its first TCP line,
exactly when it has a TCP line. -/
theorem pages_determined_iff (sockstat : List UInt8) :
    ((∃ mem, FirstMem sockstat mem ∧ ∀ usedPages, getPages usedPages sockstat = mem) ↔ Matched sockstat) ∧
    ((∀ usedPages usedPages', getPages usedPages sockstat = getPages usedPages' sockstat) ↔ Matched sockstat) := by
  refine ⟨⟨?_, ?_⟩, ⟨?_, ?_⟩⟩
  · intro hx
    obtain ⟨mem, hfirst, _⟩ := hx
    rw [matched_iff, firstMem_iff.mp hfirst]
    exact Option.some_ne_none mem
  · intro hmatched
    obtain ⟨mem, hfirst⟩ := hmatched.first
    exact ⟨mem, hfirst, getPages_first hfirst⟩
  · intro hsame
    by_contra hno
    have h01 := hsame 0 1
    rw [getPages_unmatched hno, getPages_unmatched hno] at h01
    cases h01
  · intro hmatched u u'
    obtain ⟨mem, hfirst⟩ := hmatched.first
    rw [getPages_first hfirst, getPages_first hfirst]

/-- There is no TCP line, and two values of the local are published as two
numbers of pages. -/
theorem pages_indeterminate : ¬ Matched (bytes "sockets: used 1" ++ [10]) ∧
    getPages 0 (bytes "sockets: used 1" ++ [10]) = 0 ∧ getPages 1 (bytes "sockets: used 1" ++ [10]) = 1 ∧
    publish 0 4096 0 (bytes "sockets: used 1" ++ [10]) ≠ publish 0 4096 1 (bytes "sockets: used 1" ++ [10]) := by
  have hchunks : chunks (bytes "sockets: used 1" ++ [10]) = [bytes "sockets: used 1" ++ [10]] := by
    have hfits : ∀ line ∈ [bytes "sockets: used 1"], 10 ∉ line ∧ line.length + 1 < 256 := by decide
    have hline := chunks_lines hfits []
    have hend : chunks [] = [] := by rw [chunks]; rfl
    simpa [hend] using hline
  have hno : ¬ Matched (bytes "sockets: used 1" ++ [10]) := by
    rw [matched_iff, not_not, hchunks]
    decide +kernel
  refine ⟨hno, getPages_unmatched hno 0, getPages_unmatched hno 1, ?_⟩
  rw [publish, publish, getPages_unmatched hno, getPages_unmatched hno]
  decide +kernel

/-! ## The file as the kernel prints it -/

/-- The numbers of the TCP line, and what stands around it. -/
structure Sockstat where
  before : List (List UInt8)
  inuse : ℕ
  orphan : ℕ
  tw : ℕ
  alloc : ℕ
  mem : ℕ
  after : List UInt8
  fits : ∀ line ∈ before, 10 ∉ line ∧ line.length + 1 < 256
  others : ∀ line ∈ before, ∀ mem, ¬ TcpLine (line ++ [10]) mem
  small : inuse < 2 ^ 64 ∧ orphan < 2 ^ 64 ∧ tw < 2 ^ 64 ∧ alloc < 2 ^ 64 ∧ mem < 2 ^ 64

def Sockstat.tcp (k : Sockstat) : List UInt8 :=
  bytes "TCP: inuse " ++ (decimal k.inuse ++ (bytes " orphan " ++ (decimal k.orphan ++ (bytes " tw " ++
    (decimal k.tw ++ (bytes " alloc " ++ (decimal k.alloc ++ (bytes " mem " ++ decimal k.mem))))))))

def Sockstat.contents (k : Sockstat) : List UInt8 :=
  (k.before ++ [k.tcp]).flatMap (· ++ [10]) ++ k.after

theorem tcpFormat_eq : tcpFormat = directives (bytes "TCP: inuse " ++ (bytes "%*d" ++ (bytes " orphan " ++ (bytes "%*d" ++
    (bytes " tw " ++ (bytes "%*d" ++ (bytes " alloc " ++ (bytes "%*d" ++ (bytes " mem " ++ bytes "%lu"))))))))) := by
  decide

theorem Sockstat.reads (k : Sockstat) {after : List UInt8} (h : NoDigit after) :
    Reads tcpFormat (k.tcp ++ after) [UInt64.ofNat k.mem] := by
  have hskip : ∀ format, directives (bytes "%*d" ++ format) = .skipInt :: directives format := fun _ => rfl
  have hlast : Reads (directives (bytes "%lu")) (decimal k.mem ++ after) [UInt64.ofNat k.mem] := by
    rw [← strtoull_spelled k.small.2.2.2.2]
    exact .readULong (decimal_numeral _) h (.done rfl _)
  rw [tcpFormat_eq, Sockstat.tcp]
  simp only [List.append_assoc]
  apply Reads.text (by decide)
  rw [hskip]
  apply Reads.skipInt (decimal_numeral _) (noDigit_space rfl)
  apply Reads.text (by decide)
  rw [hskip]
  apply Reads.skipInt (decimal_numeral _) (noDigit_space rfl)
  apply Reads.text (by decide)
  rw [hskip]
  apply Reads.skipInt (decimal_numeral _) (noDigit_space rfl)
  apply Reads.text (by decide)
  rw [hskip]
  apply Reads.skipInt (decimal_numeral _) (noDigit_space rfl)
  exact Reads.text (by decide) hlast

theorem Sockstat.tcp_free (k : Sockstat) {c : UInt8} (hc : isdigit c = false)
    (ht : c ∉ bytes "TCP: inuse " ++ (bytes " orphan " ++ (bytes " tw " ++ (bytes " alloc " ++ bytes " mem ")))) :
    c ∉ k.tcp := by
  have hdec : ∀ n, c ∉ decimal n := fun n hmem => isdigit_ne (decimal_isdigit n c hmem) hc rfl
  simp only [List.mem_append, not_or] at ht
  obtain ⟨h₁, h₂, h₃, h₄, h₅⟩ := ht
  simp only [Sockstat.tcp, List.mem_append, not_or]
  exact ⟨h₁, hdec _, h₂, hdec _, h₃, hdec _, h₄, hdec _, h₅, hdec _⟩

theorem Sockstat.line (k : Sockstat) : 10 ∉ k.tcp ∧ 0 ∉ k.tcp ∧ k.tcp.length + 1 < 256 := by
  obtain ⟨h₁, h₂, h₃, h₄, h₅⟩ := k.small
  refine ⟨k.tcp_free rfl (by decide), k.tcp_free rfl (by decide), ?_⟩
  have hlen : ∀ n, n < 2 ^ 64 → (decimal n).length ≤ 20 := fun n hn => decimal_length (by omega)
  have htexts : (bytes "TCP: inuse ").length = 11 ∧ (bytes " orphan ").length = 8 ∧ (bytes " tw ").length = 4 ∧
      (bytes " alloc ").length = 7 ∧ (bytes " mem ").length = 5 := by decide
  have := hlen _ h₁
  have := hlen _ h₂
  have := hlen _ h₃
  have := hlen _ h₄
  have := hlen _ h₅
  simp only [Sockstat.tcp, List.length_append]
  omega

theorem Sockstat.firstMem (k : Sockstat) : FirstMem k.contents (UInt64.ofNat k.mem) := by
  obtain ⟨hten, hzero, hlen⟩ := k.line
  have hfits : ∀ line ∈ k.before ++ [k.tcp], 10 ∉ line ∧ line.length + 1 < 256 :=
    List.forall_mem_append.mpr ⟨k.fits, by simpa using ⟨hten, hlen⟩⟩
  refine ⟨k.before.map (· ++ [10]), k.tcp ++ [10], chunks k.after, ?_, ?_, ?_⟩
  · rw [Sockstat.contents, chunks_lines hfits, List.map_append, List.append_assoc]; rfl
  · rw [TcpLine, cstring_eq (by simpa using hzero)]
    exact k.reads (noDigit_space rfl)
  · intro b hb
    obtain ⟨line, hline, rfl⟩ := List.mem_map.mp hb
    exact k.others line hline

end P4Ubpf.Agent
