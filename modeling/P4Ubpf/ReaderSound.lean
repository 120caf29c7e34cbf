import P4Ubpf.RoundSound
import P4Ubpf.SockstatSound

/-!
# What a reader of the message learns

Readers of the message are other programs, which load its fields at any
instant and decrypt them. Between rounds they get the two numbers of the files;
in the middle of the stores they get the last message or the one before it, and
never a mixture.
-/

namespace P4Ubpf.Agent

/-! ## What a reader finds -/

/-- `wc_AesGcmDecrypt` with an IV of the message's length, as a reader of the
message calls it. -/
abbrev MessageDecrypt := Vector UInt8 8 → Vector UInt8 12 → Vector UInt8 16 → List UInt8 → Int × Vector UInt8 8

/-- What a reader who holds the key finds in the message area at one instant. -/
def readMessage (decrypt : MessageDecrypt) (m : Memory UInt8) : Option (Vector UInt8 8) :=
  let (ret, plaintext) := decrypt (loadVector m 16 8) (loadVector m 4 12) (loadVector m 272 16) []
  if ret = 0 then some plaintext else none

/-- Nothing opens but what has been encrypted, each to its own plaintext. -/
def Authentic (decrypt : MessageDecrypt) (ss : List Sealed) : Prop := ∀ cipherText iv authTag,
  (decrypt cipherText iv authTag []).1 = 0 → ∃ s ∈ ss, s.cipherText = cipherText ∧ s.iv = iv ∧ s.authTag = authTag ∧
    s.plaintext = (decrypt cipherText iv authTag []).2

/-- No IV is drawn twice, and no two ciphertexts come out with the same tag. -/
structure Fresh (ss : List Sealed) : Prop where
  iv : ∀ s ∈ ss, ∀ t ∈ ss, s.iv = t.iv → s = t
  tag : ∀ s ∈ ss, ∀ t ∈ ss, s.cipherText = t.cipherText → s.authTag = t.authTag → s = t

section
variable {P : Platform} {m₀ m : Memory UInt8} {s : Sealed} {new old : List UInt8} {i j k : ℕ}

theorem cut_after (hj : i + k ≤ j) (hlen : j ≤ new.length) :
    ((cut new old j).drop i).take k = (new.drop i).take k := by
  have hsplit : new = new.take j ++ new.drop j := (List.take_append_drop j new).symm
  have htake : (new.take j).length = j := by rw [List.length_take]; omega
  have hfirst : ∀ l, ((new.take j ++ l).drop i).take k = ((new.take j).drop i).take k := by
    intro l
    rw [List.drop_append_of_le_length (by omega), List.take_append_of_le_length (by rw [List.length_drop]; omega)]
  rw [cut, hfirst]
  conv_rhs => rw [hsplit, hfirst]

theorem cut_before (hj : j ≤ i) (hlen : j ≤ new.length) : (cut new old j).drop i = old.drop i := by
  obtain ⟨r, rfl⟩ : ∃ r, i = j + r := ⟨i - j, by omega⟩
  have htake : (new.take j).length = j := by rw [List.length_take]; omega
  rw [cut, ← List.drop_drop, List.drop_left' htake, List.drop_drop]

theorem message_fields (s : Sealed) : (s.message.drop 4).take 12 = s.iv.toList ∧
    (s.message.drop 16).take 8 = s.cipherText.toList ∧ (s.message.drop 272).take 16 = s.authTag.toList := by
  have hiv : s.message.drop 4 =
      s.iv.toList ++ ((s.cipherText.toList ++ List.replicate 248 0) ++ s.authTag.toList) :=
    List.drop_left' (LittleEndian.length_ofNat 4 8)
  have hcipher : s.message.drop 16 = (s.cipherText.toList ++ List.replicate 248 0) ++ s.authTag.toList := by
    have hskip : s.message.drop 16 = (s.message.drop 4).drop 12 := by rw [List.drop_drop]
    rw [hskip, hiv, List.drop_left' Vector.length_toList]
  have htag : s.message.drop 272 = s.authTag.toList := by
    have hskip : s.message.drop 272 = (s.message.drop 16).drop 256 := by rw [List.drop_drop]
    rw [hskip, hcipher]
    apply List.drop_left'
    rw [List.length_append, Vector.length_toList, List.length_replicate]
  refine ⟨?_, ?_, ?_⟩
  · rw [hiv, List.take_left' Vector.length_toList]
  · rw [hcipher, List.append_assoc, List.take_left' Vector.length_toList]
  · rw [htag, List.take_of_length_le (Nat.le_of_eq Vector.length_toList)]

theorem loadVector_eq {a n : ℕ} (v : Vector UInt8 n) (h : a + n ≤ messageSize)
    (harea : ((m.load 0 messageSize).drop a).take n = v.toList) : loadVector m a n = v := by
  apply Vector.toList_inj.mp
  rw [loadVector_toList, ← harea, ← Memory.load_slice m h, Nat.zero_add]

theorem read_at_rest (h : m.load 0 messageSize = s.message) :
    loadVector m 4 12 = s.iv ∧ loadVector m 16 8 = s.cipherText ∧ loadVector m 272 16 = s.authTag := by
  obtain ⟨hiv, hcipher, htag⟩ := message_fields s
  refine ⟨loadVector_eq _ (by decide) ?_, loadVector_eq _ (by decide) ?_, loadVector_eq _ (by decide) ?_⟩
  · rw [h, hiv]
  · rw [h, hcipher]
  · rw [h, htag]

end

/-! ## The whole run -/

/-- The byte at `x` after another party's store. -/
def Act.over (x : ℕ) (v : UInt8) : Act → UInt8
  | .other a b => if a = x then b else v
  | _ => v

section
variable {P : Platform} {m₀ : Memory UInt8} {c c' : Config}

theorem outside_next {a : Act} (hn : Next P c a c') (hin : c.phase.InArea) {x : ℕ} (hx : messageSize ≤ x) :
    c'.process.memory x = a.over x (c.process.memory x) := by
  cases hn with
  | @other _ p a b =>
    simp only [Act.over, Function.update_apply, eq_comm]
  | start hstart =>
    obtain ⟨_, _, _, _, rfl⟩ := startProcess_cases hstart
    rfl
  | @publish p usedPages sockstat iv =>
    rcases publishRound_cases P usedPages sockstat iv p with ⟨s, hs, heq⟩ | ⟨err, _, heq⟩
    · rw [heq]; rfl
    · rw [heq]; rfl
  | @store p a b stores =>
    have ha : a < messageSize := hin (a, b) List.mem_cons_self
    exact Function.update_of_ne (Nat.ne_of_gt (Nat.lt_of_lt_of_le ha hx)) b p.memory
  | load _ _ => rfl
  | count _ _ => rfl
  | compare _ hc =>
    obtain ⟨_, _, rfl⟩ := checkRound_cases hc
    rfl

theorem outside_run {as : List Act} (hin : c.phase.InArea) (h : (agent P m₀).run c as = some c') {x : ℕ}
    (hx : messageSize ≤ x) : c'.process.memory x = as.foldl (Act.over x) (c.process.memory x) := by
  induction as generalizing c with
  | nil => cases h; rfl
  | cons a as ih =>
    simp only [Lts.run, Option.bind_eq_some_iff] at h
    obtain ⟨t, hn, h⟩ := h
    rw [ih (inArea_next (next_inv hn) hin) h, outside_next (next_inv hn) hin hx, List.foldl_cons]

/-- **The shared memory after a run**: where no message is being stored, the
message area holds the message of the last encryption that succeeded, and
everything behind it is as the other parties left it. -/
theorem message_at_rest {as : List Act} (has : ∀ a ∈ as, a.Apart)
    (h : (agent P m₀).run (agent P m₀).init as = some c) :
    ((∀ stores, c.phase ≠ .storing stores) →
      c.process.memory.load 0 messageSize = area m₀ (history c.process.trace)) ∧
    ∀ x, messageSize ≤ x → c.process.memory x = as.foldl (Act.over x) (m₀ x) := by
  have hr : (agent P m₀).Reachable (fun _ a => a.Apart) c := Lts.run_reachable (fun _ => has) .init h
  exact ⟨stored_rest (stored_reachable hr), fun x hx => outside_run (c := (agent P m₀).init) trivial h hx⟩

/-! ## A reading at any instant -/

theorem opened {decrypt : MessageDecrypt} {ss : List Sealed} (h : Authentic decrypt ss) {m : Memory UInt8}
    {v : Vector UInt8 8} (hv : readMessage decrypt m = some v) : ∃ s ∈ ss, s.cipherText = loadVector m 16 8 ∧
      s.iv = loadVector m 4 12 ∧ s.authTag = loadVector m 272 16 ∧ s.plaintext = v := by
  simp only [readMessage, Option.ite_none_right_eq_some, Option.some.injEq] at hv
  obtain ⟨hret, rfl⟩ := hv
  exact h _ _ _ hret

theorem read_cut {m : Memory UInt8} {s t r : Sealed} {j : ℕ} (hj : j ≤ messageSize)
    (hload : m.load 0 messageSize = cut s.message t.message j) (hr : r.cipherText = loadVector m 16 8 ∧
      r.iv = loadVector m 4 12 ∧ r.authTag = loadVector m 272 16) :
    r.iv = s.iv ∨ r.cipherText = t.cipherText ∧ r.authTag = t.authTag := by
  obtain ⟨hcipher, hiv, htag⟩ := hr
  have hlen : j ≤ s.message.length := by rw [length_message]; exact hj
  obtain ⟨hsiv, _, _⟩ := message_fields s
  obtain ⟨_, htcipher, httag⟩ := message_fields t
  by_cases hpast : 16 ≤ j
  · apply Or.inl
    rw [hiv]
    apply loadVector_eq _ (by decide)
    rw [hload, cut_after hpast hlen, hsiv]
  · apply Or.inr
    rw [hcipher, htag]
    refine ⟨loadVector_eq _ (by decide) ?_, loadVector_eq _ (by decide) ?_⟩
    · rw [hload, cut_before (by omega) hlen, htcipher]
    · rw [hload, cut_before (by omega) hlen, httag]

/-- **A reading at any instant** that authenticates is the plaintext of the
newest message or of the one before it, and of the newest if no message is
being stored, where nobody else writes to the message area. A tag that two
messages shared would let the one before the last be read again. -/
theorem reading_is_recent (hr : (agent P m₀).Reachable (fun _ a => a.Apart) c) {decrypt : MessageDecrypt}
    (hauth : Authentic decrypt (history c.process.trace)) (hfresh : Fresh (history c.process.trace))
    {v : Vector UInt8 8}
    (hv : readMessage decrypt c.process.memory = some v) :
    (∃ s ∈ (history c.process.trace).take 2, s.plaintext = v) ∧
    ((∀ stores, c.phase ≠ .storing stores) → ∃ s ∈ (history c.process.trace).take 1, s.plaintext = v) := by
  obtain ⟨r, hmem, hcipher, hiv, htag, rfl⟩ := opened hauth hv
  have hstored := stored_reachable hr
  generalize history c.process.trace = ss at *
  have hrest : c.process.memory.load 0 messageSize = area m₀ ss → ∃ s rest, ss = s :: rest ∧ r = s := by
    intro hload
    cases ss with
    | nil => cases hmem
    | cons s rest =>
      have hs := (read_at_rest hload).1
      exact ⟨s, rest, rfl, hfresh.iv r hmem s List.mem_cons_self (hiv.trans hs)⟩
  cases hph : c.phase with
  | storing stores =>
    rw [hph] at hstored
    obtain ⟨s, rest, j, rfl, hj, _, hload⟩ := hstored
    refine ⟨?_, fun hno => absurd rfl (hno stores)⟩
    cases rest with
    | nil =>
      obtain rfl := List.mem_singleton.mp hmem
      exact ⟨r, by simp, rfl⟩
    | cons t rest =>
      rcases read_cut hj.le hload ⟨hcipher, hiv, htag⟩ with hs | ⟨htc, htt⟩
      · obtain rfl := hfresh.iv r hmem s List.mem_cons_self hs
        exact ⟨r, by simp, rfl⟩
      · obtain rfl := hfresh.tag r hmem t (List.mem_cons_of_mem _ List.mem_cons_self) htc htt
        exact ⟨r, by simp, rfl⟩
  | boot =>
    rw [hph] at hstored
    obtain ⟨s, rest, rfl, rfl⟩ := hrest hstored
    exact ⟨⟨r, by simp, rfl⟩, fun _ => ⟨r, by simp, rfl⟩⟩
  | round =>
    rw [hph] at hstored
    obtain ⟨s, rest, rfl, rfl⟩ := hrest hstored
    exact ⟨⟨r, by simp, rfl⟩, fun _ => ⟨r, by simp, rfl⟩⟩
  | counting i copied executions =>
    rw [hph] at hstored
    obtain ⟨s, rest, rfl, rfl⟩ := hrest hstored
    exact ⟨⟨r, by simp, rfl⟩, fun _ => ⟨r, by simp, rfl⟩⟩

/-! ## From the files to the reader -/

def Act.From (t : TcpMem) : Act → Prop
  | .start _ tcpMem => tcpMem = t.contents
  | _ => True

def Act.Silent : Act → Prop
  | .publish _ _ _ => False
  | _ => True

theorem threshold_next {t : TcpMem} {a : Act} (hn : Next P c a c') (ha : a.From t)
    (h : c.phase = .boot ∨ c.process.threshold = UInt64.ofNat t.pressure) :
    c'.phase = .boot ∨ c'.process.threshold = UInt64.ofNat t.pressure := by
  cases hn with
  | other => exact h
  | start hs =>
    obtain ⟨_, threshold, _, hread, rfl⟩ := startProcess_cases hs
    rw [show _ = t.contents from ha, t.threshold] at hread
    exact .inr (Option.some.inj hread).symm
  | @publish p usedPages sockstat iv =>
    have hp := h.resolve_left (by simp)
    rcases publishRound_cases P usedPages sockstat iv p with ⟨s, _, heq⟩ | ⟨err, _, heq⟩
    · rw [heq]; exact .inr hp
    · rw [heq]; exact .inr hp
  | store => exact .inr (h.resolve_left (by simp))
  | load _ _ => exact .inr (h.resolve_left (by simp))
  | count _ _ => exact .inr (h.resolve_left (by simp))
  | compare _ hc =>
    obtain ⟨_, _, rfl⟩ := checkRound_cases hc
    exact .inr (h.resolve_left (by simp))

theorem history_next {a : Act} (hn : Next P c a c') (ha : a.Silent) :
    history c'.process.trace = history c.process.trace := by
  cases hn with
  | start hs =>
    obtain ⟨_, _, _, _, rfl⟩ := startProcess_cases hs
    rfl
  | publish => exact ha.elim
  | compare _ hc =>
    obtain ⟨_, _, rfl⟩ := checkRound_cases hc
    rfl
  | _ => rfl

theorem sealRound_eq {threshold usedPages : UInt64} {sockstat : List UInt8} {iv : Vector UInt8 12} {s : Sealed}
    (h : sealRound P threshold usedPages sockstat iv = some s) :
    s.plaintext = plaintext (combined threshold (usedBytes (getPages usedPages sockstat) P.pagesize)) ∧ s.iv = iv ∧
      P.encrypt s.plaintext iv [] = (0, s.cipherText, s.authTag) := by
  simp only [sealRound, Option.ite_none_right_eq_some, Option.some.injEq] at h
  obtain ⟨hret, rfl⟩ := h
  exact ⟨rfl, rfl, Prod.ext hret rfl⟩

theorem plaintext_decodes (threshold used : UInt64) (ht : threshold.toNat < 2 ^ 32) (hu : used.toNat < 2 ^ 32) :
    BigEndian.toNat ((plaintext (combined threshold used)).toList.take 4) = threshold.toNat ∧
    BigEndian.toNat ((plaintext (combined threshold used)).toList.drop 4) = used.toNat := by
  have hlist : (plaintext (combined threshold used)).toList = payload (combined threshold used) := by
    simp [plaintext, Vector.toList]
  obtain ⟨hhi, hlo⟩ := payload_halves (combined threshold used)
  obtain ⟨chi, clo⟩ := combined_halves threshold used
  rw [hlist, hhi, hlo, chi, clo, Nat.div_eq_of_lt hu, Nat.or_zero]
  exact ⟨Nat.mod_eq_of_lt ht, Nat.mod_eq_of_lt hu⟩

/-- **The numbers of the two files reach the reader**: once a round has stored
its message and until the next one encrypts, a reader who can decrypt finds the
pressure threshold and the memory in use, where nobody else writes to the
message area. -/
theorem reader_gets_numbers {t : TcpMem} {k : Sockstat} {pre post : List Act} {usedPages : UInt64}
    {iv : Vector UInt8 12}
    (hpre : (agent P m₀).run (agent P m₀).init pre = some c)
    (hpost : (agent P m₀).run c (.publish usedPages k.contents iv :: post) = some c')
    (hstart : ∀ a ∈ pre, a.From t) (hsilent : ∀ a ∈ post, a.Silent) (hapart : ∀ a ∈ pre ++ post, a.Apart)
    (hsealed : sealRound P c.process.threshold usedPages k.contents iv ≠ none)
    (hrest : ∀ stores, c'.phase ≠ .storing stores)
    (hfit : t.pressure < 2 ^ 32 ∧ k.mem * P.pagesize.toNat < 2 ^ 32) {decrypt : MessageDecrypt}
    (hundo : ∀ plaintext iv cipherText authTag, P.encrypt plaintext iv [] = (0, cipherText, authTag) →
      decrypt cipherText iv authTag [] = (0, plaintext)) :
    ∃ v, readMessage decrypt c'.process.memory = some v ∧ BigEndian.toNat (v.toList.take 4) = t.pressure ∧
      BigEndian.toNat (v.toList.drop 4) = k.mem * P.pagesize.toNat := by
  obtain ⟨s, hs⟩ := Option.ne_none_iff_exists'.mp hsealed
  obtain ⟨ht, hmem⟩ := hfit
  have hrun : (agent P m₀).run (agent P m₀).init (pre ++ .publish usedPages k.contents iv :: post) = some c' := by
    rw [Lts.run_append hpre, hpost]
  have hr : (agent P m₀).Reachable (fun _ a => a.Apart) c' := by
    apply Lts.run_reachable _ .init hrun
    intro _ a ha
    rcases List.mem_append.mp ha with ha | ha
    · exact hapart a (List.mem_append_left _ ha)
    · rcases List.mem_cons.mp ha with rfl | ha
      · trivial
      · exact hapart a (List.mem_append_right _ ha)
  have hthreshold := Lts.run_keep (I := fun c => c.phase = .boot ∨ c.process.threshold = UInt64.ofNat t.pressure)
    (fun _ a _ h (ha : a.From t) hn => threshold_next (next_inv hn) ha h) (fun _ => hstart) hpre (.inl rfl)
  -- the round begins in `c`, and nothing is encrypted after it
  simp only [Lts.run, Option.bind_eq_some_iff] at hpost
  obtain ⟨d, hn, hpost⟩ := hpost
  have hkeep := Lts.run_keep (I := fun c => history c.process.trace = history d.process.trace)
    (fun _ a _ h (ha : a.Silent) hn => (history_next (next_inv hn) ha).trans h) (fun _ => hsilent) hpost rfl
  cases next_inv hn with
  | @publish p =>
    have hpressure : p.threshold = UInt64.ofNat t.pressure := hthreshold.resolve_left (by simp)
    have hnew : history (publishRound P usedPages k.contents iv p).process.trace = s :: history p.trace := by
      rcases publishRound_cases P usedPages k.contents iv p with ⟨s', hs', heq⟩ | ⟨err, hnone, _⟩
      · obtain rfl := Option.some.inj (hs.symm.trans hs')
        rw [heq]; rfl
      · rw [hnone] at hs; cases hs
    have hload := stored_rest (stored_reachable hr) hrest
    rw [hkeep, hnew] at hload
    obtain ⟨hiv, hcipher, htag⟩ := read_at_rest hload
    obtain ⟨hplain, hsiv, henc⟩ := sealRound_eq hs
    refine ⟨s.plaintext, ?_, ?_⟩
    · simp only [readMessage, hiv, hcipher, htag, hsiv, hundo _ _ _ _ henc, if_true]
    · have hused : (usedBytes (UInt64.ofNat k.mem) P.pagesize).toNat = k.mem * P.pagesize.toNat := by
        rw [usedBytes, UInt64.toNat_mul, UInt64.toNat_ofNat', Nat.mod_eq_of_lt k.small.2.2.2.2,
          Nat.mod_eq_of_lt (by omega)]
      have hpress : (UInt64.ofNat t.pressure).toNat = t.pressure := by
        rw [UInt64.toNat_ofNat', Nat.mod_eq_of_lt t.fits]
      have hdecodes := plaintext_decodes (UInt64.ofNat t.pressure)
        (usedBytes (UInt64.ofNat k.mem) P.pagesize) (by rw [hpress]; exact ht) (by rw [hused]; exact hmem)
      rw [hplain, hpressure, getPages_first k.firstMem]
      rwa [hpress, hused] at hdecodes

end

/-! ## A reader after the first round -/

def twoLines : Sockstat where
  before := [bytes "sockets: used 189"]
  inuse := 6
  orphan := 0
  tw := 2
  alloc := 8
  mem := 5
  after := bytes "UDP: inuse 3 mem 2" ++ [10]
  fits := by decide
  others := by
    intro line hline mem
    rw [List.mem_singleton.mp hline]
    exact memField_eq_none.mp (by decide +kernel) mem
  small := by decide

def firstActs : List Act := .start (some atStart.contents) tcpMem.contents ::
  roundActs clear (UInt64.ofNat tcpMem.pressure) 0 twoLines.contents (Vector.replicate 12 7) later.contents

theorem firstActs_apart : ∀ a ∈ firstActs, a.Apart := by
  intro a ha
  rcases List.mem_cons.mp ha with rfl | ha
  · trivial
  · rcases roundActs_cases ha with rfl | rfl | rfl | rfl | rfl
    · trivial
    · trivial
    · trivial
    · trivial
    · trivial

theorem message_at_rest_demo : ∃ c, (agent clear zeros).run (agent clear zeros).init firstActs = some c ∧
    c.process.memory.load 0 messageSize = area zeros (history c.process.trace) ∧
    ∀ x, messageSize ≤ x → c.process.memory x = firstActs.foldl (Act.over x) 0 := by
  obtain ⟨q, hrun, _⟩ :=
    first_round clear zeros atStart tcpMem 0 twoLines.contents later.contents (Vector.replicate 12 7)
  obtain ⟨harea, hrest⟩ := message_at_rest firstActs_apart hrun
  exact ⟨_, hrun, harea (by simp), hrest⟩

/-- A reader who knows what has been encrypted. -/
def opensAny (ss : List Sealed) : MessageDecrypt := fun cipherText iv authTag _ =>
  match ss.find? fun s => decide (s.cipherText = cipherText ∧ s.iv = iv ∧ s.authTag = authTag) with
  | some s => (0, s.plaintext)
  | none => (-180, cipherText)

theorem opensAny_authentic (ss : List Sealed) : Authentic (opensAny ss) ss := by
  intro cipherText iv authTag hopen
  rw [opensAny] at hopen ⊢
  split at hopen
  · rename_i s hfind
    have hsame := List.find?_some hfind
    obtain ⟨hcipher, hiv, htag⟩ := of_decide_eq_true hsame
    exact ⟨s, List.mem_of_find?_eq_some hfind, hcipher, hiv, htag, rfl⟩
  · cases hopen

theorem opensAny_mem {ss : List Sealed} (hfresh : Fresh ss) {s : Sealed} (hs : s ∈ ss) :
    opensAny ss s.cipherText s.iv s.authTag [] = (0, s.plaintext) := by
  rw [opensAny]
  split
  · rename_i t hfind
    have hsame := List.find?_some hfind
    obtain ⟨_, hiv, _⟩ := of_decide_eq_true hsame
    rw [hfresh.iv t (List.mem_of_find?_eq_some hfind) s hs hiv]
  · rename_i hnone
    have hno := List.find?_eq_none.mp hnone s hs
    simp at hno

/-- The first four bytes of a message are its length. -/
theorem read_length_stored {m₀ m : Memory UInt8} {s t : Sealed} {rest : List Sealed}
    (h : Stored m₀ m (s :: t :: rest) (.storing ((Memory.cells 0 s.message).drop 4))) :
    loadVector m 4 12 = t.iv ∧ loadVector m 16 8 = t.cipherText ∧ loadVector m 272 16 = t.authTag := by
  obtain ⟨s', rest', j, hss, hj, hstores, hload⟩ := h
  obtain ⟨rfl, rfl⟩ := List.cons.inj hss
  have hlen := congrArg List.length hstores
  rw [List.length_drop, Memory.length_cells, Memory.length_cells, List.length_drop, length_message] at hlen
  obtain rfl : j = 4 := by
    unfold messageSize at hj hlen
    omega
  have hold : ∀ i, 4 ≤ i → (m.load 0 messageSize).drop i = t.message.drop i := by
    intro i hi
    rw [hload]
    exact cut_before hi (by rw [length_message]; decide)
  obtain ⟨hiv, hcipher, htag⟩ := message_fields t
  refine ⟨loadVector_eq _ (by decide) ?_, loadVector_eq _ (by decide) ?_, loadVector_eq _ (by decide) ?_⟩
  · rw [hold 4 (by decide), hiv]
  · rw [hold 16 (by decide), hcipher]
  · rw [hold 272 (by decide), htag]

/-- A second round up to the length of its message. -/
def lengthStored : List Act := .publish 9 [] (Vector.replicate 12 8) :: List.replicate 4 .store

theorem lengthStored_run {P : Platform} (m₀ : Memory UInt8) {p : Process} {s : Sealed} (hp : p.cipher.Padded)
    (hs : sealRound P p.threshold 9 [] (Vector.replicate 12 8) = some s) :
    ∃ p', (agent P m₀).run ⟨.round, p⟩ lengthStored = some ⟨.storing ((Memory.cells 0 s.message).drop 4), p'⟩ ∧
      history p'.trace = s :: history p.trace := by
  have hpublish : (agent P m₀).next ⟨.round, p⟩ (.publish 9 [] (Vector.replicate 12 8)) =
      some (publishRound P 9 [] (Vector.replicate 12 8) p) := rfl
  rcases publishRound_cases P 9 [] (Vector.replicate 12 8) p with ⟨s', hs', heq⟩ | ⟨err, hnone, _⟩
  · obtain rfl := Option.some.inj (hs.symm.trans hs')
    rw [heq, round_stores hp hs] at hpublish
    have hlen : ((Memory.cells 0 s.message).take 4).length = 4 := by
      rw [List.length_take, Memory.length_cells, length_message]; rfl
    have hne : (Memory.cells 0 s.message).take 4 ≠ [] := by
      rw [ne_eq, ← List.length_eq_zero_iff, hlen]; decide
    have hleft : (Memory.cells 0 s.message).drop 4 ≠ [] := by
      rw [ne_eq, List.drop_eq_nil_iff, Memory.length_cells, length_message]; decide
    have hstores := stores_run P m₀ { p with
      cipher := roundCipher P 9 [] (Vector.replicate 12 8) p
      trace := .encrypted s :: .gotUsedBytes (usedBytes (getPages 9 []) P.pagesize) :: p.trace }
      ((Memory.cells 0 s.message).drop 4) hne
    rw [hlen, List.take_append_drop, if_neg hleft] at hstores
    rw [lengthStored, Lts.run_step hpublish, hstores]
    exact ⟨_, rfl, rfl⟩
  · rw [hnone] at hs; cases hs

def firstSealed : Sealed := ⟨plaintext (combined 253909 20480), Vector.replicate 12 7,
  plaintext (combined 253909 20480), Vector.replicate 16 1⟩

def secondSealed : Sealed := ⟨plaintext (combined 253909 36864), Vector.replicate 12 8,
  plaintext (combined 253909 36864), Vector.replicate 16 1⟩

theorem two_fresh : Fresh [secondSealed, firstSealed] where
  iv := by decide +kernel
  tag := by decide +kernel

theorem reading_is_recent_demo : ∃ c,
    (agent clear zeros).run (agent clear zeros).init (firstActs ++ lengthStored) = some c ∧
    (∃ stores, c.phase = .storing stores) ∧ history c.process.trace = [secondSealed, firstSealed] ∧
    readMessage (opensAny [secondSealed, firstSealed]) c.process.memory = some firstSealed.plaintext ∧
    ∃ s ∈ (history c.process.trace).take 2, s.plaintext = firstSealed.plaintext := by
  obtain ⟨q, hfirst, hq⟩ :=
    first_round clear zeros atStart tcpMem 0 twoLines.contents later.contents (Vector.replicate 12 7)
  have hseal : sealRound clear (UInt64.ofNat tcpMem.pressure) 0 twoLines.contents (Vector.replicate 12 7) =
      some firstSealed := by
    rw [sealRound, getPages_first twoLines.firstMem]; rfl
  have hnext : sealRound clear (afterCheck clear later.contents q).threshold 9 [] (Vector.replicate 12 8) =
      some secondSealed := by
    have hpages : getPages 9 [] = 9 := by rw [getPages]; rfl
    rw [show (afterCheck clear later.contents q).threshold = UInt64.ofNat tcpMem.pressure from hq.threshold,
      sealRound, hpages]; rfl
  obtain ⟨p', hsecond, hhist⟩ := lengthStored_run zeros (p := afterCheck clear later.contents q) hq.padded hnext
  have htwo : history p'.trace = [secondSealed, firstSealed] := by
    rw [hhist, show history (afterCheck clear later.contents q).trace = history q.trace from rfl, hq.history, hseal]; rfl
  have hrun := (Lts.run_append hfirst lengthStored).trans hsecond
  have hapart : ∀ a ∈ firstActs ++ lengthStored, a.Apart := by
    intro a ha
    rcases List.mem_append.mp ha with ha | ha
    · exact firstActs_apart a ha
    · rcases List.mem_cons.mp ha with rfl | ha
      · trivial
      · rw [List.eq_of_mem_replicate ha]; trivial
  have hr : (agent clear zeros).Reachable (fun _ a => a.Apart) _ := Lts.run_reachable (fun _ => hapart) .init hrun
  have hstored := stored_reachable hr
  rw [htwo] at hstored
  obtain ⟨hiv, hcipher, htag⟩ := read_length_stored hstored
  have hread : readMessage (opensAny [secondSealed, firstSealed]) p'.memory = some firstSealed.plaintext := by
    simp only [readMessage, hiv, hcipher, htag,
      opensAny_mem two_fresh (List.mem_cons_of_mem _ List.mem_cons_self), if_true]
  refine ⟨_, hrun, ⟨_, rfl⟩, htwo, hread, (reading_is_recent hr ?_ ?_ hread).1⟩
  · rw [htwo]; exact opensAny_authentic _
  · rw [htwo]; exact two_fresh

def opensClear : MessageDecrypt := fun cipherText _ _ _ => (0, cipherText)

theorem reader_gets_numbers_demo : ∃ c v, (agent clear zeros).run (agent clear zeros).init firstActs = some c ∧
    readMessage opensClear c.process.memory = some v ∧
    BigEndian.toNat (v.toList.take 4) = 253909 ∧ BigEndian.toNat (v.toList.drop 4) = 5 * 4096 := by
  obtain ⟨q, hrun, _⟩ :=
    first_round clear zeros atStart tcpMem 0 twoLines.contents later.contents (Vector.replicate 12 7)
  have hround := hrun
  rw [← List.singleton_append, Lts.run_append (boot_run clear zeros atStart tcpMem)] at hround
  have hpost : ∀ (o : Option Sealed), ∀ a ∈ storeActs o ++ (countActs ++ [.compare (some later.contents)]),
      a.Silent ∧ a.Apart := by
    intro o a ha
    rcases afterActs_cases ha with rfl | rfl | rfl | rfl
    · exact ⟨trivial, trivial⟩
    · exact ⟨trivial, trivial⟩
    · exact ⟨trivial, trivial⟩
    · exact ⟨trivial, trivial⟩
  have hundo : ∀ plaintext iv cipherText authTag, clear.encrypt plaintext iv [] = (0, cipherText, authTag) →
      opensClear cipherText iv authTag [] = (0, plaintext) := by
    intro plaintext iv cipherText authTag henc
    cases henc
    rfl
  obtain ⟨v, hv⟩ := reader_gets_numbers (t := tcpMem) (k := twoLines) (boot_run clear zeros atStart tcpMem) hround
    (List.forall_mem_singleton.mpr rfl) (fun a ha => (hpost _ a ha).1)
    (List.forall_mem_append.mpr ⟨List.forall_mem_singleton.mpr trivial, fun a ha => (hpost _ a ha).2⟩)
    (by simp [sealRound, clear]) (by simp) (by decide) hundo
  exact ⟨_, v, hrun, hv⟩

end P4Ubpf.Agent
