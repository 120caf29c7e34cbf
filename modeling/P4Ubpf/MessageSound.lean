import P4Ubpf.AgentMain

/-!
# The message in shared memory

Between two rounds the beginning of the shared memory is the message of the
last round whose encryption succeeded. In the middle of the stores it is a cut
of two messages, and the IV and the tag together give away on which side a
reader finds itself.
-/

namespace P4Ubpf.Agent

def Event.sealed : Event → Option Sealed
  | .encrypted s => some s
  | _ => none

def history (trace : List Event) : List Sealed := trace.filterMap Event.sealed

def Sealed.message (s : Sealed) : List UInt8 :=
  LittleEndian.ofNat 4 8 ++ (s.iv.toList ++ ((s.cipherText.toList ++ List.replicate 248 0) ++ s.authTag.toList))

/-- The message area while nothing is being stored. -/
def area (memory : Memory UInt8) : List Sealed → List UInt8
  | [] => memory.load 0 messageSize
  | s :: _ => s.message

/-! ## The stores of one round -/

def Cipher.Padded (c : Cipher) : Prop := c.ciphertext.toList.drop 8 = List.replicate 248 0

section
variable {P : Platform} {p : Process} {usedPages : UInt64} {sockstat : List UInt8}
  {iv : Vector UInt8 12} {s : Sealed}

theorem length_message (s : Sealed) : s.message.length = messageSize := by
  rw [Sealed.message, List.length_append, List.length_append, List.length_append, List.length_append,
    LittleEndian.length_ofNat, Vector.length_toList, Vector.length_toList, Vector.length_toList,
    List.length_replicate]
  rfl

theorem length_area (memory : Memory UInt8) (ss : List Sealed) : (area memory ss).length = messageSize := by
  cases ss with
  | nil => exact Memory.length_load _ _ _
  | cons s ss => exact length_message s

theorem overwrite_toList (out : Vector UInt8 8) (buffer : Vector UInt8 256) :
    (overwrite out buffer).toList = out.toList ++ buffer.toList.drop 8 := by
  have hcat : (overwrite out buffer).toList = out.toList ++ (buffer.drop 8).toList := Vector.toList_append
  rw [hcat, Vector.toList_drop]

theorem padded_init : Cipher.init.Padded := by
  rw [Cipher.Padded, Cipher.init, Vector.toList_replicate, List.drop_replicate]

theorem padded_round (h : p.cipher.Padded) : (roundCipher P usedPages sockstat iv p).Padded := by
  have hlen : ∀ out : Vector UInt8 8, out.toList.length = 8 := fun out => Vector.length_toList
  rw [Cipher.Padded] at h ⊢
  simp only [roundCipher, Cipher.encrypt, overwrite_toList]
  rw [List.drop_left' (hlen _), h]

theorem stores_cells (len : ℕ) (c : Cipher) : c.stores len = Memory.cells 0
    (LittleEndian.ofNat 4 len ++ (c.iv.toList ++ (c.ciphertext.toList ++ c.authTag.toList))) := by
  simp [Cipher.stores, Cipher.memcpys, Memory.cells_append]

theorem round_stores (h : p.cipher.Padded) (hs : sealRound P p.threshold usedPages sockstat iv = some s) :
    (roundCipher P usedPages sockstat iv p).stores 8 = Memory.cells 0 s.message := by
  have hround : (roundCipher P usedPages sockstat iv p).iv = s.iv ∧
      (roundCipher P usedPages sockstat iv p).ciphertext.toList = s.cipherText.toList ++ List.replicate 248 0 ∧
      (roundCipher P usedPages sockstat iv p).authTag = s.authTag := by
    simp only [sealRound, Option.ite_none_right_eq_some, Option.some.injEq] at hs
    obtain ⟨_, rfl⟩ := hs
    refine ⟨rfl, ?_, rfl⟩
    simp only [roundCipher, Cipher.encrypt, overwrite_toList]
    rw [h]
  rw [stores_cells, hround.1, hround.2.1, hround.2.2, Sealed.message]

end

/-! ## The message area at every instant -/

/-- `old` with its first `j` bytes replaced by those of `new`. -/
def cut (new old : List UInt8) (j : ℕ) : List UInt8 := new.take j ++ old.drop j

/-- Where the stores of the newest message have come to. -/
def Stored (m₀ m : Memory UInt8) (ss : List Sealed) : Phase → Prop
  | .storing stores => ∃ s rest j, ss = s :: rest ∧ j < messageSize ∧ stores = Memory.cells j (s.message.drop j) ∧
      m.load 0 messageSize = cut s.message (area m₀ rest) j
  | _ => m.load 0 messageSize = area m₀ ss

section
variable {P : Platform} {m₀ m : Memory UInt8} {ss : List Sealed} {ph : Phase}

theorem cut_set {new old : List UInt8} {j : ℕ} {b : UInt8} {rest : List UInt8} (hnew : new.drop j = b :: rest)
    (hlen : old.length = new.length) : (cut new old j).set j b = cut new old (j + 1) := by
  have hj : j < new.length := by
    by_contra hle
    rw [List.drop_of_length_le (Nat.le_of_not_lt hle)] at hnew
    cases hnew
  have htake : (new.take j).length = j := by rw [List.length_take]; omega
  have hold : old.drop j = old[j] :: old.drop (j + 1) := List.drop_eq_getElem_cons (by omega)
  have hb : new.take (j + 1) = new.take j ++ [b] := by
    rw [List.take_succ_eq_append_getElem hj]
    rw [List.drop_eq_getElem_cons hj] at hnew
    rw [(List.cons.inj hnew).1]
  rw [cut, cut, hb, hold, List.set_append_right _ _ (by omega), htake, Nat.sub_self, List.set_cons_zero,
    List.append_assoc]; rfl

theorem stored_other {a : ℕ} {b : UInt8} (ha : messageSize ≤ a) (h : Stored m₀ m ss ph) :
    Stored m₀ (Function.update m a b) ss ph := by
  have hload : Memory.load (Function.update m a b) 0 messageSize = m.load 0 messageSize :=
    Memory.load_update m b (.inr (by omega))
  cases ph with
  | storing stores =>
    obtain ⟨s, rest, j, hss, hj, hstores, harea⟩ := h
    exact ⟨s, rest, j, hss, hj, hstores, hload.trans harea⟩
  | boot => exact hload.trans h
  | round => exact hload.trans h
  | counting i copied executions => exact hload.trans h

theorem stored_store {a : ℕ} {b : UInt8} {stores : List (ℕ × UInt8)}
    (h : Stored m₀ m ss (.storing ((a, b) :: stores))) :
    Stored m₀ (Function.update m a b) ss (if stores = [] then .counting 0 [] 0 else .storing stores) := by
  obtain ⟨s, rest, j, rfl, hj, hstores, harea⟩ := h
  have hsize := length_message s
  cases hdrop : s.message.drop j with
  | nil =>
    rw [hdrop] at hstores
    cases hstores
  | cons b' tail =>
    rw [hdrop, Memory.cells, List.cons.injEq, Prod.mk.injEq] at hstores
    obtain ⟨⟨rfl, rfl⟩, rfl⟩ := hstores
    have htail : s.message.drop (a + 1) = tail := by
      rw [← List.drop_drop, hdrop]; rfl
    have hload : Memory.load (Function.update m a b) 0 messageSize = cut s.message (area m₀ rest) (a + 1) := by
      rw [← cut_set hdrop (by rw [length_area, hsize]), ← harea]
      simpa only [Nat.zero_add] using Memory.load_set (a := 0) m b hj
    by_cases hlast : a + 1 < messageSize
    · have hne : tail ≠ [] := by
        rw [← htail, ne_eq, List.drop_eq_nil_iff, hsize]; omega
      have hcells : Memory.cells (a + 1) tail ≠ [] := by
        rw [ne_eq, ← List.length_eq_zero_iff, Memory.length_cells, List.length_eq_zero_iff]; exact hne
      rw [if_neg hcells]
      exact ⟨s, rest, a + 1, rfl, hlast, by rw [htail], hload⟩
    · -- that was the last byte of the tag
      have hnil : tail = [] := by
        rw [← htail, List.drop_eq_nil_iff, hsize]; omega
      subst hnil
      rw [Memory.cells_nil, if_pos rfl]
      have hfull : cut s.message (area m₀ rest) (a + 1) = s.message := by
        rw [cut, List.take_of_length_le (by omega), List.drop_of_length_le (by rw [length_area]; omega),
          List.append_nil]
      exact hload.trans hfull

theorem padded_next {c c' : Config} {a : Act} (hn : Next P c a c') (h : c.process.cipher.Padded) :
    c'.process.cipher.Padded := by
  cases hn with
  | other => exact h
  | start hs =>
    obtain ⟨_, _, _, _, rfl⟩ := startProcess_cases hs
    exact h
  | @publish p usedPages sockstat iv =>
    rcases publishRound_cases P usedPages sockstat iv p with ⟨s, _, heq⟩ | ⟨err, _, heq⟩
    · rw [heq]; exact padded_round h
    · rw [heq]; exact padded_round h
  | store => exact h
  | load _ _ => exact h
  | count _ _ => exact h
  | compare _ hc =>
    obtain ⟨_, _, rfl⟩ := checkRound_cases hc
    exact h

theorem padded_reachable {ok : Config → Act → Prop} {c : Config} (hr : (agent P m₀).Reachable ok c) :
    c.process.cipher.Padded := by
  apply hr.inv (I := fun c => c.process.cipher.Padded)
  · exact padded_init
  · exact fun _ _ _ _ h _ hn => padded_next (next_inv hn) h

def Phase.InArea : Phase → Prop
  | .storing stores => ∀ p ∈ stores, p.1 < messageSize
  | _ => True

theorem inArea_next {P : Platform} {c c' : Config} {a : Act} (hn : Next P c a c') (h : c.phase.InArea) :
    c'.phase.InArea := by
  cases hn with
  | other => exact h
  | start _ => trivial
  | @publish p usedPages sockstat iv =>
    rcases publishRound_cases P usedPages sockstat iv p with ⟨s, _, heq⟩ | ⟨err, _, heq⟩
    · rw [heq]
      intro q hq
      rw [stores_cells] at hq
      have hrange := (Memory.cells_range hq).2
      simp only [List.length_append, LittleEndian.length_ofNat, Vector.length_toList] at hrange
      unfold messageSize
      omega
    · rw [heq]; trivial
  | @store p x b stores =>
    by_cases hlast : stores = []
    · rw [if_pos hlast]; trivial
    · rw [if_neg hlast]
      exact fun q hq => h q (List.mem_cons_of_mem _ hq)
  | load _ _ => trivial
  | count _ _ => trivial
  | compare _ _ => trivial

theorem inArea_reachable {P : Platform} {m₀ : Memory UInt8} {ok : Config → Act → Prop} {c : Config}
    (hr : (agent P m₀).Reachable ok c) : c.phase.InArea := by
  apply hr.inv (I := fun c => c.phase.InArea)
  · trivial
  · exact fun _ _ _ _ h _ hn => inArea_next (next_inv hn) h

theorem stored_next {c c' : Config} {a : Act} (hn : Next P c a c') (ha : a.Apart) (hpad : c.process.cipher.Padded)
    (h : Stored m₀ c.process.memory (history c.process.trace) c.phase) :
    Stored m₀ c'.process.memory (history c'.process.trace) c'.phase := by
  cases hn with
  | other => exact stored_other ha h
  | start hs =>
    obtain ⟨_, _, _, _, rfl⟩ := startProcess_cases hs
    exact h
  | @publish p usedPages sockstat iv =>
    rcases publishRound_cases P usedPages sockstat iv p with ⟨s, hs, heq⟩ | ⟨err, _, heq⟩
    · rw [heq]
      refine ⟨s, history p.trace, 0, rfl, by decide, round_stores hpad hs, ?_⟩
      rw [cut, List.take_zero, List.nil_append]
      exact h
    · rw [heq]
      exact h
  | store => exact stored_store h
  | load _ _ => exact h
  | count _ _ => exact h
  | compare _ hc =>
    obtain ⟨_, _, rfl⟩ := checkRound_cases hc
    exact h

theorem stored_reachable {c : Config} (hr : (agent P m₀).Reachable (fun _ a => a.Apart) c) :
    Stored m₀ c.process.memory (history c.process.trace) c.phase := by
  apply hr.inv (I := fun c => Stored m₀ c.process.memory (history c.process.trace) c.phase)
  · exact rfl
  · exact fun _ _ _ hr h ha hn => stored_next (next_inv hn) ha (padded_reachable hr) h

theorem stored_rest (h : Stored m₀ m ss ph) (hrest : ∀ stores, ph ≠ .storing stores) :
    m.load 0 messageSize = area m₀ ss := by
  cases ph with
  | storing stores => exact absurd rfl (hrest stores)
  | boot => exact h
  | round => exact h
  | counting i copied executions => exact h

end

end P4Ubpf.Agent
