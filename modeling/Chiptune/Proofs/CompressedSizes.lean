import Chiptune.Proofs.ExhaustiveSearch
import Chiptune.Proofs.Player
import Chiptune.Proofs.RenamedStreams
import Mathlib.Algebra.Order.BigOperators.Group.List
import Mathlib.Algebra.Order.Ring.Nat

/-!
# Sizes of compressed streams

A reference takes four bytes. What it replaces takes as many bytes as it has tokens, and has at
least as many tokens as notes.

* `compressBest_optimal`: **a sweep ends with the smallest stream**, and with the largest threshold
  that gives it.
* `Writes.ledger`: the bytes of a source are those of the compressed stream with its references
  exchanged for what they replace, one step at a time.
* `byteSize_compress`: **what references cost**; from four notes on they never cost anything.
-/

set_option autoImplicit false

namespace Chiptune

open Compressor

variable {k : Kernel} {stream : List Token}

/-! ## The best threshold -/

/-- The last of the thresholds with the smallest stream divides the others: those before it give no
smaller stream, those behind it larger ones. -/
structure IsLastBest (k : Kernel) (stream : List Token) (front : List Nat) (t : Nat)
    (back : List Nat) : Prop where
  front_le : ∀ u ∈ front, byteSize (compress k t stream) ≤ byteSize (compress k u stream)
  back_lt : ∀ u ∈ back, byteSize (compress k t stream) < byteSize (compress k u stream)

/-- **A sweep over any thresholds ends with the last best one**, by induction from the right. -/
theorem foldl_tryThreshold (k : Kernel) (stream : List Token) {thresholds : List Nat}
    (h : thresholds ≠ []) :
    ∃ front t back, thresholds = front ++ t :: back ∧ IsLastBest k stream front t back ∧
      thresholds.foldl (tryThreshold k stream) none =
        some (compress k t stream, byteSize (compress k t stream), t) := by
  induction thresholds using List.reverseRecOn with
  | nil => exact absurd rfl h
  | append_singleton thresholds u ih =>
    rw [List.foldl_append, List.foldl_cons, List.foldl_nil]
    by_cases hnil : thresholds = []
    · subst hnil
      exact ⟨[], u, [], rfl, ⟨by simp, by simp⟩, rfl⟩
    · obtain ⟨front, t, back, heq, hbest, hfold⟩ := ih hnil
      rw [hfold, tryThreshold]
      by_cases hle : byteSize (compress k u stream) ≤ byteSize (compress k t stream)
      · -- the last threshold is the best one so far
        refine ⟨thresholds, u, [], rfl, ⟨fun v hv => Nat.le_trans hle ?_, by simp⟩, if_pos hle⟩
        rw [heq, List.mem_append, List.mem_cons] at hv
        rcases hv with hv | rfl | hv
        · exact hbest.front_le v hv
        · exact Nat.le_refl _
        · exact Nat.le_of_lt (hbest.back_lt v hv)
      · refine ⟨front, t, back ++ [u], by rw [heq]; simp, ⟨hbest.front_le, fun v hv => ?_⟩,
          if_neg hle⟩
        rcases List.mem_append.1 hv with hv | hv
        · exact hbest.back_lt v hv
        · rw [List.mem_singleton.1 hv]
          exact Nat.lt_of_not_le hle

theorem compressBest_eq_lastBest (k : Kernel) (stream : List Token) {thresholds : List Nat}
    (h : thresholds ≠ []) :
    ∃ front t back, thresholds = front ++ t :: back ∧ IsLastBest k stream front t back ∧
      compressBest k thresholds stream = (compress k t stream, t) := by
  obtain ⟨front, t, back, heq, hbest, hfold⟩ := foldl_tryThreshold k stream h
  exact ⟨front, t, back, heq, hbest, by rw [compressBest_eq, hfold]⟩

/-- No threshold of a sweep gives a smaller stream than the sweep. -/
theorem byteSize_compressBest_le {thresholds : List Nat} {u : Nat} (hu : u ∈ thresholds) :
    byteSize (compressBest k thresholds stream).1 ≤ byteSize (compress k u stream) := by
  obtain ⟨front, t, back, heq, hbest, hcompress⟩ :=
    compressBest_eq_lastBest k stream (List.ne_nil_of_mem hu)
  rw [hcompress]
  rw [heq, List.mem_append, List.mem_cons] at hu
  rcases hu with hu | rfl | hu
  · exact hbest.front_le u hu
  · exact Nat.le_refl _
  · exact Nat.le_of_lt (hbest.back_lt u hu)

theorem mem_sweep {low high t : Nat} :
    t ∈ List.range' low (high + 1 - low) ↔ low ≤ t ∧ t ≤ high := by
  rw [List.mem_range'_1]
  omega

/-- **A sweep is optimal, and ties go to the larger threshold**: no threshold of the range gives a
smaller stream, and every larger one gives a larger stream. Without thresholds the stream stays as
it is. -/
theorem compressBest_optimal (k : Kernel) (low high : Nat) (stream : List Token) :
    (low ≤ high → ∃ t, low ≤ t ∧ t ≤ high ∧
      compressBest k (List.range' low (high + 1 - low)) stream = (compress k t stream, t) ∧
      (∀ u, low ≤ u → u ≤ high →
        byteSize (compress k t stream) ≤ byteSize (compress k u stream)) ∧
      ∀ u, t < u → u ≤ high → byteSize (compress k t stream) < byteSize (compress k u stream)) ∧
    (high < low → compressBest k (List.range' low (high + 1 - low)) stream = (stream, 0)) := by
  constructor
  · intro hle
    have hne : List.range' low (high + 1 - low) ≠ [] :=
      List.ne_nil_of_mem (mem_sweep.2 ⟨Nat.le_refl low, hle⟩)
    obtain ⟨front, t, back, heq, hbest, hcompress⟩ := compressBest_eq_lastBest k stream hne
    have ht : t ∈ List.range' low (high + 1 - low) := by rw [heq]; simp
    have hall : ∀ u, low ≤ u → u ≤ high →
        byteSize (compress k t stream) ≤ byteSize (compress k u stream) := by
      intro u hlow hhigh
      have hsmallest := @byteSize_compressBest_le k stream _ u (mem_sweep.2 ⟨hlow, hhigh⟩)
      rwa [hcompress] at hsmallest
    refine ⟨t, (mem_sweep.1 ht).1, (mem_sweep.1 ht).2, hcompress, hall, fun u hlt hhigh => ?_⟩
    have hu : u ∈ List.range' low (high + 1 - low) :=
      mem_sweep.2 ⟨by have := (mem_sweep.1 ht).1; omega, hhigh⟩
    -- thresholds increase, so a larger one stands behind the best one
    have hsorted : (List.range' low (high + 1 - low)).Pairwise (· < ·) := List.pairwise_lt_range' ..
    rw [heq] at hu hsorted
    rcases List.mem_append.1 hu with hfront | hback
    · have := (List.pairwise_append.1 hsorted).2.2 u hfront t List.mem_cons_self
      omega
    · rcases List.mem_cons.1 hback with rfl | hback
      · omega
      · exact hbest.back_lt u hback
  · intro hlt
    rw [show high + 1 - low = 0 by omega]
    rfl

/-- Five notes, played twice around a label. -/
def repeatedNotes : List Token :=
  [.note 1, .note 2, .note 3, .note 4, .note 5, .label 0, .note 1, .note 2, .note 3, .note 4,
    .note 5]

/-- Thresholds of four and five notes give the same stream, one of six gives a larger one, so a
sweep over the three ends with five. -/
theorem compressBest_optimal_repeatedNotes :
    4 ≤ 6 ∧ compressBest .extended (List.range' 4 (6 + 1 - 4)) repeatedNotes =
      ([.note 1, .note 2, .note 3, .note 4, .note 5, .label 0, .opcode 0x46, .byte 5,
        .address (.offset 0)], 5) := by
  have hsmall : ∀ t, t = 4 ∨ t = 5 → compress .extended t repeatedNotes =
      [.note 1, .note 2, .note 3, .note 4, .note 5, .label 0, .opcode 0x46, .byte 5,
        .address (.offset 0)] := by
    rintro t (rfl | rfl) <;> rw [compress_eq_exhaustive .extended (by decide)] <;> decide
  have hlarge : compress .extended 6 repeatedNotes = repeatedNotes := by
    rw [compress_eq_exhaustive .extended (by decide)]
    decide
  refine ⟨by decide, ?_⟩
  obtain ⟨t, hlow, hhigh, hcompress, hall, hbehind⟩ :=
    (compressBest_optimal .extended 4 6 repeatedNotes).1 (by decide)
  have ht : t = 4 ∨ t = 5 ∨ t = 6 := by omega
  rcases ht with rfl | rfl | rfl
  · have := hbehind 5 (by decide) (by decide)
    rw [hsmall 4 (.inl rfl), hsmall 5 (.inr rfl)] at this
    exact absurd this (by decide)
  · rw [hcompress, hsmall 5 (.inr rfl)]
  · have := hall 5 (by decide) (by decide)
    rw [hlarge, hsmall 5 (.inr rfl)] at this
    exact absurd this (by decide)

/-! ## What references replace -/

/-- A token that can be replayed is one byte. -/
theorem byteSize_of_replayable {tokens : List Token} (h : ∀ t ∈ tokens, t.isReplayable = true) :
    byteSize tokens = tokens.length := by
  induction tokens with
  | nil => rfl
  | cons t tokens ih =>
    have ht := h t List.mem_cons_self
    have hone : t.byteSize = 1 := by
      cases t <;> first | rfl | cases ht
    rw [byteSize, hone, ih fun u hu => h u (List.mem_cons_of_mem _ hu), List.length_cons,
      Nat.add_comm]

namespace Reference

/-- Whether a token begins a reference, by what follows it. -/
def begins (k : Kernel) : Token → List Token → Bool
  | .opcode op, .byte _ :: .address (.offset _) :: _ => k.opcode .reference == some op
  | _, _ => false

theorem count_cons (k : Kernel) (first : Token) (rest : List Token) :
    count k (first :: rest) = count k rest + if begins k first rest then 1 else 0 := rfl

@[simp]
theorem begins_nil (k : Kernel) (first : Token) : begins k first [] = false := by
  cases first <;> rfl

/-- A token that is no address of the stream does not make earlier tokens begin a reference, neither
do those behind it if it begins an instruction. -/
theorem begins_append {first t : Token} {rest more : List Token}
    (ht : ∀ o, t ≠ .address (.offset o)) (hmore : t.startsInstruction = true ∨ more = []) :
    begins k first (rest ++ t :: more) = begins k first rest := by
  cases first with
  | opcode op =>
    match rest with
    | [] =>
      cases t with
      | byte b =>
        obtain rfl := hmore.resolve_left nofun
        rfl
      | _ => rfl
    | [b] =>
      cases b with
      | byte b =>
        cases t with
        | address target =>
          cases target with
          | offset o => exact absurd rfl (ht o)
          | symbol id => rfl
        | _ => rfl
      | _ => rfl
    | b :: c :: rest =>
      cases b with
      | byte b =>
        cases c with
        | address target => cases target <;> rfl
        | _ => rfl
      | _ => rfl
  | _ => rfl

/-- A token that is no address of the stream completes no reference. -/
theorem count_concat {token : Token} (ht : ∀ o, token ≠ .address (.offset o)) :
    count k (stream ++ [token]) = count k stream := by
  induction stream with
  | nil => rw [List.nil_append, count_cons, begins_nil, if_neg Bool.false_ne_true, Nat.add_zero]
  | cons first rest ih =>
    rw [List.cons_append, count_cons, count_cons, ih, begins_append ht (.inr rfl)]

/-- The tokens of a reference are one more. -/
theorem count_append_tokens {opcode : UInt8} (hk : k.opcode .reference = some opcode)
    (n target : Nat) :
    count k (stream ++ tokens opcode n target) = count k stream + 1 := by
  induction stream with
  | nil =>
    have hopcode : begins k (.opcode opcode)
        [.byte (UInt8.ofNat n), .address (.offset (UInt32.ofNat target))] = true := by
      show (k.opcode .reference == some opcode) = true
      rw [hk, beq_self_eq_true]
    have hbyte : begins k (.byte (UInt8.ofNat n)) [.address (.offset (UInt32.ofNat target))] =
        false := rfl
    rw [List.nil_append, tokens, count_cons, count_cons, count_cons, begins_nil, hbyte, hopcode]
    rfl
  | cons first rest ih =>
    have hbegins : begins k first (rest ++ tokens opcode n target) = begins k first rest := by
      refine begins_append ?_ (.inl rfl)
      intro o h
      cases h
    rw [List.cons_append, count_cons, count_cons, ih, hbegins, Nat.add_right_comm]

end Reference

namespace Compressor

/-- The bytes of a source and of the stream that it is compressed to: every reference takes four
bytes in place of a passage of at least `least` bytes. -/
structure Ledger (least references source compressed : Nat) (passages : List (List Token)) :
    Prop where
  references_eq : references = passages.length
  least_le : ∀ passage ∈ passages, least ≤ byteSize passage
  balance : source + 4 * references = compressed + (passages.map byteSize).sum

/-- The passages of a ledger have at least their number times the least bytes of one. -/
theorem Ledger.mul_le_sum {least references source compressed : Nat} {passages : List (List Token)}
    (h : Ledger least references source compressed passages) :
    references * least ≤ (passages.map byteSize).sum := by
  have hsum := (passages.map byteSize).card_nsmul_le_sum least (by simpa using h.least_le)
  rwa [List.length_map, ← h.references_eq, nsmul_eq_mul, Nat.cast_id] at hsum

variable {opcode : UInt8} {minNotes : Nat} {out out' : Output} {source : List Token}

/-- **The bytes that one step after the other exchanges.** -/
theorem Writes.ledger (hk : k.opcode .reference = some opcode)
    (h : Writes opcode minNotes out source out') (hl : ∀ o, .address (.offset o) ∉ source) :
    ∃ references passages, Reference.count k out'.tokens =
        Reference.count k out.tokens + references ∧
      Ledger minNotes references (byteSize out.tokens + byteSize source) (byteSize out'.tokens)
        passages := by
  induction h with
  | done out => exact ⟨0, [], rfl, rfl, by simp, by simp [byteSize]⟩
  | @copies out out' token rest _ _ ih =>
    obtain ⟨references, passages, hcount, hledger⟩ :=
      ih fun o ho => hl o (List.mem_cons_of_mem _ ho)
    refine ⟨references, passages, ?_, hledger.references_eq, hledger.least_le, ?_⟩
    · rw [hcount, tokens_copy, Reference.count_concat fun o ho => hl o (ho ▸ List.mem_cons_self)]
    · rw [← hledger.balance, tokens_copy, Player.byteSize_append]
      simp only [byteSize]
      omega
  | @refers out out' source m hfind _ ih =>
    obtain ⟨-, hm⟩ := find_agrees hfind
    obtain ⟨references, passages, hcount, hledger⟩ :=
      ih fun o ho => hl o (List.mem_of_mem_drop ho)
    have hpassage : byteSize (source.take m.length) = m.length := by
      rw [byteSize_of_replayable hm.replayable, List.length_take, Nat.min_eq_left hm.le]
    refine ⟨references + 1, source.take m.length :: passages, ?_, ?_, ?_, ?_⟩
    · rw [hcount, tokens_refer, Reference.count_append_tokens hk, Nat.add_right_comm, Nat.add_assoc]
    · rw [List.length_cons, hledger.references_eq]
    · intro passage hmem
      rcases List.mem_cons.1 hmem with rfl | hmem
      · rw [hpassage]
        exact hm.minNotes_le_length
      · exact hledger.least_le passage hmem
    · have hbalance := hledger.balance
      have hsource : byteSize source =
          byteSize (source.take m.length) + byteSize (source.drop m.length) := by
        rw [← Player.byteSize_append, List.take_append_drop]
      have hreference : byteSize (Reference.tokens opcode m.notes m.target) = 4 := rfl
      rw [tokens_refer, Player.byteSize_append, hreference] at hbalance
      rw [List.map_cons, List.sum_cons]
      omega

end Compressor

/-- **The bytes of a stream are those of its compressed form with every reference exchanged for what
it replaces.** -/
theorem compress_ledger (hl : ∀ o, .address (.offset o) ∉ stream) (k : Kernel) (minNotes : Nat) :
    ∃ passages, Ledger (max minNotes 1) (Reference.count k (compress k minNotes stream))
      (byteSize stream) (byteSize (compress k minNotes stream)) passages := by
  obtain ⟨opcode, out, hk, hwrites, heq⟩ := compress_writes k minNotes stream
  obtain ⟨references, passages, hcount, hledger⟩ := hwrites.ledger hk hl
  refine ⟨passages, ?_⟩
  rw [heq, hcount, Nat.max_comm]
  simpa [Output.tokens, Reference.count, byteSize] using hledger

/-- **What references cost.** The bytes of a stream are those of its compressed form with every
reference exchanged for a passage of at least the least number of notes, so each reference saves at
least this number less four bytes. A threshold of four notes or more never makes a stream larger,
nor does a sweep over such a threshold, and references of fewer notes cost at most three bytes
each. -/
theorem byteSize_compress {stream : List Token} (hl : ∀ o, .address (.offset o) ∉ stream)
    (k : Kernel) (minNotes : Nat) :
    (∃ passages, Ledger (max minNotes 1) (Reference.count k (compress k minNotes stream))
        (byteSize stream) (byteSize (compress k minNotes stream)) passages) ∧
      (byteSize stream : Int) ≥ byteSize (compress k minNotes stream) +
        Reference.count k (compress k minNotes stream) * ((max minNotes 1 : Nat) - 4) ∧
      (4 ≤ minNotes → byteSize (compress k minNotes stream) ≤ byteSize stream) ∧
      (∀ low high, low ≤ minNotes → minNotes ≤ high → 4 ≤ minNotes →
        byteSize (compressBest k (List.range' low (high + 1 - low)) stream).1 ≤
          byteSize stream) ∧
      byteSize (compress k minNotes stream) ≤
        byteSize stream + 3 * Reference.count k (compress k minNotes stream) := by
  obtain ⟨passages, hledger⟩ := compress_ledger hl k minNotes
  refine ⟨⟨passages, hledger⟩, ?_⟩
  have hsum := hledger.mul_le_sum
  have hbalance := hledger.balance
  generalize (passages.map byteSize).sum = replaced at hsum hbalance
  generalize Reference.count k (compress k minNotes stream) = references at hsum hbalance ⊢
  have hlarge : 4 ≤ minNotes → byteSize (compress k minNotes stream) ≤ byteSize stream := by
    intro h
    have : references * 4 ≤ references * max minNotes 1 := Nat.mul_le_mul_left _ (by omega)
    omega
  refine ⟨?_, hlarge, fun low high hlow hhigh h => ?_, ?_⟩
  · have hsum' : (references : Int) * (max minNotes 1 : Nat) ≤ replaced := by exact_mod_cast hsum
    rw [Int.mul_sub]
    omega
  · exact Nat.le_trans (byteSize_compressBest_le (mem_sweep.2 ⟨hlow, hhigh⟩)) (hlarge h)
  · have : references * 1 ≤ references * max minNotes 1 := Nat.mul_le_mul_left _ (by omega)
    omega

/-- The bar of `repeatedBar` takes seven bytes, and four the second time. -/
theorem byteSize_compress_repeatedBar :
    (∀ o, .address (.offset o) ∉ repeatedBar) ∧ byteSize repeatedBar = 14 ∧
      byteSize (compress .extended 4 repeatedBar) = 11 ∧
      Reference.count .extended (compress .extended 4 repeatedBar) = 1 ∧
      (byteSize repeatedBar : Int) ≥ byteSize (compress .extended 4 repeatedBar) +
        Reference.count .extended (compress .extended 4 repeatedBar) * ((max 4 1 : Nat) - 4) := by
  have hl : ∀ o, .address (.offset o) ∉ repeatedBar := by simp [repeatedBar]
  refine ⟨hl, rfl, ?_, ?_, (byteSize_compress hl .extended 4).2.1⟩
  · rw [compress_repeatedBar]
    rfl
  · rw [compress_repeatedBar]
    rfl

end Chiptune
