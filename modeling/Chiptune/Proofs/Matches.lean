import Chiptune.Proofs.Instructions
import Chiptune.Reference.Compress
import Mathlib.Logic.Basic

/-!
# What a reference stands for

A reference stands for a passage of the stream it is in. `Replays` says what makes it sound: the
passage is a sequence of complete instructions without labels and addresses, its last instruction
takes up a row, it has as many of these as the reference counts, and it stands at the reference's
target, where a boundary follows. The compressor finds such passages by comparing its source with
what it has written (`Compressor.extend_some`, `Compressor.find_some`).
-/

set_option autoImplicit false

namespace Chiptune

/-! ## Playing a passage from elsewhere -/

/-- The last token that begins an instruction begins one that takes up a row. -/
def EndsWithNote (ts : List Token) : Prop :=
  ∃ front b operands, ts = front ++ Token.note b :: operands ∧
    ∀ t ∈ operands, t.startsInstruction = false

/-- A reference with a count and a target stands for a passage of the stream. -/
structure Replays (k : Kernel) (stream : List Token) (count target : Nat) (passage : List Token) :
    Prop where
  complete : Complete k passage
  replayable : ∀ t ∈ passage, t.isReplayable = true
  endsWithNote : EndsWithNote passage
  count_eq : noteCount passage = count
  count_le : count ≤ Compressor.maxNotes
  /-- A boundary follows the passage, so that a player stops there. -/
  here : ∃ t after, stream.drop target = passage ++ t :: after ∧ t.IsBoundary

theorem noteCount_append (a b : List Token) : noteCount (a ++ b) = noteCount a + noteCount b :=
  List.countP_append

theorem Token.isLabel_of_replayable {t : Token} (h : t.isReplayable = true) :
    t.isLabel = false := by
  cases t <;> simp_all [isReplayable, isLabel]

/-- Until the counted notes are over, a player takes every token. -/
theorem replay_front {count played : Nat} {front rest : List Token}
    (h : played + noteCount front < count) :
    Reference.replay count played (front ++ rest) =
      front ++ Reference.replay count (played + noteCount front) rest := by
  induction front generalizing played with
  | nil => rfl
  | cons t front ih =>
    have hne : ¬ (played = count ∧ (t.startsInstruction = true ∨ t.isLabel = true)) := by
      rintro ⟨rfl, -⟩
      omega
    rw [List.cons_append, Reference.replay, if_neg hne]
    have hc : noteCount (t :: front) = (if t.isNote = true then 1 else 0) + noteCount front := by
      rw [noteCount, List.countP_cons, Nat.add_comm]
      rfl
    cases hn : t.isNote <;> simp only [hn, if_true, if_false, Bool.false_eq_true] at hc ⊢
    · rw [ih (by omega), List.cons_append, show played + noteCount front =
        played + noteCount (t :: front) by omega]
    · rw [ih (by omega), List.cons_append, show played + 1 + noteCount front =
        played + noteCount (t :: front) by omega]

/-- Behind the last counted note a player takes its operands and stops at the next boundary. -/
theorem replay_operands {count : Nat} {operands after : List Token} {t : Token}
    (ho : ∀ t ∈ operands, ¬ t.IsBoundary) (ht : t.IsBoundary) :
    Reference.replay count count (operands ++ t :: after) = operands := by
  induction operands with
  | nil => rw [List.nil_append, Reference.replay, if_pos ⟨rfl, ht⟩]
  | cons t' operands ih =>
    have h' := ho t' List.mem_cons_self
    have hnote : t'.isNote = false := by
      cases t' <;> simp_all [Token.IsBoundary, Token.startsInstruction, Token.isNote]
    rw [List.cons_append, Reference.replay, if_neg (fun h => h' h.2), if_neg (by simp [hnote]),
      ih (fun t ht => ho t (List.mem_cons_of_mem _ ht))]

namespace Replays

variable {k : Kernel} {stream passage : List Token} {count target : Nat}

theorem target_lt (h : Replays k stream count target passage) : target < stream.length := by
  obtain ⟨t, after, hd, -⟩ := h.here
  apply Nat.lt_of_not_le
  intro hle
  rw [List.drop_eq_nil_of_le hle] at hd
  simp at hd

/-- A reference holds its count. -/
theorem toNat_count (h : Replays k stream count target passage) :
    (UInt8.ofNat count).toNat = count :=
  UInt8.toNat_ofNat_of_lt' (Nat.lt_of_le_of_lt h.count_le (by decide))

/-- A reference holds its target if the positions of the stream are numbers of 32 bits. -/
theorem toNat_target (h : Replays k stream count target passage)
    (hsize : stream.length ≤ UInt32.size) : (UInt32.ofNat target).toNat = target :=
  UInt32.toNat_ofNat_of_lt' (Nat.lt_of_lt_of_le h.target_lt hsize)

/-- A reference stays sound when the stream grows. -/
theorem append (h : Replays k stream count target passage) (more : List Token) :
    Replays k (stream ++ more) count target passage := by
  obtain ⟨t, after, hd, ht⟩ := h.here
  refine { h with here := ⟨t, after ++ more, ?_, ht⟩ }
  rw [List.drop_append_of_le_length (Nat.le_of_lt h.target_lt), hd]
  simp

/-- **A player that counts the notes of a passage plays just the passage.** -/
theorem replay_eq (h : Replays k stream count target passage) :
    Reference.replay count 0 (stream.drop target) = passage := by
  obtain ⟨t, after, hd, ht⟩ := h.here
  obtain ⟨front, b, operands, hp, ho⟩ := h.endsWithNote
  have hcount : noteCount front + 1 = count := by
    have hzero : noteCount operands = 0 := by
      rw [noteCount, List.countP_eq_zero]
      intro t ht hn
      have := ho t ht
      cases t <;> simp_all [Token.isNote, Token.startsInstruction]
    have hc := h.count_eq
    rw [hp, noteCount_append, noteCount, noteCount, List.countP_cons_of_pos (by rfl)] at hc
    simp only [noteCount] at hzero ⊢
    omega
  have hno : ∀ t ∈ operands, ¬ t.IsBoundary := by
    intro t ht hb
    have hl := Token.isLabel_of_replayable (h.replayable t (by simp [hp, ht]))
    rcases hb with hs | hb
    · simp [ho t ht] at hs
    · simp [hl] at hb
  rw [hd, hp, List.append_assoc, replay_front (by omega), List.cons_append, Reference.replay,
    if_neg (by omega), if_pos (by rfl), show 0 + noteCount front + 1 = count by omega,
    replay_operands hno ht]

end Replays

/-! ## Matches -/

/-- A search that keeps its best result, or takes one that belongs to the element it looks at,
ends with the result that it began with or with one that belongs to an element. -/
theorem foldl_choice {α β : Type} {f : Option β → α → Option β} {p : α → β → Prop} {as : List α}
    {best : Option β} {b : β} (h : as.foldl f best = some b)
    (hf : ∀ best a, f best a = best ∨ ∃ b, f best a = some b ∧ p a b) :
    best = some b ∨ ∃ a ∈ as, p a b := by
  induction as generalizing best with
  | nil => exact .inl h
  | cons a as ih =>
    rcases ih h with he | ⟨a', ha', hp⟩
    · rcases hf best a with hbest | ⟨b', hb, hp⟩
      · exact .inl (hbest ▸ he)
      · rw [hb] at he
        cases he
        exact .inr ⟨a, List.mem_cons_self, hp⟩
    · exact .inr ⟨a', List.mem_cons_of_mem _ ha', hp⟩

namespace Compressor

/-- Whether the last token that begins an instruction begins one that takes up a row; `before`
answers for tokens that begin none. -/
def lastIsNote (before : Bool) : List Token → Bool
  | [] => before
  | t :: ts => lastIsNote (if t.startsInstruction then t.isNote else before) ts

theorem endsWithNote_of_lastIsNote {ts : List Token} {before : Bool}
    (h : lastIsNote before ts = true) :
    EndsWithNote ts ∨ (before = true ∧ ∀ t ∈ ts, t.startsInstruction = false) := by
  induction ts generalizing before with
  | nil => exact .inr ⟨h, by simp⟩
  | cons t ts ih =>
    rcases ih h with ⟨front, b, operands, rfl, ho⟩ | ⟨hb, hts⟩
    · exact .inl ⟨t :: front, b, operands, rfl, ho⟩
    · cases hs : t.startsInstruction
      · rw [hs] at hb
        exact .inr ⟨by simpa using hb, by simpa [hs] using hts⟩
      · rw [hs, if_pos rfl] at hb
        obtain ⟨b, rfl⟩ : ∃ b, t = .note b := by
          cases t <;> simp_all [Token.isNote]
        exact .inl ⟨[], b, ts, rfl, hts⟩

/-- What a match has in common with the source that it was found for, if the comparison started
with `p`: the first `n` tokens of the source stand in the output from the place that was compared
next, they can be replayed and end at a boundary with a note. -/
structure Agrees (cells : Array Cell) (minNotes target : Nat) (p : Progress) (source : List Token)
    (m : Match) (n : Nat) : Prop where
  pos : 0 < n
  le : n ≤ source.length
  eq : m = ⟨target, p.length + n, p.notes + noteCount (source.take n)⟩
  same : ∀ i < n, (cells[target + p.length + i]?).map Cell.token = source[i]?
  replayable : ∀ t ∈ source.take n, t.isReplayable = true
  minNotes_le : minNotes ≤ m.notes
  notes_le : m.notes ≤ maxNotes
  ends : lastIsNote p.endsWithNote (source.take n) = true
  boundary : AtBoundary (source.drop n)

/-- One token more of the source stands in the output. -/
structure Takes (cells : Array Cell) (target : Nat) (token : Token) (p p' : Progress) : Prop where
  same : (cells[target + p.length]?).map Cell.token = some token
  replayable : token.isReplayable = true
  length : p'.length = p.length + 1
  notes : p'.notes = p.notes + noteCount [token]
  notes_le : p'.notes ≤ maxNotes
  endsWithNote : p'.endsWithNote = if token.startsInstruction then token.isNote else p.endsWithNote

section Takes

variable {cells : Array Cell} {minNotes target : Nat} {token : Token} {rest : List Token}
  {p p' : Progress} {m : Match}

/-- A match that ends with the token. -/
theorem Takes.agrees (h : Takes cells target token p p') (hmin : minNotes ≤ p'.notes)
    (hend : p'.endsWithNote = true) (hboundary : rest.head?.all Token.startsInstruction = true) :
    Agrees cells minNotes target p (token :: rest) ⟨target, p'.length, p'.notes⟩ 1 := by
  refine ⟨by omega, by simp, ?_, ?_, by simpa using h.replayable, hmin, h.notes_le, ?_, ?_⟩
  · rw [h.length, h.notes]
    rfl
  · intro i hi
    obtain rfl : i = 0 := by omega
    simpa using h.same
  · rw [h.endsWithNote] at hend
    simpa [lastIsNote] using hend
  · intro t ht
    rw [List.drop_succ_cons, List.drop_zero] at ht
    rw [Option.mem_def.1 ht] at hboundary
    exact .inl (by simpa using hboundary)

/-- A match that goes on behind the token. -/
theorem Takes.agrees_cons {n : Nat} (h : Takes cells target token p p')
    (hn : Agrees cells minNotes target p' rest m n) :
    Agrees cells minNotes target p (token :: rest) m (n + 1) := by
  have hcount : noteCount ((token :: rest).take (n + 1)) =
      noteCount [token] + noteCount (rest.take n) := by
    rw [List.take_succ_cons, ← noteCount_append, List.singleton_append]
  refine ⟨by omega, ?_, ?_, ?_, ?_, hn.minNotes_le, hn.notes_le, ?_, ?_⟩
  · have := hn.le
    simp only [List.length_cons]
    omega
  · rw [hn.eq, hcount, h.length, h.notes]
    simp only [Match.mk.injEq, true_and]
    omega
  · intro i hi
    cases i with
    | zero => simpa using h.same
    | succ i =>
      have := hn.same i (by omega)
      simp only [List.getElem?_cons_succ, ← this, h.length]
      rw [show target + p.length + (i + 1) = target + (p.length + 1) + i by omega]
  · intro t ht
    rw [List.take_succ_cons] at ht
    rcases List.mem_cons.1 ht with rfl | ht
    · exact h.replayable
    · exact hn.replayable t ht
  · have hends := hn.ends
    rw [h.endsWithNote] at hends
    simpa [lastIsNote] using hends
  · simpa using hn.boundary

end Takes

/-- **What an accepted match has in common with the source.** -/
theorem extend_some {cells : Array Cell} {minNotes target : Nat} {source : List Token}
    {p : Progress} {m : Match} (hp : p.notes ≤ maxNotes)
    (h : extend cells minNotes target p source = some m) :
    p.accepted = some m ∨ ∃ n, Agrees cells minNotes target p source m n := by
  induction source generalizing p with
  | nil => exact .inl h
  | cons token rest ih =>
    rw [extend] at h
    split at h
    · exact .inl h
    rename_i cell hcell
    split at h
    · exact .inl h
    rename_i hgo
    simp only [Bool.or_eq_true, Bool.not_eq_true', bne_iff_ne, Bool.and_eq_true, beq_iff_eq,
      not_or, Bool.not_eq_false, Classical.not_not] at hgo
    obtain ⟨⟨⟨-, hrep⟩, htok⟩, hmax⟩ := hgo
    have hnotes : (if token.isNote = true then p.notes + 1 else p.notes) =
        p.notes + noteCount [token] := by
      rw [noteCount, List.countP_singleton]
      split <;> rfl
    have hle : (if token.isNote = true then p.notes + 1 else p.notes) ≤ maxNotes := by
      split
      · rename_i hn
        have : p.notes ≠ maxNotes := fun he => hmax ⟨hn, he⟩
        omega
      · exact hp
    have htakes : ∀ accepted, Takes cells target token p
        { length := p.length + 1
          notes := if token.isNote = true then p.notes + 1 else p.notes
          endsWithNote := if token.startsInstruction = true then token.isNote else p.endsWithNote
          accepted } :=
      fun _ => ⟨by simp [hcell, htok], hrep, rfl, hnotes, hle, rfl⟩
    rcases ih hle h with hacc | ⟨n, hn⟩
    · -- the match ends with this token, unless it was accepted before
      obtain ⟨hok, hacc⟩ | ⟨-, hacc⟩ := ite_eq_iff.1 hacc
      · simp only [Bool.and_eq_true, decide_eq_true_eq] at hok
        cases hacc
        exact .inr ⟨1, (htakes none).agrees hok.2 hok.1.2 hok.1.1⟩
      · exact .inl hacc
    · exact .inr ⟨n + 1, (htakes _).agrees_cons hn⟩

theorem longer_cases (best found : Option Match) :
    longer best found = best ∨ ∃ m, longer best found = some m ∧ found = some m := by
  cases found with
  | none => cases best <;> exact .inl rfl
  | some m =>
    cases best with
    | none => exact .inr ⟨m, rfl, rfl⟩
    | some b =>
      by_cases hl : b.length < m.length
      · exact .inr ⟨m, by simp only [longer, if_pos hl], rfl⟩
      · exact .inl (by simp only [longer, if_neg hl])

/-- A match begins with an instruction and agrees with the source. -/
theorem find_some {out : Output} {minNotes : Nat} {source : List Token} {m : Match}
    (h : find out minNotes source = some m) :
    source.head?.any Token.startsInstruction = true ∧
      ∃ target n, Agrees out.cells minNotes target {} source m n := by
  simp only [find] at h
  split at h
  · rename_i hw
    rw [← Array.foldl_toList] at h
    rcases foldl_choice h (fun best target => longer_cases best _) with
      hnone | ⟨target, -, hext⟩
    · cases hnone
    · refine ⟨?_, target, ?_⟩
      · simp only [isIndexable, Bool.and_eq_true] at hw
        rw [List.head?_take, if_neg (by decide)] at hw
        exact hw.1.2
      · rcases extend_some (by decide) hext with hnone | hn
        · cases hnone
        · exact hn
  · cases h

end Compressor

end Chiptune
