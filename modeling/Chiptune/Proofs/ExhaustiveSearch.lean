import Chiptune.Proofs.CompressorSteps
import Mathlib.Data.List.MinMax

/-!
# The index finds what a search of the whole output finds

`Exhaustive.compress` compresses without an index: where an instruction begins in the source, every
offset of the output where one begins is tried. The compressor looks only at the offsets that its
index has for the hash of the next four tokens. These are all offsets of copied windows with this
hash (`Output.Indexed`, kept by every step), and a passage of at least four notes begins with such a
window (`isEntry_of_extend`). So nothing is missed, and a window that only shares the hash begins no
passage that is not tried anyway.

* `find_eq_exhaustive`: both searches have the same result.
* `compress_exhaustive`: **both compressors write the same stream**, from four notes on.
-/

set_option autoImplicit false

namespace Chiptune

open Compressor

/-! ## Compression without an index -/

namespace Exhaustive

/-- Offsets of the output where instructions begin. -/
def offsets (cells : Array Cell) : List Nat :=
  (List.range cells.size).filter fun o => cells[o]?.any fun cell => cell.token.startsInstruction

/-- What the source repeats of the output, from every offset the longest passage. -/
def passages (cells : Array Cell) (minNotes : Nat) (source : List Token) : List Match :=
  (offsets cells).filterMap fun target => extend cells minNotes target {} source

/-- The longest passage, among equally long ones that with the smallest offset; none where the
source begins no instruction. -/
def find (cells : Array Cell) (minNotes : Nat) (source : List Token) : Option Match :=
  if source.head?.any Token.startsInstruction then
    (passages cells minNotes source).argmax Match.length
  else none

/-- Output of a source of which the first `skip` tokens are covered by a reference. -/
def run (opcode : UInt8) (minNotes : Nat) (cells : Array Cell) (skip : Nat) :
    List Token → Array Cell
  | [] => cells
  | token :: rest =>
    match skip with
    | skip + 1 => run opcode minNotes cells skip rest
    | 0 =>
      match find cells minNotes (token :: rest) with
      | some m =>
        run opcode minNotes
          (cells ++ (Reference.tokens opcode m.notes m.target).map fun token => Cell.mk token false)
          (m.length - 1) rest
      | none => run opcode minNotes (cells.push ⟨token, true⟩) 0 rest

/-- The stream with repeats of at least `minNotes` notes replaced by references. -/
def compress (k : Kernel) (minNotes : Nat) (stream : List Token) : List Token :=
  match k.opcode .reference with
  | some opcode => (run opcode minNotes #[] 0 stream).toList.map (·.token)
  | none => stream

/-- The longest passage that the source repeats, among equally long ones that with the smallest
offset. -/
structure IsBest (cells : Array Cell) (minNotes : Nat) (source : List Token) (m : Match) :
    Prop where
  starts : source.head?.any Token.startsInstruction = true
  offset : m.target ∈ offsets cells
  accepted : extend cells minNotes m.target {} source = some m
  best : ∀ target ∈ offsets cells, ∀ m', extend cells minNotes target {} source = some m' →
    m'.length < m.length ∨ m'.length = m.length ∧ m.target ≤ target

section IsBest

variable {cells : Array Cell} {minNotes : Nat} {source : List Token} {m m' : Match}

theorem target_of_extend {target : Nat} (h : extend cells minNotes target {} source = some m) :
    m.target = target := by
  obtain ⟨n, hn⟩ := (extend_some (by decide) h).resolve_left nofun
  rw [hn.eq]

theorem mem_passages :
    m ∈ passages cells minNotes source ↔
      m.target ∈ offsets cells ∧ extend cells minNotes m.target {} source = some m := by
  rw [passages, List.mem_filterMap]
  constructor
  · rintro ⟨target, htarget, hm⟩
    rw [target_of_extend hm]
    exact ⟨htarget, hm⟩
  · exact fun h => ⟨m.target, h⟩

theorem passages_pairwise (cells : Array Cell) (minNotes : Nat) (source : List Token) :
    (passages cells minNotes source).Pairwise fun a b => a.target < b.target := by
  refine List.Pairwise.filterMap _ ?_ ((List.pairwise_lt_range).filter _)
  intro a b hlt m hm m' hm'
  rw [target_of_extend hm, target_of_extend hm']
  exact hlt

/-- Passages with larger offsets come later. -/
theorem target_le_of_idxOf_le (hm : m ∈ passages cells minNotes source)
    (hm' : m' ∈ passages cells minNotes source)
    (h : (passages cells minNotes source).idxOf m ≤ (passages cells minNotes source).idxOf m') :
    m.target ≤ m'.target := by
  have hlt := List.idxOf_lt_length_of_mem hm
  have hlt' := List.idxOf_lt_length_of_mem hm'
  rcases Nat.eq_or_lt_of_le h with heq | hlt''
  · rw [(List.idxOf_inj hm).1 heq]
  · have := List.pairwise_iff_getElem.1 (passages_pairwise cells minNotes source) _ _ hlt hlt' hlt''
    rw [List.getElem_idxOf, List.getElem_idxOf] at this
    exact Nat.le_of_lt this

theorem isBest_of_find (h : find cells minNotes source = some m) :
    IsBest cells minNotes source m := by
  rw [find] at h
  split at h
  · rename_i hstart
    have hmem := mem_passages.1 (List.argmax_mem h)
    refine ⟨hstart, hmem.1, hmem.2, fun target htarget m' hm' => ?_⟩
    have htarget' := target_of_extend hm'
    have hmem' : m' ∈ passages cells minNotes source :=
      mem_passages.2 (by rw [htarget']; exact ⟨htarget, hm'⟩)
    rcases Nat.lt_or_eq_of_le (List.le_of_mem_argmax hmem' h) with hlt | heq
    · exact .inl hlt
    · refine .inr ⟨heq, ?_⟩
      rw [← htarget']
      exact target_le_of_idxOf_le (List.argmax_mem h) hmem'
        (List.index_of_argmax h hmem' (Nat.le_of_eq heq.symm))
  · cases h

/-- Only one passage is the best one. -/
theorem IsBest.unique (h : IsBest cells minNotes source m) (h' : IsBest cells minNotes source m') :
    m = m' := by
  have hle := h.best _ h'.offset _ h'.accepted
  have hle' := h'.best _ h.offset _ h.accepted
  have htarget : m.target = m'.target := by omega
  have haccepted := h.accepted
  rw [htarget, h'.accepted] at haccepted
  exact (Option.some.inj haccepted).symm

/-- **What the search takes is the best passage, and it takes one if there is one.** -/
theorem find_eq_some_iff :
    find cells minNotes source = some m ↔ IsBest cells minNotes source m := by
  refine ⟨isBest_of_find, fun h => ?_⟩
  have hmem : m ∈ passages cells minNotes source := mem_passages.2 ⟨h.offset, h.accepted⟩
  cases hf : find cells minNotes source with
  | none =>
    rw [find, if_pos h.starts, List.argmax_eq_none] at hf
    rw [hf] at hmem
    cases hmem
  | some m' => rw [h.unique (isBest_of_find hf)]

end IsBest

end Exhaustive

namespace Compressor

variable {cells : Array Cell} {minNotes target : Nat} {source : List Token} {p : Progress}
  {m : Match} {out : Output} {key : UInt64}

/-! ## Windows of the output -/

/-- Window of the output at an offset; shorter at the end of the output. -/
def window (cells : Array Cell) (start : Nat) : List Cell :=
  (cells.toList.drop start).take windowSize

/-- Whether a window was copied from the source and has a hash. -/
def isEntry (key : UInt64) (window : List Cell) : Bool :=
  isIndexable (window.map Cell.token) && window.all Cell.isCopy &&
    windowHash (window.map Cell.token) == key

/-- Offsets of the copied windows with a hash. -/
def entries (cells : Array Cell) (key : UInt64) : List Nat :=
  (List.range (cells.size + 1 - windowSize)).filter fun start => isEntry key (window cells start)

/-- The index has for every hash the offsets of all copied windows with it, in their order. -/
def Output.Indexed (out : Output) : Prop :=
  ∀ key, (out.index.getD key #[]).toList = entries out.cells key

theorem length_of_isEntry {w : List Cell} (h : isEntry key w = true) : w.length = windowSize := by
  simp only [isEntry, isIndexable, Bool.and_eq_true, beq_iff_eq, List.length_map] at h
  exact h.1.1.1.1

/-- An entry begins with an instruction. -/
theorem starts_of_isEntry {start : Nat} (h : isEntry key (window cells start) = true) :
    (cells[start]?.any fun cell => cell.token.startsInstruction) = true := by
  simp only [isEntry, isIndexable, Bool.and_eq_true] at h
  have hhead := h.1.1.1.2
  rw [List.head?_map, window, List.head?_take, if_neg (by decide), List.head?_drop,
    Array.getElem?_toList, Option.any_map] at hhead
  exact hhead

theorem window_push {cell : Cell} {start : Nat} (h : start + windowSize ≤ cells.size) :
    window (cells.push cell) start = window cells start := by
  have hlength : windowSize ≤ (cells.toList.drop start).length := by
    rw [List.length_drop, Array.length_toList]
    omega
  rw [window, window, Array.toList_push, List.drop_append_of_le_length (by simp; omega),
    List.take_append_of_le_length hlength]

/-- The last window of an output ends with its last cell. -/
theorem mem_window_push (cells : Array Cell) (cell : Cell) :
    cell ∈ window (cells.push cell) (cells.size + 1 - windowSize) := by
  rw [window, List.take_of_length_le, Array.toList_push, List.drop_append_of_le_length]
  · simp
  · simp only [Array.length_toList, windowSize]
    omega
  · simp only [List.length_drop, Array.length_toList, Array.size_push, windowSize]
    omega

/-- **One more cell completes one window.** -/
theorem entries_push (cells : Array Cell) (cell : Cell) (key : UInt64) :
    entries (cells.push cell) key = entries cells key ++
      if isEntry key (window (cells.push cell) (cells.size + 1 - windowSize)) then
        [cells.size + 1 - windowSize] else [] := by
  by_cases hsize : windowSize ≤ cells.size + 1
  · have hrange : (cells.push cell).size + 1 - windowSize = cells.size + 1 - windowSize + 1 := by
      rw [Array.size_push]
      omega
    rw [entries, hrange, List.range_succ, List.filter_append, entries]
    congr 1
    · apply List.filter_congr
      intro start hstart
      rw [window_push]
      have := List.mem_range.1 hstart
      omega
    · rw [List.filter_singleton, cond_eq_ite]
  · -- no window fits into the output
    have hnone : isEntry key (window (cells.push cell) (cells.size + 1 - windowSize)) = false := by
      rw [Bool.eq_false_iff]
      intro hentry
      have hlength := length_of_isEntry hentry
      simp only [window, List.length_take, List.length_drop, Array.length_toList,
        Array.size_push] at hlength
      omega
    rw [hnone, entries, entries, Array.size_push]
    rw [show cells.size + 1 + 1 - windowSize = 0 by simp only [windowSize] at hsize ⊢; omega,
      show cells.size + 1 - windowSize = 0 by omega]
    simp

theorem entries_push_of_not_copy {cell : Cell} (h : cell.isCopy = false) :
    entries (cells.push cell) key = entries cells key := by
  rw [entries_push, if_neg, List.append_nil]
  intro hentry
  simp only [isEntry, Bool.and_eq_true, List.all_eq_true] at hentry
  have hcopy := hentry.1.2 cell (mem_window_push cells cell)
  rw [h] at hcopy
  cases hcopy

/-! ## Steps keep the index -/

theorem indexed_empty : Output.Indexed {} := by
  intro key
  simp [entries, windowSize]

theorem cells_copy (out : Output) (token : Token) :
    (copy out token).cells = out.cells.push ⟨token, true⟩ := by
  unfold copy
  simp only
  split <;> rfl

theorem cells_refer (out : Output) (opcode : UInt8) (m : Match) :
    (refer out opcode m).cells = out.cells ++
      (Reference.tokens opcode m.notes m.target).map fun token => Cell.mk token false := rfl

/-- The window at the end of an output. -/
theorem extract_eq_window (cells : Array Cell) :
    (cells.extract (cells.size - windowSize) cells.size).toList =
      window cells (cells.size - windowSize) := by
  rw [window, Array.toList_extract, List.extract_eq_take_drop, List.take_of_length_le,
    List.take_of_length_le]
  · simp only [List.length_drop, Array.length_toList]
    omega
  · simp

/-- The bucket of a hash after a token was copied. -/
theorem bucket_copy (out : Output) (token : Token) (key : UInt64) :
    ((copy out token).index.getD key #[]).toList = (out.index.getD key #[]).toList ++
      if isEntry key (window (copy out token).cells (out.cells.size + 1 - windowSize)) then
        [out.cells.size + 1 - windowSize] else [] := by
  have hsize : (out.cells.push ⟨token, true⟩).size = out.cells.size + 1 := Array.size_push ..
  rw [cells_copy, ← hsize]
  unfold copy
  simp only
  generalize out.cells.push ⟨token, true⟩ = cells
  rw [extract_eq_window]
  generalize window cells (cells.size - windowSize) = w
  split
  · rename_i hcopied
    simp only [isEntry, hcopied, Bool.true_and, Std.HashMap.getD_alter]
    split
    · rename_i hkey
      obtain rfl : windowHash (w.map Cell.token) = key := by simpa using hkey
      simp [Std.HashMap.getD_eq_getD_getElem?]
    · simp
  · rename_i hcopied
    simp [isEntry, hcopied]

theorem Output.Indexed.copy (h : out.Indexed) (token : Token) : (copy out token).Indexed := by
  intro key
  rw [bucket_copy, cells_copy, entries_push, h key]

theorem Output.Indexed.refer (h : out.Indexed) (opcode : UInt8) (m : Match) :
    (refer out opcode m).Indexed := by
  intro key
  have hcells : (Compressor.refer out opcode m).cells =
      ((out.cells.push ⟨.opcode opcode, false⟩).push ⟨.byte (UInt8.ofNat m.notes), false⟩).push
        ⟨.address (.offset (UInt32.ofNat m.target)), false⟩ := by
    rw [← Array.toList_inj]
    simp [cells_refer, Reference.tokens]
  rw [hcells, entries_push_of_not_copy rfl, entries_push_of_not_copy rfl,
    entries_push_of_not_copy rfl]
  exact h key

/-! ## What a passage begins with -/

/-- The tokens of a match were copied from the source. -/
theorem extend_isCopy (h : extend cells minNotes target p source = some m) :
    p.accepted = some m ∨
      ∀ i, p.length ≤ i → i < m.length → cells[target + i]?.any Cell.isCopy = true := by
  induction source generalizing p with
  | nil => exact .inl h
  | cons token rest ih =>
    rw [extend] at h
    split at h
    · exact .inl h
    rename_i cell hcell
    split at h
    · exact .inl h
    rename_i hgo
    have hcopy : cells[target + p.length]?.any Cell.isCopy = true := by
      simp only [Bool.or_eq_true, not_or, Bool.not_eq_true', Bool.not_eq_false] at hgo
      simp [hcell, hgo.1.1.1]
    rcases ih h with hacc | hrest
    · -- the match ends with this token, unless it was accepted before
      obtain ⟨-, hacc⟩ | ⟨-, hacc⟩ := ite_eq_iff.1 hacc
      · cases hacc
        refine .inr fun i hle hlt => ?_
        obtain rfl : i = p.length := by simp only at hlt; omega
        exact hcopy
      · exact .inl hacc
    · refine .inr fun i hle hlt => ?_
      rcases Nat.eq_or_lt_of_le hle with rfl | hlt'
      · exact hcopy
      · exact hrest i hlt' hlt

/-- **A passage of enough notes begins with a window of its own**: the first four tokens of the
source stand there, copied, and they can be looked up. -/
theorem isEntry_of_extend (hmin : windowSize ≤ minNotes)
    (h : extend cells minNotes target {} source = some m)
    (hstart : source.head?.any Token.startsInstruction = true) :
    isIndexable (source.take windowSize) = true ∧
      isEntry (windowHash (source.take windowSize)) (window cells target) = true := by
  obtain ⟨n, hn⟩ := (extend_some (by decide) h).resolve_left nofun
  have hlength : m.length = n := by simp [hn.eq]
  have hnotes : windowSize ≤ n := Nat.le_trans hmin hn.minNotes_le_length
  have hsame : (window cells target).map Cell.token = source.take windowSize := by
    apply List.ext_getElem?
    intro i
    rw [List.getElem?_map, window, List.getElem?_take, List.getElem?_take]
    split
    · rename_i hi
      simpa using hn.same i (by omega)
    · rfl
  have hindexable : isIndexable (source.take windowSize) = true := by
    simp only [isIndexable, Bool.and_eq_true, beq_iff_eq, List.all_eq_true]
    refine ⟨⟨?_, ?_⟩, fun t ht => hn.replayable t ?_⟩
    · have := hn.le
      rw [List.length_take]
      omega
    · rwa [List.head?_take, if_neg (by decide)]
    · exact (List.take_subset_take_left source hnotes) ht
  have hcopies : (window cells target).all Cell.isCopy = true := by
    have hall := (extend_isCopy h).resolve_left nofun
    rw [List.all_eq_true]
    intro cell hcell
    obtain ⟨i, hi⟩ := List.mem_iff_getElem?.1 hcell
    rw [window, List.getElem?_take] at hi
    split at hi
    · rename_i hlt
      have hcopy := hall i (Nat.zero_le i) (by omega)
      rw [List.getElem?_drop, Array.getElem?_toList] at hi
      simpa [hi] using hcopy
    · cases hi
  refine ⟨hindexable, ?_⟩
  simp only [isEntry, hsame, hindexable, hcopies, Bool.and_self, beq_self_eq_true]

/-! ## Both searches find the same -/

/-- The first of the longest matches, as a fold. -/
theorem foldl_longer (f : Nat → Option Match) (targets : List Nat) :
    targets.foldl (fun best target => longer best (f target)) none =
      (targets.filterMap f).argmax Match.length := by
  rw [List.argmax, List.foldl_filterMap]
  congr 1
  funext best target
  cases f target with
  | none => cases best <;> rfl
  | some m => cases best <;> rfl

/-- A filter that keeps all elements with a result keeps the results. -/
theorem filterMap_filter_of {α β : Type} {f : α → Option β} {keep : α → Bool} {as : List α}
    (h : ∀ a ∈ as, ∀ b, f a = some b → keep a = true) :
    (as.filter keep).filterMap f = as.filterMap f := by
  rw [List.filterMap_filter]
  apply List.filterMap_congr
  intro a ha
  cases hf : f a with
  | none => simp
  | some b => simp [h a ha b hf]

/-- Windows that reach over the end of the output are no entries. -/
theorem entries_eq (cells : Array Cell) (key : UInt64) :
    entries cells key =
      (List.range cells.size).filter fun start => isEntry key (window cells start) := by
  obtain ⟨more, hmore⟩ : ∃ more, cells.size = cells.size + 1 - windowSize + more :=
    ⟨cells.size - (cells.size + 1 - windowSize), by simp only [windowSize]; omega⟩
  have hnone : ((List.range more).map (cells.size + 1 - windowSize + ·)).filter
      (fun start => isEntry key (window cells start)) = [] := by
    rw [List.filter_eq_nil_iff]
    intro start hstart hentry
    obtain ⟨i, -, rfl⟩ := List.mem_map.1 hstart
    have hlength := length_of_isEntry hentry
    simp only [window, List.length_take, List.length_drop, Array.length_toList] at hlength
    omega
  rw [entries]
  conv_rhs => rw [hmore, List.range_add, List.filter_append, hnone, List.append_nil]

/-- **The index finds what a search of the whole output finds.** -/
theorem find_eq_exhaustive (hmin : windowSize ≤ minNotes) (h : out.Indexed) (source : List Token) :
    find out minNotes source = Exhaustive.find out.cells minNotes source := by
  by_cases hw : isIndexable (source.take windowSize) = true
  · have hstart : source.head?.any Token.startsInstruction = true := by
      simp only [isIndexable, Bool.and_eq_true] at hw
      rw [List.head?_take, if_neg (by decide)] at hw
      exact hw.1.2
    rw [find, if_pos hw, ← Array.foldl_toList, foldl_longer, h, entries_eq, filterMap_filter_of,
      Exhaustive.find, if_pos hstart, Exhaustive.passages, Exhaustive.offsets, filterMap_filter_of]
    · exact fun target _ m hm => starts_of_isEntry (isEntry_of_extend hmin hm hstart).2
    · exact fun target _ m hm => (isEntry_of_extend hmin hm hstart).2
  · rw [find, if_neg hw, Exhaustive.find]
    split
    · rename_i hstart
      have hnone : Exhaustive.passages out.cells minNotes source = [] := by
        rw [Exhaustive.passages, List.filterMap_eq_nil_iff]
        intro target _
        rw [Option.eq_none_iff_forall_ne_some]
        intro m hm
        exact hw (isEntry_of_extend hmin hm hstart).1
      rw [hnone, List.argmax_nil]
    · rfl

end Compressor

/-! ## Both compressors write the same -/

namespace Exhaustive

variable {opcode : UInt8} {minNotes : Nat}

theorem run_skip (cells : Array Cell) (n : Nat) (source : List Token) :
    run opcode minNotes cells n source = run opcode minNotes cells 0 (source.drop n) := by
  induction source generalizing n with
  | nil => simp [run]
  | cons t source ih =>
    cases n with
    | zero => rfl
    | succ n =>
      rw [run, ih]
      rfl

end Exhaustive

/-- A run with the index, step by step along one without. -/
theorem Compressor.Writes.exhaustive {opcode : UInt8} {minNotes : Nat} {out out' : Output}
    {source : List Token} (hmin : windowSize ≤ minNotes)
    (h : Writes opcode minNotes out source out') (hout : out.Indexed) :
    out'.cells = Exhaustive.run opcode minNotes out.cells 0 source := by
  induction h with
  | done out => rfl
  | @copies out out' token rest hfind _ ih =>
    rw [find_eq_exhaustive hmin hout] at hfind
    rw [ih (hout.copy token), cells_copy, Exhaustive.run, hfind]
  | @refers out out' source m hfind _ ih =>
    have hpos := (find_agrees hfind).2.pos
    rw [find_eq_exhaustive hmin hout] at hfind
    rw [ih (hout.refer opcode m), cells_refer]
    cases source with
    | nil => cases hfind
    | cons token rest =>
      obtain ⟨n, hn⟩ : ∃ n, m.length = n + 1 := ⟨m.length - 1, by omega⟩
      rw [Exhaustive.run, hfind]
      simp only
      rw [Exhaustive.run_skip _ (m.length - 1), hn, List.drop_succ_cons, Nat.add_sub_cancel]

/-- The index changes nothing from four notes on. -/
theorem compress_eq_exhaustive (k : Kernel) {minNotes : Nat} (h : windowSize ≤ minNotes)
    (stream : List Token) : compress k minNotes stream = Exhaustive.compress k minNotes stream := by
  obtain ⟨opcode, out, hk, hwrites, heq⟩ := compress_writes k minNotes stream
  rw [Nat.max_eq_right (Nat.le_trans (by decide) h)] at hwrites
  rw [heq, Output.tokens, hwrites.exhaustive h indexed_empty, Exhaustive.compress, hk]

/-- Four notes at a volume, played twice around a label. -/
def repeatedBar : List Token :=
  [.opcode 0x48, .byte 9, .note 18, .note 0x40, .byte 90, .note 20, .note 22, .label 7,
    .opcode 0x48, .byte 9, .note 18, .note 0x40, .byte 90, .note 20, .note 22]

theorem compress_repeatedBar : compress .extended 4 repeatedBar =
    [.opcode 0x48, .byte 9, .note 18, .note 0x40, .byte 90, .note 20, .note 22, .label 7,
      .opcode 0x46, .byte 4, .address (.offset 0)] := by
  rw [compress_eq_exhaustive .extended (Nat.le_refl 4)]
  decide

/-- **The compressor finds all that a search of the whole output finds**, if at least four notes are
asked for: a stream is compressed as if at every instruction of the source each offset of the output
with an instruction were tried, the longest passage taken, and among equally long ones that with the
smallest offset. -/
theorem compress_exhaustive {minNotes : Nat} (h : 4 ≤ minNotes) :
    (∀ k stream, compress k minNotes stream = Exhaustive.compress k minNotes stream) ∧
      ∀ cells source m, Exhaustive.find cells minNotes source = some m ↔
        Exhaustive.IsBest cells minNotes source m := by
  constructor
  · intro k stream
    exact compress_eq_exhaustive k h stream
  · intro cells source m
    exact Exhaustive.find_eq_some_iff

/-- A passage that stands at two offsets: a label behind it kept it from being replaced at the
second one. -/
theorem compress_exhaustive_repeatedNotes :
    4 ≤ 4 ∧ compress .extended 4 [.note 1, .note 2, .note 3, .note 4, .note 5, .note 1, .note 2,
        .note 3, .note 4, .label 0, .note 1, .note 2, .note 3, .note 4, .note 6] =
      [.note 1, .note 2, .note 3, .note 4, .note 5, .note 1, .note 2, .note 3, .note 4, .label 0,
        .opcode 0x46, .byte 4, .address (.offset 0), .note 6] := by
  refine ⟨Nat.le_refl 4, ?_⟩
  rw [(compress_exhaustive (Nat.le_refl 4)).1]
  decide

end Chiptune
