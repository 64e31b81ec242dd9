import Chiptune.Proofs.Compression
import Chiptune.Proofs.Renaming

/-!
# Streams with renamed symbols

Only tokens that can be replayed are compared and hashed, and none of them names a symbol. So
compression commutes with every renaming of symbols (`Compression.apply_rename`). Streams whose
symbols correspond one to one are renamed into each other (`exists_rename`).
-/

set_option autoImplicit false

namespace Chiptune

namespace Token

/-- The token with another number for its symbol. -/
def rename (ρ : Nat → Nat) : Token → Token
  | label id => .label (ρ id)
  | address (.symbol id) => .address (.symbol (ρ id))
  | token => token

/-- Symbol that a token names. -/
def symbol? : Token → Option Nat
  | label id | address (.symbol id) => some id
  | _ => none

variable (ρ : Nat → Nat)

@[simp]
theorem isReplayable_rename (t : Token) : (t.rename ρ).isReplayable = t.isReplayable := by
  cases t with
  | address target => cases target <;> rfl
  | _ => rfl

@[simp]
theorem startsInstruction_rename (t : Token) :
    (t.rename ρ).startsInstruction = t.startsInstruction := by
  cases t with
  | address target => cases target <;> rfl
  | _ => rfl

@[simp]
theorem isNote_rename (t : Token) : (t.rename ρ).isNote = t.isNote := by
  cases t with
  | address target => cases target <;> rfl
  | _ => rfl

@[simp]
theorem byteSize_rename (t : Token) : (t.rename ρ).byteSize = t.byteSize := by
  cases t with
  | address target => cases target <;> rfl
  | _ => rfl

theorem rename_of_isReplayable {t : Token} (h : t.isReplayable = true) : t.rename ρ = t := by
  cases t with
  | label id => cases h
  | address target => cases h
  | _ => rfl

/-- Comparing with a token that can be replayed. -/
theorem rename_eq_iff {t u : Token} (h : u.isReplayable = true) : t.rename ρ = u ↔ t = u := by
  constructor
  · intro heq
    have ht : t.isReplayable = true := by rw [← isReplayable_rename ρ, heq, h]
    rw [← heq, rename_of_isReplayable ρ ht]
  · rintro rfl
    exact rename_of_isReplayable ρ h

end Token

/-- Symbols that a stream names. -/
def symbolsOf (tokens : List Token) : List Nat := tokens.filterMap Token.symbol?

theorem byteSize_map_rename (ρ : Nat → Nat) (tokens : List Token) :
    byteSize (tokens.map (Token.rename ρ)) = byteSize tokens := by
  induction tokens with
  | nil => rfl
  | cons t tokens ih => rw [List.map_cons, byteSize, byteSize, ih, Token.byteSize_rename]

/-! ## Compression -/

namespace Compressor

variable (ρ : Nat → Nat)

/-- The cell with another number for the symbol of its token. -/
def Cell.rename (c : Cell) : Cell := ⟨c.token.rename ρ, c.isCopy⟩

/-- The output with other numbers of symbols. -/
def Output.rename (out : Output) : Output := ⟨out.cells.map (Cell.rename ρ), out.index⟩

/-- Comparing the source with earlier output does not look at symbols. -/
theorem extend_rename (cells : Array Cell) (minNotes target : Nat) (source : List Token)
    (p : Progress) :
    extend (cells.map (Cell.rename ρ)) minNotes target p (source.map (Token.rename ρ)) =
      extend cells minNotes target p source := by
  induction source generalizing p with
  | nil => rfl
  | cons token rest ih =>
    rw [List.map_cons, extend, extend, Array.getElem?_map]
    cases cells[target + p.length]? with
    | none => rfl
    | some cell =>
      have hstops : (!(cell.rename ρ).isCopy || !token.isReplayable ||
          (cell.rename ρ).token != token.rename ρ) =
          (!cell.isCopy || !token.isReplayable || cell.token != token) := by
        cases h : token.isReplayable with
        | false => simp
        | true =>
          have hne : (cell.token.rename ρ != token) = (cell.token != token) := by
            rw [Bool.eq_iff_iff]
            simp only [bne_iff_ne, ne_eq, Token.rename_eq_iff ρ h]
          simp only [Token.rename_of_isReplayable ρ h, Cell.rename, hne]
      have hboundary : (rest.map (Token.rename ρ)).head?.all Token.startsInstruction =
          rest.head?.all Token.startsInstruction := by
        cases rest <;> simp
      simp only [Option.map_some, Token.isReplayable_rename, hstops, hboundary,
        Token.isNote_rename, Token.startsInstruction_rename, ih]

theorem isIndexable_rename (window : List Token) :
    isIndexable (window.map (Token.rename ρ)) = isIndexable window := by
  unfold isIndexable
  congr 1
  · congr 1
    · rw [List.length_map]
    · cases window <;> simp
  · simp [List.all_map, Function.comp_def]

/-- Windows that are indexed name no symbols. -/
theorem map_rename_of_isIndexable {window : List Token} (h : isIndexable window = true) :
    window.map (Token.rename ρ) = window := by
  simp only [isIndexable, Bool.and_eq_true, List.all_eq_true] at h
  rw [List.map_congr_left fun t ht => Token.rename_of_isReplayable ρ (h.2 t ht), List.map_id']

theorem find_rename (out : Output) (minNotes : Nat) (source : List Token) :
    find (out.rename ρ) minNotes (source.map (Token.rename ρ)) = find out minNotes source := by
  unfold find
  simp only [← List.map_take, isIndexable_rename, Output.rename, extend_rename]
  split
  · rename_i h
    rw [map_rename_of_isIndexable ρ h]
  · rfl

theorem copy_rename (out : Output) (token : Token) :
    copy (out.rename ρ) (token.rename ρ) = (copy out token).rename ρ := by
  have hpush : (out.cells.map (Cell.rename ρ)).push ⟨token.rename ρ, true⟩ =
      (out.cells.push ⟨token, true⟩).map (Cell.rename ρ) := by
    rw [Array.map_push]
    rfl
  unfold copy
  simp only [Output.rename, hpush, Array.size_map]
  generalize out.cells.push ⟨token, true⟩ = cells
  have hwindow : ((cells.map (Cell.rename ρ)).extract (cells.size - windowSize)
      cells.size).toList = (cells.extract (cells.size - windowSize) cells.size).toList.map
        (Cell.rename ρ) := by
    rw [← Array.map_extract, Array.toList_map]
  rw [hwindow]
  generalize (cells.extract (cells.size - windowSize) cells.size).toList = window
  have htokens : (window.map (Cell.rename ρ)).map Cell.token =
      (window.map Cell.token).map (Token.rename ρ) := by
    simp [Cell.rename, Function.comp_def]
  have hcopies : (window.map (Cell.rename ρ)).all Cell.isCopy = window.all Cell.isCopy := by
    simp [Cell.rename, List.all_map, Function.comp_def]
  rw [htokens, hcopies, isIndexable_rename]
  split
  · rename_i h
    rw [Bool.and_eq_true] at h
    rw [map_rename_of_isIndexable ρ h.1]
  · rfl

theorem refer_rename (out : Output) (opcode : UInt8) (m : Match) :
    refer (out.rename ρ) opcode m = (refer out opcode m).rename ρ := by
  simp [refer, Output.rename, Reference.tokens, Cell.rename, Token.rename]

theorem run_rename (opcode : UInt8) (minNotes : Nat) (out : Output) (skip : Nat)
    (source : List Token) :
    run opcode minNotes (out.rename ρ) skip (source.map (Token.rename ρ)) =
      (run opcode minNotes out skip source).rename ρ := by
  induction source generalizing out skip with
  | nil => rfl
  | cons token rest ih =>
    cases skip with
    | succ skip => exact ih out skip
    | zero =>
      have hfind := find_rename ρ out minNotes (token :: rest)
      rw [List.map_cons] at hfind
      rw [List.map_cons, run, run, hfind]
      cases find out minNotes (token :: rest) with
      | some m => simp only [refer_rename, ih]
      | none => simp only [copy_rename, ih]

end Compressor

section

variable (ρ : Nat → Nat) (k : Kernel)

theorem compress_rename (minNotes : Nat) (stream : List Token) :
    compress k minNotes (stream.map (Token.rename ρ)) =
      (compress k minNotes stream).map (Token.rename ρ) := by
  unfold compress
  split
  · rename_i opcode _
    have hrun := Compressor.run_rename ρ opcode (max 1 minNotes) {} 0 stream
    have hempty : Compressor.Output.rename ρ {} = {} := by simp [Compressor.Output.rename]
    rw [hempty] at hrun
    rw [hrun]
    simp [Compressor.Output.rename, Compressor.Cell.rename, Function.comp_def]
  · rfl

/-- The best result so far, and the one of another threshold. -/
def tryThreshold (stream : List Token) (best : Option (List Token × Nat × Nat)) (threshold : Nat) :
    Option (List Token × Nat × Nat) :=
  let compressed := compress k threshold stream
  let size := byteSize compressed
  match best with
  | some (_, bestSize, _) => if size ≤ bestSize then some (compressed, size, threshold) else best
  | none => some (compressed, size, threshold)

theorem compressBest_eq (thresholds : List Nat) (stream : List Token) :
    compressBest k thresholds stream =
      match thresholds.foldl (tryThreshold k stream) none with
      | some (compressed, _, threshold) => (compressed, threshold)
      | none => (stream, 0) := rfl

/-- A result with renamed symbols has the same size. -/
def renameBest (best : List Token × Nat × Nat) : List Token × Nat × Nat :=
  (best.1.map (Token.rename ρ), best.2)

theorem tryThreshold_rename (stream : List Token) (best : Option (List Token × Nat × Nat))
    (threshold : Nat) :
    tryThreshold k (stream.map (Token.rename ρ)) (best.map (renameBest ρ)) threshold =
      (tryThreshold k stream best threshold).map (renameBest ρ) := by
  unfold tryThreshold
  simp only [compress_rename, byteSize_map_rename]
  cases best with
  | none => rfl
  | some best =>
    simp only [Option.map_some, renameBest]
    split <;> rfl

theorem compressBest_rename (thresholds : List Nat) (stream : List Token) :
    compressBest k thresholds (stream.map (Token.rename ρ)) =
      ((compressBest k thresholds stream).1.map (Token.rename ρ),
        (compressBest k thresholds stream).2) := by
  have hfold : ∀ best : Option (List Token × Nat × Nat),
      thresholds.foldl (tryThreshold k (stream.map (Token.rename ρ))) (best.map (renameBest ρ)) =
        (thresholds.foldl (tryThreshold k stream) best).map (renameBest ρ) := by
    induction thresholds with
    | nil => exact fun _ => rfl
    | cons threshold rest ih =>
      intro best
      rw [List.foldl_cons, List.foldl_cons, tryThreshold_rename, ih]
  have hbest := hfold none
  rw [Option.map_none] at hbest
  rw [compressBest_eq, compressBest_eq, hbest]
  cases thresholds.foldl (tryThreshold k stream) none <;> rfl

/-- **Compression commutes with a renaming of symbols.** -/
theorem Compression.apply_rename (c : Compression) (stream : List Token) :
    c.apply k (stream.map (Token.rename ρ)) =
      ((c.apply k stream).1.map (Token.rename ρ), (c.apply k stream).2) := by
  cases c with
  | off => rfl
  | fixed threshold => rw [apply, apply, compress_rename]
  | sweep low high => exact compressBest_rename ρ k _ stream

end

/-- A compressed stream names no other symbols. -/
theorem Compressor.Packs.symbolsOf_subset {k : Kernel} {opcode : UInt8}
    {stream source : List Token} (h : Packs k opcode stream source) :
    symbolsOf stream ⊆ symbolsOf source := by
  obtain ⟨parts, rfl, rfl, -⟩ := h
  intro id hid
  obtain ⟨token, htoken, hid⟩ := List.mem_filterMap.1 hid
  obtain ⟨p, hp, hmem⟩ := List.mem_flatMap.1 htoken
  refine List.mem_filterMap.2 ⟨token, List.mem_flatMap.2 ⟨p, hp, ?_⟩, hid⟩
  cases p with
  | literal ts => exact hmem
  | reference count target passage =>
    simp only [Part.tokens, Reference.tokens, List.mem_cons, List.not_mem_nil, or_false] at hmem
    rcases hmem with rfl | rfl | rfl <;> cases hid

/-! ## Corresponding symbols -/

/-- **Streams with corresponding symbols are renamed into each other** if no symbol corresponds to
two others. -/
theorem exists_rename {S : Nat → Nat → Prop} (hS : ∀ a b c, S a b → S a c → b = c)
    {tokens tokens' : List Token} (h : List.Forall₂ (Token.Renames S) tokens tokens') :
    ∃ ρ : Nat → Nat, tokens' = tokens.map (Token.rename ρ) ∧ ∀ a ∈ symbolsOf tokens, S a (ρ a) := by
  have hchoice : ∀ a, ∃ b, ∀ c, S a c → S a b := by
    intro a
    by_cases ha : ∃ b, S a b
    · obtain ⟨b, hb⟩ := ha
      exact ⟨b, fun _ _ => hb⟩
    · exact ⟨0, fun c hc => absurd ⟨c, hc⟩ ha⟩
  choose ρ hρ using hchoice
  refine ⟨ρ, ?_⟩
  induction h with
  | nil => exact ⟨rfl, by simp [symbolsOf]⟩
  | @cons t u tokens tokens' htu _ ih =>
    obtain ⟨hrest, hall⟩ := ih
    have hfirst : u = t.rename ρ ∧ ∀ a, t.symbol? = some a → S a (ρ a) := by
      cases htu with
      | @label a b hab =>
        refine ⟨by rw [Token.rename, hS a b (ρ a) hab (hρ a b hab)], fun c hc => ?_⟩
        cases hc
        exact hρ a b hab
      | address htarget =>
        obtain ⟨hab⟩ := htarget
        refine ⟨by rw [Token.rename, hS _ _ _ hab (hρ _ _ hab)], fun c hc => ?_⟩
        cases hc
        exact hρ _ _ hab
      | plain ht =>
        refine ⟨(Token.rename_of_isReplayable ρ ht).symm, fun c hc => ?_⟩
        cases t with
        | label id => cases ht
        | address target => cases ht
        | _ => cases hc
    refine ⟨by rw [List.map_cons, ← hrest, ← hfirst.1], fun a ha => ?_⟩
    rw [symbolsOf, List.filterMap_cons] at ha
    cases hsymbol : t.symbol? with
    | none =>
      rw [hsymbol] at ha
      exact hall a ha
    | some b =>
      rw [hsymbol] at ha
      rcases List.mem_cons.1 ha with rfl | ha
      · exact hfirst.2 a hsymbol
      · exact hall a ha

end Chiptune
