import Chiptune.Proofs.Matches

/-!
# Compression is lossless

A compressed stream is a sequence of parts (`Compressor.Part`): literals, which are labels and
complete instructions of the source, and references, each of which stands for a passage of the
source (`Replays`).

* `run_parts`: the compressor writes sound parts that stand for the source (by induction along the
  source, one complete instruction or one match at a time).
* `expandIn_parts`: sound parts are expanded to what they stand for.
* `expandReferences_compressed`: **compression is lossless**, for every setting.
-/

set_option autoImplicit false

namespace Chiptune

namespace Compressor

/-! ## Parts of a compressed stream -/

/-- Part of a compressed stream. -/
inductive Part
  /-- A label or a complete instruction of the source. -/
  | literal (tokens : List Token)
  /-- A reference and the passage of the source that it stands for. -/
  | reference (count target : Nat) (passage : List Token)

namespace Part

/-- Tokens of a part in the compressed stream. -/
def tokens (opcode : UInt8) : Part → List Token
  | literal ts => ts
  | reference count target _ => Reference.tokens opcode count target

/-- Tokens of the source that a part stands for. -/
def source : Part → List Token
  | literal ts => ts
  | reference _ _ passage => passage

/-- A part that can be played. -/
def Sound (k : Kernel) (stream : List Token) : Part → Prop
  | literal ts => (∃ id, ts = [.label id]) ∨
      ∃ token lead operands, ts = token :: operands ∧ token.lead? = some lead ∧
        IsOperands k lead operands
  | reference count target passage => Replays k stream count target passage

theorem Sound.append {k : Kernel} {stream : List Token} {p : Part} (h : p.Sound k stream)
    (more : List Token) : p.Sound k (stream ++ more) := by
  cases p with
  | literal ts => exact h
  | reference count target passage => exact Replays.append h more

end Part

/-- Tokens of a sequence of parts in the compressed stream. -/
def tokensOf (opcode : UInt8) (ps : List Part) : List Token := ps.flatMap (Part.tokens opcode)

/-- Tokens of the source that a sequence of parts stands for. -/
def sourceOf (ps : List Part) : List Token := ps.flatMap Part.source

/-- The first stream is a sequence of sound parts that stand for the second one. -/
def Packs (k : Kernel) (opcode : UInt8) (stream source : List Token) : Prop :=
  ∃ ps, stream = tokensOf opcode ps ∧ source = sourceOf ps ∧ ∀ p ∈ ps, p.Sound k stream

theorem tokensOf_cons (opcode : UInt8) (p : Part) (ps : List Part) :
    tokensOf opcode (p :: ps) = p.tokens opcode ++ tokensOf opcode ps :=
  List.flatMap_cons

theorem sourceOf_cons (p : Part) (ps : List Part) :
    sourceOf (p :: ps) = p.source ++ sourceOf ps :=
  List.flatMap_cons

@[simp]
theorem tokensOf_append (opcode : UInt8) (ps qs : List Part) :
    tokensOf opcode (ps ++ qs) = tokensOf opcode ps ++ tokensOf opcode qs :=
  List.flatMap_append

@[simp]
theorem sourceOf_append (ps qs : List Part) : sourceOf (ps ++ qs) = sourceOf ps ++ sourceOf qs :=
  List.flatMap_append

theorem isOperands_reference {k : Kernel} {opcode : UInt8} (hk : k.opcode .reference = some opcode)
    (count target : Nat) : IsOperands k opcode
      [.byte (UInt8.ofNat count), .address (.offset (UInt32.ofNat target))] :=
  ⟨[UInt8.ofNat count], [.offset (UInt32.ofNat target)], by rw [Kernel.decode_opcode hk]; rfl, rfl⟩

/-- The tokens of a reference are a complete instruction. -/
theorem complete_reference {k : Kernel} {opcode : UInt8} (hk : k.opcode .reference = some opcode)
    (count target : Nat) {rest : List Token} (h : Complete k rest) :
    Complete k (Reference.tokens opcode count target ++ rest) :=
  .instruction rfl (isOperands_reference hk count target) h

theorem complete_tokensOf {k : Kernel} {opcode : UInt8} (hk : k.opcode .reference = some opcode)
    {stream : List Token} {ps : List Part} (h : ∀ p ∈ ps, p.Sound k stream) :
    Complete k (tokensOf opcode ps) := by
  induction ps with
  | nil => exact .nil
  | cons p ps ih =>
    have ih := ih fun p hp => h p (List.mem_cons_of_mem _ hp)
    have hp := h p List.mem_cons_self
    rw [tokensOf_cons]
    cases p with
    | literal ts =>
      rcases hp with ⟨id, rfl⟩ | ⟨token, lead, operands, rfl, hl, ho⟩
      · exact .label ih
      · exact .instruction hl ho ih
    | reference count target passage => exact complete_reference hk count target ih

/-- A passage has at least one token, and a reference three. -/
theorem length_tokensOf_le {k : Kernel} {opcode : UInt8} {stream : List Token} {ps : List Part}
    (h : ∀ p ∈ ps, p.Sound k stream) :
    (tokensOf opcode ps).length ≤ 3 * (sourceOf ps).length := by
  induction ps with
  | nil => exact Nat.le_refl _
  | cons p ps ih =>
    have ih := ih fun p hp => h p (List.mem_cons_of_mem _ hp)
    rw [tokensOf_cons, sourceOf_cons, List.length_append, List.length_append]
    cases p with
    | literal ts =>
      rw [Part.tokens, Part.source]
      omega
    | reference count target passage =>
      have hreplays : Replays k stream count target passage := h _ List.mem_cons_self
      have hpos : 0 < passage.length := by
        obtain ⟨front, b, operands, rfl, -⟩ := hreplays.endsWithNote
        exact List.length_pos_iff.2 (by simp)
      simp only [Part.tokens, Part.source, Reference.tokens, List.length_cons, List.length_nil]
      omega

/-- A packed stream is at most three times as long as its source. -/
theorem Packs.length_le {k : Kernel} {opcode : UInt8} {stream source : List Token}
    (h : Packs k opcode stream source) : stream.length ≤ 3 * source.length := by
  obtain ⟨ps, rfl, rfl, hps⟩ := h
  exact length_tokensOf_le hps

/-! ## What the compressor writes -/

/-- Tokens of the output. -/
def Output.tokens (out : Output) : List Token := out.cells.toList.map Cell.token

@[simp]
theorem tokens_copy (out : Output) (t : Token) : (copy out t).tokens = out.tokens ++ [t] := by
  have hcells : (copy out t).cells = out.cells.push ⟨t, true⟩ := by
    unfold copy
    simp only
    split <;> rfl
  simp [Output.tokens, hcells]

@[simp]
theorem tokens_refer (out : Output) (opcode : UInt8) (m : Match) :
    (refer out opcode m).tokens = out.tokens ++ Reference.tokens opcode m.notes m.target := by
  simp [Output.tokens, refer, Reference.tokens]

theorem tokens_foldl_copy (out : Output) (ts : List Token) :
    (ts.foldl copy out).tokens = out.tokens ++ ts := by
  induction ts generalizing out with
  | nil => simp
  | cons t ts ih => simp [ih]

variable {k : Kernel} {opcode : UInt8} {minNotes : Nat}

theorem run_skip (out : Output) (n : Nat) (source : List Token) :
    run opcode minNotes out n source = run opcode minNotes out 0 (source.drop n) := by
  induction source generalizing n with
  | nil => simp [run]
  | cons t source ih =>
    cases n with
    | zero => rfl
    | succ n =>
      rw [run, ih]
      rfl

theorem find_eq_none {out : Output} {t : Token} {source : List Token}
    (h : t.startsInstruction = false) : find out minNotes (t :: source) = none := by
  cases hf : find out minNotes (t :: source) with
  | none => rfl
  | some m =>
    have := (find_some hf).1
    simp [h] at this

theorem run_copy {out : Output} {t : Token} {source : List Token}
    (h : find out minNotes (t :: source) = none) :
    run opcode minNotes out 0 (t :: source) = run opcode minNotes (copy out t) 0 source := by
  rw [run]
  simp only [h]

/-- Tokens that begin no instruction are copied. -/
theorem run_operands {operands source : List Token} (out : Output)
    (h : ∀ t ∈ operands, t.startsInstruction = false) :
    run opcode minNotes out 0 (operands ++ source) =
      run opcode minNotes (operands.foldl copy out) 0 source := by
  induction operands generalizing out with
  | nil => rfl
  | cons t operands ih =>
    rw [List.cons_append, run_copy (find_eq_none (h t List.mem_cons_self)),
      ih _ (fun t ht => h t (List.mem_cons_of_mem _ ht))]
    rfl

/-- A match agrees with the source along its length, and the source begins with an instruction. -/
theorem find_agrees {out : Output} {source : List Token} {m : Match}
    (h : find out minNotes source = some m) :
    source.head?.any Token.startsInstruction = true ∧
      Agrees out.cells minNotes m.target {} source m m.length := by
  obtain ⟨hstart, target, n, hm⟩ := find_some h
  have htarget : m.target = target := by rw [hm.eq]
  have hlength : m.length = n := by simp [hm.eq]
  refine ⟨hstart, ?_⟩
  rw [htarget, hlength]
  exact hm

/-- A reference stands for as many tokens as the match is long. -/
theorem run_refer {out : Output} {m : Match} {token : Token} {rest : List Token}
    (h : find out minNotes (token :: rest) = some m) :
    run opcode minNotes out 0 (token :: rest) =
      run opcode minNotes (refer out opcode m) 0 ((token :: rest).drop m.length) := by
  obtain ⟨n, hn⟩ : ∃ n, m.length = n + 1 := ⟨m.length - 1, by have := (find_agrees h).2.pos; omega⟩
  rw [run]
  simp only [h]
  rw [run_skip, hn, List.drop_succ_cons, Nat.add_sub_cancel]

/-- A match in an output of sound parts stands for a passage of the source once the reference to it
is written. -/
theorem Agrees.replays {out : Output} {target n : Nat} {source : List Token} {m : Match}
    (h : Agrees out.cells minNotes target {} source m n) (hs : Complete k source)
    (hstart : source.head?.any Token.startsInstruction = true) (hout : Complete k out.tokens) :
    Replays k (out.tokens ++ Reference.tokens opcode m.notes m.target) m.notes m.target
      (source.take n) := by
  have htarget : m.target = target := by rw [h.eq]
  have hnotes : m.notes = noteCount (source.take n) := by simp [h.eq]
  have hcomplete := (hs.split h.boundary).1
  have hsame : ∀ i < n, out.tokens[target + i]? = source[i]? := by
    intro i hi
    simpa [Output.tokens] using h.same i hi
  -- the passage stands in the output
  obtain ⟨after, hdrop⟩ : ∃ after, out.tokens.drop target = source.take n ++ after := by
    refine ⟨out.tokens.drop (target + n), ?_⟩
    have htake : (out.tokens.drop target).take n = source.take n := by
      apply List.ext_getElem?
      intro i
      rw [List.getElem?_take, List.getElem?_take]
      split
      · rename_i hi
        rw [List.getElem?_drop, hsame i hi]
      · rfl
    rw [← htake, ← List.drop_drop, List.take_append_drop]
  -- and what follows it begins at a boundary
  have hafter : AtBoundary after := by
    have hbd : AtBoundary (out.tokens.drop target) := by
      intro t ht
      rw [List.head?_drop, ← Nat.add_zero target, hsame 0 h.pos, Option.mem_def] at ht
      rw [List.head?_eq_getElem?, ht] at hstart
      exact .inl (by simpa using hstart)
    have hc := (hout.split hbd).2
    rw [hdrop] at hc
    exact (hcomplete.rest hc).atBoundary
  refine ⟨hcomplete, h.replayable, ?_, hnotes.symm, h.notes_le, ?_⟩
  · rcases endsWithNote_of_lastIsNote h.ends with hend | ⟨hfalse, -⟩
    · exact hend
    · cases hfalse
  · rw [htarget, List.drop_append_of_le_length, hdrop, List.append_assoc]
    · cases after with
      | nil => exact ⟨_, _, rfl, .inl rfl⟩
      | cons t after => exact ⟨t, _, rfl, hafter t rfl⟩
    · -- the target lies in the output, since a token of the source was found there
      have hlen : 0 < source.length := Nat.lt_of_lt_of_le h.pos h.le
      have h0 := hsame 0 h.pos
      rw [List.getElem?_eq_getElem hlen] at h0
      have := (List.getElem?_eq_some_iff.1 h0).1
      omega

/-- **The compressor writes sound parts that stand for the source.** -/
theorem run_parts (hk : k.opcode .reference = some opcode) {source : List Token} {out : Output}
    {ps : List Part} (hsource : Complete k source) (hout : out.tokens = tokensOf opcode ps)
    (hps : ∀ p ∈ ps, p.Sound k out.tokens) :
    ∃ qs, (run opcode minNotes out 0 source).tokens = tokensOf opcode (ps ++ qs) ∧
      sourceOf qs = source ∧
      ∀ p ∈ ps ++ qs, p.Sound k (run opcode minNotes out 0 source).tokens := by
  induction hn : source.length using Nat.strongRecOn generalizing source out ps with
  | ind len ih =>
    -- one more part, and the rest of the source by induction
    have next : ∀ (out' : Output) (q : Part) (rest : List Token), Complete k rest →
        out'.tokens = out.tokens ++ q.tokens opcode → q.Sound k out'.tokens →
        q.source ++ rest = source → rest.length < len →
        ∃ qs, (run opcode minNotes out' 0 rest).tokens = tokensOf opcode (ps ++ qs) ∧
          sourceOf qs = source ∧
          ∀ p ∈ ps ++ qs, p.Sound k (run opcode minNotes out' 0 rest).tokens := by
      intro out' q rest hrest hout' hq hsrc hlt
      have hps' : ∀ p ∈ ps ++ [q], p.Sound k out'.tokens := by
        intro p hp
        rcases List.mem_append.1 hp with hp | hp
        · exact hout' ▸ (hps p hp).append _
        · obtain rfl := List.mem_singleton.1 hp
          exact hq
      have hout'' : out'.tokens = tokensOf opcode (ps ++ [q]) := by
        rw [hout', hout, tokensOf_append]
        simp [tokensOf]
      obtain ⟨qs, ht, hs, hsound⟩ := ih rest.length hlt hrest hout'' hps' rfl
      rw [List.append_assoc, List.singleton_append] at ht hsound
      refine ⟨q :: qs, ht, ?_, hsound⟩
      rw [← hsrc, ← hs]
      simp [sourceOf]
    have hcomplete : Complete k out.tokens := hout ▸ complete_tokensOf hk hps
    cases hsource with
    | nil => exact ⟨[], by simpa [run] using hout, rfl, by simpa [run] using hps⟩
    | @label id rest hrest =>
      rw [run_copy (find_eq_none rfl)]
      refine next _ (.literal [.label id]) rest hrest (tokens_copy _ _) (.inl ⟨id, rfl⟩) rfl ?_
      simp only [List.length_cons] at hn
      omega
    | @instruction token lead operands rest hl ho hrest =>
      cases hf : find out minNotes (token :: (operands ++ rest)) with
      | none =>
        rw [run_copy hf, run_operands _ (fun t ht => by
          simpa using fun hs => ho.not_boundary t ht (.inl hs))]
        refine next _ (.literal (token :: operands)) rest hrest ?_
          (.inr ⟨token, lead, operands, rfl, hl, ho⟩) rfl ?_
        · simp [tokens_foldl_copy, Part.tokens]
        · simp only [List.length_cons, List.length_append] at hn
          omega
      | some m =>
        obtain ⟨hstart, hm⟩ := find_agrees hf
        have hpos := hm.pos
        have hsource : Complete k (token :: (operands ++ rest)) := .instruction hl ho hrest
        rw [run_refer hf]
        refine next _ (.reference m.notes m.target
            ((token :: (operands ++ rest)).take m.length)) _
          (hsource.split hm.boundary).2 (tokens_refer _ _ _) ?_ (List.take_append_drop _ _) ?_
        · rw [tokens_refer]
          exact hm.replays hsource hstart hcomplete
        · rw [List.length_drop, ← hn]
          simp only [List.length_cons]
          omega

/-! ## Every result of compression is a sequence of sound parts -/

/-- A stream stands for itself. -/
theorem packs_self (opcode : UInt8) {stream : List Token} (h : Complete k stream) :
    Packs k opcode stream stream := by
  suffices hlit : ∃ ps, stream = tokensOf opcode ps ∧ stream = sourceOf ps ∧
      ∀ (any : List Token), ∀ p ∈ ps, p.Sound k any by
    obtain ⟨ps, ht, hs, hps⟩ := hlit
    exact ⟨ps, ht, hs, hps stream⟩
  induction h with
  | nil => exact ⟨[], rfl, rfl, by simp⟩
  | @label id rest _ ih =>
    obtain ⟨ps, ht, hs, hps⟩ := ih
    refine ⟨.literal [.label id] :: ps, congrArg (_ :: ·) ht, congrArg (_ :: ·) hs, ?_⟩
    intro any p hp
    rcases List.mem_cons.1 hp with rfl | hp
    · exact .inl ⟨id, rfl⟩
    · exact hps any p hp
  | @instruction token lead operands rest hl ho _ ih =>
    obtain ⟨ps, ht, hs, hps⟩ := ih
    refine ⟨.literal (token :: operands) :: ps, congrArg ((token :: operands) ++ ·) ht,
      congrArg ((token :: operands) ++ ·) hs, ?_⟩
    intro any p hp
    rcases List.mem_cons.1 hp with rfl | hp
    · exact .inr ⟨token, lead, operands, rfl, hl, ho⟩
    · exact hps any p hp

end Compressor

open Compressor in
/-- **A compressed stream is a sequence of sound parts that stand for the source.** -/
theorem compress_packs {k : Kernel} {opcode : UInt8} (hk : k.opcode .reference = some opcode)
    {stream : List Token} (h : Complete k stream) (minNotes : Nat) :
    Packs k opcode (compress k minNotes stream) stream := by
  have hrun : ∃ qs, (run opcode (max 1 minNotes) {} 0 stream).tokens = tokensOf opcode ([] ++ qs) ∧
      sourceOf qs = stream ∧
      ∀ p ∈ [] ++ qs, p.Sound k (run opcode (max 1 minNotes) {} 0 stream).tokens :=
    run_parts hk h rfl (by simp)
  obtain ⟨qs, ht, hs, hsound⟩ := hrun
  have heq : compress k minNotes stream =
      (run opcode (max 1 minNotes) {} 0 stream).tokens := by
    simp only [compress, hk]
    rfl
  rw [heq]
  exact ⟨qs, ht, hs.symm, hsound⟩

/-- What the smallest result of some thresholds is: one of the results, or the stream itself. -/
theorem compressBest_cases (k : Kernel) (thresholds : List Nat) (stream : List Token) :
    (compressBest k thresholds stream).1 = stream ∨
      ∃ t ∈ thresholds, (compressBest k thresholds stream).1 = compress k t stream := by
  unfold compressBest
  simp only
  split
  · rename_i compressed size threshold hfold
    have hbest := foldl_choice (p := fun t b => b.1 = compress k t stream) hfold ?_
    · rcases hbest with hnone | ⟨t, ht, he⟩
      · cases hnone
      · exact .inr ⟨t, ht, he⟩
    · intro best t
      cases best with
      | none => exact .inr ⟨_, rfl, rfl⟩
      | some b =>
        by_cases hle : byteSize (compress k t stream) ≤ b.2.1
        · exact .inr ⟨_, if_pos hle, rfl⟩
        · exact .inl (if_neg hle)
  · exact .inl rfl

namespace Compressor

variable {k : Kernel} {opcode : UInt8}

theorem compressBest_packs (hk : k.opcode .reference = some opcode) {stream : List Token}
    (h : Complete k stream) (thresholds : List Nat) :
    Packs k opcode (compressBest k thresholds stream).1 stream := by
  rcases compressBest_cases k thresholds stream with he | ⟨t, -, he⟩
  · rw [he]
    exact packs_self opcode h
  · rw [he]
    exact compress_packs hk h t

/-- **Every setting of compression gives sound parts that stand for the source.** -/
theorem apply_packs (hk : k.opcode .reference = some opcode) {stream : List Token}
    (h : Complete k stream) (c : Compression) : Packs k opcode (c.apply k stream).1 stream := by
  cases c with
  | off => exact packs_self opcode h
  | fixed threshold => exact compress_packs hk h threshold
  | sweep low high => exact compressBest_packs hk h _

/-! ## Expansion -/

/-- Tokens without references are expanded to themselves. -/
theorem expandIn_literal {stream ts rest : List Token}
    (hts : ∀ o, Token.address (.offset o) ∉ ts) (hrest : AtBoundary rest) :
    Reference.expandIn stream (some opcode) (ts ++ rest) =
      (Reference.expandIn stream (some opcode) rest).map (ts ++ ·) := by
  induction ts with
  | nil => simp
  | cons t ts ih =>
    have ih := ih fun o ho => hts o (List.mem_cons_of_mem _ ho)
    rw [List.cons_append, Reference.expandIn, ih]
    · cases Reference.expandIn stream (some opcode) rest <;> rfl
    · -- a reference would reach over the boundary
      intro op count target more ht hmore
      have hbyte : ¬ (Token.byte count).IsBoundary := by
        simp [Token.IsBoundary, Token.startsInstruction, Token.isLabel]
      have haddress : ¬ (Token.address (.offset target)).IsBoundary := by
        simp [Token.IsBoundary, Token.startsInstruction, Token.isLabel]
      cases ts with
      | nil =>
        obtain rfl : rest = _ := hmore
        exact hbyte (hrest _ rfl)
      | cons t' ts =>
        obtain ⟨-, hmore⟩ := List.cons.inj hmore
        cases ts with
        | nil =>
          obtain rfl : rest = _ := hmore
          exact haddress (hrest _ rfl)
        | cons t'' ts =>
          obtain ⟨rfl, -⟩ := List.cons.inj hmore
          exact hts target (by simp)

/-- A sound reference is expanded to its passage if its target fits 32 bits. -/
theorem expandIn_reference {stream passage rest : List Token} {count target : Nat}
    (h : Replays k stream count target passage) (hsize : stream.length ≤ UInt32.size) :
    Reference.expandIn stream (some opcode) (Reference.tokens opcode count target ++ rest) =
      (Reference.expandIn stream (some opcode) rest).map (passage ++ ·) := by
  have hlt := h.target_lt
  simp only [Reference.tokens, List.cons_append, List.nil_append, Reference.expandIn, if_true]
  rw [h.toNat_target hsize, if_neg (by omega), h.toNat_count, h.replay_eq]

/-- **Sound parts are expanded to what they stand for.** -/
theorem expandIn_parts (hk : k.opcode .reference = some opcode) {stream : List Token}
    {ps : List Part} (hps : ∀ p ∈ ps, p.Sound k stream) (hsize : stream.length ≤ UInt32.size)
    (hl : ∀ o, Token.address (.offset o) ∉ sourceOf ps) :
    Reference.expandIn stream (some opcode) (tokensOf opcode ps) = some (sourceOf ps) := by
  induction ps with
  | nil => simp [tokensOf, sourceOf, Reference.expandIn]
  | cons p ps ih =>
    have hps' : ∀ p ∈ ps, p.Sound k stream := fun p hp => hps p (List.mem_cons_of_mem _ hp)
    rw [sourceOf_cons] at hl ⊢
    have ih := ih hps' fun o ho => hl o (List.mem_append_right _ ho)
    have hrest := (complete_tokensOf hk hps').atBoundary
    rw [tokensOf_cons]
    cases p with
    | literal ts =>
      rw [Part.tokens, expandIn_literal _ hrest, ih]
      · rfl
      · exact fun o ho => hl o (List.mem_append_left _ ho)
    | reference count target passage =>
      rw [Part.tokens, expandIn_reference (hps _ List.mem_cons_self) hsize, ih]
      rfl

theorem Packs.expand (hk : k.opcode .reference = some opcode) {stream source : List Token}
    (h : Packs k opcode stream source) (hsize : stream.length ≤ UInt32.size)
    (hl : ∀ o, Token.address (.offset o) ∉ source) :
    expandReferences k stream = some source := by
  obtain ⟨ps, ht, hs, hps⟩ := h
  rw [expandReferences, hk]
  rw [hs] at hl ⊢
  rw [← expandIn_parts hk hps hsize hl, ← ht]

end Compressor

/-- Both kernels can play references. -/
theorem Kernel.opcode_reference (k : Kernel) : ∃ opcode, k.opcode .reference = some opcode := by
  cases k <;> exact ⟨_, rfl⟩

/-- **Compression is lossless**: a complete stream that has no addresses within itself is got back
from its compressed form, whatever the thresholds are; in particular every reference points into
the compressed stream. The positions of the compressed stream have to be numbers of 32 bits, which
is all that a reference holds. -/
theorem expandReferences_compressed {k : Kernel} {stream : List Token} (h : Complete k stream)
    (hl : ∀ o, Token.address (.offset o) ∉ stream) :
    (∀ minNotes, (compress k minNotes stream).length ≤ UInt32.size →
      expandReferences k (compress k minNotes stream) = some stream) ∧
    (∀ thresholds, (compressBest k thresholds stream).1.length ≤ UInt32.size →
      expandReferences k (compressBest k thresholds stream).1 = some stream) ∧
    ∀ c : Compression, (c.apply k stream).1.length ≤ UInt32.size →
      expandReferences k (c.apply k stream).1 = some stream := by
  obtain ⟨opcode, hk⟩ := k.opcode_reference
  refine ⟨fun minNotes hsize => ?_, fun thresholds hsize => ?_, fun c hsize => ?_⟩
  · exact (compress_packs hk h minNotes).expand hk hsize hl
  · exact (Compressor.compressBest_packs hk h thresholds).expand hk hsize hl
  · exact (Compressor.apply_packs hk h c).expand hk hsize hl

/-- Two notes at a volume, played twice around a label. -/
theorem expandReferences_repeated_notes :
    (Complete .extended [.opcode 0x48, .byte 9, .note 18, .note 20, .label 7, .opcode 0x48, .byte 9,
        .note 18, .note 20] ∧
      ∀ o, Token.address (.offset o) ∉ [.opcode 0x48, .byte 9, .note 18, .note 20, .label 7,
        .opcode 0x48, .byte 9, .note 18, .note 20]) ∧
    (∀ n, expandReferences .extended (compress .extended n [.opcode 0x48, .byte 9, .note 18,
        .note 20, .label 7, .opcode 0x48, .byte 9, .note 18, .note 20]) =
      some [.opcode 0x48, .byte 9, .note 18, .note 20, .label 7, .opcode 0x48, .byte 9, .note 18,
        .note 20]) := by
  have hi : ∀ i ∈ ([.op .volume [9] [], .note (18 + noteBias) false, .note (20 + noteBias) false,
      .label 7, .op .volume [9] [], .note (18 + noteBias) false, .note (20 + noteBias) false] :
      List Instruction), i.HasOperands := by decide
  have h := Complete.encodeAll (k := .extended) hi rfl
  have hl : ∀ o, Token.address (.offset o) ∉ ([.opcode 0x48, .byte 9, .note 18, .note 20, .label 7,
      .opcode 0x48, .byte 9, .note 18, .note 20] : List Token) := by simp
  have hsize : ∀ n, (compress .extended n [.opcode 0x48, .byte 9, .note 18, .note 20, .label 7,
      .opcode 0x48, .byte 9, .note 18, .note 20]).length ≤ UInt32.size := fun n =>
    Nat.le_trans (compress_packs (k := .extended) rfl h n).length_le (by decide)
  exact ⟨⟨h, hl⟩, fun n => (expandReferences_compressed h hl).1 n (hsize n)⟩

end Chiptune
