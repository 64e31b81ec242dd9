import Chiptune.Proofs.Passages
import Chiptune.Proofs.Rows

/-!
# What a generated stream consists of

A generated stream is a sequence of complete instructions, of which only the last one makes a driver
do anything but go on (`Playable`). Its labels mark the loop (`generate_labels`), and its symbols
have numbers of 32 bits as long as there are no more names (`generate_words`).
-/

set_option autoImplicit false

namespace Chiptune

/-- The addresses of the instruction are those of symbols. -/
def Instruction.UsesSymbols : Instruction → Prop
  | op _ _ targets => ∀ t ∈ targets, ∃ id, t = .symbol id
  | _ => True

/-- What a stream has to be for a driver to play it from its first to its last instruction. -/
structure Playable (k : Kernel) (tokens : List Token) : Prop where
  complete : Complete k tokens
  tagged : Player.Tagged k tokens
  symbols : ∀ i ∈ disassemble k tokens, i.UsesSymbols
  ends : Player.Ends (disassemble k tokens)

namespace Instruction

variable {k : Kernel}

theorem mem_encodeAll {is : List Instruction} {tokens : List Token} {token : Token}
    (h : encodeAll k is = .ok tokens) (ht : token ∈ tokens) :
    ∃ i ∈ is, ∃ ts, i.encode k = .ok ts ∧ token ∈ ts := by
  induction is generalizing tokens with
  | nil =>
    cases h
    cases ht
  | cons i is ih =>
    obtain ⟨first, others, hfirst, hothers, rfl⟩ := encodeAll_cons_ok h
    rcases List.mem_append.1 ht with ht | ht
    · exact ⟨i, List.mem_cons_self, first, hfirst, ht⟩
    · obtain ⟨j, hj, hrest⟩ := ih hothers ht
      exact ⟨j, List.mem_cons_of_mem _ hj, hrest⟩

/-- A label token is that of a label. -/
theorem label_of_mem_encode {i : Instruction} {ts : List Token} {id : Nat} (hi : i.HasOperands)
    (h : i.encode k = .ok ts) (ht : .label id ∈ ts) : i = .label id := by
  rcases encode_ok hi h with ⟨id', rfl, rfl⟩ | ⟨lead, bytes, targets, rfl, -, -⟩
  · cases List.mem_singleton.1 ht
    rfl
  · rcases List.mem_cons.1 ht with heq | ht
    · split at heq <;> cases heq
    · simp at ht

/-- The first token of an instruction says whether it takes up a row. -/
theorem tagged_encode {i : Instruction} {ts : List Token} (hi : i.HasOperands)
    (h : i.encode k = .ok ts) : Player.Tagged k ts := by
  rcases encode_ok hi h with ⟨id, rfl, rfl⟩ | ⟨lead, bytes, targets, rfl, -, hinstr⟩
  · intro token ht lead hl
    cases List.mem_singleton.1 ht
    cases hl
  · intro token ht lead' hl
    rcases List.mem_cons.1 ht with rfl | ht
    · rw [Player.advancesRow_instruction hinstr] at hl ⊢
      cases hadvances : (k.decode lead).advancesRow <;> simp only [hadvances, if_true, if_false,
        Bool.false_eq_true] at hl ⊢
      all_goals
        cases hl
        exact hadvances.symm
    · rcases List.mem_append.1 ht with ht | ht
      all_goals
        obtain ⟨x, -, rfl⟩ := List.mem_map.1 ht
        cases hl

theorem tagged_encodeAll {is : List Instruction} {tokens : List Token}
    (hi : ∀ i ∈ is, i.HasOperands) (h : encodeAll k is = .ok tokens) : Player.Tagged k tokens := by
  intro token ht
  obtain ⟨i, hmem, ts, hts, ht⟩ := mem_encodeAll h ht
  exact tagged_encode (hi i hmem) hts token ht

theorem plain_of_isSetting {i : Instruction} (h : i.IsSetting) :
    i.isControl = false ∧ i.UsesSymbols := by
  cases i with
  | op o bytes targets =>
    refine ⟨?_, h.2.2.2⟩
    have ho := h.1
    cases o <;> first | rfl | cases ho
  | instrument slot => exact ⟨rfl, trivial⟩
  | _ => exact h.elim

end Instruction

namespace Stream

variable {job : Job} {rows : List Row} {speeds : List (Option UInt8)} {loopAt : Option Nat}

theorem Strikes.plain {channel : Channel} {i : Instruction} {p : Played} (h : Strikes channel i p) :
    i.isControl = false ∧ i.UsesSymbols := by
  cases h <;> exact ⟨rfl, by simp [Instruction.UsesSymbols]⟩

/-- The loop marks of a run carry the name of the loop. -/
theorem Runs.marks {index : Nat} {rest : List Row} {later : List (Option UInt8)} {v v' : Voice}
    {pieces : List Piece} (h : Runs job rows speeds loopAt index rest later v pieces v')
    (hv : v.row = []) {id : Nat} (hid : .mark id ∈ pieces) :
    v'.tables.symbols.name? id =
      some ((Label.streamLoop job.songIndex job.channel.shortName).text job.stem) := by
  induction h with
  | nil => cases hid
  | @cons index row rest later v u v' advances more hrow hmore ih =>
    have hplays := Voice.plays_processRow (by rw [row_marked, hv]) hrow
    rcases List.mem_append.1 hid with hid | hid
    · have hgrows : (marked job rows speeds loopAt index v).2.tables.Extends v'.tables :=
        hplays.tables.trans (hmore.tables rfl)
      refine hgrows.name? ?_
      unfold marked at hid ⊢
      split at hid
      · rename_i hloop
        rw [if_pos hloop]
        cases List.mem_singleton.1 hid
        exact Tables.name?_symbol _ _
      · cases hid
    · rcases List.mem_cons.1 hid with heq | hid
      · cases heq
      · exact ih rfl hid

/-- **What a generated stream consists of.** -/
theorem generate_playable {t t' : Tables} {tokens : List Token}
    (h : generate job t = (.ok tokens, t')) : Playable job.kernel tokens := by
  obtain ⟨rows, speeds, loopAt, pieces, v, -, -, -, hruns, htokens, rfl⟩ := generate_ok h
  have hoperands := hruns.hasOperands rfl v
  have hdisassemble := disassemble_encodeAll hoperands htokens
  have hbody : ∀ i ∈ join job.kernel {} pieces, i.isControl = false ∧ i.UsesSymbols :=
    forall_join job.kernel (fun _ _ => ⟨rfl, trivial⟩) (fun _ => ⟨rfl, trivial⟩)
      (fun _ _ => ⟨rfl, trivial⟩)
      (hruns.forall_row (fun _ => Instruction.plain_of_isSetting) (fun _ _ => Strikes.plain) rfl) {}
  have hlast : Driver.leaves (lastInstruction job loopAt v) = true ∧
      (lastInstruction job loopAt v).UsesSymbols := by
    unfold lastInstruction
    split <;> exact ⟨rfl, by simp [Instruction.UsesSymbols]⟩
  exact
    { complete := .encodeAll hoperands htokens
      tagged := Instruction.tagged_encodeAll hoperands htokens
      symbols := by
        rw [hdisassemble]
        intro i hi
        rcases List.mem_append.1 hi with hi | hi
        · exact (hbody i hi).2
        · rw [List.mem_singleton.1 hi]
          exact hlast.2
      ends := ⟨_, _, hdisassemble, fun i hi => (hbody i hi).1, hlast.1⟩ }

/-- The only labels of a generated stream mark its loop. -/
theorem generate_labels {t t' : Tables} {tokens : List Token}
    (h : generate job t = (.ok tokens, t')) {id : Nat} (hid : .label id ∈ tokens) :
    t'.symbols.name? id =
      some ((Label.streamLoop job.songIndex job.channel.shortName).text job.stem) := by
  obtain ⟨rows, speeds, loopAt, pieces, v, -, -, -, hruns, htokens, rfl⟩ := generate_ok h
  -- the label is one of the instructions, so it comes from a loop mark
  obtain ⟨i, hi, ts, hts, hid⟩ := Instruction.mem_encodeAll htokens hid
  obtain rfl := Instruction.label_of_mem_encode (hruns.hasOperands rfl v i hi) hts hid
  have hrows : ∀ is advances, .row is advances ∈ pieces → ∀ i ∈ is, ∀ id, i ≠ .label id := by
    refine hruns.forall_row ?_ ?_ rfl
    · rintro _ hsetting id rfl
      exact hsetting
    · rintro _ p hstrikes id rfl
      cases hstrikes
  have hlabels : ∀ i ∈ join job.kernel {} pieces, ∀ id, i = .label id →
      v.tables.symbols.name? id =
        some ((Label.streamLoop job.songIndex job.channel.shortName).text job.stem) := by
    refine forall_join job.kernel (by simp) (by simp) ?_ ?_ {}
    · rintro id hid _ ⟨⟩
      exact hruns.marks rfl hid
    · exact fun is advances hrow i hi id heq => absurd heq (hrows is advances hrow i hi id)
  rcases List.mem_append.1 hi with hi | hi
  · exact (extends_ending v).name? (hlabels _ hi id rfl)
  · unfold lastInstruction at hi
    split at hi <;> simp at hi

theorem numbered_lastInstruction (v : Voice) :
    (lastInstruction job loopAt v).Numbered (ending job loopAt v).tables.symbols.names.size := by
  cases loopAt with
  | none => simp [lastInstruction, Instruction.Numbered]
  | some loop =>
    have hsupports : job.kernel.supports .jump = true := by cases job.kernel <;> rfl
    rw [ending, Voice.issueAt, if_pos hsupports]
    intro id hid
    obtain rfl : id = loopLabel job v.tables := by simpa using hid
    exact Tables.lt_of_name? (v.tables.name?_symbol _)

/-- The symbols of a generated stream are among those of the tables. -/
theorem generate_numbered {t t' : Tables} {tokens : List Token}
    (h : generate job t = (.ok tokens, t')) :
    ∀ i ∈ disassemble job.kernel tokens, i.Numbered t'.symbols.names.size := by
  obtain ⟨rows, speeds, loopAt, pieces, v, -, -, -, hruns, htokens, rfl⟩ := generate_ok h
  have hextends : v.tables.Extends (ending job loopAt v).tables := extends_ending v
  have hgrows := hextends.size_names
  rw [disassemble_encodeAll (hruns.hasOperands rfl v) htokens]
  refine List.forall_mem_append.2 ⟨?_, List.forall_mem_singleton.2 (numbered_lastInstruction v)⟩
  refine forall_join job.kernel (fun _ _ => trivial) (fun _ => trivial) (fun id hid => ?_)
    (fun is advances hrow i hi => (hruns.numbered rfl is advances hrow i hi).mono hgrows) {}
  exact Nat.lt_of_lt_of_le (Tables.lt_of_name? (hruns.marks rfl hid)) hgrows

/-- **Up to 2^32 names, the symbols of a generated stream are numbers of 32 bits.** -/
theorem generate_words {t t' : Tables} {tokens : List Token}
    (h : generate job t = (.ok tokens, t')) (hnames : t'.symbols.names.size ≤ UInt32.size) :
    ∀ i ∈ disassemble job.kernel tokens, i.Numbered UInt32.size :=
  fun i hi => (generate_numbered h i hi).mono hnames

end Stream

end Chiptune
