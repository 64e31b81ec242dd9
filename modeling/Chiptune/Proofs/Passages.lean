import Chiptune.Proofs.Compression
import Chiptune.Proofs.Player

/-!
# Playing a packed stream

* `goes_passage`: a passage is played until its notes are over.
* `goes_reference`: what a reference points at is played once, and the driver goes on behind the
  reference.
* `runs_parts`: **a packed stream is played like the stream it stands for**.
-/

set_option autoImplicit false

namespace Chiptune

/-- Whether the instruction is a position marker. -/
def Instruction.isLabel : Instruction → Bool
  | label _ => true
  | _ => false

/-- Whether the driver does anything but go on behind the instruction. -/
def Instruction.isControl : Instruction → Bool
  | op .jump _ _ | op .halt _ _ | op .reference _ _ => true
  | _ => false

namespace Player

variable {k : Kernel} {mem : Memory} {locate : Target → Option UInt16} {pc next : Nat}
  {e : Executed}

/-! ## Passages -/

/-- What the driver executes for a sequence of instructions; labels are nothing to it. -/
def executedAll (locate : Target → Option UInt16) (is : List Instruction) :
    Option (List Executed) :=
  (is.filter fun i => !i.isLabel).mapM (executed locate)

theorem executedAll_cons {i : Instruction} {is : List Instruction} {es : List Executed}
    (hi : executed locate i = some e) (his : executedAll locate is = some es) :
    executedAll locate (i :: is) = some (e :: es) := by
  have hlabel : i.isLabel = false := by
    cases i <;> first | rfl | cases hi
  rw [executedAll, List.filter_cons_of_pos (by simp [hlabel]), List.mapM_cons, hi]
  simp only [Option.bind_eq_bind, Option.bind_some]
  rw [show (is.filter fun i => !i.isLabel).mapM (executed locate) = some es from his]
  rfl

/-- The tokens that begin instructions say whether these take up rows. -/
def Tagged (k : Kernel) (tokens : List Token) : Prop :=
  ∀ token ∈ tokens, ∀ lead, token.lead? = some lead →
    token.isNote = (k.decode lead).advancesRow

/-- Behind an instruction, a stretch that ends with a note is over or still ends with one. -/
theorem endsWithNote_rest {token : Token} {operands rest : List Token}
    (h : EndsWithNote (token :: (operands ++ rest)))
    (hrest : ∀ t ∈ rest.head?, t.startsInstruction = true) : rest = [] ∨ EndsWithNote rest := by
  obtain ⟨front, b, ops, heq, hops⟩ := h
  rw [← List.cons_append] at heq
  rcases List.append_eq_append_iff.1 heq with ⟨mid, -, hmid⟩ | ⟨mid, -, hmid⟩
  · exact .inr ⟨mid, b, ops, hmid, hops⟩
  · cases mid with
    | nil => exact .inr ⟨[], b, ops, hmid.symm, hops⟩
    | cons m mid =>
      obtain ⟨-, rfl⟩ := List.cons.inj hmid
      cases rest with
      | nil => exact .inl rfl
      | cons t rest =>
        have ht := hops t (by simp)
        rw [hrest t rfl] at ht
        cases ht

theorem noteCount_of_endsWithNote {tokens : List Token} (h : EndsWithNote tokens) :
    noteCount tokens ≠ 0 := by
  obtain ⟨front, b, ops, rfl, -⟩ := h
  rw [noteCount_append, noteCount, noteCount, List.countP_cons_of_pos (by rfl)]
  omega

theorem noteCount_instruction {lead : UInt8} {operands : List Token} (token : Token)
    (ho : IsOperands k lead operands) (rest : List Token) :
    noteCount (token :: (operands ++ rest)) =
      (if token.isNote = true then 1 else 0) + noteCount rest := by
  have hzero : noteCount operands = 0 := by
    rw [noteCount, List.countP_eq_zero]
    intro t ht hn
    refine ho.not_boundary t ht (.inl ?_)
    cases t <;> simp_all [Token.isNote, Token.startsInstruction]
  rw [← List.cons_append, noteCount_append, noteCount, List.countP_cons]
  rw [noteCount] at hzero
  omega

theorem executed_isControl {i : Instruction} (h : executed locate i = some e) :
    e.lead.isControl = i.isControl := by
  cases i with
  | op o bytes targets =>
    obtain ⟨addresses, -, rfl⟩ := Option.map_eq_some_iff.1 h
    cases o <;> rfl
  | label id => cases h
  | invalid token => cases h
  | _ =>
    cases h
    rfl

theorem executed_leaves {i : Instruction} (h : executed locate i = some e) :
    e.lead.stops = Driver.leaves i := by
  cases i with
  | op o bytes targets =>
    obtain ⟨addresses, -, rfl⟩ := Option.map_eq_some_iff.1 h
    cases o <;> rfl
  | label id => cases h
  | invalid token => cases h
  | _ =>
    cases h
    rfl

/-- What follows an instruction of a passage without labels begins with one. -/
theorem starts_of_replayable {tokens : List Token} (hc : Complete k tokens)
    (hr : ∀ t ∈ tokens, t.isReplayable = true) :
    ∀ t ∈ tokens.head?, t.startsInstruction = true := by
  intro t ht
  rcases hc.atBoundary t ht with hs | hl
  · exact hs
  · rw [Token.isLabel_of_replayable (hr t (List.mem_of_mem_head? ht))] at hl
    cases hl

/-- **A passage is played until its notes are over.** -/
theorem goes_passage {tokens : List Token} (hc : Complete k tokens)
    (hreplay : ∀ t ∈ tokens, t.isReplayable = true) (hend : tokens = [] ∨ EndsWithNote tokens)
    (htag : Tagged k tokens) (hplain : ∀ i ∈ disassemble k tokens, i.isControl = false)
    (back : Nat) (hreads : Reads mem pc (encodedAll locate tokens)) :
    ∃ es, executedAll locate (disassemble k tokens) = some es ∧
      Goes k mem ⟨pc, [(noteCount tokens, back)]⟩ es
        ⟨pc + byteSize tokens, [(0, back)]⟩ := by
  induction hc generalizing pc with
  | nil =>
    rw [disassemble]
    exact ⟨[], rfl, .refl _⟩
  | @label id rest _ _ =>
    have := hreplay (.label id) List.mem_cons_self
    cases this
  | @instruction token lead operands rest hl ho hrest ih =>
    have hloc : Located locate operands := by
      intro target htarget
      have := hreplay (.address target) (by simp [htarget])
      cases this
    rw [← List.cons_append, encodedAll_append, reads_append, length_encodedAll] at hreads
    obtain ⟨i, e, hnext, hexecuted, hlead, hfetch⟩ := fetch_instruction hl ho hloc hreads.1
    have hsplit : disassemble k (token :: (operands ++ rest)) = i :: disassemble k rest := by
      rw [disassemble_cons, hnext]
    rw [hsplit] at hplain ⊢
    have hreplay' : ∀ t ∈ rest, t.isReplayable = true := fun t ht => hreplay t (by simp [ht])
    have hend := hend.resolve_left (by simp)
    obtain ⟨es, hes, hgoes⟩ := ih hreplay'
      (endsWithNote_rest hend (starts_of_replayable hrest hreplay'))
      (fun t ht => htag t (by simp [ht])) (fun j hj => hplain j (List.mem_cons_of_mem _ hj))
      hreads.2
    refine ⟨e :: es, executedAll_cons hexecuted hes, ?_⟩
    have hcontrol : e.lead.isControl = false := by
      rw [executed_isControl hexecuted, hplain i List.mem_cons_self]
    have hstep : step k mem ⟨pc, [(noteCount (token :: (operands ++ rest)), back)]⟩ =
        some (.goes [e] ⟨pc + byteSize (token :: operands), [(noteCount rest, back)]⟩) := by
      rw [step_of_fetch (by simpa using noteCount_of_endsWithNote hend) hfetch,
        execute_plain hcontrol, noteCount_instruction token ho,
        htag token List.mem_cons_self lead hl, ← hlead, callsBehind]
      cases e.lead.advancesRow <;> simp
    have hsize : pc + byteSize (token :: (operands ++ rest)) =
        pc + byteSize (token :: operands) + byteSize rest := by
      rw [← List.cons_append, byteSize_append, Nat.add_assoc]
    rw [hsize]
    exact (goes_of_step hstep).trans hgoes

/-! ## Packed streams -/

/-- The instructions of a complete stretch come first. -/
theorem disassemble_append {tokens : List Token} (hc : Complete k tokens) (rest : List Token) :
    disassemble k (tokens ++ rest) = disassemble k tokens ++ disassemble k rest := by
  induction hc with
  | nil =>
    rw [List.nil_append, show disassemble k [] = [] by rw [disassemble], List.nil_append]
  | @label id tail _ ih =>
    rw [List.cons_append, disassemble_cons, disassemble_cons, Instruction.next, Instruction.next,
      ih, List.cons_append]
  | @instruction token lead operands tail hl ho _ ih =>
    obtain ⟨i, -, -, -, hnext⟩ := ho.next hl
    rw [List.cons_append, List.append_assoc, disassemble_cons, hnext, disassemble_cons, hnext, ih,
      List.cons_append]

theorem advancesRow_instruction {d : Lead} {bytes : List UInt8} {targets : List Target}
    {i : Instruction} (h : d.instruction bytes targets = some i) :
    i.advancesRow = d.advancesRow := by
  cases d with
  | invalid => cases h
  | _ =>
    cases h
    rfl

/-- The last instruction of a passage takes up a row. -/
theorem last_advancesRow {tokens : List Token} (hc : Complete k tokens)
    (hreplay : ∀ t ∈ tokens, t.isReplayable = true) (hend : EndsWithNote tokens)
    (htag : Tagged k tokens) :
    ∃ body last, disassemble k tokens = body ++ [last] ∧ last.advancesRow = true := by
  induction hc with
  | nil =>
    obtain ⟨front, b, ops, heq, -⟩ := hend
    simp at heq
  | @label id rest _ _ =>
    have := hreplay (.label id) List.mem_cons_self
    cases this
  | @instruction token lead operands rest hl ho hrest ih =>
    have hreplay' : ∀ t ∈ rest, t.isReplayable = true := fun t ht => hreplay t (by simp [ht])
    have htag' : Tagged k rest := fun t ht => htag t (by simp [ht])
    obtain ⟨i, bytes, targets, hi, hnext⟩ := ho.next hl
    rw [disassemble_cons, hnext]
    rcases endsWithNote_rest hend (starts_of_replayable hrest hreplay') with rfl | hend'
    · have hnote : token.isNote = true := by
        have hcount := noteCount_of_endsWithNote hend
        rw [noteCount_instruction token ho] at hcount
        simpa [noteCount] using hcount
      refine ⟨[], i, by rw [disassemble, List.nil_append], ?_⟩
      rw [advancesRow_instruction hi, ← htag token List.mem_cons_self lead hl, hnote]
    · obtain ⟨body, last, hbody, hlast⟩ := ih hreplay' hend' htag'
      exact ⟨i :: body, last, by rw [hbody]; rfl, hlast⟩

theorem executedAll_append {is js : List Instruction} {es fs : List Executed}
    (hi : executedAll locate is = some es) (hj : executedAll locate js = some fs) :
    executedAll locate (is ++ js) = some (es ++ fs) := by
  rw [executedAll] at hi hj ⊢
  rw [List.filter_append, List.mapM_append, hi, hj]
  rfl

/-- **A reference plays its passage once** and goes on behind itself. -/
theorem goes_reference {opcode : UInt8} (hk : k.opcode .reference = some opcode)
    {stream passage : List Token} {start count target : Nat} {there : UInt16}
    (h : Replays k stream count target passage)
    (hreads : Reads mem start (encodedAll locate stream))
    (hlocate : locate (.offset (UInt32.ofNat target)) = some there)
    (hthere : there.toNat = start + byteSize (stream.take target))
    (htag : Tagged k passage) (hplain : ∀ i ∈ disassemble k passage, i.isControl = false)
    (hr : Reads mem pc (encodedAll locate (Reference.tokens opcode count target))) :
    ∃ es, executedAll locate (disassemble k passage) = some es ∧
      Goes k mem ⟨pc, []⟩ es
        ⟨pc + byteSize (Reference.tokens opcode count target), []⟩ := by
  -- the passage stands where the reference points
  have hpassage : Reads mem there.toNat (encodedAll locate passage) := by
    obtain ⟨t, after, hdrop, -⟩ := h.here
    rw [← List.take_append_drop target stream, hdrop, encodedAll_append, encodedAll_append,
      reads_append, reads_append, length_encodedAll] at hreads
    exact hthere ▸ hreads.2.1
  have hdecode := Kernel.decode_opcode hk
  have ho := Compressor.isOperands_reference hk count target
  have hloc : Located locate
      [.byte (UInt8.ofNat count), .address (.offset (UInt32.ofNat target))] := by
    intro target' htarget'
    simp only [List.mem_cons, reduceCtorEq, Token.address.injEq, List.not_mem_nil, or_false,
      false_or] at htarget'
    rw [htarget', hlocate]
    rfl
  obtain ⟨i, e, hnext, hexecuted, -, hfetch⟩ := fetch_instruction rfl ho hloc hr
  have hi : i = .op .reference [UInt8.ofNat count] [.offset (UInt32.ofNat target)] := by
    have hread := @Instruction.next_operands k (.opcode opcode) opcode [UInt8.ofNat count]
      [.offset (UInt32.ofNat target)] _ rfl (by rw [hdecode]; rfl) (by rw [hdecode]; rfl) []
    exact (Prod.mk.inj ((hnext []).symm.trans hread)).1
  subst hi
  have he : e = ⟨.op .reference, [UInt8.ofNat count], [there]⟩ := by
    simp only [executed, List.mapM_cons, hlocate] at hexecuted
    exact (Option.some.inj hexecuted).symm
  subst he
  obtain ⟨es, hes, hgoes⟩ := goes_passage h.complete h.replayable (.inr h.endsWithNote) htag hplain
    (pc + byteSize (Reference.tokens opcode count target)) hpassage
  have hcall : step k mem ⟨pc, []⟩ = some (.goes [] ⟨there.toNat,
      [(noteCount passage, pc + byteSize (Reference.tokens opcode count target))]⟩) := by
    rw [step_of_fetch (by simp) hfetch, execute_reference, h.count_eq, h.toNat_count]
    rfl
  refine ⟨es, hes, ?_⟩
  have hall := ((goes_of_step hcall).trans hgoes).trans (goes_of_step (step_return _))
  simpa using hall

theorem advancesRow_of_leaves {i : Instruction} (h : Driver.leaves i = true) :
    i.advancesRow = false := by
  cases i with
  | op o => cases o <;> first | rfl | cases h
  | _ => cases h

/-- Outside of passages an instruction leads to the one behind it. -/
theorem goes_plain (hf : fetch k mem pc = some (e, next)) (he : e.lead.isControl = false) :
    Goes k mem ⟨pc, []⟩ [e] ⟨next, []⟩ := by
  refine goes_of_step ?_
  have hcalls : callsBehind e.lead [] = [] := by
    unfold callsBehind
    split <;> rfl
  rw [step_of_fetch (by simp) hf, execute_plain he, hcalls]

/-- The driver goes on from one instruction to the next until the last, where it stops. -/
def Ends (is : List Instruction) : Prop :=
  ∃ body last, is = body ++ [last] ∧ (∀ i ∈ body, i.isControl = false) ∧
    Driver.leaves last = true

theorem not_ends_nil : ¬ Ends [] := by
  rintro ⟨body, last, heq, -⟩
  simp at heq

/-- An instruction is the last one, or the driver goes on behind it. -/
theorem Ends.uncons {i : Instruction} {is : List Instruction} (h : Ends (i :: is)) :
    (is = [] ∧ Driver.leaves i = true) ∨ (i.isControl = false ∧ Ends is) := by
  obtain ⟨body, last, heq, hbody, hlast⟩ := h
  cases body with
  | nil =>
    obtain ⟨rfl, rfl⟩ := List.cons.inj heq
    exact .inl ⟨rfl, hlast⟩
  | cons j body =>
    obtain ⟨rfl, rfl⟩ := List.cons.inj heq
    exact .inr ⟨hbody i List.mem_cons_self, body, last, rfl,
      fun j hj => hbody j (List.mem_cons_of_mem _ hj), hlast⟩

/-- A stretch whose last instruction takes up a row is not the end. -/
theorem Ends.behind {body js : List Instruction} {last : Instruction}
    (h : Ends (body ++ [last] ++ js)) (hlast : last.advancesRow = true) :
    (∀ i ∈ body ++ [last], i.isControl = false) ∧ Ends js := by
  induction body with
  | nil =>
    rcases h.uncons with ⟨-, hleaves⟩ | ⟨hplain, hjs⟩
    · rw [advancesRow_of_leaves hleaves] at hlast
      cases hlast
    · exact ⟨by simpa using hplain, hjs⟩
  | cons i body ih =>
    rcases h.uncons with ⟨hnil, -⟩ | ⟨hplain, hrest⟩
    · simp at hnil
    · obtain ⟨hbody, hjs⟩ := ih hrest
      refine ⟨fun j hj => ?_, hjs⟩
      rcases List.mem_cons.1 hj with rfl | hj
      · exact hplain
      · exact hbody j hj

/-- From an address on, the driver executes some instructions and stops. -/
def Executes (k : Kernel) (mem : Memory) (locate : Target → Option UInt16) (pc : Nat)
    (is : List Instruction) : Prop :=
  ∃ es, executedAll locate is = some es ∧ Runs k mem ⟨pc, []⟩ es

/-- Instructions on the way, and then the rest. -/
theorem Executes.append {is js : List Instruction} {es : List Executed}
    (hes : executedAll locate is = some es) (hgoes : Goes k mem ⟨pc, []⟩ es ⟨next, []⟩)
    (h : Executes k mem locate next js) : Executes k mem locate pc (is ++ js) := by
  obtain ⟨fs, hfs, hruns⟩ := h
  exact ⟨es ++ fs, executedAll_append hes hfs, hgoes.runs hruns⟩

/-- An instruction in memory is executed, and what is behind it if the driver goes on. -/
theorem executes_instruction {token : Token} {lead : UInt8} {operands rest : List Token}
    (hl : token.lead? = some lead) (ho : IsOperands k lead operands)
    (hloc : Located locate operands)
    (hreads : Reads mem pc (encodedAll locate (token :: operands)))
    (hends : Ends (disassemble k (token :: operands ++ rest)))
    (hrest : Ends (disassemble k rest) →
      Executes k mem locate (pc + byteSize (token :: operands)) (disassemble k rest)) :
    Executes k mem locate pc (disassemble k (token :: operands ++ rest)) := by
  obtain ⟨i, e, hnext, hexecuted, -, hfetch⟩ := fetch_instruction hl ho hloc hreads
  have hsplit : disassemble k (token :: operands ++ rest) = i :: disassemble k rest := by
    rw [List.cons_append, disassemble_cons, hnext]
  rw [hsplit] at hends ⊢
  rcases hends.uncons with ⟨hnil, hleaves⟩ | ⟨hplain, hends⟩
  · rw [hnil]
    refine ⟨[e], executedAll_cons hexecuted rfl, runs_of_step ?_⟩
    rw [step_of_fetch (by simp) hfetch, execute_stops (by rw [executed_leaves hexecuted, hleaves])]
  · have hstep := goes_plain hfetch (by rw [executed_isControl hexecuted, hplain])
    have hone : executedAll locate [i] = some [e] := executedAll_cons hexecuted rfl
    exact Executes.append hone hstep (hrest hends)

/-- **A packed stream is played like the stream it stands for**, if its positions are numbers of 32
bits. -/
theorem runs_parts {opcode : UInt8} (hk : k.opcode .reference = some opcode) {stream : List Token}
    (hsize : stream.length ≤ UInt32.size) {start : Nat}
    (hreads : Reads mem start (encodedAll locate stream)) (hloc : Located locate stream)
    (htarget : ∀ target, .address (.offset target) ∈ stream → target.toNat < stream.length →
      ∃ there, locate (.offset target) = some there ∧
        there.toNat = start + byteSize (stream.take target.toNat))
    {qs : List Compressor.Part} {front : List Token}
    (hstream : stream = front ++ Compressor.tokensOf opcode qs)
    (hsound : ∀ p ∈ qs, p.Sound k stream) (htag : Tagged k (Compressor.sourceOf qs))
    (hends : Ends (disassemble k (Compressor.sourceOf qs))) :
    Executes k mem locate (start + byteSize front) (disassemble k (Compressor.sourceOf qs)) := by
  induction qs generalizing front with
  | nil =>
    rw [show Compressor.sourceOf [] = [] from rfl, disassemble] at hends
    exact absurd hends not_ends_nil
  | cons p qs ih =>
    have hp := hsound p List.mem_cons_self
    have hstream' : stream = (front ++ p.tokens opcode) ++ Compressor.tokensOf opcode qs := by
      rw [hstream, Compressor.tokensOf_cons, List.append_assoc]
    rw [Compressor.sourceOf_cons] at htag hends ⊢
    have hreads' : Reads mem (start + byteSize front) (encodedAll locate (p.tokens opcode)) := by
      rw [hstream', List.append_assoc, encodedAll_append, encodedAll_append, reads_append,
        length_encodedAll, reads_append] at hreads
      exact hreads.2.1
    have hloc' : Located locate (p.tokens opcode) := by
      rw [hstream', List.append_assoc, Located.append, Located.append] at hloc
      exact hloc.2.1
    have hrest := ih hstream' (fun p hp => hsound p (List.mem_cons_of_mem _ hp))
      fun t ht => htag t (List.mem_append_right _ ht)
    rw [byteSize_append, ← Nat.add_assoc] at hrest
    cases p with
    | literal ts =>
      rcases hp with ⟨id, rfl⟩ | ⟨token, lead, operands, rfl, hl, ho⟩
      · -- a label is no instruction to the driver, and has no bytes
        have hsplit : disassemble k ([.label id] ++ Compressor.sourceOf qs) =
            .label id :: disassemble k (Compressor.sourceOf qs) := disassemble_cons _ _ _
        rw [show (Compressor.Part.literal [.label id]).source = [.label id] from rfl, hsplit]
          at hends ⊢
        rcases hends.uncons with ⟨-, hleaves⟩ | ⟨-, hends⟩
        · cases hleaves
        · exact hrest hends
      · exact executes_instruction hl ho (fun t ht => hloc' t (List.mem_cons_of_mem _ ht)) hreads'
          hends hrest
    | reference count target passage =>
      have hreplays : Replays k stream count target passage := hp
      have htagP : Tagged k passage := fun t ht => htag t (List.mem_append_left _ ht)
      rw [show (Compressor.Part.reference count target passage).source = passage from rfl,
        disassemble_append hreplays.complete] at hends ⊢
      -- the passage ends with a row, so the driver goes on behind it
      obtain ⟨body, last, hbody, hadvances⟩ := last_advancesRow hreplays.complete
        hreplays.replayable hreplays.endsWithNote htagP
      rw [hbody] at hends
      obtain ⟨hplain, hends⟩ := hends.behind hadvances
      have hmem : .address (.offset (UInt32.ofNat target)) ∈ stream := by
        rw [hstream']
        simp [Compressor.Part.tokens, Reference.tokens]
      have hcast := hreplays.toNat_target hsize
      obtain ⟨there, hlocate, hthere⟩ := htarget _ hmem (hcast.symm ▸ hreplays.target_lt)
      rw [hcast] at hthere
      obtain ⟨es, hes, hgoes⟩ := goes_reference hk hreplays hreads hlocate hthere htagP
        (hbody ▸ hplain) hreads'
      exact .append hes hgoes (hrest hends)

end Player

end Chiptune
