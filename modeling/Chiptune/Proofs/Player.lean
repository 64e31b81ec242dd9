import Chiptune.Image
import Chiptune.Proofs.Driver

/-!
# Playing a stream from memory

`Player` is a driver that knows nothing but memory: it reads the first byte of an instruction, then
as many operands as the byte asks for. A reference makes it go on elsewhere until as many
instructions that take up rows are over as the reference counts, then it returns. It stops at a halt
or a jump.

A complete instruction in memory is fetched as what the driver executes for it
(`fetch_instruction`).
-/

set_option autoImplicit false

namespace Chiptune

/-- Whether an instruction that begins with the byte takes up a row. -/
def Lead.advancesRow : Lead → Bool
  | note .. | emptyRows _ => true
  | op o => o.advancesRow
  | _ => false

/-- Whether the driver does anything but go on behind such an instruction. -/
def Lead.isControl : Lead → Bool
  | op .jump | op .halt | op .reference => true
  | _ => false

/-- Whether the driver stops at such an instruction. -/
def Lead.stops : Lead → Bool
  | op .jump | op .halt => true
  | _ => false

/-- Bytes of a token if its address is known. -/
def Token.encoded (locate : Target → Option UInt16) : Token → List UInt8
  | byte b | opcode b | note b => [b]
  | label _ => []
  | address target => Image.wordBytes ((locate target).getD 0)

namespace Player

/-- Memory that the driver reads. -/
abbrev Memory := Nat → Option UInt8

/-- Bytes from an address on. -/
def readBytes (mem : Memory) (address : Nat) : Nat → Option (List UInt8)
  | 0 => some []
  | n + 1 => do
    let first ← mem address
    let rest ← readBytes mem (address + 1) n
    some (first :: rest)

/-- The word at an address, low byte first. -/
def readWord (mem : Memory) (address : Nat) : Option UInt16 := do
  let low ← mem address
  let high ← mem (address + 1)
  some (UInt16.ofNat (low.toNat + 0x100 * high.toNat))

/-- Words from an address on. -/
def readWords (mem : Memory) (address : Nat) : Nat → Option (List UInt16)
  | 0 => some []
  | n + 1 => do
    let first ← readWord mem address
    let rest ← readWords mem (address + 2) n
    some (first :: rest)

/-- Instruction as the driver executes it. -/
structure Executed where
  lead : Lead
  bytes : List UInt8
  addresses : List UInt16
  deriving DecidableEq

/-- The instruction at an address, and the address behind it. -/
def fetch (k : Kernel) (mem : Memory) (pc : Nat) : Option (Executed × Nat) := do
  let lead ← mem pc
  let (count, words) ← (k.decode lead).operands
  let bytes ← readBytes mem (pc + 1) count
  let addresses ← readWords mem (pc + 1 + count) words
  some (⟨k.decode lead, bytes, addresses⟩, pc + 1 + count + 2 * words)

/-- State of the driver. -/
structure State where
  pc : Nat
  /-- References that are being played: rows left, and the address to return to. -/
  calls : List (Nat × Nat) := []

/-- What a step of the driver does. -/
inductive Outcome
  | stops (last : Executed)
  | goes (executed : List Executed) (next : State)

/-- References that are being played behind an instruction. -/
def callsBehind (lead : Lead) (calls : List (Nat × Nat)) : List (Nat × Nat) :=
  if lead.advancesRow then calls.map fun call => (call.1 - 1, call.2) else calls

/-- Effect of an instruction that ends at an address. -/
def execute (e : Executed) (next : Nat) (calls : List (Nat × Nat)) : Outcome :=
  match e.lead, e.bytes, e.addresses with
  | .op .halt, _, _ | .op .jump, _, _ => .stops e
  | .op .reference, [count], [address] => .goes [] ⟨address.toNat, (count.toNat, next) :: calls⟩
  | lead, _, _ => .goes [e] ⟨next, callsBehind lead calls⟩

/-- One step: a return, if no rows are left, or an instruction. -/
def step (k : Kernel) (mem : Memory) (s : State) : Option Outcome :=
  match s.calls with
  | (0, back) :: calls => some (.goes [] ⟨back, calls⟩)
  | calls => (fetch k mem s.pc).map fun (e, next) => execute e next calls

/-- Instructions that the driver executes until it stops; none if it does not within the fuel. -/
def run (k : Kernel) (mem : Memory) : Nat → State → Option (List Executed)
  | 0, _ => none
  | fuel + 1, s =>
    match step k mem s with
    | none => none
    | some (.stops last) => some [last]
    | some (.goes executed next) => (run k mem fuel next).map (executed ++ ·)

/-! ## Runs -/

variable {k : Kernel} {mem : Memory}

/-- The driver gets from one state to another and executes some instructions on the way. -/
def Goes (k : Kernel) (mem : Memory) (s : State) (es : List Executed) (s' : State) : Prop :=
  ∃ n, ∀ fuel, run k mem (fuel + n) s = (run k mem fuel s').map (es ++ ·)

/-- The driver executes some instructions and stops. -/
def Runs (k : Kernel) (mem : Memory) (s : State) (es : List Executed) : Prop :=
  ∃ n, ∀ fuel, n ≤ fuel → run k mem fuel s = some es

theorem Goes.refl (s : State) : Goes k mem s [] s :=
  ⟨0, fun fuel => by simp⟩

theorem Goes.trans {s s' s'' : State} {es es' : List Executed} (h : Goes k mem s es s')
    (h' : Goes k mem s' es' s'') : Goes k mem s (es ++ es') s'' := by
  obtain ⟨n, hn⟩ := h
  obtain ⟨m, hm⟩ := h'
  refine ⟨m + n, fun fuel => ?_⟩
  rw [← Nat.add_assoc, hn, hm, Option.map_map]
  exact congrArg (Option.map · _) (funext fun rest => by simp)

theorem goes_of_step {s s' : State} {es : List Executed} (h : step k mem s = some (.goes es s')) :
    Goes k mem s es s' :=
  ⟨1, fun fuel => by rw [run, h]⟩

theorem runs_of_step {s : State} {e : Executed} (h : step k mem s = some (.stops e)) :
    Runs k mem s [e] := by
  refine ⟨1, fun fuel hfuel => ?_⟩
  obtain ⟨fuel, rfl⟩ := Nat.exists_eq_add_of_le' hfuel
  rw [run, h]

theorem Goes.runs {s s' : State} {es es' : List Executed} (h : Goes k mem s es s')
    (h' : Runs k mem s' es') : Runs k mem s (es ++ es') := by
  obtain ⟨n, hn⟩ := h
  obtain ⟨m, hm⟩ := h'
  refine ⟨m + n, fun fuel hfuel => ?_⟩
  obtain ⟨fuel, rfl⟩ := Nat.exists_eq_add_of_le' (Nat.le_trans (Nat.le_add_left n m) hfuel)
  rw [hn, hm fuel (by omega)]
  rfl

/-! ## Reading memory -/

/-- The memory holds bytes from an address on. -/
def Reads (mem : Memory) (address : Nat) : List UInt8 → Prop
  | [] => True
  | b :: bytes => mem address = some b ∧ Reads mem (address + 1) bytes

theorem reads_append {address : Nat} {bytes more : List UInt8} :
    Reads mem address (bytes ++ more) ↔
      Reads mem address bytes ∧ Reads mem (address + bytes.length) more := by
  induction bytes generalizing address with
  | nil => simp [Reads]
  | cons b bytes ih =>
    simp only [List.cons_append, Reads, ih, List.length_cons, and_assoc]
    rw [show address + 1 + bytes.length = address + (bytes.length + 1) by omega]

/-- One of some parts of equal length that stand one behind the other. -/
theorem reads_flatMap {α : Type} {f : α → List UInt8} {size address : Nat} {xs : List α}
    (hsize : ∀ x ∈ xs, (f x).length = size) (h : Reads mem address (xs.flatMap f)) {i : Nat} {x : α}
    (hi : xs[i]? = some x) : Reads mem (address + size * i) (f x) := by
  induction xs generalizing address i with
  | nil => cases hi
  | cons first rest ih =>
    rw [List.flatMap_cons, reads_append] at h
    cases i with
    | zero =>
      cases hi
      exact h.1
    | succ i =>
      have hrest := ih (fun y hy => hsize y (List.mem_cons_of_mem _ hy)) h.2 hi
      rwa [hsize first List.mem_cons_self, Nat.add_assoc, Nat.add_comm size, ← Nat.mul_succ]
        at hrest

theorem readBytes_of_reads {address : Nat} {bytes : List UInt8} (h : Reads mem address bytes) :
    readBytes mem address bytes.length = some bytes := by
  induction bytes generalizing address with
  | nil => rfl
  | cons b bytes ih => simp [readBytes, h.1, ih h.2]

theorem readWord_of_reads {address : Nat} {w : UInt16} (h : Reads mem address (Image.wordBytes w)) :
    readWord mem address = some w := by
  obtain ⟨hlow, hhigh, -⟩ := h
  have hw := w.toNat_lt
  have hshift : (w >>> 8).toNat = w.toNat / 0x100 := by
    rw [UInt16.toNat_shiftRight, Nat.shiftRight_eq_div_pow]
    rfl
  have hbytes : w.toUInt8.toNat + 0x100 * (w >>> 8).toUInt8.toNat = w.toNat := by
    rw [UInt16.toNat_toUInt8, UInt16.toNat_toUInt8, hshift]
    omega
  simp only [readWord, hlow, hhigh, Option.bind_eq_bind, Option.bind_some, hbytes,
    UInt16.ofNat_toNat]

theorem length_words (ws : List UInt16) :
    (ws.flatMap Image.wordBytes).length = 2 * ws.length := by
  induction ws with
  | nil => rfl
  | cons w ws ih =>
    rw [List.flatMap_cons, List.length_append, ih, List.length_cons, Image.wordBytes]
    simp only [List.length_cons, List.length_nil]
    omega

theorem readWords_of_reads {address : Nat} {ws : List UInt16}
    (h : Reads mem address (ws.flatMap Image.wordBytes)) :
    readWords mem address ws.length = some ws := by
  induction ws generalizing address with
  | nil => rfl
  | cons w ws ih =>
    rw [List.flatMap_cons, reads_append] at h
    have hrest : readWords mem (address + 2) ws.length = some ws := ih h.2
    simp [readWords, readWord_of_reads h.1, hrest]

/-! ## Steps -/

/-- What the driver executes for an instruction of a stream, with its addresses; none if the driver
does not see it or an address is not known. -/
def executed (locate : Target → Option UInt16) : Instruction → Option Executed
  | .note value emptyRow => some ⟨.note value emptyRow, [], []⟩
  | .instrument slot => some ⟨.instrument (UInt8.ofNat slot), [], []⟩
  | .emptyRows count => some ⟨.emptyRows count, [], []⟩
  | .op o bytes targets => (targets.mapM locate).map fun addresses => ⟨.op o, bytes, addresses⟩
  | .label _ | .invalid _ => none

variable {locate : Target → Option UInt16} {calls : List (Nat × Nat)} {pc next : Nat} {e : Executed}

/-- A reference is over. -/
theorem step_return (back : Nat) :
    step k mem ⟨pc, (0, back) :: calls⟩ = some (.goes [] ⟨back, calls⟩) := rfl

theorem step_of_fetch (hcalls : ∀ call ∈ calls.head?, call.1 ≠ 0)
    (hf : fetch k mem pc = some (e, next)) :
    step k mem ⟨pc, calls⟩ = some (execute e next calls) := by
  unfold step
  split
  · rename_i back rest heq
    obtain rfl : calls = _ := heq
    exact absurd rfl (hcalls _ rfl)
  · simp only [hf, Option.map_some]

theorem execute_plain (he : e.lead.isControl = false) :
    execute e next calls = .goes [e] ⟨next, callsBehind e.lead calls⟩ := by
  obtain ⟨lead, bytes, addresses⟩ := e
  cases lead with
  | op o => cases o <;> first | rfl | cases he
  | _ => rfl

theorem execute_stops (he : e.lead.stops = true) : execute e next calls = .stops e := by
  obtain ⟨lead, bytes, addresses⟩ := e
  cases lead with
  | op o => cases o <;> first | rfl | cases he
  | _ => cases he

theorem execute_reference (count : UInt8) (address : UInt16) :
    execute ⟨.op .reference, [count], [address]⟩ next calls =
      .goes [] ⟨address.toNat, (count.toNat, next) :: calls⟩ := rfl

/-- Bytes of some tokens if their addresses are known. -/
def encodedAll (locate : Target → Option UInt16) (tokens : List Token) : List UInt8 :=
  tokens.flatMap (Token.encoded locate)

@[simp]
theorem encodedAll_append (tokens more : List Token) :
    encodedAll locate (tokens ++ more) = encodedAll locate tokens ++ encodedAll locate more :=
  List.flatMap_append

theorem byteSize_append (tokens more : List Token) :
    byteSize (tokens ++ more) = byteSize tokens + byteSize more := by
  induction tokens with
  | nil => simp [byteSize]
  | cons t tokens ih => simp [byteSize, ih, Nat.add_assoc]

@[simp]
theorem length_encodedAll (tokens : List Token) :
    (encodedAll locate tokens).length = byteSize tokens := by
  induction tokens with
  | nil => rfl
  | cons t tokens ih =>
    have ht : (t.encoded locate).length = t.byteSize := by cases t <;> rfl
    rw [encodedAll, List.flatMap_cons, List.length_append, ht]
    exact congrArg (t.byteSize + ·) ih

/-! ## Instructions in memory -/

/-- The addresses of some tokens are known. -/
def Located (locate : Target → Option UInt16) (tokens : List Token) : Prop :=
  ∀ target, .address target ∈ tokens → (locate target).isSome = true

theorem Located.append {tokens more : List Token} :
    Located locate (tokens ++ more) ↔ Located locate tokens ∧ Located locate more := by
  simp only [Located, List.mem_append]
  exact ⟨fun h => ⟨fun t ht => h t (.inl ht), fun t ht => h t (.inr ht)⟩,
    fun h t ht => ht.elim (h.1 t) (h.2 t)⟩

theorem encodedAll_bytes (bytes : List UInt8) :
    encodedAll locate (bytes.map Token.byte) = bytes := by
  induction bytes with
  | nil => rfl
  | cons b bytes ih => exact congrArg (b :: ·) ih

theorem encodedAll_addresses {targets : List Target} {addresses : List UInt16}
    (h : targets.mapM locate = some addresses) :
    encodedAll locate (targets.map Token.address) = addresses.flatMap Image.wordBytes ∧
      addresses.length = targets.length := by
  induction targets generalizing addresses with
  | nil =>
    cases h
    exact ⟨rfl, rfl⟩
  | cons t targets ih =>
    simp only [List.mapM_cons, Option.pure_def, Option.bind_eq_bind, Option.bind_eq_some_iff,
      Option.some.injEq] at h
    obtain ⟨first, hfirst, rest, hrest, rfl⟩ := h
    obtain ⟨hbytes, hlen⟩ := ih hrest
    refine ⟨?_, by simp [hlen]⟩
    rw [List.map_cons, encodedAll, List.flatMap_cons, Token.encoded, hfirst, List.flatMap_cons]
    exact congrArg (Image.wordBytes first ++ ·) hbytes

theorem mapM_of_located {targets : List Target}
    (h : ∀ t ∈ targets, (locate t).isSome = true) :
    ∃ addresses, targets.mapM locate = some addresses := by
  induction targets with
  | nil => exact ⟨[], rfl⟩
  | cons t targets ih =>
    obtain ⟨first, hfirst⟩ := Option.isSome_iff_exists.1 (h t List.mem_cons_self)
    obtain ⟨rest, hrest⟩ := ih fun t ht => h t (List.mem_cons_of_mem _ ht)
    exact ⟨first :: rest, by simp [List.mapM_cons, hfirst, hrest]⟩

/-- A lead byte with its operands begins an instruction, which is executed with the addresses of its
targets. -/
theorem executed_of_operands {d : Lead} {bytes : List UInt8} {targets : List Target}
    {addresses : List UInt16} (ho : d.operands = some (bytes.length, targets.length))
    (ha : targets.mapM locate = some addresses) :
    ∃ i, d.instruction bytes targets = some i ∧ executed locate i = some ⟨d, bytes, addresses⟩ := by
  cases d with
  | invalid => cases ho
  | op o => exact ⟨_, rfl, by simp [executed, ha]⟩
  | _ =>
    simp only [Lead.operands, Option.some.injEq, Prod.mk.injEq] at ho
    obtain rfl := List.eq_nil_of_length_eq_zero ho.1.symm
    obtain rfl := List.eq_nil_of_length_eq_zero ho.2.symm
    cases ha
    exact ⟨_, rfl, by simp [executed]⟩

/-- **A complete instruction in memory is fetched as what the driver executes for it.** -/
theorem fetch_instruction {token : Token} {lead : UInt8} {operands : List Token}
    (hl : token.lead? = some lead) (ho : IsOperands k lead operands)
    (hloc : Located locate operands)
    (hr : Reads mem pc (encodedAll locate (token :: operands))) :
    ∃ i e, (∀ rest, Instruction.next k token (operands ++ rest) = (i, rest)) ∧
      executed locate i = some e ∧ e.lead = k.decode lead ∧
      fetch k mem pc = some (e, pc + byteSize (token :: operands)) := by
  obtain ⟨bytes, targets, ho, rfl⟩ := ho
  obtain ⟨addresses, haddresses⟩ : ∃ addresses, targets.mapM locate = some addresses :=
    mapM_of_located fun t ht => hloc t (List.mem_append_right _ (List.mem_map_of_mem ht))
  obtain ⟨hwords, hlen⟩ := encodedAll_addresses haddresses
  obtain ⟨i, hi, hexecuted⟩ := executed_of_operands ho haddresses
  refine ⟨i, _, fun rest => Instruction.next_operands hl ho hi rest, hexecuted, rfl, ?_⟩
  have hencoded : encodedAll locate (token ::
      (bytes.map Token.byte ++ targets.map Token.address)) =
      lead :: (bytes ++ addresses.flatMap Image.wordBytes) := by
    have htoken : token.encoded locate = [lead] := by
      cases token <;> cases hl <;> rfl
    rw [← List.singleton_append, encodedAll_append, encodedAll_append, encodedAll_bytes, hwords]
    simp [encodedAll, htoken]
  rw [hencoded] at hr
  obtain ⟨hmem, hr⟩ := hr
  obtain ⟨hbytes, hr⟩ := reads_append.1 hr
  have hsize : pc + byteSize (token :: (bytes.map Token.byte ++ targets.map Token.address)) =
      pc + 1 + bytes.length + 2 * targets.length := by
    rw [← @length_encodedAll locate, hencoded, List.length_cons, List.length_append, ← hlen,
      length_words]
    omega
  have hread := readWords_of_reads hr
  rw [hlen] at hread
  simp only [fetch, hmem, ho, readBytes_of_reads hbytes, hread, hsize, Option.bind_eq_bind,
    Option.bind_some]

end Player

end Chiptune
