import Chiptune.Proofs.EveryCurve

/-!
# Curves as strings of records

Behind its first byte a curve is a string of records (`Curve.Record`): values, runs and jumps. A
curve is `Addressable` if its jumps and its release entry lead to starts of records and its last
record is a jump.

* `Curve.Addressable.plays`: **such a curve is read in bounds**, for every number of frames and
  every time of the note's release: a player stands at the start of a record whenever it reads one.
* `Curve.encode_addressable`: **every envelope has a curve, and it is addressable**.
-/

set_option autoImplicit false

namespace Chiptune.Curve

/-! ## Records -/

/-- Record of a curve. -/
inductive Record
  | value (byte : UInt8)
  | run (count byte : UInt8)
  | jump (target : UInt8)

namespace Record

def bytes : Record → List UInt8
  | .value byte => [byte]
  | .run count byte => [count, byte]
  | .jump target => [Curve.jump, target]

/-- What a record holds: a value byte, on its own or behind a count from 2 to 127, or the target of
a jump. -/
def IsProper : Record → Prop
  | .value byte => 0x80 ≤ byte
  | .run count byte => 2 ≤ count ∧ count ≤ 127 ∧ 0x80 ≤ byte
  | .jump _ => True

end Record

variable {rs front back : List Record}

/-- Number of bytes of some records. -/
def span (rs : List Record) : Nat := (rs.flatMap Record.bytes).length

theorem span_append (front back : List Record) : span (front ++ back) = span front + span back := by
  simp [span]

theorem span_singleton (r : Record) : span [r] = r.bytes.length := by simp [span]

/-- A record starts at an offset. -/
def StartsAt (rs : List Record) (offset : Nat) : Prop :=
  ∃ front r back, rs = front ++ r :: back ∧ offset = 1 + span front

/-- Behind some records the next one starts. -/
theorem startsAt_append (front : List Record) (h : back ≠ []) :
    StartsAt (front ++ back) (1 + span front) := by
  obtain ⟨r, rest, rfl⟩ := List.exists_cons_of_ne_nil h
  exact ⟨front, r, rest, rfl, rfl⟩

/-- A curve whose records can be reached and left only where records start. -/
structure Addressable (curve : List UInt8) (entry : UInt8) (rs : List Record) : Prop where
  bytes : curve = entry :: rs.flatMap Record.bytes
  length_le : curve.length ≤ 246
  proper : ∀ r ∈ rs, r.IsProper
  /-- The release entry is the offset behind a jump, if there is one. -/
  entry : entry = 0 ∨ ∃ front target back, rs = front ++ [.jump target] ++ back ∧ back ≠ [] ∧
    entry.toNat = 1 + span (front ++ [.jump target])
  target : ∀ target, Record.jump target ∈ rs → StartsAt rs target.toNat
  closed : ∃ target, rs.getLast? = some (.jump target)

/-! ## Reading in bounds -/

/-- What a player finds where a record starts, and that the next record it reads has a start too. -/
inductive Finds (bytes : Array UInt8) (rs : List Record) (offset : Nat) : Prop
  | value {byte : UInt8} (hb : bytes[offset]? = some byte) (hv : 0x80 ≤ byte)
      (hnext : StartsAt rs (offset + 1))
  | run {count byte : UInt8} (hc : bytes[offset]? = some count) (hne : count ≠ jump)
      (hlow : ¬ 0x80 ≤ count) (hb : bytes[offset + 1]? = some byte)
      (hnext : StartsAt rs (offset + 2))
  | jump {target : UInt8} (hj : bytes[offset]? = some jump)
      (ht : bytes[offset + 1]? = some target) (hnext : StartsAt rs target.toNat)

section Plays

variable {curve : List UInt8} {entry : UInt8} (h : Addressable curve entry rs)
include h

/-- What stands at an offset at which a record starts. -/
theorem Addressable.getElem? {r : Record} (hsplit : rs = front ++ r :: back) (k : Nat)
    (hk : k < r.bytes.length) : curve.toArray[1 + span front + k]? = r.bytes[k]? := by
  have hbytes : curve = entry :: front.flatMap Record.bytes ++ (r.bytes ++
      back.flatMap Record.bytes) := by rw [h.bytes, hsplit]; simp
  have hfront : (entry :: front.flatMap Record.bytes).length = 1 + span front := by
    rw [List.length_cons, span, Nat.add_comm]
  rw [List.getElem?_toArray, hbytes, List.getElem?_append_right (by omega), hfront,
    Nat.add_sub_cancel_left, List.getElem?_append_left hk]

/-- Behind a record that is no jump another one starts. -/
theorem Addressable.startsAt_behind {r : Record} (hsplit : rs = front ++ r :: back)
    (hr : ∀ target, r ≠ .jump target) : StartsAt rs (1 + span front + r.bytes.length) := by
  have hback : back ≠ [] := by
    rintro rfl
    obtain ⟨target, hlast⟩ := h.closed
    rw [hsplit, List.getLast?_concat] at hlast
    exact hr target (Option.some.inj hlast)
  have hnext := startsAt_append (front ++ [r]) hback
  rw [span_append, span_singleton, List.append_assoc, List.singleton_append, ← hsplit] at hnext
  rwa [Nat.add_assoc]

theorem Addressable.finds {offset : Nat} (hoffset : StartsAt rs offset) :
    Finds curve.toArray rs offset := by
  obtain ⟨front, r, back, hsplit, rfl⟩ := hoffset
  have hmem : r ∈ rs := by simp [hsplit]
  have hproper := h.proper r hmem
  have hat := h.getElem? hsplit
  have hbehind := h.startsAt_behind hsplit
  cases r with
  | value byte => exact .value (hat 0 Nat.one_pos) hproper (hbehind (by simp))
  | run count byte =>
    obtain ⟨hlow, hhigh, -⟩ := hproper
    have hne : count ≠ jump := by rintro rfl; exact absurd hlow (by decide)
    have hcount : ¬ 0x80 ≤ count := by
      rw [UInt8.le_iff_toNat_le] at hhigh ⊢
      exact Nat.not_le.2 (Nat.lt_succ_of_le hhigh)
    exact .run (hat 0 Nat.two_pos) hne hcount (hat 1 Nat.one_lt_two) (hbehind (by simp))
  | jump target => exact .jump (hat 0 Nat.two_pos) (hat 1 Nat.one_lt_two) (h.target target hmem)

end Plays

section Finds

variable {bytes : Array UInt8} (h : ∀ {offset}, StartsAt rs offset → Finds bytes rs offset)
include h

/-- Jumps lead to the start of a record that is no jump, or the curve halts. -/
theorem seek_finds (hops : Nat) {offset : Nat} (hoffset : StartsAt rs offset) :
    seek bytes hops offset = some none ∨
      ∃ position first, seek bytes hops offset = some (some position) ∧
        StartsAt rs position ∧ bytes[position]? = some first ∧ first ≠ jump := by
  induction hops generalizing offset with
  | zero =>
    cases h hoffset with
    | value hb hv =>
      exact .inr ⟨_, _, Player.seek_record hb (ne_jump hv), hoffset, hb, ne_jump hv⟩
    | run hc hne => exact .inr ⟨_, _, Player.seek_record hc hne, hoffset, hc, hne⟩
    | jump hj ht =>
      left
      unfold seek
      simp [hj, ht]
  | succ hops ih =>
    cases h hoffset with
    | value hb hv =>
      exact .inr ⟨_, _, Player.seek_record hb (ne_jump hv), hoffset, hb, ne_jump hv⟩
    | run hc hne => exact .inr ⟨_, _, Player.seek_record hc hne, hoffset, hc, hne⟩
    | @jump target hj ht hnext =>
      by_cases hself : target.toNat = offset
      · left
        unfold seek
        simp [hj, ht, hself]
      · have hfollow : seek bytes (hops + 1) offset = seek bytes hops target.toNat := by
          rw [seek]
          simp [hj, ht, hself]
        rw [hfollow]
        exact ih hnext

/-- Behind a fetch a player stands at the start of a record again. -/
theorem fetch_finds {p : Player} (hp : StartsAt rs p.position) :
    ∃ q, p.fetch bytes = some q ∧ StartsAt rs q.position := by
  by_cases hbusy : p.runLeft ≠ 0 ∨ p.halted
  · exact ⟨p, by simp [Player.fetch, hbusy], hp⟩
  rcases seek_finds h bytes.size hp with hhalt | ⟨position, first, hseek, hstart, hfirst, hne⟩
  · exact ⟨{ p with halted := true }, by simp [Player.fetch, hbusy, hhalt], hp⟩
  · cases h hstart with
    | value hb hv hnext =>
      exact ⟨_, by simp [Player.fetch, hbusy, hseek, hb, hv]; rfl, hnext⟩
    | run hc _ hlow hb hnext =>
      exact ⟨_, by simp [Player.fetch, hbusy, hseek, hc, hlow, hb]; rfl, hnext⟩
    | jump hj => exact absurd (Option.some.inj (hfirst.symm.trans hj)) hne

variable {entry : UInt8} (hzero : bytes[0]? = some entry)
  (hentry : entry = 0 ∨ StartsAt rs entry.toNat)
include hzero hentry

theorem frame_finds (released : Bool) {p : Player} (hp : StartsAt rs p.position) :
    ∃ q, p.frame bytes released = some q ∧ StartsAt rs q.position := by
  cases released with
  | false => exact fetch_finds h hp
  | true =>
    by_cases hnone : entry = 0
    · obtain ⟨q, hq, hnext⟩ := fetch_finds h hp
      exact ⟨q, by simp [Player.frame, Player.release, hzero, hnone, hq], hnext⟩
    · have hstart := hentry.resolve_left hnone
      obtain ⟨q, hq, hnext⟩ := fetch_finds h (p := p.released entry) hstart
      rw [Player.released] at hq
      exact ⟨q, by simp [Player.frame, Player.release, hzero, hnone, hq], hnext⟩

theorem playFrom_finds (releaseAt : Option Nat) (count start : Nat) {p : Player}
    (hp : StartsAt rs p.position) :
    ∃ values, playFrom bytes releaseAt count start p = some values ∧ values.length = count := by
  induction count generalizing start p with
  | zero => exact ⟨[], rfl, rfl⟩
  | succ count ih =>
    obtain ⟨q, hq, hnext⟩ := frame_finds h hzero hentry (releaseAt == some start) hp
    obtain ⟨values, hvalues, hlength⟩ := ih (start + 1) (p := q.tick) hnext
    rw [Player.tick] at hvalues
    exact ⟨q.value :: values, by simp [playFrom, hq, hvalues], by rw [List.length_cons, hlength]⟩

end Finds

/-- **An addressable curve is read in bounds**, however long it plays and whenever its note is
released. -/
theorem Addressable.plays {curve : List UInt8} {entry : UInt8}
    (h : Addressable curve entry rs) (count : Nat) (releaseAt : Option Nat) :
    ∃ values, play curve count releaseAt = some values ∧ values.length = count := by
  have hzero : curve.toArray[0]? = some entry := by rw [List.getElem?_toArray, h.bytes]; rfl
  have hentry : entry = 0 ∨ StartsAt rs entry.toNat := by
    refine h.entry.imp_right ?_
    rintro ⟨front, target, back, hsplit, hback, hstart⟩
    rw [hstart, hsplit]
    exact startsAt_append _ hback
  have hfirst : StartsAt rs 1 := by
    obtain ⟨target, hlast⟩ := h.closed
    have hne : rs ≠ [] := by
      rintro rfl
      cases hlast
    exact startsAt_append [] hne
  exact playFrom_finds h.finds hzero hentry releaseAt count 0 (p := {}) hfirst

/-! ## Shapes of curves -/

/-- Some records are proper and none of them is a jump. -/
def Plain (rs : List Record) : Prop :=
  ∀ r ∈ rs, r.IsProper ∧ ∀ target, r ≠ .jump target

theorem Plain.append (hf : Plain front) (hb : Plain back) : Plain (front ++ back) := by
  intro r hr
  rcases List.mem_append.1 hr with hr | hr
  · exact hf r hr
  · exact hb r hr

/-- A jump behind some records without one is the only one. -/
theorem Plain.jump_mem (h : Plain front) {target other : UInt8}
    (hmem : Record.jump other ∈ front ++ [.jump target]) : other = target := by
  rcases List.mem_append.1 hmem with hmem | hmem
  · exact absurd rfl ((h _ hmem).2 other)
  · exact Record.jump.inj (List.mem_singleton.1 hmem)

theorem Plain.proper (h : Plain front) (target : UInt8) :
    ∀ r ∈ front ++ [.jump target], r.IsProper := by
  intro r hr
  rcases List.mem_append.1 hr with hr | hr
  · exact (h r hr).1
  · rw [List.mem_singleton.1 hr]
    trivial

/-- Some records, and a jump back to one of them. -/
theorem addressable_loop {opening turn : List Record} {target : UInt8} (ho : Plain opening)
    (ht : Plain turn) (htarget : target.toNat = 1 + span opening)
    (hlen : span opening + span turn ≤ 241) :
    Addressable (0 :: (opening ++ turn ++ [Record.jump target]).flatMap Record.bytes) 0
      (opening ++ turn ++ [.jump target]) where
  bytes := rfl
  length_le := by
    have hspan : span (opening ++ turn ++ [Record.jump target]) = span opening + span turn + 2 := by
      rw [span_append, span_append, span_singleton]
      rfl
    rw [span] at hspan
    rw [List.length_cons, hspan]
    omega
  proper := (ho.append ht).proper target
  entry := .inl rfl
  target other hother := by
    rw [(ho.append ht).jump_mem hother, htarget, List.append_assoc]
    exact startsAt_append opening (by simp)
  closed := ⟨target, by simp⟩

/-- A part that is sustained, and at the release entry a part that ends in a record held. -/
theorem addressable_release {opening turn rest last : List Record} {entry target held : UInt8}
    (ho : Plain opening) (ht : Plain turn) (hr : Plain rest) (hl : Plain last)
    (htarget : target.toNat = 1 + span opening)
    (hentry : entry.toNat = 1 + span (opening ++ turn ++ [Record.jump target]))
    (hheld : held.toNat = 1 + span (opening ++ turn ++ [Record.jump target] ++ rest))
    (hlen : span opening + span turn + span rest + span last ≤ 241) :
    Addressable (entry :: (opening ++ turn ++ [Record.jump target] ++
        (rest ++ last ++ [Record.jump held])).flatMap Record.bytes) entry
      (opening ++ turn ++ [.jump target] ++ (rest ++ last ++ [.jump held])) where
  bytes := rfl
  length_le := by
    have hspan : span (opening ++ turn ++ [.jump target] ++ (rest ++ last ++ [.jump held])) =
        span opening + span turn + span rest + span last + 4 := by
      simp only [span_append, span_singleton, Record.bytes, List.length_cons, List.length_nil]
      omega
    rw [span] at hspan
    rw [List.length_cons, hspan]
    omega
  proper r hmem := by
    rcases List.mem_append.1 hmem with hmem | hmem
    · exact (ho.append ht).proper target r hmem
    · exact (hr.append hl).proper held r hmem
  entry := .inr ⟨_, target, _, rfl, by simp, hentry⟩
  target other hother := by
    rcases List.mem_append.1 hother with hother | hother
    · rw [(ho.append ht).jump_mem hother, htarget]
      simp only [List.append_assoc]
      exact startsAt_append opening (by simp)
    · rw [(hr.append hl).jump_mem hother, hheld]
      simp only [← List.append_assoc]
      rw [List.append_assoc _ last]
      exact startsAt_append _ (by simp)
  closed := ⟨held, by rw [List.getLast?_append_of_ne_nil _ (by simp), List.getLast?_concat]⟩

/-! ## Encoded curves -/

/-- Record of a run. -/
def Record.ofRun (run : UInt8 × Nat) : Record :=
  if run.2 = 1 then .value run.1 else .run (UInt8.ofNat run.2) run.1

theorem Record.bytes_ofRun (run : UInt8 × Nat) : (Record.ofRun run).bytes = record run := by
  unfold Record.ofRun record
  split <;> rfl

theorem Record.isProper_ofRun {run : UInt8 × Nat} (h : IsRun run) :
    (Record.ofRun run).IsProper := by
  have hpos := h.pos
  have hle := h.le
  unfold Record.ofRun
  split
  · exact h.value
  · rename_i hone
    have hcount := (count_byte hpos hle).2.2
    refine ⟨?_, ?_, h.value⟩
    · rw [UInt8.le_iff_toNat_le, hcount]
      exact Nat.lt_of_le_of_ne hpos (Ne.symm hone)
    · rw [UInt8.le_iff_toNat_le, hcount]
      exact hle

/-- The records of a sequence of frames. -/
def recordsOf (frames : List UInt8) : List Record := (runs frames).map Record.ofRun

theorem bytes_recordsOf (frames : List UInt8) :
    (recordsOf frames).flatMap Record.bytes = records frames := by
  rw [recordsOf, List.flatMap_map, records]
  exact congrArg (List.flatMap · _) (funext Record.bytes_ofRun)

theorem span_recordsOf (frames : List UInt8) :
    span (recordsOf frames) = (records frames).length := by
  rw [span, bytes_recordsOf]

theorem plain_recordsOf {frames : List UInt8} (hf : ∀ b ∈ frames, 0x80 ≤ b) :
    Plain (recordsOf frames) := by
  intro r hr
  obtain ⟨run, hrun, rfl⟩ := List.mem_map.1 hr
  refine ⟨Record.isProper_ofRun (isRun_of_mem_runs hf run hrun), fun target => ?_⟩
  unfold Record.ofRun
  split <;> nofun

theorem span_recordsOf_le {frames : List UInt8} (hf : ∀ b ∈ frames, 0x80 ≤ b) :
    span (recordsOf frames) ≤ frames.length := by
  rw [span_recordsOf]
  exact length_records hf

/-- The records of the part that is sustained: those in front of the loop, the loop, and the jump
back to its start. -/
def sustained (frames : List UInt8) (loop release : Nat) : List Record :=
  recordsOf (stretch frames 0 loop) ++ recordsOf (stretch frames loop release) ++
    [.jump (UInt8.ofNat (1 + span (recordsOf (stretch frames 0 loop))))]

/-- The byte of an offset is the offset. -/
theorem toNat_offset {offset : Nat} (h : offset < 256) : (UInt8.ofNat offset).toNat = offset := by
  rw [UInt8.toNat_ofNat', Nat.mod_eq_of_lt h]

section Encode

variable {frames : List UInt8} (hf : ∀ b ∈ frames, 0x80 ≤ b)
include hf

/-- The records of a stretch. -/
theorem stretch_recordsOf (a : Nat) {b : Nat} (hb : b ≤ frames.length) :
    Plain (recordsOf (stretch frames a b)) ∧ span (recordsOf (stretch frames a b)) ≤ b - a := by
  refine ⟨plain_recordsOf (mem_stretch hf a b), ?_⟩
  rw [← length_stretch frames hb]
  exact span_recordsOf_le (mem_stretch hf a b)

theorem encodeRuns_loop_addressable (hlen : frames.length ≤ 241) {loop : Nat}
    (h : loop < frames.length) :
    ∃ curve entry rs, encodeRuns frames (some loop) none = .ok curve ∧
      Addressable curve entry rs := by
  obtain ⟨hopening, hospan⟩ := stretch_recordsOf hf 0 (show loop ≤ frames.length by omega)
  obtain ⟨hturn, htspan⟩ := stretch_recordsOf hf loop (Nat.sub_le frames.length 1)
  obtain ⟨hlast, hlspan⟩ := stretch_recordsOf hf (frames.length - 1) (Nat.le_refl frames.length)
  have hencode := encodeRuns_loop_eq hf h
  have hstart : (0 :: records (stretch frames 0 loop)).length =
      1 + span (recordsOf (stretch frames 0 loop)) := by
    rw [List.length_cons, span_recordsOf, Nat.add_comm]
  rw [hstart] at hencode
  have haddressable := addressable_loop hopening (hturn.append hlast)
    (toNat_offset (by omega)) (by rw [span_append]; omega)
  refine ⟨_, 0, _, hencode.trans (congrArg Except.ok ?_), haddressable⟩
  simp only [List.flatMap_append, bytes_recordsOf, List.flatMap_singleton, Record.bytes, records,
    List.cons_append, List.append_assoc]

theorem span_sustained_le {loop release : Nat} (hl : loop < release)
    (hr : release < frames.length) :
    span (sustained frames loop release) ≤ release + 2 := by
  obtain ⟨-, hospan⟩ := stretch_recordsOf hf 0 (show loop ≤ frames.length by omega)
  obtain ⟨-, htspan⟩ := stretch_recordsOf hf loop (Nat.le_of_lt hr)
  rw [sustained, span_append, span_append, span_singleton]
  simp only [Record.bytes, List.length_cons, List.length_nil]
  omega

theorem encodeRuns_release_addressable (hlen : frames.length ≤ 241) {loop release : Nat}
    (hl : loop < release) (hr : release < frames.length) :
    ∃ curve entry rs, encodeRuns frames (some loop) (some release) = .ok curve ∧
      Addressable curve entry rs := by
  obtain ⟨hopening, hospan⟩ := stretch_recordsOf hf 0 (show loop ≤ frames.length by omega)
  obtain ⟨hturn, htspan⟩ := stretch_recordsOf hf loop (Nat.le_of_lt hr)
  obtain ⟨hrest, hrspan⟩ := stretch_recordsOf hf release (Nat.sub_le frames.length 1)
  obtain ⟨hlast, hlspan⟩ := stretch_recordsOf hf (frames.length - 1) (Nat.le_refl frames.length)
  obtain ⟨entry, sustain, hsustain, hentry, hencode⟩ := encodeRuns_release_eq hf hl hr
  have hstart : (entry :: records (stretch frames 0 loop)).length =
      1 + span (recordsOf (stretch frames 0 loop)) := by
    rw [List.length_cons, span_recordsOf, Nat.add_comm]
  rw [hstart] at hsustain
  have hspan := span_sustained_le hf hl hr
  have hbytes : sustain = entry :: (sustained frames loop release).flatMap Record.bytes := by
    simp [hsustain, sustained, bytes_recordsOf, Record.bytes]
  have hsize : sustain.length = 1 + span (sustained frames loop release) := by
    rw [hbytes, List.length_cons, span, Nat.add_comm]
  rw [hsize] at hentry
  rw [List.length_append, hsize, hbytes] at hencode
  have hheld : (UInt8.ofNat (1 + span (sustained frames loop release) +
      span (recordsOf (stretch frames release (frames.length - 1))))).toNat = 1 +
        span (sustained frames loop release ++
          recordsOf (stretch frames release (frames.length - 1))) := by
    rw [span_append, toNat_offset (by omega), Nat.add_assoc]
  have haddressable := addressable_release hopening hturn hrest hlast (toNat_offset (by omega))
    (hentry ▸ toNat_offset (by omega)) hheld (by omega)
  rw [← sustained] at haddressable
  refine ⟨_, entry, _, hencode.trans (congrArg Except.ok ?_), haddressable⟩
  simp only [List.flatMap_append, bytes_recordsOf, List.flatMap_singleton, Record.bytes,
    span_recordsOf, List.cons_append, List.append_assoc]

/-- **Frames with points inside of them have an addressable curve.** -/
theorem encodeRuns_addressable (hne : frames ≠ []) (hlen : frames.length ≤ 241)
    {loop release : Option Nat} (h : Points frames.length loop release) :
    ∃ curve entry rs, encodeRuns frames loop release = .ok curve ∧
      Addressable curve entry rs := by
  have hpos := List.length_pos_iff.2 hne
  cases release with
  | none =>
    cases loop with
    | none =>
      rw [encodeRuns_hold_eq hf hne]
      exact encodeRuns_loop_addressable hf hlen (by omega)
    | some l => exact encodeRuns_loop_addressable hf hlen (h.loop_lt l rfl)
  | some r =>
    obtain ⟨l, rfl, hl⟩ := h.loop_lt_release r rfl
    exact encodeRuns_release_addressable hf hlen hl (h.release_lt r rfl)

end Encode

/-- The forms of a single value that is held. -/
theorem addressable_hold {value : UInt8} (hv : 0x80 ≤ value) (isPitch : Bool) :
    ∃ entry rs, Addressable (if isPitch then [0x00, value, jump, 2]
      else [0x00, UInt8.ofNat maxRun, value, jump, 1]) entry rs := by
  cases isPitch with
  | true =>
    -- the jump leads to itself
    refine ⟨0, [.value value, .jump 2], rfl, by simp, by simp [Record.IsProper, hv], .inl rfl, ?_,
      _, rfl⟩
    intro target htarget
    obtain rfl : target = 2 := by simpa using htarget
    exact ⟨[.value value], _, [], rfl, rfl⟩
  | false =>
    refine ⟨0, [.run 127 value, .jump 1], rfl, by simp, ?_, .inl rfl, ?_, _, rfl⟩
    · simp [Record.IsProper, hv]
    · intro target htarget
      obtain rfl : target = 1 := by simpa using htarget
      exact ⟨[], _, _, rfl, rfl⟩

/-- **Every envelope has a curve or is left to the default curve**, whatever its values and points
are. Its curve has at most 246 bytes; it is a string of proper records whose jumps and whose release
entry are the offsets of records, so every play of it, released at any time or never, reads in
bounds. -/
theorem encode_addressable (e : Envelope) (profile : Profile) (log : Log) :
    ∃ result log', encode e profile log = .ok (result, log') ∧ ∀ curve ∈ result,
      (∃ entry rs, Addressable curve entry rs) ∧ ∀ count releaseAt,
        ∃ values, play curve count releaseAt = some values ∧ values.length = count := by
  suffices hresult : ∃ result log', encode e profile log = .ok (result, log') ∧
      ∀ curve ∈ result, ∃ entry rs, Addressable curve entry rs by
    obtain ⟨result, log', hencode, hall⟩ := hresult
    refine ⟨result, log', hencode, fun curve hcurve => ⟨hall curve hcurve, ?_⟩⟩
    obtain ⟨entry, rs, haddressable⟩ := hall curve hcurve
    exact haddressable.plays
  unfold encode
  split
  · exact ⟨none, _, rfl, nofun⟩
  rename_i hw
  have hpos : 0 < e.levels.length := Envelope.pos_of_isWellFormed (by simpa using hw)
  have hlen := Envelope.length_levels_le e
  have hpoints := points_levels e profile
  rw [← List.length_map (f := bias)] at hpoints
  simp only [encode_frames, encode_release]
  generalize Option.filter _ _ = loop at hpoints ⊢
  split
  · rename_i value hframes _ _
    have hv := levels_bytes e value (by rw [hframes]; exact List.mem_singleton_self value)
    refine ⟨_, _, rfl, ?_⟩
    rintro curve ⟨⟩
    exact addressable_hold hv profile.isPitch
  · obtain ⟨hmore, hless⟩ := length_heldFrames (e.levels.map bias) loop e.relative
    rw [List.length_map] at hmore hless
    obtain ⟨curve, entry, rs, hcurve, haddressable⟩ := encodeRuns_addressable
      (heldFrames_bytes (levels_bytes e) loop e.relative)
      (List.ne_nil_of_length_pos (by omega)) (by omega) (hpoints.heldFrames e.relative)
    rw [heldFrames] at hcurve
    refine ⟨some curve, _, by rw [hcurve]; rfl, ?_⟩
    rintro _ ⟨⟩
    exact ⟨entry, rs, haddressable⟩

end Chiptune.Curve
