import Chiptune.Proofs.PlayedInstruments
import Chiptune.Proofs.SettingChanges
import Chiptune.Proofs.TempoPasses

/-!
# What has not changed is not sent again

Joining rows to a stream leaves what they announce in its order (`filter_join`), so the steps of the
rows (`Voice.Updates`) make a whole run `Fresh`, from what the driver knows before the first row on
(`Runs.fresh`).

* `generate_unchanged`: **no setting is sent twice in a row with the same operand**, and none is
  sent first with the operand that it has anyway.
-/

set_option autoImplicit false

namespace Chiptune.Stream

variable {job : Job} {rows : List Row} {speeds : List (Option UInt8)} {loopAt : Option Nat}
  {t : Tables} {s : Setting}

/-! ## Joining -/

/-- Instructions that a piece stands for. -/
def Piece.instructions : Piece → List Instruction
  | .mark id => [.label id]
  | .row is _ => is

/-- **Joining rows changes nothing but notes and empty rows.** -/
theorem filter_join {f : Instruction → Bool} (k : Kernel)
    (hnote : ∀ value emptyRow, f (.note value emptyRow) = false)
    (hempty : ∀ count, f (.emptyRows count) = false) (p : Pending) (pieces : List Piece) :
    (join k p pieces).filter f = (pieces.flatMap Piece.instructions).filter f := by
  have hflush : ∀ p, (flush k p).filter f = [] := by
    intro p
    apply List.filter_eq_nil_iff.2
    exact forall_flush k (fun value emptyRow => by simp [hnote]) (fun count => by simp [hempty]) p
  induction pieces generalizing p with
  | nil => exact hflush p
  | cons piece rest ih =>
    rw [List.flatMap_cons, List.filter_append]
    cases piece with
    | mark id =>
      rw [join, List.filter_append, hflush, List.nil_append, ← List.singleton_append,
        List.filter_append, ih]
      rfl
    | row is advances =>
      rw [join]
      simp only
      split
      · rename_i hnil
        rw [ih, Piece.instructions, List.isEmpty_iff.1 hnil]
        rfl
      · -- a note that is held back is none of those instructions
        have hheld : (Piece.row is advances).instructions.filter f = (holdNote is).1.filter f := by
          show is.filter f = _
          conv_lhs => rw [holdNote_eq is]
          have hnone : ((holdNote is).2.toList.map fun value =>
              Instruction.note value false).filter f = [] := by
            apply List.filter_eq_nil_iff.2
            simp [hnote]
          rw [List.filter_append, hnone, List.append_nil]
        rw [List.filter_append, List.filter_append, hflush, List.nil_append, ih, hheld]

/-! ## Runs -/

/-- **What the rows of a run announce is new**, behind what the driver knows before them. -/
theorem Runs.fresh {index : Nat} {rest : List Row} {later : List (Option UInt8)} {v v' : Voice}
    {pieces : List Piece} (h : Runs job rows speeds loopAt index rest later v pieces v')
    (hs : s = .instrument → job.Apart) (hv : v.row = []) (ht : v'.tables.Extends t) :
    Fresh s (v.told.announced job t s) (pieces.flatMap Piece.instructions) := by
  induction h with
  | nil => trivial
  | @cons index row rest later v u v' advances more hrow hrest ih =>
    obtain ⟨is, hconcerning, hfresh, htold⟩ :=
      Voice.updates_processRow hs hrow ((hrest.tables rfl).trans ht)
    have his : u.row.filter (·.concerns s) = is := by
      simpa [Voice.concerning, row_marked, hv] using hconcerning
    have hrows : Fresh s ((marked job rows speeds loopAt index v).2.told.announced job t s)
        (u.row ++ more.flatMap Piece.instructions) := by
      apply fresh_append.2
      rw [← foldl_heard_filter, his, ← htold, ← fresh_filter, his]
      exact ⟨hfresh, ih rfl ht⟩
    rw [List.flatMap_append, List.flatMap_cons]
    revert hrows
    unfold marked
    split
    · -- behind the loop mark nothing is known
      intro hrows
      exact ⟨by simp [Instruction.sets], hrows.forget⟩
    · exact id

theorem concerns_lastInstruction (v : Voice) :
    (lastInstruction job loopAt v).concerns s = false := by
  unfold lastInstruction
  split <;> cases s <;> rfl

/-- **A stream announces what is new**, behind what the driver knows at its beginning. -/
theorem generate_fresh {u u' : Tables} {tokens : List Token}
    (hs : s = .instrument → job.Apart) (h : generate job u = (.ok tokens, u')) :
    Fresh s ((Voice.start job u).told.announced job u' s) (disassemble job.kernel tokens) := by
  obtain ⟨rows, speeds, loopAt, pieces, v, -, -, -, hruns, htokens, rfl⟩ := generate_ok h
  have hending : v.tables.Extends (ending job loopAt v).tables := extends_ending v
  have hfresh := hruns.fresh hs rfl hending
  rw [disassemble_encodeAll (hruns.hasOperands rfl v) htokens, ← fresh_filter, List.filter_append,
    filter_join job.kernel (fun _ _ => by cases s <;> rfl) (fun _ => by cases s <;> rfl),
    List.filter_cons_of_neg (by simp [concerns_lastInstruction]), List.filter_nil, List.append_nil,
    fresh_filter]
  exact hfresh

/-! ## Slots -/

/-- Without an overflow the instruments of a channel have slots of their own. -/
theorem apart_of_assign (hc : job.channel.isVrc7 = false) {log : Log}
    (h : Slots.assign job.project job.kernel log = (job.slots, log)) : job.Apart where
  ownPatch := hc
  slots i j slot hi hj hslot hslot' := by
    obtain ⟨instrument, hinstrument, hfits⟩ := fits_iff.1 hi
    obtain ⟨other, hother, hfits'⟩ := fits_iff.1 hj
    have hnamed := Slots.assign_table h hinstrument hslot
    have hnamed' := Slots.assign_table h hother hslot'
    -- what one channel can play lives in one table
    have htable : instrument.kind.table = other.kind.table :=
      Option.some.inj ((InstrumentKind.table_of_fits hfits).symm.trans
        (InstrumentKind.table_of_fits hfits'))
    rw [htable, hnamed'] at hnamed
    exact (Option.some.inj hnamed).symm

/-! ## Streams -/

/-- Of two instructions in a row that announce a setting, and between which it is not lost, the
second one says something else. -/
def NeverRepeats (s : Setting) (stream : List Instruction) : Prop :=
  ∀ before i between j after, stream = before ++ i :: (between ++ j :: after) →
    i.sets = some s → j.sets = some s → (∀ k ∈ between, k.concerns s = false) → i ≠ j

/-- An instruction is the first that announces a setting, before any label. -/
def SetsFirst (s : Setting) (i : Instruction) (stream : List Instruction) : Prop :=
  i.sets = some s ∧ ∃ before after, stream = before ++ i :: after ∧
    ∀ k ∈ before, k.concerns s = false

theorem neverRepeats_of_fresh {known : Option Instruction} {stream : List Instruction}
    (h : Fresh s known stream) : NeverRepeats s stream := by
  rintro before i between j after rfl hi hj hbetween
  exact h.ne hi hj hbetween

theorem not_setsFirst_of_fresh {i : Instruction} {stream : List Instruction}
    (h : Fresh s (some i) stream) : ¬ SetsFirst s i stream := by
  rintro ⟨hi, before, after, rfl, hbefore⟩
  exact h.ne_first hi hbefore rfl

/-- **What has not changed is not sent again.** Of two instructions in a row that announce volume,
fine pitch, speed or groove the second has another operand, if no label stands between them; so of
two that announce duty or modulation, if no instrument stands between them either. Before any label
no setting is first announced as it is anyway. Where no channel can replace a patch and every
instrument has a slot of its own, two instruments in a row have two slots. Operands that differ are
told apart by 32 bits as long as the tables have at most 2^32 names. -/
theorem generate_unchanged {u u' : Tables} {tokens : List Token}
    (h : generate job u = (.ok tokens, u')) :
    (∀ s, s ≠ .instrument → NeverRepeats s (disassemble job.kernel tokens)) ∧
    ¬ SetsFirst .volume (.op .volume [initialVolume] []) (disassemble job.kernel tokens) ∧
    ¬ SetsFirst .finePitch (.op .finePitch [0] []) (disassemble job.kernel tokens) ∧
    ¬ SetsFirst .speed (.op .speed [job.song.speed] []) (disassemble job.kernel tokens) ∧
    (∀ id, u'.number? ((Label.groove (firstGroove job u)).text job.stem) = some id →
      ¬ SetsFirst .groove (.op .groove [] [.symbol id]) (disassemble job.kernel tokens)) ∧
    (job.channel.isVrc7 = false →
      (∃ log, Slots.assign job.project job.kernel log = (job.slots, log)) →
      NeverRepeats .instrument (disassemble job.kernel tokens)) ∧
    (u'.symbols.names.size ≤ UInt32.size →
      ∀ i ∈ disassemble job.kernel tokens, i.Numbered UInt32.size) := by
  have hfresh : ∀ s, s ≠ .instrument → Fresh s ((Voice.start job u).told.announced job u' s)
      (disassemble job.kernel tokens) := fun s hs =>
    generate_fresh (fun hinstrument => absurd hinstrument hs) h
  refine ⟨fun s hs => neverRepeats_of_fresh (hfresh s hs), ?_, ?_, ?_, ?_, ?_, generate_words h⟩
  · exact not_setsFirst_of_fresh (hfresh .volume (by decide))
  · exact not_setsFirst_of_fresh (hfresh .finePitch (by decide))
  · exact not_setsFirst_of_fresh (hfresh .speed (by decide))
  · intro id hid
    have hgroove : (Voice.start job u).told.announced job u' .groove =
        some (.op .groove [] [.symbol id]) := by
      show (Option.bind (some (firstGroove job u)) _).map _ = _
      rw [Option.bind_some, hid]
      rfl
    have hfirst := hfresh .groove (by decide)
    rw [hgroove] at hfirst
    exact not_setsFirst_of_fresh hfirst
  · rintro hc ⟨log, hslots⟩
    exact neverRepeats_of_fresh (generate_fresh (fun _ => apart_of_assign hc hslots) h)

/-- The tune sends neither volume nor instrument twice. -/
theorem generate_unchanged_loopedTune : ∃ tokens t, generate loopedTune {} = (.ok tokens, t) ∧
    NeverRepeats .volume (disassemble .extended tokens) ∧
    ¬ SetsFirst .volume (.op .volume [15] []) (disassemble .extended tokens) ∧
    NeverRepeats .instrument (disassemble .extended tokens) := by
  obtain ⟨tokens, t, h⟩ := generate_loopedTune
  obtain ⟨hrepeats, hvolume, -, -, -, hinstrument, -⟩ := generate_unchanged h
  exact ⟨tokens, t, h, hrepeats .volume (by decide), hvolume, hinstrument rfl ⟨{}, by decide⟩⟩

end Chiptune.Stream
