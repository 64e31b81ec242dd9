import Chiptune.Compile
import Chiptune.Proofs.Envelopes
import Chiptune.Proofs.Results

/-!
# Every envelope has a curve

The encoder of curves refuses a release without a loop before it, and a loop target inside of a run.
Neither can happen: the loop of an envelope with a release is taken from in front of the release
(`Envelope.effectiveLoop`), and runs break where the loop begins. So each step that adds curves to
the tables has a result.

* `Curve.encode_succeeds`: **every envelope has a curve**, whatever its points are.
* `Compile.addInstruments_succeeds`, `Compile.addArpeggios_succeeds`, `Tables.vibrato_succeeds`.
-/

set_option autoImplicit false

namespace Chiptune

namespace Curve

/-- Points that runs can be encoded for: inside of the frames, and a release behind a loop. -/
structure Points (count : Nat) (loop release : Option Nat) : Prop where
  loop_lt : ∀ l ∈ loop, l < count
  release_lt : ∀ r ∈ release, r < count
  loop_lt_release : ∀ r ∈ release, ∃ l, loop = some l ∧ l < r

/-- Frames with points inside of them have a curve. -/
theorem encodeRuns_succeeds {frames : List UInt8} {loop release : Option Nat}
    (hf : ∀ b ∈ frames, 0x80 ≤ b) (hne : frames ≠ [])
    (h : Points frames.length loop release) :
    ∃ curve, encodeRuns frames loop release = .ok curve := by
  have hpos : 0 < frames.length := List.length_pos_iff.2 hne
  cases release with
  | none =>
    cases loop with
    | none =>
      have hlast : frames.length - 1 < frames.length := by omega
      exact ⟨_, (encodeRuns_hold_eq hf hne).trans (encodeRuns_loop_eq hf hlast)⟩
    | some l => exact ⟨_, encodeRuns_loop_eq hf (h.loop_lt l rfl)⟩
  | some r =>
    obtain ⟨l, rfl, hl⟩ := h.loop_lt_release r rfl
    obtain ⟨entry, sustain, -, -, hcurve⟩ := encodeRuns_release_eq hf hl (h.release_lt r rfl)
    exact ⟨_, hcurve⟩

/-- The points that an envelope is encoded with lie inside of its frames. -/
theorem points_levels (e : Envelope) (profile : Profile) :
    Points e.levels.length
      ((if (e.honouredRelease profile).isSome then e.effectiveLoop else e.loopPoint).filter
        (· < e.levels.length)) (e.honouredRelease profile) where
  loop_lt l hl := by
    obtain ⟨-, hlt⟩ := Option.filter_eq_some_iff.1 hl
    exact of_decide_eq_true hlt
  release_lt r hr := (Envelope.honouredRelease_some hr).1
  loop_lt_release r hr := by
    obtain ⟨hlt, loop, hloop, hl⟩ := Envelope.honouredRelease_some hr
    refine ⟨loop, ?_, hl⟩
    rw [hr, Option.isSome_some, if_pos rfl, hloop, Option.filter_some,
      if_pos (decide_eq_true (Nat.lt_trans hl hlt))]

/-- Frames that are encoded: those of a relative curve without a loop are followed by one more,
behind which it does not move. -/
def heldFrames (frames : List UInt8) (loop : Option Nat) (relative : Bool) : List UInt8 :=
  if relative && loop.isNone then frames ++ [bias 0] else frames

theorem length_heldFrames (frames : List UInt8) (loop : Option Nat) (relative : Bool) :
    frames.length ≤ (heldFrames frames loop relative).length ∧
      (heldFrames frames loop relative).length ≤ frames.length + 1 := by
  unfold heldFrames
  split <;> simp

theorem heldFrames_bytes {frames : List UInt8} (hf : ∀ b ∈ frames, 0x80 ≤ b) (loop : Option Nat)
    (relative : Bool) : ∀ b ∈ heldFrames frames loop relative, 0x80 ≤ b := by
  unfold heldFrames
  split
  · intro b hb
    rcases List.mem_append.1 hb with hb | hb
    · exact hf b hb
    · rw [List.mem_singleton.1 hb]
      decide
  · exact hf

theorem Points.heldFrames {frames : List UInt8} {loop release : Option Nat}
    (h : Points frames.length loop release) (relative : Bool) :
    Points (heldFrames frames loop relative).length loop release where
  loop_lt l hl := Nat.lt_of_lt_of_le (h.loop_lt l hl) (length_heldFrames frames loop relative).1
  release_lt r hr :=
    Nat.lt_of_lt_of_le (h.release_lt r hr) (length_heldFrames frames loop relative).1
  loop_lt_release := h.loop_lt_release

/-- **Every envelope has a curve**: the encoder refuses none. -/
theorem encode_succeeds (e : Envelope) (profile : Profile) (log : Log) :
    ∃ result, encode e profile log = .ok result := by
  unfold encode
  split
  · exact ⟨_, rfl⟩
  rename_i hw
  have hpos : 0 < e.levels.length := Envelope.pos_of_isWellFormed (by simpa using hw)
  have hne : e.levels.map bias ≠ [] := by
    rw [← List.length_pos_iff, List.length_map]
    exact hpos
  have hpoints := points_levels e profile
  rw [← List.length_map (f := bias)] at hpoints
  simp only [encode_frames, encode_release]
  generalize Option.filter _ _ = loop at hpoints ⊢
  split
  · exact ⟨_, rfl⟩
  · have hheld : heldFrames (e.levels.map bias) loop e.relative ≠ [] := by
      have hle := (length_heldFrames (e.levels.map bias) loop e.relative).1
      exact List.ne_nil_of_length_pos (Nat.lt_of_lt_of_le (List.length_pos_iff.2 hne) hle)
    obtain ⟨curve, hcurve⟩ :=
      encodeRuns_succeeds (heldFrames_bytes (levels_bytes e) loop e.relative) hheld
        (hpoints.heldFrames e.relative)
    rw [heldFrames] at hcurve
    exact ⟨_, by rw [hcurve]; rfl⟩

theorem encodeInstrument_succeeds (e : Envelope) (kind : EnvelopeKind) (kernel : Kernel)
    (log : Log) : ∃ result, encodeInstrument e kind kernel log = .ok result := by
  unfold encodeInstrument
  split
  · exact ⟨_, rfl⟩
  · exact encode_succeeds e _ log

end Curve

/-! ## Steps that add curves -/

namespace Tables

theorem addEnvelope_succeeds (t : Tables) (e : Option Envelope) (kind : EnvelopeKind)
    (kernel : Kernel) : ∃ result, t.addEnvelope e kind kernel = .ok result := by
  cases e with
  | none => exact ⟨_, rfl⟩
  | some e =>
    refine bind_succeeds (Curve.encodeInstrument_succeeds e kind kernel t.log) fun result => ?_
    obtain ⟨curve, log⟩ := result
    cases curve <;> exact ⟨_, rfl⟩

theorem vibrato_succeeds (t : Tables) (v : Vibrato) : ∃ result, t.vibrato v = .ok result := by
  simp only [vibrato]
  split
  · exact ⟨_, rfl⟩
  · exact bind_succeeds (Curve.encode_succeeds _ _ _) fun result => ⟨_, rfl⟩

end Tables

theorem InstrumentCurves.add_succeeds (i : Instrument) (kernel : Kernel) (t : Tables) :
    ∃ result, InstrumentCurves.add i kernel t = .ok result :=
  bind_succeeds (t.addEnvelope_succeeds _ _ _) fun volume =>
    bind_succeeds (volume.2.addEnvelope_succeeds _ _ _) fun arpeggio =>
      bind_succeeds (arpeggio.2.addEnvelope_succeeds _ _ _) fun pitch =>
        bind_succeeds (pitch.2.addEnvelope_succeeds _ _ _) fun _ => ⟨_, rfl⟩

namespace Compile

theorem addInstruments_succeeds (kernel : Kernel) (slots : Slots) (first : Nat)
    (instruments : List Instrument) (t : Tables) (w : WaveTables) :
    ∃ result, addInstruments kernel slots first instruments t w = .ok result := by
  induction instruments generalizing first t w with
  | nil => exact ⟨_, rfl⟩
  | cons i rest ih =>
    rw [addInstruments]
    split
    · exact bind_succeeds (ih _ _ _) fun _ => ⟨_, rfl⟩
    · exact bind_succeeds (InstrumentCurves.add_succeeds i kernel t) fun _ =>
        bind_succeeds (ih _ _ _) fun _ => ⟨_, rfl⟩

theorem addArpeggios_succeeds (kernel : Kernel) (arpeggios : List Arpeggio) (t : Tables) :
    ∃ result, addArpeggios kernel arpeggios t = .ok result := by
  induction arpeggios generalizing t with
  | nil => exact ⟨_, rfl⟩
  | cons a rest ih =>
    exact bind_succeeds (t.addEnvelope_succeeds _ _ _) fun _ =>
      bind_succeeds (ih _) fun _ => ⟨_, rfl⟩

end Compile

end Chiptune
