import Chiptune.Proofs.Curves
import Chiptune.Proofs.Instructions

/-!
# What an envelope sounds like

A driver holds the first 240 values of an envelope, each clamped to the range of a curve
(`Envelope.levels`), and `Envelope.playback` says which of them it plays on each frame of a note.

* `Curve.play_encode`: **the encoded curve of an envelope plays just this**.
-/

set_option autoImplicit false

namespace Chiptune

open Curve

namespace Envelope

/-- Values that a driver holds: the first 240, each clamped to the range of a curve. -/
def levels (e : Envelope) : List Int8 :=
  (e.values.take 240).map fun value => max (-64) (min 63 value)

/-- Release point that a driver honours: one behind the first frame, if the driver knows releases
and the point is not cut off. -/
def honouredRelease (e : Envelope) (profile : Profile) : Option Nat :=
  if profile.allowReleases then e.effectiveRelease.filter (· < e.levels.length) else none

/-- Frame that plays at a time, given the time at which the note is released. Without a release
point the last frame is followed by the loop point, or else repeated; the note's release changes
nothing. -/
def frameAt (e : Envelope) (profile : Profile) (releaseAt : Option Nat) (time : Nat) : Nat :=
  let count := e.levels.length
  match e.honouredRelease profile with
  | none => cycle ((e.loopPoint.filter (· < count)).getD (count - 1)) count time
  | some release => sustainedAt count (e.effectiveLoop.getD 0) release releaseAt time

/-- Values of the first frames of a note that is released at a time, or never. -/
def playback (e : Envelope) (profile : Profile) (count : Nat) (releaseAt : Option Nat) :
    List Int8 :=
  (List.range count).map fun time => e.levels.getD (e.frameAt profile releaseAt time) 0

theorem pos_of_isWellFormed {e : Envelope} (h : e.isWellFormed = true) : 0 < e.levels.length := by
  have hpos : 0 < e.values.length := of_decide_eq_true (Bool.and_eq_true_iff.1
    (Bool.and_eq_true_iff.1 h).1).1
  rw [levels, List.length_map, List.length_take]
  omega

theorem length_levels_le (e : Envelope) : e.levels.length ≤ 240 := by
  rw [levels, List.length_map, List.length_take]
  omega

theorem loop_lt {e : Envelope} (h : e.isWellFormed = true) :
    (e.loopPoint.filter (· < e.levels.length)).getD (e.levels.length - 1) < e.levels.length := by
  have hpos := pos_of_isWellFormed h
  cases hloop : e.loopPoint.filter (· < e.levels.length) with
  | none => exact Nat.sub_one_lt_of_lt hpos
  | some loop => exact of_decide_eq_true (Option.filter_eq_some_iff.1 hloop).2

/-- A release has a loop before it. -/
theorem effectiveLoop_lt {e : Envelope} {release : Nat} (h : e.effectiveRelease = some release) :
    ∃ loop, e.effectiveLoop = some loop ∧ loop < release := by
  have hpos : 0 < release := by
    rw [effectiveRelease, Option.filter_eq_some_iff] at h
    exact of_decide_eq_true h.2
  unfold effectiveLoop
  rw [h]
  cases e.loopPoint with
  | none => exact ⟨_, rfl, by omega⟩
  | some loop =>
    refine ⟨_, rfl, ?_⟩
    split <;> omega

/-- A release that is honoured has a loop before it and a frame behind it. -/
theorem honouredRelease_some {e : Envelope} {profile : Profile} {release : Nat}
    (h : e.honouredRelease profile = some release) :
    release < e.levels.length ∧ ∃ loop, e.effectiveLoop = some loop ∧ loop < release := by
  unfold honouredRelease at h
  split at h
  · rw [Option.filter_eq_some_iff] at h
    exact ⟨of_decide_eq_true h.2, effectiveLoop_lt h.1⟩
  · cases h

/-- What plays is one of the levels. -/
theorem frameAt_lt {e : Envelope} (h : e.isWellFormed = true) (profile : Profile)
    (releaseAt : Option Nat) (time : Nat) :
    e.frameAt profile releaseAt time < e.levels.length := by
  simp only [frameAt]
  split
  · exact cycle_lt (loop_lt h) time
  · rename_i release hrelease
    obtain ⟨hlt, loop, hloop, hl⟩ := honouredRelease_some hrelease
    have hcycle := cycle_lt hl time
    rw [hloop, Option.getD_some]
    unfold sustainedAt
    split
    · split <;> omega
    · omega

end Envelope

namespace Curve

theorem clampValue_eq (value : Int8) : clampValue value = max (-64) (min 63 value) := by
  have hmin : min 63 value = if (63 : Int8) ≤ value then 63 else value := rfl
  have hmax : max (-64) (min 63 value) =
      if (-64 : Int8) ≤ min 63 value then min 63 value else -64 := rfl
  rw [hmax, hmin]
  simp only [clampValue, valueMin, valueMax]
  grind

/-- The byte of a value within the range is a value byte. -/
theorem value_byte (value : Int8) : 0x80 ≤ bias (clampValue value) := by
  have key : ∀ b : UInt8, 0x80 ≤ bias (clampValue b.toInt8) := forall_byte (by decide +kernel)
  have h := key value.toUInt8
  rwa [Int8.toInt8_toUInt8] at h

theorem unbias_bias (value : Int8) : unbias (bias value) = value := by
  simp [unbias, bias]

variable {e : Envelope} {profile : Profile}

theorem levels_bytes (e : Envelope) : ∀ b ∈ e.levels.map bias, 0x80 ≤ b := by
  intro b hb
  simp only [Envelope.levels, List.map_map, List.mem_map, Function.comp_apply] at hb
  obtain ⟨value, -, rfl⟩ := hb
  rw [← clampValue_eq]
  exact value_byte value

theorem map_unbias_levels (e : Envelope) : (e.levels.map bias).map unbias = e.levels := by
  rw [List.map_map]
  exact List.map_id'' unbias_bias e.levels

theorem encode_frames (e : Envelope) :
    ((e.values.take maxLength).map fun value => bias (clampValue value)) = e.levels.map bias := by
  rw [Envelope.levels, List.map_map]
  exact List.map_congr_left fun value _ => by rw [clampValue_eq]; rfl

theorem encode_release (e : Envelope) (profile : Profile) :
    (if profile.allowReleases then
      e.effectiveRelease.filter (· < (e.levels.map bias).length) else none) =
      e.honouredRelease profile := by
  rw [List.length_map]
  rfl

/-! ## A level that is held -/

/-- A halted player plays its last value for ever. -/
theorem plays_halted (bytes : Array UInt8) {p : Player} (h : p.halted = true) (count : Nat) :
    ∃ p', p.Plays bytes (List.replicate count p.value) p' := by
  induction count generalizing p with
  | zero => exact ⟨p, .nil p⟩
  | succ count ih =>
    have hfetch : p.fetch bytes = some p := by simp [Player.fetch, h]
    obtain ⟨p', hp'⟩ := ih (p := p.tick) h
    exact ⟨p', .frame hfetch hp'⟩

/-- A level that is applied once and halts stays. -/
theorem play_applied {value : UInt8} (hv : 0x80 ≤ value) (count : Nat) (releaseAt : Option Nat) :
    play [0x00, value, jump, 2] count releaseAt = some (List.replicate count (unbias value)) := by
  have hfirst := @Player.fetch_value #[0x00, value, jump, 2] {} 1 value ⟨rfl, rfl, rfl⟩ rfl hv
  have hhalt : (⟨2, 0, unbias value, false⟩ : Player).fetch #[0x00, value, jump, 2] =
      some ⟨2, 0, unbias value, true⟩ := rfl
  obtain ⟨p, hp⟩ := plays_halted #[0x00, value, jump, 2]
    (p := ⟨2, 0, unbias value, true⟩) rfl count
  have hplays : ({} : Player).Plays #[0x00, value, jump, 2]
      (unbias value :: unbias value :: List.replicate count (unbias value)) p :=
    .frame hfirst (.frame hhalt hp)
  obtain ⟨q, hq⟩ := hplays.take count
  rw [← List.replicate_succ, ← List.replicate_succ, List.take_replicate,
    Nat.min_eq_left (by omega)] at hq
  have hplay := @play_silent [0x00, value, jump, 2] rfl _ _ hq releaseAt
  rwa [List.length_replicate] at hplay

/-- A level that is set again and again stays. -/
theorem play_repeated {value : UInt8} (hv : 0x80 ≤ value) (count : Nat)
    (releaseAt : Option Nat) :
    play [0x00, UInt8.ofNat maxRun, value, jump, 1] count releaseAt =
      some (List.replicate count (unbias value)) := by
  have hrun : ∀ r ∈ [(value, maxRun)], IsRun r := by
    intro r hr
    rw [List.mem_singleton.1 hr]
    exact ⟨hv, show 1 ≤ maxRun by decide, Nat.le_refl _⟩
  obtain ⟨p, hp⟩ := plays_records (List.forall_mem_nil _) hrun (by simp [framesOf, maxRun]) [0]
    (by decide) [] (p := {}) ⟨rfl, rfl, rfl⟩ count
  have hvalues : ((List.range count).map fun time => (([] ++ framesOf [(value, maxRun)]).map
      unbias).getD (cycle 0 (0 + (framesOf [(value, maxRun)]).length) time) 0) =
      List.replicate count (unbias value) := by
    have hlt := cycle_lt (show 0 < maxRun by decide)
    refine List.eq_replicate_iff.2 ⟨by simp, fun x hx => ?_⟩
    obtain ⟨time, -, rfl⟩ := List.mem_map.1 hx
    simp [framesOf, List.getD_eq_getElem?_getD, hlt time]
  rw [List.length_nil, hvalues] at hp
  have hplay := @play_silent [0x00, UInt8.ofNat maxRun, value, jump, 1] rfl _ _ hp releaseAt
  rwa [List.length_replicate] at hplay

/-! ## The encoded curve -/

theorem bind_some_eq (curve : Except Fault (List UInt8)) (log : Log) :
    (do
      let bytes ← curve
      Except.ok (some bytes, log)) = curve.map fun bytes => (some bytes, log) := by
  cases curve <;> rfl

section Encode

variable (hw : e.isWellFormed = true) (hr : e.relative = false)
include hw hr

/-- A single level that is held has a form of its own. -/
theorem encode_hold (log : Log) {value : UInt8} (hframes : e.levels.map bias = [value])
    (hrelease : e.honouredRelease profile = none) :
    ∃ log', encode e profile log = .ok (some (if profile.isPitch then [0x00, value, jump, 2]
      else [0x00, UInt8.ofNat maxRun, value, jump, 1]), log') := by
  unfold encode
  simp only [hw, hr, encode_frames, encode_release, Bool.not_true, Bool.false_eq_true, if_false]
  simp only [hframes, hrelease]
  exact ⟨_, rfl⟩

/-- All other levels are encoded as runs. -/
theorem encode_runs (profile : Profile) (log : Log)
    (h : 1 < e.levels.length ∨ e.honouredRelease profile ≠ none) :
    ∃ log', encode e profile log = (encodeRuns (e.levels.map bias)
      ((if (e.honouredRelease profile).isSome then e.effectiveLoop else e.loopPoint).filter
        (· < e.levels.length)) (e.honouredRelease profile)).map
          fun curve => (some curve, log') := by
  unfold encode
  simp only [hw, hr, encode_frames, Bool.not_true, Bool.false_eq_true, if_false, Bool.false_and,
    List.length_map]
  split
  · rename_i value hframes _ hnone
    have hone : e.levels.length = 1 := by simpa using congrArg List.length hframes
    rcases h with h | h
    · omega
    · exact absurd hnone h
  · exact ⟨_, bind_some_eq _ _⟩

/-- A release part that is honoured is played. -/
theorem play_encode_release (log : Log) {release : Nat}
    (hrelease : e.honouredRelease profile = some release) :
    ∃ curve log', encode e profile log = .ok (some curve, log') ∧ ∀ count releaseAt,
      play curve count releaseAt = some (e.playback profile count releaseAt) := by
  obtain ⟨hlt, loop, hloop, hl⟩ := Envelope.honouredRelease_some hrelease
  obtain ⟨log', hencode⟩ := encode_runs hw hr profile log (.inr (by simp [hrelease]))
  have hfilter : (some loop).filter (· < e.levels.length) = some loop := by
    simp only [Option.filter_some, decide_eq_true_eq]
    rw [if_pos (by omega)]
  obtain ⟨curve, hcurve, hplay⟩ := encodeRuns_sustains (levels_bytes e)
    (by rw [List.length_map]; exact Envelope.length_levels_le e) hl
    (by rw [List.length_map]; exact hlt)
  rw [hrelease, Option.isSome_some, if_pos rfl, hloop, hfilter, hcurve] at hencode
  refine ⟨curve, log', hencode, fun count releaseAt => ?_⟩
  rw [hplay, map_unbias_levels, List.length_map]
  simp only [Envelope.playback, Envelope.frameAt, hrelease, hloop, Option.getD_some]

/-- Without a release part the levels are played as a cycle. -/
theorem play_encode_cycle (log : Log) (hrelease : e.honouredRelease profile = none) :
    ∃ curve log', encode e profile log = .ok (some curve, log') ∧ ∀ count releaseAt,
      play curve count releaseAt = some (e.playback profile count releaseAt) := by
  have hpos := Envelope.pos_of_isWellFormed hw
  have hplayback : ∀ count releaseAt, e.playback profile count releaseAt =
      (List.range count).map fun time => e.levels.getD (cycle ((e.loopPoint.filter
        (· < e.levels.length)).getD (e.levels.length - 1)) e.levels.length time) 0 := by
    intro count releaseAt
    simp only [Envelope.playback, Envelope.frameAt, hrelease]
  by_cases hone : 1 < e.levels.length
  · obtain ⟨log', hencode⟩ := encode_runs hw hr profile log (.inl hone)
    obtain ⟨curve, hcurve, hplay⟩ := encodeRuns_loops (levels_bytes e)
      (by rw [List.length_map]; exact Nat.le_succ_of_le (Envelope.length_levels_le e))
      (e.loopPoint.filter (· < e.levels.length))
      (List.ne_nil_of_length_pos (by rw [List.length_map]; exact hpos))
      (fun l hl => by
        rw [List.length_map]
        exact of_decide_eq_true (Option.filter_eq_some_iff.1 hl).2)
    rw [hrelease, Option.isSome_none, if_neg (by simp), hcurve] at hencode
    refine ⟨curve, log', hencode, fun count releaseAt => ?_⟩
    rw [hplay, map_unbias_levels, List.length_map, hplayback]
  · obtain ⟨level, hlevel⟩ := List.length_eq_one_iff.1 (show e.levels.length = 1 by omega)
    have hframes : e.levels.map bias = [bias level] := by rw [hlevel]; rfl
    obtain ⟨log', hencode⟩ := encode_hold hw hr log hframes hrelease
    have hbyte : 0x80 ≤ bias level := levels_bytes e _ (by rw [hframes]; exact List.mem_cons_self)
    refine ⟨_, log', hencode, fun count releaseAt => ?_⟩
    have hheld : e.playback profile count releaseAt = List.replicate count level := by
      refine List.eq_replicate_iff.2 ⟨by simp [Envelope.playback], fun x hx => ?_⟩
      obtain ⟨time, -, rfl⟩ := List.mem_map.1 hx
      have hlt := Envelope.frameAt_lt hw profile releaseAt time
      rw [hlevel] at hlt ⊢
      rw [Nat.lt_one_iff.1 hlt]
      rfl
    rw [hheld]
    have happlied := play_applied hbyte count releaseAt
    have hrepeated := play_repeated hbyte count releaseAt
    rw [unbias_bias] at happlied hrepeated
    split
    · exact happlied
    · exact hrepeated

/-- **The encoded curve of an envelope plays its levels**: for every number of frames and every time
of the note's release, on the very frames that `Envelope.frameAt` says. -/
theorem play_encode (profile : Profile) (log : Log) :
    (∀ releaseAt time, e.frameAt profile releaseAt time < e.levels.length) ∧
    ∃ curve log', encode e profile log = .ok (some curve, log') ∧ ∀ count releaseAt,
      play curve count releaseAt = some (e.playback profile count releaseAt) ∧
      playKept curve count releaseAt =
        (Capacity.check 1 count).map fun _ => e.playback profile count releaseAt := by
  have hplays : ∃ curve log', encode e profile log = .ok (some curve, log') ∧
      ∀ count releaseAt, play curve count releaseAt =
        some (e.playback profile count releaseAt) := by
    cases hrelease : e.honouredRelease profile with
    | none => exact play_encode_cycle hw hr log hrelease
    | some release => exact play_encode_release hw hr log hrelease
  obtain ⟨curve, log', hencode, hplay⟩ := hplays
  refine ⟨Envelope.frameAt_lt hw profile, curve, log', hencode, fun count releaseAt =>
    ⟨hplay count releaseAt, ?_⟩⟩
  unfold playKept
  rw [hplay]
  cases Capacity.check 1 count <;> rfl

end Encode

/-- A swell that is sustained until it is released. -/
def swell : Envelope :=
  { values := [3, 3, 12, 12, 12, -80, 7, 1], loopPoint := some 1, release := some 5 }

/-- The swell is released in the middle of a run, in the second turn of its loop. -/
theorem play_encode_swell :
    (swell.isWellFormed = true ∧ swell.relative = false) ∧
    ∃ curve log', encode swell ⟨true, false⟩ {} = .ok (some curve, log') ∧
      play curve 12 (some 7) = some [3, 3, 12, 12, 12, 3, 12, -64, 7, 1, 1, 1] := by
  have hw : swell.isWellFormed = true := by decide
  have hr : swell.relative = false := rfl
  obtain ⟨-, curve, log', hencode, hplay⟩ := play_encode hw hr ⟨true, false⟩ {}
  have hplayback : swell.playback ⟨true, false⟩ 12 (some 7) =
      [3, 3, 12, 12, 12, 3, 12, -64, 7, 1, 1, 1] := by decide
  refine ⟨⟨hw, hr⟩, curve, log', hencode, ?_⟩
  rw [(hplay 12 (some 7)).1, hplayback]

end Curve

end Chiptune
