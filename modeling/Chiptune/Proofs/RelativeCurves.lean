import Chiptune.Proofs.Envelopes
import Mathlib.Data.List.GetD

/-!
# What a relative envelope sounds like

The values of a relative envelope are changes, which a driver adds up frame by frame, so a curve
that has ended must add nothing more. `Envelope.changes` says what is added on each frame, given
what a curve with a release adds behind its last value.

* `Curve.play_encode_relative`: **the encoded curve of a relative envelope adds just these
  changes**, and nothing more behind its end, unless it ends behind a release: there its last change
  is added over and over.
-/

set_option autoImplicit false

namespace Chiptune

open Curve

namespace Envelope

/-- Loop point that a driver returns to, unless it is cut off. -/
def honouredLoop (e : Envelope) (profile : Profile) : Option Nat :=
  (if (e.honouredRelease profile).isSome then e.effectiveLoop else e.loopPoint).filter
    (· < e.levels.length)

/-- Change that is added at a time, given the time at which the note is released. Without a release
point the levels are added once each, or again and again from the loop point on; with one they cycle
up to it until the note is released, and then the rest is added once, and `held` behind it. -/
def changeAt (e : Envelope) (profile : Profile) (held : Int8) (releaseAt : Option Nat)
    (time : Nat) : Int8 :=
  match e.honouredRelease profile, e.honouredLoop profile with
  | none, none => e.levels.getD time 0
  | none, some loop => e.levels.getD (cycle loop e.levels.length time) 0
  | some release, loop =>
    match releaseAt with
    | some start =>
      if start ≤ time then e.levels.getD (release + (time - start)) held
      else e.levels.getD (cycle (loop.getD 0) release time) 0
    | none => e.levels.getD (cycle (loop.getD 0) release time) 0

/-- Changes on the first frames of a note that is released at a time, or never. -/
def changes (e : Envelope) (profile : Profile) (held : Int8) (count : Nat)
    (releaseAt : Option Nat) : List Int8 :=
  (List.range count).map fun time => e.changeAt profile held releaseAt time

/-- The last change of the envelope. -/
def lastLevel (e : Envelope) : Int8 := e.levels.getLastD 0

theorem honouredLoop_lt {e : Envelope} {profile : Profile} {loop : Nat}
    (h : e.honouredLoop profile = some loop) : loop < e.levels.length :=
  of_decide_eq_true (Option.filter_eq_some_iff.1 h).2

/-- A release that is honoured has a loop before it. -/
theorem honouredLoop_of_release {e : Envelope} {profile : Profile} {release : Nat}
    (h : e.honouredRelease profile = some release) :
    ∃ loop, e.honouredLoop profile = some loop ∧ loop < release := by
  obtain ⟨hlt, loop, hloop, hl⟩ := honouredRelease_some h
  have hin : loop < e.levels.length := by omega
  exact ⟨loop, by simp [honouredLoop, h, hloop, hin], hl⟩

/-- Behind the end the last level is held. -/
theorem getD_min_last (e : Envelope) (time : Nat) :
    e.levels.getD (min time (e.levels.length - 1)) 0 = e.levels.getD time e.lastLevel := by
  by_cases h : time < e.levels.length
  · rw [Nat.min_eq_left (by omega), List.getD_eq_getElem _ _ h, List.getD_eq_getElem _ _ h]
  · rw [Nat.min_eq_right (by omega), List.getD_eq_default _ _ (Nat.le_of_not_lt h), lastLevel,
      List.getLastD_eq_getLast?, List.getLast?_eq_getElem?, List.getD_eq_getElem?_getD]

/-- Behind one more frame without a change nothing changes. -/
theorem getD_min_still (e : Envelope) (time : Nat) :
    (e.levels ++ [0]).getD (min time e.levels.length) 0 = e.levels.getD time 0 := by
  by_cases h : time < e.levels.length
  · rw [Nat.min_eq_left (by omega), List.getD_append _ _ _ _ h]
  · rw [Nat.min_eq_right (by omega), List.getD_append_right _ _ _ _ (Nat.le_refl _),
      List.getD_eq_default _ _ (Nat.le_of_not_lt h), Nat.sub_self]
    rfl

end Envelope

namespace Curve

variable {e : Envelope} {profile : Profile}

section Encode

variable (hw : e.isWellFormed = true) (hr : e.relative = true)
include hw hr

/-- The levels of a relative envelope are encoded as runs; without a loop one more frame follows, on
which nothing changes. -/
theorem encode_relative (profile : Profile) (log : Log) :
    ∃ log', encode e profile log = (encodeRuns
      (if (e.honouredLoop profile).isNone then e.levels.map bias ++ [bias 0] else e.levels.map bias)
      (e.honouredLoop profile) (e.honouredRelease profile)).map
        fun curve => (some curve, log') := by
  unfold encode
  simp only [hw, hr, encode_frames, Bool.not_true, Bool.false_eq_true, if_false, Bool.true_and,
    List.length_map]
  split
  · contradiction
  · exact ⟨_, bind_some_eq _ _⟩

/-- A curve that returns to a loop point, and knows no release. -/
theorem play_relative_cycle (log : Log) (hrelease : e.honouredRelease profile = none) {loop : Nat}
    (hloop : e.honouredLoop profile = some loop) :
    ∃ curve log', encode e profile log = .ok (some curve, log') ∧ ∀ count releaseAt,
      play curve count releaseAt = some (e.changes profile e.lastLevel count releaseAt) := by
  have hlt := Envelope.honouredLoop_lt hloop
  have hlen := Envelope.length_levels_le e
  obtain ⟨log', hencode⟩ := encode_relative hw hr profile log
  obtain ⟨curve, hcurve, hplay⟩ := encodeRuns_loops (levels_bytes e)
    (by rw [List.length_map]; omega) (some loop)
    (List.ne_nil_of_length_pos (by rw [List.length_map]; omega))
    (fun l hl => by rw [List.length_map, ← Option.mem_some.1 hl]; exact hlt)
  rw [hrelease, hloop, Option.isNone_some, if_neg Bool.false_ne_true, hcurve] at hencode
  refine ⟨curve, log', hencode, fun count releaseAt => ?_⟩
  rw [hplay, map_unbias_levels, List.length_map, Option.getD_some]
  simp only [Envelope.changes, Envelope.changeAt, hrelease, hloop]

/-- A curve without loop and release adds nothing behind its last level. -/
theorem play_relative_once (log : Log) (hrelease : e.honouredRelease profile = none)
    (hloop : e.honouredLoop profile = none) :
    ∃ curve log', encode e profile log = .ok (some curve, log') ∧ ∀ count releaseAt,
      play curve count releaseAt = some (e.changes profile e.lastLevel count releaseAt) := by
  have hlen := Envelope.length_levels_le e
  obtain ⟨log', hencode⟩ := encode_relative hw hr profile log
  have hframes : e.levels.map bias ++ [bias 0] = (e.levels ++ [0]).map bias := by simp
  have hbytes : ∀ b ∈ (e.levels ++ [0]).map bias, 0x80 ≤ b := by
    rw [← hframes]
    intro b hb
    rcases List.mem_append.1 hb with hb | hb
    · exact levels_bytes e b hb
    · rw [List.mem_singleton.1 hb]
      decide
  have hback : ((e.levels ++ [0]).map bias).map unbias = e.levels ++ [0] := by
    rw [List.map_map]
    exact List.map_id'' unbias_bias _
  obtain ⟨curve, hcurve, hplay⟩ := encodeRuns_loops hbytes (by simp; omega) none (by simp) (by simp)
  rw [hrelease, hloop, Option.isNone_none, if_pos rfl, hframes, hcurve] at hencode
  refine ⟨curve, log', hencode, fun count releaseAt => ?_⟩
  rw [hplay, hback, List.length_map, List.length_append, List.length_singleton, Option.getD_none]
  simp only [Envelope.changes, Envelope.changeAt, hrelease, hloop]
  refine congrArg some (List.map_congr_left fun time _ => ?_)
  rw [cycle_last (by omega), Nat.add_sub_cancel, Envelope.getD_min_still]

/-- Behind a release the last change is added over and over. -/
theorem play_relative_release (log : Log) {release : Nat}
    (hrelease : e.honouredRelease profile = some release) :
    ∃ curve log', encode e profile log = .ok (some curve, log') ∧ ∀ count releaseAt,
      play curve count releaseAt = some (e.changes profile e.lastLevel count releaseAt) := by
  have hlt := (Envelope.honouredRelease_some hrelease).1
  obtain ⟨loop, hloop, hl⟩ := Envelope.honouredLoop_of_release hrelease
  obtain ⟨log', hencode⟩ := encode_relative hw hr profile log
  obtain ⟨curve, hcurve, hplay⟩ := encodeRuns_sustains (levels_bytes e)
    (by rw [List.length_map]; exact Envelope.length_levels_le e) hl
    (by rw [List.length_map]; exact hlt)
  rw [hrelease, hloop, Option.isNone_some, if_neg Bool.false_ne_true, hcurve] at hencode
  refine ⟨curve, log', hencode, fun count releaseAt => ?_⟩
  rw [hplay, map_unbias_levels, List.length_map]
  simp only [Envelope.changes, Envelope.changeAt, hrelease, hloop, Option.getD_some]
  refine congrArg some (List.map_congr_left fun time _ => ?_)
  cases releaseAt with
  | none => rfl
  | some start =>
    simp only [sustainedAt]
    by_cases hstart : start ≤ time
    · rw [if_pos hstart, if_pos hstart, Envelope.getD_min_last]
    · rw [if_neg hstart, if_neg hstart]

end Encode

/-- The frame behind the end of a release tells what is held. -/
theorem changes_behind_release {release : Nat} (hrelease : e.honouredRelease profile = some release)
    (held : Int8) : (e.changes profile held (e.levels.length - release + 1) (some 0)).getLast? =
      some held := by
  have hlt := (Envelope.honouredRelease_some hrelease).1
  rw [Envelope.changes, List.range_succ, List.map_append, List.map_singleton,
    List.getLast?_concat]
  have hbehind : release + (e.levels.length - release) = e.levels.length := by omega
  simp [Envelope.changeAt, hrelease, hbehind]

/-- **The encoded curve of a relative envelope adds its levels**, for every number of frames and
every time of the note's release, and adds nothing behind its end, unless there is a release that is
honoured: then the last level is held, and the curve stops just if that level is 0. -/
theorem play_encode_relative (hw : e.isWellFormed = true) (hr : e.relative = true)
    (profile : Profile) (log : Log) :
    ∃ curve log', encode e profile log = .ok (some curve, log') ∧
      (∀ count releaseAt, play curve count releaseAt =
        some (e.changes profile e.lastLevel count releaseAt)) ∧
      ((∀ count releaseAt, play curve count releaseAt =
        some (e.changes profile 0 count releaseAt)) ↔
          ((e.honouredRelease profile).isSome → e.lastLevel = 0)) := by
  have hplays : ∃ curve log', encode e profile log = .ok (some curve, log') ∧
      ∀ count releaseAt, play curve count releaseAt =
        some (e.changes profile e.lastLevel count releaseAt) := by
    cases hrelease : e.honouredRelease profile with
    | some release => exact play_relative_release hw hr log hrelease
    | none =>
      cases hloop : e.honouredLoop profile with
      | some loop => exact play_relative_cycle hw hr log hrelease hloop
      | none => exact play_relative_once hw hr log hrelease hloop
  obtain ⟨curve, log', hencode, hplay⟩ := hplays
  refine ⟨curve, log', hencode, hplay, fun h => ?_, fun h count releaseAt => ?_⟩
  · intro hsome
    obtain ⟨release, hrelease⟩ := Option.isSome_iff_exists.1 hsome
    have hboth := h (e.levels.length - release + 1) (some 0)
    rw [hplay, Option.some.injEq] at hboth
    have hlast := congrArg List.getLast? hboth
    rw [changes_behind_release hrelease, changes_behind_release hrelease] at hlast
    exact Option.some.inj hlast
  · rw [hplay]
    cases hrelease : e.honouredRelease profile with
    | some release => rw [h (by simp [hrelease])]
    | none =>
      cases hloop : e.honouredLoop profile <;>
        simp only [Envelope.changes, Envelope.changeAt, hrelease, hloop]

/-- A bend whose pitch goes on falling up to the last frame before the release and behind it. -/
def bend : Envelope :=
  { values := [5, -100, 0, 2, 2], loopPoint := some 3, release := some 3, relative := true }

/-- A kernel without releases plays the bend's loop; with releases the last step is added for
ever. -/
theorem play_encode_relative_bend :
    (bend.isWellFormed = true ∧ bend.relative = true) ∧
    (∃ curve log', encode bend ⟨false, true⟩ {} = .ok (some curve, log') ∧
      play curve 8 (some 4) = some [5, -64, 0, 2, 2, 2, 2, 2]) ∧
    ∃ curve log', encode bend ⟨true, true⟩ {} = .ok (some curve, log') ∧
      play curve 9 (some 5) = some [5, -64, 0, 0, 0, 2, 2, 2, 2] := by
  have hw : bend.isWellFormed = true := by decide
  have hr : bend.relative = true := rfl
  refine ⟨⟨hw, hr⟩, ?_, ?_⟩
  · obtain ⟨curve, log', hencode, hplay, -⟩ := play_encode_relative hw hr ⟨false, true⟩ {}
    have hchanges : bend.changes ⟨false, true⟩ bend.lastLevel 8 (some 4) =
        [5, -64, 0, 2, 2, 2, 2, 2] := by decide
    exact ⟨curve, log', hencode, by rw [hplay, hchanges]⟩
  · obtain ⟨curve, log', hencode, hplay, -⟩ := play_encode_relative hw hr ⟨true, true⟩ {}
    have hchanges : bend.changes ⟨true, true⟩ bend.lastLevel 9 (some 5) =
        [5, -64, 0, 0, 0, 2, 2, 2, 2] := by decide
    exact ⟨curve, log', hencode, by rw [hplay, hchanges]⟩

/-- A fall of two steps, the second of them behind the release. -/
def fall : Envelope := { values := [2, 1], release := some 1, relative := true }

/-- **A relative curve with a release goes on behind its end**: the fall is released on frame 1, and
adds 1 on that frame and on every later one. -/
theorem not_stops_behind_release :
    ¬ ∀ (e : Envelope) (profile : Profile) (log : Log), e.isWellFormed = true →
      e.relative = true → e.values.length ≤ 240 →
      ∃ curve log', encode e profile log = .ok (some curve, log') ∧ ∀ count releaseAt,
        play curve count releaseAt = some (e.changes profile 0 count releaseAt) := by
  intro h
  obtain ⟨curve, log', hencode, hplay⟩ :=
    h fall ⟨true, false⟩ {} (by decide) rfl (by decide)
  have hcurve : encode fall ⟨true, false⟩ {} =
      .ok (some [4, 0xC2, jump, 1, 0xC1, jump, 4], {}) := by rfl
  rw [hcurve] at hencode
  cases hencode
  exact absurd (hplay 4 (some 1)) (by decide)

end Curve

end Chiptune
