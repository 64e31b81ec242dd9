import Chiptune.Proofs.Instructions
import Chiptune.Proofs.Registers

/-!
# The direction of a slide

The step of a slide comes from a quotient of floats that may be zero, huge or undefined. Whatever it
is, the step fits a signed byte and goes the way that the registers of the two notes tell, which is
the same in both regions.

* `sign_regionStep`: the step of a region has the sign of the difference of its registers.
* `not_opposed`: the registers of the regions differ in the same direction.
* `slideStep_direction`: **a slide keeps its direction**, and where the data plays in both regions
  its step is the larger one.
-/

set_option autoImplicit false

namespace Chiptune

namespace Pitch

/-! ## Differences of registers -/

/-- The register of the playable note nearest to a given one, read in the pitch table. -/
def entry (profile : PitchProfile) (machine : Machine) (note : UInt8) : Nat :=
  (table profile machine).getD (clampNote note).toNat 0

/-- Difference of the registers of two notes. -/
def difference (profile : PitchProfile) (machine : Machine) (source target : UInt8) : Int :=
  entry profile machine source - entry profile machine target

theorem toNat_clampNote : ∀ note, (clampNote note).toNat = max 1 (min 96 note.toNat) :=
  forall_byte (by decide +kernel)

/-- Every note that is played has its register in the table. -/
theorem entry_eq (profile : PitchProfile) (machine : Machine) (note : UInt8) :
    entry profile machine note = get profile machine note := by
  have hnote := toNat_clampNote note
  have hlt : (clampNote note).toNat < noteMax.toNat + 1 := by
    rw [hnote]
    exact Nat.lt_succ_of_le (Nat.max_le.2 ⟨by decide, Nat.min_le_left _ _⟩)
  rw [entry, table, List.getD_eq_getElem?_getD, List.getElem?_map, List.getElem?_range hlt,
    Option.map_some, Option.getD_some, if_neg (by omega), get]

/-- One of two numbers is positive and the other one negative. -/
def Opposed (a b : Int) : Prop := a < 0 ∧ 0 < b ∨ 0 < a ∧ b < 0

/-- Whether two numbers are opposed is seen from their signs. -/
theorem opposed_iff {a b : Int} :
    Opposed a b ↔ a.sign = -1 ∧ b.sign = 1 ∨ a.sign = 1 ∧ b.sign = -1 := by
  simp only [Opposed, Int.sign_eq_one_iff_pos, Int.sign_eq_neg_one_iff_neg]

/-- **The registers of two notes differ in the same direction in all regions**, since they follow
the notes in each. -/
theorem not_opposed (profile : PitchProfile) (machine machine' : Machine) (source target : UInt8) :
    ¬ Opposed (difference profile machine source target)
      (difference profile machine' source target) := by
  have hnotes : ∀ {a b : UInt8}, a.toNat ≤ b.toNat → (clampNote a).toNat ≤ (clampNote b).toNat := by
    intro a b hle
    rw [toNat_clampNote, toNat_clampNote]
    omega
  simp only [Opposed, difference, entry_eq, get]
  rcases Nat.le_total source.toNat target.toNat with hle | hle
  all_goals
    cases hperiod : isPeriod profile with
    | true =>
      have hfalls := @register_antitone profile machine hperiod _ _ (hnotes hle)
      have hfalls' := @register_antitone profile machine' hperiod _ _ (hnotes hle)
      omega
    | false =>
      have hrises := @register_monotone profile machine hperiod _ _ (hnotes hle)
      have hrises' := @register_monotone profile machine' hperiod _ _ (hnotes hle)
      omega

end Pitch

open Pitch

/-! ## One region -/

/-- A step is some positive number of units in the direction of the registers, cut to a signed byte;
the number of frames decides only how many. -/
theorem regionStep_eq (profile : PitchProfile) (machine : Machine) (source target : UInt8)
    (frames : Float) : ∃ size : Nat, 1 ≤ size ∧
      regionStep profile machine source target frames =
        max (-128) (min 127 (size * (difference profile machine source target).sign)) := by
  have hdifference : (get profile machine source : Int) - get profile machine target =
      difference profile machine source target := by
    rw [difference, entry_eq, entry_eq]
  unfold regionStep
  simp only [hdifference]
  split
  · rename_i hzero
    exact ⟨1, Nat.le_refl 1, by rw [hzero]; rfl⟩
  · exact ⟨_, Nat.le_max_left 1 _, rfl⟩

/-- The step fits a signed byte. -/
theorem regionStep_bounds (profile : PitchProfile) (machine : Machine) (source target : UInt8)
    (frames : Float) : -128 ≤ regionStep profile machine source target frames ∧
      regionStep profile machine source target frames ≤ 127 := by
  obtain ⟨size, -, hstep⟩ := regionStep_eq profile machine source target frames
  rw [hstep]
  omega

/-- **The step goes where the difference of the registers does.** -/
theorem sign_regionStep (profile : PitchProfile) (machine : Machine) (source target : UInt8)
    (frames : Float) : (regionStep profile machine source target frames).sign =
      (difference profile machine source target).sign := by
  obtain ⟨size, hsize, hstep⟩ := regionStep_eq profile machine source target frames
  rw [hstep]
  rcases Int.lt_trichotomy (difference profile machine source target) 0 with hneg | hzero | hpos
  · rw [Int.sign_eq_neg_one_of_neg hneg]
    exact Int.sign_eq_neg_one_of_neg (by omega)
  · rw [hzero, Int.sign_zero, Int.mul_zero]
    rfl
  · rw [Int.sign_eq_one_of_pos hpos]
    exact Int.sign_eq_one_of_pos (by omega)

/-! ## Both regions -/

/-- Of two steps of one direction the one that moves further. -/
def further (a b : Int) : Int := if 0 ≤ a ∧ 0 ≤ b then max a b else min a b

/-- Step of a slide before it is put into a byte. -/
def wideStep (profile : PitchProfile) (machine : Machine) (source target : UInt8)
    (ntscFrames palFrames : Float) : Int :=
  let ntsc := regionStep profile .ntsc source target ntscFrames
  let pal := regionStep profile .pal source target palFrames
  match machine with
  | .ntsc => ntsc
  | .pal => pal
  | .dual => further ntsc pal

theorem slideStep_eq (profile : PitchProfile) (machine : Machine) (source target : UInt8)
    (ntscFrames palFrames : Float) :
    slideStep profile machine source target ntscFrames palFrames =
      Int8.ofInt (wideStep profile machine source target ntscFrames palFrames) := by
  cases machine <;> rfl

theorem further_eq (a b : Int) : further a b = a ∨ further a b = b := by
  unfold further
  split <;> omega

/-- **A byte holds every step.** -/
theorem toInt_slideStep (profile : PitchProfile) (machine : Machine) (source target : UInt8)
    (ntscFrames palFrames : Float) :
    (slideStep profile machine source target ntscFrames palFrames).toInt =
      wideStep profile machine source target ntscFrames palFrames := by
  have hntsc := regionStep_bounds profile .ntsc source target ntscFrames
  have hpal := regionStep_bounds profile .pal source target palFrames
  have hbounds : -128 ≤ wideStep profile machine source target ntscFrames palFrames ∧
      wideStep profile machine source target ntscFrames palFrames ≤ 127 := by
    unfold wideStep
    cases machine with
    | ntsc => exact hntsc
    | pal => exact hpal
    | dual =>
      rcases further_eq (regionStep profile .ntsc source target ntscFrames)
        (regionStep profile .pal source target palFrames) with h | h <;> simp only [h]
      · exact hntsc
      · exact hpal
  rw [slideStep_eq]
  exact Int8.toInt_ofInt_of_le hbounds.1 (Int.lt_add_one_of_le hbounds.2)

/-- A step is one of two others and goes as far as both. -/
structure Covers (step a b : Int) : Prop where
  chosen : step = a ∨ step = b
  natAbs_left : a.natAbs ≤ step.natAbs
  natAbs_right : b.natAbs ≤ step.natAbs

variable {a b : Int}

theorem covers_further (h : ¬ Opposed a b) : Covers (further a b) a b := by
  have hchosen := further_eq a b
  unfold Opposed at h
  unfold further at hchosen ⊢
  split at hchosen <;> split <;> exact ⟨by omega, by omega, by omega⟩

/-- The further step has the direction of each step that has one. -/
theorem sign_further (h : ¬ Opposed a b) {c : Int} (hc : c = a ∨ c = b) (hne : c ≠ 0) :
    (further a b).sign = c.sign := by
  unfold Opposed at h
  unfold further
  split
  · rw [Int.sign_eq_one_of_pos (show 0 < c by omega), Int.sign_eq_one_of_pos (by omega)]
  · rw [Int.sign_eq_neg_one_of_neg (show c < 0 by omega), Int.sign_eq_neg_one_of_neg (by omega)]

/-- **A slide keeps its direction**, whatever the numbers of frames are. A byte holds every step.
The step of one region is zero just if both notes have the same register, and otherwise has the sign
of their difference. Where the data plays in both regions, whose registers never differ in opposite
directions, the step is that of one of them, has the direction of both, and goes at least as far as
both. -/
theorem slideStep_direction (profile : PitchProfile) (source target : UInt8)
    (ntscFrames palFrames : Float) :
    let step machine := (slideStep profile machine source target ntscFrames palFrames).toInt
    let change machine := difference profile machine source target
    (∀ machine, step machine = wideStep profile machine source target ntscFrames palFrames) ∧
    (∀ machine, machine ≠ .dual →
      (step machine = 0 ↔ entry profile machine source = entry profile machine target) ∧
        (step machine).sign = (change machine).sign) ∧
    ¬ Opposed (change .ntsc) (change .pal) ∧
    Covers (step .dual) (step .ntsc) (step .pal) ∧
    ∀ machine, machine ≠ .dual → change machine ≠ 0 →
      (step .dual).sign = (change machine).sign := by
  intro step change
  have hwide : ∀ machine,
      step machine = wideStep profile machine source target ntscFrames palFrames :=
    fun machine => toInt_slideStep profile machine source target ntscFrames palFrames
  have hsign : ∀ machine, machine ≠ .dual → (step machine).sign = (change machine).sign := by
    intro machine hmachine
    rw [hwide]
    cases machine with
    | ntsc => exact sign_regionStep ..
    | pal => exact sign_regionStep ..
    | dual => exact absurd rfl hmachine
  have hzero : ∀ machine, machine ≠ .dual → (step machine = 0 ↔ change machine = 0) := by
    intro machine hmachine
    rw [← Int.sign_eq_zero_iff_zero, hsign machine hmachine, Int.sign_eq_zero_iff_zero]
  have hchange : ¬ Opposed (change .ntsc) (change .pal) :=
    not_opposed profile .ntsc .pal source target
  have hopposed : ¬ Opposed (step .ntsc) (step .pal) := by
    rw [opposed_iff, hsign .ntsc nofun, hsign .pal nofun, ← opposed_iff]
    exact hchange
  have hdual : step .dual = further (step .ntsc) (step .pal) := by
    rw [hwide, hwide, hwide]
    rfl
  refine ⟨hwide, fun machine hmachine => ⟨?_, hsign machine hmachine⟩, hchange,
    hdual ▸ covers_further hopposed, fun machine hmachine hne => ?_⟩
  · rw [hzero machine hmachine, ← Int.natCast_inj]
    exact Int.sub_eq_zero
  · rw [← hsign machine hmachine, hdual]
    refine sign_further hopposed ?_ (fun h => hne ((hzero machine hmachine).1 h))
    cases machine with
    | ntsc => exact .inl rfl
    | pal => exact .inr rfl
    | dual => exact absurd rfl hmachine

end Chiptune
