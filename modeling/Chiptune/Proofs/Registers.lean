import Chiptune.Pitch
import Mathlib.Algebra.Ring.Nat

/-!
# Pitch registers

The register of a note is found bit by bit; it is the largest value up to the limit that the exact
value reaches (`le_register_iff`). So registers follow the notes: periods fall and frequencies rise
(`register_monotone`, `register_antitone`), in every region.
-/

set_option autoImplicit false

namespace Chiptune.Pitch

/-! ## A search bit by bit -/

/-- The first powers of two, the largest one first. -/
def powers : Nat → List Nat
  | 0 => []
  | k + 1 => 2 ^ k :: powers k

/-- Add the bits of a list as long as the sum has a property. -/
def climb (P : Nat → Bool) (bits : List Nat) (start : Nat) : Nat :=
  bits.foldl (fun value bit => if P (value + bit) then value + bit else value) start

/-- **The search stops at the last value with the property**, if no value has it that comes behind
one without it. -/
theorem le_climb_iff {P : Nat → Bool} (hP : ∀ v w, v ≤ w → P w = true → P v = true)
    (k start : Nat) :
    start ≤ climb P (powers k) start ∧ climb P (powers k) start < start + 2 ^ k ∧
      ∀ v, start < v → v < start + 2 ^ k → (v ≤ climb P (powers k) start ↔ P v = true) := by
  induction k generalizing start with
  | zero => exact ⟨Nat.le_refl _, by simp [climb, powers], fun v hlt hle => by omega⟩
  | succ k ih =>
    have hclimb : climb P (powers (k + 1)) start =
        climb P (powers k) (if P (start + 2 ^ k) then start + 2 ^ k else start) := rfl
    have htwice : 2 ^ (k + 1) = 2 ^ k + 2 ^ k := by omega
    rw [hclimb, htwice]
    split
    · rename_i hbit
      obtain ⟨hle, hlt, hiff⟩ := ih (start + 2 ^ k)
      refine ⟨by omega, by omega, fun v hstart hv => ?_⟩
      by_cases hbehind : start + 2 ^ k < v
      · exact hiff v hbehind (by omega)
      · have hPv := hP v _ (Nat.le_of_not_lt hbehind) hbit
        exact ⟨fun _ => hPv, fun _ => by omega⟩
    · rename_i hbit
      obtain ⟨hle, hlt, hiff⟩ := ih start
      refine ⟨hle, by omega, fun v hstart hv => ?_⟩
      by_cases hbefore : v < start + 2 ^ k
      · exact hiff v hstart hbefore
      · have hPv : P v ≠ true := fun h => hbit (hP _ v (Nat.le_of_not_lt hbefore) h)
        exact ⟨fun h => by omega, fun h => absurd h hPv⟩

/-! ## Registers and notes -/

variable {profile : PitchProfile} {machine : Machine}

/-- Both factors of a scaled value grow. -/
theorem scaled_le_scaled {a a' m m' : Nat} (ha : a ≤ a') (hm : m ≤ m') :
    a ^ 12 * 2 ^ m ≤ a' ^ 12 * 2 ^ m' :=
  Nat.mul_le_mul (Nat.pow_le_pow_left ha 12) (Nat.pow_le_pow_right (by decide) hm)

theorem scaledLe_mono {a a' note note' b : Nat} (ha : a ≤ a') (hnote : note ≤ note')
    (h : scaledLe a' note' b = true) : scaledLe a note b = true := by
  simp only [scaledLe, decide_eq_true_eq, Nat.shiftLeft_eq, Nat.pow_eq] at h ⊢
  calc a ^ 12 * 2 ^ (note - a4)
      ≤ a' ^ 12 * 2 ^ (note' - a4) := scaled_le_scaled ha (by omega)
    _ ≤ b ^ 12 * 2 ^ (a4 - note') := h
    _ ≤ b ^ 12 * 2 ^ (a4 - note) := scaled_le_scaled (Nat.le_refl b) (by omega)

theorem inverseScaledLe_mono {a a' note note' b : Nat} (ha : a ≤ a') (hnote : note' ≤ note)
    (h : inverseScaledLe a' note' b = true) : inverseScaledLe a note b = true := by
  simp only [inverseScaledLe, decide_eq_true_eq, Nat.shiftLeft_eq, Nat.pow_eq] at h ⊢
  calc a ^ 12 * 2 ^ (a4 - note)
      ≤ a' ^ 12 * 2 ^ (a4 - note') := scaled_le_scaled ha (by omega)
    _ ≤ b ^ 12 * 2 ^ (note' - a4) := h
    _ ≤ b ^ 12 * 2 ^ (note - a4) := scaled_le_scaled (Nat.le_refl b) (by omega)

/-- An exact value that reaches a register value reaches all smaller ones. -/
theorem reaches_of_le {note v w : Nat} (hle : v ≤ w) (h : reaches profile machine note w = true) :
    reaches profile machine note v = true := by
  cases profile with
  | apuPeriod => exact scaledLe_mono (Nat.mul_le_mul_right _ (by omega)) (Nat.le_refl note) h
  | sawPeriod => exact scaledLe_mono (Nat.mul_le_mul_right _ (by omega)) (Nat.le_refl note) h
  | frequency =>
    exact inverseScaledLe_mono (Nat.mul_le_mul_right _ (by omega)) (Nat.le_refl note) h
  | none => cases h

theorem limit_lt (profile : PitchProfile) : limit profile < 2 ^ 12 := by
  cases profile <;> decide

/-- **The register of a note is the largest value up to the limit that the exact value reaches.** -/
theorem le_register_iff {note v : Nat} (hpos : 0 < v) :
    v ≤ register profile machine note ↔
      v ≤ limit profile ∧ reaches profile machine note v = true := by
  have hclimb : register profile machine note =
      climb (fun v => v ≤ limit profile && reaches profile machine note v) (powers 12) 0 := by
    simp [register, climb, powers]
  have hlimit := limit_lt profile
  obtain ⟨-, hlt, hiff⟩ := le_climb_iff
    (P := fun v => v ≤ limit profile && reaches profile machine note v) (fun v w hle h => by
      simp only [Bool.and_eq_true, decide_eq_true_eq] at h ⊢
      exact ⟨Nat.le_trans hle h.1, reaches_of_le hle h.2⟩) 12 0
  rw [hclimb]
  by_cases hv : v < 2 ^ 12
  · rw [hiff v hpos (by omega), Bool.and_eq_true, decide_eq_true_eq]
  · exact ⟨fun h => by omega, fun h => by omega⟩

/-- A register is the smaller one if its note reaches less. -/
theorem register_le {note note' : Nat}
    (h : ∀ v, reaches profile machine note v = true → reaches profile machine note' v = true) :
    register profile machine note ≤ register profile machine note' := by
  by_cases hzero : register profile machine note = 0
  · omega
  · have hpos := Nat.pos_of_ne_zero hzero
    obtain ⟨hlimit, hreaches⟩ := (le_register_iff hpos).1 (Nat.le_refl _)
    exact (le_register_iff hpos).2 ⟨hlimit, h _ hreaches⟩

/-- **Periods fall along the notes.** -/
theorem register_antitone (hperiod : isPeriod profile = true) {note note' : Nat}
    (hle : note ≤ note') :
    register profile machine note' ≤ register profile machine note := by
  refine register_le fun v h => ?_
  cases profile with
  | apuPeriod => exact scaledLe_mono (Nat.le_refl _) hle h
  | sawPeriod => exact scaledLe_mono (Nat.le_refl _) hle h
  | frequency => cases hperiod
  | none => cases hperiod

/-- **Frequencies rise along the notes.** -/
theorem register_monotone (hperiod : isPeriod profile = false) {note note' : Nat}
    (hle : note ≤ note') :
    register profile machine note ≤ register profile machine note' := by
  refine register_le fun v h => ?_
  cases profile with
  | apuPeriod => cases hperiod
  | sawPeriod => cases hperiod
  | frequency => exact inverseScaledLe_mono (Nat.le_refl _) hle h
  | none => cases h

end Chiptune.Pitch
