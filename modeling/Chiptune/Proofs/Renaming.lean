import Chiptune.Proofs.Rows
import Mathlib.Data.List.Forall2
import Mathlib.Data.Option.Basic

/-!
# Streams up to the numbers of symbols

A stream names symbols by numbers. Two streams are the same up to these numbers if they differ in
corresponding symbols only, whatever `S` says corresponds; joining rows and encoding instructions
keep this (`Stream.renames_join`, `Instruction.renames_encodeAll`).
-/

set_option autoImplicit false

namespace Chiptune

/-! ## Renaming of symbols -/

section Renames

variable (S : Nat → Nat → Prop)

/-- Targets that name corresponding symbols. -/
inductive Target.Renames : Target → Target → Prop
  | symbol {a b : Nat} : S a b → Renames (.symbol a) (.symbol b)

/-- Instructions that differ in corresponding symbols only. -/
inductive Instruction.Renames : Instruction → Instruction → Prop
  | label {a b : Nat} : S a b → Renames (.label a) (.label b)
  | note (value : UInt8) (emptyRow : Bool) : Renames (.note value emptyRow) (.note value emptyRow)
  | instrument (slot : Nat) : Renames (.instrument slot) (.instrument slot)
  | emptyRows (count : Nat) : Renames (.emptyRows count) (.emptyRows count)
  | op (o : Op) (bytes : List UInt8) {targets targets' : List Target} :
      List.Forall₂ (Target.Renames S) targets targets' →
      Renames (.op o bytes targets) (.op o bytes targets')

/-- Tokens that differ in corresponding symbols only. -/
inductive Token.Renames : Token → Token → Prop
  | label {a b : Nat} : S a b → Renames (.label a) (.label b)
  | address {target target' : Target} :
      target.Renames S target' → Renames (.address target) (.address target')
  | plain {token : Token} : token.isReplayable = true → Renames token token

/-- Pieces that differ in corresponding symbols only. -/
inductive Stream.Piece.Renames : Stream.Piece → Stream.Piece → Prop
  | mark {a b : Nat} : S a b → Renames (.mark a) (.mark b)
  | row {is js : List Instruction} (advances : Bool) :
      List.Forall₂ (Instruction.Renames S) is js → Renames (.row is advances) (.row js advances)

end Renames

variable {S S' : Nat → Nat → Prop}

theorem Target.Renames.mono (hS : ∀ a b, S a b → S' a b) {t t' : Target} (h : t.Renames S t') :
    t.Renames S' t' := by
  obtain ⟨hab⟩ := h
  exact .symbol (hS _ _ hab)

theorem Instruction.Renames.mono (hS : ∀ a b, S a b → S' a b) {i j : Instruction}
    (h : i.Renames S j) : i.Renames S' j := by
  cases h with
  | label hab => exact .label (hS _ _ hab)
  | note value emptyRow => exact .note value emptyRow
  | instrument slot => exact .instrument slot
  | emptyRows count => exact .emptyRows count
  | op o bytes htargets => exact .op o bytes (htargets.imp fun _ _ => Target.Renames.mono hS)

theorem Token.Renames.mono (hS : ∀ a b, S a b → S' a b) {t u : Token} (h : t.Renames S u) :
    t.Renames S' u := by
  cases h with
  | label hab => exact .label (hS _ _ hab)
  | address htarget => exact .address (htarget.mono hS)
  | plain ht => exact .plain ht

theorem Stream.Piece.Renames.mono (hS : ∀ a b, S a b → S' a b) {p q : Stream.Piece}
    (h : p.Renames S q) : p.Renames S' q := by
  cases h with
  | mark hab => exact .mark (hS _ _ hab)
  | row advances his => exact .row advances (his.imp fun _ _ => Instruction.Renames.mono hS)

theorem Instruction.Renames.advancesRow {i j : Instruction} (h : i.Renames S j) :
    i.advancesRow = j.advancesRow := by
  cases h <;> rfl

/-- An instruction with neither operands nor a symbol is a single token. -/
theorem Instruction.encode_single {k : Kernel} {i : Instruction} {ts : List Token}
    (hi : i.HasOperands) (hlabel : ∀ id, i ≠ .label id)
    (hop : ∀ o bytes targets, i ≠ .op o bytes targets) (h : i.encode k = .ok ts) :
    ∃ token, ts = [token] ∧ token.isReplayable = true := by
  rcases encode_ok hi h with ⟨id, rfl, -⟩ | ⟨lead, bytes, targets, rfl, ho, hinstr⟩
  · exact absurd rfl (hlabel id)
  · have hnone : (k.decode lead).operands = some (0, 0) := by
      cases hd : k.decode lead with
      | op o =>
        rw [hd] at hinstr
        exact absurd (Option.some.inj hinstr).symm (hop _ _ _)
      | invalid =>
        rw [hd] at ho
        cases ho
      | _ => rfl
    rw [hnone, Option.some.injEq, Prod.mk.injEq] at ho
    obtain rfl := List.eq_nil_of_length_eq_zero ho.1.symm
    obtain rfl := List.eq_nil_of_length_eq_zero ho.2.symm
    exact ⟨_, rfl, by split <;> rfl⟩

theorem Instruction.Renames.encode {k : Kernel} {i j : Instruction} (h : i.Renames S j)
    {ts us : List Token} (hi : i.encode k = .ok ts) (hj : j.encode k = .ok us) :
    List.Forall₂ (Token.Renames S) ts us := by
  have hsame : ∀ i : Instruction, i.HasOperands → (∀ id, i ≠ .label id) →
      (∀ o bytes targets, i ≠ .op o bytes targets) → i.encode k = .ok ts → i.encode k = .ok us →
      List.Forall₂ (Token.Renames S) ts us := by
    intro i hoperands hlabel hop hts hus
    obtain rfl := Except.ok.inj (hts.symm.trans hus)
    obtain ⟨token, rfl, hplain⟩ := encode_single hoperands hlabel hop hts
    exact .cons (.plain hplain) .nil
  cases h with
  | label hab =>
    cases hi
    cases hj
    exact .cons (.label hab) .nil
  | note value emptyRow => exact hsame (.note value emptyRow) trivial (by simp) (by simp) hi hj
  | instrument slot => exact hsame (.instrument slot) trivial (by simp) (by simp) hi hj
  | emptyRows count => exact hsame (.emptyRows count) trivial (by simp) (by simp) hi hj
  | op o bytes htargets =>
    simp only [Instruction.encode] at hi hj
    split at hi
    · rename_i byte hbyte
      rw [hbyte] at hj
      cases hi
      cases hj
      refine .cons (.plain (by split <;> rfl)) (List.rel_append ?_ ?_)
      · exact List.forall₂_same.2 fun t ht => by
          obtain ⟨b, -, rfl⟩ := List.mem_map.1 ht
          exact .plain rfl
      · rw [List.forall₂_map_left_iff, List.forall₂_map_right_iff]
        exact htargets.imp fun _ _ => .address
    · cases hi

/-- Corresponding instructions are encoded by corresponding tokens. -/
theorem Instruction.renames_encodeAll {k : Kernel} {is js : List Instruction}
    (h : List.Forall₂ (Instruction.Renames S) is js) {ts us : List Token}
    (hi : encodeAll k is = .ok ts) (hj : encodeAll k js = .ok us) :
    List.Forall₂ (Token.Renames S) ts us := by
  induction h generalizing ts us with
  | nil =>
    cases hi
    cases hj
    exact .nil
  | cons hij _ ih =>
    obtain ⟨first, others, hfirst, hothers, rfl⟩ := encodeAll_cons_ok hi
    obtain ⟨first', others', hfirst', hothers', rfl⟩ := encodeAll_cons_ok hj
    exact List.rel_append (hij.encode hfirst hfirst') (ih hothers hothers')

/-- Tokens are the same if symbols correspond to themselves only. -/
theorem Token.eq_of_renames (hS : ∀ a b, S a b → a = b) {ts us : List Token}
    (h : List.Forall₂ (Token.Renames S) ts us) : ts = us := by
  have heach : ∀ t u, Token.Renames S t u → t = u := by
    intro t u htu
    cases htu with
    | label hab => rw [hS _ _ hab]
    | address htarget =>
      obtain ⟨hab⟩ := htarget
      rw [hS _ _ hab]
    | plain => rfl
  exact List.forall₂_eq_eq_eq ▸ h.imp heach

namespace Stream

theorem renames_holdNote {is js : List Instruction}
    (h : List.Forall₂ (Instruction.Renames S) is js) :
    List.Forall₂ (Instruction.Renames S) (holdNote is).1 (holdNote js).1 ∧
      (holdNote is).2 = (holdNote js).2 := by
  induction h with
  | nil => exact ⟨.nil, rfl⟩
  | @cons i j is js hij hrest ih =>
    cases hrest with
    | nil =>
      cases hij with
      | note value emptyRow =>
        cases emptyRow
        · exact ⟨.nil, rfl⟩
        · exact ⟨.cons (.note value true) .nil, rfl⟩
      | label hab => exact ⟨.cons (.label hab) .nil, rfl⟩
      | instrument slot => exact ⟨.cons (.instrument slot) .nil, rfl⟩
      | emptyRows count => exact ⟨.cons (.emptyRows count) .nil, rfl⟩
      | op o bytes htargets => exact ⟨.cons (.op o bytes htargets) .nil, rfl⟩
    | @cons i' j' is js hij' hrest =>
      have hcons : ∀ i i' : Instruction, ∀ is : List Instruction,
          holdNote (i :: i' :: is) = (i :: (holdNote (i' :: is)).1, (holdNote (i' :: is)).2) := by
        intro i i' is
        cases i <;> first | rfl | (rename_i emptyRow; cases emptyRow <;> rfl)
      rw [hcons, hcons]
      exact ⟨.cons hij ih.1, ih.2⟩

theorem renames_refl_flush (k : Kernel) (p : Pending) :
    List.Forall₂ (Instruction.Renames S) (flush k p) (flush k p) :=
  List.forall₂_same.2 (forall_flush k .note .emptyRows p)

/-- Corresponding pieces are joined to corresponding instructions. -/
theorem renames_join (k : Kernel) {ps qs : List Piece} (h : List.Forall₂ (Piece.Renames S) ps qs)
    (p : Pending) : List.Forall₂ (Instruction.Renames S) (join k p ps) (join k p qs) := by
  induction h generalizing p with
  | nil => exact renames_refl_flush k p
  | cons hpq _ ih =>
    cases hpq with
    | mark hab =>
      exact List.rel_append (renames_refl_flush k p) (.cons (.label hab) (ih {}))
    | @row is js advances his =>
      obtain ⟨hbody, hnote⟩ := renames_holdNote his
      have hempty : is.isEmpty = js.isEmpty := by
        cases his <;> rfl
      rw [join, join]
      simp only
      rw [hempty, hnote]
      split
      · exact ih _
      · exact List.rel_append (List.rel_append (renames_refl_flush k p) hbody) (ih _)

end Stream

end Chiptune
