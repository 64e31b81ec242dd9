import Mathlib.Data.List.Forall2

/-!
# Results of steps that may fail

A result of several steps is made of a result of each of them (`bind_ok`, `mapM_ok`,
`exists_of_foldlM_ok`), and an error is that of one of them (`bind_error`). There is a result if
each step has one (`bind_succeeds`, `mapM_succeeds`, `foldlM_succeeds`), and what each step of a
fold keeps, the fold keeps (`foldlM_keeps`).
-/

set_option autoImplicit false

namespace Chiptune

/-- A sequence of two steps gives a result only if both do. -/
theorem bind_ok {ε α β : Type} {x : Except ε α} {f : α → Except ε β} {b : β}
    (h : x >>= f = .ok b) : ∃ a, x = .ok a ∧ f a = .ok b := by
  cases x with
  | error e => cases h
  | ok a => exact ⟨a, rfl, h⟩

/-- A sequence of two steps fails with the error of one of them. -/
theorem bind_error {ε α β : Type} {x : Except ε α} {f : α → Except ε β} {e : ε}
    (h : x >>= f = .error e) : x = .error e ∨ ∃ a, x = .ok a ∧ f a = .error e := by
  cases x with
  | error e' =>
    cases h
    exact .inl rfl
  | ok a => exact .inr ⟨a, rfl, h⟩

/-- A step whose parts have results has one. -/
theorem bind_succeeds {ε α β : Type} {x : Except ε α} {f : α → Except ε β} (hx : ∃ a, x = .ok a)
    (hf : ∀ a, ∃ b, f a = .ok b) : ∃ b, x >>= f = .ok b := by
  obtain ⟨a, rfl⟩ := hx
  exact hf a

theorem ok_of_toOption {ε α : Type} {x : Except ε α} {a : α} (h : x.toOption = some a) :
    x = .ok a := by
  cases x with
  | error e => cases h
  | ok b => exact congrArg _ (Option.some.inj h)

/-- A step whose result passes a test has a result. -/
theorem ok_of_any {ε α : Type} {x : Except ε α} {test : α → Bool}
    (h : x.toOption.any test = true) : ∃ a, x = .ok a ∧ test a = true := by
  obtain ⟨a, ha, htest⟩ := (Option.any_eq_true _ _).1 h
  exact ⟨a, ok_of_toOption ha, htest⟩

/-- Every element of a list has its own result. -/
theorem mapM_ok {ε α β : Type} {f : α → Except ε β} {xs : List α} {ys : List β}
    (h : xs.mapM f = .ok ys) : List.Forall₂ (fun x y => f x = .ok y) xs ys := by
  induction xs generalizing ys with
  | nil =>
    cases h
    exact .nil
  | cons x xs ih =>
    rw [List.mapM_cons] at h
    obtain ⟨y, hy, h⟩ := bind_ok h
    obtain ⟨ys', hys, h⟩ := bind_ok h
    cases h
    exact .cons hy (ih hys)

theorem exists_of_mapM_ok {ε α β : Type} {f : α → Except ε β} {xs : List α} {ys : List β}
    (h : xs.mapM f = .ok ys) {y : β} (hy : y ∈ ys) : ∃ x ∈ xs, f x = .ok y := by
  have hall := mapM_ok h
  clear h
  induction hall with
  | nil => cases hy
  | cons hx _ ih =>
    rcases List.mem_cons.1 hy with rfl | hy
    · exact ⟨_, List.mem_cons_self, hx⟩
    · obtain ⟨x, hx, hf⟩ := ih hy
      exact ⟨x, List.mem_cons_of_mem _ hx, hf⟩

/-- An element of all results put together is in one of them. -/
theorem exists_of_mem_flatten {ε α β : Type} {f : α → Except ε (List β)} {xs : List α}
    {parts : List (List β)} (h : xs.mapM f = .ok parts) {y : β} (hy : y ∈ parts.flatten) :
    ∃ x ∈ xs, ∃ ys, f x = .ok ys ∧ y ∈ ys := by
  obtain ⟨ys, hys, hy⟩ := List.mem_flatten.1 hy
  obtain ⟨x, hx, hf⟩ := exists_of_mapM_ok h hys
  exact ⟨x, hx, ys, hf, hy⟩

theorem mapM_succeeds {ε α β : Type} {f : α → Except ε β} {xs : List α}
    (h : ∀ x ∈ xs, ∃ y, f x = .ok y) : ∃ ys, xs.mapM f = .ok ys := by
  induction xs with
  | nil => exact ⟨[], rfl⟩
  | cons x xs ih =>
    rw [List.mapM_cons]
    exact bind_succeeds (h x List.mem_cons_self) fun _ =>
      bind_succeeds (ih fun y hy => h y (List.mem_cons_of_mem _ hy)) fun _ => ⟨_, rfl⟩

section Fold

variable {ε α β : Type} {f g : β → α → Except ε β} {xs : List α} {b b' : β}

/-- The steps of a fold that has a result. -/
theorem exists_of_foldlM_ok (h : xs.foldlM f b = .ok b') {x : α} (hx : x ∈ xs) :
    ∃ c c', f c x = .ok c' := by
  induction xs generalizing b with
  | nil => cases hx
  | cons y xs ih =>
    rw [List.foldlM_cons] at h
    obtain ⟨c, hc, hrest⟩ := bind_ok h
    rcases List.mem_cons.1 hx with rfl | hx
    · exact ⟨b, c, hc⟩
    · exact ih hrest hx

/-- A fold has a result if its steps have one from any state. -/
theorem foldlM_succeeds (h : ∀ x ∈ xs, ∀ b, ∃ b', f b x = .ok b') (b : β) :
    ∃ b', xs.foldlM f b = .ok b' := by
  induction xs generalizing b with
  | nil => exact ⟨b, rfl⟩
  | cons x xs ih =>
    obtain ⟨c, hc⟩ := h x List.mem_cons_self b
    obtain ⟨b', hb'⟩ := ih (fun y hy => h y (List.mem_cons_of_mem _ hy)) c
    exact ⟨b', by rw [List.foldlM_cons, hc]; exact hb'⟩

theorem foldlM_keeps {P : β → Prop} (hstep : ∀ b x b', P b → f b x = .ok b' → P b')
    (h : xs.foldlM f b = .ok b') (hb : P b) : P b' := by
  induction xs generalizing b with
  | nil =>
    cases h
    exact hb
  | cons x xs ih =>
    rw [List.foldlM_cons] at h
    obtain ⟨c, hc, hrest⟩ := bind_ok h
    exact ih hrest (hstep b x c hb hc)

/-- Folds with the same steps give the same. -/
theorem foldlM_congr (h : ∀ x ∈ xs, ∀ b, f b x = g b x) (b : β) :
    xs.foldlM f b = xs.foldlM g b := by
  induction xs generalizing b with
  | nil => rfl
  | cons x xs ih =>
    rw [List.foldlM_cons, List.foldlM_cons, h x List.mem_cons_self b]
    exact congrArg _ (funext fun c => ih (fun y hy => h y (List.mem_cons_of_mem _ hy)) c)

end Fold

end Chiptune
