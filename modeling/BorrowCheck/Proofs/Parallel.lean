import BorrowCheck.Proofs.Outcome

/-!
# Two checks in parallel

Two checkers are compared run by run: where the one passes so does the other, with related results,
and where the one stops so does the other, for related reasons. `BorrowCheck.Parallel` is this
relation between two outcomes. It goes along with checks in a row, so two checkers that take the
same steps are compared step by step.
-/

namespace BorrowCheck

variable {ε ε' α α' β β' γ : Type}

/-- Two checks go **in parallel**: both pass, with results that `R` relates, or both stop, for
reasons that `E` relates. -/
def Parallel (E : ε → ε' → Prop) (R : α → α' → Prop) : Except ε α → Except ε' α' → Prop
  | .ok a, .ok a' => R a a'
  | .error e, .error e' => E e e'
  | _, _ => False

namespace Parallel

variable {E : ε → ε' → Prop} {R : α → α' → Prop} {S : β → β' → Prop} {x : Except ε α}
  {x' : Except ε' α'}

theorem imp {R' : α → α' → Prop} (h : Parallel E R x x')
    (hR : ∀ a a', x = .ok a → x' = .ok a' → R a a' → R' a a') : Parallel E R' x x' := by
  cases x with
  | error e => cases x' <;> exact h
  | ok a =>
    cases x' with
    | error e' => exact h
    | ok a' => exact hR a a' rfl rfl h

/-- Checks in a row go in parallel when the first ones do and, after related results, the others. -/
theorem bind {g : α → Except ε β} {g' : α' → Except ε' β'} (h : Parallel E R x x')
    (hg : ∀ a a', x = .ok a → x' = .ok a' → R a a' → Parallel E S (g a) (g' a')) :
    Parallel E S (x >>= g) (x' >>= g') := by
  cases x with
  | error e =>
    cases x' with
    | error e' => exact h
    | ok a' => exact h.elim
  | ok a =>
    cases x' with
    | error e' => exact h.elim
    | ok a' => exact hg a a' rfl rfl h

/-- A check whose result is put into another form goes in parallel with what it went with before. -/
theorem map_left {T : β → α' → Prop} {g : α → β} (h : Parallel E R x x')
    (hg : ∀ a a', R a a' → T (g a) a') : Parallel E T (do return g (← x)) x' := by
  cases x with
  | error e => cases x' <;> exact h
  | ok a =>
    cases x' with
    | error e' => exact h
    | ok a' => exact hg a a' h

/-- Runs along one list go in parallel when every step keeps the states related. -/
theorem foldlM {run : α → γ → Except ε α} {run' : α' → γ → Except ε' α'} {as : List γ} {a : α}
    {a' : α'} (ha : R a a')
    (h : ∀ b b', R b b' → ∀ c ∈ as, Parallel E R (run b c) (run' b' c)) :
    Parallel E R (as.foldlM run a) (as.foldlM run' a') := by
  induction as generalizing a a' with
  | nil => exact ha
  | cons c as ih =>
    rw [List.foldlM_cons, List.foldlM_cons]
    exact (h a a' ha c List.mem_cons_self).bind fun b b' _ _ hb =>
      ih hb fun b b' hb c hc => h b b' hb c (List.mem_cons_of_mem _ hc)

/-- Checks of one list run in parallel when the single checks do. -/
theorem forM {check : γ → Except ε Unit} {check' : γ → Except ε' Unit} {as : List γ}
    (h : ∀ c ∈ as, Parallel E (fun _ _ => True) (check c) (check' c)) :
    Parallel E (fun _ _ => True) (as.forM check) (as.forM check') := by
  induction as with
  | nil => exact trivial
  | cons c as ih =>
    rw [List.forall_mem_cons] at h
    exact h.1.bind fun _ _ _ _ _ => ih h.2

/-- When the first has a result, so does the second. -/
theorem exists_ok (h : Parallel E R x x') {a : α} (ha : x = .ok a) :
    ∃ a', x' = .ok a' ∧ R a a' := by
  subst ha
  cases x' with
  | error e' => exact h.elim
  | ok a' => exact ⟨a', rfl, h⟩

/-- When the first fails, so does the second, for a reason that corresponds. -/
theorem exists_error (h : Parallel E R x x') {e : ε} (he : x = .error e) :
    ∃ e', x' = .error e' ∧ E e e' := by
  subst he
  cases x' with
  | error e' => exact ⟨e', rfl, h⟩
  | ok a' => exact h.elim

end Parallel

end BorrowCheck
