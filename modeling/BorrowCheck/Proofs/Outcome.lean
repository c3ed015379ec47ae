import BorrowCheck.Walk
import Mathlib.Data.Int.Order.Basic
import Mathlib.Data.List.Basic

/-!
# What a check has seen when it passes

A check either stops with a fault or passes. This file says, for every check of the store and of
the walk, what is known when it passes: one equivalence or one implication a function, stated by
the outstanding loans and by the store, so that later files never open the checks again.

Three conditions on the ledger come up everywhere. They differ in which loans count and in
whether a loan that is needed for the last time at the point itself is in the way:

| condition | loans that count | they end |
|---|---|---|
| `BorrowCheck.Ledger.FreeToRead` | exclusive ones | before the point |
| `BorrowCheck.Ledger.FreeToMove` | all | before the point |
| `BorrowCheck.Ledger.FreeToWrite` | all | at the point or before |
-/

namespace BorrowCheck

/-! ### Checks in a row -/

section Except

variable {ε α β : Type}

/-- Two steps have a result when the first one has, and the second one goes on from it. -/
theorem bind_eq_ok_iff {x : Except ε α} {g : α → Except ε β} {r : β} :
    (x >>= g) = .ok r ↔ ∃ a, x = .ok a ∧ g a = .ok r := by
  cases x <;> simp [bind, Except.bind]

theorem pure_eq_ok_iff {a b : α} : (pure a : Except ε α) = .ok b ↔ a = b := by
  simp [pure, Except.pure]

/-- Two checks in a row, the first of which gives nothing, pass when both do. -/
theorem check_bind_eq_ok_iff {x : Except ε Unit} {g : Unit → Except ε β} {r : β} :
    (x >>= g) = .ok r ↔ x = .ok () ∧ g () = .ok r := by
  rw [bind_eq_ok_iff]
  exact ⟨fun ⟨(), h⟩ => h, fun h => ⟨(), h⟩⟩

/-- To report a fault in other words changes no result. -/
theorem mapError_eq_ok_iff {ε' : Type} {x : Except ε α} {g : ε → ε'} {a : α} :
    x.mapError g = .ok a ↔ x = .ok a := by
  cases x <;> simp [Except.mapError]

theorem mapError_eq_error_iff {ε' : Type} {x : Except ε α} {g : ε → ε'} {e : ε'} :
    x.mapError g = .error e ↔ ∃ e', x = .error e' ∧ g e' = e := by
  cases x <;> simp [Except.mapError]

/-- A check of every element passes when it passes for each. -/
theorem forM_eq_ok_iff {check : α → Except ε Unit} {as : List α} :
    as.forM check = .ok () ↔ ∀ a ∈ as, check a = .ok () := by
  induction as with
  | nil => simp [List.forM, pure_eq_ok_iff]
  | cons a as ih => rw [List.forM, check_bind_eq_ok_iff, List.forall_mem_cons, ih]

/-- A run along two lists in a row goes through a state between them. -/
theorem foldlM_append_eq_ok_iff {run : β → α → Except ε β} {as bs : List α} {b r : β} :
    (as ++ bs).foldlM run b = .ok r ↔
      ∃ m, as.foldlM run b = .ok m ∧ bs.foldlM run m = .ok r := by
  rw [List.foldlM_append, bind_eq_ok_iff]

theorem foldlM_cons_eq_ok_iff {run : β → α → Except ε β} {a : α} {as : List α} {b r : β} :
    (a :: as).foldlM run b = .ok r ↔ ∃ m, run b a = .ok m ∧ as.foldlM run m = .ok r := by
  rw [List.foldlM_cons, bind_eq_ok_iff]

/-- A run is stopped at an element that it comes to. -/
theorem foldlM_eq_error_iff {run : β → α → Except ε β} {as : List α} {b : β} {e : ε} :
    as.foldlM run b = .error e ↔
      ∃ pre a post m, as = pre ++ a :: post ∧ pre.foldlM run b = .ok m ∧ run m a = .error e := by
  constructor
  · intro h
    induction as generalizing b with
    | nil => cases h
    | cons a as ih =>
      rw [List.foldlM_cons] at h
      cases hrun : run b a with
      | error e' =>
        rw [hrun] at h
        cases h
        exact ⟨[], a, as, b, rfl, rfl, hrun⟩
      | ok m =>
        rw [hrun] at h
        obtain ⟨pre, a', post, n, rfl, hn, herror⟩ := ih h
        exact ⟨a :: pre, a', post, n, rfl, foldlM_cons_eq_ok_iff.mpr ⟨m, hrun, hn⟩, herror⟩
  · rintro ⟨pre, a, post, m, rfl, hm, herror⟩
    rw [List.foldlM_append, hm]
    change (a :: post).foldlM run m = _
    rw [List.foldlM_cons, herror]
    rfl

/-- What each step preserves holds after the last one. -/
theorem foldlM_induction {run : β → α → Except ε β} {as : List α} {b r : β} (P : β → Prop)
    (hstart : P b) (hstep : ∀ m, ∀ a ∈ as, ∀ n, P m → run m a = .ok n → P n)
    (h : as.foldlM run b = .ok r) : P r := by
  induction as generalizing b with
  | nil =>
    obtain rfl := pure_eq_ok_iff.mp h
    exact hstart
  | cons a as ih =>
    obtain ⟨m, hm, hrest⟩ := foldlM_cons_eq_ok_iff.mp h
    exact ih (hstep b a List.mem_cons_self m hstart hm)
      (fun m a ha => hstep m a (List.mem_cons_of_mem _ ha)) hrest

end Except

theorem refuseFlaw_ne_ok {α : Type} {f : Flaw} {a : α} : refuseFlaw f ≠ .ok a := by
  simp [refuseFlaw]

/-! ### Loans in the way -/

namespace Ledger

/-- No exclusive loan of storage that overlaps `x` is needed at `p` or later. -/
def FreeToRead (l : Ledger) (x : Place) (p : Point) : Prop :=
  ∀ loan ∈ l.outstanding, loan.target.overlaps x = true → loan.isExclusive = true → loan.last < p

/-- No loan of storage that overlaps `x` is needed at `p` or later. -/
def FreeToMove (l : Ledger) (x : Place) (p : Point) : Prop :=
  ∀ loan ∈ l.outstanding, loan.target.overlaps x = true → loan.last < p

/-- No loan of storage that overlaps `x` is needed after `p`. -/
def FreeToWrite (l : Ledger) (x : Place) (p : Point) : Prop :=
  ∀ loan ∈ l.outstanding, loan.target.overlaps x = true → loan.last ≤ p

theorem FreeToMove.freeToRead {l : Ledger} {x : Place} {p : Point} (h : l.FreeToMove x p) :
    l.FreeToRead x p :=
  fun loan hloan hover _ => h loan hloan hover

/-- A condition on the outstanding loans holds all the more when there are fewer. -/
theorem FreeToRead.anti {l m : Ledger} {x : Place} {p : Point} (h : m.FreeToRead x p)
    (hsub : l.outstanding ⊆ m.outstanding) : l.FreeToRead x p :=
  fun loan hloan => h loan (hsub hloan)

/-- With fewer loans a place is free to move all the more. -/
theorem FreeToMove.anti {l m : Ledger} {x : Place} {p : Point} (h : m.FreeToMove x p)
    (hsub : l.outstanding ⊆ m.outstanding) : l.FreeToMove x p :=
  fun loan hloan => h loan (hsub hloan)

/-- The loans that overlap a place at a point: outstanding ones that last beyond it, or up to it
where that counts. -/
theorem mem_overlapping {l : Ledger} {x : Place} {p : Point} {strict : Bool} {loan : Loan} :
    loan ∈ l.overlapping x p strict ↔
      loan ∈ l.outstanding ∧ loan.target.overlaps x = true ∧
        (p < loan.last ∨ strict = false ∧ loan.last = p) := by
  simp [overlapping]

end Ledger

/-! ### Checks of the store -/

namespace Store

variable {s t : Store} {x : Place} {p : Point} {liens : List Lien}

/-- A place passes when its variable is in scope. -/
theorem ensureInScope_eq_ok_iff : s.ensureInScope x = .ok () ↔ s.declares x = true := by
  unfold ensureInScope
  split <;> simp_all [refuseFlaw]

theorem ensureValue_eq_ok_iff : s.ensureValue x = .ok () ↔ s.lacking? x = none :=
  refuse_eq_ok_iff

/-- A value can be read when it is there and not lent exclusively. -/
theorem read_eq_ok_iff :
    s.read x liens = .ok () ↔ s.lacking? x = none ∧ ∀ l ∈ liens, l.kind.isExclusive = false := by
  rw [read, check_bind_eq_ok_iff, ensureValue_eq_ok_iff, refuse_eq_ok_iff, Option.map_eq_none_iff,
    List.find?_eq_none]
  simp only [Bool.not_eq_true]

/-- A value can leave its place when it is there and not lent at all. -/
theorem vacate_eq_ok_iff :
    s.vacate x p liens = .ok t ↔ s.lacking? x = none ∧ liens = [] ∧ t = s.drain x p := by
  rw [vacate, check_bind_eq_ok_iff, check_bind_eq_ok_iff, ensureValue_eq_ok_iff, refuse_eq_ok_iff,
    Option.map_eq_none_iff, List.head?_eq_none_iff, pure_eq_ok_iff, eq_comm (b := t)]

/-- A first value can be given to a place that waits for it. -/
theorem fill_eq_ok_iff :
    s.fill x = .ok t ↔
      (∃ cell, s.cells.get? x = some cell ∧ cell.ownership = .uninit) ∧ t = s.own x .owned := by
  unfold fill
  split
  next hcell => simp [hcell, eq_comm]
  next hcell =>
    refine ⟨fun h => absurd h refuseFlaw_ne_ok, ?_⟩
    rintro ⟨⟨⟨o, movedAt, shared, exclusive⟩, hget, rfl⟩, -⟩
    exact absurd hget (hcell movedAt shared exclusive)

/-- A value can be replaced when all that encloses it is there and nothing in it is lent. -/
theorem overwrite_eq_ok_iff :
    s.overwrite x liens = .ok t ↔
      x.enclosing.findSome? (s.unwritableWithin? x) = none ∧ liens = [] ∧ t = s.restore x := by
  rw [overwrite, check_bind_eq_ok_iff, check_bind_eq_ok_iff, refuse_eq_ok_iff, refuse_eq_ok_iff,
    Option.map_eq_none_iff, List.head?_eq_none_iff, pure_eq_ok_iff, eq_comm (b := t)]

/-- A variable can be declared when no other one of its name is in scope. -/
theorem declare_eq_ok_iff {ty : Ty} {init : Bool} :
    s.declare x ty init = .ok t ↔
      x.isRoot = true ∧ s.declares x = false ∧
        t = { cells := s.cells.put x { ownership := if init then .owned else .uninit }
              types := s.types ++ [(x.base, ty)]
              scopes := s.scopes.declare x.base } := by
  unfold declare
  split
  next hroot => simp [refuseFlaw, show x.isRoot = false by simpa using hroot]
  next hroot =>
    split
    next hdecl => simp [refuseFlaw, hdecl]
    next hdecl =>
      rw [Except.ok.injEq, eq_comm]
      simp only [Bool.not_eq_true, Bool.not_eq_false'] at hroot hdecl
      simp [hroot, hdecl]

/-- A block can be left when one was entered; its variables are dying. -/
theorem exit_eq_ok_iff {dying : List String} :
    s.exit = .ok (dying, t) ↔
      ∃ scopes, s.scopes.exit? = some (dying, scopes) ∧ t = { s with scopes } := by
  unfold exit
  split
  next hexit => simp [hexit, refuseFlaw]
  next names scopes hexit =>
    simp only [hexit, Except.ok.injEq, Prod.mk.injEq, Option.some.injEq]
    constructor
    · rintro ⟨rfl, rfl⟩
      exact ⟨scopes, ⟨rfl, rfl⟩, rfl⟩
    · rintro ⟨_, ⟨rfl, rfl⟩, rfl⟩
      exact ⟨rfl, rfl⟩

end Store

/-! ### Opening a loan -/

/-- A loan is opened when it is due and no outstanding one excludes it. -/
theorem Books.lend_eq_ok_iff {s t : Books} {b : LoanBook} {borrower : Option Place} {source : Place}
    {kind : BorrowKind} {p : Point} {loan : Loan} :
    s.lend b borrower source kind p = .ok (t, loan) ↔
      s.ledger.due? b borrower source kind p = some loan ∧ s.ledger.excluding? b loan = none ∧
        t = { store := s.store.encumber loan.target loan.kind loan.id
              ledger := s.ledger.record loan } := by
  unfold lend
  split
  next hdue => simp [hdue]
  next due hdue =>
    split
    next other hother =>
      simp only [hdue, reduceCtorEq, Option.some.injEq, false_iff, not_and]
      rintro rfl hnone
      simp [hnone] at hother
    next hnone =>
      simp only [hdue, Except.ok.injEq, Prod.mk.injEq, Option.some.injEq]
      constructor
      · rintro ⟨rfl, rfl⟩
        exact ⟨rfl, hnone, rfl⟩
      · rintro ⟨rfl, -, rfl⟩
        exact ⟨rfl, rfl⟩

end BorrowCheck
