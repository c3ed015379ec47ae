import BorrowCheck.Proofs.Outcome

/-!
# What one step of a walk does

A step closes the loans that ended earlier, performs its action, closes the loans that end at its
point and writes its target. This file takes the step apart: one lemma a function of the walk,
which says what was checked and what the state is afterwards. The later files on what holds along
a walk rest on these lemmas and not on the definitions.

`BorrowCheck.Action.reads` and `BorrowCheck.Action.written?` are what an action reads and writes,
said without the walk.
-/

namespace BorrowCheck

/-! ### What an action reads and writes -/

namespace Action

/-- The places that an action **reads**. A borrow reads only when it goes through a reference,
which is then read; a borrow of a place itself is no read of it. -/
def reads : Action → List Place
  | assign _ sources => sources
  | move _ s => [s]
  | borrow _ _ s => if s.throughRef then [s] else []
  | deref s => [s]
  | use s => [s]
  | call args _ => (args.filter fun a => a.mode = .value || a.place.throughRef).map Arg.place
  | ret s => s.toList
  | _ => []

/-- The place that an action **writes**. -/
def written? : Action → Option Place
  | assign x _ => some x
  | move x _ => some x
  | borrow _ x _ => some x
  | call _ result => result
  | _ => none

end Action

namespace Walk

variable {c : Context} {s t u : State} {x : Place} {p : Point}

/-! ### Reads and moves -/

/-- A loan that is needed at `p` or later is found among those that overlap. -/
theorem lasts_iff {loan : Loan} :
    (p < loan.last ∨ false = false ∧ loan.last = p) ↔ p ≤ loan.last := by
  rw [le_iff_lt_or_eq, eq_comm (a := p)]
  simp

theorem read_eq_ok_iff :
    read c s x p = .ok () ↔
      s.store.declares x = true ∧ s.store.lacking? x.holder = none ∧
        s.ledger.FreeToRead x.holder p ∧ reborrowed? c s x.holder p = none := by
  rw [read, check_bind_eq_ok_iff, check_bind_eq_ok_iff, Store.ensureInScope_eq_ok_iff,
    Store.read_eq_ok_iff, refuse_eq_ok_iff, and_assoc]
  refine and_congr_right fun _ => and_congr_right fun _ => and_congr_left fun _ => ?_
  constructor
  · intro h loan hloan hover hexcl
    by_contra hlast
    have hmem : loan ∈ s.ledger.overlapping x.holder p false :=
      Ledger.mem_overlapping.mpr ⟨hloan, hover, lasts_iff.mpr (not_lt.mp hlast)⟩
    have hkind : loan.kind.isExclusive = false := h _ (List.mem_map_of_mem hmem)
    rw [Loan.isExclusive, hkind] at hexcl
    cases hexcl
  · intro h lien hlien
    obtain ⟨loan, hmem, rfl⟩ := List.mem_map.mp hlien
    obtain ⟨hloan, hover, hlast⟩ := Ledger.mem_overlapping.mp hmem
    rw [Bool.eq_false_iff]
    intro hexcl
    exact absurd (h loan hloan hover hexcl) (not_lt.mpr (lasts_iff.mp hlast))

/-- No lien is found on a place exactly when it is free to be moved out. -/
theorem liensOn_eq_nil_iff : liensOn s x p false = [] ↔ s.ledger.FreeToMove x p := by
  rw [liensOn, List.map_eq_nil_iff, List.eq_nil_iff_forall_not_mem]
  constructor
  · intro h loan hloan hover
    by_contra hlast
    exact h loan (Ledger.mem_overlapping.mpr ⟨hloan, hover, lasts_iff.mpr (not_lt.mp hlast)⟩)
  · intro h loan hmem
    obtain ⟨hloan, hover, hlast⟩ := Ledger.mem_overlapping.mp hmem
    exact absurd (h loan hloan hover) (not_lt.mpr (lasts_iff.mp hlast))

/-- No lien lasts beyond `p` exactly when the place is free to be written at `p`. -/
theorem liensOn_strict_eq_nil_iff : liensOn s x p true = [] ↔ s.ledger.FreeToWrite x p := by
  rw [liensOn, List.map_eq_nil_iff, List.eq_nil_iff_forall_not_mem]
  constructor
  · intro h loan hloan hover
    by_contra hlast
    exact h loan (Ledger.mem_overlapping.mpr ⟨hloan, hover, Or.inl (not_le.mp hlast)⟩)
  · intro h loan hmem
    obtain ⟨hloan, hover, hlast⟩ := Ledger.mem_overlapping.mp hmem
    rcases hlast with hlast | ⟨hstrict, -⟩
    · exact absurd (h loan hloan hover) (not_le.mpr hlast)
    · cases hstrict

theorem vacate_eq_ok_iff :
    vacate s x p = .ok t ↔
      s.store.declares x = true ∧ x.throughRef = false ∧ s.store.lacking? x = none ∧
        s.ledger.FreeToMove x p ∧ t = { s with store := s.store.drain x p } := by
  rw [vacate, check_bind_eq_ok_iff, Store.ensureInScope_eq_ok_iff]
  refine and_congr_right fun _ => ?_
  split
  next href => simp [href, refuse, check_bind_eq_ok_iff]
  next href =>
    simp only [bind_eq_ok_iff, Store.vacate_eq_ok_iff, pure_eq_ok_iff, liensOn_eq_nil_iff,
      Bool.eq_false_iff.mpr href, true_and]
    constructor
    · rintro ⟨_, ⟨hval, hfree, rfl⟩, rfl⟩
      exact ⟨hval, hfree, rfl⟩
    · rintro ⟨hval, hfree, rfl⟩
      exact ⟨_, ⟨hval, hfree, rfl⟩, rfl⟩

/-- A value that is handed on is read, or moved out. -/
theorem handOver_cases (h : handOver c s x p = .ok t) :
    (read c s x p = .ok () ∧ t = s) ∨ vacate s x p = .ok t := by
  unfold handOver at h
  split at h
  · rw [check_bind_eq_ok_iff, pure_eq_ok_iff] at h
    exact Or.inl ⟨h.1, h.2.symm⟩
  · exact Or.inr h

/-! ### Borrows -/

theorem borrow_cases {borrower : Option Place} {kind : BorrowKind}
    (h : borrow c s borrower kind x p = .ok t) :
    s.store.declares x = true ∧
      (x.throughRef = true → read c s x.holder p = .ok ()) ∧
      (x.throughRef = false → s.store.lacking? x = none) ∧
      ∃ books loan, s.toBooks.lend c.book borrower x kind p = .ok (books, loan) ∧
        t = { s with toBooks := books } := by
  rw [borrow, check_bind_eq_ok_iff, Store.ensureInScope_eq_ok_iff] at h
  obtain ⟨hdecl, h⟩ := h
  refine ⟨hdecl, ?_⟩
  split at h
  next href =>
    rw [check_bind_eq_ok_iff, bind_eq_ok_iff] at h
    obtain ⟨hread, ⟨books, loan⟩, hlend, hpure⟩ := h
    refine ⟨fun _ => hread, fun hno => ?_, books, loan, hlend, (pure_eq_ok_iff.mp hpure).symm⟩
    rw [href] at hno
    cases hno
  next href =>
    rw [check_bind_eq_ok_iff, bind_eq_ok_iff, Store.ensureValue_eq_ok_iff] at h
    obtain ⟨hval, ⟨books, loan⟩, hlend, hpure⟩ := h
    exact ⟨fun hyes => absurd hyes href, fun _ => hval, books, loan, hlend,
      (pure_eq_ok_iff.mp hpure).symm⟩

/-- An argument is handed over, or borrowed for the call. -/
theorem passArg_cases {a : Arg} (h : passArg c p s a = .ok t) :
    (a.mode = .value ∧ handOver c s a.place p = .ok t) ∨
      ∃ kind, a.mode = .lend kind ∧ borrow c s none kind a.place p = .ok t := by
  unfold passArg at h
  split at h
  next hmode => exact Or.inl ⟨hmode, h⟩
  next kind hmode => exact Or.inr ⟨kind, hmode, h⟩

/-- The loans that are due for `y` at `p`: those that a move to `y` opens. -/
def dueFor (c : Context) (s : State) (y : Place) (p : Point) : List Loan :=
  (s.ledger.dueAt c.book p).filter fun loan =>
    match loan.borrower with
    | none => false
    | some z => z.same y

/-- Opens the loans that are due for `y`, one after the other. -/
def lendAll (c : Context) (y : Place) (p : Point) (books : Books) (loans : List Loan) :
    Except Fault Books :=
  loans.foldlM (fun books loan => do
    let (books, _) ← books.lend c.book (some y) loan.via loan.kind p
    return books) books

/-- A move opens the loans that are due for its target; its source is read or moved out. -/
theorem move_cases {y : Place} (h : move c s y x p = .ok t) :
    s.store.declares y = true ∧
      ∃ books, lendAll c y p s.toBooks (dueFor c s y p) = .ok books ∧
        ((read c s x p = .ok () ∧ t = { s with toBooks := books }) ∨
          vacate { s with toBooks := books } x p = .ok t) := by
  simp only [move, check_bind_eq_ok_iff, Store.ensureInScope_eq_ok_iff] at h
  obtain ⟨hdecl, h⟩ := h
  refine ⟨hdecl, ?_⟩
  split at h
  · -- a reference is handed on: it is read first, and moved out when it is exclusive
    rw [check_bind_eq_ok_iff, bind_eq_ok_iff] at h
    obtain ⟨hread, books, hlend, h⟩ := h
    refine ⟨books, hlend, ?_⟩
    split at h
    · exact Or.inr h
    · exact Or.inl ⟨hread, (pure_eq_ok_iff.mp h).symm⟩
  next href =>
    -- a value is handed on, and there is nothing to open
    have hnil : dueFor c s y p = [] := by
      rw [Bool.or_eq_true, not_or, Bool.not_eq_true, Bool.not_eq_false'] at href
      exact List.isEmpty_iff.mp href.1
    refine ⟨s.toBooks, by rw [hnil]; rfl, ?_⟩
    split at h
    · rw [check_bind_eq_ok_iff, pure_eq_ok_iff] at h
      exact Or.inl ⟨h.1, h.2.symm⟩
    · exact Or.inr h

/-! ### Writes -/

/-- A write through a reference reads it; every loan that the reference holds is exclusive, and no
reborrow of it lasts beyond the write. -/
theorem writeBehind_cases {closed : List Loan} {ref : Place}
    (h : writeBehind c s closed ref p = .ok ()) :
    read c s ref p = .ok () ∧ ∀ loan ∈ s.ledger.heldAt ref closed, loan.isExclusive = true ∧
      ∀ other ∈ s.ledger.reborrows c.book loan, other.last ≤ p := by
  simp only [writeBehind, check_bind_eq_ok_iff] at h
  refine ⟨h.1, fun loan hloan => ?_⟩
  obtain ⟨-, h⟩ := h
  split at h
  next hempty =>
    rw [List.isEmpty_iff] at hempty
    rw [hempty] at hloan
    cases hloan
  next =>
    rw [refuse_eq_ok_iff, List.findSome?_eq_none_iff] at h
    have hloan' := h loan hloan
    unfold unwritable? at hloan'
    split at hloan'
    · cases hloan'
    next hexcl =>
      rw [Option.map_eq_none_iff, List.find?_eq_none] at hloan'
      exact ⟨by simpa using hexcl, fun other hother => by simpa using hloan' other hother⟩

theorem write_cases {closed : List Loan} (h : write c s closed x p = .ok t) :
    s.store.declares x = true ∧
      ((x.throughRef = true ∧ writeBehind c s closed x.holder p = .ok () ∧ t = s) ∨
        (x.throughRef = false ∧
          ∃ store, ((x.isRoot = true ∧ s.store.status x = .uninit ∧ s.store.fill x = .ok store) ∨
              (s.ledger.FreeToWrite x p ∧ store = s.store.restore x)) ∧
            t = { s with store, ledger := s.ledger.releaseUnder x p })) := by
  rw [write, check_bind_eq_ok_iff, Store.ensureInScope_eq_ok_iff] at h
  obtain ⟨hdecl, h⟩ := h
  refine ⟨hdecl, ?_⟩
  split at h
  next href =>
    rw [check_bind_eq_ok_iff, pure_eq_ok_iff] at h
    exact Or.inl ⟨href, h.1, h.2.symm⟩
  next href =>
    refine Or.inr ⟨Bool.eq_false_iff.mpr href, ?_⟩
    split at h
    next huninit =>
      rw [bind_eq_ok_iff] at h
      obtain ⟨store, hfill, h⟩ := h
      simp only [Bool.and_eq_true, decide_eq_true_eq] at huninit
      exact ⟨store, Or.inl ⟨huninit.1, huninit.2, hfill⟩, (pure_eq_ok_iff.mp h).symm⟩
    next =>
      rw [bind_eq_ok_iff] at h
      obtain ⟨store, hover, h⟩ := h
      rw [Store.overwrite_eq_ok_iff, liensOn_strict_eq_nil_iff] at hover
      exact ⟨store, Or.inr hover.2, (pure_eq_ok_iff.mp h).symm⟩

/-! ### Ends of functions and of blocks -/

/-- What is handed to the caller holds no reference to local storage. -/
theorem ret_cases (h : ret c s x p = .ok t) :
    (∀ loan ∈ s.ledger.heldUnder x, s.store.isLocal loan.target = false) ∧
      handOver c s x p = .ok t := by
  rw [ret, check_bind_eq_ok_iff, check_bind_eq_ok_iff, refuse_eq_ok_iff, Option.map_eq_none_iff,
    List.find?_eq_none] at h
  exact ⟨fun loan hloan => Bool.eq_false_iff.mpr (h.2.1 loan hloan), h.2.2⟩

/-- When a block is left, no loan of storage that ends is needed later by a borrower that stays.
The loans of borrowers that end are closed. -/
theorem exit_cases (h : exit s p = .ok t) :
    ∃ dying scopes, s.store.scopes.exit? = some (dying, scopes) ∧
      (∀ loan ∈ s.ledger.outstanding, ∀ y, loan.borrower = some y → y.base ∉ dying →
        loan.target.base ∈ dying → s.store.isLocal loan.target = true → loan.last ≤ p) ∧
      t = { s with
            store := ((Books.settleIn { s.toBooks with store := { s.store with scopes } }
              dying).1.store.endStorage dying)
            ledger := s.ledger.strike (s.ledger.borrowedIn dying) } := by
  rw [exit, bind_eq_ok_iff] at h
  obtain ⟨⟨dying, store⟩, hexit, h⟩ := h
  obtain ⟨scopes, hscopes, rfl⟩ := Store.exit_eq_ok_iff.mp hexit
  simp only [check_bind_eq_ok_iff, refuse_eq_ok_iff, Option.map_eq_none_iff, List.find?_eq_none,
    pure_eq_ok_iff] at h
  refine ⟨dying, scopes, hscopes, ?_, h.2.symm⟩
  intro loan hloan y hy hkeep hdie hlocal
  have hno := h.1 loan hloan
  have hlocal' : Store.isLocal { s.store with scopes } loan.target = true := hlocal
  simp only [hy, hlocal', List.contains_eq_mem, hkeep, hdie, decide_true, decide_false,
    Bool.not_false, Bool.and_self, Bool.true_and, decide_eq_true_eq] at hno
  exact not_lt.mp hno

/-! ### The step -/

/-- The state once the loans that end before `p`, or, when `inclusive`, at it, are closed. -/
def settled (s : State) (p : Point) (inclusive : Bool) : State :=
  { s with toBooks := (s.toBooks.settle p inclusive).1 }

/-- What has happened between the states `s` and `t` when an action was **performed** at `p`, up to
its write. -/
def Performed (c : Context) (p : Point) (s t : State) : Action → Prop
  | .declare x ty => ∃ store, s.store.declare x ty false = .ok store ∧ t = { s with store }
  | .assign _ sources => (∀ y ∈ sources, read c s y p = .ok ()) ∧ t = s
  | .move y x => move c s y x p = .ok t
  | .borrow kind y x => s.store.declares y = true ∧ borrow c s (some y) kind x p = .ok t
  | .deref x => follow c s x p = .ok () ∧ t = s
  | .use x => read c s x p = .ok () ∧ t = s
  | .call args _ => args.foldlM (passArg c p) s = .ok t
  | .ret none => t = { s with returned := some p }
  | .ret (some x) => ∃ u, ret c s x p = .ok u ∧ t = { u with returned := some p }
  | .enter => t = { s with store := s.store.enter }
  | .exit => exit s p = .ok t

/-- An action is performed, and what is then written is its own target. -/
theorem perform_cases {a : Action} {target : Option Place}
    (h : perform c s p a = .ok (t, target)) : Performed c p s t a ∧ target = a.written? := by
  cases a with
  | call args result =>
    cases result <;>
      simp only [perform, bind_eq_ok_iff, pure_eq_ok_iff, Prod.mk.injEq] at h <;>
      grind [Performed, Action.written?]
  | ret y =>
    cases y <;>
      simp only [perform, bind_eq_ok_iff, pure_eq_ok_iff, Prod.mk.injEq] at h <;>
      grind [Performed, Action.written?]
  | enter =>
    simp only [perform, Except.ok.injEq, Prod.mk.injEq] at h
    exact ⟨h.1.symm, h.2.symm⟩
  | assign x ys =>
    simp only [perform, check_bind_eq_ok_iff, forM_eq_ok_iff, pure_eq_ok_iff, Prod.mk.injEq] at h
    exact ⟨⟨h.1, h.2.1.symm⟩, h.2.2.symm⟩
  | borrow kind y x =>
    rw [perform, check_bind_eq_ok_iff, bind_eq_ok_iff, Store.ensureInScope_eq_ok_iff] at h
    obtain ⟨hdecl, u, hu, hpure⟩ := h
    obtain ⟨rfl, rfl⟩ := Prod.mk.inj (pure_eq_ok_iff.mp hpure)
    exact ⟨⟨hdecl, hu⟩, rfl⟩
  | deref x | use x =>
    simp only [perform, check_bind_eq_ok_iff, pure_eq_ok_iff, Prod.mk.injEq] at h
    exact ⟨⟨h.1, h.2.1.symm⟩, h.2.2.symm⟩
  | declare _ _ | move _ _ | exit =>
    simp only [perform, bind_eq_ok_iff, pure_eq_ok_iff, Prod.mk.injEq] at h
    grind [Performed, Action.written?]

/-- **A step taken apart**: loans that ended are closed, the action is performed, loans that end
here are closed, and the target is written. -/
theorem step_cases {op : Operation} (h : step c s op = .ok t) :
    s.returned = none ∧
      ∃ a u, op.action = .ok a ∧
        perform c (settled s op.point false) op.point a = .ok (u, a.written?) ∧
        ((a.written? = none ∧ t = settled u op.point true) ∨
          ∃ x, a.written? = some x ∧
            write c (settled u op.point true) (u.toBooks.settle op.point true).2 x op.point =
              .ok t) := by
  unfold step at h
  split at h
  · exact absurd h refuseFlaw_ne_ok
  · exact absurd h refuseFlaw_ne_ok
  next a hret hact =>
    rw [bind_eq_ok_iff] at h
    obtain ⟨⟨u, target⟩, hperf, h⟩ := h
    obtain rfl := (perform_cases hperf).2
    refine ⟨hret, a, u, hact, hperf, ?_⟩
    dsimp only at h
    split at h
    next hnone => exact Or.inl ⟨hnone, (pure_eq_ok_iff.mp h).symm⟩
    next x hsome => exact Or.inr ⟨x, hsome, h⟩

end Walk

end BorrowCheck
