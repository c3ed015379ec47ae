import BorrowCheck.Proofs.Lacking
import BorrowCheck.Proofs.Step

/-!
# When an operation passes

`BorrowCheck.Walk.step_cases` and its companions take apart what the walk has completed. This file
has their converses: what is enough for the walk to complete a borrow, a move, a write or a whole
step. Where a statement is an equivalence, its one half is the lemma of the same name that ends in
`_cases`, with all that was checked added.
-/

namespace BorrowCheck

namespace Walk

variable {c : Context} {w u : State} {x : Place} {p : Point} {op : Operation} {a : Action}

/-! ### Reads, moves and borrows -/

/-- A borrow through a reference needs the reference to be readable, any other one needs the place
to have its value; the books then have to lend. -/
theorem borrow_eq_ok_iff {y : Option Place} {kind : BorrowKind} :
    borrow c w y kind x p = .ok u ↔
      w.store.declares x = true ∧
        (x.throughRef = true → read c w x.holder p = .ok ()) ∧
        (x.throughRef = false → w.store.lacking? x = none) ∧
        ∃ books loan, w.toBooks.lend c.book y x kind p = .ok (books, loan) ∧
          u = { w with toBooks := books } := by
  refine ⟨borrow_cases, ?_⟩
  rintro ⟨hdecl, hread, hval, books, loan, hlend, rfl⟩
  rw [borrow, check_bind_eq_ok_iff, Store.ensureInScope_eq_ok_iff]
  refine ⟨hdecl, ?_⟩
  split
  next href =>
    exact check_bind_eq_ok_iff.mpr ⟨hread href, bind_eq_ok_iff.mpr ⟨_, hlend, rfl⟩⟩
  next href =>
    exact check_bind_eq_ok_iff.mpr ⟨Store.ensureValue_eq_ok_iff.mpr
      (hval (Bool.eq_false_iff.mpr href)), bind_eq_ok_iff.mpr ⟨_, hlend, rfl⟩⟩

/-- One loan to renew is lent through the place that it was taken through. -/
theorem lendAll_singleton {y : Place} {books books' : Books} {l : Loan} :
    lendAll c y p books [l] = .ok books' ↔
      ∃ m, books.lend c.book (some y) l.via l.kind p = .ok (books', m) := by
  simp only [lendAll, foldlM_cons_eq_ok_iff, List.foldlM_nil, bind_eq_ok_iff, pure_eq_ok_iff]
  constructor
  · rintro ⟨_, ⟨⟨_, m⟩, hlend, rfl⟩, rfl⟩
    exact ⟨m, hlend⟩
  · rintro ⟨m, hlend⟩
    exact ⟨books', ⟨_, hlend, rfl⟩, rfl⟩

/-- A move of a reference renews its loans and empties the source only if the reference is
exclusive; any other move copies or empties. -/
theorem move_eq_ok_iff {y : Place} :
    move c w y x p = .ok u ↔
      w.store.declares y = true ∧
        if !(dueFor c w y p).isEmpty || isReference c w x then
          read c w x p = .ok () ∧ ∃ books, lendAll c y p w.toBooks (dueFor c w y p) = .ok books ∧
            if isExclusiveReference c w x then vacate { w with toBooks := books } x p = .ok u
            else u = { w with toBooks := books }
        else if w.store.copies c.policy x then read c w x p = .ok () ∧ u = w
        else vacate w x p = .ok u := by
  rw [move, check_bind_eq_ok_iff, Store.ensureInScope_eq_ok_iff]
  refine and_congr_right fun _ => ?_
  by_cases hheld : (!(dueFor c w y p).isEmpty || isReference c w x) = true
  · rw [if_pos hheld, if_pos (by exact hheld), check_bind_eq_ok_iff, bind_eq_ok_iff]
    refine and_congr_right fun _ => exists_congr fun books => and_congr_right fun _ => ?_
    split
    · exact Iff.rfl
    · rw [pure_eq_ok_iff, eq_comm]
  · rw [if_neg hheld, if_neg (by exact hheld)]
    split
    · rw [check_bind_eq_ok_iff, pure_eq_ok_iff, eq_comm (a := w)]
    · exact Iff.rfl

/-- To follow a reference is to read it and to find that it is one. -/
theorem follow_eq_ok_iff :
    follow c w x p = .ok () ↔
      read c w x.holder p = .ok () ∧ isReference c w x.holder = true := by
  rw [follow, check_bind_eq_ok_iff]
  refine and_congr_right fun _ => ?_
  split
  next href => simp [href, pure_eq_ok_iff]
  next href => simp [href, refuseFlaw]

/-- A value is returned unless it holds a loan of storage that ends with the function. -/
theorem ret_eq_ok_iff :
    ret c w x p = .ok u ↔
      w.store.declares x = true ∧
        (∀ l ∈ w.ledger.heldUnder x, w.store.isLocal l.target = false) ∧
        handOver c w x p = .ok u := by
  rw [ret, check_bind_eq_ok_iff, check_bind_eq_ok_iff, refuse_eq_ok_iff, Option.map_eq_none_iff,
    List.find?_eq_none, Store.ensureInScope_eq_ok_iff]
  simp only [Bool.not_eq_true]

/-- A block is left when no outer variable borrows from storage that ends with it, for longer than
that; the loans of its own variables end. -/
theorem exit_eq_ok_iff :
    exit w p = .ok u ↔
      ∃ dying scopes, w.store.scopes.exit? = some (dying, scopes) ∧
        (∀ l ∈ w.ledger.outstanding, ∀ y, l.borrower = some y → y.base ∉ dying →
          l.target.base ∈ dying → w.store.isLocal l.target = true → l.last ≤ p) ∧
        u = { w with
              store := ((Books.settleIn { w.toBooks with store := { w.store with scopes } }
                dying).1.store.endStorage dying)
              ledger := w.ledger.strike (w.ledger.borrowedIn dying) } := by
  refine ⟨exit_cases, ?_⟩
  rintro ⟨dying, scopes, hscopes, hlasts, rfl⟩
  rw [exit, bind_eq_ok_iff]
  refine ⟨_, Store.exit_eq_ok_iff.mpr ⟨scopes, hscopes, rfl⟩, ?_⟩
  simp only [check_bind_eq_ok_iff, refuse_eq_ok_iff, Option.map_eq_none_iff, List.find?_eq_none]
  refine ⟨fun l hl => ?_, rfl⟩
  cases hy : l.borrower with
  | none => simp
  | some y =>
    have hlast := hlasts l hl y hy
    simp only [Bool.and_eq_true, Bool.not_eq_true', List.contains_eq_mem, decide_eq_true_eq,
      decide_eq_false_iff_not, not_and, not_lt]
    rintro ⟨⟨hkeep, hdies⟩, hlocal⟩
    exact hlast hkeep hdies hlocal

theorem perform_call_eq_ok_iff {args : List Arg} {result : Option Place} :
    perform c w p (.call args result) = .ok (u, result) ↔
      (∀ y, result = some y → w.store.declares y = true) ∧
        args.foldlM (passArg c p) w = .ok u := by
  cases result with
  | none =>
    simp only [perform, bind_eq_ok_iff, pure_eq_ok_iff, Prod.mk.injEq]
    simp
  | some y =>
    rw [perform, check_bind_eq_ok_iff, Store.ensureInScope_eq_ok_iff]
    simp only [bind_eq_ok_iff, pure_eq_ok_iff, Prod.mk.injEq]
    simp

/-! ### Writes -/

/-- A write behind a reference needs loans that all allow it, with nothing reborrowed through them
for later, or, where no loan is known, a type that allows it. -/
theorem writeBehind_eq_ok_iff {closed : List Loan} :
    writeBehind c w closed x p = .ok () ↔
      read c w x p = .ok () ∧
        (w.ledger.heldAt x closed = [] →
          (w.store.ty? c.policy x).bind Ty.ref = some .exclusive) ∧
        ∀ l ∈ w.ledger.heldAt x closed, l.isExclusive = true ∧
          ∀ other ∈ w.ledger.reborrows c.book l, other.last ≤ p := by
  refine ⟨fun h => ⟨(writeBehind_cases h).1, fun hnil => ?_, (writeBehind_cases h).2⟩, ?_⟩
  · simp only [writeBehind, check_bind_eq_ok_iff, hnil] at h
    cases hkind : (w.store.ty? c.policy x).bind Ty.ref with
    | none => simp [hkind, refuseFlaw] at h
    | some kind => cases kind <;> simp_all [refuse]
  · rintro ⟨hread, hempty, hall⟩
    simp only [writeBehind, check_bind_eq_ok_iff]
    refine ⟨hread, ?_⟩
    split
    next hnil =>
      simp only [hempty (List.isEmpty_iff.mp hnil)]
      rfl
    next =>
      refine refuse_eq_ok_iff.mpr (List.findSome?_eq_none_iff.mpr fun l hl => ?_)
      obtain ⟨hexcl, hother⟩ := hall l hl
      simpa [unwritable?, hexcl] using hother

theorem write_eq_ok_iff_writeBehind {closed : List Loan} (href : x.throughRef = true) :
    write c w closed x p = .ok u ↔
      w.store.declares x = true ∧ writeBehind c w closed x.holder p = .ok () ∧ u = w := by
  rw [write, check_bind_eq_ok_iff, Store.ensureInScope_eq_ok_iff, if_pos href,
    check_bind_eq_ok_iff, pure_eq_ok_iff, eq_comm (a := w)]

/-- A write that does not go through a reference gives a variable its first value, or gives a place
whose surroundings have one a new value. -/
theorem write_eq_ok_iff {closed : List Loan} (href : x.throughRef = false) :
    write c w closed x p = .ok u ↔
      w.store.declares x = true ∧
        ((x.isRoot = true ∧ w.store.Awaits x.base ∧
            u = { w with store := w.store.own x .owned, ledger := w.ledger.releaseUnder x p }) ∨
          (¬(x.isRoot = true ∧ w.store.Awaits x.base) ∧
            x.enclosing.findSome? (w.store.unwritableWithin? x) = none ∧
            w.ledger.FreeToWrite x p ∧
            u = { w with store := w.store.restore x, ledger := w.ledger.releaseUnder x p })) := by
  have hroot : (x.isRoot && w.store.status x = .uninit) = true ↔
      x.isRoot = true ∧ w.store.Awaits x.base := by
    rw [Bool.and_eq_true, decide_eq_true_eq]
    exact and_congr_right fun h => Store.status_eq_uninit_iff h
  rw [write, check_bind_eq_ok_iff, Store.ensureInScope_eq_ok_iff, href]
  refine and_congr_right fun _ => ?_
  simp only [Bool.false_eq_true, if_false]
  by_cases hwaits : x.isRoot = true ∧ w.store.Awaits x.base
  · have hcell : ∃ cell, w.store.cells.get? x = some cell ∧ cell.ownership = .uninit := by
      have hown := hwaits.2
      rwa [Store.Awaits, ← Place.eq_of_isRoot hwaits.1, Store.ownership?,
        Option.map_eq_some_iff] at hown
    simp only [if_pos (hroot.mpr hwaits), bind_eq_ok_iff, Store.fill_eq_ok_iff, pure_eq_ok_iff]
    constructor
    · rintro ⟨_, ⟨-, rfl⟩, rfl⟩
      exact .inl ⟨hwaits.1, hwaits.2, rfl⟩
    · rintro (⟨-, -, rfl⟩ | ⟨hnot, -⟩)
      · exact ⟨_, ⟨hcell, rfl⟩, rfl⟩
      · exact absurd hwaits hnot
  · simp only [if_neg fun h => hwaits (hroot.mp h), bind_eq_ok_iff, Store.overwrite_eq_ok_iff,
      liensOn_strict_eq_nil_iff, pure_eq_ok_iff]
    constructor
    · rintro ⟨_, ⟨henclosing, hfree, rfl⟩, rfl⟩
      exact .inr ⟨hwaits, henclosing, hfree, rfl⟩
    · rintro (⟨hroot, hawaits, -⟩ | ⟨-, henclosing, hfree, rfl⟩)
      · exact absurd ⟨hroot, hawaits⟩ hwaits
      · exact ⟨_, ⟨henclosing, hfree, rfl⟩, rfl⟩

/-! ### The step -/

/-- What is left of an operation once it was performed: the loans that end here are closed, and its
target is written. -/
def conclude (c : Context) (u : State) (p : Point) : Option Place → Except Fault State
  | none => .ok (settled u p true)
  | some x => write c (settled u p true) (u.toBooks.settle p true).2 x p

/-- An operation that has all its parts is performed, then concluded. -/
theorem step_eq (hret : w.returned = none) (hact : op.action = .ok a)
    :
    step c w op = (perform c (settled w op.point false) op.point a >>= fun r =>
      conclude c r.1 op.point r.2) := by
  unfold step
  split
  next hsome =>
    rw [hret] at hsome
    cases hsome
  next hgap =>
    rw [hact] at hgap
    cases hgap
  next a' _ hact' =>
    obtain rfl : a' = a := Except.ok.inj (hact'.symm.trans hact)
    refine congrArg (perform c _ _ _ >>= ·) (funext fun r => ?_)
    obtain ⟨u, target⟩ := r
    cases target <;> rfl

/-- The converse of `BorrowCheck.Walk.step_cases`. -/
theorem step_eq_ok {v : State} (hret : w.returned = none)
    (hact : op.action = .ok a)
    (hperf : perform c (settled w op.point false) op.point a = .ok (u, a.written?))
    (hend : (a.written? = none ∧ v = settled u op.point true) ∨
      ∃ x, a.written? = some x ∧
        write c (settled u op.point true) (u.toBooks.settle op.point true).2 x op.point = .ok v) :
    step c w op = .ok v := by
  rw [step_eq hret hact]
  refine bind_eq_ok_iff.mpr ⟨_, hperf, ?_⟩
  rcases hend with ⟨hnone, rfl⟩ | ⟨x, hx, hwrite⟩
  · rw [hnone]
    rfl
  · rw [hx]
    exact hwrite

end Walk

end BorrowCheck
