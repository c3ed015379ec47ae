import BorrowCheck.Proofs.Aliasing
import BorrowCheck.Proofs.Mutation

/-!
# Writes behind references and the loans of what they reach

A write through a reference changes storage that may be lent. The survey knows which storage it is
and the loan that it is reached through (`BorrowCheck.Survey.referent`), and one expects every other
loan of that storage that is needed later to be one that this loan was itself taken through: those
are the references that were lent on to the one that is written through.

The walk looks at the loan that the first reference of the path holds: it has to be exclusive, and
none of its reborrows may be needed later. When that is the loan the storage is reached through, the
expectation is met (`BorrowCheck.Function.lineage_of_written`), because two loans of common storage
are only outstanding together when one was taken through the other. When the path goes on through a
further reference, the loan of that one is not looked at, and the storage it lends may be lent
elsewhere (`BorrowCheck.Function.written_while_lent`).
-/

namespace BorrowCheck

/-- Where a place behind a reference is reached through the loan that the reference itself holds, it
lies in what that loan lends. -/
theorem Survey.target_of_referent {s : Survey} {x target : Place} {q : Nat} {b : Borrow}
    (href : x.throughRef = true) (h : s.referent x = (target, some q))
    (hb : s.borrows[q]? = some b) : ∃ ps, target = b.target.append ps := by
  rcases s.referentBelow_cases s.borrows.length x with
    ⟨hno, -⟩ | ⟨-, hx⟩ | ⟨-, q', b', ps, -, hb', hx⟩
  · rw [href] at hno
    cases hno
  · rw [referent, hx] at h
    cases h
  · rw [referent, hx, Prod.mk.injEq, Option.some.injEq] at h
    obtain ⟨rfl, rfl⟩ := h
    rw [hb, Option.some.injEq] at hb'
    exact ⟨ps, by rw [hb']⟩

namespace Function

variable {f : Function} {policy : Policy} {pre post : List Operation} {op : Operation} {a : Action}
  {x target : Place} {q : Nat} {l m : Loan}

/-- **Writes behind references respect the loans of what they reach.** Let an operation of an
accepted function write a place behind a reference, which stands for `target` and is reached through
the loan that the reference itself holds. Then of the loans of storage that overlaps `target`, those
that were taken before and are needed later, and did not lapse, are this loan or one that it was
taken through. -/
theorem lineage_of_written (h : f.Accepted policy) (hops : f.ops = pre ++ op :: post)
    (hact : op.action = .ok a) (hx : a.written? = some x) (href : x.throughRef = true)
    (hreach : (Survey.after f pre).referent x = (target, some q))
    (hfirst : (Survey.after f pre).holders.get? x.holder = some q) (hl : l ∈ f.book.loans)
    (horigin : l.origin < op.point) (hlast : op.point < l.last)
    (hover : l.target.overlaps target = true) (hscope : f.lapsedBefore l op.point = false) :
    l.id = q ∨ l.id ∈ f.book.lineageFrom q := by
  have hb := f.book_sound
  obtain ⟨br, -, hbr, -⟩ := (Survey.sound_after f pre).of_held (Survey.held_of_get? hfirst)
  obtain ⟨m, hm, rfl⟩ := (recorded_after hops).loan q br hbr
  obtain rfl : m.id = q := hb.id_eq q m hm
  obtain ⟨hexcl, hreborrows⟩ := h.writable_of_written hops hact hx href hfirst hm
  by_cases hne : l = m
  · exact Or.inl (congrArg Loan.id hne)
  -- both loans are outstanding when the action begins
  obtain ⟨w, -, -, hw, -, -, hin, -⟩ := h.stages hops
  have hmout : m ∈ (Walk.settled w op.point false).ledger.outstanding := by
    obtain ⟨e, he, hsame, hid⟩ := Place.Map.exists_mem_of_get? hfirst
    have hm' : f.book.get? e.2 = some m := by rw [hid, hm]
    exact hin.outstanding_of_held hb (Survey.sound_after f pre) he hm'
      (Int.sub_one_lt_of_le (le_last_of_written hops hact hx href he hsame hm'))
  have hlout := h.ordered.stands hops hin hl horigin (le_of_lt hlast) hscope
  have hreached : f.Reached policy (Walk.settled w op.point false) :=
    .moment (accepted_iff.mp h).1 hops hw .settled
  have hover' : l.target.overlaps m.target = true := by
    obtain ⟨ps, rfl⟩ := Survey.target_of_referent href hreach hbr
    exact Place.overlaps_of_append hover
  rcases LoanBook.lineage_of_pairwise hreached.pairwise hlout hmout hne hover' (Or.inr hexcl) with
    ⟨-, hlineage⟩ | ⟨-, hlineage⟩
  · exact Or.inr hlineage
  · -- a reborrow of the loan that is written through would be in the way of the write
    exact absurd (hreborrows l hl horigin hscope hlineage) (not_le.mpr hlast)

/-- A function that lends `s` to `r` and on to `q`, writes through `q` and then through `r`. -/
def writesDown : Function where
  name := "f"
  ops :=
    [.declare 1 { base := "s" } (.named "T"), .assign 2 { base := "s" } [],
      .declare 3 { base := "r" } (.named "R"), .borrow 4 .exclusive { base := "r" } { base := "s" },
      .declare 5 { base := "q" } (.named "R"),
      .borrow 6 .exclusive { base := "q" } (Place.deref { base := "r" }),
      .assign 7 (Place.deref { base := "q" }) [], .assign 8 (Place.deref { base := "r" }) []]

/-- The loan of `s` to `r` in `BorrowCheck.Function.writesDown`. -/
def loanLentDown : Loan where
  borrower := some { base := "r" }
  kind := .exclusive
  origin := 4
  target := { base := "s" }
  via := { base := "s" }
  id := 0
  last := 8

/-- When `q` is written through, the loan to `r` is needed later: `q` was borrowed through it. -/
theorem lineage_of_written_writesDown :
    writesDown.Accepted {} ∧
      (Survey.after writesDown (writesDown.ops.take 6)).referent (Place.deref { base := "q" }) =
        ({ base := "s" }, some 1) ∧
      (Survey.after writesDown (writesDown.ops.take 6)).holders.get? { base := "q" } = some 1 ∧
      loanLentDown ∈ writesDown.book.loans ∧
      writesDown.lapsedBefore loanLentDown 7 = false ∧
      (loanLentDown.id = 1 ∨ loanLentDown.id ∈ writesDown.book.lineageFrom 1) := by
  have haccepted : writesDown.Accepted {} := by decide +kernel
  have hreach : (Survey.after writesDown (writesDown.ops.take 6)).referent
      (Place.deref { base := "q" }) = ({ base := "s" }, some 1) := by decide +kernel
  have hfirst : (Survey.after writesDown (writesDown.ops.take 6)).holders.get? { base := "q" } =
      some 1 := by decide +kernel
  have hl : loanLentDown ∈ writesDown.book.loans := by decide +kernel
  have hscope : writesDown.lapsedBefore loanLentDown 7 = false := by decide +kernel
  have hops : writesDown.ops = writesDown.ops.take 6 ++
      .assign 7 (Place.deref { base := "q" }) [] :: writesDown.ops.drop 7 := rfl
  exact ⟨haccepted, hreach, hfirst, hl, hscope,
    lineage_of_written haccepted hops rfl rfl rfl hreach hfirst hl (by decide) (by decide)
      (by decide) hscope⟩

/-- A function that lends what its parameter points at to `x`, and the parameter itself to `o`,
which is dereferenced twice in a write while `x` is needed. -/
def writesPastLender : Function :=
  ofReference .exclusive
    [.declare 1 { base := "x" } (.refTo .shared (.named "T")),
      .borrow 2 .shared { base := "x" } (Place.deref { base := "r" }),
      .declare 3 { base := "o" } (.refTo .exclusive (.refTo .exclusive (.named "T"))),
      .borrow 4 .exclusive { base := "o" } { base := "r" },
      .assign 5 (Place.deref (Place.deref { base := "o" })) [], .use 6 { base := "x" }]

/-- The loan to `x` in `BorrowCheck.Function.writesPastLender`. -/
def loanToReader : Loan where
  borrower := some { base := "x" }
  kind := .shared
  origin := 2
  target := Place.ofCaller "r"
  via := Place.deref { base := "r" }
  parent := some 0
  id := 1
  last := 6

/-- **What lies behind two references may be written while it is lent.** The write goes to what the
parameter points at, through the loan 0 that the parameter holds; the loan to `x` lends the same, is
needed later, and loan 0 was not taken through it. -/
theorem written_while_lent :
    writesPastLender.Accepted {} ∧
      (Survey.after writesPastLender (writesPastLender.ops.take 4)).referent
        (Place.deref (Place.deref { base := "o" })) = (Place.ofCaller "r", some 0) ∧
      (Survey.after writesPastLender (writesPastLender.ops.take 4)).holders.get? { base := "o" } =
        some 2 ∧
      loanToReader ∈ writesPastLender.book.loans ∧ loanToReader.origin < 5 ∧
      5 < loanToReader.last ∧ loanToReader.target.overlaps (Place.ofCaller "r") = true ∧
      writesPastLender.lapsedBefore loanToReader 5 = false ∧
      ¬(loanToReader.id = 0 ∨ loanToReader.id ∈ writesPastLender.book.lineageFrom 0) := by
  refine ⟨by decide +kernel, by decide +kernel, by decide +kernel, by decide +kernel, by decide,
    by decide, by decide +kernel, by decide +kernel, ?_⟩
  rintro (hid | hlineage)
  · cases hid
  · exact Nat.not_lt_zero _ (LoanBook.lt_of_mem_lineageFrom hlineage)

end Function

end BorrowCheck
