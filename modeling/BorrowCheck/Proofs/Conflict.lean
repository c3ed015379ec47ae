import BorrowCheck.Proofs.Grounded

/-!
# Accesses and loans

What an operation of an accepted function reads, moves out or writes is not lent in a way that
conflicts with it. Each access looks at the loans that are outstanding when it is made, and by
`BorrowCheck.Walk.InStep` those are all that matter. Two facts about the parts of an action
(`BorrowCheck.Walk.Keeps`) carry the look of one part over to the state before the action: no part
closes a loan, and a place is only moved out when it is free.
-/

namespace BorrowCheck

/-! ### Values that were moved out -/

namespace Store

variable {s t : Store} {x y : Place} {p : Point}

/-- Whether the cell of `x` says that its value was **moved out**. -/
def movedOut (s : Store) (x : Place) : Bool :=
  (s.cells.get? x).any Cell.isMoved

theorem movedOut_iff : s.movedOut x = true ↔ s.ownership? x = some .moved := by
  rw [movedOut, ownership?]
  cases s.cells.get? x <;> simp [Cell.isMoved]

/-- What is moved out was moved out before, when no value was taken away. -/
theorem LacksNoMore.movedOut (h : LacksNoMore s t) (ht : t.movedOut x = true) :
    s.movedOut x = true := by
  exact movedOut_iff.mpr (h x _ (movedOut_iff.mp ht) (by simp))

/-- Moving `x` out moves nothing else out. -/
theorem movedOut_drain (h : (s.drain x p).movedOut y = true) :
    x.same y = true ∨ s.movedOut y = true := by
  rw [movedOut_iff, ownership?_drain] at h
  split at h
  next hsame => exact Or.inl hsame
  next => exact Or.inr (movedOut_iff.mpr h)

/-- A variable that is declared was not moved out. -/
theorem movedOut_declare {ty : Ty} (h : s.declare x ty false = .ok t)
    (hy : t.movedOut y = true) : s.movedOut y = true := by
  obtain ⟨-, -, rfl⟩ := declare_eq_ok_iff.mp h
  rw [movedOut] at hy
  by_cases hsame : x.same y = true
  · rw [← Place.Map.get?_congr _ hsame, Place.Map.get?_put_self] at hy
    cases hy
  · rwa [Place.Map.get?_put_of_not_same _ _ (Bool.eq_false_iff.mpr hsame)] at hy

end Store

namespace Walk

variable {c : Context} {s t : Survey} {es : List Ending} {p : Point} {w u v : State}
  {x y : Place}

/-! ### The parts of an action -/

/-- The parts of an action at `p` **keep** the loans that are outstanding, and move a place out only
when none of them is in the way. -/
structure Keeps (p : Point) (w u : State) : Prop where
  outstanding : w.ledger.outstanding ⊆ u.ledger.outstanding
  moved : ∀ x, u.store.movedOut x = true → w.store.movedOut x = true ∨ w.ledger.FreeToMove x p

theorem Keeps.refl (w : State) : Keeps p w w :=
  ⟨List.Subset.refl _, fun _ h => Or.inl h⟩

theorem Keeps.trans (hwu : Keeps p w u) (huv : Keeps p u v) : Keeps p w v := by
  refine ⟨List.Subset.trans hwu.outstanding huv.outstanding, fun x hx => ?_⟩
  rcases huv.moved x hx with hu | hfree
  · exact hwu.moved x hu
  · exact Or.inr (hfree.anti hwu.outstanding)

/-- A place is emptied only when no loan is in the way, and loans stay as they are. -/
theorem keeps_vacate (h : vacate w x p = .ok u) : Keeps p w u := by
  obtain ⟨-, -, -, hfree, rfl⟩ := vacate_eq_ok_iff.mp h
  refine ⟨List.Subset.refl _, fun y hy => ?_⟩
  rcases Store.movedOut_drain hy with hsame | hold
  · refine Or.inr fun loan hloan hover => hfree loan hloan ?_
    rwa [Place.overlaps_congr hsame]
  · exact Or.inl hold

theorem keeps_handOver (h : handOver c w x p = .ok u) : Keeps p w u := by
  rcases handOver_cases h with ⟨-, rfl⟩ | hvac
  · exact Keeps.refl u
  · exact keeps_vacate hvac

/-- A loan that is opened at a point comes on top of those that are open. -/
theorem keeps_lend {borrower : Option Place} {kind : BorrowKind} {books : Books} {l : Loan}
    (h : w.toBooks.lend c.book borrower x kind p = .ok (books, l)) :
    Keeps p w { w with toBooks := books } := by
  obtain ⟨-, -, rfl⟩ := Books.lend_eq_ok_iff.mp h
  exact ⟨List.subset_append_left _ _,
    fun y hy => Or.inl ((Store.lacksNoMore_encumber _ _).movedOut hy)⟩

theorem keeps_borrow {borrower : Option Place} {kind : BorrowKind}
    (h : borrow c w borrower kind x p = .ok u) : Keeps p w u := by
  obtain ⟨-, -, -, books, l, hlend, rfl⟩ := borrow_cases h
  exact keeps_lend hlend

theorem keeps_passArg {a : Arg} (h : passArg c p w a = .ok u) : Keeps p w u := by
  rcases passArg_cases h with ⟨-, hover⟩ | ⟨kind, -, hborrow⟩
  · exact keeps_handOver hover
  · exact keeps_borrow hborrow

/-- The arguments of a call, by induction on their list. -/
theorem keeps_passAll {args : List Arg} (h : args.foldlM (passArg c p) w = .ok u) :
    Keeps p w u := by
  induction args generalizing w with
  | nil =>
    obtain rfl := pure_eq_ok_iff.mp h
    exact Keeps.refl w
  | cons a args ih =>
    obtain ⟨v, hv, hrest⟩ := foldlM_cons_eq_ok_iff.mp h
    exact (keeps_passArg hv).trans (ih hrest)

/-- The loans that a move renews, by induction on their list. -/
theorem keeps_lendAll {loans : List Loan} {books : Books}
    (h : lendAll c y p w.toBooks loans = .ok books) : Keeps p w { w with toBooks := books } := by
  induction loans generalizing w with
  | nil =>
    obtain rfl := pure_eq_ok_iff.mp h
    exact Keeps.refl w
  | cons loan loans ih =>
    obtain ⟨books', hbooks', hrest⟩ := foldlM_cons_eq_ok_iff.mp h
    obtain ⟨⟨books'', l⟩, hlend, hpure⟩ := bind_eq_ok_iff.mp hbooks'
    obtain rfl := pure_eq_ok_iff.mp hpure
    exact (keeps_lend hlend).trans (ih (w := { w with toBooks := books'' }) hrest)

/-! ### What is read is not lent exclusively -/

theorem holder_holder (x : Place) : x.holder.holder = x.holder :=
  Place.holder_of_not_throughRef x.throughRef_holder

/-- What may be moved may be read. -/
theorem freeToRead_of_vacate (h : vacate w x p = .ok u) : w.ledger.FreeToRead x.holder p := by
  obtain ⟨-, href, -, hfree, -⟩ := vacate_eq_ok_iff.mp h
  rw [Place.holder_of_not_throughRef href]
  exact hfree.freeToRead

theorem freeToRead_of_handOver (h : handOver c w x p = .ok u) : w.ledger.FreeToRead x.holder p := by
  rcases handOver_cases h with ⟨hread, -⟩ | hvac
  · exact (read_eq_ok_iff.mp hread).2.2.1
  · exact freeToRead_of_vacate hvac

/-- A borrow behind a reference reads the reference. -/
theorem freeToRead_of_borrow {borrower : Option Place} {kind : BorrowKind}
    (h : borrow c w borrower kind x p = .ok u) (href : x.throughRef = true) :
    w.ledger.FreeToRead x.holder p := by
  have hread := (borrow_cases h).2.1 href
  rw [← holder_holder]
  exact (read_eq_ok_iff.mp hread).2.2.1

/-- An argument is free to be read before the call, as the arguments before it close no loan. -/
theorem freeToRead_of_passAll {args : List Arg} (h : args.foldlM (passArg c p) w = .ok u)
    {a : Arg} (ha : a ∈ args) (hread : a.mode = .value ∨ a.place.throughRef = true) :
    w.ledger.FreeToRead a.place.holder p := by
  induction args generalizing w with
  | nil => cases ha
  | cons b args ih =>
    obtain ⟨v, hv, hrest⟩ := foldlM_cons_eq_ok_iff.mp h
    rcases List.mem_cons.mp ha with rfl | ha
    · rcases passArg_cases hv with ⟨-, hover⟩ | ⟨kind, hmode, hborrow⟩
      · exact freeToRead_of_handOver hover
      · refine freeToRead_of_borrow hborrow (hread.resolve_left ?_)
        rw [hmode]
        simp
    · -- the arguments in front have only opened loans
      exact (ih hrest ha).anti (keeps_passArg hv).outstanding

/-- The source of a move is read, or else emptied. -/
theorem freeToRead_of_move (h : move c w y x p = .ok u) : w.ledger.FreeToRead x.holder p := by
  obtain ⟨-, books, hlend, hend⟩ := move_cases h
  rcases hend with ⟨hread, -⟩ | hvac
  · exact (read_eq_ok_iff.mp hread).2.2.1
  · exact (freeToRead_of_vacate hvac).anti (keeps_lendAll hlend).outstanding

/-- **What an action reads is not lent exclusively.** -/
theorem Performed.freeToRead {a : Action} (h : Performed c p w u a) (hx : x ∈ a.reads) :
    w.ledger.FreeToRead x.holder p := by
  cases a with
  | assign y ys => exact (read_eq_ok_iff.mp (h.1 x hx)).2.2.1
  | move y z =>
    obtain rfl := List.mem_singleton.mp hx
    exact freeToRead_of_move h
  | borrow kind y z =>
    by_cases href : z.throughRef = true
    · obtain rfl : x = z := by simpa [Action.reads, href] using hx
      exact freeToRead_of_borrow h.2 href
    · simp [Action.reads, href] at hx
  | deref z =>
    obtain rfl := List.mem_singleton.mp hx
    -- the walk reads the holder, which is its own holder
    have hread : read c w x.holder p = .ok () := (check_bind_eq_ok_iff.mp h.1).1
    rw [← holder_holder]
    exact (read_eq_ok_iff.mp hread).2.2.1
  | use z =>
    obtain rfl := List.mem_singleton.mp hx
    exact (read_eq_ok_iff.mp h.1).2.2.1
  | call args result =>
    obtain ⟨a, ha, rfl⟩ := List.mem_map.mp hx
    obtain ⟨hmem, hread⟩ := List.mem_filter.mp ha
    exact freeToRead_of_passAll h hmem (by simpa using hread)
  | ret z =>
    obtain rfl : z = some x := by simpa [Action.reads] using hx
    obtain ⟨v, hret, -⟩ := h
    exact freeToRead_of_handOver (ret_cases hret).2
  | declare y ty | enter | exit => cases hx

/-! ### What is moved out is not lent -/

/-- **What an action moves out is not lent.** -/
theorem Performed.freeToMove {a : Action} (h : Performed c p w u a)
    (hbefore : w.store.movedOut x = false) (hafter : u.store.movedOut x = true) :
    w.ledger.FreeToMove x p := by
  -- all actions but those that change the blocks consist of parts that keep the loans
  have hkeeps : Keeps p w u → w.ledger.FreeToMove x p := fun hkeeps => by
    refine (hkeeps.moved x hafter).resolve_left ?_
    rw [hbefore]
    simp
  have hlacks : w.store.LacksNoMore u.store → w.ledger.FreeToMove x p := fun hlacks => by
    rw [hlacks.movedOut hafter] at hbefore
    cases hbefore
  cases a with
  | declare y ty =>
    obtain ⟨store, hstore, rfl⟩ := h
    rw [Store.movedOut_declare hstore hafter] at hbefore
    cases hbefore
  | assign y ys | deref y | use y =>
    obtain ⟨-, rfl⟩ := h
    exact hkeeps (Keeps.refl _)
  | move y z =>
    obtain ⟨-, books, hlend, hend⟩ := move_cases h
    rcases hend with ⟨-, rfl⟩ | hvac
    · exact hkeeps (keeps_lendAll hlend)
    · exact hkeeps ((keeps_lendAll hlend).trans (keeps_vacate hvac))
  | borrow kind y z => exact hkeeps (keeps_borrow h.2)
  | call args result => exact hkeeps (keeps_passAll h)
  | ret z =>
    cases z with
    | none =>
      obtain rfl := h
      exact hlacks (Store.LacksNoMore.refl _)
    | some z =>
      obtain ⟨v, hret, rfl⟩ := h
      have hv := keeps_handOver (ret_cases hret).2
      exact hkeeps ⟨hv.outstanding, hv.moved⟩
  | enter =>
    obtain rfl := h
    exact hlacks (Store.lacksNoMore_of_cells rfl)
  | exit =>
    obtain ⟨dying, scopes, -, -, rfl⟩ := exit_cases h
    have hclose := Books.lacksNoMore_close { w.toBooks with store := { w.store with scopes } }
      (w.ledger.borrowedIn dying)
    exact hlacks (hclose.trans (Store.lacksNoMore_endStorage dying))

end Walk

/-! ### Accepted functions -/

namespace Function

variable {f : Function} {policy : Policy} {pre post : List Operation} {op : Operation} {l : Loan}

/-- **No conflicting access.** In an accepted function, let `l` be a loan that was taken before the
point of `op`, whose target goes through no reference and whose borrower did not go out of scope in
between. Then

* if `op` reads a place and `l` lends storage of its holder exclusively, `l` has ended before;
* if `op` moves a place out and `l` lends storage of it, `l` has ended before;
* if `op` writes a place that goes through no reference and `l` lends storage of it, `l` ends here
  or has ended before, as long as no declaration takes a name of the storage of the caller. -/
theorem no_conflicting_access (h : f.Accepted policy) (hops : f.ops = pre ++ op :: post)
    (hl : l ∈ f.book.loans) (htarget : l.target.throughRef = false) (horigin : l.origin < op.point)
    (hscope : f.lapsedBefore l op.point = false) :
    ∃ a w u, op.action = .ok a ∧ f.reach policy pre = .ok w ∧
      Walk.perform (f.context policy) (Walk.settled w op.point false) op.point a =
        .ok (u, a.written?) ∧
      (∀ x ∈ a.reads, l.isExclusive = true → l.target.overlaps x.holder = true →
        l.last < op.point) ∧
      (∀ x, w.store.movedOut x = false → u.store.movedOut x = true →
        l.target.overlaps x = true → l.last < op.point) ∧
      ((∀ n ∈ f.declared, n ∉ f.callers) → ∀ x, a.written? = some x → x.throughRef = false →
        l.target.overlaps x = true → l.last ≤ op.point) := by
  obtain ⟨w, a, u, hw, hact, hperf, hin, hout, hwrite⟩ := h.stages hops
  have hid := h.ordered.id_lt hops hl horigin
  rw [h.ordered.lapsedBefore_eq hops] at hscope
  -- while it is needed, the loan is outstanding when the action begins
  have hstands : op.point ≤ l.last → l ∈ (Walk.settled w op.point false).ledger.outstanding :=
    fun hlast => (hin.mem_outstanding f.book_sound).mpr
      ⟨hl, hid, Int.sub_one_lt_of_le hlast, hscope⟩
  have hperformed := (Walk.perform_cases hperf).1
  refine ⟨a, w, u, hact, hw, hperf, fun x hx hexcl hover => ?_, fun x hbefore hafter hover => ?_,
    fun hnames x hx href hover => ?_⟩
  · by_contra hlast
    have hfree := hperformed.freeToRead hx
    exact hlast (hfree l (hstands (not_lt.mp hlast)) hover hexcl)
  · by_contra hlast
    have hsettled : (Walk.settled w op.point false).store.movedOut x = false := by
      rw [Bool.eq_false_iff] at hbefore ⊢
      exact fun hmoved => hbefore ((Books.lacksNoMore_close _ _).movedOut hmoved)
    have hfree := hperformed.freeToMove hsettled hafter
    exact hlast (hfree l (hstands (not_lt.mp hlast)) hover)
  · by_contra hlast
    rw [not_le] at hlast
    have hmid := hout.settled_inclusive f.book_sound
    rw [Survey.ending?_eq_none _ (kind_ne_exit_of_written hact hx), Option.toList_none,
      List.append_nil] at hmid
    have hstands' : l ∈ (Walk.settled u op.point true).ledger.outstanding :=
      (hmid.mem_outstanding f.book_sound).mpr
        ⟨hl, Nat.lt_of_lt_of_le hid (Survey.grows_observe _ op).length_le, hlast, hscope⟩
    obtain ⟨t, ht⟩ := hwrite x hx
    rcases (Walk.write_cases ht).2 with ⟨hyes, -⟩ | ⟨-, store, hstore, -⟩
    · rw [href] at hyes
      cases hyes
    rcases hstore with ⟨hroot, -, hfill⟩ | ⟨hfree, -⟩
    · -- a variable that waits for its first value is not lent
      have hturn := h.ordered.turn hops
      have hground := h.ordered.grounded_of_reach hnames hops hw
      have hground' : Walk.Grounded f.callers op.point (Walk.settled u op.point true) :=
        ((hground.mono (le_of_lt (h.ordered.pointAfter_lt hops))).settled.perform
          (c := f.context policy) hin hturn hact
          (fun y ty ha => by rw [ha] at hx; cases hx) hperf).settled
      have hwait := Store.awaits_of_fill hroot hfill
      have hbase : l.target.base = x.base := by
        rw [Place.overlaps, Bool.and_eq_true, decide_eq_true_eq] at hover
        exact hover.1
      exact (hground' l hstands' hlast htarget).1 (hbase ▸ hwait)
    · exact absurd (hfree l hstands' hover) (not_le.mpr hlast)

/-- A function that lends `s` exclusively, uses the reference for the last time at 5 and then moves
`s` back into itself, which reads it, moves it out and writes it. -/
def movedAfterLoan : Function where
  name := "f"
  ops :=
    [.declare 1 { base := "s" } (.named "T"), .assign 2 { base := "s" } [],
      .declare 3 { base := "r" } (.named "R"), .borrow 4 .exclusive { base := "r" } { base := "s" },
      .deref 5 { base := "r" }, .move 6 { base := "s" } { base := "s" }]

/-- The loan of `s` in `BorrowCheck.Function.movedAfterLoan`. -/
def loanOfMoved : Loan where
  borrower := some { base := "r" }
  kind := .exclusive
  origin := 4
  target := { base := "s" }
  via := { base := "s" }
  id := 0
  last := 5

/-- At point 6 the loan of `s` is in the way of none of the three accesses. -/
theorem no_conflicting_access_movedAfterLoan :
    movedAfterLoan.Accepted {} ∧ loanOfMoved ∈ movedAfterLoan.book.loans ∧
      movedAfterLoan.lapsedBefore loanOfMoved 6 = false ∧
      (∀ n ∈ movedAfterLoan.declared, n ∉ movedAfterLoan.callers) ∧
      ∃ a w u, Operation.action (.move 6 { base := "s" } { base := "s" }) = .ok a ∧
        movedAfterLoan.reach {} (movedAfterLoan.ops.take 5) = .ok w ∧
        Walk.perform (movedAfterLoan.context {}) (Walk.settled w 6 false) 6 a =
          .ok (u, a.written?) ∧
        (∀ x ∈ a.reads, loanOfMoved.isExclusive = true →
          loanOfMoved.target.overlaps x.holder = true → loanOfMoved.last < 6) ∧
        (∀ x, w.store.movedOut x = false → u.store.movedOut x = true →
          loanOfMoved.target.overlaps x = true → loanOfMoved.last < 6) ∧
        ((∀ n ∈ movedAfterLoan.declared, n ∉ movedAfterLoan.callers) → ∀ x, a.written? = some x →
          x.throughRef = false → loanOfMoved.target.overlaps x = true → loanOfMoved.last ≤ 6) := by
  have haccepted : movedAfterLoan.Accepted {} := by decide +kernel
  have hmem : loanOfMoved ∈ movedAfterLoan.book.loans := by decide +kernel
  have hscope : movedAfterLoan.lapsedBefore loanOfMoved 6 = false := by decide +kernel
  have hops : movedAfterLoan.ops =
      movedAfterLoan.ops.take 5 ++ [.move 6 { base := "s" } { base := "s" }] := rfl
  exact ⟨haccepted, hmem, hscope, by decide +kernel,
    no_conflicting_access haccepted hops hmem rfl (by decide) hscope⟩

end Function

end BorrowCheck
