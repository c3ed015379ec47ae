import BorrowCheck.Proofs.Lighter
import BorrowCheck.Proofs.Mutation

/-!
# Two walks abreast

One walk goes through a body and another one through the same body thinned out and renamed
(`BorrowCheck.Thinned`). At every operation that is kept the two are **abreast**
(`BorrowCheck.Walk.Abreast`): the second one is in a lighter state, and each is in step with its own
survey. What the first one completes the second one completes too, and it stays lighter
(`BorrowCheck.Walk.Abreast.perform`, `BorrowCheck.Walk.Abreast.step`).

That the second walk meets fewer obstacles does not settle this alone. Three checks ask for a
reference to be there: a value is read and not moved out when it is a reference, a dereference needs
one, and so does a write behind a place. There the surveys help. The operation itself uses the
reference, so what the place holds is needed up to this point in the second walk as in the first one
(`BorrowCheck.Walk.Abreast.holds_eq`).
-/

namespace BorrowCheck

/-- The book `b'` of a body that is thinned out and renamed by `σ` **matches** the book `b` of the
body itself. -/
structure LoanBook.Matches (σ : Proj → Proj) (q : Point) (b b' : LoanBook) : Prop where
  faithful : Proj.Faithful σ
  sound : b.Sound
  sound' : b'.Sound
  outlasts : b.Outlasts σ q b'

/-- What the survey knows to be held at `x` is needed at `p`. -/
def Survey.NeededAt (s : Survey) (b : LoanBook) (x : Place) (p : Point) : Prop :=
  ∀ e ∈ s.holders.toList, e.1.same x = true → ∀ l, b.get? e.2 = some l → p ≤ l.last

/-- What is needed stays so when loans are taken at the point itself. -/
theorem Survey.NeededAt.grows {s t : Survey} {b : LoanBook} {x : Place} {p : Point}
    (h : s.NeededAt b x p) (hgrow : s.Grows (· = p) t) (ht : t.Sound) (hrec : t.RecordedBy b)
    (hb : b.Sound) : t.NeededAt b x p := by
  intro e he hsame l hl
  obtain ⟨br, -, hbr, -⟩ := ht.held e he
  rcases Nat.lt_or_ge e.2 s.borrows.length with hold | hnew
  · exact h e (hgrow.holders e he hold) hsame l hl
  · obtain ⟨m, hm, rfl⟩ := hrec.loan e.2 br hbr
    rw [hl, Option.some.injEq] at hm
    subst hm
    have horigin : l.origin = p := hgrow.origin hbr hnew
    exact horigin ▸ hb.origin_le_last l (LoanBook.mem_of_get? hl)

namespace Walk

variable {σ : Proj → Proj} {q p now : Point} {policy : Policy} {b b' : LoanBook}
  {s s' t t' : Survey} {es : List Ending} {w w' u : State} {x : Place} {op : Operation} {a : Action}

/-! ### The relation -/

/-- Two walks in step with their surveys, of which the second one released what the first one did,
as far as it is outstanding: **the second ledger is lighter**. -/
theorem InStep.lighter (h : InStep b s es now w) (h' : InStep b' s' es now w')
    (hm : b.Matches σ q b') (hlen : s'.borrows.length = s.borrows.length) (hq : q ≤ now)
    (hes : ∀ e ∈ es, q < e.point)
    (hreleased : ∀ l' ∈ w'.ledger.outstanding, l'.id ∈ w.ledger.released →
      l'.id ∈ w'.ledger.released) : w.ledger.Lighter σ q b b' w'.ledger := by
  intro l' hl'
  obtain ⟨hmem', hid', hlast', hlapsed'⟩ := (h'.mem_outstanding hm.sound').mp hl'
  obtain ⟨l, hl, hout⟩ := hm.outlasts l' hmem'
  have hlasts : l'.last ≤ l.last :=
    hout.last.resolve_right (not_le.mpr (lt_of_le_of_lt hq hlast'))
  refine ⟨l, (h.mem_outstanding hm.sound).mpr ⟨hl, ?_, lt_of_lt_of_le hlast' hlasts, ?_⟩,
    ⟨hout, hlasts, ?_, fun hmem => ?_⟩⟩
  · rwa [← hout.id, ← hlen]
  · rw [← hout.lapsed_eq hes, hlapsed']
  · rw [LoanBook.lineage, LoanBook.lineage, ← hout.id]
    exact hm.outlasts.lineageFrom_eq hm.sound hm.sound' (hm.sound'.get?_id hmem')
  · exact hreleased l' hl' (hout.id ▸ hmem)

/-- The two walks are **abreast** in front of an action at `p`, or in the middle of it: the first
one is in step with the survey `s`, the second one with `s'`, which is `s` thinned out. -/
structure Abreast (σ : Proj → Proj) (q : Point) (b b' : LoanBook) (s s' : Survey)
    (es : List Ending) (p : Point) (w w' : State) : Prop where
  books : b.Matches σ q b'
  first : InStep b s es (p - 1) w
  second : InStep b' s' es (p - 1) w'
  lighter : Lighter σ q b b' w w'
  follows : s.Follows σ q s'
  sound : s.Sound
  sound' : s'.Sound
  recorded' : s'.RecordedBy b'
  early : q < p
  late : ∀ e ∈ es, q < e.point ∧ e.point < p
  /-- Where the first walk finds a loan the survey knows of one. -/
  known : ∀ l ∈ w.ledger.outstanding, ∀ y, l.borrower = some y → l.id ∉ w.ledger.released →
    (s.holders.get? y).isSome = true

/-- **A place that is needed holds a loan in both walks or in neither.** -/
theorem Abreast.holds_eq (h : Abreast σ q b b' s s' es p w w')
    (hneed : s'.NeededAt b' (x.rename σ) p) :
    w'.ledger.holds (x.rename σ) = w.ledger.holds x := by
  have hσ := h.books.faithful
  rw [Bool.eq_iff_iff]
  constructor
  · intro hheld
    obtain ⟨l', hl', hat⟩ := Ledger.holds_iff.mp hheld
    obtain ⟨l, hl, hbacks⟩ := h.lighter.ledger l' hl'
    refine Ledger.holds_iff.mpr ⟨l, hl, hbacks.isHeldAt (fun y hy => ?_) hat⟩
    rwa [Place.same_rename hσ] at hy
  · intro hheld
    obtain ⟨l, hl, hat⟩ := Ledger.holds_iff.mp hheld
    obtain ⟨y, hy, hkept, hsame⟩ := Ledger.isHeldAt_iff.mp hat
    -- the survey of the first walk knows of a loan there, so that of the second one does
    obtain ⟨k, hk⟩ := Option.isSome_iff_exists.mp (h.known l hl y hy hkept)
    rw [← Place.Map.get?_congr _ hsame, ← h.follows.get? hσ] at hk
    obtain ⟨e, he, hex, rfl⟩ := Place.Map.exists_mem_of_get? hk
    obtain ⟨l', -, hl', -, -⟩ := h.recorded'.exists_of_held h.sound' he
    exact (h.second.found_of_get? h.books.sound' h.sound' h.recorded' hk hl'
      (Int.sub_one_lt_of_le (hneed e he hex l' hl'))).1

/-- Both walks take a place that is needed for a reference, or neither does. -/
theorem Abreast.isReference_eq (h : Abreast σ q b b' s s' es p w w')
    (hneed : s'.NeededAt b' (x.rename σ) p) :
    isReference { policy, book := b' } w' (x.rename σ) =
      isReference { policy, book := b } w x := by
  rw [isReference, isReference, h.holds_eq hneed, h.lighter.store.isReference h.books.faithful]

/-! ### Borrows -/

/-- **The next loan is opened by both walks.** -/
theorem Abreast.lend (h : Abreast σ q b b' s s' es p w w') (hrec : t.RecordedBy b)
    (hrec' : t'.RecordedBy b') {br br' : Borrow} (hborrows : t.borrows = s.borrows ++ [br])
    (hborrows' : t'.borrows = s'.borrows ++ [br']) (hren : br.Renamed σ q br')
    (horigin : br.origin = p) (horigin' : br'.origin = p) {books : Books} {l : Loan}
    (hlend : w.toBooks.lend b br.borrower br.via br.kind p = .ok (books, l)) :
    ∃ books' l', w'.toBooks.lend b' br'.borrower br'.via br'.kind p = .ok (books', l') ∧
      Lighter σ q b b' { w with toBooks := books } { w' with toBooks := books' } := by
  obtain ⟨m, hm, rfl, hfound⟩ := h.first.exists_due h.books.sound hrec hborrows
  obtain ⟨l', hl', rfl, hfound'⟩ := h.second.exists_due h.books.sound' hrec' hborrows'
  obtain rfl : m = l := by
    rw [horigin] at hfound
    exact Option.some.inj (hfound.symm.trans (Books.lend_eq_ok_iff.mp hlend).1)
  -- the loans that are due match, and the second one is needed after `q`
  obtain ⟨m', hm', hout⟩ := h.books.outlasts.get? h.books.sound h.books.sound' hl'
  obtain rfl : m' = m := by
    rw [h.follows.length_eq, hm] at hm'
    exact (Option.some.inj hm').symm
  have hlast : p ≤ l'.last :=
    horigin' ▸ h.books.sound'.origin_le_last l' (LoanBook.mem_of_get? hl')
  have hid := h.books.sound.id_eq _ _ hm
  have hid' := h.books.sound'.id_eq _ _ hl'
  rw [horigin', hren.borrower, hren.via, hren.kind] at hfound'
  rw [hren.borrower, hren.via, hren.kind]
  obtain ⟨books', hlend', hlighter⟩ := h.lighter.lend h.books.faithful hlend hfound' hout
    (hout.last.resolve_right (not_le.mpr (lt_of_lt_of_le h.early hlast)))
    (by rw [LoanBook.lineage, LoanBook.lineage, ← hout.id, hid',
      h.books.outlasts.lineageFrom_eq h.books.sound h.books.sound' hl'])
    (fun hmem => Nat.lt_irrefl _ (hid ▸ h.first.released _ hmem))
  exact ⟨books', l', hlend', hlighter⟩

/-- A borrow that the first walk completes the second one completes. -/
theorem Abreast.borrow (h : Abreast σ q b b' s s' es p w w') {y : Option Place} {kind : BorrowKind}
    (hrec : t.RecordedBy b) (hrec' : t'.RecordedBy b')
    (hborrows : t.borrows = s.borrows ++ [(s.touch x p).borrowOf y kind x p])
    (hborrows' : t'.borrows = s'.borrows ++
      [(s'.touch (x.rename σ) p).borrowOf (y.map (Place.rename σ)) kind (x.rename σ) p])
    (hborrow : borrow { policy, book := b } w y kind x p = .ok u) :
    ∃ u', Walk.borrow { policy, book := b' } w' (y.map (Place.rename σ)) kind (x.rename σ) p =
      .ok u' ∧ Lighter σ q b b' u u' := by
  have hσ := h.books.faithful
  obtain ⟨hdecl, hread, hval, books, l, hlend, rfl⟩ := borrow_cases hborrow
  obtain ⟨books', l', hlend', hlighter⟩ := h.lend hrec hrec' hborrows hborrows'
    ((h.follows.touch hσ).borrowOf hσ y kind x p) rfl rfl hlend
  refine ⟨_, borrow_eq_ok_iff.mpr ⟨?_, fun href => ?_, fun href => ?_, books', l', hlend', rfl⟩,
    hlighter⟩
  · rwa [h.lighter.store.declares]
  · rw [Place.throughRef_rename hσ] at href
    rw [Place.holder_rename hσ]
    exact h.lighter.read hσ (hread href)
  · rw [Place.throughRef_rename hσ] at href
    exact h.lighter.store.lacking? hσ (hval href)

/-! ### Arguments -/

/-- Passing an argument keeps the two walks abreast. -/
theorem Abreast.passArg (h : Abreast σ q b b' s s' es p w w') {d : Arg}
    (hrec : (s.pass p d).RecordedBy b)
    (hrec' : (s'.pass p (d.rename σ)).RecordedBy b')
    (hneed : d.mode = .value → s'.NeededAt b' (d.place.rename σ) p)
    (hpass : passArg { policy, book := b } p w d = .ok u) :
    ∃ u', Walk.passArg { policy, book := b' } p w' (d.rename σ) = .ok u' ∧
      Abreast σ q b b' (s.pass p d) (s'.pass p (d.rename σ)) es p u u' := by
  have hσ := h.books.faithful
  have hes : ∀ e ∈ es, e.point < p := fun e he => (h.late e he).2
  obtain ⟨u', hpass', hlighter⟩ : ∃ u', Walk.passArg { policy, book := b' } p w' (d.rename σ) =
      .ok u' ∧ Lighter σ q b b' u u' := by
    rcases passArg_cases hpass with ⟨hmode, hover⟩ | ⟨kind, hmode, hborrow⟩
    · obtain ⟨u', hover', hlighter⟩ := h.lighter.handOver hσ (h.isReference_eq (hneed hmode)) hover
      refine ⟨u', ?_, hlighter⟩
      simpa [Walk.passArg, Arg.rename, hmode] using hover'
    · have hborrows : (s.pass p d).borrows =
          s.borrows ++ [(s.touch d.place p).borrowOf none kind d.place p] := by
        simp [Survey.pass, hmode, Survey.take]
      have hborrows' : (s'.pass p (d.rename σ)).borrows = s'.borrows ++
          [(s'.touch (d.place.rename σ) p).borrowOf none kind (d.place.rename σ) p] := by
        simp [Survey.pass, Arg.rename, hmode, Survey.take]
      obtain ⟨u', hborrow', hlighter⟩ := h.borrow hrec hrec' hborrows hborrows' hborrow
      refine ⟨u', ?_, hlighter⟩
      simpa [Walk.passArg, Arg.rename, hmode] using hborrow'
  have hfirst := h.first.passArg (c := { policy, book := b }) h.books.sound h.sound hes hrec hpass
  have hsecond :=
    h.second.passArg (c := { policy, book := b' }) h.books.sound' h.sound' hes hrec' hpass'
  refine ⟨u', hpass', h.books, hfirst, hsecond, hlighter, h.follows.pass hσ, h.sound.pass,
    h.sound'.pass, hrec', h.early, h.late, ?_⟩
  intro l hl y hy hkept
  rw [Survey.holders_pass]
  rcases passArg_cases hpass with ⟨-, hover⟩ | ⟨kind, -, hborrow⟩
  · rw [(handOver_frame hover).1] at hl hkept
    exact h.known l hl y hy hkept
  · obtain ⟨-, -, -, books, m, hlend, rfl⟩ := borrow_cases hborrow
    obtain ⟨hdue, -, rfl⟩ := Books.lend_eq_ok_iff.mp hlend
    rcases List.mem_append.mp hl with hl | hl
    · exact h.known l hl y hy hkept
    · -- a loan for the length of the call is stored nowhere
      have hnone := List.find?_some hdue
      simp [← List.mem_singleton.mp hl, hy] at hnone

/-- Passing the arguments of a call keeps the two walks abreast. -/
theorem Abreast.passAll {args : List Arg} (h : Abreast σ q b b' s s' es p w w')
    (hrec : (args.foldl (Survey.pass p) s).RecordedBy b)
    (hrec' : ((args.map (Arg.rename σ)).foldl (Survey.pass p)
      s').RecordedBy b')
    (hneed : ∀ d ∈ args, d.mode = .value → s'.NeededAt b' (d.place.rename σ) p)
    (hpass : args.foldlM (Walk.passArg { policy, book := b } p) w = .ok u) :
    ∃ u', (args.map (Arg.rename σ)).foldlM (Walk.passArg { policy, book := b' } p) w' = .ok u' ∧
      Lighter σ q b b' u u' := by
  induction args generalizing s s' w w' with
  | nil =>
    obtain rfl := pure_eq_ok_iff.mp hpass
    exact ⟨w', rfl, h.lighter⟩
  | cons d args ih =>
    obtain ⟨v, hv, hrest⟩ := foldlM_cons_eq_ok_iff.mp hpass
    have hgrow : ∀ (s : Survey) (args : List Arg), s.Grows (· = p) (args.foldl (Survey.pass p) s) :=
      fun s args => Survey.grows_foldl _ fun _ _ _ => Survey.grows_pass
    obtain ⟨v', hv', hnext⟩ := h.passArg (hrec.of_grows (hgrow _ _)) (hrec'.of_grows (hgrow _ _))
      (hneed d List.mem_cons_self) hv
    have hneed' : ∀ d' ∈ args, d'.mode = .value →
        (s'.pass p (d.rename σ)).NeededAt b' (d'.place.rename σ) p := by
      intro d' hd' hmode
      rw [Survey.NeededAt, Survey.holders_pass]
      exact hneed d' (List.mem_cons_of_mem d hd') hmode
    obtain ⟨u', hu', hlighter⟩ := ih hnext hrec hrec' hneed' hrest
    exact ⟨u', foldlM_cons_eq_ok_iff.mpr ⟨v', hv', hu'⟩, hlighter⟩

/-! ### Moves -/

section

variable {y : Place} (h : Abreast σ q b b' s s' es p w w')
  (hrec : (s.move (some y) x p).RecordedBy b)
  (hrec' : (s'.move (some (y.rename σ)) (x.rename σ) p).RecordedBy b')
  (hlater : ∀ l ∈ b.loans, (s.move (some y) x p).borrows.length ≤ l.id → l.origin ≠ p)
  (hlater' : ∀ l ∈ b'.loans,
    (s'.move (some (y.rename σ)) (x.rename σ) p).borrows.length ≤ l.id → l.origin ≠ p)

include h hrec hrec' hlater hlater'

/-- Two moves open no loan, or one each. -/
theorem Abreast.lendAll (policy : Policy) :
    (dueFor { policy, book := b' } w' (y.rename σ) p).isEmpty =
        (dueFor { policy, book := b } w y p).isEmpty ∧
      ∀ books, lendAll { policy, book := b } y p w.toBooks (dueFor { policy, book := b } w y p) =
        .ok books →
      ∃ books', Walk.lendAll { policy, book := b' } (y.rename σ) p w'.toBooks
          (dueFor { policy, book := b' } w' (y.rename σ) p) = .ok books' ∧
        Lighter σ q b b' { w with toBooks := books } { w' with toBooks := books' } := by
  have hfollows : (s.move (some y) x p).Follows σ q
      (s'.move (some (y.rename σ)) (x.rename σ) p) := h.follows.move h.books.faithful
  have hlen := h.follows.length_eq
  have hlen' := hfollows.length_eq
  rcases h.first.dueFor_cases (c := { policy, book := b }) h.books.sound hrec hlater with
    ⟨hsame, hnil⟩ | ⟨k, br, l, -, -, hnew, hlbr, hone⟩ <;>
  rcases h.second.dueFor_cases (c := { policy, book := b' }) h.books.sound' hrec' hlater' with
    ⟨hsame', hnil'⟩ | ⟨k', br', l', -, -, hnew', hlbr', hone'⟩
  · rw [hnil, hnil']
    refine ⟨rfl, fun books hlend => ⟨w'.toBooks, rfl, ?_⟩⟩
    obtain rfl := pure_eq_ok_iff.mp hlend
    exact h.lighter
  · rw [hsame, hnew', List.length_append, hlen] at hlen'
    simp at hlen'
  · rw [hsame', hnew, List.length_append, hlen] at hlen'
    simp at hlen'
  · rw [hone, hone']
    refine ⟨rfl, fun books hlend => ?_⟩
    obtain ⟨m, hlend⟩ := lendAll_singleton.mp hlend
    -- the loans that the surveys take match
    have hren : (br.handedOn k y x p).Renamed σ q
        (br'.handedOn k' (y.rename σ) (x.rename σ) p) := by
      obtain ⟨d, hd, hren⟩ := hfollows.exists_getElem? (i := s.borrows.length)
        (by rw [hnew, List.getElem?_concat_length])
      rw [hnew', ← hlen, List.getElem?_concat_length, Option.some.injEq] at hd
      rwa [hd]
    have hvia : l.via = x := by rw [hlbr]; rfl
    have hkind : l.kind = br.kind := by rw [hlbr]; rfl
    rw [hvia, hkind] at hlend
    obtain ⟨books', m', hlend', hlighter⟩ := h.lend hrec hrec' hnew hnew' hren rfl rfl hlend
    refine ⟨books', lendAll_singleton.mpr ⟨m', ?_⟩, hlighter⟩
    rw [hlbr']
    exact hlend'

/-- A move that the first walk completes the second one completes. -/
theorem Abreast.move (hneed : s'.NeededAt b' (x.rename σ) p)
    (hmove : move { policy, book := b } w y x p = .ok u) :
    ∃ u', Walk.move { policy, book := b' } w' (y.rename σ) (x.rename σ) p = .ok u' ∧
      Lighter σ q b b' u u' := by
  have hσ := h.books.faithful
  obtain ⟨hempty, hlendAll⟩ := h.lendAll hrec hrec' hlater hlater' policy
  simp only [move_eq_ok_iff, hempty, h.isReference_eq hneed, h.lighter.store.declares,
    h.lighter.store.copies hσ] at hmove ⊢
  obtain ⟨hdecl, hmove⟩ := hmove
  split at hmove
  next hheld =>
    obtain ⟨hread, books, hlend, hend⟩ := hmove
    obtain ⟨books', hlend', hlighter⟩ := hlendAll books hlend
    simp only [hheld, if_true]
    -- the value is moved out by both, by the first one alone, or by neither
    by_cases hexcl' : isExclusiveReference { policy, book := b' } w' (x.rename σ) = true
    · rw [if_pos (h.lighter.isExclusiveReference hσ hexcl')] at hend
      obtain ⟨u', hvac', hlighter'⟩ := hlighter.vacate hσ hend
      refine ⟨u', ⟨hdecl, h.lighter.read hσ hread, books', hlend', ?_⟩, hlighter'⟩
      rwa [if_pos hexcl']
    · refine ⟨_, ⟨hdecl, h.lighter.read hσ hread, books', hlend', by rw [if_neg hexcl']⟩, ?_⟩
      split at hend
      · exact hlighter.vacate_left hend
      · rw [hend]
        exact hlighter
  next hheld =>
    simp only [hheld]
    split at hmove
    next hcopies =>
      obtain ⟨hread, rfl⟩ := hmove
      exact ⟨w', ⟨hdecl, by simpa [hcopies] using h.lighter.read hσ hread⟩, h.lighter⟩
    next hcopies =>
      obtain ⟨u', hvac', hlighter⟩ := h.lighter.vacate hσ hmove
      exact ⟨u', ⟨hdecl, by simpa [hcopies] using hvac'⟩, hlighter⟩

end

/-! ### Ends of functions and of blocks -/

theorem Abreast.ret (h : Abreast σ q b b' s s' es p w w') (hneed : s'.NeededAt b' (x.rename σ) p)
    (hret : ret { policy, book := b } w x p = .ok u) :
    ∃ u', Walk.ret { policy, book := b' } w' (x.rename σ) p = .ok u' ∧ Lighter σ q b b' u u' := by
  have hσ := h.books.faithful
  obtain ⟨hdecl, hlocal, hover⟩ := ret_eq_ok_iff.mp hret
  obtain ⟨u', hover', hlighter⟩ := h.lighter.handOver hσ (h.isReference_eq hneed) hover
  refine ⟨u', ret_eq_ok_iff.mpr ⟨by rwa [h.lighter.store.declares], fun l' hl' => ?_, hover'⟩,
    hlighter⟩
  obtain ⟨l, hl, hbacks⟩ := h.lighter.ledger.heldUnder hσ hl'
  rw [hbacks.target, h.lighter.store.isLocal hσ, hlocal l hl]

/-- A block that the first walk leaves the second one leaves. -/
theorem Abreast.exit (h : Abreast σ q b b' s s' es p w w') (hrec : s.RecordedBy b)
    (hearlier : ∀ l ∈ b.loans, l.id < s.borrows.length → l.origin < p)
    (hearlier' : ∀ l ∈ b'.loans, l.id < s'.borrows.length → l.origin < p)
    (hexit : exit w p = .ok u) : ∃ u', Walk.exit w' p = .ok u' ∧ Lighter σ q b b' u u' := by
  have hσ := h.books.faithful
  obtain ⟨dying, scopes, hscopes, hlasts, hu⟩ := exit_eq_ok_iff.mp hexit
  have hscopes' : w'.store.scopes.exit? = some (dying, scopes) := by
    rw [h.lighter.store.scopes, hscopes]
  have hexit' : Walk.exit w' p = .ok _ :=
    exit_eq_ok_iff.mpr ⟨dying, scopes, hscopes', fun l' hl' y' hy' hkeep hdies hlocal => ?_, rfl⟩
  · refine ⟨_, hexit', ?_, ?_, ?_⟩
    · -- the same loans are closed in the store and the same variables end
      rw [hu]
      refine Store.Lighter.endStorage (Store.Lighter.close ?_ _ _) dying
      exact h.lighter.store.congr (fun _ => rfl) (fun _ => rfl) h.lighter.store.types rfl
        h.lighter.store.distinct
    · obtain ⟨names, blocks, hnames, hfirst⟩ :=
        h.first.exit h.books.sound h.sound hrec hearlier hexit
      obtain ⟨names', blocks', hnames', hsecond⟩ :=
        h.second.exit h.books.sound' h.sound' h.recorded' hearlier' hexit'
      rw [h.follows.scopes, hnames, Option.some.injEq, Prod.mk.injEq] at hnames'
      rw [← hnames'.1] at hsecond
      refine hfirst.lighter hsecond h.books h.follows.exit.length_eq
        (Int.le_sub_one_of_lt h.early) (fun e he => ?_) fun l' hl' hmem => ?_
      · rcases List.mem_append.mp he with he | he
        · exact (h.late e he).1
        · rw [List.mem_singleton.mp he]
          exact h.early
      · rw [hu] at hmem
        obtain ⟨l, hl, hbacks⟩ := h.lighter.ledger l' (List.mem_of_mem_filter hl')
        exact hbacks.released (hbacks.id ▸ hmem)
    · rw [hu]
      exact h.lighter.returned
  · -- a loan of storage that ends is backed by one of the same storage
    obtain ⟨l, hl, hbacks⟩ := h.lighter.ledger l' hl'
    rw [hbacks.borrower, Option.map_eq_some_iff] at hy'
    obtain ⟨y, hy, rfl⟩ := hy'
    rw [hbacks.target, h.lighter.store.isLocal hσ] at hlocal
    rw [hbacks.target, Place.base_rename] at hdies
    rw [Place.base_rename] at hkeep
    exact le_trans hbacks.lasts (hlasts l hl y hy hkeep hdies hlocal)

/-! ### The action -/

/-- **What an action does before its write the second walk does too**, when what it reads is
needed. -/
theorem Abreast.perform (h : Abreast σ q b b' s s' es op.point w w') (ht : Turn b s es op)
    (ht' : Turn b' s' es (op.rename σ)) (hact : op.action = .ok a)
    (hneed : ∀ x ∈ a.reads, ∀ y : Place, y.isPrefixOf x = true →
      s'.NeededAt b' (y.rename σ) op.point)
    (hperf : perform { policy, book := b } w op.point a = .ok (u, a.written?)) :
    ∃ u', Walk.perform { policy, book := b' } w' op.point (a.rename σ) =
      .ok (u', (a.rename σ).written?) ∧ Lighter σ q b b' u u' := by
  have hσ := h.books.faithful
  have hneed' : ∀ x ∈ a.reads, s'.NeededAt b' (x.rename σ) op.point :=
    fun x hx => hneed x hx x (Place.isPrefixOf_refl x)
  have hact' := op.action_rename σ hact
  have hrec := ht.recorded
  have hrec' := ht'.recorded
  have hlater := ht.later
  have hlater' := ht'.later
  rw [Survey.observe_eq_act s hact] at hrec hlater
  rw [Survey.observe_eq_act s' hact'] at hrec' hlater'
  cases a with
  | declare x ty =>
    obtain ⟨⟨store, hstore, rfl⟩, -⟩ := perform_cases hperf
    obtain ⟨store', hstore', hlighter⟩ := h.lighter.store.declare hσ hstore
    exact ⟨{ w' with store := store' }, bind_eq_ok_iff.mpr ⟨store', hstore', rfl⟩, hlighter,
      h.lighter.ledger, h.lighter.returned⟩
  | assign x ys =>
    obtain ⟨⟨hreads, rfl⟩, -⟩ := perform_cases hperf
    refine ⟨w', check_bind_eq_ok_iff.mpr ⟨forM_eq_ok_iff.mpr fun z hz => ?_, rfl⟩, h.lighter⟩
    obtain ⟨y, hy, rfl⟩ := List.mem_map.mp hz
    exact h.lighter.read hσ (hreads y hy)
  | move y x =>
    obtain ⟨u', hmove', hlighter⟩ := h.move hrec hrec' hlater hlater'
      (hneed' x List.mem_cons_self) (perform_cases hperf).1
    exact ⟨u', bind_eq_ok_iff.mpr ⟨u', hmove', rfl⟩, hlighter⟩
  | borrow kind y x =>
    obtain ⟨⟨hdecl, hborrow⟩, -⟩ := perform_cases hperf
    have hborrows : ∀ (s : Survey) (y x : Place), (s.lend kind y x op.point).borrows =
        s.borrows ++ [(s.touch x op.point).borrowOf (some y) kind x op.point] := by
      simp [Survey.lend, Survey.define, Survey.take]
    obtain ⟨u', hborrow', hlighter⟩ := h.borrow (y := some y) hrec hrec' (hborrows s y x)
      (hborrows s' (y.rename σ) (x.rename σ)) hborrow
    refine ⟨u', check_bind_eq_ok_iff.mpr ⟨Store.ensureInScope_eq_ok_iff.mpr ?_,
      bind_eq_ok_iff.mpr ⟨u', hborrow', rfl⟩⟩, hlighter⟩
    rwa [h.lighter.store.declares]
  | deref x =>
    obtain ⟨⟨hfollow, rfl⟩, -⟩ := perform_cases hperf
    obtain ⟨hread, href⟩ := follow_eq_ok_iff.mp hfollow
    refine ⟨w', check_bind_eq_ok_iff.mpr ⟨follow_eq_ok_iff.mpr ?_, rfl⟩, h.lighter⟩
    rw [Place.holder_rename hσ, h.isReference_eq
      (hneed x List.mem_cons_self x.holder (Place.holder_isPrefixOf x))]
    exact ⟨h.lighter.read hσ hread, href⟩
  | use x =>
    obtain ⟨⟨hread, rfl⟩, -⟩ := perform_cases hperf
    exact ⟨w', check_bind_eq_ok_iff.mpr ⟨h.lighter.read hσ hread, rfl⟩, h.lighter⟩
  | call args result =>
    obtain ⟨hdecl, hpass⟩ := perform_call_eq_ok_iff.mp hperf
    have hvalue : ∀ d ∈ args, d.mode = .value → s'.NeededAt b' (d.place.rename σ) op.point :=
      fun d hd hmode => hneed' d.place
        (List.mem_map_of_mem (List.mem_filter.mpr ⟨hd, by simp [hmode]⟩))
    have hgrow : ∀ (t : Survey) (y : Option Place), t.Grows (· = op.point) (t.write? y op.point) :=
      fun _ _ => Survey.grows_write?
    obtain ⟨u', hpass', hlighter⟩ := h.passAll (hrec.of_grows (hgrow _ result))
      (hrec'.of_grows (hgrow _ (result.map (Place.rename σ)))) hvalue hpass
    refine ⟨u', perform_call_eq_ok_iff.mpr ⟨fun z hz => ?_, hpass'⟩, hlighter⟩
    obtain ⟨y, hy, rfl⟩ := Option.map_eq_some_iff.mp hz
    rw [h.lighter.store.declares]
    exact hdecl y hy
  | ret x =>
    cases x with
    | none =>
      obtain ⟨rfl, -⟩ := perform_cases hperf
      exact ⟨{ w' with returned := some op.point }, rfl, h.lighter.store, h.lighter.ledger, rfl⟩
    | some x =>
      obtain ⟨⟨v, hret, rfl⟩, -⟩ := perform_cases hperf
      obtain ⟨v', hret', hlighter⟩ := h.ret (hneed' x List.mem_cons_self) hret
      exact ⟨{ v' with returned := some op.point }, bind_eq_ok_iff.mpr ⟨v', hret', rfl⟩,
        hlighter.store, hlighter.ledger, rfl⟩
  | enter =>
    obtain ⟨rfl, -⟩ := perform_cases hperf
    exact ⟨_, rfl, h.lighter.store.enter, h.lighter.ledger, h.lighter.returned⟩
  | exit =>
    obtain ⟨u', hexit', hlighter⟩ := h.exit (ht.recorded.of_grows (s.grows_observe op)) ht.earlier
      ht'.earlier (perform_cases hperf).1
    exact ⟨u', bind_eq_ok_iff.mpr ⟨u', hexit', rfl⟩, hlighter⟩

/-! ### The write -/

/-- The loans that end with a write count as held for it: closing them makes no difference to what
a place holds. -/
theorem InStep.mem_heldAt_settled (h : InStep b s es now w) (hb : b.Sound) {l : Loan} :
    l ∈ (Walk.settled w p true).ledger.heldAt x (w.toBooks.settle p true).2 ↔
      l ∈ w.ledger.outstanding ∧ w.ledger.isHeldAt x.same l = true := by
  have hstrike : (Walk.settled w p true).ledger.outstanding = _ :=
    Ledger.outstanding_strike (h.eq_of_id hb)
  have hout : l ∈ (Walk.settled w p true).ledger.outstanding ++ (w.toBooks.settle p true).2 ↔
      l ∈ w.ledger.outstanding := by
    rw [List.mem_append, hstrike, List.mem_filter, Books.settle, Ledger.expired, List.mem_filter]
    cases (decide (l.last < p) || true && decide (l.last = p)) <;> simp
  rw [Ledger.heldAt, List.mem_filter, hout]
  exact Iff.rfl

/-- A write behind a reference that the first walk completes the second one completes. -/
theorem Abreast.writeBehind (h : Abreast σ q b b' s s' es p w w')
    (hneed : s'.NeededAt b' (x.rename σ) p)
    (hwrite : writeBehind { policy, book := b } (settled w p true) (w.toBooks.settle p true).2 x p =
      .ok ()) :
    Walk.writeBehind { policy, book := b' } (settled w' p true) (w'.toBooks.settle p true).2
      (x.rename σ) p = .ok () := by
  have hσ := h.books.faithful
  have hlighter := h.lighter.settled (h.first.eq_of_id h.books.sound) p true
  have hheld := fun l => h.first.mem_heldAt_settled (p := p) (x := x) (l := l) h.books.sound
  have hheld' := fun l => h.second.mem_heldAt_settled (p := p) (x := x.rename σ) (l := l)
    h.books.sound'
  obtain ⟨hread, hempty, hall⟩ := writeBehind_eq_ok_iff.mp hwrite
  refine writeBehind_eq_ok_iff.mpr ⟨hlighter.read hσ hread, fun hnil => ?_, fun l' hl' => ?_⟩
  · -- the reference holds no loan in the first walk either
    rw [hlighter.store.ty? hσ]
    refine hempty (List.eq_nil_iff_forall_not_mem.mpr fun l hl => ?_)
    have hholds := (h.holds_eq hneed).trans (Ledger.holds_iff.mpr ⟨l, (hheld l).mp hl⟩)
    obtain ⟨l', hl'⟩ := Ledger.holds_iff.mp hholds
    rw [← hheld', hnil] at hl'
    cases hl'
  · obtain ⟨hout', hat'⟩ := (hheld' l').mp hl'
    obtain ⟨l, hl, hbacks⟩ := h.lighter.ledger l' hout'
    have hat : w.ledger.isHeldAt x.same l = true :=
      hbacks.isHeldAt (fun y hy => by rwa [Place.same_rename hσ] at hy) hat'
    obtain ⟨hexcl, hothers⟩ := hall l ((hheld l).mpr ⟨hl, hat⟩)
    refine ⟨by rw [hbacks.isExclusive, hexcl], fun other' hother' => ?_⟩
    obtain ⟨other, hother, hbacks'⟩ := hlighter.ledger.reborrows hbacks.id hother'
    exact le_trans hbacks'.lasts (hothers other hother)

/-- After an action whose target lies behind a reference the two walks are still abreast: what is
held at the reference stays there. -/
theorem Abreast.performed (h : Abreast σ q b b' s s' es op.point w w') (ht : Turn b s es op)
    (ht' : Turn b' s' es (op.rename σ)) (hact : op.action = .ok a)
    (hx : a.written? = some x) (href : x.throughRef = true) {u' : State}
    (hperf : Walk.perform { policy, book := b } w op.point a = .ok (u, a.written?))
    (hperf' : Walk.perform { policy, book := b' } w' op.point (a.rename σ) =
      .ok (u', (a.rename σ).written?)) (hlighter : Lighter σ q b b' u u') :
    Abreast σ q b b' (s.observe op) (s'.observe (op.rename σ)) es op.point u u' := by
  have hstay := Function.kind_ne_exit_of_written hact hx
  have hfirst : InStep b (s.observe op) es (op.point - 1) u := by
    have hin := h.first.perform (c := { policy, book := b }) ht hact hperf
    rwa [s.ending?_eq_none hstay, Option.toList_none, List.append_nil] at hin
  have hsecond : InStep b' (s'.observe (op.rename σ)) es (op.point - 1) u' := by
    have hstay' : (op.rename σ).kind ≠ .exit := hstay
    have hsecond : InStep b' s' es ((op.rename σ).point - 1) w' := h.second
    have hin := hsecond.perform (c := { policy, book := b' }) ht' (op.action_rename σ hact) hperf'
    rwa [s'.ending?_eq_none hstay', Option.toList_none, List.append_nil] at hin
  refine ⟨h.books, hfirst, hsecond, hlighter, h.follows.observe h.books.faithful op,
    h.sound.observe op, h.sound'.observe _, ht'.recorded, h.early, h.late, ?_⟩
  intro l hl y hy hkept
  rcases Nat.lt_or_ge l.id s.borrows.length with hid | hid
  · -- an older loan is where it was
    obtain ⟨hmem, -, hlast, hlapsed⟩ := (hfirst.mem_outstanding ht.book).mp hl
    have hold := (h.first.mem_outstanding ht.book).mpr ⟨hmem, hid, hlast, hlapsed⟩
    have hkept' := fun hmem => hkept ((evolves_perform hperf).released_subset hmem)
    rw [s.observe_eq_act hact]
    refine Survey.isSome_get?_act (h.known l hold y hy hkept') ?_ (fun z hz => ?_) ?_
    · rintro z ty rfl
      cases hx
    · rw [hx, Option.some.injEq] at hz
      exact .inl (hz ▸ href)
    · rintro rfl
      cases hx
  · rw [(InStep.get?_of_new (c := { policy, book := b }) ht hact hfirst hl hid hy).2]
    rfl

/-! ### The step -/

/-- **A step that the first walk completes the second one completes**, and it is in a lighter state
afterwards. -/
theorem Abreast.step {v : State}
    (h : Abreast σ q b b' s s' es op.point (settled w op.point false) (settled w' op.point false))
    (ht : Turn b s es op) (ht' : Turn b' s' es (op.rename σ))
    (hneed : ∀ x ∈ op.touches, ∀ y : Place, y.isPrefixOf x = true →
      s'.NeededAt b' (y.rename σ) op.point)
    (hstep : step { policy, book := b } w op = .ok v) :
    ∃ v', Walk.step { policy, book := b' } w' (op.rename σ) = .ok v' ∧ Lighter σ q b b' v v' := by
  have hσ := h.books.faithful
  obtain ⟨hret, a, u, hact, hperf, hend⟩ := step_cases hstep
  obtain ⟨u', hperf', hlighter⟩ := h.perform ht ht' hact
    (fun x hx => hneed x (Operation.mem_touches_of_reads hact hx)) hperf
  have hin := h.first.perform (c := { policy, book := b }) ht hact hperf
  have hsettled := hlighter.settled (hin.eq_of_id ht.book) op.point true
  have hret' : w'.returned = none := h.lighter.returned.trans hret
  have hact' := op.action_rename σ hact
  rcases hend with ⟨hnone, rfl⟩ | ⟨x, hx, hwrite⟩
  · refine ⟨_, step_eq_ok hret' hact' hperf' (.inl ⟨?_, rfl⟩), hsettled⟩
    rw [Action.written?_rename, hnone, Option.map_none]
  · have hx' : (a.rename σ).written? = some (x.rename σ) := by
      rw [Action.written?_rename, hx, Option.map_some]
    obtain ⟨v', hwrite', hlighter'⟩ : ∃ v', Walk.write { policy, book := b' }
        (settled u' op.point true) (u'.toBooks.settle op.point true).2 (x.rename σ) op.point =
          .ok v' ∧ Lighter σ q b b' v v' := by
      cases href : x.throughRef with
      | false =>
        exact hsettled.write hσ ((hin.settled_inclusive ht.book).eq_of_id ht.book) h.early href
          hwrite
      | true =>
        have hdone := h.performed ht ht' hact hx href hperf hperf' hlighter
        have hneed' := (hneed _ (Function.holder_mem_touches hact hx href) _
          (Place.isPrefixOf_refl _)).grows (s'.grows_observe (op.rename σ)) hdone.sound'
          ht'.recorded ht'.book
        obtain ⟨hdecl, hbehind, rfl⟩ := (write_eq_ok_iff_writeBehind href).mp hwrite
        have href' : (x.rename σ).throughRef = true := by rwa [Place.throughRef_rename hσ]
        refine ⟨_, (write_eq_ok_iff_writeBehind href').mpr ⟨?_, ?_, rfl⟩, hsettled⟩
        · rwa [hsettled.store.declares]
        · rw [Place.holder_rename hσ]
          exact hdone.writeBehind hneed' hbehind
    exact ⟨v', step_eq_ok hret' hact' hperf' (.inr ⟨_, hx', hwrite'⟩), hlighter'⟩

end Walk

end BorrowCheck
