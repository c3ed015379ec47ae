import BorrowCheck.Proofs.Omission

/-!
# Copying more

A policy may be changed so that values of more types are copied. A value that was moved out before
is then read where it is handed over, and its place keeps it. Loans are the same as before, since
they do not depend on the policy, and fewer places lack a value (`BorrowCheck.Walk.Fuller`). So one
might expect that whatever was accepted stays accepted.

It does not, for one reason. A read checks that no reference in the place is reborrowed exclusively
(`BorrowCheck.Ledger.FreeToUse`), whereas moving out a value with references in it does not look at
them. `BorrowCheck.Function.copied_rejected` has a function for each of the three ways of handing a
value over. There is no other reason: a function that is accepted stays so exactly when every value
that is now copied would have passed this check (`BorrowCheck.Function.accepted_copying_more_iff`).
-/

namespace BorrowCheck

/-! ### Policies -/

/-- The policy `c'` **copies more** than `c`, and has the same containers. -/
structure Policy.CopiesMore (c c' : Policy) : Prop where
  copyTypes : c.copyTypes ⊆ c'.copyTypes
  containerTypes : ∀ n, n ∈ c'.containerTypes ↔ n ∈ c.containerTypes

namespace Policy.CopiesMore

variable {c c' : Policy} (h : c.CopiesMore c')

include h

theorem indexes_eq (n : String) : c'.indexes n = c.indexes n := by
  rw [Bool.eq_iff_iff, Policy.indexes, Policy.indexes, List.contains_iff_mem,
    List.contains_iff_mem, h.containerTypes]

theorem copies {n : String} (hn : c.copies n = true) : c'.copies n = true :=
  List.contains_iff_mem.mpr (h.copyTypes (List.contains_iff_mem.mp hn))

/-- The type of a place does not depend on what is copied. -/
theorem tyAlong_eq (t : Ty) (ps : List Proj) :
    Store.tyAlong c' t ps = Store.tyAlong c t ps := by
  induction ps generalizing t with
  | nil => rfl
  | cons p ps ih =>
    cases p with
    | deref | field name | index value | any label =>
      simp only [Store.tyAlong, h.indexes_eq, ih]

theorem ty?_eq (s : Store) (x : Place) : s.ty? c' x = s.ty? c x := by
  simp only [Store.ty?, h.tyAlong_eq]

/-- What is copied under the first policy is copied under the second. -/
theorem store_copies {s : Store} {x : Place} (hx : s.copies c x = true) : s.copies c' x = true := by
  rw [Store.copies, h.ty?_eq]
  rw [Store.copies] at hx
  cases hty : s.ty? c x with
  | none => rw [hty] at hx; cases hx
  | some t =>
    rw [hty] at hx
    dsimp only at hx ⊢
    cases href : t.ref with
    | none =>
      rw [href] at hx
      exact h.copies hx
    | some kind =>
      rw [href] at hx
      cases kind with
      | shared => rfl
      | exclusive => cases hx

end Policy.CopiesMore

namespace Walk

variable {policy policy' : Policy} {b : LoanBook} {w w' u u' v : State} {x y : Place} {p : Point}
  {a : Action} {op : Operation}

/-! ### Two walks under two policies -/

/-- The state `w'` is **fuller** than `w`: it has the same loans, and fewer places lack a value. -/
structure Fuller (w w' : State) : Prop where
  store : w.store.Lighter id w'.store
  ledger : w'.ledger = w.ledger
  returned : w'.returned = w.returned

namespace Fuller

variable (h : Fuller w w')

include h

theorem declares (x : Place) : w'.store.declares x = w.store.declares x := by
  simpa using h.store.declares x

/-- What has its value in the first state has it in the second. -/
theorem lacking? (hx : w.store.lacking? x = none) : w'.store.lacking? x = none := by
  simpa using h.store.lacking? Proj.faithful_id hx

/-- The same loans end in both states. -/
theorem settled (p : Point) (inclusive : Bool) :
    Fuller (settled w p inclusive) (settled w' p inclusive) := by
  refine ⟨h.store.close _ _, ?_, h.returned⟩
  simp only [Walk.settled, Books.settle, Books.close, h.ledger]

/-- A read that passes in the first state passes in the second. -/
theorem read (policy' : Policy) (hread : read { policy, book := b } w x p = .ok ()) :
    Walk.read { policy := policy', book := b } w' x p = .ok () := by
  rw [read_eq_ok_iff, reborrowed?_eq_none_iff] at hread ⊢
  rw [h.declares, h.ledger]
  exact ⟨hread.1, h.lacking? hread.2.1, hread.2.2⟩

/-- A value that leaves its place in the first state can leave it in the second. -/
theorem vacate (hvac : vacate w x p = .ok u) :
    ∃ u', Walk.vacate w' x p = .ok u' ∧ Fuller u u' := by
  obtain ⟨hdecl, href, hval, hfree, rfl⟩ := vacate_eq_ok_iff.mp hvac
  refine ⟨_, vacate_eq_ok_iff.mpr ⟨(h.declares x).trans hdecl, href, h.lacking? hval, ?_, rfl⟩, ?_⟩
  · rwa [h.ledger]
  · exact ⟨by simpa using h.store.vacate Proj.faithful_id hval, h.ledger, h.returned⟩

/-- A value that only the first walk moves out. -/
theorem vacate_left (hvac : Walk.vacate w x p = .ok u) : Fuller u w' := by
  obtain ⟨-, -, hval, -, rfl⟩ := vacate_eq_ok_iff.mp hvac
  exact ⟨h.store.vacate_left hval, h.ledger, h.returned⟩

/-- What can be moved out can be read, if no reference in it is reborrowed exclusively. -/
theorem read_of_vacate (policy' : Policy) (hvac : Walk.vacate w x p = .ok u)
    (hfree : w.ledger.FreeToUse b x.holder p) :
    Walk.read { policy := policy', book := b } w' x p = .ok () := by
  obtain ⟨hdecl, href, hval, hmove, -⟩ := vacate_eq_ok_iff.mp hvac
  rw [read_eq_ok_iff, reborrowed?_eq_none_iff, h.declares, h.ledger]
  refine ⟨hdecl, ?_, ?_, hfree⟩ <;> rw [Place.holder_of_not_throughRef href]
  · exact h.lacking? hval
  · exact hmove.freeToRead

/-- The same loan is opened in both states, as both have the same loans. -/
theorem lend {y : Option Place} {kind : BorrowKind} {books : Books} {l : Loan}
    (hlend : w.toBooks.lend b y x kind p = .ok (books, l)) :
    ∃ books', w'.toBooks.lend b y x kind p = .ok (books', l) ∧
      Fuller { w with toBooks := books } { w' with toBooks := books' } := by
  obtain ⟨hdue, hexcl, rfl⟩ := Books.lend_eq_ok_iff.mp hlend
  refine ⟨_, Books.lend_eq_ok_iff.mpr ⟨by rwa [h.ledger], by rwa [h.ledger], rfl⟩, ?_, ?_,
    h.returned⟩
  · exact h.store.congr (fun _ => Store.lack?_encumber _ _) (fun _ => Store.lack?_encumber _ _)
      (by rw [Store.encumber_types, Store.encumber_types, h.store.types])
      (by rw [Store.encumber_scopes, Store.encumber_scopes, h.store.scopes])
      (Store.distinct_encumber h.store.distinct _ _)
  · exact congrArg (Ledger.record · l) h.ledger

theorem borrow (policy' : Policy) {y : Option Place} {kind : BorrowKind}
    (hborrow : borrow { policy, book := b } w y kind x p = .ok u) :
    ∃ u', Walk.borrow { policy := policy', book := b } w' y kind x p = .ok u' ∧ Fuller u u' := by
  obtain ⟨hdecl, hread, hval, books, l, hlend, rfl⟩ := borrow_eq_ok_iff.mp hborrow
  obtain ⟨books', hlend', hfuller⟩ := h.lend hlend
  exact ⟨_, borrow_eq_ok_iff.mpr ⟨(h.declares x).trans hdecl,
    fun href => h.read policy' (hread href), fun href => h.lacking? (hval href), books', l, hlend',
    rfl⟩, hfuller⟩

theorem lendAll (policy' : Policy) {loans : List Loan} {books : Books}
    (hlend : lendAll { policy, book := b } y p w.toBooks loans = .ok books) :
    ∃ books', Walk.lendAll { policy := policy', book := b } y p w'.toBooks loans = .ok books' ∧
      Fuller { w with toBooks := books } { w' with toBooks := books' } := by
  induction loans generalizing w w' with
  | nil =>
    obtain rfl := pure_eq_ok_iff.mp hlend
    exact ⟨w'.toBooks, rfl, h⟩
  | cons l loans ih =>
    obtain ⟨first, hfirst, hrest⟩ := foldlM_cons_eq_ok_iff.mp hlend
    obtain ⟨⟨_, m⟩, hm, hfirst⟩ := bind_eq_ok_iff.mp hfirst
    obtain rfl := pure_eq_ok_iff.mp hfirst
    obtain ⟨first', hm', hnext⟩ := h.lend hm
    obtain ⟨books', hrest', hfuller⟩ := ih hnext hrest
    exact ⟨books', foldlM_cons_eq_ok_iff.mpr
      ⟨first', bind_eq_ok_iff.mpr ⟨(first', m), hm', rfl⟩, hrest'⟩, hfuller⟩

/-- A write that passes in the first state passes in the second. -/
theorem write {closed : List Loan}
    (hle : policy.CopiesMore policy') (hwrite : write { policy, book := b } w closed x p = .ok u) :
    ∃ u', Walk.write { policy := policy', book := b } w' closed x p = .ok u' ∧ Fuller u u' := by
  cases href : x.throughRef with
  | false =>
    have hawaits := h.store.awaits x.base
    simp only [write_eq_ok_iff href] at hwrite ⊢
    obtain ⟨hdecl, ⟨hroot, hwaits, rfl⟩ | ⟨hnot, henclosing, hfree, rfl⟩⟩ := hwrite
    · refine ⟨_, ⟨(h.declares x).trans hdecl, .inl ⟨hroot, hawaits.mpr hwaits, rfl⟩⟩, ?_⟩
      exact ⟨by simpa using h.store.fill Proj.faithful_id,
        congrArg (Ledger.releaseUnder · x p) h.ledger, h.returned⟩
    · refine ⟨_, ⟨(h.declares x).trans hdecl, .inr ⟨by rwa [hawaits], ?_, ?_, rfl⟩⟩, ?_⟩
      · simpa using h.store.unwritable Proj.faithful_id henclosing
      · rwa [h.ledger]
      · exact ⟨by simpa using h.store.restore Proj.faithful_id,
          congrArg (Ledger.releaseUnder · x p) h.ledger, h.returned⟩
  | true =>
    simp only [write_eq_ok_iff_writeBehind href, writeBehind_eq_ok_iff] at hwrite ⊢
    obtain ⟨hdecl, ⟨hread, hempty, hall⟩, rfl⟩ := hwrite
    refine ⟨w', ⟨(h.declares x).trans hdecl, ⟨h.read policy' hread, ?_, ?_⟩, rfl⟩, h⟩
    · have hty : w'.store.ty? policy' x.holder = u.store.ty? policy x.holder := by
        rw [hle.ty?_eq]
        simpa using h.store.ty? Proj.faithful_id policy x.holder
      rwa [h.ledger, hty]
    · rwa [h.ledger]

/-- A block that can be left in the first state can be left in the second. -/
theorem exit (hexit : exit w p = .ok u) : ∃ u', Walk.exit w' p = .ok u' ∧ Fuller u u' := by
  obtain ⟨dying, scopes, hscopes, hlasts, rfl⟩ := exit_eq_ok_iff.mp hexit
  refine ⟨_, exit_eq_ok_iff.mpr ⟨dying, scopes, ?_, ?_, rfl⟩, ?_, ?_, h.returned⟩
  · rwa [h.store.scopes]
  · intro l hl z hz hkeep hdies hlocal
    rw [h.ledger] at hl
    rw [Store.isLocal, h.declares, ← Store.isLocal] at hlocal
    exact hlasts l hl z hz hkeep hdies hlocal
  · refine Store.Lighter.endStorage (Store.Lighter.close ?_ _ _) dying
    exact h.store.congr (fun _ => rfl) (fun _ => rfl) h.store.types rfl h.store.distinct
  · simp only [h.ledger]

end Fuller

/-! ### Handing a value over -/

/-- In the course of the action `a`, begun in the state `w`, the walk **hands over** the value of
`x`, in the state `u`: it moves it, returns it, or passes it as an argument after others. -/
inductive HandsOver (c : Context) (p : Point) (w : State) : Action → State → Place → Prop
  | move (y x : Place) : HandsOver c p w (.move y x) w x
  | ret (x : Place) : HandsOver c p w (.ret (some x)) w x
  | arg {before : List Arg} {u : State} (x : Place) (after : List Arg)
      (result : Option Place) : before.foldlM (passArg c p) w = .ok u →
    HandsOver c p w (.call (before ++ { place := x } :: after) result) u x

/-- If the value of `x` is copied under `policy'` and moved out under `policy`, no reference in it
is reborrowed exclusively. -/
def Spares (policy policy' : Policy) (b : LoanBook) (p : Point) (u : State) (x : Place) : Prop :=
  u.store.copies policy x = false → u.store.copies policy' x = true →
    u.ledger.FreeToUse b x.holder p

namespace Fuller

variable (h : Fuller w w') (hle : policy.CopiesMore policy')

include h hle

theorem isReference_eq (x : Place) : isReference { policy := policy', book := b } w' x =
    isReference { policy, book := b } w x := by
  have href := h.store.isReference Proj.faithful_id policy' x
  rw [Place.rename_id] at href
  rw [isReference, isReference, h.ledger, href, Store.isReference, Store.isReference, hle.ty?_eq]

theorem isExclusiveReference_eq (x : Place) :
    isExclusiveReference { policy := policy', book := b } w' x =
      isExclusiveReference { policy, book := b } w x := by
  have hty := h.store.ty? Proj.faithful_id policy' x
  rw [Place.rename_id] at hty
  rw [isExclusiveReference, isExclusiveReference, h.ledger, hty, hle.ty?_eq]

omit hle in
theorem copies_eq (x : Place) : w'.store.copies policy' x = w.store.copies policy' x := by
  simpa using h.store.copies Proj.faithful_id policy' x

/-- What leaves its place under the first policy may be copied under the second, and then it
stays. -/
theorem handOver (hover : handOver { policy, book := b } w x p = .ok u)
    (hspares : Spares policy policy' b p w x) :
    ∃ u', Walk.handOver { policy := policy', book := b } w' x p = .ok u' ∧ Fuller u u' := by
  unfold Walk.handOver at hover ⊢
  rw [h.isReference_eq hle, h.copies_eq]
  cases hheld : isReference { policy, book := b } w x || w.store.copies policy x with
  | true =>
    rw [if_pos hheld, check_bind_eq_ok_iff, pure_eq_ok_iff] at hover
    obtain ⟨hread, rfl⟩ := hover
    have hheld' : (isReference { policy, book := b } w x || w.store.copies policy' x) = true := by
      rw [Bool.or_eq_true] at hheld ⊢
      exact hheld.imp_right hle.store_copies
    rw [if_pos hheld']
    exact ⟨w', check_bind_eq_ok_iff.mpr ⟨h.read policy' hread, rfl⟩, h⟩
  | false =>
    rw [if_neg (by rw [hheld]; exact Bool.false_ne_true)] at hover
    rw [Bool.or_eq_false_iff] at hheld
    split
    next hheld' =>
      -- the value is copied now
      rw [hheld.1, Bool.false_or] at hheld'
      have hread := h.read_of_vacate policy' hover (hspares hheld.2 hheld')
      exact ⟨w', check_bind_eq_ok_iff.mpr ⟨hread, rfl⟩, h.vacate_left hover⟩
    next => exact h.vacate hover

omit hle in
theorem spares_of_handOver
    (hover : Walk.handOver { policy := policy', book := b } w' x p = .ok u') :
    Spares policy policy' b p w x := by
  intro _ hcopies
  unfold Walk.handOver at hover
  rw [h.copies_eq, hcopies, Bool.or_true, if_pos rfl, check_bind_eq_ok_iff] at hover
  rw [← h.ledger]
  exact freeToUse_of_read hover.1

theorem passArg {d : Arg} (hpass : passArg { policy, book := b } p w d = .ok u)
    (hspares : d.mode = .value → Spares policy policy' b p w d.place) :
    ∃ u', Walk.passArg { policy := policy', book := b } p w' d = .ok u' ∧ Fuller u u' := by
  rcases passArg_cases hpass with ⟨hmode, hover⟩ | ⟨kind, hmode, hborrow⟩
  · obtain ⟨u', hover', hfuller⟩ := h.handOver hle hover (hspares hmode)
    refine ⟨u', ?_, hfuller⟩
    simpa [Walk.passArg, hmode] using hover'
  · obtain ⟨u', hborrow', hfuller⟩ := h.borrow policy' hborrow
    refine ⟨u', ?_, hfuller⟩
    simpa [Walk.passArg, hmode] using hborrow'

/-- **Arguments that are passed under the first policy are passed under the second one**, as long as
those that are now copied are spared. -/
theorem passAll {args : List Arg}
    (hpass : args.foldlM (Walk.passArg { policy, book := b } p) w = .ok u)
    (hspares : ∀ before x after v, args = before ++ { place := x } :: after →
      before.foldlM (Walk.passArg { policy, book := b } p) w = .ok v →
      Spares policy policy' b p v x) :
    ∃ u', args.foldlM (Walk.passArg { policy := policy', book := b } p) w' = .ok u' ∧
      Fuller u u' := by
  induction args generalizing w w' with
  | nil =>
    obtain rfl := pure_eq_ok_iff.mp hpass
    exact ⟨w', rfl, h⟩
  | cons d args ih =>
    obtain ⟨v, hv, hrest⟩ := foldlM_cons_eq_ok_iff.mp hpass
    obtain ⟨v', hv', hnext⟩ := h.passArg hle hv fun hmode =>
      hspares [] d.place args w (by rw [← hmode, List.nil_append]) rfl
    obtain ⟨u', hu', hfuller⟩ := ih hnext hrest fun before x after t hargs ht =>
      hspares (d :: before) x after t (by rw [hargs, List.cons_append])
        (foldlM_cons_eq_ok_iff.mpr ⟨v, hv, ht⟩)
    exact ⟨u', foldlM_cons_eq_ok_iff.mpr ⟨v', hv', hu'⟩, hfuller⟩

/-- The converse: what is passed under both policies is spared. -/
theorem spares_of_passAll {before after : List Arg}
    (hpass : (before ++ { place := x } :: after).foldlM
      (Walk.passArg { policy := policy', book := b } p) w' = .ok u')
    (hv : before.foldlM (Walk.passArg { policy, book := b } p) w = .ok v) :
    Spares policy policy' b p v x := by
  induction before generalizing w w' with
  | nil =>
    obtain rfl := pure_eq_ok_iff.mp hv
    obtain ⟨v', hv', -⟩ := foldlM_cons_eq_ok_iff.mp hpass
    exact h.spares_of_handOver hv'
  | cons d before ih =>
    rw [List.cons_append] at hpass
    obtain ⟨t, ht, hv⟩ := foldlM_cons_eq_ok_iff.mp hv
    obtain ⟨t', ht', hpass⟩ := foldlM_cons_eq_ok_iff.mp hpass
    obtain ⟨s', hs', hnext⟩ := h.passArg hle ht fun hmode => by
      rw [Walk.passArg, hmode] at ht'
      exact h.spares_of_handOver ht'
    obtain rfl : t' = s' := Except.ok.inj (ht'.symm.trans hs')
    exact ih hnext hpass hv

/-- A move under the first policy may be a copy under the second. -/
theorem move (hmove : move { policy, book := b } w y x p = .ok u)
    (hspares : Spares policy policy' b p w x) :
    ∃ u', Walk.move { policy := policy', book := b } w' y x p = .ok u' ∧ Fuller u u' := by
  have hdue : dueFor { policy := policy', book := b } w' y p =
      dueFor { policy, book := b } w y p := by
    simp only [dueFor, h.ledger]
  rw [move_eq_ok_iff] at hmove
  obtain ⟨hdecl, hmove⟩ := hmove
  simp only [move_eq_ok_iff, hdue, h.isReference_eq hle, h.isExclusiveReference_eq hle,
    h.copies_eq, h.declares]
  split at hmove
  next hheld =>
    obtain ⟨hread, books, hlend, hend⟩ := hmove
    obtain ⟨books', hlend', hfuller⟩ := h.lendAll policy' hlend
    simp only [hheld, if_true]
    split at hend
    next hexcl =>
      obtain ⟨u', hvac', hfuller'⟩ := hfuller.vacate hend
      exact ⟨u', ⟨hdecl, h.read policy' hread, books', hlend', by rwa [if_pos hexcl]⟩, hfuller'⟩
    next hexcl =>
      rw [hend]
      exact ⟨_, ⟨hdecl, h.read policy' hread, books', hlend', by rw [if_neg hexcl]⟩, hfuller⟩
  next hheld =>
    simp only [hheld]
    split at hmove
    next hcopies =>
      obtain ⟨hread, rfl⟩ := hmove
      have hread' := h.read policy' hread
      exact ⟨w', ⟨hdecl, by simpa [hle.store_copies hcopies] using hread'⟩, h⟩
    next hcopies =>
      rw [Bool.not_eq_true] at hcopies
      cases hcopies' : w.store.copies policy' x with
      | true =>
        -- the value is copied now
        have hread := h.read_of_vacate policy' hmove (hspares hcopies hcopies')
        exact ⟨w', ⟨hdecl, by simpa using hread⟩, h.vacate_left hmove⟩
      | false =>
        obtain ⟨u', hvac', hfuller⟩ := h.vacate hmove
        exact ⟨u', ⟨hdecl, by simpa using hvac'⟩, hfuller⟩

omit hle in
theorem spares_of_move (hmove : Walk.move { policy := policy', book := b } w' y x p = .ok u') :
    Spares policy policy' b p w x := by
  intro _ hcopies
  rw [← h.ledger]
  rw [move_eq_ok_iff, h.copies_eq, hcopies] at hmove
  obtain ⟨-, hmove⟩ := hmove
  split at hmove
  · exact freeToUse_of_read hmove.1
  · exact freeToUse_of_read hmove.1

theorem ret (hret : ret { policy, book := b } w x p = .ok u)
    (hspares : Spares policy policy' b p w x) :
    ∃ u', Walk.ret { policy := policy', book := b } w' x p = .ok u' ∧ Fuller u u' := by
  obtain ⟨hdecl, hlocal, hover⟩ := ret_eq_ok_iff.mp hret
  obtain ⟨u', hover', hfuller⟩ := h.handOver hle hover hspares
  refine ⟨u', ret_eq_ok_iff.mpr ⟨(h.declares x).trans hdecl, ?_, hover'⟩, hfuller⟩
  intro l hl
  rw [h.ledger] at hl
  rw [Store.isLocal, h.declares, ← Store.isLocal, hlocal l hl]

/-! ### Operations -/

/-- **An action that is performed under the first policy is performed under the second one**, as
long as the values that are now copied are spared. -/
theorem perform (hperf : perform { policy, book := b } w p a = .ok (u, a.written?))
    (hspares : ∀ v x, HandsOver { policy, book := b } p w a v x → Spares policy policy' b p v x) :
    ∃ u', Walk.perform { policy := policy', book := b } w' p a = .ok (u', a.written?) ∧
      Fuller u u' := by
  cases a with
  | declare x ty =>
    obtain ⟨⟨store, hstore, rfl⟩, -⟩ := perform_cases hperf
    obtain ⟨store', hstore', hlighter⟩ := h.store.declare Proj.faithful_id hstore
    rw [Place.rename_id] at hstore'
    exact ⟨{ w' with store := store' }, bind_eq_ok_iff.mpr ⟨store', hstore', rfl⟩, hlighter,
      h.ledger, h.returned⟩
  | assign x ys =>
    obtain ⟨⟨hreads, rfl⟩, -⟩ := perform_cases hperf
    exact ⟨w', check_bind_eq_ok_iff.mpr
      ⟨forM_eq_ok_iff.mpr fun z hz => h.read policy' (hreads z hz), rfl⟩, h⟩
  | move y x =>
    obtain ⟨u', hmove', hfuller⟩ := h.move hle (perform_cases hperf).1 (hspares w x (.move y x))
    exact ⟨u', bind_eq_ok_iff.mpr ⟨u', hmove', rfl⟩, hfuller⟩
  | borrow kind y x =>
    obtain ⟨⟨hdecl, hborrow⟩, -⟩ := perform_cases hperf
    obtain ⟨u', hborrow', hfuller⟩ := h.borrow policy' hborrow
    exact ⟨u', check_bind_eq_ok_iff.mpr
      ⟨Store.ensureInScope_eq_ok_iff.mpr ((h.declares y).trans hdecl),
        bind_eq_ok_iff.mpr ⟨u', hborrow', rfl⟩⟩, hfuller⟩
  | deref x =>
    obtain ⟨⟨hfollow, rfl⟩, -⟩ := perform_cases hperf
    obtain ⟨hread, href⟩ := follow_eq_ok_iff.mp hfollow
    refine ⟨w', check_bind_eq_ok_iff.mpr ⟨follow_eq_ok_iff.mpr ⟨h.read policy' hread, ?_⟩, rfl⟩, h⟩
    rw [h.isReference_eq hle, href]
  | use x =>
    obtain ⟨⟨hread, rfl⟩, -⟩ := perform_cases hperf
    exact ⟨w', check_bind_eq_ok_iff.mpr ⟨h.read policy' hread, rfl⟩, h⟩
  | call args result =>
    obtain ⟨hdecl, hpass⟩ := perform_call_eq_ok_iff.mp hperf
    obtain ⟨u', hpass', hfuller⟩ := h.passAll hle hpass fun before x after v hargs hv => by
      subst hargs
      exact hspares v x (.arg x after result hv)
    exact ⟨u', perform_call_eq_ok_iff.mpr
      ⟨fun y hy => (h.declares y).trans (hdecl y hy), hpass'⟩, hfuller⟩
  | ret x =>
    cases x with
    | none =>
      obtain ⟨rfl, -⟩ := perform_cases hperf
      exact ⟨{ w' with returned := some p }, rfl, h.store, h.ledger, rfl⟩
    | some x =>
      obtain ⟨⟨v, hret, rfl⟩, -⟩ := perform_cases hperf
      obtain ⟨v', hret', hfuller⟩ := h.ret hle hret (hspares w x (.ret x))
      exact ⟨{ v' with returned := some p }, bind_eq_ok_iff.mpr ⟨v', hret', rfl⟩, hfuller.store,
        hfuller.ledger, rfl⟩
  | enter =>
    obtain ⟨rfl, -⟩ := perform_cases hperf
    exact ⟨_, rfl, h.store.enter, h.ledger, h.returned⟩
  | exit =>
    obtain ⟨u', hexit', hfuller⟩ := h.exit (perform_cases hperf).1
    exact ⟨u', bind_eq_ok_iff.mpr ⟨u', hexit', rfl⟩, hfuller⟩

/-- The converse: what is handed over under both policies is spared. -/
theorem spares_of_perform
    (hperf : Walk.perform { policy := policy', book := b } w' p a = .ok (u', a.written?))
    (hover : HandsOver { policy, book := b } p w a v x) : Spares policy policy' b p v x := by
  cases hover with
  | move y => exact h.spares_of_move (perform_cases hperf).1
  | ret =>
    obtain ⟨⟨t, hret, -⟩, -⟩ := perform_cases hperf
    exact h.spares_of_handOver (ret_eq_ok_iff.mp hret).2.2
  | arg x after result hv =>
    exact h.spares_of_passAll hle (perform_call_eq_ok_iff.mp hperf).2 hv

/-- **The step**: what is completed under the first policy is completed under the second one exactly
when the values that are now copied are spared. -/
theorem step (hstep : step { policy, book := b } w op = .ok v) (hact : op.action = .ok a)
    (hspares : ∀ t x, HandsOver { policy, book := b } op.point (Walk.settled w op.point false) a t
      x → Spares policy policy' b op.point t x) :
    ∃ v', Walk.step { policy := policy', book := b } w' op = .ok v' ∧ Fuller v v' := by
  obtain ⟨hret, a', u, hact', hperf, hend⟩ := step_cases hstep
  obtain rfl : a = a' := Except.ok.inj (hact.symm.trans hact')
  obtain ⟨u', hperf', hfuller⟩ := (h.settled op.point false).perform hle hperf hspares
  have hsettled := hfuller.settled op.point true
  have hret' : w'.returned = none := h.returned.trans hret
  rcases hend with ⟨hnone, rfl⟩ | ⟨x, hx, hwrite⟩
  · exact ⟨_, step_eq_ok hret' hact hperf' (.inl ⟨hnone, rfl⟩), hsettled⟩
  · obtain ⟨v', hwrite', hdone⟩ := hsettled.write hle hwrite
    have hclosed : (u'.toBooks.settle op.point true).2 = (u.toBooks.settle op.point true).2 := by
      simp only [Books.settle, hfuller.ledger]
    exact ⟨v', step_eq_ok hret' hact hperf' (.inr ⟨x, hx, by rwa [hclosed]⟩), hdone⟩

theorem spares_of_step (hstep : Walk.step { policy := policy', book := b } w' op = .ok u')
    (hact : op.action = .ok a)
    (hover : HandsOver { policy, book := b } op.point (Walk.settled w op.point false) a v x) :
    Spares policy policy' b op.point v x := by
  obtain ⟨-, a', t', hact', hperf', -⟩ := step_cases hstep
  obtain rfl : a = a' := Except.ok.inj (hact.symm.trans hact')
  exact (h.settled op.point false).spares_of_perform hle hperf' hover

end Fuller

end Walk

/-! ### The run -/

namespace Function

variable {f : Function} {policy policy' : Policy} {pre post : List Operation} {w w' : Walk.State}

/-- Wherever the walk through `f` under `policy` comes to hand over a value that `policy'` copies
and `policy` does not, **no reference in it is reborrowed exclusively**. -/
def SparesCopied (f : Function) (policy policy' : Policy) : Prop :=
  ∀ pre op post w a, f.ops = pre ++ op :: post → f.reach policy pre = .ok w → op.action = .ok a →
    ∀ u x, Walk.HandsOver (f.context policy) op.point (Walk.settled w op.point false) a u x →
      Walk.Spares policy policy' f.book op.point u x

theorem fuller_refl (hdistinct : w.store.cells.Distinct) : Walk.Fuller w w :=
  ⟨⟨rfl, rfl, hdistinct, fun z _ hz => ⟨z, by simp, hz⟩, fun _ => Iff.rfl⟩, rfl, rfl⟩

/-- **The walk under the second policy gets as far as the one under the first policy.** -/
theorem exists_reach_copying_more (hle : policy.CopiesMore policy')
    (hspares : f.SparesCopied policy policy') (hops : f.ops = pre ++ post)
    (hreach : f.reach policy pre = .ok w) :
    ∃ w', f.reach policy' pre = .ok w' ∧ Walk.Fuller w w' := by
  refine reach_induction (P := fun pre w => ∃ w', f.reach policy' pre = .ok w' ∧
    Walk.Fuller w w') (fun store hstore => ?_) (fun pre op post w v hops hw ih hstep => ?_) hops
    hreach
  · obtain ⟨-, hdistinct⟩ :=
      Store.lack?_of_declareAll (s := {}) (fun _ => rfl) List.Pairwise.nil hstore
    exact ⟨f.start store, bind_eq_ok_iff.mpr ⟨store, hstore, rfl⟩, fuller_refl hdistinct⟩
  · obtain ⟨w', hw', hfuller⟩ := ih
    obtain ⟨-, a, u, hact, -⟩ := Walk.step_cases hstep
    obtain ⟨v', hstep', hnext⟩ :=
      hfuller.step hle hstep hact (hspares pre op post w a hops hw hact)
    exact ⟨v', reach_concat_eq_ok_iff.mpr ⟨w', hw', hstep'⟩, hnext⟩

/-- As long as both walks go on, the second one is in a fuller state, and what is copied was
spared. -/
theorem fuller_of_reach (hle : policy.CopiesMore policy') (hops : f.ops = pre ++ post)
    (hreach : f.reach policy pre = .ok w) (hreach' : f.reach policy' pre = .ok w') :
    Walk.Fuller w w' := by
  refine reach_induction (P := fun pre w => ∀ w', f.reach policy' pre = .ok w' →
    Walk.Fuller w w') (fun store hstore w' hw' => ?_)
    (fun pre op post w v hops hw ih hstep v' hv' => ?_) hops hreach w' hreach'
  · obtain ⟨-, hdistinct⟩ :=
      Store.lack?_of_declareAll (s := {}) (fun _ => rfl) List.Pairwise.nil hstore
    obtain ⟨store', hstore', hw'⟩ := bind_eq_ok_iff.mp hw'
    obtain rfl := pure_eq_ok_iff.mp hw'
    obtain rfl : store = store' := Except.ok.inj (hstore.symm.trans hstore')
    exact fuller_refl hdistinct
  · obtain ⟨w', hw', hstep'⟩ := reach_concat_eq_ok_iff.mp hv'
    obtain ⟨-, a, u, hact, -⟩ := Walk.step_cases hstep
    obtain ⟨t', ht', hnext⟩ := (ih w' hw').step hle hstep hact fun t x hover =>
      (ih w' hw').spares_of_step hle hstep' hact hover
    obtain rfl : v' = t' := Except.ok.inj (hstep'.symm.trans ht')
    exact hnext

/-- **Copying more**: a function that is accepted stays accepted when values of more types are
copied, exactly when no reference in a value that is now copied where it was moved out is reborrowed
exclusively. -/
theorem accepted_copying_more_iff (hle : policy.CopiesMore policy') (h : f.Accepted policy) :
    f.Accepted policy' ↔ f.SparesCopied policy policy' := by
  obtain ⟨hdis, t, ht⟩ := accepted_iff.mp h
  constructor
  · intro h' pre op post w a hops hw hact u x hover
    obtain ⟨w', v', hw', hstep', -⟩ := h'.step hops
    exact (fuller_of_reach hle hops hw hw').spares_of_step hle hstep' hact hover
  · intro hspares
    obtain ⟨t', ht', -⟩ :=
      exists_reach_copying_more hle hspares (List.append_nil f.ops).symm ht
    exact accepted_iff.mpr ⟨hdis, t', ht'⟩

/-- The policy that copies values of type `T` as well. -/
def copyingT (policy : Policy) : Policy :=
  { policy with copyTypes := "T" :: policy.copyTypes }

theorem copiesMore_copyingT (policy : Policy) : policy.CopiesMore (copyingT policy) :=
  ⟨List.subset_cons_self _ _, fun _ => Iff.rfl⟩

/-- A function that stores an exclusive reference to `s` in `x`, reborrows it for `q`, and goes on
with `ops`. -/
def lendsInside (ops : List Operation) : Function where
  name := "f"
  params := [{ name := "x", ty := .named "T" }, { name := "s", ty := .named "S" }]
  ops :=
    [.borrow 1 .exclusive (Place.field { base := "x" } "r") { base := "s" },
      .declare 2 { base := "q" } (.named "R"),
      .borrow 3 .exclusive { base := "q" } (Place.field { base := "x" } "r").deref,
      .declare 4 { base := "t" } (.named "T")] ++ ops

/-- The function that moves `x` after the last use of `q`. -/
def movesUnlent : Function :=
  lendsInside [.use 5 { base := "q" }, .move 6 { base := "t" } { base := "x" }]

/-- What can be moved once `q` is no longer needed can be copied then. -/
theorem accepted_copying_more_iff_movesUnlent :
    Policy.CopiesMore {} (copyingT {}) ∧ movesUnlent.Accepted {} ∧
      movesUnlent.SparesCopied {} (copyingT {}) ∧ movesUnlent.Accepted (copyingT {}) := by
  have haccepted : movesUnlent.Accepted {} := by decide +kernel
  have hcopied : movesUnlent.Accepted (copyingT {}) := by decide +kernel
  exact ⟨copiesMore_copyingT {}, haccepted,
    (accepted_copying_more_iff (copiesMore_copyingT {}) haccepted).mp hcopied, hcopied⟩

/-- The function that moves `x` while `q` is needed. -/
def movesReborrowed : Function :=
  lendsInside [.move 5 { base := "t" } { base := "x" }, .use 6 { base := "q" }]

/-- The function that passes `x` together with a reborrow of the reference in it. -/
def passesReborrowed : Function :=
  lendsInside [.call 5 "g" [⟨(Place.field { base := "x" } "r").deref, .lend .exclusive⟩,
    ⟨{ base := "x" }, .value⟩] none]

/-- A function that stores a reborrow of its parameter `s` in `x.r` and a reborrow of that one in
`x.q`, and returns `x`. -/
def returnsReborrowed : Function where
  name := "f"
  params := [{ name := "x", ty := .named "T" },
    { name := "s", ty := .refTo .exclusive (.named "S") }]
  ops :=
    [.borrow 1 .exclusive (Place.field { base := "x" } "r") (Place.deref { base := "s" }),
      .borrow 2 .exclusive (Place.field { base := "x" } "q")
        (Place.field { base := "x" } "r").deref,
      .ret 3 (some { base := "x" })]

/-- **Copying more can make a function rejected**: while a reference in a value is reborrowed
exclusively, the value can be moved, passed and returned, but not copied. -/
theorem copied_rejected :
    Policy.CopiesMore {} (copyingT {}) ∧
      (movesReborrowed.Accepted {} ∧ ¬movesReborrowed.Accepted (copyingT {})) ∧
      (passesReborrowed.Accepted {} ∧ ¬passesReborrowed.Accepted (copyingT {})) ∧
      returnsReborrowed.Accepted {} ∧ ¬returnsReborrowed.Accepted (copyingT {}) :=
  ⟨copiesMore_copyingT {}, ⟨by decide +kernel, by decide +kernel⟩,
    ⟨by decide +kernel, by decide +kernel⟩, by decide +kernel, by decide +kernel⟩

end Function

end BorrowCheck
