import BorrowCheck.Proofs.Beside
import BorrowCheck.Proofs.History
import BorrowCheck.Proofs.Rejected

/-!
# Findings tell the truth

A finding names the operation that broke a rule, and often more: a loan in the way, or the move that
took a value. This file shows that what it names is there. The loan is one of the book and is live
at the point of the operation, and the move took just the place that the finding says, which was not
written since and which the place in question reaches
(`BorrowCheck.Function.finding_tells_truth`).

Findings come from many checks. Each is judged together with its result: a check **warrants** `P`
and `Q` (`BorrowCheck.Warrants`) when what it stops for satisfies `P` and what it results in
satisfies `Q`. Here `P` is that the violation is justified (`BorrowCheck.Violation.Justified`), and
`Q` that the state is a sound basis for the next check (`BorrowCheck.Walk.Vouches`): its outstanding
loans are live, and what it holds to be moved out was moved out. So there is one lemma for every
function of the walk.
-/

namespace BorrowCheck

/-! ### Checks and what they warrant -/

/-- A check **warrants** `P` and `Q`: what it stops for satisfies `P`, and what it results in
satisfies `Q`. -/
def Warrants {ε α : Type} (P : ε → Prop) (Q : α → Prop) : Except ε α → Prop
  | .ok a => Q a
  | .error e => P e

namespace Warrants

variable {ε α β : Type} {P : ε → Prop} {Q Q' : α → Prop} {R : β → Prop} {x : Except ε α}

theorem of_ok (h : Warrants P Q x) {a : α} (ha : x = .ok a) : Q a := by
  rwa [ha] at h

theorem of_error (h : Warrants P Q x) {e : ε} (he : x = .error e) : P e := by
  rwa [he] at h

theorem imp (h : Warrants P Q x) (hQ : ∀ a, Q a → Q' a) : Warrants P Q' x := by
  cases x with
  | error e => exact h
  | ok a => exact hQ a h

/-- What a check results in is looked at apart from what it stops for. -/
theorem of_checks (h : Warrants P (fun _ => True) x) (hok : ∀ a, x = .ok a → Q a) :
    Warrants P Q x := by
  cases x with
  | error e => exact h
  | ok a => exact hok a rfl

/-- Checks in a row warrant what the last one does, when each is right about what it stops for. -/
theorem bind {g : α → Except ε β} (h : Warrants P Q x)
    (hg : ∀ a, x = .ok a → Q a → Warrants P R (g a)) : Warrants P R (x >>= g) := by
  cases x with
  | error e => exact h
  | ok a => exact hg a rfl h

theorem forM {check : β → Except ε Unit} {as : List β}
    (h : ∀ a ∈ as, Warrants P (fun _ => True) (check a)) :
    Warrants P (fun _ => True) (as.forM check) := by
  induction as with
  | nil => exact trivial
  | cons a as ih =>
    rw [List.forall_mem_cons] at h
    exact h.1.bind fun _ _ _ => ih h.2

/-- A run keeps what each of its steps keeps, in the state that the steps before it lead to. -/
theorem foldlM {run : α → β → Except ε α} {as : List β} {s : α} (hs : Q s)
    (h : ∀ done b rest t, as = done ++ b :: rest → done.foldlM run s = .ok t → Q t →
      Warrants P Q (run t b)) : Warrants P Q (as.foldlM run s) := by
  induction as generalizing s with
  | nil => exact hs
  | cons b as ih =>
    rw [List.foldlM_cons]
    refine (h [] b as s rfl rfl hs).bind fun t ht hQ => ih hQ ?_
    intro done d rest u hsplit hrun hu
    refine h (b :: done) d rest u (by rw [hsplit, List.cons_append]) ?_ hu
    exact foldlM_cons_eq_ok_iff.mpr ⟨t, ht, hrun⟩

end Warrants

/-! ### Violations that are justified -/

/-- The violation `v`, met at `p`, is **justified**: the loan that it names is one of the book and
is live at `p`, and the place that it names as moved out was moved out by one of `M`, whose point it
names too, and the place in question reaches it. -/
structure Violation.Justified (b : LoanBook) (p : Point) (M : Point → Place → Prop)
    (v : Violation) : Prop where
  lien : ∀ l, v.lien = some l → ∃ loan ∈ b.loans, loan.toLien = l ∧ loan.covers p = true
  moved : ∀ y, v.movedPlace = some y → ∃ q, v.movePoint = some q ∧ M q y ∧
    ∃ x, v.place = some x ∧ x.reaches y = true

/-- A check that stops for a violation is right to do so. -/
def Fault.Justified (b : LoanBook) (p : Point) (M : Point → Place → Prop) : Fault → Prop
  | .violation v => v.Justified b p M
  | .unrecorded _ _ => True

section Justified

variable {b : LoanBook} {p : Point} {M : Point → Place → Prop}

/-- A violation that names neither a loan nor a move claims nothing about them. -/
theorem Violation.justified_of_bare {v : Violation} (hlien : v.lien = none)
    (hmoved : v.movedPlace = none) : v.Justified b p M where
  lien l hl := by
    rw [hlien] at hl
    cases hl
  moved y hy := by
    rw [hmoved] at hy
    cases hy

/-- A violation that names the point of a move names the place that was moved out. -/
theorem Violation.exists_movedPlace {v : Violation} {q : Point} (h : v.movePoint = some q) :
    ∃ y, v.movedPlace = some y := by
  cases v with
  | movedOut _ _ y => exact ⟨y, rfl⟩
  | _ => cases h

/-- A violation that names a loan that is live. -/
theorem Violation.justified_of_lien {v : Violation} {loan : Loan}
    (h : loan ∈ b.loans ∧ loan.covers p = true) (hlien : v.lien = some loan.toLien)
    (hmoved : v.movedPlace = none) : v.Justified b p M where
  lien l hl := ⟨loan, h.1, Option.some.inj (hlien.symm.trans hl), h.2⟩
  moved y hy := by
    rw [hmoved] at hy
    cases hy

theorem warrants_refuse {v : Option Violation} (h : ∀ v', v = some v' → v'.Justified b p M) :
    Warrants (Fault.Justified b p M) (fun _ => True) (refuse v) := by
  cases v with
  | none => exact trivial
  | some v => exact h v rfl

theorem warrants_refuseFlaw {α : Type} {Q : α → Prop} (flaw : Flaw) :
    Warrants (Fault.Justified b p M) Q (refuseFlaw flaw) :=
  Violation.justified_of_bare rfl rfl

theorem warrants_ensureInScope (s : Store) (x : Place) :
    Warrants (Fault.Justified b p M) (fun _ => True) (s.ensureInScope x) := by
  unfold Store.ensureInScope
  split
  · exact trivial
  · exact warrants_refuseFlaw _

end Justified

/-! ### States that vouch for what they hold -/

namespace Walk

/-- The state `w` **vouches** for what it holds at `p`: its outstanding loans are loans of the book
that are live, and the places that it holds to be moved out were moved out as `M` says, at the
points that it has noted. -/
structure Vouches (b : LoanBook) (p : Point) (M : Point → Place → Prop) (w : State) : Prop where
  live : ∀ l ∈ w.ledger.outstanding, l ∈ b.loans ∧ l.covers p = true
  orderly : w.store.Orderly
  moved : ∀ q y, w.store.lack? y = some (.moved q) → ∃ r ∈ q, M r y

variable {c : Context} {b : LoanBook} {p : Point} {M : Point → Place → Prop} {w u : State}
  {x y : Place}

/-! ### Changes of a state -/

/-- A state that holds no loans and lacks no values besides those of one that vouches. -/
theorem Vouches.of_le (h : Vouches b p M w) (hout : u.ledger.outstanding ⊆ w.ledger.outstanding)
    (hd : u.store.cells.Distinct)
    (hle : ∀ y o, u.store.lack? y = some o → w.store.lack? y = some o ∧ u.store.declares y = true) :
    Vouches b p M u where
  live l hl := h.live l (hout hl)
  orderly := h.orderly.of_le hd hle
  moved q y hy := h.moved q y (hle y _ hy).1

theorem distinct_close {s : Books} {loans : List Loan} (h : s.store.cells.Distinct) :
    (s.close loans).store.cells.Distinct :=
  Books.close_induction s loans (fun t => t.cells.Distinct) h fun _ loan ht =>
    Store.distinct_discharge ht loan.id

theorem Vouches.after_close (h : Vouches b p M w) (loans : List Loan) :
    Vouches b p M { w with toBooks := w.toBooks.close loans } := by
  refine h.of_le (List.filter_subset_self w.ledger.outstanding)
    (distinct_close h.orderly.distinct) fun y o hy => ?_
  rw [Store.lack?_close] at hy
  exact ⟨hy, (Store.declares_of_types (Books.close_types _ _)).trans (h.orderly.declared hy)⟩

theorem Vouches.after_settled (h : Vouches b p M w) (inclusive : Bool) :
    Vouches b p M (settled w p inclusive) :=
  h.after_close _

/-- A loan that is due at `p` is live there. -/
theorem live_of_due? {l : Ledger} {borrower : Option Place} {kind : BorrowKind} {loan : Loan}
    (hb : b.Sound) (h : l.due? b borrower x kind p = some loan) :
    loan ∈ b.loans ∧ loan.covers p = true := by
  have htaken := (List.mem_filter.mp (List.mem_of_find?_eq_some h)).1
  obtain ⟨hmem, horigin⟩ := List.mem_filter.mp htaken
  rw [decide_eq_true_eq] at horigin
  have hlast := hb.origin_le_last loan hmem
  rw [horigin] at hlast
  exact ⟨hmem, by simp [Loan.covers, horigin, hlast]⟩

theorem Vouches.after_lend (h : Vouches b p M w) (hb : b.Sound) {borrower : Option Place}
    {kind : BorrowKind} {books : Books} {loan : Loan}
    (hlend : w.toBooks.lend b borrower x kind p = .ok (books, loan)) :
    Vouches b p M { w with toBooks := books } := by
  obtain ⟨hdue, -, rfl⟩ := Books.lend_eq_ok_iff.mp hlend
  refine ⟨fun l hl => ?_, h.orderly.of_le (Store.distinct_encumber h.orderly.distinct _ _) ?_, ?_⟩
  · rcases List.mem_append.mp hl with hl | hl
    · exact h.live l hl
    · rw [List.mem_singleton.mp hl]
      exact live_of_due? hb hdue
  · intro y o hy
    rw [Store.lack?_encumber] at hy
    exact ⟨hy, (Store.declares_of_types (Store.encumber_types _ _)).trans (h.orderly.declared hy)⟩
  · intro q y hy
    rw [Store.lack?_encumber] at hy
    exact h.moved q y hy

/-- A value that is moved out at `p`, as `M` says. -/
theorem Vouches.after_vacate (h : Vouches b p M w) (hM : ∀ y, x.same y = true → M p y)
    (hvac : vacate w x p = .ok u) : Vouches b p M u := by
  obtain ⟨hdecl, -, hval, -, rfl⟩ := vacate_eq_ok_iff.mp hvac
  have hstore : w.store.vacate x p [] = .ok (w.store.drain x p) :=
    Store.vacate_eq_ok_iff.mpr ⟨hval, rfl, rfl⟩
  refine ⟨h.live, h.orderly.vacate hdecl hstore, fun q y hy => ?_⟩
  rw [Store.lack?_drain] at hy
  split at hy
  next hsame =>
    obtain rfl : some p = q := by simpa using hy
    exact ⟨p, rfl, hM y hsame⟩
  next => exact h.moved q y hy

theorem Vouches.after_declare (h : Vouches b p M w) {ty : Ty} {store : Store}
    (hdecl : w.store.declare x ty false = .ok store) : Vouches b p M { w with store } := by
  refine ⟨h.live, h.orderly.declare hdecl, fun q y hy => ?_⟩
  rw [Store.lack?_declare hdecl] at hy
  split at hy
  · cases hy
  · exact h.moved q y hy

theorem Vouches.after_exit (h : Vouches b p M w) (hexit : exit w p = .ok u) : Vouches b p M u := by
  obtain ⟨dying, scopes, -, -, rfl⟩ := exit_cases hexit
  refine h.of_le (List.filter_subset_self w.ledger.outstanding)
    ((distinct_close (s := { w.toBooks with store := { w.store with scopes } })
      h.orderly.distinct).keepKeys _) fun y o hy => ?_
  rw [Store.lack?_endStorage] at hy
  split at hy
  next => cases hy
  next hkept =>
    rw [Books.settleIn, Store.lack?_close] at hy
    refine ⟨hy, Store.declares_endStorage.mpr ⟨?_, hkept⟩⟩
    exact (Store.declares_of_types (Books.close_types _ _)).trans (h.orderly.declared hy)

/-- What a write leaves moved out lies outside of what is written. -/
theorem Vouches.after_write {closed : List Loan} (h : Vouches b p M w)
    (hwrite : write c w closed x p = .ok u) :
    Vouches b p (fun q y => M q y ∧ (x.throughRef = false → x.isPrefixOf y = false)) u := by
  rcases (write_cases hwrite).2 with ⟨href, -, rfl⟩ | ⟨-, store, hstore, rfl⟩
  · refine ⟨h.live, h.orderly, fun q y hy => ?_⟩
    obtain ⟨r, hr, hM⟩ := h.moved q y hy
    refine ⟨r, hr, hM, fun hno => ?_⟩
    rw [href] at hno
    cases hno
  · rcases hstore with ⟨hroot, -, hfill⟩ | ⟨-, rfl⟩
    · -- nothing was moved out of a variable that waits for its first value
      have hwait := Store.awaits_iff_lack?.mp (Store.awaits_of_fill hroot hfill)
      obtain ⟨-, rfl⟩ := Store.fill_eq_ok_iff.mp hfill
      have hle : ∀ y o, (w.store.own x .owned).lack? y = some o → w.store.lack? y = some o := by
        intro y o hy
        rw [Store.lack?_own_owned] at hy
        split at hy
        · cases hy
        · exact hy
      refine ⟨h.live, h.orderly.of_le (Store.distinct_own h.orderly.distinct _) fun y o hy =>
        ⟨hle y o hy, h.orderly.declared (hle y o hy)⟩, fun q y hy => ?_⟩
      obtain ⟨r, hr, hM⟩ := h.moved q y (hle y _ hy)
      refine ⟨r, hr, hM, fun _ => ?_⟩
      rw [Bool.eq_false_iff]
      intro hunder
      exact h.orderly.apart hwait (hle y _ hy) (Place.isPrefixOf_iff.mp hunder).1.symm
    · have hle : ∀ y o, (w.store.restore x).lack? y = some o →
          w.store.lack? y = some o ∧ x.isPrefixOf y = false := by
        intro y o hy
        rw [Store.lack?_restore] at hy
        split at hy
        next => cases hy
        next hunder => exact ⟨hy, Bool.eq_false_iff.mpr hunder⟩
      refine ⟨h.live, h.orderly.of_le (Store.distinct_restore h.orderly.distinct) fun y o hy =>
        ⟨(hle y o hy).1, h.orderly.declared (hle y o hy).1⟩, fun q y hy => ?_⟩
      obtain ⟨r, hr, hM⟩ := h.moved q y (hle y _ hy).1
      exact ⟨r, hr, hM, fun _ => (hle y _ hy).2⟩

/-! ### Checks of a state that vouches -/

/-- **A missing value is blamed on a move that there was.** -/
theorem Vouches.justified_of_lacking? (h : Vouches b p M w) {v : Violation}
    (hlack : w.store.lacking? x = some v) : v.Justified b p M := by
  rcases Store.cases_of_lacking? h.orderly.distinct hlack with ⟨rfl, -⟩ | ⟨y, q, rfl, hreach, hy⟩
  · exact Violation.justified_of_bare rfl rfl
  · refine ⟨fun l hl => (by cases hl), fun y' heq => ?_⟩
    obtain rfl := Option.some.inj heq
    obtain ⟨r, hr, hM⟩ := h.moved q y hy
    exact ⟨r, hr, hM, x, rfl, hreach⟩

theorem Vouches.warrants_ensureValue (h : Vouches b p M w) (x : Place) :
    Warrants (Fault.Justified b p M) (fun _ => True) (w.store.ensureValue x) :=
  warrants_refuse fun _ => h.justified_of_lacking?

/-- A lien on a place is that of an outstanding loan. -/
theorem Vouches.live_of_mem_liensOn (h : Vouches b p M w) {strict : Bool} {l : Lien}
    (hl : l ∈ liensOn w x p strict) :
    ∃ loan, (loan ∈ b.loans ∧ loan.covers p = true) ∧ loan.toLien = l := by
  obtain ⟨loan, hloan, rfl⟩ := List.mem_map.mp hl
  exact ⟨loan, h.live loan (Ledger.mem_overlapping.mp hloan).1, rfl⟩

/-- A place is free as far as it is not lent exclusively. -/
theorem Vouches.warrants_unlent (h : Vouches b p M w) (x : Place) :
    Warrants (Fault.Justified b p M) (fun _ => True) (w.store.read x (liensOn w x p false)) := by
  refine (h.warrants_ensureValue x).bind fun _ _ _ => warrants_refuse fun v hv => ?_
  obtain ⟨l, hfind, rfl⟩ := Option.map_eq_some_iff.mp hv
  obtain ⟨loan, hlive, rfl⟩ := h.live_of_mem_liensOn (List.mem_of_find?_eq_some hfind)
  exact Violation.justified_of_lien hlive rfl rfl

theorem Vouches.warrants_read (h : Vouches b p M w) (x : Place) :
    Warrants (Fault.Justified b p M) (fun _ => True) (read c w x p) := by
  refine (warrants_ensureInScope w.store x).bind fun _ _ _ => ?_
  refine (h.warrants_unlent x.holder).bind fun _ _ _ => warrants_refuse fun v hv => ?_
  obtain ⟨other, hfind, rfl⟩ := Option.map_eq_some_iff.mp hv
  obtain ⟨loan, -, hother⟩ := List.mem_flatMap.mp (List.mem_of_find?_eq_some hfind)
  exact Violation.justified_of_lien (h.live other (List.mem_filter.mp hother).1) rfl rfl

theorem Vouches.warrants_vacate (h : Vouches b p M w) (x : Place) :
    Warrants (Fault.Justified b p M) (fun _ => True) (vacate w x p) := by
  have hmove : Warrants (Fault.Justified b p M) (fun _ => True)
      (w.store.vacate x p (liensOn w x p false)) := by
    refine (h.warrants_ensureValue x).bind fun _ _ _ => ?_
    refine (warrants_refuse fun v hv => ?_).bind fun _ _ _ => trivial
    obtain ⟨l, hhead, rfl⟩ := Option.map_eq_some_iff.mp hv
    obtain ⟨loan, hlive, rfl⟩ := h.live_of_mem_liensOn (List.mem_of_head? hhead)
    exact Violation.justified_of_lien hlive rfl rfl
  refine (warrants_ensureInScope w.store x).bind fun _ _ _ => ?_
  dsimp only
  split
  · exact Violation.justified_of_bare rfl rfl
  · exact hmove.bind fun _ _ _ => trivial

/-- Handing a value on keeps a state that vouches, when `M` says what is moved out. -/
theorem Vouches.warrants_handOver (h : Vouches b p M w)
    (hM : ∀ t, vacate w x p = .ok t → handOver c w x p = .ok t → ∀ y, x.same y = true → M p y) :
    Warrants (Fault.Justified b p M) (Vouches b p M) (handOver c w x p) := by
  refine Warrants.of_checks ?_ fun t ht => ?_
  · unfold handOver
    split
    · exact (h.warrants_read x).bind fun _ _ _ => trivial
    · exact h.warrants_vacate x
  · rcases handOver_cases ht with ⟨-, rfl⟩ | hvac
    · exact h
    · exact h.after_vacate (hM t hvac ht) hvac

/-- A loan is refused because of one that is live, and one that is opened is live. -/
theorem Vouches.warrants_lend (h : Vouches b p M w) (hb : b.Sound) {borrower : Option Place}
    {kind : BorrowKind} :
    Warrants (Fault.Justified b p M) (fun r => Vouches b p M { w with toBooks := r.1 })
      (w.toBooks.lend b borrower x kind p) := by
  refine Warrants.of_checks ?_ fun r hr => h.after_lend hb hr
  unfold Books.lend
  split
  next => exact trivial
  next loan _ =>
    split
    next other hother =>
      exact Violation.justified_of_lien (h.live other (List.mem_of_find?_eq_some hother)) rfl rfl
    next => exact trivial

theorem Vouches.warrants_borrow (h : Vouches c.book p M w) (hb : c.book.Sound)
    {borrower : Option Place} {kind : BorrowKind} :
    Warrants (Fault.Justified c.book p M) (Vouches c.book p M)
      (borrow c w borrower kind x p) := by
  have hlend : Warrants (Fault.Justified c.book p M) (Vouches c.book p M) (do
      let r ← w.toBooks.lend c.book borrower x kind p
      return { w with toBooks := r.1 }) :=
    (h.warrants_lend hb).bind fun _ _ hr => hr
  refine (warrants_ensureInScope w.store x).bind fun _ _ _ => ?_
  dsimp only
  split
  · exact (h.warrants_read x.holder).bind fun _ _ _ => hlend
  · exact (h.warrants_ensureValue x).bind fun _ _ _ => hlend

/-- Passing an argument keeps a state that vouches, when `M` says what is moved out. -/
theorem Vouches.warrants_passArg (h : Vouches c.book p M w) (hb : c.book.Sound) {d : Arg}
    (hM : ∀ t, d.mode = .value → vacate w d.place p = .ok t → passArg c p w d = .ok t →
      ∀ y, d.place.same y = true → M p y) :
    Warrants (Fault.Justified c.book p M) (Vouches c.book p M) (passArg c p w d) := by
  unfold passArg at hM ⊢
  split
  next hmode =>
    simp only [hmode, true_imp_iff] at hM
    exact h.warrants_handOver hM
  next => exact h.warrants_borrow hb

theorem Vouches.warrants_lendAll (h : Vouches c.book p M w) (hb : c.book.Sound)
    (loans : List Loan) :
    Warrants (Fault.Justified c.book p M)
      (fun books => Vouches c.book p M { w with toBooks := books })
      (lendAll c y p w.toBooks loans) :=
  Warrants.foldlM h fun _ loan _ _ _ _ hbooks =>
    (hbooks.warrants_lend (x := loan.via) hb).bind fun _ _ hr => hr

theorem Vouches.warrants_follow (h : Vouches b p M w) (x : Place) :
    Warrants (Fault.Justified b p M) (fun _ => True) (follow c w x p) := by
  refine (h.warrants_read x.holder).bind fun _ _ _ => ?_
  split
  · exact trivial
  · exact warrants_refuseFlaw _

theorem Vouches.warrants_declare (h : Vouches b p M w) (x : Place) (ty : Ty) :
    Warrants (Fault.Justified b p M) (fun store => Vouches b p M { w with store })
      (w.store.declare x ty false) := by
  refine Warrants.of_checks ?_ fun store hstore => h.after_declare hstore
  unfold Store.declare
  split
  · exact warrants_refuseFlaw _
  · split
    · exact warrants_refuseFlaw _
    · exact trivial

theorem Vouches.warrants_exit (h : Vouches b p M w) :
    Warrants (Fault.Justified b p M) (Vouches b p M) (exit w p) := by
  refine Warrants.of_checks ?_ fun t ht => h.after_exit ht
  have hleave : Warrants (Fault.Justified b p M) (fun _ => True) w.store.exit := by
    unfold Store.exit
    split
    · exact warrants_refuseFlaw _
    · exact trivial
  refine hleave.bind fun r _ _ => (warrants_refuse fun v hv => ?_).bind fun _ _ _ => trivial
  obtain ⟨loan, hfind, rfl⟩ := Option.map_eq_some_iff.mp hv
  exact Violation.justified_of_lien (h.live loan (List.mem_of_find?_eq_some hfind)) rfl rfl

/-- A write through a reference is refused because of a loan that is live, be it closed just now. -/
theorem Vouches.warrants_writeBehind {closed : List Loan} (h : Vouches c.book p M w)
    (hclosed : ∀ l ∈ closed, l ∈ c.book.loans ∧ l.covers p = true) (ref : Place) :
    Warrants (Fault.Justified c.book p M) (fun _ => True) (writeBehind c w closed ref p) := by
  refine (h.warrants_read ref).bind fun _ _ _ => ?_
  dsimp only
  split
  · split
    · exact warrants_refuseFlaw _
    · exact Violation.justified_of_bare rfl rfl
    · exact trivial
  · refine warrants_refuse fun v hv => ?_
    obtain ⟨loan, hloan, hwhy⟩ := List.exists_of_findSome?_eq_some hv
    unfold unwritable? at hwhy
    split at hwhy
    · obtain rfl := Option.some.inj hwhy
      have hlive : loan ∈ c.book.loans ∧ loan.covers p = true := by
        rcases List.mem_append.mp (List.mem_filter.mp hloan).1 with hmem | hmem
        · exact h.live loan hmem
        · exact hclosed loan hmem
      exact Violation.justified_of_lien hlive rfl rfl
    · obtain ⟨other, hfind, rfl⟩ := Option.map_eq_some_iff.mp hwhy
      have hother := (List.mem_filter.mp (List.mem_of_find?_eq_some hfind)).1
      exact Violation.justified_of_lien (h.live other hother) rfl rfl

/-- A part cannot be written because of a move of what contains it. -/
theorem Vouches.justified_of_unwritable (h : Vouches b p M w) {v : Violation}
    (hwhy : x.enclosing.findSome? (w.store.unwritableWithin? x) = some v) :
    v.Justified b p M := by
  obtain ⟨y, hy, hwithin⟩ := List.exists_of_findSome?_eq_some hwhy
  unfold Store.unwritableWithin? at hwithin
  split at hwithin
  next q _ _ hget =>
    obtain rfl := Option.some.inj hwithin
    refine ⟨fun l hl => (by cases hl), fun y' heq => ?_⟩
    obtain rfl := Option.some.inj heq
    have hlack : w.store.lack? y = some (.moved q) := by
      rw [Store.lack?, hget]
      rfl
    obtain ⟨r, hr, hM⟩ := h.moved q y hlack
    refine ⟨r, hr, hM, x, rfl, ?_⟩
    rw [Place.reaches, (Place.isPrefixOf_of_mem_enclosing hy).1, Bool.true_or]
  next =>
    obtain rfl := Option.some.inj hwithin
    exact Violation.justified_of_bare rfl rfl
  next => cases hwithin

theorem Vouches.warrants_write {closed : List Loan} (h : Vouches c.book p M w)
    (hclosed : ∀ l ∈ closed, l ∈ c.book.loans ∧ l.covers p = true) (x : Place) :
    Warrants (Fault.Justified c.book p M)
      (Vouches c.book p fun q y => M q y ∧ (x.throughRef = false → x.isPrefixOf y = false))
      (write c w closed x p) := by
  refine Warrants.of_checks ?_ fun t ht => h.after_write ht
  refine (warrants_ensureInScope w.store x).bind fun _ _ _ => ?_
  dsimp only
  split
  · exact (h.warrants_writeBehind hclosed x.holder).bind fun _ _ _ => trivial
  · split
    · have hfill : Warrants (Fault.Justified c.book p M) (fun _ => True) (w.store.fill x) := by
        unfold Store.fill
        split
        · exact trivial
        · exact warrants_refuseFlaw _
      exact hfill.bind fun _ _ _ => trivial
    · have hover : Warrants (Fault.Justified c.book p M) (fun _ => True)
          (w.store.overwrite x (liensOn w x p true)) := by
        refine (warrants_refuse fun v hv => h.justified_of_unwritable hv).bind fun _ _ _ => ?_
        refine (warrants_refuse fun v hv => ?_).bind fun _ _ _ => trivial
        obtain ⟨l, hhead, rfl⟩ := Option.map_eq_some_iff.mp hv
        obtain ⟨loan, hlive, rfl⟩ := h.live_of_mem_liensOn (List.mem_of_head? hhead)
        exact Violation.justified_of_lien hlive rfl rfl
      exact hover.bind fun _ _ _ => trivial

/-! ### What an operation moves out -/

/-- While the action is performed at `p` from the state `s`, the value of a place is **moved out**,
whether or not the rest of the action can be completed. -/
inductive MovesOut (c : Context) (p : Point) (s : State) : Action → Place → Prop
  /-- The source of a move, which is not copied. -/
  | source {x y : Place} {books : Books} {t : State} :
      lendAll c y p s.toBooks (dueFor c s y p) = .ok books →
      vacate { s with toBooks := books } x p = .ok t → move c s y x p = .ok t →
        MovesOut c p s (.move y x) x
  /-- An argument that is passed by value and not copied, after those in front of it. -/
  | argument {done rest : List Arg} {d : Arg} {result : Option Place} {u t : State} :
      done.foldlM (passArg c p) s = .ok u → d.mode = .value → vacate u d.place p = .ok t →
      passArg c p u d = .ok t → MovesOut c p s (.call (done ++ d :: rest) result) d.place
  /-- What is handed to the caller and not copied. -/
  | returned {x : Place} {t : State} :
      vacate s x p = .ok t → ret c s x p = .ok t → MovesOut c p s (.ret (some x)) x

theorem Vouches.warrants_move (h : Vouches c.book p M w) (hb : c.book.Sound)
    (hM : ∀ m, MovesOut c p w (.move y x) m → ∀ z, m.same z = true → M p z) :
    Warrants (Fault.Justified c.book p M) (Vouches c.book p M) (move c w y x p) := by
  refine Warrants.of_checks ?_ fun t ht => ?_
  · rw [move_eq]
    refine (warrants_ensureInScope w.store y).bind fun _ _ _ => ?_
    split
    · refine (h.warrants_read x).bind fun _ _ _ => ?_
      refine (h.warrants_lendAll hb _).bind fun books _ hbooks => ?_
      split
      · exact hbooks.warrants_vacate x
      · exact trivial
    · split
      · exact (h.warrants_read x).bind fun _ _ _ => trivial
      · exact h.warrants_vacate x
  · obtain ⟨-, books, hlend, hend⟩ := move_cases ht
    have hbooks := (h.warrants_lendAll hb _).of_ok hlend
    rcases hend with ⟨-, rfl⟩ | hvac
    · exact hbooks
    · exact hbooks.after_vacate (hM x (.source hlend hvac ht)) hvac

theorem Vouches.warrants_ret (h : Vouches c.book p M w)
    (hM : ∀ m, MovesOut c p w (.ret (some x)) m → ∀ z, m.same z = true → M p z) :
    Warrants (Fault.Justified c.book p M) (Vouches c.book p M) (ret c w x p) := by
  refine Warrants.of_checks ?_ fun t ht => ?_
  · refine (warrants_ensureInScope w.store x).bind fun _ _ _ => ?_
    refine (warrants_refuse fun v hv => ?_).bind fun _ _ _ => ?_
    · obtain ⟨loan, hfind, rfl⟩ := Option.map_eq_some_iff.mp hv
      have hloan := (List.mem_filter.mp (List.mem_of_find?_eq_some hfind)).1
      exact Violation.justified_of_lien (h.live loan hloan) rfl rfl
    · unfold handOver
      split
      · exact (h.warrants_read x).bind fun _ _ _ => trivial
      · exact h.warrants_vacate x
  · rcases handOver_cases (ret_cases ht).2 with ⟨-, rfl⟩ | hvac
    · exact h
    · exact h.after_vacate (hM x (.returned hvac ht)) hvac

/-- **What an action does before its write** is right about what it stops for, and keeps a state
that vouches, when `M` says what it moves out. -/
theorem Vouches.warrants_perform {a : Action} (h : Vouches c.book p M w) (hb : c.book.Sound)
    (hM : ∀ m, MovesOut c p w a m → ∀ z, m.same z = true → M p z) :
    Warrants (Fault.Justified c.book p M) (fun r => Vouches c.book p M r.1) (perform c w p a) := by
  cases a with
  | declare x ty => exact (h.warrants_declare x ty).bind fun _ _ hstore => hstore
  | assign x ys =>
    exact (Warrants.forM fun y _ => h.warrants_read y).bind fun _ _ _ => h
  | move y x => exact (h.warrants_move hb hM).bind fun _ _ ht => ht
  | borrow kind y x =>
    refine (warrants_ensureInScope w.store y).bind fun _ _ _ => ?_
    exact (h.warrants_borrow hb).bind fun _ _ ht => ht
  | deref x => exact (h.warrants_follow x).bind fun _ _ _ => h
  | use x => exact (h.warrants_read x).bind fun _ _ _ => h
  | call args result =>
    have hpass : Warrants (Fault.Justified c.book p M) (Vouches c.book p M)
        (args.foldlM (passArg c p) w) := by
      refine Warrants.foldlM h fun done d rest u hsplit hdone hu => ?_
      refine hu.warrants_passArg hb fun t hmode hvac hpass => ?_
      rw [hsplit] at hM
      exact hM d.place (.argument hdone hmode hvac hpass)
    cases result with
    | none => exact hpass.bind fun _ _ ht => ht
    | some t =>
      refine (warrants_ensureInScope w.store t).bind fun _ _ _ => ?_
      exact hpass.bind fun _ _ ht => ht
  | ret x =>
    cases x with
    | none => exact ⟨h.live, h.orderly, h.moved⟩
    | some x => exact (h.warrants_ret hM).bind fun t _ ht => ⟨ht.live, ht.orderly, ht.moved⟩
  | enter => exact h.of_le (List.Subset.refl _) h.orderly.distinct fun y o hy =>
      ⟨hy, h.orderly.declared hy⟩
  | exit => exact h.warrants_exit.bind fun _ _ ht => ht

/-- What is moved out does not lie behind a reference. -/
theorem MovesOut.throughRef {a : Action} {m : Place} (h : MovesOut c p w a m) :
    m.throughRef = false := by
  cases h with
  | source _ hvac _ | argument _ _ hvac _ | returned hvac _ => exact (vacate_eq_ok_iff.mp hvac).2.1

theorem Vouches.mono {M' : Point → Place → Prop} (h : Vouches b p M w)
    (hM : ∀ q y, M q y → M' q y) : Vouches b p M' w :=
  ⟨h.live, h.orderly, fun q y hy =>
    (h.moved q y hy).imp fun r hr => ⟨hr.1, hM r y hr.2⟩⟩

/-- **A step is right about what it stops for.** When it is completed, what is then moved out was
not written by it. -/
theorem Vouches.warrants_step {op : Operation}
    (h : Vouches c.book op.point M (settled w op.point false)) (hb : c.book.Sound)
    (hM : ∀ a m, op.action = .ok a → MovesOut c op.point (settled w op.point false) a m →
      ∀ z, m.same z = true → M op.point z) :
    Warrants (Fault.Justified c.book op.point M)
      (Vouches c.book op.point fun q y => M q y ∧ ∀ a x, op.action = .ok a → a.written? = some x →
        x.throughRef = false → x.isPrefixOf y = false)
      (step c w op) := by
  cases hret : w.returned with
  | some q =>
    unfold step
    rw [hret]
    exact warrants_refuseFlaw _
  | none =>
    cases hact : op.action with
    | error gap =>
      rw [step_of_gap hret hact]
      exact warrants_refuseFlaw _
    | ok a =>
      have hperf := h.warrants_perform hb (a := a) (hM a · hact)
      rw [step_eq hret hact]
      refine hperf.bind fun r hr hu => ?_
      obtain ⟨u, target⟩ := r
      obtain rfl := (perform_cases hr).2
      have hend := hu.after_settled true
      cases hx : a.written? with
      | none =>
        refine hend.mono fun q y hy => ⟨hy, fun a' x hact' hx' => ?_⟩
        cases hact'
        rw [hx] at hx'
        cases hx'
      | some x =>
        -- the loans that are closed just now were outstanding before
        have hclosed : ∀ l ∈ (u.toBooks.settle op.point true).2,
            l ∈ c.book.loans ∧ l.covers op.point = true := fun l hl =>
          hu.live l (List.mem_filter.mp hl).1
        refine (hend.warrants_write hclosed x).imp fun v hv => hv.mono fun q y hy =>
          ⟨hy.1, fun a' x' hact' hx' => ?_⟩
        cases hact'
        cases hx.symm.trans hx'
        exact hy.2

end Walk

/-! ### Along a walk -/

/-- What lies in a place behind a reference lies behind it too. -/
theorem Place.throughRef_of_isPrefixOf {x y : Place} (h : x.isPrefixOf y = true)
    (hy : y.throughRef = false) : x.throughRef = false := by
  have hany : ∀ z : Place, z.throughRef = (z.path.map Proj.unlabel).any Proj.isDeref := fun z => by
    simp [throughRef, List.any_map, Function.comp_def]
  obtain ⟨rest, hrest⟩ := (isPrefixOf_iff.mp h).2
  rw [hany, ← hrest, List.any_append, Bool.or_eq_false_iff] at hy
  rw [hany, hy.1]

/-- The operation writes `y`, or a place that contains it. -/
def Operation.Overwrites (op : Operation) (y : Place) : Prop :=
  ∃ a x, op.action = .ok a ∧ a.written? = some x ∧ x.isPrefixOf y = true

namespace Function

variable {f : Function} {policy : Policy} {pre post : List Operation} {op : Operation}
  {w : Walk.State} {p q : Point} {y : Place}

/-- The operation at `q` is reached by the walk through `f`, and **moves out** `m`. -/
def MovesOutAt (f : Function) (policy : Policy) (q : Point) (m : Place) : Prop :=
  ∃ pre op post w a, f.ops = pre ++ op :: post ∧ op.point = q ∧ f.reach policy pre = .ok w ∧
    op.action = .ok a ∧ Walk.MovesOut (f.context policy) q (Walk.settled w q false) a m

/-- The place `y` is **gone since** `q`, seen from `p`: the operation at `q` moved it out, and none
since then, up to `p`, wrote it or a place that contains it. -/
structure GoneSince (f : Function) (policy : Policy) (p q : Point) (y : Place) : Prop where
  le : q ≤ p
  moved : ∃ m, m.same y = true ∧ f.MovesOutAt policy q m
  kept : ∀ o ∈ f.ops, q ≤ o.point → o.point < p → ¬o.Overwrites y

/-- What is moved out does not lie behind a reference. -/
theorem GoneSince.throughRef (h : f.GoneSince policy p q y) : y.throughRef = false := by
  obtain ⟨m, hsame, _, _, _, _, _, -, -, -, -, hm⟩ := h.moved
  rw [← Place.throughRef_congr hsame, hm.throughRef]

/-- What an operation moves out is gone since its own point. -/
theorem goneSince_of_movesOut (hops : f.ops = pre ++ op :: post)
    (hreach : f.reach policy pre = .ok w) {a : Action} {m : Place} (hact : op.action = .ok a)
    (hm : Walk.MovesOut (f.context policy) op.point (Walk.settled w op.point false) a m)
    (hsame : m.same y = true) : f.GoneSince policy op.point op.point y where
  le := le_refl _
  moved := ⟨m, hsame, pre, op, post, w, a, hops, rfl, hreach, hact, hm⟩
  kept := fun _ _ hle hlt => absurd hlt (not_lt.mpr hle)

/-- What is gone at an operation that does not write it is gone at the next one. -/
theorem GoneSince.next (h : f.GoneSince policy op.point q y) (hord : f.Ordered) {next : Operation}
    (hops : f.ops = pre ++ op :: next :: post) (hwrite : ¬op.Overwrites y) :
    f.GoneSince policy next.point q y where
  le := le_trans h.le (le_of_lt (hord.after hops next List.mem_cons_self))
  moved := h.moved
  kept := by
    intro o ho hle hlt
    rw [hops, List.mem_append, List.mem_cons] at ho
    rcases ho with ho | rfl | ho
    · have hmem : o ∈ f.ops := hops ▸ List.mem_append_left _ ho
      exact h.kept o hmem hle (hord.before hops o ho)
    · exact hwrite
    · -- the operations behind do not come before the next one
      have hops' : f.ops = (pre ++ [op]) ++ next :: post := by rw [hops, List.append_cons]
      rcases List.mem_cons.mp ho with rfl | ho
      · exact absurd hlt (lt_irrefl _)
      · exact absurd hlt (not_lt.mpr (le_of_lt (hord.after hops' o ho)))

/-- The loans that are outstanding when an operation begins are live. -/
theorem Ordered.live_of_reach (hord : f.Ordered) (hops : f.ops = pre ++ op :: post)
    (hreach : f.reach policy pre = .ok w) {l : Loan}
    (hl : l ∈ (Walk.settled w op.point false).ledger.outstanding) :
    l ∈ f.book.loans ∧ l.covers op.point = true := by
  have hin := (hord.inStep_of_reach hops hreach).settled f.book_sound (hord.pointAfter_lt hops)
  obtain ⟨hmem, hid, hlast, -⟩ := (hin.mem_outstanding f.book_sound).mp hl
  have horigin := hord.origin_lt hops hmem hid
  rw [Loan.covers, Bool.and_eq_true, decide_eq_true_eq, decide_eq_true_eq]
  exact ⟨hmem, le_of_lt horigin, Int.le_of_sub_one_lt hlast⟩

/-- The state `w` that the walk reaches after the operations `pre` **remembers** what was moved out:
it is gone, seen from the next operation, since the point that was noted. -/
structure Remembers (f : Function) (policy : Policy) (pre : List Operation) (w : Walk.State) :
    Prop where
  orderly : w.store.Orderly
  gone : ∀ op post, f.ops = pre ++ op :: post → ∀ q y, w.store.lack? y = some (.moved q) →
    ∃ r ∈ q, f.GoneSince policy op.point r y

/-- A state that remembers vouches for what it holds at the next operation. -/
theorem Remembers.vouches (h : f.Remembers policy pre w) (hord : f.Ordered)
    (hops : f.ops = pre ++ op :: post) (hreach : f.reach policy pre = .ok w) :
    Walk.Vouches f.book op.point (f.GoneSince policy op.point)
      (Walk.settled w op.point false) := by
  refine ⟨fun l hl => hord.live_of_reach hops hreach hl, h.orderly.of_le
    (Walk.distinct_close h.orderly.distinct) fun y o hy => ?_, fun q y hy => ?_⟩
  · rw [Walk.settled, Books.settle, Store.lack?_close] at hy
    exact ⟨hy, (Store.declares_of_types (Books.close_types _ _)).trans (h.orderly.declared hy)⟩
  · rw [Walk.settled, Books.settle, Store.lack?_close] at hy
    exact h.gone op post hops q y hy

/-- Nothing is moved out when the parameters are declared. -/
theorem remembers_start {store : Store} (h : Walk.declareParams f.params = .ok store) :
    f.Remembers policy [] (f.start store) := by
  obtain ⟨hord, hno⟩ : store.Orderly ∧ ∀ y q, store.lack? y ≠ some (.moved q) := by
    refine foldlM_induction (fun s : Store => s.Orderly ∧ ∀ y q, s.lack? y ≠ some (.moved q))
      ⟨Store.orderly_empty, fun y q hy => by cases hy⟩ (fun s param _ t hs ht => ?_) h
    refine ⟨hs.1.declare ht, fun y q hy => ?_⟩
    rw [Store.lack?_declare ht] at hy
    split at hy
    · cases hy
    · exact hs.2 y q hy
  exact ⟨hord, fun _ _ _ q y hy => absurd hy (hno y q)⟩

/-- **The step**: an operation is right about what it stops for, and a state that remembers is
followed by one that does. -/
theorem Remembers.step (h : f.Remembers policy pre w) (hord : f.Ordered)
    (hops : f.ops = pre ++ op :: post) (hreach : f.reach policy pre = .ok w) :
    Warrants (Fault.Justified f.book op.point (f.GoneSince policy op.point))
      (f.Remembers policy (pre ++ [op])) (Walk.step (f.context policy) w op) := by
  have hstep := Walk.Vouches.warrants_step (c := f.context policy) (h.vouches hord hops hreach)
    f.book_sound fun a m hact hm z hsame => goneSince_of_movesOut hops hreach hact hm hsame
  refine hstep.imp fun t ht => ⟨ht.orderly, fun next post' hnext q y hy => ?_⟩
  obtain ⟨r, hr, hgone, hkept⟩ := ht.moved q y hy
  rw [List.append_assoc, List.singleton_append] at hnext
  refine ⟨r, hr, hgone.next hord hnext ?_⟩
  rintro ⟨a, x, hact, hx, hunder⟩
  have href : x.throughRef = false := Place.throughRef_of_isPrefixOf hunder hgone.throughRef
  rw [hkept a x hact hx href] at hunder
  cases hunder

/-- **The run**: every state that a walk reaches remembers what was moved out. -/
theorem Ordered.remembers_of_reach (hord : f.Ordered) (hops : f.ops = pre ++ post)
    (hreach : f.reach policy pre = .ok w) : f.Remembers policy pre w :=
  reach_induction (P := f.Remembers policy) (fun _ hstore => remembers_start hstore)
    (fun _ _ _ _ _ hops hw ih hstep => (ih.step hord hops hw).of_ok hstep) hops hreach

/-- A rejection that shows an operation is one of a function whose points increase and whose
parameters have different names. -/
theorem ordered_of_operation {r : Finding} (h : f.verdict policy = .ok (.rejected f.name r))
    (hop : r.operation ≠ none) : f.Ordered ∧ (f.params.map Param.name).Nodup := by
  by_contra hbroken
  obtain ⟨finding, hverdict, -, hnone, -⟩ := @malformed_of_broken f policy hbroken
  rw [h, Except.ok.injEq, Verdict.rejected.injEq] at hverdict
  exact hop (hverdict.2 ▸ hnone)

/-- **Findings tell the truth.** A finding that shows an operation shows one of the function, at its
point and with its span. The loan that it names is a loan of the book that is live at this point.
The move that it names is one of the operation at the point named, which moved out just the place
named; no operation has written that place or one that contains it since, and the place in question
lies in it or reaches it as a part of its container. Whenever a place is named as moved out, so is
the point. -/
theorem finding_tells_truth {f : Function} {policy : Policy} {r : Finding}
    (h : f.verdict policy = .ok (.rejected f.name r)) (hop : r.operation ≠ none) :
    ∃ op ∈ f.ops, op.point = r.point ∧ r.operation = some op.text ∧ r.span = op.span ∧
      (∀ q, r.loanPoint = some q → ∃ l ∈ f.book.loans, l.origin = q ∧
        r.loanKind = some l.kind.text ∧ r.loanBorrower = l.borrower ∧
        l.origin ≤ r.point ∧ r.point ≤ l.last) ∧
      (∀ q, r.movePoint = some q → q ≤ r.point ∧ ∃ m x, r.movedPlace = some m ∧ r.place = some x ∧
        (∃ n, n.same m = true ∧ f.MovesOutAt policy q n) ∧
        (∀ o ∈ f.ops, q ≤ o.point → o.point < r.point → ¬o.Overwrites m) ∧
        (m.isPrefixOf x = true ∨
          (x.container.isPrefixOf m = true ∧ m.same x.container = false))) ∧
      (r.movedPlace ≠ none → r.movePoint ≠ none) := by
  obtain ⟨hord, hparams⟩ := ordered_of_operation h hop
  obtain ⟨pre, op, v, ⟨post, w, hops, hw, hstep⟩, rfl⟩ := (rejected_iff hord hparams).mp h
  have hjust : v.Justified f.book op.point (f.GoneSince policy op.point) :=
    ((hord.remembers_of_reach hops hw).step hord hops hw).of_error hstep
  refine ⟨op, by simp [hops], rfl, rfl, rfl, fun q hq => ?_, fun q hq => ?_, fun hm => ?_⟩
  · obtain ⟨l, hl, rfl⟩ := Option.map_eq_some_iff.mp hq
    obtain ⟨loan, hloan, rfl, hcovers⟩ := hjust.lien l hl
    rw [Loan.covers, Bool.and_eq_true, decide_eq_true_eq, decide_eq_true_eq] at hcovers
    refine ⟨loan, hloan, rfl, ?_, ?_, hcovers⟩
    · simp [Violation.report, Violation.finding, hl]
    · simp [Violation.report, Violation.finding, hl]
  · obtain ⟨m, hm⟩ := Violation.exists_movedPlace hq
    obtain ⟨q', hq', hgone, x, hx, hreach⟩ := hjust.moved m hm
    obtain rfl : q' = q := Option.some.inj (hq'.symm.trans hq)
    refine ⟨hgone.le, m, x, hm, hx, hgone.moved, hgone.kept, ?_⟩
    simpa [Place.reaches] using hreach
  · obtain ⟨m, hm⟩ := Option.ne_none_iff_exists'.mp hm
    obtain ⟨q, hq, -⟩ := hjust.moved m hm
    exact Option.ne_none_iff_exists'.mpr ⟨q, hq⟩

/-- The verdict on a function whose walk is known to stop at `op` because of `v`. -/
theorem rejected_of_stop {f : Function} {policy : Policy} (op : Operation) (v : Violation)
    (h : ((f.walk policy).stop.map fun stop => (stop.fault, stop.point, stop.operation)) =
      some (.violation v, op.point, some op)) :
    f.verdict policy = .ok (.rejected f.name (v.report f.name op)) := by
  obtain ⟨stop, hstop, heq⟩ := Option.map_eq_some_iff.mp h
  obtain ⟨hfault, hrest⟩ := Prod.mk.inj heq
  obtain ⟨hpoint, hop⟩ := Prod.mk.inj hrest
  simp only [verdict, hstop, Walk.Stop.finding, hfault, hop, hpoint]
  rfl

/-- A function that moves the element `v[i]` out, writes another element and uses the whole. -/
def usesRest : Function where
  name := "f"
  ops :=
    [.declare 1 { base := "v" } (.named "V"), .assign 2 { base := "v" } [],
      .declare 3 { base := "t" } (.named "T"),
      .move 4 { base := "t" } { base := "v", path := [.any "i"] },
      .assign 5 { base := "v", path := [.index 0] } [], .use 6 { base := "v" }]

/-- A function that writes `s` while `r` borrows it. -/
def writesLent : Function where
  name := "f"
  ops :=
    [.declare 1 { base := "s" } (.named "T"), .assign 2 { base := "s" } [],
      .declare 3 { base := "r" } (.named "R"), .borrow 4 .shared { base := "r" } { base := "s" },
      .assign 5 { base := "s" } [], .deref 6 { base := "r" }]

/-- The use of `v` is blamed on the move of `v[i]` at 4, and the write of `s` on the loan taken
at 4. -/
theorem finding_tells_truth_blamed :
    (∃ r, usesRest.verdict {} = .ok (.rejected usesRest.name r) ∧ r.operation ≠ none ∧
      r.movePoint = some 4 ∧ 4 ≤ r.point ∧ ∃ n, n.same { base := "v", path := [.any none] } = true ∧
        usesRest.MovesOutAt {} 4 n) ∧
      ∃ r, writesLent.verdict {} = .ok (.rejected writesLent.name r) ∧ r.operation ≠ none ∧
        r.loanPoint = some 4 ∧ ∃ l ∈ writesLent.book.loans, l.origin = 4 ∧ 5 ≤ l.last := by
  have hmoved : usesRest.verdict {} = .ok (.rejected usesRest.name _) :=
    rejected_of_stop (.use 6 { base := "v" })
      (.movedOut { base := "v" } (some 4) { base := "v", path := [.any "i"] }) (by decide +kernel)
  have hlent : writesLent.verdict {} = .ok (.rejected writesLent.name _) :=
    rejected_of_stop (.assign 5 { base := "s" } [])
      (.writeWhileLent { base := "s" } ⟨some { base := "r" }, .shared, 4⟩) (by decide +kernel)
  refine ⟨⟨_, hmoved, by simp [Violation.report], rfl, ?_⟩, ⟨_, hlent, by simp [Violation.report],
    rfl, ?_⟩⟩
  · obtain ⟨op, -, -, -, -, -, hmove, -⟩ := finding_tells_truth hmoved (by simp [Violation.report])
    obtain ⟨hle, m, x, hm, -, ⟨n, hsame, hout⟩, -⟩ := hmove 4 rfl
    obtain rfl := Option.some.inj hm
    exact ⟨hle, n, Place.same_trans hsame (by decide), hout⟩
  · obtain ⟨op, -, -, -, -, hloan, -, -⟩ := finding_tells_truth hlent (by simp [Violation.report])
    obtain ⟨l, hl, horigin, -, -, -, hlast⟩ := hloan 4 rfl
    exact ⟨l, hl, horigin, hlast⟩

end Function

end BorrowCheck
