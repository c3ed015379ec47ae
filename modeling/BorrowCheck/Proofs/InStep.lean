import BorrowCheck.Proofs.Run
import BorrowCheck.Proofs.Values

/-!
# Walk and survey in step

The survey settles which loans there are and how long each is needed; the walk opens them one by
one and closes them again. While it is not stopped, the two stay in step
(`BorrowCheck.Walk.InStep`): the walk has opened exactly the loans that the survey has taken, and
those outstanding are exactly those that are needed later and did not lapse
(`BorrowCheck.LoanBook.standing`). What a place holds for the survey it holds for the walk too.

So a question about the ledger at some point of a walk becomes one about the book: to show that a
loan is outstanding it is enough to know when it was taken, how long it lasts and which blocks were
left in the meantime. The step lemmas follow the walk: `BorrowCheck.Walk.InStep.perform` for what
an action does before its write, `BorrowCheck.Walk.InStep.write` for the write. The run lemma is
`BorrowCheck.Function.Ordered.inStep_of_reach`.
-/

namespace BorrowCheck

/-! ### Loans that stand -/

namespace LoanBook

variable {b : LoanBook} {l : Loan} {n : Nat} {es : List Ending} {now p : Point}

/-- Of the first `n` loans those that **stand**: they are needed after `now` and did not lapse. -/
def standing (b : LoanBook) (n : Nat) (es : List Ending) (now : Point) : List Loan :=
  (b.loans.take n).filter fun l => now < l.last && !l.lapsed es

theorem standing_sublist : (b.standing n es now).Sublist b.loans :=
  List.filter_sublist.trans (List.take_sublist _ _)

theorem Sound.mem_take (hb : b.Sound) : l ∈ b.loans.take n ↔ l ∈ b.loans ∧ l.id < n := by
  rw [List.mem_take_iff_getElem, List.mem_iff_getElem]
  constructor
  · rintro ⟨i, hi, rfl⟩
    have hid := hb.id_eq i _
      (List.getElem?_eq_getElem (Nat.lt_of_lt_of_le hi (Nat.min_le_right _ _)))
    exact ⟨⟨i, _, rfl⟩, by omega⟩
  · rintro ⟨⟨i, hi, rfl⟩, hid⟩
    rw [hb.id_eq i _ (List.getElem?_eq_getElem hi)] at hid
    exact ⟨i, by omega, rfl⟩

theorem Sound.le_id_of_mem_drop (hb : b.Sound) (h : l ∈ b.loans.drop n) : n ≤ l.id := by
  obtain ⟨i, hi⟩ := List.mem_iff_getElem?.mp h
  rw [List.getElem?_drop] at hi
  rw [hb.id_eq (n + i) l hi]
  exact Nat.le_add_right n i

/-- Loans that are singled out by their numbers follow each other in the book. -/
theorem Sound.filter_eq_of_id_iff (hb : b.Sound) {q : Loan → Bool} {m : Nat}
    (h : ∀ l ∈ b.loans, q l = true ↔ m ≤ l.id ∧ l.id < n) :
    b.loans.filter q = (b.loans.take n).drop m := by
  conv_lhs => rw [← List.take_append_drop n b.loans, List.filter_append,
    ← List.take_append_drop m (b.loans.take n), List.filter_append]
  rw [List.filter_eq_nil_iff.mpr, List.nil_append, List.filter_eq_self.mpr,
    List.filter_eq_nil_iff.mpr, List.append_nil]
  · intro l hl hq
    have hid := ((h l (List.mem_of_mem_drop hl)).mp hq).2
    exact absurd hid (Nat.not_lt.mpr (hb.le_id_of_mem_drop hl))
  · intro l hl
    obtain ⟨hmem, hid⟩ := hb.mem_take.mp (List.mem_of_mem_drop hl)
    rw [List.drop_take] at hl
    exact (h l hmem).mpr ⟨hb.le_id_of_mem_drop (List.mem_of_mem_take hl), hid⟩
  · intro l hl hq
    rw [List.take_take] at hl
    obtain ⟨hmem, hid⟩ := hb.mem_take.mp hl
    exact absurd ((h l hmem).mp hq).1
      (Nat.not_le.mpr (Nat.lt_of_lt_of_le hid (Nat.min_le_left m n)))

theorem Sound.mem_standing (hb : b.Sound) :
    l ∈ b.standing n es now ↔
      l ∈ b.loans ∧ l.id < n ∧ now < l.last ∧ l.lapsed es = false := by
  rw [standing, List.mem_filter, hb.mem_take]
  simp only [Bool.and_eq_true, decide_eq_true_eq, Bool.not_eq_true']
  tauto

/-- The next loan stands when it is taken. -/
theorem standing_succ (hl : b.get? n = some l) (hlast : now < l.last)
    (hlapsed : l.lapsed es = false) :
    b.standing (n + 1) es now = b.standing n es now ++ [l] := by
  rw [get?] at hl
  rw [standing, List.take_add_one, List.filter_append, hl, ← standing]
  simp [hlast, hlapsed]

/-- As time goes on, loans cease to stand. -/
theorem standing_filter_last {later : Point} {expired : Loan → Bool} (hle : now ≤ later)
    (h : ∀ l, expired l = true ↔ l.last ≤ later) :
    ((b.standing n es now).filter fun l => !expired l) = b.standing n es later := by
  rw [standing, standing, List.filter_filter]
  refine List.filter_congr fun l _ => ?_
  rw [Bool.eq_iff_iff]
  simp only [Bool.and_eq_true, Bool.not_eq_true', decide_eq_true_eq, ← Bool.not_eq_true, h, not_le]
  constructor
  · rintro ⟨hlast, -, hlapsed⟩
    exact ⟨hlast, hlapsed⟩
  · rintro ⟨hlast, hlapsed⟩
    exact ⟨hlast, lt_of_le_of_lt hle hlast, hlapsed⟩

/-- When a block is left, the loans of its variables cease to stand. -/
theorem Sound.standing_filter_borrowedIn (hb : b.Sound) {e : Ending}
    (horigin : ∀ l ∈ b.loans, l.id < n → l.origin < e.point) :
    ((b.standing n es now).filter fun l => !l.borrowedIn e.names) =
      b.standing n (es ++ [e]) now := by
  rw [standing, standing, List.filter_filter]
  refine List.filter_congr fun l hl => ?_
  obtain ⟨hmem, hid⟩ := hb.mem_take.mp hl
  have hlapsed : l.lapsed [e] = l.borrowedIn e.names := by
    simp [Loan.lapsed, horigin l hmem hid]
  rw [Loan.lapsed_append, hlapsed, Bool.not_or, Bool.and_left_comm,
    Bool.and_comm (!l.borrowedIn e.names)]

end LoanBook

/-! ### Loans that are struck and loans that are due -/

namespace Ledger

variable {l : Ledger} {b : LoanBook} {p : Point}

/-- What a write releases was lent before to the place written or to one under it. -/
theorem mem_released_of_releaseUnder {x : Place} {id : Nat}
    (h : id ∈ (l.releaseUnder x p).released) :
    id ∈ l.released ∨ ∃ loan ∈ l.outstanding, loan.id = id ∧ loan.origin < p ∧
      ∃ y, loan.borrower = some y ∧ x.isPrefixOf y = true := by
  rcases List.mem_append.mp h with h | h
  · exact Or.inl h
  · obtain ⟨loan, hloan, rfl⟩ := List.mem_map.mp h
    obtain ⟨hmem, htest⟩ := List.mem_filter.mp hloan
    cases hy : loan.borrower with
    | none => simp [hy] at htest
    | some y =>
      simp only [hy, Bool.and_eq_true, decide_eq_true_eq] at htest
      exact Or.inr ⟨loan, hmem, rfl, htest.2, y, hy, htest.1⟩

/-- Striking those of the outstanding loans that satisfy `q` leaves the others. -/
theorem outstanding_strike {q : Loan → Bool}
    (hid : ∀ a ∈ l.outstanding, ∀ a' ∈ l.outstanding, a.id = a'.id → a = a') :
    (l.strike (l.outstanding.filter q)).outstanding = l.outstanding.filter fun a => !q a := by
  refine List.filter_congr fun a ha => ?_
  rw [Bool.not_inj_iff, Bool.eq_iff_iff, List.contains_iff_mem, List.mem_map]
  constructor
  · rintro ⟨a', ha', heq⟩
    obtain ⟨hmem, hq⟩ := List.mem_filter.mp ha'
    rwa [← hid a' hmem a ha heq]
  · intro hq
    exact ⟨a, List.mem_filter.mpr ⟨ha, hq⟩, rfl⟩

/-- When the first `n` loans were opened, those that are due come after them. -/
theorem dueAt_eq (hb : b.Sound) {n : Nat} (h : l.opened = List.range n) :
    l.dueAt b p = (b.loans.drop n).filter fun loan => loan.origin = p := by
  have hopened : ∀ loan : Loan, loan.id ∈ l.opened ↔ loan.id < n := fun loan => by
    rw [h, List.mem_range]
  rw [dueAt, LoanBook.takenAt, List.filter_filter]
  conv_lhs => rw [← List.take_append_drop n b.loans, List.filter_append]
  rw [List.filter_eq_nil_iff.mpr, List.nil_append]
  · refine List.filter_congr fun loan hloan => ?_
    simp [hopened, hb.le_id_of_mem_drop hloan]
  · intro loan hloan
    simp [hopened, (hb.mem_take.mp hloan).2]

/-- The next loan of the book is found when it is due. -/
theorem due?_eq (hb : b.Sound) {n : Nat} (h : l.opened = List.range n) {loan : Loan}
    (hloan : b.get? n = some loan) :
    l.due? b loan.borrower loan.via loan.kind loan.origin = some loan := by
  have hn := (List.getElem?_eq_some_iff.mp hloan).1
  have hdrop : b.loans.drop n = loan :: b.loans.drop (n + 1) := by
    rw [List.drop_eq_getElem_cons hn, (List.getElem?_eq_some_iff.mp hloan).2]
  rw [due?, dueAt_eq hb h, hdrop, List.filter_cons_of_pos (by simp)]
  exact List.find?_cons_of_pos (by simp)

/-- Nothing is due when no later loan of the book is taken at the point. -/
theorem dueAt_eq_nil (hb : b.Sound) {n : Nat} (h : l.opened = List.range n)
    (hlater : ∀ loan ∈ b.loans, n ≤ loan.id → loan.origin ≠ p) : l.dueAt b p = [] := by
  rw [dueAt_eq hb h, List.filter_eq_nil_iff]
  intro loan hloan
  simpa using hlater loan (List.mem_of_mem_drop hloan) (hb.le_id_of_mem_drop hloan)

/-- The next loan alone is due when none after it is taken at the same point. -/
theorem dueAt_eq_singleton (hb : b.Sound) {n : Nat} (h : l.opened = List.range n) {loan : Loan}
    (hloan : b.get? n = some loan)
    (hlater : ∀ m ∈ b.loans, n + 1 ≤ m.id → m.origin ≠ loan.origin) :
    l.dueAt b loan.origin = [loan] := by
  have hn := (List.getElem?_eq_some_iff.mp hloan).1
  rw [dueAt_eq hb h, List.drop_eq_getElem_cons hn, (List.getElem?_eq_some_iff.mp hloan).2,
    List.filter_cons_of_pos (by simp), List.cons.injEq, List.filter_eq_nil_iff]
  refine ⟨rfl, fun m hm => ?_⟩
  simpa using hlater m (List.mem_of_mem_drop hm) (hb.le_id_of_mem_drop hm)

end Ledger

namespace Walk

/-! ### The relation -/

/-- **Walk and survey are in step**: `w` is a state of the walk and `s` the survey of the same
operations, the blocks `es` were left, and the loans that end at `now` or before are closed. -/
structure InStep (b : LoanBook) (s : Survey) (es : List Ending) (now : Point) (w : State) :
    Prop where
  opened : w.ledger.opened = List.range s.borrows.length
  outstanding : w.ledger.outstanding = b.standing s.borrows.length es now
  released : ∀ id ∈ w.ledger.released, id < s.borrows.length
  /-- What a place holds was not released. -/
  held : ∀ e ∈ s.holders.toList, e.2 ∉ w.ledger.released
  /-- What a place holds did not lapse. -/
  kept : ∀ e ∈ s.holders.toList, ∀ l, b.get? e.2 = some l → l.lapsed es = false
  blocks : w.store.Scoped
  scopes : w.store.scopes = s.scopes

variable {c : Context} {b : LoanBook} {s t : Survey} {es : List Ending} {now p : Point}
  {w u : State} {P : Point → Prop} {x : Place}

/-- A loan is outstanding when it was taken, is needed later and did not lapse. -/
theorem InStep.mem_outstanding (h : InStep b s es now w) (hb : b.Sound) {l : Loan} :
    l ∈ w.ledger.outstanding ↔
      l ∈ b.loans ∧ l.id < s.borrows.length ∧ now < l.last ∧ l.lapsed es = false := by
  rw [h.outstanding, hb.mem_standing]

theorem InStep.eq_of_id (h : InStep b s es now w) (hb : b.Sound) :
    ∀ a ∈ w.ledger.outstanding, ∀ a' ∈ w.ledger.outstanding, a.id = a'.id → a = a' :=
  fun _ ha _ ha' => hb.eq_of_id ((h.mem_outstanding hb).mp ha).1 ((h.mem_outstanding hb).mp ha').1

/-- What a place holds is outstanding while it is needed. -/
theorem InStep.outstanding_of_held (h : InStep b s es now w) (hb : b.Sound) (hs : s.Sound)
    {e : Place × Nat} (he : e ∈ s.holders.toList) {l : Loan} (hl : b.get? e.2 = some l)
    (hlast : now < l.last) : l ∈ w.ledger.outstanding := by
  obtain ⟨br, -, hbr, -⟩ := hs.held e he
  refine (h.mem_outstanding hb).mpr ⟨LoanBook.mem_of_get? hl, ?_, hlast, h.kept e he l hl⟩
  rw [hb.id_eq _ _ hl]
  exact (List.getElem?_eq_some_iff.mp hbr).1

/-- The walk agrees about the place where a loan is held. -/
theorem InStep.isHeldAt (h : InStep b s es now w) (hb : b.Sound) (hs : s.Sound)
    (hrec : s.RecordedBy b) {e : Place × Nat} (he : e ∈ s.holders.toList) {l : Loan}
    (hl : b.get? e.2 = some l) {test : Place → Bool}
    (htest : ∀ y, e.1.same y = true → test y = true) : w.ledger.isHeldAt test l = true := by
  obtain ⟨m, y, hm, hy, hsame⟩ := hrec.exists_of_held hs he
  obtain rfl : m = l := Option.some.inj (hm.symm.trans hl)
  have hnot : m.id ∉ w.ledger.released := by
    rw [hb.id_eq _ _ hl]
    exact h.held e he
  simp [Ledger.isHeldAt, hy, hnot, htest y hsame]

/-- A survey that took no loan stays in step with a walk that left the ledger alone. -/
theorem InStep.of_grows (h : InStep b s es now w) (hgrow : s.Grows P t) (ht : t.Sound)
    (hlen : t.borrows.length = s.borrows.length) (hledger : u.ledger = w.ledger)
    (hscoped : u.store.Scoped) (hscopes : u.store.scopes = t.scopes) : InStep b t es now u := by
  have hold : ∀ e ∈ t.holders.toList, e ∈ s.holders.toList := by
    intro e he
    obtain ⟨br, -, hbr, -⟩ := ht.held e he
    refine hgrow.holders e he ?_
    rw [← hlen]
    exact (List.getElem?_eq_some_iff.mp hbr).1
  refine ⟨?_, ?_, ?_, fun e he => ?_, fun e he => h.kept e (hold e he), hscoped, hscopes⟩
  · rw [hledger, hlen, h.opened]
  · rw [hledger, hlen, h.outstanding]
  · rw [hledger, hlen]
    exact h.released
  · rw [hledger]
    exact h.held e (hold e he)

theorem InStep.touch (h : InStep b s es now w) (hs : s.Sound) : InStep b (s.touch x p) es now w :=
  h.of_grows (P := (· = p)) Survey.grows_touch hs.touch rfl rfl h.blocks h.scopes

/-- A walk that left ledger, types and blocks alone stays in step. -/
theorem InStep.congr (h : InStep b s es now w) (hledger : u.ledger = w.ledger)
    (htypes : u.store.types = w.store.types) (hscopes : u.store.scopes = w.store.scopes) :
    InStep b s es now u := by
  refine ⟨?_, ?_, ?_, ?_, h.kept, h.blocks.congr htypes hscopes, hscopes.trans h.scopes⟩
  · rw [hledger, h.opened]
  · rw [hledger, h.outstanding]
  · rw [hledger]
    exact h.released
  · rw [hledger]
    exact h.held

/-! ### Closing loans that ended -/

/-- Closing the loans that end up to a later point keeps walk and survey in step. -/
theorem InStep.close (h : InStep b s es now w) (hb : b.Sound) {later : Point}
    {expired : Loan → Bool} (hle : now ≤ later) (hexp : ∀ l, expired l = true ↔ l.last ≤ later) :
    InStep b s es later
      { w with toBooks := w.toBooks.close (w.ledger.outstanding.filter expired) } := by
  refine ⟨h.opened, ?_, h.released, h.held, h.kept, ?_, ?_⟩
  · rw [Books.close, Ledger.outstanding_strike (h.eq_of_id hb), h.outstanding]
    exact LoanBook.standing_filter_last hle hexp
  · exact h.blocks.congr (Books.close_types _ _) (Books.close_scopes _ _)
  · rw [Books.close_scopes]
    exact h.scopes

theorem InStep.settled (h : InStep b s es now w) (hb : b.Sound) (hlt : now < p) :
    InStep b s es (p - 1) (settled w p false) := by
  refine h.close hb (Int.le_sub_one_of_lt hlt) fun l => ?_
  rw [Int.le_sub_one_iff]
  simp

theorem InStep.settled_inclusive (h : InStep b s es (p - 1) w) (hb : b.Sound) :
    InStep b s es p (Walk.settled w p true) := by
  refine h.close hb (le_of_lt (Int.sub_one_lt_of_le (le_refl p))) fun l => ?_
  rw [le_iff_lt_or_eq]
  simp

/-! ### Opening loans -/

/-- The next loan that the survey takes is due. -/
theorem InStep.exists_due (h : InStep b s es now w) (hb : b.Sound) (hrec : t.RecordedBy b)
    {br : Borrow} (hborrows : t.borrows = s.borrows ++ [br]) :
    ∃ l, b.get? s.borrows.length = some l ∧ l.toBorrow = br ∧
      w.ledger.due? b br.borrower br.via br.kind br.origin = some l := by
  obtain ⟨l, hl, rfl⟩ := hrec.loan s.borrows.length br
    (by rw [hborrows, List.getElem?_concat_length])
  exact ⟨l, hl, rfl, Ledger.due?_eq hb h.opened hl⟩

/-- **Opening the next loan** keeps walk and survey in step: the loan that the walk finds is the one
that the survey took. -/
theorem InStep.lend (h : InStep b s es (p - 1) w) (hb : b.Sound) (hes : ∀ e ∈ es, e.point < p)
    (hgrow : s.Grows P t) (ht : t.Sound) (hrec : t.RecordedBy b) {br : Borrow}
    (hborrows : t.borrows = s.borrows ++ [br]) (horigin : br.origin = p)
    (hscopes : t.scopes = s.scopes) {books : Books} {l : Loan}
    (hlend : w.toBooks.lend b br.borrower br.via br.kind p = .ok (books, l)) :
    l ∈ b.loans ∧ l.toBorrow = br ∧ InStep b t es (p - 1) { w with toBooks := books } := by
  have hlen : t.borrows.length = s.borrows.length + 1 := by rw [hborrows, List.length_append]; rfl
  obtain ⟨m, hm, rfl, hfound⟩ := h.exists_due hb hrec hborrows
  obtain ⟨hdue, -, rfl⟩ := Books.lend_eq_ok_iff.mp hlend
  -- the loan that is due is the next one of the book
  rw [horigin] at hfound
  obtain rfl : m = l := Option.some.inj (hfound.symm.trans hdue)
  have hid := hb.id_eq _ _ hm
  have hlast : p - 1 < m.last :=
    Int.sub_one_lt_of_le (horigin ▸ hb.origin_le_last m (LoanBook.mem_of_get? hm))
  have hlapsed : m.lapsed es = false :=
    Loan.lapsed_eq_false_of_le fun e he => horigin ▸ le_of_lt (hes e he)
  refine ⟨LoanBook.mem_of_get? hm, rfl, ?_, ?_, fun id hmem => ?_, fun e he hmem => ?_,
    fun e he l hl => ?_, ?_, ?_⟩
  · rw [hlen, List.range_succ, ← h.opened, ← hid]
    rfl
  · rw [hlen, LoanBook.standing_succ hm hlast hlapsed, ← h.outstanding]
    rfl
  · rw [hlen]
    exact Nat.lt_succ_of_lt (h.released id hmem)
  · exact h.held e (hgrow.holders e he (h.released e.2 hmem)) hmem
  · rcases Nat.lt_or_ge e.2 s.borrows.length with hlt | hge
    · exact h.kept e (hgrow.holders e he hlt) l hl
    · -- the new loan
      obtain ⟨br, -, hbr, -⟩ := ht.held e he
      have hlt := (List.getElem?_eq_some_iff.mp hbr).1
      obtain hnew : e.2 = s.borrows.length := by omega
      rw [hnew, hm, Option.some.injEq] at hl
      rw [← hl, hlapsed]
  · exact h.blocks.congr (Store.encumber_types _ _) (Store.encumber_scopes _ _)
  · rw [hscopes, ← h.scopes]
    exact Store.encumber_scopes _ _

/-! ### Arguments -/

/-- Handing a value on moves it out at most. -/
theorem handOver_frame (h : handOver c w x p = .ok u) :
    u.ledger = w.ledger ∧ u.store.types = w.store.types ∧ u.store.scopes = w.store.scopes := by
  rcases handOver_cases h with ⟨-, rfl⟩ | hvac
  · exact ⟨rfl, rfl, rfl⟩
  · obtain ⟨-, -, -, -, rfl⟩ := vacate_eq_ok_iff.mp hvac
    exact ⟨rfl, rfl, rfl⟩

/-- Passing one argument keeps walk and survey in step. -/
theorem InStep.passArg (h : InStep c.book s es (p - 1) w) (hb : c.book.Sound) (hs : s.Sound)
    (hes : ∀ e ∈ es, e.point < p) {a : Arg} (hrec : (s.pass p a).RecordedBy c.book)
    (hpass : passArg c p w a = .ok u) : InStep c.book (s.pass p a) es (p - 1) u := by
  have hgrow : s.Grows (· = p) (s.pass p a) := Survey.grows_pass
  rcases passArg_cases hpass with ⟨hmode, hover⟩ | ⟨kind, hmode, hborrow⟩
  · obtain ⟨hledger, htypes, hscopes⟩ := handOver_frame hover
    refine h.of_grows hgrow hs.pass ?_ hledger (h.blocks.congr htypes hscopes) ?_
    · simp [Survey.pass, hmode]
    · rw [hscopes, h.scopes, Survey.scopes_pass]
  · obtain ⟨-, -, -, books, l, hlend, rfl⟩ := borrow_cases hborrow
    have hpass : s.pass p a =
        (s.touch a.place p).take ((s.touch a.place p).borrowOf none kind a.place p) := by
      simp [Survey.pass, hmode]
    exact (h.lend hb hes hgrow hs.pass hrec (by rw [hpass]; rfl) rfl (by rw [hpass]; rfl) hlend).2.2

/-- Passing the arguments of a call keeps walk and survey in step. -/
theorem InStep.passAll {args : List Arg} (h : InStep c.book s es (p - 1) w) (hb : c.book.Sound)
    (hs : s.Sound) (hes : ∀ e ∈ es, e.point < p)
    (hrec : (args.foldl (Survey.pass p) s).RecordedBy c.book)
    (hpass : args.foldlM (Walk.passArg c p) w = .ok u) :
    InStep c.book (args.foldl (Survey.pass p) s) es (p - 1) u := by
  induction args generalizing s w with
  | nil =>
    obtain rfl := pure_eq_ok_iff.mp hpass
    exact h
  | cons a args ih =>
    obtain ⟨v, hv, hrest⟩ := foldlM_cons_eq_ok_iff.mp hpass
    rw [List.foldl_cons] at hrec ⊢
    have hgrow : (s.pass p a).Grows (· = p)
        (args.foldl (Survey.pass p) (s.pass p a)) :=
      Survey.grows_foldl _ fun _ _ _ => Survey.grows_pass
    exact ih (h.passArg hb hs hes (hrec.of_grows hgrow) hv) hs.pass hrec hrest

/-! ### Moves and borrows that are stored -/

/-- The loans that are due for the target of a move are none, or the one that the survey takes. -/
theorem InStep.dueFor_cases {y : Place} (h : InStep c.book s es now w) (hb : c.book.Sound)
    (hrec : (s.move (some y) x p).RecordedBy c.book)
    (hlater : ∀ l ∈ c.book.loans, (s.move (some y) x p).borrows.length ≤ l.id → l.origin ≠ p) :
    ((s.move (some y) x p).borrows = s.borrows ∧ dueFor c w y p = []) ∨
      ∃ q br l, s.holders.get? x = some q ∧ s.borrows[q]? = some br ∧
        (s.move (some y) x p).borrows = s.borrows ++ [br.handedOn q y x p] ∧
        l.toBorrow = br.handedOn q y x p ∧ dueFor c w y p = [l] := by
  rcases s.borrows_move x p y with hsame | ⟨q, br, hget, hbr, hnew⟩
  · -- no loan is taken, and none is due
    rw [hsame] at hlater
    exact Or.inl ⟨hsame, by rw [dueFor, Ledger.dueAt_eq_nil hb h.opened hlater]; rfl⟩
  · -- the loan that is taken is the only one that is due
    obtain ⟨l, hl, hlbr⟩ := hrec.loan s.borrows.length _ (by rw [hnew, List.getElem?_concat_length])
    have horigin : l.origin = p := by rw [hlbr]; rfl
    have hborrower : l.borrower = some y := by rw [hlbr]; rfl
    rw [hnew, List.length_append, List.length_singleton, ← horigin] at hlater
    refine Or.inr ⟨q, br, l, hget, hbr, hnew, hlbr, ?_⟩
    rw [dueFor, ← horigin, Ledger.dueAt_eq_singleton hb h.opened hl hlater,
      List.filter_cons_of_pos (by rw [hborrower]; exact Place.same_refl y), List.filter_nil]

/-- A move opens no loan, or the one that the survey takes. -/
theorem InStep.lendAll_cases {y : Place} {books : Books} (h : InStep c.book s es now w)
    (hb : c.book.Sound) (hrec : (s.move (some y) x p).RecordedBy c.book)
    (hlater : ∀ l ∈ c.book.loans, (s.move (some y) x p).borrows.length ≤ l.id → l.origin ≠ p)
    (hlend : lendAll c y p w.toBooks (dueFor c w y p) = .ok books) :
    ((s.move (some y) x p).borrows = s.borrows ∧ books = w.toBooks) ∨
      ∃ q br l, s.holders.get? x = some q ∧ s.borrows[q]? = some br ∧
        (s.move (some y) x p).borrows = s.borrows ++ [br.handedOn q y x p] ∧
        w.toBooks.lend c.book (some y) x br.kind p = .ok (books, l) := by
  rcases h.dueFor_cases hb hrec hlater with ⟨hsame, hnil⟩ | ⟨q, br, l, hget, hbr, hnew, hlbr, hone⟩
  · rw [hnil] at hlend
    exact Or.inl ⟨hsame, (pure_eq_ok_iff.mp hlend).symm⟩
  · have hvia : l.via = x := by rw [hlbr]; rfl
    have hkind : l.kind = br.kind := by rw [hlbr]; rfl
    rw [hone, lendAll, foldlM_cons_eq_ok_iff, hvia, hkind] at hlend
    obtain ⟨books', hlend', hnil⟩ := hlend
    obtain rfl := pure_eq_ok_iff.mp hnil
    obtain ⟨⟨books'', m⟩, hlend'', hpure⟩ := bind_eq_ok_iff.mp hlend'
    obtain rfl := pure_eq_ok_iff.mp hpure
    exact Or.inr ⟨q, br, m, hget, hbr, hnew, hlend''⟩

/-- A move keeps walk and survey in step. -/
theorem InStep.move {y : Place} (h : InStep c.book s es (p - 1) w) (hb : c.book.Sound)
    (hs : s.Sound) (hes : ∀ e ∈ es, e.point < p) (hrec : (s.move (some y) x p).RecordedBy c.book)
    (hlater : ∀ l ∈ c.book.loans, (s.move (some y) x p).borrows.length ≤ l.id → l.origin ≠ p)
    (hmove : move c w y x p = .ok u) : InStep c.book (s.move (some y) x p) es (p - 1) u := by
  have hgrow : s.Grows (· = p) (s.move (some y) x p) := Survey.grows_move
  obtain ⟨-, books, hlend, hend⟩ := move_cases hmove
  have hopen : InStep c.book (s.move (some y) x p) es (p - 1) { w with toBooks := books } := by
    rcases h.lendAll_cases hb hrec hlater hlend with ⟨hsame, rfl⟩ | ⟨q, br, l, -, -, hnew, hlend'⟩
    · refine h.of_grows hgrow hs.move (by rw [hsame]) rfl h.blocks ?_
      rw [Survey.scopes_move]
      exact h.scopes
    · exact (h.lend hb hes hgrow hs.move hrec hnew rfl (Survey.scopes_move _ _ _ _) hlend').2.2
  rcases hend with ⟨-, rfl⟩ | hvac
  · exact hopen
  · obtain ⟨-, -, -, -, rfl⟩ := vacate_eq_ok_iff.mp hvac
    exact hopen.congr rfl rfl rfl

/-! ### The end of a block -/

/-- Leaving a block keeps walk and survey in step: the loans of its variables lapse. -/
theorem InStep.exit (h : InStep b s es (p - 1) w) (hb : b.Sound) (hs : s.Sound)
    (hrec : s.RecordedBy b) (hearlier : ∀ l ∈ b.loans, l.id < s.borrows.length → l.origin < p)
    (hexit : exit w p = .ok u) :
    ∃ dying scopes, s.scopes.exit? = some (dying, scopes) ∧
      InStep b s.exit (es ++ [{ point := p, names := dying }]) (p - 1) u := by
  obtain ⟨dying, scopes, hscopes, -, rfl⟩ := exit_cases hexit
  have hsurvey : s.scopes.exit? = some (dying, scopes) := by rw [← h.scopes, hscopes]
  refine ⟨dying, scopes, hsurvey, ?_⟩
  rw [Survey.exit, hsurvey]
  refine ⟨h.opened, ?_, h.released, fun e he => ?_, fun e he l hl => ?_, ?_, ?_⟩
  · rw [← hb.standing_filter_borrowedIn hearlier, ← h.outstanding]
    exact Ledger.outstanding_strike (h.eq_of_id hb)
  · exact h.held e (Place.Map.mem_keepKeys.mp he).1
  · obtain ⟨hold, hkeep⟩ := Place.Map.mem_keepKeys.mp he
    obtain ⟨m, y, hm, hy, hsame⟩ := hrec.exists_of_held hs hold
    obtain rfl : m = l := Option.some.inj (hm.symm.trans hl)
    -- the borrower of the loan stays in scope
    have hstay : m.borrowedIn dying = false := by
      rw [Place.base_eq_of_same hsame] at hkeep
      simpa [Loan.borrowedIn, hy] using hkeep
    rw [Loan.lapsed_append, h.kept e hold m hm, Bool.false_or]
    simp [Loan.lapsed, hstay]
  · exact h.blocks.exit hscopes (Books.close_types _ _) (Books.close_scopes _ _)
  · exact Books.close_scopes _ _

/-! ### Actions -/

/-- What is known about the survey `s` of the operations in front of `op`, which left the blocks
`es`: it fits together, and the loans of the book that are taken at the point of `op` are those
that `op` takes. -/
structure Turn (b : LoanBook) (s : Survey) (es : List Ending) (op : Operation) : Prop where
  book : b.Sound
  sound : s.Sound
  recorded : (s.observe op).RecordedBy b
  endings : ∀ e ∈ es, e.point < op.point
  earlier : ∀ l ∈ b.loans, l.id < s.borrows.length → l.origin < op.point
  later : ∀ l ∈ b.loans, (s.observe op).borrows.length ≤ l.id → l.origin ≠ op.point

/-- **What an action does before its write keeps walk and survey in step.** -/
theorem InStep.perform {op : Operation} {a : Action} (h : InStep c.book s es (op.point - 1) w)
    (ht : Turn c.book s es op) (hact : op.action = .ok a)
    (hperf : perform c w op.point a = .ok (u, a.written?)) :
    InStep c.book (s.observe op) (es ++ (s.ending? op).toList) (op.point - 1) u := by
  obtain ⟨hperf, -⟩ := perform_cases hperf
  have hdoes := Operation.action_cases hact
  have hgrow := s.grows_observe op
  have hsound := ht.sound.observe op
  have hrec := ht.recorded
  have hlater := ht.later
  rw [Survey.observe_eq_act s hact] at hgrow hsound hrec hlater ⊢
  -- only an exit leaves a block
  have hstay : op.kind ≠ .exit → es ++ (s.ending? op).toList = es := fun hne => by
    rw [s.ending?_eq_none hne, Option.toList_none, List.append_nil]
  cases a with
  | declare x ty =>
    obtain ⟨store, hstore, rfl⟩ := hperf
    rw [hstay (by rw [hdoes.1]; simp)]
    refine h.of_grows hgrow hsound rfl rfl (h.blocks.declare hstore) ?_
    obtain ⟨-, -, rfl⟩ := Store.declare_eq_ok_iff.mp hstore
    exact congrArg (Scopes.declare · x.base) h.scopes
  | assign x ys =>
    obtain ⟨-, rfl⟩ := hperf
    rw [hstay (by rw [hdoes.1]; simp)]
    exact h.of_grows hgrow hsound (by simp [Survey.act]) rfl h.blocks
      (by simp [Survey.act, h.scopes])
  | move y x =>
    rw [hstay (by rw [hdoes.1]; simp)]
    exact h.move ht.book ht.sound ht.endings hrec hlater hperf
  | borrow kind y x =>
    rw [hstay (by rw [hdoes.1]; simp)]
    obtain ⟨-, hborrow⟩ := hperf
    obtain ⟨-, -, -, books, l, hlend, rfl⟩ := borrow_cases hborrow
    have hborrows : (s.act op (.borrow kind y x)).borrows =
        s.borrows ++ [(s.touch x op.point).borrowOf (some y) kind x op.point] := by
      simp [Survey.act, Survey.lend, Survey.define, Survey.take]
    exact (h.lend ht.book ht.endings hgrow hsound hrec hborrows rfl
      (Survey.scopes_lend _ _ _ _ _) hlend).2.2
  | deref x | use x =>
    obtain ⟨-, rfl⟩ := hperf
    rw [hstay (by rw [hdoes.1]; simp)]
    exact h.of_grows hgrow hsound (by simp [Survey.act]) rfl h.blocks
      (by simp [Survey.act, h.scopes])
  | call args result =>
    rw [hstay (by rw [hdoes.1]; simp)]
    have hwrite : (args.foldl (Survey.pass op.point) s).Grows (· = op.point)
        (s.act op (.call args result)) := Survey.grows_write?
    have hpassed := h.passAll ht.book ht.sound ht.endings (hrec.of_grows hwrite) hperf
    exact hpassed.of_grows hwrite hsound (by simp [Survey.act]) rfl hpassed.blocks
      (by simp [Survey.act, hpassed.scopes])
  | ret x =>
    rw [hstay (by rw [hdoes.1]; simp)]
    have htouch : InStep c.book (s.act op (.ret x)) es (op.point - 1) w :=
      h.of_grows hgrow hsound (by simp [Survey.act]) rfl h.blocks (by simp [Survey.act, h.scopes])
    cases x with
    | none =>
      obtain rfl := hperf
      exact htouch.congr rfl rfl rfl
    | some x =>
      obtain ⟨v, hret, rfl⟩ := hperf
      obtain ⟨hledger, htypes, hscopes⟩ := handOver_frame (ret_cases hret).2
      exact htouch.congr hledger htypes hscopes
  | enter =>
    obtain rfl := hperf
    rw [hstay (by rw [show op.kind = .enter from hdoes]; simp)]
    exact h.of_grows hgrow hsound rfl rfl h.blocks.enter (congrArg Scopes.enter h.scopes)
  | exit =>
    have hrec' := ht.recorded.of_grows (s.grows_observe op)
    obtain ⟨dying, scopes, hexit, hafter⟩ := h.exit ht.book ht.sound hrec' ht.earlier hperf
    rw [Survey.ending?_of_exit hdoes hexit]
    exact hafter

/-! ### Writes -/

/-- **A write keeps walk and survey in step**, when the survey knows nothing older to be held where
it goes. -/
theorem InStep.write {closed : List Loan} (h : InStep b s es now w) (hb : b.Sound) (hs : s.Sound)
    (hrec : s.RecordedBy b)
    (hnew : x.throughRef = false → ∀ e ∈ s.holders.toList, x.isPrefixOf e.1 = true →
      ∀ l, b.get? e.2 = some l → ¬l.origin < p)
    (hwrite : write c w closed x p = .ok u) : InStep b s es now u := by
  rcases (write_cases hwrite).2 with ⟨-, -, rfl⟩ | ⟨href, store, hstore, rfl⟩
  · exact h
  · -- the store keeps its types and blocks whichever way the value is written
    have hframe : store.types = w.store.types ∧ store.scopes = w.store.scopes := by
      rcases hstore with ⟨-, -, hfill⟩ | ⟨-, rfl⟩
      · obtain ⟨-, rfl⟩ := Store.fill_eq_ok_iff.mp hfill
        exact ⟨rfl, rfl⟩
      · exact ⟨rfl, rfl⟩
    refine ⟨h.opened, h.outstanding, fun id hid => ?_, fun e he hid => ?_, h.kept,
      h.blocks.congr hframe.1 hframe.2, hframe.2.trans h.scopes⟩
    · rcases Ledger.mem_released_of_releaseUnder hid with hid | ⟨l, hl, rfl, -⟩
      · exact h.released id hid
      · exact ((h.mem_outstanding hb).mp hl).2.1
    · rcases Ledger.mem_released_of_releaseUnder hid with hid | ⟨l, hl, hle, horigin, y, hy, hxy⟩
      · exact h.held e he hid
      · -- a loan that is released now was held at or under `x`, and is older
        obtain ⟨m, z, hm, hz, hsame⟩ := hrec.exists_of_held hs he
        have hget := hb.get?_id ((h.mem_outstanding hb).mp hl).1
        rw [hle, hm, Option.some.injEq] at hget
        subst hget
        rw [hy, Option.some.injEq] at hz
        subst hz
        rw [← Place.isPrefixOf_congr hsame] at hxy
        exact hnew href e he hxy m hm horigin

/-! ### The step -/

/-- **A step keeps walk and survey in step.** -/
theorem InStep.step {op : Operation} {v : State} (h : InStep c.book s es now w)
    (hnow : now < op.point) (ht : Turn c.book s es op) (hstep : step c w op = .ok v) :
    InStep c.book (s.observe op) (es ++ (s.ending? op).toList) op.point v := by
  obtain ⟨-, a, u, hact, hperf, hwrite⟩ := step_cases hstep
  have hmid := ((h.settled ht.book hnow).perform ht hact hperf).settled_inclusive ht.book
  have hsound := ht.sound.observe op
  rcases hwrite with ⟨-, rfl⟩ | ⟨x, hx, hwrite⟩
  · exact hmid
  · refine hmid.write ht.book hsound ht.recorded (fun href e he hunder l hl => ?_) hwrite
    -- what the survey knows to be held there was borrowed just now
    have hge : s.borrows.length ≤ e.2 := by
      rw [Survey.observe_eq_act s hact] at he
      exact Survey.length_le_of_written hx href he hunder
    obtain ⟨br, -, hbr, -⟩ := hsound.held e he
    obtain ⟨m, hm, rfl⟩ := ht.recorded.loan e.2 br hbr
    obtain rfl : m = l := Option.some.inj (hm.symm.trans hl)
    have horigin : m.origin = op.point := (s.grows_observe op).origin hbr hge
    rw [horigin]
    exact lt_irrefl _

end Walk

/-! ### The run -/

namespace Ledger

theorem outstanding_foldl_record (l : Ledger) (loans : List Loan) :
    (loans.foldl record l).outstanding = l.outstanding ++ loans := by
  induction loans generalizing l with
  | nil => simp
  | cons loan loans ih => rw [List.foldl_cons, ih, record, List.append_assoc]; rfl

theorem opened_foldl_record (l : Ledger) (loans : List Loan) :
    (loans.foldl record l).opened = l.opened ++ loans.map (·.id) := by
  induction loans generalizing l with
  | nil => simp
  | cons loan loans ih => rw [List.foldl_cons, ih, record, List.append_assoc]; rfl

theorem released_foldl_record (l : Ledger) (loans : List Loan) :
    (loans.foldl record l).released = l.released := by
  induction loans generalizing l with
  | nil => rfl
  | cons loan loans ih => rw [List.foldl_cons, ih, record]

end Ledger

namespace Function

variable {f : Function} {policy : Policy} {pre post : List Operation} {op : Operation}

/-- The turn of an operation, when points increase. -/
theorem Ordered.turn (h : f.Ordered) (hops : f.ops = pre ++ op :: post) :
    Walk.Turn f.book (Survey.after f pre) ((Survey.after f []).endings pre) op where
  book := f.book_sound
  sound := Survey.sound_after f pre
  recorded := by
    rw [← Survey.after_concat]
    exact recorded_after (hops.trans (List.append_cons pre op post))
  endings e he := by
    obtain ⟨o, ho, hpoint⟩ := Survey.exists_op_of_mem_endings he
    rw [← hpoint]
    exact h.before hops o ho
  earlier l hl hid := h.origin_lt hops hl hid
  later l hl hid := by
    rw [← Survey.after_concat] at hid
    obtain ⟨o, ho, hpoint⟩ := exists_op_of_origin (hops.trans (List.append_cons pre op post)) hl hid
    rw [← hpoint]
    exact ne_of_gt (h.after hops o ho)

/-- A loan that originates at the point of an operation is one that the operation takes. -/
theorem Ordered.borrow_of_origin (h : f.Ordered) (hops : f.ops = pre ++ op :: post) {l : Loan}
    (hl : l ∈ f.book.loans) (horigin : l.origin = op.point) :
    (Survey.after f pre).borrows.length ≤ l.id ∧
      ((Survey.after f pre).observe op).borrows[l.id]? = some l.toBorrow := by
  have hturn := h.turn hops
  have hge : (Survey.after f pre).borrows.length ≤ l.id := by
    by_contra hlt
    exact absurd horigin (ne_of_lt (hturn.earlier l hl (Nat.lt_of_not_le hlt)))
  have hlt : l.id < ((Survey.after f pre).observe op).borrows.length := by
    by_contra hge
    exact hturn.later l hl (Nat.le_of_not_lt hge) horigin
  obtain ⟨m, hm, hmb⟩ := hturn.recorded.loan l.id _ (List.getElem?_eq_getElem hlt)
  obtain rfl : l = m := Option.some.inj ((f.book_sound.get?_id hl).symm.trans hm)
  exact ⟨hge, by rw [List.getElem?_eq_getElem hlt, hmb]⟩

/-- The loans of the parameters are those that originate at the entry. -/
theorem Ordered.takenAt_entry (h : f.Ordered) :
    f.book.takenAt f.entry = f.book.loans.take (Survey.after f []).borrows.length := by
  refine f.book_sound.filter_eq_of_id_iff (m := 0) fun l hl => ?_
  rw [decide_eq_true_eq]
  constructor
  · intro horigin
    refine ⟨Nat.zero_le _, Nat.lt_of_not_le fun hid => ?_⟩
    obtain ⟨o, ho, hpoint⟩ := exists_op_of_origin (List.nil_append _).symm hl hid
    exact absurd (horigin.symm.trans hpoint.symm) (ne_of_lt (h.entry_lt ho))
  · rintro ⟨-, hid⟩
    obtain ⟨m, br, hm, hbr, rfl⟩ := exists_borrow_of_lt (List.nil_append _).symm hid
    rw [f.book_sound.get?_id hl, Option.some.injEq] at hm
    subst hm
    exact (Survey.grows_entry f).origin hbr (Nat.zero_le _)

/-- Declaring parameters brings them into scope, in the store as in the survey. -/
theorem scoped_of_declare {params : List Param} {entry : Point} {store store' : Store} {s : Survey}
    (hscoped : store.Scoped) (hscopes : store.scopes = s.scopes)
    (h : params.foldlM (fun store param =>
      store.declare { base := param.name } param.ty true) store = .ok store') :
    store'.Scoped ∧ store'.scopes = (params.foldl (Survey.receive entry) s).scopes := by
  induction params generalizing store s with
  | nil =>
    obtain rfl := pure_eq_ok_iff.mp h
    exact ⟨hscoped, hscopes⟩
  | cons param params ih =>
    obtain ⟨next, hnext, hrest⟩ := foldlM_cons_eq_ok_iff.mp h
    refine ih (hscoped.declare hnext) ?_ hrest
    obtain ⟨-, -, rfl⟩ := Store.declare_eq_ok_iff.mp hnext
    rw [Survey.scopes_receive, ← hscopes]

/-- The numbers of the first loans of a book. -/
theorem map_id_take (f : Function) {n : Nat} (hn : n ≤ f.book.loans.length) :
    (f.book.loans.take n).map (·.id) = List.range n := by
  refine List.ext_getElem? fun i => ?_
  rcases Nat.lt_or_ge i n with hi | hi
  · have hget := List.getElem?_eq_getElem (Nat.lt_of_lt_of_le hi hn)
    rw [List.getElem?_map, List.getElem?_take_of_lt hi, hget, Option.map_some,
      f.book_sound.id_eq i _ hget, List.getElem?_range hi]
  · rw [List.getElem?_eq_none (by simp; omega), List.getElem?_eq_none (by simpa using hi)]

/-- **Walk and survey start in step.** -/
theorem Ordered.inStep_start (h : f.Ordered) {store : Store}
    (hstore : Walk.declareParams f.params = .ok store) :
    Walk.InStep f.book (Survey.after f []) [] (f.entry - 1) (f.start store) := by
  have hrec := recorded_after (List.nil_append f.ops).symm
  have hdue : Ledger.dueAt {} f.book f.entry =
      f.book.loans.take (Survey.after f []).borrows.length := by
    rw [← h.takenAt_entry, Ledger.dueAt]
    simp
  have hledger : (f.start store).ledger =
      (f.book.loans.take (Survey.after f []).borrows.length).foldl Ledger.record {} := by
    rw [← hdue]
    rfl
  have hreleased : (f.start store).ledger.released = [] := by
    rw [hledger, Ledger.released_foldl_record]
  obtain ⟨hscoped, hscopes⟩ := scoped_of_declare (s := {}) Store.scoped_empty rfl hstore
  refine ⟨?_, ?_, fun id hid => ?_, fun e he hid => ?_, fun e he l hl => rfl, hscoped, hscopes⟩
  · rw [hledger, Ledger.opened_foldl_record, f.map_id_take hrec.length_le]
    rfl
  · rw [hledger, Ledger.outstanding_foldl_record, LoanBook.standing, List.filter_eq_self.mpr]
    · rfl
    · -- every loan is needed at its origin
      intro l hl
      rw [← h.takenAt_entry] at hl
      obtain ⟨hmem, horigin⟩ := List.mem_filter.mp hl
      have hlast := f.book_sound.origin_le_last l hmem
      rw [decide_eq_true_eq.mp horigin] at hlast
      simpa [Loan.lapsed] using Int.sub_one_lt_of_le hlast
  · rw [hreleased] at hid
    cases hid
  · rw [hreleased] at hid
    cases hid

/-- **Walk and survey are in step after every operation that is completed.** -/
theorem Ordered.inStep_of_reach (h : f.Ordered) (hops : f.ops = pre ++ post) {w : Walk.State}
    (hreach : f.reach policy pre = .ok w) :
    Walk.InStep f.book (Survey.after f pre) ((Survey.after f []).endings pre) (f.pointAfter pre)
      w := by
  refine reach_induction (P := fun pre w => Walk.InStep f.book (Survey.after f pre)
    ((Survey.after f []).endings pre) (f.pointAfter pre) w)
    (fun store hstore => h.inStep_start hstore) ?_ hops hreach
  intro pre op post w v hops _ ih hstep
  have hnext := Walk.InStep.step (c := f.context policy) ih (h.pointAfter_lt hops) (h.turn hops)
    hstep
  rw [pointAfter_concat, Survey.after_concat, Survey.endings_append]
  rwa [Survey.endings, Survey.endings, List.append_nil]

/-- An operation with a target leaves no block. -/
theorem kind_ne_exit_of_written {a : Action} {x : Place} (hact : op.action = .ok a)
    (hx : a.written? = some x) : op.kind ≠ .exit := by
  have hdoes := Operation.action_cases hact
  cases a with
  | assign y ys | move y z | borrow kind y z | call args result =>
    rw [hdoes.1]
    simp
  | declare y ty | deref y | use y | ret y | enter | exit => cases hx

/-- An older loan that is still needed is outstanding when the action of an operation begins. -/
theorem Ordered.stands (h : f.Ordered) (hops : f.ops = pre ++ op :: post) {w : Walk.State}
    (hin : Walk.InStep f.book (Survey.after f pre) ((Survey.after f []).endings pre)
      (op.point - 1) w) {l : Loan} (hl : l ∈ f.book.loans) (horigin : l.origin < op.point)
    (hlast : op.point ≤ l.last) (hscope : f.lapsedBefore l op.point = false) :
    l ∈ w.ledger.outstanding := by
  rw [h.lapsedBefore_eq hops] at hscope
  exact (hin.mem_outstanding f.book_sound).mpr
    ⟨hl, h.id_lt hops hl horigin, Int.sub_one_lt_of_le hlast, hscope⟩

/-- An older loan that is needed later is outstanding when an operation writes its target. -/
theorem Ordered.stands_at_write (h : f.Ordered) (hops : f.ops = pre ++ op :: post) {a : Action}
    {x : Place} (hact : op.action = .ok a) (hx : a.written? = some x) {u : Walk.State}
    (hout : Walk.InStep f.book ((Survey.after f pre).observe op)
      ((Survey.after f []).endings pre ++ ((Survey.after f pre).ending? op).toList)
      (op.point - 1) u) {l : Loan} (hl : l ∈ f.book.loans) (horigin : l.origin < op.point)
    (hlast : op.point < l.last) (hscope : f.lapsedBefore l op.point = false) :
    l ∈ (Walk.settled u op.point true).ledger.outstanding := by
  rw [h.lapsedBefore_eq hops] at hscope
  rw [Survey.ending?_eq_none _ (kind_ne_exit_of_written hact hx), Option.toList_none,
    List.append_nil] at hout
  exact ((hout.settled_inclusive f.book_sound).mem_outstanding f.book_sound).mpr
    ⟨hl, Nat.lt_of_lt_of_le (h.id_lt hops hl horigin) (Survey.grows_observe _ op).length_le, hlast,
      hscope⟩

/-- **The stages of an operation of an accepted function**: the walk reaches it, performs its action
and writes its target, in step with the survey all the time. -/
theorem Accepted.stages (h : f.Accepted policy) (hops : f.ops = pre ++ op :: post) :
    ∃ w a u, f.reach policy pre = .ok w ∧ op.action = .ok a ∧
      Walk.perform (f.context policy) (Walk.settled w op.point false) op.point a =
        .ok (u, a.written?) ∧
      Walk.InStep f.book (Survey.after f pre) ((Survey.after f []).endings pre) (op.point - 1)
        (Walk.settled w op.point false) ∧
      Walk.InStep f.book ((Survey.after f pre).observe op)
        ((Survey.after f []).endings pre ++ ((Survey.after f pre).ending? op).toList)
        (op.point - 1) u ∧
      ∀ x, a.written? = some x → ∃ t, Walk.write (f.context policy) (Walk.settled u op.point true)
        (u.toBooks.settle op.point true).2 x op.point = .ok t := by
  obtain ⟨w, t, hw, hstep, -⟩ := h.step hops
  obtain ⟨-, a, u, hact, hperf, hwrite⟩ := Walk.step_cases hstep
  have hin := (h.ordered.inStep_of_reach hops hw).settled f.book_sound
    (h.ordered.pointAfter_lt hops)
  have hout := Walk.InStep.perform (c := f.context policy) hin (h.ordered.turn hops) hact
    hperf
  refine ⟨w, a, u, hw, hact, hperf, hin, hout, fun x hx => ?_⟩
  rcases hwrite with ⟨hnone, -⟩ | ⟨y, hy, hwrite⟩
  · rw [hx] at hnone
    cases hnone
  · rw [hx, Option.some.injEq] at hy
    exact ⟨t, hy ▸ hwrite⟩

end Function

end BorrowCheck
