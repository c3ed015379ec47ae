import BorrowCheck.Proofs.Independent
import BorrowCheck.Proofs.Names
import BorrowCheck.Proofs.Passes

/-!
# A cursor that is advanced through itself

A function that walks along a list keeps a reference to the current node and replaces it, again and
again, by a reference to the next one, which it borrows through the reference itself:

    fn f(cur: &mut Node) {
        1: borrow cur = &mut (*cur).next
        2: borrow cur = &mut (*cur).next
        …
        assign *cur
        deref cur
    }

Each of these borrows lends storage that the loan before it lends already, and each overwrites the
reference that it goes through. This file shows that a function of this form is accepted, however
long it is (`BorrowCheck.Cursor.accepted_advancing`). Every loan is taken through the one before it
and so outlasts it: all of them last until the end, and in each state only the newest one is held.

The loans are found by an induction on the number of advances (`BorrowCheck.Cursor.Advanced`). What
the ledger lists is then known from `BorrowCheck.Walk.InStep` and `BorrowCheck.Walk.Traced`, so for
the walk it only remains to be seen that no operation stops it; the store never changes, since all
that is lent belongs to the caller.
-/

namespace BorrowCheck

/-- No loan has expired at `p` when all last longer. -/
theorem Ledger.expired_eq_nil {m : Ledger} {p : Point} {inclusive : Bool}
    (h : ∀ l ∈ m.outstanding, p < l.last ∨ inclusive = false ∧ p ≤ l.last) :
    m.expired p inclusive = [] := by
  rw [expired, List.filter_eq_nil_iff]
  intro l hl
  rcases h l hl with hlt | ⟨rfl, hle⟩
  · simp [le_of_lt hlt, (ne_of_lt hlt).symm]
  · simpa using hle

namespace Walk

variable {c : Context} {w : State} {p : Point}

/-- Where no loan has expired there is nothing to close. -/
theorem settled_eq_self {inclusive : Bool}
    (h : ∀ l ∈ w.ledger.outstanding, p < l.last ∨ inclusive = false ∧ p ≤ l.last) :
    settled w p inclusive = w := by
  have hstrike : w.ledger.strike [] = w.ledger :=
    congrArg ({ w.ledger with outstanding := · }) (List.filter_eq_self.mpr fun _ _ => rfl)
  rw [settled, Books.settle, Books.close, Ledger.expired_eq_nil h, hstrike]
  rfl

/-- A walk that does not stop completes all its operations. -/
theorem map_fst_steps {s : State} {ops : List Operation} (h : (along c s ops).stop = none) :
    (along c s ops).steps.map (·.1) = ops := by
  induction ops generalizing s with
  | nil => rfl
  | cons op ops ih =>
    unfold along at h ⊢
    split at h
    next => cases h
    next => exact congrArg (op :: ·) (ih h)

end Walk

/-- The walk through an accepted function completes all its operations. -/
theorem Function.Accepted.map_fst_steps {f : Function} {policy : Policy}
    (h : f.Accepted policy) : (f.walk policy).steps.map (·.1) = f.ops := by
  have hstop := Function.accepted_iff_stop.mp h
  unfold Function.walk at hstop ⊢
  split at hstop
  next => cases hstop
  next =>
    split at hstop
    next => cases hstop
    next => exact Walk.map_fst_steps hstop

/-- After the first operations a place holds the loan that the survey knows of, if it is needed
later, and no other. -/
theorem Function.Ordered.heldAt_of_reach {f : Function} {policy : Policy}
    {pre post : List Operation} {w : Walk.State} {x : Place} (h : f.Ordered)
    (hops : f.ops = pre ++ post) (hw : f.reach policy pre = .ok w) (href : x.throughRef = false) :
    w.ledger.heldAt x [] =
      ((((Survey.after f pre).holders.get? x).bind f.book.get?).filter fun l =>
        f.pointAfter pre < l.last).toList := by
  have hin := h.inStep_of_reach hops hw
  have hsub : (w.ledger.heldAt x []).Sublist f.book.loans := by
    rw [Ledger.heldAt, List.append_nil, hin.outstanding]
    exact List.filter_sublist.trans LoanBook.standing_sublist
  refine eq_toList_of_mem_iff ?_ fun l => ?_
  · refine (f.pairwise_id.sublist hsub).imp fun {l m} hlt heq => ?_
    rw [heq] at hlt
    exact Nat.lt_irrefl m.id hlt
  · exact (h.traced_of_reach hops hw).mem_heldAt_iff (c := f.context policy) hin f.book_sound
      (Survey.sound_after f pre) (Function.recorded_after hops) href

namespace Cursor

/-! ### The function -/

/-- The variable that holds the reference to the current node. -/
def place : Place :=
  { base := "cur" }

/-- What the reference to the next node is kept in. -/
def next : Place :=
  place.deref.field "next"

/-- `borrow cur = &mut (*cur).next` -/
def advance (p : Point) : Operation :=
  .borrow p .exclusive place next

/-- The function that receives a cursor, advances it at the points `ps`, writes through it at `q`
and reads through it at `r`. -/
def function (n : String) (ps : List Point) (q r : Point) : Function where
  name := n
  params := [{ name := "cur", ty := .mk "Node" [] (some .exclusive) }]
  ops := ps.map advance ++ [.assign q place.deref [], .deref r place]

/-- The storage of the caller that the cursor points at after `k` advances. -/
def ahead (k : Nat) : Place :=
  (Place.ofCaller "cur").append (List.replicate k (.field "next"))

theorem ahead_succ (k : Nat) : (ahead k).append [.field "next"] = ahead (k + 1) := by
  simp [ahead, Place.append, Place.ofCaller, List.replicate_succ']

theorem throughRef_ahead (k : Nat) : (ahead k).throughRef = false := by
  simp [ahead, Place.append, Place.ofCaller, Place.throughRef, Proj.isDeref]

theorem overlaps_ahead (k : Nat) : (ahead k).overlaps place = false := by
  simp [ahead, Place.append, Place.ofCaller, Place.overlaps, place]

/-! ### The loans -/

/-- The loan that the cursor is advanced by, when `k` advances were made before. -/
def taken (k : Nat) (p : Point) : Borrow where
  borrower := some place
  kind := .exclusive
  origin := p
  target := ahead (k + 1)
  via := next
  parent := some k

/-- What is known of a cursor after `k` **advances**: each loan lends what the one before it leads
to, and the newest one is held. -/
structure Advanced (k : Nat) (s : Survey) : Prop where
  holders : s.holders.toList = [(place, k)]
  length : s.borrows.length = k + 1
  borrow : ∀ i b, s.borrows[i]? = some b → b.borrower = some place ∧ b.kind = .exclusive ∧
    b.target = ahead i ∧ b.parent = if i = 0 then none else some (i - 1)

variable {k : Nat} {s : Survey} {p : Point}

theorem Advanced.touch (h : Advanced k s) (x : Place) : Advanced k (s.touch x p) :=
  ⟨h.holders, h.length, h.borrow⟩

theorem Advanced.get?_holders (h : Advanced k s) : s.holders.get? place = some k := by
  rw [Place.Map.get?, h.holders]
  rfl

/-- The next node is lent through the newest loan. -/
theorem Advanced.referent (h : Advanced k s) : s.referent next = (ahead (k + 1), some k) := by
  have hlt : k < s.borrows.length := by rw [h.length]; exact Nat.lt_succ_self k
  have hb := List.getElem?_eq_getElem hlt
  have hcut : next.cut? = some (place, [.field "next"]) := rfl
  rw [Survey.referent, Survey.referentBelow, hcut]
  simp only [h.get?_holders, hlt, if_true, hb, (h.borrow k _ hb).2.2.1, ahead_succ,
    throughRef_ahead, Bool.false_eq_true, if_false]

/-- **One advance** takes one loan. -/
theorem Advanced.borrows_observe (h : Advanced k s) :
    (s.observe (advance p)).borrows = s.borrows ++ [taken k p] := by
  have hborrow : (s.touch next p).borrowOf (some place) .exclusive next p = taken k p := by
    rw [Survey.borrowOf, (h.touch next).referent]
    rfl
  show s.borrows ++ [(s.touch next p).borrowOf (some place) .exclusive next p] = _
  rw [hborrow]

theorem Advanced.observe (h : Advanced k s) : Advanced (k + 1) (s.observe (advance p)) := by
  refine ⟨?_, ?_, fun i b hb => ?_⟩
  · show ((s.holders.keepKeys fun y => !place.isPrefixOf y).put place s.borrows.length).toList = _
    rw [Place.Map.keepKeys, h.holders, h.length]
    rfl
  · rw [h.borrows_observe, List.length_append, h.length]
    rfl
  · rw [h.borrows_observe] at hb
    rcases Nat.lt_trichotomy i s.borrows.length with hlt | rfl | hgt
    · rw [List.getElem?_append_left hlt] at hb
      exact h.borrow i b hb
    · rw [List.getElem?_concat_length, Option.some.injEq] at hb
      rw [← hb, h.length]
      exact ⟨rfl, rfl, rfl, rfl⟩
    · rw [List.getElem?_eq_none (by rw [List.length_append]; exact hgt)] at hb
      cases hb

/-! ### The loans of the function -/

variable {n : String} {ps : List Point} {q r : Point}

theorem advanced_after (qs : List Point) :
    Advanced qs.length (Survey.after (function n ps q r) (qs.map advance)) := by
  induction qs using List.reverseRecOn with
  | nil =>
    refine ⟨rfl, rfl, fun i b hb => ?_⟩
    cases i with
    | zero =>
      obtain rfl := Option.some.inj hb
      exact ⟨rfl, rfl, rfl, rfl⟩
    | succ i => cases hb
  | append_singleton qs p ih =>
    rw [List.map_append, List.length_append]
    exact Survey.after_concat (function n ps q r) (qs.map advance) (advance p) ▸ ih.observe

/-- The write through the cursor takes no loan. -/
theorem advanced_write :
    Advanced ps.length
      (Survey.after (function n ps q r) (ps.map advance ++ [.assign q place.deref []])) := by
  rw [Survey.after_concat]
  exact (advanced_after ps).touch place

theorem ops_eq : (function n ps q r).ops =
    (ps.map advance ++ [.assign q place.deref []]) ++ [.deref r place] :=
  List.append_cons _ _ _

theorem advanced_ops :
    Advanced ps.length (Survey.after (function n ps q r) (function n ps q r).ops) := by
  rw [ops_eq, Survey.after_concat]
  exact advanced_write.touch place

theorem length_loans : (function n ps q r).book.loans.length = ps.length + 1 := by
  rw [Function.book, Survey.length_book, advanced_ops.length]

theorem loan_eq {i : Nat} {l : Loan} (hl : (function n ps q r).book.get? i = some l) :
    l.borrower = some place ∧ l.kind = .exclusive ∧ l.target = ahead i ∧
      l.parent = if i = 0 then none else some (i - 1) := by
  obtain ⟨b, hb, rfl, -, -⟩ := Survey.exists_of_book_get? hl
  exact advanced_ops.borrow i _ hb

theorem loan_of_mem {l : Loan} (hl : l ∈ (function n ps q r).book.loans) :
    l.borrower = some place ∧ l.kind = .exclusive ∧ l.target = ahead l.id ∧
      l.parent = if l.id = 0 then none else some (l.id - 1) :=
  loan_eq ((function n ps q r).book_sound.get?_id hl)

theorem exists_loan {i : Nat} (hi : i ≤ ps.length) :
    ∃ l, (function n ps q r).book.get? i = some l :=
  ⟨_, List.getElem?_eq_getElem (by rw [length_loans]; exact Nat.lt_succ_of_le hi)⟩

/-- Every loan is taken through all the older ones. -/
theorem mem_lineageFrom {i j : Nat} (hi : i ≤ ps.length) (hj : j < i) :
    j ∈ (function n ps q r).book.lineageFrom i := by
  induction i with
  | zero => cases hj
  | succ i ih =>
    obtain ⟨l, hl⟩ := exists_loan (n := n) (q := q) (r := r) hi
    have hparent : l.parent = some i := (loan_eq hl).2.2.2
    rw [LoanBook.lineageFrom, hl, Option.bind_some, hparent]
    simp only [Nat.lt_succ_self, if_true, List.mem_cons]
    exact (Nat.lt_succ_iff_lt_or_eq.mp hj).symm.imp_right (ih (Nat.le_of_succ_le hi))

/-- The newest loan is used at the end, and each lasts as long as the one that was taken through
it. -/
theorem le_last {i : Nat} (hi : i ≤ ps.length) {l : Loan}
    (hl : (function n ps q r).book.get? i = some l) : r ≤ l.last := by
  induction hi using Nat.decreasingInduction generalizing l with
  | self =>
    refine Function.le_last_of_touches ops_eq (x := place) List.mem_cons_self
      (e := (place, ps.length)) ?_ rfl hl
    rw [advanced_write.holders]
    exact List.mem_singleton_self _
  | of_succ i hi ih =>
    obtain ⟨m, hm⟩ := exists_loan (n := n) (q := q) (r := r) (Nat.succ_le_of_lt hi)
    obtain ⟨-, a, ha, hle⟩ := (function n ps q r).book_sound.parent m (LoanBook.mem_of_get? hm) i
      (loan_eq hm).2.2.2
    obtain rfl : a = l := Option.some.inj (ha.symm.trans hl)
    exact le_trans (ih hm) hle

section Increasing

variable (h : (ps ++ [q, r]).Pairwise (· < ·))

include h

theorem ordered : (function n ps q r).Ordered := by
  have hpoints : (function n ps q r).ops.map (·.point) = ps ++ [q, r] := by
    simp [function, advance, Function.comp_def, Operation.borrow, Operation.assign,
      Operation.deref]
  rw [← hpoints, List.pairwise_map] at h
  exact h

/-- **All loans last until the end.** -/
theorem last_eq {l : Loan} (hl : l ∈ (function n ps q r).book.loans) : l.last = r := by
  have hord := ordered (n := n) h
  have hread : .deref r place ∈ (function n ps q r).ops := by
    rw [ops_eq]
    exact List.mem_append_right _ List.mem_cons_self
  refine le_antisymm ?_ ?_
  · rcases Function.last_cases hl with hentry | ⟨op, hop, hpoint⟩
    · rw [hentry]
      exact le_of_lt (hord.entry_lt hread)
    · rw [ops_eq, List.mem_append, List.mem_singleton] at hop
      rw [← hpoint]
      rcases hop with hop | rfl
      · exact le_of_lt (hord.before ops_eq op hop)
      · exact le_refl _
  · have hget := (function n ps q r).book_sound.get?_id hl
    have hlt := (List.getElem?_eq_some_iff.mp hget).1
    rw [length_loans] at hlt
    exact le_last (Nat.le_of_lt_succ hlt) hget

end Increasing

/-! ### What the ledger lists -/

/-- The ledger after `k` advances lists no younger loan, and all but the newest one are
**released**. -/
structure Lists (b : LoanBook) (k : Nat) (l : Ledger) : Prop where
  known : ∀ loan ∈ l.outstanding, loan ∈ b.loans ∧ loan.id ≤ k
  held : ∀ loan ∈ l.outstanding, loan.id ∉ l.released → loan.id = k

variable {policy : Policy} {pre post : List Operation} {w : Walk.State} {l : Loan}

theorem lists_of_reach (hord : (function n ps q r).Ordered)
    (hops : (function n ps q r).ops = pre ++ post)
    (hs : Advanced k (Survey.after (function n ps q r) pre))
    (hw : (function n ps q r).reach policy pre = .ok w) :
    Lists (function n ps q r).book k w.ledger := by
  have hin := hord.inStep_of_reach hops hw
  have hmem := fun l => hin.mem_outstanding (function n ps q r).book_sound (l := l)
  refine ⟨fun l hl => ?_, fun l hl hnot => ?_⟩
  · obtain ⟨hbook, hid, -, -⟩ := (hmem l).mp hl
    rw [hs.length] at hid
    exact ⟨hbook, Nat.le_of_lt_succ hid⟩
  · have hget := (hord.traced_of_reach hops hw).held l hl place
      (loan_of_mem ((hmem l).mp hl).1).1 rfl hnot
    rw [hs.get?_holders, Option.some.injEq] at hget
    exact hget.symm

/-- Nothing was taken through a loan that is held. -/
theorem Lists.reborrows_eq_nil {b : LoanBook} {m : Ledger} (h : Lists b k m)
    (hl : l ∈ m.outstanding) (hnot : l.id ∉ m.released) : m.reborrows b l = [] := by
  rw [Ledger.reborrows, List.filter_eq_nil_iff]
  intro other hother
  rw [Bool.and_eq_true, List.contains_iff_mem]
  rintro ⟨-, hlineage⟩
  have hlt := LoanBook.lt_of_mem_lineageFrom hlineage
  rw [h.held l hl hnot] at hlt
  exact absurd (h.known other hother).2 (Nat.not_le_of_lt hlt)

theorem not_mem_released {m : Ledger} {test : Place → Bool} (h : m.isHeldAt test l = true) :
    l.id ∉ m.released := by
  unfold Ledger.isHeldAt at h
  split at h
  next => cases h
  next => simp_all

/-! ### The walk -/

/-- The store: a variable that has a value and is never lent, moved or declared anew. -/
def declared : Store where
  cells := { toList := [(place, {})] }
  types := [("cur", .mk "Node" [] (some .exclusive))]
  scopes := Scopes.declare {} "cur"

/-- No loan lends the cursor itself. -/
theorem freeToMove {m : Ledger}
    (h : ∀ loan ∈ m.outstanding, loan ∈ (function n ps q r).book.loans) :
    m.FreeToMove place p := by
  intro loan hloan hover
  rw [(loan_of_mem (h loan hloan)).2.2.1, overlaps_ahead] at hover
  cases hover

/-- The cursor can be read. -/
theorem read_place (hlists : Lists (function n ps q r).book k w.ledger)
    (hstore : w.store = declared) :
    Walk.read ((function n ps q r).context policy) w place p = .ok () := by
  rw [Walk.read_eq_ok_iff, hstore]
  refine ⟨rfl, rfl, (freeToMove fun l hl => (hlists.known l hl).1).freeToRead, ?_⟩
  rw [Walk.reborrowed?, Option.map_eq_none_iff, List.find?_eq_none]
  intro other hother
  obtain ⟨l, hl, hmem⟩ := List.mem_flatMap.mp hother
  obtain ⟨hout, hheld⟩ := List.mem_filter.mp hl
  rw [Function.context, hlists.reborrows_eq_nil hout (not_mem_released hheld)] at hmem
  cases hmem

/-- The next loan is opened: it is taken through all that are outstanding. -/
theorem lend_next (hlists : Lists (function n ps q r).book k w.ledger) (hstore : w.store = declared)
    (hl : (function n ps q r).book.get? (k + 1) = some l)
    (hdue : w.ledger.due? (function n ps q r).book (some place) next .exclusive p = some l) :
    w.toBooks.lend (function n ps q r).book (some place) next .exclusive p =
      .ok ({ w.toBooks with ledger := w.ledger.record l }, l) := by
  have hlt := (List.getElem?_eq_some_iff.mp hl).1
  rw [length_loans] at hlt
  refine Books.lend_eq_ok_iff.mpr ⟨hdue, ?_, ?_⟩
  · rw [Ledger.excluding?, List.find?_eq_none]
    intro other hother
    have hlineage : other.id ∈ (function n ps q r).book.lineage l := by
      rw [LoanBook.lineage, (function n ps q r).book_sound.id_eq _ _ hl]
      exact mem_lineageFrom (Nat.le_of_lt_succ hlt)
        (Nat.lt_succ_of_le (hlists.known other hother).2)
    simp [hlineage]
  · have hlocal : w.store.isLocal l.target = false := by
      rw [hstore, (loan_eq hl).2.2.1, Store.isLocal, throughRef_ahead]
      rfl
    rw [Store.encumber, hlocal]
    rfl

/-- The cursor can be given a new value. -/
theorem write_place {closed : List Loan}
    (hbook : ∀ loan ∈ w.ledger.outstanding, loan ∈ (function n ps q r).book.loans)
    (hstore : w.store = declared) :
    Walk.write ((function n ps q r).context policy) w closed place p =
      .ok { w with ledger := w.ledger.releaseUnder place p } := by
  refine (Walk.write_eq_ok_iff rfl).mpr ⟨by rw [hstore]; rfl, .inr ⟨?_, rfl, ?_, ?_⟩⟩
  · rintro ⟨-, hawaits⟩
    rw [hstore] at hawaits
    cases hawaits
  · exact fun l hl hover => le_of_lt (freeToMove hbook l hl hover)
  · have hrestore : w.store.restore place = w.store := by
      rw [hstore]
      rfl
    rw [hrestore]

section Steps

variable (h : (ps ++ [q, r]).Pairwise (· < ·))
  (hw : (function n ps q r).reach policy pre = .ok w) (hstore : w.store = declared)
  (hret : w.returned = none)

include h hw hstore hret

/-- **One advance** does not stop the walk. -/
theorem exists_step_advance (hops : (function n ps q r).ops = pre ++ advance p :: post)
    (hp : p < r) (hs : Advanced k (Survey.after (function n ps q r) pre)) :
    ∃ v, Walk.step ((function n ps q r).context policy) w (advance p) = .ok v ∧
      v.store = declared ∧ v.returned = none := by
  have hord := ordered (n := n) h
  have hlists := lists_of_reach hord hops hs hw
  have hturn := hord.turn hops
  obtain ⟨l, hl, -, hdue⟩ := (hord.inStep_of_reach hops hw).exists_due hturn.book hturn.recorded
    hs.borrows_observe
  rw [hs.length] at hl
  let u : Walk.State := { w with ledger := w.ledger.record l }
  have hborrow : Walk.borrow ((function n ps q r).context policy) w (some place) .exclusive next p =
      .ok u :=
    Walk.borrow_eq_ok_iff.mpr ⟨by rw [hstore]; rfl, fun _ => read_place hlists hstore,
      fun href => (by cases href), _, l, lend_next hlists hstore hl hdue, rfl⟩
  have hbook : ∀ m ∈ u.ledger.outstanding, m ∈ (function n ps q r).book.loans := by
    intro m hm
    rcases List.mem_append.mp hm with hm | hm
    · exact (hlists.known m hm).1
    · rw [List.mem_singleton.mp hm]
      exact LoanBook.mem_of_get? hl
  have hlast : ∀ m ∈ u.ledger.outstanding, p < m.last := fun m hm => by
    rw [last_eq h (hbook m hm)]
    exact hp
  have hbefore : Walk.settled w p false = w :=
    Walk.settled_eq_self fun m hm => .inl (hlast m (List.mem_append_left _ hm))
  have hafter : Walk.settled u p true = u := Walk.settled_eq_self fun m hm => .inl (hlast m hm)
  have hperform : Walk.perform ((function n ps q r).context policy) (Walk.settled w p false) p
      (.borrow .exclusive place next) = .ok (u, some place) := by
    rw [hbefore]
    exact check_bind_eq_ok_iff.mpr ⟨Store.ensureInScope_eq_ok_iff.mpr (by rw [hstore]; rfl),
      bind_eq_ok_iff.mpr ⟨u, hborrow, rfl⟩⟩
  have hwrite : Walk.write ((function n ps q r).context policy) (Walk.settled u p true)
      (u.toBooks.settle p true).2 place p =
        .ok { u with ledger := u.ledger.releaseUnder place p } := by
    rw [hafter]
    exact write_place hbook hstore
  exact ⟨_, Walk.step_eq_ok hret rfl hperform (.inr ⟨place, rfl, hwrite⟩), hstore, hret⟩

/-- The write through the cursor does not stop the walk. -/
theorem exists_step_assign
    (hops : (function n ps q r).ops = pre ++ .assign p place.deref [] :: post)
    (hp : p < r) (hs : Advanced k (Survey.after (function n ps q r) pre)) :
    ∃ v, Walk.step ((function n ps q r).context policy) w (.assign p place.deref []) = .ok v ∧
      v.store = declared ∧ v.returned = none := by
  have hlists := lists_of_reach (ordered h) hops hs hw
  have hlast : ∀ m ∈ w.ledger.outstanding, p < m.last := fun m hm => by
    rw [last_eq h (hlists.known m hm).1]
    exact hp
  have hsettled : ∀ inclusive, Walk.settled w p inclusive = w := fun _ =>
    Walk.settled_eq_self fun m hm => .inl (hlast m hm)
  have hclosed : (w.toBooks.settle p true).2 = [] :=
    Ledger.expired_eq_nil fun m hm => .inl (hlast m hm)
  have hwrite : Walk.write ((function n ps q r).context policy) (Walk.settled w p true)
      (w.toBooks.settle p true).2 place.deref p = .ok w := by
    rw [hsettled, hclosed, Walk.write_eq_ok_iff_writeBehind rfl, Walk.writeBehind_eq_ok_iff]
    refine ⟨by rw [hstore]; rfl, ⟨read_place hlists hstore, fun _ => by rw [hstore]; rfl, ?_⟩, rfl⟩
    intro l hl
    rw [Ledger.heldAt, List.append_nil, List.mem_filter] at hl
    refine ⟨?_, fun other hother => ?_⟩
    · rw [Loan.isExclusive, (loan_of_mem (hlists.known l hl.1).1).2.1]
      rfl
    · rw [Function.context, hlists.reborrows_eq_nil hl.1 (not_mem_released hl.2)] at hother
      cases hother
  have hperform : Walk.perform ((function n ps q r).context policy) (Walk.settled w p false) p
      (.assign place.deref []) = .ok (w, some place.deref) := by
    rw [hsettled]
    rfl
  exact ⟨w, Walk.step_eq_ok hret rfl hperform (.inr ⟨_, rfl, hwrite⟩), hstore, hret⟩

/-- The read through the cursor does not stop the walk. -/
theorem exists_step_deref (hops : (function n ps q r).ops = pre ++ .deref p place :: post)
    (hp : p ≤ r) (hs : Advanced k (Survey.after (function n ps q r) pre)) :
    ∃ v, Walk.step ((function n ps q r).context policy) w (.deref p place) = .ok v := by
  have hlists := lists_of_reach (ordered h) hops hs hw
  have hbefore : Walk.settled w p false = w :=
    Walk.settled_eq_self fun m hm => .inr ⟨rfl, by rw [last_eq h (hlists.known m hm).1]; exact hp⟩
  have hperform : Walk.perform ((function n ps q r).context policy) (Walk.settled w p false) p
      (.deref place) = .ok (w, none) := by
    rw [hbefore]
    refine check_bind_eq_ok_iff.mpr ⟨Walk.follow_eq_ok_iff.mpr ⟨read_place hlists hstore, ?_⟩, rfl⟩
    rw [Walk.isReference, hstore, Bool.or_eq_true]
    exact .inr rfl
  exact ⟨_, Walk.step_eq_ok hret rfl hperform (.inl ⟨rfl, rfl⟩)⟩

end Steps

/-- **The cursor can be advanced any number of times.** -/
theorem exists_reach (h : (ps ++ [q, r]).Pairwise (· < ·)) {qs rest : List Point}
    (hps : ps = qs ++ rest) :
    ∃ w, (function n ps q r).reach policy (qs.map advance) = .ok w ∧ w.store = declared ∧
      w.returned = none := by
  induction qs using List.reverseRecOn generalizing rest with
  | nil => exact ⟨(function n ps q r).start declared, rfl, rfl, rfl⟩
  | append_singleton qs p ih =>
    rw [List.append_assoc] at hps
    obtain ⟨w, hw, hstore, hret⟩ := ih hps
    have hops : (function n ps q r).ops = qs.map advance ++ advance p ::
        (rest.map advance ++ [.assign q place.deref [], .deref r place]) := by
      rw [function, hps]
      simp
    have hp : p < r := (List.pairwise_append.mp h).2.2 p (by rw [hps]; simp) r (by simp)
    obtain ⟨v, hstep, hstore', hret'⟩ := exists_step_advance h hw hstore hret hops hp
      (advanced_after qs)
    rw [List.map_append]
    exact ⟨v, Function.reach_concat_eq_ok_iff.mpr ⟨w, hw, hstep⟩, hstore', hret'⟩

theorem accepted (h : (ps ++ [q, r]).Pairwise (· < ·)) :
    (function n ps q r).Accepted policy := by
  obtain ⟨w, hw, hstore, hret⟩ := exists_reach h (List.append_nil ps).symm
  have hqr : q < r := by
    have hend := (List.pairwise_append.mp h).2.1
    simpa using hend
  obtain ⟨v, hassign, hstore', hret'⟩ := exists_step_assign h hw hstore hret rfl hqr
    (advanced_after ps)
  have hv := Function.reach_concat_eq_ok_iff.mpr ⟨w, hw, hassign⟩
  obtain ⟨u, hderef⟩ := exists_step_deref h hv hstore' hret' ops_eq (le_refl r) advanced_write
  refine Function.accepted_iff.mpr ⟨(ordered h).disorder?_eq_none, u, ?_⟩
  rw [ops_eq]
  exact Function.reach_concat_eq_ok_iff.mpr ⟨v, hv, hderef⟩

/-! ### The states in between -/

theorem take_ops : (function n ps q r).ops.take (ps.length + 1) =
    ps.map advance ++ [.assign q place.deref []] := by
  rw [ops_eq, List.take_left' (by simp)]

/-- After `i + 1` operations the cursor was advanced as many times, as far as there are advances. -/
theorem advanced_take {i : Nat} (hi : i ≤ ps.length) :
    Advanced (min (i + 1) ps.length)
      (Survey.after (function n ps q r) ((function n ps q r).ops.take (i + 1))) := by
  rcases Nat.lt_or_eq_of_le hi with hlt | rfl
  · have htake : (function n ps q r).ops.take (i + 1) = (ps.take (i + 1)).map advance := by
      rw [function, List.take_append_of_le_length (by rw [List.length_map]; exact hlt),
        List.map_take]
    rw [htake, ← List.length_take]
    exact advanced_after _
  · rw [take_ops, Nat.min_eq_right (Nat.le_succ _)]
    exact advanced_write

/-- The function leaves no block. -/
theorem endings_eq_nil {ops : List Operation} (hops : ops ⊆ (function n ps q r).ops) (s : Survey) :
    s.endings ops = [] := by
  refine Survey.endings_eq_nil fun op hop => ?_
  have hmem := hops hop
  simp only [function, List.mem_append, List.mem_map, List.mem_cons, List.not_mem_nil,
    or_false] at hmem
  rcases hmem with ⟨p, -, rfl⟩ | rfl | rfl <;> intro hkind <;> cases hkind

section States

variable {i : Nat} {op : Operation} {t : Walk.State} (h : (ps ++ [q, r]).Pairwise (· < ·))
  (hstep : ((function n ps q r).walk policy).steps[i]? = some (op, t)) (hi : i ≤ ps.length)

include h hstep hi

theorem point_lt : op.point < r := by
  obtain ⟨-, -, htake, -⟩ := Function.reach_of_steps hstep
  have hmem : op ∈ (function n ps q r).ops.take (i + 1) := by
    rw [htake]
    exact List.mem_append_right _ List.mem_cons_self
  have hfront := List.take_subset_take_left _ (Nat.succ_le_succ hi) hmem
  rw [take_ops] at hfront
  exact (ordered (n := n) h).before ops_eq op hfront

/-- The loans that are outstanding are the first ones. -/
theorem outstanding_eq_take :
    t.ledger.outstanding =
      (function n ps q r).book.loans.take (min (i + 1) ps.length + 1) := by
  obtain ⟨-, hops, htake, ht⟩ := Function.reach_of_steps hstep
  have hops' := hops.trans (List.append_cons _ _ _)
  rw [← htake] at hops'
  have hpoint :
      (function n ps q r).pointAfter ((function n ps q r).ops.take (i + 1)) = op.point := by
    rw [htake, Function.pointAfter_concat]
  rw [((ordered h).inStep_of_reach hops' ht).outstanding, (advanced_take hi).length, hpoint,
    endings_eq_nil (List.take_subset _ _), LoanBook.standing, List.filter_eq_self]
  intro l hl
  rw [last_eq h (List.mem_of_mem_take hl)]
  simpa [Loan.lapsed] using point_lt h hstep hi

/-- They are those that were taken so far. -/
theorem outstanding_eq_filter :
    t.ledger.outstanding =
      (function n ps q r).book.loans.filter fun l => l.origin ≤ op.point := by
  obtain ⟨-, hops, htake, -⟩ := Function.reach_of_steps hstep
  rw [outstanding_eq_take h hstep hi, ← (advanced_take hi).length, htake]
  refine ((function n ps q r).book_sound.filter_eq_of_id_iff (m := 0) fun l hl => ?_).symm
  rw [decide_eq_true_eq, (ordered h).origin_le_iff hops hl]
  exact (and_iff_right (Nat.zero_le _)).symm

/-- The cursor holds the newest of them. -/
theorem heldAt_eq : t.ledger.heldAt place [] = t.ledger.outstanding.getLast?.toList := by
  obtain ⟨-, hops, htake, ht⟩ := Function.reach_of_steps hstep
  have hops' := hops.trans (List.append_cons _ _ _)
  have hadvanced := advanced_take (n := n) (q := q) (r := r) hi
  rw [htake] at ht hadvanced
  obtain ⟨l, hl⟩ := exists_loan (n := n) (q := q) (r := r) (Nat.min_le_right (i + 1) ps.length)
  have hlast : op.point < l.last := by
    rw [last_eq h (LoanBook.mem_of_get? hl)]
    exact point_lt h hstep hi
  have hnewest : t.ledger.outstanding.getLast? = some l := by
    rw [outstanding_eq_take h hstep hi, List.getLast?_take, if_neg (Nat.succ_ne_zero _),
      Nat.add_sub_cancel, ← LoanBook.get?, hl, Option.some_or]
  rw [(ordered h).heldAt_of_reach hops' ht rfl, hadvanced.get?_holders, Option.bind_some, hl,
    Function.pointAfter_concat, Option.filter_some, if_pos (decide_eq_true hlast), hnewest]

end States

/-- **A cursor can be advanced through itself any number of times.** The function is accepted; it
takes one loan more than it makes advances, each of what the one before leads to and through it, and
all of them last until the end; and after every operation but the last one all loans that were taken
so far are outstanding, of which the cursor holds the newest. -/
theorem accepted_advancing (n : String) (ps : List Point) (q r : Point) (policy : Policy)
    (h : (ps ++ [q, r]).Pairwise (· < ·)) :
    (function n ps q r).Accepted policy ∧
    ((function n ps q r).book.loans.length = ps.length + 1 ∧
      ∀ i l, (function n ps q r).book.get? i = some l →
        l.borrower = some place ∧
        l.target = (Place.ofCaller "cur").append (List.replicate i (.field "next")) ∧
        l.parent = (if i = 0 then none else some (i - 1)) ∧ l.last = r) ∧
    ((function n ps q r).walk policy).steps.map (·.1) = (function n ps q r).ops ∧
    ∀ i op t, ((function n ps q r).walk policy).steps[i]? = some (op, t) → i ≤ ps.length →
      t.ledger.outstanding =
        ((function n ps q r).book.loans.filter fun l => l.origin ≤ op.point) ∧
      t.ledger.outstanding.length = min (i + 1) ps.length + 1 ∧
      t.ledger.heldAt place [] = t.ledger.outstanding.getLast?.toList := by
  have haccepted : (function n ps q r).Accepted policy := accepted h
  refine ⟨haccepted, ⟨length_loans, fun i l hl => ?_⟩, haccepted.map_fst_steps,
    fun i op t hstep hi => ⟨outstanding_eq_filter h hstep hi, ?_, heldAt_eq h hstep hi⟩⟩
  · obtain ⟨hborrower, -, htarget, hparent⟩ := loan_eq hl
    exact ⟨hborrower, htarget, hparent, last_eq h (LoanBook.mem_of_get? hl)⟩
  · rw [outstanding_eq_take h hstep hi, List.length_take, length_loans]
    omega

/-- A cursor that is advanced three times takes four loans. -/
theorem accepted_advancing_thrice :
    ([1, 2, 3] ++ [4, 5] : List Point).Pairwise (· < ·) ∧
      (function "walk" [1, 2, 3] 4 5).Accepted {} ∧
      (function "walk" [1, 2, 3] 4 5).book.loans.length = 4 ∧
      ((function "walk" [1, 2, 3] 4 5).walk {}).steps.map (·.1) =
        (function "walk" [1, 2, 3] 4 5).ops := by
  have hpoints : ([1, 2, 3] ++ [4, 5] : List Point).Pairwise (· < ·) := by decide
  obtain ⟨haccepted, ⟨hlength, -⟩, hsteps, -⟩ :=
    accepted_advancing "walk" [1, 2, 3] 4 5 {} hpoints
  exact ⟨hpoints, haccepted, hlength, hsteps⟩

end Cursor

end BorrowCheck
