import BorrowCheck.Proofs.Ends
import Mathlib.Data.List.Induction
import Mathlib.Logic.Relation
import Mathlib.Order.Bounds.Defs
import Mathlib.Order.MinMax

/-!
# Loans last exactly as long as they have to

`BorrowCheck.LoanBook.Sound` says that a loan lasts long enough: up to its uses, and as long as the
loans taken through it. This file adds that it lasts no longer. The last point of a loan is the
greatest of the points at which the loan itself, or a loan that was taken through it in any number
of steps, is taken or used (`BorrowCheck.Function.isGreatest_last`). Nothing is assumed about the
function, not even that its points increase.

Two facts make up the new half. When the ends are handed on, every end comes from the own end of
some loan, along a chain of reborrows (`BorrowCheck.Survey.exists_chain_of_handDown`). And the own
end of a loan is its origin or stems from an entry of the log, and the log has an entry only where
an operation touches what the borrower overlaps, or takes a loan through this one
(`BorrowCheck.Survey.origin_of_mem_uses`).
-/

namespace BorrowCheck

/-! ### One entry for a place -/

namespace Place.Map

variable {α : Type} {m : Map α} {x : Place} {a : α} {e : Place × α}

/-- **Keys are distinct**: no two entries are for the same place. -/
def Distinct (m : Map α) : Prop :=
  m.toList.Pairwise fun d e => d.1.same e.1 = false

theorem Distinct.keepKeys (h : m.Distinct) (keep : Place → Bool) : (m.keepKeys keep).Distinct :=
  h.sublist List.filter_sublist

theorem Distinct.put (h : m.Distinct) (x : Place) (a : α) : (m.put x a).Distinct := by
  unfold Map.put
  split
  next =>
    -- the keys are left alone
    refine List.pairwise_map.mpr (h.imp fun {d e} hne => ?_)
    split <;> split <;> exact hne
  next hx =>
    refine List.pairwise_append.mpr ⟨h, List.pairwise_singleton _ _, fun d hd e he => ?_⟩
    rw [List.mem_singleton.mp he, Bool.eq_false_iff]
    exact fun hsame => hx (contains_iff.mpr ⟨d, hd, hsame⟩)

/-- With distinct keys every entry is found. -/
theorem Distinct.get?_of_mem (h : m.Distinct) (he : e ∈ m.toList) (hx : e.1.same x = true) :
    m.get? x = some e.2 := by
  rw [get?, Option.map_eq_some_iff]
  refine ⟨e, List.find?_eq_some_iff_append.mpr ⟨by simpa using hx, ?_⟩, rfl⟩
  obtain ⟨before, after, hsplit⟩ := List.append_of_mem he
  refine ⟨before, after, hsplit, fun d hd => ?_⟩
  rw [Distinct, hsplit, List.pairwise_append] at h
  have hne := h.2.2 d hd e List.mem_cons_self
  rw [Bool.not_eq_true', Bool.eq_false_iff]
  intro hdx
  rw [Place.same_comm] at hx
  rw [Place.same_trans hdx hx] at hne
  cases hne

end Place.Map

namespace Survey

variable {s : Survey} {x : Place} {p : Point}

theorem distinct_write (h : s.holders.Distinct) : (s.write x p).holders.Distinct := by
  unfold write
  split
  · exact h
  · exact h.keepKeys _

theorem distinct_write? (h : s.holders.Distinct) {target : Option Place} :
    (s.write? target p).holders.Distinct := by
  cases target with
  | none => exact h
  | some x => exact distinct_write h

/-- An operation leaves at most one loan at each place. -/
theorem distinct_observe (h : s.holders.Distinct) (op : Operation) :
    (s.observe op).holders.Distinct := by
  simp only [observe]
  split
  · split
    · exact h
    · exact h.keepKeys _
  · exact distinct_write? (by rwa [holders_touchAll])
  · split
    · exact h
    next x _ =>
      simp only [move]
      split
      · exact (distinct_write? (s := s.touch x op.point) h).put _ _
      · exact distinct_write? (s := s.touch x op.point) h
  · split
    next y x _ _ => exact (distinct_write (s := s.touch x op.point) h).put _ _
    · exact h
  · rwa [holders_touchAll]
  · rwa [holders_touchAll]
  · rwa [holders_touchAll]
  · exact distinct_write? (by rwa [holders_passAll])
  · exact h
  · unfold exit
    split
    · exact h
    · exact h.keepKeys _
  · exact h

/-- **A place holds at most one loan**, at every point of a body. -/
theorem distinct_after (f : Function) (ops : List Operation) :
    (after f ops).holders.Distinct := by
  refine List.foldlRecOn (motive := fun s => s.holders.Distinct) ops observe ?_
    fun s hs op _ => distinct_observe hs op
  have hempty : ({} : Survey).holders.Distinct := List.Pairwise.nil
  refine List.foldlRecOn (motive := fun s => s.holders.Distinct) f.params (receive f.entry) hempty
    fun s hs param _ => ?_
  unfold receive
  split
  · exact hs
  · exact hs.put _ _

/-! ### Where an end comes from -/

/-- **Every end comes along a chain of reborrows**: once the loans `bs` have handed on their ends,
each end is one that there was at first, of a loan from which parents lead to this one. -/
theorem exists_chain_of_handDown {bs : List Borrow} {k i : Nat} {ends : List Point}
    {R : Nat → Nat → Prop} (hparent : ∀ j b q, bs[j]? = some b → b.parent = some q → R (k + j) q)
    (hlen : k + bs.length ≤ ends.length) (hi : i < ends.length) :
    ∃ j, Relation.ReflTransGen R j i ∧ j < ends.length ∧
      (handDown bs k ends).getD i 0 = ends.getD j 0 := by
  induction bs generalizing k i with
  | nil => exact ⟨i, .refl, hi, rfl⟩
  | cons b bs ih =>
    rw [List.length_cons] at hlen
    have hk : k < ends.length := by omega
    have hparent' : ∀ j a q, bs[j]? = some a → a.parent = some q → R (k + 1 + j) q := by
      intro j a q ha hq
      rw [Nat.add_right_comm]
      exact hparent (j + 1) a q ha hq
    have hrest := ih hparent' (by omega) hi
    rw [handDown_cons, getD_handOn (by simpa using hi) (by simpa using hk)]
    split
    next hq =>
      -- the first loan hands its end on to loan `i`, which keeps the greater one
      rcases max_choice ((handDown bs (k + 1) ends).getD i 0)
        ((handDown bs (k + 1) ends).getD k 0) with hmax | hmax
      · rw [hmax]
        exact hrest
      · rw [hmax]
        obtain ⟨j, hchain, hj, heq⟩ := ih hparent' (by omega) hk
        exact ⟨j, hchain.tail (hparent 0 b i rfl hq), hj, heq⟩
    next => exact hrest

/-- The end of a loan is the own end of a loan from which parents lead to it. -/
theorem exists_chain_of_ends {i : Nat} {b : Borrow} {R : Nat → Nat → Prop}
    (hparent : ∀ j c q, s.borrows[j]? = some c → c.parent = some q → R j q)
    (hb : s.borrows[i]? = some b) :
    ∃ j c, s.borrows[j]? = some c ∧ Relation.ReflTransGen R j i ∧
      s.ends.getD i 0 = s.ownEnd j c := by
  have hi := (List.getElem?_eq_some_iff.mp hb).1
  have hparent' : ∀ j c q, s.borrows[j]? = some c → c.parent = some q → R (0 + j) q := by
    simpa using hparent
  have hlen : (s.borrows.zipIdx.map fun e => s.ownEnd e.2 e.1).length = s.borrows.length := by simp
  obtain ⟨j, hchain, hj, hend⟩ :=
    exists_chain_of_handDown hparent' (by rw [hlen, Nat.zero_add]) (hi.trans_eq hlen.symm)
  have hc := List.getElem?_eq_getElem (hj.trans_eq hlen)
  refine ⟨j, _, hc, hchain, ?_⟩
  rw [ends_eq, hend, getD_ownEnds hc]

/-- The greatest of some points is one of them. -/
theorem foldl_max_mem (us : List (Nat × Point)) (q : Point) :
    us.foldl (fun p u => max p u.2) q = q ∨
      ∃ u ∈ us, us.foldl (fun p u => max p u.2) q = u.2 := by
  induction us generalizing q with
  | nil => exact Or.inl rfl
  | cons v us ih =>
    rcases ih (max q v.2) with hstart | ⟨u, hu, hmax⟩
    · rcases max_choice q v.2 with hq | hv
      · exact Or.inl (hstart.trans hq)
      · exact Or.inr ⟨v, List.mem_cons_self, hstart.trans hv⟩
    · exact Or.inr ⟨u, List.mem_cons_of_mem v hu, hmax⟩

/-- The own end of a loan is its origin, or the point of a use. -/
theorem ownEnd_cases (s : Survey) (i : Nat) (b : Borrow) :
    s.ownEnd i b = b.origin ∨ (i, s.ownEnd i b) ∈ s.uses := by
  unfold ownEnd
  split
  · exact Or.inl rfl
  · refine (foldl_max_mem _ b.origin).imp_right fun ⟨u, hu, hmax⟩ => ?_
    obtain ⟨hmem, hid⟩ := List.mem_filter.mp hu
    rw [hmax]
    obtain rfl : u.1 = i := by simpa using hid
    exact hmem

/-- **What the log has an entry for**: an operation of the body touched what the borrower overlaps,
while it held the loan, or a loan was taken through this one at that point. -/
theorem origin_of_mem_uses {f : Function} {ops : List Operation} {u : Nat × Point}
    (hu : u ∈ (after f ops).uses) :
    (∃ pre op post, ops = pre ++ op :: post ∧ op.point = u.2 ∧ (after f pre).Uses op.touches u.1) ∨
      ∃ b ∈ (after f ops).borrows, b.parent = some u.1 ∧ b.origin = u.2 := by
  induction ops using List.reverseRecOn with
  | nil =>
    rw [after, List.foldl_nil, uses_receive] at hu
    cases hu
  | append_singleton ops op ih =>
    rw [after_concat] at hu ⊢
    rcases cases_of_mem_uses hu with hold | ⟨hpoint, huses | ⟨-, hchild⟩⟩
    · rcases ih hold with ⟨pre, o, post, rfl, hpoint, huses⟩ | ⟨b, hb, hparent⟩
      · exact Or.inl ⟨pre, o, post ++ [op], by simp, hpoint, huses⟩
      · obtain ⟨new, hnew, -⟩ := (grows_observe (after f ops) op).borrows
        rw [hnew]
        exact Or.inr ⟨b, List.mem_append_left _ hb, hparent⟩
    · exact Or.inl ⟨ops, op, [], rfl, hpoint.symm, huses⟩
    · rw [hpoint]
      exact Or.inr hchild

end Survey

/-! ### The last point of a loan -/

/-- Loan `i` of the book was **taken through** loan `q`. -/
def LoanBook.Through (b : LoanBook) (i q : Nat) : Prop :=
  ∃ l, b.get? i = some l ∧ l.parent = some q

/-- Loans last as long as all that were taken through them, in any number of steps. -/
theorem LoanBook.Sound.last_le_of_chain {b : LoanBook} (hb : b.Sound) {i j : Nat}
    (h : Relation.ReflTransGen b.Through i j) {d l : Loan} (hd : b.get? i = some d)
    (hl : b.get? j = some l) : d.last ≤ l.last := by
  induction h generalizing l with
  | refl =>
    obtain rfl : d = l := Option.some.inj (hd.symm.trans hl)
    exact le_refl _
  | tail _ hstep ih =>
    obtain ⟨c, hc, hparent⟩ := hstep
    obtain ⟨-, l', hl', hle⟩ := hb.parent c (mem_of_get? hc) _ hparent
    obtain rfl : l' = l := Option.some.inj (hl'.symm.trans hl)
    exact le_trans (ih hc) hle

namespace Function

variable {f : Function} {d l : Loan} {q : Point}

/-- The loan `d` is **used directly** at `q`: an operation at `q` touches a place that the borrower
of `d` overlaps, and at that time `d` is the loan that its borrower holds. A loan for the length of
a call has no borrower and is never used. -/
def UsedAt (f : Function) (d : Loan) (q : Point) : Prop :=
  ∃ pre op post x y, f.ops = pre ++ op :: post ∧ op.point = q ∧ x ∈ op.touches ∧
    d.borrower = some y ∧ y.overlaps x = true ∧
    (Survey.after f pre).holders.get? y = some d.id

/-- A loan lasts up to its direct uses. -/
theorem UsedAt.le_last (h : f.UsedAt d q) (hd : d ∈ f.book.loans) : q ≤ d.last := by
  obtain ⟨pre, op, post, x, y, hops, rfl, hx, -, hover, hget⟩ := h
  obtain ⟨e, he, hsame, hid⟩ := Place.Map.exists_mem_of_get? hget
  refine le_last_of_touches hops hx he ?_ (by rw [hid]; exact f.book_sound.get?_id hd)
  rwa [Place.overlaps_comm, Place.overlaps_congr hsame, Place.overlaps_comm]

/-- What touches a borrower uses the loan that it holds directly. -/
theorem usedAt_of_uses {pre post : List Operation} {op : Operation}
    (hops : f.ops = pre ++ op :: post) (hq : op.point = q) (hd : d ∈ f.book.loans)
    (h : (Survey.after f pre).Uses op.touches d.id) : f.UsedAt d q := by
  obtain ⟨x, hx, e, he, hid, hover⟩ := h
  obtain ⟨d', y, hd', hy, hsame⟩ :=
    (recorded_after hops).exists_of_held (Survey.sound_after f pre) he
  rw [hid, f.book_sound.get?_id hd, Option.some.injEq] at hd'
  subst hd'
  refine ⟨pre, op, post, x, y, hops, hq, hx, hy, ?_, ?_⟩
  · rwa [Place.overlaps_comm, ← Place.overlaps_congr hsame, Place.overlaps_comm]
  · rw [(Survey.distinct_after f pre).get?_of_mem he hsame, hid]

/-- The loans that the survey of the body has taken stand in the book. -/
theorem exists_loan_of_getElem? {j : Nat} {b : Borrow}
    (h : (Survey.after f f.ops).borrows[j]? = some b) :
    ∃ d ∈ f.book.loans, d.id = j ∧ d.toBorrow = b := by
  obtain ⟨d, hd, hdb⟩ := (Survey.sound_after f f.ops).recordedBy.loan j b h
  exact ⟨d, LoanBook.mem_of_get? hd, f.book_sound.id_eq j d hd, hdb⟩

/-- A loan ends with the own end of a loan from which a chain leads to it. -/
theorem exists_chain_of_last (hl : l ∈ f.book.loans) :
    ∃ d ∈ f.book.loans, Relation.ReflTransGen f.book.Through d.id l.id ∧
      l.last = (Survey.after f f.ops).ownEnd d.id d.toBorrow := by
  obtain ⟨b, hb, -, -, hlast⟩ := Survey.exists_of_book_get? (f.book_sound.get?_id hl)
  have hthrough : ∀ j c q, (Survey.after f f.ops).borrows[j]? = some c → c.parent = some q →
      f.book.Through j q := by
    intro j c q hc hq
    obtain ⟨d, hd, rfl, rfl⟩ := exists_loan_of_getElem? hc
    exact ⟨d, f.book_sound.get?_id hd, hq⟩
  obtain ⟨j, c, hc, hchain, hend⟩ := Survey.exists_chain_of_ends hthrough hb
  obtain ⟨d, hd, rfl, rfl⟩ := exists_loan_of_getElem? hc
  exact ⟨d, hd, hchain, hlast.trans hend⟩

/-- **Loans last exactly as long as they have to.** The last point of a loan is the greatest of the
points at which it, or a loan from which a chain of reborrows leads to it, was taken or is used
directly. -/
theorem isGreatest_last (f : Function) {l : Loan} (hl : l ∈ f.book.loans) :
    IsGreatest {q | ∃ d ∈ f.book.loans, Relation.ReflTransGen f.book.Through d.id l.id ∧
      (q = d.origin ∨ f.UsedAt d q)} l.last := by
  have hb := f.book_sound
  have hmono : ∀ d ∈ f.book.loans, Relation.ReflTransGen f.book.Through d.id l.id →
      d.last ≤ l.last := fun d hd hchain =>
    hb.last_le_of_chain hchain (hb.get?_id hd) (hb.get?_id hl)
  constructor
  · obtain ⟨d, hd, hchain, hend⟩ := exists_chain_of_last hl
    rcases Survey.ownEnd_cases (Survey.after f f.ops) d.id d.toBorrow with horigin | huse
    · exact ⟨d, hd, hchain, Or.inl (hend.trans horigin)⟩
    · rw [← hend] at huse
      rcases Survey.origin_of_mem_uses huse with
        ⟨pre, op, post, hops, hpoint, huses⟩ | ⟨b, hmem, hparent, horigin⟩
      · exact ⟨d, hd, hchain, Or.inr (usedAt_of_uses hops hpoint hd huses)⟩
      · -- the use is that a loan was taken through `d`, at its own origin
        obtain ⟨j, hj⟩ := List.mem_iff_getElem?.mp hmem
        obtain ⟨c, hc, -, rfl⟩ := exists_loan_of_getElem? hj
        exact ⟨c, hc, hchain.head ⟨c, hb.get?_id hc, hparent⟩, Or.inl horigin.symm⟩
  · rintro q ⟨d, hd, hchain, rfl | hused⟩
    · exact le_trans (hb.origin_le_last d hd) (hmono d hd hchain)
    · exact le_trans (hused.le_last hd) (hmono d hd hchain)

/-- A function that reborrows `r` for `q` and `q` for `t`, has `r` point at `u`, and uses all three,
at points that do not increase. -/
def lendsDown : Function where
  name := "f"
  ops :=
    [.declare 1 { base := "s" } (.named "T"), .declare 2 { base := "u" } (.named "T"),
      .declare 3 { base := "r" } (.named "R"), .declare 4 { base := "q" } (.named "R"),
      .declare 5 { base := "t" } (.named "R"), .borrow 6 .shared { base := "r" } { base := "s" },
      .borrow 7 .shared { base := "q" } (Place.deref { base := "r" }),
      .borrow 8 .shared { base := "t" } (Place.deref { base := "q" }),
      .borrow 9 .shared { base := "r" } { base := "u" }, .deref 20 { base := "t" },
      .deref 13 { base := "q" }, .deref 21 { base := "r" }]

/-- The loan of `s` to `r` in `BorrowCheck.Function.lendsDown`. -/
def loanAtTop : Loan where
  borrower := some { base := "r" }
  kind := .shared
  origin := 6
  target := { base := "s" }
  via := { base := "s" }
  id := 0
  last := 20

/-- The loan of `s` lasts for the use of `t`, two reborrows further on. By the use of `r` at 21 it
is no longer the loan that `r` holds. -/
theorem isGreatest_last_lendsDown :
    loanAtTop ∈ lendsDown.book.loans ∧
      IsGreatest {q | ∃ d ∈ lendsDown.book.loans,
        Relation.ReflTransGen lendsDown.book.Through d.id loanAtTop.id ∧
          (q = d.origin ∨ lendsDown.UsedAt d q)} 20 := by
  have hl : loanAtTop ∈ lendsDown.book.loans := by decide +kernel
  exact ⟨hl, isGreatest_last lendsDown hl⟩

end Function

end BorrowCheck
