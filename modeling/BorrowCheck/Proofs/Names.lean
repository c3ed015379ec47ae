import BorrowCheck.Proofs.Grounded
import BorrowCheck.Proofs.Holding
import BorrowCheck.Proofs.Liveness
import BorrowCheck.Proofs.Side

/-!
# The names in a state

Which variables can a walk run into when it comes to an operation? Its store has cells for parts of
variables in scope only (`BorrowCheck.Store.Housed`), and loans are stored in variables in scope. A
loan that the operation takes is taken of a place that the operation names, and lends that place or
a part of what a loan in use lends (`BorrowCheck.Survey.TakenFrom`).

So a loan lends storage of a variable in scope or of the caller, or else a place behind a reference
about which nothing is known. A loan of the latter kind does not have to end with the variable of
the reference. But it is live at the operation (`BorrowCheck.Function.Ordered.target_cases`), since
loans end at points of operations.
-/

namespace BorrowCheck

/-! ### Where loans are taken -/

namespace Survey

variable {s t : Survey} {b : Borrow} {named : List Place} {i : Nat} {x : Place} {p : Point}
  {op : Operation}

/-- The loan `b` is **taken from** what the survey `s` knows by an operation that names `named`: of
a place named there, and for one. It lends that place, or a part of what its parent lends. -/
structure TakenFrom (s : Survey) (named : List Place) (b : Borrow) : Prop where
  via : b.via ∈ named
  borrower : ∀ y, b.borrower = some y → y ∈ named
  target : b.target = b.via ∨ ∃ q br ps, s.Held q ∧ s.borrows[q]? = some br ∧ b.parent = some q ∧
    b.target = br.target.append ps

/-- A borrow is taken from the place that is lent, or from what that place was borrowed from. -/
theorem takenFrom_borrowOf {borrower : Option Place} (hx : x ∈ named)
    (hborrower : ∀ y, borrower = some y → y ∈ named) (kind : BorrowKind) (p : Point) :
    s.TakenFrom named (s.borrowOf borrower kind x p) := by
  refine ⟨hx, hborrower, ?_⟩
  simp only [borrowOf, referent]
  rcases s.referentBelow_cases s.borrows.length x with
    ⟨-, hself⟩ | ⟨-, hself⟩ | ⟨-, q, br, ps, hheld, hbr, hfound⟩
  · exact Or.inl (by rw [hself])
  · exact Or.inl (by rw [hself])
  · exact Or.inr ⟨q, br, ps, hheld, hbr, by rw [hfound], by rw [hfound]⟩

/-- What holds loans in `t` does so in `s`, and the loans are the same. -/
theorem TakenFrom.of_grows {P : Point → Prop} (h : t.TakenFrom named b) (hs : s.Sound)
    (hgrow : s.Grows P t) (hholders : t.holders = s.holders) : s.TakenFrom named b := by
  refine ⟨h.via, h.borrower, h.target.imp_right ?_⟩
  rintro ⟨q, br, ps, hheld, hbr, hparent, htarget⟩
  rw [Held, hholders] at hheld
  obtain ⟨br', -, hbr', -⟩ := hs.of_held hheld
  obtain rfl : br' = br := Option.some.inj ((hgrow.getElem? hbr').symm.trans hbr)
  exact ⟨q, br', ps, hheld, hbr', hparent, htarget⟩

/-- A loan that comes last is new. -/
theorem eq_of_concat {bs : List Borrow} {new : Borrow} (hi : bs.length ≤ i)
    (hb : (bs ++ [new])[i]? = some b) : b = new := by
  rw [List.getElem?_append_right hi] at hb
  exact List.mem_singleton.mp (List.mem_of_getElem? hb)

theorem takenFrom_pass {a : Arg} (hs : s.Sound) (hx : a.place ∈ named)
    (hi : s.borrows.length ≤ i) (hb : (s.pass p a).borrows[i]? = some b) : s.TakenFrom named b := by
  have hold : s.borrows[i]? ≠ some b := by simp [List.getElem?_eq_none hi]
  simp only [Survey.pass] at hb
  split at hb
  next => exact absurd hb hold
  next kind hmode =>
    obtain rfl := eq_of_concat hi hb
    have htaken : (s.touch a.place p).TakenFrom named
        ((s.touch a.place p).borrowOf none kind a.place p) :=
      takenFrom_borrowOf hx (by simp) kind p
    exact htaken.of_grows hs (grows_touch (P := fun _ => True)) rfl

/-- The borrows of a call are taken from its arguments; the ones before do not matter, as they are
not held in any place. -/
theorem takenFrom_passAll {args : List Arg} (hs : s.Sound)
    (hargs : ∀ a ∈ args, a.place ∈ named) (hi : s.borrows.length ≤ i)
    (hb : (args.foldl (pass p) s).borrows[i]? = some b) : s.TakenFrom named b := by
  induction args generalizing s with
  | nil =>
    rw [List.foldl_nil, List.getElem?_eq_none hi] at hb
    cases hb
  | cons a args ih =>
    have hgrow : s.Grows (· = p) (s.pass p a) := grows_pass
    rcases Nat.lt_or_ge i (s.pass p a).borrows.length with hlt | hge
    · have hrest : (s.pass p a).Grows (· = p) (args.foldl (pass p) (s.pass p a)) :=
        grows_foldl _ fun _ _ _ => grows_pass
      have hnow := List.getElem?_eq_getElem hlt
      rw [List.foldl_cons, hrest.getElem? hnow] at hb
      obtain rfl := Option.some.inj hb
      exact takenFrom_pass hs (hargs a List.mem_cons_self) hi hnow
    · have htaken := ih hs.pass (fun d hd => hargs d (List.mem_cons_of_mem a hd)) hge hb
      exact htaken.of_grows hs hgrow (holders_pass _ _ a)

/-- **The loans that an operation takes** are taken of and for places that it names. -/
theorem takenFrom_of_new (hs : s.Sound) (hi : s.borrows.length ≤ i)
    (hb : (s.observe op).borrows[i]? = some b) : s.TakenFrom op.named b := by
  have hold : ∀ {t : Survey}, t.borrows = s.borrows → t.borrows[i]? ≠ some b := by
    intro t ht
    simp [ht, List.getElem?_eq_none hi]
  have htarget : ∀ y, op.target = some y → y ∈ op.named :=
    fun y hy => by simp [Operation.named, hy]
  have hsource : ∀ x, op.source = some x → x ∈ op.named :=
    fun x hx => by simp [Operation.named, Operation.mem_sources_of_source hx]
  have hargs : ∀ a ∈ op.args, a.place ∈ op.named :=
    fun a ha => List.mem_append_right _ (List.mem_map_of_mem ha)
  unfold Survey.observe at hb
  cases hkind : op.kind with
  | move =>
    simp only [hkind] at hb
    cases hx : op.source with
    | none => exact absurd (by simpa only [hx] using hb) (hold rfl)
    | some x =>
      simp only [hx] at hb
      cases hy : op.target with
      | none =>
        rw [hy] at hb
        exact absurd hb (hold rfl)
      | some y =>
        rw [hy] at hb
        rcases s.borrows_move x op.point y with hsame | ⟨q, br, hget, hbr, hnew⟩
        · exact absurd hb (hold hsame)
        · rw [hnew] at hb
          obtain rfl := eq_of_concat hi hb
          refine ⟨hsource x hx, fun z hz => htarget z (hy.trans hz), Or.inr ?_⟩
          exact ⟨q, br, [], held_of_get? hget, hbr, rfl, by simp [Borrow.handedOn, Place.append]⟩
  | borrow kind =>
    simp only [hkind] at hb
    cases hy : op.target with
    | none => exact absurd (by simpa only [hy] using hb) (hold rfl)
    | some y =>
      cases hx : op.source with
      | none => exact absurd (by simpa only [hy, hx] using hb) (hold rfl)
      | some x =>
        simp only [hy, hx, lend, define, take, borrows_write] at hb
        obtain rfl := eq_of_concat hi hb
        have htaken := takenFrom_borrowOf (s := s.touch x op.point) (hsource x hx)
          (fun z hz => htarget z (hy.trans hz)) kind op.point
        exact htaken.of_grows hs (grows_touch (P := fun _ => True)) rfl
  | call =>
    simp only [hkind, borrows_write?] at hb
    exact takenFrom_passAll hs hargs hi hb
  | declare =>
    simp only [hkind] at hb
    cases hx : op.target with
    | none => exact absurd (by simpa only [hx] using hb) (hold rfl)
    | some x =>
      simp only [hx] at hb
      exact absurd hb (hold rfl)
  | assign | deref | use | ret =>
    simp only [hkind] at hb
    exact absurd hb (hold (by simp))
  | enter | unknown tag =>
    simp only [hkind] at hb
    exact absurd hb (hold rfl)
  | exit =>
    simp only [hkind] at hb
    exact absurd hb (hold (by rw [exit]; split <;> rfl))

/-- **What a loan lends** is storage of the caller, or of a variable that an operation named. -/
theorem target_of_after {f : Function} {ops : List Operation} {b : Borrow}
    (hb : b ∈ (after f ops).borrows) :
    b.target.base ∈ f.callers ∨ ∃ op ∈ ops, ∃ x ∈ op.named, x.base = b.target.base := by
  induction ops using List.reverseRecOn generalizing b with
  | nil =>
    obtain ⟨param, hparam, htarget⟩ := target_of_entry hb
    exact Or.inl (htarget ▸ List.mem_map_of_mem hparam)
  | append_singleton ops op ih =>
    have hearlier : ∀ c ∈ (after f ops).borrows, c.target.base ∈ f.callers ∨
        ∃ o ∈ ops ++ [op], ∃ x ∈ o.named, x.base = c.target.base := fun c hc =>
      (ih hc).imp_right fun ⟨o, ho, hx⟩ => ⟨o, List.mem_append_left _ ho, hx⟩
    rw [after_concat] at hb
    obtain ⟨i, hi⟩ := List.mem_iff_getElem?.mp hb
    rcases Nat.lt_or_ge i (after f ops).borrows.length with hlt | hge
    · have hnow := List.getElem?_eq_getElem hlt
      obtain rfl := Option.some.inj (((grows_observe _ op).getElem? hnow).symm.trans hi)
      exact hearlier _ (List.getElem_mem hlt)
    · have htaken := takenFrom_of_new (sound_after f ops) hge hi
      rcases htaken.target with hvia | ⟨q, br, ps, -, hbr, -, htarget⟩
      · exact Or.inr ⟨op, by simp, b.via, htaken.via, by rw [hvia]⟩
      · rw [htarget]
        exact hearlier br (List.mem_of_getElem? hbr)

end Survey

/-! ### Cells -/

namespace Store

variable {s t : Store} {x : Place}

/-- Every **cell** is of a variable in scope. -/
def Housed (s : Store) : Prop :=
  ∀ e ∈ s.cells.toList, s.declares e.1 = true

theorem housed_empty : Housed {} :=
  List.forall_mem_nil _

/-- A cell is put for a place of a variable in scope. -/
theorem Housed.put (h : s.Housed) (hx : s.declares x = true) (cell : Cell) :
    Housed { s with cells := s.cells.put x cell } := by
  intro e he
  rcases Place.Map.mem_put he with ⟨he, -⟩ | ⟨hsame, -⟩
  · exact h e he
  · rwa [declares, Place.base_eq_of_same hsame]

theorem Housed.keepKeys (h : s.Housed) (keep : Place → Bool) :
    Housed { s with cells := s.cells.keepKeys keep } :=
  fun e he => h e (Place.Map.mem_keepKeys.mp he).1

/-- A loan makes a cell for local storage only. -/
theorem Housed.encumber (h : s.Housed) (x : Place) (kind : BorrowKind) (id : Int) :
    (s.encumber x kind id).Housed := by
  unfold Store.encumber
  split
  next hlocal =>
    rw [isLocal, Bool.and_eq_true] at hlocal
    exact h.put hlocal.2 _
  next => exact h

theorem Housed.discharge (h : s.Housed) (x : Place) (id : Int) : (s.discharge x id).Housed := by
  unfold Store.discharge
  split
  next => exact h
  next cell hget =>
    dsimp only
    split
    · exact h.keepKeys _
    · obtain ⟨e, he, hsame, -⟩ := Place.Map.exists_mem_of_get? hget
      refine h.put ?_ _
      rw [declares, ← Place.base_eq_of_same hsame]
      exact h e he

/-- A new value makes one cell, that of the place written. -/
theorem Housed.restore (h : s.Housed) (hx : s.declares x = true) : (s.restore x).Housed := by
  have hrest : Housed { s with cells := { toList := s.cells.toList.filterMap (renew x) } } := by
    intro e he
    obtain ⟨d, hd, hrenew⟩ := List.mem_filterMap.mp he
    have hkey : e.1 = d.1 := by
      cases hunder : x.isPrefixOf d.1 with
      | true => exact (renew_of_under hunder hrenew).1
      | false =>
        rw [renew_of_not_under hunder, Option.some.injEq] at hrenew
        rw [hrenew]
    rw [hkey]
    exact h d hd
  exact hrest.put hx _

/-- A variable comes into scope before its cell is put. -/
theorem Housed.declare {ty : Ty} {init : Bool} (h : s.Housed) (ht : s.declare x ty init = .ok t) :
    t.Housed := by
  obtain ⟨-, -, rfl⟩ := declare_eq_ok_iff.mp ht
  refine Housed.put (s := { s with types := s.types ++ [(x.base, ty)], scopes := _ })
    (fun e he => ?_) ?_ _
  · have hold := h e he
    rw [declares_iff_mem] at hold ⊢
    exact List.map_append ▸ List.mem_append_left _ hold
  · simp [declares_iff_mem]

/-- With a variable the cells of all its parts go. -/
theorem Housed.endStorage (h : s.Housed) (roots : List String) : (s.endStorage roots).Housed := by
  intro e he
  obtain ⟨he, hstay⟩ := Place.Map.mem_keepKeys.mp he
  have hold := h e he
  rw [declares_iff_mem] at hold ⊢
  obtain ⟨t, ht, heq⟩ := List.mem_map.mp hold
  exact List.mem_map.mpr ⟨t, List.mem_filter.mpr ⟨ht, by rwa [heq]⟩, heq⟩

theorem Housed.close {b : Books} (h : b.store.Housed) (loans : List Loan) :
    (b.close loans).store.Housed :=
  Books.close_induction b loans Housed h fun _ loan ht => ht.discharge loan.target loan.id

end Store

namespace Walk

variable {c : Context} {w u v : State} {x y : Place} {p : Point} {a : Action} {op : Operation}

theorem housed_settled (h : w.store.Housed) (p : Point) (inclusive : Bool) :
    (settled w p inclusive).store.Housed :=
  h.close _

/-- A value leaves a place that was in scope. -/
theorem housed_vacate (h : w.store.Housed) (hvac : vacate w x p = .ok u) : u.store.Housed := by
  obtain ⟨hdecl, -, -, -, rfl⟩ := vacate_eq_ok_iff.mp hvac
  exact h.put hdecl _

theorem housed_handOver (h : w.store.Housed) (hover : handOver c w x p = .ok u) :
    u.store.Housed := by
  rcases handOver_cases hover with ⟨-, rfl⟩ | hvac
  · exact h
  · exact housed_vacate h hvac

theorem housed_lend {b : LoanBook} {borrower : Option Place} {kind : BorrowKind}
    {books books' : Books} {l : Loan} (h : books.store.Housed)
    (hlend : books.lend b borrower x kind p = .ok (books', l)) : books'.store.Housed := by
  obtain ⟨-, -, rfl⟩ := Books.lend_eq_ok_iff.mp hlend
  exact h.encumber _ _ _

theorem housed_borrow {borrower : Option Place} {kind : BorrowKind} (h : w.store.Housed)
    (hborrow : borrow c w borrower kind x p = .ok u) : u.store.Housed := by
  obtain ⟨-, -, -, books, l, hlend, rfl⟩ := borrow_cases hborrow
  exact housed_lend h hlend

theorem housed_passArg {d : Arg} (h : w.store.Housed) (hpass : passArg c p w d = .ok u) :
    u.store.Housed := by
  rcases passArg_cases hpass with ⟨-, hover⟩ | ⟨kind, -, hborrow⟩
  · exact housed_handOver h hover
  · exact housed_borrow h hborrow

theorem housed_lendAll {loans : List Loan} {books books' : Books} (h : books.store.Housed)
    (hlend : lendAll c y p books loans = .ok books') : books'.store.Housed := by
  refine foldlM_induction (fun b => b.store.Housed) h (fun b l _ b' hb hstep => ?_) hlend
  obtain ⟨⟨_, m⟩, hm, hpure⟩ := bind_eq_ok_iff.mp hstep
  obtain rfl := pure_eq_ok_iff.mp hpure
  exact housed_lend hb hm

/-- What is written is in scope, unless it lies behind a reference and the store stays as it is. -/
theorem housed_write {closed : List Loan} (h : w.store.Housed)
    (hwrite : write c w closed x p = .ok u) : u.store.Housed := by
  obtain ⟨hdecl, ⟨-, -, rfl⟩ | ⟨-, store, ⟨-, -, hfill⟩ | ⟨-, rfl⟩, rfl⟩⟩ := write_cases hwrite
  · exact h
  · obtain ⟨-, rfl⟩ := Store.fill_eq_ok_iff.mp hfill
    exact h.put hdecl _
  · exact h.restore hdecl

/-- What an action does before its write, with one case for each kind of action. -/
theorem Performed.housed (hperf : Performed c p w u a) (h : w.store.Housed) : u.store.Housed := by
  cases a with
  | declare x ty =>
    obtain ⟨store, hstore, rfl⟩ := hperf
    exact h.declare hstore
  | assign x ys => exact hperf.2 ▸ h
  | deref x | use x => exact hperf.2 ▸ h
  | move y x =>
    obtain ⟨-, books, hlend, ⟨-, rfl⟩ | hvac⟩ := move_cases hperf
    · exact housed_lendAll h hlend
    · exact housed_vacate (w := { w with toBooks := books }) (housed_lendAll h hlend) hvac
  | borrow kind y x => exact housed_borrow h hperf.2
  | call args result =>
    exact foldlM_induction (fun w => w.store.Housed) h (fun _ _ _ _ => housed_passArg) hperf
  | ret x =>
    cases x with
    | none =>
      obtain rfl := hperf
      exact h
    | some x =>
      obtain ⟨v, hret, rfl⟩ := hperf
      have hv : v.store.Housed := housed_handOver h (ret_cases hret).2
      exact hv
  | enter =>
    obtain rfl := hperf
    exact h
  | exit =>
    obtain ⟨dying, scopes, -, -, rfl⟩ := exit_cases hperf
    have hleft : Store.Housed { w.store with scopes } := h
    exact (Store.Housed.close (b := { w.toBooks with store := _ }) hleft _).endStorage dying

/-- **A step** makes cells for parts of variables in scope only. -/
theorem housed_step (h : w.store.Housed) (hstep : step c w op = .ok v) : v.store.Housed := by
  obtain ⟨-, a, u, -, hperf, hend⟩ := step_cases hstep
  have hdone := (perform_cases hperf).1.housed (housed_settled h op.point false)
  rcases hend with ⟨-, rfl⟩ | ⟨x, -, hwrite⟩
  · exact housed_settled hdone op.point true
  · exact housed_write (housed_settled hdone op.point true) hwrite

end Walk

namespace Function

variable {f : Function} {policy : Policy} {pre post : List Operation} {op : Operation}
  {w : Walk.State} {l : Loan}

/-- Along a walk, cells are of variables in scope. -/
theorem housed_of_reach (hops : f.ops = pre ++ post) (hreach : f.reach policy pre = .ok w) :
    w.store.Housed :=
  reach_induction (P := fun _ w => w.store.Housed)
    (fun _ hstore => foldlM_induction Store.Housed Store.housed_empty
      (fun _ _ _ _ h hdecl => h.declare hdecl) hstore)
    (fun _ _ _ _ _ _ _ h hstep => Walk.housed_step h hstep) hops hreach

/-! ### Ends of loans -/

/-- A loan is taken at the entry or at an operation. -/
theorem origin_cases (hl : l ∈ f.book.loans) :
    l.origin = f.entry ∨ ∃ op ∈ f.ops, op.point = l.origin := by
  rcases Nat.lt_or_ge l.id (Survey.after f []).borrows.length with hlt | hge
  · obtain ⟨m, b, hm, hb, rfl⟩ := exists_borrow_of_lt (List.nil_append _).symm hlt
    obtain rfl := Option.some.inj ((f.book_sound.get?_id hl).symm.trans hm)
    exact Or.inl ((Survey.grows_entry f).origin hb (Nat.zero_le _))
  · exact Or.inr (exists_op_of_origin (List.nil_append _).symm hl hge)

/-- **A loan ends at the entry or at an operation.** -/
theorem last_cases (hl : l ∈ f.book.loans) :
    l.last = f.entry ∨ ∃ op ∈ f.ops, op.point = l.last := by
  obtain ⟨d, hd, -, hend⟩ := exists_chain_of_last hl
  rcases Survey.ownEnd_cases (Survey.after f f.ops) d.id d.toBorrow with horigin | huse
  · rw [hend, horigin]
    exact origin_cases hd
  · rw [← hend] at huse
    rcases Survey.origin_of_mem_uses huse with
      ⟨pre, op, post, hops, hpoint, -⟩ | ⟨b, hmem, -, horigin⟩
    · exact Or.inr ⟨op, hops ▸ List.mem_append_right _ List.mem_cons_self, hpoint⟩
    · obtain ⟨j, hj⟩ := List.mem_iff_getElem?.mp hmem
      obtain ⟨m, hm, -, rfl⟩ := exists_loan_of_getElem? hj
      have hcases := origin_cases hm
      rwa [horigin] at hcases

/-- The point after some operations is that of the last one, and points increase. -/
theorem Ordered.le_pointAfter (h : f.Ordered) (hops : f.ops = pre ++ post) {o : Operation}
    (ho : o ∈ pre) : o.point ≤ f.pointAfter pre := by
  cases pre using List.reverseRecOn with
  | nil => cases ho
  | append_singleton pre q =>
    rw [pointAfter_concat]
    rcases List.mem_append.mp ho with ho | ho
    · exact le_of_lt (h.before (hops.trans (List.append_cons pre q post).symm) o ho)
    · rw [List.mem_singleton.mp ho]

/-- A loan that is needed after the operations before `op`, and not for parameters only, is needed
at `op`. -/
theorem Ordered.point_le_last (h : f.Ordered) (hops : f.ops = pre ++ op :: post)
    (hl : l ∈ f.book.loans) (hlast : f.pointAfter pre < l.last) (hentry : f.entry < l.last) :
    op.point ≤ l.last := by
  rcases last_cases hl with heq | ⟨o, ho, hpoint⟩
  · exact absurd heq (ne_of_gt hentry)
  · rw [← hpoint] at hlast ⊢
    rw [hops, List.mem_append, List.mem_cons] at ho
    rcases ho with ho | rfl | ho
    · exact absurd hlast (not_lt.mpr (h.le_pointAfter hops ho))
    · exact le_refl _
    · exact le_of_lt (h.after hops o ho)

/-! ### The names at an operation -/

/-- **What an outstanding loan lends** when the walk comes to `op`: storage of the caller or of a
variable in scope, unless it lies behind a reference; then the loan is live at `op`. -/
theorem Ordered.target_cases (h : f.Ordered) (hnames : ∀ n ∈ f.declared, n ∉ f.callers)
    (hops : f.ops = pre ++ op :: post) (hreach : f.reach policy pre = .ok w)
    (hl : l ∈ w.ledger.outstanding) :
    (l.target.throughRef = true ∧ l.covers op.point = true) ∨ l.target.base ∈ f.callers ∨
      l.target.base ∈ (Survey.after f pre).scopes.names := by
  have hin := h.inStep_of_reach hops hreach
  obtain ⟨hmem, hid, hlast, -⟩ := (hin.mem_outstanding f.book_sound).mp hl
  cases href : l.target.throughRef with
  | false =>
    obtain ⟨-, hscope⟩ := h.grounded_of_reach hnames hops hreach l hl hlast href
    rw [hin.blocks.declares_iff, hin.scopes] at hscope
    exact Or.inr hscope
  | true =>
    -- what the caller lends for a parameter is behind no reference
    have hentry : f.entry < l.last := by
      rcases Nat.lt_or_ge l.id (Survey.after f []).borrows.length with hlt | hge
      · obtain ⟨m, b, hm, hb, rfl⟩ := exists_borrow_of_lt (List.nil_append _).symm hlt
        obtain rfl := Option.some.inj ((f.book_sound.get?_id hmem).symm.trans hm)
        obtain ⟨param, -, htarget⟩ := Survey.target_of_entry (List.mem_of_getElem? hb)
        rw [htarget] at href
        cases href
      · obtain ⟨o, ho, horigin⟩ := exists_op_of_origin (List.nil_append _).symm hmem hge
        exact lt_of_lt_of_le (horigin ▸ h.entry_lt ho) (f.book_sound.origin_le_last l hmem)
    refine Or.inl ⟨rfl, ?_⟩
    rw [Loan.covers, Bool.and_eq_true, decide_eq_true_eq, decide_eq_true_eq]
    exact ⟨le_of_lt (h.origin_lt hops hmem hid), h.point_le_last hops hmem hlast hentry⟩

/-- A loan that `op` takes is taken of and for places that `op` names. -/
theorem Ordered.takenFrom (h : f.Ordered) (hops : f.ops = pre ++ op :: post)
    (hl : l ∈ f.book.takenAt op.point) :
    l ∈ f.book.loans ∧ l.covers op.point = true ∧
      (Survey.after f pre).TakenFrom op.named l.toBorrow := by
  obtain ⟨hmem, horigin⟩ := List.mem_filter.mp hl
  rw [decide_eq_true_eq] at horigin
  obtain ⟨hnew, hbr⟩ := h.borrow_of_origin hops hmem horigin
  refine ⟨hmem, ?_, Survey.takenFrom_of_new (Survey.sound_after f pre) hnew hbr⟩
  rw [Loan.covers, Bool.and_eq_true, decide_eq_true_eq, decide_eq_true_eq, ← horigin]
  exact ⟨le_refl _, f.book_sound.origin_le_last l hmem⟩

/-- **What a loan that `op` takes lends**: a place that `op` names, storage of the caller or of a
variable in scope, or a place behind a reference. -/
theorem Ordered.target_of_taken (h : f.Ordered) (hnames : ∀ n ∈ f.declared, n ∉ f.callers)
    (hops : f.ops = pre ++ op :: post) (hreach : f.reach policy pre = .ok w)
    (hl : l ∈ f.book.takenAt op.point) :
    l.target.throughRef = true ∨ l.target ∈ op.named ∨ l.target.base ∈ f.callers ∨
      l.target.base ∈ (Survey.after f pre).scopes.names := by
  obtain ⟨hmem, hcovers, htaken⟩ := h.takenFrom hops hl
  rw [or_iff_not_imp_left, Bool.not_eq_true]
  intro href
  rcases htaken.target with hvia | ⟨q, br, ps, ⟨e, he, rfl⟩, hbr, hparent, htarget⟩
  · exact Or.inl (hvia ▸ htaken.via)
  · -- the loan it is taken through is outstanding, since it lasts as long
    obtain ⟨m, hm, rfl⟩ := (recorded_after hops).loan e.2 br hbr
    obtain ⟨-, m', hm', hle⟩ := f.book_sound.parent l hmem e.2 hparent
    obtain rfl : m' = m := Option.some.inj (hm'.symm.trans hm)
    rw [Loan.covers, Bool.and_eq_true, decide_eq_true_eq, decide_eq_true_eq] at hcovers
    have hlast : f.pointAfter pre < m'.last :=
      lt_of_lt_of_le (h.pointAfter_lt hops) (le_trans hcovers.2 hle)
    have hout := (h.inStep_of_reach hops hreach).outstanding_of_held f.book_sound
      (Survey.sound_after f pre) he hm hlast
    rw [htarget] at href ⊢
    rcases h.target_cases hnames hops hreach hout with ⟨hthrough, -⟩ | hbase
    · rw [Place.throughRef_eq_false_of_append href] at hthrough
      cases hthrough
    · exact Or.inr hbase

end Function

end BorrowCheck
