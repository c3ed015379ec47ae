import BorrowCheck.Proofs.InStep
import Mathlib.Logic.Relation

/-!
# The effects of a step, one after the other

A step of the walk closes loans, performs an action and writes a target, and an action can have
several effects on the state: a call opens a loan for one argument and moves another one out. What
is asked of a state after a step is mostly kept by each effect alone. So the effects are told apart
here (`BorrowCheck.Walk.Effect`), each with what is known when it takes place, and a step is shown
to be a sequence of them (`BorrowCheck.Walk.InStep.effects`). An invariant is then proved by cases
on one effect.

The effect that needs an argument is the opening of a loan. What it lends can be used, or lies in
what an older outstanding loan lends, and this loan lasts at least as long
(`BorrowCheck.Walk.Backed`). For a place behind no reference this is all there is.
-/

namespace BorrowCheck.Walk

variable {c : Context} {callers : List String} {s t : Survey} {es : List Ending} {now p : Point}
  {w u : State} {P : Point → Prop} {x y : Place}

/-- **What a loan lends is backed**: it can be used, or a longer loan lends storage that contains
it. -/
inductive Backed (w : State) (l : Loan) : Prop
  | value (hdecl : w.store.declares l.target = true) (hval : w.store.lacking? l.target = none)
  | parent {m : Loan} (ps : List Proj) (hm : m ∈ w.ledger.outstanding) (hlast : l.last ≤ m.last)
      (htarget : l.target = m.target.append ps)

/-- One **effect** of a step at `p` on the state; no declaration takes a name out of `callers`. -/
inductive Effect (c : Context) (callers : List String) (p : Point) : State → State → Prop
  /-- A loan is opened, the youngest so far. -/
  | lent {w : State} {l : Loan} (hl : l ∈ c.book.loans)
      (hyoung : ∀ m ∈ w.ledger.outstanding, m.id < l.id)
      (hbacked : p < l.last → l.target.throughRef = false → Backed w l) :
      Effect c callers p w
        { w with store := w.store.encumber l.target l.kind l.id, ledger := w.ledger.record l }
  /-- A value is moved out. -/
  | vacated {w u : State} {x : Place} (hvac : vacate w x p = .ok u) : Effect c callers p w u
  /-- A variable is declared. -/
  | declared {w : State} {x : Place} {ty : Ty} {store : Store} (hnew : x.base ∉ callers)
      (hdecl : w.store.declare x ty false = .ok store) : Effect c callers p w { w with store }
  /-- A block is opened or left. -/
  | blocked {w : State} (scopes : Scopes) :
      Effect c callers p w { w with store := { w.store with scopes } }
  /-- Loans are closed. -/
  | closed {w : State} (q : Loan → Bool)
      (hid : ∀ l ∈ w.ledger.outstanding, ∀ m ∈ w.ledger.outstanding, l.id = m.id → l = m) :
      Effect c callers p w
        { w with toBooks := w.toBooks.close (w.ledger.outstanding.filter q) }
  /-- The storage of variables ends, of which nothing is lent that is needed later. -/
  | ended {w : State} (roots : List String)
      (hfree : ∀ l ∈ w.ledger.outstanding, p < l.last → l.target.throughRef = false →
        l.target.base ∉ roots) :
      Effect c callers p w { w with store := w.store.endStorage roots }
  /-- The function returns. -/
  | returned {w : State} : Effect c callers p w { w with returned := some p }
  /-- A value is written. -/
  | written {w u : State} {x : Place} {closed : List Loan}
      (hwrite : write c w closed x p = .ok u) : Effect c callers p w u

/-- Several effects, one after the other. -/
abbrev Effects (c : Context) (callers : List String) (p : Point) : State → State → Prop :=
  Relation.ReflTransGen (Effect c callers p)

theorem effects_handOver (h : handOver c w x p = .ok u) : Effects c callers p w u := by
  rcases handOver_cases h with ⟨-, rfl⟩ | hvac
  · exact .refl
  · exact .single (.vacated hvac)

/-! ### Loans that are opened -/

/-- The loan that is opened next is the youngest. -/
theorem InStep.young (h : InStep c.book s es now w) (hb : c.book.Sound) {borrower : Option Place}
    {kind : BorrowKind} {l : Loan} (hdue : w.ledger.due? c.book borrower x kind p = some l) :
    ∀ m ∈ w.ledger.outstanding, m.id < l.id := by
  intro m hm
  have hnew : l.id ∉ w.ledger.opened := by
    simpa using (List.mem_filter.mp (List.mem_of_find?_eq_some hdue)).2
  rw [h.opened, List.mem_range, Nat.not_lt] at hnew
  exact Nat.lt_of_lt_of_le ((h.mem_outstanding hb).mp hm).2.1 hnew

/-- A reborrow lends storage of the loan that it was taken through. -/
theorem InStep.backed_of_parent (hin : InStep c.book s es (p - 1) w) (hb : c.book.Sound)
    (hs : s.Sound) (hrec : s.RecordedBy c.book) {l : Loan} {q : Nat} {br : Borrow} {ps : List Proj}
    (hl : l ∈ c.book.loans) (hparent : l.parent = some q) (hheld : s.Held q)
    (hbr : s.borrows[q]? = some br) (htarget : l.target = br.target.append ps)
    (hlast : p < l.last) : Backed w l := by
  obtain ⟨m, hm, rfl⟩ := hrec.loan q br hbr
  obtain ⟨-, m', hm', hle⟩ := hb.parent l hl q hparent
  obtain rfl : m' = m := Option.some.inj (hm'.symm.trans hm)
  obtain ⟨e, he, rfl⟩ := hheld
  have hlast' : p - 1 < m'.last :=
    lt_trans (Int.sub_one_lt_of_le (le_refl p)) (lt_of_lt_of_le hlast hle)
  exact .parent ps (hin.outstanding_of_held hb hs he hm hlast') hle htarget

/-- A borrow opens one loan: the place itself can be used, or the loan is a reborrow. -/
theorem InStep.effect_borrow {borrower : Option Place} {kind : BorrowKind}
    (hin : InStep c.book s es (p - 1) w) (hb : c.book.Sound) (hs : s.Sound)
    (hes : ∀ e ∈ es, e.point < p) (hgrow : s.Grows P t) (ht : t.Sound) (hrec : t.RecordedBy c.book)
    (hborrows : t.borrows = s.borrows ++ [s.borrowOf borrower kind x p])
    (hscopes : t.scopes = s.scopes) (hborrow : borrow c w borrower kind x p = .ok u) :
    Effect c callers p w u := by
  obtain ⟨hdecl, -, hval, books, l, hlend, rfl⟩ := borrow_cases hborrow
  obtain ⟨hmem, hbr, -⟩ := hin.lend hb hes hgrow ht hrec hborrows rfl hscopes hlend
  obtain ⟨hdue, -, rfl⟩ := Books.lend_eq_ok_iff.mp hlend
  refine .lent hmem (hin.young hb hdue) fun hlast href => ?_
  have htarget : l.target = (s.referent x).1 := by rw [hbr]; rfl
  have hparent : l.parent = (s.referent x).2 := by rw [hbr]; rfl
  rw [Survey.referent] at htarget hparent
  rcases s.referentBelow_cases s.borrows.length x with
    ⟨hno, hx⟩ | ⟨hyes, hx⟩ | ⟨-, q, br, ps, hheld, hq, hx⟩
  · rw [hx] at htarget
    exact .value (htarget ▸ hdecl) (htarget ▸ hval hno)
  · rw [hx] at htarget
    rw [htarget, hyes] at href
    cases href
  · rw [hx] at htarget hparent
    exact hin.backed_of_parent hb hs (hrec.of_grows hgrow) hmem hparent hheld hq htarget hlast

/-- An argument is handed over or borrowed. -/
theorem InStep.effects_passArg {a : Arg} (hin : InStep c.book s es (p - 1) w) (hb : c.book.Sound)
    (hs : s.Sound) (hes : ∀ e ∈ es, e.point < p) (hrec : (s.pass p a).RecordedBy c.book)
    (hpass : Walk.passArg c p w a = .ok u) : Effects c callers p w u := by
  rcases passArg_cases hpass with ⟨-, hover⟩ | ⟨kind, hmode, hborrow⟩
  · exact effects_handOver hover
  · have hpass : s.pass p a =
        (s.touch a.place p).take ((s.touch a.place p).borrowOf none kind a.place p) := by
      simp [Survey.pass, hmode]
    have hgrow : (s.touch a.place p).Grows (· = p) (s.pass p a) := by
      rw [hpass]
      exact Survey.grows_take rfl
    exact .single ((hin.touch hs).effect_borrow hb hs.touch hes hgrow hs.pass hrec
      (by rw [hpass]; rfl) (by rw [hpass]; rfl) hborrow)

theorem InStep.effects_passAll {args : List Arg} (hin : InStep c.book s es (p - 1) w)
    (hb : c.book.Sound) (hs : s.Sound) (hes : ∀ e ∈ es, e.point < p)
    (hrec : (args.foldl (Survey.pass p) s).RecordedBy c.book)
    (hpass : args.foldlM (Walk.passArg c p) w = .ok u) : Effects c callers p w u := by
  induction args generalizing s w with
  | nil =>
    obtain rfl := pure_eq_ok_iff.mp hpass
    exact .refl
  | cons a args ih =>
    obtain ⟨v, hv, hrest⟩ := foldlM_cons_eq_ok_iff.mp hpass
    rw [List.foldl_cons] at hrec
    have hgrow : (s.pass p a).Grows (· = p)
        (args.foldl (Survey.pass p) (s.pass p a)) :=
      Survey.grows_foldl _ fun _ _ _ => Survey.grows_pass
    have hrec' := hrec.of_grows hgrow
    exact (hin.effects_passArg hb hs hes hrec' hv).trans
      (ih (hin.passArg hb hs hes hrec' hv) hs.pass hrec hrest)

/-- A move opens at most a reborrow of what its source holds, and moves the source out if it is not
copied. -/
theorem InStep.effects_move (hin : InStep c.book s es (p - 1) w) (hb : c.book.Sound) (hs : s.Sound)
    (hes : ∀ e ∈ es, e.point < p) (hrec : (s.move (some y) x p).RecordedBy c.book)
    (hlater : ∀ l ∈ c.book.loans, (s.move (some y) x p).borrows.length ≤ l.id → l.origin ≠ p)
    (hmove : Walk.move c w y x p = .ok u) : Effects c callers p w u := by
  have hgrow : s.Grows (· = p) (s.move (some y) x p) := Survey.grows_move
  obtain ⟨-, books, hlend, hend⟩ := move_cases hmove
  have hopen : Effects c callers p w { w with toBooks := books } := by
    rcases hin.lendAll_cases hb hrec hlater hlend with ⟨-, rfl⟩ | ⟨q, br, l, hget, hq, hnew, hlend'⟩
    · exact .refl
    · obtain ⟨hmem, hbr, -⟩ :=
        hin.lend hb hes hgrow hs.move hrec hnew rfl (Survey.scopes_move _ _ _ _) hlend'
      obtain ⟨hdue, -, rfl⟩ := Books.lend_eq_ok_iff.mp hlend'
      have htarget : l.target = br.target.append [] := by
        rw [hbr, Place.append, List.append_nil]
        rfl
      exact .single (.lent hmem (hin.young hb hdue) fun hlast _ =>
        hin.backed_of_parent hb hs (hrec.of_grows hgrow) hmem (by rw [hbr]; rfl)
          (Survey.held_of_get? hget) hq htarget hlast)
  rcases hend with ⟨-, rfl⟩ | hvac
  · exact hopen
  · exact hopen.tail (.vacated hvac)

/-! ### The end of a block -/

/-- When a block is left, what it declares is lent by no loan that is needed later and stays. -/
theorem InStep.base_not_mem_of_exit (hin : InStep c.book s es now w) (hb : c.book.Sound)
    (hearlier : ∀ l ∈ c.book.loans, l.id < s.borrows.length → l.origin < p) {dying : List String}
    {scopes : Scopes} (hscopes : w.store.scopes.exit? = some (dying, scopes))
    (hcheck : ∀ l ∈ w.ledger.outstanding, ∀ y, l.borrower = some y → y.base ∉ dying →
      l.target.base ∈ dying → w.store.isLocal l.target = true → l.last ≤ p) {l : Loan}
    (hl : l ∈ (w.ledger.strike (w.ledger.borrowedIn dying)).outstanding) (hlast : p < l.last)
    (href : l.target.throughRef = false) : l.target.base ∉ dying := by
  obtain ⟨hmem, hkeep⟩ := List.mem_filter.mp hl
  obtain ⟨hbook, hid, -⟩ := (hin.mem_outstanding hb).mp hmem
  intro hdie
  cases hy : l.borrower with
  | none =>
    -- a loan for the length of a call is over
    rw [hb.temporary l hbook hy] at hlast
    exact lt_asymm hlast (hearlier l hbook hid)
  | some y =>
    by_cases hdies : y.base ∈ dying
    · -- a loan whose borrower ends as well is closed
      have hclosed : l ∈ w.ledger.borrowedIn dying :=
        List.mem_filter.mpr ⟨hmem, by simpa [hy] using hdies⟩
      simp only [Bool.not_eq_true', List.contains_eq_mem, decide_eq_false_iff_not] at hkeep
      exact hkeep (List.mem_map_of_mem hclosed)
    · -- a borrower that stays has been used for the last time
      have hlocal := hin.blocks.isLocal_of_exit? hscopes hdie href
      exact absurd hlast (not_lt.mpr (hcheck l hmem y hy hdies hdie hlocal))

/-- Leaving a block closes the loans of its variables and ends their storage. -/
theorem InStep.effects_exit (hin : InStep c.book s es now w) (hb : c.book.Sound)
    (hearlier : ∀ l ∈ c.book.loans, l.id < s.borrows.length → l.origin < p)
    (hexit : Walk.exit w p = .ok u) : Effects c callers p w u := by
  obtain ⟨dying, scopes, hscopes, hcheck, rfl⟩ := exit_cases hexit
  refine .tail (.tail (.single (.blocked scopes)) (.closed _ (hin.eq_of_id hb)))
    (.ended dying fun l hl hlast href => ?_)
  exact hin.base_not_mem_of_exit hb hearlier hscopes hcheck hl hlast href

/-! ### Actions and steps -/

/-- **What an action does before its write** is a sequence of effects. -/
theorem InStep.effects_perform {op : Operation} {a : Action}
    (hin : InStep c.book s es (op.point - 1) w) (ht : Turn c.book s es op)
    (hact : op.action = .ok a)
    (hnames : ∀ x ty, a = .declare x ty → x.base ∉ callers)
    (hperf : Walk.perform c w op.point a = .ok (u, a.written?)) :
    Effects c callers op.point w u := by
  obtain ⟨hperf, -⟩ := perform_cases hperf
  have hrec := ht.recorded
  have hlater := ht.later
  have hsound := ht.sound.observe op
  rw [Survey.observe_eq_act s hact] at hrec hlater hsound
  cases a with
  | declare x ty =>
    obtain ⟨store, hstore, rfl⟩ := hperf
    exact .single (.declared (hnames x ty rfl) hstore)
  | assign x ys | deref x | use x =>
    obtain ⟨-, rfl⟩ := hperf
    exact .refl
  | move y x => exact hin.effects_move ht.book ht.sound ht.endings hrec hlater hperf
  | borrow kind y x =>
    -- the source is touched first, and the loan is taken from there
    have hgrow : (s.touch x op.point).Grows (· = op.point) (s.act op (.borrow kind y x)) :=
      Survey.grows_write.trans (Survey.grows_define rfl)
    have hborrows : (s.act op (.borrow kind y x)).borrows = (s.touch x op.point).borrows ++
        [(s.touch x op.point).borrowOf (some y) kind x op.point] := by
      simp [Survey.act, Survey.lend, Survey.define, Survey.take]
    exact .single ((hin.touch ht.sound).effect_borrow ht.book ht.sound.touch ht.endings hgrow hsound
      hrec hborrows (Survey.scopes_lend _ _ _ _ _) hperf.2)
  | call args result =>
    have hwrite : (args.foldl (Survey.pass op.point) s).Grows (· = op.point)
        (s.act op (.call args result)) := Survey.grows_write?
    exact hin.effects_passAll ht.book ht.sound ht.endings (hrec.of_grows hwrite) hperf
  | ret x =>
    cases x with
    | none =>
      obtain rfl := hperf
      exact .single .returned
    | some x =>
      obtain ⟨v, hret, rfl⟩ := hperf
      exact (effects_handOver (ret_cases hret).2).tail .returned
  | enter =>
    obtain rfl := hperf
    exact .single (.blocked _)
  | exit => exact hin.effects_exit ht.book ht.earlier hperf

/-- Closing the loans that ended is one effect. -/
theorem InStep.effect_settled (hin : InStep c.book s es now w) (hb : c.book.Sound) (q : Point)
    (inclusive : Bool) : Effect c callers p w (Walk.settled w q inclusive) :=
  .closed _ (hin.eq_of_id hb)

/-- **A step is a sequence of effects.** -/
theorem InStep.effects {op : Operation} {v : State} (hin : InStep c.book s es now w)
    (hnow : now < op.point) (ht : Turn c.book s es op)
    (hnames : ∀ x ty, op.action = .ok (.declare x ty) → x.base ∉ callers)
    (hstep : Walk.step c w op = .ok v) : Effects c callers op.point w v := by
  obtain ⟨-, a, u, hact, hperf, hwrite⟩ := step_cases hstep
  have hbegin := hin.settled ht.book hnow
  have hmid := hbegin.perform ht hact hperf
  have heffects : Effects c callers op.point w (Walk.settled u op.point true) :=
    ((Relation.ReflTransGen.single (hin.effect_settled ht.book op.point false)).trans
      (hbegin.effects_perform ht hact (fun x ty ha => hnames x ty (ha ▸ hact)) hperf)).tail
      (hmid.effect_settled ht.book op.point true)
  rcases hwrite with ⟨-, rfl⟩ | ⟨x, -, hwrite⟩
  · exact heffects
  · exact heffects.tail (.written hwrite)

end BorrowCheck.Walk
