import BorrowCheck.Proofs.InStep
import Mathlib.Data.List.Pairwise
import Mathlib.Logic.Relation

/-!
# Shared or exclusive

Two loans of common storage, one of which is exclusive, are only ever outstanding together when one
was taken through the other. A loan is compared with the outstanding ones once, when it is opened;
that no later change brings two loans together again is what this file is about.

A walk changes its ledger in three ways (`BorrowCheck.Ledger.Change`): loans are closed, a loan that
nothing excludes is opened, and loans are released. None of them makes two outstanding loans clash,
so it is enough that the ledger of a walk only ever changes that way
(`BorrowCheck.Ledger.Evolves`), which is checked function by function.

The states in question are all those that a walk goes through, also in the midst of an operation and
also when that operation fails later (`BorrowCheck.Function.Reached`).
-/

namespace BorrowCheck

/-! ### Lineages -/

namespace LoanBook

variable {b : LoanBook} {l m : Loan}

/-- The loans `l` and `m`, opened in this order, are **compatible**: if they lend common storage and
one is exclusive, `m` was taken through `l`. -/
def Compatible (b : LoanBook) (l m : Loan) : Prop :=
  l.target.overlaps m.target = true → (l.isExclusive = true ∨ m.isExclusive = true) →
    l.id ∈ b.lineage m

/-- Of two loans of a list that is compatible in its order, the older one is in the lineage of the
younger one. -/
theorem lineage_of_pairwise {ls : List Loan} (h : ls.Pairwise b.Compatible) (hl : l ∈ ls)
    (hm : m ∈ ls) (hne : l ≠ m) (hover : l.target.overlaps m.target = true)
    (hexcl : l.isExclusive = true ∨ m.isExclusive = true) :
    (l.id < m.id ∧ l.id ∈ b.lineage m) ∨ (m.id < l.id ∧ m.id ∈ b.lineage l) := by
  have hsym : ls.Pairwise fun l m => b.Compatible l m ∨ b.Compatible m l := h.imp Or.inl
  have : Std.Symm fun l m => b.Compatible l m ∨ b.Compatible m l := ⟨fun _ _ => Or.symm⟩
  rcases hsym.forall hl hm hne with hlm | hml
  · have hmem := hlm hover hexcl
    exact Or.inl ⟨lt_of_mem_lineageFrom hmem, hmem⟩
  · have hmem := hml (by rwa [Place.overlaps_comm]) hexcl.symm
    exact Or.inr ⟨lt_of_mem_lineageFrom hmem, hmem⟩

end LoanBook

/-! ### How a ledger changes -/

namespace Ledger

variable {b : LoanBook} {l m : Ledger}

/-- One **change** of a ledger. -/
inductive Change (b : LoanBook) : Ledger → Ledger → Prop
  /-- Loans are closed. -/
  | strike (l : Ledger) (loans : List Loan) : Change b l (l.strike loans)
  /-- A loan that is due is opened, unless an outstanding one excludes it. -/
  | record {l : Ledger} {loan : Loan} {p : Point} :
      loan ∈ l.dueAt b p → l.excluding? b loan = none → Change b l (l.record loan)
  /-- What a place held is released. -/
  | release (l : Ledger) (x : Place) (p : Point) : Change b l (l.releaseUnder x p)

/-- Any number of changes. -/
abbrev Evolves (b : LoanBook) : Ledger → Ledger → Prop :=
  Relation.ReflTransGen (Change b)

/-- A loan that nothing excludes is compatible with all that are outstanding. -/
theorem compatible_of_excluding? {loan other : Loan} (h : l.excluding? b loan = none)
    (hother : other ∈ l.outstanding) : b.Compatible other loan := by
  intro hover hexcl
  by_contra hlineage
  have hno := List.find?_eq_none.mp h other hother
  simp only [List.contains_eq_mem, hlineage, hover, decide_false, Bool.not_false, Bool.true_and,
    Bool.or_eq_true] at hno
  exact hno hexcl.symm

theorem Change.pairwise (h : Change b l m) (hl : l.outstanding.Pairwise b.Compatible) :
    m.outstanding.Pairwise b.Compatible := by
  cases h with
  | strike loans => exact hl.sublist List.filter_sublist
  | record hdue hexcl =>
    refine List.pairwise_append.mpr ⟨hl, List.pairwise_singleton _ _, ?_⟩
    intro other hother loan hloan
    obtain rfl := List.mem_singleton.mp hloan
    exact compatible_of_excluding? hexcl hother
  | release x p => exact hl

/-- **Outstanding loans stay compatible.** -/
theorem Evolves.pairwise (h : Evolves b l m) (hl : l.outstanding.Pairwise b.Compatible) :
    m.outstanding.Pairwise b.Compatible := by
  induction h with
  | refl => exact hl
  | tail _ hchange ih => exact hchange.pairwise ih

end Ledger

namespace Walk

variable {c : Context} {p : Point} {w u t : State} {x y : Place}

/-! ### How a walk changes its ledger -/

theorem evolves_lend {s t : Books} {b : LoanBook} {borrower : Option Place} {kind : BorrowKind}
    {loan : Loan} (h : s.lend b borrower x kind p = .ok (t, loan)) :
    Ledger.Evolves b s.ledger t.ledger := by
  obtain ⟨hdue, hexcl, rfl⟩ := Books.lend_eq_ok_iff.mp h
  exact .single (.record (List.mem_of_find?_eq_some hdue) hexcl)

theorem evolves_lendAll {s t : Books} {loans : List Loan} (h : lendAll c y p s loans = .ok t) :
    Ledger.Evolves c.book s.ledger t.ledger := by
  induction loans generalizing s with
  | nil =>
    obtain rfl := pure_eq_ok_iff.mp h
    exact .refl
  | cons loan loans ih =>
    obtain ⟨s', hs', hrest⟩ := foldlM_cons_eq_ok_iff.mp h
    obtain ⟨⟨s'', l⟩, hlend, hpure⟩ := bind_eq_ok_iff.mp hs'
    obtain rfl := pure_eq_ok_iff.mp hpure
    exact (evolves_lend hlend).trans (ih hrest)

theorem evolves_handOver (h : handOver c w x p = .ok u) :
    Ledger.Evolves c.book w.ledger u.ledger := by
  rw [(handOver_frame h).1]

theorem evolves_borrow {borrower : Option Place} {kind : BorrowKind}
    (h : borrow c w borrower kind x p = .ok u) : Ledger.Evolves c.book w.ledger u.ledger := by
  obtain ⟨-, -, -, books, l, hlend, rfl⟩ := borrow_cases h
  exact evolves_lend hlend

theorem evolves_passAll {args : List Arg} (h : args.foldlM (passArg c p) w = .ok u) :
    Ledger.Evolves c.book w.ledger u.ledger := by
  induction args generalizing w with
  | nil =>
    obtain rfl := pure_eq_ok_iff.mp h
    exact .refl
  | cons a args ih =>
    obtain ⟨v, hv, hrest⟩ := foldlM_cons_eq_ok_iff.mp h
    refine Relation.ReflTransGen.trans ?_ (ih hrest)
    rcases passArg_cases hv with ⟨-, hover⟩ | ⟨kind, -, hborrow⟩
    · exact evolves_handOver hover
    · exact evolves_borrow hborrow

theorem evolves_move (h : move c w y x p = .ok u) : Ledger.Evolves c.book w.ledger u.ledger := by
  obtain ⟨-, books, hlend, hend⟩ := move_cases h
  have hopen := evolves_lendAll hlend
  rcases hend with ⟨-, rfl⟩ | hvac
  · exact hopen
  · obtain ⟨-, -, -, -, rfl⟩ := vacate_eq_ok_iff.mp hvac
    exact hopen

theorem evolves_perform {a : Action} {target : Option Place}
    (h : perform c w p a = .ok (u, target)) : Ledger.Evolves c.book w.ledger u.ledger := by
  have hperf := (perform_cases h).1
  cases a with
  | declare x ty =>
    obtain ⟨store, -, rfl⟩ := hperf
    exact .refl
  | assign x ys | deref x | use x =>
    obtain ⟨-, rfl⟩ := hperf
    exact .refl
  | move y x => exact evolves_move hperf
  | borrow kind y x => exact evolves_borrow hperf.2
  | call args result => exact evolves_passAll hperf
  | ret x =>
    cases x with
    | none =>
      obtain rfl := hperf
      exact .refl
    | some x =>
      obtain ⟨v, hret, rfl⟩ := hperf
      have hover := evolves_handOver (ret_cases hret).2
      exact hover
  | enter =>
    obtain rfl := hperf
    exact .refl
  | exit =>
    obtain ⟨dying, scopes, -, -, rfl⟩ := exit_cases hperf
    exact .single (.strike _ _)

theorem evolves_settled {inclusive : Bool} :
    Ledger.Evolves c.book w.ledger (settled w p inclusive).ledger :=
  .single (.strike _ _)

theorem evolves_write {closed : List Loan} (h : write c w closed x p = .ok u) :
    Ledger.Evolves c.book w.ledger u.ledger := by
  rcases (write_cases h).2 with ⟨-, -, rfl⟩ | ⟨-, store, -, rfl⟩
  · exact .refl
  · exact .single (.release _ _ _)

theorem evolves_step {op : Operation} (h : step c w op = .ok t) :
    Ledger.Evolves c.book w.ledger t.ledger := by
  obtain ⟨-, a, u, -, hperf, hwrite⟩ := step_cases h
  have hclosed : Ledger.Evolves c.book w.ledger (settled u op.point true).ledger :=
    (evolves_settled.trans (evolves_perform hperf)).trans evolves_settled
  rcases hwrite with ⟨-, rfl⟩ | ⟨x, -, hwrite⟩
  · exact hclosed
  · exact hclosed.trans (evolves_write hwrite)

/-! ### The states that a walk goes through -/

/-- The states in which the ledger is found while an action is performed at `p` from the state
`s`, whether or not it can be completed: at the start, between the loans that a move opens, between
the arguments of a call, and at the end. -/
inductive During (c : Context) (p : Point) (s : State) : Action → State → Prop
  | start (a : Action) : During c p s a s
  | lent {x y : Place} {loans rest : List Loan} {books : Books} :
      dueFor c s y p = loans ++ rest → lendAll c y p s.toBooks loans = .ok books →
        During c p s (.move y x) { s with toBooks := books }
  | passed {args rest : List Arg} {result : Option Place} {u : State} :
      args.foldlM (passArg c p) s = .ok u → During c p s (.call (args ++ rest) result) u
  | done {a : Action} {target : Option Place} {u : State} :
      perform c s p a = .ok (u, target) → During c p s a u

/-- The states in which the ledger is found while an operation is walked through from the state
`s`, whether or not it can be completed. -/
inductive Moment (c : Context) (s : State) (op : Operation) : State → Prop
  /-- The loans that ended earlier are closed. -/
  | settled : Moment c s op (settled s op.point false)
  /-- The action is being performed. -/
  | during {a : Action} {u : State} : op.action = .ok a →
      During c op.point (Walk.settled s op.point false) a u → Moment c s op u
  /-- The action was performed, and the loans that end here are closed. -/
  | closed {a : Action} {target : Option Place} {u : State} : op.action = .ok a →
      perform c (Walk.settled s op.point false) op.point a = .ok (u, target) →
        Moment c s op (Walk.settled u op.point true)
  /-- The operation is completed. -/
  | completed {t : State} : step c s op = .ok t → Moment c s op t

theorem During.evolves {a : Action} (h : During c p w a u) :
    Ledger.Evolves c.book w.ledger u.ledger := by
  cases h with
  | start => exact .refl
  | lent _ hlend => exact evolves_lendAll hlend
  | passed hpass => exact evolves_passAll hpass
  | done hperf => exact evolves_perform hperf

theorem Moment.evolves {op : Operation} (h : Moment c w op u) :
    Ledger.Evolves c.book w.ledger u.ledger := by
  cases h with
  | settled => exact evolves_settled
  | during _ hduring => exact evolves_settled.trans hduring.evolves
  | closed _ hperf => exact (evolves_settled.trans (evolves_perform hperf)).trans evolves_settled
  | completed hstep => exact evolves_step hstep

end Walk

/-! ### Loans of the parameters -/

theorem Place.ofCaller_injective {m n : String}
    (h : (Place.ofCaller m).base = (Place.ofCaller n).base) : m = n := by
  simpa [Place.ofCaller, ← String.toList_inj] using h

namespace Survey

theorem scopes_foldl_receive (s : Survey) (entry : Point) (params : List Param) :
    (params.foldl (receive entry) s).scopes.names =
      s.scopes.current ++ params.map Param.name ++ s.scopes.outer.flatten := by
  induction params generalizing s with
  | nil => simp [Scopes.names]
  | cons param params ih => simp [ih, Scopes.declare]

theorem RecordedBy.map_take {s : Survey} {b : LoanBook} (h : s.RecordedBy b) :
    (b.loans.take s.borrows.length).map Loan.toBorrow = s.borrows := by
  refine List.ext_getElem? fun i => ?_
  rcases Nat.lt_or_ge i s.borrows.length with hi | hi
  · obtain ⟨l, hl, hbr⟩ := h.loan i _ (List.getElem?_eq_getElem hi)
    rw [LoanBook.get?] at hl
    rw [List.getElem?_map, List.getElem?_take_of_lt hi, hl, Option.map_some, hbr,
      List.getElem?_eq_getElem hi]
  · rw [List.getElem?_eq_none (by simp; omega), List.getElem?_eq_none hi]

end Survey

namespace Function

variable {f : Function} {policy : Policy} {pre post : List Operation}

/-- Parameters that can be declared have different names. -/
theorem nodup_of_declareParams {store : Store} (h : Walk.declareParams f.params = .ok store) :
    (f.params.map Param.name).Nodup := by
  have hdecl : store.Scoped ∧ store.scopes = (f.params.foldl (Survey.receive f.entry) {}).scopes :=
    scoped_of_declare Store.scoped_empty rfl h
  have hnodup := hdecl.1.nodup
  rw [hdecl.2, Survey.scopes_foldl_receive] at hnodup
  simpa using hnodup

/-- The loans of different parameters lend different storage. -/
theorem pairwise_start (h : f.Ordered) {store : Store}
    (hstore : Walk.declareParams f.params = .ok store) :
    (f.start store).ledger.outstanding.Pairwise f.book.Compatible := by
  have hborrows : (Survey.after f []).borrows.Pairwise
      fun a b => a.target.base ≠ b.target.base := by
    rw [Survey.after, List.foldl_nil, Survey.borrows_receive, List.nil_append,
      List.pairwise_filterMap]
    refine (List.pairwise_map.mp (nodup_of_declareParams hstore)).imp ?_
    intro q r hne a ha b hb hbase
    obtain ⟨_, -, rfl⟩ := Option.map_eq_some_iff.mp ha
    obtain ⟨_, -, rfl⟩ := Option.map_eq_some_iff.mp hb
    exact hne (Place.ofCaller_injective hbase)
  have hin := h.inStep_start hstore
  rw [hin.outstanding, LoanBook.standing]
  rw [← (recorded_after (List.nil_append f.ops).symm).map_take, List.pairwise_map] at hborrows
  -- what overlaps lies in one variable, so there is nothing to compare
  exact (hborrows.sublist List.filter_sublist).imp fun hne hover =>
    absurd (Place.base_eq_of_overlaps hover) hne

/-- The states in which the ledger is found while `f` is walked through, whether or not `f` is
accepted. -/
inductive Reached (f : Function) (policy : Policy) : Walk.State → Prop
  /-- Before the first operation. -/
  | start {store : Store} : f.disorder? = none → Walk.declareParams f.params = .ok store →
      Reached f policy (f.start store)
  /-- While the operation `op` is walked through. -/
  | moment {pre post : List Operation} {op : Operation} {s u : Walk.State} :
      f.disorder? = none → f.ops = pre ++ op :: post → f.reach policy pre = .ok s →
      Walk.Moment (f.context policy) s op u → Reached f policy u

/-- **Outstanding loans are compatible in every state that a walk goes through.** -/
theorem Reached.pairwise {u : Walk.State} (h : f.Reached policy u) :
    u.ledger.outstanding.Pairwise f.book.Compatible := by
  cases h with
  | start hdis hstore => exact pairwise_start (ordered_of_disorder? hdis) hstore
  | @moment pre post op s u hdis hops hreach hmoment =>
    refine hmoment.evolves.pairwise ?_
    refine reach_induction (P := fun _ w => w.ledger.outstanding.Pairwise f.book.Compatible)
      (fun store hstore => pairwise_start (ordered_of_disorder? hdis) hstore) ?_ hops hreach
    intro _ _ _ w t _ _ ih hstep
    exact (Walk.evolves_step hstep).pairwise ih

/-- A loan that is not one of a parameter is taken by an operation of the body. -/
theorem exists_turn_of_origin {m : Loan} (hm : m ∈ f.book.loans)
    (hid : (Survey.after f []).borrows.length ≤ m.id) :
    ∃ pre op post, f.ops = pre ++ op :: post ∧ op.point = m.origin := by
  obtain ⟨op, hop, hpoint⟩ := exists_op_of_origin (List.nil_append f.ops).symm hm hid
  obtain ⟨pre, post, hops⟩ := List.append_of_mem hop
  exact ⟨pre, op, post, hops, hpoint⟩

/-- **When a loan is taken, the older ones that are still needed are outstanding with it**, unless
they have lapsed. -/
theorem Accepted.exists_reached (h : f.Accepted policy) {l m : Loan} (hl : l ∈ f.book.loans)
    (hm : m ∈ f.book.loans) (hid : l.id < m.id) (hlast : m.origin ≤ l.last)
    (hscope : f.lapsedBefore l m.origin = false) :
    ∃ u, f.Reached policy u ∧ l ∈ u.ledger.outstanding ∧ m ∈ u.ledger.outstanding := by
  have hb := f.book_sound
  obtain ⟨hdis, t, ht⟩ := accepted_iff.mp h
  rcases Nat.lt_or_ge m.id (Survey.after f []).borrows.length with hlt | hge
  · -- both are loans of parameters
    obtain ⟨store, hstore, -⟩ := bind_eq_ok_iff.mp ht
    have hin := h.ordered.inStep_start hstore
    have hentry : ∀ k ∈ f.book.loans, k.id < (Survey.after f []).borrows.length →
        k ∈ (f.start store).ledger.outstanding := by
      intro k hk hkid
      refine (hin.mem_outstanding hb).mpr ⟨hk, hkid, ?_, rfl⟩
      have horigin : k ∈ f.book.takenAt f.entry := by
        rw [h.ordered.takenAt_entry]
        exact hb.mem_take.mpr ⟨hk, hkid⟩
      have hk' := hb.origin_le_last k hk
      rw [decide_eq_true_eq.mp (List.mem_filter.mp horigin).2] at hk'
      exact Int.sub_one_lt_of_le hk'
    exact ⟨_, .start hdis hstore, hentry l hl (Nat.lt_trans hid hlt), hentry m hm hlt⟩
  · -- the younger one is taken by an operation; both are outstanding once it was performed
    obtain ⟨pre, op, post, hops, hpoint⟩ := exists_turn_of_origin hm hge
    obtain ⟨w, a, u, hw, hact, hperf, hin, hout, -⟩ := h.stages hops
    have hturn := h.ordered.turn hops
    have hlen : m.id < ((Survey.after f pre).observe op).borrows.length := by
      by_contra hge'
      exact hturn.later m hm (Nat.le_of_not_lt hge') hpoint.symm
    -- an operation that takes a loan leaves no block
    have hkind : op.kind ≠ .exit := by
      intro hkind
      have hexit : ((Survey.after f pre).observe op).borrows = (Survey.after f pre).borrows := by
        simp only [Survey.observe, hkind, Survey.exit]
        split <;> rfl
      rw [hexit] at hlen
      exact absurd (hturn.earlier m hm hlen) (by rw [hpoint]; exact lt_irrefl _)
    rw [Survey.ending?_eq_none _ hkind, Option.toList_none, List.append_nil] at hout
    rw [← hpoint, h.ordered.lapsedBefore_eq hops] at hscope
    rw [← hpoint] at hlast
    refine ⟨u, .moment hdis hops hw (.during hact (.done hperf)), ?_, ?_⟩
    · exact (hout.mem_outstanding hb).mpr
        ⟨hl, Nat.lt_trans hid hlen, Int.sub_one_lt_of_le hlast, hscope⟩
    · refine (hout.mem_outstanding hb).mpr ⟨hm, hlen, ?_, ?_⟩
      · rw [hpoint]
        exact Int.sub_one_lt_of_le (hb.origin_le_last m hm)
      · exact Loan.lapsed_eq_false_of_le fun e he => hpoint ▸ le_of_lt (hturn.endings e he)

/-- **Shared or exclusive.** In every state that a walk goes through, of two outstanding loans of
common storage, one of which is exclusive, the younger one was taken through the older one. So in
an accepted function, a loan that is taken while an older one of common storage is needed was taken
through it, when one of them is exclusive and the borrower of the older one did not go out of scope
in between. -/
theorem shared_or_exclusive (f : Function) (policy : Policy) :
    (∀ u, f.Reached policy u → ∀ l ∈ u.ledger.outstanding, ∀ m ∈ u.ledger.outstanding, l ≠ m →
      l.target.overlaps m.target = true → (l.isExclusive = true ∨ m.isExclusive = true) →
      (l.id < m.id ∧ l.id ∈ f.book.lineage m) ∨ (m.id < l.id ∧ m.id ∈ f.book.lineage l)) ∧
    (f.Accepted policy → ∀ l ∈ f.book.loans, ∀ m ∈ f.book.loans, l.id < m.id →
      m.origin ≤ l.last → l.target.overlaps m.target = true →
      (l.isExclusive = true ∨ m.isExclusive = true) → f.lapsedBefore l m.origin = false →
      l.id ∈ f.book.lineage m) := by
  have hstates : ∀ u, f.Reached policy u → ∀ l ∈ u.ledger.outstanding,
      ∀ m ∈ u.ledger.outstanding, l ≠ m → l.target.overlaps m.target = true →
      (l.isExclusive = true ∨ m.isExclusive = true) →
      (l.id < m.id ∧ l.id ∈ f.book.lineage m) ∨ (m.id < l.id ∧ m.id ∈ f.book.lineage l) :=
    fun u hu l hl m hm hne hover hexcl =>
      LoanBook.lineage_of_pairwise hu.pairwise hl hm hne hover hexcl
  refine ⟨hstates, fun h l hl m hm hid hlast hover hexcl hscope => ?_⟩
  obtain ⟨u, hu, hlu, hmu⟩ := h.exists_reached hl hm hid hlast hscope
  have hne : l ≠ m := fun heq => Nat.lt_irrefl _ (heq ▸ hid)
  rcases hstates u hu l hlu m hmu hne hover hexcl with ⟨-, hmem⟩ | ⟨hlt, -⟩
  · exact hmem
  · exact absurd hid (Nat.not_lt_of_lt hlt)

/-- A function that lends `s` to `r` and reborrows it from there for `q`, both exclusively, and uses
`q` and `r` in this order. -/
def reborrowed : Function where
  name := "f"
  ops :=
    [.declare 1 { base := "s" } (.named "T"), .assign 2 { base := "s" } [],
      .declare 3 { base := "r" } (.named "R"), .borrow 4 .exclusive { base := "r" } { base := "s" },
      .declare 5 { base := "q" } (.named "R"),
      .borrow 6 .exclusive { base := "q" } (Place.deref { base := "r" }),
      .deref 7 { base := "q" }, .deref 8 { base := "r" }]

/-- The loan of `s` to `r` in `BorrowCheck.Function.reborrowed`. -/
def loanToR : Loan where
  borrower := some { base := "r" }
  kind := .exclusive
  origin := 4
  target := { base := "s" }
  via := { base := "s" }
  id := 0
  last := 8

/-- The loan of `s` to `q` in `BorrowCheck.Function.reborrowed`. -/
def loanToQ : Loan where
  borrower := some { base := "q" }
  kind := .exclusive
  origin := 6
  target := { base := "s" }
  via := Place.deref { base := "r" }
  parent := some 0
  id := 1
  last := 7

/-- The two loans of `s` are outstanding together, and one was taken through the other. -/
theorem shared_or_exclusive_reborrowed :
    reborrowed.Accepted {} ∧ loanToR ∈ reborrowed.book.loans ∧ loanToQ ∈ reborrowed.book.loans ∧
      loanToQ.origin ≤ loanToR.last ∧ loanToR.target.overlaps loanToQ.target = true ∧
      loanToR.isExclusive = true ∧ reborrowed.lapsedBefore loanToR loanToQ.origin = false ∧
      loanToR.id ∈ reborrowed.book.lineage loanToQ ∧
      ∃ u, reborrowed.Reached {} u ∧ loanToR ∈ u.ledger.outstanding ∧
        loanToQ ∈ u.ledger.outstanding ∧
        ((loanToR.id < loanToQ.id ∧ loanToR.id ∈ reborrowed.book.lineage loanToQ) ∨
          (loanToQ.id < loanToR.id ∧ loanToQ.id ∈ reborrowed.book.lineage loanToR)) := by
  have haccepted : reborrowed.Accepted {} := by decide +kernel
  have hr : loanToR ∈ reborrowed.book.loans := by decide +kernel
  have hq : loanToQ ∈ reborrowed.book.loans := by decide +kernel
  have hscope : reborrowed.lapsedBefore loanToR loanToQ.origin = false := by decide +kernel
  obtain ⟨u, hu, hru, hqu⟩ := haccepted.exists_reached hr hq (by decide) (by decide) hscope
  obtain ⟨hstates, hbook⟩ := shared_or_exclusive reborrowed {}
  exact ⟨haccepted, hr, hq, by decide, by decide, rfl, hscope,
    hbook haccepted _ hr _ hq (by decide) (by decide) (by decide) (Or.inl rfl) hscope,
    u, hu, hru, hqu, hstates u hu _ hru _ hqu (by decide) (by decide) (Or.inl rfl)⟩

end Function

end BorrowCheck
