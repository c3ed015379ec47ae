import BorrowCheck.Proofs.Aliasing

/-!
# Outstanding loans are the live ones

The ledger is kept step by step: loans are opened at the entry, by borrows, by moves and by calls,
and closed when they end, before an action and after it, or when a block is left. The survey says
all at once which loans are **live** beyond a point (`BorrowCheck.Function.liveBeyond`): they were
taken, they are needed later, and no block that held their borrower was left in the meantime. The
two agree after every operation that the walk completes
(`BorrowCheck.Function.outstanding_eq_liveBeyond`), and a loan that was closed stays closed.

That the loans agree is read off the relation between walk and survey
(`BorrowCheck.Walk.InStep`). That none comes back is a property of the ledger alone: a change
opens only loans that were never opened before.
-/

namespace BorrowCheck

/-! ### Loans that were closed -/

namespace Ledger

variable {b : LoanBook} {l m : Ledger} {loan : Loan}

/-- A loan that is due was never opened. -/
theorem not_mem_opened_of_dueAt {p : Point} (h : loan ∈ l.dueAt b p) : loan.id ∉ l.opened := by
  simpa using (List.mem_filter.mp h).2

theorem Change.nodup_opened (h : Change b l m) (hl : l.opened.Nodup) : m.opened.Nodup := by
  cases h with
  | strike loans => exact hl
  | record hdue hexcl =>
    refine List.nodup_append.mpr ⟨hl, List.pairwise_singleton _ _, fun i hi j hj => ?_⟩
    rw [List.mem_singleton.mp hj]
    rintro rfl
    exact not_mem_opened_of_dueAt hdue hi
  | release x p => exact hl

/-- **No loan is opened twice.** -/
theorem Evolves.nodup_opened (h : Evolves b l m) (hl : l.opened.Nodup) : m.opened.Nodup := by
  induction h with
  | refl => exact hl
  | tail _ hchange ih => exact hchange.nodup_opened ih

/-- The loan was opened and closed again. -/
def Closed (l : Ledger) (loan : Loan) : Prop :=
  loan.id ∈ l.opened ∧ loan ∉ l.outstanding

theorem Change.closed (h : Change b l m) (hl : l.Closed loan) : m.Closed loan := by
  obtain ⟨hopened, hout⟩ := hl
  cases h with
  | strike loans => exact ⟨hopened, fun hmem => hout (List.mem_filter.mp hmem).1⟩
  | record hdue hexcl =>
    refine ⟨List.mem_append_left _ hopened, fun hmem => ?_⟩
    rcases List.mem_append.mp hmem with hmem | hmem
    · exact hout hmem
    · rw [← List.mem_singleton.mp hmem] at hdue
      exact not_mem_opened_of_dueAt hdue hopened
  | release x p => exact ⟨hopened, hout⟩

/-- **A loan that was closed stays closed.** -/
theorem Evolves.closed (h : Evolves b l m) (hl : l.Closed loan) : m.Closed loan := by
  induction h with
  | refl => exact hl
  | tail _ hchange ih => exact hchange.closed ih

end Ledger

theorem Walk.evolves_steps {c : Context} {ops : List Operation} {w t : State}
    (h : ops.foldlM (step c) w = .ok t) : Ledger.Evolves c.book w.ledger t.ledger := by
  induction ops generalizing w with
  | nil =>
    obtain rfl := pure_eq_ok_iff.mp h
    exact .refl
  | cons op ops ih =>
    obtain ⟨u, hu, hrest⟩ := foldlM_cons_eq_ok_iff.mp h
    exact (evolves_step hu).trans (ih hrest)

namespace Function

variable {f : Function} {policy : Policy} {pre post : List Operation} {op : Operation}
  {i j : Nat} {t u : Walk.State}

/-- What is reached later comes from what was reached before. -/
theorem evolves_of_steps {op' : Operation} (hij : i ≤ j)
    (hi : (f.walk policy).steps[i]? = some (op, t))
    (hj : (f.walk policy).steps[j]? = some (op', u)) :
    Ledger.Evolves f.book t.ledger u.ledger := by
  obtain ⟨-, -, -, ht⟩ := reach_of_steps hi
  obtain ⟨-, -, -, hu⟩ := reach_of_steps hj
  have hsplit : f.ops.take (j + 1) =
      f.ops.take (i + 1) ++ (f.ops.take (j + 1)).drop (i + 1) := by
    conv_lhs => rw [← List.take_append_drop (i + 1) (f.ops.take (j + 1)), List.take_take,
      Nat.min_eq_left (Nat.succ_le_succ hij)]
  rw [hsplit] at hu
  obtain ⟨t', ht', hrun⟩ := reach_append_eq_ok_iff.mp hu
  obtain rfl : t = t' := Except.ok.inj (ht.symm.trans ht')
  exact Walk.evolves_steps hrun

/-- The states after completed operations are among those that a walk goes through. -/
theorem reached_of_steps (h : (f.walk policy).steps[i]? = some (op, t)) : f.Reached policy t := by
  obtain ⟨hdis, hops, htake, ht⟩ := reach_of_steps h
  rw [htake] at ht
  obtain ⟨s, hs, hstep⟩ := reach_concat_eq_ok_iff.mp ht
  exact .moment hdis hops hs (.completed hstep)

/-- No loan is opened twice in any state that a walk goes through. -/
theorem Reached.nodup_opened (h : f.Reached policy u) : u.ledger.opened.Nodup := by
  cases h with
  | start hdis hstore =>
    rw [((ordered_of_disorder? hdis).inStep_start hstore).opened]
    exact List.nodup_range
  | moment hdis hops hreach hmoment =>
    refine hmoment.evolves.nodup_opened ?_
    rw [((ordered_of_disorder? hdis).inStep_of_reach hops hreach).opened]
    exact List.nodup_range

/-! ### Loans that are live -/

/-- The loans of `f` that are **live beyond** `p`: taken up to `p`, needed after it, and with a
borrower that did not go out of scope after the loan was taken, up to `p`. -/
def liveBeyond (f : Function) (p : Point) : List Loan :=
  f.book.loans.filter fun l =>
    l.origin ≤ p && p < l.last && !l.lapsed (f.endings.filter fun e => e.point ≤ p)

/-- The loans that stand after an operation are those that are live beyond its point. -/
theorem Ordered.standing_eq_liveBeyond (h : f.Ordered) (hops : f.ops = pre ++ op :: post) :
    f.book.standing (Survey.after f (pre ++ [op])).borrows.length
      ((Survey.after f []).endings (pre ++ [op])) op.point = f.liveBeyond op.point := by
  have htaken : (f.book.loans.filter fun l => l.origin ≤ op.point) =
      f.book.loans.take (Survey.after f (pre ++ [op])).borrows.length := by
    refine f.book_sound.filter_eq_of_id_iff (m := 0) fun l hl => ?_
    rw [decide_eq_true_eq, h.origin_le_iff hops hl]
    exact (and_iff_right (Nat.zero_le _)).symm
  rw [LoanBook.standing, ← htaken, List.filter_filter, liveBeyond, h.endings_upTo hops]
  refine List.filter_congr fun l _ => ?_
  rw [Bool.and_comm, Bool.and_assoc]

/-- The loans of a book are listed by their numbers. -/
theorem pairwise_id (f : Function) : f.book.loans.Pairwise fun l m => l.id < m.id := by
  have hrange := f.map_id_take (Nat.le_refl f.book.loans.length)
  rw [List.take_length] at hrange
  rw [← List.pairwise_map (f := Loan.id) (R := fun a b => a < b), hrange]
  exact List.pairwise_lt_range

/-- **Outstanding loans are the live ones.** After an operation that the walk completes, the loans
that are outstanding are those of the book that were taken, are needed later and whose borrower did
not go out of scope since; they are listed by number; and one that was closed by then is not
outstanding later on. Besides, no loan is opened twice in any state that the walk goes through. -/
theorem outstanding_eq_liveBeyond (f : Function) (policy : Policy) :
    (∀ (i : Nat) op t, (f.walk policy).steps[i]? = some (op, t) →
      t.ledger.outstanding = f.liveBeyond op.point ∧
      t.ledger.outstanding.Pairwise (fun l m => l.id < m.id) ∧
      ∀ j op' u, i ≤ j → (f.walk policy).steps[j]? = some (op', u) → ∀ l : Loan,
        l.id ∈ t.ledger.opened → l ∉ t.ledger.outstanding → l ∉ u.ledger.outstanding) ∧
    ∀ u, f.Reached policy u → u.ledger.opened.Nodup := by
  refine ⟨fun i op t hi => ?_, fun u hu => hu.nodup_opened⟩
  obtain ⟨hdis, hops, htake, ht⟩ := reach_of_steps hi
  have hord := ordered_of_disorder? hdis
  have hops' := hops.trans (List.append_cons _ _ _)
  rw [htake] at ht
  have hlive : t.ledger.outstanding = f.liveBeyond op.point := by
    rw [(hord.inStep_of_reach hops' ht).outstanding, pointAfter_concat,
      hord.standing_eq_liveBeyond hops]
  refine ⟨hlive, ?_, fun j op' u hij hj l hopened hout => ?_⟩
  · rw [hlive]
    exact f.pairwise_id.sublist List.filter_sublist
  · exact ((evolves_of_steps hij hi hj).closed ⟨hopened, hout⟩).2

/-- A function that lends `s` to a variable of a block and, after the block, to `r`. -/
def lendsInBlock : Function where
  name := "f"
  ops :=
    [.declare 1 { base := "s" } (.named "T"), .assign 2 { base := "s" } [],
      .declare 3 { base := "r" } (.named "R"), .enter 4, .declare 5 { base := "q" } (.named "R"),
      .borrow 6 .shared { base := "q" } { base := "s" },
      .borrow 7 .shared { base := "r" } (Place.deref { base := "q" }), .exit 8,
      .deref 9 { base := "r" }]

/-- The loan of `s` to `q`, number 0, is needed until `r` is used, but is closed when the block is
left and stays so; the loan to `r`, number 1, stays outstanding. -/
theorem outstanding_eq_liveBeyond_lendsInBlock :
    ∃ op t op' u, (lendsInBlock.walk {}).steps[7]? = some (op, t) ∧
      (lendsInBlock.walk {}).steps[8]? = some (op', u) ∧
      lendsInBlock.book.loans.map (·.last) = [9, 9] ∧ op.point = 8 ∧
      t.ledger.opened = [0, 1] ∧ t.ledger.outstanding.map (·.id) = [1] ∧
      (∀ l, l.id = 0 → l ∉ t.ledger.outstanding ∧ l ∉ u.ledger.outstanding) ∧
      lendsInBlock.Reached {} u ∧ u.ledger.opened.Nodup := by
  have hexit : ((lendsInBlock.walk {}).steps[7]?).map
      (fun e => (e.1.point, e.2.ledger.opened)) = some (8, [0, 1]) := by decide +kernel
  have hlast : ((lendsInBlock.walk {}).steps[8]?).isSome = true := by decide +kernel
  obtain ⟨⟨op, t⟩, ht, heq⟩ := Option.map_eq_some_iff.mp hexit
  obtain ⟨hpoint, hopened⟩ := Prod.mk.inj heq
  obtain ⟨⟨op', u⟩, hu⟩ := Option.isSome_iff_exists.mp hlast
  obtain ⟨hsteps, hnodup⟩ := outstanding_eq_liveBeyond lendsInBlock {}
  obtain ⟨hlive, -, hclosed⟩ := hsteps 7 op t ht
  have hids : t.ledger.outstanding.map (·.id) = [1] := by
    rw [hlive, show op.point = 8 from hpoint]
    decide +kernel
  refine ⟨op, t, op', u, ht, hu, by decide +kernel, hpoint, hopened, hids, fun l hl => ?_,
    reached_of_steps hu, hnodup u (reached_of_steps hu)⟩
  have hout : l ∉ t.ledger.outstanding := fun hmem => by
    have hid := List.mem_map_of_mem (f := Loan.id) hmem
    rw [hids, hl] at hid
    cases List.mem_singleton.mp hid
  refine ⟨hout, hclosed 8 op' u (by decide) hu l ?_ hout⟩
  rw [show t.ledger.opened = [0, 1] from hopened, hl]
  exact List.mem_cons_self

end Function

end BorrowCheck
