import BorrowCheck.Proofs.InStep

/-!
# Every borrow is recorded

The survey and the walk go through a function independently of each other, and the walk opens the
loans that the survey took. Where it borrows and finds no loan that is due, there is no verdict.
This file shows that it never comes to that: whatever parts the operations lack, a walk only stops
at a violation (`BorrowCheck.Function.exists_violation_of_stop`), and when it completes it has
opened every loan once, at its origin (`BorrowCheck.Function.OpensAtOrigin`).

A check that gives an answer (`BorrowCheck.Answers`) passes or names a violation. All checks of the
store and of the walk do so, except that opening a loan needs one that is due. Up to the operation
where the walk stops, walk and survey are in step, and there the loan that is due next is the one
that the survey took next. A call takes several, so its arguments are followed one by one.
-/

namespace BorrowCheck

/-! ### Checks that give an answer -/

/-- The check **gives an answer**: it passes, or names a violation. -/
def Answers {α : Type} (x : Except Fault α) : Prop :=
  ∀ fault, x = .error fault → ∃ v, fault = .violation v

section Answers

variable {α β : Type} {x : Except Fault α} {g : α → Except Fault β}

theorem answers_ok (a : α) : Answers (.ok a) := by
  rintro fault ⟨⟩

theorem answers_pure (a : α) : Answers (pure a) :=
  answers_ok a

/-- A violation is an answer. -/
theorem answers_violation (v : Violation) : Answers (.error (.violation v) : Except Fault α) := by
  rintro fault ⟨⟩
  exact ⟨v, rfl⟩

theorem answers_refuse (v : Option Violation) : Answers (refuse v) := by
  cases v with
  | none => exact answers_ok ()
  | some v => exact answers_violation v

theorem answers_refuseFlaw (f : Flaw) : Answers (refuseFlaw f : Except Fault α) :=
  answers_violation (.flaw f)

/-- Checks in a row give an answer when each does, once those before it passed. -/
theorem Answers.bind (hx : Answers x) (hg : ∀ a, x = .ok a → Answers (g a)) :
    Answers (x >>= g) := by
  intro fault h
  cases x with
  | error fault' => exact hx fault (congrArg Except.error (Except.error.inj h))
  | ok a => exact hg a rfl fault h

/-- A check of every element answers when each single check does. -/
theorem answers_forM {check : α → Except Fault Unit} {as : List α}
    (h : ∀ a ∈ as, Answers (check a)) : Answers (as.forM check) := by
  induction as with
  | nil => exact answers_pure ()
  | cons a as ih =>
    rw [List.forM]
    refine (h a List.mem_cons_self).bind fun _ _ => ih fun b hb => ?_
    exact h b (List.mem_cons_of_mem a hb)

/-- A loop answers when its body answers in every state. -/
theorem answers_foldlM {run : β → α → Except Fault β} (h : ∀ b a, Answers (run b a)) (as : List α)
    (b : β) : Answers (as.foldlM run b) := by
  induction as generalizing b with
  | nil => exact answers_pure b
  | cons a as ih =>
    rw [List.foldlM_cons]
    exact (h b a).bind fun c _ => ih c

end Answers

namespace Store

variable (s : Store) (x : Place)

theorem answers_ensureInScope : Answers (s.ensureInScope x) := by
  unfold ensureInScope
  split
  · exact answers_ok ()
  · exact answers_refuseFlaw _

theorem answers_read (liens : List Lien) : Answers (s.read x liens) :=
  (answers_refuse _).bind fun _ _ => answers_refuse _

theorem answers_vacate (p : Point) (liens : List Lien) : Answers (s.vacate x p liens) :=
  (answers_refuse _).bind fun _ _ => (answers_refuse _).bind fun _ _ => answers_pure _

theorem answers_fill : Answers (s.fill x) := by
  unfold fill
  split
  · exact answers_ok _
  · exact answers_refuseFlaw _

theorem answers_overwrite (liens : List Lien) : Answers (s.overwrite x liens) :=
  (answers_refuse _).bind fun _ _ => (answers_refuse _).bind fun _ _ => answers_pure _

theorem answers_declare (ty : Ty) (init : Bool) : Answers (s.declare x ty init) := by
  unfold declare
  split
  · exact answers_refuseFlaw _
  · split
    · exact answers_refuseFlaw _
    · exact answers_ok _

theorem answers_exit : Answers s.exit := by
  unfold exit
  split
  · exact answers_refuseFlaw _
  · exact answers_ok _

end Store

namespace Walk

variable {c : Context} {w : State} {x y : Place} {p : Point}

/-! ### The parts of the walk that open no loan -/

theorem answers_read (c : Context) (w : State) (x : Place) (p : Point) :
    Answers (read c w x p) :=
  (Store.answers_ensureInScope _ _).bind fun _ _ =>
    (Store.answers_read _ _ _).bind fun _ _ => answers_refuse _

theorem answers_vacate (w : State) (x : Place) (p : Point) : Answers (vacate w x p) := by
  have hmove : Answers (do
      let store ← w.store.vacate x p (liensOn w x p false)
      return { w with store }) :=
    (Store.answers_vacate _ _ _ _).bind fun _ _ => answers_pure _
  refine (Store.answers_ensureInScope _ _).bind fun _ _ => ?_
  dsimp only
  split
  · exact (answers_refuse _).bind fun _ _ => hmove
  · exact hmove

theorem answers_handOver (c : Context) (w : State) (x : Place) (p : Point) :
    Answers (handOver c w x p) := by
  unfold handOver
  split
  · exact (answers_read _ _ _ _).bind fun _ _ => answers_pure _
  · exact answers_vacate _ _ _

theorem answers_follow (c : Context) (w : State) (x : Place) (p : Point) :
    Answers (follow c w x p) := by
  refine (answers_read _ _ _ _).bind fun _ _ => ?_
  split
  · exact answers_pure _
  · exact answers_refuseFlaw _

theorem answers_ret (c : Context) (w : State) (x : Place) (p : Point) : Answers (ret c w x p) :=
  (Store.answers_ensureInScope _ _).bind fun _ _ =>
    (answers_refuse _).bind fun _ _ => answers_handOver _ _ _ _

theorem answers_exit (w : State) (p : Point) : Answers (exit w p) :=
  (Store.answers_exit _).bind fun _ _ => (answers_refuse _).bind fun _ _ => answers_pure _

/-- A write behind a reference asks for loans that are held already, so none is looked up in the
book. -/
theorem answers_writeBehind (c : Context) (w : State) (closed : List Loan) (ref : Place)
    (p : Point) : Answers (writeBehind c w closed ref p) := by
  refine (answers_read _ _ _ _).bind fun _ _ => ?_
  dsimp only
  split
  · split
    · exact answers_refuseFlaw _
    · exact answers_refuse _
    · exact answers_pure _
  · exact answers_refuse _

theorem answers_write (c : Context) (w : State) (closed : List Loan) (x : Place) (p : Point) :
    Answers (write c w closed x p) := by
  refine (Store.answers_ensureInScope _ _).bind fun _ _ => ?_
  dsimp only
  split
  · exact (answers_writeBehind _ _ _ _ _).bind fun _ _ => answers_pure _
  · split
    · exact (Store.answers_fill _ _).bind fun _ _ => answers_pure _
    · exact (Store.answers_overwrite _ _ _).bind fun _ _ => answers_pure _

/-! ### Opening loans -/

/-- Opening a loan gives an answer when there is one that is due. -/
theorem answers_lend {s : Books} {b : LoanBook} {borrower : Option Place} {kind : BorrowKind}
    {l : Loan} (hdue : s.ledger.due? b borrower x kind p = some l) :
    Answers (s.lend b borrower x kind p) := by
  rw [Books.lend, hdue]
  dsimp only
  split
  · exact answers_violation _
  · exact answers_ok _

/-- A borrow gives an answer when the loan that it takes is due. -/
theorem answers_borrow {borrower : Option Place} {kind : BorrowKind} {l : Loan}
    (hdue : w.ledger.due? c.book borrower x kind p = some l) :
    Answers (borrow c w borrower kind x p) := by
  refine (Store.answers_ensureInScope _ _).bind fun _ _ => ?_
  dsimp only
  split
  · refine (answers_read _ _ _ _).bind fun _ _ => ?_
    exact (answers_lend hdue).bind fun _ _ => answers_pure _
  · refine (answers_refuse _).bind fun _ _ => ?_
    exact (answers_lend hdue).bind fun _ _ => answers_pure _

section InStep

variable {s : Survey} {es : List Ending}

/-- An argument that is lent is recorded. -/
theorem InStep.answers_passArg (h : InStep c.book s es (p - 1) w) (hb : c.book.Sound)
    (hs : s.Sound) {a : Arg} (hrec : (s.pass p a).RecordedBy c.book) :
    Answers (Walk.passArg c p w a) := by
  unfold Walk.passArg
  split
  · exact answers_handOver _ _ _ _
  next kind hmode =>
    have hborrows : (s.pass p a).borrows = (s.touch a.place p).borrows ++
        [(s.touch a.place p).borrowOf none kind a.place p] := by
      simp [Survey.pass, hmode, Survey.take]
    obtain ⟨l, -, -, hdue⟩ := (h.touch (x := a.place) (p := p) hs).exists_due hb hrec hborrows
    exact answers_borrow hdue

/-- The arguments of a call are recorded, one after the other. -/
theorem InStep.answers_passAll {args : List Arg} (h : InStep c.book s es (p - 1) w)
    (hb : c.book.Sound) (hs : s.Sound) (hes : ∀ e ∈ es, e.point < p)
    (hrec : (args.foldl (Survey.pass p) s).RecordedBy c.book) :
    Answers (args.foldlM (Walk.passArg c p) w) := by
  induction args generalizing s w with
  | nil => exact answers_pure w
  | cons a args ih =>
    rw [List.foldl_cons] at hrec
    have hgrow : (s.pass p a).Grows (· = p)
        (args.foldl (Survey.pass p) (s.pass p a)) :=
      Survey.grows_foldl _ fun _ _ _ => Survey.grows_pass
    have hrec' := hrec.of_grows hgrow
    rw [List.foldlM_cons]
    refine (h.answers_passArg hb hs hrec').bind fun v hv => ?_
    exact ih (h.passArg hb hs hes hrec' hv) hs.pass hrec

/-- What a move hands on is recorded. -/
theorem InStep.answers_lendAll (h : InStep c.book s es (p - 1) w) (hb : c.book.Sound)
    (hrec : (s.move (some y) x p).RecordedBy c.book)
    (hlater : ∀ l ∈ c.book.loans, (s.move (some y) x p).borrows.length ≤ l.id → l.origin ≠ p) :
    Answers (lendAll c y p w.toBooks (dueFor c w y p)) := by
  rcases h.dueFor_cases hb hrec hlater with ⟨-, hnil⟩ | ⟨q, br, l, -, -, hnew, hlbr, hone⟩
  · rw [hnil]
    exact answers_pure _
  · obtain ⟨m, -, -, hdue⟩ := h.exists_due hb hrec hnew
    have hvia : l.via = x := by rw [hlbr]; rfl
    have hkind : l.kind = br.kind := by rw [hlbr]; rfl
    rw [hone, lendAll, List.foldlM_cons, hvia, hkind]
    refine Answers.bind ?_ fun _ _ => answers_pure _
    exact (answers_lend hdue).bind fun _ _ => answers_pure _

/-- A move answers, as the loans that it renews are those that the survey recorded for it. -/
theorem InStep.answers_move (h : InStep c.book s es (p - 1) w) (hb : c.book.Sound)
    (hrec : (s.move (some y) x p).RecordedBy c.book)
    (hlater : ∀ l ∈ c.book.loans, (s.move (some y) x p).borrows.length ≤ l.id → l.origin ≠ p) :
    Answers (Walk.move c w y x p) := by
  refine (Store.answers_ensureInScope _ _).bind fun _ _ => ?_
  dsimp only
  split
  · refine (answers_read _ _ _ _).bind fun _ _ => ?_
    refine (h.answers_lendAll hb hrec hlater).bind fun books _ => ?_
    split
    · exact answers_vacate _ _ _
    · exact answers_pure _
  · split
    · exact (answers_read _ _ _ _).bind fun _ _ => answers_pure _
    · exact answers_vacate _ _ _

end InStep

end Walk

/-! ### Steps -/

namespace Walk

variable {c : Context} {s : Survey} {es : List Ending} {now : Point} {w : State} {op : Operation}

/-- **What an action does before its write gives an answer.** -/
theorem InStep.answers_perform {a : Action} (h : InStep c.book s es (op.point - 1) w)
    (ht : Turn c.book s es op) (hact : op.action = .ok a) :
    Answers (Walk.perform c w op.point a) := by
  have hdoes := Operation.action_cases hact
  have hrec := ht.recorded
  have hlater := ht.later
  cases a with
  | declare x ty => exact (Store.answers_declare _ _ _ _).bind fun _ _ => answers_pure _
  | assign x ys =>
    refine (answers_forM fun y _ => answers_read _ _ _ _).bind fun _ _ => answers_pure _
  | move y x =>
    obtain ⟨hkind, htarget, hsource⟩ := hdoes
    simp only [Survey.observe, hkind, htarget, hsource] at hrec hlater
    exact (h.answers_move ht.book hrec hlater).bind fun _ _ => answers_pure _
  | borrow kind y x =>
    obtain ⟨hkind, htarget, hsource⟩ := hdoes
    simp only [Survey.observe, hkind, htarget, hsource] at hrec
    have hborrows : (s.lend kind y x op.point).borrows = s.borrows ++
        [(s.touch x op.point).borrowOf (some y) kind x op.point] := by
      simp [Survey.lend, Survey.define, Survey.take]
    obtain ⟨l, -, -, hdue⟩ := h.exists_due ht.book hrec hborrows
    refine (Store.answers_ensureInScope _ _).bind fun _ _ => ?_
    exact (answers_borrow hdue).bind fun _ _ => answers_pure _
  | deref x => exact (answers_follow _ _ _ _).bind fun _ _ => answers_pure _
  | use x => exact (answers_read _ _ _ _).bind fun _ _ => answers_pure _
  | call args result =>
    obtain ⟨hkind, -, rfl⟩ := hdoes
    simp only [Survey.observe, hkind] at hrec
    have hpass := h.answers_passAll ht.book ht.sound ht.endings
      (hrec.of_grows (P := (· = op.point)) Survey.grows_write?)
    cases result with
    | none => exact hpass.bind fun _ _ => answers_pure _
    | some t =>
      refine (Store.answers_ensureInScope _ _).bind fun _ _ => ?_
      exact hpass.bind fun _ _ => answers_pure _
  | ret x =>
    cases x with
    | none => exact answers_pure _
    | some x => exact (answers_ret _ _ _ _).bind fun _ _ => answers_pure _
  | enter => exact answers_ok _
  | exit => exact (answers_exit _ _).bind fun _ _ => answers_pure _

/-- **A step gives an answer** when walk and survey are in step before it. -/
theorem InStep.answers_step (h : InStep c.book s es now w) (hnow : now < op.point)
    (ht : Turn c.book s es op) : Answers (Walk.step c w op) := by
  unfold Walk.step
  split
  · exact answers_refuseFlaw _
  · exact answers_refuseFlaw _
  next a hret hact =>
    refine ((h.settled ht.book hnow).answers_perform ht hact).bind fun u hu => ?_
    obtain ⟨u, target⟩ := u
    cases target with
    | none => exact answers_pure _
    | some x => exact answers_write _ _ _ _ _

end Walk

/-! ### Verdicts -/

/-- Parameters that cannot be declared are a violation. -/
theorem Walk.answers_declareParams (params : List Param) : Answers (declareParams params) :=
  answers_foldlM (fun _ _ => Store.answers_declare _ _ _ _) params {}

namespace Function

variable {f : Function} {policy : Policy} {pre post : List Operation} {op : Operation}

/-- A step gives an answer when the walk has completed the operations before it. -/
theorem Ordered.answers_step (h : f.Ordered) (hops : f.ops = pre ++ op :: post) {w : Walk.State}
    (hreach : f.reach policy pre = .ok w) : Answers (Walk.step (f.context policy) w op) :=
  Walk.InStep.answers_step (c := f.context policy) (h.inStep_of_reach hops hreach)
    (h.pointAfter_lt hops) (h.turn hops)

/-- **A walk only ever stops at a violation.** -/
theorem exists_violation_of_stop {stop : Walk.Stop} (h : (f.walk policy).stop = some stop) :
    ∃ v, stop.fault = .violation v := by
  unfold walk at h
  split at h
  next point last hdis =>
    rw [← Option.some.inj h]
    exact ⟨_, rfl⟩
  next hdis =>
    split at h
    next fault hparams =>
      rw [← Option.some.inj h]
      exact Walk.answers_declareParams f.params fault hparams
    next store hstore =>
      obtain ⟨pre, op, post, w, hops, hw, hstop, -, -⟩ := Walk.exists_step_of_stop h
      have hreach : f.reach policy pre = .ok w := by
        rw [reach, hstore]
        exact hw
      exact (ordered_of_disorder? hdis).answers_step hops hreach _ hstop

/-! ### Loans that are opened -/

/-- The loans that originate at the point of an operation are those that it takes. -/
theorem Ordered.takenAt_point (h : f.Ordered) (hops : f.ops = pre ++ op :: post) :
    f.book.takenAt op.point =
      (f.book.loans.take (Survey.after f (pre ++ [op])).borrows.length).drop
        (Survey.after f pre).borrows.length := by
  refine f.book_sound.filter_eq_of_id_iff fun l hl => ?_
  rw [decide_eq_true_eq, ← h.origin_le_iff hops hl]
  constructor
  · intro heq
    refine ⟨Nat.le_of_not_lt fun hid => ?_, le_of_eq heq⟩
    exact absurd heq (ne_of_lt (h.origin_lt hops hl hid))
  · rintro ⟨hid, hle⟩
    refine le_antisymm hle (not_lt.mp fun hlt => ?_)
    exact absurd (h.id_lt hops hl hlt) (Nat.not_lt.mpr hid)

/-- The walk through `f` **opens every loan once, at its origin**: the loans of the parameters at
the entry, those of an operation when it is completed, and no others. -/
structure OpensAtOrigin (f : Function) (policy : Policy) : Prop where
  entry : ∃ w, f.reach policy [] = .ok w ∧
    w.ledger.opened = (f.book.takenAt f.entry).map (·.id)
  step : ∀ pre op post, f.ops = pre ++ op :: post → ∃ w t, f.reach policy pre = .ok w ∧
    f.reach policy (pre ++ [op]) = .ok t ∧
    t.ledger.opened = w.ledger.opened ++ (f.book.takenAt op.point).map (·.id)
  once : ∃ t, f.reach policy f.ops = .ok t ∧ t.ledger.opened = f.book.loans.map (·.id) ∧
    t.ledger.opened.Nodup

/-- A walk that completes opens every loan. -/
theorem Accepted.opensAtOrigin (h : f.Accepted policy) : f.OpensAtOrigin policy := by
  obtain ⟨-, t, ht⟩ := accepted_iff.mp h
  have hord := h.ordered
  -- what was opened are the first loans of the book
  have hopened : ∀ {pre post w}, f.ops = pre ++ post → f.reach policy pre = .ok w →
      w.ledger.opened =
        (f.book.loans.take (Survey.after f pre).borrows.length).map (·.id) := fun hops hw => by
    rw [(hord.inStep_of_reach hops hw).opened, f.map_id_take (recorded_after hops).length_le]
  refine ⟨?_, fun pre op post hops => ?_, t, ht, ?_, ?_⟩
  · obtain ⟨w, hw, -⟩ := reach_append_eq_ok_iff.mp ((List.nil_append f.ops).symm ▸ ht)
    exact ⟨w, hw, by rw [hopened (List.nil_append _).symm hw, hord.takenAt_entry]⟩
  · obtain ⟨w, t, hw, -, ht⟩ := h.step hops
    refine ⟨w, t, hw, ht, ?_⟩
    have hgrow := (Survey.grows_after f pre [op]).length_le
    rw [hopened hops hw, hopened (hops.trans (List.append_cons pre op post)) ht,
      hord.takenAt_point hops, ← List.map_append, ← Nat.min_eq_left hgrow, ← List.take_take,
      Nat.min_eq_left hgrow, List.take_append_drop]
  · rw [hopened (List.append_nil _).symm ht, List.take_of_length_le]
    exact Nat.le_of_eq (Survey.length_book _)
  · rw [(hord.inStep_of_reach (List.append_nil _).symm ht).opened]
    exact List.nodup_range

end Function

end BorrowCheck
