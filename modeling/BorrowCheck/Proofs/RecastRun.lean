import BorrowCheck.Proofs.RecastSurvey
import BorrowCheck.Proofs.RecastWalk
import BorrowCheck.Proofs.Rejected

/-!
# The verdict on a recast function

A function in other words is walked as the function is, and stops where it stops, for the same
reason in other words (`BorrowCheck.Recast.walk_stop`). So it is accepted when the function is
(`BorrowCheck.Recast.accepted_function`), and otherwise the finding on it retells the finding on the
function (`BorrowCheck.Recast.Retells`).

Which names are around changes along a function, and the words do not
(`BorrowCheck.Recast.within`). So for each operation there have to be names that are told apart and
include all that the survey and the walk look up there.
-/

namespace BorrowCheck

namespace Recast

variable {ρ : Recast} {f : Function} {policy : Policy} {pre post : List Operation} {op : Operation}

/-- The same change of words while the names `A` are around. -/
def within (ρ : Recast) (A : String → Prop)
    (inj : ∀ {m n}, A m → A n → ρ.name m = ρ.name n → m = n) : Recast :=
  { ρ with around := A, name_inj := inj }

/-! ### Points -/

theorem disorder?_map (last : Point) (ops : List Operation) :
    Walk.disorder? (ρ.point last) (ops.map ρ.operation) =
      (Walk.disorder? last ops).map (Prod.map ρ.point ρ.point) := by
  induction ops generalizing last with
  | nil => rfl
  | cons op ops ih =>
    simp only [List.map_cons, Walk.disorder?, point_operation, point_lt_iff, ih]
    split <;> rfl

theorem disorder?_function (f : Function) :
    (ρ.function f).disorder? = f.disorder?.map (Prod.map ρ.point ρ.point) := by
  unfold Function.disorder?
  rw [show (ρ.function f).ops = f.ops.map ρ.operation from rfl]
  cases f.ops with
  | nil => rfl
  | cons op ops => exact disorder?_map op.point ops

/-- Where points stay, so does the entry. -/
theorem entry_function (hpoint : ∀ q, ρ.point q = q) (f : Function) :
    ρ.point f.entry = (ρ.function f).entry := by
  rw [hpoint, Function.entry, Function.entry,
    show (ρ.function f).ops = f.ops.map ρ.operation from rfl]
  cases f.ops with
  | nil => rfl
  | cons op ops => exact congrArg (· - 1) (hpoint op.point).symm

/-! ### Surveys -/

/-- What the survey looks up when it comes to `op` after the operations `pre` can be told apart. -/
def Surveys (ρ : Recast) (f : Function) (pre : List Operation) (op : Operation) : Prop :=
  ∃ (A : String → Prop) (inj : ∀ {m n}, A m → A n → ρ.name m = ρ.name n → m = n),
    (ρ.within A inj).Knows (Survey.after f pre) ∧ (∀ x ∈ op.named, A x.base) ∧
      (ρ.within A inj).Traces (Survey.after f pre).borrows.length (Survey.after f (pre ++ [op]))

theorem survey_after (hentry : ρ.point f.entry = (ρ.function f).entry)
    (hparams : ∀ param ∈ f.params, ρ.Fixes param)
    (h : ∀ pre op post, f.ops = pre ++ op :: post → ρ.Surveys f pre op)
    (hops : f.ops = pre ++ post) :
    Survey.after (ρ.function f) (pre.map ρ.operation) = ρ.survey (Survey.after f pre) := by
  induction pre using List.reverseRecOn generalizing post with
  | nil =>
    have hreceive := survey_receiveAll (s := {}) ⟨List.forall_mem_nil _, List.forall_mem_nil _⟩
      hparams f.entry
    rw [hentry] at hreceive
    exact hreceive.1.symm
  | append_singleton pre op ih =>
    rw [List.append_assoc, List.singleton_append] at hops
    obtain ⟨A, inj, hknows, hnamed, htraces⟩ := h pre op post hops
    rw [Survey.after_concat] at htraces ⊢
    rw [List.map_append, List.map_singleton, Survey.after_concat, ih hops]
    exact (survey_observe hknows hnamed htraces).symm

/-- **The loans of a function in other words** are its loans in other words. -/
theorem book_function (hentry : ρ.point f.entry = (ρ.function f).entry)
    (hparams : ∀ param ∈ f.params, ρ.Fixes param)
    (h : ∀ pre op post, f.ops = pre ++ op :: post → ρ.Surveys f pre op) :
    (ρ.function f).book = ρ.book f.book := by
  rw [Function.book, show (ρ.function f).ops = f.ops.map ρ.operation from rfl,
    survey_after hentry hparams h (List.append_nil _).symm, book_survey]
  rfl

/-! ### The beginning of a walk -/

/-- The declaration of parameters that keep their names goes as before. -/
theorem declareParams_self {params : List Param} (h : ∀ param ∈ params, ρ.Fixes param) :
    Parallel ρ.Faults ρ.Keeps (Walk.declareParams params) (Walk.declareParams params) := by
  have hempty : ρ.Keeps {} {} :=
    ⟨rfl, List.forall_mem_nil _, List.forall_mem_nil _, List.forall_mem_nil _⟩
  refine Parallel.foldlM hempty fun s s' hs param hparam => ?_
  obtain ⟨rfl, hs⟩ := hs
  have hdeclare := declare_store (x := { base := param.name }) hs (h param hparam).around
    param.ty true
  rwa [(h param hparam).place_name] at hdeclare

theorem ledger_record (m : Ledger) (loans : List Loan) :
    (loans.map ρ.loan).foldl Ledger.record (ρ.ledger m) =
      ρ.ledger (loans.foldl Ledger.record m) := by
  induction loans generalizing m with
  | nil => rfl
  | cons l loans ih => rw [List.map_cons, List.foldl_cons, List.foldl_cons, ← ih, record_ledger]

theorem start_function (hentry : ρ.point f.entry = (ρ.function f).entry)
    (hbook : (ρ.function f).book = ρ.book f.book) {store : Store} (hstore : ρ.store store = store) :
    (ρ.function f).start store = ρ.state (f.start store) := by
  have hdue : ({} : Ledger).dueAt (ρ.function f).book (ρ.function f).entry =
      (({} : Ledger).dueAt f.book f.entry).map ρ.loan := by
    rw [hbook, ← hentry]
    exact dueAt_ledger {} f.book f.entry
  have hledger := ledger_record (ρ := ρ) {} (({} : Ledger).dueAt f.book f.entry)
  rw [← hdue] at hledger
  unfold Function.start Books.openForCaller state books
  dsimp only
  rw [hstore, ← hledger]
  rfl

/-! ### Walks -/

/-- Where and why a walk stopped, in other words. -/
def stop (ρ : Recast) (s : Walk.Stop) : Walk.Stop :=
  { fault := ρ.fault s.fault, point := ρ.point s.point, operation := s.operation.map ρ.operation }

/-- A walk in other words stops where the walk stops when each step goes as before. -/
theorem along_stop {c c' : Walk.Context} {w : Walk.State} {ops : List Operation}
    (h : ∀ pre op post v, ops = pre ++ op :: post → pre.foldlM (Walk.step c) w = .ok v →
      Parallel ρ.Faults (fun u u' => u' = ρ.state u) (Walk.step c v op)
        (Walk.step c' (ρ.state v) (ρ.operation op))) :
    (Walk.along c' (ρ.state w) (ops.map ρ.operation)).stop =
      (Walk.along c w ops).stop.map ρ.stop := by
  induction ops generalizing w with
  | nil => rfl
  | cons op ops ih =>
    have hstep := h [] op ops w rfl rfl
    rw [List.map_cons, Walk.along, Walk.along]
    cases hw : Walk.step c w op with
    | error fault =>
      obtain ⟨fault', hw', rfl⟩ := hstep.exists_error hw
      rw [hw']
      rfl
    | ok t =>
      obtain ⟨t', hw', rfl⟩ := hstep.exists_ok hw
      rw [hw']
      refine ih fun pre o post v hops hv => ?_
      exact h (op :: pre) o post v (by rw [hops, List.cons_append])
        (foldlM_cons_eq_ok_iff.mpr ⟨t, hw, hv⟩)

/-- What the walk looks up when it comes to `op` in the state `w` can be told apart. -/
def Walks (ρ : Recast) (f : Function) (w : Walk.State) (op : Operation) : Prop :=
  ∃ (A : String → Prop) (inj : ∀ {m n}, A m → A n → ρ.name m = ρ.name n → m = n),
    (ρ.within A inj).Sees w ∧ (ρ.within A inj).Takes f.book op.point ∧ ∀ x ∈ op.named, A x.base

theorem Walks.step {w : Walk.State} (h : ρ.Walks f w op) :
    Parallel ρ.Faults (fun u u' => u' = ρ.state u) (Walk.step (f.context policy) w op)
      (Walk.step (ρ.context (f.context policy)) (ρ.state w) (ρ.operation op)) := by
  obtain ⟨A, inj, hsees, htakes, hnamed⟩ := h
  have hstep := step_state (ρ := ρ.within A inj) (c := f.context policy) hsees htakes hnamed
  exact hstep.imp fun u u' _ _ hu => hu.eq

/-- **A walk through a function in other words** stops where the walk through the function stops,
for the same reason in other words. -/
theorem walk_stop (hentry : f.Ordered → ρ.point f.entry = (ρ.function f).entry)
    (hparams : ∀ param ∈ f.params, ρ.Fixes param)
    (hsurvey : f.Ordered → ∀ pre op post, f.ops = pre ++ op :: post → ρ.Surveys f pre op)
    (hwalk : f.Ordered → ∀ pre op post w, f.ops = pre ++ op :: post →
      f.reach policy pre = .ok w → ρ.Walks f w op) :
    ((ρ.function f).walk policy).stop = (f.walk policy).stop.map ρ.stop := by
  have hdeclare := declareParams_self hparams
  unfold Function.walk
  rw [disorder?_function, show (ρ.function f).params = f.params from rfl]
  cases hdis : f.disorder? with
  | some e => rfl
  | none =>
    have hord := Function.ordered_of_disorder? hdis
    have hentry := hentry hord
    have hbook := book_function hentry hparams (hsurvey hord)
    cases hstore : Walk.declareParams f.params with
    | error fault =>
      obtain ⟨fault', hsame, hfault⟩ := hdeclare.exists_error hstore
      obtain rfl : fault = fault' := Except.error.inj (hstore.symm.trans hsame)
      simp only [Option.map_none, Option.map_some, stop]
      rw [← hfault, hentry]
    | ok store =>
      obtain ⟨store', hsame, hkeeps⟩ := hdeclare.exists_ok hstore
      obtain rfl : store = store' := Except.ok.inj (hstore.symm.trans hsame)
      have hcontext : (ρ.function f).context policy = ρ.context (f.context policy) := by
        unfold Function.context context
        rw [hbook]
      dsimp only [Option.map_none]
      rw [start_function hentry hbook hkeeps.eq.symm, hcontext]
      refine along_stop fun pre op post w hops hw => (hwalk hord pre op post w hops ?_).step
      rw [Function.reach, hstore]
      exact hw

/-- When all names are told apart and stay as they are, nothing else has to be known. -/
theorem walk_stop_of_total (hall : ∀ n, ρ.around n) (hname : ∀ n, ρ.name n = n)
    (hentry : f.Ordered → ρ.point f.entry = (ρ.function f).entry) :
    ((ρ.function f).walk policy).stop = (f.walk policy).stop.map ρ.stop := by
  have hfinds : ∀ l, ρ.Finds l := fun l => ⟨hall _, fun _ _ => hall _⟩
  refine walk_stop hentry (fun param _ => ⟨hname _, hname _, hall _⟩) ?_ ?_
  · intro _ pre op _ _
    exact ⟨ρ.around, ρ.name_inj, ⟨fun _ _ => hall _, fun _ _ => hall _⟩, fun _ _ => hall _,
      fun _ _ _ _ _ => hall _⟩
  · intro _ pre op _ w _ _
    exact ⟨ρ.around, ρ.name_inj, ⟨⟨fun _ _ => hall _, fun _ _ => hall _, fun _ _ => hall _⟩,
      fun l _ => hfinds l⟩, fun l _ => ⟨hfinds l, hall _⟩, fun _ _ => hall _⟩

/-! ### Verdicts -/

/-- The second finding says of the function in other words what the first says of the function. -/
structure Retells (ρ : Recast) (r r' : Finding) : Prop where
  rule : r'.rule = r.rule
  point : r'.point = ρ.point r.point
  place : r'.place = r.place.map ρ.place
  operation : ∃ shown : Option Operation, r.operation = shown.map Operation.text ∧
    r'.operation = shown.map fun op => (ρ.operation op).text
  loanPoint : r'.loanPoint = r.loanPoint.map ρ.point
  loanKind : r'.loanKind = r.loanKind
  loanBorrower : r'.loanBorrower = r.loanBorrower.map ρ.place
  movePoint : r'.movePoint = r.movePoint.map ρ.point
  movedPlace : r'.movedPlace = r.movedPlace.map ρ.place

theorem accepted_function
    (h : ((ρ.function f).walk policy).stop = (f.walk policy).stop.map ρ.stop) :
    (ρ.function f).Accepted policy ↔ f.Accepted policy := by
  rw [Function.accepted_iff_stop, Function.accepted_iff_stop, h, Option.map_eq_none_iff]

/-- The finding of a walk that stops at a violation. -/
theorem verdict_of_stop {stop : Walk.Stop} {v : Violation} (h : (f.walk policy).stop = some stop)
    (hv : stop.fault = .violation v) :
    f.verdict policy = .ok (.rejected f.name { v.finding f.name stop.point with
      operation := stop.operation.map Operation.text
      span := (stop.operation.map Operation.span).getD {} }) := by
  rw [Function.verdict, h]
  simp only [Walk.Stop.finding, hv]
  cases stop.operation <;> rfl

theorem retells_of_violation (stop : Walk.Stop) (v : Violation) {name : String}
    {span span' : Span} :
    ρ.Retells
      { v.finding name stop.point with operation := stop.operation.map Operation.text, span }
      { (ρ.violation v).finding name (ρ.stop stop).point with
        operation := (ρ.stop stop).operation.map Operation.text, span := span' } where
  rule := rule_violation v
  point := rfl
  place := place_violation v
  operation := ⟨stop.operation, rfl, Option.map_map ..⟩
  loanPoint := by simp [Violation.finding, lien_violation, Function.comp_def, lien]
  loanKind := by simp [Violation.finding, lien_violation, Function.comp_def, lien]
  loanBorrower := by
    simp [Violation.finding, lien_violation, Option.map_bind, Option.bind_map, Function.comp_def,
      lien]
  movePoint := movePoint_violation v
  movedPlace := movedPlace_violation v

/-- **A rejection is retold** in other words. -/
theorem rejected_function (h : ((ρ.function f).walk policy).stop = (f.walk policy).stop.map ρ.stop)
    {r : Finding} (hr : f.verdict policy = .ok (.rejected f.name r)) :
    ∃ r', (ρ.function f).verdict policy = .ok (.rejected f.name r') ∧ ρ.Retells r r' := by
  cases hstop : (f.walk policy).stop with
  | none =>
    rw [Function.accepted_iff_stop.mpr hstop] at hr
    cases hr
  | some stop =>
    obtain ⟨v, hv⟩ := Function.exists_violation_of_stop hstop
    have hr' := verdict_of_stop (h.trans (congrArg (Option.map ρ.stop) hstop))
      (congrArg ρ.fault hv : _ = Fault.violation (ρ.violation v))
    rw [verdict_of_stop hstop hv, Except.ok.injEq, Verdict.rejected.injEq] at hr
    obtain ⟨-, rfl⟩ := hr
    exact ⟨_, hr', retells_of_violation stop v⟩

end Recast

end BorrowCheck
