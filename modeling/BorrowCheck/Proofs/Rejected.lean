import BorrowCheck.Proofs.Aliasing
import BorrowCheck.Proofs.Omission

/-!
# What a rejection says

A function is rejected where its walk stops. This happens before the first operation when the points
do not increase or when two parameters have one name, and the finding is then that the program is
malformed (`BorrowCheck.Function.malformed_of_broken`). Otherwise the walk completes some operations
and fails at the next one (`BorrowCheck.Function.FailsAt`), and the finding reports the violation
there (`BorrowCheck.Function.rejected_iff`).
-/

namespace BorrowCheck

/-! ### Parameters -/

/-- Parameters with different names, none of which is in scope, are declared. -/
theorem Store.exists_declareAll {params : List Param} {s : Store}
    (hnodup : (params.map Param.name).Nodup)
    (hnew : ∀ param ∈ params, s.declares { base := param.name } = false) :
    ∃ t, params.foldlM (fun store param =>
      store.declare { base := param.name } param.ty true) s = .ok t := by
  induction params generalizing s with
  | nil => exact ⟨s, rfl⟩
  | cons param params ih =>
    rw [List.map_cons, List.nodup_cons] at hnodup
    rw [List.forall_mem_cons] at hnew
    obtain ⟨next, hnext⟩ : ∃ next,
        s.declare { base := param.name } param.ty true = .ok next :=
      ⟨_, declare_eq_ok_iff.mpr ⟨rfl, hnew.1, rfl⟩⟩
    have hnew' : ∀ other ∈ params, next.declares { base := other.name } = false := by
      intro other hother
      obtain ⟨-, -, rfl⟩ := declare_eq_ok_iff.mp hnext
      have hold := hnew.2 other hother
      rw [Bool.eq_false_iff, Ne, declares_iff_mem] at hold ⊢
      rw [List.map_append, List.mem_append, List.map_singleton, List.mem_singleton]
      rintro (hmem | heq)
      · exact hold hmem
      · exact hnodup.1 (List.mem_map.mpr ⟨other, hother, heq⟩)
    obtain ⟨t, ht⟩ := ih hnodup.2 hnew'
    exact ⟨t, foldlM_cons_eq_ok_iff.mpr ⟨next, hnext, ht⟩⟩

theorem Walk.exists_declareParams {params : List Param}
    (hnodup : (params.map Param.name).Nodup) : ∃ store, declareParams params = .ok store :=
  Store.exists_declareAll (s := {}) hnodup fun _ _ => rfl

/-- A declaration of parameters fails for a name that was declared before. -/
theorem Store.redeclared_of_declareAll {params : List Param} {s : Store} {fault : Fault}
    (h : params.foldlM (fun store param =>
      store.declare { base := param.name } param.ty true) s = .error fault) :
    ∃ x, fault = .violation (.flaw (.redeclared x)) := by
  induction params generalizing s with
  | nil => cases h
  | cons param params ih =>
    rw [List.foldlM_cons] at h
    cases hdecl : s.declare { base := param.name } param.ty true with
    | ok next =>
      rw [hdecl] at h
      exact ih h
    | error fault' =>
      rw [hdecl] at h
      obtain rfl : fault' = fault := by cases h; rfl
      rw [declare, if_neg (by simp [Place.isRoot])] at hdecl
      split at hdecl
      · cases hdecl
        exact ⟨_, rfl⟩
      · cases hdecl

/-! ### The first stop -/

/-- The finding that reports a violation at an operation. -/
def Violation.report (v : Violation) (function : String) (op : Operation) : Finding :=
  { v.finding function op.point with operation := op.text, span := op.span }

namespace Function

variable {f : Function} {policy : Policy} {pre post : List Operation} {op : Operation}
  {v : Violation} {finding : Finding}

/-- The walk through `f` completes the operations `pre` and **fails** at the next one, `op`, which
breaks a rule as `v` says. -/
def FailsAt (f : Function) (policy : Policy) (pre : List Operation) (op : Operation)
    (v : Violation) : Prop :=
  ∃ post w, f.ops = pre ++ op :: post ∧ f.reach policy pre = .ok w ∧
    Walk.step (f.context policy) w op = .error (.violation v)

/-- **A rejection reports the violation that the walk fails with**, once points increase and
parameters have different names. -/
theorem rejected_iff (hord : f.Ordered) (hparams : (f.params.map Param.name).Nodup) :
    f.verdict policy = .ok (.rejected f.name finding) ↔
      ∃ pre op v, f.FailsAt policy pre op v ∧ finding = v.report f.name op := by
  obtain ⟨store, hstore⟩ := Walk.exists_declareParams hparams
  have hwalk : f.walk policy = Walk.along (f.context policy) (f.start store) f.ops := by
    simp only [walk, hord.disorder?_eq_none, hstore]
  have hreach : ∀ ops, f.reach policy ops =
      ops.foldlM (Walk.step (f.context policy)) (f.start store) := fun ops => by
    rw [reach, hstore]
    rfl
  rw [verdict, hwalk]
  constructor
  · intro h
    split at h
    next => cases h
    next stop hstop =>
      obtain ⟨v, hv⟩ := exists_violation_of_stop (hwalk ▸ hstop)
      obtain ⟨pre, op, post, w, hops, hw, hstep, hpoint, hop⟩ := Walk.exists_step_of_stop hstop
      refine ⟨pre, op, v, ⟨post, w, hops, (hreach pre).trans hw, hv ▸ hstep⟩, ?_⟩
      simp only [Walk.Stop.finding, hv, hop, hpoint, Except.map, Except.ok.injEq,
        Verdict.rejected.injEq, true_and] at h
      exact h.symm
  · rintro ⟨pre, op, v, ⟨post, w, hops, hw, hstep⟩, rfl⟩
    rw [hreach] at hw
    rw [hops, Walk.stop_of_step hw hstep]
    rfl

/-- The finding of a walk that is known to stop because of `v` at `p`. -/
theorem exists_finding {p : Point}
    (h : ((f.walk policy).stop.map fun stop => (stop.fault, stop.point)) =
      some (.violation v, p)) :
    ∃ finding, f.verdict policy = .ok (.rejected f.name finding) ∧ finding.rule = v.rule ∧
      finding.point = p ∧ finding.place = v.place := by
  obtain ⟨stop, hstop, heq⟩ := Option.map_eq_some_iff.mp h
  obtain ⟨hfault, rfl⟩ := Prod.mk.inj heq
  cases hop : stop.operation with
  | none =>
    exact ⟨v.finding f.name stop.point, by simp [verdict, hstop, Walk.Stop.finding, hfault, hop,
      Except.map], rfl, rfl, rfl⟩
  | some op =>
    exact ⟨{ v.finding f.name stop.point with operation := op.text, span := op.span },
      by simp [verdict, hstop, Walk.Stop.finding, hfault, hop, Except.map], rfl, rfl, rfl⟩

/-- A function is accepted or fails at an operation. -/
theorem exists_failsAt (hord : f.Ordered) (hparams : (f.params.map Param.name).Nodup)
    (h : ¬f.Accepted policy) : ∃ pre op v, f.FailsAt policy pre op v := by
  obtain ⟨store, hstore⟩ := Walk.exists_declareParams hparams
  obtain ⟨-, finding, hverdict, -⟩ := exists_rejectedAt hord hstore h
  obtain ⟨pre, op, v, hfails, -⟩ := (rejected_iff hord hparams).mp hverdict
  exact ⟨pre, op, v, hfails⟩

/-! ### Functions that are broken before they begin -/

/-- Where points stop to increase. -/
theorem exists_of_disorder? {first : Operation} {rest : List Operation} {p q : Point}
    (h : Walk.disorder? first.point rest = some (p, q)) :
    ∃ pre op next post, first :: rest = pre ++ op :: next :: post ∧ next.point = p ∧
      next.point ≤ op.point ∧ (pre ++ [op]).Pairwise fun a b => a.point < b.point := by
  induction rest generalizing first with
  | nil => cases h
  | cons next rest ih =>
    unfold Walk.disorder? at h
    split at h
    next hlt =>
      obtain ⟨pre, op, last, post, hops, hp, hle, hpair⟩ := ih h
      refine ⟨first :: pre, op, last, post, by rw [hops, List.cons_append], hp, hle, ?_⟩
      rw [List.cons_append, List.pairwise_cons]
      refine ⟨fun o ho => ?_, hpair⟩
      -- the operations so far begin with the second one
      cases pre with
      | nil =>
        obtain rfl := List.mem_singleton.mp ho
        obtain rfl : next = o := (List.cons.inj hops).1
        exact hlt
      | cons second pre =>
        obtain rfl : next = second := (List.cons.inj hops).1
        rw [List.cons_append, List.pairwise_cons] at hpair
        rcases List.mem_cons.mp ho with rfl | ho
        · exact hlt
        · exact lt_trans hlt (hpair.1 o ho)
    next hge =>
      obtain ⟨rfl, -⟩ := Prod.mk.inj (Option.some.inj h)
      exact ⟨[], first, next, rest, rfl, rfl, not_lt.mp hge, List.pairwise_singleton _ _⟩

/-- **A function that is broken before it begins is malformed**: at the first point that does not
come after the one before it, or else, when two parameters have one name, at the entry. -/
theorem malformed_of_broken
    (h : ¬(f.Ordered ∧ (f.params.map Param.name).Nodup)) :
    ∃ finding, f.verdict policy = .ok (.rejected f.name finding) ∧
      finding.rule = .malformedProgram ∧ finding.operation = none ∧
      (f.Ordered → finding.point = f.entry) ∧
      (¬f.Ordered → ∃ pre op next post, f.ops = pre ++ op :: next :: post ∧
        next.point ≤ op.point ∧ finding.point = next.point ∧
        (pre ++ [op]).Pairwise fun a b => a.point < b.point) := by
  cases hdis : f.disorder? with
  | some e =>
    obtain ⟨p, q⟩ := e
    refine ⟨_, by rw [verdict, walk, hdis]; rfl, rfl, rfl, fun hord => ?_, fun _ => ?_⟩
    · rw [hord.disorder?_eq_none] at hdis
      cases hdis
    · unfold disorder? at hdis
      split at hdis
      next => cases hdis
      next first rest hops =>
        obtain ⟨pre, op, next, post, hsplit, hp, hle, hpair⟩ := exists_of_disorder? hdis
        exact ⟨pre, op, next, post, hops.trans hsplit, hle, hp.symm, hpair⟩
  | none =>
    have hord := ordered_of_disorder? hdis
    cases hparams : Walk.declareParams f.params with
    | ok store => exact absurd ⟨hord, nodup_of_declareParams hparams⟩ h
    | error fault =>
      obtain ⟨x, rfl⟩ := Store.redeclared_of_declareAll hparams
      exact ⟨_, by rw [verdict, walk, hdis]; simp only [hparams]; rfl, rfl, rfl, fun _ => rfl,
        fun hno => absurd hord hno⟩

end Function

end BorrowCheck
