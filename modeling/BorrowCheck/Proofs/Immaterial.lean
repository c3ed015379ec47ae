import BorrowCheck.Proofs.RecastRun
import BorrowCheck.Proofs.Truthful

/-!
# What a verdict does not depend on

Labels of unknown indices, callees and spans are carried through a check and shown in findings, and
no rule looks at them: functions that differ in nothing else get the same verdict
(`BorrowCheck.Function.verdict_of_bare_eq`). Of the points of a function only the order matters:
when they are moved and stay in order, the verdict stays, and what it says about points moves along
(`BorrowCheck.Function.verdict_retimed`).

Both are changes of words (`BorrowCheck.Recast`) under which all names stay. Points take one more
step, because the entry of a function lies right before its first operation and does not move as
the operations do (`BorrowCheck.Function.moment`).
-/

namespace BorrowCheck

namespace Function

variable {f : Function} {policy : Policy}

/-- A function that is not accepted is rejected. -/
theorem exists_rejected (h : ¬f.Accepted policy) :
    ∃ r, f.verdict policy = .ok (.rejected f.name r) := by
  rw [accepted_iff_stop] at h
  obtain ⟨stop, hstop⟩ := Option.ne_none_iff_exists'.mp h
  obtain ⟨v, hv⟩ := exists_violation_of_stop hstop
  exact ⟨_, Recast.verdict_of_stop hstop hv⟩

theorem not_accepted_of_rejected {r : Finding}
    (h : f.verdict policy = .ok (.rejected f.name r)) : ¬f.Accepted policy := by
  intro hacc
  rw [hacc] at h
  cases h

/-- A function without operations is accepted when its parameters have different names. -/
theorem accepted_of_ops_eq_nil (hparams : (f.params.map Param.name).Nodup) (hops : f.ops = []) :
    f.Accepted policy := by
  obtain ⟨store, hstore⟩ := Walk.exists_declareParams hparams
  refine accepted_iff.mpr ⟨by rw [disorder?, hops], f.start store, ?_⟩
  rw [reach, hstore, hops]
  rfl

end Function

/-! ### Labels, callees and spans -/

/-- The operation without the labels of its indices, its callee and its span. -/
def Operation.bare (op : Operation) : Operation :=
  { op with
    target := op.target.map Place.unlabel
    sources := op.sources.map Place.unlabel
    args := op.args.map fun a => { a with place := a.place.unlabel }
    callee := none
    span := {} }

/-- The function without labels, callees and spans. -/
def Function.bare (f : Function) : Function :=
  { f with ops := f.ops.map Operation.bare }

theorem Proj.disjoint_unlabel_both (p q : Proj) :
    p.unlabel.disjoint q.unlabel = p.disjoint q := by
  rw [disjoint_unlabel, disjoint_comm, disjoint_unlabel, disjoint_comm]

theorem Proj.faithful_unlabel : Faithful unlabel where
  unlabel_iff p q := by rw [unlabel_unlabel, unlabel_unlabel]
  disjoint p q h := by rw [disjoint_unlabel_both, h]
  isDeref := isDeref_unlabel
  isIndex := isIndex_unlabel

/-- The recasting that leaves out labels, callees and spans. -/
def Recast.bare : Recast where
  proj := Proj.unlabel
  callee _ := none
  span _ := {}
  name_inj _ _ h := h
  faithful := Proj.faithful_unlabel
  disjoint p q h := by rwa [Proj.disjoint_unlabel_both] at h
  point_lt h := h

namespace Function

/-- Without labels, callees and spans a walk stops where it did, for the same reason. -/
theorem walk_stop_bare (f : Function) (policy : Policy) :
    ((Recast.bare.function f).walk policy).stop = (f.walk policy).stop.map Recast.bare.stop :=
  Recast.walk_stop_of_total (ρ := Recast.bare) (fun _ => trivial) (fun _ => rfl) fun _ =>
    Recast.entry_function (fun _ => rfl) f

/-- **No verdict depends on labels, callees and spans.** Of two functions that differ in nothing but
the labels of their unknown indices, their callees and their spans, both are accepted, or both are
rejected by the same rule at the same point, with the same loan and the same move, and the places
named are equal up to labels. -/
theorem verdict_of_bare_eq {f g : Function} (policy : Policy) (h : f.bare = g.bare) :
    (f.Accepted policy ∧ g.Accepted policy) ∨
      ∃ r r', f.verdict policy = .ok (.rejected f.name r) ∧
        g.verdict policy = .ok (.rejected g.name r') ∧
        r.rule = r'.rule ∧ r.point = r'.point ∧ r.loanPoint = r'.loanPoint ∧
        r.loanKind = r'.loanKind ∧ r.movePoint = r'.movePoint ∧
        r.place.map Place.unlabel = r'.place.map Place.unlabel ∧
        r.loanBorrower.map Place.unlabel = r'.loanBorrower.map Place.unlabel ∧
        r.movedPlace.map Place.unlabel = r'.movedPlace.map Place.unlabel := by
  have heq : Recast.bare.function f = Recast.bare.function g := h
  have hf := walk_stop_bare f policy
  have hg := walk_stop_bare g policy
  have hiff : f.Accepted policy ↔ g.Accepted policy := by
    rw [← Recast.accepted_function hf, heq, Recast.accepted_function hg]
  by_cases hacc : f.Accepted policy
  · exact .inl ⟨hacc, hiff.mp hacc⟩
  · obtain ⟨r, hr⟩ := exists_rejected hacc
    obtain ⟨r', hr'⟩ := exists_rejected (mt hiff.mpr hacc)
    -- both findings are retold as the finding on the bare function
    obtain ⟨s, hs, hretell⟩ := Recast.rejected_function hf hr
    obtain ⟨s', hs', hretell'⟩ := Recast.rejected_function hg hr'
    rw [heq, hs', Except.ok.injEq, Verdict.rejected.injEq] at hs
    obtain ⟨-, rfl⟩ := hs
    refine .inr ⟨r, r', hr, hr', hretell.rule.symm.trans hretell'.rule,
      hretell.point.symm.trans hretell'.point, ?_, hretell.loanKind.symm.trans hretell'.loanKind,
      ?_, hretell.place.symm.trans hretell'.place,
      hretell.loanBorrower.symm.trans hretell'.loanBorrower,
      hretell.movedPlace.symm.trans hretell'.movedPlace⟩
    · simpa [Recast.bare] using hretell.loanPoint.symm.trans hretell'.loanPoint
    · simpa [Recast.bare] using hretell.movePoint.symm.trans hretell'.movePoint

/-- A function that moves the element `v[label]` out and passes the rest on. -/
def spendsElement (label callee : String) (line : Int) : Function where
  name := "f"
  ops :=
    [.declare 1 { base := "v" } (.named "V"), .assign 2 { base := "v" } [],
      .declare 3 { base := "t" } (.named "T") { line := line },
      .move 4 { base := "t" } { base := "v", path := [.any label] },
      .call 5 callee [{ place := { base := "v" } }] none { line := some (line + 1) }]

/-- Under other labels, callees and lines the same move is to blame. -/
theorem verdict_of_bare_eq_spendsElement :
    spendsElement "i" "g" 1 ≠ spendsElement "j" "h" 7 ∧
      (spendsElement "i" "g" 1).bare = (spendsElement "j" "h" 7).bare ∧
      ∃ r r', (spendsElement "i" "g" 1).verdict {} = .ok (.rejected "f" r) ∧
        (spendsElement "j" "h" 7).verdict {} = .ok (.rejected "f" r') ∧
        r.rule = r'.rule ∧ r.point = r'.point ∧ r.movePoint = r'.movePoint ∧
        r.movedPlace.map Place.unlabel = r'.movedPlace.map Place.unlabel := by
  have hbare : (spendsElement "i" "g" 1).bare = (spendsElement "j" "h" 7).bare := by decide
  have hrejected : ¬(spendsElement "i" "g" 1).Accepted {} := by decide +kernel
  refine ⟨by decide, hbare, ?_⟩
  obtain ⟨haccepted, -⟩ | ⟨r, r', hr, hr', hrule, hpoint, -, -, hmove, -, -, hmoved⟩ :=
    verdict_of_bare_eq {} hbare
  · exact absurd haccepted hrejected
  · exact ⟨r, r', hr, hr', hrule, hpoint, hmove, hmoved⟩

end Function

/-! ### Points -/

/-- The function with its operations at other points. -/
def Function.retimed (f : Function) (g : Point → Point) : Function :=
  { f with ops := f.ops.map fun op => { op with point := g op.point } }

/-- The recasting that moves points and keeps their order. -/
def Recast.retime (g : Point → Point) (hg : ∀ p q, p < q → g p < g q) : Recast where
  point := g
  name_inj _ _ h := h
  faithful := Proj.faithful_id
  disjoint _ _ h := h
  point_lt h := hg _ _ h

section Retime

variable {g : Point → Point} {hg : ∀ p q, p < q → g p < g q}

theorem Recast.place_retime : (retime g hg).place = id := by
  funext x
  simp [place, retime]

theorem Recast.operation_retime (op : Operation) :
    (retime g hg).operation op = { op with point := g op.point } := by
  have harg : (retime g hg).arg = id := by
    funext a
    simp [arg, place_retime]
  rw [operation, place_retime, harg, List.map_id, Option.map_id, List.map_id]
  rfl

theorem Recast.function_retime {f : Function} {h : Point → Point}
    (hops : ∀ op ∈ f.ops, g op.point = h op.point) : (retime g hg).function f = f.retimed h :=
  congrArg (fun ops => { f with ops })
    (List.map_congr_left fun op hop => by rw [operation_retime, hops op hop])

end Retime

namespace Function

variable {f : Function} {policy : Policy} {g : Point → Point}

/-- The point of `f.retimed g` that takes the place of `q`: the entry takes that of the entry. -/
def moment (f : Function) (g : Point → Point) (q : Point) : Point :=
  if q = f.entry then (f.retimed g).entry else g q

theorem moment_entry (f : Function) (g : Point → Point) :
    f.moment g f.entry = (f.retimed g).entry :=
  if_pos rfl

theorem Ordered.moment_point (hord : f.Ordered) (g : Point → Point) {op : Operation}
    (hop : op ∈ f.ops) : f.moment g op.point = g op.point :=
  if_neg (ne_of_gt (hord.entry_lt hop))

/-- Moments stay in order, because nothing lies between the entry and the first operation. -/
theorem moment_lt (hg : ∀ p q, p < q → g p < g q) (hops : f.ops ≠ []) {p q : Point} (h : p < q) :
    f.moment g p < f.moment g q := by
  obtain ⟨op, ops, hf⟩ := List.exists_cons_of_ne_nil hops
  have hentry : f.entry = op.point - 1 := by rw [entry, hf]
  have hentry' : (f.retimed g).entry = g op.point - 1 := by rw [entry, retimed, hf]; rfl
  have hlast := Int.le_sub_one_of_lt (hg (op.point - 1) op.point (Int.sub_one_lt_of_le le_rfl))
  unfold moment
  rw [hentry, hentry']
  split <;> split
  next hp hq =>
    rw [hp, hq] at h
    exact absurd h (lt_irrefl _)
  next hp hq =>
    rw [hp] at h
    refine Int.sub_one_lt_of_le ?_
    rcases Int.lt_or_eq_of_le (Int.le_of_sub_one_lt h) with hlt | heq
    · exact le_of_lt (hg _ _ hlt)
    · rw [heq]
  next hp hq =>
    rw [hq] at h
    exact lt_of_lt_of_le (hg _ _ h) hlast
  next => exact hg p q h

/-- The finding `r'` says of `f.retimed g` what `r` says of `f`: points are moved along, and a
parameter that is there twice is found at the entry. -/
structure Retimes (f : Function) (g : Point → Point) (r r' : Finding) : Prop where
  rule : r'.rule = r.rule
  place : r'.place = r.place
  operation : r'.operation = r.operation
  loanKind : r'.loanKind = r.loanKind
  loanBorrower : r'.loanBorrower = r.loanBorrower
  movedPlace : r'.movedPlace = r.movedPlace
  point : ¬f.Ordered ∨ (f.params.map Param.name).Nodup → r'.point = g r.point
  point_entry : f.Ordered → ¬(f.params.map Param.name).Nodup → r'.point = (f.retimed g).entry
  movePoint : r'.movePoint = r.movePoint.map g
  loanPoint : r'.loanPoint = r.loanPoint.map (f.moment g)

/-! ### Functions that are broken before they begin -/

/-- The points of a retimed function stop to increase where those of the function do. -/
theorem disorder?_retimed (hg : ∀ p q, p < q → g p < g q) :
    (f.retimed g).disorder? = f.disorder?.map (Prod.map g g) := by
  have hfun : (Recast.retime g hg).function f = f.retimed g :=
    Recast.function_retime fun _ _ => rfl
  rw [← hfun, Recast.disorder?_function]
  rfl

/-- A flaw before the first operation says nothing about loans and moves. -/
theorem retimes_of_flaw {flaw flaw' : Flaw} {p p' : Point}
    (hstop : (f.walk policy).stop = some { fault := .violation (.flaw flaw), point := p })
    (hstop' : ((f.retimed g).walk policy).stop =
      some { fault := .violation (.flaw flaw'), point := p' })
    (hplace : flaw'.place = flaw.place)
    (hpoint : ¬f.Ordered ∨ (f.params.map Param.name).Nodup → p' = g p)
    (hentry : f.Ordered → ¬(f.params.map Param.name).Nodup → p' = (f.retimed g).entry)
    {r : Finding} (hr : f.verdict policy = .ok (.rejected f.name r)) :
    ∃ r', (f.retimed g).verdict policy = .ok (.rejected f.name r') ∧ f.Retimes g r r' := by
  rw [Recast.verdict_of_stop hstop rfl, Except.ok.injEq, Verdict.rejected.injEq] at hr
  obtain ⟨-, rfl⟩ := hr
  exact ⟨_, Recast.verdict_of_stop hstop' rfl, rfl, hplace, rfl, rfl, rfl, rfl, hpoint, hentry, rfl,
    rfl⟩

/-- **A function that is broken before it begins** is broken in the same way at other points. -/
theorem retimed_of_broken (hg : ∀ p q, p < q → g p < g q)
    (h : ¬(f.Ordered ∧ (f.params.map Param.name).Nodup)) {r : Finding}
    (hr : f.verdict policy = .ok (.rejected f.name r)) :
    ∃ r', (f.retimed g).verdict policy = .ok (.rejected f.name r') ∧ f.Retimes g r r' := by
  have hdis' := disorder?_retimed (f := f) hg
  cases hdis : f.disorder? with
  | some e =>
    obtain ⟨p, q⟩ := e
    have hno : ¬f.Ordered := fun hord => by
      rw [hord.disorder?_eq_none] at hdis
      cases hdis
    have hstop : (f.walk policy).stop =
        some { fault := .violation (.flaw (.pointOrder p q)), point := p } := by
      rw [walk, hdis]
    have hstop' : ((f.retimed g).walk policy).stop =
        some { fault := .violation (.flaw (.pointOrder (g p) (g q))), point := g p } := by
      rw [walk, hdis', hdis]
      rfl
    exact retimes_of_flaw hstop hstop' rfl (fun _ => rfl) (fun hord => absurd hord hno) hr
  | none =>
    have hord := ordered_of_disorder? hdis
    have hdup : ¬(f.params.map Param.name).Nodup := fun hnodup => h ⟨hord, hnodup⟩
    cases hparams : Walk.declareParams f.params with
    | ok store => exact absurd (nodup_of_declareParams hparams) hdup
    | error fault =>
      obtain ⟨x, rfl⟩ := Store.redeclared_of_declareAll hparams
      have hstop : (f.walk policy).stop =
          some { fault := .violation (.flaw (.redeclared x)), point := f.entry } := by
        simp only [walk, hdis, hparams]
      have hstop' : ((f.retimed g).walk policy).stop =
          some { fault := .violation (.flaw (.redeclared x)), point := (f.retimed g).entry } := by
        rw [walk, hdis', hdis, show (f.retimed g).params = f.params from rfl]
        simp only [hparams, Option.map_none]
      exact retimes_of_flaw hstop hstop' rfl (fun hor => absurd hor (by simp [hord, hdup]))
        (fun _ _ => rfl) hr

/-! ### Functions that are walked -/

/-- The move that a violation names is made by an operation. -/
theorem FailsAt.entry_lt_of_moved {pre : List Operation} {op : Operation} {v : Violation}
    (h : f.FailsAt policy pre op v) (hord : f.Ordered) {q : Point}
    (hq : v.movePoint = some q) : f.entry < q := by
  obtain ⟨post, w, hops, hw, hstep⟩ := h
  have hjust : v.Justified f.book op.point (f.GoneSince policy op.point) :=
    ((hord.remembers_of_reach hops hw).step hord hops hw).of_error hstep
  obtain ⟨y, hy⟩ := Violation.exists_movedPlace hq
  obtain ⟨q', hq', hgone, -⟩ := hjust.moved y hy
  obtain rfl : q' = q := Option.some.inj (hq'.symm.trans hq)
  obtain ⟨m, -, pre', o, post', _, _, hops', rfl, -⟩ := hgone.moved
  exact hord.entry_lt (by simp [hops'])

/-- The walk through a retimed function stops where the walk through the function stops. -/
theorem Ordered.exists_recast (hord : f.Ordered) (hg : ∀ p q, p < q → g p < g q)
    (hops : f.ops ≠ []) (policy : Policy) :
    ∃ ρ : Recast, ρ.function f = f.retimed g ∧ ρ.place = id ∧ ρ.point = f.moment g ∧
      (∀ op, (ρ.operation op).text = op.text) ∧
      ((ρ.function f).walk policy).stop = (f.walk policy).stop.map ρ.stop := by
  have hlt : ∀ p q, p < q → f.moment g p < f.moment g q := fun _ _ => moment_lt hg hops
  have hfun : (Recast.retime (f.moment g) hlt).function f = f.retimed g :=
    Recast.function_retime fun op hop => hord.moment_point g hop
  refine ⟨Recast.retime (f.moment g) hlt, hfun, Recast.place_retime, rfl, fun op => ?_, ?_⟩
  · rw [Recast.operation_retime]
    rfl
  · refine Recast.walk_stop_of_total (fun _ => trivial) (fun _ => rfl) fun _ => ?_
    rw [hfun]
    exact f.moment_entry g

theorem Ordered.retimes_of_retells {ρ : Recast} (hord : f.Ordered)
    (hparams : (f.params.map Param.name).Nodup) (hplace : ρ.place = id)
    (hpoint : ρ.point = f.moment g) (htext : ∀ op, (ρ.operation op).text = op.text)
    {r r' : Finding} (hr : f.verdict policy = .ok (.rejected f.name r)) (h : ρ.Retells r r') :
    f.Retimes g r r' := by
  obtain ⟨pre, op, v, hfails, hreport⟩ := (rejected_iff hord hparams).mp hr
  have hop : r.point = op.point := by rw [hreport]; rfl
  have hmem : op ∈ f.ops := by
    obtain ⟨post, _, hops, -⟩ := hfails
    simp [hops]
  refine ⟨h.rule, ?_, ?_, h.loanKind, ?_, ?_, fun _ => ?_, fun _ hdup => absurd hparams hdup, ?_,
    ?_⟩
  · rw [h.place, hplace, Option.map_id, id]
  · obtain ⟨shown, hshown, hshown'⟩ := h.operation
    rw [hshown, hshown']
    exact Option.map_congr fun op _ => htext op
  · rw [h.loanBorrower, hplace, Option.map_id, id]
  · rw [h.movedPlace, hplace, Option.map_id, id]
  · rw [h.point, hpoint, hop, hord.moment_point g hmem]
  · rw [h.movePoint, hpoint]
    refine Option.map_congr fun q hq => if_neg (ne_of_gt ?_)
    rw [hreport] at hq
    exact hfails.entry_lt_of_moved hord hq
  · rw [h.loanPoint, hpoint]

/-- **Only the order of points matters.** When the points of a function are moved and stay in order,
it is accepted as before, or rejected as before with the points of the finding moved along. Only the
entry lies right before the first operation again: a parameter that is there twice is found there,
and the loans of parameters that are references are taken there. -/
theorem verdict_retimed (f : Function) (policy : Policy) {g : Point → Point}
    (hg : ∀ p q, p < q → g p < g q) :
    ((f.retimed g).Accepted policy ↔ f.Accepted policy) ∧
      ∀ r, f.verdict policy = .ok (.rejected f.name r) →
        ∃ r', (f.retimed g).verdict policy = .ok (.rejected f.name r') ∧ f.Retimes g r r' := by
  by_cases hbroken : f.Ordered ∧ (f.params.map Param.name).Nodup
  · obtain ⟨hord, hparams⟩ := hbroken
    by_cases hops : f.ops = []
    · have hsame : f.retimed g = f := by rw [retimed, hops, List.map_nil, ← hops]
      have hacc := @accepted_of_ops_eq_nil f policy hparams hops
      refine ⟨by rw [hsame], fun r hr => ?_⟩
      rw [hacc] at hr
      cases hr
    · obtain ⟨ρ, hfun, hplace, hpoint, htext, hwalk⟩ := hord.exists_recast hg hops policy
      refine ⟨hfun ▸ Recast.accepted_function hwalk, fun r hr => ?_⟩
      obtain ⟨r', hr', hretells⟩ := Recast.rejected_function hwalk hr
      rw [hfun] at hr'
      exact ⟨r', hr', hord.retimes_of_retells hparams hplace hpoint htext hr hretells⟩
  · refine ⟨?_, fun r hr => retimed_of_broken hg hbroken hr⟩
    obtain ⟨r, hr, -⟩ := @malformed_of_broken f policy hbroken
    obtain ⟨r', hr', -⟩ := retimed_of_broken hg hbroken hr
    exact iff_of_false (not_accepted_of_rejected hr') (not_accepted_of_rejected hr)

/-- A function that writes through a parameter that is a shared reference. -/
def writesShared : Function where
  name := "f"
  params := [{ name := "p", ty := .mk "T" [] (some .shared) }]
  ops := [.declare 3 { base := "x" } (.named "T"), .assign 4 { base := "p", path := [.deref] } []]

/-- At points that lie further apart, the loan of the parameter is again taken right before the
first operation. -/
theorem verdict_retimed_writesShared :
    (∀ p q : Point, p < q → 5 * p - 20 < 5 * q - 20) ∧ writesShared.entry = 2 ∧
      ∃ r r', writesShared.verdict {} = .ok (.rejected "f" r) ∧ r.point = 4 ∧
        r.loanPoint = some 2 ∧
        (writesShared.retimed fun q => 5 * q - 20).verdict {} = .ok (.rejected "f" r') ∧
        r'.rule = r.rule ∧ r'.point = 0 ∧ r'.loanPoint = some (-6) := by
  have hg : ∀ p q : Point, p < q → 5 * p - 20 < 5 * q - 20 := fun p q h =>
    Int.sub_lt_sub_right (Int.mul_lt_mul_of_pos_left h (by decide)) 20
  have hverdict : writesShared.verdict {} = .ok (.rejected writesShared.name _) :=
    rejected_of_stop (.assign 4 { base := "p", path := [.deref] } [])
      (.writeThroughShared (Place.ofCaller "p") { base := "p" }
        (some ⟨some { base := "p" }, .shared, 2⟩)) (by decide +kernel)
  obtain ⟨-, hretimed⟩ := verdict_retimed writesShared {} hg
  obtain ⟨r', hr', h⟩ := hretimed _ hverdict
  refine ⟨hg, rfl, _, r', hverdict, rfl, rfl, hr', h.rule, ?_, h.loanPoint⟩
  exact h.point (.inr (by decide))

end Function

end BorrowCheck
