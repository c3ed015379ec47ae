import BorrowCheck.Proofs.Abreast
import BorrowCheck.Proofs.Recorded

/-!
# Operations left out

What a function does later can only make it worse: a loan that is needed later stands in the way
earlier. So a function stays accepted when operations at its end are left out
(`BorrowCheck.Function.accepted_of_longer`), and when operations are left out that only use a place,
wherever they are (`BorrowCheck.Function.accepted_without_use`).

Both rest on one simulation. The walk through a body that is thinned out, and renamed, goes along
with the walk through the whole body: at an operation that is kept both take a step
(`BorrowCheck.Walk.Abreast.step`), at one that is left out the first walk takes a step alone. In
between the second walk is no worse off (`BorrowCheck.Walk.Eased`). Its loans end earlier, so only
the surveys tell how the outstanding loans of the two compare.
-/

namespace BorrowCheck

namespace Thinned

variable {σ : Proj → Proj} {ops ops' : List Operation}

/-- The points that are left are in the same order. -/
theorem points_sublist (h : Thinned σ ops ops') :
    (ops'.map Operation.point).Sublist (ops.map Operation.point) := by
  induction h with
  | nil => exact List.Sublist.refl _
  | keep op _ ih =>
    rw [List.map_append, List.map_append]
    exact ih.append (List.Sublist.refl [op.point])
  | drop op _ _ ih =>
    rw [List.map_append]
    exact ih.trans (List.sublist_append_left _ _)

/-- Operations that follow and are kept. -/
theorem append (h : Thinned σ ops ops') (more : List Operation) :
    Thinned σ (ops ++ more) (ops' ++ more.map (Operation.rename σ)) := by
  induction more using List.reverseRecOn with
  | nil => simpa using h
  | append_singleton more op ih =>
    rw [List.map_append, ← List.append_assoc, ← List.append_assoc]
    exact ih.keep op

theorem append_same (h : Thinned id ops ops') (more : List Operation) :
    Thinned id (ops ++ more) (ops' ++ more) := by
  have hid : more.map (Operation.rename id) = more :=
    List.map_id'' (fun op => op.rename_id) more
  have happend := h.append more
  rwa [hid] at happend

/-- Nothing is left out. -/
theorem refl (ops : List Operation) : Thinned id ops ops :=
  append_same .nil ops

end Thinned

/-! ### Between two operations -/

/-- Parameters have a value. -/
theorem Store.lack?_of_declareAll {params : List Param} {s t : Store}
    (hlack : ∀ y, s.lack? y = none) (hdistinct : s.cells.Distinct)
    (h : params.foldlM (fun store param =>
      store.declare { base := param.name } param.ty true) s = .ok t) :
    (∀ y, t.lack? y = none) ∧ t.cells.Distinct := by
  induction params generalizing s with
  | nil =>
    obtain rfl := pure_eq_ok_iff.mp h
    exact ⟨hlack, hdistinct⟩
  | cons param params ih =>
    obtain ⟨next, hnext, hrest⟩ := foldlM_cons_eq_ok_iff.mp h
    refine ih (fun y => ?_) (distinct_declare hdistinct hnext) hrest
    rw [lack?_declare hnext, hlack]
    split <;> rfl

namespace Walk

variable {σ : Proj → Proj} {q : Point} {c : Context} {b b' : LoanBook} {w w' v : State}
  {op : Operation}

/-- Between two operations the second walk is **no worse off**: fewer places lack a value, and a
reference that the first walk released and that is outstanding was released. -/
structure Eased (σ : Proj → Proj) (w w' : State) : Prop where
  store : w.store.Lighter σ w'.store
  released : ∀ l' ∈ w'.ledger.outstanding, l'.id ∈ w.ledger.released → l'.id ∈ w'.ledger.released
  returned : w'.returned = w.returned

theorem Lighter.eased (h : Lighter σ q b b' w w') : Eased σ w w' where
  store := h.store
  released l' hl' hmem := by
    obtain ⟨l, -, hbacks⟩ := h.ledger l' hl'
    exact hbacks.released (hbacks.id ▸ hmem)
  returned := h.returned

/-- **A use that the first walk makes alone** changes nothing but that it closes loans. -/
theorem Eased.step_left (h : Eased σ w w') (hop : op.kind = .use ∨ op.kind = .deref)
    (hstep : step c w op = .ok v) : Eased σ v w' := by
  obtain ⟨-, a, u, hact, hperf, hend⟩ := step_cases hstep
  obtain ⟨hnone, rfl⟩ : a.written? = none ∧ u = settled w op.point false := by
    have hdoes := Operation.action_cases hact
    cases a with
    | deref x | use x => exact ⟨rfl, (perform_cases hperf).1.2⟩
    | declare x ty | assign x ys | move y x | borrow kind y x | call args result | ret x =>
      rw [hdoes.1] at hop
      simp at hop
    | enter | exit =>
      rw [show op.kind = _ from hdoes] at hop
      simp at hop
  rcases hend with ⟨-, rfl⟩ | ⟨x, hx, -⟩
  · have hstore := (h.store.close (w.ledger.expired op.point false) []).close
      ((settled w op.point false).ledger.expired op.point true) []
    exact ⟨hstore, h.released, h.returned⟩
  · rw [hnone] at hx
    cases hx

end Walk

/-! ### The run -/

namespace Function

variable {σ : Proj → Proj} {f g : Function} {policy : Policy} {pre pre' post post' : List Operation}
  {op : Operation} {q : Point} {w w' : Walk.State}

/-- What a kept operation touches is needed in the second walk. -/
theorem neededAt_of_touches (hσ : Proj.Faithful σ) (hops : g.ops = pre ++ op.rename σ :: post)
    {x y : Place} (hx : x ∈ op.touches) (hy : y.isPrefixOf x = true) :
    (Survey.after g pre).NeededAt g.book (y.rename σ) op.point := by
  intro e he hsame l hl
  refine le_last_of_touches hops (x := x.rename σ) ?_ he ?_ hl
  · rw [op.touches_rename σ hσ]
    exact List.mem_map_of_mem hx
  · refine Place.overlaps_of_isPrefixOf ?_
    rwa [Place.isPrefixOf_congr_left hsame, Place.isPrefixOf_rename hσ]

section

variable (hf : f.Ordered) (hg : g.Ordered) (hparams : g.params = f.params)
  (hbooks : f.book.Matches σ q g.book) (hentry : f.entry ≤ q) (hentry' : g.entry ≤ q)
  (hlate : ∀ o ∈ g.ops, q < o.point)

include hf hg hparams hbooks hentry hentry' hlate

/-- **The two walks are abreast at every operation that is kept.** -/
theorem abreast_of_eased (hthin : Thinned σ pre pre') (hops : f.ops = pre ++ op :: post)
    (hops' : g.ops = pre' ++ op.rename σ :: post') (hreach : f.reach policy pre = .ok w)
    (hreach' : g.reach policy pre' = .ok w') (heased : Walk.Eased σ w w') :
    Walk.Abreast σ q f.book g.book (Survey.after f pre) (Survey.after g pre')
      ((Survey.after f []).endings pre) op.point (Walk.settled w op.point false)
      (Walk.settled w' op.point false) := by
  have hfollows := hthin.follows hbooks.faithful hparams hentry hentry'
  have hfirst := (hf.inStep_of_reach hops hreach).settled f.book_sound (hf.pointAfter_lt hops)
  have hsecond := (hg.inStep_of_reach hops' hreach').settled g.book_sound (hg.pointAfter_lt hops')
  have hlates : ∀ e ∈ (Survey.after g []).endings pre', q < e.point ∧ e.point < op.point := by
    intro e he
    obtain ⟨o, ho, hpoint⟩ := Survey.exists_op_of_mem_endings he
    rw [← hpoint]
    refine ⟨hlate o ?_, hg.before hops' o ho⟩
    rw [hops']
    exact List.mem_append_left _ ho
  have hearly : q < op.point := hlate (op.rename σ) (by rw [hops']; simp)
  rw [hthin.endings_eq hbooks.faithful hparams hentry hentry'] at hsecond hlates
  refine ⟨hbooks, hfirst, hsecond, ⟨heased.store.close _ _, ?_, heased.returned⟩, hfollows,
    Survey.sound_after f pre, Survey.sound_after g pre', recorded_after hops', hearly, hlates, ?_⟩
  · exact hfirst.lighter hsecond hbooks hfollows.length_eq (Int.le_sub_one_of_lt hearly)
      (fun e he => (hlates e he).1)
      fun l' hl' => heased.released l' (List.mem_of_mem_filter hl')
  · intro l hl
    exact (hf.traced_of_reach hops hreach).known l (List.mem_of_mem_filter hl)

/-- **The second walk gets as far as the first one.** -/
theorem exists_reach_of_thinned (hthin : Thinned σ pre pre') (hops : f.ops = pre ++ post)
    (hops' : g.ops = pre' ++ post') (hreach : f.reach policy pre = .ok w) :
    ∃ w', g.reach policy pre' = .ok w' ∧ Walk.Eased σ w w' := by
  induction hthin generalizing post post' w with
  | nil =>
    obtain ⟨store, hstore, hw⟩ := bind_eq_ok_iff.mp hreach
    obtain rfl := pure_eq_ok_iff.mp hw
    obtain ⟨hlack, hdistinct⟩ :=
      Store.lack?_of_declareAll (s := {}) (fun _ => rfl) List.Pairwise.nil hstore
    refine ⟨g.start store, ?_, ⟨rfl, rfl, hdistinct, fun z o hz => ?_, fun n => Iff.rfl⟩,
      fun l' _ hmem => ?_, rfl⟩
    · rw [reach, hparams]
      exact bind_eq_ok_iff.mpr ⟨store, hstore, rfl⟩
    · rw [show (g.start store).store = store from rfl, hlack] at hz
      cases hz
    · rw [start, Books.openForCaller, Ledger.released_foldl_record] at hmem
      cases hmem
  | @keep pre pre' op hthin ih =>
    obtain ⟨u, hu, hstep⟩ := reach_concat_eq_ok_iff.mp hreach
    have hops := hops.trans (List.append_cons pre op post).symm
    have hops' := hops'.trans (List.append_cons pre' (op.rename σ) post').symm
    obtain ⟨u', hu', heased⟩ := ih hops hops' hu
    have habreast := abreast_of_eased hf hg hparams hbooks hentry hentry' hlate hthin hops hops' hu
      hu' heased
    have hturn' := hg.turn hops'
    rw [hthin.endings_eq hbooks.faithful hparams hentry hentry'] at hturn'
    obtain ⟨v', hstep', hlighter⟩ := habreast.step (hf.turn hops) hturn'
      (fun x hx y hy => neededAt_of_touches hbooks.faithful hops' hx hy) hstep
    exact ⟨v', reach_concat_eq_ok_iff.mpr ⟨u', hu', hstep'⟩, hlighter.eased⟩
  | @drop pre pre' op hop hthin ih =>
    obtain ⟨u, hu, hstep⟩ := reach_concat_eq_ok_iff.mp hreach
    obtain ⟨u', hu', heased⟩ := ih (hops.trans (List.append_cons pre op post).symm) hops' hu
    exact ⟨u', hu', heased.step_left hop hstep⟩

end

/-! ### Bodies that are thinned out -/

theorem Ordered.disorder?_eq_none (h : f.Ordered) : f.disorder? = none := by
  have hwalk : ∀ (last : Point) (ops : List Operation), (∀ o ∈ ops, last < o.point) →
      (ops.Pairwise fun a b => a.point < b.point) → Walk.disorder? last ops = none := by
    intro last ops hlast hpair
    induction ops generalizing last with
    | nil => rfl
    | cons op ops ih =>
      rw [List.pairwise_cons] at hpair
      rw [Walk.disorder?, if_pos (hlast op List.mem_cons_self)]
      exact ih op.point hpair.1 hpair.2
  unfold disorder?
  split
  next => rfl
  next op ops hops =>
    rw [Ordered, hops, List.pairwise_cons] at h
    exact hwalk op.point ops h.1 h.2

theorem Ordered.of_thinned (h : f.Ordered) (hops : f.ops = pre ++ post)
    (hthin : Thinned σ pre g.ops) : g.Ordered := by
  rw [Ordered, hops, List.pairwise_append] at h
  exact List.pairwise_map.mp ((List.pairwise_map.mpr h.1).sublist hthin.points_sublist)

/-- **A walk through the first operations of a function, thinned out and renamed, gets as far as the
walk through the function.** -/
theorem exists_reach_of_longer (hσ : Proj.Faithful σ) (hf : f.Ordered)
    (hops : f.ops = pre ++ post) (hthin : Thinned σ pre g.ops) (hparams : g.params = f.params)
    {ops ops' more more' : List Operation} (hkept : Thinned σ ops ops')
    (hmore : f.ops = ops ++ more) (hmore' : g.ops = ops' ++ more')
    (hreach : f.reach policy ops = .ok w) : ∃ w', g.reach policy ops' = .ok w' := by
  have hg := hf.of_thinned hops hthin
  have hbooks : f.book.Matches σ (max f.entry g.entry) g.book :=
    ⟨hσ, f.book_sound, g.book_sound,
      outlasts_of_thinned hσ hops hthin hparams (le_max_left _ _) (le_max_right _ _)⟩
  have hlate : ∀ o ∈ g.ops, max f.entry g.entry < o.point := by
    intro o ho
    refine max_lt ?_ (hg.entry_lt ho)
    -- the operation is one of the first function, renamed
    have hpoint := hthin.points_sublist.subset (List.mem_map_of_mem ho)
    obtain ⟨o', ho', heq⟩ := List.mem_map.mp hpoint
    rw [← heq]
    exact hf.entry_lt (by rw [hops]; exact List.mem_append_left _ ho')
  obtain ⟨w', hw', -⟩ := exists_reach_of_thinned hf hg hparams hbooks (le_max_left _ _)
    (le_max_right _ _) hlate hkept hmore hmore' hreach
  exact ⟨w', hw'⟩

theorem accepted_of_thinned (hσ : Proj.Faithful σ) (hf : f.Ordered) (hops : f.ops = pre ++ post)
    (hreach : f.reach policy pre = .ok w) (hthin : Thinned σ pre g.ops)
    (hparams : g.params = f.params) : g.Accepted policy :=
  accepted_iff.mpr ⟨(hf.of_thinned hops hthin).disorder?_eq_none,
    exists_reach_of_longer hσ hf hops hthin hparams hthin hops (List.append_nil _).symm hreach⟩

/-! ### Rejected functions -/

/-- `f` is **rejected at** `p`, for an operation that the walk came to. -/
def RejectedAt (f : Function) (policy : Policy) (p : Point) : Prop :=
  ∃ finding, f.verdict policy = .ok (.rejected f.name finding) ∧ finding.point = p ∧
    finding.operation.isSome = true

theorem rejectedAt_iff {p : Point} :
    f.RejectedAt policy p ↔
      (f.walk policy).stop.any (fun stop => stop.point = p && stop.operation.isSome) = true := by
  unfold RejectedAt verdict
  cases hstop : (f.walk policy).stop with
  | none => simp
  | some stop =>
    obtain ⟨v, hv⟩ := exists_violation_of_stop hstop
    simp only [Walk.Stop.finding, hv]
    cases hoperation : stop.operation <;> simp [Except.map, Violation.finding, hoperation]

instance (f : Function) (policy : Policy) (p : Point) : Decidable (f.RejectedAt policy p) :=
  decidable_of_iff _ rejectedAt_iff.symm

theorem RejectedAt.not_accepted {p : Point} (h : f.RejectedAt policy p) : ¬f.Accepted policy := by
  rw [rejectedAt_iff] at h
  rw [accepted_iff_stop]
  intro hnone
  simp [hnone] at h

/-- Where a function is rejected there is an operation that the walk reaches and cannot complete. -/
theorem RejectedAt.exists_step {p : Point} (h : f.RejectedAt policy p) :
    f.Ordered ∧ ∃ pre op post w, f.ops = pre ++ op :: post ∧ op.point = p ∧
      f.reach policy pre = .ok w ∧ ∀ t, Walk.step (f.context policy) w op ≠ .ok t := by
  rw [rejectedAt_iff, Option.any_eq_true] at h
  obtain ⟨stop, hstop, hat⟩ := h
  simp only [Bool.and_eq_true, decide_eq_true_eq] at hat
  unfold walk at hstop
  split at hstop
  next =>
    rw [← Option.some.inj hstop] at hat
    simp at hat
  next hdis =>
    split at hstop
    next =>
      rw [← Option.some.inj hstop] at hat
      simp at hat
    next store hstore =>
      obtain ⟨pre, op, post, w, hops, hw, hstep, hpoint, -⟩ := Walk.exists_step_of_stop hstop
      refine ⟨ordered_of_disorder? hdis, pre, op, post, w, hops, hpoint.symm.trans hat.1, ?_, ?_⟩
      · rw [reach, hstore]
        exact hw
      · intro t ht
        rw [ht] at hstep
        cases hstep

/-- A function whose points increase and whose parameters have different names is accepted, or
rejected for an operation. -/
theorem exists_rejectedAt (hord : f.Ordered) {store : Store}
    (hstore : Walk.declareParams f.params = .ok store) (h : ¬f.Accepted policy) :
    ∃ p, f.RejectedAt policy p := by
  rw [accepted_iff_stop] at h
  obtain ⟨stop, hstop⟩ := Option.ne_none_iff_exists'.mp h
  refine ⟨stop.point, rejectedAt_iff.mpr ?_⟩
  rw [hstop]
  unfold walk at hstop
  simp only [hord.disorder?_eq_none, hstore] at hstop
  obtain ⟨pre, op, post, w, -, -, -, -, hoperation⟩ := Walk.exists_step_of_stop hstop
  simp [hoperation]

/-! ### Shorter functions -/

/-- The function with its first `n` operations alone. -/
def firstOps (f : Function) (n : Nat) : Function :=
  { f with ops := f.ops.take n }

/-- The function with its operations in front of `p` alone. -/
def opsBefore (f : Function) (p : Point) : Function :=
  { f with ops := f.ops.filter fun op => op.point < p }

/-- The function without its operation number `i`. -/
def withoutOp (f : Function) (i : Nat) : Function :=
  { f with ops := f.ops.eraseIdx i }

/-- What the walk completes is accepted as a function of its own. -/
theorem accepted_of_reach (hf : f.Ordered) (hops : f.ops = pre ++ post)
    (hreach : f.reach policy pre = .ok w) (hg : g.ops = pre) (hparams : g.params = f.params) :
    g.Accepted policy :=
  accepted_of_thinned Proj.faithful_id hf hops hreach (hg ▸ .refl pre) hparams

theorem Accepted.firstOps (h : f.Accepted policy) (n : Nat) : (f.firstOps n).Accepted policy := by
  obtain ⟨-, t, ht⟩ := accepted_iff.mp h
  have hops := (List.take_append_drop n f.ops).symm
  rw [hops, reach_append_eq_ok_iff] at ht
  obtain ⟨w, hw, -⟩ := ht
  exact accepted_of_reach h.ordered hops hw rfl rfl

/-- The operations in front of the point of an operation are those in front of it. -/
theorem Ordered.filter_before (h : f.Ordered) (hops : f.ops = pre ++ op :: post) :
    (f.ops.filter fun o => o.point < op.point) = pre := by
  rw [hops, List.filter_append, List.filter_eq_self.mpr, List.filter_eq_nil_iff.mpr,
    List.append_nil]
  · intro o ho
    rw [decide_eq_true_eq, not_lt]
    rcases List.mem_cons.mp ho with rfl | ho
    · exact le_refl _
    · exact le_of_lt (h.after hops o ho)
  · exact fun o ho => decide_eq_true (h.before hops o ho)

/-- Of two operations the one with the smaller point comes first. -/
theorem Ordered.exists_between (h : f.Ordered) {o : Operation} {before after : List Operation}
    (hops : f.ops = pre ++ op :: post) (hops' : f.ops = before ++ o :: after)
    (hlt : op.point < o.point) : ∃ mid, before = pre ++ [op] ++ mid := by
  have hne : op ≠ o := fun heq => lt_irrefl _ (heq ▸ hlt)
  rcases List.append_eq_append_iff.mp (hops.symm.trans hops') with
    ⟨mid, rfl, hmid⟩ | ⟨mid, rfl, hmid⟩
  · cases mid with
    | nil => exact absurd (List.cons.inj hmid).1 hne
    | cons o' mid =>
      obtain ⟨rfl, -⟩ := List.cons.inj hmid
      exact ⟨mid, List.append_cons pre op mid⟩
  · cases mid with
    | nil => exact absurd (List.cons.inj hmid).1.symm hne
    | cons o' mid =>
      obtain ⟨rfl, -⟩ := List.cons.inj hmid
      exact absurd (h.before hops o (by simp)) (not_lt.mpr (le_of_lt hlt))

/-- **Acceptance passes on to the first operations, and what is reported is the first violation.**
If a function is accepted, so is the one with its first operations alone. If the first operations
are rejected at `p`, the function is rejected there or earlier. And what is in front of the point at
which a function is rejected is accepted. -/
theorem accepted_of_longer (f : Function) (policy : Policy) :
    (∀ n, f.Accepted policy → (f.firstOps n).Accepted policy) ∧
      (∀ n p, (f.firstOps n).RejectedAt policy p → f.Ordered → ∃ q ≤ p, f.RejectedAt policy q) ∧
      ∀ p, f.RejectedAt policy p → (f.opsBefore p).Accepted policy := by
  refine ⟨fun n h => h.firstOps n, fun n p h hord => ?_, fun p h => ?_⟩
  · obtain ⟨-, pre, op, post, w, hops, rfl, hw, hstuck⟩ := h.exists_step
    have hsplit : f.ops = pre ++ op :: (post ++ f.ops.drop n) := by
      rw [← List.cons_append, ← List.append_assoc, ← hops]
      exact (List.take_append_drop n f.ops).symm
    obtain ⟨store, hstore, -⟩ := bind_eq_ok_iff.mp hw
    have hnot : ¬f.Accepted policy := fun haccepted => h.not_accepted (haccepted.firstOps n)
    obtain ⟨q, hq⟩ := exists_rejectedAt hord hstore hnot
    refine ⟨q, le_of_not_gt fun hlt => ?_, hq⟩
    -- otherwise the walk through the whole function completes the operation at `p`
    obtain ⟨-, pre', op', post', w', hops', rfl, hw', -⟩ := hq.exists_step
    obtain ⟨mid, rfl⟩ := hord.exists_between hsplit hops' hlt
    obtain ⟨v, hv, -⟩ := reach_append_eq_ok_iff.mp hw'
    obtain ⟨v', hv'⟩ := exists_reach_of_longer (g := f.firstOps n) Proj.faithful_id hord
      (List.take_append_drop n f.ops).symm (.refl _) rfl (.refl (pre ++ [op]))
      (hops'.trans (List.append_assoc _ _ _)) (hops.trans (List.append_cons pre op post)) hv
    obtain ⟨u, hu, hstep⟩ := reach_concat_eq_ok_iff.mp hv'
    rw [hw, Except.ok.injEq] at hu
    exact hstuck v' (hu ▸ hstep)
  · obtain ⟨hord, pre, op, post, w, hops, rfl, hw, -⟩ := h.exists_step
    exact accepted_of_reach hord hops hw (hord.filter_before hops) rfl

/-- A function that overwrites `s` at 5 and names an unknown variable at 6, before it uses a
reference to `s` at 7. -/
def failsTwice : Function where
  name := "f"
  ops :=
    [.declare 1 { base := "s" } (.named "T"), .assign 2 { base := "s" } [],
      .declare 3 { base := "r" } (.named "R"), .borrow 4 .shared { base := "r" } { base := "s" },
      .assign 5 { base := "s" } [], .use 6 { base := "t" }, .use 7 { base := "r" }]

/-- Its first six operations are rejected at 6. With the last one the loan of `s` is needed after 5,
and the function is rejected there; what is in front of 5 is accepted, and so are the first five
operations and their first four. -/
theorem accepted_of_longer_failsTwice :
    (failsTwice.firstOps 6).RejectedAt {} 6 ∧ failsTwice.Ordered ∧
      (∃ q ≤ 6, failsTwice.RejectedAt {} q) ∧ failsTwice.RejectedAt {} 5 ∧
      (failsTwice.opsBefore 5).Accepted {} ∧ (failsTwice.firstOps 5).Accepted {} ∧
      ((failsTwice.firstOps 5).firstOps 4).Accepted {} := by
  have hfirst : (failsTwice.firstOps 6).RejectedAt {} 6 := by decide +kernel
  have hord : failsTwice.Ordered := ordered_of_disorder? (by decide)
  have hall : failsTwice.RejectedAt {} 5 := by decide +kernel
  have hfive : (failsTwice.firstOps 5).Accepted {} := by decide +kernel
  exact ⟨hfirst, hord, (accepted_of_longer failsTwice {}).2.1 6 6 hfirst hord, hall,
    (accepted_of_longer failsTwice {}).2.2 5 hall, hfive,
    (accepted_of_longer (failsTwice.firstOps 5) {}).1 4 hfive⟩

/-- **A use that is left out does not hurt.** -/
theorem accepted_without_use {i : Nat} (h : f.Accepted policy) (hop : f.ops[i]? = some op)
    (hkind : op.kind = .use ∨ op.kind = .deref) : (f.withoutOp i).Accepted policy := by
  obtain ⟨hdis, t, ht⟩ := accepted_iff.mp h
  have hthin : Thinned id f.ops (f.withoutOp i).ops := by
    obtain ⟨hi, rfl⟩ := List.getElem?_eq_some_iff.mp hop
    have hops : f.ops = f.ops.take i ++ [f.ops[i]] ++ f.ops.drop (i + 1) := by
      rw [List.append_assoc, List.singleton_append, List.getElem_cons_drop, List.take_append_drop]
    rw [withoutOp, List.eraseIdx_eq_take_drop_succ]
    conv => arg 2; rw [hops]
    exact (Thinned.drop _ hkind (.refl _)).append_same _
  exact accepted_of_thinned Proj.faithful_id h.ordered (List.append_nil _).symm ht hthin rfl

/-- A function that uses its parameter `r`, an exclusive reference, reborrows it for `q`, uses `q`
and writes through `r`. -/
def usesParam : Function :=
  ofReference .exclusive
    [.use 1 { base := "r" }, .declare 2 { base := "q" } (.named "R"),
      .borrow 3 .exclusive { base := "q" } (Place.deref { base := "r" }),
      .deref 4 { base := "q" }, .assign 5 (Place.deref { base := "r" }) []]

/-- Without the first use the parameter comes into existence later, and without the second one the
loan to `q` ends where it begins. -/
theorem accepted_without_use_usesParam :
    usesParam.Accepted {} ∧ usesParam.entry = 0 ∧ (usesParam.withoutOp 0).entry = 1 ∧
      (usesParam.withoutOp 0).Accepted {} ∧ usesParam.book.loans.map (·.last) = [5, 4] ∧
      (usesParam.withoutOp 3).book.loans.map (·.last) = [5, 3] ∧
      (usesParam.withoutOp 3).Accepted {} := by
  have haccepted : usesParam.Accepted {} := by decide +kernel
  exact ⟨haccepted, rfl, rfl, accepted_without_use haccepted rfl (.inl rfl), by decide +kernel,
    by decide +kernel, accepted_without_use haccepted rfl (.inr rfl)⟩

end Function

end BorrowCheck
