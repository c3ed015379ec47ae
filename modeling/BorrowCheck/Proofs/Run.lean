import BorrowCheck.Proofs.Ends
import BorrowCheck.Proofs.Step
import BorrowCheck.Verdict
import Mathlib.Data.List.Induction

/-!
# Runs of a walk

A function is **accepted** (`BorrowCheck.Function.Accepted`) when its verdict says so, which is
when its points increase and the walk completes all its operations. Statements about accepted
functions are about the state that the walk reaches after the first operations
(`BorrowCheck.Function.reach`) and about the survey of the same operations
(`BorrowCheck.Survey.after`): an operation of an accepted function is found by splitting the body
as `pre ++ op :: post`.

Where the blocks of a function end is read off the survey as well: `BorrowCheck.Function.endings`
lists the point of each exit with the variables whose storage ends there. A loan has **lapsed**
(`BorrowCheck.Loan.lapsed`) when the storage of its borrower ended after the loan was taken.
-/

namespace BorrowCheck

/-! ### Accepted functions -/

namespace Walk

/-- A walk is not stopped exactly when it completes all operations. -/
theorem along_stop_eq_none_iff {c : Context} {s : State} {ops : List Operation} :
    (along c s ops).stop = none ↔ ∃ t, ops.foldlM (step c) s = .ok t := by
  induction ops generalizing s with
  | nil => simp [along, pure, Except.pure]
  | cons op ops ih =>
    rw [along]
    split
    next fault hstep =>
      simp only [foldlM_cons_eq_ok_iff, hstep, reduceCtorEq, false_and, exists_false]
    next t hstep =>
      simp only [foldlM_cons_eq_ok_iff, hstep, Except.ok.injEq]
      rw [ih]
      constructor
      · rintro ⟨u, hu⟩
        exact ⟨u, t, rfl, hu⟩
      · rintro ⟨u, _, rfl, hu⟩
        exact ⟨u, hu⟩

/-- A walk stops at an operation that it reaches and cannot complete. -/
theorem exists_step_of_stop {c : Context} {s : State} {ops : List Operation} {stop : Stop}
    (h : (along c s ops).stop = some stop) :
    ∃ pre op post w, ops = pre ++ op :: post ∧ pre.foldlM (step c) s = .ok w ∧
      step c w op = .error stop.fault ∧ stop.point = op.point ∧ stop.operation = some op := by
  induction ops generalizing s with
  | nil => cases h
  | cons op ops ih =>
    rw [along] at h
    split at h
    next fault hstep =>
      rw [← Option.some.inj h]
      exact ⟨[], op, ops, s, rfl, rfl, hstep, rfl, rfl⟩
    next t hstep =>
      obtain ⟨pre, op', post, w, rfl, hw, hstop⟩ := ih h
      exact ⟨op :: pre, op', post, w, rfl, foldlM_cons_eq_ok_iff.mpr ⟨t, hstep, hw⟩, hstop⟩

/-- A walk that fails at an operation stops there. -/
theorem stop_of_step {c : Context} {s w : State} {pre post : List Operation} {op : Operation}
    {fault : Fault} (hw : pre.foldlM (step c) s = .ok w) (hstep : step c w op = .error fault) :
    (along c s (pre ++ op :: post)).stop =
      some { fault, point := op.point, operation := op } := by
  induction pre generalizing s with
  | nil =>
    obtain rfl := pure_eq_ok_iff.mp hw
    rw [List.nil_append, along, hstep]
  | cons first pre ih =>
    obtain ⟨t, ht, hrest⟩ := foldlM_cons_eq_ok_iff.mp hw
    rw [List.cons_append, along, ht]
    exact ih hrest

/-- The states of a walk are those after its first operations. -/
theorem foldlM_of_steps {c : Context} {s t : State} {ops : List Operation} {i : Nat}
    {op : Operation} (h : (along c s ops).steps[i]? = some (op, t)) :
    ops[i]? = some op ∧ (ops.take (i + 1)).foldlM (step c) s = .ok t := by
  induction ops generalizing s i with
  | nil => cases h
  | cons o ops ih =>
    rw [along] at h
    split at h
    next => cases h
    next u hstep =>
      rw [List.take_succ_cons, foldlM_cons_eq_ok_iff]
      cases i with
      | zero =>
        rw [List.getElem?_cons_zero, Option.some.injEq, Prod.mk.injEq] at h
        exact ⟨by rw [List.getElem?_cons_zero, h.1], u, hstep, by rw [h.2]; rfl⟩
      | succ i =>
        rw [List.getElem?_cons_succ] at h ⊢
        obtain ⟨hop, hrest⟩ := ih h
        exact ⟨hop, u, hstep, hrest⟩

end Walk

namespace Function

variable {f : Function} {policy : Policy} {pre post ops : List Operation} {op : Operation}

/-- The verdict on `f` is that it is **accepted**. -/
def Accepted (f : Function) (policy : Policy) : Prop :=
  f.verdict policy = .ok (.accepted f.name)

/-- The state that the walk through `f` **reaches** once the operations `ops` are completed. -/
def reach (f : Function) (policy : Policy) (ops : List Operation) : Except Fault Walk.State := do
  let store ← Walk.declareParams f.params
  ops.foldlM (Walk.step (f.context policy)) (f.start store)

theorem reach_append_eq_ok_iff {t : Walk.State} :
    f.reach policy (pre ++ ops) = .ok t ↔
      ∃ s, f.reach policy pre = .ok s ∧ ops.foldlM (Walk.step (f.context policy)) s = .ok t := by
  simp only [reach, bind_eq_ok_iff, foldlM_append_eq_ok_iff]
  constructor
  · rintro ⟨store, hstore, s, hs, ht⟩
    exact ⟨s, ⟨store, hstore, hs⟩, ht⟩
  · rintro ⟨s, ⟨store, hstore, hs⟩, ht⟩
    exact ⟨store, hstore, s, hs, ht⟩

theorem reach_concat_eq_ok_iff {t : Walk.State} :
    f.reach policy (pre ++ [op]) = .ok t ↔
      ∃ s, f.reach policy pre = .ok s ∧ Walk.step (f.context policy) s op = .ok t := by
  rw [reach_append_eq_ok_iff]
  simp only [foldlM_cons_eq_ok_iff, List.foldlM_nil, pure_eq_ok_iff, exists_eq_right]

theorem accepted_iff_stop : f.Accepted policy ↔ (f.walk policy).stop = none := by
  unfold Accepted verdict
  split
  next hstop => simp [hstop]
  next stop hstop =>
    simp only [hstop, reduceCtorEq, iff_false]
    cases stop.finding f.name <;> simp [Except.map]

instance (f : Function) (policy : Policy) : Decidable (f.Accepted policy) :=
  decidable_of_iff ((f.walk policy).stop.isNone = true)
    (Option.isNone_iff_eq_none.trans accepted_iff_stop.symm)

/-- A function is accepted when its points increase and the walk completes every operation. -/
theorem accepted_iff :
    f.Accepted policy ↔ f.disorder? = none ∧ ∃ t, f.reach policy f.ops = .ok t := by
  rw [accepted_iff_stop]
  unfold walk
  split
  next point last hdis => simp [hdis]
  next hdis =>
    split
    next fault hparams => simp [reach, hdis, hparams, bind_eq_ok_iff]
    next store hparams =>
      simp [reach, hdis, hparams, bind_eq_ok_iff, Walk.along_stop_eq_none_iff]

/-- **What a walk completes**: the operations in front of the stop, each in a state that the walk
reaches. -/
theorem reach_of_steps {i : Nat} {t : Walk.State}
    (h : (f.walk policy).steps[i]? = some (op, t)) :
    f.disorder? = none ∧ f.ops = f.ops.take i ++ op :: f.ops.drop (i + 1) ∧
      f.ops.take (i + 1) = f.ops.take i ++ [op] ∧ f.reach policy (f.ops.take (i + 1)) = .ok t := by
  unfold walk at h
  split at h
  next => cases h
  next hdis =>
    split at h
    next => cases h
    next store hstore =>
      obtain ⟨hop, hrun⟩ := Walk.foldlM_of_steps h
      obtain ⟨hi, rfl⟩ := List.getElem?_eq_some_iff.mp hop
      refine ⟨hdis, ?_, (List.take_append_getElem hi).symm, ?_⟩
      · rw [List.getElem_cons_drop, List.take_append_drop]
      · rw [reach, hstore]
        exact hrun

/-- **Every operation of an accepted function is completed**, from a state that the walk reaches. -/
theorem Accepted.step (h : f.Accepted policy) (hops : f.ops = pre ++ op :: post) :
    ∃ s t, f.reach policy pre = .ok s ∧ Walk.step (f.context policy) s op = .ok t ∧
      f.reach policy (pre ++ [op]) = .ok t := by
  obtain ⟨-, u, hu⟩ := accepted_iff.mp h
  rw [hops, List.append_cons, reach_append_eq_ok_iff] at hu
  obtain ⟨t, ht, -⟩ := hu
  obtain ⟨s, hs, hst⟩ := reach_concat_eq_ok_iff.mp ht
  exact ⟨s, t, hs, hst, ht⟩

/-- **Induction along a run**: what holds once the parameters are declared, and is kept by every
operation that is completed, holds in every state that the walk reaches. -/
theorem reach_induction {P : List Operation → Walk.State → Prop}
    (hstart : ∀ store, Walk.declareParams f.params = .ok store → P [] (f.start store))
    (hstep : ∀ pre op post w t, f.ops = pre ++ op :: post → f.reach policy pre = .ok w → P pre w →
      Walk.step (f.context policy) w op = .ok t → P (pre ++ [op]) t)
    (hops : f.ops = pre ++ post) {w : Walk.State} (hreach : f.reach policy pre = .ok w) :
    P pre w := by
  induction pre using List.reverseRecOn generalizing post w with
  | nil =>
    obtain ⟨store, hstore, hw⟩ := bind_eq_ok_iff.mp hreach
    obtain rfl := pure_eq_ok_iff.mp hw
    exact hstart store hstore
  | append_singleton pre op ih =>
    obtain ⟨v, hv, hvw⟩ := reach_concat_eq_ok_iff.mp hreach
    have hops' : f.ops = pre ++ op :: post := hops.trans (List.append_cons pre op post).symm
    exact hstep pre op post v w hops' hv (ih hops' hv) hvw

/-! ### The order of points -/

/-- **Points increase** along the body. -/
def Ordered (f : Function) : Prop :=
  f.ops.Pairwise fun a b => a.point < b.point

theorem pairwise_of_disorder? {last : Point} (h : Walk.disorder? last ops = none) :
    (∀ op ∈ ops, last < op.point) ∧ ops.Pairwise fun a b => a.point < b.point := by
  induction ops generalizing last with
  | nil => simp
  | cons op ops ih =>
    unfold Walk.disorder? at h
    split at h
    next hlt =>
      obtain ⟨hall, hpair⟩ := ih h
      refine ⟨fun o ho => ?_, List.pairwise_cons.mpr ⟨hall, hpair⟩⟩
      rcases List.mem_cons.mp ho with rfl | ho
      · exact hlt
      · exact lt_trans hlt (hall o ho)
    next => cases h

theorem ordered_of_disorder? (h : f.disorder? = none) : f.Ordered := by
  unfold disorder? at h
  unfold Ordered
  split at h
  next hnil =>
    rw [hnil]
    exact List.Pairwise.nil
  next op ops hops =>
    obtain ⟨hall, hpair⟩ := pairwise_of_disorder? h
    rw [hops]
    exact List.pairwise_cons.mpr ⟨hall, hpair⟩

theorem Accepted.ordered (h : f.Accepted policy) : f.Ordered :=
  ordered_of_disorder? (accepted_iff.mp h).1

theorem Ordered.before (h : f.Ordered) (hops : f.ops = pre ++ op :: post) :
    ∀ o ∈ pre, o.point < op.point := by
  rw [Ordered, hops, List.pairwise_append] at h
  exact fun o ho => h.2.2 o ho op List.mem_cons_self

theorem Ordered.after (h : f.Ordered) (hops : f.ops = pre ++ op :: post) :
    ∀ o ∈ post, op.point < o.point := by
  rw [Ordered, hops, List.pairwise_append, List.pairwise_cons] at h
  exact h.2.1.1

/-- Parameters come into existence before the first operation. -/
theorem Ordered.entry_lt (h : f.Ordered) (hop : op ∈ f.ops) : f.entry < op.point := by
  unfold Ordered at h
  unfold entry
  split
  next hnil =>
    rw [hnil] at hop
    cases hop
  next first rest hops =>
    rw [hops, List.pairwise_cons] at h
    rw [hops] at hop
    have hle : first.point ≤ op.point := by
      rcases List.mem_cons.mp hop with rfl | hop
      · exact le_refl _
      · exact le_of_lt (h.1 op hop)
    exact lt_of_lt_of_le (Int.sub_one_lt_of_le (le_refl _)) hle

/-- The loans that were taken before an operation have smaller origins. -/
theorem Ordered.origin_lt (h : f.Ordered) (hops : f.ops = pre ++ op :: post) {l : Loan}
    (hl : l ∈ f.book.loans) (hid : l.id < (Survey.after f pre).borrows.length) :
    l.origin < op.point := by
  obtain ⟨l', b, hget, hb, rfl⟩ := exists_borrow_of_lt hops hid
  rw [f.book_sound.get?_id hl, Option.some.injEq] at hget
  subst hget
  rcases Nat.lt_or_ge l.id (Survey.after f []).borrows.length with hlt | hge
  · -- a loan of a parameter
    obtain ⟨m, c, hm, hc, rfl⟩ := exists_borrow_of_lt (List.nil_append _).symm hlt
    rw [f.book_sound.get?_id hl, Option.some.injEq] at hm
    subst hm
    have horigin := (Survey.grows_entry f).origin hc (Nat.zero_le _)
    rw [horigin]
    exact h.entry_lt (by rw [hops]; simp)
  · -- a loan of an earlier operation
    obtain ⟨o, ho, hpoint⟩ := (Survey.grows_after f [] pre).origin hb hge
    rw [← hpoint]
    exact h.before hops o ho

/-- A loan with an earlier origin was taken before the operation. -/
theorem Ordered.id_lt (h : f.Ordered) (hops : f.ops = pre ++ op :: post) {l : Loan}
    (hl : l ∈ f.book.loans) (horigin : l.origin < op.point) :
    l.id < (Survey.after f pre).borrows.length := by
  by_contra hge
  obtain ⟨o, ho, hpoint⟩ := exists_op_of_origin hops hl (Nat.le_of_not_lt hge)
  rcases List.mem_cons.mp ho with rfl | ho
  · exact absurd hpoint.symm (ne_of_lt horigin)
  · exact absurd (lt_trans horigin (h.after hops o ho)) (by rw [hpoint]; exact lt_irrefl _)

/-- The loans that were taken once an operation is completed are those with origins up to it. -/
theorem Ordered.origin_le_iff (h : f.Ordered) (hops : f.ops = pre ++ op :: post) {l : Loan}
    (hl : l ∈ f.book.loans) :
    l.origin ≤ op.point ↔ l.id < (Survey.after f (pre ++ [op])).borrows.length := by
  have hops' := hops.trans (List.append_cons pre op post)
  constructor
  · intro hle
    by_contra hge
    obtain ⟨o, ho, hpoint⟩ := exists_op_of_origin hops' hl (Nat.le_of_not_lt hge)
    exact absurd (h.after hops o ho) (not_lt.mpr (hpoint ▸ hle))
  · intro hid
    obtain ⟨m, b, hm, hb, rfl⟩ := exists_borrow_of_lt hops' hid
    rw [f.book_sound.get?_id hl, Option.some.injEq] at hm
    subst hm
    rcases Nat.lt_or_ge l.id (Survey.after f pre).borrows.length with hlt | hge
    · exact le_of_lt (h.origin_lt hops hl hlt)
    · -- a loan of the operation itself
      rw [Survey.after_concat] at hb
      exact le_of_eq (((Survey.after f pre).grows_observe op).origin hb hge)

/-- The point that the walk has come to after the operations `pre`. -/
def pointAfter (f : Function) (pre : List Operation) : Point :=
  (pre.getLast?.map (·.point)).getD (f.entry - 1)

theorem pointAfter_concat (f : Function) (pre : List Operation) (op : Operation) :
    f.pointAfter (pre ++ [op]) = op.point := by
  rw [pointAfter, List.getLast?_concat]
  rfl

theorem Ordered.pointAfter_lt (h : f.Ordered) (hops : f.ops = pre ++ op :: post) :
    f.pointAfter pre < op.point := by
  unfold pointAfter
  cases hlast : pre.getLast? with
  | none =>
    have hmem : op ∈ f.ops := by
      rw [hops]
      exact List.mem_append_right _ List.mem_cons_self
    exact lt_trans (Int.sub_one_lt_of_le (le_refl _)) (h.entry_lt hmem)
  | some o => exact h.before hops o (List.mem_of_getLast? hlast)

end Function

/-! ### The ends of blocks -/

/-- The end of a block: the point of the exit, and the variables whose storage ends. -/
structure Ending where
  point : Point
  names : List String
deriving DecidableEq

namespace Survey

/-- The block that `op` leaves, if it leaves one. -/
def ending? (s : Survey) (op : Operation) : Option Ending :=
  match op.kind with
  | .exit => s.scopes.exit?.map fun e => { point := op.point, names := e.1 }
  | _ => none

/-- The blocks that the operations leave. -/
def endings (s : Survey) : List Operation → List Ending
  | [] => []
  | op :: ops => (s.ending? op).toList ++ (s.observe op).endings ops

theorem endings_append (s : Survey) (pre ops : List Operation) :
    s.endings (pre ++ ops) = s.endings pre ++ (pre.foldl observe s).endings ops := by
  induction pre generalizing s with
  | nil => rfl
  | cons op pre ih => rw [List.cons_append, endings, ih, endings, List.append_assoc]; rfl

theorem point_of_ending? {s : Survey} {op : Operation} {e : Ending} (h : s.ending? op = some e) :
    e.point = op.point := by
  unfold ending? at h
  split at h
  · obtain ⟨_, -, rfl⟩ := Option.map_eq_some_iff.mp h
    rfl
  · cases h

/-- Only an exit leaves a block. -/
theorem ending?_eq_none {op : Operation} (s : Survey) (h : op.kind ≠ .exit) :
    s.ending? op = none := by
  unfold ending?
  split
  · contradiction
  · rfl

theorem ending?_of_exit {s : Survey} {op : Operation} {dying : List String} {scopes : Scopes}
    (h : op.kind = .exit) (hexit : s.scopes.exit? = some (dying, scopes)) :
    s.ending? op = some { point := op.point, names := dying } := by
  rw [ending?, h, hexit]
  rfl

/-- Blocks end at points of the body. -/
theorem exists_op_of_mem_endings {s : Survey} {ops : List Operation} {e : Ending}
    (h : e ∈ s.endings ops) : ∃ op ∈ ops, op.point = e.point := by
  induction ops generalizing s with
  | nil => cases h
  | cons op ops ih =>
    rcases List.mem_append.mp h with h | h
    · exact ⟨op, List.mem_cons_self, (point_of_ending? (Option.mem_toList.mp h)).symm⟩
    · obtain ⟨o, ho, hpoint⟩ := ih h
      exact ⟨o, List.mem_cons_of_mem op ho, hpoint⟩

end Survey

/-- The blocks that a function leaves, with the point of each exit. -/
def Function.endings (f : Function) : List Ending :=
  (Survey.after f []).endings f.ops

namespace Loan

/-- Whether the reference of the loan is stored in one of the variables `names`. -/
def borrowedIn (l : Loan) (names : List String) : Bool :=
  match l.borrower with
  | none => false
  | some y => names.contains y.base

/-- Whether the loan has **lapsed**: one of the blocks that ended after its origin held the
variable of its borrower. -/
def lapsed (l : Loan) (endings : List Ending) : Bool :=
  endings.any fun e => l.origin < e.point && l.borrowedIn e.names

theorem lapsed_append (l : Loan) (es es' : List Ending) :
    l.lapsed (es ++ es') = (l.lapsed es || l.lapsed es') :=
  List.any_append

/-- A loan does not lapse before it is taken. -/
theorem lapsed_eq_false_of_le {l : Loan} {es : List Ending} (h : ∀ e ∈ es, e.point ≤ l.origin) :
    l.lapsed es = false := by
  rw [lapsed, List.any_eq_false]
  intro e he
  have hnot : ¬l.origin < e.point := not_lt.mpr (h e he)
  simp [hnot]

end Loan

namespace Function

variable {f : Function} {pre post : List Operation} {op : Operation}

/-- Whether the loan `l` lapses before `p`: the variable of its borrower goes out of scope between
its origin and `p`. -/
def lapsedBefore (f : Function) (l : Loan) (p : Point) : Bool :=
  l.lapsed (f.endings.filter fun e => e.point < p)

/-- A condition on points that holds of the first operations alone singles out the blocks that
those left. -/
theorem endings_filter {q : Point → Bool} (hops : f.ops = pre ++ post)
    (hpre : ∀ o ∈ pre, q o.point = true) (hpost : ∀ o ∈ post, q o.point = false) :
    (f.endings.filter fun e => q e.point) = (Survey.after f []).endings pre := by
  rw [endings, hops, Survey.endings_append, List.filter_append,
    List.filter_eq_self.mpr, List.filter_eq_nil_iff.mpr, List.append_nil]
  · intro e he
    obtain ⟨o, ho, hpoint⟩ := Survey.exists_op_of_mem_endings he
    rw [← hpoint, hpost o ho]
    exact Bool.false_ne_true
  · intro e he
    obtain ⟨o, ho, hpoint⟩ := Survey.exists_op_of_mem_endings he
    rw [← hpoint, hpre o ho]

/-- The blocks that ended before an operation are those that the earlier operations left. -/
theorem Ordered.endings_before (h : f.Ordered) (hops : f.ops = pre ++ op :: post) :
    (f.endings.filter fun e => e.point < op.point) = (Survey.after f []).endings pre := by
  refine endings_filter (q := fun p => p < op.point) hops (fun o ho => ?_) fun o ho => ?_
  · exact decide_eq_true (h.before hops o ho)
  · rcases List.mem_cons.mp ho with rfl | ho
    · exact decide_eq_false (lt_irrefl _)
    · exact decide_eq_false (not_lt.mpr (le_of_lt (h.after hops o ho)))

/-- The blocks that ended up to an operation are those that it and the earlier ones left. -/
theorem Ordered.endings_upTo (h : f.Ordered) (hops : f.ops = pre ++ op :: post) :
    (f.endings.filter fun e => e.point ≤ op.point) = (Survey.after f []).endings (pre ++ [op]) := by
  refine endings_filter (q := fun p => p ≤ op.point) (hops.trans (List.append_cons pre op post))
    (fun o ho => ?_) fun o ho => decide_eq_false (not_le.mpr (h.after hops o ho))
  rcases List.mem_append.mp ho with ho | ho
  · exact decide_eq_true (le_of_lt (h.before hops o ho))
  · exact decide_eq_true (le_of_eq (congrArg Operation.point (List.mem_singleton.mp ho)))

theorem Ordered.lapsedBefore_eq (h : f.Ordered) (hops : f.ops = pre ++ op :: post) (l : Loan) :
    f.lapsedBefore l op.point = l.lapsed ((Survey.after f []).endings pre) := by
  rw [lapsedBefore, h.endings_before hops]

end Function

end BorrowCheck
