import BorrowCheck.Proofs.Holding
import BorrowCheck.Proofs.Usable

/-!
# Places that are not written

A stretch of operations **spares** a place when none of them writes a place that it lies in
(`BorrowCheck.Function.Spares`). It may still happen that the block of its variable is left, and
that the variable is declared again. But the new one waits for its first value, and as long as it is
not written it cannot be used. So if the variable of a place that was spared can be used at the end,
it could all the time (`BorrowCheck.Function.Accepted.usable_of_spares`), and the place holds what
it held at first (`BorrowCheck.Function.Accepted.held_of_usable`).
-/

namespace BorrowCheck

/-- What is written without `r` lying in it is not the variable of `r`. -/
theorem Place.not_same_root_of_not_isPrefixOf {x r : Place} (h : x.isPrefixOf r = false) :
    x.same { base := r.base } = false := by
  rw [Bool.eq_false_iff] at h ⊢
  intro hsame
  rw [same_iff, unlabel, unlabel, mk.injEq, List.map_nil, List.map_eq_nil_iff] at hsame
  exact h (isPrefixOf_iff.mpr ⟨hsame.1, by rw [hsame.2]; exact List.nil_prefix⟩)

/-- The place that an operation **writes**. -/
def Operation.written? (op : Operation) : Option Place :=
  op.action.toOption.bind Action.written?

theorem Operation.written?_eq {op : Operation} {a : Action} (h : op.action = .ok a) :
    op.written? = a.written? := by
  rw [written?, h]
  rfl

/-! ### Steps -/

/-- A place that holds nothing goes on to do so, unless it is written. -/
theorem Survey.get?_observe_eq_none {s : Survey} {op : Operation} {a : Action} {x : Place}
    (hs : s.Sound) (hact : op.action = .ok a)
    (hspare : ∀ y ∈ op.written?, y.isPrefixOf x = false) (h : s.holders.get? x = none) :
    (s.observe op).holders.get? x = none := by
  cases hget : (s.observe op).holders.get? x with
  | none => rfl
  | some i =>
    obtain ⟨e, he, hsame, rfl⟩ := Place.Map.exists_mem_of_get? hget
    rcases Nat.lt_or_ge e.2 s.borrows.length with hlt | hge
    · -- it would have held the loan before
      have hold := (s.grows_observe op).holders e he hlt
      rw [Place.Map.get?_eq_none_iff, Bool.eq_false_iff] at h
      exact absurd (Place.Map.contains_iff.mpr ⟨e, hold, hsame⟩) h
    · -- a new loan is held where the operation writes
      obtain ⟨br, y, hbr, hy, hey⟩ := (hs.observe op).held e he
      rw [observe_eq_act s hact] at hbr
      rw [Operation.written?_eq hact] at hspare
      have hno := hspare y (get?_act_of_new hge hbr hy).1
      rw [← Place.isPrefixOf_congr hsame, Place.isPrefixOf_congr hey, Place.isPrefixOf_refl] at hno
      cases hno

/-- A variable that can be used after a step could be used before it, unless it is written. -/
theorem Walk.usable_of_spared {c : Context} {w v : State} {op : Operation} {r : Place}
    (hstep : step c w op = .ok v) (hspare : ∀ x ∈ op.written?, x.isPrefixOf r = false)
    (husable : v.store.Usable r.base) : w.store.Usable r.base := by
  obtain ⟨-, a, -, hact, -⟩ := step_cases hstep
  rw [Operation.written?_eq hact] at hspare
  exact usable_of_step hstep hact
    (fun x hx => Place.not_same_root_of_not_isPrefixOf (hspare x hx)) husable

/-- **A step leaves what a place holds**, if the place is not written and its variable can be used
afterwards. -/
theorem Walk.InStep.get?_of_spared {c : Context} {s : Survey} {es : List Ending} {now : Point}
    {w v : State} {op : Operation} {r : Place} (h : InStep c.book s es now w)
    (hstep : Walk.step c w op = .ok v) (hspare : ∀ x ∈ op.written?, x.isPrefixOf r = false)
    (husable : v.store.Usable r.base) :
    (s.observe op).holders.get? r = s.holders.get? r := by
  have hbefore := usable_of_spared hstep hspare husable
  obtain ⟨-, a, u, hact, hperf, hend⟩ := step_cases hstep
  have hperf' := (perform_cases hperf).1
  have hscopes : (Walk.settled w op.point false).store.scopes = s.scopes :=
    (Books.close_scopes _ _).trans h.scopes
  rw [Operation.written?_eq hact] at hspare
  rw [Survey.observe_eq_act s hact]
  refine Survey.get?_act ?_ (fun x hx => ?_) ?_
  · -- only a variable that is not in scope can be declared
    rintro x ty rfl
    obtain ⟨store, hstore, -⟩ := hperf'
    rw [Bool.eq_false_iff]
    intro hunder
    obtain ⟨-, hnew, -⟩ := Store.declare_eq_ok_iff.mp hstore
    have hdecl : (Walk.settled w op.point false).store.declares { base := r.base } = true :=
      (usable_settled.mpr hbefore).1
    rw [Store.declares, ← (Place.isPrefixOf_iff.mp hunder).1] at hdecl
    rw [Store.declares, hdecl] at hnew
    cases hnew
  · exact ⟨Place.not_same_of_not_isPrefixOf (hspare x hx), Or.inr (hspare x hx)⟩
  · rintro rfl dying scopes hexit hdies
    have hun := hperf'.not_usable_of_exit (hscopes ▸ hexit) hdies
    rcases hend with ⟨-, rfl⟩ | ⟨x, hx, -⟩
    · exact hun (usable_settled.mp husable)
    · cases hx

/-! ### Runs -/

namespace Function

variable {f : Function} {policy : Policy} {pre mid post : List Operation} {r : Place} {k : Nat}

/-- The operations `ops` do not write a place that `r` lies in. -/
def Spares (ops : List Operation) (r : Place) : Prop :=
  ∀ o ∈ ops, ∀ x ∈ o.written?, x.isPrefixOf r = false

instance (ops : List Operation) (r : Place) : Decidable (Spares ops r) :=
  inferInstanceAs (Decidable (∀ o ∈ ops, ∀ x ∈ o.written?, x.isPrefixOf r = false))

theorem spares_append {ops ops' : List Operation} :
    Spares (ops ++ ops') r ↔ Spares ops r ∧ Spares ops' r :=
  List.forall_mem_append

/-- **What can be used after it was spared could be used before.** -/
theorem Accepted.usable_of_spares (hspares : Spares mid r) {w v : Walk.State}
    (hw : f.reach policy pre = .ok w) (hv : f.reach policy (pre ++ mid) = .ok v)
    (husable : v.store.Usable r.base) : w.store.Usable r.base := by
  induction mid using List.reverseRecOn generalizing v with
  | nil =>
    rw [List.append_nil] at hv
    obtain rfl : v = w := Except.ok.inj (hv.symm.trans hw)
    exact husable
  | append_singleton mid o ih =>
    rw [← List.append_assoc] at hv
    obtain ⟨u, hu, hstep⟩ := reach_concat_eq_ok_iff.mp hv
    obtain ⟨hmid, ho⟩ := spares_append.mp hspares
    exact ih hmid hu (Walk.usable_of_spared hstep (ho o (List.mem_singleton.mpr rfl)) husable)

/-- **A place that was spared holds what it held**, if its variable can be used. -/
theorem Accepted.held_of_usable (h : f.Accepted policy)
    (hheld : (Survey.after f pre).holders.get? r = some k) (hspares : Spares mid r)
    (hops : f.ops = pre ++ mid ++ post) {w : Walk.State}
    (hw : f.reach policy (pre ++ mid) = .ok w) (husable : w.store.Usable r.base) :
    (Survey.after f (pre ++ mid)).holders.get? r = some k := by
  induction mid using List.reverseRecOn generalizing post w with
  | nil => rwa [List.append_nil]
  | append_singleton mid o ih =>
    have hops' : f.ops = pre ++ mid ++ o :: post := by rw [hops]; simp
    rw [← List.append_assoc] at hw ⊢
    obtain ⟨v, hv, hstep⟩ := reach_concat_eq_ok_iff.mp hw
    obtain ⟨hmid, ho⟩ := spares_append.mp hspares
    have hspare := ho o (List.mem_singleton.mpr rfl)
    have hin := h.ordered.inStep_of_reach hops' hv
    rw [Survey.after_concat, hin.get?_of_spared (c := f.context policy) hstep hspare husable]
    exact ih hmid hops' hv (Walk.usable_of_spared hstep hspare husable)

/-- A place that holds nothing and is spared goes on to hold nothing. -/
theorem Accepted.get?_eq_none (h : f.Accepted policy)
    (hheld : (Survey.after f pre).holders.get? r = none) (hspares : Spares mid r)
    (hops : f.ops = pre ++ mid ++ post) :
    (Survey.after f (pre ++ mid)).holders.get? r = none := by
  induction mid using List.reverseRecOn generalizing post with
  | nil => rwa [List.append_nil]
  | append_singleton mid o ih =>
    have hops' : f.ops = pre ++ mid ++ o :: post := by rw [hops]; simp
    obtain ⟨-, a, -, -, hact, -⟩ := h.stages hops'
    obtain ⟨hmid, ho⟩ := spares_append.mp hspares
    rw [← List.append_assoc, Survey.after_concat]
    exact Survey.get?_observe_eq_none (Survey.sound_after f _) hact
      (ho o (List.mem_singleton.mpr rfl)) (ih hmid hops')

end Function

end BorrowCheck
