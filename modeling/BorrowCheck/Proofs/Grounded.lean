import BorrowCheck.Proofs.Effects

/-!
# What is lent has a value

A loan of a place that goes through no reference lends storage of a variable or of the caller. At
its origin the variable is in scope and has a value, and both stay so while the loan is needed:
leaving the block of the variable is refused, and only a declaration makes a variable wait for a
value again. This is the invariant `BorrowCheck.Walk.Grounded`. The argument for a reborrow is that
it lends storage of the loan that it was taken through, which lasts at least as long.

A variable that waits for its first value is written without a look at the loans. By the invariant
there is none to look at.

The storage of the caller has names that no listing can write. A walk that was not given a listing
may declare a variable of such a name, so the invariant takes it as an assumption that no
declaration does.
-/

namespace BorrowCheck

/-- The names of the storage that belongs to the caller. -/
def Function.callers (f : Function) : List String :=
  f.params.map fun param => (Place.ofCaller param.name).base

/-- The variables that the body declares. -/
def Function.declared (f : Function) : List String :=
  f.ops.filterMap fun op => if op.kind = .declare then op.target.map (·.base) else none

namespace Store

variable {s t : Store} {callers : List String} {x y : Place}

/-- The variable of `x` does not wait for a value, and is in scope or belongs to the caller. -/
def Founded (s : Store) (callers : List String) (x : Place) : Prop :=
  ¬s.Awaits x.base ∧ (x.base ∈ callers ∨ s.declares x = true)

theorem Founded.of_base (h : s.Founded callers x) (hbase : y.base = x.base) :
    s.Founded callers y := by
  rw [Founded, declares, hbase]
  exact h

theorem Founded.mono (h : s.Founded callers x) (hwait : ∀ n, t.Awaits n → s.Awaits n)
    (htypes : t.types = s.types) : t.Founded callers x := by
  refine ⟨fun h' => h.1 (hwait _ h'), ?_⟩
  rw [declares_of_types htypes]
  exact h.2

/-- What can be used is founded. -/
theorem founded_of_value (hdecl : s.declares x = true) (hval : s.lacking? x = none) :
    s.Founded callers x :=
  ⟨not_awaits_of_lacking? hval, Or.inr hdecl⟩

end Store

namespace Walk

variable {c : Context} {callers : List String} {s t : Survey} {es : List Ending} {now p : Point}
  {w u : State} {P : Point → Prop} {x y : Place}

/-- **What is lent has a value**, as far as the loan is needed after `p`. -/
def Grounded (callers : List String) (p : Point) (w : State) : Prop :=
  ∀ l ∈ w.ledger.outstanding, p < l.last → l.target.throughRef = false →
    w.store.Founded callers l.target

theorem Grounded.mono (h : Grounded callers now w) (hle : now ≤ p) : Grounded callers p w :=
  fun l hl hlast => h l hl (lt_of_le_of_lt hle hlast)

/-- What opens no loan and makes no variable wait for a value keeps the invariant. -/
theorem Grounded.of_fewer (h : Grounded callers p w)
    (hsub : u.ledger.outstanding ⊆ w.ledger.outstanding)
    (hwait : ∀ n, u.store.Awaits n → w.store.Awaits n) (htypes : u.store.types = w.store.types) :
    Grounded callers p u :=
  fun l hl hlast href => (h l (hsub hl) hlast href).mono hwait htypes

/-- Closing loans keeps the invariant. -/
theorem Grounded.close (h : Grounded callers p w) (loans : List Loan) :
    Grounded callers p { w with toBooks := w.toBooks.close loans } :=
  h.of_fewer (List.filter_subset_self _) (fun _ => (Books.lacksNoMore_close _ _).awaits)
    (Books.close_types _ _)

theorem Grounded.settled {q : Point} {inclusive : Bool} (h : Grounded callers p w) :
    Grounded callers p (settled w q inclusive) :=
  h.close _

/-- Moving a value out keeps the invariant: what was moved out does not wait for its first
value. -/
theorem Grounded.vacate (h : Grounded callers p w) (hvac : vacate w x p = .ok u) :
    Grounded callers p u := by
  obtain ⟨-, -, -, -, rfl⟩ := vacate_eq_ok_iff.mp hvac
  refine h.of_fewer (List.Subset.refl _) (fun n hn => ?_) rfl
  rw [Store.Awaits, Store.ownership?_drain] at hn
  split at hn
  · simp at hn
  · exact hn

/-! ### Loans that are opened -/

/-- Opening a loan of a founded place keeps the invariant. -/
theorem Grounded.record {l : Loan} (h : Grounded callers p w)
    (hl : p < l.last → l.target.throughRef = false → w.store.Founded callers l.target) :
    Grounded callers p
      { w with store := w.store.encumber l.target l.kind l.id, ledger := w.ledger.record l } := by
  intro m hm hlast href
  have hwait : ∀ n, (w.store.encumber l.target l.kind l.id).Awaits n → w.store.Awaits n :=
    fun _ => (Store.lacksNoMore_encumber _ _).awaits
  rcases List.mem_append.mp hm with hm | hm
  · exact (h m hm hlast href).mono hwait (Store.encumber_types _ _)
  · obtain rfl := List.mem_singleton.mp hm
    exact (hl hlast href).mono hwait (Store.encumber_types _ _)

/-- What is backed is founded. -/
theorem Grounded.founded_of_backed {l : Loan} (h : Grounded callers p w) (hlast : p < l.last)
    (href : l.target.throughRef = false) (hbacked : Backed w l) :
    w.store.Founded callers l.target := by
  cases hbacked with
  | value hdecl hval => exact Store.founded_of_value hdecl hval
  | @parent m ps hm hle htarget =>
    rw [htarget] at href ⊢
    exact (h m hm (lt_of_lt_of_le hlast hle) (Place.throughRef_eq_false_of_append href)).of_base rfl

/-! ### Variables that come and go -/

/-- A variable that is new is lent by no loan. -/
theorem Grounded.base_ne {l : Loan} (h : Grounded callers p w) (hl : l ∈ w.ledger.outstanding)
    (hlast : p < l.last) (href : l.target.throughRef = false) (hnew : x.base ∉ callers)
    (hfresh : w.store.declares x = false) : l.target.base ≠ x.base := by
  intro heq
  rcases (h l hl hlast href).2 with hcaller | hscope
  · exact hnew (heq ▸ hcaller)
  · rw [Store.declares, heq] at hscope
    rw [Store.declares, hscope] at hfresh
    cases hfresh

/-- A declaration keeps the invariant. -/
theorem Grounded.declare {ty : Ty} {store : Store} (h : Grounded callers p w)
    (hnew : x.base ∉ callers) (hdecl : w.store.declare x ty false = .ok store) :
    Grounded callers p { w with store } := by
  obtain ⟨hroot, hfresh, rfl⟩ := Store.declare_eq_ok_iff.mp hdecl
  intro l hl hlast href
  obtain ⟨hwait, hscope⟩ := h l hl hlast href
  have hne := h.base_ne hl hlast href hnew hfresh
  refine ⟨fun hwait' => hwait ?_, hscope.imp_right fun hscope => ?_⟩
  · have hxl : x.same { base := l.target.base } = false := by
      rw [Bool.eq_false_iff]
      exact fun hsame => hne (Place.base_eq_of_same hsame).symm
    rwa [Store.Awaits, Store.ownership?, Place.Map.get?_put_of_not_same _ _ hxl] at hwait'
  · rw [Store.declares_iff_mem] at hscope ⊢
    rw [List.map_append]
    exact List.mem_append_left _ hscope

/-- The end of storage keeps the invariant: loans of it are not needed later. -/
theorem Grounded.endStorage {roots : List String} (h : Grounded callers p w)
    (hfree : ∀ l ∈ w.ledger.outstanding, p < l.last → l.target.throughRef = false →
      l.target.base ∉ roots) :
    Grounded callers p { w with store := w.store.endStorage roots } := by
  intro l hl hlast href
  obtain ⟨hwait, hscope⟩ := h l hl hlast href
  refine ⟨fun hwait' => hwait ((Store.lacksNoMore_endStorage roots).awaits hwait'),
    hscope.imp_right fun hscope => ?_⟩
  exact Store.declares_endStorage.mpr ⟨hscope, hfree l hl hlast href⟩

/-! ### Effects, steps and runs -/

theorem Grounded.write {closed : List Loan} (h : Grounded callers p w)
    (hwrite : write c w closed x p = .ok u) : Grounded callers p u := by
  rcases (write_cases hwrite).2 with ⟨-, -, rfl⟩ | ⟨-, store, hstore, rfl⟩
  · exact h
  · rcases hstore with ⟨-, -, hfill⟩ | ⟨-, rfl⟩
    · refine h.of_fewer (List.Subset.refl _) (fun _ => (Store.lacksNoMore_fill hfill).awaits) ?_
      obtain ⟨-, rfl⟩ := Store.fill_eq_ok_iff.mp hfill
      rfl
    · exact h.of_fewer (List.Subset.refl _) (fun _ => Store.lacksNoMore_restore.awaits) rfl

/-- **Every effect keeps the invariant.** -/
theorem Grounded.effect (h : Grounded callers p w) (heffect : Effect c callers p w u) :
    Grounded callers p u := by
  cases heffect with
  | lent _ _ hbacked =>
    exact h.record fun hlast href => h.founded_of_backed hlast href (hbacked hlast href)
  | vacated hvac => exact h.vacate hvac
  | declared hnew hdecl => exact h.declare hnew hdecl
  | blocked scopes => exact h.of_fewer (List.Subset.refl _) (fun _ => id) rfl
  | closed q _ => exact h.close _
  | ended roots hfree => exact h.endStorage hfree
  | returned => exact h
  | written hwrite => exact h.write hwrite

theorem Grounded.effects (h : Grounded callers p w) (heffects : Effects c callers p w u) :
    Grounded callers p u := by
  induction heffects with
  | refl => exact h
  | tail _ hlast ih => exact ih.effect hlast

/-- **What an action does before its write keeps the invariant.** -/
theorem Grounded.perform {op : Operation} {a : Action} (h : Grounded callers op.point w)
    (hin : InStep c.book s es (op.point - 1) w) (ht : Turn c.book s es op)
    (hact : op.action = .ok a)
    (hnames : ∀ x ty, a = .declare x ty → x.base ∉ callers)
    (hperf : perform c w op.point a = .ok (u, a.written?)) : Grounded callers op.point u :=
  h.effects (hin.effects_perform ht hact hnames hperf)

/-- **A step keeps the invariant.** -/
theorem Grounded.step {op : Operation} {v : State} (h : Grounded callers now w)
    (hnow : now < op.point) (hin : InStep c.book s es now w) (ht : Turn c.book s es op)
    (hnames : ∀ x ty, op.action = .ok (.declare x ty) → x.base ∉ callers)
    (hstep : step c w op = .ok v) : Grounded callers op.point v :=
  (h.mono (le_of_lt hnow)).effects (hin.effects hnow ht hnames hstep)

end Walk

namespace Function

variable {f : Function} {policy : Policy} {pre post : List Operation}

/-- Parameters have a value from the beginning. -/
theorem not_awaits_of_declare {params : List Param} {store store' : Store}
    (hstart : ∀ n, ¬store.Awaits n)
    (h : params.foldlM (fun store param =>
      store.declare { base := param.name } param.ty true) store = .ok store') :
    ∀ n, ¬store'.Awaits n := by
  induction params generalizing store with
  | nil =>
    obtain rfl := pure_eq_ok_iff.mp h
    exact hstart
  | cons param params ih =>
    obtain ⟨next, hnext, hrest⟩ := foldlM_cons_eq_ok_iff.mp h
    refine ih (fun n hn => ?_) hrest
    obtain ⟨-, -, rfl⟩ := Store.declare_eq_ok_iff.mp hnext
    rw [Store.Awaits, Store.ownership?] at hn
    by_cases hsame : ({ base := param.name } : Place).same { base := n } = true
    · rw [← Place.Map.get?_congr _ hsame, Place.Map.get?_put_self] at hn
      simp at hn
    · rw [Place.Map.get?_put_of_not_same _ _ (Bool.eq_false_iff.mpr hsame)] at hn
      exact hstart n hn

/-- What the parameters lend belongs to the caller. -/
theorem Ordered.grounded_start (h : f.Ordered) {store : Store}
    (hstore : Walk.declareParams f.params = .ok store) :
    Walk.Grounded f.callers (f.entry - 1) (f.start store) := by
  intro l hl _ _
  obtain ⟨hmem, hid, -⟩ := ((h.inStep_start hstore).mem_outstanding f.book_sound).mp hl
  obtain ⟨m, br, hm, hbr, rfl⟩ := exists_borrow_of_lt (List.nil_append _).symm hid
  obtain rfl : m = l := Option.some.inj (hm.symm.trans (f.book_sound.get?_id hmem))
  refine ⟨not_awaits_of_declare (fun n hn => ?_) hstore _, Or.inl ?_⟩
  · simp [Store.Awaits, Store.ownership?, Place.Map.get?] at hn
  · obtain ⟨param, hparam, htarget⟩ := Survey.target_of_entry (List.mem_of_getElem? hbr)
    rw [htarget]
    exact List.mem_map_of_mem hparam

/-- **What is lent has a value, after every operation that is completed**, when no declaration takes
a name of the storage of the caller. -/
theorem Ordered.grounded_of_reach (h : f.Ordered) (hnames : ∀ n ∈ f.declared, n ∉ f.callers)
    (hops : f.ops = pre ++ post) {w : Walk.State} (hreach : f.reach policy pre = .ok w) :
    Walk.Grounded f.callers (f.pointAfter pre) w := by
  refine reach_induction (P := fun pre w => Walk.Grounded f.callers (f.pointAfter pre) w)
    (fun store hstore => h.grounded_start hstore) ?_ hops hreach
  intro pre op post w v hops hw ih hstep
  rw [pointAfter_concat]
  refine Walk.Grounded.step (c := f.context policy) ih (h.pointAfter_lt hops)
    (h.inStep_of_reach hops hw) (h.turn hops) (fun x ty hact => hnames x.base ?_) hstep
  obtain ⟨hkind, htarget⟩ := Operation.action_cases hact
  rw [declared, List.mem_filterMap]
  exact ⟨op, by rw [hops]; simp, by simp [hkind, htarget]⟩

end Function

end BorrowCheck
