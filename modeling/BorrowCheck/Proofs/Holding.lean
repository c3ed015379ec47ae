import BorrowCheck.Proofs.Outstanding

/-!
# What a place holds

The survey knows which loan each place holds, and forgets it when the place is overwritten, declared
anew or out of scope. The walk finds it among the outstanding loans: it releases what a place held
when the place is written, and closes what ended or lapsed. After every operation that the walk
completes the two agree (`BorrowCheck.Function.heldAt_eq_reaching`): at a place that is not behind a
reference the walk finds the loan that the survey knows of, if it is needed later, and no other.

One half is known from `BorrowCheck.Walk.InStep`: what the survey knows to be held is found. For the
other half, every outstanding loan that was not released is traced back to the survey
(`BorrowCheck.Walk.Traced`). A step lemma looks at a loan that was there before the step: the survey
still knows where it is held, since whatever makes the survey forget it makes the walk release or
close it (`BorrowCheck.Walk.Traced.spared`). A loan that the step opened is held at its target.
-/

namespace BorrowCheck

namespace Survey

variable {s : Survey} {op : Operation} {a : Action} {x y : Place} {p : Point} {i : Nat}
  {b br : Borrow}

/-! ### What an action leaves alone -/

theorem get?_forget (h : x.isPrefixOf y = false) :
    (s.forget x).holders.get? y = s.holders.get? y := by
  refine Place.Map.get?_keepKeys fun z hz => ?_
  rw [Place.isPrefixOf_congr hz, h]
  rfl

/-- A write behind a reference, or to a place that `y` does not lie in, leaves what `y` holds. -/
theorem get?_write (h : x.throughRef = true ∨ x.isPrefixOf y = false) :
    (s.write x p).holders.get? y = s.holders.get? y := by
  cases href : x.throughRef with
  | true => rw [holders_write_of_throughRef href]
  | false =>
    rw [href] at h
    rw [write, Place.cut?_eq_none_iff.mpr href]
    exact get?_forget (h.resolve_left Bool.false_ne_true)

theorem get?_act_of_written (hx : a.written? = some x) (hne : x.same y = false)
    (h : x.throughRef = true ∨ x.isPrefixOf y = false) :
    (s.act op a).holders.get? y = s.holders.get? y := by
  cases a with
  | assign z ys =>
    obtain rfl := Option.some.inj hx
    rw [act, get?_write h, holders_touchAll]
  | move z v =>
    obtain rfl := Option.some.inj hx
    simp only [act, move, write?]
    split
    next heq _ =>
      obtain rfl := Option.some.inj heq
      rw [define, Place.Map.get?_put_of_not_same _ _ hne, get?_write h, holders_touch]
    next => rw [get?_write h, holders_touch]
  | borrow kind z v =>
    obtain rfl := Option.some.inj hx
    rw [act, lend, define, Place.Map.get?_put_of_not_same _ _ hne, get?_write h, holders_touch]
  | call args result =>
    obtain rfl : result = some x := hx
    rw [act, write?, get?_write h, holders_passAll]
  | declare z ty | deref z | use z | ret z | enter | exit => cases hx

/-- **What `y` holds stays there**, unless an action declares its variable, writes `y` or, directly,
a place that `y` lies in, or leaves the block of its variable. -/
theorem get?_act (hdeclare : ∀ x ty, a = .declare x ty → x.isPrefixOf y = false)
    (hwrite : ∀ x, a.written? = some x →
      x.same y = false ∧ (x.throughRef = true ∨ x.isPrefixOf y = false))
    (hexit : a = .exit → ∀ dying scopes, s.scopes.exit? = some (dying, scopes) →
      y.base ∉ dying) : (s.act op a).holders.get? y = s.holders.get? y := by
  cases a with
  | declare x ty => exact get?_forget (hdeclare x ty rfl)
  | assign x ys | move x v | borrow kind x v =>
    exact get?_act_of_written rfl (hwrite x rfl).1 (hwrite x rfl).2
  | call args result =>
    cases result with
    | none => rw [act, write?, holders_passAll]
    | some x => exact get?_act_of_written rfl (hwrite x rfl).1 (hwrite x rfl).2
  | deref x | use x | ret x => rw [act, holders_touchAll]
  | enter => rfl
  | exit =>
    rw [act, exit]
    split
    next => rfl
    next dying scopes hscopes =>
      refine Place.Map.get?_keepKeys fun z hz => ?_
      simpa [Place.base_eq_of_same hz] using hexit rfl dying scopes hscopes

/-- **Where something is held something stays held**, unless an action declares the variable, writes
a place that `y` lies in directly, or leaves the block of the variable. A write behind a reference
may put another loan there. -/
theorem isSome_get?_act (h : (s.holders.get? y).isSome = true)
    (hdeclare : ∀ x ty, a = .declare x ty → x.isPrefixOf y = false)
    (hwrite : ∀ x, a.written? = some x → x.throughRef = true ∨ x.isPrefixOf y = false)
    (hexit : a = .exit → ∀ dying scopes, s.scopes.exit? = some (dying, scopes) →
      y.base ∉ dying) : ((s.act op a).holders.get? y).isSome = true := by
  by_cases hput : ∃ x, a.written? = some x ∧ x.same y = true
  · obtain ⟨x, hx, hsame⟩ := hput
    have hspared := hwrite x hx
    have hdefine : ∀ (t : Survey) (b : Borrow), ((t.define x b).holders.get? y).isSome = true := by
      intro t b
      rw [define, ← Place.Map.get?_congr _ hsame, Place.Map.get?_put_self]
      rfl
    cases a with
    | assign z ys =>
      obtain rfl := Option.some.inj hx
      rwa [act, get?_write hspared, holders_touchAll]
    | move z v =>
      obtain rfl := Option.some.inj hx
      simp only [act, move, write?]
      split
      next heq _ =>
        obtain rfl := Option.some.inj heq
        exact hdefine _ _
      next => rwa [get?_write hspared, holders_touch]
    | borrow kind z v =>
      obtain rfl := Option.some.inj hx
      exact hdefine _ _
    | call args result =>
      obtain rfl : result = some x := hx
      rwa [act, write?, get?_write hspared, holders_passAll]
    | declare z ty | deref z | use z | ret z | enter | exit => cases hx
  · rwa [get?_act hdeclare (fun x hx => ⟨?_, hwrite x hx⟩) hexit]
    rw [Bool.eq_false_iff]
    exact fun hsame => hput ⟨x, hx, hsame⟩

/-- A variable stays in scope, unless an action leaves its block. -/
theorem mem_names_act {n : String} (hn : n ∈ s.scopes.names)
    (hexit : a = .exit → ∀ dying scopes, s.scopes.exit? = some (dying, scopes) → n ∉ dying) :
    n ∈ (s.act op a).scopes.names := by
  cases a with
  | declare x ty => exact Scopes.mem_names_declare.mpr (Or.inl hn)
  | assign x ys | move x v | borrow kind x v | deref x | use x | call args result | ret x =>
    simpa [act] using hn
  | enter => exact hn
  | exit =>
    rw [act, exit]
    split
    next => exact hn
    next dying scopes hscopes =>
      rw [Scopes.names_of_exit? hscopes] at hn
      exact (List.mem_append.mp hn).resolve_left (hexit rfl dying scopes hscopes)

/-! ### Where a new loan is held -/

/-- The loans that are taken for the length of a call are stored nowhere. -/
theorem borrows_passAll (s : Survey) (p : Point) (args : List Arg) :
    ∃ new, (args.foldl (pass p) s).borrows = s.borrows ++ new ∧
      ∀ b ∈ new, b.borrower = none := by
  induction args generalizing s with
  | nil => exact ⟨[], (List.append_nil _).symm, by simp⟩
  | cons a args ih =>
    obtain ⟨new, hnew, hnone⟩ := ih (pass p s a)
    rw [List.foldl_cons, hnew]
    simp only [pass]
    split
    · exact ⟨new, rfl, hnone⟩
    next kind _ =>
      refine ⟨(s.touch a.place p).borrowOf none kind a.place p :: new,
        List.append_assoc _ [_] _, ?_⟩
      intro b hb
      rcases List.mem_cons.mp hb with rfl | hb
      · rfl
      · exact hnone b hb

/-- A loan that was just stored in `x` is held there. -/
theorem get?_define_of_new (hb : b.borrower = some x) (hi : s.borrows.length ≤ i)
    (hbr : (s.define x b).borrows[i]? = some br) (hy : br.borrower = some y) :
    x = y ∧ (s.define x b).holders.get? y = some i := by
  rw [show (s.define x b).borrows = s.borrows ++ [b] from rfl, List.getElem?_append_right hi,
    List.getElem?_singleton] at hbr
  split at hbr
  next heq =>
    rw [← Option.some.inj hbr, hb, Option.some.injEq] at hy
    subst hy
    rw [define, Place.Map.get?_put_self, Option.some.injEq]
    exact ⟨rfl, Nat.le_antisymm hi (Nat.sub_eq_zero_iff_le.mp heq)⟩
  next => cases hbr

/-- **A new loan is held at the place that the action writes.** -/
theorem get?_act_of_new (hi : s.borrows.length ≤ i) (hbr : (s.act op a).borrows[i]? = some br)
    (hy : br.borrower = some y) :
    a.written? = some y ∧ (s.act op a).holders.get? y = some i := by
  have hgrown : (s.act op a).borrows ≠ s.borrows := fun heq => by
    rw [heq, List.getElem?_eq_none hi] at hbr
    cases hbr
  cases a with
  | move z x =>
    rcases s.borrows_move x op.point z with hsame | ⟨q, b, hget, hb, -⟩
    · exact absurd hsame hgrown
    · rw [act, move_of_held hget hb] at hbr ⊢
      obtain ⟨rfl, hheld⟩ := get?_define_of_new rfl (by rwa [borrows_write]) hbr hy
      exact ⟨rfl, hheld⟩
  | borrow kind z x =>
    rw [act, lend] at hbr ⊢
    obtain ⟨rfl, hheld⟩ := get?_define_of_new rfl (by rwa [borrows_write]) hbr hy
    exact ⟨rfl, hheld⟩
  | call args result =>
    obtain ⟨new, hnew, hnone⟩ := s.borrows_passAll op.point args
    rw [act, borrows_write?, hnew, List.getElem?_append_right hi] at hbr
    rw [hnone br (List.mem_of_getElem? hbr)] at hy
    cases hy
  | assign x ys | deref x | use x | ret x => exact absurd (by simp [act]) hgrown
  | declare x ty | enter => exact absurd rfl hgrown
  | exit => exact absurd (by rw [act, exit]; split <;> rfl) hgrown

/-! ### The loans of the parameters -/

/-- Every loan is held by its borrower, which is in scope. -/
def AllHeld (s : Survey) : Prop :=
  ∀ i b y, s.borrows[i]? = some b → b.borrower = some y →
    s.holders.get? y = some i ∧ y.base ∈ s.scopes.names

theorem AllHeld.receive {param : Param} (h : s.AllHeld) (hnew : param.name ∉ s.scopes.names) :
    (receive p s param).AllHeld := by
  intro i b y hb hy
  rw [scopes_receive, Scopes.mem_names_declare]
  unfold Survey.receive at hb ⊢
  split at hb
  next hkind =>
    obtain ⟨hheld, hscope⟩ := h i b y hb hy
    exact ⟨hheld, Or.inl hscope⟩
  next kind hkind =>
    rcases Nat.lt_or_ge i s.borrows.length with hi | hi
    · rw [define, take, List.getElem?_append_left hi] at hb
      obtain ⟨hheld, hscope⟩ := h i b y hb hy
      refine ⟨?_, Or.inl hscope⟩
      rw [define, Place.Map.get?_put_of_not_same _ _ ?_]
      · exact hheld
      · rw [Bool.eq_false_iff]
        intro hsame
        rw [← Place.base_eq_of_same hsame] at hscope
        exact hnew hscope
    · obtain ⟨rfl, hheld⟩ := get?_define_of_new rfl hi hb hy
      exact ⟨hheld, Or.inr rfl⟩

/-- Parameters with different names hold their loans. -/
theorem AllHeld.receiveAll {params : List Param} (h : s.AllHeld)
    (hnodup : (params.map Param.name).Nodup)
    (hnew : ∀ param ∈ params, param.name ∉ s.scopes.names) :
    (params.foldl (Survey.receive p) s).AllHeld := by
  induction params generalizing s with
  | nil => exact h
  | cons param params ih =>
    rw [List.map_cons, List.nodup_cons] at hnodup
    refine ih (h.receive (hnew param List.mem_cons_self)) hnodup.2 fun other hother hmem => ?_
    rw [scopes_receive, Scopes.mem_names_declare] at hmem
    rcases hmem with hmem | heq
    · exact hnew other (List.mem_cons_of_mem param hother) hmem
    · exact hnodup.1 (heq ▸ List.mem_map_of_mem hother)

end Survey

namespace Ledger

variable {b : LoanBook} {l m : Ledger} {loan : Loan} {x y : Place} {p : Point}

theorem Evolves.released_subset (h : Evolves b l m) : l.released ⊆ m.released := by
  induction h with
  | refl => exact List.Subset.refl _
  | tail _ hchange ih =>
    refine List.Subset.trans ih ?_
    cases hchange with
    | strike loans => exact List.Subset.refl _
    | record hdue hexcl => exact List.Subset.refl _
    | release x p => exact List.subset_append_left _ _

/-- A write releases the older loans that are held at or under the place written. -/
theorem mem_released_of_isPrefixOf (hl : loan ∈ l.outstanding) (hy : loan.borrower = some y)
    (hunder : x.isPrefixOf y = true) (horigin : loan.origin < p) :
    loan.id ∈ (l.releaseUnder x p).released := by
  refine List.mem_append_right _ (List.mem_map_of_mem (List.mem_filter.mpr ⟨hl, ?_⟩))
  simp only [hy, hunder, Bool.true_and, decide_eq_true_eq]
  exact horigin

end Ledger

namespace Walk

variable {c : Context} {s : Survey} {es : List Ending} {now : Point} {w v : State}
  {op : Operation} {a : Action}

/-! ### Loans that can be traced -/

/-- Every outstanding loan **can be traced** to the survey: its borrower is in scope, and, unless
the loan was released, the survey knows that the borrower holds it. A borrower behind a reference
may hold another loan by now. -/
structure Traced (s : Survey) (w : State) : Prop where
  held : ∀ l ∈ w.ledger.outstanding, ∀ y, l.borrower = some y → y.throughRef = false →
    l.id ∉ w.ledger.released → s.holders.get? y = some l.id
  known : ∀ l ∈ w.ledger.outstanding, ∀ y, l.borrower = some y → l.id ∉ w.ledger.released →
    (s.holders.get? y).isSome = true
  inScope : ∀ l ∈ w.ledger.outstanding, ∀ y, l.borrower = some y → y.base ∈ s.scopes.names

/-- A loan that is outstanding after a step and was taken before it was outstanding before it, and
its borrower does not go out of scope in the step. -/
theorem InStep.mem_before (h : InStep c.book s es now w) (hnow : now < op.point)
    (ht : Turn c.book s es op)
    (hafter : InStep c.book (s.observe op) (es ++ (s.ending? op).toList) op.point v) {l : Loan}
    (hl : l ∈ v.ledger.outstanding) (hid : l.id < s.borrows.length) :
    l ∈ w.ledger.outstanding ∧ ∀ y, l.borrower = some y → op.kind = .exit →
      ∀ dying scopes, s.scopes.exit? = some (dying, scopes) → y.base ∉ dying := by
  obtain ⟨hmem, -, hlast, hlapsed⟩ := (hafter.mem_outstanding ht.book).mp hl
  rw [Loan.lapsed_append, Bool.or_eq_false_iff] at hlapsed
  refine ⟨(h.mem_outstanding ht.book).mpr ⟨hmem, hid, lt_trans hnow hlast, hlapsed.1⟩, ?_⟩
  intro y hy hkind dying scopes hexit hdies
  have hnot := hlapsed.2
  rw [Survey.ending?_of_exit hkind hexit] at hnot
  simp [Loan.lapsed, Loan.borrowedIn, hy, ht.earlier l hmem hid, hdies] at hnot

/-- A loan that was taken by an operation and is outstanding is held at the place written. -/
theorem InStep.get?_of_new (ht : Turn c.book s es op) (hact : op.action = .ok a)
    {es' : List Ending}
    (hafter : InStep c.book (s.observe op) es' now v) {l : Loan}
    (hl : l ∈ v.ledger.outstanding) (hid : s.borrows.length ≤ l.id) {y : Place}
    (hy : l.borrower = some y) :
    a.written? = some y ∧ (s.observe op).holders.get? y = some l.id := by
  obtain ⟨hmem, hlt, -, -⟩ := (hafter.mem_outstanding ht.book).mp hl
  have hbr := List.getElem?_eq_getElem hlt
  obtain ⟨m, hm, hmbr⟩ := ht.recorded.loan l.id _ hbr
  rw [ht.book.get?_id hmem, Option.some.injEq] at hm
  subst hm
  rw [← hmbr] at hbr
  rw [Survey.observe_eq_act s hact] at hbr ⊢
  exact Survey.get?_act_of_new hid hbr hy

/-- A variable that is declared was not in scope. -/
theorem InStep.not_mem_names_of_declare (h : InStep c.book s es now w) {x : Place} {ty : Ty}
    {init : Bool} {store : Store} (hstore : w.store.declare x ty init = .ok store) :
    x.base ∉ s.scopes.names := by
  obtain ⟨-, hnew, -⟩ := Store.declare_eq_ok_iff.mp hstore
  rw [← h.scopes, ← h.blocks.declares_iff x, hnew]
  exact Bool.false_ne_true

/-- A place that is written lies in a variable in scope. -/
theorem InStep.mem_names_of_write (h : InStep c.book s es now w) {x : Place} {p : Point}
    {closed : List Loan} (hwrite : Walk.write c w closed x p = .ok v) :
    x.base ∈ s.scopes.names := by
  rw [← h.scopes, ← h.blocks.declares_iff x]
  exact (write_cases hwrite).1

/-- What is overwritten is released. -/
theorem mem_released_of_write {x y : Place} {p : Point} {closed : List Loan} {l : Loan}
    (hwrite : write c w closed x p = .ok v) (href : x.throughRef = false)
    (hl : l ∈ v.ledger.outstanding) (hy : l.borrower = some y) (hunder : x.isPrefixOf y = true)
    (horigin : l.origin < p) : l.id ∈ v.ledger.released := by
  rcases (write_cases hwrite).2 with ⟨hthrough, -⟩ | ⟨-, store, -, rfl⟩
  · rw [href] at hthrough
    cases hthrough
  · exact Ledger.mem_released_of_isPrefixOf hl hy hunder horigin

/-- **What makes the survey forget a loan makes the walk release or close it**: a loan that was
taken before a step, is still outstanding after it and was not released is spared by its action. -/
theorem Traced.spared (h : Traced s w) (hin : InStep c.book s es now w) (hnow : now < op.point)
    (ht : Turn c.book s es op) (hstep : step c w op = .ok v) (hact : op.action = .ok a) {l : Loan}
    (hl : l ∈ v.ledger.outstanding) (hid : l.id < s.borrows.length) {y : Place}
    (hy : l.borrower = some y) :
    (∀ x ty, a = .declare x ty → x.isPrefixOf y = false) ∧
      (l.id ∉ v.ledger.released →
        ∀ x, a.written? = some x → x.throughRef = true ∨ x.isPrefixOf y = false) ∧
      (a = .exit → ∀ dying scopes, s.scopes.exit? = some (dying, scopes) → y.base ∉ dying) := by
  obtain ⟨hold, hstays⟩ := hin.mem_before hnow ht (hin.step hnow ht hstep) hl hid
  obtain ⟨-, a', u, hact', hperf, hend⟩ := step_cases hstep
  obtain rfl : a' = a := Except.ok.inj (hact'.symm.trans hact)
  refine ⟨?_, fun hkept x hx => ?_, ?_⟩
  · rintro x ty rfl
    obtain ⟨store, hstore, -⟩ := (perform_cases hperf).1
    rw [Bool.eq_false_iff]
    intro hunder
    refine (hin.settled ht.book hnow).not_mem_names_of_declare hstore ?_
    rw [(Place.isPrefixOf_iff.mp hunder).1]
    exact h.inScope l hold y hy
  · by_contra hno
    rw [not_or, Bool.not_eq_true, Bool.not_eq_false] at hno
    have horigin := ht.earlier l ((hin.mem_outstanding ht.book).mp hold).1 hid
    rcases hend with ⟨hnone, -⟩ | ⟨z, hz, hwrite⟩
    · rw [hx] at hnone
      cases hnone
    · rw [hx, Option.some.injEq] at hz
      subst hz
      exact hkept (mem_released_of_write hwrite hno.1 hl hy hno.2 horigin)
  · rintro rfl
    exact hstays y hy (Operation.action_cases hact)

/-- **A step keeps loans traced.** -/
theorem Traced.step (h : Traced s w) (hin : InStep c.book s es now w) (hnow : now < op.point)
    (ht : Turn c.book s es op) (hstep : step c w op = .ok v) : Traced (s.observe op) v := by
  have hafter := hin.step hnow ht hstep
  have hreleased := (evolves_step hstep).released_subset
  obtain ⟨-, a, u, hact, hperf, hend⟩ := step_cases hstep
  have hmid := ((hin.settled ht.book hnow).perform ht hact hperf).settled_inclusive ht.book
  have hobserve := Survey.observe_eq_act s hact
  refine ⟨fun l hl y hy href hkept => ?_, fun l hl y hy hkept => ?_, fun l hl y hy => ?_⟩
  · rcases Nat.lt_or_ge l.id s.borrows.length with hid | hid
    · have hold := (hin.mem_before hnow ht hafter hl hid).1
      obtain ⟨hdeclare, hwrite, hexit⟩ := h.spared hin hnow ht hstep hact hl hid hy
      rw [hobserve, Survey.get?_act hdeclare (fun x hx => ⟨?_, hwrite hkept x hx⟩) hexit]
      · exact h.held l hold y hy href fun hmem => hkept (hreleased hmem)
      · exact (hwrite hkept x hx).elim (Place.not_same_of_throughRef · href)
          Place.not_same_of_not_isPrefixOf
    · exact (InStep.get?_of_new ht hact hafter hl hid hy).2
  · rcases Nat.lt_or_ge l.id s.borrows.length with hid | hid
    · have hold := (hin.mem_before hnow ht hafter hl hid).1
      obtain ⟨hdeclare, hwrite, hexit⟩ := h.spared hin hnow ht hstep hact hl hid hy
      rw [hobserve]
      exact Survey.isSome_get?_act (h.known l hold y hy fun hmem => hkept (hreleased hmem)) hdeclare
        (hwrite hkept) hexit
    · rw [(InStep.get?_of_new ht hact hafter hl hid hy).2]
      rfl
  · rcases Nat.lt_or_ge l.id s.borrows.length with hid | hid
    · have hold := (hin.mem_before hnow ht hafter hl hid).1
      rw [hobserve]
      exact Survey.mem_names_act (h.inScope l hold y hy)
        (h.spared hin hnow ht hstep hact hl hid hy).2.2
    · have hwritten := (InStep.get?_of_new ht hact hafter hl hid hy).1
      rcases hend with ⟨hnone, -⟩ | ⟨z, hz, hwrite⟩
      · rw [hwritten] at hnone
        cases hnone
      · rw [hwritten, Option.some.injEq] at hz
        subst hz
        exact hmid.mem_names_of_write hwrite

/-- What the walk finds at a place is what the survey knows to be held there and needed later. -/
theorem Traced.mem_heldAt_iff (h : Traced s w) (hin : InStep c.book s es now w)
    (hb : c.book.Sound) (hs : s.Sound) (hrec : s.RecordedBy c.book) {x : Place}
    (href : x.throughRef = false) {l : Loan} :
    l ∈ w.ledger.heldAt x [] ↔
      ((s.holders.get? x).bind c.book.get?).filter (fun l => now < l.last) = some l := by
  rw [Ledger.heldAt, List.append_nil, List.mem_filter, Option.filter_eq_some_iff,
    Option.bind_eq_some_iff, decide_eq_true_eq]
  constructor
  · rintro ⟨hl, hheld⟩
    obtain ⟨hmem, -, hlast, -⟩ := (hin.mem_outstanding hb).mp hl
    unfold Ledger.isHeldAt at hheld
    split at hheld
    next => cases hheld
    next y hy =>
      simp only [Bool.and_eq_true, Bool.not_eq_true', List.contains_eq_mem,
        decide_eq_false_iff_not] at hheld
      refine ⟨⟨l.id, ?_, hb.get?_id hmem⟩, hlast⟩
      rw [Place.Map.get?_congr _ hheld.2]
      exact h.held l hl y hy (Place.throughRef_congr hheld.2 ▸ href) hheld.1
  · rintro ⟨⟨id, hget, hl⟩, hlast⟩
    obtain ⟨e, he, hsame, rfl⟩ := Place.Map.exists_mem_of_get? hget
    refine ⟨hin.outstanding_of_held hb hs he hl hlast, hin.isHeldAt hb hs hrec he hl fun y hy => ?_⟩
    rw [Place.same_comm] at hsame
    exact Place.same_trans hsame hy

end Walk

/-- A list without repetitions that has at most one member. -/
theorem eq_toList_of_mem_iff {α : Type} {as : List α} {o : Option α} (hnodup : as.Nodup)
    (h : ∀ a, a ∈ as ↔ o = some a) : as = o.toList := by
  cases o with
  | none => exact List.eq_nil_iff_forall_not_mem.mpr fun a ha => by cases (h a).mp ha
  | some b =>
    have hperm : as.Perm [b] :=
      (List.perm_ext_iff_of_nodup hnodup (List.pairwise_singleton _ b)).mpr fun a => by
        rw [h, List.mem_singleton, Option.some.injEq, eq_comm]
    exact List.perm_singleton.mp hperm

namespace Function

variable {f : Function} {policy : Policy} {pre post : List Operation}

/-- **Loans can be traced from the beginning.** -/
theorem Ordered.traced_start (h : f.Ordered) {store : Store}
    (hstore : Walk.declareParams f.params = .ok store) :
    Walk.Traced (Survey.after f []) (f.start store) := by
  have hall : (Survey.after f []).AllHeld := by
    refine Survey.AllHeld.receiveAll (fun i b y hb _ => ?_) (nodup_of_declareParams hstore) ?_
    · cases hb
    · intro param _ hmem
      cases hmem
  have hin := h.inStep_start hstore
  have hloan : ∀ l ∈ (f.start store).ledger.outstanding, ∀ y, l.borrower = some y →
      (Survey.after f []).holders.get? y = some l.id ∧
        y.base ∈ (Survey.after f []).scopes.names := by
    intro l hl y hy
    obtain ⟨hmem, hid, -, -⟩ := (hin.mem_outstanding f.book_sound).mp hl
    obtain ⟨m, br, hm, hbr, rfl⟩ := exists_borrow_of_lt (List.nil_append f.ops).symm hid
    rw [f.book_sound.get?_id hmem, Option.some.injEq] at hm
    subst hm
    exact hall l.id _ y hbr hy
  refine ⟨fun l hl y hy _ _ => (hloan l hl y hy).1, fun l hl y hy _ => ?_,
    fun l hl y hy => (hloan l hl y hy).2⟩
  rw [(hloan l hl y hy).1]
  rfl

/-- **Loans can be traced after every operation that is completed.** -/
theorem Ordered.traced_of_reach (h : f.Ordered) (hops : f.ops = pre ++ post) {w : Walk.State}
    (hreach : f.reach policy pre = .ok w) : Walk.Traced (Survey.after f pre) w := by
  refine reach_induction (P := fun pre w => Walk.Traced (Survey.after f pre) w)
    (fun store hstore => h.traced_start hstore) ?_ hops hreach
  intro pre op post w v hops hw ih hstep
  rw [Survey.after_concat]
  exact Walk.Traced.step (c := f.context policy) ih (h.inStep_of_reach hops hw)
    (h.pointAfter_lt hops) (h.turn hops) hstep

/-- The loan that **reaches** `x` after the operations `ops`: the one that the survey of these knows
`x` to hold. -/
def reaching? (f : Function) (ops : List Operation) (x : Place) : Option Loan :=
  ((Survey.after f ops).holders.get? x).bind f.book.get?

/-- **The walk finds what reaches a place.** After an operation that the walk completes, the loans
that the walk finds at a place that is not behind a reference are the one that reaches it, when it
is needed later, and none otherwise; so they are never two. Walk and survey have the same blocks. -/
theorem heldAt_eq_reaching {i : Nat} {op : Operation} {t : Walk.State}
    (h : (f.walk policy).steps[i]? = some (op, t)) :
    (∀ x : Place, x.throughRef = false →
      t.ledger.heldAt x [] =
        ((f.reaching? (f.ops.take (i + 1)) x).filter fun l => op.point < l.last).toList ∧
      (t.ledger.heldAt x []).length ≤ 1) ∧
    t.store.scopes = (Survey.after f (f.ops.take (i + 1))).scopes := by
  obtain ⟨hdis, hops, htake, ht⟩ := reach_of_steps h
  have hord := ordered_of_disorder? hdis
  have hops' := hops.trans (List.append_cons _ _ _)
  rw [htake] at ht ⊢
  have hin := hord.inStep_of_reach hops' ht
  have htraced := hord.traced_of_reach hops' ht
  rw [pointAfter_concat] at hin
  refine ⟨fun x href => ?_, hin.scopes⟩
  have hmem := fun l => htraced.mem_heldAt_iff (c := f.context policy) (l := l) hin f.book_sound
    (Survey.sound_after f _) (recorded_after hops') href
  have hsub : (t.ledger.heldAt x []).Sublist f.book.loans := by
    rw [Ledger.heldAt, List.append_nil, hin.outstanding]
    exact List.filter_sublist.trans LoanBook.standing_sublist
  have hnodup : (t.ledger.heldAt x []).Nodup := by
    refine (f.pairwise_id.sublist hsub).imp fun {l m} hlt heq => ?_
    rw [heq] at hlt
    exact Nat.lt_irrefl m.id hlt
  have hheld := eq_toList_of_mem_iff hnodup hmem
  exact ⟨hheld, by rw [hheld]; exact Option.length_toList_le⟩

/-- A function that stores a reference to `s` in `r`, reborrows it for `q`, and has `r` point at `u`
while `q` is in use. -/
def repoints : Function where
  name := "f"
  ops :=
    [.declare 1 { base := "s" } (.named "T"), .assign 2 { base := "s" } [],
      .declare 3 { base := "u" } (.named "T"), .assign 4 { base := "u" } [],
      .declare 5 { base := "r" } (.named "R"), .borrow 6 .shared { base := "r" } { base := "s" },
      .declare 7 { base := "q" } (.named "R"),
      .borrow 8 .shared { base := "q" } (Place.deref { base := "r" }),
      .borrow 9 .shared { base := "r" } { base := "u" }, .deref 10 { base := "q" },
      .deref 11 { base := "r" }]

/-- When `r` points at `u`, the loan of `s` to it, number 0, is still outstanding, as `q` needs it;
but `r` holds the loan of `u`, number 2, alone. -/
theorem heldAt_eq_reaching_repoints :
    ∃ op t, (repoints.walk {}).steps[8]? = some (op, t) ∧ op.point = 9 ∧
      t.ledger.outstanding.map (·.id) = [0, 1, 2] ∧
      Place.throughRef { base := "r" } = false ∧
      (t.ledger.heldAt { base := "r" } []).map (·.id) = [2] ∧
      t.store.scopes.names = ["s", "u", "r", "q"] := by
  have hstep : ((repoints.walk {}).steps[8]?).map
      (fun e => (e.1.point, e.2.ledger.outstanding.map (·.id))) = some (9, [0, 1, 2]) := by
    decide +kernel
  obtain ⟨⟨op, t⟩, ht, heq⟩ := Option.map_eq_some_iff.mp hstep
  obtain ⟨hpoint, hids⟩ := Prod.mk.inj heq
  obtain ⟨hheld, hscopes⟩ := heldAt_eq_reaching ht
  refine ⟨op, t, ht, hpoint, hids, rfl, ?_, ?_⟩
  · rw [(hheld { base := "r" } rfl).1, show op.point = 9 from hpoint]
    decide +kernel
  · rw [hscopes]
    decide +kernel

end Function

end BorrowCheck
