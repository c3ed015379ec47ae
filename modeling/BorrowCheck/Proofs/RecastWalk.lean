import BorrowCheck.Proofs.Beside
import BorrowCheck.Proofs.RecastBooks

/-!
# The walk through a recast function

A walk through a function in other words takes the same steps as a walk through the function. The
lemmas follow the definition of the walk, from its questions to a whole operation
(`BorrowCheck.Recast.step_state`): in a state and in the state in other words, an operation and the
operation in other words both pass, and the states after them correspond again
(`BorrowCheck.Recast.Becomes`), or both stop for the same reason in other words.

What is known in the state has to be around (`BorrowCheck.Recast.Sees`), what the operation names,
and what the loans that it takes are of (`BorrowCheck.Recast.Takes`).
-/

namespace BorrowCheck

/-- After the return, every operation is refused, and the refusal says where the return was. -/
theorem Walk.step_of_returned {c : Context} {w : State} {op : Operation} {q : Point}
    (hret : w.returned = some q) : step c w op = refuseFlaw (.afterReturn q) := by
  unfold step
  rw [hret]

namespace Recast

variable {ρ : Recast}

/-! ### Actions -/

/-- The action in other words. -/
def action (ρ : Recast) : Action → Action
  | .declare x ty => .declare (ρ.place x) ty
  | .assign x sources => .assign (ρ.place x) (sources.map ρ.place)
  | .move x s => .move (ρ.place x) (ρ.place s)
  | .borrow kind x s => .borrow kind (ρ.place x) (ρ.place s)
  | .deref s => .deref (ρ.place s)
  | .use s => .use (ρ.place s)
  | .call args result => .call (args.map ρ.arg) (result.map ρ.place)
  | .ret s => .ret (s.map ρ.place)
  | .enter => .enter
  | .exit => .exit

/-- An operation in other words does the same in other words, or has the same gap. -/
theorem action_operation (op : Operation) :
    (ρ.operation op).action = op.action.map ρ.action := by
  have htarget : (ρ.operation op).getTarget = op.getTarget.map ρ.place := by
    unfold Operation.getTarget
    rw [target_operation]
    cases op.target <;> rfl
  have hsource : (ρ.operation op).getSource = op.getSource.map ρ.place := by
    unfold Operation.getSource
    rw [source_operation]
    cases op.source <;> rfl
  unfold Operation.action
  rw [kind_operation, htarget, hsource, sources_operation, args_operation, target_operation,
    source_operation]
  cases op.kind with
  | declare | assign => cases op.getTarget <;> rfl
  | move | borrow kind =>
    cases op.getTarget with
    | error gap => rfl
    | ok x => cases op.getSource <;> rfl
  | deref | use => cases op.getSource <;> rfl
  | call | ret | enter | exit | unknown tag => rfl

/-! ### States -/

/-- The state in other words. -/
def state (ρ : Recast) (w : Walk.State) : Walk.State :=
  { toBooks := ρ.books w.toBooks, returned := w.returned.map ρ.point }

/-- What does not change during a walk, in other words. -/
def context (ρ : Recast) (c : Walk.Context) : Walk.Context :=
  { c with book := ρ.book c.book }

/-- What a state knows is around. -/
structure Sees (ρ : Recast) (w : Walk.State) : Prop where
  houses : ρ.Houses w.store
  lists : ρ.Lists w.ledger

/-- The second state is the first one in other words, and what it knows is around. -/
structure Becomes (ρ : Recast) (w w' : Walk.State) : Prop where
  eq : w' = ρ.state w
  sees : ρ.Sees w

variable {c : Walk.Context} {w : Walk.State} {x y : Place} {p : Point}

/-- A state whose store alone changes goes with the changed store in other words. -/
theorem Keeps.becomes {t t' : Store} (h : ρ.Keeps t t') (hw : ρ.Sees w) :
    ρ.Becomes { w with store := t } { ρ.state w with store := t' } :=
  ⟨by rw [h.eq]; rfl, h.houses, hw.lists⟩

/-- A state whose books change goes with the changed books in other words. -/
theorem Balances.becomes {s s' : Books} (h : ρ.Balances s s') (w : Walk.State) :
    ρ.Becomes { w with toBooks := s } { ρ.state w with toBooks := s' } :=
  ⟨by rw [h.eq]; rfl, h.houses, h.lists⟩

section Questions

variable (hw : ρ.Sees w) (hx : ρ.around x.base)
include hw hx

/-- The same loans are held at a place. -/
theorem heldAt_state : (ρ.state w).ledger.heldAt (ρ.place x) [] =
    (w.ledger.heldAt x []).map ρ.loan :=
  heldAt_ledger hw.lists hx (List.forall_mem_nil _)

/-- The same places are references. -/
theorem isReference_state :
    Walk.isReference (ρ.context c) (ρ.state w) (ρ.place x) = Walk.isReference c w x := by
  rw [Walk.isReference, Walk.isReference, Ledger.holds, Ledger.holds, heldAt_state hw hx,
    List.isEmpty_map]
  exact congrArg (_ || ·) (isReference_store hw.houses hx c.policy)

/-- The same places are references that allow a write. -/
theorem isExclusiveReference_state :
    Walk.isExclusiveReference (ρ.context c) (ρ.state w) (ρ.place x) =
      Walk.isExclusiveReference c w x := by
  have hty : (ρ.state w).store.ty? (ρ.context c).policy (ρ.place x) = w.store.ty? c.policy x :=
    ty?_store hw.houses hx c.policy
  rw [Walk.isExclusiveReference, Walk.isExclusiveReference, heldAt_state hw hx, List.any_map, hty]
  rfl

/-- The same loans burden a place, and each is reported in the same way. -/
theorem liensOn_state (p : Point) (strict : Bool) :
    Walk.liensOn (ρ.state w) (ρ.place x) (ρ.point p) strict =
      (Walk.liensOn w x p strict).map ρ.lien := by
  rw [Walk.liensOn, Walk.liensOn, show (ρ.state w).ledger = ρ.ledger w.ledger from rfl,
    overlapping_ledger hw.lists hx, List.map_map, List.map_map]
  rfl

/-- A place is blocked by the same loan taken through what it holds. -/
theorem reborrowed?_state (p : Point) :
    Walk.reborrowed? (ρ.context c) (ρ.state w) (ρ.place x) (ρ.point p) =
      (Walk.reborrowed? c w x p).map ρ.violation := by
  have hothers : ((ρ.state w).ledger.heldUnder (ρ.place x)).flatMap
      ((ρ.state w).ledger.reborrows (ρ.context c).book) =
      ((w.ledger.heldUnder x).flatMap (w.ledger.reborrows c.book)).map ρ.loan := by
    rw [show (ρ.state w).ledger = ρ.ledger w.ledger from rfl, heldUnder_ledger hw.lists hx,
      List.flatMap_map, List.map_flatMap]
    exact List.flatMap_congr fun l _ => reborrows_ledger w.ledger c.book l
  have hfind := find?_map_of_mem (g := ρ.loan)
    (l := (w.ledger.heldUnder x).flatMap (w.ledger.reborrows c.book))
    (p := fun other => other.isExclusive && ρ.point p ≤ other.last)
    (q := fun other => other.isExclusive && p ≤ other.last) fun other _ =>
      congrArg (other.isExclusive && ·) (decide_eq_decide.mpr point_le_iff)
  rw [Walk.reborrowed?, Walk.reborrowed?, hothers, hfind, Option.map_map, Option.map_map]
  rfl

/-! ### Reads, moves and borrows -/

/-- A read goes through under the other name exactly when it does under the first. -/
theorem read_state (p : Point) :
    Parallel ρ.Faults (fun _ _ => True) (Walk.read c w x p)
      (Walk.read (ρ.context c) (ρ.state w) (ρ.place x) (ρ.point p)) := by
  have hliens := liensOn_state (x := x.holder) hw hx p false
  have hreborrowed := reborrowed?_state (c := c) (x := x.holder) hw hx p
  unfold Walk.read
  rw [holder_place, hliens, hreborrowed]
  exact (ensureInScope_store hw.houses hx).bind fun _ _ _ _ _ =>
    (read_store (x := x.holder) hw.houses hx _).bind fun _ _ _ _ _ => refuse_violation _

/-- A value leaves its place under either name, or stays for the same reason. -/
theorem vacate_state (p : Point) :
    Parallel ρ.Faults ρ.Becomes (Walk.vacate w x p)
      (Walk.vacate (ρ.state w) (ρ.place x) (ρ.point p)) := by
  have hend : Parallel ρ.Faults ρ.Becomes
      (do
        let store ← w.store.vacate x p (Walk.liensOn w x p false)
        return { w with store })
      (do
        let store ← (ρ.store w.store).vacate (ρ.place x) (ρ.point p)
          ((Walk.liensOn w x p false).map ρ.lien)
        return { ρ.state w with store }) :=
    (vacate_store hw.houses hx p _).bind fun _ _ _ _ hstore => hstore.becomes hw
  unfold Walk.vacate
  rw [liensOn_state hw hx, throughRef_place]
  refine (ensureInScope_store hw.houses hx).bind fun _ _ _ _ _ => ?_
  dsimp only
  split
  · exact (refuse_violation (some (.moveThroughReference x))).bind fun _ _ _ _ _ => hend
  · exact hend

/-- Whether a value is copied or leaves its place does not depend on the place's name. -/
theorem handOver_state (p : Point) :
    Parallel ρ.Faults ρ.Becomes (Walk.handOver c w x p)
      (Walk.handOver (ρ.context c) (ρ.state w) (ρ.place x) (ρ.point p)) := by
  have hcopies : (ρ.state w).store.copies (ρ.context c).policy (ρ.place x) =
      w.store.copies c.policy x := copies_store hw.houses hx c.policy
  unfold Walk.handOver
  rw [isReference_state hw hx, hcopies]
  split
  · exact (read_state hw hx p).bind fun _ _ _ _ _ => ⟨rfl, hw⟩
  · exact vacate_state hw hx p

/-- A borrow is granted under the other names of lender and borrower, and the same loan is written
down. -/
theorem borrow_state {borrower : Option Place} (hc : ρ.Takes c.book p)
    (hy : ∀ y, borrower = some y → ρ.around y.base) (kind : BorrowKind) :
    Parallel ρ.Faults ρ.Becomes (Walk.borrow c w borrower kind x p)
      (Walk.borrow (ρ.context c) (ρ.state w) (borrower.map ρ.place) kind (ρ.place x)
        (ρ.point p)) := by
  have hlend := lend_books hw.houses hw.lists hc hx hy kind
  unfold Walk.borrow
  rw [throughRef_place, holder_place]
  refine (ensureInScope_store hw.houses hx).bind fun _ _ _ _ _ => ?_
  dsimp only
  split
  · exact (read_state (x := x.holder) hw hx p).bind fun _ _ _ _ _ =>
      hlend.bind fun _ _ _ _ hbooks => hbooks.becomes w
  · exact (ensureValue_store hw.houses hx).bind fun _ _ _ _ _ =>
      hlend.bind fun _ _ _ _ hbooks => hbooks.becomes w

/-- A place can be followed under either name. -/
theorem follow_state (p : Point) :
    Parallel ρ.Faults (fun _ _ => True) (Walk.follow c w x p)
      (Walk.follow (ρ.context c) (ρ.state w) (ρ.place x) (ρ.point p)) := by
  unfold Walk.follow
  rw [holder_place, isReference_state (x := x.holder) hw hx]
  refine (read_state (x := x.holder) hw hx p).bind fun _ _ _ _ _ => ?_
  split
  · trivial
  · exact refuse_flaw _

/-- A return hands out the same value, and is stopped by a loan of the same local variable. -/
theorem ret_state (p : Point) :
    Parallel ρ.Faults ρ.Becomes (Walk.ret c w x p)
      (Walk.ret (ρ.context c) (ρ.state w) (ρ.place x) (ρ.point p)) := by
  have hheld : (ρ.state w).ledger.heldUnder (ρ.place x) = (w.ledger.heldUnder x).map ρ.loan :=
    heldUnder_ledger hw.lists hx
  unfold Walk.ret
  rw [hheld]
  refine (ensureInScope_store hw.houses hx).bind fun _ _ _ _ _ => ?_
  refine (refuse_find (fun l hl => ?_) ?_).bind fun _ _ _ _ _ => handOver_state hw hx p
  · exact isLocal_store hw.houses (hw.lists l (List.mem_filter.mp hl).1).target
  · exact fun _ => rfl

end Questions

/-- The arguments of a call are passed one after another, each as before; the induction is on their
list, and after every argument the states correspond again. -/
theorem passAll_state (hw : ρ.Sees w) (hc : ρ.Takes c.book p) {args : List Arg}
    (hargs : ∀ a ∈ args, ρ.around a.place.base) :
    Parallel ρ.Faults ρ.Becomes (args.foldlM (Walk.passArg c p) w)
      ((args.map ρ.arg).foldlM (Walk.passArg (ρ.context c) (ρ.point p)) (ρ.state w)) := by
  rw [List.foldlM_map]
  refine Parallel.foldlM ⟨rfl, hw⟩ fun u u' hu a ha => ?_
  obtain ⟨rfl, hsees⟩ := hu
  have hnone : ∀ y, (none : Option Place) = some y → ρ.around y.base := by simp
  show Parallel _ _ (Walk.passArg c p u a)
    (Walk.passArg (ρ.context c) (ρ.point p) (ρ.state u) (ρ.arg a))
  unfold Walk.passArg
  rw [show (ρ.arg a).mode = a.mode from rfl]
  split
  · exact handOver_state hsees (hargs a ha) p
  · exact borrow_state hsees (hargs a ha) hc hnone _

/-! ### Moves -/

/-- A move renews the same loans. -/
theorem dueFor_state (hc : ρ.Takes c.book p) (hy : ρ.around y.base) :
    Walk.dueFor (ρ.context c) (ρ.state w) (ρ.place y) (ρ.point p) =
      (Walk.dueFor c w y p).map ρ.loan := by
  unfold Walk.dueFor
  rw [show (ρ.state w).ledger = ρ.ledger w.ledger from rfl,
    show (ρ.context c).book = ρ.book c.book from rfl, dueAt_ledger]
  refine filter_map_of_mem fun l hl => ?_
  rw [show (ρ.loan l).borrower = l.borrower.map ρ.place from rfl]
  cases hz : l.borrower with
  | none => rfl
  | some z => exact same_place ((hc.of_dueAt hl).1.borrower z hz) hy

/-- The loans that a move renews are all granted, or the first one that is not is the same. -/
theorem lendAll_state (hw : ρ.Sees w) (hc : ρ.Takes c.book p) (hy : ρ.around y.base)
    {loans : List Loan} (hloans : ∀ l ∈ loans, ρ.around l.via.base) :
    Parallel ρ.Faults ρ.Balances (Walk.lendAll c y p w.toBooks loans)
      (Walk.lendAll (ρ.context c) (ρ.place y) (ρ.point p) (ρ.books w.toBooks)
        (loans.map ρ.loan)) := by
  have hborrower : ∀ z, some y = some z → ρ.around z.base := fun z hz => Option.some.inj hz ▸ hy
  unfold Walk.lendAll
  rw [List.foldlM_map]
  refine Parallel.foldlM ⟨rfl, hw.houses, hw.lists⟩ fun books books' hbooks l hl => ?_
  obtain ⟨rfl, hhouses, hlists⟩ := hbooks
  exact (lend_books hhouses hlists hc (hloans l hl) hborrower l.kind).bind fun _ _ _ _ hr => hr

/-- A move renews loans, copies or empties its source as it does under the first names. -/
theorem move_state (hw : ρ.Sees w) (hc : ρ.Takes c.book p) (hy : ρ.around y.base)
    (hx : ρ.around x.base) :
    Parallel ρ.Faults ρ.Becomes (Walk.move c w y x p)
      (Walk.move (ρ.context c) (ρ.state w) (ρ.place y) (ρ.place x) (ρ.point p)) := by
  have hcopies : (ρ.state w).store.copies (ρ.context c).policy (ρ.place x) =
      w.store.copies c.policy x := copies_store hw.houses hx c.policy
  have hvia : ∀ l ∈ Walk.dueFor c w y p, ρ.around l.via.base :=
    fun l hl => (hc.of_dueAt (List.mem_filter.mp hl).1).2
  rw [Walk.move_eq, Walk.move_eq, dueFor_state hc hy, List.isEmpty_map, isReference_state hw hx,
    isExclusiveReference_state hw hx, hcopies]
  refine (ensureInScope_store hw.houses hy).bind fun _ _ _ _ _ => ?_
  split
  · -- a reference: its loans are renewed for the target, and only an exclusive one leaves its place
    refine (read_state hw hx p).bind fun _ _ _ _ _ => (lendAll_state hw hc hy hvia).bind
      fun books books' _ _ hbooks => ?_
    obtain ⟨rfl, hhouses, hlists⟩ := hbooks
    have hsees : ρ.Sees { w with toBooks := books } := ⟨hhouses, hlists⟩
    split
    · exact vacate_state hsees hx p
    · exact ⟨rfl, hsees⟩
  · split
    · exact (read_state hw hx p).bind fun _ _ _ _ _ => ⟨rfl, hw⟩
    · exact vacate_state hw hx p

/-! ### Writes -/

/-- A loan forbids a write through it for the same reason. -/
theorem unwritable?_state (x : Place) (p : Point) (l : Loan) :
    Walk.unwritable? (ρ.context c) (ρ.state w) (ρ.place x) (ρ.point p) (ρ.loan l) =
      (Walk.unwritable? c w x p l).map ρ.violation := by
  have hfind := find?_map_of_mem (g := ρ.loan) (l := w.ledger.reborrows c.book l)
    (p := fun other => ρ.point p < other.last) (q := fun other => p < other.last) fun other _ =>
      decide_eq_decide.mpr point_lt_iff
  unfold Walk.unwritable?
  rw [show (ρ.loan l).isExclusive = l.isExclusive from rfl,
    show (ρ.state w).ledger = ρ.ledger w.ledger from rfl,
    show (ρ.context c).book = ρ.book c.book from rfl, reborrows_ledger, hfind]
  split
  · rfl
  · rw [Option.map_map, Option.map_map]
    rfl

/-- A write behind a reference is allowed by the same loans, those just closed included. -/
theorem writeBehind_state (hw : ρ.Sees w) (hx : ρ.around x.base) {closed : List Loan}
    (hclosed : ∀ l ∈ closed, ρ.Finds l) (p : Point) :
    Parallel ρ.Faults (fun _ _ => True) (Walk.writeBehind c w closed x p)
      (Walk.writeBehind (ρ.context c) (ρ.state w) (closed.map ρ.loan) (ρ.place x)
        (ρ.point p)) := by
  have hty : (ρ.state w).store.ty? (ρ.context c).policy (ρ.place x) = w.store.ty? c.policy x :=
    ty?_store hw.houses hx c.policy
  have hheld : (ρ.state w).ledger.heldAt (ρ.place x) (closed.map ρ.loan) =
      (w.ledger.heldAt x closed).map ρ.loan := heldAt_ledger hw.lists hx hclosed
  have hfind : ((w.ledger.heldAt x closed).map ρ.loan).findSome?
      (Walk.unwritable? (ρ.context c) (ρ.state w) (ρ.place x) (ρ.point p)) =
      ((w.ledger.heldAt x closed).findSome? (Walk.unwritable? c w x p)).map ρ.violation := by
    rw [List.findSome?_map, List.map_findSome?]
    exact findSome?_congr fun l _ => unwritable?_state x p l
  refine (read_state hw hx p).bind fun _ _ _ _ _ => ?_
  dsimp only
  rw [hheld, List.isEmpty_map, hty, hfind]
  split
  · split
    · exact refuse_flaw _
    · rw [← place_deref]
      exact refuse_violation (some (.writeThroughShared x.deref x none))
    · trivial
  · exact refuse_violation _

/-- A write fills or replaces the same place, and releases what was held under it. -/
theorem write_state (hw : ρ.Sees w) (hx : ρ.around x.base) {closed : List Loan}
    (hclosed : ∀ l ∈ closed, ρ.Finds l) (p : Point) :
    Parallel ρ.Faults ρ.Becomes (Walk.write c w closed x p)
      (Walk.write (ρ.context c) (ρ.state w) (closed.map ρ.loan) (ρ.place x) (ρ.point p)) := by
  have hwaits : (x.isRoot && decide ((ρ.state w).store.status (ρ.place x) = .uninit)) =
      (x.isRoot && decide (w.store.status x = .uninit)) := by
    cases hroot : x.isRoot with
    | false => rfl
    | true => exact decide_eq_decide.mpr (status_store hw.houses hx hroot)
  have hrelease : ∀ {t t' : Store}, ρ.Keeps t t' →
      ρ.Becomes { w with store := t, ledger := w.ledger.releaseUnder x p }
        { ρ.state w with
          store := t', ledger := (ρ.state w).ledger.releaseUnder (ρ.place x) (ρ.point p) } := by
    rintro t t' ⟨rfl, ht⟩
    refine ⟨?_, ht, hw.lists⟩
    rw [show (ρ.state w).ledger = ρ.ledger w.ledger from rfl, releaseUnder_ledger hw.lists hx]
    rfl
  unfold Walk.write
  rw [throughRef_place, holder_place, isRoot_place, liensOn_state hw hx, hwaits]
  refine (ensureInScope_store hw.houses hx).bind fun _ _ _ _ _ => ?_
  dsimp only
  split
  · exact (writeBehind_state (x := x.holder) hw hx hclosed p).bind fun _ _ _ _ _ => ⟨rfl, hw⟩
  · split
    · exact (fill_store hw.houses hx).bind fun _ _ _ _ hstore => hrelease hstore
    · exact (overwrite_store hw.houses hx _).bind fun _ _ _ _ hstore => hrelease hstore

/-! ### Operations -/

/-- The same loans end at a point. -/
theorem settled_state (hw : ρ.Sees w) (p : Point) (inclusive : Bool) :
    ρ.Becomes (Walk.settled w p inclusive) (Walk.settled (ρ.state w) (ρ.point p) inclusive) := by
  have hexpired : ∀ l ∈ w.ledger.expired p inclusive, ρ.Finds l :=
    fun l hl => hw.lists l (List.mem_filter.mp hl).1
  have hclose := balances_close hw.houses hw.lists hexpired
  rw [← expired_ledger] at hclose
  exact hclose.becomes w

/-- A block is left under the other names of its variables. -/
theorem exit_state (hw : ρ.Sees w) (p : Point) :
    Parallel ρ.Faults ρ.Becomes (Walk.exit w p) (Walk.exit (ρ.state w) (ρ.point p)) := by
  unfold Walk.exit Store.exit
  rw [show (ρ.state w).store.scopes = ρ.scopes w.store.scopes from rfl, exit?_scopes]
  cases hexit : w.store.scopes.exit? with
  | none => exact refuse_flaw .unmatchedExit
  | some left =>
    obtain ⟨dying, scopes⟩ := left
    have hnames := Scopes.names_of_exit? hexit
    have hdying : ∀ n ∈ dying, ρ.around n :=
      fun n hn => hw.houses.scopes n (hnames ▸ List.mem_append_left _ hn)
    have hhouses : ρ.Houses { w.store with scopes } :=
      ⟨hw.houses.cells, hw.houses.types,
        fun n hn => hw.houses.scopes n (hnames ▸ List.mem_append_right _ hn)⟩
    refine (refuse_find (l := w.ledger.outstanding) (fun l hl => ?_) ?_).bind
      fun _ _ _ _ _ => ?_
    · -- the loans of storage that ends are the same
      rw [show (ρ.loan l).borrower = l.borrower.map ρ.place from rfl]
      cases hy : l.borrower with
      | none => rfl
      | some y =>
        have hstays := contains_names hdying ((hw.lists l hl).borrower y hy)
        have hends := contains_names hdying (hw.lists l hl).target
        have hlocal := isLocal_store hhouses (hw.lists l hl).target
        have hlast : decide (ρ.point p < (ρ.loan l).last) = decide (p < l.last) :=
          decide_eq_decide.mpr point_lt_iff
        show (!(dying.map ρ.name).contains (ρ.name y.base) &&
          (dying.map ρ.name).contains (ρ.name l.target.base) &&
          (ρ.store { w.store with scopes }).isLocal (ρ.place l.target) &&
          decide (ρ.point p < (ρ.loan l).last)) = _
        rw [hstays, hends, hlocal, hlast]
    · exact fun _ => rfl
    · have hfinds : ∀ l ∈ w.ledger.borrowedIn dying, ρ.Finds l :=
        fun l hl => hw.lists l (List.mem_filter.mp hl).1
      have hclose := balances_close (s := { w.toBooks with store := { w.store with scopes } })
        hhouses hw.lists hfinds
      rw [← borrowedIn_ledger hw.lists hdying] at hclose
      obtain ⟨hbooks, hhouses, hlists⟩ := hclose
      obtain ⟨hstore, hstorage⟩ := keeps_endStorage hhouses hdying
      refine ⟨?_, hstorage, hlists⟩
      refine (congrArg (fun books : Books => ({
        store := books.store.endStorage (dying.map ρ.name), ledger := books.ledger,
        returned := w.returned.map ρ.point } : Walk.State)) hbooks).trans ?_
      dsimp only [books]
      rw [hstore]
      rfl

/-- The end of an operation closes the same loans and writes the same target. -/
theorem conclude_state (hw : ρ.Sees w) (p : Point) {target : Option Place}
    (ht : ∀ x, target = some x → ρ.around x.base) :
    Parallel ρ.Faults ρ.Becomes (Walk.conclude c w p target)
      (Walk.conclude (ρ.context c) (ρ.state w) (ρ.point p) (target.map ρ.place)) := by
  obtain ⟨heq, hsees⟩ := settled_state hw p true
  cases target with
  | none => exact ⟨heq, hsees⟩
  | some x =>
    have hclosed : ((ρ.state w).toBooks.settle (ρ.point p) true).2 =
        (w.toBooks.settle p true).2.map ρ.loan := expired_ledger w.ledger p true
    rw [Option.map_some]
    unfold Walk.conclude
    rw [heq, hclosed]
    exact write_state hsees (ht x rfl) (fun l hl => hw.lists l (List.mem_filter.mp hl).1) p

/-- What an action does between the two settlings it does in other words as well; there is one case
for each kind of action. -/
theorem perform_state (hw : ρ.Sees w) (hc : ρ.Takes c.book p) {a : Action}
    (ha : ∀ x ∈ a.named, ρ.around x.base) :
    Parallel ρ.Faults (fun r r' => ρ.Becomes r.1 r'.1 ∧ r'.2 = r.2.map ρ.place)
      (Walk.perform c w p a)
      (Walk.perform (ρ.context c) (ρ.state w) (ρ.point p) (ρ.action a)) := by
  cases a with
  | declare x ty =>
    exact (declare_store hw.houses (ha x List.mem_cons_self) ty false).bind
      fun _ _ _ _ hstore => ⟨hstore.becomes hw, rfl⟩
  | assign x ys =>
    have hreads : Parallel ρ.Faults (fun _ _ => True) (ys.forM fun y => Walk.read c w y p)
        ((ys.map ρ.place).forM fun y =>
          Walk.read (ρ.context c) (ρ.state w) y (ρ.point p)) := by
      rw [List.forM_eq_forM, List.forM_map]
      exact Parallel.forM fun y hy => read_state hw (ha y (List.mem_cons_of_mem x hy)) p
    exact hreads.bind fun _ _ _ _ _ => ⟨⟨rfl, hw⟩, rfl⟩
  | move y x =>
    exact (move_state hw hc (ha y List.mem_cons_self) (ha x (.tail y (.head _)))).bind
      fun _ _ _ _ hu => ⟨hu, rfl⟩
  | borrow kind y x =>
    have hy := ha y List.mem_cons_self
    have hborrower : ∀ z, some y = some z → ρ.around z.base := fun z hz => Option.some.inj hz ▸ hy
    exact (ensureInScope_store hw.houses hy).bind fun _ _ _ _ _ =>
      (borrow_state hw (ha x (.tail y (.head _))) hc hborrower kind).bind
        fun _ _ _ _ hu => ⟨hu, rfl⟩
  | deref x =>
    exact (follow_state hw (ha x List.mem_cons_self) p).bind fun _ _ _ _ _ => ⟨⟨rfl, hw⟩, rfl⟩
  | use x =>
    exact (read_state hw (ha x List.mem_cons_self) p).bind fun _ _ _ _ _ => ⟨⟨rfl, hw⟩, rfl⟩
  | call args result =>
    have hargs : ∀ d ∈ args, ρ.around d.place.base :=
      fun d hd => ha d.place (List.mem_append_right _ (List.mem_map_of_mem hd))
    cases result with
    | none =>
      exact (passAll_state hw hc hargs).bind fun _ _ _ _ hu => ⟨hu, rfl⟩
    | some y =>
      exact (ensureInScope_store hw.houses (ha y List.mem_cons_self)).bind fun _ _ _ _ _ =>
        (passAll_state hw hc hargs).bind fun _ _ _ _ hu => ⟨hu, rfl⟩
  | ret x =>
    have hreturned : ∀ {u u' : Walk.State}, ρ.Becomes u u' →
        ρ.Becomes { u with returned := some p } { u' with returned := some (ρ.point p) } := by
      rintro u u' ⟨rfl, hu⟩
      exact ⟨rfl, hu.houses, hu.lists⟩
    cases x with
    | none => exact ⟨hreturned ⟨rfl, hw⟩, rfl⟩
    | some x =>
      exact (ret_state hw (ha x List.mem_cons_self) p).bind
        fun _ _ _ _ hu => ⟨hreturned hu, rfl⟩
  | enter => exact ⟨(keeps_enter hw.houses).becomes hw, rfl⟩
  | exit => exact (exit_state hw p).bind fun _ _ _ _ hu => ⟨hu, rfl⟩

/-- **An operation in other words is walked as it was.** -/
theorem step_state {op : Operation} (hw : ρ.Sees w) (hc : ρ.Takes c.book op.point)
    (hop : ∀ x ∈ op.named, ρ.around x.base) :
    Parallel ρ.Faults ρ.Becomes (Walk.step c w op)
      (Walk.step (ρ.context c) (ρ.state w) (ρ.operation op)) := by
  cases hret : w.returned with
  | some q =>
    have hret' : (ρ.state w).returned = some (ρ.point q) := congrArg (Option.map ρ.point) hret
    rw [Walk.step_of_returned hret, Walk.step_of_returned hret']
    exact refuse_flaw (.afterReturn q)
  | none =>
    have hret' : (ρ.state w).returned = none := congrArg (Option.map ρ.point) hret
    have hact' := action_operation (ρ := ρ) op
    cases hact : op.action with
    | error gap =>
      rw [hact] at hact'
      rw [Walk.step_of_gap hret hact, Walk.step_of_gap hret' hact']
      exact refuse_flaw (.incomplete gap)
    | ok a =>
      rw [hact] at hact'
      obtain ⟨hsettled, hsees⟩ := settled_state hw op.point false
      have hnamed : ∀ x ∈ a.named, ρ.around x.base :=
        fun x hx => hop x (Operation.mem_named_of_action hact hx)
      have hperform := perform_state hsees hc hnamed
      rw [← hsettled] at hperform
      rw [Walk.step_eq hret hact, Walk.step_eq hret' hact']
      refine hperform.bind fun r r' hr _ hbecomes => ?_
      obtain ⟨⟨heq, hsees⟩, htarget⟩ := hbecomes
      rw [heq, htarget]
      refine conclude_state hsees op.point fun x hx => hnamed x (Action.mem_named_of_written ?_)
      rw [← (Walk.perform_cases hr).2, hx]

end Recast

end BorrowCheck
