import BorrowCheck.Proofs.Alike
import BorrowCheck.Proofs.Lighter

/-!
# Two walks side by side

A walk through a function and a walk through its part on one side (`BorrowCheck.Side`) do not see
the same: the ledger of the larger one lists the loans of both sides, under other numbers. What an
operation of this side asks is answered alike nevertheless. A question about a place is answered by
loans that overlap it, are held at it or were taken through such loans, and all of these are of the
side of the place.

`BorrowCheck.Walk.PartOf` relates the states of the two walks. Each check that the walk makes goes
in parallel in two related states, for places of this side, and leaves them related; the last of
these lemmas is about a whole operation (`BorrowCheck.Walk.PartOf.step`).
-/

namespace BorrowCheck

/-! ### Books -/

namespace Side

/-- Every loan of the book is on one side. -/
structure SuitsBook (σ : Side) (b : LoanBook) : Prop where
  sound : b.Sound
  fits : ∀ l ∈ b.loans, σ.Fits l.id l.toBorrow

variable {σ : Side} {b : LoanBook} {i : Nat}

/-- A loan of this side stands in the smaller book under its rank. -/
theorem get?_book (hb : b.Sound) (hi : σ.kept i = true) :
    (σ.book b).get? (rank σ.kept i) = (b.get? i).map σ.loan := by
  rw [LoanBook.get?, book, loans_eq hb.id_eq, List.getElem?_map, getElem?_pick _ hi]
  rfl

theorem loan_id (l : Loan) : (σ.loan l).id = rank σ.kept l.id :=
  rfl

/-- A loan is on the side of the place that was borrowed. -/
theorem SuitsBook.kept_of_via (hb : σ.SuitsBook b) {l : Loan} {x : Place} (hl : l ∈ b.loans)
    (hx : σ.mine x.base = true) (hvia : l.via.same x = true) : σ.kept l.id = true := by
  rw [← (hb.fits l hl).via, Place.base_eq_of_same hvia, hx]

/-- A loan is on the side of the storage that it lends. -/
theorem SuitsBook.kept_of_overlaps (hb : σ.SuitsBook b) {l : Loan} {x : Place} (hl : l ∈ b.loans)
    (hx : σ.mine x.base = true) (hover : l.target.overlaps x = true) : σ.kept l.id = true := by
  rw [← (hb.fits l hl).target, Place.base_eq_of_overlaps hover, hx]

/-- A loan is on the side of the loan it was taken through. -/
theorem SuitsBook.kept_parent (hb : σ.SuitsBook b) {q : Nat}
    (hq : (b.get? i).bind (·.parent) = some q) : σ.kept q = σ.kept i := by
  obtain ⟨l, hl, hlq⟩ := Option.bind_eq_some_iff.mp hq
  rw [(hb.fits l (LoanBook.mem_of_get? hl)).parent q hlq, hb.sound.id_eq i l hl]

/-- A lineage stays on its side. -/
theorem SuitsBook.kept_of_mem_lineageFrom (hb : σ.SuitsBook b) {q : Nat}
    (hq : q ∈ b.lineageFrom i) : σ.kept q = σ.kept i := by
  fun_induction LoanBook.lineageFrom b i with
  | case1 i hnone => cases hq
  | case2 i r hr hlt ih =>
    rcases List.mem_cons.mp hq with rfl | hq
    · exact hb.kept_parent hr
    · exact (ih hq).trans (hb.kept_parent hr)
  | case3 i r hr hlt => cases hq

/-- The lineage of a loan of this side is the same in the smaller book, ranks for numbers. -/
theorem SuitsBook.lineageFrom (hb : σ.SuitsBook b) (hi : σ.kept i = true) :
    (σ.book b).lineageFrom (rank σ.kept i) = (b.lineageFrom i).map (rank σ.kept) := by
  have hparent : ∀ j, σ.kept j = true → (((σ.book b).get? (rank σ.kept j)).bind (·.parent)) =
      ((b.get? j).bind (·.parent)).map (rank σ.kept) := by
    intro j hj
    rw [get?_book hb.sound hj]
    cases b.get? j <;> rfl
  fun_induction LoanBook.lineageFrom b i with
  | case1 i hnone =>
    rw [LoanBook.lineageFrom, hparent i hi, hnone]
    rfl
  | case2 i q hq hlt ih =>
    have hq' := (hb.kept_parent hq).trans hi
    rw [LoanBook.lineageFrom, hparent i hi, hq, Option.map_some]
    simp only [(rank_lt_iff hq').mpr hlt, if_true, ih hq', List.map_cons]
  | case3 i q hq hlt =>
    rw [LoanBook.lineageFrom, hparent i hi, hq, Option.map_some]
    simp only [rank_lt_iff ((hb.kept_parent hq).trans hi), hlt, if_false, List.map_nil]

/-- Of numbers on this side the ranks tell which they are. -/
theorem contains_map_rank {ids : List Nat} (hids : ∀ j ∈ ids, σ.kept j = true)
    (hi : σ.kept i = true) : (ids.map (rank σ.kept)).contains (rank σ.kept i) = ids.contains i := by
  rw [Bool.eq_iff_iff, List.contains_iff_mem, List.contains_iff_mem, List.mem_map]
  constructor
  · rintro ⟨j, hj, hrank⟩
    exact (rank_inj (hids j hj) hi).mp hrank ▸ hj
  · exact fun hmem => ⟨i, hmem, rfl⟩

/-- Which loan of this side was taken through which other one, the smaller book tells alike. -/
theorem SuitsBook.contains_lineage (hb : σ.SuitsBook b) {l : Loan} (hl : σ.kept l.id = true)
    (hi : σ.kept i = true) :
    ((σ.book b).lineage (σ.loan l)).contains (rank σ.kept i) = (b.lineage l).contains i := by
  rw [LoanBook.lineage, LoanBook.lineage, loan_id, hb.lineageFrom hl]
  exact contains_map_rank (fun q hq => (hb.kept_of_mem_lineageFrom hq).trans hl) hi

/-- A question that is answered alike for a loan of this side. -/
theorem filter_loans {ls : List Loan} {q q' : Loan → Bool}
    (hq : ∀ l ∈ ls, σ.kept l.id = true → q' (σ.loan l) = q l) :
    (σ.loans ls).filter q' = σ.loans (ls.filter q) := by
  rw [loans, loans, List.filter_map, List.filter_filter, List.filter_filter]
  refine congrArg (List.map _) (List.filter_congr fun l hl => ?_)
  rw [Function.comp_apply]
  cases hid : σ.kept l.id with
  | true => rw [hq l hl hid, Bool.and_true, Bool.true_and]
  | false => rw [Bool.and_false, Bool.false_and]

/-- A question that only loans of this side answer. -/
theorem filter_loans_of_kept {ls : List Loan} {q q' : Loan → Bool}
    (hq : ∀ l ∈ ls, σ.kept l.id = true → q' (σ.loan l) = q l)
    (hkept : ∀ l ∈ ls, q l = true → σ.kept l.id = true) :
    (σ.loans ls).filter q' = (ls.filter q).map σ.loan := by
  rw [filter_loans hq, loans, List.filter_filter]
  refine congrArg (List.map _) (List.filter_congr fun l hl => ?_)
  cases hql : q l with
  | false => rw [Bool.and_false]
  | true => rw [Bool.and_true, hkept l hl hql]

end Side

/-! ### Ledgers -/

namespace Ledger

/-- The ledger `m'` is **the part of `m` on one side**. -/
structure PartOf (σ : Side) (b : LoanBook) (m m' : Ledger) : Prop where
  known : ∀ l ∈ m.outstanding, l ∈ b.loans
  outstanding : m'.outstanding = σ.loans m.outstanding
  opened : ∀ i, σ.kept i = true → (rank σ.kept i ∈ m'.opened ↔ i ∈ m.opened)
  released : ∀ i, σ.kept i = true → (rank σ.kept i ∈ m'.released ↔ i ∈ m.released)

namespace PartOf

variable {σ : Side} {b : LoanBook} {m m' : Ledger} {x y : Place} {p : Point} {l : Loan}

/-- Whether a loan of this side is held at a place, the two ledgers tell alike. -/
theorem isHeldAt (h : PartOf σ b m m') (hl : σ.kept l.id = true) (test : Place → Bool) :
    m'.isHeldAt test (σ.loan l) = m.isHeldAt test l := by
  have hreleased : m'.released.contains (σ.loan l).id = m.released.contains l.id := by
    rw [Bool.eq_iff_iff, List.contains_iff_mem, List.contains_iff_mem]
    exact h.released l.id hl
  rw [Ledger.isHeldAt, Ledger.isHeldAt, hreleased]
  rfl

/-- What a place of this side holds is on this side. -/
theorem kept_of_isHeldAt (hb : σ.SuitsBook b) {test : Place → Bool} (hx : σ.mine x.base = true)
    (htest : ∀ y, test y = true → x.base = y.base) (hl : l ∈ b.loans)
    (hheld : m.isHeldAt test l = true) : σ.kept l.id = true := by
  obtain ⟨y, hy, -, hty⟩ := isHeldAt_iff.mp hheld
  rw [← (hb.fits l hl).borrower y hy, ← htest y hty, hx]

section Questions

variable (h : PartOf σ b m m') (hb : σ.SuitsBook b)
include h hb

/-- The loans in the way of a place of this side are all of this side, so the smaller ledger finds
the same ones. Points after the entry compare alike. -/
theorem overlapping (hx : σ.mine x.base = true) (hp : σ.entry < p) (strict : Bool) :
    m'.overlapping x p strict = (m.overlapping x p strict).map σ.loan := by
  rw [Ledger.overlapping, h.outstanding]
  refine Side.filter_loans_of_kept (fun l _ _ => ?_) fun l hl hover => ?_
  · show (l.target.overlaps x && (p < σ.point l.last || (!strict && σ.point l.last = p))) = _
    simp only [Side.lt_point_iff hp, Side.point_eq_iff hp]
  · rw [Bool.and_eq_true] at hover
    exact hb.kept_of_overlaps (h.known l hl) hx hover.1

/-- What is held under a place of this side is on this side. -/
theorem kept_of_heldUnder (hx : σ.mine x.base = true) (hl : l ∈ m.heldUnder x) :
    σ.kept l.id = true := by
  obtain ⟨hout, hheld⟩ := List.mem_filter.mp hl
  exact kept_of_isHeldAt hb hx (fun y hy => (Place.isPrefixOf_iff.mp hy).1) (h.known l hout) hheld

/-- What is held under a place of this side, the smaller ledger finds as well. -/
theorem heldUnder (hx : σ.mine x.base = true) :
    m'.heldUnder x = (m.heldUnder x).map σ.loan := by
  rw [Ledger.heldUnder, h.outstanding]
  refine Side.filter_loans_of_kept (fun l _ hl => h.isHeldAt hl _) fun l hl hheld => ?_
  exact h.kept_of_heldUnder hb hx (List.mem_filter.mpr ⟨hl, hheld⟩)

/-- What is held at a place of this side is on this side, loans that were just closed included. -/
theorem kept_of_heldAt (hx : σ.mine x.base = true) {extra : List Loan}
    (hextra : ∀ l ∈ extra, l ∈ b.loans) (hl : l ∈ m.heldAt x extra) : σ.kept l.id = true := by
  obtain ⟨hmem, hheld⟩ := List.mem_filter.mp hl
  exact kept_of_isHeldAt hb hx (fun y hy => Place.base_eq_of_same hy)
    ((List.mem_append.mp hmem).elim (h.known l) (hextra l)) hheld

/-- What is held at a place of this side, the smaller ledger finds as well. -/
theorem heldAt (hx : σ.mine x.base = true) {extra : List Loan} (hextra : ∀ l ∈ extra, l ∈ b.loans) :
    m'.heldAt x (σ.loans extra) = (m.heldAt x extra).map σ.loan := by
  have happend : m'.outstanding ++ σ.loans extra = σ.loans (m.outstanding ++ extra) := by
    rw [h.outstanding, Side.loans, Side.loans, Side.loans, List.filter_append, List.map_append]
  rw [Ledger.heldAt, happend]
  refine Side.filter_loans_of_kept (fun l _ hl => h.isHeldAt hl _) fun l hl hheld => ?_
  exact h.kept_of_heldAt hb hx hextra (List.mem_filter.mpr ⟨hl, hheld⟩)

theorem heldAt_nil (hx : σ.mine x.base = true) : m'.heldAt x [] = (m.heldAt x []).map σ.loan := by
  have hnil : ∀ l ∈ ([] : List Loan), l ∈ b.loans := nofun
  exact h.heldAt hb hx hnil

/-- The reborrows of a loan of this side are of this side, since a lineage stays there. -/
theorem reborrows (hl : σ.kept l.id = true) :
    m'.reborrows (σ.book b) (σ.loan l) = (m.reborrows b l).map σ.loan := by
  rw [Ledger.reborrows, h.outstanding]
  refine Side.filter_loans_of_kept (fun other _ hother => ?_) fun other hother hq => ?_
  · have hid : (σ.loan other).id ≠ (σ.loan l).id ↔ other.id ≠ l.id :=
      not_congr (rank_inj hother hl)
    rw [Side.loan_id l] at hid ⊢
    simp only [hid, hb.contains_lineage hother hl]
  · rw [Bool.and_eq_true, List.contains_iff_mem] at hq
    exact (hb.kept_of_mem_lineageFrom hq.2).symm.trans hl

/-- A loan that nothing of this side excludes is excluded by nothing. -/
theorem excluding? (hl : l ∈ b.loans) (hkept : σ.kept l.id = true) :
    m'.excluding? (σ.book b) (σ.loan l) = (m.excluding? b l).map σ.loan := by
  rw [Ledger.excluding?, Ledger.excluding?, ← List.head?_filter, ← List.head?_filter,
    h.outstanding, ← List.head?_map]
  refine congrArg List.head? (Side.filter_loans_of_kept (fun other _ hother => ?_)
    fun other hother hq => ?_)
  · have hlineage := hb.contains_lineage hkept hother
    show (!((σ.book b).lineage (σ.loan l)).contains (rank σ.kept other.id) && _ && _) = _
    rw [hlineage]
    rfl
  · rw [Bool.and_eq_true, Bool.and_eq_true] at hq
    exact hb.kept_of_overlaps (h.known other hother) ((hb.fits l hl).target.trans hkept) hq.1.2

end Questions

/-! #### Loans that are due -/

/-- The loans that are due at a point in the smaller walk are those of this side. -/
theorem dueAt (h : PartOf σ b m m') (hp : σ.entry < p) :
    m'.dueAt (σ.book b) p = σ.loans (m.dueAt b p) := by
  have htaken : (σ.book b).takenAt p = σ.loans (b.takenAt p) :=
    Side.filter_loans fun l _ _ => decide_eq_decide.mpr (Side.point_eq_iff hp)
  rw [Ledger.dueAt, htaken]
  refine Side.filter_loans fun l _ hl => congrArg (!·) ?_
  rw [Bool.eq_iff_iff, List.contains_iff_mem, List.contains_iff_mem]
  exact h.opened l.id hl

theorem mem_of_dueAt (hl : l ∈ m.dueAt b p) : l ∈ b.loans :=
  (List.mem_filter.mp (List.mem_filter.mp hl).1).1

/-- A borrow of a place of this side finds the same loan due. -/
theorem due? (h : PartOf σ b m m') (hb : σ.SuitsBook b) (hx : σ.mine x.base = true)
    (hp : σ.entry < p) (borrower : Option Place) (kind : BorrowKind) :
    m'.due? (σ.book b) borrower x kind p = (m.due? b borrower x kind p).map σ.loan := by
  rw [Ledger.due?, Ledger.due?, ← List.head?_filter, ← List.head?_filter, h.dueAt hp,
    ← List.head?_map]
  refine congrArg List.head? (Side.filter_loans_of_kept (fun _ _ _ => rfl) fun l hl hq => ?_)
  rw [Bool.and_eq_true, Bool.and_eq_true] at hq
  exact hb.kept_of_via (mem_of_dueAt hl) hx hq.1.2

/-! #### Changes -/

/-- Opening a loan of this side keeps the ledgers related. -/
theorem record (h : PartOf σ b m m') (hl : l ∈ b.loans) (hkept : σ.kept l.id = true) :
    PartOf σ b (m.record l) (m'.record (σ.loan l)) := by
  refine ⟨fun other hother => ?_, ?_, fun i hi => ?_, h.released⟩
  · rcases List.mem_append.mp hother with hother | hother
    · exact h.known other hother
    · exact List.mem_singleton.mp hother ▸ hl
  · show m'.outstanding ++ [σ.loan l] = σ.loans (m.outstanding ++ [l])
    rw [h.outstanding, Side.loans, Side.loans, List.filter_append, List.map_append]
    simp [hkept]
  · show rank σ.kept i ∈ m'.opened ++ [rank σ.kept l.id] ↔ i ∈ m.opened ++ [l.id]
    rw [List.mem_append, List.mem_append, List.mem_singleton, List.mem_singleton, h.opened i hi,
      rank_inj hi hkept]

theorem mem_outstanding (h : PartOf σ b m m') (hl : l ∈ m.outstanding)
    (hkept : σ.kept l.id = true) : σ.loan l ∈ m'.outstanding := by
  rw [h.outstanding]
  exact List.mem_map_of_mem (List.mem_filter.mpr ⟨hl, hkept⟩)

/-- So does a write to a place: the borrowers under it are compared by place alone, and the origins
of loans by their order. -/
theorem releaseUnder (h : PartOf σ b m m') (hp : σ.entry < p) :
    PartOf σ b (m.releaseUnder x p) (m'.releaseUnder x p) := by
  refine ⟨h.known, h.outstanding, h.opened, fun i hi => ⟨fun hmem => ?_, fun hmem => ?_⟩⟩
  · rcases mem_released_of_releaseUnder hmem with hmem | ⟨l', hl', hid, horigin, y, hy, hunder⟩
    · exact List.mem_append_left _ ((h.released i hi).mp hmem)
    · rw [h.outstanding] at hl'
      obtain ⟨l, hl, rfl⟩ := List.mem_map.mp hl'
      rw [List.mem_filter] at hl
      obtain rfl : l.id = i := (rank_inj hl.2 hi).mp hid
      exact mem_released_of_isPrefixOf hl.1 hy hunder ((Side.point_lt_iff hp).mp horigin)
  · rcases mem_released_of_releaseUnder hmem with hmem | ⟨l, hl, rfl, horigin, y, hy, hunder⟩
    · exact List.mem_append_left _ ((h.released i hi).mpr hmem)
    · exact mem_released_of_isPrefixOf (h.mem_outstanding hl hi) hy hunder
        ((Side.point_lt_iff hp).mpr horigin)

/-- The loans that end up to a point are, in the smaller walk, those of this side. -/
theorem expired (h : PartOf σ b m m') (hp : σ.entry < p) (inclusive : Bool) :
    m'.expired p inclusive = σ.loans (m.expired p inclusive) := by
  rw [Ledger.expired, h.outstanding]
  refine Side.filter_loans fun l _ _ => ?_
  show (σ.point l.last < p || (inclusive && σ.point l.last = p)) = _
  simp only [Side.point_lt_iff hp, Side.point_eq_iff hp]

/-- Closing the loans that ended keeps the ledgers related. Numbers tell loans apart in both, so the
struck ones are found by their ends. -/
theorem strike_expired (h : PartOf σ b m m') (hb : σ.SuitsBook b) (hp : σ.entry < p)
    (inclusive : Bool) :
    PartOf σ b (m.strike (m.expired p inclusive)) (m'.strike (m'.expired p inclusive)) := by
  have hid : ∀ a ∈ m.outstanding, ∀ a' ∈ m.outstanding, a.id = a'.id → a = a' :=
    fun a ha a' ha' => hb.sound.eq_of_id (h.known a ha) (h.known a' ha')
  have hid' : ∀ a ∈ m'.outstanding, ∀ a' ∈ m'.outstanding, a.id = a'.id → a = a' := by
    rw [h.outstanding]
    intro a ha a' ha' heq
    obtain ⟨l, hl, rfl⟩ := List.mem_map.mp ha
    obtain ⟨l', hl', rfl⟩ := List.mem_map.mp ha'
    rw [List.mem_filter] at hl hl'
    rw [hid l hl.1 l' hl'.1 ((rank_inj hl.2 hl'.2).mp heq)]
  refine ⟨fun l hl => h.known l (List.mem_filter.mp hl).1, ?_, h.opened, h.released⟩
  rw [Ledger.expired, Ledger.expired, outstanding_strike hid, outstanding_strike hid',
    h.outstanding]
  refine Side.filter_loans fun l _ _ => ?_
  show (!(σ.point l.last < p || (inclusive && σ.point l.last = p))) = _
  simp only [Side.point_lt_iff hp, Side.point_eq_iff hp]

end PartOf

end Ledger

/-! ### Walks -/

/-- The point of origin of a lien when the rest is left out. -/
def Side.lien (σ : Side) (l : Lien) : Lien :=
  { l with origin := σ.point l.origin }

/-- What does not change during a walk through the part. -/
def Side.context (σ : Side) (c : Walk.Context) : Walk.Context :=
  { c with book := σ.book c.book }

theorem Side.context_policy (σ : Side) (c : Walk.Context) : (σ.context c).policy = c.policy :=
  rfl

theorem Side.context_book (σ : Side) (c : Walk.Context) : (σ.context c).book = σ.book c.book :=
  rfl

namespace Walk

/-- A move opens the loans that are due for its target. -/
theorem move_eq (c : Context) (w : State) (y x : Place) (p : Point) :
    move c w y x p = (do
      w.store.ensureInScope y
      if !(dueFor c w y p).isEmpty || isReference c w x then
        read c w x p
        let books ← lendAll c y p w.toBooks (dueFor c w y p)
        if isExclusiveReference c w x then vacate { w with toBooks := books } x p
        else return { w with toBooks := books }
      else if w.store.copies c.policy x then
        read c w x p
        return w
      else
        vacate w x p) :=
  rfl

section Step

variable {c : Context} {w : State} {op : Operation} {a : Action}

/-- An operation with a gap is refused for the gap. -/
theorem step_of_gap {gap : Operation.Gap} (hret : w.returned = none)
    (hact : op.action = .error gap) : step c w op = refuseFlaw (.incomplete gap) := by
  unfold step
  rw [hret, hact]

end Step

/-- The state `w'` is **the part of `w` on one side**. -/
structure PartOf (σ : Side) (b : LoanBook) (w w' : State) : Prop where
  store : w.store.AlikeOn σ.mine w'.store
  ledger : w.ledger.PartOf σ b w'.ledger

namespace PartOf

variable {σ : Side} {c : Context} {w w' : State} {x y : Place} {p : Point}

section Questions

variable (h : PartOf σ c.book w w') (hb : σ.SuitsBook c.book) (hx : σ.mine x.base = true)
include h hb hx

/-- Whether a place of this side holds a reference, the two walks tell alike. -/
theorem isReference : isReference (σ.context c) w' x = isReference c w x := by
  rw [Walk.isReference, Walk.isReference, Ledger.holds, Ledger.holds, h.ledger.heldAt_nil hb hx,
    List.isEmpty_map]
  exact congrArg (_ || ·) (h.store.isReference hx c.policy)

theorem isExclusiveReference :
    isExclusiveReference (σ.context c) w' x = isExclusiveReference c w x := by
  rw [Walk.isExclusiveReference, Walk.isExclusiveReference, h.ledger.heldAt_nil hb hx,
    List.any_map, Side.context_policy, h.store.ty? hx]
  rfl

/-- The liens on a place of this side differ in their origins at most. -/
theorem liensOn (hp : σ.entry < p) (strict : Bool) :
    liensOn w' x p strict = (liensOn w x p strict).map σ.lien := by
  rw [Walk.liensOn, Walk.liensOn, h.ledger.overlapping hb hx hp, List.map_map, List.map_map]
  rfl

/-- A reference of this side cannot be used in the one walk when it cannot in the other, and the
violation has the same gist. -/
theorem reborrowed? (hp : σ.entry < p) :
    (reborrowed? (σ.context c) w' x p).map Violation.gist =
      (reborrowed? c w x p).map Violation.gist := by
  have hothers : (w'.ledger.heldUnder x).flatMap (w'.ledger.reborrows (σ.book c.book)) =
      ((w.ledger.heldUnder x).flatMap (w.ledger.reborrows c.book)).map σ.loan := by
    rw [h.ledger.heldUnder hb hx, List.flatMap_map, List.map_flatMap]
    refine List.flatMap_congr fun l hl => h.ledger.reborrows hb ?_
    exact h.ledger.kept_of_heldUnder hb hx hl
  have hlast : ∀ other : Loan, (p ≤ (σ.loan other).last) = (p ≤ other.last) :=
    fun other => propext (Side.le_point_iff hp)
  rw [Walk.reborrowed?, Walk.reborrowed?, Side.context_book, hothers, List.find?_map]
  simp only [Function.comp_def, hlast, Option.map_map]
  rfl

/-- A read of a place of this side goes in parallel. -/
theorem read (hp : σ.entry < p) :
    Parallel Fault.Alike (fun _ _ => True) (read c w x p) (read (σ.context c) w' x p) := by
  refine (h.store.ensureInScope hx).bind fun _ _ _ _ _ => ?_
  rw [h.liensOn (x := x.holder) hb hx hp]
  refine (h.store.read (x := x.holder) (g := σ.lien) hx fun _ => rfl).bind fun _ _ _ _ _ => ?_
  exact parallel_refuse (h.reborrowed? (x := x.holder) hb hx hp)

/-- So does a move out of one, which leaves the states related. -/
theorem vacate (hp : σ.entry < p) :
    Parallel Fault.Alike (PartOf σ c.book) (vacate w x p) (vacate w' x p) := by
  refine (h.store.ensureInScope hx).bind fun _ _ _ _ _ => ?_
  dsimp only
  rw [h.liensOn hb hx hp]
  have hend : Parallel Fault.Alike (PartOf σ c.book)
      (do
        let store ← w.store.vacate x p (Walk.liensOn w x p false)
        return { w with store })
      (do
        let store ← w'.store.vacate x p ((Walk.liensOn w x p false).map σ.lien)
        return { w' with store }) :=
    (h.store.vacate hx σ.lien).bind fun _ _ _ _ hstore => ⟨hstore, h.ledger⟩
  split
  · exact (parallel_refuse rfl).bind fun _ _ _ _ _ => hend
  · exact hend

theorem handOver (hp : σ.entry < p) :
    Parallel Fault.Alike (PartOf σ c.book) (handOver c w x p) (handOver (σ.context c) w' x p) := by
  unfold Walk.handOver
  rw [h.isReference hb hx, Side.context_policy, h.store.copies hx]
  split
  · exact (h.read hb hx hp).bind fun _ _ _ _ _ => h
  · exact h.vacate hb hx hp

/-- Opening a loan goes in parallel: the loan that is due is the same, and it is excluded in both
walks or in none. -/
theorem lend (hp : σ.entry < p) (borrower : Option Place) (kind : BorrowKind) :
    Parallel Fault.Alike
      (fun r r' => PartOf σ c.book { w with toBooks := r.1 } { w' with toBooks := r'.1 })
      (w.toBooks.lend c.book borrower x kind p)
      (w'.toBooks.lend (σ.context c).book borrower x kind p) := by
  unfold Books.lend
  rw [Side.context_book, h.ledger.due? hb hx hp]
  cases hdue : w.ledger.due? c.book borrower x kind p with
  | none => exact rfl
  | some l =>
    have hl : l ∈ c.book.loans := Ledger.PartOf.mem_of_dueAt (List.mem_of_find?_eq_some hdue)
    have hkept : σ.kept l.id = true := by
      have hq := List.find?_some hdue
      rw [Bool.and_eq_true, Bool.and_eq_true] at hq
      exact hb.kept_of_via hl hx hq.1.2
    simp only [Option.map_some, h.ledger.excluding? hb hl hkept]
    cases w.ledger.excluding? c.book l with
    | some other => exact rfl
    | none => exact ⟨h.store.encumber _ _ _ _, h.ledger.record hl hkept⟩

/-- A borrow of a place of this side goes in parallel. -/
theorem borrow (hp : σ.entry < p) (borrower : Option Place) (kind : BorrowKind) :
    Parallel Fault.Alike (PartOf σ c.book) (borrow c w borrower kind x p)
      (borrow (σ.context c) w' borrower kind x p) := by
  refine (h.store.ensureInScope hx).bind fun _ _ _ _ _ => ?_
  dsimp only
  have hlend := h.lend hb hx hp borrower kind
  split
  · exact (h.read (x := x.holder) hb hx hp).bind fun _ _ _ _ _ => hlend.bind fun _ _ _ _ hr => hr
  · exact (h.store.ensureValue hx).bind fun _ _ _ _ _ => hlend.bind fun _ _ _ _ hr => hr

theorem follow (hp : σ.entry < p) :
    Parallel Fault.Alike (fun _ _ => True) (follow c w x p) (follow (σ.context c) w' x p) := by
  refine (h.read (x := x.holder) hb hx hp).bind fun _ _ _ _ _ => ?_
  rw [h.isReference (x := x.holder) hb hx]
  split
  · trivial
  · exact parallel_refuseFlaw _

end Questions

/-- The arguments of a call go in parallel, one after the other. -/
theorem passAll (h : PartOf σ c.book w w') (hb : σ.SuitsBook c.book) (hp : σ.entry < p)
    {args : List Arg} (hargs : ∀ d ∈ args, σ.mine d.place.base = true) :
    Parallel Fault.Alike (PartOf σ c.book) (args.foldlM (passArg c p) w)
      (args.foldlM (passArg (σ.context c) p) w') := by
  refine Parallel.foldlM h fun u u' hu d hd => ?_
  unfold passArg
  split
  · exact hu.handOver hb (hargs d hd) hp
  · exact hu.borrow hb (hargs d hd) hp _ _

/-- What is due for a target of this side is on this side. -/
theorem kept_of_dueFor (hb : σ.SuitsBook c.book) (hy : σ.mine y.base = true) {l : Loan}
    (hl : l ∈ dueFor c w y p) : l ∈ c.book.loans ∧ σ.kept l.id = true := by
  obtain ⟨hdue, hborrower⟩ := List.mem_filter.mp hl
  have hmem := Ledger.PartOf.mem_of_dueAt hdue
  refine ⟨hmem, ?_⟩
  split at hborrower
  next => cases hborrower
  next z hz => rw [← (hb.fits l hmem).borrower z hz, Place.base_eq_of_same hborrower, hy]

/-- A move to a target of this side finds the same loans due. -/
theorem dueFor (h : PartOf σ c.book w w') (hb : σ.SuitsBook c.book) (hy : σ.mine y.base = true)
    (hp : σ.entry < p) : dueFor (σ.context c) w' y p = (dueFor c w y p).map σ.loan := by
  unfold Walk.dueFor
  rw [Side.context_book, h.ledger.dueAt hp]
  refine Side.filter_loans_of_kept (fun _ _ _ => rfl) fun l hl hborrower => ?_
  exact (kept_of_dueFor hb hy (List.mem_filter.mpr ⟨hl, hborrower⟩)).2

/-- What a move hands on is opened in parallel. -/
theorem lendAll (h : PartOf σ c.book w w') (hb : σ.SuitsBook c.book) (hp : σ.entry < p)
    {loans : List Loan} (hloans : ∀ l ∈ loans, σ.mine l.via.base = true) :
    Parallel Fault.Alike
      (fun books books' =>
        PartOf σ c.book { w with toBooks := books } { w' with toBooks := books' })
      (lendAll c y p w.toBooks loans)
      (lendAll (σ.context c) y p w'.toBooks (loans.map σ.loan)) := by
  unfold Walk.lendAll
  rw [List.foldlM_map]
  refine Parallel.foldlM h fun books books' hbooks l hl => ?_
  exact (hbooks.lend hb (hloans l hl) hp (some y) l.kind).bind fun _ _ _ _ hr => hr

/-- A move between places of this side goes in parallel: the questions that decide which way it goes
are answered alike. -/
theorem move (h : PartOf σ c.book w w') (hb : σ.SuitsBook c.book) (hp : σ.entry < p)
    (hy : σ.mine y.base = true) (hx : σ.mine x.base = true) :
    Parallel Fault.Alike (PartOf σ c.book) (move c w y x p) (move (σ.context c) w' y x p) := by
  have hvia : ∀ l ∈ Walk.dueFor c w y p, σ.mine l.via.base = true := by
    intro l hl
    obtain ⟨hmem, hkept⟩ := kept_of_dueFor hb hy hl
    exact (hb.fits l hmem).via.trans hkept
  rw [move_eq, move_eq, h.dueFor hb hy hp, List.isEmpty_map, h.isReference hb hx,
    h.isExclusiveReference hb hx, Side.context_policy,
    h.store.copies hx]
  refine (h.store.ensureInScope hy).bind fun _ _ _ _ _ => ?_
  split
  · refine (h.read hb hx hp).bind fun _ _ _ _ _ => (h.lendAll hb hp hvia).bind
      fun books books' _ _ hbooks => ?_
    split
    · exact hbooks.vacate hb hx hp
    · exact hbooks
  · split
    · exact (h.read hb hx hp).bind fun _ _ _ _ _ => h
    · exact h.vacate hb hx hp

/-- Whether a loan of this side forbids a write through it, the two walks tell alike, up to the
gist. -/
theorem unwritable? (h : PartOf σ c.book w w') (hb : σ.SuitsBook c.book) (hp : σ.entry < p)
    {l : Loan} (hl : σ.kept l.id = true) :
    (unwritable? (σ.context c) w' x p (σ.loan l)).map Violation.gist =
      (unwritable? c w x p l).map Violation.gist := by
  have hlast : ∀ other : Loan, (p < (σ.loan other).last) = (p < other.last) :=
    fun other => propext (Side.lt_point_iff hp)
  unfold Walk.unwritable?
  rw [show (σ.loan l).isExclusive = l.isExclusive from rfl]
  split
  · rfl
  · rw [Side.context_book, h.ledger.reborrows hb hl, List.find?_map]
    simp only [Function.comp_def, hlast, Option.map_map]
    rfl

/-- A write behind a reference of this side goes in parallel; the loans that were just closed count
in both walks. -/
theorem writeBehind (h : PartOf σ c.book w w') (hb : σ.SuitsBook c.book) (hp : σ.entry < p)
    (hx : σ.mine x.base = true) {closed : List Loan} (hclosed : ∀ l ∈ closed, l ∈ c.book.loans) :
    Parallel Fault.Alike (fun _ _ => True) (writeBehind c w closed x p)
      (writeBehind (σ.context c) w' (σ.loans closed) x p) := by
  refine (h.read hb hx hp).bind fun _ _ _ _ _ => ?_
  dsimp only
  rw [h.ledger.heldAt hb hx hclosed, List.isEmpty_map,
    Side.context_policy, h.store.ty? hx]
  split
  · split
    · exact parallel_refuseFlaw _
    · exact parallel_refuse rfl
    · trivial
  · refine parallel_refuse ?_
    rw [List.findSome?_map, List.map_findSome?, List.map_findSome?]
    refine findSome?_congr fun l hl => h.unwritable? hb hp ?_
    exact h.ledger.kept_of_heldAt hb hx hclosed hl

/-- A write to a place of this side goes in parallel. Whether it is the first one is asked of whole
variables only, where the stores agree. -/
theorem write (h : PartOf σ c.book w w') (hb : σ.SuitsBook c.book) (hp : σ.entry < p)
    (hx : σ.mine x.base = true) {closed : List Loan} (hclosed : ∀ l ∈ closed, l ∈ c.book.loans) :
    Parallel Fault.Alike (PartOf σ c.book) (write c w closed x p)
      (write (σ.context c) w' (σ.loans closed) x p) := by
  have hwaits : (x.isRoot && decide (w'.store.status x = .uninit)) =
      (x.isRoot && decide (w.store.status x = .uninit)) := by
    cases hroot : x.isRoot with
    | false => rfl
    | true => rw [decide_eq_decide.mpr (h.store.status_eq_uninit_iff hx hroot)]
  refine (h.store.ensureInScope hx).bind fun _ _ _ _ _ => ?_
  dsimp only
  rw [hwaits, h.liensOn hb hx hp]
  split
  · exact (h.writeBehind (x := x.holder) hb hp hx hclosed).bind fun _ _ _ _ _ => h
  · split
    · exact (h.store.fill hx).bind fun _ _ _ _ hstore => ⟨hstore, h.ledger.releaseUnder hp⟩
    · exact (h.store.overwrite hx σ.lien).bind fun _ _ _ _ hstore =>
        ⟨hstore, h.ledger.releaseUnder hp⟩

theorem settled (h : PartOf σ c.book w w') (hb : σ.SuitsBook c.book) (hp : σ.entry < p)
    (inclusive : Bool) :
    PartOf σ c.book (settled w p inclusive) (settled w' p inclusive) :=
  ⟨h.store.close _ _, h.ledger.strike_expired hb hp inclusive⟩

/-- The end of an operation goes in parallel: the loans that end here are closed, then the target is
written. -/
theorem conclude (h : PartOf σ c.book w w') (hb : σ.SuitsBook c.book) (hp : σ.entry < p)
    {target : Option Place} (htarget : ∀ x, target = some x → σ.mine x.base = true) :
    Parallel Fault.Alike (PartOf σ c.book) (conclude c w p target)
      (conclude (σ.context c) w' p target) := by
  have hsettled := h.settled hb hp true
  cases target with
  | none => exact hsettled
  | some x =>
    have hclosed : (w'.toBooks.settle p true).2 = σ.loans (w.toBooks.settle p true).2 :=
      h.ledger.expired hp true
    unfold Walk.conclude
    rw [hclosed]
    exact hsettled.write hb hp (htarget x rfl)
      fun l hl => h.ledger.known l (List.mem_filter.mp hl).1

/-- What an action does before its write goes in parallel, as long as it stays in its block: blocks
and returns concern both sides. -/
theorem perform (h : PartOf σ c.book w w') (hb : σ.SuitsBook c.book) (hp : σ.entry < p)
    {a : Action} (ha : ∀ x ∈ a.named, σ.mine x.base = true) (hstays : a.staysInBlock = true) :
    Parallel Fault.Alike (fun r r' => PartOf σ c.book r.1 r'.1 ∧ r'.2 = r.2) (perform c w p a)
      (perform (σ.context c) w' p a) := by
  cases a with
  | declare x ty =>
    exact (h.store.declare (ha x List.mem_cons_self) ty false).bind
      fun _ _ _ _ hstore => ⟨⟨hstore, h.ledger⟩, rfl⟩
  | assign x ys =>
    exact (Parallel.forM fun y hy => h.read hb (ha y (List.mem_cons_of_mem x hy)) hp).bind
      fun _ _ _ _ _ => ⟨h, rfl⟩
  | move y x =>
    exact (h.move hb hp (ha y List.mem_cons_self) (ha x (.tail y (.head _)))).bind
      fun _ _ _ _ hu => ⟨hu, rfl⟩
  | borrow kind y x =>
    exact (h.store.ensureInScope (ha y List.mem_cons_self)).bind fun _ _ _ _ _ =>
      (h.borrow hb (ha x (.tail y (.head _))) hp _ _).bind fun _ _ _ _ hu => ⟨hu, rfl⟩
  | deref x =>
    exact (h.follow hb (ha x List.mem_cons_self) hp).bind fun _ _ _ _ _ => ⟨h, rfl⟩
  | use x => exact (h.read hb (ha x List.mem_cons_self) hp).bind fun _ _ _ _ _ => ⟨h, rfl⟩
  | call args result =>
    have hargs : Parallel Fault.Alike (fun r r' => PartOf σ c.book r.1 r'.1 ∧ r'.2 = r.2)
        (do return (← args.foldlM (passArg c p) w, result))
        (do return (← args.foldlM (passArg (σ.context c) p) w', result)) :=
      (h.passAll hb hp fun d hd => ha d.place
        (List.mem_append_right _ (List.mem_map_of_mem hd))).bind fun _ _ _ _ hu => ⟨hu, rfl⟩
    cases result with
    | none => exact hargs
    | some y =>
      exact (h.store.ensureInScope (ha y List.mem_cons_self)).bind fun _ _ _ _ _ => hargs
  | ret _ | enter | exit => cases hstays

/-- **An operation of this side goes in parallel** in the two walks, once the loans that ended are
closed. -/
theorem step {op : Operation}
    (h : PartOf σ c.book (Walk.settled w op.point false) (Walk.settled w' op.point false))
    (hret : w.returned = none) (hret' : w'.returned = none) (hb : σ.SuitsBook c.book)
    (hp : σ.entry < op.point) (hop : ∀ x ∈ op.named, σ.mine x.base = true)
    (hstays : op.kind.staysInBlock = true) :
    Parallel Fault.Alike (PartOf σ c.book) (step c w op) (step (σ.context c) w' op) := by
  cases hact : op.action with
  | error gap =>
    rw [step_of_gap hret hact, step_of_gap hret' hact]
    exact parallel_refuseFlaw _
  | ok a =>
    have hnamed : ∀ x ∈ a.named, σ.mine x.base = true :=
      fun x hx => hop x (Operation.mem_named_of_action hact hx)
    have hperform := h.perform hb hp hnamed (Operation.staysInBlock_of_action hact hstays)
    rw [step_eq hret hact, step_eq hret' hact]
    refine hperform.bind fun r r' hr _ hpart => ?_
    rw [hpart.2]
    refine hpart.1.conclude hb hp fun x hx => hnamed x (Action.mem_named_of_written ?_)
    rw [← (perform_cases hr).2, hx]

end PartOf

end Walk

end BorrowCheck
