import BorrowCheck.Proofs.Ends
import BorrowCheck.Proofs.Picked
import Mathlib.Order.MinMax

/-!
# One side of a function

Some variables of a function may have nothing to do with the others: no operation mentions a
variable of the one and of the other kind. A `BorrowCheck.Side` is such a set of variables. The
loans in which they take part are then loans of them alone, and the survey of the function contains
the survey of its part that is about them: with other numbers, because the loans of the other side
are left out, and with another point of entry.

`BorrowCheck.Survey.PartOf` says this of two surveys. It has one lemma for each thing that an
operation does: if it is done on this side it is done in both surveys, and otherwise only in the
larger one. It carries over to the books of loans (`BorrowCheck.Survey.PartOf.book`).
-/

namespace BorrowCheck

/-- **One side of a function**: some variables, the numbers of their loans, and the point of entry
when the rest is left out. -/
structure Side where
  mine : String → Bool
  kept : Nat → Bool
  entry : Point

namespace Side

variable (σ : Side)

/-- The point that stands for `p`: nothing comes before the entry. -/
def point (p : Point) : Point :=
  max p σ.entry

/-- A loan as it is taken when the rest is left out. -/
def borrow (b : Borrow) : Borrow :=
  { b with origin := σ.point b.origin, parent := b.parent.map (rank σ.kept) }

/-- A loan when the rest is left out. -/
def loan (l : Loan) : Loan :=
  { σ.borrow l.toBorrow with id := rank σ.kept l.id, last := σ.point l.last }

/-- What the variables of this side hold. -/
def holders (m : Place.Map Nat) : Place.Map Nat :=
  { toList := (m.toList.filter fun e => σ.mine e.1.base).map fun e => (e.1, rank σ.kept e.2) }

/-- The loans of this side. -/
def loans (ls : List Loan) : List Loan :=
  (ls.filter fun l => σ.kept l.id).map σ.loan

/-- The book when the rest is left out. -/
def book (b : LoanBook) : LoanBook :=
  { loans := σ.loans b.loans }

/-- The loan with number `i` is **on one side**: all that it mentions is. -/
structure Fits (i : Nat) (b : Borrow) : Prop where
  via : σ.mine b.via.base = σ.kept i
  target : σ.mine b.target.base = σ.kept i
  borrower : ∀ y, b.borrower = some y → σ.mine y.base = σ.kept i
  parent : ∀ q, b.parent = some q → σ.kept q = σ.kept i

/-- Every loan of the survey is on one side, and held there. -/
structure Suits (s : Survey) : Prop where
  borrows : ∀ i b, s.borrows[i]? = some b → σ.Fits i b
  held : ∀ e ∈ s.holders.toList, σ.kept e.2 = σ.mine e.1.base

/-- The numbers tell on which side a loan was taken. -/
def Labels (s : Survey) : Prop :=
  ∀ i b, s.borrows[i]? = some b → σ.mine b.via.base = σ.kept i

variable {σ} {s t : Survey} {m : Place.Map Nat} {x : Place} {p q : Point} {b : Borrow}

/-- Points after the start stay as they are. -/
theorem point_of_lt (h : σ.entry < p) : σ.point p = p :=
  max_eq_left (le_of_lt h)

theorem point_max (p q : Point) : σ.point (max p q) = max (σ.point p) (σ.point q) :=
  sup_sup_distrib_right p q σ.entry

theorem point_lt_iff (h : σ.entry < p) : σ.point q < p ↔ q < p :=
  max_lt_iff.trans (and_iff_left h)

theorem lt_point_iff (h : σ.entry < p) : p < σ.point q ↔ p < q :=
  lt_max_iff.trans (or_iff_left (lt_asymm h))

theorem le_point_iff (h : σ.entry < p) : p ≤ σ.point q ↔ p ≤ q :=
  le_max_iff.trans (or_iff_left (not_le_of_gt h))

/-- A point after the start is told from the others as before. -/
theorem point_eq_iff (h : σ.entry < p) : σ.point q = p ↔ q = p := by
  constructor
  · intro hpoint
    rcases max_choice q σ.entry with heq | heq
    · exact heq.symm.trans hpoint
    · exact absurd (heq.symm.trans hpoint) (ne_of_lt h)
  · rintro rfl
    exact point_of_lt h

/-- Where the number of a loan is its position, those of this side are picked. -/
theorem loans_eq {ls : List Loan} (h : ∀ i (l : Loan), ls[i]? = some l → l.id = i) :
    σ.loans ls = (pick σ.kept ls).map σ.loan := by
  rw [loans, pick_eq_filter]
  intro i l hl
  rw [h i l hl]

/-! ### Holders -/

/-- A place of the side holds the same borrow under its new number. -/
theorem get?_holders (hx : σ.mine x.base = true) :
    (σ.holders m).get? x = (m.get? x).map (rank σ.kept) := by
  have htest : ∀ e : Place × Nat, (σ.mine e.1.base = true ∧ e.1.same x = true) ↔
      e.1.same x = true :=
    fun e => and_iff_right_of_imp fun hsame => by rw [Place.base_eq_of_same hsame, hx]
  rw [holders, Place.Map.get?, Place.Map.get?, List.find?_map, List.find?_filter]
  simp only [Function.comp_def, htest, Bool.decide_eq_true, Option.map_map]

theorem contains_holders (hx : σ.mine x.base = true) :
    (σ.holders m).contains x = m.contains x := by
  have hget := get?_holders (m := m) hx
  cases hm : m.contains x with
  | false =>
    rw [Place.Map.get?_eq_none_iff.mpr hm] at hget
    exact Place.Map.get?_eq_none_iff.mp hget
  | true =>
    by_contra hnot
    rw [Place.Map.get?_eq_none_iff.mpr (Bool.eq_false_iff.mpr hnot), eq_comm,
      Option.map_eq_none_iff, Place.Map.get?_eq_none_iff, hm] at hget
    cases hget

theorem fst_ite_same (x : Place) (a : Nat) (e : Place × Nat) :
    (if e.1.same x then (e.1, a) else e).1 = e.1 := by
  split <;> rfl

/-- What a place of the side holds is put before the selection or after it. -/
theorem holders_put (hx : σ.mine x.base = true) (a : Nat) :
    σ.holders (m.put x a) = (σ.holders m).put x (rank σ.kept a) := by
  rw [Place.Map.put, Place.Map.put, contains_holders hx]
  split
  · simp only [holders, List.filter_map, List.map_map, Function.comp_def, fst_ite_same]
    refine congrArg Place.Map.mk (List.map_congr_left fun e _ => ?_)
    split <;> rfl
  · simp [holders, hx]

/-- A key of the other side does not count. -/
theorem holders_put_of_not (hx : σ.mine x.base = false) (a : Nat) :
    σ.holders (m.put x a) = σ.holders m := by
  rw [Place.Map.put]
  split
  · simp only [holders, List.filter_map, List.map_map, Function.comp_def, fst_ite_same]
    refine congrArg Place.Map.mk (List.map_congr_left fun e he => ?_)
    have hmine := (List.mem_filter.mp he).2
    have hne : ¬e.1.same x = true := by
      intro hsame
      rw [Place.base_eq_of_same hsame, hx] at hmine
      cases hmine
    rw [if_neg hne]
  · simp [holders, hx]

theorem holders_keepKeys (m : Place.Map Nat) (keep : Place → Bool) :
    σ.holders (m.keepKeys keep) = (σ.holders m).keepKeys keep := by
  simp only [holders, Place.Map.keepKeys, List.filter_map, List.filter_filter, Function.comp_def,
    Bool.and_comm]

/-- To drop holders on the other side changes nothing on this one. -/
theorem holders_keepKeys_of_all {keep : Place → Bool}
    (h : ∀ y : Place, σ.mine y.base = true → keep y = true) :
    σ.holders (m.keepKeys keep) = σ.holders m := by
  have htest : ∀ e : Place × Nat, (σ.mine e.1.base && keep e.1) = σ.mine e.1.base := by
    intro e
    cases hmine : σ.mine e.1.base with
    | false => rfl
    | true => rw [h e.1 hmine]; rfl
  simp only [holders, Place.Map.keepKeys, List.filter_filter, htest]

/-! ### Suitable surveys -/

/-- Labels of a longer survey are labels of a shorter one. -/
theorem Labels.of_grows {P : Point → Prop} (h : σ.Labels t) (hgrow : s.Grows P t) : σ.Labels s :=
  fun i b hb => h i b (hgrow.getElem? hb)

theorem Suits.of_fewer (h : σ.Suits s) (hborrows : t.borrows = s.borrows)
    (hholders : ∀ e ∈ t.holders.toList, e ∈ s.holders.toList) : σ.Suits t :=
  ⟨hborrows ▸ h.borrows, fun e he => h.held e (hholders e he)⟩

/-- A new borrow has to fit the label of its number. -/
theorem Suits.take (h : σ.Suits s) (hb : σ.Fits s.borrows.length b) : σ.Suits (s.take b) := by
  refine ⟨fun i a ha => ?_, h.held⟩
  rw [Survey.take] at ha
  by_cases hi : i < s.borrows.length
  · rw [List.getElem?_append_left hi] at ha
    exact h.borrows i a ha
  · have hlt := (List.getElem?_eq_some_iff.mp ha).1
    rw [List.length_append, List.length_singleton] at hlt
    obtain rfl : i = s.borrows.length := by omega
    rw [List.getElem?_concat_length] at ha
    exact Option.some.inj ha ▸ hb

theorem Suits.define (h : σ.Suits s) (hb : σ.Fits s.borrows.length b)
    (hx : σ.mine x.base = σ.kept s.borrows.length) : σ.Suits (s.define x b) := by
  refine ⟨(h.take hb).borrows, fun e he => ?_⟩
  rcases Place.Map.mem_put he with ⟨hmem, -⟩ | ⟨hsame, hid⟩
  · exact h.held e hmem
  · rw [hid, Place.base_eq_of_same hsame, hx]

/-- What is held at a place is on the side of the place. -/
theorem Suits.kept_of_get? (h : σ.Suits s) {id : Nat} (hget : s.holders.get? x = some id) :
    σ.kept id = σ.mine x.base := by
  obtain ⟨e, he, hsame, rfl⟩ := Place.Map.exists_mem_of_get? hget
  rw [h.held e he, Place.base_eq_of_same hsame]

/-- The borrow that a place is reached through is on the side of the place. -/
theorem Suits.kept_of_cut (h : σ.Suits s) {ref : Place} {rest : List Proj} {id : Nat}
    (hcut : x.cut? = some (ref, rest)) (hget : s.holders.get? ref = some id) :
    σ.kept id = σ.mine x.base := by
  rw [h.kept_of_get? hget, Place.cut?_fst hcut]
  rfl

/-- What the holder of `x` refers to is on the side of `x`. -/
theorem Suits.followed (h : σ.Suits s) {ref : Place} {rest : List Proj} {id : Nat}
    (hcut : x.cut? = some (ref, rest)) (hget : s.holders.get? ref = some id)
    (hb : s.borrows[id]? = some b) :
    σ.kept id = σ.mine x.base ∧ σ.mine (b.target.append rest).base = σ.mine x.base := by
  have hkept := h.kept_of_cut hcut hget
  exact ⟨hkept, (h.borrows id b hb).target.trans hkept⟩

/-- A borrow stays on its side, however many references it goes through. -/
theorem Suits.referentBelow (h : σ.Suits s) (bound : Nat) (x : Place) :
    σ.mine (s.referentBelow bound x).1.base = σ.mine x.base ∧
      ∀ q, (s.referentBelow bound x).2 = some q → σ.kept q = σ.mine x.base := by
  have hnone : ∀ {c : Bool} q, (none : Option Nat) = some q → σ.kept q = c := by
    intro c q hq
    cases hq
  fun_induction Survey.referentBelow s bound x with
  | case1 bound x hcut => exact ⟨rfl, fun q hq => h.kept_of_get? hq⟩
  | case2 bound x ref rest hcut hget => exact ⟨rfl, hnone⟩
  | case3 bound x ref rest hcut id hget hlt hb => exact ⟨rfl, hnone⟩
  | case4 bound x ref rest hcut id hget hlt b hb inner hinner deeper parent hrec ih =>
    obtain ⟨-, hside⟩ := h.followed hcut hget hb
    rw [hrec, hside] at ih
    exact ih
  | case5 bound x ref rest hcut id hget hlt b hb inner hinner deeper hrec ih =>
    obtain ⟨hkept, hside⟩ := h.followed hcut hget hb
    exact ⟨hside, fun q hq => Option.some.inj hq ▸ hkept⟩
  | case6 bound x ref rest hcut id hget hlt b hb inner hinner =>
    obtain ⟨hkept, hside⟩ := h.followed hcut hget hb
    exact ⟨hside, fun q hq => Option.some.inj hq ▸ hkept⟩
  | case7 bound x ref rest hcut id hget hlt => exact ⟨rfl, hnone⟩

/-- A borrow of `x` is on the side of `x`, if its borrower is. -/
theorem Suits.borrowOf (h : σ.Suits s) {borrower : Option Place} {kind : BorrowKind} {i : Nat}
    (hx : σ.mine x.base = σ.kept i)
    (hborrower : ∀ y, borrower = some y → σ.mine y.base = σ.kept i) :
    σ.Fits i (s.borrowOf borrower kind x p) := by
  obtain ⟨htarget, hparent⟩ := h.referentBelow s.borrows.length x
  exact ⟨hx, htarget.trans hx, hborrower, fun q hq => (hparent q hq).trans hx⟩

end Side

/-! ### Parts of surveys -/

namespace Survey

/-- A move whose source holds no loan is a use and a write. -/
theorem move_of_not_held {s : Survey} {x y : Place} {p : Point}
    (h : ((s.holders.get? x).bind fun q => s.borrows[q]?) = none) :
    s.move (some y) x p = (s.touch x p).write y p := by
  cases hget : s.holders.get? x with
  | none => simp [move, write?, hget]
  | some q =>
    have hb : s.borrows[q]? = none := by rwa [hget] at h
    simp only [move, write?, borrows_touch, holders_touch, hget, Option.bind_eq_bind,
      Option.bind_some, hb, Option.bind_none]

/-- **The survey `s'` is the part of `s` on one side**: it has the loans of this side, renumbered,
its holders and its uses. -/
structure PartOf (σ : Side) (s s' : Survey) : Prop where
  suits : σ.Suits s
  borrows : s'.borrows = (pick σ.kept s.borrows).map σ.borrow
  holders : s'.holders = σ.holders s.holders
  uses : s'.uses =
    (s.uses.filter fun u => σ.kept u.1).map fun u => (rank σ.kept u.1, σ.point u.2)

namespace PartOf

variable {σ : Side} {s s' : Survey} {x y : Place} {p : Point} {b : Borrow} {c : Bool}

/-- The next number on the side is the rank of the next number. -/
theorem length_eq (h : PartOf σ s s') : s'.borrows.length = rank σ.kept s.borrows.length := by
  rw [h.borrows, List.length_map, length_pick]

/-- A borrow of the side is found under its rank. -/
theorem getElem? (h : PartOf σ s s') {i : Nat} (hi : σ.kept i = true) :
    s'.borrows[rank σ.kept i]? = (s.borrows[i]?).map σ.borrow := by
  rw [h.borrows, List.getElem?_map, getElem?_pick _ hi]

theorem get? (h : PartOf σ s s') (hx : σ.mine x.base = true) :
    s'.holders.get? x = (s.holders.get? x).map (rank σ.kept) := by
  rw [h.holders, Side.get?_holders hx]

/-- The reference that a place goes through is on its side. -/
theorem get?_of_cut (h : PartOf σ s s') {ref : Place} {rest : List Proj}
    (hcut : x.cut? = some (ref, rest)) (hx : σ.mine x.base = true) :
    s'.holders.get? ref = (s.holders.get? ref).map (rank σ.kept) := by
  refine h.get? ?_
  rwa [Place.cut?_fst hcut]

/-- To touch a place uses borrows of its own side only. -/
theorem touch (h : PartOf σ s s') (hx : σ.mine x.base = c) (hp : c = true → σ.entry < p) :
    PartOf σ (s.touch x p) (cond c (s'.touch x p) s') := by
  have hsuits : σ.Suits (s.touch x p) := h.suits.of_fewer rfl fun _ he => he
  -- the uses of this side are those of its holders
  have hnew : (((s.holders.toList.filter fun e => e.1.overlaps x).map fun e => (e.2, p)).filter
      fun u => σ.kept u.1) =
      ((s.holders.toList.filter fun e => σ.mine e.1.base && e.1.overlaps x).map
        fun e => (e.2, p)) := by
    rw [List.filter_map, List.filter_filter]
    refine congrArg (List.map _) (List.filter_congr fun e he => ?_)
    rw [Function.comp_apply, h.suits.held e he]
  refine ⟨hsuits, by cases c <;> exact h.borrows, by cases c <;> exact h.holders, ?_⟩
  rw [show (s.touch x p).uses = s.uses ++ _ from rfl, List.filter_append, hnew, List.map_append,
    ← h.uses]
  cases c with
  | true =>
    refine congrArg (s'.uses ++ ·) ?_
    simp only [h.holders, Side.holders, List.filter_map, List.filter_filter, List.map_map,
      Function.comp_def, Side.point_of_lt (hp rfl), Bool.and_comm]
  | false =>
    have hnone : (s.holders.toList.filter fun e => σ.mine e.1.base && e.1.overlaps x) = [] := by
      rw [List.filter_eq_nil_iff]
      intro e _ he
      rw [Bool.and_eq_true] at he
      rw [Place.base_eq_of_overlaps he.2, hx] at he
      cases he.1
    rw [hnone, List.map_nil, List.map_nil, List.append_nil]
    rfl

theorem touchAll (h : PartOf σ s s') {xs : List Place} (hxs : ∀ x ∈ xs, σ.mine x.base = c)
    (hp : c = true → σ.entry < p) :
    PartOf σ (s.touchAll xs p) (cond c (s'.touchAll xs p) s') := by
  induction xs generalizing s s' with
  | nil => cases c <;> exact h
  | cons x xs ih =>
    rw [List.forall_mem_cons] at hxs
    have hrest := ih (h.touch hxs.1 hp) hxs.2
    cases c <;> exact hrest

/-- A place that is written holds nothing any more, on its own side. -/
theorem forget (h : PartOf σ s s') (hx : σ.mine x.base = c) :
    PartOf σ (s.forget x) (cond c (s'.forget x) s') := by
  have hsuits : σ.Suits (s.forget x) :=
    h.suits.of_fewer rfl fun e he => (Place.Map.mem_keepKeys.mp he).1
  cases c with
  | true =>
    refine ⟨hsuits, h.borrows, ?_, h.uses⟩
    rw [Survey.forget, Survey.forget, Side.holders_keepKeys, ← h.holders]
    rfl
  | false =>
    refine ⟨hsuits, h.borrows, h.holders.trans (Side.holders_keepKeys_of_all ?_).symm, h.uses⟩
    intro y hy
    rw [Bool.not_eq_true', Bool.eq_false_iff]
    intro hpre
    rw [← (Place.isPrefixOf_iff.mp hpre).1, hx] at hy
    cases hy

/-- A write forgets what was held, or uses the reference that it goes through. -/
theorem write (h : PartOf σ s s') (hx : σ.mine x.base = c) (hp : c = true → σ.entry < p) :
    PartOf σ (s.write x p) (cond c (s'.write x p) s') := by
  unfold Survey.write
  cases hcut : x.cut? with
  | none => exact h.forget hx
  | some cut =>
    obtain ⟨ref, rest⟩ := cut
    have href : σ.mine ref.base = c := by
      rw [Place.cut?_fst hcut]
      exact hx
    exact h.touch href hp

theorem write? (h : PartOf σ s s') {target : Option Place}
    (ht : ∀ x, target = some x → σ.mine x.base = c) (hp : c = true → σ.entry < p) :
    PartOf σ (s.write? target p) (cond c (s'.write? target p) s') := by
  cases target with
  | none => cases c <;> exact h
  | some x => exact h.write (ht x rfl) hp

/-- A borrow is added on the side that its number is labelled with. -/
theorem take (h : PartOf σ s s') (hb : σ.Fits s.borrows.length b)
    (hc : σ.kept s.borrows.length = c) :
    PartOf σ (s.take b) (cond c (s'.take (σ.borrow b)) s') := by
  have hsuits := h.suits.take hb
  have hborrows : pick σ.kept (s.borrows ++ [b]) = pick σ.kept s.borrows ++ cond c [b] [] := by
    rw [pick_concat, hc]
    cases c <;> rfl
  have huses : ((b.parent.map fun parent => (parent, b.origin)).toList.filter fun u => σ.kept u.1) =
      cond c (b.parent.map fun parent => (parent, b.origin)).toList [] := by
    cases hparent : b.parent with
    | none => cases c <;> rfl
    | some q => cases c <;> simp [hb.parent q hparent, hc]
  refine ⟨hsuits, ?_, by cases c <;> exact h.holders, ?_⟩
  · rw [show (s.take b).borrows = s.borrows ++ [b] from rfl, hborrows, List.map_append,
      ← h.borrows]
    cases c with
    | true => rfl
    | false => exact (List.append_nil _).symm
  · rw [show (s.take b).uses = s.uses ++ _ from rfl, List.filter_append, huses, List.map_append,
      ← h.uses]
    cases c with
    | true =>
      refine congrArg (s'.uses ++ ·) ?_
      cases hparent : b.parent <;> simp [Side.borrow, hparent]
    | false => exact (List.append_nil _).symm

theorem define (h : PartOf σ s s') (hb : σ.Fits s.borrows.length b)
    (hc : σ.kept s.borrows.length = c) (hx : σ.mine x.base = c) :
    PartOf σ (s.define x b) (cond c (s'.define x (σ.borrow b)) s') := by
  have htake := h.take hb hc
  have hsuits := h.suits.define hb (hx.trans hc.symm)
  cases c with
  | true =>
    refine ⟨hsuits, htake.borrows, ?_, htake.uses⟩
    calc s'.holders.put x s'.borrows.length
        = (σ.holders s.holders).put x (rank σ.kept s.borrows.length) := by
          rw [h.holders, h.length_eq]
      _ = σ.holders (s.holders.put x s.borrows.length) := (Side.holders_put hx _).symm
  | false =>
    exact ⟨hsuits, htake.borrows, h.holders.trans (Side.holders_put_of_not hx _).symm, htake.uses⟩

/-- A borrow of a place of this side stands for the same place, and is taken through the same
loan. -/
theorem referentBelow (h : PartOf σ s s') (bound : Nat) (x : Place)
    (hx : σ.mine x.base = true) :
    s'.referentBelow (rank σ.kept bound) x =
      ((s.referentBelow bound x).1, (s.referentBelow bound x).2.map (rank σ.kept)) := by
  fun_induction Survey.referentBelow s bound x with
  | case1 bound x hcut => rw [Survey.referentBelow, hcut, h.get? hx]
  | case2 bound x ref rest hcut hget =>
    rw [Survey.referentBelow, hcut]
    simp only [h.get?_of_cut hcut hx, hget, Option.map_none]
  | case3 bound x ref rest hcut id hget hlt hb =>
    have hid := (h.suits.kept_of_cut hcut hget).trans hx
    rw [Survey.referentBelow, hcut]
    simp only [h.get?_of_cut hcut hx, hget, Option.map_some, (rank_lt_iff hid).mpr hlt, if_true,
      h.getElem? hid, hb, Option.map_none]
  | case4 bound x ref rest hcut id hget hlt b hb inner hinner deeper parent hrec ih =>
    obtain ⟨hid, hside⟩ := h.suits.followed hcut hget hb
    have ih := ih (hside.trans hx)
    rw [hx] at hid
    rw [hrec] at ih
    rw [Survey.referentBelow, hcut]
    simp only [h.get?_of_cut hcut hx, hget, Option.map_some, (rank_lt_iff hid).mpr hlt, if_true,
      h.getElem? hid, hb, show (σ.borrow b).target.append rest = inner from rfl, hinner, ih]
  | case5 bound x ref rest hcut id hget hlt b hb inner hinner deeper hrec ih =>
    obtain ⟨hid, hside⟩ := h.suits.followed hcut hget hb
    have ih := ih (hside.trans hx)
    rw [hx] at hid
    rw [hrec] at ih
    rw [Survey.referentBelow, hcut]
    simp only [h.get?_of_cut hcut hx, hget, Option.map_some, (rank_lt_iff hid).mpr hlt, if_true,
      h.getElem? hid, hb, show (σ.borrow b).target.append rest = inner from rfl, hinner, ih,
      Option.map_none]
  | case6 bound x ref rest hcut id hget hlt b hb inner hinner =>
    obtain ⟨hid, -⟩ := h.suits.followed hcut hget hb
    rw [hx] at hid
    rw [Survey.referentBelow, hcut]
    simp only [h.get?_of_cut hcut hx, hget, Option.map_some, (rank_lt_iff hid).mpr hlt, if_true,
      h.getElem? hid, hb, show (σ.borrow b).target.append rest = inner from rfl, hinner,
      Bool.false_eq_true, if_false]
  | case7 bound x ref rest hcut id hget hlt =>
    have hid := (h.suits.kept_of_cut hcut hget).trans hx
    rw [Survey.referentBelow, hcut]
    simp only [h.get?_of_cut hcut hx, hget, Option.map_some, rank_lt_iff hid, hlt, if_false,
      Option.map_none]

/-- The same borrow is taken on the side, its parent under a new number. -/
theorem borrowOf (h : PartOf σ s s') (hx : σ.mine x.base = true) (hp : σ.entry < p)
    (borrower : Option Place) (kind : BorrowKind) :
    s'.borrowOf borrower kind x p = σ.borrow (s.borrowOf borrower kind x p) := by
  simp only [Survey.borrowOf, Survey.referent, h.length_eq, h.referentBelow _ _ hx, Side.borrow,
    Side.point_of_lt hp]

/-- An argument is passed on its side. -/
theorem pass (h : PartOf σ s s') {a : Arg} (ha : σ.mine a.place.base = c)
    (hp : c = true → σ.entry < p) (hlabels : σ.Labels (Survey.pass p s a)) :
    PartOf σ (Survey.pass p s a) (cond c (Survey.pass p s' a) s') := by
  simp only [Survey.pass] at hlabels ⊢
  have htouch := h.touch ha hp
  cases hmode : a.mode with
  | value => exact htouch
  | lend kind =>
    simp only [hmode] at hlabels
    have hc : c = σ.kept s.borrows.length :=
      ha.symm.trans (hlabels s.borrows.length _ List.getElem?_concat_length)
    have hfits : σ.Fits s.borrows.length ((s.touch a.place p).borrowOf none kind a.place p) :=
      htouch.suits.borrowOf (ha.trans hc) (by simp)
    have htake := htouch.take hfits hc.symm
    cases c with
    | true =>
      rw [← htouch.borrowOf ha (hp rfl)] at htake
      exact htake
    | false => exact htake

/-- The arguments of a call are all on one side; the induction is on their list. -/
theorem passAll (h : PartOf σ s s') {args : List Arg}
    (hargs : ∀ a ∈ args, σ.mine a.place.base = c)
    (hp : c = true → σ.entry < p) (hlabels : σ.Labels (args.foldl (Survey.pass p) s)) :
    PartOf σ (args.foldl (Survey.pass p) s) (cond c (args.foldl (Survey.pass p) s') s') := by
  induction args generalizing s s' with
  | nil => cases c <;> exact h
  | cons a args ih =>
    rw [List.forall_mem_cons] at hargs
    have hgrow : (Survey.pass p s a).Grows (· = p)
        (args.foldl (Survey.pass p) (Survey.pass p s a)) :=
      grows_foldl _ fun _ _ _ => grows_pass
    have hrest := ih (h.pass hargs.1 hp (hlabels.of_grows hgrow)) hargs.2 hlabels
    cases c <;> exact hrest

theorem lend (h : PartOf σ s s') {kind : BorrowKind} (hy : σ.mine y.base = c)
    (hx : σ.mine x.base = c) (hp : c = true → σ.entry < p)
    (hlabels : σ.Labels (s.lend kind y x p)) :
    PartOf σ (s.lend kind y x p) (cond c (s'.lend kind y x p) s') := by
  have htouch := h.touch hx hp
  have hwrite := htouch.write hy hp
  have hc : c = σ.kept ((s.touch x p).write y p).borrows.length :=
    hx.symm.trans (hlabels _ _ List.getElem?_concat_length)
  have hfits : σ.Fits ((s.touch x p).write y p).borrows.length
      ((s.touch x p).borrowOf (some y) kind x p) :=
    htouch.suits.borrowOf (hx.trans hc) fun z hz => Option.some.inj hz ▸ hy.trans hc
  have hdefine := hwrite.define hfits hc.symm hy
  cases c with
  | true =>
    rw [← htouch.borrowOf hx (hp rfl)] at hdefine
    exact hdefine
  | false => exact hdefine

/-- A move stays on one side, and with it the reborrow. -/
theorem move (h : PartOf σ s s') {target : Option Place}
    (ht : ∀ y, target = some y → σ.mine y.base = c) (hx : σ.mine x.base = c)
    (hp : c = true → σ.entry < p) (hlabels : σ.Labels (s.move target x p)) :
    PartOf σ (s.move target x p) (cond c (s'.move target x p) s') := by
  have hwrite := (h.touch hx hp).write? ht hp
  cases target with
  | none => cases c <;> exact hwrite
  | some y =>
    have hy := ht y rfl
    have hfound : c = true → ((s'.holders.get? x).bind fun q => s'.borrows[q]?) =
        ((s.holders.get? x).bind fun q => s.borrows[q]?).map σ.borrow := by
      rintro rfl
      rw [h.get? hx]
      cases hget : s.holders.get? x with
      | none => rfl
      | some q => exact h.getElem? ((h.suits.kept_of_get? hget).trans hx)
    cases hheld : (s.holders.get? x).bind fun q => s.borrows[q]? with
    | none =>
      rw [hheld] at hfound
      rw [move_of_not_held hheld]
      cases c with
      | true =>
        rw [cond_true, move_of_not_held (hfound rfl)]
        exact hwrite
      | false => exact hwrite
    | some b =>
      obtain ⟨q, hget, hb⟩ := Option.bind_eq_some_iff.mp hheld
      have hq : σ.kept q = c := (h.suits.kept_of_get? hget).trans hx
      rw [move_of_held hget hb] at hlabels ⊢
      have hc : c = σ.kept ((s.touch x p).write y p).borrows.length :=
        hx.symm.trans (hlabels _ _ List.getElem?_concat_length)
      have hfits : σ.Fits ((s.touch x p).write y p).borrows.length (b.handedOn q y x p) :=
        ⟨hx.trans hc, (h.suits.borrows q b hb).target.trans (hq.trans hc),
          fun z hz => Option.some.inj hz ▸ hy.trans hc,
          fun r hr => Option.some.inj hr ▸ hq.trans hc⟩
      have hdefine := hwrite.define hfits hc.symm hy
      cases c with
      | true =>
        have hget' : s'.holders.get? x = some (rank σ.kept q) := by
          rw [h.get? hx, hget]
          rfl
        have hb' : s'.borrows[rank σ.kept q]? = some (σ.borrow b) := by
          rw [h.getElem? hq, hb]
          rfl
        have hhanded : (σ.borrow b).handedOn (rank σ.kept q) y x p =
            σ.borrow (b.handedOn q y x p) := by
          rw [Borrow.handedOn, Borrow.handedOn, Side.borrow, Side.borrow, Side.point_of_lt (hp rfl)]
          rfl
        rw [cond_true, move_of_held hget' hb', hhanded]
        exact hdefine
      | false => exact hdefine

end PartOf

end Survey

/-- The places that an operation names. -/
def Operation.named (op : Operation) : List Place :=
  op.target.toList ++ op.sources ++ op.args.map Arg.place

namespace Survey

namespace PartOf

variable {σ : Side} {s s' : Survey} {op : Operation} {c : Bool}

/-- **An operation on one side** is observed in the part if the side is this one. -/
theorem observe (h : PartOf σ s s') (hop : ∀ x ∈ op.named, σ.mine x.base = c)
    (hp : c = true → σ.entry < op.point) (hexit : op.kind ≠ .exit)
    (hlabels : σ.Labels (s.observe op)) :
    PartOf σ (s.observe op) (cond c (s'.observe op) s') := by
  have htarget : ∀ x, op.target = some x → σ.mine x.base = c :=
    fun x hx => hop x (by simp [Operation.named, hx])
  have hplaces : ∀ x ∈ op.sources, σ.mine x.base = c :=
    fun x hx => hop x (by simp [Operation.named, hx])
  have hsource : ∀ x, op.source = some x → σ.mine x.base = c :=
    fun x hx => hplaces x (Operation.mem_sources_of_source hx)
  have hargs : ∀ a ∈ op.args, σ.mine a.place.base = c :=
    fun a ha => hop a.place (List.mem_append_right _ (List.mem_map_of_mem ha))
  unfold Survey.observe at hlabels ⊢
  cases hkind : op.kind with
  | declare =>
    simp only
    cases hx : op.target with
    | none => cases c <;> exact h
    | some x =>
      have hforget := h.forget (htarget x hx)
      cases c <;> exact ⟨⟨hforget.suits.borrows, hforget.suits.held⟩, hforget.borrows,
        hforget.holders, hforget.uses⟩
  | assign =>
    have hwrite := (h.touchAll hplaces hp).write? htarget hp
    cases c <;> exact hwrite
  | move =>
    simp only [hkind] at hlabels ⊢
    cases hx : op.source with
    | none => cases c <;> exact h
    | some x =>
      simp only [hx] at hlabels
      exact h.move htarget (hsource x hx) hp hlabels
  | borrow kind =>
    simp only [hkind] at hlabels ⊢
    cases hy : op.target with
    | none => cases c <;> exact h
    | some y =>
      cases hx : op.source with
      | none => cases c <;> exact h
      | some x =>
        simp only [hx, hy] at hlabels
        exact h.lend (htarget y hy) (hsource x hx) hp hlabels
  | deref | use | ret => exact h.touchAll hplaces hp
  | call =>
    simp only [hkind] at hlabels ⊢
    have hpass := h.passAll hargs hp (hlabels.of_grows (grows_write? (P := fun _ => True)))
    have hwrite := hpass.write? htarget hp
    cases c <;> exact hwrite
  | enter =>
    cases c <;> exact ⟨⟨h.suits.borrows, h.suits.held⟩, h.borrows, h.holders, h.uses⟩
  | exit => exact absurd hkind hexit
  | unknown tag => cases c <;> exact h

/-- Operations, each on one side. Those at the positions of `own` are on this one. -/
theorem observeAll (h : PartOf σ s s') {own : Nat → Bool} {ops : List Operation}
    (hsides : ∀ i op, ops[i]? = some op → ∀ x ∈ op.named, σ.mine x.base = own i)
    (hpoints : ∀ i op, ops[i]? = some op → own i = true → σ.entry < op.point)
    (hexit : ∀ op ∈ ops, op.kind ≠ .exit) (hlabels : σ.Labels (ops.foldl Survey.observe s)) :
    PartOf σ (ops.foldl Survey.observe s) ((pick own ops).foldl Survey.observe s') := by
  induction ops generalizing s s' own with
  | nil => exact h
  | cons op ops ih =>
    rw [List.forall_mem_cons] at hexit
    have hgrow : (s.observe op).Grows (fun _ => True) (ops.foldl Survey.observe (s.observe op)) :=
      grows_foldl _ fun s op _ => (grows_observe s op).mono fun _ _ => trivial
    have hop := h.observe (hsides 0 op rfl) (hpoints 0 op rfl) hexit.1 (hlabels.of_grows hgrow)
    have hrest := ih hop (fun i o ho => hsides (i + 1) o ho)
      (fun i o ho => hpoints (i + 1) o ho) hexit.2 hlabels
    rw [pick]
    cases hown : own 0 <;> rw [hown] at hrest <;> exact hrest

/-- A parameter belongs to one side, with what the caller lends for it. -/
theorem receive (h : PartOf σ s s') {param : Param} {e : Point} (hc : σ.mine param.name = c)
    (hcaller : σ.mine (Place.ofCaller param.name).base = c) (he : e ≤ σ.entry)
    (hlabels : σ.Labels (Survey.receive e s param)) :
    PartOf σ (Survey.receive e s param) (cond c (Survey.receive σ.entry s' param) s') := by
  have h' : PartOf σ { s with scopes := s.scopes.declare param.name }
      { s' with scopes := s'.scopes.declare param.name } :=
    ⟨⟨h.suits.borrows, h.suits.held⟩, h.borrows, h.holders, h.uses⟩
  unfold Survey.receive at hlabels ⊢
  cases hkind : param.ty.ref with
  | none => cases c <;> exact ⟨h'.suits, h.borrows, h.holders, h.uses⟩
  | some kind =>
    simp only [hkind] at hlabels
    have hlen : c = σ.kept s.borrows.length :=
      hc.symm.trans (hlabels s.borrows.length _ List.getElem?_concat_length)
    have hdefine := h'.define (x := { base := param.name })
      (b := { borrower := some { base := param.name }, kind, origin := e,
              target := Place.ofCaller param.name, via := Place.deref { base := param.name } })
      ⟨hc.trans hlen, hcaller.trans hlen, fun y hy => Option.some.inj hy ▸ hc.trans hlen, nofun⟩
      hlen.symm hc
    cases c with
    | true =>
      have hpoint : σ.point e = σ.entry := max_eq_right he
      simp only [Side.borrow, hpoint] at hdefine
      exact hdefine
    | false => exact ⟨hdefine.suits, hdefine.borrows, hdefine.holders, hdefine.uses⟩

/-- Of the parameters, those of the side are received; the induction is on their list. -/
theorem receiveAll (h : PartOf σ s s') {params : List Param} {e : Point}
    (hcaller : ∀ param ∈ params,
      σ.mine (Place.ofCaller param.name).base = σ.mine param.name) (he : e ≤ σ.entry)
    (hlabels : σ.Labels (params.foldl (Survey.receive e) s)) :
    PartOf σ (params.foldl (Survey.receive e) s)
      ((params.filter fun param => σ.mine param.name).foldl (Survey.receive σ.entry) s') := by
  induction params generalizing s s' with
  | nil => exact h
  | cons param params ih =>
    rw [List.forall_mem_cons] at hcaller
    have hgrow : (Survey.receive e s param).Grows (· = e)
        (params.foldl (Survey.receive e) (Survey.receive e s param)) :=
      grows_foldl _ fun _ _ _ => grows_receive
    have hrest := ih (h.receive rfl hcaller.1 he (hlabels.of_grows hgrow)) hcaller.2 hlabels
    rw [List.filter_cons]
    cases hmine : σ.mine param.name <;> rw [hmine] at hrest <;> exact hrest

theorem empty (σ : Side) : PartOf σ {} {} :=
  ⟨⟨nofun, nofun⟩, rfl, rfl, rfl⟩

end PartOf

end Survey

/-! ### Ends of loans -/

namespace Side

/-- The ends of the loans of this side. -/
def ends (σ : Side) (es : List Point) : List Point :=
  (pick σ.kept es).map σ.point

variable {σ : Side} {b : Borrow} {es : List Point} {id : Nat}

theorem foldl_max (us : List (Nat × Point)) (q : Point) :
    (us.map fun u => (rank σ.kept u.1, σ.point u.2)).foldl (fun p u => max p u.2) (σ.point q) =
      σ.point (us.foldl (fun p u => max p u.2) q) := by
  induction us generalizing q with
  | nil => rfl
  | cons u us ih => rw [List.map_cons, List.foldl_cons, List.foldl_cons, ← ih, Side.point_max]

theorem getElem?_ends (hid : σ.kept id = true) :
    (σ.ends es)[rank σ.kept id]? = (es[id]?).map σ.point := by
  rw [Side.ends, List.getElem?_map, getElem?_pick _ hid]

theorem getD_ends (hid : σ.kept id = true) (hlt : id < es.length) (p q : Point) :
    (σ.ends es).getD (rank σ.kept id) p = σ.point (es.getD id q) := by
  rw [List.getD_eq_getElem?_getD, List.getD_eq_getElem?_getD, getElem?_ends hid,
    List.getElem?_eq_getElem hlt]
  rfl

theorem ends_handOn (hid : σ.kept id = true) (hlt : id < es.length)
    (hparent : ∀ q, b.parent = some q → σ.kept q = true) :
    σ.ends (Survey.handOn b id es) = Survey.handOn (σ.borrow b) (rank σ.kept id) (σ.ends es) := by
  unfold Survey.handOn
  cases hb : b.parent with
  | none => simp [Side.borrow, hb]
  | some q =>
    simp only [Side.borrow, hb, Option.map_some, getD_ends hid hlt _ b.origin]
    rw [Side.ends, Side.ends, pick_modify _ _ (hparent q hb)]
    exact map_modify (fun a => point_max a _) _ _

/-- A loan of the other side hands its end on there. -/
theorem ends_handOn_of_not (hparent : ∀ q, b.parent = some q → σ.kept q = false) :
    σ.ends (Survey.handOn b id es) = σ.ends es := by
  unfold Survey.handOn
  cases hb : b.parent with
  | none => rfl
  | some q => rw [Side.ends, pick_modify_of_not _ _ (hparent q hb), Side.ends]

/-- Ends are handed down from the youngest borrow to the oldest, and never from one side to the
other. -/
theorem ends_handDown {bs : List Borrow} {k : Nat} (hlen : k + bs.length ≤ es.length)
    (hparent : ∀ i b q, bs[i]? = some b → b.parent = some q → σ.kept q = σ.kept (i + k)) :
    σ.ends (Survey.handDown bs k es) =
      Survey.handDown ((pick (fun i => σ.kept (i + k)) bs).map σ.borrow) (rank σ.kept k)
        (σ.ends es) := by
  induction bs generalizing k with
  | nil => rfl
  | cons b bs ih =>
    have hshift : (fun i => σ.kept (i + 1 + k)) = fun i => σ.kept (i + (k + 1)) := by
      funext i
      rw [Nat.add_assoc, Nat.add_comm 1 k]
    rw [List.length_cons] at hlen
    have hrest := ih (k := k + 1) (by omega) fun i a q ha hq => by
      rw [← congrFun hshift i]
      exact hparent (i + 1) a q ha hq
    have hb : ∀ q, b.parent = some q → σ.kept q = σ.kept k := fun q hq => by
      rw [hparent 0 b q rfl hq, Nat.zero_add]
    rw [Survey.handDown_cons, pick, hshift, Nat.zero_add]
    cases hkept : σ.kept k with
    | true =>
      have hlt : k < (Survey.handDown bs (k + 1) es).length := by
        rw [Survey.length_handDown]
        omega
      rw [ends_handOn hkept hlt fun q hq => (hb q hq).trans hkept, hrest, if_pos rfl,
        List.map_cons, Survey.handDown_cons, rank, hkept]
      rfl
    | false =>
      rw [ends_handOn_of_not fun q hq => (hb q hq).trans hkept, hrest, if_neg Bool.false_ne_true,
        rank, hkept]
      rfl

end Side

namespace Survey.PartOf

variable {σ : Side} {s s' : Survey} {i : Nat}

/-- A borrow has the same own uses on the side. -/
theorem ownEnd (h : PartOf σ s s') (hi : σ.kept i = true) (b : Borrow) :
    s'.ownEnd (rank σ.kept i) (σ.borrow b) = σ.point (s.ownEnd i b) := by
  have huses : (s'.uses.filter fun u => u.1 = rank σ.kept i) =
      (s.uses.filter fun u => u.1 = i).map fun u => (rank σ.kept u.1, σ.point u.2) := by
    rw [h.uses, List.filter_map, List.filter_filter]
    refine congrArg (List.map _) (List.filter_congr fun u _ => ?_)
    rw [Function.comp_apply, Bool.eq_iff_iff, Bool.and_eq_true, decide_eq_true_iff,
      decide_eq_true_iff]
    constructor
    · rintro ⟨hrank, hu⟩
      exact (rank_inj hu hi).mp hrank
    · rintro rfl
      exact ⟨rfl, hi⟩
  unfold Survey.ownEnd
  rw [huses, show (σ.borrow b).temporary = b.temporary from rfl]
  split
  · rfl
  · exact Side.foldl_max _ _

/-- The borrows of the side end where they did. -/
theorem ends_eq (h : PartOf σ s s') : s'.ends = σ.ends s.ends := by
  have hown : (s'.borrows.zipIdx.map fun e => s'.ownEnd e.2 e.1) =
      σ.ends (s.borrows.zipIdx.map fun e => s.ownEnd e.2 e.1) := by
    refine eq_map_pick (by simp [h.length_eq]) fun i p hi hp => ?_
    obtain ⟨b, hb, rfl⟩ : ∃ b, s.borrows[i]? = some b ∧ s.ownEnd i b = p := by
      simpa [List.getElem?_zipIdx] using hp
    have hb' : s'.borrows[rank σ.kept i]? = some (σ.borrow b) := by
      rw [h.getElem? hi, hb]
      rfl
    simp [List.getElem?_zipIdx, hb', h.ownEnd hi]
  rw [Survey.ends_eq, Survey.ends_eq, hown, Side.ends_handDown (by simp), h.borrows]
  · rfl
  · exact fun i b q hb hq => (h.suits.borrows i b hb).parent q hq

/-- **The book of the part** has the loans of this side. -/
theorem book (h : PartOf σ s s') : s'.book = σ.book s.book := by
  have hid : ∀ i (l : Loan), s.book.loans[i]? = some l → l.id = i := by
    intro i l hl
    obtain ⟨b, -, -, hid, -⟩ := exists_of_book_get? hl
    exact hid
  refine congrArg LoanBook.mk (?_ : s'.book.loans = _)
  rw [Side.loans_eq hid]
  refine eq_map_pick (by rw [length_book, length_book, h.length_eq]) fun i l hi hl => ?_
  obtain ⟨b, hb, rfl, rfl, hlast⟩ := exists_of_book_get? hl
  have hlt : l.id < s.ends.length := by
    rw [length_ends]
    exact (List.getElem?_eq_some_iff.mp hb).1
  refine (book_get? s' (rank σ.kept l.id)).trans ?_
  rw [h.getElem? hi, hb, h.ends_eq, Side.getD_ends hi hlt 0 0, ← hlast]
  rfl

end Survey.PartOf

end BorrowCheck
