import BorrowCheck.Proofs.Sound
import Mathlib.Data.Int.Order.Basic
import Mathlib.Data.List.Basic

/-!
# How long loans last

The ends of loans are settled from the youngest loan to the oldest, each handing its end on to the
loan that it was taken through. One pass is enough because a loan is older than those taken
through it: when its turn comes, all of them have handed on theirs. So in the book of a function
(`BorrowCheck.LoanBook.Sound`)

* a loan lasts from its origin to its last use, and at least as long as the loans that were taken
  through it;
* a loan for the length of a call ends where it begins.

A survey of the first operations is recorded by the book of the whole body
(`BorrowCheck.Survey.RecordedBy`): its loans stand there with the same numbers, and its uses are
covered.
-/

namespace BorrowCheck

namespace Survey

/-! ### Handing on -/

/-- The ends after the loans `bs`, numbered from `k`, handed theirs on, the last one first. -/
def handDown (bs : List Borrow) (k : Nat) (ends : List Point) : List Point :=
  (bs.zipIdx k).foldr (fun e ends => handOn e.1 e.2 ends) ends

@[simp] theorem handDown_cons (b : Borrow) (bs : List Borrow) (k : Nat) (ends : List Point) :
    handDown (b :: bs) k ends = handOn b k (handDown bs (k + 1) ends) := rfl

@[simp] theorem length_handOn (b : Borrow) (id : Nat) (ends : List Point) :
    (handOn b id ends).length = ends.length := by
  unfold handOn
  split
  · rfl
  · rw [List.length_modify]

/-- Handing on raises the end of the loan it was taken through, and no other. -/
theorem getD_handOn {b : Borrow} {id i : Nat} {ends : List Point} (hi : i < ends.length)
    (hid : id < ends.length) :
    (handOn b id ends).getD i 0 =
      if b.parent = some i then max (ends.getD i 0) (ends.getD id 0) else ends.getD i 0 := by
  have hdef : ends.getD id b.origin = ends.getD id 0 := by
    simp [List.getD_eq_getElem?_getD, hid]
  unfold handOn
  split
  next hnone => simp [hnone]
  next q hq =>
    rw [List.getD_eq_getElem?_getD, List.getElem?_modify, hdef]
    by_cases hqi : q = i
    · subst hqi
      simp [hq, hi, List.getD_eq_getElem?_getD]
    · simp [hq, hqi, List.getD_eq_getElem?_getD]

@[simp] theorem length_handDown (bs : List Borrow) (k : Nat) (ends : List Point) :
    (handDown bs k ends).length = ends.length := by
  induction bs generalizing k with
  | nil => rfl
  | cons b bs ih => rw [handDown_cons, length_handOn, ih]

/-- Handing on never shortens a loan. -/
theorem getD_le_handDown {bs : List Borrow} {k i : Nat} {ends : List Point} (hi : i < ends.length)
    (hlen : k + bs.length ≤ ends.length) : ends.getD i 0 ≤ (handDown bs k ends).getD i 0 := by
  induction bs generalizing k with
  | nil => exact le_refl _
  | cons b bs ih =>
    rw [List.length_cons] at hlen
    rw [handDown_cons, getD_handOn (by simpa using hi) (by rw [length_handDown]; omega)]
    have hrest := @ih (k + 1) (by omega)
    split
    · exact le_trans hrest (le_max_left _ _)
    · exact hrest

/-- A loan that none was taken through keeps its own end. -/
theorem handDown_of_not_parent {bs : List Borrow} {k i : Nat} {ends : List Point}
    (hi : i < ends.length) (hlen : k + bs.length ≤ ends.length)
    (h : ∀ b ∈ bs, b.parent ≠ some i) : (handDown bs k ends).getD i 0 = ends.getD i 0 := by
  induction bs generalizing k with
  | nil => rfl
  | cons b bs ih =>
    rw [List.length_cons] at hlen
    rw [handDown_cons, getD_handOn (by simpa using hi) (by rw [length_handDown]; omega),
      if_neg (h b List.mem_cons_self)]
    exact ih (by omega) fun b' hb' => h b' (List.mem_cons_of_mem b hb')

/-- **One pass is enough**: once all loans have handed on their ends, from the last to the first,
each lasts as long as those taken through it. -/
theorem handDown_le_parent {bs : List Borrow} {k j q : Nat} {b : Borrow} {ends : List Point}
    (hlen : k + bs.length ≤ ends.length)
    (holder : ∀ i a r, bs[i]? = some a → a.parent = some r → r < k + i)
    (hb : bs[j]? = some b) (hq : b.parent = some q) :
    (handDown bs k ends).getD (k + j) 0 ≤ (handDown bs k ends).getD q 0 := by
  induction bs generalizing k j with
  | nil => simp at hb
  | cons a bs ih =>
    have hqlt := holder j b q hb hq
    have hj := (List.getElem?_eq_some_iff.mp hb).1
    rw [List.length_cons] at hlen hj
    have hk : k < (handDown bs (k + 1) ends).length := by rw [length_handDown]; omega
    -- the turn of the first loan comes last, and it raises only an older one
    have hkeep : (handDown (a :: bs) k ends).getD (k + j) 0 =
        (handDown bs (k + 1) ends).getD (k + j) 0 := by
      rw [handDown_cons, getD_handOn (by rw [length_handDown]; omega) hk, if_neg]
      intro hcon
      have hlt := holder 0 a (k + j) rfl hcon
      omega
    rw [hkeep, handDown_cons, getD_handOn (by rw [length_handDown]; omega) hk]
    cases j with
    | zero =>
      obtain rfl : a = b := by simpa using hb
      rw [if_pos hq]
      exact le_max_right _ _
    | succ j =>
      have hrest : (handDown bs (k + 1) ends).getD (k + (j + 1)) 0 ≤
          (handDown bs (k + 1) ends).getD q 0 := by
        have := @ih (k + 1) j (by omega)
          (fun i c r hc hr => by have := holder (i + 1) c r hc hr; omega) hb
        rwa [Nat.add_right_comm] at this
      split
      · exact le_trans hrest (le_max_left _ _)
      · exact hrest

/-! ### The end of a loan by its own uses -/

theorem le_foldl_max (us : List (Nat × Point)) (q : Point) :
    q ≤ us.foldl (fun p u => max p u.2) q ∧
      ∀ u ∈ us, u.2 ≤ us.foldl (fun p u => max p u.2) q := by
  induction us generalizing q with
  | nil => exact ⟨le_refl q, by simp⟩
  | cons v us ih =>
    obtain ⟨hstart, huses⟩ := ih (max q v.2)
    refine ⟨le_trans (le_max_left _ _) hstart, fun u hu => ?_⟩
    rcases List.mem_cons.mp hu with rfl | hu
    · exact le_trans (le_max_right _ _) hstart
    · exact huses u hu

variable {s : Survey} {b : Borrow} {i : Nat}

theorem origin_le_ownEnd : b.origin ≤ s.ownEnd i b := by
  unfold ownEnd
  split
  · exact le_refl _
  · exact (le_foldl_max _ _).1

theorem use_le_ownEnd {u : Nat × Point} (hu : u ∈ s.uses) (htemp : b.temporary = false) :
    u.2 ≤ s.ownEnd u.1 b := by
  rw [ownEnd, if_neg (by simp [htemp])]
  exact (le_foldl_max _ _).2 u (List.mem_filter.mpr ⟨hu, by simp⟩)

/-! ### The ends of a survey -/

theorem ends_eq (s : Survey) :
    s.ends = handDown s.borrows 0 (s.borrows.zipIdx.map fun e => s.ownEnd e.2 e.1) := rfl

theorem getD_ownEnds (hb : s.borrows[i]? = some b) :
    (s.borrows.zipIdx.map fun e => s.ownEnd e.2 e.1).getD i 0 = s.ownEnd i b := by
  simp [List.getD_eq_getElem?_getD, List.getElem?_zipIdx, hb]

@[simp] theorem length_ends (s : Survey) : s.ends.length = s.borrows.length := by
  rw [ends_eq, length_handDown, List.length_map, List.length_zipIdx]

/-- A loan lasts for its own uses. -/
theorem ownEnd_le_ends (hb : s.borrows[i]? = some b) : s.ownEnd i b ≤ s.ends.getD i 0 := by
  have hi := (List.getElem?_eq_some_iff.mp hb).1
  rw [ends_eq, ← getD_ownEnds hb]
  exact getD_le_handDown (by simpa using hi) (by simp)

/-- A loan lasts as long as those taken through it. -/
theorem ends_le_parent (hs : s.Sound) {q : Nat} (hb : s.borrows[i]? = some b)
    (hq : b.parent = some q) : s.ends.getD i 0 ≤ s.ends.getD q 0 := by
  have hlen : 0 + s.borrows.length ≤
      (s.borrows.zipIdx.map fun e => s.ownEnd e.2 e.1).length := by simp
  have h := handDown_le_parent hlen
    (fun j a r ha hr => by simpa using (hs.parent j a r ha hr).1) hb hq
  rwa [Nat.zero_add] at h

/-- A loan for the length of a call ends where it begins: none is taken through it. -/
theorem ends_temporary (hs : s.Sound) (hb : s.borrows[i]? = some b) (hno : b.borrower = none) :
    s.ends.getD i 0 = b.origin := by
  have hi := (List.getElem?_eq_some_iff.mp hb).1
  have htemp : b.temporary = true := by
    rw [hs.temporary b (List.mem_of_getElem? hb), hno]
    rfl
  rw [ends_eq, handDown_of_not_parent (by simpa using hi) (by simp), getD_ownEnds hb, ownEnd,
    if_pos htemp]
  intro a ha hparent
  obtain ⟨j, hj⟩ := List.mem_iff_getElem?.mp ha
  obtain ⟨-, ⟨c, y, hc, hy⟩, -⟩ := hs.parent j a i hj hparent
  rw [hb, Option.some.injEq] at hc
  rw [← hc, hno] at hy
  cases hy

end Survey

/-! ### The book -/

/-- **A book that is in order**: numbers are positions, and loans last as they have to. -/
structure LoanBook.Sound (b : LoanBook) : Prop where
  id_eq : ∀ i l, b.get? i = some l → l.id = i
  origin_le_last : ∀ l ∈ b.loans, l.origin ≤ l.last
  /-- A loan for the length of a call ends where it begins. -/
  temporary : ∀ l ∈ b.loans, l.borrower = none → l.last = l.origin
  /-- A loan lasts as long as those taken through it. -/
  parent : ∀ l ∈ b.loans, ∀ q, l.parent = some q →
    q < l.id ∧ ∃ m, b.get? q = some m ∧ l.last ≤ m.last

/-- The book **records** a survey: the loans stand there with their numbers, and a use of a loan
is covered by it. -/
structure Survey.RecordedBy (s : Survey) (b : LoanBook) : Prop where
  loan : ∀ i br, s.borrows[i]? = some br → ∃ l, b.get? i = some l ∧ l.toBorrow = br
  used : ∀ u ∈ s.uses, ∀ l y, b.get? u.1 = some l → l.borrower = some y → u.2 ≤ l.last

namespace LoanBook

variable {b : LoanBook} {l : Loan}

theorem mem_of_get? {i : Nat} (h : b.get? i = some l) : l ∈ b.loans :=
  List.mem_of_getElem? h

theorem Sound.get?_id (hb : b.Sound) (hl : l ∈ b.loans) : b.get? l.id = some l := by
  obtain ⟨i, hi⟩ := List.mem_iff_getElem?.mp hl
  rw [hb.id_eq i l hi]
  exact hi

/-- Loans of a book with the same number are the same. -/
theorem Sound.eq_of_id (hb : b.Sound) {m : Loan} (hl : l ∈ b.loans) (hm : m ∈ b.loans)
    (h : l.id = m.id) : l = m := by
  have hget := hb.get?_id hl
  rw [h, hb.get?_id hm, Option.some.injEq] at hget
  exact hget.symm

/-- A loan is younger than those it was taken through. -/
theorem lt_of_mem_lineageFrom {i id : Nat} (h : id ∈ b.lineageFrom i) : id < i := by
  fun_induction lineageFrom b i with
  | case1 i hnone => cases h
  | case2 i q hq hlt ih =>
    rcases List.mem_cons.mp h with rfl | h
    · exact hlt
    · exact Nat.lt_trans (ih h) hlt
  | case3 i q hq hge => cases h

end LoanBook

namespace Survey

variable {s t : Survey} {b : Borrow} {i : Nat}

theorem book_get? (s : Survey) (i : Nat) :
    s.book.get? i = (s.borrows[i]?).map fun b => { b with id := i, last := s.ends.getD i 0 } := by
  rw [LoanBook.get?, book, List.getElem?_map, List.getElem?_zipIdx, Option.map_map]
  cases hb : s.borrows[i]? with
  | none =>
    have hzip : (s.borrows.zip s.ends)[i]? = none := by
      rw [List.getElem?_eq_none_iff] at hb ⊢
      simpa using hb
    simp [hzip]
  | some b =>
    have hi : i < s.ends.length := by
      rw [length_ends]
      exact (List.getElem?_eq_some_iff.mp hb).1
    have hzip : (s.borrows.zip s.ends)[i]? = some (b, s.ends.getD i 0) := by
      rw [List.getElem?_zip_eq_some]
      refine ⟨hb, ?_⟩
      rw [List.getD_eq_getElem?_getD, List.getElem?_eq_getElem hi, Option.getD_some]
    simp [hzip]

theorem length_book (s : Survey) : s.book.loans.length = s.borrows.length := by
  simp [book]

theorem exists_of_book_get? {l : Loan} (h : s.book.get? i = some l) :
    ∃ b, s.borrows[i]? = some b ∧ l.toBorrow = b ∧ l.id = i ∧ l.last = s.ends.getD i 0 := by
  rw [book_get?, Option.map_eq_some_iff] at h
  obtain ⟨b, hb, rfl⟩ := h
  exact ⟨b, hb, rfl, rfl, rfl⟩

/-- **The book of a survey is in order.** -/
theorem Sound.book (hs : s.Sound) : s.book.Sound := by
  have hmem : ∀ l ∈ s.book.loans, ∃ i b, s.borrows[i]? = some b ∧ l.toBorrow = b ∧ l.id = i ∧
      l.last = s.ends.getD i 0 := by
    intro l hl
    obtain ⟨i, hi⟩ := List.mem_iff_getElem?.mp hl
    exact ⟨i, exists_of_book_get? hi⟩
  refine ⟨fun i l hl => ?_, fun l hl => ?_, fun l hl hno => ?_, fun l hl q hq => ?_⟩
  · obtain ⟨b, -, -, hid, -⟩ := exists_of_book_get? hl
    exact hid
  · obtain ⟨i, b, hb, rfl, -, hlast⟩ := hmem l hl
    rw [hlast]
    exact le_trans origin_le_ownEnd (ownEnd_le_ends hb)
  · obtain ⟨i, b, hb, rfl, -, hlast⟩ := hmem l hl
    rw [hlast]
    exact ends_temporary hs hb hno
  · obtain ⟨i, b, hb, rfl, rfl, hlast⟩ := hmem l hl
    obtain ⟨hlt, ⟨a, -, ha, -⟩, -⟩ := hs.parent _ _ q hb hq
    refine ⟨hlt, { a with id := q, last := s.ends.getD q 0 }, ?_, ?_⟩
    · rw [book_get?, ha, Option.map_some]
    · rw [hlast]
      exact ends_le_parent hs hb hq

/-- **The book of a survey records it.** -/
theorem Sound.recordedBy (hs : s.Sound) : s.RecordedBy s.book := by
  refine ⟨fun i b hb => ?_, fun u hu l y hl hy => ?_⟩
  · exact ⟨_, by rw [book_get?, hb, Option.map_some], rfl⟩
  · obtain ⟨b, hb, rfl, -, hlast⟩ := exists_of_book_get? hl
    have htemp : l.toBorrow.temporary = false := by
      rw [hs.temporary _ (List.mem_of_getElem? hb), hy]
      rfl
    rw [hlast]
    exact le_trans (use_le_ownEnd hu htemp) (ownEnd_le_ends hb)

/-- What records a survey records what it grew from. -/
theorem RecordedBy.of_grows {P : Point → Prop} {b : LoanBook} (ht : t.RecordedBy b)
    (h : Grows P s t) : s.RecordedBy b :=
  ⟨fun i br hbr => ht.loan i br (h.getElem? hbr), fun u hu => ht.used u (h.uses.subset hu)⟩

theorem RecordedBy.length_le {b : LoanBook} (h : s.RecordedBy b) :
    s.borrows.length ≤ b.loans.length := by
  by_contra hlt
  obtain ⟨l, hl, -⟩ := h.loan b.loans.length _ (List.getElem?_eq_getElem (Nat.lt_of_not_le hlt))
  exact absurd (List.getElem?_eq_some_iff.mp hl).1 (Nat.lt_irrefl _)

/-- The loan that a place holds stands in the book, with that place as its borrower. -/
theorem RecordedBy.exists_of_held {b : LoanBook} (h : s.RecordedBy b) (hs : s.Sound)
    {e : Place × Nat} (he : e ∈ s.holders.toList) :
    ∃ l y, b.get? e.2 = some l ∧ l.borrower = some y ∧ e.1.same y = true := by
  obtain ⟨br, y, hbr, hy, hsame⟩ := hs.held e he
  obtain ⟨l, hl, rfl⟩ := h.loan e.2 br hbr
  exact ⟨l, y, hl, hy, hsame⟩

end Survey

/-! ### The book of a function -/

namespace Function

theorem book_sound (f : Function) : f.book.Sound :=
  (Survey.sound_after f f.ops).book

/-- **The book of a function records the survey of its first operations.** -/
theorem recorded_after {f : Function} {pre post : List Operation} (h : f.ops = pre ++ post) :
    (Survey.after f pre).RecordedBy f.book := by
  have hgrow := Survey.grows_after f pre post
  rw [← h] at hgrow
  exact (Survey.sound_after f f.ops).recordedBy.of_grows hgrow

/-- A loan with a number below those of the survey of the first operations stands in it. -/
theorem exists_borrow_of_lt {f : Function} {pre post : List Operation} (h : f.ops = pre ++ post)
    {i : Nat} (hi : i < (Survey.after f pre).borrows.length) :
    ∃ l b, f.book.get? i = some l ∧ (Survey.after f pre).borrows[i]? = some b ∧ l.toBorrow = b := by
  have hb := List.getElem?_eq_getElem hi
  obtain ⟨l, hl, hlb⟩ := (recorded_after h).loan i _ hb
  exact ⟨l, _, hl, hb, hlb⟩

/-- A loan originates at a point of the later operations unless it has a number below those of the
survey of the first ones. -/
theorem exists_op_of_origin {f : Function} {pre post : List Operation} (h : f.ops = pre ++ post)
    {l : Loan} (hl : l ∈ f.book.loans) (hid : (Survey.after f pre).borrows.length ≤ l.id) :
    ∃ op ∈ post, op.point = l.origin := by
  have hget := f.book_sound.get?_id hl
  obtain ⟨b, hb, rfl, -⟩ := Survey.exists_of_book_get? hget
  have hgrow := Survey.grows_after f pre post
  rw [← h] at hgrow
  exact hgrow.origin hb hid

/-- **A loan is needed where its borrower is touched.** -/
theorem le_last_of_touches {f : Function} {pre post : List Operation} {op : Operation}
    (hops : f.ops = pre ++ op :: post) {x : Place} (hx : x ∈ op.touches) {e : Place × Nat}
    (he : e ∈ (Survey.after f pre).holders.toList) (hover : e.1.overlaps x = true) {l : Loan}
    (hl : f.book.get? e.2 = some l) : op.point ≤ l.last := by
  obtain ⟨m, y, hm, hy, -⟩ := (recorded_after hops).exists_of_held (Survey.sound_after f pre) he
  obtain rfl : m = l := Option.some.inj (hm.symm.trans hl)
  have hrec := recorded_after (hops.trans (List.append_cons pre op post))
  rw [Survey.after_concat] at hrec
  exact hrec.used (e.2, op.point) (Survey.mem_uses_observe hx he hover) m y hl hy

end Function

end BorrowCheck
