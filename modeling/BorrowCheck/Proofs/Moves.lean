import BorrowCheck.Proofs.Run

/-!
# References that move with a value

When the source of a move holds a reference, the target holds a reborrow of its loan afterwards: it
lends the same storage in the same way, and the loan that it was taken through lasts as long
(`BorrowCheck.Function.HandedOn`). So whatever is later done with the target is checked against what
the source pointed at.

One expects no less of a reference that is stored in a part of the value. The survey, however, looks
up what the source itself holds, and nothing under it. So exactly the references at the source are
handed on (`BorrowCheck.Function.handedOn_append_iff`). One that is stored in a field is lost with
the move, and nothing keeps its referent from being overwritten, or itself from being returned when
the referent is local (`BorrowCheck.Function.field_lost_by_move`).
-/

namespace BorrowCheck

/-! ### Places under the target -/

namespace Place

@[simp] theorem append_nil (x : Place) : x.append [] = x := by
  simp [append]

theorem isPrefixOf_append (x : Place) (ps : List Proj) : x.isPrefixOf (x.append ps) = true := by
  simp [append]

/-- Going on from a place leads to another one. -/
theorem same_append_iff {x : Place} {ps : List Proj} : (x.append ps).same x = true ↔ ps = [] := by
  simp [unlabel, append]

end Place

namespace Survey

variable {s : Survey} {t x y : Place} {p : Point}

/-- After a move nothing is held strictly under its target. -/
theorem get?_move_of_under (href : t.throughRef = false) (hunder : t.isPrefixOf y = true)
    (hne : y.same t = false) : (s.move (some t) x p).holders.get? y = none := by
  rw [Place.Map.get?_eq_none_iff, Bool.eq_false_iff]
  intro hy
  obtain ⟨e, he, hsame⟩ := Place.Map.contains_iff.mp hy
  -- the write has made everything at and under the target be forgotten
  have hforgotten : e ∉ ((s.touch x p).write t p).holders.toList := by
    intro he
    rw [← Place.isPrefixOf_congr hsame, ((mem_holders_write href).mp he).2] at hunder
    cases hunder
  simp only [move, write?] at he
  split at he
  next heq _ =>
    obtain rfl := Option.some.inj heq
    rcases Place.Map.mem_put he with ⟨hold, -⟩ | ⟨hnew, -⟩
    · exact hforgotten hold
    · rw [Place.same_comm] at hsame
      rw [Place.same_trans hsame hnew] at hne
      cases hne
  next => exact hforgotten he

end Survey

/-! ### What is handed on -/

namespace Function

variable {f : Function} {pre post : List Operation} {op : Operation} {t v : Place}
  {rest : List Proj} {id : Nat}

/-- After the operations `pre`, the loan `id` is **handed on** to `y`: there is a reborrow of it at
`y`, which lends the same storage in the same way and does not outlast it. -/
def HandedOn (f : Function) (pre : List Operation) (id : Nat) (y : Place) : Prop :=
  ∃ id' l m, (Survey.after f pre).holders.get? y = some id' ∧ f.book.get? id = some l ∧
    f.book.get? id' = some m ∧ m.target = l.target ∧ m.kind = l.kind ∧ m.parent = some id ∧
    m.last ≤ l.last

/-- What the source of a move holds is handed on to its target. -/
theorem handedOn_of_move (hops : f.ops = pre ++ op :: post) (hact : op.action = .ok (.move t v))
    (hheld : (Survey.after f pre).holders.get? v = some id) : f.HandedOn (pre ++ [op]) id t := by
  have hops' : f.ops = (pre ++ [op]) ++ post := hops.trans (List.append_cons pre op post)
  obtain ⟨b, -, hb, -⟩ := (Survey.sound_after f pre).of_held (Survey.held_of_get? hheld)
  have hmove : Survey.after f (pre ++ [op]) =
      (((Survey.after f pre).touch v op.point).write t op.point).define t
        (b.handedOn id t v op.point) := by
    obtain ⟨hkind, htarget, hsource⟩ := Operation.action_cases hact
    rw [Survey.after_concat, ← Survey.move_of_held hheld hb]
    simp only [Survey.observe, hkind, htarget, hsource]
  -- the new loan comes next in the book
  have hnew : (Survey.after f (pre ++ [op])).borrows[(Survey.after f pre).borrows.length]? =
      some (b.handedOn id t v op.point) := by
    rw [hmove]
    simp [Survey.define, Survey.take]
  obtain ⟨l, hl, rfl⟩ := (recorded_after hops).loan id b hb
  obtain ⟨m, hm, hmb⟩ := (recorded_after hops').loan _ _ hnew
  have hparent : m.parent = some id := by rw [hmb]; rfl
  obtain ⟨-, l', hl', hlast⟩ := f.book_sound.parent m (LoanBook.mem_of_get? hm) id hparent
  obtain rfl : l' = l := Option.some.inj (hl'.symm.trans hl)
  refine ⟨_, l', m, ?_, hl, hm, by rw [hmb]; rfl, by rw [hmb]; rfl, hparent, hlast⟩
  rw [hmove, Survey.define, Place.Map.get?_put_self, Survey.borrows_write, Survey.borrows_touch]

/-- **A move hands on the reference at its source, and none under it.** A reference that is stored
at `rest` in the value that moves is handed on to the same part of the target exactly when `rest` is
empty. -/
theorem handedOn_append_iff (hops : f.ops = pre ++ op :: post)
    (hact : op.action = .ok (.move t v)) (href : t.throughRef = false)
    (hheld : (Survey.after f pre).holders.get? (v.append rest) = some id) :
    f.HandedOn (pre ++ [op]) id (t.append rest) ↔ rest = [] := by
  constructor
  · rintro ⟨id', -, -, hget, -⟩
    by_contra hrest
    have hne : (t.append rest).same t = false := by
      rw [Bool.eq_false_iff]
      exact fun hsame => hrest (Place.same_append_iff.mp hsame)
    obtain ⟨hkind, htarget, hsource⟩ := Operation.action_cases hact
    have hobserve : (Survey.after f pre).observe op =
        (Survey.after f pre).move (some t) v op.point := by
      simp only [Survey.observe, hkind, htarget, hsource]
    rw [Survey.after_concat, hobserve,
      Survey.get?_move_of_under href (Place.isPrefixOf_append t rest) hne] at hget
    cases hget
  · rintro rfl
    rw [Place.append_nil] at hheld ⊢
    exact handedOn_of_move hops hact hheld

/-- A function that stores a reference to `s` in `v`, moves it to `t` and uses it there. -/
def handsOn : Function where
  name := "f"
  ops :=
    [.declare 1 { base := "s" } (.named "T"), .assign 2 { base := "s" } [],
      .declare 3 { base := "v" } (.named "R"), .borrow 4 .shared { base := "v" } { base := "s" },
      .declare 5 { base := "t" } (.named "R"), .move 6 { base := "t" } { base := "v" },
      .deref 7 { base := "t" }]

/-- The loan of `s` is handed on to `t`. -/
theorem handedOn_append_iff_handsOn :
    handsOn.Accepted {} ∧
      (Survey.after handsOn (handsOn.ops.take 5)).holders.get? (Place.append { base := "v" } []) =
        some 0 ∧
      handsOn.HandedOn (handsOn.ops.take 5 ++ [.move 6 { base := "t" } { base := "v" }]) 0
        (Place.append { base := "t" } []) := by
  have hheld : (Survey.after handsOn (handsOn.ops.take 5)).holders.get?
      (Place.append { base := "v" } []) = some 0 := by decide +kernel
  have hops : handsOn.ops = handsOn.ops.take 5 ++ .move 6 { base := "t" } { base := "v" } ::
      [.deref 7 { base := "t" }] := rfl
  exact ⟨by decide +kernel, hheld, (handedOn_append_iff hops rfl rfl hheld).mpr rfl⟩

/-- A function that stores a reference to `s` in the field `r` of `v`, moves `v` to `t`, overwrites
`s`, uses the field of `t` and returns `t`. -/
def losesField : Function where
  name := "f"
  ops :=
    [.declare 1 { base := "s" } (.named "T"), .assign 2 { base := "s" } [],
      .declare 3 { base := "v" } (.named "V"), .assign 4 { base := "v" } [],
      .borrow 5 .shared (Place.field { base := "v" } "r") { base := "s" },
      .declare 6 { base := "t" } (.named "V"), .move 7 { base := "t" } { base := "v" },
      .assign 8 { base := "s" } [], .use 9 (Place.field { base := "t" } "r"),
      .ret 10 (some { base := "t" })]

/-- **A reference in a field is lost when its value moves.** The field `r` of `v` holds a loan of
the variable `s` before the move, and the field `r` of `t` holds none afterwards. So `s` is
overwritten while it is referred to, and `t` is returned with a reference to `s`. -/
theorem field_lost_by_move :
    losesField.Accepted {} ∧
      losesField.ops.take 7 = losesField.ops.take 6 ++ [.move 7 { base := "t" } { base := "v" }] ∧
      (Survey.after losesField (losesField.ops.take 6)).holders.get?
        (Place.append { base := "v" } [.field "r"]) = some 0 ∧
      (losesField.book.get? 0).map (·.target) = some { base := "s" } ∧
      ¬losesField.HandedOn (losesField.ops.take 7) 0
        (Place.append { base := "t" } [.field "r"]) := by
  refine ⟨by decide +kernel, rfl, by decide +kernel, by decide +kernel, ?_⟩
  have hnone : (Survey.after losesField (losesField.ops.take 7)).holders.get?
      (Place.append { base := "t" } [.field "r"]) = none := by decide +kernel
  rintro ⟨id', l, m, hget, -⟩
  rw [hnone] at hget
  cases hget

end Function

end BorrowCheck
