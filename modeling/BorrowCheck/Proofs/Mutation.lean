import BorrowCheck.Proofs.InStep

/-!
# Mutation behind references

An operation changes what a reference points at when it writes a place behind the reference, or
lends such a place exclusively. The survey knows the loan that the place was reached through
(`BorrowCheck.Survey.referent`), and one expects it to be exclusive.

The walk checks less. At a write it looks at the reference that the place goes through first, and
at no other; at an exclusive borrow it looks at no loan that the new one is taken through. So the
loan is exclusive, or the operation is one of two kinds that are not checked
(`BorrowCheck.Function.exclusive_of_mutates`), and both kinds get through with a shared loan
(`BorrowCheck.Function.mutation_through_shared`).
-/

namespace BorrowCheck

/-! ### What an action changes -/

namespace Action

/-- The places that an action **lends exclusively**. -/
def lendsExclusively : Action → List Place
  | borrow .exclusive _ s => [s]
  | call args _ => (args.filter fun a => a.mode = .lend .exclusive).map Arg.place
  | _ => []

/-- The places that an action may **change**: those that it writes and those that it lends
exclusively. -/
def mutates (a : Action) : List Place :=
  a.written?.toList ++ a.lendsExclusively

end Action

/-! ### What a reference holds when it is written through -/

/-- The holder of a place behind a reference is another place. -/
theorem Place.not_same_of_same_holder {x y : Place} (h : y.same x.holder = true)
    (href : x.throughRef = true) : y.same x = false := by
  rw [Bool.eq_false_iff]
  intro hsame
  rw [← throughRef_congr hsame, throughRef_congr h, throughRef_holder] at href
  cases href

/-- What is looked at when a place behind a reference is borrowed or written: the reference holds a
loan if the place was reached through one. -/
theorem Survey.get?_holder_of_referent {s : Survey} {x : Place} {id : Nat}
    (href : x.throughRef = true) (h : (s.referent x).2 = some id) :
    ∃ outer, s.holders.get? x.holder = some outer := by
  obtain ⟨⟨ref, rest⟩, hcut⟩ := Option.isSome_iff_exists.mp (x.cut?_isSome.trans href)
  rw [referent, referentBelow, hcut] at h
  rw [← Place.cut?_fst hcut]
  cases hget : s.holders.get? ref with
  | none => simp [hget] at h
  | some outer => exact ⟨outer, rfl⟩

/-- A reference holds what the survey knows it to hold, also when it is used for the last time. -/
theorem Walk.InStep.mem_heldAt {b : LoanBook} {s : Survey} {es : List Ending} {p : Point}
    {w : State} {x : Place} (h : InStep b s es (p - 1) w) (hb : b.Sound) (hs : s.Sound)
    (hrec : s.RecordedBy b) {e : Place × Nat} (he : e ∈ s.holders.toList)
    (hx : e.1.same x = true) {l : Loan} (hl : b.get? e.2 = some l) (hlast : p ≤ l.last) :
    l ∈ (Walk.settled w p true).ledger.heldAt x (w.toBooks.settle p true).2 := by
  have hout := h.outstanding_of_held hb hs he hl (Int.sub_one_lt_of_le hlast)
  have hclosed := h.settled_inclusive hb
  refine List.mem_filter.mpr ⟨List.mem_append.mpr ?_, ?_⟩
  · rcases lt_or_eq_of_le hlast with hlt | heq
    · exact Or.inl (hclosed.outstanding_of_held hb hs he hl hlt)
    · -- it is used for the last time here, and was closed just now
      exact Or.inr (List.mem_filter.mpr ⟨hout, by simp [heq]⟩)
  · refine hclosed.isHeldAt hb hs hrec he hl fun y hsame => ?_
    rw [Place.same_comm] at hx
    exact Place.same_trans hx hsame

/-! ### Accepted functions -/

namespace Function

variable {f : Function} {policy : Policy} {pre post : List Operation} {op : Operation} {a : Action}
  {x : Place} {id : Nat} {l : Loan}

/-- The reference that a write goes through is touched. -/
theorem holder_mem_touches (hact : op.action = .ok a) (hx : a.written? = some x)
    (href : x.throughRef = true) : x.holder ∈ op.touches := by
  have hdoes := Operation.action_cases hact
  have hbehind : x.holder ∈ behind (some x) := mem_behind.mpr ⟨x, rfl, href, rfl⟩
  cases a with
  | assign y ys =>
    obtain rfl := Option.some.inj hx
    simp only [Operation.touches, hdoes.1, hdoes.2.1]
    exact List.mem_append_right _ hbehind
  | move y z =>
    obtain rfl := Option.some.inj hx
    simp only [Operation.touches, hdoes.1, hdoes.2.1, hdoes.2.2]
    exact List.mem_cons_of_mem _ hbehind
  | borrow kind y z =>
    obtain rfl := Option.some.inj hx
    simp only [Operation.touches, hdoes.1, hdoes.2.1, hdoes.2.2]
    exact List.mem_cons_of_mem _ hbehind
  | call args result =>
    obtain rfl : result = some x := hx
    simp only [Operation.touches, hdoes.1, hdoes.2.1]
    exact List.mem_append_right _ hbehind
  | declare y ty | deref y | use y | ret y | enter | exit => cases hx

/-- A write behind a reference uses the reference, so what it holds is needed up to there. -/
theorem le_last_of_written (hops : f.ops = pre ++ op :: post) (hact : op.action = .ok a)
    (hx : a.written? = some x) (href : x.throughRef = true) {e : Place × Nat}
    (he : e ∈ (Survey.after f pre).holders.toList) (hsame : e.1.same x.holder = true)
    (hl : f.book.get? e.2 = some l) : op.point ≤ l.last := by
  refine le_last_of_touches hops (holder_mem_touches hact hx href) he ?_ hl
  rw [Place.overlaps_comm, Place.overlaps_congr hsame]
  exact Place.overlaps_of_isPrefixOf (Place.isPrefixOf_refl _)

/-- **A write behind a reference is only accepted when the loan that the reference holds is
exclusive**, and no reborrow of it that was taken before is needed later. -/
theorem Accepted.writable_of_written (h : f.Accepted policy) (hops : f.ops = pre ++ op :: post)
    (hact : op.action = .ok a) (hx : a.written? = some x) (href : x.throughRef = true)
    (hheld : (Survey.after f pre).holders.get? x.holder = some id) (hl : f.book.get? id = some l) :
    l.isExclusive = true ∧ ∀ m ∈ f.book.loans, m.origin < op.point →
      f.lapsedBefore m op.point = false → l.id ∈ f.book.lineage m → m.last ≤ op.point := by
  have hb := f.book_sound
  obtain ⟨w, a', u, -, hact', -, -, hout, hwrite⟩ := h.stages hops
  obtain rfl : a' = a := Except.ok.inj (hact'.symm.trans hact)
  have hturn := h.ordered.turn hops
  obtain ⟨e, he, hsame, rfl⟩ := Place.Map.exists_mem_of_get? hheld
  have hlast := le_last_of_written hops hact hx href he hsame hl
  -- the action leaves the loan where it is, because it is stored elsewhere
  have he' : e ∈ ((Survey.after f pre).observe op).holders.toList := by
    rw [Survey.observe_eq_act _ hact]
    exact Survey.mem_holders_of_written hx href he (Place.not_same_of_same_holder hsame href)
  have hmem := hout.mem_heldAt hb (hturn.sound.observe op) hturn.recorded he' hsame hl hlast
  obtain ⟨t, ht⟩ := hwrite x hx
  rcases (Walk.write_cases ht).2 with ⟨-, hbehind, -⟩ | ⟨hno, -⟩
  · obtain ⟨hexcl, hreborrows⟩ := (Walk.writeBehind_cases hbehind).2 l hmem
    refine ⟨hexcl, fun m hm horigin hscope hlineage => ?_⟩
    by_contra hlate
    rw [not_le] at hlate
    -- a reborrow that is needed later would be outstanding when the target is written
    have hstands := h.ordered.stands_at_write hops hact hx hout hm horigin hlate hscope
    have hne : m.id ≠ l.id := Nat.ne_of_gt (LoanBook.lt_of_mem_lineageFrom hlineage)
    have hother : m ∈ (Walk.settled u op.point true).ledger.reborrows f.book l :=
      List.mem_filter.mpr ⟨hstands, by simp [hne, hlineage]⟩
    exact absurd (hreborrows m hother) (not_le.mpr hlate)
  · rw [href] at hno
    cases hno

theorem Accepted.isExclusive_of_written (h : f.Accepted policy) (hops : f.ops = pre ++ op :: post)
    (hact : op.action = .ok a) (hx : a.written? = some x) (href : x.throughRef = true)
    (hheld : (Survey.after f pre).holders.get? x.holder = some id) (hl : f.book.get? id = some l) :
    l.isExclusive = true :=
  (h.writable_of_written hops hact hx href hheld hl).1

/-- After the operations `pre`, the function performs an action that **changes** the place `x`
behind a reference, which is reached through the loan `l`. -/
structure Mutates (f : Function) (pre : List Operation) (a : Action) (x : Place) (l : Loan) :
    Prop where
  performed : ∃ op post, f.ops = pre ++ op :: post ∧ op.action = .ok a
  changed : x ∈ a.mutates
  behind : x.throughRef = true
  parent : ∃ id, ((Survey.after f pre).referent x).2 = some id ∧ f.book.get? id = some l

/-- **Mutation behind references.** When an accepted function changes a place behind a reference,
the loan that the place is reached through is exclusive, unless the place is only lent, or is
written through a further reference: then the first reference holds another loan, and that one is
exclusive. -/
theorem exclusive_of_mutates (h : f.Accepted policy) (hm : f.Mutates pre a x l) :
    l.isExclusive = true ∨ (x ∈ a.lendsExclusively ∧ a.written? ≠ some x) ∨
      ∃ id m, (Survey.after f pre).holders.get? x.holder = some id ∧ id ≠ l.id ∧
        f.book.get? id = some m ∧ m.isExclusive = true := by
  obtain ⟨⟨op, post, hops, hact⟩, hchanged, href, id, hparent, hl⟩ := hm
  by_cases hx : a.written? = some x
  · obtain ⟨outer, houter⟩ := Survey.get?_holder_of_referent href hparent
    obtain ⟨br, -, hbr, -⟩ := (Survey.sound_after f pre).of_held (Survey.held_of_get? houter)
    obtain ⟨m, hm, -⟩ := (recorded_after hops).loan outer br hbr
    have hexcl := h.isExclusive_of_written hops hact hx href houter hm
    by_cases hid : outer = l.id
    · rw [hid, f.book_sound.id_eq id l hl, hl, Option.some.injEq] at hm
      exact Or.inl (hm ▸ hexcl)
    · exact Or.inr (Or.inr ⟨outer, m, houter, hid, hm, hexcl⟩)
  · refine Or.inr (Or.inl ⟨?_, hx⟩)
    rcases List.mem_append.mp hchanged with hw | hlent
    · exact absurd (Option.mem_toList.mp hw) hx
    · exact hlent

/-- A function with one reference parameter: `fn f(r: &T)` or `fn f(r: &mut T)`. -/
def ofReference (kind : BorrowKind) (ops : List Operation) : Function where
  name := "f"
  params := [{ name := "r", ty := .refTo kind (.named "T") }]
  ops := ops

/-- The loan that the parameter of `BorrowCheck.Function.ofReference` holds on entry. -/
def loanOfCaller (kind : BorrowKind) (last : Point) : Loan where
  borrower := some { base := "r" }
  kind := kind
  origin := 0
  target := Place.ofCaller "r"
  via := Place.deref { base := "r" }
  id := 0
  last := last

/-- The parameter is lent on to `q`, which is written through. -/
def lendsOn (kind : BorrowKind) : Function :=
  ofReference kind
    [.declare 1 { base := "q" } (.refTo .exclusive (.named "T")),
      .borrow 2 .exclusive { base := "q" } (Place.deref { base := "r" }),
      .assign 3 (Place.deref { base := "q" }) []]

/-- The loan to `q` in `BorrowCheck.Function.lendsOn`. -/
def loanLentOn : Loan where
  borrower := some { base := "q" }
  kind := .exclusive
  origin := 2
  target := Place.ofCaller "r"
  via := Place.deref { base := "r" }
  parent := some 0
  id := 1
  last := 3

/-- What an exclusive parameter points at is written through the reference it is lent on to. -/
theorem exclusive_of_mutates_lendsOn :
    (lendsOn .exclusive).Accepted {} ∧
      (lendsOn .exclusive).Mutates ((lendsOn .exclusive).ops.take 2)
        (.assign (Place.deref { base := "q" }) []) (Place.deref { base := "q" }) loanLentOn ∧
      loanLentOn.isExclusive = true := by
  have haccepted : (lendsOn .exclusive).Accepted {} := by decide +kernel
  have hmutates : (lendsOn .exclusive).Mutates ((lendsOn .exclusive).ops.take 2)
      (.assign (Place.deref { base := "q" }) []) (Place.deref { base := "q" }) loanLentOn :=
    ⟨⟨_, [], rfl, rfl⟩, by decide, rfl, 1, by decide +kernel, by decide +kernel⟩
  refine ⟨haccepted, hmutates, (exclusive_of_mutates haccepted hmutates).resolve_right ?_⟩
  rintro (⟨hlent, -⟩ | ⟨id, m, hid, hne, -⟩)
  · cases hlent
  · have hq : (Survey.after (lendsOn .exclusive) ((lendsOn .exclusive).ops.take 2)).holders.get?
        (Place.holder (Place.deref { base := "q" })) = some 1 := by decide +kernel
    exact hne (Option.some.inj (hid.symm.trans hq))

/-- A shared parameter is lent to `o`, which is dereferenced twice in a write. -/
def writesPastShared : Function :=
  ofReference .shared
    [.declare 1 { base := "o" } (.refTo .exclusive (.refTo .shared (.named "T"))),
      .borrow 2 .exclusive { base := "o" } { base := "r" },
      .assign 3 (Place.deref (Place.deref { base := "o" })) []]

/-- What a shared parameter points at is lent exclusively to a callee. -/
def lendsToCallee : Function :=
  ofReference .shared [.call 1 "g" [⟨Place.deref { base := "r" }, .lend .exclusive⟩] none]

/-- **Shared references do not protect what they point at.** A shared parameter can be lent on
exclusively, written through a reference to it, and lent exclusively to a callee. -/
theorem mutation_through_shared :
    ((lendsOn .shared).Accepted {} ∧
      (lendsOn .shared).Mutates ((lendsOn .shared).ops.take 1)
        (.borrow .exclusive { base := "q" } (Place.deref { base := "r" }))
        (Place.deref { base := "r" }) (loanOfCaller .shared 3) ∧
      (loanOfCaller .shared 3).isExclusive = false) ∧
    (writesPastShared.Accepted {} ∧
      writesPastShared.Mutates (writesPastShared.ops.take 2)
        (.assign (Place.deref (Place.deref { base := "o" })) [])
        (Place.deref (Place.deref { base := "o" })) (loanOfCaller .shared 3) ∧
      (loanOfCaller .shared 3).isExclusive = false) ∧
    lendsToCallee.Accepted {} ∧
      lendsToCallee.Mutates [] (.call [⟨Place.deref { base := "r" }, .lend .exclusive⟩] none)
        (Place.deref { base := "r" }) (loanOfCaller .shared 1) ∧
      (loanOfCaller .shared 1).isExclusive = false := by
  refine ⟨⟨by decide +kernel, ?_, rfl⟩, ⟨by decide +kernel, ?_, rfl⟩, by decide +kernel, ?_, rfl⟩
  all_goals
    exact ⟨⟨_, _, rfl, rfl⟩, by decide, rfl, 0, by decide +kernel, by decide +kernel⟩

end Function

end BorrowCheck
