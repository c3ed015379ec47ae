import BorrowCheck.Proofs.Conflict
import BorrowCheck.Proofs.Dangling
import BorrowCheck.Proofs.Spared

/-!
# References that are stored through references

A borrow may store its reference behind another reference: `*p = &s`, where `p` points at `q`. From
then on `q` holds a reference to `s`, but the survey knows of it under the path `*p` by which it was
written, and does not follow that `q` is the same place.

So what is lent stays lent while the reference is read back by the path that it was stored under:
before that, nothing that overlaps `s` is moved out or overwritten
(`BorrowCheck.Function.lent_while_read_back`). The argument is about the loan as the walk sees it.
The path still holds the loan when it is read back, so the loan is needed up to then, and it is
outstanding in between; and `s` keeps its value, since its block is not left before.

Nothing of this holds when `q` is read instead (`BorrowCheck.Function.overwritten_while_stored`).
One more thing is left out: what lies behind a reference in `s` may be written while `s` is lent,
unless it is lent exclusively.
-/

namespace BorrowCheck

/-- What overlaps a place overlaps its holder. -/
theorem Place.overlaps_holder {x y : Place} (h : x.overlaps y = true) :
    x.overlaps y.holder = true := by
  have happend : y.holder.append (y.path.dropWhile fun p => !p.isDeref) = y := by
    simp [holder, append]
  rw [← happend] at h
  exact overlaps_of_append h

/-! ### What is lent is not overwritten -/

/-- **A write is refused while what it overwrites is lent** and has a value. Behind a reference only
exclusive loans count. -/
theorem Walk.last_le_of_write {c : Context} {w v : State} {closed : List Loan} {x : Place}
    {p : Point} {l : Loan} (h : write c w closed x p = .ok v) (hl : l ∈ w.ledger.outstanding)
    (husable : w.store.Usable l.target.base) (hx : x.throughRef = false ∨ l.isExclusive = true)
    (hover : l.target.overlaps x = true) : l.last ≤ p := by
  rcases (write_cases h).2 with ⟨href, hbehind, -⟩ | ⟨-, store, hstore, -⟩
  · -- the reference is read
    have hexcl : l.isExclusive = true := hx.resolve_left (by rw [href]; simp)
    have hfree := (read_eq_ok_iff.mp (writeBehind_cases hbehind).1).2.2.1
    rw [holder_holder] at hfree
    exact le_of_lt (hfree l hl (Place.overlaps_holder hover) hexcl)
  · rcases hstore with ⟨hroot, -, hfill⟩ | ⟨hfree, -⟩
    · -- only a variable without a value can be filled
      rw [Place.base_eq_of_overlaps hover] at husable
      exact absurd (Store.awaits_of_fill hroot hfill) husable.2
    · exact hfree l hl hover

/-! ### Accepted functions -/

namespace Function

variable {f : Function} {policy : Policy} {pre mid rest post : List Operation}
  {first op last : Operation} {b : Action} {t x y : Place} {kind : BorrowKind} {k : Nat} {l : Loan}

/-- A borrow of a place takes a loan of it, which the target then holds. -/
theorem Accepted.exists_loan_of_borrow (h : f.Accepted policy) (hops : f.ops = pre ++ first :: post)
    (hfirst : first.action = .ok (.borrow kind t x)) (href : x.throughRef = false) :
    ∃ l ∈ f.book.loans, l.target = x ∧ l.kind = kind ∧ l.origin = first.point ∧
      (Survey.after f (pre ++ [first])).holders.get? t = some l.id := by
  obtain ⟨-, a, -, -, hact, -⟩ := h.stages hops
  obtain rfl : a = .borrow kind t x := Except.ok.inj (hact.symm.trans hfirst)
  have hobserve := Survey.observe_eq_act (Survey.after f pre) hact
  have hbr : ((Survey.after f pre).observe first).borrows[(Survey.after f pre).borrows.length]? =
      some (((Survey.after f pre).touch x first.point).borrowOf (some t) kind x first.point) := by
    rw [hobserve]
    simp [Survey.act, Survey.lend, Survey.define, Survey.take]
  obtain ⟨l, hl, hlb⟩ := (h.ordered.turn hops).recorded.loan _ _ hbr
  have hid := f.book_sound.id_eq _ l hl
  rw [← hlb, hobserve] at hbr
  have htarget : l.target = x := by
    rw [hlb, Survey.borrowOf, Survey.referent_of_not_throughRef href]
  refine ⟨l, LoanBook.mem_of_get? hl, htarget, by rw [hlb]; rfl, by rw [hlb]; rfl, ?_⟩
  rw [Survey.after_concat, hobserve, hid]
  exact (Survey.get?_act_of_new (Nat.le_refl _) hbr (by rw [hlb]; rfl)).2

/-- **Lent storage keeps its value**: a variable that is lent can be used as long as the loan is
held and needed later. -/
theorem Accepted.usable_while_held (h : f.Accepted policy) (hl : f.book.get? k = some l)
    (href : l.target.throughRef = false) (hheld : (Survey.after f pre).holders.get? t = some k)
    (hspares : Spares mid t) (hops : f.ops = pre ++ mid ++ post)
    (hlast : ∀ o ∈ mid, o.point < l.last) {w v : Walk.State} (hw : f.reach policy pre = .ok w)
    (hv : f.reach policy (pre ++ mid) = .ok v) (husable : v.store.Usable t.base)
    (hlent : w.store.Usable l.target.base) : v.store.Usable l.target.base := by
  induction mid using List.reverseRecOn generalizing post v with
  | nil =>
    rw [List.append_nil] at hv
    obtain rfl : v = w := Except.ok.inj (hv.symm.trans hw)
    exact hlent
  | append_singleton mid o ih =>
    have hops' : f.ops = pre ++ mid ++ o :: post := by rw [hops]; simp
    have hkeeps := h.held_of_usable hheld hspares hops hv husable
    rw [← List.append_assoc] at hv
    obtain ⟨u, hu, hstep⟩ := reach_concat_eq_ok_iff.mp hv
    obtain ⟨hmid, ho⟩ := spares_append.mp hspares
    have hbefore := Walk.usable_of_spared hstep (ho o (List.mem_singleton.mpr rfl)) husable
    obtain ⟨-, a, -, hact, -⟩ := Walk.step_cases hstep
    refine Walk.usable_step hstep hact ?_
      (ih hmid hops' (fun o' ho' => hlast o' (List.mem_append_left _ ho')) hu hbefore)
    -- a block is not left while storage of it is lent to one that stays
    rintro rfl dying scopes hexit hdies
    rw [(h.ordered.inStep_of_reach hops' hu).scopes] at hexit
    rw [← List.append_assoc, Survey.after_concat] at hkeeps
    obtain ⟨e, he, -, rfl⟩ := Place.Map.exists_mem_of_get? hkeeps
    have hle := h.last_le_of_exit hops' (Operation.action_cases hact) hexit he hl hdies href
    exact absurd (hlast o (by simp)) (not_lt.mpr hle)

/-- **What is read back was held all the time**, by a path that was spared: its variable could be
used, and the loan that it holds is needed up to the read. -/
theorem Accepted.held_until_read (h : f.Accepted policy) (hspares : Spares (mid ++ rest) t)
    (hops : f.ops = pre ++ mid ++ (rest ++ last :: post)) (hl : f.book.get? k = some l)
    (hheld : (Survey.after f pre).holders.get? t = some k) (hlast : last.action = .ok b)
    (hy : y ∈ b.reads) (hback : t.overlaps y = true)
    {w : Walk.State} (hw : f.reach policy (pre ++ mid) = .ok w) :
    w.store.Usable t.base ∧ (Survey.after f (pre ++ mid)).holders.get? t = some k ∧
      last.point ≤ l.last := by
  have hops' : f.ops = pre ++ (mid ++ rest) ++ last :: post := by rw [hops]; simp
  obtain ⟨v, b', u, hv, hact, hperf, -⟩ := h.stages hops'
  obtain rfl : b' = b := Except.ok.inj (hact.symm.trans hlast)
  -- what is read lies in the variable of `t`
  have hread : v.store.Usable t.base := by
    rw [Place.base_eq_of_overlaps hback]
    exact Walk.usable_settled.mp ((Walk.perform_cases hperf).1.usable_of_reads hy)
  obtain ⟨hmid, hrest⟩ := spares_append.mp hspares
  have husable : w.store.Usable t.base :=
    usable_of_spares hrest hw (by rwa [List.append_assoc]) hread
  refine ⟨husable, h.held_of_usable hheld hmid hops hw husable, ?_⟩
  obtain ⟨e, he, hsame, rfl⟩ :=
    Place.Map.exists_mem_of_get? (h.held_of_usable hheld hspares hops' hv hread)
  refine le_last_of_touches hops' (Operation.mem_touches_of_reads hlast hy) he ?_ hl
  rwa [Place.overlaps_comm, Place.overlaps_congr hsame, Place.overlaps_comm]

/-- What is borrowed can be used afterwards. -/
theorem Accepted.usable_of_borrow (h : f.Accepted policy) (hops : f.ops = pre ++ first :: post)
    (hfirst : first.action = .ok (.borrow kind t x)) :
    ∃ w, f.reach policy (pre ++ [first]) = .ok w ∧ w.store.Usable x.base := by
  obtain ⟨v, w, -, hstep, hw⟩ := h.step hops
  obtain ⟨-, a, u, hact, hperf, -⟩ := Walk.step_cases hstep
  obtain rfl : a = .borrow kind t x := Except.ok.inj (hact.symm.trans hfirst)
  have hbefore := Walk.usable_of_borrow (Walk.perform_cases hperf).1.2
  exact ⟨w, hw, Walk.usable_step hstep hact (fun hexit => by cases hexit)
    (Walk.usable_settled.mp hbefore)⟩

/-- **What is lent to a path stays lent until it is read back.** In an accepted function, let a
borrow of `x` be stored in the place `t`, behind references or not, and let a later operation read
`t`, a part of it or a place that it lies in, while in between no place that `t` lies in is written.
Then no operation in between

* moves out a place that overlaps `x`, or
* writes one, except, when the loan is shared, behind a reference. -/
theorem lent_while_read_back (h : f.Accepted policy)
    (hops : f.ops = pre ++ first :: mid ++ op :: (rest ++ last :: post))
    (hfirst : first.action = .ok (.borrow kind t x)) (href : x.throughRef = false)
    (hspares : Spares (mid ++ op :: rest) t) (hlast : last.action = .ok b) (hy : y ∈ b.reads)
    (hback : t.overlaps y = true) :
    ∃ a w u, op.action = .ok a ∧ f.reach policy (pre ++ first :: mid) = .ok w ∧
      Walk.perform (f.context policy) (Walk.settled w op.point false) op.point a =
        .ok (u, a.written?) ∧
      (∀ z, w.store.movedOut z = false → u.store.movedOut z = true → x.overlaps z = false) ∧
      (∀ z, a.written? = some z → z.throughRef = false ∨ kind = .exclusive →
        x.overlaps z = false) := by
  have hb := f.book_sound
  have hops₀ : f.ops = pre ++ first :: (mid ++ op :: (rest ++ last :: post)) := by
    rw [hops, List.append_assoc]; rfl
  rw [List.append_cons pre first mid] at hops ⊢
  obtain ⟨l, hmem, rfl, rfl, horigin, hheld⟩ := h.exists_loan_of_borrow hops₀ hfirst href
  obtain ⟨v, hv, hlent⟩ := h.usable_of_borrow hops₀ hfirst
  obtain ⟨w, a, u, hw, hact, hperf, hin, hout, hwrite⟩ := h.stages hops
  have hperf' := (Walk.perform_cases hperf).1
  have hl := hb.get?_id hmem
  obtain ⟨husable, hget, hneeded⟩ :=
    h.held_until_read hspares hops hl hheld hlast hy hback hw
  -- the loan is needed after the operation, and outstanding when its action begins
  have hpoint : op.point < l.last :=
    lt_of_lt_of_le (h.ordered.after hops last (by simp)) hneeded
  obtain ⟨e, he, -, hid⟩ := Place.Map.exists_mem_of_get? hget
  have hstands := hin.outstanding_of_held hb (Survey.sound_after f _) he (hid ▸ hl)
    (lt_trans (Int.sub_one_lt_of_le (le_refl _)) hpoint)
  refine ⟨a, w, u, hact, hw, hperf, fun z hbefore hafter => ?_, fun z hz hkind => ?_⟩
  · rw [Bool.eq_false_iff]
    intro hover
    have hsettled : (Walk.settled w op.point false).store.movedOut z = false := by
      rw [Bool.eq_false_iff] at hbefore ⊢
      exact fun hmoved => hbefore ((Books.lacksNoMore_close _ _).movedOut hmoved)
    exact lt_asymm hpoint (hperf'.freeToMove hsettled hafter l hstands hover)
  · rw [Bool.eq_false_iff]
    intro hover
    have hexit : a ≠ .exit := by rintro rfl; cases hz
    -- what is lent has a value, also when the target is written
    have hvalue : (Walk.settled u op.point true).store.Usable l.target.base := by
      rw [Walk.usable_settled, hperf'.usable_iff (absurd · hexit), Walk.usable_settled]
      exact h.usable_while_held hl href hheld (spares_append.mp hspares).1 hops
        (fun o ho => lt_trans (h.ordered.before hops o (by simp [ho])) hpoint) hv hw husable hlent
    have hscope : f.lapsedBefore l op.point = false := by
      rw [h.ordered.lapsedBefore_eq hops]
      exact hin.kept e he l (hid ▸ hl)
    have hstands' := h.ordered.stands_at_write hops hact hz hout hmem
      (horigin ▸ h.ordered.before hops first (by simp)) hpoint hscope
    obtain ⟨t, ht⟩ := hwrite z hz
    have hle := Walk.last_le_of_write ht hstands' hvalue
      (hkind.imp_right fun hk => by rw [Loan.isExclusive, hk]; rfl) hover
    exact not_lt.mpr hle hpoint

/-- A function that lends `q` to `p`, stores a reference to `s` through `p`, and goes on with
`rest`. -/
def storesThrough (rest : List Operation) : Function where
  name := "f"
  ops :=
    [.declare 1 { base := "s" } (.named "T"), .assign 2 { base := "s" } [],
      .declare 3 { base := "u" } (.named "T"), .assign 4 { base := "u" } [],
      .declare 5 { base := "q" } (.refTo .shared (.named "T")),
      .borrow 6 .shared { base := "q" } { base := "u" },
      .declare 7 { base := "p" } (.refTo .exclusive (.refTo .shared (.named "T"))),
      .borrow 8 .exclusive { base := "p" } { base := "q" },
      .borrow 9 .shared (Place.deref { base := "p" }) { base := "s" }] ++ rest

/-- The reference is read back through `p`, and `s` is overwritten after that. -/
def readsBack : Function :=
  storesThrough [.declare 10 { base := "w" } (.named "T"), .assign 11 { base := "w" } [],
    .deref 12 (Place.deref { base := "p" }), .assign 13 { base := "s" } []]

/-- While `p` is needed, what is overwritten is not `s`. -/
theorem lent_while_read_back_readsBack :
    readsBack.Accepted {} ∧
      Spares [.declare 10 { base := "w" } (.named "T"), .assign 11 { base := "w" } []]
        (Place.deref { base := "p" }) ∧
      ∃ a w u, Operation.action (.assign 11 { base := "w" } []) = .ok a ∧
        readsBack.reach {} (readsBack.ops.take 10) = .ok w ∧
        Walk.perform (readsBack.context {}) (Walk.settled w 11 false) 11 a =
          .ok (u, a.written?) ∧
        (∀ z, w.store.movedOut z = false → u.store.movedOut z = true →
          Place.overlaps { base := "s" } z = false) ∧
        (∀ z, a.written? = some z → z.throughRef = false ∨ BorrowKind.shared = .exclusive →
          Place.overlaps { base := "s" } z = false) := by
  have haccepted : readsBack.Accepted {} := by decide +kernel
  have hspares : Spares [.declare 10 { base := "w" } (.named "T"), .assign 11 { base := "w" } []]
      (Place.deref { base := "p" }) := by decide
  have hops : readsBack.ops =
      readsBack.ops.take 8 ++
        .borrow 9 .shared (Place.deref { base := "p" }) { base := "s" } ::
          [.declare 10 { base := "w" } (.named "T")] ++
        .assign 11 { base := "w" } [] :: ([] ++ .deref 12 (Place.deref { base := "p" }) ::
          [.assign 13 { base := "s" } []]) := rfl
  exact ⟨haccepted, hspares, lent_while_read_back haccepted hops rfl rfl hspares rfl
    (List.mem_singleton.mpr rfl) (by decide)⟩

/-- The reference is read back from `q`, and `s` is overwritten before that. -/
def readsHolder : Function :=
  storesThrough [.assign 10 { base := "s" } [], .deref 11 { base := "q" }]

/-- A function that stores a reference to `v` through `p`, and writes behind a reference in `v`
before it is read back. -/
def writesInside : Function where
  name := "f"
  ops :=
    [.declare 1 { base := "s" } (.named "T"), .assign 2 { base := "s" } [],
      .declare 3 { base := "v" } (.named "S"), .assign 4 { base := "v" } [],
      .borrow 5 .exclusive (Place.field { base := "v" } "f") { base := "s" },
      .declare 6 { base := "q" } (.refTo .shared (.named "S")),
      .borrow 7 .shared { base := "q" } { base := "v" },
      .declare 8 { base := "p" } (.refTo .exclusive (.refTo .shared (.named "S"))),
      .borrow 9 .exclusive { base := "p" } { base := "q" },
      .borrow 10 .shared (Place.deref { base := "p" }) { base := "v" },
      .assign 11 (Place.deref (Place.field { base := "v" } "f")) [],
      .deref 12 (Place.deref { base := "p" })]

/-- **What is stored through a reference is not followed to its holder**: after `p` was lent `q`,
and a reference to `s` was stored through `p`, `s` is overwritten before `q` is read. And of what is
lent as shared to a path that is read back, what lies behind a reference is written. -/
theorem overwritten_while_stored :
    (readsHolder.Accepted {} ∧
      readsHolder.ops.drop 7 =
        [.borrow 8 .exclusive { base := "p" } { base := "q" },
          .borrow 9 .shared (Place.deref { base := "p" }) { base := "s" },
          .assign 10 { base := "s" } [], .deref 11 { base := "q" }]) ∧
    (writesInside.Accepted {} ∧
      writesInside.ops.drop 9 =
        [.borrow 10 .shared (Place.deref { base := "p" }) { base := "v" },
          .assign 11 (Place.deref (Place.field { base := "v" } "f")) [],
          .deref 12 (Place.deref { base := "p" })] ∧
      Place.overlaps { base := "v" } (Place.deref (Place.field { base := "v" } "f")) = true) :=
  ⟨⟨by decide +kernel, rfl⟩, by decide +kernel, rfl, by decide⟩

end Function

end BorrowCheck
