import BorrowCheck.Proofs.Renaming
import BorrowCheck.Proofs.Run
import Mathlib.Data.List.Forall2

/-!
# Bodies that are thinned out

Take the first operations of a function, leave out some of those that only use a place, and rename
the projections in the others. The loans of what is left are those that there were, renamed: same
numbers, same parents, same points, except that the parameters may come into existence at another
point. Only they are needed for a shorter time, since some uses are gone and others may no longer
overlap.

`BorrowCheck.Survey.Follows` says this of two surveys, with one lemma for each part of an
operation, and `BorrowCheck.LoanBook.Outlasts` of two books
(`BorrowCheck.Function.outlasts_of_thinned`).
-/

namespace BorrowCheck

/-- The loan `b'` is `b` **renamed**, up to origins that both lie at `q` or before. -/
structure Borrow.Renamed (σ : Proj → Proj) (q : Point) (b b' : Borrow) : Prop where
  borrower : b'.borrower = b.borrower.map (Place.rename σ)
  kind : b'.kind = b.kind
  target : b'.target = b.target.rename σ
  via : b'.via = b.via.rename σ
  parent : b'.parent = b.parent
  origin : b'.origin = b.origin ∨ (b.origin ≤ q ∧ b'.origin ≤ q)

namespace Survey

/-- The survey `s'` **follows** `s`: it has the same loans, renamed, in the same places, and no use
that `s` does not have. -/
structure Follows (σ : Proj → Proj) (q : Point) (s s' : Survey) : Prop where
  borrows : s.borrows.Forall₂ (Borrow.Renamed σ q) s'.borrows
  holders : s'.holders = s.holders.rename σ
  uses : s'.uses ⊆ s.uses
  scopes : s'.scopes = s.scopes

variable {σ : Proj → Proj} {q p : Point} {s s' : Survey} {x : Place} {b b' : Borrow}

theorem Follows.length_eq (h : Follows σ q s s') : s'.borrows.length = s.borrows.length :=
  h.borrows.length_eq.symm

/-- A borrow of the second survey is one of the first, renamed. -/
theorem Follows.getElem? (h : Follows σ q s s') {i : Nat} (hb : s'.borrows[i]? = some b') :
    ∃ b, s.borrows[i]? = some b ∧ b.Renamed σ q b' := by
  obtain ⟨hi, rfl⟩ := List.getElem?_eq_some_iff.mp hb
  have hi' : i < s.borrows.length := h.length_eq ▸ hi
  exact ⟨s.borrows[i], List.getElem?_eq_getElem hi', h.borrows.get hi' hi⟩

/-- A borrow of the first survey is one of the second, renamed. -/
theorem Follows.exists_getElem? (h : Follows σ q s s') {i : Nat} (hb : s.borrows[i]? = some b) :
    ∃ b', s'.borrows[i]? = some b' ∧ b.Renamed σ q b' := by
  obtain ⟨hi, rfl⟩ := List.getElem?_eq_some_iff.mp hb
  have hi' : i < s'.borrows.length := h.length_eq.symm ▸ hi
  exact ⟨s'.borrows[i], List.getElem?_eq_getElem hi', h.borrows.get hi hi'⟩

/-- The same borrow is held in a place and in the renamed one. -/
theorem Follows.get? (h : Follows σ q s s') (hσ : Proj.Faithful σ) :
    s'.holders.get? (x.rename σ) = s.holders.get? x := by
  rw [h.holders, Place.Map.get?_rename hσ]

/-! ### Parts of operations -/

/-- A use that `s'` does not see. -/
theorem Follows.touch_left (h : Follows σ q s s') : Follows σ q (s.touch x p) s' :=
  ⟨h.borrows, h.holders, List.subset_append_of_subset_left _ h.uses, h.scopes⟩

/-- A use that only the first survey sees does no harm: it makes loans last longer there. -/
theorem Follows.touchAll_left {xs : List Place} (h : Follows σ q s s') :
    Follows σ q (s.touchAll xs p) s' := by
  induction xs generalizing s with
  | nil => exact h
  | cons x xs ih => exact ih h.touch_left

section

variable (hσ : Proj.Faithful σ)

include hσ

theorem Follows.touch (h : Follows σ q s s') :
    Follows σ q (s.touch x p) (s'.touch (x.rename σ) p) := by
  refine ⟨h.borrows, h.holders, fun u hu => ?_, h.scopes⟩
  rcases List.mem_append.mp hu with hu | hu
  · exact List.mem_append_left _ (h.uses hu)
  · obtain ⟨e', he', rfl⟩ := List.mem_map.mp hu
    obtain ⟨hmem, hover⟩ := List.mem_filter.mp he'
    rw [h.holders] at hmem
    obtain ⟨e, he, rfl⟩ := Place.Map.mem_rename.mp hmem
    refine List.mem_append_right _ (List.mem_map.mpr ⟨e, List.mem_filter.mpr ⟨he, ?_⟩, rfl⟩)
    exact Place.overlaps_of_rename hσ hover

theorem Follows.touchAll {xs : List Place} (h : Follows σ q s s') :
    Follows σ q (s.touchAll xs p) (s'.touchAll (xs.map (Place.rename σ)) p) := by
  induction xs generalizing s s' with
  | nil => exact h
  | cons x xs ih => exact ih (h.touch hσ)

theorem Follows.forget (h : Follows σ q s s') :
    Follows σ q (s.forget x) (s'.forget (x.rename σ)) := by
  refine ⟨h.borrows, ?_, h.uses, h.scopes⟩
  simp only [Survey.forget, h.holders]
  refine (Place.Map.rename_keepKeys fun y => ?_).symm
  rw [Place.isPrefixOf_rename hσ]

/-- A write forgets what was held, or uses the reference that it goes through, in both. -/
theorem Follows.write (h : Follows σ q s s') :
    Follows σ q (s.write x p) (s'.write (x.rename σ) p) := by
  rw [Survey.write, Survey.write, Place.cut?_rename hσ]
  cases x.cut? with
  | none => exact h.forget hσ
  | some cut => exact h.touch hσ

theorem Follows.write? {target : Option Place} (h : Follows σ q s s') :
    Follows σ q (s.write? target p) (s'.write? (target.map (Place.rename σ)) p) := by
  cases target with
  | none => exact h
  | some x => exact h.write hσ

omit hσ in
/-- A borrow is added in both, with the same number. -/
theorem Follows.take (h : Follows σ q s s') (hb : b.Renamed σ q b')
    (horigin : b.parent ≠ none → b'.origin = b.origin) :
    Follows σ q (s.take b) (s'.take b') := by
  refine ⟨List.rel_append h.borrows (.cons hb .nil), h.holders, fun u hu => ?_, h.scopes⟩
  rcases List.mem_append.mp hu with hu | hu
  · exact List.mem_append_left _ (h.uses hu)
  · refine List.mem_append_right _ ?_
    rw [hb.parent] at hu
    cases hparent : b.parent with
    | none =>
      rw [hparent] at hu
      cases hu
    | some id =>
      rw [hparent, horigin (by rw [hparent]; simp)] at hu
      exact hu

theorem Follows.define (h : Follows σ q s s') (hb : b.Renamed σ q b')
    (horigin : b.parent ≠ none → b'.origin = b.origin) :
    Follows σ q (s.define x b) (s'.define (x.rename σ) b') := by
  have htake := h.take hb horigin
  refine ⟨htake.borrows, ?_, htake.uses, htake.scopes⟩
  simp only [Survey.define, h.holders, h.length_eq]
  exact (Place.Map.rename_put hσ _).symm

/-- **What a borrowed place stands for** is renamed with it. -/
theorem Follows.referentBelow (h : Follows σ q s s') (bound : Nat) (x : Place) :
    s'.referentBelow bound (x.rename σ) =
      ((s.referentBelow bound x).1.rename σ, (s.referentBelow bound x).2) := by
  fun_induction Survey.referentBelow s bound x with
  | case1 bound x hcut =>
    rw [Survey.referentBelow, Place.cut?_rename hσ, hcut, Option.map_none, h.get? hσ]
  | case2 bound x ref rest hcut hget =>
    rw [Survey.referentBelow, Place.cut?_rename hσ, hcut, Option.map_some]
    simp only [h.get? hσ, hget]
  | case3 bound x ref rest hcut id hget hlt hb =>
    have hb' : s'.borrows[id]? = none := by
      rw [List.getElem?_eq_none_iff, h.length_eq]
      exact List.getElem?_eq_none_iff.mp hb
    rw [Survey.referentBelow, Place.cut?_rename hσ, hcut, Option.map_some]
    simp only [h.get? hσ, hget, hlt, if_true, hb']
  | case4 bound x ref rest hcut id hget hlt b hb inner hinner deeper parent hrec ih =>
    obtain ⟨b', hb', hren⟩ := h.exists_getElem? hb
    have hinner' : b'.target.append (rest.map σ) = inner.rename σ := by
      rw [hren.target, Place.rename_append]
    rw [hrec] at ih
    rw [Survey.referentBelow, Place.cut?_rename hσ, hcut, Option.map_some]
    simp only [h.get? hσ, hget, hlt, if_true, hb', hinner', Place.throughRef_rename hσ, hinner, ih]
  | case5 bound x ref rest hcut id hget hlt b hb inner hinner deeper hrec ih =>
    obtain ⟨b', hb', hren⟩ := h.exists_getElem? hb
    have hinner' : b'.target.append (rest.map σ) = inner.rename σ := by
      rw [hren.target, Place.rename_append]
    rw [hrec] at ih
    rw [Survey.referentBelow, Place.cut?_rename hσ, hcut, Option.map_some]
    simp only [h.get? hσ, hget, hlt, if_true, hb', hinner', Place.throughRef_rename hσ, hinner, ih]
  | case6 bound x ref rest hcut id hget hlt b hb inner hinner =>
    obtain ⟨b', hb', hren⟩ := h.exists_getElem? hb
    have hinner' : b'.target.append (rest.map σ) = inner.rename σ := by
      rw [hren.target, Place.rename_append]
    rw [Survey.referentBelow, Place.cut?_rename hσ, hcut, Option.map_some]
    simp only [h.get? hσ, hget, hlt, if_true, hb', hinner', Place.throughRef_rename hσ, hinner,
      Bool.false_eq_true, if_false]
  | case7 bound x ref rest hcut id hget hlt =>
    rw [Survey.referentBelow, Place.cut?_rename hσ, hcut, Option.map_some]
    simp only [h.get? hσ, hget, hlt, if_false]

/-- The borrow that is taken is renamed like the place it is taken of. -/
theorem Follows.borrowOf (h : Follows σ q s s') (borrower : Option Place) (kind : BorrowKind)
    (x : Place) (p : Point) :
    (s.borrowOf borrower kind x p).Renamed σ q
      (s'.borrowOf (borrower.map (Place.rename σ)) kind (x.rename σ) p) := by
  have href : s'.referent (x.rename σ) = ((s.referent x).1.rename σ, (s.referent x).2) := by
    rw [referent, h.length_eq]
    exact h.referentBelow hσ _ x
  refine ⟨rfl, rfl, ?_, rfl, ?_, .inl rfl⟩ <;> simp only [Survey.borrowOf, href]

/-! ### Operations -/

theorem Follows.pass {a : Arg} (h : Follows σ q s s') :
    Follows σ q (s.pass p a) (s'.pass p (a.rename σ)) := by
  obtain ⟨x, mode⟩ := a
  cases mode with
  | value => exact h.touch hσ
  | lend kind => exact (h.touch hσ).take ((h.touch hσ).borrowOf hσ none kind x p) fun _ => rfl

theorem Follows.passAll {args : List Arg} (h : Follows σ q s s') :
    Follows σ q (args.foldl (Survey.pass p) s)
      ((args.map (Arg.rename σ)).foldl (Survey.pass p) s') := by
  induction args generalizing s s' with
  | nil => exact h
  | cons a args ih => exact ih (h.pass hσ)

theorem Follows.lend {kind : BorrowKind} {t : Place} (h : Follows σ q s s') :
    Follows σ q (s.lend kind t x p) (s'.lend kind (t.rename σ) (x.rename σ) p) :=
  ((h.touch hσ).write hσ).define hσ ((h.touch hσ).borrowOf hσ (some t) kind x p) fun _ => rfl

/-- What is held moves to the renamed target, as a reborrow of the same borrow. -/
theorem Follows.move {target : Option Place} (h : Follows σ q s s') :
    Follows σ q (s.move target x p) (s'.move (target.map (Place.rename σ)) (x.rename σ) p) := by
  have hwrite : Follows σ q ((s.touch x p).write? target p)
      ((s'.touch (x.rename σ) p).write? (target.map (Place.rename σ)) p) := (h.touch hσ).write? hσ
  have hget' := h.get? hσ (x := x)
  cases target with
  | none => exact hwrite
  | some t =>
    cases hget : s.holders.get? x with
    | none =>
      rw [hget] at hget'
      simpa [Survey.move, hget, hget'] using hwrite
    | some parent =>
      rw [hget] at hget'
      cases hb : s.borrows[parent]? with
      | none =>
        have hb' : s'.borrows[parent]? = none := by
          rw [List.getElem?_eq_none_iff, h.length_eq]
          exact List.getElem?_eq_none_iff.mp hb
        simpa [Survey.move, hget, hget', hb, hb'] using hwrite
      | some b =>
        obtain ⟨b', hb', hren⟩ := h.exists_getElem? hb
        rw [move_of_held hget hb, Option.map_some, move_of_held hget' hb']
        refine hwrite.define hσ ⟨rfl, hren.kind, hren.target, rfl, rfl, .inl rfl⟩ fun _ => rfl

omit hσ in
/-- Both leave a block with the same variables. -/
theorem Follows.exit (h : Follows σ q s s') : Follows σ q s.exit s'.exit := by
  rw [Survey.exit, Survey.exit, h.scopes]
  cases s.scopes.exit? with
  | none => exact h
  | some e =>
    refine ⟨h.borrows, ?_, h.uses, rfl⟩
    simp only [h.holders]
    exact (Place.Map.rename_keepKeys fun y => rfl).symm

/-- **An operation and its renaming** are surveyed alike. -/
theorem Follows.observe (h : Follows σ q s s') (op : Operation) :
    Follows σ q (s.observe op) (s'.observe (op.rename σ)) := by
  simp only [Survey.observe, Operation.kind_rename, Operation.target_rename,
    Operation.source_rename, Operation.sources_rename, Operation.args_rename,
    Operation.point_rename]
  cases op.kind with
  | declare =>
    cases op.target with
    | none => exact h
    | some x =>
      have hforget := h.forget hσ (x := x)
      exact ⟨hforget.borrows, hforget.holders, hforget.uses, by simp [Survey.forget, h.scopes]⟩
  | assign => exact (h.touchAll hσ).write? hσ
  | move =>
    cases op.source with
    | none => exact h
    | some x => exact h.move hσ
  | borrow kind =>
    cases op.target with
    | none => exact h
    | some t =>
      cases op.source with
      | none => exact h
      | some x => exact h.lend hσ
  | deref | use | ret => exact h.touchAll hσ
  | call => exact (h.passAll hσ).write? hσ
  | enter => exact ⟨h.borrows, h.holders, h.uses, congrArg Scopes.enter h.scopes⟩
  | exit => exact h.exit
  | unknown tag => exact h

omit hσ in
/-- **A use that is left out** makes no difference but to the uses. -/
theorem Follows.observe_left (h : Follows σ q s s') {op : Operation}
    (hop : op.kind = .use ∨ op.kind = .deref) : Follows σ q (s.observe op) s' := by
  rcases hop with hop | hop <;>
  · simp only [Survey.observe, hop]
    exact h.touchAll_left

/-- Parameters hold the same loans, whenever they come into existence. -/
theorem Follows.receive {e e' : Point} (he : e ≤ q) (he' : e' ≤ q) (h : Follows σ q s s')
    (param : Param) : Follows σ q (Survey.receive e s param) (Survey.receive e' s' param) := by
  have hscopes : Follows σ q { s with scopes := s.scopes.declare param.name }
      { s' with scopes := s'.scopes.declare param.name } :=
    ⟨h.borrows, h.holders, h.uses, by rw [h.scopes]⟩
  unfold Survey.receive
  cases param.ty.ref with
  | none => exact hscopes
  | some kind =>
    refine hscopes.define hσ (x := { base := param.name })
      ⟨rfl, rfl, rfl, ?_, rfl, .inr ⟨he, he'⟩⟩ fun hno => absurd rfl hno
    exact (Place.rename_deref hσ { base := param.name }).symm

theorem Follows.receiveAll {e e' : Point} (he : e ≤ q) (he' : e' ≤ q) (h : Follows σ q s s')
    (params : List Param) :
    Follows σ q (params.foldl (Survey.receive e) s) (params.foldl (Survey.receive e') s') := by
  induction params generalizing s s' with
  | nil => exact h
  | cons param params ih => exact ih (h.receive hσ he he' param)

end

end Survey

/-! ### Bodies -/

/-- The operations `ops'` are `ops` **thinned out** and renamed: some that only use a place are left
out. -/
inductive Thinned (σ : Proj → Proj) : List Operation → List Operation → Prop
  | nil : Thinned σ [] []
  | keep {ops ops' : List Operation} (op : Operation) :
    Thinned σ ops ops' → Thinned σ (ops ++ [op]) (ops' ++ [op.rename σ])
  | drop {ops ops' : List Operation} (op : Operation) : op.kind = .use ∨ op.kind = .deref →
    Thinned σ ops ops' → Thinned σ (ops ++ [op]) ops'

namespace Thinned

variable {σ : Proj → Proj} {ops ops' : List Operation} {f g : Function} {q : Point}

/-- **The surveys of a body and of one that is thinned out.** -/
theorem follows (h : Thinned σ ops ops') (hσ : Proj.Faithful σ) (hparams : g.params = f.params)
    (hf : f.entry ≤ q) (hg : g.entry ≤ q) :
    Survey.Follows σ q (Survey.after f ops) (Survey.after g ops') := by
  induction h with
  | nil =>
    rw [Survey.after, Survey.after, hparams]
    exact Survey.Follows.receiveAll hσ hf hg ⟨.nil, rfl, List.Subset.refl _, rfl⟩ f.params
  | keep op _ ih =>
    rw [Survey.after_concat, Survey.after_concat]
    exact ih.observe hσ op
  | drop op hop _ ih =>
    rw [Survey.after_concat]
    exact ih.observe_left hop

/-- The same blocks are left at the same points. -/
theorem endings_eq (h : Thinned σ ops ops') (hσ : Proj.Faithful σ) (hparams : g.params = f.params)
    (hf : f.entry ≤ q) (hg : g.entry ≤ q) :
    (Survey.after g []).endings ops' = (Survey.after f []).endings ops := by
  induction h with
  | nil => rfl
  | @keep ops ops' op hthin ih =>
    have hscopes : (Survey.after g ops').scopes = (Survey.after f ops).scopes :=
      (hthin.follows hσ hparams hf hg).scopes
    have hending :
        (Survey.after g ops').ending? (op.rename σ) = (Survey.after f ops).ending? op := by
      rw [Survey.ending?, Survey.ending?, hscopes]
      rfl
    rw [Survey.endings_append, Survey.endings_append, ih]
    simp only [Survey.endings]
    rw [show ops'.foldl Survey.observe (Survey.after g []) = Survey.after g ops' from rfl, hending]
    rfl
  | @drop ops ops' op hop hthin ih =>
    have hnone : (Survey.after f ops).ending? op = none :=
      Survey.ending?_eq_none _ (by rcases hop with hop | hop <;> rw [hop] <;> simp)
    rw [Survey.endings_append, ih]
    simp only [Survey.endings]
    rw [show ops.foldl Survey.observe (Survey.after f []) = Survey.after f ops from rfl, hnone]
    simp

end Thinned

/-! ### Books -/

/-- The loan `l` **outlasts** `l'`, which is `l` renamed, unless `l'` ends at `q` or before. -/
structure Loan.Outlasts (σ : Proj → Proj) (q : Point) (l l' : Loan) : Prop
    extends Borrow.Renamed σ q l.toBorrow l'.toBorrow where
  id : l'.id = l.id
  last : l'.last ≤ l.last ∨ l'.last ≤ q

namespace Loan

variable {σ : Proj → Proj} {q : Point} {l l' : Loan}

/-- Renaming leaves variables alone, so the loans of a block are the same. -/
theorem Outlasts.borrowedIn_eq (h : l.Outlasts σ q l') (names : List String) :
    l'.borrowedIn names = l.borrowedIn names := by
  rw [borrowedIn, borrowedIn, h.borrower]
  cases l.borrower with
  | none => rfl
  | some y => rw [Option.map_some]; rfl

/-- A loan lapses together with the one that outlasts it. -/
theorem Outlasts.lapsed_eq (h : l.Outlasts σ q l') {es : List Ending}
    (hes : ∀ e ∈ es, q < e.point) : l'.lapsed es = l.lapsed es := by
  rw [Bool.eq_iff_iff, lapsed, lapsed, List.any_eq_true, List.any_eq_true]
  refine exists_congr fun e => and_congr_right fun he => ?_
  have horigin : l'.origin < e.point ↔ l.origin < e.point := by
    rcases h.origin with heq | ⟨hle, hle'⟩
    · rw [heq]
    · exact iff_of_true (lt_of_le_of_lt hle' (hes e he)) (lt_of_le_of_lt hle (hes e he))
  rw [Bool.and_eq_true, Bool.and_eq_true, decide_eq_true_eq, decide_eq_true_eq, horigin,
    h.borrowedIn_eq]

end Loan

namespace LoanBook

/-- A book **outlasts** another one when each loan of that one is outlasted by a loan of its own. -/
def Outlasts (σ : Proj → Proj) (q : Point) (b b' : LoanBook) : Prop :=
  ∀ l' ∈ b'.loans, ∃ l ∈ b.loans, l.Outlasts σ q l'

variable {σ : Proj → Proj} {q : Point} {b b' : LoanBook}

/-- Loans are found under the same number. -/
theorem Outlasts.get? (h : b.Outlasts σ q b') (hb : b.Sound) (hb' : b'.Sound) {i : Nat} {l' : Loan}
    (hl' : b'.get? i = some l') : ∃ l, b.get? i = some l ∧ l.Outlasts σ q l' := by
  obtain ⟨l, hl, hout⟩ := h l' (mem_of_get? hl')
  rw [← hb'.id_eq i l' hl', hout.id]
  exact ⟨l, hb.get?_id hl, hout⟩

/-- Loans were taken through the same loans. -/
theorem Outlasts.lineageFrom_eq (h : b.Outlasts σ q b') (hb : b.Sound) (hb' : b'.Sound) {i : Nat}
    {l' : Loan} (hl' : b'.get? i = some l') : b'.lineageFrom i = b.lineageFrom i := by
  induction i using Nat.strong_induction_on generalizing l' with
  | _ i ih =>
    obtain ⟨l, hl, hout⟩ := h.get? hb hb' hl'
    rw [lineageFrom, lineageFrom, hl, hl', Option.bind_some, Option.bind_some, hout.parent]
    cases hparent : l.parent with
    | none => rfl
    | some p =>
      obtain ⟨-, m, hm, -⟩ := hb'.parent l' (mem_of_get? hl') p (hout.parent.trans hparent)
      dsimp only
      split
      next hlt => rw [ih p hlt hm]
      next => rfl

end LoanBook

namespace Function

variable {σ : Proj → Proj} {f g : Function} {ops rest : List Operation} {q : Point}

/-- **The loans of a body outlast those of the body thinned out.** -/
theorem outlasts_of_thinned (hσ : Proj.Faithful σ) (hops : f.ops = ops ++ rest)
    (hthin : Thinned σ ops g.ops) (hparams : g.params = f.params) (hf : f.entry ≤ q)
    (hg : g.entry ≤ q) : f.book.Outlasts σ q g.book := by
  have hfollows := hthin.follows hσ hparams hf hg
  have hrec := recorded_after hops
  -- every loan has its counterpart, with the same number and the same parent
  have hloan : ∀ l' ∈ g.book.loans, ∃ l, f.book.get? l'.id = some l ∧
      Borrow.Renamed σ q l.toBorrow l'.toBorrow := by
    intro l' hl'
    obtain ⟨b', hb', hlb', -⟩ := Survey.exists_of_book_get? (g.book_sound.get?_id hl')
    obtain ⟨b, hb, hren⟩ := hfollows.getElem? hb'
    obtain ⟨l, hl, hlb⟩ := hrec.loan l'.id b hb
    refine ⟨l, hl, ?_⟩
    rwa [hlb, hlb']
  have hthrough : ∀ i j, g.book.Through i j → f.book.Through i j := by
    rintro i j ⟨m', hm', hj⟩
    obtain ⟨m, hm, hren⟩ := hloan m' (LoanBook.mem_of_get? hm')
    rw [g.book_sound.id_eq i m' hm'] at hm
    exact ⟨m, hm, hren.parent.symm.trans hj⟩
  intro l' hl'
  obtain ⟨l, hl, hren⟩ := hloan l' hl'
  refine ⟨l, LoanBook.mem_of_get? hl, ⟨hren, (f.book_sound.id_eq _ l hl).symm, ?_⟩⟩
  -- the loan ends with a loan that was taken through it, at its origin or with a use of it
  obtain ⟨d', hd', hchain, hend⟩ := exists_chain_of_last hl'
  obtain ⟨d, hd, hdren⟩ := hloan d' hd'
  have hle : d.last ≤ l.last :=
    f.book_sound.last_le_of_chain (Relation.ReflTransGen.mono hthrough _ _ hchain) hd hl
  have horigin : d'.origin ≤ l.last ∨ d'.origin ≤ q := by
    rcases hdren.origin with heq | ⟨-, hearly⟩
    · rw [heq]
      exact .inl (le_trans (f.book_sound.origin_le_last d (LoanBook.mem_of_get? hd)) hle)
    · exact .inr hearly
  rw [hend]
  cases hborrower : d.borrower with
  | none =>
    -- a loan for the length of a call ends at its origin
    obtain ⟨b', hb', hdb', -⟩ := Survey.exists_of_book_get? (g.book_sound.get?_id hd')
    have htemp : d'.temporary = true := by
      rw [hdb', (Survey.sound_after g g.ops).temporary b' (List.mem_of_getElem? hb'), ← hdb',
        hdren.borrower, hborrower]
      rfl
    rwa [Survey.ownEnd, if_pos htemp]
  | some y =>
    rcases Survey.ownEnd_cases (Survey.after g g.ops) d'.id d'.toBorrow with heq | huse
    · rwa [heq]
    · exact .inl (le_trans (hrec.used _ (hfollows.uses huse) d y hd hborrower) hle)

end Function

end BorrowCheck
