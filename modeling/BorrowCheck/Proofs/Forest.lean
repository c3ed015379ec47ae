import BorrowCheck.Proofs.Liveness
import BorrowCheck.Proofs.Names

/-!
# The forest of reborrows

A borrow behind a reference is followed into the loan that the reference holds, and what this loan
lends may lie behind a reference again. Nothing in the text of a function keeps a reference from
being redefined through itself, at points in any order and in variables that were never declared,
so it is not plain that following ends. It does, because after the first one references are
followed into older loans only, and what is found is a forest.

The search is stated as a relation (`BorrowCheck.Survey.StandsFor`). It puts no bound on the first
reference and has no measure that gets smaller: that a place stands for something means that the
search for it is finite. A survey that searches in this way has exactly one result, the one that is
computed (`BorrowCheck.Function.surveyedAs_iff`).

In the book of a function (`BorrowCheck.LoanBook.Forest`) a loan is taken through an older one,
which lasts at least as long, and lends what this one lends or a part of it. So following the
parents of a loan ends too (`BorrowCheck.LoanBook.Ascends`). All this holds of every function,
whether or not it is well formed.
-/

namespace BorrowCheck

/-! ### Runs along a list -/

/-- A **run** of the steps that `step` allows, one for each element of a list. -/
inductive Runs {σ α : Type} (step : σ → α → σ → Prop) : σ → List α → σ → Prop
  | nil (s : σ) : Runs step s [] s
  | cons {s t u : σ} {a : α} {as : List α} (hstep : step s a t) (hrest : Runs step t as u) :
      Runs step s (a :: as) u

/-- Where each step has exactly one result, so has a run. -/
theorem runs_iff {σ α : Type} {step : σ → α → σ → Prop} {next : σ → α → σ} {P : σ → Prop}
    (hstep : ∀ s a t, P s → (step s a t ↔ t = next s a)) (hP : ∀ s a, P s → P (next s a))
    {s t : σ} {as : List α} (hs : P s) : Runs step s as t ↔ t = as.foldl next s := by
  induction as generalizing s with
  | nil =>
    constructor
    · intro h
      cases h
      rfl
    · rintro rfl
      exact .nil _
  | cons a as ih =>
    constructor
    · intro h
      cases h with
      | cons hfirst hrest =>
        rw [(hstep s a _ hs).mp hfirst] at hrest
        exact (ih (hP s a hs)).mp hrest
    · intro ht
      exact .cons ((hstep s a _ hs).mpr rfl) ((ih (hP s a hs)).mpr ht)

namespace Survey

variable {s : Survey} {x y : Place} {p : Point} {parent : Option Nat} {below : Option Nat}

/-! ### The search -/

/-- **What a borrow of `x` stands for**, with the loan it is taken through: the search as it is
carried out. References are followed into loans with a number below `below`, if there is a bound;
at first there is none. -/
inductive StandsFor (s : Survey) : Option Nat → Place → Place → Option Nat → Prop
  /-- A place that goes through no reference stands for itself. -/
  | direct {below : Option Nat} {x : Place} (hcut : x.cut? = none) :
      StandsFor s below x x (s.holders.get? x)
  /-- So does one behind a reference that holds nothing. -/
  | unheld {below : Option Nat} {x ref : Place} {rest : List Proj}
      (hcut : x.cut? = some (ref, rest)) (hget : s.holders.get? ref = none) :
      StandsFor s below x x none
  /-- The loan that the reference holds is not followed. -/
  | younger {below : Option Nat} {x ref : Place} {rest : List Proj} {id bound : Nat}
      (hcut : x.cut? = some (ref, rest)) (hget : s.holders.get? ref = some id)
      (hbelow : below = some bound) (hle : bound ≤ id) : StandsFor s below x x none
  /-- What the loan lends goes through no reference. -/
  | followed {below : Option Nat} {x ref : Place} {rest : List Proj} {id : Nat} {b : Borrow}
      (hcut : x.cut? = some (ref, rest)) (hget : s.holders.get? ref = some id)
      (hbelow : ∀ bound, below = some bound → id < bound) (hb : s.borrows[id]? = some b)
      (hend : (b.target.append rest).throughRef = false) :
      StandsFor s below x (b.target.append rest) (some id)
  /-- What the loan lends goes through a reference, which leads to another loan. -/
  | deeper {below : Option Nat} {x ref y : Place} {rest : List Proj} {id q : Nat} {b : Borrow}
      (hcut : x.cut? = some (ref, rest)) (hget : s.holders.get? ref = some id)
      (hbelow : ∀ bound, below = some bound → id < bound) (hb : s.borrows[id]? = some b)
      (hmore : (b.target.append rest).throughRef = true)
      (hrest : StandsFor s (some id) (b.target.append rest) y (some q)) :
      StandsFor s below x y (some q)
  /-- What the loan lends goes through a reference, which leads to no loan. -/
  | stuck {below : Option Nat} {x ref y : Place} {rest : List Proj} {id : Nat} {b : Borrow}
      (hcut : x.cut? = some (ref, rest)) (hget : s.holders.get? ref = some id)
      (hbelow : ∀ bound, below = some bound → id < bound) (hb : s.borrows[id]? = some b)
      (hmore : (b.target.append rest).throughRef = true)
      (hrest : StandsFor s (some id) (b.target.append rest) y none) :
      StandsFor s below x (b.target.append rest) (some id)

/-- What is held was taken. -/
theorem Sound.exists_borrow (h : s.Sound) {id : Nat} (hget : s.holders.get? x = some id) :
    ∃ b, s.borrows[id]? = some b := by
  obtain ⟨b, -, hb, -⟩ := h.of_held (held_of_get? hget)
  exact ⟨b, hb⟩

/-- A bound that no loan reaches is none. -/
theorem StandsFor.unbounded {n : Nat} (h : s.StandsFor (some n) x y parent)
    (hn : ∀ z id, s.holders.get? z = some id → id < n) : s.StandsFor none x y parent := by
  cases h with
  | direct hcut => exact .direct hcut
  | unheld hcut hget => exact .unheld hcut hget
  | younger hcut hget hbelow hle =>
    obtain rfl := Option.some.inj hbelow
    exact absurd (hn _ _ hget) (Nat.not_lt.mpr hle)
  | followed hcut hget hbelow hb hend => exact .followed hcut hget (by simp) hb hend
  | deeper hcut hget hbelow hb hmore hrest => exact .deeper hcut hget (by simp) hb hmore hrest
  | stuck hcut hget hbelow hb hmore hrest => exact .stuck hcut hget (by simp) hb hmore hrest

/-- **The search ends**: what is computed is found by it. -/
theorem standsFor_referentBelow (hs : s.Sound) (bound : Nat) (x : Place) :
    s.StandsFor (some bound) x (s.referentBelow bound x).1 (s.referentBelow bound x).2 := by
  fun_induction referentBelow s bound x with
  | case1 bound x hcut => exact .direct hcut
  | case2 bound x ref rest hcut hget => exact .unheld hcut hget
  | case3 bound x ref rest hcut id hget hlt hb =>
    -- a reference holds a loan that was taken
    obtain ⟨b, hb'⟩ := hs.exists_borrow hget
    rw [hb] at hb'
    cases hb'
  | case4 bound x ref rest hcut id hget hlt b hb inner hinner deeper parent hrec ih =>
    rw [hrec] at ih
    exact .deeper hcut hget (by rintro _ ⟨⟩; exact hlt) hb hinner ih
  | case5 bound x ref rest hcut id hget hlt b hb inner hinner deeper hrec ih =>
    rw [hrec] at ih
    exact .stuck hcut hget (by rintro _ ⟨⟩; exact hlt) hb hinner ih
  | case6 bound x ref rest hcut id hget hlt b hb inner hinner =>
    exact .followed hcut hget (by rintro _ ⟨⟩; exact hlt) hb (Bool.eq_false_iff.mpr hinner)
  | case7 bound x ref rest hcut id hget hlt => exact .younger hcut hget rfl (Nat.not_lt.mp hlt)

/-- **The search finds one thing only**: what is computed with a bound that keeps out the same
loans. -/
theorem StandsFor.eq_referentBelow (h : s.StandsFor below x y parent) {n : Nat}
    (hn : ∀ z id, s.holders.get? z = some id →
      (id < n ↔ ∀ bound, below = some bound → id < bound)) :
    s.referentBelow n x = (y, parent) := by
  -- after the first reference there is a bound, and it is the one of the computation
  have hbound : ∀ {id m : Nat}, id < m ↔ ∀ bound, some m = some bound → id < bound :=
    ⟨fun hlt => by rintro _ ⟨⟩; exact hlt, fun h => h _ rfl⟩
  induction h generalizing n with
  | direct hcut => rw [referentBelow, hcut]
  | unheld hcut hget =>
    rw [referentBelow]
    simp only [hcut, hget]
  | younger hcut hget hbelow hle =>
    have hlt : ¬_ < n := fun hlt => absurd ((hn _ _ hget).mp hlt _ hbelow) (Nat.not_lt.mpr hle)
    rw [referentBelow]
    simp only [hcut, hget, if_neg hlt]
  | followed hcut hget hbelow hb hend =>
    rw [referentBelow]
    simp [hcut, hget, (hn _ _ hget).mpr hbelow, hb, hend]
  | deeper hcut hget hbelow hb hmore hrest ih =>
    rw [referentBelow]
    simp [hcut, hget, (hn _ _ hget).mpr hbelow, hb, hmore, ih fun _ _ _ => hbound]
  | stuck hcut hget hbelow hb hmore hrest ih =>
    rw [referentBelow]
    simp [hcut, hget, (hn _ _ hget).mpr hbelow, hb, hmore, ih fun _ _ _ => hbound]

/-- **What a borrow stands for is what is computed**, though the search has no bound at first. -/
theorem standsFor_iff (hs : s.Sound) :
    s.StandsFor none x y parent ↔ s.referent x = (y, parent) := by
  have hn : ∀ z id, s.holders.get? z = some id → id < s.borrows.length := fun z id hget => by
    obtain ⟨b, hb⟩ := hs.exists_borrow hget
    exact (List.getElem?_eq_some_iff.mp hb).1
  constructor
  · intro h
    exact h.eq_referentBelow fun z id hget => iff_of_true (hn z id hget) (by simp)
  · intro h
    have hfound := (standsFor_referentBelow hs s.borrows.length x).unbounded hn
    rwa [← referent, h] at hfound

/-! ### The survey by searching -/

/-- An argument is **passed** at `p`, with a search for what it lends. -/
inductive Passes (p : Point) (s : Survey) (a : Arg) : Survey → Prop
  | value (hmode : a.mode = .value) : Passes p s a (s.touch a.place p)
  | lend {y : Place} {kind : BorrowKind} {parent : Option Nat} (hmode : a.mode = .lend kind)
      (hfound : (s.touch a.place p).StandsFor none a.place y parent) :
      Passes p s a ((s.touch a.place p).take
        { borrower := none, kind, origin := p, target := y, via := a.place, parent,
          temporary := true })

/-- An operation is **surveyed**, with a search for what it borrows. One that borrows nothing is
surveyed as it always is. -/
inductive Surveys (s : Survey) (op : Operation) : Survey → Prop
  | borrow {t x y : Place} {kind : BorrowKind} {parent : Option Nat}
      (hkind : op.kind = .borrow kind) (htarget : op.target = some t) (hsource : op.source = some x)
      (hfound : (s.touch x op.point).StandsFor none x y parent) :
      Surveys s op (((s.touch x op.point).write t op.point).define t
        { borrower := some t, kind, origin := op.point, target := y, via := x, parent })
  | call {t : Survey} (hkind : op.kind = .call)
      (hargs : Runs (Passes op.point) s op.args t) : Surveys s op (t.write? op.target op.point)
  | other (hcall : op.kind ≠ .call)
      (hborrow : ∀ kind, op.kind = .borrow kind → op.target = none ∨ op.source = none) :
      Surveys s op (s.observe op)

theorem passes_iff (hs : s.Sound) (a : Arg) (t : Survey) :
    Passes p s a t ↔ t = pass p s a := by
  constructor
  · intro h
    cases h with
    | value hmode => simp only [pass, hmode]
    | lend hmode hfound =>
      rw [standsFor_iff hs.touch] at hfound
      simp only [pass, hmode, borrowOf, hfound]
      rfl
  · rintro rfl
    cases hmode : a.mode with
    | value =>
      simp only [pass, hmode]
      exact .value hmode
    | lend kind =>
      simp only [pass, hmode]
      exact .lend hmode ((standsFor_iff hs.touch).mpr rfl)

theorem surveys_iff (hs : s.Sound) (op : Operation) (t : Survey) :
    Surveys s op t ↔ t = s.observe op := by
  have hargs : ∀ {u : Survey}, Runs (Passes op.point) s op.args u ↔
      u = op.args.foldl (pass op.point) s :=
    runs_iff (P := Sound) (fun _ a t hs => passes_iff hs a t) (fun _ _ hs => hs.pass) hs
  constructor
  · intro h
    cases h with
    | borrow hkind htarget hsource hfound =>
      rw [standsFor_iff hs.touch] at hfound
      simp only [observe, hkind, htarget, hsource, lend, borrowOf, hfound]
      rfl
    | call hkind hrun =>
      rw [hargs.mp hrun]
      simp only [observe, hkind]
    | other hcall hborrow => rfl
  · rintro rfl
    by_cases hcall : op.kind = .call
    · simp only [observe, hcall]
      exact .call hcall (hargs.mpr rfl)
    · by_cases hborrow : ∀ kind, op.kind = .borrow kind → op.target = none ∨ op.source = none
      · exact .other hcall hborrow
      · push Not at hborrow
        obtain ⟨kind, hkind, htarget, hsource⟩ := hborrow
        obtain ⟨t, htarget⟩ := Option.ne_none_iff_exists'.mp htarget
        obtain ⟨x, hsource⟩ := Option.ne_none_iff_exists'.mp hsource
        simp only [observe, hkind, htarget, hsource]
        exact .borrow hkind htarget hsource ((standsFor_iff hs.touch).mpr rfl)

end Survey

namespace Function

/-- A function is **surveyed as** `s`: this is what comes of taking in its parameters and surveying
its operations one after the other. -/
def SurveyedAs (f : Function) (s : Survey) : Prop :=
  Runs Survey.Surveys (f.params.foldl (Survey.receive f.entry) {}) f.ops s

/-- **Every function can be surveyed, in one way**: all searches end. -/
theorem surveyedAs_iff {f : Function} {s : Survey} :
    f.SurveyedAs s ↔ s = Survey.after f f.ops :=
  runs_iff (P := Survey.Sound) (fun _ op t hs => Survey.surveys_iff hs op t)
    (fun _ op hs => hs.observe op) (Survey.sound_after f [])

end Function

/-! ### Following parents -/

namespace LoanBook

variable {b : LoanBook} {l : Loan}

/-- Following parents **ascends** from a loan with the given parent through the loans `ids`, to one
that was not taken through another. -/
inductive Ascends (b : LoanBook) : Option Nat → List Nat → Prop
  | top : Ascends b none []
  | up {q : Nat} {m : Loan} {ids : List Nat} (hget : b.get? q = some m)
      (hrest : Ascends b m.parent ids) : Ascends b (some q) (q :: ids)

theorem Ascends.unique {parent : Option Nat} {ids ids' : List Nat} (h : b.Ascends parent ids)
    (h' : b.Ascends parent ids') : ids = ids' := by
  induction h generalizing ids' with
  | top =>
    cases h'
    rfl
  | up hget hrest ih =>
    cases h' with
    | up hget' hrest' =>
      obtain rfl := Option.some.inj (hget.symm.trans hget')
      rw [ih hrest']

/-- Following parents ends, and goes through the lineage. -/
theorem Sound.ascends_lineageFrom (hb : b.Sound) {i : Nat} (hget : b.get? i = some l) :
    b.Ascends l.parent (b.lineageFrom i) := by
  induction i using Nat.strongRecOn generalizing l with
  | ind i ih =>
    rw [lineageFrom, hget, Option.bind_some]
    cases hq : l.parent with
    | none => exact .top
    | some q =>
      obtain ⟨hlt, m, hm, -⟩ := hb.parent l (mem_of_get? hget) q hq
      rw [hb.id_eq i l hget] at hlt
      simp only [if_pos hlt]
      exact .up hm (ih q hlt hm)

theorem Sound.ascends_iff (hb : b.Sound) (hl : l ∈ b.loans) {ids : List Nat} :
    b.Ascends l.parent ids ↔ ids = b.lineage l := by
  have hascends := hb.ascends_lineageFrom (hb.get?_id hl)
  exact ⟨fun h => h.unique hascends, fun h => h ▸ hascends⟩

theorem Sound.map_id (hb : b.Sound) : b.loans.map (·.id) = List.range b.loans.length := by
  refine List.ext_getElem (by simp) fun i hi _ => ?_
  rw [List.getElem_map, List.getElem_range]
  exact hb.id_eq i _ (List.getElem?_eq_getElem _)

theorem Sound.wellFounded_through (hb : b.Sound) : WellFounded fun q i => b.Through i q := by
  refine Subrelation.wf (fun {q i} hthrough => ?_) Nat.lt_wfRel.wf
  obtain ⟨l, hl, hq⟩ := hthrough
  have hlt := (hb.parent l (mem_of_get? hl) q hq).1
  rwa [hb.id_eq i l hl] at hlt

/-- **A forest of loans**, of which the first `entries` ones are the roots that parameters hold. -/
structure Forest (b : LoanBook) (entries : Nat) : Prop where
  /-- Loans are numbered from 0 on. -/
  numbers : b.loans.map (·.id) = List.range b.loans.length
  /-- A loan is taken through an older one, which lasts at least as long. -/
  parent : ∀ l ∈ b.loans, ∀ q, l.parent = some q →
    q < l.id ∧ ∃ m ∈ b.loans, m.id = q ∧ l.last ≤ m.last
  wellFounded : WellFounded fun q i => b.Through i q
  /-- Following the parents of a loan ends, in one way. -/
  ascends : ∀ l ∈ b.loans, ∀ ids, b.Ascends l.parent ids ↔ ids = b.lineage l
  origin_le_last : ∀ l ∈ b.loans, l.origin ≤ l.last
  /-- A loan for the length of a call is stored nowhere, ends where it begins, and none is taken
  through it. -/
  temporary : ∀ l ∈ b.loans, l.temporary = true →
    l.borrower = none ∧ l.last = l.origin ∧ ∀ m ∈ b.loans, m.parent ≠ some l.id
  /-- A loan lends the place as it was written, or what its parent lends, or a part of that. -/
  target : ∀ l ∈ b.loans, entries ≤ l.id → l.target = l.via ∨
    ∃ m ∈ b.loans, l.parent = some m.id ∧ ∃ ps, l.target = m.target.append ps

end LoanBook

/-! ### The forest of a function -/

namespace Survey

variable {f : Function} {ops : List Operation} {b : Borrow} {i : Nat}

/-- **What a loan lends** is the place as it was written or a part of what its parent lends, unless
a parameter holds it from the beginning. -/
theorem target_of_taken (hi : (after f []).borrows.length ≤ i)
    (hb : (after f ops).borrows[i]? = some b) :
    b.target = b.via ∨ ∃ q a ps, b.parent = some q ∧ (after f ops).borrows[q]? = some a ∧
      b.target = a.target.append ps := by
  induction ops using List.reverseRecOn generalizing b with
  | nil =>
    rw [List.getElem?_eq_none hi] at hb
    cases hb
  | append_singleton ops op ih =>
    have hgrow := grows_observe (after f ops) op
    rw [← after_concat] at hgrow
    rcases Nat.lt_or_ge i (after f ops).borrows.length with hlt | hge
    · -- an older loan, whose parent is older still
      have hold := List.getElem?_eq_getElem hlt
      obtain rfl := Option.some.inj ((hgrow.getElem? hold).symm.trans hb)
      refine (ih hold).imp_right ?_
      rintro ⟨q, a, ps, hparent, ha, htarget⟩
      exact ⟨q, a, ps, hparent, hgrow.getElem? ha, htarget⟩
    · -- a loan of this operation, whose parent was there before it
      rw [after_concat] at hb
      refine (takenFrom_of_new (sound_after f ops) hge hb).target.imp_right ?_
      rintro ⟨q, a, ps, -, ha, hparent, htarget⟩
      exact ⟨q, a, ps, hparent, hgrow.getElem? ha, htarget⟩

/-- The loans of the book are those that the survey took, in the same order. -/
theorem map_book (s : Survey) : s.book.loans.map (·.toBorrow) = s.borrows := by
  refine List.ext_getElem? fun i => ?_
  rw [List.getElem?_map]
  change (s.book.get? i).map _ = _
  rw [book_get?]
  cases s.borrows[i]? <;> rfl

end Survey

namespace Function

variable {f : Function} {l : Loan}

/-- The loans that the parameters of a function hold from the beginning. -/
def entryLoans (f : Function) : List Borrow :=
  f.params.filterMap (Survey.entryBorrow? f.entry)

theorem borrows_after_nil (f : Function) : (Survey.after f []).borrows = f.entryLoans := by
  rw [Survey.after, List.foldl_nil, Survey.borrows_receive]
  rfl

/-- **The loans of a function are numbered in the order in which they are taken**: those of the
parameters come first, then those of the operations, one operation after the other, and in a call
one argument after the other. -/
structure TakenInOrder (f : Function) : Prop where
  params : f.entryLoans <+: f.book.loans.map (·.toBorrow)
  ops : ∀ pre post, f.ops = pre ++ post →
    (Survey.after f pre).borrows <+: f.book.loans.map (·.toBorrow)
  args : ∀ pre op post args rest, f.ops = pre ++ op :: post → op.kind = .call →
    op.args = args ++ rest → (args.foldl (Survey.pass op.point) (Survey.after f pre)).borrows <+:
      f.book.loans.map (·.toBorrow)

theorem takenInOrder (f : Function) : f.TakenInOrder := by
  have hops : ∀ pre post, f.ops = pre ++ post →
      (Survey.after f pre).borrows <+: f.book.loans.map (·.toBorrow) := by
    intro pre post hsplit
    obtain ⟨new, hnew, -⟩ := (Survey.grows_after f pre post).borrows
    rw [book, Survey.map_book, hsplit, hnew]
    exact List.prefix_append _ _
  refine ⟨?_, hops, fun pre op post args rest hsplit hkind hargs => ?_⟩
  · rw [← borrows_after_nil]
    exact hops [] f.ops rfl
  · refine List.IsPrefix.trans ?_ (hops (pre ++ [op]) post (by rw [hsplit, List.append_cons]))
    have hobserve : (Survey.after f (pre ++ [op])).borrows =
        (op.args.foldl (Survey.pass op.point) (Survey.after f pre)).borrows := by
      rw [Survey.after_concat]
      simp only [Survey.observe, hkind, Survey.borrows_write?]
    have hgrow : Survey.Grows (· = op.point)
        (args.foldl (Survey.pass op.point) (Survey.after f pre))
        (rest.foldl (Survey.pass op.point)
          (args.foldl (Survey.pass op.point) (Survey.after f pre))) :=
      Survey.grows_foldl _ fun _ _ _ => Survey.grows_pass
    obtain ⟨new, hnew, -⟩ := hgrow.borrows
    rw [hobserve, hargs, List.foldl_append, hnew]
    exact List.prefix_append _ _

/-- A loan for the length of a call is stored nowhere. -/
theorem borrower_eq_none_of_temporary (hl : l ∈ f.book.loans) (htemp : l.temporary = true) :
    l.borrower = none := by
  obtain ⟨c, hc, rfl, -⟩ := Survey.exists_of_book_get? (f.book_sound.get?_id hl)
  rw [(Survey.sound_after f f.ops).temporary _ (List.mem_of_getElem? hc)] at htemp
  exact Option.isNone_iff_eq_none.mp htemp

/-- None is taken through a loan for the length of a call. -/
theorem parent_ne_of_temporary (hl : l ∈ f.book.loans) (htemp : l.temporary = true) {m : Loan}
    (hm : m ∈ f.book.loans) : m.parent ≠ some l.id := by
  intro hparent
  have hno := borrower_eq_none_of_temporary hl htemp
  obtain ⟨c, hc, rfl, -⟩ := Survey.exists_of_book_get? (f.book_sound.get?_id hm)
  -- the parent of a loan is held by a variable
  obtain ⟨-, ⟨a, y, ha, hy⟩, -⟩ := (Survey.sound_after f f.ops).parent _ _ _ hc hparent
  obtain ⟨a', ha', rfl, -⟩ := Survey.exists_of_book_get? (f.book_sound.get?_id hl)
  obtain rfl := Option.some.inj (ha'.symm.trans ha)
  rw [hy] at hno
  cases hno

theorem target_of_mem_book (hl : l ∈ f.book.loans) (hid : f.entryLoans.length ≤ l.id) :
    l.target = l.via ∨
      ∃ m ∈ f.book.loans, l.parent = some m.id ∧ ∃ ps, l.target = m.target.append ps := by
  obtain ⟨c, hc, rfl, -⟩ := Survey.exists_of_book_get? (f.book_sound.get?_id hl)
  rw [← borrows_after_nil] at hid
  refine (Survey.target_of_taken hid hc).imp_right ?_
  rintro ⟨q, a, ps, hparent, ha, htarget⟩
  obtain ⟨m, hm, rfl, rfl⟩ := exists_loan_of_getElem? ha
  exact ⟨m, hm, hparent, ps, htarget⟩

theorem book_forest (f : Function) : f.book.Forest f.entryLoans.length where
  numbers := f.book_sound.map_id
  parent l hl q hq := by
    obtain ⟨hlt, m, hm, hle⟩ := f.book_sound.parent l hl q hq
    exact ⟨hlt, m, LoanBook.mem_of_get? hm, f.book_sound.id_eq q m hm, hle⟩
  wellFounded := f.book_sound.wellFounded_through
  ascends _ hl _ := f.book_sound.ascends_iff hl
  origin_le_last := f.book_sound.origin_le_last
  temporary l hl htemp := by
    have hno := borrower_eq_none_of_temporary hl htemp
    exact ⟨hno, f.book_sound.temporary l hl hno, fun _ hm => parent_ne_of_temporary hl htemp hm⟩
  target _ hl hid := target_of_mem_book hl hid

/-- **The forest of reborrows.** The survey of any function ends, with one result. Its loans are
numbered in the order in which they are taken, and they form a forest. -/
theorem reborrows_form_forest (f : Function) :
    (∃! s, f.SurveyedAs s) ∧ (∀ s, f.SurveyedAs s → s.book = f.book) ∧ f.TakenInOrder ∧
      f.book.Forest f.entryLoans.length := by
  refine ⟨⟨Survey.after f f.ops, surveyedAs_iff.mpr rfl, fun s hs => surveyedAs_iff.mp hs⟩,
    fun s hs => ?_, f.takenInOrder, f.book_forest⟩
  rw [surveyedAs_iff.mp hs]
  rfl

end Function

end BorrowCheck
