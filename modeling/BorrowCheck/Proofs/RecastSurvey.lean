import BorrowCheck.Proofs.Recast
import BorrowCheck.Proofs.Side

/-!
# The survey of a recast function

The survey of a body in other words is the survey in other words
(`BorrowCheck.Recast.survey_observe`), loan by loan and use by use, and so is the book
(`BorrowCheck.Recast.book_survey`).

What the survey looks up has to be around (`BorrowCheck.Recast.Knows`). It looks up more than what
an operation names: a borrow behind a reference follows it to what it points at, and may come to a
variable that is no longer there. Such a variable holds nothing, so the borrow then stands for a
place behind it, and it is enough that the loans behind references which are taken are of variables
that are around (`BorrowCheck.Recast.Traces`).
-/

namespace BorrowCheck

/-- The place in which an operation may **store** a reference. -/
def Operation.stored? (op : Operation) : Option Place :=
  match op.kind with
  | .move | .borrow _ => op.target
  | _ => none

/-- A reference is stored in the target or nowhere. -/
theorem Operation.target_of_stored? {op : Operation} {x : Place} (h : op.stored? = some x) :
    op.target = some x := by
  unfold stored? at h
  split at h
  · exact h
  · exact h
  · cases h

namespace Survey

variable {s : Survey} {op : Operation} {n : String}

/-- An operation brings no variable into scope but its target. -/
theorem mem_names_of_observe (hn : n ∈ (s.observe op).scopes.names) :
    n ∈ s.scopes.names ∨ ∃ x, op.target = some x ∧ x.base = n := by
  unfold Survey.observe at hn
  cases hkind : op.kind with
  | declare =>
    simp only [hkind] at hn
    cases hx : op.target with
    | none => exact Or.inl (by simpa only [hx] using hn)
    | some x =>
      simp only [hx] at hn
      exact (Scopes.mem_names_declare.mp hn).imp_right fun heq => ⟨x, rfl, heq.symm⟩
  | exit =>
    simp only [hkind, Survey.exit] at hn
    cases hexit : s.scopes.exit? with
    | none => exact Or.inl (by simpa only [hexit] using hn)
    | some left =>
      simp only [hexit] at hn
      exact Or.inl (Scopes.names_of_exit? hexit ▸ List.mem_append_right _ hn)
  | move => cases hx : op.source <;> simp_all
  | borrow kind => cases hx : op.target <;> cases hy : op.source <;> simp_all
  | enter =>
    simp only [hkind] at hn
    exact Or.inl hn
  | assign | deref | use | ret | call | unknown tag => exact Or.inl (by simpa [hkind] using hn)

end Survey

namespace Recast

variable {ρ : Recast} {x : Place}

/-! ### Surveys -/

/-- The survey in other words. -/
def survey (ρ : Recast) (s : Survey) : Survey :=
  { borrows := s.borrows.map ρ.borrow
    holders := ρ.table id s.holders
    uses := s.uses.map fun u => (u.1, ρ.point u.2)
    scopes := ρ.scopes s.scopes }

/-- What a survey looks up is around: the variables that hold loans, and those in scope. -/
structure Knows (ρ : Recast) (s : Survey) : Prop where
  holders : ρ.Covers s.holders
  scopes : ∀ n ∈ s.scopes.names, ρ.around n

/-- The loans of `t` beyond the first `k` that lie behind a reference lie in variables that are
around. -/
def Traces (ρ : Recast) (k : Nat) (t : Survey) : Prop :=
  ∀ i b, k ≤ i → t.borrows[i]? = some b → b.target.throughRef = true → ρ.around b.target.base

section Surveys

variable {s t : Survey} {y : Place} {p : Point} {b : Borrow} {k : Nat}

/-- What holds of the loans taken so far holds of those taken before. -/
theorem Traces.of_grows {P : Point → Prop} (h : ρ.Traces k t) (hgrow : s.Grows P t) :
    ρ.Traces k s :=
  fun i b hi hb => h i b hi (hgrow.getElem? hb)

theorem Traces.of_le {n : Nat} (h : ρ.Traces k t) (hle : k ≤ n) : ρ.Traces n t :=
  fun i b hi => h i b (Nat.le_trans hle hi)

@[simp] theorem length_survey : (ρ.survey s).borrows.length = s.borrows.length :=
  List.length_map ρ.borrow

theorem getElem?_survey (i : Nat) : (ρ.survey s).borrows[i]? = (s.borrows[i]?).map ρ.borrow :=
  List.getElem?_map

/-- Taking a loan goes along with the change of words, and so does the use that it makes of its
parent. -/
theorem survey_take : ρ.survey (s.take b) = (ρ.survey s).take (ρ.borrow b) := by
  have huses : (b.parent.map fun parent => (parent, b.origin)).toList.map
      (fun u => (u.1, ρ.point u.2)) =
      ((ρ.borrow b).parent.map fun parent => (parent, (ρ.borrow b).origin)).toList := by
    show _ = (b.parent.map fun parent => (parent, ρ.point b.origin)).toList
    cases b.parent <;> rfl
  simp only [survey, Survey.take, List.map_append, huses, List.map_singleton]

section Holders

variable (hs : ρ.Covers s.holders) (hx : ρ.around x.base)
include hs hx

/-- The loan that a place holds is found under the other words; numbers stay. -/
theorem get?_survey : (ρ.survey s).holders.get? (ρ.place x) = s.holders.get? x := by
  rw [survey, get?_table hs hx, Option.map_id]
  rfl

/-- A use is logged for the same borrowers, at the other point. -/
theorem survey_touch (p : Point) :
    ρ.survey (s.touch x p) = (ρ.survey s).touch (ρ.place x) (ρ.point p) := by
  have htouched := filter_map_of_mem (g := fun e : Place × Nat => (ρ.place e.1, id e.2))
    (p := fun e => e.1.overlaps (ρ.place x)) fun e he => overlaps_place (hs e he) hx
  rw [survey, Survey.touch, Survey.touch, survey, table, htouched]
  simp [Function.comp_def]

/-- The same borrowers are forgotten. -/
theorem survey_forget : ρ.survey (s.forget x) = (ρ.survey s).forget (ρ.place x) := by
  have hkeep := table_keepKeys (ρ := ρ) (g := (id : Nat → Nat)) (fun y => !x.isPrefixOf y)
    (fun y => !(ρ.place x).isPrefixOf y) fun e he =>
      congrArg (!·) (isPrefixOf_place hx (hs e he))
  simp only [survey, Survey.forget, hkeep]

/-- A write goes along with the change of words: through a reference, or to the place itself. -/
theorem survey_write (p : Point) :
    ρ.survey (s.write x p) = (ρ.survey s).write (ρ.place x) (ρ.point p) := by
  unfold Survey.write
  rw [cut?_place]
  cases hcut : x.cut? with
  | none => exact survey_forget hs hx
  | some cut =>
    have href : ρ.around cut.1.base := by
      rw [Place.cut?_fst hcut]
      exact hx
    exact survey_touch hs href p

/-- So does storing a reference. -/
theorem survey_define : ρ.survey (s.define x b) = (ρ.survey s).define (ρ.place x) (ρ.borrow b) := by
  have hput := table_put (g := (id : Nat → Nat)) hs hx s.borrows.length
  have htake := survey_take (ρ := ρ) (s := s) (b := b)
  rw [Survey.define, Survey.define, ← htake, length_survey]
  exact congrArg (fun holders => { ρ.survey (s.take b) with holders }) hput

end Holders

/-- A write adds no borrower. -/
theorem covers_write (hs : ρ.Covers s.holders) (x : Place) (p : Point) :
    ρ.Covers (s.write x p).holders := by
  unfold Survey.write
  split
  · exact hs
  · exact hs.keepKeys _

/-- Several uses go along one after the other. -/
theorem survey_touchAll (hs : ρ.Covers s.holders) {xs : List Place}
    (hxs : ∀ x ∈ xs, ρ.around x.base) (p : Point) :
    ρ.survey (s.touchAll xs p) = (ρ.survey s).touchAll (xs.map ρ.place) (ρ.point p) := by
  induction xs generalizing s with
  | nil => rfl
  | cons x xs ih =>
    rw [List.forall_mem_cons] at hxs
    refine (ih (s := s.touch x p) hs hxs.2).trans ?_
    rw [survey_touch hs hxs.1]
    rfl

/-- A missing target is missing in any words. -/
theorem survey_write? (hs : ρ.Covers s.holders) {target : Option Place}
    (ht : ∀ x, target = some x → ρ.around x.base) (p : Point) :
    ρ.survey (s.write? target p) = (ρ.survey s).write? (target.map ρ.place) (ρ.point p) := by
  cases target with
  | none => rfl
  | some x => exact survey_write hs (ht x rfl) p

/-- A variable that is not around holds nothing. -/
theorem referentBelow_of_not_around (hs : ρ.Covers s.holders) (hx : ¬ρ.around x.base)
    (href : x.throughRef = true) (bound : Nat) : s.referentBelow bound x = (x, none) := by
  obtain ⟨⟨ref, rest⟩, hcut⟩ := Option.isSome_iff_exists.mp (x.cut?_isSome.trans href)
  have hget : s.holders.get? ref = none := hs.get?_eq_none (Place.cut?_fst hcut ▸ hx)
  rw [Survey.referentBelow, hcut]
  simp only [hget]

/-- **A borrow stands for the same place in other words.** Where a reference is followed into a
variable that is not around, it holds nothing there, and the borrow stands for a place behind it. -/
theorem referentBelow_survey (hs : ρ.Covers s.holders) (bound : Nat) (x : Place)
    (hx : ρ.around x.base)
    (href : (s.referentBelow bound x).1.throughRef = true →
      ρ.around (s.referentBelow bound x).1.base) :
    (ρ.survey s).referentBelow bound (ρ.place x) =
      (ρ.place (s.referentBelow bound x).1, (s.referentBelow bound x).2) := by
  fun_induction Survey.referentBelow s bound x with
  | case1 bound x hcut =>
    rw [Survey.referentBelow, cut?_place, hcut]
    simp only [Option.map_none, get?_survey hs hx]
  | case2 bound x ref rest hcut hget =>
    have hget' := get?_survey (x := ref) hs (Place.cut?_fst hcut ▸ hx)
    rw [Survey.referentBelow, cut?_place, hcut]
    simp only [Option.map_some, hget', hget]
  | case3 bound x ref rest hcut id hget hlt hb =>
    have hget' := get?_survey (x := ref) hs (Place.cut?_fst hcut ▸ hx)
    rw [Survey.referentBelow, cut?_place, hcut]
    simp only [Option.map_some, hget', hget, hlt, if_true, getElem?_survey, hb, Option.map_none]
  | case4 bound x ref rest hcut id hget hlt b hb inner hinner deeper parent hrec ih =>
    have hget' := get?_survey (x := ref) hs (Place.cut?_fst hcut ▸ hx)
    have hplace : (ρ.borrow b).target.append (rest.map ρ.proj) = ρ.place inner :=
      (place_append b.target rest).symm
    have haround : ρ.around inner.base := by
      by_contra hnot
      rw [referentBelow_of_not_around hs hnot hinner] at hrec
      cases hrec
    have ih := ih haround (by rw [hrec]; exact href)
    rw [hrec] at ih
    rw [Survey.referentBelow, cut?_place, hcut]
    simp only [Option.map_some, hget', hget, hlt, if_true, getElem?_survey, hb, hplace,
      throughRef_place, hinner, ih]
  | case5 bound x ref rest hcut id hget hlt b hb inner hinner deeper hrec ih =>
    have hget' := get?_survey (x := ref) hs (Place.cut?_fst hcut ▸ hx)
    have hplace : (ρ.borrow b).target.append (rest.map ρ.proj) = ρ.place inner :=
      (place_append b.target rest).symm
    have hdeeper : deeper = inner := by
      rcases s.referentBelow_cases id inner with ⟨-, h⟩ | ⟨-, h⟩ | ⟨-, _, _, _, -, -, h⟩
      · exact (Prod.mk.inj (hrec.symm.trans h)).1
      · exact (Prod.mk.inj (hrec.symm.trans h)).1
      · cases hrec.symm.trans h
    have ih := ih (href hinner) (by rw [hrec, hdeeper]; exact href)
    rw [hrec] at ih
    rw [Survey.referentBelow, cut?_place, hcut]
    simp only [Option.map_some, hget', hget, hlt, if_true, getElem?_survey, hb, hplace,
      throughRef_place, hinner, ih]
  | case6 bound x ref rest hcut id hget hlt b hb inner hinner =>
    have hget' := get?_survey (x := ref) hs (Place.cut?_fst hcut ▸ hx)
    have hplace : (ρ.borrow b).target.append (rest.map ρ.proj) = ρ.place inner :=
      (place_append b.target rest).symm
    rw [Survey.referentBelow, cut?_place, hcut]
    simp only [Option.map_some, hget', hget, hlt, if_true, getElem?_survey, hb, hplace,
      throughRef_place, hinner, Bool.false_eq_true, if_false]
  | case7 bound x ref rest hcut id hget hlt =>
    have hget' := get?_survey (x := ref) hs (Place.cut?_fst hcut ▸ hx)
    rw [Survey.referentBelow, cut?_place, hcut]
    simp only [Option.map_some, hget', hget, hlt, if_false]

/-- The loan that a borrow takes is the same in other words, once what it stands for is. -/
theorem borrowOf_survey (hs : ρ.Covers s.holders) (hx : ρ.around x.base) (borrower : Option Place)
    (kind : BorrowKind) (p : Point)
    (href : (s.borrowOf borrower kind x p).target.throughRef = true →
      ρ.around (s.borrowOf borrower kind x p).target.base) :
    (ρ.survey s).borrowOf (borrower.map ρ.place) kind (ρ.place x) (ρ.point p) =
      ρ.borrow (s.borrowOf borrower kind x p) := by
  have hreferent := referentBelow_survey hs s.borrows.length x hx href
  simp only [Survey.borrowOf, Survey.referent, length_survey, hreferent, borrow, lien,
    Option.isNone_map]

/-! #### Operations -/

/-- Passing an argument goes along with the change of words. -/
theorem survey_pass {a : Arg} (hs : ρ.Covers s.holders)
    (ha : ρ.around a.place.base)
    (htrace : ρ.Traces s.borrows.length (Survey.pass p s a)) :
    ρ.survey (Survey.pass p s a) = Survey.pass (ρ.point p) (ρ.survey s) (ρ.arg a) := by
  have htouch := survey_touch hs ha p
  simp only [Survey.pass, arg, ← htouch] at htrace ⊢
  cases hmode : a.mode with
  | value => rfl
  | lend kind =>
    simp only [hmode] at htrace
    have hborrow := borrowOf_survey (s := s.touch a.place p) hs ha none kind p
      (htrace s.borrows.length _ (Nat.le_refl _) List.getElem?_concat_length)
    rw [Option.map_none] at hborrow
    simp only [hborrow, survey_take]

/-- So does passing all arguments of a call: each takes its loan after those of the ones before. -/
theorem survey_passAll {args : List Arg} (hs : ρ.Covers s.holders)
    (hargs : ∀ a ∈ args, ρ.around a.place.base)
    (htrace : ρ.Traces s.borrows.length (args.foldl (Survey.pass p) s)) :
    ρ.survey (args.foldl (Survey.pass p) s) =
      (args.map ρ.arg).foldl (Survey.pass (ρ.point p)) (ρ.survey s) := by
  induction args generalizing s with
  | nil => rfl
  | cons a args ih =>
    rw [List.forall_mem_cons] at hargs
    rw [List.foldl_cons] at htrace ⊢
    have hgrow : (Survey.pass p s a).Grows (· = p)
        (args.foldl (Survey.pass p) (Survey.pass p s a)) :=
      Survey.grows_foldl _ fun _ _ _ => Survey.grows_pass
    have hcovers : ρ.Covers (Survey.pass p s a).holders := by rwa [Survey.holders_pass]
    have hlen : s.borrows.length ≤ (Survey.pass p s a).borrows.length :=
      (Survey.grows_pass (p := p)).length_le
    rw [ih hcovers hargs.2 (htrace.of_le hlen), survey_pass hs hargs.1 (htrace.of_grows hgrow),
      List.map_cons, List.foldl_cons]

/-- So does storing a borrow. -/
theorem survey_lend {kind : BorrowKind} (hs : ρ.Covers s.holders) (hy : ρ.around y.base)
    (hx : ρ.around x.base) (htrace : ρ.Traces s.borrows.length (s.lend kind y x p)) :
    ρ.survey (s.lend kind y x p) =
      (ρ.survey s).lend kind (ρ.place y) (ρ.place x) (ρ.point p) := by
  have hborrow := borrowOf_survey (s := s.touch x p) hs hx (some y) kind p
    (htrace s.borrows.length _ (Nat.le_refl _) (by simp [Survey.lend, Survey.define, Survey.take]))
  rw [Option.map_some] at hborrow
  rw [Survey.lend, Survey.lend, ← survey_touch hs hx, hborrow,
    ← survey_write (s := s.touch x p) hs hy,
    survey_define (covers_write (s := s.touch x p) hs y p) hy]

/-- So does a move: the source holds a loan in both surveys or in none. -/
theorem survey_move {target : Option Place} (hs : ρ.Covers s.holders)
    (ht : ∀ y, target = some y → ρ.around y.base) (hx : ρ.around x.base) :
    ρ.survey (s.move target x p) =
      (ρ.survey s).move (target.map ρ.place) (ρ.place x) (ρ.point p) := by
  cases target with
  | none => exact survey_touch hs hx p
  | some y =>
    have hy := ht y rfl
    have hwrite : ρ.survey ((s.touch x p).write y p) =
        ((ρ.survey s).touch (ρ.place x) (ρ.point p)).write (ρ.place y) (ρ.point p) := by
      rw [survey_write (s := s.touch x p) hs hy, survey_touch hs hx]
    have hget := get?_survey hs hx
    have hfound : ((ρ.survey s).holders.get? (ρ.place x)).bind (fun q => (ρ.survey s).borrows[q]?) =
        ((s.holders.get? x).bind fun q => s.borrows[q]?).map ρ.borrow := by
      rw [hget]
      cases s.holders.get? x with
      | none => rfl
      | some q => exact getElem?_survey q
    cases hheld : (s.holders.get? x).bind fun q => s.borrows[q]? with
    | none =>
      rw [hheld] at hfound
      rw [Survey.move_of_not_held hheld, Option.map_some, Survey.move_of_not_held hfound, hwrite]
    | some b =>
      obtain ⟨q, hq, hb⟩ := Option.bind_eq_some_iff.mp hheld
      have hb' : (ρ.survey s).borrows[q]? = some (ρ.borrow b) := by
        rw [getElem?_survey, hb]
        rfl
      rw [Survey.move_of_held hq hb, Option.map_some, Survey.move_of_held (hget.trans hq) hb',
        survey_define (covers_write (s := s.touch x p) hs y p) hy, hwrite]
      rfl

/-- So does leaving a block, because the variables that end are among those in scope. -/
theorem survey_exit (hs : ρ.Knows s) : ρ.survey s.exit = (ρ.survey s).exit := by
  unfold Survey.exit
  rw [show (ρ.survey s).scopes = ρ.scopes s.scopes from rfl, exit?_scopes]
  cases hexit : s.scopes.exit? with
  | none => rfl
  | some left =>
    obtain ⟨dead, scopes⟩ := left
    have hdead : ∀ n ∈ dead, ρ.around n := fun n hn => hs.scopes n (by
      rw [Scopes.names_of_exit? hexit]
      exact List.mem_append_left _ hn)
    have hkeep := table_keepKeys (ρ := ρ) (g := (id : Nat → Nat)) (fun y => !dead.contains y.base)
      (fun y => !(dead.map ρ.name).contains y.base) fun e he =>
        congrArg (!·) (contains_names hdead (hs.holders e he))
    simp only [survey, Option.map_some, hkeep]

/-- **An operation in other words is observed as it was.** -/
theorem survey_observe {op : Operation} (hs : ρ.Knows s) (hop : ∀ x ∈ op.named, ρ.around x.base)
    (htrace : ρ.Traces s.borrows.length (s.observe op)) :
    ρ.survey (s.observe op) = (ρ.survey s).observe (ρ.operation op) := by
  have htarget : ∀ x, op.target = some x → ρ.around x.base :=
    fun x hx => hop x (by simp [Operation.named, hx])
  have hplaces : ∀ x ∈ op.sources, ρ.around x.base :=
    fun x hx => hop x (by simp [Operation.named, hx])
  have hsource : ∀ x, op.source = some x → ρ.around x.base :=
    fun x hx => hplaces x (Operation.mem_sources_of_source hx)
  have hargs : ∀ a ∈ op.args, ρ.around a.place.base :=
    fun a ha => hop a.place (List.mem_append_right _ (List.mem_map_of_mem ha))
  unfold Survey.observe at htrace ⊢
  rw [kind_operation]
  cases hkind : op.kind with
  | declare =>
    rw [target_operation]
    cases hx : op.target with
    | none => rfl
    | some x =>
      have hforget := survey_forget hs.holders (htarget x hx)
      simp only [Option.map_some, ← hforget]
      simp only [survey, scopes_declare]
      rfl
  | assign =>
    have hcovers : ρ.Covers (s.touchAll op.sources op.point).holders := by
      rw [Survey.holders_touchAll]
      exact hs.holders
    simp only [survey_write? hcovers htarget, survey_touchAll hs.holders hplaces,
      sources_operation, target_operation, point_operation]
  | move =>
    rw [source_operation]
    cases hx : op.source with
    | none => rfl
    | some x => exact survey_move hs.holders htarget (hsource x hx)
  | borrow kind =>
    simp only [hkind, source_operation, target_operation] at htrace ⊢
    cases hy : op.target with
    | none => rfl
    | some y =>
      cases hx : op.source with
      | none => rfl
      | some x =>
        simp only [hx, hy] at htrace
        exact survey_lend hs.holders (htarget y hy) (hsource x hx) htrace
  | deref | use | ret =>
    simp only [survey_touchAll hs.holders hplaces, sources_operation, point_operation]
  | call =>
    simp only [hkind] at htrace ⊢
    have hcovers : ρ.Covers (op.args.foldl (Survey.pass op.point) s).holders := by
      rw [Survey.holders_passAll]
      exact hs.holders
    have hpass := survey_passAll hs.holders hargs
      (htrace.of_grows (Survey.grows_write? (P := fun _ => True)))
    rw [survey_write? hcovers htarget, hpass]
    rfl
  | enter => rfl
  | exit => exact survey_exit hs
  | unknown tag => rfl

/-! #### What stays around -/

theorem covers_write? (hs : ρ.Covers s.holders) (target : Option Place) (p : Point) :
    ρ.Covers (s.write? target p).holders := by
  cases target with
  | none => exact hs
  | some x => exact covers_write hs x p

/-- A move adds no borrower but its target. -/
theorem covers_move (hs : ρ.Covers s.holders) {target : Option Place}
    (ht : ∀ y, target = some y → ρ.around y.base) (x : Place) (p : Point) :
    ρ.Covers (s.move target x p).holders := by
  have hwrite := covers_write? (s := s.touch x p) hs target p
  simp only [Survey.move]
  split
  next t q b _ => exact hwrite.put (ht t rfl) _
  next => exact hwrite

/-- An operation has no variable hold a loan but the one in which it stores a reference. -/
theorem covers_observe {op : Operation} (hs : ρ.Covers s.holders)
    (hop : ∀ x, op.stored? = some x → ρ.around x.base) : ρ.Covers (s.observe op).holders := by
  unfold Operation.stored? at hop
  unfold Survey.observe
  cases hkind : op.kind with
  | declare =>
    cases op.target with
    | none => exact hs
    | some x => exact hs.keepKeys _
  | assign =>
    refine covers_write? ?_ _ _
    rwa [Survey.holders_touchAll]
  | move =>
    simp only [hkind] at hop
    cases op.source with
    | none => exact hs
    | some x => exact covers_move hs hop x _
  | borrow kind =>
    simp only [hkind] at hop
    cases hy : op.target with
    | none => exact hs
    | some y =>
      cases op.source with
      | none => exact hs
      | some x => exact (covers_write (s := s.touch x op.point) hs y _).put (hop y hy) _
  | deref | use | ret =>
    dsimp only
    rwa [Survey.holders_touchAll]
  | call =>
    refine covers_write? ?_ _ _
    rwa [Survey.holders_passAll]
  | exit =>
    dsimp only [Survey.exit]
    cases s.scopes.exit? with
    | none => exact hs
    | some left => exact hs.keepKeys _
  | enter | unknown tag => exact hs

/-- An operation brings nothing around but what it names. -/
theorem Knows.observe {op : Operation} (hs : ρ.Knows s) (hop : ∀ x ∈ op.named, ρ.around x.base) :
    ρ.Knows (s.observe op) := by
  have htarget : ∀ x, op.target = some x → ρ.around x.base :=
    fun x hx => hop x (by simp [Operation.named, hx])
  refine ⟨covers_observe hs.holders fun x hx =>
    htarget x (Operation.target_of_stored? hx), fun n hn => ?_⟩
  rcases Survey.mem_names_of_observe hn with hn | ⟨x, hx, rfl⟩
  · exact hs.scopes n hn
  · exact htarget x hx

/-! #### Parameters -/

/-- A parameter is around and keeps its name, and so does the storage that the caller lends for
it. -/
structure Fixes (ρ : Recast) (param : Param) : Prop where
  name : ρ.name param.name = param.name
  caller : ρ.name (Place.ofCaller param.name).base = (Place.ofCaller param.name).base
  around : ρ.around param.name

theorem Fixes.place_name {param : Param} (h : ρ.Fixes param) :
    ρ.place { base := param.name } = { base := param.name } :=
  congrArg (Place.mk · []) h.name

theorem Fixes.place_caller {param : Param} (h : ρ.Fixes param) :
    ρ.place (Place.ofCaller param.name) = Place.ofCaller param.name :=
  congrArg (Place.mk · []) h.caller

/-- A parameter that keeps its name is received as before. -/
theorem survey_receive {param : Param} (hs : ρ.Covers s.holders) (h : ρ.Fixes param) (e : Point) :
    ρ.survey (Survey.receive e s param) = Survey.receive (ρ.point e) (ρ.survey s) param := by
  have hscopes : ρ.survey { s with scopes := s.scopes.declare param.name } =
      { ρ.survey s with scopes := (ρ.survey s).scopes.declare param.name } := by
    simp only [survey, scopes_declare, h.name]
  simp only [Survey.receive, ← hscopes]
  cases param.ty.ref with
  | none => rfl
  | some kind =>
    refine (survey_define (s := { s with scopes := s.scopes.declare param.name })
      (x := { base := param.name }) hs h.around).trans ?_
    simp only [borrow, lien, place_deref, h.place_name, h.place_caller, Option.map_some]

/-- A parameter brings nothing around but its own name. -/
theorem Knows.receive {param : Param} (hs : ρ.Knows s) (h : ρ.Fixes param) (e : Point) :
    ρ.Knows (Survey.receive e s param) := by
  have hscopes : ∀ n ∈ (Survey.receive e s param).scopes.names, ρ.around n := by
    intro n hn
    rw [Survey.scopes_receive, Scopes.mem_names_declare] at hn
    rcases hn with hn | rfl
    · exact hs.scopes n hn
    · exact h.around
  refine ⟨?_, hscopes⟩
  simp only [Survey.receive]
  split
  · exact hs.holders
  · exact hs.holders.put h.around _

/-- All parameters are received as before, one after the other. -/
theorem survey_receiveAll {params : List Param} (hs : ρ.Knows s)
    (h : ∀ param ∈ params, ρ.Fixes param) (e : Point) :
    ρ.survey (params.foldl (Survey.receive e) s) =
      params.foldl (Survey.receive (ρ.point e)) (ρ.survey s) ∧
      ρ.Knows (params.foldl (Survey.receive e) s) := by
  induction params generalizing s with
  | nil => exact ⟨rfl, hs⟩
  | cons param params ih =>
    rw [List.forall_mem_cons] at h
    rw [List.foldl_cons, List.foldl_cons, ← survey_receive hs.holders h.1]
    exact ih (hs.receive h.1 e) h.2

/-! #### Ends of loans -/

/-- The last use of a loan is its last use in other words, as the order of points is kept. -/
theorem ownEnd_survey (i : Nat) (b : Borrow) :
    (ρ.survey s).ownEnd i (ρ.borrow b) = ρ.point (s.ownEnd i b) := by
  have hmax : ∀ (us : List (Nat × Point)) (q : Point),
      (us.map fun u => (u.1, ρ.point u.2)).foldl (fun p u => max p u.2) (ρ.point q) =
        ρ.point (us.foldl (fun p u => max p u.2) q) := by
    intro us
    induction us with
    | nil => exact fun _ => rfl
    | cons u us ih =>
      intro q
      rw [List.map_cons, List.foldl_cons, List.foldl_cons, ← ih, point_max]
  have huses : ((ρ.survey s).uses.filter fun u => u.1 = i) =
      (s.uses.filter fun u => u.1 = i).map fun u => (u.1, ρ.point u.2) :=
    filter_map_of_mem fun _ _ => rfl
  unfold Survey.ownEnd
  rw [huses, show (ρ.borrow b).temporary = b.temporary from rfl]
  split
  · rfl
  · exact hmax _ _

/-- An end is handed on at the other point. -/
theorem handOn_map (b : Borrow) (i : Nat) (ends : List Point) :
    Survey.handOn (ρ.borrow b) i (ends.map ρ.point) = (Survey.handOn b i ends).map ρ.point := by
  unfold Survey.handOn
  rw [show (ρ.borrow b).parent = b.parent from rfl]
  cases b.parent with
  | none => rfl
  | some q =>
    have hend : (ends.map ρ.point).getD i (ρ.point b.origin) = ρ.point (ends.getD i b.origin) := by
      rw [List.getD_eq_getElem?_getD, List.getD_eq_getElem?_getD, List.getElem?_map,
        Option.getD_map]
    rw [show (ρ.borrow b).origin = ρ.point b.origin from rfl]
    simp only [hend]
    exact (map_modify (fun a => point_max a _) _ _).symm

/-- So are all ends, from the youngest loan to the oldest. -/
theorem handDown_map (bs : List Borrow) (k : Nat) (ends : List Point) :
    Survey.handDown (bs.map ρ.borrow) k (ends.map ρ.point) =
      (Survey.handDown bs k ends).map ρ.point := by
  induction bs generalizing k with
  | nil => rfl
  | cons b bs ih =>
    rw [List.map_cons, Survey.handDown_cons, Survey.handDown_cons, ih, handOn_map]

/-- **Loans end at the other points.** -/
theorem ends_survey : (ρ.survey s).ends = s.ends.map ρ.point := by
  have hown : ((ρ.survey s).borrows.zipIdx.map fun e => (ρ.survey s).ownEnd e.2 e.1) =
      (s.borrows.zipIdx.map fun e => s.ownEnd e.2 e.1).map ρ.point := by
    rw [show (ρ.survey s).borrows = s.borrows.map ρ.borrow from rfl, List.zipIdx_map, List.map_map,
      List.map_map]
    exact List.map_congr_left fun e _ => ownEnd_survey e.2 e.1
  rw [Survey.ends_eq, Survey.ends_eq, hown]
  exact handDown_map _ _ _

/-- **The book of a survey in other words** is the book in other words. -/
theorem book_survey : (ρ.survey s).book = ρ.book s.book := by
  have hget : ∀ i, (ρ.survey s).book.get? i = (ρ.book s.book).get? i := by
    intro i
    have hbook : (ρ.book s.book).get? i = (s.book.get? i).map ρ.loan := List.getElem?_map
    rw [hbook, Survey.book_get?, Survey.book_get?, getElem?_survey, ends_survey]
    cases hb : s.borrows[i]? with
    | none => rfl
    | some b =>
      have hlt : i < s.ends.length := by
        rw [Survey.length_ends]
        exact (List.getElem?_eq_some_iff.mp hb).1
      have hend : (s.ends.map ρ.point).getD i 0 = ρ.point (s.ends.getD i 0) := by
        rw [List.getD_eq_getElem?_getD, List.getD_eq_getElem?_getD, List.getElem?_map,
          List.getElem?_eq_getElem hlt]
        rfl
      simp only [Option.map_some, hend]
      rfl
  exact congrArg LoanBook.mk (List.ext_getElem? hget)

end Surveys

end Recast

end BorrowCheck
