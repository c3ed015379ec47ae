import BorrowCheck.Proofs.Renaming

/-!
# Recasting a function

A function can be written in other words: with other names for its variables, other labels at its
indices, other points in the same order, other callees and spans. Such a change of words is a
`BorrowCheck.Recast`. What the checker computes is computed from the words by looking names up,
comparing paths and comparing points, so it goes along with the change.

Two names may become one, as long as they are never around together. So a recasting says which
names are `around`, and two places are compared as before when their variables are. In a table, the
keys have to be around too (`BorrowCheck.Recast.Covers`).
-/

namespace BorrowCheck

/-! ### Lists -/

section Lists

variable {α β : Type} {g : α → β} {p : β → Bool} {q : α → Bool} {l : List α}

/-- Filtering goes along with a change of the elements when the question is answered alike for each
of them. -/
theorem filter_map_of_mem (h : ∀ a ∈ l, p (g a) = q a) :
    (l.map g).filter p = (l.filter q).map g := by
  rw [List.filter_map]
  exact congrArg (List.map g) (List.filter_congr h)

/-- So does the search for the first element. -/
theorem find?_map_of_mem (h : ∀ a ∈ l, p (g a) = q a) :
    (l.map g).find? p = (l.find? q).map g := by
  rw [← List.head?_filter, ← List.head?_filter, filter_map_of_mem h, List.head?_map]

/-- So does the question whether there is one at all. -/
theorem any_map_of_mem (h : ∀ a ∈ l, p (g a) = q a) : (l.map g).any p = l.any q := by
  rw [Bool.eq_iff_iff, List.any_map, List.any_eq_true, List.any_eq_true]
  exact exists_congr fun a => and_congr_right fun ha => by rw [Function.comp_apply, h a ha]

end Lists

/-- Places are the same when each lies in the other, so what is known of prefixes carries over. -/
theorem Place.same_eq_isPrefixOf (x y : Place) :
    x.same y = (x.isPrefixOf y && y.isPrefixOf x) := by
  rw [Bool.eq_iff_iff, Bool.and_eq_true]
  constructor
  · intro h
    exact ⟨by rw [isPrefixOf_congr_left h, isPrefixOf_refl],
      by rw [isPrefixOf_congr h, isPrefixOf_refl]⟩
  · exact fun h => same_of_isPrefixOf h.1 h.2

/-! ### Recastings -/

/-- A **recasting**: other names, projections and points, and other callees and spans, which the
checker never looks at. Names that are `around` stay different, and points stay in their order. -/
structure Recast where
  name : String → String := id
  proj : Proj → Proj := id
  point : Point → Point := id
  callee : Option String → Option String := id
  span : Span → Span := id
  around : String → Prop := fun _ => True
  name_inj : ∀ {m n}, around m → around n → name m = name n → m = n
  faithful : Proj.Faithful proj
  disjoint : ∀ p q, (proj p).disjoint (proj q) = true → p.disjoint q = true
  point_lt : ∀ {p q : Point}, p < q → point p < point q

namespace Recast

variable {ρ : Recast}

/-- Names that are around are told apart in other words as well. -/
theorem name_eq_iff {m n : String} (hm : ρ.around m) (hn : ρ.around n) :
    ρ.name m = ρ.name n ↔ m = n :=
  ⟨ρ.name_inj hm hn, congrArg ρ.name⟩

/-- Points are compared as before. -/
theorem point_lt_iff {p q : Point} : ρ.point p < ρ.point q ↔ p < q := by
  refine ⟨fun h => ?_, ρ.point_lt⟩
  rcases lt_trichotomy p q with hlt | rfl | hgt
  · exact hlt
  · exact absurd h (lt_irrefl _)
  · exact absurd h (lt_asymm (ρ.point_lt hgt))

theorem point_le_iff {p q : Point} : ρ.point p ≤ ρ.point q ↔ p ≤ q := by
  rw [← not_lt, point_lt_iff, not_lt]

theorem point_eq_iff {p q : Point} : ρ.point p = ρ.point q ↔ p = q := by
  rw [le_antisymm_iff, point_le_iff, point_le_iff, ← le_antisymm_iff]

/-- The later one of two points is still the later one. -/
theorem point_max (p q : Point) : ρ.point (max p q) = max (ρ.point p) (ρ.point q) := by
  rcases le_total p q with h | h
  · rw [max_eq_right h, max_eq_right (point_le_iff.mpr h)]
  · rw [max_eq_left h, max_eq_left (point_le_iff.mpr h)]

/-! ### Places -/

/-- The place in other words. -/
def place (ρ : Recast) (x : Place) : Place :=
  { base := ρ.name x.base, path := x.path.map ρ.proj }

section Places

variable (x : Place)

@[simp] theorem base_place : (ρ.place x).base = ρ.name x.base := rfl

@[simp] theorem isRoot_place : (ρ.place x).isRoot = x.isRoot := by
  simp [place, Place.isRoot]

/-- A path is changed projection by projection. -/
theorem place_append (ps : List Proj) :
    ρ.place (x.append ps) = (ρ.place x).append (ps.map ρ.proj) := by
  simp [place, Place.append]

/-- A dereference stays one. -/
theorem place_deref : ρ.place x.deref = (ρ.place x).deref := by
  rw [Place.deref, place_append, List.map_singleton, ρ.faithful.deref, Place.deref]

/-- A place goes through a reference in any words. -/
@[simp] theorem throughRef_place : (ρ.place x).throughRef = x.throughRef :=
  ρ.faithful.any_isDeref

/-- The holder of a place in other words is the holder in other words. -/
theorem holder_place : (ρ.place x).holder = ρ.place x.holder := by
  rw [Place.holder, place, ρ.faithful.takeWhile_isDeref]
  rfl

/-- So is the container. -/
theorem container_place : (ρ.place x).container = ρ.place x.container := by
  rw [Place.container, place, ρ.faithful.takeWhile_isIndex]
  rfl

/-- A place is cut at the same dereference. -/
theorem cut?_place :
    (ρ.place x).cut? = x.cut?.map fun cut => (ρ.place cut.1, cut.2.map ρ.proj) := by
  rw [Place.cut?, Place.cut?, place, ρ.faithful.cutDeref]
  cases Proj.cutDeref x.path <;> rfl

/-- The places on the way to a place are those on the way before. -/
theorem trail_place : (ρ.place x).trail = x.trail.map ρ.place := by
  simp [Place.trail, place, List.map_take, Function.comp_def]

theorem enclosing_place : (ρ.place x).enclosing = x.enclosing.map ρ.place := by
  simp [Place.enclosing, place, List.map_take, Function.comp_def]

/-- Paths overlap as before, because projections are disjoint exactly when they were. -/
theorem overlap_map (ps qs : List Proj) :
    Proj.overlap (ps.map ρ.proj) (qs.map ρ.proj) = Proj.overlap ps qs := by
  induction ps generalizing qs with
  | nil => cases qs <;> rfl
  | cons p ps ih =>
    cases qs with
    | nil => rfl
    | cons q qs =>
      have hdisjoint : (ρ.proj p).disjoint (ρ.proj q) = p.disjoint q :=
        Bool.eq_iff_iff.mpr ⟨ρ.disjoint p q, ρ.faithful.disjoint p q⟩
      simp only [List.map_cons, Proj.overlap, ρ.faithful.unlabel_iff, ih, hdisjoint]

end Places

section Compared

variable {x y : Place} (hx : ρ.around x.base) (hy : ρ.around y.base)
include hx hy

/-- One place lies in another as before, when both variables are around. -/
theorem isPrefixOf_place : (ρ.place x).isPrefixOf (ρ.place y) = x.isPrefixOf y := by
  rw [Bool.eq_iff_iff, Place.isPrefixOf_iff, Place.isPrefixOf_iff, base_place, base_place,
    name_eq_iff hx hy]
  exact and_congr_right fun _ => ρ.faithful.prefix_iff

/-- Places are the same as before, when both variables are around. -/
theorem same_place : (ρ.place x).same (ρ.place y) = x.same y := by
  rw [Place.same_eq_isPrefixOf, Place.same_eq_isPrefixOf, isPrefixOf_place hx hy,
    isPrefixOf_place hy hx]

/-- Places overlap as before, when both variables are around. -/
theorem overlaps_place : (ρ.place x).overlaps (ρ.place y) = x.overlaps y := by
  rw [Place.overlaps, Place.overlaps, base_place, base_place,
    decide_eq_decide.mpr (name_eq_iff hx hy), place, place, overlap_map]

end Compared

/-! ### Names -/

/-- A name that is around is found among others that are, and only there. -/
theorem contains_names {names : List String} {n : String} (h : ∀ m ∈ names, ρ.around m)
    (hn : ρ.around n) : (names.map ρ.name).contains (ρ.name n) = names.contains n := by
  rw [Bool.eq_iff_iff, List.contains_iff_mem, List.contains_iff_mem, List.mem_map]
  constructor
  · rintro ⟨m, hm, heq⟩
    exact ρ.name_inj (h m hm) hn heq ▸ hm
  · exact fun hmem => ⟨n, hmem, rfl⟩

/-- The blocks in other words. -/
def scopes (ρ : Recast) (s : Scopes) : Scopes :=
  { current := s.current.map ρ.name, outer := s.outer.map (List.map ρ.name) }

theorem scopes_declare (s : Scopes) (n : String) :
    ρ.scopes (s.declare n) = (ρ.scopes s).declare (ρ.name n) := by
  simp [scopes, Scopes.declare]

/-- Leaving a block ends the storage of the same variables. -/
theorem exit?_scopes (s : Scopes) :
    (ρ.scopes s).exit? = s.exit?.map fun left => (left.1.map ρ.name, ρ.scopes left.2) := by
  unfold Scopes.exit?
  cases hs : s.outer <;> simp [scopes, hs]

/-! ### Tables -/

variable {α β : Type} {g : α → β} {m : Place.Map α} {x : Place}

/-- The table in other words, with its values changed by `g`. -/
def table (ρ : Recast) (g : α → β) (m : Place.Map α) : Place.Map β :=
  { toList := m.toList.map fun e => (ρ.place e.1, g e.2) }

/-- The variables in the keys of a table are around. -/
def Covers (ρ : Recast) (m : Place.Map α) : Prop :=
  ∀ e ∈ m.toList, ρ.around e.1.base

theorem Covers.keepKeys (hm : ρ.Covers m) (keep : Place → Bool) : ρ.Covers (m.keepKeys keep) :=
  fun e he => hm e (Place.Map.mem_keepKeys.mp he).1

/-- A key whose variable is around may be added. -/
theorem Covers.put (hm : ρ.Covers m) (hx : ρ.around x.base) (a : α) : ρ.Covers (m.put x a) := by
  intro e he
  rcases Place.Map.mem_put he with ⟨he, -⟩ | ⟨hsame, -⟩
  · exact hm e he
  · rwa [Place.base_eq_of_same hsame]

/-- Nothing is listed under a variable that is not around. -/
theorem Covers.get?_eq_none (hm : ρ.Covers m) (hx : ¬ρ.around x.base) : m.get? x = none := by
  rw [Option.eq_none_iff_forall_ne_some]
  intro a ha
  obtain ⟨e, he, hsame, -⟩ := Place.Map.exists_mem_of_get? ha
  exact hx (Place.base_eq_of_same hsame ▸ hm e he)

/-- Looking a place up goes along with the change of words. -/
theorem get?_table (hm : ρ.Covers m) (hx : ρ.around x.base) :
    (ρ.table g m).get? (ρ.place x) = (m.get? x).map g := by
  have hfind := find?_map_of_mem (g := fun e : Place × α => (ρ.place e.1, g e.2))
    (p := fun e => e.1.same (ρ.place x)) fun e he => same_place (hm e he) hx
  rw [Place.Map.get?, Place.Map.get?, table, hfind, Option.map_map, Option.map_map]
  rfl

theorem contains_table (hm : ρ.Covers m) (hx : ρ.around x.base) :
    (ρ.table g m).contains (ρ.place x) = m.contains x :=
  any_map_of_mem fun e he => same_place (hm e he) hx

/-- So does entering a value; the key is found in the one table when it is in the other. -/
theorem table_put (hm : ρ.Covers m) (hx : ρ.around x.base) (a : α) :
    ρ.table g (m.put x a) = (ρ.table g m).put (ρ.place x) (g a) := by
  rw [Place.Map.put, Place.Map.put, contains_table hm hx]
  split
  · simp only [table, List.map_map, Place.Map.mk.injEq]
    refine List.map_congr_left fun e he => ?_
    simp only [Function.comp_apply, same_place (hm e he) hx]
    split <;> rfl
  · simp [table]

/-- So does keeping some of the keys, when the question that selects them is answered alike. -/
theorem table_keepKeys (keep keep' : Place → Bool)
    (h : ∀ e ∈ m.toList, keep' (ρ.place e.1) = keep e.1) :
    ρ.table g (m.keepKeys keep) = (ρ.table g m).keepKeys keep' := by
  have hfilter := filter_map_of_mem (g := fun e : Place × α => (ρ.place e.1, g e.2))
    (p := fun e => keep' e.1) h
  rw [Place.Map.keepKeys, Place.Map.keepKeys, table, table, hfilter]

theorem table_erase (hm : ρ.Covers m) (hx : ρ.around x.base) :
    ρ.table g (m.erase x) = (ρ.table g m).erase (ρ.place x) :=
  table_keepKeys _ _ fun e he => congrArg (!·) (same_place (hm e he) hx)

/-! ### Operations -/

/-- The argument in other words. -/
def arg (ρ : Recast) (a : Arg) : Arg :=
  { a with place := ρ.place a.place }

/-- The operation in other words. -/
def operation (ρ : Recast) (op : Operation) : Operation :=
  { point := ρ.point op.point
    kind := op.kind
    target := op.target.map ρ.place
    sources := op.sources.map ρ.place
    args := op.args.map ρ.arg
    callee := ρ.callee op.callee
    ty := op.ty
    span := ρ.span op.span }

/-- The function in other words, with the same name and parameters. -/
def function (ρ : Recast) (f : Function) : Function :=
  { f with ops := f.ops.map ρ.operation }

section Operations

variable (op : Operation)

@[simp] theorem point_operation : (ρ.operation op).point = ρ.point op.point := rfl

@[simp] theorem kind_operation : (ρ.operation op).kind = op.kind := rfl

@[simp] theorem target_operation : (ρ.operation op).target = op.target.map ρ.place := rfl

@[simp] theorem args_operation : (ρ.operation op).args = op.args.map ρ.arg := rfl

/-- The source that a kind with a single one works on. -/
@[simp] theorem source_operation : (ρ.operation op).source = op.source.map ρ.place := by
  rw [Operation.source, Operation.source, operation, List.head?_map]

@[simp] theorem sources_operation : (ρ.operation op).sources = op.sources.map ρ.place := rfl

end Operations

/-! ### Loans -/

/-- The lien in other words. -/
def lien (ρ : Recast) (l : Lien) : Lien :=
  { l with borrower := l.borrower.map ρ.place, origin := ρ.point l.origin }

/-- The loan as it is taken, in other words. -/
def borrow (ρ : Recast) (b : Borrow) : Borrow :=
  { b with toLien := ρ.lien b.toLien, target := ρ.place b.target, via := ρ.place b.via }

/-- The loan in other words. -/
def loan (ρ : Recast) (l : Loan) : Loan :=
  { l with toBorrow := ρ.borrow l.toBorrow, last := ρ.point l.last }

/-- The book in other words. -/
def book (ρ : Recast) (b : LoanBook) : LoanBook :=
  { loans := b.loans.map ρ.loan }

end Recast

end BorrowCheck
