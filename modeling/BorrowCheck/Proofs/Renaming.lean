import BorrowCheck.Proofs.Lacking

/-!
# Renaming projections

A function stays the same in all that matters when the projections in it are renamed, as long as
the renaming is **faithful** (`BorrowCheck.Proj.Faithful`): projections are the same afterwards
exactly when they were before, disjoint ones stay disjoint, and each keeps its sort. Two
overlapping projections may well become disjoint. Replacing every unknown index by one and the same
constant that was not there before is such a renaming.

Everything that is computed from a place then goes along with the renaming, except for overlap, for
which there is one direction only (`BorrowCheck.Place.overlaps_of_rename`).
-/

namespace BorrowCheck

namespace Proj

/-- A renaming of projections is **faithful** when it respects sameness in both directions and
keeps disjoint projections disjoint, dereferences dereferences and indices indices. -/
structure Faithful (σ : Proj → Proj) : Prop where
  unlabel_iff : ∀ p q, (σ p).unlabel = (σ q).unlabel ↔ p.unlabel = q.unlabel
  disjoint : ∀ p q, p.disjoint q = true → (σ p).disjoint (σ q) = true
  isDeref : ∀ p, (σ p).isDeref = p.isDeref
  isIndex : ∀ p, (σ p).isIndex = p.isIndex

/-- To leave everything as it is is faithful. -/
theorem faithful_id : Faithful id :=
  ⟨fun _ _ => Iff.rfl, fun _ _ h => h, fun _ => rfl, fun _ => rfl⟩

variable {σ : Proj → Proj} {ps qs : List Proj}

/-- There is only one projection that dereferences, so it stays what it is. -/
theorem Faithful.deref (h : Faithful σ) : σ .deref = .deref := by
  have hderef := h.isDeref .deref
  cases hσ : σ .deref with
  | deref => rfl
  | field name | index value | any label =>
    rw [hσ] at hderef
    cases hderef

/-- A projection to a field stays one. -/
theorem Faithful.field (h : Faithful σ) (name : String) :
    ∃ name', σ (.field name) = .field name' := by
  have hderef := h.isDeref (.field name)
  have hindex := h.isIndex (.field name)
  cases hσ : σ (.field name) with
  | field name' => exact ⟨name', rfl⟩
  | index value | any label =>
    rw [hσ] at hindex
    cases hindex
  | deref =>
    rw [hσ] at hderef
    cases hderef

/-- Paths are initial parts of one another after the renaming exactly if they were before. -/
theorem Faithful.prefix_iff (h : Faithful σ) :
    (ps.map σ).map unlabel <+: (qs.map σ).map unlabel ↔ ps.map unlabel <+: qs.map unlabel := by
  induction ps generalizing qs with
  | nil => simp
  | cons p ps ih =>
    cases qs with
    | nil => simp
    | cons q qs =>
      simp only [List.map_cons, List.cons_prefix_cons, h.unlabel_iff, ih]

/-- Paths that overlap after the renaming overlapped before: the projections in which they first
differ are renamed to ones that differ, and disjoint ones to disjoint ones. -/
theorem Faithful.overlap_of_map (h : Faithful σ) (hover : overlap (ps.map σ) (qs.map σ) = true) :
    overlap ps qs = true := by
  induction ps generalizing qs with
  | nil => rfl
  | cons p ps ih =>
    cases qs with
    | nil => rfl
    | cons q qs =>
      rw [List.map_cons, List.map_cons, overlap] at hover
      rw [overlap]
      by_cases hpq : p.unlabel = q.unlabel
      · rw [if_pos ((h.unlabel_iff p q).mpr hpq)] at hover
        rw [if_pos hpq]
        exact ih hover
      · rw [if_neg (mt (h.unlabel_iff p q).mp hpq), Bool.not_eq_true', Bool.eq_false_iff] at hover
        rw [if_neg hpq, Bool.not_eq_true', Bool.eq_false_iff]
        exact mt (h.disjoint p q) hover

/-- A path goes through a reference after the renaming exactly if it did before. -/
theorem Faithful.any_isDeref (h : Faithful σ) :
    (ps.map σ).any Proj.isDeref = ps.any Proj.isDeref := by
  rw [List.any_map]
  congr 1
  funext p
  exact h.isDeref p

/-- The part of a path before its first dereference goes along with the renaming. -/
theorem Faithful.takeWhile_isDeref (h : Faithful σ) :
    (ps.map σ).takeWhile (!·.isDeref) = (ps.takeWhile (!·.isDeref)).map σ := by
  rw [List.takeWhile_map]
  congr 2
  funext p
  rw [Function.comp_apply, h.isDeref]

/-- The part of a path before its first index goes along with the renaming. -/
theorem Faithful.takeWhile_isIndex (h : Faithful σ) :
    (ps.map σ).takeWhile (!·.isIndex) = (ps.takeWhile (!·.isIndex)).map σ := by
  rw [List.takeWhile_map]
  congr 2
  funext p
  rw [Function.comp_apply, h.isIndex]

/-- A path is cut in two at the same dereference. -/
theorem Faithful.cutDeref (h : Faithful σ) :
    Proj.cutDeref (ps.map σ) = (Proj.cutDeref ps).map fun cut => (cut.1.map σ, cut.2.map σ) := by
  induction ps with
  | nil => rfl
  | cons p ps ih =>
    rw [List.map_cons, Proj.cutDeref, Proj.cutDeref, h.isDeref, ih]
    split
    · rfl
    · cases Proj.cutDeref ps <;> rfl

end Proj

/-! ### Places -/

namespace Place

variable {σ : Proj → Proj} {x y : Place}

/-- The place with its projections renamed. -/
def rename (σ : Proj → Proj) (x : Place) : Place :=
  { x with path := x.path.map σ }

@[simp] theorem rename_id (x : Place) : x.rename id = x := by
  simp [rename]

@[simp] theorem base_rename (x : Place) : (x.rename σ).base = x.base := rfl

/-- A renaming makes no variable of a part and no part of a variable. -/
@[simp] theorem isRoot_rename (x : Place) : (x.rename σ).isRoot = x.isRoot := by
  simp [rename, isRoot]

theorem rename_append (x : Place) (ps : List Proj) :
    (x.append ps).rename σ = (x.rename σ).append (ps.map σ) := by
  simp [rename, append]

section

variable (h : Proj.Faithful σ)

include h

theorem rename_deref (x : Place) : x.deref.rename σ = (x.rename σ).deref := by
  rw [Place.deref, rename_append, List.map_singleton, h.deref, Place.deref]

/-- A place contains another after the renaming exactly if it did before. -/
theorem isPrefixOf_rename : (x.rename σ).isPrefixOf (y.rename σ) = x.isPrefixOf y := by
  rw [Bool.eq_iff_iff, isPrefixOf_iff, isPrefixOf_iff]
  exact and_congr_right fun _ => h.prefix_iff

/-- Places that denote the same storage do so after the renaming, and no others do. -/
theorem same_rename : (x.rename σ).same (y.rename σ) = x.same y := by
  rw [Bool.eq_iff_iff]
  constructor
  · intro hsame
    refine same_of_isPrefixOf ?_ ?_
    · rw [← isPrefixOf_rename h, isPrefixOf_congr_left hsame, isPrefixOf_refl]
    · rw [← isPrefixOf_rename h, isPrefixOf_congr hsame, isPrefixOf_refl]
  · intro hsame
    refine same_of_isPrefixOf ?_ ?_
    · rw [isPrefixOf_rename h, isPrefixOf_congr_left hsame, isPrefixOf_refl]
    · rw [isPrefixOf_rename h, isPrefixOf_congr hsame, isPrefixOf_refl]

/-- What is the same as a renamed place is compared as that place was. -/
theorem rename_same_congr {z : Place} (hz : z.same (y.rename σ) = true) :
    (x.rename σ).same z = x.same y := by
  rw [same_comm, same_congr_left hz, same_comm, same_rename h]

/-- **Places that overlap after a renaming overlapped before.** -/
theorem overlaps_of_rename (hover : (x.rename σ).overlaps (y.rename σ) = true) :
    x.overlaps y = true := by
  rw [overlaps, Bool.and_eq_true] at hover ⊢
  exact ⟨hover.1, h.overlap_of_map hover.2⟩

theorem throughRef_rename (x : Place) : (x.rename σ).throughRef = x.throughRef :=
  h.any_isDeref

/-- The reference that a place goes through is renamed like the place. -/
theorem holder_rename (x : Place) : (x.rename σ).holder = x.holder.rename σ := by
  rw [holder, rename, h.takeWhile_isDeref]
  rfl

/-- The whole that an element belongs to is renamed like the element. -/
theorem container_rename (x : Place) : (x.rename σ).container = x.container.rename σ := by
  rw [container, rename, h.takeWhile_isIndex]
  rfl

/-- What stands before and after the first dereference is renamed. -/
theorem cut?_rename (x : Place) :
    (x.rename σ).cut? = x.cut?.map fun cut => (cut.1.rename σ, cut.2.map σ) := by
  rw [cut?, cut?, rename, h.cutDeref]
  cases Proj.cutDeref x.path <;> rfl

/-- A place reaches the same places, as this asks for sameness and containment only. -/
theorem reaches_rename : (x.rename σ).reaches (y.rename σ) = x.reaches y := by
  rw [reaches, reaches, container_rename h, isPrefixOf_rename h, isPrefixOf_rename h,
    same_rename h]

end

end Place

/-! ### Tables -/

namespace Place.Map

variable {α : Type} {σ : Proj → Proj} {m : Map α} {x : Place}

/-- The table with the projections in its keys renamed. -/
def rename (σ : Proj → Proj) (m : Map α) : Map α :=
  { toList := m.toList.map fun e => (e.1.rename σ, e.2) }

theorem mem_rename {e : Place × α} :
    e ∈ (m.rename σ).toList ↔ ∃ d ∈ m.toList, (d.1.rename σ, d.2) = e :=
  List.mem_map

/-- A renamed table says of a renamed place what the table said of the place. -/
theorem get?_rename (h : Proj.Faithful σ) : (m.rename σ).get? (x.rename σ) = m.get? x := by
  have htest : (fun e : Place × α => e.1.same (x.rename σ)) ∘
      (fun e : Place × α => (e.1.rename σ, e.2)) = fun e => e.1.same x := by
    funext e
    exact same_rename h
  rw [get?, get?, rename, List.find?_map, htest, Option.map_map]
  rfl

/-- A renamed table has entries for the renamed places only. -/
theorem contains_rename (h : Proj.Faithful σ) :
    (m.rename σ).contains (x.rename σ) = m.contains x := by
  rw [contains, contains, rename, List.any_map]
  congr 1
  funext e
  exact same_rename h

/-- An entry is put before the renaming or after it. -/
theorem rename_put (h : Proj.Faithful σ) (a : α) :
    (m.put x a).rename σ = (m.rename σ).put (x.rename σ) a := by
  rw [put, put, contains_rename h]
  split
  · simp only [rename, List.map_map, mk.injEq]
    refine List.map_congr_left fun e _ => ?_
    simp only [Function.comp_apply, same_rename h]
    split <;> rfl
  · simp [rename]

/-- Entries are selected before the renaming or after it, when the two tests agree. -/
theorem rename_keepKeys {keep keep' : Place → Bool}
    (h : ∀ y : Place, keep' (y.rename σ) = keep y) :
    (m.keepKeys keep).rename σ = (m.rename σ).keepKeys keep' := by
  simp only [keepKeys, rename, List.filter_map, mk.injEq]
  congr 2
  funext e
  exact (h e.1).symm

end Place.Map

/-! ### Operations -/

/-- The argument with its projections renamed. -/
def Arg.rename (σ : Proj → Proj) (a : Arg) : Arg :=
  { a with place := a.place.rename σ }

/-- The operation with the projections of its places renamed. -/
def Operation.rename (σ : Proj → Proj) (op : Operation) : Operation :=
  { op with
    target := op.target.map (Place.rename σ)
    sources := op.sources.map (Place.rename σ)
    args := op.args.map (Arg.rename σ) }

/-- The action with the projections of its places renamed. -/
def Action.rename (σ : Proj → Proj) : Action → Action
  | declare x ty => declare (x.rename σ) ty
  | assign x sources => assign (x.rename σ) (sources.map (Place.rename σ))
  | move x s => move (x.rename σ) (s.rename σ)
  | borrow kind x s => borrow kind (x.rename σ) (s.rename σ)
  | deref s => deref (s.rename σ)
  | use s => use (s.rename σ)
  | call args result => call (args.map (Arg.rename σ)) (result.map (Place.rename σ))
  | ret s => ret (s.map (Place.rename σ))
  | enter => enter
  | exit => exit

/-- A renamed action writes the renamed place. -/
theorem Action.written?_rename (σ : Proj → Proj) (a : Action) :
    (a.rename σ).written? = a.written?.map (Place.rename σ) := by
  cases a <;> rfl

namespace Operation

variable (σ : Proj → Proj) (op : Operation)

theorem rename_id : op.rename id = op := by
  have hplace : Place.rename id = id := funext Place.rename_id
  have harg : Arg.rename id = id := by
    funext a
    simp [Arg.rename]
  simp [rename, hplace, harg]

@[simp] theorem point_rename : (op.rename σ).point = op.point := rfl

@[simp] theorem kind_rename : (op.rename σ).kind = op.kind := rfl

@[simp] theorem target_rename : (op.rename σ).target = op.target.map (Place.rename σ) := rfl

@[simp] theorem args_rename : (op.rename σ).args = op.args.map (Arg.rename σ) := rfl

@[simp] theorem source_rename : (op.rename σ).source = op.source.map (Place.rename σ) := by
  rw [source, source, rename, List.head?_map]

@[simp] theorem sources_rename : (op.rename σ).sources = op.sources.map (Place.rename σ) := rfl

/-- **The action of a renamed operation is the renamed action.** -/
theorem action_rename {a : Action} (h : op.action = .ok a) :
    (op.rename σ).action = .ok (a.rename σ) := by
  unfold action at h ⊢
  rw [kind_rename]
  cases hkind : op.kind with
  | declare | deref | use =>
    simp only [hkind, bind_eq_ok_iff, pure_eq_ok_iff, getTarget_eq_ok_iff,
      getSource_eq_ok_iff, target_rename, source_rename] at h ⊢
    obtain ⟨x, hx, rfl⟩ := h
    exact ⟨x.rename σ, by rw [hx]; rfl, rfl⟩
  | assign =>
    simp only [hkind, bind_eq_ok_iff, pure_eq_ok_iff, getTarget_eq_ok_iff, target_rename] at h ⊢
    obtain ⟨x, hx, rfl⟩ := h
    exact ⟨x.rename σ, by rw [hx]; rfl, rfl⟩
  | move | borrow kind =>
    simp only [hkind, bind_eq_ok_iff, pure_eq_ok_iff, getTarget_eq_ok_iff,
      getSource_eq_ok_iff, target_rename, source_rename] at h ⊢
    obtain ⟨y, hy, x, hx, rfl⟩ := h
    exact ⟨y.rename σ, by rw [hy]; rfl, x.rename σ, by rw [hx]; rfl, rfl⟩
  | call =>
    simp only [hkind, Except.ok.injEq] at h ⊢
    rw [← h]
    rfl
  | ret =>
    simp only [hkind, Except.ok.injEq, source_rename] at h ⊢
    rw [← h]
    rfl
  | enter | exit =>
    simp only [hkind, Except.ok.injEq] at h ⊢
    rw [← h]
    rfl
  | unknown tag => simp [hkind] at h

/-- What a renamed operation touches. -/
theorem touches_rename (hσ : Proj.Faithful σ) :
    (op.rename σ).touches = op.touches.map (Place.rename σ) := by
  have hbehind : ∀ target : Option Place,
      behind (target.map (Place.rename σ)) = (behind target).map (Place.rename σ) := by
    intro target
    cases target with
    | none => rfl
    | some x =>
      simp only [behind, Option.map_some, Option.filter, Place.throughRef_rename hσ]
      split
      · simp [Place.holder_rename hσ]
      · rfl
  have hargs : (op.args.map (Arg.rename σ)).map Arg.place =
      (op.args.map Arg.place).map (Place.rename σ) := by
    rw [List.map_map, List.map_map]
    rfl
  simp only [touches, kind_rename, target_rename, source_rename, sources_rename, args_rename]
  cases op.kind with
  | assign => rw [hbehind, List.map_append]
  | move =>
    cases op.source with
    | none => rfl
    | some x => simp [hbehind]
  | borrow kind =>
    cases op.target with
    | none => rfl
    | some t =>
      cases op.source with
      | none => rfl
      | some x => simpa using hbehind (some t)
  | call => rw [hbehind, hargs, List.map_append]
  | deref | use | ret | declare | enter | exit | unknown _ => rfl

end Operation

end BorrowCheck
