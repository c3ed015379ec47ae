import BorrowCheck.Proofs.Lacking
import Mathlib.Data.List.Forall2

/-!
# Disjoint places

Whether two places overlap is decided on the places as they are written, where an index may be
unknown. When the function runs, every index has a value: a **concretion** of a place
(`BorrowCheck.Place.Concretion`) has a constant in place of each unknown index. The index of the one
place says nothing about the index of the other, even if both are written with the same name, so
constants are chosen for each place and each position on its own.

Places that do not overlap have concretions that do not (`BorrowCheck.Proj.overlap_of_concretion`).
The walk along two paths goes on past unknown indices, which may turn out to be different, but what
tells the paths apart in the end is a pair of fields or of constants, and these stay.
-/

namespace BorrowCheck

namespace Proj

variable {p q p' q' : Proj} {ps qs ps' qs' : List Proj}

/-- The projection `q` is what `p` may turn out to be: an unknown index is one of the constants,
everything else is itself. -/
inductive Concretion : Proj → Proj → Prop
  | field (name : String) : Concretion (.field name) (.field name)
  | index (value : Int) : Concretion (.index value) (.index value)
  | any (label : Option String) (value : Int) : Concretion (.any label) (.index value)
  | deref : Concretion .deref .deref

/-- Fields and constants that are different stay so. -/
theorem disjoint_of_concretion (h : p.disjoint q = true) (hp : p.Concretion p')
    (hq : q.Concretion q') : p'.disjoint q' = true := by
  cases hp with
  | field _ =>
    cases hq with
    | field _ => exact h
    | index _ | any _ _ | deref => cases h
  | index _ =>
    cases hq with
    | index _ => exact h
    | field _ | any _ _ | deref => cases h
  | any _ _ | deref => cases hq <;> cases h

theorem unlabel_ne_of_disjoint (h : p.disjoint q = true) : p.unlabel ≠ q.unlabel := by
  intro heq
  cases p <;> cases q <;> cases heq
  all_goals simp [disjoint] at h

/-- Projections that are the same turn out to be the same or, if they are unknown indices, to be
different constants. -/
theorem concretion_cases (h : p.unlabel = q.unlabel) (hp : p.Concretion p')
    (hq : q.Concretion q') : p'.unlabel = q'.unlabel ∨ p'.disjoint q' = true := by
  cases hp with
  | field name | index value | deref =>
    cases hq <;> cases h
    exact .inl rfl
  | any label value =>
    cases hq with
    | any label' value' =>
      by_cases hvalue : value = value'
      · exact .inl (by rw [hvalue])
      · exact .inr (bne_iff_ne.mpr hvalue)
    | field _ | index _ | deref => cases h

/-- **Disjoint paths have disjoint concretions.** -/
theorem overlap_of_concretion (h : overlap ps qs = false) (hps : List.Forall₂ Concretion ps ps')
    (hqs : List.Forall₂ Concretion qs qs') : overlap ps' qs' = false := by
  induction hps generalizing qs qs' with
  | nil => cases h
  | @cons p p' ps ps' hp _ ih =>
    cases hqs with
    | nil => cases h
    | @cons q q' qs qs' hq hqs =>
      rw [overlap] at h ⊢
      split at h
      next hpq =>
        -- the paths go on, unless the unknown index differs here already
        rcases concretion_cases hpq hp hq with heq | hdis
        · rw [if_pos heq]
          exact ih h hqs
        · rw [if_neg (unlabel_ne_of_disjoint hdis), hdis, Bool.not_true]
      next =>
        have hdis := disjoint_of_concretion (by simpa using h) hp hq
        rw [if_neg (unlabel_ne_of_disjoint hdis), hdis, Bool.not_true]

end Proj

namespace Place

variable {x y z x' y' : Place}

/-- The place `x'` is a **concretion** of `x`: a constant was chosen for each unknown index. -/
def Concretion (x x' : Place) : Prop :=
  x.base = x'.base ∧ List.Forall₂ Proj.Concretion x.path x'.path

theorem overlaps_of_concretion (h : x.overlaps y = false) (hx : x.Concretion x')
    (hy : y.Concretion y') : x'.overlaps y' = false := by
  rw [overlaps, ← hx.1, ← hy.1]
  rw [overlaps] at h
  by_cases hbase : x.base = y.base
  · rw [decide_eq_true hbase, Bool.true_and] at h ⊢
    exact Proj.overlap_of_concretion h hx.2 hy.2
  · rw [decide_eq_false hbase, Bool.false_and]

/-- What contains a place overlaps all that the place overlaps. -/
theorem overlaps_of_isPrefixOf_left (h : z.isPrefixOf x = true) (hover : x.overlaps y = true) :
    z.overlaps y = true := by
  obtain ⟨u, hu, hsame⟩ := exists_mem_trail h
  obtain ⟨n, -, rfl⟩ := List.mem_map.mp hu
  have hx : x = append { x with path := x.path.take n } (x.path.drop n) := by
    rw [append, List.take_append_drop]
  rw [overlaps_comm, hx] at hover
  rw [overlaps_comm, ← overlaps_congr hsame]
  exact overlaps_of_append hover

/-- Places that contain a common place overlap. -/
theorem overlaps_of_common (hx : x.isPrefixOf z = true) (hy : y.isPrefixOf z = true) :
    x.overlaps y = true := by
  refine overlaps_of_isPrefixOf_left hx ?_
  rw [overlaps_comm]
  exact overlaps_of_isPrefixOf hy

/-- **Disjointness is sound.** Overlap is symmetric, a place overlaps what it contains, and what
contains a place overlaps all that the place overlaps. If two places do not overlap, then no choice
of constants for their unknown indices makes one of them contain the other, or gives them any place
in common. -/
theorem disjointness_sound (x y : Place) :
    x.overlaps y = y.overlaps x ∧
    (x.isPrefixOf y = true ∨ y.isPrefixOf x = true → x.overlaps y = true) ∧
    (x.overlaps y = true → ∀ z : Place, z.isPrefixOf x = true → z.overlaps y = true) ∧
    (x.overlaps y = false → ∀ x' y', x.Concretion x' → y.Concretion y' →
      x'.isPrefixOf y' = false ∧ y'.isPrefixOf x' = false ∧
        ∀ z, ¬(x'.isPrefixOf z = true ∧ y'.isPrefixOf z = true)) := by
  refine ⟨overlaps_comm x y, ?_, fun hover z hz => overlaps_of_isPrefixOf_left hz hover, ?_⟩
  · rintro (h | h)
    · exact overlaps_of_isPrefixOf h
    · rw [overlaps_comm]
      exact overlaps_of_isPrefixOf h
  · intro h x' y' hx hy
    have hcommon : ∀ z, ¬(x'.isPrefixOf z = true ∧ y'.isPrefixOf z = true) := by
      rintro z ⟨hxz, hyz⟩
      have hover := overlaps_of_common hxz hyz
      rw [overlaps_of_concretion h hx hy] at hover
      cases hover
    refine ⟨Bool.eq_false_iff.mpr fun hxy => ?_, Bool.eq_false_iff.mpr fun hyx => ?_, hcommon⟩
    · exact hcommon y' ⟨hxy, isPrefixOf_refl y'⟩
    · exact hcommon x' ⟨isPrefixOf_refl x', hyx⟩

/-- The places `v[i].a` and `v[j].b` do not overlap, and the element of `v` may be the same in both
or not. -/
theorem disjointness_sound_fields :
    let x : Place := { base := "v", path := [.any (some "i"), .field "a"] }
    let y : Place := { base := "v", path := [.any (some "j"), .field "b"] }
    x.overlaps y = false ∧ ∀ m n : Int,
      let x' : Place := { base := "v", path := [.index m, .field "a"] }
      let y' : Place := { base := "v", path := [.index n, .field "b"] }
      x'.isPrefixOf y' = false ∧ y'.isPrefixOf x' = false := by
  intro x y
  have hdis : x.overlaps y = false := by decide
  refine ⟨hdis, fun m n => ?_⟩
  have hx : x.Concretion { base := "v", path := [.index m, .field "a"] } :=
    ⟨rfl, .cons (.any _ m) (.cons (.field "a") .nil)⟩
  have hy : y.Concretion { base := "v", path := [.index n, .field "b"] } :=
    ⟨rfl, .cons (.any _ n) (.cons (.field "b") .nil)⟩
  obtain ⟨hxy, hyx, -⟩ := (disjointness_sound x y).2.2.2 hdis _ _ hx hy
  exact ⟨hxy, hyx⟩

end Place

end BorrowCheck
