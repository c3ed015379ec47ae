import BorrowCheck.Place

/-!
# Overlap of places

Two places **overlap** when they may share storage. Different variables never do. Along the two
paths, the first step at which they differ decides: two different fields and two different
constant indices are disjoint storage, and every other difference, an unknown index above all, is
taken to overlap. When no step differs, one place contains the other.
-/

namespace BorrowCheck

namespace Proj

/-- Whether two projections of one place select storage with nothing in common. -/
def disjoint : Proj → Proj → Bool
  | field a, field b => a != b
  | index i, index j => i != j
  | _, _ => false

theorem disjoint_comm (p q : Proj) : p.disjoint q = q.disjoint p := by
  cases p <;> cases q <;> simp [disjoint, bne_comm]

/-- Whether two paths into one variable may lead to common storage: the first differing step
decides. -/
def overlap : List Proj → List Proj → Bool
  | p :: ps, q :: qs => if p.unlabel = q.unlabel then overlap ps qs else !p.disjoint q
  | _, _ => true

theorem overlap_comm (ps qs : List Proj) : overlap ps qs = overlap qs ps := by
  induction ps generalizing qs with
  | nil => cases qs <;> rfl
  | cons p ps ih =>
    cases qs with
    | nil => rfl
    | cons q qs => simp only [overlap, ih qs, disjoint_comm p q, eq_comm (a := p.unlabel)]

/-- A path overlaps every path that goes on from it. -/
theorem overlap_of_isPrefix {ps qs : List Proj} (h : ps.map unlabel <+: qs.map unlabel) :
    overlap ps qs = true := by
  induction ps generalizing qs with
  | nil => cases qs <;> rfl
  | cons p ps ih =>
    cases qs with
    | nil => simp at h
    | cons q qs =>
      rw [List.map_cons, List.map_cons, List.cons_prefix_cons] at h
      rw [overlap, if_pos h.1, ih h.2]

/-- What overlaps a path overlaps the path it goes on from. -/
theorem overlap_of_append {ps qs rs : List Proj} (h : overlap ps (qs ++ rs) = true) :
    overlap ps qs = true := by
  induction ps generalizing qs with
  | nil => rfl
  | cons p ps ih =>
    cases qs with
    | nil => rfl
    | cons q qs =>
      by_cases hpq : p.unlabel = q.unlabel
      · rw [List.cons_append, overlap, if_pos hpq] at h
        rw [overlap, if_pos hpq, ih h]
      · rw [List.cons_append, overlap, if_neg hpq] at h
        rw [overlap, if_neg hpq, h]

theorem disjoint_unlabel (p q : Proj) : p.disjoint q.unlabel = p.disjoint q := by
  cases p <;> cases q <;> rfl

/-- Overlap does not depend on the labels of unknown indices. -/
theorem overlap_congr {ps qs rs : List Proj} (h : qs.map unlabel = rs.map unlabel) :
    overlap ps qs = overlap ps rs := by
  induction ps generalizing qs rs with
  | nil => rfl
  | cons p ps ih =>
    cases qs with
    | nil =>
      obtain rfl : rs = [] := by simpa using h.symm
      rfl
    | cons q qs =>
      cases rs with
      | nil => simp at h
      | cons r rs =>
        rw [List.map_cons, List.map_cons, List.cons.injEq] at h
        rw [overlap, overlap, h.1, ih h.2, ← disjoint_unlabel p q, h.1, disjoint_unlabel]

end Proj

/-- Whether two places may refer to common storage. -/
def Place.overlaps (x y : Place) : Bool :=
  x.base = y.base && Proj.overlap x.path y.path

namespace Place

theorem overlaps_comm (x y : Place) : x.overlaps y = y.overlaps x := by
  simp only [overlaps, Proj.overlap_comm x.path, eq_comm (a := x.base)]

/-- What overlaps lies in one variable. -/
theorem base_eq_of_overlaps {x y : Place} (h : x.overlaps y = true) : x.base = y.base := by
  rw [overlaps, Bool.and_eq_true, decide_eq_true_eq] at h
  exact h.1

/-- A place overlaps every place under it. -/
theorem overlaps_of_isPrefixOf {x y : Place} (h : x.isPrefixOf y = true) : x.overlaps y = true := by
  rw [isPrefixOf_iff] at h
  simp [overlaps, h.1, Proj.overlap_of_isPrefix h.2]

/-- What overlaps a place overlaps the place it lies in. -/
theorem overlaps_of_append {x y : Place} {ps : List Proj} (h : x.overlaps (y.append ps) = true) :
    x.overlaps y = true := by
  rw [overlaps, Bool.and_eq_true] at h ⊢
  exact ⟨h.1, Proj.overlap_of_append h.2⟩

theorem overlaps_congr {x y z : Place} (h : y.same z = true) : x.overlaps y = x.overlaps z := by
  rw [same_iff, unlabel, unlabel, mk.injEq] at h
  rw [overlaps, overlaps, h.1, Proj.overlap_congr h.2]

end Place

end BorrowCheck
