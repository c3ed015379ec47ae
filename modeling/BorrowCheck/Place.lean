/-!
# Places

A **place** names storage: a root variable followed by a path of projections, read from left to
right. So `v[0].name` is the root `v` with the path `[0]`, `.name`, and `(*r).x` is the root `r`
with the path deref, `.x`.

An index that is not a constant may carry the name of the variable that was written there. The
name is only kept to be printed again: two places that differ in such labels alone are the
**same** place (`BorrowCheck.Place.same`), and every table of the checker looks places up that
way.
-/

namespace BorrowCheck

/-- A position in a function body; only the order of points matters. -/
abbrev Point := Int

/-- One step of a path into storage. -/
inductive Proj where
  /-- A field, as in `x.name`. -/
  | field (name : String)
  /-- A constant index, as in `x[3]`. -/
  | index (value : Int)
  /-- An index that is not known; the label is the variable it was written with. -/
  | any (label : Option String)
  /-- The storage that a reference points at. -/
  | deref
deriving DecidableEq

namespace Proj

/-- Forgets the label of an unknown index. -/
def unlabel : Proj → Proj
  | any _ => any none
  | p => p

@[simp] theorem unlabel_unlabel (p : Proj) : p.unlabel.unlabel = p.unlabel := by
  cases p <;> rfl

/-- Whether the projection goes through a reference. -/
def isDeref : Proj → Bool
  | deref => true
  | _ => false

@[simp] theorem isDeref_unlabel (p : Proj) : p.unlabel.isDeref = p.isDeref := by
  cases p <;> rfl

/-- Whether the projection selects an element of a container. -/
def isIndex : Proj → Bool
  | index _ => true
  | any _ => true
  | _ => false

@[simp] theorem isIndex_unlabel (p : Proj) : p.unlabel.isIndex = p.isIndex := by
  cases p <;> rfl

/-! ### Cutting a path at its first dereference -/

/-- The parts of a path before and after its first dereference. -/
def cutDeref : List Proj → Option (List Proj × List Proj)
  | [] => none
  | p :: ps => if p.isDeref then some ([], ps) else (cutDeref ps).map fun cut => (p :: cut.1, cut.2)

theorem cutDeref_isSome (ps : List Proj) : (cutDeref ps).isSome = ps.any isDeref := by
  induction ps with
  | nil => rfl
  | cons p ps ih => by_cases h : p.isDeref = true <;> simp [cutDeref, h, ih]

theorem takeWhile_of_cutDeref {ps before after : List Proj}
    (h : cutDeref ps = some (before, after)) : ps.takeWhile (!·.isDeref) = before := by
  induction ps generalizing before with
  | nil => simp [cutDeref] at h
  | cons p ps ih =>
    by_cases hp : p.isDeref = true
    · simp [cutDeref, hp] at h
      simp [hp, h.1]
    · simp only [cutDeref, hp, Bool.false_eq_true, if_false, Option.map_eq_some_iff,
        Prod.mk.injEq] at h
      obtain ⟨⟨first, second⟩, hcut, hfirst, hsecond⟩ := h
      subst hsecond
      rw [List.takeWhile_cons_of_pos (by simp [hp]), ih hcut, hfirst]

theorem takeWhile_of_not_any {ps : List Proj} (h : ps.any isDeref = false) :
    ps.takeWhile (!·.isDeref) = ps := by
  induction ps with
  | nil => rfl
  | cons p ps ih =>
    rw [List.any_cons, Bool.or_eq_false_iff] at h
    rw [List.takeWhile_cons_of_pos (by simp [h.1]), ih h.2]

theorem any_takeWhile (ps : List Proj) : (ps.takeWhile (!·.isDeref)).any isDeref = false := by
  induction ps with
  | nil => rfl
  | cons p ps ih => by_cases hp : p.isDeref = true <;> simp [hp, ih]

/-! ### The written form -/

/-- How a projection is written after the place it applies to; an unknown index without a name is
written `_`. A dereference is written in front of the place and has no text here. -/
def suffix : Proj → String
  | field name => "." ++ name
  | index value => "[" ++ toString value ++ "]"
  | any (some label) => if label.isEmpty then "[_]" else "[" ++ label ++ "]"
  | any none => "[_]"
  | deref => ""

end Proj

/-- A **place**: a root variable and a path of projections into it. -/
structure Place where
  base : String
  path : List Proj := []
deriving DecidableEq

namespace Place

/-- The place reached by a further path. -/
def append (x : Place) (ps : List Proj) : Place :=
  { x with path := x.path ++ ps }

/-- The storage that the reference held in `x` points at. -/
def deref (x : Place) : Place :=
  x.append [.deref]

/-- The field `name` of `x`. -/
def field (x : Place) (name : String) : Place :=
  x.append [.field name]

/-- The element of `x` at a constant index. -/
def elem (x : Place) (value : Int) : Place :=
  x.append [.index value]

/-- The variable that `x` lies in. -/
def root (x : Place) : Place :=
  { base := x.base }

/-- Whether `x` is a whole variable. -/
def isRoot (x : Place) : Bool :=
  x.path.isEmpty

/-! ### The written form -/

/-- Writes the projections `ps` after `text`. A star binds weaker than a projection, so a text
that starts with stars (`starred`) is put in parentheses before the next field or index. -/
def write (text : String) (starred : Bool) : List Proj → String
  | [] => text
  | .deref :: ps => write ("*" ++ text) true ps
  | p :: ps => write ((if starred then "(" ++ text ++ ")" else text) ++ p.suffix) false ps

/-- The place as it is written in a listing. -/
def text (x : Place) : String :=
  write x.base false x.path

/-! ### Sameness and trail -/

/-- Forgets the labels of unknown indices. -/
def unlabel (x : Place) : Place :=
  { x with path := x.path.map Proj.unlabel }

/-- Whether two places are the **same** up to the labels of unknown indices. -/
def same (x y : Place) : Bool :=
  x.unlabel = y.unlabel

@[simp] theorem same_iff {x y : Place} : x.same y = true ↔ x.unlabel = y.unlabel := by
  simp [same]

theorem same_refl (x : Place) : x.same x = true := by
  simp

theorem same_comm (x y : Place) : x.same y = y.same x := by
  simp [same, eq_comm]

theorem same_trans {x y z : Place} (hxy : x.same y = true) (hyz : y.same z = true) :
    x.same z = true := by
  rw [same_iff] at *
  exact hxy.trans hyz

/-- Whether `y` is `x` or lies under it. -/
def isPrefixOf (x y : Place) : Bool :=
  x.base = y.base && (x.path.map Proj.unlabel).isPrefixOf (y.path.map Proj.unlabel)

@[simp] theorem isPrefixOf_iff {x y : Place} :
    x.isPrefixOf y = true ↔
      x.base = y.base ∧ x.path.map Proj.unlabel <+: y.path.map Proj.unlabel := by
  simp [isPrefixOf]

theorem isPrefixOf_refl (x : Place) : x.isPrefixOf x = true := by
  simp

theorem isPrefixOf_trans {x y z : Place} (hxy : x.isPrefixOf y = true)
    (hyz : y.isPrefixOf z = true) : x.isPrefixOf z = true := by
  rw [isPrefixOf_iff] at *
  exact ⟨hxy.1.trans hyz.1, hxy.2.trans hyz.2⟩

/-- Places that lie in each other are the same. -/
theorem same_of_isPrefixOf {x y : Place} (hxy : x.isPrefixOf y = true)
    (hyx : y.isPrefixOf x = true) : x.same y = true := by
  rw [isPrefixOf_iff] at *
  rw [same_iff, unlabel, unlabel, hxy.1, hxy.2.eq_of_length_le hyx.2.length_le]

/-- The places on the way from the root to `x`, `x` included. -/
def trail (x : Place) : List Place :=
  (List.range (x.path.length + 1)).map fun n => { x with path := x.path.take n }

/-- The places on the way from the root to `x`, `x` left out. -/
def enclosing (x : Place) : List Place :=
  (List.range x.path.length).map fun n => { x with path := x.path.take n }

/-! ### The part before a reference or a container -/

/-- The place before the first dereference and the path after it, when `x` goes through a
reference. -/
def cut? (x : Place) : Option (Place × List Proj) :=
  (Proj.cutDeref x.path).map fun cut => ({ x with path := cut.1 }, cut.2)

/-- Whether `x` goes through a reference. -/
def throughRef (x : Place) : Bool :=
  x.path.any Proj.isDeref

/-- The **holder** of `x`: the place before the first dereference, which is `x` itself when there
is none. Using `x` uses the holder. -/
def holder (x : Place) : Place :=
  { x with path := x.path.takeWhile (!·.isDeref) }

/-- A place is cut at a dereference exactly when it goes through a reference. -/
theorem cut?_isSome (x : Place) : x.cut?.isSome = x.throughRef := by
  simp [cut?, throughRef, Proj.cutDeref_isSome]

/-- The part before the cut is the holder. -/
theorem cut?_fst {x ref : Place} {rest : List Proj} (h : x.cut? = some (ref, rest)) :
    ref = x.holder := by
  obtain ⟨⟨before, after⟩, hcut, hx⟩ := Option.map_eq_some_iff.mp h
  simp only [Prod.mk.injEq] at hx
  rw [← hx.1, holder, Proj.takeWhile_of_cutDeref hcut]

/-- Without a reference on its path a place is its own holder. -/
theorem holder_of_not_throughRef {x : Place} (h : x.throughRef = false) : x.holder = x := by
  rw [holder, Proj.takeWhile_of_not_any h]

/-- A holder does not go through a reference. -/
@[simp] theorem throughRef_holder (x : Place) : x.holder.throughRef = false :=
  Proj.any_takeWhile x.path

/-- The **container** of `x`: the place before the first index, which is `x` itself when there is
none. Indexing reaches the whole container, whereas a path of fields reaches itself. -/
def container (x : Place) : Place :=
  { x with path := x.path.takeWhile (!·.isIndex) }

end Place

end BorrowCheck
