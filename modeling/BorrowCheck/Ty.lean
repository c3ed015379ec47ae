/-!
# Types of places

The checker looks at types only to tell references from values and values that are copied from
values that are moved. A type is a name with arguments, as `Vec<String>`, possibly behind one
reference. A type that was not written by a listing may lack some of its arguments.
-/

namespace BorrowCheck

/-- The text of a part that may be missing. -/
def partText {α : Type} (text : α → String) : Option α → String
  | none => "None"
  | some a => text a

/-- How a reference lends the storage it points at. -/
inductive BorrowKind where
  | shared
  | exclusive
deriving DecidableEq

namespace BorrowKind

/-- The kind as findings name it. -/
def text : BorrowKind → String
  | shared => "shared"
  | exclusive => "exclusive"

/-- The reference mark as a listing writes it, with what separates it from the referent. -/
def mark : BorrowKind → String
  | shared => "&"
  | exclusive => "&mut "

/-- Whether the borrow excludes all others. -/
def isExclusive : BorrowKind → Bool
  | shared => false
  | exclusive => true

end BorrowKind

/-- A **type**: a name with arguments; `ref` tells that the value is a reference, and of which
kind. -/
inductive Ty where
  | mk (name : String) (args : List (Option Ty)) (ref : Option BorrowKind)

namespace Ty

/-- The name of the type, of its referent when it is a reference. -/
def name : Ty → String
  | mk name _ _ => name

/-- The type arguments. -/
def args : Ty → List (Option Ty)
  | mk _ args _ => args

/-- The kind of reference, if the type is one. -/
def ref : Ty → Option BorrowKind
  | mk _ _ ref => ref

/-- A type that is no reference. -/
def named (name : String) (args : List Ty := []) : Ty :=
  mk name (args.map some) none

/-- A reference to `t`. There is one layer of references only: it replaces the one that `t` may
have. -/
def refTo (kind : BorrowKind) (t : Ty) : Ty :=
  mk t.name t.args (some kind)

/-- The type of a variable that was declared without one. -/
def unknown : Ty :=
  named "_"

/-- The reference mark in front of a type, if there is one. -/
def refMark : Option BorrowKind → String
  | none => ""
  | some kind => kind.mark

/-- Whether values of the type are references. -/
def isRef (t : Ty) : Bool :=
  t.ref.isSome

/-- The type of the storage that a reference points at. -/
def pointee (t : Ty) : Ty :=
  mk t.name t.args none

mutual

/-- Equality of types is decidable. -/
def decEq : (s t : Ty) → Decidable (s = t)
  | mk a as r, mk b bs q =>
    match decEqList as bs with
    | isTrue has =>
      if h : a = b ∧ r = q then isTrue (by rw [h.1, h.2, has])
      else isFalse fun e => h (by injection e with ha _ hr; exact ⟨ha, hr⟩)
    | isFalse has => isFalse fun e => has (by injection e)

/-- Equality of lists of type arguments is decidable. -/
def decEqList : (ss ts : List (Option Ty)) → Decidable (ss = ts)
  | [], [] => isTrue rfl
  | [], _ :: _ => isFalse nofun
  | _ :: _, [] => isFalse nofun
  | s :: ss, t :: ts =>
    match decEqArg s t, decEqList ss ts with
    | isTrue hs, isTrue hss => isTrue (by rw [hs, hss])
    | isFalse hs, _ => isFalse fun e => hs (by injection e)
    | _, isFalse hss => isFalse fun e => hss (by injection e)

/-- Equality of type arguments is decidable. -/
def decEqArg : (s t : Option Ty) → Decidable (s = t)
  | none, none => isTrue rfl
  | none, some _ => isFalse nofun
  | some _, none => isFalse nofun
  | some s, some t =>
    match decEq s t with
    | isTrue h => isTrue (by rw [h])
    | isFalse h => isFalse fun e => h (by injection e)

end

instance : DecidableEq Ty := decEq

/-! ### The written form -/

mutual

/-- The type as it is written in a listing; a missing argument is written `None`. -/
def text : Ty → String
  | mk name [] ref => refMark ref ++ name
  | mk name (t :: ts) ref => refMark ref ++ name ++ "<" ++ argText t ++ restText ts ++ ">"

/-- Further type arguments, each after a comma. -/
def restText : List (Option Ty) → String
  | [] => ""
  | t :: ts => ", " ++ argText t ++ restText ts

/-- A type argument. -/
def argText : Option Ty → String
  | none => partText id none
  | some t => text t

end

end Ty

end BorrowCheck
