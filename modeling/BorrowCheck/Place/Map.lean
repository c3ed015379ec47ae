import BorrowCheck.Place

/-!
# Tables keyed by places

A `BorrowCheck.Place.Map` lists its entries in the order in which their keys were first put in.
Keys are looked up to sameness (`BorrowCheck.Place.same`), and putting a value at a key that is
already there keeps the old key, with its labels, and its position; a key that was erased and put
in again goes last.
-/

namespace BorrowCheck.Place

/-- A **table keyed by places**, in the order of insertion. -/
structure Map (α : Type) where
  toList : List (Place × α) := []

namespace Map

variable {α : Type}

/-- The value at `x`, if there is one. -/
def get? (m : Map α) (x : Place) : Option α :=
  (m.toList.find? fun e => e.1.same x).map (·.2)

/-- Whether some key is the same place as `x`. -/
def contains (m : Map α) (x : Place) : Bool :=
  m.toList.any fun e => e.1.same x

theorem contains_iff {m : Map α} {x : Place} :
    m.contains x = true ↔ ∃ e ∈ m.toList, e.1.same x = true := by
  simp [contains]

theorem get?_eq_none_iff {m : Map α} {x : Place} : m.get? x = none ↔ m.contains x = false := by
  simp [get?, contains]

/-- Same places have the same value. -/
theorem get?_congr {x y : Place} (m : Map α) (h : x.same y = true) : m.get? x = m.get? y := by
  have hxy : ∀ e : Place × α, e.1.same x = e.1.same y := by
    intro e
    rw [same_iff] at h
    simp [same, h]
  simp only [get?, hxy]

/-- Puts `a` at `x`: in place of the old value, or last when the key is new. -/
def put (m : Map α) (x : Place) (a : α) : Map α :=
  if m.contains x then
    { toList := m.toList.map fun e => if e.1.same x then (e.1, a) else e }
  else
    { toList := m.toList ++ [(x, a)] }

/-- What was put at a place is found at it. -/
theorem get?_put_self (m : Map α) (x : Place) (a : α) : (m.put x a).get? x = some a := by
  unfold put
  split
  next h =>
    obtain ⟨e, he, hx⟩ := contains_iff.mp h
    have key : ∀ l : List (Place × α), e ∈ l →
        ((l.map fun e => if e.1.same x then (e.1, a) else e).find? fun e => e.1.same x).map (·.2) =
          some a := by
      intro l
      induction l with
      | nil => intro hl; cases hl
      | cons d l ih =>
        intro hl
        by_cases hd : d.1.same x = true
        · rw [List.map_cons, if_pos hd, List.find?_cons_of_pos (by simpa using hd)]
          rfl
        · have hmem : e ∈ l := by
            rcases List.mem_cons.mp hl with rfl | hmem
            · exact absurd hx hd
            · exact hmem
          rw [List.map_cons, if_neg hd, List.find?_cons_of_neg (by simpa using hd)]
          exact ih hmem
    exact key m.toList he
  next h =>
    have hnone : (m.toList.find? fun e => e.1.same x) = none := by
      rw [List.find?_eq_none]
      intro e he hx
      exact h (contains_iff.mpr ⟨e, he, hx⟩)
    simp [get?, List.find?_append, hnone]

/-- Putting a value at one place leaves all others alone. -/
theorem get?_put_of_not_same (m : Map α) {x y : Place} (a : α) (h : x.same y = false) :
    (m.put x a).get? y = m.get? y := by
  have hkey : ∀ z : Place, z.same x = true → z.same y = false := by
    intro z hz
    rw [Bool.eq_false_iff] at *
    intro hzy
    exact h (same_trans (by rw [same_comm]; exact hz) hzy)
  unfold put
  split
  next =>
    have key : ∀ l : List (Place × α),
        ((l.map fun e => if e.1.same x then (e.1, a) else e).find? fun e => e.1.same y).map (·.2) =
          (l.find? fun e => e.1.same y).map (·.2) := by
      intro l
      induction l with
      | nil => rfl
      | cons d l ih =>
        by_cases hd : d.1.same x = true
        · have hy := hkey d.1 hd
          simp only [List.map_cons, hd, if_true, List.find?_cons, hy]
          exact ih
        · rw [List.map_cons, if_neg hd]
          by_cases hy : d.1.same y = true
          · rw [List.find?_cons_of_pos (by simpa using hy),
              List.find?_cons_of_pos (by simpa using hy)]
          · rw [List.find?_cons_of_neg (by simpa using hy),
              List.find?_cons_of_neg (by simpa using hy), ih]
    exact key m.toList
  next => simp [get?, List.find?_append, h]

/-- Keeps the entries whose key satisfies `keep`. -/
def keepKeys (m : Map α) (keep : Place → Bool) : Map α :=
  { toList := m.toList.filter fun e => keep e.1 }

/-- Removes the entry at `x`. -/
def erase (m : Map α) (x : Place) : Map α :=
  m.keepKeys fun y => !y.same x

end Map

end BorrowCheck.Place
