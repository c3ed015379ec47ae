import BorrowCheck.Proofs.History
import BorrowCheck.Proofs.Moves
import BorrowCheck.Proofs.Names

/-!
# The loans that cells name

A cell names the loans of its place, by number. `BorrowCheck.Store.Names` is the view of a store in
this respect, with one equation for what each change does to it: only opening and closing a loan, a
declaration and the end of storage have an effect on it. In particular a new value keeps all notes,
although cells are dropped then, since a cell is dropped only when it has nothing to say.

A store is **tidy** (`BorrowCheck.Store.Tidy`) when it has cells for storage of the function only:
for parts of variables in scope that lie behind no reference.
-/

namespace BorrowCheck

/-! ### Places that contain one another -/

namespace Place

variable {x y : Place}

/-- Whether one of two places contains the other. -/
def nests (x y : Place) : Bool :=
  y.isPrefixOf x || x.isPrefixOf y

theorem nests_cases (h : x.nests y = true) : y.isPrefixOf x = true ∨ x.isPrefixOf y = true :=
  Bool.or_eq_true_iff.mp h

/-- Places that contain one another belong to one variable. -/
theorem base_eq_of_nests (h : x.nests y = true) : x.base = y.base := by
  rcases nests_cases h with h | h
  · exact (isPrefixOf_iff.mp h).1.symm
  · exact (isPrefixOf_iff.mp h).1

/-- Places that contain one another overlap. -/
theorem overlaps_of_nests (h : x.nests y = true) : x.overlaps y = true := by
  rcases nests_cases h with h | h
  · rw [overlaps_comm]
    exact overlaps_of_isPrefixOf h
  · exact overlaps_of_isPrefixOf h

theorem nests_of_same (h : x.same y = true) : x.nests y = true := by
  rw [nests, ← isPrefixOf_congr h, isPrefixOf_refl, Bool.or_true]

/-- What is nested with a part of `x` is nested with `x`. -/
theorem nests_of_append {ps : List Proj} (h : (x.append ps).nests y = true) : x.nests y = true := by
  rw [nests, Bool.or_eq_true]
  rcases nests_cases h with h | h
  · obtain ⟨hbase, hpath⟩ := isPrefixOf_iff.mp h
    have hx := isPrefixOf_iff.mp (isPrefixOf_append x ps)
    rcases Nat.le_total (y.path.map Proj.unlabel).length (x.path.map Proj.unlabel).length with
      hle | hle
    · exact .inl (isPrefixOf_iff.mpr ⟨hbase, List.prefix_of_prefix_length_le hpath hx.2 hle⟩)
    · exact .inr (isPrefixOf_iff.mpr ⟨hbase.symm, List.prefix_of_prefix_length_le hx.2 hpath hle⟩)
  · exact .inr (isPrefixOf_trans (isPrefixOf_append x ps) h)

/-- A place reaches what lies in it. -/
theorem reaches_of_isPrefixOf (h : x.isPrefixOf y = true) : x.reaches y = true := by
  have hcontainer : x.container.isPrefixOf x = true :=
    isPrefixOf_iff.mpr ⟨rfl, (List.takeWhile_prefix _).map _⟩
  rw [reaches, Bool.or_eq_true]
  cases hsame : y.same x.container with
  | true =>
    rw [isPrefixOf_congr_left hsame]
    exact .inl hcontainer
  | false =>
    rw [Bool.not_false, Bool.and_true]
    exact .inr (isPrefixOf_trans hcontainer h)

end Place

/-! ### Loans in cells -/

namespace Cell

variable {c : Cell} {kind kind' : BorrowKind} {i id : Int}

/-- The cell **names** the loan `i` as one of the given kind. -/
def Names (c : Cell) (kind : BorrowKind) (i : Int) : Prop :=
  match kind with
  | .shared => i ∈ c.shared
  | .exclusive => c.exclusive = some i

/-- A cell that takes a loan on names it, and the loans that it named before. There is room for one
exclusive loan, so the new one takes the place of the old one. -/
theorem names_encumber : (c.encumber kind id).Names kind' i ↔
    (kind' = kind ∧ i = id) ∨ (c.Names kind' i ∧ ¬(kind = .exclusive ∧ kind' = .exclusive)) := by
  cases kind with
  | exclusive => cases kind' <;> simp [encumber, Names, eq_comm]
  | shared =>
    rw [encumber]
    split
    next hold =>
      rw [List.contains_iff_mem] at hold
      cases kind' with
      | exclusive => simp [Names]
      | shared =>
        refine ⟨fun h => .inr ⟨h, by simp⟩, ?_⟩
        rintro (⟨-, rfl⟩ | ⟨h, -⟩)
        · exact hold
        · exact h
    next => cases kind' <;> simp [Names, or_comm]

/-- A cell that is discharged of a loan names the others, of either kind. -/
theorem names_discharge : (c.discharge id).Names kind i ↔ c.Names kind i ∧ i ≠ id := by
  cases kind with
  | shared => simp [discharge, Names]
  | exclusive =>
    simp only [discharge, Names, Option.filter_eq_some_iff, decide_eq_true_eq]

/-- A cell that has nothing to say names no loan. -/
theorem not_names_of_isIdle (h : c.isIdle = true) : ¬c.Names kind i := by
  simp only [isIdle, Bool.and_eq_true, List.isEmpty_iff, Option.isNone_iff_eq_none] at h
  cases kind <;> simp [Names, h]

end Cell

namespace Store

variable {s t : Store} {x y : Place} {p : Point} {o : Ownership} {kind kind' : BorrowKind}
  {i id : Int}

/-- The cell of `y` names the loan `i`. -/
def Names (s : Store) (y : Place) (kind : BorrowKind) (i : Int) : Prop :=
  (s.cell y).Names kind i

/-- Places that are the same have one cell. -/
theorem names_congr (h : x.same y = true) : s.Names x kind i ↔ s.Names y kind i := by
  rw [Names, Names, cell, cell, Place.Map.get?_congr _ h]

/-- A cell that is put speaks for the places that are the same as its own. -/
theorem names_put {cell : Cell} {types : List (String × Ty)} {scopes : Scopes} :
    Names { cells := s.cells.put x cell, types, scopes } y kind i ↔
      if x.same y then cell.Names kind i else s.Names y kind i := by
  rw [Names, Store.cell]
  split
  next h =>
    rw [← Place.Map.get?_congr _ h, Place.Map.get?_put_self, Option.getD_some]
  next h =>
    rw [Place.Map.get?_put_of_not_same _ _ (Bool.eq_false_iff.mpr h)]
    rfl

/-- Putting a cell with the same loans changes nothing. -/
theorem names_put_of_eq {cell : Cell} (hshared : cell.shared = (s.cell x).shared)
    (hexclusive : cell.exclusive = (s.cell x).exclusive) :
    Names { s with cells := s.cells.put x cell } y kind i ↔ s.Names y kind i := by
  rw [names_put]
  split
  next h =>
    rw [← names_congr h, Names]
    cases kind <;> simp only [Cell.Names, hshared, hexclusive]
  next => rfl

/-- Who owns the value has no effect on the loans. -/
theorem names_own : (s.own x o).Names y kind i ↔ s.Names y kind i :=
  names_put_of_eq rfl rfl

/-- That a value has left has no effect on the loans. -/
theorem names_drain : (s.drain x p).Names y kind i ↔ s.Names y kind i :=
  names_put_of_eq rfl rfl

/-- A variable is declared with a cell that names nothing, whatever its name stood for before. -/
theorem names_declare {ty : Ty} {init : Bool} (h : s.declare x ty init = .ok t) :
    t.Names y kind i ↔ x.same y = false ∧ s.Names y kind i := by
  obtain ⟨-, -, rfl⟩ := declare_eq_ok_iff.mp h
  rw [names_put]
  cases x.same y with
  | false => simp
  | true => cases kind <;> simp [Cell.Names]

/-- A loan of local storage is noted in the cell of its target and nowhere else. -/
theorem names_encumber (hlocal : s.isLocal x = true) :
    (s.encumber x kind id).Names y kind' i ↔
      if x.same y then ((s.cell x).encumber kind id).Names kind' i else s.Names y kind' i := by
  rw [encumber, if_pos hlocal, names_put]

/-- What the cells that are not kept named is forgotten; the test has to treat places that are the
same alike. -/
theorem names_keepKeys {keep : Place → Bool} {types : List (String × Ty)} {scopes : Scopes}
    (hkeep : ∀ y z, y.same z = true → keep y = keep z) :
    Names { cells := s.cells.keepKeys keep, types, scopes } y kind i ↔
      keep y = true ∧ s.Names y kind i := by
  rw [Names, cell]
  cases hy : keep y with
  | true =>
    rw [Place.Map.get?_keepKeys fun z hz => (hkeep z y hz).trans hy]
    exact (and_iff_right rfl).symm
  | false =>
    have hnone : (s.cells.keepKeys keep).get? y = none := by
      rw [Place.Map.get?_eq_none_iff, Bool.eq_false_iff]
      intro hin
      obtain ⟨e, he, hsame⟩ := Place.Map.contains_iff.mp hin
      have hkept := (Place.Map.mem_keepKeys.mp he).2
      rw [hkeep e.1 y hsame, hy] at hkept
      cases hkept
    rw [hnone]
    refine iff_of_false (Cell.not_names_of_isIdle rfl) ?_
    simp

/-- The end of storage takes the notes on it along. -/
theorem names_endStorage {roots : List String} :
    (s.endStorage roots).Names y kind i ↔ y.base ∉ roots ∧ s.Names y kind i := by
  rw [endStorage, names_keepKeys fun y z hyz => by rw [Place.base_eq_of_same hyz]]
  simp

/-- A loan is struck out in the cell of its target, also when that cell is dropped on the
occasion. -/
theorem names_discharge :
    (s.discharge x id).Names y kind i ↔ s.Names y kind i ∧ ¬(x.same y = true ∧ i = id) := by
  -- what the cell of `x` itself names afterwards
  have hself : ∀ cell, s.cells.get? x = some cell → x.same y = true →
      ((cell.discharge id).Names kind i ↔ s.Names y kind i ∧ i ≠ id) := by
    intro cell hget hsame
    rw [Cell.names_discharge, ← names_congr hsame, Names, Store.cell, hget, Option.getD_some]
  simp only [discharge]
  split
  next hget =>
    refine ⟨fun h => ⟨h, ?_⟩, And.left⟩
    rintro ⟨hsame, -⟩
    rw [← names_congr hsame, Names, Store.cell, hget] at h
    exact Cell.not_names_of_isIdle rfl h
  next cell hget =>
    split
    next hidle =>
      -- the cell is dropped, as it would name nothing
      have hnone : ¬(cell.discharge id).Names kind i :=
        Cell.not_names_of_isIdle (Bool.and_eq_true_iff.mp hidle).2
      rw [Place.Map.erase, names_keepKeys fun y z hyz => by rw [Place.same_congr_left hyz]]
      rw [Place.same_comm y x]
      cases hsame : x.same y with
      | false => simp
      | true =>
        rw [hself cell hget hsame] at hnone
        simpa using hnone
    next =>
      rw [names_put]
      cases hsame : x.same y with
      | false => simp
      | true => simpa using hself cell hget hsame

/-- When loans are closed, each is struck out in the cell of its target. -/
theorem names_close {b : Books} {loans : List Loan} :
    (b.close loans).store.Names y kind i ↔
      b.store.Names y kind i ∧ ∀ l ∈ loans, ¬(l.target.same y = true ∧ i = l.id) := by
  simp only [Books.close]
  generalize b.store = s
  induction loans generalizing s with
  | nil => simp
  | cons l loans ih =>
    rw [List.foldl_cons, ih, names_discharge, List.forall_mem_cons, and_assoc]

/-- A loan is named by an entry, as keys are distinct. -/
theorem names_iff_mem (hd : s.cells.Distinct) :
    s.Names y kind i ↔ ∃ e ∈ s.cells.toList, e.1.same y = true ∧ e.2.Names kind i := by
  rw [Names, cell]
  constructor
  · intro h
    cases hget : s.cells.get? y with
    | none =>
      rw [hget] at h
      exact absurd h (Cell.not_names_of_isIdle rfl)
    | some cell =>
      obtain ⟨e, he, hsame, rfl⟩ := Place.Map.exists_mem_of_get? hget
      rw [hget] at h
      exact ⟨e, he, hsame, h⟩
  · rintro ⟨e, he, hsame, h⟩
    rw [hd.get?_of_mem he hsame]
    exact h

/-- An entry that is given a value names what it named before; one that is dropped named nothing. -/
theorem names_renew {e : Place × Cell} (h : e.2.Names kind i) :
    ∃ d, renew x e = some d ∧ d.1 = e.1 ∧ d.2.Names kind i := by
  have howned : Cell.Names { e.2 with ownership := .owned, movedAt := none } kind i := by
    cases kind <;> exact h
  unfold renew
  split
  · rw [if_neg]
    · exact ⟨_, rfl, rfl, howned⟩
    · intro hdrop
      exact Cell.not_names_of_isIdle (Bool.and_eq_true_iff.mp hdrop).2 howned
  · exact ⟨e, rfl, rfl, h⟩

/-- An entry that is given a value names nothing new. -/
theorem names_of_renew {d e : Place × Cell} (h : renew x e = some d) (hd : d.2.Names kind i) :
    e.2.Names kind i := by
  unfold renew at h
  split at h
  · dsimp only at h
    split at h
    · cases h
    · obtain rfl := Option.some.inj h
      cases kind <;> exact hd
  · obtain rfl := Option.some.inj h
    exact hd

/-- A new value leaves the loans alone. -/
theorem names_restore (hd : s.cells.Distinct) :
    (s.restore x).Names y kind i ↔ s.Names y kind i := by
  rw [restore_eq, names_own, names_iff_mem hd, names_iff_mem (distinct_renewed hd)]
  constructor
  · rintro ⟨d, hmem, hsame, hnames⟩
    obtain ⟨e, he, hrenew⟩ := List.mem_filterMap.mp hmem
    rw [key_of_renew hrenew] at hsame
    exact ⟨e, he, hsame, names_of_renew hrenew hnames⟩
  · rintro ⟨e, he, hsame, hnames⟩
    obtain ⟨d, hrenew, hkey, hnames'⟩ := names_renew (x := x) hnames
    exact ⟨d, List.mem_filterMap.mpr ⟨e, he, hrenew⟩, hkey ▸ hsame, hnames'⟩

/-! ### Tidy stores -/

/-- A **tidy** store has cells for storage of the function only. -/
structure Tidy (s : Store) : Prop extends Orderly s where
  housed : s.Housed
  /-- No cell is for a place behind a reference. -/
  direct : ∀ e ∈ s.cells.toList, e.1.throughRef = false

/-- Storage of the function lies behind no reference and belongs to a variable in scope. -/
theorem isLocal_iff : s.isLocal x = true ↔ x.throughRef = false ∧ s.declares x = true := by
  rw [isLocal, Bool.and_eq_true, Bool.not_eq_true']

theorem isLocal_of_types (h : t.types = s.types) : t.isLocal x = s.isLocal x := by
  rw [isLocal, isLocal, declares_of_types h]

/-- The cells of a tidy store are for storage of the function. -/
theorem Tidy.isLocal (h : s.Tidy) {e : Place × Cell} (he : e ∈ s.cells.toList) :
    s.isLocal e.1 = true :=
  isLocal_iff.mpr ⟨h.direct e he, h.housed e he⟩

theorem tidy_empty : Tidy {} where
  toOrderly := orderly_empty
  housed := housed_empty
  direct := List.forall_mem_nil _

/-- Keys that are new are those of places behind no reference. -/
theorem direct_put (h : ∀ e ∈ s.cells.toList, e.1.throughRef = false) (hx : x.throughRef = false)
    (cell : Cell) : ∀ e ∈ (s.cells.put x cell).toList, e.1.throughRef = false := by
  intro e he
  rcases Place.Map.mem_put he with ⟨he, -⟩ | ⟨hsame, -⟩
  · exact h e he
  · rw [Place.throughRef_congr hsame, hx]

/-- A variable lies behind no reference. -/
theorem throughRef_of_isRoot (h : x.isRoot = true) : x.throughRef = false := by
  rw [Place.eq_of_isRoot h]
  rfl

theorem Tidy.declare {ty : Ty} {init : Bool} (h : s.Tidy) (ht : s.declare x ty init = .ok t) :
    t.Tidy where
  toOrderly := h.toOrderly.declare ht
  housed := h.housed.declare ht
  direct := by
    obtain ⟨hroot, -, rfl⟩ := declare_eq_ok_iff.mp ht
    exact direct_put h.direct (throughRef_of_isRoot hroot) _

/-- A loan of storage that is not local is noted nowhere, so no cell is made for it. -/
theorem Tidy.encumber (h : s.Tidy) : (s.encumber x kind id).Tidy where
  toOrderly := h.of_le (distinct_encumber h.distinct _ _) fun y o hy => by
    rw [lack?_encumber] at hy
    exact ⟨hy, (declares_of_types (encumber_types _ _)).trans (h.declared hy)⟩
  housed := h.housed.encumber _ _ _
  direct := by
    unfold Store.encumber
    split
    next hlocal => exact direct_put h.direct (isLocal_iff.mp hlocal).1 _
    next => exact h.direct

/-- To strike out a loan makes no cell: where there is none nothing is done, and one that has
nothing left to say is dropped. -/
theorem Tidy.discharge (h : s.Tidy) : (s.discharge x id).Tidy where
  toOrderly := h.of_le (distinct_discharge h.distinct _) fun y o hy => by
    rw [lack?_discharge] at hy
    exact ⟨hy, (declares_of_types (discharge_types _)).trans (h.declared hy)⟩
  housed := h.housed.discharge _ _
  direct := by
    simp only [Store.discharge]
    split
    · exact h.direct
    next cell hget =>
      split
      · exact fun e he => h.direct e (Place.Map.mem_keepKeys.mp he).1
      · obtain ⟨e, he, hsame, -⟩ := Place.Map.exists_mem_of_get? hget
        exact direct_put h.direct (Place.throughRef_congr hsame ▸ h.direct e he) _

/-- The same for all loans that are closed together. -/
theorem Tidy.close {b : Books} (h : b.store.Tidy) (loans : List Loan) :
    (b.close loans).store.Tidy :=
  Books.close_induction b loans Tidy h fun _ _ ht => ht.discharge

/-- With a variable the cells of its parts go, and nothing of it is left to lack a value. -/
theorem Tidy.endStorage (h : s.Tidy) (roots : List String) : (s.endStorage roots).Tidy where
  toOrderly := h.of_le (h.distinct.keepKeys _) fun y o hy => by
    rw [lack?_endStorage] at hy
    split at hy
    · cases hy
    next hstay => exact ⟨hy, declares_endStorage.mpr ⟨h.declared hy, hstay⟩⟩
  housed := h.housed.endStorage roots
  direct := fun e he => h.direct e (Place.Map.mem_keepKeys.mp he).1

/-- A value that is given to local storage leaves the store tidy. -/
theorem Tidy.own_owned (h : s.Tidy) (hlocal : s.isLocal x = true) : (s.own x .owned).Tidy where
  toOrderly := h.of_le (distinct_own h.distinct _) fun y o hy => by
    rw [lack?_own_owned] at hy
    split at hy
    · cases hy
    · exact ⟨hy, h.declared hy⟩
  housed := h.housed.put (isLocal_iff.mp hlocal).2 _
  direct := direct_put h.direct (isLocal_iff.mp hlocal).1 _

/-- A new value drops cells and makes one only, that of the place written. -/
theorem Tidy.restore (h : s.Tidy) (hlocal : s.isLocal x = true) : (s.restore x).Tidy where
  toOrderly := h.of_le (distinct_restore h.distinct) fun y o hy => by
    rw [lack?_restore] at hy
    split at hy
    · cases hy
    · exact ⟨hy, h.declared hy⟩
  housed := h.housed.restore (isLocal_iff.mp hlocal).2
  direct := by
    refine direct_put (s := { s with cells := { toList := s.cells.toList.filterMap (renew x) } })
      (fun d hd => ?_) (isLocal_iff.mp hlocal).1 _
    obtain ⟨e, he, hrenew⟩ := List.mem_filterMap.mp hd
    rw [key_of_renew hrenew]
    exact h.direct e he

end Store

end BorrowCheck
