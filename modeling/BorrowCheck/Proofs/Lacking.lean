import BorrowCheck.Proofs.Liveness
import BorrowCheck.Proofs.Values

/-!
# Why a place lacks a value

Whether a place can be used depends on the cells of the places around it and, when it is reached by
an index, on those of all parts of the container. This file puts that into one question about single
places: does the place itself **lack** a value (`BorrowCheck.Store.lack?`), because it has none yet
or because it was moved out? Cells without any such news may come and go, as loans are noted and
struck; the question does not see them.

There is one equation for every change of a store, and the two queries are answered by it: a place
can be used when none that contains it lacks a value, and no other part of the container that it
reaches was moved out (`BorrowCheck.Store.lacking?_eq_none_iff`). The second query, the status,
shows exactly what the first one finds (`BorrowCheck.Store.status_eq`).
-/

namespace BorrowCheck

/-! ### Places that contain a place -/

namespace Place

variable {x y z : Place}

theorem isPrefixOf_congr_left (h : x.same y = true) : x.isPrefixOf z = y.isPrefixOf z := by
  rw [same_iff, unlabel, unlabel, mk.injEq] at h
  simp only [isPrefixOf, h.1, h.2]

/-- A whole variable is its own root. -/
theorem eq_of_isRoot (h : x.isRoot = true) : x = { base := x.base } := by
  rw [isRoot, List.isEmpty_iff] at h
  rw [← h]

theorem same_congr_left (h : x.same y = true) : x.same z = y.same z := by
  rw [same_iff] at h
  simp only [same, h]

/-- The places on the way to `x` contain it. -/
theorem isPrefixOf_of_mem_trail (h : y ∈ x.trail) : y.isPrefixOf x = true := by
  obtain ⟨n, -, rfl⟩ := List.mem_map.mp h
  exact isPrefixOf_iff.mpr ⟨rfl, (List.take_prefix n x.path).map _⟩

/-- What contains `x` is one of the places on the way to it. -/
theorem exists_mem_trail (h : y.isPrefixOf x = true) : ∃ z ∈ x.trail, z.same y = true := by
  obtain ⟨hbase, hpath⟩ := isPrefixOf_iff.mp h
  have hlen : y.path.length ≤ x.path.length := by simpa using hpath.length_le
  refine ⟨{ x with path := x.path.take y.path.length }, List.mem_map.mpr ⟨_, ?_, rfl⟩, ?_⟩
  · exact List.mem_range.mpr (Nat.lt_succ_of_le hlen)
  · have htake := List.prefix_iff_eq_take.mp hpath
    rw [List.length_map] at htake
    rw [same_iff, unlabel, unlabel, mk.injEq, List.map_take, ← htake]
    exact ⟨hbase.symm, rfl⟩

/-- The places on the way to `x`, itself left out, contain it strictly. -/
theorem isPrefixOf_of_mem_enclosing (h : y ∈ x.enclosing) :
    y.isPrefixOf x = true ∧ y.same x = false := by
  obtain ⟨n, hn, rfl⟩ := List.mem_map.mp h
  rw [List.mem_range] at hn
  refine ⟨isPrefixOf_iff.mpr ⟨rfl, (List.take_prefix n x.path).map _⟩, ?_⟩
  rw [Bool.eq_false_iff]
  intro hsame
  rw [same_iff, unlabel, unlabel, mk.injEq] at hsame
  have hlen := congrArg List.length hsame.2
  simp only [List.length_map, List.length_take] at hlen
  omega

/-- Every proper container of a place is among the places that enclose it. -/
theorem exists_mem_enclosing (h : y.isPrefixOf x = true) (hne : y.same x = false) :
    ∃ z ∈ x.enclosing, z.same y = true := by
  obtain ⟨z, hz, hsame⟩ := exists_mem_trail h
  obtain ⟨n, hn, rfl⟩ := List.mem_map.mp hz
  rcases Nat.lt_or_ge n x.path.length with hlt | hge
  · exact ⟨_, List.mem_map.mpr ⟨n, List.mem_range.mpr hlt, rfl⟩, hsame⟩
  · -- the last place of the trail is `x` itself
    rw [List.take_of_length_le hge, same_comm] at hsame
    rw [show ({ x with path := x.path } : Place) = x from rfl] at hsame
    rw [hsame] at hne
    cases hne

/-- Whether the value of `y` matters to a use of `x`: it contains `x`, or it is a part of the
container that `x` reaches. -/
def reaches (x y : Place) : Bool :=
  y.isPrefixOf x || (x.container.isPrefixOf y && !y.same x.container)

theorem reaches_congr (h : y.same z = true) : x.reaches y = x.reaches z := by
  rw [reaches, reaches, isPrefixOf_congr_left h, isPrefixOf_congr h, same_congr_left h]

/-- A place reaches parts of its own variable only. -/
theorem base_eq_of_reaches (h : x.reaches y = true) : y.base = x.base := by
  rw [reaches, Bool.or_eq_true, Bool.and_eq_true, isPrefixOf_iff, isPrefixOf_iff] at h
  rcases h with h | h
  · exact h.1
  · exact h.1.1.symm

end Place

/-! ### The question -/

/-- Why a place **lacks** a value: it has none yet, or it was moved out, where it was noted that
this was at `point`. -/
inductive Lack where
  | uninit
  | moved (point : Option Point)

namespace Cell

variable {c : Cell}

/-- What a cell says to be missing, if anything is. -/
def lack? (c : Cell) : Option Lack :=
  match c.ownership with
  | .owned => none
  | .uninit => some .uninit
  | .moved => some (.moved c.movedAt)

theorem lack?_eq_none_iff : c.lack? = none ↔ c.ownership = .owned := by
  cases h : c.ownership <;> simp [lack?, h]

theorem lack?_eq_uninit_iff : c.lack? = some .uninit ↔ c.ownership = .uninit := by
  cases h : c.ownership <;> simp [lack?, h]

theorem lack?_eq_moved_iff {q : Option Point} :
    c.lack? = some (.moved q) ↔ c.ownership = .moved ∧ c.movedAt = q := by
  cases h : c.ownership <;> simp [lack?, h]

theorem lack?_encumber (kind : BorrowKind) (id : Int) : (c.encumber kind id).lack? = c.lack? := by
  unfold encumber
  split
  · rfl
  · split <;> rfl

end Cell

namespace Store

variable {s t : Store} {x y : Place} {p : Point}

/-- Why `y` itself **lacks** a value: it has none yet, or it was moved out. -/
def lack? (s : Store) (y : Place) : Option Lack :=
  (s.cells.get? y).bind Cell.lack?

/-- Places that are the same lack the same. -/
theorem lack?_congr (h : x.same y = true) : s.lack? x = s.lack? y := by
  rw [lack?, lack?, Place.Map.get?_congr _ h]

theorem lack?_eq_uninit_iff : s.lack? y = some .uninit ↔ s.ownership? y = some .uninit := by
  rw [lack?, ownership?, Option.bind_eq_some_iff, Option.map_eq_some_iff]
  simp only [Cell.lack?_eq_uninit_iff]

/-- A variable waits for its first value when its own cell says so. -/
theorem awaits_iff_lack? {n : String} : s.Awaits n ↔ s.lack? { base := n } = some .uninit :=
  lack?_eq_uninit_iff.symm

/-- A place is not lacking by itself when its cell says nothing about its value. -/
theorem lack?_eq_none_of_get? (h : s.cells.get? y = none) : s.lack? y = none := by
  rw [lack?, h]
  rfl

/-! ### One equation for every change -/

/-- A cell speaks for the places that are the same as its own. -/
theorem lack?_put (cell : Cell) :
    lack? { s with cells := s.cells.put x cell } y =
      if x.same y then cell.lack? else s.lack? y := by
  rw [lack?]
  by_cases h : x.same y = true
  · rw [if_pos h, ← Place.Map.get?_congr _ h, Place.Map.get?_put_self, Option.bind_some]
  · rw [if_neg h, Place.Map.get?_put_of_not_same _ _ (Bool.eq_false_iff.mpr h), lack?]

theorem lack?_own_owned :
    (s.own x .owned).lack? y = if x.same y then none else s.lack? y :=
  lack?_put _

/-- A place that is emptied lacks its value from then on. -/
theorem lack?_drain :
    (s.drain x p).lack? y = if x.same y then some (.moved (some p)) else s.lack? y :=
  lack?_put _

/-- Putting a cell that says the same changes nothing. -/
theorem lack?_put_of_eq {cell : Cell} (h : cell.lack? = (s.cell x).lack?) :
    lack? { s with cells := s.cells.put x cell } y = s.lack? y := by
  rw [lack?_put]
  split
  next hxy =>
    rw [← lack?_congr hxy, h, lack?, Store.cell]
    cases s.cells.get? x <;> rfl
  next => rfl

theorem lack?_encumber (kind : BorrowKind) (id : Int) :
    (s.encumber x kind id).lack? y = s.lack? y := by
  unfold encumber
  split
  · exact lack?_put_of_eq (Cell.lack?_encumber kind id)
  · rfl

/-- Leaving the entries of some places out. -/
theorem lack?_keepKeys {keep : Place → Bool} {types : List (String × Ty)} {scopes : Scopes}
    (hkeep : ∀ y z, y.same z = true → keep y = keep z) :
    lack? { cells := s.cells.keepKeys keep, types, scopes } y =
      if keep y then s.lack? y else none := by
  split
  next hy =>
    rw [lack?, Place.Map.get?_keepKeys fun z hz => by rw [hkeep z y hz, hy], lack?]
  next hy =>
    refine lack?_eq_none_of_get? ?_
    rw [Place.Map.get?_eq_none_iff, Bool.eq_false_iff]
    intro hin
    obtain ⟨e, he, hsame⟩ := Place.Map.contains_iff.mp hin
    rw [← hkeep e.1 y hsame] at hy
    exact hy (Place.Map.mem_keepKeys.mp he).2

/-- A cell that is struck has nothing to say about the value. -/
theorem lack?_discharge (id : Int) : (s.discharge x id).lack? y = s.lack? y := by
  simp only [discharge]
  split
  · rfl
  next cell hcell =>
    split
    next hidle =>
      rw [Place.Map.erase, lack?_keepKeys fun y z hyz => by rw [Place.same_congr_left hyz]]
      split
      next => rfl
      next hsame =>
        rw [Bool.not_eq_true, Bool.not_eq_false'] at hsame
        rw [lack?_congr hsame, lack?, hcell, Option.bind_some, eq_comm, Cell.lack?_eq_none_iff]
        simp only [Cell.isIdle, Cell.discharge, Bool.and_eq_true] at hidle
        exact of_decide_eq_true hidle.2.1.1
    next =>
      refine lack?_put_of_eq ?_
      rw [Store.cell, hcell]
      rfl

/-- Nothing is lacking in storage that has ended. -/
theorem lack?_endStorage (roots : List String) :
    (s.endStorage roots).lack? y = if y.base ∈ roots then none else s.lack? y := by
  rw [endStorage, lack?_keepKeys fun y z hyz => by rw [Place.base_eq_of_same hyz]]
  by_cases hy : y.base ∈ roots <;> simp [hy]

/-- A new value supplies all parts of the place written. -/
theorem lack?_restore :
    (s.restore x).lack? y = if x.isPrefixOf y then none else s.lack? y := by
  split
  next hunder =>
    cases hget : (s.restore x).cells.get? y with
    | none => exact lack?_eq_none_of_get? hget
    | some cell =>
      rw [lack?, hget, Option.bind_some, Cell.lack?_eq_none_iff]
      exact ownership?_restore_of_under hunder (by rw [ownership?, hget, Option.map_some])
  next hunder => rw [lack?, lack?, get?_restore (Bool.eq_false_iff.mpr hunder)]

/-- A variable lacks its value when it is declared without one. -/
theorem lack?_declare {ty : Ty} {init : Bool} (h : s.declare x ty init = .ok t) :
    t.lack? y = if x.same y then (if init then none else some .uninit) else s.lack? y := by
  obtain ⟨-, -, rfl⟩ := declare_eq_ok_iff.mp h
  refine (lack?_put (s := s) _).trans ?_
  cases init <;> rfl

/-- Loans are closed without any effect on values. -/
theorem lack?_close (b : Books) (loans : List Loan) :
    (b.close loans).store.lack? y = b.store.lack? y :=
  Books.close_induction b loans (fun t => t.lack? y = b.store.lack? y) rfl fun _ _ ht => by
    rw [lack?_discharge, ht]

/-! ### Every place has one cell -/

theorem distinct_own (h : s.cells.Distinct) (o : Ownership) : (s.own x o).cells.Distinct :=
  h.put _ _

theorem distinct_drain (h : s.cells.Distinct) (p : Point) : (s.drain x p).cells.Distinct :=
  h.put _ _

theorem distinct_declare {ty : Ty} {init : Bool} (h : s.cells.Distinct)
    (ht : s.declare x ty init = .ok t) : t.cells.Distinct := by
  obtain ⟨-, -, rfl⟩ := declare_eq_ok_iff.mp ht
  exact h.put _ _

theorem distinct_encumber (h : s.cells.Distinct) (kind : BorrowKind) (id : Int) :
    (s.encumber x kind id).cells.Distinct := by
  unfold encumber
  split
  · exact h.put _ _
  · exact h

/-- A cell is changed or dropped, so keys stay distinct. -/
theorem distinct_discharge (h : s.cells.Distinct) (id : Int) :
    (s.discharge x id).cells.Distinct := by
  simp only [discharge]
  split
  · exact h
  · split
    · exact h.keepKeys _
    · exact h.put _ _

/-- An entry keeps its key. -/
theorem key_of_renew {d e : Place × Cell} (h : renew x d = some e) : e.1 = d.1 := by
  cases hpre : x.isPrefixOf d.1 with
  | true => exact (renew_of_under hpre h).1
  | false =>
    rw [renew_of_not_under hpre, Option.some.injEq] at h
    rw [h]

/-- Renewing keeps the key of each cell, or drops the cell. -/
theorem distinct_renewed (h : s.cells.Distinct) :
    Place.Map.Distinct { toList := s.cells.toList.filterMap (renew x) } := by
  refine List.pairwise_filterMap.mpr (h.imp fun {d e} hne => ?_)
  intro d' hd e' he
  rwa [key_of_renew hd, key_of_renew he]

theorem distinct_restore (h : s.cells.Distinct) : (s.restore x).cells.Distinct := by
  rw [restore_eq]
  exact (distinct_renewed h).put _ _

/-! ### What a query finds -/

/-- Why `y`, which contains `x`, keeps it from being used: it waits, or it was moved out. -/
theorem cases_of_lackingWithin? {v : Violation} (h : s.lackingWithin? x y = some v) :
    (v = .uninit x ∧ s.lack? y = some .uninit) ∨
      ∃ q, v = .movedOut x q y ∧ s.lack? y = some (.moved q) := by
  unfold lackingWithin? at h
  rw [lack?]
  split at h
  next q _ _ hget =>
    rw [hget]
    exact .inr ⟨q, (Option.some.inj h).symm, rfl⟩
  next hget =>
    rw [hget]
    exact .inl ⟨(Option.some.inj h).symm, rfl⟩
  next => cases h

theorem lackingWithin?_eq_none_iff : s.lackingWithin? x y = none ↔ s.lack? y = none := by
  rw [lackingWithin?, lack?]
  cases s.cells.get? y with
  | none => exact iff_of_true rfl rfl
  | some cell =>
    obtain ⟨o, movedAt, shared, exclusive⟩ := cell
    cases o <;> simp [Cell.lack?]

theorem unwritableWithin?_eq_none_iff : s.unwritableWithin? x y = none ↔ s.lack? y = none := by
  rw [unwritableWithin?, lack?]
  cases s.cells.get? y with
  | none => exact iff_of_true rfl rfl
  | some cell =>
    obtain ⟨o, movedAt, shared, exclusive⟩ := cell
    cases o <;> simp [Cell.lack?]

/-- The search for parts that were moved out finds one when there is one. -/
theorem movedUnder?_cases (hd : s.cells.Distinct) {e : Place × Cell}
    (h : s.movedUnder? x = some e) :
    s.lack? e.1 = some (.moved e.2.movedAt) ∧ x.isPrefixOf e.1 = true ∧ e.1.same x = false := by
  have htest := List.find?_some h
  simp only [Cell.isMoved, Bool.and_eq_true, decide_eq_true_eq, Bool.not_eq_true'] at htest
  refine ⟨?_, htest.2, htest.1.2⟩
  rw [lack?, hd.get?_of_mem (List.mem_of_find?_eq_some h) (Place.same_refl _), Option.bind_some]
  exact Cell.lack?_eq_moved_iff.mpr ⟨htest.1.1, rfl⟩

/-- What the search finds was moved out, so it says why `x` cannot be used. -/
theorem lackingUnder?_eq_none_iff :
    s.lackingUnder? x = none ↔ s.movedUnder? x.container = none :=
  Option.map_eq_none_iff

/-- A part that was moved out is found, or another one is. -/
theorem movedUnder?_ne_none {q : Option Point} (hy : s.lack? y = some (.moved q))
    (hunder : x.isPrefixOf y = true) (hne : y.same x = false) : s.movedUnder? x ≠ none := by
  intro hnone
  obtain ⟨cell, hget, hcell⟩ := Option.bind_eq_some_iff.mp hy
  obtain ⟨e, he, hsame, rfl⟩ := Place.Map.exists_mem_of_get? hget
  refine List.find?_eq_none.mp hnone e he ?_
  rw [Place.isPrefixOf_congr hsame, hunder, Place.same_congr_left hsame, hne, Cell.isMoved,
    (Cell.lack?_eq_moved_iff.mp hcell).1]
  rfl

/-- **Why a place cannot be used**: what contains it waits for its first value, or something it
reaches was moved out. -/
theorem cases_of_lacking? (hd : s.cells.Distinct) {v : Violation} (h : s.lacking? x = some v) :
    (v = .uninit x ∧ ∃ y, y.isPrefixOf x = true ∧ s.lack? y = some .uninit) ∨
      ∃ y q, v = .movedOut x q y ∧ x.reaches y = true ∧ s.lack? y = some (.moved q) := by
  unfold lacking? at h
  split at h
  next v' hfind =>
    obtain rfl := Option.some.inj h
    obtain ⟨y, hy, hwithin⟩ := List.exists_of_findSome?_eq_some hfind
    have hcontains := Place.isPrefixOf_of_mem_trail hy
    rcases cases_of_lackingWithin? hwithin with ⟨hv, hlack⟩ | ⟨q, hv, hlack⟩
    · exact .inl ⟨hv, y, hcontains, hlack⟩
    · exact .inr ⟨y, q, hv, by rw [Place.reaches, hcontains, Bool.true_or], hlack⟩
  next =>
    obtain ⟨e, hfind, rfl⟩ := Option.map_eq_some_iff.mp h
    obtain ⟨hlack, hunder, hne⟩ := movedUnder?_cases hd hfind
    refine .inr ⟨e.1, e.2.movedAt, rfl, ?_, hlack⟩
    rw [Place.reaches, hunder, hne, Bool.not_false, Bool.and_true, Bool.or_true]

/-- What can be used lies in no place without a value, and reaches none that was moved out. -/
theorem lack?_of_lacking? (h : s.lacking? x = none) :
    (∀ y, y.isPrefixOf x = true → s.lack? y = none) ∧
      ∀ y q, x.reaches y = true → s.lack? y ≠ some (.moved q) := by
  unfold lacking? at h
  split at h
  · cases h
  next hfind =>
    have hwithin : ∀ y, y.isPrefixOf x = true → s.lack? y = none := by
      intro y hy
      obtain ⟨z, hz, hsame⟩ := Place.exists_mem_trail hy
      rw [← lack?_congr hsame]
      exact lackingWithin?_eq_none_iff.mp (List.findSome?_eq_none_iff.mp hfind z hz)
    refine ⟨hwithin, fun y q hreach hlack => ?_⟩
    rw [Place.reaches, Bool.or_eq_true, Bool.and_eq_true, Bool.not_eq_true'] at hreach
    rcases hreach with hy | ⟨hunder, hne⟩
    · rw [hwithin y hy] at hlack
      cases hlack
    · exact absurd (lackingUnder?_eq_none_iff.mp h) (movedUnder?_ne_none hlack hunder hne)

/-- **A place can be used** when nothing that contains it lacks a value and nothing it reaches was
moved out. -/
theorem lacking?_eq_none_iff (hd : s.cells.Distinct) :
    s.lacking? x = none ↔
      (∀ y, y.isPrefixOf x = true → s.lack? y ≠ some .uninit) ∧
        ∀ y q, x.reaches y = true → s.lack? y ≠ some (.moved q) := by
  refine ⟨fun h => ?_, fun ⟨hwait, hmoved⟩ => ?_⟩
  · obtain ⟨hwithin, hmoved⟩ := lack?_of_lacking? h
    refine ⟨fun y hy hlack => ?_, hmoved⟩
    rw [hwithin y hy] at hlack
    cases hlack
  · cases hlack : s.lacking? x with
    | none => rfl
    | some v =>
      rcases cases_of_lacking? hd hlack with ⟨-, y, hy, hy'⟩ | ⟨y, q, -, hy, hy'⟩
      · exact absurd hy' (hwait y hy)
      · exact absurd hy' (hmoved y q hy)

/-- What a query shows of a place that cannot be used. -/
def shown : Violation → Status
  | .uninit _ => .uninit
  | _ => .moved

/-- The cell of a place that has a value says so. -/
theorem ownership_cell_of_lack? (h : s.lack? x = none) : (s.cell x).ownership = .owned := by
  rw [lack?] at h
  rw [Store.cell]
  cases hget : s.cells.get? x with
  | none => rfl
  | some cell =>
    rw [hget, Option.bind_some] at h
    exact Cell.lack?_eq_none_iff.mp h

/-- The cell of a place that has a value shows loans at most. -/
theorem status_cell_of_lack? (h : s.lack? x = none) :
    (s.cell x).status ≠ .uninit ∧ (s.cell x).status ≠ .moved := by
  unfold Cell.status
  rw [ownership_cell_of_lack? h]
  dsimp only
  split
  · simp
  · split <;> simp

/-- A search that shows what another one finds finds what the other one does. -/
theorem findSome?_shown {g : Place → Option Status} {l : List Place}
    (h : ∀ y, g y = (s.lackingWithin? x y).map shown) :
    l.findSome? g = (l.findSome? (s.lackingWithin? x)).map shown := by
  rw [List.map_findSome?]
  congr 1
  funext y
  exact h y

/-- **The status of a place** shows why it cannot be used, and otherwise what its cell says. -/
theorem status_eq : s.status x = (s.lacking? x).elim (s.cell x).status shown := by
  rw [status, lacking?, findSome?_shown (s := s) (x := x)]
  · cases x.trail.findSome? (s.lackingWithin? x) with
    | some v => rfl
    | none =>
      cases hunder : s.lackingUnder? x with
      | none =>
        rw [lackingUnder?_eq_none_iff] at hunder
        simp only [Option.map_none, hunder, Option.isSome_none, Bool.false_eq_true, if_false]
        rw [Store.cell, Option.elim_none]
        cases s.cells.get? x <;> rfl
      | some v =>
        obtain ⟨e, hfind, rfl⟩ := Option.map_eq_some_iff.mp hunder
        simp only [Option.map_none, hfind, Option.isSome_some, if_true, Option.elim_some, shown]
  · intro y
    rw [lackingWithin?]
    cases s.cells.get? y with
    | none => rfl
    | some cell =>
      obtain ⟨o, movedAt, shared, exclusive⟩ := cell
      cases o <;> rfl

/-- A whole variable is shown as waiting when it waits. -/
theorem status_eq_uninit_iff (h : x.isRoot = true) : s.status x = .uninit ↔ s.Awaits x.base := by
  rw [Place.eq_of_isRoot h, awaits_iff_lack?, status_eq, lacking?]
  -- nothing contains the variable but itself
  have htrail : Place.trail { base := x.base } = [{ base := x.base }] := rfl
  rw [htrail, List.findSome?_singleton]
  cases hwithin : s.lackingWithin? { base := x.base } { base := x.base } with
  | some v =>
    rcases cases_of_lackingWithin? hwithin with ⟨rfl, hlack⟩ | ⟨q, rfl, hlack⟩ <;>
      simp [hlack, shown]
  | none =>
    have hlack := lackingWithin?_eq_none_iff.mp hwithin
    refine iff_of_false ?_ (by simp [hlack])
    cases hunder : s.lackingUnder? { base := x.base } with
    | none => exact (status_cell_of_lack? hlack).1
    | some v =>
      obtain ⟨e, -, rfl⟩ := Option.map_eq_some_iff.mp hunder
      simp [shown]

end Store

end BorrowCheck
