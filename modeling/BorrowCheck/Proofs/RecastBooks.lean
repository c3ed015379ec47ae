import BorrowCheck.Proofs.Alike
import BorrowCheck.Proofs.Lighter
import BorrowCheck.Proofs.Recast

/-!
# Stores and ledgers of a recast function

What a store or a ledger answers about a place is answered in other words about the place in other
words, and what is done to the one is done to the other, as long as the variables that they know are
around (`BorrowCheck.Recast.Houses`, `BorrowCheck.Recast.Lists`). A check that fails does so for the
same reason in other words (`BorrowCheck.Recast.fault`).
-/

namespace BorrowCheck

namespace Recast

variable {ρ : Recast}

/-! ### Violations -/

/-- The flaw in other words. -/
def flaw (ρ : Recast) : Flaw → Flaw
  | .pointOrder p q => .pointOrder (ρ.point p) (ρ.point q)
  | .afterReturn p => .afterReturn (ρ.point p)
  | .incomplete gap => .incomplete gap
  | .notVariable x => .notVariable (ρ.place x)
  | .redeclared x => .redeclared (ρ.place x)
  | .unmatchedExit => .unmatchedExit
  | .undeclared x => .undeclared (ρ.place x)
  | .notUninit x => .notUninit (x.map ρ.place)
  | .derefOfValue x => .derefOfValue (ρ.place x)
  | .writeThroughValue x => .writeThroughValue (ρ.place x)

/-- The violation in other words. -/
def violation (ρ : Recast) : Violation → Violation
  | .movedOut x p y => .movedOut (ρ.place x) (p.map ρ.point) (ρ.place y)
  | .uninit x => .uninit (ρ.place x)
  | .partOfUninit x => .partOfUninit (ρ.place x)
  | .lentOut x l => .lentOut (ρ.place x) (ρ.lien l)
  | .reborrowed x via l => .reborrowed (ρ.place x) (ρ.place via) (ρ.lien l)
  | .writeWhileLent x l => .writeWhileLent (ρ.place x) (ρ.lien l)
  | .writeThroughShared x ref l =>
    .writeThroughShared (ρ.place x) (ρ.place ref) (l.map ρ.lien)
  | .moveWhileLent x l => .moveWhileLent (ρ.place x) (ρ.lien l)
  | .moveThroughReference x => .moveThroughReference (ρ.place x)
  | .conflict x kind l => .conflict (ρ.place x) kind (ρ.lien l)
  | .returnsLocal x l => .returnsLocal (ρ.place x) (ρ.lien l)
  | .outlived x l => .outlived (ρ.place x) (ρ.lien l)
  | .flaw f => .flaw (ρ.flaw f)

/-- The fault in other words. -/
def fault (ρ : Recast) : Fault → Fault
  | .violation v => .violation (ρ.violation v)
  | .unrecorded borrower source => .unrecorded (borrower.map ρ.place) (source.map ρ.place)

section Violations

variable (v : Violation)

/-- The rule that is broken does not depend on the words. -/
theorem rule_violation : (ρ.violation v).rule = v.rule := by
  cases v <;> rfl

theorem place_violation : (ρ.violation v).place = v.place.map ρ.place := by
  cases v with
  | flaw f => cases f <;> rfl
  | _ => rfl

theorem lien_violation : (ρ.violation v).lien = v.lien.map ρ.lien := by
  cases v <;> rfl

theorem movePoint_violation : (ρ.violation v).movePoint = v.movePoint.map ρ.point := by
  cases v <;> rfl

theorem movedPlace_violation : (ρ.violation v).movedPlace = v.movedPlace.map ρ.place := by
  cases v <;> rfl

end Violations

/-- The second check stops for the same reason as the first, in other words. -/
def Faults (ρ : Recast) (e e' : Fault) : Prop :=
  e' = ρ.fault e

/-- A check refuses in other words what it refused before. -/
theorem refuse_violation (v : Option Violation) :
    Parallel ρ.Faults (fun _ _ => True) (refuse v) (refuse (v.map ρ.violation)) := by
  cases v with
  | none => trivial
  | some v => exact rfl

/-- The same where the violation is made from something that was found. -/
theorem refuse_map {α : Type} {g : α → α} (o : Option α) {v v' : α → Violation}
    (hv : ∀ a, v' (g a) = ρ.violation (v a)) :
    Parallel ρ.Faults (fun _ _ => True) (refuse (o.map v)) (refuse ((o.map g).map v')) := by
  cases o with
  | none => trivial
  | some a => exact congrArg Fault.violation (hv a)

/-- The first one found is the same in other words. -/
theorem refuse_find {α : Type} {g : α → α} {l : List α} {p p' : α → Bool} {v v' : α → Violation}
    (hp : ∀ a ∈ l, p' (g a) = p a) (hv : ∀ a, v' (g a) = ρ.violation (v a)) :
    Parallel ρ.Faults (fun _ _ => True) (refuse ((l.find? p).map v))
      (refuse (((l.map g).find? p').map v')) := by
  rw [find?_map_of_mem hp]
  exact refuse_map _ hv

theorem refuse_flaw {α β : Type} {R : α → β → Prop} (f : Flaw) :
    Parallel ρ.Faults R (refuseFlaw f) (refuseFlaw (ρ.flaw f)) :=
  rfl

/-! ### Stores -/

/-- The cell in other words. -/
def cell (ρ : Recast) (c : Cell) : Cell :=
  { c with movedAt := c.movedAt.map ρ.point }

/-- The store in other words. -/
def store (ρ : Recast) (s : Store) : Store :=
  { cells := ρ.table ρ.cell s.cells
    types := s.types.map fun t => (ρ.name t.1, t.2)
    scopes := ρ.scopes s.scopes }

/-- The variables that a store knows are around. -/
structure Houses (ρ : Recast) (s : Store) : Prop where
  cells : ρ.Covers s.cells
  types : ∀ t ∈ s.types, ρ.around t.1
  scopes : ∀ n ∈ s.scopes.names, ρ.around n

theorem isMoved_cell (c : Cell) : (ρ.cell c).isMoved = c.isMoved :=
  rfl

theorem isIdle_cell (c : Cell) : (ρ.cell c).isIdle = c.isIdle :=
  rfl

/-- A loan is noted in a cell by its number, which stays. -/
theorem cell_encumber (c : Cell) (kind : BorrowKind) (id : Int) :
    ρ.cell (c.encumber kind id) = (ρ.cell c).encumber kind id := by
  cases kind with
  | exclusive => rfl
  | shared => exact apply_ite ρ.cell _ _ _

/-- The type of a variable that is around is found under its other name. -/
theorem lookup_types {types : List (String × Ty)} (h : ∀ t ∈ types, ρ.around t.1) {n : String}
    (hn : ρ.around n) :
    (types.map fun t => (ρ.name t.1, t.2)).lookup (ρ.name n) = types.lookup n := by
  induction types with
  | nil => rfl
  | cons t types ih =>
    rw [List.forall_mem_cons] at h
    have hbeq : (ρ.name n == ρ.name t.1) = (n == t.1) := by
      rw [Bool.eq_iff_iff, beq_iff_eq, beq_iff_eq, name_eq_iff hn h.1]
    rw [List.map_cons, List.lookup_cons, List.lookup_cons, hbeq, ih h.2]

section Stores

variable {s : Store} {x : Place} {p : Point}

section Questions

variable (hs : ρ.Houses s) (hx : ρ.around x.base)
include hs hx

/-- A cell is looked up in other words. -/
theorem get?_cells : (ρ.store s).cells.get? (ρ.place x) = (s.cells.get? x).map ρ.cell :=
  get?_table hs.cells hx

/-- Whether a variable is declared, the store tells as before. -/
theorem declares_store : (ρ.store s).declares (ρ.place x) = s.declares x :=
  congrArg Option.isSome (lookup_types hs.types hx)

theorem isLocal_store : (ρ.store s).isLocal (ρ.place x) = s.isLocal x := by
  rw [Store.isLocal, Store.isLocal, throughRef_place, declares_store hs hx]

/-- A place has the type that it had. -/
theorem ty?_store (policy : Policy) : (ρ.store s).ty? policy (ρ.place x) = s.ty? policy x := by
  rw [Store.ty?, Store.ty?, store, base_place, lookup_types hs.types hx]
  simp only [place, Store.tyAlong_map ρ.faithful]

theorem copies_store (policy : Policy) :
    (ρ.store s).copies policy (ρ.place x) = s.copies policy x := by
  rw [Store.copies, Store.copies, ty?_store hs hx]

theorem isReference_store (policy : Policy) :
    (ρ.store s).isReference policy (ρ.place x) = s.isReference policy x := by
  rw [Store.isReference, Store.isReference, ty?_store hs hx]

/-- The cell of a place, which is idle where there is none, is the same up to the point of a
move. -/
theorem cell_store : (ρ.store s).cell (ρ.place x) = ρ.cell (s.cell x) := by
  rw [Store.cell, Store.cell, get?_cells hs hx]
  cases s.cells.get? x <;> rfl

/-- The first part that was moved out is found again. -/
theorem movedUnder?_store :
    (ρ.store s).movedUnder? (ρ.place x) =
      (s.movedUnder? x).map fun e => (ρ.place e.1, ρ.cell e.2) := by
  refine find?_map_of_mem fun e he => ?_
  simp only [isMoved_cell, same_place (hs.cells e he) hx, isPrefixOf_place hx (hs.cells e he)]

/-- What a place lacks because of a part of it. -/
theorem lackingUnder?_store :
    (ρ.store s).lackingUnder? (ρ.place x) = (s.lackingUnder? x).map ρ.violation := by
  have hmoved := movedUnder?_store (x := x.container) hs hx
  unfold Store.lackingUnder?
  rw [container_place, hmoved]
  cases s.movedUnder? x.container <;> rfl

end Questions

/-- What a place lacks because of a place that it lies in. -/
theorem lackingWithin?_store {y : Place} (hs : ρ.Houses s) (hy : ρ.around y.base) (x : Place) :
    (ρ.store s).lackingWithin? (ρ.place x) (ρ.place y) =
      (s.lackingWithin? x y).map ρ.violation := by
  unfold Store.lackingWithin?
  rw [get?_cells hs hy]
  rcases s.cells.get? y with _ | ⟨o, _, _, _⟩
  · rfl
  · cases o <;> rfl

/-- Why a part cannot be written because of a place that it lies in. -/
theorem unwritableWithin?_store {y : Place} (hs : ρ.Houses s) (hy : ρ.around y.base) (x : Place) :
    (ρ.store s).unwritableWithin? (ρ.place x) (ρ.place y) =
      (s.unwritableWithin? x y).map ρ.violation := by
  unfold Store.unwritableWithin?
  rw [get?_cells hs hy]
  rcases s.cells.get? y with _ | ⟨o, _, _, _⟩
  · rfl
  · cases o <;> rfl

/-- The places on the way to a place lie in its variable, so they are around when it is. -/
theorem base_of_mem_trail {y : Place} (h : y ∈ x.trail) : y.base = x.base :=
  (Place.isPrefixOf_iff.mp (Place.isPrefixOf_of_mem_trail h)).1

theorem base_of_mem_enclosing {y : Place} (h : y ∈ x.enclosing) : y.base = x.base :=
  (Place.isPrefixOf_iff.mp (Place.isPrefixOf_of_mem_enclosing h).1).1

section Checks

variable (hs : ρ.Houses s) (hx : ρ.around x.base)
include hs hx

/-- Why a place cannot be used, the store says in other words. -/
theorem lacking?_store :
    (ρ.store s).lacking? (ρ.place x) = (s.lacking? x).map ρ.violation := by
  have hwithin : (ρ.place x).trail.findSome? ((ρ.store s).lackingWithin? (ρ.place x)) =
      (x.trail.findSome? (s.lackingWithin? x)).map ρ.violation := by
    rw [trail_place, List.findSome?_map, List.map_findSome?]
    exact findSome?_congr fun y hy => lackingWithin?_store hs (base_of_mem_trail hy ▸ hx) x
  unfold Store.lacking?
  rw [hwithin, lackingUnder?_store hs hx]
  cases x.trail.findSome? (s.lackingWithin? x) <;> rfl

/-- Whether a variable waits for its first value, the store tells as before. -/
theorem status_store (hroot : x.isRoot = true) :
    (ρ.store s).status (ρ.place x) = .uninit ↔ s.status x = .uninit := by
  rw [Store.status_eq_uninit_iff hroot, Store.status_eq_uninit_iff ((isRoot_place x).trans hroot),
    Store.Awaits, Store.Awaits, Store.ownership?, Store.ownership?]
  have hget := get?_cells (x := { base := x.base }) hs hx
  rw [show ρ.place { base := x.base } = { base := (ρ.place x).base } from rfl] at hget
  rw [hget, Option.map_map]
  rfl

/-- The check that a variable is in scope goes in parallel. -/
theorem ensureInScope_store :
    Parallel ρ.Faults (fun _ _ => True) (s.ensureInScope x)
      ((ρ.store s).ensureInScope (ρ.place x)) := by
  rw [Store.ensureInScope, Store.ensureInScope, declares_store hs hx]
  split
  · trivial
  · exact refuse_flaw _

theorem ensureValue_store :
    Parallel ρ.Faults (fun _ _ => True) (s.ensureValue x)
      ((ρ.store s).ensureValue (ρ.place x)) := by
  rw [Store.ensureValue, Store.ensureValue, lacking?_store hs hx]
  exact refuse_violation _

/-- A read goes in parallel, liens in other words. -/
theorem read_store (liens : List Lien) :
    Parallel ρ.Faults (fun _ _ => True) (s.read x liens)
      ((ρ.store s).read (ρ.place x) (liens.map ρ.lien)) :=
  (ensureValue_store hs hx).bind fun _ _ _ _ _ =>
    refuse_find (fun _ _ => rfl) fun _ => rfl

end Checks

/-! #### Changes -/

/-- The second store is the first one in other words, and what it knows is around. -/
structure Keeps (ρ : Recast) (s s' : Store) : Prop where
  eq : s' = ρ.store s
  houses : ρ.Houses s

/-- A change of the cells alone. -/
theorem Keeps.of_cells {cells' : Place.Map Cell} (hs : ρ.Houses s) (cells : Place.Map Cell)
    (heq : cells' = ρ.table ρ.cell cells) (hcells : ρ.Covers cells) :
    ρ.Keeps { s with cells } { ρ.store s with cells := cells' } :=
  ⟨by rw [heq]; rfl, hcells, hs.types, hs.scopes⟩

section Changes

variable (hs : ρ.Houses s) (hx : ρ.around x.base)
include hs hx

/-- Giving a place a value goes along with the change of words. -/
theorem keeps_own (o : Ownership) :
    ρ.Keeps (s.own x o) ((ρ.store s).own (ρ.place x) o) := by
  refine .of_cells hs _ ?_ (hs.cells.put hx _)
  rw [table_put hs.cells hx, cell_store hs hx]
  rfl

/-- So does noting a move, at the other point. -/
theorem keeps_drain (p : Point) :
    ρ.Keeps (s.drain x p) ((ρ.store s).drain (ρ.place x) (ρ.point p)) := by
  refine .of_cells hs _ ?_ (hs.cells.put hx _)
  rw [table_put hs.cells hx, cell_store hs hx]
  rfl

/-- A move out of a place goes in parallel. -/
theorem vacate_store (p : Point) (liens : List Lien) :
    Parallel ρ.Faults ρ.Keeps (s.vacate x p liens)
      ((ρ.store s).vacate (ρ.place x) (ρ.point p) (liens.map ρ.lien)) := by
  refine (ensureValue_store hs hx).bind fun _ _ _ _ _ => ?_
  rw [List.head?_map]
  refine (refuse_map liens.head? ?_).bind fun _ _ _ _ _ => keeps_drain hs hx p
  exact fun _ => rfl

/-- So does the first assignment to a variable. -/
theorem fill_store :
    Parallel ρ.Faults ρ.Keeps (s.fill x) ((ρ.store s).fill (ρ.place x)) := by
  unfold Store.fill
  rw [get?_cells hs hx]
  rcases s.cells.get? x with _ | ⟨o, _, _, _⟩
  · exact refuse_flaw _
  · cases o with
    | uninit => exact keeps_own hs hx .owned
    | owned | moved => exact refuse_flaw _

/-- Giving a place and all its parts a value goes along with the change of words: the cells that are
renewed or dropped are the same, because the keys compare as before. -/
theorem keeps_restore : ρ.Keeps (s.restore x) ((ρ.store s).restore (ρ.place x)) := by
  have hrenew : ∀ e ∈ s.cells.toList, Store.renew (ρ.place x) (ρ.place e.1, ρ.cell e.2) =
      (Store.renew x e).map fun e => (ρ.place e.1, ρ.cell e.2) := by
    intro e he
    have hidle := isIdle_cell (ρ := ρ) { e.2 with ownership := .owned, movedAt := none }
    simp only [Store.renew, isPrefixOf_place hx (hs.cells e he), same_place (hs.cells e he) hx]
    split
    · rw [← hidle, apply_ite (Option.map fun e : Place × Cell => (ρ.place e.1, ρ.cell e.2))]
      rfl
    · rfl
  have hcells : (s.cells.toList.map fun e => (ρ.place e.1, ρ.cell e.2)).filterMap
      (Store.renew (ρ.place x)) =
      (s.cells.toList.filterMap (Store.renew x)).map fun e => (ρ.place e.1, ρ.cell e.2) := by
    rw [List.filterMap_map, List.map_filterMap]
    exact List.filterMap_congr hrenew
  have hkept := Keeps.of_cells hs { toList := s.cells.toList.filterMap (Store.renew x) }
    (congrArg Place.Map.mk hcells) fun e he => by
      obtain ⟨d, hd, hde⟩ := List.mem_filterMap.mp he
      rw [Store.key_of_renew hde]
      exact hs.cells d hd
  rw [Store.restore_eq, Store.restore_eq]
  have hown := keeps_own hkept.houses hx .owned
  rw [← hkept.eq] at hown
  exact hown

/-- A write to a place that has a value goes in parallel. -/
theorem overwrite_store (liens : List Lien) :
    Parallel ρ.Faults ρ.Keeps (s.overwrite x liens)
      ((ρ.store s).overwrite (ρ.place x) (liens.map ρ.lien)) := by
  have hwithin : (ρ.place x).enclosing.findSome? ((ρ.store s).unwritableWithin? (ρ.place x)) =
      (x.enclosing.findSome? (s.unwritableWithin? x)).map ρ.violation := by
    rw [enclosing_place, List.findSome?_map, List.map_findSome?]
    exact findSome?_congr fun y hy => unwritableWithin?_store hs (base_of_mem_enclosing hy ▸ hx) x
  rw [Store.overwrite, Store.overwrite, hwithin, List.head?_map]
  refine (refuse_violation _).bind fun _ _ _ _ _ => ?_
  refine (refuse_map liens.head? ?_).bind fun _ _ _ _ _ => keeps_restore hs hx
  exact fun _ => rfl

/-- So does a declaration; the new variable is around. -/
theorem declare_store (ty : Ty) (init : Bool) :
    Parallel ρ.Faults ρ.Keeps (s.declare x ty init)
      ((ρ.store s).declare (ρ.place x) ty init) := by
  unfold Store.declare
  rw [isRoot_place, declares_store hs hx]
  split
  · exact refuse_flaw _
  · split
    · exact refuse_flaw _
    · refine ⟨?_, hs.cells.put hx _, fun t ht => ?_, fun n hn => ?_⟩
      · simp only [store, table_put hs.cells hx, scopes_declare, List.map_append]
        cases init <;> rfl
      · rcases List.mem_append.mp ht with ht | ht
        · exact hs.types t ht
        · rw [List.mem_singleton.mp ht]
          exact hx
      · rcases Scopes.mem_names_declare.mp hn with hn | rfl
        · exact hs.scopes n hn
        · exact hx

/-- Noting a loan at its target goes along with the change of words. -/
theorem keeps_encumber (kind : BorrowKind) (id : Int) :
    ρ.Keeps (s.encumber x kind id) ((ρ.store s).encumber (ρ.place x) kind id) := by
  unfold Store.encumber
  rw [isLocal_store hs hx]
  split
  · refine .of_cells hs _ ?_ (hs.cells.put hx _)
    rw [table_put hs.cells hx, cell_store hs hx, cell_encumber]
    rfl
  · exact ⟨rfl, hs⟩

/-- So does taking the note away, and with it a cell that has become idle. -/
theorem keeps_discharge (id : Int) :
    ρ.Keeps (s.discharge x id) ((ρ.store s).discharge (ρ.place x) id) := by
  unfold Store.discharge
  rw [get?_cells hs hx]
  cases s.cells.get? x with
  | none => exact ⟨rfl, hs⟩
  | some c =>
    have hcell : (ρ.cell c).discharge id = ρ.cell (c.discharge id) := rfl
    simp only [Option.map_some, hcell, isRoot_place, isIdle_cell]
    split
    · exact .of_cells hs _ (table_erase hs.cells hx).symm (hs.cells.keepKeys _)
    · exact .of_cells hs _ (table_put hs.cells hx _).symm (hs.cells.put hx _)

end Changes

theorem keeps_enter (hs : ρ.Houses s) : ρ.Keeps s.enter (ρ.store s).enter :=
  ⟨rfl, hs.cells, hs.types, hs.scopes⟩

/-- The storage of variables ends under their other names. -/
theorem keeps_endStorage (hs : ρ.Houses s) {roots : List String}
    (hroots : ∀ n ∈ roots, ρ.around n) :
    ρ.Keeps (s.endStorage roots) ((ρ.store s).endStorage (roots.map ρ.name)) := by
  have hcells := table_keepKeys (ρ := ρ) (g := ρ.cell) (fun y => !roots.contains y.base)
    (fun y => !(roots.map ρ.name).contains y.base) fun e he =>
      congrArg (!·) (contains_names hroots (hs.cells e he))
  have htypes := filter_map_of_mem (g := fun t : String × Ty => (ρ.name t.1, t.2))
    (p := fun t => !(roots.map ρ.name).contains t.1) fun t ht =>
      congrArg (!·) (contains_names hroots (hs.types t ht))
  refine ⟨?_, hs.cells.keepKeys _, fun t ht => hs.types t (List.mem_filter.mp ht).1, hs.scopes⟩
  rw [Store.endStorage, Store.endStorage, store, store, htypes, hcells]

end Stores

/-! ### Ledgers -/

/-- The ledger in other words. -/
def ledger (ρ : Recast) (m : Ledger) : Ledger :=
  { m with outstanding := m.outstanding.map ρ.loan }

/-- What a loan lends and what it is stored in are parts of variables that are around. -/
structure Finds (ρ : Recast) (l : Loan) : Prop where
  target : ρ.around l.target.base
  borrower : ∀ y, l.borrower = some y → ρ.around y.base

/-- The outstanding loans are of variables that are around. -/
def Lists (ρ : Recast) (m : Ledger) : Prop :=
  ∀ l ∈ m.outstanding, ρ.Finds l

/-- The loans that are taken at `p` are of variables that are around, and so are the places they
were taken of. -/
def Takes (ρ : Recast) (b : LoanBook) (p : Point) : Prop :=
  ∀ l ∈ b.takenAt p, ρ.Finds l ∧ ρ.around l.via.base

/-- Loans keep their numbers, so a lineage stays as it is. -/
theorem lineageFrom_book (b : LoanBook) (i : Nat) :
    (ρ.book b).lineageFrom i = b.lineageFrom i := by
  have hparent : ∀ j, ((ρ.book b).get? j).bind (·.parent) = (b.get? j).bind (·.parent) := by
    intro j
    rw [show (ρ.book b).get? j = (b.get? j).map ρ.loan from List.getElem?_map]
    cases b.get? j <;> rfl
  fun_induction LoanBook.lineageFrom b i with
  | case1 i hnone =>
    rw [LoanBook.lineageFrom, hparent, hnone]
  | case2 i q hq hlt ih =>
    rw [LoanBook.lineageFrom, hparent, hq]
    simp only [hlt, if_true, ih]
  | case3 i q hq hlt =>
    rw [LoanBook.lineageFrom, hparent, hq]
    simp only [hlt, if_false]

section Ledgers

variable {m : Ledger} {b : LoanBook} {x : Place} {l : Loan}

/-- Whether a loan is held at a place, the ledger tells as before, when the borrower is compared as
before. -/
theorem isHeldAt_ledger {test test' : Place → Bool}
    (h : ∀ y, l.borrower = some y → test' (ρ.place y) = test y) :
    (ρ.ledger m).isHeldAt test' (ρ.loan l) = m.isHeldAt test l := by
  rw [Ledger.isHeldAt, Ledger.isHeldAt,
    show (ρ.loan l).borrower = l.borrower.map ρ.place from rfl]
  cases hy : l.borrower with
  | none => rfl
  | some y => exact congrArg (!m.released.contains l.id && ·) (h y hy)

/-- The reborrows of a loan are the same loans in other words. -/
theorem reborrows_ledger (m : Ledger) (b : LoanBook) (l : Loan) :
    (ρ.ledger m).reborrows (ρ.book b) (ρ.loan l) = (m.reborrows b l).map ρ.loan := by
  refine filter_map_of_mem fun other _ => ?_
  rw [LoanBook.lineage, LoanBook.lineage, lineageFrom_book]
  rfl

/-- So are the loans that are due at a point. -/
theorem dueAt_ledger (m : Ledger) (b : LoanBook) (p : Point) :
    (ρ.ledger m).dueAt (ρ.book b) (ρ.point p) = (m.dueAt b p).map ρ.loan := by
  have htaken : (ρ.book b).takenAt (ρ.point p) = (b.takenAt p).map ρ.loan :=
    filter_map_of_mem fun l _ => decide_eq_decide.mpr point_eq_iff
  rw [Ledger.dueAt, htaken]
  exact filter_map_of_mem fun _ _ => rfl

/-- So are the loans that ended: points are compared as before. -/
theorem expired_ledger (m : Ledger) (p : Point) (inclusive : Bool) :
    (ρ.ledger m).expired (ρ.point p) inclusive = (m.expired p inclusive).map ρ.loan := by
  refine filter_map_of_mem fun l _ => ?_
  show (decide (ρ.point l.last < ρ.point p) || (inclusive && ρ.point l.last = ρ.point p)) = _
  simp only [point_lt_iff, point_eq_iff]

/-- Loans are struck by their numbers. -/
theorem strike_ledger (m : Ledger) (loans : List Loan) :
    (ρ.ledger m).strike (loans.map ρ.loan) = ρ.ledger (m.strike loans) := by
  have hids : (loans.map ρ.loan).map (·.id) = loans.map (·.id) := by
    rw [List.map_map]
    rfl
  have hkept := filter_map_of_mem (g := ρ.loan) (l := m.outstanding)
    (p := fun l => !(loans.map (·.id)).contains l.id)
    (q := fun l => !(loans.map (·.id)).contains l.id) fun _ _ => rfl
  rw [Ledger.strike, hids]
  exact congrArg (fun outstanding => ({ m with outstanding } : Ledger)) hkept

theorem Takes.of_dueAt {p : Point} (h : ρ.Takes b p) (hl : l ∈ m.dueAt b p) :
    ρ.Finds l ∧ ρ.around l.via.base :=
  h l (List.mem_filter.mp hl).1

/-- Two missing places are compared as before, and two places that are there. -/
theorem same_parts {y z : Option Place} (hy : ∀ u, y = some u → ρ.around u.base)
    (hz : ∀ u, z = some u → ρ.around u.base) :
    (y.map ρ.place).map Place.unlabel = (z.map ρ.place).map Place.unlabel ↔
      y.map Place.unlabel = z.map Place.unlabel := by
  cases y with
  | none => cases z <;> simp
  | some y =>
    cases z with
    | none => simp
    | some z =>
      have hsame := same_place (hy y rfl) (hz z rfl)
      rw [Bool.eq_iff_iff, Place.same_iff, Place.same_iff] at hsame
      simpa using hsame

/-- A borrow finds the same loan due. The loans that are taken at this point have to be of variables
that are around, since the others were never compared with `x`. -/
theorem due?_ledger {p : Point} (hb : ρ.Takes b p) (hx : ρ.around x.base)
    {borrower : Option Place} (hy : ∀ y, borrower = some y → ρ.around y.base) (kind : BorrowKind) :
    (ρ.ledger m).due? (ρ.book b) (borrower.map ρ.place) (ρ.place x) kind (ρ.point p) =
      (m.due? b borrower x kind p).map ρ.loan := by
  rw [Ledger.due?, dueAt_ledger]
  refine find?_map_of_mem fun l hl => ?_
  obtain ⟨hfinds, hvia⟩ := hb.of_dueAt hl
  show (decide ((l.borrower.map ρ.place).map Place.unlabel =
    (borrower.map ρ.place).map Place.unlabel) && (ρ.place l.via).same (ρ.place x) && _) = _
  simp only [same_parts hfinds.borrower hy, same_place hvia hx]
  rfl

section Listed

variable (hm : ρ.Lists m)
include hm

/-- The loans in the way of a place are the same in other words. -/
theorem overlapping_ledger (hx : ρ.around x.base) (p : Point) (strict : Bool) :
    (ρ.ledger m).overlapping (ρ.place x) (ρ.point p) strict =
      (m.overlapping x p strict).map ρ.loan := by
  refine filter_map_of_mem fun l hl => ?_
  show ((ρ.place l.target).overlaps (ρ.place x) &&
    (decide (ρ.point p < ρ.point l.last) ||
      (!strict && decide (ρ.point l.last = ρ.point p)))) = _
  simp only [overlaps_place (hm l hl).target hx, point_lt_iff, point_eq_iff]

/-- So are the loans that are held under a place. -/
theorem heldUnder_ledger (hx : ρ.around x.base) :
    (ρ.ledger m).heldUnder (ρ.place x) = (m.heldUnder x).map ρ.loan :=
  filter_map_of_mem fun l hl => isHeldAt_ledger fun y hy =>
    isPrefixOf_place hx ((hm l hl).borrower y hy)

/-- So are those that are held at one, loans that were just closed included. -/
theorem heldAt_ledger (hx : ρ.around x.base) {extra : List Loan}
    (hextra : ∀ l ∈ extra, ρ.Finds l) :
    (ρ.ledger m).heldAt (ρ.place x) (extra.map ρ.loan) = (m.heldAt x extra).map ρ.loan := by
  have happend : (ρ.ledger m).outstanding ++ extra.map ρ.loan =
      (m.outstanding ++ extra).map ρ.loan := List.map_append.symm
  rw [Ledger.heldAt, happend]
  refine filter_map_of_mem fun l hl => isHeldAt_ledger fun y hy => same_place hx ?_
  exact ((List.mem_append.mp hl).elim (hm l) (hextra l)).borrower y hy

/-- A loan is excluded by the same loan in other words. -/
theorem excluding?_ledger (hl : ρ.Finds l) :
    (ρ.ledger m).excluding? (ρ.book b) (ρ.loan l) = (m.excluding? b l).map ρ.loan := by
  rw [Ledger.excluding?, LoanBook.lineage, lineageFrom_book]
  refine find?_map_of_mem fun other hother => ?_
  show (_ && (ρ.place other.target).overlaps (ρ.place l.target) && _) = _
  rw [overlaps_place (hm other hother).target hl.target]
  rfl

/-- The loans that are stored in variables that go out of scope are the same in other words. -/
theorem borrowedIn_ledger {roots : List String} (hroots : ∀ n ∈ roots, ρ.around n) :
    (ρ.ledger m).borrowedIn (roots.map ρ.name) = (m.borrowedIn roots).map ρ.loan := by
  refine filter_map_of_mem fun l hl => ?_
  rw [show (ρ.loan l).borrower = l.borrower.map ρ.place from rfl]
  cases hy : l.borrower with
  | none => rfl
  | some y => exact contains_names hroots ((hm l hl).borrower y hy)

/-- A write to a place ends what the same borrowers held: they lie under it as before, and their
origins are earlier as before. -/
theorem releaseUnder_ledger (hx : ρ.around x.base) (p : Point) :
    (ρ.ledger m).releaseUnder (ρ.place x) (ρ.point p) = ρ.ledger (m.releaseUnder x p) := by
  have hids : ∀ loans : List Loan, (loans.map ρ.loan).map (·.id) = loans.map (·.id) := by
    intro loans
    rw [List.map_map]
    rfl
  refine congrArg (fun ids => ({ ρ.ledger m with released := m.released ++ ids } : Ledger))
    ((congrArg (List.map Loan.id)
      (filter_map_of_mem (l := m.outstanding) (g := ρ.loan) fun l hl => ?_)).trans (hids _))
  rw [show (ρ.loan l).borrower = l.borrower.map ρ.place from rfl]
  cases hy : l.borrower with
  | none => rfl
  | some y =>
    show ((ρ.place x).isPrefixOf (ρ.place y) && decide (ρ.point l.origin < ρ.point p)) = _
    simp only [isPrefixOf_place hx ((hm l hl).borrower y hy), point_lt_iff]

end Listed

theorem Lists.record (hm : ρ.Lists m) (hl : ρ.Finds l) : ρ.Lists (m.record l) := by
  intro other hother
  rcases List.mem_append.mp hother with hother | hother
  · exact hm other hother
  · exact List.mem_singleton.mp hother ▸ hl

theorem record_ledger (m : Ledger) (l : Loan) :
    (ρ.ledger m).record (ρ.loan l) = ρ.ledger (m.record l) := by
  simp [Ledger.record, ledger, loan]

end Ledgers

/-! ### Books -/

/-- The books in other words. -/
def books (ρ : Recast) (s : Books) : Books :=
  { store := ρ.store s.store, ledger := ρ.ledger s.ledger }

/-- The second books are the first ones in other words, and what they know is around. -/
structure Balances (ρ : Recast) (s s' : Books) : Prop where
  eq : s' = ρ.books s
  houses : ρ.Houses s.store
  lists : ρ.Lists s.ledger

section BothBooks

variable {s : Books} {b : LoanBook} {x : Place} {p : Point}

/-- Closing loans goes along with the change of words, in the store one target after the other. -/
theorem balances_close (hs : ρ.Houses s.store) (hm : ρ.Lists s.ledger) {loans : List Loan}
    (hloans : ∀ l ∈ loans, ρ.Finds l) :
    ρ.Balances (s.close loans) ((ρ.books s).close (loans.map ρ.loan)) := by
  have hstore : ∀ (loans : List Loan) (t : Store), ρ.Houses t → (∀ l ∈ loans, ρ.Finds l) →
      ρ.Keeps (loans.foldl (fun t l => t.discharge l.target l.id) t)
        ((loans.map ρ.loan).foldl (fun t l => t.discharge l.target l.id) (ρ.store t)) := by
    intro loans
    induction loans with
    | nil => exact fun t ht _ => ⟨rfl, ht⟩
    | cons l loans ih =>
      intro t ht h
      rw [List.forall_mem_cons] at h
      have hfirst := keeps_discharge ht h.1.target l.id
      rw [List.map_cons, List.foldl_cons, List.foldl_cons]
      have hrest := ih _ hfirst.houses h.2
      rw [← hfirst.eq] at hrest
      exact hrest
  have hkeeps := hstore loans s.store hs hloans
  refine ⟨?_, hkeeps.houses, fun l hl => hm l (List.mem_filter.mp hl).1⟩
  rw [Books.close, Books.close, books, books, ← hkeeps.eq, ← strike_ledger]

/-- **Opening a loan goes in parallel**: the loan that is due and the one that excludes it are the
same in other words. -/
theorem lend_books (hs : ρ.Houses s.store) (hm : ρ.Lists s.ledger) (hb : ρ.Takes b p)
    (hx : ρ.around x.base) {borrower : Option Place}
    (hy : ∀ y, borrower = some y → ρ.around y.base) (kind : BorrowKind) :
    Parallel ρ.Faults (fun r r' => ρ.Balances r.1 r'.1) (s.lend b borrower x kind p)
      ((ρ.books s).lend (ρ.book b) (borrower.map ρ.place) (ρ.place x) kind (ρ.point p)) := by
  have hdue := due?_ledger (m := s.ledger) hb hx hy kind
  unfold Books.lend
  rw [show (ρ.books s).ledger = ρ.ledger s.ledger from rfl, hdue]
  cases hfound : s.ledger.due? b borrower x kind p with
  | none => exact rfl
  | some l =>
    have hfinds := (hb.of_dueAt (List.mem_of_find?_eq_some hfound)).1
    have hexclude := excluding?_ledger (b := b) hm hfinds
    simp only [Option.map_some, hexclude]
    cases s.ledger.excluding? b l with
    | some other => exact rfl
    | none =>
      have hkeeps := keeps_encumber hs hfinds.target l.kind l.id
      refine ⟨?_, hkeeps.houses, hm.record hfinds⟩
      exact congrArg₂ Books.mk hkeeps.eq (record_ledger s.ledger l)

end BothBooks

end Recast

end BorrowCheck
