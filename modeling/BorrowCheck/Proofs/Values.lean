import BorrowCheck.Proofs.Ends
import BorrowCheck.Proofs.Outcome

/-!
# Variables in scope and values that are lacking

Two views of a store, each with what every operation does to it.

* The variables in scope are those of the stack of blocks, each in one block only
  (`BorrowCheck.Store.Scoped`). So leaving a block takes its own variables out of scope and no
  others.
* A place lacks a value when its cell says that it has none yet, or that it was moved out.
  `BorrowCheck.Store.LacksNoMore` compares two stores in this respect. Only a declaration and a
  move take values away; all else keeps or restores them.
-/

namespace BorrowCheck

/-! ### Blocks -/

namespace Scopes

variable {s t : Scopes} {n : String}

/-- The names of all blocks, those of the innermost one first. -/
def names (s : Scopes) : List String :=
  s.current ++ s.outer.flatten

/-- A declaration adds one name to those in scope. -/
@[simp] theorem mem_names_declare {x : String} : n ∈ (s.declare x).names ↔ n ∈ s.names ∨ n = x := by
  simp only [names, declare, List.mem_append, List.mem_singleton]
  tauto

/-- The names of a block and of those around it. -/
theorem names_of_exit? {dying : List String} (h : s.exit? = some (dying, t)) :
    s.names = dying ++ t.names := by
  unfold exit? at h
  split at h
  · cases h
  next block outer houter =>
    simp only [Option.some.injEq, Prod.mk.injEq] at h
    rw [← h.1, ← h.2, names, names, houter, List.flatten_cons]

theorem nodup_names_declare {x : String} (h : s.names.Nodup) (hx : x ∉ s.names) :
    (s.declare x).names.Nodup := by
  have hperm : (s.declare x).names.Perm (x :: s.names) := by
    rw [names, names, declare, List.append_assoc]
    exact List.perm_middle
  rw [hperm.nodup_iff, List.nodup_cons]
  exact ⟨hx, h⟩

end Scopes

namespace Store

variable {s t u : Store} {x y : Place} {p : Point}

/-! ### Variables in scope -/

/-- **The variables in scope** are those of the blocks, each in one block only. -/
structure Scoped (s : Store) : Prop where
  nodup : s.scopes.names.Nodup
  declares_iff : ∀ x : Place, s.declares x = true ↔ x.base ∈ s.scopes.names

/-- A variable is in scope when it has a type. -/
theorem declares_iff_mem : s.declares x = true ↔ x.base ∈ s.types.map Prod.fst := by
  rw [declares, List.lookup_isSome_iff, List.mem_map]
  exact ⟨fun ⟨d, hd, hx⟩ => ⟨d, hd, (beq_iff_eq.mp hx).symm⟩,
    fun ⟨d, hd, hx⟩ => ⟨d, hd, beq_iff_eq.mpr hx.symm⟩⟩

/-- Whether a place is in scope depends on the types of variables alone. -/
theorem declares_of_types (h : t.types = s.types) : t.declares x = s.declares x := by
  rw [declares, declares, h]

/-- A variable is in scope until its storage ends. -/
theorem declares_endStorage {roots : List String} :
    (s.endStorage roots).declares x = true ↔ s.declares x = true ∧ x.base ∉ roots := by
  simp only [declares_iff_mem, endStorage, List.mem_map, List.mem_filter, Bool.not_eq_true',
    List.contains_eq_mem, decide_eq_false_iff_not]
  constructor
  · rintro ⟨d, ⟨hd, hno⟩, hx⟩
    exact ⟨⟨d, hd, hx⟩, hx ▸ hno⟩
  · rintro ⟨⟨d, hd, hx⟩, hno⟩
    exact ⟨d, ⟨hd, hx.symm ▸ hno⟩, hx⟩

theorem scoped_empty : Scoped {} :=
  ⟨List.nodup_nil, by simp [declares, Scopes.names]⟩

/-- What leaves types and blocks alone keeps the variables in scope. -/
theorem Scoped.congr (h : s.Scoped) (htypes : t.types = s.types) (hscopes : t.scopes = s.scopes) :
    t.Scoped := by
  refine ⟨by rw [hscopes]; exact h.nodup, fun x => ?_⟩
  rw [hscopes, declares, htypes]
  exact h.declares_iff x

/-- A variable comes into scope once, as another one of its name would be refused. -/
theorem Scoped.declare {ty : Ty} {init : Bool} (h : s.Scoped) (ht : s.declare x ty init = .ok t) :
    t.Scoped := by
  obtain ⟨-, hnew, rfl⟩ := declare_eq_ok_iff.mp ht
  have hx : x.base ∉ s.scopes.names := fun hx => by
    rw [(h.declares_iff x).mpr hx] at hnew
    cases hnew
  refine ⟨Scopes.nodup_names_declare h.nodup hx, fun y => ?_⟩
  have hy := declares_iff_mem.symm.trans (h.declares_iff y)
  rw [declares_iff_mem, List.map_append, List.mem_append, hy, List.map_singleton,
    List.mem_singleton, Scopes.mem_names_declare]

theorem Scoped.enter (h : s.Scoped) : s.enter.Scoped :=
  ⟨h.nodup, h.declares_iff⟩

/-- What a block declares is storage of the function when the block is left. -/
theorem Scoped.isLocal_of_exit? {scopes : Scopes} {dying : List String} (h : s.Scoped)
    (hexit : s.scopes.exit? = some (dying, scopes)) (hdies : x.base ∈ dying)
    (href : x.throughRef = false) : s.isLocal x = true := by
  have hdecl : s.declares x = true := by
    rw [h.declares_iff, Scopes.names_of_exit? hexit]
    exact List.mem_append_left _ hdies
  rw [isLocal, href, hdecl]
  rfl

/-- Leaving a block ends the storage of its own variables. -/
theorem Scoped.exit {scopes : Scopes} {dying : List String} (h : s.Scoped)
    (hexit : s.scopes.exit? = some (dying, scopes)) (htypes : t.types = s.types)
    (hscopes : t.scopes = scopes) : (t.endStorage dying).Scoped := by
  have hnames := Scopes.names_of_exit? hexit
  have hnodup := h.nodup
  rw [hnames, List.nodup_append] at hnodup
  refine ⟨by rw [endStorage, hscopes]; exact hnodup.2.1, fun y => ?_⟩
  have hy := h.declares_iff y
  rw [hnames, List.mem_append] at hy
  rw [declares_endStorage, declares_of_types htypes, hy, endStorage, hscopes]
  constructor
  · rintro ⟨hmem | hmem, hno⟩
    · exact absurd hmem hno
    · exact hmem
  · intro hmem
    exact ⟨Or.inr hmem, fun hdie => hnodup.2.2 _ hdie _ hmem rfl⟩

/-! ### Types and blocks that stay -/

@[simp] theorem encumber_types (kind : BorrowKind) (id : Int) :
    (s.encumber x kind id).types = s.types := by
  unfold encumber
  split <;> rfl

@[simp] theorem encumber_scopes (kind : BorrowKind) (id : Int) :
    (s.encumber x kind id).scopes = s.scopes := by
  unfold encumber
  split <;> rfl

@[simp] theorem discharge_types (id : Int) : (s.discharge x id).types = s.types := by
  simp only [discharge]
  split
  · rfl
  · split <;> rfl

@[simp] theorem discharge_scopes (id : Int) : (s.discharge x id).scopes = s.scopes := by
  simp only [discharge]
  split
  · rfl
  · split <;> rfl

/-! ### Values that are lacking -/

/-- What the store says about the value of `y`, if it says anything. -/
def ownership? (s : Store) (y : Place) : Option Ownership :=
  (s.cells.get? y).map Cell.ownership

/-- The variable `n` waits for its first value. -/
def Awaits (s : Store) (n : String) : Prop :=
  s.ownership? { base := n } = some .uninit

/-- **`t` lacks no more values than `s`**: whatever has none in `t` has none in `s`. -/
def LacksNoMore (s t : Store) : Prop :=
  ∀ y o, t.ownership? y = some o → o ≠ .owned → s.ownership? y = some o

theorem LacksNoMore.refl (s : Store) : LacksNoMore s s :=
  fun _ _ h _ => h

theorem LacksNoMore.trans (hst : LacksNoMore s t) (htu : LacksNoMore t u) : LacksNoMore s u :=
  fun y o h ho => hst y o (htu y o h ho) ho

theorem LacksNoMore.awaits {n : String} (h : LacksNoMore s t) (ht : t.Awaits n) : s.Awaits n :=
  h _ _ ht (by simp)

/-- Values are recorded in the cells alone. -/
theorem lacksNoMore_of_cells (h : t.cells = s.cells) : LacksNoMore s t := by
  intro y o hy _
  rwa [ownership?, h] at hy

/-- Ownership changes for the places that are the same as the one written. -/
theorem ownership?_own (o : Ownership) :
    (s.own x o).ownership? y = if x.same y then some o else s.ownership? y := by
  rw [ownership?, own]
  by_cases h : x.same y = true
  · rw [if_pos h, ← Place.Map.get?_congr _ h, Place.Map.get?_put_self]
    rfl
  · rw [if_neg h, Place.Map.get?_put_of_not_same _ _ (Bool.eq_false_iff.mpr h)]
    rfl

/-- A place that is emptied is moved out. -/
theorem ownership?_drain (p : Point) :
    (s.drain x p).ownership? y = if x.same y then some .moved else s.ownership? y := by
  rw [ownership?, drain]
  by_cases h : x.same y = true
  · rw [if_pos h, ← Place.Map.get?_congr _ h, Place.Map.get?_put_self]
    rfl
  · rw [if_neg h, Place.Map.get?_put_of_not_same _ _ (Bool.eq_false_iff.mpr h)]
    rfl

/-- Putting a cell with the old ownership changes no ownership. -/
theorem lacksNoMore_put {cell : Cell} (h : cell.ownership = (s.cell x).ownership) :
    LacksNoMore s { s with cells := s.cells.put x cell } := by
  intro y o hy ho
  rw [ownership?] at hy
  by_cases hxy : x.same y = true
  · rw [← Place.Map.get?_congr _ hxy, Place.Map.get?_put_self, Option.map_some,
      Option.some.injEq, h, Store.cell] at hy
    rw [ownership?, ← Place.Map.get?_congr _ hxy]
    cases hget : s.cells.get? x with
    | none =>
      rw [hget] at hy
      exact absurd hy.symm ho
    | some c =>
      rw [hget] at hy
      exact congrArg some hy
  · rwa [Place.Map.get?_put_of_not_same _ _ (Bool.eq_false_iff.mpr hxy)] at hy

theorem lacksNoMore_encumber (kind : BorrowKind) (id : Int) :
    LacksNoMore s (s.encumber x kind id) := by
  unfold encumber
  split
  · refine lacksNoMore_put ?_
    unfold Cell.encumber
    split
    · rfl
    · split <;> rfl
  · exact LacksNoMore.refl s

/-- Leaving entries out takes no value away. -/
theorem lacksNoMore_keepKeys {keep : Place → Bool} {types : List (String × Ty)} {scopes : Scopes}
    (hkeep : ∀ y z, y.same z = true → keep y = keep z) :
    LacksNoMore s { cells := s.cells.keepKeys keep, types, scopes } := by
  intro y o hy _
  have hboth : (fun e : Place × Cell => decide (keep e.1 = true ∧ e.1.same y = true)) =
      fun e => keep y && e.1.same y := by
    funext e
    by_cases he : e.1.same y = true
    · simp [hkeep e.1 y he, he]
    · simp [Bool.eq_false_iff.mpr he]
  rw [ownership?, Place.Map.get?, Place.Map.keepKeys, List.find?_filter, hboth] at hy
  cases hy' : keep y with
  | false =>
    have hnone : (s.cells.toList.find? fun e => keep y && e.1.same y) = none := by simp [hy']
    rw [hnone] at hy
    cases hy
  | true =>
    simp only [hy', Bool.true_and] at hy
    exact hy

/-- Striking out a loan takes no value away, also when the cell is dropped with it. -/
theorem lacksNoMore_discharge (id : Int) : LacksNoMore s (s.discharge x id) := by
  simp only [discharge]
  split
  · exact LacksNoMore.refl s
  next cell hcell =>
    split
    · refine lacksNoMore_keepKeys fun y z hyz => ?_
      rw [Place.same_iff] at hyz
      simp only [Place.same, hyz]
    · refine lacksNoMore_put ?_
      rw [Store.cell, hcell]
      rfl

theorem lacksNoMore_endStorage (roots : List String) : LacksNoMore s (s.endStorage roots) :=
  lacksNoMore_keepKeys fun y z hyz => by rw [Place.base_eq_of_same hyz]

theorem lacksNoMore_own_owned : LacksNoMore s (s.own x .owned) := by
  intro y o hy ho
  rw [ownership?_own] at hy
  split at hy
  · exact absurd (Option.some.inj hy).symm ho
  · exact hy

/-- What becomes of an entry when `x` is given a new value. -/
def renew (x : Place) (e : Place × Cell) : Option (Place × Cell) :=
  if x.isPrefixOf e.1 then
    let cell := { e.2 with ownership := .owned, movedAt := none }
    if !e.1.same x && cell.isIdle then none else some (e.1, cell)
  else
    some e

/-- To give a new value is to renew every cell, and to own the place written. -/
theorem restore_eq (s : Store) (x : Place) :
    s.restore x =
      { s with cells := { toList := s.cells.toList.filterMap (renew x) } }.own x .owned :=
  rfl

theorem renew_of_not_under {e : Place × Cell} (h : x.isPrefixOf e.1 = false) :
    renew x e = some e := by
  simp [renew, h]

/-- An entry under `x` has a value afterwards, if it is still there, and its move is forgotten. -/
theorem renew_of_under {d e : Place × Cell} (h : x.isPrefixOf d.1 = true)
    (he : renew x d = some e) :
    e.1 = d.1 ∧ e.2 = { d.2 with ownership := .owned, movedAt := none } := by
  simp only [renew, h, if_true] at he
  split at he
  · cases he
  · rw [← Option.some.inj he]
    exact ⟨rfl, rfl⟩

/-- A new value for `x` changes nothing about a place that does not lie in `x`. -/
theorem get?_restore (h : x.isPrefixOf y = false) :
    (s.restore x).cells.get? y = s.cells.get? y := by
  have hkey : (fun d : Place × Cell => (renew x d).any fun e => e.1.same y) =
      fun d => d.1.same y := by
    funext d
    cases hpre : x.isPrefixOf d.1 with
    | false => rw [renew_of_not_under hpre, Option.any_some]
    | true =>
      -- an entry under `x` is none for `y`
      have hd : d.1.same y = false := by
        rw [Bool.eq_false_iff]
        intro hd
        rw [Place.isPrefixOf_congr hd, h] at hpre
        cases hpre
      cases hr : renew x d with
      | none => exact hd.symm
      | some e => rw [Option.any_some, (renew_of_under hpre hr).1]
  rw [restore_eq, own, Place.Map.get?_put_of_not_same _ _ (Place.not_same_of_not_isPrefixOf h),
    Place.Map.get?, Place.Map.get?, List.find?_filterMap, hkey]
  cases hfind : s.cells.toList.find? fun d => d.1.same y with
  | none => rfl
  | some d =>
    have hd : d.1.same y = true := by simpa using List.find?_some hfind
    have hnot : x.isPrefixOf d.1 = false := by rw [Place.isPrefixOf_congr hd, h]
    rw [Option.bind_some, renew_of_not_under hnot]

/-- A new value leaves the ownership of places elsewhere alone. -/
theorem ownership?_restore (h : x.isPrefixOf y = false) :
    (s.restore x).ownership? y = s.ownership? y := by
  rw [ownership?, get?_restore h, ownership?]

/-- A place under `x` has a value once `x` was given one. -/
theorem ownership?_restore_of_under {o : Ownership} (h : x.isPrefixOf y = true)
    (hy : (s.restore x).ownership? y = some o) : o = .owned := by
  rw [restore_eq, ownership?_own] at hy
  split at hy
  · exact (Option.some.inj hy).symm
  · obtain ⟨cell, hget, rfl⟩ := Option.map_eq_some_iff.mp hy
    obtain ⟨e, he, hsame, rfl⟩ := Place.Map.exists_mem_of_get? hget
    obtain ⟨d, -, hd⟩ := List.mem_filterMap.mp he
    cases hpre : x.isPrefixOf d.1 with
    | true => rw [(renew_of_under hpre hd).2]
    | false =>
      rw [renew_of_not_under hpre, Option.some.injEq] at hd
      rw [hd, Place.isPrefixOf_congr hsame, h] at hpre
      cases hpre

/-- A new value takes no value away. -/
theorem lacksNoMore_restore : LacksNoMore s (s.restore x) := by
  intro y o hy ho
  cases hxy : x.isPrefixOf y with
  | false => rwa [ownership?_restore hxy] at hy
  | true => exact absurd (ownership?_restore_of_under hxy hy) ho

/-- What can be used lies in a variable that has a value. -/
theorem not_awaits_of_lacking? (h : s.lacking? x = none) : ¬s.Awaits x.base := by
  intro hwait
  obtain ⟨cell, hget, hown⟩ := Option.map_eq_some_iff.mp hwait
  unfold lacking? at h
  split at h
  · cases h
  next hnone =>
    have hroot : ({ base := x.base } : Place) ∈ x.trail :=
      List.mem_map.mpr ⟨0, by simp, by simp⟩
    have := List.findSome?_eq_none_iff.mp hnone _ hroot
    obtain ⟨_, _, _, _⟩ := cell
    subst hown
    simp [lackingWithin?, hget] at this

/-- A first value is given to a variable that waits for it. -/
theorem awaits_of_fill (hroot : x.isRoot = true) (h : s.fill x = .ok t) : s.Awaits x.base := by
  obtain ⟨⟨cell, hget, hown⟩, -⟩ := fill_eq_ok_iff.mp h
  have hx : x = { base := x.base } := by
    rw [Place.isRoot, List.isEmpty_iff] at hroot
    rw [← hroot]
  rw [Awaits, ownership?, ← hx, hget, Option.map_some, hown]

theorem lacksNoMore_fill (h : s.fill x = .ok t) : LacksNoMore s t := by
  obtain ⟨-, rfl⟩ := fill_eq_ok_iff.mp h
  exact lacksNoMore_own_owned

end Store

/-! ### Closing loans -/

namespace Books

variable (s : Books) (loans : List Loan)

/-- Closing loans strikes them from the store one by one. -/
theorem close_induction (P : Store → Prop) (hstart : P s.store)
    (hstep : ∀ (t : Store) (loan : Loan), P t → P (t.discharge loan.target loan.id)) :
    P (s.close loans).store := by
  rw [close]
  generalize s.store = store at hstart
  induction loans generalizing store with
  | nil => exact hstart
  | cons loan loans ih => exact ih _ (hstep store loan hstart)

@[simp] theorem close_types : (s.close loans).store.types = s.store.types :=
  close_induction s loans (fun t => t.types = s.store.types) rfl fun _ _ ht => by
    rw [Store.discharge_types, ht]

@[simp] theorem close_scopes : (s.close loans).store.scopes = s.store.scopes :=
  close_induction s loans (fun t => t.scopes = s.store.scopes) rfl fun _ _ ht => by
    rw [Store.discharge_scopes, ht]

/-- Closing loans takes no value away. -/
theorem lacksNoMore_close : s.store.LacksNoMore (s.close loans).store :=
  close_induction s loans s.store.LacksNoMore (Store.LacksNoMore.refl _) fun _ loan ht =>
    ht.trans (Store.lacksNoMore_discharge loan.id)

end Books

end BorrowCheck
