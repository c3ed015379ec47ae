import BorrowCheck.Proofs.Noted

/-!
# The state of a walk is well scoped

The state of a walk keeps the variables in scope in three places: in the stack of blocks, in the
list of types and, cell by cell, in the table of cells. Besides, the ledger names variables as
borrowers. These places are changed by different parts of a step, and for a moment they disagree:
when a block is left, its loans are closed while its variables still have types and cells.
`BorrowCheck.Walk.WellScoped` says what it means that they agree, and they do after every operation
that is completed (`BorrowCheck.Function.wellScoped_of_steps`).

Most of it is known from the store and from the ledger alone. Two things are added here. No variable
in scope loses its cell (`BorrowCheck.Store.Furnished`): cells are dropped when there is nothing to
say about a place, but only those of parts. And a cell has the point of a move exactly as long as
its value is moved out (`BorrowCheck.Store.Dated`): the ownership and the point are set apart from
each other, and a first value sets the ownership alone.
-/

namespace BorrowCheck

/-! ### Keys of a table -/

namespace Place.Map

variable {α : Type} {m : Map α} {x y : Place} {a : α}

theorem contains_put_self : (m.put x a).contains x = true := by
  rw [← Bool.not_eq_false, ← get?_eq_none_iff, get?_put_self]
  simp

/-- Putting a value in drops no key. -/
theorem contains_put (h : m.contains y = true) : (m.put x a).contains y = true := by
  cases hsame : x.same y with
  | true =>
    rw [← Bool.not_eq_false, ← get?_eq_none_iff, ← get?_congr _ hsame, get?_put_self]
    simp
  | false =>
    rw [← Bool.not_eq_false, ← get?_eq_none_iff] at h ⊢
    rwa [get?_put_of_not_same _ _ hsame]

/-- A key is kept when all keys that are the same are. -/
theorem contains_keepKeys {keep : Place → Bool} (h : m.contains y = true)
    (hkeep : ∀ z : Place, z.same y = true → keep z = true) :
    (m.keepKeys keep).contains y = true := by
  obtain ⟨e, he, hsame⟩ := contains_iff.mp h
  exact contains_iff.mpr ⟨e, mem_keepKeys.mpr ⟨he, hkeep e.1 hsame⟩, hsame⟩

end Place.Map

/-! ### Cells of whole variables -/

namespace Store

variable {s t : Store} {x : Place}

/-- Every variable in scope is **furnished**: it has one type and a cell. -/
structure Furnished (s : Store) : Prop where
  types : (s.types.map Prod.fst).Nodup
  cells : ∀ x : Place, s.declares x = true → s.cells.contains x.root = true

theorem furnished_empty : Furnished {} :=
  ⟨List.nodup_nil, fun x hx => by simp [declares] at hx⟩

/-- What leaves the types alone, and drops no cell of a whole variable, keeps variables
furnished. -/
theorem Furnished.of_cells (h : s.Furnished) (htypes : t.types = s.types)
    (hcells : ∀ n, s.cells.contains { base := n } = true → t.cells.contains { base := n } = true) :
    t.Furnished :=
  ⟨htypes ▸ h.types, fun x hx => hcells x.base (h.cells x (declares_of_types htypes ▸ hx))⟩

/-- A cell that is put takes none away. -/
theorem Furnished.put (h : s.Furnished) (cell : Cell) :
    Furnished { s with cells := s.cells.put x cell } :=
  h.of_cells rfl fun _ => Place.Map.contains_put

/-- A variable is declared together with its cell. -/
theorem Furnished.declare {ty : Ty} {init : Bool} (h : s.Furnished)
    (ht : s.declare x ty init = .ok t) : t.Furnished := by
  obtain ⟨hroot, hnew, rfl⟩ := declare_eq_ok_iff.mp ht
  refine ⟨?_, fun y hy => ?_⟩
  · rw [List.map_append, List.map_singleton, List.nodup_append]
    refine ⟨h.types, by simp, fun n hn m hm hnm => ?_⟩
    rw [hnm, List.mem_singleton.mp hm, ← declares_iff_mem, hnew] at hn
    cases hn
  · rw [declares_iff_mem, List.map_append, List.mem_append] at hy
    rcases hy with hy | hy
    · exact Place.Map.contains_put (h.cells y (declares_iff_mem.mpr hy))
    · have hx : x = y.root := by
        rw [Place.eq_of_isRoot hroot, Place.root, List.mem_singleton.mp hy]
      rw [hx]
      exact Place.Map.contains_put_self

theorem Furnished.encumber {kind : BorrowKind} {id : Int} (h : s.Furnished) :
    (s.encumber x kind id).Furnished := by
  refine h.of_cells (encumber_types _ _) fun n hn => ?_
  unfold Store.encumber
  split
  · exact Place.Map.contains_put hn
  · exact hn

/-- The cell that is dropped when a loan is struck is that of a part. -/
theorem Furnished.discharge {id : Int} (h : s.Furnished) : (s.discharge x id).Furnished := by
  refine h.of_cells (discharge_types _) fun n hn => ?_
  simp only [Store.discharge]
  split
  · exact hn
  · split
    next hpart =>
      refine Place.Map.contains_keepKeys hn fun z hz => ?_
      rw [Bool.not_eq_true', Bool.eq_false_iff]
      intro hzx
      rw [Place.same_congr_left hz, Place.same_iff, Place.unlabel, Place.unlabel,
        Place.mk.injEq] at hzx
      have hroot : x.isRoot = true := by
        rw [Place.isRoot, List.isEmpty_iff]
        exact List.map_eq_nil_iff.mp hzx.2.symm
      simp [hroot] at hpart
    next => exact Place.Map.contains_put hn

theorem Furnished.close {b : Books} (h : b.store.Furnished) (loans : List Loan) :
    (b.close loans).store.Furnished :=
  Books.close_induction b loans Furnished h fun _ _ ht => ht.discharge

/-- With the cell of a variable its declaration goes. -/
theorem Furnished.endStorage (h : s.Furnished) (roots : List String) :
    (s.endStorage roots).Furnished := by
  refine ⟨h.types.sublist (List.filter_sublist.map _), fun y hy => ?_⟩
  obtain ⟨hy, hstay⟩ := declares_endStorage.mp hy
  refine Place.Map.contains_keepKeys (h.cells y hy) fun z hz => ?_
  rw [Place.base_eq_of_same hz]
  simpa [Place.root] using hstay

/-- A new value drops cells of parts only: what contains a whole variable is the variable. -/
theorem Furnished.restore (h : s.Furnished) : (s.restore x).Furnished := by
  have hrenewed :
      Furnished { s with cells := { toList := s.cells.toList.filterMap (renew x) } } := by
    refine h.of_cells rfl fun n hn => ?_
    obtain ⟨e, he, hsame⟩ := Place.Map.contains_iff.mp hn
    refine Place.Map.contains_iff.mpr ?_
    cases hpre : x.isPrefixOf e.1 with
    | false => exact ⟨e, List.mem_filterMap.mpr ⟨e, he, renew_of_not_under hpre⟩, hsame⟩
    | true =>
      have hx : e.1.same x = true := by
        rw [Place.isPrefixOf_congr hsame] at hpre
        rw [Place.same_congr_left hsame, Place.same_comm]
        refine Place.same_of_isPrefixOf hpre (Place.isPrefixOf_iff.mpr ⟨?_, List.nil_prefix⟩)
        exact (Place.isPrefixOf_iff.mp hpre).1.symm
      refine ⟨(e.1, { e.2 with ownership := .owned, movedAt := none }),
        List.mem_filterMap.mpr ⟨e, he, ?_⟩, hsame⟩
      rw [renew, if_pos hpre, if_neg (by simp [hx])]
  exact hrenewed.put _

end Store

/-! ### Points of moves -/

/-- A cell is **dated**: it has the point of a move exactly when its value was moved out. -/
def Cell.Dated (c : Cell) : Prop :=
  c.movedAt.isSome = true ↔ c.ownership = .moved

namespace Cell.Dated

variable {c : Cell}

/-- The point says nothing as long as there is a value. -/
theorem of_none (hpoint : c.movedAt = none) (hown : c.ownership ≠ .moved) : c.Dated := by
  rw [Dated, hpoint]
  exact iff_of_false Bool.false_ne_true hown

/-- A cell that is not moved out has no date. -/
theorem movedAt_eq_none (h : c.Dated) (hown : c.ownership ≠ .moved) : c.movedAt = none :=
  Option.not_isSome_iff_eq_none.mp fun hsome => hown (h.mp hsome)

theorem discharge (h : c.Dated) (id : Int) : (c.discharge id).Dated :=
  h

theorem encumber (h : c.Dated) (kind : BorrowKind) (id : Int) : (c.encumber kind id).Dated := by
  unfold Cell.encumber
  split
  · exact h
  · split <;> exact h

end Cell.Dated

namespace Store

variable {s t : Store} {x : Place} {p : Point}

/-- All cells are **dated**. -/
def Dated (s : Store) : Prop :=
  ∀ e ∈ s.cells.toList, e.2.Dated

theorem dated_empty : Dated {} :=
  List.forall_mem_nil _

/-- Once `x` is renewed its cell, if there is one, has no point: it lies under `x`. -/
theorem movedAt_cell_renewed :
    (cell { s with cells := { toList := s.cells.toList.filterMap (renew x) } } x).movedAt =
      none := by
  rw [Store.cell]
  cases hget : Place.Map.get? { toList := s.cells.toList.filterMap (renew x) } x with
  | none => rfl
  | some cell =>
    obtain ⟨e, he, hsame, rfl⟩ := Place.Map.exists_mem_of_get? hget
    obtain ⟨d, -, hrenew⟩ := List.mem_filterMap.mp he
    have hunder : x.isPrefixOf d.1 = true := by
      rw [← key_of_renew hrenew, Place.isPrefixOf_congr hsame, Place.isPrefixOf_refl]
    rw [Option.getD_some, (renew_of_under hunder hrenew).2]

namespace Dated

/-- A cell that is found is dated as it stands. -/
theorem of_get? (h : s.Dated) {cell : Cell} (hget : s.cells.get? x = some cell) : cell.Dated := by
  obtain ⟨e, he, -, rfl⟩ := Place.Map.exists_mem_of_get? hget
  exact h e he

theorem cell (h : s.Dated) (x : Place) : (s.cell x).Dated := by
  rw [Store.cell]
  cases hget : s.cells.get? x with
  | none => exact .of_none rfl (by simp)
  | some cell => exact h.of_get? hget

/-- A cell that is put has to be dated itself. -/
theorem put (h : s.Dated) {cell : Cell} (hcell : cell.Dated) :
    Dated { s with cells := s.cells.put x cell } := by
  intro e he
  rcases Place.Map.mem_put he with ⟨he, -⟩ | ⟨-, heq⟩
  · exact h e he
  · exact heq ▸ hcell

theorem keepKeys (h : s.Dated) (keep : Place → Bool) :
    Dated { s with cells := s.cells.keepKeys keep } :=
  fun e he => h e (Place.Map.mem_keepKeys.mp he).1

theorem declare {ty : Ty} {init : Bool} (h : s.Dated) (ht : s.declare x ty init = .ok t) :
    t.Dated := by
  obtain ⟨-, -, rfl⟩ := declare_eq_ok_iff.mp ht
  exact Dated.put (s := { s with types := _, scopes := _ }) h
    (.of_none rfl (by cases init <;> simp))

/-- A move sets both. -/
theorem drain (h : s.Dated) : (s.drain x p).Dated :=
  h.put (iff_of_true rfl rfl)

/-- A first value sets the ownership alone: what waits for it was not moved out. -/
theorem fill (h : s.Dated) (ht : s.fill x = .ok t) : t.Dated := by
  obtain ⟨⟨cell, hget, huninit⟩, rfl⟩ := fill_eq_ok_iff.mp ht
  have hpoint := (h.of_get? hget).movedAt_eq_none (by simp [huninit])
  refine h.put (.of_none ?_ (by simp))
  rwa [Store.cell, hget]

/-- A new value resets both, in the cell of the place and in all that stay under it. -/
theorem restore (h : s.Dated) : (s.restore x).Dated := by
  have hrenewed : Dated { s with cells := { toList := s.cells.toList.filterMap (renew x) } } := by
    intro e he
    obtain ⟨d, hd, hrenew⟩ := List.mem_filterMap.mp he
    cases hunder : x.isPrefixOf d.1 with
    | true =>
      rw [(renew_of_under hunder hrenew).2]
      exact .of_none rfl (by simp)
    | false =>
      rw [renew_of_not_under hunder, Option.some.injEq] at hrenew
      exact hrenew ▸ h d hd
  refine hrenewed.put (.of_none ?_ (by simp))
  exact movedAt_cell_renewed

theorem encumber {kind : BorrowKind} {id : Int} (h : s.Dated) : (s.encumber x kind id).Dated := by
  unfold Store.encumber
  split
  · exact h.put ((h.cell x).encumber kind id)
  · exact h

/-- A loan that is struck out changes no date. -/
theorem discharge {id : Int} (h : s.Dated) : (s.discharge x id).Dated := by
  unfold Store.discharge
  split
  next => exact h
  next cell hget =>
    dsimp only
    split
    · exact h.keepKeys _
    · exact h.put ((h.of_get? hget).discharge id)

theorem close {b : Books} (h : b.store.Dated) (loans : List Loan) : (b.close loans).store.Dated :=
  Books.close_induction b loans Dated h fun _ _ ht => ht.discharge

end Dated

/-- What is known of the store of a walk by itself. -/
structure WellKept (s : Store) : Prop where
  tidy : s.Tidy
  furnished : s.Furnished
  dated : s.Dated

end Store

/-! ### The invariant -/

namespace Walk

variable {c : Context} {callers : List String} {p : Point} {w u : State}

/-- **The state is well scoped.** -/
structure WellScoped (w : State) : Prop where
  /-- No name occurs twice in the stack of blocks. -/
  nodup : w.store.scopes.toList.flatten.Nodup
  /-- The names that have a type are those in the stack of blocks. -/
  typed : (w.store.types.map Prod.fst).Perm w.store.scopes.toList.flatten
  /-- No place has two cells. -/
  distinct : w.store.cells.Distinct
  /-- Every variable in scope has a cell. -/
  celled : ∀ n ∈ w.store.scopes.toList.flatten, ∃ e ∈ w.store.cells.toList, e.1 = { base := n }
  /-- Every cell is of a variable in scope. -/
  housed : ∀ e ∈ w.store.cells.toList, e.1.base ∈ w.store.scopes.toList.flatten
  /-- No cell is of a place behind a reference. -/
  direct : ∀ e ∈ w.store.cells.toList, e.1.throughRef = false
  /-- Only whole variables wait for their first value. -/
  whole : ∀ e ∈ w.store.cells.toList, e.2.ownership = .uninit → e.1.isRoot = true
  /-- A cell has a point of a move exactly when its value was moved out. -/
  movedAt : ∀ e ∈ w.store.cells.toList, e.2.movedAt.isSome = true ↔ e.2.ownership = .moved
  /-- What an outstanding loan is stored in lies in a variable in scope. -/
  borrowers : ∀ l ∈ w.ledger.outstanding, ∀ y, l.borrower = some y →
    y.base ∈ w.store.scopes.toList.flatten

/-- **Every effect keeps variables furnished.** -/
theorem Effect.furnished (heffect : Effect c callers p w u) (h : w.store.Furnished) :
    u.store.Furnished := by
  cases heffect with
  | lent => exact h.encumber
  | vacated hvac =>
    obtain ⟨-, -, -, -, rfl⟩ := vacate_eq_ok_iff.mp hvac
    exact h.put _
  | declared _ hdecl => exact h.declare hdecl
  | blocked scopes => exact h.of_cells rfl fun _ => id
  | closed q _ => exact h.close _
  | ended roots _ => exact h.endStorage roots
  | returned => exact h
  | written hwrite =>
    obtain ⟨-, ⟨-, -, rfl⟩ | ⟨-, store, ⟨-, -, hfill⟩ | ⟨-, rfl⟩, rfl⟩⟩ := write_cases hwrite
    · exact h
    · obtain ⟨-, rfl⟩ := Store.fill_eq_ok_iff.mp hfill
      exact h.put _
    · exact h.restore

/-- **Every effect keeps cells dated.** -/
theorem Effect.dated (heffect : Effect c callers p w u) (h : w.store.Dated) : u.store.Dated := by
  cases heffect with
  | lent => exact h.encumber
  | vacated hvac =>
    obtain ⟨-, -, -, -, rfl⟩ := vacate_eq_ok_iff.mp hvac
    exact h.drain
  | declared _ hdecl => exact h.declare hdecl
  | blocked scopes => exact h
  | closed q _ => exact h.close _
  | ended roots _ => exact h.keepKeys _
  | returned => exact h
  | written hwrite =>
    obtain ⟨-, ⟨-, -, rfl⟩ | ⟨-, store, ⟨-, -, hfill⟩ | ⟨-, rfl⟩, rfl⟩⟩ := write_cases hwrite
    · exact h
    · exact h.fill hfill
    · exact h.restore

/-- A step is a sequence of effects, and each keeps the store well kept. -/
theorem Effects.wellKept (heffects : Effects c callers p w u) (h : w.store.WellKept) :
    u.store.WellKept := by
  induction heffects with
  | refl => exact h
  | tail _ hlast ih =>
    exact ⟨hlast.tidy ih.tidy, hlast.furnished ih.furnished, hlast.dated ih.dated⟩

end Walk

/-! ### Runs -/

theorem Scopes.flatten_toList_perm (s : Scopes) : s.toList.flatten.Perm s.names :=
  (List.reverse_perm (s.current :: s.outer)).flatten

namespace Function

variable {f : Function} {policy : Policy} {pre post : List Operation} {w : Walk.State}

/-- Stores of a walk are well kept. -/
theorem Ordered.wellKept_of_reach (h : f.Ordered) (hops : f.ops = pre ++ post)
    (hreach : f.reach policy pre = .ok w) : w.store.WellKept := by
  refine reach_induction (P := fun _ w => w.store.WellKept) (fun store hstore => ?_)
    (fun pre op post w v hops hw ih hstep => ?_) hops hreach
  · exact foldlM_induction Store.WellKept
      ⟨Store.tidy_empty, Store.furnished_empty, Store.dated_empty⟩
      (fun _ _ _ _ hs hdecl =>
        ⟨hs.tidy.declare hdecl, hs.furnished.declare hdecl, hs.dated.declare hdecl⟩) hstore
  · have heffects : Walk.Effects (f.context policy) [] op.point w v :=
      (h.inStep_of_reach hops hw).effects (h.pointAfter_lt hops) (h.turn hops)
        (fun _ _ _ => List.not_mem_nil) hstep
    exact heffects.wellKept ih

/-- States that a walk reaches are well scoped. -/
theorem Ordered.wellScoped_of_reach (h : f.Ordered) (hops : f.ops = pre ++ post)
    (hreach : f.reach policy pre = .ok w) : Walk.WellScoped w := by
  have hin := h.inStep_of_reach hops hreach
  obtain ⟨htidy, hfurnished, hdated⟩ := h.wellKept_of_reach hops hreach
  have hperm := w.store.scopes.flatten_toList_perm
  have hnodup := hperm.nodup_iff.mpr hin.blocks.nodup
  have hdecl : ∀ x, w.store.declares x = true ↔ x.base ∈ w.store.scopes.toList.flatten :=
    fun x => (hin.blocks.declares_iff x).trans hperm.mem_iff.symm
  refine ⟨hnodup, ?_, htidy.distinct, fun n hn => ?_,
    fun e he => (hdecl e.1).mp (htidy.housed e he),
    htidy.direct, fun e he huninit => ?_, hdated, fun l hl y hy => ?_⟩
  · refine (List.perm_ext_iff_of_nodup hfurnished.types hnodup).mpr fun n => ?_
    exact (Store.declares_iff_mem (x := { base := n })).symm.trans (hdecl { base := n })
  · obtain ⟨e, he, hsame⟩ := Place.Map.contains_iff.mp
      (hfurnished.cells { base := n } ((hdecl { base := n }).mpr hn))
    exact ⟨e, he, Place.eq_of_same_root hsame⟩
  · have hlack : w.store.lack? e.1 = some .uninit := by
      rw [Store.lack?_eq_uninit_iff, Store.ownership?,
        htidy.distinct.get?_of_mem he (Place.same_refl _), Option.map_some, huninit]
    rw [htidy.whole hlack]
    rfl
  · rw [hperm.mem_iff, hin.scopes]
    exact (h.traced_of_reach hops hreach).inScope l hl y hy

/-- **The state of a walk stays well scoped**: it is so after every operation that is completed. -/
theorem wellScoped_of_steps {i : Nat} {op : Operation} {t : Walk.State}
    (h : (f.walk policy).steps[i]? = some (op, t)) : Walk.WellScoped t := by
  obtain ⟨hdis, hops, htake, ht⟩ := reach_of_steps h
  rw [htake] at ht
  exact (ordered_of_disorder? hdis).wellScoped_of_reach (hops.trans (List.append_cons _ _ _)) ht

/-- A function that leaves a block whose variables had a part moved out and held a reference. The
name of one of them is declared again, and a reference to a field of the parameter stays. -/
def leavesBlock : Function where
  name := "f"
  params := [{ name := "v", ty := .named "V" }]
  ops :=
    [.enter 1, .declare 2 { base := "t" } (.named "V"), .move 3 { base := "t" }
        { base := "v", path := [.field "x"] },
      .declare 4 { base := "r" } (.named "R"), .borrow 5 .shared { base := "r" } { base := "t" },
      .declare 6 { base := "u" } (.named "U"),
      .move 7 { base := "u" } { base := "t", path := [.field "y"] }, .exit 8,
      .declare 9 { base := "r" } (.named "R"), .enter 10, .declare 11 { base := "u" } (.named "U"),
      .borrow 12 .exclusive { base := "r" } { base := "v", path := [.field "y"] },
      .use 13 { base := "r" }]

/-- After the last borrow there are two blocks, a variable that waits for its first value, a part
that was moved out and one that is lent. -/
theorem wellScoped_of_steps_leavesBlock :
    ∃ op t, (leavesBlock.walk {}).steps[11]? = some (op, t) ∧
      t.store.scopes.toList = [["v", "r"], ["u"]] ∧
      t.store.cells.toList.map (fun e => (e.1.text, e.2)) =
        [("v", ({} : Cell)), ("v.x", { ownership := .moved, movedAt := some 3 }), ("r", {}),
          ("u", { ownership := .uninit }), ("v.y", { exclusive := some 1 })] ∧
      t.ledger.outstanding.map (fun l => l.borrower.map Place.text) = [some "r"] ∧
      Walk.WellScoped t := by
  have hstep : ((leavesBlock.walk {}).steps[11]?).map (fun e =>
      (e.2.store.scopes.toList, e.2.store.cells.toList.map (fun e => (e.1.text, e.2)),
        e.2.ledger.outstanding.map (fun l => l.borrower.map Place.text))) =
      some ([["v", "r"], ["u"]],
        [("v", ({} : Cell)), ("v.x", { ownership := .moved, movedAt := some 3 }), ("r", {}),
          ("u", { ownership := .uninit }), ("v.y", { exclusive := some 1 })],
        [some "r"]) := by
    decide +kernel
  obtain ⟨⟨op, t⟩, ht, heq⟩ := Option.map_eq_some_iff.mp hstep
  simp only [Prod.mk.injEq] at heq
  exact ⟨op, t, ht, heq.1, heq.2.1, heq.2.2, wellScoped_of_steps ht⟩

end Function

end BorrowCheck
