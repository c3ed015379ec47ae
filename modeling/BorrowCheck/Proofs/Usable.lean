import BorrowCheck.Proofs.Step
import BorrowCheck.Proofs.Values

/-!
# Variables that can be used

A variable can be **used** when it is in scope and does not wait for its first value
(`BorrowCheck.Store.Usable`). What an action reads lies in such a variable
(`BorrowCheck.Walk.Performed.usable_of_reads`), so it matters how long a variable stays usable, and
how long one that is not stays unusable:

* nothing but leaving its block makes a usable variable unusable (`BorrowCheck.Walk.usable_step`);
* nothing but a write of the whole variable makes an unusable one usable
  (`BorrowCheck.Walk.usable_of_step`).

Both follow from one fact about each part of a step: it leaves the question as it was.
-/

namespace BorrowCheck

/-- What a whole variable lies in is the variable. -/
theorem Place.isPrefixOf_root (x : Place) (n : String) :
    x.isPrefixOf { base := n } = x.same { base := n } := by
  rw [Bool.eq_iff_iff, isPrefixOf_iff, same_iff, unlabel, unlabel, mk.injEq, List.map_nil,
    List.prefix_nil]

namespace Store

variable {s t : Store} {x : Place} {n : String} {p : Point}

/-- The variable `n` can be **used**: it is in scope and does not wait for its first value. -/
def Usable (s : Store) (n : String) : Prop :=
  s.declares { base := n } = true ∧ ¬s.Awaits n

/-- What can be used lies in a variable that can. -/
theorem usable_of_value (hdecl : s.declares x = true) (hval : s.lacking? x = none) :
    s.Usable x.base :=
  ⟨hdecl, not_awaits_of_lacking? hval⟩

/-- What leaves the types alone, and no variable waiting or no longer waiting. -/
theorem usable_congr (htypes : t.types = s.types) (hwait : t.Awaits n ↔ s.Awaits n) :
    t.Usable n ↔ s.Usable n := by
  rw [Usable, Usable, declares_of_types htypes, hwait]

/-! ### Variables that wait -/

/-- A cell that says the same about ownership does not matter. -/
theorem awaits_put {cell : Cell} (h : cell.ownership = (s.cell x).ownership) :
    Awaits { s with cells := s.cells.put x cell } n ↔ s.Awaits n := by
  refine ⟨(lacksNoMore_put h).awaits, fun hwait => ?_⟩
  rw [Awaits, ownership?] at hwait ⊢
  by_cases hsame : x.same { base := n } = true
  · obtain ⟨old, hget, hown⟩ := Option.map_eq_some_iff.mp hwait
    rw [← Place.Map.get?_congr _ hsame] at hget ⊢
    rw [Place.Map.get?_put_self, Option.map_some, h, Store.cell, hget, Option.getD_some, hown]
  · rwa [Place.Map.get?_put_of_not_same _ _ (Bool.eq_false_iff.mpr hsame)]

theorem awaits_encumber (kind : BorrowKind) (id : Int) :
    (s.encumber x kind id).Awaits n ↔ s.Awaits n := by
  unfold encumber
  split
  · refine awaits_put ?_
    unfold Cell.encumber
    split
    · rfl
    · split <;> rfl
  · rfl

/-- Striking a loan may take the cell of a part of a variable away, but not that of a whole one. -/
theorem awaits_discharge (id : Int) : (s.discharge x id).Awaits n ↔ s.Awaits n := by
  simp only [discharge]
  split
  · rfl
  next cell hcell =>
    split
    next hpart =>
      rw [Bool.and_eq_true, Bool.not_eq_true'] at hpart
      rw [Awaits, Awaits, ownership?, ownership?, Place.Map.erase, Place.Map.get?_keepKeys]
      intro z hz
      rw [Bool.not_eq_true', Bool.eq_false_iff]
      intro hzx
      rw [Place.same_comm] at hzx
      have hroot := Place.same_trans hzx hz
      rw [Place.same_iff, Place.unlabel, Place.unlabel, Place.mk.injEq, List.map_nil,
        List.map_eq_nil_iff] at hroot
      rw [Place.isRoot, hroot.2] at hpart
      cases hpart.1
    next =>
      refine awaits_put ?_
      rw [Store.cell, hcell]
      rfl

/-- Ownership of another place does not matter. -/
theorem awaits_own {o : Ownership} (h : x.same { base := n } = false) :
    (s.own x o).Awaits n ↔ s.Awaits n := by
  rw [Awaits, ownership?_own, if_neg (by rw [h]; exact Bool.false_ne_true), Awaits]

/-- What can be moved out does not wait, and does not do so afterwards. -/
theorem awaits_drain (h : s.lacking? x = none) :
    (s.drain x p).Awaits n ↔ s.Awaits n := by
  by_cases hsame : x.same { base := n } = true
  · obtain rfl : x.base = n := Place.base_eq_of_same hsame
    refine iff_of_false ?_ (not_awaits_of_lacking? h)
    rw [Awaits, ownership?_drain, if_pos hsame]
    simp
  · rw [Awaits, ownership?_drain, if_neg hsame, Awaits]

theorem awaits_restore (h : x.same { base := n } = false) :
    (s.restore x).Awaits n ↔ s.Awaits n := by
  rw [Awaits, ownership?_restore (by rw [Place.isPrefixOf_root, h]), Awaits]

/-- Nor does the end of other storage. -/
theorem awaits_endStorage {roots : List String} (h : n ∉ roots) :
    (s.endStorage roots).Awaits n ↔ s.Awaits n := by
  rw [Awaits, Awaits, ownership?, ownership?, endStorage, Place.Map.get?_keepKeys]
  intro z hz
  rw [Place.base_eq_of_same hz]
  simpa using h

/-- A variable that is declared can only be used when it is another one. -/
theorem usable_declare {ty : Ty} (h : s.declare x ty false = .ok t) :
    t.Usable n ↔ s.Usable n := by
  obtain ⟨hroot, hnew, rfl⟩ := declare_eq_ok_iff.mp h
  by_cases hx : x.base = n
  · subst hx
    refine iff_of_false (fun husable => husable.2 ?_) (fun husable => ?_)
    · have hsame : x.same { base := x.base } = true := by
        rw [Place.isRoot, List.isEmpty_iff] at hroot
        simp [Place.unlabel, hroot]
      rw [Awaits, ownership?, ← Place.Map.get?_congr _ hsame, Place.Map.get?_put_self]
      rfl
    · rw [show s.declares x = true from husable.1] at hnew
      cases hnew
  · have hne : x.same { base := n } = false := by
      rw [Bool.eq_false_iff]
      exact fun hsame => hx (Place.base_eq_of_same hsame)
    rw [Usable, Usable, Awaits, Awaits, ownership?, ownership?,
      Place.Map.get?_put_of_not_same _ _ hne, declares_iff_mem, declares_iff_mem, List.map_append,
      List.mem_append, List.map_singleton, List.mem_singleton, eq_comm (a := n),
      or_iff_left hx]

end Store

theorem Books.awaits_close (s : Books) (loans : List Loan) (n : String) :
    (s.close loans).store.Awaits n ↔ s.store.Awaits n :=
  close_induction s loans (fun t => t.Awaits n ↔ s.store.Awaits n) Iff.rfl fun _ _ ht =>
    (Store.awaits_discharge _).trans ht

namespace Walk

variable {c : Context} {w u v : State} {x y : Place} {n : String} {p : Point} {a : Action}

/-! ### The parts of a step -/

theorem usable_settled {inclusive : Bool} :
    (settled w p inclusive).store.Usable n ↔ w.store.Usable n :=
  Store.usable_congr (Books.close_types _ _) (Books.awaits_close _ _ _)

/-- A value that leaves its place leaves a variable that is in scope and had its first value. -/
theorem usable_vacate (h : vacate w x p = .ok u) : u.store.Usable n ↔ w.store.Usable n := by
  obtain ⟨-, -, hval, -, rfl⟩ := vacate_eq_ok_iff.mp h
  exact Store.usable_congr rfl (Store.awaits_drain hval)

theorem usable_handOver (h : handOver c w x p = .ok u) :
    u.store.Usable n ↔ w.store.Usable n := by
  rcases handOver_cases h with ⟨-, rfl⟩ | hvac
  · rfl
  · exact usable_vacate hvac

theorem usable_lend {s t : Books} {b : LoanBook} {borrower : Option Place} {kind : BorrowKind}
    {l : Loan} (h : s.lend b borrower x kind p = .ok (t, l)) :
    t.store.Usable n ↔ s.store.Usable n := by
  obtain ⟨-, -, rfl⟩ := Books.lend_eq_ok_iff.mp h
  exact Store.usable_congr (Store.encumber_types _ _) (Store.awaits_encumber _ _)

theorem usable_borrow {borrower : Option Place} {kind : BorrowKind}
    (h : borrow c w borrower kind x p = .ok u) : u.store.Usable n ↔ w.store.Usable n := by
  obtain ⟨-, -, -, books, l, hlend, rfl⟩ := borrow_cases h
  exact usable_lend hlend

theorem usable_passArg {b : Arg} (h : passArg c p w b = .ok u) :
    u.store.Usable n ↔ w.store.Usable n := by
  rcases passArg_cases h with ⟨-, hover⟩ | ⟨kind, -, hborrow⟩
  · exact usable_handOver hover
  · exact usable_borrow hborrow

/-- The arguments of a call, by induction on their list. -/
theorem usable_passAll {args : List Arg} (h : args.foldlM (passArg c p) w = .ok u) :
    u.store.Usable n ↔ w.store.Usable n := by
  induction args generalizing w with
  | nil =>
    obtain rfl := pure_eq_ok_iff.mp h
    rfl
  | cons b args ih =>
    obtain ⟨v, hv, hrest⟩ := foldlM_cons_eq_ok_iff.mp h
    exact (ih hrest).trans (usable_passArg hv)

/-- The loans that a move renews, by induction on their list. -/
theorem usable_lendAll {s t : Books} {loans : List Loan} (h : lendAll c y p s loans = .ok t) :
    t.store.Usable n ↔ s.store.Usable n := by
  induction loans generalizing s with
  | nil =>
    obtain rfl := pure_eq_ok_iff.mp h
    rfl
  | cons loan loans ih =>
    obtain ⟨s', hs', hrest⟩ := foldlM_cons_eq_ok_iff.mp h
    obtain ⟨⟨s'', l⟩, hlend, hpure⟩ := bind_eq_ok_iff.mp hs'
    obtain rfl := pure_eq_ok_iff.mp hpure
    exact (ih hrest).trans (usable_lend hlend)

theorem usable_move (h : move c w y x p = .ok u) : u.store.Usable n ↔ w.store.Usable n := by
  obtain ⟨-, books, hlend, hend⟩ := move_cases h
  rcases hend with ⟨-, rfl⟩ | hvac
  · exact usable_lendAll hlend
  · exact (usable_vacate hvac).trans (usable_lendAll hlend)

/-- **What an action does before its write leaves a variable usable or unusable**, unless it leaves
the block of the variable. -/
theorem Performed.usable_iff (h : Performed c p w u a)
    (hexit : a = .exit → ∀ dying scopes, w.store.scopes.exit? = some (dying, scopes) → n ∉ dying) :
    u.store.Usable n ↔ w.store.Usable n := by
  cases a with
  | declare x ty =>
    obtain ⟨store, hstore, rfl⟩ := h
    exact Store.usable_declare hstore
  | assign x ys | deref x | use x =>
    obtain ⟨-, rfl⟩ := h
    rfl
  | move y x => exact usable_move h
  | borrow kind y x => exact usable_borrow h.2
  | call args result => exact usable_passAll h
  | ret x =>
    cases x with
    | none =>
      obtain rfl := h
      rfl
    | some x =>
      obtain ⟨v, hret, rfl⟩ := h
      have hover := usable_handOver (n := n) (ret_cases hret).2
      exact hover
  | enter =>
    obtain rfl := h
    rfl
  | exit =>
    obtain ⟨dying, scopes, hscopes, -, rfl⟩ := exit_cases h
    have hn := hexit rfl dying scopes hscopes
    rw [Store.Usable, Store.declares_endStorage, Store.awaits_endStorage hn, Store.Usable,
      and_iff_left hn]
    exact Store.usable_congr (Books.close_types _ _) (Books.awaits_close _ _ _)

/-- A variable whose block is left cannot be used. -/
theorem Performed.not_usable_of_exit (h : Performed c p w u .exit) {dying : List String}
    {scopes : Scopes} (hscopes : w.store.scopes.exit? = some (dying, scopes)) (hn : n ∈ dying) :
    ¬u.store.Usable n := by
  obtain ⟨dying', scopes', hscopes', -, rfl⟩ := exit_cases h
  rw [hscopes, Option.some.injEq, Prod.mk.injEq] at hscopes'
  obtain ⟨rfl, rfl⟩ := hscopes'
  exact fun husable => (Store.declares_endStorage.mp husable.1).2 hn

/-- What is usable after an action was usable before: a variable that it declares waits. -/
theorem Performed.usable_before (h : Performed c p w u a) (hu : u.store.Usable n) :
    w.store.Usable n := by
  refine (h.usable_iff ?_).mp hu
  rintro rfl dying scopes hscopes hn
  exact h.not_usable_of_exit hscopes hn hu

/-- A write of anything but the whole variable leaves it usable or unusable. -/
theorem usable_write {closed : List Loan} (h : write c w closed x p = .ok u)
    (hx : x.same { base := n } = false) : u.store.Usable n ↔ w.store.Usable n := by
  rcases (write_cases h).2 with ⟨-, -, rfl⟩ | ⟨-, store, hstore, rfl⟩
  · rfl
  · rcases hstore with ⟨-, -, hfill⟩ | ⟨-, rfl⟩
    · obtain ⟨-, rfl⟩ := Store.fill_eq_ok_iff.mp hfill
      exact Store.usable_congr rfl (Store.awaits_own hx)
    · exact Store.usable_congr rfl (Store.awaits_restore hx)

/-- No write makes a variable unusable. -/
theorem usable_of_write {closed : List Loan} (h : write c w closed x p = .ok u)
    (hw : w.store.Usable n) : u.store.Usable n := by
  rcases (write_cases h).2 with ⟨-, -, rfl⟩ | ⟨-, store, hstore, rfl⟩
  · exact hw
  · rcases hstore with ⟨-, -, hfill⟩ | ⟨-, rfl⟩
    · have hlacks := Store.lacksNoMore_fill hfill
      obtain ⟨-, rfl⟩ := Store.fill_eq_ok_iff.mp hfill
      exact ⟨hw.1, fun hwait => hw.2 (hlacks.awaits hwait)⟩
    · exact ⟨hw.1, fun hwait => hw.2 (Store.lacksNoMore_restore.awaits hwait)⟩

/-! ### Steps -/

/-- **A usable variable stays usable**, unless its block is left. -/
theorem usable_step {op : Operation} (h : step c w op = .ok v) (hact : op.action = .ok a)
    (hexit : a = .exit → ∀ dying scopes, w.store.scopes.exit? = some (dying, scopes) → n ∉ dying)
    (hw : w.store.Usable n) : v.store.Usable n := by
  obtain ⟨-, a', u, hact', hperf, hwrite⟩ := step_cases h
  obtain rfl : a' = a := Except.ok.inj (hact'.symm.trans hact)
  have hscopes : (settled w op.point false).store.scopes = w.store.scopes := Books.close_scopes _ _
  have hmid : (settled u op.point true).store.Usable n := by
    rw [usable_settled, (perform_cases hperf).1.usable_iff (by rwa [hscopes]), usable_settled]
    exact hw
  rcases hwrite with ⟨-, rfl⟩ | ⟨x, -, hwrite⟩
  · exact hmid
  · exact usable_of_write hwrite hmid

/-- **An unusable variable stays unusable**, unless the whole of it is written. -/
theorem usable_of_step {op : Operation} (h : step c w op = .ok v) (hact : op.action = .ok a)
    (hwrite : ∀ x, a.written? = some x → x.same { base := n } = false) (hv : v.store.Usable n) :
    w.store.Usable n := by
  obtain ⟨-, a', u, hact', hperf, hend⟩ := step_cases h
  obtain rfl : a' = a := Except.ok.inj (hact'.symm.trans hact)
  have hmid : (settled u op.point true).store.Usable n := by
    rcases hend with ⟨-, rfl⟩ | ⟨x, hx, hend⟩
    · exact hv
    · exact (usable_write hend (hwrite x hx)).mp hv
  rw [usable_settled] at hmid
  exact usable_settled.mp ((perform_cases hperf).1.usable_before hmid)

/-! ### What is read can be used -/

/-- What is read is in scope and has had its first value. -/
theorem usable_of_read (h : read c w x p = .ok ()) : w.store.Usable x.base := by
  obtain ⟨hdecl, hval, -⟩ := read_eq_ok_iff.mp h
  exact Store.usable_of_value (x := x.holder) hdecl hval

theorem usable_of_vacate (h : vacate w x p = .ok u) : w.store.Usable x.base := by
  obtain ⟨hdecl, -, hval, -⟩ := vacate_eq_ok_iff.mp h
  exact Store.usable_of_value hdecl hval

theorem usable_of_handOver (h : handOver c w x p = .ok u) : w.store.Usable x.base := by
  rcases handOver_cases h with ⟨hread, -⟩ | hvac
  · exact usable_of_read hread
  · exact usable_of_vacate hvac

/-- What is borrowed lies in a variable that can be used. -/
theorem usable_of_borrow {borrower : Option Place} {kind : BorrowKind}
    (h : borrow c w borrower kind x p = .ok u) : w.store.Usable x.base := by
  obtain ⟨hdecl, hread, hval, -⟩ := borrow_cases h
  cases href : x.throughRef with
  | true => exact usable_of_read (x := x.holder) (hread href)
  | false => exact Store.usable_of_value hdecl (hval href)

/-- What is passed was usable before the call, as the arguments before it do not change that. -/
theorem usable_of_passAll {args : List Arg} (h : args.foldlM (passArg c p) w = .ok u)
    {b : Arg} (hb : b ∈ args) : w.store.Usable b.place.base := by
  induction args generalizing w with
  | nil => cases hb
  | cons d args ih =>
    obtain ⟨v, hv, hrest⟩ := foldlM_cons_eq_ok_iff.mp h
    rcases List.mem_cons.mp hb with rfl | hb
    · rcases passArg_cases hv with ⟨-, hover⟩ | ⟨kind, -, hborrow⟩
      · exact usable_of_handOver hover
      · exact usable_of_borrow hborrow
    · exact (usable_passArg hv).mp (ih hrest hb)

/-- **What an action reads lies in a variable that can be used.** -/
theorem Performed.usable_of_reads (h : Performed c p w u a) (hx : x ∈ a.reads) :
    w.store.Usable x.base := by
  cases a with
  | assign y ys => exact usable_of_read (h.1 x hx)
  | move y z =>
    obtain rfl := List.mem_singleton.mp hx
    obtain ⟨-, books, hlend, hend⟩ := move_cases h
    rcases hend with ⟨hread, -⟩ | hvac
    · exact usable_of_read hread
    · exact (usable_lendAll hlend).mp (usable_of_vacate hvac)
  | borrow kind y z =>
    by_cases href : z.throughRef = true
    · obtain rfl : x = z := by simpa [Action.reads, href] using hx
      exact usable_of_borrow h.2
    · simp [Action.reads, href] at hx
  | deref z =>
    obtain rfl := List.mem_singleton.mp hx
    exact usable_of_read (x := x.holder) (check_bind_eq_ok_iff.mp h.1).1
  | use z =>
    obtain rfl := List.mem_singleton.mp hx
    exact usable_of_read h.1
  | call args result =>
    obtain ⟨b, hb, rfl⟩ := List.mem_map.mp hx
    exact usable_of_passAll h (List.mem_filter.mp hb).1
  | ret z =>
    obtain rfl : z = some x := by simpa [Action.reads] using hx
    obtain ⟨v, hret, -⟩ := h
    exact usable_of_handOver (ret_cases hret).2
  | declare y ty | enter | exit => cases hx

end Walk

end BorrowCheck
