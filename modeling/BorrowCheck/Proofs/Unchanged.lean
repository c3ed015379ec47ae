import BorrowCheck.Procedure
import BorrowCheck.Proofs.Truthful
import BorrowCheck.Proofs.WellScoped

/-!
# What fails changes nothing

The operations of store and ledger are defined as a check followed by an effect, so there is no
state in between. Procedures (`BorrowCheck.Procedure`) do have one: they look up, check and change
one thing at a time, and when they stop, what was changed stays changed. This file shows that the
difference cannot be seen. A procedure ends with what the definition says
(`BorrowCheck.Request.run_perform`): with the state after the operation, or, if there is a fault,
with the state that it started from.

Checks that come first carry the argument (`BorrowCheck.Procedure.run_bind_check`): as long as
nothing but checks was made, the state is the old one, and once something was changed, nothing can
fail any more. What is left are loops. Those that check stop at the first thing they find
(`BorrowCheck.Procedure.run_forM_haltOn`). The one that gives every cell under a place its turn
changes the table while it goes through it, and comes to the same as one pass over the entries
because no two of them are for the same place (`BorrowCheck.Procedure.run_renewAll`).

So in a row of requests, those that fail can be left out: all others get the replies that they get
with them (`BorrowCheck.Request.failed_changes_nothing`).
-/

namespace BorrowCheck

/-! ### Entries of a table -/

namespace Place.Map

variable {α : Type} {m : Map α} {x : Place}

theorem contains_iff_exists_get? : m.contains x = true ↔ ∃ a, m.get? x = some a := by
  rw [← Option.ne_none_iff_exists', Ne, get?_eq_none_iff, Bool.not_eq_false]

/-- Entries for other places are left alone by a value that is put in. -/
theorem map_put_of_not_same {l : List (Place × α)} (a : α) (h : ∀ e ∈ l, e.1.same x = false) :
    l.map (fun e => if e.1.same x then (e.1, a) else e) = l :=
  (List.map_congr_left fun e he => by rw [h e he]; rfl).trans (List.map_id l)

end Place.Map

namespace Place.Map.Distinct

variable {α : Type} {front back : List (Place × α)} {e : Place × α} {a : α}

/-- With distinct keys, the entries around one are for other places. -/
theorem not_same (h : Distinct { toList := front ++ e :: back }) :
    ∀ d ∈ front ++ back, d.1.same e.1 = false := by
  obtain ⟨-, hrest, hcross⟩ := List.pairwise_append.mp h
  intro d hd
  rcases List.mem_append.mp hd with hd | hd
  · exact hcross d hd e List.mem_cons_self
  · rw [Place.same_comm]
    exact (List.pairwise_cons.mp hrest).1 d hd

theorem get?_split (h : Distinct { toList := front ++ e :: back }) :
    Place.Map.get? { toList := front ++ e :: back } e.1 = some e.2 :=
  h.get?_of_mem (List.mem_append_right _ List.mem_cons_self) (Place.same_refl _)

/-- Putting a value at the key of an entry changes this entry alone. -/
theorem put_split (h : Distinct { toList := front ++ e :: back }) :
    Place.Map.put { toList := front ++ e :: back } e.1 a =
      { toList := front ++ (e.1, a) :: back } := by
  have hother := h.not_same
  rw [List.forall_mem_append] at hother
  have hmem : Place.Map.contains { toList := front ++ e :: back } e.1 = true :=
    contains_iff.mpr ⟨e, List.mem_append_right _ List.mem_cons_self, Place.same_refl _⟩
  rw [Place.Map.put, if_pos hmem, Place.Map.mk.injEq, List.map_append, List.map_cons,
    map_put_of_not_same a hother.1, map_put_of_not_same a hother.2, if_pos (Place.same_refl _)]

/-- Erasing the key of an entry takes away this entry alone. -/
theorem erase_split (h : Distinct { toList := front ++ e :: back }) :
    Place.Map.erase { toList := front ++ e :: back } e.1 = { toList := front ++ back } := by
  have hkeep : ∀ l : List (Place × α), (∀ d ∈ l, d.1.same e.1 = false) →
      l.filter (fun d => !d.1.same e.1) = l := fun l hl =>
    List.filter_eq_self.mpr fun d hd => by rw [hl d hd]; rfl
  have hother := h.not_same
  rw [List.forall_mem_append] at hother
  rw [Place.Map.erase, Place.Map.keepKeys, Place.Map.mk.injEq, List.filter_append,
    List.filter_cons_of_neg (by simp), hkeep _ hother.1, hkeep _ hother.2]

end Place.Map.Distinct

namespace Place.Map

variable {α : Type} (m : Map α) (x : Place) (a b : α)

/-- The value that was put in last counts. -/
theorem put_put : (m.put x a).put x b = m.put x b := by
  have htwice : ∀ e : Place × α, (if (if e.1.same x then (e.1, a) else e).1.same x then
      ((if e.1.same x then (e.1, a) else e).1, b) else (if e.1.same x then (e.1, a) else e)) =
        if e.1.same x then (e.1, b) else e := by
    intro e
    by_cases he : e.1.same x = true <;> simp [he]
  rw [put, if_pos contains_put_self, put, put]
  by_cases hx : m.contains x = true
  · rw [if_pos hx, if_pos hx, mk.injEq, List.map_map]
    exact List.map_congr_left fun e _ => htwice e
  · -- a new key stands last, and only its entry is changed then
    rw [if_neg hx, if_neg hx, mk.injEq, List.map_append]
    have hother : ∀ e ∈ m.toList, e.1.same x = false := fun e he =>
      Bool.eq_false_iff.mpr fun hsame => hx (contains_iff.mpr ⟨e, he, hsame⟩)
    rw [map_put_of_not_same b hother, List.map_singleton, if_pos (same_refl x)]

/-- What is erased need not be changed first. -/
theorem erase_put (h : m.contains x = true) : (m.put x a).erase x = m.erase x := by
  rw [put, if_pos h, erase, erase, keepKeys, keepKeys, mk.injEq, List.filter_map]
  have hkey : ∀ e : Place × α, ((!·.1.same x) ∘ fun e => if e.1.same x then (e.1, a) else e) e =
      !e.1.same x := by
    intro e
    by_cases he : e.1.same x = true
    · rw [Function.comp_apply, if_pos he]
    · rw [Function.comp_apply, if_neg he]
  rw [funext hkey]
  refine (List.map_congr_left fun e he => ?_).trans (List.map_id _)
  have hne := (List.mem_filter.mp he).2
  rw [Bool.not_eq_true'] at hne
  rw [hne]
  rfl

end Place.Map

namespace Procedure

variable {σ α β : Type}

/-! ### How procedures end -/

/-- How a procedure that starts from `s` **ends** when an operation has the given outcome: with the
state after it, or, when it stops, with `s`. -/
def ending (s : σ) : Except Fault (α × σ) → EStateM.Result Fault σ α
  | .ok (a, t) => .ok a t
  | .error e => .error e s

/-- How a check ends: it changes nothing. -/
abbrev checked (s : σ) (c : Except Fault α) : EStateM.Result Fault σ α :=
  ending s (c.map fun a => (a, s))

/-- How an operation ends that gives nothing but a new state. -/
abbrev changed (s : σ) (r : Except Fault σ) : EStateM.Result Fault σ Unit :=
  ending s (r.map fun t => ((), t))

variable {m : Procedure σ α} {f : α → Procedure σ β} {s t : σ} {a : α}

/-- A procedure goes on with the state that the first part leaves. -/
theorem run_bind_of_ok (h : m.run s = .ok a t) : (m >>= f).run s = (f a).run t := by
  rw [EStateM.run_bind, h]

/-- **A check in front**: when nothing but a check was made before, and what follows ends as the
operation says, so does the whole. -/
theorem run_bind_check {γ : Type} {c : Except Fault α} {g : α → Except Fault γ} (h : γ → β × σ)
    (hm : m.run s = checked s c) (hf : ∀ a, c = .ok a → (f a).run s = ending s ((g a).map h)) :
    (m >>= f).run s = ending s ((c >>= g).map h) := by
  rw [EStateM.run_bind, hm]
  cases c with
  | error e => rfl
  | ok a => exact hf a rfl

/-- What a procedure gives is put into another form. -/
theorem run_bind_pure {out : Except Fault (α × σ)} (g : α → β) (hm : m.run s = ending s out) :
    (m >>= fun a => pure (g a)).run s = ending s (out.map fun r => (g r.1, r.2)) := by
  rw [EStateM.run_bind, hm]
  cases out with
  | error e => rfl
  | ok r => rfl

/-- A halt leaves the state as it was. -/
theorem run_haltOn (v : Option Violation) : (haltOn v).run s = checked s (refuse v) := by
  cases v <;> rfl

/-- A loop of checks stops at the first thing that is wrong. -/
theorem run_forM_haltOn {γ : Type} {check : γ → Procedure σ Unit} {wrong? : γ → Option Violation}
    (cs : List γ) (h : ∀ c ∈ cs, (check c).run s = (haltOn (wrong? c)).run s) :
    (cs.forM check).run s = checked s (refuse (cs.findSome? wrong?)) := by
  induction cs with
  | nil => rfl
  | cons c cs ih =>
    rw [List.forall_mem_cons] at h
    rw [List.forM, EStateM.run_bind, h.1, List.findSome?_cons]
    cases wrong? c with
    | some v => rfl
    | none => exact ih h.2

/-- A loop that stops at whatever it meets stops at the first. -/
theorem run_forM_halt {γ : Type} (v : γ → Violation) (cs : List γ) :
    (cs.forM fun c => haltOn (some (v c))).run s = checked s (refuse (cs.head?.map v)) := by
  rw [run_forM_haltOn cs fun _ _ => rfl]
  cases cs <;> rfl

/-- A loop whose steps cannot fail goes through the states of a fold. -/
theorem run_forM_of_ok {γ : Type} {step : γ → Procedure σ Unit} {next : σ → γ → σ}
    (h : ∀ s c, (step c).run s = .ok () (next s c)) (cs : List γ) (s : σ) :
    (cs.forM step).run s = .ok () (cs.foldl next s) := by
  induction cs generalizing s with
  | nil => rfl
  | cons c cs ih => rw [List.forM, run_bind_of_ok (h s c), ih, List.foldl_cons]

/-- The first of some objections that are made under a condition. -/
theorem findSome?_ite {γ δ : Type} (p : γ → Bool) (g : γ → δ) (cs : List γ) :
    cs.findSome? (fun c => if p c then some (g c) else none) = (cs.find? p).map g := by
  induction cs with
  | nil => rfl
  | cons c cs ih => by_cases hc : p c = true <;> simp [hc, ih]

end Procedure

/-! ### The store -/

namespace Procedure

variable {s : Store} {x : Place} {p : Point} {liens : List Lien}

theorem run_adjust {cell : Cell} (change : Cell → Cell) (hget : s.cells.get? x = some cell) :
    (adjust x change).run s = .ok () { s with cells := s.cells.put x (change cell) } := by
  rw [adjust, EStateM.run_modify, hget]

theorem run_dropIdle {cell : Cell} (hget : s.cells.get? x = some cell) :
    (dropIdle x).run s =
      .ok () (if cell.isIdle then { s with cells := s.cells.erase x } else s) := by
  rw [dropIdle, EStateM.run_modify, hget, Option.any_some]

/-- A cell is made if there is none, and then changed. -/
theorem run_provide_adjust (x : Place) (change : Cell → Cell) (s : Store) :
    (do provide x; adjust x change : Procedure Store Unit).run s =
      .ok () { s with cells := s.cells.put x (change (s.cell x)) } := by
  rw [run_bind_of_ok (m := provide x) (EStateM.run_modify _ _)]
  by_cases hx : s.cells.contains x = true
  · obtain ⟨cell, hget⟩ := Place.Map.contains_iff_exists_get?.mp hx
    rw [if_pos hx, run_adjust change hget, Store.cell, hget, Option.getD_some]
  · -- the new cell is put in twice, empty and then changed
    have hget := Place.Map.get?_eq_none_iff.mpr (Bool.eq_false_iff.mpr hx)
    rw [if_neg hx, run_adjust change (s.cells.get?_put_self x {}), Place.Map.put_put, Store.cell,
      hget, Option.getD_none]

theorem run_own (x : Place) (o : Ownership) (s : Store) :
    (own x o).run s = .ok () (s.own x o) :=
  run_provide_adjust x _ s

theorem run_ensureInScope : (ensureInScope x).run s = checked s (s.ensureInScope x) := by
  rw [ensureInScope, run_bind_of_ok (EStateM.run_get s), run_haltOn, Store.ensureInScope]
  split <;> rfl

theorem run_ensureValue : (ensureValue x).run s = checked s (s.ensureValue x) := by
  -- one look for what is lacking is two checks in a row
  have hsplit : s.ensureValue x =
      (refuse (x.trail.findSome? (s.lackingWithin? x)) >>= fun _ =>
        refuse (s.lackingUnder? x)) := by
    rw [Store.ensureValue, Store.lacking?]
    cases x.trail.findSome? (s.lackingWithin? x) <;> rfl
  rw [hsplit]
  refine run_bind_check _ (run_forM_haltOn _ fun y _ => rfl) fun _ _ => ?_
  rw [run_bind_of_ok (EStateM.run_get s)]
  exact run_haltOn _

theorem run_read : (read x liens).run s = checked s (s.read x liens) := by
  refine run_bind_check _ run_ensureValue fun _ _ => ?_
  rw [← findSome?_ite]
  exact run_forM_haltOn liens fun _ _ => rfl

/-- A place is emptied after all checks, so a failed request leaves the store as it was. -/
theorem run_vacate : (vacate x p liens).run s = changed s (s.vacate x p liens) := by
  refine run_bind_check _ run_ensureValue fun _ _ => ?_
  refine run_bind_check _ (run_forM_halt _ liens) fun _ _ => ?_
  -- the cell is changed twice, first its ownership and then the point
  rw [run_bind_of_ok (run_own x .moved s), run_adjust _ (s.cells.get?_put_self x _), Store.own,
    Place.Map.put_put]
  rfl

/-- The first value is given after the check. -/
theorem run_fill (x : Option Place) : (fill x).run s = changed s (s.fill? x) := by
  cases x with
  | none => rfl
  | some x =>
    rw [fill, run_bind_of_ok (EStateM.run_get s), Store.fill?, Store.fill]
    cases hget : s.cells.get? x with
    | none => rfl
    | some cell =>
      obtain ⟨o, movedAt, shared, exclusive⟩ := cell
      cases o with
      | owned | moved => rfl
      | uninit =>
        dsimp only
        rw [run_adjust _ hget, Store.own, Store.cell, hget]
        rfl

theorem run_declare {ty : Ty} {init : Bool} :
    (declare x ty init).run s = changed s (s.declare x ty init) := by
  have hsplit : s.declare x ty init =
      (refuse (if x.isRoot then none else some (.flaw (.notVariable x))) >>= fun _ =>
        refuse (if s.declares x then some (.flaw (.redeclared x)) else none) >>= fun _ =>
          .ok { cells := s.cells.put x { ownership := if init then .owned else .uninit }
                types := s.types ++ [(x.base, ty)]
                scopes := s.scopes.declare x.base }) := by
    rw [Store.declare]
    cases x.isRoot <;> cases s.declares x <;> rfl
  rw [hsplit]
  refine run_bind_check _ (run_haltOn _) fun _ _ => ?_
  rw [run_bind_of_ok (EStateM.run_get s)]
  exact run_bind_check _ (run_haltOn _) fun _ _ => rfl

theorem run_exit : exit.run s = ending s s.exit := by
  rw [exit, run_bind_of_ok (EStateM.run_get s), Store.exit]
  cases s.scopes.exit? with
  | none => rfl
  | some r => rfl

theorem run_encumber {kind : BorrowKind} {id : Int} :
    (encumber x kind id).run s = .ok () (s.encumber x kind id) := by
  rw [encumber, run_bind_of_ok (EStateM.run_get s), Store.encumber]
  split
  · exact run_provide_adjust x _ s
  · rfl

theorem run_discharge {id : Int} : (discharge x id).run s = .ok () (s.discharge x id) := by
  rw [discharge, Store.discharge]
  cases hget : s.cells.get? x with
  | none =>
    have hadjust : (adjust x fun cell => cell.discharge id).run s = .ok () s := by
      rw [adjust, EStateM.run_modify, hget]
    rw [run_bind_of_ok hadjust]
    cases x.isRoot with
    | true => rfl
    | false =>
      show (dropIdle x).run s = _
      rw [dropIdle, EStateM.run_modify, hget]
      rfl
  | some cell =>
    rw [run_bind_of_ok (run_adjust _ hget)]
    cases x.isRoot with
    | true => rfl
    | false =>
      -- the cell was changed before it is looked at, so what is erased is a changed entry
      have hx := Place.Map.contains_iff_exists_get?.mpr ⟨cell, hget⟩
      show (dropIdle x).run _ = _
      rw [run_dropIdle (s.cells.get?_put_self x _), Place.Map.erase_put _ _ _ hx]
      rfl

/-! ### A new value -/

/-- **The turn of one cell** does to its entry what a new value does to it, and leaves the entries
around it alone. -/
theorem run_renew {front back : List (Place × Cell)} {e : Place × Cell}
    (hd : s.cells.Distinct) (hcells : s.cells = { toList := front ++ e :: back })
    (hunder : x.isPrefixOf e.1 = true) :
    (renew x e.1).run s =
      .ok () { s with cells := { toList := front ++ (Store.renew x e).toList ++ back } } := by
  obtain ⟨y, o, movedAt, shared, exclusive⟩ := e
  rw [hcells] at hd
  have hadjust := run_adjust (s := s) (fun cell => { cell with ownership := .owned })
    (by rw [hcells]; exact hd.get?_split)
  rw [hcells, hd.put_split] at hadjust
  have hd₁ := hd.put y { ownership := .owned, movedAt, shared, exclusive }
  rw [hd.put_split] at hd₁
  have hadjust' := run_adjust (s := { s with cells := _ })
    (fun cell => { cell with movedAt := none })
    hd₁.get?_split
  rw [hd₁.put_split] at hadjust'
  have hd₂ := hd.put y { ownership := .owned, movedAt := none, shared, exclusive }
  rw [hd.put_split] at hd₂
  rw [renew, run_bind_of_ok hadjust, run_bind_of_ok hadjust', Store.renew, if_pos hunder]
  cases y.same x with
  | true => simp
  | false =>
    show (dropIdle y).run _ = _
    rw [run_dropIdle hd₂.get?_split, hd₂.erase_split]
    cases hidle : Cell.isIdle { ownership := .owned, movedAt := none, shared, exclusive } <;>
      simp [hidle]

/-- The keys stay distinct after the turn of one cell. -/
theorem distinct_turn {front back : List (Place × Cell)} {e : Place × Cell}
    (hd : Place.Map.Distinct { toList := front ++ e :: back }) :
    Place.Map.Distinct { toList := front ++ (Store.renew x e).toList ++ back } := by
  cases hrenew : Store.renew x e with
  | none =>
    rw [Option.toList_none, List.append_nil]
    exact hd.sublist (List.sublist_append_right [e] back |>.append_left front)
  | some d =>
    obtain ⟨key, cell⟩ := d
    obtain rfl : key = e.1 := Store.key_of_renew hrenew
    rw [Option.toList_some, List.append_assoc, List.singleton_append, ← hd.put_split]
    exact hd.put _ _

/-- **All cells under a place have their turn**: the loop, which goes through the keys as they were
at first, comes to the same as one pass over the entries. -/
theorem run_renewAll (front back : List (Place × Cell)) (hd : s.cells.Distinct)
    (hcells : s.cells = { toList := front ++ back }) :
    (((back.map (·.1)).filter x.isPrefixOf).forM (renew x)).run s =
      .ok () { s with cells := { toList := front ++ back.filterMap (Store.renew x) } } := by
  -- the entries in front have had their turn, or need none
  induction back generalizing s front with
  | nil =>
    rw [List.filterMap_nil, ← hcells]
    rfl
  | cons e back ih =>
    rw [List.map_cons]
    cases hunder : x.isPrefixOf e.1 with
    | false =>
      have hrest := ih (front ++ [e]) hd (by rw [hcells, List.append_assoc]; rfl)
      rw [List.append_assoc] at hrest
      rwa [List.filter_cons_of_neg (by simp [hunder]),
        List.filterMap_cons_some (Store.renew_of_not_under hunder)]
    | true =>
      rw [List.filter_cons_of_pos hunder, List.forM, run_bind_of_ok (run_renew hd hcells hunder)]
      rw [hcells] at hd
      rw [ih _ (distinct_turn hd) rfl]
      cases hrenew : Store.renew x e with
      | none => rw [List.filterMap_cons_none hrenew, Option.toList_none, List.append_nil]
      | some d =>
        rw [List.filterMap_cons_some hrenew, Option.toList_some, List.append_assoc]
        rfl

/-- Cells are renewed one by one, with the effect of renewing them all. -/
theorem run_overwrite (hd : s.cells.Distinct) :
    (overwrite x liens).run s = changed s (s.overwrite x liens) := by
  refine run_bind_check _ (run_forM_haltOn _ fun _ _ => rfl) fun _ _ => ?_
  refine run_bind_check _ (run_forM_halt _ liens) fun _ _ => ?_
  -- from here on nothing can fail
  rw [run_bind_of_ok (EStateM.run_get s), run_bind_of_ok (run_renewAll [] _ hd rfl)]
  exact run_own x .owned _

end Procedure

/-! ### Store and ledger -/

theorem Ledger.strike_cons (l : Ledger) (loan : Loan) (loans : List Loan) :
    l.strike (loan :: loans) = (l.strike [loan]).strike loans := by
  simp only [strike, List.filter_filter, Ledger.mk.injEq, and_true]
  refine List.filter_congr fun other _ => ?_
  simp [Bool.and_comm]

/-- Loans are closed one by one. -/
theorem Books.close_cons (s : Books) (loan : Loan) (loans : List Loan) :
    s.close (loan :: loans) = (s.close [loan]).close loans := by
  simp only [close, List.foldl_cons, List.foldl_nil, ← Ledger.strike_cons]

namespace Procedure

variable {α : Type} {s : Books}

/-- A procedure on the store is one on the books, and leaves the ledger alone. -/
theorem run_onStore {m : Procedure Store α} {out : Except Fault (α × Store)}
    (h : m.run s.store = ending s.store out) :
    (onStore m).run s = ending s (out.map fun r => (r.1, { s with store := r.2 })) := by
  simp only [EStateM.run, onStore] at h ⊢
  rw [h]
  cases out <;> rfl

theorem run_onStore_of_ok {m : Procedure Store α} {a : α} {t : Store}
    (h : m.run s.store = .ok a t) : (onStore m).run s = .ok a { s with store := t } :=
  @run_onStore α s m (.ok (a, t)) h

/-- Loans are closed one by one, with the effect of closing them together. -/
theorem run_close (loans : List Loan) (s : Books) :
    (close loans).run s = .ok () (s.close loans) := by
  have hstep : ∀ (s : Books) (loan : Loan),
      (do modify fun s => { s with ledger := s.ledger.strike [loan] }
          onStore (discharge loan.target loan.id) : Procedure Books Unit).run s =
        .ok () (s.close [loan]) := by
    intro s loan
    rw [run_bind_of_ok (EStateM.run_modify _ s)]
    exact run_onStore_of_ok run_discharge
  rw [close, run_forM_of_ok hstep]
  congr 1
  induction loans generalizing s with
  | nil => simp [Books.close, Ledger.strike]
  | cons loan loans ih => rw [List.foldl_cons, ih, ← Books.close_cons]

/-- Loans are recorded one by one. -/
theorem run_record (loans : List Loan) (s : Books) :
    (loans.forM fun loan => modify fun s => { s with ledger := s.ledger.record loan } :
      Procedure Books Unit).run s =
      .ok () { s with ledger := loans.foldl Ledger.record s.ledger } := by
  rw [run_forM_of_ok fun s loan => EStateM.run_modify _ s]
  congr 1
  induction loans generalizing s with
  | nil => rfl
  | cons loan loans ih => rw [List.foldl_cons, ih, List.foldl_cons]

theorem run_due {b : LoanBook} {borrower : Option Place} {x : Place} {kind : BorrowKind}
    {p : Point} :
    (due b borrower (some x) kind p).run s =
      checked s ((s.ledger.due? b borrower x kind p).elim
        (.error (.unrecorded borrower (some x))) .ok) := by
  rw [due, run_bind_of_ok (EStateM.run_get s), Option.bind_some]
  cases s.ledger.due? b borrower x kind p <;> rfl

/-- **Opening a loan**: the loan is looked up, the outstanding ones are looked at, and only then
ledger and store are changed. -/
theorem run_lend {b : LoanBook} {borrower source : Option Place} {kind : BorrowKind} {p : Point} :
    (lend b borrower source kind p).run s =
      ending s ((s.lend? b borrower source kind p).map fun r => (r.2, r.1)) := by
  cases source with
  | none => rfl
  | some x =>
    have hsplit : s.lend? b borrower (some x) kind p =
        ((s.ledger.due? b borrower x kind p).elim (.error (.unrecorded borrower (some x))) .ok >>=
          fun loan => refuse ((s.ledger.excluding? b loan).map fun other =>
            .conflict loan.target loan.kind other.toLien) >>= fun _ =>
              .ok ({ store := s.store.encumber loan.target loan.kind loan.id
                     ledger := s.ledger.record loan }, loan)) := by
      rw [Books.lend?, Books.lend]
      cases s.ledger.due? b borrower x kind p with
      | none => rfl
      | some loan =>
        simp only [Option.elim_some, bind, Except.bind]
        cases s.ledger.excluding? b loan <;> rfl
    rw [hsplit]
    refine run_bind_check _ run_due fun loan _ => ?_
    rw [run_bind_of_ok (EStateM.run_get s)]
    refine run_bind_check _ ?_ fun _ _ => ?_
    · rw [Ledger.excluding?, ← findSome?_ite]
      exact run_forM_haltOn _ fun _ _ => rfl
    · -- the three changes, none of which can fail
      rw [run_bind_of_ok (EStateM.run_modify _ s), run_bind_of_ok (EStateM.run_modify _ _),
        run_bind_of_ok (run_onStore_of_ok run_encumber)]
      rfl

end Procedure

/-! ### Requests -/

namespace Request

/-- **What comes of a request** to the books `s`, by the definitions of the operations: a reply with
the books after it, or a fault. -/
def outcome (b : LoanBook) (s : Books) : Request → Except Fault (Reply × Books)
  | declare x ty init => (s.store.declare x ty init).map fun t => (.done, { s with store := t })
  | enter => .ok (.done, { s with store := s.store.enter })
  | exit => s.store.exit.map fun r => (.names r.1, { s with store := r.2 })
  | endStorage roots => .ok (.done, { s with store := s.store.endStorage roots })
  | ensureInScope x => (s.store.ensureInScope x).map fun _ => (.done, s)
  | ensureValue x => (s.store.ensureValue x).map fun _ => (.done, s)
  | read x liens => (s.store.read x liens).map fun _ => (.done, s)
  | vacate x p liens => (s.store.vacate x p liens).map fun t => (.done, { s with store := t })
  | fill x => (s.store.fill? x).map fun t => (.done, { s with store := t })
  | overwrite x liens => (s.store.overwrite x liens).map fun t => (.done, { s with store := t })
  | encumber x kind id => .ok (.done, { s with store := s.store.encumber x kind id })
  | discharge x id => .ok (.done, { s with store := s.store.discharge x id })
  | openForCaller p => .ok (.loans (s.openForCaller b p).2, (s.openForCaller b p).1)
  | lend borrower source kind p =>
    (s.lend? b borrower source kind p).map fun r => (.loan r.2, r.1)
  | settle p inclusive => .ok (.loans (s.settle p inclusive).2, (s.settle p inclusive).1)
  | settleIn roots => .ok (.loans (s.settleIn roots).2, (s.settleIn roots).1)
  | releaseUnder x p => .ok (.done, { s with ledger := s.ledger.releaseUnder x p })

open Procedure

variable {b : LoanBook} {s : Books}

/-- A request to the store whose procedure is a check. -/
theorem run_of_check {m : Procedure Store Unit} {c : Except Fault Unit}
    (h : m.run s.store = checked s.store c) :
    (do onStore m; return .done : Procedure Books Reply).run s =
      ending s (c.map fun _ => (.done, s)) := by
  refine (run_bind_pure (fun _ => Reply.done) (run_onStore h)).trans ?_
  cases c <;> rfl

/-- A request to the store whose procedure gives nothing but a new store. -/
theorem run_of_change {m : Procedure Store Unit} {r : Except Fault Store}
    (h : m.run s.store = changed s.store r) :
    (do onStore m; return .done : Procedure Books Reply).run s =
      ending s (r.map fun t => (.done, { s with store := t })) := by
  refine (run_bind_pure (fun _ => Reply.done) (run_onStore h)).trans ?_
  cases r <;> rfl

/-- **The procedure of a request ends as the definitions say.** Where they give a fault it stops
with this fault, and with the books that it started from. -/
theorem run_perform (hd : s.store.cells.Distinct) (r : Request) :
    (r.perform b).run s = ending s (r.outcome b s) := by
  cases r with
  | declare x ty init => exact run_of_change run_declare
  | enter => rfl
  | exit =>
    refine (run_bind_pure _ (run_onStore run_exit)).trans ?_
    rw [outcome]
    cases s.store.exit <;> rfl
  | endStorage roots => rfl
  | ensureInScope x => exact run_of_check run_ensureInScope
  | ensureValue x => exact run_of_check run_ensureValue
  | read x liens => exact run_of_check run_read
  | vacate x p liens => exact run_of_change run_vacate
  | fill x => exact run_of_change (run_fill x)
  | overwrite x liens => exact run_of_change (run_overwrite hd)
  | encumber x kind id => exact run_of_change (r := .ok _) run_encumber
  | discharge x id => exact run_of_change (r := .ok _) run_discharge
  | openForCaller p =>
    rw [perform, run_bind_of_ok (EStateM.run_get s), run_bind_of_ok (run_record _ s)]
    rfl
  | lend borrower source kind p =>
    refine (run_bind_pure _ run_lend).trans ?_
    rw [outcome]
    cases s.lend? b borrower source kind p <;> rfl
  | settle p inclusive =>
    rw [perform, run_bind_of_ok (EStateM.run_get s), run_bind_of_ok (run_close _ s)]
    rfl
  | settleIn roots =>
    rw [perform, run_bind_of_ok (EStateM.run_get s), run_bind_of_ok (run_close _ s)]
    rfl
  | releaseUnder x p => rfl

theorem map_eq_ok_iff {ε α β : Type} {x : Except ε α} {g : α → β} {c : β} :
    x.map g = .ok c ↔ ∃ a, x = .ok a ∧ g a = c := by
  cases x <;> simp [Except.map]

/-- A request that succeeds leaves at most one cell for each place. -/
theorem distinct_outcome {r : Request} {reply : Reply} {t : Books} (hd : s.store.cells.Distinct)
    (h : r.outcome b s = .ok (reply, t)) : t.store.cells.Distinct := by
  cases r with
  | declare x ty init =>
    obtain ⟨u, hu, ⟨⟩⟩ := map_eq_ok_iff.mp h
    exact Store.distinct_declare hd hu
  | exit =>
    obtain ⟨⟨dying, u⟩, hu, ⟨⟩⟩ := map_eq_ok_iff.mp h
    obtain ⟨scopes, -, rfl⟩ := Store.exit_eq_ok_iff.mp hu
    exact hd
  | ensureInScope x | ensureValue x | read x liens =>
    obtain ⟨u, -, ⟨⟩⟩ := map_eq_ok_iff.mp h
    exact hd
  | vacate x p liens =>
    obtain ⟨u, hu, ⟨⟩⟩ := map_eq_ok_iff.mp h
    obtain ⟨-, -, rfl⟩ := Store.vacate_eq_ok_iff.mp hu
    exact Store.distinct_drain hd p
  | fill x =>
    obtain ⟨u, hu, ⟨⟩⟩ := map_eq_ok_iff.mp h
    cases x with
    | none => exact absurd hu refuseFlaw_ne_ok
    | some x =>
      obtain ⟨-, rfl⟩ := Store.fill_eq_ok_iff.mp hu
      exact Store.distinct_own hd _
  | overwrite x liens =>
    obtain ⟨u, hu, ⟨⟩⟩ := map_eq_ok_iff.mp h
    obtain ⟨-, -, rfl⟩ := Store.overwrite_eq_ok_iff.mp hu
    exact Store.distinct_restore hd
  | lend borrower source kind p =>
    obtain ⟨⟨u, loan⟩, hu, ⟨⟩⟩ := map_eq_ok_iff.mp h
    cases source with
    | none => cases hu
    | some x =>
      obtain ⟨-, -, rfl⟩ := Books.lend_eq_ok_iff.mp hu
      exact Store.distinct_encumber hd _ _
  | enter | openForCaller p | releaseUnder x p =>
    cases h
    exact hd
  | endStorage roots =>
    cases h
    exact hd.keepKeys _
  | encumber x kind id =>
    cases h
    exact Store.distinct_encumber hd kind id
  | discharge x id =>
    cases h
    exact Store.distinct_discharge hd id
  | settle p inclusive | settleIn roots =>
    cases h
    exact Walk.distinct_close hd

/-! ### Sessions -/

/-- The books after the requests `rs`, from empty books on. -/
def booksAfter (b : LoanBook) (rs : List Request) : Books :=
  rs.foldl (fun s r => (r.serve b s).2) {}

/-- A **session**: what comes of each of the requests `rs`, made to the books `s` one after the
other, with the books that it leaves behind. -/
def session (b : LoanBook) : Books → List Request → List (Except Fault Reply × Books)
  | _, [] => []
  | s, r :: rs => r.serve b s :: session b (r.serve b s).2 rs

/-- A request that fails leaves the books as they were, and its fault is that of the definitions. -/
theorem serve_of_error {r : Request} {e : Fault} (hd : s.store.cells.Distinct)
    (h : (r.serve b s).1 = .error e) : r.outcome b s = .error e ∧ r.serve b s = (.error e, s) := by
  rw [serve, run_perform hd] at h ⊢
  cases hout : r.outcome b s with
  | ok out =>
    rw [hout] at h
    cases h
  | error e' =>
    rw [hout] at h
    cases h
    exact ⟨rfl, rfl⟩

theorem distinct_serve (hd : s.store.cells.Distinct) (r : Request) :
    (r.serve b s).2.store.cells.Distinct := by
  rw [serve, run_perform hd]
  cases hout : r.outcome b s with
  | ok out => exact distinct_outcome hd hout
  | error e => exact hd

theorem distinct_booksAfter (b : LoanBook) (rs : List Request) :
    (booksAfter b rs).store.cells.Distinct :=
  List.foldlRecOn (motive := fun s : Books => s.store.cells.Distinct) rs _ List.Pairwise.nil
    fun _ hs r _ => distinct_serve hs r

/-- A session is taken up where it was left. -/
theorem session_append (b : LoanBook) (s : Books) (rs later : List Request) :
    session b s (rs ++ later) =
      session b s rs ++ session b (rs.foldl (fun s r => (r.serve b s).2) s) later := by
  induction rs generalizing s with
  | nil => rfl
  | cons r rs ih => rw [List.cons_append, session, ih, session, List.foldl_cons, List.cons_append]

theorem length_session (b : LoanBook) (s : Books) (rs : List Request) :
    (session b s rs).length = rs.length := by
  induction rs generalizing s with
  | nil => rfl
  | cons r rs ih => rw [session, List.length_cons, ih, List.length_cons]

/-- **A request that fails changes nothing.** Whatever was asked for before, from empty books on,
the books it leaves behind are those it was made to, it fails in the same way when it is made again,
and all that is asked for later goes as if it had never been made. The fault is the one that the
definitions of the operations give. -/
theorem failed_changes_nothing (b : LoanBook) (rs : List Request) (r : Request) {e : Fault}
    (h : (r.serve b (booksAfter b rs)).1 = .error e) :
    (r.serve b (booksAfter b rs)).2 = booksAfter b rs ∧
      r.outcome b (booksAfter b rs) = .error e ∧
      r.serve b (booksAfter b (rs ++ [r])) = (.error e, booksAfter b (rs ++ [r])) ∧
      ∀ later,
        (session b {} (rs ++ r :: later)).eraseIdx rs.length = session b {} (rs ++ later) := by
  obtain ⟨hout, hserve⟩ := serve_of_error (distinct_booksAfter b rs) h
  have hsame : booksAfter b (rs ++ [r]) = booksAfter b rs := by
    rw [booksAfter, List.foldl_append, ← booksAfter, List.foldl_cons, hserve]
    rfl
  refine ⟨by rw [hserve], hout, by rw [hsame, hserve], fun later => ?_⟩
  rw [session_append, session_append, ← booksAfter, session, hserve,
    List.eraseIdx_append_of_length_le (Nat.le_of_eq (length_session b {} rs)), length_session,
    Nat.sub_self, List.eraseIdx_cons_zero]

/-- A variable `v` is declared, with a value, and its part `v.a` is moved out. -/
def movesPart : List Request :=
  [.declare { base := "v" } (.named "T") true,
    .vacate (Place.field { base := "v" } "a") 3 []]

/-- The loan of `v.b` to `r`. -/
def lienOnPart : Lien where
  borrower := some { base := "r" }
  kind := .shared
  origin := 2

/-- A move of `v.b`, about which there is nothing to say yet, fails because it is lent, and no cell
was made for it. -/
theorem failed_changes_nothing_moveWhileLent :
    let r := Request.vacate (Place.field { base := "v" } "b") 4 [lienOnPart]
    let e := Fault.violation (.moveWhileLent (Place.field { base := "v" } "b") lienOnPart)
    (r.serve {} (booksAfter {} movesPart)).1 = .error e ∧
      (r.serve {} (booksAfter {} movesPart)).2 = booksAfter {} movesPart ∧
      (booksAfter {} movesPart).store.cells.toList.length = 2 ∧
      ∀ later, (session {} {} (movesPart ++ r :: later)).eraseIdx 2 =
        session {} {} (movesPart ++ later) := by
  obtain ⟨hbooks, -, -, hlater⟩ := failed_changes_nothing {} movesPart
    (.vacate (Place.field { base := "v" } "b") 4 [lienOnPart]) rfl
  exact ⟨rfl, hbooks, rfl, hlater⟩

end Request

end BorrowCheck
