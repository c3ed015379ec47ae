import BorrowCheck.Proofs.InStep

/-!
# Declarations and blocks, read off the text

Which variables are in scope at an operation, and with which types, can be read off the operations
before it: parameters and declarations bring a variable into scope, and the exit of a block takes
those of the block out again. `BorrowCheck.Blocks` follows a body in this way, and looks neither at
values nor at loans.

The store of a walk has the same variables in scope, with the same types and in the same blocks
(`BorrowCheck.Function.models_of_reach`), and the walk is past a return exactly when there was one
(`BorrowCheck.Function.returned_eq_none_iff`). Both rest on what an operation can do to the frame of
a state, which is nothing unless it declares a variable, opens or leaves a block, or returns
(`BorrowCheck.Walk.SameFrame`).
-/

namespace BorrowCheck

/-! ### Blocks of declarations -/

/-- **The declarations in scope**: those of the innermost block, in order, and those of the blocks
around it, innermost first. -/
structure Blocks where
  current : List (String × Ty) := []
  outer : List (List (String × Ty)) := []
deriving DecidableEq

namespace Blocks

/-- Declares a variable in the innermost block. -/
def declare (s : Blocks) (n : String) (t : Ty) : Blocks :=
  { s with current := s.current ++ [(n, t)] }

/-- Opens a block. -/
def enter (s : Blocks) : Blocks :=
  { current := [], outer := s.current :: s.outer }

/-- Leaves the innermost block; the function itself cannot be left. -/
def leave (s : Blocks) : Blocks :=
  match s.outer with
  | [] => s
  | block :: outer => { current := block, outer }

/-- The variables in scope with their types, in the order of their declaration. -/
def vars (s : Blocks) : List (String × Ty) :=
  s.outer.reverse.flatten ++ s.current

/-- Whether the variable of `x` is in scope. -/
def declares (s : Blocks) (x : Place) : Bool :=
  (s.vars.lookup x.base).isSome

/-- The type of `x`, as far as the declarations tell. -/
def ty? (s : Blocks) (policy : Policy) (x : Place) : Option Ty :=
  (s.vars.lookup x.base).bind fun t => Store.tyAlong policy t x.path

/-- One operation. -/
def follow (s : Blocks) (op : Operation) : Blocks :=
  match op.kind with
  | .declare =>
    match op.target with
    | none => s
    | some x => s.declare x.base (op.ty.getD Ty.unknown)
  | .enter => s.enter
  | .exit => s.leave
  | _ => s

theorem vars_declare (s : Blocks) (n : String) (t : Ty) :
    (s.declare n t).vars = s.vars ++ [(n, t)] := by
  simp [vars, declare]

theorem vars_enter (s : Blocks) : s.enter.vars = s.vars := by
  simp [vars, enter]

/-- The variables of the innermost block come last. -/
theorem vars_leave {s : Blocks} (h : s.outer ≠ []) : s.vars = s.leave.vars ++ s.current := by
  cases houter : s.outer with
  | nil => exact absurd houter h
  | cons block outer => simp [vars, leave, houter]

end Blocks

/-- The declarations in scope after the operations `ops` of `f`. -/
def Function.blocksAfter (f : Function) (ops : List Operation) : Blocks :=
  ops.foldl Blocks.follow
    (f.params.foldl (fun s param => s.declare param.name param.ty) {})

theorem Function.blocksAfter_concat (f : Function) (ops : List Operation) (op : Operation) :
    f.blocksAfter (ops ++ [op]) = (f.blocksAfter ops).follow op := by
  rw [blocksAfter, List.foldl_append]
  rfl

/-! ### The variables of a store -/

/-- The store has the variables of the blocks `s` in scope, with their types, and no two of them
have one name. -/
structure Blocks.Models (s : Blocks) (store : Store) : Prop where
  types : store.types = s.vars
  current : store.scopes.current = s.current.map Prod.fst
  outer : store.scopes.outer = s.outer.map (List.map Prod.fst)
  nodup : (s.vars.map Prod.fst).Nodup

namespace Blocks.Models

variable {s : Blocks} {store t : Store} {x : Place}

/-- The blocks know which places are in scope. -/
theorem declares_eq (h : s.Models store) (x : Place) : store.declares x = s.declares x := by
  rw [Store.declares, Blocks.declares, h.types]

theorem ty?_eq (h : s.Models store) (policy : Policy) (x : Place) :
    store.ty? policy x = s.ty? policy x := by
  rw [Store.ty?, Blocks.ty?, h.types]

theorem congr (h : s.Models store) (htypes : t.types = store.types)
    (hscopes : t.scopes = store.scopes) : s.Models t :=
  ⟨htypes.trans h.types, by rw [hscopes, h.current], by rw [hscopes, h.outer], h.nodup⟩

theorem empty : Blocks.Models {} {} :=
  ⟨rfl, rfl, rfl, List.nodup_nil⟩

/-- A declaration puts a variable into the innermost block of both. -/
theorem declare (h : s.Models store) {ty : Ty} {init : Bool}
    (hdecl : store.declare x ty init = .ok t) : (s.declare x.base ty).Models t := by
  obtain ⟨-, hnew, rfl⟩ := Store.declare_eq_ok_iff.mp hdecl
  refine ⟨?_, ?_, h.outer, ?_⟩
  · rw [Blocks.vars_declare, h.types]
  · simp [Blocks.declare, Scopes.declare, h.current]
  · have hx : x.base ∉ s.vars.map Prod.fst := by
      rw [← h.types, ← Store.declares_iff_mem, hnew]
      exact Bool.false_ne_true
    rw [Blocks.vars_declare, List.map_append, List.nodup_append]
    refine ⟨h.nodup, by simp, fun n hn m hm => ?_⟩
    rw [List.map_singleton, List.mem_singleton] at hm
    rintro rfl
    rw [hm] at hn
    exact hx hn

theorem enter (h : s.Models store) : s.enter.Models store.enter :=
  ⟨by rw [Blocks.vars_enter]; exact h.types, rfl,
    by simp [Blocks.enter, Store.enter, Scopes.enter, h.current, h.outer],
    by rw [Blocks.vars_enter]; exact h.nodup⟩

/-- A block can be left in the store when it can be left in the text. -/
theorem exit?_eq_none_iff (h : s.Models store) :
    store.scopes.exit? = none ↔ s.outer = [] := by
  rw [Scopes.exit?, h.outer]
  cases s.outer <;> simp

/-- Leaving a block ends the storage of what was declared in it, and of nothing else. -/
theorem leave (h : s.Models store) {dying : List String} {scopes : Scopes}
    (hexit : store.scopes.exit? = some (dying, scopes)) (htypes : t.types = store.types)
    (hscopes : t.scopes = scopes) : s.leave.Models (t.endStorage dying) := by
  have hopen : s.outer ≠ [] := fun hnil => by
    rw [h.exit?_eq_none_iff.mpr hnil] at hexit
    cases hexit
  have hnodup := h.nodup
  rw [Blocks.vars_leave hopen, List.map_append, List.nodup_append] at hnodup
  have hdying : dying = s.current.map Prod.fst ∧
      scopes.current = s.leave.current.map Prod.fst ∧
      scopes.outer = s.leave.outer.map (List.map Prod.fst) := by
    rw [Scopes.exit?, h.outer, h.current] at hexit
    unfold Blocks.leave
    cases houter : s.outer with
    | nil => exact absurd houter hopen
    | cons block outer =>
      rw [houter] at hexit
      obtain ⟨rfl, rfl⟩ := Prod.mk.inj (Option.some.inj hexit)
      exact ⟨rfl, rfl, rfl⟩
  obtain ⟨rfl, hcurrent, houter⟩ := hdying
  refine ⟨?_, by rw [← hcurrent, ← hscopes]; rfl, by rw [← houter, ← hscopes]; rfl, hnodup.1⟩
  -- names are different, so what was declared outside stays
  have hkeep : ∀ d ∈ s.leave.vars, (!(s.current.map Prod.fst).contains d.1) = true := by
    intro d hd
    rw [Bool.not_eq_true', List.contains_eq_mem, decide_eq_false_iff_not]
    exact fun hmem => hnodup.2.2 d.1 (List.mem_map_of_mem hd) d.1 hmem rfl
  have hdrop : ∀ d ∈ s.current, ¬(!(s.current.map Prod.fst).contains d.1) = true := by
    intro d hd
    rw [Bool.not_eq_true', List.contains_eq_mem, decide_eq_false_iff_not, not_not]
    exact List.mem_map_of_mem hd
  rw [Store.endStorage, htypes, h.types, Blocks.vars_leave hopen, List.filter_append,
    List.filter_eq_self.mpr hkeep, List.filter_eq_nil_iff.mpr hdrop, List.append_nil]

end Blocks.Models

/-! ### What most operations leave alone -/

/-- Whether an action is none of those that declare a variable, return, or open or leave a block. -/
def Action.keepsFrame : Action → Bool
  | declare _ _ | ret _ | enter | exit => false
  | _ => true

/-- An action that writes changes no declarations. -/
theorem Action.keepsFrame_of_written {a : Action} {x : Place} (h : a.written? = some x) :
    a.keepsFrame = true := by
  cases a with
  | assign _ _ | move _ _ | borrow _ _ _ | call _ _ => rfl
  | declare _ _ | deref _ | use _ | ret _ | enter | exit => cases h

namespace Walk

variable {c : Context} {w u v : State} {x y : Place} {p : Point} {op : Operation} {a : Action}

/-- **The frame of a state**, its variables, blocks and return, is the same in `u` as in `w`. -/
structure SameFrame (w u : State) : Prop where
  types : u.store.types = w.store.types
  scopes : u.store.scopes = w.store.scopes
  returned : u.returned = w.returned

namespace SameFrame

theorem refl (w : State) : SameFrame w w :=
  ⟨rfl, rfl, rfl⟩

theorem trans (h : SameFrame w u) (h' : SameFrame u v) : SameFrame w v :=
  ⟨h'.types.trans h.types, h'.scopes.trans h.scopes, h'.returned.trans h.returned⟩

theorem declares_eq (h : SameFrame w u) (x : Place) : u.store.declares x = w.store.declares x :=
  Store.declares_of_types h.types

end SameFrame

theorem sameFrame_settled (w : State) (p : Point) (inclusive : Bool) :
    SameFrame w (settled w p inclusive) :=
  ⟨Books.close_types _ _, Books.close_scopes _ _, rfl⟩

/-- A value that leaves its place leaves types and scopes alone. -/
theorem sameFrame_vacate (h : vacate w x p = .ok u) : SameFrame w u := by
  obtain ⟨-, -, -, -, rfl⟩ := vacate_eq_ok_iff.mp h
  exact ⟨rfl, rfl, rfl⟩

theorem sameFrame_handOver (h : handOver c w x p = .ok u) : SameFrame w u := by
  rcases handOver_cases h with ⟨-, rfl⟩ | hvac
  · exact .refl u
  · exact sameFrame_vacate hvac

/-- A loan leaves types and scopes alone. -/
theorem sameFrame_lend {b : LoanBook} {borrower : Option Place} {kind : BorrowKind} {books : Books}
    {l : Loan} (h : w.toBooks.lend b borrower x kind p = .ok (books, l)) :
    SameFrame w { w with toBooks := books } := by
  obtain ⟨-, -, rfl⟩ := Books.lend_eq_ok_iff.mp h
  exact ⟨Store.encumber_types _ _, Store.encumber_scopes _ _, rfl⟩

theorem sameFrame_borrow {borrower : Option Place} {kind : BorrowKind}
    (h : borrow c w borrower kind x p = .ok u) : SameFrame w u := by
  obtain ⟨-, -, -, books, l, hlend, rfl⟩ := borrow_cases h
  exact sameFrame_lend hlend

theorem sameFrame_passArg {d : Arg} (h : passArg c p w d = .ok u) : SameFrame w u := by
  rcases passArg_cases h with ⟨-, hover⟩ | ⟨kind, -, hborrow⟩
  · exact sameFrame_handOver hover
  · exact sameFrame_borrow hborrow

/-- The arguments of a call, by induction on their list. -/
theorem sameFrame_passAll {args : List Arg} (h : args.foldlM (passArg c p) w = .ok u) :
    SameFrame w u := by
  induction args generalizing w with
  | nil =>
    obtain rfl := pure_eq_ok_iff.mp h
    exact .refl w
  | cons d args ih =>
    obtain ⟨v, hv, hrest⟩ := foldlM_cons_eq_ok_iff.mp h
    exact (sameFrame_passArg hv).trans (ih hrest)

/-- The loans that a move renews, by induction on their list. -/
theorem sameFrame_lendAll {loans : List Loan} {books : Books}
    (h : lendAll c y p w.toBooks loans = .ok books) : SameFrame w { w with toBooks := books } := by
  induction loans generalizing w with
  | nil =>
    obtain rfl := pure_eq_ok_iff.mp h
    exact .refl w
  | cons l loans ih =>
    obtain ⟨first, hfirst, hrest⟩ := foldlM_cons_eq_ok_iff.mp h
    obtain ⟨⟨_, m⟩, hm, hpure⟩ := bind_eq_ok_iff.mp hfirst
    obtain rfl := pure_eq_ok_iff.mp hpure
    exact (sameFrame_lend hm).trans (ih hrest)

theorem sameFrame_move (h : move c w y x p = .ok u) : SameFrame w u := by
  obtain ⟨-, books, hlend, ⟨-, rfl⟩ | hvac⟩ := move_cases h
  · exact sameFrame_lendAll hlend
  · exact (sameFrame_lendAll hlend).trans (sameFrame_vacate hvac)

theorem sameFrame_write {closed : List Loan} (h : write c w closed x p = .ok u) :
    SameFrame w u := by
  obtain ⟨-, ⟨-, -, rfl⟩ | ⟨-, store, ⟨-, -, hfill⟩ | ⟨-, rfl⟩, rfl⟩⟩ := write_cases h
  · exact .refl u
  · obtain ⟨-, rfl⟩ := Store.fill_eq_ok_iff.mp hfill
    exact ⟨rfl, rfl, rfl⟩
  · exact ⟨rfl, rfl, rfl⟩

/-- The frame changes with declarations, at both ends of a block and on a return only. -/
theorem Performed.sameFrame (h : Performed c p w u a) (ha : a.keepsFrame = true) :
    SameFrame w u := by
  cases a with
  | assign x ys => exact h.2 ▸ .refl w
  | deref x | use x => exact h.2 ▸ .refl w
  | move y x => exact sameFrame_move h
  | borrow kind y x => exact sameFrame_borrow h.2
  | call args result => exact sameFrame_passAll h
  | declare _ _ | ret _ | enter | exit => cases ha

/-- **A step keeps the frame**, but for the four kinds of operations that are there to change it. -/
theorem sameFrame_step (hstep : step c w op = .ok v) (hact : op.action = .ok a)
    (ha : a.keepsFrame = true) : SameFrame w v := by
  obtain ⟨-, a', u, hact', hperf, hend⟩ := step_cases hstep
  obtain rfl : a = a' := Except.ok.inj (hact.symm.trans hact')
  have hframe := (sameFrame_settled w op.point false).trans ((perform_cases hperf).1.sameFrame ha)
  have hsettled := hframe.trans (sameFrame_settled u op.point true)
  rcases hend with ⟨-, rfl⟩ | ⟨x, -, hwrite⟩
  · exact hsettled
  · exact hsettled.trans (sameFrame_write hwrite)

/-- An operation that is there to change the frame writes nothing. -/
theorem exists_performed (hstep : step c w op = .ok v) (hact : op.action = .ok a)
    (ha : a.keepsFrame = false) :
    ∃ u, Performed c op.point (settled w op.point false) u a ∧ v = settled u op.point true := by
  obtain ⟨-, a', u, hact', hperf, hend⟩ := step_cases hstep
  obtain rfl : a = a' := Except.ok.inj (hact.symm.trans hact')
  rcases hend with ⟨-, rfl⟩ | ⟨x, hx, -⟩
  · exact ⟨u, (perform_cases hperf).1, rfl⟩
  · rw [Action.keepsFrame_of_written hx] at ha
    cases ha

end Walk

/-! ### Along a walk -/

/-- A variable is declared with the type that the operation gives. -/
theorem Operation.ty_of_declare {op : Operation} {x : Place} {ty : Ty}
    (h : op.action = .ok (.declare x ty)) : ty = op.ty.getD Ty.unknown := by
  obtain ⟨hkind, htarget⟩ := action_cases h
  simp only [action, hkind, getTarget, htarget] at h
  cases h
  rfl

/-- After an operation the walk is past a return when the operation is one. -/
theorem Walk.returned_of_step {c : Context} {w v : State} {op : Operation}
    (hstep : step c w op = .ok v) : v.returned = none ↔ op.kind ≠ .ret := by
  obtain ⟨hret, a, -, hact, -⟩ := step_cases hstep
  have hdoes := Operation.action_cases hact
  cases ha : a.keepsFrame with
  | true =>
    rw [(sameFrame_step hstep hact ha).returned, hret]
    cases a with
    | assign _ _ | move _ _ | borrow _ _ _ | deref _ | use _ | call _ _ => simp [hdoes.1]
    | declare _ _ | ret _ | enter | exit => cases ha
  | false =>
    obtain ⟨u, hperf, rfl⟩ := exists_performed hstep hact ha
    rw [(sameFrame_settled u op.point true).returned]
    have hbefore := (sameFrame_settled w op.point false).returned.trans hret
    cases a with
    | declare x ty =>
      obtain ⟨store, -, rfl⟩ := hperf
      simp [hbefore, hdoes.1]
    | ret x =>
      cases x with
      | none => simp [show u = _ from hperf, hdoes.1]
      | some x =>
        obtain ⟨t, -, rfl⟩ := hperf
        simp [hdoes.1]
    | enter => simp [show u = _ from hperf, hbefore, show op.kind = .enter from hdoes]
    | exit =>
      obtain ⟨dying, scopes, -, -, rfl⟩ := exit_cases hperf
      simp [hbefore, show op.kind = .exit from hdoes]
    | assign _ _ | move _ _ | borrow _ _ _ | deref _ | use _ | call _ _ => cases ha

namespace Blocks

variable {c : Walk.Context} {w v : Walk.State} {s : Blocks} {op : Operation}

/-- **The step**: the store goes on to have the variables of the text in scope. -/
theorem Models.step (h : s.Models w.store) (hstep : Walk.step c w op = .ok v) :
    (s.follow op).Models v.store := by
  obtain ⟨-, a, -, hact, -⟩ := Walk.step_cases hstep
  have hdoes := Operation.action_cases hact
  cases ha : a.keepsFrame with
  | true =>
    have hframe := Walk.sameFrame_step hstep hact ha
    have hfollow : s.follow op = s := by
      cases a with
      | assign _ _ | move _ _ | borrow _ _ _ | deref _ | use _ | call _ _ =>
        simp only [follow, hdoes.1]
      | declare _ _ | ret _ | enter | exit => cases ha
    rw [hfollow]
    exact h.congr hframe.types hframe.scopes
  | false =>
    obtain ⟨u, hperf, rfl⟩ := Walk.exists_performed hstep hact ha
    have hsettled := Walk.sameFrame_settled w op.point false
    have h' := h.congr hsettled.types hsettled.scopes
    have hafter := Walk.sameFrame_settled u op.point true
    refine Models.congr ?_ hafter.types hafter.scopes
    cases a with
    | declare x ty =>
      obtain ⟨store, hstore, rfl⟩ := hperf
      simp only [follow, hdoes.1, hdoes.2, ← Operation.ty_of_declare hact]
      exact h'.declare hstore
    | ret x =>
      simp only [follow, hdoes.1]
      cases x with
      | none => exact h'.congr (by rw [hperf]) (by rw [hperf])
      | some x =>
        obtain ⟨v, hret, rfl⟩ := hperf
        have hframe := Walk.sameFrame_handOver (Walk.ret_cases hret).2
        exact h'.congr hframe.types hframe.scopes
    | enter =>
      simp only [follow, show op.kind = .enter from hdoes]
      obtain rfl := hperf
      exact h'.enter
    | exit =>
      simp only [follow, show op.kind = .exit from hdoes]
      obtain ⟨dying, scopes, hexit, -, rfl⟩ := Walk.exit_cases hperf
      exact h'.leave hexit (Books.close_types _ _) (Books.close_scopes _ _)
    | assign _ _ | move _ _ | borrow _ _ _ | deref _ | use _ | call _ _ => cases ha

/-- The parameters are declared in the outermost block, by induction on their list. -/
theorem Models.receiveAll {params : List Param} {store store' : Store} (h : s.Models store)
    (hdecl : params.foldlM (fun store param =>
      store.declare { base := param.name } param.ty true) store = .ok store') :
    (params.foldl (fun s param => s.declare param.name param.ty) s).Models
      store' := by
  induction params generalizing s store with
  | nil =>
    obtain rfl := pure_eq_ok_iff.mp hdecl
    exact h
  | cons param params ih =>
    obtain ⟨next, hnext, hrest⟩ := foldlM_cons_eq_ok_iff.mp hdecl
    exact ih (h.declare hnext) hrest

end Blocks

namespace Function

variable {f : Function} {policy : Policy} {pre post : List Operation} {w : Walk.State}

/-- **The variables of the walk are those of the text**: in every state that it reaches the store
has in scope what was declared, with the declared types and block by block. -/
theorem models_of_reach (hops : f.ops = pre ++ post) (hreach : f.reach policy pre = .ok w) :
    (f.blocksAfter pre).Models w.store := by
  refine reach_induction (P := fun pre w => (f.blocksAfter pre).Models w.store) (fun store hstore =>
    Blocks.Models.empty.receiveAll hstore) ?_ hops hreach
  intro pre op post w t _ _ h hstep
  rw [blocksAfter_concat]
  exact h.step hstep

/-- The walk is past a return when there was one. -/
theorem returned_eq_none_iff (hops : f.ops = pre ++ post) (hreach : f.reach policy pre = .ok w) :
    w.returned = none ↔ ∀ o ∈ pre, o.kind ≠ .ret := by
  refine reach_induction (P := fun pre w => w.returned = none ↔ ∀ o ∈ pre, o.kind ≠ .ret)
    (fun store _ => by simp [start]) ?_ hops hreach
  intro pre op post w t _ _ h hstep
  have hpre := h.mp (Walk.step_cases hstep).1
  rw [Walk.returned_of_step hstep]
  simp only [List.mem_append, List.mem_singleton]
  exact ⟨fun hop o ho => ho.elim (hpre o) fun ho => ho ▸ hop, fun hall => hall op (.inr rfl)⟩

end Function

end BorrowCheck
