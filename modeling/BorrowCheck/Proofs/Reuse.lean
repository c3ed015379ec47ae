import BorrowCheck.Proofs.Immaterial
import BorrowCheck.Proofs.Independent
import BorrowCheck.Proofs.Lexical
import BorrowCheck.Proofs.Turns

/-!
# Names that are used again

A name can be declared again when its variable is out of scope. The new variable lives up to the
exit of the block in which it is declared, and could be given another name for that time
(`BorrowCheck.Function.renameLife`). This changes nothing about the verdict
(`BorrowCheck.Function.fareAlike_renameLife`), under two conditions:

* references were stored in the old variable in scope only. What a variable holds is forgotten where
  its block is left, so nothing is known about the old variable when the new one is declared
  (`BorrowCheck.Survey.HeldInScope`);
* no loan of a place behind the reference in one of the two is live in the time of the other. The
  checker takes such a loan for one of the variable that has the name by then
  (`BorrowCheck.Function.not_fareAlike_renameLife`).

A variable that is declared while another one of its name is in scope is refused.
-/

namespace BorrowCheck

/-! ### Other names -/

/-- The place, with the variable `x` called `y`. -/
def Place.rebase (x y : String) (z : Place) : Place :=
  if z.base = x then { z with base := y } else z

namespace Operation

variable {φ : Place → Place} {x y : String} {op : Operation}

/-- The operation with its places changed by `φ`. -/
def mapPlaces (φ : Place → Place) (op : Operation) : Operation :=
  { op with
    target := op.target.map φ
    sources := op.sources.map φ
    args := op.args.map fun a => { a with place := φ a.place } }

/-- The operation, with the variable `x` called `y`. -/
def rebase (x y : String) (op : Operation) : Operation :=
  op.mapPlaces (Place.rebase x y)

theorem named_mapPlaces (φ : Place → Place) (op : Operation) :
    (op.mapPlaces φ).named = op.named.map φ := by
  simp [named, mapPlaces, Function.comp_def, Option.toList_map]

theorem mapPlaces_mapPlaces (φ ψ : Place → Place) (op : Operation) :
    (op.mapPlaces φ).mapPlaces ψ = op.mapPlaces fun z => ψ (φ z) := by
  simp [mapPlaces, Function.comp_def]

theorem mapPlaces_eq_self (h : ∀ z ∈ op.named, φ z = z) : op.mapPlaces φ = op := by
  have htarget : op.target.map φ = op.target :=
    (Option.map_congr fun z hz => h z (by simp [named, hz])).trans Option.map_id_apply
  have hsources : op.sources.map φ = op.sources :=
    (List.map_congr_left fun z hz => h z (by simp [named, hz])).trans (List.map_id _)
  have hargs : op.args.map (fun a => { a with place := φ a.place }) = op.args := by
    refine (List.map_congr_left fun a ha => ?_).trans (List.map_id _)
    rw [h a.place (List.mem_append_right _ (List.mem_map_of_mem ha)), id]
  rw [mapPlaces, htarget, hsources, hargs]

/-- A place that the renamed operation names is in `y`, or it is named before and not in `x`. -/
theorem named_rebase {z : Place} (hz : z ∈ (op.rebase x y).named) :
    z.base = y ∨ (z ∈ op.named ∧ z.base ≠ x) := by
  rw [rebase, named_mapPlaces] at hz
  obtain ⟨z', hz', rfl⟩ := List.mem_map.mp hz
  unfold Place.rebase
  split
  · exact Or.inl rfl
  next hne => exact Or.inr ⟨hz', hne⟩

end Operation

/-! ### Blocks of the text -/

namespace Blocks

variable {s : Blocks} {n : String} {k : Nat} {op : Operation} {ops : List Operation}

/-- The names that are declared, block by block. -/
def scopes (s : Blocks) : Scopes :=
  { current := s.current.map Prod.fst, outer := s.outer.map (List.map Prod.fst) }

theorem declares_iff {x : Place} : s.declares x = true ↔ x.base ∈ s.scopes.names := by
  rw [declares, List.lookup_isSome_iff]
  simp only [vars, scopes, Scopes.names, List.mem_append, List.mem_flatten, List.mem_reverse,
    List.mem_map]
  grind

/-- Each of the operations `ops` after `s` that stores a reference in the variable `n` has it in
scope. -/
def StoresInScope (n : String) : Blocks → List Operation → Prop
  | _, [] => True
  | s, op :: ops =>
    (op.stored?.map Place.base = some n → s.declares { base := n } = true) ∧
      StoresInScope n (s.follow op) ops

instance decidableStoresInScope (n : String) :
    (s : Blocks) → (ops : List Operation) → Decidable (StoresInScope n s ops)
  | _, [] => inferInstanceAs (Decidable True)
  | s, op :: ops =>
    have := decidableStoresInScope n (s.follow op) ops
    inferInstanceAs (Decidable ((_ = some n → _ = true) ∧ _))

theorem storesInScope_append {more : List Operation} :
    StoresInScope n s (ops ++ more) ↔
      StoresInScope n s ops ∧ StoresInScope n (ops.foldl follow s) more := by
  induction ops generalizing s with
  | nil => simp [StoresInScope]
  | cons op ops ih => simp only [List.cons_append, StoresInScope, ih, List.foldl_cons, and_assoc]

theorem storesInScope_of_unnamed (h : ∀ op ∈ ops, ∀ z ∈ op.named, z.base ≠ n) :
    StoresInScope n s ops := by
  induction ops generalizing s with
  | nil => exact trivial
  | cons op ops ih =>
    refine ⟨fun hn => ?_, ih fun o ho => h o (List.mem_cons_of_mem _ ho)⟩
    obtain ⟨z, hz, hbase⟩ := Option.map_eq_some_iff.mp hn
    have hnamed : z ∈ op.named := by simp [Operation.named, Operation.target_of_stored? hz]
    exact absurd hbase (h op List.mem_cons_self z hnamed)

/-- How many of the operations `ops` belong to a block, the one that leaves it included, when `k`
blocks inside it are open. A block that is not left goes on to the end. -/
def blockLength : Nat → List Operation → Nat
  | _, [] => 0
  | k, op :: ops =>
    match op.kind with
    | .enter => blockLength (k + 1) ops + 1
    | .exit =>
      match k with
      | 0 => 1
      | k + 1 => blockLength k ops + 1
    | _ => blockLength k ops + 1

theorem blockLength_map {φ : Operation → Operation} (h : ∀ op, (φ op).kind = op.kind) (k : Nat)
    (ops : List Operation) : blockLength k (ops.map φ) = blockLength k ops := by
  induction ops generalizing k with
  | nil => rfl
  | cons op ops ih => simp only [List.map_cons, blockLength, h, ih]

/-- The variable `n` is declared in a block of `s` inside which `k` blocks are open. That block can
be left, and none around it declares `n`. -/
def Encloses (s : Blocks) (n : String) (k : Nat) : Prop :=
  ∃ inner block outer, s.scopes.current :: s.scopes.outer = inner ++ block :: outer ∧
    inner.length = k ∧ n ∈ block ∧ n ∉ outer.flatten ∧ outer ≠ []

theorem Encloses.mem_names (h : s.Encloses n k) : n ∈ s.scopes.names := by
  obtain ⟨inner, block, outer, hstack, -, hn, -⟩ := h
  have hnames : s.scopes.names = (inner ++ block :: outer).flatten := by
    rw [← hstack, List.flatten_cons, Scopes.names]
  rw [hnames, List.mem_flatten]
  exact ⟨block, by simp, hn⟩

theorem Encloses.declare (h : s.Encloses n k) (m : String) (t : Ty) :
    (s.declare m t).Encloses n k := by
  obtain ⟨inner, block, outer, hstack, hk, hn, hout⟩ := h
  have hdeclare : (s.declare m t).scopes = s.scopes.declare m := by
    simp [scopes, Blocks.declare, Scopes.declare]
  rw [Encloses, hdeclare]
  cases inner with
  | nil =>
    obtain ⟨hblock, houter⟩ := List.cons.inj hstack
    refine ⟨[], block ++ [m], outer, ?_, hk, List.mem_append_left _ hn, hout⟩
    simp [Scopes.declare, hblock, houter]
  | cons first inner =>
    obtain ⟨hfirst, houter⟩ := List.cons.inj hstack
    refine ⟨(first ++ [m]) :: inner, block, outer, ?_, hk, hn, hout⟩
    simp [Scopes.declare, hfirst, houter]

theorem Encloses.enter (h : s.Encloses n k) : s.enter.Encloses n (k + 1) := by
  obtain ⟨inner, block, outer, hstack, hk, hn, hout⟩ := h
  refine ⟨[] :: inner, block, outer, ?_, by rw [List.length_cons, hk], hn, hout⟩
  rw [List.cons_append, ← hstack]
  rfl

/-- To leave a block takes the innermost one away. -/
theorem Encloses.stack_leave {inner outer : List (List String)} {first block : List String}
    (hstack : s.scopes.current :: s.scopes.outer = first :: inner ++ block :: outer) :
    s.leave.scopes.current :: s.leave.scopes.outer = inner ++ block :: outer := by
  rw [List.cons_append] at hstack
  obtain ⟨-, houter⟩ := List.cons.inj hstack
  rw [← houter]
  unfold Blocks.leave
  split
  next hnone => simp [scopes, hnone] at houter
  next next outer' hsome => simp [scopes, hsome]

theorem Encloses.leave (h : s.Encloses n (k + 1)) : s.leave.Encloses n k := by
  obtain ⟨inner, block, outer, hstack, hk, hn, hout⟩ := h
  obtain ⟨first, inner, rfl⟩ := List.exists_cons_of_length_eq_add_one hk
  exact ⟨inner, block, outer, stack_leave hstack, Nat.succ.inj hk, hn, hout⟩

theorem Encloses.not_mem_names_leave (h : s.Encloses n 0) : n ∉ s.leave.scopes.names := by
  obtain ⟨inner, block, outer, hstack, hk, -, hn, hout⟩ := h
  obtain rfl := List.eq_nil_of_length_eq_zero hk
  obtain ⟨next, outer, rfl⟩ := List.exists_cons_of_ne_nil hout
  have hleft : s.leave.scopes.current :: s.leave.scopes.outer = [] ++ next :: outer :=
    stack_leave hstack
  rwa [Scopes.names, ← List.flatten_cons, hleft]

/-- An operation that opens or leaves no block stays in the block. -/
theorem Encloses.follow (h : s.Encloses n k) (henter : op.kind ≠ .enter) (hexit : op.kind ≠ .exit) :
    (s.follow op).Encloses n k := by
  unfold Blocks.follow
  split
  · split
    · exact h
    · exact h.declare _ _
  next hkind => exact absurd hkind henter
  next hkind => exact absurd hkind hexit
  · exact h

/-- The variable `n` **lives for** the first `i` of the operations `ops` after `s`: these store
references in it in scope only, and after them it is out of scope. -/
def LivesFor (n : String) (i : Nat) (s : Blocks) (ops : List Operation) : Prop :=
  StoresInScope n s (ops.take i) ∧
    (i < ops.length → n ∉ ((ops.take i).foldl Blocks.follow s).scopes.names)

theorem LivesFor.cons {i : Nat} (hn : n ∈ s.scopes.names) (h : LivesFor n i (s.follow op) ops) :
    LivesFor n (i + 1) s (op :: ops) := by
  rw [LivesFor, List.take_succ_cons]
  exact ⟨⟨fun _ => declares_iff.mpr hn, h.1⟩, fun hlt => h.2 (Nat.lt_of_succ_lt_succ hlt)⟩

/-- **A variable lives up to the exit of its block.** -/
theorem Encloses.livesFor (h : s.Encloses n k) (ops : List Operation) :
    LivesFor n (blockLength k ops) s ops := by
  induction ops generalizing s k with
  | nil => exact ⟨trivial, fun hlt => absurd hlt (Nat.lt_irrefl 0)⟩
  | cons op ops ih =>
    unfold blockLength
    split
    next hkind =>
      refine (ih ?_).cons h.mem_names
      rw [Blocks.follow, hkind]
      exact h.enter
    next hkind =>
      have hfollow : s.follow op = s.leave := by rw [Blocks.follow, hkind]
      cases k with
      | zero =>
        -- the exit is the last operation of the block
        refine ⟨⟨fun _ => declares_iff.mpr h.mem_names, trivial⟩, fun _ => ?_⟩
        show n ∉ (s.follow op).scopes.names
        rw [hfollow]
        exact h.not_mem_names_leave
      | succ k =>
        refine (ih ?_).cons h.mem_names
        rw [hfollow]
        exact h.leave
    next henter hexit => exact (ih (h.follow henter hexit)).cons h.mem_names

end Blocks

/-! ### What a survey knows about variables in scope -/

namespace Survey

variable {s : Survey} {b : Blocks} {f : Function} {n : String} {op : Operation}
  {ops : List Operation}

/-- An operation changes the blocks of a survey as it changes those of the text. -/
theorem scopes_observe (h : s.scopes = b.scopes) (op : Operation) :
    (s.observe op).scopes = (b.follow op).scopes := by
  unfold Survey.observe Blocks.follow
  cases op.kind with
  | declare =>
    cases op.target with
    | none => exact h
    | some x => simp [Survey.forget, h, Blocks.scopes, Blocks.declare, Scopes.declare]
  | enter => simp [h, Blocks.scopes, Blocks.enter, Scopes.enter]
  | exit =>
    simp only [Survey.exit, Scopes.exit?, Blocks.leave, h, Blocks.scopes]
    cases houter : b.outer with
    | nil => simpa [Blocks.scopes, houter] using h
    | cons block outer => simp
  | move => cases op.source <;> simp [h]
  | borrow kind => cases op.target <;> cases op.source <;> simp [h]
  | assign | deref | use | ret | call | unknown tag => simp [h]

theorem scopes_receiveAll (h : s.scopes = b.scopes) (entry : Point) (params : List Param) :
    (params.foldl (Survey.receive entry) s).scopes =
      (params.foldl (fun b param => b.declare param.name param.ty) b).scopes := by
  induction params generalizing s b with
  | nil => exact h
  | cons param params ih =>
    refine ih ?_
    simp [h, Blocks.scopes, Blocks.declare, Scopes.declare]

/-- **The blocks of a survey are those of the text.** -/
theorem scopes_after (f : Function) (ops : List Operation) :
    (after f ops).scopes = (f.blocksAfter ops).scopes := by
  induction ops using List.reverseRecOn with
  | nil => exact scopes_receiveAll rfl f.entry f.params
  | append_singleton ops op ih =>
    rw [after_concat, Function.blocksAfter_concat]
    exact scopes_observe ih op

/-- The variable `n` holds loans in scope only. -/
def HeldInScope (s : Survey) (n : String) : Prop :=
  ∀ e ∈ s.holders.toList, e.1.base = n → n ∈ s.scopes.names

theorem HeldInScope.ignores (h : s.HeldInScope n) (hn : n ∉ s.scopes.names) : s.Ignores n :=
  ⟨fun e he heq => hn (h e he heq), hn⟩

theorem HeldInScope.receive (h : s.HeldInScope n) (entry : Point) (param : Param) :
    (Survey.receive entry s param).HeldInScope n := by
  intro e he hbase
  rw [scopes_receive, Scopes.mem_names_declare]
  unfold Survey.receive at he
  split at he
  · exact Or.inl (h e he hbase)
  · rcases Place.Map.mem_put he with ⟨he, -⟩ | ⟨hsame, -⟩
    · exact Or.inl (h e he hbase)
    · exact Or.inr (hbase.symm.trans (Place.base_eq_of_same hsame))

/-- A variable in scope stays there, unless a block is left. -/
theorem mem_names_observe (hn : n ∈ s.scopes.names) (hexit : op.kind ≠ .exit) :
    n ∈ (s.observe op).scopes.names := by
  unfold Survey.observe
  cases hkind : op.kind with
  | declare =>
    cases op.target with
    | none => exact hn
    | some x => exact Scopes.mem_names_declare.mpr (Or.inl hn)
  | enter => exact hn
  | exit => exact absurd hkind hexit
  | move => cases op.source <;> simpa using hn
  | borrow kind => cases op.target <;> cases op.source <;> simpa using hn
  | assign | deref | use | ret | call | unknown tag => simpa using hn

/-- **The step**: a variable comes to hold a loan when an operation stores a reference in it, and
holds none any more when its block is left. -/
theorem HeldInScope.observe (h : s.HeldInScope n)
    (hop : op.stored?.map Place.base = some n → n ∈ s.scopes.names) :
    (s.observe op).HeldInScope n := by
  intro e he hbase
  by_cases hexit : op.kind = .exit
  · rw [Survey.observe, hexit] at he ⊢
    dsimp only [Survey.exit] at he ⊢
    cases hleft : s.scopes.exit? with
    | none =>
      rw [hleft] at he
      exact h e he hbase
    | some left =>
      rw [hleft] at he
      obtain ⟨he, halive⟩ := Place.Map.mem_keepKeys.mp he
      have hn := h e he hbase
      rw [Scopes.names_of_exit? hleft, List.mem_append] at hn
      refine hn.resolve_left fun hdead => ?_
      rw [hbase, List.contains_iff_mem.mpr hdead] at halive
      cases halive
  · have hholds : (Recast.same fun m => m = n → n ∈ s.scopes.names).Covers s.holders := h
    have hafter := Recast.covers_observe hholds fun x hx hxn =>
      hop (Option.map_eq_some_iff.mpr ⟨x, hx, hxn⟩)
    exact mem_names_observe (hafter e he hbase) hexit

/-- **The run**: a variable in which references are stored in scope only holds loans in scope
only. -/
theorem heldInScope_after (h : Blocks.StoresInScope n (f.blocksAfter []) ops) :
    (after f ops).HeldInScope n := by
  induction ops using List.reverseRecOn with
  | nil =>
    have hempty : HeldInScope {} n := List.forall_mem_nil _
    exact List.foldlRecOn (motive := fun s => s.HeldInScope n) f.params (Survey.receive f.entry)
      hempty fun s hs param _ => hs.receive f.entry param
  | append_singleton ops op ih =>
    rw [Blocks.storesInScope_append] at h
    rw [after_concat]
    refine (ih h.1).observe ?_
    rw [scopes_after, ← Blocks.declares_iff (x := { base := n })]
    exact h.2.1

end Survey

namespace Recast

variable {x y : String} {op : Operation}

/-- What is not called `y` keeps its name. -/
theorem merge_operation (h : ∀ z ∈ op.named, z.base ≠ y) : (merge x y).operation op = op := by
  have hplace : ∀ z ∈ op.named, (merge x y).place z = z := by
    intro z hz
    simp [place, merge, h z hz]
  exact Operation.mapPlaces_eq_self hplace

/-- To call `y` by the name `x` takes the renaming of `x` back. -/
theorem merge_rebase (h : ∀ z ∈ op.named, z.base ≠ y) :
    (merge x y).operation (op.rebase x y) = op := by
  have hplace : ∀ z ∈ op.named, (merge x y).place (z.rebase x y) = z := by
    intro z hz
    unfold Place.rebase
    split
    next heq => simp [place, merge, ← heq]
    next => simp [place, merge, h z hz]
  exact (Operation.mapPlaces_mapPlaces _ _ op).trans (Operation.mapPlaces_eq_self hplace)

end Recast

/-- A reference is stored in a variable in scope. -/
theorem Walk.declares_of_stored {c : Context} {w t : State} {op : Operation} {z : Place}
    (hstep : step c w op = .ok t) (hz : op.stored? = some z) : w.store.declares z = true := by
  obtain ⟨-, a, u, hact, hperf, -⟩ := step_cases hstep
  have hdoes := Operation.action_cases hact
  have hdone := (perform_cases hperf).1
  rw [← (sameFrame_settled w op.point false).declares_eq]
  unfold Operation.stored? at hz
  cases a with
  | move y x =>
    rw [hdoes.1, hdoes.2.1] at hz
    exact Option.some.inj hz ▸ (move_cases hdone).1
  | borrow kind y x =>
    rw [hdoes.1, hdoes.2.1] at hz
    exact Option.some.inj hz ▸ hdone.1
  | enter | exit =>
    rw [show op.kind = _ from hdoes] at hz
    cases hz
  | declare _ _ | assign _ _ | deref _ | use _ | call _ _ | ret _ =>
    rw [hdoes.1] at hz
    cases hz

namespace Function

variable {f g : Function} {policy : Policy} {pre rest : List Operation} {decl op : Operation}
  {x y n : String}

/-! ### Renaming a variable for its life -/

/-- The functions `f` and `g` **fare alike**: both are accepted, or both are rejected under the same
rule at the same point. -/
def FareAlike (policy : Policy) (f g : Function) : Prop :=
  (f.Accepted policy ∧ g.Accepted policy) ∨
    ∃ r r', f.verdict policy = .ok (.rejected f.name r) ∧
      g.verdict policy = .ok (.rejected g.name r') ∧ r.rule = r'.rule ∧ r.point = r'.point

/-- A change of words that keeps the points has the function fare alike. -/
theorem fareAlike_of_stop {ρ : Recast} (hpoint : ∀ q, ρ.point q = q)
    (h : ((ρ.function g).walk policy).stop = (g.walk policy).stop.map ρ.stop) :
    FareAlike policy (ρ.function g) g := by
  by_cases hacc : g.Accepted policy
  · exact Or.inl ⟨(Recast.accepted_function h).mpr hacc, hacc⟩
  · obtain ⟨r, hr⟩ := exists_rejected hacc
    obtain ⟨r', hr', hretells⟩ := Recast.rejected_function h hr
    exact Or.inr ⟨r', r, hr', hr, hretells.rule, hretells.point.trans (hpoint r.point)⟩

/-- How many of the operations `rest`, which come after `pre` and a declaration, belong to the life
of what is declared: those up to the exit of the block, or all when there is no block to leave. -/
def lifeLength (f : Function) (pre rest : List Operation) : Nat :=
  if (f.blocksAfter pre).outer.isEmpty then rest.length else Blocks.blockLength 0 rest

/-- The **life** of what is declared between `pre` and `rest`, after its declaration. -/
def life (f : Function) (pre rest : List Operation) : List Operation :=
  rest.take (f.lifeLength pre rest)

/-- What comes after the life. -/
def afterLife (f : Function) (pre rest : List Operation) : List Operation :=
  rest.drop (f.lifeLength pre rest)

/-- The function `f` in which the variable `x` that is declared by `decl`, between `pre` and `rest`,
is **called `y` for its life**. -/
def renameLife (f : Function) (pre : List Operation) (decl : Operation) (rest : List Operation)
    (x y : String) : Function :=
  { f with
    ops := pre ++ ((decl :: f.life pre rest).map (Operation.rebase x y) ++ f.afterLife pre rest) }

theorem life_append_afterLife (f : Function) (pre rest : List Operation) :
    f.life pre rest ++ f.afterLife pre rest = rest :=
  List.take_append_drop _ _

theorem mem_roots (hop : op ∈ f.ops) {z : Place} (hz : z ∈ op.named) : z.base ∈ f.roots :=
  List.mem_append_right _ (List.mem_flatMap.mpr ⟨op, hop, List.mem_map_of_mem hz⟩)

/-- **A variable is forgotten at the end of its life**: when the block in which `decl` declares it
has been left, nothing is known about it. -/
theorem ignores_of_left (hkind : decl.kind = .declare) (htarget : decl.target = some { base := n })
    (hnamed : ∀ op ∈ pre, ∀ z ∈ op.named, z.base ≠ n) (hpre : (Survey.after f pre).Ignores n)
    (houter : (f.blocksAfter pre).outer ≠ [])
    (hleft : Blocks.blockLength 0 rest < rest.length) :
    (Survey.after f (pre ++ decl :: rest.take (Blocks.blockLength 0 rest))).Ignores n := by
  have hdecl : (f.blocksAfter (pre ++ [decl])).scopes = (f.blocksAfter pre).scopes.declare n := by
    simp [blocksAfter_concat, Blocks.follow, hkind, htarget, Blocks.declare, Blocks.scopes,
      Scopes.declare]
  have hlives : (f.blocksAfter (pre ++ [decl])).Encloses n 0 := by
    have hno := hpre.scopes
    rw [Survey.scopes_after, Scopes.names, List.mem_append, not_or] at hno
    rw [Blocks.Encloses, hdecl]
    refine ⟨[], _, _, rfl, rfl, List.mem_append_right _ (List.mem_singleton_self n), hno.2, ?_⟩
    simpa [Scopes.declare, Blocks.scopes] using houter
  obtain ⟨hstores, hgone⟩ := hlives.livesFor rest
  rw [List.append_cons]
  refine (Survey.heldInScope_after ?_).ignores ?_
  · rw [Blocks.storesInScope_append, Blocks.storesInScope_append]
    refine ⟨⟨Blocks.storesInScope_of_unnamed hnamed, fun hn => ?_, trivial⟩, hstores⟩
    simp [Operation.stored?, hkind] at hn
  · rw [Survey.scopes_after, blocksAfter, List.foldl_append]
    exact hgone hleft

/-- An accepted function stores references in variables in scope only. -/
theorem Accepted.storesInScope (h : f.Accepted policy) (hops : f.ops = pre ++ rest) (n : String) :
    Blocks.StoresInScope n (f.blocksAfter []) pre := by
  induction pre using List.reverseRecOn generalizing rest with
  | nil => exact trivial
  | append_singleton pre op ih =>
    have hops' : f.ops = pre ++ op :: rest := hops.trans (List.append_cons pre op rest).symm
    refine Blocks.storesInScope_append.mpr ⟨ih hops', fun hn => ?_, trivial⟩
    obtain ⟨z, hz, rfl⟩ := Option.map_eq_some_iff.mp hn
    obtain ⟨w, t, hreach, hstep, -⟩ := h.step hops'
    have hdecl := Walk.declares_of_stored hstep hz
    rwa [(models_of_reach hops' hreach).declares_eq] at hdecl

/-- Between `pre` and `rest`, `decl` declares the variable `x`, and `y` is a name that does not
occur. No variable has the name of the storage behind a parameter. -/
structure Renamable (f : Function) (pre : List Operation) (decl : Operation)
    (rest : List Operation) (x y : String) : Prop where
  ops : f.ops = pre ++ decl :: rest
  kind : decl.kind = .declare
  target : decl.target = some { base := x }
  fresh : y ∉ f.roots
  callers : ∀ n ∈ f.callers, n ∉ y :: f.roots

namespace Renamable

variable (h : f.Renamable pre decl rest x y)
include h

theorem mem_roots : x ∈ f.roots := by
  have hdecl : decl ∈ f.ops := by simp [h.ops]
  have hnamed : { base := x } ∈ decl.named := by simp [Operation.named, h.target]
  exact Function.mem_roots hdecl hnamed

theorem base_ne (hop : op ∈ f.ops) {z : Place} (hz : z ∈ op.named) : z.base ≠ y :=
  fun heq => h.fresh (heq ▸ Function.mem_roots hop hz)

theorem mem_ops (hop : op ∈ pre ∨ op ∈ decl :: f.life pre rest ∨ op ∈ f.afterLife pre rest) :
    op ∈ f.ops := by
  rw [h.ops, ← life_append_afterLife f pre rest]
  simp only [List.mem_append, List.mem_cons] at hop ⊢
  tauto

/-- **The function is the renamed one with both variables called the same.** -/
theorem merge_renameLife :
    (Recast.merge x y).function (f.renameLife pre decl rest x y) = f := by
  have hkeep : ∀ ops : List Operation, ops ⊆ f.ops →
      ops.map (Recast.merge x y).operation = ops := fun ops hsub =>
    (List.map_congr_left fun op hop =>
      Recast.merge_operation fun z => h.base_ne (hsub hop)).trans (List.map_id ops)
  have hback : ∀ ops : List Operation, ops ⊆ f.ops →
      (ops.map (Operation.rebase x y)).map (Recast.merge x y).operation = ops := fun ops hsub => by
    rw [List.map_map]
    exact (List.map_congr_left fun op hop =>
      Recast.merge_rebase fun z => h.base_ne (hsub hop)).trans (List.map_id ops)
  have hops : (f.renameLife pre decl rest x y).ops.map (Recast.merge x y).operation = f.ops := by
    rw [renameLife, List.map_append, List.map_append, hkeep pre fun op hop => h.mem_ops (.inl hop),
      hback _ fun op hop => h.mem_ops (.inr (.inl hop)),
      hkeep _ fun op hop => h.mem_ops (.inr (.inr hop)), List.cons_append, life_append_afterLife,
      h.ops]
  rw [Recast.function, hops]
  rfl

/-- A variable of the renamed function is `y` or one of the function. -/
theorem mem_roots_of_renameLife (hop : op ∈ (f.renameLife pre decl rest x y).ops) {z : Place}
    (hz : z ∈ op.named) : z.base ∈ y :: f.roots := by
  simp only [renameLife, List.mem_append] at hop
  rcases hop with hop | hop | hop
  · exact List.mem_cons_of_mem _ (Function.mem_roots (h.mem_ops (.inl hop)) hz)
  · obtain ⟨o, ho, rfl⟩ := List.mem_map.mp hop
    rcases Operation.named_rebase hz with hy | ⟨hz, -⟩
    · exact hy ▸ List.mem_cons_self
    · exact List.mem_cons_of_mem _ (Function.mem_roots (h.mem_ops (.inr (.inl ho))) hz)
  · exact List.mem_cons_of_mem _ (Function.mem_roots (h.mem_ops (.inr (.inr hop))) hz)

/-- No variable of the renamed function has the name of the storage behind a parameter. -/
theorem callers_renameLife :
    ∀ n ∈ x :: y :: (f.renameLife pre decl rest x y).declared,
      n ∉ (f.renameLife pre decl rest x y).callers := by
  intro n hn hcaller
  refine h.callers n hcaller ?_
  rcases List.mem_cons.mp hn with rfl | hn
  · exact List.mem_cons_of_mem _ h.mem_roots
  rcases List.mem_cons.mp hn with rfl | hn
  · exact List.mem_cons_self
  obtain ⟨op, hop, hn⟩ := List.mem_filterMap.mp hn
  split at hn
  · obtain ⟨z, hz, rfl⟩ := Option.map_eq_some_iff.mp hn
    exact h.mem_roots_of_renameLife hop (by simp [Operation.named, hz])
  · cases hn

/-- Nothing is known about `y` after its life. -/
theorem ignores_afterLife (hpost : f.afterLife pre rest ≠ []) :
    (Survey.after (f.renameLife pre decl rest x y)
      (pre ++ (decl :: f.life pre rest).map (Operation.rebase x y))).Ignores y := by
  have hlt : f.lifeLength pre rest < rest.length := by
    rwa [afterLife, Ne, List.drop_eq_nil_iff, Nat.not_le] at hpost
  have houter : ¬(f.blocksAfter pre).outer.isEmpty = true := by
    intro hempty
    rw [lifeLength, if_pos hempty] at hlt
    exact Nat.lt_irrefl _ hlt
  rw [lifeLength, if_neg houter] at hlt
  have hlength := Blocks.blockLength_map (φ := Operation.rebase x y) (fun _ => rfl) 0 rest
  have hnamed : ∀ op ∈ pre, ∀ z ∈ op.named, z.base ≠ y :=
    fun op hop z => h.base_ne (h.mem_ops (.inl hop))
  have hparams : ∀ param ∈ f.params, param.name ≠ y :=
    fun param hparam heq => h.fresh (heq ▸ List.mem_append_left _ (List.mem_map_of_mem hparam))
  have hstart : (Survey.after (f.renameLife pre decl rest x y) []).Ignores y :=
    Survey.ignores_start hparams
  have htarget : (decl.rebase x y).target = some { base := y } := by
    simp [Operation.rebase, Operation.mapPlaces, h.target, Place.rebase]
  rw [life, lifeLength, if_neg houter, List.map_cons, List.map_take, ← hlength]
  refine ignores_of_left h.kind htarget hnamed (hstart.after hnamed) ?_ ?_
  · exact fun hnil => houter (List.isEmpty_iff.mpr hnil)
  · rwa [hlength, List.length_map]

/-- **The old variable and the renamed one take turns.** -/
theorem takeTurns (hscope : (f.blocksAfter pre).declares { base := x } = false)
    (hstores : Blocks.StoresInScope x (f.blocksAfter []) pre)
    (hold : (f.renameLife pre decl rest x y).Apart x (decl :: f.life pre rest))
    (hnew : (f.renameLife pre decl rest x y).Apart y (f.afterLife pre rest)) :
    (f.renameLife pre decl rest x y).TakeTurns x y pre
      ((decl :: f.life pre rest).map (Operation.rebase x y)) (f.afterLife pre rest) where
  ops := rfl
  before := fun op hop z => h.base_ne (h.mem_ops (.inl hop))
  during := by
    intro op hop z hz
    obtain ⟨o, -, rfl⟩ := List.mem_map.mp hop
    rcases Operation.named_rebase hz with hy | ⟨-, hzx⟩
    · rw [hy]
      exact fun heq => h.fresh (heq ▸ h.mem_roots)
    · exact hzx
  after := fun op hop z => h.base_ne (h.mem_ops (.inr (.inr hop)))
  params := fun param hparam heq =>
    h.fresh (heq ▸ List.mem_append_left _ (List.mem_map_of_mem hparam))
  callers := h.callers_renameLife
  begins := by
    have hblocks : ∀ ops, (f.renameLife pre decl rest x y).blocksAfter ops = f.blocksAfter ops :=
      fun _ => rfl
    refine (Survey.heldInScope_after (hblocks [] ▸ hstores)).ignores ?_
    rw [Survey.scopes_after, hblocks, ← Blocks.declares_iff (x := { base := x }), hscope]
    exact Bool.false_ne_true
  ends := h.ignores_afterLife
  apart_during := by
    intro l hl href hbase op hop
    obtain ⟨o, ho, rfl⟩ := List.mem_map.mp hop
    exact hold l hl href hbase o ho
  apart_after := hnew

/-- A function that declares a variable while one of the same name is in scope is rejected. -/
theorem not_accepted (hscope : (f.blocksAfter pre).declares { base := x } = true) :
    ¬f.Accepted policy := by
  intro hacc
  obtain ⟨w, t, hreach, hstep, -⟩ := hacc.step h.ops
  obtain ⟨-, a, u, hact, hperf, -⟩ := Walk.step_cases hstep
  have hdeclare : decl.action = .ok (.declare { base := x } (decl.ty.getD Ty.unknown)) := by
    simp only [Operation.action, h.kind, Operation.getTarget, h.target]
    rfl
  obtain rfl := Except.ok.inj (hact.symm.trans hdeclare)
  obtain ⟨store, hstore, -⟩ := (Walk.perform_cases hperf).1
  obtain ⟨-, hnew, -⟩ := Store.declare_eq_ok_iff.mp hstore
  rw [(Walk.sameFrame_settled w decl.point false).declares_eq,
    (models_of_reach h.ops hreach).declares_eq, hscope] at hnew
  cases hnew

end Renamable

/-- **A name can be used again.** A variable that is declared while another one of its name is in
scope has the function rejected. Otherwise it can be called by a new name for its life, and the
function fares alike, provided that no loan of a place behind the reference in one of the two
variables is live in the time of the other. If a reference was stored in the old variable out of
scope, then the function is rejected by either name, but maybe for different reasons. -/
theorem fareAlike_renameLife (policy : Policy) (h : f.Renamable pre decl rest x y) :
    ((f.blocksAfter pre).declares { base := x } = true → ¬f.Accepted policy) ∧
      (¬Blocks.StoresInScope x (f.blocksAfter []) pre →
        ¬f.Accepted policy ∧ ¬(f.renameLife pre decl rest x y).Accepted policy) ∧
      ((f.blocksAfter pre).declares { base := x } = false →
        Blocks.StoresInScope x (f.blocksAfter []) pre →
        (f.renameLife pre decl rest x y).Apart x (decl :: f.life pre rest) →
        (f.renameLife pre decl rest x y).Apart y (f.afterLife pre rest) →
        FareAlike policy f (f.renameLife pre decl rest x y)) := by
  refine ⟨h.not_accepted, fun hout => ⟨fun hacc => ?_, fun hacc => ?_⟩, ?_⟩
  · exact hout (hacc.storesInScope h.ops x)
  · -- what comes before is not renamed
    exact hout (hacc.storesInScope rfl x)
  · intro hscope hstores hold hnew
    have hstop := (h.takeTurns hscope hstores hold hnew).walk_stop policy
    have halike := fareAlike_of_stop (fun _ => rfl) hstop
    rwa [h.merge_renameLife] at halike

/-- A function with three variables of one name, one after the other. The second one holds a
reference that is reborrowed, and the third one is written while it is lent. -/
def usesNameAgain : Function where
  name := "f"
  ops := [.enter 1, .declare 2 { base := "x" } (.named "T"), .assign 3 { base := "x" } [], .exit 4,
    .enter 5, .declare 6 { base := "x" } (.mk "T" [] (some .exclusive)),
    .call 7 "g" [] (some { base := "x" }),
    .declare 8 { base := "r" } (.mk "T" [] (some .exclusive)),
    .borrow 9 .exclusive { base := "r" } { base := "x", path := [.deref] },
    .deref 10 { base := "r" }, .exit 11,
    .declare 12 { base := "x" } (.named "T"), .assign 13 { base := "x" } [],
    .declare 14 { base := "q" } (.mk "T" [] (some .shared)),
    .borrow 15 .shared { base := "q" } { base := "x" }, .assign 16 { base := "x" } [],
    .deref 17 { base := "q" }]

/-- With another name for the second variable the function is rejected where it was. -/
theorem fareAlike_renameLife_usesNameAgain :
    ∃ pre decl rest, usesNameAgain.Renamable pre decl rest "x" "y" ∧ rest.length = 11 ∧
      (usesNameAgain.afterLife pre rest).length = 6 ∧
      (usesNameAgain.blocksAfter pre).declares { base := "x" } = false ∧
      Blocks.StoresInScope "x" (usesNameAgain.blocksAfter []) pre ∧
      (usesNameAgain.renameLife pre decl rest "x" "y").Apart "x"
        (decl :: usesNameAgain.life pre rest) ∧
      (usesNameAgain.renameLife pre decl rest "x" "y").Apart "y"
        (usesNameAgain.afterLife pre rest) ∧
      FareAlike {} usesNameAgain (usesNameAgain.renameLife pre decl rest "x" "y") ∧
      usesNameAgain.RejectedAt {} 16 := by
  have hrename : usesNameAgain.Renamable (usesNameAgain.ops.take 5)
      (.declare 6 { base := "x" } (.mk "T" [] (some .exclusive))) (usesNameAgain.ops.drop 6)
      "x" "y" := ⟨rfl, rfl, rfl, by decide +kernel, by decide +kernel⟩
  refine ⟨_, _, _, hrename, rfl, by decide +kernel, by decide +kernel, by decide +kernel,
    by decide +kernel, by decide +kernel, ?_, by decide +kernel⟩
  exact (fareAlike_renameLife {} hrename).2.2 (by decide +kernel) (by decide +kernel)
    (by decide +kernel) (by decide +kernel)

/-! ### Names that are confused -/

theorem not_fareAlike_of_accepted (hf : ¬f.Accepted policy) (hg : g.Accepted policy) :
    ¬FareAlike policy f g := by
  rintro (⟨hacc, -⟩ | ⟨r, r', -, hr', -⟩)
  · exact hf hacc
  · exact not_accepted_of_rejected hr' hg

theorem not_fareAlike_of_rejectedAt {p q : Point} (hf : f.RejectedAt policy p)
    (hg : g.RejectedAt policy q) (hne : p ≠ q) : ¬FareAlike policy f g := by
  rintro (⟨hacc, -⟩ | ⟨r, r', hr, hr', -, hpoint⟩)
  · exact hf.not_accepted hacc
  · obtain ⟨m, hm, rfl, -⟩ := hf
    obtain ⟨m', hm', rfl, -⟩ := hg
    obtain ⟨-, rfl⟩ := Verdict.rejected.inj (Except.ok.inj (hm.symm.trans hr))
    obtain ⟨-, rfl⟩ := Verdict.rejected.inj (Except.ok.inj (hm'.symm.trans hr'))
    exact hne hpoint

/-- A function that declares a variable twice. -/
def declaresTwice : Function where
  name := "f"
  ops := [.declare 1 { base := "x" } (.named "T"), .declare 2 { base := "x" } (.named "T")]

/-- A function that reborrows the reference in an inner variable for an outer one, and then uses the
name of the inner one again. -/
def outlivesName : Function where
  name := "f"
  ops := [.declare 1 { base := "r" } (.mk "T" [] (some .exclusive)), .enter 2,
    .declare 3 { base := "x" } (.mk "T" [] (some .exclusive)),
    .call 4 "g" [] (some { base := "x" }),
    .borrow 5 .exclusive { base := "r" } { base := "x", path := [.deref] }, .exit 6,
    .declare 7 { base := "x" } (.named "Int"), .assign 8 { base := "x" } [],
    .use 9 { base := "x" }, .deref 10 { base := "r" }]

/-- A function that stores a reference in a variable that is not declared, and then declares one of
the same name. -/
def storesUndeclared : Function where
  name := "f"
  ops := [.declare 1 { base := "s" } (.named "T"), .assign 2 { base := "s" } [],
    .declare 3 { base := "z" } (.named "S"), .assign 4 { base := "z" } [],
    .borrow 5 .shared { base := "z", path := [.field "f"] } { base := "s" },
    .declare 6 { base := "r" } (.mk "S" [] (some .exclusive)),
    .borrow 7 .exclusive { base := "r" } { base := "z" }, .assign 8 { base := "s" } [],
    .borrow 9 .exclusive { base := "x" } { base := "r", path := [.deref] }, .enter 10,
    .declare 11 { base := "x" } (.named "T"), .exit 12,
    .borrow 13 .shared { base := "q" } { base := "x", path := [.deref, .field "f", .deref] }]

/-- **Names can be confused**: a variable is declared while one of its name is in scope; a reborrow
through an old variable is taken for one of a new variable, whichever of the two is renamed; and a
name was used where it is not in scope. -/
theorem not_fareAlike_renameLife :
    (∃ pre decl rest, declaresTwice.Renamable pre decl rest "x" "y" ∧
      ¬FareAlike {} declaresTwice (declaresTwice.renameLife pre decl rest "x" "y")) ∧
    (∃ pre decl rest, outlivesName.Renamable pre decl rest "x" "y" ∧ decl.point = 3 ∧
      (outlivesName.blocksAfter pre).declares { base := "x" } = false ∧
      Blocks.StoresInScope "x" (outlivesName.blocksAfter []) pre ∧
      (outlivesName.renameLife pre decl rest "x" "y").Apart "x"
        (decl :: outlivesName.life pre rest) ∧
      ¬FareAlike {} outlivesName (outlivesName.renameLife pre decl rest "x" "y")) ∧
    (∃ pre decl rest, outlivesName.Renamable pre decl rest "x" "y" ∧ decl.point = 7 ∧
      (outlivesName.blocksAfter pre).declares { base := "x" } = false ∧
      Blocks.StoresInScope "x" (outlivesName.blocksAfter []) pre ∧
      (outlivesName.renameLife pre decl rest "x" "y").Apart "y" (outlivesName.afterLife pre rest) ∧
      ¬FareAlike {} outlivesName (outlivesName.renameLife pre decl rest "x" "y")) ∧
    ∃ pre decl rest, storesUndeclared.Renamable pre decl rest "x" "y" ∧
      (storesUndeclared.blocksAfter pre).declares { base := "x" } = false ∧
      (storesUndeclared.renameLife pre decl rest "x" "y").Apart "x"
        (decl :: storesUndeclared.life pre rest) ∧
      (storesUndeclared.renameLife pre decl rest "x" "y").Apart "y"
        (storesUndeclared.afterLife pre rest) ∧
      ¬FareAlike {} storesUndeclared (storesUndeclared.renameLife pre decl rest "x" "y") := by
  refine ⟨⟨declaresTwice.ops.take 1, .declare 2 { base := "x" } (.named "T"), [],
      ⟨rfl, rfl, rfl, by decide +kernel, by decide +kernel⟩, ?_⟩,
    ⟨outlivesName.ops.take 2, .declare 3 { base := "x" } (.mk "T" [] (some .exclusive)),
      outlivesName.ops.drop 3, ⟨rfl, rfl, rfl, by decide +kernel, by decide +kernel⟩, rfl,
      by decide +kernel, by decide +kernel, by decide +kernel, ?_⟩,
    ⟨outlivesName.ops.take 6, .declare 7 { base := "x" } (.named "Int"),
      outlivesName.ops.drop 7, ⟨rfl, rfl, rfl, by decide +kernel, by decide +kernel⟩, rfl,
      by decide +kernel, by decide +kernel, by decide +kernel, ?_⟩,
    ⟨storesUndeclared.ops.take 10, .declare 11 { base := "x" } (.named "T"),
      storesUndeclared.ops.drop 11, ⟨rfl, rfl, rfl, by decide +kernel, by decide +kernel⟩,
      by decide +kernel, by decide +kernel, by decide +kernel, ?_⟩⟩
  · exact not_fareAlike_of_accepted (by decide +kernel) (by decide +kernel)
  · exact not_fareAlike_of_accepted (by decide +kernel) (by decide +kernel)
  · exact not_fareAlike_of_accepted (by decide +kernel) (by decide +kernel)
  · have hf : storesUndeclared.RejectedAt {} 9 := by decide +kernel
    exact not_fareAlike_of_rejectedAt (q := 8) hf (by decide +kernel) (by decide)

end Function

end BorrowCheck
