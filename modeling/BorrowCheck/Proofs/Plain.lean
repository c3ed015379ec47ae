import BorrowCheck.Proofs.History
import BorrowCheck.Proofs.Omission
import BorrowCheck.Proofs.Parallel
import BorrowCheck.Proofs.WellFormed

/-!
# Functions without references

A function is **plain** (`BorrowCheck.Function.Plain`) when it borrows nothing, goes through no
reference and declares no variable of a reference type. In such a function there is nothing to lend,
so all that can be wrong with a well-formed operation is that it uses a value that is not there.

A plain checker is enough to find that out. It keeps the declarations in scope, the variables that
have a value and the places that were moved out (`BorrowCheck.Stock`), and it knows two reasons to
refuse an operation. This file proves that the walk does nothing else: a plain function is accepted
exactly when it is well formed and the plain checker accepts it, and where it is rejected the
checker refuses the same operation, by the same rule and for the same place
(`BorrowCheck.Function.plain_verdict`).

The two are compared step by step (`BorrowCheck.Parallel`). What relates them is that the store
lacks the values that the checker says are not there, and that no loan is outstanding
(`BorrowCheck.Stock.Agrees`).
-/

namespace BorrowCheck

/-! ### The fragment -/

namespace Ty

mutual

/-- Whether there is no reference in the type, its arguments included. -/
def isPlain : Ty → Bool
  | mk _ args ref => ref.isNone && plainArgs args

/-- Whether there is no reference in the type arguments. -/
def plainArgs : List (Option Ty) → Bool
  | [] => true
  | t :: ts => plainArg t && plainArgs ts

/-- Whether there is no reference in a type argument. -/
def plainArg : Option Ty → Bool
  | none => true
  | some t => isPlain t

end

theorem isRef_of_isPlain {t : Ty} (h : t.isPlain = true) : t.isRef = false := by
  obtain ⟨name, args, ref⟩ := t
  rw [isPlain, Bool.and_eq_true, Option.isNone_iff_eq_none] at h
  rw [isRef, Ty.ref, h.1]
  rfl

/-- The first argument of a type without references has none. -/
theorem isPlain_of_args {t arg : Ty} {rest : List (Option Ty)} (h : t.isPlain = true)
    (hargs : t.args = some arg :: rest) : arg.isPlain = true := by
  obtain ⟨name, args, ref⟩ := t
  obtain rfl : args = some arg :: rest := hargs
  rw [isPlain, plainArgs, plainArg, Bool.and_eq_true, Bool.and_eq_true] at h
  exact h.2.1

end Ty

/-- What a path leads to in a value without references has none. -/
theorem Store.isPlain_of_tyAlong {policy : Policy} {t t' : Ty} {ps : List Proj}
    (h : tyAlong policy t ps = some t') (ht : t.isPlain = true) : t'.isPlain = true := by
  induction ps generalizing t with
  | nil =>
    obtain rfl := Option.some.inj h
    exact ht
  | cons p ps ih =>
    cases p with
    | deref =>
      rw [tyAlong, Ty.isRef_of_isPlain ht] at h
      cases h
    | field name => cases h
    | index _ | any _ =>
      simp only [tyAlong] at h
      split at h
      · cases h
      · split at h
        next hargs => exact ih h (Ty.isPlain_of_args ht hargs)
        next => cases h

/-- An operation is **plain**: it borrows nothing, and there is no reference in what it mentions. -/
structure Operation.Plain (op : Operation) : Prop where
  noBorrow : ∀ kind, op.kind ≠ .borrow kind
  byValue : ∀ a ∈ op.args, a.mode = .value
  direct : ∀ x ∈ op.target.toList ++ op.sources ++ op.args.map Arg.place,
    x.throughRef = false
  ty : op.kind = .declare → ∀ t ∈ op.ty, t.isPlain = true

instance (op : Operation) : Decidable op.Plain :=
  decidable_of_iff
    ((op.kind ≠ .borrow .shared ∧ op.kind ≠ .borrow .exclusive) ∧
      (∀ a ∈ op.args, a.mode = .value) ∧
      (∀ x ∈ op.target.toList ++ op.sources ++ op.args.map Arg.place,
        x.throughRef = false) ∧
      (op.kind = .declare → ∀ t ∈ op.ty, t.isPlain = true))
    ⟨fun ⟨h₁, h₂, h₃, h₄⟩ => ⟨fun kind => by cases kind <;> simp [h₁], h₂, h₃, h₄⟩,
      fun ⟨h₁, h₂, h₃, h₄⟩ => ⟨⟨h₁ .shared, h₁ .exclusive⟩, h₂, h₃, h₄⟩⟩

/-- What a plain operation mentions is not behind a reference. -/
theorem Operation.Plain.direct_of_mentions {op : Operation} (h : op.Plain) :
    ∀ x ∈ op.mentions, x.throughRef = false := by
  have hsource : ∀ x, op.source = some x → x ∈ op.sources := fun x => mem_sources_of_source
  intro x hx
  refine h.direct x ?_
  simp only [List.mem_append, Option.mem_toList]
  unfold mentions at hx
  split at hx <;> simp only [List.mem_append, Option.mem_toList, List.not_mem_nil] at hx <;>
    grind

/-- A plain operation declares a plain type. -/
theorem Operation.Plain.isPlain_of_declare {op : Operation} (h : op.Plain) {x : Place} {ty : Ty}
    (hact : op.action = .ok (.declare x ty)) : ty.isPlain = true := by
  obtain ⟨hkind, -⟩ := action_cases hact
  rw [ty_of_declare hact]
  cases hsome : op.ty with
  | none => rfl
  | some t => exact h.ty hkind t hsome

/-- A plain call passes its arguments by value. -/
theorem Operation.Plain.value_of_call {op : Operation} (h : op.Plain) {args : List Arg}
    {result : Option Place} (hact : op.action = .ok (.call args result)) :
    ∀ d ∈ args, d.mode = .value := by
  obtain ⟨-, -, rfl⟩ := action_cases hact
  exact h.byValue

/-- A function is **plain**: it makes do without references. -/
structure Function.Plain (f : Function) : Prop where
  params : ∀ param ∈ f.params, param.ty.isPlain = true
  ops : ∀ op ∈ f.ops, op.Plain

instance (f : Function) : Decidable f.Plain :=
  decidable_of_iff
    ((∀ param ∈ f.params, param.ty.isPlain = true) ∧ ∀ op ∈ f.ops, op.Plain)
    ⟨fun ⟨h₁, h₂⟩ => ⟨h₁, h₂⟩, fun ⟨h₁, h₂⟩ => ⟨h₁, h₂⟩⟩

/-! ### The plain checker -/

/-- **What a plain checker knows**: the declarations in scope, the variables that have a value, and
the places that were moved out. -/
structure Stock where
  blocks : Blocks := {}
  filled : List String := []
  moved : List Place := []
deriving DecidableEq

/-- Why a plain checker refuses an operation: the rule that is broken, and the place. -/
structure Blame where
  rule : Rule
  place : Place
deriving DecidableEq

/-- Whether a use of `x` as a value copies it, as far as the declarations tell. -/
def Blocks.copies (s : Blocks) (policy : Policy) (x : Place) : Bool :=
  (s.ty? policy x).any fun t => policy.copies t.name

namespace Stock

/-- Uses `x`: its variable has to have a value, and nothing that it lies in or reaches may be moved
out. -/
def use (k : Stock) (x : Place) : Except Blame Unit :=
  if x.base ∉ k.filled then .error { rule := .useOfUninit, place := x }
  else if k.moved.any x.reaches then .error { rule := .useOfMoved, place := x }
  else .ok ()

/-- Hands on the value of `x`, which is moved out unless it is copied. -/
def handOver (policy : Policy) (k : Stock) (x : Place) : Except Blame Stock := do
  k.use x
  return if k.blocks.copies policy x then k else { k with moved := x :: k.moved }

/-- Everything at and under `x` has a value again. -/
def renew (k : Stock) (x : Place) : Stock :=
  { k with
    filled := if x.isRoot then x.base :: k.filled else k.filled
    moved := k.moved.filter fun m => !x.isPrefixOf m }

/-- A part can be written when its variable has a value and nothing that contains it is moved
out. -/
def permit (k : Stock) (x : Place) : Except Blame Unit :=
  if x.isRoot then .ok ()
  else if x.base ∉ k.filled then .error { rule := .useOfUninit, place := x }
  else if k.moved.any fun m => m.isPrefixOf x && !m.same x then
    .error { rule := .useOfMoved, place := x }
  else .ok ()

/-- Writes `x`. -/
def write (k : Stock) (x : Place) : Except Blame Stock := do
  k.permit x
  return k.renew x

/-- Forgets the variables `names`. -/
def forget (k : Stock) (names : List String) : Stock :=
  { k with
    filled := k.filled.filter fun n => !names.contains n
    moved := k.moved.filter fun m => !names.contains m.base }

/-- What an operation does before its write. -/
def spend (policy : Policy) (k : Stock) (op : Operation) : Except Blame Stock :=
  match op.kind with
  | .assign => do
    op.sources.forM k.use
    return k
  | .deref | .use => do
    op.source.toList.forM k.use
    return k
  | .move | .ret => op.source.toList.foldlM (handOver policy) k
  | .call => (op.args.map Arg.place).foldlM (handOver policy) k
  | .exit => .ok (k.forget (k.blocks.current.map Prod.fst))
  | _ => .ok k

/-- The place that an operation writes, if it writes one. -/
def write? (k : Stock) : Option Place → Except Blame Stock
  | none => .ok k
  | some x => k.write x

/-- One operation: its reads and moves, then its write. -/
def step (policy : Policy) (k : Stock) (op : Operation) : Except Blame Stock := do
  let k ← k.spend policy op
  { k with blocks := k.blocks.follow op }.write? op.written?

end Stock

/-- What the plain checker knows after the operations `ops` of `f`, unless it refuses one. -/
def Function.stock (f : Function) (policy : Policy) (ops : List Operation) : Except Blame Stock :=
  ops.foldlM (Stock.step policy)
    { blocks := f.blocksAfter [], filled := f.params.map Param.name }

namespace Blocks

variable {s : Blocks} {op : Operation} {policy : Policy}

theorem declares_iff_mem {x : Place} : s.declares x = true ↔ x.base ∈ s.vars.map Prod.fst :=
  Store.declares_iff_mem (s := { types := s.vars })

theorem declares_declare {x : Place} {n : String} {t : Ty} :
    (s.declare n t).declares x = true ↔ s.declares x = true ∨ x.base = n := by
  rw [declares_iff_mem, declares_iff_mem, vars_declare, List.map_append, List.mem_append,
    List.map_singleton, List.mem_singleton]

theorem vars_receiveAll (s : Blocks) (params : List Param) :
    (params.foldl (fun s param => s.declare param.name param.ty) s).vars =
      s.vars ++ params.map fun param => (param.name, param.ty) := by
  induction params generalizing s with
  | nil => simp
  | cons param params ih => rw [List.foldl_cons, ih, vars_declare]; simp

/-- What is declared after an operation was declared before, or is declared by it. -/
theorem mem_vars_follow {d : String × Ty} (h : d ∈ (s.follow op).vars) :
    d ∈ s.vars ∨ (op.kind = .declare ∧ d.2 = op.ty.getD Ty.unknown) := by
  unfold follow at h
  split at h
  next hkind =>
    split at h
    next => exact .inl h
    next x _ =>
      rw [vars_declare, List.mem_append, List.mem_singleton] at h
      exact h.imp_right fun hd => ⟨hkind, by rw [hd]⟩
  next => exact .inl (vars_enter s ▸ h)
  next =>
    by_cases houter : s.outer = []
    · rw [leave, houter] at h
      exact .inl h
    · exact .inl (vars_leave houter ▸ List.mem_append_left _ h)
  next => exact .inl h

/-- Where no reference type is declared, no place has one. -/
theorem isPlain_of_ty? (h : ∀ d ∈ s.vars, d.2.isPlain = true) {x : Place} {t : Ty}
    (ht : s.ty? policy x = some t) : t.isPlain = true := by
  obtain ⟨t', hlookup, halong⟩ := Option.bind_eq_some_iff.mp ht
  obtain ⟨before, after, hvars, -⟩ := List.lookup_eq_some_iff.mp hlookup
  exact Store.isPlain_of_tyAlong halong (h (x.base, t') (by rw [hvars]; simp))

theorem isReference_of_plain (h : ∀ d ∈ s.vars, d.2.isPlain = true) {x : Place} :
    s.isReference policy x = false := by
  rw [isReference]
  cases ht : s.ty? policy x with
  | none => rfl
  | some t => exact Ty.isRef_of_isPlain (isPlain_of_ty? h ht)

end Blocks

/-! ### No loans -/

namespace Survey

variable {s : Survey} {op : Operation}

theorem borrows_passAll_of_value {p : Point} {args : List Arg}
    (h : ∀ a ∈ args, a.mode = .value) : (args.foldl (pass p) s).borrows = s.borrows := by
  induction args generalizing s with
  | nil => rfl
  | cons a args ih =>
    rw [List.forall_mem_cons] at h
    rw [List.foldl_cons, ih h.2]
    simp only [pass, h.1]
    rfl

/-- Without loans there is nothing to hand on. -/
theorem borrows_observe_of_plain (hs : s.Sound) (h : s.borrows = []) (hop : op.Plain) :
    (s.observe op).borrows = [] := by
  have hholders : ∀ x, s.holders.get? x = none := by
    intro x
    cases hget : s.holders.get? x with
    | none => rfl
    | some id =>
      obtain ⟨b, -, hb, -⟩ := hs.of_held (held_of_get? hget)
      rw [h] at hb
      cases hb
  unfold observe
  cases hkind : op.kind with
  | borrow kind => exact absurd hkind (hop.noBorrow kind)
  | declare => cases op.target <;> exact h
  | assign => simp [h]
  | move =>
    cases op.source with
    | none => exact h
    | some x => cases htarget : op.target <;> simp [Survey.move, hholders, h]
  | call => simp [borrows_passAll_of_value hop.byValue, h]
  | deref | use | ret => simp [h]
  | enter => exact h
  | exit =>
    dsimp only
    unfold exit
    split <;> exact h
  | unknown tag => exact h

end Survey

namespace Function

variable {f : Function} {policy : Policy} {pre post : List Operation}

theorem Plain.borrows_eq_nil (h : f.Plain) (hops : f.ops = pre ++ post) :
    (Survey.after f pre).borrows = [] := by
  induction pre using List.reverseRecOn generalizing post with
  | nil =>
    rw [Survey.after, List.foldl_nil, Survey.borrows_receive, List.nil_append,
      List.filterMap_eq_nil_iff]
    intro param hparam
    rw [Survey.entryBorrow?, Option.map_eq_none_iff]
    exact Option.not_isSome_iff_eq_none.mp
      (Bool.eq_false_iff.mp (Ty.isRef_of_isPlain (h.params param hparam)))
  | append_singleton pre op ih =>
    rw [Survey.after_concat]
    have hops' : f.ops = pre ++ op :: post := hops.trans (List.append_cons pre op post).symm
    exact Survey.borrows_observe_of_plain (Survey.sound_after f pre) (ih hops')
      (h.ops op (hops' ▸ by simp))

/-- A plain function takes no loans. -/
theorem Plain.book_eq_nil (h : f.Plain) : f.book.loans = [] := by
  rw [← List.length_eq_zero_iff, book, Survey.length_book,
    h.borrows_eq_nil (List.append_nil _).symm]
  rfl

/-- What a plain function declares has no reference type. -/
theorem Plain.isPlain_of_vars (h : f.Plain) (hops : f.ops = pre ++ post) :
    ∀ d ∈ (f.blocksAfter pre).vars, d.2.isPlain = true := by
  induction pre using List.reverseRecOn generalizing post with
  | nil =>
    intro d hd
    rw [blocksAfter, List.foldl_nil, Blocks.vars_receiveAll] at hd
    obtain ⟨param, hparam, rfl⟩ := List.mem_map.mp hd
    exact h.params param hparam
  | append_singleton pre op ih =>
    have hops' : f.ops = pre ++ op :: post := hops.trans (List.append_cons pre op post).symm
    intro d hd
    rw [blocksAfter_concat] at hd
    rcases Blocks.mem_vars_follow hd with hd | ⟨hkind, hty⟩
    · exact ih hops' d hd
    · rw [hty]
      cases hop : op.ty with
      | none => rfl
      | some t => exact (h.ops op (hops' ▸ by simp)).ty hkind t hop

/-- No place of a plain function refers to anything. -/
theorem Plain.not_refers (h : f.Plain) (hops : f.ops = pre ++ post) (y : Place) :
    ¬f.Refers policy pre y := by
  rintro (hcontains | href)
  · obtain ⟨e, he, -⟩ := Place.Map.contains_iff.mp hcontains
    obtain ⟨b, -, hb, -⟩ := (Survey.sound_after f pre).of_held ⟨e, he, rfl⟩
    rw [h.borrows_eq_nil hops] at hb
    cases hb
  · rw [Blocks.isReference_of_plain (h.isPlain_of_vars hops)] at href
    cases href

end Function

/-! ### Walks without loans -/

namespace Walk

variable {c : Context} {w : State} {x y : Place} {p : Point}

section Quiet

variable (hquiet : w.ledger.outstanding = [])

include hquiet

theorem settled_of_quiet (p : Point) (inclusive : Bool) : settled w p inclusive = w := by
  obtain ⟨⟨store, outstanding, opened, released⟩, returned⟩ := w
  obtain rfl : outstanding = [] := hquiet
  rfl

theorem liensOn_of_quiet (strict : Bool) : liensOn w x p strict = [] := by
  simp [liensOn, Ledger.overlapping, hquiet]

theorem heldUnder_of_quiet : w.ledger.heldUnder x = [] := by
  simp [Ledger.heldUnder, hquiet]

/-- Without loans a read only needs a value. -/
theorem read_of_quiet (hdecl : w.store.declares x = true) (href : x.throughRef = false) :
    read c w x p = refuse (w.store.lacking? x) := by
  rw [read, Store.ensureInScope_eq_ok_iff.mpr hdecl, Place.holder_of_not_throughRef href,
    liensOn_of_quiet hquiet, reborrowed?, heldUnder_of_quiet hquiet, Store.read, Store.ensureValue]
  cases w.store.lacking? x <;> rfl

/-- Without loans a move only needs a value. -/
theorem vacate_of_quiet (hdecl : w.store.declares x = true) (href : x.throughRef = false) :
    vacate w x p = do
      refuse (w.store.lacking? x)
      return { w with store := w.store.drain x p } := by
  rw [vacate, Store.ensureInScope_eq_ok_iff.mpr hdecl, liensOn_of_quiet hquiet, Store.vacate,
    Store.ensureValue, href]
  cases w.store.lacking? x <;> rfl

theorem isReference_of_quiet : isReference c w x = w.store.isReference c.policy x := by
  rw [isReference, Ledger.holds, Ledger.heldAt, hquiet]
  rfl

/-- Without loans nothing local is handed to the caller. -/
theorem ret_of_quiet (hdecl : w.store.declares x = true) :
    ret c w x p = handOver c w x p := by
  rw [ret, Store.ensureInScope_eq_ok_iff.mpr hdecl, heldUnder_of_quiet hquiet]
  rfl

/-- Without loans a move to a variable hands the value on. -/
theorem move_of_quiet (hbook : c.book.loans = []) (hdecl : w.store.declares y = true)
    (href : w.store.isReference c.policy x = false) :
    move c w y x p = handOver c w x p := by
  have hdue : w.ledger.dueAt c.book p = [] := by
    simp [Ledger.dueAt, LoanBook.takenAt, hbook]
  rw [move, Store.ensureInScope_eq_ok_iff.mpr hdecl, hdue, isReference_of_quiet hquiet, href,
    handOver, isReference_of_quiet hquiet, href]
  rfl

/-- Without loans a block can be left as soon as there is one. -/
theorem exit_of_quiet {dying : List String} {scopes : Scopes}
    (hexit : w.store.scopes.exit? = some (dying, scopes)) :
    exit w p = .ok { w with store := Store.endStorage { w.store with scopes } dying } := by
  obtain ⟨⟨store, outstanding, opened, released⟩, returned⟩ := w
  obtain rfl : outstanding = [] := hquiet
  have hstore : store.exit = .ok (dying, { store with scopes }) :=
    Store.exit_eq_ok_iff.mpr ⟨scopes, hexit, rfl⟩
  rw [exit, hstore]
  rfl

end Quiet

end Walk

/-! ### The walk and the plain checker -/

/-- A variable lies in nothing but itself. -/
theorem Place.isPrefixOf_variable_iff {x : Place} {n : String} :
    x.isPrefixOf { base := n } = true ↔ x.isRoot = true ∧ x.base = n := by
  rw [Place.isPrefixOf_root]
  constructor
  · intro hsame
    rw [Place.eq_of_same_root hsame]
    exact ⟨rfl, rfl⟩
  · rintro ⟨hx, rfl⟩
    rw [← Place.eq_of_isRoot hx]
    exact x.same_refl

/-- The first value of a variable is all that it lacks: nothing under it was moved out. -/
theorem Store.Orderly.lack?_fill {s : Store} {x : Place} (hs : s.Orderly)
    (hroot : x.isRoot = true) (hwait : s.Awaits x.base) (y : Place) :
    (s.own x .owned).lack? y = if x.isPrefixOf y then none else s.lack? y := by
  rw [Store.lack?_own_owned]
  by_cases hpre : x.isPrefixOf y = true
  · rw [if_pos hpre]
    have hbase := (Place.isPrefixOf_iff.mp hpre).1
    split
    next => rfl
    next hne =>
      cases hy : s.lack? y with
      | none => rfl
      | some o =>
        cases o with
        | uninit =>
          rw [hs.whole hy, ← hbase, ← Place.eq_of_isRoot hroot] at hne
          exact absurd x.same_refl hne
        | moved q => exact absurd hbase.symm (hs.apart (Store.awaits_iff_lack?.mp hwait) hy)
  · rw [if_neg hpre, if_neg fun hsame => hpre ?_]
    rw [Place.isPrefixOf_congr_left hsame]
    exact y.isPrefixOf_refl

theorem Store.cases_of_unwritableWithin? {s : Store} {x y : Place} {v : Violation}
    (h : s.unwritableWithin? x y = some v) :
    (v = .partOfUninit x ∧ s.lack? y = some .uninit) ∨
      ∃ q, v = .movedOut x q y ∧ s.lack? y = some (.moved q) := by
  unfold unwritableWithin? at h
  rw [lack?]
  split at h
  next q _ _ hget =>
    rw [hget]
    exact .inr ⟨q, (Option.some.inj h).symm, rfl⟩
  next hget =>
    rw [hget]
    exact .inl ⟨(Option.some.inj h).symm, rfl⟩
  next => cases h

/-- A walk stops for the reason that a plain checker has: the same rule is broken, for the same
place. -/
def Blame.Of (fault : Fault) (b : Blame) : Prop :=
  ∃ v, fault = .violation v ∧ v.rule = b.rule ∧ v.place = some b.place

namespace Stock

/-- **The plain checker agrees with the walk**: no loan is outstanding, the same variables are in
scope, and the store lacks the values that the checker says are not there. -/
structure Agrees (k : Stock) (w : Walk.State) : Prop where
  blocks : k.blocks.Models w.store
  plain : ∀ d ∈ k.blocks.vars, d.2.isPlain = true
  quiet : w.ledger.outstanding = []
  orderly : w.store.Orderly
  filled : ∀ n ∈ k.filled, k.blocks.declares { base := n } = true
  waits : ∀ n, w.store.Awaits n ↔ k.blocks.declares { base := n } = true ∧ n ∉ k.filled
  moved : ∀ y, (∃ q, w.store.lack? y = some (.moved q)) ↔ ∃ m ∈ k.moved, m.same y = true

namespace Agrees

variable {k : Stock} {w u : Walk.State} {x y : Place} {p : Point} {policy : Policy}
  {c : Walk.Context}

/-- A variable in scope waits for its first value when the checker does not count it as filled. -/
theorem awaits_iff (h : k.Agrees w) (hdecl : w.store.declares x = true) :
    w.store.Awaits x.base ↔ x.base ∉ k.filled := by
  have hroot : k.blocks.declares { base := x.base } = true :=
    (h.blocks.declares_eq { base := x.base }).symm.trans hdecl
  rw [h.waits, hroot]
  simp

/-- Something that matters to `x` was moved out when the checker says so. -/
theorem any_moved_iff (h : k.Agrees w) (matters : Place → Bool)
    (hcongr : ∀ y z, y.same z = true → matters y = matters z) :
    k.moved.any matters = true ↔ ∃ y q, matters y = true ∧ w.store.lack? y = some (.moved q) := by
  rw [List.any_eq_true]
  constructor
  · rintro ⟨m, hm, hmatters⟩
    obtain ⟨q, hq⟩ := (h.moved m).mpr ⟨m, hm, m.same_refl⟩
    exact ⟨m, q, hmatters, hq⟩
  · rintro ⟨y, q, hmatters, hq⟩
    obtain ⟨m, hm, hsame⟩ := (h.moved y).mp ⟨q, hq⟩
    exact ⟨m, hm, by rwa [hcongr m y hsame]⟩

/-- **A place that is in scope can be used in the walk when the checker lets it be used**; otherwise
both give the same reason. -/
theorem use (h : k.Agrees w) (hdecl : w.store.declares x = true) :
    Parallel Blame.Of (fun _ _ => True) (refuse (w.store.lacking? x)) (k.use x) := by
  have hreaches := h.any_moved_iff x.reaches fun _ _ hyz => Place.reaches_congr hyz
  unfold Stock.use
  cases hlack : w.store.lacking? x with
  | none =>
    have hwait := Store.not_awaits_of_lacking? hlack
    rw [h.awaits_iff hdecl] at hwait
    have hno : ¬k.moved.any x.reaches = true := by
      rw [hreaches]
      rintro ⟨y, q, hy, hq⟩
      exact ((Store.lacking?_eq_none_iff h.orderly.distinct).mp hlack).2 y q hy hq
    rw [if_neg hwait, if_neg hno]
    exact trivial
  | some v =>
    rcases Store.cases_of_lacking? h.orderly.distinct hlack with
      ⟨rfl, y, hy, hwait⟩ | ⟨y, q, rfl, hy, hq⟩
    · have hroot := h.orderly.whole hwait
      rw [hroot, ← Store.awaits_iff_lack?, (Place.isPrefixOf_iff.mp hy).1,
        h.awaits_iff hdecl] at hwait
      rw [if_pos hwait]
      exact ⟨_, rfl, rfl, rfl⟩
    · have hfilled : ¬x.base ∉ k.filled := by
        rw [← h.awaits_iff hdecl, Store.awaits_iff_lack?]
        exact fun hwait => h.orderly.apart hwait hq (Place.base_eq_of_reaches hy)
      rw [if_neg hfilled, if_pos (hreaches.mpr ⟨y, q, hy, hq⟩)]
      exact ⟨_, rfl, rfl, rfl⟩

theorem read (h : k.Agrees w) (hdecl : w.store.declares x = true) (href : x.throughRef = false) :
    Parallel Blame.Of (fun _ _ => True) (Walk.read c w x p) (k.use x) := by
  rw [Walk.read_of_quiet h.quiet hdecl href]
  exact h.use hdecl

/-- A value that is moved out of the store is moved out for the checker. -/
theorem moveOut (h : k.Agrees w) (hdecl : w.store.declares x = true)
    (hval : w.store.lacking? x = none) :
    Agrees { k with moved := x :: k.moved } { w with store := w.store.drain x p } := by
  have hwait := Store.not_awaits_of_lacking? hval
  refine ⟨h.blocks.congr rfl rfl, h.plain, h.quiet, ?_, h.filled, fun n => ?_, fun y => ?_⟩
  · have hvac : w.store.vacate x p [] = .ok (w.store.drain x p) :=
      Store.vacate_eq_ok_iff.mpr ⟨hval, rfl, rfl⟩
    exact h.orderly.vacate hdecl hvac
  · rw [← h.waits, Store.awaits_drain hval]
  · rw [Store.lack?_drain]
    simp only [List.exists_mem_cons_iff, ← h.moved]
    cases hsame : x.same y <;> simp

/-- What is copied in the walk is copied for the checker. -/
theorem copies_eq (h : k.Agrees w) (policy : Policy) (x : Place) :
    w.store.copies policy x = k.blocks.copies policy x := by
  rw [Store.copies, Blocks.copies, h.blocks.ty?_eq]
  cases ht : k.blocks.ty? policy x with
  | none => rfl
  | some t =>
    have hnone : t.ref = none := Option.not_isSome_iff_eq_none.mp
      (Bool.eq_false_iff.mp (Ty.isRef_of_isPlain (Blocks.isPlain_of_ty? h.plain ht)))
    simp [hnone]

theorem handOver (h : k.Agrees w) (hdecl : w.store.declares x = true)
    (href : x.throughRef = false) :
    Parallel Blame.Of (fun u k => Agrees k u) (Walk.handOver c w x p)
      (Stock.handOver c.policy k x) := by
  have hnoref : Walk.isReference c w x = false := by
    rw [Walk.isReference_of_quiet h.quiet, h.blocks.isReference_eq,
      Blocks.isReference_of_plain h.plain]
  rw [Walk.handOver, hnoref, h.copies_eq, Bool.false_or, Stock.handOver]
  cases hcopy : k.blocks.copies c.policy x with
  | true =>
    exact (h.read hdecl href).bind fun _ _ _ _ _ => h
  | false =>
    rw [if_neg Bool.false_ne_true, Walk.vacate_of_quiet h.quiet hdecl href]
    refine (h.use hdecl).bind fun _ _ hval _ _ => ?_
    exact h.moveOut hdecl (refuse_eq_ok_iff.mp hval)

/-- Arguments that are passed by value are handed over one after the other. -/
theorem passAll (h : k.Agrees w) {args : List Arg} (hmode : ∀ d ∈ args, d.mode = .value)
    (hdecl : ∀ d ∈ args, w.store.declares d.place = true)
    (href : ∀ d ∈ args, d.place.throughRef = false) :
    Parallel Blame.Of (fun u k => Agrees k u) (args.foldlM (Walk.passArg c p) w)
      ((args.map Arg.place).foldlM (Stock.handOver c.policy) k) := by
  rw [List.foldlM_map]
  refine (Parallel.foldlM (R := fun u k' => Agrees k' u ∧ Walk.SameFrame w u) ⟨h, .refl w⟩ ?_).imp
    fun _ _ _ _ h => h.1
  rintro u k' ⟨hk, hframe⟩ d hd
  rw [Walk.passArg, hmode d hd]
  exact (hk.handOver ((hframe.declares_eq _).trans (hdecl d hd)) (href d hd)).imp
    fun _ _ hu _ hk' => ⟨hk', hframe.trans (Walk.sameFrame_handOver hu)⟩

/-- **A new value for `x`**: in the store and for the checker nothing at or under `x` lacks one. -/
theorem renew (h : k.Agrees w) (hdecl : w.store.declares x = true) {store : Store}
    (hlack : ∀ y, store.lack? y = if x.isPrefixOf y then none else w.store.lack? y)
    (hdistinct : store.cells.Distinct) (htypes : store.types = w.store.types)
    (hscopes : store.scopes = w.store.scopes) (ledger : Ledger)
    (hledger : ledger.outstanding = w.ledger.outstanding) :
    (k.renew x).Agrees { w with store, ledger } := by
  refine ⟨h.blocks.congr htypes hscopes, h.plain, hledger.trans h.quiet, ?_, fun n hn => ?_,
    fun n => ?_, fun y => ?_⟩
  · refine h.orderly.of_le hdistinct fun y o hy => ?_
    rw [hlack] at hy
    split at hy
    · cases hy
    · exact ⟨hy, (Store.declares_of_types htypes).trans (h.orderly.declared hy)⟩
  · simp only [Stock.renew] at hn
    split at hn
    · rcases List.mem_cons.mp hn with rfl | hn
      · exact (h.blocks.declares_eq { base := x.base }).symm.trans hdecl
      · exact h.filled n hn
    · exact h.filled n hn
  · have hold := h.waits n
    rw [Store.awaits_iff_lack?] at hold ⊢
    rw [hlack]
    simp only [Stock.renew]
    split
    next hpre =>
      rw [Place.isPrefixOf_variable_iff] at hpre
      simp [hpre.1, hpre.2]
    next hpre =>
      rw [hold]
      by_cases hx : x.isRoot = true
      · have hne : n ≠ x.base := fun heq =>
          hpre (Place.isPrefixOf_variable_iff.mpr ⟨hx, heq.symm⟩)
        simp [hx, hne]
      · simp [hx]
  · have hold := h.moved y
    rw [hlack]
    simp only [Stock.renew, List.mem_filter]
    split
    next hpre =>
      refine iff_of_false (by rintro ⟨q, hq⟩; cases hq) ?_
      rintro ⟨m, ⟨-, hm⟩, hsame⟩
      rw [Place.isPrefixOf_congr hsame, hpre] at hm
      cases hm
    next hpre =>
      rw [hold]
      refine exists_congr fun m => ?_
      constructor
      · rintro ⟨hm, hsame⟩
        rw [Place.isPrefixOf_congr hsame, Bool.eq_false_iff.mpr hpre]
        exact ⟨⟨hm, rfl⟩, hsame⟩
      · rintro ⟨⟨hm, -⟩, hsame⟩
        exact ⟨hm, hsame⟩

/-- What contains a place that is to be written has a value, for the walk as for the checker. -/
theorem permit (h : k.Agrees w) (hdecl : w.store.declares x = true) :
    Parallel Blame.Of (fun _ _ => True)
      (refuse (x.enclosing.findSome? (w.store.unwritableWithin? x))) (k.permit x) := by
  unfold Stock.permit
  by_cases hroot : x.isRoot = true
  · have hnil : x.enclosing = [] := by
      rw [Place.eq_of_isRoot hroot]
      rfl
    rw [if_pos hroot, hnil]
    exact trivial
  have hstrict := h.any_moved_iff (fun m => m.isPrefixOf x && !m.same x)
    fun y z hyz => by rw [Place.isPrefixOf_congr_left hyz, Place.same_congr_left hyz]
  rw [if_neg hroot]
  cases hfind : x.enclosing.findSome? (w.store.unwritableWithin? x) with
  | none =>
    rw [List.findSome?_eq_none_iff] at hfind
    have hnone : ∀ y, y.isPrefixOf x = true → y.same x = false → w.store.lack? y = none := by
      intro y hy hne
      obtain ⟨z, hz, hsame⟩ := Place.exists_mem_enclosing hy hne
      rw [← Store.lack?_congr hsame]
      exact Store.unwritableWithin?_eq_none_iff.mp (hfind z hz)
    have hfilled : ¬x.base ∉ k.filled := by
      rw [← h.awaits_iff hdecl, Store.awaits_iff_lack?, hnone { base := x.base }]
      · exact nofun
      · exact Place.isPrefixOf_iff.mpr ⟨rfl, List.nil_prefix⟩
      · rw [Bool.eq_false_iff, Ne, Place.same_comm]
        intro hsame
        rw [Place.eq_of_same_root hsame] at hroot
        exact hroot rfl
    have hno : ¬(k.moved.any fun m => m.isPrefixOf x && !m.same x) = true := by
      rw [hstrict]
      rintro ⟨y, q, hy, hq⟩
      rw [Bool.and_eq_true, Bool.not_eq_true'] at hy
      rw [hnone y hy.1 hy.2] at hq
      cases hq
    rw [if_neg hfilled, if_neg hno]
    exact trivial
  | some v =>
    obtain ⟨y, hy, hwithin⟩ := List.exists_of_findSome?_eq_some hfind
    obtain ⟨hpre, hne⟩ := Place.isPrefixOf_of_mem_enclosing hy
    rcases Store.cases_of_unwritableWithin? hwithin with ⟨rfl, hwait⟩ | ⟨q, rfl, hq⟩
    · have hyroot := h.orderly.whole hwait
      rw [hyroot, ← Store.awaits_iff_lack?, (Place.isPrefixOf_iff.mp hpre).1,
        h.awaits_iff hdecl] at hwait
      rw [if_pos hwait]
      exact ⟨_, rfl, rfl, rfl⟩
    · have hfilled : ¬x.base ∉ k.filled := by
        rw [← h.awaits_iff hdecl, Store.awaits_iff_lack?]
        exact fun hwait => h.orderly.apart hwait hq (Place.isPrefixOf_iff.mp hpre).1
      rw [if_neg hfilled, if_pos (hstrict.mpr ⟨y, q, by rw [hpre, hne]; rfl, hq⟩)]
      exact ⟨_, rfl, rfl, rfl⟩

/-- **A write goes through in the walk when the checker lets it**; otherwise both give the same
reason. -/
theorem write (h : k.Agrees w) (hdecl : w.store.declares x = true) (href : x.throughRef = false)
    (closed : List Loan) :
    Parallel Blame.Of (fun u k => Agrees k u) (Walk.write c w closed x p) (k.write x) := by
  rw [Walk.write, Store.ensureInScope_eq_ok_iff.mpr hdecl, href, Walk.liensOn_of_quiet h.quiet]
  by_cases hwaits : x.isRoot = true ∧ w.store.Awaits x.base
  · -- the first value of a variable
    obtain ⟨hroot, hwait⟩ := hwaits
    have hstatus := (Store.status_eq_uninit_iff hroot).mpr hwait
    have hcell : ∃ cell, w.store.cells.get? x = some cell ∧ cell.ownership = .uninit := by
      rwa [Store.Awaits, ← Place.eq_of_isRoot hroot, Store.ownership?,
        Option.map_eq_some_iff] at hwait
    have hdone := h.renew hdecl (h.orderly.lack?_fill hroot hwait)
      (Store.distinct_own h.orderly.distinct _) rfl rfl (w.ledger.releaseUnder x p) rfl
    simp only [hroot, hstatus, Store.fill_eq_ok_iff.mpr ⟨hcell, rfl⟩, Stock.write, Stock.permit]
    exact hdone
  · have hcond : ¬(x.isRoot && decide (w.store.status x = .uninit)) = true := by
      rw [Bool.and_eq_true, decide_eq_true_eq]
      rintro ⟨hroot, hstatus⟩
      exact hwaits ⟨hroot, (Store.status_eq_uninit_iff hroot).mp hstatus⟩
    have hdone := h.renew hdecl (fun _ => Store.lack?_restore)
      (Store.distinct_restore h.orderly.distinct) rfl rfl (w.ledger.releaseUnder x p) rfl
    have hpermit := h.permit hdecl
    simp only [hcond, Store.overwrite, Stock.write]
    cases hfind : x.enclosing.findSome? (w.store.unwritableWithin? x) with
    | none =>
      rw [hfind] at hpermit
      obtain ⟨_, hok, -⟩ := hpermit.exists_ok rfl
      rw [hok]
      exact hdone
    | some v =>
      rw [hfind] at hpermit
      obtain ⟨b, hb, hblame⟩ := hpermit.exists_error rfl
      rw [hb]
      exact hblame

/-- After an operation was performed the walk has nothing to close, only to write. -/
theorem conclude (h : k.Agrees w) {target : Option Place}
    (hdecl : ∀ x, target = some x → w.store.declares x = true)
    (href : ∀ x, target = some x → x.throughRef = false) :
    Parallel Blame.Of (fun u k => Agrees k u) (Walk.conclude c w p target) (k.write? target) := by
  cases target with
  | none =>
    rw [Walk.conclude, Walk.settled_of_quiet h.quiet]
    exact h
  | some x =>
    rw [Walk.conclude, Walk.settled_of_quiet h.quiet]
    exact h.write (hdecl x rfl) (href x rfl) _

/-- A new variable has no value. -/
theorem declare (h : k.Agrees w) {ty : Ty} {store : Store}
    (hdecl : w.store.declare x ty false = .ok store) (hty : ty.isPlain = true) :
    Agrees { k with blocks := k.blocks.declare x.base ty } { w with store } := by
  obtain ⟨hroot, hnew, -⟩ := Store.declare_eq_ok_iff.mp hdecl
  have hnew' : k.blocks.declares { base := x.base } = false :=
    (h.blocks.declares_eq { base := x.base }).symm.trans hnew
  refine ⟨h.blocks.declare hdecl, fun d hd => ?_, h.quiet, h.orderly.declare hdecl,
    fun n hn => Blocks.declares_declare.mpr (.inl (h.filled n hn)), fun n => ?_, fun y => ?_⟩
  · rw [Blocks.vars_declare, List.mem_append, List.mem_singleton] at hd
    rcases hd with hd | rfl
    · exact h.plain d hd
    · exact hty
  · rw [Store.awaits_iff_lack?, Store.lack?_declare hdecl, Blocks.declares_declare]
    by_cases hn : n = x.base
    · -- it has no value, and the checker did not know it before
      subst hn
      have hfilled : x.base ∉ k.filled := by
        intro hmem
        rw [h.filled _ hmem] at hnew'
        cases hnew'
      rw [← Place.eq_of_isRoot hroot, x.same_refl]
      simp [hfilled]
    · have hsame : ¬x.same { base := n } = true := fun hsame =>
        hn (Place.base_eq_of_same hsame).symm
      rw [if_neg hsame, ← Store.awaits_iff_lack?, h.waits]
      simp [hn]
  · rw [Store.lack?_declare hdecl, ← h.moved]
    by_cases hsame : x.same y = true
    · rw [if_pos hsame, h.orderly.lack?_of_new hnew (Place.base_eq_of_same hsame).symm]
      simp
    · rw [if_neg hsame]

/-- A block is left: its variables are forgotten. -/
theorem leave (h : k.Agrees w) {dying : List String} {scopes : Scopes}
    (hexit : w.store.scopes.exit? = some (dying, scopes)) :
    Agrees { k.forget dying with blocks := k.blocks.leave }
      { w with store := Store.endStorage { w.store with scopes } dying } := by
  have hblocks : k.blocks.leave.Models (Store.endStorage { w.store with scopes } dying) :=
    h.blocks.leave hexit rfl rfl
  have hdecl : ∀ n, k.blocks.leave.declares { base := n } = true ↔
      k.blocks.declares { base := n } = true ∧ n ∉ dying := by
    intro n
    rw [← hblocks.declares_eq, Store.declares_endStorage, ← h.blocks.declares_eq]
    rfl
  refine ⟨hblocks, fun d hd => ?_, h.quiet, ?_, fun n hn => ?_, fun n => ?_, fun y => ?_⟩
  · have houter : k.blocks.outer ≠ [] := by
      intro hnil
      rw [h.blocks.exit?_eq_none_iff.mpr hnil] at hexit
      cases hexit
    exact h.plain d (Blocks.vars_leave houter ▸ List.mem_append_left _ hd)
  · refine h.orderly.of_le (h.orderly.distinct.keepKeys _) fun y o hy => ?_
    rw [Store.lack?_endStorage] at hy
    split at hy
    next => cases hy
    next hbase => exact ⟨hy, Store.declares_endStorage.mpr ⟨h.orderly.declared hy, hbase⟩⟩
  · simp only [Stock.forget, List.mem_filter, Bool.not_eq_true', List.contains_eq_mem,
      decide_eq_false_iff_not] at hn
    exact (hdecl n).mpr ⟨h.filled n hn.1, hn.2⟩
  · rw [Store.awaits_iff_lack?, Store.lack?_endStorage, hdecl]
    simp only [Stock.forget, List.mem_filter, Bool.not_eq_true', List.contains_eq_mem,
      decide_eq_false_iff_not]
    by_cases hn : n ∈ dying
    · simp [hn]
    · have hold := h.waits n
      rw [Store.awaits_iff_lack?] at hold
      rw [if_neg hn]
      exact hold.trans (by simp [hn])
  · rw [Store.lack?_endStorage]
    simp only [Stock.forget, List.mem_filter, Bool.not_eq_true', List.contains_eq_mem,
      decide_eq_false_iff_not]
    by_cases hy : y.base ∈ dying
    · rw [if_pos hy]
      refine iff_of_false (by rintro ⟨q, hq⟩; cases hq) ?_
      rintro ⟨m, ⟨-, hm⟩, hsame⟩
      exact hm (Place.base_eq_of_same hsame ▸ hy)
    · rw [if_neg hy]
      refine (h.moved y).trans (exists_congr fun m => ?_)
      constructor
      · rintro ⟨hm, hsame⟩
        exact ⟨⟨hm, Place.base_eq_of_same hsame ▸ hy⟩, hsame⟩
      · rintro ⟨⟨hm, -⟩, hsame⟩
        exact ⟨hm, hsame⟩

/-- What dies with a block is what the checker knows to be declared in it. -/
theorem dying_eq (h : k.Agrees w) {dying : List String} {scopes : Scopes}
    (hexit : w.store.scopes.exit? = some (dying, scopes)) :
    dying = k.blocks.current.map Prod.fst := by
  rw [← h.blocks.current]
  unfold Scopes.exit? at hexit
  split at hexit <;> cases hexit
  rfl

/-- A block is entered: the variables in scope are the same. -/
theorem enter (h : k.Agrees w) :
    Agrees { k with blocks := k.blocks.enter }
      { w with store := { w.store with scopes := w.store.scopes.enter } } := by
  have hdecl : ∀ x, k.blocks.enter.declares x = k.blocks.declares x := by
    intro x
    rw [Blocks.declares, Blocks.vars_enter, Blocks.declares]
  refine ⟨h.blocks.enter, fun d hd => h.plain d (Blocks.vars_enter _ ▸ hd), h.quiet,
    h.orderly.of_le h.orderly.distinct fun y o hy => ⟨hy, h.orderly.declared hy⟩,
    fun n hn => (hdecl _).trans (h.filled n hn), fun n => ?_, h.moved⟩
  rw [hdecl]
  exact h.waits n

theorem ret (h : k.Agrees w) (returned : Option Point) : k.Agrees { w with returned } :=
  ⟨h.blocks, h.plain, h.quiet, h.orderly, h.filled, h.waits, h.moved⟩

variable {op : Operation} {a : Action}

/-- **What an operation does before its write** it does for the walk as for the checker. -/
theorem perform (h : k.Agrees w) (hbook : c.book.loans = []) (hop : op.Plain)
    (hact : op.action = .ok a)
    (hfresh : ∀ x ty, a = .declare x ty → x.isRoot = true ∧ w.store.declares x = false)
    (hscope : ∀ x ∈ a.written?.toList ++ a.operands, w.store.declares x = true)
    (hmatched : a = .exit → w.store.scopes.exit? ≠ none) (hderef : ∀ x, a ≠ .deref x) :
    Parallel Blame.Of
      (fun r k' => Agrees { k' with blocks := k'.blocks.follow op } r.1)
      (Walk.perform c w p a) (k.spend c.policy op) := by
  have hdirect := hop.direct_of_mentions
  rw [Operation.mentions_eq hact] at hdirect
  have hdoes := Operation.action_cases hact
  cases a with
  | declare x ty =>
    obtain ⟨hkind, htarget⟩ := hdoes
    obtain ⟨hroot, hnew⟩ := hfresh x ty rfl
    obtain ⟨store, hstore⟩ : ∃ store, w.store.declare x ty false = .ok store :=
      ⟨_, Store.declare_eq_ok_iff.mpr ⟨hroot, hnew, rfl⟩⟩
    simp only [Walk.perform, Stock.spend, hstore, hkind, Blocks.follow, htarget,
      ← Operation.ty_of_declare hact]
    exact h.declare hstore (hop.isPlain_of_declare hact)
  | assign x sources =>
    obtain ⟨hkind, htarget, rfl⟩ := hdoes
    simp only [Walk.perform, Stock.spend, hkind, Blocks.follow]
    refine (Parallel.forM fun y hy => ?_).bind fun _ _ _ _ _ => h
    exact h.read (hscope y (List.mem_append_right _ hy)) (hdirect y (List.mem_append_right _ hy))
  | move y x =>
    obtain ⟨hkind, htarget, hsource⟩ := hdoes
    have hx : x ∈ (Action.move y x).written?.toList ++ (Action.move y x).operands := by
      simp [Action.operands]
    have hy : y ∈ (Action.move y x).written?.toList ++ (Action.move y x).operands := by
      simp [Action.written?]
    have hnoref : w.store.isReference c.policy x = false := by
      rw [h.blocks.isReference_eq, Blocks.isReference_of_plain h.plain]
    simp only [Walk.perform, Stock.spend, hkind, Blocks.follow, hsource,
      Walk.move_of_quiet h.quiet hbook (hscope y hy) hnoref]
    exact (h.handOver (hscope x hx) (hdirect x hx)).bind fun _ _ _ _ hk => hk
  | borrow kind y x => exact absurd hdoes.1 (hop.noBorrow kind)
  | deref x => exact absurd rfl (hderef x)
  | use x =>
    obtain ⟨hkind, hsource⟩ := hdoes
    have hx : x ∈ (Action.use x).written?.toList ++ (Action.use x).operands := by
      simp [Action.operands]
    have hone : [x].forM k.use = k.use x := by
      rw [List.forM]
      cases k.use x <;> rfl
    simp only [Walk.perform, Stock.spend, hkind, Blocks.follow, hsource, Option.toList_some, hone]
    exact (h.read (hscope x hx) (hdirect x hx)).bind fun _ _ _ _ _ => h
  | call args result =>
    obtain ⟨hkind, rfl, rfl⟩ := hdoes
    have hpass := h.passAll (c := c) (p := p) (hop.value_of_call hact)
      (fun d hd => hscope _ (List.mem_append_right _ (List.mem_map_of_mem hd)))
      fun d hd => hdirect _ (List.mem_append_right _ (List.mem_map_of_mem hd))
    simp only [Walk.perform, Stock.spend, hkind, Blocks.follow]
    cases htarget : op.target with
    | none => exact hpass.map_left fun _ _ hk => hk
    | some y =>
      have hy : w.store.declares y = true := hscope y (by simp [Action.written?, htarget])
      simp only [Store.ensureInScope_eq_ok_iff.mpr hy]
      exact hpass.map_left fun _ _ hk => hk
  | ret x =>
    obtain ⟨hkind, rfl⟩ := hdoes
    simp only [Walk.perform, Stock.spend, hkind, Blocks.follow]
    cases hsource : op.source with
    | none => exact h.ret _
    | some x =>
      have hx : x ∈ (Action.ret op.source).written?.toList ++ (Action.ret op.source).operands := by
        simp [Action.operands, hsource]
      simp only [Walk.ret_of_quiet h.quiet (hscope x hx)]
      exact (h.handOver (hscope x hx) (hdirect x hx)).bind fun _ _ _ _ hk => hk.ret _
  | enter =>
    have hkind : op.kind = .enter := hdoes
    simp only [Walk.perform, Stock.spend, hkind, Blocks.follow]
    exact h.enter
  | exit =>
    have hkind : op.kind = .exit := hdoes
    obtain ⟨⟨dying, scopes⟩, hexit⟩ := Option.ne_none_iff_exists'.mp (hmatched rfl)
    simp only [Walk.perform, Stock.spend, hkind, Blocks.follow, Walk.exit_of_quiet h.quiet hexit]
    rw [← h.dying_eq hexit]
    exact h.leave hexit

/-- **One operation** goes for the walk as for the checker. -/
theorem step (h : k.Agrees w) (hbook : c.book.loans = []) (hop : op.Plain)
    (hret : w.returned = none) (hact : op.action = .ok a)
    (hfresh : ∀ x ty, a = .declare x ty → x.isRoot = true ∧ w.store.declares x = false)
    (hscope : ∀ x ∈ a.written?.toList ++ a.operands, w.store.declares x = true)
    (hmatched : a = .exit → w.store.scopes.exit? ≠ none) (hderef : ∀ x, a ≠ .deref x) :
    Parallel Blame.Of (fun u k => Agrees k u) (Walk.step c w op) (k.step c.policy op) := by
  have hdirect := hop.direct_of_mentions
  rw [Operation.mentions_eq hact] at hdirect
  rw [Walk.step_eq hret hact, Stock.step, Walk.settled_of_quiet h.quiet,
    Operation.written?_eq hact]
  refine (h.perform hbook hop hact hfresh hscope hmatched hderef).bind
    fun r k' hr _ hk' => ?_
  obtain ⟨u, target⟩ := r
  obtain ⟨hperf, rfl⟩ := Walk.perform_cases hr
  have hwritten : ∀ x, a.written? = some x → x ∈ a.written?.toList ++ a.operands :=
    fun x hx => by simp [hx]
  refine hk'.conclude (fun x hx => ?_) fun x hx => hdirect x (hwritten x hx)
  have hframe := hperf.sameFrame (Action.keepsFrame_of_written hx)
  exact (hframe.declares_eq x).trans (hscope x (hwritten x hx))

end Agrees

end Stock

namespace Function

variable {f : Function} {policy : Policy} {pre post : List Operation} {op : Operation}
  {w : Walk.State}

/-- **A well-formed operation of a plain function** goes for the walk as for the checker. -/
theorem Plain.step (h : f.Plain) (hops : f.ops = pre ++ op :: post)
    (hreach : f.reach policy pre = .ok w) (hwf : op.WellFormed f policy pre) {k : Stock}
    (hk : k.Agrees w) :
    Parallel Blame.Of (fun u k => Stock.Agrees k u) (Walk.step (f.context policy) w op)
      (k.step policy op) := by
  obtain ⟨a, hact⟩ := Operation.exists_action_iff.mpr ⟨hwf.known, hwf.target, hwf.source⟩
  obtain ⟨hfresh, hscope, hmatched⟩ := hwf.ready hact (models_of_reach hops hreach)
  refine hk.step (c := f.context policy) h.book_eq_nil (h.ops op (hops ▸ by simp))
    ((returned_eq_none_iff hops hreach).mpr hwf.unreturned) hact hfresh hscope hmatched ?_
  -- to go through a reference there would have to be one
  rintro x rfl
  refine h.not_refers hops x.holder (hwf.refers _ ?_)
  rw [Operation.follows_eq hact]
  exact Action.mem_follows.mpr (.inl ⟨x, rfl, rfl⟩)

theorem Plain.agrees_start (h : f.Plain) {store : Store}
    (hstore : Walk.declareParams f.params = .ok store) :
    Stock.Agrees { blocks := f.blocksAfter [], filled := f.params.map Param.name }
      (f.start store) := by
  obtain ⟨hlack, hdistinct⟩ :=
    Store.lack?_of_declareAll (s := {}) (fun _ => rfl) List.Pairwise.nil hstore
  have hdecl : ∀ n, (f.blocksAfter []).declares { base := n } = true ↔
      n ∈ f.params.map Param.name := by
    intro n
    rw [Blocks.declares_iff_mem, blocksAfter, List.foldl_nil, Blocks.vars_receiveAll]
    simp [Blocks.vars]
  refine ⟨Blocks.Models.empty.receiveAll hstore, h.isPlain_of_vars (List.nil_append _).symm, ?_,
    ?_, fun n hn => (hdecl n).mpr hn, fun n => ?_, fun y => ?_⟩
  · have hdue : ({} : Ledger).dueAt f.book f.entry = [] := by
      simp [Ledger.dueAt, LoanBook.takenAt, h.book_eq_nil]
    simp [start, Books.openForCaller, hdue]
  · refine Store.orderly_empty.of_le hdistinct fun y o hy => ?_
    have hnone : store.lack? y = some o := hy
    rw [hlack] at hnone
    cases hnone
  · rw [Store.awaits_iff_lack?, hdecl]
    refine iff_of_false (fun hn => ?_) fun hn => hn.2 hn.1
    cases (hlack _).symm.trans hn
  · constructor
    · rintro ⟨q, hq⟩
      cases (hlack y).symm.trans hq
    · rintro ⟨m, hm, -⟩
      cases hm

/-- **The plain checker follows the walk**: it accepts the operations that the walk goes through,
and agrees with it afterwards. -/
theorem Plain.exists_stock (h : f.Plain) (hord : f.Ordered) (hops : f.ops = pre ++ post)
    (hreach : f.reach policy pre = .ok w) : ∃ k, f.stock policy pre = .ok k ∧ k.Agrees w := by
  refine reach_induction (P := fun pre w => ∃ k, f.stock policy pre = .ok k ∧ k.Agrees w)
    (fun store hstore => ⟨_, rfl, h.agrees_start hstore⟩) ?_ hops hreach
  rintro pre op post w v hops hw ⟨k, hk, hagrees⟩ hstep
  have hwf := hord.wellFormed_of_step hops hw hstep
  obtain ⟨k', hstep', hagrees'⟩ := (h.step hops hw hwf hagrees).exists_ok hstep
  exact ⟨k', foldlM_append_eq_ok_iff.mpr ⟨k, hk, by rw [List.foldlM_cons, hstep']; rfl⟩, hagrees'⟩

/-- Where the walk refuses a well-formed operation of a plain function the checker does so too, by
the same rule and for the same place. -/
theorem Plain.refused_of_failsAt (h : f.Plain) (hord : f.Ordered) {v : Violation}
    (hfails : f.FailsAt policy pre op v) (hwf : op.WellFormed f policy pre) :
    ∃ k b, f.stock policy pre = .ok k ∧ k.step policy op = .error b ∧ v.rule = b.rule ∧
      v.place = some b.place := by
  obtain ⟨post, w, hops, hreach, hstep⟩ := hfails
  obtain ⟨k, hk, hagrees⟩ := h.exists_stock hord hops hreach
  obtain ⟨b, hb, v', hv, hrule, hplace⟩ := (h.step hops hreach hwf hagrees).exists_error hstep
  cases hv
  exact ⟨k, b, hk, hb, hrule, hplace⟩

/-- **Without references the verdict is that of the plain checker.** A plain function is accepted
exactly when its points increase, its parameters have different names, every operation is well
formed and the plain checker accepts all of them. If it is not accepted although points and
parameters are in order, it is rejected at an operation before which everything is well formed; and
if that operation is well formed too, the plain checker comes up to it and refuses it, by the rule
and for the place that are reported. -/
theorem plain_verdict (f : Function) (policy : Policy) (h : f.Plain) :
    (f.Accepted policy ↔
      f.Ordered ∧ (f.params.map Param.name).Nodup ∧ f.WellFormedUpTo policy f.ops ∧
        ∃ k, f.stock policy f.ops = .ok k) ∧
    (f.Ordered → (f.params.map Param.name).Nodup → ¬f.Accepted policy →
      ∃ finding, f.verdict policy = .ok (.rejected f.name finding) ∧
        ∃ pre op post, f.ops = pre ++ op :: post ∧ op.point = finding.point ∧
          f.WellFormedUpTo policy pre ∧
          (op.WellFormed f policy pre →
            ∃ k b, f.stock policy pre = .ok k ∧ k.step policy op = .error b ∧
              finding.rule = b.rule ∧ finding.place = some b.place)) := by
  refine ⟨⟨fun haccepted => ?_, fun ⟨hord, hparams, hwf, k, hk⟩ => ?_⟩,
    fun hord hparams hnot => ?_⟩
  · have hops : f.ops = f.ops ++ [] := (List.append_nil _).symm
    obtain ⟨-, w, hreach⟩ := accepted_iff.mp haccepted
    obtain ⟨store, hstore, -⟩ := bind_eq_ok_iff.mp hreach
    obtain ⟨k, hk, -⟩ := h.exists_stock haccepted.ordered hops hreach
    exact ⟨haccepted.ordered, nodup_of_declareParams hstore,
      haccepted.ordered.wellFormedUpTo_of_reach hops hreach, k, hk⟩
  · by_contra hnot
    obtain ⟨pre, op, v, hfails⟩ := exists_failsAt hord hparams hnot
    have ⟨post, _, hops, _⟩ := hfails
    obtain ⟨k', b, hk', hb, -⟩ := h.refused_of_failsAt hord hfails (hwf pre op post hops)
    rw [hops, stock, foldlM_append_eq_ok_iff] at hk
    obtain ⟨k'', hk'', hrest⟩ := hk
    obtain rfl : k' = k'' := Except.ok.inj (hk'.symm.trans hk'')
    rw [List.foldlM_cons, hb] at hrest
    cases hrest
  · obtain ⟨pre, op, v, hfails⟩ := exists_failsAt hord hparams hnot
    refine ⟨_, (rejected_iff hord hparams).mpr ⟨pre, op, v, hfails, rfl⟩, pre, op, ?_⟩
    have ⟨post, w, hops, hreach, _⟩ := hfails
    exact ⟨post, hops, rfl, hord.wellFormedUpTo_of_reach hops hreach,
      h.refused_of_failsAt hord hfails⟩

/-- In an inner block an element is moved out and replaced; a variable of the same name follows, and
in the end a part is written of a value that an argument took away. -/
def spendsPart : Function where
  name := "f"
  params :=
    [{ name := "v", ty := .named "Vec" [.named "S"] }, { name := "s", ty := .named "S" }]
  ops :=
    [.enter 1, .declare 2 { base := "t" } (.named "S"),
      .move 3 { base := "t" } { base := "v", path := [.index 0] },
      .assign 4 { base := "v", path := [.any none] } [{ base := "t" }], .exit 5,
      .declare 6 { base := "t" } (.named "i32"), .assign 7 { base := "t" } [],
      .call 8 "g" [{ place := { base := "t" } }, { place := { base := "s" } },
        { place := { base := "t" } }] (some { base := "v" }),
      .use 9 { base := "v", path := [.index 0] },
      .assign 10 (Place.field { base := "s" } "a") []]

theorem plain_verdict_spendsPart :
    (spendsPart.Plain ∧ spendsPart.Ordered ∧ (spendsPart.params.map Param.name).Nodup ∧
      spendsPart.WellFormedUpTo {} spendsPart.ops ∧
      ∃ finding, spendsPart.verdict {} = .ok (.rejected "f" finding) ∧ finding.point = 10 ∧
        finding.rule = .useOfMoved ∧
        ∃ pre op post, spendsPart.ops = pre ++ op :: post ∧ op.point = finding.point ∧
          ∃ k b, spendsPart.stock {} pre = .ok k ∧ k.step {} op = .error b ∧
            finding.rule = b.rule ∧ finding.place = some b.place) ∧
    ((spendsPart.firstOps 9).Plain ∧ (spendsPart.firstOps 9).Accepted {} ∧
      ∃ k, (spendsPart.firstOps 9).stock {} (spendsPart.firstOps 9).ops = .ok k) := by
  have hplain : spendsPart.Plain := by decide
  have hord : spendsPart.Ordered := ordered_of_disorder? (by decide)
  have hparams : (spendsPart.params.map Param.name).Nodup := by decide
  have hwf : spendsPart.WellFormedUpTo {} spendsPart.ops := by decide +kernel
  have hnot : ¬spendsPart.Accepted {} := by decide +kernel
  have hstop : ((spendsPart.walk {}).stop.map fun stop => (stop.fault, stop.point)) =
      some (.violation (.movedOut (Place.field { base := "s" } "a") (some 8) { base := "s" }),
        10) := by
    decide +kernel
  obtain ⟨finding', hverdict', hrule, hpoint, -⟩ := exists_finding hstop
  obtain ⟨finding, hverdict, pre, op, post, hops, hop, -, hrefused⟩ :=
    (plain_verdict spendsPart {} hplain).2 hord hparams hnot
  obtain rfl : finding' = finding := by
    rw [hverdict] at hverdict'
    cases hverdict'
    rfl
  have hplain' : (spendsPart.firstOps 9).Plain := by decide
  have haccepted : (spendsPart.firstOps 9).Accepted {} := by decide +kernel
  obtain ⟨-, -, -, hstock⟩ := (plain_verdict (spendsPart.firstOps 9) {} hplain').1.mp haccepted
  exact ⟨⟨hplain, hord, hparams, hwf, finding', hverdict, hpoint, hrule, pre, op, post, hops, hop,
    hrefused (hwf pre op post hops)⟩, hplain', haccepted, hstock⟩

end Function

end BorrowCheck
