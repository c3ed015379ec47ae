import BorrowCheck.Proofs.Parallel
import BorrowCheck.Proofs.Side
import BorrowCheck.Proofs.WellFormed

/-!
# Stores that are alike on some variables

Two stores are **alike** on a set of variables (`BorrowCheck.Store.AlikeOn`) when they give these
variables the same types and when the same places in them lack a value. How the cells came about,
in which order they stand and which loans they name does not matter: what a store answers about a
place of these variables is the same, and a check of such a place passes in both stores or fails in
both. Where it fails, the rule and the place are the same (`BorrowCheck.Fault.Alike`); the rest of
a finding may differ, because of several parts that were moved out the first one is reported.

An operation that names none of the variables leaves the store alike on them: before its write
(`BorrowCheck.Walk.Performed.bypasses`) and after it (`BorrowCheck.Walk.alikeOn_of_write`).
-/

namespace BorrowCheck

/-! ### The gist of a violation -/

/-- The rule and the place of a violation. -/
def Violation.gist (v : Violation) : Rule × Option Place :=
  (v.rule, v.place)

/-- The rule and the place of a fault; a borrow that is not recorded has none. -/
def Fault.gist : Fault → Option (Rule × Option Place)
  | violation v => some v.gist
  | unrecorded _ _ => none

/-- Two faults have the same **gist**. -/
def Fault.Alike (e e' : Fault) : Prop :=
  e'.gist = e.gist

/-- Two refusals agree when they are of violations with one gist, or of none. -/
theorem parallel_refuse {v v' : Option Violation}
    (h : v'.map Violation.gist = v.map Violation.gist) :
    Parallel Fault.Alike (fun _ _ => True) (refuse v) (refuse v') := by
  cases v with
  | none =>
    cases v' with
    | none => trivial
    | some v' => cases h
  | some v =>
    cases v' with
    | none => cases h
    | some v' => exact h

theorem parallel_refuseFlaw {α β : Type} {R : α → β → Prop} (f : Flaw) :
    Parallel Fault.Alike R (refuseFlaw f) (refuseFlaw f) :=
  rfl

/-! ### Stores -/

theorem findSome?_congr {α β : Type} {f g : α → Option β} {as : List α}
    (h : ∀ a ∈ as, f a = g a) : as.findSome? f = as.findSome? g := by
  induction as with
  | nil => rfl
  | cons a as ih =>
    rw [List.forall_mem_cons] at h
    rw [List.findSome?_cons, List.findSome?_cons, h.1, ih h.2]

namespace Store

/-- The stores are **alike on the variables** of `mine`: they know them under the same types, and
the same places in them lack a value. -/
structure AlikeOn (mine : String → Bool) (s s' : Store) : Prop where
  types : ∀ n, mine n = true → s'.types.lookup n = s.types.lookup n
  lack : ∀ y : Place, mine y.base = true → s'.lack? y = s.lack? y
  distinct : s.cells.Distinct
  distinct' : s'.cells.Distinct

variable {mine : String → Bool} {s s' t t' : Store} {x y : Place} {p : Point} {o : Ownership}

/-- What a place lacks says why the places in it cannot be used or written. -/
theorem within_congr (h : s'.lack? y = s.lack? y) :
    s'.lackingWithin? x y = s.lackingWithin? x y ∧
      s'.unwritableWithin? x y = s.unwritableWithin? x y := by
  simp only [lack?] at h
  simp only [lackingWithin?, unwritableWithin?]
  generalize s.cells.get? y = cell at h ⊢
  generalize s'.cells.get? y = cell' at h ⊢
  rcases cell with _ | ⟨_ | _ | _, _, _, _⟩ <;> rcases cell' with _ | ⟨_ | _ | _, _, _, _⟩ <;>
    simp_all [Cell.lack?]

/-- Whichever part was moved out, it is the whole that is reported as moved. -/
theorem gist_of_lackingUnder? {v : Violation} (h : s.lackingUnder? x = some v) :
    v.gist = (.useOfMoved, some x) := by
  obtain ⟨e, -, rfl⟩ := Option.map_eq_some_iff.mp h
  rfl

/-- A declaration gives one name a type, if it has none yet. -/
theorem lookup_declare {ty : Ty} {init : Bool} (h : s.declare x ty init = .ok t) (n : String) :
    t.types.lookup n = (s.types.lookup n).or (if n = x.base then some ty else none) := by
  obtain ⟨-, -, rfl⟩ := declare_eq_ok_iff.mp h
  rw [List.lookup_append, List.lookup_cons]
  cases hn : n == x.base <;> simp_all

namespace AlikeOn

theorem refl (h : s.cells.Distinct) : s.AlikeOn mine s :=
  ⟨fun _ _ => rfl, fun _ _ => rfl, h, h⟩

theorem trans (h : s.AlikeOn mine s') (h' : s'.AlikeOn mine t) : s.AlikeOn mine t :=
  ⟨fun n hn => (h'.types n hn).trans (h.types n hn), fun y hy => (h'.lack y hy).trans (h.lack y hy),
    h.distinct, h'.distinct'⟩

theorem symm (h : s.AlikeOn mine s') : s'.AlikeOn mine s :=
  ⟨fun n hn => (h.types n hn).symm, fun y hy => (h.lack y hy).symm, h.distinct', h.distinct⟩

/-! #### Questions -/

section Questions

variable (h : s.AlikeOn mine s') (hx : mine x.base = true)
include h hx

/-- The same variables are in scope. -/
theorem declares : s'.declares x = s.declares x := by
  rw [Store.declares, Store.declares, h.types _ hx]

theorem ty? (policy : Policy) : s'.ty? policy x = s.ty? policy x := by
  rw [Store.ty?, Store.ty?, h.types _ hx]

/-- The same values are copied, as this is said by the type alone. -/
theorem copies (policy : Policy) : s'.copies policy x = s.copies policy x := by
  rw [Store.copies, Store.copies, h.ty? hx]

theorem isReference (policy : Policy) : s'.isReference policy x = s.isReference policy x := by
  rw [Store.isReference, Store.isReference, h.ty? hx]

/-- The same variables wait for their first value. -/
theorem status_eq_uninit_iff (hroot : x.isRoot = true) :
    s'.status x = .uninit ↔ s.status x = .uninit := by
  rw [Store.status_eq_uninit_iff hroot, Store.status_eq_uninit_iff hroot, awaits_iff_lack?,
    awaits_iff_lack?, h.lack { base := x.base } hx]

/-- A part that was moved out is found in both stores or in none. -/
theorem lackingUnder? (hs : s.lackingUnder? x = none) : s'.lackingUnder? x = none := by
  rw [lackingUnder?_eq_none_iff] at hs ⊢
  cases hs' : s'.movedUnder? x.container with
  | none => rfl
  | some e =>
    obtain ⟨hq, hunder, hne⟩ := movedUnder?_cases h.distinct' hs'
    have hbase : mine e.1.base = true := by rwa [← (Place.isPrefixOf_iff.mp hunder).1]
    exact absurd hs (movedUnder?_ne_none ((h.lack e.1 hbase).symm.trans hq) hunder hne)

/-- A place cannot be used in either store for the same rule, and the same place is at fault. -/
theorem lacking? : (s'.lacking? x).map Violation.gist = (s.lacking? x).map Violation.gist := by
  have hwithin : x.trail.findSome? (s'.lackingWithin? x) =
      x.trail.findSome? (s.lackingWithin? x) := by
    refine findSome?_congr fun y hy => (within_congr (h.lack y ?_)).1
    rw [(Place.isPrefixOf_iff.mp (Place.isPrefixOf_of_mem_trail hy)).1, hx]
  rw [Store.lacking?, Store.lacking?, hwithin]
  split
  · rfl
  · -- it may be another part that is found, but then too it is `x` that cannot be used
    cases hs : s.lackingUnder? x with
    | none => rw [h.lackingUnder? hx hs]
    | some v =>
      cases hs' : s'.lackingUnder? x with
      | none =>
        rw [h.symm.lackingUnder? hx hs'] at hs
        cases hs
      | some v' =>
        rw [Option.map_some, Option.map_some, gist_of_lackingUnder? hs, gist_of_lackingUnder? hs']

end Questions

/-! #### Changes -/

/-- Putting the same cell in both stores, or cells that say the same about the value. -/
theorem put (h : s.AlikeOn mine s') (x : Place) {cell cell' : Cell}
    (heq : cell'.lack? = cell.lack?) :
    AlikeOn mine { s with cells := s.cells.put x cell }
      { s' with cells := s'.cells.put x cell' } := by
  refine ⟨h.types, fun y hy => ?_, h.distinct.put _ _, h.distinct'.put _ _⟩
  rw [lack?_put, lack?_put, h.lack y hy, heq]

/-- A new value for one place in both stores. -/
theorem restore (h : s.AlikeOn mine s') (x : Place) :
    (s.restore x).AlikeOn mine (s'.restore x) := by
  refine ⟨h.types, fun y hy => ?_, distinct_restore h.distinct, distinct_restore h.distinct'⟩
  rw [lack?_restore, lack?_restore, h.lack y hy]

/-! #### Checks -/

section Checks

variable (h : s.AlikeOn mine s') (hx : mine x.base = true)
include h hx

theorem ensureInScope :
    Parallel Fault.Alike (fun _ _ => True) (s.ensureInScope x) (s'.ensureInScope x) := by
  rw [Store.ensureInScope, Store.ensureInScope, h.declares hx]
  split
  · trivial
  · rfl

/-- A place has its value in both stores or in none. -/
theorem ensureValue :
    Parallel Fault.Alike (fun _ _ => True) (s.ensureValue x) (s'.ensureValue x) :=
  parallel_refuse (h.lacking? hx)

/-- A place is read under liens that may be told differently, but are of the same kinds. -/
theorem read {liens : List Lien} {g : Lien → Lien} (hg : ∀ l, (g l).kind = l.kind) :
    Parallel Fault.Alike (fun _ _ => True) (s.read x liens) (s'.read x (liens.map g)) := by
  refine (h.ensureValue hx).bind fun _ _ _ _ _ => parallel_refuse ?_
  simp only [List.find?_map, Function.comp_def, hg, Option.map_map]
  rfl

/-- A place is emptied in both stores, or the first lien on it stops both. -/
theorem vacate {liens : List Lien} (g : Lien → Lien) :
    Parallel Fault.Alike (AlikeOn mine) (s.vacate x p liens) (s'.vacate x p (liens.map g)) := by
  refine (h.ensureValue hx).bind fun _ _ _ _ _ => ?_
  refine (parallel_refuse ?_).bind fun _ _ _ _ _ => h.put x rfl
  rw [List.head?_map, Option.map_map, Option.map_map, Option.map_map]
  rfl

/-- A first value is given in both stores, or comes too late in both. -/
theorem fill : Parallel Fault.Alike (AlikeOn mine) (s.fill x) (s'.fill x) := by
  have hiff : ∀ t : Store, (∃ cell, t.cells.get? x = some cell ∧ cell.ownership = .uninit) ↔
      t.lack? x = some .uninit := by
    intro t
    rw [lack?_eq_uninit_iff, ownership?, Option.map_eq_some_iff]
  by_cases hlack : s.lack? x = some .uninit
  · rw [fill_eq_ok_iff.mpr ⟨(hiff s).mpr hlack, rfl⟩,
      fill_eq_ok_iff.mpr ⟨(hiff s').mpr ((h.lack x hx).trans hlack), rfl⟩]
    exact h.put x rfl
  · have hflaw : ∀ t : Store, t.lack? x ≠ some .uninit →
        t.fill x = refuseFlaw (.notUninit (some x)) := by
      intro t ht
      unfold Store.fill
      split
      next hget => exact absurd ((hiff t).mp ⟨_, hget, rfl⟩) ht
      next => rfl
    rw [hflaw s hlack, hflaw s' (h.lack x hx ▸ hlack)]
    exact parallel_refuseFlaw _

/-- A value is replaced in both stores, or the same enclosing place or the first lien stops both. -/
theorem overwrite {liens : List Lien} (g : Lien → Lien) :
    Parallel Fault.Alike (AlikeOn mine) (s.overwrite x liens) (s'.overwrite x (liens.map g)) := by
  have hwithin : x.enclosing.findSome? (s'.unwritableWithin? x) =
      x.enclosing.findSome? (s.unwritableWithin? x) := by
    refine findSome?_congr fun y hy => (within_congr (h.lack y ?_)).2
    rw [(Place.isPrefixOf_iff.mp (Place.isPrefixOf_of_mem_enclosing hy).1).1, hx]
  refine (parallel_refuse (by rw [hwithin])).bind fun _ _ _ _ _ => ?_
  refine (parallel_refuse ?_).bind fun _ _ _ _ _ => h.restore x
  rw [List.head?_map, Option.map_map, Option.map_map, Option.map_map]
  rfl

/-- A variable is declared in both stores, or is no variable or in scope already in both. -/
theorem declare (ty : Ty) (init : Bool) :
    Parallel Fault.Alike (AlikeOn mine) (s.declare x ty init) (s'.declare x ty init) := by
  cases ht : s.declare x ty init with
  | error e =>
    -- why it fails depends on `x` and on whether it is in scope
    unfold Store.declare at ht ⊢
    rw [h.declares hx]
    split
    next hroot =>
      rw [if_pos hroot] at ht
      exact congrArg Fault.gist (Except.error.inj ht)
    next hroot =>
      rw [if_neg hroot] at ht
      split
      next hdecl =>
        rw [if_pos hdecl] at ht
        exact congrArg Fault.gist (Except.error.inj ht)
      next hdecl =>
        rw [if_neg hdecl] at ht
        cases ht
  | ok t =>
    obtain ⟨hroot, hnew, -⟩ := declare_eq_ok_iff.mp ht
    obtain ⟨t', ht'⟩ : ∃ t', s'.declare x ty init = .ok t' :=
      ⟨_, declare_eq_ok_iff.mpr ⟨hroot, (h.declares hx).trans hnew, rfl⟩⟩
    rw [ht']
    refine ⟨fun n hn => ?_, fun y hy => ?_, distinct_declare h.distinct ht,
      distinct_declare h.distinct' ht'⟩
    · rw [lookup_declare ht, lookup_declare ht', h.types n hn]
    · rw [lack?_declare ht, lack?_declare ht', h.lack y hy]

end Checks

end AlikeOn

/-! #### Changes elsewhere -/

/-- The loans that a store names have nothing to do with values. -/
theorem alikeOn_encumber (hd : s.cells.Distinct) (kind : BorrowKind) (id : Int) :
    s.AlikeOn mine (s.encumber x kind id) :=
  ⟨fun _ _ => by rw [encumber_types], fun _ _ => lack?_encumber kind id, hd,
    distinct_encumber hd kind id⟩

/-- The same goes for closing loans. -/
theorem alikeOn_close {b : Books} (hd : b.store.cells.Distinct) (loans : List Loan) :
    b.store.AlikeOn mine (b.close loans).store :=
  ⟨fun _ _ => by rw [Books.close_types], fun _ _ => lack?_close b loans, hd,
    Books.close_induction b loans (fun s => s.cells.Distinct) hd
      fun _ loan hs => distinct_discharge hs loan.id⟩

/-- Stores that are alike stay so when each takes on a loan, whatever its number. -/
theorem AlikeOn.encumber (h : s.AlikeOn mine s') (x : Place) (kind : BorrowKind) (id id' : Int) :
    (s.encumber x kind id).AlikeOn mine (s'.encumber x kind id') :=
  (alikeOn_encumber h.distinct kind id).symm.trans (h.trans (alikeOn_encumber h.distinct' kind id'))

theorem AlikeOn.close {b b' : Books} (h : b.store.AlikeOn mine b'.store)
    (loans loans' : List Loan) : (b.close loans).store.AlikeOn mine (b'.close loans').store :=
  (alikeOn_close h.distinct loans).symm.trans (h.trans (alikeOn_close h.distinct' loans'))

/-- Places of different variables are different. -/
theorem not_same_of_mine (hx : mine x.base = false) (hy : mine y.base = true) :
    ¬x.same y = true := by
  intro hsame
  rw [← Place.base_eq_of_same hsame, hx] at hy
  cases hy

section Elsewhere

variable (hd : s.cells.Distinct) (hx : mine x.base = false)
include hd hx

/-- A cell of another variable does not count. -/
theorem alikeOn_put (cell : Cell) : s.AlikeOn mine { s with cells := s.cells.put x cell } := by
  refine ⟨fun _ _ => rfl, fun y hy => ?_, hd, hd.put _ _⟩
  rw [lack?_put, if_neg (not_same_of_mine hx hy)]

/-- Nor does a new value for another variable: only cells in it are dropped. -/
theorem alikeOn_restore : s.AlikeOn mine (s.restore x) := by
  refine ⟨fun _ _ => rfl, fun y hy => ?_, hd, distinct_restore hd⟩
  rw [lack?_restore, if_neg]
  intro hunder
  rw [← (Place.isPrefixOf_iff.mp hunder).1, hx] at hy
  cases hy

/-- Nor does the declaration of another variable. -/
theorem alikeOn_declare {ty : Ty} {init : Bool} (ht : s.declare x ty init = .ok t) :
    s.AlikeOn mine t := by
  refine ⟨fun n hn => ?_, fun y hy => ?_, hd, distinct_declare hd ht⟩
  · rw [lookup_declare ht, if_neg, Option.or_none]
    rintro rfl
    rw [hx] at hn
    cases hn
  · rw [lack?_declare ht, if_neg (not_same_of_mine hx hy)]

end Elsewhere

/-- Of several variables that are declared, those of `mine` alone. -/
theorem AlikeOn.declareAll {params : List Param} (h : s.AlikeOn mine s')
    (ht : params.foldlM (fun store param =>
      store.declare { base := param.name } param.ty true) s = .ok t) :
    ∃ t', (params.filter fun param => mine param.name).foldlM (fun store param =>
      store.declare { base := param.name } param.ty true) s' = .ok t' ∧
      t.AlikeOn mine t' := by
  induction params generalizing s s' with
  | nil => exact ⟨s', rfl, pure_eq_ok_iff.mp ht ▸ h⟩
  | cons param params ih =>
    obtain ⟨u, hu, hrest⟩ := foldlM_cons_eq_ok_iff.mp ht
    cases hmine : mine param.name with
    | true =>
      obtain ⟨u', hu', halike⟩ := (h.declare (x := { base := param.name }) hmine _ _).exists_ok hu
      obtain ⟨t', ht', hend⟩ := ih halike hrest
      refine ⟨t', ?_, hend⟩
      rw [List.filter_cons, if_pos hmine]
      exact foldlM_cons_eq_ok_iff.mpr ⟨u', hu', ht'⟩
    | false =>
      have hfirst : s.AlikeOn mine u :=
        alikeOn_declare (x := { base := param.name }) h.distinct hmine hu
      rw [List.filter_cons, if_neg (by rw [hmine]; exact Bool.false_ne_true)]
      exact ih (hfirst.symm.trans h) hrest

end Store

/-! ### The places of an action -/

/-- The places that an action is about. -/
def Action.named : Action → List Place
  | declare x _ => [x]
  | a => a.written?.toList ++ a.operands

theorem Action.mem_named_of_written {a : Action} {x : Place} (hx : a.written? = some x) :
    x ∈ a.named := by
  have hmem : x ∈ a.written?.toList ++ a.operands :=
    List.mem_append_left _ (Option.mem_toList.mpr hx)
  cases a with
  | declare _ _ => cases hx
  | assign _ _ | move _ _ | borrow _ _ _ | deref _ | use _ | call _ _ | ret _ | enter | exit =>
    exact hmem

/-- Whether an operation **stays in its block**: it does not return, and neither opens nor leaves
one. -/
def OpKind.staysInBlock : OpKind → Bool
  | ret | enter | exit => false
  | _ => true

/-- Whether an action stays in its block. -/
def Action.staysInBlock : Action → Bool
  | ret _ | enter | exit => false
  | _ => true

namespace Operation

variable {op : Operation} {a : Action} {x : Place}

/-- The action of an operation that stays in its block stays there. -/
theorem staysInBlock_of_action (hact : op.action = .ok a) (h : op.kind.staysInBlock = true) :
    a.staysInBlock = true := by
  have hdoes := action_cases hact
  cases a with
  | ret x => rw [hdoes.1] at h; cases h
  | enter | exit => rw [show op.kind = _ from hdoes] at h; cases h
  | declare _ _ | assign _ _ | move _ _ | borrow _ _ _ | deref _ | use _ | call _ _ => rfl

/-- An action is about places that its operation names. -/
theorem mem_named_of_action (hact : op.action = .ok a) (hx : x ∈ a.named) : x ∈ op.named := by
  have hdoes := action_cases hact
  have hsource : op.source = some x → x ∈ op.named := fun hsource =>
    List.mem_append_left _ (List.mem_append_right _ (mem_sources_of_source hsource))
  have htarget : op.target = some x → x ∈ op.named := fun htarget => by simp [named, htarget]
  cases a with
  | declare y ty => exact htarget (List.mem_singleton.mp hx ▸ hdoes.2)
  | assign y sources =>
    rcases List.mem_cons.mp hx with rfl | hx
    · exact htarget hdoes.2.1
    · rw [Action.operands, hdoes.2.2] at hx
      exact List.mem_append_left _ (List.mem_append_right _ hx)
  | move y z | borrow _ y z =>
    rcases List.mem_cons.mp hx with rfl | hx
    · exact htarget hdoes.2.1
    · exact hsource (List.mem_singleton.mp hx ▸ hdoes.2.2)
  | deref z | use z => exact hsource (List.mem_singleton.mp hx ▸ hdoes.2)
  | call args result =>
    rcases List.mem_append.mp hx with hx | hx
    · exact htarget (hdoes.2.1.trans (Option.mem_toList.mp hx))
    · rw [hdoes.2.2] at hx
      exact List.mem_append_right _ hx
  | ret z => exact hsource (hdoes.2.trans (Option.mem_toList.mp hx))
  | enter | exit => cases hx

end Operation

/-! ### Operations on other variables -/

namespace Walk

variable {mine : String → Bool} {c : Context} {w v u : State} {x y : Place} {p : Point}
  {op : Operation} {a : Action}

/-- Between `w` and `v` nothing was done to the variables of `mine`, and nothing was released. -/
structure Bypasses (mine : String → Bool) (w v : State) : Prop where
  store : w.store.AlikeOn mine v.store
  released : v.ledger.released = w.ledger.released

theorem Bypasses.refl (hd : w.store.cells.Distinct) : Bypasses mine w w :=
  ⟨.refl hd, rfl⟩

theorem Bypasses.trans (h : Bypasses mine w v) (h' : Bypasses mine v u) : Bypasses mine w u :=
  ⟨h.store.trans h'.store, h'.released.trans h.released⟩

/-- To end loans takes no value away and releases nothing. -/
theorem bypasses_settled (hd : w.store.cells.Distinct) (p : Point) (inclusive : Bool) :
    Bypasses mine w (settled w p inclusive) :=
  ⟨Store.alikeOn_close hd _, rfl⟩

/-- A value that leaves another variable. -/
theorem bypasses_vacate (hd : w.store.cells.Distinct) (hx : mine x.base = false)
    (h : vacate w x p = .ok v) : Bypasses mine w v := by
  obtain ⟨-, -, -, -, rfl⟩ := vacate_eq_ok_iff.mp h
  exact ⟨Store.alikeOn_put hd hx _, rfl⟩

theorem bypasses_handOver (hd : w.store.cells.Distinct) (hx : mine x.base = false)
    (h : handOver c w x p = .ok v) : Bypasses mine w v := by
  rcases handOver_cases h with ⟨-, rfl⟩ | hvacate
  · exact .refl hd
  · exact bypasses_vacate hd hx hvacate

/-- A loan is noted in the store, but takes no value away. -/
theorem bypasses_lend (hd : w.store.cells.Distinct) {borrower : Option Place} {kind : BorrowKind}
    {books : Books} {l : Loan} (h : w.toBooks.lend c.book borrower x kind p = .ok (books, l)) :
    Bypasses mine w { w with toBooks := books } := by
  obtain ⟨-, -, rfl⟩ := Books.lend_eq_ok_iff.mp h
  exact ⟨Store.alikeOn_encumber hd _ _, rfl⟩

/-- A borrow of whichever variable: it is the books that change, not the values. -/
theorem bypasses_borrow (hd : w.store.cells.Distinct) {borrower : Option Place} {kind : BorrowKind}
    (h : borrow c w borrower kind x p = .ok v) : Bypasses mine w v := by
  obtain ⟨-, -, -, books, l, hlend, rfl⟩ := borrow_cases h
  exact bypasses_lend hd hlend

/-- The arguments of a call on other variables, by induction on their list. -/
theorem bypasses_passAll {args : List Arg} (hd : w.store.cells.Distinct)
    (hargs : ∀ b ∈ args, mine b.place.base = false) (h : args.foldlM (passArg c p) w = .ok v) :
    Bypasses mine w v := by
  induction args generalizing w with
  | nil => exact pure_eq_ok_iff.mp h ▸ .refl hd
  | cons b args ih =>
    rw [List.forall_mem_cons] at hargs
    obtain ⟨u, hu, hrest⟩ := foldlM_cons_eq_ok_iff.mp h
    have hpass : Bypasses mine w u := by
      rcases passArg_cases hu with ⟨-, hover⟩ | ⟨kind, -, hborrow⟩
      · exact bypasses_handOver hd hargs.1 hover
      · exact bypasses_borrow hd hborrow
    exact hpass.trans (ih hpass.store.distinct' hargs.2 hrest)

/-- The loans that a move renews, by induction on their list. -/
theorem bypasses_lendAll {loans : List Loan} {books : Books} (hd : w.store.cells.Distinct)
    (h : lendAll c y p w.toBooks loans = .ok books) :
    Bypasses mine w { w with toBooks := books } := by
  induction loans generalizing w with
  | nil => exact pure_eq_ok_iff.mp h ▸ .refl hd
  | cons l loans ih =>
    obtain ⟨first, hfirst, hrest⟩ := foldlM_cons_eq_ok_iff.mp h
    obtain ⟨⟨_, m⟩, hm, hpure⟩ := bind_eq_ok_iff.mp hfirst
    obtain rfl := pure_eq_ok_iff.mp hpure
    have hlend : Bypasses mine w _ := bypasses_lend hd hm
    exact hlend.trans (ih hlend.store.distinct' hrest)

/-- A move from another variable. Its target does not matter here, as it is written later. -/
theorem bypasses_move (hd : w.store.cells.Distinct) (hx : mine x.base = false)
    (h : move c w y x p = .ok v) : Bypasses mine w v := by
  obtain ⟨-, books, hlend, ⟨-, rfl⟩ | hvacate⟩ := move_cases h
  · exact bypasses_lendAll hd hlend
  · have hall : Bypasses mine w _ := bypasses_lendAll hd hlend
    exact hall.trans (bypasses_vacate hall.store.distinct' hx hvacate)

/-- What an action about other variables does before its write. -/
theorem Performed.bypasses (h : Performed c p w v a) (hd : w.store.cells.Distinct)
    (ha : ∀ x ∈ a.named, mine x.base = false) (hstays : a.staysInBlock = true) :
    Bypasses mine w v := by
  cases a with
  | declare x ty =>
    obtain ⟨store, hstore, rfl⟩ := h
    exact ⟨Store.alikeOn_declare hd (ha x List.mem_cons_self) hstore, rfl⟩
  | assign _ _ | deref _ | use _ =>
    obtain ⟨-, rfl⟩ := h
    exact .refl hd
  | move y x => exact bypasses_move hd (ha x (.tail y (.head _))) h
  | borrow kind y x => exact bypasses_borrow hd h.2
  | call args result =>
    exact bypasses_passAll hd
      (fun b hb => ha b.place (List.mem_append_right _ (List.mem_map_of_mem hb))) h
  | ret _ | enter | exit => cases hstays

/-- A write to another variable. -/
theorem alikeOn_of_write {closed : List Loan} (h : write c w closed x p = .ok v)
    (hd : w.store.cells.Distinct) (hx : mine x.base = false) :
    w.store.AlikeOn mine v.store ∧ ∀ i, i ∈ v.ledger.released →
      i ∈ w.ledger.released ∨ ∃ l ∈ w.ledger.outstanding, l.id = i ∧
        ∃ y, l.borrower = some y ∧ mine y.base = false := by
  obtain ⟨-, ⟨-, -, rfl⟩ | ⟨-, store, hstore, rfl⟩⟩ := write_cases h
  · exact ⟨.refl hd, fun i hi => .inl hi⟩
  · refine ⟨?_, fun i hi => ?_⟩
    · rcases hstore with ⟨-, -, hfill⟩ | ⟨-, rfl⟩
      · obtain ⟨-, rfl⟩ := Store.fill_eq_ok_iff.mp hfill
        exact Store.alikeOn_put hd hx _
      · exact Store.alikeOn_restore hd hx
    · rcases Ledger.mem_released_of_releaseUnder hi with hi | ⟨l, hl, hid, -, y, hy, hunder⟩
      · exact .inl hi
      · refine .inr ⟨l, hl, hid, y, hy, ?_⟩
        rw [← (Place.isPrefixOf_iff.mp hunder).1, hx]

end Walk

end BorrowCheck
