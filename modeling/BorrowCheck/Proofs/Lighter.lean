import BorrowCheck.Proofs.Frozen
import BorrowCheck.Proofs.Passes
import BorrowCheck.Proofs.Thinned

/-!
# States with fewer obstacles

Most checks of a walk look for obstacles: places without a value, and loans. A state is **lighter**
than another one when all that stands in the way in it, renamed, stands in the way in the other
(`BorrowCheck.Walk.Lighter`): a place that lacks a value lacks it there too, and a loan that is
outstanding is outlasted by one that is outstanding there. What passes in the heavier state then
passes in the lighter one, and afterwards the one state is still lighter than the other. There is
one lemma for each check and for each change of store and ledger.

Variables that wait for their first value are the same in both, since a first write is not checked
as a later one is.
-/

namespace BorrowCheck

/-! ### Stores -/

namespace Store

variable {σ : Proj → Proj} {s s' t t' : Store} {x : Place} {p : Point}

/-- The store `s'` is **lighter** than `s`: it has the same variables, and what lacks a value lacks
it in `s` as well. -/
structure Lighter (σ : Proj → Proj) (s s' : Store) : Prop where
  types : s'.types = s.types
  scopes : s'.scopes = s.scopes
  distinct : s'.cells.Distinct
  lack : ∀ z o, s'.lack? z = some o → ∃ y : Place, z.same (y.rename σ) = true ∧ s.lack? y = some o
  awaits : ∀ n, s'.Awaits n ↔ s.Awaits n

theorem Lighter.declares (h : s.Lighter σ s') (x : Place) :
    s'.declares (x.rename σ) = s.declares x := by
  rw [Store.declares, Store.declares, h.types, Place.base_rename]

/-- What is not about values keeps a store lighter. -/
theorem Lighter.congr (h : s.Lighter σ s') (ht : ∀ y, t.lack? y = s.lack? y)
    (ht' : ∀ z, t'.lack? z = s'.lack? z) (htypes : t'.types = t.types)
    (hscopes : t'.scopes = t.scopes) (hd : t'.cells.Distinct) : t.Lighter σ t' where
  types := htypes
  scopes := hscopes
  distinct := hd
  lack z o hz := by
    rw [ht'] at hz
    obtain ⟨y, hsame, hy⟩ := h.lack z o hz
    exact ⟨y, hsame, by rw [ht, hy]⟩
  awaits n := by
    rw [awaits_iff_lack?, awaits_iff_lack?, ht, ht', ← awaits_iff_lack?, ← awaits_iff_lack?,
      h.awaits]

theorem Lighter.enter (h : s.Lighter σ s') : s.enter.Lighter σ s'.enter :=
  h.congr (fun _ => rfl) (fun _ => rfl) h.types (congrArg Scopes.enter h.scopes) h.distinct

/-- Closing loans, whichever they are, keeps a store lighter. -/
theorem Lighter.close {m m' : Books} (h : m.store.Lighter σ m'.store) (loans loans' : List Loan) :
    (m.close loans).store.Lighter σ (m'.close loans').store := by
  refine h.congr (fun _ => lack?_close _ _) (fun _ => lack?_close _ _) ?_ ?_ ?_
  · rw [Books.close_types, Books.close_types, h.types]
  · rw [Books.close_scopes, Books.close_scopes, h.scopes]
  · exact Books.close_induction m' loans' (fun s => s.cells.Distinct) h.distinct
      fun _ loan hs => distinct_discharge hs loan.id

/-- All indices lead to the same type. -/
theorem tyAlong_index_congr {c : Policy} {t : Ty} {i j : Proj} {ps : List Proj}
    (hi : i.isIndex = true) (hj : j.isIndex = true) :
    tyAlong c t (i :: ps) = tyAlong c t (j :: ps) := by
  cases i <;> cases hi <;> cases j <;> cases hj <;> simp only [tyAlong]

section

variable (hσ : Proj.Faithful σ)

include hσ

theorem Lighter.isLocal (h : s.Lighter σ s') (x : Place) :
    s'.isLocal (x.rename σ) = s.isLocal x := by
  rw [Store.isLocal, Store.isLocal, h.declares, Place.throughRef_rename hσ]

/-- Types are found along a path whatever its fields are called and its indices are. -/
theorem tyAlong_map (c : Policy) (t : Ty) (ps : List Proj) :
    tyAlong c t (ps.map σ) = tyAlong c t ps := by
  induction ps generalizing t with
  | nil => rfl
  | cons p ps ih =>
    rw [List.map_cons]
    cases p with
    | deref => rw [hσ.deref, tyAlong, tyAlong, ih]
    | field name =>
      obtain ⟨name', hname⟩ := hσ.field name
      rw [hname, tyAlong, tyAlong]
    | index value =>
      rw [tyAlong_index_congr (j := .index value) (hσ.isIndex _) rfl]
      simp only [tyAlong, ih]
    | any label =>
      rw [tyAlong_index_congr (j := .any label) (hσ.isIndex _) rfl]
      simp only [tyAlong, ih]

theorem Lighter.ty? (h : s.Lighter σ s') (c : Policy) (x : Place) :
    s'.ty? c (x.rename σ) = s.ty? c x := by
  simp only [Store.ty?, h.types, Place.rename, tyAlong_map hσ]

theorem Lighter.copies (h : s.Lighter σ s') (c : Policy) (x : Place) :
    s'.copies c (x.rename σ) = s.copies c x := by
  rw [Store.copies, Store.copies, h.ty? hσ]

theorem Lighter.isReference (h : s.Lighter σ s') (c : Policy) (x : Place) :
    s'.isReference c (x.rename σ) = s.isReference c x := by
  rw [Store.isReference, Store.isReference, h.ty? hσ]

/-! #### Values -/

/-- **What can be used can be used in a lighter store.** -/
theorem Lighter.lacking? (h : s.Lighter σ s') (hx : s.lacking? x = none) :
    s'.lacking? (x.rename σ) = none := by
  obtain ⟨hwithin, hreach⟩ := lack?_of_lacking? hx
  refine (lacking?_eq_none_iff h.distinct).mpr ⟨fun z hz hlack => ?_, fun z q hz hlack => ?_⟩
  · obtain ⟨y, hsame, hy⟩ := h.lack z _ hlack
    rw [Place.isPrefixOf_congr_left hsame, Place.isPrefixOf_rename hσ] at hz
    rw [hwithin y hz] at hy
    cases hy
  · obtain ⟨y, hsame, hy⟩ := h.lack z _ hlack
    rw [Place.reaches_congr hsame, Place.reaches_rename hσ] at hz
    exact hreach y q hz hy

/-- What can be written as a part can be so in a lighter store. -/
theorem Lighter.unwritable (h : s.Lighter σ s')
    (hx : x.enclosing.findSome? (s.unwritableWithin? x) = none) :
    (x.rename σ).enclosing.findSome? (s'.unwritableWithin? (x.rename σ)) = none := by
  rw [List.findSome?_eq_none_iff] at hx ⊢
  intro z hz
  obtain ⟨hunder, hne⟩ := Place.isPrefixOf_of_mem_enclosing hz
  rw [unwritableWithin?_eq_none_iff]
  cases hlack : s'.lack? z with
  | none => rfl
  | some o =>
    obtain ⟨y, hsame, hy⟩ := h.lack z o hlack
    rw [Place.isPrefixOf_congr_left hsame, Place.isPrefixOf_rename hσ] at hunder
    rw [Place.same_congr_left hsame, Place.same_rename hσ] at hne
    obtain ⟨y', hy', hsame'⟩ := Place.exists_mem_enclosing hunder hne
    have hnone := unwritableWithin?_eq_none_iff.mp (hx y' hy')
    rw [lack?_congr hsame', hy] at hnone
    cases hnone

/-- A value that is moved out of both. -/
theorem Lighter.vacate (h : s.Lighter σ s') (hx : s.lacking? x = none) :
    (s.drain x p).Lighter σ (s'.drain (x.rename σ) p) where
  types := h.types
  scopes := h.scopes
  distinct := distinct_drain h.distinct p
  lack z o hz := by
    rw [lack?_drain] at hz
    split at hz
    next hsame =>
      rw [Place.same_comm] at hsame
      exact ⟨x, hsame, by rw [lack?_drain, if_pos (Place.same_refl x), hz]⟩
    next hne =>
      obtain ⟨y, hsame, hy⟩ := h.lack z o hz
      refine ⟨y, hsame, ?_⟩
      rw [lack?_drain, if_neg, hy]
      rwa [Place.rename_same_congr hσ hsame] at hne
  awaits n := by
    rw [awaits_drain (h.lacking? hσ hx), awaits_drain hx, h.awaits]

omit hσ in
/-- A value that is moved out of the heavier store only. -/
theorem Lighter.vacate_left (h : s.Lighter σ s') (hx : s.lacking? x = none) :
    (s.drain x p).Lighter σ s' where
  types := h.types
  scopes := h.scopes
  distinct := h.distinct
  lack z o hz := by
    obtain ⟨y, hsame, hy⟩ := h.lack z o hz
    refine ⟨y, hsame, ?_⟩
    rw [lack?_drain, if_neg, hy]
    intro hxy
    rw [← lack?_congr hxy, (lack?_of_lacking? hx).1 x (Place.isPrefixOf_refl x)] at hy
    cases hy
  awaits n := by rw [awaits_drain hx, h.awaits]

theorem Lighter.fill (h : s.Lighter σ s') :
    (s.own x .owned).Lighter σ (s'.own (x.rename σ) .owned) where
  types := h.types
  scopes := h.scopes
  distinct := distinct_own h.distinct _
  lack z o hz := by
    rw [lack?_own_owned] at hz
    split at hz
    · cases hz
    next hne =>
      obtain ⟨y, hsame, hy⟩ := h.lack z o hz
      refine ⟨y, hsame, ?_⟩
      rw [lack?_own_owned, if_neg, hy]
      rwa [Place.rename_same_congr hσ hsame] at hne
  awaits n := by
    have hsame : (x.rename σ).same { base := n } = x.same { base := n } :=
      Place.same_rename hσ (y := { base := n })
    simp only [awaits_iff_lack?, lack?_own_owned, hsame]
    split
    · exact Iff.rfl
    · rw [← awaits_iff_lack?, ← awaits_iff_lack?, h.awaits]

theorem Lighter.restore (h : s.Lighter σ s') :
    (s.restore x).Lighter σ (s'.restore (x.rename σ)) where
  types := h.types
  scopes := h.scopes
  distinct := distinct_restore h.distinct
  lack z o hz := by
    rw [lack?_restore] at hz
    split at hz
    · cases hz
    next hnot =>
      obtain ⟨y, hsame, hy⟩ := h.lack z o hz
      refine ⟨y, hsame, ?_⟩
      rw [lack?_restore, if_neg, hy]
      rwa [Place.isPrefixOf_congr hsame, Place.isPrefixOf_rename hσ] at hnot
  awaits n := by
    have hunder : (x.rename σ).isPrefixOf { base := n } = x.isPrefixOf { base := n } :=
      Place.isPrefixOf_rename hσ (y := { base := n })
    simp only [awaits_iff_lack?, lack?_restore, hunder]
    split
    · exact Iff.rfl
    · rw [← awaits_iff_lack?, ← awaits_iff_lack?, h.awaits]

omit hσ in
theorem Lighter.endStorage (h : s.Lighter σ s') (roots : List String) :
    (s.endStorage roots).Lighter σ (s'.endStorage roots) where
  types := by rw [Store.endStorage, Store.endStorage, h.types]
  scopes := h.scopes
  distinct := h.distinct.keepKeys _
  lack z o hz := by
    rw [lack?_endStorage] at hz
    split at hz
    · cases hz
    next hnot =>
      obtain ⟨y, hsame, hy⟩ := h.lack z o hz
      refine ⟨y, hsame, ?_⟩
      rw [lack?_endStorage, if_neg, hy]
      rwa [Place.base_eq_of_same hsame] at hnot
  awaits n := by
    simp only [awaits_iff_lack?, lack?_endStorage]
    split
    · exact Iff.rfl
    · rw [← awaits_iff_lack?, ← awaits_iff_lack?, h.awaits]

theorem Lighter.declare {ty : Ty} {init : Bool} (h : s.Lighter σ s')
    (ht : s.declare x ty init = .ok t) :
    ∃ t', s'.declare (x.rename σ) ty init = .ok t' ∧ t.Lighter σ t' := by
  obtain ⟨t', ht'⟩ : ∃ t', s'.declare (x.rename σ) ty init = .ok t' := by
    obtain ⟨hroot, hnew, -⟩ := declare_eq_ok_iff.mp ht
    exact ⟨_, declare_eq_ok_iff.mpr ⟨(Place.isRoot_rename x).trans hroot,
      (h.declares x).trans hnew, rfl⟩⟩
  refine ⟨t', ht', ?_, ?_, distinct_declare h.distinct ht', fun z o hz => ?_, fun n => ?_⟩
  · obtain ⟨-, -, rfl⟩ := declare_eq_ok_iff.mp ht
    obtain ⟨-, -, rfl⟩ := declare_eq_ok_iff.mp ht'
    rw [h.types, Place.base_rename]
  · obtain ⟨-, -, rfl⟩ := declare_eq_ok_iff.mp ht
    obtain ⟨-, -, rfl⟩ := declare_eq_ok_iff.mp ht'
    rw [h.scopes, Place.base_rename]
  · rw [lack?_declare ht'] at hz
    split at hz
    next hsame =>
      rw [Place.same_comm] at hsame
      exact ⟨x, hsame, by rw [lack?_declare ht, if_pos (Place.same_refl x), hz]⟩
    next hne =>
      obtain ⟨y, hsame, hy⟩ := h.lack z o hz
      refine ⟨y, hsame, ?_⟩
      rw [lack?_declare ht, if_neg, hy]
      rwa [Place.rename_same_congr hσ hsame] at hne
  · have hsame : (x.rename σ).same { base := n } = x.same { base := n } :=
      Place.same_rename hσ (y := { base := n })
    simp only [awaits_iff_lack?, lack?_declare ht, lack?_declare ht', hsame]
    split
    · exact Iff.rfl
    · rw [← awaits_iff_lack?, ← awaits_iff_lack?, h.awaits]

end

end Store

/-! ### Ledgers -/

namespace Ledger

variable {σ : Proj → Proj} {q p : Point} {b b' : LoanBook} {m m' : Ledger} {l l' : Loan} {x : Place}

/-- The loan `l` of the ledger `m` **backs** `l'` of `m'`: it outlasts it, was taken through the
same loans, and is held if `l'` is. -/
structure Backs (σ : Proj → Proj) (q : Point) (b b' : LoanBook) (m m' : Ledger) (l l' : Loan) : Prop
    extends l.Outlasts σ q l' where
  lasts : l'.last ≤ l.last
  lineage : b'.lineage l' = b.lineage l
  released : l.id ∈ m.released → l'.id ∈ m'.released

/-- The ledger `m'` is **lighter** than `m`: each of its outstanding loans is backed by one of
`m`. -/
def Lighter (σ : Proj → Proj) (q : Point) (b b' : LoanBook) (m m' : Ledger) : Prop :=
  ∀ l' ∈ m'.outstanding, ∃ l ∈ m.outstanding, Backs σ q b b' m m' l l'

theorem Backs.isExclusive (h : Backs σ q b b' m m' l l') : l'.isExclusive = l.isExclusive := by
  rw [Loan.isExclusive, Loan.isExclusive, h.kind]

theorem isHeldAt_iff {test : Place → Bool} :
    m.isHeldAt test l = true ↔ ∃ y, l.borrower = some y ∧ l.id ∉ m.released ∧ test y = true := by
  unfold isHeldAt
  cases l.borrower <;> simp

/-- What is held where `test'` says is backed by what is held where `test` says. -/
theorem Backs.isHeldAt {test test' : Place → Bool} (h : Backs σ q b b' m m' l l')
    (htest : ∀ y : Place, test' (y.rename σ) = true → test y = true)
    (hheld : m'.isHeldAt test' l' = true) : m.isHeldAt test l = true := by
  obtain ⟨y', hy', hkept, hy⟩ := isHeldAt_iff.mp hheld
  rw [h.borrower, Option.map_eq_some_iff] at hy'
  obtain ⟨y, hborrower, rfl⟩ := hy'
  exact isHeldAt_iff.mpr ⟨y, hborrower, fun hmem => hkept (h.released hmem), htest y hy⟩

section

variable (hσ : Proj.Faithful σ)

include hσ

theorem Backs.overlaps (h : Backs σ q b b' m m' l l')
    (hover : l'.target.overlaps (x.rename σ) = true) : l.target.overlaps x = true := by
  rw [h.target] at hover
  exact Place.overlaps_of_rename hσ hover

theorem Lighter.freeToRead (h : Lighter σ q b b' m m') (hfree : m.FreeToRead x p) :
    m'.FreeToRead (x.rename σ) p := by
  intro l' hl' hover hexcl
  obtain ⟨l, hl, hbacks⟩ := h l' hl'
  rw [hbacks.isExclusive] at hexcl
  exact lt_of_le_of_lt hbacks.lasts (hfree l hl (hbacks.overlaps hσ hover) hexcl)

theorem Lighter.freeToMove (h : Lighter σ q b b' m m') (hfree : m.FreeToMove x p) :
    m'.FreeToMove (x.rename σ) p := by
  intro l' hl' hover
  obtain ⟨l, hl, hbacks⟩ := h l' hl'
  exact lt_of_le_of_lt hbacks.lasts (hfree l hl (hbacks.overlaps hσ hover))

theorem Lighter.freeToWrite (h : Lighter σ q b b' m m') (hfree : m.FreeToWrite x p) :
    m'.FreeToWrite (x.rename σ) p := by
  intro l' hl' hover
  obtain ⟨l, hl, hbacks⟩ := h l' hl'
  exact le_trans hbacks.lasts (hfree l hl (hbacks.overlaps hσ hover))

theorem Lighter.heldUnder (h : Lighter σ q b b' m m') (hl' : l' ∈ m'.heldUnder (x.rename σ)) :
    ∃ l ∈ m.heldUnder x, Backs σ q b b' m m' l l' := by
  obtain ⟨hout, hheld⟩ := List.mem_filter.mp hl'
  obtain ⟨l, hl, hbacks⟩ := h l' hout
  refine ⟨l, List.mem_filter.mpr ⟨hl, hbacks.isHeldAt (fun y hy => ?_) hheld⟩, hbacks⟩
  rwa [Place.isPrefixOf_rename hσ] at hy

/-- What a place of the lighter state holds is backed by what it holds in the heavier one. -/
theorem Lighter.heldAt (h : Lighter σ q b b' m m') (hl' : l' ∈ m'.heldAt (x.rename σ) []) :
    ∃ l ∈ m.heldAt x [], Backs σ q b b' m m' l l' := by
  obtain ⟨hout, hheld⟩ := List.mem_filter.mp hl'
  rw [List.append_nil] at hout
  obtain ⟨l, hl, hbacks⟩ := h l' hout
  refine ⟨l, List.mem_filter.mpr ⟨List.mem_append_left _ hl,
    hbacks.isHeldAt (fun y hy => ?_) hheld⟩, hbacks⟩
  rwa [Place.same_rename hσ] at hy

omit hσ in
theorem Lighter.reborrows (h : Lighter σ q b b' m m') (hid : l'.id = l.id) {other' : Loan}
    (hother : other' ∈ m'.reborrows b' l') :
    ∃ other ∈ m.reborrows b l, Backs σ q b b' m m' other other' := by
  obtain ⟨hout, htest⟩ := List.mem_filter.mp hother
  obtain ⟨other, hmem, hbacks⟩ := h other' hout
  refine ⟨other, List.mem_filter.mpr ⟨hmem, ?_⟩, hbacks⟩
  rwa [hbacks.lineage, hbacks.id, hid] at htest

theorem Lighter.freeToUse (h : Lighter σ q b b' m m') (hfree : m.FreeToUse b x p) :
    m'.FreeToUse b' (x.rename σ) p := by
  intro l' hl' other' hother' hexcl
  obtain ⟨l, hl, hbacks⟩ := h.heldUnder hσ hl'
  obtain ⟨other, hother, hbacks'⟩ := h.reborrows hbacks.id hother'
  rw [hbacks'.isExclusive] at hexcl
  exact lt_of_le_of_lt hbacks'.lasts (hfree l hl other hother hexcl)

/-- **A loan that nothing excludes** is not excluded in a lighter ledger. -/
theorem Lighter.excluding? (h : Lighter σ q b b' m m') (hl : l.Outlasts σ q l')
    (hlineage : b'.lineage l' = b.lineage l) (hnone : m.excluding? b l = none) :
    m'.excluding? b' l' = none := by
  refine List.find?_eq_none.mpr fun other' hother' htest => ?_
  obtain ⟨other, hother, hbacks⟩ := h other' hother'
  refine List.find?_eq_none.mp hnone other hother ?_
  simp only [Bool.and_eq_true] at htest ⊢
  rw [hlineage, hbacks.id, hl.target, Loan.isExclusive, hl.kind, ← Loan.isExclusive,
    hbacks.isExclusive] at htest
  exact ⟨⟨htest.1.1, hbacks.overlaps hσ htest.1.2⟩, htest.2⟩

end

/-- Closing the loans that end before `p`, or, when `inclusive`, at it, in both ledgers. -/
theorem Lighter.strike_expired (h : Lighter σ q b b' m m')
    (hid : ∀ a ∈ m.outstanding, ∀ a' ∈ m.outstanding, a.id = a'.id → a = a') (p : Point)
    (inclusive : Bool) : Lighter σ q b b' (m.strike (m.expired p inclusive))
      (m'.strike (m'.expired p inclusive)) := by
  intro l' hl'
  obtain ⟨hout', hkept⟩ := List.mem_filter.mp hl'
  obtain ⟨l, hl, hbacks⟩ := h l' hout'
  refine ⟨l, ?_, ⟨hbacks.toOutlasts, hbacks.lasts, hbacks.lineage, hbacks.released⟩⟩
  rw [expired, outstanding_strike hid, List.mem_filter]
  refine ⟨hl, ?_⟩
  -- what ends in the heavier ledger ended in the lighter one
  rw [Bool.not_eq_true', Bool.eq_false_iff] at hkept ⊢
  intro hends
  refine hkept (List.contains_iff_mem.mpr (List.mem_map_of_mem (List.mem_filter.mpr ⟨hout', ?_⟩)))
  have hlasts := hbacks.lasts
  simp only [Bool.or_eq_true, Bool.and_eq_true, decide_eq_true_eq] at hends ⊢
  rcases hends with hlt | ⟨hincl, heq⟩
  · exact .inl (lt_of_le_of_lt hlasts hlt)
  · rw [heq] at hlasts
    exact (lt_or_eq_of_le hlasts).imp_right fun heq' => ⟨hincl, heq'⟩

/-- A new value that is written in both at `p` releases in the heavier ledger only what it releases
in the lighter one. -/
theorem Lighter.releaseUnder (hσ : Proj.Faithful σ) (h : Lighter σ q b b' m m')
    (hid : ∀ a ∈ m.outstanding, ∀ a' ∈ m.outstanding, a.id = a'.id → a = a') (hq : q < p) :
    Lighter σ q b b' (m.releaseUnder x p) (m'.releaseUnder (x.rename σ) p) := by
  intro l' hl'
  obtain ⟨l, hl, hbacks⟩ := h l' hl'
  refine ⟨l, hl, ⟨hbacks.toOutlasts, hbacks.lasts, hbacks.lineage, fun hmem => ?_⟩⟩
  rcases mem_released_of_releaseUnder hmem with hmem | ⟨a, ha, heq, horigin, y, hy, hunder⟩
  · exact List.mem_append_left _ (hbacks.released hmem)
  · obtain rfl := hid a ha l hl heq
    refine mem_released_of_isPrefixOf (y := y.rename σ) hl' ?_ ?_ ?_
    · rw [hbacks.borrower, hy, Option.map_some]
    · rwa [Place.isPrefixOf_rename hσ]
    · rcases hbacks.origin with heq | ⟨-, hle⟩
      · rwa [heq]
      · exact lt_of_le_of_lt hle hq

/-- A loan that is opened in both. -/
theorem Lighter.record (h : Lighter σ q b b' m m') (hl : l.Outlasts σ q l')
    (hlast : l'.last ≤ l.last) (hlineage : b'.lineage l' = b.lineage l)
    (hnew : l.id ∉ m.released) : Lighter σ q b b' (m.record l) (m'.record l') := by
  intro other' hother'
  rcases List.mem_append.mp hother' with hold | hone
  · obtain ⟨other, hother, hbacks⟩ := h other' hold
    exact ⟨other, List.mem_append_left _ hother,
      ⟨hbacks.toOutlasts, hbacks.lasts, hbacks.lineage, hbacks.released⟩⟩
  · obtain rfl := List.mem_singleton.mp hone
    exact ⟨l, List.mem_append_right _ List.mem_cons_self,
      ⟨hl, hlast, hlineage, fun hmem => absurd hmem hnew⟩⟩

end Ledger

/-! ### Walks -/

namespace Walk

variable {σ : Proj → Proj} {q p : Point} {policy : Policy} {b b' : LoanBook} {w w' u : State}
  {x : Place}

/-- The state `w'` is **lighter** than `w`. -/
structure Lighter (σ : Proj → Proj) (q : Point) (b b' : LoanBook) (w w' : State) : Prop where
  store : w.store.Lighter σ w'.store
  ledger : w.ledger.Lighter σ q b b' w'.ledger
  returned : w'.returned = w.returned

theorem Lighter.settled (h : Lighter σ q b b' w w')
    (hid : ∀ a ∈ w.ledger.outstanding, ∀ a' ∈ w.ledger.outstanding, a.id = a'.id → a = a')
    (p : Point) (inclusive : Bool) :
    Lighter σ q b b' (settled w p inclusive) (Walk.settled w' p inclusive) :=
  ⟨h.store.close _ _, h.ledger.strike_expired hid p inclusive, h.returned⟩

section

variable (hσ : Proj.Faithful σ)

include hσ

/-- **What can be read can be read in a lighter state.** -/
theorem Lighter.read (h : Lighter σ q b b' w w')
    (hread : read { policy, book := b } w x p = .ok ()) :
    Walk.read { policy, book := b' } w' (x.rename σ) p = .ok () := by
  obtain ⟨hdecl, hval, hfree, hrebo⟩ := read_eq_ok_iff.mp hread
  rw [reborrowed?_eq_none_iff] at hrebo
  rw [read_eq_ok_iff, reborrowed?_eq_none_iff, Place.holder_rename hσ, h.store.declares]
  exact ⟨hdecl, h.store.lacking? hσ hval, h.ledger.freeToRead hσ hfree,
    h.ledger.freeToUse hσ hrebo⟩

/-- **What can be moved out can be so in a lighter state.** -/
theorem Lighter.vacate (h : Lighter σ q b b' w w') (hvac : vacate w x p = .ok u) :
    ∃ u', Walk.vacate w' (x.rename σ) p = .ok u' ∧ Lighter σ q b b' u u' := by
  obtain ⟨hdecl, href, hval, hfree, rfl⟩ := vacate_eq_ok_iff.mp hvac
  refine ⟨_, vacate_eq_ok_iff.mpr ⟨by rwa [h.store.declares], by rwa [Place.throughRef_rename hσ],
    h.store.lacking? hσ hval, h.ledger.freeToMove hσ hfree, rfl⟩, ?_⟩
  exact ⟨h.store.vacate hσ hval, h.ledger, h.returned⟩

omit hσ in
/-- A value that is moved out of the heavier state only. -/
theorem Lighter.vacate_left (h : Lighter σ q b b' w w') (hvac : Walk.vacate w x p = .ok u) :
    Lighter σ q b b' u w' := by
  obtain ⟨-, -, hval, -, rfl⟩ := vacate_eq_ok_iff.mp hvac
  exact ⟨h.store.vacate_left hval, h.ledger, h.returned⟩

/-- Handing a value on, when both states take it for a reference or neither does. -/
theorem Lighter.handOver (h : Lighter σ q b b' w w')
    (hsame : isReference { policy, book := b' } w' (x.rename σ) =
      isReference { policy, book := b } w x)
    (hover : handOver { policy, book := b } w x p = .ok u) :
    ∃ u', Walk.handOver { policy, book := b' } w' (x.rename σ) p = .ok u' ∧
      Lighter σ q b b' u u' := by
  unfold Walk.handOver at hover ⊢
  rw [hsame, h.store.copies hσ]
  split
  next hcond =>
    rw [if_pos hcond, check_bind_eq_ok_iff, pure_eq_ok_iff] at hover
    obtain ⟨hread, rfl⟩ := hover
    exact ⟨w', check_bind_eq_ok_iff.mpr ⟨h.read hσ hread, rfl⟩, h⟩
  next hcond =>
    rw [if_neg hcond] at hover
    exact h.vacate hσ hover

/-- What passes for an exclusive reference in the lighter state does so in the heavier one. -/
theorem Lighter.isExclusiveReference (h : Lighter σ q b b' w w')
    (hexcl : isExclusiveReference { policy, book := b' } w' (x.rename σ) = true) :
    Walk.isExclusiveReference { policy, book := b } w x = true := by
  rw [Walk.isExclusiveReference, Bool.or_eq_true] at hexcl ⊢
  rcases hexcl with hheld | hty
  · obtain ⟨l', hl', hkind⟩ := List.any_eq_true.mp hheld
    obtain ⟨l, hl, hbacks⟩ := h.ledger.heldAt hσ hl'
    exact .inl (List.any_eq_true.mpr ⟨l, hl, by rw [← hbacks.isExclusive, hkind]⟩)
  · rw [h.store.ty? hσ] at hty
    exact .inr hty

/-- **A loan that can be opened can be opened in a lighter state**, when the loan that is due there
is the same one, renamed. -/
theorem Lighter.lend (h : Lighter σ q b b' w w') {y : Option Place} {kind : BorrowKind}
    {books : Books} {l l' : Loan} (hlend : w.toBooks.lend b y x kind p = .ok (books, l))
    (hdue : w'.ledger.due? b' (y.map (Place.rename σ)) (x.rename σ) kind p = some l')
    (hl : l.Outlasts σ q l') (hlast : l'.last ≤ l.last) (hlineage : b'.lineage l' = b.lineage l)
    (hnew : l.id ∉ w.ledger.released) :
    ∃ books', w'.toBooks.lend b' (y.map (Place.rename σ)) (x.rename σ) kind p = .ok (books', l') ∧
      Lighter σ q b b' { w with toBooks := books } { w' with toBooks := books' } := by
  obtain ⟨-, hexcl, rfl⟩ := Books.lend_eq_ok_iff.mp hlend
  refine ⟨_, Books.lend_eq_ok_iff.mpr ⟨hdue, h.ledger.excluding? hσ hl hlineage hexcl, rfl⟩, ?_, ?_,
    h.returned⟩
  · exact h.store.congr (fun _ => Store.lack?_encumber _ _) (fun _ => Store.lack?_encumber _ _)
      (by rw [Store.encumber_types, Store.encumber_types, h.store.types])
      (by rw [Store.encumber_scopes, Store.encumber_scopes, h.store.scopes])
      (Store.distinct_encumber h.store.distinct _ _)
  · exact h.ledger.record hl hlast hlineage hnew

/-- **What can be written directly can be written in a lighter state.** -/
theorem Lighter.write (h : Lighter σ q b b' w w') {closed closed' : List Loan}
    (hid : ∀ a ∈ w.ledger.outstanding, ∀ a' ∈ w.ledger.outstanding, a.id = a'.id → a = a')
    (hq : q < p) (href : x.throughRef = false)
    (hwrite : Walk.write { policy, book := b } w closed x p = .ok u) :
    ∃ u', Walk.write { policy, book := b' } w' closed' (x.rename σ) p = .ok u' ∧
      Lighter σ q b b' u u' := by
  have href' : (x.rename σ).throughRef = false := by rwa [Place.throughRef_rename hσ]
  have hledger := h.ledger.releaseUnder hσ hid hq (x := x)
  simp only [write_eq_ok_iff href', h.store.declares, Place.isRoot_rename, Place.base_rename,
    h.store.awaits]
  obtain ⟨hdecl, ⟨hroot, hawaits, rfl⟩ | ⟨hnot, henclosing, hfree, rfl⟩⟩ :=
    (write_eq_ok_iff href).mp hwrite
  · exact ⟨_, ⟨hdecl, .inl ⟨hroot, hawaits, rfl⟩⟩, h.store.fill hσ, hledger, h.returned⟩
  · exact ⟨_, ⟨hdecl, .inr ⟨hnot, h.store.unwritable hσ henclosing,
      h.ledger.freeToWrite hσ hfree, rfl⟩⟩, h.store.restore hσ, hledger, h.returned⟩

end

end Walk

end BorrowCheck
