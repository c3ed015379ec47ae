import BorrowCheck.Proofs.Notes
import BorrowCheck.Proofs.Outstanding
import Mathlib.Data.List.MinMax

/-!
# Cells and ledger agree

A cell names the loans of its place apart from the ledger. That the two agree is not a matter of
course: a cell can be dropped, made anew or given another ownership while loans are outstanding.
`BorrowCheck.Walk.Noted` is the invariant. Whatever a cell names is outstanding, and a loan of
storage of the function that is needed later is named by the cell of its target. There is one
exception. A cell has room for one exclusive loan only, so a reborrow of the same place takes the
room of the older loan, and when it is closed the cell names none (`BorrowCheck.Ledger.Latest`).

Besides, what is lent is intact (`BorrowCheck.Walk.Intact`): neither what contains it nor what it
contains was moved out, since a move out of storage that is lent is refused. So a cell without a
value names no loan, and what is lent exclusively is shown as such, unless another part of its
container was moved out.
-/

namespace BorrowCheck

namespace Walk

variable {c : Context} {callers : List String} {b : LoanBook} {now p : Point} {w u : State}
  {x y : Place} {l : Loan}

open Store in
/-- **Every effect keeps the store tidy.** -/
theorem Effect.tidy (heffect : Effect c callers p w u) (h : w.store.Tidy) : u.store.Tidy := by
  cases heffect with
  | lent => exact h.encumber
  | vacated hvac =>
    obtain ⟨hdecl, href, hval, -, rfl⟩ := vacate_eq_ok_iff.mp hvac
    have hstore : w.store.vacate _ p [] = .ok (w.store.drain _ p) :=
      Store.vacate_eq_ok_iff.mpr ⟨hval, rfl, rfl⟩
    exact ⟨h.toOrderly.vacate hdecl hstore, h.housed.put hdecl _, direct_put h.direct href _⟩
  | declared _ hdecl => exact h.declare hdecl
  | blocked scopes =>
    exact ⟨h.of_le h.distinct fun y o hy => ⟨hy, h.declared hy⟩, h.housed, h.direct⟩
  | closed q _ => exact h.close _
  | ended roots _ => exact h.endStorage roots
  | returned => exact h
  | written hwrite =>
    obtain ⟨hdecl, ⟨-, -, rfl⟩ | ⟨href, store, hstore, rfl⟩⟩ := write_cases hwrite
    · exact h
    · have hlocal := isLocal_iff.mpr ⟨href, hdecl⟩
      rcases hstore with ⟨-, -, hfill⟩ | ⟨-, rfl⟩
      · obtain ⟨-, rfl⟩ := Store.fill_eq_ok_iff.mp hfill
        exact h.own_owned hlocal
      · exact h.restore hlocal

/-! ### What is lent is intact -/

/-- **What is lent is intact**: as far as the loan is needed after `p`, neither what contains its
target nor what lies in it lacks a value. -/
def Intact (p : Point) (w : State) : Prop :=
  ∀ l ∈ w.ledger.outstanding, p < l.last → l.target.throughRef = false →
    ∀ y, l.target.nests y = true → w.store.lack? y = none

theorem Intact.mono (h : Intact now w) (hle : now ≤ p) : Intact p w :=
  fun l hl hlast => h l hl (lt_of_le_of_lt hle hlast)

/-- What opens no loan and takes no value away keeps what is lent intact. -/
theorem Intact.of_le (h : Intact p w) (hsub : u.ledger.outstanding ⊆ w.ledger.outstanding)
    (hle : ∀ y, w.store.lack? y = none → u.store.lack? y = none) : Intact p u :=
  fun l hl hlast href y hy => hle y (h l (hsub hl) hlast href y hy)

/-- What can be used is intact: only whole variables wait for a value. -/
theorem lack?_of_usable (hw : w.store.Orderly) (hval : w.store.lacking? x = none)
    (hy : x.nests y = true) : w.store.lack? y = none := by
  obtain ⟨habove, hreach⟩ := Store.lack?_of_lacking? hval
  rcases Place.nests_cases hy with hy | hy
  · exact habove y hy
  · cases hlack : w.store.lack? y with
    | none => rfl
    | some o =>
      have hbase := (Place.isPrefixOf_iff.mp hy).1
      cases o with
      | uninit =>
        -- the variable itself waits, and it contains `x`
        have hroot := hw.whole hlack
        have hover : y.isPrefixOf x = true := by
          rw [hroot, Place.isPrefixOf_iff]
          exact ⟨hbase.symm, List.nil_prefix⟩
        rw [habove y hover] at hlack
        cases hlack
      | moved q => exact absurd hlack (hreach y q (Place.reaches_of_isPrefixOf hy))

/-- What is backed is intact. -/
theorem Intact.of_backed (h : Intact p w) (hw : w.store.Orderly) (hlast : p < l.last)
    (href : l.target.throughRef = false) (hbacked : Backed w l) (hy : l.target.nests y = true) :
    w.store.lack? y = none := by
  cases hbacked with
  | value _ hval => exact lack?_of_usable hw hval hy
  | @parent m ps hm hle htarget =>
    rw [htarget] at href hy
    exact h m hm (lt_of_lt_of_le hlast hle) (Place.throughRef_eq_false_of_append href) y
      (Place.nests_of_append hy)

/-- **Every effect keeps what is lent intact.** -/
theorem Intact.effect (h : Intact p w) (hground : Grounded callers p w) (hw : w.store.Orderly)
    (heffect : Effect c callers p w u) : Intact p u := by
  cases heffect with
  | lent _ _ hbacked =>
    intro l hl hlast href y hy
    rw [Store.lack?_encumber]
    rcases List.mem_append.mp hl with hl | hl
    · exact h l hl hlast href y hy
    · obtain rfl := List.mem_singleton.mp hl
      exact h.of_backed hw hlast href (hbacked hlast href) hy
  | vacated hvac =>
    obtain ⟨-, -, -, hfree, rfl⟩ := vacate_eq_ok_iff.mp hvac
    intro l hl hlast href y hy
    rw [Store.lack?_drain, if_neg]
    · exact h l hl hlast href y hy
    · -- a move out of storage that is needed is refused
      intro hsame
      have hover := Place.overlaps_of_nests hy
      rw [← Place.overlaps_congr hsame] at hover
      exact lt_asymm hlast (hfree l hl hover)
  | declared hnew hdecl =>
    intro l hl hlast href y hy
    rw [Store.lack?_declare hdecl, if_neg]
    · exact h l hl hlast href y hy
    · intro hsame
      refine hground.base_ne hl hlast href hnew (Store.declare_eq_ok_iff.mp hdecl).2.1 ?_
      rw [Place.base_eq_of_nests hy, Place.base_eq_of_same hsame]
  | blocked scopes => exact h
  | closed q _ =>
    refine h.of_le (List.filter_subset_self _) fun y hy => ?_
    rw [Store.lack?_close, hy]
  | ended roots _ =>
    refine h.of_le (List.Subset.refl _) fun y hy => ?_
    rw [Store.lack?_endStorage, hy, ite_self]
  | returned => exact h
  | written hwrite =>
    rcases (write_cases hwrite).2 with ⟨-, -, rfl⟩ | ⟨-, store, hstore, rfl⟩
    · exact h
    · rcases hstore with ⟨-, -, hfill⟩ | ⟨-, rfl⟩
      · obtain ⟨-, rfl⟩ := Store.fill_eq_ok_iff.mp hfill
        refine h.of_le (List.Subset.refl _) fun y hy => ?_
        rw [Store.lack?_own_owned, hy, ite_self]
      · refine h.of_le (List.Subset.refl _) fun y hy => ?_
        rw [Store.lack?_restore, hy, ite_self]

end Walk

/-! ### Cells and ledger agree -/

/-- No younger exclusive loan of the same place was opened. -/
def Ledger.Latest (ledger : Ledger) (b : LoanBook) (l : Loan) : Prop :=
  ∀ m ∈ b.loans, m.id ∈ ledger.opened → m.kind = .exclusive → m.target.same l.target = true →
    m.id ≤ l.id

namespace Walk

variable {c : Context} {callers : List String} {b : LoanBook} {now p : Point} {w u : State}
  {x y : Place} {l : Loan}

/-- **Cells and ledger agree.** -/
structure Noted (b : LoanBook) (p : Point) (w : State) : Prop where
  /-- What a cell names is an outstanding loan of its place. -/
  outstanding : ∀ {y kind i}, w.store.Names y kind i →
    ∃ l ∈ w.ledger.outstanding, l.kind = kind ∧ l.target.same y = true ∧ (l.id : Int) = i
  /-- A loan of storage of the function that is needed later is named by the cell of its target;
  of the exclusive loans of one place this is the youngest that was opened. -/
  named : ∀ l ∈ w.ledger.outstanding, p < l.last → w.store.isLocal l.target = true →
    (l.kind = .exclusive → w.ledger.Latest b l) → w.store.Names l.target l.kind l.id

theorem Noted.mono (h : Noted b now w) (hle : now ≤ p) : Noted b p w :=
  ⟨h.outstanding, fun l hl hlast => h.named l hl (lt_of_le_of_lt hle hlast)⟩

/-- What leaves loans, cells' notes and variables alone keeps cells and ledger in agreement. -/
theorem Noted.congr (h : Noted b p w) (hout : u.ledger.outstanding = w.ledger.outstanding)
    (hopened : u.ledger.opened = w.ledger.opened) (htypes : u.store.types = w.store.types)
    (hnames : ∀ {y kind i}, u.store.Names y kind i ↔ w.store.Names y kind i) : Noted b p u where
  outstanding := fun hn => by
    rw [hout]
    exact h.outstanding (hnames.mp hn)
  named := fun l hl hlast hlocal hlatest => by
    rw [hout] at hl
    rw [Store.isLocal_of_types htypes] at hlocal
    refine hnames.mpr (h.named l hl hlast hlocal fun hexcl m hm hopen => ?_)
    exact hlatest hexcl m hm (hopened ▸ hopen)

/-- Opening a loan notes it in the cell of its target, if that is storage of the function. -/
theorem Noted.record (h : Noted c.book p w) (hl : l ∈ c.book.loans)
    (hyoung : ∀ m ∈ w.ledger.outstanding, m.id < l.id) :
    Noted c.book p
      { w with store := w.store.encumber l.target l.kind l.id, ledger := w.ledger.record l } := by
  have holder : ∀ m, (m.kind = .exclusive → (w.ledger.record l).Latest c.book m) →
      m.kind = .exclusive → w.ledger.Latest c.book m := fun m hm hexcl m' hm' hopen =>
    hm hexcl m' hm' (List.mem_append_left _ hopen)
  by_cases hlocal : w.store.isLocal l.target = true
  · refine ⟨fun {y kind i} hn => ?_, fun m hm hlast hlocal' hlatest => ?_⟩
    · rw [Store.names_encumber hlocal] at hn
      split at hn
      next hsame =>
        rcases Cell.names_encumber.mp hn with ⟨rfl, rfl⟩ | ⟨hn, -⟩
        · exact ⟨l, List.mem_append_right _ (List.mem_singleton_self l), rfl, hsame, rfl⟩
        · obtain ⟨m, hm, hkind, hsame', hid⟩ := h.outstanding hn
          exact ⟨m, List.mem_append_left _ hm, hkind, Place.same_trans hsame' hsame, hid⟩
      next =>
        obtain ⟨m, hm, hrest⟩ := h.outstanding hn
        exact ⟨m, List.mem_append_left _ hm, hrest⟩
    · rw [Store.isLocal_of_types (Store.encumber_types _ _)] at hlocal'
      rw [Store.names_encumber hlocal]
      rcases List.mem_append.mp hm with hm | hm
      · have hold := h.named m hm hlast hlocal' (holder m hlatest)
        split
        next hsame =>
          rw [Cell.names_encumber]
          refine .inr ⟨(Store.names_congr hsame).mpr hold, ?_⟩
          -- an exclusive loan that gives its room to the new one is not the latest
          rintro ⟨hexcl, hexcl'⟩
          have hle := hlatest hexcl' l hl (List.mem_append_right _ (List.mem_singleton_self _))
            hexcl hsame
          exact absurd (hyoung m hm) (Nat.not_lt.mpr hle)
        next => exact hold
      · obtain rfl := List.mem_singleton.mp hm
        rw [if_pos (Place.same_refl _), Cell.names_encumber]
        exact .inl ⟨rfl, rfl⟩
  · have hsame : w.store.encumber l.target l.kind l.id = w.store := if_neg hlocal
    simp only [hsame]
    refine ⟨fun hn => ?_, fun m hm hlast hlocal' hlatest => ?_⟩
    · obtain ⟨m, hm, hrest⟩ := h.outstanding hn
      exact ⟨m, List.mem_append_left _ hm, hrest⟩
    · rcases List.mem_append.mp hm with hm | hm
      · exact h.named m hm hlast hlocal' (holder m hlatest)
      · obtain rfl := List.mem_singleton.mp hm
        exact absurd hlocal' hlocal

/-- Closing loans strikes them from the cells of their targets, and no others. -/
theorem Noted.close (h : Noted b p w) (q : Loan → Bool)
    (hid : ∀ l ∈ w.ledger.outstanding, ∀ m ∈ w.ledger.outstanding, l.id = m.id → l = m) :
    Noted b p { w with toBooks := w.toBooks.close (w.ledger.outstanding.filter q) } := by
  have hout := Ledger.outstanding_strike (q := q) hid
  refine ⟨fun {y kind i} hn => ?_, fun l hl hlast hlocal hlatest => ?_⟩
  · obtain ⟨hn, hkeep⟩ := Store.names_close.mp hn
    obtain ⟨l, hl, hkind, hsame, rfl⟩ := h.outstanding hn
    refine ⟨l, ?_, hkind, hsame, rfl⟩
    simp only [Books.close, hout, List.mem_filter, Bool.not_eq_true']
    refine ⟨hl, Bool.eq_false_iff.mpr fun hq => ?_⟩
    exact hkeep l (List.mem_filter.mpr ⟨hl, hq⟩) ⟨hsame, rfl⟩
  · simp only [Books.close, hout, List.mem_filter, Bool.not_eq_true'] at hl
    rw [Store.isLocal_of_types (Books.close_types _ _)] at hlocal
    refine Store.names_close.mpr ⟨h.named l hl.1 hlast hlocal hlatest, ?_⟩
    rintro m hm ⟨-, heq⟩
    obtain ⟨hm, hq⟩ := List.mem_filter.mp hm
    obtain rfl := hid l hl.1 m hm (Int.ofNat_inj.mp heq)
    rw [hl.2] at hq
    cases hq

/-- A declaration makes a new cell, and no loan is of the variable. -/
theorem Noted.declare {ty : Ty} {store : Store} (h : Noted b p w)
    (hground : Grounded callers p w) (hnew : x.base ∉ callers)
    (hdecl : w.store.declare x ty false = .ok store) : Noted b p { w with store } := by
  have hfresh := (Store.declare_eq_ok_iff.mp hdecl).2.1
  refine ⟨fun hn => h.outstanding ((Store.names_declare hdecl).mp hn).2,
    fun l hl hlast hlocal hlatest => ?_⟩
  obtain ⟨href, hscope⟩ := Store.isLocal_iff.mp hlocal
  have hne := hground.base_ne hl hlast href hnew hfresh
  have hold : w.store.declares l.target = true := by
    obtain ⟨-, -, rfl⟩ := Store.declare_eq_ok_iff.mp hdecl
    rw [Store.declares_iff_mem, List.map_append, List.mem_append] at hscope
    rcases hscope with hscope | hscope
    · exact Store.declares_iff_mem.mpr hscope
    · exact absurd (List.mem_singleton.mp hscope) hne
  refine (Store.names_declare hdecl).mpr ⟨?_, h.named l hl hlast
    (Store.isLocal_iff.mpr ⟨href, hold⟩) hlatest⟩
  exact Bool.eq_false_iff.mpr fun hsame => hne (Place.base_eq_of_same hsame).symm

/-- The end of storage drops cells; what is lent of it is not storage of the function any more. -/
theorem Noted.endStorage (h : Noted b p w) (roots : List String) :
    Noted b p { w with store := w.store.endStorage roots } := by
  refine ⟨fun hn => h.outstanding (Store.names_endStorage.mp hn).2,
    fun l hl hlast hlocal hlatest => ?_⟩
  obtain ⟨href, hscope⟩ := Store.isLocal_iff.mp hlocal
  obtain ⟨hscope, hstay⟩ := Store.declares_endStorage.mp hscope
  exact Store.names_endStorage.mpr
    ⟨hstay, h.named l hl hlast (Store.isLocal_iff.mpr ⟨href, hscope⟩) hlatest⟩

/-- **Every effect keeps cells and ledger in agreement.** -/
theorem Noted.effect (h : Noted c.book p w) (hground : Grounded callers p w)
    (htidy : w.store.Tidy) (heffect : Effect c callers p w u) : Noted c.book p u := by
  cases heffect with
  | lent hl hyoung _ => exact h.record hl hyoung
  | vacated hvac =>
    obtain ⟨-, -, -, -, rfl⟩ := vacate_eq_ok_iff.mp hvac
    exact h.congr rfl rfl rfl Store.names_drain
  | declared hnew hdecl => exact h.declare hground hnew hdecl
  | blocked scopes => exact h.congr rfl rfl rfl Iff.rfl
  | closed q hid => exact h.close q hid
  | ended roots _ => exact h.endStorage roots
  | returned => exact h.congr rfl rfl rfl Iff.rfl
  | written hwrite =>
    rcases (write_cases hwrite).2 with ⟨-, -, rfl⟩ | ⟨-, store, hstore, rfl⟩
    · exact h
    · rcases hstore with ⟨-, -, hfill⟩ | ⟨-, rfl⟩
      · obtain ⟨-, rfl⟩ := Store.fill_eq_ok_iff.mp hfill
        exact h.congr rfl rfl rfl Store.names_own
      · exact h.congr rfl rfl rfl (Store.names_restore htidy.distinct)

/-! ### Steps and runs -/

/-- The invariants together. -/
structure Tended (b : LoanBook) (callers : List String) (p : Point) (w : State) : Prop where
  grounded : Grounded callers p w
  tidy : w.store.Tidy
  intact : Intact p w
  noted : Noted b p w

theorem Tended.mono (h : Tended b callers now w) (hle : now ≤ p) : Tended b callers p w :=
  ⟨h.grounded.mono hle, h.tidy, h.intact.mono hle, h.noted.mono hle⟩

theorem Tended.effects (h : Tended c.book callers p w) (heffects : Effects c callers p w u) :
    Tended c.book callers p u := by
  induction heffects with
  | refl => exact h
  | tail _ hlast ih =>
    exact ⟨ih.grounded.effect hlast, hlast.tidy ih.tidy,
      ih.intact.effect ih.grounded ih.tidy.toOrderly hlast,
      ih.noted.effect ih.grounded ih.tidy hlast⟩

/-- A place whose cell names a loan has a value, when all loans are needed later. -/
theorem Tended.lack?_of_names {kind : BorrowKind} {i : Int} (h : Tended b callers p w)
    (hlast : ∀ l ∈ w.ledger.outstanding, p < l.last) (href : y.throughRef = false)
    (hn : w.store.Names y kind i) : w.store.lack? y = none := by
  obtain ⟨l, hl, -, hsame, -⟩ := h.noted.outstanding hn
  rw [← Place.throughRef_congr hsame] at href
  exact h.intact l hl (hlast l hl) href y (Place.nests_of_same hsame)

end Walk

namespace Function

variable {f : Function} {policy : Policy} {pre post : List Operation} {w : Walk.State}

/-- **Names of the function's own**: neither a parameter nor a declaration takes a name of the
storage of the caller. -/
def OwnNames (f : Function) : Prop :=
  ∀ n ∈ f.params.map Param.name ++ f.declared, n ∉ f.callers

instance (f : Function) : Decidable f.OwnNames :=
  inferInstanceAs (Decidable (∀ n ∈ _, n ∉ f.callers))

/-- A store in which parameters were declared: they have values, and are not lent. -/
theorem fresh_of_declare {params : List Param} {store store' : Store} {names : List String}
    (hstart : store.Tidy ∧ (∀ y, store.lack? y = none) ∧ (∀ y kind i, ¬store.Names y kind i) ∧
      ∀ x, store.declares x = true → x.base ∈ names)
    (hnames : params.map Param.name ⊆ names)
    (h : params.foldlM (fun store param =>
      store.declare { base := param.name } param.ty true) store = .ok store') :
    store'.Tidy ∧ (∀ y, store'.lack? y = none) ∧ (∀ y kind i, ¬store'.Names y kind i) ∧
      ∀ x, store'.declares x = true → x.base ∈ names := by
  refine foldlM_induction (fun store => store.Tidy ∧ (∀ y, store.lack? y = none) ∧
    (∀ y kind i, ¬store.Names y kind i) ∧ ∀ x, store.declares x = true → x.base ∈ names) hstart ?_ h
  rintro s param hparam t ⟨htidy, hlack, hnone, hscope⟩ hdecl
  refine ⟨htidy.declare hdecl, fun y => ?_, fun y kind i hn => ?_, fun x hx => ?_⟩
  · rw [Store.lack?_declare hdecl, hlack y]
    exact ite_self _
  · exact hnone y kind i ((Store.names_declare hdecl).mp hn).2
  · obtain ⟨-, -, rfl⟩ := Store.declare_eq_ok_iff.mp hdecl
    rw [Store.declares_iff_mem, List.map_append, List.mem_append] at hx
    rcases hx with hx | hx
    · exact hscope x (Store.declares_iff_mem.mpr hx)
    · rw [List.mem_singleton.mp hx]
      exact hnames (List.mem_map_of_mem hparam)

/-- At the beginning nothing is lent but storage of the caller, which has no cells. -/
theorem Ordered.tended_start (h : f.Ordered) (hown : f.OwnNames) {store : Store}
    (hstore : Walk.declareParams f.params = .ok store) :
    Walk.Tended f.book f.callers (f.entry - 1) (f.start store) := by
  obtain ⟨htidy, hlack, hnone, hscope⟩ := fresh_of_declare
    ⟨Store.tidy_empty, fun _ => rfl, fun _ _ _ => Cell.not_names_of_isIdle rfl, fun x hx => by
      simp [Store.declares] at hx⟩ (List.Subset.refl _) hstore
  have hground := h.grounded_start hstore
  refine ⟨hground, htidy, fun _ _ _ _ y _ => hlack y, fun hn => absurd hn (hnone _ _ _), ?_⟩
  intro l hl hlast hlocal _
  obtain ⟨href, hdecl⟩ := Store.isLocal_iff.mp hlocal
  obtain ⟨hmem, hid, -⟩ := ((h.inStep_start hstore).mem_outstanding f.book_sound).mp hl
  obtain ⟨m, br, hm, hbr, rfl⟩ := exists_borrow_of_lt (List.nil_append _).symm hid
  obtain rfl : m = l := Option.some.inj (hm.symm.trans (f.book_sound.get?_id hmem))
  obtain ⟨param, hparam, htarget⟩ := Survey.target_of_entry (List.mem_of_getElem? hbr)
  refine absurd ?_ (hown _ (List.mem_append_left _ (hscope _ hdecl)))
  rw [htarget]
  exact List.mem_map_of_mem hparam

/-- **Cells and ledger agree after every operation that is completed.** -/
theorem Ordered.tended_of_reach (h : f.Ordered) (hown : f.OwnNames) (hops : f.ops = pre ++ post)
    (hreach : f.reach policy pre = .ok w) : Walk.Tended f.book f.callers (f.pointAfter pre) w := by
  refine reach_induction (P := fun pre w => Walk.Tended f.book f.callers (f.pointAfter pre) w)
    (fun store hstore => h.tended_start hown hstore) ?_ hops hreach
  intro pre op post w v hops hw ih hstep
  rw [pointAfter_concat]
  have hlt := h.pointAfter_lt hops
  refine (ih.mono (le_of_lt hlt)).effects (Walk.InStep.effects (c := f.context policy)
    (h.inStep_of_reach hops hw) hlt (h.turn hops) (fun x ty hact => hown x.base ?_) hstep)
  obtain ⟨hkind, htarget⟩ := Operation.action_cases hact
  rw [declared, List.mem_append, List.mem_filterMap]
  exact .inr ⟨op, by rw [hops]; simp, by simp [hkind, htarget]⟩

/-- Cells and ledger agree after a completed operation, and what is outstanding is needed later. -/
theorem tended_of_steps (hown : f.OwnNames) {i : Nat} {op : Operation} {t : Walk.State}
    (h : (f.walk policy).steps[i]? = some (op, t)) :
    Walk.Tended f.book f.callers op.point t ∧ ∀ l ∈ t.ledger.outstanding, op.point < l.last := by
  obtain ⟨hdis, hops, htake, ht⟩ := reach_of_steps h
  have hord := ordered_of_disorder? hdis
  have hops' := hops.trans (List.append_cons _ _ _)
  rw [htake] at ht
  have htended := hord.tended_of_reach hown hops' ht
  have hin := hord.inStep_of_reach hops' ht
  rw [pointAfter_concat] at htended hin
  exact ⟨htended, fun l hl => ((hin.mem_outstanding f.book_sound).mp hl).2.2.1⟩

/-- What is outstanding was opened. -/
theorem opened_of_steps {i : Nat} {op : Operation} {t : Walk.State}
    (h : (f.walk policy).steps[i]? = some (op, t)) {l : Loan} (hl : l ∈ t.ledger.outstanding) :
    l ∈ f.book.loans ∧ l.id ∈ t.ledger.opened := by
  obtain ⟨hdis, hops, htake, ht⟩ := reach_of_steps h
  rw [htake] at ht
  have hin := (ordered_of_disorder? hdis).inStep_of_reach (hops.trans (List.append_cons _ _ _)) ht
  obtain ⟨hbook, hid, -⟩ := (hin.mem_outstanding f.book_sound).mp hl
  rw [hin.opened, List.mem_range]
  exact ⟨hbook, hid⟩

/-- **A cell names exactly the loans of its place.** After a completed operation, the shared loans
that a cell names are those outstanding on its place, the exclusive loan that it names is one of
them, and a cell of a place without a value names none. -/
theorem cell_names_outstanding (hown : f.OwnNames) {i : Nat} {op : Operation} {t : Walk.State}
    (h : (f.walk policy).steps[i]? = some (op, t)) :
    ∀ e ∈ t.store.cells.toList,
      (∀ id : Int, id ∈ e.2.shared ↔
        ∃ l ∈ t.ledger.outstanding, l.kind = .shared ∧ l.target.same e.1 = true ∧ l.id = id) ∧
      (∀ id : Int, e.2.exclusive = some id →
        ∃ l ∈ t.ledger.outstanding, l.kind = .exclusive ∧ l.target.same e.1 = true ∧ l.id = id) ∧
      (e.2.ownership ≠ .owned → e.2.shared = [] ∧ e.2.exclusive = none) := by
  obtain ⟨htended, hlast⟩ := tended_of_steps hown h
  have htidy := htended.tidy
  intro e he
  have hget := htidy.distinct.get?_of_mem he (Place.same_refl _)
  have hnames : ∀ kind i, e.2.Names kind i ↔ t.store.Names e.1 kind i := fun kind i => by
    rw [Store.Names, Store.cell, hget, Option.getD_some]
  have hfound : ∀ kind i, e.2.Names kind i → ∃ l ∈ t.ledger.outstanding,
      l.kind = kind ∧ l.target.same e.1 = true ∧ (l.id : Int) = i := fun kind i hn =>
    htended.noted.outstanding ((hnames kind i).mp hn)
  refine ⟨fun id => ⟨hfound .shared id, ?_⟩, hfound .exclusive, fun hlack => ?_⟩
  · rintro ⟨l, hl, hkind, hsame, rfl⟩
    have hlocal : t.store.isLocal l.target = true := by
      rw [Store.isLocal, Store.declares, Place.throughRef_congr hsame, Place.base_eq_of_same hsame]
      exact htidy.isLocal he
    have hnamed := htended.noted.named l hl (hlast l hl) hlocal fun hexcl => by
      rw [hkind] at hexcl
      cases hexcl
    rw [Store.names_congr hsame, hkind] at hnamed
    exact (hnames .shared _).mpr hnamed
  · have hnone : ∀ kind i, ¬e.2.Names kind i := by
      intro kind i hn
      have hval := htended.lack?_of_names hlast (htidy.direct e he) ((hnames kind i).mp hn)
      rw [Store.lack?, hget, Option.bind_some, Cell.lack?_eq_none_iff] at hval
      exact hlack hval
    exact ⟨List.eq_nil_iff_forall_not_mem.mpr (hnone .shared),
      Option.eq_none_iff_forall_ne_some.mpr (hnone .exclusive)⟩

/-- A function that lends one field to two readers and another to a writer, and moves a third one
out. -/
def lendsFields : Function where
  name := "f"
  ops :=
    [.declare 1 { base := "v" } (.named "V"), .assign 2 { base := "v" } [],
      .declare 3 { base := "a" } (.named "R"),
      .borrow 4 .shared { base := "a" } { base := "v", path := [.field "x"] },
      .declare 5 { base := "b" } (.named "R"),
      .borrow 6 .shared { base := "b" } { base := "v", path := [.field "x"] },
      .declare 7 { base := "r" } (.named "R"),
      .borrow 8 .exclusive { base := "r" } { base := "v", path := [.field "y"] },
      .declare 9 { base := "t" } (.named "T"),
      .move 10 { base := "t" } { base := "v", path := [.field "z"] },
      .use 11 { base := "a" }, .use 12 { base := "b" }, .use 13 { base := "r" }]

/-- After the move there is a cell for each of the fields. -/
theorem cell_names_outstanding_lendsFields :
    lendsFields.OwnNames ∧ ∃ op t, (lendsFields.walk {}).steps[9]? = some (op, t) ∧
      op.point = 10 ∧ t.store.cells.toList.filter (fun e => !e.1.isRoot) =
        [({ base := "v", path := [.field "x"] }, { shared := [0, 1] }),
          ({ base := "v", path := [.field "y"] }, { exclusive := some 2 }),
          ({ base := "v", path := [.field "z"] }, { ownership := .moved, movedAt := some 10 })] ∧
      ∀ e ∈ t.store.cells.toList,
        (∀ id : Int, id ∈ e.2.shared ↔ ∃ l ∈ t.ledger.outstanding,
          l.kind = .shared ∧ l.target.same e.1 = true ∧ l.id = id) ∧
        (∀ id : Int, e.2.exclusive = some id → ∃ l ∈ t.ledger.outstanding,
          l.kind = .exclusive ∧ l.target.same e.1 = true ∧ l.id = id) ∧
        (e.2.ownership ≠ .owned → e.2.shared = [] ∧ e.2.exclusive = none) := by
  have hown : lendsFields.OwnNames := by decide +kernel
  have hstep : ((lendsFields.walk {}).steps[9]?).map
      (fun e => (e.1.point, e.2.store.cells.toList.filter fun e => !e.1.isRoot)) = some (10,
        [({ base := "v", path := [.field "x"] }, { shared := [0, 1] }),
          ({ base := "v", path := [.field "y"] }, { exclusive := some 2 }),
          ({ base := "v", path := [.field "z"] },
            { ownership := .moved, movedAt := some 10 })]) := by
    decide +kernel
  obtain ⟨⟨op, t⟩, ht, heq⟩ := Option.map_eq_some_iff.mp hstep
  obtain ⟨hpoint, hcells⟩ := Prod.mk.inj heq
  exact ⟨hown, op, t, ht, hpoint, hcells, cell_names_outstanding hown ht⟩

/-! ### What is shown of a place that is lent exclusively -/

/-- Of the exclusive loans of a place that were opened one is the youngest. -/
theorem exists_latest {ledger : Ledger} {b : LoanBook} {l : Loan} (hl : l ∈ b.loans)
    (hopened : l.id ∈ ledger.opened) (hexcl : l.kind = .exclusive) :
    ∃ m ∈ b.loans, m.id ∈ ledger.opened ∧ m.kind = .exclusive ∧ m.target.same l.target = true ∧
      ledger.Latest b m := by
  let rivals := b.loans.filter fun m =>
    m.id ∈ ledger.opened ∧ m.kind = .exclusive ∧ m.target.same l.target = true
  have hl : l ∈ rivals := by simp [rivals, hl, hopened, hexcl]
  cases hmax : rivals.argmax (·.id) with
  | none =>
    rw [List.argmax_eq_none.mp hmax] at hl
    cases hl
  | some m =>
    have hm := List.argmax_mem hmax
    simp only [rivals, List.mem_filter, decide_eq_true_eq] at hm
    refine ⟨m, hm.1, hm.2.1, hm.2.2.1, hm.2.2.2, fun m' hm' hopen hexcl' hsame => ?_⟩
    refine List.le_of_mem_argmax (List.mem_filter.mpr ⟨hm', decide_eq_true ?_⟩) hmax
    exact ⟨hopen, hexcl', Place.same_trans hsame hm.2.2.2⟩

/-- What is shown of a place that lies in no place without a value. -/
theorem status_of_intact {s : Store} {x : Place}
    (hval : ∀ y, y.isPrefixOf x = true → s.lack? y = none) :
    s.status x = if (s.movedUnder? x.container).isSome then .moved else (s.cell x).status := by
  have htrail : x.trail.findSome? (s.lackingWithin? x) = none :=
    List.findSome?_eq_none_iff.mpr fun y hy =>
      Store.lackingWithin?_eq_none_iff.mpr (hval y (Place.isPrefixOf_of_mem_trail hy))
  rw [Store.status_eq, Store.lacking?, htrail]
  cases hunder : s.lackingUnder? x with
  | none =>
    rw [Store.lackingUnder?_eq_none_iff.mp hunder]
    rfl
  | some v =>
    obtain ⟨e, hfind, rfl⟩ := Option.map_eq_some_iff.mp hunder
    rw [hfind]
    rfl

/-- A cell with a value that names an exclusive loan shows it. -/
theorem status_of_names {s : Store} {x : Place} {i : Int} (hval : s.lack? x = none)
    (hn : s.Names x .exclusive i) : (s.cell x).status = .exclusivelyBorrowed := by
  have hexcl : (s.cell x).exclusive = some i := hn
  rw [Cell.status, Store.ownership_cell_of_lack? hval, hexcl]
  rfl

/-- **What is lent exclusively is shown as such.** While an exclusive loan of storage of the
function is outstanding, its target is shown as moved out when a part of the container it reaches
was. Otherwise it is shown as exclusively borrowed, provided that the youngest exclusive loan of the
target that was opened is outstanding as well. -/
theorem status_of_exclusive_loan (hown : f.OwnNames) {i : Nat} {op : Operation} {t : Walk.State}
    (h : (f.walk policy).steps[i]? = some (op, t)) {l : Loan} (hl : l ∈ t.ledger.outstanding)
    (hexcl : l.kind = .exclusive) (hlocal : t.store.isLocal l.target = true) :
    ((t.store.movedUnder? l.target.container).isSome = true → t.store.status l.target = .moved) ∧
      ((t.store.movedUnder? l.target.container).isSome = false →
        (∀ m ∈ f.book.loans, m.id ∈ t.ledger.opened → m.kind = .exclusive →
          m.target.same l.target = true → t.ledger.Latest f.book m → m ∈ t.ledger.outstanding) →
        t.store.status l.target = .exclusivelyBorrowed) := by
  obtain ⟨htended, hlast⟩ := tended_of_steps hown h
  obtain ⟨hbook, hopened⟩ := opened_of_steps h hl
  have hintact := htended.intact l hl (hlast l hl) (Store.isLocal_iff.mp hlocal).1
  rw [status_of_intact fun y hy => hintact y (Bool.or_eq_true_iff.mpr (.inl hy))]
  refine ⟨fun hmoved => if_pos hmoved, fun hwhole hyoungest => ?_⟩
  rw [hwhole, if_neg Bool.false_ne_true]
  -- the cell names the youngest loan, whichever it is
  obtain ⟨m, hm, hmopened, hmexcl, hsame, hlatest⟩ := exists_latest hbook hopened hexcl
  have hmout := hyoungest m hm hmopened hmexcl hsame hlatest
  have hmlocal : t.store.isLocal m.target = true := by
    rw [Store.isLocal, Store.declares, Place.throughRef_congr hsame, Place.base_eq_of_same hsame]
    exact hlocal
  have hnamed := htended.noted.named m hmout (hlast m hmout) hmlocal fun _ => hlatest
  rw [Store.names_congr hsame, hmexcl] at hnamed
  exact status_of_names (hintact _ (Place.nests_of_same (Place.same_refl _))) hnamed

/-- A function that lends `x` exclusively and, through the reference, once more. The younger loan
is over first. -/
def lendsOnward : Function where
  name := "f"
  ops :=
    [.declare 1 { base := "x" } (.named "T"), .assign 2 { base := "x" } [],
      .declare 3 { base := "r" } (.mk "T" [] (some .exclusive)),
      .borrow 4 .exclusive { base := "r" } { base := "x" },
      .declare 5 { base := "q" } (.mk "T" [] (some .exclusive)),
      .borrow 6 .exclusive { base := "q" } { base := "r", path := [.deref] },
      .use 7 { base := "q" }, .use 8 { base := "r" }]

/-- While both loans are outstanding, `x` is shown as lent on account of either. -/
theorem status_of_exclusive_loan_lendsOnward :
    lendsOnward.OwnNames ∧ ∃ op t, (lendsOnward.walk {}).steps[5]? = some (op, t) ∧
      op.point = 6 ∧ t.ledger.outstanding.map (·.id) = [0, 1] ∧
      ∀ l ∈ t.ledger.outstanding, l.kind = .exclusive ∧ l.target = { base := "x" } ∧
        (∀ m ∈ lendsOnward.book.loans, m.id ∈ t.ledger.opened → m.kind = .exclusive →
          m.target.same l.target = true → t.ledger.Latest lendsOnward.book m →
            m ∈ t.ledger.outstanding) ∧
        t.store.status l.target = .exclusivelyBorrowed := by
  have hown : lendsOnward.OwnNames := by decide +kernel
  have hstep : ((lendsOnward.walk {}).steps[5]?).map (fun e => (e.1.point,
      decide (e.2.ledger.outstanding = lendsOnward.book.loans),
      e.2.store.isLocal { base := "x" },
      (e.2.store.movedUnder? (Place.container { base := "x" })).isSome)) =
        some (6, true, true, false) := by decide +kernel
  have hloans : lendsOnward.book.loans.map (·.id) = [0, 1] ∧ ∀ l ∈ lendsOnward.book.loans,
      l.kind = .exclusive ∧ l.target = { base := "x" } := by decide +kernel
  obtain ⟨⟨op, t⟩, ht, heq⟩ := Option.map_eq_some_iff.mp hstep
  simp only [Prod.mk.injEq, decide_eq_true_eq] at heq
  obtain ⟨hpoint, hout, hlocal, hwhole⟩ := heq
  refine ⟨hown, op, t, ht, hpoint, by rw [hout, hloans.1], fun l hl => ?_⟩
  obtain ⟨hexcl, htarget⟩ := hloans.2 l (hout ▸ hl)
  have hyoungest : ∀ m ∈ lendsOnward.book.loans, m.id ∈ t.ledger.opened → m.kind = .exclusive →
      m.target.same l.target = true → t.ledger.Latest lendsOnward.book m →
        m ∈ t.ledger.outstanding := fun m hm _ _ _ _ => hout ▸ hm
  refine ⟨hexcl, htarget, hyoungest, ?_⟩
  exact (status_of_exclusive_loan hown ht hl hexcl (by rw [htarget, hlocal])).2
    (by rw [htarget, hwhole]) hyoungest

/-- A function that lends an element of `v` exclusively and moves another one out. -/
def movesBesideLoan : Function where
  name := "f"
  ops :=
    [.declare 1 { base := "v" } (.named "V"), .assign 2 { base := "v" } [],
      .declare 3 { base := "r" } (.mk "T" [] (some .exclusive)),
      .borrow 4 .exclusive { base := "r" } { base := "v", path := [.index 0] },
      .declare 5 { base := "t" } (.named "T"),
      .move 6 { base := "t" } { base := "v", path := [.index 1] }, .deref 7 { base := "r" }]

/-- What is lent exclusively is not always shown as such: the element that is lent is shown as moved
out once another one was, and `x` is shown as owned once the younger one of its loans is closed. -/
theorem not_shown_as_lent :
    (movesBesideLoan.OwnNames ∧ ∃ op t, (movesBesideLoan.walk {}).steps[5]? = some (op, t) ∧
      ∃ l ∈ t.ledger.outstanding, l.kind = .exclusive ∧ t.store.isLocal l.target = true ∧
        t.store.status l.target = .moved) ∧
    lendsOnward.OwnNames ∧ ∃ op t, (lendsOnward.walk {}).steps[6]? = some (op, t) ∧
      ∃ l ∈ t.ledger.outstanding, l.kind = .exclusive ∧ t.store.isLocal l.target = true ∧
        t.store.status l.target = .owned := by
  have hmoved : ((movesBesideLoan.walk {}).steps[5]?).map (fun e =>
      decide (∃ l ∈ e.2.ledger.outstanding, l.kind = .exclusive ∧
        e.2.store.isLocal l.target = true ∧ e.2.store.status l.target = .moved)) = some true := by
    decide +kernel
  have howned : ((lendsOnward.walk {}).steps[6]?).map (fun e =>
      decide (∃ l ∈ e.2.ledger.outstanding, l.kind = .exclusive ∧
        e.2.store.isLocal l.target = true ∧ e.2.store.status l.target = .owned)) = some true := by
    decide +kernel
  obtain ⟨⟨op, t⟩, ht, hl⟩ := Option.map_eq_some_iff.mp hmoved
  obtain ⟨⟨op', t'⟩, ht', hl'⟩ := Option.map_eq_some_iff.mp howned
  exact ⟨⟨by decide +kernel, op, t, ht, of_decide_eq_true hl⟩,
    by decide +kernel, op', t', ht', of_decide_eq_true hl'⟩

end Function

end BorrowCheck
