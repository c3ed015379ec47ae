import BorrowCheck.Proofs.Conflict
import BorrowCheck.Proofs.Dangling
import BorrowCheck.Proofs.Mutation
import BorrowCheck.Proofs.Spared

/-!
# References that are reborrowed

When a place behind a reference is lent exclusively, the reference is **frozen** as long as the new
loan is needed: neither it nor what it points at should be read, lent or written by another way.

The walk has two means for this. A read of a place that holds a loan is refused when an exclusive
reborrow of that loan is needed (`BorrowCheck.Ledger.FreeToUse`), and so is a write through the
reference. And where nothing is known about what the reference holds, the new loan is one of the
path behind it, and is found like any loan of storage that overlaps.

The first means needs the new loan to be a reborrow of the loan that the reference itself holds. The
second one is needed to stop a loan of the reference, which is no read of it. So a reference is
frozen (`BorrowCheck.Function.frozen_while_reborrowed`)

* for reads, for loans behind it and for writes through it, when the new loan was taken through what
  the reference holds, and
* for loans of the reference itself, when the new loan was taken through no loan at all;

and in the other cases accepted functions do all of these (`BorrowCheck.Function.not_frozen`).
-/

namespace BorrowCheck

/-- The holder of a place contains it. -/
theorem Place.holder_isPrefixOf (x : Place) : x.holder.isPrefixOf x = true :=
  isPrefixOf_iff.mpr ⟨rfl, (List.takeWhile_prefix _).map _⟩

/-- The loan that another one was taken through is the first one of its lineage. -/
theorem LoanBook.Sound.mem_lineage {b : LoanBook} (hb : b.Sound) {l : Loan} (hl : l ∈ b.loans)
    {q : Nat} (hq : l.parent = some q) : q ∈ b.lineage l := by
  have hparent : (b.get? l.id).bind (·.parent) = some q := by
    rw [hb.get?_id hl, Option.bind_some, hq]
  rw [lineage, lineageFrom, hparent]
  simp [(hb.parent l hl q hq).1]

/-- A loan that was taken through none has no lineage. -/
theorem LoanBook.Sound.lineage_eq_nil {b : LoanBook} (hb : b.Sound) {l : Loan} (hl : l ∈ b.loans)
    (h : l.parent = none) : b.lineage l = [] := by
  have hparent : (b.get? l.id).bind (·.parent) = none := by
    rw [hb.get?_id hl, Option.bind_some, h]
  rw [lineage, lineageFrom, hparent]

/-- A loan that was taken through another one is found among its reborrows. -/
theorem LoanBook.Sound.mem_reborrows {b : LoanBook} (hb : b.Sound) {l m : Loan} (hl : l ∈ b.loans)
    {q : Nat} (hq : l.parent = some q) (hm : b.get? q = some m) {ledger : Ledger}
    (hout : l ∈ ledger.outstanding) : l ∈ ledger.reborrows b m := by
  have hlineage := hb.mem_lineage hl hq
  have hlt := lt_of_mem_lineageFrom hlineage
  refine List.mem_filter.mpr ⟨hout, ?_⟩
  simp [hb.id_eq q m hm, hlineage, Nat.ne_of_gt hlt]

/-! ### References that are free to be used -/

namespace Ledger

variable {l m : Ledger} {b : LoanBook} {x : Place} {p : Point} {loan : Loan}

/-- No exclusive reborrow of a loan that is held at or under `x` is needed at `p` or later. -/
def FreeToUse (l : Ledger) (b : LoanBook) (x : Place) (p : Point) : Prop :=
  ∀ loan ∈ l.heldUnder x, ∀ other ∈ l.reborrows b loan, other.isExclusive = true → other.last < p

/-- Between `l` and `m` loans were **opened**, and nothing else was done. -/
structure Opens (l m : Ledger) : Prop where
  outstanding : l.outstanding ⊆ m.outstanding
  released : m.released = l.released

theorem Opens.isHeldAt (h : Opens l m) (test : Place → Bool) (loan : Loan) :
    m.isHeldAt test loan = l.isHeldAt test loan := by
  rw [Ledger.isHeldAt, Ledger.isHeldAt, h.released]

theorem Opens.heldUnder (h : Opens l m) : l.heldUnder x ⊆ m.heldUnder x := by
  intro loan hloan
  obtain ⟨hout, hheld⟩ := List.mem_filter.mp hloan
  exact List.mem_filter.mpr ⟨h.outstanding hout, by rwa [h.isHeldAt]⟩

theorem holds_iff : l.holds x = true ↔ ∃ loan ∈ l.outstanding, l.isHeldAt x.same loan = true := by
  simp [holds, heldAt]

theorem Opens.holds (h : Opens l m) (hx : l.holds x = true) : m.holds x = true := by
  obtain ⟨loan, hloan, hheld⟩ := holds_iff.mp hx
  exact holds_iff.mpr ⟨loan, h.outstanding hloan, by rwa [h.isHeldAt]⟩

/-- Fewer loans leave a reference all the more free. -/
theorem FreeToUse.anti (hm : m.FreeToUse b x p) (h : Opens l m) : l.FreeToUse b x p := by
  intro loan hloan other hother
  obtain ⟨hout, hlineage⟩ := List.mem_filter.mp hother
  exact hm loan (h.heldUnder hloan) other (List.mem_filter.mpr ⟨h.outstanding hout, hlineage⟩)

end Ledger

namespace Walk

variable {c : Context} {w u : State} {x y : Place} {p : Point} {a : Action}

/-- What the survey knows a place to hold, the walk finds there while it is needed. -/
theorem InStep.found_of_get? {b : LoanBook} {s : Survey} {es : List Ending} {now : Point}
    (h : InStep b s es now w) (hb : b.Sound) (hs : s.Sound) (hrec : s.RecordedBy b) {k : Nat}
    (hget : s.holders.get? x = some k) {l : Loan} (hl : b.get? k = some l) (hlast : now < l.last) :
    w.ledger.holds x = true ∧ l ∈ w.ledger.heldUnder x := by
  obtain ⟨e, he, hsame, rfl⟩ := Place.Map.exists_mem_of_get? hget
  constructor
  · refine Ledger.holds_iff.mpr ⟨l, h.outstanding_of_held hb hs he hl hlast, ?_⟩
    refine h.isHeldAt hb hs hrec he hl fun y hy => ?_
    rw [Place.same_comm] at hsame
    exact Place.same_trans hsame hy
  · refine h.mem_heldUnder hb hs hrec he ?_ hl hlast
    rw [Place.isPrefixOf_congr hsame]
    exact Place.isPrefixOf_refl _

theorem reborrowed?_eq_none_iff :
    reborrowed? c w x p = none ↔ w.ledger.FreeToUse c.book x p := by
  simp only [reborrowed?, Option.map_eq_none_iff, List.find?_eq_none, List.mem_flatMap,
    Bool.and_eq_true, not_and, decide_eq_true_eq, not_le]
  constructor
  · intro h loan hloan other hother
    exact h other ⟨loan, hloan, hother⟩
  · rintro h other ⟨loan, hloan, hother⟩
    exact h loan hloan other hother

theorem freeToUse_of_read (h : read c w x p = .ok ()) : w.ledger.FreeToUse c.book x.holder p :=
  reborrowed?_eq_none_iff.mp (read_eq_ok_iff.mp h).2.2.2

/-- A reference that is handed on is read. -/
theorem read_of_handOver (h : handOver c w x p = .ok u) (hheld : w.ledger.holds x.holder = true) :
    read c w x p = .ok () := by
  unfold handOver at h
  split at h
  · exact (check_bind_eq_ok_iff.mp h).1
  next hno =>
    obtain ⟨-, href, -⟩ := vacate_eq_ok_iff.mp h
    rw [Place.holder_of_not_throughRef href] at hheld
    simp [isReference, hheld] at hno

theorem read_of_move (h : move c w y x p = .ok u) (hheld : w.ledger.holds x.holder = true) :
    read c w x p = .ok () := by
  simp only [move, check_bind_eq_ok_iff] at h
  obtain ⟨-, h⟩ := h
  split at h
  · exact (check_bind_eq_ok_iff.mp h).1
  next hno =>
    split at h
    · exact (check_bind_eq_ok_iff.mp h).1
    · obtain ⟨-, href, -⟩ := vacate_eq_ok_iff.mp h
      rw [Place.holder_of_not_throughRef href] at hheld
      simp [isReference, hheld] at hno

theorem opens_passArg {b : Arg} (h : passArg c p w b = .ok u) : w.ledger.Opens u.ledger := by
  rcases passArg_cases h with ⟨-, hover⟩ | ⟨kind, -, hborrow⟩
  · rw [(handOver_frame hover).1]
    exact ⟨List.Subset.refl _, rfl⟩
  · obtain ⟨-, -, -, books, l, hlend, rfl⟩ := borrow_cases hborrow
    obtain ⟨-, -, rfl⟩ := Books.lend_eq_ok_iff.mp hlend
    exact ⟨List.subset_append_left _ _, rfl⟩

/-- A borrow behind a reference reads the reference. -/
theorem freeToUse_of_borrow {borrower : Option Place} {kind : BorrowKind}
    (h : borrow c w borrower kind x p = .ok u) (href : x.throughRef = true) :
    w.ledger.FreeToUse c.book x.holder p := by
  have hfree := freeToUse_of_read ((borrow_cases h).2.1 href)
  rwa [holder_holder] at hfree

theorem freeToUse_of_passAll {args : List Arg} (h : args.foldlM (passArg c p) w = .ok u)
    {b : Arg} (hb : b ∈ args) (hread : b.mode = .value ∨ b.place.throughRef = true)
    (hheld : w.ledger.holds b.place.holder = true) :
    w.ledger.FreeToUse c.book b.place.holder p := by
  induction args generalizing w with
  | nil => cases hb
  | cons d args ih =>
    obtain ⟨v, hv, hrest⟩ := foldlM_cons_eq_ok_iff.mp h
    rcases List.mem_cons.mp hb with rfl | hb
    · rcases passArg_cases hv with ⟨-, hover⟩ | ⟨kind, hmode, hborrow⟩
      · exact freeToUse_of_read (read_of_handOver hover hheld)
      · refine freeToUse_of_borrow hborrow (hread.resolve_left ?_)
        rw [hmode]
        simp
    · -- the arguments in front have only opened loans
      have hopens := opens_passArg hv
      exact (ih hrest hb (hopens.holds hheld)).anti hopens

/-- **A reference that an action reads is not reborrowed exclusively.** -/
theorem Performed.freeToUse (h : Performed c p w u a) (hx : x ∈ a.reads)
    (hheld : w.ledger.holds x.holder = true) : w.ledger.FreeToUse c.book x.holder p := by
  cases a with
  | assign y ys => exact freeToUse_of_read (h.1 x hx)
  | move y z =>
    obtain rfl := List.mem_singleton.mp hx
    exact freeToUse_of_read (read_of_move h hheld)
  | borrow kind y z =>
    by_cases href : z.throughRef = true
    · obtain rfl : x = z := by simpa [Action.reads, href] using hx
      exact freeToUse_of_borrow h.2 href
    · simp [Action.reads, href] at hx
  | deref z =>
    obtain rfl := List.mem_singleton.mp hx
    have hfree := freeToUse_of_read (check_bind_eq_ok_iff.mp h.1).1
    rwa [holder_holder] at hfree
  | use z =>
    obtain rfl := List.mem_singleton.mp hx
    exact freeToUse_of_read h.1
  | call args result =>
    obtain ⟨b, hb, rfl⟩ := List.mem_map.mp hx
    obtain ⟨hmem, hread⟩ := List.mem_filter.mp hb
    exact freeToUse_of_passAll h hmem (by simpa using hread) hheld
  | ret z =>
    obtain rfl : z = some x := by simpa [Action.reads] using hx
    obtain ⟨v, hret, -⟩ := h
    exact freeToUse_of_read (read_of_handOver (ret_cases hret).2 hheld)
  | declare y ty | enter | exit => cases hx

end Walk

/-! ### Loans that an action takes -/

/-- The places that an action **lends**, for a reference that is stored or for a call. -/
def Action.lends : Action → List Place
  | borrow _ _ s => [s]
  | call args _ => (args.filter fun a => a.mode ≠ .value).map Arg.place
  | _ => []

namespace Survey

variable {s : Survey} {op : Operation} {a : Action} {x y : Place} {p : Point} {i : Nat}
  {br : Borrow}

/-- A new loan that is stored is one that was handed on, or a borrow of the source. -/
theorem new_cases (hi : s.borrows.length ≤ i) (hbr : (s.act op a).borrows[i]? = some br)
    (hy : br.borrower = some y) :
    (∃ x q b, a = .move y x ∧ s.holders.get? x = some q ∧ br = Borrow.handedOn b q y x op.point) ∨
      ∃ kind x, a = .borrow kind y x ∧
        br = (s.touch x op.point).borrowOf (some y) kind x op.point := by
  have hlast : ∀ {new : Borrow}, (s.act op a).borrows = s.borrows ++ [new] → br = new := by
    intro new hnew
    rw [hnew, List.getElem?_append_right hi, List.getElem?_singleton] at hbr
    split at hbr
    · exact (Option.some.inj hbr).symm
    · cases hbr
  have hwritten := (get?_act_of_new hi hbr hy).1
  cases a with
  | move z x =>
    obtain rfl := Option.some.inj hwritten
    rcases s.borrows_move x op.point z with hsame | ⟨q, b, hget, -, hnew⟩
    · rw [act, hsame, List.getElem?_eq_none hi] at hbr
      cases hbr
    · exact Or.inl ⟨x, q, b, rfl, hget, hlast hnew⟩
  | borrow kind z x =>
    obtain rfl := Option.some.inj hwritten
    refine Or.inr ⟨kind, x, rfl, hlast ?_⟩
    simp [act, lend, define, take]
  | call args result =>
    obtain ⟨new, hnew, hnone⟩ := s.borrows_passAll op.point args
    rw [act, borrows_write?, hnew, List.getElem?_append_right hi] at hbr
    rw [hnone br (List.mem_of_getElem? hbr)] at hy
    cases hy
  | assign z ys =>
    rw [act, borrows_write, borrows_touchAll, List.getElem?_eq_none hi] at hbr
    cases hbr
  | declare z ty | deref z | use z | ret z | enter | exit => cases hwritten

/-- What is lent behind a reference that holds nothing is the path behind it. -/
theorem target_of_new (hi : s.borrows.length ≤ i) (hbr : (s.act op a).borrows[i]? = some br)
    (hy : br.borrower = some y) (hvia : br.via.throughRef = true) (hparent : br.parent = none) :
    br.target = br.via := by
  rcases new_cases hi hbr hy with ⟨x, q, b, -, -, rfl⟩ | ⟨kind, x, -, rfl⟩
  · cases hparent
  · change ((s.touch x op.point).referent x).1 = x
    change ((s.touch x op.point).referent x).2 = none at hparent
    rw [referent] at hparent ⊢
    rcases (s.touch x op.point).referentBelow_cases (s.touch x op.point).borrows.length x with
      ⟨-, hx⟩ | ⟨-, hx⟩ | ⟨-, q, b, ps, -, -, hx⟩
    · rw [hx]
    · rw [hx]
    · rw [hx] at hparent
      cases hparent

theorem exists_new_of_passAll {args : List Arg} {d : Arg} (hd : d ∈ args)
    (hmode : d.mode ≠ .value) (href : d.place.throughRef = false) :
    ∃ i b, s.borrows.length ≤ i ∧
      (args.foldl (pass p) s).borrows[i]? = some b ∧
      b.target = d.place ∧ b.parent = s.holders.get? d.place := by
  induction args generalizing s with
  | nil => cases hd
  | cons d' args ih =>
    rw [List.foldl_cons]
    rcases List.mem_cons.mp hd with rfl | hd
    · have hgrow : (s.pass p d).Grows (· = p)
          (args.foldl (pass p) (s.pass p d)) :=
        grows_foldl _ fun _ _ _ => grows_pass
      cases hkind : d.mode with
      | value => exact absurd hkind hmode
      | lend kind =>
        have hpass : s.pass p d =
            (s.touch d.place p).take ((s.touch d.place p).borrowOf none kind d.place p) := by
          simp [pass, hkind]
        have hnew : (s.pass p d).borrows[s.borrows.length]? =
            some ((s.touch d.place p).borrowOf none kind d.place p) := by
          rw [hpass, take, borrows_touch, List.getElem?_concat_length]
        refine ⟨_, _, Nat.le_refl _, hgrow.getElem? hnew, ?_⟩
        rw [borrowOf, referent_of_not_throughRef href]
        exact ⟨rfl, rfl⟩
    · obtain ⟨i, b, hi, hb, htarget, hparent⟩ := ih (s := s.pass p d') hd
      have hgrow : s.Grows (· = p) (s.pass p d') := grows_pass
      rw [holders_pass] at hparent
      exact ⟨i, b, Nat.le_trans hgrow.length_le hi, hb, htarget, hparent⟩

/-- **Lending a place takes a loan of it**, through what the place holds. -/
theorem exists_new_of_lends (hx : x ∈ a.lends) (href : x.throughRef = false) :
    ∃ i b, s.borrows.length ≤ i ∧ (s.act op a).borrows[i]? = some b ∧ b.target = x ∧
      b.parent = s.holders.get? x := by
  cases a with
  | borrow kind y z =>
    obtain rfl := List.mem_singleton.mp hx
    refine ⟨s.borrows.length, (s.touch x op.point).borrowOf (some y) kind x op.point,
      Nat.le_refl _, by simp [act, lend, define, take], ?_⟩
    rw [borrowOf, referent_of_not_throughRef href]
    exact ⟨rfl, rfl⟩
  | call args result =>
    obtain ⟨d, hd, rfl⟩ := List.mem_map.mp hx
    obtain ⟨hmem, hmode⟩ := List.mem_filter.mp hd
    rw [act, borrows_write?]
    exact exists_new_of_passAll hmem (by simpa using hmode) href
  | declare y ty | assign y ys | move y z | deref y | use y | ret y | enter | exit => cases hx

end Survey

/-! ### Accepted functions -/

namespace Function

variable {f : Function} {policy : Policy} {pre mid post : List Operation} {first op : Operation}
  {a : Action} {x : Place} {l : Loan}

/-- After the operations `pre`, the operation `first` takes the exclusive loan `l` **through a
reference**, the one in the holder of `l.via`, which neither `first` nor the operations `mid` after
it write. -/
structure Reborrows (f : Function) (pre : List Operation) (first : Operation)
    (mid : List Operation) (l : Loan) : Prop where
  mem : l ∈ f.book.loans
  origin : l.origin = first.point
  isExclusive : l.isExclusive = true
  through : l.via.throughRef = true
  spared : Spares (first :: mid) l.via.holder

/-- What was taken through no loan lends the path behind the reference, which the reference
overlaps. -/
theorem Reborrows.overlaps (h : f.Accepted policy) (hr : f.Reborrows pre first mid l)
    (hops : f.ops = pre ++ first :: mid ++ post) (hlast : l.origin < l.last)
    (hparent : l.parent = none) (hx : x.same l.via.holder = true) : l.target.overlaps x = true := by
  have hops' : f.ops = pre ++ first :: (mid ++ post) := by rw [hops, List.append_assoc]; rfl
  obtain ⟨-, a, -, -, hact, -⟩ := h.stages hops'
  obtain ⟨hid, hbr⟩ := h.ordered.borrow_of_origin hops' hr.mem hr.origin
  rw [Survey.observe_eq_act _ hact] at hbr
  have htarget : l.target = l.via := by
    cases hy : l.borrower with
    | none =>
      -- a loan for the length of a call ends where it begins
      rw [f.book_sound.temporary l hr.mem hy] at hlast
      exact absurd hlast (lt_irrefl _)
    | some y => exact Survey.target_of_new hid hbr hy hr.through hparent
  rw [htarget, Place.overlaps_congr hx, Place.overlaps_comm]
  exact Place.overlaps_of_isPrefixOf l.via.holder_isPrefixOf

theorem Reborrows.origin_lt (h : f.Accepted policy) (hr : f.Reborrows pre first mid l)
    (hops : f.ops = pre ++ first :: mid ++ op :: post) : l.origin < op.point := by
  rw [hr.origin]
  exact h.ordered.before hops first (by simp)

/-- **A reference is frozen for reads** while the loan that it holds is reborrowed exclusively. -/
theorem Reborrows.not_read (h : f.Accepted policy) (hr : f.Reborrows pre first mid l)
    (hops : f.ops = pre ++ first :: mid ++ op :: post)
    (hheld : (Survey.after f pre).holders.get? l.via.holder = l.parent)
    (hscope : f.lapsedBefore l op.point = false) (hlast : op.point ≤ l.last)
    (hact : op.action = .ok a) (hx : x ∈ a.reads) : x.holder.same l.via.holder = false := by
  have hb := f.book_sound
  have hlt := hr.origin_lt h hops
  obtain ⟨w, a', u, hw, hact', hperf, hin, -, -⟩ := h.stages hops
  obtain rfl : a' = a := Except.ok.inj (hact'.symm.trans hact)
  have hperf' := (Walk.perform_cases hperf).1
  have hstands := h.ordered.stands hops hin hr.mem hlt hlast hscope
  rw [Bool.eq_false_iff]
  intro hsame
  refine absurd ?_ (not_lt.mpr hlast)
  cases hparent : l.parent with
  | none =>
    have hover := hr.overlaps h hops (lt_of_lt_of_le hlt hlast) hparent hsame
    exact hperf'.freeToRead hx l hstands hover hr.isExclusive
  | some k =>
    rw [hparent] at hheld
    -- what is read can be used, so the reference still holds the loan that was reborrowed
    have husable : w.store.Usable x.base := Walk.usable_settled.mp (hperf'.usable_of_reads hx)
    have hbase : x.holder.base = l.via.holder.base := Place.base_eq_of_same hsame
    have hget := h.held_of_usable hheld hr.spared hops hw (hbase ▸ husable)
    rw [← Place.Map.get?_congr _ hsame] at hget
    obtain ⟨-, m, hm, hle⟩ := hb.parent l hr.mem k hparent
    obtain ⟨hholds, hunder⟩ := hin.found_of_get? hb (Survey.sound_after f _) (recorded_after hops)
      hget hm (Int.sub_one_lt_of_le (le_trans hlast hle))
    have hother := hb.mem_reborrows hr.mem hparent hm hstands
    exact hperf'.freeToUse hx hholds m hunder l hother hr.isExclusive

/-- **A reference is frozen for writes through it** while the loan that it holds is reborrowed
exclusively. -/
theorem Reborrows.not_written (h : f.Accepted policy) (hr : f.Reborrows pre first mid l)
    (hops : f.ops = pre ++ first :: mid ++ op :: post)
    (hheld : (Survey.after f pre).holders.get? l.via.holder = l.parent)
    (hscope : f.lapsedBefore l op.point = false) (hlast : op.point < l.last)
    (hact : op.action = .ok a) (hx : a.written? = some x) (href : x.throughRef = true) :
    x.holder.same l.via.holder = false := by
  have hb := f.book_sound
  have hlt := hr.origin_lt h hops
  obtain ⟨w, a', u, hw, hact', hperf, -, hout, hwrite⟩ := h.stages hops
  obtain rfl : a' = a := Except.ok.inj (hact'.symm.trans hact)
  rw [Bool.eq_false_iff]
  intro hsame
  have hread : Walk.read (f.context policy) (Walk.settled u op.point true) x.holder op.point =
      .ok () := by
    obtain ⟨t, ht⟩ := hwrite x hx
    rcases (Walk.write_cases ht).2 with ⟨-, hbehind, -⟩ | ⟨hno, -⟩
    · exact (Walk.writeBehind_cases hbehind).1
    · rw [href] at hno
      cases hno
  cases hparent : l.parent with
  | none =>
    have hover := hr.overlaps h hops (lt_trans hlt hlast) hparent hsame
    have hfree := (Walk.read_eq_ok_iff.mp hread).2.2.1
    rw [Walk.holder_holder] at hfree
    have hstands := h.ordered.stands_at_write hops hact hx hout hr.mem hlt hlast hscope
    exact lt_asymm hlast (hfree l hstands hover hr.isExclusive)
  | some k =>
    rw [hparent] at hheld
    -- the reference is read, so it still holds the loan that was reborrowed
    have husable := Walk.usable_settled.mp (Walk.usable_of_read hread)
    rw [Place.base_eq_of_same hsame] at husable
    have hget := h.held_of_usable hheld hr.spared hops hw
      (Walk.usable_settled.mp ((Walk.perform_cases hperf).1.usable_before husable))
    obtain ⟨-, m, hm, -⟩ := hb.parent l hr.mem k hparent
    rw [← Place.Map.get?_congr _ hsame] at hget
    have hlineage := hb.mem_lineage hr.mem hparent
    rw [← hb.id_eq k m hm] at hlineage
    have hle := (h.writable_of_written hops hact hx href hget hm).2 l hr.mem hlt hscope hlineage
    exact absurd hlast (not_lt.mpr hle)

/-- **A reference that holds nothing is frozen for loans** while the path behind it is lent
exclusively. -/
theorem Reborrows.not_lent (h : f.Accepted policy) (hr : f.Reborrows pre first mid l)
    (hops : f.ops = pre ++ first :: mid ++ op :: post)
    (hheld : (Survey.after f pre).holders.get? l.via.holder = none) (hparent : l.parent = none)
    (hscope : f.lapsedBefore l op.point = false) (hlast : op.point ≤ l.last)
    (hact : op.action = .ok a) (hx : x ∈ a.lends) : x.same l.via.holder = false := by
  have hb := f.book_sound
  have hlt := hr.origin_lt h hops
  obtain ⟨-, a', -, -, hact', -⟩ := h.stages hops
  obtain rfl : a' = a := Except.ok.inj (hact'.symm.trans hact)
  rw [Bool.eq_false_iff]
  intro hsame
  have href : x.throughRef = false := by
    rw [Place.throughRef_congr hsame, Place.throughRef_holder]
  -- the loan that is taken of the reference is taken through none
  obtain ⟨i, b, hi, hbr, htarget, hnone⟩ :=
    @Survey.exists_new_of_lends (Survey.after f (pre ++ first :: mid)) op a' x hx href
  rw [Place.Map.get?_congr _ hsame, h.get?_eq_none hheld hr.spared hops] at hnone
  rw [← Survey.observe_eq_act _ hact] at hbr
  obtain ⟨m, hm, rfl⟩ := (h.ordered.turn hops).recorded.loan i b hbr
  obtain rfl : m.id = i := hb.id_eq i m hm
  have hmem := LoanBook.mem_of_get? hm
  have horigin : m.origin = op.point := (Survey.grows_observe _ op).origin hbr hi
  have hid : l.id < m.id := Nat.lt_of_lt_of_le (h.ordered.id_lt hops hr.mem hlt) hi
  obtain ⟨s, hs, hls, hms⟩ := h.exists_reached hr.mem hmem hid (by rwa [horigin])
    (by rwa [horigin])
  have hover : l.target.overlaps m.target = true :=
    hr.overlaps h hops (lt_of_lt_of_le hlt hlast) hparent (by rwa [htarget])
  rcases LoanBook.lineage_of_pairwise hs.pairwise hls hms (fun heq => Nat.ne_of_lt hid (heq ▸ rfl))
    hover (Or.inl hr.isExclusive) with ⟨-, hlineage⟩ | ⟨hgt, -⟩
  · rw [hb.lineage_eq_nil hmem hnone] at hlineage
    cases hlineage
  · exact Nat.lt_asymm hid hgt

/-- **An exclusive reborrow freezes the reference.** Let an accepted function take the exclusive
loan `l` through the loan that the reference in the holder of `l.via` holds, or through none if it
holds none. While `l` is needed, and as long as the reference is not written and the borrower of `l`
is in scope, no operation reads the reference or borrows behind it, nor, before the last point of
`l`, writes through it. The reference itself is not lent either, when it holds no loan. -/
theorem frozen_while_reborrowed (h : f.Accepted policy) (hr : f.Reborrows pre first mid l)
    (hops : f.ops = pre ++ first :: mid ++ op :: post) (hact : op.action = .ok a)
    (hheld : (Survey.after f pre).holders.get? l.via.holder = l.parent)
    (hscope : f.lapsedBefore l op.point = false) :
    (op.point ≤ l.last → (∀ x ∈ a.reads, x.holder.same l.via.holder = false) ∧
      (l.parent = none → ∀ x ∈ a.lends, x.same l.via.holder = false)) ∧
    (op.point < l.last → ∀ x, a.written? = some x → x.throughRef = true →
      x.holder.same l.via.holder = false) := by
  refine ⟨fun hlast => ⟨fun x hx => ?_, fun hparent x hx => ?_⟩, fun hlast x hx href => ?_⟩
  · exact hr.not_read h hops hheld hscope hlast hact hx
  · exact hr.not_lent h hops (hheld.trans hparent) hparent hscope hlast hact hx
  · exact hr.not_written h hops hheld hscope hlast hact hx href

/-- A function that borrows on through its parameter and writes there. -/
def lendsParam : Function :=
  ofReference .exclusive
    [.declare 1 { base := "q" } (.refTo .exclusive (.named "T")),
      .borrow 2 .exclusive { base := "q" } (Place.deref { base := "r" }),
      .assign 3 (Place.deref { base := "q" }) [{ base := "q" }], .deref 4 { base := "q" },
      .use 5 { base := "r" }]

/-- The loan to `q` in `BorrowCheck.Function.lendsParam`. -/
def loanThroughParam : Loan where
  borrower := some { base := "q" }
  kind := .exclusive
  origin := 2
  target := Place.ofCaller "r"
  via := Place.deref { base := "r" }
  parent := some 0
  id := 1
  last := 4

/-- While `q` is needed, what is read and what is written through is not `r`. -/
theorem frozen_while_reborrowed_lendsParam :
    lendsParam.Accepted {} ∧
      lendsParam.Reborrows (lendsParam.ops.take 1)
        (.borrow 2 .exclusive { base := "q" } (Place.deref { base := "r" })) [] loanThroughParam ∧
      (Survey.after lendsParam (lendsParam.ops.take 1)).holders.get? { base := "r" } = some 0 ∧
      lendsParam.lapsedBefore loanThroughParam 3 = false ∧
      Place.same { base := "q" } { base := "r" } = false ∧
      (Place.deref { base := "q" }).holder.same { base := "r" } = false := by
  have haccepted : lendsParam.Accepted {} := by decide +kernel
  have hr : lendsParam.Reborrows (lendsParam.ops.take 1)
      (.borrow 2 .exclusive { base := "q" } (Place.deref { base := "r" })) [] loanThroughParam :=
    ⟨by decide +kernel, rfl, rfl, rfl, by decide⟩
  have hheld : (Survey.after lendsParam (lendsParam.ops.take 1)).holders.get? { base := "r" } =
      some 0 := by decide +kernel
  have hscope : lendsParam.lapsedBefore loanThroughParam 3 = false := by decide +kernel
  have hops : lendsParam.ops = lendsParam.ops.take 1 ++
      [.borrow 2 .exclusive { base := "q" } (Place.deref { base := "r" })] ++
      .assign 3 (Place.deref { base := "q" }) [{ base := "q" }] :: lendsParam.ops.drop 3 := rfl
  obtain ⟨hread, hwrite⟩ := frozen_while_reborrowed haccepted hr hops rfl hheld hscope
  exact ⟨haccepted, hr, hheld, hscope, (hread (by decide)).1 _ (List.mem_singleton.mpr rfl),
    hwrite (by decide) _ rfl rfl⟩

/-- A function that lends its parameter while it is reborrowed. -/
def lendsFrozen : Function :=
  ofReference .exclusive
    [.declare 1 { base := "q" } (.refTo .exclusive (.named "T")),
      .borrow 2 .exclusive { base := "q" } (Place.deref { base := "r" }),
      .declare 3 { base := "x" } (.refTo .shared (.refTo .exclusive (.named "T"))),
      .borrow 4 .shared { base := "x" } { base := "r" }, .use 5 { base := "q" }]

/-- The loan to `q` in `BorrowCheck.Function.lendsFrozen`. -/
def loanOfFrozen : Loan := { loanThroughParam with last := 5 }

/-- A function that lends its parameter to `o`, borrows to `q` behind both references, and then uses
`o`, borrows behind it and writes through it. -/
def usesFrozen : Function :=
  ofReference .exclusive
    [.declare 1 { base := "o" } (.refTo .exclusive (.refTo .exclusive (.named "T"))),
      .borrow 2 .exclusive { base := "o" } { base := "r" },
      .declare 3 { base := "q" } (.refTo .exclusive (.named "T")),
      .borrow 4 .exclusive { base := "q" } (Place.deref (Place.deref { base := "o" })),
      .use 5 { base := "o" },
      .call 6 "g" [⟨Place.deref { base := "o" }, .lend .exclusive⟩] none,
      .assign 7 (Place.deref { base := "o" }) [], .use 8 { base := "q" }]

/-- The loan to `q` in `BorrowCheck.Function.usesFrozen`. -/
def loanBehindBoth : Loan where
  borrower := some { base := "q" }
  kind := .exclusive
  origin := 4
  target := Place.ofCaller "r"
  via := Place.deref (Place.deref { base := "o" })
  parent := some 0
  id := 2
  last := 8

/-- **A reference is not frozen otherwise.** One that holds a loan is lent while it is reborrowed.
And one that is reborrowed two references down, through the loan that the second one holds, is used,
borrowed through and written through. -/
theorem not_frozen :
    (lendsFrozen.Accepted {} ∧
      lendsFrozen.Reborrows (lendsFrozen.ops.take 1)
        (.borrow 2 .exclusive { base := "q" } (Place.deref { base := "r" }))
        ((lendsFrozen.ops.take 3).drop 2) loanOfFrozen ∧
      loanOfFrozen.via.holder = { base := "r" } ∧
      lendsFrozen.lapsedBefore loanOfFrozen 4 = false ∧ 4 ≤ loanOfFrozen.last ∧
      lendsFrozen.ops[3]? = some (.borrow 4 .shared { base := "x" } { base := "r" })) ∧
    (usesFrozen.Accepted {} ∧
      usesFrozen.Reborrows (usesFrozen.ops.take 3)
        (.borrow 4 .exclusive { base := "q" } (Place.deref (Place.deref { base := "o" })))
        ((usesFrozen.ops.take 6).drop 4) loanBehindBoth ∧
      loanBehindBoth.via.holder = { base := "o" } ∧
      usesFrozen.lapsedBefore loanBehindBoth 7 = false ∧ 7 < loanBehindBoth.last ∧
      usesFrozen.ops[4]? = some (.use 5 { base := "o" }) ∧
      usesFrozen.ops[5]? =
        some (.call 6 "g" [⟨Place.deref { base := "o" }, .lend .exclusive⟩] none) ∧
      usesFrozen.ops[6]? = some (.assign 7 (Place.deref { base := "o" }) [])) :=
  ⟨⟨by decide +kernel, ⟨by decide +kernel, rfl, rfl, rfl, by decide⟩, rfl, by decide +kernel,
      by decide, rfl⟩,
    by decide +kernel, ⟨by decide +kernel, rfl, rfl, rfl, by decide⟩, rfl, by decide +kernel,
    by decide, rfl, rfl, rfl⟩

end Function

end BorrowCheck
