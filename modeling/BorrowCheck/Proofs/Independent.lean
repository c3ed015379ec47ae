import BorrowCheck.Proofs.Beside
import BorrowCheck.Proofs.Omission
import BorrowCheck.Proofs.Rejected

/-!
# Independent variables

Two functions that have no variable in common can be run as one: their operations are interleaved
in any order, and their parameters are put side by side. This file shows that nothing comes of it.
The whole is accepted when both parts are, and otherwise it is rejected where the first of the two
is, under the same rule and for the same place (`BorrowCheck.Function.interleaved_verdict`).

The whole is compared with each part on its own. A function is `BorrowCheck.Function.PartOf`
another one when it has the operations and the parameters of one side. An operation of this side
goes in parallel in the two walks (`BorrowCheck.Walk.PartOf.step`), and one of the other side
changes nothing on this one, so as far as the walk through the whole gets, the walk through the part
gets as well (`BorrowCheck.Function.PartOf.exists_reach`). The loans that end on this side while
the other one has its turn are closed in the whole at once and in the part later, but before any
operation looks at them.
-/

namespace BorrowCheck

/-! ### States between operations -/

namespace Walk

/-- The state `w'` **tallies** with `w` on one side: the stores are alike there, and the same loans
were released. Which loans are still outstanding depends on the point that was last settled. -/
structure Tallies (σ : Side) (w w' : State) : Prop where
  store : w.store.AlikeOn σ.mine w'.store
  released : ∀ i, σ.kept i = true → (rank σ.kept i ∈ w'.ledger.released ↔ i ∈ w.ledger.released)

theorem PartOf.tallies {σ : Side} {b : LoanBook} {w w' : State} (h : PartOf σ b w w') :
    Tallies σ w w' :=
  ⟨h.store, h.ledger.released⟩

end Walk

/-- The loans that stand on this side. -/
theorem Side.standing_book {σ : Side} {b : LoanBook} {n : Nat} {p : Point} (hb : b.Sound)
    (hp : σ.entry < p) :
    (σ.book b).standing (rank σ.kept n) [] (p - 1) = σ.loans (b.standing n [] (p - 1)) := by
  have htake : (σ.loans b.loans).take (rank σ.kept n) = σ.loans (b.loans.take n) := by
    have hid : ∀ i (l : Loan), (b.loans.take n)[i]? = some l → l.id = i := by
      intro i l hl
      rw [List.getElem?_take] at hl
      split at hl
      · exact hb.id_eq i l hl
      · cases hl
    rw [loans_eq hb.id_eq, loans_eq hid, pick_take, List.map_take]
  rw [LoanBook.standing, LoanBook.standing, book, htake]
  refine filter_loans fun l _ _ => ?_
  show (decide (p - 1 < σ.point l.last) && true) = (decide (p - 1 < l.last) && true)
  rw [Bool.and_true, Bool.and_true, decide_eq_decide, Int.sub_one_lt_iff, Int.sub_one_lt_iff,
    le_point_iff hp]

theorem Survey.endings_eq_nil {s : Survey} {ops : List Operation}
    (h : ∀ op ∈ ops, op.kind ≠ .exit) : s.endings ops = [] := by
  induction ops generalizing s with
  | nil => rfl
  | cons op ops ih =>
    rw [List.forall_mem_cons] at h
    rw [endings, ending?_eq_none s h.1, ih h.2]
    rfl

namespace Function

/-- The function `f` is **the part of `h` on one side**: it has the parameters and the operations
that are about the variables of `mine`; the operations are those at the positions of `own`. -/
structure PartOf (mine : String → Bool) (own : Nat → Bool) (h f : Function) : Prop where
  params : f.params = h.params.filter fun param => mine param.name
  ops : f.ops = pick own h.ops
  sides : ∀ i op, h.ops[i]? = some op → ∀ x ∈ op.named, mine x.base = own i
  callers : ∀ param ∈ h.params, mine (Place.ofCaller param.name).base = mine param.name
  stays : ∀ op ∈ h.ops, op.kind.staysInBlock = true

/-- The side of `f` in `h`. -/
def sideOf (mine : String → Bool) (h f : Function) : Side where
  mine := mine
  kept i := ((Survey.after h h.ops).borrows[i]?).any fun b => mine b.via.base
  entry := max f.entry h.entry

namespace PartOf

variable {mine : String → Bool} {own : Nat → Bool} {h f : Function} {policy : Policy}
  {pre post : List Operation} {op : Operation} {w w' v : Walk.State}

theorem ordered (hpart : PartOf mine own h f) (hord : h.Ordered) : f.Ordered := by
  rw [Ordered, hpart.ops]
  exact hord.sublist (pick_sublist own h.ops)

theorem kind_ne (hpart : PartOf mine own h f) (hop : op ∈ h.ops) {kind : OpKind}
    (hkind : kind.staysInBlock = false) : op.kind ≠ kind := by
  rintro rfl
  rw [hpart.stays op hop] at hkind
  cases hkind

/-! ### The survey of a part -/

theorem entry_lt (hpart : PartOf mine own h f) (hord : h.Ordered) {i : Nat}
    (hop : h.ops[i]? = some op) (hown : own i = true) : (sideOf mine h f).entry < op.point := by
  have hmem : op ∈ f.ops := hpart.ops ▸ mem_pick.mpr ⟨i, hown, hop⟩
  exact max_lt ((hpart.ordered hord).entry_lt hmem) (hord.entry_lt (List.mem_of_getElem? hop))

theorem labels (hops : h.ops = pre ++ post) :
    (sideOf mine h f).Labels (Survey.after h pre) := by
  have hall : (sideOf mine h f).Labels (Survey.after h h.ops) := by
    intro i b hb
    simp [sideOf, hb]
  have hgrow := Survey.grows_after h pre post
  rw [← hops] at hgrow
  exact hall.of_grows hgrow

/-- The survey of a part, but for the point of entry. -/
theorem survey (hpart : PartOf mine own h f) (hord : h.Ordered) (hops : h.ops = pre ++ post) :
    Survey.PartOf (sideOf mine h f) (Survey.after h pre)
      ((pick own pre).foldl Survey.observe
        (f.params.foldl (Survey.receive (sideOf mine h f).entry) {})) := by
  have hget : ∀ (i : Nat) op, pre[i]? = some op → h.ops[i]? = some op := by
    intro i op hop
    rw [hops, List.getElem?_append_left (List.getElem?_eq_some_iff.mp hop).1, hop]
  have hreceive := (Survey.PartOf.empty (sideOf mine h f)).receiveAll hpart.callers
    (le_max_right f.entry h.entry) (labels (List.nil_append h.ops).symm)
  rw [hpart.params]
  refine hreceive.observeAll (fun i op hop => hpart.sides i op (hget i op hop))
    (fun i op hop hown => hpart.entry_lt hord (hget i op hop) hown) (fun op hop => ?_) (labels hops)
  exact hpart.kind_ne (hops ▸ List.mem_append_left post hop) rfl

theorem suitsBook (hpart : PartOf mine own h f) (hord : h.Ordered) :
    (sideOf mine h f).SuitsBook h.book := by
  refine ⟨h.book_sound, fun l hl => ?_⟩
  obtain ⟨i, hi⟩ := List.mem_iff_getElem?.mp hl
  obtain ⟨b, hb, rfl, rfl, -⟩ := Survey.exists_of_book_get? hi
  exact (hpart.survey hord (List.append_nil h.ops).symm).suits.borrows l.id l.toBorrow hb

section Operations

variable (hpart : PartOf mine own h f) (hord : h.Ordered) (hne : f.ops ≠ [])
include hpart hord hne

/-- A part with operations starts no earlier than the whole. -/
theorem entry_eq : (sideOf mine h f).entry = f.entry := by
  obtain ⟨op, ops, hops⟩ := List.exists_cons_of_ne_nil hne
  have hmem : op ∈ h.ops := by
    refine (pick_sublist own h.ops).subset ?_
    rw [← hpart.ops, hops]
    exact List.mem_cons_self
  have hlt := hord.entry_lt hmem
  refine max_eq_left ?_
  rw [show f.entry = op.point - 1 by rw [entry, hops]]
  exact Int.le_sub_one_of_lt hlt

theorem survey_after (hops : h.ops = pre ++ post) :
    Survey.PartOf (sideOf mine h f) (Survey.after h pre) (Survey.after f (pick own pre)) := by
  have hsurvey := hpart.survey hord hops
  rwa [hpart.entry_eq hord hne] at hsurvey

theorem book_eq : f.book = (sideOf mine h f).book h.book := by
  have hbook := (hpart.survey_after hord hne (List.append_nil h.ops).symm).book
  rwa [← hpart.ops] at hbook

end Operations

/-! ### The walk through a part -/

/-- An operation of this side stands in the part as well. -/
theorem ops_eq (hpart : PartOf mine own h f) (hops : h.ops = pre ++ op :: post)
    (hown : own pre.length = true) : ∃ post', f.ops = pick own pre ++ op :: post' := by
  refine ⟨pick (fun i => own (i + 1 + pre.length)) post, ?_⟩
  rw [hpart.ops, hops, pick_append, pick]
  simp [hown]

/-- Where an operation of this side has its turn, the whole and the part look at the same loans. -/
theorem settled (hpart : PartOf mine own h f) (hord : h.Ordered)
    (hops : h.ops = pre ++ op :: post) (hown : own pre.length = true)
    (hreach : h.reach policy pre = .ok w) (hreach' : f.reach policy (pick own pre) = .ok w')
    (htally : Walk.Tallies (sideOf mine h f) w w') :
    Walk.PartOf (sideOf mine h f) h.book (Walk.settled w op.point false)
      (Walk.settled w' op.point false) := by
  obtain ⟨post', hops'⟩ := hpart.ops_eq hops hown
  have hne : f.ops ≠ [] := by simp [hops']
  have hord' := hpart.ordered hord
  have hentry : (sideOf mine h f).entry < op.point :=
    hpart.entry_lt hord (by simp [hops]) hown
  have hexit : ∀ o ∈ pre, o.kind ≠ .exit :=
    fun o ho => hpart.kind_ne (hops ▸ List.mem_append_left _ ho) rfl
  have hexit' : ∀ o ∈ pick own pre, o.kind ≠ .exit :=
    fun o ho => hexit o ((pick_sublist own pre).subset ho)
  have hin := (hord.inStep_of_reach hops hreach).settled h.book_sound (hord.pointAfter_lt hops)
  have hin' := (hord'.inStep_of_reach hops' hreach').settled f.book_sound
    (hord'.pointAfter_lt hops')
  rw [Survey.endings_eq_nil hexit] at hin
  rw [Survey.endings_eq_nil hexit', hpart.book_eq hord hne] at hin'
  have hlength := (hpart.survey_after hord hne hops).length_eq
  refine ⟨htally.store.close _ _, fun l hl => ((hin.mem_outstanding h.book_sound).mp hl).1, ?_,
    fun i hi => ?_, htally.released⟩
  · rw [hin'.outstanding, hin.outstanding, hlength, Side.standing_book h.book_sound hentry]
  · rw [hin'.opened, hin.opened, List.mem_range, List.mem_range, hlength, rank_lt_iff hi]

theorem returned (hpart : PartOf mine own h f) (hops : h.ops = pre ++ post)
    (hreach : h.reach policy pre = .ok w) : w.returned = none :=
  (h.returned_eq_none_iff hops hreach).mpr fun _ ho =>
    hpart.kind_ne (hops ▸ List.mem_append_left _ ho) rfl

/-- **An operation of this side goes in parallel in the whole and in the part.** -/
theorem step_own (hpart : PartOf mine own h f) (hord : h.Ordered)
    (hops : h.ops = pre ++ op :: post) (hown : own pre.length = true)
    (hreach : h.reach policy pre = .ok w) (hreach' : f.reach policy (pick own pre) = .ok w')
    (htally : Walk.Tallies (sideOf mine h f) w w') :
    Parallel Fault.Alike (Walk.Tallies (sideOf mine h f)) (Walk.step (h.context policy) w op)
      (Walk.step (f.context policy) w' op) := by
  have hop : h.ops[pre.length]? = some op := by simp [hops]
  obtain ⟨post', hops'⟩ := hpart.ops_eq hops hown
  have hcontext : f.context policy = (sideOf mine h f).context (h.context policy) :=
    congrArg (Walk.Context.mk policy) (hpart.book_eq hord (by simp [hops']))
  have hret' : w'.returned = none := by
    refine (f.returned_eq_none_iff hops' hreach').mpr fun o ho => ?_
    exact hpart.kind_ne (hops ▸ List.mem_append_left _ ((pick_sublist own pre).subset ho)) rfl
  have hpartOf := hpart.settled hord hops hown hreach hreach' htally
  rw [hcontext]
  refine (hpartOf.step (hpart.returned hops hreach) hret' (hpart.suitsBook hord)
    (hpart.entry_lt hord hop hown) (fun x hx => (hpart.sides _ op hop x hx).trans hown)
    (hpart.stays op (List.mem_of_getElem? hop))).imp fun _ _ _ _ hstep => hstep.tallies

/-- **An operation of the other side changes nothing on this one.** -/
theorem step_other (hpart : PartOf mine own h f) (hord : h.Ordered)
    (hops : h.ops = pre ++ op :: post) (hother : own pre.length = false)
    (hreach : h.reach policy pre = .ok w) (hstep : Walk.step (h.context policy) w op = .ok v)
    (htally : Walk.Tallies (sideOf mine h f) w w') :
    Walk.Tallies (sideOf mine h f) v w' := by
  have hop : h.ops[pre.length]? = some op := by simp [hops]
  have hin := (hord.inStep_of_reach hops hreach).settled h.book_sound (hord.pointAfter_lt hops)
  obtain ⟨-, a, u, hact, hperf, hend⟩ := Walk.step_cases hstep
  have hnamed : ∀ x ∈ a.named, mine x.base = false := fun x hx =>
    (hpart.sides _ op hop x (Operation.mem_named_of_action hact hx)).trans hother
  have hstays := Operation.staysInBlock_of_action hact (hpart.stays op (List.mem_of_getElem? hop))
  have hmid : Walk.Bypasses mine w (Walk.settled u op.point true) := by
    have hfirst : Walk.Bypasses mine w _ :=
      Walk.bypasses_settled htally.store.distinct op.point false
    have hthen := hfirst.trans
      ((Walk.perform_cases hperf).1.bypasses hfirst.store.distinct' hnamed hstays)
    exact hthen.trans (Walk.bypasses_settled hthen.store.distinct' op.point true)
  obtain ⟨hstore, hreleased⟩ : (Walk.settled u op.point true).store.AlikeOn mine v.store ∧
      ∀ i, (sideOf mine h f).kept i = true → i ∈ v.ledger.released → i ∈ w.ledger.released := by
    rcases hend with ⟨-, rfl⟩ | ⟨x, hx, hwrite⟩
    · exact ⟨.refl hmid.store.distinct', fun i _ hi => hmid.released ▸ hi⟩
    · obtain ⟨hstore, hreleased⟩ := Walk.alikeOn_of_write hwrite hmid.store.distinct'
        (hnamed x (Action.mem_named_of_written hx))
      refine ⟨hstore, fun i hkept hi => ?_⟩
      rcases hreleased i hi with hi | ⟨l, hl, rfl, y, hy, hmine⟩
      · exact hmid.released ▸ hi
      · -- what is overwritten held a loan of the other side
        have hafter := (hin.perform (hord.turn hops) hact hperf).settled_inclusive
          h.book_sound
        have hloan := ((hafter.mem_outstanding h.book_sound).mp hl).1
        have hside := ((hpart.suitsBook hord).fits l hloan).borrower y hy
        rw [hkept] at hside
        exact absurd (hside.symm.trans hmine) (by simp)
  refine ⟨(hmid.store.trans hstore).symm.trans htally.store, fun i hi => ?_⟩
  rw [htally.released i hi]
  exact ⟨fun hmem => (Walk.evolves_step hstep).released_subset hmem, hreleased i hi⟩

theorem exists_reach (hpart : PartOf mine own h f) (hord : h.Ordered) (hops : h.ops = pre ++ post)
    (hreach : h.reach policy pre = .ok w) :
    ∃ w', f.reach policy (pick own pre) = .ok w' ∧ Walk.Tallies (sideOf mine h f) w w' := by
  refine reach_induction (P := fun pre w => ∃ w', f.reach policy (pick own pre) = .ok w' ∧
    Walk.Tallies (sideOf mine h f) w w') ?_ ?_ hops hreach
  · intro store hstore
    have hempty : Store.AlikeOn mine {} {} := .refl .nil
    obtain ⟨store', hstore', halike⟩ := hempty.declareAll hstore
    rw [← hpart.params] at hstore'
    have hstart : ∀ (g : Function) s, (g.start s).ledger.released = [] :=
      fun g s => Ledger.released_foldl_record _ _
    refine ⟨f.start store', bind_eq_ok_iff.mpr ⟨store', hstore', rfl⟩, halike, fun i _ => ?_⟩
    rw [hstart, hstart]
    exact iff_of_false List.not_mem_nil List.not_mem_nil
  · rintro pre op post w v hops hreach ⟨w', hreach', htally⟩ hstep
    rw [pick_concat]
    cases hown : own pre.length with
    | true =>
      obtain ⟨v', hstep', htally'⟩ :=
        (hpart.step_own hord hops hown hreach hreach' htally).exists_ok hstep
      exact ⟨v', reach_concat_eq_ok_iff.mpr ⟨w', hreach', hstep'⟩, htally'⟩
    | false =>
      refine ⟨w', ?_, hpart.step_other hord hops hown hreach hstep htally⟩
      rw [if_neg Bool.false_ne_true, List.append_nil, hreach']

theorem accepted (hpart : PartOf mine own h f) (hacc : h.Accepted policy) : f.Accepted policy := by
  have hord := hacc.ordered
  obtain ⟨-, w, hreach⟩ := accepted_iff.mp hacc
  obtain ⟨w', hreach', -⟩ := hpart.exists_reach hord (List.append_nil h.ops).symm hreach
  rw [← hpart.ops] at hreach'
  exact accepted_iff.mpr ⟨(hpart.ordered hord).disorder?_eq_none, w', hreach'⟩

/-- **Where the whole fails at an operation of this side, so does the part**, and for the same
reason. -/
theorem failsAt_own (hpart : PartOf mine own h f) (hord : h.Ordered) {v : Violation}
    (hfails : h.FailsAt policy pre op v) (hown : own pre.length = true) :
    ∃ v', f.FailsAt policy (pick own pre) op v' ∧ v'.gist = v.gist := by
  obtain ⟨post, w, hops, hreach, hstep⟩ := hfails
  obtain ⟨w', hreach', htally⟩ := hpart.exists_reach hord hops hreach
  obtain ⟨fault, hstep', hgist⟩ :=
    (hpart.step_own hord hops hown hreach hreach' htally).exists_error hstep
  obtain ⟨post', hops'⟩ := hpart.ops_eq hops hown
  cases fault with
  | unrecorded _ _ => cases hgist
  | violation v' => exact ⟨v', ⟨post', w', hops', hreach', hstep'⟩, Option.some.inj hgist⟩

/-- Where the whole fails at an operation of the other side, the part fails later, if at all. -/
theorem point_lt_of_failsAt (hpart : PartOf mine own h f) (hord : h.Ordered) {v v' : Violation}
    (hfails : h.FailsAt policy pre op v) (hother : own pre.length = false)
    {pre' : List Operation} {op' : Operation} (hfails' : f.FailsAt policy pre' op' v') :
    op.point < op'.point := by
  obtain ⟨post, w, hops, hreach, -⟩ := hfails
  obtain ⟨post', w', hops', hreach', hstep'⟩ := hfails'
  obtain ⟨u, hu, -⟩ := hpart.exists_reach hord hops hreach
  have hrest : pick own pre ++ pick (fun i => own (i + 1 + pre.length)) post =
      pre' ++ op' :: post' := by
    rw [← hops', hpart.ops, hops, pick_append, pick]
    simp [hother]
  have hlater : op' ∈ pick (fun i => own (i + 1 + pre.length)) post → op.point < op'.point :=
    fun hmem => hord.after hops op' ((pick_sublist _ post).subset hmem)
  rcases List.append_eq_append_iff.mp hrest with ⟨mid, -, htail⟩ | ⟨mid, hmid, htail⟩
  · exact hlater (htail ▸ List.mem_append_right _ List.mem_cons_self)
  · cases mid with
    | nil =>
      rw [List.nil_append] at htail
      exact hlater (htail ▸ List.mem_cons_self)
    | cons o mid =>
      -- the part gets through all that comes before `op`
      obtain ⟨rfl, -⟩ := List.cons.inj htail
      rw [hmid, List.append_cons, reach_append_eq_ok_iff] at hu
      obtain ⟨t, ht, -⟩ := hu
      obtain ⟨w'', hw'', hok⟩ := reach_concat_eq_ok_iff.mp ht
      rw [Except.ok.inj (hw''.symm.trans hreach'), hstep'] at hok
      cases hok

end PartOf

/-! ### Interleavings -/

/-- The names of the variables of a function: its parameters, and the roots of all places. -/
def roots (f : Function) : List String :=
  f.params.map Param.name ++ f.ops.flatMap fun op => op.named.map Place.base

/-- The functions have **no variable in common**, and none has the name of the storage behind a
parameter. -/
structure Independent (f g : Function) : Prop where
  disjoint : ∀ n ∈ f.roots, n ∉ g.roots
  callers : ∀ param ∈ f.params ++ g.params,
    (Place.ofCaller param.name).base ∉ f.roots ++ g.roots

instance (f g : Function) : Decidable (Independent f g) :=
  decidable_of_iff
    ((∀ n ∈ f.roots, n ∉ g.roots) ∧
      ∀ param ∈ f.params ++ g.params, (Place.ofCaller param.name).base ∉ f.roots ++ g.roots)
    ⟨fun ⟨hdisjoint, hcallers⟩ => ⟨hdisjoint, hcallers⟩, fun h => ⟨h.disjoint, h.callers⟩⟩

/-- The function `h` **interleaves** `f` and `g`: it has the parameters of both, and their
operations in any order that keeps that of each. -/
structure Interleaves (h f g : Function) : Prop where
  params : h.params = f.params ++ g.params
  ops : Interleaving f.ops g.ops h.ops

/-- The variables of a function, with the storage behind its parameters. -/
def owns (f : Function) (n : String) : Bool :=
  (f.roots ++ f.params.map fun param => (Place.ofCaller param.name).base).contains n

namespace Interleaves

variable {f g h : Function} {own : Nat → Bool}

theorem owns_of_mem {n : String} (hn : n ∈ f.roots) : f.owns n = true := by
  rw [owns, List.contains_iff_mem]
  exact List.mem_append_left _ hn

theorem mem_roots_of_param {param : Param} (hparam : param ∈ f.params) : param.name ∈ f.roots :=
  List.mem_append_left _ (List.mem_map_of_mem hparam)

theorem mem_roots_of_named {op : Operation} (hop : op ∈ f.ops) {x : Place} (hx : x ∈ op.named) :
    x.base ∈ f.roots :=
  List.mem_append_right _ (List.mem_flatMap.mpr ⟨op, hop, List.mem_map_of_mem hx⟩)

theorem not_owns_of_mem (hind : Independent f g) {n : String} (hn : n ∈ g.roots) :
    f.owns n = false := by
  rw [owns, Bool.eq_false_iff, Ne, List.contains_iff_mem, List.mem_append, not_or, List.mem_map]
  refine ⟨fun hf => hind.disjoint n hf hn, ?_⟩
  rintro ⟨param, hparam, rfl⟩
  exact hind.callers param (List.mem_append_left _ hparam) (List.mem_append_right _ hn)

/-- What the caller lends for a parameter belongs to the function of the parameter. -/
theorem owns_ofCaller (hind : Independent f g) {param : Param}
    (hparam : param ∈ f.params ++ g.params) :
    f.owns (Place.ofCaller param.name).base = f.owns param.name := by
  rcases List.mem_append.mp hparam with hf | hg
  · rw [owns_of_mem (mem_roots_of_param hf), owns, List.contains_iff_mem]
    exact List.mem_append_right _ (List.mem_map_of_mem hf)
  · rw [not_owns_of_mem hind (mem_roots_of_param hg), owns, Bool.eq_false_iff, Ne,
      List.contains_iff_mem, List.mem_append, not_or, List.mem_map]
    refine ⟨fun hmem => hind.callers param hparam (List.mem_append_left _ hmem), ?_⟩
    rintro ⟨other, hother, hbase⟩
    have hname : other.name = param.name := Place.ofCaller_injective hbase
    exact hind.disjoint _ (mem_roots_of_param hother) (hname ▸ mem_roots_of_param hg)

/-- **An interleaving has two parts.** -/
theorem exists_partOf (hint : Interleaves h f g) (hind : Independent f g)
    (hstays : ∀ op ∈ h.ops, op.kind.staysInBlock = true) :
    ∃ own, PartOf f.owns own h f ∧ PartOf (fun n => !f.owns n) (fun i => !own i) h g := by
  obtain ⟨own, hf, hg⟩ := hint.ops.exists_pick
  have hsides : ∀ i op, h.ops[i]? = some op → ∀ x ∈ op.named, f.owns x.base = own i := by
    intro i op hop x hx
    cases hown : own i with
    | true =>
      have hmem : op ∈ f.ops := hf ▸ mem_pick.mpr ⟨i, hown, hop⟩
      exact owns_of_mem (mem_roots_of_named hmem hx)
    | false =>
      have hmem : op ∈ g.ops := hg ▸ mem_pick.mpr ⟨i, by rw [hown]; rfl, hop⟩
      exact not_owns_of_mem hind (mem_roots_of_named hmem hx)
  have hmine : ∀ param ∈ f.params, f.owns param.name = true :=
    fun param hparam => owns_of_mem (mem_roots_of_param hparam)
  have hmine' : ∀ param ∈ g.params, f.owns param.name = false :=
    fun param hparam => not_owns_of_mem hind (mem_roots_of_param hparam)
  have hcallers : ∀ param ∈ h.params,
      f.owns (Place.ofCaller param.name).base = f.owns param.name :=
    fun param hparam => owns_ofCaller hind (hint.params ▸ hparam)
  refine ⟨own, ⟨?_, hf, hsides, hcallers, hstays⟩, ⟨?_, hg, fun i op hop x hx => ?_,
    fun param hparam => ?_, hstays⟩⟩
  · rw [hint.params, List.filter_append, List.filter_eq_self.mpr hmine,
      List.filter_eq_nil_iff.mpr fun param hparam => ?_, List.append_nil]
    rw [hmine' param hparam]
    exact Bool.false_ne_true
  · rw [hint.params, List.filter_append, List.filter_eq_nil_iff.mpr fun param hparam => ?_,
      List.filter_eq_self.mpr fun param hparam => ?_, List.nil_append]
    · rw [hmine' param hparam]
      rfl
    · rw [hmine param hparam]
      exact Bool.false_ne_true
  · rw [hsides i op hop x hx]
  · rw [hcallers param hparam]

end Interleaves

/-- The function `f` is rejected with the rule, the point and the place of `finding`, and before
any finding in `g`. -/
def FindsFirst (f g : Function) (policy : Policy) (finding : Finding) : Prop :=
  ∃ a, f.verdict policy = .ok (.rejected f.name a) ∧
    a.rule = finding.rule ∧ a.point = finding.point ∧ a.place = finding.place ∧
    ∀ b, g.verdict policy = .ok (.rejected g.name b) → a.point < b.point

/-- What the whole reports is what the part with the failing operation reports, before the other
one reports anything. -/
theorem PartOf.findsFirst {mine mine' : String → Bool} {own own' : Nat → Bool} {f g h : Function}
    {policy : Policy} {pre : List Operation} {op : Operation} {v : Violation}
    (hpart : PartOf mine own h f) (hpart' : PartOf mine' own' h g) (hord : h.Ordered)
    (hf : (f.params.map Param.name).Nodup) (hg : (g.params.map Param.name).Nodup)
    (hfails : h.FailsAt policy pre op v) (hown : own pre.length = true)
    (hother : own' pre.length = false) : f.FindsFirst g policy (v.report h.name op) := by
  obtain ⟨v', hfails', hgist⟩ := hpart.failsAt_own hord hfails hown
  have hverdict := (rejected_iff (hpart.ordered hord) hf).mpr ⟨_, _, _, hfails', rfl⟩
  refine ⟨v'.report f.name op, hverdict, congrArg Prod.fst hgist, rfl, congrArg Prod.snd hgist,
    fun b hb => ?_⟩
  obtain ⟨pre', op', w, hfails'', rfl⟩ := (rejected_iff (hpart'.ordered hord) hg).mp hb
  exact hpart'.point_lt_of_failsAt hord hfails hother hfails''

/-- **Independent variables do not interact.** Two functions without a common variable, none of
which returns or opens or leaves a block, are interleaved in any order. The whole is accepted
exactly when both are; and otherwise it is rejected with the rule, the point and the place of
whichever of the two is rejected first. -/
theorem interleaved_verdict {f g h : Function} (policy : Policy) (hint : Interleaves h f g)
    (hind : Independent f g) (hord : h.Ordered) (hf : (f.params.map Param.name).Nodup)
    (hg : (g.params.map Param.name).Nodup)
    (hstays : ∀ op ∈ h.ops, op.kind.staysInBlock = true) :
    (h.Accepted policy ↔ f.Accepted policy ∧ g.Accepted policy) ∧
      (¬h.Accepted policy → ∃ finding, h.verdict policy = .ok (.rejected h.name finding) ∧
        (f.FindsFirst g policy finding ∨ g.FindsFirst f policy finding)) := by
  obtain ⟨own, hpart, hpart'⟩ := hint.exists_partOf hind hstays
  have hnodup : (h.params.map Param.name).Nodup := by
    rw [hint.params, List.map_append, List.nodup_append]
    refine ⟨hf, hg, fun n hn m hm heq => ?_⟩
    exact hind.disjoint n (List.mem_append_left _ hn) (heq ▸ List.mem_append_left _ hm)
  have hfirst : ∀ pre op v, h.FailsAt policy pre op v →
      f.FindsFirst g policy (v.report h.name op) ∨ g.FindsFirst f policy (v.report h.name op) := by
    intro pre op v hfails
    cases hown : own pre.length with
    | true => exact .inl (hpart.findsFirst hpart' hord hf hg hfails hown (by rw [hown]; rfl))
    | false => exact .inr (hpart'.findsFirst hpart hord hg hf hfails (by rw [hown]; rfl) hown)
  refine ⟨⟨fun hacc => ⟨hpart.accepted hacc, hpart'.accepted hacc⟩, ?_⟩, fun hno => ?_⟩
  · rintro ⟨haccf, haccg⟩
    by_contra hno
    obtain ⟨pre, op, v, hfails⟩ := exists_failsAt hord hnodup hno
    rcases hfirst pre op v hfails with ⟨a, ha, -⟩ | ⟨a, ha, -⟩
    · cases haccf.symm.trans ha
    · cases haccg.symm.trans ha
  · obtain ⟨pre, op, v, hfails⟩ := exists_failsAt hord hnodup hno
    exact ⟨_, (rejected_iff hord hnodup).mpr ⟨pre, op, v, hfails, rfl⟩, hfirst pre op v hfails⟩

/-- A reference parameter is reborrowed, and written through once the reborrow was used. -/
def readsThroughParam (more : List Operation) : Function where
  name := "f"
  params := [{ name := "p", ty := .refTo .exclusive (.named "T") }]
  ops :=
    [.declare 1 { base := "r" } (.refTo .shared (.named "T")),
      .borrow 3 .shared { base := "r" } (Place.deref { base := "p" }), .deref 5 { base := "r" },
      .assign 7 (Place.deref { base := "p" }) []] ++ more

/-- A parameter is moved out. -/
def givesAway (more : List Operation) : Function where
  name := "g"
  params := [{ name := "q", ty := .named "T" }]
  ops :=
    [.declare 2 { base := "u" } (.named "T"), .move 4 { base := "u" } { base := "q" },
      .use 6 { base := "u" }] ++ more

/-- The two functions in turns. -/
def takesTurns (more : List Operation) : Function where
  name := "h"
  params := (readsThroughParam []).params ++ (givesAway []).params
  ops :=
    [.declare 1 { base := "r" } (.refTo .shared (.named "T")),
      .declare 2 { base := "u" } (.named "T"),
      .borrow 3 .shared { base := "r" } (Place.deref { base := "p" }),
      .move 4 { base := "u" } { base := "q" }, .deref 5 { base := "r" }, .use 6 { base := "u" },
      .assign 7 (Place.deref { base := "p" }) []] ++ more

/-- The reborrow ends at point 5. In the whole it is closed at point 6, where the other function
has its turn, and in the part at point 7. With a use of the reborrow at point 9 it is still live at
the write, and with a use of what was moved out at point 8 both functions are rejected: the write
comes first. -/
theorem interleaved_verdict_takesTurns :
    (Independent (readsThroughParam []) (givesAway []) ∧ (takesTurns []).Accepted {} ∧
      (readsThroughParam []).Accepted {} ∧ (givesAway []).Accepted {}) ∧
    (readsThroughParam [.deref 9 { base := "r" }]).RejectedAt {} 7 ∧
    (givesAway [.use 8 { base := "q" }]).RejectedAt {} 8 ∧
    (takesTurns [.use 8 { base := "q" }, .deref 9 { base := "r" }]).RejectedAt {} 7 ∧
    ∃ finding, (takesTurns [.use 8 { base := "q" }, .deref 9 { base := "r" }]).verdict {} =
        .ok (.rejected "h" finding) ∧
      ((readsThroughParam [.deref 9 { base := "r" }]).FindsFirst
          (givesAway [.use 8 { base := "q" }]) {} finding ∨
        (givesAway [.use 8 { base := "q" }]).FindsFirst
          (readsThroughParam [.deref 9 { base := "r" }]) {} finding) := by
  have hturns : Interleaves (takesTurns []) (readsThroughParam []) (givesAway []) :=
    ⟨rfl, .left _ (.right _ (.left _ (.right _ (.left _ (.right _ (.left _ .nil))))))⟩
  have hlonger : Interleaves (takesTurns [.use 8 { base := "q" }, .deref 9 { base := "r" }])
      (readsThroughParam [.deref 9 { base := "r" }]) (givesAway [.use 8 { base := "q" }]) :=
    ⟨rfl, .left _ (.right _ (.left _ (.right _ (.left _ (.right _ (.left _ (.right _ (.left _
      .nil))))))))⟩
  have hboth : (readsThroughParam []).Accepted {} ∧ (givesAway []).Accepted {} :=
    ⟨by decide +kernel, by decide +kernel⟩
  have hwhole := (interleaved_verdict {} hturns (by decide) (ordered_of_disorder? (by decide))
    (by decide) (by decide) (by decide)).1.mpr hboth
  have hrejected :
      ¬(takesTurns [.use 8 { base := "q" }, .deref 9 { base := "r" }]).Accepted {} := by
    decide +kernel
  exact ⟨⟨by decide, hwhole, hboth⟩, by decide +kernel, by decide +kernel, by decide +kernel,
    (interleaved_verdict {} hlonger (by decide) (ordered_of_disorder? (by decide)) (by decide)
      (by decide) (by decide)).2 hrejected⟩

end Function

end BorrowCheck
