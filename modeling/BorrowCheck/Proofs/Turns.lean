import BorrowCheck.Proofs.Names
import BorrowCheck.Proofs.RecastRun

/-!
# Variables that take turns

Two variables can do with one name if they take turns: the body falls into three parts, and one of
them is named in the middle part only, the other one outside of it
(`BorrowCheck.Function.TakeTurns`). To give both the same name is a change of words in which, at
each operation, one of the two names is not around, and so the walk stops where it would have
stopped (`BorrowCheck.Function.TakeTurns.walk_stop`).

At the borders the survey has to know nothing about the name that goes. That the variable is out of
scope is not enough for a loan of a place *behind* the reference in it: such a loan is recorded
under the name of the variable, and stays in force as long as it is needed. So the parts have to be
apart in this respect too (`BorrowCheck.Function.Apart`).
-/

namespace BorrowCheck

/-! ### Names that a survey knows nothing about -/

namespace Survey

/-- The variable `n` holds nothing and is not in scope. -/
structure Ignores (s : Survey) (n : String) : Prop where
  holders : ∀ e ∈ s.holders.toList, e.1.base ≠ n
  scopes : n ∉ s.scopes.names

end Survey

namespace Recast

/-- No change of words, while the names `A` are around. -/
def same (A : String → Prop) : Recast where
  around := A
  name_inj := fun _ _ h => h
  faithful := Proj.faithful_id
  disjoint := fun _ _ h => h
  point_lt := fun h => h

/-- **One name for two**: `y` is called `x`, and nothing else is changed. -/
def merge (x y : String) : Recast where
  name m := if m = y then x else m
  around m := m ≠ y
  name_inj := fun {m n} hm hn heq => by rwa [if_neg hm, if_neg hn] at heq
  faithful := Proj.faithful_id
  disjoint := fun _ _ h => h
  point_lt := fun h => h

variable {s : Survey} {x y n : String}

/-- All names are told apart but the two. -/
theorem merge_inj (hn : n = x ∨ n = y) {l m : String} (hl : l ≠ n) (hm : m ≠ n)
    (heq : (merge x y).name l = (merge x y).name m) : l = m := by
  simp only [merge] at heq
  grind

theorem knows_same_iff : (same (· ≠ n)).Knows s ↔ s.Ignores n :=
  ⟨fun h => ⟨h.holders, fun hn => h.scopes n hn rfl⟩,
    fun h => ⟨h.holders, fun _ hm heq => h.scopes (heq ▸ hm)⟩⟩

theorem fixes_merge {param : Param} (hparam : param.name ≠ y)
    (hcaller : (Place.ofCaller param.name).base ≠ y) : (merge x y).Fixes param :=
  ⟨if_neg hparam, if_neg hcaller, hparam⟩

end Recast

namespace Survey

variable {s : Survey} {f : Function} {n : String} {pre ops : List Operation} {op : Operation}

/-- An operation that does not name a variable makes nothing known about it. -/
theorem Ignores.observe (h : s.Ignores n) (hop : ∀ z ∈ op.named, z.base ≠ n) :
    (s.observe op).Ignores n :=
  Recast.knows_same_iff.mp ((Recast.knows_same_iff.mpr h).observe hop)

theorem Ignores.after (h : (after f pre).Ignores n)
    (hops : ∀ op ∈ ops, ∀ z ∈ op.named, z.base ≠ n) : (after f (pre ++ ops)).Ignores n := by
  induction ops using List.reverseRecOn with
  | nil => rwa [List.append_nil]
  | append_singleton ops op ih =>
    rw [← List.append_assoc, after_concat]
    refine (ih fun o ho => hops o (List.mem_append_left _ ho)).observe (hops op ?_)
    exact List.mem_append_right _ (List.mem_singleton_self op)

/-- Before the first operation, only parameters are known. -/
theorem ignores_start (hparams : ∀ param ∈ f.params, param.name ≠ n) :
    (after f []).Ignores n := by
  have hfixes : ∀ param ∈ f.params, (Recast.same (· ≠ n)).Fixes param := fun param hparam =>
    ⟨rfl, rfl, hparams param hparam⟩
  have hreceive := Recast.survey_receiveAll (s := {})
    ⟨List.forall_mem_nil _, List.forall_mem_nil _⟩ hfixes f.entry
  exact Recast.knows_same_iff.mp hreceive.2

end Survey

namespace Function

variable {f : Function} {x y n : String} {pre life post done more : List Operation}
  {op : Operation}

/-! ### Loans behind references -/

/-- No loan of a place behind the reference in the variable `n` is live at one of `ops`. -/
def Apart (f : Function) (n : String) (ops : List Operation) : Prop :=
  ∀ l ∈ f.book.loans, l.target.throughRef = true → l.target.base = n →
    ∀ op ∈ ops, l.covers op.point = false

instance : Decidable (f.Apart n pre) :=
  inferInstanceAs (Decidable (∀ l ∈ f.book.loans, _ → _ → ∀ op ∈ pre, _ = _))

theorem Apart.base_ne (h : f.Apart n [op]) {l : Loan} (hl : l ∈ f.book.loans)
    (href : l.target.throughRef = true) (hcovers : l.covers op.point = true) :
    l.target.base ≠ n := by
  intro heq
  rw [h l hl href heq op (List.mem_singleton_self op)] at hcovers
  cases hcovers

/-- A variable that was not named so far has lent nothing. -/
theorem Ordered.apart_of_unnamed (hord : f.Ordered) (hops : f.ops = done ++ op :: more)
    (hcallers : n ∉ f.callers) (hnamed : ∀ o ∈ done ++ [op], ∀ z ∈ o.named, z.base ≠ n) :
    f.Apart n [op] := by
  intro l hl _ hbase o ho
  obtain rfl := List.mem_singleton.mp ho
  rw [Bool.eq_false_iff]
  intro hcovers
  rw [Loan.covers, Bool.and_eq_true, decide_eq_true_eq] at hcovers
  have hops' : f.ops = (done ++ [o]) ++ more := hops.trans (List.append_cons _ _ _)
  rcases Nat.lt_or_ge l.id (Survey.after f (done ++ [o])).borrows.length with hlt | hge
  · obtain ⟨m, b, hm, hb, rfl⟩ := exists_borrow_of_lt hops' hlt
    obtain rfl := Option.some.inj ((f.book_sound.get?_id hl).symm.trans hm)
    rcases Survey.target_of_after (List.mem_of_getElem? hb) with hcaller | ⟨o', ho', z, hz, heq⟩
    · exact hcallers (hbase ▸ hcaller)
    · exact hnamed o' ho' z hz (heq.trans hbase)
  · obtain ⟨o', ho', horigin⟩ := exists_op_of_origin hops' hl hge
    exact absurd (horigin ▸ hord.after hops o' ho') (not_lt.mpr hcovers.1)

/-! ### Taking turns -/

/-- The variables `x` and `y` **take turns**: `life` names no `x`, and what comes before and after
it names no `y`. Nothing is known about `x` where `life` begins, and about `y` where it ends. -/
structure TakeTurns (f : Function) (x y : String) (pre life post : List Operation) : Prop where
  ops : f.ops = pre ++ (life ++ post)
  before : ∀ op ∈ pre, ∀ z ∈ op.named, z.base ≠ y
  during : ∀ op ∈ life, ∀ z ∈ op.named, z.base ≠ x
  after : ∀ op ∈ post, ∀ z ∈ op.named, z.base ≠ y
  params : ∀ param ∈ f.params, param.name ≠ y
  callers : ∀ n ∈ x :: y :: f.declared, n ∉ f.callers
  begins : (Survey.after f pre).Ignores x
  ends : post ≠ [] → (Survey.after f (pre ++ life)).Ignores y
  apart_during : f.Apart x life
  apart_after : f.Apart y post

/-- An operation of two parts is one of the first or of the second. -/
theorem split_cases {as bs done more : List Operation} (h : as ++ bs = done ++ op :: more) :
    (∃ mid, as = done ++ op :: mid) ∨ ∃ mid, done = as ++ mid ∧ bs = mid ++ op :: more := by
  rcases List.append_eq_append_iff.mp h with ⟨mid, hdone, hbs⟩ | ⟨mid, has, hmore⟩
  · exact Or.inr ⟨mid, hdone, hbs⟩
  · cases mid with
    | nil =>
      rw [List.append_nil] at has
      exact Or.inr ⟨[], by rw [has, List.append_nil], hmore.symm⟩
    | cons o mid =>
      obtain ⟨rfl, -⟩ := List.cons.inj hmore
      exact Or.inl ⟨mid, has⟩

/-- **At each operation one of the two is out**: it is not named, nothing is known about it, and no
loan of a place behind a reference in it is live. -/
theorem TakeTurns.exists_out (h : f.TakeTurns x y pre life post) (hord : f.Ordered)
    (hops : f.ops = done ++ op :: more) :
    ∃ n, (n = x ∨ n = y) ∧ (∀ z ∈ op.named, z.base ≠ n) ∧ (Survey.after f done).Ignores n ∧
      f.Apart n [op] := by
  have hy : y ∉ f.callers := h.callers y (by simp)
  rcases split_cases (h.ops.symm.trans hops) with ⟨mid, rfl⟩ | ⟨mid, rfl, hrest⟩
  · -- before: `y` was not named yet
    have hnamed : ∀ o ∈ done ++ [op], ∀ z ∈ o.named, z.base ≠ y :=
      fun o ho => h.before o (by grind)
    refine ⟨y, .inr rfl, hnamed op (by simp), ?_, hord.apart_of_unnamed hops hy hnamed⟩
    exact (Survey.ignores_start h.params).after fun o ho => hnamed o (List.mem_append_left _ ho)
  rcases split_cases hrest with ⟨rest, rfl⟩ | ⟨rest, rfl, rfl⟩
  · -- during: `x` is not named any more
    refine ⟨x, .inl rfl, h.during op (by simp),
      h.begins.after fun o ho => h.during o (by simp [ho]),
      fun l hl href hbase o ho => h.apart_during l hl href hbase o (by grind)⟩
  · -- after: `y` is not named any more
    have hends := h.ends (by simp)
    rw [← List.append_assoc]
    refine ⟨y, .inr rfl, h.after op (by simp), hends.after fun o ho => h.after o (by simp [ho]),
      fun l hl href hbase o ho => h.apart_after l hl href hbase o (by grind)⟩

/-- What the survey looks up can be told apart when both are called the same. -/
theorem TakeTurns.surveys (h : f.TakeTurns x y pre life post) (hord : f.Ordered)
    (hops : f.ops = done ++ op :: more) : (Recast.merge x y).Surveys f done op := by
  obtain ⟨n, hn, hnamed, hknows, hapart⟩ := h.exists_out hord hops
  refine ⟨(· ≠ n), Recast.merge_inj hn,
    ⟨hknows.holders, fun _ hm heq => hknows.scopes (heq ▸ hm)⟩, hnamed, ?_⟩
  intro i b hi hb href
  obtain ⟨l, hl, rfl⟩ := (recorded_after (hops.trans (List.append_cons _ _ _))).loan i b hb
  have hmem := LoanBook.mem_of_get? hl
  refine hapart.base_ne hmem href ?_
  rw [Survey.after_concat] at hb
  have horigin : l.origin = op.point := (Survey.grows_observe _ op).origin hb hi
  rw [Loan.covers, Bool.and_eq_true, decide_eq_true_eq, decide_eq_true_eq, ← horigin]
  exact ⟨le_refl _, f.book_sound.origin_le_last l hmem⟩

/-- What the walk looks up can be told apart when both are called the same. -/
theorem TakeTurns.walks {policy : Policy} {w : Walk.State} (h : f.TakeTurns x y pre life post)
    (hord : f.Ordered) (hops : f.ops = done ++ op :: more) (hreach : f.reach policy done = .ok w) :
    (Recast.merge x y).Walks f w op := by
  obtain ⟨n, hn, hnamed, hknows, hapart⟩ := h.exists_out hord hops
  have hnames : ∀ m ∈ f.declared, m ∉ f.callers := fun m hm => h.callers m (by simp [hm])
  have hin := hord.inStep_of_reach hops hreach
  have hscope : ∀ m ∈ (Survey.after f done).scopes.names, m ≠ n :=
    fun m hm heq => hknows.scopes (heq ▸ hm)
  have hdecl : ∀ z : Place, w.store.declares z = true → z.base ≠ n := by
    intro z hz
    rw [hin.blocks.declares_iff, hin.scopes] at hz
    exact hscope z.base hz
  have hcaller : ∀ m ∈ f.callers, m ≠ n := by
    rintro m hm rfl
    rcases hn with rfl | rfl <;> exact h.callers _ (by simp) hm
  refine ⟨(· ≠ n), Recast.merge_inj hn, ⟨⟨?_, ?_, ?_⟩, ?_⟩, ?_, hnamed⟩
  · exact fun e he => hdecl e.1 (housed_of_reach hops hreach e he)
  · exact fun t ht => hdecl { base := t.1 } (Store.declares_iff_mem.mpr (List.mem_map_of_mem ht))
  · exact fun m hm => hscope m (hin.scopes ▸ hm)
  · intro l hl
    refine ⟨?_, fun z hz => hscope z.base ((hord.traced_of_reach hops hreach).inScope l hl z hz)⟩
    obtain ⟨hmem, -⟩ := (hin.mem_outstanding f.book_sound).mp hl
    rcases hord.target_cases hnames hops hreach hl with ⟨href, hcovers⟩ | hbase | hbase
    · exact hapart.base_ne hmem href hcovers
    · exact hcaller _ hbase
    · exact hscope _ hbase
  · intro l hl
    obtain ⟨hmem, hcovers, htaken⟩ := hord.takenFrom hops hl
    refine ⟨⟨?_, fun z hz => hnamed z (htaken.borrower z hz)⟩, hnamed l.via htaken.via⟩
    rcases hord.target_of_taken hnames hops hreach hl with href | hbase | hbase | hbase
    · exact hapart.base_ne hmem href hcovers
    · exact hnamed _ hbase
    · exact hcaller _ hbase
    · exact hscope _ hbase

/-- **Variables that take turns can have the same name**: the walk stops where it would have
stopped. -/
theorem TakeTurns.walk_stop (h : f.TakeTurns x y pre life post) (policy : Policy) :
    (((Recast.merge x y).function f).walk policy).stop =
      (f.walk policy).stop.map (Recast.merge x y).stop := by
  refine Recast.walk_stop (fun _ => Recast.entry_function (fun _ => rfl) f) (fun param hparam => ?_)
    (fun hord _ _ _ hops => h.surveys hord hops)
    fun hord _ _ _ _ hops hreach => h.walks hord hops hreach
  refine Recast.fixes_merge (h.params param hparam) fun heq => ?_
  exact h.callers y (by simp) (heq ▸ List.mem_map_of_mem hparam)

end Function

end BorrowCheck
