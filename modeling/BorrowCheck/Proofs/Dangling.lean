import BorrowCheck.Proofs.InStep

/-!
# References that dangle

A reference dangles when the storage it points at has ended: the block of the variable was left, or
the function returned. An accepted function uses no such reference, and returns none
(`BorrowCheck.Function.no_dangling`).

When a block is left, the walk looks at the loans of its variables whose borrowers stay, and they
must not be needed later. It passes over the loans whose borrowers end as well. These are no longer
held, so the survey knows that they are not used again, whatever the ends of loans that were taken
through them.
-/

namespace BorrowCheck

/-- What is held after a block was left was held before, by a variable that stays. -/
theorem Survey.mem_holders_of_exit {s : Survey} {op : Operation} {dying : List String}
    {scopes : Scopes} {e : Place × Nat} (hkind : op.kind = .exit)
    (hexit : s.scopes.exit? = some (dying, scopes)) (he : e ∈ (s.observe op).holders.toList) :
    e ∈ s.holders.toList ∧ e.1.base ∉ dying := by
  simp only [observe, hkind, exit, hexit] at he
  obtain ⟨hold, hstays⟩ := Place.Map.mem_keepKeys.mp he
  exact ⟨hold, by simpa using hstays⟩

/-- The walk finds what the survey knows to be held under a place, as long as it is needed. -/
theorem Walk.InStep.mem_heldUnder {b : LoanBook} {s : Survey} {es : List Ending} {now : Point}
    {w : State} {x : Place} (h : InStep b s es now w) (hb : b.Sound) (hs : s.Sound)
    (hrec : s.RecordedBy b) {e : Place × Nat} (he : e ∈ s.holders.toList)
    (hx : x.isPrefixOf e.1 = true) {l : Loan} (hl : b.get? e.2 = some l) (hlast : now < l.last) :
    l ∈ w.ledger.heldUnder x := by
  refine List.mem_filter.mpr ⟨h.outstanding_of_held hb hs he hl hlast, ?_⟩
  refine h.isHeldAt hb hs hrec he hl fun y hsame => ?_
  rwa [← Place.isPrefixOf_congr hsame]

namespace Function

variable {f : Function} {policy : Policy} {pre post : List Operation} {op : Operation} {l : Loan}

/-- The uses that are known after an operation have its point or earlier ones. -/
theorem Ordered.point_le_of_mem_uses (h : f.Ordered) (hops : f.ops = pre ++ op :: post)
    {u : Nat × Point} (hu : u ∈ (Survey.after f (pre ++ [op])).uses) : u.2 ≤ op.point := by
  rw [← List.nil_append (pre ++ [op])] at hu
  rcases Survey.mem_uses_after hu with hnone | ⟨⟨o, ho, hpoint⟩, -⟩
  · rw [Survey.after, List.foldl_nil, Survey.uses_receive] at hnone
    cases hnone
  · rw [hpoint]
    rcases List.mem_append.mp ho with ho | ho
    · exact le_of_lt (h.before hops o ho)
    · obtain rfl := List.mem_singleton.mp ho
      exact le_refl _

/-- **What is held when a block was left is not needed later**, if it is a loan of storage that
ended. -/
theorem Accepted.last_le_of_exit (h : f.Accepted policy) (hops : f.ops = pre ++ op :: post)
    {dying : List String} {scopes : Scopes} (hkind : op.kind = .exit)
    (hexit : (Survey.after f pre).scopes.exit? = some (dying, scopes)) {e : Place × Nat}
    (he : e ∈ ((Survey.after f pre).observe op).holders.toList) (hl : f.book.get? e.2 = some l)
    (hdies : l.target.base ∈ dying) (href : l.target.throughRef = false) : l.last ≤ op.point := by
  obtain ⟨w, a, u, -, hact, hperf, hin, -⟩ := h.stages hops
  obtain rfl : a = .exit := by simpa [Operation.action, hkind] using hact.symm
  obtain ⟨dying', scopes', hexit', hcheck, -⟩ := Walk.exit_cases (Walk.perform_cases hperf).1
  -- walk and survey leave the same block
  have hsame := hexit'
  rw [hin.scopes, hexit, Option.some.injEq, Prod.mk.injEq] at hsame
  obtain ⟨rfl, rfl⟩ := hsame
  obtain ⟨hheld, hstays⟩ := Survey.mem_holders_of_exit hkind hexit he
  have hsound := Survey.sound_after f pre
  obtain ⟨m, y, hm, hy, hsame⟩ := (recorded_after hops).exists_of_held hsound hheld
  obtain rfl : m = l := Option.some.inj (hm.symm.trans hl)
  by_contra hlast
  rw [not_le] at hlast
  have hout := hin.outstanding_of_held f.book_sound hsound hheld hl
    (lt_trans (Int.sub_one_lt_of_le (le_refl _)) hlast)
  -- the borrower stays, so this is one of the loans that are looked at
  have hlocal := hin.blocks.isLocal_of_exit? hexit' hdies href
  rw [Place.base_eq_of_same hsame] at hstays
  exact absurd (hcheck m hout y hy hstays hdies hlocal) (not_le.mpr hlast)

/-- **What a block lent is not used after its end.** -/
theorem Accepted.point_le_of_exit (h : f.Accepted policy) (hops : f.ops = pre ++ op :: post)
    {dying : List String} {scopes : Scopes} (hkind : op.kind = .exit)
    (hexit : (Survey.after f pre).scopes.exit? = some (dying, scopes)) (hl : l ∈ f.book.loans)
    (horigin : l.origin < op.point) (hdies : l.target.base ∈ dying)
    (href : l.target.throughRef = false) {u : Nat × Point} (hu : u ∈ (Survey.after f f.ops).uses)
    (hid : u.1 = l.id) : u.2 ≤ op.point := by
  have hops' : f.ops = (pre ++ [op]) ++ post := hops.trans (List.append_cons pre op post)
  have hu' := hu
  rw [hops'] at hu'
  rcases Survey.mem_uses_after hu' with hold | ⟨-, hheld | hlate⟩
  · exact h.ordered.point_le_of_mem_uses hops hold
  · -- the borrower is still there after the exit
    obtain ⟨e, he, heid⟩ := hheld
    have hget : f.book.get? e.2 = some l := by
      rw [heid, hid]
      exact f.book_sound.get?_id hl
    obtain ⟨m, y, hm, hy, -⟩ :=
      (recorded_after hops').exists_of_held (Survey.sound_after f (pre ++ [op])) he
    obtain rfl : m = l := Option.some.inj (hm.symm.trans hget)
    rw [Survey.after_concat] at he
    calc u.2 ≤ m.last :=
          (recorded_after (List.append_nil f.ops).symm).used u hu m y (heid ▸ hget) hy
      _ ≤ op.point := h.last_le_of_exit hops hkind hexit he hget hdies href
  · -- the loan was taken before the exit
    have hlt := h.ordered.id_lt hops hl horigin
    have hle := (Survey.grows_observe (Survey.after f pre) op).length_le
    rw [Survey.after_concat, hid] at hlate
    exact absurd (Nat.lt_of_lt_of_le hlt (Nat.le_trans hle hlate)) (Nat.lt_irrefl _)

/-- What is returned holds no loan of a variable in scope. -/
theorem Accepted.not_local_of_ret {x : Place} (h : f.Accepted policy)
    (hops : f.ops = pre ++ op :: post) (hkind : op.kind = .ret) (hx : op.source = some x)
    {e : Place × Nat} (he : e ∈ (Survey.after f pre).holders.toList)
    (hunder : x.isPrefixOf e.1 = true) (hl : f.book.get? e.2 = some l) :
    l.target.throughRef = true ∨ l.target.base ∉ (Survey.after f pre).scopes.names := by
  obtain ⟨w, a, u, -, hact, hperf, hin, -⟩ := h.stages hops
  obtain rfl : a = .ret (some x) := by simpa [Operation.action, hkind, hx] using hact.symm
  obtain ⟨v, hret, -⟩ := (Walk.perform_cases hperf).1
  have htouch : x ∈ op.touches := by
    simp only [Operation.touches, hkind]
    exact Operation.mem_sources_of_source hx
  have hover : e.1.overlaps x = true := by
    rw [Place.overlaps_comm]
    exact Place.overlaps_of_isPrefixOf hunder
  -- returning a reference uses it
  have hlast := le_last_of_touches hops htouch he hover hl
  have hheld := hin.mem_heldUnder f.book_sound (Survey.sound_after f pre) (recorded_after hops) he
    hunder hl (Int.sub_one_lt_of_le hlast)
  have hlocal := (Walk.ret_cases hret).1 l hheld
  rw [Store.isLocal, Bool.and_eq_false_iff, Bool.not_eq_false'] at hlocal
  refine hlocal.imp_right fun hdecl hscope => ?_
  rw [← hin.scopes, ← hin.blocks.declares_iff, hdecl] at hscope
  cases hscope

/-- **No reference dangles.** In an accepted function,

* when a block is left, the loans of its variables that were taken before are not used later;
* what is returned, and what lies under it, holds only loans of places behind references or of
  storage that is no variable in scope. -/
theorem no_dangling (h : f.Accepted policy) (hops : f.ops = pre ++ op :: post) :
    (op.kind = .exit → ∃ dying scopes,
      (Survey.after f pre).scopes.exit? = some (dying, scopes) ∧
      ∀ l ∈ f.book.loans, l.origin < op.point → l.target.base ∈ dying →
        l.target.throughRef = false →
        ∀ u ∈ (Survey.after f f.ops).uses, u.1 = l.id → u.2 ≤ op.point) ∧
    ∀ x, op.kind = .ret → op.source = some x →
      ∀ e ∈ (Survey.after f pre).holders.toList, x.isPrefixOf e.1 = true →
        ∃ l, f.book.get? e.2 = some l ∧
          (l.target.throughRef = true ∨ l.target.base ∉ (Survey.after f pre).scopes.names) := by
  constructor
  · intro hkind
    obtain ⟨w, a, u, -, hact, hperf, hin, -⟩ := h.stages hops
    obtain rfl : a = .exit := by simpa [Operation.action, hkind] using hact.symm
    obtain ⟨dying, scopes, hexit, -⟩ := Walk.exit_cases (Walk.perform_cases hperf).1
    rw [hin.scopes] at hexit
    exact ⟨dying, scopes, hexit, fun l hl horigin hdies href u hu hid =>
      h.point_le_of_exit hops hkind hexit hl horigin hdies href hu hid⟩
  · intro x hkind hx e he hunder
    obtain ⟨l, -, hl, -⟩ := (recorded_after hops).exists_of_held (Survey.sound_after f pre) he
    exact ⟨l, hl, h.not_local_of_ret hops hkind hx he hunder hl⟩

/-- A function that points `r` at a variable of a block, and again at what its parameter points at
when the block was left, and returns it. -/
def repointed : Function where
  name := "f"
  params := [{ name := "p", ty := .refTo .shared (.named "T") }]
  ops :=
    [.declare 1 { base := "r" } (.named "R"), .enter 2, .declare 3 { base := "t" } (.named "T"),
      .assign 4 { base := "t" } [], .borrow 5 .shared { base := "r" } { base := "t" },
      .deref 6 { base := "r" }, .exit 7,
      .borrow 8 .shared { base := "r" } (Place.deref { base := "p" }),
      .ret 9 (some { base := "r" })]

/-- The loan of `t` to `r` in `BorrowCheck.Function.repointed`. -/
def loanInBlock : Loan where
  borrower := some { base := "r" }
  kind := .shared
  origin := 5
  target := { base := "t" }
  via := { base := "t" }
  id := 1
  last := 6

/-- The loan of `t` is not used after its block, and `r` is returned with the loan taken later. -/
theorem no_dangling_repointed :
    repointed.Accepted {} ∧ loanInBlock ∈ repointed.book.loans ∧ loanInBlock.target.base = "t" ∧
      (Survey.after repointed (repointed.ops.take 6)).scopes.exit? =
        some (["t"], { current := ["p", "r"] }) ∧
      (∀ u ∈ (Survey.after repointed repointed.ops).uses, u.1 = loanInBlock.id → u.2 ≤ 7) ∧
      (({ base := "r" }, 2) : Place × Nat) ∈
        (Survey.after repointed (repointed.ops.take 8)).holders.toList ∧
      ∃ l, repointed.book.get? 2 = some l ∧ (l.target.throughRef = true ∨
        l.target.base ∉ (Survey.after repointed (repointed.ops.take 8)).scopes.names) := by
  have haccepted : repointed.Accepted {} := by decide +kernel
  have hl : loanInBlock ∈ repointed.book.loans := by decide +kernel
  have hscopes : (Survey.after repointed (repointed.ops.take 6)).scopes.exit? =
      some (["t"], { current := ["p", "r"] }) := by decide +kernel
  have hr : (({ base := "r" }, 2) : Place × Nat) ∈
      (Survey.after repointed (repointed.ops.take 8)).holders.toList := by decide +kernel
  have hexit : repointed.ops = repointed.ops.take 6 ++ .exit 7 :: repointed.ops.drop 7 := rfl
  have hret : repointed.ops = repointed.ops.take 8 ++ .ret 9 (some { base := "r" }) :: [] := rfl
  obtain ⟨dying, scopes, hdying, hused⟩ := (no_dangling haccepted hexit).1 rfl
  obtain rfl : dying = ["t"] := (Prod.mk.inj (Option.some.inj (hdying.symm.trans hscopes))).1
  exact ⟨haccepted, hl, rfl, hscopes, hused loanInBlock hl (by decide) (by decide) rfl, hr,
    (no_dangling haccepted hret).2 { base := "r" } rfl rfl _ hr (by decide)⟩

end Function

end BorrowCheck
