import BorrowCheck.Handover
import BorrowCheck.Proofs.Recorded

/-!
# When there is a verdict

A function as it is handed over (`BorrowCheck.Handover`) may give the names of kinds in place of
kinds, and numbers of any length. This file says exactly when there is a verdict on it
(`BorrowCheck.Handover.judged_iff`): always, unless the walk comes to a use in name only
(`BorrowCheck.Handover.Reaches`), or has to write a number with too many digits where it stops
(`BorrowCheck.Handover.Stop.numbers`).

The survey takes an operation whose kind is only named for one of another kind
(`BorrowCheck.Handed.taken`), and the walk refuses it. So up to the first such operation the walk is
that through the function which the survey sees (`BorrowCheck.Handover.taken`), and survey and walk
are in step there.
-/

namespace BorrowCheck

/-! ### What the survey takes an operation for -/

namespace Handed

variable {o : Handed}

/-- The operation that the survey takes `o` for: a borrow in name only for an exclusive one, and
what it does not recognise for one of an unknown kind. -/
def taken (o : Handed) : Operation :=
  if o.nameOnly then
    match o.kind with
    | .borrow _ => { o.toOperation with kind := .borrow .exclusive }
    | .deref | .use | .ret => o.toOperation
    | _ => { o.toOperation with kind := .named "" }
  else
    o.toOperation

theorem taken_of_given (h : o.nameOnly = false) : o.taken = o.toOperation := by
  rw [taken, h]
  rfl

theorem point_taken (o : Handed) : o.taken.point = o.point := by
  unfold taken
  split
  · split <;> rfl
  · rfl

end Handed

/-- The survey of what is handed over is that of what it is taken for. -/
theorem Survey.observe_taken (s : Survey) (o : Handed) :
    s.observe o.taken = s.observeHanded o := by
  obtain ⟨⟨p, kind, target, sources, args, callee, ty, span⟩, nameOnly⟩ := o
  cases nameOnly with
  | false => rfl
  | true => cases kind <;> rfl

namespace Handover

variable {h : Handover} {policy : Policy}

/-- The function that the survey takes `h` for. -/
def taken (h : Handover) : Function :=
  { name := h.name, params := h.params, ops := h.ops.map Handed.taken }

theorem ops_taken {pre post : List Handed} {o : Handed} (hops : h.ops = pre ++ o :: post) :
    h.taken.ops = pre.map Handed.taken ++ o.taken :: post.map Handed.taken := by
  rw [taken, hops, List.map_append, List.map_cons]

theorem entry_taken (h : Handover) : h.taken.entry = h.function.entry := by
  obtain ⟨name, params, ops⟩ := h
  cases ops with
  | nil => rfl
  | cons o ops => exact congrArg (· - 1) o.point_taken

/-- Points are those of the operations, whatever their kinds. -/
theorem disorder?_taken (h : Handover) : h.taken.disorder? = h.function.disorder? := by
  have hpoints : ∀ (ops : List Handed) (last : Point),
      Walk.disorder? last (ops.map Handed.taken) =
        Walk.disorder? last (ops.map Handed.toOperation) := by
    intro ops
    induction ops with
    | nil => exact fun _ => rfl
    | cons o ops ih =>
      intro last
      simp only [List.map_cons, Walk.disorder?, o.point_taken, ih]
  obtain ⟨name, params, ops⟩ := h
  cases ops with
  | nil => rfl
  | cons o ops =>
    simp only [Function.disorder?, taken, function, List.map_cons, hpoints, o.point_taken]

theorem taken_of_given (hgiven : ∀ o ∈ h.ops, o.nameOnly = false) : h.taken = h.function := by
  rw [taken, function, List.map_congr_left fun o ho => Handed.taken_of_given (hgiven o ho)]

theorem after_taken (h : Handover) (ops : List Handed) :
    Survey.after h.taken (ops.map Handed.taken) = Survey.afterHanded h ops := by
  rw [Survey.after, Survey.afterHanded, List.foldl_map, entry_taken]
  simp only [Survey.observe_taken]
  rfl

/-- So the loans are those of the function that the survey sees. -/
theorem book_taken (h : Handover) : h.taken.book = h.book :=
  congrArg Survey.book (h.after_taken h.ops)

theorem context_taken (h : Handover) (policy : Policy) :
    h.taken.context policy = h.context policy := by
  rw [Function.context, book_taken]
  rfl

theorem start_taken (h : Handover) (store : Store) : h.taken.start store = h.start store := by
  rw [Function.start, book_taken, entry_taken]
  rfl

end Handover

/-! ### The walk -/

namespace Handed

variable {c : Walk.Context} {w t : Walk.State} {o : Handed}

/-- An operation whose kind is only named is refused. -/
theorem exists_violation_of_nameOnly (h : o.nameOnly = true) :
    ∃ v, o.step c w = .error (.violation v) := by
  unfold step
  rw [h]
  cases w.returned <;> exact ⟨_, rfl⟩

/-- An operation whose kind is given is the one that the survey sees. -/
theorem step_of_given (h : o.nameOnly = false) : o.step c w = Walk.step c w o.taken := by
  rw [taken_of_given h, step, h]
  cases hret : w.returned with
  | none => rfl
  | some q => simp only [Walk.step, hret]

/-- Only operations whose kind is given are completed. -/
theorem step_eq_ok_iff :
    o.step c w = .ok t ↔ o.nameOnly = false ∧ Walk.step c w o.taken = .ok t := by
  cases h : o.nameOnly with
  | false => simp [step_of_given h]
  | true =>
    obtain ⟨v, hv⟩ := exists_violation_of_nameOnly (c := c) (w := w) h
    simp [hv]

end Handed

namespace Handover

variable {h : Handover} {policy : Policy} {ops pre post : List Handed} {o : Handed}
  {w t : Walk.State} {stop : Stop}

/-- **The operations that are completed are those that the survey sees**: all their kinds are
given. -/
theorem reach_eq_ok_iff :
    h.reach policy ops = .ok t ↔
      (∀ o ∈ ops, o.nameOnly = false) ∧
        h.taken.reach policy (ops.map Handed.taken) = .ok t := by
  have hsteps : ∀ w, ops.foldlM (advance (h.context policy)) w = .ok t ↔
      (∀ o ∈ ops, o.nameOnly = false) ∧
        (ops.map Handed.taken).foldlM (Walk.step (h.context policy)) w = .ok t := by
    induction ops with
    | nil => simp [pure_eq_ok_iff]
    | cons o ops ih =>
      intro w
      simp only [List.map_cons, foldlM_cons_eq_ok_iff, advance, mapError_eq_ok_iff,
        Handed.step_eq_ok_iff, ih, List.forall_mem_cons]
      constructor
      · rintro ⟨m, ⟨ho, hm⟩, hops, ht⟩
        exact ⟨⟨ho, hops⟩, m, hm, ht⟩
      · rintro ⟨⟨ho, hops⟩, m, hm, ht⟩
        exact ⟨m, ⟨ho, hm⟩, hops, ht⟩
  simp only [reach, Function.reach, bind_eq_ok_iff, mapError_eq_ok_iff, hsteps, context_taken,
    start_taken]
  constructor
  · rintro ⟨store, hstore, hgiven, ht⟩
    exact ⟨hgiven, store, hstore, ht⟩
  · rintro ⟨hgiven, store, hstore, ht⟩
    exact ⟨store, hstore, hgiven, ht⟩

/-- The walk through `h` **reaches** the operation `o`: points increase, and all operations in
front of it are completed. -/
def Reaches (h : Handover) (policy : Policy) (o : Handed) : Prop :=
  h.function.disorder? = none ∧
    ∃ pre post w, h.ops = pre ++ o :: post ∧ h.reach policy pre = .ok w

/-- Where a walk stops: before the first operation, or at one that it reaches. -/
theorem stop_cases (hwalk : h.walk policy = .error stop) :
    (∃ point last, h.function.disorder? = some (point, last) ∧
      stop = { fault := .violation (.flaw (.pointOrder point last)), point }) ∨
    (∃ fault, h.function.disorder? = none ∧ Walk.declareParams h.params = .error fault ∧
      stop = { fault, point := h.function.entry }) ∨
    ∃ pre o post w fault, h.function.disorder? = none ∧ h.ops = pre ++ o :: post ∧
      h.reach policy pre = .ok w ∧ Handed.step (h.context policy) w o = .error fault ∧
      stop = { fault, point := o.point, operation := o } := by
  unfold walk at hwalk
  split at hwalk
  next point last hdis =>
    cases hwalk
    exact .inl ⟨point, last, hdis, rfl⟩
  next hdis =>
    unfold reach at hwalk
    cases hparams : Walk.declareParams h.params with
    | error fault =>
      rw [hparams] at hwalk
      cases hwalk
      exact .inr (.inl ⟨fault, hdis, rfl, rfl⟩)
    | ok store =>
      rw [hparams] at hwalk
      obtain ⟨pre, o, post, w, hops, hw, hstep⟩ := foldlM_eq_error_iff.mp hwalk
      obtain ⟨fault, hfault, rfl⟩ := mapError_eq_error_iff.mp hstep
      refine .inr (.inr ⟨pre, o, post, w, fault, hdis, hops, ?_, hfault, rfl⟩)
      rw [reach, hparams]
      exact hw

/-- **A walk only ever stops at a violation.** -/
theorem exists_violation_of_walk (hwalk : h.walk policy = .error stop) :
    ∃ v, stop.fault = .violation v := by
  rcases stop_cases hwalk with ⟨point, last, -, rfl⟩ | ⟨fault, -, hparams, rfl⟩ |
    ⟨pre, o, post, w, fault, hdis, hops, hreach, hstep, rfl⟩
  · exact ⟨_, rfl⟩
  · exact Walk.answers_declareParams h.params fault hparams
  · cases hgiven : o.nameOnly with
    | true =>
      obtain ⟨v, hv⟩ := Handed.exists_violation_of_nameOnly (c := h.context policy) (w := w) hgiven
      exact ⟨v, Except.error.inj (hstep.symm.trans hv)⟩
    | false =>
      -- the walk is still that through the function which the survey sees
      have hord := Function.ordered_of_disorder? (h.disorder?_taken.trans hdis)
      rw [Handed.step_of_given hgiven, ← context_taken] at hstep
      exact hord.answers_step (ops_taken hops) (reach_eq_ok_iff.mp hreach).2 fault hstep

/-- The walk stops at an operation whose kind is only named, when it reaches one. -/
theorem Reaches.exists_stop (hreaches : h.Reaches policy o) (hname : o.nameOnly = true) :
    ∃ stop, h.walk policy = .error stop ∧ stop.operation = some o := by
  obtain ⟨hdis, pre, post, w, hops, hreach⟩ := hreaches
  obtain ⟨v, hv⟩ := Handed.exists_violation_of_nameOnly (c := h.context policy) (w := w) hname
  obtain ⟨store, hstore, hw⟩ := bind_eq_ok_iff.mp hreach
  refine ⟨{ fault := .violation v, point := o.point, operation := o }, ?_, rfl⟩
  have hfails : advance (h.context policy) w o =
      .error { fault := .violation v, point := o.point, operation := o } := by
    rw [advance, hv]
    rfl
  simp only [walk, hdis]
  rw [reach, hstore]
  exact foldlM_eq_error_iff.mpr ⟨pre, o, post, w, hops, hw, hfails⟩

/-- The operation at which a walk stops was reached. -/
theorem reaches_of_stop (hwalk : h.walk policy = .error stop) (hop : stop.operation = some o) :
    h.Reaches policy o := by
  rcases stop_cases hwalk with ⟨point, last, -, rfl⟩ | ⟨fault, -, -, rfl⟩ |
    ⟨pre, o', post, w, fault, hdis, hops, hreach, -, rfl⟩
  · cases hop
  · cases hop
  · cases hop
    exact ⟨hdis, pre, post, w, hops, hreach⟩

/-- A walk that completes has met given kinds only, and is that through the function itself. -/
theorem given_of_walk (hwalk : h.walk policy = .ok t) :
    (∀ o ∈ h.ops, o.nameOnly = false) ∧ h.function.Accepted policy := by
  unfold walk at hwalk
  split at hwalk
  next => cases hwalk
  next hdis =>
    obtain ⟨hgiven, hreach⟩ := reach_eq_ok_iff.mp hwalk
    refine ⟨hgiven, Function.accepted_iff.mpr ⟨hdis, t, ?_⟩⟩
    rw [← taken_of_given hgiven]
    exact hreach

/-! ### Verdicts -/

/-- The numbers that are written where a walk stops: those in the words for the violation, and
those in the text of the operation. -/
def Stop.numbers (stop : Stop) : List Int :=
  let words :=
    match stop.fault with
    | .violation v => v.numbers stop.point
    | .unrecorded _ _ => []
  words ++ (stop.operation.toList.flatMap Handed.numbers)

section Finding

variable {v : Violation} {name : String}

theorem Stop.numbers_of_violation (hv : stop.fault = .violation v) :
    stop.numbers = v.numbers stop.point ++ stop.operation.toList.flatMap Handed.numbers := by
  rw [numbers, hv]

/-- A stop at a violation can be put into words unless it is at a use in name only, or at a number
that has too many digits. -/
theorem Stop.exists_finding_iff (hv : stop.fault = .violation v) :
    (∃ finding, stop.finding name = .ok finding) ↔
      (∀ o, stop.operation = some o → o.bareUse = false) ∧
        ∀ n ∈ stop.numbers, Text.fits n = true := by
  rw [numbers_of_violation hv, Stop.finding, hv]
  simp only [List.forall_mem_append, ← List.all_eq_true]
  split
  next hfits =>
    cases hop : stop.operation with
    | none => simp [hfits]
    | some o =>
      cases hbare : o.bareUse with
      | true => simp [Handed.text?, hbare]
      | false =>
        have htext : ∃ text, o.text? = some text := by
          rw [Handed.text?, hbare]
          exact ⟨_, (apply_ite some _ _ _).symm⟩
        obtain ⟨text, htext⟩ := htext
        simp only [htext, hfits, true_and]
        split <;> simp_all
  next hfits => simp [hfits]

theorem Stop.error_of_finding (hv : stop.fault = .violation v) {error : ReportError}
    (herror : stop.finding name = .error error) : error = .bareName ∨ error = .longNumber := by
  rw [Stop.finding, hv] at herror
  dsimp only at herror
  split at herror
  · split at herror
    · cases herror
    · split at herror
      · exact .inl (Except.error.inj herror).symm
      · split at herror
        · cases herror
        · exact .inr (Except.error.inj herror).symm
  · exact .inr (Except.error.inj herror).symm

end Finding

/-- There is a verdict unless the walk reaches a use in name only, or has to write a number that
has too many digits. -/
theorem exists_verdict_iff :
    (∃ v, h.verdict policy = .ok v) ↔
      (∀ o, h.Reaches policy o → o.bareUse = false) ∧
        ∀ stop, h.walk policy = .error stop → ∀ n ∈ stop.numbers, Text.fits n = true := by
  -- a use in name only stops the walk that reaches it
  have hstops : ∀ o, h.Reaches policy o → o.bareUse = true →
      ∃ stop, h.walk policy = .error stop ∧ stop.operation = some o := fun o hreaches hbare =>
    hreaches.exists_stop (Bool.and_eq_true_iff.mp hbare).1
  unfold verdict
  split
  next t hwalk =>
    refine iff_of_true ⟨_, rfl⟩ ⟨fun o hreaches => ?_, fun stop hstop => ?_⟩
    · rw [← Bool.not_eq_true]
      intro hbare
      obtain ⟨stop, hstop, -⟩ := hstops o hreaches hbare
      rw [hwalk] at hstop
      cases hstop
    · rw [hwalk] at hstop
      cases hstop
  next stop hwalk =>
    obtain ⟨v, hv⟩ := exists_violation_of_walk hwalk
    have hmap : (∃ verdict, (stop.finding h.name).map (Verdict.rejected h.name) = .ok verdict) ↔
        ∃ finding, stop.finding h.name = .ok finding := by
      cases stop.finding h.name <;> simp [Except.map]
    rw [hmap, Stop.exists_finding_iff hv]
    constructor
    · rintro ⟨hops, hnumbers⟩
      refine ⟨fun o hreaches => ?_, fun stop' hstop' => ?_⟩
      · rw [← Bool.not_eq_true]
        intro hbare
        obtain ⟨stop', hstop', hop⟩ := hstops o hreaches hbare
        rw [hwalk] at hstop'
        cases hstop'
        rw [hops o hop] at hbare
        cases hbare
      · rw [hwalk] at hstop'
        cases hstop'
        exact hnumbers
    · rintro ⟨hreaches, hnumbers⟩
      exact ⟨fun o hop => hreaches o (reaches_of_stop hwalk hop), hnumbers stop hwalk⟩

/-- The stop at the operation whose kind is meant. -/
def Stop.meant (stop : Stop) : Walk.Stop :=
  { fault := stop.fault, point := stop.point
    operation := stop.operation.map Handed.toOperation }

/-- When all kinds are given, a walk that stops is that through the function itself. -/
theorem stop_of_given (hgiven : ∀ o ∈ h.ops, o.nameOnly = false)
    (hwalk : h.walk policy = .error stop) :
    (h.function.walk policy).stop = some stop.meant := by
  rcases stop_cases hwalk with ⟨point, last, hdis, rfl⟩ | ⟨fault, hdis, hparams, rfl⟩ |
    ⟨pre, o, post, w, fault, hdis, hops, hreach, hstep, rfl⟩
  · simp only [Function.walk, hdis]
    rfl
  · have hparams' : Walk.declareParams h.function.params = .error fault := hparams
    simp only [Function.walk, hdis, hparams']
    rfl
  · have ho : o.nameOnly = false :=
      hgiven o (hops ▸ List.mem_append_right pre List.mem_cons_self)
    obtain ⟨store, hstore, hw⟩ := bind_eq_ok_iff.mp (reach_eq_ok_iff.mp hreach).2
    rw [Handed.step_of_given ho, ← context_taken] at hstep
    rw [← taken_of_given hgiven] at hdis ⊢
    simp only [Function.walk, hdis, hstore]
    rw [ops_taken hops, Walk.stop_of_step hw hstep, Handed.point_taken, Handed.taken_of_given ho]
    rfl

/-- A finding that can be put into words is the same as without a limit. -/
theorem Stop.finding_meant {name : String} {finding : Finding}
    (hgiven : ∀ o, stop.operation = some o → o.nameOnly = false)
    (hfinding : stop.finding name = .ok finding) : stop.meant.finding name = .ok finding := by
  obtain ⟨fault, point, operation⟩ := stop
  cases fault with
  | unrecorded borrower source => cases hfinding
  | violation v =>
    simp only [Stop.finding] at hfinding
    split at hfinding
    next =>
      cases operation with
      | none => exact hfinding
      | some o =>
        have htext : o.text? = some o.toOperation.text := by
          simp [Handed.text?, Handed.bareUse, hgiven o rfl]
        simp only [htext] at hfinding
        split at hfinding
        · exact hfinding
        · cases hfinding
    next => cases hfinding

/-- When all kinds are given, the verdict is that on the function itself. -/
theorem verdict_of_given (hgiven : ∀ o ∈ h.ops, o.nameOnly = false) {v : Verdict}
    (hverdict : h.verdict policy = .ok v) : h.function.verdict policy = .ok v := by
  unfold verdict at hverdict
  split at hverdict
  next t hwalk =>
    cases hverdict
    exact (given_of_walk hwalk).2
  next stop hwalk =>
    rw [Function.verdict, stop_of_given hgiven hwalk]
    obtain ⟨finding, hfinding, rfl⟩ : ∃ finding, stop.finding h.name = .ok finding ∧
        Verdict.rejected h.name finding = v := by
      cases hf : stop.finding h.name with
      | error e => simp [hf, Except.map] at hverdict
      | ok finding => exact ⟨finding, rfl, by simpa [hf, Except.map] using hverdict⟩
    have hop : ∀ o, stop.operation = some o → o.nameOnly = false := by
      intro o ho
      obtain ⟨-, pre, post, w, hops, -⟩ := reaches_of_stop hwalk ho
      exact hgiven o (hops ▸ List.mem_append_right pre List.mem_cons_self)
    have hsame : stop.meant.finding h.function.name = .ok finding := Stop.finding_meant hop hfinding
    simp only [hsame]
    rfl

/-- There are two reasons only for which there is no verdict. -/
theorem error_of_verdict {error : ReportError} (herror : h.verdict policy = .error error) :
    error = .bareName ∨ error = .longNumber := by
  unfold verdict at herror
  split at herror
  next => cases herror
  next stop hwalk =>
    obtain ⟨v, hv⟩ := exists_violation_of_walk hwalk
    cases hfinding : stop.finding h.name with
    | ok finding =>
      rw [hfinding] at herror
      cases herror
    | error e =>
      rw [hfinding] at herror
      cases herror
      exact Stop.error_of_finding hv hfinding

/-- **When a function that is handed over is judged.** There is a verdict unless the walk reaches a
use in name only, or has to write a number that has too many digits where it stops, and nothing else
keeps it from a verdict: a walk only ever stops at a violation, whatever number a survey looks up
stands in it, and the parent of a loan is an older loan of the book. When all kinds are given, the
verdict is that on the function itself. A walk that completes has met given kinds only, and has
opened every loan once, at its origin. -/
theorem judged_iff (h : Handover) (policy : Policy) :
    ((∃ v, h.verdict policy = .ok v) ↔
        (∀ o, h.Reaches policy o → o.bareUse = false) ∧
          ∀ stop, h.walk policy = .error stop → ∀ n ∈ stop.numbers, Text.fits n = true) ∧
      (∀ error, h.verdict policy = .error error → error = .bareName ∨ error = .longNumber) ∧
      (∀ stop, h.walk policy = .error stop → ∃ v, stop.fault = .violation v) ∧
      (∀ ops, ∀ e ∈ (Survey.afterHanded h ops).holders.toList,
        ∃ b, (Survey.afterHanded h ops).borrows[e.2]? = some b) ∧
      (∀ l ∈ h.book.loans, ∀ q, l.parent = some q → q < l.id ∧ ∃ m, h.book.get? q = some m) ∧
      ((∀ o ∈ h.ops, o.nameOnly = false) →
        ∀ v, h.verdict policy = .ok v → h.function.verdict policy = .ok v) ∧
      (∀ t, h.walk policy = .ok t → (∀ o ∈ h.ops, o.nameOnly = false) ∧
        h.book = h.function.book ∧ h.function.OpensAtOrigin policy) := by
  refine ⟨exists_verdict_iff, fun error => error_of_verdict, fun stop => exists_violation_of_walk,
    fun ops e he => ?_, fun l hl q hq => ?_, fun hgiven v => verdict_of_given hgiven,
    fun t hwalk => ?_⟩
  · rw [← after_taken] at he ⊢
    obtain ⟨b, -, hb, -⟩ := (Survey.sound_after h.taken _).held e he
    exact ⟨b, hb⟩
  · rw [← book_taken] at hl ⊢
    obtain ⟨hlt, m, hm, -⟩ := h.taken.book_sound.parent l hl q hq
    exact ⟨hlt, m, hm⟩
  · obtain ⟨hgiven, haccepted⟩ := given_of_walk hwalk
    exact ⟨hgiven, by rw [← book_taken, taken_of_given hgiven], haccepted.opensAtOrigin⟩

/-- A function that lends `s` twice in one call, behind the reference that it is given, and once
more to `q`. -/
def lendsTwice : Function where
  name := "f"
  params := [{ name := "r", ty := .refTo .shared (.named "T") }]
  ops :=
    [.declare 1 { base := "s" } (.named "T"), .assign 2 { base := "s" } [],
      .call 3 "g" [{ place := { base := "s" }, mode := .lend .shared },
        { place := { base := "s" }, mode := .lend .shared },
        { place := Place.deref { base := "r" }, mode := .lend .shared }] none,
      .declare 4 { base := "q" } (.named "R"), .borrow 5 .shared { base := "q" } { base := "s" },
      .deref 6 { base := "q" }]

/-- The walk completes, and opens the five loans, three of them at one point. -/
theorem judged_iff_lendsTwice :
    (lendsTwice.handOver.walk {}).isOk = true ∧
      (lendsTwice.book.takenAt 3).map (·.id) = [1, 2, 3] ∧ lendsTwice.book.loans.length = 5 ∧
      lendsTwice.OpensAtOrigin {} := by
  have hok : (lendsTwice.handOver.walk {}).isOk = true := by decide +kernel
  refine ⟨hok, by decide +kernel, by decide +kernel, ?_⟩
  cases hwalk : lendsTwice.handOver.walk {} with
  | error stop =>
    rw [hwalk] at hok
    cases hok
  | ok t => exact ((judged_iff lendsTwice.handOver {}).2.2.2.2.2.2 t hwalk).2.2

/-- A function whose only operation is a use in name only. -/
def usesInName : Handover where
  name := "f"
  ops := [{ point := 0, kind := .use, nameOnly := true }]

/-- A function with two parameters of one name. Its first point has as many digits as can be
written, so the point before it, at which the parameters are declared, has too many. -/
def repeatsParam : Handover where
  name := "f"
  params := [{ name := "x", ty := .named "T" }, { name := "x", ty := .named "T" }]
  ops := [{ toOperation := .enter (1 - (Nat.pow 10 Text.maxDigits : Nat)) }]

/-- Not every function that is handed over is judged. -/
theorem not_judged :
    (¬∃ v, usesInName.verdict {} = .ok v) ∧ ¬∃ v, repeatsParam.verdict {} = .ok v := by
  have hname : (usesInName.verdict {}).isOk = false := by decide +kernel
  have hnumber : (repeatsParam.verdict {}).isOk = false := by decide +kernel
  constructor
  · rintro ⟨v, hv⟩
    rw [hv] at hname
    cases hname
  · rintro ⟨v, hv⟩
    rw [hv] at hnumber
    cases hnumber

end Handover

end BorrowCheck
