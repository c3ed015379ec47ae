import BorrowCheck.Proofs.Step

/-!
# How a survey grows

A survey only ever grows: operations add loans and uses at the end, and what an old loan's
borrower is known to hold can be forgotten but never comes back. `BorrowCheck.Survey.Grows` says
this once, as a preorder that every operation respects; that an entry of an old loan which is
still there now was there all the time is its third field.

Besides, what an operation touches it uses (`BorrowCheck.Survey.mem_uses_observe`), and an operation
that can be performed is surveyed as its action (`BorrowCheck.Survey.observe_eq_act`).
-/

namespace BorrowCheck

/-! ### Entries of tables -/

namespace Place.Map

variable {α : Type} {m : Map α} {x : Place} {a : α} {e : Place × α}

theorem mem_keepKeys {keep : Place → Bool} :
    e ∈ (m.keepKeys keep).toList ↔ e ∈ m.toList ∧ keep e.1 = true := by
  simp [keepKeys]

/-- An entry after a value was put in is an old one at another key, or has the new value. -/
theorem mem_put (h : e ∈ (m.put x a).toList) :
    (e ∈ m.toList ∧ e.1.same x = false) ∨ (e.1.same x = true ∧ e.2 = a) := by
  unfold put at h
  split at h
  next hx =>
    obtain ⟨d, hd, rfl⟩ := List.mem_map.mp h
    by_cases hs : d.1.same x = true
    · rw [if_pos hs]
      exact Or.inr ⟨hs, rfl⟩
    · rw [if_neg hs]
      exact Or.inl ⟨hd, Bool.eq_false_iff.mpr hs⟩
  next hx =>
    rcases List.mem_append.mp h with hm | hm
    · refine Or.inl ⟨hm, Bool.eq_false_iff.mpr fun hs => hx ?_⟩
      exact contains_iff.mpr ⟨e, hm, hs⟩
    · obtain rfl := List.mem_singleton.mp hm
      exact Or.inr ⟨same_refl x, rfl⟩

/-- Putting a value in keeps the entries at other keys. -/
theorem mem_put_of_not_same (he : e ∈ m.toList) (hne : e.1.same x = false) :
    e ∈ (m.put x a).toList := by
  unfold put
  split
  · exact List.mem_map.mpr ⟨e, he, if_neg (by simp [hne])⟩
  · exact List.mem_append_left _ he

/-- What is found at a place stands in an entry for the same place. -/
theorem exists_mem_of_get? (h : m.get? x = some a) :
    ∃ e ∈ m.toList, e.1.same x = true ∧ e.2 = a := by
  obtain ⟨e, hfind, rfl⟩ := Option.map_eq_some_iff.mp h
  exact ⟨e, List.mem_of_find?_eq_some hfind, by simpa using List.find?_some hfind, rfl⟩

/-- What is found at a place is not lost with the entries at others. -/
theorem get?_keepKeys {keep : Place → Bool} {y : Place}
    (h : ∀ z, z.same y = true → keep z = true) : (m.keepKeys keep).get? y = m.get? y := by
  have htest : (fun e : Place × α => decide (keep e.1 = true ∧ e.1.same y = true)) =
      fun e => e.1.same y := by
    funext e
    rw [Bool.eq_iff_iff, decide_eq_true_eq]
    exact and_iff_right_of_imp (h e.1)
  rw [get?, get?, keepKeys, List.find?_filter, htest]

end Place.Map

/-! ### What an operation touches -/

/-- The reference that a write to `target` goes through, if it does. -/
def behind (target : Option Place) : List Place :=
  ((target.filter Place.throughRef).map Place.holder).toList

/-- What a target makes an operation touch: the reference that it lies behind, if there is one. -/
theorem mem_behind {target : Option Place} {y : Place} :
    y ∈ behind target ↔ ∃ x, target = some x ∧ x.throughRef = true ∧ y = x.holder := by
  cases target with
  | none => simp [behind]
  | some x => by_cases hx : x.throughRef = true <;> simp [behind, Option.filter, hx]

/-- The places that an operation **touches**: those that it reads, those that it borrows, and the
reference that its write goes through. A borrower is used when a place that overlaps it is
touched. -/
def Operation.touches (op : Operation) : List Place :=
  match op.kind with
  | .assign => op.sources ++ behind op.target
  | .move =>
    match op.source with
    | none => []
    | some x => x :: behind op.target
  | .borrow _ =>
    match op.target, op.source with
    | some t, some x => x :: behind (some t)
    | _, _ => []
  | .deref | .use | .ret => op.sources
  | .call => op.args.map Arg.place ++ behind op.target
  | _ => []

/-! ### Parts of operations -/

namespace Operation

variable {op : Operation}

/-- The kind and the parts from which `op` gets its action. -/
def Does (op : Operation) : Action → Prop
  | .declare x _ => op.kind = .declare ∧ op.target = some x
  | .assign x sources => op.kind = .assign ∧ op.target = some x ∧ sources = op.sources
  | .move y x => op.kind = .move ∧ op.target = some y ∧ op.source = some x
  | .borrow kind y x => op.kind = .borrow kind ∧ op.target = some y ∧ op.source = some x
  | .deref x => op.kind = .deref ∧ op.source = some x
  | .use x => op.kind = .use ∧ op.source = some x
  | .call args result => op.kind = .call ∧ op.target = result ∧ args = op.args
  | .ret x => op.kind = .ret ∧ op.source = x
  | .enter => op.kind = .enter
  | .exit => op.kind = .exit

theorem getTarget_eq_ok_iff {x : Place} : op.getTarget = .ok x ↔ op.target = some x := by
  unfold getTarget
  split <;> simp_all

theorem getSource_eq_ok_iff {x : Place} : op.getSource = .ok x ↔ op.source = some x := by
  unfold getSource
  split <;> simp_all

/-- An operation that is complete does what its kind says. -/
theorem action_cases {a : Action} (h : op.action = .ok a) : op.Does a := by
  unfold action at h
  cases hkind : op.kind <;>
    simp only [hkind, bind_eq_ok_iff, pure_eq_ok_iff, getTarget_eq_ok_iff, getSource_eq_ok_iff,
      Except.ok.injEq, reduceCtorEq] at h <;>
    grind [Does]

theorem mem_sources_of_source {x : Place} (h : op.source = some x) : x ∈ op.sources :=
  List.mem_of_head? h

/-- **What an operation reads it touches.** -/
theorem mem_touches_of_reads {a : Action} {x : Place} (hact : op.action = .ok a)
    (hx : x ∈ a.reads) : x ∈ op.touches := by
  have hdoes := action_cases hact
  cases a with
  | assign y ys =>
    obtain ⟨hkind, -, rfl⟩ := hdoes
    simp only [touches, hkind]
    exact List.mem_append_left _ hx
  | move y z =>
    obtain rfl := List.mem_singleton.mp hx
    simp only [touches, hdoes.1, hdoes.2.2]
    exact List.mem_cons_self
  | borrow kind y z =>
    obtain ⟨-, rfl⟩ : z.throughRef = true ∧ x = z := by simpa [Action.reads] using hx
    simp only [touches, hdoes.1, hdoes.2.1, hdoes.2.2]
    exact List.mem_cons_self
  | deref z | use z =>
    obtain rfl := List.mem_singleton.mp hx
    simp only [touches, hdoes.1]
    exact mem_sources_of_source hdoes.2
  | call args result =>
    obtain ⟨hkind, -, rfl⟩ := hdoes
    obtain ⟨b, hb, rfl⟩ := List.mem_map.mp hx
    simp only [touches, hkind]
    exact List.mem_append_left _ (List.mem_map_of_mem (List.mem_filter.mp hb).1)
  | ret z =>
    obtain rfl : z = some x := by simpa [Action.reads] using hx
    simp only [touches, hdoes.1]
    exact mem_sources_of_source hdoes.2
  | declare y ty | enter | exit => cases hx

end Operation

/-- The reborrow of the loan `b`, which has the number `q`, that a move of `x` to `y` at `p`
takes. -/
def Borrow.handedOn (b : Borrow) (q : Nat) (y x : Place) (p : Point) : Borrow :=
  { borrower := some y, kind := b.kind, origin := p, target := b.target, via := x,
    parent := some q }

namespace Survey

/-! ### What an action does to a survey -/

/-- The survey after the action of `op`. All sources are touched, also those that the action does
not need. -/
def act (s : Survey) (op : Operation) : Action → Survey
  | .declare x _ => { s.forget x with scopes := s.scopes.declare x.base }
  | .assign x _ => (s.touchAll op.sources op.point).write x op.point
  | .move y x => s.move (some y) x op.point
  | .borrow kind y x => s.lend kind y x op.point
  | .deref _ | .use _ | .ret _ => s.touchAll op.sources op.point
  | .call args result =>
    (args.foldl (pass op.point) s).write? result op.point
  | .enter => { s with scopes := s.scopes.enter }
  | .exit => s.exit

/-- An operation with all its parts is surveyed by its action. -/
theorem observe_eq_act (s : Survey) {op : Operation} {a : Action} (h : op.action = .ok a)
    : s.observe op = s.act op a := by
  have hdoes := Operation.action_cases h
  cases a with
  | declare x ty =>
    obtain ⟨hkind, htarget⟩ := hdoes
    simp only [observe, hkind, htarget, act]
    rfl
  | assign x ys =>
    obtain ⟨hkind, htarget, -⟩ := hdoes
    simp only [observe, hkind, htarget, act, write?]
  | move y x =>
    obtain ⟨hkind, htarget, hsource⟩ := hdoes
    simp only [observe, hkind, htarget, hsource, act]
  | borrow kind y x =>
    obtain ⟨hkind, htarget, hsource⟩ := hdoes
    simp only [observe, hkind, htarget, hsource, act]
  | deref x | use x | ret x =>
    simp only [observe, hdoes.1, act]
  | call args result =>
    obtain ⟨hkind, rfl, rfl⟩ := hdoes
    simp only [observe, hkind, act]
  | enter | exit =>
    have hkind : op.kind = _ := hdoes
    simp only [observe, hkind, act]

/-! ### Loans and blocks that stay -/

section

variable (s : Survey) (x : Place) (target : Option Place) (xs : List Place) (p : Point)

@[simp] theorem borrows_touch : (s.touch x p).borrows = s.borrows := rfl

@[simp] theorem holders_touch : (s.touch x p).holders = s.holders := rfl

@[simp] theorem borrows_touchAll : (s.touchAll xs p).borrows = s.borrows := by
  induction xs generalizing s with
  | nil => rfl
  | cons x xs ih => exact ih (s.touch x p)

@[simp] theorem scopes_touchAll : (s.touchAll xs p).scopes = s.scopes := by
  induction xs generalizing s with
  | nil => rfl
  | cons x xs ih => exact ih (s.touch x p)

@[simp] theorem holders_touchAll : (s.touchAll xs p).holders = s.holders := by
  induction xs generalizing s with
  | nil => rfl
  | cons x xs ih => exact ih (s.touch x p)

@[simp] theorem borrows_write : (s.write x p).borrows = s.borrows := by
  unfold write
  split <;> rfl

@[simp] theorem scopes_write : (s.write x p).scopes = s.scopes := by
  unfold write
  split <;> rfl

@[simp] theorem borrows_write? : (s.write? target p).borrows = s.borrows := by
  cases target with
  | none => rfl
  | some x => exact borrows_write s x p

@[simp] theorem scopes_write? : (s.write? target p).scopes = s.scopes := by
  cases target with
  | none => rfl
  | some x => exact scopes_write s x p

@[simp] theorem holders_pass (a : Arg) : (pass p s a).holders = s.holders := by
  simp only [pass]
  split <;> rfl

@[simp] theorem holders_passAll (args : List Arg) :
    (args.foldl (pass p) s).holders = s.holders := by
  induction args generalizing s with
  | nil => rfl
  | cons a args ih => rw [List.foldl_cons, ih, holders_pass]

@[simp] theorem scopes_pass (a : Arg) : (pass p s a).scopes = s.scopes := by
  simp only [pass]
  split <;> rfl

@[simp] theorem scopes_passAll (args : List Arg) : (args.foldl (pass p) s).scopes = s.scopes := by
  induction args generalizing s with
  | nil => rfl
  | cons a args ih => rw [List.foldl_cons, ih, scopes_pass]

@[simp] theorem scopes_lend (kind : BorrowKind) (t : Place) :
    (s.lend kind t x p).scopes = s.scopes :=
  scopes_write _ _ _

@[simp] theorem scopes_move : (s.move target x p).scopes = s.scopes := by
  simp only [move]
  split <;> exact scopes_write? _ _ _

@[simp] theorem scopes_receive (param : Param) :
    (receive p s param).scopes = s.scopes.declare param.name := by
  simp only [receive]
  split <;> rfl

/-- A move takes a reborrow of the loan that its source holds, or no loan. -/
theorem borrows_move (t : Place) :
    (s.move (some t) x p).borrows = s.borrows ∨
      ∃ q b, s.holders.get? x = some q ∧ s.borrows[q]? = some b ∧
        (s.move (some t) x p).borrows = s.borrows ++ [b.handedOn q t x p] := by
  simp only [move]
  split
  next t' q b heq hheld =>
    obtain rfl := Option.some.inj heq
    simp only [Option.bind_eq_bind, Option.bind_eq_some_iff, Option.pure_def, Option.some.injEq,
      Prod.mk.injEq] at hheld
    obtain ⟨q', hget, b', hb, rfl, rfl⟩ := hheld
    refine Or.inr ⟨q', b', hget, hb, ?_⟩
    simp [define, take, Borrow.handedOn]
  next => exact Or.inl (borrows_write? _ _ _)

end

/-! ### What is held where an action writes -/

section

variable {s : Survey} {x : Place} {p : Point} {e : Place × Nat}

/-- A move whose source holds a loan stores a reborrow of it in the target. -/
theorem move_of_held {t : Place} {q : Nat} {b : Borrow} (hget : s.holders.get? x = some q)
    (hb : s.borrows[q]? = some b) :
    s.move (some t) x p = ((s.touch x p).write t p).define t (b.handedOn q t x p) := by
  simp [move, write?, hget, hb, Borrow.handedOn]

/-- A write to storage of the function ends what was held in the place written, and nothing else. -/
theorem mem_holders_write (h : x.throughRef = false) :
    e ∈ (s.write x p).holders.toList ↔ e ∈ s.holders.toList ∧ x.isPrefixOf e.1 = false := by
  have hcut : x.cut? = none := by
    rwa [← Option.isNone_iff_eq_none, ← Option.isSome_eq_false_iff, Place.cut?_isSome]
  rw [write, hcut, forget, Place.Map.mem_keepKeys, Bool.not_eq_true']

/-- Once `x` was written and a loan was stored there, only that loan is held at it. -/
theorem length_le_of_define {b : Borrow} (href : x.throughRef = false)
    (he : e ∈ ((s.write x p).define x b).holders.toList) (hunder : x.isPrefixOf e.1 = true) :
    s.borrows.length ≤ e.2 := by
  rcases Place.Map.mem_put he with ⟨hold, -⟩ | ⟨-, hnew⟩
  · rw [((mem_holders_write href).mp hold).2] at hunder
    cases hunder
  · exact Nat.le_of_eq (by rw [hnew, borrows_write])

/-- A write behind a reference makes nothing be forgotten. -/
theorem holders_write_of_throughRef (h : x.throughRef = true) :
    (s.write x p).holders = s.holders := by
  obtain ⟨⟨ref, rest⟩, hcut⟩ := Option.isSome_iff_exists.mp (x.cut?_isSome.trans h)
  rw [write, hcut]
  rfl

/-- What is held elsewhere stays when an action writes behind a reference. -/
theorem mem_holders_of_written {op : Operation} {a : Action} (hx : a.written? = some x)
    (href : x.throughRef = true) (he : e ∈ s.holders.toList) (hne : e.1.same x = false) :
    e ∈ (s.act op a).holders.toList := by
  cases a with
  | assign y ys =>
    obtain rfl := Option.some.inj hx
    rwa [act, holders_write_of_throughRef href, holders_touchAll]
  | move y z =>
    obtain rfl := Option.some.inj hx
    simp only [act, move, write?]
    split
    next heq _ =>
      obtain rfl := Option.some.inj heq
      refine Place.Map.mem_put_of_not_same ?_ hne
      rwa [holders_write_of_throughRef href]
    next => rwa [holders_write_of_throughRef href]
  | borrow kind y z =>
    obtain rfl := Option.some.inj hx
    refine Place.Map.mem_put_of_not_same ?_ hne
    rwa [holders_write_of_throughRef href]
  | call args result =>
    obtain rfl : result = some x := hx
    rwa [act, write?, holders_write_of_throughRef href, holders_passAll]
  | declare y ty | deref y | use y | ret y | enter | exit => cases hx

/-- What is held where an action writes was borrowed by it. -/
theorem length_le_of_written {op : Operation} {a : Action} (hx : a.written? = some x)
    (href : x.throughRef = false) (he : e ∈ (s.act op a).holders.toList)
    (hunder : x.isPrefixOf e.1 = true) : s.borrows.length ≤ e.2 := by
  have hforgotten : ∀ {t : Survey} {q : Point}, e ∉ (t.write x q).holders.toList := fun he => by
    rw [((mem_holders_write href).mp he).2] at hunder
    cases hunder
  cases a with
  | assign y ys =>
    obtain rfl := Option.some.inj hx
    exact absurd he hforgotten
  | move y z =>
    obtain rfl := Option.some.inj hx
    simp only [act, move, write?] at he
    split at he
    next heq _ =>
      obtain rfl := Option.some.inj heq
      exact length_le_of_define (s := s.touch z op.point) href he hunder
    next => exact absurd he hforgotten
  | borrow kind y z =>
    obtain rfl := Option.some.inj hx
    exact length_le_of_define (s := s.touch z op.point) href he hunder
  | call args result =>
    obtain rfl : result = some x := hx
    exact absurd he hforgotten
  | declare y ty | deref y | use y | ret y | enter | exit => cases hx

end

/-! ### Growth -/

/-- **Growth of a survey**: the loans that were added have their origin at a point that satisfies
`P`, and an entry for an older loan was there before. -/
structure Grows (P : Point → Prop) (s t : Survey) : Prop where
  borrows : ∃ new, t.borrows = s.borrows ++ new ∧ ∀ b ∈ new, P b.origin
  uses : s.uses <+: t.uses
  holders : ∀ e ∈ t.holders.toList, e.2 < s.borrows.length → e ∈ s.holders.toList

variable {P Q : Point → Prop} {s t u : Survey} {x : Place} {p : Point}

theorem Grows.refl (s : Survey) : Grows P s s :=
  ⟨⟨[], by simp, by simp⟩, List.prefix_refl _, fun _ he _ => he⟩

theorem Grows.length_le (h : Grows P s t) : s.borrows.length ≤ t.borrows.length := by
  obtain ⟨new, hnew, -⟩ := h.borrows
  rw [hnew, List.length_append]
  exact Nat.le_add_right _ _

theorem Grows.trans (hst : Grows P s t) (htu : Grows P t u) : Grows P s u := by
  obtain ⟨new, hnew, hP⟩ := hst.borrows
  obtain ⟨new', hnew', hP'⟩ := htu.borrows
  refine ⟨⟨new ++ new', by rw [hnew', hnew, List.append_assoc], ?_⟩, hst.uses.trans htu.uses, ?_⟩
  · intro b hb
    rcases List.mem_append.mp hb with hb | hb
    · exact hP b hb
    · exact hP' b hb
  · intro e he hlt
    exact hst.holders e (htu.holders e he (Nat.lt_of_lt_of_le hlt hst.length_le)) hlt

theorem Grows.mono (h : Grows P s t) (hPQ : ∀ p, P p → Q p) : Grows Q s t := by
  obtain ⟨new, hnew, hP⟩ := h.borrows
  exact ⟨⟨new, hnew, fun b hb => hPQ _ (hP b hb)⟩, h.uses, h.holders⟩

/-- A borrow keeps its number. -/
theorem Grows.getElem? (h : Grows P s t) {i : Nat} {b : Borrow} (hb : s.borrows[i]? = some b) :
    t.borrows[i]? = some b := by
  obtain ⟨new, hnew, -⟩ := h.borrows
  rw [hnew, List.getElem?_append_left (List.getElem?_eq_some_iff.mp hb).1, hb]

/-- Where the survey grew, the loan is new. -/
theorem Grows.origin (h : Grows P s t) {i : Nat} {b : Borrow} (hb : t.borrows[i]? = some b)
    (hi : s.borrows.length ≤ i) : P b.origin := by
  obtain ⟨new, hnew, hP⟩ := h.borrows
  rw [hnew, List.getElem?_append_right hi] at hb
  exact hP b (List.mem_of_getElem? hb)

/-- Growing at each step of a loop is growing over the loop. -/
theorem grows_foldl {α : Type} {run : Survey → α → Survey} {as : List α} (s : Survey)
    (h : ∀ s, ∀ a ∈ as, Grows P s (run s a)) : Grows P s (as.foldl run s) := by
  induction as generalizing s with
  | nil => exact Grows.refl s
  | cons a as ih =>
    have hrest := ih (run s a) fun t b hb => h t b (List.mem_cons_of_mem a hb)
    exact (h s a List.mem_cons_self).trans hrest

/-! ### Every operation grows the survey -/

theorem grows_touch : Grows P s (s.touch x p) :=
  ⟨⟨[], by simp [touch], by simp⟩, List.prefix_append _ _, fun _ he _ => he⟩

theorem grows_touchAll {xs : List Place} : Grows P s (s.touchAll xs p) :=
  grows_foldl s fun _ _ _ => grows_touch

/-- That a place holds a borrow no more leaves the borrow on record. -/
theorem grows_keepKeys {keep : Place → Bool} {scopes : Scopes} :
    Grows P s { s with holders := s.holders.keepKeys keep, scopes } :=
  ⟨⟨[], by simp, by simp⟩, List.prefix_refl _, fun _ he _ => (Place.Map.mem_keepKeys.mp he).1⟩

theorem grows_forget : Grows P s (s.forget x) :=
  grows_keepKeys

theorem grows_scopes {scopes : Scopes} : Grows P s { s with scopes } :=
  ⟨⟨[], by simp, by simp⟩, List.prefix_refl _, fun _ he _ => he⟩

theorem grows_write : Grows P s (s.write x p) := by
  unfold write
  split
  · exact grows_touch
  · exact grows_forget

theorem grows_write? {target : Option Place} : Grows P s (s.write? target p) := by
  cases target with
  | none => exact Grows.refl s
  | some x => exact grows_write

/-- A borrow that is taken is recorded with its origin. -/
theorem grows_take {b : Borrow} (hb : P b.origin) : Grows P s (s.take b) :=
  ⟨⟨[b], rfl, by simpa using hb⟩, List.prefix_append _ _, fun _ he _ => he⟩

theorem grows_define {b : Borrow} (hb : P b.origin) : Grows P s (s.define x b) := by
  refine ⟨(grows_take hb).borrows, (grows_take hb).uses, fun e he hlt => ?_⟩
  rcases Place.Map.mem_put he with ⟨hold, -⟩ | ⟨-, hnew⟩
  · exact hold
  · exact absurd hnew (Nat.ne_of_lt hlt)

/-- Passing an argument takes a borrow at the point of the call, if any. -/
theorem grows_pass {a : Arg} : Grows (· = p) s (pass p s a) := by
  simp only [pass]
  split
  · exact grows_touch
  · exact grows_touch.trans (grows_take rfl)

/-- A move of a reference takes a reborrow, at the point of the move. -/
theorem grows_move {target : Option Place} : Grows (· = p) s (s.move target x p) := by
  simp only [move]
  split
  · exact (grows_touch.trans grows_write?).trans (grows_define rfl)
  · exact grows_touch.trans grows_write?

theorem grows_lend {kind : BorrowKind} {y : Place} : Grows (· = p) s (s.lend kind y x p) :=
  (grows_touch.trans grows_write).trans (grows_define rfl)

theorem grows_exit : Grows P s s.exit := by
  unfold exit
  split
  · exact Grows.refl s
  · exact grows_keepKeys

/-- **An operation grows the survey**, by loans that originate at its point. -/
theorem grows_observe (s : Survey) (op : Operation) : Grows (· = op.point) s (s.observe op) := by
  simp only [observe]
  split
  · split
    · exact Grows.refl s
    · exact grows_forget.trans grows_scopes
  · exact grows_touchAll.trans grows_write?
  · split
    · exact Grows.refl s
    · exact grows_move
  · split
    · exact grows_lend
    · exact Grows.refl s
  · exact grows_touchAll
  · exact grows_touchAll
  · exact grows_touchAll
  · exact (grows_foldl s fun _ _ _ => grows_pass).trans grows_write?
  · exact grows_scopes
  · exact grows_exit
  · exact Grows.refl s

/-- A parameter that is a reference is a borrow from before the first operation. -/
theorem grows_receive {param : Param} : Grows (· = p) s (receive p s param) := by
  unfold receive
  split
  · exact grows_scopes
  · exact grows_scopes.trans (grows_define rfl)

/-! ### Uses -/

section

variable {e : Place × Nat} {target : Option Place} {y : Place}

/-- Touching a place is a use of every borrow held in what overlaps it. -/
theorem mem_uses_touch (he : e ∈ s.holders.toList) (hover : e.1.overlaps x = true) :
    (e.2, p) ∈ (s.touch x p).uses :=
  List.mem_append_right _ (List.mem_map.mpr ⟨e, List.mem_filter.mpr ⟨he, hover⟩, rfl⟩)

theorem mem_uses_touchAll {xs : List Place} (hx : x ∈ xs) (he : e ∈ s.holders.toList)
    (hover : e.1.overlaps x = true) : (e.2, p) ∈ (s.touchAll xs p).uses := by
  induction xs generalizing s with
  | nil => cases hx
  | cons z xs ih =>
    rcases List.mem_cons.mp hx with rfl | hx
    · have hgrow : Grows (fun _ => True) (s.touch x p) ((s.touch x p).touchAll xs p) :=
        grows_touchAll
      exact hgrow.uses.subset (mem_uses_touch he hover)
    · exact @ih (s.touch z p) hx he

/-- A write behind a reference uses the reference. -/
theorem mem_uses_behind (hy : y ∈ behind target) (he : e ∈ s.holders.toList)
    (hover : e.1.overlaps y = true) : (e.2, p) ∈ (s.write? target p).uses := by
  obtain ⟨x, rfl, href, rfl⟩ := mem_behind.mp hy
  obtain ⟨⟨ref, rest⟩, hcut⟩ := Option.isSome_iff_exists.mp (x.cut?_isSome.trans href)
  rw [write?, write, hcut, Place.cut?_fst hcut]
  exact mem_uses_touch he hover

/-- Passing an argument is a use of what it holds, whatever is passed before or after it. -/
theorem mem_uses_passAll {args : List Arg} {a : Arg} (ha : a ∈ args)
    (he : e ∈ s.holders.toList) (hover : e.1.overlaps a.place = true) :
    (e.2, p) ∈ (args.foldl (pass p) s).uses := by
  induction args generalizing s with
  | nil => cases ha
  | cons b args ih =>
    rcases List.mem_cons.mp ha with rfl | ha
    · have hgrow : Grows (· = p) (pass p s a) (args.foldl (pass p) (pass p s a)) :=
        grows_foldl _ fun _ _ _ => grows_pass
      refine hgrow.uses.subset ?_
      have htouch := mem_uses_touch (p := p) he hover
      simp only [pass]
      split
      · exact htouch
      · exact List.mem_append_left _ htouch
    · exact @ih (pass p s b) ha (by rw [holders_pass]; exact he)

/-- **What an operation touches it uses**: every borrower that overlaps a place that is touched. -/
theorem mem_uses_observe {op : Operation} (hx : x ∈ op.touches) (he : e ∈ s.holders.toList)
    (hover : e.1.overlaps x = true) : (e.2, op.point) ∈ (s.observe op).uses := by
  have hdefine : ∀ (t : Survey) (z : Place) (b : Borrow), t.uses ⊆ (t.define z b).uses :=
    fun _ _ _ => List.subset_append_left _ _
  have hwrite : ∀ t : Survey, t.uses ⊆ (t.write? op.target op.point).uses := fun t => by
    have hgrow : Grows (fun _ => True) t (t.write? op.target op.point) := grows_write?
    exact hgrow.uses.subset
  -- the touches come first, and what follows them only adds to the log
  cases hkind : op.kind with
  | assign =>
    simp only [Operation.touches, hkind, List.mem_append] at hx
    simp only [observe, hkind]
    rcases hx with hx | hx
    · exact hwrite _ (mem_uses_touchAll hx he hover)
    · exact mem_uses_behind hx (by rwa [holders_touchAll]) hover
  | move =>
    cases hsource : op.source with
    | none => simp [Operation.touches, hkind, hsource] at hx
    | some z =>
      simp only [Operation.touches, hkind, hsource, List.mem_cons] at hx
      have hmid : (e.2, op.point) ∈ ((s.touch z op.point).write? op.target op.point).uses := by
        rcases hx with rfl | hx
        · exact hwrite _ (mem_uses_touch he hover)
        · exact mem_uses_behind hx he hover
      simp only [observe, hkind, hsource, move]
      split
      · exact hdefine _ _ _ hmid
      · exact hmid
  | borrow kind =>
    cases htarget : op.target with
    | none => simp [Operation.touches, hkind, htarget] at hx
    | some t =>
      cases hsource : op.source with
      | none => simp [Operation.touches, hkind, htarget, hsource] at hx
      | some z =>
        simp only [Operation.touches, hkind, htarget, hsource, List.mem_cons] at hx
        simp only [observe, hkind, htarget, hsource, lend]
        refine hdefine _ _ _ ?_
        rw [htarget] at hwrite
        rcases hx with rfl | hx
        · exact hwrite _ (mem_uses_touch he hover)
        · exact mem_uses_behind (s := s.touch z op.point) hx he hover
  | deref | use | ret =>
    simp only [Operation.touches, hkind] at hx
    simp only [observe, hkind]
    exact mem_uses_touchAll hx he hover
  | call =>
    simp only [Operation.touches, hkind, List.mem_append, List.mem_map] at hx
    simp only [observe, hkind]
    rcases hx with ⟨a, ha, rfl⟩ | hx
    · exact hwrite _ (mem_uses_passAll ha he hover)
    · exact mem_uses_behind hx (by rwa [holders_passAll]) hover
  | declare | enter | exit | unknown _ => simp [Operation.touches, hkind] at hx

end

/-! ### Along a body -/

/-- The survey goes through a function from left to right, so it can be taken up after any
operation. -/
theorem after_append (f : Function) (pre ops : List Operation) :
    after f (pre ++ ops) = ops.foldl observe (after f pre) := by
  rw [after, after, List.foldl_append]

theorem after_concat (f : Function) (pre : List Operation) (op : Operation) :
    after f (pre ++ [op]) = (after f pre).observe op := by
  rw [after_append, List.foldl_cons, List.foldl_nil]

/-- What is recorded over some operations has its origin at one of them. -/
theorem grows_after (f : Function) (pre ops : List Operation) :
    Grows (fun p => ∃ op ∈ ops, op.point = p) (after f pre) (after f (pre ++ ops)) := by
  rw [after_append]
  exact grows_foldl _ fun s op hop => (grows_observe s op).mono fun _ hp => ⟨op, hop, hp.symm⟩

/-- The loan that a parameter holds from the beginning, if it is a reference. -/
def entryBorrow? (entry : Point) (param : Param) : Option Borrow :=
  param.ty.ref.map fun kind =>
    { borrower := some { base := param.name }, kind, origin := entry,
      target := Place.ofCaller param.name, via := Place.deref { base := param.name } }

/-- The first borrows are those of the parameters that are references, in their order. -/
theorem borrows_receive (s : Survey) (entry : Point) (params : List Param) :
    (params.foldl (receive entry) s).borrows =
      s.borrows ++ params.filterMap (entryBorrow? entry) := by
  induction params generalizing s with
  | nil => simp
  | cons param params ih =>
    rw [List.foldl_cons, ih]
    cases hkind : param.ty.ref with
    | none => simp [receive, hkind, entryBorrow?]
    | some kind => simp [receive, hkind, entryBorrow?, define, take]

/-- What a parameter lends is storage of the caller. -/
theorem target_of_entry {f : Function} {b : Borrow} (h : b ∈ (after f []).borrows) :
    ∃ param ∈ f.params, b.target = Place.ofCaller param.name := by
  rw [after, List.foldl_nil, borrows_receive] at h
  obtain ⟨param, hparam, hb⟩ := List.mem_filterMap.mp (by simpa using h)
  obtain ⟨kind, -, rfl⟩ := Option.map_eq_some_iff.mp hb
  exact ⟨param, hparam, rfl⟩

/-- The loans before the first operation are those of the parameters. -/
theorem grows_entry (f : Function) : Grows (· = f.entry) {} (after f []) :=
  grows_foldl _ fun _ _ _ => grows_receive

end Survey

end BorrowCheck
