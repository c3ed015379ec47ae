import BorrowCheck.Proofs.Growth

/-!
# The loans of a survey fit together

What a place is known to hold is a loan whose borrower is that place, and a loan is only taken
through a loan that is held at that time (`BorrowCheck.Survey.Sound`). So a loan for the length of
a call, which nothing holds, is never taken through, and the loan that another one is taken
through is older.

The heart of it is what a borrowed place stands for (`BorrowCheck.Survey.referentBelow_cases`):
either the place itself, or the target of a loan that is held now followed by a path. Everything
that is said later about the target of a loan goes back to these cases.

Conversely, what is used at some point is held there, and is touched or taken through
(`BorrowCheck.Survey.cases_of_mem_uses`). A loan that is no longer held is thus not used any more
(`BorrowCheck.Survey.mem_uses_after`).
-/

namespace BorrowCheck

/-! ### Paths through references -/

namespace Place

@[simp] theorem throughRef_append (x : Place) (ps : List Proj) :
    (x.append ps).throughRef = (x.throughRef || ps.any Proj.isDeref) := by
  simp [throughRef, append]

theorem throughRef_eq_false_of_append {x : Place} {ps : List Proj}
    (h : (x.append ps).throughRef = false) : x.throughRef = false := by
  rw [throughRef_append, Bool.or_eq_false_iff] at h
  exact h.1

/-- A place can be cut at a dereference when it goes through one. -/
theorem cut?_eq_none_iff {x : Place} : x.cut? = none ↔ x.throughRef = false := by
  rw [← cut?_isSome, Option.isSome_eq_false_iff, Option.isNone_iff_eq_none]

theorem throughRef_of_cut? {x ref : Place} {rest : List Proj} (h : x.cut? = some (ref, rest)) :
    x.throughRef = true := by
  rw [← cut?_isSome, h, Option.isSome_some]

/-- Same places lie in the same variable. -/
theorem base_eq_of_same {x y : Place} (h : x.same y = true) : x.base = y.base := by
  rw [same_iff] at h
  show x.unlabel.base = y.unlabel.base
  rw [h]

/-- Same places lie in the same places. -/
theorem isPrefixOf_congr {x y z : Place} (h : y.same z = true) :
    x.isPrefixOf y = x.isPrefixOf z := by
  rw [same_iff, unlabel, unlabel, mk.injEq] at h
  simp only [isPrefixOf, h.1, h.2]

/-- What does not lie in a place is another one. -/
theorem not_same_of_not_isPrefixOf {x y : Place} (h : x.isPrefixOf y = false) :
    x.same y = false := by
  rw [Bool.eq_false_iff]
  intro hsame
  rw [← isPrefixOf_congr hsame, isPrefixOf_refl] at h
  cases h

/-- Of two same places both go through a reference, or neither does. -/
theorem throughRef_congr {x y : Place} (h : x.same y = true) :
    x.throughRef = y.throughRef := by
  have hpath : ∀ ps : List Proj, ps.any Proj.isDeref = (ps.map Proj.unlabel).any Proj.isDeref := by
    intro ps
    simp [List.any_map, Function.comp_def]
  rw [same_iff, unlabel, unlabel, mk.injEq] at h
  rw [throughRef, throughRef, hpath, h.2, ← hpath]

theorem not_same_of_throughRef {x y : Place} (hx : x.throughRef = true)
    (hy : y.throughRef = false) : x.same y = false := by
  rw [Bool.eq_false_iff]
  intro hsame
  rw [throughRef_congr hsame, hy] at hx
  cases hx

end Place

namespace Survey

variable {s : Survey} {x y : Place} {p : Point}

/-! ### What a borrowed place stands for -/

/-- Some borrower currently holds the loan `id`. -/
def Held (s : Survey) (id : Nat) : Prop :=
  ∃ e ∈ s.holders.toList, e.2 = id

/-- What is found for a place is held there. -/
theorem held_of_get? {id : Nat} (h : s.holders.get? x = some id) : s.Held id := by
  obtain ⟨e, he, -, rfl⟩ := Place.Map.exists_mem_of_get? h
  exact ⟨e, he, rfl⟩

/-- **What a borrowed place stands for.** A place that goes through no reference stands for
itself, and so does one behind a reference that holds nothing. All others stand for the target of
a loan that is held, followed by a path. -/
theorem referentBelow_cases (s : Survey) (bound : Nat) (x : Place) :
    (x.throughRef = false ∧ s.referentBelow bound x = (x, s.holders.get? x)) ∨
      (x.throughRef = true ∧ s.referentBelow bound x = (x, none)) ∨
      (x.throughRef = true ∧ ∃ id b ps, s.Held id ∧ s.borrows[id]? = some b ∧
        s.referentBelow bound x = (b.target.append ps, some id)) := by
  fun_induction referentBelow s bound x with
  | case1 bound x hcut => exact Or.inl ⟨Place.cut?_eq_none_iff.mp hcut, rfl⟩
  | case2 bound x ref rest hcut hget => exact Or.inr (Or.inl ⟨Place.throughRef_of_cut? hcut, rfl⟩)
  | case3 bound x ref rest hcut id hget hlt hb =>
    exact Or.inr (Or.inl ⟨Place.throughRef_of_cut? hcut, rfl⟩)
  | case4 bound x ref rest hcut id hget hlt b hb inner hinner deeper parent hrec ih =>
    -- the reference behind the first one holds a loan: that one is followed
    refine Or.inr (Or.inr ⟨Place.throughRef_of_cut? hcut, ?_⟩)
    rcases ih with ⟨hno, -⟩ | ⟨-, hnone⟩ | ⟨-, id', b', ps, hheld, hb', hrec'⟩
    · rw [hinner] at hno
      cases hno
    · rw [hrec] at hnone
      simp at hnone
    · exact ⟨id', b', ps, hheld, hb', hrec.symm.trans hrec'⟩
  | case5 bound x ref rest hcut id hget hlt b hb inner hinner deeper hrec ih =>
    exact Or.inr (Or.inr ⟨Place.throughRef_of_cut? hcut, id, b, rest, held_of_get? hget, hb, rfl⟩)
  | case6 bound x ref rest hcut id hget hlt b hb inner hinner =>
    exact Or.inr (Or.inr ⟨Place.throughRef_of_cut? hcut, id, b, rest, held_of_get? hget, hb, rfl⟩)
  | case7 bound x ref rest hcut id hget hlt =>
    exact Or.inr (Or.inl ⟨Place.throughRef_of_cut? hcut, rfl⟩)

/-- A place that goes through no reference stands for itself. -/
theorem referent_of_not_throughRef (href : x.throughRef = false) :
    s.referent x = (x, s.holders.get? x) := by
  rcases s.referentBelow_cases s.borrows.length x with ⟨-, hx⟩ | ⟨hyes, -⟩ | ⟨hyes, -⟩
  · exact hx
  · rw [href] at hyes
    cases hyes
  · rw [href] at hyes
    cases hyes

/-- A borrow is taken through a loan that is held. -/
theorem held_of_referent {id : Nat} (h : (s.referent x).2 = some id) : s.Held id := by
  rcases referentBelow_cases s s.borrows.length x with
    ⟨-, hx⟩ | ⟨-, hx⟩ | ⟨-, id', b, ps, hheld, -, hx⟩
  · rw [referent, hx] at h
    exact held_of_get? h
  · rw [referent, hx] at h
    cases h
  · rw [referent, hx, Option.some.injEq] at h
    exact h ▸ hheld

/-! ### Soundness -/

/-- **The loans of a survey fit together.** -/
structure Sound (s : Survey) : Prop where
  /-- A place holds a loan whose borrower it is. -/
  held : ∀ e ∈ s.holders.toList, ∃ b y, s.borrows[e.2]? = some b ∧ b.borrower = some y ∧
    e.1.same y = true
  /-- A loan is taken through an older one that has a borrower, and uses it. -/
  parent : ∀ i b q, s.borrows[i]? = some b → b.parent = some q →
    q < i ∧ (∃ a y, s.borrows[q]? = some a ∧ a.borrower = some y) ∧ (q, b.origin) ∈ s.uses
  /-- The loans without a borrower are those for the length of a call. -/
  temporary : ∀ b ∈ s.borrows, b.temporary = b.borrower.isNone

/-- A borrow that is held is on record, with its borrower. -/
theorem Sound.of_held {id : Nat} (h : s.Sound) (hid : s.Held id) :
    ∃ b y, s.borrows[id]? = some b ∧ b.borrower = some y := by
  obtain ⟨e, he, rfl⟩ := hid
  obtain ⟨b, y, hb, hy, -⟩ := h.held e he
  exact ⟨b, y, hb, hy⟩

theorem sound_empty : Sound {} :=
  ⟨by simp, by simp, by simp⟩

/-- A use that is logged, and entries that are forgotten, change nothing. -/
theorem Sound.of_fewer {t : Survey} (h : s.Sound) (hborrows : t.borrows = s.borrows)
    (huses : s.uses ⊆ t.uses) (hholders : ∀ e ∈ t.holders.toList, e ∈ s.holders.toList) :
    t.Sound := by
  refine ⟨fun e he => ?_, fun i b q hb hq => ?_, by rw [hborrows]; exact h.temporary⟩
  · rw [hborrows]
    exact h.held e (hholders e he)
  · rw [hborrows] at hb ⊢
    obtain ⟨hlt, ha, huse⟩ := h.parent i b q hb hq
    exact ⟨hlt, ha, huses huse⟩

theorem Sound.touch (h : s.Sound) : (s.touch x p).Sound :=
  h.of_fewer rfl (List.subset_append_left _ _) fun _ he => he

theorem Sound.touchAll (h : s.Sound) {xs : List Place} : (s.touchAll xs p).Sound := by
  induction xs generalizing s with
  | nil => exact h
  | cons x xs ih => exact ih h.touch

/-- That a place holds a borrow no more is no harm. -/
theorem Sound.keepKeys (h : s.Sound) {keep : Place → Bool} {scopes : Scopes} :
    Sound { s with holders := s.holders.keepKeys keep, scopes } :=
  h.of_fewer rfl (List.Subset.refl _) fun _ he => (Place.Map.mem_keepKeys.mp he).1

theorem Sound.forget (h : s.Sound) : (s.forget x).Sound :=
  h.keepKeys

theorem Sound.write (h : s.Sound) : (s.write x p).Sound := by
  unfold Survey.write
  split
  · exact h.touch
  · exact h.forget

theorem Sound.write? (h : s.Sound) {target : Option Place} : (s.write? target p).Sound := by
  cases target with
  | none => exact h
  | some x => exact h.write

/-- A loan may be taken when the one it is taken through has a borrower. -/
theorem Sound.take (h : s.Sound) {b : Borrow} (htemp : b.temporary = b.borrower.isNone)
    (hparent : ∀ q, b.parent = some q → ∃ a y, s.borrows[q]? = some a ∧ a.borrower = some y) :
    (s.take b).Sound := by
  have hold : ∀ {i : Nat} {a : Borrow}, s.borrows[i]? = some a →
      (s.borrows ++ [b])[i]? = some a := fun ha => by
    rw [List.getElem?_append_left (List.getElem?_eq_some_iff.mp ha).1, ha]
  refine ⟨fun e he => ?_, fun i a q ha hq => ?_, fun a ha => ?_⟩
  · obtain ⟨a, y, ha, hy⟩ := h.held e he
    exact ⟨a, y, hold ha, hy⟩
  · change (s.borrows ++ [b])[i]? = some a at ha
    rcases Nat.lt_or_ge i s.borrows.length with hi | hi
    · -- an older loan
      rw [List.getElem?_append_left hi] at ha
      obtain ⟨hlt, ⟨c, y, hc, hy⟩, huse⟩ := h.parent i a q ha hq
      exact ⟨hlt, ⟨c, y, hold hc, hy⟩, List.mem_append_left _ huse⟩
    · -- the new loan
      rw [List.getElem?_append_right hi, List.getElem?_singleton] at ha
      obtain ⟨hi', rfl⟩ : i - s.borrows.length = 0 ∧ b = a := by
        split at ha
        · exact ⟨by assumption, by simpa using ha⟩
        · cases ha
      obtain ⟨c, y, hc, hy⟩ := hparent q hq
      have hlt := (List.getElem?_eq_some_iff.mp hc).1
      refine ⟨by omega, ⟨c, y, hold hc, hy⟩, List.mem_append_right _ ?_⟩
      simp [hq]
  · rcases List.mem_append.mp ha with ha | ha
    · exact h.temporary a ha
    · obtain rfl := List.mem_singleton.mp ha
      exact htemp

/-- A borrow is held where it is said to be; what it was taken through has a borrower, too. -/
theorem Sound.define (h : s.Sound) {b : Borrow} (hx : b.borrower = some x)
    (htemp : b.temporary = false)
    (hparent : ∀ q, b.parent = some q → ∃ a y, s.borrows[q]? = some a ∧ a.borrower = some y) :
    (s.define x b).Sound := by
  have htake := h.take (by rw [htemp, hx]; rfl) hparent
  refine ⟨fun e he => ?_, htake.parent, htake.temporary⟩
  rcases Place.Map.mem_put he with ⟨hold, -⟩ | ⟨hsame, hnew⟩
  · exact htake.held e hold
  · refine ⟨b, x, ?_, hx, hsame⟩
    change (s.borrows ++ [b])[e.2]? = some b
    rw [hnew, List.getElem?_concat_length]

/-- The borrow of an argument is temporary, so nothing holds it. -/
theorem Sound.pass (h : s.Sound) {a : Arg} : (pass p s a).Sound := by
  simp only [Survey.pass]
  split
  · exact h.touch
  · exact h.touch.take rfl fun q hq => h.touch.of_held (held_of_referent hq)

theorem Sound.lend (h : s.Sound) {kind : BorrowKind} : (s.lend kind y x p).Sound := by
  refine h.touch.write.define rfl rfl fun q hq => ?_
  -- the loan is found before the write, which keeps all loans
  obtain ⟨b, z, hb, hz⟩ := h.touch.of_held (held_of_referent hq)
  have hgrow : Grows (fun _ => True) (s.touch x p) ((s.touch x p).write y p) := grows_write
  exact ⟨b, z, hgrow.getElem? hb, hz⟩

/-- The reborrow of a move has the moved borrow for its parent. -/
theorem Sound.move (h : s.Sound) {target : Option Place} : (s.move target x p).Sound := by
  simp only [Survey.move]
  split
  next t q b hheld =>
    simp only [Option.bind_eq_bind, Option.bind_eq_some_iff, Option.pure_def, Option.some.injEq,
      Prod.mk.injEq] at hheld
    obtain ⟨q', hget, b', hb, rfl, rfl⟩ := hheld
    refine h.touch.write?.define rfl rfl ?_
    rintro q' ⟨⟩
    obtain ⟨a, z, ha, hz⟩ := h.touch.of_held (held_of_get? hget)
    have hgrow : Grows (fun _ => True) (s.touch x p) ((s.touch x p).write? (some t) p) :=
      grows_write?
    exact ⟨a, z, hgrow.getElem? ha, hz⟩
  next => exact h.touch.write?

theorem Sound.exit (h : s.Sound) : s.exit.Sound := by
  unfold Survey.exit
  split
  · exact h
  · exact h.keepKeys

theorem Sound.scopes (h : s.Sound) {scopes : Scopes} : Sound { s with scopes } :=
  h.of_fewer rfl (List.Subset.refl _) fun _ he => he

/-- **An operation keeps the loans fitting together.** -/
theorem Sound.observe (h : s.Sound) (op : Operation) : (s.observe op).Sound := by
  simp only [Survey.observe]
  split
  · split
    · exact h
    · exact h.forget.scopes
  · exact h.touchAll.write?
  · split
    · exact h
    · exact h.move
  · split
    · exact h.lend
    · exact h
  · exact h.touchAll
  · exact h.touchAll
  · exact h.touchAll
  · refine Sound.write? ?_
    exact List.foldlRecOn op.args (Survey.pass op.point) h fun t ht a _ => ht.pass
  · exact h.scopes
  · exact h.exit
  · exact h

/-- A parameter holds the borrow that it comes with. -/
theorem Sound.receive (h : s.Sound) {param : Param} : (receive p s param).Sound := by
  simp only [Survey.receive]
  split
  · exact h.scopes
  · exact h.scopes.define rfl rfl fun q hq => by cases hq

/-- **The loans of a function fit together** at every point of its body. -/
theorem sound_after (f : Function) (ops : List Operation) : (after f ops).Sound := by
  refine List.foldlRecOn ops observe ?_ fun s hs op _ => hs.observe op
  exact List.foldlRecOn f.params (Survey.receive f.entry) sound_empty fun s hs param _ => hs.receive

/-! ### What is used is held -/

/-- Touching the places `xs` **uses** the loan `id`: a borrower of it overlaps one of them. -/
def Uses (s : Survey) (xs : List Place) (id : Nat) : Prop :=
  ∃ x ∈ xs, ∃ e ∈ s.holders.toList, e.2 = id ∧ e.1.overlaps x = true

/-- What is used is held. -/
theorem Uses.held {xs : List Place} {id : Nat} (h : s.Uses xs id) : s.Held id := by
  obtain ⟨-, -, e, he, rfl, -⟩ := h
  exact ⟨e, he, rfl⟩

/-- While an operation at `p` that touches the places `xs` is surveyed from `s` on, **only loans
that `s` holds are used**: by a touch, or because a loan is taken through them. Nothing more is
held. -/
structure Logs (s : Survey) (xs : List Place) (p : Point) (t : Survey) : Prop where
  uses : ∀ u ∈ t.uses, u ∈ s.uses ∨ (u.2 = p ∧ (s.Uses xs u.1 ∨
    (s.Held u.1 ∧ ∃ b ∈ t.borrows, b.parent = some u.1 ∧ b.origin = p)))
  holders : ∀ e ∈ t.holders.toList, e ∈ s.holders.toList

section

variable {t v : Survey} {u : Nat × Point} {xs : List Place}

theorem Logs.refl (s : Survey) (xs : List Place) (p : Point) : Logs s xs p s :=
  ⟨fun _ hu => Or.inl hu, fun _ he => he⟩

/-- Within an operation nothing new is held before its end. -/
theorem Logs.held (h : Logs s xs p t) {id : Nat} (hid : t.Held id) : s.Held id := by
  obtain ⟨e, he, rfl⟩ := hid
  exact ⟨e, h.holders e he, rfl⟩

/-- What is logged already is logged as before when loans are added. -/
theorem Logs.of_mem (h : Logs s xs p t) (hborrows : t.borrows ⊆ v.borrows) (hu : u ∈ t.uses) :
    u ∈ s.uses ∨ (u.2 = p ∧ (s.Uses xs u.1 ∨
      (s.Held u.1 ∧ ∃ b ∈ v.borrows, b.parent = some u.1 ∧ b.origin = p))) :=
  (h.uses u hu).imp_right (And.imp_right (Or.imp_right (And.imp_right
    fun ⟨b, hb, hparent⟩ => ⟨b, hborrows hb, hparent⟩)))

/-- Touching one of the places uses what was held before the operation. -/
theorem Logs.touch (h : Logs s xs p t) (hx : x ∈ xs) : Logs s xs p (t.touch x p) := by
  refine ⟨fun u hu => ?_, h.holders⟩
  rcases List.mem_append.mp hu with hu | hu
  · exact h.uses u hu
  · obtain ⟨e, he, rfl⟩ := List.mem_map.mp hu
    obtain ⟨hheld, hover⟩ := List.mem_filter.mp he
    exact Or.inr ⟨rfl, Or.inl ⟨x, hx, e, h.holders e hheld, rfl, hover⟩⟩

theorem Logs.touchAll (h : Logs s xs p t) {ys : List Place} (hys : ys ⊆ xs) :
    Logs s xs p (t.touchAll ys p) := by
  induction ys generalizing t with
  | nil => exact h
  | cons y ys ih =>
    exact ih (h.touch (hys List.mem_cons_self)) fun z hz => hys (List.mem_cons_of_mem y hz)

/-- A write behind a reference touches the reference. -/
theorem Logs.write (h : Logs s xs p t) (hxs : behind (some x) ⊆ xs) :
    Logs s xs p (t.write x p) := by
  unfold Survey.write
  split
  next ref rest hcut =>
    refine h.touch (hxs (mem_behind.mpr ⟨x, rfl, Place.throughRef_of_cut? hcut, ?_⟩))
    exact Place.cut?_fst hcut
  next => exact ⟨h.uses, fun e he => h.holders e (Place.Map.mem_keepKeys.mp he).1⟩

theorem Logs.write? (h : Logs s xs p t) {target : Option Place} (hxs : behind target ⊆ xs) :
    Logs s xs p (t.write? target p) := by
  cases target with
  | none => exact h
  | some x => exact h.write hxs

/-- Taking a loan uses the one it is taken through. -/
theorem Logs.take (h : Logs s xs p t) {b : Borrow} (hp : b.origin = p)
    (hparent : ∀ q, b.parent = some q → s.Held q) : Logs s xs p (t.take b) := by
  refine ⟨fun u hu => ?_, h.holders⟩
  rcases List.mem_append.mp hu with hu | hu
  · exact h.of_mem (List.subset_append_left _ _) hu
  · obtain ⟨q, hq, rfl⟩ := Option.map_eq_some_iff.mp (Option.mem_toList.mp hu)
    have hb : b ∈ (t.take b).borrows := List.mem_append_right _ List.mem_cons_self
    exact Or.inr ⟨hp, Or.inr ⟨hparent q hq, b, hb, hq, hp⟩⟩

theorem Logs.pass (h : Logs s xs p t) {a : Arg} (ha : a.place ∈ xs) : Logs s xs p (pass p t a) := by
  have htouch := h.touch ha
  simp only [Survey.pass]
  split
  · exact htouch
  · exact htouch.take rfl fun q hq => htouch.held (held_of_referent hq)

/-- **What an operation uses is held before it**: it is touched, or a loan is taken through it. -/
theorem cases_of_mem_uses {op : Operation} (hu : u ∈ (s.observe op).uses) :
    u ∈ s.uses ∨ (u.2 = op.point ∧ (s.Uses op.touches u.1 ∨
      (s.Held u.1 ∧ ∃ b ∈ (s.observe op).borrows, b.parent = some u.1 ∧ b.origin = op.point))) := by
  have hstart := Logs.refl s op.touches op.point
  cases hkind : op.kind with
  | assign =>
    have htouches : op.touches = op.sources ++ behind op.target := by
      simp only [Operation.touches, hkind]
    rw [htouches] at hstart ⊢
    simp only [observe, hkind] at hu ⊢
    exact ((hstart.touchAll (List.subset_append_left _ _)).write?
      (List.subset_append_right _ _)).uses u hu
  | move =>
    cases hsource : op.source with
    | none =>
      simp only [observe, hkind, hsource] at hu
      exact Or.inl hu
    | some x =>
      have htouches : op.touches = x :: behind op.target := by
        simp only [Operation.touches, hkind, hsource]
      rw [htouches] at hstart ⊢
      simp only [observe, hkind, hsource, move] at hu ⊢
      have hwrite := (hstart.touch List.mem_cons_self).write? (List.subset_cons_self _ _)
      split at hu
      next t q b hheld =>
        simp only [Option.bind_eq_bind, Option.bind_eq_some_iff, Option.pure_def,
          Option.some.injEq, Prod.mk.injEq] at hheld
        obtain ⟨q', hget, -, -, rfl, -⟩ := hheld
        -- what the source holds is looked up before the write, which may forget it
        refine (hwrite.take rfl ?_).uses u hu
        rintro _ ⟨⟩
        exact held_of_get? hget
      next => exact hwrite.uses u hu
  | borrow kind =>
    cases htarget : op.target with
    | none =>
      simp only [observe, hkind, htarget] at hu
      exact Or.inl hu
    | some y =>
      cases hsource : op.source with
      | none =>
        simp only [observe, hkind, htarget, hsource] at hu
        exact Or.inl hu
      | some x =>
        have htouches : op.touches = x :: behind (some y) := by
          simp only [Operation.touches, hkind, htarget, hsource]
        rw [htouches] at hstart ⊢
        simp only [observe, hkind, htarget, hsource] at hu ⊢
        have htouch := hstart.touch List.mem_cons_self
        exact ((htouch.write (List.subset_cons_self _ _)).take rfl fun q hq =>
          htouch.held (held_of_referent hq)).uses u hu
  | deref | use | ret =>
    have htouches : op.touches = op.sources := by simp only [Operation.touches, hkind]
    rw [htouches] at hstart ⊢
    simp only [observe, hkind] at hu ⊢
    exact (hstart.touchAll (List.Subset.refl _)).uses u hu
  | call =>
    have htouches : op.touches = op.args.map Arg.place ++ behind op.target := by
      simp only [Operation.touches, hkind]
    rw [htouches] at hstart ⊢
    simp only [observe, hkind] at hu ⊢
    refine (Logs.write? ?_ (List.subset_append_right _ _)).uses u hu
    refine List.foldlRecOn op.args (Survey.pass op.point) hstart fun t ht a ha => ht.pass ?_
    exact List.mem_append_left _ (List.mem_map_of_mem ha)
  | declare =>
    simp only [observe, hkind] at hu
    split at hu <;> exact Or.inl hu
  | exit =>
    simp only [observe, hkind, exit] at hu
    split at hu <;> exact Or.inl hu
  | enter | unknown _ =>
    simp only [observe, hkind] at hu
    exact Or.inl hu

/-- A use is an old one, or one by the operation of a borrow that was held before it. -/
theorem held_of_mem_uses {op : Operation} (hu : u ∈ (s.observe op).uses) :
    u ∈ s.uses ∨ (u.2 = op.point ∧ s.Held u.1) :=
  (cases_of_mem_uses hu).imp_right (And.imp_right (Or.elim · Uses.held And.left))

/-- Parameters use nothing. -/
theorem uses_receive (s : Survey) (entry : Point) (params : List Param) :
    (params.foldl (receive entry) s).uses = s.uses := by
  induction params generalizing s with
  | nil => rfl
  | cons param params ih =>
    rw [List.foldl_cons, ih]
    cases hkind : param.ty.ref with
    | none => simp [receive, hkind]
    | some kind => simp [receive, hkind, define, take]

/-- **What is used later is held now or taken later.** -/
theorem mem_uses_after {f : Function} {pre ops : List Operation}
    (hu : u ∈ (after f (pre ++ ops)).uses) :
    u ∈ (after f pre).uses ∨ ((∃ op ∈ ops, u.2 = op.point) ∧
      ((after f pre).Held u.1 ∨ (after f pre).borrows.length ≤ u.1)) := by
  induction ops generalizing pre with
  | nil =>
    rw [List.append_nil] at hu
    exact Or.inl hu
  | cons op ops ih =>
    rw [List.append_cons] at hu
    have hgrow := grows_observe (after f pre) op
    rw [← after_concat] at hgrow
    rcases ih hu with hu | ⟨⟨o, ho, hpoint⟩, hheld⟩
    · rw [after_concat] at hu
      refine (held_of_mem_uses hu).imp_right fun ⟨hpoint, hheld⟩ => ?_
      exact ⟨⟨op, List.mem_cons_self, hpoint⟩, Or.inl hheld⟩
    · refine Or.inr ⟨⟨o, List.mem_cons_of_mem op ho, hpoint⟩, ?_⟩
      rcases Nat.lt_or_ge u.1 (after f pre).borrows.length with hlt | hge
      · -- an old loan that is held afterwards was held before
        rcases hheld with ⟨e, he, hid⟩ | hlen
        · exact Or.inl ⟨e, hgrow.holders e he (hid ▸ hlt), hid⟩
        · exact absurd (Nat.le_trans hgrow.length_le hlen) (Nat.not_le.mpr hlt)
      · exact Or.inr hge

end

end Survey

end BorrowCheck
