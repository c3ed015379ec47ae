import BorrowCheck.Proofs.Lacking
import BorrowCheck.Proofs.Usable

/-!
# A store and its history

A store forgets: cells come and go, one write resets many of them, and two queries read them, each
in its own way. This file shows that nothing is lost. A store is asked to do one thing after the
other (`BorrowCheck.Store.Request`), and what fails leaves it as it was. What it then says about a
place is a matter of the requests that succeeded alone (`BorrowCheck.Store.log`):

* a place **was moved out** when a move took it and since then neither a write gave it a new value
  nor its storage ended (`BorrowCheck.Store.WasMoved`);
* a variable **waits** when it was declared without a value and since then was not given one
  (`BorrowCheck.Store.Waits`).

`BorrowCheck.Store.Tells` says that a store and a log agree. Every request keeps it
(`BorrowCheck.Store.Tells.serve`), so it holds of every store and its log
(`BorrowCheck.Store.tells_log`), and both queries are read off it.
-/

namespace BorrowCheck

/-- `P` was the case once, and **since** then `Q` was not: the last entries of `h` are one that
satisfies `P` and some that do not satisfy `Q`. -/
def Since {α : Type} (P Q : α → Prop) (h : List α) : Prop :=
  ∃ before e later, h = before ++ e :: later ∧ P e ∧ ∀ d ∈ later, ¬Q d

theorem not_since_nil {α : Type} {P Q : α → Prop} : ¬Since P Q [] := by
  rintro ⟨before, e, later, h, -⟩
  simp at h

/-- One entry more: it is the one, or it comes after it. -/
theorem since_concat {α : Type} {P Q : α → Prop} {h : List α} {d : α} :
    Since P Q (h ++ [d]) ↔ P d ∨ (Since P Q h ∧ ¬Q d) := by
  constructor
  · rintro ⟨before, e, later, hsplit, he, hlater⟩
    rcases List.eq_nil_or_concat later with rfl | ⟨later, d', rfl⟩
    · obtain ⟨-, hd⟩ := List.append_inj' hsplit rfl
      obtain rfl : d = e := by simpa using hd
      exact .inl he
    · rw [List.concat_eq_append, ← List.cons_append, ← List.append_assoc] at hsplit
      obtain ⟨hh, hd⟩ := List.append_inj' hsplit rfl
      obtain rfl : d = d' := by simpa using hd
      rw [List.concat_eq_append] at hlater
      refine .inr ⟨⟨before, e, later, hh, he, fun d' hd' => ?_⟩, ?_⟩
      · exact hlater d' (List.mem_append_left _ hd')
      · exact hlater d (List.mem_append_right _ List.mem_cons_self)
  · rintro (hd | ⟨⟨before, e, later, rfl, he, hlater⟩, hd⟩)
    · exact ⟨h, d, [], rfl, hd, fun _ hmem => by cases hmem⟩
    · refine ⟨before, e, later ++ [d], by simp, he, fun d' hd' => ?_⟩
      rcases List.mem_append.mp hd' with hmem | hmem
      · exact hlater d' hmem
      · rwa [List.mem_singleton.mp hmem]

/-- Only a whole variable is the same as one. -/
theorem Place.eq_of_same_root {x : Place} {n : String} (h : x.same { base := n } = true) :
    x = { base := n } := by
  obtain ⟨base, path⟩ := x
  rw [same_iff, unlabel, unlabel, mk.injEq, List.map_nil, List.map_eq_nil_iff] at h
  rw [mk.injEq]
  exact h

namespace Store

/-! ### Requests -/

/-- What a store can be asked to do. -/
inductive Request where
  | declare (x : Place) (ty : Ty) (init : Bool)
  | enter
  /-- Leaves the innermost block and ends the storage of its variables. -/
  | exit
  | read (x : Place) (liens : List Lien)
  | vacate (x : Place) (p : Point) (liens : List Lien)
  | fill (x : Place)
  | overwrite (x : Place) (liens : List Lien)
  | encumber (x : Place) (kind : BorrowKind) (id : Int)
  | discharge (x : Place) (id : Int)

/-- Does what is asked for, or fails. -/
def serve (s : Store) : Request → Except Fault Store
  | .declare x ty init => s.declare x ty init
  | .enter => .ok s.enter
  | .exit => do
    let (dying, t) ← s.exit
    return t.endStorage dying
  | .read x liens => do
    s.read x liens
    return s
  | .vacate x p liens => s.vacate x p liens
  | .fill x => s.fill x
  | .overwrite x liens => s.overwrite x liens
  | .encumber x kind id => .ok (s.encumber x kind id)
  | .discharge x id => .ok (s.discharge x id)

/-- The store after a request, which is the old one when it fails. -/
def next (s : Store) (r : Request) : Store :=
  match s.serve r with
  | .ok t => t
  | .error _ => s

/-- The store after the requests `rs`, from an empty one on. -/
def afterAll (rs : List Request) : Store :=
  rs.foldl next {}

/-- The requests of `rs` that succeed from `s` on, each with the store that it was made to. -/
def logFrom (s : Store) : List Request → List (Store × Request)
  | [] => []
  | r :: rs =>
    match s.serve r with
    | .ok t => (s, r) :: logFrom t rs
    | .error _ => logFrom s rs

/-- The **log** of requests: those that succeed, each with the store that it was made to. -/
def log (rs : List Request) : List (Store × Request) :=
  logFrom {} rs

theorem afterAll_concat (rs : List Request) (r : Request) :
    afterAll (rs ++ [r]) = (afterAll rs).next r := by
  rw [afterAll, List.foldl_append]
  rfl

theorem logFrom_concat (s : Store) (rs : List Request) (r : Request) :
    logFrom s (rs ++ [r]) = logFrom s rs ++ logFrom (rs.foldl next s) [r] := by
  induction rs generalizing s with
  | nil => rfl
  | cons r' rs ih =>
    rw [List.cons_append, logFrom, logFrom, List.foldl_cons, next]
    cases s.serve r' with
    | ok t => simp only [ih, List.cons_append]
    | error e => simp only [ih]

/-- A request that succeeds is added to the log. -/
theorem log_concat_of_ok {rs : List Request} {r : Request} {t : Store}
    (h : (afterAll rs).serve r = .ok t) :
    afterAll (rs ++ [r]) = t ∧ log (rs ++ [r]) = log rs ++ [(afterAll rs, r)] := by
  rw [afterAll_concat, next, h, log, log, logFrom_concat, ← afterAll, logFrom, h]
  exact ⟨rfl, rfl⟩

/-- A request that fails leaves no trace. -/
theorem log_concat_of_error {rs : List Request} {r : Request} {e : Fault}
    (h : (afterAll rs).serve r = .error e) :
    afterAll (rs ++ [r]) = afterAll rs ∧ log (rs ++ [r]) = log rs := by
  rw [afterAll_concat, next, h, log, log, logFrom_concat, ← afterAll, logFrom, h]
  exact ⟨rfl, List.append_nil _⟩

/-! ### What a log says -/

/-- Whether leaving the innermost block ends the storage of the variable `n`. -/
def ends (s : Store) (n : String) : Bool :=
  match s.exit with
  | .ok (dying, _) => dying.contains n
  | .error _ => false

/-- Whether a request takes the value of `m` away. -/
def Request.moves (m : Place) : Request → Prop
  | vacate x _ _ => x = m
  | _ => False

/-- Whether a request gives `m` a new value, with or within what contains it, or ends its
storage. -/
def renews (m : Place) (e : Store × Request) : Prop :=
  match e.2 with
  | .overwrite x _ => x.isPrefixOf m = true
  | .exit => e.1.ends m.base = true
  | _ => False

/-- Whether a request declares the variable `n` without a value. -/
def Request.announces (n : String) : Request → Prop
  | declare x _ init => x = { base := n } ∧ init = false
  | _ => False

/-- Whether a request gives the variable `n` its first value, or ends its storage. -/
def starts (n : String) (e : Store × Request) : Prop :=
  match e.2 with
  | .fill x => x.same { base := n } = true
  | .overwrite x _ => x.same { base := n } = true
  | .exit => e.1.ends n = true
  | _ => False

/-- `m` **was moved out**: a move took its value, and since then it was not given a new one and its
storage did not end. -/
def WasMoved (h : List (Store × Request)) (m : Place) : Prop :=
  Since (fun e => e.2.moves m) (renews m) h

/-- The variable `n` **waits**: it was declared without a value, and since then it was not given one
and its storage did not end. -/
def Waits (h : List (Store × Request)) (n : String) : Prop :=
  Since (fun e => e.2.announces n) (starts n) h

theorem wasMoved_concat {h : List (Store × Request)} {e : Store × Request} {m : Place} :
    WasMoved (h ++ [e]) m ↔ e.2.moves m ∨ (WasMoved h m ∧ ¬renews m e) :=
  since_concat

theorem waits_concat {h : List (Store × Request)} {e : Store × Request} {n : String} :
    Waits (h ++ [e]) n ↔ e.2.announces n ∨ (Waits h n ∧ ¬starts n e) :=
  since_concat

/-! ### Stores that agree with a log -/

variable {s t : Store} {x y : Place} {p : Point} {r : Request} {h : List (Store × Request)}

/-- What **lacks** a value in a store that is asked for moves of variables in scope only: it lies in
such a variable, only whole variables wait, and in one that waits nothing was moved out. -/
structure Orderly (s : Store) : Prop where
  distinct : s.cells.Distinct
  declared : ∀ {y o}, s.lack? y = some o → s.declares y = true
  whole : ∀ {y}, s.lack? y = some .uninit → y = { base := y.base }
  apart : ∀ {n y q}, s.lack? { base := n } = some .uninit → s.lack? y = some (.moved q) → y.base ≠ n

theorem orderly_empty : Orderly {} where
  distinct := List.Pairwise.nil
  declared := fun hy => by cases hy
  whole := fun hy => by cases hy
  apart := fun hy => by cases hy

/-- What lacks a value did so before. -/
theorem Orderly.of_le (hs : s.Orderly) (hd : t.cells.Distinct)
    (hle : ∀ y o, t.lack? y = some o → s.lack? y = some o ∧ t.declares y = true) : t.Orderly where
  distinct := hd
  declared := fun hy => (hle _ _ hy).2
  whole := fun hy => hs.whole (hle _ _ hy).1
  apart := fun hn hy => hs.apart (hle _ _ hn).1 (hle _ _ hy).1

/-- A store **tells** what a log says: what was moved out, and what waits. -/
structure Tells (s : Store) (h : List (Store × Request)) : Prop extends Orderly s where
  moved : ∀ y, (∃ q, s.lack? y = some (.moved q)) ↔ ∃ m : Place, m.same y = true ∧ WasMoved h m
  waits : ∀ n, s.lack? { base := n } = some .uninit ↔ Waits h n

theorem tells_empty : Tells {} [] where
  toOrderly := orderly_empty
  moved := fun y => iff_of_false (fun ⟨q, hq⟩ => by cases hq) fun ⟨m, _, hm⟩ => not_since_nil hm
  waits := fun n => iff_of_false (fun hn => by cases hn) not_since_nil

theorem renews_congr {e : Store × Request} (hxy : x.same y = true) : renews x e ↔ renews y e := by
  unfold renews
  split
  · rw [Place.isPrefixOf_congr hxy]
  · rw [Place.base_eq_of_same hxy]
  · rfl

/-- One request more: what it moves out and what it announces is added, and what it renews or starts
is left out. -/
theorem Tells.concat (hs : s.Tells h) (ht : t.Orderly)
    (hmoved : ∀ y, (∃ q, t.lack? y = some (.moved q)) ↔
      (∃ m : Place, m.same y = true ∧ r.moves m) ∨
        ((∃ q, s.lack? y = some (.moved q)) ∧ ¬renews y (s, r)))
    (hwaits : ∀ n, t.lack? { base := n } = some .uninit ↔
      r.announces n ∨ (s.lack? { base := n } = some .uninit ∧ ¬starts n (s, r))) :
    t.Tells (h ++ [(s, r)]) where
  toOrderly := ht
  moved := fun y => by
    rw [hmoved, hs.moved]
    constructor
    · rintro (⟨m, hm, hr⟩ | ⟨⟨m, hm, hr⟩, hno⟩)
      · exact ⟨m, hm, wasMoved_concat.mpr (.inl hr)⟩
      · exact ⟨m, hm, wasMoved_concat.mpr (.inr ⟨hr, fun hren => hno ((renews_congr hm).mp hren)⟩)⟩
    · rintro ⟨m, hm, hr⟩
      rcases wasMoved_concat.mp hr with hr | ⟨hr, hno⟩
      · exact .inl ⟨m, hm, hr⟩
      · exact .inr ⟨⟨m, hm, hr⟩, fun hren => hno ((renews_congr hm).mpr hren)⟩
  waits := fun n => by
    rw [hwaits, hs.waits, waits_concat]

/-- A request that gives values, or ends storage: what lacks a value afterwards did so before and is
not among what it drops. -/
theorem Tells.drop (hs : s.Tells h) (drop : Place → Bool)
    (hlack : ∀ y, t.lack? y = if drop y then none else s.lack? y) (hd : t.cells.Distinct)
    (hdecl : ∀ y, drop y = false → s.declares y = true → t.declares y = true)
    (hmoves : ∀ m, ¬r.moves m) (hannounces : ∀ n, ¬r.announces n)
    (hrenews : ∀ y q, s.lack? y = some (.moved q) → (renews y (s, r) ↔ drop y = true))
    (hstarts : ∀ n, s.lack? { base := n } = some .uninit →
      (starts n (s, r) ↔ drop { base := n } = true)) : t.Tells (h ++ [(s, r)]) := by
  have hsome : ∀ y o, t.lack? y = some o ↔ s.lack? y = some o ∧ drop y = false := by
    intro y o
    rw [hlack]
    cases drop y <;> simp
  refine hs.concat (hs.of_le hd fun y o hy => ?_) (fun y => ?_) fun n => ?_
  · obtain ⟨hy, hkept⟩ := (hsome y o).mp hy
    exact ⟨hy, hdecl y hkept (hs.declared hy)⟩
  · simp only [hmoves, and_false, exists_false, false_or, hsome]
    constructor
    · rintro ⟨q, hq, hkept⟩
      refine ⟨⟨q, hq⟩, fun hren => ?_⟩
      rw [hrenews y q hq, hkept] at hren
      cases hren
    · rintro ⟨⟨q, hq⟩, hno⟩
      rw [hrenews y q hq, Bool.not_eq_true] at hno
      exact ⟨q, hq, hno⟩
  · rw [or_iff_right (hannounces n), hsome]
    refine and_congr_right fun hn => ?_
    rw [hstarts n hn, Bool.not_eq_true]

/-- A request that is not about values. -/
theorem Tells.keep (hs : s.Tells h) (hlack : ∀ y, t.lack? y = s.lack? y) (hd : t.cells.Distinct)
    (htypes : t.types = s.types) (hmoves : ∀ m, ¬r.moves m) (hannounces : ∀ n, ¬r.announces n)
    (hrenews : ∀ y, ¬renews y (s, r)) (hstarts : ∀ n, ¬starts n (s, r)) :
    t.Tells (h ++ [(s, r)]) :=
  hs.drop (fun _ => false) hlack hd (fun _ _ hy => (declares_of_types htypes).trans hy) hmoves
    hannounces (fun y _ _ => iff_of_false (hrenews y) Bool.false_ne_true)
    fun n _ => iff_of_false (hstarts n) Bool.false_ne_true

/-! ### Requests, one by one -/

/-- A variable that is new: nothing in it lacks a value yet. -/
theorem Orderly.lack?_of_new (hs : s.Orderly) (hnew : s.declares x = false)
    (hy : y.base = x.base) : s.lack? y = none := by
  cases hlack : s.lack? y with
  | none => rfl
  | some o =>
    have hdecl := hs.declared hlack
    rw [declares, hy, ← declares, hnew] at hdecl
    cases hdecl

theorem Orderly.declare {ty : Ty} {init : Bool} (hs : s.Orderly)
    (ht : s.declare x ty init = .ok t) : t.Orderly := by
  obtain ⟨hroot, hnew, htypes⟩ : x.isRoot = true ∧ s.declares x = false ∧
      t.types = s.types ++ [(x.base, ty)] := by
    obtain ⟨hroot, hnew, rfl⟩ := declare_eq_ok_iff.mp ht
    exact ⟨hroot, hnew, rfl⟩
  have hx := Place.eq_of_isRoot hroot
  have hcases : ∀ {y o}, t.lack? y = some o →
      (y = { base := x.base } ∧ o = .uninit) ∨ (y.base ≠ x.base ∧ s.lack? y = some o) := by
    intro y o hy
    rw [lack?_declare ht] at hy
    by_cases hsame : x.same y = true
    · rw [if_pos hsame] at hy
      rw [Place.same_comm, hx] at hsame
      refine .inl ⟨Place.eq_of_same_root hsame, ?_⟩
      cases init with
      | true => cases hy
      | false => exact (Option.some.inj hy).symm
    · rw [if_neg hsame] at hy
      refine .inr ⟨fun hbase => ?_, hy⟩
      rw [hs.lack?_of_new hnew hbase] at hy
      cases hy
  refine ⟨distinct_declare hs.distinct ht, fun {y o} hy => ?_, fun {y} hy => ?_,
    fun {n y q} hn hy => ?_⟩
  · rw [declares_iff_mem, htypes, List.map_append, List.mem_append]
    rcases hcases hy with ⟨rfl, -⟩ | ⟨-, hy⟩
    · exact .inr List.mem_cons_self
    · exact .inl (declares_iff_mem.mp (hs.declared hy))
  · rcases hcases hy with ⟨rfl, -⟩ | ⟨-, hy⟩
    · rfl
    · exact hs.whole hy
  · rcases hcases hy with ⟨-, hq⟩ | ⟨hbase, hy⟩
    · cases hq
    · rcases hcases hn with ⟨hroot, -⟩ | ⟨-, hn⟩
      · rw [Place.mk.injEq] at hroot
        rwa [hroot.1]
      · exact hs.apart hn hy

theorem Tells.declare {ty : Ty} {init : Bool} (hs : s.Tells h)
    (ht : s.declare x ty init = .ok t) : t.Tells (h ++ [(s, .declare x ty init)]) := by
  obtain ⟨hroot, hnew, -⟩ := declare_eq_ok_iff.mp ht
  refine hs.concat (hs.toOrderly.declare ht) (fun y => ?_) fun n => ?_
  · rw [lack?_declare ht]
    by_cases hsame : x.same y = true
    · -- neither before nor afterwards
      rw [if_pos hsame, hs.lack?_of_new hnew (Place.base_eq_of_same hsame).symm]
      cases init <;> simp [Request.moves]
    · rw [if_neg hsame]
      simp [Request.moves, renews]
  · rw [lack?_declare ht]
    by_cases hsame : x.same { base := n } = true
    · rw [if_pos hsame, hs.lack?_of_new hnew (Place.base_eq_of_same hsame).symm]
      have hx : x = { base := n } := Place.eq_of_same_root hsame
      cases init <;> simp [Request.announces, hx]
    · rw [if_neg hsame]
      have hx : x ≠ { base := n } := fun hx => hsame (hx ▸ Place.same_refl _)
      simp [Request.announces, starts, hx]

theorem Tells.exit {dying : List String} (hs : s.Tells h) (ht : s.exit = .ok (dying, t)) :
    (t.endStorage dying).Tells (h ++ [(s, .exit)]) := by
  have hends : ∀ n, s.ends n = dying.contains n := fun n => by rw [ends, ht]
  obtain ⟨scopes, hscopes, rfl⟩ := exit_eq_ok_iff.mp ht
  refine hs.drop (fun y => dying.contains y.base) (fun y => ?_) (hs.distinct.keepKeys _)
    (fun y hy hdecl => ?_) (fun _ => id) (fun _ => id) (fun y _ _ => ?_) fun n _ => ?_
  · rw [lack?_endStorage]
    simp only [List.contains_eq_mem, decide_eq_true_eq]
    rfl
  · rw [declares_endStorage]
    exact ⟨hdecl, by simpa using hy⟩
  · rw [renews, hends]
  · rw [starts, hends]

theorem Orderly.vacate {liens : List Lien} (hs : s.Orderly) (hdecl : s.declares x = true)
    (ht : s.vacate x p liens = .ok t) : t.Orderly := by
  obtain ⟨hval, -, rfl⟩ := vacate_eq_ok_iff.mp ht
  have hcases : ∀ {y o}, (s.drain x p).lack? y = some o →
      (x.same y = true ∧ o = .moved p) ∨ s.lack? y = some o := by
    intro y o hy
    rw [lack?_drain] at hy
    split at hy
    next hsame => exact .inl ⟨hsame, (Option.some.inj hy).symm⟩
    next => exact .inr hy
  refine ⟨distinct_drain hs.distinct p, fun {y o} hy => ?_, fun {y} hy => ?_,
    fun {n y q} hn hy => ?_⟩
  · rcases hcases hy with ⟨hsame, -⟩ | hy
    · rwa [declares, Place.base_eq_of_same hsame] at hdecl
    · exact hs.declared hy
  · rcases hcases hy with ⟨-, hq⟩ | hy
    · cases hq
    · exact hs.whole hy
  · rw [← awaits_iff_lack?, awaits_drain hval] at hn
    rcases hcases hy with ⟨hsame, -⟩ | hy
    · -- what can be moved out lies in a variable that does not wait
      rintro rfl
      rw [← Place.base_eq_of_same hsame] at hn
      exact not_awaits_of_lacking? hval hn
    · exact hs.apart (awaits_iff_lack?.mp hn) hy

theorem Tells.vacate {liens : List Lien} (hs : s.Tells h) (hdecl : s.declares x = true)
    (ht : s.vacate x p liens = .ok t) : t.Tells (h ++ [(s, .vacate x p liens)]) := by
  have hord := hs.toOrderly.vacate hdecl ht
  obtain ⟨hval, -, rfl⟩ := vacate_eq_ok_iff.mp ht
  refine hs.concat hord (fun y => ?_) fun n => ?_
  · rw [lack?_drain]
    by_cases hsame : x.same y = true
    · rw [if_pos hsame]
      refine iff_of_true ⟨p, rfl⟩ (.inl ⟨x, hsame, rfl⟩)
    · rw [if_neg hsame, or_iff_right]
      · exact (and_iff_left id).symm
      · rintro ⟨m, hm, rfl⟩
        exact hsame hm
  · rw [← awaits_iff_lack?, awaits_drain hval, awaits_iff_lack?]
    simp [Request.announces, starts]

theorem Tells.fill (hs : s.Tells h) (ht : s.fill x = .ok t) : t.Tells (h ++ [(s, .fill x)]) := by
  have hwait : s.lack? x = some .uninit := by
    obtain ⟨⟨cell, hget, hcell⟩, -⟩ := fill_eq_ok_iff.mp ht
    rw [lack?_eq_uninit_iff, ownership?, hget, Option.map_some, hcell]
  obtain ⟨-, rfl⟩ := fill_eq_ok_iff.mp ht
  refine hs.drop x.same (fun y => lack?_own_owned) (distinct_own hs.distinct _)
    (fun y _ hdecl => hdecl)
    (fun _ => id) (fun _ => id) (fun y q hy => ?_) fun n _ => Iff.rfl
  -- `x` waits, so it is none of the places that were moved out
  refine iff_of_false id fun hsame => ?_
  rw [lack?_congr hsame, hy] at hwait
  cases hwait

theorem Tells.overwrite {liens : List Lien} (hs : s.Tells h)
    (ht : s.overwrite x liens = .ok t) : t.Tells (h ++ [(s, .overwrite x liens)]) := by
  obtain ⟨-, -, rfl⟩ := overwrite_eq_ok_iff.mp ht
  refine hs.drop x.isPrefixOf (fun y => lack?_restore) (distinct_restore hs.distinct)
    (fun y _ hdecl => hdecl) (fun _ => id) (fun _ => id) (fun y _ _ => Iff.rfl) fun n _ => ?_
  rw [starts, Place.isPrefixOf_root]

/-- Whether a request is in order: moves are asked of variables in scope only. -/
def admits (s : Store) : Request → Bool
  | .vacate x _ _ => s.declares x
  | _ => true

/-- **Every request keeps a store and its log in agreement.** -/
theorem Tells.serve (hs : s.Tells h) (hr : s.admits r = true) (ht : s.serve r = .ok t) :
    t.Tells (h ++ [(s, r)]) := by
  cases r with
  | declare x ty init => exact hs.declare ht
  | enter =>
    obtain rfl := Except.ok.inj ht
    exact hs.keep (fun y => rfl) hs.distinct rfl (fun _ => id) (fun _ => id) (fun _ => id)
      fun _ => id
  | exit =>
    obtain ⟨⟨dying, u⟩, hexit, hu⟩ := bind_eq_ok_iff.mp ht
    obtain rfl := pure_eq_ok_iff.mp hu
    exact hs.exit hexit
  | read x liens =>
    obtain ⟨-, hs'⟩ := check_bind_eq_ok_iff.mp ht
    obtain rfl := pure_eq_ok_iff.mp hs'
    exact hs.keep (fun y => rfl) hs.distinct rfl (fun _ => id) (fun _ => id) (fun _ => id)
      fun _ => id
  | vacate x p liens => exact hs.vacate hr ht
  | fill x => exact hs.fill ht
  | overwrite x liens => exact hs.overwrite ht
  | encumber x kind id =>
    obtain rfl := Except.ok.inj ht
    exact hs.keep (fun y => lack?_encumber kind id) (distinct_encumber hs.distinct kind id)
      (encumber_types kind id) (fun _ h => h) (fun _ h => h) (fun _ h => h) fun _ h => h
  | discharge x id =>
    obtain rfl := Except.ok.inj ht
    exact hs.keep (fun y => lack?_discharge id) (distinct_discharge hs.distinct id)
      (discharge_types id) (fun _ h => h) (fun _ h => h) (fun _ h => h) fun _ h => h

/-- **A store and its log agree**, however the requests went. -/
theorem tells_log {rs : List Request} (h : ∀ e ∈ log rs, e.1.admits e.2 = true) :
    (afterAll rs).Tells (log rs) := by
  induction rs using List.reverseRecOn with
  | nil => exact tells_empty
  | append_singleton rs r ih =>
    cases hr : (afterAll rs).serve r with
    | error e =>
      obtain ⟨hafter, hlog⟩ := log_concat_of_error hr
      rw [hlog] at h ⊢
      rw [hafter]
      exact ih h
    | ok t =>
      obtain ⟨hafter, hlog⟩ := log_concat_of_ok hr
      rw [hlog] at h ⊢
      rw [hafter]
      have hbefore := ih fun e he => h e (List.mem_append_left _ he)
      exact hbefore.serve (h _ (List.mem_append_right _ List.mem_cons_self)) hr

/-! ### Queries -/

/-- **What a search for a missing value finds** is what the log says; it is never torn between the
two reasons. -/
theorem Tells.lacking?_cases (hs : s.Tells h) (x : Place) :
    (s.lacking? x = none ∧ ¬Waits h x.base ∧ ¬∃ m, x.reaches m = true ∧ WasMoved h m) ∨
      (s.lacking? x = some (.uninit x) ∧ Waits h x.base ∧
        ¬∃ m, x.reaches m = true ∧ WasMoved h m) ∨
      (∃ q y, s.lacking? x = some (.movedOut x q y) ∧ ¬Waits h x.base ∧
        ∃ m, x.reaches m = true ∧ WasMoved h m) := by
  have hmoved : (∃ m, x.reaches m = true ∧ WasMoved h m) ↔
      ∃ y q, x.reaches y = true ∧ s.lack? y = some (.moved q) := by
    constructor
    · rintro ⟨m, hreach, hm⟩
      obtain ⟨q, hq⟩ := (hs.moved m).mpr ⟨m, Place.same_refl m, hm⟩
      exact ⟨m, q, hreach, hq⟩
    · rintro ⟨y, q, hreach, hy⟩
      obtain ⟨m, hsame, hm⟩ := (hs.moved y).mp ⟨q, hy⟩
      exact ⟨m, by rwa [Place.reaches_congr hsame], hm⟩
  rw [hmoved, ← hs.waits]
  cases hlack : s.lacking? x with
  | none =>
    obtain ⟨hwait, hgone⟩ := (lacking?_eq_none_iff hs.distinct).mp hlack
    refine .inl ⟨rfl, hwait _ (Place.isPrefixOf_iff.mpr ⟨rfl, List.nil_prefix⟩), ?_⟩
    rintro ⟨y, q, hreach, hy⟩
    exact hgone y q hreach hy
  | some v =>
    refine .inr ?_
    rcases cases_of_lacking? hs.distinct hlack with ⟨rfl, y, hy, hwait⟩ | ⟨y, q, rfl, hy, hgone⟩
    · have hbase : y = { base := x.base } := by
        rw [← (Place.isPrefixOf_iff.mp hy).1]
        exact hs.whole hwait
      rw [hbase] at hwait
      refine .inl ⟨rfl, hwait, ?_⟩
      rintro ⟨z, q, hreach, hz⟩
      exact hs.apart hwait hz (Place.base_eq_of_reaches hreach)
    · exact .inr ⟨q, y, rfl, fun hwait => hs.apart hwait hgone (Place.base_eq_of_reaches hy),
        y, q, hy, hgone⟩

/-- **A store tells its history.** Whatever it was asked for, and whatever of that failed: a place
cannot be used because of a move exactly when something it reaches was moved out and not given a new
value since, and it cannot be used because of a missing first value exactly when its variable was
declared without one and not given one since. The status shows the same. -/
theorem queries_tell_history {rs : List Request} (h : ∀ e ∈ log rs, e.1.admits e.2 = true)
    (x : Place) :
    ((∃ v, (afterAll rs).ensureValue x = .error (.violation v) ∧ v.rule = .useOfMoved) ↔
        ∃ m, x.reaches m = true ∧ WasMoved (log rs) m) ∧
      ((∃ v, (afterAll rs).ensureValue x = .error (.violation v) ∧ v.rule = .useOfUninit) ↔
        Waits (log rs) x.base) ∧
      ((afterAll rs).ensureValue x = .ok () ↔
        (¬∃ m, x.reaches m = true ∧ WasMoved (log rs) m) ∧ ¬Waits (log rs) x.base) ∧
      ((afterAll rs).status x = .moved ↔ ∃ m, x.reaches m = true ∧ WasMoved (log rs) m) ∧
      ((afterAll rs).status x = .uninit ↔ Waits (log rs) x.base) := by
  have hs := tells_log h
  rw [status_eq, ensureValue]
  rcases hs.lacking?_cases x with ⟨hlack, hwait, hgone⟩ | ⟨hlack, hwait, hgone⟩ |
    ⟨q, y, hlack, hwait, hgone⟩
  · have hcell := status_cell_of_lack? ((lack?_of_lacking? hlack).1 x (Place.isPrefixOf_refl x))
    simp [hlack, hwait, hgone, refuse, hcell]
  · simp [hlack, hwait, hgone, refuse, shown, Violation.rule]
  · simp [hlack, hwait, hgone, refuse, shown, Violation.rule]

/-- The first element of a container is moved out, the attempt to leave the function fails, and the
second element is written: it cannot be used, since the first one is still missing. -/
theorem queries_tell_history_element :
    (∀ e ∈ log [.declare { base := "v" } Ty.unknown false, .fill { base := "v" },
        .vacate { base := "v", path := [.index 0] } 3 [], .exit,
        .overwrite { base := "v", path := [.index 1] } []], e.1.admits e.2 = true) ∧
      ∃ m, Place.reaches { base := "v", path := [.index 1] } m = true ∧
        WasMoved (log [.declare { base := "v" } Ty.unknown false, .fill { base := "v" },
          .vacate { base := "v", path := [.index 0] } 3 [], .exit,
          .overwrite { base := "v", path := [.index 1] } []]) m :=
  ⟨by decide, (queries_tell_history (by decide) { base := "v", path := [.index 1] }).2.2.2.1.mp
    (by decide)⟩

end Store

end BorrowCheck
