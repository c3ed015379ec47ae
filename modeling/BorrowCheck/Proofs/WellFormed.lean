import BorrowCheck.Proofs.Abreast
import BorrowCheck.Proofs.Lexical
import BorrowCheck.Proofs.Rejected
import BorrowCheck.Proofs.Usable

/-!
# Well-formed operations

The producer of a program has a contract: points increase, parameters have different names, every
operation comes with the parts that its kind needs, names only variables in scope, does not follow a
return, and goes through references only where there are some. All of this can be read off the
operations before it, without a look at values or at what is lent
(`BorrowCheck.Operation.WellFormed`).

The walk checks the contract on its way, in between the rules of ownership and borrowing, and a
finding that a program is malformed says that the contract is broken. This file proves that it says
exactly this: an accepted function has well-formed operations only, and where a function is found to
be malformed, the operation at that point is the first one that is not well formed
(`BorrowCheck.Function.malformed_at_first_illFormed`).

Two facts carry the proof. A check that is not about the contract never blames the producer
(`BorrowCheck.Unflawed`, one lemma a function of the walk); and whether a place holds a reference,
which the walk reads off the outstanding loans, is at the places that an operation goes through the
same question as whether the survey knows a loan there
(`BorrowCheck.Function.Ordered.holds_iff_contains`).
-/

namespace BorrowCheck

/-! ### The contract -/

namespace OpKind

/-- Whether the kind is one that the checker knows. -/
def isKnown : OpKind → Bool
  | unknown _ => false
  | _ => true

/-- Whether operations of the kind need a target. -/
def needsTarget : OpKind → Bool
  | declare | assign | move | borrow _ => true
  | _ => false

/-- Whether operations of the kind need a source. -/
def needsSource : OpKind → Bool
  | move | borrow _ | deref | use => true
  | _ => false

end OpKind

namespace Operation

/-- The places whose variables have to be in scope: all that an operation of its kind works on. -/
def mentions (op : Operation) : List Place :=
  match op.kind with
  | .assign => op.target.toList ++ op.sources
  | .move | .borrow _ => op.target.toList ++ op.source.toList
  | .deref | .use | .ret => op.source.toList
  | .call => op.target.toList ++ op.args.map Arg.place
  | _ => []

/-- The places that have to hold a reference: the one that is dereferenced, and the one that the
target lies behind. -/
def follows (op : Operation) : List Place :=
  match op.kind with
  | .assign | .move | .borrow _ | .call => behind op.target
  | .deref => (op.source.map Place.holder).toList
  | _ => []

end Operation

/-- Whether `x` has a reference type, as far as the declarations tell. -/
def Blocks.isReference (s : Blocks) (policy : Policy) (x : Place) : Bool :=
  (s.ty? policy x).any Ty.isRef

/-- After the operations `pre`, `y` **refers** to something: it is the borrower of a loan that the
survey knows, or it is declared with a reference type. -/
def Function.Refers (f : Function) (policy : Policy) (pre : List Operation) (y : Place) : Prop :=
  (Survey.after f pre).holders.contains y = true ∨ (f.blocksAfter pre).isReference policy y = true

instance (f : Function) (policy : Policy) (pre : List Operation) (y : Place) :
    Decidable (f.Refers policy pre y) :=
  inferInstanceAs (Decidable (_ ∨ _))

/-- An operation of `f` is **well formed** after the operations `pre`. -/
structure Operation.WellFormed (f : Function) (policy : Policy) (pre : List Operation)
    (op : Operation) : Prop where
  unreturned : ∀ o ∈ pre, o.kind ≠ .ret
  known : op.kind.isKnown = true
  target : op.kind.needsTarget = true → op.target.isSome = true
  source : op.kind.needsSource = true → op.source.isSome = true
  fresh : op.kind = .declare → ∀ x ∈ op.target, x.isRoot = true ∧
    (f.blocksAfter pre).declares x = false
  inScope : ∀ x ∈ op.mentions, (f.blocksAfter pre).declares x = true
  matched : op.kind = .exit → (f.blocksAfter pre).outer ≠ []
  refers : ∀ y ∈ op.follows, f.Refers policy pre y

instance (f : Function) (policy : Policy) (pre : List Operation) (op : Operation) :
    Decidable (op.WellFormed f policy pre) :=
  decidable_of_iff
    ((∀ o ∈ pre, o.kind ≠ .ret) ∧ op.kind.isKnown = true ∧
      (op.kind.needsTarget = true → op.target.isSome = true) ∧
      (op.kind.needsSource = true → op.source.isSome = true) ∧
      (op.kind = .declare → ∀ x ∈ op.target, x.isRoot = true ∧
        (f.blocksAfter pre).declares x = false) ∧
      (∀ x ∈ op.mentions, (f.blocksAfter pre).declares x = true) ∧
      (op.kind = .exit → (f.blocksAfter pre).outer ≠ []) ∧
      ∀ y ∈ op.follows, f.Refers policy pre y)
    ⟨fun ⟨h₁, h₂, h₃, h₄, h₅, h₆, h₇, h₈⟩ => ⟨h₁, h₂, h₃, h₄, h₅, h₆, h₇, h₈⟩,
      fun ⟨h₁, h₂, h₃, h₄, h₅, h₆, h₇, h₈⟩ => ⟨h₁, h₂, h₃, h₄, h₅, h₆, h₇, h₈⟩⟩

/-- The operations `ops`, with which `f` begins, are well formed. -/
def Function.WellFormedUpTo (f : Function) (policy : Policy) (ops : List Operation) : Prop :=
  ∀ pre op post, ops = pre ++ op :: post → op.WellFormed f policy pre

instance (f : Function) (policy : Policy) (ops : List Operation) :
    Decidable (f.WellFormedUpTo policy ops) :=
  decidable_of_iff (∀ i : Fin ops.length, (ops.get i).WellFormed f policy (ops.take i))
    ⟨fun h pre op post hops => by simpa [hops] using h ⟨pre.length, by simp [hops]⟩,
      fun h i => h _ _ (ops.drop (i + 1)) (by simp)⟩

theorem Blocks.Models.isReference_eq {s : Blocks} {store : Store} (h : s.Models store)
    (policy : Policy) (x : Place) : store.isReference policy x = s.isReference policy x := by
  rw [Store.isReference, Blocks.isReference, h.ty?_eq]
  cases s.ty? policy x <;> rfl

/-! ### The contract and the actions -/

/-- The places that have to hold a reference for an action. -/
def Action.follows : Action → List Place
  | deref s => [s.holder]
  | a => behind a.written?

/-- References are followed by a dereference, and by a write behind one. -/
theorem Action.mem_follows {a : Action} {y : Place} :
    y ∈ a.follows ↔ (∃ x, a = .deref x ∧ y = x.holder) ∨
      ∃ x, a.written? = some x ∧ x.throughRef = true ∧ y = x.holder := by
  cases a <;> simp [follows, mem_behind, written?]

/-- The places that an action works on, its target left out. -/
def Action.operands : Action → List Place
  | assign _ sources => sources
  | move _ s | borrow _ _ s | deref s | use s => [s]
  | call args _ => args.map Arg.place
  | ret s => s.toList
  | _ => []

namespace Operation

variable {op : Operation} {a : Action} {x : Place}

/-- An operation has an action when its kind is known and the parts that it needs are there. -/
theorem exists_action_iff :
    (∃ a, op.action = .ok a) ↔ op.kind.isKnown = true ∧
      (op.kind.needsTarget = true → op.target.isSome = true) ∧
      (op.kind.needsSource = true → op.source.isSome = true) := by
  cases hkind : op.kind <;> cases htarget : op.target <;> cases hsource : op.source <;>
    simp [action, getTarget, getSource, OpKind.isKnown, OpKind.needsTarget, OpKind.needsSource,
      hkind, htarget, hsource, bind, Except.bind, pure, Except.pure]

/-- What an operation mentions is the target and the operands of its action. -/
theorem mentions_eq (hact : op.action = .ok a) :
    op.mentions = a.written?.toList ++ a.operands := by
  have hdoes := action_cases hact
  cases a with
  | declare x ty => simp [mentions, hdoes.1, Action.written?, Action.operands]
  | assign x ys =>
    obtain ⟨hkind, htarget, rfl⟩ := hdoes
    simp [mentions, hkind, htarget, Action.written?, Action.operands]
  | move y x =>
    obtain ⟨hkind, htarget, hsource⟩ := hdoes
    simp [mentions, hkind, htarget, hsource, Action.written?, Action.operands]
  | borrow kind y x =>
    obtain ⟨hkind, htarget, hsource⟩ := hdoes
    simp [mentions, hkind, htarget, hsource, Action.written?, Action.operands]
  | deref x =>
    obtain ⟨hkind, hsource⟩ := hdoes
    simp [mentions, hkind, hsource, Action.written?, Action.operands]
  | use x =>
    obtain ⟨hkind, hsource⟩ := hdoes
    simp [mentions, hkind, hsource, Action.written?, Action.operands]
  | call args result =>
    obtain ⟨hkind, htarget, rfl⟩ := hdoes
    simp [mentions, hkind, htarget, Action.written?, Action.operands]
  | ret x =>
    obtain ⟨hkind, hsource⟩ := hdoes
    simp [mentions, hkind, hsource, Action.written?, Action.operands]
  | enter => simp [mentions, show op.kind = .enter from hdoes, Action.written?, Action.operands]
  | exit => simp [mentions, show op.kind = .exit from hdoes, Action.written?, Action.operands]

theorem action_of_declare (hkind : op.kind = .declare) (hact : op.action = .ok a) :
    ∃ x ty, op.target = some x ∧ a = .declare x ty := by
  simp only [action, hkind, bind_eq_ok_iff, getTarget_eq_ok_iff, pure_eq_ok_iff] at hact
  obtain ⟨x, hx, rfl⟩ := hact
  exact ⟨x, _, hx, rfl⟩

theorem action_of_exit (hkind : op.kind = .exit) (hact : op.action = .ok a) : a = .exit := by
  simp only [action, hkind] at hact
  exact (Except.ok.inj hact).symm

/-- An operation follows the references that its action follows. -/
theorem follows_eq (hact : op.action = .ok a) : op.follows = a.follows := by
  have hdoes := action_cases hact
  cases a with
  | assign x ys => simp [follows, hdoes.1, hdoes.2.1, Action.follows, Action.written?]
  | move y x => simp [follows, hdoes.1, hdoes.2.1, Action.follows, Action.written?]
  | borrow kind y x => simp [follows, hdoes.1, hdoes.2.1, Action.follows, Action.written?]
  | call args result => simp [follows, hdoes.1, hdoes.2.1, Action.follows, Action.written?]
  | deref x => simp [follows, hdoes.1, hdoes.2, Action.follows]
  | declare _ _ | use _ | ret _ =>
    simp [follows, hdoes.1, Action.follows, Action.written?, behind]
  | enter =>
    simp [follows, show op.kind = .enter from hdoes, Action.follows, Action.written?, behind]
  | exit =>
    simp [follows, show op.kind = .exit from hdoes, Action.follows, Action.written?, behind]

end Operation

/-! ### Checks that do not blame the producer -/

/-- A check **does not blame the producer**: when it stops, then not because of a flaw. -/
def Unflawed {α : Type} (x : Except Fault α) : Prop :=
  ∀ flaw, x ≠ .error (.violation (.flaw flaw))

section Unflawed

variable {α β : Type} {x : Except Fault α} {g : α → Except Fault β}

theorem unflawed_ok (a : α) : Unflawed (.ok a) :=
  fun _ => nofun

theorem unflawed_pure (a : α) : Unflawed (pure a) :=
  unflawed_ok a

/-- A refusal is no flaw unless it is of one. -/
theorem unflawed_refuse {v : Option Violation} (h : ∀ flaw, v ≠ some (.flaw flaw)) :
    Unflawed (refuse v) := by
  intro flaw heq
  cases v with
  | none => cases heq
  | some v =>
    cases heq
    exact h flaw rfl

/-- What is found in the way is reported as such. -/
theorem unflawed_refuse_map {o : Option α} {report : α → Violation}
    (h : ∀ a flaw, report a ≠ .flaw flaw) : Unflawed (refuse (o.map report)) :=
  unflawed_refuse fun flaw heq => by
    obtain ⟨a, -, ha⟩ := Option.map_eq_some_iff.mp heq
    exact h a flaw ha

theorem Unflawed.bind (hx : Unflawed x) (hg : ∀ a, x = .ok a → Unflawed (g a)) :
    Unflawed (x >>= g) := by
  cases x with
  | error fault => exact fun flaw heq => hx flaw (by cases heq; rfl)
  | ok a => exact hg a rfl

/-- A check of every element shows no flaw when no single check does. -/
theorem unflawed_forM {check : α → Except Fault Unit} {as : List α}
    (h : ∀ a ∈ as, Unflawed (check a)) : Unflawed (as.forM check) := by
  induction as with
  | nil => exact unflawed_pure ()
  | cons a as ih =>
    rw [List.forall_mem_cons] at h
    exact h.1.bind fun _ _ => ih h.2

/-- A run does not blame the producer when no step does in a state that satisfies an invariant. -/
theorem unflawed_foldlM {run : β → α → Except Fault β} {P : β → Prop} {as : List α} {b : β}
    (hb : P b) (h : ∀ b, P b → ∀ a ∈ as, Unflawed (run b a) ∧ ∀ b', run b a = .ok b' → P b') :
    Unflawed (as.foldlM run b) := by
  induction as generalizing b with
  | nil => exact unflawed_pure b
  | cons a as ih =>
    obtain ⟨hstep, hkeep⟩ := h b hb a List.mem_cons_self
    exact hstep.bind fun b' hb' => ih (hkeep b' hb') fun b hb a ha =>
      h b hb a (List.mem_cons_of_mem _ ha)

end Unflawed

namespace Store

variable {s : Store} {x : Place} {p : Point}

theorem unflawed_ensureInScope (h : s.declares x = true) : Unflawed (s.ensureInScope x) := by
  rw [ensureInScope_eq_ok_iff.mpr h]
  exact unflawed_ok ()

/-- That a value is missing is no flaw. -/
theorem unflawed_ensureValue (s : Store) (x : Place) : Unflawed (s.ensureValue x) := by
  refine unflawed_refuse fun flaw heq => ?_
  unfold lacking? at heq
  split at heq
  next v hfind =>
    obtain ⟨y, -, hwithin⟩ := List.exists_of_findSome?_eq_some hfind
    rcases cases_of_lackingWithin? hwithin with ⟨rfl, -⟩ | ⟨q, rfl, -⟩ <;> cases heq
  next =>
    obtain ⟨e, -, he⟩ := Option.map_eq_some_iff.mp heq
    cases he

theorem unflawed_read (liens : List Lien) : Unflawed (s.read x liens) :=
  (unflawed_ensureValue s x).bind fun _ _ => unflawed_refuse_map (by simp)

theorem unflawed_vacate (liens : List Lien) : Unflawed (s.vacate x p liens) :=
  (unflawed_ensureValue s x).bind fun _ _ =>
    (unflawed_refuse_map (by simp)).bind fun _ _ => unflawed_pure _

/-- That a value cannot be replaced is no flaw. -/
theorem unflawed_overwrite (liens : List Lien) : Unflawed (s.overwrite x liens) := by
  refine (unflawed_refuse fun flaw heq => ?_).bind fun _ _ =>
    (unflawed_refuse_map (by simp)).bind fun _ _ => unflawed_pure _
  obtain ⟨y, -, hwithin⟩ := List.exists_of_findSome?_eq_some heq
  unfold unwritableWithin? at hwithin
  split at hwithin <;> cases hwithin

end Store

namespace Walk

variable {c : Context} {w u : State} {x y : Place} {p : Point} {op : Operation} {a : Action}

theorem unflawed_read (h : w.store.declares x = true) : Unflawed (read c w x p) :=
  (Store.unflawed_ensureInScope h).bind fun _ _ => (Store.unflawed_read _).bind fun _ _ =>
    unflawed_refuse_map (by simp)

theorem unflawed_vacate (h : w.store.declares x = true) : Unflawed (vacate w x p) := by
  have hmove : Unflawed (do
      let store ← w.store.vacate x p (liensOn w x p false)
      return { w with store }) :=
    (Store.unflawed_vacate _).bind fun _ _ => unflawed_pure _
  refine (Store.unflawed_ensureInScope h).bind fun _ _ => ?_
  dsimp only
  split
  · exact (unflawed_refuse (by simp)).bind fun _ _ => hmove
  · exact hmove

theorem unflawed_handOver (h : w.store.declares x = true) : Unflawed (handOver c w x p) := by
  unfold handOver
  split
  · exact (unflawed_read h).bind fun _ _ => unflawed_pure _
  · exact unflawed_vacate h

/-- That a loan is in conflict with another one is no flaw. -/
theorem unflawed_lend {s : Books} {b : LoanBook} {borrower : Option Place} {kind : BorrowKind} :
    Unflawed (s.lend b borrower x kind p) := by
  unfold Books.lend
  split
  · exact fun _ => nofun
  · split
    · exact fun _ => nofun
    · exact unflawed_ok _

theorem unflawed_borrow {borrower : Option Place} {kind : BorrowKind}
    (h : w.store.declares x = true) : Unflawed (borrow c w borrower kind x p) := by
  refine (Store.unflawed_ensureInScope h).bind fun _ _ => ?_
  dsimp only
  split
  · refine (unflawed_read (x := x.holder) h).bind fun _ _ => ?_
    exact unflawed_lend.bind fun _ _ => unflawed_pure _
  · refine (Store.unflawed_ensureValue _ _).bind fun _ _ => ?_
    exact unflawed_lend.bind fun _ _ => unflawed_pure _

theorem unflawed_passArg {d : Arg} (h : w.store.declares d.place = true) :
    Unflawed (passArg c p w d) := by
  unfold passArg
  split
  · exact unflawed_handOver h
  · exact unflawed_borrow h

/-- The arguments of a call stay in scope while others are passed. -/
theorem unflawed_passAll {args : List Arg}
    (h : ∀ d ∈ args, w.store.declares d.place = true) :
    Unflawed (args.foldlM (passArg c p) w) :=
  unflawed_foldlM (P := SameFrame w) (.refl w) fun _ hu d hd =>
    ⟨unflawed_passArg ((hu.declares_eq _).trans (h d hd)),
      fun _ hv => hu.trans (sameFrame_passArg hv)⟩

theorem unflawed_lendAll {books : Books} {loans : List Loan} :
    Unflawed (lendAll c y p books loans) :=
  unflawed_foldlM (P := fun _ => True) trivial fun _ _ _ _ =>
    ⟨unflawed_lend.bind fun _ _ => unflawed_pure _, fun _ _ => trivial⟩

theorem unflawed_move (hy : w.store.declares y = true) (hx : w.store.declares x = true) :
    Unflawed (move c w y x p) := by
  refine (Store.unflawed_ensureInScope hy).bind fun _ _ => ?_
  dsimp only
  split
  · refine (unflawed_read hx).bind fun _ _ => (unflawed_lendAll (y := y)).bind fun books hlend => ?_
    split
    · exact unflawed_vacate (((sameFrame_lendAll hlend).declares_eq x).trans hx)
    · exact unflawed_pure _
  · split
    · exact (unflawed_read hx).bind fun _ _ => unflawed_pure _
    · exact unflawed_vacate hx

/-- What is followed has to be a reference. -/
theorem unflawed_follow (h : w.store.declares x = true)
    (href : isReference c w x.holder = true) : Unflawed (follow c w x p) := by
  refine (unflawed_read (x := x.holder) h).bind fun _ _ => ?_
  rw [if_pos href]
  exact unflawed_pure _

theorem unflawed_ret (h : w.store.declares x = true) : Unflawed (ret c w x p) :=
  (Store.unflawed_ensureInScope h).bind fun _ _ =>
    (unflawed_refuse_map (by simp)).bind fun _ _ => unflawed_handOver h

/-- A block that is left has to have been entered. -/
theorem unflawed_exit (h : w.store.scopes.exit? ≠ none) : Unflawed (exit w p) := by
  obtain ⟨⟨dying, scopes⟩, hscopes⟩ := Option.ne_none_iff_exists'.mp h
  have hexit : w.store.exit = .ok (dying, { w.store with scopes }) :=
    Store.exit_eq_ok_iff.mpr ⟨scopes, hscopes, rfl⟩
  rw [exit, hexit]
  exact (unflawed_refuse_map (by simp)).bind fun _ _ => unflawed_pure _

/-- What is written behind has to hold a loan, which may just have ended, or to be a reference by
its type. -/
theorem unflawed_writeBehind {closed : List Loan} (h : w.store.declares x = true)
    (href : w.ledger.heldAt x closed ≠ [] ∨ (w.store.ty? c.policy x).any Ty.isRef = true) :
    Unflawed (writeBehind c w closed x p) := by
  refine (unflawed_read h).bind fun _ _ => ?_
  dsimp only
  split
  next hnil =>
    -- nothing is held, so the type is the one of a reference
    rcases href with hheld | hty
    · exact absurd (List.isEmpty_iff.mp hnil) hheld
    · obtain ⟨t, ht, hisRef⟩ := (Option.any_eq_true _ _).mp hty
      obtain ⟨kind, hkind⟩ := Option.isSome_iff_exists.mp hisRef
      rw [ht, Option.bind_some, hkind]
      cases kind with
      | shared => exact unflawed_refuse fun _ => nofun
      | exclusive => exact unflawed_pure _
  next =>
    refine unflawed_refuse fun flaw heq => ?_
    obtain ⟨l, -, hl⟩ := List.exists_of_findSome?_eq_some heq
    unfold unwritable? at hl
    split at hl
    · cases hl
    · obtain ⟨_, -, hl⟩ := Option.map_eq_some_iff.mp hl
      cases hl

theorem unflawed_write {closed : List Loan} (h : w.store.declares x = true)
    (href : x.throughRef = true → w.ledger.heldAt x.holder closed ≠ [] ∨
      (w.store.ty? c.policy x.holder).any Ty.isRef = true) : Unflawed (write c w closed x p) := by
  refine (Store.unflawed_ensureInScope h).bind fun _ _ => ?_
  dsimp only
  split
  next hthrough =>
    exact (unflawed_writeBehind (x := x.holder) h (href hthrough)).bind fun _ _ => unflawed_pure _
  next =>
    split
    next hwaits =>
      -- a variable that waits for its first value is filled
      rw [Bool.and_eq_true, decide_eq_true_eq] at hwaits
      have hown := (Store.status_eq_uninit_iff hwaits.1).mp hwaits.2
      rw [Store.Awaits, ← Place.eq_of_isRoot hwaits.1, Store.ownership?,
        Option.map_eq_some_iff] at hown
      rw [Store.fill_eq_ok_iff.mpr ⟨hown, rfl⟩]
      exact unflawed_ok _
    next => exact (Store.unflawed_overwrite _).bind fun _ _ => unflawed_pure _

/-- An action shows no flaw when it declares a new variable, names variables in scope, leaves a
block that was entered and follows references only. -/
theorem unflawed_perform
    (hfresh : ∀ x ty, a = .declare x ty → x.isRoot = true ∧ w.store.declares x = false)
    (hscope : ∀ x ∈ a.written?.toList ++ a.operands, w.store.declares x = true)
    (hmatched : a = .exit → w.store.scopes.exit? ≠ none)
    (href : ∀ x, a = .deref x → isReference c w x.holder = true) :
    Unflawed (perform c w p a) := by
  cases a with
  | declare x ty =>
    obtain ⟨hroot, hnew⟩ := hfresh x ty rfl
    rw [perform, Store.declare_eq_ok_iff.mpr ⟨hroot, hnew, rfl⟩]
    exact unflawed_ok _
  | assign x ys =>
    exact (unflawed_forM fun y hy => unflawed_read (hscope y (List.mem_cons_of_mem x hy))).bind
      fun _ _ => unflawed_pure _
  | move y x =>
    exact (unflawed_move (hscope y List.mem_cons_self) (hscope x (.tail y (.head _)))).bind
      fun _ _ => unflawed_pure _
  | borrow kind y x =>
    exact (Store.unflawed_ensureInScope (hscope y List.mem_cons_self)).bind fun _ _ =>
      (unflawed_borrow (hscope x (.tail y (.head _)))).bind fun _ _ => unflawed_pure _
  | deref x =>
    exact (unflawed_follow (hscope x List.mem_cons_self) (href x rfl)).bind fun _ _ =>
      unflawed_pure _
  | use x =>
    exact (unflawed_read (hscope x List.mem_cons_self)).bind fun _ _ => unflawed_pure _
  | call args result =>
    have hargs : Unflawed (do
        let s ← args.foldlM (passArg c p) w
        return (s, result)) :=
      (unflawed_passAll fun d hd => hscope d.place
        (List.mem_append_right _ (List.mem_map_of_mem hd))).bind fun _ _ => unflawed_pure _
    cases result with
    | none => exact hargs
    | some y =>
      exact (Store.unflawed_ensureInScope (hscope y List.mem_cons_self)).bind fun _ _ => hargs
  | ret x =>
    cases x with
    | none => exact unflawed_ok _
    | some x =>
      exact (unflawed_ret (hscope x List.mem_cons_self)).bind fun _ _ => unflawed_pure _
  | enter => exact unflawed_ok _
  | exit => exact (unflawed_exit (hmatched rfl)).bind fun _ _ => unflawed_pure _

theorem unflawed_step (hret : w.returned = none) (hact : op.action = .ok a)
   
    (hperf : Unflawed (perform c (settled w op.point false) op.point a))
    (hwrite : ∀ u x, perform c (settled w op.point false) op.point a = .ok (u, a.written?) →
      a.written? = some x → Unflawed (write c (settled u op.point true)
        (u.toBooks.settle op.point true).2 x op.point)) : Unflawed (step c w op) := by
  rw [step_eq hret hact]
  refine hperf.bind fun r hr => ?_
  obtain ⟨u, target⟩ := r
  obtain rfl := (perform_cases hr).2
  cases hx : a.written? with
  | none => exact unflawed_ok _
  | some x => exact hwrite u x hr hx

/-- Up to its write an operation that writes keeps the frame. -/
theorem sameFrame_of_written (hperf : perform c (settled w p false) p a = .ok (u, a.written?))
    (hx : a.written? = some x) : SameFrame w (settled u p true) := by
  have hframe := (perform_cases hperf).1.sameFrame (Action.keepsFrame_of_written hx)
  exact ((sameFrame_settled w p false).trans hframe).trans (sameFrame_settled u p true)

/-- **What an action works on is in scope** when it is performed. -/
theorem Performed.declares_of_operands (h : Performed c p w u a) (hx : x ∈ a.operands) :
    w.store.declares x = true := by
  have husable : w.store.Usable x.base := by
    cases a with
    | borrow kind y z =>
      obtain rfl := List.mem_singleton.mp hx
      exact usable_of_borrow h.2
    | call args result =>
      obtain ⟨d, hd, rfl⟩ := List.mem_map.mp hx
      exact usable_of_passAll h hd
    | declare _ _ | assign _ _ | move _ _ | deref _ | use _ | ret _ | enter | exit =>
      exact h.usable_of_reads hx
  exact husable.1

end Walk

/-! ### Places that hold a reference -/

/-- What a well-formed operation needs of the declarations the store has. -/
theorem Operation.WellFormed.ready {f : Function} {policy : Policy} {pre : List Operation}
    {op : Operation} {a : Action} {store : Store} (hwf : op.WellFormed f policy pre)
    (hact : op.action = .ok a) (hmodels : (f.blocksAfter pre).Models store) :
    (∀ x ty, a = .declare x ty → x.isRoot = true ∧ store.declares x = false) ∧
      (∀ x ∈ a.written?.toList ++ a.operands, store.declares x = true) ∧
      (a = .exit → store.scopes.exit? ≠ none) := by
  refine ⟨?_, fun x hx => ?_, ?_⟩
  · rintro x ty rfl
    have hdoes := Operation.action_cases hact
    rw [hmodels.declares_eq]
    exact hwf.fresh hdoes.1 x hdoes.2
  · rw [← Operation.mentions_eq hact] at hx
    rw [hmodels.declares_eq, hwf.inScope x hx]
  · rintro rfl
    rw [Ne, hmodels.exit?_eq_none_iff]
    exact hwf.matched (Operation.action_cases hact)

namespace Function

variable {f : Function} {policy : Policy} {pre post : List Operation} {op : Operation} {a : Action}
  {w u : Walk.State} {x y : Place}

/-- What is held according to the ledger is held according to the survey. -/
theorem Ordered.contains_of_isHeldAt (h : f.Ordered) (hops : f.ops = pre ++ post)
    (hreach : f.reach policy pre = .ok w) {l : Loan} (hl : l ∈ w.ledger.outstanding)
    (hheld : w.ledger.isHeldAt y.same l = true) :
    (Survey.after f pre).holders.contains y = true := by
  unfold Ledger.isHeldAt at hheld
  split at hheld
  next => cases hheld
  next z hz =>
    rw [Bool.and_eq_true, Bool.not_eq_true', List.contains_eq_mem, decide_eq_false_iff_not] at hheld
    have hknown := (h.traced_of_reach hops hreach).known l hl z hz hheld.1
    rw [← Place.Map.get?_congr _ hheld.2] at hknown
    by_contra hno
    rw [Place.Map.get?_eq_none_iff.mpr (Bool.eq_false_iff.mpr hno)] at hknown
    cases hknown

/-- **Where an operation goes through a reference, ledger and survey agree** on whether there is a
loan: the operation is a use of it, so it is outstanding. -/
theorem Ordered.holds_iff_contains (h : f.Ordered) (hops : f.ops = pre ++ op :: post)
    (hreach : f.reach policy pre = .ok w) (hx : x ∈ op.touches) (hy : y.isPrefixOf x = true) :
    (Walk.settled w op.point false).ledger.holds y = true ↔
      (Survey.after f pre).holders.contains y = true := by
  have hin := (h.inStep_of_reach hops hreach).settled f.book_sound (h.pointAfter_lt hops)
  constructor
  · intro hholds
    obtain ⟨l, hl, hheld⟩ := Ledger.holds_iff.mp hholds
    exact h.contains_of_isHeldAt hops hreach (List.mem_filter.mp hl).1 hheld
  · intro hcontains
    obtain ⟨e, he, hsame⟩ := Place.Map.contains_iff.mp hcontains
    obtain ⟨l, -, hl, -⟩ := (recorded_after hops).exists_of_held (Survey.sound_after f pre) he
    have hover : e.1.overlaps x = true :=
      Place.overlaps_of_isPrefixOf (by rwa [Place.isPrefixOf_congr_left hsame])
    have hlast := le_last_of_touches hops hx he hover hl
    have hget := (Survey.distinct_after f pre).get?_of_mem he hsame
    exact (hin.found_of_get? f.book_sound (Survey.sound_after f pre) (recorded_after hops) hget hl
      (Int.sub_one_lt_of_le hlast)).1

/-- The same after the action, for the reference that its target lies behind. -/
theorem Ordered.heldAt_ne_nil_iff (h : f.Ordered) (hops : f.ops = pre ++ op :: post)
    (hreach : f.reach policy pre = .ok w) (hact : op.action = .ok a)
   
    (hperf : Walk.perform (f.context policy) (Walk.settled w op.point false) op.point a =
      .ok (u, a.written?)) (hx : a.written? = some x) (href : x.throughRef = true) :
    (Walk.settled u op.point true).ledger.heldAt x.holder (u.toBooks.settle op.point true).2 ≠ [] ↔
      (Survey.after f pre).holders.contains x.holder = true := by
  have hb := f.book_sound
  have hturn := h.turn hops
  have hin := (h.inStep_of_reach hops hreach).settled hb (h.pointAfter_lt hops)
  have hout := hin.perform (c := f.context policy) hturn hact hperf
  rw [Survey.ending?_eq_none _ (kind_ne_exit_of_written hact hx), Option.toList_none,
    List.append_nil] at hout
  constructor
  · intro hne
    obtain ⟨l, hl⟩ := List.exists_mem_of_ne_nil _ hne
    obtain ⟨hmem, hheld⟩ := (hout.mem_heldAt_settled hb).mp hl
    rcases Nat.lt_or_ge l.id (Survey.after f pre).borrows.length with hid | hid
    · -- an older loan was held there before
      obtain ⟨hbook, -, hlast, hlapsed⟩ := (hout.mem_outstanding hb).mp hmem
      have hold := (hin.mem_outstanding hb).mpr ⟨hbook, hid, hlast, hlapsed⟩
      refine h.contains_of_isHeldAt hops hreach (List.mem_filter.mp hold).1 ?_
      unfold Ledger.isHeldAt at hheld ⊢
      split at hheld
      next => cases hheld
      next z hz =>
        rw [Bool.and_eq_true, Bool.not_eq_true', List.contains_eq_mem,
          decide_eq_false_iff_not] at hheld ⊢
        exact ⟨fun hmem => hheld.1 ((Walk.evolves_perform hperf).released_subset hmem), hheld.2⟩
    · -- a new one is held at the target itself, which lies behind the reference
      unfold Ledger.isHeldAt at hheld
      split at hheld
      next => cases hheld
      next z hz =>
        obtain ⟨hz, -⟩ := Walk.InStep.get?_of_new (c := f.context policy) hturn hact hout
          hmem hid hz
        obtain rfl : x = z := Option.some.inj (hx.symm.trans hz)
        rw [Bool.and_eq_true, Place.same_comm] at hheld
        have hne := Place.not_same_of_throughRef href (Place.throughRef_holder x)
        rw [hheld.2] at hne
        cases hne
  · intro hcontains
    obtain ⟨e, he, hsame⟩ := Place.Map.contains_iff.mp hcontains
    obtain ⟨l, -, hl, -⟩ := (recorded_after hops).exists_of_held (Survey.sound_after f pre) he
    have hlast := le_last_of_written hops hact hx href he hsame hl
    have he' : e ∈ ((Survey.after f pre).observe op).holders.toList := by
      rw [Survey.observe_eq_act _ hact]
      exact Survey.mem_holders_of_written hx href he (Place.not_same_of_same_holder hsame href)
    exact List.ne_nil_of_mem
      (hout.mem_heldAt hb (hturn.sound.observe op) hturn.recorded he' hsame hl hlast)

/-! ### Operations that are completed and operations that fail -/

/-- The walk can follow the reference of a dereference when the text says that there is one. -/
theorem Ordered.isReference_iff (h : f.Ordered) (hops : f.ops = pre ++ op :: post)
    (hreach : f.reach policy pre = .ok w) (hx : x ∈ op.touches) :
    Walk.isReference (f.context policy) (Walk.settled w op.point false) x.holder = true ↔
      f.Refers policy pre x.holder := by
  have hmodels := (models_of_reach hops hreach).congr
    (Walk.sameFrame_settled w op.point false).types (Walk.sameFrame_settled w op.point false).scopes
  rw [Walk.isReference, Bool.or_eq_true, Refers,
    h.holds_iff_contains hops hreach hx x.holder_isPrefixOf, hmodels.isReference_eq]
  rfl

/-- A write can follow the reference that its target lies behind when the text says that there is
one. -/
theorem Ordered.behind_iff (h : f.Ordered) (hops : f.ops = pre ++ op :: post)
    (hreach : f.reach policy pre = .ok w) (hact : op.action = .ok a)
   
    (hperf : Walk.perform (f.context policy) (Walk.settled w op.point false) op.point a =
      .ok (u, a.written?)) (hx : a.written? = some x) (href : x.throughRef = true) :
    ((Walk.settled u op.point true).ledger.heldAt x.holder
        (u.toBooks.settle op.point true).2 ≠ [] ∨
      ((Walk.settled u op.point true).store.ty? policy x.holder).any Ty.isRef = true) ↔
      f.Refers policy pre x.holder := by
  have hframe := Walk.sameFrame_of_written hperf hx
  have hmodels := (models_of_reach hops hreach).congr hframe.types hframe.scopes
  rw [h.heldAt_ne_nil_iff hops hreach hact hperf hx href, hmodels.ty?_eq, Refers,
    Blocks.isReference]

/-- **What the walk completes is well formed.** -/
theorem Ordered.wellFormed_of_step (h : f.Ordered) (hops : f.ops = pre ++ op :: post)
    (hreach : f.reach policy pre = .ok w) {v : Walk.State}
    (hstep : Walk.step (f.context policy) w op = .ok v) : op.WellFormed f policy pre := by
  obtain ⟨hret, a, u, hact, hperf, hend⟩ := Walk.step_cases hstep
  obtain ⟨hknown, htarget, hsource⟩ := Operation.exists_action_iff.mp ⟨a, hact⟩
  have hperf' := (Walk.perform_cases hperf).1
  have hmodels := models_of_reach hops hreach
  have hframe := Walk.sameFrame_settled w op.point false
  refine ⟨(returned_eq_none_iff hops hreach).mp hret, hknown, htarget, hsource, ?_, ?_, ?_,
    ?_⟩
  · intro hkind x hx
    obtain ⟨y, ty, hy, rfl⟩ := Operation.action_of_declare hkind hact
    obtain rfl : y = x := Option.some.inj (hy.symm.trans hx)
    obtain ⟨store, hstore, -⟩ := hperf'
    obtain ⟨hroot, hnew, -⟩ := Store.declare_eq_ok_iff.mp hstore
    rw [hframe.declares_eq, hmodels.declares_eq] at hnew
    exact ⟨hroot, hnew⟩
  · intro x hx
    rw [Operation.mentions_eq hact, List.mem_append, Option.mem_toList] at hx
    rw [← hmodels.declares_eq]
    rcases hx with hx | hx
    · rcases hend with ⟨hnone, -⟩ | ⟨y, hy, hwrite⟩
      · rw [hx] at hnone
        cases hnone
      · obtain rfl : x = y := Option.some.inj (hx.symm.trans hy)
        rw [← (Walk.sameFrame_of_written hperf hx).declares_eq]
        exact (Walk.write_cases hwrite).1
    · rw [← hframe.declares_eq]
      exact hperf'.declares_of_operands hx
  · intro hkind
    obtain rfl := Operation.action_of_exit hkind hact
    obtain ⟨dying, scopes, hexit, -⟩ := Walk.exit_cases hperf'
    rw [hframe.scopes] at hexit
    rw [Ne, ← hmodels.exit?_eq_none_iff, hexit]
    exact Option.some_ne_none _
  · intro y hy
    rw [Operation.follows_eq hact, Action.mem_follows] at hy
    rcases hy with ⟨x, rfl, rfl⟩ | ⟨x, hx, href, rfl⟩
    · have hx : x ∈ op.touches := Operation.mem_touches_of_reads hact List.mem_cons_self
      exact (h.isReference_iff hops hreach hx).mp (Walk.follow_eq_ok_iff.mp hperf'.1).2
    · rcases hend with ⟨hnone, -⟩ | ⟨z, hz, hwrite⟩
      · rw [hx] at hnone
        cases hnone
      · obtain rfl : x = z := Option.some.inj (hx.symm.trans hz)
        obtain ⟨-, hbehind, -⟩ := (Walk.write_eq_ok_iff_writeBehind href).mp hwrite
        refine (h.behind_iff hops hreach hact hperf hx href).mp ?_
        by_cases hnil : (Walk.settled u op.point true).ledger.heldAt x.holder
            (u.toBooks.settle op.point true).2 = []
        · obtain ⟨t, ht, hkind⟩ := Option.bind_eq_some_iff.mp
            ((Walk.writeBehind_eq_ok_iff.mp hbehind).2.1 hnil)
          exact .inr ((Option.any_eq_true _ _).mpr ⟨t, ht, by rw [Ty.isRef, hkind]; rfl⟩)
        · exact .inl hnil

/-- **A well-formed operation is never refused because of a flaw.** -/
theorem Ordered.unflawed_of_wellFormed (h : f.Ordered) (hops : f.ops = pre ++ op :: post)
    (hreach : f.reach policy pre = .ok w) (hwf : op.WellFormed f policy pre) :
    Unflawed (Walk.step (f.context policy) w op) := by
  obtain ⟨a, hact⟩ := Operation.exists_action_iff.mpr ⟨hwf.known, hwf.target, hwf.source⟩
  have hmodels := models_of_reach hops hreach
  have hframe := Walk.sameFrame_settled w op.point false
  obtain ⟨hfresh, hscope, hmatched⟩ := hwf.ready hact (hmodels.congr hframe.types hframe.scopes)
  have hrefers : ∀ y ∈ a.follows, f.Refers policy pre y := by
    rw [← Operation.follows_eq hact]
    exact hwf.refers
  refine Walk.unflawed_step ((returned_eq_none_iff hops hreach).mpr hwf.unreturned) hact
    (Walk.unflawed_perform hfresh hscope hmatched ?_)
    fun u x hperf hx => Walk.unflawed_write ?_ fun href => ?_
  · rintro x rfl
    have hx : x ∈ op.touches := Operation.mem_touches_of_reads hact List.mem_cons_self
    exact (h.isReference_iff hops hreach hx).mpr
      (hrefers _ (Action.mem_follows.mpr (.inl ⟨x, rfl, rfl⟩)))
  · rw [(Walk.sameFrame_of_written hperf hx).declares_eq, ← hframe.declares_eq]
    exact hscope x (List.mem_append_left _ (Option.mem_toList.mpr hx))
  · exact (h.behind_iff hops hreach hact hperf hx href).mpr
      (hrefers _ (Action.mem_follows.mpr (.inr ⟨x, hx, href, rfl⟩)))

/-! ### Findings that a program is malformed -/

/-- Every operation that the walk completes is well formed, and so are those before it. -/
theorem Ordered.wellFormedUpTo_of_reach (h : f.Ordered) (hops : f.ops = pre ++ post)
    (hreach : f.reach policy pre = .ok w) : f.WellFormedUpTo policy pre := by
  rintro before o after rfl
  rw [List.append_cons, reach_append_eq_ok_iff] at hreach
  obtain ⟨v, hv, -⟩ := hreach
  obtain ⟨u, hu, hstep⟩ := reach_concat_eq_ok_iff.mp hv
  rw [List.append_assoc, List.cons_append] at hops
  exact h.wellFormed_of_step hops hu hstep

/-- **Malformed means that the contract is broken.** Let points increase and parameters have
different names. An accepted function has well-formed operations only; and when a function is found
to be malformed at a point, the operation there is the first one that is not well formed. If points
do not increase or parameters do not have different names, the function is found to be malformed:
before its first operation, at the first point that does not come after the one before it, or at the
entry. -/
theorem malformed_at_first_illFormed (f : Function) (policy : Policy) :
    (f.Ordered → (f.params.map Param.name).Nodup →
      (f.Accepted policy → f.WellFormedUpTo policy f.ops) ∧
      ∀ finding, f.verdict policy = .ok (.rejected f.name finding) →
        finding.rule = .malformedProgram →
        ∃ pre op post, f.ops = pre ++ op :: post ∧ op.point = finding.point ∧
          f.WellFormedUpTo policy pre ∧ ¬op.WellFormed f policy pre) ∧
    (¬(f.Ordered ∧ (f.params.map Param.name).Nodup) →
      ∃ finding, f.verdict policy = .ok (.rejected f.name finding) ∧
        finding.rule = .malformedProgram ∧ finding.operation = none ∧
        (f.Ordered → finding.point = f.entry) ∧
        (¬f.Ordered → ∃ pre op next post, f.ops = pre ++ op :: next :: post ∧
          next.point ≤ op.point ∧ finding.point = next.point ∧
          (pre ++ [op]).Pairwise fun a b => a.point < b.point)) := by
  refine ⟨fun hord hparams => ⟨fun haccepted => ?_, fun finding hverdict hrule => ?_⟩,
    malformed_of_broken⟩
  · obtain ⟨-, w, hw⟩ := accepted_iff.mp haccepted
    exact hord.wellFormedUpTo_of_reach (List.append_nil _).symm hw
  · obtain ⟨pre, op, v, ⟨post, w, hops, hw, hstep⟩, rfl⟩ := (rejected_iff hord hparams).mp hverdict
    refine ⟨pre, op, post, hops, rfl, hord.wellFormedUpTo_of_reach hops hw, fun hwf => ?_⟩
    cases v with
    | flaw flaw => exact hord.unflawed_of_wellFormed hops hw hwf flaw hstep
    | _ => cases hrule

/-- A function that writes and reads through a variable whose type does not tell that it is a
reference. Once the variable is overwritten there is none, and the last operation is a flaw. -/
def derefsOverwritten : Function where
  name := "f"
  params := [{ name := "s", ty := .named "T" }]
  ops :=
    [.enter 1, .declare 2 { base := "r" } (.named "R"),
      .borrow 3 .exclusive { base := "r" } { base := "s" },
      .assign 4 (Place.deref { base := "r" }) [], .deref 5 { base := "r" }, .exit 6, .enter 7,
      .declare 8 { base := "r" } (.refTo .shared (.named "T")), .assign 9 { base := "r" } [],
      .deref 10 { base := "r" }, .exit 11, .declare 12 { base := "r" } (.named "R"),
      .borrow 13 .shared { base := "r" } { base := "s" }, .assign 14 { base := "r" } [],
      .deref 15 { base := "r" }]

/-- A function with two parameters of one name. -/
def namesTwice : Function where
  name := "g"
  params := [{ name := "s", ty := .named "T" }, { name := "s", ty := .named "T" }]
  ops := [.use 8 { base := "s" }]

theorem malformed_at_first_illFormed_derefsOverwritten :
    (derefsOverwritten.Ordered ∧ (derefsOverwritten.params.map Param.name).Nodup ∧
      ∃ finding, derefsOverwritten.verdict {} = .ok (.rejected "f" finding) ∧
        finding.rule = .malformedProgram ∧ finding.point = 15 ∧
        ∃ pre op post, derefsOverwritten.ops = pre ++ op :: post ∧ op.point = finding.point ∧
          derefsOverwritten.WellFormedUpTo {} pre ∧ ¬op.WellFormed derefsOverwritten {} pre) ∧
    ((derefsOverwritten.firstOps 14).Accepted {} ∧
      (derefsOverwritten.firstOps 14).WellFormedUpTo {} (derefsOverwritten.firstOps 14).ops) ∧
    (namesTwice.Ordered ∧ ¬(namesTwice.params.map Param.name).Nodup ∧
      ∃ finding, namesTwice.verdict {} = .ok (.rejected "g" finding) ∧
        finding.rule = .malformedProgram ∧ finding.point = 7) := by
  have hord : derefsOverwritten.Ordered := ordered_of_disorder? (by decide)
  have hparams : (derefsOverwritten.params.map Param.name).Nodup := by decide
  have hstop : ((derefsOverwritten.walk {}).stop.map fun stop => (stop.fault, stop.point)) =
      some (.violation (.flaw (.derefOfValue { base := "r" })), 15) := by decide +kernel
  obtain ⟨finding, hverdict, hrule, hpoint, -⟩ := exists_finding hstop
  have haccepted : (derefsOverwritten.firstOps 14).Accepted {} := by decide +kernel
  have hord' : namesTwice.Ordered := ordered_of_disorder? (by decide)
  have hnames : ¬(namesTwice.params.map Param.name).Nodup := by decide
  obtain ⟨finding', hverdict', hrule', -, hentry, -⟩ :=
    (malformed_at_first_illFormed namesTwice {}).2 fun h => hnames h.2
  exact ⟨⟨hord, hparams, finding, hverdict, hrule, hpoint,
      ((malformed_at_first_illFormed derefsOverwritten {}).1 hord hparams).2 finding hverdict
        hrule⟩,
    ⟨haccepted, ((malformed_at_first_illFormed (derefsOverwritten.firstOps 14) {}).1
      haccepted.ordered hparams).1 haccepted⟩,
    ⟨hord', hnames, finding', hverdict', hrule', hentry hord'⟩⟩

end Function

end BorrowCheck
