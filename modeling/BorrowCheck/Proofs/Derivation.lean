import BorrowCheck.Listing

/-!
# Derivations of the grammar

The grammar of listings as relations between rows of tokens and what they stand for, one relation
for each symbol and one constructor for each production: `BorrowCheck.Listing.DerivesPlace ts x`
says that the tokens `ts` are derived from the symbol *place*, by a derivation that builds the place
`x`. Nothing is said here about how a row of tokens is read, where one phrase ends and the next
begins, or how many derivations there are.

A star binds weaker than the projections after it, since what follows the star is a whole place.
Parentheses leave no trace. There is one layer of references to a type: each layer that is written
replaces the one further in.
-/

namespace BorrowCheck

/-- The operation without the place where it stands in a text. -/
def Operation.withoutSpan (op : Operation) : Operation :=
  { op with span := {} }

/-- The function without the spans of its operations. -/
def Function.withoutSpans (f : Function) : Function :=
  { f with ops := f.ops.map Operation.withoutSpan }

/-- The program without the spans of its operations. -/
def Program.withoutSpans (P : Program) : Program :=
  { functions := P.functions.map Function.withoutSpans }

namespace Listing

/-! ### Repetition -/

section

variable {α : Type}

/-- Any number of phrases, one after the other. -/
inductive Many (R : List Token → α → Prop) : List Token → List α → Prop
  | nil : Many R [] []
  | cons {ts us : List Token} {a : α} {as : List α} (ha : R ts a) (has : Many R us as) :
      Many R (ts ++ us) (a :: as)

/-- A phrase after the token `t`. -/
def After (t : Token) (R : List Token → α → Prop) (ts : List Token) (a : α) : Prop :=
  ∃ us, ts = t :: us ∧ R us a

/-- One phrase or more, with commas between them. -/
def Commas (R : List Token → α → Prop) (ts : List Token) (as : List α) : Prop :=
  ∃ us vs a bs, ts = us ++ vs ∧ as = a :: bs ∧ R us a ∧ Many (After .comma R) vs bs

/-- Any number of phrases, with commas between them. -/
def Listed (R : List Token → α → Prop) (ts : List Token) (as : List α) : Prop :=
  (ts = [] ∧ as = []) ∨ Commas R ts as

end

/-! ### Places and types -/

/-- `. NAME`, `[ INT ]` and `[ NAME ]` -/
inductive DerivesProj : List Token → Proj → Prop
  | field (name : String) : DerivesProj [.dot, .name name] (.field name)
  | index (value : Nat) :
      DerivesProj [.leftBracket, .number value, .rightBracket] (.index value)
  | any (label : String) :
      DerivesProj [.leftBracket, .name label, .rightBracket] (.any (some label))

/-- `* place`, `NAME proj*` and `( place ) proj*` -/
inductive DerivesPlace : List Token → Place → Prop
  | deref {ts : List Token} {x : Place} (hx : DerivesPlace ts x) :
      DerivesPlace (.star :: ts) x.deref
  | name {us : List Token} {ps : List Proj} (base : String) (hps : Many DerivesProj us ps) :
      DerivesPlace (.name base :: us) (Place.append { base } ps)
  | group {ts us : List Token} {x : Place} {ps : List Proj} (hx : DerivesPlace ts x)
      (hps : Many DerivesProj us ps) :
      DerivesPlace (.leftParen :: (ts ++ .rightParen :: us)) (x.append ps)

/-- What follows an ampersand: `mut` for an exclusive reference. -/
def kindTokens : BorrowKind → List Token
  | .shared => []
  | .exclusive => [.keyword .mutable]

/-- `& [mut] type` and `NAME [< type (, type)* >]` -/
inductive DerivesType : List Token → Ty → Prop
  | ref {ts : List Token} {t : Ty} (kind : BorrowKind) (ht : DerivesType ts t) :
      DerivesType (.ampersand :: (kindTokens kind ++ ts)) (t.refTo kind)
  | named (name : String) : DerivesType [.name name] (Ty.named name)
  | applied {ts : List Token} {t : Ty} {more : List (List Token × Ty)} (name : String)
      (ht : DerivesType ts t) (hmore : ∀ d ∈ more, DerivesType d.1 d.2) :
      DerivesType
        (.name name :: .leftAngle :: (ts ++ (more.flatMap fun d => .comma :: d.1) ++ [.rightAngle]))
        (Ty.named name (t :: more.map Prod.snd))

/-! ### Statements -/

/-- `& [mut] place` and `place` -/
inductive DerivesArg : List Token → Arg → Prop
  | value {ts : List Token} {x : Place} (hx : DerivesPlace ts x) :
      DerivesArg ts { place := x }
  | lend {ts : List Token} {x : Place} (kind : BorrowKind) (hx : DerivesPlace ts x) :
      DerivesArg (.ampersand :: (kindTokens kind ++ ts)) { place := x, mode := .lend kind }

/-- The statements at the point `p`. -/
inductive DerivesStatement (p : Point) : List Token → Operation → Prop
  | declare {ts us : List Token} {x : Place} {t : Ty} (hx : DerivesPlace ts x)
      (ht : DerivesType us t) :
      DerivesStatement p (.keyword .declare :: (ts ++ .colon :: us)) (.declare p x t)
  | assign {ts : List Token} {x : Place} (hx : DerivesPlace ts x) :
      DerivesStatement p (.keyword .assign :: ts) (.assign p x [])
  | assignFrom {ts us : List Token} {x : Place} {sources : List Place} (hx : DerivesPlace ts x)
      (hsources : Commas DerivesPlace us sources) :
      DerivesStatement p (.keyword .assign :: (ts ++ .equals :: us)) (.assign p x sources)
  | move {ts us : List Token} {x s : Place} (hx : DerivesPlace ts x) (hs : DerivesPlace us s) :
      DerivesStatement p (.keyword .move :: (ts ++ .equals :: us)) (.move p x s)
  | borrow {ts us : List Token} {x s : Place} (kind : BorrowKind) (hx : DerivesPlace ts x)
      (hs : DerivesPlace us s) :
      DerivesStatement p
        (.keyword .borrow :: (ts ++ .equals :: .ampersand :: (kindTokens kind ++ us)))
        (.borrow p kind x s)
  | deref {ts : List Token} {s : Place} (hs : DerivesPlace ts s) :
      DerivesStatement p (.keyword .deref :: ts) (.deref p s)
  | use {ts : List Token} {s : Place} (hs : DerivesPlace ts s) :
      DerivesStatement p (.keyword .use :: ts) (.use p s)
  | call {ts : List Token} {args : List Arg} (callee : String)
      (hargs : Listed DerivesArg ts args) :
      DerivesStatement p
        (.keyword .call :: .name callee :: .leftParen :: (ts ++ [.rightParen]))
        (.call p callee args none)
  | callTo {ts us : List Token} {args : List Arg} {x : Place} (callee : String)
      (hargs : Listed DerivesArg ts args) (hx : DerivesPlace us x) :
      DerivesStatement p
        (.keyword .call :: .name callee :: .leftParen :: (ts ++ .rightParen :: .arrow :: us))
        (.call p callee args (some x))
  | ret : DerivesStatement p [.keyword .ret] (.ret p none)
  | retOf {ts : List Token} {s : Place} (hs : DerivesPlace ts s) :
      DerivesStatement p (.keyword .ret :: ts) (.ret p (some s))
  | enter : DerivesStatement p [.keyword .enter] (.enter p)
  | exit : DerivesStatement p [.keyword .exit] (.exit p)

/-- `INT : statement` -/
inductive DerivesOp : List Token → Operation → Prop
  | mk {ts : List Token} {op : Operation} (p : Nat) (hop : DerivesStatement p ts op) :
      DerivesOp (.number p :: .colon :: ts) op

/-! ### Functions -/

/-- `NAME : type` -/
inductive DerivesParam : List Token → Param → Prop
  | mk {ts : List Token} {t : Ty} (name : String) (ht : DerivesType ts t) :
      DerivesParam (.name name :: .colon :: ts) { name, ty := t }

/-- `fn NAME ( [param (, param)*] ) { op* }` -/
inductive DerivesFunction : List Token → Function → Prop
  | mk {ts us : List Token} {params : List Param} {ops : List Operation} (name : String)
      (hparams : Listed DerivesParam ts params) (hops : Many DerivesOp us ops) :
      DerivesFunction
        (.keyword .function :: .name name :: .leftParen ::
          (ts ++ .rightParen :: .leftBrace :: (us ++ [.rightBrace])))
        { name, params, ops }

/-- A whole listing: the tokens are derived from the start symbol, and the derivation builds the
functions. They carry no spans. -/
abbrev Derives : List Token → List Function → Prop :=
  Many DerivesFunction

/-! ### How phrases begin -/

/-- A statement begins with its keyword. -/
theorem DerivesStatement.exists_keyword {p : Point} {ts : List Token} {op : Operation}
    (h : DerivesStatement p ts op) : ∃ word us, ts = .keyword word :: us := by
  cases h <;> exact ⟨_, _, rfl⟩

/-- What is derived knows nothing of positions in the text. -/
theorem DerivesStatement.withoutSpan_eq {p : Point} {ts : List Token} {op : Operation}
    (h : DerivesStatement p ts op) : op.withoutSpan = op := by
  cases h <;> rfl

/-- An operation begins with its point. -/
theorem DerivesOp.exists_number {ts : List Token} {op : Operation} (h : DerivesOp ts op) :
    ∃ n us, ts = .number n :: us := by
  cases h
  exact ⟨_, _, rfl⟩

/-- Where no item is empty, the first token belongs to the first item. -/
theorem many_cons_iff {α : Type} {R : List Token → α → Prop} {t : Token} {ts : List Token}
    {as : List α} (hne : ∀ a, ¬ R [] a) : Many R (t :: ts) as ↔
      ∃ us vs a bs, ts = us ++ vs ∧ as = a :: bs ∧ R (t :: us) a ∧ Many R vs bs := by
  constructor
  · intro h
    generalize hcs : t :: ts = cs at h
    cases h with
    | nil => cases hcs
    | @cons us vs a bs ha hbs =>
      cases us with
      | nil => exact absurd ha (hne a)
      | cons u us =>
        cases hcs
        exact ⟨us, vs, a, bs, rfl, rfl, ha, hbs⟩
  · rintro ⟨us, vs, a, bs, rfl, rfl, ha, hbs⟩
    exact .cons ha hbs

theorem not_derivesProj_nil (p : Proj) : ¬ DerivesProj [] p := by
  intro h
  cases h

/-- After a dot comes the name of a field. -/
theorem many_dot_iff {ts : List Token} {ps : List Proj} :
    Many DerivesProj (.dot :: ts) ps ↔
      ∃ name us qs, ts = .name name :: us ∧ Many DerivesProj us qs ∧ ps = .field name :: qs := by
  rw [many_cons_iff not_derivesProj_nil]
  constructor
  · rintro ⟨us, vs, p, qs, rfl, rfl, hp, hqs⟩
    cases hp
    exact ⟨_, vs, qs, rfl, hqs, rfl⟩
  · rintro ⟨name, us, qs, rfl, hqs, rfl⟩
    exact ⟨_, us, _, qs, rfl, rfl, .field name, hqs⟩

/-- The token in the brackets decides which index it is. -/
theorem many_bracket_iff {t : Token} {p : Proj}
    (hp : DerivesProj [.leftBracket, t, .rightBracket] p) {ts : List Token} {ps : List Proj} :
    Many DerivesProj (.leftBracket :: t :: ts) ps ↔
      After .rightBracket (fun us ps => ∃ qs, Many DerivesProj us qs ∧ ps = p :: qs) ts ps := by
  rw [many_cons_iff not_derivesProj_nil]
  constructor
  · rintro ⟨us, vs, q, qs, hts, rfl, hq, hqs⟩
    cases hq <;> cases hts <;> cases hp <;> exact ⟨vs, rfl, qs, hqs, rfl⟩
  · rintro ⟨us, rfl, qs, hqs, rfl⟩
    exact ⟨[t, .rightBracket], us, p, qs, rfl, rfl, hp, hqs⟩

/-- After a bracket comes a constant or a label. -/
theorem exists_of_many_bracket {ts : List Token} {ps : List Proj}
    (h : Many DerivesProj (.leftBracket :: ts) ps) :
    ∃ us, (∃ value, ts = .number value :: us) ∨ ∃ label, ts = .name label :: us := by
  obtain ⟨us, vs, p, qs, rfl, -, hp, -⟩ := (many_cons_iff not_derivesProj_nil).mp h
  cases hp with
  | index value => exact ⟨_, .inl ⟨value, rfl⟩⟩
  | any label => exact ⟨_, .inr ⟨label, rfl⟩⟩

/-- Phrases after a comma each, as one list. -/
theorem many_after_comma_iff {α : Type} {R : List Token → α → Prop} {ts : List Token}
    {as : List α} : Many (After .comma R) ts as ↔
      (ts = [] ∧ as = []) ∨ After .comma (Commas R) ts as := by
  constructor
  · intro h
    cases h with
    | nil => exact .inl ⟨rfl, rfl⟩
    | cons ha has =>
      obtain ⟨us, rfl, hus⟩ := ha
      exact .inr ⟨_, rfl, us, _, _, _, rfl, rfl, hus, has⟩
  · rintro (⟨rfl, rfl⟩ | ⟨_, rfl, us, vs, a, bs, rfl, rfl, ha, hbs⟩)
    · exact .nil
    · exact .cons ⟨us, rfl, ha⟩ hbs

/-- Phrases after a comma each, phrase by phrase. -/
theorem many_after_comma_iff_forall {α : Type} {R : List Token → α → Prop} {ts : List Token}
    {as : List α} : Many (After .comma R) ts as ↔ ∃ more : List (List Token × α),
      ts = (more.flatMap fun d => .comma :: d.1) ∧ as = more.map Prod.snd ∧
        ∀ d ∈ more, R d.1 d.2 := by
  constructor
  · intro h
    induction h with
    | nil => exact ⟨[], rfl, rfl, List.forall_mem_nil _⟩
    | cons ha _ ih =>
      obtain ⟨us, rfl, hR⟩ := ha
      obtain ⟨more, rfl, rfl, hmore⟩ := ih
      exact ⟨(us, _) :: more, by simp, rfl, List.forall_mem_cons.mpr ⟨hR, hmore⟩⟩
  · rintro ⟨more, rfl, rfl, hmore⟩
    induction more with
    | nil => exact .nil
    | cons d more ih =>
      obtain ⟨hd, htail⟩ := List.forall_mem_cons.mp hmore
      have hfirst : After .comma R (.comma :: d.1) d.2 := ⟨d.1, rfl, hd⟩
      exact .cons hfirst (ih htail)

/-- The arguments of a type are a list of types. -/
theorem derivesType_name_iff {name : String} {ts : List Token} {t : Ty} :
    DerivesType (.name name :: ts) t ↔
      (ts = [] ∧ t = Ty.named name) ∨ After .leftAngle (fun us t => ∃ vs args,
        us = vs ++ [.rightAngle] ∧ Commas DerivesType vs args ∧ t = Ty.named name args) ts t := by
  constructor
  · intro h
    cases h with
    | named => exact .inl ⟨rfl, rfl⟩
    | applied _ ht hmore =>
      have has := many_after_comma_iff_forall.mpr ⟨_, rfl, rfl, hmore⟩
      exact .inr ⟨_, rfl, _, _, rfl, ⟨_, _, _, _, rfl, rfl, ht, has⟩, rfl⟩
  · rintro (⟨rfl, rfl⟩ | ⟨_, rfl, _, _, rfl, ⟨us, vs, t, as, rfl, rfl, ht, has⟩, rfl⟩)
    · exact .named name
    · obtain ⟨more, rfl, rfl, hmore⟩ := many_after_comma_iff_forall.mp has
      exact .applied name ht hmore

/-! ### Productions, part by part

What a phrase consists of after its first token, in the order in which the parts are read. -/

theorem projections_dot_iff {x y : Place} {ts : List Token} :
    (∃ ps, Many DerivesProj (.dot :: ts) ps ∧ y = x.append ps) ↔
      ∃ name us vs, ts = us ++ vs ∧ us = [.name name] ∧
        ∃ ps, Many DerivesProj vs ps ∧ y = x.append (.field name :: ps) := by
  simp only [many_dot_iff]
  constructor
  · rintro ⟨_, ⟨n, vs, ps, rfl, hps, rfl⟩, rfl⟩
    exact ⟨n, _, vs, rfl, rfl, ps, hps, rfl⟩
  · rintro ⟨n, us, vs, rfl, rfl, ps, hps, rfl⟩
    exact ⟨_, ⟨n, vs, ps, rfl, hps, rfl⟩, rfl⟩

theorem projections_bracket_iff {x y : Place} {t : Token} {p : Proj} {ts : List Token}
    (hp : DerivesProj [.leftBracket, t, .rightBracket] p) :
    (∃ ps, Many DerivesProj (.leftBracket :: t :: ts) ps ∧ y = x.append ps) ↔
      After .rightBracket (fun us y => ∃ ps, Many DerivesProj us ps ∧ y = x.append (p :: ps)) ts
        y := by
  simp only [many_bracket_iff hp]
  constructor
  · rintro ⟨_, ⟨us, rfl, ps, hps, rfl⟩, rfl⟩
    exact ⟨us, rfl, ps, hps, rfl⟩
  · rintro ⟨us, rfl, ps, hps, rfl⟩
    exact ⟨_, ⟨us, rfl, ps, hps, rfl⟩, rfl⟩

section

variable {ts : List Token} {y : Place}

/-- A star dereferences all that comes after it. -/
theorem derivesPlace_star_iff :
    DerivesPlace (.star :: ts) y ↔ ∃ x, DerivesPlace ts x ∧ y = x.deref := by
  constructor
  · rintro (hx | _ | _)
    exact ⟨_, hx, rfl⟩
  · rintro ⟨x, hx, rfl⟩
    exact .deref hx

theorem derivesPlace_name_iff {base : String} :
    DerivesPlace (.name base :: ts) y ↔
      ∃ ps, Many DerivesProj ts ps ∧ y = Place.append { base } ps := by
  constructor
  · rintro (_ | ⟨_, hps⟩ | _)
    exact ⟨_, hps, rfl⟩
  · rintro ⟨ps, hps, rfl⟩
    exact .name base hps

/-- Projections behind a group belong to the group. -/
theorem derivesPlace_leftParen_iff :
    DerivesPlace (.leftParen :: ts) y ↔
      ∃ x us vs, ts = us ++ vs ∧ DerivesPlace us x ∧
        After .rightParen (fun ts y => ∃ ps, Many DerivesProj ts ps ∧ y = x.append ps) vs y := by
  constructor
  · rintro (_ | _ | ⟨hx, hps⟩)
    exact ⟨_, _, _, rfl, hx, _, rfl, _, hps, rfl⟩
  · rintro ⟨x, us, _, rfl, hx, vs, rfl, ps, hps, rfl⟩
    exact .group hx hps

/-- After an ampersand comes the type referred to. -/
theorem derivesType_ampersand_iff {t : Ty} :
    DerivesType (.ampersand :: ts) t ↔
      ∃ kind us u, ts = kindTokens kind ++ us ∧ DerivesType us u ∧ t = u.refTo kind := by
  constructor
  · rintro (⟨kind, ht⟩ | _ | _)
    exact ⟨kind, _, _, rfl, ht, rfl⟩
  · rintro ⟨kind, us, t, rfl, ht, rfl⟩
    exact .ref kind ht

theorem derivesArg_ampersand_iff {a : Arg} :
    DerivesArg (.ampersand :: ts) a ↔
      ∃ kind us x, ts = kindTokens kind ++ us ∧ DerivesPlace us x ∧
        a = { place := x, mode := .lend kind } := by
  constructor
  · rintro (hx | ⟨kind, hx⟩)
    · cases hx
    · exact ⟨kind, _, _, rfl, hx, rfl⟩
  · rintro ⟨kind, us, x, rfl, hx, rfl⟩
    exact .lend kind hx

variable {p : Point} {op : Operation}

theorem derivesStatement_declare_iff :
    DerivesStatement p (.keyword .declare :: ts) op ↔
      ∃ x us vs, ts = us ++ vs ∧ DerivesPlace us x ∧
        After .colon (fun vs op => ∃ t, DerivesType vs t ∧ op = .declare p x t) vs op := by
  constructor
  · intro h
    cases h with
    | declare hx ht => exact ⟨_, _, _, rfl, hx, _, rfl, _, ht, rfl⟩
  · rintro ⟨x, us, _, rfl, hx, vs, rfl, t, ht, rfl⟩
    exact .declare hx ht

/-- An assignment names its sources, if it has any, after an equals sign. -/
theorem derivesStatement_assign_iff :
    DerivesStatement p (.keyword .assign :: ts) op ↔
      ∃ x us vs, ts = us ++ vs ∧ DerivesPlace us x ∧
        ((vs = [] ∧ op = .assign p x []) ∨ After .equals (fun vs op =>
          ∃ sources, Commas DerivesPlace vs sources ∧ op = .assign p x sources) vs op) := by
  constructor
  · intro h
    cases h with
    | assign hx => exact ⟨_, _, [], (List.append_nil _).symm, hx, .inl ⟨rfl, rfl⟩⟩
    | assignFrom hx hsources => exact ⟨_, _, _, rfl, hx, .inr ⟨_, rfl, _, hsources, rfl⟩⟩
  · rintro ⟨x, us, _, rfl, hx, ⟨rfl, rfl⟩ | ⟨vs, rfl, sources, hsources, rfl⟩⟩
    · rw [List.append_nil]
      exact .assign hx
    · exact .assignFrom hx hsources

theorem derivesStatement_move_iff :
    DerivesStatement p (.keyword .move :: ts) op ↔
      ∃ x us vs, ts = us ++ vs ∧ DerivesPlace us x ∧
        After .equals (fun vs op => ∃ s, DerivesPlace vs s ∧ op = .move p x s) vs op := by
  constructor
  · intro h
    cases h with
    | move hx hs => exact ⟨_, _, _, rfl, hx, _, rfl, _, hs, rfl⟩
  · rintro ⟨x, us, _, rfl, hx, vs, rfl, s, hs, rfl⟩
    exact .move hx hs

/-- The kind of a borrow stands between the ampersand and what is borrowed. -/
theorem derivesStatement_borrow_iff :
    DerivesStatement p (.keyword .borrow :: ts) op ↔
      ∃ x us vs, ts = us ++ vs ∧ DerivesPlace us x ∧
        After .equals (After .ampersand fun vs op => ∃ kind ws s, vs = kindTokens kind ++ ws ∧
          DerivesPlace ws s ∧ op = .borrow p kind x s) vs op := by
  constructor
  · intro h
    cases h with
    | borrow kind hx hs => exact ⟨_, _, _, rfl, hx, _, rfl, _, rfl, kind, _, _, rfl, hs, rfl⟩
  · rintro ⟨x, us, _, rfl, hx, _, rfl, _, rfl, kind, vs, s, rfl, hs, rfl⟩
    exact .borrow kind hx hs

theorem derivesStatement_deref_iff :
    DerivesStatement p (.keyword .deref :: ts) op ↔ ∃ s, DerivesPlace ts s ∧ op = .deref p s := by
  constructor
  · intro h
    cases h with
    | deref hs => exact ⟨_, hs, rfl⟩
  · rintro ⟨s, hs, rfl⟩
    exact .deref hs

theorem derivesStatement_use_iff :
    DerivesStatement p (.keyword .use :: ts) op ↔ ∃ s, DerivesPlace ts s ∧ op = .use p s := by
  constructor
  · intro h
    cases h with
    | use hs => exact ⟨_, hs, rfl⟩
  · rintro ⟨s, hs, rfl⟩
    exact .use hs

/-- A call has its arguments in brackets, and its result, if it has one, after an arrow. -/
theorem derivesStatement_call_iff :
    DerivesStatement p (.keyword .call :: ts) op ↔
      ∃ callee us vs, ts = us ++ vs ∧ us = [.name callee] ∧
        After .leftParen (fun vs op => ∃ args ws xs, vs = ws ++ xs ∧
          (∃ ys, ws = ys ++ [.rightParen] ∧ Listed DerivesArg ys args) ∧
          ((xs = [] ∧ op = .call p callee args none) ∨ After .arrow (fun xs op =>
            ∃ x, DerivesPlace xs x ∧ op = .call p callee args (some x)) xs op)) vs op := by
  constructor
  · intro h
    cases h with
    | call callee hargs =>
      exact ⟨callee, _, _, rfl, rfl, _, rfl, _, _, [], (List.append_nil _).symm,
        ⟨_, rfl, hargs⟩, .inl ⟨rfl, rfl⟩⟩
    | callTo callee hargs hx =>
      exact ⟨callee, _, _, rfl, rfl, _, rfl, _, _, _, List.append_cons .., ⟨_, rfl, hargs⟩,
        .inr ⟨_, rfl, _, hx, rfl⟩⟩
  · rintro ⟨callee, _, _, rfl, rfl, _, rfl, args, _, _, rfl, ⟨us, rfl, hargs⟩,
      ⟨rfl, rfl⟩ | ⟨vs, rfl, x, hx, rfl⟩⟩
    · rw [List.append_nil]
      exact .call callee hargs
    · rw [List.append_assoc]
      exact .callTo callee hargs hx

theorem derivesStatement_enter_iff :
    DerivesStatement p (.keyword .enter :: ts) op ↔ ts = [] ∧ op = .enter p := by
  constructor
  · intro h
    cases h with
    | enter => exact ⟨rfl, rfl⟩
  · rintro ⟨rfl, rfl⟩
    exact .enter

theorem derivesStatement_exit_iff :
    DerivesStatement p (.keyword .exit :: ts) op ↔ ts = [] ∧ op = .exit p := by
  constructor
  · intro h
    cases h with
    | exit => exact ⟨rfl, rfl⟩
  · rintro ⟨rfl, rfl⟩
    exact .exit

theorem derivesOp_iff :
    DerivesOp ts op ↔ ∃ (n : Nat) (us vs : List Token), ts = us ++ vs ∧ us = [.number n] ∧
      After .colon (DerivesStatement n) vs op := by
  constructor
  · rintro ⟨n, hop⟩
    exact ⟨n, _, _, rfl, rfl, _, rfl, hop⟩
  · rintro ⟨n, _, _, rfl, rfl, us, rfl, hop⟩
    exact .mk n hop

theorem derivesParam_iff {a : Param} :
    DerivesParam ts a ↔ ∃ name us vs, ts = us ++ vs ∧ us = [.name name] ∧
      After .colon (fun vs a => ∃ t, DerivesType vs t ∧ a = { name, ty := t }) vs a := by
  constructor
  · rintro ⟨n, ht⟩
    exact ⟨n, _, _, rfl, rfl, _, rfl, _, ht, rfl⟩
  · rintro ⟨n, _, _, rfl, rfl, us, rfl, t, ht, rfl⟩
    exact .mk n ht

/-- A function has its parameters in brackets, and its operations in braces. -/
theorem derivesFunction_iff {f : Function} :
    DerivesFunction ts f ↔ After (.keyword .function) (fun ts f =>
      ∃ name us vs, ts = us ++ vs ∧ us = [.name name] ∧ After .leftParen (fun vs f =>
        ∃ params ws xs, vs = ws ++ xs ∧
          (∃ ys, ws = ys ++ [.rightParen] ∧ Listed DerivesParam ys params) ∧
          After .leftBrace (fun xs f => ∃ ys ops, xs = ys ++ [.rightBrace] ∧
            Many DerivesOp ys ops ∧ f = { name, params, ops }) xs f) vs f) ts f := by
  constructor
  · rintro ⟨name, hparams, hops⟩
    exact ⟨_, rfl, name, _, _, rfl, rfl, _, rfl, _, _, _, List.append_cons .., ⟨_, rfl, hparams⟩,
      _, rfl, _, _, rfl, hops, rfl⟩
  · rintro ⟨_, rfl, name, _, _, rfl, rfl, _, rfl, params, _, _, rfl, ⟨us, rfl, hparams⟩, _, rfl,
      vs, ops, rfl, hops, rfl⟩
    rw [List.append_assoc]
    exact .mk name hparams hops

end

end Listing

end BorrowCheck
