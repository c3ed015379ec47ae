import BorrowCheck.Proofs.Lexing
import BorrowCheck.Proofs.Phrases

/-!
# The readers recognise the grammar

Each reader finds the phrases of its symbol. A reader gives one answer, so a row of tokens has at
most one derivation (`BorrowCheck.Listing.Derives.unique`): this is where the grammar turns out to
be unambiguous. With the tokens of a text, reading a listing accepts the grammar and nothing else
(`BorrowCheck.Program.parse_recognizes_listings`).

The numbers that bound the recursion of the readers are never reached, since there are fewer tokens.
-/

namespace BorrowCheck

namespace Listing

namespace Reads

/-! ### Places -/

section

variable {bound : Nat} {ls : List Lexeme}

/-- Whether a place may stop before the token. -/
def endsPlace : Option Token → Bool
  | some .dot => false
  | some .leftBracket => false
  | _ => true

/-- The rest of an index in brackets, and the projections after it. -/
theorem finds_index {x : Place} {t : Token} {p : Proj}
    (hp : DerivesProj [.leftBracket, t, .rightBracket] p) (h : (tokens ls).head? = some t)
    (hmore : ∀ ms, ms.length < ls.length → Finds (projections bound (x.append [p]))
      (fun ts y => ∃ ps, Many DerivesProj ts ps ∧ y = x.append (p :: ps)) endsPlace ms) :
    Finds (do skip; token .rightBracket; projections bound (x.append [p]))
      (fun ts y => ∃ ps, Many DerivesProj (.leftBracket :: ts) ps ∧ y = x.append ps) endsPlace
      ls := by
  refine finds_skip h (fun l ms hls => ?_) ?_
  · refine (finds_after .rightBracket fun m ks hms => hmore ks ?_).congr
      fun ts y => (projections_bracket_iff hp).symm
    rw [hls, hms, List.length_cons, List.length_cons]
    omega
  · rintro y ⟨ps, hps, -⟩
    obtain ⟨us, ⟨_, hts⟩ | ⟨_, hts⟩⟩ := exists_of_many_bracket hps <;> cases hts

/-- Projections, by induction on the bound; each takes a token at least. -/
theorem finds_projections (hbound : ls.length < bound) (x : Place) :
    Finds (projections bound x) (fun ts y => ∃ ps, Many DerivesProj ts ps ∧ y = x.append ps)
      endsPlace ls := by
  induction bound generalizing ls x with
  | zero => omega
  | succ bound ih =>
    have hmore : ∀ p ms, ms.length < ls.length → Finds (projections bound (x.append [p]))
        (fun ts y => ∃ ps, Many DerivesProj ts ps ∧ y = x.append (p :: ps)) endsPlace ms := by
      intro p ms hms
      refine (ih (by omega) (x.append [p])).congr fun ts y => ?_
      simp [Place.append]
    refine finds_peek ?_
    split
    case h_1 h =>
      refine finds_skip h (fun l ms hls => ?_) fun _ _ => rfl
      refine (finds_name.bind (fun n front rest hrest _ => hmore (.field n) rest ?_)
        fun _ _ _ _ _ _ => rfl).congr fun ts y => projections_dot_iff.symm
      rw [hls, hrest, List.length_cons, List.length_append]
      omega
    case h_2 h =>
      refine finds_skip h (fun l ms hls => ?_) fun _ _ => rfl
      have hshort : ms.length < ls.length := by
        rw [hls, List.length_cons]
        omega
      refine finds_peek ?_
      split
      case h_1 value h =>
        exact finds_index (.index value) h fun ks hks => hmore _ ks (Nat.lt_trans hks hshort)
      case h_2 label h =>
        exact finds_index (.any label) h fun ks hks => hmore _ ks (Nat.lt_trans hks hshort)
      case h_3 hnumber hname =>
        refine finds_fail ?_
        rintro ts us y hms - ⟨ps, hps, -⟩
        obtain ⟨vs, ⟨value, rfl⟩ | ⟨label, rfl⟩⟩ := exists_of_many_bracket hps
        · exact hnumber value (by rw [hms]; rfl)
        · exact hname label (by rw [hms]; rfl)
    case h_3 hdot hbracket =>
      refine (finds_pure x).imp ?_ ?_
      · rintro ts us y - ⟨rfl, rfl⟩
        exact ⟨[], .nil, by simp [Place.append]⟩
      · rintro ts us y hls - ⟨ps, hps, rfl⟩
        cases hps with
        | nil => exact ⟨rfl, by simp [Place.append]⟩
        | cons hp _ =>
          cases hp with
          | field => exact absurd (by rw [hls]; rfl) hdot
          | index => exact absurd (by rw [hls]; rfl) hbracket
          | any => exact absurd (by rw [hls]; rfl) hbracket

/-- A place, by induction on the bound: brackets and stars leave less to read. -/
theorem finds_placeWithin (hbound : ls.length < bound) :
    Finds (placeWithin bound) DerivesPlace endsPlace ls := by
  induction bound generalizing ls with
  | zero => omega
  | succ bound ih =>
    have hinner : ∀ l ms, ls = l :: ms → Finds (placeWithin bound) DerivesPlace endsPlace ms := by
      rintro l ms rfl
      exact ih (Nat.lt_of_succ_lt_succ hbound)
    refine finds_peek ?_
    split
    case h_1 h =>
      exact finds_skip h (fun l ms hls => ((hinner l ms hls).bind_pure _).congr
        fun ts y => derivesPlace_star_iff.symm) fun y hy => by cases hy
    case h_2 h =>
      refine finds_skip h (fun l ms hls => ((hinner l ms hls).bind (fun x _ _ _ _ =>
        finds_after .rightParen fun _ _ _ => finds_left (finds_projections (Nat.lt_succ_self _) x))
        ?_).congr fun ts y => derivesPlace_leftParen_iff.symm) fun y hy => by cases hy
      rintro x ts y t ⟨us, rfl, -⟩ -
      rfl
    case h_3 base h =>
      exact finds_skip h (fun l ms _ => finds_left ((finds_projections (Nat.lt_succ_self _)
        { base }).congr fun ts y => derivesPlace_name_iff.symm)) fun y hy => by cases hy
    case h_4 hstar hparen hname =>
      refine finds_fail fun ts us x hls _ hx => ?_
      cases hx with
      | deref => exact hstar (by rw [hls]; rfl)
      | name base => exact hname base (by rw [hls]; rfl)
      | group => exact hparen (by rw [hls]; rfl)

theorem finds_place : Finds place DerivesPlace endsPlace ls :=
  finds_left (finds_placeWithin (Nat.lt_succ_self _))

/-! ### Types -/

/-- Whether a type may stop before the token. -/
def endsType : Option Token → Bool
  | some .leftAngle => false
  | _ => true

/-- A type, by induction on the bound: its arguments leave less to read. -/
theorem finds_typeWithin (hbound : ls.length < bound) :
    Finds (typeWithin bound) DerivesType endsType ls := by
  induction bound generalizing ls with
  | zero => omega
  | succ bound ih =>
    have hinner : ∀ l ms ks, ls = l :: ms → ks <:+ ms →
        Finds (typeWithin bound) DerivesType endsType ks := by
      rintro l ms ks rfl hks
      have := hks.length_le
      rw [List.length_cons] at hbound
      exact ih (by omega)
    refine finds_peek ?_
    split
    case h_1 h =>
      refine finds_skip h (fun l ms hls => (finds_kind_then (g := fun kind t => t.refTo kind)
        (fun ks => hinner l ms ks hls) ?_).congr fun ts t => derivesType_ampersand_iff.symm)
        fun y hy => by cases hy
      intro ts t ht
      cases ht <;> exact ⟨_, _, rfl, by simp⟩
    case h_2 text h =>
      refine finds_skip h (fun l ms hls => ?_) fun y hy => by cases hy
      simp only [derivesType_name_iff]
      refine finds_option .leftAngle (fun m ks hms => ?_) rfl rfl
      have hargs : ∀ js, js <:+ ks → Finds (typeWithin bound) DerivesType endsType js :=
        fun js hjs => hinner l ms js hls (hms ▸ hjs.trans (List.suffix_cons m ks))
      have hclose : Token.rightAngle ≠ .comma := by simp
      exact (finds_items_close hargs rfl rfl hclose _).stop_of_imp fun _ _ => rfl
    case h_3 hamp hname =>
      refine finds_fail fun ts us x hls _ hx => ?_
      cases hx with
      | ref => exact hamp (by rw [hls]; rfl)
      | named name => exact hname name (by rw [hls]; rfl)
      | applied name => exact hname name (by rw [hls]; rfl)

theorem finds_type : Finds type DerivesType endsType ls :=
  finds_left (finds_typeWithin (Nat.lt_succ_self _))

/-! ### Statements -/

/-- A place does not begin with `mut`. -/
theorem derivesPlace_head_ne (ts : List Token) (x : Place) (h : DerivesPlace ts x) :
    ∃ t us, ts = t :: us ∧ t ≠ .keyword .mutable := by
  cases h <;> exact ⟨_, _, rfl, by simp⟩

/-- No argument begins with the bracket that ends the arguments. -/
theorem derivesArg_head_ne (ts : List Token) (a : Arg) (h : DerivesArg ts a) :
    ∃ t us, ts = t :: us ∧ t ≠ .rightParen := by
  cases h with
  | value hx => cases hx <;> exact ⟨_, _, rfl, by simp⟩
  | lend => exact ⟨_, _, rfl, by simp⟩

theorem finds_arg : Finds arg DerivesArg endsPlace ls := by
  refine finds_token? .ampersand (fun l ms _ => ?_) (fun hhead => ?_) fun a ha => ?_
  · exact (finds_kind_then (fun _ _ => finds_place) derivesPlace_head_ne).congr
      fun ts a => derivesArg_ampersand_iff.symm
  · refine (finds_place.bind_pure _).imp ?_ ?_
    · rintro ts us a - ⟨x, hx, rfl⟩
      exact .value hx
    · rintro ts us a hls - (hx | ⟨kind, hx⟩)
      · exact ⟨_, hx, rfl⟩
      · exact absurd (by rw [hls]; rfl) hhead
  · cases ha with
    | value hx => cases hx

/-- Whether a statement may stop before the token: what follows is the number of the next
operation, or the end of the body. -/
def endsStatement : Option Token → Bool
  | none => true
  | some (.number _) => true
  | some .rightBrace => true
  | some _ => false

theorem endsPlace_of_endsStatement {t : Option Token} (h : endsStatement t = true) :
    endsPlace t = true := by
  unfold endsStatement at h
  split at h
  all_goals first | rfl | cases h

theorem endsType_of_endsStatement {t : Option Token} (h : endsStatement t = true) :
    endsType t = true := by
  unfold endsStatement at h
  split at h
  all_goals first | rfl | cases h

/-- After a statement comes nothing that could be taken for a place. -/
theorem not_startsPlace_of_endsStatement {t : Option Token} (h : endsStatement t = true) :
    ¬ startsPlace t = true := by
  unfold endsStatement at h
  split at h
  all_goals first | exact Bool.false_ne_true | cases h

/-- A place at the end of a statement. -/
theorem finds_last_place : Finds place DerivesPlace endsStatement ls :=
  finds_place.stop_of_imp fun _ => endsPlace_of_endsStatement

/-- A place, and the rest of the statement. -/
theorem finds_place_then {α : Type} {f : Place → Reads α} {S : Place → List Token → α → Prop}
    (hf : ∀ x ms, Finds (f x) (S x) endsStatement ms)
    (hS : ∀ x ts a, S x ts a → endsPlace ts.head? = true) :
    Finds (place >>= f) (fun ts a => ∃ x us vs, ts = us ++ vs ∧ DerivesPlace us x ∧ S x vs a)
      endsStatement ls := by
  refine finds_place.bind (fun x _ rest _ _ => hf x rest) fun x ts a t ha ht => ?_
  cases ts with
  | nil => exact endsPlace_of_endsStatement ht
  | cons u us => exact hS x _ a ha

variable {p : Point}

/-- The sources of an assignment. -/
theorem finds_sources (x : Place) :
    Finds (do if ← token? .equals then return Operation.assign p x (← items place)
              else return Operation.assign p x [])
      (fun ts op => (ts = [] ∧ op = Operation.assign p x []) ∨ After .equals (fun us op =>
        ∃ sources, Commas DerivesPlace us sources ∧ op = Operation.assign p x sources) ts op)
      endsStatement ls := by
  have hsources : ∀ ms, Finds (items place) (Commas DerivesPlace) endsStatement ms := fun ms =>
    finds_items (fun _ _ => finds_place) rfl (fun _ => endsPlace_of_endsStatement) rfl
  exact finds_option .equals (fun _ ms _ => (hsources ms).bind_pure _) rfl rfl

/-- The arguments of a call. -/
theorem finds_args : Finds (itemsUntil .rightParen arg)
    (fun ts args => ∃ us, ts = us ++ [.rightParen] ∧ Listed DerivesArg us args) anywhere ls :=
  finds_itemsUntil (fun _ _ => finds_arg) derivesArg_head_ne rfl rfl (by simp)

/-- Where the result of a call goes. -/
theorem finds_result (callee : String) (args : List Arg) :
    Finds (do if ← token? .arrow then return Operation.call p callee args (some (← place))
              else return Operation.call p callee args none)
      (fun ts op => (ts = [] ∧ op = Operation.call p callee args none) ∨ After .arrow (fun us op =>
        ∃ x, DerivesPlace us x ∧ op = Operation.call p callee args (some x)) ts op)
      endsStatement ls :=
  finds_option .arrow (fun _ _ _ => finds_last_place.bind_pure _) rfl rfl

/-- A call, with or without a result. -/
theorem finds_call :
    Finds (do let callee ← name
              token .leftParen
              let args ← itemsUntil .rightParen arg
              if ← token? .arrow then return Operation.call p callee args (some (← place))
              else return Operation.call p callee args none)
      (fun ts op => DerivesStatement p (.keyword .call :: ts) op) endsStatement ls := by
  exact (finds_name.bind (fun callee _ _ _ _ => finds_after .leftParen fun _ _ _ =>
    finds_args.bind (fun args _ _ _ _ => finds_result callee args) fun _ _ _ _ _ _ => rfl)
    fun _ _ _ _ _ _ => rfl).congr fun ts op => derivesStatement_call_iff.symm

/-- There is no mark between `return` and what is returned, so the next token has to tell whether
anything is. -/
theorem finds_ret :
    Finds (do if startsPlace (← peek) then return Operation.ret p (some (← place))
              else return Operation.ret p none)
      (fun ts op => DerivesStatement p (.keyword .ret :: ts) op) endsStatement ls := by
  refine finds_peek ?_
  split
  case isTrue hstarts =>
    refine (finds_last_place.bind_pure _).imp ?_ ?_
    · rintro ts us op - ⟨s, hs, rfl⟩
      exact .retOf hs
    · intro ts us op hls hus h
      cases h with
      | ret =>
        rw [hls, List.nil_append] at hstarts
        exact absurd hstarts (not_startsPlace_of_endsStatement hus)
      | retOf hs => exact ⟨_, hs, rfl⟩
  case isFalse hstarts =>
    refine (finds_pure _).imp ?_ ?_
    · rintro ts us op - ⟨rfl, rfl⟩
      exact .ret
    · intro ts us op hls _ h
      cases h with
      | ret => exact ⟨rfl, rfl⟩
      | retOf hs =>
        refine absurd ?_ hstarts
        rw [hls]
        cases hs <;> rfl

/-- A statement, by its keyword. -/
theorem finds_statement {word : Keyword} {body : Reads Operation}
    (h : statement p word = some body) :
    Finds body (fun ts op => DerivesStatement p (.keyword word :: ts) op) endsStatement ls := by
  cases word with
  | function => cases h
  | mutable => cases h
  | declare =>
    cases h
    refine (finds_place_then (fun x _ => finds_after .colon fun _ _ _ => (finds_type.stop_of_imp
      fun _ => endsType_of_endsStatement).bind_pure _) ?_).congr
      fun ts op => derivesStatement_declare_iff.symm
    rintro x ts op ⟨us, rfl, -⟩
    rfl
  | move =>
    cases h
    refine (finds_place_then (fun x _ => finds_after .equals fun _ _ _ =>
      finds_last_place.bind_pure _) ?_).congr fun ts op => derivesStatement_move_iff.symm
    rintro x ts op ⟨us, rfl, -⟩
    rfl
  | assign =>
    cases h
    refine (finds_place_then (fun x _ => finds_sources x) ?_).congr
      fun ts op => derivesStatement_assign_iff.symm
    rintro x ts op (⟨rfl, -⟩ | ⟨us, rfl, -⟩)
    · rfl
    · rfl
  | borrow =>
    cases h
    refine (finds_place_then (fun x _ => finds_after .equals fun _ _ _ => finds_after .ampersand
      fun _ _ _ => finds_kind_then (fun _ _ => finds_last_place) derivesPlace_head_ne) ?_).congr
      fun ts op => derivesStatement_borrow_iff.symm
    rintro x ts op ⟨us, rfl, -⟩
    rfl
  | deref =>
    cases h
    exact (finds_last_place.bind_pure _).congr fun ts op => derivesStatement_deref_iff.symm
  | use =>
    cases h
    exact (finds_last_place.bind_pure _).congr fun ts op => derivesStatement_use_iff.symm
  | call =>
    cases h
    exact finds_call
  | ret =>
    cases h
    exact finds_ret
  | enter =>
    cases h
    exact (finds_pure _).congr fun ts op => derivesStatement_enter_iff.symm
  | exit =>
    cases h
    exact (finds_pure _).congr fun ts op => derivesStatement_exit_iff.symm

/-- A keyword that no reader is for begins no statement. -/
theorem not_derivesStatement {word : Keyword} (h : statement p word = none) {ts : List Token}
    {op : Operation} : ¬ DerivesStatement p (.keyword word :: ts) op := by
  intro hop
  cases hop <;> cases h

/-! ### Operations -/

variable {file : Option String}

theorem finds_get {α : Type} {f : List Lexeme → Reads α} {R : List Token → α → Prop}
    {stop : Option Token → Bool} (h : Finds (f ls) R stop ls) : Finds (get >>= f) R stop ls :=
  h.of_eq rfl

/-- A statement after its point. -/
theorem finds_operation :
    Finds (Operation.withoutSpan <$> operation file) DerivesOp endsStatement ls := by
  simp only [operation, map_bind]
  refine finds_get ?_
  refine (finds_number.bind (S := fun n : Nat => After .colon (DerivesStatement n)) ?_
    fun _ _ _ _ _ _ => rfl).congr fun ts op => derivesOp_iff.symm
  intro n _ rest _ _
  refine finds_after .colon fun _ ms _ => finds_peek ?_
  split
  case h_1 word h =>
    split
    case h_1 body hbody =>
      rw [map_bind]
      refine finds_skip h (fun _ _ _ => ?_) fun op hop => by cases hop
      -- the span is set and forgotten again, and a derivation has none
      refine (((finds_statement hbody).bind_pure Operation.withoutSpan).congr
        fun ts op => ?_).of_eq (by rw [map_bind]; rfl)
      constructor
      · rintro ⟨op, hop, rfl⟩
        rw [hop.withoutSpan_eq]
        exact hop
      · intro hop
        exact ⟨op, hop, hop.withoutSpan_eq.symm⟩
    case h_2 hnone =>
      refine (finds_fail fun ts us op hms _ hop => ?_).of_eq rfl
      cases ts with
      | nil => cases hop
      | cons t ts =>
        rw [hms] at h
        cases h
        exact not_derivesStatement hnone hop
  case h_2 h =>
    refine (finds_fail fun ts us op hms _ hop => ?_).of_eq rfl
    obtain ⟨word, vs, rfl⟩ := hop.exists_keyword
    exact h word (by rw [hms]; rfl)

theorem map_cons_eq {α β : Type} (w : α → β) (r : Reads α) (more : Reads (List α)) :
    List.map w <$> (do return (← r) :: (← more) : Reads (List α)) =
      do return (← w <$> r) :: (← List.map w <$> more) := by
  simp

/-- The operations of a body, by induction on the bound: each takes a token at least. -/
theorem finds_operations {bound : Nat} (hbound : ls.length < bound) :
    Finds (List.map Operation.withoutSpan <$> operations file bound) (Many DerivesOp)
      (· = some .rightBrace) ls := by
  induction bound generalizing ls with
  | zero => omega
  | succ bound ih =>
    simp only [operations, map_bind]
    refine finds_peek ?_
    split
    case h_1 n h =>
      rw [map_cons_eq]
      refine finds_many_cons finds_operation (fun op hop => by cases hop)
        (fun ms hms => ih (by omega)) ?_ (by rw [h]; rfl)
      -- a statement stops before the number of the next one, or before the closing brace
      intro ts ops t hops ht
      cases hops with
      | nil =>
        rw [of_decide_eq_true ht]
        rfl
      | cons hop _ =>
        obtain ⟨n, us, rfl⟩ := hop.exists_number
        rfl
    case h_2 h =>
      rw [map_pure]
      refine finds_many_nil fun ts us op hls hop => ?_
      obtain ⟨n, vs, rfl⟩ := hop.exists_number
      exact h n (by rw [hls]; rfl)

/-! ### Functions -/

theorem finds_param : Finds param DerivesParam endsType ls := by
  exact (finds_name.bind (S := fun n => After .colon fun ts a => ∃ t, DerivesType ts t ∧
    a = { name := n, ty := t }) (fun n _ _ _ _ => finds_after .colon fun _ _ _ =>
      finds_type.bind_pure _) fun _ _ _ _ _ _ => rfl).congr fun ts a => derivesParam_iff.symm

theorem finds_params : Finds (itemsUntil .rightParen param)
    (fun ts params => ∃ us, ts = us ++ [.rightParen] ∧ Listed DerivesParam us params) anywhere
    ls := by
  refine finds_itemsUntil (fun _ _ => finds_param) ?_ rfl rfl (by simp)
  rintro _ _ ⟨n, -⟩
  exact ⟨_, _, rfl, by simp⟩

theorem finds_body : Finds (do List.map Operation.withoutSpan <$> operations file ((← left) + 1))
    (Many DerivesOp) (· = some .rightBrace) ls :=
  finds_left (finds_operations (Nat.lt_succ_self _))

/-- The body of a function with its braces. -/
theorem finds_braces (file : Option String) (name : String) (params : List Param) : Finds
    (do token .leftBrace
        let ops ← (do List.map Operation.withoutSpan <$> operations file ((← left) + 1))
        token .rightBrace
        return ({ name, params, ops } : Function))
    (After .leftBrace fun ts f => ∃ us ops, ts = us ++ [.rightBrace] ∧ Many DerivesOp us ops ∧
      f = { name, params, ops }) anywhere ls := by
  refine finds_after .leftBrace fun _ _ _ => (finds_body.bind (fun ops _ _ _ _ =>
    (finds_token .rightBrace).bind_pure _) ?_).congr fun ts f => ?_
  · rintro ops ts f t ⟨_, rfl, -⟩ -
    rfl
  · constructor
    · rintro ⟨ops, us, _, rfl, hops, _, rfl, rfl⟩
      exact ⟨us, ops, rfl, hops, rfl⟩
    · rintro ⟨us, ops, rfl, hops, rfl⟩
      exact ⟨ops, us, _, rfl, hops, (), rfl, rfl⟩

/-- A function without the spans of its operations, part by part. -/
theorem map_function_eq (file : Option String) (ls : List Lexeme) :
    ((fun f => f.2.withoutSpans) <$> function file) ls = (do
      token (.keyword .function)
      let name ← name
      token .leftParen
      let params ← itemsUntil .rightParen param
      token .leftBrace
      let ops ← (do List.map Operation.withoutSpan <$> operations file ((← left) + 1))
      token .rightBrace
      return ({ name, params, ops } : Function) : Reads Function) ls := by
  simp only [function, map_bind, map_pure]
  simp only [bind_pure_comp, bind_assoc, bind_map_left]
  rfl

/-- A function from its first word to its last brace. -/
theorem finds_function : Finds ((fun f => f.2.withoutSpans) <$> function file) DerivesFunction
    anywhere ls := by
  exact ((finds_after (.keyword .function) fun _ _ _ => finds_name.bind (fun name _ _ _ _ =>
    finds_after .leftParen fun _ _ _ => finds_params.bind (fun params _ _ _ _ =>
      finds_braces file name params) fun _ _ _ _ _ _ => rfl) fun _ _ _ _ _ _ => rfl).congr
    fun ts f => derivesFunction_iff.symm).of_eq (map_function_eq file ls)

/-- Functions up to the end of the text. -/
theorem finds_functions (file : Option String) {bound : Nat} (hbound : ls.length < bound) :
    Finds (List.map (fun f => f.2.withoutSpans) <$> functions file bound) Derives Option.isNone
      ls := by
  induction bound generalizing ls with
  | zero => omega
  | succ bound ih =>
    simp only [functions, map_bind]
    refine finds_peek ?_
    split
    case isTrue h =>
      rw [map_pure]
      refine finds_many_nil fun ts us f hls hf => ?_
      rw [Option.isNone_iff_eq_none, List.head?_eq_none_iff, hls] at h
      cases hf
      cases h
    case isFalse h =>
      rw [map_cons_eq]
      exact finds_many_cons finds_function (fun f hf => by cases hf) (fun ms hms => ih (by omega))
        (fun _ _ _ _ _ => rfl) (Bool.eq_false_iff.mpr h)

/-- No tokens are left when all functions are read. -/
theorem eq_nil_of_functions {bound : Nat} {fs : List (Pos × Function)} {rest : List Lexeme}
    (h : functions file bound ls = .ok (fs, rest)) : rest = [] := by
  induction bound generalizing ls fs with
  | zero => cases h
  | succ bound ih =>
    obtain ⟨o, ms, ho, h⟩ := bind_eq_ok.mp h
    cases ho
    split at h
    case isTrue hnone =>
      cases h
      simpa using hnone
    case isFalse =>
      obtain ⟨f, ks, -, h⟩ := bind_eq_ok.mp h
      obtain ⟨gs, js, hgs, h⟩ := bind_eq_ok.mp h
      cases h
      exact ih hgs

end

end Reads

/-! ### Whole listings -/

theorem Reads.map_eq_ok {α β : Type} {r : Reads α} {g : α → β} {ls rest : List Lexeme} {b : β} :
    (g <$> r) ls = .ok (b, rest) ↔ ∃ a, r ls = .ok (a, rest) ∧ g a = b := by
  rw [map_eq_pure_bind, Reads.bind_eq_ok]
  constructor
  · rintro ⟨a, mid, hr, h⟩
    cases h
    exact ⟨a, hr, rfl⟩
  · rintro ⟨a, hr, rfl⟩
    exact ⟨a, rest, hr, rfl⟩

/-- Functions are read to the last token, and none is left over. -/
theorem readFunctions_eq_ok_iff {file : Option String} {ls : List Lexeme}
    {gs : List (Pos × Function)} : readFunctions file ls = .ok gs ↔
      Reads.functions file (ls.length + 1) ls = .ok (gs, []) := by
  unfold readFunctions
  cases h : Reads.functions file (ls.length + 1) ls with
  | error rest => simp [Except.map]
  | ok found =>
    obtain ⟨fs, rest⟩ := found
    cases Reads.eq_nil_of_functions h
    simp [Except.map]

/-- The readers take a listing as a whole exactly when its tokens are derived from the start
symbol, and give what the derivation builds. -/
theorem readFunctions_iff_derives (file : Option String) {ls : List Lexeme} {fs : List Function} :
    (∃ gs, readFunctions file ls = .ok gs ∧ gs.map (fun g => g.2.withoutSpans) = fs) ↔
      Derives (tokens ls) fs := by
  have hfinds := Reads.finds_functions file (Nat.lt_succ_self ls.length)
  simp only [readFunctions_eq_ok_iff, ← Reads.map_eq_ok]
  constructor
  · intro h
    obtain ⟨front, hls, hfs⟩ := hfinds.sound fs [] h
    rw [hls, List.append_nil]
    exact hfs
  · intro h
    exact hfinds.complete ls [] fs (List.append_nil ls).symm h rfl

/-- **The grammar is unambiguous**: a row of tokens is derived for one list of functions only. -/
theorem Derives.unique {ts : List Token} {fs gs : List Function} (hfs : Derives ts fs)
    (hgs : Derives ts gs) : fs = gs := by
  have hts : tokens (ts.map fun t => { token := t, start := {}, stop := {} }) = ts := by
    rw [tokens, List.map_map]
    exact List.map_id ts
  rw [← hts] at hfs hgs
  obtain ⟨found, hfound, rfl⟩ := (readFunctions_iff_derives none).mpr hfs
  obtain ⟨found', hfound', rfl⟩ := (readFunctions_iff_derives none).mpr hgs
  cases hfound.symm.trans hfound'
  rfl

/-- No name is repeated when all are different, and different from those seen before. -/
theorem firstRepeated?_eq_none_iff {seen : List String} {fs : List (Pos × Function)} :
    firstRepeated? seen fs = none ↔
      (fs.map fun f => f.2.name).Nodup ∧ ∀ f ∈ fs, f.2.name ∉ seen := by
  induction fs generalizing seen with
  | nil => simp [firstRepeated?]
  | cons f fs ih =>
    unfold firstRepeated?
    split
    case isTrue h =>
      simp only [reduceCtorEq, false_iff, not_and]
      intro _ hseen
      exact absurd (List.contains_iff_mem.mp h) (hseen f List.mem_cons_self)
    case isFalse h =>
      rw [List.contains_iff_mem] at h
      rw [ih, List.map_cons, List.nodup_cons]
      simp only [List.mem_cons, not_or, List.mem_map, not_exists, not_and, forall_eq_or_imp]
      grind

end Listing

open Listing

/-- The text is a **listing** of the program: its tokens are derived from the start symbol by a
derivation that builds the functions, and no two of these have the same name. -/
def Program.ListedBy (P : Program) (text : String) : Prop :=
  (∃ ts, Splits text.toList ts ∧ Derives ts P.functions) ∧ (P.functions.map Function.name).Nodup

theorem Program.parse_eq_ok_iff {text : String} {file : Option String} {P : Program} :
    Program.parse text file = .ok P ↔ (scan text).ending = .text ∧
      ∃ fs, readFunctions file (scan text).lexemes = .ok fs ∧ firstRepeated? [] fs = none ∧
        P = { functions := fs.map (·.2) } := by
  simp only [Program.parse]
  cases readFunctions file (scan text).lexemes with
  | error rest => simp
  | ok fs =>
    cases (scan text).ending with
    | bad pos => simp
    | text =>
      cases hrepeated : firstRepeated? [] fs with
      | some f => simp [hrepeated]
      | none => simp [hrepeated, eq_comm]

theorem Program.parse_iff_listedBy {text : String} (file : Option String) {P : Program} :
    (∃ Q, Program.parse text file = .ok Q ∧ Q.withoutSpans = P) ↔ P.ListedBy text := by
  constructor
  · rintro ⟨Q, hQ, rfl⟩
    obtain ⟨hending, fs, hfs, hnone, rfl⟩ := parse_eq_ok_iff.mp hQ
    refine ⟨⟨_, scan_eq_text_iff.mp ⟨hending, rfl⟩, ?_⟩, ?_⟩
    · refine (readFunctions_iff_derives file).mp ⟨fs, hfs, ?_⟩
      simp [Program.withoutSpans]
    · have hnodup := (firstRepeated?_eq_none_iff.mp hnone).1
      simpa [Program.withoutSpans, Function.withoutSpans, Function.comp_def] using hnodup
  · rintro ⟨⟨ts, hts, hP⟩, hnodup⟩
    obtain ⟨hending, rfl⟩ := scan_eq_text_iff.mpr hts
    obtain ⟨fs, hfs, hmap⟩ := (readFunctions_iff_derives file).mpr hP
    refine ⟨_, parse_eq_ok_iff.mpr ⟨hending, fs, hfs, firstRepeated?_eq_none_iff.mpr ⟨?_, ?_⟩, rfl⟩,
      ?_⟩
    · rw [← hmap] at hnodup
      simpa [Function.withoutSpans, Function.comp_def] using hnodup
    · simp
    · cases P
      simpa [Program.withoutSpans, Function.comp_def] using hmap

/-- **Reading a listing accepts the grammar and nothing else.** A text is read exactly when it is
the listing of a program, and then that program is what is read, apart from the spans. A text has at
most one row of tokens, and this at most one derivation. In all other cases a fault is reported. -/
theorem Program.parse_recognizes_listings (text : String) (file : Option String) :
    ((∃ Q, Program.parse text file = .ok Q) ↔ ∃ P : Program, P.ListedBy text) ∧
    (∀ P : Program, P.ListedBy text ↔ ∃ Q, Program.parse text file = .ok Q ∧ Q.withoutSpans = P) ∧
    (∀ ts us fs gs, Splits text.toList ts → Derives ts fs → Splits text.toList us → Derives us gs →
      ts = us ∧ fs = gs) ∧
    ((∃ fault, Program.parse text file = .error fault) ↔ ¬ ∃ P : Program, P.ListedBy text) := by
  have haccepted : (∃ Q, Program.parse text file = .ok Q) ↔ ∃ P : Program, P.ListedBy text := by
    simp only [← Program.parse_iff_listedBy file]
    constructor
    · rintro ⟨Q, hQ⟩
      exact ⟨_, Q, hQ, rfl⟩
    · rintro ⟨_, Q, hQ, -⟩
      exact ⟨Q, hQ⟩
  refine ⟨haccepted, fun P => (Program.parse_iff_listedBy file).symm, ?_, ?_⟩
  · intro ts us fs gs hts hfs hus hgs
    cases hts.unique hus
    exact ⟨rfl, hfs.unique hgs⟩
  · rw [← haccepted]
    cases Program.parse text file with
    | error fault => simp
    | ok Q => simp

/-- A program with references in references, projections after a dereference and the other way
round, and a name that begins with a keyword. -/
def nestedProgram : Program where
  functions := [
    { name := "f"
      params := [{ name := "x", ty := Ty.mk "A" [Ty.named "B"] (some .shared) }]
      ops := [
        .ret 1 none,
        .use 2 { base := "x", path := [.deref, .field "a", .any (some "i")] },
        .deref 3 { base := "x", path := [.field "a", .index 7, .deref] }] },
    { name := "mute" }]

/-- A listing of it that has comments and brackets to spare. -/
def nestedText : String :=
  "fn f(x: &&mut A<B>) \x7b # x\n 1:return 2:use (*x).a[i]\n" ++
    "3:deref *((x)).a[07]\x7dfn mute()\x7b\x7d"

theorem Program.parse_recognizes_listings_nested :
    nestedProgram.ListedBy nestedText ∧
      ¬ ∃ P : Program, P.ListedBy "fn f() \x7b 1: return 2 \x7d" := by
  constructor
  · refine ((Program.parse_recognizes_listings nestedText none).2.1 nestedProgram).mpr ?_
    have hread : (Program.parse nestedText none).toOption.map Program.withoutSpans =
        some nestedProgram := by decide +kernel
    cases hQ : Program.parse nestedText none with
    | error fault =>
      rw [hQ] at hread
      cases hread
    | ok Q =>
      rw [hQ] at hread
      exact ⟨Q, rfl, Option.some.inj hread⟩
  · have hread : (Program.parse "fn f() \x7b 1: return 2 \x7d" none).toOption = none := by
      decide +kernel
    refine (Program.parse_recognizes_listings _ none).2.2.2.mp ?_
    cases hQ : Program.parse "fn f() \x7b 1: return 2 \x7d" none with
    | error fault => exact ⟨fault, rfl⟩
    | ok Q =>
      rw [hQ] at hread
      cases hread

end BorrowCheck
