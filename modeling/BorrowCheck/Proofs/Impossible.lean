import BorrowCheck.Proofs.Viable

/-!
# The first impossible token

Each reader of the grammar follows the phrases of its symbol: it takes tokens as long as a phrase
can go on with them. So the readers of a listing stop at its end, or at the first token that no
listing can have there (`BorrowCheck.Listing.Reads.follows_functions`).
-/

namespace BorrowCheck.Listing

namespace Reads

/-! ### Places -/

section

variable {bound : Nat} {ls : List Lexeme}

/-- The rest of an index in brackets, and the projections after it. -/
theorem follows_index {x : Place} {t : Token} {p : Proj}
    (hp : DerivesProj [.leftBracket, t, .rightBracket] p) (h : (tokens ls).head? = some t)
    (hmore : ∀ ms, ms.length < ls.length → Follows (projections bound (x.append [p]))
      (fun ts y => ∃ ps, Many DerivesProj ts ps ∧ y = x.append (p :: ps)) ms) :
    Follows (do skip; token .rightBracket; projections bound (x.append [p]))
      (fun ts y => ∃ ps, Many DerivesProj (.leftBracket :: ts) ps ∧ y = x.append ps) ls := by
  refine follows_skip h fun l ms hls => ?_
  refine (follows_after rfl (begins_of_phrase ⟨[], .nil, rfl⟩) fun m ks hms => hmore ks ?_).congr
    fun ts y => (projections_bracket_iff hp).symm
  rw [hls, hms, List.length_cons, List.length_cons]
  omega

/-- Projections, by induction on the bound: they end at the first token that begins none. -/
theorem follows_projections (hbound : ls.length < bound) (x : Place) :
    Follows (projections bound x) (fun ts y => ∃ ps, Many DerivesProj ts ps ∧ y = x.append ps)
      ls := by
  induction bound generalizing ls x with
  | zero => omega
  | succ bound ih =>
    have hmore : ∀ p ms, ms.length < ls.length → Follows (projections bound (x.append [p]))
        (fun ts y => ∃ ps, Many DerivesProj ts ps ∧ y = x.append (p :: ps)) ms := by
      intro p ms hms
      refine (ih (by omega) (x.append [p])).congr fun ts y => ?_
      simp [Place.append]
    refine follows_peek ?_
    split
    case h_1 h =>
      refine follows_skip h fun l ms hls => ?_
      refine (follows_name.bind finds_name (fun n front rest hrest _ => hmore (.field n) rest ?_)
        (fun n => begins_of_phrase ⟨[], .nil, rfl⟩) fun _ _ _ _ _ => rfl).congr
        fun ts y => projections_dot_iff.symm
      rw [hls, hrest, List.length_cons, List.length_append]
      omega
    case h_2 h =>
      refine follows_skip h fun l ms hls => ?_
      have hshort : ms.length < ls.length := by
        rw [hls, List.length_cons]
        omega
      refine follows_peek ?_
      split
      case h_1 value h =>
        exact follows_index (.index value) h fun ks hks => hmore _ ks (Nat.lt_trans hks hshort)
      case h_2 label h =>
        exact follows_index (.any label) h fun ks hks => hmore _ ks (Nat.lt_trans hks hshort)
      case h_3 hnumber hname =>
        refine follows_fail ?_ ?_
        · have hindex : Many DerivesProj [.leftBracket, .number 0, .rightBracket] [.index 0] :=
            .cons (DerivesProj.index 0) .nil
          exact ⟨_, _, spellable_number.append (spellable_fixed rfl), _, hindex, rfl⟩
        · rintro t ts y hhead ⟨ps, hps, -⟩
          obtain ⟨vs, ⟨value, hts⟩ | ⟨label, hts⟩⟩ := exists_of_many_bracket hps
          · exact hnumber value (by rw [hhead, (List.cons.inj hts).1])
          · exact hname label (by rw [hhead, (List.cons.inj hts).1])
    case h_3 hdot hbracket =>
      refine (follows_pure x).imp ?_ ?_
      · rintro ts y ⟨rfl, rfl⟩
        exact ⟨[], .nil, by simp [Place.append]⟩
      · rintro t ts y hhead ⟨ps, hps, rfl⟩
        obtain ⟨us, vs, p, qs, -, -, hp, -⟩ := (many_cons_iff not_derivesProj_nil).mp hps
        cases hp with
        | field => exact absurd hhead hdot
        | index => exact absurd hhead hbracket
        | any => exact absurd hhead hbracket

/-- A place, by induction on the bound: brackets leave less to read. -/
theorem follows_placeWithin (hbound : ls.length < bound) :
    Follows (placeWithin bound) DerivesPlace ls := by
  induction bound generalizing ls with
  | zero => omega
  | succ bound ih =>
    have hinner : ∀ l ms, ls = l :: ms → ms.length < bound := by
      rintro l ms rfl
      exact Nat.lt_of_succ_lt_succ hbound
    refine follows_peek ?_
    split
    case h_1 h =>
      exact follows_skip h fun l ms hls => ((ih (hinner l ms hls)).bind_pure _).congr
        fun ts y => derivesPlace_star_iff.symm
    case h_2 h =>
      refine follows_skip h fun l ms hls => ((ih (hinner l ms hls)).bind
        (finds_placeWithin (hinner l ms hls)) (fun x _ _ _ _ => follows_after rfl ?_
          fun _ _ _ => follows_left (follows_projections (Nat.lt_succ_self _) x)) ?_ ?_).congr
        fun ts y => derivesPlace_leftParen_iff.symm
      · exact begins_of_phrase ⟨[], .nil, rfl⟩
      · exact fun x => begins_after rfl (begins_of_phrase ⟨[], .nil, rfl⟩)
      · rintro x t ts y ⟨us, hts, -⟩
        rw [(List.cons.inj hts).1]
        rfl
    case h_3 base h =>
      exact follows_skip h fun l ms _ => follows_left ((follows_projections (Nat.lt_succ_self _)
        { base }).congr fun ts y => derivesPlace_name_iff.symm)
    case h_4 hstar hparen hname =>
      refine follows_fail begins_place fun t ts x hhead hx => ?_
      cases hx with
      | deref => exact hstar hhead
      | name base => exact hname base hhead
      | group => exact hparen hhead

theorem follows_place : Follows place DerivesPlace ls :=
  follows_left (follows_placeWithin (Nat.lt_succ_self _))

/-! ### Types -/

/-- A type, by induction on the bound: arguments leave less to read. -/
theorem follows_typeWithin (hbound : ls.length < bound) :
    Follows (typeWithin bound) DerivesType ls := by
  induction bound generalizing ls with
  | zero => omega
  | succ bound ih =>
    have hinner : ∀ l ms ks, ls = l :: ms → ks <:+ ms → ks.length < bound := by
      rintro l ms ks rfl hks
      have := hks.length_le
      rw [List.length_cons] at hbound
      omega
    refine follows_peek ?_
    split
    case h_1 h =>
      refine follows_skip h fun l ms hls => (follows_kind_then (g := fun kind t => t.refTo kind)
        begins_type (fun ks hks => ih (hinner l ms ks hls hks)) ?_).congr
        fun ts t => derivesType_ampersand_iff.symm
      intro ts t ht
      cases ht <;> exact ⟨_, _, rfl, by simp⟩
    case h_2 text h =>
      refine follows_skip h fun l ms hls => ?_
      simp only [derivesType_name_iff]
      refine follows_option .leftAngle (fun m ks hms => ?_) rfl
      have hargs : ∀ js, js <:+ ks → Follows (typeWithin bound) DerivesType js ∧
          Finds (typeWithin bound) DerivesType endsType js := fun js hjs =>
        have hshort := hinner l ms js hls (hms ▸ hjs.trans (List.suffix_cons m ks))
        ⟨ih hshort, finds_typeWithin hshort⟩
      exact follows_items_close rfl hargs rfl rfl (by simp) _
    case h_3 hamp hname =>
      refine follows_fail begins_type fun t ts x hhead hx => ?_
      cases hx with
      | ref => exact hamp hhead
      | named name => exact hname name hhead
      | applied name => exact hname name hhead

theorem follows_type : Follows type DerivesType ls :=
  follows_left (follows_typeWithin (Nat.lt_succ_self _))

/-! ### Statements -/

/-- An argument begins with an ampersand or is a place. -/
theorem follows_arg : Follows arg DerivesArg ls := by
  refine follows_token? .ampersand (fun l ms _ => ?_) fun hhead => ?_
  · exact (follows_kind_then begins_place (fun _ _ => follows_place) derivesPlace_head_ne).congr
      fun ts a => derivesArg_ampersand_iff.symm
  · refine (follows_place.bind_pure _).imp ?_ ?_
    · rintro ts a ⟨x, hx, rfl⟩
      exact .value hx
    · intro t ts a ht ha
      cases ha with
      | value hx => exact ⟨_, hx, rfl⟩
      | lend => exact absurd ht hhead

/-- A place, and the rest of the statement. -/
theorem follows_place_then {α : Type} {f : Place → Reads α} {S : Place → List Token → α → Prop}
    (hf : ∀ x ms, Follows (f x) (S x) ms) (hbegins : ∀ x, Begins (S x) [])
    (hS : ∀ x ts a, S x ts a → endsPlace ts.head? = true) :
    Follows (place >>= f) (fun ts a => ∃ x us vs, ts = us ++ vs ∧ DerivesPlace us x ∧ S x vs a)
      ls :=
  follows_place.bind finds_place (fun x _ rest _ _ => hf x rest) hbegins
    fun x t ts a ha => hS x (t :: ts) a ha

variable {p : Point}

/-- The sources of an assignment. -/
theorem follows_sources (x : Place) :
    Follows (do if ← token? .equals then return Operation.assign p x (← items place)
                else return Operation.assign p x [])
      (fun ts op => (ts = [] ∧ op = Operation.assign p x []) ∨ After .equals (fun us op =>
        ∃ sources, Commas DerivesPlace us sources ∧ op = Operation.assign p x sources) ts op)
      ls :=
  follows_option .equals (fun _ _ _ =>
    (follows_items (fun _ _ => ⟨follows_place, finds_place⟩) rfl).bind_pure _) rfl

/-- The arguments of a call. -/
theorem follows_args : Follows (itemsUntil .rightParen arg)
    (fun ts args => ∃ us, ts = us ++ [.rightParen] ∧ Listed DerivesArg us args) ls :=
  follows_itemsUntil rfl (fun _ _ => ⟨follows_arg, finds_arg⟩) derivesArg_head_ne rfl rfl (by simp)

/-- Where the result of a call goes. -/
theorem follows_result (callee : String) (args : List Arg) :
    Follows (do if ← token? .arrow then return Operation.call p callee args (some (← place))
                else return Operation.call p callee args none)
      (fun ts op => (ts = [] ∧ op = Operation.call p callee args none) ∨ After .arrow (fun us op =>
        ∃ x, DerivesPlace us x ∧ op = Operation.call p callee args (some x)) ts op)
      ls :=
  follows_option .arrow (fun _ _ _ => follows_place.bind_pure _) rfl

/-- A call can have no arguments and no result. -/
theorem begins_args (callee : String) :
    Begins (fun ts op => ∃ args us vs, ts = us ++ vs ∧
      (∃ ws, us = ws ++ [.rightParen] ∧ Listed DerivesArg ws args) ∧
      ((vs = [] ∧ op = Operation.call p callee args none) ∨ After .arrow (fun us op =>
        ∃ x, DerivesPlace us x ∧ op = Operation.call p callee args (some x)) vs op)) [] :=
  ⟨_, _, spellable_fixed rfl, [], _, [], rfl, ⟨[], rfl, .inl ⟨rfl, rfl⟩⟩, .inl ⟨rfl, rfl⟩⟩

/-- A call, with or without a result. -/
theorem follows_call :
    Follows (do let callee ← name
                token .leftParen
                let args ← itemsUntil .rightParen arg
                if ← token? .arrow then return Operation.call p callee args (some (← place))
                else return Operation.call p callee args none)
      (fun ts op => DerivesStatement p (.keyword .call :: ts) op) ls := by
  exact (follows_name.bind finds_name (fun callee _ _ _ _ => follows_after rfl (begins_args callee)
    fun _ _ _ => follows_args.bind finds_args (fun args _ _ _ _ => follows_result callee args)
      (fun args => begins_of_phrase (.inl ⟨rfl, rfl⟩)) fun _ _ _ _ _ => rfl)
    (fun callee => begins_after rfl (begins_args callee)) fun _ _ _ _ _ => rfl).congr
    fun ts op => derivesStatement_call_iff.symm

/-- A return, with or without a value: the next token tells which. -/
theorem follows_ret :
    Follows (do if startsPlace (← peek) then return Operation.ret p (some (← place))
                else return Operation.ret p none)
      (fun ts op => DerivesStatement p (.keyword .ret :: ts) op) ls := by
  refine follows_peek ?_
  split
  case isTrue hstarts =>
    refine (follows_place.bind_pure _).imp ?_ ?_
    · rintro ts op ⟨s, hs, rfl⟩
      exact .retOf hs
    · intro t ts op _ h
      cases h with
      | retOf hs => exact ⟨_, hs, rfl⟩
  case isFalse hstarts =>
    refine (follows_pure _).imp ?_ ?_
    · rintro ts op ⟨rfl, rfl⟩
      exact .ret
    · intro t ts op hhead h
      cases h with
      | retOf hs =>
        refine absurd ?_ hstarts
        rw [hhead]
        cases hs <;> rfl

/-- A statement follows the rule of its keyword. -/
theorem follows_statement {word : Keyword} {body : Reads Operation}
    (h : statement p word = some body) :
    Follows body (fun ts op => DerivesStatement p (.keyword word :: ts) op) ls := by
  cases word with
  | function => cases h
  | mutable => cases h
  | declare =>
    cases h
    refine (follows_place_then (fun x _ => follows_after rfl (begins_type.map _) fun _ _ _ =>
      follows_type.bind_pure _) (fun x => begins_after rfl (begins_type.map _)) ?_).congr
      fun ts op => derivesStatement_declare_iff.symm
    rintro x ts op ⟨us, rfl, -⟩
    rfl
  | move =>
    cases h
    refine (follows_place_then (fun x _ => follows_after rfl (begins_place.map _) fun _ _ _ =>
      follows_place.bind_pure _) (fun x => begins_after rfl (begins_place.map _)) ?_).congr
      fun ts op => derivesStatement_move_iff.symm
    rintro x ts op ⟨us, rfl, -⟩
    rfl
  | assign =>
    cases h
    refine (follows_place_then (fun x _ => follows_sources x)
      (fun x => begins_of_phrase (.inl ⟨rfl, rfl⟩)) ?_).congr
      fun ts op => derivesStatement_assign_iff.symm
    rintro x ts op (⟨rfl, -⟩ | ⟨us, rfl, -⟩)
    · rfl
    · rfl
  | borrow =>
    cases h
    have hsource : ∀ x : Place, Begins (fun ts op => ∃ kind us s, ts = kindTokens kind ++ us ∧
        DerivesPlace us s ∧ op = Operation.borrow p kind x s) [] := fun x => by
      obtain ⟨us, s, hus, hs⟩ := begins_place
      exact ⟨us, _, hus, .shared, us, s, rfl, hs, rfl⟩
    refine (follows_place_then (fun x _ => follows_after rfl (begins_after rfl (hsource x))
      fun _ _ _ => follows_after rfl (hsource x) fun _ _ _ => follows_kind_then begins_place
        (fun _ _ => follows_place) derivesPlace_head_ne)
      (fun x => begins_after rfl (begins_after rfl (hsource x))) ?_).congr
      fun ts op => derivesStatement_borrow_iff.symm
    rintro x ts op ⟨us, rfl, -⟩
    rfl
  | deref =>
    cases h
    exact (follows_place.bind_pure _).congr fun ts op => derivesStatement_deref_iff.symm
  | use =>
    cases h
    exact (follows_place.bind_pure _).congr fun ts op => derivesStatement_use_iff.symm
  | call =>
    cases h
    exact follows_call
  | ret =>
    cases h
    exact follows_ret
  | enter =>
    cases h
    exact (follows_pure _).congr fun ts op => derivesStatement_enter_iff.symm
  | exit =>
    cases h
    exact (follows_pure _).congr fun ts op => derivesStatement_exit_iff.symm

/-! ### Operations -/

theorem follows_get {α : Type} {f : List Lexeme → Reads α} {R : List Token → α → Prop}
    (h : Follows (f ls) R ls) : Follows (get >>= f) R ls :=
  h.of_eq rfl

variable {file : Option String}

theorem begins_statement : Begins (DerivesStatement p) [] :=
  ⟨_, _, spellable_fixed rfl, .ret⟩

/-- A statement after its point. -/
theorem follows_operation :
    Follows (Operation.withoutSpan <$> operation file) DerivesOp ls := by
  simp only [operation, map_bind]
  refine follows_get ?_
  refine (follows_number.bind finds_number
    (S := fun n : Nat => After .colon (DerivesStatement n)) ?_
    (fun _ => begins_after rfl begins_statement) fun _ _ _ _ _ => rfl).congr
    fun ts op => derivesOp_iff.symm
  intro n _ rest _ _
  refine follows_after rfl begins_statement fun _ ms _ => follows_peek ?_
  split
  case h_1 word h =>
    split
    case h_1 body hbody =>
      rw [map_bind]
      refine follows_skip h fun _ _ _ => ?_
      -- the span is set and forgotten again, and a derivation has none
      refine (((follows_statement hbody).bind_pure Operation.withoutSpan).congr
        fun ts op => ?_).of_eq (by rw [map_bind]; rfl)
      constructor
      · rintro ⟨op, hop, rfl⟩
        rw [hop.withoutSpan_eq]
        exact hop
      · intro hop
        exact ⟨op, hop, hop.withoutSpan_eq.symm⟩
    case h_2 hnone =>
      refine (follows_fail begins_statement fun t ts op hhead hop => ?_).of_eq rfl
      rw [h] at hhead
      cases hhead
      exact not_derivesStatement hnone hop
  case h_2 h =>
    refine (follows_fail begins_statement fun t ts op hhead hop => ?_).of_eq rfl
    obtain ⟨word, vs, hts⟩ := hop.exists_keyword
    exact h word (by rw [hhead, (List.cons.inj hts).1])

theorem not_derivesOp_nil (op : Operation) : ¬ DerivesOp [] op := by
  intro h
  cases h

/-- The lines of a body, by induction on the bound: every line leaves less to read. -/
theorem follows_operations {bound : Nat} (hbound : ls.length < bound) :
    Follows (List.map Operation.withoutSpan <$> operations file bound) (Many DerivesOp) ls := by
  induction bound generalizing ls with
  | zero => omega
  | succ bound ih =>
    simp only [operations, map_bind]
    refine follows_peek ?_
    split
    case h_1 n h =>
      rw [map_cons_eq]
      refine follows_many_cons follows_operation finds_operation not_derivesOp_nil
        (fun ms hms => ih (by omega)) fun t ts op hop => ?_
      obtain ⟨n, us, hts⟩ := hop.exists_number
      rw [(List.cons.inj hts).1]
      rfl
    case h_2 h =>
      rw [map_pure]
      refine follows_many_nil not_derivesOp_nil fun t ts op hhead hop => ?_
      obtain ⟨n, vs, hts⟩ := hop.exists_number
      exact h n (by rw [hhead, (List.cons.inj hts).1])

/-! ### Functions -/

theorem follows_param : Follows param DerivesParam ls := by
  exact (follows_name.bind finds_name (S := fun n => After .colon fun ts a => ∃ t,
    DerivesType ts t ∧ a = { name := n, ty := t }) (fun n _ _ _ _ =>
      follows_after rfl (begins_type.map _) fun _ _ _ => follows_type.bind_pure _)
      (fun n => begins_after rfl (begins_type.map _)) fun _ _ _ _ _ => rfl).congr
      fun ts a => derivesParam_iff.symm

/-- The parameters, up to the bracket that ends them. -/
theorem follows_params : Follows (itemsUntil .rightParen param)
    (fun ts params => ∃ us, ts = us ++ [.rightParen] ∧ Listed DerivesParam us params) ls := by
  refine follows_itemsUntil rfl (fun _ _ => ⟨follows_param, finds_param⟩) ?_ rfl rfl (by simp)
  rintro _ _ ⟨n, -⟩
  exact ⟨_, _, rfl, by simp⟩

theorem follows_body :
    Follows (do List.map Operation.withoutSpan <$> operations file ((← left) + 1))
      (Many DerivesOp) ls :=
  follows_left (follows_operations (Nat.lt_succ_self _))

/-- The body of a function can be empty. -/
theorem begins_body (name : String) (params : List Param) :
    Begins (fun ts f => ∃ us ops, ts = us ++ [.rightBrace] ∧ Many DerivesOp us ops ∧
      f = ({ name, params, ops } : Function)) [] :=
  ⟨_, _, spellable_fixed rfl, [], [], rfl, .nil, rfl⟩

/-- The body of a function with its braces. -/
theorem follows_braces (file : Option String) (name : String) (params : List Param) : Follows
    (do token .leftBrace
        let ops ← (do List.map Operation.withoutSpan <$> operations file ((← left) + 1))
        token .rightBrace
        return ({ name, params, ops } : Function))
    (After .leftBrace fun ts f => ∃ us ops, ts = us ++ [.rightBrace] ∧ Many DerivesOp us ops ∧
      f = { name, params, ops }) ls := by
  refine follows_after rfl (begins_body name params) fun _ _ _ => (follows_body.bind finds_body
    (fun ops _ _ _ _ => (follows_token rfl).bind_pure _) (fun ops => ?_) ?_).congr fun ts f => ?_
  · exact ⟨_, _, spellable_fixed rfl, (), rfl, rfl⟩
  · rintro ops t ts f ⟨_, hts, -⟩
    rw [(List.cons.inj hts).1]
    rfl
  · constructor
    · rintro ⟨ops, us, _, rfl, hops, _, rfl, rfl⟩
      exact ⟨us, ops, rfl, hops, rfl⟩
    · rintro ⟨us, ops, rfl, hops, rfl⟩
      exact ⟨ops, us, _, rfl, hops, (), rfl, rfl⟩

theorem not_derivesFunction_nil (f : Function) : ¬ DerivesFunction [] f := by
  intro h
  cases h

/-- A function can have no parameters and an empty body. -/
theorem begins_params (name : String) :
    Begins (fun ts f => ∃ params us vs, ts = us ++ vs ∧
      (∃ ws, us = ws ++ [.rightParen] ∧ Listed DerivesParam ws params) ∧
      After .leftBrace (fun ts f => ∃ us ops, ts = us ++ [.rightBrace] ∧
        Many DerivesOp us ops ∧ f = ({ name, params, ops } : Function)) vs f) [] := by
  obtain ⟨vs, f, hvs, hf⟩ := begins_after (t := .leftBrace) rfl (begins_body name [])
  exact ⟨.rightParen :: vs, f, (spellable_fixed rfl).append hvs, [], [.rightParen], vs, rfl,
    ⟨[], rfl, .inl ⟨rfl, rfl⟩⟩, hf⟩

/-- A function from its first word to its last bracket. -/
theorem follows_function :
    Follows ((fun f => f.2.withoutSpans) <$> function file) DerivesFunction ls := by
  refine ((follows_after rfl ?_ fun _ _ _ => follows_name.bind finds_name (fun name _ _ _ _ =>
    follows_after rfl (begins_params name) fun _ _ _ => follows_params.bind finds_params
      (fun params _ _ _ _ => follows_braces file name params)
      (fun params => begins_after rfl (begins_body name params)) fun _ _ _ _ _ => rfl)
    (fun name => begins_after rfl (begins_params name))
      fun _ _ _ _ _ => rfl).congr
    fun ts f => derivesFunction_iff.symm).of_eq (map_function_eq file ls)
  obtain ⟨vs, f, hvs, hf⟩ := begins_after (t := .leftParen) rfl (begins_params "x")
  exact ⟨.name "x" :: vs, f, spellable_name.append hvs, "x", _, vs, rfl, rfl, hf⟩

/-- **Functions up to the end of the text.** -/
theorem follows_functions (file : Option String) {bound : Nat} (hbound : ls.length < bound) :
    Follows (List.map (fun f => f.2.withoutSpans) <$> functions file bound) Derives ls := by
  induction bound generalizing ls with
  | zero => omega
  | succ bound ih =>
    simp only [functions, map_bind]
    refine follows_peek ?_
    split
    case isTrue h =>
      rw [map_pure]
      refine follows_many_nil not_derivesFunction_nil fun t ts f hhead _ => ?_
      rw [hhead] at h
      cases h
    case isFalse h =>
      rw [map_cons_eq]
      exact follows_many_cons follows_function finds_function not_derivesFunction_nil
        (fun ms hms => ih (by omega)) fun _ _ _ _ => rfl

end

end Reads

end BorrowCheck.Listing
