import BorrowCheck.Proofs.Recognition

/-!
# Where readers stop

A reader takes tokens from the front until it has read its phrase, or until it comes to a token that
it cannot take. In both cases what it took is the longest front part with which some phrase begins
(`BorrowCheck.Listing.Reads.Follows`): the tokens taken can be completed to a phrase, and with one
token more they no longer can. For a whole listing this is the *viable prefix property*: a fault is
found at the first token at which no listing can go on
(`BorrowCheck.Listing.Reads.follows_functions`).

As for `BorrowCheck.Listing.Reads.Finds`, there is one rule for each way in which readers are put
together. For two phrases in a row it is not enough that each reader stops where it should: the
first phrase must not be one that the reader could have ended earlier. That it takes the phrases
that are followed by the beginning of the second one is what `Finds` says.

Completions consist of tokens that can be written, so that they are completions of texts.
-/

namespace BorrowCheck.Listing

/-! ### Beginnings of phrases -/

/-- The tokens can be written. -/
def Spellable (ts : List Token) : Prop :=
  ∀ t ∈ ts, ∃ word, Token.Spells word t

theorem spellable_nil : Spellable [] :=
  List.forall_mem_nil _

theorem Spellable.append {ts us : List Token} (hts : Spellable ts) (hus : Spellable us) :
    Spellable (ts ++ us) :=
  List.forall_mem_append.mpr ⟨hts, hus⟩

/-- Tokens with a text of their own can be written. -/
theorem spellable_fixed {t : Token} (h : t.fixedText?.isSome = true) : Spellable [t] := by
  intro u hu
  rw [List.mem_singleton.mp hu]
  exact ⟨_, .fixed (Option.eq_some_of_isSome h)⟩

section

variable {α : Type} {R S : List Token → α → Prop} {ts : List Token}

/-- Some phrase of `R` **begins** with the tokens `ts`. -/
def Begins (R : List Token → α → Prop) (ts : List Token) : Prop :=
  ∃ us a, Spellable us ∧ R (ts ++ us) a

theorem Begins.imp (h : Begins R ts) (hRS : ∀ ts a, R ts a → S ts a) : Begins S ts := by
  obtain ⟨us, a, hus, hR⟩ := h
  exact ⟨us, a, hus, hRS _ a hR⟩

/-- A phrase begins itself. -/
theorem begins_of_phrase {a : α} (h : R ts a) : Begins R ts :=
  ⟨[], a, spellable_nil, by rwa [List.append_nil]⟩

theorem Begins.map {β : Type} (h : Begins R ts) (g : α → β) :
    Begins (fun ts b => ∃ a, R ts a ∧ b = g a) ts := by
  obtain ⟨us, a, hus, hR⟩ := h
  exact ⟨us, g a, hus, a, hR, rfl⟩

/-- A token that has to come first can be supplied. -/
theorem begins_after {t : Token} (ht : t.fixedText?.isSome = true) (h : Begins R []) :
    Begins (After t R) [] := by
  obtain ⟨us, a, hus, hR⟩ := h
  exact ⟨t :: us, a, (spellable_fixed ht).append hus, us, rfl, hR⟩

end

theorem spellable_name : Spellable [.name "x"] := by
  intro u hu
  rw [List.mem_singleton.mp hu]
  exact ⟨['x'], .name rfl (List.forall_mem_nil _) fun k => by cases k <;> decide⟩

/-- Every place can be supplied, as there is a name. -/
theorem begins_place : Begins DerivesPlace [] :=
  ⟨_, _, spellable_name, .name "x" .nil⟩

theorem begins_type : Begins DerivesType [] :=
  ⟨_, _, spellable_name, .named "x"⟩

/-- A row of tokens that is divided in two ways, once after the tokens of `front` and once after
`us`. Then `us` goes on beyond the token of `l`, or it stands at the front of the row
`front ++ l :: ms`, which goes on after it as `vs` does. -/
theorem append_cases {front : List Lexeme} {l : Lexeme} {us vs ws : List Token}
    (h : tokens front ++ l.token :: ws = us ++ vs) (ms : List Lexeme) :
    (∃ xs, us = tokens front ++ l.token :: xs) ∨
      ∃ first second t vs', front ++ l :: ms = first ++ second ∧ us = tokens first ∧
        vs = t :: vs' ∧ (tokens second).head? = some t := by
  rcases List.append_eq_append_iff.mp h with ⟨xs, rfl, hvs⟩ | ⟨xs, hfront, rfl⟩
  · cases xs with
    | nil =>
      refine .inr ⟨front, l :: ms, l.token, ws, rfl, List.append_nil _, hvs.symm, rfl⟩
    | cons x xs =>
      obtain ⟨rfl, -⟩ := List.cons.inj hvs
      exact .inl ⟨xs, rfl⟩
  · obtain ⟨first, second, rfl, rfl, rfl⟩ := List.map_eq_append_iff.mp hfront
    refine .inr ⟨first, second ++ l :: ms, ?_⟩
    cases second with
    | nil => exact ⟨l.token, ws, List.append_assoc .., rfl, rfl, rfl⟩
    | cons m second => exact ⟨m.token, _, List.append_assoc .., rfl, rfl, rfl⟩

namespace Reads

/-! ### What a reader leaves -/

section

variable {α β : Type} {r r' : Reads α} {f : α → Reads β} {R S : List Token → α → Prop}
  {stop : Option Token → Bool} {l : Lexeme} {ls : List Lexeme}

/-- What is left of the tokens, whether the reader has read its phrase or failed. -/
def leaves (r : Reads α) (ls : List Lexeme) : List Lexeme :=
  match r ls with
  | .ok (_, rest) => rest
  | .error rest => rest

/-- A reader that succeeds leaves what it did not read. -/
theorem leaves_of_ok {a : α} {rest : List Lexeme} (h : r ls = .ok (a, rest)) :
    leaves r ls = rest := by
  rw [leaves, h]

/-- A reader that fails leaves the tokens from the impossible one on. -/
theorem leaves_of_error {rest : List Lexeme} (h : r ls = .error rest) : leaves r ls = rest := by
  rw [leaves, h]

/-- The second reader goes on where the first one stopped. -/
theorem leaves_bind_of_ok {a : α} {mid : List Lexeme} (h : r ls = .ok (a, mid)) :
    leaves (r >>= f) ls = leaves (f a) mid := by
  have hbind : (r >>= f) ls = f a mid := by
    change (r ls >>= fun x => f x.1 x.2) = _
    rw [h]
    rfl
  rw [leaves, hbind, leaves]

theorem leaves_bind_of_error {rest : List Lexeme} (h : r ls = .error rest) :
    leaves (r >>= f) ls = rest := by
  refine leaves_of_error ?_
  change (r ls >>= fun x => f x.1 x.2) = _
  rw [h]
  rfl

theorem leaves_map (g : α → β) : leaves (g <$> r) ls = leaves r ls := by
  rw [map_eq_pure_bind]
  cases h : r ls with
  | error rest => rw [leaves_bind_of_error h, leaves_of_error h]
  | ok found => rw [leaves_bind_of_ok h, leaves_of_ok h]; rfl

/-- The reader **follows** the phrases of `R` at the front of `ls`: the tokens that it takes are the
beginning of a phrase, and with the next token they are no more. -/
def Follows (r : Reads α) (R : List Token → α → Prop) (ls : List Lexeme) : Prop :=
  ∃ front, ls = front ++ leaves r ls ∧ Begins R (tokens front) ∧
    ∀ l ms, leaves r ls = l :: ms → ∀ us a, ¬ R (tokens front ++ l.token :: us) a

theorem Follows.of_eq (h : Follows r' R ls) (he : r ls = r' ls) : Follows r R ls := by
  unfold Follows leaves at h ⊢
  rw [he]
  exact h

/-- The phrases may be described differently, as far as they begin with the first token of `ls`. -/
theorem Follows.imp (h : Follows r R ls) (hsub : ∀ ts a, R ts a → S ts a)
    (hhead : ∀ t ts a, (tokens ls).head? = some t → S (t :: ts) a → R (t :: ts) a) :
    Follows r S ls := by
  obtain ⟨front, hls, hbegins, hnext⟩ := h
  refine ⟨front, hls, hbegins.imp hsub, fun l ms hrest us a hS => hnext l ms hrest us a ?_⟩
  rw [hrest] at hls
  cases front with
  | nil => exact hhead _ _ a (by rw [hls]; rfl) hS
  | cons m front => exact hhead _ _ a (by rw [hls]; rfl) hS

/-- It is the phrases that matter, not how they are described. -/
theorem Follows.congr (h : Follows r R ls) (hRS : ∀ ts a, R ts a ↔ S ts a) : Follows r S ls :=
  h.imp (fun ts a => (hRS ts a).mp) fun t ts a _ => (hRS (t :: ts) a).mpr

/-- **A phrase and then another.** -/
theorem Follows.bind {S : α → List Token → β → Prop} (h : Follows r R ls) (hr : Finds r R stop ls)
    (hf : ∀ a front rest, ls = front ++ rest → R (tokens front) a → Follows (f a) (S a) rest)
    (hS : ∀ a, Begins (S a) [])
    (hstop : ∀ a t ts b, S a (t :: ts) b → stop (some t) = true) :
    Follows (r >>= f) (fun ts b => ∃ a us vs, ts = us ++ vs ∧ R us a ∧ S a vs b) ls := by
  obtain ⟨front, hls, ⟨us, a, hus, hR⟩, hnext⟩ := h
  cases hread : r ls with
  | error rest =>
    rw [leaves_of_error hread] at hls hnext
    refine ⟨front, by rw [leaves_bind_of_error hread]; exact hls, ?_, ?_⟩
    · obtain ⟨vs, b, hvs, hSb⟩ := hS a
      exact ⟨us ++ vs, b, hus.append hvs, a, _, vs, (List.append_assoc ..).symm, hR, hSb⟩
    · rw [leaves_bind_of_error hread]
      rintro l ms rfl ws b ⟨a', us', vs', hws, hR', hS'⟩
      rcases append_cases hws ms with ⟨xs, rfl⟩ | ⟨first, second, t, vs, hsplit, rfl, rfl, hhead⟩
      · exact hnext l ms rfl xs a' hR'
      · -- the first phrase ends before the impossible token, so it would have been read
        rw [← hls] at hsplit
        have hok := hr.complete first second a' hsplit hR'
          (by rw [hhead]; exact hstop a' t vs b hS')
        rw [hread] at hok
        cases hok
  | ok found =>
    obtain ⟨a, mid⟩ := found
    rw [leaves_of_ok hread] at hls hnext
    obtain ⟨front', hls', hRa⟩ := hr.sound a mid hread
    obtain rfl : front = front' := List.append_cancel_right (hls.symm.trans hls')
    obtain ⟨back, hmid, ⟨vs, b, hvs, hSb⟩, hnext'⟩ := hf a front mid hls hRa
    refine ⟨front ++ back, ?_, ?_, ?_⟩
    · rw [leaves_bind_of_ok hread, List.append_assoc, ← hmid]
      exact hls
    · refine ⟨vs, b, hvs, a, tokens front, tokens back ++ vs, ?_, hRa, hSb⟩
      rw [tokens_append, List.append_assoc]
    · rw [leaves_bind_of_ok hread]
      rintro l ms hrest ws b ⟨a', us', vs', hws, hR', hS'⟩
      rw [hrest] at hmid
      rcases append_cases hws ms with ⟨xs, rfl⟩ | ⟨first, second, t, vs, hsplit, rfl, rfl, hhead⟩
      · -- a first phrase that is longer goes on with the first token of the second reader
        cases back with
        | nil => exact hnext l ms hmid xs a' (by simpa using hR')
        | cons m back => exact hnext m _ hmid _ a' (by simpa using hR')
      · rw [List.append_assoc, ← hmid, ← hls] at hsplit
        have hok := hr.complete first second a' hsplit hR'
          (by rw [hhead]; exact hstop a' t vs b hS')
        rw [hread] at hok
        cases hok
        obtain rfl : front = first := List.append_cancel_right (hls.symm.trans hsplit)
        rw [tokens_append, List.append_assoc] at hws
        exact hnext' l ms hrest ws b (List.append_cancel_left hws ▸ hS')

theorem follows_pure (a : α) : Follows (pure a) (fun ts b => ts = [] ∧ b = a) ls := by
  refine ⟨[], rfl, ⟨[], a, spellable_nil, rfl, rfl⟩, ?_⟩
  rintro l ms - us b ⟨h, -⟩
  cases h

/-- A phrase, and its value changed. -/
theorem Follows.bind_pure (h : Follows r R ls) (g : α → β) :
    Follows (r >>= fun a => pure (g a)) (fun ts b => ∃ a, R ts a ∧ b = g a) ls := by
  have hleaves : leaves (r >>= fun a => pure (g a)) ls = leaves r ls := by
    rw [← map_eq_pure_bind, leaves_map]
  obtain ⟨front, hls, hbegins, hnext⟩ := h
  unfold Follows
  rw [hleaves]
  refine ⟨front, hls, hbegins.map g, ?_⟩
  rintro l ms hrest us b ⟨a, hR, -⟩
  exact hnext l ms hrest us a hR

/-- To fail is right where no phrase begins with the next token. -/
theorem follows_fail (hbegins : Begins R [])
    (h : ∀ t ts a, (tokens ls).head? = some t → ¬ R (t :: ts) a) : Follows fail R ls := by
  refine ⟨[], rfl, hbegins, ?_⟩
  rintro l ms hls us a hR
  have hhead : (tokens ls).head? = some l.token := by
    change ls = l :: ms at hls
    rw [hls]
    rfl
  exact h l.token us a hhead hR

/-! ### Single tokens -/

theorem follows_peek {f : Option Token → Reads α} (h : Follows (f (tokens ls).head?) R ls) :
    Follows (peek >>= f) R ls := by
  refine h.of_eq ?_
  rw [tokens, List.head?_map]
  rfl

theorem follows_left {f : Nat → Reads α} (h : Follows (f ls.length) R ls) :
    Follows (left >>= f) R ls :=
  h.of_eq rfl

/-- The first token is known and taken. -/
theorem follows_skip {f : Unit → Reads α} {t : Token} (h : (tokens ls).head? = some t)
    (hf : ∀ l ms, ls = l :: ms → Follows (f ()) (fun ts a => R (t :: ts) a) ms) :
    Follows (skip >>= f) R ls := by
  obtain ⟨l, ms, rfl, rfl⟩ := exists_of_head?_eq h
  obtain ⟨front, hms, hbegins, hnext⟩ := hf l ms rfl
  exact ⟨l :: front, congrArg (l :: ·) hms, hbegins, hnext⟩

/-- A reader that takes the first token and does no more. -/
theorem follows_taken {t : Token} (h : (tokens ls).head? = some t) (a : α) :
    Follows (skip >>= fun _ => pure a) (fun ts b => ts = [t] ∧ b = a) ls :=
  follows_skip h fun _ _ _ => (follows_pure a).congr (by simp)

/-- A token is read, or it is the next one that is impossible. -/
theorem follows_token {t : Token} (ht : t.fixedText?.isSome = true) :
    Follows (token t) (fun ts _ => ts = [t]) ls := by
  refine follows_peek ?_
  split
  case isTrue h => exact ((follows_taken h ()).congr (by simp)).of_eq rfl
  case isFalse h =>
    refine follows_fail ⟨[t], (), spellable_fixed ht, rfl⟩ fun u us _ hhead hu => h ?_
    rw [hhead, (List.cons.inj hu).1]

/-- A phrase after the token `t`. -/
theorem follows_after {t : Token} (ht : t.fixedText?.isSome = true) (hR : Begins R [])
    (h : ∀ l ms, ls = l :: ms → Follows r R ms) : Follows (do token t; r) (After t R) ls := by
  refine ((follows_token ht).bind (finds_token t) (S := fun _ => R)
    (fun _ front rest hls hfront => ?_)
    (fun _ => hR) fun _ _ _ _ _ => rfl).congr fun ts a => ?_
  · cases front with
    | nil => cases hfront
    | cons l front =>
      cases tokens_eq_nil (List.cons.inj hfront).2
      exact h l rest hls
  · constructor
    · rintro ⟨_, _, us, rfl, rfl, hus⟩
      exact ⟨us, rfl, hus⟩
    · rintro ⟨us, rfl, hus⟩
      exact ⟨(), [t], us, rfl, rfl, hus⟩

/-- A token that carries a value is taken, and the value returned. -/
theorem follows_value {mk : α → Token} {a : α} (hmk : ∀ b, mk a = mk b → a = b)
    (h : (tokens ls).head? = some (mk a)) :
    Follows (skip >>= fun _ => pure a) (fun ts b => ts = [mk b]) ls := by
  refine (follows_taken h a).imp ?_ ?_
  · rintro ts b ⟨rfl, rfl⟩
    rfl
  · intro t ts b hhead hb
    rw [h] at hhead
    cases hhead
    obtain rfl := hmk b (List.cons.inj hb).1
    exact ⟨hb, rfl⟩

theorem follows_name : Follows name (fun ts a => ts = [.name a]) ls := by
  refine follows_peek ?_
  split
  case h_1 text h => exact follows_value (fun _ => Token.name.inj) h
  case h_2 h =>
    refine follows_fail ⟨_, "x", spellable_name, rfl⟩ fun t ts a hhead ha => h a ?_
    rw [hhead, (List.cons.inj ha).1]

theorem spellable_number : Spellable [.number 0] := by
  intro u hu
  rw [List.mem_singleton.mp hu]
  refine ⟨['0'], .number (List.cons_ne_nil _ _) fun d hd => ?_⟩
  rw [List.mem_singleton.mp hd]
  rfl

/-- A number is read, or it is the next token that is impossible. -/
theorem follows_number : Follows number (fun ts a => ts = [.number a]) ls := by
  refine follows_peek ?_
  split
  case h_1 value h => exact follows_value (fun _ => Token.number.inj) h
  case h_2 h =>
    refine follows_fail ⟨_, 0, spellable_number, rfl⟩ fun t ts a hhead ha => h a ?_
    rw [hhead, (List.cons.inj ha).1]

/-- An optional part that begins with the token `t`. -/
theorem follows_token? {f : Bool → Reads α} (t : Token)
    (htrue : ∀ l ms, ls = l :: ms → Follows (f true) (fun ts a => R (t :: ts) a) ms)
    (hfalse : (tokens ls).head? ≠ some t → Follows (f false) R ls) :
    Follows (token? t >>= f) R ls := by
  by_cases h : (tokens ls).head? = some t
  · have hskip : Follows (skip >>= fun _ => f true) R ls := follows_skip h htrue
    refine hskip.of_eq ?_
    rw [token?_bind, if_pos h]
    rfl
  · refine (hfalse h).of_eq ?_
    rw [token?_bind, if_neg h]

/-- An optional part that begins with the token `t` and is followed by something else. -/
theorem follows_option {f : Bool → Reads α} {b : α} (t : Token)
    (htrue : ∀ l ms, ls = l :: ms → Follows (f true) R ms) (hfalse : f false = pure b) :
    Follows (token? t >>= f) (fun ts a => (ts = [] ∧ a = b) ∨ After t R ts a) ls := by
  refine follows_token? t (fun l ms hls => (htrue l ms hls).congr fun ts a => ?_) fun hhead => ?_
  · constructor
    · intro h
      exact .inr ⟨ts, rfl, h⟩
    · rintro (⟨⟨⟩, -⟩ | ⟨us, ⟨⟩, hus⟩)
      exact hus
  · rw [hfalse]
    refine (follows_pure b).imp (fun ts a => .inl) ?_
    rintro u us a hu (h | ⟨vs, hvs, -⟩)
    · exact h
    · rw [hu, (List.cons.inj hvs).1] at hhead
      exact absurd rfl hhead

/-! ### Lists -/

/-- An item and what the reader `more` follows after it. -/
theorem follows_cons {more : Reads (List α)} {Q : List Token → List α → Prop}
    (hitem : Follows r R ls) (hfinds : Finds r R stop ls)
    (hmore : ∀ a front ms, ls = front ++ ms → R (tokens front) a → Follows more Q ms)
    (hQ : Begins Q []) (hstop : ∀ t ts as, Q (t :: ts) as → stop (some t) = true) :
    Follows (do return (← r) :: (← more))
      (fun ts as => ∃ us vs a bs, ts = us ++ vs ∧ as = a :: bs ∧ R us a ∧ Q vs bs) ls := by
  refine (hitem.bind hfinds (S := fun a ts as => ∃ bs, Q ts bs ∧ as = a :: bs) ?_ ?_ ?_).congr ?_
  · intro a front rest hls ha
    exact (hmore a front rest hls ha).bind_pure _
  · exact fun a => hQ.map (a :: ·)
  · rintro a t ts as ⟨bs, hbs, -⟩
    exact hstop t ts bs hbs
  · intro ts as
    constructor
    · rintro ⟨a, us, vs, rfl, ha, bs, hbs, rfl⟩
      exact ⟨us, vs, a, bs, rfl, rfl, ha, hbs⟩
    · rintro ⟨us, vs, a, bs, rfl, rfl, ha, hbs⟩
      exact ⟨a, us, vs, rfl, ha, bs, hbs, rfl⟩

/-- One phrase and more of them. -/
theorem follows_many_cons {more : Reads (List α)} (hitem : Follows r R ls)
    (hfinds : Finds r R stop ls) (hne : ∀ a, ¬ R [] a)
    (hmore : ∀ ms, ms.length < ls.length → Follows more (Many R) ms)
    (hstop : ∀ t ts a, R (t :: ts) a → stop (some t) = true) :
    Follows (do return (← r) :: (← more)) (Many R) ls := by
  refine (follows_cons hitem hfinds (fun a front ms hls ha => hmore ms ?_)
    (begins_of_phrase .nil) fun t ts as has => ?_).imp ?_ ?_
  · cases front with
    | nil => exact absurd ha (hne a)
    | cons l front =>
      rw [hls, List.cons_append, List.length_cons, List.length_append]
      omega
  · obtain ⟨us, _, a, _, -, -, ha, -⟩ := (many_cons_iff hne).mp has
    exact hstop t us a ha
  · rintro ts as ⟨us, vs, a, bs, rfl, rfl, ha, hbs⟩
    exact .cons ha hbs
  · intro t ts as _ has
    obtain ⟨us, vs, a, bs, rfl, rfl, ha, hbs⟩ := (many_cons_iff hne).mp has
    exact ⟨t :: us, vs, a, bs, rfl, rfl, ha, hbs⟩

/-- No phrase, when none begins with the first token. -/
theorem follows_many_nil (hne : ∀ a, ¬ R [] a)
    (h : ∀ t ts a, (tokens ls).head? = some t → ¬ R (t :: ts) a) :
    Follows (pure []) (Many R) ls := by
  refine (follows_pure []).imp ?_ ?_
  · rintro ts as ⟨rfl, rfl⟩
    exact .nil
  · intro t ts as hhead has
    obtain ⟨us, _, a, _, -, -, ha, -⟩ := (many_cons_iff hne).mp has
    exact absurd ha (h t us a hhead)

theorem not_after_nil (t : Token) (a : α) : ¬ After t R [] a := by
  rintro ⟨us, h, -⟩
  cases h

/-- More items begin with a comma. -/
theorem stop_of_many_comma {t : Token} {ts : List Token} {as : List α}
    (h : Many (After .comma R) (t :: ts) as) (hcomma : stop (some .comma) = true) :
    stop (some t) = true := by
  obtain ⟨_, _, a, _, -, -, ⟨us, hus, -⟩, -⟩ := (many_cons_iff (not_after_nil _)).mp h
  rw [(List.cons.inj hus).1]
  exact hcomma

/-- Items after a comma each. -/
theorem follows_moreItems {bound : Nat} (hbound : ls.length < bound)
    (hitem : ∀ ms, ms <:+ ls → Follows r R ms ∧ Finds r R stop ms)
    (hcomma : stop (some .comma) = true) :
    Follows (moreItems r bound) (Many (After .comma R)) ls := by
  induction bound generalizing ls with
  | zero => omega
  | succ bound ih =>
    refine (follows_option .comma (R := Commas R) ?_ rfl).congr fun ts as => ?_
    · rintro l ms rfl
      obtain ⟨hfollows, hfinds⟩ := hitem ms (List.suffix_cons l ms)
      refine follows_cons hfollows hfinds
        (fun _ front ks hks _ => ih ?_ fun js hjs => hitem js ?_) (begins_of_phrase .nil)
        fun _ _ _ hmany => stop_of_many_comma hmany hcomma
      · rw [hks, List.length_cons, List.length_append] at hbound
        omega
      · rw [hks]
        exact hjs.trans ((List.suffix_append front ks).trans (List.suffix_cons l _))
    · exact many_after_comma_iff.symm

/-- Items separated by commas: after each, the next token tells whether there is another one. -/
theorem follows_items (hitem : ∀ ms, ms <:+ ls → Follows r R ms ∧ Finds r R stop ms)
    (hcomma : stop (some .comma) = true) : Follows (items r) (Commas R) ls := by
  have hmore : ∀ ms, ms <:+ ls →
      Follows (do moreItems r ((← left) + 1)) (Many (After .comma R)) ms := fun ms hms =>
    follows_left (follows_moreItems (by omega) (fun ks hks => hitem ks (hks.trans hms)) hcomma)
  obtain ⟨hfollows, hfinds⟩ := hitem ls (List.suffix_refl ls)
  exact (follows_cons hfollows hfinds (fun _ front ms hls _ => hmore ms ⟨front, hls.symm⟩)
    (begins_of_phrase .nil) fun _ _ _ hmany => stop_of_many_comma hmany hcomma).of_eq rfl

/-- Items followed by the token `close`. -/
theorem follows_items_close {close : Token} (hfixed : close.fixedText?.isSome = true)
    (hitem : ∀ ms, ms <:+ ls → Follows r R ms ∧ Finds r R stop ms)
    (hcomma : stop (some .comma) = true) (hclose : stop (some close) = true)
    (hne : close ≠ .comma) (g : List α → β) :
    Follows (do let as ← items r; token close; return g as)
      (fun ts b => ∃ us as, ts = us ++ [close] ∧ Commas R us as ∧ b = g as) ls := by
  have hfinds : Finds (items r) (Commas R) (fun t => t = some close) ls := by
    refine finds_items (fun ms hms => (hitem ms hms).2) hcomma (fun t ht => ?_)
      (by simpa using hne.symm)
    rw [of_decide_eq_true ht]
    exact hclose
  refine ((follows_items hitem hcomma).bind hfinds
    (fun as _ _ _ _ => (follows_token hfixed).bind_pure fun _ => g as) (fun as => ?_) ?_).congr ?_
  · exact ⟨[close], g as, spellable_fixed hfixed, (), rfl, rfl⟩
  · rintro as t ts b ⟨_, hts, -⟩
    simp [(List.cons.inj hts).1]
  · intro ts b
    constructor
    · rintro ⟨as, us, _, rfl, h, _, rfl, rfl⟩
      exact ⟨us, as, rfl, h, rfl⟩
    · rintro ⟨us, as, rfl, h, rfl⟩
      exact ⟨as, us, _, rfl, h, (), rfl, rfl⟩

/-- Items up to a token with which none of them begins. -/
theorem follows_itemsUntil {close : Token} (hfixed : close.fixedText?.isSome = true)
    (hitem : ∀ ms, ms <:+ ls → Follows r R ms ∧ Finds r R stop ms)
    (hhead : ∀ ts a, R ts a → ∃ t us, ts = t :: us ∧ t ≠ close)
    (hcomma : stop (some .comma) = true) (hclose : stop (some close) = true)
    (hne : close ≠ .comma) :
    Follows (itemsUntil close r) (fun ts as => ∃ us, ts = us ++ [close] ∧ Listed R us as) ls := by
  refine follows_token? close ?_ ?_
  · rintro l ms rfl
    refine (follows_pure []).congr fun ts as => ?_
    constructor
    · rintro ⟨rfl, rfl⟩
      exact ⟨[], rfl, .inl ⟨rfl, rfl⟩⟩
    · rintro ⟨us, hts, hus⟩
      obtain ⟨rfl, rfl⟩ | ⟨vs, ws, a, bs, rfl, rfl, ha, -⟩ := hus
      · exact ⟨by simpa using hts, rfl⟩
      · obtain ⟨t, vs, rfl, ht⟩ := hhead vs a ha
        exact absurd (List.head_eq_of_cons_eq hts).symm ht
  · intro hls
    refine (follows_items_close hfixed hitem hcomma hclose hne fun as => as).imp ?_ ?_
    · rintro ts _ ⟨vs, as, rfl, h, rfl⟩
      exact ⟨vs, rfl, .inr h⟩
    · rintro t ts as ht ⟨vs, hts, ⟨rfl, rfl⟩ | h⟩
      · rw [ht, (List.cons.inj hts).1] at hls
        exact absurd rfl hls
      · exact ⟨vs, as, hts, h, rfl⟩

/-! ### Optional `mut` -/

theorem follows_borrowKind : Follows borrowKind (fun ts kind => ts = kindTokens kind) ls := by
  have hfollows : Follows borrowKind (fun ts kind => (ts = [] ∧ kind = .shared) ∨
      After (.keyword .mutable) (fun us kind => us = [] ∧ kind = .exclusive) ts kind) ls :=
    follows_option _ (fun _ _ _ => follows_pure _) rfl
  refine hfollows.congr fun ts kind => ?_
  cases kind with
  | shared => simp [kindTokens, After]
  | exclusive => simp [kindTokens, After]

/-- An optional `mut` before a phrase that does not begin with it. -/
theorem follows_kind_then {g : BorrowKind → α → β} (hR : Begins R [])
    (hr : ∀ ms, ms <:+ ls → Follows r R ms)
    (hhead : ∀ ts a, R ts a → ∃ t us, ts = t :: us ∧ t ≠ .keyword .mutable) :
    Follows (do return g (← borrowKind) (← r))
      (fun ts b => ∃ kind us a, ts = kindTokens kind ++ us ∧ R us a ∧ b = g kind a) ls := by
  refine (follows_borrowKind.bind finds_borrowKind
    (S := fun kind ts b => ∃ a, R ts a ∧ b = g kind a) ?_ ?_ ?_).congr ?_
  · rintro kind front rest rfl -
    exact (hr rest (List.suffix_append front rest)).bind_pure _
  · exact fun kind => hR.map (g kind)
  · rintro kind t ts b ⟨a, ha, -⟩
    obtain ⟨u, us, hu, hne⟩ := hhead _ a ha
    rw [(List.cons.inj hu).1]
    simpa using hne
  · intro ts b
    constructor
    · rintro ⟨kind, _, us, rfl, rfl, a, ha, rfl⟩
      exact ⟨kind, us, a, rfl, ha, rfl⟩
    · rintro ⟨kind, us, a, rfl, ha, rfl⟩
      exact ⟨kind, _, us, rfl, rfl, a, ha, rfl⟩

end

end Reads

end BorrowCheck.Listing
