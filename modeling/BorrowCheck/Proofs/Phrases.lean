import BorrowCheck.Proofs.Derivation

/-!
# Reading phrases

A reader **finds** the phrases of a relation (`BorrowCheck.Listing.Reads.Finds`) when what it takes
from the front of a row of tokens is such a phrase, and when it takes every such phrase that is
followed by a token at which the phrase may stop. The grammar needs one token of lookahead, so it is
enough to know that one token.

There is one rule for each way in which readers are put together. The readers of the grammar are
treated with them in `BorrowCheck.Proofs.Recognition`.
-/

namespace BorrowCheck.Listing

/-- The tokens of a row of lexemes. -/
def tokens (ls : List Lexeme) : List Token :=
  ls.map Lexeme.token

@[simp] theorem tokens_cons (l : Lexeme) (ls : List Lexeme) :
    tokens (l :: ls) = l.token :: tokens ls := rfl

@[simp] theorem tokens_append (ls ms : List Lexeme) : tokens (ls ++ ms) = tokens ls ++ tokens ms :=
  List.map_append

theorem tokens_eq_nil {ls : List Lexeme} (h : tokens ls = []) : ls = [] :=
  List.map_eq_nil_iff.mp h

namespace Reads

/-! ### Finding phrases -/

section

variable {α β : Type} {r r' : Reads α} {f : α → Reads β} {R S : List Token → α → Prop}
  {stop stop' : Option Token → Bool} {l : Lexeme} {ls : List Lexeme}

/-- The reader `r` **finds** the phrases of `R` at the front of `ls`: those that are followed by a
token at which they may `stop`, with `none` for the end. -/
structure Finds (r : Reads α) (R : List Token → α → Prop) (stop : Option Token → Bool)
    (ls : List Lexeme) : Prop where
  sound : ∀ a rest, r ls = .ok (a, rest) → ∃ front, ls = front ++ rest ∧ R (tokens front) a
  complete : ∀ front rest a, ls = front ++ rest → R (tokens front) a →
    stop (tokens rest).head? = true → r ls = .ok (a, rest)

/-- Phrases that may stop anywhere. -/
def anywhere (_ : Option Token) : Bool :=
  true

theorem bind_eq_ok {rest : List Lexeme} {b : β} :
    (r >>= f) ls = .ok (b, rest) ↔ ∃ a mid, r ls = .ok (a, mid) ∧ f a mid = .ok (b, rest) := by
  change (r ls >>= fun x => f x.1 x.2) = .ok (b, rest) ↔ _
  cases r ls with
  | error e =>
    constructor
    · intro h
      cases h
    · rintro ⟨_, _, h, _⟩
      cases h
  | ok x =>
    constructor
    · intro h
      exact ⟨x.1, x.2, rfl, h⟩
    · rintro ⟨a, mid, h, hf⟩
      cases h
      exact hf

/-- Only what happens at `ls` counts. -/
theorem Finds.of_eq (h : Finds r' R stop ls) (he : r ls = r' ls) : Finds r R stop ls where
  sound a rest hr := h.sound a rest (he ▸ hr)
  complete front rest a hls hR hstop := he ▸ h.complete front rest a hls hR hstop

/-- The phrases may be described differently, as far as the tokens of `ls` are concerned. -/
theorem Finds.imp (h : Finds r R stop ls)
    (hsound : ∀ ts us a, tokens ls = ts ++ us → R ts a → S ts a)
    (hcomplete : ∀ ts us a, tokens ls = ts ++ us → stop us.head? = true → S ts a → R ts a) :
    Finds r S stop ls where
  sound a rest hr := by
    obtain ⟨front, rfl, hR⟩ := h.sound a rest hr
    exact ⟨front, rfl, hsound _ _ a (tokens_append ..) hR⟩
  complete front rest a hls hS hstop := by
    subst hls
    exact h.complete front rest a rfl (hcomplete _ _ a (tokens_append ..) hstop hS) hstop

theorem Finds.congr (h : Finds r R stop ls) (hRS : ∀ ts a, R ts a ↔ S ts a) : Finds r S stop ls :=
  h.imp (fun ts _ a _ => (hRS ts a).mp) fun ts _ a _ _ => (hRS ts a).mpr

theorem Finds.stop_of_imp (h : Finds r R stop ls)
    (hstop : ∀ t, stop' t = true → stop t = true) : Finds r R stop' ls where
  sound := h.sound
  complete front rest a hls hR hs := h.complete front rest a hls hR (hstop _ hs)

/-- A phrase and then another. What comes after the first phrase is the beginning of the second, or
what comes after the second if that has no tokens. -/
theorem Finds.bind {S : α → List Token → β → Prop} (hr : Finds r R stop ls)
    (hf : ∀ a front rest, ls = front ++ rest → R (tokens front) a → Finds (f a) (S a) stop' rest)
    (hstop : ∀ a ts b t, S a ts b → stop' t = true → stop (ts.head?.or t) = true) :
    Finds (r >>= f) (fun ts b => ∃ a us vs, ts = us ++ vs ∧ R us a ∧ S a vs b) stop' ls where
  sound b rest h := by
    obtain ⟨a, mid, hra, hfb⟩ := bind_eq_ok.mp h
    obtain ⟨front, rfl, hR⟩ := hr.sound a mid hra
    obtain ⟨back, rfl, hS⟩ := (hf a front mid rfl hR).sound b rest hfb
    exact ⟨front ++ back, by simp, a, tokens front, tokens back, by simp, hR, hS⟩
  complete front rest b hls hRS ht := by
    obtain ⟨a, us, vs, hts, hR, hS⟩ := hRS
    obtain ⟨first, second, rfl, rfl, rfl⟩ := List.map_eq_append_iff.mp hts
    rw [List.append_assoc] at hls
    refine bind_eq_ok.mpr ⟨a, second ++ rest, hr.complete first _ a hls hR ?_,
      (hf a first _ hls hR).complete second rest b rfl hS ht⟩
    -- the first reader sees the second phrase, or what comes after both
    rw [tokens_append, List.head?_append]
    exact hstop a (tokens second) b _ hS ht

theorem finds_pure (a : α) : Finds (pure a) (fun ts b => ts = [] ∧ b = a) stop ls where
  sound b rest h := by
    cases h
    exact ⟨[], rfl, rfl, rfl⟩
  complete front rest b hls h _ := by
    obtain ⟨hfront, rfl⟩ := h
    rw [hls, tokens_eq_nil hfront]
    rfl

/-- A phrase, and its value changed. -/
theorem Finds.bind_pure (hr : Finds r R stop ls) (g : α → β) :
    Finds (r >>= fun a => pure (g a)) (fun ts b => ∃ a, R ts a ∧ b = g a) stop ls where
  sound b rest h := by
    obtain ⟨a, mid, hra, hb⟩ := bind_eq_ok.mp h
    cases hb
    obtain ⟨front, rfl, hR⟩ := hr.sound a _ hra
    exact ⟨front, rfl, a, hR, rfl⟩
  complete front rest b hls h ht := by
    obtain ⟨a, hR, rfl⟩ := h
    exact bind_eq_ok.mpr ⟨a, rest, hr.complete front rest a hls hR ht, rfl⟩

theorem finds_fail (h : ∀ ts us a, tokens ls = ts ++ us → stop us.head? = true → ¬ R ts a) :
    Finds fail R stop ls where
  sound _ _ hr := by cases hr
  complete front rest a hls hR hstop :=
    absurd hR (h _ _ a (by rw [hls, tokens_append]) hstop)

/-! ### Single tokens -/

theorem finds_peek {f : Option Token → Reads α} (h : Finds (f (tokens ls).head?) R stop ls) :
    Finds (peek >>= f) R stop ls := by
  refine h.of_eq ?_
  rw [tokens, List.head?_map]
  rfl

theorem finds_left {f : Nat → Reads α} (h : Finds (f ls.length) R stop ls) :
    Finds (left >>= f) R stop ls :=
  h.of_eq rfl

theorem exists_of_head?_eq {t : Token} (h : (tokens ls).head? = some t) :
    ∃ l ms, ls = l :: ms ∧ l.token = t := by
  cases ls with
  | nil => cases h
  | cons l ms => exact ⟨l, ms, rfl, Option.some.inj h⟩

/-- The first token is known and taken. -/
theorem finds_skip {f : Unit → Reads α} {t : Token} (h : (tokens ls).head? = some t)
    (hf : ∀ l ms, ls = l :: ms → Finds (f ()) (fun ts a => R (t :: ts) a) stop ms)
    (hstop : ∀ a, R [] a → stop (some t) = false) : Finds (skip >>= f) R stop ls := by
  obtain ⟨l, ms, rfl, rfl⟩ := exists_of_head?_eq h
  have hms := hf l ms rfl
  constructor
  · intro a rest hr
    obtain ⟨front, rfl, hR⟩ := hms.sound a rest hr
    exact ⟨l :: front, rfl, hR⟩
  · intro front rest a hls hR ht
    cases front with
    | nil =>
      -- a phrase without tokens may not stop before `t`
      cases hls
      rw [h, hstop a hR] at ht
      cases ht
    | cons m front =>
      cases hls
      exact hms.complete front rest a rfl hR ht

/-- A reader that takes the first token and does no more. -/
theorem finds_taken {t : Token} (h : (tokens ls).head? = some t) (a : α) :
    Finds (skip >>= fun _ => pure a) (fun ts b => ts = [t] ∧ b = a) stop ls := by
  refine finds_skip h (fun l ms _ => ?_) ?_
  · exact (finds_pure a).congr (by simp)
  · simp

theorem finds_token (t : Token) : Finds (token t) (fun ts _ => ts = [t]) anywhere ls := by
  refine finds_peek ?_
  split
  case isTrue h =>
    exact ((finds_taken h ()).congr (by simp)).of_eq rfl
  case isFalse h =>
    refine finds_fail fun ts us _ hls _ hts => h ?_
    rw [hls, hts]
    rfl

/-- A phrase after the token `t`. -/
theorem finds_after (t : Token) (h : ∀ l ms, ls = l :: ms → Finds r R stop ms) :
    Finds (do token t; r) (After t R) stop ls := by
  refine ((finds_token t).bind (S := fun _ => R) (fun _ front rest hls hfront => ?_)
    fun _ _ _ _ _ _ => rfl).congr fun ts a => ?_
  · cases front with
    | nil => cases hfront
    | cons l front =>
      cases tokens_eq_nil (List.cons.inj hfront).2
      exact h l rest hls
  · constructor
    · rintro ⟨_, _, us, rfl, rfl, hus⟩
      exact ⟨us, rfl, hus⟩
    · rintro ⟨us, rfl, hus⟩
      exact ⟨(), [t], us, rfl, rfl, hus⟩

/-- A token that carries a value is taken, and the value returned. -/
theorem finds_value {mk : α → Token} {a : α} (hmk : ∀ b, mk a = mk b → a = b)
    (h : (tokens ls).head? = some (mk a)) :
    Finds (skip >>= fun _ => pure a) (fun ts b => ts = [mk b]) stop ls := by
  refine (finds_taken h a).imp ?_ ?_
  · rintro ts us b - ⟨rfl, rfl⟩
    rfl
  · rintro ts us b hls - rfl
    rw [hls] at h
    obtain rfl := hmk b (Option.some.inj h).symm
    exact ⟨rfl, rfl⟩

theorem finds_name : Finds name (fun ts a => ts = [.name a]) anywhere ls := by
  refine finds_peek ?_
  split
  case h_1 text h => exact finds_value (fun _ => Token.name.inj) h
  case h_2 h =>
    refine finds_fail fun ts us a hls _ hts => h a ?_
    rw [hls, hts]
    rfl

theorem finds_number : Finds number (fun ts a => ts = [.number a]) anywhere ls := by
  refine finds_peek ?_
  split
  case h_1 value h => exact finds_value (fun _ => Token.number.inj) h
  case h_2 h =>
    refine finds_fail fun ts us a hls _ hts => h a ?_
    rw [hls, hts]
    rfl

theorem token?_bind (t : Token) (f : Bool → Reads α) :
    (token? t >>= f) ls = if (tokens ls).head? = some t then f true ls.tail else f false ls := by
  rw [tokens, List.head?_map]
  by_cases h : ls.head?.map Lexeme.token = some t
  · simp only [token?, peek, bind, StateT.bind, Except.bind, if_pos h]
    rfl
  · simp only [token?, peek, bind, StateT.bind, Except.bind, if_neg h]
    rfl

/-- An optional part that begins with the token `t`. -/
theorem finds_token? {f : Bool → Reads α} (t : Token)
    (htrue : ∀ l ms, ls = l :: ms → Finds (f true) (fun ts a => R (t :: ts) a) stop ms)
    (hfalse : (tokens ls).head? ≠ some t → Finds (f false) R stop ls)
    (hstop : ∀ a, R [] a → stop (some t) = false) : Finds (token? t >>= f) R stop ls := by
  by_cases h : (tokens ls).head? = some t
  · have hskip : Finds (skip >>= fun _ => f true) R stop ls := finds_skip h htrue hstop
    refine hskip.of_eq ?_
    rw [token?_bind, if_pos h]
    rfl
  · refine (hfalse h).of_eq ?_
    rw [token?_bind, if_neg h]

/-- An optional part that begins with the token `t` and is followed by something else. -/
theorem finds_option {f : Bool → Reads α} {b : α} (t : Token)
    (htrue : ∀ l ms, ls = l :: ms → Finds (f true) R stop ms) (hfalse : f false = pure b)
    (hstop : stop (some t) = false) :
    Finds (token? t >>= f) (fun ts a => (ts = [] ∧ a = b) ∨ After t R ts a) stop ls := by
  refine finds_token? t (fun l ms hls => (htrue l ms hls).congr fun ts a => ?_) (fun hhead => ?_)
    fun _ _ => hstop
  · constructor
    · intro h
      exact .inr ⟨ts, rfl, h⟩
    · rintro (⟨⟨⟩, -⟩ | ⟨us, ⟨⟩, hus⟩)
      exact hus
  · rw [hfalse]
    refine (finds_pure b).imp (fun ts us a _ => .inl) ?_
    rintro ts us a hls - (h | ⟨vs, rfl, -⟩)
    · exact h
    · exact absurd (by rw [hls]; rfl) hhead

/-! ### Lists -/

/-- An item and what the reader `more` finds after it. -/
theorem finds_cons {more : Reads (List α)} {Q : List Token → List α → Prop}
    (hitem : Finds r R stop ls)
    (hmore : ∀ a front ms, ls = front ++ ms → R (tokens front) a → Finds more Q stop' ms)
    (hstop : ∀ ts as t, Q ts as → stop' t = true → stop (ts.head?.or t) = true) :
    Finds (do return (← r) :: (← more))
      (fun ts as => ∃ us vs a bs, ts = us ++ vs ∧ as = a :: bs ∧ R us a ∧ Q vs bs) stop' ls := by
  refine (hitem.bind (S := fun a ts as => ∃ bs, Q ts bs ∧ as = a :: bs) ?_ ?_).congr ?_
  · intro a front rest hls ha
    exact (hmore a front rest hls ha).bind_pure _
  · rintro a ts as t ⟨bs, hbs, -⟩ ht
    exact hstop ts bs t hbs ht
  · intro ts as
    constructor
    · rintro ⟨a, us, vs, rfl, ha, bs, hbs, rfl⟩
      exact ⟨us, vs, a, bs, rfl, rfl, ha, hbs⟩
    · rintro ⟨us, vs, a, bs, rfl, rfl, ha, hbs⟩
      exact ⟨a, us, vs, rfl, ha, bs, hbs, rfl⟩

/-- One phrase and more of them, when they cannot stop before the first token. -/
theorem finds_many_cons {more : Reads (List α)} (hitem : Finds r R stop ls) (hne : ∀ a, ¬ R [] a)
    (hmore : ∀ ms, ms.length < ls.length → Finds more (Many R) stop' ms)
    (hstop : ∀ ts as t, Many R ts as → stop' t = true → stop (ts.head?.or t) = true)
    (hgo : stop' (tokens ls).head? = false) :
    Finds (do return (← r) :: (← more)) (Many R) stop' ls := by
  refine (finds_cons hitem (fun a front ms hls ha => hmore ms ?_) hstop).imp ?_ ?_
  · cases front with
    | nil => exact absurd ha (hne a)
    | cons l front =>
      rw [hls, List.cons_append, List.length_cons, List.length_append]
      omega
  · rintro ts us as - ⟨vs, ws, a, bs, rfl, rfl, ha, hbs⟩
    exact .cons ha hbs
  · intro ts us as hls hus has
    cases has with
    | nil =>
      rw [hls, List.nil_append, hus] at hgo
      cases hgo
    | cons ha hbs => exact ⟨_, _, _, _, rfl, rfl, ha, hbs⟩

/-- No phrase, when none begins with the first token. -/
theorem finds_many_nil (h : ∀ ts us a, tokens ls = ts ++ us → ¬ R ts a) :
    Finds (pure []) (Many R) stop ls := by
  refine (finds_pure []).imp ?_ ?_
  · rintro ts us as - ⟨rfl, rfl⟩
    exact .nil
  · intro ts us as hls _ has
    cases has with
    | nil => exact ⟨rfl, rfl⟩
    | cons ha _ =>
      rw [List.append_assoc] at hls
      exact absurd ha (h _ _ _ hls)

/-- After an item of a list comes a comma, or what comes after the list. -/
theorem stop_of_many_after {t : Option Token} {ts : List Token} {as : List α}
    (h : Many (After .comma R) ts as) (hcomma : stop (some .comma) = true)
    (hstop : ∀ t, stop' t = true → stop t = true) (ht : stop' t = true) :
    stop (ts.head?.or t) = true := by
  cases h with
  | nil => exact hstop t ht
  | cons ha _ =>
    obtain ⟨us, rfl, -⟩ := ha
    exact hcomma

/-- Items after a comma each, up to something that is no comma. -/
theorem finds_moreItems {bound : Nat} (hbound : ls.length < bound)
    (hitem : ∀ ms, ms <:+ ls → Finds r R stop ms) (hcomma : stop (some .comma) = true)
    (hstop : ∀ t, stop' t = true → stop t = true) (hlast : stop' (some .comma) = false) :
    Finds (moreItems r bound) (Many (After .comma R)) stop' ls := by
  induction bound generalizing ls with
  | zero => omega
  | succ bound ih =>
    refine (finds_option .comma (R := Commas R) ?_ rfl hlast).congr fun ts as => ?_
    · rintro l ms rfl
      have hms : ms <:+ l :: ms := List.suffix_cons l ms
      -- the comma is gone, so that there is one token less for one round less
      refine finds_cons (hitem ms hms) (fun _ front ks hks _ => ih ?_ fun js hjs => hitem js ?_)
        fun _ _ _ hmany => stop_of_many_after hmany hcomma hstop
      · rw [hks, List.length_cons, List.length_append] at hbound
        omega
      · rw [hks]
        exact hjs.trans ((List.suffix_append front ks).trans (List.suffix_cons l _))
    · exact many_after_comma_iff.symm

theorem finds_items (hitem : ∀ ms, ms <:+ ls → Finds r R stop ms)
    (hcomma : stop (some .comma) = true) (hstop : ∀ t, stop' t = true → stop t = true)
    (hlast : stop' (some .comma) = false) : Finds (items r) (Commas R) stop' ls := by
  have hmore : ∀ ms, ms <:+ ls →
      Finds (do moreItems r ((← left) + 1)) (Many (After .comma R)) stop' ms := fun ms hms =>
    finds_left (finds_moreItems (by omega) (fun ks hks => hitem ks (hks.trans hms)) hcomma hstop
      hlast)
  exact (finds_cons (hitem ls (List.suffix_refl ls))
    (fun _ front ms hls _ => hmore ms ⟨front, hls.symm⟩)
    fun _ _ _ hmany => stop_of_many_after hmany hcomma hstop).of_eq rfl

/-- Items followed by the token `close`. -/
theorem finds_items_close {close : Token} (hitem : ∀ ms, ms <:+ ls → Finds r R stop ms)
    (hcomma : stop (some .comma) = true) (hclose : stop (some close) = true)
    (hne : close ≠ .comma) (g : List α → β) :
    Finds (do let as ← items r; token close; return g as)
      (fun ts b => ∃ us as, ts = us ++ [close] ∧ Commas R us as ∧ b = g as) anywhere ls := by
  have hall : Finds (items r) (Commas R) (fun t => t = some close) ls := by
    refine finds_items hitem hcomma (fun t ht => ?_) (by simpa using hne.symm)
    rw [of_decide_eq_true ht]
    exact hclose
  refine (hall.bind (fun as _ _ _ _ => (finds_token close).bind_pure fun _ => g as) ?_).congr ?_
  · rintro as ts b t ⟨_, rfl, -⟩ -
    simp
  · intro ts b
    constructor
    · rintro ⟨as, us, _, rfl, h, _, rfl, rfl⟩
      exact ⟨us, as, rfl, h, rfl⟩
    · rintro ⟨us, as, rfl, h, rfl⟩
      exact ⟨as, us, _, rfl, h, (), rfl, rfl⟩

/-- Items up to a token with which none of them begins. -/
theorem finds_itemsUntil {close : Token} (hitem : ∀ ms, ms <:+ ls → Finds r R stop ms)
    (hhead : ∀ ts a, R ts a → ∃ t us, ts = t :: us ∧ t ≠ close)
    (hcomma : stop (some .comma) = true) (hclose : stop (some close) = true)
    (hne : close ≠ .comma) :
    Finds (itemsUntil close r) (fun ts as => ∃ us, ts = us ++ [close] ∧ Listed R us as) anywhere
      ls := by
  refine finds_token? close ?_ ?_ ?_
  · rintro l ms rfl
    refine (finds_pure []).congr fun ts as => ?_
    constructor
    · rintro ⟨rfl, rfl⟩
      exact ⟨[], rfl, .inl ⟨rfl, rfl⟩⟩
    · rintro ⟨us, hts, hus⟩
      obtain ⟨rfl, rfl⟩ | ⟨vs, ws, a, bs, rfl, rfl, ha, -⟩ := hus
      · exact ⟨by simpa using hts, rfl⟩
      · obtain ⟨t, vs, rfl, ht⟩ := hhead vs a ha
        exact absurd (List.head_eq_of_cons_eq hts).symm ht
  · intro hls
    refine (finds_items_close hitem hcomma hclose hne fun as => as).imp ?_ ?_
    · rintro ts us _ - ⟨vs, as, rfl, h, rfl⟩
      exact ⟨vs, rfl, .inr h⟩
    · rintro ts us as hts - ⟨vs, rfl, ⟨rfl, rfl⟩ | h⟩
      · rw [hts] at hls
        exact absurd rfl hls
      · exact ⟨vs, as, rfl, h, rfl⟩
  · rintro as ⟨us, hts, -⟩
    simp at hts

/-! ### Optional `mut` -/

theorem finds_borrowKind :
    Finds borrowKind (fun ts kind => ts = kindTokens kind) (· ≠ some (.keyword .mutable)) ls := by
  have hfinds : Finds borrowKind (fun ts kind => (ts = [] ∧ kind = .shared) ∨
      After (.keyword .mutable) (fun us kind => us = [] ∧ kind = .exclusive) ts kind)
      (· ≠ some (.keyword .mutable)) ls :=
    finds_option _ (fun _ _ _ => finds_pure _) rfl (by simp)
  refine hfinds.congr fun ts kind => ?_
  cases kind with
  | shared => simp [kindTokens, After]
  | exclusive => simp [kindTokens, After]

/-- An optional `mut` before a phrase that does not begin with it. -/
theorem finds_kind_then {g : BorrowKind → α → β} (hr : ∀ ms, ms <:+ ls → Finds r R stop ms)
    (hhead : ∀ ts a, R ts a → ∃ t us, ts = t :: us ∧ t ≠ .keyword .mutable) :
    Finds (do return g (← borrowKind) (← r))
      (fun ts b => ∃ kind us a, ts = kindTokens kind ++ us ∧ R us a ∧ b = g kind a) stop ls := by
  refine (finds_borrowKind.bind (S := fun kind ts b => ∃ a, R ts a ∧ b = g kind a) ?_ ?_).congr ?_
  · rintro kind front rest rfl -
    exact (hr rest (List.suffix_append front rest)).bind_pure _
  · rintro kind ts b t ⟨a, ha, -⟩ -
    obtain ⟨u, us, rfl, hu⟩ := hhead ts a ha
    simpa using hu
  · intro ts b
    constructor
    · rintro ⟨kind, _, us, rfl, rfl, a, ha, rfl⟩
      exact ⟨kind, us, a, rfl, ha, rfl⟩
    · rintro ⟨kind, us, a, rfl, ha, rfl⟩
      exact ⟨kind, _, us, rfl, rfl, a, ha, rfl⟩

end

end Reads

end BorrowCheck.Listing
