import BorrowCheck.Listing

/-!
# How a text splits into tokens

A scan works through a text from left to right. What it computes is said here without it: a row of
characters **spells** a token (`BorrowCheck.Listing.Token.Spells`), and a text **splits** into
tokens when blanks and comments are left out and each token is spelt by the longest row of
characters that spells one (`BorrowCheck.Listing.Splits`). A text that splits does so in one way,
and its scan finds it; the scan of any other text stops at a bad character
(`BorrowCheck.Listing.scan_eq_text_iff`).

What a text begins with is decided by its first character alone: a word, a number, an arrow or one
of the marks of one character. So among the rows of characters that spell a token, at most one
family is to be compared by length.

A scan is compared with the text token by token: a text **leads** through its first tokens to what
is left of it (`BorrowCheck.Listing.Leads`), and it splits when it leads to its end. A scan finds
the tokens that the text leads through (`BorrowCheck.Listing.scanFrom_of_leads`) and no others
(`BorrowCheck.Listing.leads_of_scanFrom`).
-/

namespace BorrowCheck.Listing

/-! ### Spellings -/

namespace Token

variable {c : Char} {cs : List Char} {t : Token} {n : Nat}

/-- How a token that is always written in the same way is written. -/
def fixedText? : Token → Option String
  | name _ => none
  | number _ => none
  | keyword k => some k.text
  | leftParen => some "("
  | rightParen => some ")"
  | leftBrace => some "\x7b"
  | rightBrace => some "\x7d"
  | leftAngle => some "<"
  | rightAngle => some ">"
  | leftBracket => some "["
  | rightBracket => some "]"
  | comma => some ","
  | colon => some ":"
  | equals => some "="
  | ampersand => some "&"
  | star => some "*"
  | dot => some "."
  | arrow => some "->"

/-- The row of characters **spells** the token. A name is a word that is no keyword. -/
inductive Spells : List Char → Token → Prop
  | fixed {t : Token} {s : String} (h : t.fixedText? = some s) : Spells s.toList t
  | name {c : Char} {cs : List Char} (hc : isWordStart c = true)
      (hcs : ∀ d ∈ cs, isWordRest d = true) (hfree : ∀ k : Keyword, k.text.toList ≠ c :: cs) :
      Spells (c :: cs) (.name (String.ofList (c :: cs)))
  | number {cs : List Char} (hne : cs ≠ []) (hcs : ∀ d ∈ cs, d.isDigit = true) :
      Spells cs (.number (Nat.ofDigitChars 10 cs 0))

/-- A mark of one character is written as that character. -/
theorem fixedText?_of_ofMark? (h : ofMark? c = some t) :
    t.fixedText? = some (String.singleton c) := by
  unfold ofMark? at h
  split at h
  all_goals cases h
  all_goals rfl

/-- A row of characters that begins with `c` spells a word, a number, an arrow or a mark, depending
on `c` alone. -/
theorem spells_cons_iff :
    Spells (c :: cs) t ↔
      (isWordStart c = true ∧ (∀ d ∈ cs, isWordRest d = true) ∧
        t = ofWord (String.ofList (c :: cs))) ∨
      (c.isDigit = true ∧ (∀ d ∈ cs, d.isDigit = true) ∧ t = ofDigits (c :: cs)) ∨
      (c = '-' ∧ cs = ['>'] ∧ t = arrow) ∨
      (cs = [] ∧ ofMark? c = some t) := by
  constructor
  · intro h
    generalize hword : c :: cs = word at h
    cases h with
    | name hc hcs hfree =>
      obtain ⟨rfl, rfl⟩ := List.cons.inj hword
      refine .inl ⟨hc, hcs, ?_⟩
      have hnone : Keyword.ofWord? (String.ofList (c :: cs)) = none := by
        rw [Keyword.ofWord?, List.find?_eq_none]
        intro k _ hk
        exact hfree k (by rw [of_decide_eq_true hk, String.toList_ofList])
      rw [ofWord, hnone]
    | number hne hcs =>
      subst hword
      exact .inr (.inl ⟨hcs c List.mem_cons_self, fun d hd => hcs d (List.mem_cons_of_mem c hd),
        rfl⟩)
    | @fixed t s h =>
      cases t with
      | name _ | number _ => cases h
      | keyword k =>
        obtain rfl := Option.some.inj h
        have hk : ofWord k.text = keyword k := by cases k <;> decide
        have hchars : isWordStart (k.text.toList.headD ' ') = true ∧
            k.text.toList.tail.all isWordRest = true := by
          cases k <;> decide
        rw [← hword] at hchars
        exact .inl ⟨hchars.1, List.all_eq_true.mp hchars.2, by rw [String.ofList_toList, hk]⟩
      | arrow =>
        obtain rfl := Option.some.inj h
        obtain ⟨rfl, rfl⟩ := List.cons.inj hword
        exact .inr (.inr (.inl ⟨rfl, rfl, rfl⟩))
      | _ =>
        obtain rfl := Option.some.inj h
        obtain ⟨rfl, rfl⟩ := List.cons.inj hword
        exact .inr (.inr (.inr ⟨rfl, rfl⟩))
  · rintro (⟨hc, hcs, rfl⟩ | ⟨hc, hcs, rfl⟩ | ⟨rfl, rfl, rfl⟩ | ⟨rfl, h⟩)
    · unfold ofWord
      cases hk : Keyword.ofWord? (String.ofList (c :: cs)) with
      | some k =>
        have htext : k.text = String.ofList (c :: cs) := by simpa using List.find?_some hk
        have hspell : Spells k.text.toList (keyword k) := .fixed rfl
        rwa [htext, String.toList_ofList] at hspell
      | none =>
        refine .name hc hcs fun k hword => ?_
        have hno := List.find?_eq_none.mp hk k (by cases k <;> decide)
        exact hno (decide_eq_true (by rw [← hword, String.ofList_toList]))
    · exact .number (List.cons_ne_nil c cs) (List.forall_mem_cons.mpr ⟨hc, hcs⟩)
    · exact .fixed (s := "->") rfl
    · have hspell : Spells (String.singleton c).toList t := .fixed (fixedText?_of_ofMark? h)
      rwa [String.toList_singleton] at hspell

/-! ### The first character decides -/

theorem not_isDigit_of_isWordStart (h : isWordStart c = true) : c.isDigit = false := by
  rw [isWordStart, Bool.or_eq_true, decide_eq_true_eq] at h
  rcases h with h | rfl
  · delta Char.isAlpha Char.isUpper Char.isLower at h
    delta Char.isDigit
    simp only [Bool.or_eq_true, Bool.and_eq_true, decide_eq_true_eq, Bool.and_eq_false_iff,
      decide_eq_false_iff_not, UInt32.le_iff_toNat_le, ge_iff_le, Char.reduceVal,
      UInt32.reduceToNat] at *
    omega
  · rfl

/-- No mark can be mistaken for the beginning of anything else. -/
theorem class_of_ofMark? (h : ofMark? c = some t) :
    isWordStart c = false ∧ c.isDigit = false ∧ c ≠ '-' ∧ isSpace c = false ∧ c ≠ '#' := by
  unfold ofMark? at h
  split at h
  all_goals cases h
  all_goals decide

theorem spells_of_isWordStart (hc : isWordStart c = true) :
    Spells (c :: cs) t ↔
      (∀ d ∈ cs, isWordRest d = true) ∧ t = ofWord (String.ofList (c :: cs)) := by
  rw [spells_cons_iff]
  refine ⟨?_, fun h => .inl ⟨hc, h⟩⟩
  rintro (⟨-, h⟩ | ⟨hdigit, -⟩ | ⟨rfl, -⟩ | ⟨-, hmark⟩)
  · exact h
  · rw [not_isDigit_of_isWordStart hc] at hdigit
    cases hdigit
  · cases hc
  · rw [(class_of_ofMark? hmark).1] at hc
    cases hc

theorem spells_of_isDigit (hc : c.isDigit = true) :
    Spells (c :: cs) t ↔ (∀ d ∈ cs, d.isDigit = true) ∧ t = ofDigits (c :: cs) := by
  rw [spells_cons_iff]
  refine ⟨?_, fun h => .inr (.inl ⟨hc, h⟩)⟩
  rintro (⟨hword, -⟩ | ⟨-, h⟩ | ⟨rfl, -⟩ | ⟨-, hmark⟩)
  · rw [not_isDigit_of_isWordStart hword] at hc
    cases hc
  · exact h
  · cases hc
  · rw [(class_of_ofMark? hmark).2.1] at hc
    cases hc

theorem spells_arrow_iff : Spells ('-' :: cs) t ↔ cs = ['>'] ∧ t = arrow := by
  rw [spells_cons_iff]
  refine ⟨?_, fun h => .inr (.inr (.inl ⟨rfl, h⟩))⟩
  rintro (⟨hword, -⟩ | ⟨hdigit, -⟩ | ⟨-, h⟩ | ⟨-, hmark⟩)
  · cases hword
  · cases hdigit
  · exact h
  · cases hmark

theorem spells_mark_iff (hword : isWordStart c = false) (hdigit : c.isDigit = false)
    (hne : c ≠ '-') : Spells (c :: cs) t ↔ cs = [] ∧ ofMark? c = some t := by
  rw [spells_cons_iff]
  simp [hword, hdigit, hne]

/-! ### The longest match -/

/-- The longest front part whose characters all satisfy `p`. -/
theorem longest_takeWhile {p : Char → Bool} :
    (n ≤ cs.length ∧ (∀ d ∈ cs.take n, p d = true) ∧
        ∀ m ≤ cs.length, (∀ d ∈ cs.take m, p d = true) → m ≤ n) ↔
      n = (cs.takeWhile p).length := by
  have htake : cs.take (cs.takeWhile p).length = cs.takeWhile p :=
    (List.prefix_iff_eq_take.mp (List.takeWhile_prefix p)).symm
  have hle : (cs.takeWhile p).length ≤ cs.length := (List.takeWhile_prefix p).length_le
  have hall : ∀ d ∈ cs.takeWhile p, p d = true := List.all_eq_true.mp List.all_takeWhile
  have hmost : ∀ m ≤ cs.length, (∀ d ∈ cs.take m, p d = true) → m ≤ (cs.takeWhile p).length := by
    intro m hm h
    have happ : cs.takeWhile p = cs.take m ++ (cs.drop m).takeWhile p := by
      rw [← List.takeWhile_append_of_pos h, List.take_append_drop]
    rw [happ, List.length_append, List.length_take, Nat.min_eq_left hm]
    exact Nat.le_add_right _ _
  constructor
  · rintro ⟨hn, h, hmax⟩
    exact Nat.le_antisymm (hmost n hn h) (hmax _ hle (by rwa [htake]))
  · rintro rfl
    exact ⟨hle, by rwa [htake], hmost⟩

/-- The front part of `c :: cs` of `n + 1` characters is the longest one that spells a token, and
`t` is this token. -/
def Longest (c : Char) (cs : List Char) (t : Token) (n : Nat) : Prop :=
  n ≤ cs.length ∧ Spells (c :: cs.take n) t ∧
    ∀ m ≤ cs.length, ∀ t', Spells (c :: cs.take m) t' → m ≤ n

/-- The longest match when all rows of characters that begin with `c` and go on with characters that
satisfy `p` spell a token. -/
theorem longest_row_iff {p : Char → Bool} {f : List Char → Token}
    (h : ∀ cs t, Spells (c :: cs) t ↔ (∀ d ∈ cs, p d = true) ∧ t = f cs) :
    Longest c cs t n ↔ some (f (cs.takeWhile p), (cs.takeWhile p).length) = some (t, n) := by
  have hmax : (∀ m ≤ cs.length, ∀ t', Spells (c :: cs.take m) t' → m ≤ n) ↔
      ∀ m ≤ cs.length, (∀ d ∈ cs.take m, p d = true) → m ≤ n := by
    simp only [h]
    exact ⟨fun hall m hm hp => hall m hm _ ⟨hp, rfl⟩, fun hall m hm _ hp => hall m hm hp.1⟩
  rw [Longest, hmax, h, Option.some.injEq, Prod.mk.injEq]
  constructor
  · rintro ⟨hn, ⟨hp, ht⟩, hall⟩
    obtain rfl := longest_takeWhile.mp ⟨hn, hp, hall⟩
    rw [← List.prefix_iff_eq_take.mp (List.takeWhile_prefix p)] at ht
    exact ⟨ht.symm, rfl⟩
  · rintro ⟨rfl, rfl⟩
    obtain ⟨hn, hp, hall⟩ := (longest_takeWhile (p := p)).mpr (Eq.refl (cs.takeWhile p).length)
    refine ⟨hn, ⟨hp, ?_⟩, hall⟩
    rw [← List.prefix_iff_eq_take.mp (List.takeWhile_prefix p)]

/-- The longest match when only the row `c :: word` spells a token. -/
theorem longest_fixed_iff {word : List Char} {q : Token → Prop}
    (h : ∀ cs t, Spells (c :: cs) t ↔ cs = word ∧ q t) :
    Longest c cs t n ↔ word <+: cs ∧ n = word.length ∧ q t := by
  have hlength : ∀ m ≤ cs.length, cs.take m = word → m = word.length := by
    intro m hm hword
    rw [← hword, List.length_take, Nat.min_eq_left hm]
  simp only [Longest, h]
  constructor
  · rintro ⟨hn, ⟨hword, hq⟩, -⟩
    exact ⟨hword ▸ List.take_prefix n cs, hlength n hn hword, hq⟩
  · rintro ⟨hword, rfl, hq⟩
    refine ⟨hword.length_le, ⟨(List.prefix_iff_eq_take.mp hword).symm, hq⟩, fun m hm _ hm' => ?_⟩
    exact Nat.le_of_eq (hlength m hm hm'.1)

/-- **The token at the front is the longest match.** -/
theorem read?_eq_some_iff : read? c cs = some (t, n) ↔ Longest c cs t n := by
  unfold read?
  split
  next hc => exact (longest_row_iff fun _ _ => spells_of_isWordStart hc).symm
  next hword =>
    rw [Bool.not_eq_true] at hword
    split
    next hc => exact (longest_row_iff fun _ _ => spells_of_isDigit hc).symm
    next hdigit =>
      rw [Bool.not_eq_true] at hdigit
      split
      next hc =>
        subst hc
        rw [longest_fixed_iff fun _ _ => spells_arrow_iff]
        rcases cs with _ | ⟨d, ds⟩
        · simp
        · by_cases hd : d = '>' <;> simp [hd, eq_comm, and_comm]
      next hne =>
        rw [longest_fixed_iff fun _ _ => spells_mark_iff hword hdigit hne]
        cases ofMark? c <;> simp [eq_comm, and_comm]

/-! ### Texts -/

theorem fixedText?_ne_empty : t.fixedText? ≠ some "" := by
  cases t with
  | name _ | number _ => simp [fixedText?]
  | keyword k => cases k <;> decide
  | _ => decide

/-- A token is spelt by some character and more. -/
theorem Spells.exists_cons {word : List Char} (h : Spells word t) : ∃ c cs, word = c :: cs := by
  cases h with
  | name => exact ⟨_, _, rfl⟩
  | number hne _ => exact List.exists_cons_of_ne_nil hne
  | @fixed t s h =>
    refine List.exists_cons_of_ne_nil fun hs => ?_
    rw [String.toList_eq_nil_iff] at hs
    exact fixedText?_ne_empty (hs ▸ h)

/-- No token begins with a blank or like a comment. -/
theorem Spells.class_of_cons (h : Spells (c :: cs) t) : isSpace c = false ∧ c ≠ '#' := by
  rcases spells_cons_iff.mp h with ⟨hc, -⟩ | ⟨hc, -⟩ | ⟨rfl, -⟩ | ⟨-, hc⟩
  · refine ⟨Bool.eq_false_iff.mpr fun hspace => ?_, ?_⟩
    · simp only [isSpace, Bool.or_eq_true, decide_eq_true_eq] at hspace
      rcases hspace with (((rfl | rfl) | rfl) | rfl) | rfl <;> cases hc
    · rintro rfl
      cases hc
  · refine ⟨Bool.eq_false_iff.mpr fun hspace => ?_, ?_⟩
    · simp only [isSpace, Bool.or_eq_true, decide_eq_true_eq] at hspace
      rcases hspace with (((rfl | rfl) | rfl) | rfl) | rfl <;> cases hc
    · rintro rfl
      cases hc
  · decide
  · exact (class_of_ofMark? hc).2.2.2

end Token

open Token in
/-- The text **splits** into the tokens: blanks are left out, and comments, which go on to the end
of the line, and each token is spelt by the longest row of characters there that spells one. -/
inductive Splits : List Char → List Token → Prop
  | nil : Splits [] []
  | space {c : Char} {cs : List Char} {ts : List Token} (hc : isSpace c = true)
      (hrest : Splits cs ts) : Splits (c :: cs) ts
  | comment {line rest : List Char} {ts : List Token} (hline : '\n' ∉ line)
      (hend : ∀ c ∈ rest.head?, c = '\n') (hrest : Splits rest ts) :
      Splits ('#' :: (line ++ rest)) ts
  | token {word rest : List Char} {t : Token} {ts : List Token} (hspell : Spells word t)
      (hlongest : ∀ longer t', longer <+: word ++ rest → Spells longer t' →
        longer.length ≤ word.length)
      (hrest : Splits rest ts) : Splits (word ++ rest) (t :: ts)

open Token in
/-- The text **leads** through the tokens to `rest`: this is left of the text behind its first
tokens. -/
inductive Leads : List Char → List Token → List Char → Prop
  | here {cs : List Char} : Leads cs [] cs
  | space {c : Char} {cs rest : List Char} {ts : List Token} (hc : isSpace c = true)
      (hrest : Leads cs ts rest) : Leads (c :: cs) ts rest
  | comment {line cs rest : List Char} {ts : List Token} (hline : '\n' ∉ line)
      (hend : ∀ c ∈ cs.head?, c = '\n') (hrest : Leads cs ts rest) :
      Leads ('#' :: (line ++ cs)) ts rest
  | token {word cs rest : List Char} {t : Token} {ts : List Token} (hspell : Spells word t)
      (hlongest : ∀ longer t', longer <+: word ++ cs → Spells longer t' →
        longer.length ≤ word.length)
      (hrest : Leads cs ts rest) : Leads (word ++ cs) (t :: ts) rest

namespace Leads

variable {c : Char} {cs rest : List Char} {t : Token} {ts : List Token}

/-- A token at the front of a text, whatever its first character. -/
theorem token_of_longest {n : Nat} (h : Token.Longest c cs t n)
    (hrest : Leads (cs.drop n) ts rest) : Leads (c :: cs) (t :: ts) rest := by
  obtain ⟨hn, hspell, hlongest⟩ := h
  have hsplit : c :: cs = (c :: cs.take n) ++ cs.drop n := by
    rw [List.cons_append, List.take_append_drop]
  have htoken : Leads ((c :: cs.take n) ++ cs.drop n) (t :: ts) rest := by
    refine .token hspell (fun longer t' hlonger hspell' => ?_) hrest
    rw [← hsplit] at hlonger
    obtain ⟨d, ds, rfl⟩ := hspell'.exists_cons
    obtain ⟨rfl, hds⟩ := List.cons_prefix_cons.mp hlonger
    rw [List.prefix_iff_eq_take.mp hds] at hspell'
    have hle := hlongest ds.length hds.length_le t' hspell'
    rw [List.length_cons, List.length_cons, List.length_take, Nat.min_eq_left hn]
    exact Nat.succ_le_succ hle
  rwa [← hsplit] at htoken

/-- A comment at the front of a text. -/
theorem comment_of_rest (h : Leads (cs.drop (cs.takeWhile (· ≠ '\n')).length) ts rest) :
    Leads ('#' :: cs) ts rest := by
  have hdrop : cs.drop (cs.takeWhile (· ≠ '\n')).length = cs.dropWhile (· ≠ '\n') := by
    calc cs.drop (cs.takeWhile (· ≠ '\n')).length
        = (cs.takeWhile (· ≠ '\n') ++ cs.dropWhile (· ≠ '\n')).drop
            (cs.takeWhile (· ≠ '\n')).length := by rw [List.takeWhile_append_dropWhile]
      _ = cs.dropWhile (· ≠ '\n') := List.drop_left
  rw [hdrop] at h
  have hline : '\n' ∉ cs.takeWhile (· ≠ '\n') := fun hmem => by
    simpa using List.all_eq_true.mp List.all_takeWhile _ hmem
  have hend : ∀ c ∈ (cs.dropWhile (· ≠ '\n')).head?, c = '\n' := fun c hc => by
    have hend := List.head?_dropWhile_not (· ≠ '\n') cs
    rw [Option.mem_def.mp hc] at hend
    simpa using hend
  have hcomment := h.comment hline hend
  rwa [List.takeWhile_append_dropWhile] at hcomment

end Leads

/-- A text splits into the tokens through which it leads to its end. -/
theorem splits_iff_leads {cs : List Char} {ts : List Token} : Splits cs ts ↔ Leads cs ts [] := by
  constructor
  · intro h
    induction h with
    | nil => exact .here
    | space hc _ ih => exact .space hc ih
    | comment hline hend _ ih => exact .comment hline hend ih
    | token hspell hlongest _ ih => exact .token hspell hlongest ih
  · intro h
    generalize hnil : [] = rest at h
    induction h with
    | here =>
      subst hnil
      exact .nil
    | space hc _ ih => exact .space hc (ih hnil)
    | comment hline hend _ ih => exact .comment hline hend (ih hnil)
    | token hspell hlongest _ ih => exact .token hspell hlongest (ih hnil)

theorem Splits.token_of_longest {c : Char} {cs : List Char} {t : Token} {ts : List Token} {n : Nat}
    (h : Token.Longest c cs t n) (hrest : Splits (cs.drop n) ts) : Splits (c :: cs) (t :: ts) :=
  splits_iff_leads.mpr (.token_of_longest h (splits_iff_leads.mp hrest))

/-- A token that stands at the front of a text is the longest match there. -/
theorem Token.longest_of_token {c : Char} {cs rest : List Char} {t : Token}
    (hspell : Token.Spells (c :: cs) t)
    (hlongest : ∀ longer t', longer <+: (c :: cs) ++ rest → Token.Spells longer t' →
      longer.length ≤ (c :: cs).length) : Token.Longest c (cs ++ rest) t cs.length := by
  refine ⟨by simp, by rwa [List.take_left], fun m hm t' hspell' => ?_⟩
  have hle := hlongest (c :: (cs ++ rest).take m) t'
    (List.cons_prefix_cons.mpr ⟨rfl, List.take_prefix m _⟩) hspell'
  rw [List.length_cons, List.length_take, Nat.min_eq_left hm, List.length_cons] at hle
  exact Nat.le_of_succ_le_succ hle

/-! ### Scans -/

theorem Pos.afterAll_append (p : Pos) (cs ds : List Char) :
    p.afterAll (cs ++ ds) = (p.afterAll cs).afterAll ds :=
  List.foldl_append

/-- Characters that are skipped only move the position on. -/
theorem scanFrom_skip (skip : Nat) (p : Pos) (cs : List Char) :
    scanFrom skip p cs = scanFrom 0 (p.afterAll (cs.take skip)) (cs.drop skip) := by
  induction cs generalizing skip p with
  | nil => cases skip <;> rfl
  | cons c cs ih =>
    cases skip with
    | zero => rfl
    | succ skip => exact ih skip (p.after c)

theorem scanFrom_comment {line rest : List Char} (hline : '\n' ∉ line)
    (hend : ∀ c ∈ rest.head?, c = '\n') (p : Pos) :
    scanFrom 0 p ('#' :: (line ++ rest)) = scanFrom 0 (p.afterAll ('#' :: line)) rest := by
  have hrest : rest.takeWhile (· ≠ '\n') = [] := by
    rcases rest with _ | ⟨c, rest⟩
    · rfl
    · rw [hend c rfl]
      rfl
  have htake : (line ++ rest).takeWhile (· ≠ '\n') = line := by
    rw [List.takeWhile_append_of_pos fun c hc => ?_, hrest, List.append_nil]
    exact decide_eq_true fun hnl => hline (hnl ▸ hc)
  rw [scanFrom, if_neg (by decide), if_pos rfl, htake, scanFrom_skip, List.drop_left,
    List.take_left]
  rfl

theorem scanFrom_token {word rest : List Char} {t : Token} (hspell : Token.Spells word t)
    (hlongest : ∀ longer t', longer <+: word ++ rest → Token.Spells longer t' →
      longer.length ≤ word.length) (p : Pos) :
    scanFrom 0 p (word ++ rest) =
      { lexemes := { token := t, start := p, stop := p.afterAll word } ::
          (scanFrom 0 (p.afterAll word) rest).lexemes
        ending := (scanFrom 0 (p.afterAll word) rest).ending } := by
  obtain ⟨c, cs, rfl⟩ := hspell.exists_cons
  obtain ⟨hspace, hcomment⟩ := hspell.class_of_cons
  have hread : Token.read? c (cs ++ rest) = some (t, cs.length) :=
    Token.read?_eq_some_iff.mpr (Token.longest_of_token hspell hlongest)
  have hskip := scanFrom_skip cs.length (p.after c) (cs ++ rest)
  rw [List.drop_left, List.take_left] at hskip
  rw [List.cons_append, scanFrom, if_neg (by rw [hspace]; decide), if_neg hcomment, hread]
  simp only [hskip, List.take_left]
  rfl

/-- **A scan finds the tokens that a text leads through**, and goes on with what is left. -/
theorem scanFrom_of_leads {cs rest : List Char} {ts : List Token} (h : Leads cs ts rest) (p : Pos) :
    ∃ before front, cs = before ++ rest ∧ front.map Lexeme.token = ts ∧
      scanFrom 0 p cs =
        { lexemes := front ++ (scanFrom 0 (p.afterAll before) rest).lexemes
          ending := (scanFrom 0 (p.afterAll before) rest).ending } := by
  induction h generalizing p with
  | here => exact ⟨[], [], rfl, rfl, rfl⟩
  | @space c cs rest ts hc _ ih =>
    obtain ⟨before, front, hcs, hfront, hscan⟩ := ih (p.after c)
    refine ⟨c :: before, front, by rw [hcs]; rfl, hfront, ?_⟩
    rw [scanFrom, if_pos hc, hscan]
    rfl
  | @comment line cs rest ts hline hend _ ih =>
    obtain ⟨before, front, hcs, hfront, hscan⟩ := ih (p.afterAll ('#' :: line))
    refine ⟨'#' :: line ++ before, front, by rw [hcs]; simp, hfront, ?_⟩
    rw [scanFrom_comment hline hend, hscan, Pos.afterAll_append]
  | @token word cs rest t ts hspell hlongest _ ih =>
    obtain ⟨before, front, hcs, hfront, hscan⟩ := ih (p.afterAll word)
    refine ⟨word ++ before, { token := t, start := p, stop := p.afterAll word } :: front,
      by rw [hcs, List.append_assoc], congrArg (t :: ·) hfront, ?_⟩
    rw [scanFrom_token hspell hlongest, hscan, Pos.afterAll_append]
    rfl

/-- What a text goes on with: it begins with no blank and is no comment. -/
def StartsHere (rest : List Char) : Prop :=
  ∀ c ∈ rest.head?, isSpace c = false ∧ c ≠ '#'

theorem startsHere_nil : StartsHere [] := by
  rintro c ⟨⟩

theorem startsHere_cons {c : Char} {cs : List Char} (hspace : ¬ isSpace c = true) (hc : c ≠ '#') :
    StartsHere (c :: cs) := by
  intro d hd
  cases hd
  exact ⟨Bool.eq_false_iff.mpr hspace, hc⟩

/-- The scan of what a text goes on with: the text is over, no token begins there, or the first one
does. -/
theorem scanFrom_of_startsHere {rest : List Char} (h : StartsHere rest) (p : Pos) :
    (rest = [] ∧ scanFrom 0 p rest = { lexemes := [], ending := .text }) ∨
      (rest ≠ [] ∧ scanFrom 0 p rest = { lexemes := [], ending := .bad p }) ∨
      (rest ≠ [] ∧ ∃ (l : Lexeme) (s : Scan), l.start = p ∧
        scanFrom 0 p rest = { lexemes := l :: s.lexemes, ending := s.ending }) := by
  cases rest with
  | nil => exact .inl ⟨rfl, rfl⟩
  | cons c cs =>
    obtain ⟨hspace, hcomment⟩ := h c rfl
    refine .inr ?_
    rw [scanFrom, if_neg (by rw [hspace]; decide), if_neg hcomment]
    cases Token.read? c cs with
    | none => exact .inl ⟨List.cons_ne_nil c cs, rfl⟩
    | some found => exact .inr ⟨List.cons_ne_nil c cs, _, _, rfl, rfl⟩

/-- **A text leads through the tokens that a scan finds**, up to any of them. -/
theorem leads_of_scanFrom {skip : Nat} {p : Pos} {cs : List Char} {front back : List Lexeme}
    (h : (scanFrom skip p cs).lexemes = front ++ back) :
    ∃ before rest, cs.drop skip = before ++ rest ∧
      Leads (cs.drop skip) (front.map Lexeme.token) rest ∧ StartsHere rest ∧
      scanFrom 0 (p.afterAll (cs.take skip ++ before)) rest =
        { lexemes := back, ending := (scanFrom skip p cs).ending } := by
  fun_induction scanFrom skip p cs generalizing front with
  | case1 skip p =>
    obtain ⟨rfl, rfl⟩ := List.append_eq_nil_iff.mp h.symm
    rw [List.drop_nil, List.take_nil]
    exact ⟨[], [], rfl, .here, startsHere_nil, rfl⟩
  | case2 p c cs skip ih => exact ih h
  | case3 p c cs hspace ih =>
    obtain ⟨before, rest, hcs, hleads, hstarts, hscan⟩ := ih h
    exact ⟨c :: before, rest, congrArg (c :: ·) hcs, .space hspace hleads, hstarts, hscan⟩
  | case4 p cs hno ih =>
    obtain ⟨before, rest, hcs, hleads, hstarts, hscan⟩ := ih h
    refine ⟨'#' :: (cs.take (cs.takeWhile (· ≠ '\n')).length ++ before), rest, ?_,
      .comment_of_rest hleads, hstarts, hscan⟩
    rw [List.drop_zero, List.cons_append, List.append_assoc, ← hcs, List.take_append_drop]
  | case5 p c cs hspace hcomment hread =>
    obtain ⟨rfl, rfl⟩ := List.append_eq_nil_iff.mp h.symm
    refine ⟨[], c :: cs, rfl, .here, startsHere_cons hspace hcomment, ?_⟩
    change scanFrom 0 p (c :: cs) = _
    rw [scanFrom, if_neg hspace, if_neg hcomment, hread]
  | case6 p c cs hspace hcomment t more hread tail stop =>
    rename_i ih
    cases front with
    | nil =>
      refine ⟨[], c :: cs, rfl, .here, startsHere_cons hspace hcomment, ?_⟩
      change scanFrom 0 p (c :: cs) = _
      rw [scanFrom, if_neg hspace, if_neg hcomment, hread, ← List.nil_append back, ← h]
    | cons l front =>
      obtain ⟨hl, hfront⟩ := List.cons.inj h
      obtain ⟨before, rest, hcs, hleads, hstarts, hscan⟩ := ih hfront
      have htoken : Leads (c :: cs) (t :: front.map Lexeme.token) rest :=
        .token_of_longest (Token.read?_eq_some_iff.mp hread) hleads
      rw [List.map_cons, ← hl]
      refine ⟨c :: (cs.take more ++ before), rest, ?_, htoken, hstarts, hscan⟩
      rw [List.drop_zero, List.cons_append, List.append_assoc, ← hcs, List.take_append_drop]

/-- What a scan finds up to the end of the text, the text splits into. -/
theorem splits_of_scanFrom {p : Pos} {cs : List Char} (h : (scanFrom 0 p cs).ending = .text) :
    Splits cs ((scanFrom 0 p cs).lexemes.map Lexeme.token) := by
  obtain ⟨before, rest, -, hleads, hstarts, hscan⟩ :=
    leads_of_scanFrom (List.append_nil (scanFrom 0 p cs).lexemes).symm
  rw [h] at hscan
  rcases scanFrom_of_startsHere hstarts (p.afterAll (cs.take 0 ++ before)) with
    ⟨rfl, -⟩ | ⟨-, hbad⟩ | ⟨-, l, s, -, htoken⟩
  · exact splits_iff_leads.mpr hleads
  · rw [hbad] at hscan
    cases hscan
  · rw [htoken] at hscan
    cases hscan

/-- A scan finds the tokens that the text splits into. -/
theorem scanFrom_of_splits {cs : List Char} {ts : List Token} (h : Splits cs ts) (p : Pos) :
    (scanFrom 0 p cs).ending = .text ∧ (scanFrom 0 p cs).lexemes.map Lexeme.token = ts := by
  obtain ⟨before, front, -, hfront, hscan⟩ := scanFrom_of_leads (splits_iff_leads.mp h) p
  rw [hscan]
  exact ⟨rfl, by rw [← hfront]; exact congrArg _ (List.append_nil front)⟩

/-- **A scan splits the text.** It comes to the end of a text exactly when the text splits into
tokens, and these are the ones that it finds. -/
theorem scan_eq_text_iff {text : String} {ts : List Token} :
    ((scan text).ending = .text ∧ (scan text).lexemes.map Lexeme.token = ts) ↔
      Splits text.toList ts := by
  constructor
  · rintro ⟨hend, rfl⟩
    exact splits_of_scanFrom hend
  · intro h
    exact scanFrom_of_splits h {}

/-- A text splits in one way at most. -/
theorem Splits.unique {cs : List Char} {ts ts' : List Token} (h : Splits cs ts)
    (h' : Splits cs ts') : ts = ts' :=
  (scanFrom_of_splits h {}).2.symm.trans (scanFrom_of_splits h' {}).2

end BorrowCheck.Listing
