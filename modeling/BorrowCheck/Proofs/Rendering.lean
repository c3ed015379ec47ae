import BorrowCheck.Proofs.Recognition

/-!
# Reading undoes writing

A program is written as a listing function by function and line by line
(`BorrowCheck.Program.text`). When its names are names, its points and constant indices are not
negative, its unknown indices have labels and its operations have exactly the parts of their kinds
(`BorrowCheck.Program.Writable`), the listing is read as the program it was written from
(`BorrowCheck.Program.parse_text`).

The proof follows the printers. Each text is cut into tokens from which the printed construct is
derived, and what these tokens are read as is known from `BorrowCheck.Proofs.Recognition`. A text
can only be cut off where a token ends. The printers put marks or blanks between words, so this
takes two notions: most pieces are cut off whatever follows (`BorrowCheck.Listing.Cuts`), a piece
that ends in a word only when no word character follows (`BorrowCheck.Listing.CutsApart`).
-/

namespace BorrowCheck

open Listing

namespace Listing

open Token

/-! ### Names and numbers -/

/-- Whether the text is a name: a word that is no keyword. -/
def isName (s : String) : Bool :=
  match s.toList with
  | [] => false
  | c :: cs => isWordStart c && cs.all isWordRest && (Keyword.ofWord? s).isNone

/-- A name is spelled as it is. -/
theorem spells_name {s : String} (h : isName s = true) : Spells s.toList (.name s) := by
  unfold isName at h
  split at h
  case h_1 => cases h
  case h_2 c cs hs =>
    simp only [Bool.and_eq_true, List.all_eq_true, Option.isNone_iff_eq_none] at h
    obtain ⟨⟨hc, hcs⟩, hfree⟩ := h
    rw [hs]
    refine spells_cons_iff.mpr (.inl ⟨hc, hcs, ?_⟩)
    rw [← hs, String.ofList_toList, ofWord, hfree]

/-- A number is spelled in decimal, and the digits give it back. -/
theorem spells_number (n : Nat) : Spells (toString n).toList (.number n) := by
  rw [Nat.toString_eq_ofList_toDigits, String.toList_ofList]
  have hspell : Spells (Nat.toDigits 10 n) _ :=
    .number Nat.toDigits_ne_nil fun d hd => Nat.isDigit_of_mem_toDigits (by decide) (by decide) hd
  rwa [Nat.ofDigitChars_ten_toDigits] at hspell

/-! ### Cutting tokens off -/

theorem isWordRest_of_isDigit {c : Char} (h : c.isDigit = true) : isWordRest c = true := by
  simp [isWordRest, Char.isAlphanum, h]

/-- A row of word characters does not reach into a text that begins with another character. -/
theorem length_le_of_isWordRest {cs ds rest : List Char} (hds : ∀ d ∈ ds, isWordRest d = true)
    (hfront : ds <+: cs ++ rest) (hapart : ∀ c ∈ rest.head?, isWordRest c = false) :
    ds.length ≤ cs.length := by
  rcases List.prefix_or_prefix_of_prefix hfront (List.prefix_append cs rest) with h | ⟨es, rfl⟩
  · exact h.length_le
  · obtain ⟨tail, rfl⟩ := (List.prefix_append_right_inj cs).mp hfront
    cases es with
    | nil => simp
    | cons e es =>
      have hword := hds e (by simp)
      rw [hapart e (by simp)] at hword
      cases hword

/-- A token is cut off when the text does not go on like a word. -/
theorem Splits.token_apart {word rest : List Char} {t : Token} {ts : List Token}
    (hspell : Spells word t) (hapart : ∀ c ∈ rest.head?, isWordRest c = false)
    (hrest : Splits rest ts) : Splits (word ++ rest) (t :: ts) := by
  refine .token hspell (fun longer t' hlonger hspell' => ?_) hrest
  obtain ⟨c, cs, rfl⟩ := hspell.exists_cons
  obtain ⟨d, ds, rfl⟩ := hspell'.exists_cons
  obtain ⟨rfl, hfront⟩ := List.cons_prefix_cons.mp hlonger
  refine Nat.succ_le_succ ?_
  -- both rows begin with `c`; a longer one would have to go on into `rest`
  rcases spells_cons_iff.mp hspell' with ⟨-, hds, -⟩ | ⟨-, hds, -⟩ | ⟨rfl, rfl, -⟩ | ⟨rfl, -⟩
  · exact length_le_of_isWordRest hds hfront hapart
  · exact length_le_of_isWordRest (fun e he => isWordRest_of_isDigit (hds e he)) hfront hapart
  · exact Nat.le_of_eq (by rw [(spells_arrow_iff.mp hspell).1])
  · exact Nat.zero_le _

theorem Splits.mark {c : Char} {rest : List Char} {t : Token} {ts : List Token}
    (h : ofMark? c = some t) (hrest : Splits rest ts) : Splits (c :: rest) (t :: ts) := by
  obtain ⟨hword, hdigit, hne, -⟩ := class_of_ofMark? h
  refine Splits.token_of_longest (n := 0) (read?_eq_some_iff.mp ?_) hrest
  simp [read?, hword, hdigit, hne, h]

theorem Splits.arrow {rest : List Char} {ts : List Token} (hrest : Splits rest ts) :
    Splits ('-' :: '>' :: rest) (.arrow :: ts) :=
  Splits.token_of_longest (n := 1) (read?_eq_some_iff.mp rfl) hrest

/-- The text `s` is **cut** off as the tokens `ts`, whatever follows. -/
def Cuts (s : String) (ts : List Token) : Prop :=
  ∀ rest us, Splits rest us → Splits (s.toList ++ rest) (ts ++ us)

/-- The text `s` is cut off as the tokens `ts` when what follows does not go on like a word. -/
def CutsApart (s : String) (ts : List Token) : Prop :=
  ∀ rest us, (∀ c ∈ rest.head?, isWordRest c = false) → Splits rest us →
    Splits (s.toList ++ rest) (ts ++ us)

section

variable {s t : String} {ts us : List Token}

theorem Cuts.apart (h : Cuts s ts) : CutsApart s ts :=
  fun rest us _ => h rest us

/-- Texts that can be followed by anything are joined, and so are their tokens. -/
theorem Cuts.append (hs : Cuts s ts) (ht : Cuts t us) : Cuts (s ++ t) (ts ++ us) := by
  intro rest vs hrest
  rw [String.toList_append, List.append_assoc, List.append_assoc]
  exact hs _ _ (ht _ _ hrest)

/-- What follows the first text may need to be set apart itself. -/
theorem Cuts.append_apart (hs : Cuts s ts) (ht : CutsApart t us) :
    CutsApart (s ++ t) (ts ++ us) := by
  intro rest vs hapart hrest
  rw [String.toList_append, List.append_assoc, List.append_assoc]
  exact hs _ _ (ht _ _ hapart hrest)

/-- A text that has to be set apart is joined with one that cannot be taken for its continuation. -/
theorem CutsApart.append (hs : CutsApart s ts) (ht : CutsApart t us)
    (hsep : ∀ c ∈ t.toList.head?, isWordRest c = false) : CutsApart (s ++ t) (ts ++ us) := by
  intro rest vs hapart hrest
  rw [String.toList_append, List.append_assoc, List.append_assoc]
  refine hs _ _ ?_ (ht _ _ hapart hrest)
  intro c hc
  rw [List.head?_append, Option.mem_def, Option.or_eq_some_iff] at hc
  rcases hc with hc | ⟨-, hc⟩
  · exact hsep c hc
  · exact hapart c hc

/-- The same for a text that can then be followed by anything. -/
theorem CutsApart.append_cuts {c : Char} {cs : List Char} (hs : CutsApart s ts) (ht : Cuts t us)
    (hlist : t.toList = c :: cs) (hc : isWordRest c = false) : Cuts (s ++ t) (ts ++ us) := by
  intro rest vs hrest
  rw [String.toList_append, List.append_assoc, List.append_assoc]
  refine hs _ _ ?_ (ht _ _ hrest)
  intro d hd
  rw [hlist] at hd
  cases hd
  exact hc

theorem cutsApart_of_spells {t : Token} (h : Spells s.toList t) : CutsApart s [t] :=
  fun _ _ hapart hrest => .token_apart h hapart hrest

theorem cutsApart_name (h : isName s = true) : CutsApart s [.name s] :=
  cutsApart_of_spells (spells_name h)

theorem cutsApart_number (n : Nat) : CutsApart (toString n) [.number n] :=
  cutsApart_of_spells (spells_number n)

/-- A keyword is a word, so it has to be set apart from what follows. -/
theorem cutsApart_keyword (k : Keyword) : CutsApart k.text [.keyword k] :=
  cutsApart_of_spells (.fixed rfl)

end

/-- The tokens of a text that consists of blanks and marks of one character. -/
def marks? : List Char → Option (List Token)
  | [] => some []
  | c :: cs => if isSpace c then marks? cs else do return (← ofMark? c) :: (← marks? cs)

/-- Marks are read one by one, whatever follows them. -/
theorem splits_marks {cs rest : List Char} {ts us : List Token} (h : marks? cs = some ts)
    (hrest : Splits rest us) : Splits (cs ++ rest) (ts ++ us) := by
  induction cs generalizing ts with
  | nil =>
    cases h
    exact hrest
  | cons c cs ih =>
    unfold marks? at h
    split at h
    case isTrue hspace => exact .space hspace (ih h)
    case isFalse =>
      obtain ⟨t, ht, h⟩ := Option.bind_eq_some_iff.mp h
      obtain ⟨vs, hvs, h⟩ := Option.bind_eq_some_iff.mp h
      cases h
      exact .mark ht (ih hvs)

theorem cuts_marks {s : String} {ts : List Token} (h : marks? s.toList = some ts) : Cuts s ts :=
  fun _ _ => splits_marks h

theorem cuts_keyword {s : String} (k : Keyword) (h : k.text ++ " " = s) : Cuts s [.keyword k] :=
  h ▸ (cutsApart_keyword k).append_cuts (cuts_marks rfl) rfl rfl

theorem cuts_arrow : Cuts " -> " [.arrow] :=
  fun _ _ hrest => .space rfl (.arrow (.space rfl hrest))

/-- The mark of a borrow is an ampersand, with the keyword of an exclusive one after it. -/
theorem cuts_mark (kind : BorrowKind) : Cuts kind.mark (.ampersand :: kindTokens kind) := by
  cases kind with
  | shared => exact cuts_marks rfl
  | exclusive =>
    exact (cuts_marks rfl : Cuts "&" [.ampersand]).append (cuts_keyword .mutable rfl)

end Listing

/-! ### What can be written -/

namespace Proj

/-- Whether the projection can be written in a listing. -/
def isWritable : Proj → Bool
  | field name => isName name
  | index value => 0 ≤ value
  | any (some label) => isName label
  | any none => false
  | deref => true

end Proj

/-- Whether the place can be written in a listing. -/
def Place.isWritable (x : Place) : Bool :=
  isName x.base && x.path.all Proj.isWritable

/-- The type can be written in a listing: all its arguments are there. -/
inductive Ty.Writable : Ty → Prop
  | mk {name : String} {args : List Ty} (ref : Option BorrowKind) (hname : isName name = true)
      (hargs : ∀ t ∈ args, t.Writable) : Writable (Ty.mk name (args.map some) ref)

theorem Ty.Writable.named {name : String} {args : List Ty} (hname : isName name = true)
    (hargs : ∀ t ∈ args, t.Writable) : (Ty.named name args).Writable :=
  .mk none hname hargs

theorem Ty.Writable.refTo {t : Ty} (h : t.Writable) (kind : BorrowKind) :
    (t.refTo kind).Writable := by
  cases h with
  | mk _ hname hargs => exact .mk (some kind) hname hargs

/-- Whether the argument of a call can be written in a listing. -/
def Arg.isWritable (a : Arg) : Bool :=
  a.place.isWritable

/-- The operation can be written in a listing: it has exactly the parts of its kind. -/
inductive Operation.Writable : Operation → Prop
  | declare {p : Point} {x : Place} {t : Ty} (span : Span) (hp : 0 ≤ p)
      (hx : x.isWritable = true) (ht : t.Writable) : Writable (.declare p x t span)
  | assign {p : Point} {x : Place} {sources : List Place} (span : Span) (hp : 0 ≤ p)
      (hx : x.isWritable = true) (hsources : ∀ s ∈ sources, s.isWritable = true) :
      Writable (.assign p x sources span)
  | move {p : Point} {x s : Place} (span : Span) (hp : 0 ≤ p) (hx : x.isWritable = true)
      (hs : s.isWritable = true) : Writable (.move p x s span)
  | borrow {p : Point} {x s : Place} (kind : BorrowKind) (span : Span) (hp : 0 ≤ p)
      (hx : x.isWritable = true) (hs : s.isWritable = true) : Writable (.borrow p kind x s span)
  | deref {p : Point} {s : Place} (span : Span) (hp : 0 ≤ p) (hs : s.isWritable = true) :
      Writable (.deref p s span)
  | use {p : Point} {s : Place} (span : Span) (hp : 0 ≤ p) (hs : s.isWritable = true) :
      Writable (.use p s span)
  | call {p : Point} {callee : String} {args : List Arg} {result : Option Place} (span : Span)
      (hp : 0 ≤ p) (hcallee : isName callee = true) (hargs : ∀ a ∈ args, a.isWritable = true)
      (hresult : ∀ x ∈ result, x.isWritable = true) : Writable (.call p callee args result span)
  | ret {p : Point} {s : Option Place} (span : Span) (hp : 0 ≤ p)
      (hs : ∀ x ∈ s, x.isWritable = true) : Writable (.ret p s span)
  | enter {p : Point} (span : Span) (hp : 0 ≤ p) : Writable (.enter p span)
  | exit {p : Point} (span : Span) (hp : 0 ≤ p) : Writable (.exit p span)

theorem Operation.Writable.point_nonneg {op : Operation} (h : op.Writable) : 0 ≤ op.point := by
  cases h <;> assumption

/-- The parameter can be written in a listing. -/
def Param.Writable (a : Param) : Prop :=
  isName a.name = true ∧ a.ty.Writable

/-- The function can be written in a listing. -/
structure Function.Writable (f : Function) : Prop where
  name : isName f.name = true
  params : ∀ a ∈ f.params, a.Writable
  ops : ∀ op ∈ f.ops, op.Writable

/-- The program can be written in a listing. -/
structure Program.Writable (P : Program) : Prop where
  functions : ∀ f ∈ P.functions, f.Writable
  nodup : (P.functions.map Function.name).Nodup

/-! ### Listings -/

/-- The parameter as it is written in a listing. -/
def Param.text (a : Param) : String :=
  a.name ++ ": " ++ a.ty.text

/-- The operation on a line of its own, after its point. -/
def Operation.line (op : Operation) : String :=
  toString op.point ++ ": " ++ op.text ++ "\n"

/-- The function as it is written in a listing: the head, the operations, and the closing brace. -/
def Function.text (f : Function) : String :=
  "fn " ++ f.name ++ "(" ++ ", ".intercalate (f.params.map Param.text) ++ ") \x7b\n" ++
    String.join (f.ops.map Operation.line) ++ "\x7d\n"

/-- The listing of a program. -/
def Program.text (P : Program) : String :=
  String.join (P.functions.map Function.text)

namespace Listing

open Token

/-- The text is a phrase of `R` that stands for `a`. -/
def Phrase {α : Type} (R : List Token → α → Prop) (s : String) (a : α) : Prop :=
  ∃ ts, CutsApart s ts ∧ R ts a

/-- A text stands for a value by its tokens, up to how their list is put together. -/
theorem Phrase.intro {α : Type} {R : List Token → α → Prop} {s : String} {a : α}
    {ts us : List Token} (hs : CutsApart s ts) (ha : R us a) (h : ts = us) : Phrase R s a :=
  ⟨us, h ▸ hs, ha⟩

/-! ### Places -/

/-- The tokens stand for `x` also when projections come after them, as they do not when the first
one is a star. -/
def Extends (ts : List Token) (x : Place) : Prop :=
  ∀ us ps, Many DerivesProj us ps → DerivesPlace (ts ++ us) (x.append ps)

section

variable {ts us : List Token} {x : Place} {p : Proj}

theorem Extends.derives (h : Extends ts x) : DerivesPlace ts x := by
  simpa [Place.append] using h [] [] .nil

/-- When one of the projections that may come is there, more may come. -/
theorem Extends.append (h : Extends ts x) (hp : DerivesProj us p) :
    Extends (ts ++ us) (x.append [p]) := by
  intro vs ps hps
  simpa [Place.append] using h (us ++ vs) (p :: ps) (.cons hp hps)

theorem extends_name (base : String) : Extends [.name base] { base } :=
  fun _ _ hps => .name base hps

theorem extends_group (hx : DerivesPlace ts x) :
    Extends (.leftParen :: (ts ++ [.rightParen])) x := by
  intro us ps hps
  simpa using DerivesPlace.group hx hps

theorem ne_empty_of_isName {s : String} (h : isName s = true) : s.isEmpty = false := by
  rw [Bool.eq_false_iff, ne_eq, String.isEmpty_iff]
  rintro rfl
  cases h

/-- A projection that is written after its place, and is set off from it by its first character. -/
theorem phrase_suffix (hp : p.isWritable = true) (hne : p ≠ .deref) :
    Phrase DerivesProj p.suffix p ∧ ∀ c ∈ p.suffix.toList.head?, isWordRest c = false := by
  have hdot : Cuts "." [.dot] := cuts_marks rfl
  have hleft : Cuts "[" [.leftBracket] := cuts_marks rfl
  have hright : Cuts "]" [.rightBracket] := cuts_marks rfl
  cases p with
  | deref => exact absurd rfl hne
  | field name =>
    refine ⟨⟨_, hdot.append_apart (cutsApart_name hp), .field name⟩, ?_⟩
    rw [Proj.suffix, String.toList_append]
    rintro c ⟨⟩
    rfl
  | index value =>
    obtain ⟨n, rfl⟩ := Int.eq_ofNat_of_zero_le (of_decide_eq_true hp)
    have hcuts := (hleft.append_apart (cutsApart_number n)).append_cuts hright rfl rfl
    refine ⟨⟨_, hcuts.apart, .index n⟩, ?_⟩
    rw [Proj.suffix, String.toList_append, String.toList_append]
    rintro c ⟨⟩
    rfl
  | any label =>
    cases label with
    | none => cases hp
    | some label =>
      have hcuts := (hleft.append_apart (cutsApart_name hp)).append_cuts hright rfl rfl
      have hsuffix : (Proj.any (some label)).suffix = "[" ++ label ++ "]" := by
        rw [Proj.suffix, if_neg (by rw [ne_empty_of_isName hp]; exact Bool.false_ne_true)]
      rw [hsuffix]
      refine ⟨⟨_, hcuts.apart, .any label⟩, ?_⟩
      rw [String.toList_append, String.toList_append]
      rintro c ⟨⟩
      rfl

/-- The invariant of writing a path: the text so far stands for `x`, and when it does not start with
a star it can be extended. -/
theorem phrase_write {s : String} {starred : Bool} {ps : List Proj} (hs : CutsApart s ts)
    (hx : DerivesPlace ts x) (hextends : starred = false → Extends ts x)
    (hps : ∀ p ∈ ps, p.isWritable = true) :
    Phrase DerivesPlace (Place.write s starred ps) (x.append ps) := by
  induction ps generalizing s starred ts x with
  | nil =>
    refine ⟨ts, hs, ?_⟩
    rwa [Place.append, List.append_nil]
  | cons p ps ih =>
    obtain ⟨hp, hrest⟩ := List.forall_mem_cons.mp hps
    have happend : x.append (p :: ps) = (x.append [p]).append ps := by simp [Place.append]
    rw [happend]
    by_cases hderef : p = .deref
    · -- the text grows at its front, and nothing can be put after it any more
      subst hderef
      have hstar : Cuts "*" [.star] := cuts_marks rfl
      exact ih (hstar.append_apart hs) (.deref hx) (fun h => by cases h) hrest
    · -- the text grows at its end, behind parentheses if there is a star at its front
      have hopen : ∃ us, CutsApart (if starred then "(" ++ s ++ ")" else s) us ∧ Extends us x := by
        cases starred with
        | false => exact ⟨ts, hs, hextends rfl⟩
        | true =>
          have hleft : Cuts "(" [.leftParen] := cuts_marks rfl
          have hright : Cuts ")" [.rightParen] := cuts_marks rfl
          exact ⟨_, ((hleft.append_apart hs).append_cuts hright rfl rfl).apart, extends_group hx⟩
      obtain ⟨us, hus, hextends⟩ := hopen
      obtain ⟨⟨vs, hvs, hproj⟩, hsep⟩ := phrase_suffix hp hderef
      have hwrite : Place.write s starred (p :: ps) =
          Place.write ((if starred then "(" ++ s ++ ")" else s) ++ p.suffix) false ps := by
        rw [Place.write]
        exact hderef
      rw [hwrite]
      have hmore := hextends.append hproj
      exact ih (hus.append hvs hsep) hmore.derives (fun _ => hmore) hrest

/-- A place is read from its text: its name stands for the variable, and the path is written on. -/
theorem phrase_place (hx : x.isWritable = true) : Phrase DerivesPlace x.text x := by
  rw [Place.isWritable, Bool.and_eq_true, List.all_eq_true] at hx
  have hbase := extends_name x.base
  exact phrase_write (cutsApart_name hx.1) hbase.derives (fun _ => hbase) hx.2

end

/-! ### Lists -/

section

variable {α : Type} {R : List Token → α → Prop} {text : α → String}

theorem cuts_comma : Cuts ", " [.comma] :=
  cuts_marks rfl

/-- Items that are separated by commas, at least one. -/
theorem phrase_commas {a : α} {as : List α} (h : ∀ b ∈ a :: as, Phrase R (text b) b) :
    Phrase (Commas R) (", ".intercalate ((a :: as).map text)) (a :: as) := by
  induction as generalizing a with
  | nil =>
    obtain ⟨ts, hts, ha⟩ := h a List.mem_cons_self
    refine ⟨ts, ?_, ts, [], a, [], (List.append_nil ts).symm, rfl, ha, .nil⟩
    rwa [List.map_singleton, String.intercalate_singleton]
  | cons b bs ih =>
    obtain ⟨ts, hts, ha⟩ := h a List.mem_cons_self
    obtain ⟨us, hus, hbs⟩ := ih fun c hc => h c (List.mem_cons_of_mem a hc)
    refine ⟨ts ++ [.comma] ++ us, ?_, ts, .comma :: us, a, b :: bs, List.append_assoc .., rfl, ha,
      many_after_comma_iff.mpr (.inr ⟨us, rfl, hbs⟩)⟩
    rw [List.map_cons, List.map_cons, String.intercalate_cons_cons]
    exact (hts.append_cuts cuts_comma rfl rfl).append_apart hus

/-- Items that are separated by commas, perhaps none. -/
theorem phrase_listed {as : List α} (h : ∀ a ∈ as, Phrase R (text a) a) :
    Phrase (Listed R) (", ".intercalate (as.map text)) as := by
  cases as with
  | nil => exact ⟨[], (cuts_marks rfl : Cuts "" []).apart, .inl ⟨rfl, rfl⟩⟩
  | cons a as =>
    obtain ⟨ts, hts, has⟩ := phrase_commas h
    exact ⟨ts, hts, .inr has⟩

/-- Pieces that are cut off whatever follows, one after the other. -/
theorem cuts_join {g : α → α} {as : List α} (h : ∀ a ∈ as, ∃ ts, Cuts (text a) ts ∧ R ts (g a)) :
    ∃ ts, Cuts (String.join (as.map text)) ts ∧ Many R ts (as.map g) := by
  induction as with
  | nil => exact ⟨[], cuts_marks rfl, .nil⟩
  | cons a as ih =>
    obtain ⟨ts, hts, ha⟩ := h a List.mem_cons_self
    obtain ⟨us, hus, has⟩ := ih fun b hb => h b (List.mem_cons_of_mem a hb)
    refine ⟨ts ++ us, ?_, .cons ha has⟩
    rw [List.map_cons, String.join_cons]
    exact hts.append hus

end

/-! ### Types -/

theorem argText_append_restText (t : Ty) (ts : List Ty) :
    Ty.argText (some t) ++ Ty.restText (ts.map some) =
      ", ".intercalate ((t :: ts).map Ty.text) := by
  induction ts generalizing t with
  | nil => simp [Ty.argText, Ty.restText]
  | cons u us ih =>
    rw [List.map_cons, Ty.restText, String.append_assoc, ih u, List.map_cons, List.map_cons,
      List.map_cons, String.intercalate_cons_cons, Ty.argText, String.append_assoc]

theorem text_eq_intercalate (name : String) (t : Ty) (ts : List Ty) (ref : Option BorrowKind) :
    (Ty.mk name ((t :: ts).map some) ref).text =
      Ty.refMark ref ++ name ++ "<" ++ ", ".intercalate ((t :: ts).map Ty.text) ++ ">" := by
  rw [← argText_append_restText, List.map_cons, Ty.text]
  simp only [String.append_assoc]

/-- The mark of a reference before the text of a type without one. -/
theorem cuts_refMark {ts : List Token} {name : String} {args : List (Option Ty)}
    (h : DerivesType ts (Ty.mk name args none)) (ref : Option BorrowKind) :
    ∃ us, Cuts (Ty.refMark ref) us ∧ DerivesType (us ++ ts) (Ty.mk name args ref) := by
  cases ref with
  | none => exact ⟨[], cuts_marks rfl, h⟩
  | some kind => exact ⟨_, cuts_mark kind, .ref kind h⟩

/-- A type is read from its text, by induction on the type. -/
theorem phrase_type {t : Ty} (h : t.Writable) : Phrase DerivesType t.text t := by
  induction h with
  | @mk name args ref hname _ ih =>
    cases args with
    | nil =>
      obtain ⟨us, hus, hderives⟩ := cuts_refMark (.named name) ref
      exact ⟨_, hus.append_apart (cutsApart_name hname), hderives⟩
    | cons t ts =>
      obtain ⟨vs, hvs, hargs⟩ := phrase_commas ih
      have hnamed : DerivesType (.name name :: .leftAngle :: (vs ++ [.rightAngle])) _ :=
        derivesType_name_iff.mpr (.inr ⟨_, rfl, vs, _, rfl, hargs, rfl⟩)
      obtain ⟨us, hus, hderives⟩ := cuts_refMark hnamed ref
      have hleft : Cuts "<" [.leftAngle] := cuts_marks rfl
      have hright : Cuts ">" [.rightAngle] := cuts_marks rfl
      have hhead := (hus.append_apart (cutsApart_name hname)).append_cuts hleft rfl rfl
      have hcuts := (hhead.append_apart hvs).append_cuts hright rfl rfl
      refine ⟨_, ?_, hderives⟩
      rw [text_eq_intercalate]
      simpa using hcuts.apart

/-! ### Statements -/

theorem phrase_arg {a : Arg} (h : a.isWritable = true) : Phrase DerivesArg a.text a := by
  obtain ⟨x, mode⟩ := a
  obtain ⟨ts, hts, hx⟩ := phrase_place h
  cases mode with
  | value => exact ⟨ts, hts, .value hx⟩
  | lend kind => exact ⟨_, (cuts_mark kind).append_apart hts, .lend kind hx⟩

theorem cuts_equals : Cuts " = " [.equals] :=
  cuts_marks rfl

theorem text_assign (p : Point) (x s : Place) (sources : List Place) (span : Span) :
    (Operation.assign p x (s :: sources) span).text =
      "assign " ++ x.text ++ " = " ++ ", ".intercalate ((s :: sources).map Place.text) :=
  rfl

/-- A statement is read from its text; there is one case for each kind of operation. -/
theorem phrase_statement {op : Operation} (h : op.Writable) :
    Phrase (DerivesStatement op.point) op.text op.withoutSpan := by
  cases h with
  | @declare p x t span _ hx ht =>
    obtain ⟨ts, hts, hx⟩ := phrase_place hx
    obtain ⟨us, hus, ht⟩ := phrase_type ht
    have hcolon : Cuts ": " [.colon] := cuts_marks rfl
    have htarget := ((cuts_keyword .declare rfl).append_apart hts).append_cuts hcolon rfl rfl
    have hcuts := htarget.append_apart hus
    exact .intro hcuts (.declare hx ht) (by simp)
  | @assign p x sources span _ hx hsources =>
    obtain ⟨ts, hts, hx⟩ := phrase_place hx
    have hkeyword : Cuts "assign " [.keyword .assign] := cuts_keyword .assign rfl
    have htarget := hkeyword.append_apart hts
    cases sources with
    | nil => exact ⟨_, htarget, .assign hx⟩
    | cons s sources =>
      have hall : ∀ y ∈ s :: sources, Phrase DerivesPlace y.text y :=
        fun y hy => phrase_place (hsources y hy)
      obtain ⟨us, hus, hderives⟩ := phrase_commas hall
      have hcuts := (htarget.append_cuts cuts_equals rfl rfl).append_apart hus
      rw [← text_assign p x s sources span] at hcuts
      exact .intro hcuts (.assignFrom hx hderives) (by simp)
  | @move p x s span _ hx hs =>
    obtain ⟨ts, hts, hx⟩ := phrase_place hx
    obtain ⟨us, hus, hs⟩ := phrase_place hs
    have htarget := ((cuts_keyword .move rfl).append_apart hts).append_cuts cuts_equals rfl rfl
    have hcuts := htarget.append_apart hus
    exact .intro hcuts (.move hx hs) (by simp)
  | @borrow p x s kind span _ hx hs =>
    obtain ⟨ts, hts, hx⟩ := phrase_place hx
    obtain ⟨us, hus, hs⟩ := phrase_place hs
    have htarget := ((cuts_keyword .borrow rfl).append_apart hts).append_cuts cuts_equals rfl rfl
    have hcuts := (htarget.append (cuts_mark kind)).append_apart hus
    exact .intro hcuts (.borrow kind hx hs) (by simp)
  | @deref p s span _ hs =>
    obtain ⟨ts, hts, hs⟩ := phrase_place hs
    exact ⟨_, (cuts_keyword .deref rfl).append_apart hts, .deref hs⟩
  | @use p s span _ hs =>
    obtain ⟨ts, hts, hs⟩ := phrase_place hs
    exact ⟨_, (cuts_keyword .use rfl).append_apart hts, .use hs⟩
  | @call p callee args result span _ hcallee hargs hresult =>
    obtain ⟨ts, hts, hargs⟩ := phrase_listed fun a ha => phrase_arg (hargs a ha)
    have hleft : Cuts "(" [.leftParen] := cuts_marks rfl
    have hright : Cuts ")" [.rightParen] := cuts_marks rfl
    have hhead := ((cuts_keyword .call rfl).append_apart (cutsApart_name hcallee)).append_cuts hleft
      rfl rfl
    have hcall := (hhead.append_apart hts).append_cuts hright rfl rfl
    cases result with
    | none => exact .intro hcall.apart (.call callee hargs) (by simp)
    | some x =>
      obtain ⟨us, hus, hx⟩ := phrase_place (hresult x rfl)
      exact .intro ((hcall.append cuts_arrow).append_apart hus) (.callTo callee hargs hx) (by simp)
  | @ret p s span _ hs =>
    cases s with
    | none => exact ⟨_, cutsApart_keyword .ret, .ret⟩
    | some s =>
      obtain ⟨ts, hts, hs⟩ := phrase_place (hs s rfl)
      exact ⟨_, (cuts_keyword .ret rfl).append_apart hts, .retOf hs⟩
  | @enter p span => exact ⟨_, cutsApart_keyword .enter, .enter⟩
  | @exit p span => exact ⟨_, cutsApart_keyword .exit, .exit⟩

/-! ### Operations and functions -/

/-- A line ends with a blank character, so any text can follow it. -/
theorem cuts_line {op : Operation} (h : op.Writable) :
    ∃ ts, Cuts op.line ts ∧ DerivesOp ts op.withoutSpan := by
  obtain ⟨n, hn⟩ := Int.eq_ofNat_of_zero_le h.point_nonneg
  obtain ⟨ts, hts, hop⟩ := phrase_statement h
  have hcolon : Cuts ": " [.colon] := cuts_marks rfl
  have hend : Cuts "\n" [] := cuts_marks rfl
  have hpoint := (cutsApart_number n).append_cuts hcolon rfl rfl
  have hcuts := (hpoint.append_apart hts).append_cuts hend rfl rfl
  rw [List.append_nil] at hcuts
  rw [hn] at hop
  refine ⟨_, ?_, .mk n hop⟩
  rw [Operation.line, hn]
  exact hcuts

theorem phrase_param {a : Param} (h : a.Writable) : Phrase DerivesParam a.text a := by
  obtain ⟨name, ty⟩ := a
  obtain ⟨hname, hty⟩ := h
  obtain ⟨ts, hts, hderives⟩ := phrase_type hty
  have hcolon : Cuts ": " [.colon] := cuts_marks rfl
  exact ⟨_, ((cutsApart_name hname).append_cuts hcolon rfl rfl).append_apart hts, .mk name hderives⟩

/-- A function is read from its header and its lines. -/
theorem cuts_function {f : Function} (h : f.Writable) :
    ∃ ts, Cuts f.text ts ∧ DerivesFunction ts f.withoutSpans := by
  have hall : ∀ a ∈ f.params, Phrase DerivesParam a.text a :=
    fun a ha => phrase_param (h.params a ha)
  obtain ⟨ts, hts, hparams⟩ := phrase_listed hall
  obtain ⟨us, hus, hops⟩ := cuts_join fun op hop => cuts_line (h.ops op hop)
  have hleft : Cuts "(" [.leftParen] := cuts_marks rfl
  have hopen : Cuts ") \x7b\n" [.rightParen, .leftBrace] := cuts_marks rfl
  have hclose : Cuts "\x7d\n" [.rightBrace] := cuts_marks rfl
  have hname := (cuts_keyword .function rfl).append_apart (cutsApart_name h.name)
  have hhead := ((hname.append_cuts hleft rfl rfl).append_apart hts).append_cuts hopen rfl rfl
  have hcuts := (hhead.append hus).append hclose
  have hderives : DerivesFunction _ f.withoutSpans := .mk f.name hparams hops
  exact ⟨_, hcuts, by simpa using hderives⟩

end Listing

/-- The text of a program lists it, but for the places in the text, of which the program knows
nothing. -/
theorem Program.Writable.listedBy {P : Program} (h : P.Writable) :
    P.withoutSpans.ListedBy P.text := by
  obtain ⟨ts, hts, hfunctions⟩ := cuts_join fun f hf => cuts_function (h.functions f hf)
  refine ⟨⟨ts, ?_, hfunctions⟩, ?_⟩
  · have hsplits := hts [] [] .nil
    rwa [List.append_nil, List.append_nil] at hsplits
  · have hnames : P.withoutSpans.functions.map Function.name = P.functions.map Function.name :=
      List.map_map
    rw [hnames]
    exact h.nodup

/-- **Reading undoes writing.** The listing of a program is read as that program, with the labels of
its indices, except for the spans. -/
theorem Program.parse_text (P : Program) (file : Option String) (h : P.Writable) :
    ∃ Q, Program.parse P.text file = .ok Q ∧ Q.withoutSpans = P.withoutSpans :=
  (Program.parse_iff_listedBy file).mpr h.listedBy

/-- A program in which stars and projections alternate, with names that begin like keywords, and
operations whose last part may be missing. -/
def alternating : Program where
  functions := [
    { name := "use_all"
      params := [{
        name := "v"
        ty := (Ty.named "Map" [Ty.named "K", (Ty.named "mutable").refTo .exclusive]).refTo
          .shared }]
      ops := [
        .declare 0 { base := "r" } ((Ty.named "fnord").refTo .exclusive),
        .assign 1 { base := "x" } [],
        .assign 2 { base := "x" } [{ base := "v", path := [.deref, .field "a"] }, { base := "v" }],
        .borrow 3 .exclusive { base := "r" }
          { base := "v", path := [.index 12, .deref, .deref, .any (some "i"), .field "b", .deref] },
        .call 5 "move_" [{ place := { base := "x" }, mode := .lend .exclusive }] none,
        .ret 8 none] },
    { name := "_" }]

theorem Program.parse_text_alternating :
    alternating.Writable ∧
      ∃ Q, Program.parse alternating.text none = .ok Q ∧ Q.withoutSpans = alternating := by
  have hleaf : ∀ name, isName name = true → (Ty.named name).Writable :=
    fun name hname => .named hname (List.forall_mem_nil _)
  have hmap : (Ty.named "Map" [Ty.named "K", (Ty.named "mutable").refTo .exclusive]).Writable := by
    refine .named (by decide) (List.forall_mem_cons.mpr ⟨hleaf _ (by decide), ?_⟩)
    exact List.forall_mem_singleton.mpr ((hleaf _ (by decide)).refTo .exclusive)
  have hwritable : alternating.Writable := by
    constructor
    · refine List.forall_mem_cons.mpr ⟨⟨by decide, ?_, ?_⟩, List.forall_mem_singleton.mpr
        ⟨by decide, List.forall_mem_nil _, List.forall_mem_nil _⟩⟩
      · exact List.forall_mem_singleton.mpr ⟨by decide, hmap.refTo .shared⟩
      · simp only [List.forall_mem_cons]
        refine ⟨.declare _ (by decide) (by decide) ((hleaf _ (by decide)).refTo _),
          .assign _ (by decide) (by decide) (by decide),
          .assign _ (by decide) (by decide) (by decide),
          .borrow _ _ (by decide) (by decide) (by decide),
          .call _ (by decide) (by decide) (by decide) (by decide),
          .ret _ (by decide) (by decide), List.forall_mem_nil _⟩
    · decide
  exact ⟨hwritable, Program.parse_text alternating none hwritable⟩

end BorrowCheck
