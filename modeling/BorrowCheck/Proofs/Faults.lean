import BorrowCheck.Proofs.Impossible
import BorrowCheck.Proofs.Rendering
import Mathlib.Data.List.Induction

/-!
# Where a listing is refused

A text that is no listing is refused at the first place at which no listing can go on as it does
(`BorrowCheck.Program.parse_fault_positions`). To say so without the readers and the scan, a text
**goes on** after its first tokens at a position (`BorrowCheck.Listing.GoesOn`): that of the first
character behind the blanks and comments. Positions are counted from the text before them
(`BorrowCheck.Listing.Pos.ofFront`): a line for each line feed, a column for each character after
the last one.

The tokens that the readers take are the longest row of first tokens with which some listing begins;
the fault is reported where the text goes on after them, and when it does not, where its last token
begins. Only a text that is derived from the start symbol is searched for two functions of one name,
and the fault is reported where the second one begins.
-/

namespace BorrowCheck

namespace Listing

/-! ### Lines and columns -/

/-- The position behind the characters `before`. -/
def Pos.ofFront (before : List Char) : Pos where
  offset := before.length
  line := before.count '\n' + 1
  column := (before.reverse.takeWhile (· ≠ '\n')).length + 1

/-- **Positions count lines and columns.** -/
theorem Pos.afterAll_eq_ofFront (before : List Char) : Pos.afterAll {} before = ofFront before := by
  -- columns are counted back from the end, so the last character is taken off
  induction before using List.reverseRecOn with
  | nil => rfl
  | append_singleton before c ih =>
    rw [afterAll_append, ih]
    show (ofFront before).after c = _
    by_cases hc : c = '\n'
    · simp [Pos.after, ofFront, hc]
    · simp [Pos.after, ofFront, hc]

/-! ### Where a text goes on -/

/-- Behind the tokens `ts`, and behind the blanks and comments after them, the text **goes on** with
`rest`, at the position `pos`. -/
def GoesOn (text : List Char) (ts : List Token) (rest : List Char) (pos : Pos) : Prop :=
  Leads text ts rest ∧ StartsHere rest ∧ ∃ before, text = before ++ rest ∧ pos = Pos.ofFront before

section

variable {text : String} {ts : List Token} {rest : List Char} {pos : Pos}
  {front back : List Lexeme} {l : Lexeme}

/-- A text goes on after the tokens that its scan finds first, and so does the scan. -/
theorem exists_goesOn (h : (scan text).lexemes = front ++ back) :
    ∃ rest pos, GoesOn text.toList (tokens front) rest pos ∧
      scanFrom 0 pos rest = { lexemes := back, ending := (scan text).ending } := by
  obtain ⟨before, rest, hcs, hleads, hstarts, hscan⟩ := leads_of_scanFrom h
  rw [List.take_zero, List.nil_append, Pos.afterAll_eq_ofFront] at hscan
  exact ⟨rest, _, ⟨hleads, hstarts, before, hcs, rfl⟩, hscan⟩

/-- A scan that starts where no blank and no comment is finds its first token there. -/
theorem start_of_scanFrom (h : StartsHere rest) (hl : (scanFrom 0 pos rest).lexemes = l :: back) :
    rest ≠ [] ∧ l.start = pos := by
  rcases scanFrom_of_startsHere h pos with ⟨-, htext⟩ | ⟨-, hbad⟩ | ⟨hne, m, s, hm, htoken⟩
  · rw [htext] at hl
    cases hl
  · rw [hbad] at hl
    cases hl
  · rw [htoken] at hl
    obtain ⟨rfl, -⟩ := List.cons.inj hl
    exact ⟨hne, hm⟩

/-- After the tokens that the scan finds first the text goes on where the next one starts. -/
theorem goesOn_of_scan (h : (scan text).lexemes = front ++ l :: back) :
    ∃ rest, rest ≠ [] ∧ GoesOn text.toList (tokens front) rest l.start := by
  obtain ⟨rest, pos, hgoes, hscan⟩ := exists_goesOn h
  obtain ⟨hne, rfl⟩ := start_of_scanFrom hgoes.2.1 (congrArg Scan.lexemes hscan)
  exact ⟨rest, hne, hgoes⟩

/-- A text leads through tokens that the scan finds first. -/
theorem exists_front_of_leads (h : Leads text.toList ts rest) :
    ∃ front back, (scan text).lexemes = front ++ back ∧ tokens front = ts := by
  obtain ⟨before, front, -, hfront, hscan⟩ := scanFrom_of_leads h {}
  exact ⟨front, _, congrArg Scan.lexemes hscan, hfront⟩

/-- The next token starts where the text goes on. -/
theorem GoesOn.start_eq (h : GoesOn text.toList (tokens front) rest pos)
    (hlexemes : (scan text).lexemes = front ++ l :: back) : l.start = pos := by
  obtain ⟨hleads, hstarts, before, hcs, rfl⟩ := h
  obtain ⟨before', front', hcs', hfront, hscan⟩ := scanFrom_of_leads hleads {}
  -- the scan comes to `rest` as well, with as many tokens behind it
  obtain rfl : before = before' := List.append_cancel_right (hcs.symm.trans hcs')
  rw [Pos.afterAll_eq_ofFront] at hscan
  have hsplit := hlexemes.symm.trans (congrArg Scan.lexemes hscan)
  have hlength : front.length = front'.length := by
    simpa [tokens] using (congrArg List.length hfront).symm
  obtain ⟨-, hnext⟩ := List.append_inj hsplit hlength
  exact (start_of_scanFrom hstarts hnext.symm).2

end

/-! ### Beginnings of listings -/

/-- Some listing **begins** with the tokens `ts`: they are the first tokens of a text that is
derived from the start symbol. -/
def BeginsListing (ts : List Token) : Prop :=
  ∃ cs us fs, Splits cs (ts ++ us) ∧ Derives (ts ++ us) fs

theorem Leads.spellable {cs rest : List Char} {ts : List Token} (h : Leads cs ts rest) :
    Spellable ts := by
  induction h with
  | here => exact spellable_nil
  | space _ _ ih => exact ih
  | comment _ _ _ ih => exact ih
  | token hspell _ _ ih => exact List.forall_mem_cons.mpr ⟨⟨_, hspell⟩, ih⟩

/-- Tokens that can be written can be written one after the other, with blanks between them. -/
theorem exists_splits {ts : List Token} (h : Spellable ts) : ∃ cs, Splits cs ts := by
  induction ts with
  | nil => exact ⟨[], .nil⟩
  | cons t ts ih =>
    obtain ⟨⟨word, hspell⟩, hts⟩ := List.forall_mem_cons.mp h
    obtain ⟨cs, hcs⟩ := ih hts
    refine ⟨word ++ ' ' :: cs, .token_apart hspell (fun c hc => ?_) (.space rfl hcs)⟩
    cases hc
    rfl

theorem beginsListing_of_begins {ts : List Token} (hts : Spellable ts) (h : Begins Derives ts) :
    BeginsListing ts := by
  obtain ⟨us, fs, hus, hfs⟩ := h
  obtain ⟨cs, hcs⟩ := exists_splits (hts.append hus)
  exact ⟨cs, us, fs, hcs, hfs⟩

/-! ### Where the readers are stuck -/

section

variable {text : String} {file : Option String}

/-- What the readers leave of the tokens of a text. -/
def unread (file : Option String) (text : String) : List Lexeme :=
  Reads.leaves (Reads.functions file ((scan text).lexemes.length + 1)) (scan text).lexemes

/-- A text that is not derived from the start symbol is refused where the readers are stuck. -/
theorem parse_eq_unexpected (h : ¬ ∃ ts fs, Splits text.toList ts ∧ Derives ts fs) :
    Program.parse text file =
      .error (unexpectedAt text (stuckAt (scan text) (unread file text))) := by
  simp only [Program.parse]
  cases hread : Reads.functions file ((scan text).lexemes.length + 1) (scan text).lexemes with
  | error rest =>
    have hfunctions : readFunctions file (scan text).lexemes = .error rest := by
      rw [readFunctions, hread]
      rfl
    simp only [hfunctions, unread, Reads.leaves_of_error hread]
  | ok found =>
    obtain ⟨fs, rest⟩ := found
    cases Reads.eq_nil_of_functions hread
    have hfunctions := readFunctions_eq_ok_iff.mpr hread
    simp only [hfunctions, unread, Reads.leaves_of_ok hread]
    cases hending : (scan text).ending with
    | bad pos => simp only [stuckAt, hending]
    | text =>
      have hderives := (readFunctions_iff_derives file).mp ⟨fs, hfunctions, rfl⟩
      exact absurd ⟨_, _, scan_eq_text_iff.mp ⟨hending, rfl⟩, hderives⟩ h

/-- A text that is derived from the start symbol has no impossible token. -/
theorem parse_ne_unexpected {ts : List Token} {fs : List Function} {pos : Pos} {shown : String}
    (hts : Splits text.toList ts) (hfs : Derives ts fs) :
    Program.parse text file ≠ .error (.unexpected pos shown) := by
  obtain ⟨hending, rfl⟩ := scan_eq_text_iff.mpr hts
  obtain ⟨gs, hgs, -⟩ := (readFunctions_iff_derives file).mpr hfs
  simp only [Program.parse, hgs, hending]
  cases firstRepeated? [] gs with
  | none => simp
  | some found => simp

/-- The readers take the longest row of first tokens with which a listing begins. -/
theorem exists_front (file : Option String) (text : String) :
    ∃ front, (scan text).lexemes = front ++ unread file text ∧ Begins Derives (tokens front) ∧
      ∀ us rest, Leads text.toList us rest → BeginsListing us → us <+: tokens front := by
  obtain ⟨front, hls, hbegins, hnext⟩ :=
    Reads.follows_functions file (Nat.lt_succ_self (scan text).lexemes.length)
  rw [Reads.leaves_map] at hls hnext
  refine ⟨front, hls, hbegins, fun us rest hleads ⟨_, vs, fs, _, hfs⟩ => ?_⟩
  obtain ⟨front', back, hls', rfl⟩ := exists_front_of_leads hleads
  rcases List.append_eq_append_iff.mp (hls.symm.trans hls') with
    ⟨more, rfl, hmore⟩ | ⟨more, rfl, -⟩
  · cases more with
    | nil => simp
    | cons l more =>
      -- the readers left a token with which a listing can go on
      rw [tokens_append, tokens_cons, List.append_assoc, List.cons_append] at hfs
      exact absurd hfs (hnext l _ hmore _ fs)
  · rw [tokens_append]
    exact List.prefix_append _ _

/-- The readers are stuck where the text goes on after the tokens they took, and if it does not,
where the last of them begins. -/
theorem stuckAt_cases {front back : List Lexeme} (h : (scan text).lexemes = front ++ back) :
    ∃ rest pos, GoesOn text.toList (tokens front) rest pos ∧
      (rest ≠ [] → stuckAt (scan text) back = pos) ∧
      (rest = [] → ∀ init l, front = init ++ [l] → stuckAt (scan text) back = l.start) := by
  obtain ⟨rest, pos, hgoes, hscan⟩ := exists_goesOn h
  refine ⟨rest, pos, hgoes, ?_⟩
  rcases scanFrom_of_startsHere hgoes.2.1 pos with
    ⟨rfl, htext⟩ | ⟨hne, hbad⟩ | ⟨hne, m, s, rfl, htoken⟩
  · obtain ⟨rfl, hending⟩ := Scan.mk.inj (htext.symm.trans hscan)
    refine ⟨fun hne => absurd rfl hne, fun _ init l hfront => ?_⟩
    simp [stuckAt, ← hending, h, hfront]
  · obtain ⟨rfl, hending⟩ := Scan.mk.inj (hbad.symm.trans hscan)
    refine ⟨fun _ => ?_, fun hnil => absurd hnil hne⟩
    simp [stuckAt, ← hending]
  · obtain ⟨rfl, -⟩ := Scan.mk.inj (htoken.symm.trans hscan)
    exact ⟨fun _ => rfl, fun hnil => absurd hnil hne⟩

end

/-! ### Repeated names -/

/-- The first function that has the name of another one before it. -/
theorem firstRepeated?_eq_some_iff {seen : List String} {fs : List (Pos × Function)}
    {f : Pos × Function} : firstRepeated? seen fs = some f ↔ ∃ gs hs, fs = gs ++ f :: hs ∧
      (gs.map fun g => g.2.name).Nodup ∧ (∀ g ∈ gs, g.2.name ∉ seen) ∧
      (f.2.name ∈ seen ∨ f.2.name ∈ gs.map fun g => g.2.name) := by
  induction fs generalizing seen with
  | nil => simp [firstRepeated?]
  | cons e fs ih =>
    unfold firstRepeated?
    split
    case isTrue h =>
      rw [List.contains_iff_mem] at h
      constructor
      · intro he
        cases he
        exact ⟨[], fs, rfl, List.nodup_nil, by simp, .inl h⟩
      · rintro ⟨gs, hs, heq, -, hseen, -⟩
        cases gs with
        | nil =>
          cases heq
          rfl
        | cons g gs =>
          cases heq
          exact absurd h (hseen e List.mem_cons_self)
    case isFalse h =>
      rw [List.contains_iff_mem] at h
      rw [ih]
      constructor
      · rintro ⟨gs, hs, rfl, hnodup, hseen, hname⟩
        refine ⟨e :: gs, hs, rfl, ?_, ?_, ?_⟩
        · rw [List.map_cons, List.nodup_cons]
          refine ⟨fun hmem => ?_, hnodup⟩
          obtain ⟨g, hg, hname⟩ := List.mem_map.mp hmem
          exact hseen g hg (hname ▸ List.mem_cons_self)
        · intro g hg
          rcases List.mem_cons.mp hg with rfl | hg
          · exact h
          · exact fun hmem => hseen g hg (List.mem_cons_of_mem _ hmem)
        · grind
      · rintro ⟨gs, hs, heq, hnodup, hseen, hname⟩
        cases gs with
        | nil =>
          cases heq
          simp_all
        | cons g gs =>
          cases heq
          rw [List.map_cons, List.nodup_cons] at hnodup
          refine ⟨gs, hs, rfl, hnodup.2, fun g' hg' => ?_, ?_⟩
          · grind
          · grind

theorem parse_eq_duplicate_iff {text : String} {file : Option String} {pos : Pos} {name : String} :
    Program.parse text file = .error (.duplicate pos name) ↔ (scan text).ending = .text ∧
      ∃ fs f, readFunctions file (scan text).lexemes = .ok fs ∧
        firstRepeated? [] fs = some (pos, f) ∧ f.name = name := by
  simp only [Program.parse]
  cases readFunctions file (scan text).lexemes with
  | error rest => simp [unexpectedAt]
  | ok fs =>
    cases (scan text).ending with
    | bad pos => simp [unexpectedAt]
    | text =>
      cases hrepeated : firstRepeated? [] fs with
      | none => simp [hrepeated]
      | some found =>
        obtain ⟨start, f⟩ := found
        simp [hrepeated]

namespace Reads

variable {file : Option String} {ls rest : List Lexeme} {bound : Nat}

theorem start_of_function {f : Pos × Function} (h : function file ls = .ok (f, rest)) :
    f.1 = (ls.head?.map Lexeme.start).getD {} := by
  obtain ⟨before, ls₀, hbefore, h⟩ := bind_eq_ok.mp h
  cases hbefore
  obtain ⟨-, ls₁, -, h⟩ := bind_eq_ok.mp h
  obtain ⟨name, ls₂, -, h⟩ := bind_eq_ok.mp h
  obtain ⟨-, ls₃, -, h⟩ := bind_eq_ok.mp h
  obtain ⟨params, ls₄, -, h⟩ := bind_eq_ok.mp h
  obtain ⟨-, ls₅, -, h⟩ := bind_eq_ok.mp h
  obtain ⟨n, ls₆, -, h⟩ := bind_eq_ok.mp h
  obtain ⟨ops, ls₇, -, h⟩ := bind_eq_ok.mp h
  obtain ⟨-, ls₈, -, h⟩ := bind_eq_ok.mp h
  cases h
  rfl

theorem derives_of_function {f : Pos × Function} (h : function file ls = .ok (f, rest)) :
    ∃ front, ls = front ++ rest ∧ DerivesFunction (tokens front) f.2.withoutSpans :=
  finds_function.sound _ _ (map_eq_ok.mpr ⟨f, h, rfl⟩)

/-- A function is read wherever it stands. -/
theorem function_of_derives (file : Option String) (rest : List Lexeme) {front : List Lexeme}
    {f : Function} (h : DerivesFunction (tokens front) f) :
    ∃ g, function file (front ++ rest) = .ok (g, rest) ∧ g.2.withoutSpans = f :=
  map_eq_ok.mp (finds_function.complete front rest f rfl h rfl)

theorem functions_eq_ok_cons {f : Pos × Function} {fs : List (Pos × Function)}
    (h : functions file bound ls = .ok (f :: fs, rest)) :
    ∃ bound' ms, function file ls = .ok (f, ms) ∧ functions file bound' ms = .ok (fs, rest) := by
  cases bound with
  | zero => cases h
  | succ bound =>
    obtain ⟨o, ms, ho, h⟩ := bind_eq_ok.mp h
    cases ho
    split at h
    case isTrue => cases h
    case isFalse =>
      obtain ⟨f', ks, hf, h⟩ := bind_eq_ok.mp h
      obtain ⟨fs', js, hfs, h⟩ := bind_eq_ok.mp h
      cases h
      exact ⟨bound, ks, hf, hfs⟩

theorem eq_nil_of_functions_nil (h : functions file bound ls = .ok ([], rest)) : ls = [] := by
  cases bound with
  | zero => cases h
  | succ bound =>
    obtain ⟨o, ms, ho, h⟩ := bind_eq_ok.mp h
    cases ho
    split at h
    case isTrue hnone => simpa using hnone
    case isFalse =>
      obtain ⟨f, ks, -, h⟩ := bind_eq_ok.mp h
      obtain ⟨fs, js, -, h⟩ := bind_eq_ok.mp h
      cases h

/-- The first functions are read from the first tokens, and the others from what these leave. -/
theorem functions_eq_ok_append {gs hs : List (Pos × Function)}
    (h : functions file bound ls = .ok (gs ++ hs, rest)) :
    ∃ bound' front back, ls = front ++ back ∧
      Derives (tokens front) (gs.map fun g => g.2.withoutSpans) ∧
      functions file bound' back = .ok (hs, rest) := by
  induction gs generalizing ls bound with
  | nil => exact ⟨bound, [], ls, rfl, .nil, h⟩
  | cons g gs ih =>
    obtain ⟨bound', ms, hg, hgs⟩ := functions_eq_ok_cons h
    obtain ⟨one, rfl, hone⟩ := derives_of_function hg
    obtain ⟨bound'', front, back, rfl, hfront, hback⟩ := ih hgs
    refine ⟨bound'', one ++ front, back, (List.append_assoc ..).symm, ?_, hback⟩
    rw [tokens_append]
    exact .cons hone hfront

theorem derives_of_functions {fs : List (Pos × Function)}
    (h : functions file bound ls = .ok (fs, rest)) :
    Derives (tokens ls) (fs.map fun f => f.2.withoutSpans) := by
  rw [← List.append_nil fs] at h
  obtain ⟨bound', front, back, rfl, hfront, hback⟩ := functions_eq_ok_append h
  rw [eq_nil_of_functions_nil hback, List.append_nil]
  exact hfront

end Reads

theorem Derives.append {us vs : List Token} {gs hs : List Function} (hus : Derives us gs)
    (hvs : Derives vs hs) : Derives (us ++ vs) (gs ++ hs) := by
  induction hus with
  | nil => exact hvs
  | cons hone _ ih =>
    rw [List.append_assoc]
    exact .cons hone ih

theorem Derives.eq_nil {ts : List Token} (h : Derives ts []) : ts = [] := by
  cases h
  rfl

theorem Derives.exists_append {ls : List Lexeme} {f : Function} {fs : List Function}
    (h : Derives (tokens ls) (f :: fs)) : ∃ one more, ls = one ++ more ∧
      DerivesFunction (tokens one) f ∧ Derives (tokens more) fs := by
  generalize hts : tokens ls = ts at h
  cases h with
  | cons hone hmore =>
    obtain ⟨one, more, rfl, rfl, rfl⟩ := List.map_eq_append_iff.mp hts
    exact ⟨one, more, rfl, hone, hmore⟩

/-- Where the first functions of a listing end is settled by how many they are. -/
theorem Derives.front_unique {front front' back back' : List Lexeme} {fs : List Function}
    (h : Derives (tokens front) fs) (h' : Derives (tokens front') fs)
    (heq : front ++ back = front' ++ back') : front = front' := by
  induction fs generalizing front front' with
  | nil =>
    rw [tokens_eq_nil h.eq_nil, tokens_eq_nil h'.eq_nil]
  | cons f fs ih =>
    obtain ⟨one, more, rfl, hone, hmore⟩ := h.exists_append
    obtain ⟨one', more', rfl, hone', hmore'⟩ := h'.exists_append
    rw [List.append_assoc, List.append_assoc] at heq
    -- what is left after the first function does not depend on the derivation
    obtain ⟨g, hg, -⟩ := Reads.function_of_derives none (more ++ back) hone
    obtain ⟨g', hg', -⟩ := Reads.function_of_derives none (more' ++ back') hone'
    rw [heq] at hg
    obtain ⟨-, hback⟩ := Prod.mk.inj (Except.ok.inj (hg.symm.trans hg'))
    rw [hback] at heq
    rw [ih hmore hmore' hback, List.append_cancel_right heq]

/-- A function **repeats** the name `name` at `pos`: the tokens of the text are derived from the
start symbol, it begins there, and the functions before it, which have different names, include one
called `name` as well. -/
def RepeatsAt (text : String) (pos : Pos) (name : String) : Prop :=
  ∃ us vs gs f hs rest, Splits text.toList (us ++ vs) ∧ Derives us gs ∧ Derives vs (f :: hs) ∧
    (gs.map Function.name).Nodup ∧ f.name ∈ gs.map Function.name ∧ f.name = name ∧
    GoesOn text.toList us rest pos

section

variable {text name : String} {file : Option String} {pos : Pos}

/-- A function that was read begins where the text goes on after those before it. -/
theorem exists_front_of_functions {bound : Nat} {gs hs : List (Pos × Function)} {f : Function}
    (h : Reads.functions file bound (scan text).lexemes = .ok (gs ++ (pos, f) :: hs, [])) :
    ∃ front l back, (scan text).lexemes = front ++ l :: back ∧ l.start = pos ∧
      Derives (tokens front) (gs.map fun g => g.2.withoutSpans) ∧
      Derives (tokens (l :: back)) (f.withoutSpans :: hs.map fun g => g.2.withoutSpans) := by
  obtain ⟨bound', front, back, hls, hfront, hback⟩ := Reads.functions_eq_ok_append h
  obtain ⟨-, ms, hf, -⟩ := Reads.functions_eq_ok_cons hback
  cases back with
  | nil => cases hf
  | cons l back =>
    exact ⟨front, l, back, hls, (Reads.start_of_function hf).symm, hfront,
      Reads.derives_of_functions hback⟩

theorem repeatsAt_of_parse (h : Program.parse text file = .error (.duplicate pos name)) :
    RepeatsAt text pos name := by
  obtain ⟨hending, fs, f, hfs, hrepeated, hname⟩ := parse_eq_duplicate_iff.mp h
  obtain ⟨gs, hs, rfl, hnodup, -, hmem⟩ := firstRepeated?_eq_some_iff.mp hrepeated
  obtain ⟨front, l, back, hls, rfl, hfront, hback⟩ :=
    exists_front_of_functions (readFunctions_eq_ok_iff.mp hfs)
  obtain ⟨rest, -, hgoes⟩ := goesOn_of_scan hls
  have hsplits := scan_eq_text_iff.mp ⟨hending, congrArg tokens hls⟩
  rw [tokens_append] at hsplits
  refine ⟨_, _, _, _, _, rest, hsplits, hfront, hback, ?_, ?_, hname, hgoes⟩
  · simpa [Function.withoutSpans, Function.comp_def] using hnodup
  · simpa [Function.withoutSpans, Function.comp_def] using hmem

theorem parse_of_repeatsAt (h : RepeatsAt text pos name) :
    Program.parse text file = .error (.duplicate pos name) := by
  obtain ⟨us, vs, gs, f, hs, rest, hsplits, hus, hvs, hnodup, hmem, rfl, hgoes⟩ := h
  obtain ⟨hending, htokens⟩ := scan_eq_text_iff.mpr hsplits
  obtain ⟨fs, hfs, hmap⟩ :=
    (readFunctions_iff_derives file).mpr (htokens.symm ▸ hus.append hvs)
  obtain ⟨gs, fs, rfl, rfl, hrest⟩ := List.map_eq_append_iff.mp hmap
  obtain ⟨⟨start, f⟩, hs, rfl, rfl, rfl⟩ := List.map_eq_cons_iff.mp hrest
  -- both divisions of the tokens have the same functions in front
  obtain ⟨front, l, back, hls, rfl, hfront, -⟩ :=
    exists_front_of_functions (readFunctions_eq_ok_iff.mp hfs)
  obtain ⟨front', back', hls', rfl⟩ := exists_front_of_leads hgoes.1
  obtain rfl := hfront.front_unique hus (hls.symm.trans hls')
  cases hgoes.start_eq hls
  refine parse_eq_duplicate_iff.mpr ⟨hending, _, f, hfs, ?_, rfl⟩
  refine firstRepeated?_eq_some_iff.mpr ⟨gs, hs, rfl, ?_, by simp, .inr ?_⟩
  · simpa [Function.withoutSpans, Function.comp_def] using hnodup
  · simpa [Function.withoutSpans, Function.comp_def] using hmem

end

end Listing

open Listing

/-- **Faults are reported at the first impossible token.** A text whose tokens are not derived from
the start symbol is refused behind the longest row of first tokens with which some listing begins:
where the text goes on after them, whether a token or a bad character stands there, or, when only
blanks and comments are left, where the last of them begins. A repeated name is reported exactly
when the tokens are derived from the start symbol and a function has the name of an earlier one, and
then where the first such function begins. -/
theorem Program.parse_fault_positions (text : String) (file : Option String) :
    ((¬ ∃ ts fs, Splits text.toList ts ∧ Derives ts fs) →
      ∃ ts rest pos stuck, GoesOn text.toList ts rest pos ∧ BeginsListing ts ∧
        (∀ us rest', Leads text.toList us rest' → BeginsListing us → us <+: ts) ∧
        Program.parse text file = .error (.unexpected stuck (context text stuck.offset)) ∧
        (rest ≠ [] → stuck = pos) ∧
        (rest = [] → ∃ us t rest', ts = us ++ [t] ∧ GoesOn text.toList us rest' stuck)) ∧
    ∀ pos name, Program.parse text file = .error (.duplicate pos name) ↔
      RepeatsAt text pos name := by
  refine ⟨fun hnot => ?_, fun pos name => ⟨repeatsAt_of_parse, parse_of_repeatsAt⟩⟩
  obtain ⟨front, hls, hbegins, hlongest⟩ := exists_front file text
  obtain ⟨rest, pos, hgoes, hsome, hnone⟩ := stuckAt_cases hls
  refine ⟨tokens front, rest, pos, stuckAt (scan text) (unread file text), hgoes,
    beginsListing_of_begins hgoes.1.spellable hbegins, hlongest, parse_eq_unexpected hnot, hsome,
    ?_⟩
  rintro rfl
  -- a text without tokens is a listing, so there is a last one
  cases front using List.reverseRecOn with
  | nil => exact absurd ⟨[], [], splits_iff_leads.mpr hgoes.1, .nil⟩ hnot
  | append_singleton front l =>
    rw [hnone rfl front l rfl]
    rw [List.append_assoc, List.singleton_append] at hls
    obtain ⟨rest, -, hlast⟩ := goesOn_of_scan hls
    exact ⟨tokens front, l.token, rest, tokens_append front [l], hlast⟩

/-- A listing with a number before a brace, and later a character that begins no token. -/
def strayText : String :=
  "fn f() \x7b # f\n\t1: return 2 \x7d $"

/-- A listing with two functions of one name. -/
def repeatedText : String :=
  "fn f() \x7b\x7d\n fn f() \x7b\x7d"

/-- The fault is reported at the brace, and at the second of the two functions. -/
theorem Program.parse_fault_positions_stray :
    (¬ ∃ ts fs, Splits strayText.toList ts ∧ Derives ts fs) ∧
      (∃ ts rest, GoesOn strayText.toList ts rest { offset := 26, line := 2, column := 14 } ∧
        rest ≠ [] ∧ BeginsListing ts ∧
        ∀ us rest', Leads strayText.toList us rest' → BeginsListing us → us <+: ts) ∧
      RepeatsAt repeatedText { offset := 11, line := 2, column := 2 } "f" := by
  have hread : Program.parse strayText none = .error
      (unexpectedAt strayText { offset := 26, line := 2, column := 14 }) := by decide +kernel
  have hnot : ¬ ∃ ts fs, Splits strayText.toList ts ∧ Derives ts fs :=
    fun ⟨_, _, hts, hfs⟩ => parse_ne_unexpected hts hfs hread
  refine ⟨hnot, ?_,
    ((Program.parse_fault_positions repeatedText none).2 _ _).mp (by decide +kernel)⟩
  obtain ⟨ts, rest, pos, stuck, hgoes, hbegins, hlongest, hparse, hsome, -⟩ :=
    (Program.parse_fault_positions strayText none).1 hnot
  obtain ⟨rfl, -⟩ := Fault.unexpected.inj (Except.error.inj (hread.symm.trans hparse))
  have hrest : rest ≠ [] := by
    rintro rfl
    have hending := (scan_eq_text_iff.mpr (splits_iff_leads.mpr hgoes.1)).1
    exact absurd hending (by decide +kernel)
  cases hsome hrest
  exact ⟨ts, rest, hgoes, hrest, hbegins, hlongest⟩

end BorrowCheck
