import Mx.Lexer.Comments

/-!
# Conditional compilation

A source text is ordinary text with pragmas in it that switch between text that is kept and text
that is skipped. The lexer has the pragmas of kept text read one by one, and a scanner of its own
for skipped text, which knows comments and pragmas but no string literals.
-/

namespace Mx.Lexer

open List

/-! ## Ordinary text -/

/-- An element of ordinary text. A comment is given by what stands behind its opening characters, a
token by its text. -/
inductive Element where
  | white (c : Char)
  | comment (body : List Char)
  | string (quote : Char) (s : List Char)
  | pragma (directive blanks : List Char) (arg : Option (List Char)) (blanks' : List Char)
  | token (w : List Char)

/-- The argument of a pragma as it is written. -/
def argText : Option (List Char) → List Char
  | none => []
  | some s => '"' :: (s ++ ['"'])

/-- The text of an element. -/
def Element.text : Element → List Char
  | white c => [c]
  | comment body => commentText body
  | string quote s => quote :: (s ++ [quote])
  | pragma directive blanks arg blanks' =>
    '(' :: '*' :: '$' :: (directive ++ (blanks ++ (argText arg ++ (blanks' ++ ['*', ')']))))
  | token w => w

/-- The text of some elements. -/
def elementsText (es : List Element) : List Char := es.flatMap Element.text

/-- The directives of conditional compilation. -/
def directives : List (List Char) := [['I', 'F'], ['E', 'L', 'S', 'E'], ['E', 'N', 'D']]

/-- The element can stand in front of a text. A token is what the lexer reads there, other than a
string literal, a comment or a pragma. -/
def Element.Fits (lx : Lexer) (behind : List Char) : Element → Prop
  | white c => isWhitespace c = true
  | comment body => CommentBody body
  | string quote s => (quote = '"' ∨ quote = '\'') ∧ ∀ c ∈ s, c ≠ quote ∧ c ≠ '\n'
  | pragma directive blanks arg blanks' =>
    (directive ≠ [] ∧ directive ∉ directives ∧ ∀ c ∈ directive, isWord c = true) ∧
      (∀ c ∈ blanks, isWhitespace c = true) ∧ (∀ s ∈ arg, '"' ∉ s) ∧
      ∀ c ∈ blanks', isWhitespace c = true
  | token w => (w = ['('] ∨ ∀ c ∈ w.head?, c ≠ '(' ∧ c ≠ '"' ∧ c ≠ '\'') ∧
      ∃ k, k ≠ .eof ∧ round lx (w ++ behind) = .ok (some k, behind)

/-- The elements are a text: each can stand in front of the ones behind it. -/
def Fit (lx : Lexer) : List Element → Prop
  | [] => True
  | e :: es => e.Fits lx (elementsText es) ∧ Fit lx es

/-- The element is not the empty comment. -/
def Element.IsPlain : Element → Prop
  | comment body => body ≠ ['*', ')']
  | _ => True

/-- No comment opens in the element if it is a string literal, and it has no closing characters in
its argument if it is a pragma. -/
def Element.IsInert : Element → Prop
  | string _ s => ¬['(', '*'] <:+: s
  | pragma _ _ (some s) _ => ¬['*', ')'] <:+: s
  | _ => True

/-- What can stand behind ordinary text: nothing, or a text that begins with a parenthesis or a
blank. -/
def Stop (rest : List Char) : Prop := rest = [] ∨ Separated rest

section Kept

variable {lx : Lexer} {es : List Element} {rest : List Char}

theorem elementsText_cons (e : Element) (es : List Element) (rest : List Char) :
    elementsText (e :: es) ++ rest = e.text ++ (elementsText es ++ rest) := by
  rw [elementsText, flatMap_cons, append_assoc]
  rfl

/-- What can stand behind the text does not change how a token in front of it is read. -/
theorem Stop.alike (h : Stop rest) (cs : List Char) :
    rest = [] ∨ Alike cs (cs ++ rest) := by
  obtain h | h := h
  · exact .inl h
  · refine .inr ?_
    cases cs with
    | nil => exact .inl h
    | cons c cs =>
      refine .inr ⟨c, cs, cs ++ rest, rfl, rfl, ?_⟩
      cases cs with
      | nil => exact .inr h
      | cons d cs => exact .inl rfl

variable {blanks blanks' : List Char} {arg : Option (List Char)}

theorem skipWhitespace_append (h : ∀ c ∈ blanks, isWhitespace c = true)
    (hrest : ∀ c ∈ rest.head?, isWhitespace c = false) : skipWhitespace (blanks ++ rest) = rest :=
  dropWhile_of_stop h hrest

theorem skipPragmaClose_blanks (h : ∀ c ∈ blanks, isWhitespace c = true)
    (rest : List Char) : skipPragmaClose (blanks ++ '*' :: ')' :: rest) = some rest := by
  induction blanks with
  | nil => rfl
  | cons c blanks ih =>
    have hc : c ≠ '*' := by
      rintro rfl
      exact absurd (h _ mem_cons_self) (by decide)
    rw [cons_append, skipPragmaClose]
    · exact ih fun d hd => h d (mem_cons_of_mem _ hd)
    · rintro t rfl
      exact absurd rfl hc

theorem round_string {quote : Char} {s : List Char} (hquote : quote = '"' ∨ quote = '\'')
    (hs : ∀ c ∈ s, c ≠ quote ∧ c ≠ '\n') (rest : List Char) :
    round lx (quote :: (s ++ quote :: rest)) = .ok (some (.stringLit (String.ofList s)), rest) := by
  have hne : quote ≠ '(' := by
    obtain rfl | rfl := hquote <;> decide
  have hin : ∀ c ∈ s, (c != '\n' && c != quote) = true := by
    intro c hc
    obtain ⟨h1, h2⟩ := hs c hc
    simp [h1, h2]
  have hstop : ∀ c ∈ (quote :: rest).head?, (c != '\n' && c != quote) = false := by
    intro c hc
    obtain rfl := Option.some.inj hc
    simp
  rw [round_of_ne hne, if_pos hquote, readString, dropWhile_of_stop hin hstop,
    takeWhile_of_stop hin hstop]
  exact if_pos rfl

theorem ne_of_isWhitespace {c d : Char} (hc : isWhitespace c = true) (hd : isWhitespace d = false) :
    c ≠ d := by
  rintro rfl
  rw [hc] at hd
  cases hd

theorem not_isWord_of_isWhitespace {c : Char} (h : isWhitespace c = true) : isWord c = false := by
  rw [isWhitespace] at h
  simp only [Bool.or_eq_true, beq_iff_eq] at h
  obtain (((rfl | rfl) | rfl) | rfl) | rfl := h <;> rfl

/-- A word ends in front of blanks and what is no word. -/
theorem head_blanks (h : ∀ c ∈ blanks, isWhitespace c = true)
    (hrest : ∀ c ∈ rest.head?, isWord c = false) :
    ∀ c ∈ (blanks ++ rest).head?, isWord c = false := by
  cases blanks with
  | nil => exact hrest
  | cons d blanks =>
    intro c hc
    obtain rfl := Option.some.inj hc
    exact not_isWord_of_isWhitespace (h _ mem_cons_self)

/-- The text of a pragma behind its directive. -/
def pragmaTail (blanks : List Char) (arg : Option (List Char)) (blanks' rest : List Char) :
    List Char :=
  blanks ++ (argText arg ++ (blanks' ++ '*' :: ')' :: rest))

theorem pragma_text_append (directive blanks blanks' : List Char) (arg : Option (List Char))
    (rest : List Char) : (Element.pragma directive blanks arg blanks').text ++ rest =
      '(' :: '*' :: '$' :: (directive ++ pragmaTail blanks arg blanks' rest) := by
  simp [Element.text, pragmaTail]

theorem head_pragmaTail
    (hblanks : ∀ c ∈ blanks, isWhitespace c = true)
    (hblanks' : ∀ c ∈ blanks', isWhitespace c = true) :
    ∀ c ∈ (pragmaTail blanks arg blanks' rest).head?, isWord c = false := by
  apply head_blanks hblanks
  cases arg with
  | none =>
    apply head_blanks hblanks'
    intro c hc
    obtain rfl := Option.some.inj hc
    rfl
  | some s =>
    intro c hc
    obtain rfl := Option.some.inj hc
    rfl

theorem readArg_pragmaTail {directive start : List Char}
    (hblanks : ∀ c ∈ blanks, isWhitespace c = true) (harg : ∀ s ∈ arg, '"' ∉ s)
    (hblanks' : ∀ c ∈ blanks', isWhitespace c = true) :
    readArg start directive (skipWhitespace (pragmaTail blanks arg blanks' rest)) =
      .ok (some (.pragma (String.ofList directive) (arg.map String.ofList)), rest) := by
  have hclose := skipPragmaClose_blanks hblanks' rest
  cases arg with
  | none =>
    have hall : ∀ c ∈ blanks ++ blanks', isWhitespace c = true := by
      intro c hc
      obtain hc | hc := mem_append.mp hc
      · exact hblanks c hc
      · exact hblanks' c hc
    have hskip : skipWhitespace (pragmaTail blanks none blanks' rest) = '*' :: ')' :: rest := by
      rw [pragmaTail, argText, nil_append, ← append_assoc]
      apply skipWhitespace_append hall
      intro c hc
      obtain rfl := Option.some.inj hc
      rfl
    rw [hskip]
    rfl
  | some s =>
    have hskip : skipWhitespace (pragmaTail blanks (some s) blanks' rest) =
        '"' :: (s ++ '"' :: (blanks' ++ '*' :: ')' :: rest)) := by
      rw [pragmaTail, argText, cons_append, append_assoc, singleton_append]
      apply skipWhitespace_append hblanks
      intro c hc
      obtain rfl := Option.some.inj hc
      rfl
    have hin : ∀ c ∈ s, (c != '"') = true := by
      intro c hc
      rw [bne_iff_ne]
      rintro rfl
      exact harg s rfl hc
    have hstop : ∀ c ∈ ('"' :: (blanks' ++ '*' :: ')' :: rest)).head?, (c != '"') = false := by
      intro c hc
      obtain rfl := Option.some.inj hc
      rfl
    rw [hskip, readArg, dropWhile_of_stop hin hstop, takeWhile_of_stop hin hstop]
    simp only [pragmaToken, hclose, Option.map_some]

theorem round_pragma {directive : List Char}
    (h : (Element.pragma directive blanks arg blanks').Fits lx []) (rest : List Char) :
    round lx ((Element.pragma directive blanks arg blanks').text ++ rest) =
      .ok (some (.pragma (String.ofList directive) (arg.map String.ofList)), rest) := by
  obtain ⟨⟨hne, hnot, hword⟩, hblanks, harg, hblanks'⟩ := h
  have hhead : ∀ c ∈ (pragmaTail blanks arg blanks' rest).head?, isWord c = false :=
    head_pragmaTail hblanks hblanks'
  have htake := takeWhile_of_stop hword hhead
  have hdrop := dropWhile_of_stop hword hhead
  rw [pragma_text_append]
  change readPragma lx _ (directive ++ pragmaTail blanks arg blanks' rest) = _
  rw [directives, mem_cons, mem_cons, mem_singleton, not_or, not_or] at hnot
  rw [readPragma, htake, hdrop, if_neg hne, if_neg hnot.1, if_neg hnot.2.1, if_neg hnot.2.2]
  exact readArg_pragmaTail hblanks harg hblanks'

/-- What a round reads in front of some text it reads there whatever can stand behind the text. -/
theorem round_behind {w cs : List Char} {kind : Option TokenKind}
    (h : round lx (w ++ cs) = .ok (kind, cs)) (hne : w ++ cs ≠ []) (hrest : Stop rest) :
    round lx (w ++ (cs ++ rest)) = .ok (kind, cs ++ rest) := by
  obtain rfl | halike := hrest.alike cs
  · rw [append_nil]
    exact h
  · obtain ⟨v, -, hv, -, hlocal⟩ := round_local h hne
    obtain rfl := append_cancel_right hv
    exact hlocal _ halike

/-- Ordinary text in which no comment is empty is read as its tokens, whatever stands behind it. -/
theorem exists_reads (h : Fit lx es) (hplain : ∀ e ∈ es, e.IsPlain) :
    ∃ ks, ∀ rest, Stop rest → Reads lx (elementsText es ++ rest) ks rest := by
  induction es with
  | nil => exact ⟨[], fun rest _ => .refl rest⟩
  | cons e es ih =>
    obtain ⟨hfit, hes⟩ := h
    obtain ⟨ks, hks⟩ := ih hes fun e he => hplain e (mem_cons_of_mem _ he)
    have he := hplain e mem_cons_self
    cases e with
    | white c =>
      refine ⟨ks, fun rest hrest => ?_⟩
      rw [elementsText_cons]
      exact .white hfit (hks rest hrest)
    | comment body =>
      obtain ⟨kind, hkind, hround⟩ : ∃ kind, IsSilent kind ∧
          round lx (commentText body ++ elementsText es) = .ok (kind, elementsText es) :=
        round_comment hfit he
      cases kind with
      | none =>
        refine ⟨ks, fun rest hrest => ?_⟩
        rw [elementsText_cons]
        exact .silent (round_behind hround (cons_ne_nil _ _) hrest) (hks rest hrest)
      | some k =>
        have hk : k ≠ .eof := by
          rintro rfl
          cases hkind _ rfl
        refine ⟨k :: ks, fun rest hrest => ?_⟩
        rw [elementsText_cons]
        exact .token (round_behind hround (cons_ne_nil _ _) hrest) hk (hks rest hrest)
    | string quote s =>
      refine ⟨.stringLit (String.ofList s) :: ks, fun rest hrest => ?_⟩
      rw [elementsText_cons, Element.text, cons_append, append_assoc]
      exact .token (round_string hfit.1 hfit.2 _) nofun (hks rest hrest)
    | pragma directive blanks arg blanks' =>
      refine ⟨.pragma (String.ofList directive) (arg.map String.ofList) :: ks, fun rest hrest => ?_⟩
      rw [elementsText_cons]
      exact .token (round_pragma hfit _) nofun (hks rest hrest)
    | token w =>
      obtain ⟨-, k, hk, hround⟩ := hfit
      refine ⟨k :: ks, fun rest hrest => ?_⟩
      have hne : w ++ elementsText es ≠ [] := by
        intro hnil
        rw [hnil] at hround
        exact hk (Option.some.inj (Prod.mk.inj (Except.ok.inj hround)).1).symm
      rw [elementsText_cons]
      exact .token (round_behind hround hne hrest) hk (hks rest hrest)

end Kept

/-! ## Skipped text -/

section Skipped

variable {lx : Lexer} {es : List Element} {rest start : List Char} {stopAtElse : Bool} {depth : Nat}

variable {w : List Char}

/-- Characters in which no comment opens are skipped. -/
theorem skipDisabledBlock_chars {c : Char} (hc : c ≠ '(') (h : ¬['(', '*'] <:+: w ++ [c]) :
    skipDisabledBlock stopAtElse start depth (w ++ c :: rest) =
      skipDisabledBlock stopAtElse start depth rest := by
  induction w with
  | nil => exact skipDisabledBlock_char fun hopen => absurd hopen hc
  | cons d w ih =>
    rw [cons_append, skipDisabledBlock_char]
    · apply ih
      intro hin
      exact h (infix_cons_iff.mpr (.inr hin))
    · rintro rfl t ht
      apply h
      refine infix_cons_iff.mpr (.inl ?_)
      cases w with
      | nil =>
        obtain ⟨rfl, -⟩ := List.cons.inj ht
        exact ⟨[], rfl⟩
      | cons e w =>
        obtain ⟨rfl, -⟩ := List.cons.inj ht
        exact ⟨w ++ [c], rfl⟩

/-- Characters without a parenthesis are skipped. -/
theorem skipDisabledBlock_noParen (h : '(' ∉ w) :
    skipDisabledBlock stopAtElse start depth (w ++ rest) =
      skipDisabledBlock stopAtElse start depth rest := by
  induction w with
  | nil => rfl
  | cons c w ih =>
    rw [mem_cons, not_or] at h
    rw [cons_append, skipDisabledBlock_char fun hopen => absurd hopen.symm h.1]
    exact ih h.2

/-- The closing characters of a pragma are found behind text that has none. -/
theorem skipPragmaClose_append (h : ¬['*', ')'] <:+: w) (hlast : w.getLast? ≠ some '*')
    (cs : List Char) : skipPragmaClose (w ++ cs) = skipPragmaClose cs := by
  induction w with
  | nil => rfl
  | cons c w ih =>
    have hin : ¬['*', ')'] <:+: w := fun hin => h (infix_cons_iff.mpr (.inr hin))
    rw [cons_append, skipPragmaClose]
    · cases w with
      | nil => rfl
      | cons d w => exact ih hin (by rwa [getLast?_cons_cons] at hlast)
    · rintro t rfl ht
      cases w with
      | nil => exact hlast rfl
      | cons d w =>
        obtain ⟨rfl, -⟩ := List.cons.inj ht
        exact h (infix_cons_iff.mpr (.inl ⟨w, rfl⟩))

/-- A token other than a string literal, a comment or a pragma has no parenthesis in it. -/
theorem token_cases {behind : List Char} (h : (Element.token w).Fits lx behind) :
    w = ['('] ∨ '(' ∉ w := by
  obtain ⟨rfl | hhead, k, hk, hround⟩ := h
  · exact .inl rfl
  · have hne : w ++ behind ≠ [] := by
      intro hnil
      rw [hnil] at hround
      exact hk (Option.some.inj (Prod.mk.inj (Except.ok.inj hround)).1).symm
    obtain ⟨v, hv, hw, hparen, -⟩ := round_local hround hne
    obtain rfl := append_cancel_right hw
    cases w with
    | nil => exact absurd rfl hv
    | cons c w => exact .inr (hparen c rfl (hhead c rfl))

theorem not_infix_append {a b c : Char} {s : List Char} (h : ¬[a, b] <:+: s) (hb : b ≠ c) :
    ¬[a, b] <:+: s ++ [c] := by
  intro hin
  rw [infix_concat_iff] at hin
  obtain hsuffix | hin := hin
  · obtain ⟨t, ht⟩ := hsuffix
    have hlast := congrArg List.getLast? ht
    rw [getLast?_concat, getLast?_append] at hlast
    exact hb (Option.some.inj hlast)
  · exact h hin

/-- The lexer reads no token from an opening parenthesis with a star behind it. -/
theorem not_star_of_round {k : TokenKind} {cs : List Char}
    (h : round lx ('(' :: cs) = .ok (some k, cs)) : ∀ t, cs ≠ '*' :: t := by
  rintro t rfl
  have hcomment : skipComment lx ('(' :: '*' :: t) t = .ok (some k, '*' :: t) := h
  obtain ⟨w, hw, -⟩ := skipComment_local hcomment
  have hlen := congrArg List.length hw
  rw [length_append, length_cons] at hlen
  omega

theorem skipPragmaClose_pragmaTail {blanks blanks' : List Char} {arg : Option (List Char)}
    (hblanks : ∀ c ∈ blanks, isWhitespace c = true) (hinert : ∀ s ∈ arg, ¬['*', ')'] <:+: s)
    (hblanks' : ∀ c ∈ blanks', isWhitespace c = true) :
    skipPragmaClose (pragmaTail blanks arg blanks' rest) = some rest := by
  have hclose := skipPragmaClose_blanks hblanks' rest
  have hskip : ∀ {blanks cs : List Char}, (∀ c ∈ blanks, isWhitespace c = true) →
      skipPragmaClose (blanks ++ cs) = skipPragmaClose cs := by
    intro blanks cs h
    have hstar : '*' ∉ blanks := fun hmem => absurd (h _ hmem) (by decide)
    apply skipPragmaClose_append
    · rintro ⟨u, v, rfl⟩
      exact hstar (by simp)
    · intro hlast
      exact hstar (mem_of_getLast? hlast)
  rw [pragmaTail, hskip hblanks]
  cases arg with
  | none => exact hclose
  | some s =>
    have hs := not_infix_append (hinert s rfl) (by decide : ')' ≠ '"')
    have hquoted : ¬['*', ')'] <:+: '"' :: (s ++ ['"']) := by
      rw [infix_cons_iff, not_or]
      refine ⟨?_, hs⟩
      rintro ⟨t, ht⟩
      exact absurd (List.cons.inj ht).1 (by decide)
    rw [argText, skipPragmaClose_append hquoted, hclose]
    rw [← cons_append, getLast?_concat]
    exact fun heq => absurd (Option.some.inj heq) (by decide)

/-- Ordinary text is skipped whole, if none of its elements looks like something else to the
scanner. -/
theorem skipDisabledBlock_elements (h : Fit lx es) (hinert : ∀ e ∈ es, e.IsInert)
    (hrest : Stop rest) :
    skipDisabledBlock stopAtElse start depth (elementsText es ++ rest) =
      skipDisabledBlock stopAtElse start depth rest := by
  induction es with
  | nil => rfl
  | cons e es ih =>
    obtain ⟨hfit, hes⟩ := h
    have hskip := ih hes fun e he => hinert e (mem_cons_of_mem _ he)
    have he := hinert e mem_cons_self
    rw [elementsText_cons, ← hskip]
    cases e with
    | white c =>
      have hc : c ≠ '(' := ne_of_isWhitespace hfit (by decide)
      exact skipDisabledBlock_char fun hopen => absurd hopen hc
    | comment body =>
      apply skipDisabledBlock_comment
      · exact hfit.closes.ne_append hfit.mark _
      · exact skipNested_complete hfit.closes _
    | string quote s =>
      obtain ⟨hquote, -⟩ := hfit
      have hopen : quote ≠ '(' := by
        obtain rfl | rfl := hquote <;> decide
      have hstar : '*' ≠ quote := by
        obtain rfl | rfl := hquote <;> decide
      rw [Element.text, cons_append, append_assoc, singleton_append,
        skipDisabledBlock_char fun hc => absurd hc hopen]
      exact skipDisabledBlock_chars hopen (not_infix_append he hstar)
    | pragma directive blanks arg blanks' =>
      obtain ⟨⟨-, hnot, hword⟩, hblanks, -, hblanks'⟩ := hfit
      have hhead : ∀ c ∈ (pragmaTail blanks arg blanks' (elementsText es ++ rest)).head?,
          isWord c = false := head_pragmaTail hblanks hblanks'
      have hinert' : ∀ s ∈ arg, ¬['*', ')'] <:+: s := by
        intro s hs
        cases hs
        exact he
      have hclose : skipPragmaClose
          ((directive ++
            pragmaTail blanks arg blanks' (elementsText es ++ rest)).dropWhile isWord) =
          some (elementsText es ++ rest) := by
        rw [dropWhile_of_stop hword hhead]
        exact skipPragmaClose_pragmaTail hblanks hinert' hblanks'
      rw [directives, mem_cons, mem_cons, mem_singleton, not_or, not_or] at hnot
      rw [pragma_text_append, skipDisabledBlock_pragma hclose, takeWhile_of_stop hword hhead,
        if_neg hnot.1, if_neg fun h => hnot.2.1 h.1, if_neg hnot.2.2]
    | token w =>
      obtain rfl | hparen := token_cases hfit
      · apply skipDisabledBlock_char
        rintro -
        obtain ⟨-, k, -, hround⟩ := hfit
        have hstar : ∀ t, elementsText es ≠ '*' :: t := not_star_of_round hround
        cases hes' : elementsText es with
        | nil =>
          rintro t rfl
          obtain heq | ⟨u, heq | heq⟩ := hrest
          · cases heq
          · exact absurd (List.cons.inj heq).1 (by decide)
          · exact absurd (List.cons.inj heq).1 (by decide)
        | cons c cs =>
          intro t ht
          apply hstar cs
          rw [hes', (List.cons.inj ht).1]
      · exact skipDisabledBlock_noParen hparen

end Skipped

/-! ## Directives -/

/-- A pragma of conditional compilation. -/
inductive Directive where
  | ifDef (feature : List Char)
  | elseDef
  | endDef

/-- The text of a directive. -/
def Directive.text : Directive → List Char
  | ifDef feature => '(' :: '*' :: '$' :: 'I' :: 'F' :: ' ' :: (feature ++ ['*', ')'])
  | elseDef => ['(', '*', '$', 'E', 'L', 'S', 'E', '*', ')']
  | endDef => ['(', '*', '$', 'E', 'N', 'D', '*', ')']

/-- The name of a feature is a word. -/
def Directive.Fits : Directive → Prop
  | ifDef feature => ∀ c ∈ feature, isWord c = true
  | _ => True

instance (d : Directive) : Decidable d.Fits :=
  match d with
  | .ifDef feature => inferInstanceAs (Decidable (∀ c ∈ feature, isWord c = true))
  | .elseDef | .endDef => .isTrue trivial

/-- What becomes of the text that follows: it is kept, or it is skipped up to the `END` at a depth
or, if so, to the `ELSE` there. -/
inductive Mode where
  | keep
  | skip (stopAtElse : Bool) (depth : Nat)
  deriving DecidableEq

/-- What a directive changes. -/
def Mode.next (features : List String) : Mode → Directive → Mode
  | keep, .ifDef feature => if String.ofList feature ∈ features then keep else skip true 0
  | keep, .elseDef => skip false 0
  | keep, .endDef => keep
  | skip stopAtElse depth, .ifDef _ => skip stopAtElse (depth + 1)
  | skip stopAtElse depth, .elseDef =>
    if depth = 0 ∧ stopAtElse = true then keep else skip stopAtElse depth
  | skip stopAtElse depth, .endDef =>
    if depth = 0 then keep else skip stopAtElse (depth - 1)

section Directives

variable {lx : Lexer} {feature rest start : List Char} {stopAtElse : Bool} {depth : Nat}

/-- The name of the feature and the closing characters are found in an `IF`. -/
theorem feature_span (h : ∀ c ∈ feature, isWord c = true) (rest : List Char) :
    (feature ++ '*' :: ')' :: rest).takeWhile isWord = feature ∧
      (feature ++ '*' :: ')' :: rest).dropWhile isWord = '*' :: ')' :: rest := by
  have hstop : ∀ c ∈ ('*' :: ')' :: rest).head?, isWord c = false := by
    intro c hc
    obtain rfl := Option.some.inj hc
    rfl
  exact ⟨takeWhile_of_stop h hstop, dropWhile_of_stop h hstop⟩

theorem skipWhitespace_feature (h : ∀ c ∈ feature, isWord c = true) :
    skipWhitespace (' ' :: (feature ++ '*' :: ')' :: rest)) = feature ++ '*' :: ')' :: rest := by
  have hhead : ∀ c ∈ (feature ++ '*' :: ')' :: rest).head?, isWhitespace c = false := by
    intro c hc
    by_contra hspace
    rw [Bool.not_eq_false] at hspace
    have hword := not_isWord_of_isWhitespace hspace
    cases feature with
    | nil =>
      obtain rfl := Option.some.inj hc
      cases hspace
    | cons d feature =>
      obtain rfl := Option.some.inj hc
      rw [h _ mem_cons_self] at hword
      cases hword
  rw [skipWhitespace, dropWhile_cons_of_pos rfl]
  exact skipWhitespace_append (forall_mem_nil _) hhead

theorem directive_text_if (feature rest : List Char) : (Directive.ifDef feature).text ++ rest =
    '(' :: '*' :: '$' :: 'I' :: 'F' :: ' ' :: (feature ++ '*' :: ')' :: rest) := by
  simp [Directive.text]

/-- The round over a directive in kept text, by what the directive changes. -/
theorem round_directive (lx : Lexer) (d : Directive) (hd : d.Fits) (rest : List Char) :
    round lx (d.text ++ rest) =
      match Mode.keep.next lx.features d with
      | .keep => .ok (none, rest)
      | .skip stopAtElse depth =>
        (skipDisabledBlock stopAtElse rest depth rest).map fun rest => (none, rest) := by
  cases d with
  | ifDef feature =>
    have hspan := feature_span hd rest
    rw [directive_text_if]
    change readPragma lx _ ('I' :: 'F' :: ' ' :: (feature ++ '*' :: ')' :: rest)) = _
    have htake : ('I' :: 'F' :: ' ' :: (feature ++ '*' :: ')' :: rest)).takeWhile isWord =
        ['I', 'F'] := rfl
    have hdrop : ('I' :: 'F' :: ' ' :: (feature ++ '*' :: ')' :: rest)).dropWhile isWord =
        ' ' :: (feature ++ '*' :: ')' :: rest) := rfl
    have hclose : skipPragmaClose ('*' :: ')' :: rest) = some rest := rfl
    rw [readPragma, htake, hdrop, if_neg (by decide), if_pos rfl]
    simp only [skipWhitespace_feature hd, hspan.1, hspan.2, hclose, Mode.next]
    by_cases hmem : String.ofList feature ∈ lx.features
    · rw [if_pos hmem, if_pos hmem]
    · rw [if_neg hmem, if_neg hmem]
  | elseDef => rfl
  | endDef => rfl

/-- The scanner of skipped text on a directive, by what the directive changes. -/
theorem skip_directive (features : List String) (d : Directive) (hd : d.Fits) (rest : List Char) :
    skipDisabledBlock stopAtElse start depth (d.text ++ rest) =
      match (Mode.skip stopAtElse depth).next features d with
      | .keep => .ok rest
      | .skip stopAtElse depth => skipDisabledBlock stopAtElse start depth rest := by
  cases d with
  | ifDef feature =>
    have hdrop : ('I' :: 'F' :: ' ' :: (feature ++ '*' :: ')' :: rest)).dropWhile isWord =
        ' ' :: feature ++ '*' :: ')' :: rest := rfl
    have hclose : skipPragmaClose
        (('I' :: 'F' :: ' ' :: (feature ++ '*' :: ')' :: rest)).dropWhile isWord) = some rest := by
      have hstar : '*' ∉ ' ' :: feature := by
        rw [mem_cons, not_or]
        exact ⟨by decide, fun hmem => absurd (hd _ hmem) (by decide)⟩
      rw [hdrop, skipPragmaClose_append]
      · rfl
      · rintro ⟨u, v, huv⟩
        exact hstar (huv ▸ by simp)
      · exact fun hlast => hstar (mem_of_getLast? hlast)
    rw [directive_text_if, skipDisabledBlock_pragma hclose]
    exact if_pos rfl
  | elseDef =>
    have hclose : skipPragmaClose
        (('E' :: 'L' :: 'S' :: 'E' :: '*' :: ')' :: rest).dropWhile isWord) = some rest := rfl
    change skipDisabledBlock stopAtElse start depth
      ('(' :: '*' :: '$' :: ('E' :: 'L' :: 'S' :: 'E' :: '*' :: ')' :: rest)) = _
    have htake : ('E' :: 'L' :: 'S' :: 'E' :: '*' :: ')' :: rest).takeWhile isWord =
        ['E', 'L', 'S', 'E'] := rfl
    rw [skipDisabledBlock_pragma hclose, htake, if_neg (by decide), Mode.next]
    by_cases helse : depth = 0 ∧ stopAtElse = true
    · rw [if_pos ⟨rfl, helse⟩, if_pos helse]
    · rw [if_neg fun h => helse h.2, if_neg helse]
      exact if_neg (by decide)
  | endDef =>
    have hclose : skipPragmaClose
        (('E' :: 'N' :: 'D' :: '*' :: ')' :: rest).dropWhile isWord) = some rest := rfl
    change skipDisabledBlock stopAtElse start depth
      ('(' :: '*' :: '$' :: ('E' :: 'N' :: 'D' :: '*' :: ')' :: rest)) = _
    have htake : ('E' :: 'N' :: 'D' :: '*' :: ')' :: rest).takeWhile isWord =
        ['E', 'N', 'D'] := rfl
    rw [skipDisabledBlock_pragma hclose, htake, if_neg (by decide),
      if_neg fun h => absurd h.1 (by decide), if_pos rfl, Mode.next]
    by_cases hdepth : depth = 0
    · rw [if_pos hdepth, if_pos hdepth]
    · rw [if_neg hdepth, if_neg hdepth]

end Directives

/-! ## Source texts -/

/-- A directive with the ordinary text behind it. -/
structure Segment where
  directive : Directive
  elements : List Element

/-- The text of some segments. -/
def segmentsText : List Segment → List Char
  | [] => []
  | seg :: segs => seg.directive.text ++ (elementsText seg.elements ++ segmentsText segs)

/-- What is kept of some segments; a blank stands for the directives in front of a text. -/
def kept (features : List String) : Mode → List Segment → List Char
  | _, [] => []
  | mode, seg :: segs =>
    match mode.next features seg.directive with
    | .keep => ' ' :: (elementsText seg.elements ++ kept features .keep segs)
    | .skip stopAtElse depth => kept features (.skip stopAtElse depth) segs

/-- What becomes of the text behind some segments. -/
def modeAfter (features : List String) (mode : Mode) (segs : List Segment) : Mode :=
  segs.foldl (fun mode seg => mode.next features seg.directive) mode

/-- The directives and the ordinary texts are well formed. -/
def SegmentsFit (lx : Lexer) (segs : List Segment) : Prop :=
  ∀ seg ∈ segs, seg.directive.Fits ∧ Fit lx seg.elements

/-- In the text that is kept no comment is empty, and in the text that is skipped no string literal
and no pragma looks like something else. -/
def Clean (features : List String) : Mode → List Segment → Prop
  | _, [] => True
  | mode, seg :: segs =>
    (∀ e ∈ seg.elements,
      if mode.next features seg.directive = .keep then e.IsPlain else e.IsInert) ∧
      Clean features (mode.next features seg.directive) segs

section Runs

variable {lx : Lexer}

/-- The tokens of a text that is lexed, or of what is behind its skipped part. -/
def outcome (lx : Lexer) (start : List Char) : Mode → List Char → Option (List TokenKind)
  | .keep, cs => kinds lx cs
  | .skip stopAtElse depth, cs =>
    match skipDisabledBlock stopAtElse start depth cs with
    | .ok rest => kinds lx rest
    | .error _ => none

theorem stop_segmentsText (segs : List Segment) : Stop (segmentsText segs) := by
  cases segs with
  | nil => exact .inl rfl
  | cons seg segs =>
    refine .inr ?_
    rw [segmentsText]
    cases seg.directive with
    | ifDef feature | elseDef | endDef => exact ⟨_, .inl rfl⟩

theorem stop_kept (features : List String) (mode : Mode) (segs : List Segment) :
    Stop (kept features mode segs) := by
  induction segs generalizing mode with
  | nil => exact .inl rfl
  | cons seg segs ih =>
    rw [kept]
    cases mode.next features seg.directive with
    | keep => exact .inr ⟨_, .inr rfl⟩
    | skip stopAtElse depth => exact ih _

theorem kinds_blank (cs : List Char) : kinds lx (' ' :: cs) = kinds lx cs := kinds_white rfl

/-- The tokens of a text that begins with a directive, by what the directive changes. -/
theorem kinds_directive (d : Directive) (hd : d.Fits) (rest : List Char) :
    kinds lx (d.text ++ rest) = outcome lx rest (Mode.keep.next lx.features d) rest := by
  have hround := round_directive lx d hd rest
  have hws : skipWhitespace (d.text ++ rest) = d.text ++ rest := by
    cases d <;> exact skipWhitespace_of_not rfl
  cases hnext : Mode.keep.next lx.features d with
  | keep =>
    rw [hnext] at hround
    exact kinds_silent hround
  | skip stopAtElse depth =>
    rw [hnext] at hround
    rw [outcome]
    cases hskip : skipDisabledBlock stopAtElse rest depth rest with
    | error e =>
      simp only [hskip] at hround
      exact kinds_error (by rw [hws]; exact hround)
    | ok behind =>
      simp only [hskip] at hround
      exact kinds_silent hround

theorem outcome_directive (lx : Lexer) (mode : Mode) (d : Directive) (hd : d.Fits)
    (start rest : List Char) :
    ∃ start', outcome lx start mode (d.text ++ rest) =
      outcome lx start' (mode.next lx.features d) rest := by
  cases mode with
  | keep => exact ⟨rest, kinds_directive d hd rest⟩
  | skip stopAtElse depth =>
    refine ⟨start, ?_⟩
    rw [outcome, skip_directive lx.features d hd rest]
    cases (Mode.skip stopAtElse depth).next lx.features d with
    | keep => rfl
    | skip stopAtElse depth => rfl

/-- The lexer reads what is kept, and rejects a text that ends where it is skipped. -/
theorem outcome_segments {segs : List Segment} {mode : Mode} (start : List Char)
    (hfit : SegmentsFit lx segs) (hclean : Clean lx.features mode segs) :
    outcome lx start mode (segmentsText segs) =
      if modeAfter lx.features mode segs = .keep then kinds lx (kept lx.features mode segs)
      else none := by
  induction segs generalizing mode start with
  | nil =>
    cases mode with
    | keep => exact (if_pos rfl).symm
    | skip stopAtElse depth =>
      rw [outcome, segmentsText, skipDisabledBlock]
      exact (if_neg (by simp [modeAfter])).symm
  | cons seg segs ih =>
    obtain ⟨hdir, hes⟩ := hfit seg mem_cons_self
    obtain ⟨hel, hclean⟩ := hclean
    obtain ⟨start', hstep⟩ := outcome_directive lx mode seg.directive hdir start
      (elementsText seg.elements ++ segmentsText segs)
    have hrun := fun start => ih start (fun seg hseg => hfit seg (mem_cons_of_mem _ hseg)) hclean
    rw [segmentsText, hstep, modeAfter, foldl_cons, ← modeAfter, kept]
    cases hnext : mode.next lx.features seg.directive with
    | keep =>
      simp only [hnext, if_true] at hel hrun
      obtain ⟨ks, hks⟩ := exists_reads hes hel
      rw [outcome, (hks _ (stop_segmentsText segs)).kinds_eq, kinds_blank,
        (hks _ (stop_kept _ _ segs)).kinds_eq]
      have htail := hrun start'
      rw [outcome] at htail
      rw [htail]
      split
      · rfl
      · rfl
    | skip stopAtElse depth =>
      simp only [hnext, reduceCtorEq, if_false] at hel hrun
      have htail := hrun start'
      rw [outcome] at htail
      rw [outcome, skipDisabledBlock_elements hes hel (stop_segmentsText segs), htail]

/-- What is kept is never rejected. -/
theorem kinds_kept_ne_none {segs : List Segment} {mode : Mode} (hfit : SegmentsFit lx segs)
    (hclean : Clean lx.features mode segs) : kinds lx (kept lx.features mode segs) ≠ none := by
  induction segs generalizing mode with
  | nil =>
    rw [kept, kinds_nil]
    exact Option.some_ne_none _
  | cons seg segs ih =>
    obtain ⟨-, hes⟩ := hfit seg mem_cons_self
    obtain ⟨hel, hclean⟩ := hclean
    have hrest := ih (fun seg hseg => hfit seg (mem_cons_of_mem _ hseg)) hclean
    rw [kept]
    cases hnext : mode.next lx.features seg.directive with
    | keep =>
      simp only [hnext, if_true] at hel hrest
      obtain ⟨ks, hks⟩ := exists_reads hes hel
      rw [kinds_blank, (hks _ (stop_kept _ _ segs)).kinds_eq, ne_eq, Option.map_eq_none_iff]
      exact hrest
    | skip stopAtElse depth =>
      rw [hnext] at hrest
      exact hrest

end Runs

/-! ## Balanced texts -/

/-- A text in which every `IF` has its `END`: ordinary text and groups with or without an `ELSE`. -/
inductive Source where
  | text (es : List Element)
  | ifEnd (es : List Element) (feature : List Char) (a rest : Source)
  | ifElseEnd (es : List Element) (feature : List Char) (a b rest : Source)

namespace Source

/-- The text in front of the first directive. -/
def front : Source → List Element
  | text es | ifEnd es _ _ _ | ifElseEnd es _ _ _ _ => es

/-- The directives, with the texts behind them. -/
def segments : Source → List Segment
  | text _ => []
  | ifEnd _ feature a rest =>
    ⟨.ifDef feature, a.front⟩ :: (a.segments ++ ⟨.endDef, rest.front⟩ :: rest.segments)
  | ifElseEnd _ feature a b rest =>
    ⟨.ifDef feature, a.front⟩ :: (a.segments ++ ⟨.elseDef, b.front⟩ :: (b.segments ++
      ⟨.endDef, rest.front⟩ :: rest.segments))

/-- The text in which every group is replaced by its first part if the feature is enabled, and by
its second part or nothing if it is not. As in place of comments there are blanks in place of the
directives. -/
def resolve (features : List String) : Source → List Char
  | text es => elementsText es
  | ifEnd es feature a rest =>
    elementsText es ++
      ((if String.ofList feature ∈ features then ' ' :: a.resolve features else []) ++
      ' ' :: rest.resolve features)
  | ifElseEnd es feature a b rest =>
    elementsText es ++ (' ' :: (if String.ofList feature ∈ features then a.resolve features
      else b.resolve features) ++ ' ' :: rest.resolve features)

variable (features : List String)

theorem modeAfter_append (mode : Mode) (segs segs' : List Segment) :
    modeAfter features mode (segs ++ segs') =
      modeAfter features (modeAfter features mode segs) segs' := by
  rw [modeAfter, foldl_append]
  rfl

theorem modeAfter_cons (mode : Mode) (seg : Segment) (segs : List Segment) :
    modeAfter features mode (seg :: segs) =
      modeAfter features (mode.next features seg.directive) segs := rfl

theorem kept_skip {mode : Mode} {seg : Segment} {segs : List Segment} {stopAtElse : Bool}
    {depth : Nat} (h : mode.next features seg.directive = .skip stopAtElse depth) :
    kept features mode (seg :: segs) = kept features (.skip stopAtElse depth) segs := by
  rw [kept, h]

theorem kept_keep {mode : Mode} {seg : Segment} {segs : List Segment}
    (h : mode.next features seg.directive = .keep) :
    kept features mode (seg :: segs) =
      ' ' :: (elementsText seg.elements ++ kept features .keep segs) := by
  rw [kept, h]

/-- A balanced text inside skipped text is skipped whole. -/
theorem segments_skip (s : Source) (stopAtElse : Bool) (depth : Nat) :
    modeAfter features (.skip stopAtElse depth) s.segments = .skip stopAtElse depth ∧
      ∀ more, kept features (.skip stopAtElse depth) (s.segments ++ more) =
        kept features (.skip stopAtElse depth) more := by
  have hend : ∀ depth, (Mode.skip stopAtElse (depth + 1)).next features .endDef =
      .skip stopAtElse depth := by
    intro depth
    rw [Mode.next, if_neg (Nat.succ_ne_zero depth), Nat.add_sub_cancel]
  have helse : ∀ depth, (Mode.skip stopAtElse (depth + 1)).next features .elseDef =
      .skip stopAtElse (depth + 1) := by
    intro depth
    rw [Mode.next, if_neg fun h => Nat.succ_ne_zero depth h.1]
  induction s generalizing depth with
  | text es => exact ⟨rfl, fun _ => rfl⟩
  | ifEnd es feature a rest iha ihrest =>
    obtain ⟨hmode, hkept⟩ := iha (depth + 1)
    obtain ⟨hmode', hkept'⟩ := ihrest depth
    constructor
    · rw [segments, modeAfter_cons, Mode.next, modeAfter_append, hmode, modeAfter_cons, hend,
        hmode']
    · intro more
      rw [segments, cons_append, append_assoc, cons_append, kept_skip features rfl,
        hkept, kept_skip features (hend depth), hkept']
  | ifElseEnd es feature a b rest iha ihb ihrest =>
    obtain ⟨hmode, hkept⟩ := iha (depth + 1)
    obtain ⟨hmodeb, hkeptb⟩ := ihb (depth + 1)
    obtain ⟨hmode', hkept'⟩ := ihrest depth
    constructor
    · rw [segments, modeAfter_cons, Mode.next, modeAfter_append, hmode, modeAfter_cons, helse,
        modeAfter_append, hmodeb, modeAfter_cons, hend, hmode']
    · intro more
      rw [segments, cons_append, append_assoc, cons_append, append_assoc,
        cons_append, kept_skip features rfl, hkept, kept_skip features (helse depth), hkeptb,
        kept_skip features (hend depth), hkept']

/-- A balanced text in kept text is kept as its groups say. -/
theorem segments_keep (s : Source) :
    modeAfter features .keep s.segments = .keep ∧
      ∀ more, elementsText s.front ++ kept features .keep (s.segments ++ more) =
        s.resolve features ++ kept features .keep more := by
  induction s with
  | text es => exact ⟨rfl, fun _ => rfl⟩
  | ifEnd es feature a rest iha ihrest =>
    obtain ⟨hmode', hkept'⟩ := ihrest
    by_cases hfeature : String.ofList feature ∈ features
    · have hif : Mode.keep.next features (.ifDef feature) = .keep := if_pos hfeature
      obtain ⟨hmode, hkept⟩ := iha
      constructor
      · rw [segments, modeAfter_cons, hif, modeAfter_append, hmode, modeAfter_cons, Mode.next,
          hmode']
      · intro more
        rw [segments, cons_append, append_assoc, cons_append, kept_keep features hif,
          hkept, kept_keep features rfl, hkept', resolve, if_pos hfeature]
        simp [front]
    · have hif : Mode.keep.next features (.ifDef feature) = .skip true 0 := if_neg hfeature
      obtain ⟨hmode, hkept⟩ := a.segments_skip features true 0
      constructor
      · rw [segments, modeAfter_cons, hif, modeAfter_append, hmode, modeAfter_cons]
        exact hmode'
      · intro more
        rw [segments, cons_append, append_assoc, cons_append, kept_skip features hif,
          hkept, kept_keep features rfl, hkept', resolve, if_neg hfeature]
        simp [front]
  | ifElseEnd es feature a b rest iha ihb ihrest =>
    obtain ⟨hmode', hkept'⟩ := ihrest
    by_cases hfeature : String.ofList feature ∈ features
    · have hif : Mode.keep.next features (.ifDef feature) = .keep := if_pos hfeature
      obtain ⟨hmode, hkept⟩ := iha
      obtain ⟨hmodeb, hkeptb⟩ := b.segments_skip features false 0
      constructor
      · rw [segments, modeAfter_cons, hif, modeAfter_append, hmode, modeAfter_cons, Mode.next,
          modeAfter_append, hmodeb, modeAfter_cons]
        exact hmode'
      · intro more
        rw [segments, cons_append, append_assoc, cons_append, append_assoc,
          cons_append, kept_keep features hif, hkept, kept_skip features rfl, hkeptb,
          kept_keep features rfl, hkept', resolve, if_pos hfeature]
        simp [front]
    · have hif : Mode.keep.next features (.ifDef feature) = .skip true 0 := if_neg hfeature
      obtain ⟨hmode, hkept⟩ := a.segments_skip features true 0
      obtain ⟨hmodeb, hkeptb⟩ := ihb
      have helse : (Mode.skip true 0).next features .elseDef = .keep := rfl
      constructor
      · rw [segments, modeAfter_cons, hif, modeAfter_append, hmode, modeAfter_cons, helse,
          modeAfter_append, hmodeb, modeAfter_cons, Mode.next, hmode']
      · intro more
        rw [segments, cons_append, append_assoc, cons_append, append_assoc,
          cons_append, kept_skip features hif, hkept, kept_keep features helse, hkeptb,
          kept_keep features rfl, hkept', resolve, if_neg hfeature]
        simp [front]

end Source

/-! ## What the lexer makes of source texts -/

variable (lx : Lexer) (es : List Element) (segs : List Segment)

/-- A source text: ordinary text, and directives with the texts behind them. -/
def sourceText : List Char := elementsText es ++ segmentsText segs

/-- The directives are those of a balanced text. -/
def Balanced : Prop := ∃ s : Source, s.front = es ∧ s.segments = segs

/-- Conditional compilation keeps just the enabled text: the tokens of a balanced text are those of
the text in which its groups are replaced, and any other text is rejected. -/
structure KeepsEnabled : Prop where
  balanced : ∀ s : Source, s.front = es → s.segments = segs →
    kinds lx (sourceText es segs) = kinds lx (s.resolve lx.features)
  unbalanced : ¬Balanced es segs → kinds lx (sourceText es segs) = none

variable {lx es segs}

theorem kinds_sourceText (hes : Fit lx es) (hfit : SegmentsFit lx segs)
    (hplain : ∀ e ∈ es, e.IsPlain) (hclean : Clean lx.features .keep segs) :
    kinds lx (sourceText es segs) = if modeAfter lx.features .keep segs = .keep then
      kinds lx (elementsText es ++ kept lx.features .keep segs) else none := by
  obtain ⟨ks, hks⟩ := exists_reads hes hplain
  have hrun := outcome_segments [] hfit hclean
  rw [outcome] at hrun
  rw [sourceText, (hks _ (stop_segmentsText segs)).kinds_eq, (hks _ (stop_kept _ _ segs)).kinds_eq,
    hrun]
  split
  · rfl
  · rfl

/-- Where the kept text has no empty comment and the skipped text no string literal in which a
comment opens and no pragma with closing characters in its argument, the lexer keeps just the
enabled text if and only if the text is balanced or ends where it is skipped. -/
theorem keepsEnabled_iff (hes : Fit lx es) (hfit : SegmentsFit lx segs)
    (hplain : ∀ e ∈ es, e.IsPlain) (hclean : Clean lx.features .keep segs) :
    KeepsEnabled lx es segs ↔ Balanced es segs ∨ modeAfter lx.features .keep segs ≠ .keep := by
  have hkinds := kinds_sourceText hes hfit hplain hclean
  constructor
  · intro h
    by_cases hbalanced : Balanced es segs
    · exact .inl hbalanced
    · refine .inr fun hkeep => ?_
      have hnone := h.unbalanced hbalanced
      obtain ⟨ks, hks⟩ := exists_reads hes hplain
      rw [hkinds, if_pos hkeep, (hks _ (stop_kept _ _ segs)).kinds_eq, Option.map_eq_none_iff]
        at hnone
      exact kinds_kept_ne_none hfit hclean hnone
  · intro h
    constructor
    · rintro s rfl rfl
      obtain ⟨hmode, hkept⟩ := s.segments_keep lx.features
      have hresolve := hkept []
      rw [kept, append_nil, append_nil] at hresolve
      rw [hkinds, if_pos hmode, hresolve]
    · intro hbalanced
      obtain hbalanced' | hskip := h
      · exact absurd hbalanced' hbalanced
      · rw [hkinds, if_neg hskip]

theorem fits_feature_a : (Directive.ifDef ['a']).Fits := by
  intro c hc
  obtain rfl := mem_singleton.mp hc
  rfl

/-- A group whose feature is not enabled, with a number in it. -/
theorem keepsEnabled_number :
    KeepsEnabled ⟨"", [], true, false, fun _ => none⟩ []
      [⟨.ifDef ['a'], [.token ['1']]⟩, ⟨.endDef, []⟩] := by
  have hround : round ⟨"", [], true, false, fun _ => none⟩ (['1'] ++ []) =
      .ok (some (.intLit 1), []) := by
    have hlit : decimalLit ['1'] ['1'] [] = .ok (some (.intLit 1), []) := by
      have hdigits : ∀ c ∈ ['1'], digitValue c < 10 := by
        intro c hc
        obtain rfl := mem_singleton.mp hc
        decide
      have hone : fromStrRadix 10 (2 ^ 63) ['1'] = some 1 :=
        if_pos ⟨cons_ne_nil _ _, hdigits, by decide⟩
      rw [decimalLit, if_pos (by decide), hone]
      rfl
    have hlast : readNumber ⟨"", [], true, false, fun _ => none⟩ ['1'] =
        lastDigit ⟨"", [], true, false, fun _ => none⟩ ['1'] ['1'] [] :=
      readNumber_of_stop (by rintro _ ⟨⟩)
    have hnumber : readNumber ⟨"", [], true, false, fun _ => none⟩ ['1'] =
        decimalLit ['1'] ['1'] [] := by
      rw [hlast, lastDigit, if_neg (by decide), singleDigit, unsuffixed]
      simp
    have hdigit : round ⟨"", [], true, false, fun _ => none⟩ ['1'] =
        readNumber ⟨"", [], true, false, fun _ => none⟩ ['1'] := by
      rw [round_of_ne (by decide), if_neg (by decide), if_pos (by decide)]
    exact hdigit.trans (hnumber.trans hlit)
  have hfit : SegmentsFit ⟨"", [], true, false, fun _ => none⟩
      [⟨.ifDef ['a'], [.token ['1']]⟩, ⟨.endDef, []⟩] := by
    intro seg hseg
    obtain rfl | hseg := mem_cons.mp hseg
    · refine ⟨fits_feature_a, ⟨.inr fun c hc => ?_, .intLit 1, by simp, hround⟩, trivial⟩
      obtain rfl := Option.some.inj hc
      decide
    · obtain rfl := mem_singleton.mp hseg
      exact ⟨trivial, trivial⟩
  have hclean : Clean [] .keep [⟨.ifDef ['a'], [.token ['1']]⟩, ⟨.endDef, []⟩] := by
    refine ⟨fun e he => ?_, fun e he => absurd he not_mem_nil, trivial⟩
    obtain rfl := mem_singleton.mp he
    exact trivial
  exact (@keepsEnabled_iff _ [] _ trivial hfit (fun e he => absurd he not_mem_nil) hclean).2
    (.inl ⟨.ifEnd [] ['a'] (.text [.token ['1']]) (.text []), rfl, rfl⟩)

/-- A string literal with the opening characters of a comment, in a group whose feature is not
enabled. -/
def openingInString : Source :=
  .ifEnd [] ['a'] (.text [.string '"' ['(', '*']]) (.text [])

/-- The scanner of skipped text takes a comment to open in the string literal, and misses the end of
the group. -/
theorem kinds_openingInString :
    kinds ⟨"", [], true, false, fun _ => none⟩
      (sourceText openingInString.front openingInString.segments) = none := by
  have hskip : ∀ start, skipDisabledBlock true start 0
      ('"' :: '(' :: '*' :: '"' :: '(' :: '*' :: '$' :: 'E' :: 'N' :: 'D' :: '*' :: ')' :: []) =
      .error ⟨start, "unterminated comment in disabled block"⟩ := by
    intro start
    rw [skipDisabledBlock_char (fun h => absurd h (by decide)), skipDisabledBlock]
    · split
      · rfl
      · next hsome => cases hsome
    · exact fun t ht => absurd (List.cons.inj ht).1 (by decide)
  change kinds _ ((Directive.ifDef ['a']).text ++ _) = none
  rw [kinds_directive _ fits_feature_a]
  change outcome _ _ (.skip true 0)
    ('"' :: '(' :: '*' :: '"' :: '(' :: '*' :: '$' :: 'E' :: 'N' :: 'D' :: '*' :: ')' :: []) = none
  rw [outcome, hskip]

theorem not_keepsEnabled :
    ¬∀ (lx : Lexer) (es : List Element) (segs : List Segment), Fit lx es → SegmentsFit lx segs →
      KeepsEnabled lx es segs := by
  intro h
  have hfit : SegmentsFit ⟨"", [], true, false, fun _ => none⟩ openingInString.segments := by
    intro seg hseg
    obtain rfl | hseg := mem_cons.mp hseg
    · refine ⟨fits_feature_a, ⟨.inl rfl, fun c hc => ?_⟩, trivial⟩
      obtain rfl | hc := mem_cons.mp hc
      · decide
      · obtain rfl := mem_singleton.mp hc
        decide
    · obtain rfl := mem_singleton.mp hseg
      exact ⟨trivial, trivial⟩
  have hkinds := (h _ openingInString.front _ trivial hfit).balanced openingInString rfl rfl
  rw [kinds_openingInString] at hkinds
  change none = kinds _ (' ' :: []) at hkinds
  rw [kinds_blank, kinds_nil] at hkinds
  cases hkinds

end Mx.Lexer
