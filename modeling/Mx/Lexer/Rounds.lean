import Mx.Lexer.Lexer

/-!
# Rounds of the lexer

What a round of the lexer reads does not depend on the text behind it, up to the characters that
end a number, a word or a symbol. A text is lexed by rounds until it is used up.
-/

namespace Mx.Lexer

open List

/-! ## What is read up to a place -/

section Spans

variable {p : Char → Bool} {cs w rest : List Char}

theorem takeWhile_of_stop (hw : ∀ c ∈ w, p c = true) (hrest : ∀ c ∈ rest.head?, p c = false) :
    (w ++ rest).takeWhile p = w := by
  induction w with
  | nil =>
    cases rest with
    | nil => rfl
    | cons c rest => exact takeWhile_cons_of_neg (by simp [hrest c rfl])
  | cons c w ih =>
    rw [cons_append, takeWhile_cons_of_pos (hw c mem_cons_self),
      ih fun d hd => hw d (mem_cons_of_mem _ hd)]

theorem dropWhile_of_stop (hw : ∀ c ∈ w, p c = true) (hrest : ∀ c ∈ rest.head?, p c = false) :
    (w ++ rest).dropWhile p = rest := by
  induction w with
  | nil =>
    cases rest with
    | nil => rfl
    | cons c rest => exact dropWhile_cons_of_neg (by simp [hrest c rfl])
  | cons c w ih =>
    rw [cons_append, dropWhile_cons_of_pos (hw c mem_cons_self),
      ih fun d hd => hw d (mem_cons_of_mem _ hd)]

theorem head_dropWhile (p : Char → Bool) (cs : List Char) :
    ∀ c ∈ (cs.dropWhile p).head?, p c = false := by
  intro c hc
  cases hdrop : cs.dropWhile p with
  | nil =>
    rw [hdrop] at hc
    cases hc
  | cons d rest =>
    have hne : cs.dropWhile p ≠ [] := by simp [hdrop]
    have hnot := head_dropWhile_not p hne
    rw [hdrop] at hc
    obtain rfl := Option.some.inj hc
    simpa only [hdrop, head_cons] using hnot

theorem mem_takeWhile {c : Char} (h : c ∈ cs.takeWhile p) : p c = true :=
  mem_takeWhile_imp h

theorem span_of_stop (cs : List Char) (hstop : ∀ c ∈ rest.head?, p c = false) :
    (cs.takeWhile p ++ rest).takeWhile p = cs.takeWhile p ∧
      (cs.takeWhile p ++ rest).dropWhile p = rest :=
  ⟨takeWhile_of_stop (fun _ => mem_takeWhile) hstop,
    dropWhile_of_stop (fun _ => mem_takeWhile) hstop⟩

/-- Where the characters end does not depend on the text behind what follows them. -/
theorem span_of_dropWhile (h : cs.dropWhile p = w ++ rest) (hw : w ≠ []) (rest' : List Char) :
    (cs.takeWhile p ++ (w ++ rest')).takeWhile p = cs.takeWhile p ∧
      (cs.takeWhile p ++ (w ++ rest')).dropWhile p = w ++ rest' := by
  apply span_of_stop
  intro c hc
  apply head_dropWhile p cs
  rw [h]
  cases w with
  | nil => exact absurd rfl hw
  | cons d w => exact hc

theorem not_mem_takeWhile {c : Char} (h : p c = false) : c ∉ cs.takeWhile p := by
  intro hc
  rw [mem_takeWhile hc] at h
  cases h

theorem eq_takeWhile_append (h : cs.dropWhile p = rest) : cs = cs.takeWhile p ++ rest := by
  rw [← h, takeWhile_append_dropWhile]

end Spans

section Closing

variable {cs rest : List Char}

/-- The first character of a text does not depend on what is behind the text. -/
theorem cons_of_append {w rest' t : List Char} {c : Char} (hw : w ≠ []) (h : w ++ rest' = c :: t)
    (rest : List Char) : ∃ t', w ++ rest = c :: t' := by
  cases w with
  | nil => exact absurd rfl hw
  | cons d w => exact ⟨w ++ rest, by rw [cons_append, (List.cons.inj h).1]⟩

/-- A comment ends where it does whatever comes behind it. -/
theorem skipNested_local {depth : Nat} (h : skipNested depth cs = some rest) :
    ∃ w, cs = w ++ rest ∧ ∀ rest', skipNested depth (w ++ rest') = some rest' := by
  fun_induction skipNested depth cs with
  | case1 cs =>
    obtain rfl := Option.some.inj h
    exact ⟨[], rfl, skipNested_zero⟩
  | case2 => cases h
  | case3 depth cs ih =>
    obtain ⟨w, rfl, hw⟩ := ih h
    exact ⟨'(' :: '*' :: w, rfl, hw⟩
  | case4 depth cs ih =>
    obtain ⟨w, rfl, hw⟩ := ih h
    exact ⟨'*' :: ')' :: w, rfl, hw⟩
  | case5 depth c cs hopen hclose ih =>
    have hlen := length_skipNested h
    obtain ⟨w, rfl, hw⟩ := ih h
    -- something must be left of the comment, so the next character is its own
    have hne : w ≠ [] := by
      rintro rfl
      rw [nil_append] at hlen
      omega
    refine ⟨c :: w, rfl, fun rest' => ?_⟩
    rw [cons_append, skipNested]
    · exact hw rest'
    · exact fun _ hc hcs => (cons_of_append hne hcs rest).elim fun _ => hopen _ hc
    · exact fun _ hc hcs => (cons_of_append hne hcs rest).elim fun _ => hclose _ hc

theorem skipPragmaClose_local (h : skipPragmaClose cs = some rest) :
    ∃ w, w ≠ [] ∧ cs = w ++ rest ∧ ∀ rest', skipPragmaClose (w ++ rest') = some rest' := by
  fun_induction skipPragmaClose cs with
  | case1 => cases h
  | case2 cs =>
    obtain rfl := Option.some.inj h
    exact ⟨['*', ')'], cons_ne_nil _ _, rfl, fun _ => rfl⟩
  | case3 c cs hclose ih =>
    obtain ⟨w, hne, rfl, hw⟩ := ih h
    refine ⟨c :: w, cons_ne_nil _ _, rfl, fun rest' => ?_⟩
    rw [cons_append, skipPragmaClose]
    · exact hw rest'
    · exact fun _ hc hcs => (cons_of_append hne hcs rest).elim fun _ => hclose _ hc

/-- Reading a doc comment ends where skipping a comment does. -/
theorem readDoc_rest {depth : Nat} :
    (readDoc depth cs).map Prod.snd = skipNested depth cs := by
  fun_induction readDoc depth cs with
  | case1 cs => rw [skipNested_zero, Option.map_some]
  | case2 => rfl
  | case3 depth cs ih | case4 depth cs ih =>
    rw [skipNested, ← ih, Option.map_map]
    rfl
  | case5 depth c cs hopen hclose ih =>
    rw [skipNested, ← ih, Option.map_map]
    · rfl
    · exact hopen
    · exact hclose

theorem readDoc_local {depth : Nat} {content : List Char}
    (h : readDoc depth cs = some (content, rest)) :
    ∃ w, cs = w ++ rest ∧ ∀ rest', readDoc depth (w ++ rest') = some (content, rest') := by
  fun_induction readDoc depth cs generalizing content with
  | case1 cs =>
    obtain ⟨rfl, rfl⟩ := Prod.mk.inj (Option.some.inj h)
    exact ⟨[], rfl, readDoc_zero⟩
  | case2 => cases h
  | case3 depth cs ih =>
    obtain ⟨⟨content, rest⟩, hdoc, heq⟩ := Option.map_eq_some_iff.mp h
    obtain ⟨rfl, rfl⟩ := Prod.mk.inj heq
    obtain ⟨w, rfl, hw⟩ := ih hdoc
    refine ⟨'(' :: '*' :: w, rfl, fun rest' => ?_⟩
    rw [cons_append, cons_append, readDoc, hw]
    rfl
  | case4 depth cs ih =>
    obtain ⟨⟨content, rest⟩, hdoc, heq⟩ := Option.map_eq_some_iff.mp h
    obtain ⟨rfl, rfl⟩ := Prod.mk.inj heq
    obtain ⟨w, rfl, hw⟩ := ih hdoc
    refine ⟨'*' :: ')' :: w, rfl, fun rest' => ?_⟩
    rw [cons_append, cons_append, readDoc, hw]
    rfl
  | case5 depth c cs hopen hclose ih =>
    obtain ⟨⟨content, rest⟩, hdoc, heq⟩ := Option.map_eq_some_iff.mp h
    obtain ⟨rfl, rfl⟩ := Prod.mk.inj heq
    have hlen : rest.length + (depth + 1) ≤ cs.length := by
      apply length_skipNested
      rw [← readDoc_rest, hdoc]
      rfl
    obtain ⟨w, rfl, hw⟩ := ih hdoc
    have hne : w ≠ [] := by
      rintro rfl
      rw [nil_append] at hlen
      omega
    refine ⟨c :: w, rfl, fun rest' => ?_⟩
    rw [cons_append, readDoc, hw]
    · rfl
    · exact fun _ hc hcs => (cons_of_append hne hcs _).elim fun _ => hopen _ hc
    · exact fun _ hc hcs => (cons_of_append hne hcs _).elim fun _ => hclose _ hc

/-! ## Disabled blocks -/

variable {stopAtElse : Bool} {start : List Char} {depth : Nat}

theorem skipDisabledBlock_pragma (h : skipPragmaClose (cs.dropWhile isWord) = some rest) :
    skipDisabledBlock stopAtElse start depth ('(' :: '*' :: '$' :: cs) =
      if cs.takeWhile isWord = ['I', 'F'] then skipDisabledBlock stopAtElse start (depth + 1) rest
      else if cs.takeWhile isWord = ['E', 'L', 'S', 'E'] ∧ depth = 0 ∧ stopAtElse = true then
        .ok rest
      else if cs.takeWhile isWord = ['E', 'N', 'D'] then
        if depth = 0 then .ok rest else skipDisabledBlock stopAtElse start (depth - 1) rest
      else skipDisabledBlock stopAtElse start depth rest := by
  rw [skipDisabledBlock]
  split
  · next hnone =>
    rw [h] at hnone
    cases hnone
  · next rest' hsome =>
    rw [h] at hsome
    obtain rfl := Option.some.inj hsome
    rfl

theorem skipDisabledBlock_comment (hne : ∀ cs', cs ≠ '$' :: cs') (h : skipNested 1 cs = some rest) :
    skipDisabledBlock stopAtElse start depth ('(' :: '*' :: cs) =
      skipDisabledBlock stopAtElse start depth rest := by
  rw [skipDisabledBlock]
  · split
    · next hnone =>
      rw [h] at hnone
      cases hnone
    · next rest' hsome =>
      rw [h] at hsome
      obtain rfl := Option.some.inj hsome
      rfl
  · exact hne

theorem skipDisabledBlock_char {c : Char} (h : c = '(' → ∀ cs', cs ≠ '*' :: cs') :
    skipDisabledBlock stopAtElse start depth (c :: cs) =
      skipDisabledBlock stopAtElse start depth cs := by
  rw [skipDisabledBlock]
  · rintro cs' rfl rfl
    exact h rfl _ rfl
  · rintro cs' rfl rfl
    exact h rfl _ rfl

/-- A pragma in a disabled block ends where it does whatever comes behind it. -/
theorem pragma_local (h : skipPragmaClose (cs.dropWhile isWord) = some rest) :
    ∃ w, cs = w ++ rest ∧ w ≠ [] ∧ ∀ rest', (w ++ rest').takeWhile isWord = cs.takeWhile isWord ∧
      skipPragmaClose ((w ++ rest').dropWhile isWord) = some rest' := by
  obtain ⟨w, hne, hdrop, hw⟩ := skipPragmaClose_local h
  refine ⟨cs.takeWhile isWord ++ w, ?_, append_ne_nil_of_right_ne_nil _ hne, fun rest' => ?_⟩
  · rw [append_assoc]
    exact eq_takeWhile_append hdrop
  · obtain ⟨htake, hdrop'⟩ := span_of_dropWhile hdrop hne rest'
    rw [append_assoc, hdrop']
    exact ⟨htake, hw rest'⟩

/-- A pragma that only changes the depth, with what is skipped behind it. -/
theorem pragma_then {behind : List Char} {d : Nat}
    (hclose : skipPragmaClose (cs.dropWhile isWord) = some behind)
    (hstep : ∀ {s cs' r}, skipPragmaClose (cs'.dropWhile isWord) = some r →
      cs'.takeWhile isWord = cs.takeWhile isWord →
      skipDisabledBlock stopAtElse s depth ('(' :: '*' :: '$' :: cs') =
        skipDisabledBlock stopAtElse s d r)
    (h : ∃ w, behind = w ++ rest ∧ w ≠ [] ∧
      ∀ s r, skipDisabledBlock stopAtElse s d (w ++ r) = .ok r) :
    ∃ w, '(' :: '*' :: '$' :: cs = w ++ rest ∧ w ≠ [] ∧
      ∀ s r, skipDisabledBlock stopAtElse s depth (w ++ r) = .ok r := by
  obtain ⟨w, rfl, -, hw⟩ := pragma_local hclose
  obtain ⟨w', rfl, -, hw'⟩ := h
  refine ⟨'(' :: '*' :: '$' :: (w ++ w'), by simp, cons_ne_nil _ _, fun s r => ?_⟩
  obtain ⟨hword, hr⟩ := hw (w' ++ r)
  rw [cons_append, cons_append, cons_append, append_assoc, hstep hr hword]
  exact hw' s r

theorem skipDisabledBlock_local (h : skipDisabledBlock stopAtElse start depth cs = .ok rest) :
    ∃ w, cs = w ++ rest ∧ w ≠ [] ∧
      ∀ start' rest', skipDisabledBlock stopAtElse start' depth (w ++ rest') = .ok rest' := by
  fun_induction skipDisabledBlock stopAtElse start depth cs with
  | case1 | case2 | case8 => cases h
  | case3 depth cs dir behind hclose hif ih =>
    exact pragma_then hclose (fun hr hword => by
      rw [skipDisabledBlock_pragma hr, hword, if_pos hif]) (ih h)
  | case4 depth cs dir behind hclose hif helse =>
    obtain ⟨w, rfl, -, hw⟩ := pragma_local hclose
    obtain rfl := Except.ok.inj h
    refine ⟨'(' :: '*' :: '$' :: w, rfl, cons_ne_nil _ _, fun s rest' => ?_⟩
    rw [cons_append, cons_append, cons_append,
      skipDisabledBlock_pragma (hw rest').2, (hw rest').1, if_neg hif, if_pos helse]
  | case5 cs dir behind hclose hif hend helse =>
    obtain ⟨w, rfl, -, hw⟩ := pragma_local hclose
    obtain rfl := Except.ok.inj h
    refine ⟨'(' :: '*' :: '$' :: w, rfl, cons_ne_nil _ _, fun s rest' => ?_⟩
    rw [cons_append, cons_append, cons_append,
      skipDisabledBlock_pragma (hw rest').2, (hw rest').1, if_neg hif, if_neg helse, if_pos hend,
      if_pos rfl]
  | case6 depth cs dir behind hclose hif helse hend hdepth ih =>
    exact pragma_then hclose (fun hr hword => by
      rw [skipDisabledBlock_pragma hr, hword, if_neg hif, if_neg helse, if_pos hend,
        if_neg hdepth]) (ih h)
  | case7 depth cs dir behind hclose hif helse hend ih =>
    exact pragma_then hclose (fun hr hword => by
      rw [skipDisabledBlock_pragma hr, hword, if_neg hif, if_neg helse, if_neg hend]) (ih h)
  | case9 depth cs hdollar behind hskip ih =>
    have hlen := length_skipNested hskip
    obtain ⟨w, rfl, hw⟩ := skipNested_local hskip
    obtain ⟨w', rfl, -, hw'⟩ := ih h
    refine ⟨'(' :: '*' :: (w ++ w'), by simp, cons_ne_nil _ _, fun s rest' => ?_⟩
    rw [cons_append, cons_append, append_assoc, skipDisabledBlock_comment _ (hw (w' ++ rest'))]
    · exact hw' s rest'
    · have hne : w ≠ [] := by
        rintro rfl
        rw [nil_append] at hlen
        omega
      exact fun _ hcs => (cons_of_append hne hcs _).elim hdollar
  | case10 depth c cs hpragma hcomment ih =>
    obtain ⟨w, rfl, hne, hw⟩ := ih h
    refine ⟨c :: w, rfl, cons_ne_nil _ _, fun s rest' => ?_⟩
    rw [cons_append, skipDisabledBlock_char]
    · exact hw s rest'
    · exact fun hc _ hcs => (cons_of_append hne hcs rest).elim fun _ => hcomment _ hc

/-! ## Pragmas -/

variable {lx : Lexer} {kind : Option TokenKind}

/-- What is read behind white space is found there whatever comes behind it. -/
theorem whitespace_local {w : List Char} (h : skipWhitespace cs = w ++ rest) (hw : w ≠ []) :
    ∃ w', cs = w' ++ rest ∧ w' ≠ [] ∧ ∀ rest', skipWhitespace (w' ++ rest') = w ++ rest' := by
  refine ⟨cs.takeWhile isWhitespace ++ w, ?_, append_ne_nil_of_right_ne_nil _ hw,
    fun rest' => ?_⟩
  · rw [append_assoc]
    exact eq_takeWhile_append h
  · rw [append_assoc]
    exact (span_of_dropWhile h hw rest').2

/-- The name of a directive is found whatever comes behind the pragma. -/
theorem directive_local {w : List Char} (h : cs.dropWhile isWord = w ++ rest) (hw : w ≠ []) :
    ∃ w', cs = w' ++ rest ∧ ∀ rest', (w' ++ rest').takeWhile isWord = cs.takeWhile isWord ∧
      (w' ++ rest').dropWhile isWord = w ++ rest' := by
  refine ⟨cs.takeWhile isWord ++ w, ?_, fun rest' => ?_⟩
  · rw [append_assoc]
    exact eq_takeWhile_append h
  · rw [append_assoc]
    exact span_of_dropWhile h hw rest'

theorem map_eq_ok {f : List Char → Option TokenKind × List Char} {x : Except Fault (List Char)}
    {r : Option TokenKind × List Char} (h : x.map f = .ok r) :
    ∃ rest, x = .ok rest ∧ f rest = r := by
  cases x with
  | error e => cases h
  | ok rest => exact ⟨rest, rfl, Except.ok.inj h⟩

theorem pragmaToken_local {directive : List Char} {arg : Option (List Char)}
    (h : pragmaToken start directive arg cs = .ok (kind, rest)) :
    ∃ w, cs = w ++ rest ∧ w ≠ [] ∧
      ∀ start' rest', pragmaToken start' directive arg (w ++ rest') = .ok (kind, rest') := by
  rw [pragmaToken] at h
  cases hclose : skipPragmaClose cs with
  | none =>
    rw [hclose] at h
    cases h
  | some behind =>
    rw [hclose] at h
    obtain ⟨rfl, rfl⟩ := Prod.mk.inj (Except.ok.inj h)
    obtain ⟨w, hw, rfl, hlocal⟩ := skipPragmaClose_local hclose
    refine ⟨w, rfl, hw, fun start' rest' => ?_⟩
    rw [pragmaToken, hlocal]

theorem readArg_local {directive : List Char} (h : readArg start directive cs = .ok (kind, rest)) :
    ∃ w, cs = w ++ rest ∧ w ≠ [] ∧
      ∀ start' rest', readArg start' directive (w ++ rest') = .ok (kind, rest') := by
  fun_cases readArg start directive cs with
  | case1 cs hnil =>
    rw [readArg, hnil] at h
    cases h
  | case2 cs quote behind hquote =>
    rw [readArg, hquote] at h
    obtain ⟨w, rfl, -, hlocal⟩ := pragmaToken_local h
    refine ⟨'"' :: (cs.takeWhile (· != '"') ++ quote :: w), ?_, cons_ne_nil _ _,
      fun start' rest' => ?_⟩
    · rw [cons_append, append_assoc, cons_append]
      exact congrArg _ (eq_takeWhile_append hquote)
    · have hspan := span_of_dropWhile (w := quote :: w) hquote (cons_ne_nil _ _) rest'
      rw [cons_append, append_assoc, readArg, hspan.1, hspan.2]
      exact hlocal start' rest'
  | case3 cs hquote =>
    rw [readArg] at h
    · obtain ⟨w, rfl, hw, hlocal⟩ := pragmaToken_local h
      refine ⟨w, rfl, hw, fun start' rest' => ?_⟩
      rw [readArg]
      · exact hlocal start' rest'
      · exact fun _ hcs => (cons_of_append hw hcs rest).elim hquote
    · exact hquote

theorem readPragma_local (h : readPragma lx start cs = .ok (kind, rest)) :
    ∃ w, cs = w ++ rest ∧
      ∀ start' rest', readPragma lx start' (w ++ rest') = .ok (kind, rest') := by
  unfold readPragma at h
  by_cases hnil : cs.takeWhile isWord = []
  · rw [if_pos hnil] at h
    cases h
  rw [if_neg hnil] at h
  by_cases hif : cs.takeWhile isWord = ['I', 'F']
  · rw [if_pos hif] at h
    cases hclose : skipPragmaClose ((skipWhitespace (cs.dropWhile isWord)).dropWhile isWord) with
    | none =>
      simp only [hclose] at h
      cases h
    | some behind =>
      simp only [hclose] at h
      obtain ⟨w, hws, hw, hlocal⟩ := pragma_local hclose
      obtain ⟨w', hword, hw', hlocal'⟩ := whitespace_local hws hw
      obtain ⟨w'', rfl, hlocal''⟩ := directive_local hword hw'
      by_cases hfeature : String.ofList ((skipWhitespace
          ((w'' ++ behind).dropWhile isWord)).takeWhile isWord) ∈ lx.features
      · rw [if_pos hfeature] at h
        obtain ⟨rfl, rfl⟩ := Prod.mk.inj (Except.ok.inj h)
        refine ⟨w'', rfl, fun start' rest' => ?_⟩
        simp only [readPragma, (hlocal'' rest').1, (hlocal'' rest').2, hlocal' rest',
          (hlocal rest').1, (hlocal rest').2, if_neg hnil, if_pos hif, if_pos hfeature]
      · rw [if_neg hfeature] at h
        obtain ⟨rest₀, hskip, heq⟩ := map_eq_ok h
        obtain ⟨rfl, rfl⟩ := Prod.mk.inj heq
        obtain ⟨v, rfl, -, hv⟩ := skipDisabledBlock_local hskip
        refine ⟨w'' ++ v, (append_assoc ..).symm, fun start' rest' => ?_⟩
        rw [append_assoc]
        simp only [readPragma, (hlocal'' (v ++ rest')).1, (hlocal'' (v ++ rest')).2,
          hlocal' (v ++ rest'), (hlocal (v ++ rest')).1, (hlocal (v ++ rest')).2, if_neg hnil,
          if_pos hif, if_neg hfeature, hv]
        rfl
  rw [if_neg hif] at h
  by_cases helse : cs.takeWhile isWord = ['E', 'L', 'S', 'E']
  · rw [if_pos helse] at h
    cases hclose : skipPragmaClose (cs.dropWhile isWord) with
    | none =>
      simp only [hclose] at h
      cases h
    | some behind =>
      simp only [hclose] at h
      obtain ⟨w, rfl, -, hlocal⟩ := pragma_local hclose
      obtain ⟨rest₀, hskip, heq⟩ := map_eq_ok h
      obtain ⟨rfl, rfl⟩ := Prod.mk.inj heq
      obtain ⟨v, rfl, -, hv⟩ := skipDisabledBlock_local hskip
      refine ⟨w ++ v, (append_assoc ..).symm, fun start' rest' => ?_⟩
      rw [append_assoc]
      simp only [readPragma, (hlocal (v ++ rest')).1, (hlocal (v ++ rest')).2, if_neg hnil,
        if_neg hif, if_pos helse, hv]
      rfl
  rw [if_neg helse] at h
  by_cases hend : cs.takeWhile isWord = ['E', 'N', 'D']
  · rw [if_pos hend] at h
    cases hclose : skipPragmaClose (cs.dropWhile isWord) with
    | none =>
      simp only [hclose] at h
      cases h
    | some behind =>
      simp only [hclose] at h
      obtain ⟨w, rfl, -, hlocal⟩ := pragma_local hclose
      obtain ⟨rfl, rfl⟩ := Prod.mk.inj (Except.ok.inj h)
      refine ⟨w, rfl, fun start' rest' => ?_⟩
      simp only [readPragma, (hlocal rest').1, (hlocal rest').2, if_neg hnil, if_neg hif,
        if_neg helse, if_pos hend]
  rw [if_neg hend] at h
  obtain ⟨w, hws, hw, hlocal⟩ := readArg_local h
  obtain ⟨w', hword, hw', hlocal'⟩ := whitespace_local hws hw
  obtain ⟨w'', rfl, hlocal''⟩ := directive_local hword hw'
  refine ⟨w'', rfl, fun start' rest' => ?_⟩
  simp only [readPragma, (hlocal'' rest').1, (hlocal'' rest').2, hlocal' rest', if_neg hnil,
    if_neg hif, if_neg helse, if_neg hend]
  exact hlocal start' rest'

/-! ## Comments and strings -/

theorem skipComment_local (h : skipComment lx start cs = .ok (kind, rest)) :
    ∃ w, cs = w ++ rest ∧
      ∀ start' rest', skipComment lx start' (w ++ rest') = .ok (kind, rest') := by
  have hplain : ∀ {cs : List Char}, comment start (skipNested 1 cs) = .ok (kind, rest) →
      ∃ w, cs = w ++ rest ∧ w ≠ [] ∧
        ∀ start' rest', comment start' (skipNested 1 (w ++ rest')) = .ok (kind, rest') := by
    intro cs h
    cases hskip : skipNested 1 cs with
    | none =>
      rw [hskip] at h
      cases h
    | some behind =>
      rw [hskip] at h
      obtain ⟨rfl, rfl⟩ := Prod.mk.inj (Except.ok.inj h)
      have hlen := length_skipNested hskip
      obtain ⟨w, rfl, hw⟩ := skipNested_local hskip
      refine ⟨w, rfl, ?_, fun start' rest' => by rw [hw]; rfl⟩
      rintro rfl
      exact Nat.not_succ_le_self _ hlen
  have hdoc : ∀ {cs : List Char}, docComment start (readDoc 1 cs) = .ok (kind, rest) →
      ∃ w, cs = w ++ rest ∧ w ≠ [] ∧
        ∀ start' rest', docComment start' (readDoc 1 (w ++ rest')) = .ok (kind, rest') := by
    intro cs h
    cases hread : readDoc 1 cs with
    | none =>
      rw [hread] at h
      cases h
    | some doc =>
      obtain ⟨content, behind⟩ := doc
      rw [hread, docComment] at h
      have hlen : behind.length + 1 ≤ cs.length := by
        apply length_skipNested
        rw [← readDoc_rest, hread]
        rfl
      obtain ⟨w, rfl, hw⟩ := readDoc_local hread
      have hne : w ≠ [] := by
        rintro rfl
        exact Nat.not_succ_le_self _ hlen
      by_cases htrim : trim content = []
      · rw [if_pos htrim] at h
        obtain ⟨rfl, rfl⟩ := Prod.mk.inj (Except.ok.inj h)
        refine ⟨w, rfl, hne, fun start' rest' => ?_⟩
        rw [hw, docComment, if_pos htrim]
      · rw [if_neg htrim] at h
        obtain ⟨rfl, rfl⟩ := Prod.mk.inj (Except.ok.inj h)
        refine ⟨w, rfl, hne, fun start' rest' => ?_⟩
        rw [hw, docComment, if_neg htrim]
  fun_cases skipComment lx start cs with
  | case1 cs =>
    obtain ⟨w, rfl, hw⟩ := readPragma_local h
    exact ⟨'$' :: w, rfl, hw⟩
  | case2 cs =>
    rw [skipComment] at h
    obtain ⟨w, hcs, hne, hw⟩ := hplain h
    cases w with
    | nil => exact absurd rfl hne
    | cons c w =>
      obtain ⟨rfl, rfl⟩ := List.cons.inj hcs
      exact ⟨'*' :: '*' :: w, rfl, hw⟩
  | case3 cs hstar =>
    rw [skipComment] at h
    · obtain ⟨w, rfl, hne, hw⟩ := hdoc h
      refine ⟨'*' :: w, rfl, fun start' rest' => ?_⟩
      rw [cons_append, skipComment]
      · exact hw start' rest'
      · exact fun _ hcs => (cons_of_append hne hcs rest).elim hstar
    · exact hstar
  | case4 cs =>
    obtain ⟨w, rfl, -, hw⟩ := hdoc h
    exact ⟨'!' :: w, rfl, hw⟩
  | case5 cs hdollar hstars hstar hmark =>
    rw [skipComment] at h
    · obtain ⟨w, rfl, hne, hw⟩ := hplain h
      refine ⟨w, rfl, fun start' rest' => ?_⟩
      have hfirst : ∀ {c t}, w ++ rest' = c :: t → ∃ t', w ++ rest = c :: t' :=
        fun hcs => cons_of_append hne hcs rest
      rw [skipComment]
      · exact hw start' rest'
      · exact fun _ hcs => (hfirst hcs).elim hdollar
      · exact fun _ hcs => (hfirst hcs).elim fun _ => hstar _
      · exact fun _ hcs => (hfirst hcs).elim hstar
      · exact fun _ hcs => (hfirst hcs).elim hmark
    · exact hdollar
    · exact hstars
    · exact hstar
    · exact hmark

theorem readString_local {quote : Char} (h : readString start quote cs = .ok (kind, rest)) :
    ∃ w, cs = w ++ rest ∧
      ∀ start' rest', readString start' quote (w ++ rest') = .ok (kind, rest') := by
  rw [readString] at h
  cases hdrop : cs.dropWhile fun c => c != '\n' && c != quote with
  | nil =>
    rw [hdrop] at h
    cases h
  | cons c behind =>
    simp only [hdrop] at h
    by_cases hc : c = quote
    · rw [if_pos hc] at h
      obtain ⟨rfl, rfl⟩ := Prod.mk.inj (Except.ok.inj h)
      refine ⟨(cs.takeWhile fun c => c != '\n' && c != quote) ++ [c], ?_, fun start' rest' => ?_⟩
      · rw [append_assoc]
        exact eq_takeWhile_append hdrop
      · have hspan := span_of_dropWhile (w := [c]) hdrop (cons_ne_nil _ _) rest'
        rw [append_assoc, readString, hspan.1, hspan.2]
        exact if_pos hc
    · rw [if_neg hc] at h
      cases h

end Closing

/-! ## Numbers, words and symbols -/

/-- The text begins with an opening parenthesis or a blank. -/
def Separated (rest : List Char) : Prop := ∃ t, rest = '(' :: t ∨ rest = ' ' :: t

/-- Texts that do not differ for the token before them: the second one goes on like the first one
for two characters, or is separated where it does not. -/
def Alike (rest rest' : List Char) : Prop :=
  Separated rest' ∨ ∃ c t t', rest = c :: t ∧ rest' = c :: t' ∧
    (t'.head? = t.head? ∨ Separated t')

section Ends

variable {lx : Lexer} {start cs rest rest' w digits : List Char} {kind : Option TokenKind}

theorem Alike.head (h : Alike rest rest') : Separated rest' ∨ rest'.head? = rest.head? := by
  obtain h | ⟨c, t, t', rfl, rfl, -⟩ := h
  · exact .inl h
  · exact .inr rfl

theorem Alike.head_append (h : Alike rest rest') (w : List Char) :
    Separated (w ++ rest') ∨ (w ++ rest').head? = (w ++ rest).head? := by
  cases w with
  | nil => exact h.head
  | cons c w => exact .inr rfl

/-- Behind a token the second text does not begin with what the first one does not begin with. -/
theorem Alike.stop {p : Char → Bool} (h : Alike rest rest') (w : List Char) (hp : p '(' = false)
    (hblank : p ' ' = false) (hstop : ∀ c ∈ (w ++ rest).head?, p c = false) :
    ∀ c ∈ (w ++ rest').head?, p c = false := by
  intro c hc
  obtain ⟨t, hopen | hopen⟩ | hsame := h.head_append w
  · rw [hopen] at hc
    obtain rfl := Option.some.inj hc
    exact hp
  · rw [hopen] at hc
    obtain rfl := Option.some.inj hc
    exact hblank
  · rw [hsame] at hc
    exact hstop c hc

theorem octalLit_local (h : octalLit start digits cs = .ok (kind, rest)) :
    cs = rest ∧ ∀ start' rest', octalLit start' digits rest' = .ok (kind, rest') := by
  rw [octalLit] at h
  cases hradix : fromStrRadix 8 (2 ^ 63) digits with
  | none =>
    rw [hradix] at h
    cases h
  | some n =>
    rw [hradix] at h
    obtain ⟨rfl, rfl⟩ := Prod.mk.inj (Except.ok.inj h)
    exact ⟨rfl, fun start' rest' => by rw [octalLit, hradix]⟩

theorem octalCharLit_local (h : octalCharLit start digits cs = .ok (kind, rest)) :
    cs = rest ∧ ∀ start' rest', octalCharLit start' digits rest' = .ok (kind, rest') := by
  rw [octalCharLit] at h
  cases hradix : fromStrRadix 8 (2 ^ 32) digits with
  | none =>
    rw [hradix] at h
    cases h
  | some n =>
    simp only [hradix] at h
    cases hchar : fromU32 n with
    | none =>
      rw [hchar] at h
      cases h
    | some c =>
      rw [hchar] at h
      obtain ⟨rfl, rfl⟩ := Prod.mk.inj (Except.ok.inj h)
      refine ⟨rfl, fun start' rest' => ?_⟩
      simp only [octalCharLit, hradix, hchar]

theorem hexLit_local (h : hexLit start digits cs = .ok (kind, rest)) :
    cs = rest ∧ ∀ start' rest', hexLit start' digits rest' = .ok (kind, rest') := by
  rw [hexLit] at h
  cases hradix : fromStrRadix 16 (2 ^ 63) digits with
  | none =>
    rw [hradix] at h
    cases h
  | some n =>
    rw [hradix] at h
    obtain ⟨rfl, rfl⟩ := Prod.mk.inj (Except.ok.inj h)
    exact ⟨rfl, fun start' rest' => by rw [hexLit, hradix]⟩

theorem decimalLit_local (h : decimalLit start digits cs = .ok (kind, rest)) :
    cs = rest ∧ ∀ start' rest', decimalLit start' digits rest' = .ok (kind, rest') := by
  rw [decimalLit] at h
  by_cases hdigits : digits.all Char.isDigit
  · rw [if_pos hdigits] at h
    cases hradix : fromStrRadix 10 (2 ^ 63) digits with
    | none =>
      rw [hradix] at h
      cases h
    | some n =>
      rw [hradix] at h
      obtain ⟨rfl, rfl⟩ := Prod.mk.inj (Except.ok.inj h)
      exact ⟨rfl, fun start' rest' => by rw [decimalLit, if_pos hdigits, hradix]⟩
  · rw [if_neg hdigits] at h
    cases h

/-- Digits that end where they do in front of a text end there in front of one like it. -/
theorem digits_local {ds : List Char} (halike : Alike (ds.dropWhile Char.isDigit) rest') :
    (ds.takeWhile Char.isDigit ++ rest').takeWhile Char.isDigit = ds.takeWhile Char.isDigit ∧
      (ds.takeWhile Char.isDigit ++ rest').dropWhile Char.isDigit = rest' := by
  exact span_of_stop ds (halike.stop [] rfl rfl (head_dropWhile _ ds))

theorem readSign_local (cs : List Char) :
    cs = (readSign cs).1 ++ (readSign cs).2 ∧ '(' ∉ (readSign cs).1 ∧
      ∀ w rest rest', (readSign cs).2 = w ++ rest → Alike rest rest' →
        readSign ((readSign cs).1 ++ (w ++ rest')) =
        ((readSign cs).1, w ++ rest') := by
  have hnone : ∀ {cs : List Char}, (∀ c ∈ cs.head?, decide (c = '+' ∨ c = '-') = false) →
      readSign cs = ([], cs) := by
    intro cs hcs
    cases cs with
    | nil => rfl
    | cons c cs => rw [readSign, if_neg (of_decide_eq_false (hcs c rfl))]
  by_cases hsign : ∀ c ∈ cs.head?, decide (c = '+' ∨ c = '-') = false
  · rw [hnone hsign]
    refine ⟨rfl, not_mem_nil, fun w rest rest' hrest halike => ?_⟩
    subst hrest
    exact hnone (halike.stop w (by decide) (by decide) hsign)
  · cases cs with
    | nil => exact absurd (fun c hc => by cases hc) hsign
    | cons c cs =>
      have hc : c = '+' ∨ c = '-' := by
        by_contra hc
        apply hsign
        intro d hd
        obtain rfl := Option.some.inj hd
        exact decide_eq_false hc
      rw [readSign, if_pos hc]
      refine ⟨rfl, ?_, fun w rest rest' _ _ => ?_⟩
      · rw [mem_singleton]
        rintro rfl
        exact absurd hc (by decide)
      rw [singleton_append, readSign, if_pos hc]

theorem readExponent_local (cs : List Char) :
    ∃ w, cs = w ++ (readExponent cs).2 ∧ '(' ∉ w ∧ ∀ rest', Alike (readExponent cs).2 rest' →
      readExponent (w ++ rest') = ((readExponent cs).1, rest') := by
  have hnone : ∀ {cs : List Char},
      (∀ c ∈ cs.head?, decide (c = 'E' ∨ c = 'e' ∨ c = 'D' ∨ c = 'd') = false) →
      readExponent cs = ([], cs) := by
    intro cs hcs
    cases cs with
    | nil => rfl
    | cons c cs => rw [readExponent, if_neg (of_decide_eq_false (hcs c rfl))]
  by_cases hletter : ∀ c ∈ cs.head?, decide (c = 'E' ∨ c = 'e' ∨ c = 'D' ∨ c = 'd') = false
  · rw [hnone hletter]
    exact ⟨[], rfl, not_mem_nil, fun rest' halike =>
      hnone (halike.stop [] (by decide) (by decide) hletter)⟩
  · cases cs with
    | nil => exact absurd (fun c hc => by cases hc) hletter
    | cons c cs =>
      have hc : c = 'E' ∨ c = 'e' ∨ c = 'D' ∨ c = 'd' := by
        by_contra hc
        apply hletter
        intro d hd
        obtain rfl := Option.some.inj hd
        exact decide_eq_false hc
      rw [readExponent, if_pos hc]
      obtain ⟨hcs, hparen, hsign⟩ := readSign_local cs
      refine ⟨c :: ((readSign cs).1 ++ (readSign cs).2.takeWhile Char.isDigit), ?_, ?_,
        fun rest' halike => ?_⟩
      · rw [cons_append, append_assoc, takeWhile_append_dropWhile, ← hcs]
      · rw [mem_cons, mem_append, not_or, not_or]
        refine ⟨?_, hparen, not_mem_takeWhile rfl⟩
        rintro rfl
        exact absurd hc (by decide)
      · have htail := hsign _ _ rest' (takeWhile_append_dropWhile).symm halike
        obtain ⟨htake, hdrop⟩ := digits_local halike
        rw [cons_append, append_assoc, readExponent, if_pos hc, htail, htake, hdrop]

theorem realLit_local {next : Char} (hnext : next.isDigit = true)
    (h : realLit lx start digits (next :: cs) = .ok (kind, rest)) :
    ∃ w, cs = w ++ rest ∧ '(' ∉ w ∧ ∀ start' rest', Alike rest rest' →
      realLit lx start' digits (next :: (w ++ rest')) = .ok (kind, rest') := by
  rw [realLit] at h
  simp only [takeWhile_cons_of_pos hnext, dropWhile_cons_of_pos hnext] at h
  obtain ⟨w, hw, hparen, hlocal⟩ := readExponent_local (cs.dropWhile Char.isDigit)
  cases hreal : lx.parseReal (String.ofList (digits ++ '.' :: next :: cs.takeWhile Char.isDigit ++
      (readExponent (cs.dropWhile Char.isDigit)).1)) with
  | none =>
    simp only [hreal] at h
    cases h
  | some bits =>
    simp only [hreal] at h
    obtain ⟨rfl, hrest⟩ := Prod.mk.inj (Except.ok.inj h)
    rw [hrest] at hw hlocal
    refine ⟨cs.takeWhile Char.isDigit ++ w, ?_, ?_, fun start' rest' halike => ?_⟩
    · rw [append_assoc]
      exact eq_takeWhile_append hw
    · rw [mem_append, not_or]
      exact ⟨not_mem_takeWhile rfl, hparen⟩
    · have hstop := halike.stop (p := Char.isDigit) w rfl rfl (by
        rw [← hw]
        exact head_dropWhile _ _)
      obtain ⟨htake, hdrop⟩ := span_of_stop cs hstop
      rw [append_assoc, realLit]
      simp only [takeWhile_cons_of_pos hnext, dropWhile_cons_of_pos hnext, htake, hdrop,
        hlocal rest' halike, hreal]

/-- The text is a point with a digit behind it. -/
def beginsFraction : List Char → Bool
  | '.' :: next :: _ => next.isDigit
  | _ => false

theorem unsuffixed_of_fraction {next : Char} (h : next.isDigit = true) :
    unsuffixed lx start digits ('.' :: next :: cs) = realLit lx start digits (next :: cs) := by
  rw [unsuffixed, if_pos h]

theorem unsuffixed_of_not_fraction (h : beginsFraction cs = false) :
    unsuffixed lx start digits cs = decimalLit start digits cs := by
  fun_cases unsuffixed lx start digits cs with
  | case1 next cs hdigit =>
    rw [beginsFraction, hdigit] at h
    cases h
  | case2 => rfl
  | case3 => rfl

theorem beginsFraction_of_head {c : Char} (h : cs.head? = some c) (hc : c.isDigit = false)
    (d : Char) : beginsFraction (d :: cs) = false := by
  cases cs with
  | nil => cases h
  | cons e cs =>
    obtain rfl := Option.some.inj h
    rw [beginsFraction.eq_def]
    split
    · next heq =>
      obtain ⟨-, heq⟩ := List.cons.inj heq
      obtain ⟨rfl, -⟩ := List.cons.inj heq
      exact hc
    · rfl

theorem Separated.not_fraction (h : Separated rest) (c : Char) :
    beginsFraction rest = false ∧ beginsFraction (c :: rest) = false := by
  obtain ⟨t, rfl | rfl⟩ := h
  · exact ⟨rfl, beginsFraction_of_head rfl rfl c⟩
  · exact ⟨rfl, beginsFraction_of_head rfl rfl c⟩

theorem Alike.beginsFraction_eq (h : Alike rest rest') (hrest : beginsFraction rest = false) :
    beginsFraction rest' = false := by
  obtain h | ⟨c, t, t', rfl, rfl, hsame | hopen⟩ := h
  · exact (h.not_fraction ' ').1
  · cases t with
    | nil =>
      rw [head?_nil, head?_eq_none_iff] at hsame
      rw [hsame]
      exact hrest
    | cons d t =>
      by_cases hc : c = '.'
      · subst hc
        exact beginsFraction_of_head hsame hrest _
      · rw [beginsFraction]
        intro next t'' heq
        exact absurd (List.cons.inj heq).1 hc
  · exact (hopen.not_fraction c).2

theorem unsuffixed_local (h : unsuffixed lx start digits cs = .ok (kind, rest)) :
    ∃ w, cs = w ++ rest ∧ '(' ∉ w ∧ ∀ start' rest', Alike rest rest' →
      unsuffixed lx start' digits (w ++ rest') = .ok (kind, rest') := by
  cases hfraction : beginsFraction cs with
  | true =>
    rw [beginsFraction.eq_def] at hfraction
    split at hfraction
    · next next cs =>
      rw [unsuffixed_of_fraction hfraction] at h
      obtain ⟨w, rfl, hparen, hlocal⟩ := realLit_local hfraction h
      refine ⟨'.' :: next :: w, rfl, ?_, fun start' rest' halike => ?_⟩
      · rw [mem_cons, mem_cons, not_or, not_or]
        refine ⟨by decide, ?_, hparen⟩
        rintro rfl
        cases hfraction
      rw [cons_append, cons_append, unsuffixed_of_fraction hfraction]
      exact hlocal start' rest' halike
    · cases hfraction
  | false =>
    rw [unsuffixed_of_not_fraction hfraction] at h
    obtain ⟨rfl, hlocal⟩ := decimalLit_local h
    refine ⟨[], rfl, not_mem_nil, fun start' rest' halike => ?_⟩
    rw [nil_append, unsuffixed_of_not_fraction (halike.beginsFraction_eq hfraction)]
    exact hlocal start' rest'

/-- Behind hexadecimal digits there is no `B` or `C`. -/
theorem singleDigit_of_stop (h : ∀ c ∈ cs.head?, isHexDigit c = false) :
    singleDigit lx start digits cs = unsuffixed lx start digits cs := by
  cases cs with
  | nil => rfl
  | cons c cs =>
    have hc := h c rfl
    have hb : ¬(c = 'B' ∨ c = 'b') := by
      rintro (rfl | rfl) <;> exact absurd hc (by decide)
    have hc' : ¬(c = 'C' ∨ c = 'c') := by
      rintro (rfl | rfl) <;> exact absurd hc (by decide)
    rw [singleDigit, if_neg hb, if_neg hc', ite_self]

theorem lastDigit_local (hstop : ∀ c ∈ cs.head?, isHexDigit c = false)
    (h : lastDigit lx start digits cs = .ok (kind, rest)) :
    ∃ w, cs = w ++ rest ∧ '(' ∉ w ∧ ∀ start' rest', Alike rest rest' →
      lastDigit lx start' digits (w ++ rest') = .ok (kind, rest') := by
  rw [lastDigit] at h
  by_cases hoctal : digits.length > 1 ∧ digits.dropLast.all isOctal = true
  · rw [if_pos hoctal] at h
    by_cases hb : digits.getLast? = some 'B' ∨ digits.getLast? = some 'b'
    · rw [if_pos hb] at h
      obtain ⟨rfl, hlocal⟩ := octalLit_local h
      refine ⟨[], rfl, not_mem_nil, fun start' rest' _ => ?_⟩
      rw [nil_append, lastDigit, if_pos hoctal, if_pos hb]
      exact hlocal start' rest'
    rw [if_neg hb] at h
    by_cases hc : digits.getLast? = some 'C' ∨ digits.getLast? = some 'c'
    · rw [if_pos hc] at h
      obtain ⟨rfl, hlocal⟩ := octalCharLit_local h
      refine ⟨[], rfl, not_mem_nil, fun start' rest' _ => ?_⟩
      rw [nil_append, lastDigit, if_pos hoctal, if_neg hb, if_pos hc]
      exact hlocal start' rest'
    rw [if_neg hc, singleDigit_of_stop hstop] at h
    obtain ⟨w, rfl, hparen, hlocal⟩ := unsuffixed_local h
    refine ⟨w, rfl, hparen, fun start' rest' halike => ?_⟩
    rw [lastDigit, if_pos hoctal, if_neg hb, if_neg hc,
      singleDigit_of_stop (halike.stop w rfl rfl hstop)]
    exact hlocal start' rest' halike
  · rw [if_neg hoctal, singleDigit_of_stop hstop] at h
    obtain ⟨w, rfl, hparen, hlocal⟩ := unsuffixed_local h
    refine ⟨w, rfl, hparen, fun start' rest' halike => ?_⟩
    rw [lastDigit, if_neg hoctal, singleDigit_of_stop (halike.stop w rfl rfl hstop)]
    exact hlocal start' rest' halike

/-- A number whose digits are not followed by an `H`. -/
theorem readNumber_of_stop
    (h : ∀ c ∈ (cs.dropWhile isHexDigit).head?, decide (c = 'H' ∨ c = 'h') = false) :
    readNumber lx cs = lastDigit lx cs (cs.takeWhile isHexDigit) (cs.dropWhile isHexDigit) := by
  rw [readNumber]
  split
  · next c rest hdrop =>
    rw [hdrop] at h ⊢
    exact if_neg (of_decide_eq_false (h c rfl))
  · next hdrop => rw [hdrop]

theorem readNumber_of_hex {c : Char} (h : cs.dropWhile isHexDigit = c :: rest)
    (hc : c = 'H' ∨ c = 'h') :
    readNumber lx cs = hexLit cs (cs.takeWhile isHexDigit) rest := by
  rw [readNumber, h]
  exact if_pos hc

theorem readNumber_local (h : readNumber lx cs = .ok (kind, rest)) :
    ∃ w, cs = cs.takeWhile isHexDigit ++ w ++ rest ∧ '(' ∉ w ∧ ∀ rest', Alike rest rest' →
      readNumber lx (cs.takeWhile isHexDigit ++ w ++ rest') = .ok (kind, rest') := by
  by_cases hsuffix : ∀ c ∈ (cs.dropWhile isHexDigit).head?, decide (c = 'H' ∨ c = 'h') = false
  · rw [readNumber_of_stop hsuffix] at h
    obtain ⟨w, hw, hparen, hlocal⟩ := lastDigit_local (head_dropWhile _ _) h
    refine ⟨w, ?_, hparen, fun rest' halike => ?_⟩
    · rw [append_assoc]
      exact eq_takeWhile_append hw
    · have hstop : ∀ c ∈ (w ++ rest').head?, isHexDigit c = false :=
        halike.stop w rfl rfl (by rw [← hw]; exact head_dropWhile _ _)
      obtain ⟨htake, hdrop⟩ := span_of_stop cs hstop
      rw [append_assoc, readNumber_of_stop, htake, hdrop]
      · exact hlocal _ rest' halike
      · rw [hdrop]
        exact halike.stop w rfl rfl (by rw [← hw]; exact hsuffix)
  · cases hdrop : cs.dropWhile isHexDigit with
    | nil =>
      rw [hdrop] at hsuffix
      exact absurd (fun c hc => by cases hc) hsuffix
    | cons c behind =>
      have hc : c = 'H' ∨ c = 'h' := by
        by_contra hc
        apply hsuffix
        rw [hdrop]
        intro d hd
        obtain rfl := Option.some.inj hd
        exact decide_eq_false hc
      rw [readNumber_of_hex hdrop hc] at h
      obtain ⟨rfl, hlocal⟩ := hexLit_local h
      refine ⟨[c], ?_, ?_, fun rest' _ => ?_⟩
      · rw [append_assoc]
        exact eq_takeWhile_append hdrop
      · rw [mem_singleton]
        rintro rfl
        exact absurd hc (by decide)
      · obtain ⟨htake, hdrop'⟩ :=
          span_of_dropWhile (w := [c]) hdrop (cons_ne_nil _ _) rest'
        rw [append_assoc, readNumber_of_hex hdrop' hc, htake]
        exact hlocal _ rest'

theorem readIdentOrKeyword_local (h : readIdentOrKeyword lx cs = .ok (kind, rest)) :
    cs = cs.takeWhile isWord ++ rest ∧ ∀ rest', Alike rest rest' →
      readIdentOrKeyword lx (cs.takeWhile isWord ++ rest') = .ok (kind, rest') := by
  rw [readIdentOrKeyword] at h
  obtain ⟨hkind, hrest⟩ := Prod.mk.inj (Except.ok.inj h)
  refine ⟨eq_takeWhile_append hrest, fun rest' halike => ?_⟩
  have hstop : ∀ c ∈ rest'.head?, isWord c = false :=
    halike.stop [] rfl rfl (by rw [nil_append, ← hrest]; exact head_dropWhile _ _)
  obtain ⟨htake, hdrop⟩ := span_of_stop cs hstop
  rw [readIdentOrKeyword, htake, hdrop, ← hkind]

/-- Behind a symbol of one character there is none that makes it longer. -/
theorem Alike.ne_cons {c : Char} (h : Alike rest rest') (hc : c ≠ '(' ∧ c ≠ ' ')
    (hne : ∀ t, rest ≠ c :: t) : ∀ t, rest' ≠ c :: t := by
  rintro t rfl
  obtain ⟨s, h | h⟩ | ⟨d, s, t', rfl, heq, -⟩ := h
  · exact hc.1 (List.cons.inj h).1
  · exact hc.2 (List.cons.inj h).1
  · obtain ⟨rfl, -⟩ := List.cons.inj heq
    exact hne s rfl

theorem readSymbol_of_lookup {c : Char} {k : TokenKind} (h : punctuation.lookup c = some k)
    (rest : List Char) : readSymbol (c :: rest) = .ok (some k, rest) := by
  have hne : c ≠ ':' ∧ c ≠ '.' ∧ c ≠ '<' ∧ c ≠ '>' := by
    refine ⟨?_, ?_, ?_, ?_⟩ <;> rintro rfl <;> cases h
  rw [readSymbol]
  · rw [h]
  all_goals simp [hne]

theorem readSymbol_local (hne : cs ≠ []) (h : readSymbol cs = .ok (kind, rest)) :
    ∃ w, w ≠ [] ∧ cs = w ++ rest ∧ '(' ∉ w ∧ ∀ rest', Alike rest rest' →
      readSymbol (w ++ rest') = .ok (kind, rest') := by
  fun_cases readSymbol cs with
  | case1 t | case3 t | case5 t | case6 t | case8 t =>
    obtain ⟨rfl, rfl⟩ := Prod.mk.inj (Except.ok.inj h)
    exact ⟨[_, _], cons_ne_nil _ _, rfl, by decide, fun _ _ => rfl⟩
  | case2 t hlong | case4 t hlong | case9 t hlong =>
    rw [readSymbol] at h
    · obtain ⟨rfl, rfl⟩ := Prod.mk.inj (Except.ok.inj h)
      refine ⟨[_], cons_ne_nil _ _, rfl, by decide, fun rest' halike => ?_⟩
      rw [singleton_append, readSymbol]
      exact halike.ne_cons (by decide) hlong
    · exact hlong
  | case7 t hle hnotEq =>
    rw [readSymbol] at h
    · obtain ⟨rfl, rfl⟩ := Prod.mk.inj (Except.ok.inj h)
      refine ⟨['<'], cons_ne_nil _ _, rfl, by decide, fun rest' halike => ?_⟩
      rw [singleton_append, readSymbol]
      · exact halike.ne_cons (by decide) hle
      · exact halike.ne_cons (by decide) hnotEq
    · exact hle
    · exact hnotEq
  | case10 c t _ _ _ _ _ _ _ _ _ k hlookup =>
    rw [readSymbol_of_lookup hlookup] at h
    obtain ⟨rfl, rfl⟩ := Prod.mk.inj (Except.ok.inj h)
    refine ⟨[c], cons_ne_nil _ _, rfl, ?_, fun rest' _ => readSymbol_of_lookup hlookup rest'⟩
    rw [mem_singleton]
    rintro rfl
    cases hlookup
  | case11 c t h1 h2 h3 h4 h5 h6 h7 h8 h9 hlookup =>
    rw [readSymbol] at h
    · rw [hlookup] at h
      cases h
    all_goals assumption
  | case12 => exact absurd rfl hne

/-! ## Rounds -/

theorem round_of_ne {c : Char} (h : c ≠ '(') (cs : List Char) :
    round lx (c :: cs) =
      if c = '"' ∨ c = '\'' then readString (c :: cs) c cs
      else if c.isDigit then readNumber lx (c :: cs)
      else if c.isAlpha then readIdentOrKeyword lx (c :: cs)
      else readSymbol (c :: cs) := by
  rw [round]
  · exact fun _ hc => absurd hc h
  · exact h

theorem isHexDigit_of_isDigit {c : Char} (h : c.isDigit = true) : isHexDigit c = true := by
  rw [isHexDigit, h]
  rfl

theorem isWord_of_isAlpha {c : Char} (h : c.isAlpha = true) : isWord c = true := by
  rw [isWord, Char.isAlphanum, h]
  rfl

/-- What a round reads is read in front of every text that goes on like the one behind it. -/
theorem round_local (h : round lx cs = .ok (kind, rest)) (hne : cs ≠ []) :
    ∃ w, w ≠ [] ∧ cs = w ++ rest ∧ (∀ c ∈ w.head?, c ≠ '(' ∧ c ≠ '"' ∧ c ≠ '\'' → '(' ∉ w) ∧
      ∀ rest', Alike rest rest' → round lx (w ++ rest') = .ok (kind, rest') := by
  have hhead : ∀ {d : Char} {w : List Char}, d = '(' ∨ d = '"' ∨ d = '\'' →
      ∀ c ∈ (d :: w).head?, c ≠ '(' ∧ c ≠ '"' ∧ c ≠ '\'' → '(' ∉ d :: w := by
    intro d w hd c hc hne
    obtain rfl := Option.some.inj hc
    obtain rfl | rfl | rfl := hd
    · exact absurd rfl hne.1
    · exact absurd rfl hne.2.1
    · exact absurd rfl hne.2.2
  fun_cases round lx cs with
  | case1 => exact absurd rfl hne
  | case2 t =>
    obtain ⟨w, rfl, hw⟩ := skipComment_local h
    exact ⟨'(' :: '*' :: w, cons_ne_nil _ _, rfl, hhead (.inl rfl), fun rest' _ => hw _ rest'⟩
  | case3 t hstar =>
    rw [round] at h
    · obtain ⟨rfl, rfl⟩ := Prod.mk.inj (Except.ok.inj h)
      refine ⟨['('], cons_ne_nil _ _, rfl, hhead (.inl rfl), fun rest' halike => ?_⟩
      rw [singleton_append, round]
      exact halike.ne_cons (by decide) hstar
    · exact hstar
  | case4 c t _ hopen hquote =>
    rw [round_of_ne hopen, if_pos hquote] at h
    obtain ⟨w, rfl, hw⟩ := readString_local h
    refine ⟨c :: w, cons_ne_nil _ _, rfl, hhead (.inr hquote), fun rest' _ => ?_⟩
    rw [cons_append, round_of_ne hopen, if_pos hquote]
    exact hw _ rest'
  | case5 c t _ hopen hquote hdigit =>
    rw [round_of_ne hopen, if_neg hquote, if_pos hdigit] at h
    obtain ⟨w, hcs, hparen, hw⟩ := readNumber_local h
    have hdigits : '(' ∉ (c :: t).takeWhile isHexDigit ++ w := by
      rw [mem_append, not_or]
      exact ⟨not_mem_takeWhile rfl, hparen⟩
    rw [takeWhile_cons_of_pos (isHexDigit_of_isDigit hdigit)] at hcs hw hdigits
    refine ⟨_, by simp, hcs, fun _ _ _ => hdigits, fun rest' halike => ?_⟩
    rw [← hw rest' halike, cons_append, cons_append, round_of_ne hopen, if_neg hquote,
      if_pos hdigit]
  | case6 c t _ hopen hquote hdigit halpha =>
    rw [round_of_ne hopen, if_neg hquote, if_neg hdigit, if_pos halpha] at h
    obtain ⟨hcs, hw⟩ := readIdentOrKeyword_local h
    have hword : '(' ∉ (c :: t).takeWhile isWord := not_mem_takeWhile rfl
    rw [takeWhile_cons_of_pos (isWord_of_isAlpha halpha)] at hcs hw hword
    refine ⟨_, by simp, hcs, fun _ _ _ => hword, fun rest' halike => ?_⟩
    rw [← hw rest' halike, cons_append, round_of_ne hopen, if_neg hquote, if_neg hdigit,
      if_pos halpha]
  | case7 c t _ hopen hquote hdigit halpha =>
    rw [round_of_ne hopen, if_neg hquote, if_neg hdigit, if_neg halpha] at h
    obtain ⟨w, hw, hcs, hparen, hlocal⟩ := readSymbol_local (cons_ne_nil _ _) h
    refine ⟨w, hw, hcs, fun _ _ _ => hparen, fun rest' halike => ?_⟩
    cases w with
    | nil => exact absurd rfl hw
    | cons d w =>
      obtain ⟨rfl, -⟩ := List.cons.inj hcs
      rw [← hlocal rest' halike, cons_append, round_of_ne hopen, if_neg hquote, if_neg hdigit,
        if_neg halpha]

end Ends

end Mx.Lexer
