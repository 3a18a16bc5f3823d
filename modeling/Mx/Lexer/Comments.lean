import Mx.Lexer.Tokenize

/-!
# Comments

A comment is read from left to right: an opening behind which other comments may open, until as
many are closed as have been opened. Put at a token boundary, a comment leaves the tokens as they
are, but for the empty one: its star is taken for the mark of a doc comment, and the parenthesis
that should close it for the first character of its content.
-/

namespace Mx.Lexer

open List

/-- So many open comments are closed by a text, the last one at its end. -/
inductive Closes : Nat → List Char → Prop where
  | last : Closes 1 ['*', ')']
  | opening {d : Nat} {cs : List Char} (h : Closes (d + 2) cs) : Closes (d + 1) ('(' :: '*' :: cs)
  | closing {d : Nat} {cs : List Char} (h : Closes (d + 1) cs) : Closes (d + 2) ('*' :: ')' :: cs)
  | char {d : Nat} {c : Char} {cs : List Char} (hopen : c = '(' → ∀ t, cs ≠ '*' :: t)
      (hclose : c = '*' → ∀ t, cs ≠ ')' :: t) (h : Closes (d + 1) cs) : Closes (d + 1) (c :: cs)

/-- A properly nested comment that is not a pragma, behind its opening characters. -/
structure CommentBody (body : List Char) : Prop where
  closes : Closes 1 body
  mark : ∀ t, body ≠ '$' :: t

/-- A comment with its opening characters. -/
def commentText (body : List Char) : List Char := '(' :: '*' :: body

section Grammar

variable {d : Nat} {c : Char} {cs rest body : List Char}

theorem Closes.ne_nil (h : Closes d cs) : cs ≠ [] := by
  cases h <;> exact cons_ne_nil _ _

/-- Nothing is changed by what stands behind the comment. -/
theorem Closes.ne_append {e : Char} (h : Closes d cs) (hne : ∀ t, cs ≠ e :: t) (rest : List Char) :
    ∀ t, cs ++ rest ≠ e :: t := by
  intro t ht
  cases cs with
  | nil => exact h.ne_nil rfl
  | cons f cs => exact hne cs (by rw [(List.cons.inj ht).1])

theorem skipNested_char (hopen : c = '(' → ∀ t, cs ≠ '*' :: t)
    (hclose : c = '*' → ∀ t, cs ≠ ')' :: t) :
    skipNested (d + 1) (c :: cs) = skipNested (d + 1) cs := by
  rw [skipNested]
  · exact fun t hc => hopen hc t
  · exact fun t hc => hclose hc t

/-- The loop over a comment consumes exactly the comment. -/
theorem skipNested_complete (h : Closes d cs) (rest : List Char) :
    skipNested d (cs ++ rest) = some rest := by
  induction h with
  | last => exact skipNested_zero rest
  | opening _ ih => exact ih
  | closing _ ih => exact ih
  | char hopen hclose h ih =>
    rw [cons_append, skipNested_char]
    · exact ih
    · exact fun hc => h.ne_append (hopen hc) rest
    · exact fun hc => h.ne_append (hclose hc) rest

theorem skipNested_sound (h : skipNested (d + 1) cs = some rest) :
    ∃ w, cs = w ++ rest ∧ Closes (d + 1) w := by
  generalize hn : d + 1 = n at h
  fun_induction skipNested n cs generalizing d with
  | case1 => cases hn
  | case2 => cases h
  | case3 n cs ih =>
    obtain rfl := Nat.succ.inj hn
    obtain ⟨w, rfl, hw⟩ := ih rfl h
    exact ⟨'(' :: '*' :: w, rfl, .opening hw⟩
  | case4 n cs ih =>
    obtain rfl := Nat.succ.inj hn
    cases d with
    | zero =>
      rw [skipNested_zero] at h
      obtain rfl := Option.some.inj h
      exact ⟨['*', ')'], rfl, .last⟩
    | succ d =>
      obtain ⟨w, rfl, hw⟩ := ih rfl h
      exact ⟨'*' :: ')' :: w, rfl, .closing hw⟩
  | case5 n c cs hopen hclose ih =>
    obtain rfl := Nat.succ.inj hn
    obtain ⟨w, rfl, hw⟩ := ih rfl h
    refine ⟨c :: w, rfl, .char ?_ ?_ hw⟩
    · rintro hc t rfl
      exact hopen _ hc rfl
    · rintro hc t rfl
      exact hclose _ hc rfl

/-- The loop fails just when nothing at the front of the text closes the comment. -/
theorem skipNested_eq_none (h : ∀ w rest, cs = w ++ rest → ¬Closes 1 w) :
    skipNested 1 cs = none := by
  by_contra hne
  obtain ⟨rest, hsome⟩ := Option.ne_none_iff_exists'.mp hne
  obtain ⟨w, rfl, hw⟩ := skipNested_sound hsome
  exact h w rest rfl hw

/-- A character that neither opens nor closes a comment can be left out. -/
theorem Closes.tail (h : Closes 1 (c :: cs)) (hopen : c = '(' → ∀ t, cs ≠ '*' :: t)
    (hclose : c = '*' → ∀ t, cs ≠ ')' :: t) : Closes 1 cs := by
  cases h with
  | last => exact absurd rfl (hclose rfl [])
  | opening => exact absurd rfl (hopen rfl _)
  | char _ _ h => exact h

theorem Closes.eq_last (h : Closes 1 ('*' :: ')' :: cs)) : cs = [] := by
  cases h with
  | last => rfl
  | char _ hclose _ => exact absurd rfl (hclose rfl _)

end Grammar

/-! ## What a round makes of a comment -/

/-- `DocComment`. -/
def isDoc : TokenKind → Bool
  | .docComment _ => true
  | _ => false

/-- A doc comment or no token at all. -/
def IsSilent (kind : Option TokenKind) : Prop := ∀ k ∈ kind, isDoc k = true

section Rounds

variable {lx : Lexer} {body post start : List Char}

theorem comment_of_closes (h : Closes 1 body) :
    comment start (skipNested 1 (body ++ post)) = .ok (none, post) := by
  rw [skipNested_complete h]
  rfl

theorem docComment_of_closes (h : Closes 1 body) :
    ∃ kind, IsSilent kind ∧ docComment start (readDoc 1 (body ++ post)) = .ok (kind, post) := by
  have hskip := skipNested_complete h post
  rw [← readDoc_rest] at hskip
  obtain ⟨⟨content, rest⟩, hread, rfl⟩ := Option.map_eq_some_iff.mp hskip
  rw [hread, docComment]
  by_cases htrim : trim content = []
  · exact ⟨none, by rintro _ ⟨⟩, if_pos htrim⟩
  · refine ⟨_, ?_, if_neg htrim⟩
    rintro k hk
    obtain rfl := Option.some.inj hk
    rfl

/-- A comment that is not empty is consumed, and nothing else is. -/
theorem round_comment (h : CommentBody body) (hne : body ≠ ['*', ')']) :
    ∃ kind, IsSilent kind ∧ round lx (commentText body ++ post) = .ok (kind, post) := by
  have hround : ∀ post, round lx (commentText body ++ post) =
      skipComment lx (commentText body ++ post) (body ++ post) := fun _ => rfl
  rw [hround]
  generalize commentText body ++ post = start
  obtain ⟨hcloses, hmark⟩ := h
  cases body with
  | nil => exact absurd rfl hcloses.ne_nil
  | cons c body =>
    by_cases hstar : c = '*'
    · subst hstar
      have hbody : ∀ t, body ≠ ')' :: t := by
        rintro t rfl
        exact hne (by rw [hcloses.eq_last])
      have htail := hcloses.tail (fun hc => absurd hc (by decide)) fun _ => hbody
      cases body with
      | nil => exact absurd rfl htail.ne_nil
      | cons d body =>
        by_cases hstars : d = '*'
        · subst hstars
          exact ⟨none, nofun, comment_of_closes htail⟩
        · obtain ⟨kind, hkind, hdoc⟩ : ∃ kind, IsSilent kind ∧
              docComment start (readDoc 1 (d :: body ++ post)) = .ok (kind, post) :=
            docComment_of_closes htail
          refine ⟨kind, hkind, ?_⟩
          rw [cons_append, skipComment]
          · exact hdoc
          · intro t ht
            exact hstars (List.cons.inj ht).1
    · by_cases hbang : c = '!'
      · subst hbang
        exact docComment_of_closes (hcloses.tail (fun hc => absurd hc (by decide))
          (fun hc => absurd hc (by decide)))
      · refine ⟨none, nofun, ?_⟩
        rw [cons_append, skipComment]
        · exact comment_of_closes hcloses
        · intro t ht
          exact hmark body (by rw [(List.cons.inj ht).1])
        · intro t ht
          exact hstar (List.cons.inj ht).1
        · intro t ht
          exact hstar (List.cons.inj ht).1
        · intro t ht
          exact hbang (List.cons.inj ht).1

/-- A comment that nothing closes is an error. -/
theorem round_unclosed {rest : List Char} (hmark : ∀ t, rest ≠ '$' :: t)
    (h : ∀ w t, rest = w ++ t → ¬Closes 1 w) :
    ∃ e, round lx (commentText rest) = .error e := by
  have hround : round lx (commentText rest) = skipComment lx (commentText rest) rest := rfl
  have hplain : ∀ {cs : List Char}, skipNested 1 cs = none →
      comment (commentText rest) (skipNested 1 cs) =
        .error ⟨commentText rest, "unterminated comment"⟩ := by
    intro cs hnone
    rw [hnone]
    rfl
  have hdoc : ∀ {cs : List Char}, skipNested 1 cs = none →
      docComment (commentText rest) (readDoc 1 cs) =
        .error ⟨commentText rest, "unterminated doc comment"⟩ := by
    intro cs hnone
    rw [← readDoc_rest, Option.map_eq_none_iff] at hnone
    rw [hnone]
    rfl
  have htail : ∀ {c : Char} {cs : List Char}, rest = c :: cs →
      (c = '(' → ∀ t, cs ≠ '*' :: t) → (c = '*' → ∀ t, cs ≠ ')' :: t) →
      skipNested 1 cs = none := by
    intro c cs hrest hopen hclose
    have hnone := skipNested_eq_none h
    rwa [hrest, skipNested_char hopen hclose] at hnone
  rw [hround]
  fun_cases skipComment lx (commentText rest) rest with
  | case1 cs => exact absurd rfl (hmark cs)
  | case2 cs =>
    exact ⟨_, hplain (htail rfl (fun hc => absurd hc (by decide))
      fun _ t ht => absurd (List.cons.inj ht).1 (by decide))⟩
  | case3 cs hstars =>
    have hclose : ∀ t, cs ≠ ')' :: t := by
      rintro t rfl
      exact h ['*', ')'] t rfl .last
    exact ⟨_, hdoc (htail rfl (fun hc => absurd hc (by decide)) fun _ => hclose)⟩
  | case4 cs =>
    exact ⟨_, hdoc (htail rfl (fun hc => absurd hc (by decide)) (fun hc => absurd hc (by decide)))⟩
  | case5 => exact ⟨_, hplain (skipNested_eq_none h)⟩

end Rounds

/-! ## Comments are white space -/

/-- The kinds of the tokens of a text, doc comments apart. -/
def plainKinds (lx : Lexer) (cs : List Char) : Option (List TokenKind) :=
  (kinds lx cs).map (List.filter fun k => !isDoc k)

/-- A comment is white space: a round consumes just the comment, and put at a token boundary it
leaves the tokens as they are. -/
structure IsWhiteSpace (lx : Lexer) (body : List Char) : Prop where
  consumed : ∀ post, ∃ kind, IsSilent kind ∧ round lx (commentText body ++ post) = .ok (kind, post)
  same : ∀ pre post ks, Reads lx (pre ++ post) ks post →
    plainKinds lx (pre ++ (commentText body ++ post)) = plainKinds lx (pre ++ post)

section WhiteSpace

variable {lx : Lexer} {body post : List Char}

theorem plainKinds_silent {cs mid : List Char} {kind : Option TokenKind} (hkind : IsSilent kind)
    (h : round lx cs = .ok (kind, mid)) : plainKinds lx cs = plainKinds lx mid := by
  cases kind with
  | none => rw [plainKinds, plainKinds, kinds_silent h]
  | some k =>
    have hdoc : isDoc k = true := hkind k rfl
    have hk : k ≠ .eof := by
      rintro rfl
      cases hdoc
    rw [plainKinds, plainKinds, kinds_token h hk, Option.map_map]
    congr 1
    funext ks
    rw [Function.comp, filter_cons, hdoc]
    rfl

theorem Reads.plainKinds_eq {cs rest : List Char} {ks : List TokenKind} (h : Reads lx cs ks rest) :
    plainKinds lx cs = (plainKinds lx rest).map (ks.filter (fun k => !isDoc k) ++ ·) := by
  rw [plainKinds, plainKinds, h.kinds_eq, Option.map_map, Option.map_map]
  congr 1
  funext ks'
  exact filter_append ..

theorem isWhiteSpace_of_ne (h : CommentBody body) (hne : body ≠ ['*', ')']) :
    IsWhiteSpace lx body := by
  refine ⟨fun post => round_comment h hne, fun pre post ks hreads => ?_⟩
  obtain ⟨kind, hkind, hround⟩ : ∃ kind, IsSilent kind ∧
      round lx (commentText body ++ post) = .ok (kind, post) := round_comment h hne
  have hcomment : Reads lx (pre ++ (commentText body ++ post)) ks (commentText body ++ post) :=
    hreads.replace (.inl ⟨_, .inl rfl⟩)
  rw [hcomment.plainKinds_eq, hreads.plainKinds_eq]
  congr 1
  exact plainKinds_silent hkind hround

/-- The empty comment is not closed by its own characters. -/
theorem round_empty (lx : Lexer) :
    round lx (commentText ['*', ')']) =
      .error ⟨commentText ['*', ')'], "unterminated doc comment"⟩ := rfl

theorem not_isWhiteSpace_empty (lx : Lexer) : ¬IsWhiteSpace lx ['*', ')'] := by
  intro h
  obtain ⟨kind, -, hround⟩ := h.consumed []
  rw [append_nil, round_empty] at hround
  cases hround

end WhiteSpace

/-- Put at a token boundary, a comment leaves the tokens of a text as they are just if it is not
empty; and a text with a comment at a token boundary that nothing closes is rejected. -/
theorem comment_isWhiteSpace_iff (lx : Lexer) :
    (∀ body, CommentBody body → (IsWhiteSpace lx body ↔ body ≠ ['*', ')'])) ∧
      ∀ pre rest ks, Reads lx (pre ++ commentText rest) ks (commentText rest) →
        (∀ t, rest ≠ '$' :: t) → (∀ w t, rest = w ++ t → ¬Closes 1 w) →
        kinds lx (pre ++ commentText rest) = none := by
  constructor
  · intro body hbody
    constructor
    · rintro h rfl
      exact not_isWhiteSpace_empty lx h
    · exact isWhiteSpace_of_ne hbody
  · intro pre rest ks hreads hmark hclose
    obtain ⟨e, he⟩ : ∃ e, round lx (commentText rest) = .error e := round_unclosed hmark hclose
    have hws : skipWhitespace (commentText rest) = commentText rest := skipWhitespace_of_not rfl
    rw [hreads.kinds_eq, kinds_error (by rw [hws, he]), Option.map_none]

/-- A comment of stars only. -/
theorem comment_isWhiteSpace_stars :
    IsWhiteSpace ⟨"", [], true, false, fun _ => none⟩ ['*', '*', ')'] :=
  ((comment_isWhiteSpace_iff _).1 _ ⟨.char (fun hc => absurd hc (by decide))
    (fun _ _ ht => absurd (List.cons.inj ht).1 (by decide)) .last,
    fun _ ht => absurd (List.cons.inj ht).1 (by decide)⟩).2 (by decide)

/-- Not every properly nested comment is white space: the empty one is not. -/
theorem not_comment_isWhiteSpace :
    ¬∀ (lx : Lexer) (body : List Char), CommentBody body → IsWhiteSpace lx body := by
  intro h
  exact not_isWhiteSpace_empty ⟨"", [], true, false, fun _ => none⟩
    (h _ ['*', ')'] ⟨.last, fun _ ht => absurd (List.cons.inj ht).1 (by decide)⟩)

end Mx.Lexer
