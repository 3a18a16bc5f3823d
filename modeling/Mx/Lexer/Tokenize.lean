import Mx.Hir.Syntax
import Mx.Lexer.Rounds

/-!
# Tokens of a text

`next_token` and `tokenize`. Between two rounds the lexer is at a token boundary: the tokens of a
text are those read up to a boundary, followed by the tokens of the text behind it.
-/

namespace Mx.Lexer

open List

/-- A token, at the place from which on there is this text. -/
structure Token where
  kind : TokenKind
  place : List Char
  deriving DecidableEq

section Length

variable {lx : Lexer} {cs rest : List Char} {kind : Option TokenKind}

theorem length_round (h : round lx cs = .ok (kind, rest)) (hne : cs ≠ []) :
    rest.length < cs.length := by
  obtain ⟨w, hw, rfl, -, -⟩ := round_local h hne
  rw [length_append]
  exact Nat.lt_add_of_pos_left (length_pos_iff.mpr hw)

theorem length_skipWhitespace_le (cs : List Char) : (skipWhitespace cs).length ≤ cs.length :=
  length_dropWhile_le isWhitespace cs

end Length

variable (lx : Lexer)

/-- `next_token`. -/
def nextToken (cs : List Char) : Reading Token :=
  match _hround : round lx (skipWhitespace cs) with
  | .error e => .error e
  | .ok (some kind, rest) => .ok (⟨kind, skipWhitespace cs⟩, rest)
  | .ok (none, rest) => nextToken rest
termination_by cs.length
decreasing_by
  have hne : skipWhitespace cs ≠ [] := by
    intro hnil
    rw [hnil] at _hround
    cases _hround
  exact Nat.lt_of_lt_of_le (length_round _hround hne) (length_skipWhitespace_le cs)

theorem length_nextToken {cs rest : List Char} {tok : Token}
    (h : nextToken lx cs = .ok (tok, rest)) (hne : tok.kind ≠ .eof) : rest.length < cs.length := by
  fun_induction nextToken lx cs with
  | case1 => cases h
  | case2 cs kind behind hround =>
    obtain ⟨rfl, rfl⟩ := Prod.mk.inj (Except.ok.inj h)
    have hcs : skipWhitespace cs ≠ [] := by
      intro hnil
      rw [hnil] at hround
      obtain ⟨hkind, -⟩ := Prod.mk.inj (Except.ok.inj hround)
      exact hne (Option.some.inj hkind).symm
    exact Nat.lt_of_lt_of_le (length_round hround hcs) (length_skipWhitespace_le cs)
  | case3 cs behind hround ih =>
    have hcs : skipWhitespace cs ≠ [] := by
      intro hnil
      rw [hnil] at hround
      cases hround
    have hshort := length_round hround hcs
    have hle := length_skipWhitespace_le cs
    have hrest := ih h
    omega

/-- The loop of `tokenize`. -/
def tokensFrom (cs : List Char) : Except Fault (List Token) :=
  match _hnext : nextToken lx cs with
  | .error e => .error e
  | .ok (tok, rest) =>
    if _htok : tok.kind = .eof then .ok [tok] else (tokensFrom rest).map (tok :: ·)
termination_by cs.length
decreasing_by exact length_nextToken lx _hnext _htok

/-- The place in a source file from which on there is this text: lines and columns are counted as
`advance` counts them. -/
def locate (source place : List Char) : SourceLoc :=
  (source.take (source.length - place.length)).foldl
    (fun loc c =>
      if c = '\n' then { loc with line := loc.line + 1, col := 1 }
      else { loc with col := loc.col + 1 })
    ⟨lx.file, 1, 1⟩

/-- `tokenize`: the tokens with their places, or an error with its place. -/
def tokenize (source : List Char) :
    Except (SourceLoc × String) (List (TokenKind × SourceLoc)) :=
  match tokensFrom lx source with
  | .error e => .error (locate lx source e.place, e.message)
  | .ok toks => .ok (toks.map fun tok => (tok.kind, locate lx source tok.place))

/-- The kinds of the tokens of a text; none for a text that is rejected. -/
def kinds (cs : List Char) : Option (List TokenKind) :=
  (tokenize lx cs).toOption.map (List.map Prod.fst)

/-! ## Boundaries -/

/-- From one text the lexer reads these tokens and is then at a boundary in front of the other. -/
inductive Reads : List Char → List TokenKind → List Char → Prop where
  | refl (cs : List Char) : Reads cs [] cs
  | white {c : Char} {cs rest : List Char} {ks : List TokenKind} (hc : isWhitespace c = true)
      (h : Reads cs ks rest) : Reads (c :: cs) ks rest
  | silent {cs mid rest : List Char} {ks : List TokenKind} (hround : round lx cs = .ok (none, mid))
      (h : Reads mid ks rest) : Reads cs ks rest
  | token {cs mid rest : List Char} {k : TokenKind} {ks : List TokenKind}
      (hround : round lx cs = .ok (some k, mid)) (hk : k ≠ .eof) (h : Reads mid ks rest) :
      Reads cs (k :: ks) rest

section Boundaries

variable {lx} {cs mid rest : List Char} {ks : List TokenKind}

theorem kinds_eq (cs : List Char) :
    kinds lx cs = (tokensFrom lx cs).toOption.map (List.map Token.kind) := by
  rw [kinds, tokenize]
  cases tokensFrom lx cs with
  | error e => rfl
  | ok toks =>
    simp only [Except.toOption, Option.map_some, map_map]
    rfl

theorem skipWhitespace_of_not {c : Char} (h : isWhitespace c = false) :
    skipWhitespace (c :: cs) = c :: cs := dropWhile_cons_of_neg (by simp [h])

/-- A round that reads something does not begin with white space. -/
theorem skipWhitespace_of_round {kind : Option TokenKind} (h : round lx cs = .ok (kind, mid)) :
    skipWhitespace cs = cs := by
  cases cs with
  | nil => rfl
  | cons c cs =>
    apply skipWhitespace_of_not
    by_contra hc
    rw [Bool.not_eq_false, isWhitespace] at hc
    simp only [Bool.or_eq_true, beq_iff_eq] at hc
    obtain (((rfl | rfl) | rfl) | rfl) | rfl := hc <;> cases h

theorem nextToken_white {c : Char} (h : isWhitespace c = true) :
    nextToken lx (c :: cs) = nextToken lx cs := by
  have hskip : skipWhitespace (c :: cs) = skipWhitespace cs := dropWhile_cons_of_pos h
  rw [nextToken, nextToken, hskip]

theorem nextToken_silent (h : round lx cs = .ok (none, mid)) :
    nextToken lx cs = nextToken lx mid := by
  rw [nextToken]
  split
  · next hround =>
    rw [skipWhitespace_of_round h, h] at hround
    cases hround
  · next hround =>
    rw [skipWhitespace_of_round h, h] at hround
    cases hround
  · next hround =>
    rw [skipWhitespace_of_round h, h] at hround
    obtain ⟨-, rfl⟩ := Prod.mk.inj (Except.ok.inj hround)
    rfl

theorem nextToken_token {k : TokenKind} (h : round lx cs = .ok (some k, mid)) :
    nextToken lx cs = .ok (⟨k, cs⟩, mid) := by
  rw [nextToken]
  split
  · next hround =>
    rw [skipWhitespace_of_round h, h] at hround
    cases hround
  · next hround =>
    rw [skipWhitespace_of_round h, h] at hround
    obtain ⟨hk, rfl⟩ := Prod.mk.inj (Except.ok.inj hround)
    rw [Option.some.inj hk, skipWhitespace_of_round h]
  · next hround =>
    rw [skipWhitespace_of_round h, h] at hround
    cases hround

theorem nextToken_error {e : Fault} (h : round lx (skipWhitespace cs) = .error e) :
    nextToken lx cs = .error e := by
  rw [nextToken]
  split
  · next hround =>
    rw [h] at hround
    rw [Except.error.inj hround]
  · next hround =>
    rw [h] at hround
    cases hround
  · next hround =>
    rw [h] at hround
    cases hround

theorem tokensFrom_congr (h : nextToken lx cs = nextToken lx mid) :
    tokensFrom lx cs = tokensFrom lx mid := by
  rw [tokensFrom, tokensFrom, h]

theorem tokensFrom_cons {tok : Token} (h : nextToken lx cs = .ok (tok, mid))
    (htok : tok.kind ≠ .eof) : tokensFrom lx cs = (tokensFrom lx mid).map (tok :: ·) := by
  rw [tokensFrom]
  split
  · next hnext =>
    rw [h] at hnext
    cases hnext
  · next hnext =>
    rw [h] at hnext
    obtain ⟨rfl, rfl⟩ := Prod.mk.inj (Except.ok.inj hnext)
    exact dif_neg htok

theorem kinds_nil : kinds lx [] = some [.eof] := by
  rw [kinds_eq, tokensFrom]
  split
  · next hnext =>
    rw [nextToken_token (rfl : round lx [] = .ok (some .eof, []))] at hnext
    cases hnext
  · next hnext =>
    rw [nextToken_token (rfl : round lx [] = .ok (some .eof, []))] at hnext
    obtain ⟨rfl, rfl⟩ := Prod.mk.inj (Except.ok.inj hnext)
    rfl

theorem kinds_error {e : Fault} (h : round lx (skipWhitespace cs) = .error e) :
    kinds lx cs = none := by
  rw [kinds_eq, tokensFrom]
  split
  · rfl
  · next hnext =>
    rw [nextToken_error h] at hnext
    cases hnext

theorem kinds_token {k : TokenKind} (h : round lx cs = .ok (some k, mid)) (hk : k ≠ .eof) :
    kinds lx cs = (kinds lx mid).map (k :: ·) := by
  rw [kinds_eq, kinds_eq, tokensFrom_cons (nextToken_token h) hk]
  cases tokensFrom lx mid with
  | error e => rfl
  | ok toks => rfl

theorem kinds_silent (h : round lx cs = .ok (none, mid)) : kinds lx cs = kinds lx mid := by
  rw [kinds_eq, kinds_eq, tokensFrom_congr (nextToken_silent h)]

theorem kinds_white {c : Char} (h : isWhitespace c = true) : kinds lx (c :: cs) = kinds lx cs := by
  rw [kinds_eq, kinds_eq, tokensFrom_congr (nextToken_white h)]

theorem Reads.kinds_eq (h : Reads lx cs ks rest) :
    kinds lx cs = (kinds lx rest).map (ks ++ ·) := by
  induction h with
  | refl cs => simp
  | white hc _ ih => rw [kinds_white hc, ih]
  | silent hround _ ih => rw [kinds_silent hround, ih]
  | token hround hk _ ih =>
    rw [kinds_token hround hk, ih, Option.map_map]
    rfl

theorem Alike.append {rest rest' : List Char} (h : Alike rest rest') (w : List Char) :
    Alike (w ++ rest) (w ++ rest') := by
  cases w with
  | nil => exact h
  | cons c w =>
    refine .inr ⟨c, w ++ rest, w ++ rest', rfl, rfl, ?_⟩
    obtain hopen | hsame := h.head_append w
    · exact .inr hopen
    · exact .inl hsame

/-- What is read up to a boundary is read there in front of every text that goes on like the one
behind it. -/
theorem Reads.local (h : Reads lx cs ks rest) :
    ∃ w, cs = w ++ rest ∧ ∀ rest', Alike rest rest' → Reads lx (w ++ rest') ks rest' := by
  induction h with
  | refl cs => exact ⟨[], rfl, fun rest' _ => .refl rest'⟩
  | @white c cs rest ks hc _ ih =>
    obtain ⟨w, rfl, hw⟩ := ih
    exact ⟨c :: w, rfl, fun rest' halike => .white hc (hw rest' halike)⟩
  | @silent cs mid rest ks hround _ ih =>
    obtain ⟨w, rfl, hw⟩ := ih
    have hne : cs ≠ [] := by
      rintro rfl
      cases hround
    obtain ⟨v, -, rfl, -, hv⟩ := round_local hround hne
    refine ⟨v ++ w, (append_assoc ..).symm, fun rest' halike => ?_⟩
    rw [append_assoc]
    exact .silent (hv _ (halike.append w)) (hw rest' halike)
  | @token cs mid rest k ks hround hk _ ih =>
    obtain ⟨w, rfl, hw⟩ := ih
    have hne : cs ≠ [] := by
      rintro rfl
      obtain ⟨heof, -⟩ := Prod.mk.inj (Except.ok.inj hround)
      exact hk (Option.some.inj heof).symm
    obtain ⟨v, -, rfl, -, hv⟩ := round_local hround hne
    refine ⟨v ++ w, (append_assoc ..).symm, fun rest' halike => ?_⟩
    rw [append_assoc]
    exact .token (hv _ (halike.append w)) hk (hw rest' halike)

/-- The lexer's way up to a boundary, with another text behind it. -/
theorem Reads.replace {pre post post' : List Char} (h : Reads lx (pre ++ post) ks post)
    (halike : Alike post post') : Reads lx (pre ++ post') ks post' := by
  obtain ⟨w, hw, hlocal⟩ := h.local
  obtain rfl := append_cancel_right hw
  exact hlocal post' halike

end Boundaries

end Mx.Lexer
