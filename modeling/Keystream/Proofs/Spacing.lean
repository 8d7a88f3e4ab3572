import Keystream.Proofs.Faults
import Mathlib.Data.List.Forall2
import Mathlib.Data.Option.Basic

/-!
# Spacing

Texts with the same tokens are read alike, however they are spaced: to one normal form, or with one
fault, found at the same token of both texts. Reading goes through the tokens alone and passes
positions on unseen, so whatever relation holds between the positions of the lexemes of two texts
also holds between the positions of their faults.
-/

namespace Keystream

theorem Token.text_ofChar (c : Char) : (ofChar c).text = [c] := by
  cases h : ofChar c with
  | var digits =>
    unfold ofChar at h
    repeat' split at h
    all_goals cases h
  | zero | one | plus | opening | closing | stray =>
    rw [Token.eq_head_of_ofChar h]
    rfl

/-- The token that is written like this. -/
def Token.ofText? : List Char → Option Token
  | [] => none
  | c :: digits => some (if c = 'x' then .var digits else .ofChar c)

theorem isBlank_eq_false_of_isDigit {d : Char} (h : d.isDigit = true) : isBlank d = false := by
  rw [Char.isDigit, Bool.and_eq_true, decide_eq_true_eq, decide_eq_true_eq] at h
  have hdigits : 48 ≤ d.toNat ∧ d.toNat ≤ 57 := h
  have hranges : ∀ r ∈ blankRanges, r.2 < 48 ∨ 57 < r.1 := by decide
  rw [isBlank, List.any_eq_false]
  intro r hr
  have hrange := hranges r hr
  rw [Bool.and_eq_true, decide_eq_true_eq, decide_eq_true_eq]
  omega

namespace Layout

variable {ts us : List Token} {cs ds : List Char}

theorem map_ofText? (h : Layout ts cs) :
    (ts.map Token.text).map Token.ofText? = ts.map some := by
  induction h with
  | done => rfl
  | blank _ _ ih => exact ih
  | var _ _ _ ih =>
    rw [List.map_cons, List.map_cons, ih, List.map_cons, Token.text, Token.ofText?, if_pos rfl]
  | char _ hx _ ih =>
    rw [List.map_cons, List.map_cons, ih, List.map_cons, Token.text_ofChar, Token.ofText?,
      if_neg hx]

/-- The texts of the tokens tell the tokens. -/
theorem eq_of_texts (h : Layout ts cs) (hu : Layout us ds)
    (heq : ts.map Token.text = us.map Token.text) : ts = us := by
  have hsome : ts.map some = us.map some := by
    rw [← h.map_ofText?, heq, hu.map_ofText?]
  exact List.map_injective_iff.2 (Option.some_injective Token) hsome

/-- The characters that are not blank are those of the tokens. -/
theorem filter_eq (h : Layout ts cs) : cs.filter (!isBlank ·) = ts.flatMap Token.text := by
  induction h with
  | done => rfl
  | blank hc _ ih => rw [List.filter_cons_of_neg (by rw [hc]; decide), ih]
  | @var ts digits cs hd _ _ ih =>
    have hdigits : digits.filter (!isBlank ·) = digits :=
      List.filter_eq_self.2 fun d hmem => by rw [isBlank_eq_false_of_isDigit (hd d hmem)]; rfl
    rw [List.filter_cons_of_pos (by decide), List.filter_append, hdigits, ih, List.flatMap_cons]
    rfl
  | char hc _ _ ih =>
    rw [List.filter_cons_of_pos (by rw [hc]; rfl), ih, List.flatMap_cons, Token.text_ofChar]
    rfl

theorem exists_text_eq (h : Layout ts cs) {t : Token} (ht : t ∈ ts) :
    ∃ c more, t.text = c :: more ∧ isBlank c = false := by
  induction h with
  | done => cases ht
  | blank _ _ ih => exact ih ht
  | var _ _ _ ih =>
    cases ht with
    | head => exact ⟨_, _, rfl, by decide⟩
    | tail _ ht => exact ih ht
  | char hc _ _ ih =>
    cases ht with
    | head => exact ⟨_, _, Token.text_ofChar _, hc⟩
    | tail _ ht => exact ih ht

theorem eq_nil_of_append {more : List Char} (h : Layout ts cs) (hmore : Layout ts (cs ++ more))
    (hhead : ∀ c ∈ more.head?, isBlank c = false) : more = [] := by
  have hfilter : cs.filter (!isBlank ·) ++ more.filter (!isBlank ·) = cs.filter (!isBlank ·) := by
    rw [← List.filter_append, hmore.filter_eq, h.filter_eq]
  have hnil := List.append_right_eq_self.1 hfilter
  cases more with
  | nil => rfl
  | cons c more =>
    rw [List.filter_cons_of_pos (by rw [hhead c rfl]; rfl)] at hnil
    cases hnil

/-- A text has these tokens in front of one place where a character that is not blank stands. -/
theorem eq_of_append_eq {c : Char} {rest rest' : List Char} (h : Layout ts cs)
    (h' : Layout ts ds) (hc : isBlank c = false) (heq : cs ++ c :: rest = ds ++ c :: rest') :
    cs = ds := by
  have hhead : ∀ {more after after' : List Char}, c :: after = more ++ c :: after' →
      ∀ d ∈ more.head?, isBlank d = false := by
    intro more after after' hafter d hd
    cases more with
    | nil => cases hd
    | cons first more =>
      obtain rfl := Option.some.inj hd
      rw [← (List.cons.inj hafter).1]
      exact hc
  obtain ⟨more, rfl, hafter⟩ | ⟨more, rfl, hafter⟩ := List.append_eq_append_iff.1 heq
  · rw [h.eq_nil_of_append h' (hhead hafter), List.append_nil]
  · rw [h'.eq_nil_of_append h (hhead hafter), List.append_nil]

end Layout

/-- Token number `i` of the text, which has the tokens `ts`, begins at byte `position`. -/
def TokenAt (ts : List Token) (s : String) (i position : Nat) : Prop :=
  ∃ t before rest, ts[i]? = some t ∧ s = before ++ String.ofList (t.text ++ rest) ∧
    Layout (ts.take i) before.toList ∧ before.utf8ByteSize = position

theorem Begins.exists_eq {position : Nat} {l : Lexeme} {cs : List Char}
    (h : Begins position l cs) : ∃ rest, cs = l.token.text ++ rest := by
  cases h with
  | var _ _ => exact ⟨_, rfl⟩
  | char _ _ => exact ⟨_, by rw [Token.text_ofChar]; rfl⟩

/-- A token of a text begins at one byte. -/
theorem TokenAt.unique {ts : List Token} {s : String} (hs : Layout ts s.toList) {i p q : Nat}
    (hp : TokenAt ts s i p) (hq : TokenAt ts s i q) : p = q := by
  obtain ⟨t, before, rest, ht, hcut, hbefore, rfl⟩ := hp
  obtain ⟨t', before', rest', ht', hcut', hbefore', rfl⟩ := hq
  obtain rfl : t = t' := Option.some.inj (ht.symm.trans ht')
  obtain ⟨c, digits, htext, hc⟩ := hs.exists_text_eq (List.mem_of_getElem? ht)
  have hchars : before.toList ++ (c :: (digits ++ rest)) =
      before'.toList ++ (c :: (digits ++ rest')) := by
    have heq := congrArg String.toList (hcut.symm.trans hcut')
    rw [String.toList_append, String.toList_append, String.toList_ofList, String.toList_ofList,
      htext] at heq
    exact heq
  rw [String.toList_injective (hbefore.eq_of_append_eq hbefore' hc hchars)]

theorem tokenAt_of_getElem? {ts : List Token} {s : String} (hs : Layout ts s.toList) {i : Nat}
    {l : Lexeme} (h : (lexemes 0 s.toList)[i]? = some l) : TokenAt ts s i l.position := by
  have htokens := map_token_lexemes hs 0
  obtain ⟨hi, hl⟩ := List.getElem?_eq_some_iff.1 h
  have hsplit : lexemes 0 s.toList =
      (lexemes 0 s.toList).take i ++ l :: (lexemes 0 s.toList).drop (i + 1) := by
    rw [← hl, List.getElem_cons_drop, List.take_append_drop]
  obtain ⟨before, rest, hcs, hbegins, hcut⟩ := hs.exists_cut hsplit
  obtain ⟨more, rfl⟩ := hbegins.exists_eq
  refine ⟨l.token, String.ofList before, more, ?_, ?_, ?_, ?_⟩
  · rw [← htokens, List.getElem?_map, h, Option.map_some]
  · rw [← String.ofList_append, ← hcs, String.ofList_toList]
  · rw [String.toList_ofList, ← htokens, ← List.map_take, ← hcut.lexemes_before]
    exact layout_lexemes 0 before
  · rw [hbegins.position_eq, String.utf8ByteSize_ofList, Nat.zero_add]

/-- Lexemes stand where the tokens of the text begin. -/
theorem tokenAt_iff {ts : List Token} {s : String} (hs : Layout ts s.toList) {i q : Nat}
    {l : Lexeme} (h : (lexemes 0 s.toList)[i]? = some l) : TokenAt ts s i q ↔ q = l.position := by
  constructor
  · intro hq
    exact hq.unique hs (tokenAt_of_getElem? hs h)
  · rintro rfl
    exact tokenAt_of_getElem? hs h

section Relation

variable (R : Nat → Nat → Prop) (stop stop' : Nat)

/-- Lexemes with the same token, at related positions. -/
structure Lexeme.Alike (l l' : Lexeme) : Prop where
  token_eq : l.token = l'.token
  position : R l.position l'.position

/-- Faults of one kind that show the same, at related positions or at the ends of two texts. -/
inductive ParseError.Alike : ParseError → ParseError → Prop where
  | empty : Alike .empty .empty
  | unexpectedToken (token : Char) {p p' : Nat} (h : R p p') :
      Alike (.unexpectedToken token p) (.unexpectedToken token p')
  | unexpectedEnd : Alike (.unexpectedEnd stop) (.unexpectedEnd stop')
  | unclosedParenthesis {p p' : Nat} (h : R p p') :
      Alike (.unclosedParenthesis p) (.unclosedParenthesis p')
  | nestingTooDeep (max : Nat) {p p' : Nat} (h : R p p') :
      Alike (.nestingTooDeep p max) (.nestingTooDeep p' max)
  | missingIndex {p p' : Nat} (h : R p p') : Alike (.missingIndex p) (.missingIndex p')
  | variableOutOfRange (digits : List Char) (min max : Nat) {p p' : Nat} (h : R p p') :
      Alike (.variableOutOfRange digits p min max) (.variableOutOfRange digits p' min max)

/-- Either both succeed, with things that `Q` relates, or both fail with faults alike. -/
inductive Agree {α β : Type} (Q : α → β → Prop) :
    Except ParseError α → Except ParseError β → Prop where
  | ok {a : α} {b : β} (h : Q a b) : Agree Q (.ok a) (.ok b)
  | error {e e' : ParseError} (h : ParseError.Alike R stop stop' e e') :
      Agree Q (.error e) (.error e')

end Relation

namespace Expr

variable {n : Nat} {numbering : Numbering} {R : Nat → Nat → Prop} {stop stop' : Nat}

theorem readVariable_agree (digits : List Char) {p p' : Nat} (h : R p p') :
    Agree R stop stop' (· = ·) (readVariable n numbering digits p)
      (readVariable n numbering digits p') := by
  unfold readVariable
  by_cases hd : digits = []
  · rw [if_pos hd, if_pos hd]
    exact .error (.missingIndex h)
  · rw [if_neg hd, if_neg hd]
    split
    · exact .ok rfl
    · exact .error (.variableOutOfRange digits _ _ h)

namespace Stage

/-- Stages with as many open parentheses, at related positions, and sums that are both complete or
both not. -/
structure Alike (R : Nat → Nat → Prop) (σ τ : Stage) : Prop where
  opened : List.Forall₂ R σ.opened τ.opened
  complete : σ.complete = τ.complete

/-- One lexeme leads from stages alike to stages alike, or is refused in both. -/
theorem Alike.step {σ τ : Stage} (h : Alike R σ τ) {l l' : Lexeme} (hl : Lexeme.Alike R l l') :
    Agree R stop stop' (Alike R) (σ.step n numbering l) (τ.step n numbering l') := by
  obtain ⟨opened, complete⟩ := σ
  obtain ⟨opened', complete'⟩ := τ
  obtain ⟨hopened, hcomplete⟩ := h
  obtain rfl : complete = complete' := hcomplete
  obtain ⟨token, p⟩ := l
  obtain ⟨token', p'⟩ := l'
  obtain ⟨htoken, hp⟩ := hl
  obtain rfl : token = token' := htoken
  -- A step looks at the token, at how many parentheses are open and at whether the sum is complete.
  have hlength : opened.length = opened'.length := hopened.length_eq
  cases token with
  | zero => exact .ok ⟨hopened, rfl⟩
  | one => exact .ok ⟨hopened, rfl⟩
  | var digits =>
    rw [step_var, step_var]
    have hread : Agree R stop stop' (· = ·) (readVariable n numbering digits p)
        (readVariable n numbering digits p') := readVariable_agree digits hp
    generalize readVariable n numbering digits p = x at hread ⊢
    generalize readVariable n numbering digits p' = y at hread ⊢
    cases hread with
    | ok _ => exact .ok ⟨hopened, rfl⟩
    | error he => exact .error he
  | opening =>
    rw [step_opening, step_opening]
    by_cases hdeep : opened.length = maxNesting
    · rw [if_pos hdeep, if_pos (hlength ▸ hdeep)]
      exact .error (.nestingTooDeep maxNesting hp)
    · rw [if_neg hdeep, if_neg (hlength ▸ hdeep)]
      exact .ok ⟨.cons hp hopened, rfl⟩
  | plus =>
    cases complete with
    | true => exact .ok ⟨hopened, rfl⟩
    | false => exact .error (.unexpectedToken '+' hp)
  | closing =>
    cases complete with
    | false => exact .error (.unexpectedToken ')' hp)
    | true =>
      cases hopened with
      | nil => exact .error (.unexpectedToken ')' hp)
      | cons _ hrest => exact .ok ⟨hrest, rfl⟩
  | stray c => exact .error (.unexpectedToken c hp)

theorem Alike.finish {σ τ : Stage} (h : Alike R σ τ) :
    Agree R stop stop' (· = ·) (σ.finish stop) (τ.finish stop') := by
  obtain ⟨opened, complete⟩ := σ
  obtain ⟨opened', complete'⟩ := τ
  obtain ⟨hopened, hcomplete⟩ := h
  obtain rfl : complete = complete' := hcomplete
  cases complete with
  | false => exact .error .unexpectedEnd
  | true =>
    cases hopened with
    | nil => exact .ok rfl
    | cons hp _ => exact .error (.unclosedParenthesis hp)

theorem Alike.run {σ τ : Stage} (h : Alike R σ τ) {input input' : List Lexeme}
    (hl : List.Forall₂ (Lexeme.Alike R) input input') :
    Agree R stop stop' (· = ·) (run n numbering stop σ input) (run n numbering stop' τ input') := by
  induction hl generalizing σ τ with
  | nil => exact h.finish
  | @cons l l' input input' hl _ ih =>
    rw [Stage.run, Stage.run]
    have hstep : Agree R stop stop' (Alike R) (σ.step n numbering l) (τ.step n numbering l') :=
      h.step hl
    generalize σ.step n numbering l = x at hstep ⊢
    generalize τ.step n numbering l' = y at hstep ⊢
    cases hstep with
    | ok hnext => exact ih hnext
    | error he => exact .error he

end Stage

end Expr

/-- Tokens of the same number begin at these bytes of the two texts and at no others. -/
def SameToken (ts : List Token) (s s' : String) (p p' : Nat) : Prop :=
  ∃ i, (∀ q, TokenAt ts s i q ↔ q = p) ∧ ∀ q, TokenAt ts s' i q ↔ q = p'

section Texts

variable {ts : List Token} {s s' : String}

theorem forall₂_lexemes (hs : Layout ts s.toList) (hs' : Layout ts s'.toList) :
    List.Forall₂ (Lexeme.Alike (SameToken ts s s')) (lexemes 0 s.toList)
      (lexemes 0 s'.toList) := by
  have htokens : (lexemes 0 s.toList).map Lexeme.token = (lexemes 0 s'.toList).map Lexeme.token :=
    (map_token_lexemes hs 0).trans (map_token_lexemes hs' 0).symm
  have hlength := congrArg List.length htokens
  rw [List.length_map, List.length_map] at hlength
  rw [List.forall₂_iff_get]
  refine ⟨hlength, fun i hi hi' => ⟨?_, i, ?_, ?_⟩⟩
  · have hget := congrArg (·[i]?) htokens
    simpa [hi, hi'] using hget
  · exact fun q => tokenAt_iff hs (List.getElem?_eq_getElem hi)
  · exact fun q => tokenAt_iff hs' (List.getElem?_eq_getElem hi')

theorem Expr.Renders.of_layout {n : Nat} {numbering : Numbering} {e : Expr n .sum}
    (hs : Layout ts s.toList) (hs' : Layout ts s'.toList) (h : e.Renders numbering s.toList) :
    e.Renders numbering s'.toList := by
  obtain ⟨us, hus, hspells⟩ := h
  obtain rfl := hus.unique hs
  exact ⟨us, hs', hspells⟩

/-- Texts with the same tokens are read to one tree, or fail at the same token. -/
theorem Expr.parse_agree (n : Nat) (numbering : Numbering) (hs : Layout ts s.toList)
    (hs' : Layout ts s'.toList) :
    Agree (SameToken ts s s') s.utf8ByteSize s'.utf8ByteSize (· = ·) (parse n numbering s)
      (parse n numbering s') := by
  have hlexemes := forall₂_lexemes hs hs'
  by_cases hne : lexemes 0 s.toList = []
  · rw [hne, List.forall₂_nil_left_iff] at hlexemes
    rw [parse, parse, hne, hlexemes]
    exact .error .empty
  · have hne' : lexemes 0 s'.toList ≠ [] := by
      intro hnil
      rw [hnil, List.forall₂_nil_right_iff] at hlexemes
      exact hne hlexemes
    have hstart : Stage.Alike (SameToken ts s s') .start .start := ⟨.nil, rfl⟩
    have hrun : Agree (SameToken ts s s') s.utf8ByteSize s'.utf8ByteSize (· = ·)
        ((parse n numbering s).map fun _ => ()) ((parse n numbering s').map fun _ => ()) := by
      rw [parse, parse, Stage.ofLexemes_eq_run hne, Stage.ofLexemes_eq_run hne']
      exact hstart.run hlexemes
    cases hx : parse n numbering s with
    | ok e =>
      obtain ⟨hrenders, hdepth⟩ := parse_eq_ok_iff.1 hx
      rw [parse_eq_ok_iff.2 ⟨hrenders.of_layout hs hs', hdepth⟩]
      exact .ok rfl
    | error e =>
      rw [hx] at hrun
      generalize parse n numbering s' = y at hrun ⊢
      cases y with
      | ok e' => cases hrun
      | error e' =>
        cases hrun with
        | error he => exact .error he

end Texts

namespace NormalForm

/-- Texts whose tokens are written alike have one normal form, or one fault at one token. -/
theorem spacing_irrelevant {arity : Nat} (hpos : 0 < arity) (hle : arity ≤ 63)
    (numbering : Numbering) {s s' : String} {ts us : List Token} (hs : Layout ts s.toList)
    (hs' : Layout us s'.toList) (h : ts.map Token.text = us.map Token.text) :
    (∃ f, parse arity numbering s = .ok f ∧ parse arity numbering s' = .ok f) ∨
    ∃ e e', parse arity numbering s = .error (.parse e) ∧
      parse arity numbering s' = .error (.parse e') ∧
      ParseError.Alike (SameToken ts s s') s.utf8ByteSize s'.utf8ByteSize e e' := by
  obtain rfl := hs.eq_of_texts hs' h
  have hagree := Expr.parse_agree arity numbering hs hs'
  rw [parse_of_range ⟨hpos, hle⟩, parse_of_range ⟨hpos, hle⟩]
  generalize Expr.parse arity numbering s = x at hagree ⊢
  generalize Expr.parse arity numbering s' = y at hagree ⊢
  cases hagree with
  | ok heq =>
    obtain rfl := heq
    exact .inl ⟨_, rfl, rfl⟩
  | error he => exact .inr ⟨_, _, rfl, rfl, he⟩

/-- The fault in both texts is the letter, which is token number 3 of six. -/
theorem spacing_irrelevant_example :
    let ts := [.opening, .var ['1'], .plus, .stray 'é', .closing, .var ['9']]
    0 < 3 ∧ 3 ≤ 63 ∧ Layout ts "(x1 + é) x9".toList ∧ Layout ts "(x1+é)\tx9 ".toList ∧
    parse 3 .fromOne "(x1 + é) x9" = .error (.parse (.unexpectedToken 'é' 6)) ∧
    parse 3 .fromOne "(x1+é)\tx9 " = .error (.parse (.unexpectedToken 'é' 4)) ∧
    SameToken ts "(x1 + é) x9" "(x1+é)\tx9 " 6 4 := by
  intro ts
  have hs : Layout ts "(x1 + é) x9".toList := (layout_iff 0).2 (by decide +kernel)
  have hs' : Layout ts "(x1+é)\tx9 ".toList := (layout_iff 0).2 (by decide +kernel)
  have hx : parse 3 .fromOne "(x1 + é) x9" = .error (.parse (.unexpectedToken 'é' 6)) :=
    eq_error_of_match (by decide +kernel)
  have hy : parse 3 .fromOne "(x1+é)\tx9 " = .error (.parse (.unexpectedToken 'é' 4)) :=
    eq_error_of_match (by decide +kernel)
  refine ⟨by decide, by decide, hs, hs', hx, hy, ?_⟩
  obtain ⟨f, hf, -⟩ | ⟨e, e', he, he', halike⟩ :=
    spacing_irrelevant (by decide : 0 < 3) (by decide) .fromOne hs hs' rfl
  · rw [hx] at hf
    cases hf
  · rw [hx] at he
    rw [hy] at he'
    cases he
    cases he'
    cases halike with
    | unexpectedToken _ hsame => exact hsame

end NormalForm

end Keystream
