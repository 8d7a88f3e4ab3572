import Keystream.Expr.Lexeme

/-!
# Tokens laid out as text

`Layout ts cs` says that the characters `cs` are the tokens `ts` in order, with any blanks before,
between and after tokens and none inside one, and that all digits directly after an x belong to its
token. Every text is the layout of exactly one list of tokens, which `lexemes` finds.
-/

namespace Keystream

inductive Layout : List Token → List Char → Prop where
  | done : Layout [] []
  | blank {ts : List Token} {c : Char} {cs : List Char} (hc : isBlank c = true)
      (h : Layout ts cs) : Layout ts (c :: cs)
  | var {ts : List Token} {digits cs : List Char} (hd : ∀ d ∈ digits, d.isDigit = true)
      (hcs : ∀ c ∈ cs.head?, c.isDigit = false) (h : Layout ts cs) :
      Layout (.var digits :: ts) ('x' :: (digits ++ cs))
  | char {ts : List Token} {c : Char} {cs : List Char} (hc : isBlank c = false) (hx : c ≠ 'x')
      (h : Layout ts cs) : Layout (.ofChar c :: ts) (c :: cs)

theorem takeWhile_append_stop {p : Char → Bool} {digits cs : List Char}
    (hd : ∀ d ∈ digits, p d = true) (hcs : ∀ c ∈ cs.head?, p c = false) :
    (digits ++ cs).takeWhile p = digits := by
  rw [List.takeWhile_append_of_pos hd]
  cases cs with
  | nil => rw [List.takeWhile_nil, List.append_nil]
  | cons c cs =>
    have hc : ¬ p c = true := by simp [hcs c rfl]
    rw [List.takeWhile_cons_of_neg hc, List.append_nil]

theorem dropWhile_append_stop {p : Char → Bool} {digits cs : List Char}
    (hd : ∀ d ∈ digits, p d = true) (hcs : ∀ c ∈ cs.head?, p c = false) :
    (digits ++ cs).dropWhile p = cs := by
  have hsplit := List.takeWhile_append_dropWhile (p := p) (l := digits ++ cs)
  rw [takeWhile_append_stop hd hcs] at hsplit
  exact List.append_cancel_left hsplit

theorem lexemes_var (position : Nat) {digits cs : List Char}
    (hd : ∀ d ∈ digits, d.isDigit = true) (hcs : ∀ c ∈ cs.head?, c.isDigit = false) :
    lexemes position ('x' :: (digits ++ cs)) =
      ⟨.var digits, position⟩ :: lexemes (position + 1 + digits.length) cs := by
  rw [lexemes, if_pos rfl, takeWhile_append_stop hd hcs, dropWhile_append_stop hd hcs]

theorem lexemes_blank (position : Nat) {c : Char} (cs : List Char) (hc : isBlank c = true) :
    lexemes position (c :: cs) = lexemes (position + c.utf8Size) cs := by
  have hx : c ≠ 'x' := by
    rintro rfl
    exact absurd hc (by decide)
  rw [lexemes, if_neg hx, if_pos hc]

theorem lexemes_char (position : Nat) {c : Char} (cs : List Char) (hc : isBlank c = false)
    (hx : c ≠ 'x') :
    lexemes position (c :: cs) = ⟨.ofChar c, position⟩ :: lexemes (position + c.utf8Size) cs := by
  rw [lexemes, if_neg hx, if_neg (by rw [hc]; exact Bool.false_ne_true)]

theorem layout_lexemes (position : Nat) (cs : List Char) :
    Layout ((lexemes position cs).map Lexeme.token) cs := by
  fun_induction lexemes position cs with
  | case1 position => exact .done
  | case2 position cs digits ih =>
    have hd : ∀ d ∈ digits, d.isDigit = true := by
      intro d hd
      exact List.all_eq_true.1 (List.all_takeWhile (p := Char.isDigit) (l := cs)) d hd
    have hcs : ∀ c ∈ (cs.dropWhile Char.isDigit).head?, c.isDigit = false := by
      intro c hc
      have hnot := List.head?_dropWhile_not Char.isDigit cs
      rw [Option.mem_def.1 hc] at hnot
      exact hnot
    have h := Layout.var hd hcs ih
    rw [List.takeWhile_append_dropWhile] at h
    exact h
  | case3 position c cs hx hc ih => exact .blank hc ih
  | case4 position c cs hx hc ih => exact .char (Bool.eq_false_iff.2 hc) hx ih

theorem map_token_lexemes {ts : List Token} {cs : List Char} (h : Layout ts cs) (position : Nat) :
    (lexemes position cs).map Lexeme.token = ts := by
  induction h generalizing position with
  | done => rw [lexemes, List.map_nil]
  | blank hc _ ih => rw [lexemes_blank position _ hc, ih]
  | var hd hcs _ ih => rw [lexemes_var position hd hcs, List.map_cons, ih]
  | char hc hx _ ih => rw [lexemes_char position _ hc hx, List.map_cons, ih]

/-- A text lays out the tokens of its lexemes and no others. -/
theorem layout_iff {ts : List Token} {cs : List Char} (position : Nat) :
    Layout ts cs ↔ (lexemes position cs).map Lexeme.token = ts := by
  constructor
  · intro h
    exact map_token_lexemes h position
  · rintro rfl
    exact layout_lexemes position cs

theorem Layout.unique {ts us : List Token} {cs : List Char} (ht : Layout ts cs)
    (hu : Layout us cs) : ts = us :=
  (map_token_lexemes ht 0).symm.trans (map_token_lexemes hu 0)

/-- Texts follow each other unless digits at the front of the second could join a variable. -/
theorem Layout.append {ts us : List Token} {cs ds : List Char} (h : Layout ts cs)
    (hu : Layout us ds) (hds : ∀ c ∈ ds.head?, c.isDigit = false) :
    Layout (ts ++ us) (cs ++ ds) := by
  induction h with
  | done => exact hu
  | blank hc _ ih => exact .blank hc ih
  | @var ts digits cs hd hcs _ ih =>
    rw [List.cons_append, List.cons_append, List.append_assoc]
    refine .var hd ?_ ih
    cases cs with
    | nil => exact hds
    | cons c cs => exact hcs
  | char hc hx _ ih => exact .char hc hx ih

end Keystream
