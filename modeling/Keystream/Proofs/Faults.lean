import Keystream.Proofs.Cuts
import Keystream.Proofs.Parsing
import Keystream.Proofs.Stages

/-!
# Where faults are found

A text is viable if some accepted text begins with it. Every fault is found in front of the first
character or variable that makes the text stop being viable, or at the end of a text that is viable
but not complete. `Located` lists for each fault what it says about the text.
-/

namespace Keystream

/-- The positions of the parentheses that are open behind the characters, the last one first. -/
def openedFrom (position : Nat) (opened : List Nat) : List Char → List Nat
  | [] => opened
  | c :: cs =>
    openedFrom (position + c.utf8Size)
      (if c = '(' then position :: opened else if c = ')' then opened.tail else opened) cs

/-- The byte positions of the parentheses that the text leaves open, the last one first. -/
def unmatched (s : String) : List Nat :=
  openedFrom 0 [] s.toList

theorem openedFrom_cons_of_ne {c : Char} (ho : c ≠ '(') (hc : c ≠ ')') (position : Nat)
    (opened : List Nat) (cs : List Char) :
    openedFrom position opened (c :: cs) = openedFrom (position + c.utf8Size) opened cs := by
  rw [openedFrom, if_neg ho, if_neg hc]

theorem openedFrom_digits {digits : List Char} (hd : ∀ d ∈ digits, d.isDigit = true)
    (position : Nat) (opened : List Nat) (cs : List Char) :
    openedFrom position opened (digits ++ cs) =
      openedFrom (position + digits.length) opened cs := by
  induction digits generalizing position with
  | nil => rfl
  | cons d digits ih =>
    have hdigit := hd d List.mem_cons_self
    have hopening : d ≠ '(' := ne_of_apply_ne Char.isDigit (hdigit.trans_ne (by decide))
    have hclosing : d ≠ ')' := ne_of_apply_ne Char.isDigit (hdigit.trans_ne (by decide))
    rw [List.cons_append, openedFrom_cons_of_ne hopening hclosing,
      ih fun c hc => hd c (List.mem_cons_of_mem d hc), utf8Size_of_isDigit hdigit,
      List.length_cons, Nat.add_right_comm, Nat.add_assoc]

theorem Expr.Stage.Reaches.opened_eq {n : Nat} {numbering : Numbering} {ts : List Token}
    {cs : List Char} (hl : Layout ts cs) {position : Nat} {σ τ : Stage}
    (h : Reaches n numbering σ (lexemes position cs) τ) :
    τ.opened = openedFrom position σ.opened cs := by
  induction hl generalizing position σ with
  | done =>
    rw [lexemes] at h
    cases h
    rfl
  | @blank ts c cs hc _ ih =>
    have hopening : c ≠ '(' := ne_of_apply_ne isBlank (hc.trans_ne (by decide))
    have hclosing : c ≠ ')' := ne_of_apply_ne isBlank (hc.trans_ne (by decide))
    rw [lexemes_blank position _ hc] at h
    rw [openedFrom_cons_of_ne hopening hclosing, ih h]
  | @var ts digits cs hd hcs _ ih =>
    rw [lexemes_var position hd hcs] at h
    cases h with
    | step hstep hr =>
      rw [ih hr, opened_of_step hstep, openedFrom_cons_of_ne (by decide) (by decide),
        openedFrom_digits hd]
      rfl
  | @char ts c cs hc hx _ ih =>
    rw [lexemes_char position _ hc hx] at h
    cases h with
    | step hstep hr =>
      rw [ih hr, opened_of_step hstep, pass_ofChar, openedFrom]

theorem lexemes_eq_nil_iff {position : Nat} {cs : List Char} :
    lexemes position cs = [] ↔ ∀ c ∈ cs, isBlank c = true := by
  fun_induction lexemes position cs with
  | case1 position => exact iff_of_true rfl fun _ h => by cases h
  | case2 position cs digits ih =>
    refine iff_of_false (List.cons_ne_nil _ _) fun h => ?_
    exact absurd (h 'x' List.mem_cons_self) (by decide)
  | case3 position c cs hx hc ih => rw [ih, List.forall_mem_cons, and_iff_right hc]
  | case4 position c cs hx hc ih =>
    refine iff_of_false (List.cons_ne_nil _ _) fun h => ?_
    exact hc (h c List.mem_cons_self)

namespace NormalForm

section Located

variable (arity : Nat) (numbering : Numbering) (s : String)

def Accepts : Prop :=
  ∃ f, parse arity numbering s = .ok f

/-- Some text that begins like this is accepted. -/
def Viable : Prop :=
  ∃ more, Accepts arity numbering (s ++ more)

/-- The text is viable up to byte `position` and goes on with `rest`. -/
structure ViableTo (position : Nat) (before : String) (rest : List Char) : Prop where
  text_eq : s = before ++ String.ofList rest
  position_eq : before.utf8ByteSize = position
  viable : Viable arity numbering before

/-- What a fault says about the text. -/
def Located : ParseError → Prop
  | .empty => ∀ c ∈ s.toList, isBlank c = true
  | .unexpectedToken c position => ∃ before after,
      ViableTo arity numbering s position before (c :: after) ∧
      ¬ Viable arity numbering (before.push c)
  | .unexpectedEnd position => position = s.utf8ByteSize ∧ Viable arity numbering s
  | .unclosedParenthesis position =>
      (unmatched s).head? = some position ∧
      Accepts arity numbering (s ++ String.ofList (List.replicate (unmatched s).length ')'))
  | .nestingTooDeep position max => max = 128 ∧ ∃ before after,
      ViableTo arity numbering s position before ('(' :: after) ∧ (unmatched before).length = 128
  | .missingIndex position => ∃ before after,
      ViableTo arity numbering s position before ('x' :: after) ∧
      ∀ c ∈ after.head?, c.isDigit = false
  | .variableOutOfRange digits position min max =>
      min = numbering.first ∧ max = numbering.first + arity - 1 ∧
      ¬ (min ≤ Expr.decimal digits ∧ Expr.decimal digits ≤ max) ∧ ∃ before after,
      ViableTo arity numbering s position before ('x' :: (digits ++ after)) ∧
      digits ≠ [] ∧ (∀ d ∈ digits, d.isDigit = true) ∧ ∀ c ∈ after.head?, c.isDigit = false

end Located

open Keystream.Expr Keystream.Expr.Stage

variable {arity : Nat} {numbering : Numbering} {s : String}

theorem parse_of_blank (h : 0 < arity ∧ arity ≤ 63) (hs : lexemes 0 s.toList = []) :
    parse arity numbering s = .error (.parse .empty) := by
  rw [parse_of_range h, Expr.parse, hs]
  rfl

/-- The parser fails where going lexeme by lexeme fails. -/
theorem parse_eq_run (numbering : Numbering) (h : 0 < arity ∧ arity ≤ 63)
    (hs : lexemes 0 s.toList ≠ []) :
    (parse arity numbering s).map (fun _ => ()) =
      match run arity numbering s.utf8ByteSize start (lexemes 0 s.toList) with
      | .error e => .error (.parse e)
      | .ok () => .ok () := by
  rw [← ofLexemes_eq_run hs, parse_of_range h, Expr.parse]
  cases ofLexemes arity numbering s.utf8ByteSize (lexemes 0 s.toList) <;> rfl

theorem accepts_iff (h : 0 < arity ∧ arity ≤ 63) :
    Accepts arity numbering s ↔
      run arity numbering s.utf8ByteSize start (lexemes 0 s.toList) = .ok () := by
  by_cases hs : lexemes 0 s.toList = []
  · rw [Accepts, parse_of_blank h hs, hs]
    exact iff_of_false (fun ⟨_, hf⟩ => by cases hf) fun hrun => by cases hrun
  · have heq := parse_eq_run numbering h hs
    rw [Accepts]
    constructor
    · rintro ⟨f, hf⟩
      rw [hf] at heq
      split at heq
      · cases heq
      · next hrun => exact hrun
    · intro hrun
      rw [hrun] at heq
      cases hf : parse arity numbering s with
      | error e =>
        rw [hf] at heq
        cases heq
      | ok f => exact ⟨f, rfl⟩

theorem unmatched_eq {τ : Stage} (hr : Reaches arity numbering start (lexemes 0 s.toList) τ) :
    unmatched s = τ.opened :=
  (hr.opened_eq (layout_lexemes 0 s.toList)).symm

theorem layout_closings (k : Nat) :
    Layout (List.replicate k .closing) (List.replicate k ')') := by
  induction k with
  | zero => exact .done
  | succ k ih => exact .char (c := ')') (by decide) (by decide) ih

theorem accepts_closings (h : 0 < arity ∧ arity ≤ 63) {opened : List Nat}
    (hr : Reaches arity numbering start (lexemes 0 s.toList) ⟨opened, true⟩) :
    Accepts arity numbering (s ++ String.ofList (List.replicate opened.length ')')) := by
  have hhead : ∀ c ∈ (List.replicate opened.length ')').head?, c.isDigit = false := by
    cases opened with
    | nil => exact fun c hc => by cases hc
    | cons position opened =>
      rintro c ⟨⟩
      decide
  rw [accepts_iff h, String.toList_append, String.toList_ofList,
    (layout_lexemes 0 s.toList).lexemes_append hhead, hr.run_append]
  exact run_closings (map_token_lexemes (layout_closings _) _)

/-- What has been read without a fault is viable. -/
theorem viable_of_reaches (h : 0 < arity ∧ arity ≤ 63) {τ : Stage}
    (hr : Reaches arity numbering start (lexemes 0 s.toList) τ) : Viable arity numbering s := by
  obtain ⟨opened, complete⟩ := τ
  cases complete with
  | true => exact ⟨_, accepts_closings h hr⟩
  | false =>
    have hhead : ∀ c ∈ [' ', '0'].head?, c.isDigit = false := by
      rintro c ⟨⟩
      decide
    have hzero : Reaches arity numbering start (lexemes 0 (s ++ " 0").toList) ⟨opened, true⟩ := by
      rw [String.toList_append, show " 0".toList = [' ', '0'] from rfl,
        (layout_lexemes 0 s.toList).lexemes_append hhead, lexemes_blank _ _ (by decide),
        lexemes_char _ _ (by decide) (by decide), lexemes]
      exact hr.trans (.step rfl (.refl _))
    have haccepts := accepts_closings h hzero
    rw [String.append_assoc] at haccepts
    exact ⟨_, haccepts⟩

/-- No text is accepted that goes on with a lexeme that is refused. -/
theorem not_viable_of_step (h : 0 < arity ∧ arity ≤ 63) {before : String} {c : Char}
    {read : List Lexeme} {τ : Stage} {e : ParseError} (hc : isBlank c = false) (hx : c ≠ 'x')
    (hcut : Cut 0 before.toList c read) (hr : Reaches arity numbering start read τ)
    (hstep : τ.step arity numbering ⟨.ofChar c, 0 + String.utf8Len before.toList⟩ = .error e) :
    ¬ Viable arity numbering (before.push c) := by
  rintro ⟨more, haccepts⟩
  rw [accepts_iff h, String.toList_append, String.toList_push, List.append_assoc,
    List.singleton_append, hcut.lexemes_cons, hr.run_append, lexemes_char _ _ hc hx, run, hstep]
    at haccepts
  cases haccepts

/-- A lexeme that is refused is the fault that is found. -/
theorem located_of_step (h : 0 < arity ∧ arity ≤ 63) {read post : List Lexeme} {l : Lexeme}
    {τ : Stage} {e : ParseError} (hl : lexemes 0 s.toList = read ++ l :: post)
    (hr : Reaches arity numbering start read τ) (hstep : τ.step arity numbering l = .error e) :
    Located arity numbering s e := by
  obtain ⟨cs, rest, hs, hbegins, hcut⟩ := (layout_lexemes 0 s.toList).exists_cut hl
  have hreach : Reaches arity numbering start (lexemes 0 (String.ofList cs).toList) τ := by
    rw [String.toList_ofList, hcut.lexemes_before]
    exact hr
  have hto : ViableTo arity numbering s l.position (String.ofList cs) rest := by
    refine ⟨?_, ?_, viable_of_reaches h hreach⟩
    · rw [← String.ofList_append, ← hs, String.ofList_toList]
    · rw [String.utf8ByteSize_ofList, hbegins.position_eq, Nat.zero_add]
  cases hbegins with
  | var hd hcs =>
    obtain ⟨digits, htoken, hread⟩ | ⟨htoken, -⟩ | ⟨hnot, -⟩ := step_eq_error hstep
    · obtain rfl := Token.var.inj htoken
      obtain ⟨rfl, rfl⟩ | ⟨hne, rfl, hrange⟩ := readVariable_eq_error hread
      · exact ⟨_, _, hto, hcs⟩
      · refine ⟨rfl, rfl, ?_, _, _, hto, hne, hd, hcs⟩
        have hpos := h.1
        omega
    · cases htoken
    · exact absurd rfl (hnot _)
  | @char c after hc hx =>
    rw [Token.head_ofChar] at hcut
    obtain ⟨digits, htoken, -⟩ | ⟨htoken, hdeep, rfl⟩ | ⟨-, rfl⟩ := step_eq_error hstep
    · exact absurd (Token.eq_head_of_ofChar htoken) hx
    · obtain rfl : c = '(' := Token.eq_head_of_ofChar htoken
      refine ⟨rfl, _, _, hto, ?_⟩
      rw [unmatched_eq hreach]
      exact hdeep
    · rw [Token.head_ofChar]
      refine ⟨_, _, hto, ?_⟩
      rw [← String.toList_ofList (l := cs)] at hcut hstep
      exact not_viable_of_step h hc hx hcut hr hstep

/-- The end of the text is the fault that is found. -/
theorem located_of_finish (h : 0 < arity ∧ arity ≤ 63) {τ : Stage} {e : ParseError}
    (hr : Reaches arity numbering start (lexemes 0 s.toList) τ)
    (hfinish : τ.finish s.utf8ByteSize = .error e) : Located arity numbering s e := by
  obtain ⟨opened, complete⟩ := τ
  obtain ⟨-, rfl⟩ | ⟨hcomplete, position, rest, hopened, rfl⟩ := finish_eq_error hfinish
  · exact ⟨rfl, viable_of_reaches h hr⟩
  · obtain rfl : complete = true := hcomplete
    rw [Located, unmatched_eq hr]
    refine ⟨?_, accepts_closings h hr⟩
    rw [show opened = position :: rest from hopened, List.head?_cons]

theorem located_of_run (h : 0 < arity ∧ arity ≤ 63) {e : ParseError}
    (hrun : run arity numbering s.utf8ByteSize start (lexemes 0 s.toList) = .error e) :
    Located arity numbering s e := by
  obtain ⟨τ, hr, hfinish⟩ | ⟨read, l, rest, τ, hl, hr, hstep⟩ := exists_of_run_eq_error hrun
  · exact located_of_finish h hr hfinish
  · exact located_of_step h hl hr hstep

/-- A text is empty of expressions exactly if it is blank, and every other fault is located. -/
theorem faults_located (hpos : 0 < arity) (hle : arity ≤ 63) (numbering : Numbering) (s : String) :
    (parse arity numbering s = .error (.parse .empty) ↔ ∀ c ∈ s.toList, isBlank c = true) ∧
    ∀ e, parse arity numbering s = .error e →
      ∃ fault, e = .parse fault ∧ Located arity numbering s fault := by
  have hlocated : ∀ e, parse arity numbering s = .error e →
      ∃ fault, e = .parse fault ∧ Located arity numbering s fault := by
    intro e he
    by_cases hs : lexemes 0 s.toList = []
    · rw [parse_of_blank ⟨hpos, hle⟩ hs] at he
      exact ⟨.empty, (Except.error.inj he).symm, lexemes_eq_nil_iff.1 hs⟩
    · have heq := parse_eq_run numbering ⟨hpos, hle⟩ hs
      rw [he] at heq
      split at heq
      · next fault hrun =>
        exact ⟨fault, Except.error.inj heq, located_of_run ⟨hpos, hle⟩ hrun⟩
      · cases heq
  refine ⟨⟨?_, ?_⟩, hlocated⟩
  · intro he
    obtain ⟨fault, hfault, hplace⟩ := hlocated _ he
    obtain rfl := Error.parse.inj hfault
    exact hplace
  · intro hblank
    exact parse_of_blank ⟨hpos, hle⟩ (lexemes_eq_nil_iff.2 hblank)

theorem eq_error_of_match {α : Type} {x : Except Error α} {e : Error}
    (h : (match x with | .error e' => decide (e' = e) | .ok _ => false) = true) : x = .error e := by
  cases x with
  | error e' => rw [of_decide_eq_true h]
  | ok a => cases h

/-- A letter that stands for nothing after six bytes that could have gone on, and a blank text. -/
theorem faults_located_example :
    0 < 3 ∧ 3 ≤ 63 ∧
    (parse 3 .fromOne "(x1 + é) x9" = .error (.parse (.unexpectedToken 'é' 6)) ∧
      Located 3 .fromOne "(x1 + é) x9" (.unexpectedToken 'é' 6)) ∧
    parse 3 .fromOne "   " = .error (.parse .empty) := by
  have herror : parse 3 .fromOne "(x1 + é) x9" = .error (.parse (.unexpectedToken 'é' 6)) :=
    eq_error_of_match (by decide +kernel)
  have hspaces : "   ".toList.all isBlank = true := by decide +kernel
  obtain ⟨-, hlocated⟩ := faults_located (by decide : 0 < 3) (by decide) .fromOne "(x1 + é) x9"
  obtain ⟨hblank, -⟩ := faults_located (by decide : 0 < 3) (by decide) .fromOne "   "
  obtain ⟨fault, hfault, hplace⟩ := hlocated _ herror
  obtain rfl := Error.parse.inj hfault
  exact ⟨by decide, by decide, ⟨herror, hplace⟩, hblank.2 (List.all_eq_true.1 hspaces)⟩

end NormalForm

end Keystream
