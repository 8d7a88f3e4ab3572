import Keystream.Proofs.Readers

/-!
# Reading lexeme by lexeme

All that the readers remember between two lexemes is which parentheses are open and whether the sum
that is being read could end here. Such a stage goes from lexeme to lexeme without descending into
groups, and the readers fail exactly where it does, with the same fault.
-/

namespace Keystream

theorem Token.eq_head_of_ofChar {c : Char} {t : Token} (h : ofChar c = t) : c = t.head := by
  rw [← h, head_ofChar]

namespace Expr

section Rests

variable {n : Nat} {numbering : Numbering} {stop : Nat} {inside : Nat → Reader (Expr n .sum)}

theorem EndsSum.closing_or_stray {token : Token} {position : Nat} {rest : List Lexeme}
    (h : EndsSum (⟨token, position⟩ :: rest)) : token = .closing ∨ ∃ c, token = .stray c := by
  obtain ⟨hfactor, hplus⟩ := h ⟨token, position⟩ rfl
  cases token with
  | closing => exact .inl rfl
  | stray c => exact .inr ⟨c, rfl⟩
  | plus => exact absurd rfl hplus
  | zero | one | var | opening => cases hfactor

theorem atFactor_of_readFactors {bound : Nat} {p : Expr n .product} {input : List Lexeme}
    {hb : input.length < bound} {r : Reading (Expr n .product) bound}
    (h : readFactors numbering stop inside p input hb = .ok r) : atFactor r.rest = false := by
  fun_induction readFactors numbering stop inside p input hb with
  | case1 => cases h
  | case2 p input hb _ f rest hr hf ih => exact ih h
  | case3 p input hb hnot =>
    cases h
    exact Bool.eq_false_iff.2 hnot

theorem atFactor_of_readProduct {input : List Lexeme}
    {r : Reading (Expr n .product) input.length}
    (h : readProduct numbering stop inside input = .ok r) : atFactor r.rest = false := by
  unfold readProduct at h
  split at h
  · cases h
  · exact atFactor_of_readFactors h

theorem endsSum_of_readTerms {bound : Nat} {s : Expr n .sum} {input : List Lexeme}
    {hb : input.length < bound} (hinput : atFactor input = false) {r : Reading (Expr n .sum) bound}
    (h : readTerms numbering stop inside s input hb = .ok r) : EndsSum r.rest := by
  fun_induction readTerms numbering stop inside s input hb with
  | case1 => cases h
  | case2 s position rest _ p after ha hp _ ih => exact ih (atFactor_of_readProduct hp) h
  | case3 s input hb hplus =>
    cases h
    intro next hnext
    cases input with
    | nil => cases hnext
    | cons first rest =>
      obtain rfl : first = next := Option.some.inj hnext
      refine ⟨hinput, ?_⟩
      intro hp
      obtain ⟨token, position⟩ := first
      obtain rfl : token = .plus := hp
      exact hplus position rest hb rfl HEq.rfl

theorem endsSum_of_readSum {input : List Lexeme} {r : Reading (Expr n .sum) input.length}
    (h : readSum numbering stop inside input = .ok r) : EndsSum r.rest := by
  unfold readSum at h
  split at h
  · cases h
  · next hp => exact endsSum_of_readTerms (atFactor_of_readProduct hp) h

theorem endsSum_of_readGroup (room position : Nat) (input : List Lexeme)
    (r : Reading (Expr n .sum) input.length)
    (h : readGroup numbering stop room position input = .ok r) : EndsSum r.rest := by
  cases room with
  | zero => cases h
  | succ room => exact endsSum_of_readSum h

end Rests

/-- The positions of the open parentheses, the innermost first, and whether the sum is complete. -/
structure Stage where
  opened : List Nat
  complete : Bool

namespace Stage

section Steps

variable (n : Nat) (numbering : Numbering) (stop : Nat)

def start : Stage :=
  ⟨[], false⟩

def step (σ : Stage) (l : Lexeme) : Except ParseError Stage :=
  match l.token with
  | .zero => .ok ⟨σ.opened, true⟩
  | .one => .ok ⟨σ.opened, true⟩
  | .var digits =>
    match readVariable n numbering digits l.position with
    | .error e => .error e
    | .ok _ => .ok ⟨σ.opened, true⟩
  | .opening =>
    if σ.opened.length = maxNesting then .error (.nestingTooDeep l.position maxNesting)
    else .ok ⟨l.position :: σ.opened, false⟩
  | .plus =>
    if σ.complete then .ok ⟨σ.opened, false⟩ else .error (.unexpectedToken '+' l.position)
  | .closing =>
    match σ.complete, σ.opened with
    | true, _ :: opened => .ok ⟨opened, true⟩
    | _, _ => .error (.unexpectedToken ')' l.position)
  | .stray c => .error (.unexpectedToken c l.position)

/-- What the end of a text of `stop` bytes makes of a stage. -/
def finish (σ : Stage) : Except ParseError Unit :=
  match σ.complete, σ.opened with
  | false, _ => .error (.unexpectedEnd stop)
  | true, [] => .ok ()
  | true, position :: _ => .error (.unclosedParenthesis position)

/-- Goes on to the end of the text. -/
def run (σ : Stage) : List Lexeme → Except ParseError Unit
  | [] => σ.finish stop
  | l :: input =>
    match σ.step n numbering l with
    | .error e => .error e
    | .ok σ => σ.run input

/-- Goes on behind what a reader has read, inside the same parentheses. -/
def resume (opened : List Nat) {α : Type} {bound : Nat} :
    Except ParseError (Reading α bound) → Except ParseError Unit
  | .error e => .error e
  | .ok r => run n numbering stop ⟨opened, true⟩ r.rest

end Steps

variable {n : Nat} {numbering : Numbering} {stop : Nat} {inside : Nat → Reader (Expr n .sum)}
  {opened : List Nat}

theorem step_var (σ : Stage) (digits : List Char) (position : Nat) :
    σ.step n numbering ⟨.var digits, position⟩ =
      match readVariable n numbering digits position with
      | .error e => .error e
      | .ok _ => .ok ⟨σ.opened, true⟩ := rfl

theorem step_opening (σ : Stage) (position : Nat) :
    σ.step n numbering ⟨.opening, position⟩ =
      if σ.opened.length = maxNesting then .error (.nestingTooDeep position maxNesting)
      else .ok ⟨position :: σ.opened, false⟩ := rfl

section Agreement

variable (hin : ∀ position rest complete,
    run n numbering stop ⟨opened, complete⟩ (⟨.opening, position⟩ :: rest) =
      resume n numbering stop (position :: opened) (inside position rest))
  (hends : ∀ position rest r, inside position rest = .ok r → EndsSum r.rest)
include hin hends

/-- A stage that needs a factor, or stands before one, fails where the reader fails. -/
theorem run_readFactor {complete : Bool} {input : List Lexeme}
    (h : complete = false ∨ atFactor input = true) :
    run n numbering stop ⟨opened, complete⟩ input =
      resume n numbering stop opened (readFactor numbering stop inside input) := by
  have hneeds : atFactor input = false → complete = false := by
    intro hat
    rw [hat] at h
    exact h.resolve_right Bool.false_ne_true
  rcases input with _ | ⟨⟨token, position⟩, rest⟩
  · obtain rfl := hneeds rfl
    rfl
  · cases token with
    | zero => rfl
    | one => rfl
    | plus =>
      obtain rfl := hneeds rfl
      rfl
    | closing =>
      obtain rfl := hneeds rfl
      rfl
    | stray c => rfl
    | var digits =>
      rw [run, step_var, readFactor]
      cases readVariable n numbering digits position <;> rfl
    | opening =>
      rw [hin, readFactor]
      cases hr : inside position rest with
      | error e => rfl
      | ok r =>
        obtain ⟨e, _ | ⟨⟨token, found⟩, after⟩, hlt⟩ := r
        · rfl
        · obtain rfl | ⟨c, rfl⟩ := (hends _ _ _ hr).closing_or_stray
          · rfl
          · rfl

theorem run_readFactors {bound : Nat} (p : Expr n .product) (input : List Lexeme)
    (hb : input.length < bound) :
    run n numbering stop ⟨opened, true⟩ input =
      resume n numbering stop opened (readFactors numbering stop inside p input hb) := by
  fun_induction readFactors numbering stop inside p input hb with
  | case1 p input hb hat e he =>
    rw [run_readFactor hin hends (.inr hat), he]
    rfl
  | case2 p input hb hat f rest hr hf ih =>
    rw [run_readFactor hin hends (.inr hat), hf]
    exact ih
  | case3 p input hb hnot => rfl

theorem run_readProduct (input : List Lexeme) :
    run n numbering stop ⟨opened, false⟩ input =
      resume n numbering stop opened (readProduct numbering stop inside input) := by
  rw [run_readFactor hin hends (.inl rfl), readProduct]
  cases hf : readFactor numbering stop inside input with
  | error e => rfl
  | ok r => exact run_readFactors hin hends (.single r.value) r.rest r.rest_lt

theorem run_readTerms {bound : Nat} (s : Expr n .sum) (input : List Lexeme)
    (hb : input.length < bound) :
    run n numbering stop ⟨opened, true⟩ input =
      resume n numbering stop opened (readTerms numbering stop inside s input hb) := by
  fun_induction readTerms numbering stop inside s input hb with
  | case1 s position rest hb e he =>
    change run n numbering stop ⟨opened, false⟩ rest = _
    rw [run_readProduct hin hends, he]
    rfl
  | case2 s position rest hb p after ha hp _ ih =>
    change run n numbering stop ⟨opened, false⟩ rest = _
    rw [run_readProduct hin hends, hp]
    exact ih
  | case3 s input hb hplus => rfl

theorem run_readSum (input : List Lexeme) :
    run n numbering stop ⟨opened, false⟩ input =
      resume n numbering stop opened (readSum numbering stop inside input) := by
  rw [run_readProduct hin hends, readSum]
  cases hp : readProduct numbering stop inside input with
  | error e => rfl
  | ok r => exact run_readTerms hin hends (.term r.value) r.rest r.rest_lt

end Agreement

/-- The groups that may still open and those that are open are as many as may nest. -/
theorem run_readGroup {room : Nat} (hroom : opened.length + room = maxNesting) (position : Nat)
    (rest : List Lexeme) (complete : Bool) :
    run n numbering stop ⟨opened, complete⟩ (⟨.opening, position⟩ :: rest) =
      resume n numbering stop (position :: opened)
        (readGroup (n := n) numbering stop room position rest) := by
  induction room generalizing opened position rest complete with
  | zero =>
    rw [run, step_opening, if_pos (show opened.length = maxNesting from hroom)]
    rfl
  | succ room ih =>
    have hne : opened.length ≠ maxNesting := by omega
    have hnext : (position :: opened).length + room = maxNesting := by
      rw [List.length_cons]
      omega
    rw [run, step_opening, if_neg hne]
    exact run_readSum (ih hnext) (endsSum_of_readGroup room) rest

theorem ofLexemes_eq_run {input : List Lexeme} (hne : input ≠ []) :
    (ofLexemes n numbering stop input).map (fun _ => ()) = run n numbering stop start input := by
  cases input with
  | nil => exact absurd rfl hne
  | cons first input =>
    have hroom : ([] : List Nat).length + maxNesting = maxNesting := Nat.zero_add maxNesting
    rw [start, run_readSum (run_readGroup hroom) (endsSum_of_readGroup maxNesting), ofLexemes]
    cases hr : readSum numbering stop (readGroup (n := n) numbering stop maxNesting)
        (first :: input) with
    | error e => rfl
    | ok r =>
      obtain ⟨e, _ | ⟨⟨token, position⟩, after⟩, hlt⟩ := r
      · rfl
      · obtain rfl | ⟨c, rfl⟩ := (endsSum_of_readSum hr).closing_or_stray
        · rfl
        · rfl

/-- The lexemes lead from one stage to another. -/
inductive Reaches (n : Nat) (numbering : Numbering) : Stage → List Lexeme → Stage → Prop where
  | refl (σ : Stage) : Reaches n numbering σ [] σ
  | step {σ τ υ : Stage} {l : Lexeme} {input : List Lexeme} (h : σ.step n numbering l = .ok τ)
      (hr : Reaches n numbering τ input υ) : Reaches n numbering σ (l :: input) υ

theorem Reaches.trans {σ τ υ : Stage} {read more : List Lexeme}
    (h : Reaches n numbering σ read τ) (hmore : Reaches n numbering τ more υ) :
    Reaches n numbering σ (read ++ more) υ := by
  induction h with
  | refl => exact hmore
  | step h _ ih => exact .step h (ih hmore)

theorem Reaches.run_append {σ τ : Stage} {read : List Lexeme} (h : Reaches n numbering σ read τ)
    (rest : List Lexeme) :
    run n numbering stop σ (read ++ rest) = run n numbering stop τ rest := by
  induction h with
  | refl => rfl
  | step h _ ih =>
    rw [List.cons_append, run, h]
    exact ih

/-- A run that fails has been refused a lexeme or the end of the text. -/
theorem exists_of_run_eq_error {σ : Stage} {input : List Lexeme} {e : ParseError}
    (h : run n numbering stop σ input = .error e) :
    (∃ τ, Reaches n numbering σ input τ ∧ τ.finish stop = .error e) ∨
    ∃ read l rest τ, input = read ++ l :: rest ∧ Reaches n numbering σ read τ ∧
      τ.step n numbering l = .error e := by
  induction input generalizing σ with
  | nil => exact .inl ⟨σ, .refl σ, h⟩
  | cons l input ih =>
    rw [run] at h
    cases hstep : σ.step n numbering l with
    | error e' =>
      rw [hstep] at h
      obtain rfl := Except.error.inj h
      exact .inr ⟨[], l, input, σ, rfl, .refl σ, hstep⟩
    | ok τ =>
      rw [hstep] at h
      obtain ⟨υ, hr, hfinish⟩ | ⟨read, m, rest, υ, rfl, hr, hm⟩ := ih h
      · exact .inl ⟨υ, .step hstep hr, hfinish⟩
      · exact .inr ⟨l :: read, m, rest, υ, rfl, .step hstep hr, hm⟩

theorem readVariable_eq_error {digits : List Char} {position : Nat} {e : ParseError}
    (h : readVariable n numbering digits position = .error e) :
    (digits = [] ∧ e = .missingIndex position) ∨
    (digits ≠ [] ∧ e = .variableOutOfRange digits position numbering.first
        (numbering.first + n - 1) ∧
      ¬ (numbering.first ≤ decimal digits ∧ decimal digits < numbering.first + n)) := by
  unfold readVariable at h
  split at h
  · next hd => exact .inl ⟨hd, (Except.error.inj h).symm⟩
  · next hd =>
    split at h
    · cases h
    · next hrange => exact .inr ⟨hd, (Except.error.inj h).symm, hrange⟩

/-- The parentheses that are open behind a lexeme. -/
def pass (l : Lexeme) (opened : List Nat) : List Nat :=
  match l.token with
  | .opening => l.position :: opened
  | .closing => opened.tail
  | _ => opened

theorem pass_ofChar (c : Char) (position : Nat) (opened : List Nat) :
    pass ⟨.ofChar c, position⟩ opened =
      if c = '(' then position :: opened else if c = ')' then opened.tail else opened := by
  by_cases ho : c = '('
  · subst ho
    rfl
  · by_cases hc : c = ')'
    · subst hc
      rfl
    · rw [if_neg ho, if_neg hc, pass]
      split
      · next ht => exact absurd (Token.eq_head_of_ofChar ht) ho
      · next ht => exact absurd (Token.eq_head_of_ofChar ht) hc
      · rfl

/-- A lexeme is passed, or refused for its index, as one parenthesis too many or where it stands. -/
theorem step_cases (n : Nat) (numbering : Numbering) (σ : Stage) (l : Lexeme) :
    (∃ complete, σ.step n numbering l = .ok ⟨pass l σ.opened, complete⟩) ∨
    (∃ digits e, l.token = .var digits ∧ readVariable n numbering digits l.position = .error e ∧
      σ.step n numbering l = .error e) ∨
    (l.token = .opening ∧ σ.opened.length = maxNesting ∧
      σ.step n numbering l = .error (.nestingTooDeep l.position maxNesting)) ∨
    ((∀ digits, l.token ≠ .var digits) ∧
      σ.step n numbering l = .error (.unexpectedToken l.token.head l.position)) := by
  obtain ⟨token, position⟩ := l
  obtain ⟨opened, complete⟩ := σ
  cases token with
  | zero => exact .inl ⟨true, rfl⟩
  | one => exact .inl ⟨true, rfl⟩
  | var digits =>
    cases hv : readVariable n numbering digits position with
    | error e => exact .inr (.inl ⟨digits, e, rfl, hv, by rw [step_var, hv]⟩)
    | ok i => exact .inl ⟨true, by rw [step_var, hv]; rfl⟩
  | opening =>
    by_cases hdeep : opened.length = maxNesting
    · exact .inr (.inr (.inl ⟨rfl, hdeep, if_pos hdeep⟩))
    · exact .inl ⟨false, if_neg hdeep⟩
  | plus =>
    cases complete with
    | true => exact .inl ⟨false, rfl⟩
    | false => exact .inr (.inr (.inr ⟨fun _ heq => (by cases heq), rfl⟩))
  | closing =>
    cases complete with
    | true =>
      cases opened with
      | nil => exact .inr (.inr (.inr ⟨fun _ heq => (by cases heq), rfl⟩))
      | cons position opened => exact .inl ⟨true, rfl⟩
    | false => exact .inr (.inr (.inr ⟨fun _ heq => (by cases heq), rfl⟩))
  | stray c => exact .inr (.inr (.inr ⟨fun _ heq => (by cases heq), rfl⟩))

theorem opened_of_step {σ τ : Stage} {l : Lexeme} (h : σ.step n numbering l = .ok τ) :
    τ.opened = pass l σ.opened := by
  obtain ⟨complete, hok⟩ | ⟨_, _, -, -, herror⟩ | ⟨-, -, herror⟩ | ⟨-, herror⟩ :=
    σ.step_cases n numbering l
  · rw [hok] at h
    obtain rfl := Except.ok.inj h
    rfl
  all_goals
    rw [herror] at h
    cases h

theorem step_eq_error {σ : Stage} {l : Lexeme} {e : ParseError}
    (h : σ.step n numbering l = .error e) :
    (∃ digits, l.token = .var digits ∧ readVariable n numbering digits l.position = .error e) ∨
    (l.token = .opening ∧ σ.opened.length = maxNesting ∧
      e = .nestingTooDeep l.position maxNesting) ∨
    ((∀ digits, l.token ≠ .var digits) ∧ e = .unexpectedToken l.token.head l.position) := by
  obtain ⟨complete, hok⟩ | ⟨digits, e', ht, hv, herror⟩ | ⟨ht, hdeep, herror⟩ | ⟨ht, herror⟩ :=
    σ.step_cases n numbering l
  · rw [hok] at h
    cases h
  all_goals
    rw [herror] at h
    obtain rfl := Except.error.inj h
  · exact .inl ⟨digits, ht, hv⟩
  · exact .inr (.inl ⟨ht, hdeep, rfl⟩)
  · exact .inr (.inr ⟨ht, rfl⟩)

theorem finish_eq_error {σ : Stage} {e : ParseError} (h : σ.finish stop = .error e) :
    (σ.complete = false ∧ e = .unexpectedEnd stop) ∨
    (σ.complete = true ∧ ∃ position opened, σ.opened = position :: opened ∧
      e = .unclosedParenthesis position) := by
  obtain ⟨opened, complete⟩ := σ
  cases complete with
  | false => exact .inl ⟨rfl, (Except.error.inj h).symm⟩
  | true =>
    cases opened with
    | nil => cases h
    | cons position opened => exact .inr ⟨rfl, position, opened, rfl, (Except.error.inj h).symm⟩

/-- As many parentheses as are open complete a text whose sum is complete. -/
theorem run_closings {input : List Lexeme}
    (h : input.map Lexeme.token = List.replicate opened.length .closing) :
    run n numbering stop ⟨opened, true⟩ input = .ok () := by
  induction opened generalizing input with
  | nil =>
    obtain rfl : input = [] := List.map_eq_nil_iff.1 h
    rfl
  | cons position opened ih =>
    obtain ⟨⟨token, found⟩, input, rfl, rfl, hrest⟩ := List.map_eq_cons_iff.1 h
    exact ih hrest

end Stage

end Expr

end Keystream
