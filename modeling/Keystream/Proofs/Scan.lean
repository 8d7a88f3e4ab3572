import Keystream.NormalForm.Text
import Keystream.Proofs.Operators
import Keystream.Proofs.Scanner

/-!
# Reading character by character

The procedures here read from a scanner and know neither lexemes nor trees: blanks are passed when
the next character is looked at, the counter goes up before a sum in parentheses and down behind it,
and normal forms are multiplied and added up on the way. Nothing makes such a procedure return. It
is run with a limit on the calls that may be open at once, and with another one on those among them
that read a sum in parentheses, and has no outcome where it exceeds a limit. `Ends` says that it
returns: its outcome is the same under all limits that are large enough.
-/

namespace Keystream

/-- What reads from a scanner, if it returns. -/
abbrev Scan := ExceptT Error (StateT Scanner Option)

namespace Scan

variable {α β : Type}

def refuse (e : ParseError) : Scan α :=
  throw (.parse e)

def exceed : Scan α :=
  fun _ => none

/-- The next character that is not blank, with its position. -/
def peek : Scan (Option (Char × Nat)) :=
  modifyGet fun σ => ((σ.skip isBlank).front, σ.skip isBlank)

/-- Whether the next character that is not blank is one of these. -/
def ahead (cs : List Char) : Scan Bool := do
  let _ ← peek
  return (← get).isAt cs

def advance : Scan Unit :=
  modify Scanner.next

def digits : Scan (List Char) :=
  modifyGet fun σ => (σ.unread.takeWhile Char.isDigit, σ.skip Char.isDigit)

/-- The first operand after the operator has been applied in place. -/
def assign (op : NormalForm.Operator) (f g : NormalForm) : Scan NormalForm :=
  match op.assign f g with
  | (.ok (), h) => return h
  | (.error e, _) => throw e

end Scan

inductive Procedure where
  /-- Reads a sum, a product or a factor. -/
  | read (l : Level)
  /-- Multiplies what has been read by all factors that follow. -/
  | multiply (f : NormalForm)
  /-- Adds to what has been read all products that follow, each behind a plus. -/
  | add (f : NormalForm)

namespace Procedure

open Scan

section Definition

variable (n : Nat) (numbering : Numbering) (stop : Nat)

/-- Reads the index of the variable whose letter x stands at `position`. -/
def index (position : Nat) : Scan NormalForm := do
  match Expr.readVariable n numbering (← digits) position with
  | .error e => refuse e
  | .ok i => NormalForm.ofVariable n i

/-- Goes on behind the sum in parentheses, the first of which stands at `position`. -/
def close (position : Nat) (f : NormalForm) : Scan NormalForm := do
  modify Scanner.leave
  match ← peek with
  | none => refuse (.unclosedParenthesis position)
  | some (c, found) =>
    if c = ')' then
      advance
      return f
    else refuse (.unexpectedToken c found)

def group (inside : Scan NormalForm) (position : Nat) : Scan NormalForm := do
  if (← get).depth = Expr.maxNesting then refuse (.nestingTooDeep position Expr.maxNesting)
  else
    advance
    modify Scanner.enter
    close position (← inside)

/-- Reads one factor of a text that ends at byte `stop`. -/
def factor (inside : Scan NormalForm) : Scan NormalForm := do
  match ← peek with
  | none => refuse (.unexpectedEnd stop)
  | some (c, position) =>
    if c = '0' then
      advance
      NormalForm.zero n
    else if c = '1' then
      advance
      NormalForm.one n
    else if c = 'x' then
      advance
      index n numbering position
    else if c = '(' then group inside position
    else refuse (.unexpectedToken c position)

/-- What a procedure does, with `levels` levels of parentheses left for the procedures it calls. -/
def body (call : Nat → Procedure → Scan NormalForm) (levels : Nat) :
    Procedure → Scan NormalForm
  | read .factor =>
    factor n numbering stop (if levels = 0 then exceed else call (levels - 1) (read .sum))
  | multiply f => do
    if ← ahead ['0', '1', 'x', '('] then
      let g ← call levels (read .factor)
      call levels (multiply (← assign .and f g))
    else return f
  | read .product => do
    call levels (multiply (← call levels (read .factor)))
  | add f => do
    if ← ahead ['+'] then
      advance
      let g ← call levels (read .product)
      call levels (add (← assign .xor f g))
    else return f
  | read .sum => do
    call levels (add (← call levels (read .product)))

/-- Runs a procedure with at most `calls` calls open at once. -/
def run : Nat → Nat → Procedure → Scan NormalForm
  | 0, _, _ => exceed
  | calls + 1, levels, p => body n numbering stop (run calls) levels p

def finish (f : NormalForm) : Scan NormalForm := do
  match ← peek with
  | none => return f
  | some (c, position) => refuse (.unexpectedToken c position)

/-- Reads a whole text. -/
def parse (calls levels : Nat) : Scan NormalForm := do
  match ← peek with
  | none => refuse .empty
  | some _ => finish (← run n numbering stop calls levels (read .sum))

end Definition

end Procedure

namespace Scan

variable {α β : Type}

/-- From `σ` there is one outcome under all limits on calls that are large enough and all limits on
parentheses from `room` on, and `Q` holds of it. -/
def Ends (x : Nat → Nat → Scan α) (room : Nat) (σ : Scanner)
    (Q : Except Error α → Scanner → Prop) : Prop :=
  ∃ r τ, (∃ enough, ∀ calls levels, enough ≤ calls → room ≤ levels →
    x calls levels σ = some (r, τ)) ∧ Q r τ

theorem modify_bind (g : Scanner → Scanner) (f : Unit → Scan α) (σ : Scanner) :
    ((modify g : Scan Unit) >>= f) σ = f () (g σ) := rfl

theorem advance_bind (f : Unit → Scan α) (σ : Scanner) : (advance >>= f) σ = f () σ.next := rfl

theorem peek_bind (f : Option (Char × Nat) → Scan α) (σ : Scanner) :
    (peek >>= f) σ = f (σ.skip isBlank).front (σ.skip isBlank) := rfl

theorem ahead_bind (cs : List Char) (f : Bool → Scan α) (σ : Scanner) :
    (ahead cs >>= f) σ = f ((σ.skip isBlank).isAt cs) (σ.skip isBlank) := rfl

theorem digits_bind (f : List Char → Scan α) (σ : Scanner) :
    (digits >>= f) σ = f (σ.unread.takeWhile Char.isDigit) (σ.skip Char.isDigit) := rfl

theorem assign_bind {op : NormalForm.Operator} {f g h : NormalForm} (hop : op.apply f g = .ok h)
    (k : NormalForm → Scan α) (σ : Scanner) : (assign op f g >>= k) σ = k h σ := by
  rw [assign, NormalForm.Operator.assign_eq, hop]
  rfl

end Scan

namespace Procedure

open Scan

section Equations

variable {n : Nat} {numbering : Numbering} {stop position : Nat} {inside : Scan NormalForm}
  {σ : Scanner} {f : NormalForm} {c : Char} {cs : List Char}

theorem index_of_error {e : ParseError}
    (h : Expr.readVariable n numbering (σ.unread.takeWhile Char.isDigit) position = .error e) :
    index n numbering position σ = some (.error (.parse e), σ.skip Char.isDigit) := by
  rw [index, digits_bind, h]
  rfl

theorem index_of_ok {i : Fin n}
    (h : Expr.readVariable n numbering (σ.unread.takeWhile Char.isDigit) position = .ok i)
    (hf : NormalForm.ofVariable n i = .ok f) :
    index n numbering position σ = some (.ok f, σ.skip Char.isDigit) := by
  rw [index, digits_bind, h]
  simp only [hf]
  rfl

theorem close_of_nil (h : (σ.leave.skip isBlank).unread = []) :
    close position f σ =
      some (.error (.parse (.unclosedParenthesis position)), σ.leave.skip isBlank) := by
  rw [close, modify_bind, peek_bind, Scanner.front_of_nil h]
  rfl

theorem close_of_closing (h : (σ.leave.skip isBlank).unread = ')' :: cs) :
    close position f σ = some (.ok f, (σ.leave.skip isBlank).next) := by
  rw [close, modify_bind, peek_bind, Scanner.front_of_cons h]
  rfl

theorem close_of_ne (h : (σ.leave.skip isBlank).unread = c :: cs) (hc : c ≠ ')') :
    close position f σ =
      some (.error (.parse (.unexpectedToken c (σ.leave.skip isBlank).position)),
        σ.leave.skip isBlank) := by
  rw [close, modify_bind, peek_bind, Scanner.front_of_cons h]
  simp only [if_neg hc]
  rfl

theorem group_of_deepest (h : σ.depth = Expr.maxNesting) :
    group inside position σ =
      some (.error (.parse (.nestingTooDeep position Expr.maxNesting)), σ) := by
  change (if σ.depth = Expr.maxNesting then _ else _ : Scan NormalForm) σ = _
  rw [if_pos h]
  rfl

theorem group_of_ne (h : σ.depth ≠ Expr.maxNesting) :
    group inside position σ = (inside >>= close position) σ.next.enter := by
  change (if σ.depth = Expr.maxNesting then _ else _ : Scan NormalForm) σ = _
  rw [if_neg h]
  rfl

theorem factor_of_nil (h : (σ.skip isBlank).unread = []) :
    factor n numbering stop inside σ =
      some (.error (.parse (.unexpectedEnd stop)), σ.skip isBlank) := by
  rw [factor, peek_bind, Scanner.front_of_nil h]
  rfl

theorem factor_of_zero (h : (σ.skip isBlank).unread = '0' :: cs) (hf : NormalForm.zero n = .ok f) :
    factor n numbering stop inside σ = some (.ok f, (σ.skip isBlank).next) := by
  rw [factor, peek_bind, Scanner.front_of_cons h, hf]
  rfl

theorem factor_of_one (h : (σ.skip isBlank).unread = '1' :: cs) (hf : NormalForm.one n = .ok f) :
    factor n numbering stop inside σ = some (.ok f, (σ.skip isBlank).next) := by
  rw [factor, peek_bind, Scanner.front_of_cons h, hf]
  rfl

theorem factor_of_var (h : (σ.skip isBlank).unread = 'x' :: cs) :
    factor n numbering stop inside σ =
      index n numbering (σ.skip isBlank).position (σ.skip isBlank).next := by
  rw [factor, peek_bind, Scanner.front_of_cons h]
  rfl

theorem factor_of_opening (h : (σ.skip isBlank).unread = '(' :: cs) :
    factor n numbering stop inside σ =
      group inside (σ.skip isBlank).position (σ.skip isBlank) := by
  rw [factor, peek_bind, Scanner.front_of_cons h]
  rfl

theorem factor_of_ne (h : (σ.skip isBlank).unread = c :: cs)
    (hc : ['0', '1', 'x', '('].contains c = false) :
    factor n numbering stop inside σ =
      some (.error (.parse (.unexpectedToken c (σ.skip isBlank).position)), σ.skip isBlank) := by
  simp only [List.contains_cons, List.contains_nil, Bool.or_eq_false_iff, beq_eq_false_iff_ne]
    at hc
  obtain ⟨h0, h1, hx, ho, -⟩ := hc
  rw [factor, peek_bind, Scanner.front_of_cons h]
  simp only [if_neg h0, if_neg h1, if_neg hx, if_neg ho]
  rfl

theorem finish_of_nil (h : (σ.skip isBlank).unread = []) :
    finish f σ = some (.ok f, σ.skip isBlank) := by
  rw [finish, peek_bind, Scanner.front_of_nil h]
  rfl

theorem finish_of_cons (h : (σ.skip isBlank).unread = c :: cs) :
    finish f σ =
      some (.error (.parse (.unexpectedToken c (σ.skip isBlank).position)), σ.skip isBlank) := by
  rw [finish, peek_bind, Scanner.front_of_cons h]
  rfl

variable {call : Nat → Procedure → Scan NormalForm} {calls levels : Nat}

theorem parse_of_nil (h : (σ.skip isBlank).unread = []) :
    parse n numbering stop calls levels σ =
      some (.error (.parse .empty), σ.skip isBlank) := by
  rw [parse, peek_bind, Scanner.front_of_nil h]
  rfl

theorem parse_of_cons (h : (σ.skip isBlank).unread = c :: cs) :
    parse n numbering stop calls levels σ =
      (run n numbering stop calls levels (read .sum) >>= finish) (σ.skip isBlank) := by
  rw [parse, peek_bind, Scanner.front_of_cons h]

theorem multiply_of_at (h : (σ.skip isBlank).isAt ['0', '1', 'x', '('] = true) :
    body n numbering stop call levels (multiply f) σ =
      (call levels (read .factor) >>= fun g =>
        assign .and f g >>= fun h => call levels (multiply h)) (σ.skip isBlank) := by
  rw [body, ahead_bind, if_pos h]

theorem multiply_of_not_at (h : (σ.skip isBlank).isAt ['0', '1', 'x', '('] = false) :
    body n numbering stop call levels (multiply f) σ = some (.ok f, σ.skip isBlank) := by
  rw [body, ahead_bind, h]
  rfl

theorem add_of_at (h : (σ.skip isBlank).isAt ['+'] = true) :
    body n numbering stop call levels (add f) σ =
      (call levels (read .product) >>= fun g =>
        assign .xor f g >>= fun h => call levels (add h)) (σ.skip isBlank).next := by
  rw [body, ahead_bind, if_pos h, advance_bind]

theorem add_of_not_at (h : (σ.skip isBlank).isAt ['+'] = false) :
    body n numbering stop call levels (add f) σ = some (.ok f, σ.skip isBlank) := by
  rw [body, ahead_bind, h]
  rfl

end Equations

end Procedure

namespace Scan

variable {α β : Type}

namespace Ends

variable {x : Nat → Nat → Scan α} {f : Nat → Nat → α → Scan β} {room : Nat} {σ τ : Scanner}
  {Q R : Except Error α → Scanner → Prop} {S : Except Error β → Scanner → Prop}

theorem of_eq (r : Except Error α) (τ : Scanner)
    (h : ∀ calls levels, x calls levels σ = some (r, τ)) (hQ : Q r τ) : Ends x room σ Q :=
  ⟨r, τ, ⟨0, fun calls levels _ _ => h calls levels⟩, hQ⟩

theorem congr {y : Nat → Nat → Scan α} (h : ∀ calls levels, x calls levels σ = y calls levels τ)
    (hy : Ends y room τ Q) : Ends x room σ Q := by
  obtain ⟨r, υ, ⟨enough, hr⟩, hQ⟩ := hy
  refine ⟨r, υ, ⟨enough, ?_⟩, hQ⟩
  intro calls levels hcalls hlevels
  rw [h, hr calls levels hcalls hlevels]

theorem mono (h : Ends x room σ Q) (hQ : ∀ r τ, Q r τ → R r τ) : Ends x room σ R := by
  obtain ⟨r, τ, hr, hq⟩ := h
  exact ⟨r, τ, hr, hQ r τ hq⟩

/-- An error ends what was to follow, and leaves the scanner where it is. -/
theorem bind (hx : Ends x room σ Q) (herror : ∀ e τ, Q (.error e) τ → S (.error e) τ)
    (hok : ∀ a τ, Q (.ok a) τ → Ends (fun calls levels => f calls levels a) room τ S) :
    Ends (fun calls levels => x calls levels >>= f calls levels) room σ S := by
  obtain ⟨r, τ, ⟨enough, hr⟩, hq⟩ := hx
  have hstep : ∀ calls levels, enough ≤ calls → room ≤ levels →
      (x calls levels >>= f calls levels) σ =
        (ExceptT.bindCont (f calls levels) r : StateT Scanner Option _) τ := by
    intro calls levels hcalls hlevels
    change (x calls levels σ >>= fun p =>
      (ExceptT.bindCont (f calls levels) p.1 : StateT Scanner Option _) p.2) = _
    rw [hr calls levels hcalls hlevels]
    rfl
  cases r with
  | error e => exact ⟨.error e, τ, ⟨enough, hstep⟩, herror e τ hq⟩
  | ok a =>
    obtain ⟨r, υ, ⟨enough', hf⟩, hs⟩ := hok a τ hq
    refine ⟨r, υ, ⟨max enough enough', ?_⟩, hs⟩
    intro calls levels hcalls hlevels
    exact (hstep calls levels (by omega) hlevels).trans (hf calls levels (by omega) hlevels)

/-- A call is one more that is open. -/
theorem call {n : Nat} {numbering : Numbering} {stop : Nat} {p : Procedure}
    {Q : Except Error NormalForm → Scanner → Prop}
    (h : Ends (fun calls levels =>
      Procedure.body n numbering stop (Procedure.run n numbering stop calls) levels p) room σ Q) :
    Ends (fun calls levels => Procedure.run n numbering stop calls levels p) room σ Q := by
  obtain ⟨r, τ, ⟨enough, hr⟩, hq⟩ := h
  refine ⟨r, τ, ⟨enough + 1, ?_⟩, hq⟩
  intro calls levels hcalls hlevels
  obtain ⟨calls, rfl⟩ := Nat.exists_eq_add_of_le' (Nat.lt_of_lt_of_le enough.succ_pos hcalls)
  exact hr calls levels (Nat.le_of_succ_le_succ hcalls) hlevels

/-- A call for a sum in parentheses takes a level. -/
theorem inside {x : Nat → Nat → Scan α} (h : Ends x room σ Q) :
    Ends (fun calls levels => if levels = 0 then exceed else x calls (levels - 1)) (room + 1) σ
      Q := by
  obtain ⟨r, τ, ⟨enough, hr⟩, hq⟩ := h
  refine ⟨r, τ, ⟨enough, ?_⟩, hq⟩
  intro calls levels hcalls hlevels
  have hcall : (if levels = 0 then exceed else x calls (levels - 1)) = x calls (levels - 1) :=
    if_neg (by omega)
  exact (congrFun hcall σ).trans (hr calls (levels - 1) hcalls (by omega))

end Ends

end Scan

end Keystream
