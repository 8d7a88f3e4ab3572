import Keystream.Proofs.Operators
import Keystream.Proofs.Parsing
import Keystream.Proofs.Scan
import Keystream.Proofs.Stages

/-!
# Progress

What a procedure does to a scanner is compared with what the readers of trees make of its lexemes:
the same error, or a normal form for the tree with what the readers have left still unread. The
readers return, being recursive in the number of lexemes, so reading character by character ends too.
-/

namespace Keystream

namespace Expr

section Readers

variable {n : Nat} {numbering : Numbering} {stop : Nat} {inside : Nat → Reader (Expr n .sum)}
  {position : Nat} {input : List Lexeme} {r : Reading (Expr n .sum) input.length}

theorem readFactor_of_error {e : ParseError} (h : inside position input = .error e) :
    readFactor numbering stop inside (⟨.opening, position⟩ :: input) = .error e := by
  rw [readFactor, h]

theorem readFactor_closed {found : Nat} {after : List Lexeme} (h : inside position input = .ok r)
    (hr : r.rest = ⟨.closing, found⟩ :: after) :
    ∃ hlt, readFactor numbering stop inside (⟨.opening, position⟩ :: input) =
      .ok ⟨.group r.value, after, hlt⟩ := by
  obtain ⟨e, rest, hlt⟩ := r
  obtain rfl : rest = _ := hr
  rw [readFactor, h]
  exact ⟨_, rfl⟩

theorem readFactor_unclosed (h : inside position input = .ok r) (hr : r.rest = []) :
    readFactor numbering stop inside (⟨.opening, position⟩ :: input) =
      .error (.unclosedParenthesis position) := by
  obtain ⟨e, rest, hlt⟩ := r
  obtain rfl : rest = _ := hr
  rw [readFactor, h]

theorem readFactor_open {token : Token} {found : Nat} {after : List Lexeme}
    (h : inside position input = .ok r) (hr : r.rest = ⟨token, found⟩ :: after)
    (ht : token ≠ .closing) :
    readFactor numbering stop inside (⟨.opening, position⟩ :: input) =
      .error (.unexpectedToken token.head found) := by
  obtain ⟨e, rest, hlt⟩ := r
  obtain rfl : rest = _ := hr
  rw [readFactor, h]
  cases token with
  | closing => exact absurd rfl ht
  | zero | one | plus | opening | var | stray => rfl

theorem readFactor_refused {c : Char} (h : (Token.ofChar c).startsFactor = false) :
    readFactor numbering stop inside (⟨.ofChar c, position⟩ :: input) =
      .error (.unexpectedToken c position) := by
  have hhead := Token.head_ofChar c
  generalize Token.ofChar c = token at h hhead
  subst hhead
  cases token with
  | zero | one | opening | var => cases h
  | plus | closing | stray => rfl

theorem ofLexemes_of_error {e : ParseError} (hne : input ≠ [])
    (h : readSum (n := n) numbering stop (readGroup numbering stop maxNesting) input = .error e) :
    ofLexemes n numbering stop input = .error e := by
  obtain ⟨l, input, rfl⟩ := List.exists_cons_of_ne_nil hne
  rw [ofLexemes, h]

theorem ofLexemes_of_end (hne : input ≠ [])
    (h : readSum (n := n) numbering stop (readGroup numbering stop maxNesting) input = .ok r)
    (hr : r.rest = []) : ofLexemes n numbering stop input = .ok r.value := by
  obtain ⟨l, input, rfl⟩ := List.exists_cons_of_ne_nil hne
  obtain ⟨e, rest, hlt⟩ := r
  obtain rfl : rest = _ := hr
  rw [ofLexemes, h]

theorem ofLexemes_of_rest {token : Token} {found : Nat} {after : List Lexeme} (hne : input ≠ [])
    (h : readSum (n := n) numbering stop (readGroup numbering stop maxNesting) input = .ok r)
    (hr : r.rest = ⟨token, found⟩ :: after) :
    ofLexemes n numbering stop input = .error (.unexpectedToken token.head found) := by
  obtain ⟨l, input, rfl⟩ := List.exists_cons_of_ne_nil hne
  obtain ⟨e, rest, hlt⟩ := r
  obtain rfl : rest = _ := hr
  rw [ofLexemes, h]

end Readers

/-- The reader of what stands at a level of the grammar. -/
def readAt {n : Nat} (numbering : Numbering) (stop : Nat) (inside : Nat → Reader (Expr n .sum)) :
    (l : Level) → Reader (Expr n l)
  | .factor => readFactor numbering stop inside
  | .product => readProduct numbering stop inside
  | .sum => readSum numbering stop inside

end Expr

open Scan Procedure

section Tracks

variable {n : Nat} {l : Level} {bound : Nat}

/-- The normal form stands for what the tree stands for. -/
structure Expr.Held (e : Expr n l) (f : NormalForm) : Prop where
  arity_eq : f.arity = n
  polynomial_eq : f.polynomial = e.polynomial

/-- What the readers of trees make of the lexemes is what a procedure has made of the scanner. -/
inductive Tracks (σ : Scanner) : Except ParseError (Reading (Expr n l) bound) →
    Except Error NormalForm → Scanner → Prop where
  | error {e : ParseError} {τ : Scanner} (h : τ.deepest ≤ max σ.deepest Expr.maxNesting) :
      Tracks σ (.error e) (.error (.parse e)) τ
  | ok {r : Reading (Expr n l) bound} {f : NormalForm} {τ : Scanner} (hrest : r.rest = τ.lexemes)
      (hf : r.value.Held f) (hpass : σ.Passes τ) : Tracks σ (.ok r) (.ok f) τ

theorem Tracks.of_error {σ τ : Scanner} {x : Except ParseError (Reading (Expr n l) bound)}
    {e : Error} (h : Tracks σ x (.error e) τ) :
    ∃ e', x = .error e' ∧ e = .parse e' ∧ τ.deepest ≤ max σ.deepest Expr.maxNesting := by
  cases h with
  | error h => exact ⟨_, rfl, rfl, h⟩

theorem Tracks.of_ok {σ τ : Scanner} {x : Except ParseError (Reading (Expr n l) bound)}
    {f : NormalForm} (h : Tracks σ x (.ok f) τ) :
    ∃ r, x = .ok r ∧ r.rest = τ.lexemes ∧ r.value.Held f ∧ σ.Passes τ := by
  cases h with
  | ok hrest hf hpass => exact ⟨_, rfl, hrest, hf, hpass⟩

end Tracks

section Held

variable {n : Nat} {f g : NormalForm}

theorem Expr.exists_held_zero (hn : 0 < n ∧ n ≤ 63) :
    ∃ f, NormalForm.zero n = .ok f ∧ (Expr.const false : Expr n .factor).Held f := by
  rw [NormalForm.zero, NormalForm.build_of_range hn]
  exact ⟨_, rfl, rfl, rfl⟩

theorem Expr.exists_held_one (hn : 0 < n ∧ n ≤ 63) :
    ∃ f, NormalForm.one n = .ok f ∧ (Expr.const true : Expr n .factor).Held f := by
  rw [NormalForm.one, NormalForm.build_of_range hn]
  exact ⟨_, rfl, rfl, rfl⟩

theorem Expr.exists_held_var (hn : 0 < n ∧ n ≤ 63) (i : Fin n) :
    ∃ f, NormalForm.ofVariable n i = .ok f ∧ (Expr.var i : Expr n .factor).Held f := by
  rw [NormalForm.ofVariable, NormalForm.build_of_range hn, dif_pos i.isLt]
  exact ⟨_, rfl, rfl, rfl⟩

theorem Expr.Held.eq_ofExpr {hn : 0 < n ∧ n ≤ 63} {e : Expr n .sum} (hf : e.Held f) :
    f = .ofExpr hn e := by
  obtain ⟨arity, polynomial, hrange, hwithin⟩ := f
  obtain ⟨harity, hpolynomial⟩ := hf
  obtain rfl : arity = n := harity
  obtain rfl : polynomial = e.polynomial := hpolynomial
  rfl

theorem Expr.Held.exists_mul {p : Expr n .product} {q : Expr n .factor} (hf : p.Held f)
    (hg : q.Held g) :
    ∃ h, NormalForm.Operator.and.apply f g = .ok h ∧ (Expr.mul p q).Held h := by
  rw [NormalForm.Operator.apply, NormalForm.product,
    dif_pos (hg.arity_eq.trans hf.arity_eq.symm)]
  refine ⟨_, rfl, hf.arity_eq, ?_⟩
  change f.polynomial * g.polynomial = p.polynomial * q.polynomial
  rw [hf.polynomial_eq, hg.polynomial_eq]

theorem Expr.Held.exists_add {s : Expr n .sum} {p : Expr n .product} (hf : s.Held f)
    (hg : p.Held g) :
    ∃ h, NormalForm.Operator.xor.apply f g = .ok h ∧ (Expr.add s p).Held h := by
  rw [NormalForm.Operator.apply, NormalForm.sum, dif_pos (hg.arity_eq.trans hf.arity_eq.symm)]
  refine ⟨_, rfl, hf.arity_eq, ?_⟩
  change f.polynomial + g.polynomial = s.polynomial + p.polynomial
  rw [hf.polynomial_eq, hg.polynomial_eq]

end Held

section Steps

variable {n : Nat} {numbering : Numbering} {stop room : Nat} {inside : Nat → Reader (Expr n .sum)}
  {σ τ : Scanner} {f g : NormalForm}

/-- Behind a sum in parentheses a scanner sees what the readers of trees see. -/
theorem close_ends {position : Nat} {input : List Lexeme}
    {r : Reading (Expr n .sum) input.length} {cs : List Char} (hunread : σ.unread = '(' :: cs)
    (hdepth : σ.depth < Expr.maxNesting) (hr : inside position input = .ok r)
    (hrest : r.rest = τ.lexemes) (hf : r.value.Held f) (hpass : σ.next.enter.Passes τ) :
    Ends (fun _ _ => close position f) room τ
      (Tracks σ (Expr.readFactor numbering stop inside (⟨.opening, position⟩ :: input))) := by
  obtain ⟨read, hread, -⟩ := hpass
  have hmoves := hread.trans τ.moves_blanks
  have hdeepest : (τ.leave.skip isBlank).deepest ≤ max σ.deepest Expr.maxNesting :=
    Scanner.deepest_le_of_enter hdepth hmoves.deepest_le
  obtain ⟨hend, hlexemes⟩ | ⟨ds, hx, hlexemes⟩ | ⟨c, ds, hc, -, -, hlexemes⟩ :=
    τ.leave.lexemes_cases
  · refine .of_eq _ _ (fun _ _ => close_of_nil hend) ?_
    rw [Expr.readFactor_unclosed hr (hrest.trans hlexemes)]
    exact .error hdeepest
  · refine .of_eq _ _ (fun _ _ => close_of_ne hx (by decide)) ?_
    rw [Expr.readFactor_open hr (hrest.trans hlexemes) (by intro h; cases h)]
    exact .error hdeepest
  · by_cases hclosing : c = ')'
    · subst hclosing
      refine .of_eq _ _ (fun _ _ => close_of_closing hc) ?_
      obtain ⟨hlt, hclosed⟩ := Expr.readFactor_closed hr (hrest.trans hlexemes)
      rw [hclosed]
      exact .ok rfl ⟨hf.arity_eq, hf.polynomial_eq⟩
        ⟨_, Scanner.moves_group hunread hdepth hmoves hc, '(', List.mem_cons_self, by decide⟩
    · refine .of_eq _ _ (fun _ _ => close_of_ne hc hclosing) ?_
      have htoken : Token.ofChar c ≠ .closing := fun h => hclosing (Token.eq_head_of_ofChar h)
      rw [Expr.readFactor_open hr (hrest.trans hlexemes) htoken, Token.head_ofChar]
      exact .error hdeepest

theorem Tracks.of_moves {l : Level} {bound : Nat} {start : Scanner} {read : List Char}
    {x : Except ParseError (Reading (Expr n l) bound)} {r : Except Error NormalForm}
    (hread : start.Moves σ read) (h : Tracks σ x r τ) : Tracks start x r τ := by
  have hstart := hread.deepest_le
  cases h with
  | error h => exact .error (by omega)
  | ok hrest hf hpass => exact .ok hrest hf (hpass.moves_left hread)

/-- Nothing follows what fails, and whatever was read before has failed as well. -/
theorem ends_bind_of_error {k l : Level} {bound bound' : Nat} {start : Scanner} {e : ParseError}
    {x : Nat → Nat → Scan NormalForm} {y : Nat → Nat → NormalForm → Scan NormalForm}
    (h : Ends x room σ (Tracks σ (.error e : Except ParseError (Reading (Expr n k) bound))))
    (hdeepest : σ.deepest ≤ max start.deepest Expr.maxNesting) :
    Ends (fun calls levels => x calls levels >>= y calls levels) room σ
      (Tracks start (.error e : Except ParseError (Reading (Expr n l) bound'))) := by
  refine h.bind ?_ ?_
  · intro e' τ h
    obtain ⟨e'', he, rfl, hτ⟩ := h.of_error
    cases he
    exact .error (by omega)
  · intro f τ h
    obtain ⟨r, hr, -⟩ := h.of_ok
    cases hr

/-- What follows starts behind what has been read. -/
theorem ends_bind_of_ok {l : Level} {bound : Nat} {r : Reading (Expr n l) bound}
    {x : Nat → Nat → Scan NormalForm} {y : Nat → Nat → NormalForm → Scan NormalForm}
    {Q : Except Error NormalForm → Scanner → Prop}
    (h : Ends x room σ (Tracks σ (.ok r)))
    (hy : ∀ f τ, r.rest = τ.lexemes → r.value.Held f → σ.Passes τ →
      Ends (fun calls levels => y calls levels f) room τ Q) :
    Ends (fun calls levels => x calls levels >>= y calls levels) room σ Q := by
  refine h.bind ?_ ?_
  · intro e τ h
    obtain ⟨e', he, -⟩ := h.of_error
    cases he
  · intro f τ h
    obtain ⟨r, hr, hrest, hf, hpass⟩ := h.of_ok
    cases hr
    exact hy f τ hrest hf hpass

/-- Where `room` more parentheses may be open, a procedure returns and does what the reader does. -/
def ReadsAlike (n : Nat) (numbering : Numbering) (stop room : Nat) (l : Level) : Prop :=
  ∀ σ : Scanner, σ.depth + room = Expr.maxNesting →
    Ends (fun calls levels => run n numbering stop calls levels (read l)) room σ
      (Tracks σ (Expr.readAt (n := n) numbering stop (Expr.readGroup numbering stop room) l
        σ.lexemes))

/-- Only here is one parenthesis less to be opened, and the counter moves with it. -/
theorem group_ends (hin : ∀ k, room = k + 1 → ReadsAlike n numbering stop k .sum)
    (hσ : σ.depth + room = Expr.maxNesting) (position : Nat) {cs : List Char}
    (hunread : σ.unread = '(' :: cs) :
    Ends (fun calls levels => group (if levels = 0 then exceed
        else run n numbering stop calls (levels - 1) (read .sum)) position) room σ
      (Tracks σ (Expr.readFactor (n := n) numbering stop (Expr.readGroup numbering stop room)
        (⟨.opening, position⟩ :: σ.next.lexemes))) := by
  cases room with
  | zero =>
    exact .of_eq _ _ (fun _ _ => group_of_deepest hσ) (.error (Nat.le_max_left _ _))
  | succ k =>
    have hdepth : σ.depth < Expr.maxNesting := by omega
    have henter : σ.next.enter.depth + k = Expr.maxNesting := by
      change σ.next.depth + 1 + k = Expr.maxNesting
      rw [Scanner.depth_next]
      omega
    refine .congr (fun _ _ => group_of_ne (Nat.ne_of_lt hdepth))
      (.bind (.inside (hin k rfl _ henter)) ?_ ?_)
    · intro e τ h
      obtain ⟨e', hx, rfl, hdeepest⟩ := h.of_error
      rw [Expr.readFactor_of_error hx]
      exact .error (Scanner.deepest_le_of_enter hdepth hdeepest)
    · intro f τ h
      obtain ⟨r, hx, hrest, hf, hpass⟩ := h.of_ok
      exact close_ends hunread hdepth hx hrest hf hpass

theorem factor_readsAlike (hn : 0 < n ∧ n ≤ 63)
    (hin : ∀ k, room = k + 1 → ReadsAlike n numbering stop k .sum) :
    ReadsAlike n numbering stop room .factor := by
  intro σ hσ
  apply Ends.call
  rw [Expr.readAt]
  obtain ⟨hend, hlexemes⟩ | ⟨cs, hx, hlexemes⟩ | ⟨c, cs, hc, hne, hblank, hlexemes⟩ :=
    σ.lexemes_cases
  · refine .of_eq _ _ (fun _ _ => factor_of_nil hend) ?_
    rw [hlexemes]
    exact .error (Nat.le_max_left _ _)
  · have hpass : σ.Passes ((σ.skip isBlank).next.skip Char.isDigit) :=
      (Scanner.passes_char hx (by decide) (by decide)).moves_right
        (Scanner.moves_skip _ (by decide) (by decide))
    rw [hlexemes, Expr.readFactor]
    cases hv : Expr.readVariable n numbering
        ((σ.skip isBlank).next.unread.takeWhile Char.isDigit) (σ.skip isBlank).position with
    | error e =>
      refine .of_eq _ _ (fun _ _ => (factor_of_var hx).trans (index_of_error hv)) ?_
      exact .error hpass.deepest_le
    | ok i =>
      obtain ⟨f, hf, hheld⟩ := Expr.exists_held_var hn i
      refine .of_eq _ _ (fun _ _ => (factor_of_var hx).trans (index_of_ok hv hf)) ?_
      exact .ok rfl hheld hpass
  · rw [hlexemes]
    by_cases hstarts : ['0', '1', 'x', '('].contains c = true
    · simp only [List.contains_cons, List.contains_nil, Bool.or_eq_true, beq_iff_eq,
        Bool.false_eq_true, or_false] at hstarts
      obtain rfl | rfl | rfl | rfl := hstarts
      · obtain ⟨f, hf, hheld⟩ := Expr.exists_held_zero hn
        refine .of_eq _ _ (fun _ _ => factor_of_zero hc hf) ?_
        exact .ok rfl hheld (Scanner.passes_char hc (by decide) (by decide))
      · obtain ⟨f, hf, hheld⟩ := Expr.exists_held_one hn
        refine .of_eq _ _ (fun _ _ => factor_of_one hc hf) ?_
        exact .ok rfl hheld (Scanner.passes_char hc (by decide) (by decide))
      · exact absurd rfl hne
      · have hskip : (σ.skip isBlank).depth + room = Expr.maxNesting := hσ
        refine .congr (fun _ _ => factor_of_opening hc) ?_
        exact (group_ends hin hskip _ hc).mono fun _ _ h => h.of_moves σ.moves_blanks
    · rw [Bool.not_eq_true] at hstarts
      refine .of_eq _ _ (fun _ _ => factor_of_ne hc hstarts) ?_
      rw [Expr.readFactor_refused ((Token.startsFactor_ofChar hne).trans hstarts)]
      exact .error (Nat.le_max_left _ _)

theorem ReadsAlike.behind_blanks {l : Level} (h : ReadsAlike n numbering stop room l)
    (hσ : σ.depth + room = Expr.maxNesting) :
    Ends (fun calls levels => run n numbering stop calls levels (read l)) room (σ.skip isBlank)
      (Tracks (σ.skip isBlank) (Expr.readAt (n := n) numbering stop
        (Expr.readGroup numbering stop room) l σ.lexemes)) := by
  have hread := h (σ.skip isBlank) hσ
  rw [Scanner.lexemes_skip] at hread
  exact hread

theorem multiply_ends (hfactor : ReadsAlike n numbering stop room .factor) {start : Scanner}
    {bound : Nat} {p : Expr n .product} {input : List Lexeme} {hb : input.length < bound}
    (hσ : σ.depth + room = Expr.maxNesting) (hinput : input = σ.lexemes) (hpass : start.Passes σ)
    (hf : p.Held f) :
    Ends (fun calls levels => run n numbering stop calls levels (multiply f)) room σ
      (Tracks start (Expr.readFactors numbering stop (Expr.readGroup numbering stop room) p input
        hb)) := by
  -- along the recursion of the reader of trees; `start` stays where the product began
  fun_induction Expr.readFactors numbering stop (Expr.readGroup numbering stop room) p input hb
    generalizing σ f with
  | case1 p input hb hat e he =>
    rw [hinput, Scanner.atFactor_lexemes] at hat
    have hread := hfactor.behind_blanks hσ
    rw [← hinput, Expr.readAt, he] at hread
    refine .call (.congr (fun _ _ => multiply_of_at hat) ?_)
    exact ends_bind_of_error hread hpass.deepest_le
  | case2 p input hb hat q rest hr he ih =>
    rw [hinput, Scanner.atFactor_lexemes] at hat
    have hread := hfactor.behind_blanks hσ
    rw [← hinput, Expr.readAt, he] at hread
    refine .call (.congr (fun _ _ => multiply_of_at hat) (ends_bind_of_ok hread ?_))
    intro g τ hrest hg hq
    obtain ⟨h, hop, hh⟩ := hf.exists_mul hg
    have hτ : τ.depth + room = Expr.maxNesting := hq.depth_eq ▸ hσ
    exact .congr (fun _ _ => assign_bind hop _ τ)
      (ih hτ hrest ((hpass.moves_right σ.moves_blanks).trans hq) hh)
  | case3 p input hb hat =>
    rw [hinput, Scanner.atFactor_lexemes, Bool.not_eq_true] at hat
    refine .call (.of_eq _ _ (fun _ _ => multiply_of_not_at hat) ?_)
    exact .ok (hinput.trans σ.lexemes_skip.symm) hf (hpass.moves_right σ.moves_blanks)

theorem product_readsAlike (hfactor : ReadsAlike n numbering stop room .factor) :
    ReadsAlike n numbering stop room .product := by
  intro σ hσ
  apply Ends.call
  have hread := hfactor σ hσ
  rw [Expr.readAt] at hread
  rw [Expr.readAt, Expr.readProduct]
  split
  · next e he =>
    rw [he] at hread
    exact ends_bind_of_error hread (Nat.le_max_left _ _)
  · next q rest hr he =>
    rw [he] at hread
    refine ends_bind_of_ok hread ?_
    intro f τ hrest hf hpass
    have hτ : τ.depth + room = Expr.maxNesting := hpass.depth_eq ▸ hσ
    exact multiply_ends hfactor hτ hrest hpass ⟨hf.arity_eq, hf.polynomial_eq⟩

/-- Behind a plus a product is read alike. -/
theorem ReadsAlike.behind_plus (h : ReadsAlike n numbering stop room .product)
    (hσ : σ.depth + room = Expr.maxNesting) {position : Nat} {rest : List Lexeme}
    (hplus : σ.lexemes = ⟨.plus, position⟩ :: rest) :
    σ.Passes (σ.skip isBlank).next ∧
      Ends (fun calls levels => run n numbering stop calls levels (read .product)) room
        (σ.skip isBlank).next (Tracks (σ.skip isBlank).next
          (Expr.readProduct (n := n) numbering stop (Expr.readGroup numbering stop room) rest)) := by
  obtain ⟨⟨cs, hunread⟩, hlexemes⟩ := Scanner.lexemes_of_plus (Scanner.isAt_of_plus hplus)
  obtain ⟨-, rfl⟩ := List.cons.inj (hplus.symm.trans hlexemes)
  refine ⟨Scanner.passes_char hunread (by decide) (by decide), h _ ?_⟩
  rw [Scanner.depth_next]
  exact hσ

theorem add_ends (hproduct : ReadsAlike n numbering stop room .product) {start : Scanner}
    {bound : Nat} {s : Expr n .sum} {input : List Lexeme} {hb : input.length < bound}
    (hσ : σ.depth + room = Expr.maxNesting) (hinput : input = σ.lexemes) (hpass : start.Passes σ)
    (hf : s.Held f) :
    Ends (fun calls levels => run n numbering stop calls levels (add f)) room σ
      (Tracks start (Expr.readTerms numbering stop (Expr.readGroup numbering stop room) s input
        hb)) := by
  fun_induction Expr.readTerms numbering stop (Expr.readGroup numbering stop room) s input hb
    generalizing σ f with
  | case1 s position rest hb e he =>
    obtain ⟨hplus, hread⟩ := hproduct.behind_plus hσ hinput.symm
    rw [he] at hread
    refine .call (.congr (fun _ _ => add_of_at (Scanner.isAt_of_plus hinput.symm)) ?_)
    exact ends_bind_of_error hread (hpass.trans hplus).deepest_le
  | case2 s position rest hb p after ha he hb' ih =>
    obtain ⟨hplus, hread⟩ := hproduct.behind_plus hσ hinput.symm
    rw [he] at hread
    refine .call (.congr (fun _ _ => add_of_at (Scanner.isAt_of_plus hinput.symm))
      (ends_bind_of_ok hread ?_))
    intro g τ hafter hg hq
    obtain ⟨h, hop, hh⟩ := hf.exists_add hg
    have hτ : τ.depth + room = Expr.maxNesting := (hplus.trans hq).depth_eq ▸ hσ
    exact .congr (fun _ _ => assign_bind hop _ τ)
      (ih hτ hafter ((hpass.trans hplus).trans hq) hh)
  | case3 s input hb hplus =>
    have hat : (σ.skip isBlank).isAt ['+'] = false := by
      rw [← Bool.not_eq_true]
      intro hat
      obtain ⟨-, hlexemes⟩ := Scanner.lexemes_of_plus hat
      obtain rfl := hinput.trans hlexemes
      exact hplus _ _ hb rfl HEq.rfl
    refine .call (.of_eq _ _ (fun _ _ => add_of_not_at hat) ?_)
    exact .ok (hinput.trans σ.lexemes_skip.symm) hf (hpass.moves_right σ.moves_blanks)

theorem sum_readsAlike (hproduct : ReadsAlike n numbering stop room .product) :
    ReadsAlike n numbering stop room .sum := by
  intro σ hσ
  apply Ends.call
  have hread := hproduct σ hσ
  rw [Expr.readAt] at hread
  rw [Expr.readAt, Expr.readSum]
  split
  · next e he =>
    rw [he] at hread
    exact ends_bind_of_error hread (Nat.le_max_left _ _)
  · next p rest hr he =>
    rw [he] at hread
    refine ends_bind_of_ok hread ?_
    intro f τ hrest hf hpass
    have hτ : τ.depth + room = Expr.maxNesting := hpass.depth_eq ▸ hσ
    exact add_ends hproduct hτ hrest hpass ⟨hf.arity_eq, hf.polynomial_eq⟩

/-- Sums, products and factors are read alike, by induction on how many more parentheses may open. -/
theorem readsAlike (hn : 0 < n ∧ n ≤ 63) (l : Level) : ReadsAlike n numbering stop room l := by
  have hfactor : ReadsAlike n numbering stop room .factor := by
    induction room with
    | zero => exact factor_readsAlike hn fun k hk => by cases hk
    | succ room ih =>
      apply factor_readsAlike hn
      intro k hk
      obtain rfl := Nat.succ.inj hk
      exact sum_readsAlike (product_readsAlike ih)
  cases l with
  | factor => exact hfactor
  | product => exact product_readsAlike hfactor
  | sum => exact sum_readsAlike (product_readsAlike hfactor)

/-- With no parenthesis open, what is read up to the end of the text is its normal form. -/
theorem finish_ends (hn : 0 < n ∧ n ≤ 63) {s : String}
    (hparse : Expr.parse n numbering s = Expr.ofLexemes n numbering stop σ.lexemes)
    (hne : σ.lexemes ≠ []) (hdepth : σ.depth = 0) (hdeepest : σ.deepest ≤ Expr.maxNesting) :
    Ends (fun calls levels => run n numbering stop calls levels (read .sum) >>= finish)
      Expr.maxNesting σ
      fun r τ => r = NormalForm.parse n numbering s ∧ τ.deepest ≤ Expr.maxNesting := by
  have hmax : max σ.deepest Expr.maxNesting = Expr.maxNesting := Nat.max_eq_right hdeepest
  have hread : ReadsAlike n numbering stop Expr.maxNesting .sum := readsAlike hn .sum
  rw [NormalForm.parse_of_range hn, hparse]
  refine (hread σ (by rw [hdepth, Nat.zero_add])).bind ?_ ?_
  · intro e τ h
    obtain ⟨e', he, rfl, hτ⟩ := h.of_error
    rw [Expr.ofLexemes_of_error hne he]
    exact ⟨rfl, hmax ▸ hτ⟩
  · intro f τ h
    obtain ⟨r, hr, hrest, hf, hpass⟩ := h.of_ok
    have hτ : τ.deepest ≤ Expr.maxNesting := hmax ▸ hpass.deepest_le
    obtain ⟨hend, hlexemes⟩ | ⟨cs, hx, hlexemes⟩ | ⟨c, cs, hc, -, -, hlexemes⟩ := τ.lexemes_cases
    · refine .of_eq _ _ (fun _ _ => finish_of_nil hend) ⟨?_, hτ⟩
      rw [Expr.ofLexemes_of_end hne hr (hrest.trans hlexemes), hf.eq_ofExpr]
    · refine .of_eq _ _ (fun _ _ => finish_of_cons hx) ⟨?_, hτ⟩
      rw [Expr.ofLexemes_of_rest hne hr (hrest.trans hlexemes), Token.head]
    · refine .of_eq _ _ (fun _ _ => finish_of_cons hc) ⟨?_, hτ⟩
      rw [Expr.ofLexemes_of_rest hne hr (hrest.trans hlexemes), Token.head_ofChar]

theorem parse_ends (hn : 0 < n ∧ n ≤ 63) (s : String) :
    Ends (fun calls levels => Procedure.parse n numbering s.utf8ByteSize calls levels)
      Expr.maxNesting (.start s)
      fun r τ => r = NormalForm.parse n numbering s ∧ τ.deepest ≤ Expr.maxNesting := by
  have hlexemes := (Scanner.start s).lexemes_skip
  have hparse : Expr.parse n numbering s =
      Expr.ofLexemes n numbering s.utf8ByteSize ((Scanner.start s).skip isBlank).lexemes := by
    rw [hlexemes]
    rfl
  rcases hunread : ((Scanner.start s).skip isBlank).unread with _ | ⟨c, cs⟩
  · refine .of_eq _ _ (fun _ _ => parse_of_nil hunread) ⟨?_, Nat.zero_le _⟩
    rw [NormalForm.parse_of_range hn, hparse, Scanner.lexemes_of_nil hunread, Expr.ofLexemes]
  · refine .congr (fun _ _ => parse_of_cons hunread) (finish_ends hn hparse ?_ rfl (Nat.zero_le _))
    rw [hlexemes]
    exact Scanner.lexemes_ne_nil hunread

end Steps

namespace NormalForm

/-- However much is unread, reading a sum, a product or a factor ends as it does for the readers of
trees, with no more levels of parentheses than are left below the bound; and so does reading a text.
What is accepted has been passed with its parentheses matched, and the counter is back where it was
and has never been above the bound. -/
theorem readers_progress {n : Nat} (hpos : 0 < n) (hle : n ≤ 63) (numbering : Numbering)
    (stop : Nat) :
    (∀ (l : Level) (σ : Scanner), σ.depth ≤ 128 →
      Ends (fun calls levels => Procedure.run n numbering stop calls levels (.read l))
        (128 - σ.depth) σ fun r τ =>
          Tracks σ (Expr.readAt (n := n) numbering stop
            (Expr.readGroup numbering stop (128 - σ.depth)) l σ.lexemes) r τ ∧
          τ.deepest ≤ max σ.deepest 128 ∧
          ∀ f, r = .ok f →
            (∃ passed, σ.unread = passed ++ τ.unread ∧ (∃ c ∈ passed, isBlank c = false) ∧
              Matched passed) ∧
            τ.depth = σ.depth ∧ f.arity = n ∧
            (l = .sum → (τ.skip isBlank).isAt ['+', '0', '1', 'x', '('] = false)) ∧
    ∀ s : String,
      Ends (fun calls levels => Procedure.parse n numbering s.utf8ByteSize calls levels) 128
        (.start s) fun r τ => r = parse n numbering s ∧ τ.deepest ≤ 128 := by
  have hn : 0 < n ∧ n ≤ 63 := ⟨hpos, hle⟩
  refine ⟨?_, parse_ends hn⟩
  intro l σ hσ
  have hdepth : σ.depth + (128 - σ.depth) = Expr.maxNesting := Nat.add_sub_of_le hσ
  refine (readsAlike hn l σ hdepth).mono ?_
  intro r τ h
  refine ⟨h, ?_⟩
  cases r with
  | error e =>
    obtain ⟨-, -, -, hdeepest⟩ := h.of_error
    refine ⟨hdeepest, ?_⟩
    rintro f ⟨⟩
  | ok f =>
    obtain ⟨tree, htree, hrest, hf, hpass⟩ := h.of_ok
    refine ⟨hpass.deepest_le, ?_⟩
    intro g hg
    obtain rfl := Except.ok.inj hg
    obtain ⟨passed, hmoves, hblank⟩ := hpass
    refine ⟨⟨passed, hmoves.unread_eq, hblank, hmoves.matched⟩, hmoves.depth_eq, hf.arity_eq, ?_⟩
    rintro rfl
    have hends := Expr.endsSum_of_readSum htree
    rw [hrest] at hends
    exact Scanner.isAt_of_endsSum hends

theorem readers_progress_example :
    (Ends (fun calls levels => Procedure.run 3 .fromOne 14 calls levels (.read .sum)) 1
      ⟨" (x1 + 1)x02 )".toList, 0, 127, 127⟩ fun r τ => ∃ f, r = .ok f ∧
        (∃ passed, " (x1 + 1)x02 )".toList = passed ++ τ.unread ∧
          (∃ c ∈ passed, isBlank c = false) ∧ Matched passed) ∧
        τ.depth = 127 ∧ τ.deepest ≤ 128 ∧ f.arity = 3 ∧
        (τ.skip isBlank).isAt ['+', '0', '1', 'x', '('] = false) ∧
    Ends (fun calls levels => Procedure.parse 3 .fromOne 11 calls levels) 128
      (.start "(x1 + 1)x02") fun r τ => (∃ f, r = .ok f) ∧ τ.deepest ≤ 128 := by
  obtain ⟨hread, hparse⟩ := readers_progress (Nat.succ_pos 2) (by decide) .fromOne 14
  have haccepted : (Expr.readAt (n := 3) .fromOne 14 (Expr.readGroup .fromOne 14 1) .sum
    (Scanner.lexemes ⟨" (x1 + 1)x02 )".toList, 0, 127, 127⟩)).isOk = true := by decide +kernel
  constructor
  · refine (hread .sum ⟨_, 0, 127, 127⟩ (by decide)).mono ?_
    rintro r τ ⟨htracks, hdeepest, hok⟩
    cases r with
    | error e =>
      obtain ⟨e', he, -⟩ := htracks.of_error
      cases haccepted.symm.trans (congrArg Except.isOk he)
    | ok f =>
      obtain ⟨hpassed, hdepth, harity, hends⟩ := hok f rfl
      exact ⟨f, rfl, hpassed, hdepth, hdeepest, harity, hends rfl⟩
  · refine (hparse "(x1 + 1)x02").mono ?_
    rintro r τ ⟨rfl, hdeepest⟩
    exact ⟨exists_ok_of_isOk (by decide +kernel), hdeepest⟩

end NormalForm

end Keystream
