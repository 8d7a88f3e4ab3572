import Keystream.Proofs.Grammar

/-!
# What the readers read

A reader that succeeds has taken a spelling of its tree off the front of the input, and in front of
any suitable rest it takes every spelling whose groups it has room for. Together the two say when
`ofLexemes` succeeds and with which tree, and that no list of tokens spells two trees.
-/

namespace Keystream.Expr

variable {n : Nat} {numbering : Numbering} {stop : Nat} {inside : Nat → Reader (Expr n .sum)}
  {room : Nat}

theorem readVariable_eq_ok_iff {digits : List Char} {position : Nat} {i : Fin n} :
    readVariable n numbering digits position = .ok i ↔
      digits ≠ [] ∧ decimal digits = numbering.first + i := by
  unfold readVariable
  by_cases hd : digits = []
  · simp [hd]
  · rw [if_neg hd]
    by_cases h : numbering.first ≤ decimal digits ∧ decimal digits < numbering.first + n
    · rw [dif_pos h, Except.ok.injEq, Fin.ext_iff]
      simp only [ne_eq, hd, not_false_eq_true, true_and]
      omega
    · rw [dif_neg h]
      have := i.isLt
      simp only [reduceCtorEq, ne_eq, hd, not_false_eq_true, true_and, false_iff]
      omega

/-- The tree with at most `room` groups inside each other is spelled in front of the rest. -/
def Reads (numbering : Numbering) (room : Nat) {l : Level} (input : List Lexeme) (e : Expr n l)
    (rest : List Lexeme) : Prop :=
  ∃ read, input = read ++ rest ∧ Spells numbering e (read.map Lexeme.token) ∧ e.depth ≤ room

theorem Reads.of_spells {l : Level} {e : Expr n l} {first : Lexeme} {rest : List Lexeme}
    (h : Spells numbering e [first.token]) (hd : e.depth ≤ room) :
    Reads numbering room (first :: rest) e rest :=
  ⟨[first], rfl, h, hd⟩

theorem Reads.group {e : Expr n .sum} {position found : Nat} {input after : List Lexeme}
    (hroom : 0 < room) (h : Reads numbering (room - 1) input e (⟨.closing, found⟩ :: after)) :
    Reads numbering room (⟨.opening, position⟩ :: input) (.group e) after := by
  obtain ⟨read, rfl, hs, hd⟩ := h
  refine ⟨⟨.opening, position⟩ :: (read ++ [⟨.closing, found⟩]), by simp, ?_, ?_⟩
  · rw [List.map_cons, List.map_append]
    exact .group hs
  · rw [depth]
    omega

theorem Reads.single {f : Expr n .factor} {input rest : List Lexeme}
    (h : Reads numbering room input f rest) : Reads numbering room input (.single f) rest := by
  obtain ⟨read, he, hs, hd⟩ := h
  exact ⟨read, he, .single hs, hd⟩

theorem Reads.mul {p : Expr n .product} {f : Expr n .factor} {input middle rest : List Lexeme}
    (h : Reads numbering room input p middle) (hf : Reads numbering room middle f rest) :
    Reads numbering room input (.mul p f) rest := by
  obtain ⟨read, rfl, hs, hd⟩ := h
  obtain ⟨more, rfl, hsf, hdf⟩ := hf
  refine ⟨read ++ more, by rw [List.append_assoc], ?_, Nat.max_le.2 ⟨hd, hdf⟩⟩
  rw [List.map_append]
  exact .mul hs hsf

theorem Reads.term {p : Expr n .product} {input rest : List Lexeme}
    (h : Reads numbering room input p rest) : Reads numbering room input (.term p) rest := by
  obtain ⟨read, he, hs, hd⟩ := h
  exact ⟨read, he, .term hs, hd⟩

theorem Reads.add {s : Expr n .sum} {p : Expr n .product} {position : Nat}
    {input middle rest : List Lexeme}
    (h : Reads numbering room input s (⟨.plus, position⟩ :: middle))
    (hp : Reads numbering room middle p rest) : Reads numbering room input (.add s p) rest := by
  obtain ⟨read, rfl, hs, hd⟩ := h
  obtain ⟨more, rfl, hsp, hdp⟩ := hp
  refine ⟨read ++ ⟨.plus, position⟩ :: more, by simp, ?_, Nat.max_le.2 ⟨hd, hdp⟩⟩
  rw [List.map_append, List.map_cons]
  exact .add hs hsp

section Sound

variable (hin : ∀ position input r, inside position input = .ok r →
  0 < room ∧ Reads numbering (room - 1) input r.value r.rest)
include hin

theorem readFactor_reads {input : List Lexeme} {r : Reading (Expr n .factor) input.length}
    (h : readFactor numbering stop inside input = .ok r) :
    Reads numbering room input r.value r.rest := by
  unfold readFactor at h
  split at h
  · cases h
  · cases h
    exact .of_spells .zero (Nat.zero_le _)
  · cases h
    exact .of_spells .one (Nat.zero_le _)
  · split at h
    · cases h
    · next i hi =>
      cases h
      obtain ⟨hd, hi⟩ := readVariable_eq_ok_iff.1 hi
      exact .of_spells (.var hd hi) (Nat.zero_le _)
  · split at h
    · cases h
    · cases h
    · next hr =>
      cases h
      obtain ⟨hroom, he⟩ := hin _ _ _ hr
      exact .group hroom he
    · cases h
  · cases h

theorem readFactors_reads {bound : Nat} {start input : List Lexeme} {p : Expr n .product}
    {hb : input.length < bound} (hp : Reads numbering room start p input)
    {r : Reading (Expr n .product) bound}
    (h : readFactors numbering stop inside p input hb = .ok r) :
    Reads numbering room start r.value r.rest := by
  fun_induction readFactors numbering stop inside p input hb with
  | case1 => cases h
  | case2 p input hb _ f rest hr hf ih => exact ih (hp.mul (readFactor_reads hin hf)) h
  | case3 p input hb _ =>
    cases h
    exact hp

theorem readProduct_reads {input : List Lexeme} {r : Reading (Expr n .product) input.length}
    (h : readProduct numbering stop inside input = .ok r) :
    Reads numbering room input r.value r.rest := by
  unfold readProduct at h
  split at h
  · cases h
  · next f rest hr hf => exact readFactors_reads hin (readFactor_reads hin hf).single h

theorem readTerms_reads {bound : Nat} {start input : List Lexeme} {s : Expr n .sum}
    {hb : input.length < bound} (hs : Reads numbering room start s input)
    {r : Reading (Expr n .sum) bound}
    (h : readTerms numbering stop inside s input hb = .ok r) :
    Reads numbering room start r.value r.rest := by
  fun_induction readTerms numbering stop inside s input hb with
  | case1 => cases h
  | case2 s position rest _ p after ha hp _ ih => exact ih (hs.add (readProduct_reads hin hp)) h
  | case3 s input hb _ =>
    cases h
    exact hs

theorem readSum_reads {input : List Lexeme} {r : Reading (Expr n .sum) input.length}
    (h : readSum numbering stop inside input = .ok r) :
    Reads numbering room input r.value r.rest := by
  unfold readSum at h
  split at h
  · cases h
  · next p rest hr hp => exact readTerms_reads hin (readProduct_reads hin hp).term h

end Sound

theorem readGroup_reads (position : Nat) (input : List Lexeme)
    (r : Reading (Expr n .sum) input.length)
    (h : readGroup numbering stop room position input = .ok r) :
    0 < room ∧ Reads numbering (room - 1) input r.value r.rest := by
  induction room generalizing position input with
  | zero => cases h
  | succ room ih => exact ⟨Nat.succ_pos room, readSum_reads ih h⟩

theorem atFactor_of_spells {f : Expr n .factor} {read : List Lexeme}
    (h : Spells numbering f (read.map Lexeme.token)) (rest : List Lexeme) :
    atFactor (read ++ rest) = true := by
  generalize hts : read.map Lexeme.token = ts at h
  have key : ∀ t us, ts = t :: us → t.startsFactor = true → atFactor (read ++ rest) = true := by
    rintro t us rfl ht
    obtain ⟨first, more, rfl, rfl, -⟩ := List.map_eq_cons_iff.1 hts
    exact ht
  cases h with
  | zero => exact key _ _ rfl rfl
  | one => exact key _ _ rfl rfl
  | var => exact key _ _ rfl rfl
  | group => exact key _ _ rfl rfl

/-- The input after a sum: no factor and no plus that would continue it. -/
def EndsSum (rest : List Lexeme) : Prop :=
  ∀ next ∈ rest.head?, next.token.startsFactor = false ∧ next.token ≠ .plus

theorem endsSum_nil : EndsSum [] := by
  intro next h
  cases h

theorem EndsSum.atFactor {rest : List Lexeme} (h : EndsSum rest) : atFactor rest = false := by
  cases rest with
  | nil => rfl
  | cons next rest => exact (h next rfl).1

theorem readFactors_done {bound : Nat} {p : Expr n .product} {rest : List Lexeme}
    (hr : atFactor rest = false) (hb : rest.length < bound) :
    readFactors numbering stop inside p rest hb = .ok ⟨p, rest, hb⟩ := by
  rw [readFactors, if_neg (by rw [hr]; exact Bool.false_ne_true)]

theorem readTerms_done {bound : Nat} {s : Expr n .sum} {rest : List Lexeme} (hr : EndsSum rest)
    (hb : rest.length < bound) :
    readTerms numbering stop inside s rest hb = .ok ⟨s, rest, hb⟩ := by
  cases rest with
  | nil =>
    rw [readTerms]
    intro position after _ he
    cases he
  | cons next rest =>
    rw [readTerms]
    intro position after _ he _
    obtain ⟨rfl, -⟩ := List.cons_eq_cons.1 he
    exact (hr _ rfl).2 rfl

/-- What the reader of each level does with a spelling in front of a rest: a factor is done, a
product or a sum goes on with what may continue it. -/
def ReadOff (numbering : Numbering) (stop : Nat) (inside : Nat → Reader (Expr n .sum)) :
    (l : Level) → Expr n l → List Lexeme → Prop
  | .factor, f, read => ∀ rest,
      ∃ hr, readFactor numbering stop inside (read ++ rest) = .ok ⟨f, rest, hr⟩
  | .product, p, read => ∀ rest,
      ∃ hr, readProduct numbering stop inside (read ++ rest) =
        readFactors numbering stop inside p rest hr
  | .sum, s, read => ∀ rest, atFactor rest = false →
      ∃ hr, readSum numbering stop inside (read ++ rest) =
        readTerms numbering stop inside s rest hr

section Complete

variable (stop : Nat) {inside : Nat → Reader (Expr n .sum)} (hin : ∀ position (e : Expr n .sum) read rest,
  Spells numbering e (read.map Lexeme.token) → e.depth < room → EndsSum rest →
    ∃ h, inside position (read ++ rest) = .ok ⟨e, rest, h⟩)
include hin

theorem readOff_group {e : Expr n .sum} {read : List Lexeme} (position found : Nat)
    (h : Spells numbering e (read.map Lexeme.token)) (hd : e.depth < room) :
    ReadOff numbering stop inside .factor (.group e)
      (⟨.opening, position⟩ :: (read ++ [⟨.closing, found⟩])) := by
  intro rest
  have hends : EndsSum (⟨.closing, found⟩ :: rest) := by
    rintro next ⟨⟩
    exact ⟨rfl, nofun⟩
  obtain ⟨hr, hread⟩ := hin position e read (⟨.closing, found⟩ :: rest) h hd hends
  rw [List.cons_append, List.append_assoc, List.singleton_append]
  refine ⟨Nat.lt_succ_of_lt (Nat.lt_trans (Nat.lt_succ_self _) hr), ?_⟩
  rw [readFactor, hread]

/-- Induction on the spelling; only inside a group does the reader depend on the room. -/
theorem readOff_of_spells {l : Level} {e : Expr n l} {ts : List Token}
    (h : Spells numbering e ts) (hd : e.depth ≤ room) {read : List Lexeme}
    (hts : read.map Lexeme.token = ts) : ReadOff numbering stop inside l e read := by
  induction h generalizing read with
  | zero =>
    obtain ⟨⟨_, position⟩, rfl, rfl⟩ := List.map_eq_singleton_iff.1 hts
    exact fun rest => ⟨Nat.lt_succ_self _, rfl⟩
  | one =>
    obtain ⟨⟨_, position⟩, rfl, rfl⟩ := List.map_eq_singleton_iff.1 hts
    exact fun rest => ⟨Nat.lt_succ_self _, rfl⟩
  | @var i digits hne hi =>
    obtain ⟨⟨_, position⟩, rfl, rfl⟩ := List.map_eq_singleton_iff.1 hts
    have hv : readVariable n numbering digits position = .ok i :=
      readVariable_eq_ok_iff.2 ⟨hne, hi⟩
    intro rest
    refine ⟨Nat.lt_succ_self _, ?_⟩
    simp only [List.singleton_append, readFactor, hv]
  | group h _ =>
    obtain ⟨⟨_, position⟩, more, rfl, rfl, hmore⟩ := List.map_eq_cons_iff.1 hts
    obtain ⟨read, last, rfl, rfl, hlast⟩ := List.map_eq_append_iff.1 hmore
    obtain ⟨⟨_, found⟩, rfl, rfl⟩ := List.map_eq_singleton_iff.1 hlast
    exact readOff_group stop hin position found h hd
  | single _ ih =>
    intro rest
    obtain ⟨hr, hread⟩ := ih hd hts rest
    refine ⟨hr, ?_⟩
    rw [readProduct, hread]
  | mul _ hf ih ihf =>
    obtain ⟨read, more, rfl, rfl, rfl⟩ := List.map_eq_append_iff.1 hts
    obtain ⟨hdp, hdf⟩ := Nat.max_le.1 hd
    intro rest
    obtain ⟨hr, hread⟩ := ih hdp rfl (more ++ rest)
    obtain ⟨hr', hmore⟩ := ihf hdf rfl rest
    rw [List.append_assoc, hread, readFactors, if_pos (atFactor_of_spells hf rest), hmore]
    exact ⟨_, rfl⟩
  | term _ ih =>
    intro rest hrest
    obtain ⟨hr, hread⟩ := ih hd hts rest
    refine ⟨hr, ?_⟩
    rw [readSum, hread, readFactors_done hrest]
  | add _ _ ih ihp =>
    obtain ⟨read, more, rfl, rfl, hmore⟩ := List.map_eq_append_iff.1 hts
    obtain ⟨⟨_, position⟩, more, rfl, rfl, rfl⟩ := List.map_eq_cons_iff.1 hmore
    obtain ⟨hds, hdp⟩ := Nat.max_le.1 hd
    intro rest hrest
    obtain ⟨hr, hread⟩ := ih hds rfl (⟨.plus, position⟩ :: (more ++ rest)) rfl
    obtain ⟨hr', hproduct⟩ := ihp hdp rfl rest
    rw [List.append_assoc, List.cons_append, hread, readTerms, hproduct, readFactors_done hrest]
    exact ⟨_, rfl⟩

end Complete

theorem readGroup_spelled (stop position : Nat) (e : Expr n .sum) (read rest : List Lexeme)
    (h : Spells numbering e (read.map Lexeme.token)) (hd : e.depth < room) (hrest : EndsSum rest) :
    ∃ hr, readGroup numbering stop room position (read ++ rest) = .ok ⟨e, rest, hr⟩ := by
  induction room generalizing position e read rest with
  | zero => exact absurd hd (Nat.not_lt_zero _)
  | succ room ih =>
    obtain ⟨hr, hread⟩ :=
      readOff_of_spells stop ih h (Nat.le_of_lt_succ hd) rfl rest hrest.atFactor
    exact ⟨hr, hread.trans (readTerms_done hrest hr)⟩

theorem readSum_of_spells (stop : Nat) {e : Expr n .sum} {read : List Lexeme}
    (h : Spells numbering e (read.map Lexeme.token)) (hd : e.depth ≤ room) :
    ∃ hr, readSum numbering stop (readGroup numbering stop room) read = .ok ⟨e, [], hr⟩ := by
  obtain ⟨hr, hread⟩ := readOff_of_spells stop (readGroup_spelled stop) h hd rfl [] rfl
  have hdone := hread.trans (readTerms_done endsSum_nil hr)
  generalize hinput : read ++ [] = input at hr hdone
  rw [List.append_nil] at hinput
  subst hinput
  exact ⟨hr, hdone⟩

theorem Spells.ne_nil {l : Level} {e : Expr n l} {ts : List Token} (h : Spells numbering e ts) :
    ts ≠ [] := by
  induction h with
  | zero | one | var | group => nofun
  | single _ ih => exact ih
  | mul _ _ ih _ => exact List.append_ne_nil_of_left_ne_nil ih _
  | term _ ih => exact ih
  | add _ _ ih _ => exact List.append_ne_nil_of_left_ne_nil ih _

/-- The readers succeed on the spellings of trees that are not too deep, and give back the tree. -/
theorem ofLexemes_eq_ok_iff {input : List Lexeme} {e : Expr n .sum} :
    ofLexemes n numbering stop input = .ok e ↔
      Spells numbering e (input.map Lexeme.token) ∧ e.depth ≤ maxNesting := by
  constructor
  · intro h
    unfold ofLexemes at h
    split at h
    · cases h
    · split at h
      · cases h
      · next hread =>
        cases h
        obtain ⟨read, he, hs, hd⟩ := readSum_reads readGroup_reads hread
        rw [List.append_nil] at he
        rw [he]
        exact ⟨hs, hd⟩
      · cases h
  · rintro ⟨hs, hd⟩
    cases input with
    | nil => exact absurd rfl hs.ne_nil
    | cons first input =>
      obtain ⟨hr, hread⟩ := readSum_of_spells stop hs hd
      rw [ofLexemes, hread]

/-- The grammar is unambiguous: read with room for both, a spelling gives back either tree. -/
theorem Spells.unique {e e' : Expr n .sum} {ts : List Token} (h : Spells numbering e ts)
    (h' : Spells numbering e' ts) : e = e' := by
  obtain ⟨read, rfl⟩ : ∃ read : List Lexeme, read.map Lexeme.token = ts :=
    ⟨ts.map (⟨·, 0⟩), by simp [Function.comp_def]⟩
  obtain ⟨hr, hread⟩ := readSum_of_spells 0 h (Nat.le_max_left _ e'.depth)
  obtain ⟨hr', hread'⟩ := readSum_of_spells 0 h' (Nat.le_max_right e.depth _)
  have he := Except.ok.inj (hread.symm.trans hread')
  exact congrArg Reading.value he

end Keystream.Expr
