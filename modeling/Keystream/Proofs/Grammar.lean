import Keystream.Expr.Parser

/-!
# The grammar of expressions

`Sentence` gives the productions for lists of tokens, whatever the variables are called, and
`Expr.Spells` the lists of tokens that spell a tree. A sentence whose variables are all in range
spells some tree. Parentheses nest in a list of tokens exactly as deep as groups do in its tree.
-/

namespace Keystream

inductive Sentence : Level → List Token → Prop where
  | zero : Sentence .factor [.zero]
  | one : Sentence .factor [.one]
  | var {digits : List Char} (hd : digits ≠ []) : Sentence .factor [.var digits]
  | group {ts : List Token} (h : Sentence .sum ts) :
      Sentence .factor (.opening :: (ts ++ [.closing]))
  | single {ts : List Token} (h : Sentence .factor ts) : Sentence .product ts
  | mul {ts us : List Token} (h : Sentence .product ts) (hf : Sentence .factor us) :
      Sentence .product (ts ++ us)
  | term {ts : List Token} (h : Sentence .product ts) : Sentence .sum ts
  | add {ts us : List Token} (h : Sentence .sum ts) (hp : Sentence .product us) :
      Sentence .sum (ts ++ .plus :: us)

/-- Every variable is one of `n` under the numbering. -/
def VariablesIn (n : Nat) (numbering : Numbering) (ts : List Token) : Prop :=
  ∀ digits, .var digits ∈ ts →
    numbering.first ≤ Expr.decimal digits ∧ Expr.decimal digits < numbering.first + n

def Balanced (ts : List Token) : Prop :=
  ts.count .opening = ts.count .closing

/-- No place between two tokens lies inside more than `k` open parentheses. -/
def NestedWithin (k : Nat) (ts : List Token) : Prop :=
  ∀ before after, ts = before ++ after → before.count .opening ≤ before.count .closing + k

theorem Balanced.append {ts us : List Token} (ht : Balanced ts) (hu : Balanced us) :
    Balanced (ts ++ us) := by
  unfold Balanced at ht hu ⊢
  rw [List.count_append, List.count_append, ht, hu]

theorem nestedWithin_nil (k : Nat) : NestedWithin k [] := by
  intro before after he
  obtain ⟨rfl, -⟩ := List.append_eq_nil_iff.1 he.symm
  exact Nat.zero_le _

theorem nestedWithin_cons_of_ne {k : Nat} {t : Token} (ho : t ≠ .opening) (hc : t ≠ .closing)
    {ts : List Token} : NestedWithin k (t :: ts) ↔ NestedWithin k ts := by
  have hcount : ∀ before : List Token, (t :: before).count .opening = before.count .opening ∧
      (t :: before).count .closing = before.count .closing := fun before =>
    ⟨List.count_cons_of_ne ho, List.count_cons_of_ne hc⟩
  constructor
  · intro h before after he
    have hb := h (t :: before) after (by rw [he]; rfl)
    rwa [(hcount before).1, (hcount before).2] at hb
  · rintro h (_ | ⟨u, before⟩) after he
    · exact Nat.zero_le _
    · obtain ⟨rfl, rfl⟩ := List.cons_eq_cons.1 he
      rw [(hcount before).1, (hcount before).2]
      exact h before after rfl

theorem nestedWithin_leaf {k : Nat} {t : Token} (ho : t ≠ .opening) (hc : t ≠ .closing) :
    NestedWithin k [t] ↔ 0 ≤ k :=
  (nestedWithin_cons_of_ne ho hc).trans (iff_of_true (nestedWithin_nil k) (Nat.zero_le k))

theorem nestedWithin_append {k : Nat} {ts us : List Token} (ht : Balanced ts) :
    NestedWithin k (ts ++ us) ↔ NestedWithin k ts ∧ NestedWithin k us := by
  unfold Balanced at ht
  constructor
  · intro h
    constructor
    · intro before after he
      exact h before (after ++ us) (by rw [he, List.append_assoc])
    · intro before after he
      have hb := h (ts ++ before) after (by rw [he, List.append_assoc])
      rw [List.count_append, List.count_append] at hb
      omega
  · rintro ⟨hts, hus⟩ before after he
    rcases List.append_eq_append_iff.1 he with ⟨more, rfl, hmore⟩ | ⟨more, hmore, -⟩
    · have hb := hus more after hmore
      rw [List.count_append, List.count_append]
      omega
    · exact hts before more hmore

theorem nestedWithin_group {k : Nat} {ts : List Token} (ht : Balanced ts) :
    NestedWithin k (.opening :: (ts ++ [.closing])) ↔ 0 < k ∧ NestedWithin (k - 1) ts := by
  unfold Balanced at ht
  have hne : Token.opening ≠ .closing := by decide
  constructor
  · intro h
    have hk : 0 < k := by
      have hb := h [.opening] (ts ++ [.closing]) rfl
      rw [List.count_singleton_self, List.count_singleton] at hb
      exact Nat.lt_of_lt_of_le Nat.one_pos (by simpa using hb)
    refine ⟨hk, ?_⟩
    intro before after he
    have hb := h (.opening :: before) (after ++ [.closing]) (by rw [he]; simp)
    simp only [List.count_cons_self, List.count_cons_of_ne hne] at hb
    omega
  · rintro ⟨hk, h⟩ (_ | ⟨u, before⟩) after he
    · exact Nat.zero_le _
    · obtain ⟨rfl, hin⟩ := List.cons_eq_cons.1 he
      simp only [List.count_cons_self, List.count_cons_of_ne hne]
      rcases List.append_eq_append_iff.1 hin with ⟨more, rfl, hmore⟩ | ⟨more, hmore, -⟩
      · -- the prefix holds all of the group's inside, and perhaps its end
        rw [List.count_append, List.count_append]
        have hle : more.count Token.opening = 0 := by
          apply List.count_eq_zero_of_not_mem
          intro hmem
          have := List.mem_append_left after hmem
          rw [← hmore] at this
          simp at this
        omega
      · have hb := h before more hmore
        omega

namespace Expr

variable {n : Nat} {numbering : Numbering}

inductive Spells (numbering : Numbering) : {l : Level} → Expr n l → List Token → Prop where
  | zero : Spells numbering (.const false) [.zero]
  | one : Spells numbering (.const true) [.one]
  | var {i : Fin n} {digits : List Char} (hd : digits ≠ [])
      (hi : decimal digits = numbering.first + i) : Spells numbering (.var i) [.var digits]
  | group {e : Expr n .sum} {ts : List Token} (h : Spells numbering e ts) :
      Spells numbering (.group e) (.opening :: (ts ++ [.closing]))
  | single {f : Expr n .factor} {ts : List Token} (h : Spells numbering f ts) :
      Spells numbering (.single f) ts
  | mul {p : Expr n .product} {f : Expr n .factor} {ts us : List Token}
      (h : Spells numbering p ts) (hf : Spells numbering f us) :
      Spells numbering (.mul p f) (ts ++ us)
  | term {p : Expr n .product} {ts : List Token} (h : Spells numbering p ts) :
      Spells numbering (.term p) ts
  | add {s : Expr n .sum} {p : Expr n .product} {ts us : List Token}
      (h : Spells numbering s ts) (hp : Spells numbering p us) :
      Spells numbering (.add s p) (ts ++ .plus :: us)

/-- How many groups lie inside each other. -/
def depth {l : Level} : Expr n l → Nat
  | const _ => 0
  | var _ => 0
  | group e => e.depth + 1
  | single f => f.depth
  | mul p f => max p.depth f.depth
  | term p => p.depth
  | add s p => max s.depth p.depth

theorem Spells.sentence {l : Level} {e : Expr n l} {ts : List Token} (h : Spells numbering e ts) :
    Sentence l ts := by
  induction h with
  | zero => exact .zero
  | one => exact .one
  | var hd _ => exact .var hd
  | group _ ih => exact .group ih
  | single _ ih => exact .single ih
  | mul _ _ ih ihf => exact .mul ih ihf
  | term _ ih => exact .term ih
  | add _ _ ih ihp => exact .add ih ihp

theorem Spells.variablesIn {l : Level} {e : Expr n l} {ts : List Token}
    (h : Spells numbering e ts) : VariablesIn n numbering ts := by
  induction h with
  | zero | one => intro digits hmem; simp at hmem
  | @var i ds _ hi =>
    intro digits hmem
    obtain rfl : digits = ds := by simpa using hmem
    have := i.isLt
    omega
  | group _ ih => intro digits hmem; exact ih digits (by simpa using hmem)
  | single _ ih => exact ih
  | mul _ _ ih ihf =>
    intro digits hmem
    exact (List.mem_append.1 hmem).elim (ih digits) (ihf digits)
  | term _ ih => exact ih
  | add _ _ ih ihp =>
    intro digits hmem
    rcases List.mem_append.1 hmem with hmem | hmem
    · exact ih digits hmem
    · exact ihp digits (by simpa using hmem)

theorem exists_spells {l : Level} {ts : List Token} (h : Sentence l ts)
    (hv : VariablesIn n numbering ts) : ∃ e : Expr n l, Spells numbering e ts := by
  induction h with
  | zero => exact ⟨_, .zero⟩
  | one => exact ⟨_, .one⟩
  | @var digits hd =>
    obtain ⟨hmin, hmax⟩ := hv digits List.mem_cons_self
    exact ⟨.var ⟨decimal digits - numbering.first, by omega⟩, .var hd (by simp only; omega)⟩
  | group _ ih =>
    obtain ⟨e, he⟩ := ih fun digits hmem => hv digits (by simp [hmem])
    exact ⟨_, .group he⟩
  | single _ ih =>
    obtain ⟨f, hf⟩ := ih hv
    exact ⟨_, .single hf⟩
  | mul _ _ ih ihf =>
    obtain ⟨p, hp⟩ := ih fun digits hmem => hv digits (List.mem_append_left _ hmem)
    obtain ⟨f, hf⟩ := ihf fun digits hmem => hv digits (List.mem_append_right _ hmem)
    exact ⟨_, .mul hp hf⟩
  | term _ ih =>
    obtain ⟨p, hp⟩ := ih hv
    exact ⟨_, .term hp⟩
  | add _ _ ih ihp =>
    obtain ⟨s, hs⟩ := ih fun digits hmem => hv digits (List.mem_append_left _ hmem)
    obtain ⟨p, hp⟩ := ihp fun digits hmem => hv digits (by simp [hmem])
    exact ⟨_, .add hs hp⟩

theorem Spells.balanced {l : Level} {e : Expr n l} {ts : List Token} (h : Spells numbering e ts) :
    Balanced ts := by
  induction h with
  | zero | one | var => simp [Balanced]
  | group _ ih =>
    unfold Balanced at ih ⊢
    simp [ih]
  | single _ ih => exact ih
  | mul _ _ ih ihf => exact ih.append ihf
  | term _ ih => exact ih
  | add _ _ ih ihp =>
    apply ih.append
    unfold Balanced at ihp ⊢
    simpa using ihp

theorem Spells.nestedWithin_iff {l : Level} {e : Expr n l} {ts : List Token}
    (h : Spells numbering e ts) {k : Nat} : NestedWithin k ts ↔ e.depth ≤ k := by
  induction h generalizing k with
  | zero => exact nestedWithin_leaf (by decide) (by decide)
  | one => exact nestedWithin_leaf (by decide) (by decide)
  | var => exact nestedWithin_leaf nofun nofun
  | group h ih =>
    rw [nestedWithin_group h.balanced, ih, depth]
    omega
  | single _ ih => exact ih
  | mul h _ ih ihf => rw [nestedWithin_append h.balanced, ih, ihf, depth, Nat.max_le]
  | term _ ih => exact ih
  | add h _ ih ihp =>
    rw [nestedWithin_append h.balanced, nestedWithin_cons_of_ne (by decide) (by decide), ih,
      ihp, depth, Nat.max_le]

end Expr

end Keystream
