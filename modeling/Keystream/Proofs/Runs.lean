/-!
# Runs of calls

A call takes a state to an answer and a state, and a run makes calls one after another. Where every
call answers a state like the state seen through a view, and leaves the state of that view, so does
every run.
-/

namespace Keystream

variable {γ σ τ α : Type}

/-- Makes calls one after another: their answers, and the state after them. -/
def performAll (perform : γ → σ → α × σ) : List γ → σ → List α × σ
  | [], s => ([], s)
  | c :: calls, s =>
    let (a, s) := perform c s
    let (answers, s) := performAll perform calls s
    (a :: answers, s)

theorem performAll_cons (perform : γ → σ → α × σ) (c : γ) (calls : List γ) (s : σ) :
    performAll perform (c :: calls) s =
      ((perform c s).1 :: (performAll perform calls (perform c s).2).1,
        (performAll perform calls (perform c s).2).2) := rfl

/-- What every call keeps, a run keeps. -/
theorem performAll_keeps {perform : γ → σ → α × σ} {P : σ → Prop}
    (h : ∀ c s, P s → P (perform c s).2) (calls : List γ) {s : σ} (hs : P s) :
    P (performAll perform calls s).2 := by
  induction calls generalizing s with
  | nil => exact hs
  | cons c calls ih => exact ih (h c s hs)

/-- The values at the positions from `p` on are that at `p` and those from the next one on. -/
theorem map_range_succ (f : Nat → α) (p n : Nat) :
    (List.range (n + 1)).map (fun i => f (p + i)) =
      f p :: (List.range n).map fun i => f (p + 1 + i) := by
  have htail : (fun i => f (p + i)) ∘ Nat.succ = fun i => f (p + 1 + i) := by
    funext i
    rw [Function.comp_apply, Nat.succ_eq_one_add, Nat.add_assoc]
  rw [List.range_succ_eq_map, List.map_cons, List.map_map, htail]
  rfl

theorem performAll_view {perform : γ → σ → α × σ} {viewed : γ → τ → α × τ} {view : σ → τ}
    (h : ∀ c s, viewed c (view s) = ((perform c s).1, view (perform c s).2)) (calls : List γ)
    (s : σ) :
    performAll viewed calls (view s) =
      ((performAll perform calls s).1, view (performAll perform calls s).2) := by
  induction calls generalizing s with
  | nil => rfl
  | cons c calls ih => rw [performAll_cons, performAll_cons, h, ih]

end Keystream
