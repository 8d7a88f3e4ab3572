import Keystream.Proofs.Sources

/-!
# Walks through the outputs of a table

A walk makes calls on one cursor. Whatever they are, the cursor answers like a place in the list of
all outputs, which is never moved beyond the end of the list. The outputs that a whole walk collects
are those of the table, and the table is made from them again.
-/

namespace Keystream.TruthTable

namespace Cursor

inductive Call where
  | next
  | nth (k : Nat)
  | remaining

inductive Answer where
  | output (b : Option Bool)
  | count (n : Nat)

def Call.perform : Call → Cursor → Answer × Cursor
  | next, c => (.output c.next.1, c.next.2)
  | nth k, c => (.output (c.nth k).1, (c.nth k).2)
  | remaining, c => (.count c.remaining, c)

/-- A place in a list of outputs. -/
structure Place where
  outputs : List Bool
  position : Nat

/-- Another place in the same list, or its end. -/
def Place.moveTo (p : Place) (position : Nat) : Place :=
  ⟨p.outputs, min position p.outputs.length⟩

/-- The call on a list of outputs: an entry of the list, and the place behind it. -/
def Call.follow : Call → Place → Answer × Place
  | next, p => (.output p.outputs[p.position]?, p.moveTo (p.position + 1))
  | nth k, p => (.output p.outputs[p.position + k]?, p.moveTo (p.position + k + 1))
  | remaining, p => (.count (p.outputs.length - p.position), p)

def place (c : Cursor) : Place :=
  ⟨(List.range (2 ^ c.table.arity)).map c.table.lookup, c.position⟩

theorem length_place (c : Cursor) : c.place.outputs.length = c.last + 1 := by
  rw [place, List.length_map, List.length_range, last_add_one]

theorem getElem?_place_of_le {c : Cursor} {x : Nat} (h : x ≤ c.last) :
    c.place.outputs[x]? = some (c.table.lookup x) := by
  have hx : x < 2 ^ c.table.arity := by
    rw [← last_add_one]
    exact Nat.lt_succ_of_le h
  rw [place, List.getElem?_map, List.getElem?_range hx, Option.map_some]

theorem getElem?_place_of_lt {c : Cursor} {x : Nat} (h : c.last < x) :
    c.place.outputs[x]? = none := by
  rw [List.getElem?_eq_none_iff, length_place]
  exact h

theorem next_of_lt {c : Cursor} (h : c.last < c.position) : c.next = (none, c) :=
  next_of_remaining (Nat.sub_eq_zero_of_le h)

theorem place_after {c : Cursor} (h : c.position ≤ c.last) :
    (c.after h).place = c.place.moveTo (c.position + 1) := by
  rw [Place.moveTo, length_place, Nat.min_eq_left (Nat.succ_le_succ h)]
  rfl

theorem moveTo_of_lt {c : Cursor} (h : c.last < c.position) (k : Nat) :
    c.place.moveTo (c.position + k) = c.place := by
  have hend : min (c.position + k) c.place.outputs.length = c.position := by
    rw [length_place, Nat.le_antisymm c.position_le h]
    exact Nat.min_eq_right (Nat.le_add_right _ k)
  rw [Place.moveTo, hend]
  rfl

theorem place_next (c : Cursor) :
    c.next.1 = c.place.outputs[c.position]? ∧
      c.next.2.place = c.place.moveTo (c.position + 1) := by
  rcases Nat.lt_or_ge c.last c.position with h | h
  · rw [next_of_lt h, getElem?_place_of_lt h, moveTo_of_lt h]
    exact ⟨rfl, rfl⟩
  · rw [next_of_le h, getElem?_place_of_le h, place_after h]
    exact ⟨rfl, rfl⟩

/-- Reading one output after another is one move in the list. -/
theorem place_nth (c : Cursor) (k : Nat) :
    (c.nth k).1 = c.place.outputs[c.position + k]? ∧
      (c.nth k).2.place = c.place.moveTo (c.position + k + 1) := by
  induction k generalizing c with
  | zero => exact c.place_next
  | succ k ih =>
    -- At the end the reading stops at once, and there the move in the list is no move.
    rcases Nat.lt_or_ge c.last c.position with h | h
    · rw [nth, next_of_lt h, getElem?_place_of_lt (Nat.lt_add_right _ h), Nat.add_assoc,
        moveTo_of_lt h]
      exact ⟨rfl, rfl⟩
    · obtain ⟨houtput, hplace⟩ := ih (c.after h)
      have hskip : (c.after h).position + k = c.position + (k + 1) := by
        rw [Nat.add_comm k 1, ← Nat.add_assoc]
        rfl
      rw [nth, next_of_le h]
      rw [hskip] at houtput hplace
      exact ⟨houtput, hplace⟩

theorem follow_place (call : Call) (c : Cursor) :
    call.follow c.place = ((call.perform c).1, (call.perform c).2.place) := by
  cases call with
  | next =>
    obtain ⟨houtput, hplace⟩ := c.place_next
    rw [Call.perform, houtput, hplace]
    rfl
  | nth k =>
    obtain ⟨houtput, hplace⟩ := c.place_nth k
    rw [Call.perform, houtput, hplace]
    rfl
  | remaining =>
    rw [Call.follow, length_place]
    rfl

theorem outputs_follow (call : Call) (p : Place) : (call.follow p).2.outputs = p.outputs := by
  cases call <;> rfl

theorem remaining_eq (c : Cursor) : c.remaining = c.place.outputs.length - c.place.position := by
  rw [length_place]
  rfl

theorem remaining_of_nth {c : Cursor} {k : Nat} (h : (c.nth k).1 = none) :
    (c.nth k).2.remaining = 0 := by
  obtain ⟨houtput, hplace⟩ := c.place_nth k
  rw [h, eq_comm, List.getElem?_eq_none_iff] at houtput
  have hend : c.place.outputs.length ≤ c.position + k + 1 := Nat.le_succ_of_le houtput
  rw [remaining_eq, hplace, Place.moveTo, Nat.min_eq_right hend, Nat.sub_self]

/-- Whoever is told that there is no output has the cursor at the end. -/
theorem remaining_of_perform {call : Call} {c : Cursor} (h : (call.perform c).1 = .output none) :
    (call.perform c).2.remaining = 0 := by
  cases call with
  | next => exact remaining_of_nth (k := 0) (Answer.output.inj h)
  | nth k => exact remaining_of_nth (Answer.output.inj h)
  | remaining => cases h

theorem nth_of_remaining {c : Cursor} (h : c.remaining = 0) (k : Nat) : c.nth k = (none, c) := by
  cases k with
  | zero => exact next_of_remaining h
  | succ k => rw [nth, next_of_remaining h]

theorem perform_of_remaining {c : Cursor} (h : c.remaining = 0) (call : Call) :
    ((call.perform c).1 = .output none ∨ (call.perform c).1 = .count 0) ∧
      (call.perform c).2 = c := by
  cases call with
  | next =>
    rw [Call.perform, next_of_remaining h]
    exact ⟨.inl rfl, rfl⟩
  | nth k =>
    rw [Call.perform, nth_of_remaining h]
    exact ⟨.inl rfl, rfl⟩
  | remaining =>
    rw [Call.perform, h]
    exact ⟨.inr rfl, rfl⟩

theorem performAll_of_remaining {c : Cursor} (h : c.remaining = 0) (calls : List Call) :
    ∀ a ∈ (performAll Call.perform calls c).1, a = .output none ∨ a = .count 0 := by
  induction calls with
  | nil => exact fun a ha => absurd ha List.not_mem_nil
  | cons call calls ih =>
    obtain ⟨hanswer, hsame⟩ := perform_of_remaining h call
    rw [performAll_cons, hsame]
    intro a ha
    rcases List.mem_cons.1 ha with rfl | ha
    · exact hanswer
    · exact ih a ha

theorem remaining_of_performAll {calls : List Call} {c : Cursor}
    (h : .output none ∈ (performAll Call.perform calls c).1) :
    (performAll Call.perform calls c).2.remaining = 0 := by
  induction calls generalizing c with
  | nil => exact absurd h List.not_mem_nil
  | cons call calls ih =>
    rw [performAll_cons] at h ⊢
    rcases List.mem_cons.1 h with h | h
    · have hkeeps : ∀ (call : Call) (d : Cursor), d.remaining = 0 →
          (call.perform d).2.remaining = 0 := by
        intro call d hd
        rw [(perform_of_remaining hd call).2, hd]
      exact performAll_keeps hkeeps calls (remaining_of_perform h.symm)
    · exact ih h

end Cursor

theorem place_start (t : TruthTable) : t.start.place = ⟨t.start.toList, 0⟩ := by
  rw [toList_start]
  rfl

theorem getElem?_toList_start (t : TruthTable) (x : Nat) (b : Bool) :
    t.start.toList[x]? = some b ↔ t.output x = .ok b := by
  rw [toList_start]
  rcases Nat.lt_or_ge x (2 ^ t.arity) with hx | hx
  · rw [List.getElem?_map, List.getElem?_range hx, t.output_of_lt hx, Option.map_some,
      Option.some_inj, Except.ok.injEq]
  · rw [List.getElem?_eq_none (by rwa [List.length_map, List.length_range]), t.output_of_le hx]
    exact iff_of_false (by rintro ⟨⟩) (by rintro ⟨⟩)

theorem outputs_performAll (t : TruthTable) (calls : List Cursor.Call) :
    (performAll Cursor.Call.perform calls t.start).2.place.outputs = t.start.toList := by
  have hview := performAll_view Cursor.follow_place calls t.start
  have hkeeps := performAll_keeps (P := fun p => p.outputs = t.start.toList)
    (fun call p hp => (Cursor.outputs_follow call p).trans hp) calls
    (congrArg Cursor.Place.outputs t.place_start)
  rwa [hview] at hkeeps

/-- A walk of any calls is the same walk in the list of outputs. -/
theorem performAll_start (t : TruthTable) (calls : List Cursor.Call) :
    performAll Cursor.Call.follow calls ⟨t.start.toList, 0⟩ =
      ((performAll Cursor.Call.perform calls t.start).1,
        ⟨t.start.toList, (performAll Cursor.Call.perform calls t.start).2.position⟩) := by
  rw [← place_start, performAll_view Cursor.follow_place, ← outputs_performAll t calls]
  rfl

/-- The outputs, written as numbers, make a table with the same outputs. -/
theorem exists_ofNumbers_toList (t : TruthTable) :
    ∃ u, ofNumbers t.arity (t.start.toList.map Bool.toNat) = .ok u ∧
      (∀ x, u.output x = t.output x) ∧ ((t.isSmall = true ↔ t.arity ≤ 6) → u = t) := by
  obtain ⟨u, hu, hc⟩ := exists_ofNumbers_map t.arity_pos t.arity_le t.lookup
  rw [← t.packed_eq_pack] at hc
  refine ⟨u, ?_, output_congr hc.arity_eq hc.packed_eq, ?_⟩
  · rw [toList_start, List.map_map]
    exact hu
  · intro hs
    exact hc.unique ⟨rfl, rfl, hs⟩

/-- The outputs that are collected are those of the table, as many as its inputs, with as many ones
as its weight. Calls on a cursor are answered from them, at places from the first one on; from the
end of the list on there is nothing more. The table can be made from them again. -/
theorem walks_follow_outputs (t : TruthTable) :
    t.start.toList.length = 2 ^ t.arity ∧
    (∀ x b, t.start.toList[x]? = some b ↔ t.output x = .ok b) ∧
    t.start.toList.count true = t.weight ∧
    (∀ calls : List Cursor.Call,
      performAll Cursor.Call.follow calls ⟨t.start.toList, 0⟩ =
        ((performAll Cursor.Call.perform calls t.start).1,
          ⟨t.start.toList, (performAll Cursor.Call.perform calls t.start).2.position⟩)) ∧
    (∀ calls later : List Cursor.Call,
      .output none ∈ (performAll Cursor.Call.perform calls t.start).1 ∨
          (performAll Cursor.Call.perform calls t.start).2.position = 2 ^ t.arity →
        ∀ a ∈ (performAll Cursor.Call.perform later
            (performAll Cursor.Call.perform calls t.start).2).1,
          a = .output none ∨ a = .count 0) ∧
    ∃ u, ofNumbers t.arity (t.start.toList.map Bool.toNat) = .ok u ∧
      (∀ x, u.output x = t.output x) ∧ ((t.isSmall = true ↔ t.arity ≤ 6) → u = t) := by
  have hlength : t.start.toList.length = 2 ^ t.arity := by
    rw [toList_start, List.length_map, List.length_range]
  refine ⟨hlength, t.getElem?_toList_start, ?_, t.performAll_start, ?_,
    t.exists_ofNumbers_toList⟩
  · rw [toList_start, weight_eq_countP, List.count_eq_countP, List.countP_map]
    apply List.countP_congr
    intro x _
    rw [Function.comp_apply, beq_true]
  · intro calls later hend
    apply Cursor.performAll_of_remaining
    rcases hend with hnone | hposition
    · exact Cursor.remaining_of_performAll hnone
    · rw [Cursor.remaining_eq, outputs_performAll, hlength]
      exact Nat.sub_eq_zero_of_le (Nat.le_of_eq hposition.symm)

/-- A walk past the end of the sum of two variables, and one that ends behind the last output of a
large table of one variable. -/
theorem walks_follow_outputs_example :
    (∃ t, ofPacked 2 6 = .ok t ∧ (t.isSmall = true ↔ t.arity ≤ 6) ∧
      (performAll Cursor.Call.perform [.next, .nth 1, .remaining, .nth 5] t.start).1 =
        [.output (some false), .output (some true), .count 1, .output none] ∧
      (∀ a ∈ (performAll Cursor.Call.perform [.next, .nth 0, .remaining]
          (performAll Cursor.Call.perform [.next, .nth 1, .remaining, .nth 5] t.start).2).1,
        a = .output none ∨ a = .count 0) ∧
      ofNumbers t.arity (t.start.toList.map Bool.toNat) = .ok t) ∧
    ∃ u, LargeTable.ofPacked 1 2 = .ok u ∧
      (performAll Cursor.Call.perform [.nth 1] (large u).start).2.position =
        2 ^ (large u).arity ∧
      ∀ a ∈ (performAll Cursor.Call.perform [.next]
          (performAll Cursor.Call.perform [.nth 1] (large u).start).2).1,
        a = .output none ∨ a = .count 0 := by
  obtain ⟨t, ht, hs, hrun⟩ : ∃ t, ofPacked 2 6 = .ok t ∧ (t.isSmall = true ↔ t.arity ≤ 6) ∧
      (performAll Cursor.Call.perform [.next, .nth 1, .remaining, .nth 5] t.start).1 =
        [.output (some false), .output (some true), .count 1, .output none] :=
    ⟨_, rfl, by decide, rfl⟩
  obtain ⟨u, hu, hposition⟩ : ∃ u, LargeTable.ofPacked 1 2 = .ok u ∧
      (performAll Cursor.Call.perform [.nth 1] (large u).start).2.position = 2 ^ (large u).arity :=
    ⟨_, rfl, rfl⟩
  have hnone : .output none ∈
      (performAll Cursor.Call.perform [.next, .nth 1, .remaining, .nth 5] t.start).1 := by
    rw [hrun]
    exact List.mem_of_getLast? rfl
  obtain ⟨-, -, -, -, hend, v, hv, -, hcanonical⟩ := walks_follow_outputs t
  obtain ⟨-, -, -, -, hend', -⟩ := walks_follow_outputs (large u)
  rw [hcanonical hs] at hv
  exact ⟨⟨t, ht, hs, hrun, hend _ _ (.inl hnone), hv⟩, u, hu, hposition,
    hend' _ _ (.inr hposition)⟩

end Keystream.TruthTable
