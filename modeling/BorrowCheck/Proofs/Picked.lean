import Mathlib.Data.List.Basic

/-!
# Picking positions from a list

What stands at certain positions of a list is a list again, in which it has other positions.
`BorrowCheck.pick` takes it out, and `BorrowCheck.rank` counts the positions that are picked below a
given one: so `BorrowCheck.rank` is the new position of what is picked
(`BorrowCheck.getElem?_pick`). A list is an **interleaving** of two others when the one is picked
from it and the other one is what is left.
-/

namespace BorrowCheck

variable {α β : Type}

/-! ### The number of positions below one -/

/-- How many positions below `n` are picked. -/
def rank (kept : Nat → Bool) : Nat → Nat
  | 0 => 0
  | n + 1 => rank kept n + (kept n).toNat

section Rank

variable {kept : Nat → Bool} {m n : Nat}

/-- The first position counted separately. -/
theorem rank_succ_shift (kept : Nat → Bool) (n : Nat) :
    rank kept (n + 1) = (kept 0).toNat + rank (fun i => kept (i + 1)) n := by
  induction n with
  | zero => simp [rank]
  | succ n ih =>
    rw [rank, ih, rank]
    omega

theorem rank_mono (h : m ≤ n) : rank kept m ≤ rank kept n := by
  induction h with
  | refl => exact Nat.le_refl _
  | step _ ih => exact Nat.le_trans ih (Nat.le_add_right _ _)

theorem rank_lt_rank (hm : kept m = true) (h : m < n) : rank kept m < rank kept n := by
  have hsucc : rank kept (m + 1) = rank kept m + 1 := by
    rw [rank, hm]
    rfl
  have hle : rank kept (m + 1) ≤ rank kept n := rank_mono h
  omega

theorem rank_lt_iff (hm : kept m = true) : rank kept m < rank kept n ↔ m < n := by
  refine ⟨fun h => ?_, rank_lt_rank hm⟩
  by_contra hge
  exact absurd (rank_mono (Nat.le_of_not_lt hge)) (Nat.not_le.mpr h)

/-- Different positions that are picked have different ranks. -/
theorem rank_inj (hm : kept m = true) (hn : kept n = true) :
    rank kept m = rank kept n ↔ m = n := by
  refine ⟨fun h => ?_, fun h => h ▸ rfl⟩
  rcases Nat.lt_trichotomy m n with hlt | heq | hgt
  · exact absurd h (Nat.ne_of_lt (rank_lt_rank hm hlt))
  · exact heq
  · exact absurd h.symm (Nat.ne_of_lt (rank_lt_rank hn hgt))

/-- Every number up to the rank of `n` is the rank of a position that is picked. -/
theorem exists_rank_eq {j : Nat} (h : j < rank kept n) :
    ∃ i < n, kept i = true ∧ rank kept i = j := by
  induction n with
  | zero => cases h
  | succ n ih =>
    rw [rank] at h
    by_cases hj : j < rank kept n
    · obtain ⟨i, hi, hkept, hrank⟩ := ih hj
      exact ⟨i, Nat.lt_succ_of_lt hi, hkept, hrank⟩
    · cases hn : kept n with
      | false =>
        rw [hn] at h
        exact absurd h hj
      | true =>
        rw [hn] at h
        exact ⟨n, n.lt_succ_self, hn, (Nat.eq_of_lt_succ_of_not_lt h hj).symm⟩

end Rank

/-! ### What is picked -/

/-- What stands at the positions that are **picked**. -/
def pick (kept : Nat → Bool) : List α → List α
  | [] => []
  | a :: as =>
    if kept 0 then a :: pick (fun i => kept (i + 1)) as else pick (fun i => kept (i + 1)) as

section Pick

variable {kept : Nat → Bool} {as : List α} {i : Nat}

theorem pick_append (kept : Nat → Bool) (as bs : List α) :
    pick kept (as ++ bs) = pick kept as ++ pick (fun i => kept (i + as.length)) bs := by
  induction as generalizing kept with
  | nil => rfl
  | cons a as ih =>
    have hshift : (fun i => kept (i + as.length + 1)) = fun i => kept (i + (a :: as).length) := rfl
    rw [List.cons_append, pick, pick, ih, hshift]
    split <;> rfl

theorem pick_concat (kept : Nat → Bool) (as : List α) (a : α) :
    pick kept (as ++ [a]) = pick kept as ++ if kept as.length then [a] else [] := by
  rw [pick_append]
  simp [pick]

theorem length_pick (kept : Nat → Bool) (as : List α) :
    (pick kept as).length = rank kept as.length := by
  induction as generalizing kept with
  | nil => rfl
  | cons a as ih =>
    rw [pick, List.length_cons, rank_succ_shift, ← ih]
    cases kept 0 <;> simp [Nat.add_comm 1]

/-- What is picked stands at its rank. -/
theorem getElem?_pick (as : List α) (hi : kept i = true) :
    (pick kept as)[rank kept i]? = as[i]? := by
  induction as generalizing kept i with
  | nil => rfl
  | cons a as ih =>
    cases i with
    | zero => simp [pick, rank, hi]
    | succ i =>
      have hrest := @ih (fun i => kept (i + 1)) i hi
      rw [rank_succ_shift, pick, List.getElem?_cons_succ, ← hrest]
      cases kept 0 <;> simp [Nat.add_comm 1]

theorem map_modify {f : α → α} {g : α → β} {h : β → β} (hcomm : ∀ a, g (f a) = h (g a))
    (as : List α) (i : Nat) : (as.modify i f).map g = (as.map g).modify i h := by
  induction as generalizing i with
  | nil => simp
  | cons a as ih =>
    cases i with
    | zero => simp [hcomm]
    | succ i => simp [ih]

/-- A change at a position that is picked is a change at its rank. -/
theorem pick_modify (as : List α) (f : α → α) (hi : kept i = true) :
    pick kept (as.modify i f) = (pick kept as).modify (rank kept i) f := by
  induction as generalizing kept i with
  | nil => simp [pick]
  | cons a as ih =>
    cases i with
    | zero => simp [pick, rank, hi]
    | succ i =>
      have hrest := @ih (fun i => kept (i + 1)) i hi
      rw [rank_succ_shift, List.modify_succ_cons, pick, pick, hrest]
      cases kept 0 <;> simp [Nat.add_comm 1]

/-- A change at a position that is not picked changes nothing. -/
theorem pick_modify_of_not (as : List α) (f : α → α) (hi : kept i = false) :
    pick kept (as.modify i f) = pick kept as := by
  induction as generalizing kept i with
  | nil => simp [pick]
  | cons a as ih =>
    cases i with
    | zero => simp [pick, hi]
    | succ i =>
      have hrest := @ih (fun i => kept (i + 1)) i hi
      rw [List.modify_succ_cons, pick, pick, hrest]

theorem pick_take (kept : Nat → Bool) (as : List α) (n : Nat) :
    pick kept (as.take n) = (pick kept as).take (rank kept n) := by
  induction as generalizing kept n with
  | nil => simp [pick]
  | cons a as ih =>
    cases n with
    | zero => simp [pick, rank]
    | succ n =>
      rw [rank_succ_shift, List.take_succ_cons, pick, pick, ih]
      cases kept 0 <;> simp [Nat.add_comm 1]

/-- Where the positions are told by what stands at them, picking is filtering. -/
theorem pick_eq_filter {q : α → Bool} (h : ∀ i a, as[i]? = some a → q a = kept i) :
    pick kept as = as.filter q := by
  induction as generalizing kept with
  | nil => rfl
  | cons a as ih =>
    have h₀ := h 0 a rfl
    have hrest : ∀ i b, as[i]? = some b → q b = kept (i + 1) := fun i b hb => h (i + 1) b hb
    rw [pick, ih hrest, List.filter_cons, h₀]

/-- A list is told by what stands at the ranks of the positions that are picked. -/
theorem eq_map_pick {bs : List β} {f : α → β} (hlen : bs.length = rank kept as.length)
    (h : ∀ i a, kept i = true → as[i]? = some a → bs[rank kept i]? = some (f a)) :
    bs = (pick kept as).map f := by
  refine List.ext_getElem? fun j => ?_
  by_cases hj : j < rank kept as.length
  · obtain ⟨i, hlt, hi, rfl⟩ := exists_rank_eq hj
    rw [List.getElem?_map, getElem?_pick as hi, List.getElem?_eq_getElem hlt]
    exact h i _ hi (List.getElem?_eq_getElem hlt)
  · have hle := Nat.le_of_not_lt hj
    rw [List.getElem?_eq_none (hlen ▸ hle), List.getElem?_eq_none]
    rwa [List.length_map, length_pick]

theorem pick_sublist (kept : Nat → Bool) (as : List α) : (pick kept as).Sublist as := by
  induction as generalizing kept with
  | nil => exact .slnil
  | cons a as ih =>
    rw [pick]
    split
    · exact (ih _).cons_cons a
    · exact (ih _).cons a

theorem mem_pick {a : α} : a ∈ pick kept as ↔ ∃ i, kept i = true ∧ as[i]? = some a := by
  constructor
  · intro ha
    obtain ⟨j, hj⟩ := List.mem_iff_getElem?.mp ha
    have hlt : j < rank kept as.length := by
      rw [← length_pick]
      exact (List.getElem?_eq_some_iff.mp hj).1
    obtain ⟨i, -, hi, rfl⟩ := exists_rank_eq hlt
    exact ⟨i, hi, getElem?_pick as hi ▸ hj⟩
  · rintro ⟨i, hi, ha⟩
    exact List.mem_iff_getElem?.mpr ⟨rank kept i, getElem?_pick as hi ▸ ha⟩

end Pick

/-! ### Interleavings -/

/-- The third list is an **interleaving** of the first two: it has their elements, those of each in
their order. -/
inductive Interleaving : List α → List α → List α → Prop
  | nil : Interleaving [] [] []
  | left {as bs cs : List α} (a : α) : Interleaving as bs cs → Interleaving (a :: as) bs (a :: cs)
  | right {as bs cs : List α} (b : α) : Interleaving as bs cs → Interleaving as (b :: bs) (b :: cs)

/-- In an interleaving the one list is picked, and the other one is what is left. -/
theorem Interleaving.exists_pick {as bs cs : List α} (h : Interleaving as bs cs) :
    ∃ kept, as = pick kept cs ∧ bs = pick (fun i => !kept i) cs := by
  induction h with
  | nil => exact ⟨fun _ => true, rfl, rfl⟩
  | left a _ ih =>
    obtain ⟨kept, rfl, rfl⟩ := ih
    exact ⟨fun i => i.casesOn true kept, rfl, rfl⟩
  | right b _ ih =>
    obtain ⟨kept, rfl, rfl⟩ := ih
    exact ⟨fun i => i.casesOn false kept, rfl, rfl⟩

end BorrowCheck
