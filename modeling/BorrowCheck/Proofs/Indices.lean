import BorrowCheck.Proofs.Omission

/-!
# Unknown indices

An unknown index is taken to overlap every index. One expects that a function is then accepted only
if it would be whatever the indices turn out to be: a function that is accepted stays accepted when
constants are put in their place. This is so when all unknown indices become the same constant, and
the function has no such index yet (`BorrowCheck.Function.accepted_of_known`): putting it in is a
faithful renaming.

It is not so in general (`BorrowCheck.Function.known_rejected`). Overlap errs on the safe side, but
sameness is used as well, and it does not. Two unknown indices are the same whatever their labels: a
write to one of them gives the other one its value back, although they may select different
elements. And an unknown index is never the same as a constant one, although both may select the
same element: a reference that is stored at the one does not replace the reference at the other.
-/

namespace BorrowCheck

/-! ### Constants for unknown indices -/

namespace Proj

/-- An unknown index becomes the constant that `m` has for its label. -/
def known (m : Option String → Int) : Proj → Proj
  | any label => index (m label)
  | p => p

/-- Every unknown index becomes `k`, and the constant indices make room for it: `k` itself becomes
`b`, and those from `b` on move up. -/
def knownAs (k b : Int) : Proj → Proj
  | any _ => index k
  | index i => index (if i = k then b else if b ≤ i then i + 1 else i)
  | p => p

theorem faithful_knownAs {k b : Int} (h : k < b) : Faithful (knownAs k b) where
  unlabel_iff p q := by
    cases p <;> cases q <;> simp only [knownAs, unlabel, index.injEq, reduceCtorEq] <;> grind
  disjoint p q hpq := by
    cases p <;> cases q <;> simp only [knownAs, disjoint, bne_iff_ne] at hpq ⊢ <;> grind
  isDeref p := by cases p <;> rfl
  isIndex p := by cases p <;> rfl

end Proj

namespace Operation

/-- The places in an operation. -/
def allPlaces (op : Operation) : List Place :=
  op.target.toList ++ op.sources ++ op.args.map Arg.place

/-- Renamings that agree about the projections in an operation rename it alike. -/
theorem rename_congr {σ τ : Proj → Proj} {op : Operation}
    (h : ∀ p ∈ op.allPlaces.flatMap Place.path, σ p = τ p) : op.rename σ = op.rename τ := by
  have hplace : ∀ x ∈ op.allPlaces, x.rename σ = x.rename τ := by
    intro x hx
    rw [Place.rename, Place.rename,
      List.map_congr_left fun p hp => h p (List.mem_flatMap.mpr ⟨x, hx, hp⟩)]
  have htarget : op.target.map (Place.rename σ) = op.target.map (Place.rename τ) :=
    Option.map_congr fun x hx => hplace x (by simp [allPlaces, hx])
  have hsources : op.sources.map (Place.rename σ) = op.sources.map (Place.rename τ) :=
    List.map_congr_left fun x hx => hplace x (by simp [allPlaces, hx])
  have hargs : op.args.map (Arg.rename σ) = op.args.map (Arg.rename τ) :=
    List.map_congr_left fun d hd => by
      rw [Arg.rename, Arg.rename,
        hplace d.place (List.mem_append_right _ (List.mem_map_of_mem hd))]
  rw [rename, rename, htarget, hsources, hargs]

end Operation

/-! ### Functions -/

namespace Function

variable {f : Function} {policy : Policy}

/-- The projections in the operations of a function. -/
def projections (f : Function) : List Proj :=
  f.ops.flatMap fun op => op.allPlaces.flatMap Place.path

/-- The function with its projections renamed. -/
def rename (σ : Proj → Proj) (f : Function) : Function :=
  { f with ops := f.ops.map (Operation.rename σ) }

theorem rename_congr {σ τ : Proj → Proj} (h : ∀ p ∈ f.projections, σ p = τ p) :
    f.rename σ = f.rename τ := by
  rw [rename, rename, List.map_congr_left fun op hop =>
    Operation.rename_congr fun p hp => h p (List.mem_flatMap.mpr ⟨op, hop, hp⟩)]

/-- **A faithful renaming keeps a function accepted.** -/
theorem Accepted.rename {σ : Proj → Proj} (h : f.Accepted policy) (hσ : Proj.Faithful σ) :
    (f.rename σ).Accepted policy := by
  obtain ⟨-, t, ht⟩ := accepted_iff.mp h
  exact accepted_of_thinned hσ h.ordered (List.append_nil _).symm ht (Thinned.append .nil f.ops) rfl

/-- There are constants above `k` and all indices of a function. -/
theorem exists_above (f : Function) (k : Int) :
    ∃ b, k < b ∧ ∀ i, Proj.index i ∈ f.projections → i < b := by
  induction f.projections with
  | nil => exact ⟨k + 1, Int.lt_succ k, by simp⟩
  | cons p ps ih =>
    obtain ⟨b, hk, hb⟩ := ih
    cases p with
    | index j =>
      refine ⟨max b (j + 1), lt_of_lt_of_le hk (le_max_left _ _), fun i hi => ?_⟩
      rcases List.mem_cons.mp hi with heq | hi
      · rw [Proj.index.inj heq]
        exact lt_of_lt_of_le (Int.lt_succ j) (le_max_right _ _)
      · exact lt_of_lt_of_le (hb i hi) (le_max_left _ _)
    | field name | any label | deref =>
      exact ⟨b, hk, fun i hi => hb i ((List.mem_cons.mp hi).resolve_left (by simp))⟩

/-- **One constant in place of all unknown indices.** A function that is accepted stays accepted
when its unknown indices become constants, if they all become the same one and the function has no
index like it. -/
theorem accepted_of_known {m : Option String → Int} {k : Int} (h : f.Accepted policy)
    (hone : ∀ label, Proj.any label ∈ f.projections → m label = k)
    (hnew : Proj.index k ∉ f.projections) : (f.rename (Proj.known m)).Accepted policy := by
  obtain ⟨b, hk, hb⟩ := f.exists_above k
  have hcongr : f.rename (Proj.known m) = f.rename (Proj.knownAs k b) := by
    refine rename_congr fun p hp => ?_
    cases p with
    | any label => simp only [Proj.known, Proj.knownAs, hone label hp]
    | index i =>
      have hne : i ≠ k := fun heq => hnew (heq ▸ hp)
      simp only [Proj.known, Proj.knownAs, if_neg hne, if_neg (not_le.mpr (hb i hp))]
    | field name | deref => rfl
  rw [hcongr]
  exact h.rename (Proj.faithful_knownAs hk)

/-- A function that moves `v[i]` out, writes `v[0]` and `v[j]`, and uses `v`. -/
def refillsElement : Function where
  name := "f"
  ops :=
    [.declare 1 { base := "v" } (.named "V"), .assign 2 { base := "v" } [],
      .declare 3 { base := "t" } (.named "T"),
      .move 4 { base := "t" } { base := "v", path := [.any (some "i")] },
      .assign 5 { base := "v", path := [.index 0] } [],
      .assign 6 { base := "v", path := [.any (some "j")] } [], .use 7 { base := "v" }]

/-- With 1 for `i` and for `j` the element that was moved out is written again. -/
theorem accepted_of_known_refillsElement :
    refillsElement.Accepted {} ∧ Proj.any (some "i") ∈ refillsElement.projections ∧
      Proj.any (some "j") ∈ refillsElement.projections ∧
      Proj.index 0 ∈ refillsElement.projections ∧ Proj.index 1 ∉ refillsElement.projections ∧
      (refillsElement.rename (Proj.known fun _ => 1)).Accepted {} := by
  have haccepted : refillsElement.Accepted {} := by decide +kernel
  have hnew : Proj.index 1 ∉ refillsElement.projections := by decide
  exact ⟨haccepted, by decide, by decide, by decide, hnew,
    accepted_of_known haccepted (fun _ _ => rfl) hnew⟩

/-- A function that stores an exclusive reference in `v[i]` and a shared one in `v[0]`, and writes
through `v[i]`. -/
def repointsElement : Function where
  name := "f"
  ops :=
    [.declare 1 { base := "x" } (.named "T"), .assign 2 { base := "x" } [],
      .declare 3 { base := "y" } (.named "T"), .assign 4 { base := "y" } [],
      .declare 5 { base := "v" } (.named "V"), .assign 6 { base := "v" } [],
      .borrow 7 .exclusive { base := "v", path := [.any (some "i")] } { base := "x" },
      .borrow 8 .shared { base := "v", path := [.index 0] } { base := "y" },
      .assign 9 { base := "v", path := [.any (some "i"), .deref] } []]

/-- **Unknown indices are not on the safe side.** With 1 for `i` and 2 for `j` the element that was
moved out stays so, and the use of the container is rejected. And with 0 for the only unknown index
the write goes through the shared reference. -/
theorem known_rejected :
    (refillsElement.Accepted {} ∧
      (refillsElement.rename (Proj.known fun label => if label = some "i" then 1 else 2)).RejectedAt
        {} 7) ∧
    (repointsElement.Accepted {} ∧
      repointsElement.projections = [.any (some "i"), .index 0, .any (some "i"), .deref] ∧
      (repointsElement.rename (Proj.known fun _ => 0)).RejectedAt {} 9) := by
  decide +kernel

end Function

end BorrowCheck
