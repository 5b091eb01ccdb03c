import Statute.Proofs.Search.Domain

/-!
# The window of whole numbers

Which numbers `intWindow` tries between two limits, and in which order: from the one nearest to zero
outwards, each once. Only a window without gaps is called exhaustive.
-/

namespace Statute.Search

open List

variable {lo hi : Int} {reach : Nat}

theorem anchor_nearest {n : Int} (hlo : lo ≤ n) (hhi : n ≤ hi) :
    (anchor lo hi).natAbs ≤ n.natAbs := by
  unfold anchor
  split
  · omega
  · split <;> omega

/-- Around a point the numbers go outwards, each once. -/
theorem pairwise_around (center : Int) :
    (around lo hi center reach).Pairwise fun a b =>
      a ≠ b ∧ (a - center).natAbs ≤ (b - center).natAbs := by
  refine pairwise_flatMap.mpr ⟨fun k _ => ?_, pairwise_lt_range.imp fun {i j} hlt a ha b hb => ?_⟩
  · refine Pairwise.filter _ (pairwise_pair.mpr ?_)
    omega
  · simp only [mem_filter, mem_cons, not_mem_nil, or_false] at ha hb
    omega

/-- The anchor and what is around it are the numbers of the range up to some distance. -/
theorem mem_anchor_around {n : Int} (h : lo ≤ hi) :
    n ∈ anchor lo hi :: around lo hi (anchor lo hi) reach ↔
      (lo ≤ n ∧ n ≤ hi) ∧ (n - anchor lo hi).natAbs ≤ reach := by
  have hanchor := anchor_mem h
  rw [mem_cons, mem_around]
  constructor
  · rintro (rfl | ⟨hn, k, hk, hdist⟩)
    · exact ⟨hanchor, by omega⟩
    · exact ⟨hn, by omega⟩
  rintro ⟨hn, hdist⟩
  by_cases heq : n = anchor lo hi
  · exact .inl heq
  · exact .inr ⟨hn, (n - anchor lo hi).natAbs - 1, by omega, by omega⟩

/-- What is tried from `lo` to `hi`, where `limited` says whether both were asked for. -/
structure IsWindow (bound lo hi : Int) (limited : Bool) (ns : List Int) (extent : Extent) :
    Prop where
  nodup : ns.Nodup
  within : ∀ n ∈ ns, lo ≤ n ∧ n ≤ hi
  /-- The first number is as near to zero as any. -/
  first : ∀ c ∈ ns.head?, ∀ n, lo ≤ n → n ≤ hi → c.natAbs ≤ n.natAbs
  /-- The others are in order of their distance from it. -/
  outwards : ∀ c ∈ ns.head?, ns.Pairwise fun a b => (a - c).natAbs ≤ (b - c).natAbs
  empty : ns = [] ↔ hi < lo
  /-- There are no gaps. -/
  full : extent = .exhaustive → ∀ n, lo ≤ n → n ≤ hi → n ∈ ns
  exhaustive : extent = .exhaustive ↔ hi < lo ∨ limited ∧ hi - lo ≤ 2 * bound
  /-- A sample has the numbers up to the bound away from the first. -/
  sampled : extent ≠ .exhaustive → ∀ c ∈ ns.head?, ∀ n, lo ≤ n → n ≤ hi →
    (n ∈ ns ↔ (n - c).natAbs ≤ bound.toNat)

/-- Whatever the limits are, the numbers between them are tried from the one nearest to zero
outwards, and these are called all of them only if they are. -/
theorem isWindow_intWindow (bound : Int) (lower upper : Option Int) :
    IsWindow bound (lower.getD Whole.least) (upper.getD Whole.greatest)
      (lower.isSome && upper.isSome) (intWindow bound lower upper).1
      (intWindow bound lower upper).2 := by
  unfold intWindow
  generalize lower.getD Whole.least = lo, upper.getD Whole.greatest = hi,
    (lower.isSome && upper.isSome) = limited
  dsimp only
  split
  next hlt => exact ⟨nodup_nil, by simp, by simp, by simp, by simpa, by omega,
      iff_of_true rfl (.inl hlt), by simp⟩
  next hle =>
    have hle := Int.not_lt.mp hle
    have hanchor := anchor_mem hle
    have hmem (reach : Nat) (n : Int) : n ∈ anchor lo hi :: around lo hi _ reach ↔ _ :=
      mem_anchor_around hle
    have houter (reach : Nat) : (anchor lo hi :: around lo hi (anchor lo hi) reach).Pairwise
        fun a b => a ≠ b ∧ (a - anchor lo hi).natAbs ≤ (b - anchor lo hi).natAbs := by
      refine pairwise_cons.mpr ⟨fun n hn => ?_, pairwise_around _⟩
      obtain ⟨-, k, -, hk⟩ := mem_around.mp hn
      omega
    constructor
    case nodup => exact (houter _).imp And.left
    case within => exact fun n hn => ((hmem _ n).mp hn).1
    case first =>
      rintro _ ⟨⟩ n hlo hhi
      exact anchor_nearest hlo hhi
    case outwards =>
      rintro _ ⟨⟩
      exact (houter _).imp And.right
    case empty => simpa using hle
    case full =>
      intro hfull n hlo hhi
      refine (hmem _ n).mpr ⟨⟨hlo, hhi⟩, ?_⟩
      split at hfull
      next hboth =>
        rw [if_pos hboth]
        omega
      · cases hfull
    case exhaustive => grind
    case sampled =>
      rintro hsample _ ⟨⟩ n hlo hhi
      rw [hmem, and_iff_right ⟨hlo, hhi⟩, if_neg (fun hboth => hsample (if_pos hboth))]

/-- From 3 to 6 is no farther than twice 2. -/
example : intWindow 2 (some 3) (some 6) = ([3, 4, 5, 6], .exhaustive) := by decide

end Statute.Search
