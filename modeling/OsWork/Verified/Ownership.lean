/-!
# Resources with one place each

Resources (blocks, pages) are in use or not, and places (slots, variables) hold some of
them.  `Exact used holds` says that the resources in use are those that some place
holds, and that no two places hold the same one: nothing is lost and nothing is
shared.  The three lemmas are the three things an allocator and its callers do; each
asks only how the relation `holds` has changed.
-/

namespace OsWork.Verified.Ownership

variable {S R : Type}

/-- Every resource in use is in exactly one place, and no other resource is in any. -/
structure Exact (used : R → Prop) (holds : S → R → Prop) : Prop where
  inUse : ∀ x r, holds x r → used r
  apart : ∀ x y r, holds x r → holds y r → x = y
  placed : ∀ r, used r → ∃ x, holds x r

variable {used used' : R → Prop} {holds holds' : S → R → Prop}

theorem Exact.congr (h : Exact used holds) (hused : ∀ r, used' r ↔ used r)
    (hholds : ∀ x r, holds' x r ↔ holds x r) : Exact used' holds' where
  inUse x r hx := (hused r).mpr (h.inUse x r ((hholds x r).mp hx))
  apart x y r hx hy := h.apart x y r ((hholds x r).mp hx) ((hholds y r).mp hy)
  placed r hr := by
    obtain ⟨x, hx⟩ := h.placed r ((hused r).mp hr)
    exact ⟨x, (hholds x r).mpr hx⟩

/-- A resource that is not in use is put in a place. -/
theorem Exact.take (h : Exact used holds) (x₀ : S) (r₀ : R) (hfree : ¬ used r₀)
    (hused : ∀ r, used' r ↔ used r ∨ r = r₀)
    (hholds : ∀ x r, holds' x r ↔ holds x r ∨ x = x₀ ∧ r = r₀) : Exact used' holds' where
  inUse x r hx := by
    rw [hused]
    exact ((hholds x r).mp hx).imp (h.inUse x r) And.right
  apart x y r hx hy := by
    rcases (hholds x r).mp hx with hx | ⟨hx, hr⟩
    · rcases (hholds y r).mp hy with hy | ⟨-, hr⟩
      · exact h.apart x y r hx hy
      · rw [hr] at hx
        exact absurd (h.inUse x r₀ hx) hfree
    · rcases (hholds y r).mp hy with hy | ⟨hy, -⟩
      · rw [hr] at hy
        exact absurd (h.inUse y r₀ hy) hfree
      · rw [hx, hy]
  placed r hr := by
    rcases (hused r).mp hr with hr | hr
    · obtain ⟨x, hx⟩ := h.placed r hr
      exact ⟨x, (hholds x r).mpr (.inl hx)⟩
    · exact ⟨x₀, (hholds x₀ r).mpr (.inr ⟨rfl, hr⟩)⟩

/-- The resource of the place `x₀` goes to the place `x₁`. -/
theorem Exact.move (h : Exact used holds) (x₀ x₁ : S) (hused : ∀ r, used' r ↔ used r)
    (hholds : ∀ x r, holds' x r ↔ x ≠ x₀ ∧ holds x r ∨ x = x₁ ∧ holds x₀ r) :
    Exact used' holds' where
  inUse x r hx := by
    rw [hused]
    rcases (hholds x r).mp hx with ⟨-, hx⟩ | ⟨-, hx⟩
    · exact h.inUse x r hx
    · exact h.inUse x₀ r hx
  apart x y r hx hy := by
    rcases (hholds x r).mp hx with ⟨hne, hx⟩ | ⟨hx, hr⟩
    · rcases (hholds y r).mp hy with ⟨-, hy⟩ | ⟨-, hr⟩
      · exact h.apart x y r hx hy
      · exact absurd (h.apart x x₀ r hx hr) hne
    · rcases (hholds y r).mp hy with ⟨hne, hy⟩ | ⟨hy, -⟩
      · exact absurd (h.apart y x₀ r hy hr) hne
      · rw [hx, hy]
  placed r hr := by
    obtain ⟨x, hx⟩ := h.placed r ((hused r).mp hr)
    by_cases hx₀ : x = x₀
    · rw [hx₀] at hx
      exact ⟨x₁, (hholds x₁ r).mpr (.inr ⟨rfl, hx⟩)⟩
    · exact ⟨x, (hholds x r).mpr (.inl ⟨hx₀, hx⟩)⟩

/-- The resource of the place `x₀` goes out of use. -/
theorem Exact.drop (h : Exact used holds) (x₀ : S) (r₀ : R) (hheld : holds x₀ r₀)
    (hused : ∀ r, used' r ↔ used r ∧ r ≠ r₀)
    (hholds : ∀ x r, holds' x r ↔ x ≠ x₀ ∧ holds x r) (hone : ∀ r, holds x₀ r → r = r₀) :
    Exact used' holds' where
  inUse x r hx := by
    obtain ⟨hne, hx⟩ := (hholds x r).mp hx
    rw [hused]
    constructor
    · exact h.inUse x r hx
    · intro hr
      rw [hr] at hx
      exact hne (h.apart x x₀ r₀ hx hheld)
  apart x y r hx hy := h.apart x y r ((hholds x r).mp hx).2 ((hholds y r).mp hy).2
  placed r hr := by
    obtain ⟨hr, hne⟩ := (hused r).mp hr
    obtain ⟨x, hx⟩ := h.placed r hr
    refine ⟨x, (hholds x r).mpr ⟨?_, hx⟩⟩
    intro hx₀
    rw [hx₀] at hx
    exact hne (hone r hx)

end OsWork.Verified.Ownership
