import Sisop.KernelRuns

/-! Environments and CPUs: no environment executes on two CPUs, and none is freed
under the CPU that executes it, unless another one meddles with it. -/
namespace Sisop

variable {k k' : Kern}

/-- Two CPUs, and a parent whose child executes on the second one. -/
theorem parent_and_child : ∃ k, Reachable Booted FamilyStep k ∧ Family k 0 0 1 .running ∧
    Executing k 0 0 ∧ Executing k 1 1 := by
  obtain ⟨k₀, g, hk₀, h⟩ := first_booted
  obtain ⟨k, hk, hfam, hcpu, -⟩ := h.start_child (.init hk₀)
  refine ⟨k, hk, hfam, ?_, ?_⟩
  · rw [Executing, hfam.cpu]
    exact ⟨rfl, rfl⟩
  · rw [Executing, hcpu]
    exact ⟨rfl, rfl⟩

end Sisop
