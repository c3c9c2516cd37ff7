import Mathlib.Data.List.Basic
import Mathlib.Order.Monotone.Basic

/-! Runs of a machine whose calls each have a condition on the state they find. -/

namespace Effects

variable {σ α : Type*} {f : σ → α → σ} {calls : List α}

theorem foldl_invariant {P : σ → Prop} {C : σ → α → Prop} {s : σ} (h : P s)
    (hstep : ∀ t, ∀ call ∈ calls, P t → C t call → P (f t call))
    (hcalls : ∀ done call rest, calls = done ++ call :: rest → C (done.foldl f s) call) : P (calls.foldl f s) := by
  induction calls generalizing s with
  | nil => exact h
  | cons call rest ih =>
    have hfirst := hstep s call List.mem_cons_self h (hcalls [] call rest rfl)
    refine ih hfirst (fun t call' hmem => hstep t call' (List.mem_cons_of_mem _ hmem)) fun done call' rest' heq => ?_
    exact hcalls (call :: done) call' rest' (congrArg (call :: ·) heq)

theorem forall_splits {P : List α → α → Prop} (h : ∀ i < calls.length, ∀ call ∈ calls[i]?, P (calls.take i) call) :
    ∀ done call rest, calls = done ++ call :: rest → P done call := by
  rintro done call rest rfl
  have hcall : (done ++ call :: rest)[done.length]? = some call := by
    rw [List.getElem?_append_right (Nat.le_refl _), Nat.sub_self]
    rfl
  have hplace := h done.length (List.getElem?_eq_some_iff.mp hcall).1 call hcall
  rwa [List.take_left] at hplace

theorem foldlM_ok_rel {τ ε : Type*} {R : σ → τ → Prop} {step : σ → α → Except ε σ} {g : τ → α → τ} {s : σ} {t : τ} (h : R s t)
    (hstep : ∀ s t call, R s t → ∃ s', step s call = .ok s' ∧ R s' (g t call)) :
    ∃ s', calls.foldlM step s = .ok s' ∧ R s' (calls.foldl g t) := by
  induction calls generalizing s t with
  | nil => exact ⟨s, rfl, h⟩
  | cons call rest ih =>
    obtain ⟨s', hs', hR⟩ := hstep s t call h
    obtain ⟨s'', hrest, hR'⟩ := ih hR
    refine ⟨s'', ?_, hR'⟩
    rw [List.foldlM_cons, hs']
    exact hrest

section

variable {step : σ → α → Option σ} {s s' : σ}

theorem foldlM_invariant {P : σ → Prop} (h : P s) (hstep : ∀ t, ∀ call ∈ calls, ∀ t', P t → step t call = some t' → P t')
    (hrun : calls.foldlM step s = some s') : P s' := by
  induction calls generalizing s with
  | nil =>
    cases hrun
    exact h
  | cons call rest ih =>
    rw [List.foldlM_cons] at hrun
    obtain ⟨t, ht, hrun⟩ := Option.bind_eq_some_iff.mp hrun
    exact ih (hstep s call List.mem_cons_self t h ht) (fun t call' hmem => hstep t call' (List.mem_cons_of_mem _ hmem)) hrun

theorem exists_foldlM {P : σ → Prop} (h : P s) (hstep : ∀ t, ∀ call ∈ calls, P t → ∃ t', step t call = some t' ∧ P t') :
    ∃ s', calls.foldlM step s = some s' ∧ P s' := by
  induction calls generalizing s with
  | nil => exact ⟨s, rfl, h⟩
  | cons call rest ih =>
    obtain ⟨t, ht, hP⟩ := hstep s call List.mem_cons_self h
    obtain ⟨s', hrun, hP'⟩ := ih hP fun t call' hmem => hstep t call' (List.mem_cons_of_mem _ hmem)
    refine ⟨s', ?_, hP'⟩
    rw [List.foldlM_cons, ht]
    exact hrun

end

end Effects
