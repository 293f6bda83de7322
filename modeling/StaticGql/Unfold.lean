/-!
Answers found step by step: a task gives answers and further tasks, each smaller than itself, in
the order in which the answers are wanted.
-/

namespace StaticGql

variable {ε τ : Type}

/-- The answers of a task; `fuel` bounds how deep tasks lead to tasks. -/
def unfold (step : τ → List (ε ⊕ τ)) : Nat → τ → List ε
  | 0, _ => []
  | fuel + 1, task =>
    (step task).flatMap fun
      | .inl answer => [answer]
      | .inr next => unfold step fuel next

/-- More fuel than the size of a task changes nothing. -/
theorem unfold_of_size_lt {step : τ → List (ε ⊕ τ)} {size : τ → Nat}
    (smaller : ∀ t t', .inr t' ∈ step t → size t' < size t) :
    ∀ {n m : Nat} {t : τ}, size t < n → size t < m → unfold step n t = unfold step m t := by
  intro n
  induction n with
  | zero => intro m t h; omega
  | succ n ih =>
    intro m t _ hm
    cases m with
    | zero => omega
    | succ m =>
      simp only [unfold, List.flatMap_def]
      congr 1
      refine List.map_congr_left fun a ha => ?_
      cases a with
      | inl _ => rfl
      | inr t' =>
        have := smaller t t' ha
        exact ih (by omega) (by omega)

/-- What every step keeps up holds of every answer. -/
theorem forall_mem_unfold {step : τ → List (ε ⊕ τ)} {P : τ → Prop} {Q : ε → Prop}
    (keeps : ∀ t, P t → ∀ part ∈ step t, part.elim Q P) (n : Nat) {t : τ} (h : P t) :
    ∀ e ∈ unfold step n t, Q e := by
  induction n generalizing t with
  | zero => simp [unfold]
  | succ n ih =>
    intro e he
    obtain ⟨part, hpart, he⟩ := List.mem_flatMap.1 he
    have hkept := keeps t h part hpart
    cases part with
    | inl answer =>
      rw [List.mem_singleton.1 he]
      exact hkept
    | inr next => exact ih hkept e he

end StaticGql
