import Mathlib.Data.List.Flatten
import StaticGql.Unfold

/-!
What a task leads to. Where every task shares out what it has among its answers and its further tasks, all answers
together share out what the first task has, each in its place.
-/

namespace StaticGql

variable {ε τ α : Type} {step : τ → List (ε ⊕ τ)} {weigh : ε → List α} {share : τ → List α} {n : Nat} {t t' : τ}

/-- The tasks that a task leads to, itself the first. -/
def visited (step : τ → List (ε ⊕ τ)) : Nat → τ → List τ
  | 0, _ => []
  | fuel + 1, t => t :: (step t).flatMap (Sum.elim (fun _ => []) (visited step fuel))

theorem forall_mem_visited {P : τ → Prop} (keeps : ∀ t, P t → ∀ t', .inr t' ∈ step t → P t') (n : Nat) (h : P t) :
    ∀ t' ∈ visited step n t, P t' := by
  induction n generalizing t with
  | zero => simp [visited]
  | succ n ih =>
      refine List.forall_mem_cons.2 ⟨h, fun t' ht' => ?_⟩
      obtain ⟨part, hpart, ht'⟩ := List.mem_flatMap.1 ht'
      cases part with
      | inl answer => cases ht'
      | inr next => exact ih (keeps t h next hpart) t' ht'

theorem flatMap_sublist_flatMap {β γ : Type} {l : List β} {f g : β → List γ} (h : ∀ x ∈ l, (f x).Sublist (g x)) :
    (l.flatMap f).Sublist (l.flatMap g) := by
  induction l with
  | nil => exact .slnil
  | cons x l ih =>
      obtain ⟨hx, h⟩ := List.forall_mem_cons.1 h
      exact hx.append (ih h)

/-- What a part of a step comes to. -/
def answers (step : τ → List (ε ⊕ τ)) (n : Nat) : ε ⊕ τ → List ε := Sum.elim (fun e => [e]) (unfold step n)

theorem unfold_succ (step : τ → List (ε ⊕ τ)) (n : Nat) (t : τ) :
    unfold step (n + 1) t = (step t).flatMap (answers step n) := by
  rw [unfold]
  congr 1
  funext part
  cases part <;> rfl

/-! ### What parts come to -/

/-- With fuel enough for this many steps, one within another, the parts come to these answers. -/
def Gives (step : τ → List (ε ⊕ τ)) (n : Nat) (parts : List (ε ⊕ τ)) (es : List ε) : Prop :=
  ∀ m, n ≤ m → parts.flatMap (answers step m) = es

namespace Gives

variable {parts parts' : List (ε ⊕ τ)} {es es' : List ε} {e : ε} {m : Nat}

theorem nil (step : τ → List (ε ⊕ τ)) (n : Nat) : Gives step n [] [] := fun _ _ => rfl

theorem mono (h : Gives step n parts es) (hnm : n ≤ m) : Gives step m parts es := fun k hk => h k (Nat.le_trans hnm hk)

theorem append (h : Gives step n parts es) (h' : Gives step n parts' es') :
    Gives step n (parts ++ parts') (es ++ es') := by
  intro m hm
  rw [List.flatMap_append, h m hm, h' m hm]

theorem answer (h : Gives step n parts es) : Gives step n (.inl e :: parts) (e :: es) := by
  intro m hm
  rw [List.flatMap_cons, h m hm]
  rfl

theorem answers (step : τ → List (ε ⊕ τ)) (n : Nat) (es : List ε) : Gives step n (es.map .inl) es := by
  induction es with
  | nil => exact nil step n
  | cons e es ih => exact ih.answer

theorem flatMap_nil {β : Type*} {share : β → List (ε ⊕ τ)} {l : List β} (h : ∀ x ∈ l, Gives step n (share x) []) :
    Gives step n (l.flatMap share) [] := by
  induction l with
  | nil => exact nil step n
  | cons x l ih =>
      obtain ⟨hx, hl⟩ := List.forall_mem_cons.1 h
      rw [List.flatMap_cons]
      exact hx.append (ih hl)

theorem task (h : Gives step n (step t) es) : Gives step (n + 1) [.inr t] es := by
  intro m hm
  cases m with
  | zero => exact absurd hm (by omega)
  | succ m =>
      rw [List.flatMap_singleton]
      exact (unfold_succ step m t).trans (h m (by omega))

theorem unfold_eq (h : Gives step n [.inr t] es) (hm : n ≤ m) : unfold step m t = es := by
  have hanswers := h m hm
  rwa [List.flatMap_singleton] at hanswers

end Gives

/-! ### Shares -/

/-- The step of a task shares out what the task has. -/
def Shares (step : τ → List (ε ⊕ τ)) (weigh : ε → List α) (share : τ → List α) (t : τ) : Prop :=
  ((step t).flatMap (Sum.elim weigh share)).Sublist (share t)

theorem answers_sublist {part : ε ⊕ τ} (h : ∀ t', part = .inr t' → ((unfold step n t').flatMap weigh).Sublist (share t')) :
    ((answers step n part).flatMap weigh).Sublist (Sum.elim weigh share part) := by
  cases part with
  | inl e => simp [answers]
  | inr t' => exact h t' rfl

theorem mem_visited_of_inr (h : .inr t ∈ step t') {u : τ} (hu : u ∈ visited step n t) :
    u ∈ visited step (n + 1) t' :=
  List.mem_cons_of_mem _ (List.mem_flatMap.2 ⟨.inr t, h, hu⟩)

theorem unfold_sublist (h : ∀ t' ∈ visited step n t, Shares step weigh share t') :
    ((unfold step n t).flatMap weigh).Sublist (share t) := by
  induction n generalizing t with
  | zero => exact List.nil_sublist _
  | succ n ih =>
      refine List.Sublist.trans ?_ (h t List.mem_cons_self)
      rw [unfold_succ, List.flatMap_assoc]
      refine flatMap_sublist_flatMap fun part hpart => answers_sublist ?_
      rintro next rfl
      exact ih fun t' ht' => h t' (mem_visited_of_inr hpart ht')

/-- The answers of a task stand among all answers in its own place. -/
theorem exists_around (h : ∀ t' ∈ visited step n t, Shares step weigh share t') (ht' : t' ∈ visited step n t) :
    ∃ before after m, unfold step n t = before ++ unfold step m t' ++ after ∧
      (∀ u ∈ visited step m t', u ∈ visited step n t) ∧
        (before.flatMap weigh ++ share t' ++ after.flatMap weigh).Sublist (share t) := by
  induction n generalizing t with
  | zero => cases ht'
  | succ n ih =>
      rcases List.mem_cons.1 ht' with rfl | ht'
      · exact ⟨[], [], n + 1, by simp, fun _ hu => hu, by simp⟩
      obtain ⟨part, hpart, ht'⟩ := List.mem_flatMap.1 ht'
      cases part with
      | inl answer => cases ht'
      | inr next =>
          obtain ⟨before, after, m, hunfold, hsub, hshares⟩ :=
            ih (fun t' ht' => h t' (mem_visited_of_inr hpart ht')) ht'
          obtain ⟨first, last, hstep⟩ := List.append_of_mem hpart
          have hparts : ∀ part ∈ step t, ((answers step n part).flatMap weigh).Sublist (Sum.elim weigh share part) := by
            refine fun part hpart => answers_sublist ?_
            rintro next rfl
            exact unfold_sublist fun t' ht' => h t' (mem_visited_of_inr hpart ht')
          refine ⟨first.flatMap (answers step n) ++ before, after ++ last.flatMap (answers step n), m, ?_,
            fun u hu => mem_visited_of_inr hpart (hsub u hu), ?_⟩
          · have hnext : answers step n (.inr next) = unfold step n next := rfl
            rw [unfold_succ, hstep, List.flatMap_append, List.flatMap_cons, hnext, hunfold]
            simp only [List.append_assoc]
          · have hwhole := h t List.mem_cons_self
            rw [Shares, hstep, List.flatMap_append, List.flatMap_cons] at hwhole
            rw [hstep] at hparts
            refine List.Sublist.trans ?_ hwhole
            rw [List.flatMap_append, List.flatMap_append, List.flatMap_assoc, List.flatMap_assoc]
            have hfirst := flatMap_sublist_flatMap fun part hpart => hparts part (List.mem_append_left _ hpart)
            have hlast := flatMap_sublist_flatMap fun part hpart =>
              hparts part (List.mem_append_right first (List.mem_cons_of_mem _ hpart))
            simpa only [List.append_assoc, Sum.elim_inr] using hfirst.append (hshares.append hlast)

end StaticGql
