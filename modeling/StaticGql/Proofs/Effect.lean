import Mathlib.Data.List.OfFn
import StaticGql.Effect
import StaticGql.Proofs.Except

/-!
What effects come to under either scheduler, and what becomes of that under the combinators.
-/

namespace StaticGql.Effect

variable {α β : Type}

/-- What becomes of an effect where it may be awaited. -/
def ComesTo (e : Effect α) (o : Outcome α) : Prop := e.run .async = o

/-- An effect with nothing to await comes to the same under both schedulers. -/
theorem run_sync_eq {e : Effect α} (h : e.isAsync = false) : e.run .sync = e.run .async := by
  induction e with
  | ready outcome => rfl
  | yield next ih => exact ih h
  | deferred awaited => cases h

theorem comesTo_ready {o o' : Outcome α} : (ready o).ComesTo o' ↔ o = o' := Iff.rfl

/-! ### What the synchronous scheduler makes of each combinator -/

theorem runSync_of_isAsync {e : Effect α} (h : e.isAsync = true) : e.runSync = .error .asyncInSync := by
  induction e with
  | ready outcome => cases h
  | yield next ih => exact ih h
  | deferred awaited => rfl

@[simp]
theorem isAsync_map (f : α → β) (e : Effect α) : (e.map f).isAsync = e.isAsync := by
  induction e with
  | ready outcome => rfl
  | yield next ih => exact ih
  | deferred awaited => rfl

@[simp]
theorem isAsync_attempt (e : Effect α) : e.attempt.isAsync = e.isAsync := by
  induction e with
  | ready outcome => rfl
  | yield next ih => exact ih
  | deferred awaited => rfl

theorem runSync_map (f : α → β) (e : Effect α) : (e.map f).runSync = e.runSync.map f := by
  induction e with
  | ready outcome => rfl
  | yield next ih => exact ih
  | deferred awaited => rfl

theorem runSync_attempt {e : Effect α} (h : e.isAsync = false) : e.attempt.runSync = .ok e.runSync := by
  induction e with
  | ready outcome => rfl
  | yield next ih => exact ih h
  | deferred awaited => cases h

theorem runAsync_attempt (e : Effect α) : e.attempt.runAsync.outcome = .ok e.runAsync.outcome := by
  induction e with
  | ready outcome => rfl
  | yield next ih => exact ih
  | deferred awaited => rfl

theorem isAsync_andThen {f : α → Effect β} {e : Effect α} (h : e.isAsync = false) :
    (e.andThen f).isAsync = match e.runSync with
      | .ok a => (f a).isAsync
      | .error _ => false := by
  induction e with
  | ready outcome => cases outcome <;> rfl
  | yield next ih => exact ih h
  | deferred awaited => cases h

theorem isAsync_andThen_of_isAsync {f : α → Effect β} {e : Effect α} (h : e.isAsync = true) :
    (e.andThen f).isAsync = true := by
  induction e with
  | ready outcome => cases h
  | yield next ih => exact ih h
  | deferred awaited => obtain ⟨rounds, _ | a⟩ := awaited <;> rfl

/-- The continuation is run after the effect, whether it was applied at once or not. -/
theorem runSync_andThen (f : α → Effect β) (e : Effect α) :
    (e.andThen f).runSync = e.runSync >>= fun a => (f a).runSync := by
  induction e with
  | ready outcome => cases outcome <;> rfl
  | yield next ih => exact ih
  | deferred awaited => obtain ⟨rounds, _ | a⟩ := awaited <;> rfl

theorem isAsync_all (es : List (Effect α)) : (all es).isAsync = es.any isAsync := by
  rw [all]
  split
  · rename_i hany
    exact hany.symm
  · rename_i hany
    rw [Bool.not_eq_true] at hany
    exact hany.symm

theorem all_of_not_isAsync {es : List (Effect α)} (h : ∀ e ∈ es, e.isAsync = false) :
    all es = ready (es.mapM runSync) := by
  have hany : es.any isAsync = false := by simpa using h
  rw [all, hany, if_neg Bool.false_ne_true]

/-! ### Groups of attempts -/

theorem firstFailure_eq_none {members : List (Awaited α)} (h : ∀ a ∈ members, ∃ v, a.outcome = .ok v) :
    firstFailure members = none := by
  induction members with
  | nil => rfl
  | cons a rest ih =>
      obtain ⟨v, hv⟩ := h a (by simp)
      rw [firstFailure, hv]
      exact ih fun b hb => h b (List.mem_cons_of_mem a hb)

theorem oks_map_ok (l : List α) : oks (l.map .ok) = l := by
  induction l with
  | nil => rfl
  | cons a rest ih => rw [List.map_cons, oks, ih]

/-- No attempt fails, so a group of them gives the outcomes of all, whichever scheduler runs it. -/
theorem run_all_attempt (scheduler : Scheduler) {es : List (Effect α)}
    (h : scheduler = .sync → ∀ e ∈ es, e.isAsync = false) :
    (all (es.map attempt)).run scheduler = .ok (es.map (run scheduler)) := by
  by_cases hsync : ∀ e ∈ es, e.isAsync = false
  · have houtcomes : (es.map attempt).mapM runSync = .ok (es.map runSync) := by
      rw [mapM_eq_ok_iff, List.forall₂_map_left_iff, List.forall₂_map_right_iff, List.forall₂_same]
      exact fun e he => runSync_attempt (hsync e he)
    rw [all_of_not_isAsync (by simpa using hsync), houtcomes]
    cases scheduler with
    | sync => rfl
    | async =>
        refine congrArg Except.ok (List.map_congr_left fun e he => ?_)
        exact run_sync_eq (hsync e he)
  · cases scheduler with
    | sync => exact absurd (h rfl) hsync
    | async =>
        have hany : (es.map attempt).any isAsync = true := by simpa using hsync
        have hnone : firstFailure ((es.map attempt).map runAsync) = none := by
          refine firstFailure_eq_none fun a ha => ?_
          simp only [List.mem_map, exists_exists_and_eq_and] at ha
          obtain ⟨e, -, rfl⟩ := ha
          exact ⟨_, runAsync_attempt e⟩
        have houtcomes : ((es.map attempt).map runAsync).map (·.outcome) =
            (es.map (run .async)).map .ok := by
          simp only [List.map_map]
          exact List.map_congr_left fun e _ => runAsync_attempt e
        rw [all, if_pos hany]
        simp only [run, runAsync, joinAwaited, hnone, houtcomes, oks_map_ok]

end StaticGql.Effect

/-! ### Recipes

Effects as they are put together. Combining ready effects already runs them, so what is left of an effect
does not tell how it came about; its recipe does, and says what should come of it.
-/

namespace StaticGql

open Effect

/-- How an effect is put together. -/
inductive Recipe : Type → Type 1
  | pure {α : Type} (a : α) : Recipe α
  | fail {α : Type} (e : EvaluationError) : Recipe α
  | yield {α : Type} (next : Recipe α) : Recipe α
  | deferred {α : Type} (awaited : Awaited α) : Recipe α
  | map {α β : Type} (f : α → β) (p : Recipe α) : Recipe β
  | andThen {α β : Type} (f : α → Recipe β) (p : Recipe α) : Recipe β
  | attempt {α : Type} (p : Recipe α) : Recipe (Outcome α)
  | all {α : Type} {n : Nat} (members : Fin n → Recipe α) : Recipe (List α)

namespace Recipe

variable {α β : Type}

def effect : {α : Type} → Recipe α → Effect α
  | _, pure a => .pure a
  | _, fail e => .fail e
  | _, yield next => .yield next.effect
  | _, deferred awaited => .deferred awaited
  | _, map f p => p.effect.map f
  | _, andThen f p => p.effect.andThen fun a => (f a).effect
  | _, attempt p => p.effect.attempt
  | _, all members => .all (List.ofFn fun i => (members i).effect)

/-- What comes of it where everything is run in its order. -/
def outcome : {α : Type} → Recipe α → Outcome α
  | _, pure a => .ok a
  | _, fail e => .error e
  | _, yield next => next.outcome
  | _, deferred awaited => awaited.outcome
  | _, map f p => p.outcome.map f
  | _, andThen f p => p.outcome >>= fun a => (f a).outcome
  | _, attempt p => .ok p.outcome
  | _, all members => (List.ofFn fun i => (members i).outcome).mapM id

/-- Whether something deferred is met where everything is run in its order. What follows on a failure
is never met. -/
def awaits : {α : Type} → Recipe α → Bool
  | _, pure _ => false
  | _, fail _ => false
  | _, yield next => next.awaits
  | _, deferred _ => true
  | _, map _ p => p.awaits
  | _, andThen f p =>
    p.awaits || match p.outcome with
      | .ok a => (f a).awaits
      | .error _ => false
  | _, attempt p => p.awaits
  | _, all members => (List.ofFn fun i => (members i).awaits).any id

theorem awaits_andThen_eq_false {f : α → Recipe β} {p : Recipe α} :
    (andThen f p).awaits = false ↔ p.awaits = false ∧ ∀ a, p.outcome = .ok a → (f a).awaits = false := by
  rw [awaits, Bool.or_eq_false_iff]
  refine and_congr_right fun _ => ?_
  cases p.outcome <;> simp

theorem awaits_all_eq_false {n : Nat} {members : Fin n → Recipe α} :
    (all members).awaits = false ↔ ∀ i, (members i).awaits = false := by
  simp [awaits]

/-- What is put together is asynchronous only if something deferred is met, and if nothing is, running
it gives what the recipe says, whatever of it has been run by then. Both at once, as it takes the outcome
of one part to know which part follows. -/
theorem effect_spec (p : Recipe α) :
    p.effect.isAsync = p.awaits ∧ (p.awaits = false → p.effect.runSync = p.outcome) := by
  induction p with
  | pure a => exact ⟨rfl, fun _ => rfl⟩
  | fail e => exact ⟨rfl, fun _ => rfl⟩
  | yield next ih => exact ih
  | deferred awaited => exact ⟨rfl, fun h => nomatch h⟩
  | map f p ih =>
      obtain ⟨hasync, hrun⟩ := ih
      refine ⟨(isAsync_map f _).trans hasync, fun h => ?_⟩
      rw [effect, runSync_map, hrun h, outcome]
  | andThen f p ihf ih =>
      obtain ⟨hasync, hrun⟩ := ih
      cases hp : p.awaits with
      | true =>
          have hthen : (andThen f p).awaits = true := by rw [awaits, hp, Bool.true_or]
          refine ⟨?_, fun h => by simp [hthen] at h⟩
          rw [hthen]
          exact isAsync_andThen_of_isAsync (hasync.trans hp)
      | false =>
          refine ⟨?_, fun h => ?_⟩
          · rw [effect, isAsync_andThen (hasync.trans hp), hrun hp, awaits, hp, Bool.false_or]
            cases p.outcome with
            | error e => rfl
            | ok a => exact (ihf a).1
          · rw [effect, runSync_andThen, hrun hp, outcome]
            cases hout : p.outcome with
            | error e => rfl
            | ok a => exact (ihf a).2 ((awaits_andThen_eq_false.1 h).2 a hout)
  | attempt p ih =>
      obtain ⟨hasync, hrun⟩ := ih
      refine ⟨(isAsync_attempt _).trans hasync, fun h => ?_⟩
      rw [effect, runSync_attempt (hasync.trans h), hrun h, outcome]
  | all members ih =>
      constructor
      · have hmembers : (List.ofFn fun i => (members i).awaits) =
            (List.ofFn fun i => (members i).effect).map isAsync := by
          rw [List.map_ofFn]
          exact congrArg List.ofFn (funext fun i => (ih i).1.symm)
        rw [effect, isAsync_all, awaits, hmembers, List.any_map]
        rfl
      · intro h
        rw [awaits_all_eq_false] at h
        have hready : ∀ e ∈ List.ofFn fun i => (members i).effect, e.isAsync = false :=
          List.forall_mem_ofFn_iff.2 fun i => (ih i).1.trans (h i)
        have houtcomes : (List.ofFn fun i => (members i).outcome) =
            (List.ofFn fun i => (members i).effect).map runSync := by
          rw [List.map_ofFn]
          exact congrArg List.ofFn (funext fun i => ((ih i).2 (h i)).symm)
        rw [effect, all_of_not_isAsync hready, outcome, houtcomes, mapM_map]
        rfl

/-- An asynchronous effect is refused by the synchronous scheduler; of any other both schedulers make
what its recipe says. -/
theorem schedulers_agree (p : Recipe α) :
    (p.effect.isAsync = true → p.effect.run .sync = .error .asyncInSync) ∧
      (p.effect.isAsync = false →
        p.effect.run .sync = p.effect.run .async ∧ p.effect.run .async = p.outcome) := by
  obtain ⟨hasync, hrun⟩ := p.effect_spec
  refine ⟨runSync_of_isAsync, fun h => ⟨run_sync_eq h, ?_⟩⟩
  rw [← run_sync_eq h]
  exact hrun (hasync.symm.trans h)

/-- A group whose first member fails after it has let other work go first. -/
def halved : Recipe (List (Outcome Nat)) :=
  all [attempt (andThen (fun n => if n = 3 then fail (.failed "odd") else pure (n / 2)) (yield (pure 3))),
    attempt (map (· / 2) (yield (yield (pure 4))))].get

/-- The same numbers waited for, but only once the group has been run. -/
def published : Recipe Nat :=
  andThen (fun outcomes => deferred ⟨2, .ok outcomes.length⟩) (yield halved)

theorem schedulers_agree_halved :
    (published.effect.isAsync = true ∧ published.effect.run .sync = .error .asyncInSync) ∧
      halved.effect.isAsync = false ∧ halved.effect.run .sync = halved.effect.run .async ∧
        halved.effect.run .async = .ok [.error (.failed "odd"), .ok 2] :=
  ⟨⟨rfl, published.schedulers_agree.1 rfl⟩, rfl, (halved.schedulers_agree.2 rfl).1,
    (halved.schedulers_agree.2 rfl).2.trans rfl⟩

end Recipe
end StaticGql
