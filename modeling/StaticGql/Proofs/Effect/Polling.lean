import StaticGql.Proofs.Effect

/-!
Groups whose members are awaited together. The members are polled in their order, round after round,
until a round meets a failure or leaves nothing to wait for; a yield is done with after one poll. What
a group comes to can be told from what its members come to when each is polled alone.
-/

namespace StaticGql.Effect

variable {α : Type} {e e' : Effect α} {n m : Nat} {o : Outcome α} {err : EvaluationError} {es : List (Effect α)}

/-! ### One effect -/

/-- One poll gives the outcome, or what is left for the next round. -/
def poll : Effect α → Outcome α ⊕ Effect α
  | ready outcome => .inl outcome
  | yield next => .inr next
  | deferred ⟨0, outcome⟩ => .inl outcome
  | deferred ⟨rounds + 1, outcome⟩ => .inr (deferred ⟨rounds, outcome⟩)

/-- Polled alone, the effect is done in round `n`; the first is round 0. -/
inductive EndsIn : Effect α → Nat → Outcome α → Prop
  | now {e : Effect α} {o : Outcome α} (h : e.poll = .inl o) : EndsIn e 0 o
  | later {e left : Effect α} {n : Nat} {o : Outcome α} (h : e.poll = .inr left) (h' : EndsIn left n o) :
      EndsIn e (n + 1) o

theorem runAsync_of_poll_done (h : e.poll = .inl o) : e.runAsync = ⟨0, o⟩ := by
  cases e with
  | ready outcome =>
      cases h
      rfl
  | yield next => cases h
  | deferred a =>
      obtain ⟨_ | rounds, outcome⟩ := a
      · cases h
        rfl
      · cases h

theorem runAsync_of_poll_left (h : e.poll = .inr e') : e.runAsync = ⟨e'.runAsync.rounds + 1, e'.runAsync.outcome⟩ := by
  cases e with
  | ready outcome => cases h
  | yield next =>
      cases h
      rfl
  | deferred a =>
      obtain ⟨_ | rounds, outcome⟩ := a
      · cases h
      · cases h
        rfl

theorem endsIn_iff : e.EndsIn n o ↔ e.runAsync = ⟨n, o⟩ := by
  constructor
  · intro h
    induction h with
    | now h => exact runAsync_of_poll_done h
    | later h _ ih => rw [runAsync_of_poll_left h, ih]
  · intro h
    induction n generalizing e with
    | zero =>
        cases hpoll : e.poll with
        | inl outcome =>
            rw [runAsync_of_poll_done hpoll, Awaited.mk.injEq] at h
            exact .now (h.2 ▸ hpoll)
        | inr left =>
            rw [runAsync_of_poll_left hpoll] at h
            cases h
    | succ n ih =>
        cases hpoll : e.poll with
        | inl outcome =>
            rw [runAsync_of_poll_done hpoll] at h
            cases h
        | inr left =>
            rw [runAsync_of_poll_left hpoll, Awaited.mk.injEq, Nat.add_right_cancel_iff] at h
            exact .later hpoll (ih (by rw [← h.1, ← h.2]))

/-! ### A group -/

/-- A member of a group: what is left of it, or its value. -/
inductive Member (α : Type) where
  | waiting (left : Effect α)
  | done (value : α)

/-- A member that is done is not polled again. -/
def Member.poll : Member α → Except EvaluationError (Member α)
  | waiting e => e.poll.elim (Except.map done) fun left => .ok (waiting left)
  | done a => .ok (done a)

/-- What becomes of a group that is polled in its order, round by round, until a member fails or all
are done. -/
inductive Polled : List (Member α) → Awaited (List α) → Prop
  | fails {ms : List (Member α)} {err : EvaluationError} (h : ms.mapM Member.poll = .error err) :
      Polled ms ⟨0, .error err⟩
  | ends {ms : List (Member α)} {values : List α} (h : ms.mapM Member.poll = .ok (values.map .done)) :
      Polled ms ⟨0, .ok values⟩
  | goesOn {ms ms' : List (Member α)} {left : Effect α} {a : Awaited (List α)} (h : ms.mapM Member.poll = .ok ms')
      (hleft : .waiting left ∈ ms') (h' : Polled ms' a) : Polled ms ⟨a.rounds + 1, a.outcome⟩

def Member.awaited : Member α → Awaited α
  | waiting e => e.runAsync
  | done a => ⟨0, .ok a⟩

/-- What a round that does not fail leaves of what a member comes to: a round less, or the value it has. -/
inductive Ticks : Awaited α → Awaited α → Prop
  | round (rounds : Nat) (outcome : Outcome α) : Ticks ⟨rounds + 1, outcome⟩ ⟨rounds, outcome⟩
  | value (a : α) : Ticks ⟨0, .ok a⟩ ⟨0, .ok a⟩

theorem Member.poll_error {member : Member α} (h : member.poll = .error err) : member.awaited = ⟨0, .error err⟩ := by
  cases member with
  | done a => cases h
  | waiting e =>
      rw [Member.poll] at h
      cases hpoll : e.poll with
      | inr left =>
          rw [hpoll] at h
          cases h
      | inl outcome =>
          rw [hpoll] at h
          cases outcome with
          | ok a => cases h
          | error e' =>
              cases h
              exact runAsync_of_poll_done hpoll

theorem Member.poll_done {member : Member α} {a : α} (h : member.poll = .ok (.done a)) : member.awaited = ⟨0, .ok a⟩ := by
  cases member with
  | done a' =>
      cases h
      rfl
  | waiting e =>
      rw [Member.poll] at h
      cases hpoll : e.poll with
      | inr left =>
          rw [hpoll] at h
          cases h
      | inl outcome =>
          rw [hpoll] at h
          cases outcome with
          | error e' => cases h
          | ok a' =>
              cases h
              exact runAsync_of_poll_done hpoll

theorem Member.poll_waiting {member : Member α} {left : Effect α} (h : member.poll = .ok (.waiting left)) :
    member.awaited = ⟨left.runAsync.rounds + 1, left.runAsync.outcome⟩ := by
  cases member with
  | done a => cases h
  | waiting e =>
      rw [Member.poll] at h
      cases hpoll : e.poll with
      | inr left' =>
          rw [hpoll] at h
          cases h
          exact runAsync_of_poll_left hpoll
      | inl outcome =>
          rw [hpoll] at h
          cases outcome <;> cases h

theorem Member.poll_ticks {member member' : Member α} (h : member.poll = .ok member') :
    Ticks member.awaited member'.awaited := by
  cases member' with
  | done a =>
      rw [Member.poll_done h]
      exact .value a
  | waiting left =>
      rw [Member.poll_waiting h]
      exact .round _ _

/-! ### The first failure -/

/-- The members come to this failure first: in an earlier round than the failing ones in front of it, and
in no later one than those behind it. -/
def FailsFirst (members : List (Awaited α)) (n : Nat) (err : EvaluationError) : Prop :=
  ∃ before after, members = before ++ ⟨n, .error err⟩ :: after ∧
    (∀ a ∈ before, ∀ err', a.outcome = .error err' → n < a.rounds) ∧
    ∀ a ∈ after, ∀ err', a.outcome = .error err' → n ≤ a.rounds

theorem FailsFirst.le {members : List (Awaited α)} (h : FailsFirst members n err) :
    ∀ a ∈ members, ∀ err', a.outcome = .error err' → n ≤ a.rounds := by
  obtain ⟨before, after, rfl, hbefore, hafter⟩ := h
  intro a ha err' herr
  rcases List.mem_append.1 ha with ha | ha
  · exact Nat.le_of_lt (hbefore a ha err' herr)
  · rcases List.mem_cons.1 ha with rfl | ha
    · exact Nat.le_refl n
    · exact hafter a ha err' herr

theorem FailsFirst.cons {a : Awaited α} {rest : List (Awaited α)} (h : FailsFirst rest n err)
    (ha : ∀ err', a.outcome = .error err' → n < a.rounds) : FailsFirst (a :: rest) n err := by
  obtain ⟨before, after, rfl, hbefore, hafter⟩ := h
  exact ⟨a :: before, after, rfl, List.forall_mem_cons.2 ⟨ha, hbefore⟩, hafter⟩

theorem firstFailure_ok (rounds : Nat) (v : α) (rest : List (Awaited α)) :
    firstFailure (⟨rounds, .ok v⟩ :: rest) = firstFailure rest := by
  rw [firstFailure]

theorem firstFailure_error (err : EvaluationError) (rest : List (Awaited α)) :
    firstFailure (⟨n, .error err⟩ :: rest) = match firstFailure rest with
      | some (m, err') => if m < n then some (m, err') else some (n, err)
      | none => some (n, err) := by
  rw [firstFailure]
  cases firstFailure rest <;> rfl

theorem ok_of_firstFailure {members : List (Awaited α)} (h : firstFailure members = none) :
    ∀ a ∈ members, ∃ v, a.outcome = .ok v := by
  induction members with
  | nil => exact fun _ ha => absurd ha List.not_mem_nil
  | cons a rest ih =>
      obtain ⟨rounds, outcome⟩ := a
      cases outcome with
      | ok v =>
          rw [firstFailure_ok] at h
          exact List.forall_mem_cons.2 ⟨⟨v, rfl⟩, ih h⟩
      | error err =>
          rw [firstFailure_error] at h
          split at h
          · split at h <;> cases h
          · cases h

theorem failsFirst_of_firstFailure {members : List (Awaited α)} (h : firstFailure members = some (n, err)) :
    FailsFirst members n err := by
  induction members generalizing n err with
  | nil => cases h
  | cons a rest ih =>
      obtain ⟨rounds, outcome⟩ := a
      cases outcome with
      | ok v =>
          rw [firstFailure_ok] at h
          exact (ih h).cons nofun
      | error err₀ =>
          have hfront (hle : ∀ a ∈ rest, ∀ err', a.outcome = .error err' → rounds ≤ a.rounds) :
              FailsFirst (⟨rounds, .error err₀⟩ :: rest) rounds err₀ :=
            ⟨[], rest, rfl, fun _ ha => absurd ha List.not_mem_nil, hle⟩
          rw [firstFailure_error] at h
          cases hrest : firstFailure rest with
          | none =>
              rw [hrest] at h
              cases h
              refine hfront fun a ha err' herr => ?_
              obtain ⟨v, hv⟩ := ok_of_firstFailure hrest a ha
              rw [hv] at herr
              cases herr
          | some q =>
              obtain ⟨m, err'⟩ := q
              rw [hrest] at h
              dsimp only at h
              by_cases hless : m < rounds
              · rw [if_pos hless] at h
                cases h
                exact (ih hrest).cons fun _ _ => hless
              · rw [if_neg hless] at h
                cases h
                exact hfront fun a ha err' herr => Nat.le_trans (Nat.le_of_not_lt hless) ((ih hrest).le a ha err' herr)

/-- There is at most one failure that the members come to first. -/
theorem FailsFirst.firstFailure_eq {members : List (Awaited α)} (h : FailsFirst members n err) :
    firstFailure members = some (n, err) := by
  obtain ⟨before, after, rfl, hbefore, hafter⟩ := h
  induction before with
  | nil =>
      rw [List.nil_append, firstFailure_error]
      cases hrest : firstFailure after with
      | none => rfl
      | some q =>
          obtain ⟨m, err'⟩ := q
          obtain ⟨front, behind, rfl, -⟩ := failsFirst_of_firstFailure hrest
          exact if_neg (Nat.not_lt.2 (hafter _ (List.mem_append_right _ List.mem_cons_self) err' rfl))
  | cons a before ih =>
      obtain ⟨ha, hrest⟩ := List.forall_mem_cons.1 hbefore
      obtain ⟨rounds, outcome⟩ := a
      cases outcome with
      | ok v => rw [List.cons_append, firstFailure_ok, ih hrest]
      | error err' =>
          rw [List.cons_append, firstFailure_error, ih hrest]
          exact if_pos (ha err' rfl)

theorem firstFailure_eq_some_iff {members : List (Awaited α)} :
    firstFailure members = some (n, err) ↔ FailsFirst members n err :=
  ⟨failsFirst_of_firstFailure, FailsFirst.firstFailure_eq⟩

/-! ### What a group comes to -/

theorem joinAwaited_eq_ok_iff {members : List (Awaited α)} {values : List α} :
    (joinAwaited members).outcome = .ok values ↔ List.Forall₂ (fun a v => a.outcome = .ok v) members values := by
  have hiff : ∀ values : List α, List.Forall₂ (fun a v => a.outcome = .ok v) members values ↔
      members.map (·.outcome) = values.map .ok := by
    intro values
    rw [← List.forall₂_eq_eq_eq, List.forall₂_map_left_iff, List.forall₂_map_right_iff]
  rw [hiff, joinAwaited]
  cases hfirst : firstFailure members with
  | none =>
      obtain ⟨values', h⟩ := exists_forall₂ (ok_of_firstFailure hfirst)
      rw [hiff] at h
      dsimp only
      rw [h, oks_map_ok]
      constructor
      · intro heq
        cases heq
        rfl
      · intro heq
        exact congrArg Except.ok (List.map_injective_iff.2 (fun _ _ h => Except.ok.inj h) heq)
  | some q =>
      obtain ⟨n, err⟩ := q
      constructor
      · intro h
        cases h
      · intro h
        obtain ⟨before, after, rfl, -⟩ := failsFirst_of_firstFailure hfirst
        have hmem : .error err ∈ values.map Except.ok := by
          rw [← h]
          exact List.mem_map.2 ⟨_, List.mem_append_right _ List.mem_cons_self, rfl⟩
        obtain ⟨v, -, hv⟩ := List.mem_map.1 hmem
        cases hv

theorem joinAwaited_eq_error_iff {members : List (Awaited α)} :
    (joinAwaited members).outcome = .error err ↔ ∃ n, FailsFirst members n err := by
  rw [joinAwaited]
  cases hfirst : firstFailure members with
  | none =>
      constructor
      · intro h
        cases h
      · rintro ⟨n, hn⟩
        rw [hn.firstFailure_eq] at hfirst
        cases hfirst
  | some q =>
      obtain ⟨m, err'⟩ := q
      constructor
      · intro h
        cases h
        exact ⟨m, failsFirst_of_firstFailure hfirst⟩
      · rintro ⟨n, hn⟩
        rw [hn.firstFailure_eq] at hfirst
        cases hfirst
        rfl

theorem Ticks.firstFailure_eq {members members' : List (Awaited α)} (h : List.Forall₂ Ticks members members') :
    firstFailure members = (firstFailure members').map fun q => (q.1 + 1, q.2) := by
  induction h with
  | nil => rfl
  | cons ha _ ih =>
      cases ha with
      | value v => rw [firstFailure_ok, firstFailure_ok, ih]
      | round rounds outcome =>
          cases outcome with
          | ok v => rw [firstFailure_ok, firstFailure_ok, ih]
          | error err =>
              rw [firstFailure_error, firstFailure_error, ih]
              cases firstFailure _ with
              | none => rfl
              | some q =>
                  obtain ⟨m, err'⟩ := q
                  by_cases hless : m < rounds
                  · simp [hless]
                  · simp [hless]

theorem foldl_max_le_iff {l : List Nat} {k : Nat} : l.foldl max k ≤ n ↔ k ≤ n ∧ ∀ x ∈ l, x ≤ n := by
  induction l generalizing k with
  | nil => simp
  | cons x rest ih => rw [List.foldl_cons, ih, Nat.max_le, List.forall_mem_cons, and_assoc]

theorem Ticks.outcome_eq {a a' : Awaited α} (h : Ticks a a') : a.outcome = a'.outcome := by
  cases h <;> rfl

/-- A round that leaves something to wait for: the group takes one round more than from there on. -/
theorem Ticks.joinAwaited_eq {members members' : List (Awaited α)} (h : List.Forall₂ Ticks members members')
    (hround : ∃ a ∈ members, a.rounds ≠ 0) :
    joinAwaited members = ⟨(joinAwaited members').rounds + 1, (joinAwaited members').outcome⟩ := by
  have hbound : ∀ n, (members.map (·.rounds)).foldl max 0 ≤ n ↔ (members'.map (·.rounds)).foldl max 0 + 1 ≤ n := by
    intro n
    rw [foldl_max_le_iff, and_iff_right (Nat.zero_le n), List.forall_mem_map]
    obtain ⟨a, ha, hne⟩ := hround
    cases n with
    | zero => exact iff_of_false (fun hall => hne (Nat.le_zero.1 (hall a ha))) (Nat.not_succ_le_zero _)
    | succ n =>
        rw [Nat.add_le_add_iff_right, foldl_max_le_iff, and_iff_right (Nat.zero_le n), List.forall_mem_map]
        constructor
        · intro hall b hb
          obtain ⟨a, ha, hticks⟩ := exists_of_forall₂ h.flip hb
          have := hall a ha
          cases hticks with
          | round => exact Nat.le_of_succ_le_succ this
          | value => exact Nat.zero_le n
        · intro hall a ha
          obtain ⟨b, hb, hticks⟩ := exists_of_forall₂ h ha
          have := hall b hb
          cases hticks with
          | round => exact Nat.succ_le_succ this
          | value => exact Nat.zero_le _
  have hmax : (members.map (·.rounds)).foldl max 0 = (members'.map (·.rounds)).foldl max 0 + 1 :=
    Nat.le_antisymm ((hbound _).2 (Nat.le_refl _)) ((hbound _).1 (Nat.le_refl _))
  have houtcomes : members.map (·.outcome) = members'.map (·.outcome) := by
    rw [← List.forall₂_eq_eq_eq, List.forall₂_map_left_iff, List.forall₂_map_right_iff]
    exact h.imp fun _ _ hticks => hticks.outcome_eq
  rw [joinAwaited, joinAwaited, Ticks.firstFailure_eq h, hmax, houtcomes]
  cases firstFailure members' <;> rfl

theorem joinAwaited_values (values : List α) :
    joinAwaited (values.map fun v => ⟨0, .ok v⟩) = ⟨0, .ok values⟩ := by
  have hfirst : firstFailure (values.map fun v => ⟨0, .ok v⟩) = none :=
    firstFailure_eq_none (by simp)
  have hrounds : ∀ values : List α, (values.map fun _ => 0).foldl max 0 = 0 := by
    intro values
    exact Nat.le_zero.1 (foldl_max_le_iff.2 ⟨Nat.le_refl 0, by simp⟩)
  rw [joinAwaited, hfirst, List.map_map, List.map_map]
  exact congr (congrArg Awaited.mk (hrounds values)) (congrArg Except.ok (oks_map_ok values))

/-- What polling in rounds comes to, the joined members come to. -/
theorem Polled.eq_joinAwaited {ms : List (Member α)} {a : Awaited (List α)} (h : Polled ms a) :
    a = joinAwaited (ms.map Member.awaited) := by
  induction h with
  | @fails ms err h =>
      obtain ⟨before, member, after, rfl, hbefore, herror⟩ := mapM_eq_error_iff.1 h
      have hfirst : FailsFirst ((before ++ member :: after).map Member.awaited) 0 err := by
        refine ⟨before.map Member.awaited, after.map Member.awaited, ?_, ?_, fun _ _ _ _ => Nat.zero_le _⟩
        · rw [List.map_append, List.map_cons, Member.poll_error herror]
        · rw [List.forall_mem_map]
          intro b hb err' herr'
          obtain ⟨b', hb'⟩ := hbefore b hb
          have hticks := Member.poll_ticks hb'
          cases b' with
          | done v =>
              rw [Member.poll_done hb'] at herr'
              cases herr'
          | waiting left =>
              rw [Member.poll_waiting hb']
              exact Nat.succ_pos _
      rw [joinAwaited, hfirst.firstFailure_eq]
  | @ends ms values h =>
      have hvalues : ms.map Member.awaited = values.map fun v => ⟨0, .ok v⟩ := by
        rw [mapM_eq_ok_iff, List.forall₂_map_right_iff] at h
        rw [← List.forall₂_eq_eq_eq, List.forall₂_map_left_iff, List.forall₂_map_right_iff]
        exact h.imp fun _ _ hpoll => Member.poll_done hpoll
      rw [hvalues, joinAwaited_values]
  | @goesOn ms ms' left a h hleft h' ih =>
      rw [mapM_eq_ok_iff] at h
      obtain ⟨member, hmember, hpoll⟩ := exists_of_forall₂ h.flip hleft
      have hticks : List.Forall₂ Ticks (ms.map Member.awaited) (ms'.map Member.awaited) := by
        rw [List.forall₂_map_left_iff, List.forall₂_map_right_iff]
        exact h.imp fun _ _ hpoll => Member.poll_ticks hpoll
      rw [Ticks.joinAwaited_eq hticks, ← ih]
      refine ⟨_, List.mem_map_of_mem hmember, ?_⟩
      rw [Member.poll_waiting hpoll]
      exact Nat.succ_ne_zero _

theorem exists_values {ms : List (Member α)} (h : ∀ left, .waiting left ∉ ms) : ∃ values : List α, ms = values.map .done := by
  induction ms with
  | nil => exact ⟨[], rfl⟩
  | cons member rest ih =>
      obtain ⟨values, rfl⟩ := ih fun left hleft => h left (List.mem_cons_of_mem member hleft)
      cases member with
      | done v => exact ⟨v :: values, rfl⟩
      | waiting left => exact absurd List.mem_cons_self (h left)

/-- Polling ends, since each round that does not end it takes one from all that is waited for. -/
theorem exists_polled (n : Nat) (ms : List (Member α)) (hn : ∀ member ∈ ms, member.awaited.rounds < n) :
    ∃ a, Polled ms a := by
  induction n generalizing ms with
  | zero =>
      have hnil : ms = [] := List.eq_nil_iff_forall_not_mem.2 fun member h => Nat.not_lt_zero _ (hn member h)
      subst hnil
      exact ⟨_, @Polled.ends _ [] [] rfl⟩
  | succ n ih =>
      cases hpoll : ms.mapM Member.poll with
      | error err => exact ⟨_, .fails hpoll⟩
      | ok ms' =>
          by_cases hwaits : ∃ left, .waiting left ∈ ms'
          · obtain ⟨left, hleft⟩ := hwaits
            have hmembers := mapM_eq_ok_iff.1 hpoll
            have hpositive : 0 < n := by
              obtain ⟨member, hmember, h⟩ := exists_of_forall₂ hmembers.flip hleft
              have := hn member hmember
              rw [Member.poll_waiting h] at this
              exact Nat.lt_of_le_of_lt (Nat.zero_le _) (Nat.lt_of_succ_lt_succ this)
            obtain ⟨a, ha⟩ := ih ms' fun member' hmember' => by
              obtain ⟨member, hmember, h⟩ := exists_of_forall₂ hmembers.flip hmember'
              have := hn member hmember
              cases member' with
              | done v => exact hpositive
              | waiting left =>
                  rw [Member.poll_waiting h] at this
                  exact Nat.lt_of_succ_lt_succ this
            exact ⟨_, .goesOn hpoll hleft ha⟩
          · obtain ⟨values, rfl⟩ := exists_values fun left hleft => hwaits ⟨left, hleft⟩
            exact ⟨_, .ends hpoll⟩

theorem polled_iff {ms : List (Member α)} {a : Awaited (List α)} :
    Polled ms a ↔ joinAwaited (ms.map Member.awaited) = a := by
  constructor
  · intro h
    exact h.eq_joinAwaited.symm
  · rintro rfl
    have hbound := (foldl_max_le_iff (l := ms.map fun m => m.awaited.rounds) (k := 0)).1 (Nat.le_refl _)
    obtain ⟨a, h⟩ := exists_polled _ ms fun member hmember =>
      Nat.lt_succ_of_le (hbound.2 _ (List.mem_map_of_mem hmember))
    rwa [← h.eq_joinAwaited]

/-! ### Groups -/

/-- The group meets this failure first when its members are polled in their order, round by round: `err`
is the failure of a member that fails in round `n`, where none fails before round `n`, and none in
front of it in that round. -/
def MeetsFirst (es : List (Effect α)) (n : Nat) (err : EvaluationError) : Prop :=
  ∃ before e after, es = before ++ e :: after ∧ e.EndsIn n (.error err) ∧
    (∀ f ∈ before, ∀ m err', f.EndsIn m (.error err') → n < m) ∧
    ∀ f ∈ after, ∀ m err', f.EndsIn m (.error err') → n ≤ m

/-- This is the failure of the first member that fails, whenever the members do. -/
def FailsInOrder (scheduler : Scheduler) (es : List (Effect α)) (err : EvaluationError) : Prop :=
  ∃ before e after, es = before ++ e :: after ∧ (∀ f ∈ before, ∃ v, f.run scheduler = .ok v) ∧
    e.run scheduler = .error err

theorem meetsFirst_iff : MeetsFirst es n err ↔ FailsFirst (es.map runAsync) n err := by
  have hrounds : ∀ (e : Effect α) (P : Nat → Prop), (∀ m err', e.EndsIn m (.error err') → P m) ↔
      ∀ err', e.runAsync.outcome = .error err' → P e.runAsync.rounds := by
    intro e P
    simp only [endsIn_iff]
    constructor
    · intro h err' herr
      exact h _ err' (by rw [← herr])
    · intro h m err' herr
      have := h err'
      rw [herr] at this
      exact this rfl
  constructor
  · rintro ⟨before, e, after, rfl, he, hbefore, hafter⟩
    refine ⟨before.map runAsync, after.map runAsync, ?_, ?_, ?_⟩
    · rw [List.map_append, List.map_cons, endsIn_iff.1 he]
    · exact List.forall_mem_map.2 fun f hf => (hrounds f (n < ·)).1 (hbefore f hf)
    · exact List.forall_mem_map.2 fun f hf => (hrounds f (n ≤ ·)).1 (hafter f hf)
  · rintro ⟨before, after, hsplit, hbefore, hafter⟩
    obtain ⟨before, rest, rfl, rfl, hrest⟩ := List.map_eq_append_iff.1 hsplit
    obtain ⟨e, after, rfl, he, rfl⟩ := List.map_eq_cons_iff.1 hrest
    refine ⟨before, e, after, rfl, endsIn_iff.2 he, fun f hf => ?_, fun f hf => ?_⟩
    · exact (hrounds f (n < ·)).2 (hbefore _ (List.mem_map_of_mem hf))
    · exact (hrounds f (n ≤ ·)).2 (hafter _ (List.mem_map_of_mem hf))

theorem run_all_of_not_isAsync (h : es.any isAsync = false) (scheduler : Scheduler) :
    (all es).run scheduler = es.mapM (run scheduler) := by
  have hes : ∀ e ∈ es, e.isAsync = false := by simpa using h
  rw [all_of_not_isAsync hes]
  cases scheduler with
  | sync => rfl
  | async => exact mapM_congr fun e he => run_sync_eq (hes e he)

/-- A group succeeds exactly where every member does, with their values in order. Where some member
has to be awaited, the members are polled in their order, round by round, and the failure is the one
that is met first; otherwise it is that of the first member that fails. -/
theorem all_spec (es : List (Effect α)) :
    (∀ values, (all es).run .async = .ok values ↔ List.Forall₂ (fun e v => e.run .async = .ok v) es values) ∧
      (es.any isAsync = true →
        (∀ a, Polled (es.map .waiting) a ↔ (all es).runAsync = a) ∧
          ∀ err, (all es).run .async = .error err ↔ ∃ n, MeetsFirst es n err) ∧
      (es.any isAsync = false →
        ∀ scheduler err, (all es).run scheduler = .error err ↔ FailsInOrder scheduler es err) := by
  have hawaited (h : es.any isAsync = true) : (all es).runAsync = joinAwaited (es.map runAsync) := by
    rw [all, if_pos h]
    rfl
  refine ⟨fun values => ?success, fun h => ⟨fun a => ?polled, fun err => ?met⟩, fun h scheduler err => ?inOrder⟩
  case success =>
    cases h : es.any isAsync with
    | false => rw [run_all_of_not_isAsync h, mapM_eq_ok_iff]
    | true =>
        rw [run, hawaited h, joinAwaited_eq_ok_iff, List.forall₂_map_left_iff]
        rfl
  case polled =>
    rw [polled_iff, hawaited h, List.map_map]
    rfl
  case met =>
    rw [run, hawaited h, joinAwaited_eq_error_iff]
    exact exists_congr fun n => meetsFirst_iff.symm
  case inOrder =>
    rw [run_all_of_not_isAsync h]
    exact mapM_eq_error_iff

/-- A failure behind a yield is overtaken where the group is awaited, and not where it is computed at once. -/
theorem all_spec_pair :
    ([yield (fail (.failed "late")), deferred ⟨0, .error (.failed "early")⟩] : List (Effect Nat)).any isAsync = true ∧
      (all ([yield (fail (.failed "late")), deferred ⟨0, .error (.failed "early")⟩] : List (Effect Nat))).run .async =
        .error (.failed "early") ∧
      ([yield (fail (.failed "late")), fail (.failed "early")] : List (Effect Nat)).any isAsync = false ∧
      ∀ scheduler, (all ([yield (fail (.failed "late")), fail (.failed "early")] : List (Effect Nat))).run scheduler =
        .error (.failed "late") := by
  refine ⟨rfl, (((all_spec _).2.1 rfl).2 _).2 ?awaited, rfl, fun scheduler => ((all_spec _).2.2 rfl scheduler _).2 ?atOnce⟩
  case awaited =>
    refine ⟨0, [yield (fail (.failed "late"))], _, [], rfl, .now rfl, fun f hf m err' h => ?_, nofun⟩
    rw [List.mem_singleton] at hf
    rw [hf, endsIn_iff] at h
    cases h
    exact Nat.one_pos
  case atOnce =>
    refine ⟨[], _, _, rfl, nofun, ?_⟩
    cases scheduler <;> rfl

end StaticGql.Effect
