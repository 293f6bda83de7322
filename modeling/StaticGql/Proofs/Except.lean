import Mathlib.Data.List.Forall2

/-!
Lists related member by member, and when computations that may fail do not fail.
-/

namespace StaticGql

variable {ε α β γ : Type}

theorem exists_of_forall₂ {R : α → β → Prop} {l : List α} {l' : List β}
    (h : List.Forall₂ R l l') {a : α} (ha : a ∈ l) : ∃ b ∈ l', R a b := by
  induction h with
  | nil => simp at ha
  | cons hab _ ih =>
      rcases List.mem_cons.1 ha with rfl | ha
      · exact ⟨_, List.mem_cons_self, hab⟩
      · obtain ⟨b, hb, hab⟩ := ih ha
        exact ⟨b, List.mem_cons_of_mem _ hb, hab⟩

theorem exists_split_of_forall₂ {R : α → β → Prop} {l : List α} {before after : List β} {b : β}
    (h : List.Forall₂ R l (before ++ b :: after)) : ∃ before' a after', l = before' ++ a :: after' ∧ R a b ∧
      List.Forall₂ R after' after := by
  induction before generalizing l with
  | nil =>
      obtain ⟨a, after', hab, hafter, rfl⟩ := List.forall₂_cons_right_iff.1 h
      exact ⟨[], a, after', rfl, hab, hafter⟩
  | cons _ _ ih =>
      obtain ⟨a', rest, -, hrest, rfl⟩ := List.forall₂_cons_right_iff.1 h
      obtain ⟨before', a, after', rfl, hab, hafter⟩ := ih hrest
      exact ⟨a' :: before', a, after', rfl, hab, hafter⟩

theorem exists_forall₂ {R : α → β → Prop} {l : List α} (h : ∀ a ∈ l, ∃ b, R a b) :
    ∃ l', List.Forall₂ R l l' := by
  induction l with
  | nil => exact ⟨[], .nil⟩
  | cons a rest ih =>
      obtain ⟨⟨b, hb⟩, hrest⟩ := List.forall_mem_cons.1 h
      obtain ⟨l', hl'⟩ := ih hrest
      exact ⟨b :: l', .cons hb hl'⟩

theorem pairwise_of_forall₂ {R : α → β → Prop} {P : α → α → Prop} {Q : β → β → Prop} {l : List α} {l' : List β}
    (h : List.Forall₂ R l l') (hP : l.Pairwise P)
    (hQ : ∀ a ∈ l, ∀ b ∈ l, ∀ a' b', R a a' → R b b' → P a b → Q a' b') : l'.Pairwise Q := by
  induction h with
  | nil => exact .nil
  | @cons a a' rest rest' ha hrest ih =>
      obtain ⟨hfirst, hP⟩ := List.pairwise_cons.1 hP
      refine List.pairwise_cons.2 ⟨fun b' hb' => ?_, ih hP fun b hb c hc =>
        hQ b (List.mem_cons_of_mem a hb) c (List.mem_cons_of_mem a hc)⟩
      obtain ⟨b, hb, hbb'⟩ := exists_of_forall₂ hrest.flip hb'
      exact hQ a List.mem_cons_self b (List.mem_cons_of_mem a hb) a' b' ha hbb' (hfirst b hb)

theorem bind_eq_ok_iff {x : Except ε α} {f : α → Except ε β} {b : β} :
    x >>= f = .ok b ↔ ∃ a, x = .ok a ∧ f a = .ok b := by
  cases x with
  | error e => exact ⟨fun h => (nomatch h), fun ⟨a, h, _⟩ => nomatch h⟩
  | ok a => exact ⟨fun h => ⟨a, rfl, h⟩, fun ⟨_, h, hb⟩ => by cases h; exact hb⟩

theorem map_eq_ok_iff {x : Except ε α} {f : α → β} {b : β} :
    x.map f = .ok b ↔ ∃ a, x = .ok a ∧ f a = b := by
  cases x with
  | error e => simp [Except.map]
  | ok a => simp [Except.map]

theorem mapError_eq_ok_iff {ε' : Type} {x : Except ε α} {f : ε → ε'} {a : α} :
    x.mapError f = .ok a ↔ x = .ok a := by
  cases x <;> simp [Except.mapError]

theorem mapM_eq_ok_iff {f : α → Except ε β} {l : List α} {m : List β} :
    l.mapM f = .ok m ↔ List.Forall₂ (fun a b => f a = .ok b) l m := by
  induction l generalizing m with
  | nil =>
      rw [List.mapM_nil, List.forall₂_nil_left_iff]
      exact ⟨fun h => by cases h; rfl, fun h => by rw [h]; rfl⟩
  | cons a rest ih =>
      rw [List.mapM_cons, bind_eq_ok_iff, List.forall₂_cons_left_iff]
      constructor
      · rintro ⟨b, hb, h⟩
        obtain ⟨m', hm', h⟩ := bind_eq_ok_iff.1 h
        cases h
        exact ⟨b, m', hb, ih.1 hm', rfl⟩
      · rintro ⟨b, m', hb, hm', rfl⟩
        exact ⟨b, hb, bind_eq_ok_iff.2 ⟨m', ih.2 hm', rfl⟩⟩

/-- A failure is that of the first member that fails. -/
theorem mapM_eq_error_iff {f : α → Except ε β} {l : List α} {e : ε} : l.mapM f = .error e ↔
    ∃ before a after, l = before ++ a :: after ∧ (∀ b ∈ before, ∃ c, f b = .ok c) ∧ f a = .error e := by
  constructor
  · intro h
    induction l with
    | nil => cases h
    | cons a rest ih =>
        rw [List.mapM_cons] at h
        cases ha : f a with
        | error e' =>
            rw [ha] at h
            cases h
            exact ⟨[], a, rest, rfl, fun _ hb => absurd hb List.not_mem_nil, ha⟩
        | ok b =>
            cases hrest : rest.mapM f with
            | error e' =>
                rw [ha, hrest] at h
                cases h
                obtain ⟨before, a', after, rfl, hbefore, he⟩ := ih hrest
                exact ⟨a :: before, a', after, rfl, List.forall_mem_cons.2 ⟨⟨b, ha⟩, hbefore⟩, he⟩
            | ok m =>
                rw [ha, hrest] at h
                cases h
  · rintro ⟨before, a, after, rfl, hbefore, he⟩
    induction before with
    | nil =>
        rw [List.nil_append, List.mapM_cons, he]
        rfl
    | cons b before ih =>
        obtain ⟨⟨c, hc⟩, hrest⟩ := List.forall_mem_cons.1 hbefore
        rw [List.cons_append, List.mapM_cons, hc, ih hrest]
        rfl

/-- A failure is that of some member. -/
theorem exists_of_mapM_eq_error {f : α → Except ε β} {l : List α} {e : ε}
    (h : l.mapM f = .error e) : ∃ a ∈ l, f a = .error e := by
  obtain ⟨before, a, after, rfl, -, he⟩ := mapM_eq_error_iff.1 h
  exact ⟨a, List.mem_append_right before List.mem_cons_self, he⟩

theorem mapM_congr {f g : α → Except ε β} {l : List α} (h : ∀ a ∈ l, f a = g a) : l.mapM f = l.mapM g := by
  induction l with
  | nil => rfl
  | cons a rest ih =>
      obtain ⟨ha, hrest⟩ := List.forall_mem_cons.1 h
      rw [List.mapM_cons, List.mapM_cons, ha, ih hrest]

theorem mapM_map (f : β → Except ε γ) (g : α → β) (l : List α) :
    (l.map g).mapM f = l.mapM (f ∘ g) := by
  induction l with
  | nil => rfl
  | cons a rest ih =>
      rw [List.map_cons, List.mapM_cons, List.mapM_cons, ih]
      rfl

theorem mapM_comp_map (f : α → Except ε β) (g : β → γ) (l : List α) :
    l.mapM (fun a => (f a).map g) = (l.mapM f).map (List.map g) := by
  induction l with
  | nil => rfl
  | cons a rest ih =>
      rw [List.mapM_cons, List.mapM_cons, ih]
      cases f a with
      | error e => rfl
      | ok b => cases rest.mapM f <;> rfl

theorem exists_mapM_of_forall₂ {α' β' : Type} {R : α → α' → Prop} {S : β → β' → Prop}
    {f : α → Except ε β} {f' : α' → Except ε β'} {l : List α} {l' : List α'} {m : List β}
    (hl : List.Forall₂ R l l') (hm : l.mapM f = .ok m)
    (h : ∀ a a' b, R a a' → f a = .ok b → ∃ b', f' a' = .ok b' ∧ S b b') :
    ∃ m', l'.mapM f' = .ok m' ∧ List.Forall₂ S m m' := by
  induction hl generalizing m with
  | nil =>
      cases hm
      exact ⟨[], rfl, .nil⟩
  | cons ha _ ih =>
      rw [List.mapM_cons, bind_eq_ok_iff] at hm
      obtain ⟨b, hb, hm⟩ := hm
      obtain ⟨rest, hrest, hm⟩ := bind_eq_ok_iff.1 hm
      cases hm
      obtain ⟨b', hb', hs⟩ := h _ _ _ ha hb
      obtain ⟨rest', hrest', hall⟩ := ih hrest
      refine ⟨b' :: rest', ?_, .cons hs hall⟩
      rw [List.mapM_cons, hb', hrest']
      rfl

/-- Members that come to one result each. -/
theorem forall₂_flatten {R : α → β → Prop} {f : α → Except ε (List β)} {l : List α} {m : List (List β)}
    (h : l.mapM f = .ok m) (hf : ∀ a ∈ l, ∀ bs, f a = .ok bs → ∃ b, bs = [b] ∧ R a b) :
    List.Forall₂ R l m.flatten := by
  induction l generalizing m with
  | nil =>
      cases h
      exact .nil
  | cons a rest ih =>
      rw [List.mapM_cons] at h
      obtain ⟨bs, hbs, h⟩ := bind_eq_ok_iff.1 h
      obtain ⟨m', hm', h⟩ := bind_eq_ok_iff.1 h
      cases h
      obtain ⟨b, rfl, hb⟩ := hf a (by simp) bs hbs
      exact .cons hb (ih hm' fun a' ha' => hf a' (List.mem_cons_of_mem a ha'))

theorem eq_ok_of_toOption {x : Except ε α} {a : α} (h : x.toOption = some a) : x = .ok a := by
  cases x with
  | error e => cases h
  | ok a' => exact congrArg Except.ok (Option.some.inj h)

theorem exists_of_any_toOption {x : Except ε α} {p : α → Bool} (h : x.toOption.any p = true) :
    ∃ a, x = .ok a ∧ p a = true := by
  cases x with
  | error e => cases h
  | ok a => exact ⟨a, rfl, h⟩

theorem eq_ok_get {ε α : Type} {x : Except ε α} (h : x.toOption.isSome = true) :
    x = .ok (x.toOption.get h) := by
  cases x with
  | error e => cases h
  | ok a => rfl

end StaticGql
