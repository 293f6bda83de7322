import Mathlib.Data.List.Cycle
import StaticGql.Graph.Check
import StaticGql.Proofs.Graph.Declarations

/-!
The search for cycles of composition. Whatever it reports is a cycle, as it reports the way that it is on
from where a reference leads back to it. It misses none: a declaration that it has left, and that is on no
cycle reported, is composed only from such as it had left before, so no cycle runs through them alone.
-/

namespace StaticGql.Graph

open Relation

variable {g : Graph} {a b v : CanonicalId} {c l p x y : List CanonicalId} {s s' s'' : Search}

/-! ### Cycles of composition -/

/-- The first declaration is composed from the second: it refers to it, and both are of kinds that are
composed. -/
structure Composes (g : Graph) (a b : CanonicalId) : Prop where
  left : g.isComposable a = true
  right : g.isComposable b = true
  refers : b ∈ g.dependencies a

/-- A cycle of composition: no declaration comes twice, each is composed from the next and the last from
the first, and the smallest id comes first. -/
def IsCycle (g : Graph) : List CanonicalId → Prop
  | [] => False
  | a :: l => (a :: l).Nodup ∧ List.IsChain g.Composes (a :: (l ++ [a])) ∧ ∀ b ∈ l, a.text < b.text

/-- On a way that ends where it begins every place can be reached from every other, and from itself. -/
theorem transGen_of_closed {α : Type} {R : α → α → Prop} {a x y : α} {l : List α}
    (h : List.IsChain R (a :: (l ++ [a]))) (hx : x ∈ a :: l) (hy : y ∈ a :: l) : TransGen R x y := by
  have hchain := (Cycle.chain_coe_cons R a l).2 h
  exact Cycle.chain_iff_pairwise.1 (hchain.imp fun _ _ => TransGen.single) x hx y hy

theorem IsCycle.transGen (h : g.IsCycle c) (ha : a ∈ c) (hb : b ∈ c) : TransGen g.Composes a b := by
  cases c with
  | nil => cases ha
  | cons a' l => exact transGen_of_closed h.2.1 ha hb

/-! ### Beginning at the smallest -/

theorem takeWhile_ne (h : a ∉ x) : (x ++ a :: y).takeWhile (· ≠ a) = x := by
  rw [List.takeWhile_append_of_pos fun b hb => by simpa using ne_of_mem_of_not_mem hb h]
  simp

theorem dropWhile_ne (h : a ∉ x) : (x ++ a :: y).dropWhile (· ≠ a) = a :: y := by
  rw [List.dropWhile_append_of_pos fun b hb => by simpa using ne_of_mem_of_not_mem hb h]
  simp

theorem smallest_mem (a : CanonicalId) (l : List CanonicalId) : smallest a l ∈ a :: l := by
  induction l generalizing a with
  | nil => exact List.mem_cons_self ..
  | cons b l ih =>
      rw [smallest]
      rcases List.mem_cons.1 (ih (if b.text < a.text then b else a)) with h | h
      · rw [h]
        split <;> simp
      · exact List.mem_cons_of_mem a (List.mem_cons_of_mem b h)

theorem smallest_le (a : CanonicalId) (l : List CanonicalId) :
    ∀ b ∈ a :: l, (smallest a l).text ≤ b.text := by
  induction l generalizing a with
  | nil => simp [smallest]
  | cons b l ih =>
      rw [smallest, List.forall_mem_cons, List.forall_mem_cons]
      by_cases hlt : b.text < a.text
      · rw [if_pos hlt]
        obtain ⟨hb, hl⟩ := List.forall_mem_cons.1 (ih b)
        have hle : b.text ≤ a.text := String.not_lt.1 (String.lt_asymm hlt)
        exact ⟨String.le_trans hb hle, hb, hl⟩
      · rw [if_neg hlt]
        obtain ⟨ha, hl⟩ := List.forall_mem_cons.1 (ih a)
        exact ⟨ha, String.le_trans ha (String.not_lt.1 hlt), hl⟩

theorem text_lt_of_ne (h : a.text ≤ b.text) (hne : b ≠ a) : a.text < b.text := by
  by_contra hlt
  exact hne (CanonicalId.mk.injEq .. ▸ String.le_antisymm (String.not_lt.1 hlt) h)

theorem rotated_spec (hc : c ≠ []) (hnodup : c.Nodup) :
    ∃ a l, rotated c = a :: l ∧ c ~r (a :: l) ∧ ∀ b ∈ l, a.text < b.text := by
  cases c with
  | nil => exact absurd rfl hc
  | cons a l =>
      obtain ⟨x, y, hsplit, hx⟩ := List.eq_append_cons_of_mem (smallest_mem a l)
      have hrotated : rotated (a :: l) = smallest a l :: (y ++ x) := by
        rw [rotated]
        simp only [hsplit, takeWhile_ne hx, dropWhile_ne hx, List.cons_append]
      have hperm : (a :: l) ~r (smallest a l :: (y ++ x)) := hsplit ▸ List.isRotated_append
      refine ⟨smallest a l, y ++ x, hrotated, hperm, fun b hb => ?_⟩
      have hmem : b ∈ a :: l := hperm.mem_iff.2 (List.mem_cons_of_mem _ hb)
      refine text_lt_of_ne (smallest_le a l b hmem) ?_
      rintro rfl
      exact (List.nodup_cons.1 (hperm.nodup_iff.1 hnodup)).1 hb

/-! ### The way of a search -/

/-- The way to where a search is, the last step first. -/
structure IsPath (g : Graph) (p : List CanonicalId) : Prop where
  nodup : p.Nodup
  composable : ∀ a ∈ p, g.isComposable a = true
  chain : p.IsChain fun b a => g.Composes a b

theorem IsPath.nil : g.IsPath [] := ⟨.nil, by simp, .nil⟩

theorem IsPath.cons (h : g.IsPath p) (ha : g.isComposable a = true) (hnew : a ∉ p)
    (hhead : ∀ b ∈ p.head?, g.Composes b a) : g.IsPath (a :: p) where
  nodup := List.nodup_cons.2 ⟨hnew, h.nodup⟩
  composable := List.forall_mem_cons.2 ⟨ha, h.composable⟩
  chain := by
    cases p with
    | nil => exact .singleton a
    | cons b p => exact .cons_cons (hhead b rfl) h.chain

theorem exists_of_isComposable (h : g.isComposable a = true) : ∃ d, g.get? a = some d := by
  rw [isComposable, kind?] at h
  cases hd : g.get? a with
  | none => simp [hd] at h
  | some d => exact ⟨d, rfl⟩

theorem IsPath.length_le (h : g.IsPath p) : p.length ≤ g.size := by
  have hnodup : (p.map (·.text)).Nodup := h.nodup.map fun a b hab => CanonicalId.mk.injEq .. ▸ hab
  have hsubset : p.map (·.text) ⊆ g.declarations.keys := by
    intro k hk
    obtain ⟨a, ha, rfl⟩ := List.mem_map.1 hk
    obtain ⟨d, hd⟩ := exists_of_isComposable (h.composable a ha)
    rw [get?] at hd
    exact Dict.mem_keys_iff.2 (by simp [hd])
  have := (List.subperm_of_subset hnodup hsubset).length_le
  simpa [size, Dict.size, Dict.keys] using this

/-- A reference that leads back to the way closes a cycle, which the place of the search is on. -/
theorem IsPath.isCycle (h : g.IsPath (a :: p)) (hv : v ∈ a :: p) (hrefers : v ∈ g.dependencies a) :
    g.IsCycle (rotated (v :: ((a :: p).takeWhile (· ≠ v)).reverse)) ∧
      a ∈ rotated (v :: ((a :: p).takeWhile (· ≠ v)).reverse) := by
  obtain ⟨x, y, hsplit, hx⟩ := List.eq_append_cons_of_mem hv
  rw [hsplit, takeWhile_ne hx]
  have hsteps : (v :: x.reverse).IsChain g.Composes := by
    have hchain := h.chain
    rw [hsplit, List.append_cons] at hchain
    simpa using List.isChain_reverse.2 hchain.left_of_append
  have hlast : (v :: x.reverse).getLast? = some a := by
    have hhead : (x ++ [v]).head? = some a := by
      cases x with
      | nil => simpa using (List.cons.inj hsplit).1.symm
      | cons a' x => simpa using (List.cons.inj hsplit).1.symm
    simpa [← List.getLast?_reverse] using hhead
  have hclosed : (v :: (x.reverse ++ [v])).IsChain g.Composes := by
    rw [← List.cons_append, List.isChain_append]
    refine ⟨hsteps, .singleton v, fun b hb b' hb' => ?_⟩
    rw [hlast, Option.mem_some] at hb
    obtain rfl : v = b' := by simpa using hb'
    subst hb
    exact ⟨h.composable _ (List.mem_cons_self ..), h.composable _ hv, hrefers⟩
  have hnodup : (v :: x.reverse).Nodup := by
    have := (hsplit ▸ h.nodup).sublist (List.sublist_append_left (x ++ [v]) y |>.trans (by simp))
    simpa using List.nodup_reverse.2 this
  obtain ⟨a', l, hrotated, hperm, hfirst⟩ := rotated_spec (List.cons_ne_nil v _) hnodup
  rw [hrotated]
  refine ⟨⟨hperm.nodup_iff.1 hnodup, ?_, hfirst⟩, ?_⟩
  · rw [← Cycle.chain_coe_cons, ← Cycle.coe_eq_coe.2 hperm, Cycle.chain_coe_cons]
    exact hclosed
  · exact hperm.mem_iff.1 (List.mem_of_getLast? hlast)

/-! ### What the search has settled -/

/-- The first declaration is composed into the second, which is on no cycle met so far. -/
def Below (g : Graph) (s : Search) (b a : CanonicalId) : Prop := g.Composes a b ∧ ∀ c ∈ s.cycles, a ∉ c

/-- Nothing endless begins here but what runs into a cycle met so far. -/
def Settled (g : Graph) (s : Search) (a : CanonicalId) : Prop := Acc (g.Below s) a

/-- The search has gone on. -/
structure Search.Extends (s s' : Search) : Prop where
  visited : s.visited ⊆ s'.visited
  cycles : s.cycles ⊆ s'.cycles

theorem Search.Extends.refl (s : Search) : s.Extends s := ⟨fun _ h => h, fun _ h => h⟩

theorem Search.Extends.trans (h : s.Extends s') (h' : s'.Extends s'') : s.Extends s'' :=
  ⟨fun _ ha => h'.visited (h.visited ha), fun _ hc => h'.cycles (h.cycles hc)⟩

theorem Settled.mono (h : g.Settled s a) (hs : s.cycles ⊆ s'.cycles) : g.Settled s' a :=
  Subrelation.accessible (fun hb => ⟨hb.1, fun c hc => hb.2 c (hs hc)⟩) h

/-- Where a search stands: what it met are cycles, and whatever it visited is on its way or settled. -/
structure Explores (g : Graph) (p : List CanonicalId) (s : Search) : Prop where
  cycles : ∀ c ∈ s.cycles, g.IsCycle c
  visited : ∀ a ∈ s.visited, a ∈ p ∨ g.Settled s a

theorem Explores.enter (h : g.Explores p s) (a : CanonicalId) :
    g.Explores (a :: p) { s with visited := a :: s.visited } where
  cycles := h.cycles
  visited := by
    intro b hb
    rcases List.mem_cons.1 hb with rfl | hb
    · exact .inl (List.mem_cons_self ..)
    · exact (h.visited b hb).imp_left (List.mem_cons_of_mem a)

theorem Explores.leave (h : g.Explores (a :: p) s) (ha : g.Settled s a) : g.Explores p s where
  cycles := h.cycles
  visited := by
    intro b hb
    rcases h.visited b hb with hp | hb
    · rcases List.mem_cons.1 hp with rfl | hp
      · exact .inr ha
      · exact .inl hp
    · exact .inr hb

theorem Explores.meet (h : g.Explores p s) (hc : g.IsCycle c) :
    g.Explores p { s with cycles := c :: s.cycles } where
  cycles := List.forall_mem_cons.2 ⟨hc, h.cycles⟩
  visited a ha := (h.visited a ha).imp_right fun hs => hs.mono (List.subset_cons_self c _)

/-- What the search has made of a reference from `a`: it met a cycle through `a`, or the target is
settled. -/
def Followed (g : Graph) (a : CanonicalId) (s : Search) (v : CanonicalId) : Prop :=
  g.isComposable v = true → (∃ c ∈ s.cycles, a ∈ c) ∨ g.Settled s v

theorem Followed.mono (h : g.Followed a s v) (hs : s.cycles ⊆ s'.cycles) : g.Followed a s' v := by
  intro hv
  rcases h hv with ⟨c, hc, ha⟩ | h
  · exact .inl ⟨c, hs hc, ha⟩
  · exact .inr (h.mono hs)

/-- Once all its references have been followed a declaration is settled. -/
theorem settled_of_followed (h : ∀ v ∈ g.dependencies a, g.Followed a s v) : g.Settled s a := by
  refine .intro a fun b hb => ?_
  obtain ⟨hcomposes, hnone⟩ := hb
  rcases h b hcomposes.refers hcomposes.right with ⟨c, hc, ha⟩ | hb
  · exact absurd ha (hnone c hc)
  · exact hb

/-! ### The search -/

/-- What a search from `v` leaves behind. -/
structure Visits (g : Graph) (p : List CanonicalId) (v : CanonicalId) (s s' : Search) : Prop where
  explores : g.Explores p s'
  extends' : s.Extends s'
  visited : v ∈ s'.visited
  settled : g.Settled s' v

theorem alongReference_spec {next : List CanonicalId → CanonicalId → Search → Search}
    (hp : g.IsPath (a :: p)) (hs : g.Explores (a :: p) s) (hrefers : v ∈ g.dependencies a)
    (hnext : g.IsPath (v :: a :: p) → g.Visits (a :: p) v s (next (a :: p) v s)) :
    g.Explores (a :: p) (g.alongReference next (a :: p) s v) ∧
      s.Extends (g.alongReference next (a :: p) s v) ∧
      g.Followed a (g.alongReference next (a :: p) s v) v := by
  have hcomposable := hp.composable a (List.mem_cons_self ..)
  rw [alongReference]
  by_cases hv : g.isComposable v = true
  · rw [if_neg (by simp [hv])]
    by_cases hpath : v ∈ a :: p
    · obtain ⟨hcycle, ha⟩ := hp.isCycle hpath hrefers
      rw [if_pos hpath]
      refine ⟨hs.meet hcycle, ⟨fun _ h => h, List.subset_cons_self ..⟩, fun _ => .inl ⟨_, ?_, ha⟩⟩
      exact List.mem_cons_self ..
    · rw [if_neg hpath]
      by_cases hvisited : v ∈ s.visited
      · rw [if_pos hvisited]
        exact ⟨hs, .refl s, fun _ => .inr ((hs.visited v hvisited).resolve_left hpath)⟩
      · rw [if_neg hvisited]
        have hvisits := hnext (hp.cons hv hpath fun b hb => by
          obtain rfl : a = b := by simpa using hb
          exact ⟨hcomposable, hv, hrefers⟩)
        exact ⟨hvisits.explores, hvisits.extends', fun _ => .inr hvisits.settled⟩
  · rw [if_pos (by simp [hv])]
    exact ⟨hs, .refl s, fun h => absurd h hv⟩

/-- All references from one place, in their order. -/
theorem alongReferences_spec {next : List CanonicalId → CanonicalId → Search → Search}
    (hp : g.IsPath (a :: p)) (hs : g.Explores (a :: p) s) (hl : l ⊆ g.dependencies a)
    (hnext : ∀ v s, g.IsPath (v :: a :: p) → g.Explores (a :: p) s →
      g.Visits (a :: p) v s (next (a :: p) v s)) :
    g.Explores (a :: p) (l.foldl (g.alongReference next (a :: p)) s) ∧
      s.Extends (l.foldl (g.alongReference next (a :: p)) s) ∧
      ∀ v ∈ l, g.Followed a (l.foldl (g.alongReference next (a :: p)) s) v := by
  induction l generalizing s with
  | nil => exact ⟨hs, .refl s, by simp⟩
  | cons v l ih =>
      obtain ⟨hv, hl⟩ := List.cons_subset.1 hl
      obtain ⟨hs₁, hextends, hfollowed⟩ :=
        alongReference_spec hp hs hv fun hpath => hnext v s hpath hs
      obtain ⟨hs₂, hextends', hrest⟩ := ih hs₁ hl
      refine ⟨hs₂, hextends.trans hextends', List.forall_mem_cons.2 ⟨?_, hrest⟩⟩
      exact hfollowed.mono hextends'.cycles

/-- A search from a new place settles it. The way never holds a declaration twice, so fuel for as many
steps as there are declarations is enough. -/
theorem visit_spec (fuel : Nat) (hp : g.IsPath (a :: p)) (hs : g.Explores p s)
    (hfuel : g.size < fuel + p.length) : g.Visits p a s (g.visit fuel p a s) := by
  induction fuel generalizing a p s with
  | zero =>
      have := hp.length_le
      rw [List.length_cons] at this
      omega
  | succ fuel ih =>
      rw [visit]
      obtain ⟨hexplores, hextends, hfollowed⟩ :=
        alongReferences_spec (l := g.dependencies a) hp (hs.enter a) (fun _ h => h)
          fun v s hv hs => ih hv hs (by rw [List.length_cons]; omega)
      have hsettled := settled_of_followed hfollowed
      refine ⟨hexplores.leave hsettled, ⟨fun b hb => ?_, hextends.cycles⟩, ?_, hsettled⟩
      · exact hextends.visited (List.mem_cons_of_mem a hb)
      · exact hextends.visited (List.mem_cons_self ..)

theorem searchFrom_spec (a : CanonicalId) (hs : g.Explores [] s) :
    g.Explores [] (g.searchFrom s a) ∧ s.Extends (g.searchFrom s a) ∧
      (g.isComposable a = true → a ∈ (g.searchFrom s a).visited) := by
  rw [searchFrom]
  by_cases hskip : (a ∈ s.visited || !g.isComposable a) = true
  · rw [if_pos hskip]
    exact ⟨hs, .refl s, fun ha => by simpa [ha] using hskip⟩
  · rw [if_neg hskip]
    have ha : g.isComposable a = true := by
      simp only [Bool.or_eq_true, not_or] at hskip
      simpa using hskip.2
    have hvisits := visit_spec (g.size + 1) (IsPath.nil.cons ha (by simp) (by simp)) hs (by simp)
    exact ⟨hvisits.explores, hvisits.extends', fun _ => hvisits.visited⟩

theorem searchAll_spec (l : List CanonicalId) (hs : g.Explores [] s) :
    g.Explores [] (l.foldl g.searchFrom s) ∧ s.Extends (l.foldl g.searchFrom s) ∧
      ∀ a ∈ l, g.isComposable a = true → a ∈ (l.foldl g.searchFrom s).visited := by
  induction l generalizing s with
  | nil => exact ⟨hs, .refl s, by simp⟩
  | cons a l ih =>
      obtain ⟨hs₁, hextends, ha⟩ := searchFrom_spec a hs
      obtain ⟨hs₂, hextends', hrest⟩ := ih hs₁
      refine ⟨hs₂, hextends.trans hextends', List.forall_mem_cons.2 ⟨fun h => ?_, hrest⟩⟩
      exact hextends'.visited (ha h)

/-- What the search through the whole graph comes to. -/
def searched (g : Graph) : Search := (g.toList.map (·.id)).foldl g.searchFrom ⟨[], []⟩

theorem explores_searched (g : Graph) : g.Explores [] g.searched :=
  (searchAll_spec _ ⟨by simp, by simp⟩).1

theorem settled_searched (hg : g.Keyed) (ha : g.isComposable a = true) : g.Settled g.searched a := by
  have hall := (searchAll_spec (g := g) (g.toList.map (·.id)) (s := ⟨[], []⟩) ⟨by simp, by simp⟩).2.2
  obtain ⟨d, hd⟩ := exists_of_isComposable ha
  have hid := hg.id_of_get? hd
  have hmem : a ∈ g.toList.map (·.id) := List.mem_map.2 ⟨d, hg.mem_toList_iff.2 (by rw [hid, hd]), hid⟩
  exact ((explores_searched g).visited a (hall a hmem ha)).resolve_left List.not_mem_nil

/-- Where a way leads back to its beginning there is a cycle met, of members that can all be reached from
there and lead back there. -/
theorem exists_met (hg : g.Keyed) (h : TransGen g.Composes a a) : ∃ c ∈ g.searched.cycles,
    ∀ b ∈ c, ReflTransGen g.Composes a b ∧ ReflTransGen g.Composes b a := by
  -- The induction is on how `v` is settled, over all that lie on some way from `a` to `a`.
  have hall : ∀ v, g.Settled g.searched v → ReflTransGen g.Composes a v →
      ReflTransGen g.Composes v a → ∃ c ∈ g.searched.cycles,
        ∀ b ∈ c, ReflTransGen g.Composes a b ∧ ReflTransGen g.Composes b a := by
    intro v hv
    induction hv with
    | intro v _ ih =>
        intro hav hva
        by_cases hmet : ∃ c ∈ g.searched.cycles, v ∈ c
        · obtain ⟨c, hc, hvc⟩ := hmet
          have hcycle := (explores_searched g).cycles c hc
          refine ⟨c, hc, fun b hb => ⟨?_, ?_⟩⟩
          · exact hav.trans (hcycle.transGen hvc hb).to_reflTransGen
          · exact (hcycle.transGen hb hvc).to_reflTransGen.trans hva
        · obtain ⟨w, hvw, hwa⟩ := TransGen.head'_iff.1 (TransGen.trans_right hva h)
          exact ih w ⟨hvw, fun c hc hvc => hmet ⟨c, hc, hvc⟩⟩ (hav.tail hvw) hwa
  obtain ⟨b, hab, -⟩ := TransGen.head'_iff.1 h
  exact hall a (settled_searched hg hab.left) .refl .refl

/-! ### The list of cycles -/

/-- One cycle comes before another: in the first place where they differ its id is the smaller one, or it
is the beginning of the other. -/
def Precedes (c d : List CanonicalId) : Prop := List.Lex (fun a b => a.text < b.text) c d

theorem idsLe_total (c d : List CanonicalId) : (idsLe c d || idsLe d c) = true := by
  induction c generalizing d with
  | nil => rfl
  | cons a c ih =>
      cases d with
      | nil => rfl
      | cons b d =>
          simp only [idsLe, Bool.or_eq_true, Bool.and_eq_true, decide_eq_true_eq]
          by_cases hab : a.text < b.text
          · exact .inl (.inl hab)
          · by_cases hba : b.text < a.text
            · exact .inr (.inl hba)
            · obtain rfl : a = b :=
                CanonicalId.mk.injEq .. ▸ String.le_antisymm (String.not_lt.1 hba) (String.not_lt.1 hab)
              exact (Bool.or_eq_true .. ▸ ih d).imp (fun h => .inr ⟨rfl, h⟩) fun h => .inr ⟨rfl, h⟩

theorem idsLe_trans (c d e : List CanonicalId) (h : idsLe c d = true) (h' : idsLe d e = true) :
    idsLe c e = true := by
  induction c generalizing d e with
  | nil => rfl
  | cons a c ih =>
      cases d with
      | nil => cases h
      | cons b d =>
          cases e with
          | nil => cases h'
          | cons f e =>
              simp only [idsLe, Bool.or_eq_true, Bool.and_eq_true, decide_eq_true_eq] at h h' ⊢
              rcases h with hab | ⟨rfl, hcd⟩
              · rcases h' with hbf | ⟨rfl, -⟩
                · exact .inl (String.lt_trans hab hbf)
                · exact .inl hab
              · rcases h' with haf | ⟨rfl, hde⟩
                · exact .inl haf
                · exact .inr ⟨rfl, ih d e hcd hde⟩

theorem precedes_of_idsLe {c d : List CanonicalId} (h : idsLe c d = true) (hne : c ≠ d) :
    Precedes c d := by
  induction c generalizing d with
  | nil =>
      cases d with
      | nil => exact absurd rfl hne
      | cons b d => exact .nil
  | cons a c ih =>
      cases d with
      | nil => cases h
      | cons b d =>
          simp only [idsLe, Bool.or_eq_true, Bool.and_eq_true, decide_eq_true_eq] at h
          rcases h with hab | ⟨rfl, hcd⟩
          · exact .rel hab
          · exact .cons (ih hcd fun heq => hne (heq ▸ rfl))

theorem nodup_eraseDups (l : List (List CanonicalId)) : l.eraseDups.Nodup := by
  induction hn : l.length using Nat.strongRecOn generalizing l with
  | ind n ih =>
      cases l with
      | nil => exact .nil
      | cons c l =>
          rw [List.eraseDups_cons, List.nodup_cons]
          refine ⟨?_, ih _ ?_ _ rfl⟩
          · rw [List.mem_eraseDups]
            simp
          · rw [← hn, List.length_cons]
            exact Nat.lt_succ_of_le (List.length_filter_le _ _)

theorem mem_cycles_iff : c ∈ g.cycles ↔ c ∈ g.searched.cycles := by
  rw [cycles, List.mem_mergeSort, List.mem_eraseDups]
  rfl

theorem isCycle_of_mem (h : c ∈ g.cycles) : g.IsCycle c :=
  (explores_searched g).cycles c (mem_cycles_iff.1 h)

theorem pairwise_cycles (g : Graph) : g.cycles.Pairwise Precedes := by
  have hsorted : g.cycles.Pairwise fun c d => idsLe c d = true :=
    List.pairwise_mergeSort idsLe_trans idsLe_total _
  have hnodup : g.cycles.Nodup := (List.mergeSort_perm _ _).nodup_iff.2 (nodup_eraseDups _)
  exact hsorted.imp₂ (fun _ _ h hne => precedes_of_idsLe h hne) hnodup

/-- A cycle is reported in every component that holds one. -/
theorem exists_cycle (hg : g.Keyed) (h : TransGen g.Composes a a) : ∃ c ∈ g.cycles,
    ∀ b ∈ c, ReflTransGen g.Composes a b ∧ ReflTransGen g.Composes b a := by
  obtain ⟨c, hc, hall⟩ := exists_met hg h
  exact ⟨c, mem_cycles_iff.2 hc, hall⟩

theorem cycles_eq_nil_iff (hg : g.Keyed) : g.cycles = [] ↔ ∀ a, ¬ TransGen g.Composes a a := by
  constructor
  · intro hnil a ha
    obtain ⟨c, hc, -⟩ := exists_cycle hg ha
    simp [hnil] at hc
  · intro hnone
    refine List.eq_nil_iff_forall_not_mem.2 fun c hc => ?_
    have hcycle := isCycle_of_mem hc
    cases c with
    | nil => exact hcycle
    | cons a l => exact hnone a (hcycle.transGen (List.mem_cons_self ..) (List.mem_cons_self ..))

end StaticGql.Graph
