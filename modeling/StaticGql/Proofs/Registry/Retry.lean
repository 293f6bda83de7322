import StaticGql.Proofs.Registry.Calls

/-!
Evaluating again after a failure. What was evaluated before the failure keeps its value, so more elements
may be next than when it was met: it is met again unless one of these comes before it.
-/

namespace StaticGql

theorem BuildError.ofEvaluation_inj {id id' : CanonicalId} {e e' : EvaluationError} :
    ofEvaluation id e = ofEvaluation id' e' ↔ id = id' ∧ e = e' := by
  cases e <;> cases e' <;> simp [ofEvaluation]

namespace Registry

open Relation

variable {r r' s : Registry} {id x f g : CanonicalId} {scheduler : Scheduler} {b : BuildError}
  {e e' : Effect Value} {remaining : List CanonicalId}

/-! ### What is next to be evaluated -/

/-- A pending element over what is evaluated, with the effect that its factory makes of that. -/
structure Front (r : Registry) (id : CanonicalId) (e : Effect Value) : Prop where
  pending : r.value? id = none
  below : ∀ x, r.DependsOn id x → r.Grounded x
  effect : ∃ entry c, r.entry? id = some entry ∧ r.IsContext id c ∧ e = entry.factory c

theorem Call.Ripe.front {c : Call} (h : c.Ripe) : c.registry.Front c.id c.effect := by
  obtain ⟨entry, he, heffect⟩ := h.effect
  exact ⟨h.pending, h.below, entry, c.context, he, h.context, heffect⟩

theorem Front.unique (h : r.Front id e) (h' : r.Front id e') : e = e' := by
  obtain ⟨entry, c, he, hc, rfl⟩ := h.effect
  obtain ⟨entry', c', he', hc', rfl⟩ := h'.effect
  rw [he, Option.some.injEq] at he'
  rw [he', hc.unique hc']

theorem Front.grows (h : r.Front id e) (hgrows : r.Grows r') (hpending : r'.value? id = none) :
    r'.Front id e := by
  obtain ⟨entry, c, he, hc, heffect⟩ := h.effect
  obtain ⟨v, he'⟩ := entry?_of_blank hgrows.blank.symm he
  have hdeps := dependenciesOf_congr hgrows.blank.symm
  refine ⟨hpending, fun x hx => ?_, _, c, he', hgrows.isContext h.below hc, heffect⟩
  exact (h.below x (by rwa [dependsOn_congr hdeps])).mono hdeps fun hv => ⟨_, hgrows.kept hv⟩

theorem Front.mem_readyOf (h : r.Front id e) (hremains : r.Remains remaining) : id ∈ r.readyOf remaining := by
  obtain ⟨entry, c, he, -, -⟩ := h.effect
  refine mem_readyOf_iff.2 ⟨hremains.mem_iff.2 ⟨⟨entry, he⟩, h.pending⟩, fun x hx hmem => ?_⟩
  obtain ⟨v, hv⟩ := (h.below x hx).value
  simp [(hremains.mem_iff.1 hmem).2] at hv

/-! ### The order of what remains -/

theorem pendingIds_pairwise (r : Registry) : r.pendingIds.Pairwise (·.text < ·.text) :=
  List.pairwise_map.2 (r.entries.sorted.filter _)

theorem eq_of_sorted {l l' : List CanonicalId} (hl : l.Pairwise (·.text < ·.text))
    (hl' : l'.Pairwise (·.text < ·.text)) (h : ∀ id, id ∈ l ↔ id ∈ l') : l = l' := by
  have : Std.Irrefl (fun a b : CanonicalId => a.text < b.text) := ⟨fun a => String.lt_irrefl a.text⟩
  have : Std.Antisymm (fun a b : CanonicalId => a.text < b.text) :=
    ⟨fun _ _ h h' => absurd h' (String.lt_asymm h)⟩
  exact List.Pairwise.eq_of_mem_iff hl hl' fun id => h id

theorem Remains.eq_pendingIds (h : r.Remains remaining) (hsorted : remaining.Pairwise (·.text < ·.text)) :
    remaining = r.pendingIds := by
  refine eq_of_sorted hsorted (pendingIds_pairwise r) fun id => ?_
  rw [h.mem_iff, mem_pendingIds_iff]

theorem Remains.missing?_eq_none (h : r.Remains r.pendingIds) : r.missing? = none := by
  rw [missing?, List.findSome?_eq_none_iff]
  intro id hid
  rw [Option.map_eq_none_iff, List.find?_eq_none]
  intro x hx
  obtain ⟨e, he⟩ := h.registered hid hx
  simp [contains, he]

/-- What is next comes first where nothing depends on itself. -/
theorem exists_levels (h : r.Remains r.pendingIds) (hne : r.pendingIds ≠ [])
    (hloop : ∀ x, ¬ TransGen r.DependsOn x x) :
    ∃ rest, r.levels = .ok (r.readyOf r.pendingIds :: rest) := by
  have hlength := List.length_pos_iff.2 hne
  have hsize := length_pendingIds_le r
  rw [levels, h.missing?_eq_none]
  cases hlevels : r.levelsFrom r.entries.size r.pendingIds with
  | error b =>
      obtain ⟨ids, hids, -, hcircle⟩ := exists_circle_of_levelsFrom hlevels hsize
      obtain ⟨a, ha⟩ := exists_loop hids hcircle
      exact absurd ha (hloop a)
  | ok levels =>
      obtain ⟨n, hn⟩ : ∃ n, r.entries.size = n + 1 := ⟨r.entries.size - 1, by omega⟩
      rw [hn, levelsFrom_succ hne] at hlevels
      split at hlevels
      · cases hlevels
      · obtain ⟨rest, -, rfl⟩ := map_eq_ok_iff.1 hlevels
        exact ⟨rest, rfl⟩

/-! ### Where an evaluation fails -/

/-- An evaluation that fails in the middle leaves a registry between two levels, or with a part of one
stored. -/
theorem exists_of_evaluateLevels_eq_error (fuel : Nat) (remaining : List CanonicalId)
    (levels : List (List CanonicalId)) (count : Nat) (hlevels : r.levelsFrom fuel remaining = .ok levels)
    (hc : r.CoherentBy Effect.ComesTo) (hremains : r.Remains remaining)
    (hrun : evaluateLevels scheduler r count levels = (.error b, r')) :
    ∃ s rest, r.Grows s ∧ s.CoherentBy Effect.ComesTo ∧ s.Remains rest ∧ rest.Sublist remaining ∧
      ((s.effects (s.readyOf rest)).bind (run scheduler) = .error b ∧ r' = s ∨
        ∃ outcomes, (s.effects (s.readyOf rest)).bind (run scheduler) = .ok outcomes ∧
          s.commit outcomes = (some b, r')) := by
  induction fuel generalizing r remaining levels count with
  | zero =>
      cases remaining with
      | nil =>
          cases hlevels
          cases hrun
      | cons a rest => cases hlevels
  | succ fuel ih =>
      by_cases hne : remaining = []
      · subst hne
        cases hlevels
        cases hrun
      rw [levelsFrom_succ hne] at hlevels
      split at hlevels
      · cases hlevels
      obtain ⟨rest, hrest, rfl⟩ := map_eq_ok_iff.1 hlevels
      rw [evaluateLevels] at hrun
      cases hlevel : (r.effects (r.readyOf remaining)).bind (run scheduler) with
      | error b' =>
          rw [hlevel] at hrun
          cases hrun
          exact ⟨r', remaining, .refl r', hc, hremains, .refl _, .inl ⟨hlevel, rfl⟩⟩
      | ok outcomes =>
          obtain ⟨hids, hdue⟩ := dueBy_of_run (hremains.level hc) hlevel
          have hcommit := commit_spec outcomes hc (by rw [hids]; exact hremains.nodup.filter _) hdue
          rcases hr : r.commit outcomes with ⟨_ | b', r₁⟩
          · simp only [hlevel, hr] at hrun hcommit
            obtain ⟨hc₁, hgrows, hvalues⟩ := hcommit
            rw [← levelsFrom_congr (dependenciesOf_congr hgrows.blank)] at hrest
            have hnext := hremains.next hgrows (fun x => hids ▸ hvalues x)
            obtain ⟨s, rest', hgrows', hcs, hs, hsub, hstop⟩ := ih _ rest _ hrest hc₁ hnext hrun
            exact ⟨s, rest', hgrows.trans hgrows', hcs, hs, hsub.trans List.filter_sublist, hstop⟩
          · simp only [hlevel, hr] at hrun
            cases hrun
            exact ⟨r, remaining, .refl r, hc, hremains, .refl _, .inr ⟨outcomes, hlevel, hr⟩⟩

/-- What an evaluation says of the first level ends it. -/
theorem evaluatePending_of_first (h : r.Remains r.pendingIds) (hne : r.pendingIds ≠ [])
    (hloop : ∀ x, ¬ TransGen r.DependsOn x x) (scheduler : Scheduler) :
    match (r.callLevel (r.readyOf r.pendingIds)).2.bind (run scheduler) with
    | .error b => r.evaluatePending scheduler = (.error b, r)
    | .ok outcomes => ∀ b r', r.commit outcomes = (some b, r') →
        r.evaluatePending scheduler = (.error b, r') := by
  obtain ⟨rest, hlevels⟩ := exists_levels h hne hloop
  rw [snd_callLevel]
  cases hrun : (r.effects (r.readyOf r.pendingIds)).bind (run scheduler) with
  | error b => simp only [evaluatePending, hlevels, evaluateLevels, hrun]
  | ok outcomes =>
      intro b r' hcommit
      simp only [evaluatePending, hlevels, evaluateLevels, hrun, hcommit]

/-! ### What comes in between -/

/-- The element failed, and this was told of it. -/
def FailedAt (scheduler : Scheduler) (r : Registry) (f : CanonicalId) (b : BuildError) : Prop :=
  ∃ e failure, r.Front f e ∧ (scheduler = .sync → e.isAsync = false) ∧ e.run scheduler = .error failure ∧
    b = .ofEvaluation f failure

/-- Something that the element depends on got its value in between. -/
def Freed (before after : Registry) (g : CanonicalId) : Prop :=
  ∃ x, after.DependsOn g x ∧ before.value? x = none

/-- What is told of an element that has become the next and is met before the one that failed. -/
inductive Overtakes (scheduler : Scheduler) (before after : Registry) (f : CanonicalId) : BuildError → Prop
  | waiting {g : CanonicalId} {e : Effect Value} (front : after.Front g e) (freed : Freed before after g)
      (sync : scheduler = .sync) (isAsync : e.isAsync = true) :
      Overtakes scheduler before after f (.asyncEffect g)
  | failing {g : CanonicalId} {e : Effect Value} {failure : EvaluationError} (front : after.Front g e)
      (freed : Freed before after g) (first : g.text < f.text) (fails : e.run scheduler = .error failure) :
      Overtakes scheduler before after f (.ofEvaluation g failure)

/-- The error of a second evaluation, as it follows from the first one. -/
structure Recurs (scheduler : Scheduler) (before after : Registry) (b b' : BuildError) : Prop where
  ne_iff : b' ≠ b ↔ ∃ f b₁, FailedAt scheduler after f b ∧ Overtakes scheduler before after f b₁
  overtakes : b' ≠ b → ∃ f, FailedAt scheduler after f b ∧ Overtakes scheduler before after f b'

theorem Recurs.of_not_overtaken (h : ∀ f b₁, FailedAt scheduler r' f b → ¬ Overtakes scheduler r r' f b₁) :
    Recurs scheduler r r' b b where
  ne_iff := ⟨fun hne => absurd rfl hne, fun ⟨f, b₁, hf, ho⟩ => absurd ho (h f b₁ hf)⟩
  overtakes hne := absurd rfl hne

theorem Recurs.of_ne {b' : BuildError} (hne : b' ≠ b) (hf : FailedAt scheduler r' f b)
    (ho : Overtakes scheduler r r' f b') : Recurs scheduler r r' b b' where
  ne_iff := ⟨fun _ => ⟨f, b', hf, ho⟩, fun _ => hne⟩
  overtakes _ := ⟨f, hf, ho⟩

theorem Overtakes.of_freed {r₁ : Registry} (h : Overtakes scheduler r r' f b)
    (hfreed : ∀ g, Freed r r' g → Freed r₁ r' g) : Overtakes scheduler r₁ r' f b := by
  cases h with
  | waiting front freed sync isAsync => exact .waiting front (hfreed _ freed) sync isAsync
  | failing front freed first fails => exact .failing front (hfreed _ freed) first fails

theorem Recurs.adds {r₁ : Registry} {b' : BuildError} (h : Recurs scheduler r₁ r' b b') (ha : r.Adds r₁) :
    Recurs scheduler r r' b b' := by
  have hfreed : ∀ g, Freed r₁ r' g ↔ Freed r r' g := by
    intro g
    simp only [Freed, ha.value?_eq]
  have hovertakes : ∀ f b, Overtakes scheduler r₁ r' f b ↔ Overtakes scheduler r r' f b := fun f b =>
    ⟨(·.of_freed fun g => (hfreed g).1), (·.of_freed fun g => (hfreed g).2)⟩
  constructor
  · simpa only [hovertakes] using h.ne_iff
  · simpa only [hovertakes] using h.overtakes

/-- A level that cannot be run is met again as it was. -/
theorem Recurs.refused (hlevel : r'.IsLevel remaining) (hrun : (r'.effects remaining).bind (run scheduler) = .error b) :
    Recurs scheduler r r' b b := by
  refine .of_not_overtaken fun f b₁ hf _ => ?_
  have hspec := run_callLevel scheduler hlevel
  rw [snd_callLevel, hrun] at hspec
  obtain ⟨c, hmem, hsync, hasync, hb⟩ := hspec
  obtain ⟨rfl, hripe⟩ := (callLevel_spec hlevel).2.2 c hmem
  obtain ⟨e, failure, hfront, hready, -, hb'⟩ := hf
  have hid : BuildError.ofEvaluation c.id .asyncInSync = .ofEvaluation f failure := hb.symm.trans hb'
  obtain ⟨rfl, -⟩ := BuildError.ofEvaluation_inj.1 hid
  rw [hfront.unique hripe.front, hasync] at hready
  cases hready hsync

/-! ### A level of which a part was stored -/

variable {outcomes pre post : List (CanonicalId × Outcome Value)} {p q : CanonicalId × Outcome Value}

theorem mem_left_of_lt (h : (pre ++ p :: post).Pairwise (·.1.text < ·.1.text)) (hq : q ∈ pre ++ p :: post)
    (hlt : q.1.text < p.1.text) : q ∈ pre := by
  obtain ⟨-, hright, -⟩ := List.pairwise_append.1 h
  rcases List.mem_append.1 hq with hq | hq
  · exact hq
  · rcases List.mem_cons.1 hq with rfl | hq
    · exact absurd hlt (String.lt_irrefl _)
    · exact absurd hlt (String.lt_asymm ((List.pairwise_cons.1 hright).1 q hq))

theorem lt_of_not_mem_left (h : (pre ++ p :: post).Pairwise (·.1.text < ·.1.text)) (hq : q ∈ pre ++ p :: post)
    (hleft : q ∉ pre) (hne : q ≠ p) : p.1.text < q.1.text := by
  obtain ⟨-, hright, -⟩ := List.pairwise_append.1 h
  have hq := (List.mem_append.1 hq).resolve_left hleft
  exact (List.pairwise_cons.1 hright).1 q ((List.mem_cons.1 hq).resolve_left hne)

/-- What is left where an element of a level has failed: those of its level that are still to be evaluated
do not stop the scheduler, and do not fail if they come before it. -/
structure Halts (scheduler : Scheduler) (s r : Registry) (rest : List CanonicalId) (f : CanonicalId)
    (failure : EvaluationError) : Prop where
  grows : s.Grows r
  coherent : r.CoherentBy Effect.ComesTo
  remains : r.Remains r.pendingIds
  failed : ∃ e, r.Front f e ∧ (scheduler = .sync → e.isAsync = false) ∧ e.run scheduler = .error failure
  others : ∀ {g e}, g ∈ s.readyOf rest → r.Front g e → (scheduler = .sync → e.isAsync = false) ∧
    (g.text < f.text → ∀ failure', e.run scheduler ≠ .error failure')

/-- The outcomes of a level, one for each of its elements. -/
structure AreOutcomes (scheduler : Scheduler) (r : Registry) (level : List CanonicalId)
    (outcomes : List (CanonicalId × Outcome Value)) : Prop where
  ids : outcomes.map (·.1) = level
  made : ∀ {p}, p ∈ outcomes → ∃ e, r.Front p.1 e ∧ (scheduler = .sync → e.isAsync = false) ∧
    p.2 = e.run scheduler

theorem areOutcomes_of_run (hlevel : s.IsLevel remaining)
    (hrun : (s.effects remaining).bind (run scheduler) = .ok outcomes) :
    AreOutcomes scheduler s remaining outcomes := by
  have hspec := run_callLevel scheduler hlevel
  rw [snd_callLevel, hrun] at hspec
  obtain ⟨rfl, hsync⟩ := hspec
  obtain ⟨hids, -, hcalls⟩ := callLevel_spec hlevel
  refine ⟨by rw [List.map_map]; exact hids, fun hp => ?_⟩
  obtain ⟨c, hmem, rfl⟩ := List.mem_map.1 hp
  obtain ⟨rfl, hripe⟩ := hcalls c hmem
  exact ⟨c.effect, hripe.front, fun hs => hsync hs c hmem, rfl⟩

theorem AreOutcomes.exists_front (h : AreOutcomes scheduler s remaining outcomes) (hg : g ∈ remaining) :
    ∃ e, s.Front g e ∧ (scheduler = .sync → e.isAsync = false) ∧ (g, e.run scheduler) ∈ outcomes := by
  rw [← h.ids] at hg
  obtain ⟨p, hp, rfl⟩ := List.mem_map.1 hg
  obtain ⟨e, he, hsync, hmade⟩ := h.made hp
  exact ⟨e, he, hsync, hmade ▸ hp⟩

theorem AreOutcomes.of_front (h : AreOutcomes scheduler s remaining outcomes) (hg : g ∈ remaining)
    (he : s.Front g e) : (scheduler = .sync → e.isAsync = false) ∧ (g, e.run scheduler) ∈ outcomes := by
  obtain ⟨e', he', hmade⟩ := h.exists_front hg
  exact he'.unique he ▸ hmade

theorem AreOutcomes.pairwise (h : AreOutcomes scheduler s remaining outcomes)
    (hsorted : remaining.Pairwise (·.text < ·.text)) : outcomes.Pairwise (·.1.text < ·.1.text) := by
  rw [← h.ids, List.pairwise_map] at hsorted
  exact hsorted

theorem exists_halts (hc : s.CoherentBy Effect.ComesTo) (hs : s.Remains remaining)
    (hsorted : remaining.Pairwise (·.text < ·.text))
    (hrun : (s.effects (s.readyOf remaining)).bind (run scheduler) = .ok outcomes)
    (hcommit : s.commit outcomes = (some b, r')) :
    ∃ f failure, b = .ofEvaluation f failure ∧ Halts scheduler s r' remaining f failure := by
  have hlevel := hs.level hc
  have houtcomes := areOutcomes_of_run hlevel hrun
  have hpairwise := houtcomes.pairwise (hsorted.filter _)
  obtain ⟨-, hdue⟩ := dueBy_of_run hlevel hrun
  obtain ⟨pre, f, failure, post, rfl, hpre, rfl, hstored⟩ := exists_of_commit_eq_some hcommit
  have hnodup : ((pre ++ (f, .error failure) :: post).map (·.1)).Nodup := by
    rw [houtcomes.ids]
    exact hs.nodup.filter _
  rw [List.map_append, List.map_cons, List.nodup_append] at hnodup
  have hspec := commit_spec pre hc hnodup.1 fun p hp => hdue p (List.mem_append_left _ hp)
  rw [hstored] at hspec
  obtain ⟨hc', hgrows, hvalues⟩ := hspec
  have hnext := hs.next hgrows hvalues
  rw [hnext.eq_pendingIds (hsorted.filter _)] at hnext
  refine ⟨f, failure, rfl, hgrows, hc', hnext, ?_, fun {g e} hg he => ?_⟩
  · obtain ⟨e, he, hsync, hfails⟩ := houtcomes.made (p := (f, .error failure)) (by simp)
    have hnot : f ∉ pre.map (·.1) := fun hmem => hnodup.2.2 f hmem f (by simp) rfl
    exact ⟨e, he.grows hgrows ((hvalues f).2 ⟨he.pending, hnot⟩), hsync, hfails.symm⟩
  · obtain ⟨e', he', hsync, hmem⟩ := houtcomes.exists_front hg
    obtain rfl := (he'.grows hgrows he.pending).unique he
    refine ⟨hsync, fun hlt failure' hfails => ?_⟩
    obtain ⟨v, hv⟩ := hpre _ (mem_left_of_lt hpairwise hmem hlt)
    rw [hfails] at hv
    cases hv

theorem Halts.freed {r : Registry} {failure : EvaluationError} (h : Halts scheduler s r' remaining f failure)
    (hs : s.Remains remaining) (hbefore : ∀ x ∈ remaining, r.value? x = none) (hfront : r'.Front g e)
    (hover : (scheduler = .sync ∧ e.isAsync = true) ∨
      g.text < f.text ∧ ∃ failure', e.run scheduler = .error failure') : Freed r r' g := by
  obtain ⟨entry, c, he, -, -⟩ := hfront.effect
  have hg : g ∈ remaining := by
    refine hs.mem_iff.2 ⟨h.grows.exists_entry_iff.1 ⟨entry, he⟩, ?_⟩
    cases hv : s.value? g with
    | none => rfl
    | some v => simpa [hfront.pending] using h.grows.kept hv
  have hnot : g ∉ s.readyOf remaining := by
    intro hready
    obtain ⟨hsync, hfirst⟩ := h.others hready hfront
    rcases hover with ⟨rfl, hasync⟩ | ⟨hlt, failure', hfails⟩
    · simp [hsync rfl] at hasync
    · exact hfirst hlt failure' hfails
  rw [mem_readyOf_iff] at hnot
  push Not at hnot
  obtain ⟨x, hx, hmem⟩ := hnot hg
  exact ⟨x, by rwa [dependsOn_congr (dependenciesOf_congr h.grows.blank)], hbefore x hmem⟩

/-- After an element has failed, evaluating fails again: for this element, or for one that has become the
next by what was stored and is met before it. -/
theorem Halts.recurs {r : Registry} {failure : EvaluationError} (h : Halts scheduler s r' remaining f failure)
    (hs : s.Remains remaining) (hbefore : ∀ x ∈ remaining, r.value? x = none)
    (hloop : ∀ x, ¬ TransGen r'.DependsOn x x) :
    ∃ b' r'', r'.evaluatePending scheduler = (.error b', r'') ∧
      Recurs scheduler r r' (.ofEvaluation f failure) b' := by
  obtain ⟨e, hfront, hready, hfails⟩ := h.failed
  have hf := hfront.mem_readyOf h.remains
  have hfailed : FailedAt scheduler r' f (.ofEvaluation f failure) := ⟨e, failure, hfront, hready, hfails, rfl⟩
  have hne : r'.pendingIds ≠ [] := List.ne_nil_of_mem (mem_readyOf_iff.1 hf).1
  have hlevel := h.remains.level h.coherent
  have hfirst := evaluatePending_of_first h.remains hne hloop scheduler
  have hspec := run_callLevel scheduler hlevel
  cases hrun : (r'.callLevel (r'.readyOf r'.pendingIds)).2.bind (run scheduler) with
  | error b' =>
      rw [hrun] at hfirst hspec
      obtain ⟨c, hmem, hsync, hasync, rfl⟩ := hspec
      obtain ⟨hreg, hripe⟩ := (callLevel_spec hlevel).2.2 c hmem
      have hc := hreg ▸ hripe.front
      refine ⟨_, r', hfirst, .of_ne (fun heq => ?_) hfailed
        (.waiting hc (h.freed hs hbefore hc (.inl ⟨hsync, hasync⟩)) hsync hasync)⟩
      have hid : BuildError.ofEvaluation c.id .asyncInSync = .ofEvaluation f failure := heq
      obtain ⟨rfl, -⟩ := BuildError.ofEvaluation_inj.1 hid
      rw [hfront.unique hc, hasync] at hready
      cases hready hsync
  | ok outcomes =>
      rw [hrun] at hfirst
      rw [snd_callLevel] at hrun
      have houtcomes := areOutcomes_of_run hlevel hrun
      have hpairwise := houtcomes.pairwise ((pendingIds_pairwise r').filter _)
      have hin : (f, .error failure) ∈ outcomes := hfails ▸ (houtcomes.of_front hf hfront).2
      rcases hcommit : r'.commit outcomes with ⟨_ | b', r''⟩
      · obtain ⟨v, hv⟩ := commit_eq_none hcommit _ hin
        cases hv
      refine ⟨b', r'', hfirst b' r'' hcommit, ?_⟩
      obtain ⟨pre, g, failure', post, rfl, hpre, rfl, -⟩ := exists_of_commit_eq_some hcommit
      have hleft : ∀ {x failure}, (x, .error failure) ∉ pre := fun hmem => by
        obtain ⟨v, hv⟩ := hpre _ hmem
        cases hv
      by_cases hg : (f, .error failure) = (g, (.error failure' : Outcome Value))
      · cases hg
        refine .of_not_overtaken fun f₁ b₁ hf₁ ho => ?_
        obtain ⟨_, _, _, _, _, hb⟩ := hf₁
        obtain ⟨rfl, -⟩ := BuildError.ofEvaluation_inj.1 hb
        cases ho with
        | waiting front freed sync isAsync =>
            obtain ⟨hsync, -⟩ := houtcomes.of_front (front.mem_readyOf h.remains) front
            simp [hsync sync] at isAsync
        | failing front freed first fails =>
            obtain ⟨-, hmem⟩ := houtcomes.of_front (front.mem_readyOf h.remains) front
            rw [fails] at hmem
            exact hleft (mem_left_of_lt hpairwise hmem first)
      · have hlt := lt_of_not_mem_left hpairwise hin hleft hg
        obtain ⟨e', he', -, hmade⟩ := houtcomes.made (p := (g, .error failure')) (by simp)
        have hover := h.freed hs hbefore he' (.inr ⟨hlt, failure', hmade.symm⟩)
        refine .of_ne (fun heq => ?_) hfailed (.failing he' hover hlt hmade.symm)
        obtain ⟨rfl, -⟩ := BuildError.ofEvaluation_inj.1 heq
        exact String.lt_irrefl _ hlt

/-! ### A second evaluation -/

/-- What is missing or runs in a circle is so still. -/
theorem evaluatePending_again_of_levels (scheduler : Scheduler) (hlevels : r.levels = .error b) :
    r.evaluatePending scheduler = (.error b, r) ∧ ∀ f, ¬ FailedAt scheduler r f b := by
  refine ⟨by simp only [evaluatePending, hlevels], fun f ⟨_, failure, hfront, _, _, hb⟩ => ?_⟩
  rw [levels] at hlevels
  cases hmissing : r.missing? with
  | none =>
      rw [hmissing] at hlevels
      obtain ⟨ids, rfl⟩ := levelsFrom_eq_error hlevels
      cases failure <;> cases hb
  | some b' =>
      rw [hmissing] at hlevels
      cases hlevels
      obtain ⟨id, hid, hfirst⟩ := List.exists_of_findSome?_eq_some hmissing
      obtain ⟨x, hfind, rfl⟩ := Option.map_eq_some_iff.1 hfirst
      have hid : BuildError.ofEvaluation id (.failed _) = .ofEvaluation f failure := hb
      obtain ⟨rfl, -⟩ := BuildError.ofEvaluation_inj.1 hid
      obtain ⟨v, hv⟩ := (hfront.below x (List.mem_of_find?_eq_some hfind)).value
      obtain ⟨e, he⟩ := exists_entry_of_value hv
      have hnone : r.entry? x = none := by simpa [contains] using List.find?_some hfind
      simp [hnone] at he

/-- A level that was refused is refused again. -/
theorem evaluatePending_again_of_refused (hc : s.CoherentBy Effect.ComesTo) (hs : s.Remains s.pendingIds)
    (hloop : ∀ x, ¬ TransGen s.DependsOn x x)
    (hrun : (s.effects (s.readyOf s.pendingIds)).bind (run scheduler) = .error b) :
    s.evaluatePending scheduler = (.error b, s) := by
  have hlevel := hs.level hc
  rw [← snd_callLevel] at hrun
  have hne : s.pendingIds ≠ [] := by
    have hspec := run_callLevel scheduler hlevel
    rw [hrun] at hspec
    obtain ⟨c, hmem, -⟩ := hspec
    have hid : c.id ∈ s.readyOf s.pendingIds := (callLevel_spec hlevel).1 ▸ List.mem_map_of_mem hmem
    exact List.ne_nil_of_mem (mem_readyOf_iff.1 hid).1
  have hfirst := evaluatePending_of_first hs hne hloop scheduler
  rwa [hrun] at hfirst

theorem evaluatePending_again (hc : r.CoherentBy Effect.ComesTo)
    (hrun : r.evaluatePending scheduler = (.error b, r')) :
    ∃ b' r'', r'.evaluatePending scheduler = (.error b', r'') ∧ Recurs scheduler r r' b b' := by
  cases hlevels : r.levels with
  | error b₁ =>
      obtain ⟨hsame, hnot⟩ := evaluatePending_again_of_levels scheduler hlevels
      obtain ⟨rfl, rfl⟩ : b₁ = b ∧ r = r' := by simpa [hsame] using hrun
      exact ⟨b₁, r, hsame, .of_not_overtaken fun f _ hf => absurd hf (hnot f)⟩
  | ok levels =>
      rw [evaluatePending, hlevels] at hrun
      rw [Registry.levels] at hlevels
      cases hmissing : r.missing? with
      | some b₁ => simp [hmissing] at hlevels
      | none =>
          rw [hmissing] at hlevels
          obtain ⟨s, rest, hgrows, hcs, hs, hsub, hstop⟩ := exists_of_evaluateLevels_eq_error _ _ levels 0
            hlevels hc (remains_of_missing? hmissing) hrun
          have hsorted := (pendingIds_pairwise r).sublist hsub
          have hbefore : ∀ x ∈ rest, r.value? x = none := fun x hx => (mem_pendingIds_iff.1 (hsub.subset hx)).2
          have hloop : ∀ {t : Registry}, r.Grows t → ∀ x, ¬ TransGen t.DependsOn x x := by
            intro t ht
            rw [dependsOn_congr (dependenciesOf_congr ht.blank)]
            refine not_loop_of_levelsFrom hlevels fun x hx => ?_
            obtain ⟨y, hy, -⟩ := TransGen.head'_iff.1 hx
            obtain ⟨e, he, -⟩ := hy.exists_entry
            refine mem_pendingIds_iff.2 ⟨⟨e, he⟩, ?_⟩
            cases hv : r.value? x with
            | none => rfl
            | some v => exact absurd hx (hc.grounded hv).not_loop
          rcases hstop with ⟨hrefused, rfl⟩ | ⟨outcomes, houtcomes, hcommit⟩
          · obtain rfl := hs.eq_pendingIds hsorted
            exact ⟨b, r', evaluatePending_again_of_refused hcs hs (hloop hgrows) hrefused,
              .refused (hs.level hcs) hrefused⟩
          · obtain ⟨f, failure, rfl, hhalts⟩ := exists_halts hcs hs hsorted houtcomes hcommit
            exact hhalts.recurs hs hbefore (hloop (hgrows.trans hhalts.grows))

/-- Whatever was done to a registry: where an evaluation has failed another one fails as well. It tells the
same, unless the first one was stopped by an element that failed, and something was stored by then that has
made another element the next which is met before that: one with a smaller id that fails too, or one that
waits where nothing can be awaited. Then it tells of such an element. -/
theorem Reachable.evaluate_again (h : Reachable r)
    (hrun : (evaluate scheduler).run.run r = (.ok (.error b), r')) :
    ∃ b' r'', (evaluate scheduler).run.run r' = (.ok (.error b'), r'') ∧ Recurs scheduler r r' b b' := by
  obtain ⟨⟨n, r₁, -, hadds, hc, hpending⟩, hnone⟩ := exists_of_run_evaluate h.coherent hrun
  obtain ⟨b', r'', hagain, hrecurs⟩ := evaluatePending_again hc hpending
  refine ⟨b', r'', ?_, hrecurs.adds hadds⟩
  rw [evaluate_of_not_awaits hnone, hagain]

/-- An element with nothing to depend on, one over it that fails, and one by itself that fails. -/
def overtaking : Registry :=
  runOperations [.command (.install ⟨"/a", [], ∅,
    [⟨⟨"A"⟩, .define, [], fun _ => .pure (.define (.nat 1))⟩, ⟨⟨"B"⟩, .define, [⟨"A"⟩], fun _ => .fail (.failed "B")⟩,
      ⟨⟨"M"⟩, .define, [], fun _ => .fail (.failed "M")⟩], "1"⟩)] .empty

theorem reachable_overtaking : Reachable overtaking := .runOperations _ .empty

theorem evaluate_overtaking : (evaluate .sync).run.run overtaking =
    (.ok (.error (.evaluationFailed ⟨"M"⟩ "M")), ((evaluate .sync).run.run overtaking).2) :=
  Prod.ext (by decide +kernel) rfl

theorem evaluate_overtaking_again :
    ((evaluate .sync).run.run ((evaluate .sync).run.run overtaking).2).1 =
      .ok (.error (.evaluationFailed ⟨"B"⟩ "B")) := by
  decide +kernel

/-- The second evaluation tells of the one over it, which the first one has made the next. -/
theorem recurs_overtaking :
    Recurs .sync overtaking ((evaluate .sync).run.run overtaking).2 (.evaluationFailed ⟨"M"⟩ "M")
      (.evaluationFailed ⟨"B"⟩ "B") := by
  obtain ⟨b', r'', hagain, hrecurs⟩ := reachable_overtaking.evaluate_again evaluate_overtaking
  have hb := evaluate_overtaking_again
  rw [hagain] at hb
  cases hb
  exact hrecurs

/-- A failure need not be told again. -/
theorem not_told_again : ¬ ∀ (r r' : Registry) (scheduler : Scheduler) (b : BuildError), Reachable r →
    (evaluate scheduler).run.run r = (.ok (.error b), r') →
      ((evaluate scheduler).run.run r').1 = .ok (.error b) := by
  intro h
  have hb := h _ _ .sync _ reachable_overtaking evaluate_overtaking
  rw [evaluate_overtaking_again] at hb
  simp at hb

end Registry
end StaticGql
