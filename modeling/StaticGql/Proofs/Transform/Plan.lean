import StaticGql.Proofs.Except
import StaticGql.Transform.File
import StaticGql.Transform.Plan

/-!
What a plan is made of: which declarations stay, which are replaced by what, what else is written and
removed. Over an artifact that has all they ask for, every declaration but the `define`s is rewritten once, and
no call is left alone for want of its element.
-/

namespace StaticGql.Transform

open Plan (Fate)

variable {a : Analysis} {b : Artifact} {o : Options} {file : String} {s : Site}

/-- The element of a declaration, which is of its kind. -/
structure Finds (b : Artifact) (o : Options) (file : String) (s : Site) (id : CanonicalId)
    (e : Element) : Prop where
  create : CanonicalId.create o.idMode file s.structuralPath = .ok id
  get : b.get? id = some e
  kind : e.kind = s.kind

/-- What stands in place of a declaration once it is replaced. -/
def Replaces (b : Artifact) (o : Options) (file : String) (s : Site) (t : Substitution) : Prop :=
  ∃ id e, Finds b o file s id e ∧ t = ⟨s.span, (render o e).expression⟩

/-- The declaration is no `define`. -/
def isReplaced (s : Site) : Bool := s.kind ≠ .define

/-- A call with the element it is replaced by, or the error that it is. -/
abbrev Account := (Site × Element) ⊕ SiteError

/-- What becomes of a call that is no `define`. -/
inductive Yields (b : Artifact) (o : Options) (file : String) (s : Site) : Account → Prop
  | rewrite {id : CanonicalId} {e : Element} (h : Finds b o file s id e) : Yields b o file s (.inl (s, e))
  | missing {id : CanonicalId} (hid : CanonicalId.create o.idMode file s.structuralPath = .ok id)
      (hget : b.get? id = none) : Yields b o file s (.inr (Plan.errorAt file s.span (.noElement id s.kind)))
  | mismatched {id : CanonicalId} {e : Element} (hid : CanonicalId.create o.idMode file s.structuralPath = .ok id)
      (hget : b.get? id = some e) (hkind : e.kind ≠ s.kind) :
      Yields b o file s (.inr (Plan.errorAt file s.span (.otherKind id e.kind s.kind)))

namespace Plan

/-- The fate that stands for an account. -/
def Fate.ofAccount (o : Options) : Account → Fate
  | .inl (s, e) => .substitute ⟨s.span, (render o e).expression⟩ (render o e).hoisted
  | .inr e => .fault e

theorem define_or_yields {f : Fate} (h : fate b o file s = .ok f) :
    isReplaced s = false ∧ f = .define ∨
      isReplaced s = true ∧ ∃ y, Yields b o file s y ∧ f = .ofAccount o y := by
  rw [fate] at h
  split at h
  · rename_i hdefine
    cases h
    exact .inl ⟨by simp [isReplaced, hdefine], rfl⟩
  · rename_i hdefine
    refine .inr ⟨by simp [isReplaced, hdefine], ?_⟩
    obtain ⟨id, hid, h⟩ := map_eq_ok_iff.1 h
    split at h
    · rename_i hget
      exact ⟨_, .missing hid hget, h.symm⟩
    · rename_i e hget
      split at h
      · exact ⟨_, .rewrite ⟨hid, hget, ‹_›⟩, h.symm⟩
      · exact ⟨_, .mismatched hid hget ‹_›, h.symm⟩

/-- A plan with the fates of the declarations that it is made of. -/
structure From (b : Artifact) (o : Options) (a : Analysis) (fates : List Fate) (p : Plan) : Prop where
  own : List.Forall₂ (fun s f => fate b o a.file s = .ok f) a.declarations fates
  substitutions : p.substitutions = fates.filterMap (·.substitution?)
  errors : p.errors = (((a.diagnostics.filter (·.isRejection)).map fun d =>
    errorAt a.file d.span .noMetadata) ++ fates.filterMap (·.error?)).mergeSort SiteError.le
  header : ∀ text ∈ p.header, text = runtimeImport o ∨ text ∈ fates.filterMap (·.hoisted?)
  removedImports : ∀ span ∈ p.removedImports, ∃ i ∈ a.imports, i.span = span
  idle : p.substitutions = [] → p.header = [] ∧ p.removedImports = []

theorem exists_from {fates : List Fate}
    (h : List.Forall₂ (fun s f => fate b o a.file s = .ok f) a.declarations fates) :
    ∃ p, build a b o = .ok p ∧ From b o a fates p := by
  rw [build, mapM_eq_ok_iff.2 h]
  by_cases hempty : (fates.filterMap (·.substitution?)).isEmpty = true
  · refine ⟨_, if_pos hempty, h, ?_, rfl, by simp, by simp, fun _ => ⟨rfl, rfl⟩⟩
    exact (List.isEmpty_iff.1 hempty).symm
  · refine ⟨_, if_neg hempty, h, rfl, rfl, fun text htext => ?_, fun span hspan => ?_, fun hnil => ?_⟩
    · refine (List.mem_append.1 htext).imp_left fun htext => ?_
      split at htext
      · exact List.mem_singleton.1 htext
      · cases htext
    · simp only at hspan
      split at hspan
      · obtain ⟨i, hi, rfl⟩ := List.mem_map.1 hspan
        exact ⟨i, List.mem_of_mem_filter hi, rfl⟩
      · cases hspan
    · exact absurd (List.isEmpty_iff.2 hnil) hempty

theorem from_of_build {p : Plan} (h : build a b o = .ok p) : ∃ fates, From b o a fates p := by
  obtain ⟨fates, hfates, -⟩ := bind_eq_ok_iff.1 h
  obtain ⟨p', hp', hfrom⟩ := exists_from (mapM_eq_ok_iff.1 hfates)
  rw [h, Except.ok.injEq] at hp'
  exact ⟨fates, hp' ▸ hfrom⟩

/-- The fate of a declaration that has its element. -/
def Settles (b : Artifact) (o : Options) (file : String) (s : Site) (f : Fate) : Prop :=
  f.error? = none ∧ if isReplaced s then ∃ t, f.substitution? = some t ∧ Replaces b o file s t
    else f.substitution? = none

theorem exists_fate (h : isReplaced s = true → ∃ id e, Finds b o file s id e) :
    ∃ f, fate b o file s = .ok f ∧ Settles b o file s f := by
  by_cases hdefine : s.kind = .define
  · refine ⟨.define, if_pos hdefine, rfl, ?_⟩
    rw [if_neg (by simp [isReplaced, hdefine])]
    rfl
  · have hreplaced : isReplaced s = true := by simp [isReplaced, hdefine]
    obtain ⟨id, e, hfinds⟩ := h hreplaced
    refine ⟨.substitute ⟨s.span, (render o e).expression⟩ (render o e).hoisted, ?_, rfl, ?_⟩
    · rw [fate, if_neg hdefine, hfinds.create]
      simp only [Except.map, hfinds.get, hfinds.kind, if_true]
    · rw [if_pos hreplaced]
      exact ⟨_, rfl, id, e, hfinds, rfl⟩

theorem errors_of_settled {sites : List Site} {fates : List Fate}
    (h : List.Forall₂ (Settles b o file) sites fates) : fates.filterMap (·.error?) = [] := by
  induction h with
  | nil => rfl
  | cons hf _ ih => rw [List.filterMap_cons, hf.1, ih]

theorem substitutions_of_settled {sites : List Site} {fates : List Fate}
    (h : List.Forall₂ (Settles b o file) sites fates) :
    List.Forall₂ (Replaces b o file) (sites.filter isReplaced) (fates.filterMap (·.substitution?)) := by
  induction h with
  | nil => exact .nil
  | @cons s f _ _ hf _ ih =>
      have hfate := hf.2
      by_cases hreplaced : isReplaced s = true
      · rw [if_pos hreplaced] at hfate
        obtain ⟨t, ht, hreplaces⟩ := hfate
        rw [List.filter_cons_of_pos hreplaced, List.filterMap_cons, ht]
        exact .cons hreplaces ih
      · rw [if_neg hreplaced] at hfate
        rw [List.filter_cons_of_neg hreplaced, List.filterMap_cons, hfate]
        exact ih

/-- A plan over an artifact that has an element for every declaration, but for the `define`s. -/
theorem exists_plan
    (h : ∀ s ∈ a.declarations, isReplaced s = true → ∃ id e, Finds b o a.file s id e) :
    ∃ p, build a b o = .ok p ∧ (∀ e ∈ p.errors, e.fault = .noMetadata) ∧
      List.Forall₂ (Replaces b o a.file) (a.declarations.filter isReplaced) p.substitutions := by
  obtain ⟨fates, hfates⟩ := exists_forall₂ fun s hs => exists_fate (h s hs)
  have hall := hfates.imp fun _ _ hf => hf.2
  obtain ⟨p, hp, hfrom⟩ := exists_from (hfates.imp fun _ _ hf => hf.1)
  refine ⟨p, hp, fun e he => ?_, hfrom.substitutions ▸ substitutions_of_settled hall⟩
  rw [hfrom.errors, errors_of_settled hall, List.append_nil, List.mem_mergeSort, List.mem_map] at he
  obtain ⟨d, -, rfl⟩ := he
  rfl

/-! ### What a plan leaves in place, and what it writes -/

/-- The declaration is a `define`, or the artifact has no element of its kind under its id. -/
def Stays (b : Artifact) (o : Options) (file : String) (s : Site) : Prop :=
  isReplaced s = true → ∃ id, CanonicalId.create o.idMode file s.structuralPath = .ok id ∧
    ∀ e, b.get? id = some e → e.kind ≠ s.kind

/-- A declaration stays, or it gives way to the code for its element. -/
inductive FateOf (b : Artifact) (o : Options) (file : String) (s : Site) : Fate → Prop
  | stays {f : Fate} (h : Stays b o file s) (hs : f.substitution? = none) (hh : f.hoisted? = none) :
      FateOf b o file s f
  | substitute {id : CanonicalId} {e : Element} (hs : isReplaced s = true) (h : Finds b o file s id e) :
      FateOf b o file s (.substitute ⟨s.span, (render o e).expression⟩ (render o e).hoisted)

theorem fateOf_of_fate {f : Fate} (h : fate b o file s = .ok f) : FateOf b o file s f := by
  rcases define_or_yields h with ⟨hs, rfl⟩ | ⟨hs, y, hy, rfl⟩
  · exact .stays (fun hreplaced => by simp [hs] at hreplaced) rfl rfl
  · cases hy with
    | rewrite hfinds => exact .substitute hs hfinds
    | @missing id hid hget =>
        refine .stays (fun _ => ⟨id, hid, fun e he => ?_⟩) rfl rfl
        cases hget.symm.trans he
    | @mismatched id e hid hget hkind =>
        refine .stays (fun _ => ⟨id, hid, fun e' he => ?_⟩) rfl rfl
        rwa [← Option.some.inj (hget.symm.trans he)]

theorem exists_fate_of_stays (h : Stays b o file s) :
    ∃ f, fate b o file s = .ok f ∧ f.substitution? = none := by
  by_cases hdefine : s.kind = .define
  · exact ⟨.define, if_pos hdefine, rfl⟩
  obtain ⟨id, hid, hkind⟩ := h (by simpa [isReplaced] using hdefine)
  cases hget : b.get? id with
  | none =>
      refine ⟨.fault (errorAt file s.span (.noElement id s.kind)), ?_, rfl⟩
      rw [fate, if_neg hdefine, hid]
      simp [Except.map, hget]
  | some e =>
      refine ⟨.fault (errorAt file s.span (.otherKind id e.kind s.kind)), ?_, rfl⟩
      rw [fate, if_neg hdefine, hid]
      simp [Except.map, hget, hkind e hget]

/-- A plan that replaces nothing is made exactly if every declaration stays. -/
theorem exists_idle_iff : (∃ p, build a b o = .ok p ∧ p.substitutions = []) ↔
    ∀ s ∈ a.declarations, Stays b o a.file s := by
  constructor
  · rintro ⟨p, hp, hidle⟩ s hs
    obtain ⟨fates, hfrom⟩ := from_of_build hp
    obtain ⟨f, hf, hfate⟩ := exists_of_forall₂ hfrom.own hs
    have hnone : f.substitution? = none :=
      List.filterMap_eq_nil_iff.1 (hfrom.substitutions ▸ hidle) f hf
    cases fateOf_of_fate hfate with
    | stays hstays => exact hstays
    | substitute => cases hnone
  · intro h
    obtain ⟨fates, hfates⟩ : ∃ fates, List.Forall₂
        (fun s f => fate b o a.file s = .ok f ∧ f.substitution? = none) a.declarations fates :=
      exists_forall₂ fun s hs => exists_fate_of_stays (h s hs)
    obtain ⟨p, hp, hfrom⟩ := exists_from (hfates.imp fun _ _ h => h.1)
    refine ⟨p, hp, ?_⟩
    rw [hfrom.substitutions, List.filterMap_eq_nil_iff]
    intro f hf
    obtain ⟨s, -, hs⟩ := exists_of_forall₂ hfates.flip hf
    exact hs.2

/-- Where a plan writes what, and what it removes. -/
structure Drawn (o : Options) (a : Analysis) (p : Plan) : Prop where
  substitutions : ∀ t ∈ p.substitutions, ∃ s ∈ a.declarations, ∃ e, t = ⟨s.span, (render o e).expression⟩
  header : ∀ text ∈ p.header, text = runtimeImport o ∨ ∃ e, (render o e).hoisted = some text
  removedImports : ∀ span ∈ p.removedImports, ∃ i ∈ a.imports, i.span = span

theorem drawn_of_build {p : Plan} (h : build a b o = .ok p) : Drawn o a p := by
  obtain ⟨fates, hfrom⟩ := from_of_build h
  have hfate : ∀ f ∈ fates, ∃ s ∈ a.declarations, FateOf b o a.file s f := by
    intro f hf
    obtain ⟨s, hs, hfate⟩ := exists_of_forall₂ hfrom.own.flip hf
    exact ⟨s, hs, fateOf_of_fate hfate⟩
  refine ⟨fun t ht => ?_, fun text htext => ?_, hfrom.removedImports⟩
  · rw [hfrom.substitutions] at ht
    obtain ⟨f, hf, ht⟩ := List.mem_filterMap.1 ht
    obtain ⟨s, hs, hof⟩ := hfate f hf
    cases hof with
    | stays _ hnone => rw [hnone] at ht; cases ht
    | @substitute _ e => exact ⟨s, hs, e, (Option.some.inj ht).symm⟩
  · refine (hfrom.header text htext).imp_right fun htext => ?_
    obtain ⟨f, hf, htext⟩ := List.mem_filterMap.1 htext
    obtain ⟨s, hs, hof⟩ := hfate f hf
    cases hof with
    | stays _ _ hnone => rw [hnone] at htext; cases htext
    | @substitute _ e => exact ⟨e, htext⟩

end Plan

/-! ### A file -/

theorem file_eq_ok_iff {f : Frontend} {text : String} {out : Output} (hsystem : o.systemPath ≠ some file) :
    Transform.file f b o file text = .ok out ↔
      ∃ a p, f.analyze o.marker file text = .ok a ∧ Plan.build a b o = .ok p ∧ out = ofPlan p text := by
  rw [Transform.file, if_neg hsystem, bind_eq_ok_iff]
  constructor
  · rintro ⟨a, hanalyze, h⟩
    obtain ⟨p, hplan, h⟩ := bind_eq_ok_iff.1 h
    cases h
    exact ⟨a, p, mapError_eq_ok_iff.1 hanalyze, mapError_eq_ok_iff.1 hplan, rfl⟩
  · rintro ⟨a, p, hanalyze, hplan, rfl⟩
    exact ⟨a, mapError_eq_ok_iff.2 hanalyze, bind_eq_ok_iff.2 ⟨p, mapError_eq_ok_iff.2 hplan, rfl⟩⟩

end StaticGql.Transform
