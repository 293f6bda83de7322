import StaticGql.Proofs.Transform.Plan

/-!
The books of a plan. Every call that is no `define` is either replaced or an error, every rejection is an error,
and there are no others; what is imported, registered and removed goes by these.
-/

namespace StaticGql.Transform

variable {a : Analysis} {b : Artifact} {o : Options} {file : String} {s : Site}

/-! ### Errors by their places -/

theorem SiteError.le_trans (a b c : SiteError) (h : a.le b = true) (h' : b.le c = true) : a.le c = true := by
  simp only [SiteError.le, Bool.or_eq_true, Bool.and_eq_true, decide_eq_true_eq] at *
  omega

theorem SiteError.le_total (a b : SiteError) : (a.le b || b.le a) = true := by
  simp only [SiteError.le, Bool.or_eq_true, Bool.and_eq_true, decide_eq_true_eq]
  omega

/-! ### One call -/

/-- What becomes of a call with this id. -/
def accountOf (b : Artifact) (file : String) (s : Site) (id : CanonicalId) : Account :=
  match b.get? id with
  | none => .inr (Plan.errorAt file s.span (.noElement id s.kind))
  | some e => if e.kind = s.kind then .inl (s, e) else .inr (Plan.errorAt file s.span (.otherKind id e.kind s.kind))

theorem Yields.exists_id {y : Account} (h : Yields b o file s y) :
    ∃ id, CanonicalId.create o.idMode file s.structuralPath = .ok id ∧ y = accountOf b file s id := by
  cases h with
  | rewrite h => exact ⟨_, h.create, by simp [accountOf, h.get, h.kind]⟩
  | missing hid hget => exact ⟨_, hid, by simp [accountOf, hget]⟩
  | mismatched hid hget hkind => exact ⟨_, hid, by simp [accountOf, hget, hkind]⟩

theorem Yields.unique {y y' : Account} (h : Yields b o file s y) (h' : Yields b o file s y') : y = y' := by
  obtain ⟨id, hid, rfl⟩ := h.exists_id
  obtain ⟨id', hid', rfl⟩ := h'.exists_id
  rw [Except.ok.inj (hid.symm.trans hid')]

namespace Plan

/-- The fates of all declarations are those of the accounts, but for the `define`s in between. -/
theorem exists_accounts {sites : List Site} {fates : List Fate}
    (h : List.Forall₂ (fun s f => fate b o file s = .ok f) sites fates) :
    ∃ accounts, List.Forall₂ (Yields b o file) (sites.filter isReplaced) accounts ∧
      fates.filter (!·.isDefine) = accounts.map (.ofAccount o) ∧
        (fates.any (·.isDefine) = false ↔ ∀ s ∈ sites, s.kind ≠ .define) := by
  induction h with
  | nil => exact ⟨[], .nil, rfl, by simp⟩
  | @cons s f _ _ hf _ ih =>
      obtain ⟨accounts, hyields, hfates, hany⟩ := ih
      rcases define_or_yields hf with ⟨hs, rfl⟩ | ⟨hs, y, hy, rfl⟩
      · refine ⟨accounts, ?_, hfates, ?_⟩
        · rwa [List.filter_cons_of_neg (by simp [hs])]
        · have hdefine : s.kind = .define := by simpa [isReplaced] using hs
          simp [Fate.isDefine, hdefine]
      · have hnot : (Fate.ofAccount o y).isDefine = false := by cases y <;> rfl
        refine ⟨y :: accounts, ?_, ?_, ?_⟩
        · rw [List.filter_cons_of_pos hs]
          exact .cons hy hyields
        · rw [List.filter_cons_of_pos (by simp [hnot]), hfates, List.map_cons]
        · have hdefine : s.kind ≠ .define := by simpa [isReplaced] using hs
          simp only [List.any_cons, hnot, Bool.false_or, hany, List.forall_mem_cons, hdefine, ne_eq,
            not_false_eq_true, true_and]

theorem filterMap_fates {γ : Type} {fates : List Fate} {accounts : List Account}
    (h : fates.filter (!·.isDefine) = accounts.map (.ofAccount o)) (f : Fate → Option γ) (hf : f .define = none) :
    fates.filterMap f = accounts.filterMap fun y => f (.ofAccount o y) := by
  have hnone : ∀ fate : Fate, fate.isDefine = true → f fate = none := by
    intro fate hdefine
    cases fate with
    | define => exact hf
    | fault e | substitute t hoisted => cases hdefine
  have hfilter : fates.filterMap f = (fates.filter (!·.isDefine)).filterMap f := by
    rw [List.filterMap_filter]
    refine List.filterMap_congr fun fate _ => ?_
    cases hdefine : fate.isDefine with
    | false => rfl
    | true => exact hnone fate hdefine
  rw [hfilter, h, List.filterMap_map]
  rfl

/-! ### What else a plan writes and removes -/

/-- A module may have the runtime imported already, unless modules are required. -/
def RuntimeImported (o : Options) (a : Analysis) : Prop :=
  o.moduleFormat = .esm ∧ ∃ i ∈ a.imports, i.source = o.runtimeModule ∧
    ∃ s ∈ i.specifiers, s.localName = runtimeBinding

instance (o : Options) (a : Analysis) : Decidable (RuntimeImported o a) :=
  inferInstanceAs (Decidable (_ ∧ ∃ i ∈ a.imports, _ ∧ ∃ s ∈ i.specifiers, _))

theorem hasRuntime_iff : hasRuntime o a.imports = true ↔ RuntimeImported o a := by
  simp only [hasRuntime, RuntimeImported, Bool.and_eq_true, decide_eq_true_eq, List.any_eq_true]

/-- The statement that makes an operation known to the runtime. -/
def registration (o : Options) (e : Element) : String :=
  accessor o.moduleFormat ++ ".operation(" ++ prebuild e.descriptor ++ ");"

theorem hoisted_render (o : Options) (e : Element) :
    (render o e).hoisted = if o.mode = .runtime ∧ e.kind = .operation then some (registration o e) else none := by
  rw [render]
  cases o.mode with
  | zeroRuntime => simp
  | runtime =>
      cases e with
      | operation op => rfl
      | model f | fragment f | slice s => rfl

theorem hoisted_accounts (o : Options) (accounts : List Account) :
    (accounts.filterMap fun y => (Fate.ofAccount o y).hoisted?) =
      ((accounts.filterMap Sum.getLeft?).filter fun q => o.mode = .runtime ∧ q.2.kind = .operation).map
        fun q => registration o q.2 := by
  induction accounts with
  | nil => rfl
  | cons y rest ih =>
      cases y with
      | inr e => exact ih
      | inl q =>
          have hhoisted : (Fate.ofAccount o (.inl q)).hoisted? = (render o q.2).hoisted := rfl
          have hleft : (.inl q :: rest : List Account).filterMap Sum.getLeft? = q :: rest.filterMap Sum.getLeft? := rfl
          rw [List.filterMap_cons, hleft, hhoisted, hoisted_render, ih]
          by_cases hkind : o.mode = .runtime ∧ q.2.kind = .operation
          · rw [if_pos hkind, List.filter_cons_of_pos (by simpa using hkind), List.map_cons]
          · rw [if_neg hkind, List.filter_cons_of_neg (by simpa using hkind)]

/-- Something is replaced, and nothing is left that may need the marker. -/
def Clean (a : Analysis) (p : Plan) : Prop :=
  p.substitutions ≠ [] ∧ p.errors = [] ∧ ∀ s ∈ a.declarations, s.kind ≠ .define

instance (a : Analysis) (p : Plan) : Decidable (Clean a p) := inferInstanceAs (Decidable (_ ∧ _ ∧ _))

/-- The header and the removed imports of a plan, by its fates. -/
theorem exists_fates_of_build {p : Plan} (h : build a b o = .ok p) : ∃ fates, From b o a fates p ∧
    p.header = (if p.substitutions = [] then []
      else (if o.mode = .runtime ∧ ¬ RuntimeImported o a then [runtimeImport o] else []) ++
        fates.filterMap (·.hoisted?)) ∧
    p.removedImports = if p.substitutions ≠ [] ∧ p.errors = [] ∧ fates.any (·.isDefine) = false then
      (a.imports.filter fun i => o.marker.isSource i.source).map (·.span) else [] := by
  obtain ⟨fates, hfrom⟩ := from_of_build h
  refine ⟨fates, hfrom, ?_⟩
  rw [build, mapM_eq_ok_iff.2 hfrom.own] at h
  by_cases hempty : (fates.filterMap (·.substitution?)).isEmpty = true
  · obtain ⟨hheader, hremoved⟩ := hfrom.idle (hfrom.substitutions.trans (List.isEmpty_iff.1 hempty))
    have hnil := hfrom.substitutions.trans (List.isEmpty_iff.1 hempty)
    simp [hheader, hremoved, hnil]
  · cases (if_neg hempty).symm.trans h
    have hne : fates.filterMap (·.substitution?) ≠ [] := fun hnil => hempty (List.isEmpty_iff.2 hnil)
    have hruntime : (o.mode = .runtime && !hasRuntime o a.imports) = true ↔
        o.mode = .runtime ∧ ¬ RuntimeImported o a := by
      rw [← hasRuntime_iff]
      simp
    refine ⟨?_, if_congr ?_ rfl rfl⟩
    · rw [if_neg hne, if_congr hruntime rfl rfl]
    · simp only [Bool.and_eq_true, List.isEmpty_iff, Bool.not_eq_true', ne_eq, hne, not_false_eq_true, true_and]

/-! ### The whole plan -/

/-- A plan with an account for each call that is no `define`. -/
structure Accounted (b : Artifact) (o : Options) (a : Analysis) (p : Plan) (accounts : List Account) : Prop where
  each : List.Forall₂ (Yields b o a.file) (a.declarations.filter isReplaced) accounts
  substitutions : p.substitutions = (accounts.filterMap Sum.getLeft?).map fun q => ⟨q.1.span, (render o q.2).expression⟩
  errors : p.errors.Perm (((a.diagnostics.filter (·.isRejection)).map fun d => errorAt a.file d.span .noMetadata) ++
    accounts.filterMap Sum.getRight?)
  ordered : p.errors.Pairwise fun e e' => e.line < e'.line ∨ e.line = e'.line ∧ e.column ≤ e'.column
  removedImports : p.removedImports =
    if Clean a p then (a.imports.filter fun i => o.marker.isSource i.source).map (·.span) else []
  header : p.header = if p.substitutions = [] then []
    else (if o.mode = .runtime ∧ ¬ RuntimeImported o a then [runtimeImport o] else []) ++
      ((accounts.filterMap Sum.getLeft?).filter fun q => o.mode = .runtime ∧ q.2.kind = .operation).map
        fun q => registration o q.2

/-- Every call that is no `define` is accounted for exactly once, by what replaces it or by an error; the errors are
these and one for each rejection, by their places. -/
theorem accounted_of_build {p : Plan} (h : build a b o = .ok p) : ∃! accounts, Accounted b o a p accounts := by
  obtain ⟨fates, hfrom, hheader, hremoved⟩ := exists_fates_of_build h
  obtain ⟨accounts, heach, hfates, hdefine⟩ := exists_accounts hfrom.own
  have hsubstitutions := filterMap_fates hfates (·.substitution?) rfl
  have herrors := filterMap_fates hfates (·.error?) rfl
  have hhoisted := filterMap_fates hfates (·.hoisted?) rfl
  have hunique : Relator.RightUnique (Yields b o a.file) := fun _ _ _ => Yields.unique
  refine ⟨accounts, ⟨heach, ?_, ?_, ?_, ?_, ?_⟩, fun l hl => List.right_unique_forall₂' hunique hl.each heach⟩
  · rw [hfrom.substitutions, hsubstitutions, List.map_filterMap]
    refine List.filterMap_congr fun y _ => ?_
    cases y <;> rfl
  · have hright : (fun y => (Fate.ofAccount o y).error?) = Sum.getRight? := by
      funext y
      cases y <;> rfl
    rw [hfrom.errors, herrors, hright]
    exact List.mergeSort_perm _ _
  · rw [hfrom.errors]
    refine (List.pairwise_mergeSort SiteError.le_trans SiteError.le_total _).imp fun hle => ?_
    simpa [SiteError.le] using hle
  · rw [hremoved]
    exact if_congr (and_congr_right fun _ => and_congr_right fun _ => hdefine) rfl rfl
  · rw [hheader, hhoisted, hoisted_accounts]

def callAt (path : String) (kind : Kind) (line : Nat) : Site :=
  ⟨path, kind, ⟨[], none, none, []⟩, [], true, none, ⟨20 * line, 20 * line + 10, line, 1⟩⟩

/-- A query and a slice with their elements, a fragment with that of a model, a slice with none and, between them, a
rejected call. -/
def mixed : Analysis :=
  ⟨"/a.ts", [⟨"@/graphql-system", [⟨"gql", "gql"⟩], ⟨0, 10, 1, 1⟩⟩], [],
    [callAt "q" .operation 2, callAt "gone" .slice 3, callAt "f" .fragment 5, callAt "s" .slice 6],
    [.directCall "gql" ⟨80, 90, 4, 1⟩]⟩

def query : OperationElement := ⟨"query", "Q", ∅, "query Q { id }", []⟩

def scant : Artifact :=
  ⟨.ofList [("/a.ts::f", .model ⟨"User", "User", [], ∅, "", "", []⟩), ("/a.ts::q", .operation query),
    ("/a.ts::s", .slice ⟨"query", ["id"], [], ∅, "\x7b id \x7d", []⟩)], ⟨0, [], .zero⟩⟩

theorem accounted_mixed : ∃ p, build mixed scant .standard = .ok p ∧
    (∃! accounts, Accounted scant .standard mixed p accounts) ∧ p.substitutions.map (·.span.line) = [2, 6] ∧
      p.header = [runtimeImport .standard, registration .standard (.operation query)] ∧
        p.errors ≠ [] ∧ p.removedImports = [] := by
  have hplan : (build mixed scant .standard).toOption.map (fun p => (p.substitutions.map (·.span.line), p.header)) =
      some ([2, 6], [runtimeImport .standard, registration .standard (.operation query)]) := by
    decide +kernel
  cases hbuild : build mixed scant .standard with
  | error e => simp [hbuild, Except.toOption] at hplan
  | ok p =>
      simp only [hbuild, Except.toOption, Option.map_some, Option.some.injEq, Prod.mk.injEq] at hplan
      obtain ⟨accounts, hacc, hunique⟩ := accounted_of_build hbuild
      have hne : p.errors ≠ [] := by
        intro hnil
        have hempty := List.nil_perm.1 (hnil ▸ hacc.errors)
        cases (List.append_eq_nil_iff.1 hempty).1
      have hkept := hacc.removedImports
      rw [if_neg fun hclean : Clean mixed p => hne hclean.2.1] at hkept
      exact ⟨p, rfl, ⟨accounts, hacc, hunique⟩, hplan.1, hplan.2, hne, hkept⟩

end Plan
end StaticGql.Transform
