import StaticGql.Proofs.Text.Edits
import StaticGql.Proofs.Transform.Accounts
import StaticGql.Scan.Survey

/-!
A plan carried out. Over spans that keep out of each other's way, all that the plan asks for is done: calls give way
to their expressions, imports go with the line break behind them, the header is written once, and the rest of the
text stays as it is.
-/

namespace StaticGql

open Text Transform

variable {a : Analysis} {b : Artifact} {o : Options} {p : Plan} {source : String} {cs rest : List Char} {s t : Span}
  {n : Nat}

/-- The places of all that is declared and imported. -/
def Analysis.spans (a : Analysis) : List Span := a.declarations.map (·.span) ++ a.imports.map (·.span)

/-- The line break with which a text begins, if any. -/
def Text.lineBreak : List Char → List Char
  | '\r' :: '\n' :: _ => ['\r', '\n']
  | '\n' :: _ => ['\n']
  | _ => []

/-- The span stands for a piece of the text that is not empty and does not begin with a line break. -/
structure Span.Carved (cs : List Char) (s : Span) : Prop where
  nonempty : s.start < s.stop
  start : IsCut cs s.start
  stop : IsCut cs s.stop
  unbroken : ∀ rest ∈ dropBytes? s.start cs, lineBreak rest = []

instance (cs : List Char) (s : Span) : Decidable (s.Carved cs) :=
  decidable_of_iff (s.start < s.stop ∧ IsCut cs s.start ∧ IsCut cs s.stop ∧
      (dropBytes? s.start cs).all fun rest => (lineBreak rest).isEmpty)
    ⟨fun ⟨hne, hstart, hstop, hrest⟩ => ⟨hne, hstart, hstop, by simpa [Option.all_eq_true] using hrest⟩,
      fun h => ⟨h.nonempty, h.start, h.stop, by simpa [Option.all_eq_true] using h.unbroken⟩⟩

namespace Transform.Plan

/-! ### Removals -/

theorem lineBreak_append (rest : List Char) : ∃ after, rest = lineBreak rest ++ after := by
  unfold lineBreak
  split
  · exact ⟨_, rfl⟩
  · exact ⟨_, rfl⟩
  · exact ⟨rest, rfl⟩

theorem pastBreak_eq (h : dropBytes? n cs = some rest) : pastBreak cs n = n + byteSize (lineBreak rest) := by
  rw [pastBreak, h]
  split
  · rename_i heq
    cases heq
    rfl
  · rename_i heq
    cases heq
    rfl
  · rename_i hcrlf hlf
    rw [lineBreak]
    · rfl
    · rintro after rfl
      exact hcrlf _ rfl
    · rintro after rfl
      exact hlf _ rfl

/-- The edit takes the span away, and one line break if there is one directly behind it. -/
def Removes (cs : List Char) (s : Span) (e : Edit) : Prop :=
  ∃ rest, dropBytes? s.stop cs = some rest ∧ e = .remove s.start (s.stop + byteSize (lineBreak rest))

theorem removes_pastBreak (h : s.Carved cs) : Removes cs s (.remove s.start (pastBreak cs s.stop)) := by
  obtain ⟨rest, hrest⟩ := Option.isSome_iff_exists.1 (isCut_iff.1 h.stop)
  exact ⟨rest, hrest, by rw [pastBreak_eq hrest]⟩

theorem Removes.cuts {e : Edit} (h : Removes cs s e) (hs : s.Carved cs) : e.Cuts cs := by
  obtain ⟨rest, hrest, rfl⟩ := h
  obtain ⟨before, rfl, hbefore⟩ := dropBytes?_eq_some_iff.1 hrest
  obtain ⟨after, hafter⟩ := lineBreak_append rest
  refine ⟨Nat.le_add_right_of_le (Nat.le_of_lt hs.nonempty), hs.start, before ++ lineBreak rest, after, ?_, ?_⟩
  · rw [List.append_assoc, ← hafter]
  · rw [byteSize_append, hbefore]
    rfl

/-- A line break does not reach into a text that does not begin with one. -/
theorem byteSize_lineBreak_le (between : List Char) (h : lineBreak rest = []) :
    byteSize (lineBreak (between ++ rest)) ≤ byteSize between := by
  generalize hall : between ++ rest = all
  fun_cases lineBreak all with
  | case1 tail =>
      rcases between with _ | ⟨c, _ | ⟨d, between⟩⟩
      · cases (show rest = _ from hall)
        cases h
      · cases (List.cons.inj hall).2
        cases h
      · cases hall
        simp [byteSize, ← Nat.add_assoc]
  | case2 tail =>
      rcases between with _ | ⟨c, between⟩
      · cases (show rest = _ from hall)
        cases h
      · cases hall
        simp [byteSize]
  | case3 => exact Nat.zero_le _

/-- The line break behind one piece of the text does not reach into another that does not begin with one. -/
theorem Removes.stop_le {e : Edit} (h : Removes cs s e) (ht : t.Carved cs) (hle : s.stop ≤ t.start) :
    e.stop ≤ t.start := by
  obtain ⟨rest, hrest, rfl⟩ := h
  obtain ⟨before, rfl, hbefore⟩ := dropBytes?_eq_some_iff.1 hrest
  obtain ⟨between, after, rfl, hstart⟩ := ht.start.exists_between (hbefore ▸ hle)
  have hbegin : lineBreak after = [] :=
    ht.unbroken after (dropBytes?_eq_some_iff.2 ⟨before ++ between, by simp, by rw [byteSize_append, hstart]⟩)
  have hbreak := byteSize_lineBreak_le between hbegin
  change s.stop + byteSize (lineBreak (between ++ after)) ≤ t.start
  omega

/-! ### What the edits of a plan are about -/

theorem spans_of_fates {file : String} {sites : List Site} {fates : List Fate}
    (h : List.Forall₂ (fun s f => fate b o file s = .ok f) sites fates) :
    ((fates.filterMap (·.substitution?)).map (·.span)).Sublist (sites.map (·.span)) := by
  induction h with
  | nil => exact .slnil
  | cons hf _ ih =>
      cases fateOf_of_fate hf with
      | stays _ hnone =>
          rw [List.filterMap_cons, hnone]
          exact ih.cons _
      | substitute => exact ih.cons_cons _

theorem substitutions_sublist (h : build a b o = .ok p) :
    (p.substitutions.map (·.span)).Sublist (a.declarations.map (·.span)) := by
  obtain ⟨fates, hfrom⟩ := from_of_build h
  rw [hfrom.substitutions]
  exact spans_of_fates hfrom.own

theorem removedImports_sublist (h : build a b o = .ok p) : p.removedImports.Sublist (a.imports.map (·.span)) := by
  obtain ⟨fates, -, -, hremoved⟩ := exists_fates_of_build h
  rw [hremoved]
  split
  · exact List.filter_sublist.map _
  · exact List.nil_sublist _

theorem insertAfter_of_build (h : build a b o = .ok p) (hheader : p.header ≠ []) :
    p.insertAfter = (((a.imports.map (·.span)).filter (· ∉ p.removedImports)).map (·.stop)).max? := by
  obtain ⟨fates, hfates, h⟩ := bind_eq_ok_iff.1 h
  by_cases hempty : (fates.filterMap (·.substitution?)).isEmpty = true
  · cases (if_pos hempty).symm.trans h
    cases hheader rfl
  · cases (if_neg hempty).symm.trans h
    rfl

/-- The import is there and is not removed. -/
def Remains (a : Analysis) (p : Plan) (i : Import) : Prop := i ∈ a.imports ∧ i.span ∉ p.removedImports

/-- The edit that writes the header, if there is one: behind the last import that remains, or at the very top. -/
inductive Heads (a : Analysis) (p : Plan) : List Edit → Prop
  | bare (h : p.header = []) : Heads a p []
  | behind {i : Import} (h : p.header ≠ []) (hi : Remains a p i)
      (hlast : ∀ j, Remains a p j → j.span.stop ≤ i.span.stop) :
      Heads a p [.insert i.span.stop ("\n" ++ "\n".intercalate p.header)]
  | top (h : p.header ≠ []) (hnone : ∀ j, ¬ Remains a p j) :
      Heads a p [.insert 0 ("\n".intercalate p.header ++ "\n")]

theorem heads_of_build (h : build a b o = .ok p) : Heads a p p.headerEdit := by
  rw [headerEdit]
  by_cases hheader : p.header = []
  · rw [if_pos (by simp [hheader])]
    exact .bare hheader
  rw [if_neg (by simpa using hheader)]
  have hafter := insertAfter_of_build h hheader
  have hmem : ∀ n, n ∈ ((a.imports.map (·.span)).filter (· ∉ p.removedImports)).map (·.stop) ↔
      ∃ i, Remains a p i ∧ i.span.stop = n := by
    intro n
    simp [Remains, and_assoc]
  cases hmax : p.insertAfter with
  | none =>
      rw [hafter, List.max?_eq_none_iff] at hmax
      refine .top hheader fun j hj => ?_
      have hstop := (hmem _).2 ⟨j, hj, rfl⟩
      rw [hmax] at hstop
      cases hstop
  | some n =>
      rw [hafter, List.max?_eq_some_iff] at hmax
      obtain ⟨i, hi, rfl⟩ := (hmem n).1 hmax.1
      exact .behind hheader hi fun j hj => hmax.2 _ ((hmem _).2 ⟨j, hj, rfl⟩)

/-! ### Edits apart from each other -/

/-- The edit begins where the span does, and does not reach what lies behind the span. -/
structure At (cs : List Char) (s : Span) (e : Edit) : Prop where
  cuts : e.Cuts cs
  start : e.start = s.start
  clear : ∀ t : Span, t.Carved cs → s.stop ≤ t.start → e.stop ≤ t.start

theorem Removes.at {e : Edit} (h : Removes cs s e) (hs : s.Carved cs) : At cs s e := by
  refine ⟨h.cuts hs, ?_, fun t ht hle => h.stop_le ht hle⟩
  obtain ⟨rest, -, rfl⟩ := h
  rfl

theorem At.apart {e f : Edit} (he : At cs s e) (hf : At cs t f) (hs : s.Carved cs) (ht : t.Carved cs)
    (h : s.Apart t) : e.Apart f := by
  rcases h with h | h
  · exact .inl (hf.start ▸ he.clear t ht h)
  · exact .inr (he.start ▸ hf.clear s hs h)

theorem pairwise_apart {spans : List Span} {edits : List Edit} (h : List.Forall₂ (At cs) spans edits)
    (hcarved : ∀ s ∈ spans, s.Carved cs) (hapart : spans.Pairwise Span.Apart) : edits.Pairwise Edit.Apart :=
  pairwise_of_forall₂ h hapart fun s hs t ht _ _ he hf hst => he.apart hf (hcarved s hs) (hcarved t ht) hst

/-- The edit that writes an expression in place of a call. -/
def rewriting (t : Substitution) : Edit := ⟨t.span.start, t.span.stop, t.expression⟩

theorem rewriting_at {t : Substitution} (h : t.span.Carved cs) : At cs t.span (rewriting t) :=
  ⟨⟨Nat.le_of_lt h.nonempty, h.start, h.stop⟩, rfl, fun _ _ hle => hle⟩

theorem Heads.cuts {header : List Edit} (h : Heads a p header) (hcarved : ∀ i ∈ a.imports, i.span.Carved cs) :
    ∀ e ∈ header, e.Cuts cs := by
  cases h with
  | bare => simp
  | behind _ hi =>
      have hstop := (hcarved _ hi.1).stop
      simpa using Edit.Cuts.mk (Nat.le_refl _) hstop hstop
  | top =>
      have hstart : IsCut cs 0 := ⟨[], cs, rfl, rfl⟩
      simpa using Edit.Cuts.mk (Nat.le_refl _) hstart hstart

theorem Heads.pairwise {header : List Edit} (h : Heads a p header) : header.Pairwise Edit.Apart := by
  cases h with
  | bare => exact .nil
  | behind | top => exact List.pairwise_singleton _ _

/-- The header is written where no edit is at work that keeps clear of the imports that remain. -/
theorem Heads.apart {header : List Edit} {e : Edit} (h : Heads a p header)
    (hcarved : ∀ i ∈ a.imports, i.span.Carved cs) (he : At cs s e)
    (hclear : ∀ i, Remains a p i → s.Apart i.span) : ∀ f ∈ header, e.Apart f := by
  cases h with
  | bare => simp
  | @behind i _ hi =>
      refine List.forall_mem_singleton.2 ?_
      rcases hclear i hi with h | h
      · have hi := hcarved i hi.1
        exact .inl (Nat.le_trans (he.clear i.span hi h) (Nat.le_of_lt hi.nonempty))
      · exact .inr (he.start ▸ h)
  | top => exact List.forall_mem_singleton.2 (.inr (Nat.zero_le _))

/-- A plan carried out over spans that keep apart: its edits are all done, each where it belongs, and the rest of the
text is kept in its order. -/
theorem apply_carries (hbuild : build a b o = .ok p) (hcarved : ∀ s ∈ a.spans, s.Carved source.toList)
    (hapart : a.spans.Pairwise Span.Apart) :
    ∃ removals header edits, List.Forall₂ (Removes source.toList) p.removedImports removals ∧ Heads a p header ∧
      edits.Perm (p.substitutions.map rewriting ++ removals ++ header) ∧
        Carries 0 source.toList edits (p.apply source).toList := by
  have hsubstitutions := substitutions_sublist hbuild
  have hremoved := removedImports_sublist hbuild
  have hheads := heads_of_build hbuild
  have hspans := hsubstitutions.append hremoved
  have hcarved' := fun s hs => hcarved s (hspans.subset hs)
  have himports : ∀ i ∈ a.imports, i.span.Carved source.toList := fun i hi =>
    hcarved i.span (List.mem_append_right _ (List.mem_map_of_mem hi))
  obtain ⟨-, hamong, hacross⟩ := List.pairwise_append.1 hapart
  -- What is rewritten or removed keeps clear of the imports that remain.
  have hclear : ∀ s ∈ p.substitutions.map (·.span) ++ p.removedImports, ∀ i, Remains a p i → s.Apart i.span := by
    intro s hs i ⟨hi, hkept⟩
    have hi := List.mem_map_of_mem (f := (·.span)) hi
    rcases List.mem_append.1 hs with hs | hs
    · exact hacross s (hsubstitutions.subset hs) i.span hi
    · exact hamong.forall (hremoved.subset hs) hi fun heq => hkept (heq ▸ hs)
  let removals := p.removedImports.map fun s => Edit.remove s.start (pastBreak source.toList s.stop)
  have hremoves : List.Forall₂ (Removes source.toList) p.removedImports removals :=
    List.forall₂_map_right_iff.2 (List.forall₂_same.2 fun s hs =>
      removes_pastBreak (hcarved' s (List.mem_append_right _ hs)))
  have hat : List.Forall₂ (At source.toList) (p.substitutions.map (·.span) ++ p.removedImports)
      (p.substitutions.map rewriting ++ removals) := by
    refine List.rel_append ?_ ?_
    · refine List.forall₂_map_left_iff.2 (List.forall₂_map_right_iff.2 (List.forall₂_same.2 fun t ht => ?_))
      exact rewriting_at (hcarved' t.span (List.mem_append_left _ (List.mem_map_of_mem ht)))
    · refine List.forall₂_map_right_iff.2 (List.forall₂_same.2 fun s hs => ?_)
      have hs := hcarved' s (List.mem_append_right _ hs)
      exact (removes_pastBreak hs).at hs
  have hexists : ∀ e ∈ p.substitutions.map rewriting ++ removals,
      ∃ s ∈ p.substitutions.map (·.span) ++ p.removedImports, At source.toList s e := fun e he =>
    exists_of_forall₂ hat.flip he
  have hcuts : ∀ e ∈ p.edits source, e.Cuts source.toList := by
    intro e he
    rcases List.mem_append.1 he with he | he
    · obtain ⟨s, -, hs⟩ := hexists e he
      exact hs.cuts
    · exact hheads.cuts himports e he
  have hedits : (p.edits source).Pairwise Edit.Apart := by
    refine List.pairwise_append.2 ⟨pairwise_apart hat hcarved' (hapart.sublist hspans), hheads.pairwise,
      fun e he => ?_⟩
    obtain ⟨s, hs, hat⟩ := hexists e he
    exact hheads.apart himports hat (hclear s hs)
  obtain ⟨out, hout, hcarries⟩ := applyEdits_carries hcuts hedits
  refine ⟨removals, _, _, hremoves, hheads, List.mergeSort_perm (p.edits source) Edit.le, ?_⟩
  rwa [apply, hout, Option.getD_some, String.toList_ofList]

/-- The import of the marker ends with its line, the one behind it remains, and the call is the last thing in the
text. -/
def crowded : String :=
  "import\x7bgql\x7dfrom'@/graphql-system'\r\nimport h from'h'\nexport const q=gql.q(()=>query.operation(\x7b\x7d))"

def known : Artifact := ⟨.ofList [("/a.ts::q", .operation query)], ⟨0, [], .zero⟩⟩

theorem crowded_spec : (Scan.analyze Options.standard.marker "/a.ts" crowded).toOption.any (fun analysis =>
    (Plan.build analysis known .standard).toOption.any fun p => p.substitutions.length = 1 &&
      p.removedImports.length = 1 && p.header.length = 2 && analysis.spans.all (Span.Carved crowded.toList ·) &&
        decide (analysis.spans.Pairwise Span.Apart)) = true := by
  decide +kernel

theorem apply_crowded : ∃ analysis p removals header edits,
    Scan.analyze Options.standard.marker "/a.ts" crowded = .ok analysis ∧ build analysis known .standard = .ok p ∧
      p.substitutions.length = 1 ∧ p.removedImports.length = 1 ∧ p.header.length = 2 ∧
        (∀ s ∈ analysis.spans, s.Carved crowded.toList) ∧ analysis.spans.Pairwise Span.Apart ∧
          List.Forall₂ (Removes crowded.toList) p.removedImports removals ∧ Heads analysis p header ∧
            edits.Perm (p.substitutions.map rewriting ++ removals ++ header) ∧
              Carries 0 crowded.toList edits (p.apply crowded).toList := by
  obtain ⟨analysis, hanalyze, h⟩ := exists_of_any_toOption crowded_spec
  obtain ⟨p, hplan, h⟩ := exists_of_any_toOption h
  simp only [Bool.and_eq_true, decide_eq_true_eq, List.all_eq_true] at h
  obtain ⟨⟨⟨⟨hone, hremoved⟩, hheader⟩, hcarved⟩, hapart⟩ := h
  obtain ⟨removals, header, edits, hconclusion⟩ := apply_carries hplan hcarved hapart
  exact ⟨analysis, p, removals, header, edits, hanalyze, hplan, hone, hremoved, hheader, hcarved, hapart, hconclusion⟩

end Transform.Plan
end StaticGql
