import StaticGql.Proofs.Frontend
import StaticGql.Proofs.Text.Lines
import StaticGql.Proofs.Transform.Accounts

/-!
Where the errors of a transform stand. Every span of an analysis has the line and the column of its start in the
text that was read; so the errors of a plan, which are sorted by line and column, are sorted by the offsets of the
calls that they are about, and those of one offset stay as they were found.
-/

namespace StaticGql

open Text (utf8)

/-! ### The spans of an analysis -/

namespace Analysis

variable {text : String} {bytes : List UInt8} {g : Gathered} {e : Event} {scope : Marker.Scope} {lines : Text.Lines}

/-- What has been gathered stands where its spans say. -/
structure Gathered.Placed (g : Gathered) (bytes : List UInt8) : Prop where
  declarations : ∀ s ∈ g.declarations, s.span.IsExact bytes
  diagnostics : ∀ d ∈ g.diagnostics, d.span.IsExact bytes

theorem Gathered.Placed.reject {d : Diagnostic} (h : g.Placed bytes) (hd : d.span.IsExact bytes) :
    (g.reject d).Placed bytes :=
  ⟨h.declarations, List.forall_mem_cons.2 ⟨hd, h.diagnostics⟩⟩

theorem Gathered.Placed.declare {span : Span} (h : g.Placed bytes) (hspan : span.IsExact bytes) (callee : List String)
    (shape : Builder.Shape) (options : List (String × Json)) (names : List String) :
    (g.declare callee shape options names span).Placed bytes := by
  refine ⟨List.forall_mem_cons.2 ⟨hspan, h.declarations⟩, ?_⟩
  simp only [Gathered.declare]
  split
  · exact List.forall_mem_cons.2 ⟨hspan, h.diagnostics⟩
  · exact h.diagnostics

theorem Gathered.Placed.call {span : Span} (h : g.Placed bytes) (hspan : span.IsExact bytes) (callee : List String)
    (shape : CallShape) (names : List String) : (g.call callee shape names span).Placed bytes := by
  rw [Gathered.call.eq_def]
  split
  · exact h.reject hspan
  · exact h.reject hspan
  · split
    · exact h.reject hspan
    · exact h.declare hspan ..

theorem Gathered.Placed.step (h : g.Placed bytes) (hlines : ∀ start stop, (lines.span start stop).IsExact bytes) :
    (g.step scope lines e).Placed bytes := by
  cases e with
  | binding | exported | enter | enterAnonymous | exit => exact ⟨h.declarations, h.diagnostics⟩
  | assignedExport name =>
      rw [Gathered.step]
      split
      · exact h
      · exact ⟨h.declarations, h.diagnostics⟩
  | directCall start stop => exact h.reject (hlines start stop)
  | call callee shape names start stop => exact h.call (hlines start stop) callee shape names

theorem Gathered.Placed.foldl (h : g.Placed bytes) (hlines : ∀ start stop, (lines.span start stop).IsExact bytes)
    (events : List Event) : (events.foldl (Gathered.step scope lines) g).Placed bytes := by
  induction events generalizing g with
  | nil => exact h
  | cons e rest ih => exact ih (h.step hlines)

/-- Every span of the analysis has the line and the column of its start among the bytes of a text. -/
structure Placed (a : Analysis) (bytes : List UInt8) : Prop where
  imports : ∀ i ∈ a.imports, i.span.IsExact bytes
  declarations : ∀ s ∈ a.declarations, s.span.IsExact bytes
  diagnostics : ∀ d ∈ a.diagnostics, d.span.IsExact bytes

theorem placed_ofEvents (marker : Marker) (file text : String) (imports : List ImportEvent)
    (events : Marker.Scope → List Event) : (ofEvents marker file text imports events).Placed (utf8 text) := by
  have hlines := Text.Lines.isExact_span text
  have hstart : Gathered.Placed ⟨.start, [], [], [], []⟩ (utf8 text) := ⟨by simp, by simp⟩
  have hall : ∀ scope, ((events scope).foldl (Gathered.step scope (.ofText text)) ⟨.start, [], [], [], []⟩).Placed
      (utf8 text) := fun scope => hstart.foldl hlines (events scope)
  refine ⟨fun i hi => ?_, fun s hs => ?_, fun d hd => (hall _).diagnostics d (List.mem_reverse.1 hd)⟩
  · obtain ⟨event, -, rfl⟩ := List.mem_map.1 hi
    exact hlines event.start event.stop
  · obtain ⟨site, hsite, rfl⟩ := List.mem_map.1 hs
    exact (hall _).declarations site (List.mem_reverse.1 hsite)

end Analysis

theorem Frontend.placed_of_analyze {f : Frontend} {marker : Marker} {file text : String} {a : Analysis}
    (h : f.analyze marker file text = .ok a) : a.Placed (utf8 text) := by
  by_cases hf : f = scanner
  · subst hf
    have h : (Scan.analyze marker file text).mapError SourceError.unbalanced = .ok a := h
    rw [mapError_eq_ok_iff, Scan.analyze] at h
    obtain ⟨forest, -, h⟩ := bind_eq_ok_iff.1 h
    cases h
    exact Analysis.placed_ofEvents ..
  · obtain ⟨form, hform⟩ := exists_form hf
    rw [hform, Script.analyze?] at h
    cases hprogram : Script.parse? (holdsElements file) text with
    | none => simp [hprogram] at h
    | some program =>
        rw [hprogram] at h
        cases h
        exact Analysis.placed_ofEvents ..

/-! ### The order of errors -/

namespace Transform

variable {a : Analysis} {b : Artifact} {o : Options} {bytes : List UInt8} {p : Plan}

namespace Plan

/-- The errors in the order in which they are found, each with the offset of its call. -/
def found (a : Analysis) (fates : List Fate) : List (Nat × SiteError) :=
  ((a.diagnostics.filter (·.isRejection)).map fun d => (d.span.start, errorAt a.file d.span .noMetadata)) ++
    (a.declarations.zip fates).filterMap fun q => q.2.error?.map fun e => (q.1.span.start, e)

/-- The error is at the start of the span. -/
structure StandsAt (s : Span) (q : Nat × SiteError) : Prop where
  offset : q.1 = s.start
  line : q.2.line = s.line
  column : q.2.column = s.column

theorem exists_span_of_found {fates : List Fate} (ha : a.Placed bytes)
    (h : List.Forall₂ (fun s f => fate b o a.file s = .ok f) a.declarations fates) :
    ∀ q ∈ found a fates, ∃ s : Span, s.IsExact bytes ∧ StandsAt s q := by
  intro q hq
  rcases List.mem_append.1 hq with hq | hq
  · obtain ⟨d, hd, rfl⟩ := List.mem_map.1 hq
    exact ⟨d.span, ha.diagnostics d (List.mem_of_mem_filter hd), rfl, rfl, rfl⟩
  · obtain ⟨⟨s, f⟩, hmem, hq⟩ := List.mem_filterMap.1 hq
    obtain ⟨e, he, rfl⟩ := Option.map_eq_some_iff.1 hq
    refine ⟨s.span, ha.declarations s (List.of_mem_zip hmem).1, ?_⟩
    have hfate : fate b o a.file s = .ok f := (List.forall₂_iff_zip.1 h).2 hmem
    rcases define_or_yields hfate with ⟨-, rfl⟩ | ⟨-, y, hy, rfl⟩
    · cases he
    · cases hy with
      | rewrite => cases he
      | missing | mismatched =>
          cases he
          exact ⟨rfl, rfl, rfl⟩

theorem map_snd_found {fates : List Fate} (h : a.declarations.length = fates.length) :
    (found a fates).map (·.2) =
      ((a.diagnostics.filter (·.isRejection)).map fun d => errorAt a.file d.span .noMetadata) ++
        fates.filterMap (·.error?) := by
  have hzip : fates.filterMap (·.error?) = (a.declarations.zip fates).filterMap fun q => q.2.error? := by
    conv_lhs => rw [← List.map_snd_zip (Nat.le_of_eq h.symm)]
    rw [List.filterMap_map]
    rfl
  rw [found, List.map_append, List.map_map, List.map_filterMap, hzip]
  simp only [Option.map_map]
  congr 1
  refine List.filterMap_congr fun q _ => ?_
  cases q.2.error? <;> rfl

/-- The errors of a plan are those that are found, by the offsets of their calls. -/
theorem errors_of_placed {fates : List Fate} (ha : a.Placed bytes) (h : From b o a fates p) :
    p.errors = ((found a fates).mergeSort fun x y => x.1 ≤ y.1).map (·.2) := by
  have hspans := exists_span_of_found ha h.own
  rw [h.errors, ← map_snd_found h.own.length_eq]
  refine (List.map_mergeSort fun x hx y hy => ?_).symm
  obtain ⟨s, hs, hx⟩ := hspans x hx
  obtain ⟨t, ht, hy⟩ := hspans y hy
  rw [Bool.eq_iff_iff, hx.offset, hy.offset, decide_eq_true_eq, hs.start_le_iff ht]
  simp [SiteError.le, hx.line, hx.column, hy.line, hy.column]

end Plan

open Plan (fate found)
open Text.Lines (ofText)

/-- The line of an offset is told by the line feeds before it and its column by the last of them, also behind the end
of the text; a checked search finds both, and they are not larger than what they are told by. Offsets are in the order
of lines and columns, so whatever frontend reads the text, the errors of a plan are in the order of their offsets. -/
theorem positions_exact (text : String) :
    (∀ start stop, ∃ span, (ofText text).span start stop = span ∧ (ofText text).lookUp? start stop = some span ∧
      span.start = start ∧ span.stop = stop ∧ span.IsExact (utf8 text) ∧
        span.line ≤ (utf8 text).length + 1 ∧ span.column ≤ start + 1) ∧
    (∀ start start' stop stop', start ≤ start' ↔
      ((ofText text).span start stop).line < ((ofText text).span start' stop').line ∨
        ((ofText text).span start stop).line = ((ofText text).span start' stop').line ∧
          ((ofText text).span start stop).column ≤ ((ofText text).span start' stop').column) ∧
    ∀ (f : Frontend) (marker : Marker) (path : String) (a : Analysis) (b : Artifact) (o : Options) (p : Plan),
      f.analyze marker path text = .ok a → Plan.build a b o = .ok p → ∃ fates,
        a.declarations.mapM (fate b o a.file) = .ok fates ∧
          p.errors = ((found a fates).mergeSort fun x y => x.1 ≤ y.1).map (·.2) := by
  refine ⟨fun start stop => ?_, fun start start' stop stop' => ?_, fun f marker path a b o p ha hp => ?_⟩
  · have hexact := Text.Lines.isExact_span text start stop
    exact ⟨_, rfl, Text.Lines.lookUp?_ofText text start stop, rfl, rfl, hexact, hexact.bounded⟩
  · exact (Text.Lines.isExact_span text start stop).start_le_iff (Text.Lines.isExact_span text start' stop')
  · obtain ⟨fates, hfrom⟩ := Plan.from_of_build hp
    exact ⟨fates, mapM_eq_ok_iff.2 hfrom.own, Plan.errors_of_placed (Frontend.placed_of_analyze ha) hfrom⟩

/-- A slice on the first line, and on the second one a call of the marker itself. -/
def twoLines : String := "const a = gql.x(() => query.slice(\x7b\x7d));\ngql();\n"

def barren : Artifact := ⟨.ofList [], ⟨0, [], .zero⟩⟩

theorem twoLines_spec : (Frontend.scanner.analyze .standard "/a.ts" twoLines).toOption.any (fun a =>
    (Plan.build a barren .standard).toOption.isSome &&
      (a.declarations.mapM (fate barren .standard a.file)).toOption.any fun fates =>
        (found a fates).map (fun q => (q.1, q.2.line, q.2.column)) = [(40, 2, 1), (10, 1, 11)]) = true := by
  decide +kernel

/-- The call of the marker is found first, and its error comes behind that of the slice. -/
theorem positions_exact_twoLines : ∃ a p first second, Frontend.scanner.analyze .standard "/a.ts" twoLines = .ok a ∧
    Plan.build a barren .standard = .ok p ∧
      (∃ fates, a.declarations.mapM (fate barren .standard a.file) = .ok fates ∧
        found a fates = [(40, second), (10, first)]) ∧
      p.errors = [first, second] ∧ (first.line, first.column) = (1, 11) ∧
        (second.line, second.column) = (2, 1) := by
  obtain ⟨a, hanalyze, h⟩ := exists_of_any_toOption twoLines_spec
  rw [Bool.and_eq_true] at h
  obtain ⟨p, hp⟩ := Option.isSome_iff_exists.1 h.1
  have hplan : Plan.build a barren .standard = .ok p := eq_ok_of_toOption hp
  obtain ⟨fates, hfates, hplaces⟩ := exists_of_any_toOption h.2
  obtain ⟨fates', hfates', herrors⟩ :=
    (positions_exact twoLines).2.2 .scanner .standard "/a.ts" a barren .standard p hanalyze hplan
  cases hfates.symm.trans hfates'
  have hplaces := of_decide_eq_true hplaces
  obtain ⟨⟨m, second⟩, ⟨n, first⟩, hfound⟩ := List.length_eq_two.1 <|
    show (found a fates).length = 2 by simpa using congrArg List.length hplaces
  rw [hfound] at hplaces herrors
  simp only [List.map_cons, List.map_nil, List.cons.injEq, Prod.mk.injEq, and_true] at hplaces
  obtain ⟨⟨rfl, hsecond⟩, rfl, hfirst⟩ := hplaces
  have hsort : [(40, second), (10, first)].mergeSort (fun x y => x.1 ≤ y.1) = [(10, first), (40, second)] := by
    simp [List.mergeSort]
  rw [hsort] at herrors
  exact ⟨a, p, first, second, hanalyze, hplan, ⟨fates, hfates, hfound⟩, herrors, Prod.ext_iff.2 hfirst,
    Prod.ext_iff.2 hsecond⟩

end Transform
end StaticGql
