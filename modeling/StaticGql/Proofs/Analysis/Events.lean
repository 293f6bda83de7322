import Mathlib.Data.List.Forall2
import StaticGql.Analysis.OfEvents
import StaticGql.Proofs.Dict

/-!
What an analysis makes of the names in a call: which they are, and neither their order nor how often they
come. Readings that report alike in this sense have one analysis.
-/

namespace StaticGql

/-- Events that are the same but for the order and the number of names. -/
inductive Event.Alike : Event → Event → Prop
  | refl (e : Event) : Event.Alike e e
  | call (callee : List String) (shape : CallShape) {names names' : List String} (start stop : Nat)
      (h : ∀ n, n ∈ names ↔ n ∈ names') :
      Event.Alike (.call callee shape names start stop) (.call callee shape names' start stop)

namespace Analysis

variable {scope : Marker.Scope} {lines : Text.Lines} {g g' : Gathered} {e e' : Event} {s s' : Site}

/-- Places that are the same but for the order and the number of references. -/
structure SiteAlike (s s' : Site) : Prop where
  rest : s' = { s with references := s'.references }
  references : ∀ n, n ∈ s.references ↔ n ∈ s'.references

theorem SiteAlike.refl (s : Site) : SiteAlike s s := ⟨rfl, fun _ => Iff.rfl⟩

theorem finish_congr (bindings : List String) (exports : List Export) (h : SiteAlike s s') :
    finish scope bindings exports s = finish scope bindings exports s' := by
  have hsorted : Dict.sortedTexts (s.references.filter fun n => n ∈ bindings && !scope.isRoot n) =
      Dict.sortedTexts (s'.references.filter fun n => n ∈ bindings && !scope.isRoot n) := by
    apply Dict.sortedTexts_congr
    intro n
    rw [List.mem_filter, List.mem_filter, h.references]
  have hrest := h.rest
  rw [finish, finish, hsorted, hrest]

theorem map_finish_congr (bindings : List String) (exports : List Export) {l l' : List Site}
    (h : List.Forall₂ SiteAlike l l') :
    l.map (finish scope bindings exports) = l'.map (finish scope bindings exports) := by
  induction h with
  | nil => rfl
  | cons hs _ ih => rw [List.map_cons, List.map_cons, finish_congr bindings exports hs, ih]

/-- What has been gathered, apart from the order and the number of references. -/
structure GatheredAlike (g g' : Gathered) : Prop where
  trail : g.trail = g'.trail
  bindings : g.bindings = g'.bindings
  exports : g.exports = g'.exports
  declarations : List.Forall₂ SiteAlike g.declarations g'.declarations
  diagnostics : g.diagnostics = g'.diagnostics

theorem GatheredAlike.refl (g : Gathered) : GatheredAlike g g :=
  ⟨rfl, rfl, rfl, List.forall₂_same.2 fun s _ => .refl s, rfl⟩

theorem GatheredAlike.reject (h : GatheredAlike g g') (d : Diagnostic) :
    GatheredAlike (g.reject d) (g'.reject d) :=
  ⟨h.trail, h.bindings, h.exports, h.declarations, congrArg (d :: ·) h.diagnostics⟩

theorem GatheredAlike.declare (h : GatheredAlike g g') (callee : List String) (shape : Builder.Shape)
    (options : List (String × Json)) {names names' : List String} (hnames : ∀ n, n ∈ names ↔ n ∈ names')
    (span : Span) : GatheredAlike (g.declare callee shape options names span)
      (g'.declare callee shape options names' span) := by
  obtain ⟨trail, bindings, exports, declarations, diagnostics⟩ := g
  obtain ⟨trail', bindings', exports', declarations', diagnostics'⟩ := g'
  obtain ⟨rfl, rfl, rfl, hdeclarations, rfl⟩ := h
  refine ⟨rfl, rfl, rfl, .cons ⟨rfl, hnames⟩ hdeclarations, ?_⟩
  simp only [Gathered.declare]

theorem GatheredAlike.call (h : GatheredAlike g g') (callee : List String) (shape : CallShape)
    {names names' : List String} (hnames : ∀ n, n ∈ names ↔ n ∈ names') (span : Span) :
    GatheredAlike (g.call callee shape names span) (g'.call callee shape names' span) := by
  cases shape with
  | notAFunction => exact h.reject _
  | builder builder options =>
      cases builder with
      | none => exact h.reject _
      | some builder =>
          simp only [Gathered.call]
          cases Builder.classify? builder with
          | none => exact h.reject _
          | some shape => exact h.declare builder shape options hnames span

theorem GatheredAlike.step (h : GatheredAlike g g') (he : e.Alike e') :
    GatheredAlike (g.step scope lines e) (g'.step scope lines e') := by
  cases he with
  | call callee shape start stop hnames => exact h.call callee shape hnames _
  | refl e =>
      cases e with
      | binding name => exact ⟨h.trail, congrArg (name :: ·) h.bindings, h.exports, h.declarations, h.diagnostics⟩
      | exported e => exact ⟨h.trail, h.bindings, congrArg (e :: ·) h.exports, h.declarations, h.diagnostics⟩
      | assignedExport name =>
          simp only [Gathered.step, ← h.exports]
          by_cases hmem : Export.named name name ∈ g.exports
          · rw [if_pos hmem, if_pos hmem]
            exact h
          · rw [if_neg hmem, if_neg hmem]
            exact ⟨h.trail, h.bindings, rfl, h.declarations, h.diagnostics⟩
      | enter segment =>
          exact ⟨congrArg (·.enter segment) h.trail, h.bindings, h.exports, h.declarations, h.diagnostics⟩
      | enterAnonymous =>
          exact ⟨congrArg (·.enterAnonymous) h.trail, h.bindings, h.exports, h.declarations, h.diagnostics⟩
      | exit => exact ⟨congrArg (·.exit) h.trail, h.bindings, h.exports, h.declarations, h.diagnostics⟩
      | directCall start stop => exact h.reject _
      | call callee shape names start stop => exact h.call callee shape (fun _ => Iff.rfl) _

theorem GatheredAlike.foldl (scope : Marker.Scope) (lines : Text.Lines) {events events' : List Event}
    (h : GatheredAlike g g') (hevents : List.Forall₂ Event.Alike events events') :
    GatheredAlike (events.foldl (Gathered.step scope lines) g)
      (events'.foldl (Gathered.step scope lines) g') := by
  induction hevents generalizing g g' with
  | nil => exact h
  | cons he _ ih => exact ih (h.step he)

/-- Readings that report alike have one analysis. -/
theorem ofEvents_congr {marker : Marker} {file text : String} {imports : List ImportEvent}
    {events events' : Marker.Scope → List Event}
    (h : List.Forall₂ Event.Alike (events (marker.scope (imports.map fun i => (i.source, i.specifiers))))
      (events' (marker.scope (imports.map fun i => (i.source, i.specifiers))))) :
    ofEvents marker file text imports events = ofEvents marker file text imports events' := by
  rw [ofEvents, ofEvents]
  generalize marker.scope (imports.map fun i => (i.source, i.specifiers)) = scope at h
  have hall := (GatheredAlike.refl ⟨.start, [], [], [], []⟩).foldl scope (Text.Lines.ofText text) h
  generalize (events scope).foldl (Gathered.step scope (Text.Lines.ofText text)) _ = g at hall
  generalize (events' scope).foldl (Gathered.step scope (Text.Lines.ofText text)) _ = g' at hall
  obtain ⟨trail, bindings, exports, declarations, diagnostics⟩ := g
  obtain ⟨trail', bindings', exports', declarations', diagnostics'⟩ := g'
  obtain ⟨rfl, rfl, rfl, hdeclarations, rfl⟩ := hall
  have hfinish : ∀ bindings exports, declarations.reverse.map (finish scope bindings exports) =
      declarations'.reverse.map (finish scope bindings exports) := by
    intro bindings exports
    rw [List.map_reverse, List.map_reverse, map_finish_congr bindings exports hdeclarations]
  simp only [hfinish]

/-! ### Bindings among the other events -/

/-- The name that an event binds. -/
def bound? : Event → Option String
  | .binding name => some name
  | _ => none

/-- The same bindings in the same order, and so the other events, but bindings may stand elsewhere among these. -/
structure Rearranged (events events' : List Event) : Prop where
  bindings : events.filterMap bound? = events'.filterMap bound?
  others : events.filter (bound? · = none) = events'.filter (bound? · = none)

namespace Rearranged

variable {events events' others others' : List Event}

theorem refl (events : List Event) : Rearranged events events := ⟨rfl, rfl⟩

theorem append (h : Rearranged events events') (h' : Rearranged others others') :
    Rearranged (events ++ others) (events' ++ others') :=
  ⟨by rw [List.filterMap_append, List.filterMap_append, h.bindings, h'.bindings],
    by rw [List.filter_append, List.filter_append, h.others, h'.others]⟩

end Rearranged

theorem step_others (he : bound? e = none) (g : Gathered) (bindings : List String) :
    ({ g with bindings := bindings } : Gathered).step scope lines e =
      { g.step scope lines e with bindings := bindings } ∧ (g.step scope lines e).bindings = g.bindings := by
  cases e with
  | binding name => cases he
  | assignedExport name =>
      simp only [Gathered.step]
      split
      · exact ⟨rfl, rfl⟩
      · exact ⟨rfl, rfl⟩
  | call callee shape names start stop =>
      rcases shape with _ | ⟨_ | builder, options⟩
      · exact ⟨rfl, rfl⟩
      · exact ⟨rfl, rfl⟩
      · simp only [Gathered.step, Gathered.call]
        cases Builder.classify? builder with
        | none => exact ⟨rfl, rfl⟩
        | some shape => exact ⟨rfl, rfl⟩
  | _ => exact ⟨rfl, rfl⟩

theorem foldl_others {events : List Event} (h : ∀ e ∈ events, bound? e = none) (g : Gathered) (bindings : List String) :
    events.foldl (Gathered.step scope lines) { g with bindings := bindings } =
      { events.foldl (Gathered.step scope lines) g with bindings := bindings } := by
  induction events generalizing g with
  | nil => rfl
  | cons e events ih =>
      obtain ⟨he, hevents⟩ := List.forall_mem_cons.1 h
      rw [List.foldl_cons, List.foldl_cons, (step_others he g bindings).1, ih hevents]

/-- Bindings are gathered by themselves. -/
theorem foldl_apart (scope : Marker.Scope) (lines : Text.Lines) (events : List Event) (g : Gathered) :
    events.foldl (Gathered.step scope lines) g =
      { (events.filter (bound? · = none)).foldl (Gathered.step scope lines) g with
        bindings := (events.filterMap bound?).reverse ++ g.bindings } := by
  induction events generalizing g with
  | nil => rfl
  | cons e events ih =>
      rw [List.foldl_cons, ih]
      cases he : bound? e with
      | none =>
          rw [List.filter_cons_of_pos (by simpa using he), List.filterMap_cons_none he, List.foldl_cons,
            (step_others he g []).2]
      | some name =>
          obtain rfl : e = .binding name := by
            cases e with
            | binding => exact congrArg Event.binding (Option.some.inj he)
            | _ => cases he
          have hothers : ∀ e ∈ events.filter (bound? · = none), bound? e = none := fun e he =>
            of_decide_eq_true (List.mem_filter.1 he).2
          have hstep : g.step scope lines (.binding name) = { g with bindings := name :: g.bindings } := rfl
          rw [List.filter_cons_of_neg (by simp [bound?]), List.filterMap_cons_some he, hstep, foldl_others hothers,
            List.reverse_cons, List.append_assoc, List.singleton_append]

/-- Readings in which only bindings stand elsewhere have one analysis. -/
theorem ofEvents_rearranged {marker : Marker} {file text : String} {imports : List ImportEvent}
    {events events' : Marker.Scope → List Event}
    (h : Rearranged (events (marker.scope (imports.map fun i => (i.source, i.specifiers))))
      (events' (marker.scope (imports.map fun i => (i.source, i.specifiers))))) :
    ofEvents marker file text imports events = ofEvents marker file text imports events' := by
  rw [ofEvents, ofEvents]
  simp only [foldl_apart _ _ (events _), foldl_apart _ _ (events' _), h.bindings, h.others]

end Analysis
end StaticGql
