import StaticGql.Cache
import StaticGql.Config.Check
import StaticGql.Frontend
import StaticGql.Proofs.Except
import StaticGql.Proofs.Literal
import StaticGql.Proofs.Scan.Events

/-!
Texts that are skipped without being analysed, since they neither mention the marker or a source of it nor
export. Nothing would be found in them, unless an import names a source of the marker by an escape.
-/

namespace StaticGql

/-! ### Events that leave nothing behind -/

def Event.Exports : Event → Prop
  | .exported _ | .assignedExport _ => True
  | _ => False

def Event.Calls : Event → Prop
  | .directCall _ _ | .call _ _ _ _ _ => True
  | _ => False

namespace Analysis

variable {scope : Marker.Scope} {lines : Text.Lines} {g : Gathered} {e : Event} {events : List Event}

theorem Gathered.exports_call (g : Gathered) (callee : List String) (shape : CallShape) (names : List String)
    (span : Span) : (g.call callee shape names span).exports = g.exports := by
  rw [call.eq_def]
  split
  · rfl
  · rfl
  · split <;> rfl

theorem Gathered.exports_step (h : ¬e.Exports) : (g.step scope lines e).exports = g.exports := by
  cases e with
  | binding | enter | enterAnonymous | exit | directCall => rfl
  | exported | assignedExport => exact absurd trivial h
  | call callee shape names start stop => exact g.exports_call ..

theorem Gathered.calls_step (scope : Marker.Scope) (lines : Text.Lines) (g : Gathered) (h : ¬e.Calls) :
    (g.step scope lines e).declarations = g.declarations ∧
      (g.step scope lines e).diagnostics = g.diagnostics := by
  cases e with
  | binding | exported | enter | enterAnonymous | exit => exact ⟨rfl, rfl⟩
  | assignedExport name =>
      rw [step]
      split <;> exact ⟨rfl, rfl⟩
  | directCall | call => exact absurd trivial h

theorem Gathered.exports_foldl (h : ∀ e ∈ events, ¬e.Exports) :
    (events.foldl (Gathered.step scope lines) g).exports = g.exports := by
  induction events generalizing g with
  | nil => rfl
  | cons e rest ih =>
      obtain ⟨he, hrest⟩ := List.forall_mem_cons.1 h
      rw [List.foldl_cons, ih hrest, exports_step he]

theorem Gathered.calls_foldl (h : ∀ e ∈ events, ¬e.Calls) :
    (events.foldl (Gathered.step scope lines) g).declarations = g.declarations ∧
      (events.foldl (Gathered.step scope lines) g).diagnostics = g.diagnostics := by
  induction events generalizing g with
  | nil => exact ⟨rfl, rfl⟩
  | cons e rest ih =>
      obtain ⟨he, hrest⟩ := List.forall_mem_cons.1 h
      obtain ⟨hdeclarations, hdiagnostics⟩ := calls_step scope lines g he
      rw [List.foldl_cons, (ih hrest).1, (ih hrest).2]
      exact ⟨hdeclarations, hdiagnostics⟩

variable {marker : Marker} {file text : String} {imports : List ImportEvent} {reported : Marker.Scope → List Event}

theorem exports_ofEvents (h : ∀ scope, ∀ e ∈ reported scope, ¬e.Exports) :
    (ofEvents marker file text imports reported).exports = [] := by
  rw [ofEvents]
  exact List.reverse_eq_nil_iff.2 (Gathered.exports_foldl (h _))

theorem calls_ofEvents
    (h : ∀ e ∈ reported (marker.scope (imports.map fun i => (i.source, i.specifiers))), ¬e.Calls) :
    (ofEvents marker file text imports reported).declarations = [] ∧
      (ofEvents marker file text imports reported).diagnostics = [] := by
  rw [ofEvents]
  exact ⟨List.map_eq_nil_iff.2 (List.reverse_eq_nil_iff.2 (Gathered.calls_foldl h).1),
    List.reverse_eq_nil_iff.2 (Gathered.calls_foldl h).2⟩

end Analysis

namespace Scan

variable {start index : Nat} {previous : Option Token} {broken : Bool} {cs part : List Char} {t : Token}
  {ts : List Token} {text name source : String} {place next : Place} {scope : Marker.Scope} {m : Marker}
  {e : Event}

/-! ### What a text mentions -/

/-- A token is a part of its text. -/
theorem infix_of_mem (h : t ∈ tokensFrom start index previous broken cs) : t.text.toList <:+: cs := by
  fun_induction tokensFrom start index previous broken cs with
  | case1 => cases h
  | case2 _ _ _ _ c cs n _ _ _ ih =>
      exact (ih h).trans ((List.drop_suffix n cs).trans (List.suffix_cons c cs)).isInfix
  | case3 _ _ _ _ c cs n _ _ _ _ _ ih =>
      rcases List.mem_cons.1 h with rfl | h
      · rw [String.toList_ofList]
        exact (List.cons_prefix_cons.2 ⟨rfl, List.take_prefix n cs⟩).isInfix
      · exact (ih h).trans ((List.drop_suffix n cs).trans (List.suffix_cons c cs)).isInfix

theorem not_isWord (h : ¬part <:+: text.toList) (hname : part <:+: name.toList) :
    ¬IsWord (tokens text) name := by
  rintro ⟨t, ht, -, rfl⟩
  exact h (hname.trans (infix_of_mem ht))

theorem not_infix_of_contains {word : String} (h : Text.contains text word = false) :
    ¬word.toList <:+: text.toList := by
  intro hamong
  rw [Text.contains, Text.occurs_eq_true_iff.2 hamong] at h
  cases h

/-- A text that is skipped mentions neither the marker nor an export nor a source. -/
theorem mentions_of_mayContribute (h : m.mayContribute text = false) :
    ¬m.identifier.toList <:+: text.toList ∧ ¬"export".toList <:+: text.toList ∧
      ∀ s ∈ m.importSources, ¬s.toList <:+: text.toList := by
  rw [Marker.mayContribute, Bool.or_eq_false_iff, Bool.or_eq_false_iff, List.any_eq_false] at h
  obtain ⟨⟨hidentifier, hexport⟩, hsources⟩ := h
  refine ⟨not_infix_of_contains hidentifier, not_infix_of_contains hexport, fun s hs => ?_⟩
  exact not_infix_of_contains (Bool.eq_false_iff.2 (hsources s hs))

/-! ### Imports -/

theorem Place.Within.exists_token {k : TokenKind} (h : Within ts place) (hk : at? k place = true) :
    ∃ t ∈ ts, t.kind = k ∧ t.text = Place.text place := by
  cases place with
  | nil => cases hk
  | cons p rest =>
      obtain ⟨behind, hp⟩ := p.exists_tokens
      refine ⟨p.head, h.tokens.subset ?_, by simpa [at?, kind?] using hk, rfl⟩
      rw [Piece.allTokens, hp]
      simp

/-- The source of an import is what a quoted text stands for. -/
theorem Clause.exists_of_import {names : List Specifier} (h : place.Within ts)
    (himport : import? place = some (source, names, next)) :
    ∃ t ∈ ts, t.kind = .str ∧ Literal.string? t.text = some source := by
  simp only [import?, Option.bind_eq_bind] at himport
  split at himport
  · rename_i hstr
    obtain ⟨source', hsource, himport⟩ := Option.bind_eq_some_iff.1 himport
    cases himport
    obtain ⟨t, ht, hkind, htext⟩ := h.tail.exists_token hstr
    exact ⟨t, ht, hkind, htext ▸ hsource⟩
  · obtain ⟨⟨first, place'⟩, hfirst, himport⟩ := Option.bind_eq_some_iff.1 himport
    obtain ⟨⟨others, place''⟩, hothers, himport⟩ := Option.bind_eq_some_iff.1 himport
    have hplace : place''.Within ts := h.tail.of_suffix
      (((suffix_of_otherNames hothers).trans (suffix_of_defaultName hfirst)).trans (skipType_suffix _))
    simp only at himport
    split at himport
    · rename_i hfrom
      obtain ⟨source', hsource, himport⟩ := Option.bind_eq_some_iff.1 himport
      cases himport
      rw [Bool.and_eq_true] at hfrom
      obtain ⟨t, ht, hkind, htext⟩ := hplace.tail.exists_token hfrom.2
      exact ⟨t, ht, hkind, htext ▸ hsource⟩
    · cases himport

theorem Clause.exists_of_imports {fuel : Nat} (h : place.Within ts) {i : ImportEvent}
    (hi : i ∈ imports fuel place) : ∃ t ∈ ts, t.kind = .str ∧ Literal.string? t.text = some i.source := by
  obtain ⟨p, rest, source, specifiers, next, hsuffix, -, himport, rfl⟩ := exists_of_mem_imports hi
  exact exists_of_import (h.of_suffix hsuffix) himport

/-- A quoted text with a backslash in it stands for this. -/
def Escaped (text source : String) : Prop :=
  ∃ t ∈ tokens text, t.kind = .str ∧ '\\' ∈ t.text.toList ∧ Literal.string? t.text = some source

/-- A source of the marker holds what the text would mention if it were written without an escape. -/
theorem escaped_of_isSource (h : m.mayContribute text = false) (hsource : m.isSource source = true)
    (ht : ∃ t ∈ tokens text, t.kind = .str ∧ Literal.string? t.text = some source) : Escaped text source := by
  obtain ⟨t, ht, hkind, hstring⟩ := ht
  obtain ⟨s, hs, hmatch⟩ := List.any_eq_true.1 hsource
  have hamong : s.toList <:+: source.toList := by
    rw [Bool.or_eq_true, decide_eq_true_eq, List.isPrefixOf_iff_prefix, String.toList_append] at hmatch
    rcases hmatch with rfl | hprefix
    · exact List.infix_rfl
    · exact ((List.prefix_append _ _).trans hprefix).isInfix
  refine ⟨t, ht, hkind, ?_, hstring⟩
  by_contra hplain
  refine (mentions_of_mayContribute h).2.2 s hs ?_
  exact hamong.trans ((Literal.infix_of_string hstring hplain).trans (infix_of_mem ht))

/-! ### Calls and exports -/

theorem not_exports_of_reports (h : ¬"export".toList <:+: text.toList) (he : Reports scope (tokens text) e) :
    ¬e.Exports := by
  cases he with
  | exported e hword => exact fun _ => not_isWord h List.infix_rfl hword
  | assignedExport name hword => exact fun _ => not_isWord h (by decide) hword
  | binding | enter | enterAnonymous | exit => exact id
  | marker hplace hword hmember hcall =>
      obtain ⟨_, _, _, _, _, -, -, -, ⟨rfl, -⟩ | ⟨rfl, -⟩⟩ := Call.exists_of_marker hcall
      · exact id
      · exact id

/-- Without a name for the marker there is no call of it. -/
theorem not_calls_of_reports (hscope : ¬IsWord (tokens text) scope.identifier) (hlocals : scope.locals = [])
    (he : Reports scope (tokens text) e) : ¬e.Calls := by
  cases he with
  | binding | exported | assignedExport | enter | enterAnonymous | exit => exact id
  | marker hplace hword hmember hcall =>
      obtain ⟨t, rest, o, c, inner, rfl, -, -, hcall⟩ := Call.exists_of_marker hcall
      have hroot : ∀ name, IsWord (tokens text) name → scope.isRoot name = false := by
        intro name hname
        rw [Marker.Scope.isRoot, hlocals, Bool.or_eq_false_iff]
        refine ⟨decide_eq_false fun hsame => hscope (hsame ▸ hname), by simp⟩
      obtain ⟨name, hhead⟩ := Option.isSome_iff_exists.1 hword
      have htext : IsWord (tokens text) t.text := by
        have hname : name = t.text := by
          rw [Place.word?] at hhead
          split at hhead
          · exact (Option.some.inj hhead).symm
          · cases hhead
        exact hname ▸ hplace.isWord hhead
      rcases hcall with ⟨-, hcall⟩ | ⟨-, hcall⟩
      · rw [hroot _ htext] at hcall
        cases hcall
      · have hchain : ∀ name ∈ (Place.chain rest).1, IsWord (tokens text) name :=
          fun name hname => hplace.behind.isWord_of_chain hname
        cases hnames : (Place.chain rest).1 with
        | nil =>
            rw [hnames] at hcall
            cases hcall
        | cons second others =>
            rw [hnames] at hcall hchain
            rw [Marker.Scope.matchesCallee, hroot _ htext, Bool.false_or, List.any_eq_true] at hcall
            obtain ⟨name, hname, hsame⟩ := hcall
            refine absurd (hchain name (List.dropLast_subset _ hname)) ?_
            rwa [of_decide_eq_true hsame]

/-- What the scanner would find in a text that is skipped: no export, and no call of the marker, unless a
source of it is written with an escape in an import. -/
theorem analyze_skipped {file : String} {a : Analysis} (hskip : m.mayContribute text = false)
    (h : Frontend.scanner.analyze m file text = .ok a) : a.exports = [] ∧
      ((∀ i ∈ a.imports, m.isSource i.source = true → ¬Escaped text i.source) →
        a.declarations = [] ∧ a.diagnostics = []) := by
  obtain ⟨f, hf, rfl⟩ := map_eq_ok_iff.1 (mapError_eq_ok_iff.1 h)
  obtain ⟨hidentifier, hexport, -⟩ := mentions_of_mayContribute hskip
  have hreports : ∀ scope, ∀ e ∈ Walk.events f scope, Reports scope (tokens text) e :=
    fun _ _ he => Walk.reports_of_mem_events (within_forest hf) he
  refine ⟨Analysis.exports_ofEvents fun scope e he => not_exports_of_reports hexport (hreports scope e he),
    fun hplain => Analysis.calls_ofEvents fun e he => ?_⟩
  refine not_calls_of_reports (not_isWord hidentifier List.infix_rfl) ?_ (hreports _ e he)
  -- No import is from a source of the marker, so that none binds a name for it.
  have hnone : ∀ i ∈ Clause.imports (f.length + 1) f, m.isSource i.source = false := by
    intro i hi
    by_contra hsource
    rw [Bool.not_eq_false] at hsource
    refine hplain ⟨i.source, i.specifiers, _⟩ (List.mem_map_of_mem hi) hsource ?_
    exact escaped_of_isSource hskip hsource (Clause.exists_of_imports (within_forest hf) hi)
  rw [Marker.scope, List.filter_eq_nil_iff.2, List.flatMap_nil]
  intro pair hpair
  obtain ⟨i, hi, rfl⟩ := List.mem_map.1 hpair
  simp [hnone i hi]

/-- A call of what another module gives. -/
def otherText : String := "import{a}from'other'\nconst q=a.b(()=>query.slice({}))"

/-- The same call, of what a source of the marker gives. -/
def escapedText : String := "import{a}from'@/graphql-s\\x79stem'\nconst q=a.b(()=>query.slice({}))"

theorem otherText_spec : Marker.standard.mayContribute otherText = false ∧
    ((Frontend.scanner.analyze .standard "/a.ts" otherText).toOption.map fun a =>
      a.imports.map (·.source)) = some ["other"] := by
  decide +kernel

theorem analyze_skipped_other : ∃ a, Marker.standard.mayContribute otherText = false ∧
    Frontend.scanner.analyze .standard "/a.ts" otherText = .ok a ∧
      (∀ i ∈ a.imports, Marker.standard.isSource i.source = true → ¬Escaped otherText i.source) ∧
        a.exports = [] ∧ a.declarations = [] ∧ a.diagnostics = [] := by
  obtain ⟨hskip, hsources⟩ := otherText_spec
  obtain ⟨a, ha, hsources⟩ := Option.map_eq_some_iff.1 hsources
  have hanalyze := eq_ok_of_toOption ha
  have hother : ∀ i ∈ a.imports, Marker.standard.isSource i.source = true → ¬Escaped otherText i.source := by
    intro i hi hsource
    have hmem : i.source ∈ ["other"] := hsources ▸ List.mem_map_of_mem hi
    rw [List.mem_singleton.1 hmem] at hsource
    exact absurd hsource (by decide)
  obtain ⟨hexports, hnone⟩ := analyze_skipped hskip hanalyze
  exact ⟨a, hskip, hanalyze, hother, hexports, hnone hother⟩

/-- It is skipped all the same, although there is a declaration in it. -/
theorem declaration_skipped : Config.checkMarker .standard = .ok () ∧
    Marker.standard.mayContribute escapedText = false ∧
      ∃ a, Frontend.scanner.analyze .standard "/a.ts" escapedText = .ok a ∧
        a.declarations.map (·.structuralPath) = ["q"] := by
  have hpaths : ((Frontend.scanner.analyze .standard "/a.ts" escapedText).toOption.map fun a =>
      a.declarations.map (·.structuralPath)) = some ["q"] := by decide +kernel
  obtain ⟨a, ha, hpaths⟩ := Option.map_eq_some_iff.1 hpaths
  exact ⟨by decide, by decide +kernel, a, eq_ok_of_toOption ha, hpaths⟩

end Scan
end StaticGql
