import StaticGql.Analysis.OfEvents
import StaticGql.Proofs.CanonicalId
import StaticGql.Proofs.Except
import StaticGql.Proofs.Trail

/-!
Where the declarations of an analysis stand. Their structural paths are made of the names that were entered,
so an id gives them back unless one of these names holds a separator. The path of a declaration is that of the names
on the trail, with a number behind it if it is not the first one under them; so wherever one is recorded, some
declaration has the path without a number.
-/

namespace StaticGql

/-! ### Paths and the names in them -/

namespace Trail

variable {S : String → Prop} {path : String} {t : Trail}

/-- Names with a property, joined, and a number behind them. -/
def MadeOf (S : String → Prop) (path : String) : Prop :=
  ∃ names n, names ≠ [] ∧ (∀ s ∈ names, S s) ∧ path = numbered (".".intercalate names) n

theorem base_fst (hanonymous : ∀ n, S (anonymousName n)) (h : ∀ s ∈ t.segments, S s) :
    ∃ names, names ≠ [] ∧ (∀ s ∈ names, S s) ∧ t.base.1 = ".".intercalate names := by
  rw [base]
  split
  · exact ⟨[anonymousName t.anonymous], by simp, by simpa using hanonymous _, rfl⟩
  · rename_i hne
    exact ⟨t.segments.reverse, by simpa using hne, by simpa using h, rfl⟩

theorem segments_allocate (t : Trail) : t.allocate.2.segments = t.segments := by
  have hbase : t.base.2.segments = t.segments := by
    rw [base]
    split <;> rfl
  exact hbase

theorem madeOf_allocate (hanonymous : ∀ n, S (anonymousName n)) (h : ∀ s ∈ t.segments, S s) :
    MadeOf S t.allocate.1 := by
  obtain ⟨names, hne, hnames, hbase⟩ := base_fst hanonymous h
  exact ⟨names, (t.base.2.occurrences.get? t.base.1).getD 0, hne, hnames, by rw [← hbase]; rfl⟩

theorem infix_intercalate {names : List String} {s : String} (h : s ∈ names) :
    s.toList <:+: (".".intercalate names).toList := by
  rw [String.toList_intercalate]
  induction names with
  | nil => cases h
  | cons first rest ih =>
      cases rest with
      | nil =>
          rw [List.mem_singleton.1 h]
          simp [List.intercalate]
      | cons second rest =>
          rw [List.map_cons, List.map_cons, List.intercalate_cons_cons]
          rcases List.mem_cons.1 h with rfl | h
          · rw [List.append_assoc]
            exact (List.prefix_append _ _).isInfix
          · exact (ih h).trans (List.suffix_append _ _).isInfix

theorem prefix_numbered (b : String) (n : Nat) : b.toList <+: (numbered b n).toList := by
  cases n with
  | zero => exact List.prefix_rfl
  | succ n =>
      rw [toList_numbered b n.succ_pos]
      exact List.prefix_append _ _

end Trail

namespace CanonicalId

open Trail (MadeOf numbered anonymousName)

variable {s : String}

theorem isPlain_of_not_mem (h : ':' ∉ s.toList) : IsPlain s where
  inside hpair := h (hpair.subset (by simp))
  start hhead := h (List.mem_of_mem_head? hhead)

/-- Two colons stand on one side of any other character. -/
theorem pair_infix_append {before after : List Char} {c : Char} (hc : c ≠ ':')
    (h : [':', ':'] <:+: before ++ c :: after) :
    [':', ':'] <:+: before ∨ [':', ':'] <:+: after := by
  induction before with
  | nil =>
      rw [List.nil_append, List.infix_cons_iff, List.cons_prefix_cons] at h
      rcases h with ⟨hcolon, -⟩ | h
      · exact absurd hcolon.symm hc
      · exact .inr h
  | cons d before ih =>
      rw [List.cons_append, List.infix_cons_iff, List.cons_prefix_cons] at h
      rcases h with ⟨rfl, h⟩ | h
      · cases before with
        | nil =>
            rw [List.nil_append, List.cons_prefix_cons] at h
            exact absurd h.1.symm hc
        | cons e before =>
            rw [List.cons_append, List.cons_prefix_cons] at h
            rw [← h.1]
            exact .inl ⟨[], before, by simp⟩
      · exact (ih h).imp (fun h => h.trans (List.suffix_cons d before).isInfix) id

theorem isPlain_intercalate {names : List String} (hne : names ≠ []) (h : ∀ s ∈ names, IsPlain s) :
    IsPlain (".".intercalate names) := by
  rw [isPlain_iff, String.toList_intercalate]
  induction names with
  | nil => exact absurd rfl hne
  | cons first rest ih =>
      have hfirst := isPlain_iff.1 (h first (by simp))
      cases rest with
      | nil => simpa [List.intercalate] using hfirst
      | cons second rest =>
          rw [List.map_cons, List.map_cons, List.intercalate_cons_cons]
          intro hpair
          have hsplit : [':', ':'] <:+: (':' :: first.toList) ++ '.' ::
              ['.'].intercalate (second.toList :: rest.map String.toList) := by simpa using hpair
          rcases pair_infix_append (by decide) hsplit with hpair | hpair
          · exact hfirst hpair
          · refine ih (by simp) (fun s hs => h s (List.mem_cons_of_mem first hs)) ?_
            exact hpair.trans (List.suffix_cons ':' _).isInfix

theorem colon_not_mem_toDigits (n : Nat) : ':' ∉ Nat.toDigits 10 n := by
  intro h
  have := Nat.isDigit_of_mem_toDigits (by decide) (by decide) h
  simp at this

theorem isPlain_numbered (h : IsPlain s) (n : Nat) : IsPlain (numbered s n) := by
  cases n with
  | zero => exact h
  | succ n =>
      rw [isPlain_iff, Trail.toList_numbered s n.succ_pos]
      intro hpair
      rw [← List.cons_append] at hpair
      rcases pair_infix_append (by decide) hpair with hpair | hpair
      · exact isPlain_iff.1 h hpair
      · exact colon_not_mem_toDigits _ (hpair.subset (by simp))

theorem isPlain_anonymousName (n : Nat) : IsPlain (anonymousName n) := by
  apply isPlain_of_not_mem
  have hname : anonymousName n = "_anonymous_" ++ Nat.repr n := rfl
  rw [hname, String.toList_append, Nat.repr, String.toList_ofList]
  simp [colon_not_mem_toDigits]

/-- Where a path is not plain, a name in it is not. -/
theorem exists_not_isPlain {S : String → Prop} {path : String} (h : MadeOf S path) (hpath : ¬IsPlain path) :
    ∃ name, S name ∧ ¬IsPlain name ∧ name.toList <:+: path.toList := by
  obtain ⟨names, n, hne, hnames, rfl⟩ := h
  by_contra hall
  refine hpath (isPlain_numbered (isPlain_intercalate hne fun name hname => ?_) n)
  by_contra hplain
  exact hall ⟨name, hnames name hname, hplain,
    (Trail.infix_intercalate hname).trans (Trail.prefix_numbered _ n).isInfix⟩

end CanonicalId

/-! ### The paths of an analysis -/

namespace Analysis

open Trail (MadeOf anonymousName)

variable {S : String → Prop} {g : Gathered} {e : Event} {scope : Marker.Scope} {lines : Text.Lines}

/-- The names on the way, and those in the paths gathered so far, have a property. -/
structure Gathered.Named (S : String → Prop) (g : Gathered) : Prop where
  segments : ∀ s ∈ g.trail.segments, S s
  paths : ∀ site ∈ g.declarations, MadeOf S site.structuralPath

theorem Gathered.Named.call (h : g.Named S) (hanonymous : ∀ n, S (anonymousName n)) (callee : List String)
    (shape : CallShape) (names : List String) (span : Span) : (g.call callee shape names span).Named S := by
  rw [Gathered.call.eq_def]
  split
  · exact ⟨h.segments, h.paths⟩
  · exact ⟨h.segments, h.paths⟩
  · split
    · exact ⟨h.segments, h.paths⟩
    · refine ⟨fun s hs => h.segments s ?_, List.forall_mem_cons.2 ⟨?_, h.paths⟩⟩
      · rwa [← Trail.segments_allocate g.trail]
      · exact Trail.madeOf_allocate hanonymous h.segments

theorem Gathered.Named.step (h : g.Named S) (hanonymous : ∀ n, S (anonymousName n))
    (henter : ∀ s, e = .enter s → S s) : (g.step scope lines e).Named S := by
  cases e with
  | binding name => exact ⟨h.segments, h.paths⟩
  | exported e => exact ⟨h.segments, h.paths⟩
  | assignedExport name =>
      rw [Gathered.step]
      split
      · exact h
      · exact ⟨h.segments, h.paths⟩
  | enter name => exact ⟨List.forall_mem_cons.2 ⟨henter name rfl, h.segments⟩, h.paths⟩
  | enterAnonymous => exact ⟨List.forall_mem_cons.2 ⟨hanonymous _, h.segments⟩, h.paths⟩
  | exit => exact ⟨fun s hs => h.segments s (List.mem_of_mem_tail hs), h.paths⟩
  | directCall start stop => exact ⟨h.segments, h.paths⟩
  | call callee shape names start stop => exact h.call hanonymous callee shape names _

theorem Gathered.Named.foldl {events : List Event} (h : g.Named S) (hanonymous : ∀ n, S (anonymousName n))
    (henter : ∀ s, .enter s ∈ events → S s) : (events.foldl (Gathered.step scope lines) g).Named S := by
  induction events generalizing g with
  | nil => exact h
  | cons e rest ih =>
      exact ih (h.step hanonymous fun s hs => henter s (by simp [hs])) fun s hs =>
        henter s (List.mem_cons_of_mem e hs)

/-- The paths of declarations are made of anonymous names and of those that were entered. -/
theorem madeOf_of_mem_ofEvents {marker : Marker} {file text : String} {imports : List ImportEvent}
    {events : Marker.Scope → List Event} {site : Site} (hanonymous : ∀ n, S (anonymousName n))
    (henter : ∀ scope s, .enter s ∈ events scope → S s)
    (h : site ∈ (ofEvents marker file text imports events).declarations) :
    MadeOf S site.structuralPath := by
  rw [ofEvents] at h
  obtain ⟨site', hsite', rfl⟩ := List.mem_map.1 h
  have hstart : Gathered.Named S ⟨.start, [], [], [], []⟩ := ⟨by simp [Trail.start], by simp⟩
  exact (hstart.foldl hanonymous (henter _)).paths site' (List.mem_reverse.1 hsite')

/-! ### The calls that declarations come from -/

/-- The call has the range of the declaration, and its function yields the call of a chain of names. -/
def Makes (e : Event) (site : Site) : Prop :=
  ∃ callee builder options names,
    e = .call callee (.builder (some builder) options) names site.span.start site.span.stop

/-- An event adds no declaration and counts no path, or it is a call and adds its declaration, with the path that the
trail gives out. -/
theorem Gathered.step_cases (scope : Marker.Scope) (lines : Text.Lines) (g : Gathered) (e : Event) :
    ((g.step scope lines e).declarations = g.declarations ∧
        (g.step scope lines e).trail.occurrences = g.trail.occurrences) ∨
      ∃ s, Makes e s ∧ (g.step scope lines e).declarations = s :: g.declarations ∧
        (g.step scope lines e).trail.occurrences = g.trail.allocate.2.occurrences ∧
          s.structuralPath = g.trail.allocate.1 := by
  cases e with
  | binding | exported | enter | enterAnonymous | exit | directCall => exact .inl ⟨rfl, rfl⟩
  | assignedExport name =>
      rw [Gathered.step]
      split
      · exact .inl ⟨rfl, rfl⟩
      · exact .inl ⟨rfl, rfl⟩
  | call callee shape names start stop =>
      rw [Gathered.step, Gathered.call.eq_def]
      split
      · exact .inl ⟨rfl, rfl⟩
      · exact .inl ⟨rfl, rfl⟩
      · split
        · exact .inl ⟨rfl, rfl⟩
        · exact .inr ⟨_, ⟨callee, _, _, names, rfl⟩, rfl, rfl, rfl⟩

/-- The declarations are those of some of the calls, in the order of the calls. -/
theorem Gathered.makes_foldl (scope : Marker.Scope) (lines : Text.Lines) (events : List Event) (g : Gathered) : ∃ calls sites, calls.Sublist events ∧
    List.Forall₂ Makes calls sites ∧
      (events.foldl (Gathered.step scope lines) g).declarations.reverse = g.declarations.reverse ++ sites := by
  induction events generalizing g with
  | nil => exact ⟨[], [], .slnil, .nil, by simp⟩
  | cons e rest ih =>
      obtain ⟨calls, sites, hcalls, hsites, hfoldl⟩ := ih (g.step scope lines e)
      rw [List.foldl_cons, hfoldl]
      rcases g.step_cases scope lines e with ⟨hsame, -⟩ | ⟨s, hmakes, hcons, -⟩
      · exact ⟨calls, sites, hcalls.cons e, hsites, by rw [hsame]⟩
      · exact ⟨e :: calls, s :: sites, hcalls.cons_cons e, .cons hmakes hsites, by simp [hcons]⟩

theorem makes_ofEvents (marker : Marker) (file text : String) (imports : List ImportEvent)
    (events : Marker.Scope → List Event) : ∃ calls,
    calls.Sublist (events (marker.scope (imports.map fun i => (i.source, i.specifiers)))) ∧
      List.Forall₂ Makes calls (ofEvents marker file text imports events).declarations := by
  let scope := marker.scope (imports.map fun i => (i.source, i.specifiers))
  obtain ⟨calls, sites, hcalls, hsites, hfoldl⟩ :=
    Gathered.makes_foldl scope (Text.Lines.ofText text) (events scope) ⟨.start, [], [], [], []⟩
  rw [List.reverse_nil, List.nil_append] at hfoldl
  refine ⟨calls, hcalls, ?_⟩
  rw [ofEvents]
  exact List.forall₂_map_right_iff.2 (hfoldl ▸ hsites)

theorem exists_makes {marker : Marker} {file text : String} {imports : List ImportEvent}
    {events : Marker.Scope → List Event} {site : Site}
    (h : site ∈ (ofEvents marker file text imports events).declarations) :
    ∃ scope, ∃ e ∈ events scope, Makes e site := by
  obtain ⟨calls, hcalls, hsites⟩ := makes_ofEvents marker file text imports events
  obtain ⟨e, he, hmakes⟩ := exists_of_forall₂ hsites.flip h
  exact ⟨_, e, hcalls.subset he, hmakes⟩

end Analysis
end StaticGql

/-! ### The names under which declarations are recorded -/

namespace StaticGql.Analysis

open Trail (numbered)

variable {scope : Marker.Scope} {lines : Text.Lines} {g : Gathered} {e : Event} {events : List Event}
  {name : String} {names : List String} {s : Site}

/-- The declarations that events add, each with the names on the trail, the outermost first. -/
def Gathered.recorded (scope : Marker.Scope) (lines : Text.Lines) (g : Gathered) : List Event → List (List String × Site)
  | [] => []
  | e :: rest =>
    let next := g.step scope lines e
    (next.declarations.take (next.declarations.length - g.declarations.length)).map (fun s => (g.trail.segments.reverse, s)) ++
      next.recorded scope lines rest

/-- The declarations of an analysis, each with the names under which it was recorded. -/
def recorded (marker : Marker) (text : String) (imports : List ImportEvent) (events : Marker.Scope → List Event) :
    List (List String × Site) :=
  let lines := Text.Lines.ofText text
  let scope := marker.scope (imports.map fun i => (i.source, i.specifiers))
  let start : Gathered := ⟨.start, [], [], [], []⟩
  let g := (events scope).foldl (Gathered.step scope lines) start
  let bindings := (imports.flatMap fun i => i.specifiers.map (·.localName)) ++ g.bindings
  (start.recorded scope lines (events scope)).map fun p => (p.1, finish scope bindings g.exports.reverse p.2)

/-! ### One event -/

theorem Gathered.recorded_of_same (h : (g.step scope lines e).declarations = g.declarations) :
    g.recorded scope lines (e :: events) = (g.step scope lines e).recorded scope lines events := by
  rw [recorded, h, Nat.sub_self]
  rfl

theorem Gathered.recorded_of_cons (h : (g.step scope lines e).declarations = s :: g.declarations) :
    g.recorded scope lines (e :: events) =
      (g.trail.segments.reverse, s) :: (g.step scope lines e).recorded scope lines events := by
  rw [recorded, h, List.length_cons, Nat.add_sub_cancel_left]
  rfl

theorem Gathered.declarations_foldl (scope : Marker.Scope) (lines : Text.Lines) (g : Gathered) (events : List Event) :
    (events.foldl (Gathered.step scope lines) g).declarations =
      ((g.recorded scope lines events).map (·.2)).reverse ++ g.declarations := by
  induction events generalizing g with
  | nil => rfl
  | cons e rest ih =>
      rw [List.foldl_cons, ih]
      rcases g.step_cases scope lines e with ⟨hsame, -⟩ | ⟨s, -, hcons, -⟩
      · rw [recorded_of_same hsame, hsame]
      · rw [recorded_of_cons hcons, hcons]
        simp

/-- An analysis has the declarations that are recorded, in this order. -/
theorem declarations_ofEvents (marker : Marker) (file text : String) (imports : List ImportEvent)
    (events : Marker.Scope → List Event) :
    (ofEvents marker file text imports events).declarations = (recorded marker text imports events).map (·.2) := by
  have hall := Gathered.declarations_foldl (marker.scope (imports.map fun i => (i.source, i.specifiers)))
    (Text.Lines.ofText text) ⟨.start, [], [], [], []⟩ (events (marker.scope (imports.map fun i => (i.source, i.specifiers))))
  rw [ofEvents, recorded]
  simp only [hall, List.append_nil, List.reverse_reverse, List.map_map]
  rfl

/-! ### Paths -/

/-- Every path that was asked for is that of a declaration. -/
def Gathered.Declares (g : Gathered) : Prop :=
  ∀ b n, g.trail.occurrences.get? b = some n → ∃ s ∈ g.declarations, s.structuralPath = b

theorem Gathered.Declares.exists_base (h : g.Declares) (hpath : s.structuralPath = g.trail.allocate.1) :
    ∃ s' ∈ s :: g.declarations, s'.structuralPath = g.trail.base.1 := by
  -- The first path under some names is the one without a number.
  cases hseen : g.trail.occurrences.get? g.trail.base.1 with
  | none =>
      have hfirst : g.trail.allocate.1 = numbered g.trail.base.1 ((g.trail.occurrences.get? g.trail.base.1).getD 0) := by
        rw [← Trail.occurrences_base]
        rfl
      refine ⟨s, List.mem_cons_self, ?_⟩
      rw [hpath, hfirst, hseen]
      rfl
  | some n =>
      obtain ⟨s', hs', hbase⟩ := h _ n hseen
      exact ⟨s', List.mem_cons_of_mem s hs', hbase⟩

theorem Gathered.Declares.step (h : g.Declares) : (g.step scope lines e).Declares := by
  intro b n hn
  rcases g.step_cases scope lines e with ⟨hsame, hcount⟩ | ⟨s, -, hcons, hcount, hpath⟩
  · rw [hcount] at hn
    rw [hsame]
    exact h b n hn
  · have hself : g.trail.allocate.2.occurrences = g.trail.base.2.occurrences.insert g.trail.base.1
        ((g.trail.base.2.occurrences.get? g.trail.base.1).getD 0 + 1) := rfl
    rw [hcons]
    rw [hcount, hself, Dict.get?_insert, Trail.occurrences_base] at hn
    by_cases hb : g.trail.base.1 = b
    · exact hb ▸ h.exists_base hpath
    · rw [if_neg hb] at hn
      obtain ⟨s', hs', hbase⟩ := h b n hn
      exact ⟨s', List.mem_cons_of_mem s hs', hbase⟩

/-- A path that a declaration has, and of which another one with the same names has a numbered form. -/
theorem Gathered.recorded_spec (h : g.Declares) (hmem : (name :: names, s) ∈ g.recorded scope lines events) :
    ∃ n, s.structuralPath = numbered (".".intercalate (name :: names)) n ∧
      ∃ s' ∈ (events.foldl (Gathered.step scope lines) g).declarations,
        s'.structuralPath = ".".intercalate (name :: names) := by
  induction events generalizing g with
  | nil => cases hmem
  | cons e rest ih =>
      rcases g.step_cases scope lines e with ⟨hsame, -⟩ | ⟨s₀, -, hcons, -, hpath⟩
      · rw [recorded_of_same hsame] at hmem
        exact ih h.step hmem
      · rw [recorded_of_cons hcons] at hmem
        rcases List.mem_cons.1 hmem with heq | hmem
        · obtain ⟨hnames, rfl⟩ := Prod.mk.inj heq
          have hne : ¬ g.trail.segments.isEmpty = true := by
            intro hempty
            rw [List.isEmpty_iff.1 hempty] at hnames
            cases hnames
          have hbase : g.trail.base.1 = ".".intercalate (name :: names) := by
            rw [Trail.base, if_neg hne, hnames]
          refine ⟨_, hpath.trans (congrArg (numbered · _) hbase), ?_⟩
          obtain ⟨s', hs', hfirst⟩ := h.exists_base hpath
          refine ⟨s', ?_, hfirst.trans hbase⟩
          rw [List.foldl_cons, declarations_foldl, hcons]
          exact List.mem_append_right _ hs'
        · exact ih h.step hmem

theorem recorded_spec {marker : Marker} {text : String} {imports : List ImportEvent}
    {events : Marker.Scope → List Event} (hmem : (name :: names, s) ∈ recorded marker text imports events) :
    (∃ n, s.structuralPath = numbered (".".intercalate (name :: names)) n) ∧
      ∃ p ∈ recorded marker text imports events, p.2.structuralPath = ".".intercalate (name :: names) := by
  have hstart : Gathered.Declares ⟨.start, [], [], [], []⟩ := by
    intro b n hn
    cases hn
  rw [recorded] at hmem ⊢
  obtain ⟨⟨_, s₀⟩, hs₀, heq⟩ := List.mem_map.1 hmem
  obtain ⟨rfl, rfl⟩ := Prod.mk.inj heq
  obtain ⟨n, hn, s', hs', hfirst⟩ := Gathered.recorded_spec hstart hs₀
  refine ⟨⟨n, hn⟩, ?_⟩
  rw [Gathered.declarations_foldl, List.append_nil, List.mem_reverse] at hs'
  obtain ⟨p, hp, rfl⟩ := List.mem_map.1 hs'
  exact ⟨_, List.mem_map_of_mem hp, hfirst⟩

end StaticGql.Analysis
