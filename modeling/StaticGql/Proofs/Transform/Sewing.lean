import StaticGql.Proofs.Scan.Bounds
import StaticGql.Proofs.Transform.Applied
import StaticGql.Proofs.Transform.Spliced

/-!
The edits of a plan, sewn into a legible text.

Whether an import goes is decided by the calls alone, so that what else uses one of its names keeps the name without
the import.
-/

namespace StaticGql.Transform

open Scan Text Cutter

variable {text path a b : String} {k : TokenKind} {cs ds : List Char} {o : Options} {e : Element} {p : Plan}
  {analysis : Analysis} {s s' : Cutter} {spans : List Span}

/-! ### How what is written begins and ends -/

def EndsWith (k : TokenKind) (text : String) : Prop := ∃ l ∈ lastLexeme? text, l.kind = k

theorem EndsWith.isDotted (h : EndsWith k text) (hk : isDotted (some k) = false) :
    ∀ l ∈ lastLexeme? text, isDotted (some l.kind) = false := by
  obtain ⟨l, hl, hlast⟩ := h
  intro l' hl'
  obtain rfl : l = l' := Option.some.inj (hl.symm.trans hl')
  rwa [hlast]

theorem endsWith_append {ls ms : List Lexeme} (ha : Cuts a.toList ls) (hb : Cuts b.toList ms) (h : EndsWith k b) :
    EndsWith k (a ++ b) := by
  obtain ⟨l, hl, hkind⟩ := h
  rw [lastLexeme?_eq hb] at hl
  refine ⟨l, ?_, hkind⟩
  rw [lastLexeme?_eq (String.toList_append ▸ ha.append hb), List.getLast?_append, hl]
  rfl

/-- What is cut out of a quotation between two plain texts ends as the second one does. -/
def closes (k : TokenKind) (before after : String) : Bool :=
  match plain [] before.toList, plain [] after.toList with
  | some _, some ms => ms.getLast?.map (·.kind) = some k
  | _, _ => false

theorem endsWith_quoting {before after : String} (h : closes k before after = true) (s : String) :
    EndsWith k (before ++ quoted s ++ after) := by
  rw [closes] at h
  split at h
  · rename_i ls ms hbefore hafter
    obtain ⟨l, hl, hkind⟩ := Option.map_eq_some_iff.1 (of_decide_eq_true h)
    refine ⟨l, ?_, hkind⟩
    rw [lastLexeme?_eq (cuts_quoting hbefore hafter s), List.getLast?_append, List.getLast?_cons, hl]
    rfl
  · cases h

theorem endsWith_prebuild {before after : String} (descriptor : Json)
    (h : closes k (before ++ "\x7b prebuild: JSON.parse(") ("), runtime: \x7b\x7d \x7d" ++ after) = true) :
    EndsWith k (before ++ prebuild descriptor ++ after) := by
  rw [prebuild_between]
  exact endsWith_quoting h descriptor.sorted.compact

theorem endsWith_precomputed (e : Element) : EndsWith .closeParen ("(" ++ e.precomputed ++ ")") := by
  obtain ⟨ls, hprints, -, -⟩ := (isTextual_toJson e).sorted.prints
  have hopen : Cuts "(".toList [⟨.openParen, "("⟩] := .plain (by decide +kernel)
  have hclose : Cuts ")".toList [⟨.closeParen, ")"⟩] := .plain (by decide +kernel)
  have hbody : Cuts ("(" ++ e.precomputed).toList (⟨.openParen, "("⟩ :: ls) := by
    have htext : e.precomputed.toList = Json.compactChars e.toJson.sorted := String.toList_ofList
    rw [String.toList_append, htext]
    exact hopen.append hprints
  exact endsWith_append hbody hclose ⟨_, lastLexeme?_eq hclose, rfl⟩

theorem endsWith_expression (o : Options) (e : Element) : EndsWith .closeParen (render o e).expression := by
  rw [render]
  cases o.mode with
  | zeroRuntime => exact endsWith_precomputed e
  | runtime =>
      cases e with
      | operation op => cases o.moduleFormat <;> exact endsWith_quoting (by decide +kernel) op.operationName
      | model | slice | fragment =>
          cases o.moduleFormat <;> exact endsWith_prebuild _ (by rw [Element.kind]; decide +kernel)

theorem endsWith_hoisted (o : Options) (e : Element) : ∀ s ∈ (render o e).hoisted, EndsWith .semicolon s := by
  intro s hs
  rw [render] at hs
  cases hmode : o.mode with
  | zeroRuntime => simp [hmode] at hs
  | runtime =>
      cases e with
      | operation op =>
          simp only [hmode, Option.mem_some] at hs
          subst hs
          cases o.moduleFormat <;> exact endsWith_prebuild _ (by decide +kernel)
      | model | slice | fragment => simp [hmode] at hs

theorem endsWith_runtimeImport (o : Options) : EndsWith .semicolon (runtimeImport o) := by
  rw [runtimeImport]
  cases o.moduleFormat with
  | esm => exact endsWith_quoting (by decide +kernel) o.runtimeModule
  | cjs => exact endsWith_quoting (by decide +kernel) o.runtimeModule

/-- A replacement begins with its parenthesis or with the name of the runtime. -/
theorem head_expression (o : Options) (e : Element) :
    ∃ c ∈ (render o e).expression.toList.head?, c ∈ ['(', 'g', '_'] := by
  have haccess : ∀ rest, ∃ c ∈ (accessor o.moduleFormat ++ rest).toList.head?, c ∈ ['(', 'g', '_'] := by
    intro rest
    rw [String.toList_append]
    cases o.moduleFormat with
    | esm => exact ⟨'g', rfl, by decide⟩
    | cjs => exact ⟨'_', rfl, by decide⟩
  rw [render]
  cases o.mode with
  | zeroRuntime =>
      refine ⟨'(', ?_, by decide⟩
      rw [String.toList_append, String.toList_append]
      rfl
  | runtime =>
      cases e with
      | operation op => simpa only [String.append_assoc] using haccess _
      | model | slice | fragment => simpa only [String.append_assoc] using haccess _

theorem endsWith_lines {texts : List String} (hne : texts ≠ []) (hsettled : ∀ s ∈ texts, Settled s.toList)
    (h : ∀ s ∈ texts, EndsWith k s) : EndsWith k ("\n".intercalate texts) := by
  induction texts with
  | nil => exact absurd rfl hne
  | cons first rest ih =>
      obtain ⟨hfirst, hrest⟩ := List.forall_mem_cons.1 h
      obtain ⟨hcuts, hsettled⟩ := List.forall_mem_cons.1 hsettled
      cases rest with
      | nil => exact hfirst
      | cons second rest =>
          have happend : "\n".intercalate (first :: second :: rest) =
              first ++ "\n" ++ "\n".intercalate (second :: rest) := by
            rw [← String.toList_inj, String.toList_append, String.toList_append, String.toList_intercalate,
              String.toList_intercalate]
            rw [List.map_cons, List.map_cons, List.intercalate_cons_cons]
          obtain ⟨ls, hbefore, -⟩ := hcuts.append Settled.line
          obtain ⟨ms, hbehind, -⟩ := Settled.lines hsettled
          rw [happend]
          exact endsWith_append (by rw [String.toList_append]; exact hbefore) hbehind (ih (List.cons_ne_nil _ _) hsettled hrest)

/-! ### Sewing -/

theorem allows_of_closeParen {l : Lexeme} (h : l.kind = .closeParen) : l.allows = false := by
  simp [Lexeme.allows, regexAllowed, h]

theorem stops_of_head {xs : List Char} (hhead : ∃ c ∈ xs.head?, c ∈ ['(', 'g', '_']) (ys : List Char)
    (hk : k ∉ [.word, .number, .regex]) : Stops (joins k) (xs ++ ys) := by
  obtain ⟨c, hc, hmem⟩ := hhead
  obtain ⟨cs, rfl⟩ := List.head?_eq_some_iff.1 hc
  intro d hd
  obtain rfl : c = d := Option.some.inj hd
  simp only [List.mem_cons, List.not_mem_nil, or_false] at hmem
  rcases hmem with rfl | rfl | rfl <;> cases k <;> first | rfl | exact absurd (by decide) hk

/-- A line break is passed over without a token. -/
theorem exists_pastBreak {us : List Token} (h : Comes (.ofText text) us s) :
    ∃ s', Comes s [] s' ∧ s'.start = Plan.pastBreak text.toList s.start ∧ s'.before = s.before := by
  obtain ⟨pre, hpre, hstart⟩ := h.exists_text
  have hzero : s.start = byteSize pre := hstart.trans (Nat.zero_add _)
  have hdrop : dropBytes? s.start text.toList = some s.rest :=
    dropBytes?_eq_some_iff.2 ⟨pre, hpre, hzero.symm⟩
  have hblank : ∀ (s : Cutter) c rest, s.rest = c :: rest → isBlank c = true → Comes s [] (s.skip [c] rest) :=
    fun s c rest hrest hc => .skip hrest (munch_blank hc) (.here _)
  rw [Plan.pastBreak_eq hdrop, lineBreak.eq_def]
  split
  · rename_i rest hrest
    exact ⟨_, (hblank s _ _ hrest rfl).trans (hblank _ _ _ rfl rfl), by simp [skip, byteSize]; omega, rfl⟩
  · rename_i rest hrest
    exact ⟨_, hblank s _ _ hrest rfl, rfl, rfl⟩
  · exact ⟨s, .here s, rfl, rfl⟩

variable {i : Import} {site : Site}

theorem sewn_substitution (hanalyze : Scan.analyze o.marker path text = .ok analysis)
    (hlegible : Linked (Legible spans) none (tokens text)) (hsite : site ∈ analysis.declarations) :
    Sewn text ⟨site.span.start, site.span.stop, (render o e).expression⟩ := by
  obtain ⟨ls, hcuts, -⟩ := settled_expression o e
  obtain ⟨us, vs, s, s', hs, hvs, hstart, hstop, hword, u, hbefore, hu, hkind⟩ :=
    (bounded_of_site hanalyze hsite).exists_places
  obtain ⟨l, hl, hlast⟩ := endsWith_expression o e
  have hkind : u.kind = .closeParen := List.mem_singleton.1 hkind
  refine ⟨⟨ls, hcuts⟩, us, vs, s, s', ?_⟩
  exact {
    comes := hs
    across := hvs
    start := hstart
    stop := hstop
    mends := fun _ rest => hword.mends (hs.sound (sound_ofText text)) (hs.linked hlegible) fun t _ _ hk =>
      .inr ⟨fun hnumber => hk (by simp [hnumber]), stops_of_head (head_expression o e) rest hk⟩
    free := hword.free
    freed := by rw [hbefore, Option.map_some, hkind]; rfl
    last := (endsWith_expression o e).isDotted rfl
    slash := .inr ⟨l, hl, by
      rw [hbefore, regexAllowed_some, allows_of_closeParen hlast, allows_of_closeParen hkind]⟩ }

theorem goesOn_of_mem (h : k ∈ importEnds) : goesOn k = false ∧ isDotted (some k) = false := by
  simp only [importEnds, List.mem_cons, List.not_mem_nil, or_false] at h
  rcases h with rfl | rfl | rfl <;> exact ⟨rfl, rfl⟩

theorem sewn_removal (hanalyze : Scan.analyze o.marker path text = .ok analysis)
    (hlegible : Linked (Legible (analysis.imports.map (·.span))) none (tokens text)) (hi : i ∈ analysis.imports) :
    Sewn text (.remove i.span.start (Plan.pastBreak text.toList i.span.stop)) := by
  obtain ⟨us, vs, s, s', hs, hvs, hstart, hstop, hword, u, hbefore, hu, hkind⟩ :=
    (bounded_of_import hanalyze hi).exists_places
  have hs' := hs.trans hvs
  obtain ⟨s₂, hs₂, hstop₂, hbefore₂⟩ := exists_pastBreak hs'
  have hlinked := hs.linked hlegible
  refine ⟨⟨[], .nil⟩, us, vs ++ [], s, s₂, ?_⟩
  exact {
    comes := hs
    across := hvs.trans hs₂
    start := hstart
    stop := by rw [hstop₂, hstop]; rfl
    mends := fun _ rest => hword.mends (hs.sound (sound_ofText text)) hlinked fun t ht htouch _ => by
      obtain ⟨w, hw, -, hplace⟩ := hword.word
      refine seam_of_goesOn ((hlinked.head w hw).start t ht (htouch.trans hplace.symm) ?_) _ _
      rw [hplace, hstart]
      exact List.mem_map_of_mem (List.mem_map_of_mem hi)
    free := hword.free
    freed := by rw [hbefore₂, hbefore]; exact (goesOn_of_mem hkind).2
    last := fun l hl => by cases hl.symm.trans (lastLexeme?_eq Cuts.nil)
    slash := .inl fun t ht => (((hs'.trans hs₂).linked hlegible).head t ht).stop u (hbefore₂.trans hbefore) (by
      rw [hu, hstop]
      exact List.mem_map_of_mem (List.mem_map_of_mem hi)) }

/-- Statements may be put where none is broken off and no slash comes next. -/
theorem sewn_insert {written : String} {us : List Token} (hsettled : Settled written.toList)
    (hends : EndsWith .semicolon written) (hs : Comes (.ofText text) us s)
    (hfree : isDotted (s.before.map (·.kind)) = false)
    (hmends : 0 < s.start → ∀ rest, Mends s (written.toList ++ rest))
    (hslash : (∀ t ∈ s.tokens.head?, t.kind ≠ .slash ∧ t.kind ≠ .regex) ∨ regexAllowed s.before = true) :
    Sewn text (.insert s.start written) := by
  obtain ⟨ls, hcuts, -⟩ := hsettled
  have ⟨l, hl, hlast⟩ := hends
  refine ⟨⟨ls, hcuts⟩, us, [], s, s, ?_⟩
  exact {
    comes := hs
    across := .here s
    start := rfl
    stop := rfl
    mends := hmends
    free := hfree
    freed := hfree
    last := hends.isDotted rfl
    slash := hslash.imp_right fun hallowed => ⟨l, hl, by
      rw [hallowed]
      simp [Lexeme.allows, regexAllowed, hlast]⟩ }

theorem endsWith_header (hdrawn : Plan.Drawn o analysis p) (hne : p.header ≠ []) :
    EndsWith .semicolon ("\n".intercalate p.header) := by
  refine endsWith_lines hne (Plan.settled_header hdrawn) fun s hs => ?_
  rcases hdrawn.header s hs with rfl | ⟨e, he⟩
  · exact endsWith_runtimeImport o
  · exact endsWith_hoisted o e s he

theorem sewn_header (hanalyze : Scan.analyze o.marker path text = .ok analysis)
    (hlegible : Linked (Legible (analysis.imports.map (·.span))) none (tokens text)) (hdrawn : Plan.Drawn o analysis p)
    {edits : List Edit} (hheads : Plan.Heads analysis p edits) : ∀ e ∈ edits, Sewn text e := by
  have hsettled := Settled.lines (Plan.settled_header hdrawn)
  obtain ⟨ls, hcuts, -⟩ := Settled.lines (Plan.settled_header hdrawn)
  cases hheads with
  | bare => simp
  | @behind i hne hi =>
      refine List.forall_mem_singleton.2 ?_
      obtain ⟨us, vs, s, s', hs, hvs, hstart, hstop, -, u, hbefore, hu, hkind⟩ :=
        (bounded_of_import hanalyze hi.1).exists_places
      obtain ⟨hgoes, hdotted⟩ := goesOn_of_mem hkind
      have hs' := hs.trans hvs
      rw [← hstop]
      refine sewn_insert (by rw [String.toList_append]; exact Settled.line.append hsettled)
        (endsWith_append .line hcuts (endsWith_header hdrawn hne)) hs' (by rw [hbefore]; exact hdotted) (fun _ rest => ?_)
        (.inl fun t ht => ((hs'.linked hlegible).head t ht).stop u hbefore ?_)
      · constructor
        · intro t ht _
          obtain rfl : u = t := Option.some.inj (hbefore.symm.trans ht)
          exact seam_of_goesOn hgoes _ _
        · exact fun hgap => absurd hu (hgap u hbefore)
      · rw [hu, hstop]
        exact List.mem_map_of_mem (List.mem_map_of_mem hi.1)
  | top hne =>
      refine List.forall_mem_singleton.2 ?_
      have hends : EndsWith .semicolon ("\n".intercalate p.header ++ "\n") := by
        obtain ⟨l, hl, hlast⟩ := endsWith_header hdrawn hne
        have hmore : Cuts ("\n".intercalate p.header ++ "\n").toList (ls ++ []) := by
          rw [String.toList_append]
          exact hcuts.append .line
        exact ⟨l, by rwa [lastLexeme?_eq hmore, List.append_nil, ← lastLexeme?_eq hcuts], hlast⟩
      exact sewn_insert (s := .ofText text) (by rw [String.toList_append]; exact hsettled.append .line) hends
        (.here _) rfl (fun hpos => absurd hpos (Nat.lt_irrefl 0)) (.inr rfl)

namespace Plan

variable {artifact : Artifact}

/-- Every edit of a plan is sewn in. -/
theorem sewn_of_mem_edits (hanalyze : Scan.analyze o.marker path text = .ok analysis)
    (hbuild : build analysis artifact o = .ok p)
    (hlegible : Linked (Legible (analysis.imports.map (·.span))) none (tokens text)) :
    ∀ e ∈ p.edits text, Sewn text e := by
  have hdrawn := drawn_of_build hbuild
  intro e he
  rw [edits, List.mem_append, List.mem_append] at he
  rcases he with (he | he) | he
  · obtain ⟨t, ht, rfl⟩ := List.mem_map.1 he
    obtain ⟨site, hsite, element, rfl⟩ := hdrawn.substitutions t ht
    exact sewn_substitution hanalyze hlegible hsite
  · obtain ⟨span, hspan, rfl⟩ := List.mem_map.1 he
    obtain ⟨i, hi, rfl⟩ := hdrawn.removedImports span hspan
    exact sewn_removal hanalyze hlegible hi
  · exact sewn_header hanalyze hlegible hdrawn (heads_of_build hbuild) e he

/-- With a plan carried out, a legible text reads as its shares. -/
theorem reading_apply (hanalyze : Scan.analyze o.marker path text = .ok analysis)
    (hbuild : build analysis artifact o = .ok p)
    (hlegible : Linked (Legible (analysis.imports.map (·.span))) none (tokens text)) :
    (tokens (p.apply text)).map (·.reading) = (p.shares text).map (·.token.reading) := by
  have hsewn : ∀ e ∈ (p.edits text).mergeSort Edit.le, Sewn text e := fun e he =>
    sewn_of_mem_edits hanalyze hbuild hlegible e (List.mem_mergeSort.1 he)
  obtain ⟨out, hout, hread⟩ := exists_spliced hlegible hsewn (.here (.ofText text))
  have hout : applyFrom text.toList (byteSize text.toList) 0 ((p.edits text).mergeSort Edit.le) = some out := hout
  have happly : p.apply text = String.ofList out := by
    rw [apply, applyEdits, hout]
    rfl
  rw [happly, Scan.tokens, String.toList_ofList]
  exact hread 0 0 none false (.refl (.ofText text))

/-- What is legible reads apart. -/
theorem readsApart_of_legible (hanalyze : Scan.analyze o.marker path text = .ok analysis)
    (hbuild : build analysis artifact o = .ok p)
    (hlegible : Linked (Legible (analysis.imports.map (·.span))) none (tokens text)) : p.ReadsApart text := by
  have hreading := congrArg (List.map (·.1.kind)) (reading_apply hanalyze hbuild hlegible)
  rwa [List.map_map, List.map_map] at hreading

end Plan
end StaticGql.Transform

/-! ### The names of removed imports -/

namespace StaticGql

open Scan

namespace Scan

variable {t : Token} {text n : String}

/-- A name that stands for what it is bound to. -/
def Token.IsName (t : Token) (n : String) : Prop := t.kind = .word ∧ t.isMember = false ∧ t.text = n

instance (t : Token) (n : String) : Decidable (t.IsName n) := inferInstanceAs (Decidable (_ ∧ _))

def Mentions (text n : String) : Prop := ∃ t ∈ tokens text, t.IsName n

instance (text n : String) : Decidable (Mentions text n) := inferInstanceAs (Decidable (∃ t ∈ tokens text, t.IsName n))

theorem Token.isName_iff : t.IsName n ↔ t.reading = (⟨.word, n⟩, false) := by
  simp only [IsName, reading, lexeme, Prod.mk.injEq, Lexeme.mk.injEq]
  tauto

theorem mem_freeWords_of_isName (ht : t ∈ tokens text) (h : t.IsName n) :
    n ∈ freeWords none ((tokens text).map (·.lexeme)) := by
  rw [freeWords, ← reading_tokens]
  refine List.mem_filterMap.2 ⟨t.reading, List.mem_map_of_mem ht, ?_⟩
  rw [Token.isName_iff.1 h]
  rfl

end Scan

namespace Transform

variable {a : Artifact} {o : Options} {path text n : String} {analysis : Analysis} {p : Plan} {out : Output}

namespace Plan

theorem mentions_apply (hanalyze : Scan.analyze o.marker path text = .ok analysis) (hbuild : build analysis a o = .ok p)
    (hlegible : Linked (Legible (analysis.imports.map (·.span))) none (tokens text)) :
    Mentions (p.apply text) n ↔ ∃ s ∈ p.shares text, s.token.IsName n := by
  have hmem : Mentions (p.apply text) n ↔ (⟨.word, n⟩, false) ∈ (tokens (p.apply text)).map (·.reading) := by
    simp only [Mentions, Token.isName_iff, List.mem_map]
  rw [hmem, reading_apply hanalyze hbuild hlegible, List.mem_map]
  simp only [Token.isName_iff]

/-- The names that are written are words of the templates. -/
theorem mem_vocabulary_of_written {t : Token} (hanalyze : Scan.analyze o.marker path text = .ok analysis)
    (hdrawn : Drawn o analysis p) (ht : .written t ∈ p.shares text) (hname : t.IsName n) : n ∈ vocabulary := by
  obtain ⟨before, after, hshares⟩ := List.append_of_mem ht
  obtain ⟨e, he, vs, ws, -, htext, -⟩ := exists_edit_of_written (show .written t :: after <:+ p.shares text from
    ⟨before, hshares.symm⟩)
  have hsettled := (fits_of_mem_sorted hanalyze hdrawn e he).settled
  exact hsettled.keeps_lexemes.words n (mem_freeWords_of_isName (by rw [htext]; simp) hname)

end Plan

/-- Of a legible text from which an import is removed, the result is free of a name of the import exactly if none of
the tokens that are kept or written is that name. What is written adds no names but words of the templates; whatever is
kept and uses the name keeps it. -/
theorem file_mentions (hsystem : o.systemPath ≠ some path) (h : file .scanner a o path text = .ok out) :
    ∃ analysis p, Scan.analyze o.marker path text = .ok analysis ∧ Plan.build analysis a o = .ok p ∧
      out = ofPlan p text ∧
      (Linked (Legible (analysis.imports.map (·.span))) none (tokens text) →
        ∀ i ∈ analysis.imports, i.span ∈ p.removedImports → ∀ s ∈ i.specifiers,
          (¬Mentions out.code s.localName ↔ ∀ share ∈ p.shares text, ¬share.token.IsName s.localName) ∧
            ∀ t, .written t ∈ p.shares text → t.IsName s.localName → s.localName ∈ vocabulary) := by
  obtain ⟨analysis, p, hanalyze, hbuild, rfl⟩ := (file_scanner_eq_ok_iff hsystem).1 h
  refine ⟨analysis, p, hanalyze, hbuild, rfl, fun hlegible i _ _ s _ => ⟨?_, fun t ht hname => ?_⟩⟩
  · rw [code_ofPlan hbuild, Plan.mentions_apply hanalyze hbuild hlegible]
    simp only [not_exists, not_and]
  · exact Plan.mem_vocabulary_of_written hanalyze (Plan.drawn_of_build hbuild) ht hname

/-- The marker is called, and the other name of its import is used besides. -/
def besides : String :=
  "import \x7b gql, schema \x7d from '@/graphql-system';\nconst a = gql.x(() => query.slice(\x7b\x7d));\nconst v = schema;"

/-- The call is replaced, and the import before it removed. -/
theorem shares_of_pair {e f : Text.Edit} (hedits : p.edits text = [e, f]) (hle : e.le f = false) :
    p.shares text = sharesFrom (tokens text) (Text.byteSize text.toList) 0 [f, e] := by
  rw [Plan.shares, hedits]
  simp [List.mergeSort, hle]

theorem besides_spec : (Scan.analyze inlining.marker "/a.ts" besides).toOption.any (fun analysis =>
    (Plan.build analysis sliced inlining).toOption.any fun p =>
      analysis.imports.any (fun i => i.span ∈ p.removedImports && i.specifiers.map (·.localName) = ["gql", "schema"]) &&
        decide (Linked (Legible (analysis.imports.map (·.span))) none (tokens besides)) &&
          match p.edits besides with
          | [e, f] =>
            let shares := sharesFrom (tokens besides) (Text.byteSize besides.toList) 0 [f, e]
            !e.le f && !shares.any (·.token.IsName "gql") && shares.any (·.token.IsName "schema")
          | _ => false) = true := by
  decide +kernel

theorem exists_besides : ∃ analysis p i, Scan.analyze inlining.marker "/a.ts" besides = .ok analysis ∧
    Plan.build analysis sliced inlining = .ok p ∧ i ∈ analysis.imports ∧ i.span ∈ p.removedImports ∧
      i.specifiers.map (·.localName) = ["gql", "schema"] ∧
        Linked (Legible (analysis.imports.map (·.span))) none (tokens besides) ∧
          (∀ share ∈ p.shares besides, ¬share.token.IsName "gql") ∧
            ∃ share ∈ p.shares besides, share.token.IsName "schema" := by
  obtain ⟨analysis, hanalyze, h⟩ := exists_of_any_toOption besides_spec
  obtain ⟨p, hplan, h⟩ := exists_of_any_toOption h
  simp only [Bool.and_eq_true, decide_eq_true_eq, List.any_eq_true] at h
  obtain ⟨⟨⟨i, hi, hremoved, hnames⟩, hlegible⟩, h⟩ := h
  split at h
  · rename_i e f hedits
    simp only [Bool.and_eq_true, Bool.not_eq_true', List.any_eq_true, List.any_eq_false, decide_eq_true_eq] at h
    obtain ⟨⟨hle, hgone⟩, hleft⟩ := h
    rw [← shares_of_pair hedits hle] at hgone hleft
    exact ⟨analysis, p, i, hanalyze, hplan, hi, hremoved, hnames, hlegible, hgone, hleft⟩
  · cases h

/-- Of the two names, the one that only the call uses is gone. -/
theorem file_mentions_besides : ∃ (out : Output) (p : Plan) (i : Import),
    file .scanner sliced inlining "/a.ts" besides = .ok out ∧ i.span ∈ p.removedImports ∧
      i.specifiers.map (·.localName) = ["gql", "schema"] ∧ ¬Mentions out.code "gql" ∧ Mentions out.code "schema" := by
  obtain ⟨analysis, p, i, hanalyze, hplan, hi, hremoved, hnames, hlegible, hgone, share, hshare, hleft⟩ := exists_besides
  have hout : file .scanner sliced inlining "/a.ts" besides = .ok (ofPlan p besides) :=
    (file_scanner_eq_ok_iff (by decide)).2 ⟨analysis, p, hanalyze, hplan, rfl⟩
  obtain ⟨analysis', p', hanalyze', hplan', -, hmentions⟩ := file_mentions (by decide) hout
  cases hanalyze.symm.trans hanalyze'
  cases hplan.symm.trans hplan'
  have hiff : ∀ n ∈ ["gql", "schema"], (¬Mentions (ofPlan p besides).code n ↔
      ∀ share ∈ p.shares besides, ¬share.token.IsName n) := by
    intro n hn
    rw [← hnames, List.mem_map] at hn
    obtain ⟨s, hs, rfl⟩ := hn
    exact (hmentions hlegible i hi hremoved s hs).1
  refine ⟨_, p, i, hout, hremoved, hnames, (hiff "gql" (by decide)).2 hgone, ?_⟩
  by_contra hnone
  exact (hiff "schema" (by decide)).1 hnone share hshare hleft

/-- The other name is used as before, and nothing binds it any more. -/
theorem mentions_removed_besides : ∃ (out : Output) (analysis : Analysis) (p : Plan) (i : Import) (s : Specifier),
    file .scanner sliced inlining "/a.ts" besides = .ok out ∧
      Scan.analyze inlining.marker "/a.ts" besides = .ok analysis ∧ Plan.build analysis sliced inlining = .ok p ∧
        i ∈ analysis.imports ∧ i.span ∈ p.removedImports ∧ s ∈ i.specifiers ∧ Mentions out.code s.localName := by
  obtain ⟨analysis, p, i, hanalyze, hplan, hi, hremoved, hnames, hlegible, -, hleft⟩ := exists_besides
  have hout : file .scanner sliced inlining "/a.ts" besides = .ok (ofPlan p besides) :=
    (file_scanner_eq_ok_iff (by decide)).2 ⟨analysis, p, hanalyze, hplan, rfl⟩
  have hschema : "schema" ∈ i.specifiers.map (·.localName) := by
    rw [hnames]
    decide
  obtain ⟨s, hs, hname⟩ := List.mem_map.1 hschema
  refine ⟨_, analysis, p, i, s, hout, hanalyze, hplan, hi, hremoved, hs, ?_⟩
  rw [code_ofPlan hplan, Plan.mentions_apply hanalyze hplan hlegible, hname]
  exact hleft

end Transform
end StaticGql
