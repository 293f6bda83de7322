import StaticGql.Proofs.Transform.Rendered
import StaticGql.Transform.File
import StaticGql.Transform.Plan

/-!
A transform of what a transform has made.
-/

namespace StaticGql.Transform

open Scan Text

variable {a : Artifact} {o : Options} {path text : String} {analysis : Analysis} {p : Plan} {out : Output}
  {ts : List Token} {size cursor : Nat} {edits : List Edit}

/-! ### Tokens kept and written -/

/-- A token that edits leave as it is, or one of what they write. -/
inductive Share where
  | kept (t : Token)
  | written (t : Token)
  deriving DecidableEq, Repr

def Share.token : Share → Token
  | kept t | written t => t

@[simp] theorem Share.token_kept (t : Token) : (kept t).token = t := rfl

@[simp] theorem Share.token_written (t : Token) : (written t).token = t := rfl

/-- What becomes of the tokens of a text as edits apply to it. -/
def sharesFrom (ts : List Token) (size cursor : Nat) : List Edit → List Share
  | [] => (behind ts cursor).map .kept
  | e :: edits =>
    if e.start < cursor ∨ size < e.stop then sharesFrom ts size cursor edits
    else (between ts cursor e.start).map .kept ++ (tokens e.text).map .written ++
      sharesFrom ts size e.stop edits

namespace Plan

def shares (p : Plan) (text : String) : List Share :=
  sharesFrom (tokens text) (byteSize text.toList) 0 ((p.edits text).mergeSort Edit.le)

/-- With the plan carried out, what is kept and what is written are cut into tokens as each is by itself. -/
def ReadsApart (p : Plan) (text : String) : Prop :=
  (tokens (p.apply text)).map (·.kind) = (p.shares text).map (·.token.kind)

instance (p : Plan) (text : String) : Decidable (p.ReadsApart text) :=
  inferInstanceAs (Decidable (_ = _))

end Plan

/-- What is written closes its brackets, as does what it stands in place of. -/
structure Fits (ts : List Token) (e : Edit) : Prop where
  range : Stretch ts e.start e.stop
  settled : Settled e.text.toList

/-- Edits that fit leave the brackets as they are. -/
theorem unclosed_sharesFrom (hts : Ordered ts) (h : ∀ e ∈ edits, Fits ts e) (stack : List TokenKind) :
    unclosed stack ((sharesFrom ts size cursor edits).map (·.token.kind)) =
      unclosed stack ((behind ts cursor).map (·.kind)) := by
  induction edits generalizing cursor stack with
  | nil => simp [sharesFrom, Function.comp_def]
  | cons e edits ih =>
      obtain ⟨he, hedits⟩ := List.forall_mem_cons.1 h
      rw [sharesFrom]
      split
      · exact ih hedits stack
      · rename_i happlied
        -- what is kept before the edit, what gives way to it, and what is behind it
        have hkept : behind ts cursor =
            between ts cursor e.start ++ between ts e.start e.stop ++ behind ts e.stop := by
          rw [behind_eq_append hts (show cursor ≤ e.start by omega), behind_eq_append hts he.range.le,
            List.append_assoc]
        rw [hkept]
        simp only [List.map_append, List.map_map, Function.comp_def, Share.token_kept, Share.token_written,
          List.append_assoc]
        rw [unclosed_append, unclosed_append]
        congr 1
        funext stack'
        rw [unclosed_append, unclosed_append, he.settled.wellNested, he.range.wellNested]
        exact ih hedits stack'

theorem suffix_of_kept {t : Token} {after rest : List Share} {us : List Token}
    (h : .written t :: after <:+ us.map .kept ++ rest) : .written t :: after <:+ rest := by
  induction us with
  | nil => exact h
  | cons u us ih =>
      rcases List.suffix_cons_iff.1 h with heq | h
      · cases heq
      · exact ih h

theorem suffix_of_written {t : Token} {after rest : List Share} {us : List Token}
    (h : .written t :: after <:+ us.map .written ++ rest) :
    (∃ vs ws, us = vs ++ t :: ws ∧ after = ws.map .written ++ rest) ∨ .written t :: after <:+ rest := by
  induction us with
  | nil => exact .inr h
  | cons u us ih =>
      rcases List.suffix_cons_iff.1 h with heq | h
      · cases heq
        exact .inl ⟨[], us, rfl, rfl⟩
      · refine (ih h).imp_left fun ⟨vs, ws, hus, hafter⟩ => ?_
        exact ⟨u :: vs, ws, by rw [hus, List.cons_append], hafter⟩

/-- Behind a written token come the others of its text. -/
theorem exists_edit_of_written {t : Token} {after : List Share}
    (h : .written t :: after <:+ sharesFrom ts size cursor edits) :
    ∃ e ∈ edits, ∃ vs ws rest, tokens e.text = vs ++ t :: ws ∧ after = ws.map .written ++ rest := by
  induction edits generalizing cursor with
  | nil =>
      rw [sharesFrom, ← List.append_nil (List.map _ _)] at h
      exact absurd (List.suffix_nil.1 (suffix_of_kept h)) (List.cons_ne_nil _ _)
  | cons e edits ih =>
      have hmore : .written t :: after <:+ sharesFrom ts size cursor edits ∨
          .written t :: after <:+ sharesFrom ts size e.stop edits →
          ∃ e' ∈ e :: edits, ∃ vs ws rest,
            tokens e'.text = vs ++ t :: ws ∧ after = ws.map .written ++ rest := by
        intro h
        obtain ⟨e', he', hrest⟩ := h.elim ih ih
        exact ⟨e', List.mem_cons_of_mem e he', hrest⟩
      rw [sharesFrom] at h
      split at h
      · exact hmore (.inl h)
      · rw [List.append_assoc] at h
        rcases suffix_of_written (suffix_of_kept h) with ⟨vs, ws, htext, hafter⟩ | h
        · exact ⟨e, by simp, vs, ws, _, htext, hafter⟩
        · exact hmore (.inr h)

/-! ### Plans -/

theorem stretch_pastBreak {start stop : Nat} (h : Stretch (tokens text) start stop) :
    Stretch (tokens text) start (Plan.pastBreak text.toList stop) := by
  have hnone : ∀ t ∈ tokens text, t.start < stop ∨ Plan.pastBreak text.toList stop ≤ t.start := by
    intro t ht
    by_contra hwithin
    -- the bytes more are a line break, and no token begins on one
    have hblank := fun c rest hdrop => @isBlank_of_dropBytes t text c rest ht hdrop
    rw [Plan.pastBreak] at hwithin
    split at hwithin
    · rename_i rest hdrop
      have hline := dropBytes?_step hdrop
      have hstart : t.start = stop ∨ t.start = stop + ('\r').utf8Size := by
        have hsize : ('\r').utf8Size = 1 := rfl
        omega
      rcases hstart with hstart | hstart
      · exact absurd (hblank _ _ (hstart ▸ hdrop)) (by decide)
      · exact absurd (hblank _ _ (hstart ▸ hline)) (by decide)
    · rename_i rest hdrop
      have hstart : t.start = stop := by omega
      exact absurd (hblank _ _ (hstart ▸ hdrop)) (by decide)
    · omega
  refine h.extend ?_ hnone
  rw [Plan.pastBreak]
  split
  · omega
  · omega
  · omega

namespace Plan

theorem settled_header (h : Drawn o analysis p) : ∀ s ∈ p.header, Settled s.toList := by
  intro s hs
  rcases h.header s hs with rfl | ⟨e, he⟩
  · exact settled_runtimeImport o
  · exact settled_hoisted o e s he

theorem fits_of_mem_headerEdit (h : Drawn o analysis p) : ∀ e ∈ p.headerEdit, Fits ts e := by
  have hheader := Settled.lines (settled_header h)
  intro e he
  rw [headerEdit] at he
  split at he
  · cases he
  · simp only at he
    split at he
    · rw [List.mem_singleton.1 he]
      exact ⟨.empty ts _, by simpa [Edit.insert] using Settled.line.append hheader⟩
    · rw [List.mem_singleton.1 he]
      exact ⟨.empty ts _, by simpa [Edit.insert] using hheader.append .line⟩

theorem fits_of_mem_edits (hanalyze : Scan.analyze o.marker path text = .ok analysis) (h : Drawn o analysis p) :
    ∀ e ∈ p.edits text, Fits (tokens text) e := by
  intro e he
  rw [edits, List.mem_append, List.mem_append] at he
  rcases he with (he | he) | he
  · obtain ⟨s, hs, rfl⟩ := List.mem_map.1 he
    obtain ⟨site, hsite, element, rfl⟩ := h.substitutions s hs
    exact ⟨stretch_of_site hanalyze hsite, settled_expression o element⟩
  · obtain ⟨span, hspan, rfl⟩ := List.mem_map.1 he
    obtain ⟨i, hi, rfl⟩ := h.removedImports span hspan
    exact ⟨stretch_pastBreak (stretch_of_import hanalyze hi), .nil⟩
  · exact fits_of_mem_headerEdit h e he

theorem fits_of_mem_sorted (hanalyze : Scan.analyze o.marker path text = .ok analysis)
    (h : Drawn o analysis p) : ∀ e ∈ (p.edits text).mergeSort Edit.le, Fits (tokens text) e :=
  fun e he => fits_of_mem_edits hanalyze h e (List.mem_mergeSort.1 he)

/-- What reads apart is accepted. -/
theorem exists_again (hanalyze : Scan.analyze o.marker path text = .ok analysis) (h : Drawn o analysis p)
    (hapart : p.ReadsApart text) : ∃ again, Scan.analyze o.marker path (p.apply text) = .ok again := by
  have hforest : ∃ f, forest (p.apply text) = .ok f := by
    obtain ⟨f, hf, -⟩ := map_eq_ok_iff.1 hanalyze
    rw [exists_forest_iff, hapart, shares,
      unclosed_sharesFrom (ordered_tokens text) (fits_of_mem_sorted hanalyze h), behind_zero]
    exact exists_forest_iff.1 ⟨f, hf⟩
  obtain ⟨f, hf⟩ := hforest
  exact ⟨_, map_eq_ok_iff.2 ⟨f, hf, rfl⟩⟩

/-- In what reads apart no declaration begins with a written token. -/
theorem exists_kept {again : Analysis} {site : Site} (hanalyze : Scan.analyze o.marker path text = .ok analysis)
    (h : Drawn o analysis p) (hapart : p.ReadsApart text)
    (hagain : Scan.analyze o.marker path (p.apply text) = .ok again) (hsite : site ∈ again.declarations) :
    ∃ t u, (t, Share.kept u) ∈ (tokens (p.apply text)).zip (p.shares text) ∧ t.start = site.span.start := by
  obtain ⟨before, t, after, htokens, hstart, hword, hnot⟩ := exists_word_of_site hagain hsite
  rw [ReadsApart, htokens, List.map_append, List.map_cons] at hapart
  obtain ⟨before', more, hshares, hbefore, hmore⟩ := List.map_eq_append_iff.1 hapart.symm
  obtain ⟨s, after', rfl, hs, hafter⟩ := List.map_eq_cons_iff.1 hmore
  cases s with
  | kept u =>
      refine ⟨t, u, ?_, hstart⟩
      rw [htokens, hshares, List.zip_append (by simpa using (congrArg List.length hbefore).symm)]
      simp
  | written w =>
      -- the whole of its text stands behind the word, so that what makes it inert there does so here
      have hsuffix : .written w :: after' <:+ p.shares text := ⟨before', hshares.symm⟩
      obtain ⟨e, he, vs, ws, rest, htext, rfl⟩ := exists_edit_of_written hsuffix
      have hquiet := (fits_of_mem_sorted hanalyze h e he).settled.quiet
      rw [htext, List.map_append, List.map_cons, show w.kind = .word from hs.trans hword] at hquiet
      have hinert := Inert.append (Quiet.inert hquiet (List.suffix_append _ _)) (rest.map (·.token.kind))
      rw [← hafter] at hnot
      simp only [List.map_append, List.map_map, Function.comp_def, Share.token_written] at hnot
      rw [hinert] at hnot
      cases hnot

theorem apply_of_idle (h : p.edits text = []) : p.apply text = text := by
  rw [apply, h, applyEdits, List.mergeSort_nil, applyFrom, slice?_whole]
  simp

end Plan

/-! ### Files -/

theorem file_scanner_eq_ok_iff (hsystem : o.systemPath ≠ some path) : file .scanner a o path text = .ok out ↔
    ∃ analysis p, Scan.analyze o.marker path text = .ok analysis ∧ Plan.build analysis a o = .ok p ∧
      out = ofPlan p text := by
  rw [file_eq_ok_iff hsystem]
  exact exists₂_congr fun _ _ => and_congr_left' mapError_eq_ok_iff

theorem file_of_analyze {marker : Marker} (h : Scan.analyze marker path text = .ok analysis) :
    analysis.file = path := by
  obtain ⟨f, -, rfl⟩ := map_eq_ok_iff.1 h
  rfl

theorem code_ofPlan (h : Plan.build analysis a o = .ok p) : (ofPlan p text).code = p.apply text := by
  obtain ⟨fates, hfrom⟩ := Plan.from_of_build h
  rw [ofPlan]
  split
  · rename_i hempty
    have hidle := hfrom.idle (List.isEmpty_iff.1 hempty)
    refine (Plan.apply_of_idle ?_).symm
    rw [Plan.edits, Plan.headerEdit, List.isEmpty_iff.1 hempty, hidle.1, hidle.2]
    rfl
  · rfl

/-- A text is left as it is exactly if every declaration in it stays. -/
theorem file_idle_iff (hsystem : o.systemPath ≠ some path) :
    (∃ errors, file .scanner a o path text = .ok ⟨text, false, errors⟩) ↔
      ∃ analysis, Scan.analyze o.marker path text = .ok analysis ∧
        ∀ site ∈ analysis.declarations, Plan.Stays a o path site := by
  constructor
  · rintro ⟨errors, h⟩
    obtain ⟨analysis, p, hanalyze, hplan, hout⟩ := (file_scanner_eq_ok_iff hsystem).1 h
    have hidle : p.substitutions = [] := by
      rw [ofPlan] at hout
      split at hout
      · exact List.isEmpty_iff.1 ‹_›
      · cases congrArg Output.transformed hout
    exact ⟨analysis, hanalyze, file_of_analyze hanalyze ▸ Plan.exists_idle_iff.1 ⟨p, hplan, hidle⟩⟩
  · rintro ⟨analysis, hanalyze, h⟩
    rw [← file_of_analyze hanalyze] at h
    obtain ⟨p, hplan, hidle⟩ := Plan.exists_idle_iff.2 h
    refine ⟨p.errors, (file_scanner_eq_ok_iff hsystem).2 ⟨analysis, p, hanalyze, hplan, ?_⟩⟩
    rw [ofPlan, hidle]
    rfl

/-- What a transform has made stays as it is under another, exactly if the scanner accepts it and every
declaration found in it stays. Where kept and written parts read apart, the scanner accepts it, and nothing
written is read as a declaration. -/
theorem file_again (hsystem : o.systemPath ≠ some path) (h : file .scanner a o path text = .ok out) :
    ((∃ errors, file .scanner a o path out.code = .ok ⟨out.code, false, errors⟩) ↔
      ∃ again, Scan.analyze o.marker path out.code = .ok again ∧
        ∀ site ∈ again.declarations, Plan.Stays a o path site) ∧
    ∃ analysis p, Scan.analyze o.marker path text = .ok analysis ∧ Plan.build analysis a o = .ok p ∧
      out = ofPlan p text ∧
      (p.ReadsApart text → ∃ again, Scan.analyze o.marker path out.code = .ok again ∧
        ∀ site ∈ again.declarations, ∃ t u, (t, Share.kept u) ∈ (tokens out.code).zip (p.shares text) ∧
          t.start = site.span.start) := by
  refine ⟨file_idle_iff hsystem, ?_⟩
  obtain ⟨analysis, p, hanalyze, hplan, rfl⟩ := (file_scanner_eq_ok_iff hsystem).1 h
  refine ⟨analysis, p, hanalyze, hplan, rfl, fun hapart => ?_⟩
  have hdrawn := Plan.drawn_of_build hplan
  obtain ⟨again, hagain⟩ := Plan.exists_again hanalyze hdrawn hapart
  rw [code_ofPlan hplan]
  exact ⟨again, hagain, fun site hsite => Plan.exists_kept hanalyze hdrawn hapart hagain hsite⟩

/-- An artifact with a slice and nothing else. -/
def sliced : Artifact := ⟨.ofList [("/a.ts::a", .slice ⟨"query", [], [], ∅, "", []⟩)], ⟨0, [], .zero⟩⟩

def inlining : Options := { Options.standard with mode := .zeroRuntime }

/-- Two declarations, the first of which is in the artifact. -/
def halfKnown : String :=
  "const a = gql.x(() => query.slice(\x7b\x7d));\nconst b = gql.x(() => query.slice(\x7b\x7d));"

theorem halfKnown_spec : (Scan.analyze inlining.marker "/a.ts" halfKnown).toOption.any (fun analysis =>
    (Plan.build analysis sliced inlining).toOption.any fun p => p.substitutions.length = 1 && p.ReadsApart halfKnown &&
      (Scan.analyze inlining.marker "/a.ts" (p.apply halfKnown)).toOption.any fun again =>
        again.declarations.length = 1) = true := by
  decide +kernel

theorem exists_halfKnown : ∃ analysis p again, Scan.analyze inlining.marker "/a.ts" halfKnown = .ok analysis ∧
    Plan.build analysis sliced inlining = .ok p ∧ p.substitutions.length = 1 ∧ p.ReadsApart halfKnown ∧
      Scan.analyze inlining.marker "/a.ts" (p.apply halfKnown) = .ok again ∧ again.declarations.length = 1 := by
  obtain ⟨analysis, hanalyze, h⟩ := exists_of_any_toOption halfKnown_spec
  obtain ⟨p, hplan, h⟩ := exists_of_any_toOption h
  simp only [Bool.and_eq_true, decide_eq_true_eq] at h
  obtain ⟨⟨hone, hapart⟩, h⟩ := h
  obtain ⟨again, hagain, hlength⟩ := exists_of_any_toOption h
  exact ⟨analysis, p, again, hanalyze, hplan, hone, hapart, hagain, of_decide_eq_true hlength⟩

/-- The second declaration, which is left where it is, is what is found again. -/
theorem file_again_halfKnown : ∃ (out : Output) (p : Plan) (again : Analysis),
    file .scanner sliced inlining "/a.ts" halfKnown = .ok out ∧ p.substitutions.length = 1 ∧
      p.ReadsApart halfKnown ∧ Scan.analyze inlining.marker "/a.ts" out.code = .ok again ∧
        again.declarations.length = 1 ∧
        ((∃ errors, file .scanner sliced inlining "/a.ts" out.code = .ok ⟨out.code, false, errors⟩) ↔
          ∃ again, Scan.analyze inlining.marker "/a.ts" out.code = .ok again ∧
            ∀ site ∈ again.declarations, Plan.Stays sliced inlining "/a.ts" site) ∧
        ∀ site ∈ again.declarations, ∃ t u, (t, Share.kept u) ∈ (tokens out.code).zip (p.shares halfKnown) ∧
          t.start = site.span.start := by
  obtain ⟨analysis, p, again, hanalyze, hplan, hone, hapart, hagain, hlength⟩ := exists_halfKnown
  have hout : file .scanner sliced inlining "/a.ts" halfKnown = .ok (ofPlan p halfKnown) :=
    (file_scanner_eq_ok_iff (by decide)).2 ⟨analysis, p, hanalyze, hplan, rfl⟩
  obtain ⟨hiff, analysis', p', hanalyze', hplan', hcode, hkept⟩ := file_again (by decide) hout
  rw [← code_ofPlan hplan] at hagain
  cases hanalyze.symm.trans hanalyze'
  cases hplan.symm.trans hplan'
  obtain ⟨again', hagain', hsites⟩ := hkept hapart
  cases hagain.symm.trans hagain'
  exact ⟨_, p, again, hout, hone, hapart, hagain, hlength, hiff, hsites⟩

/-- Two declarations of one value, of which again the artifact has the first. -/
def paired : String := "const a = [gql.x(() => query.slice(\x7b\x7d)), gql.x(() => query.slice(\x7b\x7d))];"

theorem paired_spec : (file .scanner sliced inlining "/a.ts" paired).toOption.any (fun out =>
    (file .scanner sliced inlining "/a.ts" out.code).toOption.any fun out' => out'.code ≠ out.code) = true := by
  decide +kernel

/-- With the first call gone, the second one goes by its name and is replaced in its turn. -/
theorem file_again_paired : ∃ out out', file .scanner sliced inlining "/a.ts" paired = .ok out ∧
    file .scanner sliced inlining "/a.ts" out.code = .ok out' ∧ out'.code ≠ out.code := by
  have h := paired_spec
  cases hout : file .scanner sliced inlining "/a.ts" paired with
  | error => simp [hout, Except.toOption] at h
  | ok out =>
      cases hout' : file .scanner sliced inlining "/a.ts" out.code with
      | error => simp [hout, hout', Except.toOption] at h
      | ok out' => exact ⟨out, out', rfl, hout', by simpa [hout, hout', Except.toOption] using h⟩

/-- A slice whose printed text holds a slash, and a division without a dividend. -/
def slashed : Artifact := ⟨.ofList [("/a.ts::a", .slice ⟨"query", [], [], ∅, "/\"", []⟩)], ⟨0, [], .zero⟩⟩

def undivided : String := "const a = / gql.x(() => query.slice(\x7b\x7d));"

theorem undivided_spec : (file .scanner slashed inlining "/a.ts" undivided).toOption.any (fun out =>
    (file .scanner slashed inlining "/a.ts" out.code).toOption.isNone) = true := by
  decide +kernel

/-- Not everything reads apart: here the slash that is kept opens a regular expression, which ends at the one
that is written, and the scanner does not accept what the transform has made. -/
theorem not_accepted_undivided : ∃ out, file .scanner slashed inlining "/a.ts" undivided = .ok out ∧
    ∀ out', file .scanner slashed inlining "/a.ts" out.code ≠ .ok out' := by
  have h := undivided_spec
  cases hout : file .scanner slashed inlining "/a.ts" undivided with
  | error => simp [hout, Except.toOption] at h
  | ok out =>
      refine ⟨out, rfl, fun out' hout' => ?_⟩
      simp [hout, hout', Except.toOption] at h

end StaticGql.Transform
