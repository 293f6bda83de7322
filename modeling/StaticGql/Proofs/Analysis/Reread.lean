import StaticGql.Analysis.Codec
import StaticGql.Cache.Codec
import StaticGql.Proofs.Element.Alike
import StaticGql.Proofs.Json.Plain

/-!
Analyses that were written and read again are the same but for the numbers in the options of their
declarations, and for the order of those options. So a cache that was stored and is loaded again has the same
entries, apart from numbers in options, or it is empty.
-/

namespace StaticGql

open Json

/-! ### Blurred analyses -/

/-- A builder as far as its text keeps it, with its options in order. -/
def Builder.blur (b : Builder) : Builder :=
  { b with options := ((Dict.ofList b.options).map fun _ v => v.sorted.blur).entries }

def Site.blur (s : Site) : Site := { s with builder := s.builder.blur }

def Analysis.blur (a : Analysis) : Analysis := { a with declarations := a.declarations.map Site.blur }

theorem Builder.blur_eq {b b' : Builder} (hcallee : b.callee = b'.callee) (h : b.Alike b') :
    b.blur = b'.blur := by
  have hoptions := congrArg Dict.entries h.options.fields
  rw [blur, blur, hcallee, h.typename, h.operationType, hoptions]

theorem Builder.alike_of_blur {b b' : Builder} (h : b.blur = b'.blur) : b.Alike b' := by
  rw [blur, blur, Builder.mk.injEq] at h
  obtain ⟨-, htypename, hoperation, hoptions⟩ := h
  refine ⟨htypename, hoperation, ?_⟩
  rw [Json.Alike, blur_sorted_obj, blur_sorted_obj, hoptions]

theorem Builder.alike_blur (b : Builder) : b.blur.Alike b := by
  refine ⟨rfl, rfl, ?_⟩
  show (obj ((Dict.ofList b.options).map fun _ v => v.sorted.blur).entries).Alike (obj b.options)
  rw [← blur_sorted_obj]
  exact alike_blur_sorted _

/-! ### Reading what was written -/

theorem Span.reverts : Reverts Span.toJson Span.ofJson? Eq := by
  intro s s' j hj hread
  have hrecord : record shape s.toJson =
      some [some (nat s.start), some (nat s.stop), some (nat s.line), some (nat s.column)] := rfl
  obtain ⟨os, hos, hall⟩ := exists_record hj hrecord
  simp only [List.forall₂_cons_right_iff, List.forall₂_nil_right_iff] at hall
  obtain ⟨o₁, _, h₁, ⟨o₂, _, h₂, ⟨o₃, _, h₃, ⟨o₄, _, h₄, rfl, rfl⟩, rfl⟩, rfl⟩, rfl⟩ := hall
  rw [ofJson?, hos] at hread
  simp only [Option.bind_eq_bind, Option.bind_some, Option.bind_eq_some_iff, Option.some.injEq] at hread
  obtain ⟨start, hstart, stop, hstop, line, hline, column, hcolumn, rfl⟩ := hread
  rw [reverts_word.needed h₁ hstart, reverts_word.needed h₂ hstop, reverts_word.needed h₃ hline,
    reverts_word.needed h₄ hcolumn]

theorem Specifier.reverts : Reverts Specifier.toJson Specifier.ofJson? Eq := by
  intro s s' j hj hread
  have hrecord : record [("local", .required), ("imported", .required)] s.toJson =
      some [some (str s.localName), some (str s.imported)] := rfl
  obtain ⟨os, hos, hall⟩ := exists_record hj hrecord
  simp only [List.forall₂_cons_right_iff, List.forall₂_nil_right_iff] at hall
  obtain ⟨o₁, _, h₁, ⟨o₂, _, h₂, rfl, rfl⟩, rfl⟩ := hall
  rw [ofJson?, hos] at hread
  simp only [Option.bind_eq_bind, Option.bind_some, Option.bind_eq_some_iff, Option.some.injEq] at hread
  obtain ⟨localName, hlocal, imported, himported, rfl⟩ := hread
  rw [reverts_str.needed h₁ hlocal, reverts_str.needed h₂ himported]

theorem Import.reverts : Reverts Import.toJson Import.ofJson? Eq := by
  intro i i' j hj hread
  have hrecord : record [("source", .required), ("specifiers", .required), ("span", .required)]
      i.toJson = some [some (str i.source), some (arr (i.specifiers.map Specifier.toJson)),
        some i.span.toJson] := rfl
  obtain ⟨os, hos, hall⟩ := exists_record hj hrecord
  simp only [List.forall₂_cons_right_iff, List.forall₂_nil_right_iff] at hall
  obtain ⟨o₁, _, h₁, ⟨o₂, _, h₂, ⟨o₃, _, h₃, rfl, rfl⟩, rfl⟩, rfl⟩ := hall
  rw [ofJson?, hos] at hread
  simp only [Option.bind_eq_bind, Option.bind_some, Option.bind_eq_some_iff, Option.some.injEq] at hread
  obtain ⟨source, hsource, specifiers, hspecifiers, span, hspan, rfl⟩ := hread
  have hall := Specifier.reverts.listOf.needed h₂ hspecifiers
  rw [List.forall₂_eq_eq_eq] at hall
  rw [reverts_str.needed h₁ hsource, hall, Span.reverts.needed h₃ hspan]

theorem Export.reverts : Reverts Export.toJson Export.ofJson? Eq := by
  intro e e' j hj hread
  rw [ofJson?] at hread
  obtain ⟨⟨kind, body⟩, htagged, hread⟩ := Option.bind_eq_some_iff.1 hread
  cases e with
  | named e l =>
      obtain ⟨rfl, hbody⟩ := tagged_spec (by simp) hj htagged
      have hrecord : record [("exported", .required), ("local", .required)]
          (obj [("exported", str e), ("local", str l)]) = some [some (str e), some (str l)] := rfl
      obtain ⟨os, hos, hall⟩ := exists_record hbody hrecord
      simp only [List.forall₂_cons_right_iff, List.forall₂_nil_right_iff] at hall
      obtain ⟨o₁, _, h₁, ⟨o₂, _, h₂, rfl, rfl⟩, rfl⟩ := hall
      simp only [if_true, hos, Option.bind_eq_bind, Option.bind_some, Option.bind_eq_some_iff,
        Option.some.injEq] at hread
      obtain ⟨exported, hexported, localName, hlocal, rfl⟩ := hread
      rw [reverts_str.needed h₁ hexported, reverts_str.needed h₂ hlocal]
  | reExport e i s =>
      obtain ⟨rfl, hbody⟩ := tagged_spec (by simp) hj htagged
      have hrecord : record [("exported", .required), ("imported", .required), ("source", .required)]
          (obj [("exported", str e), ("imported", str i), ("source", str s)]) =
            some [some (str e), some (str i), some (str s)] := rfl
      obtain ⟨os, hos, hall⟩ := exists_record hbody hrecord
      simp only [List.forall₂_cons_right_iff, List.forall₂_nil_right_iff] at hall
      obtain ⟨o₁, _, h₁, ⟨o₂, _, h₂, ⟨o₃, _, h₃, rfl, rfl⟩, rfl⟩, rfl⟩ := hall
      have hkind : ¬("reExport" = "local") := by decide
      simp only [if_neg hkind, if_true, hos, Option.bind_eq_bind, Option.bind_some,
        Option.bind_eq_some_iff, Option.some.injEq] at hread
      obtain ⟨exported, hexported, imported, himported, source, hsource, rfl⟩ := hread
      rw [reverts_str.needed h₁ hexported, reverts_str.needed h₂ himported,
        reverts_str.needed h₃ hsource]
  | reExportAll s =>
      obtain ⟨rfl, hbody⟩ := tagged_spec (by simp) hj htagged
      have hrecord : record [("source", .required)] (obj [("source", str s)]) = some [some (str s)] := rfl
      obtain ⟨os, hos, hall⟩ := exists_record hbody hrecord
      simp only [List.forall₂_cons_right_iff, List.forall₂_nil_right_iff] at hall
      obtain ⟨o₁, _, h₁, rfl, rfl⟩ := hall
      have hkind : ¬("reExportAll" = "local") := by decide
      have hkind' : ¬("reExportAll" = "reExport") := by decide
      simp only [if_neg hkind, if_neg hkind', if_true, hos, Option.bind_eq_bind, Option.bind_some,
        Option.bind_eq_some_iff, Option.some.injEq] at hread
      obtain ⟨source, hsource, rfl⟩ := hread
      rw [reverts_str.needed h₁ hsource]

theorem Kind.reverts : Reverts (fun k : Kind => str k.name) Kind.ofJson? Eq := by
  refine reverts_constant fun k => ?_
  cases k <;> rfl

theorem Builder.reverts :
    Reverts Builder.toJson Builder.ofJson? fun b' b => b'.blur = b.blur := by
  intro b b' j hj hread
  have hrecord : record shape b.toJson = some [some (strs b.callee), b.typename.map str,
      b.operationType.map str, some (obj b.options)] := by
    rw [toJson]
    cases b.typename <;> cases b.operationType <;> rfl
  obtain ⟨os, hos, hall⟩ := exists_record hj hrecord
  simp only [List.forall₂_cons_right_iff, List.forall₂_nil_right_iff] at hall
  obtain ⟨o₁, _, h₁, ⟨o₂, _, h₂, ⟨o₃, _, h₃, ⟨o₄, _, h₄, rfl, rfl⟩, rfl⟩, rfl⟩, rfl⟩ := hall
  rw [ofJson?, hos] at hread
  simp only [Option.bind_eq_bind, Option.bind_some, Option.bind_eq_some_iff, Option.some.injEq] at hread
  obtain ⟨callee, hcallee, typename, htypename, operationType, hoperation, options, hoptions, rfl⟩ :=
    hread
  apply blur_eq (reverts_strs.needed h₁ hcallee)
  refine ⟨optional_str h₂ htypename, optional_str h₃ hoperation, ?_⟩
  cases h₄ with
  | @some j _ hj =>
      obtain ⟨fields, rfl, -⟩ := exists_fields hj
      have hsorted : obj options = (obj fields).sorted := by
        rw [withDefault, options?, sorted, asObj?, Option.some.injEq] at hoptions
        rw [sorted, hoptions]
      show (obj options).Alike (obj b.options)
      rw [hsorted]
      exact (alike_sorted _).trans (alike_of_plain hj)

theorem Site.reverts : Reverts Site.toJson Site.ofJson? fun s' s => s'.blur = s.blur := by
  intro s s' j hj hread
  have hrecord : record shape s.toJson = some [some (str s.structuralPath), some (str s.kind.name),
      some s.builder.toJson, some (strs s.references), some (bool s.isTopLevel),
      s.exportBinding.map str, some s.span.toJson] := by
    rw [toJson]
    cases s.exportBinding <;> rfl
  obtain ⟨os, hos, hall⟩ := exists_record hj hrecord
  simp only [List.forall₂_cons_right_iff, List.forall₂_nil_right_iff] at hall
  obtain ⟨o₁, _, h₁, ⟨o₂, _, h₂, ⟨o₃, _, h₃, ⟨o₄, _, h₄, ⟨o₅, _, h₅, ⟨o₆, _, h₆, ⟨o₇, _, h₇, rfl, rfl⟩,
    rfl⟩, rfl⟩, rfl⟩, rfl⟩, rfl⟩, rfl⟩ := hall
  rw [ofJson?, hos] at hread
  simp only [Option.bind_eq_bind, Option.bind_some, Option.bind_eq_some_iff, Option.some.injEq] at hread
  obtain ⟨path, hpath, kind, hkind, builder, hbuilder, references, hreferences, isTopLevel, htop,
    binding, hbinding, span, hspan, rfl⟩ := hread
  rw [blur, blur, Site.mk.injEq]
  exact ⟨reverts_str.needed h₁ hpath, Kind.reverts.needed h₂ hkind, Builder.reverts.needed h₃ hbuilder,
    reverts_strs.needed h₄ hreferences, reverts_bool.needed h₅ htop, optional_str h₆ hbinding,
    Span.reverts.needed h₇ hspan⟩

theorem Diagnostic.reverts : Reverts Diagnostic.toJson Diagnostic.ofJson? Eq := by
  intro d d' j hj hread
  have hrecord : record [("code", .required), ("message", .required), ("span", .required)]
      d.toJson = some [some (str d.code.name), some (str d.message), some d.span.toJson] := rfl
  obtain ⟨os, hos, hall⟩ := exists_record hj hrecord
  simp only [List.forall₂_cons_right_iff, List.forall₂_nil_right_iff] at hall
  obtain ⟨o₁, _, h₁, ⟨o₂, _, h₂, ⟨o₃, _, h₃, rfl, rfl⟩, rfl⟩, rfl⟩ := hall
  rw [ofJson?, hos] at hread
  simp only [Option.bind_eq_bind, Option.bind_some, Option.bind_eq_some_iff, Option.some.injEq] at hread
  obtain ⟨code, hcode, message, hmessage, span, hspan, rfl⟩ := hread
  have hname : ∀ c : DiagnosticCode, DiagnosticCode.ofName? c.name = some c := by
    intro c
    cases c <;> rfl
  rw [(reverts_constant hname).needed h₁ hcode, reverts_str.needed h₂ hmessage,
    Span.reverts.needed h₃ hspan]

theorem Analysis.reverts :
    Reverts Analysis.toJson Analysis.ofJson? fun a' a => a'.blur = a.blur := by
  intro a a' j hj hread
  have hrecord : record shape a.toJson = some [some (str a.file),
      some (arr (a.imports.map Import.toJson)), some (arr (a.exports.map Export.toJson)),
      some (arr (a.declarations.map Site.toJson)),
      some (arr (a.diagnostics.map Diagnostic.toJson))] := rfl
  obtain ⟨os, hos, hall⟩ := exists_record hj hrecord
  simp only [List.forall₂_cons_right_iff, List.forall₂_nil_right_iff] at hall
  obtain ⟨o₁, _, h₁, ⟨o₂, _, h₂, ⟨o₃, _, h₃, ⟨o₄, _, h₄, ⟨o₅, _, h₅, rfl, rfl⟩, rfl⟩, rfl⟩, rfl⟩,
    rfl⟩ := hall
  rw [ofJson?, hos] at hread
  simp only [Option.bind_eq_bind, Option.bind_some, Option.bind_eq_some_iff, Option.some.injEq] at hread
  obtain ⟨file, hfile, imports, himports, exports, hexports, declarations, hdeclarations, diagnostics,
    hdiagnostics, rfl⟩ := hread
  have himports := Import.reverts.listOf.needed h₂ himports
  have hexports := Export.reverts.listOf.needed h₃ hexports
  have hdeclarations := Site.reverts.listOf.needed h₄ hdeclarations
  have hdiagnostics := Diagnostic.reverts.listOf.needed h₅ hdiagnostics
  rw [List.forall₂_eq_eq_eq] at himports hexports hdiagnostics
  have hblur : declarations.map Site.blur = a.declarations.map Site.blur := by
    rw [← List.forall₂_eq_eq_eq, List.forall₂_map_left_iff, List.forall₂_map_right_iff]
    exact hdeclarations
  rw [blur, blur, Analysis.mk.injEq]
  exact ⟨reverts_str.needed h₁ hfile, himports, hexports, hblur, hdiagnostics⟩

/-! ### Caches -/

def CacheEntry.blur (e : CacheEntry) : CacheEntry := { e with analysis := e.analysis.blur }

theorem Fingerprint.reverts : Reverts Fingerprint.toJson Fingerprint.ofJson? Eq := by
  intro f f' j hj hread
  have hrecord : record shape f.toJson =
      some [some (str f.hash), some (nat f.modified), some (nat f.size)] := rfl
  obtain ⟨os, hos, hall⟩ := exists_record hj hrecord
  simp only [List.forall₂_cons_right_iff, List.forall₂_nil_right_iff] at hall
  obtain ⟨o₁, _, h₁, ⟨o₂, _, h₂, ⟨o₃, _, h₃, rfl, rfl⟩, rfl⟩, rfl⟩ := hall
  rw [ofJson?, hos] at hread
  simp only [Option.bind_eq_bind, Option.bind_some, Option.bind_eq_some_iff, Option.some.injEq] at hread
  obtain ⟨hash, hhash, modified, hmodified, size, hsize, rfl⟩ := hread
  rw [reverts_str.needed h₁ hhash, reverts_word.needed h₂ hmodified, reverts_word.needed h₃ hsize]

theorem CacheEntry.reverts :
    Reverts CacheEntry.toJson CacheEntry.ofJson? fun e' e => e'.blur = e.blur := by
  intro e e' j hj hread
  have hrecord : record shape e.toJson = some [some e.fingerprint.toJson, some e.analysis.toJson,
      some (strs (e.ids.map (·.text)))] := rfl
  obtain ⟨os, hos, hall⟩ := exists_record hj hrecord
  simp only [List.forall₂_cons_right_iff, List.forall₂_nil_right_iff] at hall
  obtain ⟨o₁, _, h₁, ⟨o₂, _, h₂, ⟨o₃, _, h₃, rfl, rfl⟩, rfl⟩, rfl⟩ := hall
  rw [ofJson?, hos] at hread
  simp only [Option.bind_eq_bind, Option.bind_some, Option.bind_eq_some_iff, Option.some.injEq] at hread
  obtain ⟨fingerprint, hfingerprint, analysis, hanalysis, ids, hids, rfl⟩ := hread
  have hmap : (e.ids.map (·.text)).map CanonicalId.mk = e.ids :=
    (List.map_map ..).trans (List.map_id' _)
  rw [blur, blur, CacheEntry.mk.injEq]
  refine ⟨Fingerprint.reverts.needed h₁ hfingerprint, Analysis.reverts.needed h₂ hanalysis, ?_⟩
  rw [reverts_strs.needed h₃ hids, hmap]

namespace Cache

theorem reverts_entries :
    Reverts (fun d : Dict CacheEntry => obj (d.toList.map fun (path, e) => (path, e.toJson)))
      entriesOfJson? fun d' d => d'.map (fun _ => CacheEntry.blur) = d.map fun _ => CacheEntry.blur := by
  intro d d' j hj hread
  obtain ⟨fields, rfl, hfields⟩ := exists_fields hj
  obtain ⟨l, hl, rfl⟩ := Option.map_eq_some_iff.1 hread
  have hblur : l.map (fun e => (e.1, e.2.blur)) = d.toList.map fun e => (e.1, e.2.blur) := by
    clear hj hread
    rw [List.forall₂_map_right_iff] at hfields
    generalize d.toList = entries at hfields
    induction hfields generalizing l with
    | nil =>
        cases hl
        rfl
    | @cons f e fields rest hf _ ih =>
        rw [List.mapM_cons] at hl
        obtain ⟨e', he', hl⟩ := Option.bind_eq_some_iff.1 hl
        obtain ⟨rest', hrest', hl⟩ := Option.bind_eq_some_iff.1 hl
        obtain ⟨entry, hentry, rfl⟩ := Option.map_eq_some_iff.1 he'
        cases hl
        rw [List.map_cons, List.map_cons, ih rest' hrest', hf.1]
        rw [CacheEntry.reverts e.2 entry f.2 hf.2 hentry]
  rw [Dict.map_ofList, hblur, ← Dict.toList_map, Dict.ofList_toList]

/-- What is loaded of a stored cache. -/
theorem ofText_text (c : Cache) (key : String) : ofText key c.text = .empty key ∨
    c.key = key ∧ (ofText key c.text).key = key ∧
      (ofText key c.text).entries.map (fun _ => CacheEntry.blur) =
        c.entries.map fun _ => CacheEntry.blur := by
  rw [ofText]
  cases hread : ((Json.parse? c.text).bind ofJson?).filter (·.key = key) with
  | none => exact .inl rfl
  | some c' =>
      refine .inr ?_
      obtain ⟨hread, hkey⟩ := Option.filter_eq_some_iff.1 hread
      obtain ⟨j, hparse, hread⟩ := Option.bind_eq_some_iff.1 hread
      have hj : j.plain = c.toJson.plain := (parse?_compact c.toJson).same j hparse
      have hrecord : record [("version", .required), ("key", .required), ("entries", .required)]
          c.toJson = some [some (nat version), some (str c.key),
            some (obj (c.entries.toList.map fun (path, e) => (path, e.toJson)))] := rfl
      obtain ⟨os, hos, hall⟩ := exists_record hj hrecord
      simp only [List.forall₂_cons_right_iff, List.forall₂_nil_right_iff] at hall
      obtain ⟨o₁, _, -, ⟨o₂, _, h₂, ⟨o₃, _, h₃, rfl, rfl⟩, rfl⟩, rfl⟩ := hall
      rw [ofJson?, hos] at hread
      simp only [Option.bind_eq_bind, Option.bind_some, Option.bind_eq_some_iff] at hread
      obtain ⟨v, -, k, hk, entries, hentries, hread⟩ := hread
      split at hread
      · cases hread
        have hkey : k = key := of_decide_eq_true hkey
        exact ⟨(reverts_str.needed h₂ hk).symm.trans hkey, hkey, reverts_entries.needed h₃ hentries⟩
      · cases hread

end Cache
end StaticGql
