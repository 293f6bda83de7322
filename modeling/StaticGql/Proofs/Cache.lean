import StaticGql.Proofs.Analysis.Exact
import StaticGql.Proofs.Path
import StaticGql.Session

/-!
Caches stored and loaded. A cache comes back as it was under its own key, unless an option in it nests so
deep that its text is not read at all; whatever else is found in its place counts as an empty cache.
-/

namespace StaticGql

open Json

/-! ### Entries that come back -/

structure Fingerprint.IsSized (f : Fingerprint) : Prop where
  modified : IsWord f.modified
  size : IsWord f.size

namespace Fingerprint

variable {f : Fingerprint}

theorem ofJson?_toJson (h : f.IsSized) : ofJson? f.toJson = some f := by
  have hrecord : record shape f.toJson = some [some (str f.hash), some (nat f.modified), some (nat f.size)] := rfl
  rw [ofJson?, hrecord]
  simp [needed, asStr?, word_nat_self h.modified, word_nat_self h.size]

theorem fits_toJson (h : f.IsSized) : allNumbers Number.fits f.toJson = true := by
  simp [toJson, allNumbers_obj, allNumbers_str, fits_nat h.modified, fits_nat h.size]

theorem height_toJson (f : Fingerprint) (depth : Nat) : height f.toJson ≤ depth + 1 := by
  simp [toJson, height_obj_le_iff, height_str, height_nat]

end Fingerprint

structure CacheEntry.Storable (e : CacheEntry) : Prop where
  fingerprint : e.fingerprint.IsSized
  analysis : e.analysis.Storable

namespace CacheEntry

variable {e : CacheEntry} {depth : Nat}

theorem ofJson?_toJson (h : e.Storable) : ofJson? e.toJson = some e := by
  have hrecord : record shape e.toJson = some [some e.fingerprint.toJson, some e.analysis.toJson,
      some (strs (e.ids.map (·.text)))] := rfl
  have hids : (e.ids.map (·.text)).map CanonicalId.mk = e.ids := (List.map_map ..).trans (List.map_id' _)
  rw [ofJson?, hrecord]
  simp only [needed, Fingerprint.ofJson?_toJson h.fingerprint, Analysis.ofJson?_toJson h.analysis, listOf_strs,
    Option.bind_eq_bind, Option.bind_some, hids]

theorem fits_toJson (h : e.Storable) : allNumbers Number.fits e.toJson = true := by
  simp [toJson, allNumbers_obj, allNumbers_strs, Fingerprint.fits_toJson h.fingerprint,
    Analysis.fits_toJson h.analysis]

theorem height_toJson_le_iff : height e.toJson ≤ depth + 6 ↔ e.analysis.Nests depth := by
  simp [toJson, height_obj_le_iff, height_strs, Analysis.height_toJson_le_iff, Fingerprint.height_toJson]

end CacheEntry

namespace Cache

/-- What the types of a cache promise and a text keeps: counts and times of sixty-four bits, options in order
with small integers for numbers. -/
def Storable (c : Cache) : Prop := ∀ e ∈ c.entries.values, e.Storable

/-- The options of all declarations nest at most so deep. -/
def Nests (depth : Nat) (c : Cache) : Prop := ∀ e ∈ c.entries.values, e.analysis.Nests depth

variable {c : Cache} {key text : String} {depth : Nat}

theorem ofJson?_toJson (h : c.Storable) : ofJson? c.toJson = some c := by
  have hrecord : record [("version", .required), ("key", .required), ("entries", .required)] c.toJson =
      some [some (nat version), some (str c.key),
        some (obj (c.entries.toList.map fun e => (e.1, e.2.toJson)))] := rfl
  have hentries : entriesOfJson? (obj (c.entries.toList.map fun e => (e.1, e.2.toJson))) = some c.entries :=
    mapM_fields_of_mem c.entries fun e he => CacheEntry.ofJson?_toJson (h e.2 (List.mem_map_of_mem he))
  have hversion : word (nat version) = some version := rfl
  rw [ofJson?, hrecord]
  simp [needed, asStr?, hversion, hentries]

theorem fits_toJson (h : c.Storable) : allNumbers Number.fits c.toJson = true := by
  simp only [toJson, allNumbers_obj, List.forall_mem_cons, List.forall_mem_map]
  exact ⟨rfl, rfl, fun e he => CacheEntry.fits_toJson (h e.2 (List.mem_map_of_mem he)), nofun⟩

theorem height_toJson_le_iff : height c.toJson ≤ depth + 8 ↔ c.Nests depth := by
  simp only [toJson, height_obj_le_iff, List.forall_mem_cons, List.forall_mem_map, CacheEntry.height_toJson_le_iff]
  constructor
  · rintro ⟨-, -, hentries, -⟩ e he
    obtain ⟨q, hq, rfl⟩ := List.mem_map.1 he
    exact hentries q hq
  · exact fun h => ⟨height_nat _, height_str _, fun e he => h e.2 (List.mem_map_of_mem he), nofun⟩

/-- The deepest that an option may nest in a cache that is read. -/
def maxOptionDepth : Nat := maxDepth - 8

theorem height_toJson_le_maxDepth_iff : height c.toJson ≤ maxDepth ↔ c.Nests maxOptionDepth := height_toJson_le_iff

theorem parse?_text (h : c.Storable) (hnests : c.Nests maxOptionDepth) : Json.parse? c.text = some c.toJson := by
  rw [text, parse?_compact_eq (fits_toJson h), if_pos (height_toJson_le_maxDepth_iff.2 hnests)]

theorem parse?_text_of_deep (h : c.Storable) (hdeep : ¬c.Nests maxOptionDepth) : Json.parse? c.text = none := by
  rw [text, parse?_compact_eq (fits_toJson h), if_neg (mt height_toJson_le_maxDepth_iff.1 hdeep)]

/-! ### Any text -/

/-- The text has the form of a cache, with such a version, key and entries. -/
def Written (text : String) (v : Nat) (key : String) (entries : Dict CacheEntry) : Prop :=
  ∃ j found, Json.parse? text = some j ∧
    record [("version", .required), ("key", .required), ("entries", .required)] j = some found ∧
      ∃ v' key' entries', found = [v', key', entries'] ∧ needed word v' = some v ∧
        needed asStr? key' = some key ∧ needed entriesOfJson? entries' = some entries

theorem ofText_of_written {key' : String} {v : Nat} {entries : Dict CacheEntry} (h : Written text v key' entries)
    (key : String) : ofText key text = if v = version ∧ key' = key then ⟨key, entries⟩ else .empty key := by
  obtain ⟨j, found, hparse, hrecord, v', k, es, rfl, hv, hk, hes⟩ := h
  have hread : ofJson? j = if v = version then some ⟨key', entries⟩ else none := by
    rw [ofJson?, hrecord]
    simp [hv, hk, hes]
  rw [ofText, hparse, Option.bind_some, hread]
  by_cases hversion : v = version
  · by_cases hkey : key' = key
    · rw [if_pos hversion, if_pos ⟨hversion, hkey⟩, Option.filter_some, if_pos (decide_eq_true hkey), hkey]
    · rw [if_pos hversion, if_neg fun h => hkey h.2, Option.filter_some, if_neg (by simpa using hkey)]
  · rw [if_neg hversion, if_neg fun h => hversion h.1]
    rfl

theorem ofText_of_not_written (h : ¬∃ v key' entries, Written text v key' entries) (key : String) :
    ofText key text = .empty key := by
  have hnone : (Json.parse? text).bind ofJson? = none := by
    cases hread : (Json.parse? text).bind ofJson? with
    | none => rfl
    | some c =>
        obtain ⟨j, hparse, hread⟩ := Option.bind_eq_some_iff.1 hread
        obtain ⟨found, hrecord, hread⟩ := Option.bind_eq_some_iff.1 hread
        split at hread
        · obtain ⟨v, hv, hread⟩ := Option.bind_eq_some_iff.1 hread
          obtain ⟨k, hk, hread⟩ := Option.bind_eq_some_iff.1 hread
          obtain ⟨es, hes, -⟩ := Option.bind_eq_some_iff.1 hread
          exact absurd ⟨v, k, es, j, _, hparse, hrecord, _, _, _, rfl, hv, hk, hes⟩ h
        · cases hread
  rw [ofText, hnone]
  rfl

theorem written_text (h : c.Storable) (hnests : c.Nests maxOptionDepth) : Written c.text version c.key c.entries := by
  refine ⟨c.toJson, _, parse?_text h hnests, rfl, _, _, _, rfl, rfl, rfl, ?_⟩
  exact mapM_fields_of_mem c.entries fun e he => CacheEntry.ofJson?_toJson (h e.2 (List.mem_map_of_mem he))

theorem ofText_text_of_deep (h : c.Storable) (hdeep : ¬c.Nests maxOptionDepth) (key : String) :
    ofText key c.text = .empty key := by
  rw [ofText, parse?_text_of_deep h hdeep]
  rfl

end Cache

/-! ### On a disk -/

namespace Disk

variable {d d' : Disk} {path text : String} {place place' : Place} {segment : Path.Segment}

theorem follow_congr (h : d'.folders = d.folders) (hfollow : d.follow place segment = .ok place') :
    d'.follow place segment = .ok place' := by
  have hfolder : d'.hasFolder place = d.hasFolder place := by rw [hasFolder, hasFolder, h]
  rw [follow] at hfollow ⊢
  rw [hfolder]
  split at hfollow
  · cases hfollow
  · rename_i hthere
    rw [if_neg hthere]
    exact hfollow

theorem foldlM_follow_congr (h : d'.folders = d.folders) {segments : List Path.Segment}
    (hfollow : segments.foldlM d.follow place = .ok place') : segments.foldlM d'.follow place = .ok place' := by
  induction segments generalizing place with
  | nil => exact hfollow
  | cons s rest ih =>
      rw [List.foldlM_cons] at hfollow ⊢
      obtain ⟨next, hnext, hrest⟩ := bind_eq_ok_iff.1 hfollow
      exact bind_eq_ok_iff.2 ⟨next, follow_congr h hnext, ih hrest⟩

theorem locate_congr (h : d'.folders = d.folders) (hcurrent : d'.current = d.current)
    (hlocate : d.locate path = .ok place) : d'.locate path = .ok place := by
  have hsegments : d'.segments path = d.segments path := by rw [segments, segments, hcurrent]
  rw [locate] at hlocate ⊢
  split at hlocate
  · cases hlocate
  · rename_i hne
    rw [if_neg hne, hsegments]
    exact foldlM_follow_congr h hlocate

/-- A text that was written is what is read at its path. -/
theorem read_write (h : d.write path (.text text) = .ok d') : d'.read path = .ok text := by
  obtain ⟨place, hlocate, h⟩ := bind_eq_ok_iff.1 h
  have hfolder : d.hasFolder place = false := by
    rw [Bool.eq_false_iff]
    intro hfolder
    rw [if_pos hfolder] at h
    cases h
  rw [hfolder] at h
  cases h
  have hne : place.isEmpty = false := by
    rw [hasFolder, Bool.or_eq_false_iff] at hfolder
    exact hfolder.1
  have hfile : Disk.file? { d with files := d.files.insert (name place) (.text text) } place = some (.text text) := by
    rw [file?, hne, if_neg (by simp)]
    exact (Dict.get?_insert ..).trans (if_pos rfl)
  refine bind_eq_ok_iff.2 ⟨place, locate_congr (d := d) rfl rfl hlocate, ?_⟩
  simp only [hfile]

end Disk
namespace Session

open Cache (Written Storable Nests version fileName maxOptionDepth)

variable {c : Cache} {d d₁ d₂ : Disk} {folder key text : String}

theorem storeCache_eq (hfolder : d.createFolders folder = .ok d₁)
    (hwrite : d₁.write (Path.append folder fileName) (.text c.text) = .ok d₂) : storeCache c d (some folder) = d₂ := by
  rw [storeCache, hfolder]
  simp only [hwrite]

theorem loadCache_of_read (h : d.read (Path.append folder fileName) = .ok text) (key : String) :
    loadCache d key (some folder) = .ofText key text := by
  rw [loadCache, h]

/-- A cache that was stored is loaded as it was under its own key, and its look-ups with it, provided no
option nests deeper than a text that is read can hold; then nothing of it is. Under another key it counts
as empty, and so does all that has not the form of a cache of this version and key. -/
theorem cache_kept (folder key : String) : (∀ (c : Cache) (d d₁ d₂ : Disk), c.Storable →
    d.createFolders folder = .ok d₁ → d₁.write (Path.append folder fileName) (.text c.text) = .ok d₂ →
      storeCache c d (some folder) = d₂ ∧
        (c.Nests maxOptionDepth → loadCache d₂ c.key (some folder) = c ∧
          ∀ path now, (loadCache d₂ c.key (some folder)).lookup? path now = c.lookup? path now) ∧
        (¬c.Nests maxOptionDepth → loadCache d₂ c.key (some folder) = .empty c.key) ∧
          (key ≠ c.key → loadCache d₂ key (some folder) = .empty key)) ∧
    ∀ d : Disk,
      (∀ text, d.read (Path.append folder fileName) = .ok text →
        (∀ v key' entries, Written text v key' entries →
          loadCache d key (some folder) = if v = version ∧ key' = key then ⟨key, entries⟩ else .empty key) ∧
        ((¬∃ v key' entries, Written text v key' entries) → loadCache d key (some folder) = .empty key)) ∧
      ∀ e, d.read (Path.append folder fileName) = .error e → loadCache d key (some folder) = .empty key := by
  refine ⟨fun c d d₁ d₂ hstorable hfolder hwrite => ?stored, fun d => ⟨fun text hread => ?found,
    fun e hread => ?unread⟩⟩
  case stored =>
    have hload := loadCache_of_read (Disk.read_write hwrite)
    have hother : key ≠ c.key → loadCache d₂ key (some folder) = .empty key := by
      intro hkey
      rw [hload]
      by_cases hnests : c.Nests maxOptionDepth
      · rw [Cache.ofText_of_written (Cache.written_text hstorable hnests), if_neg fun h => hkey h.2.symm]
      · exact Cache.ofText_text_of_deep hstorable hnests key
    refine ⟨storeCache_eq hfolder hwrite, fun hnests => ?_, fun hdeep => ?_, hother⟩
    · have hsame : loadCache d₂ c.key (some folder) = c := by
        rw [hload, Cache.ofText_of_written (Cache.written_text hstorable hnests), if_pos ⟨rfl, rfl⟩]
      exact ⟨hsame, fun path now => by rw [hsame]⟩
    · rw [hload, Cache.ofText_text_of_deep hstorable hdeep]
  case found =>
    rw [loadCache_of_read hread]
    exact ⟨fun v key' entries hwritten => Cache.ofText_of_written hwritten key,
      fun hnone => Cache.ofText_of_not_written hnone key⟩
  case unread => rw [loadCache, hread]

/-! A declaration with an option that is a list in a list, and so on. -/

def tower : Nat → Json
  | 0 => nat 1
  | n + 1 => arr [tower n]

theorem sorted_tower (n : Nat) : (tower n).sorted = tower n := by
  induction n with
  | zero => rfl
  | succ n ih => rw [tower, Json.sorted, Json.sortedItems, Json.sortedItems, ih]

theorem small_tower (n : Nat) : allNumbers Number.isSmall (tower n) = true := by
  induction n with
  | zero => rfl
  | succ n ih => simp [tower, allNumbers_arr, ih]

theorem height_tower (n : Nat) : height (tower n) = n := by
  induction n with
  | zero => rfl
  | succ n ih => simp [tower, height, heightItems, ih]

def towerEntry (n : Nat) : CacheEntry :=
  ⟨⟨"af1349b9f5f9", 0, 0⟩,
    ⟨"/a.ts", [], [], [⟨"q", .slice, ⟨["query", "slice"], none, some "query", [("x", tower n)]⟩, [], true, some "q",
      ⟨17, 48, 1, 18⟩⟩], []⟩, [⟨"/a.ts::q"⟩]⟩

def towerCache (n : Nat) : Cache := .insert (.empty "key") "/a.ts" (towerEntry n)

theorem storable_tower (n : Nat) : (towerCache n).Storable := by
  have hsorted : (obj [("x", tower n)]).sorted = obj [("x", tower n)] := by
    rw [Json.sorted, Json.sortedFields, Json.sortedFields, sorted_tower]
    rfl
  have hbuilder : Builder.Storable ⟨["query", "slice"], none, some "query", [("x", tower n)]⟩ :=
    ⟨hsorted, List.forall_mem_singleton.2 (small_tower n)⟩
  have hspan : Span.IsSized ⟨17, 48, 1, 18⟩ := by constructor <;> (unfold IsWord; decide)
  have hsized : Fingerprint.IsSized ⟨"af1349b9f5f9", 0, 0⟩ := by constructor <;> (unfold IsWord; decide)
  exact List.forall_mem_singleton.2 ⟨hsized, List.forall_mem_nil _,
    List.forall_mem_singleton.2 ⟨hbuilder, hspan⟩, List.forall_mem_nil _⟩

theorem nests_tower_iff {n depth : Nat} : (towerCache n).Nests depth ↔ n ≤ depth := by
  have hvalues : (towerCache n).entries.values = [towerEntry n] := rfl
  rw [Cache.Nests, hvalues, List.forall_mem_singleton]
  simp [Analysis.Nests, towerEntry, height_tower]

/-- A disk with a folder for the cache, and a text in it. -/
def shelf : Disk := ⟨∅, ["/cache"], "/"⟩

def shelfWith (text : String) : Disk :=
  { shelf with files := shelf.files.insert "/cache/tessera-cache.json" (.text text) }

theorem write_shelf (text : String) : shelf.createFolders "/cache" = .ok shelf ∧
    shelf.write (Path.append "/cache" fileName) (.text text) = .ok (shelfWith text) := by
  exact ⟨rfl, rfl⟩

theorem cache_kept_tower : (towerCache 119).Storable ∧ storeCache (towerCache 119) shelf (some "/cache") =
    shelfWith (towerCache 119).text ∧
      loadCache (shelfWith (towerCache 119).text) "key" (some "/cache") = towerCache 119 ∧
        loadCache (shelfWith (towerCache 119).text) "other" (some "/cache") = .empty "other" := by
  obtain ⟨hfolder, hwrite⟩ := write_shelf (towerCache 119).text
  obtain ⟨hstore, hkept, -, hother⟩ := (cache_kept "/cache" "other").1 (towerCache 119) shelf shelf _
    (storable_tower 119) hfolder hwrite
  exact ⟨storable_tower 119, hstore, (hkept (nests_tower_iff.2 (by decide))).1, hother (by decide)⟩

/-- With one list more the cache is stored as before and comes back empty. -/
theorem cache_lost_tower : (towerCache 120).Storable ∧ (Cache.entry? (towerCache 120) "/a.ts").isSome = true ∧
    storeCache (towerCache 120) shelf (some "/cache") = shelfWith (towerCache 120).text ∧
      (shelfWith (towerCache 120).text).read (Path.append "/cache" fileName) = .ok (towerCache 120).text ∧
        loadCache (shelfWith (towerCache 120).text) "key" (some "/cache") = .empty "key" := by
  obtain ⟨hfolder, hwrite⟩ := write_shelf (towerCache 120).text
  have hread := Disk.read_write hwrite
  have hdeep : ¬(towerCache 120).Nests maxOptionDepth := by
    rw [nests_tower_iff]
    decide
  refine ⟨storable_tower 120, rfl, storeCache_eq hfolder hwrite, hread, ?_⟩
  rw [loadCache_of_read hread, Cache.ofText_text_of_deep (storable_tower 120) hdeep]

end Session
end StaticGql
