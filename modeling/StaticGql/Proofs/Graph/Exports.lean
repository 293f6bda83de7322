import Mathlib.Data.Finset.Card
import Mathlib.Data.Finset.Prod
import Mathlib.Logic.Function.Iterate
import StaticGql.Graph.Link
import StaticGql.Proofs.Dict

/-!
What a file exports under a name. The rules by which names are followed are inductive predicates, and the
search follows them exactly: what it finds comes by the rules, and what it does not find comes by none, although
all its branches share what they have seen.
-/

namespace StaticGql

def Target.IsMissing : Target → Prop
  | .missing _ => True
  | _ => False

instance : DecidablePred Target.IsMissing := fun t =>
  match t with
  | .missing _ => isTrue trivial
  | .declarations _ | .value | .outside => isFalse id

namespace Linker

variable {l : Linker} {a : Analysis} {s : Specifier} {t : Target} {seen seen' : Seen} {r : Target × Seen}
  {follow follow' : Follow} {file name localName source target imported : String} {fuel : Nat}

/-! ### The rules -/

/-- Where a rule leads: to an end, or to an export of another file. -/
inductive Next where
  | ends (t : Target)
  | goes (file name : String)

/-- Asking the file that a source means for a name. -/
inductive Asks (l : Linker) (file source name : String) : Next → Prop
  | analysed {target : String} (h : l.targetFile file source = .ok (some target)) :
      Asks l file source name (.goes target name)
  | beside (h : l.targetFile file source = .ok none) : Asks l file source name (.ends .outside)

/-- What a name stands for in its file: the declarations under it, or else what it is imported from. -/
inductive Denotes (l : Linker) (file localName : String) : Next → Prop
  | declarations (h : l.declarationsUnder file localName ≠ []) :
      Denotes l file localName (.ends (.declarations (l.declarationsUnder file localName)))
  | outside (h : l.declarationsUnder file localName = []) (ha : l.analyses.get? file = none) :
      Denotes l file localName (.ends .outside)
  | bound {a : Analysis} (h : l.declarationsUnder file localName = []) (ha : l.analyses.get? file = some a)
      (hi : a.importOf? localName = none) : Denotes l file localName (.ends .value)
  | foreign {a : Analysis} {source : String} {s : Specifier} (h : l.declarationsUnder file localName = [])
      (ha : l.analyses.get? file = some a) (hi : a.importOf? localName = some (source, s))
      (hs : ModuleRef.isRelative source = false ∨ s.imported = "*") : Denotes l file localName (.ends .value)
  | imported {a : Analysis} {source : String} {s : Specifier} {n : Next}
      (h : l.declarationsUnder file localName = []) (ha : l.analyses.get? file = some a)
      (hi : a.importOf? localName = some (source, s)) (hs : ModuleRef.isRelative source = true)
      (hname : s.imported ≠ "*") (hn : l.Asks file source s.imported n) : Denotes l file localName n

/-- A name that a file does not export itself, and a source of which the file passes all on. -/
structure PassesOn (l : Linker) (file name source : String) : Prop where
  of_analysis : ∃ a, l.analyses.get? file = some a ∧ a.localExport? name = none ∧ reExport? a name = none ∧
    source ∈ passedOn a
  notDefault : name ≠ "default"

/-- What a file exports under a name: a name of its own first, then the first re-export under this name, and
then whatever one of the files offers of which it passes all on. -/
inductive Offers (l : Linker) (file name : String) : Next → Prop
  | outside (ha : l.analyses.get? file = none) : Offers l file name (.ends .outside)
  | own {a : Analysis} {localName : String} {n : Next} (ha : l.analyses.get? file = some a)
      (h : a.localExport? name = some localName) (hn : l.Denotes file localName n) : Offers l file name n
  | foreign {a : Analysis} {imported source : String} (ha : l.analyses.get? file = some a)
      (hown : a.localExport? name = none) (hre : reExport? a name = some (imported, source))
      (hs : ModuleRef.isRelative source = false ∨ imported = "*") : Offers l file name (.ends .value)
  | reExported {a : Analysis} {imported source : String} {n : Next} (ha : l.analyses.get? file = some a)
      (hown : a.localExport? name = none) (hre : reExport? a name = some (imported, source))
      (hs : ModuleRef.isRelative source = true) (hname : imported ≠ "*")
      (hn : l.Asks file source imported n) : Offers l file name n
  | passedOn {source : String} {n : Next} (h : l.PassesOn file name source) (hn : l.Asks file source name n) :
      Offers l file name n

inductive Resolves (l : Linker) : String → String → Target → Prop
  | ends {file name : String} {t : Target} (h : l.Offers file name (.ends t)) : Resolves l file name t
  | goes {file name target imported : String} {t : Target} (h : l.Offers file name (.goes target imported))
      (ht : Resolves l target imported t) : Resolves l file name t

def Next.Reaches (l : Linker) : Next → Target → Prop
  | .ends t', t => t' = t
  | .goes file name, t => l.Resolves file name t

theorem Resolves.of_offers {n : Next} (h : l.Offers file name n) (ht : n.Reaches l t) : l.Resolves file name t := by
  cases n with
  | ends t' =>
      obtain rfl : t' = t := ht
      exact .ends h
  | goes target imported => exact .goes h ht

theorem Asks.not_missing (h : l.Asks file source name (.ends t)) : ¬ t.IsMissing := by
  cases h
  exact id

theorem Denotes.not_missing (h : l.Denotes file localName (.ends t)) : ¬ t.IsMissing := by
  cases h with
  | declarations | outside | bound | foreign => exact id
  | imported _ _ _ _ _ hn => exact hn.not_missing

theorem Offers.not_missing (h : l.Offers file name (.ends t)) : ¬ t.IsMissing := by
  cases h with
  | outside | foreign => exact id
  | own _ _ hn => exact hn.not_missing
  | reExported _ _ _ _ _ hn => exact hn.not_missing
  | passedOn _ hn => exact hn.not_missing

theorem Resolves.not_missing (h : l.Resolves file name t) : ¬ t.IsMissing := by
  induction h with
  | ends h => exact h.not_missing
  | goes _ _ ih => exact ih

/-! ### One round of the search -/

/-- Following an export with a given way to follow those that it leads to. -/
def exportStep (l : Linker) (follow : Follow) : Follow := fun seen file name =>
  if seen.contains (file, name) then (.missing s!"export '{name}' of {file} is circular", seen)
  else
    let seen := (file, name) :: seen
    match l.analyses.get? file with
    | none => (.outside, seen)
    | some a =>
      match a.localExport? name with
      | some localName => l.localTarget follow seen file localName
      | none =>
        match reExport? a name with
        | some (imported, source) =>
          if imported = "*" || !ModuleRef.isRelative source then (.value, seen)
          else l.throughFile follow seen file source imported
        | none =>
          let reason := s!"{file} does not export '{name}'"
          if name = "default" then (.missing reason, seen)
          else l.firstFound follow file name reason (passedOn a) seen

theorem exportStep_of_mem (l : Linker) (follow : Follow) (hseen : (file, name) ∈ seen) :
    l.exportStep follow seen file name = (.missing s!"export '{name}' of {file} is circular", seen) := by
  rw [exportStep, if_pos (List.contains_iff_mem.2 hseen)]

theorem exportTarget_succ (l : Linker) (fuel : Nat) :
    l.exportTarget (fuel + 1) = l.exportStep (l.exportTarget fuel) := by
  funext seen file name
  by_cases hseen : (file, name) ∈ seen
  · rw [exportStep_of_mem l _ hseen, exportTarget, if_pos hseen]
  · rw [exportTarget, exportStep]
    exact (if_neg hseen).trans (if_neg (mt List.contains_iff_mem.1 hseen)).symm

/-- A search from what was seen, for what one of some rules leads to. -/
inductive Search (follow : Follow) : Seen → (Next → Prop) → Target × Seen → Prop
  | ends {seen : Seen} {next : Next → Prop} {t : Target} (h : next (.ends t)) (ht : ¬ t.IsMissing) :
      Search follow seen next (t, seen)
  | stuck {seen : Seen} {next : Next → Prop} {reason : String} (h : ∀ n, ¬ next n) :
      Search follow seen next (.missing reason, seen)
  | follows {seen : Seen} {next : Next → Prop} {file name : String} (h : ∀ n, next n ↔ n = .goes file name) :
      Search follow seen next (follow seen file name)
  | found {seen : Seen} {next first : Next → Prop} {r : Target × Seen} (h : Search follow seen first r)
      (hr : ¬ r.1.IsMissing) (hfirst : ∀ n, first n → next n) : Search follow seen next r
  | skips {seen : Seen} {next first rest : Next → Prop} {r r' : Target × Seen} (h : Search follow seen first r)
      (hr : r.1.IsMissing) (hrest : Search follow r.2 rest r') (hnext : ∀ n, next n ↔ first n ∨ rest n) :
      Search follow seen next r'

theorem throughFile_search (l : Linker) (follow : Follow) (seen : Seen) (file source name : String) :
    Search follow seen (l.Asks file source name) (l.throughFile follow seen file source name) := by
  rw [throughFile]
  split
  · rename_i target h
    refine .follows fun n => ⟨fun hn => ?_, fun hn => hn ▸ .analysed h⟩
    cases hn with
    | analysed h' =>
        rw [h, Except.ok.injEq, Option.some.injEq] at h'
        rw [h']
    | beside h' => simp [h] at h'
  · rename_i h
    exact .ends (.beside h) id
  · rename_i reason h
    refine .stuck fun n hn => ?_
    cases hn with
    | analysed h' => simp [h] at h'
    | beside h' => simp [h] at h'

theorem firstFound_of_missing {rest : List String} {reason : String}
    (h : (l.throughFile follow seen file source name).1.IsMissing) :
    l.firstFound follow file name reason (source :: rest) seen =
      l.firstFound follow file name reason rest (l.throughFile follow seen file source name).2 := by
  rw [firstFound]
  split
  · rename_i reason' seen' heq
    rw [heq]
  · rename_i hfound
    rcases heq : l.throughFile follow seen file source name with ⟨t, seen'⟩
    rw [heq] at h
    cases t with
    | missing reason' => exact absurd heq (hfound reason' seen')
    | declarations | value | outside => cases h

theorem firstFound_of_found {rest : List String} {reason : String}
    (h : ¬ (l.throughFile follow seen file source name).1.IsMissing) :
    l.firstFound follow file name reason (source :: rest) seen = l.throughFile follow seen file source name := by
  rw [firstFound]
  split
  · rename_i heq
    rw [heq] at h
    exact absurd trivial h
  · rfl

theorem firstFound_search (l : Linker) (follow : Follow) (file name reason : String) (sources : List String)
    (seen : Seen) : Search follow seen (fun n => ∃ source ∈ sources, l.Asks file source name n)
      (l.firstFound follow file name reason sources seen) := by
  induction sources generalizing seen with
  | nil => exact .stuck (by simp)
  | cons source rest ih =>
      have hsource := throughFile_search l follow seen file source name
      by_cases hr : (l.throughFile follow seen file source name).1.IsMissing
      · rw [firstFound_of_missing hr]
        exact .skips hsource hr (ih _) (by simp)
      · rw [firstFound_of_found hr]
        exact .found hsource hr fun n hn => ⟨source, List.mem_cons_self, hn⟩

theorem Search.congr {next next' : Next → Prop} (h : Search follow seen next r) (hnext : ∀ n, next n ↔ next' n) :
    Search follow seen next' r := by
  obtain rfl : next = next' := funext fun n => propext (hnext n)
  exact h

theorem denotes_iff_asks {n : Next} (h : l.declarationsUnder file localName = [])
    (ha : l.analyses.get? file = some a) (hi : a.importOf? localName = some (source, s))
    (hs : ModuleRef.isRelative source = true) (hname : s.imported ≠ "*") :
    l.Denotes file localName n ↔ l.Asks file source s.imported n := by
  constructor
  · intro hn
    cases hn <;> simp_all
  · exact fun hn => .imported h ha hi hs hname hn

theorem localTarget_search (l : Linker) (follow : Follow) (seen : Seen) (file localName : String) :
    Search follow seen (l.Denotes file localName) (l.localTarget follow seen file localName) := by
  rw [localTarget]
  by_cases hunder : l.declarationsUnder file localName = []
  · simp only [hunder, List.isEmpty_nil, Bool.not_true, Bool.false_eq_true, if_false]
    cases ha : l.analyses.get? file with
    | none => exact .ends (.outside hunder ha) id
    | some a =>
        cases hi : a.importOf? localName with
        | none => simpa only [hi] using .ends (.bound hunder ha hi) id
        | some i =>
            obtain ⟨source, s⟩ := i
            simp only [hi]
            split
            · rename_i hvalue
              exact .ends (.foreign hunder ha hi (by simpa using hvalue)) id
            · rename_i hfollow
              obtain ⟨hs, hname⟩ : ModuleRef.isRelative source = true ∧ s.imported ≠ "*" := by
                simpa using hfollow
              exact (throughFile_search l follow seen file source s.imported).congr fun n =>
                (denotes_iff_asks hunder ha hi hs hname).symm
  · have hempty : (!(l.declarationsUnder file localName).isEmpty) = true := by simpa using hunder
    rw [if_pos hempty]
    exact .ends (.declarations hunder) id

section

variable (ha : l.analyses.get? file = some a)
include ha

theorem offers_iff_denotes {n : Next} (hown : a.localExport? name = some localName) :
    l.Offers file name n ↔ l.Denotes file localName n := by
  constructor
  · intro hn
    cases hn with
    | passedOn h =>
        obtain ⟨a', ha', hown', hre', -⟩ := h.of_analysis
        simp_all
    | _ => simp_all
  · exact fun hn => .own ha hown hn

theorem offers_iff_asks {n : Next} (hown : a.localExport? name = none)
    (hre : reExport? a name = some (imported, source)) (hs : ModuleRef.isRelative source = true)
    (hname : imported ≠ "*") : l.Offers file name n ↔ l.Asks file source imported n := by
  constructor
  · intro hn
    cases hn with
    | passedOn h =>
        obtain ⟨a', ha', hown', hre', -⟩ := h.of_analysis
        simp_all
    | _ => simp_all
  · exact fun hn => .reExported ha hown hre hs hname hn

theorem offers_iff_passedOn {n : Next} (hown : a.localExport? name = none) (hre : reExport? a name = none) :
    l.Offers file name n ↔ name ≠ "default" ∧ ∃ source ∈ passedOn a, l.Asks file source name n := by
  constructor
  · intro hn
    cases hn with
    | passedOn h hn =>
        obtain ⟨⟨a', ha', -, -, hsource⟩, hname⟩ := h
        obtain rfl : a = a' := by simpa [ha] using ha'
        exact ⟨hname, _, hsource, hn⟩
    | _ => simp_all
  · rintro ⟨hname, source, hsource, hn⟩
    exact .passedOn ⟨⟨a, ha, hown, hre, hsource⟩, hname⟩ hn

end

/-- One round of the search goes by the rules. -/
theorem exportStep_search (l : Linker) (follow : Follow) (hnew : (file, name) ∉ seen) :
    Search follow ((file, name) :: seen) (l.Offers file name) (l.exportStep follow seen file name) := by
  rw [exportStep, if_neg (mt List.contains_iff_mem.1 hnew)]
  cases ha : l.analyses.get? file with
  | none => exact .ends (.outside ha) id
  | some a =>
      cases hown : a.localExport? name with
      | some localName =>
          simp only [hown]
          exact (localTarget_search l follow _ file localName).congr fun n => (offers_iff_denotes ha hown).symm
      | none =>
          cases hre : reExport? a name with
          | some i =>
              obtain ⟨imported, source⟩ := i
              simp only [hown, hre]
              split
              · rename_i hvalue
                refine .ends (.foreign ha hown hre ?_) id
                have hvalue : imported = "*" ∨ ModuleRef.isRelative source = false := by simpa using hvalue
                exact hvalue.symm
              · rename_i hfollow
                obtain ⟨hname, hs⟩ : imported ≠ "*" ∧ ModuleRef.isRelative source = true := by
                  simpa using hfollow
                exact (throughFile_search l follow _ file source imported).congr fun n =>
                  (offers_iff_asks ha hown hre hs hname).symm
          | none =>
              simp only [hown, hre]
              by_cases hname : name = "default"
              · rw [if_pos hname]
                refine .stuck fun n hn => ?_
                exact ((offers_iff_passedOn ha hown hre).1 hn).1 hname
              · rw [if_neg hname]
                refine (firstFound_search l follow file name _ (passedOn a) _).congr fun n => ?_
                rw [offers_iff_passedOn ha hown hre]
                exact (and_iff_right hname).symm

/-! ### What is found -/

/-- What is found comes by the rules. -/
def Sound (l : Linker) (follow : Follow) : Prop :=
  ∀ seen file name, ¬ (follow seen file name).1.IsMissing → l.Resolves file name (follow seen file name).1

theorem Search.sound {next : Next → Prop} (h : Search follow seen next r) (hfollow : l.Sound follow)
    (hr : ¬ r.1.IsMissing) : ∃ n, next n ∧ n.Reaches l r.1 := by
  induction h with
  | ends h => exact ⟨_, h, rfl⟩
  | stuck => exact absurd trivial hr
  | follows h => exact ⟨_, (h _).2 rfl, hfollow _ _ _ hr⟩
  | found _ _ hfirst ih =>
      obtain ⟨n, hn, ht⟩ := ih hr
      exact ⟨n, hfirst n hn, ht⟩
  | skips _ _ _ hnext _ ih =>
      obtain ⟨n, hn, ht⟩ := ih hr
      exact ⟨n, (hnext n).2 (.inr hn), ht⟩

theorem Sound.exportStep (h : l.Sound follow) : l.Sound (l.exportStep follow) := by
  intro seen file name hr
  by_cases hseen : (file, name) ∈ seen
  · rw [exportStep_of_mem l follow hseen] at hr
    exact absurd trivial hr
  · obtain ⟨n, hn, ht⟩ := (exportStep_search l follow hseen).sound h hr
    exact .of_offers hn ht

theorem sound_exportTarget (l : Linker) (fuel : Nat) : l.Sound (l.exportTarget fuel) := by
  induction fuel with
  | zero => exact fun _ _ _ hr => absurd trivial hr
  | succ fuel ih => exact exportTarget_succ l fuel ▸ ih.exportStep

/-! ### What is seen -/

/-- What was seen stays seen, and what comes to it has a property. -/
structure Adds (P : String × String → Prop) (seen seen' : Seen) : Prop where
  keeps : seen ⊆ seen'
  only : ∀ p ∈ seen', p ∈ seen ∨ P p

theorem Adds.refl (P : String × String → Prop) (seen : Seen) : Adds P seen seen :=
  ⟨List.Subset.refl seen, fun _ hp => .inl hp⟩

theorem Adds.trans {P : String × String → Prop} {seen seen' seen'' : Seen} (h : Adds P seen seen')
    (h' : Adds P seen' seen'') : Adds P seen seen'' := by
  refine ⟨fun p hp => h'.keeps (h.keeps hp), fun p hp => ?_⟩
  rcases h'.only p hp with hp | hp
  · exact h.only p hp
  · exact .inr hp

/-- Following an export that has a property adds only what has it. -/
def Confined (P : String × String → Prop) (follow : Follow) : Prop :=
  ∀ seen file name, P (file, name) → Adds P seen (follow seen file name).2

/-- A property that the rules hand on. -/
def Inherited (l : Linker) (P : String × String → Prop) : Prop :=
  ∀ file name target imported, P (file, name) → l.Offers file name (.goes target imported) → P (target, imported)

variable {P : String × String → Prop}

theorem Search.confined {next : Next → Prop} (h : Search follow seen next r) (hfollow : Confined P follow)
    (hnext : ∀ target imported, next (.goes target imported) → P (target, imported)) :
    Adds P seen r.2 := by
  induction h with
  | ends | stuck => exact .refl P _
  | follows h => exact hfollow _ _ _ (hnext _ _ ((h _).2 rfl))
  | found _ _ hfirst ih => exact ih fun target imported hn => hnext target imported (hfirst _ hn)
  | skips _ _ _ hiff ih ih' =>
      have hfirst := ih fun target imported hn => hnext target imported ((hiff _).2 (.inl hn))
      have hrest := ih' fun target imported hn => hnext target imported ((hiff _).2 (.inr hn))
      exact hfirst.trans hrest

theorem Confined.exportStep (hP : l.Inherited P) (h : Confined P follow) : Confined P (l.exportStep follow) := by
  intro seen file name hstart
  by_cases hseen : (file, name) ∈ seen
  · rw [exportStep_of_mem l follow hseen]
    exact ⟨List.Subset.refl _, fun p hp => .inl hp⟩
  · obtain ⟨hsub, hall⟩ := (exportStep_search l follow hseen).confined h fun target imported hn =>
      hP file name target imported hstart hn
    refine ⟨fun p hp => hsub (List.mem_cons_of_mem _ hp), fun p hp => ?_⟩
    rcases hall p hp with hp | hp
    · rcases List.mem_cons.1 hp with rfl | hp
      · exact .inr hstart
      · exact .inl hp
    · exact .inr hp

theorem confined_exportTarget (hP : l.Inherited P) (fuel : Nat) : Confined P (l.exportTarget fuel) := by
  induction fuel with
  | zero => exact fun seen _ _ _ => .refl P seen
  | succ fuel ih => exact exportTarget_succ l fuel ▸ ih.exportStep hP

theorem exportTarget_grows (l : Linker) (fuel : Nat) (seen : Seen) (file name : String) :
    seen ⊆ (l.exportTarget fuel seen file name).2 := by
  have hall : Confined (fun _ => True) (l.exportTarget fuel) :=
    confined_exportTarget (fun _ _ _ _ _ _ => trivial) fuel
  exact (hall seen file name trivial).keeps

theorem mem_exportTarget_succ (l : Linker) (fuel : Nat) (seen : Seen) (file name : String) :
    (file, name) ∈ (l.exportTarget (fuel + 1) seen file name).2 := by
  by_cases hseen : (file, name) ∈ seen
  · exact exportTarget_grows l (fuel + 1) seen file name hseen
  · have hall : Confined (fun _ => True) (l.exportTarget fuel) :=
      confined_exportTarget (fun _ _ _ _ _ _ => trivial) fuel
    rw [exportTarget_succ]
    exact ((exportStep_search l _ hseen).confined hall fun _ _ _ => trivial).keeps List.mem_cons_self

/-! ### What is not found -/

def Next.IsSeen (seen : Seen) : Next → Prop
  | .ends _ => False
  | .goes file name => (file, name) ∈ seen

theorem Next.IsSeen.mono {n : Next} (h : n.IsSeen seen) (hseen : seen ⊆ seen') : n.IsSeen seen' := by
  cases n with
  | ends t => exact h
  | goes file name => exact hseen h

/-- If nothing is found, what the rules lead to has been seen, and so has what they lead to from there, except
from what was seen before. -/
def Exhausts (l : Linker) (next : Next → Prop) (seen : Seen) (r : Target × Seen) : Prop :=
  r.1.IsMissing → (∀ n, next n → n.IsSeen r.2) ∧
    ∀ p ∈ r.2, p ∉ seen → ∀ n, l.Offers p.1 p.2 n → n.IsSeen r.2

theorem Search.exhausts {next : Next → Prop} (h : Search follow seen next r)
    (hgrows : Confined (fun _ => True) follow)
    (hfollow : ∀ seen' target imported, seen ⊆ seen' → next (.goes target imported) →
      l.Exhausts (· = .goes target imported) seen' (follow seen' target imported)) :
    l.Exhausts next seen r := by
  induction h with
  | ends _ ht => exact fun hr => absurd hr ht
  | stuck h => exact fun _ => ⟨fun n hn => absurd hn (h n), fun p hp hnot => absurd hp hnot⟩
  | @follows seen next file name h =>
      intro hr
      obtain ⟨hself, hall⟩ := hfollow seen file name (List.Subset.refl seen) ((h _).2 rfl) hr
      exact ⟨fun n hn => hself n ((h n).1 hn), hall⟩
  | found _ hr => exact fun hr' => absurd hr' hr
  | @skips seen next first rest r r' h hmissing hrest hnext ih ih' =>
      intro hr
      have hbefore := (h.confined hgrows fun _ _ _ => trivial).keeps
      have hafter := (hrest.confined hgrows fun _ _ _ => trivial).keeps
      obtain ⟨hfirst, hclosed⟩ := ih (fun s target imported hs hn =>
        hfollow s target imported hs ((hnext _).2 (.inl hn))) hmissing
      obtain ⟨hothers, hclosed'⟩ := ih' (fun s target imported hs hn =>
        hfollow s target imported (fun p hp => hs (hbefore hp)) ((hnext _).2 (.inr hn))) hr
      constructor
      · intro n hn
        rcases (hnext n).1 hn with hn | hn
        · exact (hfirst n hn).mono hafter
        · exact hothers n hn
      · intro p hp hnot n hn
        by_cases hp' : p ∈ r.2
        · exact (hclosed p hp' hnot n hn).mono hafter
        · exact hclosed' p hp hp' n hn

/-- The exports among some that are still to be seen. -/
def unseen (U : Finset (String × String)) (seen : Seen) : Nat := (U \ seen.toFinset).card

variable {U : Finset (String × String)}

theorem unseen_mono (h : seen ⊆ seen') : unseen U seen' ≤ unseen U seen :=
  Finset.card_le_card (Finset.sdiff_subset_sdiff (Finset.Subset.refl U) fun _ hp => List.mem_toFinset.2 (h (List.mem_toFinset.1 hp)))

theorem unseen_cons_lt {p : String × String} (hp : p ∈ U) (hnot : p ∉ seen) :
    unseen U (p :: seen) < unseen U seen := by
  rw [unseen, unseen, List.toFinset_cons, Finset.sdiff_insert]
  exact Finset.card_erase_lt_of_mem (Finset.mem_sdiff.2 ⟨hp, mt List.mem_toFinset.1 hnot⟩)

theorem mem_of_unseen_eq_zero {p : String × String} (h : unseen U seen = 0) (hp : p ∈ U) : p ∈ seen :=
  List.mem_toFinset.1 (Finset.sdiff_eq_empty_iff_subset.1 (Finset.card_eq_zero.1 h) hp)

/-- As many rounds as there are exports to be seen leave none of them out. -/
theorem exportTarget_exhausts (hU : l.Inherited (· ∈ U)) (fuel : Nat) (seen : Seen) (file name : String)
    (hstart : (file, name) ∈ U) (hfuel : unseen U seen ≤ fuel) :
    l.Exhausts (· = .goes file name) seen (l.exportTarget fuel seen file name) := by
  induction fuel generalizing seen file name with
  | zero =>
      have hseen := mem_of_unseen_eq_zero (Nat.le_zero.1 hfuel) hstart
      exact fun _ => ⟨fun n hn => hn ▸ hseen, fun p hp hnot => absurd hp hnot⟩
  | succ fuel ih =>
      by_cases hseen : (file, name) ∈ seen
      · rw [exportTarget_succ, exportStep_of_mem l _ hseen]
        exact fun _ => ⟨fun n hn => hn ▸ hseen, fun p hp hnot => absurd hp hnot⟩
      · have hless := unseen_cons_lt hstart hseen
        have hgrows : Confined (fun _ => True) (l.exportTarget fuel) :=
          confined_exportTarget (fun _ _ _ _ _ _ => trivial) fuel
        have hround := (exportStep_search l (l.exportTarget fuel) hseen).exhausts hgrows
          fun seen' target imported hsub hn => by
            have hrest := unseen_mono (U := U) hsub
            exact ih seen' target imported (hU file name target imported hstart hn) (by omega)
        have hin := mem_exportTarget_succ l fuel seen file name
        rw [exportTarget_succ] at hin ⊢
        intro hr
        obtain ⟨hself, hall⟩ := hround hr
        -- The round says where the new export leads; of all that came after it the closure is known already.
        refine ⟨fun n hn => hn ▸ hin, fun p hp hnot n hn => ?_⟩
        by_cases hp' : p = (file, name)
        · subst hp'
          exact hself n hn
        · exact hall p hp (by simp [hp', hnot]) n hn

end Linker
end StaticGql
