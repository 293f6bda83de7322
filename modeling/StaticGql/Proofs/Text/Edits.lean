import Mathlib.Data.List.Pairwise
import StaticGql.Text.Edits

/-!
Texts cut at a byte: into what stands before it and what stands behind.

Edits that keep out of each other's way are all carried out, and what they do not touch stays as it is.
-/

namespace StaticGql.Text

variable {cs before after : List Char} {n : Nat}

theorem byteSize_append (cs ds : List Char) : byteSize (cs ++ ds) = byteSize cs + byteSize ds := by
  induction cs with
  | nil => simp [byteSize]
  | cons c cs ih => simp [byteSize, ih, Nat.add_assoc]

theorem splitBytes?_byteSize (before after : List Char) :
    splitBytes? (byteSize before) (before ++ after) = some (before, after) := by
  induction before with
  | nil => simp [byteSize, splitBytes?]
  | cons c before ih =>
      obtain ⟨n, hn⟩ : ∃ n, byteSize (c :: before) = n + 1 :=
        ⟨byteSize (c :: before) - 1, by have := c.utf8Size_pos; rw [byteSize]; omega⟩
      have hrest : n + 1 - c.utf8Size = byteSize before := by rw [← hn, byteSize]; omega
      have hle : c.utf8Size ≤ n + 1 := by rw [← hn, byteSize]; omega
      rw [hn, List.cons_append, splitBytes?, if_pos hle, hrest, ih]
      rfl

theorem eq_append_of_splitBytes (h : splitBytes? n cs = some (before, after)) :
    cs = before ++ after ∧ byteSize before = n := by
  fun_induction splitBytes? n cs generalizing before with
  | case1 => cases h; simp [byteSize]
  | case2 => cases h
  | case3 n c cs hle ih =>
      obtain ⟨⟨rest, _⟩, hsplit, h⟩ := Option.map_eq_some_iff.1 h
      cases h
      obtain ⟨rfl, hsize⟩ := ih hsplit
      exact ⟨rfl, by rw [byteSize]; omega⟩
  | case4 => cases h

theorem dropBytes?_eq_some_iff :
    dropBytes? n cs = some after ↔ ∃ before, cs = before ++ after ∧ byteSize before = n := by
  constructor
  · intro h
    obtain ⟨⟨before, _⟩, hsplit, rfl⟩ := Option.map_eq_some_iff.1 h
    exact ⟨before, eq_append_of_splitBytes hsplit⟩
  · rintro ⟨before, rfl, rfl⟩
    rw [dropBytes?, splitBytes?_byteSize]
    rfl

theorem dropBytes?_step {c : Char} (h : dropBytes? n cs = some (c :: after)) :
    dropBytes? (n + c.utf8Size) cs = some after := by
  obtain ⟨before, rfl, rfl⟩ := dropBytes?_eq_some_iff.1 h
  refine dropBytes?_eq_some_iff.2 ⟨before ++ [c], by simp, ?_⟩
  simp [byteSize_append, byteSize]

theorem slice?_whole (cs : List Char) : slice? cs 0 (byteSize cs) = some cs := by
  have hsplit := splitBytes?_byteSize cs []
  rw [List.append_nil] at hsplit
  have hdrop : dropBytes? 0 cs = some cs := by simp [dropBytes?, splitBytes?]
  rw [slice?, if_pos (Nat.zero_le _), hdrop, Option.bind_some, Nat.sub_zero, takeBytes?, hsplit]
  rfl

end StaticGql.Text

namespace StaticGql

/-- Neither of the spans reaches into the other. -/
def Span.Apart (s t : Span) : Prop := s.stop ≤ t.start ∨ t.stop ≤ s.start

instance (s t : Span) : Decidable (s.Apart t) := inferInstanceAs (Decidable (_ ∨ _))

instance : Std.Symm Span.Apart := ⟨fun _ _ => Or.symm⟩

namespace Text

variable {source : String} {cs xs ys zs out : List Char} {n cursor : Nat} {e f : Edit} {edits : List Edit}

/-- The text may be cut at this byte. -/
def IsCut (cs : List Char) (n : Nat) : Prop := ∃ before after, cs = before ++ after ∧ byteSize before = n

theorem isCut_iff : IsCut cs n ↔ (dropBytes? n cs).isSome = true := by
  rw [Option.isSome_iff_exists]
  simp only [dropBytes?_eq_some_iff, IsCut]
  exact exists_comm

instance (cs : List Char) (n : Nat) : Decidable (IsCut cs n) := decidable_of_iff' _ isCut_iff

theorem IsCut.le (h : IsCut cs n) : n ≤ byteSize cs := by
  obtain ⟨before, after, rfl, rfl⟩ := h
  rw [byteSize_append]
  omega

theorem eq_nil_of_byteSize (h : byteSize cs = 0) : cs = [] := by
  cases cs with
  | nil => rfl
  | cons c cs =>
      have := c.utf8Size_pos
      rw [byteSize] at h
      omega

/-- Of two places at which a text may be cut, the first one cuts what stands before the second. -/
theorem IsCut.exists_between {rest : List Char} (h : IsCut (xs ++ rest) n) (hle : byteSize xs ≤ n) :
    ∃ ys zs, rest = ys ++ zs ∧ n = byteSize xs + byteSize ys := by
  obtain ⟨before, after, happend, rfl⟩ := h
  rcases List.append_eq_append_iff.1 happend with ⟨ys, rfl, hrest⟩ | ⟨ys, rfl, rfl⟩
  · exact ⟨ys, after, hrest, byteSize_append xs ys⟩
  · rw [byteSize_append] at hle
    obtain rfl := eq_nil_of_byteSize (show byteSize ys = 0 by omega)
    exact ⟨[], rest, rfl, by simp [byteSize]⟩

theorem slice?_append (xs ys zs : List Char) :
    slice? (xs ++ (ys ++ zs)) (byteSize xs) (byteSize xs + byteSize ys) = some ys := by
  rw [slice?, if_pos (Nat.le_add_right _ _), dropBytes?_eq_some_iff.2 ⟨xs, rfl, rfl⟩, Option.bind_some,
    Nat.add_sub_cancel_left, takeBytes?, splitBytes?_byteSize]
  rfl

theorem exists_of_slice? {start stop : Nat} (h : slice? cs start stop = some ys) : ∃ xs zs,
    cs = xs ++ (ys ++ zs) ∧ start = byteSize xs ∧ stop = byteSize xs + byteSize ys := by
  rw [slice?] at h
  split at h
  · rename_i hle
    obtain ⟨rest, hdrop, htake⟩ := Option.bind_eq_some_iff.1 h
    obtain ⟨xs, rfl, rfl⟩ := dropBytes?_eq_some_iff.1 hdrop
    obtain ⟨⟨ys', zs⟩, hsplit, hys⟩ := Option.map_eq_some_iff.1 htake
    obtain rfl : ys' = ys := hys
    obtain ⟨rfl, hsize⟩ := eq_append_of_splitBytes hsplit
    exact ⟨xs, zs, rfl, rfl, by omega⟩
  · cases h

/-! ### Edits in their order -/

/-- Edits carried out one behind the other, on the text from a byte on: what lies before an edit is kept, its
range gives way to its text, and what lies behind the last one is kept. -/
inductive Carries : Nat → List Char → List Edit → List Char → Prop
  | done (cursor : Nat) (cs : List Char) : Carries cursor cs [] cs
  | edit {cursor : Nat} {kept gone rest : List Char} {e : Edit} {edits : List Edit} {out : List Char}
      (hstart : e.start = cursor + byteSize kept) (hstop : e.stop = e.start + byteSize gone)
      (h : Carries e.stop rest edits out) :
      Carries cursor (kept ++ gone ++ rest) (e :: edits) (kept ++ e.text.toList ++ out)

/-- The text may be cut where an edit starts and where it stops. -/
structure Edit.Cuts (cs : List Char) (e : Edit) : Prop where
  le : e.start ≤ e.stop
  start : IsCut cs e.start
  stop : IsCut cs e.stop

/-- One of the edits stops before the other starts. -/
def Edit.Apart (e f : Edit) : Prop := e.stop ≤ f.start ∨ f.stop ≤ e.start

theorem Edit.Apart.symm (h : e.Apart f) : f.Apart e := Or.symm h

/-- Edits that follow each other are all carried out. -/
theorem applyFrom_carries {before rest : List Char} (hcuts : ∀ e ∈ edits, e.Cuts (before ++ rest))
    (hsorted : edits.Pairwise fun e f => e.stop ≤ f.start) (hcursor : ∀ e ∈ edits, byteSize before ≤ e.start) :
    ∃ out, applyFrom (before ++ rest) (byteSize (before ++ rest)) (byteSize before) edits = some out ∧
      Carries (byteSize before) rest edits out := by
  induction edits generalizing before rest with
  | nil =>
      refine ⟨rest, ?_, .done _ _⟩
      have hslice := slice?_append before rest []
      rwa [List.append_nil, ← byteSize_append] at hslice
  | cons e edits ih =>
      obtain ⟨he, hcuts⟩ := List.forall_mem_cons.1 hcuts
      obtain ⟨hnext, hsorted⟩ := List.pairwise_cons.1 hsorted
      obtain ⟨kept, rest, rfl, hstart⟩ := he.start.exists_between (hcursor e List.mem_cons_self)
      rw [← List.append_assoc] at he hcuts
      obtain ⟨gone, rest, rfl, hstop⟩ := he.stop.exists_between (by
        rw [byteSize_append, ← hstart]
        exact he.le)
      rw [byteSize_append, ← hstart] at hstop
      have hbehind : byteSize (before ++ kept ++ gone) = e.stop := by
        rw [byteSize_append, byteSize_append, hstop, hstart]
      obtain ⟨out, hout, hcarries⟩ := @ih (before ++ kept ++ gone) rest
        (by simpa [List.append_assoc] using hcuts) hsorted (hbehind ▸ hnext)
      rw [hbehind] at hout hcarries
      have hsize := he.stop.le
      have hkept := slice?_append before kept (gone ++ rest)
      rw [← hstart] at hkept
      refine ⟨kept ++ e.text.toList ++ out, ?_, ?_⟩
      · rw [applyFrom, if_neg]
        · simp only [List.append_assoc] at hkept hout ⊢
          rw [hkept, hout]
          simp
        · simp only [List.append_assoc] at hsize ⊢
          omega
      · rw [← List.append_assoc]
        exact .edit hstart hstop hcarries

theorem Edit.le_trans (e f g : Edit) (h : e.le f = true) (h' : f.le g = true) : e.le g = true := by
  simp only [Edit.le, Bool.or_eq_true, Bool.and_eq_true, decide_eq_true_eq] at h h' ⊢
  omega

theorem Edit.le_total (e f : Edit) : (e.le f || f.le e) = true := by
  simp only [Edit.le, Bool.or_eq_true, Bool.and_eq_true, decide_eq_true_eq]
  omega

/-- Of two edits apart, the lesser one stops before the other starts. -/
theorem Edit.Apart.stop_le (h : e.Apart f) (hf : f.start ≤ f.stop) (hle : e.le f = true) :
    e.stop ≤ f.start := by
  simp only [Edit.le, Bool.or_eq_true, Bool.and_eq_true, decide_eq_true_eq] at hle
  rcases h with h | h <;> omega

/-- Edits apart from each other are all carried out, in the order of their places. -/
theorem applyEdits_carries (hcuts : ∀ e ∈ edits, e.Cuts source.toList) (hapart : edits.Pairwise Edit.Apart) :
    ∃ out, applyEdits source edits = some (String.ofList out) ∧
      Carries 0 source.toList (edits.mergeSort Edit.le) out := by
  have hperm := List.mergeSort_perm edits Edit.le
  have hcuts' : ∀ e ∈ edits.mergeSort Edit.le, e.Cuts source.toList := fun e he => hcuts e (hperm.mem_iff.1 he)
  have hsorted : (edits.mergeSort Edit.le).Pairwise fun e f => e.stop ≤ f.start := by
    have hapart' := (hperm.pairwise_iff Edit.Apart.symm).2 hapart
    have hle := List.pairwise_mergeSort Edit.le_trans Edit.le_total edits
    refine (hle.and hapart').imp_of_mem fun {_ f} _ hf h => ?_
    exact h.2.stop_le (hcuts' f hf).le h.1
  obtain ⟨out, hout, hcarries⟩ := @applyFrom_carries (edits.mergeSort Edit.le) [] source.toList
    (by simpa using hcuts') hsorted (by simp [byteSize])
  rw [List.nil_append, show byteSize [] = 0 from rfl] at hout
  exact ⟨out, by rw [applyEdits, hout, Option.map_some], hcarries⟩

/-! ### One edit after the other -/

/-- One edit carried out. There is no answer where a cut falls inside a character. -/
def Edit.splice? (cs : List Char) (e : Edit) : Option (List Char) := do
  let before ← takeBytes? e.start cs
  let after ← dropBytes? e.stop cs
  some (before ++ e.text.toList ++ after)

theorem Edit.splice?_append {kept gone rest : List Char} (hstart : e.start = byteSize kept)
    (hstop : e.stop = e.start + byteSize gone) :
    e.splice? (kept ++ gone ++ rest) = some (kept ++ e.text.toList ++ rest) := by
  have hbefore : takeBytes? e.start (kept ++ gone ++ rest) = some kept := by
    rw [takeBytes?, hstart, List.append_assoc, splitBytes?_byteSize]
    rfl
  have hafter : dropBytes? e.stop (kept ++ gone ++ rest) = some rest := by
    refine dropBytes?_eq_some_iff.2 ⟨kept ++ gone, rfl, ?_⟩
    rw [byteSize_append, hstop, hstart]
  rw [splice?, hbefore, hafter]
  rfl

/-- From the last one to the first, no edit moves the places of those that are still to come. -/
theorem Carries.foldlM_splice (h : Carries cursor cs edits out) {before : List Char}
    (hbefore : byteSize before = cursor) :
    edits.reverse.foldlM (fun cs e => e.splice? cs) (before ++ cs) = some (before ++ out) := by
  induction h generalizing before with
  | done => rfl
  | @edit cursor kept gone rest e edits out hstart hstop _ ih =>
      have hstart : e.start = byteSize (before ++ kept) := by rw [byteSize_append, hbefore, hstart]
      have hbehind : byteSize (before ++ kept ++ gone) = e.stop := by rw [byteSize_append, ← hstart, hstop]
      have hlater := ih hbehind
      have hone := @Edit.splice?_append _ _ _ out hstart hstop
      simp only [List.append_assoc] at hlater hone ⊢
      rw [List.reverse_cons, List.foldlM_append, hlater]
      simpa using hone

theorem applyEdits_singleton (h : e.Cuts source.toList) :
    applyEdits source [e] = (e.splice? source.toList).map String.ofList := by
  obtain ⟨out, hout, hcarries⟩ :=
    applyEdits_carries (List.forall_mem_singleton.2 h) (List.pairwise_singleton Edit.Apart e)
  rw [List.mergeSort_singleton] at hcarries
  have hone := @Carries.foldlM_splice _ _ _ _ hcarries [] rfl
  have hsplice : e.splice? source.toList = some out := by simpa using hone
  rw [hout, hsplice, Option.map_some]

/-- The ranges have no byte in common, and they are not the same place. -/
structure Edit.Disjoint (e f : Edit) : Prop where
  apart : e.Apart f
  inserts : e.start = e.stop → f.start = f.stop → e.start ≠ f.start

instance (cs : List Char) (e : Edit) : Decidable (e.Cuts cs) :=
  decidable_of_iff (e.start ≤ e.stop ∧ IsCut cs e.start ∧ IsCut cs e.stop)
    ⟨fun h => ⟨h.1, h.2.1, h.2.2⟩, fun h => ⟨h.le, h.start, h.stop⟩⟩

instance (e f : Edit) : Decidable (e.Disjoint f) :=
  decidable_of_iff ((e.stop ≤ f.start ∨ f.stop ≤ e.start) ∧
    (e.start = e.stop → f.start = f.stop → e.start ≠ f.start)) ⟨fun h => ⟨h.1, h.2⟩, fun h => ⟨h.apart, h.inserts⟩⟩

theorem Edit.Disjoint.symm (h : e.Disjoint f) : f.Disjoint e :=
  ⟨h.apart.symm, fun hf he => (h.inserts he hf).symm⟩

/-- No two of disjoint edits have one range. -/
theorem Edit.Disjoint.not_le (h : e.Disjoint f) (he : e.start ≤ e.stop) (hf : f.start ≤ f.stop)
    (hle : e.le f = true) : f.le e = false := by
  have hnext := h.apart.stop_le hf hle
  have hplace := h.inserts
  simp only [Edit.le, Bool.or_eq_true, Bool.and_eq_true, decide_eq_true_eq, Bool.or_eq_false_iff,
    Bool.and_eq_false_iff, decide_eq_false_iff_not] at hle ⊢
  omega

/-- Disjoint edits have but one order. -/
theorem eq_of_perm_of_le {edits' : List Edit} (hcuts : ∀ e ∈ edits, e.start ≤ e.stop)
    (hdisjoint : edits.Pairwise Edit.Disjoint) (hperm : edits'.Perm edits)
    (hle : edits.Pairwise fun e f => e.le f = true) (hle' : edits'.Pairwise fun e f => e.le f = true) :
    edits' = edits := by
  have : Std.Symm Edit.Disjoint := ⟨fun _ _ => Edit.Disjoint.symm⟩
  refine List.Perm.eq_of_pairwise (fun e f he hf hef hfe => ?_) hle' hle hperm
  by_contra hne
  have he := hperm.mem_iff.1 he
  rw [(hdisjoint.forall he hf hne).not_le (hcuts e he) (hcuts f hf) hef] at hfe
  cases hfe

/-- Disjoint edits are carried out as if they were applied one after the other, the highest range first, and
whatever the order in which they are listed. -/
theorem applyEdits_one_by_one (hcuts : ∀ e ∈ edits, e.Cuts source.toList)
    (hdisjoint : edits.Pairwise Edit.Disjoint) : ∃ out, applyEdits source edits = some out ∧
      (∀ falling : List Edit, falling.Perm edits → falling.Pairwise (fun e f => f.le e = true) →
        falling.foldlM (fun cs e => e.splice? cs) source.toList = some out.toList) ∧
        ∀ edits' : List Edit, edits'.Perm edits → applyEdits source edits' = some out := by
  obtain ⟨out, hout, hcarries⟩ := applyEdits_carries hcuts (hdisjoint.imp fun h => h.apart)
  have hsorted := fun edits : List Edit => List.pairwise_mergeSort Edit.le_trans Edit.le_total edits
  have hperm := List.mergeSort_perm edits Edit.le
  have honly : ∀ rising : List Edit, rising.Perm edits → rising.Pairwise (fun e f => e.le f = true) →
      rising = edits.mergeSort Edit.le := by
    intro rising hrising hle
    refine eq_of_perm_of_le (fun e he => ?_) ?_ (hrising.trans hperm.symm) (hsorted edits) hle
    · exact (hcuts e (hperm.mem_iff.1 he)).le
    · exact (hperm.pairwise_iff Edit.Disjoint.symm).2 hdisjoint
  refine ⟨String.ofList out, hout, fun falling hfalling hle => ?_, fun edits' hedits' => ?_⟩
  · have hreverse : falling.reverse = edits.mergeSort Edit.le :=
      honly _ ((List.reverse_perm falling).trans hfalling) (List.pairwise_reverse.2 hle)
    have hone := @Carries.foldlM_splice _ _ _ _ hcarries [] rfl
    rw [← hreverse, List.reverse_reverse] at hone
    rw [String.toList_ofList]
    exact hone
  · rw [← hout, applyEdits, applyEdits,
      honly _ ((List.mergeSort_perm edits' Edit.le).trans hedits') (hsorted edits')]

/-- Edits that touch each other, with insertions at both ends of one of them. -/
def touching : List Edit := [⟨4, 10, "there"⟩, .insert 10 "<", ⟨1, 3, "i"⟩, .insert 4 ">", .remove 3 4]

theorem applyEdits_touching : (∀ e ∈ touching, e.Cuts "hé wörld!".toList) ∧ touching.Pairwise Edit.Disjoint ∧
    applyEdits "hé wörld!" touching.reverse = some "hi>there<!" ∧
      [Edit.insert 10 "<", ⟨4, 10, "there"⟩, .insert 4 ">", .remove 3 4, ⟨1, 3, "i"⟩].foldlM
        (fun cs e => e.splice? cs) "hé wörld!".toList = some "hi>there<!".toList := by
  have hcuts : ∀ e ∈ touching, e.Cuts "hé wörld!".toList := by decide +kernel
  have hdisjoint : touching.Pairwise Edit.Disjoint := by decide
  have happlied : applyEdits "hé wörld!" [⟨1, 3, "i"⟩, .remove 3 4, .insert 4 ">", ⟨4, 10, "there"⟩, .insert 10 "<"] =
      some "hi>there<!" := by
    rw [applyEdits, List.mergeSort_of_pairwise (by decide)]
    decide +kernel
  obtain ⟨out, -, hfalling, hany⟩ := applyEdits_one_by_one hcuts hdisjoint
  obtain rfl : "hi>there<!" = out := Option.some.inj (happlied.symm.trans (hany _ (by decide)))
  exact ⟨hcuts, hdisjoint, hany _ (List.reverse_perm touching), hfalling _ (by decide) (by decide)⟩

end Text
end StaticGql
