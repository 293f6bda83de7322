import StaticGql.Proofs.Dict
import StaticGql.Tracker

/-!
The tracker knows the files of the last commit, up to what their fingerprints tell apart.
-/

namespace StaticGql

/-- Fingerprints of the same content, or none. -/
abbrev Fingerprint.Same : Option Fingerprint → Option Fingerprint → Prop :=
  Option.Rel fun f g => f.differs g = false

theorem Fingerprint.differs_self (f : Fingerprint) : f.differs f = false := by
  simp [differs]

theorem Fingerprint.differs_eq_false_iff {f g : Fingerprint} :
    f.differs g = false ↔ f.hash = g.hash ∧ f.size = g.size := by
  simp [differs]

theorem Fingerprint.Same.symm {o o' : Option Fingerprint} (h : Same o o') : Same o' o := by
  cases h with
  | some h =>
      rw [differs_eq_false_iff] at h
      exact .some (differs_eq_false_iff.2 ⟨h.1.symm, h.2.symm⟩)
  | none => exact .none

theorem Fingerprint.Same.trans {o o' o'' : Option Fingerprint} (h : Same o o') (h' : Same o' o'') :
    Same o o'' := by
  cases h with
  | some h =>
      cases h' with
      | some h' =>
          rw [differs_eq_false_iff] at h h'
          exact .some (differs_eq_false_iff.2 ⟨h.1.trans h'.1, h.2.trans h'.2⟩)
  | none => exact h'

theorem Fingerprint.Same.isSome_iff {o o' : Option Fingerprint} (h : Same o o') :
    o.isSome = true ↔ o'.isSome = true := by
  cases h with
  | some => simp
  | none => simp

namespace Tracker

open Fingerprint (Same)

variable {t : Tracker} {now : Dict Fingerprint} {path : String} {f g : Fingerprint}

theorem mem_added : path ∈ (t.diff now).added ↔ (now.get? path).isSome ∧ t.files.get? path = none := by
  simp [diff, List.mem_filter, Dict.mem_keys_iff, isNew, Dict.contains]

theorem mem_removed :
    path ∈ (t.diff now).removed ↔ (t.files.get? path).isSome ∧ now.get? path = none := by
  simp [diff, List.mem_filter, Dict.mem_keys_iff, Dict.contains]

theorem mem_changed : path ∈ (t.diff now).changed ↔
    ∃ f g, t.files.get? path = some f ∧ now.get? path = some g ∧ f.differs g = true := by
  have hkeys : path ∈ (t.diff now).changed ↔ ((now.get? path).filter (t.isChanged path)).isSome := by
    rw [← Dict.get?_filter, ← Dict.mem_keys_iff]
    rfl
  rw [hkeys]
  cases hg : now.get? path with
  | none => simp
  | some g =>
      cases hf : t.files.get? path with
      | none => simp [isChanged, hf]
      | some f => simp [isChanged, hf]

/-- Nothing has changed if and only if the same paths have the same contents. -/
theorem isEmpty_diff_iff :
    (t.diff now).isEmpty = true ↔ ∀ path, Same (t.files.get? path) (now.get? path) := by
  simp only [Diff.isEmpty, Bool.and_eq_true, List.isEmpty_iff, List.eq_nil_iff_forall_not_mem,
    mem_added, mem_removed, mem_changed]
  constructor
  · rintro ⟨⟨hadded, hremoved⟩, hchanged⟩ path
    cases hf : t.files.get? path with
    | none =>
        cases hg : now.get? path with
        | none => exact .none
        | some g => exact absurd ⟨by simp [hg], hf⟩ (hadded path)
    | some f =>
        cases hg : now.get? path with
        | none => exact absurd ⟨by simp [hf], hg⟩ (hremoved path)
        | some g =>
            apply Option.Rel.some
            rw [← Bool.not_eq_true]
            exact fun hdiffers => hchanged path ⟨f, g, hf, hg, hdiffers⟩
  · intro h
    refine ⟨⟨fun path hpath => ?_, fun path hpath => ?_⟩, fun path hpath => ?_⟩
    · have hsame := h path
      rw [hpath.2] at hsame
      cases hg : now.get? path with
      | none => simp [hg] at hpath
      | some g =>
          rw [hg] at hsame
          cases hsame
    · have hsame := h path
      rw [hpath.2] at hsame
      cases hf : t.files.get? path with
      | none => simp [hf] at hpath
      | some f =>
          rw [hf] at hsame
          cases hsame
    · obtain ⟨f, g, hf, hg, hdiffers⟩ := hpath
      have hsame := h path
      rw [hf, hg] at hsame
      cases hsame with
      | some hnot =>
          rw [hnot] at hdiffers
          cases hdiffers

theorem get?_commit (t : Tracker) (d : Diff) (path : String) : (t.commit d).files.get? path =
    (d.fingerprints.get? path).or (if path ∈ d.removed then none else t.files.get? path) := by
  have hfilter : (t.files.filter fun path _ => path ∉ d.removed).get? path =
      if path ∈ d.removed then none else t.files.get? path := by
    rw [Dict.get?_filter]
    by_cases hpath : path ∈ d.removed
    · rw [if_pos hpath]
      cases t.files.get? path <;> simp [hpath]
    · rw [if_neg hpath]
      cases t.files.get? path <;> simp [hpath]
  have hfold := Dict.get?_foldl_insert d.fingerprints.toList
    (t.files.filter fun path _ => path ∉ d.removed) path
  rw [← Dict.get?_ofList, Dict.ofList_toList, hfilter] at hfold
  exact hfold

/-- After committing what has changed the tracker knows the files as they are. -/
theorem same_commit_diff (t : Tracker) (now : Dict Fingerprint) (path : String) :
    Same ((t.commit (t.diff now)).files.get? path) (now.get? path) := by
  rw [get?_commit]
  have hfingerprint : (t.diff now).fingerprints.get? path =
      (now.get? path).filter fun g => t.isNew path || t.isChanged path g := Dict.get?_filter ..
  rw [hfingerprint]
  cases hg : now.get? path with
  | none =>
      have hnone : (if path ∈ (t.diff now).removed then none else t.files.get? path) = none := by
        by_cases hremoved : path ∈ (t.diff now).removed
        · rw [if_pos hremoved]
        · rw [if_neg hremoved]
          rw [mem_removed, not_and'] at hremoved
          simpa using hremoved hg
      rw [hnone]
      exact .none
  | some g =>
      have hkept : path ∉ (t.diff now).removed := by
        rw [mem_removed, hg]
        simp
      rw [Option.filter_some, if_neg hkept]
      by_cases hnew : (t.isNew path || t.isChanged path g) = true
      · rw [if_pos hnew]
        exact .some (Fingerprint.differs_self g)
      · rw [if_neg hnew]
        rw [Bool.or_eq_true, not_or] at hnew
        cases hf : t.files.get? path with
        | none => simp [isNew, Dict.contains, hf] at hnew
        | some f =>
            apply Option.Rel.some
            simpa [isChanged, hf] using hnew.2

/-! ### A diff as a whole -/

/-- A path is in one part of a diff, if it is in any. -/
def Apart (d : Diff) : Prop :=
  d.added.Disjoint d.removed ∧ d.added.Disjoint d.changed ∧ d.removed.Disjoint d.changed

theorem apart_diff (t : Tracker) (now : Dict Fingerprint) : Apart (t.diff now) := by
  refine ⟨fun path hadded hremoved => ?_, fun path hadded hchanged => ?_, fun path hremoved hchanged => ?_⟩
  · have hnone := (mem_added.1 hadded).2
    simp [mem_removed, hnone] at hremoved
  · have hnone := (mem_added.1 hadded).2
    simp [mem_changed, hnone] at hchanged
  · have hnone := (mem_removed.1 hremoved).2
    simp [mem_changed, hnone] at hchanged

theorem keys_commit_diff (t : Tracker) (now : Dict Fingerprint) : (t.commit (t.diff now)).files.keys = now.keys := by
  rw [Dict.keys_eq_iff]
  exact fun path => (t.same_commit_diff now path).isSome_iff

theorem isEmpty_diff_commit (t : Tracker) (now : Dict Fingerprint) :
    ((t.commit (t.diff now)).diff now).isEmpty = true :=
  isEmpty_diff_iff.2 (t.same_commit_diff now)

/-- What a diff says of the files that there were and the files that there are, and that it has nothing more
to say once it is committed. -/
structure Exact (t : Tracker) (now : Dict Fingerprint) : Prop where
  added : ∀ path, path ∈ (t.diff now).added ↔ path ∈ now.keys ∧ path ∉ t.files.keys
  removed : ∀ path, path ∈ (t.diff now).removed ↔ path ∈ t.files.keys ∧ path ∉ now.keys
  changed : ∀ path, path ∈ (t.diff now).changed ↔
    ∃ f g, t.files.get? path = some f ∧ now.get? path = some g ∧ (f.hash ≠ g.hash ∨ f.size ≠ g.size)
  apart : Apart (t.diff now)
  isEmpty_iff : (t.diff now).isEmpty = true ↔ t.files.keys = now.keys ∧
    ∀ path f g, t.files.get? path = some f → now.get? path = some g → f.hash = g.hash ∧ f.size = g.size
  keys_commit : (t.commit (t.diff now)).files.keys = now.keys
  isEmpty_commit : ((t.commit (t.diff now)).diff now).isEmpty = true

theorem exact_diff (t : Tracker) (now : Dict Fingerprint) : t.Exact now where
  added path := by simp [mem_added, Dict.mem_keys_iff]
  removed path := by simp [mem_removed, Dict.mem_keys_iff]
  changed path := by simp [mem_changed, Fingerprint.differs]
  apart := t.apart_diff now
  isEmpty_iff := by
    rw [isEmpty_diff_iff, Dict.keys_eq_iff]
    constructor
    · refine fun h => ⟨fun path => (h path).isSome_iff, fun path f g hf hg => ?_⟩
      have hsame := h path
      rw [hf, hg] at hsame
      cases hsame with
      | some hsame => exact Fingerprint.differs_eq_false_iff.1 hsame
    · rintro ⟨hkeys, hsame⟩ path
      cases hf : t.files.get? path with
      | none =>
          have hnone : now.get? path = none := by
            rw [← Option.not_isSome_iff_eq_none, ← hkeys path, hf]
            simp
          rw [hnone]
          exact .none
      | some f =>
          obtain ⟨g, hg⟩ := Option.isSome_iff_exists.1 ((hkeys path).1 (by rw [hf]; rfl))
          rw [hg]
          exact .some (Fingerprint.differs_eq_false_iff.2 (hsame path f g hf hg))
  keys_commit := t.keys_commit_diff now
  isEmpty_commit := t.isEmpty_diff_commit now

end Tracker
end StaticGql
