import ConfigAudit.Proofs.WellFormedValues
import Mathlib.Data.List.Sort
import Mathlib.Data.String.Basic

/-!
# Equality of values by sorted keys

Equality of values ignores the order of map entries at every level. Sorting all maps by key brings a
value into a canonical form, `sortKeys`, and well-formed values with the same form are equal
(`equal_of_sortKeys_eq`). The form itself compares numbers as they are stored, so it also says
something about values that hold a `nan` and so are not even equal to themselves.

* `Distinct.eq_of_sorted`: distinct keys are sorted in one way only;
* `sortKeys_map_congr`: maps whose values have the same form under every key have the same form.
-/

namespace ConfigAudit

open OrderedMap

theorem Double.numEq_self {x : Double} (hx : x ≠ .nan) : x.numEq x = true := by
  cases x with
  | nan => exact absurd rfl hx
  | infinite s => simp [numEq]
  | finite s m e => simp [numEq, align]

/-- Maps with the same entries are the same list once they are sorted by key. -/
theorem OrderedMap.Distinct.eq_of_sorted {α : Type} {m n : OrderedMap α} (hm : m.Distinct)
    (h : m.Perm n) (hsorted : m.Pairwise fun e f => e.1 ≤ f.1)
    (hsorted' : n.Pairwise fun e f => e.1 ≤ f.1) : m = n := by
  refine h.eq_of_pairwise ?_ hsorted hsorted'
  intro e f he hf hef hfe
  have hkey : e.1 = f.1 := le_antisymm hef hfe
  have he' : (e.1, e.2) ∈ m := he
  have hf' : (f.1, f.2) ∈ m := h.mem_iff.2 hf
  rw [← hm.lookup_eq_some] at he' hf'
  rw [hkey, hf'] at he'
  exact Prod.ext hkey (Option.some.inj he').symm

namespace Value

/-- Entries sorted by key. -/
def sortByKey (entries : List (String × Value)) : List (String × Value) :=
  entries.insertionSort fun e f => e.1 ≤ f.1

mutual

/-- A value with the entries of all maps in it sorted by key. -/
def sortKeys : Value → Value
  | .list items => .list (sortItems items)
  | .map entries => .map (sortByKey (sortEntries entries))
  | v => v

/-- Items with the entries of all maps in them sorted by key. -/
def sortItems : List Value → List Value
  | [] => []
  | v :: rest => sortKeys v :: sortItems rest

/-- Entries with the entries of all maps in their values sorted by key. -/
def sortEntries : List (String × Value) → List (String × Value)
  | [] => []
  | (k, v) :: rest => (k, sortKeys v) :: sortEntries rest

end

theorem sortItems_eq_map (items : List Value) : sortItems items = items.map sortKeys := by
  induction items with
  | nil => rfl
  | cons v rest ih => rw [sortItems, ih, List.map_cons]

theorem sortEntries_eq_map (entries : List (String × Value)) :
    sortEntries entries = entries.map fun e => (e.1, e.2.sortKeys) := by
  induction entries with
  | nil => rfl
  | cons e rest ih => rw [sortEntries, ih, List.map_cons]

theorem perm_sortByKey (entries : List (String × Value)) : (sortByKey entries).Perm entries :=
  List.perm_insertionSort _ entries

theorem pairwise_sortByKey (entries : List (String × Value)) :
    (sortByKey entries).Pairwise fun e f => e.1 ≤ f.1 := by
  have : Std.Total fun e f : String × Value => e.1 ≤ f.1 := ⟨fun e f => le_total e.1 f.1⟩
  have : IsTrans (String × Value) fun e f => e.1 ≤ f.1 := ⟨fun _ _ _ => le_trans⟩
  exact List.pairwise_insertionSort _ entries

/-- Entries with distinct keys are sorted in one way only. -/
theorem sortByKey_eq_of_perm {es fs : OrderedMap Value} (h : es.Perm fs) (hd : es.Distinct) :
    sortByKey es = sortByKey fs := by
  have hperm : (sortByKey es).Perm (sortByKey fs) :=
    (perm_sortByKey es).trans (h.trans (perm_sortByKey fs).symm)
  have hdistinct : Distinct (sortByKey es) := ((perm_sortByKey es).map Prod.fst).nodup_iff.2 hd
  exact hdistinct.eq_of_sorted hperm (pairwise_sortByKey es) (pairwise_sortByKey fs)

theorem keys_sortEntries (m : Config) : keys (sortEntries m) = m.keys := by
  rw [sortEntries_eq_map, keys_mapValues]

theorem lookup_sortEntries (m : Config) (key : String) :
    lookup (sortEntries m) key = (m.lookup key).map sortKeys := by
  rw [sortEntries_eq_map, lookup_mapValues]

theorem distinct_sortEntries {m : Config} : Distinct (sortEntries m) ↔ m.Distinct := by
  rw [Distinct, Distinct, keys_sortEntries]

/-- Maps that hold values of the same form under every key have the same form. -/
theorem sortKeys_map_congr {m n : Config} (hm : m.Distinct) (hn : n.Distinct)
    (h : ∀ key, (m.lookup key).map sortKeys = (n.lookup key).map sortKeys) :
    sortKeys (.map m) = sortKeys (.map n) := by
  have hm' := distinct_sortEntries.2 hm
  have hperm : (sortEntries m).Perm (sortEntries n) := by
    refine hm'.perm_of_lookup_eq (distinct_sortEntries.2 hn) fun key => ?_
    rw [lookup_sortEntries, lookup_sortEntries, h]
  rw [sortKeys, sortKeys, sortByKey_eq_of_perm hperm hm']

/-- Maps of the same form have as many entries, and one of the same form under every key. -/
theorem lookup_of_sortKeys_map_eq {m n : Config} (hm : m.Distinct)
    (h : sortKeys (.map m) = sortKeys (.map n)) :
    m.length = n.length ∧
      ∀ e ∈ m, ∃ b, n.lookup e.1 = some b ∧ e.2.sortKeys = b.sortKeys := by
  rw [sortKeys, sortKeys, Value.map.injEq] at h
  have hperm : (sortEntries m).Perm (sortEntries n) :=
    (perm_sortByKey _).symm.trans (h ▸ perm_sortByKey _)
  have hn : n.Distinct :=
    distinct_sortEntries.1 ((hperm.map Prod.fst).nodup_iff.1 (distinct_sortEntries.2 hm))
  constructor
  · have hlength := hperm.length_eq
    rwa [sortEntries_eq_map, sortEntries_eq_map, List.length_map, List.length_map] at hlength
  · intro e he
    have hmem : (e.1, e.2.sortKeys) ∈ sortEntries n := by
      rw [← hperm.mem_iff, sortEntries_eq_map]
      exact List.mem_map_of_mem he
    rw [← (distinct_sortEntries.2 hn).lookup_eq_some, lookup_sortEntries] at hmem
    obtain ⟨b, hb, hform⟩ := Option.map_eq_some_iff.1 hmem
    exact ⟨b, hb, hform.symm⟩

/-! ### Equality -/

/-- Items of the same form are equal, if those of the first list are equal to whatever has their
form. -/
theorem equalItems_of_map_eq {form : Value → Value} {xs ys : List Value}
    (ih : ∀ v ∈ xs, ∀ w, form v = form w → equal v w = true) (h : xs.map form = ys.map form) :
    equalItems xs ys = true := by
  induction xs generalizing ys with
  | nil =>
    cases ys with
    | nil => rfl
    | cons w rest => cases h
  | cons v xs ihxs =>
    cases ys with
    | nil => cases h
    | cons w ys =>
      rw [List.map_cons, List.map_cons, List.cons.injEq] at h
      rw [List.forall_mem_cons] at ih
      rw [equalItems, ih.1 w h.1, ihxs ih.2 h.2, Bool.and_self]

theorem entriesIn_iff {ms ns : Config} :
    entriesIn ms ns = true ↔ ∀ e ∈ ms, ∃ b, ns.lookup e.1 = some b ∧ equal e.2 b = true := by
  induction ms with
  | nil => simp [entriesIn]
  | cons e ms ih =>
    rw [entriesIn, Bool.and_eq_true, ih, List.forall_mem_cons]
    cases ns.lookup e.1 <;> simp

/-- Well-formed values of the same form are equal. -/
theorem equal_of_sortKeys_eq {v w : Value} (hv : v.WellFormed) (h : v.sortKeys = w.sortKeys) :
    equal v w = true := by
  induction hv generalizing w with
  | null => cases w <;> simp_all [sortKeys, equal]
  | bool b => cases w <;> simp_all [sortKeys, equal]
  | number hx => cases w <;> simp_all [sortKeys, equal, Double.numEq_self]
  | string s => cases w <;> simp_all [sortKeys, equal]
  | list _ ih =>
    cases w with
    | list ys =>
      rw [sortKeys, sortKeys, Value.list.injEq, sortItems_eq_map, sortItems_eq_map] at h
      rw [equal]
      exact equalItems_of_map_eq (fun v hv w => ih v hv) h
    | _ => simp [sortKeys] at h
  | map hdistinct _ ih =>
    cases w with
    | map ns =>
      obtain ⟨hlength, hlookup⟩ := lookup_of_sortKeys_map_eq hdistinct h
      rw [equal, Bool.and_eq_true, beq_iff_eq, entriesIn_iff]
      refine ⟨hlength, fun e he => ?_⟩
      obtain ⟨b, hb, hform⟩ := hlookup e he
      exact ⟨b, hb, ih e he hform⟩
    | _ => simp [sortKeys] at h

end Value

end ConfigAudit
