import ConfigAudit.OrderedMap
import Mathlib.Data.List.Induction
import Mathlib.Data.List.Nodup

/-!
# Theory of ordered maps

A list of entries determines a map, `ofEntries`. What is found under a key is the last value of the
list with this key, and the keys stand in the order of their first occurrences. `merge` is the map
of two lists of entries one after the other (`ofEntries_append`), so that all facts about merged
maps come from these two.
-/

namespace ConfigAudit.OrderedMap

variable {α β : Type}

/-- The values that a list of entries holds under a key, in order. -/
def valuesOf (entries : List (String × α)) (key : String) : List α :=
  entries.filterMap fun e => if e.1 = key then some e.2 else none

section ValuesOf

@[simp] theorem valuesOf_nil (key : String) : valuesOf ([] : List (String × α)) key = [] := rfl

theorem valuesOf_cons (e : String × α) (entries : List (String × α)) (key : String) :
    valuesOf (e :: entries) key =
      if e.1 = key then e.2 :: valuesOf entries key else valuesOf entries key := by
  unfold valuesOf
  rw [List.filterMap_cons]
  split_ifs <;> rfl

@[simp] theorem valuesOf_append (es fs : List (String × α)) (key : String) :
    valuesOf (es ++ fs) key = valuesOf es key ++ valuesOf fs key := List.filterMap_append

theorem mem_valuesOf {entries : List (String × α)} {key : String} {value : α} :
    value ∈ valuesOf entries key ↔ (key, value) ∈ entries := by
  rw [valuesOf, List.mem_filterMap]
  constructor
  · rintro ⟨⟨k, v⟩, hmem, hk⟩
    split_ifs at hk with h
    cases hk
    exact h ▸ hmem
  · intro hmem
    exact ⟨(key, value), hmem, if_pos rfl⟩

/-- A key has values exactly if it occurs. -/
theorem valuesOf_ne_nil {entries : List (String × α)} {key : String} :
    valuesOf entries key ≠ [] ↔ key ∈ keys entries := by
  induction entries with
  | nil => simp
  | cons e rest ih =>
    rw [valuesOf_cons, keys_cons, List.mem_cons, ← ih]
    split_ifs with h
    · exact ⟨fun _ => Or.inl h.symm, fun _ => List.cons_ne_nil _ _⟩
    · exact ⟨Or.inr, fun hk => hk.resolve_left fun he => h he.symm⟩

/-- Every value under a key was inserted under it. -/
theorem mem_of_getLast?_valuesOf {entries : List (String × α)} {key : String} {value : α}
    (h : (valuesOf entries key).getLast? = some value) : (key, value) ∈ entries :=
  mem_valuesOf.1 (List.mem_of_getLast? h)

/-- Entries that are mapped to entries with the same key keep the order of keys. -/
theorem keys_filterMap_of_isSome (f : α → Option β) {entries : List (String × α)}
    (h : ∀ e ∈ entries, (f e.2).isSome) :
    keys (entries.filterMap fun e => (f e.2).map fun b => (e.1, b)) = keys entries := by
  induction entries with
  | nil => rfl
  | cons e rest ih =>
    rw [List.forall_mem_cons] at h
    obtain ⟨b, hb⟩ := Option.isSome_iff_exists.1 h.1
    rw [List.filterMap_cons_some (by rw [hb, Option.map_some]), keys_cons, keys_cons, ih h.2]

/-- Entries that are mapped to entries with the same key, or dropped, keep the order of values. -/
theorem valuesOf_filterMap (f : α → Option β) (entries : List (String × α)) (key : String) :
    valuesOf (entries.filterMap fun e => (f e.2).map fun b => (e.1, b)) key =
      (valuesOf entries key).filterMap f := by
  induction entries with
  | nil => rfl
  | cons e rest ih =>
    rw [List.filterMap_cons, valuesOf_cons]
    cases hf : f e.2 with
    | none =>
      simp only [Option.map_none, ih]
      split_ifs
      · rw [List.filterMap_cons_none hf]
      · rfl
    | some b =>
      simp only [Option.map_some, valuesOf_cons, ih]
      split_ifs
      · rw [List.filterMap_cons_some hf]
      · rfl

end ValuesOf

/-! ### Look-up -/

/-- Merging overwrites: the last value that is inserted under a key is found. -/
theorem lookup_merge (m : OrderedMap α) (entries : List (String × α)) (key : String) :
    (m.merge entries).lookup key = (valuesOf entries key).getLast?.or (m.lookup key) := by
  induction entries generalizing m with
  | nil => rfl
  | cons e rest ih =>
    rw [merge_cons, ih, lookup_insert, valuesOf_cons]
    split_ifs with h
    · rw [List.getLast?_cons]
      cases (valuesOf rest key).getLast? <;> rfl
    · rfl

/-- The last value under a key is found. -/
theorem lookup_ofEntries (entries : List (String × α)) (key : String) :
    (ofEntries entries).lookup key = (valuesOf entries key).getLast? := by
  rw [ofEntries, lookup_merge, lookup_nil, Option.or_none]

theorem lookup_alter (m : OrderedMap α) (key k : String) (f : Option α → α) :
    (m.alter key f).lookup k = if key = k then some (f (m.lookup k)) else m.lookup k := by
  rw [alter, lookup_insert]
  split_ifs with h
  · rw [h]
  · rfl

theorem lookup_eq_none {m : OrderedMap α} {key : String} : m.lookup key = none ↔ key ∉ m.keys := by
  rw [← lookup_isSome, Option.not_isSome_iff_eq_none]

/-- What is found under a key is one of the entries. -/
theorem mem_of_lookup_eq_some {m : OrderedMap α} {key : String} {value : α}
    (h : m.lookup key = some value) : (key, value) ∈ m := by
  induction m with
  | nil => cases h
  | cons e rest ih =>
    rw [lookup] at h
    split_ifs at h with hk
    · cases h
      exact hk ▸ List.mem_cons_self
    · exact List.mem_cons_of_mem _ (ih h)

theorem eq_or_mem_of_mem_insert {m : OrderedMap α} {key : String} {value : α} {e : String × α}
    (h : e ∈ m.insert key value) : e = (key, value) ∨ e ∈ m := by
  induction m with
  | nil => exact Or.inl (List.mem_singleton.1 h)
  | cons d rest ih =>
    rw [insert] at h
    split_ifs at h with hk
    · rcases List.mem_cons.1 h with rfl | h
      · exact Or.inl (by rw [hk])
      · exact Or.inr (List.mem_cons_of_mem _ h)
    · rcases List.mem_cons.1 h with rfl | h
      · exact Or.inr List.mem_cons_self
      · exact (ih h).imp_right (List.mem_cons_of_mem _)

/-- In a map with distinct keys there is at most one value under a key. -/
theorem Distinct.valuesOf_eq {m : OrderedMap α} (h : m.Distinct) (key : String) :
    valuesOf m key = (m.lookup key).toList := by
  induction m with
  | nil => rfl
  | cons e rest ih =>
    obtain ⟨he, hr⟩ := List.nodup_cons.1 h
    rw [valuesOf_cons, lookup]
    split_ifs with hk
    · have hnil : valuesOf rest key = [] := by
        by_contra hne
        exact he (hk ▸ valuesOf_ne_nil.1 hne)
      rw [hnil, Option.toList_some]
    · exact ih hr

theorem Distinct.lookup_eq_some {m : OrderedMap α} (h : m.Distinct) {key : String} {value : α} :
    m.lookup key = some value ↔ (key, value) ∈ m := by
  rw [← mem_valuesOf, h.valuesOf_eq, Option.mem_toList]

/-- With distinct keys, merging takes the second map where it has an entry. -/
theorem Distinct.lookup_merge_eq {n : OrderedMap α} (hn : n.Distinct) (m : OrderedMap α)
    (key : String) : (m.merge n).lookup key = (n.lookup key).or (m.lookup key) := by
  rw [lookup_merge, hn.valuesOf_eq]
  cases n.lookup key <;> rfl

/-- Maps with the same bindings have the same entries up to order. -/
theorem Distinct.perm_of_lookup_eq {m n : OrderedMap α} (hm : m.Distinct) (hn : n.Distinct)
    (h : ∀ key, m.lookup key = n.lookup key) : m.Perm n := by
  rw [List.perm_ext_iff_of_nodup hm.of_map hn.of_map]
  rintro ⟨key, value⟩
  rw [← hm.lookup_eq_some, ← hn.lookup_eq_some, h]

/-- The order of entries does not matter to look-up. -/
theorem Distinct.lookup_perm {m n : OrderedMap α} (hm : m.Distinct) (h : m.Perm n) (key : String) :
    m.lookup key = n.lookup key := by
  have hn : n.Distinct := (h.map Prod.fst).nodup_iff.1 hm
  refine Option.ext fun value => ?_
  rw [hm.lookup_eq_some, hn.lookup_eq_some, h.mem_iff]

/-! ### Mapped values -/

theorem keys_mapEntries (f : String → α → β) (m : OrderedMap α) :
    keys (m.map fun e => (e.1, f e.1 e.2)) = m.keys := by
  rw [keys, keys, List.map_map]
  rfl

theorem valuesOf_mapEntries (f : String → α → β) (entries : List (String × α)) (key : String) :
    valuesOf (entries.map fun e => (e.1, f e.1 e.2)) key = (valuesOf entries key).map (f key) := by
  rw [valuesOf, valuesOf, List.filterMap_map, List.map_filterMap]
  refine List.filterMap_congr fun e _ => ?_
  rw [Function.comp_apply]
  split_ifs with hkey
  · rw [Option.map_some, hkey]
  · rfl

theorem lookup_mapEntries (f : String → α → β) (m : OrderedMap α) (key : String) :
    lookup (m.map fun e => (e.1, f e.1 e.2)) key = (m.lookup key).map (f key) := by
  induction m with
  | nil => rfl
  | cons e rest ih =>
    rw [List.map_cons, lookup, lookup]
    split_ifs with hkey
    · rw [Option.map_some, hkey]
    · exact ih

theorem keys_mapValues (f : α → β) (m : OrderedMap α) :
    keys (m.map fun e => (e.1, f e.2)) = m.keys := keys_mapEntries (fun _ => f) m

theorem lookup_mapValues (f : α → β) (m : OrderedMap α) (key : String) :
    lookup (m.map fun e => (e.1, f e.2)) key = (m.lookup key).map f :=
  lookup_mapEntries (fun _ => f) m key

theorem Distinct.mapValues {m : OrderedMap α} (h : m.Distinct) (f : α → β) :
    Distinct (m.map fun e => (e.1, f e.2)) := by
  rw [Distinct, keys_mapValues]
  exact h

/-- Maps whose values have the same images hold, under each key, values with the same image. -/
theorem Distinct.lookup_of_map_eq {f : α → β} {m n : OrderedMap α} (hm : m.Distinct)
    (h : (m.map fun e => (e.1, f e.2)) = n.map fun e => (e.1, f e.2)) :
    m.length = n.length ∧ ∀ e ∈ m, ∃ b, n.lookup e.1 = some b ∧ f e.2 = f b := by
  constructor
  · have hlength := congrArg List.length h
    rwa [List.length_map, List.length_map] at hlength
  · intro e he
    have hlookup : (m.lookup e.1).map f = (n.lookup e.1).map f := by
      rw [← lookup_mapValues, ← lookup_mapValues, h]
    rw [hm.lookup_eq_some.2 he, Option.map_some] at hlookup
    obtain ⟨b, hb, hf⟩ := Option.map_eq_some_iff.1 hlookup.symm
    exact ⟨b, hb, hf.symm⟩

/-! ### First occurrences -/

section FirstOccurrences

theorem eraseDups_append_singleton (l : List String) (a : String) :
    (l ++ [a]).eraseDups = if a ∈ l then l.eraseDups else l.eraseDups ++ [a] := by
  rw [List.eraseDups_append]
  split_ifs with h <;> simp [h, List.removeAll, List.eraseDups_cons]

theorem eraseDups_filter (p : String → Bool) (l : List String) :
    (l.filter p).eraseDups = l.eraseDups.filter p := by
  induction l using List.reverseRecOn with
  | nil => rfl
  | append_singleton l a ih =>
    rw [List.filter_append, eraseDups_append_singleton]
    cases hp : p a with
    | true =>
      have hsingle : [a].filter p = [a] := by simp [hp]
      rw [hsingle, eraseDups_append_singleton, ih]
      by_cases ha : a ∈ l <;> simp [ha, hp]
    | false =>
      have hsingle : [a].filter p = [] := by simp [hp]
      rw [hsingle, List.append_nil, ih]
      split_ifs
      · rfl
      · rw [List.filter_append, hsingle, List.append_nil]

theorem eraseDups_eraseDups (l : List String) : l.eraseDups.eraseDups = l.eraseDups := by
  induction l using List.reverseRecOn with
  | nil => rfl
  | append_singleton l a ih =>
    rw [eraseDups_append_singleton]
    split_ifs with h
    · exact ih
    · rw [eraseDups_append_singleton, ih, if_neg (mt List.mem_eraseDups.1 h)]

theorem nodup_eraseDups (l : List String) : l.eraseDups.Nodup := by
  induction l using List.reverseRecOn with
  | nil => exact List.nodup_nil
  | append_singleton l a ih =>
    rw [eraseDups_append_singleton]
    split_ifs with h
    · exact ih
    · rw [← List.concat_eq_append]
      exact ih.concat (mt List.mem_eraseDups.1 h)

end FirstOccurrences

/-! ### Keys -/

theorem distinct_nil : Distinct ([] : OrderedMap α) := List.nodup_nil

theorem Distinct.merge {m : OrderedMap α} (h : m.Distinct) (entries : List (String × α)) :
    (m.merge entries).Distinct := by
  induction entries generalizing m with
  | nil => exact h
  | cons e rest ih => exact ih (h.insert e.1 e.2)

theorem distinct_ofEntries (entries : List (String × α)) : (ofEntries entries).Distinct :=
  distinct_nil.merge entries

theorem mem_of_mem_ofEntries {entries : List (String × α)} {e : String × α}
    (h : e ∈ ofEntries entries) : e ∈ entries := by
  have hlookup := (distinct_ofEntries entries).lookup_eq_some.2 (show (e.1, e.2) ∈ _ from h)
  rw [lookup_ofEntries] at hlookup
  exact mem_of_getLast?_valuesOf hlookup

/-- The keys of a map stand in the order of their first occurrences among the entries. -/
theorem keys_ofEntries (entries : List (String × α)) :
    (ofEntries entries).keys = (keys entries).eraseDups := by
  -- from the right: the last entry is inserted into the map of the others
  induction entries using List.reverseRecOn with
  | nil => rfl
  | append_singleton es e ih =>
    have hkeys : keys (es ++ [e]) = keys es ++ [e.1] := List.map_append
    rw [ofEntries, merge_append, ← ofEntries, merge_cons, merge_nil, keys_insert, ih, hkeys,
      eraseDups_append_singleton]
    simp only [List.mem_eraseDups]

/-! ### Merging -/

theorem ofEntries_append (es fs : List (String × α)) :
    ofEntries (es ++ fs) = (ofEntries es).merge fs := merge_append [] es fs

/-- A new key goes to the end. -/
theorem insert_of_notMem {m : OrderedMap α} {key : String} (h : key ∉ m.keys) (value : α) :
    m.insert key value = m ++ [(key, value)] := by
  induction m with
  | nil => rfl
  | cons e rest ih =>
    rw [keys_cons, List.mem_cons, not_or] at h
    rw [insert, if_neg (Ne.symm h.1), ih h.2, List.cons_append]

/-- Entries with distinct keys are a map already. -/
theorem Distinct.ofEntries_eq {m : OrderedMap α} (h : m.Distinct) : ofEntries m = m := by
  induction m using List.reverseRecOn with
  | nil => rfl
  | append_singleton es e ih =>
    have hkeys : keys (es ++ [e]) = keys es ++ [e.1] := List.map_append
    rw [Distinct, hkeys, List.nodup_append] at h
    obtain ⟨hes, -, hnew⟩ := h
    have hmem : e.1 ∉ keys es := fun hmem => hnew e.1 hmem e.1 (List.mem_singleton_self _) rfl
    rw [ofEntries_append, ih hes, merge_cons, merge_nil, insert_of_notMem hmem]

theorem insert_insert_self (m : OrderedMap α) (key : String) (a b : α) :
    (m.insert key a).insert key b = m.insert key b := by
  induction m with
  | nil => simp [insert]
  | cons e rest ih =>
    by_cases h : e.1 = key
    · simp [insert, h]
    · simp [insert, h, ih]

/-- A value that is stored in place may be stored before or after another key. -/
theorem insert_comm_of_mem {m : OrderedMap α} {key : String} (hm : key ∈ m.keys) {k : String}
    (hk : key ≠ k) (a b : α) :
    (m.insert k b).insert key a = (m.insert key a).insert k b := by
  induction m with
  | nil => simp at hm
  | cons e rest ih =>
    by_cases he : e.1 = key
    · simp [insert, he, hk]
    · -- a known key is overwritten further down, on either side of the new one
      have hr : key ∈ keys rest := by
        rw [keys_cons, List.mem_cons] at hm
        exact hm.resolve_left (Ne.symm he)
      by_cases hek : e.1 = k
      · simp [insert, hek, Ne.symm hk]
      · simp [insert, he, hek, ih hr]

theorem merge_insert_of_mem {m : OrderedMap α} {key : String} (hm : key ∈ m.keys)
    {n : OrderedMap α} (hn : key ∉ n.keys) (value : α) :
    (m.insert key value).merge n = (m.merge n).insert key value := by
  induction n generalizing m with
  | nil => rfl
  | cons e rest ih =>
    rw [keys_cons, List.mem_cons, not_or] at hn
    have hmem : key ∈ (m.insert e.1 e.2).keys := by
      rw [keys_insert]
      split_ifs
      · exact hm
      · exact List.mem_append_left _ hm
    rw [merge_cons, merge_cons, ← insert_comm_of_mem hm hn.1, ih hmem hn.2]

/-- Storing into the second of two merged maps stores into the merged map. -/
theorem Distinct.merge_insert {n : OrderedMap α} (hn : n.Distinct) (m : OrderedMap α) (key : String)
    (value : α) : m.merge (n.insert key value) = (m.merge n).insert key value := by
  induction n generalizing m with
  | nil => rfl
  | cons e rest ih =>
    obtain ⟨he, hr⟩ := List.nodup_cons.1 hn
    by_cases h : e.1 = key
    · subst h
      -- distinct keys: the entry that is overwritten is the only one of its key
      have hmem : e.1 ∈ (m.insert e.1 e.2).keys := by
        rw [← lookup_isSome, lookup_insert, if_pos rfl, Option.isSome_some]
      rw [OrderedMap.insert, if_pos rfl, merge_cons, merge_cons, ← merge_insert_of_mem hmem he,
        insert_insert_self]
    · rw [OrderedMap.insert, if_neg h, merge_cons, merge_cons, ih hr]

/-- Merging a list of entries is merging the map that it determines. -/
theorem merge_ofEntries (m : OrderedMap α) (entries : List (String × α)) :
    m.merge (ofEntries entries) = m.merge entries := by
  induction entries using List.reverseRecOn with
  | nil => rfl
  | append_singleton es e ih =>
    rw [ofEntries_append, merge_cons, merge_nil, (distinct_ofEntries es).merge_insert, ih,
      merge_append, merge_cons, merge_nil]

/-- A map that results from several maps, later ones overwriting earlier ones: a key is bound as in
the last map that binds it, and stands where the first of these maps put it. -/
structure MergedFrom (m : OrderedMap α) (maps : List (OrderedMap α)) : Prop where
  distinct : m.Distinct
  keys : m.keys = (maps.flatMap keys).eraseDups
  lookup : ∀ key, m.lookup key = maps.reverse.findSome? fun part => part.lookup key

theorem lookup_ofEntries_flatten {maps : List (OrderedMap α)} (h : ∀ m ∈ maps, m.Distinct)
    (key : String) :
    (ofEntries maps.flatten).lookup key = maps.reverse.findSome? fun m => m.lookup key := by
  induction maps using List.reverseRecOn with
  | nil => rfl
  | append_singleton maps m ih =>
    have hm : m.Distinct := h m (by simp)
    have hmaps : ∀ m' ∈ maps, m'.Distinct := fun m' hm' => h m' (List.mem_append_left _ hm')
    have hflat : (maps ++ [m]).flatten = maps.flatten ++ m := by simp
    rw [hflat, ofEntries_append, hm.lookup_merge_eq, ih hmaps, List.reverse_append,
      List.reverse_singleton, List.singleton_append, List.findSome?_cons]
    cases m.lookup key <;> rfl

theorem mergedFrom_flatten {maps : List (OrderedMap α)} (h : ∀ m ∈ maps, m.Distinct) :
    (ofEntries maps.flatten).MergedFrom maps where
  distinct := distinct_ofEntries _
  keys := by
    rw [keys_ofEntries, OrderedMap.keys, List.map_flatten]
    rfl
  lookup := lookup_ofEntries_flatten h

section MergedFrom

variable {m m' : OrderedMap α} {maps maps' : List (OrderedMap α)} {key : String}

theorem MergedFrom.mem_keys (h : m.MergedFrom maps) :
    key ∈ m.keys ↔ ∃ part ∈ maps, key ∈ part.keys := by
  rw [h.keys, List.mem_eraseDups, List.mem_flatMap]

theorem MergedFrom.exists_lookup (h : m.MergedFrom maps) {value : α}
    (hv : m.lookup key = some value) : ∃ part ∈ maps, part.lookup key = some value := by
  rw [h.lookup key] at hv
  obtain ⟨part, hmem, hpart⟩ := List.exists_of_findSome?_eq_some hv
  exact ⟨part, List.mem_reverse.1 hmem, hpart⟩

/-- The order of the maps does not matter for the keys that are bound. -/
theorem MergedFrom.mem_keys_perm (h : m.MergedFrom maps) (h' : m'.MergedFrom maps')
    (hp : maps.Perm maps') : key ∈ m.keys ↔ key ∈ m'.keys := by
  rw [h.mem_keys, h'.mem_keys]
  constructor
  · rintro ⟨part, hmem, hkey⟩
    exact ⟨part, hp.mem_iff.1 hmem, hkey⟩
  · rintro ⟨part, hmem, hkey⟩
    exact ⟨part, hp.mem_iff.2 hmem, hkey⟩

/-- Nor does it matter for the value under a key that the maps do not dispute. -/
theorem MergedFrom.lookup_perm (h : m.MergedFrom maps) (h' : m'.MergedFrom maps')
    (hp : maps.Perm maps') {agreed : α}
    (hv : ∀ part ∈ maps, ∀ value, part.lookup key = some value → value = agreed) :
    m.lookup key = m'.lookup key := by
  by_cases hk : key ∈ m.keys
  · -- both results come from some part, and all parts agree
    obtain ⟨a, ha⟩ := Option.isSome_iff_exists.1 ((lookup_isSome m key).2 hk)
    obtain ⟨b, hb⟩ := Option.isSome_iff_exists.1
      ((lookup_isSome m' key).2 ((h.mem_keys_perm h' hp).1 hk))
    obtain ⟨part, hpart, hpa⟩ := h.exists_lookup ha
    obtain ⟨part', hpart', hpb⟩ := h'.exists_lookup hb
    rw [ha, hb, hv part hpart a hpa, hv part' (hp.mem_iff.2 hpart') b hpb]
  · have hk' : key ∉ m'.keys := fun hmem => hk ((h.mem_keys_perm h' hp).2 hmem)
    rw [lookup_eq_none.2 hk, lookup_eq_none.2 hk']

end MergedFrom

end ConfigAudit.OrderedMap
