/-!
# Ordered maps

Finite maps with string keys that remember the order of insertion.

* a new key goes to the end;
* a key that is inserted again keeps its position and takes the new value;
* `lookup` and `keys` are the two views through which the other modules see a map.
-/

namespace ConfigAudit

/-- The entries of a map in insertion order. -/
abbrev OrderedMap (α : Type) := List (String × α)

namespace OrderedMap

variable {α β : Type}

/-- The value stored under a key. -/
def lookup : OrderedMap α → String → Option α
  | [], _ => none
  | (k, v) :: rest, key => if k = key then some v else lookup rest key

/-- Store a value: in place if the key is known, at the end otherwise. -/
def insert : OrderedMap α → String → α → OrderedMap α
  | [], key, value => [(key, value)]
  | (k, v) :: rest, key, value =>
    if k = key then (k, value) :: rest else (k, v) :: insert rest key value

/-- The keys in insertion order. -/
def keys (m : OrderedMap α) : List String := m.map Prod.fst

/-- Insert every entry of the second map into the first, from left to right. -/
def merge (m n : OrderedMap α) : OrderedMap α :=
  n.foldl (fun acc entry => acc.insert entry.1 entry.2) m

/-- The map built by inserting entries from left to right. -/
def ofEntries (entries : List (String × α)) : OrderedMap α := merge [] entries

/-- Replace the value under a key by a function of the old one. -/
def alter (m : OrderedMap α) (key : String) (f : Option α → α) : OrderedMap α :=
  m.insert key (f (m.lookup key))

/-- No key occurs twice. -/
def Distinct (m : OrderedMap α) : Prop := m.keys.Nodup

@[simp] theorem lookup_nil (key : String) : lookup ([] : OrderedMap α) key = none := rfl

@[simp] theorem keys_nil : keys ([] : OrderedMap α) = [] := rfl

@[simp] theorem keys_cons (e : String × α) (m : OrderedMap α) : keys (e :: m) = e.1 :: keys m := rfl

@[simp] theorem merge_nil (m : OrderedMap α) : merge m [] = m := rfl

@[simp] theorem merge_cons (m : OrderedMap α) (e : String × α) (n : OrderedMap α) :
    merge m (e :: n) = merge (m.insert e.1 e.2) n := rfl

theorem merge_append (m n p : OrderedMap α) : merge m (n ++ p) = merge (merge m n) p := by
  simp [merge, List.foldl_append]

/-- A stored value is found again and no other key is affected. -/
theorem lookup_insert (m : OrderedMap α) (key k : String) (value : α) :
    (m.insert key value).lookup k = if key = k then some value else m.lookup k := by
  induction m with
  | nil => simp [insert, lookup]
  | cons e rest ih =>
    by_cases he : e.1 = key
    · by_cases hk : key = k <;> simp_all [insert, lookup]
    · by_cases hk : e.1 = k
      · subst hk
        simp [insert, lookup, he, Ne.symm he]
      · simp [insert, lookup, he, hk, ih]

/-- A new key goes to the end, a known one stays where it is. -/
theorem keys_insert (m : OrderedMap α) (key : String) (value : α) :
    (m.insert key value).keys = if key ∈ m.keys then m.keys else m.keys ++ [key] := by
  induction m with
  | nil => simp [insert]
  | cons e rest ih =>
    by_cases he : e.1 = key
    · simp [insert, he]
    · by_cases hr : key ∈ keys rest <;> simp_all [insert, Ne.symm he, eq_comm]

/-- A key is bound exactly if it is one of the keys. -/
theorem lookup_isSome (m : OrderedMap α) (key : String) :
    (m.lookup key).isSome ↔ key ∈ m.keys := by
  induction m with
  | nil => simp
  | cons e rest ih =>
    by_cases he : e.1 = key
    · simp [lookup, he]
    · simp [lookup, he, Ne.symm he, ih]

/-- Insertion keeps keys distinct. -/
theorem Distinct.insert {m : OrderedMap α} (h : m.Distinct) (key : String) (value : α) :
    (m.insert key value).Distinct := by
  unfold Distinct at *
  rw [keys_insert]
  split
  · exact h
  · rename_i hk
    exact List.nodup_append.2 ⟨h, by simp, by simp; rintro a ha rfl; exact hk ha⟩

end OrderedMap

end ConfigAudit
