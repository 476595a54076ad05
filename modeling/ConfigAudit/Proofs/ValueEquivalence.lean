import ConfigAudit.Proofs.LiteralTexts
import Mathlib.Data.List.Forall2
import Mathlib.Data.List.Perm.Subperm
import Mathlib.Logic.Relation

/-!
# Equality of values is an equivalence

Equality of values is computed: numbers by their size, lists item by item, and maps by looking up
each entry of one in the other. On values without `nan` this is an equivalence. It is compatible
with building lists and maps, and it does not see the order of entries in any map.

* `Double.numEq_finite_iff`: equal numbers are those with the same rational number;
* `equal_list_iff`, `equal_map_iff`: lists are equal item by item, and maps key by key;
* `Equals.of_equals`: two values that are equal to a third are equal, by one induction;
* `Reordered`: the entries of one map, anywhere in a value, are put into another order.
-/

namespace ConfigAudit

open OrderedMap

/-! ### Numbers -/

namespace Double

/-- A numerator over the common power of two. -/
theorem signed_aligned (s : Bool) (m : ℕ) {e low : ℤ} (h : low ≤ e) :
    ((signed s (m * Nat.pow 2 (e - low).toNat) : ℤ) : ℚ) * 2 ^ low = (finite s m e).toRat := by
  have hpow : (2 : ℚ) ^ (e - low) * 2 ^ low = 2 ^ e := by
    rw [← zpow_add₀ (by norm_num), Int.sub_add_cancel]
  rw [intCast_signed, Nat.cast_mul, natCast_pow_toNat 2 (by omega), Nat.cast_ofNat, toRat, ← hpow]
  ring

theorem numEq_finite_iff (s s' : Bool) (m m' : ℕ) (e e' : ℤ) :
    (finite s m e).numEq (finite s' m' e') = true ↔
      (finite s m e).toRat = (finite s' m' e').toRat := by
  have hpos : (0 : ℚ) < 2 ^ min e e' := by positivity
  rw [← signed_aligned s m (min_le_left e e'), ← signed_aligned s' m' (min_le_right e e'),
    mul_left_inj' hpos.ne', Int.cast_inj]
  simp [numEq, align]

/-- Two numbers that are equal to a third are equal. -/
theorem numEq_of_numEq {x y z : Double} (hy : x.numEq y = true) (hz : x.numEq z = true) :
    y.numEq z = true := by
  cases x with
  | nan => cases hy
  | infinite s =>
    cases y with
    | infinite t =>
      cases z with
      | infinite u =>
        simp only [numEq, beq_iff_eq] at hy hz ⊢
        rw [← hy, hz]
      | _ => cases hz
    | _ => cases hy
  | finite s m e =>
    cases y with
    | finite t n f =>
      cases z with
      | finite u k g =>
        rw [numEq_finite_iff] at hy hz ⊢
        rw [← hy, hz]
      | _ => cases hz
    | _ => cases hy

end Double

/-! ### Lists and maps -/

/-- Equality of values as a relation. -/
def Value.Equals (v w : Value) : Prop := Value.equal v w = true

section Lists

variable {α β : Type} {R S : α → β → Prop}

/-- A relation between the entries of two lists may be replaced by one that holds of the same
entries. -/
theorem forall₂_iff_of_mem {xs : List α} {ys : List β}
    (h : ∀ a ∈ xs, ∀ b ∈ ys, (R a b ↔ S a b)) : List.Forall₂ R xs ys ↔ List.Forall₂ S xs ys := by
  induction xs generalizing ys with
  | nil => simp
  | cons a xs ih =>
    cases ys with
    | nil => simp
    | cons b ys =>
      rw [List.forall₂_cons, List.forall₂_cons, h a (by simp) b (by simp),
        ih fun a ha b hb => h a (List.mem_cons_of_mem _ ha) b (List.mem_cons_of_mem _ hb)]

/-- Lists that are related to a third list are related, if their entries are. -/
theorem forall₂_of_forall₂ {R : α → α → Prop} {us vs ws : List α}
    (h : ∀ u ∈ us, ∀ v ∈ vs, ∀ w ∈ ws, R u v → R u w → R v w) (hv : List.Forall₂ R us vs)
    (hw : List.Forall₂ R us ws) : List.Forall₂ R vs ws := by
  induction hv generalizing ws with
  | nil =>
    cases hw
    exact .nil
  | @cons u v us vs huv _ ih =>
    cases hw with
    | @cons _ w _ ws huw hw =>
      refine .cons (h u (by simp) v (by simp) w (by simp) huv huw) (ih ?_ hw)
      intro u hu v hv w hw
      exact h u (List.mem_cons_of_mem _ hu) v (List.mem_cons_of_mem _ hv) w
        (List.mem_cons_of_mem _ hw)

end Lists

section Options

variable {α : Type} {R : α → α → Prop} {x y z : Option α}

theorem isSome_eq_of_rel (h : Option.Rel R x y) : x.isSome = y.isSome := by
  cases h <;> rfl

theorem exists_of_rel_some {a : α} (h : Option.Rel R (some a) y) : ∃ b, y = some b ∧ R a b := by
  cases h with
  | some hab => exact ⟨_, rfl, hab⟩

/-- Optional values that are related to a third one are related, if what they hold is. -/
theorem rel_of_rel (h : ∀ a, x = some a → ∀ b, y = some b → ∀ c, z = some c → R a b → R a c → R b c)
    (hy : Option.Rel R x y) (hz : Option.Rel R x z) : Option.Rel R y z := by
  cases hy with
  | none =>
    cases hz
    exact .none
  | some hab =>
    obtain ⟨c, rfl, hac⟩ := exists_of_rel_some hz
    exact .some (h _ rfl _ rfl c rfl hab hac)

end Options

namespace OrderedMap

variable {α : Type}

/-- Of two maps with equally many keys, one binds no other keys if it binds all of the other. -/
theorem Distinct.perm_keys {m n : OrderedMap α} (hm : m.Distinct)
    (hlength : m.length = n.length) (hsub : ∀ key ∈ m.keys, key ∈ n.keys) :
    m.keys.Perm n.keys := by
  have hsubperm : m.keys.Subperm n.keys := hm.subperm hsub
  refine hsubperm.perm_of_length_le ?_
  rw [keys, keys, List.length_map, List.length_map, hlength]

theorem lookup_append (m n : OrderedMap α) (key : String) :
    lookup (m ++ n) key = (m.lookup key).or (n.lookup key) := by
  induction m with
  | nil => rfl
  | cons e rest ih =>
    rw [List.cons_append, lookup, lookup]
    split_ifs
    · rfl
    · exact ih

end OrderedMap

namespace Value

section Leaves

-- values without parts are equal to themselves only
variable {v : Value} {b : Bool} {s : String}

theorem equals_null_iff : Equals .null v ↔ .null = v := by
  cases v <;> simp [Equals, equal]

theorem equals_bool_iff : Equals (.bool b) v ↔ .bool b = v := by
  cases v <;> simp [Equals, equal]

theorem equals_string_iff : Equals (.string s) v ↔ .string s = v := by
  cases v <;> simp [Equals, equal]

end Leaves

theorem equalItems_iff {xs ys : List Value} :
    equalItems xs ys = true ↔ List.Forall₂ Equals xs ys := by
  induction xs generalizing ys with
  | nil => cases ys <;> simp [equalItems]
  | cons v xs ih =>
    cases ys with
    | nil => simp [equalItems]
    | cons w ys => rw [equalItems, Bool.and_eq_true, ih, List.forall₂_cons, Equals]

/-- Lists are equal item by item: neither their order nor their number is ignored. -/
theorem equal_list_iff {xs ys : List Value} :
    Equals (.list xs) (.list ys) ↔ List.Forall₂ Equals xs ys := by
  rw [Equals, equal, equalItems_iff]

/-- Maps are equal if they bind the same keys to equal values, in whatever order. -/
theorem equal_map_iff {ms ns : Config} (hm : ms.Distinct) (hn : ns.Distinct) :
    Equals (.map ms) (.map ns) ↔
      ∀ key, Option.Rel Equals (ms.lookup key) (ns.lookup key) := by
  rw [Equals, equal, Bool.and_eq_true, beq_iff_eq, entriesIn_iff]
  constructor
  · rintro ⟨hlength, hentries⟩ key
    cases hkey : ms.lookup key with
    | some a =>
      obtain ⟨b, hb, hab⟩ := hentries _ (mem_of_lookup_eq_some hkey)
      rw [hb]
      exact .some hab
    | none =>
      -- equally many keys: what the first map does not bind, the second does not bind either
      have hperm : ms.keys.Perm ns.keys := by
        refine hm.perm_keys hlength fun k hk => ?_
        obtain ⟨e, he, rfl⟩ := List.mem_map.1 hk
        obtain ⟨b, hb, -⟩ := hentries e he
        rw [← lookup_isSome, hb, Option.isSome_some]
      rw [lookup_eq_none, hperm.mem_iff, ← lookup_eq_none] at hkey
      rw [hkey]
      exact .none
  · intro h
    have hkeys (key : String) : key ∈ ms.keys ↔ key ∈ ns.keys := by
      rw [← lookup_isSome, ← lookup_isSome, isSome_eq_of_rel (h key)]
    constructor
    · have hlength := ((List.perm_ext_iff_of_nodup hm hn).2 hkeys).length_eq
      rwa [keys, keys, List.length_map, List.length_map] at hlength
    · intro e he
      have hkey := h e.1
      rw [hm.lookup_eq_some.2 he] at hkey
      exact exists_of_rel_some hkey

/-! ### The equivalence -/

theorem Equals.refl {v : Value} (h : v.WellFormed) : Equals v v := equal_of_sortKeys_eq h rfl

/-- Two values that are equal to a third are equal. -/
theorem Equals.of_equals {u v w : Value} (hu : u.WellFormed) (hv : v.WellFormed)
    (hw : w.WellFormed) (huv : Equals u v) (huw : Equals u w) : Equals v w := by
  induction hu generalizing v w with
  | null =>
    obtain rfl := equals_null_iff.1 huv
    exact huw
  | bool b =>
    obtain rfl := equals_bool_iff.1 huv
    exact huw
  | string s =>
    obtain rfl := equals_string_iff.1 huv
    exact huw
  | number hx =>
    cases hv with
    | number hy =>
      cases hw with
      | number hz => exact Double.numEq_of_numEq huv huw
      | _ => cases huw
    | _ => cases huv
  | list _ ih =>
    cases hv with
    | list hvs =>
      cases hw with
      | list hws =>
        rw [equal_list_iff] at huv huw ⊢
        refine forall₂_of_forall₂ ?_ huv huw
        intro u hu v hv w hw
        exact ih u hu (hvs v hv) (hws w hw)
      | _ => cases huw
    | _ => cases huv
  | @map us hdistinct _ ih =>
    cases hv with
    | @map vs hvdistinct hvs =>
      cases hw with
      | @map ws hwdistinct hws =>
        rw [equal_map_iff hdistinct hvdistinct] at huv
        rw [equal_map_iff hdistinct hwdistinct] at huw
        rw [equal_map_iff hvdistinct hwdistinct]
        intro key
        refine rel_of_rel ?_ (huv key) (huw key)
        intro a ha b hb c hc
        exact ih _ (mem_of_lookup_eq_some ha) (hvs _ (mem_of_lookup_eq_some hb))
          (hws _ (mem_of_lookup_eq_some hc))
      | _ => cases huw
    | _ => cases huv

theorem Equals.symm {v w : Value} (hv : v.WellFormed) (hw : w.WellFormed) (h : Equals v w) :
    Equals w v := h.of_equals hv hw hv (.refl hv)

theorem Equals.trans {u v w : Value} (hu : u.WellFormed) (hv : v.WellFormed) (hw : w.WellFormed)
    (huv : Equals u v) (hvw : Equals v w) : Equals u w := (huv.symm hu hv).of_equals hv hu hw hvw

/-- Equality is an equivalence on values without `nan`. -/
theorem equals_equivalence :
    Equivalence fun v w : { v : Value // v.WellFormed } => Equals v.1 w.1 where
  refl v := .refl v.2
  symm {v w} h := h.symm v.2 w.2
  trans {u v w} huv hvw := huv.trans u.2 v.2 w.2 hvw

/-! ### Reordered maps -/

/-- The entries of one map are put into another order: of the value itself, or of a map somewhere in
it. -/
inductive Reordered : Value → Value → Prop
  | entries {ms ns : Config} (h : ms.Perm ns) : Reordered (.map ms) (.map ns)
  | item {before after : List Value} {v w : Value} (h : Reordered v w) :
      Reordered (.list (before ++ v :: after)) (.list (before ++ w :: after))
  | value {before after : Config} {key : String} {v w : Value} (h : Reordered v w) :
      Reordered (.map (before ++ (key, v) :: after)) (.map (before ++ (key, w) :: after))

section Reordered

variable {v w : Value}

theorem rel_lookup_self {m : Config} (h : (Value.map m).WellFormed) (key : String) :
    Option.Rel Equals (m.lookup key) (m.lookup key) := by
  cases h with
  | map _ hentries =>
    cases hkey : m.lookup key with
    | none => exact .none
    | some a => exact .some (.refl (hentries _ (mem_of_lookup_eq_some hkey)))

theorem keys_replaced (before after : Config) (key : String) (v w : Value) :
    keys (before ++ (key, v) :: after) = keys (before ++ (key, w) :: after) := by
  simp [keys]

theorem Reordered.wellFormed (h : Reordered v w) (hv : v.WellFormed) : w.WellFormed := by
  induction h with
  | @entries ms ns h =>
    cases hv with
    | map hdistinct hentries =>
      refine .map ((h.map Prod.fst).nodup_iff.1 hdistinct) fun e he => ?_
      exact hentries e (h.mem_iff.2 he)
  | item _ ih =>
    cases hv with
    | list hitems =>
      simp only [List.forall_mem_append, List.forall_mem_cons] at hitems
      refine .list ?_
      simp only [List.forall_mem_append, List.forall_mem_cons]
      exact ⟨hitems.1, ih hitems.2.1, hitems.2.2⟩
  | value _ ih =>
    cases hv with
    | map hdistinct hentries =>
      rw [Distinct, keys_replaced] at hdistinct
      simp only [List.forall_mem_append, List.forall_mem_cons] at hentries
      refine .map hdistinct ?_
      simp only [List.forall_mem_append, List.forall_mem_cons]
      exact ⟨hentries.1, ih hentries.2.1, hentries.2.2⟩

/-- One step: a reordered value is equal to the value. -/
theorem Reordered.equals (h : Reordered v w) (hv : v.WellFormed) : Equals v w := by
  have hw := h.wellFormed hv
  induction h with
  | @entries ms ns h =>
    have hself := rel_lookup_self hv
    cases hv with
    | map hdistinct _ =>
      cases hw with
      | map hdistinct' _ =>
        rw [equal_map_iff hdistinct hdistinct']
        intro key
        rw [← hdistinct.lookup_perm h]
        exact hself key
  | @item before after v w h ih =>
    cases hv with
    | list hitems =>
      simp only [List.forall_mem_append, List.forall_mem_cons] at hitems
      obtain ⟨hbefore, hv, hafter⟩ := hitems
      rw [equal_list_iff]
      refine List.rel_append ?_ (.cons (ih hv (h.wellFormed hv)) ?_)
      · exact List.forall₂_same.2 fun u hu => .refl (hbefore u hu)
      · exact List.forall₂_same.2 fun u hu => .refl (hafter u hu)
  | @value before after key v w h ih =>
    have hself := rel_lookup_self hv
    cases hv with
    | map hdistinct hentries =>
      cases hw with
      | map hdistinct' _ =>
        have hv : v.WellFormed := hentries (key, v) (by simp)
        rw [equal_map_iff hdistinct hdistinct']
        intro k
        have hk := hself k
        rw [lookup_append, lookup] at hk ⊢
        rw [lookup_append, lookup]
        -- only under the key of the changed value something else may be found
        cases hbefore : OrderedMap.lookup before k with
        | some a => rwa [hbefore] at hk
        | none =>
          split_ifs at hk ⊢ with hkey
          · exact .some (ih hv (h.wellFormed hv))
          · rwa [hbefore] at hk

/-- The order of the entries of maps does not matter, at any depth and in any number of maps. -/
theorem equals_of_reordered (hv : v.WellFormed) (h : Relation.ReflTransGen Reordered v w) :
    w.WellFormed ∧ Equals v w := by
  induction h with
  | refl => exact ⟨hv, .refl hv⟩
  | tail _ hstep ih =>
    obtain ⟨hu, hvu⟩ := ih
    have hw := hstep.wellFormed hu
    exact ⟨hw, hvu.trans hv hu hw (hstep.equals hu)⟩

end Reordered

end Value

end ConfigAudit
