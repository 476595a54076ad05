import ConfigAudit.Proofs.DocumentContents
import Mathlib.Data.List.Perm.Basic

/-!
# Resources by address

Rules look resources up by address, and the resources of a document are grouped in this way: each is
found at its type and its name joined by a point and at no other address, and those of one address
are found in source order. An address is read from its first point. If no type holds a point, the
type ends there, so only resources of one type and one name share an address, whatever stands in the
names.

* `perm_flatMap_filter`: a list grouped by keys;
* `pointed_inj`: joined texts, if there is no point in front;
* `forall₂_resourcesAt`: the resources at an address, block by block;
* `addresses_group_resources`: the grouping, and which resources fall together.
-/

namespace ConfigAudit

/-! ### Groups -/

/-- A list is grouped by distinct keys without loss or repetition. -/
theorem perm_flatMap_filter {α β : Type} [DecidableEq β] (key : α → β) {keys : List β}
    (hkeys : keys.Nodup) {items : List α} (hcovered : ∀ a ∈ items, key a ∈ keys) :
    (keys.flatMap fun k => items.filter fun a => key a = k).Perm items := by
  induction keys generalizing items with
  | nil =>
    cases items with
    | nil => exact .nil
    | cons a items => exact absurd (hcovered a List.mem_cons_self) List.not_mem_nil
  | cons k keys ih =>
    obtain ⟨hk, hkeys⟩ := List.nodup_cons.1 hkeys
    -- the other keys find the same among the items that are left over by this one
    have hothers : (keys.flatMap fun k' => items.filter fun a => key a = k') =
        keys.flatMap fun k' =>
          (items.filter fun a => !decide (key a = k)).filter fun a => key a = k' := by
      apply List.flatMap_congr
      intro k' hk'
      rw [List.filter_filter]
      apply List.filter_congr
      intro a _
      by_cases ha : key a = k'
      · have hne : k' ≠ k := fun h => hk (h ▸ hk')
        simp [ha, hne]
      · simp [ha]
    have hleft : ∀ a ∈ items.filter fun a => !decide (key a = k), key a ∈ keys := by
      intro a ha
      obtain ⟨hmem, hne⟩ := List.mem_filter.1 ha
      rcases List.mem_cons.1 (hcovered a hmem) with h | h
      · simp [h] at hne
      · exact h
    rw [List.flatMap_cons, hothers]
    have hgrouped := (ih hkeys hleft).append_left (items.filter fun a => key a = k)
    exact hgrouped.trans (List.filter_append_perm _ items)

/-! ### Joined labels -/

/-- Texts joined by a point are told apart by what they join, if no point stands in the first. -/
theorem pointed_inj {type type' name name' : String} (h : '.' ∉ type.toList)
    (h' : '.' ∉ type'.toList) :
    type ++ "." ++ name = type' ++ "." ++ name' ↔ type = type' ∧ name = name' := by
  constructor
  · intro heq
    have hchars : type.toList ++ '.' :: name.toList = type'.toList ++ '.' :: name'.toList := by
      simpa using congrArg String.toList heq
    -- what stands in front of the first point is the type
    have hsplit := congrArg (List.splitOn '.') hchars
    rw [List.splitOn_append_cons_self_of_not_mem h,
      List.splitOn_append_cons_self_of_not_mem h'] at hsplit
    have htype : type.toList = type'.toList := (List.cons.inj hsplit).1
    rw [htype, List.append_cancel_left_eq] at hchars
    exact ⟨String.toList_inj.1 htype, String.toList_inj.1 (List.cons.inj hchars).2⟩
  · rintro ⟨rfl, rfl⟩
    rfl

/-- The address that the labels of a block make, if there are two. -/
def Block.address? (b : Block) : Option String :=
  match b.labels with
  | [type, name] => some (type ++ "." ++ name)
  | _ => none

theorem Block.length_labels {b : Block} {address : String} (h : b.address? = some address) :
    b.labels.length = 2 := by
  unfold Block.address? at h
  split at h
  · rename_i type name hlabels
    rw [hlabels]
    rfl
  · cases h

theorem Resource.Describes.address?_eq {table : NestingTable} {b : Block} {r : Resource}
    (h : r.Describes table b) : b.address? = some r.address := by
  rw [Block.address?, h.labels, h.address]

namespace Document

/-- The addresses of a document, each where it occurs first. -/
def addresses (d : Document) : List String := (d.resources.map Resource.address).eraseDups

theorem mem_addresses {d : Document} {address : String} :
    address ∈ d.addresses ↔ ∃ r ∈ d.resources, r.address = address := by
  rw [addresses, List.mem_eraseDups, List.mem_map]

theorem resourcesAt_eq (d : Document) (address : String) :
    d.resourcesAt address = d.resources.filter fun r => r.address = address := rfl

/-- An address of a document is one at which resources are found. -/
theorem resourcesAt_ne_nil {d : Document} {address : String} :
    d.resourcesAt address ≠ [] ↔ address ∈ d.addresses := by
  rw [mem_addresses, resourcesAt_eq]
  simp

/-- Every resource is found at one of the addresses, as often as the document holds it. -/
theorem perm_resourcesAt (d : Document) :
    (d.addresses.flatMap d.resourcesAt).Perm d.resources := by
  apply perm_flatMap_filter Resource.address (OrderedMap.nodup_eraseDups _)
  intro r hr
  exact mem_addresses.2 ⟨r, hr, rfl⟩

section Aggregated

variable (table : NestingTable) (body : Body)

/-- Every resource of a document stands at its type and its name. -/
theorem address_of_mem {r : Resource} (h : r ∈ (ofBody table body).resources) :
    r.address = r.type ++ "." ++ r.name := by
  rw [ofBody_eq] at h
  obtain ⟨b, -, hb⟩ := List.mem_filterMap.1 h
  exact (Block.describes_of_resource? hb).address

/-- The resources at an address, block by block. -/
theorem forall₂_resourcesAt (address : String) :
    List.Forall₂ (Resource.Describes table)
      ((body.blocksOf "resource").filter fun b => b.address? = some address)
      ((ofBody table body).resourcesAt address) := by
  have hblocks : ((body.blocksOf "resource").filter fun b => b.address? = some address) =
      ((body.blocksOf "resource").filter fun b => b.labels.length = 2).filter
        fun b => b.address? = some address := by
    rw [List.filter_filter]
    apply List.filter_congr
    intro b _
    by_cases h : b.address? = some address
    · simp [h, Block.length_labels h]
    · simp [h]
  rw [hblocks, resourcesAt_eq]
  refine List.rel_filter ?_ (forall₂_resources table body)
  intro b r h
  simp [h.address?_eq]

/-- **Addresses group the resources.** At an address a document has exactly the resources whose type
and name it joins; they are those that the `resource` blocks of this address describe, in source
order. Its addresses are distinct, at each some resource is found, and together they find every
resource as often as the document holds it. Two resources whose types hold no point share an address
exactly if they have the same type and the same name. -/
theorem addresses_group_resources :
    (∀ address, (ofBody table body).resourcesAt address =
      (ofBody table body).resources.filter fun r => r.type ++ "." ++ r.name = address) ∧
    (∀ address, List.Forall₂ (Resource.Describes table)
      ((body.blocksOf "resource").filter fun b => b.address? = some address)
      ((ofBody table body).resourcesAt address)) ∧
    (ofBody table body).addresses.Nodup ∧
    (∀ address, (ofBody table body).resourcesAt address ≠ [] ↔
      address ∈ (ofBody table body).addresses) ∧
    ((ofBody table body).addresses.flatMap (ofBody table body).resourcesAt).Perm
      (ofBody table body).resources ∧
    ∀ r ∈ (ofBody table body).resources, ∀ s ∈ (ofBody table body).resources,
      '.' ∉ r.type.toList → '.' ∉ s.type.toList →
      (r.address = s.address ↔ r.type = s.type ∧ r.name = s.name) := by
  refine ⟨?_, forall₂_resourcesAt table body, OrderedMap.nodup_eraseDups _,
    fun _ => resourcesAt_ne_nil, perm_resourcesAt _, ?_⟩
  · intro address
    rw [resourcesAt_eq]
    apply List.filter_congr
    intro r hr
    rw [address_of_mem table body hr]
  · intro r hr s hs hpoint hpoint'
    rw [address_of_mem table body hr, address_of_mem table body hs]
    exact pointed_inj hpoint hpoint'

end Aggregated

/-- Two resources of one address, one of the same type, and one without a name. -/
def bucketBody : Body :=
  [.block "resource" ["bucket", "logs.eu"] [],
    .block "resource" ["bucket", "logs"] [],
    .block "resource" ["bucket", ""] [],
    .block "resource" ["bucket", "logs.eu"] [.attribute "acl" (.string "private")]]

theorem addresses_group_resources_bucket :
    (ofBody .standard bucketBody).resources =
      [.named "bucket" "logs.eu" [], .named "bucket" "logs" [], .named "bucket" "" [],
        .named "bucket" "logs.eu" [("acl", .string "private")]] ∧
    (ofBody .standard bucketBody).resourcesAt "bucket.logs.eu" =
      [.named "bucket" "logs.eu" [], .named "bucket" "logs.eu" [("acl", .string "private")]] ∧
    '.' ∉ "bucket".toList ∧
    ((Resource.named "bucket" "logs.eu" []).address = (Resource.named "bucket" "logs" []).address ↔
      "bucket" = "bucket" ∧ "logs.eu" = "logs") := by
  have hresources : (ofBody .standard bucketBody).resources =
      [.named "bucket" "logs.eu" [], .named "bucket" "logs" [], .named "bucket" "" [],
        .named "bucket" "logs.eu" [("acl", .string "private")]] := by
    with_unfolding_all rfl
  obtain ⟨hat, -, -, -, -, hshared⟩ := addresses_group_resources .standard bucketBody
  have hpoint : '.' ∉ "bucket".toList := by decide
  refine ⟨hresources, ?_, hpoint, ?_⟩
  · rw [hat, hresources]
    rfl
  · rw [hresources] at hshared
    exact hshared (.named "bucket" "logs.eu" []) (by simp) (.named "bucket" "logs" []) (by simp)
      hpoint hpoint

/-- With a point in a type, resources of different types can share an address. -/
example : (Resource.named "bucket" "logs.eu" []).address =
    (Resource.named "bucket.logs" "eu" []).address := by decide

end Document

end ConfigAudit
