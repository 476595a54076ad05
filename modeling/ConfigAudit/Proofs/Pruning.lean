import ConfigAudit.Proofs.Extraction

/-!
# Pruning

Most of a body never reaches its config. `Body.prune` deletes, at every level, the attributes that
do not resolve, the blocks that the table does not follow with all that they hold, and the labels of
the blocks that are left; `Body.truncate` deletes all blocks below a number of levels.

* `extractAt_filterMap`: structures may be dropped or replaced as long as each of them says the same
  about the entries of the config;
* `extractAt_prune`: nothing that is pruned has any influence;
* `prune_truncate`: no block is left below the greatest depth, whatever the table says;
* `pruning_invisible`: bodies with the same pruned form have the same config.
-/

namespace ConfigAudit

mutual

/-- What is left of a structure that stands at a depth. -/
def Structure.prune (table : NestingTable) (depth : Nat) : Structure → Option Structure
  | .attribute name expr =>
    if expr.resolve?.isSome then some (.attribute name expr) else none
  | .block kind _ inner =>
    if table.follows kind depth then some (.block kind [] (Body.prune table (depth + 1) inner))
    else none

/-- A body without all that has no influence; its structures stand at a depth. -/
def Body.prune (table : NestingTable) (depth : Nat) : Body → Body
  | [] => []
  | s :: rest =>
    match s.prune table depth with
    | some kept => kept :: Body.prune table depth rest
    | none => Body.prune table depth rest

end

mutual

/-- What is left of a structure where a number of levels may follow. -/
def Structure.truncate : Nat → Structure → Option Structure
  | _, .attribute name expr => some (.attribute name expr)
  | 0, .block .. => none
  | levels + 1, .block kind labels inner => some (.block kind labels (Body.truncate levels inner))

/-- A body without the blocks below a number of levels. -/
def Body.truncate (levels : Nat) : Body → Body
  | [] => []
  | s :: rest =>
    match s.truncate levels with
    | some kept => kept :: Body.truncate levels rest
    | none => Body.truncate levels rest

end

namespace Body

theorem prune_eq_filterMap (table : NestingTable) (depth : Nat) (body : Body) :
    body.prune table depth = body.filterMap (Structure.prune table depth) := by
  induction body with
  | nil => rfl
  | cons s rest ih =>
    rw [prune, List.filterMap_cons, ih]
    cases s.prune table depth <;> rfl

theorem truncate_eq_filterMap (levels : Nat) (body : Body) :
    body.truncate levels = body.filterMap (Structure.truncate levels) := by
  induction body with
  | nil => rfl
  | cons s rest ih =>
    rw [truncate, List.filterMap_cons, ih]
    cases s.truncate levels <;> rfl

end Body

/-- A change that keeps, structure by structure, the entry of every attribute and the map of every
followed block keeps the config. -/
theorem extractAt_filterMap (table : NestingTable) (depth : Nat) (body : Body)
    (f : Structure → Option Structure)
    (hentry : ∀ s ∈ body, (f s).bind Structure.entry? = s.entry?)
    (hchild : ∀ s ∈ body,
      (f s).bind (followedChild table (depth + 1)) = followedChild table (depth + 1) s) :
    extractAt table depth (body.filterMap f) = extractAt table depth body := by
  have hentries : attributeEntries (body.filterMap f) = attributeEntries body := by
    rw [attributeEntries_eq_filterMap, attributeEntries_eq_filterMap, List.filterMap_filterMap]
    exact List.filterMap_congr hentry
  have hchildren : followedChildren table (depth + 1) (body.filterMap f) =
      followedChildren table (depth + 1) body := by
    rw [followedChildren_eq_filterMap, followedChildren_eq_filterMap, List.filterMap_filterMap]
    exact List.filterMap_congr hchild
  rw [extractAt, extractAt, assemble, assemble, hentries, hchildren]

/-- Pruning keeps the config, at every depth. -/
theorem extractAt_prune (table : NestingTable) (depth : Nat) (body : Body) :
    extractAt table depth (body.prune table (depth + 1)) = extractAt table depth body := by
  -- the bodies of blocks stand one level deeper, so the depth varies along the induction
  induction body using Body.induction generalizing depth with
  | step body ih =>
    rw [Body.prune_eq_filterMap]
    refine extractAt_filterMap table depth body _ ?_ ?_
    · rintro (⟨name, expr⟩ | ⟨kind, labels, inner⟩) -
      · rw [Structure.prune, Structure.entry?]
        cases hexpr : expr.resolve? with
        | none => rfl
        | some v => simp [Structure.entry?, hexpr]
      · rw [Structure.prune]
        split_ifs <;> rfl
    · rintro (⟨name, expr⟩ | ⟨kind, labels, inner⟩) hmem
      · rw [Structure.prune]
        split_ifs <;> rfl
      · rw [Structure.prune, followedChild_block]
        split_ifs with hfollows
        · rw [Option.bind_some, followedChild_block, if_pos hfollows,
            ih kind labels inner hmem]
        · rfl

/-- Blocks that are deeper than any table reaches are pruned anyway. -/
theorem prune_truncate (table : NestingTable) {depth levels : Nat}
    (hreach : NestingTable.maxDepth ≤ depth + levels) (body : Body) :
    (body.truncate levels).prune table (depth + 1) = body.prune table (depth + 1) := by
  induction body using Body.induction generalizing depth levels with
  | step body ih =>
    rw [Body.truncate_eq_filterMap, Body.prune_eq_filterMap, Body.prune_eq_filterMap,
      List.filterMap_filterMap]
    refine List.filterMap_congr ?_
    rintro (⟨name, expr⟩ | ⟨kind, labels, inner⟩) hmem
    · rw [Structure.truncate, Option.bind_some]
    · cases levels with
      | zero =>
        have hfollows : table.follows kind (depth + 1) = false :=
          NestingTable.follows_of_maxDepth_lt table kind (Nat.lt_succ_of_le hreach)
        rw [Structure.truncate, Structure.prune, hfollows]
        rfl
      | succ levels =>
        have hinner : NestingTable.maxDepth ≤ depth + 1 + levels := by omega
        rw [Structure.truncate, Option.bind_some, Structure.prune, Structure.prune,
          ih kind labels inner hmem hinner]

/-- **Pruning is invisible.** A body and its pruned form have the same config, entry by entry and in
the same order. So bodies with the same pruned form have the same config, and for every table so
have bodies that only differ in blocks at depth three or deeper. -/
theorem pruning_invisible (table : NestingTable) :
    (∀ body : Body, extract table (body.prune table 1) = extract table body) ∧
    (∀ body body' : Body, body.prune table 1 = body'.prune table 1 →
      extract table body = extract table body') ∧
    ∀ body body' : Body, body.truncate 2 = body'.truncate 2 →
      extract table body = extract table body' := by
  have hprune (body : Body) : extract table (body.prune table 1) = extract table body :=
    extractAt_prune table 0 body
  have hsame (body body' : Body) (h : body.prune table 1 = body'.prune table 1) :
      extract table body = extract table body' := by
    rw [← hprune body, h, hprune body']
  refine ⟨hprune, hsame, fun body body' h => hsame body body' ?_⟩
  calc body.prune table 1
      = (body.truncate 2).prune table 1 := (prune_truncate table (Nat.le_refl 2) body).symm
    _ = (body'.truncate 2).prune table 1 := by rw [h]
    _ = body'.prune table 1 := prune_truncate table (Nat.le_refl 2) body'

/-- A body with an attribute that does not resolve, a label and a block that is not followed. -/
def clutteredBody : Body :=
  [.attribute "acl" (.call "f" []),
    .block "versioning" ["a"] [.attribute "enabled" (.bool true)],
    .block "lifecycle" [] [.block "versioning" [] []]]

/-- The same body without them. -/
def tidyBody : Body := [.block "versioning" [] [.attribute "enabled" (.bool true)]]

/-- A body with a block at depth two. -/
def nestedBody (inner : Body) : Body := [.block "rule" [] [.block "redirect" [] inner]]

theorem pruning_invisible_bodies :
    clutteredBody.prune .standard 1 = tidyBody.prune .standard 1 ∧
      extract .standard clutteredBody = extract .standard tidyBody ∧
      (nestedBody [.block "rule" [] [.attribute "id" .null]]).truncate 2 =
        (nestedBody [.block "redirect" ["a"] []]).truncate 2 ∧
      extract .standard (nestedBody [.block "rule" [] [.attribute "id" .null]]) =
        extract .standard (nestedBody [.block "redirect" ["a"] []]) := by
  obtain ⟨-, hpruned, htruncated⟩ := pruning_invisible .standard
  have hsame : clutteredBody.prune .standard 1 = tidyBody.prune .standard 1 := by
    with_unfolding_all rfl
  exact ⟨hsame, hpruned _ _ hsame, rfl, htruncated _ _ rfl⟩

end ConfigAudit
