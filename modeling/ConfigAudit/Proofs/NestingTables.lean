import ConfigAudit.Proofs.Extraction

/-!
# The influence of the nesting table

Extraction asks a table which kinds it follows at depth one and two, and nothing else. A rule that
is added can therefore only add keys and change the values of two sorts of keys: its own kind, and
the kinds whose blocks hold a block of this kind.

* `extractAt_congr`: tables that agree on the blocks of a body and below them make the same config;
* `extract_congr`: it is enough that they agree at depth one and two;
* `NestingTable.Respelled`: rules reordered, repeated, split, or without reach;
* `extract_follow`: what a new rule can change.
-/

namespace ConfigAudit

open OrderedMap

variable {table table' : NestingTable}

/-! ### What a table says -/

namespace NestingTable

theorem follows_follow (table : NestingTable) (kind : String) (low high : Nat) (k : String)
    (depth : Nat) :
    (table.follow kind low high).follows k depth =
      (table.follows k depth ||
        depth ≤ maxDepth && NestingRule.covers ⟨kind, low, high⟩ k depth) := by
  rw [follows, follows, follow, List.any_append, List.any_cons, List.any_nil, Bool.or_false,
    Bool.and_or_distrib_left]

/-- A new rule follows what was followed before. -/
theorem follows_of_follows {k : String} {depth : Nat} (h : table.follows k depth)
    (kind : String) (low high : Nat) : (table.follow kind low high).follows k depth := by
  rw [follows_follow, h, Bool.true_or]

/-- A new rule does not concern other kinds. -/
theorem follows_follow_of_ne (table : NestingTable) {kind k : String} (hk : k ≠ kind)
    (low high depth : Nat) :
    (table.follow kind low high).follows k depth = table.follows k depth := by
  have hcovers : NestingRule.covers ⟨kind, low, high⟩ k depth = false := by
    simp [NestingRule.covers, Ne.symm hk]
  rw [follows_follow, hcovers, Bool.and_false, Bool.or_false]

/-- Ways to write down a table differently: its rules in another order or with repetitions, a range
of depths in two parts, and rules with a range that is empty or out of reach. -/
inductive Respelled : NestingTable → NestingTable → Prop
  | sameRules {rules rules' : List NestingRule} (h : ∀ rule, rule ∈ rules ↔ rule ∈ rules') :
      Respelled ⟨rules⟩ ⟨rules'⟩
  | split (before after : List NestingRule) (kind : String) {low middle high : Nat}
      (hlow : low ≤ middle + 1) (hhigh : middle ≤ high) :
      Respelled ⟨before ++ ⟨kind, low, high⟩ :: after⟩
        ⟨before ++ ⟨kind, low, middle⟩ :: ⟨kind, middle + 1, high⟩ :: after⟩
  | idle (before after : List NestingRule) (rule : NestingRule)
      (h : rule.high < rule.low ∨ maxDepth < rule.low ∨ rule.high < 1) :
      Respelled ⟨before ++ after⟩ ⟨before ++ rule :: after⟩

theorem covers_split (kind k : String) {low middle high : Nat} (hlow : low ≤ middle + 1)
    (hhigh : middle ≤ high) (depth : Nat) :
    NestingRule.covers ⟨kind, low, high⟩ k depth =
      (NestingRule.covers ⟨kind, low, middle⟩ k depth ||
        NestingRule.covers ⟨kind, middle + 1, high⟩ k depth) := by
  rw [Bool.eq_iff_iff]
  simp only [NestingRule.covers, Bool.or_eq_true, Bool.and_eq_true, decide_eq_true_eq]
  constructor
  · rintro ⟨⟨hk, hl⟩, hh⟩
    by_cases hm : depth ≤ middle
    · exact Or.inl ⟨⟨hk, hl⟩, hm⟩
    · exact Or.inr ⟨⟨hk, by omega⟩, hh⟩
  · rintro (⟨⟨hk, hl⟩, hh⟩ | ⟨⟨hk, hl⟩, hh⟩)
    · exact ⟨⟨hk, hl⟩, by omega⟩
    · exact ⟨⟨hk, by omega⟩, hh⟩

/-- Tables that are written down differently follow the same kinds at all depths. -/
theorem Respelled.follows_eq (h : Respelled table table') (k : String) {depth : Nat}
    (hdepth : 1 ≤ depth) : table.follows k depth = table'.follows k depth := by
  cases h with
  | sameRules hrules =>
    have hany {rules rules' : List NestingRule} (h : ∀ rule, rule ∈ rules ↔ rule ∈ rules') :
        rules.any (·.covers k depth) = rules'.any (·.covers k depth) := by
      rw [Bool.eq_iff_iff, List.any_eq_true, List.any_eq_true]
      simp only [h]
    rw [follows, follows, hany hrules]
  | split before after kind hlow hhigh =>
    rw [follows, follows, List.any_append, List.any_append, List.any_cons, List.any_cons,
      List.any_cons, covers_split kind k hlow hhigh, Bool.or_assoc]
  | idle before after rule hrule =>
    by_cases hreach : depth ≤ maxDepth
    · have hcovers : rule.covers k depth = false := by
        rw [Bool.eq_false_iff]
        simp only [NestingRule.covers, ne_eq, Bool.and_eq_true, decide_eq_true_eq]
        omega
      rw [follows, follows, List.any_append, List.any_append, List.any_cons, hcovers,
        Bool.false_or]
    · rw [follows_of_maxDepth_lt _ k (by omega), follows_of_maxDepth_lt _ k (by omega)]

end NestingTable

/-! ### What extraction asks -/

/-- Two tables that agree on the blocks of a body make the same config of it if they do so of the
bodies of all followed blocks. -/
theorem extractAt_congr {depth : Nat} {body : Body}
    (hfollows : ∀ b ∈ body.blocks,
      table.follows b.kind (depth + 1) = table'.follows b.kind (depth + 1))
    (hmaps : ∀ b ∈ body.blocks, table.follows b.kind (depth + 1) →
      extractAt table (depth + 1) b.body = extractAt table' (depth + 1) b.body) :
    extractAt table depth body = extractAt table' depth body := by
  have hchildren : (body.blocks.filterMap fun b =>
      if table.follows b.kind (depth + 1) then some (b.kind, extractAt table (depth + 1) b.body)
      else none) = body.blocks.filterMap fun b =>
      if table'.follows b.kind (depth + 1) then some (b.kind, extractAt table' (depth + 1) b.body)
      else none := by
    refine List.filterMap_congr fun b hb => ?_
    rw [← hfollows b hb]
    split_ifs with h
    · rw [hmaps b hb h]
    · rfl
  rw [extractAt_eq, extractAt_eq, hchildren]

/-- At the greatest depth no table matters. -/
theorem extractAt_maxDepth (table table' : NestingTable) (body : Body) :
    extractAt table NestingTable.maxDepth body = extractAt table' NestingTable.maxDepth body := by
  have hnone (t : NestingTable) (kind : String) :
      t.follows kind (NestingTable.maxDepth + 1) = false :=
    t.follows_of_maxDepth_lt kind (Nat.lt_succ_self _)
  refine extractAt_congr (fun b _ => ?_) fun b _ h => ?_
  · rw [hnone, hnone]
  · rw [hnone] at h
    exact absurd h Bool.false_ne_true

/-- A table matters only through what it follows at depth one and two. -/
theorem extract_congr
    (h : ∀ kind, table.follows kind 1 = table'.follows kind 1 ∧
      table.follows kind 2 = table'.follows kind 2) (body : Body) :
    extract table body = extract table' body := by
  refine extractAt_congr (fun b _ => (h b.kind).1) fun b _ _ => ?_
  exact extractAt_congr (fun c _ => (h c.kind).2) fun c _ _ =>
    extractAt_maxDepth table table' c.body

/-! ### What a new rule changes -/

/-- A table that follows more keeps all keys, in their order. -/
theorem keys_extractAt_sublist {depth : Nat}
    (h : ∀ kind, table.follows kind (depth + 1) → table'.follows kind (depth + 1)) (body : Body) :
    (extractAt table depth body).keys.Sublist (extractAt table' depth body).keys := by
  rw [keys_extractAt, keys_extractAt]
  exact (List.Sublist.refl _).append ((List.monotone_filter_right _ h).filter _)

/-- A key keeps its value if it is followed as before and a new rule does not concern the blocks
inside its own blocks. -/
theorem lookup_extract_follow (table : NestingTable) (kind : String) (low high : Nat) (body : Body)
    {key : String} (hkey : key ≠ kind ∨ table.follows kind 1)
    (hinside : ∀ b ∈ body.blocksOf key, b.body.blocksOf kind = []) :
    (extract (table.follow kind low high) body).lookup key = (extract table body).lookup key := by
  have hfollows : (table.follow kind low high).follows key 1 = table.follows key 1 := by
    by_cases hk : key = kind
    · subst hk
      have hbefore : table.follows key 1 := hkey.resolve_left fun hne => hne rfl
      rw [hbefore, NestingTable.follows_of_follows hbefore]
    · exact table.follows_follow_of_ne hk low high 1
  have hmaps : (body.blocksOf key).map
        (fun b => extractAt (table.follow kind low high) 1 b.body) =
      (body.blocksOf key).map fun b => extractAt table 1 b.body := by
    refine List.map_congr_left fun b hb => ?_
    -- no block inside is of the new kind, and below them no table matters
    refine extractAt_congr (fun c hc => ?_) fun c _ _ => extractAt_maxDepth _ _ c.body
    have hne : c.kind ≠ kind := by
      intro hc'
      have hmem : c ∈ b.body.blocksOf kind := List.mem_filter.2 ⟨hc, by simpa using hc'⟩
      rw [hinside b hb] at hmem
      exact List.not_mem_nil hmem
    exact table.follows_follow_of_ne hne low high 2
  rw [extract, extract, lookup_extractAt, lookup_extractAt, hfollows, hmaps]

/-- **What a new rule can change.** All keys stay, in their order. A key that is not newly followed
and whose blocks hold no block of the new kind keeps its value. And tables that follow the same
kinds at depth one and two are the same to extraction, so that it does not matter how their rules
are written down. -/
theorem extract_follow (table : NestingTable) (kind : String) (low high : Nat) (body : Body) :
    (extract table body).keys.Sublist (extract (table.follow kind low high) body).keys ∧
    (∀ key, key ≠ kind ∨ table.follows kind 1 →
      (∀ b ∈ body.blocksOf key, b.body.blocksOf kind = []) →
      (extract (table.follow kind low high) body).lookup key = (extract table body).lookup key) ∧
    (∀ table' : NestingTable,
      (∀ k, table.follows k 1 = table'.follows k 1 ∧ table.follows k 2 = table'.follows k 2) →
      extract table body = extract table' body) ∧
    ∀ table' : NestingTable, table.Respelled table' → extract table body = extract table' body := by
  refine ⟨?_, ?_, ?_, ?_⟩
  · exact keys_extractAt_sublist (fun _ h => NestingTable.follows_of_follows h kind low high) body
  · intro key hkey hinside
    exact lookup_extract_follow table kind low high body hkey hinside
  · intro table' h
    exact extract_congr h body
  · intro table' h
    exact extract_congr (fun k => ⟨h.follows_eq k (Nat.le_refl 1), h.follows_eq k (by decide)⟩) body

/-- A table with one rule. -/
def ingressTable : NestingTable := NestingTable.empty.follow "ingress" 1 2

/-- A body with blocks of two kinds. -/
def ingressBody : Body :=
  [.attribute "name" (.string "web"), .block "egress" [] [],
    .block "ingress" [] [.attribute "port" (.number (.whole 443)), .block "ports" [] []]]

/-- Following `egress` as well adds a key and leaves `ingress` alone; a range beyond the greatest
depth and a range in two parts change nothing. -/
theorem extract_follow_egress :
    (∀ b ∈ ingressBody.blocksOf "ingress", b.body.blocksOf "egress" = []) ∧
      (extract ingressTable ingressBody).keys.Sublist
        (extract (ingressTable.follow "egress" 1 2) ingressBody).keys ∧
      (extract (ingressTable.follow "egress" 1 2) ingressBody).lookup "ingress" =
        (extract ingressTable ingressBody).lookup "ingress" ∧
      (∀ k, ingressTable.follows k 1 = (ingressTable.follow "egress" 3 7).follows k 1 ∧
        ingressTable.follows k 2 = (ingressTable.follow "egress" 3 7).follows k 2) ∧
      extract ingressTable ingressBody =
        extract (ingressTable.follow "egress" 3 7) ingressBody ∧
      ingressTable.Respelled ((NestingTable.empty.follow "ingress" 1 1).follow "ingress" 2 2) ∧
      extract ingressTable ingressBody =
        extract ((NestingTable.empty.follow "ingress" 1 1).follow "ingress" 2 2) ingressBody := by
  obtain ⟨hkeys, hlookup, hagree, hrespelled⟩ :=
    extract_follow ingressTable "egress" 1 2 ingressBody
  have hinside : ∀ b ∈ ingressBody.blocksOf "ingress", b.body.blocksOf "egress" = [] := by
    simp [ingressBody, Body.blocksOf, Body.blocks]
  have hfollows (k : String) :
      ingressTable.follows k 1 = (ingressTable.follow "egress" 3 7).follows k 1 ∧
        ingressTable.follows k 2 = (ingressTable.follow "egress" 3 7).follows k 2 := by
    simp [NestingTable.follows_follow, NestingRule.covers]
  have hsplit : ingressTable.Respelled
      ((NestingTable.empty.follow "ingress" 1 1).follow "ingress" 2 2) :=
    .split [] [] "ingress" (by decide) (by decide)
  exact ⟨hinside, hkeys, hlookup "ingress" (Or.inl (by decide)) hinside, hfollows,
    hagree _ hfollows, hsplit, hrespelled _ hsplit⟩

end ConfigAudit
